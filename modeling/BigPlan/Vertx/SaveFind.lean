import BigPlan.Vertx.SimpleRedisRepository

/-!
# Finding what was saved

`save` writes the text of every field that is not `null`; `findById` reads the fields in
their order, skips some types, and stops at the first text that a reader rejects.
-/
namespace BigPlan.Vertx

open Lib (SortedSet Script)
open Lib.Java Lib.Script

namespace RedisEntityDescriptor

variable {client : Client} {d : RedisEntityDescriptor} {f g : Field}

theorem eq_of_name (hf : f ∈ d.fields) (hg : g ∈ d.fields) (h : f.name = g.name) : f = g :=
  List.inj_on_of_nodup_map d.names_nodup hf hg h

/-! ## The hash after `save` -/

theorem lookup_setAll_of_notMem {pairs : List (String × String)} {name : String} (hash : Hash)
    (h : name ∉ pairs.map Prod.fst) : (setAll hash pairs).lookup name = hash.lookup name := by
  induction pairs generalizing hash with
  | nil => rfl
  | cons p pairs ih =>
    rw [List.map_cons, List.mem_cons, not_or] at h
    exact (ih _ h.2).trans (AList.lookup_insert_ne h.1)

theorem lookup_setAll_of_mem {pairs : List (String × String)} {name text : String}
    (hnodup : (pairs.map Prod.fst).Nodup) (hash : Hash) (h : (name, text) ∈ pairs) :
    (setAll hash pairs).lookup name = some text := by
  induction pairs generalizing hash with
  | nil => cases h
  | cons p pairs ih =>
    rw [List.map_cons, List.nodup_cons] at hnodup
    rcases List.mem_cons.mp h with rfl | h
    · exact (lookup_setAll_of_notMem _ hnodup.1).trans (AList.lookup_insert _)
    · exact ih hnodup.2 _ h

theorem mem_written {entity : Entity client} {name text : String} :
    (name, text) ∈ d.written entity ↔
      ∃ f ∈ d.fields, ∃ value, entity f = some value ∧ f.name = name ∧ client.text value = text := by
  simp [written]

theorem nodup_written (d : RedisEntityDescriptor) (entity : Entity client) :
    ((d.written entity).map Prod.fst).Nodup := by
  rw [written_eq_zip, List.map_fst_zip]
  · exact d.names_nodup.sublist (List.filter_sublist.map _)
  · rw [List.length_map, length_texts]

theorem lookup_written_some {entity : Entity client} {value : client.Value f.type}
    (hf : f ∈ d.fields) (h : entity f = some value) (hash : Hash) :
    (setAll hash (d.written entity)).lookup f.name = some (client.text value) :=
  lookup_setAll_of_mem (nodup_written d entity) hash (mem_written.mpr ⟨f, hf, value, h, rfl, rfl⟩)

theorem lookup_written_none {entity : Entity client} (hf : f ∈ d.fields) (h : entity f = none)
    (hash : Hash) : (setAll hash (d.written entity)).lookup f.name = hash.lookup f.name := by
  apply lookup_setAll_of_notMem
  intro hmem
  obtain ⟨⟨name, text⟩, hmem, hname⟩ := List.mem_map.mp hmem
  obtain ⟨g, hg, value, hvalue, hg', -⟩ := mem_written.mp hmem
  cases eq_of_name hg hf (hg'.trans hname)
  rw [h] at hvalue
  cases hvalue

/-! ## The entity that is found -/

/-- The reader of the field's type throws at its text. -/
def Rejects (client : Client) (hash : Hash) (f : Field) : Prop :=
  f.type.isRead = true ∧ ∃ text, hash.lookup f.name = some text ∧ client.read f.type text = none

/-- What reading the field's text makes of its value. -/
def readValue (client : Client) (hash : Hash) (f : Field) (old : Option (client.Value f.type)) :
    Option (client.Value f.type) :=
  if f.type.isRead then ((hash.lookup f.name).bind (client.read f.type)).or old else old

/-- The fields that are declared before the given one. -/
def before (d : RedisEntityDescriptor) (f : Field) : List Field := d.fields.takeWhile (· ≠ f)

/-- One round of the loop ends it or sets the field. -/
theorem readFields_cons (hash : Hash) (g : Field) (rest : List (Field × Option String))
    (inst : Entity client) :
    (Rejects client hash g ∧ readFields inst ((g, hash.lookup g.name) :: rest) = inst) ∨
      (¬ Rejects client hash g ∧ ∃ inst' : Entity client,
        readFields inst ((g, hash.lookup g.name) :: rest) = readFields inst' rest ∧
        inst' g = readValue client hash g (inst g) ∧ ∀ f ≠ g, inst' f = inst f) := by
  cases hlookup : hash.lookup g.name with
  | none =>
    refine .inr ⟨?_, inst, rfl, ?_, fun _ _ => rfl⟩
    · intro hboth
      obtain ⟨-, text, htext, -⟩ := hboth
      rw [hlookup] at htext
      cases htext
    · simp [readValue, hlookup]
  | some text =>
    cases hisRead : g.type.isRead with
    | false =>
      refine .inr ⟨?_, inst, ?_, ?_, fun _ _ => rfl⟩
      · intro hboth
        obtain ⟨h, -⟩ := hboth
        rw [hisRead] at h
        cases h
      · simp [readFields, setValue, hisRead]
      · simp [readValue, hisRead]
    | true =>
      cases hread : client.read g.type text with
      | none => exact .inl ⟨⟨hisRead, text, hlookup, hread⟩, by simp [readFields, setValue, hisRead, hread]⟩
      | some value =>
        refine .inr ⟨?_, Function.update inst g (some value), ?_, ?_, ?_⟩
        · intro hboth
          obtain ⟨-, text', htext', hnone⟩ := hboth
          obtain rfl : text = text' := Option.some.inj (hlookup.symm.trans htext')
          rw [hread] at hnone
          cases hnone
        · simp [readFields, setValue, hisRead, hread]
        · simp [readValue, hisRead, hlookup, hread]
        · exact fun f hf => Function.update_of_ne hf _ _

theorem readFields_of_notMem {hash : Hash} {fields : List Field} (hf : f ∉ fields)
    (inst : Entity client) :
    readFields inst (fields.map fun g => (g, hash.lookup g.name)) f = inst f := by
  induction fields generalizing inst with
  | nil => rfl
  | cons g fields ih =>
    rw [List.mem_cons, not_or] at hf
    rw [List.map_cons]
    rcases readFields_cons hash g _ inst with ⟨-, heq⟩ | ⟨-, inst', heq, -, hother⟩
    · rw [heq]
    · rw [heq, ih hf.2, hother f hf.1]

/-- A field is read unless the loop ends before it. -/
theorem readFields_of_mem {hash : Hash} {fields : List Field} (hnodup : fields.Nodup)
    (hf : f ∈ fields) (inst : Entity client) :
    ((∃ g ∈ fields.takeWhile (· ≠ f), Rejects client hash g) →
      readFields inst (fields.map fun g => (g, hash.lookup g.name)) f = inst f) ∧
    ((∀ g ∈ fields.takeWhile (· ≠ f), ¬ Rejects client hash g) →
      readFields inst (fields.map fun g => (g, hash.lookup g.name)) f =
        readValue client hash f (inst f)) := by
  induction fields generalizing inst with
  | nil => cases hf
  | cons g fields ih =>
    rw [List.nodup_cons] at hnodup
    rw [List.map_cons]
    by_cases hfg : f = g
    · subst hfg
      have hfirst : (f :: fields).takeWhile (· ≠ f) = [] := by simp
      rw [hfirst]
      refine ⟨fun ⟨_, hmem, _⟩ => absurd hmem List.not_mem_nil, fun _ => ?_⟩
      rcases readFields_cons hash f (fields.map fun g => (g, hash.lookup g.name)) inst with
        ⟨⟨hisRead, text, hlookup, hread⟩, heq⟩ | ⟨-, inst', heq, hself, -⟩
      · rw [heq]
        simp [readValue, hisRead, hlookup, hread]
      · rw [heq, readFields_of_notMem hnodup.1, hself]
    · have hrest : (g :: fields).takeWhile (· ≠ f) = g :: fields.takeWhile (· ≠ f) := by
        simp [Ne.symm hfg]
      rw [hrest]
      have hf' : f ∈ fields := (List.mem_cons.mp hf).resolve_left hfg
      rcases readFields_cons hash g (fields.map fun g => (g, hash.lookup g.name)) inst with
        ⟨hrejects, heq⟩ | ⟨haccepts, inst', heq, -, hother⟩
      · rw [heq]
        exact ⟨fun _ => rfl, fun h => absurd hrejects (h g List.mem_cons_self)⟩
      · rw [heq, ← hother f hfg]
        refine ⟨fun ⟨g', hg', hrejects⟩ => (ih hnodup.2 hf' inst').1 ?_, fun h =>
          (ih hnodup.2 hf' inst').2 fun g' hg' => h g' (List.mem_cons_of_mem _ hg')⟩
        rcases List.mem_cons.mp hg' with rfl | hg'
        · exact absurd hrejects haccepts
        · exact ⟨g', hg', hrejects⟩

theorem mem_of_mem_before (h : g ∈ d.before f) : g ∈ d.fields :=
  (List.takeWhile_prefix _).subset h

/-- What `findById` makes of the hash. -/
def found (client : Client) (d : RedisEntityDescriptor) (hash : Hash) : Entity client :=
  readFields (newInstance client) (d.fields.map fun g => (g, hash.lookup g.name))

theorem findById_eq {r : Redis} {id : String} {hash : Hash} (h : r.hash? (d.keyOf id) = some hash) :
    d.findById client r id = some (d.found client hash) := by
  rw [findById, Redis.hmget, h, found, List.map_prod_left_eq_zip, Option.map_some, List.map_map]
  rfl

theorem findById_eq_none {r : Redis} {id : String} (h : r.hash? (d.keyOf id) = none) :
    d.findById client r id = none := by
  rw [findById, Redis.hmget, h]
  rfl

/-- The rejected text of an earlier field hides the field. -/
def Hidden (client : Client) (d : RedisEntityDescriptor) (hash : Hash) (f : Field) : Prop :=
  ∃ g ∈ d.before f, Rejects client hash g

theorem found_of_hidden {hash : Hash} (hf : f ∈ d.fields) (h : Hidden client d hash f) :
    d.found client hash f = newInstance client f :=
  (readFields_of_mem d.names_nodup.of_map hf _).1 h

theorem found_of_not_hidden {hash : Hash} (hf : f ∈ d.fields) (h : ¬ Hidden client d hash f) :
    d.found client hash f = readValue client hash f (newInstance client f) := by
  refine (readFields_of_mem d.names_nodup.of_map hf _).2 fun g hg hrejects => ?_
  exact h ⟨g, hg, hrejects⟩

/-! ## The keys after `save` -/

/-- The key of an entity is that of the index only if it begins with `PAGE`. -/
theorem keyOf_ne_pageKey (h : d.key.toList.head?.getD 'P' ≠ 'P') (id : String) :
    d.keyOf id ≠ d.pageKey := by
  intro hkey
  have hfirst := congrArg (fun s => s.toList.head?) hkey
  simp only [keyOf, pageKey, String.toList_append] at hfirst
  cases hlist : d.key.toList with
  | nil =>
    rw [hlist] at h
    exact h rfl
  | cons c l =>
    rw [hlist] at h hfirst
    exact h (Option.some.inj hfirst)

section Save

variable {takes : ℤ → Bool} {entity : Entity client} {r : Redis} {id key : String} {hash : Hash}
  {currentTimeMillis timeout : JLong}

theorem values_expire (takes : ℤ → Bool) (key' : String) (seconds : ℤ) (r : Redis) :
    (run (Redis.expire key' takes seconds) r).2.values = r.values := by
  unfold Redis.expire
  split <;> rfl

/-- The script leaves a key that is not that of the index as it is once the fields are set. -/
theorem values_index (hkey : key ≠ d.pageKey) :
    (run (d.index takes id currentTimeMillis timeout) r).2.values key = r.values key := by
  rw [index, Redis.zadd, Script.bind_assoc, run_bind_some (run_read _)]
  cases hset : r.sortedSet? d.pageKey with
  | none => rfl
  | some set =>
    rw [Script.bind_assoc, run_bind_some run_need_some, run_bind_some (run_write _)]
    split
    · rw [values_expire]
      exact Redis.values_withSortedSet hkey
    · exact Redis.values_withSortedSet hkey

/-- A hash under the key of the index is not overwritten. -/
theorem run_index_of_none (h : r.sortedSet? d.pageKey = none) :
    run (d.index takes id currentTimeMillis timeout) r = (none, r) := by
  rw [index, Redis.zadd, Script.bind_assoc, run_bind_some (run_read _), h]
  rfl

theorem run_index_of_some {set : SortedSet String} (h : r.sortedSet? d.pageKey = some set) :
    run (d.index takes id currentTimeMillis timeout) r =
      run (if timeout.toInt > 0 then Redis.expire (d.keyOf id) takes timeout.toInt else pure ())
        (r.withSortedSet d.pageKey (set.zadd id currentTimeMillis.toInt)) := by
  rw [index, Redis.zadd, Script.bind_assoc, run_bind_some (run_read _), h, Script.bind_assoc,
    run_bind_some run_need_some, run_bind_some (run_write _)]

theorem setAll_written_ne_empty (hid : d.getId entity = some id) :
    setAll hash (d.written entity) ≠ ∅ := by
  intro hempty
  obtain ⟨value, hvalue, -⟩ := Option.map_eq_some_iff.mp hid
  have hlookup := lookup_written_some d.id_mem hvalue hash
  rw [hempty] at hlookup
  cases hlookup

theorem written_ne_nil (hid : d.getId entity = some id) : d.written entity ≠ [] := by
  intro hnil
  have hne : setAll ∅ (d.written entity) ≠ ∅ := setAll_written_ne_empty hid
  rw [hnil] at hne
  exact hne rfl

theorem run_save_of_none (hid : d.getId entity = some id) (h : r.hash? (d.keyOf id) = none) :
    run (d.save takes entity currentTimeMillis timeout) r = (none, r) := by
  rw [save_eq takes hid]
  exact run_bind_none (run_hsets_of_none (written_ne_nil hid) h)

/-- The fields are set, whatever comes of the rest. -/
theorem run_save_of_some (hid : d.getId entity = some id) (h : r.hash? (d.keyOf id) = some hash) :
    run (d.save takes entity currentTimeMillis timeout) r =
      run (d.index takes id currentTimeMillis timeout)
        (r.withHash (d.keyOf id) (setAll hash (d.written entity))) := by
  rw [save_eq takes hid]
  exact run_bind_some (run_hsets _ h)

theorem hash?_save (hid : d.getId entity = some id) (h : r.hash? (d.keyOf id) = some hash) :
    (run (d.save takes entity currentTimeMillis timeout) r).2.hash? (d.keyOf id) =
      some (setAll hash (d.written entity)) := by
  rw [run_save_of_some hid h]
  by_cases hkey : d.keyOf id = d.pageKey
  · have hnone : (r.withHash (d.keyOf id) (setAll hash (d.written entity))).sortedSet? d.pageKey =
        none := by
      rw [← hkey]
      exact Redis.sortedSet?_withHash (setAll_written_ne_empty hid)
    rw [run_index_of_none hnone]
    exact Redis.hash?_withHash
  · rw [Redis.hash?_congr (values_index hkey)]
    exact Redis.hash?_withHash

/-- The key of the index holds no hash, and that of an entity, if it is another one, nothing but a
hash. -/
structure Typed (r : Redis) : Prop where
  index : ∃ set, r.sortedSet? d.pageKey = some set
  hash : ∀ id, d.keyOf id ≠ d.pageKey → ∃ hash, r.hash? (d.keyOf id) = some hash

theorem values_save {key : String} (hid : d.getId entity = some id) (hkey : key ≠ d.keyOf id)
    (hpage : key ≠ d.pageKey) :
    (run (d.save takes entity currentTimeMillis timeout) r).2.values key = r.values key := by
  cases hhash : r.hash? (d.keyOf id) with
  | none => rw [run_save_of_none hid hhash]
  | some hash =>
    rw [run_save_of_some hid hhash, values_index hpage]
    exact Redis.values_withHash hkey

/-- The index gets the id, also if the time to live is refused then. -/
theorem sortedSet?_save {hash : Hash} {set : SortedSet String} (hid : d.getId entity = some id)
    (hne : d.keyOf id ≠ d.pageKey) (hhash : r.hash? (d.keyOf id) = some hash)
    (hset : r.sortedSet? d.pageKey = some set) :
    (run (d.save takes entity currentTimeMillis timeout) r).2.sortedSet? d.pageKey =
      some (set.zadd id currentTimeMillis.toInt) := by
  have hset' : (r.withHash (d.keyOf id) (setAll hash (d.written entity))).sortedSet? d.pageKey =
      some set :=
    (Redis.sortedSet?_congr (Redis.values_withHash hne.symm)).trans hset
  rw [run_save_of_some hid hhash, run_index_of_some hset']
  split
  · rw [Redis.sortedSet?_congr (congrFun (values_expire ..) _)]
    exact Redis.sortedSet?_withSortedSet
  · exact Redis.sortedSet?_withSortedSet

theorem typed_save (h : d.Typed r) (hid : d.getId entity = some id) (hne : d.keyOf id ≠ d.pageKey) :
    d.Typed (run (d.save takes entity currentTimeMillis timeout) r).2 := by
  obtain ⟨set, hset⟩ := h.index
  obtain ⟨hash, hhash⟩ := h.hash id hne
  refine ⟨⟨_, sortedSet?_save hid hne hhash hset⟩, fun id' hne' => ?_⟩
  by_cases hkey : d.keyOf id' = d.keyOf id
  · rw [hkey]
    exact ⟨_, hash?_save hid hhash⟩
  · rw [Redis.hash?_congr (values_save hid hkey hne')]
    exact h.hash id' hne'

end Save

/-! ## The law -/

/-- A field of the found entity is what was saved, or else what was found before. -/
def Law (d : RedisEntityDescriptor) (entity found found' : Entity client) : Prop :=
  ∀ f ∈ d.fields, (∀ value, entity f = some value → found' f = some value) ∧
    (entity f = none → found' f = found f)

/-- The saved fields that are not read have the values of a new instance, none that is read
comes after a text that stays and is rejected, and a rejected text that is overwritten has hidden
no other. -/
structure Findable (d : RedisEntityDescriptor) (entity : Entity client) (hash : Hash) : Prop where
  unread : ∀ f ∈ d.fields, f.type.isRead = false → ∀ value, entity f = some value →
    newInstance client f = some value
  reached : ∀ f ∈ d.fields, f.type.isRead = true → entity f ≠ none →
    ∀ g ∈ d.before f, entity g = none → ¬ Rejects client hash g
  hidden : ∀ f ∈ d.fields, f.type.isRead = true → entity f = none →
    (∃ text value, hash.lookup f.name = some text ∧ client.read f.type text = some value) →
    Hidden client d hash f → ∃ g ∈ d.before f, entity g = none ∧ Rejects client hash g

/-- Reading the text of a value gives the value back. -/
def ReadsBack (client : Client) : Prop :=
  ∀ t : FieldType, t.isRead = true → t ≠ .bytes → ∀ value : client.Value t,
    client.read t (client.text value) = some value

theorem newInstance_of_isRead (h : f.type.isRead = true) : newInstance client f = none := by
  obtain ⟨name, type⟩ := f
  cases type <;> first | rfl | cases h

theorem readValue_of_not_isRead {hash : Hash} {old : Option (client.Value f.type)}
    (h : f.type.isRead = false) : readValue client hash f old = old := by
  simp [readValue, h]

section Law

variable {entity : Entity client} {hash : Hash} (hlaw : ReadsBack client)
  (hbytes : ∀ f ∈ d.fields, f.type ≠ .bytes)
include hlaw hbytes

/-- The rejected texts after `save` are those that stay. -/
theorem rejects_setAll (hg : g ∈ d.fields) :
    Rejects client (setAll hash (d.written entity)) g ↔ entity g = none ∧ Rejects client hash g := by
  unfold Rejects
  cases hentity : entity g with
  | none => simp [lookup_written_none hg hentity]
  | some value =>
    rw [lookup_written_some hg hentity]
    simp only [Option.some.injEq, exists_eq_left', reduceCtorEq, false_and, iff_false, not_and]
    intro hisRead
    rw [hlaw g.type hisRead (hbytes g hg)]
    simp

theorem hidden_setAll : Hidden client d (setAll hash (d.written entity)) f ↔
    ∃ g ∈ d.before f, entity g = none ∧ Rejects client hash g := by
  unfold Hidden
  constructor
  · intro hexists
    obtain ⟨g, hg, hrejects⟩ := hexists
    exact ⟨g, hg, (rejects_setAll hlaw hbytes (mem_of_mem_before hg)).mp hrejects⟩
  · intro hexists
    obtain ⟨g, hg, hrejects⟩ := hexists
    exact ⟨g, hg, (rejects_setAll hlaw hbytes (mem_of_mem_before hg)).mpr hrejects⟩

/-- A saved field comes back if it is read and not hidden, or else if a new instance has it. -/
theorem found_some (hf : f ∈ d.fields) {value : client.Value f.type} (hvalue : entity f = some value) :
    d.found client (setAll hash (d.written entity)) f = some value ↔
      if f.type.isRead then ∀ g ∈ d.before f, entity g = none → ¬ Rejects client hash g
      else newInstance client f = some value := by
  have hhidden : Hidden client d (setAll hash (d.written entity)) f ↔
      ∃ g ∈ d.before f, entity g = none ∧ Rejects client hash g := hidden_setAll hlaw hbytes
  split
  · rename_i hisRead
    by_cases h : Hidden client d (setAll hash (d.written entity)) f
    · rw [found_of_hidden hf h, newInstance_of_isRead hisRead]
      obtain ⟨g, hg, hnone, hrejects⟩ := hhidden.mp h
      simp only [reduceCtorEq, false_iff, not_forall]
      exact ⟨g, hg, hnone, not_not.mpr hrejects⟩
    · rw [found_of_not_hidden hf h, readValue, if_pos hisRead,
        lookup_written_some hf hvalue, Option.bind_some, hlaw f.type hisRead (hbytes f hf)]
      simp only [Option.some_or, true_iff]
      intro g hg hnone hrejects
      exact h (hhidden.mpr ⟨g, hg, hnone, hrejects⟩)
  · rename_i hisRead
    rw [Bool.not_eq_true] at hisRead
    by_cases h : Hidden client d (setAll hash (d.written entity)) f
    · rw [found_of_hidden hf h]
    · rw [found_of_not_hidden hf h, readValue_of_not_isRead hisRead]

/-- Another field keeps its value unless the save has overwritten what hid it. -/
theorem found_none (hf : f ∈ d.fields) (hnone : entity f = none) :
    d.found client (setAll hash (d.written entity)) f = d.found client hash f ↔
      (f.type.isRead = true → (∃ text value, hash.lookup f.name = some text ∧
        client.read f.type text = some value) → Hidden client d hash f →
        ∃ g ∈ d.before f, entity g = none ∧ Rejects client hash g) := by
  have hhidden : Hidden client d (setAll hash (d.written entity)) f ↔
      ∃ g ∈ d.before f, entity g = none ∧ Rejects client hash g := hidden_setAll hlaw hbytes
  have hsame (old : Option (client.Value f.type)) :
      readValue client (setAll hash (d.written entity)) f old = readValue client hash f old := by
    rw [readValue, readValue, lookup_written_none hf hnone]
  rw [← hhidden]
  by_cases h' : Hidden client d (setAll hash (d.written entity)) f
  · have h : Hidden client d hash f := by
      obtain ⟨g, hg, -, hrejects⟩ := hhidden.mp h'
      exact ⟨g, hg, hrejects⟩
    simp [found_of_hidden hf h', found_of_hidden hf h, h']
  · by_cases h : Hidden client d hash f
    · rw [found_of_not_hidden hf h', found_of_hidden hf h, hsame]
      constructor
      · rintro heq hisRead ⟨text, value, hlookup, hread⟩ _
        rw [newInstance_of_isRead hisRead, readValue, if_pos hisRead, hlookup, Option.bind_some,
          hread] at heq
        cases heq
      · intro hall
        unfold readValue
        split
        · rename_i hisRead
          cases hlookup : hash.lookup f.name with
          | none => rfl
          | some text =>
            cases hread : client.read f.type text with
            | none => simp [hread]
            | some value => exact absurd (hall hisRead ⟨text, value, hlookup, hread⟩ h) h'
        · rfl
    · rw [found_of_not_hidden hf h', found_of_not_hidden hf h, hsame]
      simp [h]

end Law

/-- What `findById` returns after `save`, also after one that fails with the fields set, obeys the law
exactly if the key holds a hash or nothing and the entity and that hash are findable together. -/
theorem law_iff (client : Client) (d : RedisEntityDescriptor) (takes : ℤ → Bool)
    (entity : Entity client) (r : Redis) (currentTimeMillis timeout : JLong) (id : String)
    (hlaw : ReadsBack client) (hbytes : ∀ f ∈ d.fields, f.type ≠ .bytes)
    (hid : d.getId entity = some id) :
    (∃ before after, d.findById client r id = some before ∧
      d.findById client ((d.save takes entity currentTimeMillis timeout).run r).2 id = some after ∧
      d.Law entity before after) ↔
      ∃ hash, r.hash? (d.keyOf id) = some hash ∧ d.Findable entity hash := by
  cases hhash : r.hash? (d.keyOf id) with
  | none =>
    rw [findById_eq_none hhash]
    simp
  | some hash =>
    rw [findById_eq hhash, findById_eq (hash?_save hid hhash)]
    constructor
    · rintro ⟨_, _, ⟨⟩, ⟨⟩, h⟩
      refine ⟨hash, rfl, fun f hf hisRead value hvalue => ?_, fun f hf hisRead hsome => ?_,
        fun f hf hisRead hnone => ?_⟩
      · have hfound := (found_some hlaw hbytes hf hvalue).mp ((h f hf).1 value hvalue)
        rwa [hisRead] at hfound
      · obtain ⟨value, hvalue⟩ := Option.ne_none_iff_exists'.mp hsome
        have hfound := (found_some hlaw hbytes hf hvalue).mp ((h f hf).1 value hvalue)
        rwa [if_pos hisRead] at hfound
      · exact (found_none hlaw hbytes hf hnone).mp ((h f hf).2 hnone) hisRead
    · rintro ⟨_, ⟨⟩, h⟩
      refine ⟨_, _, rfl, rfl, fun f hf => ?_⟩
      refine ⟨fun value hvalue => (found_some hlaw hbytes hf hvalue).mpr ?_, fun hnone =>
        (found_none hlaw hbytes hf hnone).mpr fun hisRead => h.hidden f hf hisRead hnone⟩
      split
      · rename_i hisRead
        exact h.reached f hf hisRead (by simp [hvalue])
      · rename_i hisRead
        exact h.unread f hf (by simpa using hisRead) value hvalue

end RedisEntityDescriptor

/-! ## Entities of the repository -/

def isDecimal (text : String) : Bool :=
  match text.toList with
  | '-' :: digits => !digits.isEmpty && digits.all Char.isDigit
  | digits => !digits.isEmpty && digits.all Char.isDigit

/-- The texts of the values of a type. -/
def isTextOf : FieldType → String → Bool
  | .integer, text | .byte, text | .short, text | .bigInteger, text | .long, text | .int, text =>
    isDecimal text
  | .boolean, text => text == "true" || text == "false"
  | _, _ => true

/-- A client whose values are their texts. -/
def textClient : Client where
  Value t := { text : String // isTextOf t text = true }
  text := Subtype.val
  read t text := if h : isTextOf t text = true then some ⟨text, h⟩ else none
  zero := ⟨"0", by decide⟩

def textClient.value (t : FieldType) (text : String) : Option (textClient.Value t) :=
  textClient.read t text

theorem readsBack_textClient : RedisEntityDescriptor.ReadsBack textClient :=
  fun _ _ _ value => dif_pos value.2

def roleScopes : RedisEntityDescriptor where
  key := "com.gapache.security.entity.RoleScopesEntity"
  fields := [⟨"roleId", .long⟩, ⟨"scopes", .string⟩]
  idField := ⟨"roleId", .long⟩
  id_mem := by decide
  names_nodup := by decide

def jobLog : RedisEntityDescriptor where
  key := "JOB_LOG"
  fields := [⟨"id", .string⟩, ⟨"jobId", .long⟩, ⟨"triggerTime", .localDateTime⟩,
    ⟨"triggerResult", .boolean⟩, ⟨"triggerRemark", .string⟩, ⟨"executorTime", .localDateTime⟩,
    ⟨"executorResult", .boolean⟩, ⟨"executorRemark", .string⟩, ⟨"retryTimes", .int⟩,
    ⟨"params", .string⟩]
  idField := ⟨"id", .string⟩
  id_mem := by decide
  names_nodup := by decide

/-- The entity with the given texts by field name, and defaults elsewhere. -/
def entityOf (texts : List (String × String)) : Entity textClient := fun f =>
  match texts.lookup f.name with
  | some text => textClient.value f.type text
  | none => RedisEntityDescriptor.newInstance textClient f

def noKeys : Redis := { values := fun _ => none, expires := fun _ => false }

/-- Redis keeps the time at which a key expires in milliseconds, as a `long`. -/
def expireTakes (seconds : ℤ) : Bool := decide (seconds * 1000 < 2 ^ 63)

namespace RedisEntityDescriptor

/-- Both fields of a `RoleScopesEntity` are found again. -/
theorem law_iff_roleScopes :
    ∃ before after, roleScopes.findById textClient noKeys "3" = some before ∧
      roleScopes.findById textClient ((roleScopes.save expireTakes
        (entityOf [("roleId", "3"), ("scopes", "s:a:b")]) 1000 0).run noKeys).2 "3" = some after ∧
      roleScopes.Law (entityOf [("roleId", "3"), ("scopes", "s:a:b")]) before after := by
  rw [law_iff textClient roleScopes expireTakes _ noKeys 1000 0 "3" readsBack_textClient (by decide)
    (by decide +kernel)]
  have hread : ∀ f ∈ roleScopes.fields, f.type.isRead = true := by decide
  have hsome : ∀ f ∈ roleScopes.fields,
      entityOf [("roleId", "3"), ("scopes", "s:a:b")] f ≠ none := by decide +kernel
  refine ⟨∅, rfl, fun f hf hisRead => ?_, fun f _ _ _ g hg hnone => ?_, fun f hf _ hnone => ?_⟩
  · rw [hread f hf] at hisRead
    cases hisRead
  · exact absurd hnone (hsome g (mem_of_mem_before hg))
  · exact absurd hnone (hsome f hf)

/-- A new `JobLogEntity` has a trigger time, which is not found again. -/
theorem not_law_jobLog :
    ¬ ∀ (client : Client) (d : RedisEntityDescriptor) (takes : ℤ → Bool) (entity : Entity client)
      (r : Redis) (hash : Hash) (currentTimeMillis timeout : JLong) (id : String),
      ReadsBack client → (∀ f ∈ d.fields, f.type ≠ .bytes) → d.getId entity = some id →
      r.hash? (d.keyOf id) = some hash →
      ∃ before after, d.findById client r id = some before ∧
        d.findById client ((d.save takes entity currentTimeMillis timeout).run r).2 id =
          some after ∧
        d.Law entity before after := by
  intro h
  let entity := entityOf [("id", "7"), ("jobId", "1"), ("triggerTime", "2021-01-26T09:56:00"),
    ("triggerResult", "false")]
  have hbytes : ∀ f ∈ jobLog.fields, f.type ≠ .bytes := by decide
  have hid : jobLog.getId entity = some "7" := by decide +kernel
  have hnothing : noKeys.hash? (jobLog.keyOf "7") = some ∅ := rfl
  obtain ⟨before, after, -, hafter, hlaw⟩ :=
    h textClient jobLog expireTakes entity noKeys ∅ 1000 0 "7" readsBack_textClient hbytes hid hnothing
  rw [findById_eq (hash?_save hid hnothing)] at hafter
  cases hafter
  have hmem : (⟨"triggerTime", .localDateTime⟩ : Field) ∈ jobLog.fields := by decide
  have htime : entity ⟨"triggerTime", .localDateTime⟩ = some ⟨"2021-01-26T09:56:00", rfl⟩ := rfl
  have hfound := (hlaw _ hmem).1 _ htime
  rw [found_some readsBack_textClient hbytes hmem htime] at hfound
  cases hfound

/-! ## What one save changes -/

/-- The script comes to its end. The fields that are not `null` and no others are set in the hash,
the id is in the index under the time, and the hash gets a time to live only if there is a
timeout. -/
structure Saved (d : RedisEntityDescriptor) (entity : Entity client) (id : String)
    (currentTimeMillis timeout : JLong) (r : Redis) (result : Option Unit × Redis) : Prop where
  succeeds : result.1 = some ()
  set : ∀ f ∈ d.fields, ∀ value, entity f = some value →
    (result.2.hashes (d.keyOf id)).lookup f.name = some (client.text value)
  unset : ∀ name, (∀ f ∈ d.fields, f.name = name → entity f = none) →
    (result.2.hashes (d.keyOf id)).lookup name = (r.hashes (d.keyOf id)).lookup name
  score : ∀ member, (result.2.sortedSets d.pageKey).zscore member =
    if member = id then some currentTimeMillis.toInt else (r.sortedSets d.pageKey).zscore member
  others : ∀ key ≠ d.keyOf id, key ≠ d.pageKey → result.2.values key = r.values key
  expires : 0 < timeout.toInt → result.2.expires (d.keyOf id) = true
  persists : timeout.toInt ≤ 0 → result.2.expires (d.keyOf id) = r.expires (d.keyOf id)
  otherExpires : ∀ key ≠ d.keyOf id, result.2.expires key = r.expires key

/-- Two different keys hold nothing of another type, and the timeout is none or within the range of
`EXPIRE`. -/
structure Savable (d : RedisEntityDescriptor) (takes : ℤ → Bool) (id : String) (timeout : JLong)
    (r : Redis) : Prop where
  hash : ∃ hash, r.hash? (d.keyOf id) = some hash
  index : ∃ set, r.sortedSet? d.pageKey = some set
  ne : d.keyOf id ≠ d.pageKey
  takes : 0 < timeout.toInt → takes timeout.toInt = true

/-- A name is written only for a field that is not `null`. -/
theorem name_notMem_written {client : Client} {d : RedisEntityDescriptor} {entity : Entity client}
    {name : String}
    (h : ∀ f ∈ d.fields, f.name = name → entity f = none) :
    name ∉ (d.written entity).map Prod.fst := by
  intro hmem
  obtain ⟨⟨name', text⟩, hwritten, rfl⟩ := List.mem_map.mp hmem
  obtain ⟨f, hf, value, hvalue, hname, -⟩ := mem_written.mp hwritten
  rw [h f hf hname] at hvalue
  cases hvalue

section Savable

variable {client : Client} {d : RedisEntityDescriptor} {takes : ℤ → Bool} {entity : Entity client}
  {r : Redis} {id : String} {currentTimeMillis timeout : JLong}

/-- What the script leaves of a time to live. -/
def timed (d : RedisEntityDescriptor) (id : String) (timeout : JLong) (r : Redis) : Redis :=
  if 0 < timeout.toInt then { r with expires := Function.update r.expires (d.keyOf id) true } else r

theorem values_timed : (d.timed id timeout r).values = r.values := by
  unfold timed
  split <;> rfl

theorem run_expire (htakes : 0 < timeout.toInt → takes timeout.toInt = true)
    (hsome : (r.values (d.keyOf id)).isSome = true) :
    run (if timeout.toInt > 0 then Redis.expire (d.keyOf id) takes timeout.toInt else pure ()) r =
      (some (), d.timed id timeout r) := by
  unfold timed
  split
  · rename_i hpos
    rw [Redis.expire, if_pos (htakes hpos), run_write, hsome, Bool.or_true]
  · rfl

/-- The end of a script all of whose commands are taken. -/
theorem run_save {hash : Hash} {set : SortedSet String} (hid : d.getId entity = some id)
    (hhash : r.hash? (d.keyOf id) = some hash) (hset : r.sortedSet? d.pageKey = some set)
    (hne : d.keyOf id ≠ d.pageKey) (htakes : 0 < timeout.toInt → takes timeout.toInt = true) :
    run (d.save takes entity currentTimeMillis timeout) r =
      (some (), d.timed id timeout ((r.withHash (d.keyOf id) (setAll hash (d.written entity))).withSortedSet
        d.pageKey (set.zadd id currentTimeMillis.toInt))) := by
  have hset' : (r.withHash (d.keyOf id) (setAll hash (d.written entity))).sortedSet? d.pageKey =
      some set :=
    (Redis.sortedSet?_congr (Redis.values_withHash hne.symm)).trans hset
  rw [run_save_of_some hid hhash, run_index_of_some hset']
  apply run_expire htakes
  rw [Redis.values_withSortedSet hne]
  exact Redis.isSome_withHash (setAll_written_ne_empty hid)

theorem saved_timed {hash : Hash} {set : SortedSet String} (hhash : r.hash? (d.keyOf id) = some hash)
    (hset : r.sortedSet? d.pageKey = some set) (hne : d.keyOf id ≠ d.pageKey) :
    d.Saved entity id currentTimeMillis timeout r (some (), d.timed id timeout
      ((r.withHash (d.keyOf id) (setAll hash (d.written entity))).withSortedSet
        d.pageKey (set.zadd id currentTimeMillis.toInt))) := by
  let r' := d.timed id timeout ((r.withHash (d.keyOf id) (setAll hash (d.written entity))).withSortedSet
    d.pageKey (set.zadd id currentTimeMillis.toInt))
  have hbefore : r.hashes (d.keyOf id) = hash := by
    rw [Redis.hashes, hhash, Option.getD_some]
  have hafter : r'.hashes (d.keyOf id) = setAll hash (d.written entity) := by
    rw [Redis.hashes, Redis.hash?_congr (congrFun values_timed _),
      Redis.hash?_congr (Redis.values_withSortedSet hne), Redis.hash?_withHash, Option.getD_some]
  have hindex : r'.sortedSets d.pageKey = set.zadd id currentTimeMillis.toInt := by
    rw [Redis.sortedSets, Redis.sortedSet?_congr (congrFun values_timed _),
      Redis.sortedSet?_withSortedSet, Option.getD_some]
  refine ⟨rfl, fun f hf value hvalue => ?_, fun name hnone => ?_, fun member => ?_,
    fun key hkey hpage => ?_, fun hpos => ?_, fun hnot => ?_, fun key hkey => ?_⟩
  · show (r'.hashes (d.keyOf id)).lookup f.name = _
    rw [hafter]
    exact lookup_written_some hf hvalue hash
  · show (r'.hashes (d.keyOf id)).lookup name = _
    rw [hafter, hbefore]
    exact lookup_setAll_of_notMem _ (name_notMem_written hnone)
  · show (r'.sortedSets d.pageKey).zscore member = _
    rw [hindex, Redis.sortedSets, hset]
    exact SortedSet.zscore_zadd
  · show r'.values key = _
    rw [values_timed, Redis.values_withSortedSet hpage, Redis.values_withHash hkey]
  · show (d.timed id timeout _).expires (d.keyOf id) = true
    rw [timed, if_pos hpos]
    exact Function.update_self ..
  · show (d.timed id timeout _).expires (d.keyOf id) = _
    rw [timed, if_neg (not_lt.mpr hnot)]
    rfl
  · show (d.timed id timeout _).expires key = _
    unfold timed
    split
    · exact Function.update_of_ne hkey ..
    · rfl

theorem savable_of_succeeds (hid : d.getId entity = some id)
    (h : (run (d.save takes entity currentTimeMillis timeout) r).1 = some ()) :
    d.Savable takes id timeout r := by
  cases hhash : r.hash? (d.keyOf id) with
  | none =>
    rw [run_save_of_none hid hhash] at h
    cases h
  | some hash =>
    rw [run_save_of_some hid hhash] at h
    cases hset : (r.withHash (d.keyOf id) (setAll hash (d.written entity))).sortedSet? d.pageKey with
    | none =>
      rw [run_index_of_none hset] at h
      cases h
    | some set =>
      rw [run_index_of_some hset] at h
      have hne : d.keyOf id ≠ d.pageKey := by
        intro hsame
        rw [← hsame, Redis.sortedSet?_withHash (setAll_written_ne_empty hid)] at hset
        cases hset
      refine ⟨⟨hash, hhash⟩, ⟨set, ?_⟩, hne, fun hpos => ?_⟩
      · rw [← hset]
        exact (Redis.sortedSet?_congr (Redis.values_withHash hne.symm)).symm
      · rw [if_pos hpos, Redis.expire] at h
        by_contra hrefuses
        rw [if_neg hrefuses] at h
        cases h

end Savable

/-- A save does all that it is for exactly if Redis takes all of its commands. -/
theorem saved_iff_savable (client : Client) (d : RedisEntityDescriptor) (takes : ℤ → Bool)
    (entity : Entity client) (id : String) (currentTimeMillis timeout : JLong) (r : Redis)
    (hid : d.getId entity = some id) :
    d.Saved entity id currentTimeMillis timeout r
      ((d.save takes entity currentTimeMillis timeout).run r) ↔ d.Savable takes id timeout r := by
  refine ⟨fun h => savable_of_succeeds hid h.succeeds, fun h => ?_⟩
  obtain ⟨hash, hhash⟩ := h.hash
  obtain ⟨set, hset⟩ := h.index
  rw [run_save hid hhash hset h.ne h.takes]
  exact saved_timed hhash hset h.ne

/-- A job's log with `null` in most of its fields. -/
theorem saved_iff_savable_jobLog :
    jobLog.Saved (entityOf [("id", "7"), ("jobId", "1"), ("retryTimes", "2")]) "7" 1000 60 noKeys
      ((jobLog.save expireTakes (entityOf [("id", "7"), ("jobId", "1"), ("retryTimes", "2")])
        1000 60).run noKeys) :=
  (saved_iff_savable textClient jobLog expireTakes _ "7" 1000 60 noKeys (by decide +kernel)).mpr
    ⟨⟨∅, rfl⟩, ⟨.empty, rfl⟩, by decide, fun _ => by decide⟩

/-- The fields and the index are written, and then the time to live is refused. -/
theorem not_saved_maxTimeout :
    ¬ ∀ (client : Client) (d : RedisEntityDescriptor) (entity : Entity client) (id : String)
      (currentTimeMillis timeout : JLong), d.getId entity = some id →
      d.keyOf id ≠ d.pageKey →
      d.Saved entity id currentTimeMillis timeout noKeys
        ((d.save expireTakes entity currentTimeMillis timeout).run noKeys) := by
  intro h
  let entity := entityOf [("roleId", "3"), ("scopes", "s:a:b")]
  have hid : roleScopes.getId entity = some "3" := by decide +kernel
  have hsaved := h textClient roleScopes entity "3" 1000 (BitVec.intMax 64) hid (by decide)
  have htakes := (savable_of_succeeds hid hsaved.succeeds).takes (by decide)
  exact absurd htakes (by decide)

end RedisEntityDescriptor

end BigPlan.Vertx

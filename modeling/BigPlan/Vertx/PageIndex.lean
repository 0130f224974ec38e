import BigPlan.Lib.Fallible
import BigPlan.Lib.Runs
import BigPlan.Vertx.SaveFind

/-!
# The index of the pages

The ids of one class of entities are in a sorted set that only `save` changes. A hash that
is deleted or that expires leaves its id there.
-/
namespace BigPlan.Vertx

open Lib (SortedSet Script)
open Lib.Java Lib.Runs Lib.Fallible
open Lib.Script hiding run

/-- What happens to the entities of one class. A hash expires at some time after its time to
live was set. -/
inductive EntityAction (client : Client) where
  | save (entity : Entity client) (currentTimeMillis timeout : JLong)
  | delete (entity : Entity client)
  | expire (id : String)

namespace RedisEntityDescriptor

variable {client : Client} (d : RedisEntityDescriptor)

/-- The hash of the id exists. -/
def Live (r : Redis) (id : String) : Prop := r.hashes (d.keyOf id) ≠ ∅

/-- A save that fails leaves what it wrote before. -/
def step (takes : ℤ → Bool) (r : Redis) : EntityAction client → Redis
  | .save entity currentTimeMillis timeout =>
    ((d.save takes entity currentTimeMillis timeout).run r).2
  | .delete entity => ((d.delete entity).run r).2
  | .expire id => if r.expires (d.keyOf id) then r.del (d.keyOf id) else r

/-- The members of the index are the ids whose hash exists. -/
def Indexed (r : Redis) : Prop := ∀ id, id ∈ (r.sortedSets d.pageKey).members ↔ d.Live r id

/-- The answers to the requests for the first pages. -/
def pages (client : Client) (number : JInt) (asc : Bool) (currentTimeMillis : JLong) (r : Redis)
    (count : Nat) : Option (List (PageResult client)) :=
  (List.range count).mapM fun p =>
    d.page client (BitVec.ofNat 32 (p + 1)) number asc currentTimeMillis r

def pageCount (total number : Nat) : Nat := (total + number - 1) / number

/-- For every page size, the pages hold the entity of each hash once and nothing else. No
entity may have been saved after the time of the requests, and the indices are `int`s. -/
def Tiled (client : Client) (r : Redis) : Prop :=
  ∀ (number : JInt) (asc : Bool) (currentTimeMillis : JLong), 1 ≤ number.toInt →
    (∀ p ∈ (r.sortedSets d.pageKey).entries, 0 ≤ p.2 ∧ p.2 ≤ currentTimeMillis.toInt) →
    ∃ ids : List String, ids.Nodup ∧ (∀ id, id ∈ ids ↔ d.Live r id) ∧
      (ids.length < 2 ^ 31 → pageCount ids.length number.toNat * number.toNat ≤ 2 ^ 31 →
        ∃ results, d.pages client number asc currentTimeMillis r
            (pageCount ids.length number.toNat) = some results ∧
          (∀ result ∈ results, result.total.toNat = ids.length) ∧
          (results.flatMap PageResult.items).map some =
            ids.map fun id => d.readHash client (r.hashes (d.keyOf id)))

def Paged (client : Client) (r : Redis) : Prop := d.Indexed r ∧ d.Tiled client r

/-- The action deletes no key that exists, and makes no hash of the key of the index. -/
def Retains (r : Redis) : EntityAction client → Prop
  | .save entity _ _ =>
    ∀ id, d.getId entity = some id → d.keyOf id = d.pageKey → r.values d.pageKey ≠ none
  | .delete entity => ∀ id, d.getId entity = some id → r.values (d.keyOf id) = none
  | .expire id => r.expires (d.keyOf id) = true → r.values (d.keyOf id) = none

variable {d} {takes : ℤ → Bool} {r : Redis} {id : String}

theorem keyOf_inj {id' : String} (h : d.keyOf id = d.keyOf id') : id = id' :=
  String.append_right_inj _ |>.mp h

/-! ## One step -/

theorem hash?_of_live (h : d.Live r id) : ∃ hash, r.hash? (d.keyOf id) = some hash ∧ hash ≠ ∅ := by
  unfold Live Redis.hashes at h
  cases hhash : r.hash? (d.keyOf id) with
  | none =>
    rw [hhash] at h
    exact absurd rfl h
  | some hash =>
    rw [hhash] at h
    exact ⟨hash, rfl, h⟩

theorem live_congr {r' : Redis} (h : r'.values (d.keyOf id) = r.values (d.keyOf id)) :
    d.Live r' id ↔ d.Live r id := by
  rw [Live, Live, Redis.hashes, Redis.hashes, Redis.hash?_congr h]

theorem sortedSets_congr {r' : Redis} {key : String} (h : r'.values key = r.values key) :
    r'.sortedSets key = r.sortedSets key := by
  rw [Redis.sortedSets, Redis.sortedSets, Redis.sortedSet?_congr h]

theorem sortedSets_eq {set : SortedSet String} {key : String} (h : r.sortedSet? key = some set) :
    r.sortedSets key = set := by
  rw [Redis.sortedSets, h, Option.getD_some]

/-- The key of a hash is not that of the index. -/
theorem ne_of_live (h : d.Typed r) (hlive : d.Live r id) : d.keyOf id ≠ d.pageKey := by
  intro hkey
  obtain ⟨hash, hhash, hne⟩ := hash?_of_live hlive
  obtain ⟨set, hset⟩ := h.index
  rw [← hkey] at hset
  rw [Redis.hash?_of_none (Redis.values_eq_none hhash hset)] at hhash
  exact hne (Option.some.inj hhash).symm

section Save

variable {entity : Entity client} {currentTimeMillis timeout : JLong}

theorem live_save (h : d.Typed r) (hid : d.getId entity = some id) (hne : d.keyOf id ≠ d.pageKey)
    (id' : String) :
    d.Live ((d.save takes entity currentTimeMillis timeout).run r).2 id' ↔
      id' = id ∨ d.Live r id' := by
  obtain ⟨hash, hhash⟩ := h.hash id hne
  by_cases hsame : id' = id
  · subst hsame
    refine iff_of_true ?_ (.inl rfl)
    rw [Live, Redis.hashes, hash?_save hid hhash]
    exact setAll_written_ne_empty hid
  · have hkey : d.keyOf id' ≠ d.keyOf id := fun heq => hsame (keyOf_inj heq)
    rw [or_iff_right hsame]
    by_cases hpage : d.keyOf id' = d.pageKey
    · exact iff_of_false (fun hlive => ne_of_live (typed_save h hid hne) hlive hpage)
        fun hlive => ne_of_live h hlive hpage
    · exact live_congr (values_save hid hkey hpage)

theorem indexed_save (h : d.Typed r) (hindexed : d.Indexed r) (hid : d.getId entity = some id)
    (hne : d.keyOf id ≠ d.pageKey) :
    d.Indexed ((d.save takes entity currentTimeMillis timeout).run r).2 := by
  intro id'
  obtain ⟨set, hset⟩ := h.index
  obtain ⟨hash, hhash⟩ := h.hash id hne
  rw [live_save h hid hne, ← hindexed id', sortedSets_eq hset,
    sortedSets_eq (sortedSet?_save hid hne hhash hset)]
  exact SortedSet.mem_members_zadd

/-- A hash of the index's own key cannot be made while there is an index, and hides it otherwise. -/
theorem save_pageKey (h : d.Typed r) (hid : d.getId entity = some id) (hkey : d.keyOf id = d.pageKey) :
    (r.values d.pageKey ≠ none →
      (d.save takes entity currentTimeMillis timeout).run r = (none, r)) ∧
    (r.values d.pageKey = none →
      ¬ d.Indexed ((d.save takes entity currentTimeMillis timeout).run r).2) := by
  constructor
  · intro hsome
    refine run_save_of_none hid ?_
    cases hhash : r.hash? (d.keyOf id) with
    | none => rfl
    | some hash =>
      obtain ⟨set, hset⟩ := h.index
      rw [hkey] at hhash
      exact absurd (Redis.values_eq_none hhash hset) hsome
  · intro hnone hindexed
    have hhash : r.hash? (d.keyOf id) = some ∅ := Redis.hash?_of_none (hkey ▸ hnone)
    have hsaved : ((d.save takes entity currentTimeMillis timeout).run r).2.hash? (d.keyOf id) =
        some (setAll ∅ (d.written entity)) := hash?_save hid hhash
    have hne : setAll ∅ (d.written entity) ≠ ∅ := setAll_written_ne_empty hid
    have hlive : d.Live ((d.save takes entity currentTimeMillis timeout).run r).2 id := by
      rw [Live, Redis.hashes, hsaved]
      exact hne
    have hmem := (hindexed id).mpr hlive
    rw [hkey] at hsaved
    rw [Redis.sortedSets, Redis.sortedSet?_of_hash? hsaved hne] at hmem
    cases hmem

end Save

/-- A hash that goes leaves its id in the index, and an index that goes leaves the hashes. -/
theorem indexed_del (h : d.Typed r) (hindexed : d.Indexed r) :
    d.Indexed (r.del (d.keyOf id)) ↔ r.values (d.keyOf id) = none := by
  constructor
  · intro hafter
    by_contra hsome
    obtain ⟨set, hset⟩ := h.index
    by_cases hkey : d.keyOf id = d.pageKey
    · rw [hkey] at hafter hsome
      obtain ⟨a, ha⟩ := List.exists_mem_of_ne_nil _ (Redis.members_ne_nil hset hsome)
      have hlive : d.Live r a := (hindexed a).mp (by rwa [sortedSets_eq hset])
      have hne := ne_of_live h hlive
      have hmem := (hafter a).mpr ((live_congr (Redis.values_del_of_ne hne)).mpr hlive)
      rw [sortedSets_eq (Redis.sortedSet?_of_none Redis.values_del)] at hmem
      cases hmem
    · obtain ⟨hash, hhash⟩ := h.hash id hkey
      have hlive : d.Live r id := by
        rw [Live, Redis.hashes, hhash]
        exact Redis.ne_empty hhash hsome
      have hmem := (hindexed id).mpr hlive
      rw [← sortedSets_congr (Redis.values_del_of_ne (Ne.symm hkey))] at hmem
      apply (hafter id).mp hmem
      rw [Redis.hashes, Redis.hash?_of_none Redis.values_del, Option.getD_some]
  · intro hnone id'
    rw [sortedSets_congr (Redis.values_del_of_eq_none hnone),
      live_congr (Redis.values_del_of_eq_none hnone)]
    exact hindexed id'

/-! ## Pages -/

theorem toInt_of_lt {x : JInt} {n : Nat} (h : x.toNat = n) (hn : n < 2 ^ 31) : x.toInt = n := by
  rw [BitVec.toInt_eq_toNat_of_lt (by omega), h]

/-- The index of the last element is -1 if the page reaches beyond the end. -/
theorem pageRange_eq {n : JInt} {total p : Nat} (hn : 1 ≤ n.toNat) (htotal : total < 2 ^ 31)
    (hstart : p * n.toNat < total) (hfit : p * n.toNat + n.toNat ≤ 2 ^ 31) :
    (pageRange (BitVec.ofNat 32 (p + 1)) n (BitVec.ofNat 32 total)).1.toInt = (p * n.toNat : Nat) ∧
    (pageRange (BitVec.ofNat 32 (p + 1)) n (BitVec.ofNat 32 total)).2.toInt =
      if total ≤ p * n.toNat + n.toNat - 1 then -1
      else ((p * n.toNat : Nat) + n.toNat - 1 : Int) := by
  have hp : p ≤ p * n.toNat := Nat.le_mul_of_pos_right p hn
  have h1 : (1 : JInt).toNat = 1 := rfl
  have hpage : ((BitVec.ofNat 32 (p + 1) : JInt) - 1).toNat = p := by
    simp only [BitVec.toNat_sub, BitVec.toNat_ofNat, h1]
    omega
  have hfirst : (((BitVec.ofNat 32 (p + 1) : JInt) - 1) * n).toNat = p * n.toNat := by
    rw [BitVec.toNat_mul, hpage]
    exact Nat.mod_eq_of_lt (by omega)
  have htemp : (((BitVec.ofNat 32 (p + 1) : JInt) - 1) * n + n - 1).toNat =
      p * n.toNat + n.toNat - 1 := by
    simp only [BitVec.toNat_sub, BitVec.toNat_add, hfirst, h1]
    omega
  have hlast : ((BitVec.ofNat 32 total : JInt) - 1).toNat = total - 1 := by
    simp only [BitVec.toNat_sub, BitVec.toNat_ofNat, h1]
    omega
  refine ⟨toInt_of_lt hfirst (by omega), ?_⟩
  have hslt : ((BitVec.ofNat 32 total : JInt) - 1).slt
      (((BitVec.ofNat 32 (p + 1) : JInt) - 1) * n + n - 1) =
        decide (total ≤ p * n.toNat + n.toNat - 1) := by
    rw [BitVec.slt, toInt_of_lt hlast (by omega), toInt_of_lt htemp (by omega)]
    exact decide_eq_decide.mpr (by omega)
  simp only [pageRange, hslt, decide_eq_true_eq]
  split
  · rfl
  · rw [toInt_of_lt htemp (by omega)]
    omega

/-- Every text in the hash has a reader that takes it. -/
def Readable (client : Client) (d : RedisEntityDescriptor) (hash : Hash) : Prop :=
  ∀ f ∈ d.fields, ¬ Rejects client hash f

theorem readHash_isSome {hash : Hash} (h : Readable client d hash) :
    ∃ entity, d.readHash client hash = some entity := by
  refine foldlM_isSome ?_ (newInstance client)
  intro inst entry hentry
  cases hfind : d.fields.find? fun f => f.name = entry.1 with
  | none => exact ⟨inst, rfl⟩
  | some f =>
    have hf := List.mem_of_find?_eq_some hfind
    have hname : f.name = entry.1 := by simpa using List.find?_some hfind
    have hlookup : hash.lookup f.name = some entry.2 := by
      rw [hname]
      exact AList.mem_lookup_iff.mpr hentry
    cases hread : client.read f.type entry.2 with
    | none =>
      have hisRead : f.type.isRead = false := by
        by_contra hisRead
        exact h f hf ⟨by simpa using hisRead, entry.2, hlookup, hread⟩
      exact ⟨inst, by simp [setValue, hisRead]⟩
    | some value =>
      cases hisRead : f.type.isRead <;> simp [setValue, hisRead, hread]

/-- The elements of one page, in either direction. -/
theorem page_eq {number : JInt} {asc : Bool} {currentTimeMillis : JLong} {p : Nat}
    (h : d.Typed r) (hindexed : d.Indexed r) (hn : 1 ≤ number.toNat)
    (hscores : ∀ p ∈ (r.sortedSets d.pageKey).entries, 0 ≤ p.2 ∧ p.2 ≤ currentTimeMillis.toInt)
    (htotal : (r.sortedSets d.pageKey).members.length < 2 ^ 31)
    (hstart : p * number.toNat < (r.sortedSets d.pageKey).members.length)
    (hfit : p * number.toNat + number.toNat ≤ 2 ^ 31) :
    d.page client (BitVec.ofNat 32 (p + 1)) number asc currentTimeMillis r = some
      { items := (((if asc then (r.sortedSets d.pageKey).members
          else (r.sortedSets d.pageKey).members.reverse).drop (p * number.toNat)).take
            number.toNat).filterMap fun id => d.readHash client (r.hashes (d.keyOf id))
        total := BitVec.ofNat 32 (r.sortedSets d.pageKey).members.length } := by
  obtain ⟨set, hset⟩ := h.index
  rw [sortedSets_eq hset] at hscores htotal hstart ⊢
  obtain ⟨hfirst, hstop⟩ := pageRange_eq hn htotal hstart hfit
  have hslice (l : List String) (hl : l.length = set.members.length) :
      Lib.slice l (p * number.toNat : Nat)
        (if set.members.length ≤ p * number.toNat + number.toNat - 1 then -1
          else ((p * number.toNat : Nat) + number.toNat - 1 : Int)) =
        (l.drop (p * number.toNat)).take number.toNat := by
    split
    · exact Lib.slice_to_end (by omega)
    · exact Lib.slice_page hn
  have hhashes (ids : List String) (hids : ids ⊆ set.members) :
      (ids.mapM fun id => r.hash? (d.keyOf id)) = some (ids.map fun id => r.hashes (d.keyOf id)) := by
    refine mapM_eq_some fun id hid => ?_
    have hlive : d.Live r id := (hindexed id).mp (by rw [sortedSets_eq hset]; exact hids hid)
    obtain ⟨hash, hhash, -⟩ := hash?_of_live hlive
    rw [Redis.hashes, hhash, Option.getD_some]
  simp only [page, hset, SortedSet.zcount_eq_length hscores, htotal, if_true, hfirst, hstop,
    SortedSet.zrange, SortedSet.zrevrange, hslice _ rfl, hslice _ (List.length_reverse ..),
    Option.bind_eq_bind, Option.bind_some]
  cases asc with
  | true =>
    simp only [if_true]
    rw [hhashes _ fun id hid => List.mem_of_mem_drop (List.mem_of_mem_take hid), Option.bind_some,
      List.filterMap_map]
    rfl
  | false =>
    simp only [Bool.false_eq_true, if_false]
    rw [hhashes _ fun id hid =>
      List.mem_reverse.mp (List.mem_of_mem_drop (List.mem_of_mem_take hid)), Option.bind_some,
      List.filterMap_map]
    rfl

theorem length_le_pageCount {total n : Nat} (hn : 1 ≤ n) : total ≤ pageCount total n * n := by
  have hlt := Nat.lt_mul_div_succ (total + n - 1) hn
  rw [Nat.mul_succ, Nat.mul_comm] at hlt
  unfold pageCount
  omega

theorem lt_of_lt_pageCount {total n p : Nat} (hn : 1 ≤ n) (hp : p < pageCount total n) :
    p * n < total ∧ p * n + n ≤ pageCount total n * n := by
  have hsucc : (p + 1) * n ≤ pageCount total n * n := Nat.mul_le_mul_right n hp
  have hcount : pageCount total n * n ≤ total + n - 1 := Nat.div_mul_le_self ..
  rw [Nat.succ_mul] at hsucc
  omega

/-- The pages follow from the index: it is cut into pieces of the page size. -/
theorem tiled_of_indexed (htyped : d.Typed r) (h : d.Indexed r)
    (hreadable : ∀ id, Readable client d (r.hashes (d.keyOf id))) : d.Tiled client r := by
  intro number asc currentTimeMillis hnumber hscores
  let ids := if asc then (r.sortedSets d.pageKey).members
    else (r.sortedSets d.pageKey).members.reverse
  have hperm : ids.Perm (r.sortedSets d.pageKey).members := by
    cases asc with
    | false => exact List.reverse_perm _
    | true => exact List.Perm.refl _
  refine ⟨ids, hperm.nodup_iff.mpr SortedSet.nodup_members, fun id => hperm.mem_iff.trans (h id), ?_⟩
  rw [hperm.length_eq]
  intro htotal hfit
  have hn : 1 ≤ number.toNat := by
    rcases Nat.eq_zero_or_pos number.toNat with hzero | hpos
    · rw [toInt_of_lt hzero (by decide)] at hnumber
      omega
    · exact hpos
  have hpage : ∀ p ∈ List.range (pageCount (r.sortedSets d.pageKey).members.length number.toNat),
      d.page client (BitVec.ofNat 32 (p + 1)) number asc currentTimeMillis r = some
        { items := ((ids.drop (p * number.toNat)).take number.toNat).filterMap fun id =>
            d.readHash client (r.hashes (d.keyOf id))
          total := BitVec.ofNat 32 (r.sortedSets d.pageKey).members.length } := by
    intro p hp
    obtain ⟨hstart, hstop⟩ := lt_of_lt_pageCount hn (List.mem_range.mp hp)
    exact page_eq htyped h hn hscores htotal hstart (hstop.trans hfit)
  refine ⟨_, mapM_eq_some hpage, ?_, ?_⟩
  · intro result hresult
    obtain ⟨p, -, rfl⟩ := List.mem_map.mp hresult
    rw [BitVec.toNat_ofNat]
    exact Nat.mod_eq_of_lt (by omega)
  · rw [List.flatMap_map]
    show (List.flatMap (fun p => ((ids.drop (p * number.toNat)).take number.toNat).filterMap _)
      (List.range _)).map some = _
    rw [← List.filterMap_flatMap, Lib.flatMap_pages, List.take_of_length_le
      (hperm.length_eq.trans_le (length_le_pageCount hn))]
    exact map_some_filterMap fun id _ => readHash_isSome (hreadable id)

/-! ## Runs -/

/-- The readers take the texts of the values. -/
def Accepts (client : Client) : Prop :=
  ∀ t : FieldType, t.isRead = true → ∀ value : client.Value t,
    client.read t (client.text value) ≠ none

theorem readable_setAll (haccepts : Accepts client) {entity : Entity client} {hash : Hash}
    (h : Readable client d hash) : Readable client d (setAll hash (d.written entity)) := by
  rintro f hf ⟨hisRead, text, hlookup, hread⟩
  cases hentity : entity f with
  | none =>
    rw [lookup_written_none hf hentity] at hlookup
    exact h f hf ⟨hisRead, text, hlookup, hread⟩
  | some value =>
    rw [lookup_written_some hf hentity] at hlookup
    cases hlookup
    exact haccepts f.type hisRead value hread

theorem readable_empty : Readable client d ∅ := by
  rintro f - ⟨-, text, hlookup, -⟩
  cases hlookup

/-- What holds in every state of a run that retains the hashes. -/
structure Sound (client : Client) (d : RedisEntityDescriptor) (r : Redis) : Prop where
  typed : d.Typed r
  indexed : d.Indexed r
  readable : ∀ id, Readable client d (r.hashes (d.keyOf id))

theorem Sound.congr (h : d.Sound client r) {r' : Redis} (hvalues : ∀ key, r'.values key = r.values key) :
    d.Sound client r' := by
  obtain ⟨set, hset⟩ := h.typed.index
  refine ⟨⟨⟨set, ?_⟩, fun id hne => ?_⟩, fun id => ?_, fun id => ?_⟩
  · rw [Redis.sortedSet?_congr (hvalues _), hset]
  · rw [Redis.hash?_congr (hvalues _)]
    exact h.typed.hash id hne
  · rw [sortedSets_congr (hvalues _), live_congr (hvalues _)]
    exact h.indexed id
  · rw [Redis.hashes, Redis.hash?_congr (hvalues _)]
    exact h.readable id

section Save

variable {entity : Entity client} {currentTimeMillis timeout : JLong}

theorem readable_save (haccepts : Accepts client) (h : d.Sound client r)
    (hid : d.getId entity = some id) (hne : d.keyOf id ≠ d.pageKey) (id' : String) :
    Readable client d
      (((d.save takes entity currentTimeMillis timeout).run r).2.hashes (d.keyOf id')) := by
  obtain ⟨hash, hhash⟩ := h.typed.hash id hne
  by_cases hkey : d.keyOf id' = d.keyOf id
  · have hold := h.readable id
    rw [Redis.hashes, hhash, Option.getD_some] at hold
    rw [hkey, Redis.hashes, hash?_save hid hhash, Option.getD_some]
    exact readable_setAll haccepts hold
  · by_cases hpage : d.keyOf id' = d.pageKey
    · have hempty : ((d.save takes entity currentTimeMillis timeout).run r).2.hashes (d.keyOf id') =
          ∅ := by
        by_contra hlive
        exact ne_of_live (typed_save h.typed hid hne) hlive hpage
      rw [hempty]
      exact readable_empty
    · rw [Redis.hashes, Redis.hash?_congr (values_save hid hkey hpage)]
      exact h.readable id'

theorem sound_save (haccepts : Accepts client) (h : d.Sound client r)
    (hretains : d.Retains r (.save entity currentTimeMillis timeout)) :
    d.Sound client (d.step takes r (.save entity currentTimeMillis timeout)) := by
  show d.Sound client ((d.save takes entity currentTimeMillis timeout).run r).2
  cases hid : d.getId entity with
  | none =>
    have hsame : (d.save takes entity currentTimeMillis timeout).run r = (none, r) := by
      rw [save, hid]
      exact run_bind_none run_need_none
    rw [hsame]
    exact h
  | some id =>
    by_cases hkey : d.keyOf id = d.pageKey
    · rw [(save_pageKey h.typed hid hkey).1 (hretains id hid hkey)]
      exact h
    · exact ⟨typed_save h.typed hid hkey, indexed_save h.typed h.indexed hid hkey,
        readable_save haccepts h hid hkey⟩

end Save

theorem Sound.del_iff (h : d.Sound client r) :
    (r.values (d.keyOf id) = none → d.Sound client (r.del (d.keyOf id))) ∧
      (r.values (d.keyOf id) ≠ none → ¬ d.Indexed (r.del (d.keyOf id))) :=
  ⟨fun hnone => h.congr fun _ => Redis.values_del_of_eq_none hnone,
    fun hsome hindexed => hsome ((indexed_del h.typed h.indexed).mp hindexed)⟩

theorem run_delete {entity : Entity client} (hid : d.getId entity = some id) :
    (d.delete entity).run r = (some (), r.del (d.keyOf id)) := by
  rw [delete, hid, run_bind_some run_need_some, run_write]

theorem run_delete_of_none {entity : Entity client} (hid : d.getId entity = none) :
    (d.delete entity).run r = (none, r) := by
  rw [delete, hid]
  exact run_bind_none run_need_none

theorem sound_step (haccepts : Accepts client) (a : EntityAction client) (h : d.Sound client r)
    (hretains : d.Retains r a) : d.Sound client (d.step takes r a) := by
  cases a with
  | save entity currentTimeMillis timeout => exact sound_save haccepts h hretains
  | delete entity =>
    show d.Sound client ((d.delete entity).run r).2
    cases hid : d.getId entity with
    | none =>
      rw [run_delete_of_none hid]
      exact h
    | some id =>
      rw [run_delete hid]
      exact h.del_iff.1 (hretains id hid)
  | expire id =>
    show d.Sound client (if r.expires (d.keyOf id) then r.del (d.keyOf id) else r)
    split
    · rename_i hexpires
      exact h.del_iff.1 (hretains hexpires)
    · exact h

theorem retains_of_indexed (a : EntityAction client) (h : d.Sound client r)
    (hindexed : d.Indexed (d.step takes r a)) : d.Retains r a := by
  cases a with
  | save entity currentTimeMillis timeout =>
    intro id hid hkey hnone
    exact (save_pageKey h.typed hid hkey).2 hnone hindexed
  | delete entity =>
    intro id hid
    have hdel : d.Indexed ((d.delete entity).run r).2 := hindexed
    rw [run_delete hid] at hdel
    exact (indexed_del h.typed h.indexed).mp hdel
  | expire id =>
    intro hexpires
    have hdel : d.Indexed (if r.expires (d.keyOf id) then r.del (d.keyOf id) else r) := hindexed
    rw [if_pos hexpires] at hdel
    exact (indexed_del h.typed h.indexed).mp hdel

theorem sound_noKeys (d : RedisEntityDescriptor) : d.Sound client noKeys := by
  refine ⟨⟨⟨.empty, rfl⟩, fun id _ => ⟨∅, rfl⟩⟩, fun id => ?_, fun id => readable_empty⟩
  constructor
  · intro hmem
    cases hmem
  · intro hlive
    exact absurd rfl hlive

/-- From the empty store, the index and the pages are right in exactly the runs in which no key goes
that exists, and no hash comes in the place of the index. -/
theorem paged_iff (client : Client) (d : RedisEntityDescriptor) (takes : ℤ → Bool)
    (actions : List (EntityAction client)) (haccepts : Accepts client) :
    Throughout (d.step takes) (d.Paged client) noKeys actions ↔
      Along (d.step takes) d.Retains noKeys actions := by
  apply throughout_iff_along (fun _ r => d.Sound client r)
  · intro r _ h
    exact ⟨h.indexed, tiled_of_indexed h.typed h.indexed h.readable⟩
  · intro r a _ h hretains
    exact sound_step haccepts a h hretains
  · intro r a _ h hretains hpaged
    exact hretains (retains_of_indexed a h hpaged.1)
  · exact sound_noKeys d

theorem accepts_textClient : Accepts textClient := by
  intro t _ value hread
  rw [show textClient.read t (textClient.text value) = some value from dif_pos value.2] at hread
  cases hread

theorem retains_roleScopes {entity : Entity client} {currentTimeMillis timeout : JLong} :
    roleScopes.Retains r (.save entity currentTimeMillis timeout) :=
  fun id _ hkey => absurd hkey (keyOf_ne_pageKey (by decide) id)

/-- The scopes of role 3 are saved twice, with a time to live that is refused the second time. -/
theorem paged_iff_saves :
    Throughout (roleScopes.step expireTakes) (roleScopes.Paged textClient) noKeys
      [.save (entityOf [("roleId", "3"), ("scopes", "s:a:b")]) 1000 0,
        .save (entityOf [("roleId", "3"), ("scopes", "s:a:c")]) 2000 (BitVec.intMax 64)] := by
  rw [paged_iff textClient roleScopes expireTakes _ accepts_textClient]
  exact ⟨retains_roleScopes, retains_roleScopes, trivial⟩

/-- The scopes of role 3 are saved and deleted, and its id stays in the index. -/
theorem not_paged_delete :
    ¬ ∀ (client : Client) (d : RedisEntityDescriptor) (takes : ℤ → Bool)
      (actions : List (EntityAction client)),
      Accepts client → Throughout (d.step takes) (d.Paged client) noKeys actions := by
  intro h
  let entity := entityOf [("roleId", "3"), ("scopes", "s:a:b")]
  have hid : roleScopes.getId entity = some "3" := by decide +kernel
  have hnothing : noKeys.hash? (roleScopes.keyOf "3") = some ∅ := rfl
  have hsaved : roleScopes.Sound textClient (roleScopes.step expireTakes noKeys (.save entity 1000 0)) :=
    sound_step accepts_textClient _ (sound_noKeys roleScopes) retains_roleScopes
  have hpaged := (h textClient roleScopes expireTakes [.save entity 1000 0, .delete entity]
    accepts_textClient).last
  have hindexed : roleScopes.Indexed (roleScopes.step expireTakes
      (roleScopes.step expireTakes noKeys (.save entity 1000 0)) (.delete entity)) := hpaged.1
  have hnone := retains_of_indexed (.delete entity) hsaved hindexed "3" hid
  have hhash : ((roleScopes.save expireTakes entity 1000 0).run noKeys).2.hash?
      (roleScopes.keyOf "3") = some (setAll ∅ (roleScopes.written entity)) := hash?_save hid hnothing
  exact setAll_written_ne_empty hid
    (Option.some.inj (hhash.symm.trans (Redis.hash?_of_none hnone)))

end RedisEntityDescriptor

end BigPlan.Vertx

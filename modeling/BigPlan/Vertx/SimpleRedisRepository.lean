import Mathlib.Data.List.AList
import Mathlib.Data.String.Basic
import BigPlan.Lib.Java
import BigPlan.Lib.Script
import BigPlan.Lib.SortedSet

/-!
# The Redis repository

`SimpleRedisRepository` keeps the fields of an entity as texts in a hash, and its id in a
sorted set that pages are read from. Both are written by one script, whose arguments are
found by their places. Redis takes back nothing of what the script wrote before an error.
-/
namespace BigPlan.Vertx

open Lib (SortedSet Script)
open Lib.Java Lib.Script

/-! ## Redis -/

/-- Fields and their texts. -/
abbrev Hash := AList fun _ : String => String

/-- What a key holds. It does not exist without a field or a member. -/
inductive RedisValue where
  | hash (hash : Hash) (nonempty : hash ≠ ∅)
  | sortedSet (set : SortedSet String) (nonempty : set.members ≠ [])
  | other

def RedisValue.ofHash (hash : Hash) : Option RedisValue :=
  if h : hash = ∅ then none else some (.hash hash h)

def RedisValue.ofSortedSet (set : SortedSet String) : Option RedisValue :=
  if h : set.members = [] then none else some (.sortedSet set h)

structure Redis where
  values : String → Option RedisValue
  /-- The keys that have a time to live. -/
  expires : String → Bool

/-- An argument of a command; a number is sent as its decimals. -/
inductive Arg where
  | bulk (text : String)
  | long (n : JLong)
  deriving DecidableEq, Repr

def Arg.text : Arg → String
  | .bulk text => text
  | .long n => toString n.toInt

def Arg.tonumber : Arg → Option Int
  | .bulk text => text.toInt?
  | .long n => some n.toInt

@[simp] theorem Arg.text_bulk (text : String) : (Arg.bulk text).text = text := rfl

@[simp] theorem Arg.tonumber_long (n : JLong) : (Arg.long n).tonumber = some n.toInt := rfl

namespace Redis

variable (r : Redis) (key : String)

/-- The hash at the key, which is empty if there is nothing; anything else is `none`. -/
def hash? : Option Hash :=
  match r.values key with
  | none => some ∅
  | some (.hash hash _) => some hash
  | some _ => none

def sortedSet? : Option (SortedSet String) :=
  match r.values key with
  | none => some .empty
  | some (.sortedSet set _) => some set
  | some _ => none

def hashes : Hash := (r.hash? key).getD ∅

def sortedSets : SortedSet String := (r.sortedSet? key).getD .empty

def withHash (hash : Hash) : Redis :=
  { r with values := Function.update r.values key (RedisValue.ofHash hash) }

def withSortedSet (set : SortedSet String) : Redis :=
  { r with values := Function.update r.values key (RedisValue.ofSortedSet set) }

/-! ### Commands -/

/-- `WRONGTYPE` if the key holds anything but a hash. -/
def hset (field value : String) : Script Redis Unit := do
  let hash ← need (← read fun r => r.hash? key)
  write fun r => r.withHash key (hash.insert field value)

def hmget (fields : List String) : Option (List (Option String)) :=
  (r.hash? key).map fun hash => fields.map fun field => hash.lookup field

def zadd (score : Int) (member : String) : Script Redis Unit := do
  let set ← need (← read fun r => r.sortedSet? key)
  write fun r => r.withSortedSet key (set.zadd member score)

/-- `EXPIRE` with a positive number of seconds, which it takes only within its range. A key that does
not exist stays so. -/
def expire (takes : ℤ → Bool) (seconds : ℤ) : Script Redis Unit :=
  if takes seconds then
    write fun r =>
      { r with expires := Function.update r.expires key (r.expires key || (r.values key).isSome) }
  else error

def del : Redis :=
  { values := Function.update r.values key none, expires := Function.update r.expires key false }

/-- `Save.lua`: all but the last four arguments are values for the keys after the first. -/
def saveScript (takes : ℤ → Bool) (keys argv : List Arg) : Script Redis Unit := do
  let id ← need keys[0]?
  let valueLength := argv.length
  forM (List.range (valueLength - 4)) fun i => do
    let key ← need keys[i + 1]?
    let value ← need argv[i]?
    hset id.text key.text value.text
  let key ← need argv[valueLength - 4]?
  let now ← need argv[valueLength - 3]?
  let member ← need argv[valueLength - 2]?
  let score ← need now.tonumber
  zadd ("PAGE:" ++ key.text) score member.text
  let timeout ← need argv[valueLength - 1]?
  let timeout ← need timeout.tonumber
  if timeout > 0 then expire id.text takes timeout

/-- The script gets the first arguments as its keys and the rest as its values. -/
def evalsha (script : List Arg → List Arg → Script Redis Unit) (keysNumber : Nat)
    (args : List Arg) : Script Redis Unit :=
  script (args.take keysNumber) (args.drop keysNumber)

/-! ### What the keys hold -/

variable {r key} {key' : String} {hash : Hash} {set : SortedSet String}

theorem hash?_withHash : (r.withHash key hash).hash? key = some hash := by
  unfold hash? withHash RedisValue.ofHash
  by_cases h : hash = ∅
  · simp [h]
  · simp [h]

theorem sortedSet?_withSortedSet : (r.withSortedSet key set).sortedSet? key = some set := by
  unfold sortedSet? withSortedSet RedisValue.ofSortedSet
  by_cases h : set.members = []
  · have hempty : set = .empty := SortedSet.eq_empty h
    subst hempty
    simp [SortedSet.members, SortedSet.empty]
  · simp [h]

theorem sortedSet?_withHash (h : hash ≠ ∅) : (r.withHash key hash).sortedSet? key = none := by
  unfold sortedSet? withHash RedisValue.ofHash
  simp [h]

theorem isSome_withHash (h : hash ≠ ∅) : ((r.withHash key hash).values key).isSome = true := by
  unfold withHash RedisValue.ofHash
  simp [h]

theorem values_withHash (h : key' ≠ key) : (r.withHash key hash).values key' = r.values key' :=
  Function.update_of_ne h _ _

theorem values_withSortedSet (h : key' ≠ key) :
    (r.withSortedSet key set).values key' = r.values key' := Function.update_of_ne h _ _

theorem hash?_congr {r' : Redis} (h : r'.values key = r.values key) : r'.hash? key = r.hash? key := by
  rw [hash?, hash?, h]

theorem sortedSet?_congr {r' : Redis} (h : r'.values key = r.values key) :
    r'.sortedSet? key = r.sortedSet? key := by
  rw [sortedSet?, sortedSet?, h]

/-- A key cannot hold both. -/
theorem values_eq_none (h : r.hash? key = some hash) (hset : r.sortedSet? key = some set) :
    r.values key = none := by
  unfold hash? at h
  unfold sortedSet? at hset
  cases hvalue : r.values key with
  | none => rfl
  | some value =>
    rw [hvalue] at h hset
    cases value with
    | hash => cases hset
    | sortedSet => cases h
    | other => cases h

theorem hash?_of_none (h : r.values key = none) : r.hash? key = some ∅ := by
  rw [hash?, h]

theorem sortedSet?_of_none (h : r.values key = none) : r.sortedSet? key = some .empty := by
  rw [sortedSet?, h]

theorem sortedSet?_of_hash? (h : r.hash? key = some hash) (hne : hash ≠ ∅) :
    r.sortedSet? key = none := by
  cases hset : r.sortedSet? key with
  | none => rfl
  | some set =>
    rw [hash?_of_none (values_eq_none h hset)] at h
    exact absurd (Option.some.inj h).symm hne

/-- What exists is not empty. -/
theorem ne_empty (h : r.hash? key = some hash) (hsome : r.values key ≠ none) : hash ≠ ∅ := by
  unfold hash? at h
  cases hvalue : r.values key with
  | none => exact absurd hvalue hsome
  | some value =>
    rw [hvalue] at h
    cases value with
    | hash hash' hne =>
      cases h
      exact hne
    | sortedSet => cases h
    | other => cases h

theorem members_ne_nil (h : r.sortedSet? key = some set) (hsome : r.values key ≠ none) :
    set.members ≠ [] := by
  unfold sortedSet? at h
  cases hvalue : r.values key with
  | none => exact absurd hvalue hsome
  | some value =>
    rw [hvalue] at h
    cases value with
    | sortedSet set' hne =>
      cases h
      exact hne
    | hash => cases h
    | other => cases h

theorem values_del : (r.del key).values key = none := Function.update_self ..

theorem values_del_of_ne (h : key' ≠ key) : (r.del key).values key' = r.values key' :=
  Function.update_of_ne h ..

theorem values_del_of_eq_none (h : r.values key = none) : (r.del key).values key' = r.values key' := by
  by_cases hkey : key' = key
  · rw [hkey, values_del, h]
  · exact values_del_of_ne hkey

theorem withHash_withHash (hash' : Hash) :
    (r.withHash key hash).withHash key hash' = r.withHash key hash' := by
  unfold withHash
  rw [Function.update_idem]

/-- A hash is what its key holds. -/
theorem withHash_eq_self (h : r.hash? key = some hash) : r.withHash key hash = r := by
  have hvalue : RedisValue.ofHash hash = r.values key := by
    unfold hash? at h
    split at h
    · rename_i hnone
      cases h
      rw [hnone, RedisValue.ofHash, dif_pos rfl]
    · rename_i hash' hne hsome
      cases h
      rw [hsome, RedisValue.ofHash, dif_neg hne]
    · cases h
  unfold withHash
  rw [hvalue, Function.update_eq_self]

end Redis

/-! ## Entities -/

/-- The declared types of fields: those that `setValue` knows, and two more that entities
use. -/
inductive FieldType where
  | string
  | integer
  | boolean
  | byte
  | bytes
  | short
  | bigInteger
  | long
  | double
  | bigDecimal
  | int
  | localDateTime
  deriving DecidableEq, Repr

def FieldType.isRead : FieldType → Bool
  | .int | .localDateTime => false
  | _ => true

structure Field where
  name : String
  type : FieldType
  deriving DecidableEq, Repr

/-- The values of each type with their texts and their readers; a reader throws at `none`. -/
structure Client where
  Value : FieldType → Type
  text : {t : FieldType} → Value t → String
  read : (t : FieldType) → String → Option (Value t)
  zero : Value .int

structure RedisEntityDescriptor where
  key : String
  fields : List Field
  idField : Field
  id_mem : idField ∈ fields
  names_nodup : (fields.map Field.name).Nodup

/-- The value of each field, `none` for `null`. -/
abbrev Entity (client : Client) := (f : Field) → Option (client.Value f.type)

/-- What one request to the repository has found. -/
structure PageResult (client : Client) where
  items : List (Entity client)
  total : JInt

namespace RedisEntityDescriptor

variable {client : Client} (d : RedisEntityDescriptor)

/-- The key of an entity's hash. -/
def keyOf (id : String) : String := d.key ++ ":" ++ id

def pageKey : String := "PAGE:" ++ d.key

/-- A new instance has zeros where it cannot have `null`. -/
def newInstance (client : Client) : Entity client := fun f =>
  match f.type with
  | .int => some client.zero
  | _ => none

/-- The field of the instance is left alone if its type is none of those that are tested. -/
def setValue (inst : Entity client) (field : Field) (response : String) :
    Option (Entity client) :=
  if field.type.isRead then
    (client.read field.type response).map fun value => Function.update inst field (some value)
  else some inst

/-! ## `findById` -/

/-- The loop over the answers ends at the first exception, with what has been set so far. -/
def readFields (inst : Entity client) : List (Field × Option String) → Entity client
  | [] => inst
  | (_, none) :: rest => readFields inst rest
  | (field, some response) :: rest =>
    match setValue inst field response with
    | none => inst
    | some inst => readFields inst rest

/-- A request that fails is `none`. -/
def findById (client : Client) (r : Redis) (id : String) : Option (Entity client) := do
  let res ← r.hmget (d.keyOf id) (d.fields.map Field.name)
  return readFields (newInstance client) (d.fields.zip res)

/-! ## `save` and `delete` -/

def getId (entity : Entity client) : Option String := (entity d.idField).map client.text

/-- The number of keys and the arguments after it. -/
def saveRequest (entity : Entity client) (id : String) (currentTimeMillis timeout : JLong) :
    Nat × List Arg :=
  let saved := d.fields.filter fun f => (entity f).isSome
  (1 + saved.length,
    .bulk (d.keyOf id) :: saved.map (fun f => .bulk f.name) ++
      d.fields.filterMap (fun f => (entity f).map fun value => .bulk (client.text value)) ++
      [.bulk d.key, .long currentTimeMillis, .bulk id, .long timeout])

/-- The request of an entity without an id is not even made. -/
def save (takes : ℤ → Bool) (entity : Entity client) (currentTimeMillis timeout : JLong) :
    Script Redis Unit := do
  let id ← need (d.getId entity)
  let (keysNumber, args) := d.saveRequest entity id currentTimeMillis timeout
  Redis.evalsha (Redis.saveScript takes) keysNumber args

def delete (entity : Entity client) : Script Redis Unit := do
  let id ← need (d.getId entity)
  write fun r => r.del (d.keyOf id)

/-! ## `page` -/

/-- What `batchFind` makes of one hash; a text that a reader rejects loses the whole entity. -/
def readHash (client : Client) (hash : Hash) : Option (Entity client) :=
  hash.entries.foldlM (fun inst entry =>
    match d.fields.find? fun f => f.name = entry.1 with
    | none => some inst
    | some field => setValue inst field entry.2) (newInstance client)

/-- The indices of the first and the last element of a page. -/
def pageRange (page number total : JInt) : JInt × JInt :=
  let start := (page - 1) * number
  let temp := start + number - 1
  (start, if (total - 1).slt temp then -1 else temp)

/-- A count that is no `int` throws, and nothing is answered, as after a request that fails. -/
def page (client : Client) (page number : JInt) (asc : Bool) (currentTimeMillis : JLong) (r : Redis) :
    Option (PageResult client) := do
  let index ← r.sortedSet? d.pageKey
  let count := index.zcount 0 currentTimeMillis.toInt
  if count < 2 ^ 31 then
    let total : JInt := BitVec.ofNat 32 count
    let (start, stop) := pageRange page number total
    let ids := if asc then index.zrange start.toInt stop.toInt
      else index.zrevrange start.toInt stop.toInt
    let hashes ← ids.mapM fun id => r.hash? (d.keyOf id)
    return { items := hashes.filterMap (d.readHash client), total }
  else none

/-! ## What `save` writes -/

variable {client : Client} {d : RedisEntityDescriptor} {entity : Entity client} {r : Redis}
  {id : String}

/-- The names and texts of the fields that are not `null`. -/
def written (d : RedisEntityDescriptor) (entity : Entity client) : List (String × String) :=
  d.fields.filterMap fun f => (entity f).map fun value => (f.name, client.text value)

def setAll (hash : Hash) (pairs : List (String × String)) : Hash :=
  pairs.foldl (fun hash p => hash.insert p.1 p.2) hash

theorem run_hsets {key : String} {hash : Hash} (pairs : List (String × String)) {r : Redis}
    (h : r.hash? key = some hash) : run (forM pairs fun p => Redis.hset key p.1 p.2) r =
      (some (), r.withHash key (setAll hash pairs)) := by
  induction pairs generalizing r hash with
  | nil =>
    rw [setAll, List.foldl_nil, Redis.withHash_eq_self h]
    rfl
  | cons p pairs ih =>
    have hset : run (Redis.hset key p.1 p.2) r = (some (), r.withHash key (hash.insert p.1 p.2)) := by
      rw [Redis.hset, run_bind_some (run_read _), h]
      rfl
    rw [List.forM_cons, run_bind_some hset, ih Redis.hash?_withHash, Redis.withHash_withHash]
    rfl

/-- The first one fails. -/
theorem run_hsets_of_none {key : String} {pairs : List (String × String)} (hne : pairs ≠ [])
    {r : Redis} (h : r.hash? key = none) :
    run (forM pairs fun p => Redis.hset key p.1 p.2) r = (none, r) := by
  cases pairs with
  | nil => exact absurd rfl hne
  | cons p pairs =>
    have hset : run (Redis.hset key p.1 p.2) r = (none, r) := by
      rw [Redis.hset, run_bind_some (run_read _), h]
      rfl
    rw [List.forM_cons, run_bind_none hset]

/-- Names and texts stand at the places where the script looks for them. -/
theorem written_eq_zip (d : RedisEntityDescriptor) (entity : Entity client) :
    d.written entity = ((d.fields.filter fun f => (entity f).isSome).map Field.name).zip
      (d.fields.filterMap fun f => (entity f).map client.text) := by
  unfold written
  induction d.fields with
  | nil => rfl
  | cons f fields ih =>
    cases hf : entity f with
    | none => simpa [hf] using ih
    | some value => simpa [hf] using ih

theorem length_texts (entity : Entity client) (fields : List Field) :
    (fields.filterMap fun f => (entity f).map client.text).length =
      (fields.filter fun f => (entity f).isSome).length := by
  induction fields with
  | nil => rfl
  | cons f fields ih =>
    cases hf : entity f with
    | none => simpa [hf] using ih
    | some value => simpa [hf] using ih

/-- What the script does after the fields are set. -/
def index (d : RedisEntityDescriptor) (takes : ℤ → Bool) (id : String)
    (currentTimeMillis timeout : JLong) : Script Redis Unit := do
  Redis.zadd d.pageKey currentTimeMillis.toInt id
  if timeout.toInt > 0 then Redis.expire (d.keyOf id) takes timeout.toInt

/-- The script called with a list of texts for a list of names. -/
theorem saveScript_eq (takes : ℤ → Bool) {names texts : List String}
    (hlen : texts.length = names.length) (id : String) (now timeout : JLong) :
    Redis.saveScript takes (.bulk (d.keyOf id) :: names.map .bulk)
      (texts.map .bulk ++ [.bulk d.key, .long now, .bulk id, .long timeout]) = (do
        forM (names.zip texts) fun p => Redis.hset (d.keyOf id) p.1 p.2
        d.index takes id now timeout) := by
  let keys : List Arg := .bulk (d.keyOf id) :: names.map .bulk
  let argv : List Arg := texts.map .bulk ++ [.bulk d.key, .long now, .bulk id, .long timeout]
  have hloop : (forM (List.range texts.length) fun i => do
      let key ← need keys[i + 1]?
      let value ← need argv[i]?
      Redis.hset (d.keyOf id) key.text value.text) =
        forM (names.zip texts) fun p => Redis.hset (d.keyOf id) p.1 p.2 := by
    have hkeys : ∀ i < texts.length, keys[i + 1]? = (names.map Arg.bulk)[i]? := by
      intro i _
      exact List.getElem?_cons_succ
    have hargv : ∀ i < texts.length, argv[i]? = (texts.map Arg.bulk)[i]? := by
      intro i hi
      exact List.getElem?_append_left (by simpa using hi)
    rw [forM_range_zip (fun k v => Redis.hset (d.keyOf id) k.text v.text) (by simp [hlen])
      (by simp) hkeys hargv, List.zip_map, List.take_of_length_le (by simp), List.forM_map]
    rfl
  have hlength : argv.length = texts.length + 4 := by simp [argv]
  have htail (i : Nat) : argv[texts.length + i]? =
      ([.bulk d.key, .long now, .bulk id, .long timeout] : List Arg)[i]? := by
    rw [List.getElem?_append_right (by simp)]
    simp
  have h4 : texts.length + 4 - 4 = texts.length := rfl
  have h3 : texts.length + 4 - 3 = texts.length + 1 := rfl
  have h2 : texts.length + 4 - 2 = texts.length + 2 := rfl
  have h1 : texts.length + 4 - 1 = texts.length + 3 := rfl
  have hid : keys[0]? = some (.bulk (d.keyOf id)) := rfl
  have hkey : argv[texts.length]? = some (.bulk d.key) := htail 0
  show Redis.saveScript takes keys argv = _
  simp only [Redis.saveScript, hlength, h4, h3, h2, h1, hid, need, pure_bind, Arg.text_bulk, hkey,
    htail, List.getElem?_cons_zero, List.getElem?_cons_succ, Arg.tonumber_long]
  rw [← hloop]
  rfl

/-- All fields are written to the hash, and then the id to the sorted set under the time. -/
theorem save_eq (takes : ℤ → Bool) (hid : d.getId entity = some id)
    (currentTimeMillis timeout : JLong) : d.save takes entity currentTimeMillis timeout = (do
      forM (d.written entity) fun p => Redis.hset (d.keyOf id) p.1 p.2
      d.index takes id currentTimeMillis timeout) := by
  let names := (d.fields.filter fun f => (entity f).isSome).map Field.name
  let texts := d.fields.filterMap fun f => (entity f).map client.text
  have hlen : texts.length = names.length := by
    rw [List.length_map]
    exact length_texts entity d.fields
  let tail : List Arg := [.bulk d.key, .long currentTimeMillis, .bulk id, .long timeout]
  have hrequest : d.saveRequest entity id currentTimeMillis timeout =
      (1 + names.length, (.bulk (d.keyOf id) :: names.map Arg.bulk) ++ (texts.map Arg.bulk ++ tail)) := by
    simp [saveRequest, names, texts, tail, List.map_filterMap, Function.comp_def]
  have htake : ((.bulk (d.keyOf id) :: names.map Arg.bulk) ++ (texts.map Arg.bulk ++ tail)).take
      (1 + names.length) = .bulk (d.keyOf id) :: names.map Arg.bulk :=
    List.take_left' (by simp [Nat.add_comm])
  have hdrop : ((.bulk (d.keyOf id) :: names.map Arg.bulk) ++ (texts.map Arg.bulk ++ tail)).drop
      (1 + names.length) = texts.map Arg.bulk ++ tail :=
    List.drop_left' (by simp [Nat.add_comm])
  have hscript := saveScript_eq takes hlen id currentTimeMillis timeout (d := d)
  simp only [save, hid, need, pure_bind, hrequest, Redis.evalsha, htake, hdrop]
  rw [hscript, written_eq_zip]

end RedisEntityDescriptor

end BigPlan.Vertx

import Mathlib.Data.List.Forall2
import Mathlib.Logic.Function.Basic
import Std.Data.String.ToNat

/-!
# Arguments of a Zeus call

`BodyGenerator` writes the arguments of a call into one body: nothing, the argument itself, or an
object with an entry for each position. `JsonBodyParserHandler` and `JsonParserHandler` read the
body by the types of the parameters. What fastjson does with a single value is given.
-/
namespace BigPlan.Vertx.Zeus

/-- The types of `ObjectUtils.isSimpleValue`. -/
inductive SimpleType where
  | string
  | byte
  | bytes
  | character
  | short
  | integer
  | long
  | double
  | bigDecimal
  | bigInteger
  deriving DecidableEq, Repr

/-- What `JsonParserHandler` gets for a parameter: a `Character` is read as a `Byte`. -/
def SimpleType.getter : SimpleType → SimpleType
  | .character => .byte
  | t => t

/-- The values of the types, the classes of the POJOs, and what fastjson makes of them. -/
structure Fastjson where
  /-- What stands under a key. -/
  Json : Type
  Simple : SimpleType → Type
  Class : Type
  Property : Class → Type
  Value : Class → Type
  [decProperty : ∀ c, DecidableEq (Property c)]
  put : {t : SimpleType} → Simple t → Json
  /-- Outside `none` is an exception, inside it is `null`. -/
  get : (t : SimpleType) → Json → Option (Option (Simple t))
  properties : (c : Class) → (Property c → Value c) → List (String × Json)
  /-- The text of an object, and of an array, as a string. -/
  text : List (String × Json) → Json
  arrayText : List (Option (List (String × Json))) → Json
  newInstance : (c : Class) → Property c → Value c
  smartMatch : (c : Class) → String → Option (Property c)
  cast : {c : Class} → Property c → Json → Option (Value c)
  /-- The order in which an object goes through its entries. -/
  iteration : List (String × Json) → List (String × Json)

namespace Fastjson

variable (f : Fastjson)

instance (c : f.Class) : DecidableEq (f.Property c) := f.decProperty c

abbrev Bean (c : f.Class) := f.Property c → f.Value c

abbrev Object := List (String × f.Json)

variable {f} {c : f.Class}

/-- Sets one property after the other. -/
def setProperties (bean : f.Bean c) : f.Object → Option (f.Bean c)
  | [] => some bean
  | (key, json) :: entries =>
    match f.smartMatch c key with
    | none => setProperties bean entries
    | some p => (f.cast p json).bind fun value => setProperties (Function.update bean p value) entries

variable (c) in
def toJavaObject (object : f.Object) : Option (f.Bean c) :=
  setProperties (f.newInstance c) (f.iteration object)

/-- The last entry that goes by the name of a property. -/
def lastOf (p : f.Property c) : f.Object → Option f.Json
  | [] => none
  | (key, json) :: entries =>
    match lastOf p entries with
    | some last => some last
    | none => if f.smartMatch c key = some p then some json else none

/-- Each property of the bean has the value of the last entry by its name, and that of a new
instance where there is none. -/
structure ReadFrom (start bean : f.Bean c) (entries : f.Object) : Prop where
  casts : ∀ e ∈ entries, ∀ p, f.smartMatch c e.1 = some p → (f.cast p e.2).isSome
  named : ∀ p json, lastOf p entries = some json → f.cast p json = some (bean p)
  other : ∀ p, lastOf p entries = none → bean p = start p

section Cons

variable {start bean : f.Bean c} {entries : f.Object} {key : String} {json : f.Json}
  {q : f.Property c}

/-- A key that goes by no property. -/
theorem lastOf_cons_none (hmatch : f.smartMatch c key = none) (p : f.Property c) :
    lastOf p ((key, json) :: entries) = lastOf p entries := by
  rw [lastOf, hmatch]
  cases lastOf p entries <;> rfl

theorem lastOf_cons_some (hmatch : f.smartMatch c key = some q) (p : f.Property c) :
    lastOf p ((key, json) :: entries) =
      (lastOf p entries <|> if p = q then some json else none) := by
  rw [lastOf, hmatch]
  by_cases hp : p = q
  · subst hp
    cases lastOf p entries <;> simp
  · have hne : some q ≠ some p := fun heq => hp (Option.some.inj heq).symm
    cases lastOf p entries <;> simp [hp, hne]

theorem readFrom_cons_none (hmatch : f.smartMatch c key = none) :
    ReadFrom start bean ((key, json) :: entries) ↔ ReadFrom start bean entries := by
  constructor
  · intro h
    refine ⟨fun e he => h.casts e (List.mem_cons_of_mem _ he), fun p => ?_, fun p => ?_⟩
    · rw [← lastOf_cons_none hmatch]
      exact h.named p
    · rw [← lastOf_cons_none hmatch]
      exact h.other p
  · intro h
    refine ⟨fun e he p hp => ?_, fun p => ?_, fun p => ?_⟩
    · rcases List.mem_cons.mp he with rfl | he
      · rw [hmatch] at hp
        cases hp
      · exact h.casts e he p hp
    · rw [lastOf_cons_none hmatch]
      exact h.named p
    · rw [lastOf_cons_none hmatch]
      exact h.other p

/-- The first entry goes by a property: what comes after it starts from its value. -/
theorem readFrom_cons_some (hmatch : f.smartMatch c key = some q) {value : f.Value c}
    (hcast : f.cast q json = some value) :
    ReadFrom start bean ((key, json) :: entries) ↔
      ReadFrom (Function.update start q value) bean entries := by
  constructor
  · intro h
    refine ⟨fun e he => h.casts e (List.mem_cons_of_mem _ he), fun p last hp => ?_,
      fun p hp => ?_⟩
    · apply h.named
      rw [lastOf_cons_some hmatch, hp]
      rfl
    · by_cases hpq : p = q
      · subst hpq
        have hvalue := h.named p json (by rw [lastOf_cons_some hmatch, hp]; simp)
        rw [hcast, Option.some.injEq] at hvalue
        rw [Function.update_self, hvalue]
      · rw [Function.update_of_ne hpq]
        apply h.other
        rw [lastOf_cons_some hmatch, hp]
        simp [hpq]
  · intro h
    refine ⟨fun e he p hp => ?_, fun p last hp => ?_, fun p hp => ?_⟩
    · rcases List.mem_cons.mp he with rfl | he
      · obtain rfl : q = p := Option.some.inj (hmatch.symm.trans hp)
        exact Option.isSome_iff_exists.mpr ⟨value, hcast⟩
      · exact h.casts e he p hp
    · rw [lastOf_cons_some hmatch] at hp
      cases htail : lastOf p entries with
      | some last' =>
        rw [htail] at hp
        cases hp
        exact h.named p _ htail
      | none =>
        rw [htail] at hp
        have hother := h.other p htail
        by_cases hpq : p = q
        · subst hpq
          have hjson : json = last := by simpa using hp
          rw [hother, Function.update_self, ← hjson, hcast]
        · simp [hpq] at hp
    · rw [lastOf_cons_some hmatch] at hp
      cases htail : lastOf p entries with
      | some last' => simp [htail] at hp
      | none =>
        have hpq : p ≠ q := by
          intro hsame
          subst hsame
          simp [htail] at hp
        rw [h.other p htail, Function.update_of_ne hpq]

end Cons

theorem setProperties_eq_some {start bean : f.Bean c} {entries : f.Object} :
    setProperties start entries = some bean ↔ ReadFrom start bean entries := by
  induction entries generalizing start with
  | nil =>
    constructor
    · intro h
      cases h
      exact ⟨fun _ h => (by cases h), fun _ _ h => (by cases h), fun _ _ => rfl⟩
    · intro h
      have heq : start = bean := funext fun p => (h.other p rfl).symm
      rw [heq, setProperties]
  | cons e entries ih =>
    obtain ⟨key, json⟩ := e
    rw [setProperties]
    cases hmatch : f.smartMatch c key with
    | none => rw [readFrom_cons_none hmatch, ih]
    | some q =>
      cases hcast : f.cast q json with
      | none =>
        refine iff_of_false (by simp [hcast]) fun h => ?_
        have hsome := h.casts _ List.mem_cons_self q hmatch
        rw [hcast] at hsome
        cases hsome
      | some value =>
        simp only [hcast, Option.bind_some]
        rw [readFrom_cons_some hmatch hcast, ih]

end Fastjson

/-! ## Arguments -/

section Arguments

variable (f : Fastjson)

inductive Arg where
  | null
  | simple (t : SimpleType) (value : f.Simple t)
  | bean (c : f.Class) (value : f.Bean c)
  | list (c : f.Class) (elements : List (Option (f.Bean c)))

/-- The type of a parameter: a simple value, a POJO, or a list of POJOs. -/
inductive ParameterType where
  | simple (t : SimpleType)
  | pojo (c : f.Class)
  | list (c : f.Class)

/-- A parameter takes `null` and the values of its type. -/
inductive Fits : Arg f → ParameterType f → Prop
  | null (parameter : ParameterType f) : Fits .null parameter
  | simple (t : SimpleType) (value : f.Simple t) : Fits (.simple t value) (.simple t)
  | bean (c : f.Class) (value : f.Bean c) : Fits (.bean c value) (.pojo c)
  | list (c : f.Class) (elements : List (Option (f.Bean c))) : Fits (.list c elements) (.list c)

inductive Body where
  | object (entries : f.Object)
  | array (elements : List (Option f.Object))

structure RoutingContext where
  jsonObject : Option f.Object
  jsonArray : Option (List (Option f.Object))

end Arguments

def argName (i : ℕ) : String := "arg" ++ i.repr

variable {f : Fastjson}

/-! ### `BodyGenerator` -/

namespace BodyGenerator

/-- The entry of an argument: a value that is not simple goes in as its text. -/
def entry : Arg f → Option f.Json
  | .null => none
  | .simple _ value => some (f.put value)
  | .bean c value => some (f.text (f.properties c value))
  | .list c elements => some (f.arrayText (elements.map fun e => e.map (f.properties c)))

def entriesFrom : ℕ → List (Arg f) → f.Object
  | _, [] => []
  | i, arg :: args =>
    match entry arg with
    | none => entriesFrom (i + 1) args
    | some json => (argName i, json) :: entriesFrom (i + 1) args

/-- A single argument that is not simple is the body. -/
def single : Arg f → Option (Body f)
  | .null => none
  | .simple _ value => some (.object [(argName 0, f.put value)])
  | .bean c value => some (.object (f.properties c value))
  | .list c elements => some (.array (elements.map fun e => e.map (f.properties c)))

def generating : List (Arg f) → Option (Body f)
  | [] => none
  | [arg0] => single arg0
  | args => some (.object (entriesFrom 0 args))

end BodyGenerator

/-! ### `JsonBodyParserHandler` -/

/-- Without a text there is neither; a text is an object or an array. -/
def JsonBodyParserHandler.handle : Option (Body f) → RoutingContext f
  | none => ⟨none, none⟩
  | some (.object entries) => ⟨some entries, none⟩
  | some (.array elements) => ⟨none, some elements⟩

/-! ### `JsonParserHandler` -/

namespace JsonParserHandler

variable (parseByArgOrder : Option Bool) (parameterNames : ℕ → String) (ctx : RoutingContext f)

def nameOf (i : ℕ) : String :=
  if parseByArgOrder = some true then argName i else parameterNames i

def getSimple (jsonObject : f.Object) (name : String) (t : SimpleType) : Option (Arg f) :=
  match jsonObject.lookup name with
  | none => some .null
  | some json => (f.get t json).map fun value =>
    match value with
    | none => .null
    | some value => .simple t value

/-- `none` is an exception. -/
def parameter (i : ℕ) (type : ParameterType f) : Option (Arg f) :=
  match ctx.jsonObject with
  | some jsonObject =>
    match type with
    | .simple t => getSimple jsonObject (nameOf parseByArgOrder parameterNames i) t.getter
    | .pojo c => (f.toJavaObject c jsonObject).map (.bean c)
    -- an object is not made into a list
    | .list _ => none
  | none =>
    match type with
    | .simple _ | .pojo _ => some .null
    | .list c =>
      -- `getActualClass` gives the class of the class, which only `null` is cast to
      match ctx.jsonArray with
      | none => none
      | some elements =>
        if elements.all Option.isNone then some (.list c (elements.map fun _ => none)) else none

def handleFrom : ℕ → List (ParameterType f) → Option (List (Arg f))
  | _, [] => some []
  | i, type :: types => do
    let arg ← parameter parseByArgOrder parameterNames ctx i type
    let args ← handleFrom (i + 1) types
    return arg :: args

def handle (types : List (ParameterType f)) : Option (List (Arg f)) :=
  handleFrom parseByArgOrder parameterNames ctx 0 types

end JsonParserHandler

/-! ## Round trip -/

/-- A value that is written is read again. -/
structure Faithful (f : Fastjson) : Prop where
  simple : ∀ (t : SimpleType) (value : f.Simple t), f.get t (f.put value) = some (some value)
  bean : ∀ (c : f.Class) (value : f.Bean c), f.toJavaObject c (f.properties c value) = some value

/-- A single argument comes back, but for a `Character` and a list with an element. -/
def Single : Arg f → ParameterType f → Prop
  | .null, type => ∀ c, type ≠ .list c
  | .simple t _, _ => t ≠ .character
  | .bean _ _, _ => True
  | .list _ elements, _ => ∀ e ∈ elements, e = none

/-- Among others a POJO comes back if it is what its class makes of the entries of all
arguments, and a list never. -/
def Among (args : List (Arg f)) : Arg f → ParameterType f → Prop
  | .null, type => ∃ t, type = .simple t
  | .simple t _, _ => t ≠ .character
  | .bean c value, _ =>
    f.ReadFrom (f.newInstance c) value (f.iteration (BodyGenerator.entriesFrom 0 args))
  | .list _ _, _ => False

/-- The arguments that come back. -/
structure Supported (args : List (Arg f)) (types : List (ParameterType f)) : Prop where
  single : args.length = 1 → List.Forall₂ Single args types
  among : 2 ≤ args.length → List.Forall₂ (Among args) args types

/-! ### Entries -/

section Entries

open BodyGenerator

theorem argName_inj {i j : ℕ} (h : argName i = argName j) : i = j := by
  have hlist := congrArg String.toList h
  simp only [argName, String.toList_append, List.append_cancel_left_eq] at hlist
  exact Nat.repr_injective (String.toList_inj.mp hlist)

theorem lookup_of_lt {k i : ℕ} (h : k < i) (args : List (Arg f)) :
    (entriesFrom i args).lookup (argName k) = none := by
  induction args generalizing i with
  | nil => rfl
  | cons arg args ih =>
    have htail := ih (Nat.lt_succ_of_lt h)
    rw [entriesFrom]
    cases entry arg with
    | none => exact htail
    | some json =>
      have hne : argName k ≠ argName i := fun heq => Nat.ne_of_lt h (argName_inj heq)
      simp only [List.lookup_cons, beq_eq_false_iff_ne.mpr hne, htail]

theorem lookup_entriesFrom (i k : ℕ) (args : List (Arg f)) :
    (entriesFrom i args).lookup (argName (i + k)) = args[k]?.bind entry := by
  induction args generalizing i k with
  | nil => rfl
  | cons arg args ih =>
    rw [entriesFrom]
    cases k with
    | zero =>
      cases hentry : entry arg with
      | none => simpa [hentry] using lookup_of_lt (Nat.lt_succ_self i) args
      | some json => simp [hentry]
    | succ k =>
      have htail := ih (i + 1) k
      rw [Nat.add_assoc, Nat.add_comm 1 k] at htail
      cases hentry : entry arg with
      | none => simpa using htail
      | some json =>
        have hne : argName (i + (k + 1)) ≠ argName i := by
          intro heq
          have hindex := argName_inj heq
          omega
        simp only [List.lookup_cons, beq_eq_false_iff_ne.mpr hne, htail, List.getElem?_cons_succ]

end Entries

/-! ### Handlers -/

section Handlers

open BodyGenerator JsonParserHandler

variable {names : ℕ → String} {arg : Arg f} {args : List (Arg f)} {type : ParameterType f}
  {types : List (ParameterType f)} {ctx : RoutingContext f} {i : ℕ}

theorem handleFrom_cons_eq_some {parse : Option Bool} : handleFrom parse names ctx i (type :: types) =
    some (arg :: args) ↔ parameter parse names ctx i type = some arg ∧
      handleFrom parse names ctx (i + 1) types = some args := by
  simp only [handleFrom, Option.bind_eq_bind, Option.bind_eq_some_iff]
  constructor
  · intro hexists
    obtain ⟨first, hfirst, rest, hrest, heq⟩ := hexists
    cases heq
    exact ⟨hfirst, hrest⟩
  · intro h
    exact ⟨arg, h.1, args, h.2, rfl⟩

/-- A simple value is read under its name, but a `Character` comes back as something else. -/
theorem getSimple_eq_some (hfaithful : Faithful f) {jsonObject : f.Object} {name : String}
    {t : SimpleType} {value : f.Simple t} (h : jsonObject.lookup name = some (f.put value)) :
    getSimple jsonObject name t.getter = some (.simple t value) ↔ t ≠ .character := by
  rw [getSimple, h]
  constructor
  · rintro hread rfl
    obtain ⟨result, -, hresult⟩ := Option.map_eq_some_iff.mp hread
    cases result <;> cases hresult
  · intro ht
    cases t with
    | character => exact absurd rfl ht
    | string | byte | bytes | short | integer | long | double | bigDecimal | bigInteger =>
      simp only [SimpleType.getter, hfaithful.simple, Option.map_some]

/-- A parameter among others, by its argument. -/
theorem parameter_eq_some (hfaithful : Faithful f) (hfits : Fits f arg type)
    (hentry : args[i]? = some arg) :
    parameter (some true) names ⟨some (entriesFrom 0 args), none⟩ i type = some arg ↔
      Among args arg type := by
  have hname : nameOf (some true) names i = argName i := if_pos rfl
  have hlookup := lookup_entriesFrom 0 i args
  rw [Nat.zero_add, hentry, Option.bind_some] at hlookup
  simp only [parameter]
  cases hfits with
  | null =>
    cases type with
    | simple t =>
      refine iff_of_true ?_ ⟨t, rfl⟩
      simp only [getSimple, hname, hlookup, entry]
    | pojo c =>
      refine iff_of_false ?_ ?_
      · intro h
        obtain ⟨bean, -, hbean⟩ := Option.map_eq_some_iff.mp h
        cases hbean
      · intro h
        obtain ⟨t, ht⟩ := h
        cases ht
    | list c =>
      refine iff_of_false (fun h => (by cases h)) ?_
      intro h
      obtain ⟨t, ht⟩ := h
      cases ht
  | simple t value =>
    rw [hname]
    exact getSimple_eq_some hfaithful hlookup
  | bean c value =>
    simp only [Option.map_eq_some_iff, Arg.bean.injEq, heq_eq_eq, true_and, exists_eq_right]
    exact Fastjson.setProperties_eq_some
  | list c elements => exact iff_of_false (fun h => (by cases h)) fun h => h

variable (names) in
/-- Arguments among others, from a position on. -/
theorem handleFrom_eq_some (hfaithful : Faithful f) (hfits : List.Forall₂ (Fits f) args types)
    (before : List (Arg f)) :
    handleFrom (some true) names ⟨some (entriesFrom 0 (before ++ args)), none⟩ before.length types =
      some args ↔ List.Forall₂ (Among (before ++ args)) args types := by
  induction hfits generalizing before with
  | nil => exact iff_of_true rfl .nil
  | @cons arg type args types hfit hfits ih =>
    have hentry : (before ++ arg :: args)[before.length]? = some arg := by simp
    have htail := ih (before ++ [arg])
    rw [List.append_assoc, List.singleton_append, List.length_append, List.length_singleton]
      at htail
    rw [handleFrom_cons_eq_some, parameter_eq_some hfaithful hfit hentry, htail,
      List.forall₂_cons]

/-- A single argument, by its own body. -/
theorem single_eq_some (hfaithful : Faithful f) (hfits : Fits f arg type) :
    parameter (some true) names (JsonBodyParserHandler.handle (single arg)) 0 type = some arg ↔
      Single arg type := by
  have hname : nameOf (some true) names 0 = argName 0 := if_pos rfl
  cases hfits with
  | null =>
    cases type with
    | simple t => exact iff_of_true rfl fun _ h => (by cases h)
    | pojo c => exact iff_of_true rfl fun _ h => (by cases h)
    | list c => exact iff_of_false (fun h => (by cases h)) fun h => h c rfl
  | simple t value =>
    simp only [single, JsonBodyParserHandler.handle, parameter, hname]
    exact getSimple_eq_some hfaithful (by simp)
  | bean c value =>
    refine iff_of_true ?_ trivial
    simp only [single, JsonBodyParserHandler.handle, parameter, hfaithful.bean, Option.map_some]
  | list c elements =>
    simp only [single, JsonBodyParserHandler.handle, parameter, Single, List.all_map]
    constructor
    · intro h e he
      split_ifs at h with hall
      simpa using List.all_eq_true.mp hall e he
    · intro h
      have hall : elements.all (Option.isNone ∘ fun e => e.map (f.properties c)) = true := by
        rw [List.all_eq_true]
        intro e he
        simp [h e he]
      have hmap : (elements.map fun e => e.map (f.properties c)).map
          (fun _ => (none : Option (f.Bean c))) = elements := by
        rw [List.map_map]
        refine (List.map_congr_left fun e he => ?_).trans (List.map_id elements)
        exact (h e he).symm
      rw [if_pos hall, hmap]

/-- The arguments come back exactly if they are supported. -/
theorem handle_generating (hfaithful : Faithful f) (names : ℕ → String) (args : List (Arg f))
    (types : List (ParameterType f)) (hfits : List.Forall₂ (Fits f) args types) :
    handle (some true) names (JsonBodyParserHandler.handle (generating args)) types = some args ↔
      Supported args types := by
  match args, hfits with
  | [], .nil => exact iff_of_true rfl ⟨fun h => (by cases h), fun _ => .nil⟩
  | [arg], .cons hfit .nil =>
    rw [handle, generating, handleFrom_cons_eq_some, single_eq_some hfaithful hfit]
    constructor
    · intro h
      exact ⟨fun _ => .cons h.1 .nil, fun hlength => absurd hlength (by simp)⟩
    · intro h
      exact ⟨(List.forall₂_cons.mp (h.single rfl)).1, rfl⟩
  | first :: second :: rest, hfits =>
    have hamong := handleFrom_eq_some names hfaithful hfits []
    rw [List.nil_append, List.length_nil] at hamong
    have hbody : generating (first :: second :: rest) =
        some (.object (entriesFrom 0 (first :: second :: rest))) := rfl
    simp only [handle, hbody, JsonBodyParserHandler.handle, hamong]
    constructor
    · intro h
      exact ⟨fun hlength => absurd hlength (by simp), fun _ => h⟩
    · intro h
      exact h.among (by simp)

end Handlers

/-! ### A class with one property -/

def SimpleOf : SimpleType → Type
  | .string => String
  | .byte => BitVec 8
  | .bytes => List UInt8
  | .character => Char
  | .short => BitVec 16
  | .integer => BitVec 32
  | .long => BitVec 64
  | .double | .bigDecimal => Int × Int
  | .bigInteger => Int

/-- A value under a key, or the text of one. -/
inductive UserJson where
  | simple (t : SimpleType) (value : SimpleOf t)
  | text (s : String)

/-- Strings and integers; the other types do not turn up. -/
def UserJson.render : UserJson → String
  | .simple .string (value : String) => "\"" ++ value ++ "\""
  | .simple .integer (value : BitVec 32) => toString value.toInt
  | .simple _ _ => ""
  | .text s => s

def objectText (entries : List (String × UserJson)) : String :=
  "\x7b" ++ ",".intercalate (entries.map fun e => "\"" ++ e.1 ++ "\":" ++ e.2.render) ++ "\x7d"

/-- Texts of objects and arrays, a class with the property `name`, and `null` if it is not set. -/
def userJson : Fastjson where
  Json := UserJson
  Simple := SimpleOf
  Class := Unit
  Property _ := Unit
  Value _ := Option String
  decProperty _ := inferInstance
  put {t} value := .simple t value
  get t
    | .simple t' value => if h : t' = t then some (some (h ▸ value)) else none
    | .text _ => none
  properties _ bean := (bean ()).elim [] fun name => [("name", .simple .string name)]
  text entries := .text (objectText entries)
  arrayText elements :=
    .text ("[" ++ ",".intercalate (elements.map fun e => (e.map objectText).getD "null") ++ "]")
  newInstance _ _ := none
  smartMatch _ key := if key = "name" then some () else none
  cast _
    | .simple .string (value : String) => some (some value)
    | _ => none
  iteration entries := entries

theorem faithful_userJson : Faithful userJson where
  simple t value := dif_pos rfl
  bean c value := by
    obtain ⟨name, rfl⟩ : ∃ name, value = fun _ => name := ⟨value (), rfl⟩
    rw [Fastjson.toJavaObject, Fastjson.setProperties_eq_some]
    cases name with
    | none =>
      exact ⟨fun _ h => (by cases h), fun _ _ h => (by cases h), fun _ _ => rfl⟩
    | some name =>
      refine ⟨fun e he p _ => ?_, fun p json hp => ?_, fun p hp => ?_⟩
      · rw [List.mem_singleton.mp he]
        rfl
      · obtain rfl : UserJson.simple .string name = json := Option.some.inj hp
        rfl
      · cases hp

/-- Two simple values. -/
theorem handle_generating_two :
    JsonParserHandler.handle (some true) (fun _ => "a") (JsonBodyParserHandler.handle
      (BodyGenerator.generating [.simple .string "a", .simple .integer (3 : BitVec 32)]))
      [.simple .string, .simple .integer] =
      some [.simple (f := userJson) .string "a", .simple .integer (3 : BitVec 32)] := by
  apply (handle_generating faithful_userJson _ _ _
    (.cons (.simple _ _) (.cons (.simple _ _) .nil))).mpr
  refine ⟨fun hlength => absurd hlength (by decide), fun _ => ?_⟩
  exact .cons (show SimpleType.string ≠ .character by decide)
    (.cons (show SimpleType.integer ≠ .character by decide) .nil)

/-- A user behind a string is read as an empty one. -/
theorem not_handle_generating :
    ¬ ∀ (f : Fastjson) (names : ℕ → String) (args : List (Arg f)) (types : List (ParameterType f)),
      Faithful f → List.Forall₂ (Fits f) args types →
        JsonParserHandler.handle (some true) names
          (JsonBodyParserHandler.handle (BodyGenerator.generating args)) types = some args := by
  intro h
  have hfits : List.Forall₂ (Fits userJson) [.simple .string "a", .bean () fun _ => some "n"]
      [.simple .string, .pojo ()] := .cons (.simple _ _) (.cons (.bean _ _) .nil)
  have hhandle := h userJson (fun _ => "a") _ _ faithful_userJson hfits
  have hamong := (handleFrom_eq_some _ faithful_userJson hfits []).mp hhandle
  have huser := (List.forall₂_cons.mp (List.forall₂_cons.mp hamong).2).1
  have hname := huser.other () (by decide +kernel)
  cases hname

end BigPlan.Vertx.Zeus

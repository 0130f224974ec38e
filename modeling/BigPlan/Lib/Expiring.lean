import Mathlib.Logic.Function.Basic
import Mathlib.Order.Nat

/-!
# Keys with a deadline

A store that forgets: a value is read up to and including the deadline of its key. Whether a key
past its deadline is removed at once makes no difference to a reader.
-/
namespace BigPlan.Lib

abbrev Expiring (κ β : Type*) := κ → Option (β × ℕ)

namespace Expiring

variable {κ β : Type*} (m : Expiring κ β) (now : ℕ)

def get (key : κ) : Option β :=
  (m key).bind fun e => if now ≤ e.2 then some e.1 else none

/-- The value under the key becomes the given one, to be read for that long. -/
def put [DecidableEq κ] (key : κ) (life : ℕ) (value : β) : Expiring κ β :=
  Function.update m key (some (value, now + life))

/-- Removes the key if it is past its deadline. -/
def expire [DecidableEq κ] (key : κ) : Expiring κ β :=
  if (m.get now key).isSome then m else Function.update m key none

variable {m now} {key key' : κ} {life later : ℕ} {value : β}

theorem get_eq_some : m.get now key = some value ↔
    ∃ deadline, m key = some (value, deadline) ∧ now ≤ deadline := by
  rw [get, Option.bind_eq_some_iff]
  constructor
  · intro h
    obtain ⟨⟨value', deadline⟩, hkey, hvalue⟩ := h
    rw [Option.ite_none_right_eq_some, Option.some_inj] at hvalue
    obtain ⟨hle, rfl⟩ := hvalue
    exact ⟨deadline, hkey, hle⟩
  · intro h
    obtain ⟨deadline, hkey, hle⟩ := h
    exact ⟨_, hkey, if_pos hle⟩

/-- What is read later is read now. -/
theorem get_of_get (hle : now ≤ later) (h : m.get later key = some value) :
    m.get now key = some value := by
  obtain ⟨deadline, hkey, hlater⟩ := get_eq_some.mp h
  exact get_eq_some.mpr ⟨deadline, hkey, hle.trans hlater⟩

theorem isSome_of_later (hle : now ≤ later) (h : (m.get later key).isSome) :
    (m.get now key).isSome := by
  obtain ⟨value, hvalue⟩ := Option.isSome_iff_exists.mp h
  exact Option.isSome_iff_exists.mpr ⟨value, get_of_get hle hvalue⟩

variable [DecidableEq κ]

theorem get_put_self (h : later ≤ now + life) :
    (m.put now key life value).get later key = some value :=
  get_eq_some.mpr ⟨now + life, Function.update_self .., h⟩

theorem get_put_of_ne (hne : key' ≠ key) :
    (m.put now key life value).get later key' = m.get later key' := by
  rw [get, get, put, Function.update_of_ne hne]

/-- After a write, the same is read where the same was read before. -/
theorem get_put_congr {m' : Expiring κ β} (h : m.get later key' = m'.get later key') :
    (m.put now key life value).get later key' = (m'.put now key life value).get later key' := by
  by_cases hkey : key' = key
  · subst hkey
    rw [get, get, put, put, Function.update_self, Function.update_self]
  · rw [get_put_of_ne hkey, get_put_of_ne hkey, h]

/-- Removals are not seen. -/
theorem get_expire (hle : now ≤ later) : (m.expire now key).get later key' = m.get later key' := by
  unfold expire
  split
  · rfl
  · rename_i hnone
    by_cases hkey : key' = key
    · subst hkey
      have hlater : m.get later key' = none := by
        rw [← Option.not_isSome_iff_eq_none]
        exact fun hsome => hnone (isSome_of_later hle hsome)
      rw [hlater, get, Function.update_self]
      rfl
    · rw [get, get, Function.update_of_ne hkey]

end Expiring

end BigPlan.Lib

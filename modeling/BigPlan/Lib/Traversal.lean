import BigPlan.Lib.Chain
import BigPlan.Lib.Program

/-!
# Loops along a chain

A program that runs alone follows a chain of references to its end, or to the first node that it
looks for, and leaves the state as it is.
-/
namespace BigPlan.Lib.Program

open Chain

variable {O : Type} {A : O → Type} {S X α β ε : Type} {step : S → (op : O) → S × A op} {s : S}
  {next : X → Option X} {p : Option X} {l : List X}

/-- The loop collects something from each node of the chain. -/
theorem returns_forever_foldl {body : Option X × β → ExceptT ε (Program O A) ((Option X × β) ⊕ α)}
    {f : β → X → β} {g : β → α} (hleads : Leads next p l none)
    (hlast : ∀ b, Returns step s (body (none, b)) s (.ok (.inr (g b))))
    (hturn : ∀ a ∈ l, ∀ b, Returns step s (body (some a, b)) s (.ok (.inl (next a, f b a)))) (b : β) :
    Returns step s (forever body (p, b)) s (.ok (g (l.foldl f b))) := by
  induction l generalizing p b with
  | nil =>
    obtain rfl : p = none := hleads
    exact returns_forever_inr (hlast b)
  | cons a l ih =>
    obtain ⟨rfl, hrest⟩ := hleads
    refine returns_forever_inl (hturn a List.mem_cons_self b) ?_
    exact ih hrest (fun c hc => hturn c (List.mem_cons_of_mem a hc)) (f b a)

/-- The loop stops at the first node that it looks for. -/
theorem returns_forever_find {body : Option X → ExceptT ε (Program O A) (Option X ⊕ α)}
    {P : X → Prop} [DecidablePred P] {found : X → α} {missing : α} (hleads : Leads next p l none)
    (hlast : Returns step s (body none) s (.ok (.inr missing)))
    (hfound : ∀ a ∈ l, P a → Returns step s (body (some a)) s (.ok (.inr (found a))))
    (hturn : ∀ a ∈ l, ¬ P a → Returns step s (body (some a)) s (.ok (.inl (next a)))) :
    Returns step s (forever body p) s (.ok ((l.find? P).elim missing found)) := by
  induction l generalizing p with
  | nil =>
    obtain rfl : p = none := hleads
    exact returns_forever_inr hlast
  | cons a l ih =>
    obtain ⟨rfl, hrest⟩ := hleads
    by_cases ha : P a
    · rw [List.find?_cons_of_pos (by simpa using ha)]
      exact returns_forever_inr (hfound a List.mem_cons_self ha)
    · rw [List.find?_cons_of_neg (by simpa using ha)]
      refine returns_forever_inl (hturn a List.mem_cons_self ha) ?_
      exact ih hrest (fun c hc => hfound c (List.mem_cons_of_mem a hc))
        fun c hc => hturn c (List.mem_cons_of_mem a hc)

end BigPlan.Lib.Program

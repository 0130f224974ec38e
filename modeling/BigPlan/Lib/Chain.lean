import Mathlib.Data.List.Nodup
import Mathlib.Data.Set.Insert
import Mathlib.Logic.Function.Basic

/-!
# Chains of references

Nodes refer to the next node, or to none. A reference leads over a list of nodes to another
reference if following it meets these nodes one after the other. What a reference leads over to
none is determined by it, and no node is met twice. Writing to a node changes only the chains that
the node is on. A reference that leads to a node which leads back to it never leads to none. A ring
leads back to its first node, and may be seen from any of its nodes.
-/
namespace BigPlan.Lib.Chain

variable {A : Type*} {next next' : A → Option A} {p q r : Option A} {a b c : A} {l l' xs ys : List A}

/-- Following the reference meets the nodes, and then the other reference. -/
def Leads (next : A → Option A) : Option A → List A → Option A → Prop
  | p, [], q => p = q
  | p, a :: l, q => p = some a ∧ Leads next (next a) l q

@[simp] theorem leads_nil : Leads next p [] q ↔ p = q := Iff.rfl

@[simp] theorem leads_cons : Leads next p (a :: l) q ↔ p = some a ∧ Leads next (next a) l q :=
  Iff.rfl

theorem leads_append : Leads next p (l ++ l') r ↔ ∃ q, Leads next p l q ∧ Leads next q l' r := by
  induction l generalizing p with
  | nil => simp
  | cons a l ih => simp [ih, and_assoc]

/-- Only the nodes of the chain matter. -/
theorem leads_congr (h : ∀ a ∈ l, next a = next' a) : Leads next p l q ↔ Leads next' p l q := by
  induction l generalizing p with
  | nil => exact Iff.rfl
  | cons a l ih =>
    rw [leads_cons, leads_cons, h a List.mem_cons_self,
      ih fun b hb => h b (List.mem_cons_of_mem a hb)]

theorem leads_update [DecidableEq A] (h : a ∉ l) :
    Leads (Function.update next a q) p l r ↔ Leads next p l r := by
  refine leads_congr fun b hb => Function.update_of_ne ?_ _ _
  exact fun heq => h (heq ▸ hb)

/-! ## Chains to the end -/

theorem Leads.head_eq (h : Leads next p l none) : p = l.head? := by
  cases l with
  | nil => exact h
  | cons a l => exact h.1

theorem Leads.unique (h : Leads next p l none) (h' : Leads next p l' none) : l = l' := by
  induction l generalizing p l' with
  | nil =>
    have hp : p = none := h
    have hhead := h'.head_eq
    rw [hp] at hhead
    exact (List.head?_eq_none_iff.mp hhead.symm).symm
  | cons a l ih =>
    cases l' with
    | nil =>
      have hp : p = none := h'
      rw [h.1] at hp
      cases hp
    | cons b l' =>
      have hab : some a = some b := h.1.symm.trans h'.1
      cases hab
      rw [ih h.2 h'.2]

/-- A node that were met twice would be followed by itself. -/
theorem Leads.nodup (h : Leads next p l none) : l.Nodup := by
  induction l generalizing p with
  | nil => exact List.nodup_nil
  | cons a l ih =>
    refine List.nodup_cons.mpr ⟨?_, ih h.2⟩
    intro hmem
    obtain ⟨xs, ys, rfl⟩ := List.append_of_mem hmem
    obtain ⟨q, -, hagain⟩ := leads_append.mp h.2
    have heq : xs ++ a :: ys = ys := h.2.unique hagain.2
    have hlength := congrArg List.length heq
    simp only [List.length_append, List.length_cons] at hlength
    omega

/-- What the last node of a chain refers to. -/
theorem next_of_leads (h : Leads next p (xs ++ a :: l) none) : next a = l.head? := by
  obtain ⟨q, -, hrest⟩ := leads_append.mp h
  exact hrest.2.head_eq

/-- A node of the chain is followed on it by what it refers to. -/
theorem Leads.split (h : Leads next p l none) (ha : a ∈ l) (hnext : next a = some b) :
    ∃ xs ys, l = xs ++ a :: b :: ys := by
  obtain ⟨xs, ys, rfl⟩ := List.append_of_mem ha
  have hhead := next_of_leads h
  rw [hnext] at hhead
  obtain ⟨ys', rfl⟩ := List.head?_eq_some_iff.mp hhead.symm
  exact ⟨xs, ys', rfl⟩

/-- No two nodes of the chain refer to the same one. -/
theorem Leads.eq_of_next (h : Leads next p l none) (ha : a ∈ l) (hb : b ∈ l)
    (hac : next a = some c) (hbc : next b = some c) : a = b := by
  obtain ⟨xs, ys, hxs⟩ := h.split ha hac
  obtain ⟨xs', ys', hxs'⟩ := h.split hb hbc
  have heq : (xs ++ [a]) ++ c :: ys = (xs' ++ [b]) ++ c :: ys' := by
    rw [← List.append_cons, ← List.append_cons, ← hxs, hxs']
  have hnodup : ((xs ++ [a]) ++ c :: ys).Nodup := by
    rw [← List.append_cons, ← hxs]
    exact h.nodup
  have hbefore : c ∉ xs ++ [a] := fun hc =>
    List.disjoint_of_nodup_append hnodup hc List.mem_cons_self
  have hafter : c ∉ ys := (List.nodup_cons.mp hnodup.of_append_right).1
  obtain ⟨hleft, -⟩ := (List.append_cons_inj_of_notMem hbefore hafter).mp heq
  exact List.singleton_inj.mp (List.append_inj' hleft rfl).2

section Updates

variable [DecidableEq A]

/-- A node is linked in behind another one. -/
theorem Leads.insert (h : Leads next p (xs ++ b :: ys) none) (ha : a ∉ xs ++ b :: ys) :
    Leads (Function.update (Function.update next b (some a)) a ys.head?) p (xs ++ b :: a :: ys)
      none := by
  have hnodup := h.nodup
  obtain ⟨q, hxs, hb, hys⟩ := leads_append.mp h
  have hhead := hys.head_eq
  simp only [List.nodup_append, List.nodup_cons, List.mem_append, List.mem_cons, not_or] at hnodup ha
  obtain ⟨-, ⟨hbys, -⟩, hdisjoint⟩ := hnodup
  obtain ⟨haxs, hab, hays⟩ := ha
  have hbxs : b ∉ xs := fun hmem => hdisjoint b hmem b (Or.inl rfl) rfl
  rw [leads_append]
  refine ⟨q, ?_, hb, ?_, ?_⟩
  · rwa [leads_update haxs, leads_update hbxs]
  · rw [Function.update_of_ne (Ne.symm hab), Function.update_self]
  · rw [Function.update_self, leads_update hays, leads_update hbys, ← hhead]
    exact hys

/-- A node that leads nowhere stays so when another one is made to lead to it. -/
theorem update_last (hne : a ≠ b) (hnext : next a = none) :
    Function.update (Function.update next b (some a)) a none = Function.update next b (some a) := by
  rw [← hnext, ← Function.update_of_ne hne (some a) next, Function.update_eq_self]

/-- A node that refers to none is linked in behind the last one. -/
theorem Leads.insert_last (h : Leads next p (xs ++ [b]) none) (ha : a ∉ xs ++ [b])
    (hnext : next a = none) : Leads (Function.update next b (some a)) p (xs ++ [b, a]) none := by
  have hne : a ≠ b := fun heq => ha (by simp [heq])
  have hinsert := h.insert ha
  rwa [List.head?_nil, update_last hne hnext] at hinsert

/-- A node is linked in at the front. -/
theorem Leads.push (h : Leads next p l none) (ha : a ∉ l) :
    Leads (Function.update next a p) (some a) (a :: l) none := by
  refine ⟨rfl, ?_⟩
  rw [Function.update_self, leads_update ha]
  exact h

/-- The node behind another one is linked out. -/
theorem Leads.erase (h : Leads next p (xs ++ b :: c :: ys) none) :
    Leads (Function.update next b (next c)) p (xs ++ b :: ys) none := by
  have hnodup := h.nodup
  obtain ⟨q, hxs, hb, hc, hys⟩ := leads_append.mp h
  simp only [List.nodup_append, List.nodup_cons, List.mem_cons, not_or] at hnodup
  obtain ⟨-, ⟨⟨-, hbys⟩, -⟩, hdisjoint⟩ := hnodup
  have hbxs : b ∉ xs := fun hmem => hdisjoint b hmem b (Or.inl rfl) rfl
  rw [leads_append]
  refine ⟨q, ?_, hb, ?_⟩
  · rwa [leads_update hbxs]
  · rwa [Function.update_self, leads_update hbys]

end Updates

/-! ## Chains without an end -/

/-- Following the reference meets only nodes of some set, each of which refers to one of them. -/
def Endless (next : A → Option A) (p : Option A) : Prop :=
  ∃ S : Set A, (∃ a ∈ S, p = some a) ∧ ∀ a ∈ S, ∃ b ∈ S, next a = some b

theorem Endless.not_leads (h : Endless next p) (l : List A) : ¬ Leads next p l none := by
  obtain ⟨S, hp, hnext⟩ := h
  induction l generalizing p with
  | nil =>
    rintro rfl
    obtain ⟨a, -, ha⟩ := hp
    cases ha
  | cons b l ih =>
    rintro ⟨rfl, hrest⟩
    obtain ⟨a, ha, heq⟩ := hp
    obtain rfl := Option.some.inj heq
    exact ih (hnext b ha) hrest

/-- A node that is made to refer to the first one does not end the chain. -/
theorem Endless.push [DecidableEq A] (h : Endless next p) (a : A) :
    Endless (Function.update next a p) (some a) := by
  obtain ⟨S, ⟨b, hb, rfl⟩, hnext⟩ := h
  refine ⟨insert a S, ⟨a, Set.mem_insert a S, rfl⟩, fun c hc => ?_⟩
  by_cases hca : c = a
  · rw [hca, Function.update_self]
    exact ⟨b, Set.mem_insert_of_mem a hb, rfl⟩
  · rw [Function.update_of_ne hca]
    obtain ⟨d, hd, hcd⟩ := hnext c (Set.mem_of_mem_insert_of_ne hc hca)
    exact ⟨d, Set.mem_insert_of_mem a hd, hcd⟩

theorem Leads.closed {S : Set A} (h : Leads next p xs (some a)) (ha : a ∈ S) (hxs : ∀ b ∈ xs, b ∈ S) :
    (∃ b ∈ S, p = some b) ∧ ∀ c ∈ xs, ∃ b ∈ S, next c = some b := by
  induction xs generalizing p with
  | nil => exact ⟨⟨a, ha, h⟩, fun c hc => absurd hc List.not_mem_nil⟩
  | cons d xs ih =>
    obtain ⟨rfl, hrest⟩ := h
    obtain ⟨hd, hnext⟩ := ih hrest fun b hb => hxs b (List.mem_cons_of_mem d hb)
    refine ⟨⟨d, hxs d List.mem_cons_self, rfl⟩, fun c hc => ?_⟩
    obtain rfl | hc := List.mem_cons.mp hc
    · exact hd
    · exact hnext c hc

/-- A node of the chain that is made to refer to its first node is followed by itself. -/
theorem Leads.endless [DecidableEq A] (h : Leads next p l none) (ha : a ∈ l) :
    Endless (Function.update next a p) (some a) := by
  obtain ⟨xs, ys, rfl⟩ := List.append_of_mem ha
  obtain ⟨q, hxs, rfl, -⟩ := leads_append.mp h
  have hnot : a ∉ xs := fun hmem =>
    List.disjoint_of_nodup_append h.nodup hmem List.mem_cons_self
  obtain ⟨hfirst, hnext⟩ : (∃ b ∈ {c | c ∈ a :: xs}, p = some b) ∧
      ∀ c ∈ xs, ∃ b ∈ {c | c ∈ a :: xs}, next c = some b :=
    hxs.closed List.mem_cons_self fun b hb => List.mem_cons_of_mem a hb
  refine ⟨{c | c ∈ a :: xs}, ⟨a, List.mem_cons_self, rfl⟩, fun c hc => ?_⟩
  obtain rfl | hc := List.mem_cons.mp hc
  · rw [Function.update_self]
    exact hfirst
  · have hne : c ≠ a := fun heq => hnot (heq ▸ hc)
    rw [Function.update_of_ne hne]
    exact hnext c hc

/-! ## Rings -/

/-- From the first node the reference leads over different nodes back to it. -/
structure Ring (next : A → Option A) (l : List A) : Prop where
  nodup : l.Nodup
  leads : Leads next l.head? l l.head?

theorem Ring.next_eq (h : Ring next (a :: l)) : next a = (l ++ [a]).head? := by
  cases l with
  | nil => exact h.leads.2
  | cons b l => exact h.leads.2.1

theorem Ring.rotate (h : Ring next (a :: l)) : Ring next (l ++ [a]) := by
  refine ⟨(List.perm_append_singleton a l).nodup_iff.mpr h.nodup, ?_⟩
  rw [← h.next_eq]
  exact leads_append.mpr ⟨some a, h.leads.2, rfl, rfl⟩

theorem Ring.rotate_back (h : Ring next (l ++ [a])) : Ring next (a :: l) := by
  refine ⟨(List.perm_append_singleton a l).nodup_iff.mp h.nodup, rfl, ?_⟩
  obtain ⟨q, hl, rfl, hnext⟩ := leads_append.mp h.leads
  rwa [hnext]

/-- The last node of a chain refers to another one. -/
theorem Leads.redirect [DecidableEq A] (h : Leads next p (l ++ [a]) q) (ha : a ∉ l) :
    Leads (Function.update next a r) p (l ++ [a]) r := by
  obtain ⟨q', hl, rfl, -⟩ := leads_append.mp h
  exact leads_append.mpr ⟨some a, (leads_update ha).mpr hl, rfl, Function.update_self ..⟩

/-- The first node is linked out. -/
theorem Ring.erase [DecidableEq A] (h : Ring next (a :: (l ++ [b]))) :
    Ring (Function.update next b (next a)) (l ++ [b]) := by
  have hnodup := (List.nodup_cons.mp h.nodup).2
  have hhead : next a = (l ++ [b]).head? := by
    rw [h.next_eq]
    cases l with
    | nil => rfl
    | cons c l => rfl
  refine ⟨hnodup, ?_⟩
  have hleads := h.leads.2
  rw [hhead] at hleads ⊢
  exact hleads.redirect fun hmem =>
    List.disjoint_of_nodup_append hnodup hmem List.mem_cons_self

end BigPlan.Lib.Chain

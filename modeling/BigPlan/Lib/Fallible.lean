import Mathlib.Data.List.Basic

/-!
# Computations that may fail

What a filter or a search that came through without an error says about the elements, and
when a loop over indices is a loop over pairs.
-/
namespace BigPlan.Lib.Fallible

variable {ε α : Type} {f : α → Except ε Bool} {l : List α}

theorem mem_filterAuxM {acc found : List α} (h : l.filterAuxM f acc = Except.ok found) {x : α}
    (hx : x ∈ found) : x ∈ acc ∨ x ∈ l ∧ f x = .ok true := by
  induction l generalizing acc with
  | nil =>
    cases h
    exact .inl hx
  | cons y l ih =>
    cases hy : f y with
    | error e => simp [List.filterAuxM, hy, bind, Except.bind] at h
    | ok b =>
      simp only [List.filterAuxM, hy, bind, Except.bind] at h
      rcases ih h with hacc | ⟨hl, hf⟩
      · cases b with
        | false => exact .inl hacc
        | true =>
          rcases List.mem_cons.mp hacc with rfl | hacc
          · exact .inr ⟨List.mem_cons_self, hy⟩
          · exact .inl hacc
      · exact .inr ⟨List.mem_cons_of_mem _ hl, hf⟩

theorem bind_eq_ok {β : Type} {x : Except ε α} {g : α → Except ε β} {b : β} :
    x >>= g = .ok b ↔ ∃ a, x = .ok a ∧ g a = .ok b := by
  cases x with
  | error e =>
    constructor
    · intro h
      cases h
    · intro h
      obtain ⟨a, ha, -⟩ := h
      cases ha
  | ok a =>
    constructor
    · intro h
      exact ⟨a, rfl, h⟩
    · intro h
      obtain ⟨a', ha, hb⟩ := h
      cases ha
      exact hb

/-- What a filter keeps passed the test. -/
theorem mem_filterM {found : List α} (h : l.filterM f = Except.ok found) {x : α} (hx : x ∈ found) :
    x ∈ l ∧ f x = .ok true := by
  cases haux : l.filterAuxM f [] with
  | error e => simp [List.filterM, haux, bind, Except.bind] at h
  | ok kept =>
    simp only [List.filterM, haux, bind, Except.bind, pure, Except.pure, Except.ok.injEq] at h
    subst h
    rcases mem_filterAuxM haux (List.mem_reverse.mp hx) with hnil | hmem
    · cases hnil
    · exact hmem

/-- A search that finds nothing has tested every element. -/
theorem anyM_false (h : l.anyM f = .ok false) {x : α} (hx : x ∈ l) : f x = .ok false := by
  induction l with
  | nil => cases hx
  | cons y l ih =>
    cases hy : f y with
    | error e => simp [List.anyM, hy, bind, Except.bind] at h
    | ok b =>
      cases b with
      | true => simp [List.anyM, hy, bind, Except.bind, pure, Except.pure] at h
      | false =>
        simp only [List.anyM, hy, bind, Except.bind] at h
        rcases List.mem_cons.mp hx with rfl | hx
        · exact hy
        · exact ih h hx

/-- The rule of invariants for a loop over indices. -/
theorem foldlM_range {σ : Type} {f : σ → ℕ → Except ε σ} {I : ℕ → σ → Prop} {s : σ} {n : ℕ}
    (h0 : I 0 s) (hstep : ∀ i < n, ∀ s, I i s → ∃ s', f s i = .ok s' ∧ I (i + 1) s') :
    ∃ s', (List.range n).foldlM f s = .ok s' ∧ I n s' := by
  induction n with
  | zero => exact ⟨s, rfl, h0⟩
  | succ n ih =>
    obtain ⟨s', hs', hI⟩ := ih fun i hi => hstep i (Nat.lt_succ_of_lt hi)
    obtain ⟨s'', hs'', hI'⟩ := hstep n (Nat.lt_succ_self n) s' hI
    refine ⟨s'', ?_, hI'⟩
    rw [List.range_succ, List.foldlM_append, hs']
    change (f s' n >>= fun s => pure s) = .ok s''
    rw [hs'']
    rfl

theorem foldlM_flatMap {m : Type → Type} [Monad m] [LawfulMonad m] {σ α β : Type} (f : α → List β)
    (g : σ → β → m σ) (l : List α) (s : σ) :
    (l.flatMap f).foldlM g s = l.foldlM (fun s a => (f a).foldlM g s) s := by
  induction l generalizing s with
  | nil => rfl
  | cons a l ih => simp only [List.flatMap_cons, List.foldlM_append, List.foldlM_cons, ih]

theorem foldlM_congr {m : Type → Type} [Monad m] {σ α : Type} {f g : σ → α → m σ} {l : List α}
    (h : ∀ s, ∀ a ∈ l, f s a = g s a) (s : σ) : l.foldlM f s = l.foldlM g s := by
  induction l generalizing s with
  | nil => rfl
  | cons a l ih =>
    simp only [List.foldlM_cons, h s a List.mem_cons_self,
      ih fun s b hb => h s b (List.mem_cons_of_mem a hb)]

/-- A loop that looks up a list at each index folds its elements, with their positions. -/
theorem foldlM_range_get {σ α : Type} {l : List α} {get : ℕ → Except ε α}
    (hget : ∀ i a, l[i]? = some a → get i = .ok a) (f : σ → α → ℕ → Except ε σ) (s : σ) :
    (List.range l.length).foldlM (fun s i => do
      let a ← get i
      f s a i) s = l.zipIdx.foldlM (fun s a => f s a.1 a.2) s := by
  have hrange : List.range l.length = l.zipIdx.map Prod.snd := by
    rw [List.zipIdx_map_snd, List.range_eq_range']
  rw [hrange, List.foldlM_map]
  refine foldlM_congr (fun s a ha => ?_) s
  rw [hget a.2 a.1 (List.mem_zipIdx_iff_getElem?.mp ha)]
  rfl

theorem foldlM_zipIdx {m : Type → Type} [Monad m] {σ α : Type} (g : σ → α → m σ) (l : List α) (s : σ) :
    l.zipIdx.foldlM (fun s a => g s a.1) s = l.foldlM g s := by
  conv_rhs => rw [← List.zipIdx_map_fst 0 l, List.foldlM_map]

/-- A loop none of whose steps fails comes through. -/
theorem foldlM_isSome {σ α : Type*} {f : σ → α → Option σ} {l : List α}
    (h : ∀ s, ∀ x ∈ l, ∃ s', f s x = some s') (s : σ) : ∃ s', l.foldlM f s = some s' := by
  induction l generalizing s with
  | nil => exact ⟨s, rfl⟩
  | cons x l ih =>
    obtain ⟨s', hs'⟩ := h s x List.mem_cons_self
    rw [List.foldlM_cons, hs']
    exact ih (fun s y hy => h s y (List.mem_cons_of_mem _ hy)) s'

theorem mapM_eq_some {α β : Type} {f : α → Option β} {g : α → β} {l : List α}
    (h : ∀ x ∈ l, f x = some (g x)) : l.mapM f = some (l.map g) := by
  induction l with
  | nil => rfl
  | cons x l ih =>
    rw [List.mapM_cons, h x List.mem_cons_self, ih fun y hy => h y (List.mem_cons_of_mem _ hy)]
    rfl

theorem exists_mapM {α β : Type*} {f : α → Option β} {l : List α} (h : ∀ x ∈ l, ∃ y, f x = some y) :
    ∃ l', l.mapM f = some l' := by
  induction l with
  | nil => exact ⟨[], rfl⟩
  | cons x l ih =>
    obtain ⟨y, hy⟩ := h x List.mem_cons_self
    obtain ⟨l', hl'⟩ := ih fun z hz => h z (List.mem_cons_of_mem _ hz)
    exact ⟨y :: l', by rw [List.mapM_cons, hy, hl']; rfl⟩

/-- What a traversal returns, element by element. -/
theorem map_of_mapM {α β : Type*} {f : α → Option β} {l : List α} {l' : List β}
    (h : l.mapM f = some l') : l.map f = l'.map some := by
  induction l generalizing l' with
  | nil =>
    cases h
    rfl
  | cons x l ih =>
    rw [List.mapM_cons, Option.bind_eq_bind, Option.bind_eq_some_iff] at h
    obtain ⟨y, hy, hrest⟩ := h
    rw [Option.bind_eq_bind, Option.bind_eq_some_iff] at hrest
    obtain ⟨ys, hys, heq⟩ := hrest
    cases heq
    rw [List.map_cons, List.map_cons, hy, ih hys]

theorem map_some_filterMap {α β : Type} {f : α → Option β} {l : List α}
    (h : ∀ x ∈ l, ∃ y, f x = some y) : (l.filterMap f).map some = l.map f := by
  induction l with
  | nil => rfl
  | cons x l ih =>
    obtain ⟨y, hy⟩ := h x List.mem_cons_self
    rw [List.filterMap_cons_some hy, List.map_cons, List.map_cons, hy,
      ih fun z hz => h z (List.mem_cons_of_mem _ hz)]

end BigPlan.Lib.Fallible

import Mathlib.Data.List.Pairwise

/-!
# Numbering in blocks

`blocks b n` lists the first `n` places of a sequence of blocks of size `b`, each
place as its block and its offset in the block. The list is in lexicographic order
and splits off its first block.
-/
namespace BigPlan.Lib.Blocks

variable {b n : Nat} {p : Nat × Nat}

def Before (p q : Nat × Nat) : Prop := p.1 < q.1 ∨ (p.1 = q.1 ∧ p.2 < q.2)

def blocks (b n : Nat) : List (Nat × Nat) := (List.range n).map fun i => (i / b, i % b)

theorem blocks_of_le (h : n ≤ b) : blocks b n = (List.range n).map fun i => (0, i) := by
  refine List.map_congr_left fun i hi => ?_
  have := List.mem_range.mp hi
  rw [Nat.div_eq_of_lt (by omega), Nat.mod_eq_of_lt (by omega)]

theorem blocks_add (hb : 0 < b) (n : Nat) :
    blocks b (b + n) =
      ((List.range b).map fun i => (0, i)) ++ (blocks b n).map fun p => (p.1 + 1, p.2) := by
  rw [blocks, List.range_add, List.map_append, List.map_map, ← blocks, blocks_of_le (Nat.le_refl b), blocks,
    List.map_map]
  congr 1
  refine List.map_congr_left fun i _ => ?_
  simp only [Function.comp_apply, Nat.add_div_left _ hb, Nat.add_mod_left]

theorem mem_blocks (hb : 0 < b) : p ∈ blocks b n ↔ p.2 < b ∧ p.1 * b + p.2 < n := by
  simp only [blocks, List.mem_map, List.mem_range]
  constructor
  · rintro ⟨i, hi, rfl⟩
    exact ⟨Nat.mod_lt i hb, by rw [Nat.mul_comm, Nat.div_add_mod]; exact hi⟩
  · rintro ⟨hlt, hn⟩
    refine ⟨p.1 * b + p.2, hn, Prod.ext ?_ ?_⟩
    · show (p.1 * b + p.2) / b = p.1
      rw [Nat.add_comm, Nat.add_mul_div_right _ _ hb, Nat.div_eq_of_lt hlt, Nat.zero_add]
    · show (p.1 * b + p.2) % b = p.2
      rw [Nat.add_comm, Nat.add_mul_mod_self_right, Nat.mod_eq_of_lt hlt]

theorem block_le (hb : 0 < b) (h : p ∈ blocks b n) : p.1 ≤ n / b := by
  obtain ⟨_, hn⟩ := (mem_blocks hb).mp h
  exact (Nat.le_div_iff_mul_le hb).mpr (by omega)

theorem pairwise_blocks (b n : Nat) : (blocks b n).Pairwise Before := by
  rw [blocks, List.pairwise_map]
  refine List.pairwise_lt_range.imp fun {i j} hij => ?_
  rcases Nat.lt_or_ge (i / b) (j / b) with h | h
  · exact Or.inl h
  · have heq : i / b = j / b := Nat.le_antisymm (Nat.div_le_div_right (Nat.le_of_lt hij)) h
    have hi := Nat.div_add_mod i b
    have hj := Nat.div_add_mod j b
    rw [heq] at hi
    exact Or.inr ⟨heq, by show i % b < j % b; omega⟩

end BigPlan.Lib.Blocks

import Mathlib.Data.List.Basic

/-!
# Lists of blocks of one size

A list of blocks that all have `n` elements is a flat list cut every `n` elements: block boundaries are multiples of
`n`, and element `p` lies in block `p / n` at offset `p % n`.
-/

namespace AcidCompute

variable {α : Type}

/-- All blocks have `n` elements. -/
def BlocksOf (n : Nat) (blocks : List (List α)) : Prop := ∀ block ∈ blocks, block.length = n

theorem BlocksOf.nil (n : Nat) : BlocksOf n ([] : List (List α)) := by simp [BlocksOf]

theorem blocksOf_cons {n : Nat} {block : List α} {blocks : List (List α)} :
    BlocksOf n (block :: blocks) ↔ block.length = n ∧ BlocksOf n blocks := by
  simp [BlocksOf]

theorem blocksOf_append {n : Nat} {bs cs : List (List α)} :
    BlocksOf n (bs ++ cs) ↔ BlocksOf n bs ∧ BlocksOf n cs := by
  simp [BlocksOf, or_imp, forall_and]

theorem BlocksOf.drop {n : Nat} {blocks : List (List α)} (h : BlocksOf n blocks) (k : Nat) :
    BlocksOf n (blocks.drop k) := fun b hb => h b (List.mem_of_mem_drop hb)

theorem BlocksOf.take {n : Nat} {blocks : List (List α)} (h : BlocksOf n blocks) (k : Nat) :
    BlocksOf n (blocks.take k) := fun b hb => h b (List.mem_of_mem_take hb)

theorem BlocksOf.length_flatten {n : Nat} {blocks : List (List α)} (h : BlocksOf n blocks) :
    blocks.flatten.length = blocks.length * n := by
  induction blocks with
  | nil => simp
  | cons b bs ih =>
    rw [blocksOf_cons] at h
    simp only [List.flatten_cons, List.length_append, h.1, ih h.2, List.length_cons, Nat.succ_mul]
    omega

/-- The blocks before block `k` are the first `k * n` elements, those from it on are the rest. -/
theorem BlocksOf.flatten_split {n : Nat} {blocks : List (List α)} (h : BlocksOf n blocks) {k : Nat}
    (hk : k ≤ blocks.length) :
    (blocks.take k).flatten.length = k * n ∧
      blocks.flatten = (blocks.take k).flatten ++ (blocks.drop k).flatten := by
  constructor
  · rw [(h.take k).length_flatten, List.length_take, Nat.min_eq_left hk]
  · rw [← List.flatten_append, List.take_append_drop]

theorem BlocksOf.flatten_drop {n : Nat} {blocks : List (List α)} (h : BlocksOf n blocks) {k : Nat}
    (hk : k ≤ blocks.length) : (blocks.drop k).flatten = blocks.flatten.drop (k * n) := by
  obtain ⟨hlen, hsplit⟩ := h.flatten_split hk
  rw [hsplit, ← hlen, List.drop_left]

/-- Where element `p` of the flat list lies. -/
theorem block_offset (p n : Nat) : p / n * n + p % n = p := by
  rw [Nat.mul_comm]; exact Nat.div_add_mod p n

theorem block_lt {p n m : Nat} (h : p < m * n) : p / n < m :=
  Nat.div_lt_of_lt_mul (by rwa [Nat.mul_comm] at h)

end AcidCompute

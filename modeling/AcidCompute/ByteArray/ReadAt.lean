import AcidCompute.ByteArray.Reachable

/-!
# Reading at a position

`read(buffer, size, position) const` starts in the current block, whatever block the position lies in, and its check of
the bounds subtracts a position that may be the larger number.  So what it reads are the bytes at the position only if
those are found at the same offset from the current block (`readAt_iff`).
-/

namespace AcidCompute

namespace ByteArray

/-- The bytes at the position, wherever the cursor is, or `std::out_of_range` if there are not so many. -/
def ReadsAt (b : ByteArray) (size position : Nat) : Prop :=
  if position + size ≤ b.size then readAt size position b = .ok ((b.content.drop position).take size) b
  else readAt size position b = .error (.throws .outOfRange) b

/-- Inside the size: behind the current block, at the offset of the position, there are the bytes that are at the
position.  Behind the size: the difference that is compared does not wrap around, or not far enough. -/
def FoundAt (b : ByteArray) (size position : Nat) : Prop :=
  if position + size ≤ b.size then
    ∃ k, b.cur = some k ∧
      ∀ i < size, b.data[k * b.baseSize + position % b.baseSize + i]? = b.data[position + i]?
  else position ≤ b.size ∨ 2 ^ 64 < size + (position - b.size)

/-- Two ranges of a list are equal if they are element by element. -/
theorem take_drop_eq_iff {α : Type} {l : List α} {p q n : Nat} :
    (l.drop p).take n = (l.drop q).take n ↔ ∀ i < n, l[p + i]? = l[q + i]? := by
  constructor
  · intro h i hi
    have hget := congrArg (fun r => r[i]?) h
    simpa [List.getElem?_take, hi, List.getElem?_drop] using hget
  · intro h
    apply List.ext_getElem?
    intro i
    by_cases hi : i < n
    · simpa [List.getElem?_take, hi, List.getElem?_drop] using h i hi
    · simp [hi]

/-- A range that is longer than the blocks leads to the null pointer behind them. -/
theorem readLoop_short {n : Nat} {nodes : List Node} (h : BlocksOf n nodes) (k : Nat) {npos size : Nat}
    (hpos : npos < n) (hsize : 0 < size) (hshort : nodes.length * n < npos + size) :
    readLoop k nodes npos (n - npos) size = .error .nullDeref := by
  induction nodes generalizing k npos size with
  | nil =>
    obtain ⟨m, rfl⟩ : ∃ m, size = m + 1 := ⟨size - 1, by omega⟩
    rfl
  | cons node rest ih =>
    obtain ⟨hnode, hrest⟩ := blocksOf_cons.1 h
    obtain ⟨m, rfl⟩ : ∃ m, size = m + 1 := ⟨size - 1, by omega⟩
    rw [List.length_cons, Nat.succ_mul] at hshort
    unfold readLoop
    rw [if_neg (by omega), Node.load, if_pos (by omega)]
    cases rest with
    | nil =>
      have hnull : readLoop (k + 1) [] 0 (Node.headSize []) (m + 1 - (n - npos)) = .error .nullDeref := by
        obtain ⟨j, hj⟩ : ∃ j, m + 1 - (n - npos) = j + 1 := ⟨m - (n - npos), by simp at hshort; omega⟩
        rw [hj]
        rfl
      rw [hnull]
      rfl
    | cons next others =>
      rw [headSize_of_blocks hrest (Nat.succ_pos _)]
      have hrec := ih hrest (k + 1) (show 0 < n by omega) (show 0 < m + 1 - (n - npos) by
        rw [List.length_cons, Nat.succ_mul] at hshort
        omega) (by omega)
      rw [Nat.sub_zero] at hrec
      rw [hrec]
      rfl

/-! ### What the code does -/

/-- What there is from a block on. -/
theorem Valid.from_block {b : ByteArray} (h : b.Valid) {k : Nat} (hk : k < b.nodes.length) :
    (b.nodes.drop k).flatten = b.data.drop (k * b.baseSize) ∧
      (b.nodes.drop k).length * b.baseSize = b.capacity - k * b.baseSize ∧ k * b.baseSize ≤ b.capacity := by
  refine ⟨h.blocks.flatten_drop (Nat.le_of_lt hk), ?_, ?_⟩
  · rw [List.length_drop, Nat.sub_mul, ← h.capacity_eq]
  · rw [h.capacity_eq]
    exact Nat.mul_le_mul_right _ (Nat.le_of_lt hk)

/-- From the block that the pointer leads to. -/
private theorem readAt_cur {b : ByteArray} (h : b.Valid) {k : Nat} (hcur : b.cur = some k) (hk : k < b.nodes.length)
    {size position : Nat} (hsize : ¬ sizeSub b.size position < size) :
    readAt size position b =
      if size = 0 ∨ k * b.baseSize + position % b.baseSize + size ≤ b.capacity then
        .ok ((b.data.drop (k * b.baseSize + position % b.baseSize)).take size) b
      else .error (.undefined .nullDeref) b := by
  have hpos := Nat.mod_lt position h.base_pos
  have hhead : Node.headSize (b.nodes.drop k) = b.baseSize :=
    headSize_of_blocks (h.blocks.drop k) (by rw [List.length_drop]; omega)
  obtain ⟨hdata, hroom, hstart⟩ := h.from_block hk
  unfold readAt
  rw [Op.get_bind_apply, if_neg hsize, hcur]
  simp only [deref, pure_bind, hhead]
  split
  · rename_i hfits
    have hloop := readLoop_spec h.base_pos (h.blocks.drop k) k hpos
      (show position % b.baseSize + size ≤ (b.nodes.drop k).length * b.baseSize ∨ size = 0 by
        rw [hroom]
        omega)
    rw [hloop, hdata, List.drop_drop]
    rfl
  · rename_i hlong
    have hloop := readLoop_short (h.blocks.drop k) k hpos (show 0 < size by omega) (by
      rw [hroom]
      omega)
    rw [hloop]
    rfl

private theorem readAt_null {b : ByteArray} (hcur : b.cur = none) {size position : Nat}
    (hsize : ¬ sizeSub b.size position < size) : readAt size position b = .error (.undefined .nullDeref) b := by
  unfold readAt
  rw [Op.get_bind_apply, if_neg hsize, hcur]
  rfl

private theorem readAt_throws {b : ByteArray} {size position : Nat} (hsize : sizeSub b.size position < size) :
    readAt size position b = .error (.throws .outOfRange) b := by
  unfold readAt
  rw [Op.get_bind_apply, if_pos hsize]
  rfl

/-- Only the check of the bounds throws. -/
private theorem readAt_throws_iff {b : ByteArray} (h : b.Sound) {size position : Nat} :
    readAt size position b = .error (.throws .outOfRange) b ↔ sizeSub b.size position < size := by
  refine ⟨fun heq => ?_, readAt_throws⟩
  by_contra hsize
  cases hcur : b.cur with
  | none =>
    rw [readAt_null hcur hsize] at heq
    cases heq
  | some k =>
    rw [readAt_cur h.valid hcur (h.cur_lt k hcur) hsize] at heq
    split at heq <;> cases heq

/-- The bytes from the current block on are in the storage and the same as those at the position. -/
theorem foundAt_cur {b : ByteArray} (h : b.Valid) {k : Nat} (hcur : b.cur = some k) {size position : Nat}
    (hsize : 0 < size) (hin : position + size ≤ b.size) :
    b.FoundAt size position ↔
      k * b.baseSize + position % b.baseSize + size ≤ b.capacity ∧
        (b.data.drop (k * b.baseSize + position % b.baseSize)).take size = (b.data.drop position).take size := by
  have hle := h.size_le
  have hlen := h.length_data
  unfold FoundAt
  rw [if_pos hin, take_drop_eq_iff]
  constructor
  · rintro ⟨j, hj, hall⟩
    obtain rfl : k = j := Option.some.inj (hcur.symm.trans hj)
    refine ⟨?_, hall⟩
    by_contra hlong
    -- the last of the bytes would lie behind the storage
    have hlast := hall (size - 1) (by omega)
    rw [List.getElem?_eq_none (by omega), List.getElem?_eq_getElem (by omega)] at hlast
    cases hlast
  · rintro ⟨-, hall⟩
    exact ⟨k, hcur, hall⟩

/-- At the right block the bytes are found. -/
theorem foundAt_of_cur {b : ByteArray} {size position : Nat} (hin : position + size ≤ b.size)
    (hcur : b.cur = some (position / b.baseSize)) : b.FoundAt size position := by
  unfold FoundAt
  rw [if_pos hin]
  refine ⟨position / b.baseSize, hcur, fun i _ => ?_⟩
  rw [block_offset]

private theorem readsAt_inside {b : ByteArray} (h : b.Sound) {size position : Nat} (hin : position + size ≤ b.size) :
    b.ReadsAt size position ↔ b.FoundAt size position := by
  have hle := h.valid.size_le
  have hfits := h.valid.fits
  unfold addressSpace at hfits
  have hsize : ¬ sizeSub b.size position < size := by
    rw [sizeSub_of_le (by omega) (by omega)]
    omega
  have hcontent : (b.content.drop position).take size = (b.data.drop position).take size := by
    rw [content, List.drop_take, List.take_take, Nat.min_eq_left (by omega)]
  unfold ReadsAt
  rw [if_pos hin, hcontent]
  cases hcur : b.cur with
  | none =>
    rw [readAt_null hcur hsize]
    refine iff_of_false (fun heq => by cases heq) fun hfound => ?_
    unfold FoundAt at hfound
    rw [if_pos hin, hcur] at hfound
    obtain ⟨k, hk, -⟩ := hfound
    cases hk
  | some k =>
    rw [readAt_cur h.valid hcur (h.cur_lt k hcur) hsize]
    rcases Nat.eq_zero_or_pos size with rfl | hpos
    · -- no byte is read, and none is looked for
      rw [if_pos (.inl rfl)]
      refine iff_of_true (by rw [List.take_zero, List.take_zero]) ?_
      unfold FoundAt
      rw [if_pos hin]
      exact ⟨k, hcur, fun i hi => absurd hi (Nat.not_lt_zero i)⟩
    · rw [foundAt_cur h.valid hcur hpos hin]
      split
      · rename_i hfits'
        have hroom : k * b.baseSize + position % b.baseSize + size ≤ b.capacity := by omega
        exact ⟨fun heq => ⟨hroom, by injection heq⟩, fun heq => by rw [heq.2]⟩
      · rename_i hlong
        exact iff_of_false (fun heq => by cases heq) fun hfound => hlong (.inr hfound.1)

/-- In every reachable state, for every size and position: the `const` read does what it should just where the bytes
are found from the current block on, or where the check of the bounds sees that there are not so many. -/
theorem readAt_iff [Host] {b : ByteArray} (h : Reachable b) (size position : BitVec 64) :
    b.ReadsAt size.toNat position.toNat ↔ b.FoundAt size.toNat position.toNat := by
  have hsound := h.sound
  have hle := hsound.valid.size_le
  have hfits := hsound.valid.fits
  have hposition := position.isLt
  unfold addressSpace at hfits
  by_cases hin : position.toNat + size.toNat ≤ b.size
  · exact readsAt_inside hsound hin
  · unfold ReadsAt FoundAt
    rw [if_neg hin, if_neg hin, readAt_throws_iff hsound]
    by_cases hpast : position.toNat ≤ b.size
    · rw [sizeSub_of_le hpast (by omega)]
      exact iff_of_true (by omega) (.inl hpast)
    · rw [sizeSub_of_lt (by omega) (by omega)]
      omega

section

attribute [local instance] Host.zeroed

/-- The array of two blocks of four bytes with its position at the start. -/
private def twoBlocks : ByteArray where
  baseSize := 4
  position := 0
  capacity := 8
  size := 8
  endian := .big
  nodes := [[1, 2, 3, 4], [5, 6, 7, 8]]
  cur := some 0

private theorem reachable_twoBlocks : Reachable twoBlocks :=
  reachable_of_stateAfter 4 (by decide) .big [.write [1, 2, 3, 4, 5, 6, 7, 8], .setPosition 0] (by decide)

/-- Three bytes from the first block, with the cursor in it. -/
theorem readAt_iff_firstBlock : ∃ b, Reachable b ∧ b.ReadsAt 3 1 :=
  ⟨twoBlocks, reachable_twoBlocks, (readAt_iff reachable_twoBlocks 3#64 1#64).2 (foundAt_of_cur (by decide) rfl)⟩

/-- From position 4 the code reads the bytes at position 0, and at position 9 it reads behind the size. -/
theorem not_readsAt_secondBlock : ∃ b, Reachable b ∧ ¬ b.ReadsAt 2 4 ∧ ¬ b.ReadsAt 1 9 := by
  refine ⟨twoBlocks, reachable_twoBlocks, ?_, ?_⟩
  · rw [readsAt_inside reachable_twoBlocks.sound (by decide),
      foundAt_cur reachable_twoBlocks.sound.valid rfl (by decide) (by decide)]
    decide
  · rw [ReadsAt, if_neg (by decide), readAt_throws_iff reachable_twoBlocks.sound]
    decide

end

end ByteArray

end AcidCompute

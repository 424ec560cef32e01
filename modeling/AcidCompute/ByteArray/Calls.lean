import AcidCompute.ByteArray.Refine

/-!
# Sequences of calls on one byte array

A caller writes, moves the position and reads in any order (`Call`), and may catch `std::out_of_range` and go on.
`likeFlat` compares such a sequence with the same calls on one flat array.  The sequential `read` takes the wrong
capacity for the current block behind the first one, so the comparison succeeds for the sequences whose steps are all
`Safe` (`likeFlat_of_safe`): a read starts in the first block, stays inside a later one or reads nothing through a
block pointer that is not null, and nothing is read or written through a stale block pointer.
-/

namespace AcidCompute

namespace ByteArray

/-- The calls of a byte array's user. -/
inductive Call
  | write (bytes : List Byte)
  | setPosition (p : Nat)
  | read (n : Nat)
  deriving DecidableEq, Repr

namespace Call

/-- The call on the byte array; only a read hands out bytes. -/
def exec [Host] : Call → Op ByteArray (List Byte)
  | .write bytes => do ByteArray.write bytes bytes.length; return []
  | .setPosition p => do ByteArray.setPosition p; return []
  | .read n => ByteArray.read n

/-- The call on a flat array whose storage grows in units of `baseSize`; `none` is `std::out_of_range`. -/
def flat [Host] (baseSize : Nat) (f : FlatArray Byte) : Call → Option (List Byte × FlatArray Byte)
  | .write bytes => some ([], f.write baseSize Host.heap bytes)
  | .setPosition p => (f.seek p).map fun f' => ([], f')
  | .read n => f.read n

end Call

/-- The flat array that a fresh byte array stands for. -/
def freshFlat [Host] (baseSize : Nat) : FlatArray Byte where
  data := (List.range baseSize).map Host.heap
  position := 0
  size := 0
  position_le := Nat.le_refl 0
  size_le := Nat.zero_le _

/-- Each call hands out the bytes, ends at the position and leaves the size that the flat array has, or throws
`std::out_of_range` and changes nothing where the flat array has no such range.  A sequence that runs out of memory
ends there. -/
def likeFlat [Host] : ByteArray → FlatArray Byte → List Call → Bool
  | _, _, [] => true
  | b, f, c :: cs =>
    match c.exec b, c.flat b.baseSize f with
    | .ok out b', some (out', f') =>
      decide (out = out' ∧ b'.position = f'.position ∧ b'.size = f'.size) && likeFlat b' f' cs
    | .error (.throws .outOfRange) b', none => decide (b' = b) && likeFlat b' f cs
    | .error (.throws .badAlloc) _, _ => true
    | _, _ => false

/-- The calls that do not run into the capacity that `read` takes for a block behind the first one, or into the block
pointer that it leaves behind. -/
def Safe (b : ByteArray) : Call → Prop
  | .write bytes => bytes = [] ∨ b.Synced ∨ b.position = b.capacity
  | .setPosition _ => True
  | .read n =>
    b.size - b.position < n ∨ (n = 0 ∧ b.cur ≠ none) ∨ (b.Synced ∧ b.position < b.baseSize) ∨
      (b.Synced ∧ 0 < n ∧ b.baseSize < b.position ∧ b.position % b.baseSize + n ≤ b.baseSize)

instance (b : ByteArray) (c : Call) : Decidable (b.Safe c) := by
  cases c <;> unfold Safe <;> infer_instance

/-- Every call of the sequence is safe in the state in which it is made. -/
def SafeRun [Host] : ByteArray → List Call → Prop
  | _, [] => True
  | b, c :: cs => b.Safe c ∧ SafeRun (c.exec.after b) cs

/-! ### The reads that are not in the first block -/

private theorem read_nothing {b : ByteArray} (h : b.Valid) (hcur : b.cur ≠ none) :
    ∃ b' : ByteArray, read 0 b = .ok [] b' ∧ b'.baseSize = b.baseSize ∧
      ∃ h' : b'.Valid, b'.toFlat h' = b.toFlat h := by
  obtain ⟨k, hk⟩ := Option.ne_none_iff_exists'.1 hcur
  refine ⟨{ b with position := b.position + 0, cur := b.nodeAt k }, ?_, rfl, ?_⟩
  · unfold read
    rw [Op.get_bind_apply, if_neg (Nat.not_lt_zero _), hk]
    simp only [deref, pure_bind, readLoop]
    rfl
  · exact ⟨⟨h.base_pos, h.blocks, h.nodes_pos, h.capacity_eq, h.position_le, h.size_le, h.fits⟩, rfl⟩

/-- Behind the first block the difference wraps around to a huge capacity, which does no harm to a read that stays
inside its block, but for the block pointer, which is not moved on at the block's end. -/
private theorem read_inside {b : ByteArray} (h : b.Valid) (hsync : b.Synced) {n : Nat} (hpos : 0 < n)
    (hlate : b.baseSize < b.position) (hblock : b.position % b.baseSize + n ≤ b.baseSize)
    (hn : n ≤ b.size - b.position) :
    read n b = .ok (b.unread.take n) { b with position := b.position + n } := by
  have hle := h.size_le
  have hfits := h.fits
  unfold addressSpace at hfits
  have hp : b.position < b.capacity := by omega
  have hk := block_lt (by rw [← h.capacity_eq]; exact hp)
  obtain ⟨node, rest, hdrop⟩ : ∃ node rest, b.nodes.drop (b.position / b.baseSize) = node :: rest :=
    List.exists_cons_of_length_pos (by rw [List.length_drop]; omega)
  have hnode : node.length = b.baseSize := by
    have hall := h.blocks.drop (b.position / b.baseSize)
    rw [hdrop] at hall
    exact (blocksOf_cons.1 hall).1
  have hbytes : (node.drop (b.position % b.baseSize)).take n = b.unread.take n := by
    have hflat := h.blocks.flatten_drop (Nat.le_of_lt hk)
    rw [← take_unread hn, data]
    conv => rhs; rw [← block_offset b.position b.baseSize, ← List.drop_drop, ← hflat, hdrop]
    rw [List.flatten_cons, List.drop_append_of_le_length (by omega),
      List.take_append_of_le_length (by simp; omega)]
  obtain ⟨m, rfl⟩ : ∃ m, n = m + 1 := ⟨n - 1, by omega⟩
  have hcap : sizeSub b.baseSize b.position = 2 ^ 64 - (b.position - b.baseSize) :=
    sizeSub_of_lt hlate (by omega)
  have hloop : readLoop (b.position / b.baseSize) (node :: rest) (b.position % b.baseSize)
      (2 ^ 64 - (b.position - b.baseSize)) (m + 1) = .ok (b.unread.take (m + 1), b.position / b.baseSize) := by
    rw [readLoop, if_pos (by omega), Node.load, if_pos (by omega), hbytes,
      if_neg (show ¬ 2 ^ 64 - (b.position - b.baseSize) = m + 1 by omega)]
    rfl
  have hcur : b.cur = some (b.position / b.baseSize) := by rw [hsync, h.nodeAt_div hp]
  unfold read
  rw [Op.get_bind_apply, getReadSize, if_neg (by omega), hcur]
  simp only [deref, pure_bind, hdrop, Node.headSize, hnode, hcap, hloop]
  rw [Op.bind_of_ok (Op.liftUndefined_ok _ _), h.nodeAt_div hp, ← hcur]
  rfl

/-! ### One call, and a sequence of calls -/

private theorem flat_read {b b' : ByteArray} (h : b.Valid) (h' : b'.Valid) {n : Nat}
    (hn : n ≤ b.size - b.position) (hdata : b'.data = b.data) (hpos : b'.position = b.position + n)
    (hsize : b'.size = b.size) : (b.toFlat h).read n = some (b.unread.take n, b'.toFlat h') := by
  have hple := h.position_le
  have hsome : (b.toFlat h).position + n ≤ (b.toFlat h).size := by
    show b.position + n ≤ b.size
    omega
  have hend : b'.toFlat h' = ⟨b.data, b.position + n, b.size, hsome, (b.toFlat h).size_le⟩ :=
    FlatArray.ext hdata hpos hsize
  rw [FlatArray.read, dif_pos hsome, hend]
  rfl

/-- A safe call does what it does on the flat array, or runs out of memory. -/
private theorem exec_of_safe [Host] {b : ByteArray} (h : b.Valid) {c : Call} (hs : b.Safe c) :
    (∃ (out : List Byte) (b' : ByteArray), c.exec b = .ok out b' ∧ b'.baseSize = b.baseSize ∧
      ∃ h' : b'.Valid, c.flat b.baseSize (b.toFlat h) = some (out, b'.toFlat h')) ∨
    (c.exec b = .error (.throws .outOfRange) b ∧ c.flat b.baseSize (b.toFlat h) = none) ∨
    ∃ b' : ByteArray, c.exec b = .error (.throws .badAlloc) b' := by
  cases c with
  | write bytes =>
    by_cases hne : bytes = []
    · subst hne
      exact .inl ⟨[], b, rfl, rfl, h, rfl⟩
    · rcases write_spec h (hs.resolve_left hne) hne with ⟨-, heq⟩ | ⟨b', heq, -, hbase, -, h', hflat⟩
      · exact .inr (.inr ⟨b, Op.bind_of_error heq⟩)
      · exact .inl ⟨[], b', Op.bind_of_ok heq, hbase, h', by rw [hflat]; rfl⟩
  | setPosition p =>
    have hlen : (b.toFlat h).data.length = b.capacity := h.length_data
    by_cases hp : p ≤ b.capacity
    · refine .inl ⟨[], _, Op.bind_of_ok (setPosition_spec h hp), rfl, h.seek hp, ?_⟩
      show Option.map _ (FlatArray.seek p _) = _
      rw [FlatArray.seek, dif_pos (by rw [hlen]; exact hp)]
      rfl
    · refine .inr (.inl ⟨Op.bind_of_error (setPosition_high (by omega)), ?_⟩)
      show Option.map _ (FlatArray.seek p _) = _
      rw [FlatArray.seek, dif_neg (by rw [hlen]; exact hp)]
      rfl
  | read n =>
    by_cases hshort : b.size - b.position < n
    · refine .inr (.inl ⟨read_short hshort, ?_⟩)
      have hple := h.position_le
      exact dif_neg (show ¬ b.position + n ≤ b.size by omega)
    · left
      have hn : n ≤ b.size - b.position := by omega
      have hple := h.position_le
      rcases hs.resolve_left hshort with ⟨rfl, hcur⟩ | ⟨hsync, hfirst⟩ | ⟨hsync, hpos, hlate, hblock⟩
      · obtain ⟨b', heq, hbase, h', hflat⟩ := read_nothing h hcur
        refine ⟨[], b', heq, hbase, h', ?_⟩
        rw [hflat]
        exact flat_read h h hn rfl rfl rfl
      · have h' : (b.moveTo (b.position + n)).Valid := h.moveTo (by omega)
        exact ⟨_, _, read_spec h hsync hfirst hn, rfl, h', flat_read h h' hn rfl rfl rfl⟩
      · have h' : Valid { b with position := b.position + n } :=
          ⟨h.base_pos, h.blocks, h.nodes_pos, h.capacity_eq, show b.position + n ≤ b.size by omega, h.size_le,
            h.fits⟩
        exact ⟨_, _, read_inside h hsync hpos hlate hblock hn, rfl, h', flat_read h h' hn rfl rfl rfl⟩

private theorem likeFlat_run [Host] (calls : List Call) :
    ∀ (b : ByteArray) (h : b.Valid), SafeRun b calls → likeFlat b (b.toFlat h) calls = true := by
  induction calls with
  | nil => intro b h _; rfl
  | cons c cs ih =>
    intro b h hrun
    obtain ⟨hsafe, hrest⟩ := hrun
    unfold likeFlat
    rcases exec_of_safe h hsafe with ⟨out, b', heq, -, h', hflat⟩ | ⟨heq, hflat⟩ | ⟨b', heq⟩
    · have hafter : c.exec.after b = b' := by rw [Op.after, heq]
      rw [hafter] at hrest
      simp only [heq, hflat, ih b' h' hrest, Bool.and_true]
      exact decide_eq_true ⟨trivial, rfl, rfl⟩
    · have hafter : c.exec.after b = b := by rw [Op.after, heq]
      rw [hafter] at hrest
      simp only [heq, hflat, ih b h hrest, decide_true, Bool.and_true]
    · simp only [heq]

/-- In every sequence of calls on a fresh array whose steps are all safe, each call behaves as on one flat array. -/
theorem likeFlat_of_safe [Host] {baseSize : Nat} (hpos : 0 < baseSize) {en : Endian} {b : ByteArray}
    (hnew : new baseSize en = .ok b) {calls : List Call} (hrun : SafeRun b calls) :
    likeFlat b (freshFlat baseSize) calls = true := by
  obtain ⟨h, -⟩ := new_valid hpos hnew
  have hflat : b.toFlat h = freshFlat baseSize := by
    unfold new at hnew
    split at hnew
    · cases hnew
    · cases hnew
      apply FlatArray.ext
      · simp [toFlat, data, freshNodes, freshFlat]
      · rfl
      · rfl
  rw [← hflat]
  exact likeFlat_run calls b h hrun

section

attribute [local instance] Host.zeroed

/-- Six bytes written over blocks of four and read back in one piece. -/
theorem likeFlat_of_safe_six :
    ∃ b : ByteArray, new 4 .big = .ok b ∧
      likeFlat b (freshFlat 4) [.write [1, 2, 3, 4, 5, 6], .setPosition 0, .read 6] = true :=
  ⟨_, rfl, likeFlat_of_safe (by decide) rfl ⟨by decide, by decide, by decide, trivial⟩⟩

/-- Twelve bytes in blocks of four: after the first block has been read, the next read skips the second block and
returns the byte 9 instead of 5. -/
theorem not_likeFlat_second_block :
    ∃ b : ByteArray, new 4 .big = .ok b ∧
      likeFlat b (freshFlat 4)
        [.write [1, 2, 3, 4, 5, 6, 7, 8, 9, 10, 11, 12], .setPosition 0, .read 4, .read 1] = false :=
  ⟨_, rfl, by decide⟩

end

end ByteArray

end AcidCompute

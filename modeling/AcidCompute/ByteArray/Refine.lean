import AcidCompute.ByteArray.Flat

/-!
# The operations against the flat array

One specification for each operation of a valid array.  `write` is the flat write (or `std::bad_alloc`) whenever the
cached block is synced or the array is full, `set_position` is the flat seek in every state, and `read` is the flat
read where it starts in the first block, or stays inside one later block.
-/

namespace AcidCompute

namespace ByteArray

/-- The flat array that a valid byte array stands for. -/
def toFlat (b : ByteArray) (h : b.Valid) : FlatArray Byte where
  data := b.data
  position := b.position
  size := b.size
  position_le := h.position_le
  size_le := by rw [h.length_data]; exact h.size_le

@[simp] theorem content_toFlat {b : ByteArray} (h : b.Valid) : (b.toFlat h).content = b.content := rfl

@[simp] theorem unread_toFlat {b : ByteArray} (h : b.Valid) : (b.toFlat h).unread = b.unread := rfl

/-! ### Arithmetic of blocks -/

private theorem le_round_up (a : Nat) {n : Nat} (hn : 0 < n) : a ≤ (a + n - 1) / n * n := by
  have h1 := Nat.div_add_mod (a + n - 1) n
  have h2 := Nat.mod_lt (a + n - 1) hn
  rw [Nat.mul_comm]
  omega

private theorem div_add_div (p m : Nat) {n : Nat} (hn : 0 < n) : p / n + (p % n + m) / n = (p + m) / n := by
  have h := Nat.div_add_mod p n
  have : p + m = p % n + m + n * (p / n) := by omega
  rw [this, Nat.add_mul_div_left _ _ hn, Nat.add_comm]

private theorem Valid.div_lt {b : ByteArray} (h : b.Valid) {p : Nat} (hp : p < b.capacity) :
    p / b.baseSize < b.nodes.length := block_lt (by rw [← h.capacity_eq]; exact hp)

theorem Valid.nodeAt_div {b : ByteArray} (h : b.Valid) {p : Nat} (hp : p < b.capacity) :
    b.nodeAt (p / b.baseSize) = some (p / b.baseSize) := by
  rw [nodeAt, if_pos (h.div_lt hp)]

private theorem Valid.room {b : ByteArray} (h : b.Valid) {p m : Nat} (hp : p < b.capacity)
    (hm : p + m ≤ b.capacity) :
    p % b.baseSize + m ≤ (b.nodes.drop (p / b.baseSize)).length * b.baseSize := by
  have h1 := block_offset p b.baseSize
  have h2 := h.div_lt hp
  rw [List.length_drop, Nat.sub_mul, ← h.capacity_eq]
  omega

private theorem Valid.data_split {b : ByteArray} (h : b.Valid) {k : Nat} (hk : k ≤ b.nodes.length) :
    (b.nodes.drop k).flatten = b.data.drop (k * b.baseSize) := h.blocks.flatten_drop hk

/-! ### Growth -/

theorem addCapacity_spec [Host] {b : ByteArray} (h : b.Valid) {size : Nat} (hsize : 0 < size) :
    (addressSpace < b.capacity + (b.toFlat h).growth b.baseSize size ∧
      addCapacity size b = .error (.throws .badAlloc) b) ∨
    ∃ b' : ByteArray, addCapacity size b = .ok () b' ∧ b'.baseSize = b.baseSize ∧ b'.endian = b.endian ∧
      b.position + size ≤ b'.capacity ∧
      (b.Synced ∨ b.position = b.capacity → b'.cur = some (b.position / b.baseSize)) ∧
      ∃ h' : b'.Valid, b'.toFlat h' = (b.toFlat h).grow b.baseSize size Host.heap := by
  have hlen : (b.toFlat h).data.length = b.capacity := h.length_data
  have hle := h.position_le.trans h.size_le
  unfold addCapacity getCapacity
  rw [if_neg (by omega)]
  split
  · -- strictly more than `size` bytes are free
    rename_i hroom
    refine .inr ⟨b, rfl, rfl, rfl, by omega, ?_, h, ?_⟩
    · rintro (hs | hs)
      · rw [hs, h.nodeAt_div (by omega)]
      · omega
    · have hgrow : (b.toFlat h).growth b.baseSize size = 0 := by
        simp only [FlatArray.growth, hlen]
        exact if_pos hroom
      apply FlatArray.ext <;> simp [FlatArray.grow, hgrow]
  · rename_i hroom
    have hgrow : (b.toFlat h).growth b.baseSize size =
        (size - (b.capacity - b.position) + b.baseSize - 1) / b.baseSize * b.baseSize := by
      simp only [FlatArray.growth, hlen]
      exact if_neg hroom
    have hround := le_round_up (size - (b.capacity - b.position)) h.base_pos
    rw [hgrow]
    generalize hcount : (size - (b.capacity - b.position) + b.baseSize - 1) / b.baseSize = count
    rw [hcount] at hgrow hround
    dsimp only
    split
    · rename_i hbad
      exact .inl ⟨hbad, rfl⟩
    · rename_i hfits
      refine .inr ⟨_, rfl, rfl, rfl, by dsimp only; omega, ?_, ?_⟩
      · dsimp only
        intro hs
        split
        · -- the array was full: the pointer moves to the first new block
          have hcount0 : count ≠ 0 := by
            rintro rfl
            rw [Nat.zero_mul] at hround
            omega
          have hpos : b.position = b.nodes.length * b.baseSize := by rw [← h.capacity_eq]; omega
          rw [if_neg hcount0, hpos, Nat.mul_div_cancel _ h.base_pos]
        · rcases hs with hs | hs
          · rw [hs, h.nodeAt_div (by omega)]
          · omega
      · have hnodes : (b.nodes ++ freshNodes b.baseSize b.capacity count).length = b.nodes.length + count := by
          simp
        refine ⟨⟨h.base_pos, blocksOf_append.2 ⟨h.blocks, blocksOf_freshNodes _ _ _⟩, ?_, ?_, h.position_le, ?_, ?_⟩,
          ?_⟩
        · have := h.nodes_pos
          rw [hnodes]; omega
        · rw [hnodes, Nat.add_mul, ← h.capacity_eq]
        · exact h.size_le.trans (Nat.le_add_right _ _)
        · dsimp only; omega
        · apply FlatArray.ext
          · show (b.nodes ++ freshNodes b.baseSize b.capacity count).flatten = _
            rw [List.flatten_append, flatten_freshNodes]
            simp only [FlatArray.grow, hgrow, hlen]
            rfl
          · rfl
          · rfl

/-! ### Writing -/

/-- What `write` does when the current block and the free space are as they should be. -/
private theorem writeLoop_at {b : ByteArray} (h : b.Valid) {bs : List Byte} (hne : bs ≠ [])
    (hroom : b.position + bs.length ≤ b.capacity) :
    ∃ nodes', writeLoop (b.position / b.baseSize) (b.nodes.drop (b.position / b.baseSize))
        (b.position % b.baseSize) (b.baseSize - b.position % b.baseSize) bs =
        .ok (nodes', (b.position + bs.length) / b.baseSize) ∧
      BlocksOf b.baseSize (b.nodes.take (b.position / b.baseSize) ++ nodes') ∧
      (b.nodes.take (b.position / b.baseSize) ++ nodes').length = b.nodes.length ∧
      (b.nodes.take (b.position / b.baseSize) ++ nodes').flatten = overwrite b.data b.position bs := by
  have hlen : 0 < bs.length := List.length_pos_iff.2 hne
  have hpos : b.position < b.capacity := by omega
  have hk := h.div_lt hpos
  obtain ⟨nodes', heq, hblocks, hcount, hflat⟩ :=
    writeLoop_spec h.base_pos (h.blocks.drop (b.position / b.baseSize)) (b.position / b.baseSize)
      (Nat.mod_lt b.position h.base_pos) (by rw [List.length_drop]; omega) (h.room hpos hroom)
  refine ⟨nodes', ?_, blocksOf_append.2 ⟨h.blocks.take _, hblocks⟩, ?_, ?_⟩
  · rw [heq, div_add_div _ _ h.base_pos]
  · rw [List.length_append, List.length_take, hcount, List.length_drop]; omega
  · obtain ⟨hfirst, hsplit⟩ := h.blocks.flatten_split (Nat.le_of_lt hk)
    rw [List.flatten_append, hflat, data, hsplit, ← append_overwrite, hfirst, block_offset]

theorem write_spec [Host] {b : ByteArray} (h : b.Valid) (hcur : b.Synced ∨ b.position = b.capacity)
    {bs : List Byte} (hne : bs ≠ []) :
    (addressSpace < b.capacity + (b.toFlat h).growth b.baseSize bs.length ∧
      write bs bs.length b = .error (.throws .badAlloc) b) ∨
    ∃ b' : ByteArray, write bs bs.length b = .ok () b' ∧ b'.Synced ∧ b'.baseSize = b.baseSize ∧
      b'.endian = b.endian ∧ ∃ h' : b'.Valid, b'.toFlat h' = (b.toFlat h).write b.baseSize Host.heap bs := by
  have hlen : 0 < bs.length := List.length_pos_iff.2 hne
  unfold write
  rw [if_neg (by omega)]
  rcases addCapacity_spec h hlen with ⟨hbad, heq⟩ | ⟨b₁, heq, hbase, hend, hroom, hsync, h₁, hflat⟩
  · exact .inl ⟨hbad, Op.bind_of_error heq⟩
  · right
    have hpos : b₁.position = b.position := congrArg FlatArray.position hflat
    have hsize : b₁.size = b.size := congrArg FlatArray.size hflat
    have hdata : b₁.data = ((b.toFlat h).grow b.baseSize bs.length Host.heap).data :=
      congrArg FlatArray.data hflat
    rw [← hpos] at hroom
    obtain ⟨nodes', hloop, hblocks, hcount, hover⟩ := writeLoop_at h₁ hne hroom
    have hk : b₁.cur = some (b₁.position / b₁.baseSize) := by rw [hsync hcur, hpos, hbase]
    have hhead : Node.headSize (b₁.nodes.drop (b₁.position / b₁.baseSize)) = b₁.baseSize := by
      refine headSize_of_blocks (h₁.blocks.drop _) ?_
      have := h₁.div_lt (p := b₁.position) (by omega)
      rw [List.length_drop]; omega
    have htake : bs.take bs.length = bs := List.take_length
    rw [Op.bind_of_ok heq, Op.get_bind_apply, hk]
    simp only [deref, pure_bind, lt_self_iff_false, if_false, hhead, htake, hloop]
    rw [Op.bind_of_ok (Op.liftUndefined_ok _ _)]
    refine ⟨_, rfl, ?_, hbase, hend, ?_⟩
    · show b₁.nodeAt _ = nodeAt _ _
      simp only [nodeAt, hcount]
    · refine ⟨⟨h₁.base_pos, hblocks, by rw [hcount]; exact h₁.nodes_pos, by rw [hcount]; exact h₁.capacity_eq,
        ?_, ?_, h₁.fits⟩, ?_⟩
      · exact Nat.le_max_right _ _
      · have := h₁.size_le
        dsimp only; omega
      · apply FlatArray.ext
        · simp only [FlatArray.write, List.isEmpty_iff, hne, if_false, FlatArray.put]
          rw [← hdata]
          show _ = overwrite b₁.data b.position bs
          rw [← hpos, ← hover]
          rfl
        · simp only [FlatArray.write, List.isEmpty_iff, hne, if_false, FlatArray.put, toFlat, hpos]
          rfl
        · simp only [FlatArray.write, List.isEmpty_iff, hne, if_false, FlatArray.put, toFlat, hpos, hsize]
          rfl

@[simp] theorem write_zero [Host] (buffer : List Byte) (b : ByteArray) : write buffer 0 b = .ok () b := rfl

/-! ### Reading -/

private theorem readLoop_at {b : ByteArray} (h : b.Valid) {p n : Nat} (hp : p < b.capacity)
    (hn : p + n ≤ b.capacity) :
    readLoop (p / b.baseSize) (b.nodes.drop (p / b.baseSize)) (p % b.baseSize)
        (b.baseSize - p % b.baseSize) n = .ok ((b.data.drop p).take n, (p + n) / b.baseSize) := by
  rw [readLoop_spec h.base_pos (h.blocks.drop _) _ (Nat.mod_lt _ h.base_pos) (.inl (h.room hp hn)),
    div_add_div _ _ h.base_pos, h.data_split (Nat.le_of_lt (h.div_lt hp)), List.drop_drop, block_offset]

theorem Valid.headSize_drop {b : ByteArray} (h : b.Valid) {p : Nat} (hp : p < b.capacity) :
    Node.headSize (b.nodes.drop (p / b.baseSize)) = b.baseSize := by
  refine headSize_of_blocks (h.blocks.drop _) ?_
  have := h.div_lt hp
  rw [List.length_drop]; omega

theorem take_unread {b : ByteArray} {n : Nat} (hn : n ≤ b.size - b.position) :
    (b.data.drop b.position).take n = b.unread.take n := by
  rw [unread, content, List.drop_take, List.take_take, Nat.min_eq_left hn]

/-- A read that starts in the first block. -/
theorem read_spec {b : ByteArray} (h : b.Valid) (hsync : b.Synced) (hp : b.position < b.baseSize) {n : Nat}
    (hn : n ≤ b.size - b.position) :
    read n b = .ok (b.unread.take n) (b.moveTo (b.position + n)) := by
  have hbase : b.baseSize ≤ b.capacity := by
    rw [h.capacity_eq]; exact Nat.le_mul_of_pos_left _ h.nodes_pos
  have hle := h.size_le
  have hple := h.position_le
  have hfits := h.fits
  unfold addressSpace at hfits
  have hcap : sizeSub b.baseSize b.position = b.baseSize - b.position % b.baseSize := by
    rw [Nat.mod_eq_of_lt hp, sizeSub_of_le (by omega) (by omega)]
  unfold read
  rw [Op.get_bind_apply, getReadSize, if_neg (by omega), hsync, h.nodeAt_div (by omega)]
  simp only [deref, pure_bind, h.headSize_drop (show b.position < b.capacity by omega), hcap,
    readLoop_at h (show b.position < b.capacity by omega) (show b.position + n ≤ b.capacity by omega)]
  rw [Op.bind_of_ok (Op.liftUndefined_ok _ _), take_unread hn]
  rfl

theorem read_short {b : ByteArray} {n : Nat} (hn : b.size - b.position < n) :
    read n b = .error (.throws .outOfRange) b := by
  unfold read
  rw [Op.get_bind_apply, getReadSize, if_pos hn]
  rfl

/-- The `const` read at the position itself. -/
theorem readAt_position {b : ByteArray} (h : b.Valid) (hsync : b.Synced) (hp : b.position < b.capacity)
    {n : Nat} (hn : n ≤ b.size - b.position) : readAt n b.position b = .ok (b.unread.take n) b := by
  have hle := h.size_le
  have hple := h.position_le
  have hfits := h.fits
  unfold addressSpace at hfits
  unfold readAt
  rw [Op.get_bind_apply, sizeSub_of_le hple (by omega), if_neg (by omega), hsync, h.nodeAt_div hp]
  simp only [deref, pure_bind, h.headSize_drop hp, readLoop_at h hp (show b.position + n ≤ b.capacity by omega)]
  rw [Op.bind_of_ok (Op.liftUndefined_ok _ _), take_unread hn]
  rfl

theorem toString_spec {b : ByteArray} (h : b.Valid) (hsync : b.Synced) : toString b = .ok b.unread b := by
  have hlen := h.length_unread
  unfold toString
  rw [Op.get_bind_apply, getReadSize]
  split
  · rename_i h0
    rw [h0, List.length_eq_zero_iff] at hlen
    rw [hlen]; rfl
  · have := h.size_le
    rw [readAt_position h hsync (by omega) (Nat.le_refl _), List.take_of_length_le (by omega)]

/-! ### The position -/

theorem setPosition_spec {b : ByteArray} (h : b.Valid) {p : Nat} (hp : p ≤ b.capacity) :
    setPosition p b = .ok () { b.moveTo p with size := max b.size p } := by
  unfold setPosition
  rw [Op.get_bind_apply, if_neg (by omega),
    seekLoop_spec h.base_pos h.blocks 0 h.nodes_pos (by rw [← h.capacity_eq]; exact hp), Nat.zero_add]
  rfl

theorem setPosition_high {b : ByteArray} {p : Nat} (hp : b.capacity < p) :
    setPosition p b = .error (.throws .outOfRange) b := by
  unfold setPosition
  rw [Op.get_bind_apply, if_pos hp]
  rfl

/-- Going back to the start. -/
theorem setPosition_zero {b : ByteArray} (h : b.Valid) : setPosition 0 b = .ok () (b.moveTo 0) := by
  rw [setPosition_spec h (Nat.zero_le _), Nat.max_eq_left (Nat.zero_le _)]
  rfl

theorem Valid.seek {b : ByteArray} (h : b.Valid) {p : Nat} (hp : p ≤ b.capacity) :
    Valid { b.moveTo p with size := max b.size p } where
  base_pos := h.base_pos
  blocks := h.blocks
  nodes_pos := h.nodes_pos
  capacity_eq := h.capacity_eq
  position_le := Nat.le_max_right _ _
  size_le := Nat.max_le.2 ⟨h.size_le, hp⟩
  fits := h.fits

end ByteArray

end AcidCompute

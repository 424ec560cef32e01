import AcidCompute.ByteArray.Codec

/-!
# Scattered input and output

The bytes that the buffers of `get_read_buffers` and `get_write_buffers` describe.  The block in which the range ends
is never among them, so that a range is described up to the start of its last block (`getReadBuffers_spec`), and a
range inside one block is not described at all (`getWriteBuffers_spec`).
-/

namespace AcidCompute

/-- The bytes a buffer describes. -/
def Iovec.bytes (nodes : List Node) (iov : Iovec) : List Byte :=
  ((nodes.getD iov.node []).drop iov.offset).take iov.length

namespace ByteArray

/-- What is sent from the buffers. -/
def gather (nodes : List Node) (iovs : List Iovec) : List Byte := iovs.flatMap (Iovec.bytes nodes)

/-- The blocks after bytes have been received into the buffers. -/
def scatter : List Iovec → List Byte → List Node → List Node
  | [], _, nodes => nodes
  | iov :: iovs, bytes, nodes =>
    scatter iovs (bytes.drop iov.length)
      (nodes.modify iov.node fun node => overwrite node iov.offset (bytes.take iov.length))

/-- The bytes that the buffers have room for. -/
def room (iovs : List Iovec) : Nat := (iovs.map Iovec.length).sum

private theorem take_blocks {n npos : Nat} (len : Nat) (hn : 0 < n) (hpos : npos < n) (hlong : n - npos < len) :
    (npos + len - 1) / n * n - npos = (n - npos) + (0 + (len - (n - npos)) - 1) / n * n := by
  have hsplit : npos + len - 1 = (len - (n - npos) - 1) + n := by omega
  rw [hsplit, Nat.add_div_right _ hn, Nat.zero_add, Nat.succ_mul]
  omega

/-- The loop describes the whole blocks in front of the one that holds the last byte. -/
theorem iovecLoop_spec {n : Nat} (hn : 0 < n) {nodes : List Node} (h : BlocksOf n nodes) (pre : List Node)
    (npos len : Nat) (hpos : npos < n) (hlen : 0 < len) (hroom : npos + len ≤ nodes.length * n) :
    ∃ iovs, iovecLoop pre.length nodes npos (n - npos) len = .ok iovs ∧
      gather (pre ++ nodes) iovs = (nodes.flatten.drop npos).take ((npos + len - 1) / n * n - npos) := by
  induction nodes generalizing pre npos len with
  | nil =>
    rw [List.length_nil, Nat.zero_mul] at hroom
    omega
  | cons node rest ih =>
    obtain ⟨len, rfl⟩ := Nat.exists_eq_add_of_lt hlen
    rw [Nat.zero_add] at *
    obtain ⟨hnode, hrest⟩ := blocksOf_cons.1 h
    unfold iovecLoop
    by_cases hshort : len + 1 ≤ n - npos
    · -- the range ends in this block, whose buffer is dropped
      have hnone : (npos + (len + 1) - 1) / n = 0 := Nat.div_eq_of_lt (by omega)
      rw [if_pos hshort]
      exact ⟨[], rfl, by rw [hnone, Nat.zero_mul, Nat.zero_sub, List.take_zero]; rfl⟩
    · rw [List.length_cons, Nat.succ_mul] at hroom
      have hhead : Node.headSize rest = n := by
        refine headSize_of_blocks hrest ?_
        by_contra hnil
        rw [Nat.eq_zero_of_not_pos hnil, Nat.zero_mul] at hroom
        omega
      obtain ⟨iovs, hloop, hbytes⟩ := ih hrest (pre ++ [node]) 0 (len + 1 - (n - npos)) hn
        (by omega) (by omega)
      rw [List.length_append, List.length_singleton, Nat.sub_zero] at hloop
      rw [if_neg hshort, hhead, hloop]
      refine ⟨_, rfl, ?_⟩
      have hfront : Iovec.bytes (pre ++ node :: rest) ⟨pre.length, npos, n - npos⟩ = node.drop npos := by
        have hget : (pre ++ node :: rest).getD pre.length [] = node := by simp
        show ((List.getD _ pre.length []).drop npos).take (n - npos) = _
        rw [hget]
        exact List.take_of_length_le (by rw [List.length_drop]; omega)
      have hcount := take_blocks (len + 1) hn hpos (by omega)
      rw [List.append_assoc, List.singleton_append, List.drop_zero, Nat.sub_zero] at hbytes
      rw [gather, List.flatMap_cons, ← gather, hbytes, hfront, hcount, List.flatten_cons,
        List.drop_append_of_le_length (by omega), List.take_append,
        List.take_of_length_le (l := node.drop npos) (by rw [List.length_drop]; omega), List.length_drop, hnode,
        Nat.add_sub_cancel_left]

/-- The unread bytes up to the start of the block that holds the last byte wanted. -/
theorem getReadBuffers_spec {b : ByteArray} (h : b.Valid) (hsync : b.Synced) (len : Nat) (hlen : 0 < len)
    (hle : len ≤ b.size - b.position) :
    ∃ iovs, getReadBuffers len b = .ok (iovs, len) b ∧
      gather b.nodes iovs = b.unread.take ((b.position + len - 1) / b.baseSize * b.baseSize - b.position) := by
  have hsize := h.size_le
  have hp : b.position < b.capacity := by omega
  have hk : b.position / b.baseSize ≤ b.nodes.length := Nat.le_of_lt (block_lt (by rw [← h.capacity_eq]; exact hp))
  have hoffset := block_offset b.position b.baseSize
  have hpre : (b.nodes.take (b.position / b.baseSize)).length = b.position / b.baseSize := by
    rw [List.length_take, Nat.min_eq_left hk]
  obtain ⟨iovs, hloop, hbytes⟩ := iovecLoop_spec h.base_pos (h.blocks.drop (b.position / b.baseSize))
    (b.nodes.take (b.position / b.baseSize)) (b.position % b.baseSize) len (Nat.mod_lt b.position h.base_pos) hlen (by
      rw [List.length_drop, Nat.sub_mul, ← h.capacity_eq]
      omega)
  rw [hpre] at hloop
  refine ⟨iovs, ?_, ?_⟩
  · unfold getReadBuffers
    rw [Op.get_bind_apply, getReadSize, Nat.min_eq_left hle, if_neg (by omega), hsync, h.nodeAt_div hp]
    simp only [deref, pure_bind, h.headSize_drop hp, hloop]
    rfl
  · have hcount : (b.position % b.baseSize + len - 1) / b.baseSize * b.baseSize - b.position % b.baseSize =
        (b.position + len - 1) / b.baseSize * b.baseSize - b.position := by
      have hsplit : b.position + len - 1 =
          (b.position % b.baseSize + len - 1) + b.baseSize * (b.position / b.baseSize) := by
        rw [Nat.mul_comm]
        omega
      rw [hsplit, Nat.add_mul_div_left _ _ h.base_pos, Nat.add_mul]
      omega
    have hwithin := Nat.div_mul_le_self (b.position + len - 1) b.baseSize
    rw [List.take_append_drop, h.blocks.flatten_drop hk, List.drop_drop, hoffset, hcount] at hbytes
    rw [hbytes]
    exact take_unread (by omega)

/-- A range inside one block of storage gets no buffer. -/
theorem getWriteBuffers_spec [Host] {b : ByteArray} (h : b.Valid) (hsync : b.Synced) {len : Nat}
    (hlen : b.position % b.baseSize + len ≤ b.baseSize) (hroom : b.position + len < b.capacity) :
    getWriteBuffers len b = .ok ([], len) b := by
  by_cases hzero : len = 0
  · unfold getWriteBuffers
    rw [if_pos hzero, hzero]
    rfl
  · obtain ⟨len, rfl⟩ := Nat.exists_eq_succ_of_ne_zero hzero
    have hp : b.position < b.capacity := by omega
    have hgrow : addCapacity (len + 1) b = .ok () b := by
      unfold addCapacity getCapacity
      rw [if_neg hzero, if_pos (by omega)]
    have hblock : ∃ node rest, b.nodes.drop (b.position / b.baseSize) = node :: rest := by
      refine List.exists_cons_of_length_pos ?_
      have hk := block_lt (n := b.baseSize) (m := b.nodes.length) (by rw [← h.capacity_eq]; exact hp)
      rw [List.length_drop]
      omega
    obtain ⟨node, rest, hblock⟩ := hblock
    have hhead := h.headSize_drop hp
    rw [hblock] at hhead
    unfold getWriteBuffers
    rw [if_neg hzero, Op.bind_of_ok hgrow, Op.get_bind_apply, hsync, h.nodeAt_div hp]
    simp only [deref, pure_bind, hblock, hhead, iovecLoop]
    rw [if_pos (by omega)]
    rfl

end ByteArray

end AcidCompute

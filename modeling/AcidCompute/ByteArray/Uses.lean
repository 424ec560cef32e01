import AcidCompute.ByteArray.Refine

/-!
# Writing, seeking, clearing and reading out

A caller writes, moves the position, clears the array and takes the rest out as a string, in any order (`Use`).  None of
these calls leaves the cached block behind (`Valid` and `Synced` together), so that in every sequence of them the array
is one flat array with a position and a size (`IsFlat`), and each call does to that flat array what it should
(`Use.Meets`): see `history_of_uses`.
-/

namespace AcidCompute

namespace ByteArray

inductive Use
  | write (bytes : List Byte)
  | setPosition (p : Nat)
  | clear
  | toString
  deriving DecidableEq, Repr

/-- The call on the byte array; only `to_string` hands out bytes. -/
def Use.exec [Host] : Use → Op ByteArray (List Byte)
  | .write bytes => do ByteArray.write bytes bytes.length; return []
  | .setPosition p => do ByteArray.setPosition p; return []
  | .clear => do ByteArray.clear; return []
  | .toString => ByteArray.toString

/-- The storage is as long as the capacity says, in whole blocks, the position and the size lie in it, and the cached
block is the one of the position, null just at the end. -/
structure IsFlat (b : ByteArray) : Prop where
  length_data : b.data.length = b.capacity
  capacity_eq : b.capacity = b.nodes.length * b.baseSize
  position_le : b.position ≤ b.size
  size_le : b.size ≤ b.capacity
  cur_eq_none : b.cur = none ↔ b.position = b.capacity
  cur_eq_some : b.position ≠ b.capacity → b.cur = some (b.position / b.baseSize)

/-- The bytes that `n` more bytes at the position need behind the storage, in whole blocks. -/
def needed (b : ByteArray) (n : Nat) : Nat := (b.position + n - b.capacity + b.baseSize - 1) / b.baseSize * b.baseSize

/-- What a call that returns hands out, and how it changes the flat array. -/
def Use.Meets (b : ByteArray) (out : List Byte) (b' : ByteArray) : Use → Prop
  | .write bytes =>
    out = [] ∧ b'.capacity = b.capacity + b.needed bytes.length ∧ b'.position = b.position + bytes.length ∧
      b'.size = max b.size (b.position + bytes.length) ∧
      ∃ fresh, fresh.length = b.needed bytes.length ∧ b'.data = overwrite (b.data ++ fresh) b.position bytes
  | .setPosition p =>
    out = [] ∧ p ≤ b.capacity ∧ b'.capacity = b.capacity ∧ b'.position = p ∧ b'.size = max b.size p ∧ b'.data = b.data
  | .clear =>
    out = [] ∧ b'.capacity = b.baseSize ∧ b'.position = 0 ∧ b'.size = 0 ∧ b'.data = b.data.take b.baseSize
  | .toString => out = (b.data.take b.size).drop b.position ∧ b' = b

/-- When a call may throw. -/
def Use.Refused (b : ByteArray) : Exception → Use → Prop
  | .outOfRange, .setPosition p => b.capacity < p
  | .badAlloc, .write bytes => addressSpace < b.capacity + b.needed bytes.length
  | _, _ => False

/-- The array is flat throughout the sequence, and each call does what it should, or throws where it may and changes
nothing. -/
def History [Host] : ByteArray → List Use → Prop
  | b, [] => b.IsFlat
  | b, u :: us =>
    b.IsFlat ∧ ((∃ out b', u.exec b = .ok out b' ∧ u.Meets b out b' ∧ b'.baseSize = b.baseSize ∧ History b' us) ∨
      ∃ e, u.exec b = .error (.throws e) b ∧ u.Refused b e ∧ History b us)

/-! ### The invariant -/

theorem Valid.isFlat {b : ByteArray} (h : b.Valid) (hsync : b.Synced) : b.IsFlat where
  length_data := h.length_data
  capacity_eq := h.capacity_eq
  position_le := h.position_le
  size_le := h.size_le
  cur_eq_none := by
    have hle := h.position_le.trans h.size_le
    rw [hsync]
    constructor
    · intro hnone
      by_contra hne
      rw [h.nodeAt_div (by omega)] at hnone
      cases hnone
    · intro hend
      rw [hend, h.capacity_eq, Nat.mul_div_cancel _ h.base_pos, nodeAt, if_neg (Nat.lt_irrefl _)]
  cur_eq_some hne := by
    have hle := h.position_le.trans h.size_le
    rw [hsync, h.nodeAt_div (by omega)]

/-- The test of `add_capacity` for strictly more free bytes adds no block where the bytes just fit. -/
theorem Valid.growth_eq {b : ByteArray} (h : b.Valid) (n : Nat) :
    (b.toFlat h).growth b.baseSize n = b.needed n := by
  have hlen : (b.toFlat h).data.length = b.capacity := h.length_data
  have hle := h.position_le.trans h.size_le
  have hbase := h.base_pos
  have hposition : (b.toFlat h).position = b.position := rfl
  unfold FlatArray.growth needed
  rw [hlen, hposition]
  by_cases hroom : n < b.capacity - b.position
  · rw [if_pos hroom, show b.position + n - b.capacity = 0 by omega, Nat.zero_add,
      Nat.div_eq_of_lt (by omega), Nat.zero_mul]
  · rw [if_neg hroom, show n - (b.capacity - b.position) = b.position + n - b.capacity by omega]

theorem Valid.needed_zero {b : ByteArray} (h : b.Valid) : b.needed 0 = 0 := by
  have hle := h.position_le.trans h.size_le
  have hbase := h.base_pos
  unfold needed
  rw [show b.position + 0 - b.capacity = 0 by omega, Nat.zero_add, Nat.div_eq_of_lt (by omega), Nat.zero_mul]

/-! ### The calls -/

private theorem write_use [Host] {b : ByteArray} (h : b.Valid) (hsync : b.Synced) (bytes : List Byte) :
    (∃ b', (Use.write bytes).exec b = .ok [] b' ∧ b'.Valid ∧ b'.Synced ∧ b'.baseSize = b.baseSize ∧
        (Use.write bytes).Meets b [] b') ∨
      (Use.write bytes).exec b = .error (.throws .badAlloc) b ∧ (Use.write bytes).Refused b .badAlloc := by
  by_cases hne : bytes = []
  · subst hne
    refine .inl ⟨b, rfl, h, hsync, rfl, rfl, ?_, rfl, (Nat.max_eq_left h.position_le).symm, [], ?_, ?_⟩
    · rw [List.length_nil, h.needed_zero, Nat.add_zero]
    · rw [List.length_nil, h.needed_zero]
    · rw [List.append_nil, overwrite_nil]
  · rcases write_spec h (.inl hsync) hne with ⟨hbad, heq⟩ | ⟨b', heq, hsync', hbase, -, h', hflat⟩
    · rw [h.growth_eq] at hbad
      exact .inr ⟨Op.bind_of_error heq, hbad⟩
    · have hwrite : (b.toFlat h).write b.baseSize Host.heap bytes =
          ((b.toFlat h).grow b.baseSize bytes.length Host.heap).put bytes := by
        rw [FlatArray.write, if_neg (by simpa using hne)]
      rw [hwrite] at hflat
      have hposition : b'.position = b.position + bytes.length := congrArg FlatArray.position hflat
      have hdata : b'.data = overwrite (b.data ++ (List.range ((b.toFlat h).growth b.baseSize bytes.length)).map
          fun i => Host.heap ((b.toFlat h).data.length + i)) b.position bytes := congrArg FlatArray.data hflat
      rw [h.growth_eq] at hdata
      have hroom : b.position + bytes.length ≤ b.capacity + b.needed bytes.length := by
        have hdiv := Nat.div_add_mod (b.position + bytes.length - b.capacity + b.baseSize - 1) b.baseSize
        have hmod := Nat.mod_lt (b.position + bytes.length - b.capacity + b.baseSize - 1) h.base_pos
        rw [Nat.mul_comm] at hdiv
        unfold needed
        omega
      refine .inl ⟨b', Op.bind_of_ok heq, h', hsync', hbase, rfl, ?_, hposition,
        congrArg FlatArray.size hflat, _, ?_, hdata⟩
      · have hle := h.position_le.trans h.size_le
        have hlen := h.length_data
        rw [← h'.length_data, hdata, length_overwrite (by simp; omega), List.length_append, List.length_map,
          List.length_range, h.length_data]
        omega
      · simp

private theorem setPosition_use [Host] {b : ByteArray} (h : b.Valid) (p : Nat) :
    (∃ b', (Use.setPosition p).exec b = .ok [] b' ∧ b'.Valid ∧ b'.Synced ∧ b'.baseSize = b.baseSize ∧
        (Use.setPosition p).Meets b [] b') ∨
      (Use.setPosition p).exec b = .error (.throws .outOfRange) b ∧ (Use.setPosition p).Refused b .outOfRange := by
  by_cases hp : p ≤ b.capacity
  · exact .inl ⟨_, Op.bind_of_ok (setPosition_spec h hp), h.seek hp, rfl, rfl, rfl, hp, rfl, rfl, rfl, rfl⟩
  · have hlt : b.capacity < p := Nat.lt_of_not_le hp
    exact .inr ⟨Op.bind_of_error (setPosition_high hlt), hlt⟩

private theorem clear_use [Host] {b : ByteArray} (h : b.Valid) :
    ∃ b', Use.clear.exec b = .ok [] b' ∧ b'.Valid ∧ b'.Synced ∧ b'.baseSize = b.baseSize ∧ Use.clear.Meets b [] b' := by
  obtain ⟨root, rest, hnodes⟩ : ∃ root rest, b.nodes = root :: rest := List.exists_cons_of_length_pos h.nodes_pos
  have hblocks := h.blocks
  rw [hnodes] at hblocks
  have hroot : root.length = b.baseSize := (blocksOf_cons.1 hblocks).1
  refine ⟨_, rfl, ?_, ?_, rfl, rfl, rfl, rfl, rfl, ?_⟩
  · constructor
    case base_pos => exact h.base_pos
    case blocks => exact h.blocks.take 1
    case nodes_pos => simp [hnodes]
    case capacity_eq => simp [hnodes]
    case position_le => exact Nat.le_refl 0
    case size_le => exact Nat.zero_le _
    case fits =>
      have hle : b.baseSize ≤ b.capacity := by
        rw [h.capacity_eq]
        exact Nat.le_mul_of_pos_left _ h.nodes_pos
      exact hle.trans h.fits
  · simp [Synced, nodeAt, hnodes]
  · show (b.nodes.take 1).flatten = b.nodes.flatten.take b.baseSize
    have hone : (root :: rest).take 1 = [root] := rfl
    rw [hnodes, hone, List.flatten_cons, List.flatten_cons, List.flatten_nil, List.append_nil,
      List.take_append_of_le_length (Nat.le_of_eq hroot.symm), List.take_of_length_le (Nat.le_of_eq hroot)]

/-! ### Sequences of calls -/

private theorem exec_use [Host] {b : ByteArray} (h : b.Valid) (hsync : b.Synced) (u : Use) :
    (∃ out b', u.exec b = .ok out b' ∧ b'.Valid ∧ b'.Synced ∧ b'.baseSize = b.baseSize ∧ u.Meets b out b') ∨
      ∃ e, u.exec b = .error (.throws e) b ∧ u.Refused b e := by
  cases u with
  | write bytes => exact (write_use h hsync bytes).imp (fun hok => ⟨[], hok⟩) fun hbad => ⟨.badAlloc, hbad⟩
  | setPosition p => exact (setPosition_use h p).imp (fun hok => ⟨[], hok⟩) fun hbad => ⟨.outOfRange, hbad⟩
  | clear => exact .inl ⟨[], clear_use h⟩
  | toString => exact .inl ⟨b.unread, b, toString_spec h hsync, h, hsync, rfl, rfl, rfl⟩

private theorem history_run [Host] (uses : List Use) :
    ∀ b : ByteArray, b.Valid → b.Synced → History b uses := by
  induction uses with
  | nil =>
    intro b h hsync
    exact h.isFlat hsync
  | cons u us ih =>
    intro b h hsync
    refine ⟨h.isFlat hsync, ?_⟩
    rcases exec_use h hsync u with ⟨out, b', heq, h', hsync', hbase, hmeets⟩ | ⟨e, heq, hrefused⟩
    · exact .inl ⟨out, b', heq, hmeets, hbase, ih b' h' hsync'⟩
    · exact .inr ⟨e, heq, hrefused, ih b h hsync⟩

/-- Every sequence of such calls on a fresh array, for every size of its blocks, is a history of one flat array. -/
theorem history_of_uses [Host] {baseSize : Nat} (hpos : 0 < baseSize) {en : Endian} {b : ByteArray}
    (hnew : new baseSize en = .ok b) (uses : List Use) :
    b.baseSize = baseSize ∧ b.capacity = baseSize ∧ b.position = 0 ∧ b.size = 0 ∧ History b uses := by
  obtain ⟨h, hsync, hbase, -, hposition, hsize, hcapacity⟩ := new_valid hpos hnew
  exact ⟨hbase, hcapacity, hposition, hsize, history_run uses b h hsync⟩

section

attribute [local instance] Host.zeroed

/-- Eight bytes just fit two blocks of four, so that the cached block is null before the next write. -/
theorem history_of_uses_exact_fit :
    ∃ b : ByteArray, new 4 .big = .ok b ∧
      History b [.write [1, 2, 3, 4, 5, 6, 7, 8], .write [9], .setPosition 4, .toString, .clear] :=
  ⟨_, rfl, (history_of_uses (show 0 < 4 by decide) rfl _).2.2.2.2⟩

end

end ByteArray

end AcidCompute

import AcidCompute.ByteArray.Reachable

/-!
# Varints in the first block

What the varint writers store comes back from the matching readers (`ComesBack`), and what the readers make of any bytes
(`ReadsGroups`).  A varint is read byte by byte, so that it may end just where the first block ends.
-/

namespace AcidCompute

namespace ByteArray

variable {en : Endian}

/-! ### One write and one read inside the storage -/

/-- Bytes that the storage has room for are written. -/
theorem write_within [Host] {b : ByteArray} (hb : Ready en b) {bytes : List Byte}
    (hroom : b.position + bytes.length ≤ b.capacity) :
    ∃ b', write bytes bytes.length b = .ok () b' ∧ Written b bytes b' := by
  have hwrites : Writes en (write bytes bytes.length) bytes := Writes.write bytes
  rcases hwrites b hb with hok | ⟨-, b', heq⟩
  · exact hok
  · -- no block is added, so that there is memory enough
    exfalso
    have hle := hb.valid.fits
    have hbase := hb.valid.base_pos
    have hne : bytes ≠ [] := by
      rintro rfl
      cases heq
    rcases write_spec hb.valid (.inl hb.synced) hne with ⟨hbad, -⟩ | ⟨b₁, hok, -⟩
    · have hlen : (b.toFlat hb.valid).data.length = b.capacity := hb.valid.length_data
      have hposition : (b.toFlat hb.valid).position = b.position := rfl
      unfold FlatArray.growth at hbad
      rw [hlen, hposition] at hbad
      split at hbad
      · omega
      · have hzero : (bytes.length - (b.capacity - b.position) + b.baseSize - 1) / b.baseSize = 0 :=
          Nat.div_eq_of_lt (by omega)
        rw [hzero, Nat.zero_mul] at hbad
        omega
    · rw [hok] at heq
      cases heq

/-- The next byte, wherever the first block ends. -/
theorem readFixInt8_cons {b : ByteArray} (hb : Ready en b) {tmp : Byte} {rest : List Byte}
    (hu : b.unread = [tmp] ++ rest) (hpos : b.position < b.baseSize) :
    readFixInt8 b = .ok tmp (b.moveTo (b.position + 1)) := by
  have hend := position_le_of_unread hb.valid hu
  rw [List.length_singleton] at hend
  unfold readFixInt8
  rw [Op.bind_of_ok (read_spec hb.valid hb.synced hpos (n := 1) (by omega)), hu]
  rfl

/-- The bytes up to the position have been read. -/
theorem moveTo_moveTo (b : ByteArray) (p q : Nat) : (b.moveTo p).moveTo q = b.moveTo q := rfl

/-- With nothing left to read the reader throws where it is. -/
private theorem readVarUintLoop_nothing {w : Nat} (rounds shift : Nat) (result : BitVec w) {b : ByteArray}
    (hb : Ready en b) (hu : b.unread = []) :
    readVarUintLoop (rounds + 1) shift result b = .error (.throws .outOfRange) (b.moveTo b.size) := by
  have hlen := hb.valid.length_unread
  have hple := hb.valid.position_le
  rw [hu, List.length_nil] at hlen
  have hend : b.moveTo b.size = b := by
    rw [show b.size = b.position by omega]
    exact moveTo_position hb.synced
  rw [hend]
  exact Op.bind_of_error (Op.bind_of_error (read_short (by omega)))

/-- One round: a final group ends the number, and any other one goes into it. -/
private theorem readVarUintLoop_cons {w : Nat} (rounds : Nat) {shift acc : Nat} (hacc : acc < 2 ^ shift) {b : ByteArray}
    (hb : Ready en b) {tmp : Byte} {rest : List Byte} (hu : b.unread = [tmp] ++ rest) (hpos : b.position < b.baseSize) :
    readVarUintLoop (rounds + 1) shift (BitVec.ofNat w acc) b =
      if tmp.toNat < 0x80 then .ok (BitVec.ofNat w (acc + 2 ^ shift * tmp.toNat)) (b.moveTo (b.position + 1))
      else readVarUintLoop rounds (shift + 7) (BitVec.ofNat w (acc + 2 ^ shift * (tmp.toNat % 128)))
        (b.moveTo (b.position + 1)) := by
  have hbyte := readFixInt8_cons hb hu hpos
  rw [readVarUintLoop, Op.bind_of_ok hbyte]
  by_cases hlast : tmp.toNat < 0x80
  · rw [if_pos hlast, if_pos hlast, ofNat_or_shiftLeft hacc]
    rfl
  · rw [if_neg hlast, if_neg hlast, ofNat_or_group hacc]

/-- The reader looks at the groups in front, adds them up where one of them is final or enough have been seen, and
throws when the bytes run out before. -/
theorem readVarUintLoop_groups {w : Nat} (rounds shift acc : Nat) (hacc : acc < 2 ^ shift) {b : ByteArray}
    (hb : Ready en b) (hblock : b.position + (groups rounds b.unread).length ≤ b.baseSize) :
    (Finished rounds (groups rounds b.unread) →
        readVarUintLoop rounds shift (BitVec.ofNat w acc) b =
          .ok (BitVec.ofNat w (acc + 2 ^ shift * groupsValue (groups rounds b.unread)))
            (b.moveTo (b.position + (groups rounds b.unread).length))) ∧
      (¬ Finished rounds (groups rounds b.unread) →
        readVarUintLoop rounds shift (BitVec.ofNat w acc) b = .error (.throws .outOfRange) (b.moveTo b.size)) := by
  induction rounds generalizing shift acc b with
  | zero =>
    refine ⟨fun _ => ?_, fun hnot => absurd (.inl rfl) hnot⟩
    simp only [groups, groupsValue, List.length_nil, Nat.add_zero, Nat.mul_zero]
    rw [moveTo_position hb.synced]
    rfl
  | succ rounds ih =>
    cases hu : b.unread with
    | nil =>
      refine ⟨fun hfinished => ?_, fun _ => readVarUintLoop_nothing rounds shift _ hb hu⟩
      rcases hfinished with hcount | ⟨tmp, htmp, -⟩
      · cases hcount
      · cases htmp
    | cons tmp rest =>
      have hu' : b.unread = [tmp] ++ rest := hu
      rw [hu] at hblock
      have hsome := length_groups_pos rounds tmp rest
      rw [readVarUintLoop_cons rounds hacc hb hu' (by omega)]
      rw [groups] at hblock ⊢
      by_cases hlast : tmp.toNat < 0x80
      · simp only [hlast, if_true] at hblock ⊢
        refine ⟨fun _ => ?_, fun hnot => absurd (.inr ⟨tmp, List.mem_singleton_self tmp, hlast⟩) hnot⟩
        rw [groupsValue_last hlast]
        rfl
      · simp only [hlast, if_false] at hblock ⊢
        rw [List.length_cons] at hblock
        have hunread : (b.moveTo (b.position + 1)).unread = rest := unread_moveTo hu'
        have hready : Ready en (b.moveTo (b.position + 1)) := hb.moveTo (position_le_of_unread hb.valid hu')
        have hrest := ih (shift + 7) (acc + 2 ^ shift * (tmp.toNat % 128)) (add_group_lt hacc _) hready (by
          rw [hunread]
          show b.position + 1 + (groups rounds rest).length ≤ b.baseSize
          omega)
        rw [hunread] at hrest
        have hposition : b.position + 1 + (groups rounds rest).length =
            b.position + ((groups rounds rest).length + 1) := by omega
        rw [finished_cons hlast, List.length_cons]
        refine ⟨fun hfinished => ?_, fun hnot => hrest.2 hnot⟩
        rw [hrest.1 hfinished, moveTo_moveTo, add_groupsValue]
        show EStateM.Result.ok _ (b.moveTo (b.position + 1 + _)) = _
        rw [hposition]

/-! ### What comes back -/

/-- The writer stores at most `most` bytes, and from where they start the reader returns the value and takes just
these. -/
def ComesBack [Host] {α : Type} (b : ByteArray) (most : Nat) (put : Op ByteArray Unit) (get : Op ByteArray α) (v : α) :
    Prop :=
  ∃ b₁ b₂, put b = .ok () b₁ ∧ b₁.position ≤ b.position + most ∧
    (do setPosition b.position; get) b₁ = .ok v b₂ ∧ b₂.position = b₁.position

/-- Of the unread bytes the readers take the groups in front, at most `most`, and return their value modulo the width,
decoded if it is signed; they throw when the bytes run out before a final group. -/
structure ReadsGroups (b : ByteArray) (w most : Nat) : Prop where
  at_most : (groups most b.unread).length ≤ most
  in_front : ∃ rest, b.unread = groups most b.unread ++ rest
  finished : Finished most (groups most b.unread) →
    readVarUint w b = .ok (BitVec.ofNat w (groupsValue (groups most b.unread)))
        (b.moveTo (b.position + (groups most b.unread).length)) ∧
      readVarInt w b = .ok (decodeZigzag (BitVec.ofNat w (groupsValue (groups most b.unread))))
        (b.moveTo (b.position + (groups most b.unread).length))
  not_finished : ¬ Finished most (groups most b.unread) →
    groups most b.unread = b.unread ∧ Op.exec (readVarUint w) b = .error (.throws .outOfRange) ∧
      Op.exec (readVarInt w) b = .error (.throws .outOfRange)

/-- What holds of the writers and readers of `w` bits, whose varints have at most `most` bytes. -/
structure Varints [Host] (b : ByteArray) (w most : Nat) : Prop where
  unsigned : ∀ v : BitVec w, b.position + (varint v).length ≤ b.baseSize →
    ComesBack b most (writeVarUint v) (readVarUint w) v
  signed : ∀ v : BitVec w, b.position + (varint (encodeZigzag v)).length ≤ b.baseSize →
    ComesBack b most (writeVarInt v) (readVarInt w) v
  any : b.position + (groups most b.unread).length ≤ b.baseSize → ReadsGroups b w most

/-- Both numbers fit into what the reader takes. -/
private theorem readVarUint_written {w m : Nat} (hw : 8 ≤ w) (hm : w ≤ m) (v : BitVec w) {b : ByteArray}
    (hb : Ready en b) {rest : List Byte} (hu : b.unread = varint v ++ rest)
    (hblock : b.position + (varint v).length ≤ b.baseSize) :
    readVarUint m b = .ok (v.setWidth m) (b.moveTo (b.position + (varint v).length)) := by
  have hlen : (varint v).length ≤ (m + 6) / 7 := by
    have hle := length_varint_le ((w + 6) / 7 - 1) (by omega) v
    omega
  obtain ⟨hgroups, hvalue, hfinished⟩ := groups_varint hw v hlen rest
  rw [← hu] at hgroups
  have hread := (readVarUintLoop_groups (w := m) ((m + 6) / 7) 0 0 Nat.one_pos hb (by rw [hgroups]; exact hblock)).1
    (by rw [hgroups]; exact hfinished)
  have hword : BitVec.ofNat m v.toNat = v.setWidth m := BitVec.eq_of_toNat_eq (by simp)
  rw [hgroups, hvalue, Nat.zero_add, Nat.pow_zero, Nat.one_mul, hword] at hread
  exact hread

private theorem comesBack_of_read [Host] {α : Type} {b : ByteArray} (hb : Ready en b) (bs : List Byte) {most : Nat}
    {put : Op ByteArray Unit} {get : Op ByteArray α} {v : α} (hput : put = write bs bs.length) (hlen : bs.length ≤ most)
    (hblock : b.position + bs.length ≤ b.baseSize)
    (hget : ∀ b' : ByteArray, Ready en b' → b'.position + bs.length ≤ b'.baseSize → (∃ rest, b'.unread = bs ++ rest) →
      get b' = .ok v (b'.moveTo (b'.position + bs.length))) : ComesBack b most put get v := by
  have hbase : b.baseSize ≤ b.capacity := by
    rw [hb.valid.capacity_eq]
    exact Nat.le_mul_of_pos_left _ hb.valid.nodes_pos
  have hroom : b.position + bs.length ≤ b.capacity := by omega
  obtain ⟨b₁, heq, h₁⟩ := write_within hb hroom
  have hposition := h₁.position_eq
  have hple := h₁.valid.position_le
  have hseek := setPosition_spec h₁.valid (p := b.position) (by have := h₁.valid.size_le; omega)
  rw [Nat.max_eq_left (by omega)] at hseek
  have hunread : (b₁.moveTo b.position).unread = bs ++ b.content.drop (b.position + bs.length) := by
    have hle := hb.valid.position_le
    rw [← hb.valid.length_content] at hle
    show b₁.content.drop b.position = _
    rw [h₁.content_eq, overwrite, List.append_assoc, List.drop_append_of_le_length (by rw [List.length_take]; omega),
      List.drop_of_length_le (by rw [List.length_take]; omega), List.nil_append]
  have hread := hget (b₁.moveTo b.position) ((h₁.ready hb).moveTo (by omega))
    (by show b.position + bs.length ≤ b₁.baseSize; rw [h₁.base_eq]; exact hblock) ⟨_, hunread⟩
  refine ⟨b₁, b₁.moveTo (b.position + bs.length), ?_, by omega, ?_, hposition.symm⟩
  · rw [hput]
    exact heq
  · exact (Op.bind_of_ok hseek).trans hread

private theorem comesBack_unsigned [Host] {w most : Nat} (hw : 8 ≤ w) (hmost : w ≤ 7 * most) (hpos : 0 < most)
    {b : ByteArray} (hb : Ready en b) (v : BitVec w) (hblock : b.position + (varint v).length ≤ b.baseSize) :
    ComesBack b most (writeVarUint v) (readVarUint w) v := by
  have hlen : (varint v).length ≤ most := by
    have hle := length_varint_le (most - 1) (by omega) v
    omega
  refine comesBack_of_read hb (varint v) rfl hlen hblock fun b' hb' hblock' ⟨rest, hu⟩ => ?_
  have hread := readVarUint_written hw (Nat.le_refl w) v hb' hu hblock'
  rwa [BitVec.setWidth_eq] at hread

/-- A signed number of `w` bits that is read as one of `m` bits keeps its sign. -/
private theorem comesBack_signed [Host] {w m most : Nat} (hw : 8 ≤ w) (hm : w ≤ m) (hmost : w ≤ 7 * most)
    (hpos : 0 < most) {b : ByteArray} (hb : Ready en b) (v : BitVec w)
    (hblock : b.position + (varint (encodeZigzag v)).length ≤ b.baseSize) :
    ComesBack b most (writeVarInt v) (readVarInt m) (v.signExtend m) := by
  have hlen : (varint (encodeZigzag v)).length ≤ most := by
    have hle := length_varint_le (most - 1) (by omega) (encodeZigzag v)
    omega
  refine comesBack_of_read hb (varint (encodeZigzag v)) rfl hlen hblock fun b' hb' hblock' ⟨rest, hu⟩ => ?_
  have hread := readVarUint_written hw hm (encodeZigzag v) hb' hu hblock'
  unfold readVarInt
  rw [Op.bind_of_ok hread, decodeZigzag_setWidth_encodeZigzag v (by omega) hm]
  rfl

private theorem readsGroups_of_ready {w most : Nat} (hmost : (w + 6) / 7 = most) {b : ByteArray} (hb : Ready en b)
    (hblock : b.position + (groups most b.unread).length ≤ b.baseSize) : ReadsGroups b w most := by
  subst hmost
  obtain ⟨hok, hthrows⟩ := readVarUintLoop_groups (w := w) ((w + 6) / 7) 0 0 Nat.one_pos hb hblock
  rw [Nat.zero_add, Nat.pow_zero, Nat.one_mul] at hok
  constructor
  case at_most => exact length_groups_le _ _
  case in_front => exact groups_append _ _
  case finished =>
    intro hfinished
    exact ⟨hok hfinished, (Op.bind_of_ok (hok hfinished)).trans rfl⟩
  case not_finished =>
    intro hnot
    exact ⟨groups_eq_self hnot, Op.exec_of_error (hthrows hnot), Op.exec_of_error (Op.bind_of_error (hthrows hnot))⟩

/-- With nothing left to read, wherever the position is. -/
private theorem readsGroups_nothing {w most : Nat} (hmost : (w + 6) / 7 = most) (hpos : 0 < most) {b : ByteArray}
    (h : b.Valid) (hu : b.unread = []) : ReadsGroups b w most := by
  obtain ⟨rounds, rfl⟩ : ∃ rounds, most = rounds + 1 := ⟨most - 1, by omega⟩
  have hlen := h.length_unread
  rw [hu, List.length_nil] at hlen
  have hnone : groups (rounds + 1) b.unread = [] := by
    rw [hu]
    rfl
  have hthrows : readVarUint w b = .error (.throws .outOfRange) b := by
    unfold readVarUint
    rw [hmost]
    exact Op.bind_of_error (Op.bind_of_error (read_short (by omega)))
  constructor
  case at_most => exact length_groups_le _ _
  case in_front => exact groups_append _ _
  case finished =>
    rw [hnone]
    rintro (hcount | ⟨tmp, htmp, -⟩)
    · cases hcount
    · cases htmp
  case not_finished =>
    intro _
    exact ⟨hnone.trans hu.symm, Op.exec_of_error hthrows, Op.exec_of_error (Op.bind_of_error hthrows)⟩

/-- Bytes of a varint that lie in the first block start there. -/
private theorem position_lt_of_varint {w : Nat} {b : ByteArray} {v : BitVec w}
    (h : b.position + (varint v).length ≤ b.baseSize) : b.position < b.baseSize := by
  have hlen := List.length_pos_iff.2 (varint_ne_nil v)
  omega

private theorem varints_of_sound [Host] {w most : Nat} (hw : 8 ≤ w) (hmost : (w + 6) / 7 = most) {b : ByteArray}
    (h : b.Sound) : Varints b w most where
  unsigned v hblock :=
    comesBack_unsigned hw (by omega) (by omega) (h.ready (position_lt_of_varint hblock)) v hblock
  signed v hblock := by
    have hback := comesBack_signed hw (Nat.le_refl w) (by omega) (by omega : 0 < most)
      (h.ready (position_lt_of_varint hblock)) v hblock
    rwa [BitVec.signExtend_eq] at hback
  any hblock := by
    by_cases hpos : b.position < b.baseSize
    · exact readsGroups_of_ready hmost (h.ready hpos) hblock
    · refine readsGroups_nothing hmost (by omega) h.valid ?_
      obtain ⟨rounds, rfl⟩ : ∃ rounds, most = rounds + 1 := ⟨most - 1, by omega⟩
      cases hu : b.unread with
      | nil => rfl
      | cons tmp rest =>
        -- a byte that is looked at lies behind the first block
        rw [hu] at hblock
        have hsome := length_groups_pos rounds tmp rest
        omega

/-- In every reachable state: numbers of 32 and of 64 bits come back from at most 5 and 10 bytes, a signed number of 32
bits also from the reader for 64, and of any bytes the readers take the groups in front, as long as what is written and
read lies in the first block. -/
theorem varints_of_reachable [Host] {b : ByteArray} (h : Reachable b) :
    Varints b 32 5 ∧ Varints b 64 10 ∧
      ∀ v : BitVec 32, b.position + (varint (encodeZigzag v)).length ≤ b.baseSize →
        ComesBack b 5 (writeVarInt v) (readVarInt 64) (v.signExtend 64) := by
  have hsound := h.sound
  refine ⟨varints_of_sound (by decide) rfl hsound, varints_of_sound (by decide) rfl hsound, fun v hblock => ?_⟩
  exact comesBack_signed (by decide) (by decide) (by decide) (by decide) (hsound.ready (position_lt_of_varint hblock)) v
    hblock

section

attribute [local instance] Host.zeroed

/-- The number -1 of 32 bits in a fresh array of one byte, which is its whole first block. -/
theorem varints_of_reachable_minusOne :
    ∃ b, Reachable b ∧ b.baseSize = 1 ∧ ComesBack b 5 (writeVarInt (-1#32)) (readVarInt 64) (-1#64) := by
  have hreach : Reachable ⟨1, 0, 1, 0, .big, [[0]], some 0⟩ :=
    reachable_of_stateAfter 1 (by decide) .big [] (by decide)
  exact ⟨_, hreach, rfl, (varints_of_reachable hreach).2.2 (-1#32) (by decide)⟩

end

end ByteArray

end AcidCompute

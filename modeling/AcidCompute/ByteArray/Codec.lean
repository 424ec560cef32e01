import AcidCompute.ByteArray.Refine

/-!
# Numbers and strings in a byte array

The typed writers and readers of `byte_array.{h,cpp}`.  A writer is described by the bytes it writes (`Writes`), a
reader by the bytes it consumes and the value it makes of them (`Reads`); both compose along `>>=`, so the format of a
message is the concatenation of the formats of its fields.
-/

namespace AcidCompute

namespace ByteArray

/-! ### What a writer writes -/

/-- A sound array with its current block in step with the position, for numbers in the order `en`. -/
structure Ready (en : Endian) (b : ByteArray) : Prop where
  valid : b.Valid
  synced : b.Synced
  endian_eq : b.endian = en

/-- The storage holds `n` more bytes at the position, or can be extended to. -/
def Fits (b : ByteArray) (n : Nat) : Prop :=
  b.position + n < b.capacity ∨ b.position + n + b.baseSize ≤ addressSpace

/-- `b'` is `b` with the bytes `bs` written over what is at its position. -/
structure Written (b : ByteArray) (bs : List Byte) (b' : ByteArray) : Prop where
  valid : b'.Valid
  synced : b'.Synced
  endian_eq : b'.endian = b.endian
  base_eq : b'.baseSize = b.baseSize
  position_eq : b'.position = b.position + bs.length
  content_eq : b'.content = overwrite b.content b.position bs
  capacity_le : b.capacity ≤ b'.capacity

/-- In an array with byte order `en` the call writes `bs` at the position, unless there is no memory for them. -/
def Writes (en : Endian) (m : Op ByteArray Unit) (bs : List Byte) : Prop :=
  ∀ b : ByteArray, Ready en b →
    (∃ b', m b = .ok () b' ∧ Written b bs b') ∨ (¬ b.Fits bs.length ∧ ∃ b', m b = .error (.throws .badAlloc) b')

variable {en : Endian}

theorem Written.ready {b b' : ByteArray} {bs : List Byte} (hb : Ready en b) (h : Written b bs b') :
    Ready en b' := ⟨h.valid, h.synced, h.endian_eq.trans hb.endian_eq⟩

/-- Bytes written at the end are appended. -/
theorem Written.at_end {b b' : ByteArray} {bs : List Byte} (hb : b.Valid) (hend : b.position = b.size)
    (h : Written b bs b') :
    b'.content = b.content ++ bs ∧ b'.size = b.size + bs.length ∧ b'.position = b'.size := by
  have hcontent : b'.content = b.content ++ bs := by
    rw [h.content_eq, hend, ← hb.length_content, overwrite_at_end]
  have hsize : b'.size = b.size + bs.length := by
    rw [← h.valid.length_content, hcontent, List.length_append, hb.length_content]
  exact ⟨hcontent, hsize, by rw [h.position_eq, hsize, hend]⟩

theorem Written.trans {b b₁ b₂ : ByteArray} {bs cs : List Byte} (hb : b.Valid) (h₁ : Written b bs b₁)
    (h₂ : Written b₁ cs b₂) : Written b (bs ++ cs) b₂ where
  valid := h₂.valid
  synced := h₂.synced
  endian_eq := h₂.endian_eq.trans h₁.endian_eq
  base_eq := h₂.base_eq.trans h₁.base_eq
  position_eq := by rw [h₂.position_eq, h₁.position_eq, List.length_append, Nat.add_assoc]
  content_eq := by
    have hle := hb.position_le
    rw [← hb.length_content] at hle
    rw [h₂.content_eq, h₁.content_eq, h₁.position_eq, overwrite_overwrite hle]
  capacity_le := h₁.capacity_le.trans h₂.capacity_le

theorem Fits.mono {b : ByteArray} {m n : Nat} (h : b.Fits n) (hmn : m ≤ n) : b.Fits m := by
  unfold Fits at *; omega

/-- What is left to write still fits after a part has been written. -/
theorem Written.fits {b b' : ByteArray} {bs : List Byte} {n : Nat} (h : Written b bs b')
    (hfits : b.Fits (bs.length + n)) : b'.Fits n := by
  have hcap := h.capacity_le
  have hbase := h.base_eq
  have hpos := h.position_eq
  unfold Fits at *
  omega

theorem Writes.nil : Writes en (pure ()) [] := by
  intro b hb
  exact .inl ⟨b, rfl, hb.valid, hb.synced, rfl, rfl, rfl, (overwrite_nil _ _).symm, Nat.le_refl _⟩

theorem Writes.bind {m m' : Op ByteArray Unit} {bs cs : List Byte} (h : Writes en m bs)
    (h' : Writes en m' cs) : Writes en (m >>= fun _ => m') (bs ++ cs) := by
  intro b hb
  rcases h b hb with ⟨b₁, heq, h₁⟩ | ⟨hfull, b₁, heq⟩
  · rcases h' b₁ (h₁.ready hb) with ⟨b₂, heq₂, h₂⟩ | ⟨hfull, b₂, heq₂⟩
    · exact .inl ⟨b₂, by rw [Op.bind_of_ok heq, heq₂], h₁.trans hb.valid h₂⟩
    · refine .inr ⟨fun hfits => hfull ?_, b₂, by rw [Op.bind_of_ok heq, heq₂]⟩
      rw [List.length_append] at hfits
      exact h₁.fits hfits
  · exact .inr ⟨fun hfits => hfull (hfits.mono (by simp)), b₁, Op.bind_of_error heq⟩

/-- Whole blocks never add more than a block to what is needed. -/
private theorem growth_of_fits {b : ByteArray} (h : b.Valid) {n : Nat} (hfits : b.Fits n) :
    b.capacity + (b.toFlat h).growth b.baseSize n ≤ addressSpace := by
  have hlen : (b.toFlat h).data.length = b.capacity := h.length_data
  have hbpos := h.base_pos
  have hple := h.position_le
  have hsize := h.size_le
  have hcap := h.fits
  have hgrowth : (b.toFlat h).growth b.baseSize n =
      if n < b.capacity - b.position then 0
      else (n - (b.capacity - b.position) + b.baseSize - 1) / b.baseSize * b.baseSize := by
    simp only [FlatArray.growth, hlen]
    rfl
  rw [hgrowth]
  unfold Fits at hfits
  split
  · exact hcap
  · have hround := Nat.div_mul_le_self (n - (b.capacity - b.position) + b.baseSize - 1) b.baseSize
    omega

/-- The raw bytes themselves. -/
theorem Writes.write [Host] (bs : List Byte) : Writes en (write bs bs.length) bs := by
  intro b hb
  by_cases hne : bs = []
  · subst hne
    exact Writes.nil b hb
  · rcases write_spec hb.valid (.inl hb.synced) hne with ⟨hbig, heq⟩ | ⟨b', heq, hsync, hbase, hend, h', hflat⟩
    · refine .inr ⟨fun hfits => ?_, b, heq⟩
      have hgrowth := growth_of_fits hb.valid hfits
      omega
    · refine .inl ⟨b', heq, h', hsync, hend, hbase, ?_, ?_, ?_⟩
      · have hposition := congrArg FlatArray.position hflat
        simpa [FlatArray.write, List.isEmpty_iff, hne, FlatArray.put, FlatArray.grow, toFlat] using hposition
      · rw [← content_toFlat h', hflat, FlatArray.content_write _ _ hne, content_toFlat]
        rfl
      · rw [← hb.valid.length_data, ← h'.length_data]
        show (b.toFlat hb.valid).data.length ≤ (b'.toFlat h').data.length
        rw [hflat]
        exact FlatArray.length_le_write _ _ _ _

/-! ### What a reader consumes -/

/-- In front of the bytes `bs` the call returns `a` and moves behind them, as long as they end inside the first
block. -/
def Reads {α : Type} (en : Endian) (m : Op ByteArray α) (bs : List Byte) (a : α) : Prop :=
  ∀ (b : ByteArray) (rest : List Byte), Ready en b → b.position + bs.length < b.baseSize →
    b.unread = bs ++ rest → m b = .ok a (b.moveTo (b.position + bs.length))

section Reads

variable {α β : Type} {bs cs rest : List Byte}

theorem moveTo_position {b : ByteArray} (h : b.Synced) : b.moveTo b.position = b := by
  cases b
  simp only [Synced, moveTo, nodeAt] at *
  rw [h]

theorem position_le_of_unread {b : ByteArray} (h : b.Valid) (hu : b.unread = bs ++ rest) :
    b.position + bs.length ≤ b.size := by
  have hlen := h.length_unread
  have hple := h.position_le
  rw [hu, List.length_append] at hlen
  omega

theorem unread_moveTo {b : ByteArray} (hu : b.unread = bs ++ rest) :
    (b.moveTo (b.position + bs.length)).unread = rest := by
  show b.content.drop (b.position + bs.length) = rest
  rw [← List.drop_drop]
  show b.unread.drop bs.length = rest
  rw [hu, List.drop_left]

theorem Ready.moveTo {b : ByteArray} (h : Ready en b) {p : Nat} (hp : p ≤ b.size) : Ready en (b.moveTo p) :=
  ⟨h.valid.moveTo hp, synced_moveTo b p, h.endian_eq⟩

theorem Reads.nil (a : α) : Reads en (pure a) [] a := by
  intro b rest hb _ _
  rw [List.length_nil, Nat.add_zero, moveTo_position hb.synced]
  rfl

theorem Reads.bind {m : Op ByteArray α} {f : α → Op ByteArray β} {a : α} {c : β} (h : Reads en m bs a)
    (h' : Reads en (f a) cs c) : Reads en (m >>= f) (bs ++ cs) c := by
  intro b rest hb hroom hu
  rw [List.append_assoc] at hu
  rw [List.length_append] at hroom ⊢
  have hb₁ := hb.moveTo (position_le_of_unread hb.valid hu)
  rw [Op.bind_of_ok (h b _ hb (by omega) hu)]
  have hrest := h' _ rest hb₁ (by show b.position + bs.length + cs.length < b.baseSize; omega) (unread_moveTo hu)
  rw [hrest]
  show EStateM.Result.ok c (b.moveTo (b.position + bs.length + cs.length)) = _
  rw [Nat.add_assoc]

theorem Reads.map {m : Op ByteArray α} {a : α} (f : α → β) (h : Reads en m bs a) :
    Reads en (m >>= fun x => pure (f x)) bs (f a) := by
  have hbind := Reads.bind (f := fun x => pure (f x)) h (Reads.nil (f a))
  rwa [List.append_nil] at hbind

/-- Bytes that are to be read fit into memory. -/
theorem Reads.of_fits {m : Op ByteArray α} {a : α} (h : bs.length < addressSpace → Reads en m bs a) :
    Reads en m bs a := by
  intro b rest hb hroom hu
  have hfits := hb.valid.fits
  have hbase : b.baseSize ≤ b.capacity := by
    rw [hb.valid.capacity_eq]; exact Nat.le_mul_of_pos_left _ hb.valid.nodes_pos
  exact h (by omega) b rest hb hroom hu

theorem Reads.read (bs : List Byte) : Reads en (read bs.length) bs bs := by
  intro b rest hb hroom hu
  have hle := position_le_of_unread hb.valid hu
  rw [read_spec hb.valid hb.synced (by omega) (by omega), hu, List.take_left]

end Reads

/-! ### Arrays that are filled and then read -/

/-- The array holds exactly the bytes `bs`, with the position at the start. -/
structure Holds (en : Endian) (baseSize : Nat) (bs : List Byte) (b : ByteArray) : Prop where
  ready : Ready en b
  base_eq : b.baseSize = baseSize
  position_eq : b.position = 0
  content_eq : b.content = bs

theorem Holds.unread_eq {baseSize : Nat} {bs : List Byte} {b : ByteArray} (h : Holds en baseSize bs b) :
    b.unread = bs := by
  rw [unread, h.content_eq, h.position_eq, List.drop_zero]

theorem Holds.size_eq {baseSize : Nat} {bs : List Byte} {b : ByteArray} (h : Holds en baseSize bs b) :
    b.size = bs.length := by
  rw [← h.ready.valid.length_content, h.content_eq]

/-- What has been written to an empty array is held once the position is back at the start. -/
theorem Holds.rewind {baseSize : Nat} {bs : List Byte} {b b₁ : ByteArray} (hb : Holds en baseSize [] b)
    (h : Written b bs b₁) : Holds en baseSize bs (b₁.moveTo 0) := by
  obtain ⟨hcontent, -⟩ := h.at_end hb.ready.valid (hb.position_eq.trans hb.size_eq.symm)
  rw [hb.content_eq, List.nil_append] at hcontent
  exact ⟨(h.ready hb.ready).moveTo (Nat.zero_le _), h.base_eq.trans hb.base_eq, rfl, hcontent⟩

/-- There is room for less than a block in an empty array. -/
theorem Holds.fits_of_lt {baseSize n : Nat} {b : ByteArray} (hb : Holds en baseSize [] b) (hn : n < baseSize) :
    b.Fits n := by
  have hle : b.baseSize ≤ b.capacity := by
    rw [hb.ready.valid.capacity_eq]
    exact Nat.le_mul_of_pos_left _ hb.ready.valid.nodes_pos
  have hbase := hb.base_eq
  have hposition := hb.position_eq
  exact .inl (by omega)

/-- An empty array that is written to and rewound. -/
theorem Holds.write_rewind {baseSize : Nat} {m : Op ByteArray Unit} {bs : List Byte} {b : ByteArray}
    (hb : Holds en baseSize [] b) (hm : Writes en m bs) (hfits : bs.length + baseSize ≤ addressSpace) :
    ∃ b', (m >>= fun _ => setPosition 0) b = .ok () b' ∧ Holds en baseSize bs b' := by
  have hposition := hb.position_eq
  have hbase := hb.base_eq
  rcases hm b hb.ready with ⟨b₁, heq, h₁⟩ | ⟨hfull, -⟩
  · exact ⟨b₁.moveTo 0, (Op.bind_of_ok heq).trans (setPosition_zero h₁.valid), hb.rewind h₁⟩
  · exact absurd (.inr (by omega)) hfull

/-- A fresh array holds nothing. -/
theorem holds_of_new [Host] {baseSize : Nat} (hpos : 0 < baseSize) {b : ByteArray} (hnew : new baseSize en = .ok b) :
    Holds en baseSize [] b := by
  obtain ⟨hvalid, hsync, hbase, hend, hposition, hsize, -⟩ := new_valid hpos hnew
  refine ⟨⟨hvalid, hsync, hend⟩, hbase, hposition, ?_⟩
  rw [content, hsize]
  rfl

theorem new_holds [Host] {baseSize : Nat} (hpos : 0 < baseSize) (hfits : baseSize ≤ addressSpace) :
    ∃ b, new baseSize en = .ok b ∧ Holds en baseSize [] b := by
  obtain ⟨b, hnew⟩ : ∃ b, new baseSize en = .ok b := ⟨_, if_neg (by omega)⟩
  exact ⟨b, hnew, holds_of_new hpos hnew⟩

/-- A fresh array that is written to and rewound. -/
theorem exec_new [Host] {baseSize : Nat} {m : Op ByteArray Unit} {bs : List Byte} (hpos : 0 < baseSize)
    (hm : Writes en m bs) (hfits : bs.length + baseSize ≤ addressSpace) :
    ∃ b b', new baseSize en = .ok b ∧ Op.exec (m >>= fun _ => setPosition 0) b = .ok ((), b') ∧
      Holds en baseSize bs b' := by
  obtain ⟨b, hnew, hb⟩ : ∃ b, new baseSize en = .ok b ∧ Holds en baseSize [] b := new_holds hpos (by omega)
  obtain ⟨b', heq, hb'⟩ := hb.write_rewind hm hfits
  exact ⟨b, b', hnew, Op.exec_of_ok heq, hb'⟩

theorem clear_spec {b : ByteArray} (hb : Ready en b) : ∃ b', clear b = .ok () b' ∧ Holds en b.baseSize [] b' := by
  have hnodes := hb.valid.nodes_pos
  have hcount : (b.nodes.take 1).length = 1 := by rw [List.length_take]; omega
  refine ⟨_, rfl, ⟨⟨hb.valid.base_pos, fun node hnode => hb.valid.blocks node (List.mem_of_mem_take hnode),
    by rw [hcount]; exact Nat.one_pos, by rw [hcount, Nat.one_mul], Nat.le_refl _, Nat.zero_le _, ?_⟩, ?_,
    hb.endian_eq⟩, rfl, rfl, rfl⟩
  · have hcap := hb.valid.capacity_eq
    have hle : b.baseSize ≤ b.capacity := by
      rw [hcap]
      exact Nat.le_mul_of_pos_left _ hnodes
    exact hle.trans hb.valid.fits
  · show b.nodeAt 0 = nodeAt _ (0 / b.baseSize)
    rw [Nat.zero_div, nodeAt, nodeAt, if_pos hnodes, if_pos (by rw [hcount]; exact Nat.one_pos)]

/-! ### Numbers -/

/-- `write_fix_int<T>(value)` for a number of `n` bytes, swapped when the array's order is not the host's. -/
def writeFixInt [Host] {n : Nat} (value : BitVec (8 * n)) : Op ByteArray Unit := do
  let b ← get
  let value := if b.endian ≠ Host.native then byteSwap value else value
  write (memory Host.native value) (memory Host.native value).length

/-- `read_fix_int*` for a number of `n` bytes. -/
def readFixInt [Host] (n : Nat) : Op ByteArray (BitVec (8 * n)) := do
  let bytes ← read n
  let b ← get
  let v := ofMemory Host.native n bytes
  return if b.endian = Host.native then v else byteSwap v

/-- `write_fix_int8`, `write_fix_uint8` -/
def writeFixInt8 [Host] (value : BitVec 8) : Op ByteArray Unit := write [value] 1

/-- `read_fix_int8`, `read_fix_uint8` -/
def readFixInt8 : Op ByteArray (BitVec 8) := do
  let bytes ← read 1
  return bytes.headD 0

/-- `write_var_uint32`, `write_var_uint64` -/
def writeVarUint [Host] {w : Nat} (value : BitVec w) : Op ByteArray Unit :=
  write (varint value) (varint value).length

/-- `write_var_int32`, `write_var_int64` -/
def writeVarInt [Host] {w : Nat} (value : BitVec w) : Op ByteArray Unit := writeVarUint (encodeZigzag value)

/-- The loop `for (i = shift; i < w; i += 7)` of `read_var_uint32` and `read_var_uint64`. -/
def readVarUintLoop {w : Nat} : Nat → Nat → BitVec w → Op ByteArray (BitVec w)
  | 0, _, result => return result
  | rounds + 1, shift, result => do
    let tmp ← readFixInt8
    if tmp.toNat < 0x80 then return result ||| (tmp.setWidth w <<< shift)
    else readVarUintLoop rounds (shift + 7) (result ||| ((tmp &&& 0x7f#8).setWidth w <<< shift))

/-- `read_var_uint32`, `read_var_uint64` -/
def readVarUint (w : Nat) : Op ByteArray (BitVec w) := readVarUintLoop ((w + 6) / 7) 0 0#w

/-- `read_var_int32`, `read_var_int64` -/
def readVarInt (w : Nat) : Op ByteArray (BitVec w) := do
  let v ← readVarUint w
  return decodeZigzag v

/-- `write_float`; the value is its bit pattern. -/
def writeFloat [Host] (value : BitVec 32) : Op ByteArray Unit := writeFixInt (n := 4) value

/-- `write_double`; the value is its bit pattern. -/
def writeDouble [Host] (value : BitVec 64) : Op ByteArray Unit := writeFixInt (n := 8) value

/-- `read_float` -/
def readFloat [Host] : Op ByteArray (BitVec 32) := readFixInt 4

/-- `read_double` -/
def readDouble [Host] : Op ByteArray (BitVec 64) := readFixInt 8

theorem writes_fixInt [Host] {n : Nat} (v : BitVec (8 * n)) :
    Writes en (writeFixInt v) (memory en v) := by
  intro b hb
  have hbytes : memory Host.native (if b.endian ≠ Host.native then byteSwap v else v) = memory en v := by
    rw [hb.endian_eq]
    split
    · rename_i hne; exact memory_byteSwap (Ne.symm hne) v
    · rename_i heq; rw [not_not.1 heq]
  have heq : writeFixInt v b = write (memory en v) (memory en v).length b := by rw [← hbytes]; rfl
  rw [heq]
  exact Writes.write _ b hb

theorem reads_readFixInt [Host] {n : Nat} (v : BitVec (8 * n)) : Reads en (readFixInt n) (memory en v) v := by
  intro b rest hb hroom hu
  have hread := Reads.read (memory en v) b rest hb hroom hu
  rw [length_memory] at hread ⊢
  unfold readFixInt
  rw [Op.bind_of_ok hread, Op.get_bind_apply]
  show EStateM.Result.ok (if b.endian = Host.native then _ else _) _ = _
  rw [hb.endian_eq]
  split
  · rename_i heq; rw [← heq, ofMemory_memory]
  · rename_i hne; rw [byteSwap_ofMemory (Ne.symm hne)]

theorem writes_fixInt8 [Host] (v : BitVec 8) : Writes en (writeFixInt8 v) [v] := Writes.write [v]

theorem reads_readFixInt8 (v : BitVec 8) : Reads en readFixInt8 [v] v :=
  (Reads.read [v]).map fun bytes => bytes.headD 0

theorem writes_varUint [Host] {w : Nat} (v : BitVec w) : Writes en (writeVarUint v) (varint v) :=
  Writes.write _

theorem writes_varInt [Host] {w : Nat} (v : BitVec w) :
    Writes en (writeVarInt v) (varint (encodeZigzag v)) := Writes.write _

/-- The loop computes what `decodeVarint` does of the bytes it finds. -/
private theorem reads_readVarUintLoop {w : Nat} (rounds : Nat) :
    ∀ (shift : Nat) (result v : BitVec w) (bs rest : List Byte),
      decodeVarint rounds shift result (bs ++ rest) = some (v, rest) →
      Reads en (readVarUintLoop rounds shift result) bs v := by
  induction rounds with
  | zero =>
    intro shift result v bs rest hdec
    obtain ⟨rfl, hnil⟩ : result = v ∧ bs ++ rest = rest := by simpa [decodeVarint] using hdec
    rw [List.append_left_eq_self.1 hnil]
    exact Reads.nil result
  | succ rounds ih =>
    intro shift result v bs rest hdec
    cases bs with
    | nil =>
      have := length_decodeVarint_lt (Nat.succ_pos rounds) hdec
      simp at this
    | cons tmp bs =>
      rw [List.cons_append, decodeVarint] at hdec
      unfold readVarUintLoop
      rw [← List.singleton_append]
      refine (reads_readFixInt8 tmp).bind ?_
      split at hdec
      · rename_i hlast
        obtain ⟨rfl, hnil⟩ : result ||| (tmp.setWidth w <<< shift) = v ∧ bs ++ rest = rest := by
          simpa using hdec
        rw [if_pos hlast, List.append_left_eq_self.1 hnil]
        exact Reads.nil _
      · rename_i hmore
        rw [if_neg hmore]
        exact ih _ _ _ _ _ hdec

theorem reads_readVarUint_of_decode {w : Nat} {v : BitVec w} {bs rest : List Byte}
    (h : decodeVarint ((w + 6) / 7) 0 0#w (bs ++ rest) = some (v, rest)) : Reads en (readVarUint w) bs v :=
  reads_readVarUintLoop _ _ _ _ _ _ h

theorem reads_readVarUint {w : Nat} (hw : 8 ≤ w) (v : BitVec w) : Reads en (readVarUint w) (varint v) v :=
  reads_readVarUint_of_decode (decodeVarint_varint hw (by omega) v [])

theorem reads_readVarInt {w : Nat} (hw : 8 ≤ w) (v : BitVec w) :
    Reads en (readVarInt w) (varint (encodeZigzag v)) v := by
  have hunsigned : Reads en (readVarUint w) (varint (encodeZigzag v)) (encodeZigzag v) := reads_readVarUint hw _
  have hsigned := hunsigned.map decodeZigzag
  rwa [decodeZigzag_encodeZigzag] at hsigned

/-! ### Strings -/

/-- `std::string::resize(len)` on a local string. -/
def resize (len : Nat) : Op ByteArray Unit := do
  if stringMaxSize < len then throw (.throws .lengthError)

/-- `write_string_f16`, `write_string_f32` and `write_string_f64`, with a length field of `n` bytes. -/
def writeStringFix [Host] (n : Nat) (value : List Byte) : Op ByteArray Unit := do
  writeFixInt (BitVec.ofNat (8 * n) value.length)
  write value value.length

/-- `write_string_vint` -/
def writeStringVint [Host] (value : List Byte) : Op ByteArray Unit := do
  writeVarUint (BitVec.ofNat 64 value.length)
  write value value.length

/-- `write_string_without_length` -/
def writeStringWithoutLength [Host] (value : List Byte) : Op ByteArray Unit := write value value.length

/-- `read_string_f16`, `read_string_f32` and `read_string_f64`, with a length field of `n` bytes. -/
def readStringFix [Host] (n : Nat) : Op ByteArray (List Byte) := do
  let len ← readFixInt n
  resize len.toNat
  read len.toNat

/-- `read_string_vint` -/
def readStringVint : Op ByteArray (List Byte) := do
  let len ← readVarUint 64
  resize len.toNat
  read len.toNat

/-- The bytes of a string behind its varint length. -/
def stringVint (value : List Byte) : List Byte := varint (BitVec.ofNat 64 value.length) ++ value

theorem writes_stringFix [Host] (n : Nat) (value : List Byte) :
    Writes en (writeStringFix n value) (memory en (BitVec.ofNat (8 * n) value.length) ++ value) :=
  (writes_fixInt _).bind (Writes.write value)

theorem writes_stringVint [Host] (value : List Byte) :
    Writes en (writeStringVint value) (stringVint value) :=
  (writes_varUint _).bind (Writes.write value)

private theorem reads_resize_read {value : List Byte} (hlen : value.length < addressSpace) :
    Reads en (resize value.length >>= fun _ => read value.length) value value := by
  have hresize : Reads en (resize value.length) [] () := by
    unfold addressSpace at hlen
    unfold resize stringMaxSize
    rw [if_neg (by omega)]
    exact Reads.nil ()
  exact hresize.bind (f := fun _ => read value.length) (Reads.read value)

theorem reads_readStringVint (value : List Byte) : Reads en readStringVint (stringVint value) value := by
  refine Reads.of_fits fun hfits => (reads_readVarUint (by omega) _).bind ?_
  rw [stringVint, List.length_append] at hfits
  have hlen : value.length < 2 ^ 64 := by unfold addressSpace at hfits; omega
  rw [BitVec.toNat_ofNat, Nat.mod_eq_of_lt hlen]
  exact reads_resize_read (by omega)

end ByteArray

end AcidCompute

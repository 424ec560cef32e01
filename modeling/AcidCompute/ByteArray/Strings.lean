import AcidCompute.ByteArray.Malformed

/-!
# Strings behind their length

A string is written behind its length, which for `f16` is a number of 16 bits.  A longer string is written whole behind
the rest of its length modulo 2^16, and read back cut to that (`stringCodec_restores_iff`).  The body may reach over any
number of blocks, since the read of it starts in the first one.
-/

namespace AcidCompute

namespace ByteArray

/-- The ways to write the length of a string. -/
inductive StringCodec
  | f16
  | f32
  | f64
  | vint
  deriving DecidableEq, Repr

namespace StringCodec

-- `write_string_f16`, `write_string_f32`, `write_string_f64`, `write_string_vint`
def write [Host] : StringCodec → List Byte → Op ByteArray Unit
  | f16 => writeStringFix 2
  | f32 => writeStringFix 4
  | f64 => writeStringFix 8
  | vint => writeStringVint

-- `read_string_f16`, `read_string_f32`, `read_string_f64`, `read_string_vint`
def read [Host] : StringCodec → Op ByteArray (List Byte)
  | f16 => readStringFix 2
  | f32 => readStringFix 4
  | f64 => readStringFix 8
  | vint => readStringVint

/-- The writer refuses the string, or the reader returns it and stops where the writer did. -/
def Restores [Host] (codec : StringCodec) (b : ByteArray) (value : List Byte) : Prop :=
  (∃ e b', codec.write value b = .error (.throws e) b') ∨
    ∃ b₁ b₂, codec.write value b = .ok () b₁ ∧ (do setPosition 0; codec.read) b₁ = .ok value b₂ ∧
      b₂.position = b₁.position

end StringCodec

/-! ### Reading a length and a body -/

variable {en : Endian}

private theorem resize_ok {len : Nat} (b : ByteArray) (hlen : len ≤ addressSpace) : resize len b = .ok () b := by
  unfold resize stringMaxSize
  unfold addressSpace at hlen
  rw [if_neg (by omega)]
  rfl

/-- As many bytes of the body are read as the length field says. -/
theorem readStringFix_ok [Host] {n : Nat} {b : ByteArray} (hb : Ready en b) (hroom : b.position + n < b.baseSize)
    {len : BitVec (8 * n)} {body : List Byte} (hu : b.unread = memory en len ++ body)
    (hbody : len.toNat ≤ body.length) :
    readStringFix n b = .ok (body.take len.toNat) (b.moveTo (b.position + n + len.toNat)) := by
  have hwidth : (memory en len).length = n := length_memory en len
  have hnumber : Reads en (readFixInt n) (memory en len) len := reads_readFixInt len
  have hlen := hnumber b body hb (by omega) hu
  have hend := position_le_of_unread hb.valid hu
  have hleft := hb.valid.length_unread
  have hsize := hb.valid.size_le
  have hfits := hb.valid.fits
  have hunread := unread_moveTo hu
  rw [hwidth] at hlen hend hunread
  rw [hu, List.length_append, hwidth] at hleft
  have hb₁ : Ready en (b.moveTo (b.position + n)) := hb.moveTo hend
  have hread := read_spec hb₁.valid hb₁.synced hroom (n := len.toNat)
    (by show len.toNat ≤ b.size - (b.position + n); omega)
  rw [hunread] at hread
  unfold readStringFix
  rw [Op.bind_of_ok hlen, Op.bind_of_ok (resize_ok _ (by omega))]
  exact hread

/-! ### A string in a fresh array -/

/-- The array holds what was written, and the reader is at its start. -/
private theorem restores_iff [Host] {codec : StringCodec} {b : ByteArray} (hb : Holds en 4096 [] b)
    {value bs : List Byte} (hwrites : Writes en (codec.write value) bs) (hfits : bs.length + 4096 ≤ addressSpace)
    (back : List Byte) (p : Nat)
    (hread : ∀ b' : ByteArray, Holds en 4096 bs b' → codec.read b' = .ok back (b'.moveTo p)) :
    codec.Restores b value ↔ back = value ∧ p = bs.length := by
  have hposition := hb.position_eq
  have hbase := hb.base_eq
  rcases hwrites b hb.ready with ⟨b₁, heq, h₁⟩ | ⟨hfull, -⟩
  · have hback : (do setPosition 0; codec.read) b₁ = .ok back ((b₁.moveTo 0).moveTo p) :=
      (Op.bind_of_ok (setPosition_zero h₁.valid)).trans (hread _ (hb.rewind h₁))
    have hend : b₁.position = bs.length := by
      rw [h₁.position_eq, hposition, Nat.zero_add]
    unfold StringCodec.Restores
    rw [heq]
    constructor
    · rintro (⟨e, b', hthrows⟩ | ⟨b', b₂, hsame, hvalue, hstop⟩)
      · cases hthrows
      · cases hsame
        rw [hback] at hvalue
        injection hvalue with hvalue hafter
        rw [← hafter, hend] at hstop
        exact ⟨hvalue, hstop⟩
    · rintro ⟨rfl, rfl⟩
      exact .inr ⟨b₁, _, rfl, hback, hend.symm⟩
  · exact absurd (.inr (by omega)) hfull

private theorem fix_restores_iff [Host] {codec : StringCodec} {n : Nat} (hn : n ≤ 8)
    (hwrite : codec.write = writeStringFix n) (hread : codec.read = readStringFix n) {b : ByteArray}
    (hb : Holds en 4096 [] b) {value : List Byte} (hlen : value.length < 2 ^ 32) :
    codec.Restores b value ↔ value.length < 2 ^ (8 * n) := by
  have hwidth : (memory en (BitVec.ofNat (8 * n) value.length)).length = n := length_memory en _
  have hmod : (BitVec.ofNat (8 * n) value.length).toNat = value.length % 2 ^ (8 * n) := BitVec.toNat_ofNat _ _
  have hle := Nat.mod_le value.length (2 ^ (8 * n))
  rw [restores_iff hb (by rw [hwrite]; exact writes_stringFix n value)
    (by rw [List.length_append, hwidth]; unfold addressSpace; omega)
    (value.take (value.length % 2 ^ (8 * n))) (n + value.length % 2 ^ (8 * n))]
  · rw [List.length_append, hwidth]
    constructor
    · rintro ⟨-, hstop⟩
      have hsame : value.length % 2 ^ (8 * n) = value.length := by omega
      rw [← hsame]
      exact Nat.mod_lt _ (Nat.two_pow_pos _)
    · intro hsmall
      rw [Nat.mod_eq_of_lt hsmall, List.take_length]
      exact ⟨rfl, rfl⟩
  · intro b' hb'
    have hok := readStringFix_ok hb'.ready (by rw [hb'.position_eq, hb'.base_eq]; omega) hb'.unread_eq
      (by rw [hmod]; exact hle)
    rw [hread, hok, hmod, hb'.position_eq, Nat.zero_add]

private theorem vint_restores [Host] {b : ByteArray} (hb : Holds en 4096 [] b) {value : List Byte}
    (hlen : value.length < 2 ^ 32) : StringCodec.vint.Restores b value := by
  have hcount : (varint (BitVec.ofNat 64 value.length)).length ≤ 10 := length_varint_le 9 (by decide) _
  have hlength : (stringVint value).length = (varint (BitVec.ofNat 64 value.length)).length + value.length :=
    List.length_append
  rw [restores_iff hb (writes_stringVint value) (by rw [hlength]; unfold addressSpace; omega) value
    (stringVint value).length]
  · exact ⟨rfl, rfl⟩
  · intro b' hb'
    have hfound : takeString b'.unread = some (value, []) := by
      rw [hb'.unread_eq, ← List.append_nil (stringVint value)]
      exact takeString_append (by omega) []
    obtain ⟨p, hp, heq, hrest⟩ := readStringVint_ok hb'.ready
      (by rw [hb'.position_eq, hb'.base_eq]; exact Nat.lt_of_le_of_lt (Nat.min_le_right _ _) (by decide)) hfound
    -- nothing is left unread
    have hend := (hb'.ready.moveTo hp).valid.length_unread
    rw [hrest, List.length_nil] at hend
    have hp' : p = (stringVint value).length := by
      rw [← hb'.size_eq]
      change 0 = b'.size - p at hend
      omega
    rw [← hp']
    exact heq

/-- A string of less than 2^32 bytes that is written to a fresh array comes back just if its length fits into the length
field, which for `f16` has 16 bits. -/
theorem stringCodec_restores_iff [Host] {b : ByteArray} (hnew : new 4096 en = .ok b) (codec : StringCodec)
    {value : List Byte} (hlen : value.length < 2 ^ 32) :
    codec.Restores b value ↔ (codec = .f16 → value.length < 2 ^ 16) := by
  have hb := holds_of_new (by decide) hnew
  cases codec with
  | f16 =>
    rw [fix_restores_iff (n := 2) (by decide) rfl rfl hb hlen]
    exact ⟨fun hsmall _ => hsmall, fun himp => himp rfl⟩
  | f32 =>
    rw [fix_restores_iff (n := 4) (by decide) rfl rfl hb hlen]
    exact iff_of_true hlen fun hcodec => by cases hcodec
  | f64 =>
    rw [fix_restores_iff (n := 8) (by decide) rfl rfl hb hlen]
    exact iff_of_true (Nat.lt_trans hlen (by decide)) fun hcodec => by cases hcodec
  | vint => exact iff_of_true (vint_restores hb hlen) fun hcodec => by cases hcodec

section

attribute [local instance] Host.zeroed

private theorem exists_new : ∃ b, new 4096 .big = .ok b := ⟨_, if_neg (by decide)⟩

/-- Two bytes behind a length of 16 bits. -/
theorem stringCodec_restores_iff_two : ∃ b, new 4096 .big = .ok b ∧ StringCodec.f16.Restores b [1, 2] :=
  have ⟨b, hnew⟩ := exists_new
  ⟨b, hnew, (stringCodec_restores_iff hnew .f16 (by decide)).2 fun _ => by decide⟩

/-- Of 65536 bytes behind a length of 16 bits none come back. -/
theorem not_stringCodec_restores_long :
    ∃ (b : ByteArray) (value : List Byte), new 4096 .big = .ok b ∧ value.length = 65536 ∧
      ¬ StringCodec.f16.Restores b value := by
  obtain ⟨b, hnew⟩ := exists_new
  have hb := holds_of_new (by decide) hnew
  have hlen : (List.replicate 65536 (0 : Byte)).length = 65536 := List.length_replicate
  refine ⟨b, List.replicate 65536 0, hnew, hlen, ?_⟩
  rw [fix_restores_iff (n := 2) (by decide) rfl rfl hb (by rw [hlen]; decide), hlen]
  decide

end

end ByteArray

end AcidCompute

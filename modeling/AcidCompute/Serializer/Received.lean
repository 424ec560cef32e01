import AcidCompute.ByteArray.Malformed
import AcidCompute.Serializer.Format

/-!
# Deserializing what a peer sent

The content of a message is any string.  Whether its first string can be read decides whether a handler gets past its
first lines (`readKey_ok`, `readKey_throws`); the readers of all types return or throw as long as the content is
shorter than a block (`Ty.calm`).
-/

namespace AcidCompute

open AcidCompute.ByteArray

/-! ### All readers stay inside the first block -/

theorem Scalar.calm_read [Host] (s : Scalar) : Calm s.read := by
  cases s with
  | bool => exact Calm.readFixInt8.bind fun _ => Calm.pure _
  | int8 | uint8 => exact Calm.readFixInt8
  | int16 | uint16 => exact Calm.readFixInt 2
  | float => exact Calm.readFixInt 4
  | double => exact Calm.readFixInt 8
  | int32 | int64 => exact Calm.readVarInt _
  | uint32 | uint64 => exact Calm.readVarUint _
  | string => exact Calm.readStringVint

private theorem calm_readItems {α : Type} {d : Discipline} {C : Comparison α} {item : Op ByteArray α}
    (h : Calm item) (size : Nat) (t : Collection d C) : Calm (CppType.readItems item size t) := by
  induction size generalizing t with
  | zero => exact Calm.pure t
  | succ size ih =>
    refine h.bind fun tmp => ?_
    split
    · exact ih _
    · exact Calm.throw _

private theorem calm_container [Host] {α : Type} {d : Discipline} {C : Comparison α} (Same : α → α → Prop)
    {item : Op ByteArray α} (put : α → Op ByteArray Unit) (h : Calm item) (t : Collection d C) :
    Calm ((CppType.container d C Same item put).shiftRight t) :=
  (Scalar.calm_read .uint64).bind fun _ => calm_readItems h _ _

private theorem calm_pair {K V : CppType} (hK : ∀ x, Calm (K.shiftRight x)) (hV : ∀ x, Calm (V.shiftRight x))
    (x : K.Val × V.Val) : Calm ((CppType.pair K V).shiftRight x) :=
  (hK x.1).bind fun _ => (hV x.2).bind fun _ => Calm.pure _

/-- `read` is a scalar's reader or does nothing. -/
private theorem calm_read [Host] (t : Ty) (x : t.sem.Val) : Calm (t.sem.read x) := by
  cases t with
  | scalar s => exact s.calm_read
  | seq k e => cases k <;> exact Calm.pure _
  | assoc k key value => cases k <;> exact Calm.pure _
  | pair first second => exact Calm.pure _
  | tuple args => cases args <;> exact Calm.pure _

mutual

theorem Ty.calm [Host] (t : Ty) (x : t.sem.Val) : Calm (t.sem.shiftRight x) := by
  cases t with
  | scalar s => exact s.calm_read
  | seq k e =>
    cases k with
    | unorderedSet | unorderedMultiset =>
      exact calm_container e.sem.Same e.sem.write (calm_read e e.sem.fresh) x
    | list | vector | set | multiset => exact calm_container e.sem.Same e.sem.shiftLeft (calm_read e e.sem.fresh) x
  | assoc k key value =>
    have hpair := calm_pair key.calm value.calm (key.sem.fresh, value.sem.fresh)
    cases k with
    | unorderedMap | unorderedMultimap =>
      exact calm_container (CppType.pair key.sem value.sem).Same (CppType.pair key.sem value.sem).shiftLeft hpair x
    | map | multimap =>
      exact calm_container (CppType.pair key.sem value.sem).Same (CppType.pair key.sem value.sem).shiftLeft hpair x
  | pair first second => exact calm_pair first.calm second.calm x
  | tuple args => exact args.calm x

theorem Tys.calm [Host] (ts : Tys) (x : ts.sem.Val) : Calm (ts.sem.shiftRight x) := by
  cases ts with
  | nil => exact Calm.pure ()
  | cons t args => exact (t.calm x.1).bind fun _ => (args.calm x.2).bind fun _ => Calm.pure _

end

/-! ### The serializer of a received string -/

namespace Serializer

private theorem asInt_of_lt {n : Nat} (h : n < 2 ^ 31) : asInt n = n := by
  have hmsb : (BitVec.ofNat 32 n).msb = false := by
    rw [BitVec.msb_eq_decide, BitVec.toNat_ofNat]
    exact decide_eq_false (by omega)
  rw [asInt, BitVec.toNat_signExtend, hmsb, BitVec.toNat_setWidth, BitVec.toNat_ofNat]
  simp
  omega

/-- The serializer of a received string holds its bytes, as long as their number is a positive `int`. -/
theorem ofString_spec [Host] (input : List Byte) (h : input.length < 2 ^ 31) :
    ∃ b, ofString input = .ok b ∧ Holds .big defaultBaseSize input b := by
  obtain ⟨b, b', hnew, heq, hb'⟩ := exec_new (show 0 < defaultBaseSize by decide) (Writes.write input) (by
    unfold defaultBaseSize addressSpace
    omega)
  refine ⟨b', ?_, hb'⟩
  unfold ofString writeRawData
  rw [asInt_of_lt h]
  show (ByteArray.new defaultBaseSize .big >>= _ : Except Fault ByteArray) = _
  rw [hnew]
  show (Op.exec _ b >>= _ : Except Fault ByteArray) = _
  rw [show reset = setPosition 0 from rfl, heq]
  rfl

/-- What a serializer has been given, taken out again as a string. -/
theorem write_toString [Host] {m : Op ByteArray Unit} {bs : List Byte} (hm : Writes .big m bs)
    (hfits : bs.length + defaultBaseSize ≤ addressSpace) :
    ∃ b b' b'', Serializer.new = .ok b ∧ Op.exec (m >>= fun _ => reset) b = .ok ((), b') ∧
      Op.exec ByteArray.toString b' = .ok (bs, b'') := by
  obtain ⟨b, b', hnew, heq, hb'⟩ := exec_new (by decide) hm hfits
  refine ⟨b, b', b', hnew, heq, ?_⟩
  have hstring := toString_spec hb'.ready.valid hb'.ready.synced
  rw [hb'.unread_eq] at hstring
  exact Op.exec_of_ok hstring

/-- A longer string is written with a length that has wrapped around, for which there is no memory. -/
theorem ofString_throws [Host] {input : List Byte} (h : 2 ^ 31 ≤ input.length) (h' : input.length < 2 ^ 32) :
    ofString input = .error (.throws .badAlloc) := by
  have hsize : 2 ^ 63 ≤ asInt input.length := by
    have hmsb : (BitVec.ofNat 32 input.length).msb = true := by
      rw [BitVec.msb_eq_decide, BitVec.toNat_ofNat]
      exact decide_eq_true (by omega)
    rw [asInt, BitVec.toNat_signExtend, hmsb, if_pos rfl]
    omega
  obtain ⟨b, hnew⟩ : ∃ b, ByteArray.new defaultBaseSize .big = .ok b := ⟨_, rfl⟩
  obtain ⟨-, -, hbase, -, hpos, -, hcap⟩ := new_valid (by decide) hnew
  have hgrow : addCapacity (asInt input.length) b = .error (.throws .badAlloc) b := by
    unfold addCapacity getCapacity
    rw [hbase, hpos, hcap]
    unfold defaultBaseSize addressSpace
    rw [if_neg (by omega), if_neg (by omega)]
    dsimp only
    rw [if_pos (by omega)]
  have hwrite : writeRawData input b = .error (.throws .badAlloc) b := by
    unfold writeRawData ByteArray.write
    rw [if_neg (by omega)]
    exact Op.bind_of_error hgrow
  unfold ofString
  show (ByteArray.new defaultBaseSize .big >>= _ : Except Fault ByteArray) = _
  rw [hnew]
  show (Op.exec _ b >>= _ : Except Fault ByteArray) = _
  rw [Op.exec_of_error (Op.bind_of_error hwrite)]
  rfl

/-! ### The first string of a content -/

/-- The content is not too long for a serializer, and a string can be read in front of it. -/
def KeyDecodes (content : List Byte) : Prop := content.length < 2 ^ 31 ∧ (takeString content).isSome

theorem readKey_ok [Host] {content key rest : List Byte} (hlen : content.length < 2 ^ 31)
    (h : takeString content = some (key, rest)) :
    ∃ s, readKey content = .ok (key, s) ∧ Ready .big s ∧ s.baseSize = defaultBaseSize ∧ s.content = content ∧
      s.unread = rest := by
  obtain ⟨b, hb, hholds⟩ := ofString_spec content hlen
  rw [← hholds.unread_eq] at h
  obtain ⟨p, hp, heq, hrest⟩ := readStringVint_ok hholds.ready
    (by rw [hholds.position_eq, hholds.base_eq]; exact Nat.lt_of_le_of_lt (Nat.min_le_right _ _) (by decide)) h
  refine ⟨b.moveTo p, ?_, hholds.ready.moveTo hp, hholds.base_eq, hholds.content_eq, hrest⟩
  unfold readKey
  rw [hb]
  exact Op.exec_of_ok heq

/-- The key that was written in front of a content, and the serializer behind it. -/
theorem readKey_content [Host] {content key rest : List Byte} (hcontent : content = stringVint key ++ rest)
    (hlen : content.length < defaultBaseSize) :
    ∃ s, readKey content = .ok (key, s) ∧ Ready .big s ∧ s.baseSize = defaultBaseSize ∧
      s.position + rest.length = content.length ∧ s.unread = rest := by
  obtain ⟨b, hb, hholds⟩ := ofString_spec content (Nat.lt_trans hlen (by decide))
  have hlength : content.length = (stringVint key).length + rest.length := by rw [hcontent, List.length_append]
  have hunread : b.unread = stringVint key ++ rest := by rw [hholds.unread_eq, hcontent]
  have hkey : Reads .big readStringVint (stringVint key) key := reads_readStringVint key
  have hread := hkey b rest hholds.ready (by rw [hholds.position_eq, hholds.base_eq]; omega) hunread
  refine ⟨b.moveTo (b.position + (stringVint key).length), ?_,
    hholds.ready.moveTo (position_le_of_unread hholds.ready.valid hunread), hholds.base_eq, ?_, unread_moveTo hunread⟩
  · unfold readKey
    rw [hb]
    exact Op.exec_of_ok hread
  · show b.position + (stringVint key).length + rest.length = content.length
    rw [hholds.position_eq]
    omega

theorem readKey_throws [Host] {content : List Byte} (hlen : content.length < 2 ^ 32) (h : ¬ KeyDecodes content) :
    ∃ e, readKey content = .error (.throws e) := by
  unfold readKey
  by_cases hint : content.length < 2 ^ 31
  · obtain ⟨b, hb, hholds⟩ := ofString_spec content hint
    have hnone : takeString content = none := by
      by_contra hsome
      exact h ⟨hint, Option.isSome_iff_ne_none.2 hsome⟩
    rw [← hholds.unread_eq] at hnone
    obtain ⟨e, b', heq⟩ := readStringVint_throws hholds.ready
      (by rw [hholds.position_eq, hholds.base_eq]; exact Nat.lt_of_le_of_lt (Nat.min_le_right _ _) (by decide)) hnone
    rw [hb]
    exact ⟨e, Op.exec_of_error heq⟩
  · rw [ofString_throws (by omega) hlen]
    exact ⟨_, rfl⟩

end Serializer

end AcidCompute

import AcidCompute.ByteArray.Codec

/-!
# Reading bytes that no writer wrote

What the readers do in front of arbitrary bytes.  A varint or a string that is cut short makes them throw
(`readVarUint_throws`, `readStringVint_throws`), and as long as the bytes end inside the first block no reader leaves
a block or follows a null pointer (`Calm`).
-/

namespace AcidCompute

namespace ByteArray

variable {en : Endian}

/-! ### Varints and strings -/

theorem readFixInt8_nothing {b : ByteArray} (h : b.unread = []) (hb : b.Valid) :
    readFixInt8 b = .error (.throws .outOfRange) b := by
  have hlen := hb.length_unread
  rw [h, List.length_nil] at hlen
  exact Op.bind_of_error (read_short (by omega))

private theorem readVarUintLoop_throws {w : Nat} (rounds shift : Nat) (result : BitVec w) {b : ByteArray}
    (hb : Ready en b) (hroom : min b.size (b.position + rounds) < b.baseSize)
    (hdec : decodeVarint rounds shift result b.unread = none) :
    ∃ b', readVarUintLoop rounds shift result b = .error (.throws .outOfRange) b' := by
  induction rounds generalizing shift result b with
  | zero => cases hdec
  | succ rounds ih =>
    cases hu : b.unread with
    | nil => exact ⟨b, Op.bind_of_error (readFixInt8_nothing hu hb.valid)⟩
    | cons tmp rest =>
      have hu' : b.unread = [tmp] ++ rest := hu
      have hend := position_le_of_unread hb.valid hu'
      rw [List.length_singleton] at hend
      have hbyte := reads_readFixInt8 tmp b rest hb (by rw [List.length_singleton]; omega) hu'
      rw [hu, decodeVarint] at hdec
      split at hdec
      · cases hdec
      · rename_i hmore
        obtain ⟨b', heq⟩ := ih (shift + 7) (result ||| ((tmp &&& 0x7f#8).setWidth w <<< shift))
          (hb.moveTo (position_le_of_unread hb.valid hu'))
          (show min b.size (b.position + 1 + rounds) < b.baseSize by omega) (by rw [unread_moveTo hu']; exact hdec)
        refine ⟨b', ?_⟩
        unfold readVarUintLoop
        rw [Op.bind_of_ok hbyte, if_neg hmore]
        exact heq

theorem readVarUint_throws {w : Nat} {b : ByteArray} (hb : Ready en b)
    (hroom : min b.size (b.position + (w + 6) / 7) < b.baseSize)
    (hdec : decodeVarint ((w + 6) / 7) 0 0#w b.unread = none) :
    ∃ b', readVarUint w b = .error (.throws .outOfRange) b' := readVarUintLoop_throws _ _ _ hb hroom hdec

theorem readVarUint_ok {w : Nat} {b : ByteArray} (hb : Ready en b)
    (hroom : min b.size (b.position + (w + 6) / 7) < b.baseSize) {v : BitVec w} {rest : List Byte}
    (hdec : decodeVarint ((w + 6) / 7) 0 0#w b.unread = some (v, rest)) :
    ∃ front : List Byte, b.unread = front ++ rest ∧ front.length ≤ (w + 6) / 7 ∧
      readVarUint w b = .ok v (b.moveTo (b.position + front.length)) := by
  obtain ⟨front, hu, hlen⟩ := decodeVarint_suffix hdec
  have hend := position_le_of_unread hb.valid hu
  rw [hu] at hdec
  exact ⟨front, hu, hlen, reads_readVarUint_of_decode hdec b rest hb (by omega) hu⟩

/-- The string in front of the bytes, behind its varint length, and what follows it. -/
def takeString (bs : List Byte) : Option (List Byte × List Byte) :=
  match decodeVarint 10 0 0#64 bs with
  | some (len, rest) => if len.toNat ≤ rest.length then some (rest.take len.toNat, rest.drop len.toNat) else none
  | none => none

/-- A string that was written is found, whatever follows it. -/
theorem takeString_append {key : List Byte} (hlen : key.length < 2 ^ 64) (rest : List Byte) :
    takeString (stringVint key ++ rest) = some (key, rest) := by
  have hcount : (BitVec.ofNat 64 key.length).toNat = key.length := by
    rw [BitVec.toNat_ofNat, Nat.mod_eq_of_lt hlen]
  unfold takeString stringVint
  rw [List.append_assoc, decodeVarint_varint (by decide) (by decide)]
  simp [hcount]

theorem readStringVint_ok {b : ByteArray} (hb : Ready en b) (hroom : min b.size (b.position + 10) < b.baseSize)
    {value rest : List Byte} (h : takeString b.unread = some (value, rest)) :
    ∃ p, p ≤ b.size ∧ readStringVint b = .ok value (b.moveTo p) ∧ (b.moveTo p).unread = rest := by
  unfold takeString at h
  split at h
  · rename_i len rest' hdec
    obtain ⟨front, hu, hlen, hvar⟩ := readVarUint_ok hb hroom hdec
    split at h
    · rename_i hle
      obtain ⟨rfl, rfl⟩ : rest'.take len.toNat = value ∧ rest'.drop len.toNat = rest := by simpa using h
      have hsplit : b.unread = (front ++ rest'.take len.toNat) ++ rest'.drop len.toNat := by
        rw [hu, List.append_assoc, List.take_append_drop]
      have hend := position_le_of_unread hb.valid hsplit
      have hmid := position_le_of_unread hb.valid hu
      have hfits := hb.valid.fits
      have hsize := hb.valid.size_le
      unfold addressSpace at hfits
      rw [List.length_append, List.length_take_of_le hle] at hend
      have hsmall : ¬ stringMaxSize < len.toNat := by unfold stringMaxSize; omega
      have hresize : resize len.toNat (b.moveTo (b.position + front.length)) =
          .ok () (b.moveTo (b.position + front.length)) := by
        unfold resize
        rw [if_neg hsmall]
        rfl
      have hb₁ := hb.moveTo hmid
      have hread := read_spec hb₁.valid hb₁.synced (by show b.position + front.length < b.baseSize; omega)
        (n := len.toNat) (by show len.toNat ≤ b.size - (b.position + front.length); omega)
      rw [unread_moveTo hu] at hread
      refine ⟨b.position + front.length + len.toNat, by omega, ?_, ?_⟩
      · unfold readStringVint
        rw [Op.bind_of_ok hvar, Op.bind_of_ok hresize]
        exact hread
      · have hdrop := unread_moveTo hsplit
        rw [List.length_append, List.length_take_of_le hle, ← Nat.add_assoc] at hdrop
        exact hdrop
    · cases h
  · cases h

/-- A declared length that is too large for the bytes, or for any string, throws as well. -/
theorem readStringVint_throws {b : ByteArray} (hb : Ready en b) (hroom : min b.size (b.position + 10) < b.baseSize)
    (h : takeString b.unread = none) : ∃ e b', readStringVint b = .error (.throws e) b' := by
  unfold takeString at h
  split at h
  · rename_i len rest hdec
    obtain ⟨front, hu, -, hvar⟩ := readVarUint_ok hb hroom hdec
    split at h
    · cases h
    · rename_i hlong
      have hlen := hb.valid.length_unread
      rw [hu, List.length_append] at hlen
      have hshort : ByteArray.read len.toNat (b.moveTo (b.position + front.length)) =
          .error (.throws .outOfRange) (b.moveTo (b.position + front.length)) :=
        read_short (by show b.size - (b.position + front.length) < len.toNat; omega)
      by_cases hmax : stringMaxSize < len.toNat
      · have hresize : resize len.toNat (b.moveTo (b.position + front.length)) =
            .error (.throws .lengthError) (b.moveTo (b.position + front.length)) := by
          unfold resize
          rw [if_pos hmax]
          rfl
        exact ⟨_, _, (Op.bind_of_ok hvar).trans (Op.bind_of_error hresize)⟩
      · have hresize : resize len.toNat (b.moveTo (b.position + front.length)) =
            .ok () (b.moveTo (b.position + front.length)) := by
          unfold resize
          rw [if_neg hmax]
          rfl
        exact ⟨_, _, (Op.bind_of_ok hvar).trans ((Op.bind_of_ok hresize).trans hshort)⟩
  · rename_i hdec
    obtain ⟨b', hthrow⟩ := readVarUint_throws hb hroom hdec
    exact ⟨_, _, Op.bind_of_error hthrow⟩

/-! ### Readers that stay inside the first block -/

/-- Where the bytes end inside the first block, the call returns or throws, and a call that returns has only moved the
position. -/
def Calm {α : Type} (m : Op ByteArray α) : Prop :=
  ∀ (en : Endian) (b : ByteArray), Ready en b → b.size < b.baseSize →
    (∃ a p, m b = .ok a (b.moveTo p) ∧ p ≤ b.size) ∨ ∃ e b', m b = .error (.throws e) b'

section Calm

variable {α β : Type}

theorem Calm.pure (a : α) : Calm (pure a) := by
  intro en b hb _
  refine .inl ⟨a, b.position, ?_, hb.valid.position_le⟩
  rw [moveTo_position hb.synced]
  rfl

theorem Calm.throw (e : Exception) : Calm (throw (.throws e) : Op ByteArray α) := fun _ b _ _ => .inr ⟨e, b, rfl⟩

theorem Calm.bind {m : Op ByteArray α} {f : α → Op ByteArray β} (h : Calm m) (h' : ∀ a, Calm (f a)) :
    Calm (m >>= f) := by
  intro en b hb hsize
  rcases h en b hb hsize with ⟨a, p, heq, hp⟩ | ⟨e, b', heq⟩
  · rw [Op.bind_of_ok heq]
    exact h' a en _ (hb.moveTo hp) hsize
  · exact .inr ⟨e, b', Op.bind_of_error heq⟩

theorem Calm.read (n : Nat) : Calm (read n) := by
  intro en b hb hsize
  have hple := hb.valid.position_le
  by_cases hn : n ≤ b.size - b.position
  · exact .inl ⟨_, b.position + n, read_spec hb.valid hb.synced (by omega) hn, by omega⟩
  · exact .inr ⟨_, _, read_short (by omega)⟩

theorem Calm.readFixInt8 : Calm readFixInt8 := (Calm.read 1).bind fun _ => Calm.pure _

theorem Calm.readFixInt [Host] (n : Nat) : Calm (readFixInt n) := by
  intro en b hb hsize
  unfold ByteArray.readFixInt
  rcases Calm.read n en b hb hsize with ⟨bytes, p, heq, hp⟩ | ⟨e, b', heq⟩
  · rw [Op.bind_of_ok heq]
    exact .inl ⟨_, p, rfl, hp⟩
  · exact .inr ⟨e, b', Op.bind_of_error heq⟩

private theorem calm_readVarUintLoop {w : Nat} (rounds shift : Nat) (result : BitVec w) :
    Calm (readVarUintLoop rounds shift result) := by
  induction rounds generalizing shift result with
  | zero => exact Calm.pure result
  | succ rounds ih =>
    refine Calm.readFixInt8.bind fun tmp => ?_
    split
    · exact Calm.pure _
    · exact ih _ _

theorem Calm.readVarUint (w : Nat) : Calm (readVarUint w) := calm_readVarUintLoop _ _ _

theorem Calm.readVarInt (w : Nat) : Calm (readVarInt w) := (Calm.readVarUint w).bind fun _ => Calm.pure _

theorem Calm.readStringVint : Calm readStringVint := by
  refine (Calm.readVarUint 64).bind fun len => ?_
  have hresize : Calm (resize len.toNat) := by
    unfold resize
    split
    · exact Calm.throw _
    · exact Calm.pure ()
  exact hresize.bind fun _ => Calm.read _

end Calm

end ByteArray

end AcidCompute

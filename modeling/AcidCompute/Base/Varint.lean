import AcidCompute.Base.ByteOrder

/-!
# Base-128 varints and zigzag

A `w`-bit number is cut into groups of seven bits, lowest first, and every byte but the last carries the flag `0x80`
(`varint`).  The decoder ORs the groups together at the shifts `0, 7, 14, …` and looks at no more than a fixed
number of bytes (`decodeVarint`).  Zigzag moves the sign of a two's complement number into its lowest bit, so that
small negative numbers have short varints.
-/

namespace AcidCompute

variable {w : Nat}

/-! ### Varints -/

/-- The loop of the encoder; `fuel` bounds the rounds, each of which drops seven bits of `v`. -/
def varintLoop : Nat → BitVec w → List Byte
  | 0, v => [v.setWidth 8]
  | fuel + 1, v =>
    if 0x80 ≤ v.toNat then
      ((v &&& 0x7f#w) ||| 0x80#w).setWidth 8 :: varintLoop fuel (v >>> 7)
    else [v.setWidth 8]

/-- The varint of `v`. -/
def varint (v : BitVec w) : List Byte := varintLoop w v

/-- Decode a varint of at most `rounds` bytes, ORing its groups into `result` from the bit `shift` on. -/
def decodeVarint : Nat → Nat → BitVec w → List Byte → Option (BitVec w × List Byte)
  | 0, _, result, bs => some (result, bs)
  | _ + 1, _, _, [] => none
  | rounds + 1, shift, result, b :: bs =>
    if b.toNat < 0x80 then some (result ||| (b.setWidth w <<< shift), bs)
    else decodeVarint rounds (shift + 7) (result ||| ((b &&& 0x7f#8).setWidth w <<< shift)) bs

private theorem toNat_shiftRight_seven (v : BitVec w) : (v >>> 7).toNat = v.toNat / 128 := by
  simp [BitVec.toNat_ushiftRight, Nat.shiftRight_eq_div_pow]

private theorem setWidth_of_lt {v : BitVec w} (h : v.toNat < 0x80) :
    (v.setWidth 8).toNat = v.toNat ∧ ((v.setWidth 8).setWidth w) = v := by
  have h8 : (v.setWidth 8).toNat = v.toNat := by
    rw [BitVec.toNat_setWidth]; exact Nat.mod_eq_of_lt (by omega)
  refine ⟨h8, BitVec.eq_of_toNat_eq ?_⟩
  rw [BitVec.toNat_setWidth, h8]
  exact Nat.mod_eq_of_lt v.isLt

private theorem getLsbD_seven_ones (hw : 8 ≤ w) (i : Nat) : (0x7f#w).getLsbD i = decide (i < 7) := by
  have h : (0x7f#w) = BitVec.ofNat w (2 ^ 7 - 1) := rfl
  rw [h, BitVec.getLsbD_ofNat, Nat.testBit_two_pow_sub_one]
  by_cases hi : i < 7
  · simp [hi]; omega
  · simp [hi]

private theorem getLsbD_flag (hw : 8 ≤ w) (i : Nat) : (0x80#w).getLsbD i = decide (i = 7) := by
  have h : (0x80#w) = BitVec.ofNat w (2 ^ 7) := rfl
  rw [h, BitVec.getLsbD_ofNat, Nat.testBit_two_pow]
  by_cases hi : 7 = i
  · subst hi; simp; omega
  · simp [hi, Ne.symm hi]

/-- The byte of a group that is not the last carries the flag. -/
private theorem flagged_ge (hw : 8 ≤ w) (v : BitVec w) :
    0x80 ≤ (((v &&& 0x7f#w) ||| 0x80#w).setWidth 8).toNat := by
  have hbit : (((v &&& 0x7f#w) ||| 0x80#w).setWidth 8).getLsbD 7 = true := by
    simp [getLsbD_flag hw]
  exact Nat.ge_two_pow_of_testBit hbit

/-- The group itself is read back from the flagged byte. -/
private theorem group_of_flagged (hw : 8 ≤ w) (v : BitVec w) :
    ((((v &&& 0x7f#w) ||| 0x80#w).setWidth 8) &&& 0x7f#8).setWidth w = v &&& 0x7f#w := by
  apply BitVec.eq_of_getLsbD_eq
  intro i hi
  simp only [BitVec.getLsbD_setWidth, BitVec.getLsbD_and, BitVec.getLsbD_or, getLsbD_seven_ones hw,
    getLsbD_flag hw, getLsbD_seven_ones (Nat.le_refl 8), hi, decide_true, Bool.true_and]
  by_cases h7 : i < 7
  · simp [h7, show i < 8 by omega, show ¬ i = 7 by omega]
  · simp [h7]

/-- A number is its lowest group together with the rest, at any shift. -/
private theorem join_groups (hw : 8 ≤ w) (v : BitVec w) (shift : Nat) :
    ((v &&& 0x7f#w) <<< shift) ||| ((v >>> 7) <<< (shift + 7)) = v <<< shift := by
  apply BitVec.eq_of_getLsbD_eq
  intro i hi
  simp only [BitVec.getLsbD_or, BitVec.getLsbD_shiftLeft, BitVec.getLsbD_and, getLsbD_seven_ones hw,
    BitVec.getLsbD_ushiftRight, hi, decide_true, Bool.true_and]
  by_cases h1 : i < shift
  · simp [h1, show i < shift + 7 by omega]
  · by_cases h2 : i < shift + 7
    · simp [h1, h2, show i - shift < 7 by omega]
    · simp [h1, h2, show ¬ i - shift < 7 by omega, show 7 + (i - (shift + 7)) = i - shift by omega]

private theorem decodeVarint_loop (hw : 8 ≤ w) (rest : List Byte) (fuel rounds shift : Nat)
    (result v : BitVec w) (hfuel : v.toNat < 2 ^ (7 * (fuel + 1)))
    (hrounds : v.toNat < 2 ^ (7 * rounds)) (hpos : 0 < rounds) :
    decodeVarint rounds shift result (varintLoop fuel v ++ rest) = some (result ||| v <<< shift, rest) := by
  induction fuel generalizing rounds shift result v with
  | zero =>
    obtain ⟨k, rfl⟩ : ∃ k, rounds = k + 1 := ⟨rounds - 1, by omega⟩
    have hsmall : v.toNat < 0x80 := by omega
    obtain ⟨h8, hv⟩ := setWidth_of_lt hsmall
    simp [varintLoop, decodeVarint, h8, hsmall, hv]
  | succ fuel ih =>
    obtain ⟨k, rfl⟩ : ∃ k, rounds = k + 1 := ⟨rounds - 1, by omega⟩
    unfold varintLoop
    split
    · rename_i hbig
      have hk : 0 < k := by
        rcases Nat.eq_zero_or_pos k with rfl | hk
        · omega
        · exact hk
      have hshrink : ∀ m, v.toNat < 2 ^ (7 * (m + 1)) → (v >>> 7).toNat < 2 ^ (7 * m) := by
        intro m hm
        rw [toNat_shiftRight_seven]
        have hpow : 2 ^ (7 * (m + 1)) = 128 * 2 ^ (7 * m) := by
          rw [Nat.mul_add, Nat.pow_add]; omega
        exact Nat.div_lt_of_lt_mul (by omega)
      rw [List.cons_append, decodeVarint, if_neg (by have := flagged_ge hw v; omega),
        ih k _ _ _ (hshrink _ hfuel) (hshrink _ hrounds) hk, group_of_flagged hw, BitVec.or_assoc,
        join_groups hw]
    · rename_i hsmall
      obtain ⟨h8, hv⟩ := setWidth_of_lt (show v.toNat < 0x80 by omega)
      simp [decodeVarint, h8, hv, show v.toNat < 128 by omega]

/-- Decoding a varint with enough rounds gives the number back and leaves what follows it. -/
theorem decodeVarint_varint (hw : 8 ≤ w) {rounds : Nat} (hrounds : w ≤ 7 * rounds) (v : BitVec w)
    (rest : List Byte) : decodeVarint rounds 0 0#w (varint v ++ rest) = some (v, rest) := by
  have hv := v.isLt
  have h1 : 2 ^ w ≤ 2 ^ (7 * (w + 1)) := Nat.pow_le_pow_right (by omega) (by omega)
  have h2 : 2 ^ w ≤ 2 ^ (7 * rounds) := Nat.pow_le_pow_right (by omega) hrounds
  rw [varint, decodeVarint_loop hw rest w rounds 0 0#w v (by omega) (by omega) (by omega)]
  simp

/-- The decoder takes at least one byte. -/
theorem length_decodeVarint_lt {rounds shift : Nat} {result v : BitVec w} {bs rest : List Byte}
    (hpos : 0 < rounds) (h : decodeVarint rounds shift result bs = some (v, rest)) : rest.length < bs.length := by
  induction rounds generalizing shift result bs with
  | zero => omega
  | succ rounds ih =>
    cases bs with
    | nil => simp [decodeVarint] at h
    | cons b bs =>
      rw [decodeVarint] at h
      split at h
      · simp only [Option.some.injEq, Prod.mk.injEq] at h
        simp [h.2]
      · rcases Nat.eq_zero_or_pos rounds with rfl | hr
        · simp only [decodeVarint, Option.some.injEq, Prod.mk.injEq] at h
          simp [h.2]
        · have := ih hr h
          simp only [List.length_cons]
          omega

/-- The decoder takes the bytes in front, and not more than its rounds. -/
theorem decodeVarint_suffix {rounds shift : Nat} {result v : BitVec w} {bs rest : List Byte}
    (h : decodeVarint rounds shift result bs = some (v, rest)) :
    ∃ front, bs = front ++ rest ∧ front.length ≤ rounds := by
  induction rounds generalizing shift result bs with
  | zero =>
    simp only [decodeVarint, Option.some.injEq, Prod.mk.injEq] at h
    exact ⟨[], by simp [h.2], Nat.le_refl _⟩
  | succ rounds ih =>
    cases bs with
    | nil => simp [decodeVarint] at h
    | cons b bs =>
      rw [decodeVarint] at h
      split at h
      · simp only [Option.some.injEq, Prod.mk.injEq] at h
        exact ⟨[b], by simp [h.2], by simp⟩
      · obtain ⟨front, rfl, hlen⟩ := ih h
        exact ⟨b :: front, rfl, by simpa using hlen⟩

theorem varint_ne_nil (v : BitVec w) : varint v ≠ [] := by
  unfold varint
  cases w with
  | zero => simp [varintLoop]
  | succ w => unfold varintLoop; split <;> simp

private theorem length_varintLoop (fuel k : Nat) (v : BitVec w) (h : v.toNat < 2 ^ (7 * (k + 1))) :
    (varintLoop fuel v).length ≤ k + 1 := by
  induction fuel generalizing k v with
  | zero => simp [varintLoop]
  | succ fuel ih =>
    unfold varintLoop
    split
    · rename_i hbig
      obtain ⟨j, rfl⟩ : ∃ j, k = j + 1 := by
        rcases Nat.eq_zero_or_pos k with rfl | hk
        · omega
        · exact ⟨k - 1, by omega⟩
      have hpow : 2 ^ (7 * (j + 1 + 1)) = 128 * 2 ^ (7 * (j + 1)) := by
        rw [Nat.mul_add 7 (j + 1), Nat.pow_add]; omega
      have := ih j (v >>> 7) (by rw [toNat_shiftRight_seven]; exact Nat.div_lt_of_lt_mul (by omega))
      simp only [List.length_cons]
      omega
    · simp

/-- A varint of a `w`-bit number has at most `⌈w / 7⌉` bytes. -/
theorem length_varint_le (k : Nat) (hk : w ≤ 7 * (k + 1)) (v : BitVec w) : (varint v).length ≤ k + 1 := by
  refine length_varintLoop w k v ?_
  have := v.isLt
  have h1 : 2 ^ w ≤ 2 ^ (7 * (k + 1)) := Nat.pow_le_pow_right (by omega) hk
  omega

/-! ### Zigzag -/

/-- Two's complement to zigzag: `(value << 1) ^ (value >> (w - 1))`. -/
def encodeZigzag (value : BitVec w) : BitVec w := (value <<< 1) ^^^ value.sshiftRight (w - 1)

/-- Zigzag to two's complement: `(value >> 1) ^ -(value & 1)`. -/
def decodeZigzag (value : BitVec w) : BitVec w := (value >>> 1) ^^^ (-(value &&& 1#w))

private theorem getLsbD_neg_low_bit (v : BitVec w) {i : Nat} (hi : i < w) :
    (-(v &&& 1#w)).getLsbD i = v.getLsbD 0 := by
  have hone : v &&& 1#w = if v.getLsbD 0 then 1#w else 0#w := by
    apply BitVec.eq_of_getLsbD_eq
    intro j hj
    rcases Nat.eq_zero_or_pos j with rfl | hj0
    · cases h : v.getLsbD 0 <;> simp [-BitVec.getLsbD_eq_getElem, h, hj]
    · have : ¬ j = 0 := by omega
      cases h : v.getLsbD 0 <;> simp [this]
  rw [hone]
  cases v.getLsbD 0
  · simp
  · have : (-1#w) = BitVec.allOnes w := BitVec.neg_one_eq_allOnes
    simp [this, hi]

private theorem getLsbD_encodeZigzag_zero (v : BitVec w) (hw : 0 < w) :
    (encodeZigzag v).getLsbD 0 = v.getLsbD (w - 1) := by
  rw [encodeZigzag, BitVec.getLsbD_xor, BitVec.getLsbD_sshiftRight]
  simp [show ¬ w ≤ 0 by omega]

private theorem getLsbD_encodeZigzag_succ (v : BitVec w) {i : Nat} (hi : i + 1 < w) :
    (encodeZigzag v).getLsbD (1 + i) = (v.getLsbD i ^^ v.getLsbD (w - 1)) := by
  have hsign : (v.sshiftRight (w - 1)).getLsbD (1 + i) = v.getLsbD (w - 1) := by
    rw [BitVec.getLsbD_sshiftRight]
    simp [show ¬ w ≤ 1 + i by omega, show ¬ w - 1 + (1 + i) < w by omega, BitVec.msb_eq_getLsbD_last]
  rw [encodeZigzag, BitVec.getLsbD_xor, hsign, BitVec.getLsbD_shiftLeft]
  simp [show 1 + i < w by omega]

/-- A number that is taken for a longer one in between keeps its sign. -/
theorem decodeZigzag_setWidth_encodeZigzag (v : BitVec w) {m : Nat} (hw : 0 < w) (hm : w ≤ m) :
    decodeZigzag ((encodeZigzag v).setWidth m) = v.signExtend m := by
  apply BitVec.eq_of_getLsbD_eq
  intro i hi
  rw [decodeZigzag, BitVec.getLsbD_xor, getLsbD_neg_low_bit _ hi, BitVec.getLsbD_ushiftRight, BitVec.getLsbD_setWidth,
    BitVec.getLsbD_setWidth, getLsbD_encodeZigzag_zero v hw, BitVec.getLsbD_signExtend]
  by_cases hin : i + 1 < w
  · rw [getLsbD_encodeZigzag_succ v hin]
    simp [show 0 < m by omega, show 1 + i < m by omega, hi, show i < w by omega]
  · -- above its bits there are copies of the sign
    rw [BitVec.getLsbD_of_ge (encodeZigzag v) (1 + i) (by omega)]
    by_cases hlast : i < w
    · obtain rfl : i = w - 1 := by omega
      simp [show 0 < m by omega, hi, show w - 1 < w by omega]
    · simp [show 0 < m by omega, hi, hlast, BitVec.msb_eq_getLsbD_last]

/-- Zigzag loses nothing. -/
theorem decodeZigzag_encodeZigzag (v : BitVec w) : decodeZigzag (encodeZigzag v) = v := by
  rcases Nat.eq_zero_or_pos w with rfl | hw
  · exact Subsingleton.elim _ _
  · have h := decodeZigzag_setWidth_encodeZigzag v hw (Nat.le_refl w)
    rwa [BitVec.setWidth_eq, BitVec.signExtend_eq] at h

/-! ### The groups of a byte string -/

/-- The bytes a decoder looks at: up to the first one without the flag, and not more than `rounds`. -/
def groups : Nat → List Byte → List Byte
  | 0, _ => []
  | _ + 1, [] => []
  | rounds + 1, b :: bs => if b.toNat < 0x80 then [b] else b :: groups rounds bs

/-- The number that the groups of seven bits make, the lowest one first. -/
def groupsValue : List Byte → Nat
  | [] => 0
  | b :: bs => b.toNat % 128 + 128 * groupsValue bs

/-- A final group has been seen, or as many groups as are looked at. -/
def Finished (rounds : Nat) (bs : List Byte) : Prop := bs.length = rounds ∨ ∃ b ∈ bs, b.toNat < 0x80

instance (rounds : Nat) (bs : List Byte) : Decidable (Finished rounds bs) := inferInstanceAs (Decidable (_ ∨ _))

theorem finished_cons {rounds : Nat} {b : Byte} {bs : List Byte} (hb : ¬ b.toNat < 0x80) :
    Finished (rounds + 1) (b :: bs) ↔ Finished rounds bs := by
  unfold Finished
  simp [hb]

theorem groups_append (rounds : Nat) (bs : List Byte) : ∃ rest, bs = groups rounds bs ++ rest := by
  induction rounds generalizing bs with
  | zero => exact ⟨bs, rfl⟩
  | succ rounds ih =>
    cases bs with
    | nil => exact ⟨[], rfl⟩
    | cons b bs =>
      unfold groups
      split
      · exact ⟨bs, rfl⟩
      · obtain ⟨rest, hrest⟩ := ih bs
        exact ⟨rest, congrArg (b :: ·) hrest⟩

theorem length_groups_le (rounds : Nat) (bs : List Byte) : (groups rounds bs).length ≤ rounds := by
  induction rounds generalizing bs with
  | zero => exact Nat.le_refl 0
  | succ rounds ih =>
    cases bs with
    | nil => exact Nat.zero_le _
    | cons b bs =>
      unfold groups
      split
      · exact Nat.succ_le_succ (Nat.zero_le _)
      · exact Nat.succ_le_succ (ih bs)

theorem length_groups_pos (rounds : Nat) (b : Byte) (bs : List Byte) : 0 < (groups (rounds + 1) (b :: bs)).length := by
  unfold groups
  split <;> simp

/-- Where the decoder is not finished the bytes have run out. -/
theorem groups_eq_self {rounds : Nat} {bs : List Byte} (h : ¬ Finished rounds (groups rounds bs)) :
    groups rounds bs = bs := by
  induction rounds generalizing bs with
  | zero => exact absurd (.inl rfl) h
  | succ rounds ih =>
    cases bs with
    | nil => rfl
    | cons b bs =>
      unfold groups at h ⊢
      split
      · rename_i hfinal
        rw [if_pos hfinal] at h
        exact absurd (.inr ⟨b, List.mem_singleton_self b, hfinal⟩) h
      · rename_i hflag
        rw [if_neg hflag, finished_cons hflag] at h
        rw [ih h]

private theorem toNat_and_seven_ones (b : Byte) : (b &&& 0x7f#8).toNat = b.toNat % 128 := by
  have hones : (0x7f#8).toNat = 2 ^ 7 - 1 := rfl
  rw [BitVec.toNat_and, hones, Nat.and_two_pow_sub_one_eq_mod]

/-- A group that is ORed in above what is there is added, modulo the width. -/
theorem ofNat_or_shiftLeft {acc shift : Nat} (h : acc < 2 ^ shift) (c : Byte) :
    BitVec.ofNat w acc ||| (c.setWidth w <<< shift) = BitVec.ofNat w (acc + 2 ^ shift * c.toNat) := by
  apply BitVec.eq_of_getLsbD_eq
  intro i hi
  rw [BitVec.getLsbD_or, BitVec.getLsbD_ofNat, BitVec.getLsbD_shiftLeft, BitVec.getLsbD_setWidth, BitVec.getLsbD_ofNat,
    Nat.add_comm, Nat.testBit_two_pow_mul_add _ h]
  by_cases hlow : i < shift
  · simp [hi, hlow]
  · have hzero : acc.testBit i = false :=
      Nat.testBit_lt_two_pow (Nat.lt_of_lt_of_le h (Nat.pow_le_pow_right (by omega) (by omega)))
    simp [hi, hlow, hzero, show i - shift < w by omega, BitVec.testBit_toNat]

theorem ofNat_or_group {acc shift : Nat} (h : acc < 2 ^ shift) (b : Byte) :
    BitVec.ofNat w acc ||| ((b &&& 0x7f#8).setWidth w <<< shift) =
      BitVec.ofNat w (acc + 2 ^ shift * (b.toNat % 128)) := by
  rw [ofNat_or_shiftLeft h, toNat_and_seven_ones]

theorem groupsValue_last {b : Byte} (h : b.toNat < 0x80) : groupsValue [b] = b.toNat := by
  rw [groupsValue, groupsValue]
  omega

/-- One more group reaches seven bits further. -/
theorem add_group_lt {acc shift : Nat} (h : acc < 2 ^ shift) (n : Nat) :
    acc + 2 ^ shift * (n % 128) < 2 ^ (shift + 7) := by
  have hgroup : 2 ^ shift * (n % 128) ≤ 2 ^ shift * 127 := Nat.mul_le_mul_left _ (by omega)
  rw [Nat.pow_add]
  omega

/-- A group below others, and those seven bits further up. -/
theorem add_groupsValue (acc shift : Nat) (b : Byte) (bs : List Byte) :
    acc + 2 ^ shift * (b.toNat % 128) + 2 ^ (shift + 7) * groupsValue bs = acc + 2 ^ shift * groupsValue (b :: bs) := by
  rw [groupsValue, Nat.pow_add, Nat.mul_add, Nat.mul_assoc, Nat.add_assoc]

/-- The flag does not count. -/
private theorem flagged_mod (hw : 8 ≤ w) (v : BitVec w) :
    (((v &&& 0x7f#w) ||| 0x80#w).setWidth 8).toNat % 128 = v.toNat % 128 := by
  have hsame := congrArg BitVec.toNat (group_of_flagged hw v)
  have hword : 2 ^ 8 ≤ 2 ^ w := Nat.pow_le_pow_right (by omega) hw
  have hones : (0x7f#w).toNat = 2 ^ 7 - 1 := by
    rw [BitVec.toNat_ofNat]
    exact Nat.mod_eq_of_lt (by omega)
  have hsmall := Nat.mod_lt (((v &&& 0x7f#w) ||| 0x80#w).setWidth 8).toNat (show 0 < 128 by decide)
  rw [BitVec.toNat_setWidth, toNat_and_seven_ones, BitVec.toNat_and, hones, Nat.and_two_pow_sub_one_eq_mod,
    Nat.mod_eq_of_lt (show _ < 2 ^ w by omega)] at hsame
  exact hsame

private theorem groups_last {v : BitVec w} (hsmall : v.toNat < 0x80) (rest : List Byte) {rounds : Nat}
    (hrounds : 0 < rounds) :
    groups rounds ([v.setWidth 8] ++ rest) = [v.setWidth 8] ∧ groupsValue [v.setWidth 8] = v.toNat ∧
      Finished rounds [v.setWidth 8] := by
  obtain ⟨k, rfl⟩ : ∃ k, rounds = k + 1 := ⟨rounds - 1, by omega⟩
  obtain ⟨h8, -⟩ := setWidth_of_lt hsmall
  have hlast : (v.setWidth 8).toNat < 0x80 := by rw [h8]; exact hsmall
  refine ⟨?_, ?_, .inr ⟨v.setWidth 8, List.mem_singleton_self _, hlast⟩⟩
  · rw [List.singleton_append, groups, if_pos hlast]
  · rw [groupsValue_last hlast, h8]

private theorem groups_varintLoop (hw : 8 ≤ w) (rest : List Byte) (fuel rounds : Nat) (v : BitVec w)
    (hfuel : v.toNat < 2 ^ (7 * (fuel + 1))) (hrounds : (varintLoop fuel v).length ≤ rounds) :
    groups rounds (varintLoop fuel v ++ rest) = varintLoop fuel v ∧ groupsValue (varintLoop fuel v) = v.toNat ∧
      Finished rounds (varintLoop fuel v) := by
  induction fuel generalizing rounds v with
  | zero => exact groups_last (by omega) rest hrounds
  | succ fuel ih =>
    unfold varintLoop at hrounds ⊢
    split at hrounds
    · rename_i hbig
      rw [List.length_cons] at hrounds
      obtain ⟨k, rfl⟩ : ∃ k, rounds = k + 1 := ⟨rounds - 1, by omega⟩
      have hshift : (v >>> 7).toNat < 2 ^ (7 * (fuel + 1)) := by
        have hpow : 2 ^ (7 * (fuel + 1 + 1)) = 128 * 2 ^ (7 * (fuel + 1)) := by
          rw [Nat.mul_add 7 (fuel + 1), Nat.pow_add]
          omega
        rw [toNat_shiftRight_seven]
        exact Nat.div_lt_of_lt_mul (by omega)
      have hflag := flagged_ge hw v
      obtain ⟨hgroups, hvalue, hfinished⟩ := ih k (v >>> 7) hshift (by omega)
      rw [if_pos hbig]
      refine ⟨?_, ?_, (finished_cons (by omega)).2 hfinished⟩
      · rw [List.cons_append, groups, if_neg (by omega), hgroups]
      · rw [groupsValue, flagged_mod hw, hvalue, toNat_shiftRight_seven]
        omega
    · rename_i hsmall
      rw [if_neg hsmall]
      exact groups_last (by omega) rest hrounds

/-- A decoder that may look at enough bytes looks at those of a varint, and at no more. -/
theorem groups_varint (hw : 8 ≤ w) (v : BitVec w) {rounds : Nat} (hrounds : (varint v).length ≤ rounds)
    (rest : List Byte) :
    groups rounds (varint v ++ rest) = varint v ∧ groupsValue (varint v) = v.toNat ∧ Finished rounds (varint v) := by
  have hlt := v.isLt
  have hpow : 2 ^ w ≤ 2 ^ (7 * (w + 1)) := Nat.pow_le_pow_right (by omega) (by omega)
  exact groups_varintLoop hw rest w rounds v (by omega) hrounds

end AcidCompute

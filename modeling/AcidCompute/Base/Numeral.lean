import AcidCompute.Base.Text
import Mathlib.Data.Nat.Digits.Defs

/-!
# Numerals

The text of a natural number in a base up to 16 (`numeral`), in lower case, and the value of a string of digits, capital
letters included (`valueOf`).
-/

namespace AcidCompute

/-- The value of an ASCII digit. -/
def hexValue (c : Byte) : Option Nat :=
  if 48 ≤ c.toNat ∧ c.toNat ≤ 57 then some (c.toNat - 48)
  else if 97 ≤ c.toNat ∧ c.toNat ≤ 102 then some (c.toNat - 87)
  else if 65 ≤ c.toNat ∧ c.toNat ≤ 70 then some (c.toNat - 55)
  else none

def digitValue (base : Nat) (c : Byte) : Option Nat := (hexValue c).filter fun d => d < base

def isDigit (base : Nat) (c : Byte) : Bool := (digitValue base c).isSome

def digitByte (d : Nat) : Byte := BitVec.ofNat 8 (if d < 10 then 48 + d else 87 + d)

/-- The text of a number, without zeros in front. -/
def numeral (base n : Nat) : List Byte :=
  if n = 0 then [48] else (Nat.digits base n).reverse.map digitByte

/-- A number with its sign. -/
def intText (i : Int) : List Byte := (if i < 0 then bytes "-" else []) ++ numeral 10 i.natAbs

def valueOf (base : Nat) (s : List Byte) : Nat :=
  Nat.ofDigits base (s.reverse.map fun c => (digitValue base c).getD 0)

/-- Some digits and nothing else. -/
def IsNumeral (base : Nat) (s : List Byte) : Prop := s ≠ [] ∧ ∀ c ∈ s, isDigit base c = true

instance (base : Nat) (s : List Byte) : Decidable (IsNumeral base s) := inferInstanceAs (Decidable (_ ∧ _))

/-- The value of a string, if it is a numeral. -/
def ofNumeral (base : Nat) (s : List Byte) : Option Nat := if IsNumeral base s then some (valueOf base s) else none

variable {base : Nat}

theorem hexValue_digitByte {d : Nat} (h : d < 16) : hexValue (digitByte d) = some d := by
  have hall : ∀ d < 16, hexValue (digitByte d) = some d := by decide
  exact hall d h

theorem digitValue_digitByte {d : Nat} (hbase : base ≤ 16) (h : d < base) : digitValue base (digitByte d) = some d := by
  rw [digitValue, hexValue_digitByte (by omega)]
  simp [h]

theorem isDigit_digitByte {d : Nat} (hbase : base ≤ 16) (h : d < base) : isDigit base (digitByte d) = true := by
  rw [isDigit, digitValue_digitByte hbase h]
  rfl

theorem numeral_ne_nil (n : Nat) : numeral base n ≠ [] := by
  unfold numeral
  split
  · simp
  · rename_i hn
    simpa using Nat.digits_ne_nil_iff_ne_zero.2 hn

theorem isNumeral_numeral (hbase : 1 < base) (hle : base ≤ 16) (n : Nat) : IsNumeral base (numeral base n) := by
  refine ⟨numeral_ne_nil n, fun c hc => ?_⟩
  unfold numeral at hc
  split at hc
  · rw [List.mem_singleton.1 hc]
    exact isDigit_digitByte hle (Nat.lt_of_succ_lt hbase)
  · obtain ⟨d, hd, rfl⟩ := List.mem_map.1 hc
    exact isDigit_digitByte hle (Nat.digits_lt_base hbase (List.mem_reverse.1 hd))

/-- The value of the text of a number is the number. -/
theorem valueOf_numeral (hbase : 1 < base) (hle : base ≤ 16) (n : Nat) : valueOf base (numeral base n) = n := by
  unfold valueOf numeral
  split
  · rename_i hn
    have hzero : digitValue base 48#8 = some 0 := digitValue_digitByte hle (Nat.lt_of_succ_lt hbase)
    simp [hn, hzero]
  · have hdigits : ((Nat.digits base n).reverse.map digitByte).reverse.map (fun c => (digitValue base c).getD 0) =
        Nat.digits base n := by
      rw [← List.map_reverse, List.reverse_reverse, List.map_map]
      conv => rhs; rw [← List.map_id (Nat.digits base n)]
      apply List.map_congr_left
      intro d hd
      simp [digitValue_digitByte hle (Nat.digits_lt_base hbase hd)]
    rw [hdigits, Nat.ofDigits_digits]

theorem ofNumeral_numeral (hbase : 1 < base) (hle : base ≤ 16) (n : Nat) :
    ofNumeral base (numeral base n) = some n := by
  rw [ofNumeral, if_pos (isNumeral_numeral hbase hle n), valueOf_numeral hbase hle]

end AcidCompute

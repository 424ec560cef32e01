import AcidCompute.Base.Numeral
import AcidCompute.Config.Var
import Mathlib.Data.List.TakeWhile

/-!
# Numbers from text (`acid/common/lexical_cast.h`, `ConfigVar::from_string` in `acid/common/config.h`)

`Converter<unsigned int>` and `Converter<unsigned long>` take the value of `std::stoul`, which accepts a minus sign and
returns an `unsigned long`, so that a number that does not fit the type comes out as another one.

A variable gets the number that its text denotes, or keeps its value, just if the number fits the type or does not even
fit an `unsigned long` (`ConfigVar.fromString_iff`).
-/

namespace AcidCompute

-- `isspace`
def isSpace (c : Byte) : Bool := c.toNat = 32 ∨ 9 ≤ c.toNat ∧ c.toNat ≤ 13

/-- The sign in front of a number, if there is one, and the rest. -/
def splitSign : List Byte → Bool × List Byte
  | c :: s => if c = 45 then (true, s) else if c = 43 then (false, s) else (false, c :: s)
  | [] => (false, [])

/-- `std::stoul(str)`, which throws where nothing is returned: `std::invalid_argument` without a digit, and
`std::out_of_range` where the digits have a value above `ULONG_MAX`.  A number with a minus sign is negated as an
`unsigned long`. -/
def stoul (str : List Byte) : Option (BitVec 64) :=
  let number := splitSign (str.dropWhile isSpace)
  let digits := number.2.takeWhile (isDigit 10)
  if digits = [] then none
  else if valueOf 10 digits < 2 ^ 64 then
    some (if number.1 then -BitVec.ofNat 64 (valueOf 10 digits) else BitVec.ofNat 64 (valueOf 10 digits))
  else none

namespace Converter

/-- `Converter<unsigned int>::convert` -/
def unsignedInt (str : List Byte) : Option (BitVec 32) := (stoul str).map fun value => value.setWidth 32

/-- `Converter<unsigned long>::convert` -/
def unsignedLong (str : List Byte) : Option (BitVec 64) := stoul str

end Converter

/-! ### Decimal numbers -/

/-- The text is a decimal number, with a sign or without. -/
inductive Denotes : List Byte → Int → Prop
  | plain {digits} (h : IsNumeral 10 digits) : Denotes digits (valueOf 10 digits)
  | plus {digits} (h : IsNumeral 10 digits) : Denotes (43 :: digits) (valueOf 10 digits)
  | minus {digits} (h : IsNumeral 10 digits) : Denotes (45 :: digits) (-(valueOf 10 digits : Int))

private theorem digit_bounds {c : Byte} (h : isDigit 10 c = true) : 48 ≤ c.toNat ∧ c.toNat ≤ 57 := by
  by_contra hnot
  unfold isDigit digitValue hexValue at h
  rw [if_neg hnot] at h
  split at h
  · simp [Option.filter] at h
    omega
  · split at h
    · simp [Option.filter] at h
      omega
    · cases h

/-- The digits of a number are found behind its sign. -/
theorem number_of_denotes {text : List Byte} {n : Int} (h : Denotes text n) : ∃ digits negative,
    splitSign (text.dropWhile isSpace) = (negative, digits) ∧ digits.takeWhile (isDigit 10) = digits ∧ digits ≠ [] ∧
      n = if negative then -(valueOf 10 digits : Int) else valueOf 10 digits := by
  have hdigits : ∀ {digits : List Byte}, IsNumeral 10 digits → digits.takeWhile (isDigit 10) = digits :=
    fun h => List.takeWhile_eq_self_iff.2 h.2
  cases h with
  | plain h =>
    cases text with
    | nil => exact absurd rfl h.1
    | cons c text =>
      obtain ⟨hlow, hhigh⟩ := digit_bounds (h.2 c List.mem_cons_self)
      have hspace : isSpace c = false := by simp [isSpace]; omega
      have hminus : c ≠ 45#8 := by
        rintro rfl
        exact absurd hlow (by decide)
      have hplus : c ≠ 43#8 := by
        rintro rfl
        exact absurd hlow (by decide)
      refine ⟨c :: text, false, ?_, hdigits h, h.1, rfl⟩
      simp [List.dropWhile, hspace, splitSign, hminus, hplus]
  | @plus digits h => exact ⟨digits, false, rfl, hdigits h, h.1, rfl⟩
  | @minus digits h => exact ⟨digits, true, rfl, hdigits h, h.1, rfl⟩

/-- `std::stoul` throws for a number from `2 ^ 64` on, whatever its sign, and takes all others modulo `2 ^ 64`. -/
theorem stoul_of_denotes {text : List Byte} {n : Int} (h : Denotes text n) :
    stoul text = if n.natAbs < 2 ^ 64 then some (BitVec.ofInt 64 n) else none := by
  obtain ⟨digits, negative, hsplit, hall, hne, rfl⟩ := number_of_denotes h
  simp only [stoul, hsplit, hall, if_neg hne]
  cases negative with
  | true => simp [BitVec.ofInt_neg]
  | false => simp

namespace ConfigVar

variable {τ : Type} [DecidableEq τ]

/-- `set_value`, while no other thread is in it. -/
def setValue (s : State τ) (value : τ) : State τ :=
  if value = s.val then s
  else { s.callAll value with val := value, history := .stored value :: (s.callAll value).history }

/-- `from_string(val)`, with the value that it returns; `FromStr` throws where it returns nothing. -/
def fromString (fromStr : List Byte → Option τ) (s : State τ) (val : List Byte) : Bool × State τ :=
  match fromStr val with
  | some value => (true, setValue s value)
  | none => (false, s)

/-- A thread that runs alone does this in its two sections. -/
theorem reaches_of_setValue {start : τ} {s : State τ} {t : Nat} (hout : s.setters t = .outside) (value : τ) :
    (machine start).Reaches Machine.any s (setValue s value) := by
  let s₁ := s.setSetter t (.entering value)
  have hentering : s₁.setters t = .entering value := setSetter_self _
  have hback : Function.update s.setters t .outside = s.setters := by
    rw [← hout, Function.update_eq_self]
  refine Machine.Reaches.head (e := .setValue t value) trivial (step_eq_some.2 ⟨hout, rfl⟩) ?_
  by_cases heq : value = s.val
  · have hnotify : next s₁ (.notify t value) = setValue s value := by
      simp [next, s₁, heq, setValue, State.setSetter, hback]
    exact Machine.Reaches.single (e := .notify t value) trivial (step_eq_some.2 ⟨hentering, hnotify⟩)
  · have hnotify : next s₁ (.notify t value) = (s₁.callAll value).setSetter t (.between value) := if_neg heq
    have hstore : next ((s₁.callAll value).setSetter t (.between value)) (.store t value) = setValue s value := by
      simp [next, s₁, heq, setValue, State.setSetter, State.callAll, hback]
    refine Machine.Reaches.head (e := .notify t value) trivial (step_eq_some.2 ⟨hentering, hnotify⟩) ?_
    exact Machine.Reaches.single (e := .store t value) trivial (step_eq_some.2 ⟨setSetter_self _, hstore⟩)

/-- A call gives a variable the value `n` and calls the listeners if it is a new one, or refuses and changes nothing. -/
def Exact {w : Nat} (n : Int) (s : State (BitVec w)) (r : Bool × State (BitVec w)) : Prop :=
  (r.1 = true ∧ (r.2.val.toNat : Int) = n ∧ r.2.callbacks = s.callbacks ∧
    r.2.history = (if r.2.val = s.val then []
      else .stored r.2.val :: (s.callbacks.map fun i => .called i s.val r.2.val).reverse) ++ s.history) ∨
  r = (false, s)

/-- It is the conversion that decides. -/
theorem exact_fromString_iff {w : Nat} {fromStr : List Byte → Option (BitVec w)} {s : State (BitVec w)}
    {text : List Byte} {n : Int} :
    Exact n s (fromString fromStr s text) ↔ ∀ value, fromStr text = some value → (value.toNat : Int) = n := by
  unfold fromString
  cases hvalue : fromStr text with
  | none => exact iff_of_true (.inr rfl) fun value h => by cases h
  | some value =>
    by_cases heq : value = s.val
    · subst heq
      simp [Exact, setValue]
    · simp [Exact, setValue, heq, State.callAll]

private theorem toNat_ofInt_iff {n : Int} (h : n.natAbs < 2 ^ 64) :
    ((BitVec.ofInt 64 n).toNat : Int) = n ↔ 0 ≤ n := by
  rw [BitVec.toNat_ofInt]
  omega

private theorem toNat_setWidth_ofInt_iff {n : Int} :
    (((BitVec.ofInt 64 n).setWidth 32).toNat : Int) = n ↔ 0 ≤ n ∧ n < 2 ^ 32 := by
  rw [BitVec.toNat_setWidth, BitVec.toNat_ofInt]
  omega

/-- The text of a number sets a variable to this number or leaves it just if the number fits the type, or if it is so
large that `std::stoul` throws. -/
theorem fromString_iff {text : List Byte} {n : Int} (h : Denotes text n) :
    (∀ s : State (BitVec 32), Exact n s (fromString Converter.unsignedInt s text) ↔
        0 ≤ n ∧ n < 2 ^ 32 ∨ 2 ^ 64 ≤ n.natAbs) ∧
      ∀ s : State (BitVec 64), Exact n s (fromString Converter.unsignedLong s text) ↔ 0 ≤ n ∨ 2 ^ 64 ≤ n.natAbs := by
  have hstoul := stoul_of_denotes h
  by_cases hfits : n.natAbs < 2 ^ 64
  · rw [if_pos hfits] at hstoul
    constructor
    · intro s
      rw [exact_fromString_iff, Converter.unsignedInt, hstoul]
      simp only [Option.map_some, Option.some.injEq, forall_eq', toNat_setWidth_ofInt_iff]
      omega
    · intro s
      rw [exact_fromString_iff, Converter.unsignedLong, hstoul]
      simp only [Option.some.injEq, forall_eq', toNat_ofInt_iff hfits]
      omega
  · rw [if_neg hfits] at hstoul
    constructor
    · intro s
      rw [exact_fromString_iff, Converter.unsignedInt, hstoul]
      exact iff_of_true (fun value hvalue => by cases hvalue) (.inr (Nat.le_of_not_lt hfits))
    · intro s
      rw [exact_fromString_iff, Converter.unsignedLong, hstoul]
      exact iff_of_true (fun value hvalue => by cases hvalue) (.inr (Nat.le_of_not_lt hfits))

-- `4294967301`
private def overflow : List Byte := [52, 50, 57, 52, 57, 54, 55, 51, 48, 49]

private theorem overflow_denotes : Denotes overflow 4294967301 := .plain (by decide)

/-- The text of 2 ^ 32 + 5 sets a variable to 5. -/
theorem not_exact_overflow : Denotes overflow 4294967301 ∧
    (fromString Converter.unsignedInt (new 0) overflow).1 = true ∧
      (fromString Converter.unsignedInt (new 0) overflow).2.val = 5 ∧
        ¬ Exact 4294967301 (new 0) (fromString Converter.unsignedInt (new 0) overflow) := by
  refine ⟨overflow_denotes, by decide, by decide, fun hexact => ?_⟩
  have hvalue := exact_fromString_iff.1 hexact 5 (by decide)
  revert hvalue
  decide

/-- `12` fits both types. -/
theorem fromString_iff_twelve : Exact 12 (new 0) (fromString Converter.unsignedInt (new 0) [49, 50]) ∧
    Exact 12 (new 0) (fromString Converter.unsignedLong (new 0) [49, 50]) := by
  have htwelve : Denotes [49, 50] 12 := .plain (by decide)
  exact ⟨((fromString_iff htwelve).1 (new 0)).2 (by decide), ((fromString_iff htwelve).2 (new 0)).2 (by decide)⟩

end ConfigVar

end AcidCompute

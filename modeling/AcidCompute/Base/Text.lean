import AcidCompute.Base.ByteOrder
import Mathlib.Data.List.DropRight

/-!
# Lines of text

A text is a list of bytes, and its lines are what stands between the line breaks `\r\n` (`textLines`).
-/

namespace AcidCompute

/-- The bytes of an ASCII literal. -/
def bytes (s : String) : List Byte := s.toList.map fun a => BitVec.ofNat 8 a.toNat

/-- `tolower` -/
def toLower (c : Byte) : Byte := if 65 ≤ c ∧ c ≤ 90 then c + 32 else c

def crlf : List Byte := [13, 10]

/-- The lines of a text, of which there is at least one. -/
def textLines : List Byte → List (List Byte)
  | [] => [[]]
  | [c] => [[c]]
  | c :: d :: s => if c = 13 ∧ d = 10 then [] :: textLines s else (textLines (d :: s)).modifyHead (c :: ·)

def isBlank (c : Byte) : Bool := c = 32 ∨ c = 9

/-- The text without the blanks at its ends. -/
def trim (s : List Byte) : List Byte := (s.dropWhile isBlank).rdropWhile isBlank

/-- There is no part of a line break in the text. -/
def SingleLine (s : List Byte) : Prop := ∀ c ∈ s, c ≠ 13 ∧ c ≠ 10

instance (s : List Byte) : Decidable (SingleLine s) := inferInstanceAs (Decidable (∀ c ∈ s, _))

theorem SingleLine.append {s t : List Byte} (hs : SingleLine s) (ht : SingleLine t) : SingleLine (s ++ t) := by
  intro c hc
  rcases List.mem_append.1 hc with hleft | hright
  · exact hs c hleft
  · exact ht c hright

/-- The first line ends at the first line break. -/
theorem textLines_append {s : List Byte} (hs : SingleLine s) (t : List Byte) :
    textLines (s ++ crlf ++ t) = s :: textLines t := by
  induction s with
  | nil => exact if_pos ⟨rfl, rfl⟩
  | cons c s ih =>
    have hc : c ≠ 13 := (hs c List.mem_cons_self).1
    have hrest := ih fun d hd => hs d (List.mem_cons_of_mem c hd)
    cases s with
    | nil =>
      rw [List.nil_append] at hrest
      simp only [crlf, List.cons_append, List.nil_append] at hrest ⊢
      rw [textLines, if_neg fun h => hc h.1, hrest]
      rfl
    | cons d s =>
      simp only [List.cons_append] at hrest ⊢
      rw [textLines, if_neg fun h => hc h.1, hrest]
      rfl

/-- Each line ends at its line break. -/
theorem textLines_flatMap {ls : List (List Byte)} (hls : ∀ s ∈ ls, SingleLine s) (t : List Byte) :
    textLines (ls.flatMap (· ++ crlf) ++ t) = ls ++ textLines t := by
  induction ls with
  | nil => rfl
  | cons s ls ih =>
    rw [List.forall_mem_cons] at hls
    rw [List.flatMap_cons, List.append_assoc, textLines_append hls.1, ih hls.2, List.cons_append]

theorem trim_eq_self {s : List Byte} (h : ∀ c ∈ s, isBlank c = false) : trim s = s := by
  have hfront : s.dropWhile isBlank = s := by
    cases s with
    | nil => rfl
    | cons c s => rw [List.dropWhile_cons_of_neg (by simp [h c List.mem_cons_self])]
  rw [trim, hfront, List.rdropWhile_eq_self_iff]
  intro hne
  simp [h _ (List.getLast_mem hne)]

theorem trim_cons_blank {c : Byte} (h : isBlank c = true) (s : List Byte) : trim (c :: s) = trim s := by
  rw [trim, trim, List.dropWhile_cons_of_pos h]

end AcidCompute

import AcidCompute.Base.Numeral
import Mathlib.Data.List.DropRight
import Mathlib.Data.Nat.Digits.Lemmas

/-!
# Addresses in groups

The text of an address of `n` groups of 16 bits has the groups in hexadecimal, with colons between them, where `::` may
stand once for one or more groups that are zero (`Expands`).  A text stands for one address only (`Expands.unique`).
-/

namespace AcidCompute

/-- One to four hexadecimal digits. -/
def IsGroup (g : List Byte) : Prop := IsNumeral 16 g ∧ g.length ≤ 4

/-- The groups with colons between them. -/
def joinGroups (gs : List (List Byte)) : List Byte := [58].intercalate gs

/-- A text that stands for the groups of an address. -/
inductive Expands (n : Nat) : List Byte → List Nat → Prop
  | full {gs : List (List Byte)} (hgs : ∀ g ∈ gs, IsGroup g) (hlength : gs.length = n) :
    Expands n (joinGroups gs) (gs.map (valueOf 16))
  | compressed {front back : List (List Byte)} (hfront : ∀ g ∈ front, IsGroup g) (hback : ∀ g ∈ back, IsGroup g)
    (hlength : front.length + back.length < n) :
    Expands n (joinGroups front ++ 58 :: 58 :: joinGroups back)
      (front.map (valueOf 16) ++ List.replicate (n - (front.length + back.length)) 0 ++ back.map (valueOf 16))

theorem joinGroups_concat {gs : List (List Byte)} (hne : gs ≠ []) (g : List Byte) :
    joinGroups (gs ++ [g]) = joinGroups gs ++ 58 :: g := by
  unfold joinGroups
  induction gs with
  | nil => exact absurd rfl hne
  | cons g' gs ih =>
    cases gs with
    | nil => simp
    | cons g'' gs => simpa using ih (List.cons_ne_nil _ _)

/-- A number of 16 bits has four digits at most. -/
theorem isGroup_numeral {v : Nat} (hv : v < 65536) : IsGroup (numeral 16 v) := by
  refine ⟨isNumeral_numeral (by decide) (by decide) v, ?_⟩
  unfold numeral
  split
  · decide
  · rw [List.length_map, List.length_reverse]
    exact (Nat.digits_length_le_iff (by decide) v).2 hv

private theorem mem_joinGroups {gs : List (List Byte)} {c : Byte} (hc : c ∈ joinGroups gs) :
    c = 58 ∨ ∃ g ∈ gs, c ∈ g := by
  unfold joinGroups at hc
  induction gs with
  | nil => cases hc
  | cons g gs ih =>
    cases gs with
    | nil =>
      rw [List.intercalate_singleton] at hc
      exact .inr ⟨g, List.mem_cons_self, hc⟩
    | cons g' gs =>
      rw [List.intercalate_cons_cons, List.mem_append, List.mem_append, List.mem_singleton] at hc
      rcases hc with (hg | hcolon) | hrest
      · exact .inr ⟨g, List.mem_cons_self, hg⟩
      · exact .inl hcolon
      · rcases ih hrest with hcolon | ⟨g'', hmem, hg⟩
        · exact .inl hcolon
        · exact .inr ⟨g'', List.mem_cons_of_mem _ hmem, hg⟩

/-- There is nothing else in a text than digits and colons. -/
theorem Expands.mem {n : Nat} {text : List Byte} {gs : List Nat} (h : Expands n text gs) {c : Byte} (hc : c ∈ text) :
    c = 58 ∨ isDigit 16 c = true := by
  have hjoin : ∀ {gs : List (List Byte)}, (∀ g ∈ gs, IsGroup g) → c ∈ joinGroups gs → c = 58 ∨ isDigit 16 c = true := by
    intro gs hgs hmem
    rcases mem_joinGroups hmem with hcolon | ⟨g, hg, hcg⟩
    · exact .inl hcolon
    · exact .inr ((hgs g hg).1.2 c hcg)
  cases h with
  | full hgs => exact hjoin hgs hc
  | compressed hfront hback =>
    rw [List.mem_append, List.mem_cons, List.mem_cons] at hc
    rcases hc with hmem | hcolon | hcolon | hmem
    · exact hjoin hfront hmem
    · exact .inl hcolon
    · exact .inl hcolon
    · exact hjoin hback hmem

/-! ### Reading a text -/

theorem IsGroup.ne_nil {g : List Byte} (h : IsGroup g) : g ≠ [] := h.1.1

theorem IsGroup.colon_notMem {g : List Byte} (h : IsGroup g) : 58 ∉ g := by
  intro hmem
  have hdigit := h.1.2 58 hmem
  revert hdigit
  decide

/-- The pieces of a text between its colons. -/
def pieces (gs : List (List Byte)) : List (List Byte) := if gs = [] then [[]] else gs

private theorem splitOn_joinGroups {gs : List (List Byte)} (hgs : ∀ g ∈ gs, IsGroup g) :
    (joinGroups gs).splitOn 58 = pieces gs := by
  unfold pieces
  split
  · rename_i hnil
    rw [hnil]
    rfl
  · rename_i hne
    exact List.splitOn_intercalate 58 (fun g hg => (hgs g hg).colon_notMem) hne

private theorem takeWhile_pieces {gs : List (List Byte)} (hgs : ∀ g ∈ gs, IsGroup g) (rest : List (List Byte)) :
    (pieces gs ++ [] :: rest).takeWhile (fun g => g ≠ []) = gs := by
  have hall : ∀ g ∈ gs, decide (g ≠ []) = true := fun g hg => decide_eq_true (hgs g hg).ne_nil
  unfold pieces
  split
  · rename_i hnil
    rw [hnil]
    rfl
  · rw [List.takeWhile_append_of_pos hall, List.takeWhile_cons_of_neg (by simp), List.append_nil]

private theorem reverse_pieces (gs : List (List Byte)) : (pieces gs).reverse = pieces gs.reverse := by
  unfold pieces
  by_cases hnil : gs = []
  · simp [hnil]
  · simp [hnil]

/-- The groups that a text stands for, if it stands for any. -/
def expand (n : Nat) (text : List Byte) : List Nat :=
  let ps := text.splitOn 58
  let front := ps.takeWhile fun g => g ≠ []
  let back := ps.rtakeWhile fun g => g ≠ []
  if ps.contains [] then
    front.map (valueOf 16) ++ List.replicate (n - (front.length + back.length)) 0 ++ back.map (valueOf 16)
  else ps.map (valueOf 16)

theorem Expands.eq_expand {n : Nat} (hn : 0 < n) {text : List Byte} {gs : List Nat} (h : Expands n text gs) :
    gs = expand n text := by
  cases h with
  | @full gs hgs hlength =>
    have hne : gs ≠ [] := by
      rintro rfl
      exact Nat.ne_of_lt hn hlength
    have hpieces : (joinGroups gs).splitOn 58 = gs := (splitOn_joinGroups hgs).trans (if_neg hne)
    have hnil : [] ∉ gs := fun hmem => (hgs [] hmem).ne_nil rfl
    rw [expand, hpieces]
    exact (if_neg fun hcontains => hnil (List.contains_iff_mem.1 hcontains)).symm
  | @compressed front back hfront hback hlength =>
    have hpieces : (joinGroups front ++ 58 :: 58 :: joinGroups back).splitOn 58 =
        pieces front ++ [] :: pieces back := by
      have hbehind : (58 :: joinGroups back).splitOn 58 = [] :: pieces back := by
        rw [← splitOn_joinGroups hback]
        have hnone : (58 : Byte) ∉ ([] : List Byte) := List.not_mem_nil
        exact List.splitOn_append_cons_self_of_not_mem hnone _
      rw [List.splitOn_append_cons_self, splitOn_joinGroups hfront, hbehind]
    have hreverse : (pieces front ++ [] :: pieces back).reverse =
        pieces back.reverse ++ [] :: (pieces front).reverse := by
      rw [List.reverse_append, List.reverse_cons, reverse_pieces back, List.append_assoc, List.singleton_append]
    have hlast : (pieces front ++ [] :: pieces back).rtakeWhile (fun g => g ≠ []) = back := by
      rw [List.rtakeWhile, hreverse, takeWhile_pieces (fun g hg => hback g (List.mem_reverse.1 hg)),
        List.reverse_reverse]
    have hcontains : (pieces front ++ [] :: pieces back).contains [] = true :=
      List.contains_iff_mem.2 (List.mem_append_right _ List.mem_cons_self)
    rw [expand, hpieces, takeWhile_pieces hfront, hlast, if_pos hcontains]

/-- A text stands for one address only. -/
theorem Expands.unique {n : Nat} (hn : 0 < n) {text : List Byte} {gs gs' : List Nat} (h : Expands n text gs)
    (h' : Expands n text gs') : gs = gs' := (h.eq_expand hn).trans (h'.eq_expand hn).symm

end AcidCompute

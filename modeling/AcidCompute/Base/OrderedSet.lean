import Mathlib.Data.List.Pairwise
import Mathlib.Data.List.Infix
import Mathlib.Order.Defs.Unbundled

/-!
# Ordered sets

A `std::set` is the list of its elements in the order of its comparator, and an iterator is a position in that list; the
position behind the last element is `end()`.  The operations search as the container does, by the comparator alone, so
that they find what is there only while the list is in order (`Sorted`).  The comparator is a parameter of each
operation: it may read objects that change.
-/

namespace AcidCompute

namespace OrderedSet

variable {α : Type} (r : α → α → Prop) [DecidableRel r]

/-- The position of the first element that is not less than `k`. -/
def lowerBound (k : α) (s : List α) : Nat := (s.takeWhile fun a => r a k).length

/-- The position of the element that is equivalent to `k`, or `end()`. -/
def find (k : α) (s : List α) : Nat :=
  match s[lowerBound r k s]? with
  | none => s.length
  | some a => if r k a then s.length else lowerBound r k s

/-- `erase(it)`; `end()` must not be erased. -/
def erase (it : Nat) (s : List α) : Option (List α) := if it < s.length then some (s.eraseIdx it) else none

/-- `insert(k)`: the set, and the position of the element that is equivalent to `k` in it. -/
def insert (k : α) (s : List α) : List α × Nat :=
  match s[lowerBound r k s]? with
  | none => (s ++ [k], s.length)
  | some a => if r k a then (s.insertIdx (lowerBound r k s) k, lowerBound r k s) else (s, lowerBound r k s)

/-- The elements are strictly increasing. -/
def Sorted (s : List α) : Prop := s.Pairwise r

variable {r} {k : α} {s : List α}

omit [DecidableRel r] in
theorem Sorted.nodup [Std.Irrefl r] (h : Sorted r s) : s.Nodup := by
  refine h.imp fun {a b} hab heq => ?_
  rw [heq] at hab
  exact Std.Irrefl.irrefl (r := r) b hab

omit [DecidableRel r] in
theorem sorted_cons {a : α} : Sorted r (a :: s) ↔ (∀ b ∈ s, r a b) ∧ Sorted r s := List.pairwise_cons

omit [DecidableRel r] in
theorem Sorted.filter (h : Sorted r s) (p : α → Bool) : Sorted r (s.filter p) := List.Pairwise.filter p h

/-! ### Lower bounds -/

theorem lowerBound_cons_of_lt {a : α} (h : r a k) : lowerBound r k (a :: s) = lowerBound r k s + 1 := by
  simp [lowerBound, h]

theorem lowerBound_cons_of_not_lt {a : α} (h : ¬ r a k) : lowerBound r k (a :: s) = 0 := by
  simp [lowerBound, h]

/-- In a set in order the lower bound separates the lesser elements from the others. -/
theorem take_lowerBound [IsTrans α r] (h : Sorted r s) : s.take (lowerBound r k s) = s.filter fun a => r a k := by
  induction s with
  | nil => rfl
  | cons a s ih =>
    obtain ⟨hfirst, hrest⟩ := sorted_cons.1 h
    by_cases hak : r a k
    · simp [lowerBound_cons_of_lt hak, hak, ih hrest]
    · have hnone : (a :: s).filter (fun b => r b k) = [] := by
        rw [List.filter_eq_nil_iff]
        intro b hb hbk
        rcases List.mem_cons.1 hb with rfl | hmem
        · exact hak (of_decide_eq_true hbk)
        · exact hak (IsTrans.trans a b k (hfirst b hmem) (of_decide_eq_true hbk))
      rw [lowerBound_cons_of_not_lt hak, hnone]
      rfl

theorem drop_lowerBound [IsTrans α r] (h : Sorted r s) :
    s.drop (lowerBound r k s) = s.filter fun a => ¬ r a k := by
  induction s with
  | nil => rfl
  | cons a s ih =>
    obtain ⟨hfirst, hrest⟩ := sorted_cons.1 h
    by_cases hak : r a k
    · simp [lowerBound_cons_of_lt hak, hak, ih hrest]
    · have hall : (a :: s).filter (fun b => ¬ r b k) = a :: s := by
        rw [List.filter_eq_self]
        intro b hb
        rcases List.mem_cons.1 hb with rfl | hmem
        · simpa using hak
        · simpa using fun hbk => hak (IsTrans.trans a b k (hfirst b hmem) hbk)
      rw [lowerBound_cons_of_not_lt hak, hall]
      rfl

/-! ### Searching and erasing -/

theorem getElem?_lowerBound [Std.Irrefl r] (h : Sorted r s) (hk : k ∈ s) : s[lowerBound r k s]? = some k := by
  induction s with
  | nil => cases hk
  | cons a s ih =>
    obtain ⟨hfirst, hrest⟩ := sorted_cons.1 h
    by_cases hak : r a k
    · have hmem : k ∈ s := by
        rcases List.mem_cons.1 hk with rfl | hmem
        · exact absurd hak (Std.Irrefl.irrefl k)
        · exact hmem
      simpa [lowerBound_cons_of_lt hak] using ih hrest hmem
    · obtain rfl : a = k := by
        rcases List.mem_cons.1 hk with rfl | hmem
        · rfl
        · exact absurd (hfirst k hmem) hak
      simp [lowerBound_cons_of_not_lt hak]

/-- What is in a set in order is found. -/
theorem getElem?_find [Std.Irrefl r] (h : Sorted r s) (hk : k ∈ s) : s[find r k s]? = some k := by
  have hbound := getElem?_lowerBound h hk
  simp only [find, hbound, if_neg (Std.Irrefl.irrefl (r := r) k)]

theorem find_lt_length [Std.Irrefl r] (h : Sorted r s) (hk : k ∈ s) : find r k s < s.length :=
  (List.getElem?_eq_some_iff.1 (getElem?_find h hk)).1

variable [DecidableEq α]

omit [DecidableRel r] in
private theorem eraseIdx_of_getElem? {i : Nat} (h : s.Nodup) (hi : s[i]? = some k) :
    s.eraseIdx i = s.filter fun a => a ≠ k := by
  induction s generalizing i with
  | nil => cases hi
  | cons a s ih =>
    obtain ⟨hnotin, hrest⟩ := List.nodup_cons.1 h
    cases i with
    | zero =>
      obtain rfl : a = k := by simpa using hi
      have hall : s.filter (fun b => b ≠ a) = s := by
        rw [List.filter_eq_self]
        intro b hb
        simpa using fun heq : b = a => hnotin (heq ▸ hb)
      simpa using hall.symm
    | succ i =>
      have hi' : s[i]? = some k := by simpa using hi
      have hne : a ≠ k := by
        rintro rfl
        exact hnotin (List.mem_of_getElem? hi')
      simp [ih hrest hi', hne]

/-- `erase(find(k))` takes `k`, and nothing else, out of a set in order. -/
theorem erase_find [Std.Irrefl r] (h : Sorted r s) (hk : k ∈ s) :
    erase (find r k s) s = some (s.filter fun a => a ≠ k) := by
  rw [erase, if_pos (find_lt_length h hk), eraseIdx_of_getElem? h.nodup (getElem?_find h hk)]

/-! ### Inserting -/

omit [DecidableEq α]

theorem insert_nil : insert r k [] = ([k], 0) := rfl

theorem insert_cons_of_lt {a : α} (h : r a k) :
    insert r k (a :: s) = (a :: (insert r k s).1, (insert r k s).2 + 1) := by
  unfold insert
  rw [lowerBound_cons_of_lt h, List.getElem?_cons_succ]
  cases s[lowerBound r k s]? with
  | none => rfl
  | some b => by_cases hkb : r k b <;> simp [hkb]

theorem insert_cons_of_not_lt {a : α} (h : ¬ r a k) :
    insert r k (a :: s) = (if r k a then k :: a :: s else a :: s, 0) := by
  unfold insert
  rw [lowerBound_cons_of_not_lt h]
  by_cases hka : r k a <;> simp [hka]

theorem mem_insert [Std.Trichotomous r] {x : α} : x ∈ (insert r k s).1 ↔ x = k ∨ x ∈ s := by
  induction s with
  | nil => simp [insert_nil]
  | cons a s ih =>
    by_cases hak : r a k
    · simp only [insert_cons_of_lt hak, List.mem_cons, ih]
      exact or_left_comm
    · by_cases hka : r k a
      · simp [insert_cons_of_not_lt hak, hka]
      · obtain rfl : a = k := Std.Trichotomous.trichotomous a k hak hka
        simp [insert_cons_of_not_lt hak, hka]

/-- A set stays in order. -/
theorem Sorted.insert [Std.Trichotomous r] [IsTrans α r] (h : Sorted r s) :
    Sorted r (OrderedSet.insert r k s).1 := by
  induction s with
  | nil => exact List.pairwise_singleton r k
  | cons a s ih =>
    obtain ⟨hfirst, hrest⟩ := sorted_cons.1 h
    by_cases hak : r a k
    · rw [insert_cons_of_lt hak]
      refine sorted_cons.2 ⟨?_, ih hrest⟩
      intro b hb
      rcases mem_insert.1 hb with rfl | hmem
      · exact hak
      · exact hfirst b hmem
    · rw [insert_cons_of_not_lt hak]
      by_cases hka : r k a
      · simp only [if_pos hka]
        refine sorted_cons.2 ⟨?_, h⟩
        intro b hb
        rcases List.mem_cons.1 hb with rfl | hmem
        · exact hka
        · exact IsTrans.trans k a b hka (hfirst b hmem)
      · simp only [if_neg hka]
        exact h

end OrderedSet

end AcidCompute

import AcidCompute.Base.Comparison

/-!
# Containers of the standard library

A container is kept as the list of its elements in iteration order, together with what its kind promises about that
list: sorted without equivalent elements, sorted, or without equal elements.  Emplacing keeps the promise, and
emplacing the elements of a container one after another into an empty one of the same kind gives the container back
(`refill_items`).

Where a hash container puts a new element depends on its table; here it comes last, so that two hash containers are to
be compared up to the order of their elements.
-/

namespace AcidCompute

/-- How a container places a new element. -/
inductive Discipline
  | sequence
  | ordered
  | orderedMulti
  | unordered
  | unorderedMulti
  deriving DecidableEq, Repr

namespace Discipline

variable {α : Type} (C : Comparison α)

/-- What holds between an element and any later one. -/
def Before : Discipline → α → α → Prop
  | .sequence, _, _ => True
  | .ordered, a, b => C.Less a b
  | .orderedMulti, a, b => ¬ C.Less b a
  | .unordered, a, b => ¬ C.Equal a b
  | .unorderedMulti, _, _ => True

instance (d : Discipline) (a b : α) : Decidable (d.Before C a b) := by
  cases d <;> unfold Before <;> infer_instance

/-- Insertion before the first greater element, unless an equivalent one comes first. -/
def insertUnique (v : α) : List α → List α
  | [] => [v]
  | a :: l => if C.Less v a then v :: a :: l else if C.Less a v then a :: insertUnique v l else a :: l

/-- Insertion before the first greater element. -/
def insertUpper (v : α) : List α → List α
  | [] => [v]
  | a :: l => if C.Less v a then v :: a :: l else a :: insertUpper v l

/-- `emplace`, or `emplace_back` for a sequence. -/
def emplace (d : Discipline) (v : α) (l : List α) : List α :=
  match d with
  | .sequence | .unorderedMulti => l ++ [v]
  | .ordered => insertUnique C v l
  | .orderedMulti => insertUpper C v l
  | .unordered => if l.any fun a => C.Equal a v then l else l ++ [v]

variable {C}

private theorem mem_insertUnique {v x : α} {l : List α} (h : x ∈ insertUnique C v l) : x = v ∨ x ∈ l := by
  induction l with
  | nil => exact .inl (List.mem_singleton.1 h)
  | cons a l ih =>
    unfold insertUnique at h
    split at h
    · simpa using h
    · split at h
      · rcases List.mem_cons.1 h with rfl | h
        · exact .inr (List.mem_cons_self)
        · exact (ih h).imp_right (List.mem_cons_of_mem a)
      · exact .inr h

private theorem mem_insertUpper {v x : α} {l : List α} (h : x ∈ insertUpper C v l) : x = v ∨ x ∈ l := by
  induction l with
  | nil => exact .inl (List.mem_singleton.1 h)
  | cons a l ih =>
    unfold insertUpper at h
    split at h
    · simpa using h
    · rcases List.mem_cons.1 h with rfl | h
      · exact .inr (List.mem_cons_self)
      · exact (ih h).imp_right (List.mem_cons_of_mem a)

/-- Nothing but the new element comes in. -/
theorem mem_emplace {d : Discipline} {v x : α} {l : List α} (h : x ∈ d.emplace C v l) : x = v ∨ x ∈ l := by
  cases d with
  | sequence => simpa [emplace, or_comm] using h
  | ordered => exact mem_insertUnique h
  | orderedMulti => exact mem_insertUpper h
  | unordered =>
    simp only [emplace] at h
    split at h
    · exact .inr h
    · simpa [or_comm] using h
  | unorderedMulti => simpa [emplace, or_comm] using h

private theorem length_insertUnique_le (C : Comparison α) (v : α) (l : List α) :
    (insertUnique C v l).length ≤ l.length + 1 := by
  induction l with
  | nil => simp [insertUnique]
  | cons a l ih =>
    unfold insertUnique
    split
    · simp
    · split
      · simpa using ih
      · simp

private theorem length_insertUpper (C : Comparison α) (v : α) (l : List α) :
    (insertUpper C v l).length = l.length + 1 := by
  induction l with
  | nil => rfl
  | cons a l ih =>
    unfold insertUpper
    split
    · rfl
    · simpa using ih

theorem length_emplace_le (C : Comparison α) (d : Discipline) (v : α) (l : List α) :
    (d.emplace C v l).length ≤ l.length + 1 := by
  cases d with
  | sequence | unorderedMulti => simp [emplace]
  | ordered => exact length_insertUnique_le C v l
  | orderedMulti => exact Nat.le_of_eq (length_insertUpper C v l)
  | unordered =>
    unfold emplace
    dsimp only
    split <;> simp

private theorem pairwise_insertUnique {v : α} {l : List α} (h : l.Pairwise C.Less) :
    (insertUnique C v l).Pairwise C.Less := by
  induction l with
  | nil => exact List.pairwise_singleton _ _
  | cons a l ih =>
    obtain ⟨ha, hl⟩ := List.pairwise_cons.1 h
    unfold insertUnique
    split
    · rename_i hva
      refine List.pairwise_cons.2 ⟨?_, h⟩
      intro x hx
      rcases List.mem_cons.1 hx with rfl | hx
      · exact hva
      · exact hva.trans (ha x hx)
    · split
      · rename_i hav
        refine List.pairwise_cons.2 ⟨?_, ih hl⟩
        intro x hx
        rcases mem_insertUnique hx with rfl | hx
        · exact hav
        · exact ha x hx
      · exact h

private theorem pairwise_insertUpper {v : α} {l : List α} (h : l.Pairwise fun a b => ¬ C.Less b a) :
    (insertUpper C v l).Pairwise fun a b => ¬ C.Less b a := by
  induction l with
  | nil => exact List.pairwise_singleton _ _
  | cons a l ih =>
    obtain ⟨ha, hl⟩ := List.pairwise_cons.1 h
    unfold insertUpper
    split
    · rename_i hva
      refine List.pairwise_cons.2 ⟨?_, h⟩
      intro x hx hxv
      rcases List.mem_cons.1 hx with rfl | hx
      · exact hva.asymm hxv
      · exact ha x hx (hxv.trans hva)
    · rename_i hva
      refine List.pairwise_cons.2 ⟨?_, ih hl⟩
      intro x hx
      rcases mem_insertUpper hx with rfl | hx
      · exact hva
      · exact ha x hx

/-- Emplacing keeps what the container promises. -/
theorem pairwise_emplace {d : Discipline} {v : α} {l : List α} (h : l.Pairwise (d.Before C)) :
    (d.emplace C v l).Pairwise (d.Before C) := by
  cases d with
  | sequence | unorderedMulti => exact List.pairwise_of_forall fun _ _ => trivial
  | ordered => exact pairwise_insertUnique h
  | orderedMulti => exact pairwise_insertUpper h
  | unordered =>
    unfold emplace
    dsimp only
    split
    · exact h
    · rename_i hnone
      refine List.pairwise_append.2 ⟨h, List.pairwise_singleton _ _, ?_⟩
      intro a ha b hb heq
      obtain rfl := List.mem_singleton.1 hb
      exact hnone (List.any_eq_true.2 ⟨a, ha, by simpa using heq⟩)

/-- An element that may come after all the others is put there. -/
theorem emplace_last {d : Discipline} {v : α} {l : List α} (h : ∀ a ∈ l, d.Before C a v) :
    d.emplace C v l = l ++ [v] := by
  cases d with
  | sequence | unorderedMulti => rfl
  | ordered =>
    show insertUnique C v l = _
    induction l with
    | nil => rfl
    | cons a l ih =>
      have hav : C.Less a v := h a List.mem_cons_self
      rw [insertUnique, if_neg hav.asymm, if_pos hav, ih fun x hx => h x (List.mem_cons_of_mem a hx)]
      rfl
  | orderedMulti =>
    show insertUpper C v l = _
    induction l with
    | nil => rfl
    | cons a l ih =>
      have hav : ¬ C.Less v a := h a List.mem_cons_self
      rw [insertUpper, if_neg hav, ih fun x hx => h x (List.mem_cons_of_mem a hx)]
      rfl
  | unordered =>
    refine if_neg fun hany => ?_
    obtain ⟨a, ha, heq⟩ := List.any_eq_true.1 hany
    exact h a ha (by simpa using heq)

end Discipline

/-- The most elements a container can hold (`PTRDIFF_MAX`). -/
def maxElements : Nat := 0x7fffffffffffffff

/-- A container whose elements are compared by `C`. -/
@[ext] structure Collection {α : Type} (d : Discipline) (C : Comparison α) where
  items : List α
  pairwise : items.Pairwise (d.Before C)
  bounded : items.length ≤ maxElements

namespace Collection

variable {α : Type} {d : Discipline} {C : Comparison α}

def empty : Collection d C where
  items := []
  pairwise := List.Pairwise.nil
  bounded := Nat.zero_le _

/-- `none` is `std::length_error`. -/
def emplace (v : α) (c : Collection d C) : Option (Collection d C) :=
  if h : c.items.length < maxElements then
    some { items := d.emplace C v c.items, pairwise := Discipline.pairwise_emplace c.pairwise,
           bounded := Nat.le_trans (Discipline.length_emplace_le C d v c.items) h }
  else none

/-- Emplace elements one after another. -/
def refill : List α → Collection d C → Option (Collection d C)
  | [], c => some c
  | v :: vs, c => (c.emplace v).bind (refill vs)

theorem emplace_last {v : α} {pre : List α} {rest : List α} {c : Collection d C} (hc : c.items = pre)
    (h : (pre ++ v :: rest).Pairwise (d.Before C)) (hlen : (pre ++ v :: rest).length ≤ maxElements) :
    ∃ c' : Collection d C, c.emplace v = some c' ∧ c'.items = pre ++ [v] := by
  subst hc
  have hroom : c.items.length < maxElements := by
    rw [List.length_append, List.length_cons] at hlen
    omega
  refine ⟨_, dif_pos hroom, ?_⟩
  exact Discipline.emplace_last fun a ha => (List.pairwise_append.1 h).2.2 a ha v List.mem_cons_self

/-- Nothing but the new elements comes in. -/
theorem mem_refill {vs : List α} {c c' : Collection d C} (h : c.refill vs = some c') {x : α}
    (hx : x ∈ c'.items) : x ∈ vs ∨ x ∈ c.items := by
  induction vs generalizing c with
  | nil =>
    obtain rfl := Option.some.inj h
    exact .inr hx
  | cons v vs ih =>
    obtain ⟨c₁, hc₁, hrest⟩ := Option.bind_eq_some_iff.1 h
    unfold emplace at hc₁
    split at hc₁
    · obtain rfl := Option.some.inj hc₁
      rcases ih hrest with hvs | hitems
      · exact .inl (List.mem_cons_of_mem v hvs)
      · rcases Discipline.mem_emplace hitems with rfl | hx
        · exact .inl List.mem_cons_self
        · exact .inr hx
    · cases hc₁

/-- There is room as long as the elements are not too many. -/
theorem refill_of_room (vs : List α) {c : Collection d C} (h : c.items.length + vs.length ≤ maxElements) :
    ∃ c' : Collection d C, c.refill vs = some c' := by
  induction vs generalizing c with
  | nil => exact ⟨c, rfl⟩
  | cons v vs ih =>
    rw [List.length_cons] at h
    have hroom : c.items.length < maxElements := by omega
    have hlen := Discipline.length_emplace_le C d v c.items
    rw [refill, emplace, dif_pos hroom]
    exact ih (show (d.emplace C v c.items).length + vs.length ≤ maxElements by omega)

/-- The elements of a container, emplaced one after another, build the container again. -/
theorem refill_items (c : Collection d C) : (empty : Collection d C).refill c.items = some c := by
  have hgen : ∀ (rest : List α) (c₀ : Collection d C), c₀.items ++ rest = c.items →
      c₀.refill rest = some c := by
    intro rest
    induction rest with
    | nil =>
      intro c₀ h
      exact congrArg some (Collection.ext (by rw [← h, List.append_nil]))
    | cons v rest ih =>
      intro c₀ h
      obtain ⟨c₁, heq, hitems⟩ := emplace_last (c := c₀) (v := v) rfl (h ▸ c.pairwise)
        (h ▸ c.bounded)
      rw [refill, heq]
      exact ih c₁ (by rw [hitems, ← h]; simp)
  exact hgen c.items empty rfl

end Collection

end AcidCompute

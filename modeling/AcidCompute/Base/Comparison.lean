import Mathlib.Order.Compare
import Mathlib.Data.Int.Order.Basic

/-!
# Three-way comparisons

What `operator<=>` does for the types of the standard library: two elements are less, equal, greater or, as for a NaN,
not ordered at all.  The laws kept here are those an ordered container needs, and they carry over from the elements to
pairs and to sequences compared lexicographically.
-/

namespace AcidCompute

/-- A comparison that orders some of the elements, `none` meaning that it does not order these two. -/
structure Comparison (α : Type) where
  cmp : α → α → Option Ordering
  trans : ∀ {a b c : α} {o o' : Ordering}, cmp a b = some o → cmp b c = some o' → o ≠ .gt → o' ≠ .gt →
    cmp a c = some (o.then o')
  irrefl : ∀ a : α, cmp a a ≠ some .lt

namespace Comparison

variable {α β : Type}

/-- `a < b` -/
def Less (C : Comparison α) (a b : α) : Prop := C.cmp a b = some .lt

/-- `a == b` -/
def Equal (C : Comparison α) (a b : α) : Prop := C.cmp a b = some .eq

instance (C : Comparison α) (a b : α) : Decidable (C.Less a b) := inferInstanceAs (Decidable (_ = _))

instance (C : Comparison α) (a b : α) : Decidable (C.Equal a b) := inferInstanceAs (Decidable (_ = _))

theorem Less.trans {C : Comparison α} {a b c : α} (h : C.Less a b) (h' : C.Less b c) : C.Less a c :=
  C.trans h h' (by decide) (by decide)

theorem Less.asymm {C : Comparison α} {a b : α} (h : C.Less a b) : ¬ C.Less b a :=
  fun h' => C.irrefl a (h.trans h')

/-- Elements compared by a key. -/
def on (C : Comparison β) (f : α → β) : Comparison α where
  cmp a b := C.cmp (f a) (f b)
  trans := C.trans
  irrefl a := C.irrefl (f a)

private theorem compare_then {x y z : Int} {o o' : Ordering} (h : compare x y = o) (h' : compare y z = o')
    (ho : o ≠ .gt) (ho' : o' ≠ .gt) : compare x z = o.then o' := by
  cases o with
  | gt => exact absurd rfl ho
  | lt =>
    have hxy := compare_lt_iff_lt.1 h
    cases o' with
    | gt => exact absurd rfl ho'
    | lt => exact compare_lt_iff_lt.2 (hxy.trans (compare_lt_iff_lt.1 h'))
    | eq => exact compare_lt_iff_lt.2 (compare_eq_iff_eq.1 h' ▸ hxy)
  | eq => rw [compare_eq_iff_eq.1 h, h']; rfl

/-- Elements compared by an integer key; those without a key are not ordered. -/
def ofKey (key : α → Option Int) : Comparison α where
  cmp a b := (key a).bind fun x => (key b).map fun y => compare x y
  trans := by
    intro a b c o o' h h' ho ho'
    simp only [Option.bind_eq_some_iff, Option.map_eq_some_iff] at h h' ⊢
    obtain ⟨x, hx, y, hy, hxy⟩ := h
    obtain ⟨y', hy', z, hz, hyz⟩ := h'
    obtain rfl : y = y' := Option.some.inj (hy.symm.trans hy')
    exact ⟨x, hx, z, hz, compare_then hxy hyz ho ho'⟩
  irrefl a h := by
    simp only [Option.bind_eq_some_iff, Option.map_eq_some_iff] at h
    obtain ⟨x, hx, y, hy, hxy⟩ := h
    obtain rfl : x = y := Option.some.inj (hx.symm.trans hy)
    exact absurd (compare_lt_iff_lt.1 hxy) (lt_irrefl x)

/-- A type whose elements are never ordered. -/
def never : Comparison α := ofKey fun _ => none

/-- The only element of an empty tuple equals itself. -/
def unit : Comparison Unit := ofKey fun _ => some 0

/-! ### Lexicographic comparison -/

/-- The first result decides unless it is equality. -/
def thenCmp : Option Ordering → Option Ordering → Option Ordering
  | some .eq, r => r
  | o, _ => o

private theorem thenCmp_trans {x y z u v w : Option Ordering}
    (hstep : ∀ o o', x = some o → y = some o' → o ≠ .gt → o' ≠ .gt → z = some (o.then o'))
    (hrest : ∀ o o', u = some o → v = some o' → o ≠ .gt → o' ≠ .gt → w = some (o.then o'))
    (o o' : Ordering) (h : thenCmp x u = some o) (h' : thenCmp y v = some o') (ho : o ≠ .gt) (ho' : o' ≠ .gt) :
    thenCmp z w = some (o.then o') := by
  have hdecided : ∀ {r r' : Option Ordering}, thenCmp r r' = some .lt →
      r = some .lt ∨ r = some .eq ∧ r' = some .lt := by
    intro r r' hr
    rcases r with _ | (_ | _ | _) <;> simp_all [thenCmp]
  have hequal : ∀ {r r' : Option Ordering}, thenCmp r r' = some .eq → r = some .eq ∧ r' = some .eq := by
    intro r r' hr
    rcases r with _ | (_ | _ | _) <;> simp_all [thenCmp]
  cases o with
  | gt => exact absurd rfl ho
  | lt =>
    cases o' with
    | gt => exact absurd rfl ho'
    | lt =>
      rcases hdecided h with hx | ⟨hx, hu⟩ <;> rcases hdecided h' with hy | ⟨hy, hv⟩ <;>
        simp [hstep _ _ hx hy, thenCmp]
      exact hrest _ _ hu hv (by decide) (by decide)
    | eq =>
      obtain ⟨hy, hv⟩ := hequal h'
      rcases hdecided h with hx | ⟨hx, hu⟩ <;> simp [hstep _ _ hx hy, thenCmp]
      exact hrest _ _ hu hv (by decide) (by decide)
  | eq =>
    obtain ⟨hx, hu⟩ := hequal h
    cases o' with
    | gt => exact absurd rfl ho'
    | lt =>
      rcases hdecided h' with hy | ⟨hy, hv⟩ <;> simp [hstep _ _ hx hy, thenCmp]
      exact hrest _ _ hu hv (by decide) (by decide)
    | eq =>
      obtain ⟨hy, hv⟩ := hequal h'
      simp [hstep _ _ hx hy, thenCmp]
      exact hrest _ _ hu hv (by decide) (by decide)

private theorem thenCmp_irrefl {x u : Option Ordering} (hx : x ≠ some .lt) (hu : u ≠ some .lt) :
    thenCmp x u ≠ some .lt := by
  rcases x with _ | (_ | _ | _) <;> simp_all [thenCmp]

/-- The first components decide, then the second ones. -/
def pair (C : Comparison α) (D : Comparison β) : Comparison (α × β) where
  cmp x y := thenCmp (C.cmp x.1 y.1) (D.cmp x.2 y.2)
  trans h h' ho ho' := thenCmp_trans (fun _ _ => C.trans) (fun _ _ => D.trans) _ _ h h' ho ho'
  irrefl x := thenCmp_irrefl (C.irrefl x.1) (D.irrefl x.2)

/-- The first unequal elements decide, then the lengths. -/
def listCmp (C : Comparison α) : List α → List α → Option Ordering
  | [], [] => some .eq
  | [], _ :: _ => some .lt
  | _ :: _, [] => some .gt
  | a :: as, b :: bs => thenCmp (C.cmp a b) (listCmp C as bs)

private theorem listCmp_trans (C : Comparison α) (as bs cs : List α) (o o' : Ordering)
    (h : C.listCmp as bs = some o) (h' : C.listCmp bs cs = some o') (ho : o ≠ .gt) (ho' : o' ≠ .gt) :
    C.listCmp as cs = some (o.then o') := by
  induction as generalizing bs cs o o' with
  | nil =>
    cases bs with
    | nil => cases h; exact h'
    | cons b bs =>
      cases h
      cases cs with
      | nil => cases h'; exact absurd rfl ho'
      | cons c cs => rfl
  | cons a as ih =>
    cases bs with
    | nil => cases h; exact absurd rfl ho
    | cons b bs =>
      cases cs with
      | nil => cases h'; exact absurd rfl ho'
      | cons c cs => exact thenCmp_trans (fun _ _ => C.trans) (ih bs cs) o o' h h' ho ho'

private theorem listCmp_irrefl (C : Comparison α) (as : List α) : C.listCmp as as ≠ some .lt := by
  induction as with
  | nil => simp [listCmp]
  | cons a as ih => exact thenCmp_irrefl (C.irrefl a) ih

/-- Sequences compared lexicographically. -/
def list (C : Comparison α) : Comparison (List α) where
  cmp := listCmp C
  trans := listCmp_trans C _ _ _ _ _
  irrefl := listCmp_irrefl C

end Comparison

end AcidCompute

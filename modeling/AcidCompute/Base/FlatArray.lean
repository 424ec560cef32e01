import Mathlib.Data.List.Basic

/-!
# Flat arrays with a position

A flat array is storage with a logical size and one position that moves along it, as a file or a memory buffer has.
Writing replaces what lies at the position, growing the storage by whole units where it is too short; reading hands
out what lies at the position; seeking moves it.  The invariant `position ≤ size ≤ length` is part of the type.
-/

namespace AcidCompute

variable {α : Type}

/-! ### Overwriting a list -/

/-- `l` with `bs` written over it from index `p` on. -/
def overwrite (l : List α) (p : Nat) (bs : List α) : List α :=
  l.take p ++ bs ++ l.drop (p + bs.length)

theorem length_overwrite {l : List α} {p : Nat} (h : p ≤ l.length) (bs : List α) :
    (overwrite l p bs).length = max l.length (p + bs.length) := by
  simp only [overwrite, List.length_append, List.length_take, List.length_drop]
  omega

@[simp] theorem overwrite_nil (l : List α) (p : Nat) : overwrite l p [] = l := by
  simp [overwrite]

/-- Writing at the end is appending. -/
theorem overwrite_at_end (l bs : List α) : overwrite l l.length bs = l ++ bs := by
  simp [overwrite]

/-- Two writes in a row are one write of the concatenation. -/
theorem overwrite_overwrite {l : List α} {p : Nat} (h : p ≤ l.length) (bs cs : List α) :
    overwrite (overwrite l p bs) (p + bs.length) cs = overwrite l p (bs ++ cs) := by
  have hlen : (l.take p ++ bs).length = p + bs.length := by simp; omega
  have h1 : (overwrite l p bs).take (p + bs.length) = l.take p ++ bs := by
    rw [overwrite, ← hlen, List.take_left]
  have h2 : (overwrite l p bs).drop (p + bs.length + cs.length) = l.drop (p + (bs ++ cs).length) := by
    rw [overwrite, ← List.drop_drop, ← hlen, List.drop_left, hlen, List.drop_drop, List.length_append,
      Nat.add_assoc]
  calc overwrite (overwrite l p bs) (p + bs.length) cs
      = (overwrite l p bs).take (p + bs.length) ++ cs ++ (overwrite l p bs).drop (p + bs.length + cs.length) := rfl
    _ = overwrite l p (bs ++ cs) := by rw [h1, h2, overwrite]; simp

/-- The logical part of an overwritten storage is the overwritten logical part. -/
theorem take_overwrite {l : List α} {p s : Nat} (hp : p ≤ s) (hs : s ≤ l.length) (bs : List α) :
    (overwrite l p bs).take (max s (p + bs.length)) = overwrite (l.take s) p bs := by
  have hlen : (l.take p ++ bs).length = p + bs.length := by simp; omega
  have h1 : (l.take s).take p = l.take p := by simp [List.take_take, Nat.min_eq_left hp]
  rw [overwrite, overwrite, h1, List.take_append, hlen, List.take_of_length_le (by omega), List.drop_take]
  congr 2
  omega

theorem overwrite_append {l : List α} {p : Nat} {bs : List α} (h : p + bs.length ≤ l.length) (r : List α) :
    overwrite (l ++ r) p bs = overwrite l p bs ++ r := by
  simp only [overwrite]
  rw [List.take_append_of_le_length (by omega), List.drop_append_of_le_length h]
  simp

theorem append_overwrite (l r : List α) (p : Nat) (bs : List α) :
    overwrite (l ++ r) (l.length + p) bs = l ++ overwrite r p bs := by
  simp [overwrite, List.take_length_add_append, Nat.add_assoc]

/-! ### Flat arrays -/

/-- Storage with a logical size and a position. -/
@[ext] structure FlatArray (α : Type) where
  data : List α
  position : Nat
  size : Nat
  position_le : position ≤ size
  size_le : size ≤ data.length

namespace FlatArray

/-- The elements that have been written. -/
def content (f : FlatArray α) : List α := f.data.take f.size

/-- The elements that remain to be read. -/
def unread (f : FlatArray α) : List α := f.content.drop f.position

/-- How much storage is added, in whole units, so that `need` elements fit at the position; storage that holds
strictly more is left as it is. -/
def growth (unit need : Nat) (f : FlatArray α) : Nat :=
  if need < f.data.length - f.position then 0
  else (need - (f.data.length - f.position) + unit - 1) / unit * unit

/-- Add storage; `fill i` is what the new storage holds at index `i`. -/
def grow (unit need : Nat) (fill : Nat → α) (f : FlatArray α) : FlatArray α where
  data := f.data ++ (List.range (f.growth unit need)).map fun i => fill (f.data.length + i)
  position := f.position
  size := f.size
  position_le := f.position_le
  size_le := by have := f.size_le; simp; omega

/-- Replace what lies at the position and move behind it. -/
def put (bs : List α) (f : FlatArray α) : FlatArray α where
  data := overwrite f.data f.position bs
  position := f.position + bs.length
  size := max f.size (f.position + bs.length)
  position_le := by omega
  size_le := by
    have h1 := f.position_le
    have h2 := f.size_le
    rw [length_overwrite (by omega)]
    omega

/-- Write `bs` at the position. -/
def write (unit : Nat) (fill : Nat → α) (bs : List α) (f : FlatArray α) : FlatArray α :=
  if bs.isEmpty then f else (f.grow unit bs.length fill).put bs

/-- Read `n` elements at the position, if there are that many. -/
def read (n : Nat) (f : FlatArray α) : Option (List α × FlatArray α) :=
  if h : f.position + n ≤ f.size then
    some (f.unread.take n,
      { data := f.data, position := f.position + n, size := f.size, position_le := h, size_le := f.size_le })
  else none

/-- Move the position anywhere in the storage; moving behind the logical size extends it. -/
def seek (p : Nat) (f : FlatArray α) : Option (FlatArray α) :=
  if h : p ≤ f.data.length then
    some { data := f.data, position := p, size := max f.size p, position_le := by omega,
           size_le := by have := f.size_le; omega }
  else none

theorem length_le_write (unit : Nat) (fill : Nat → α) (bs : List α) (f : FlatArray α) :
    f.data.length ≤ (f.write unit fill bs).data.length := by
  unfold write
  split
  · exact Nat.le_refl _
  · have hgrown : f.data.length ≤ (f.grow unit bs.length fill).data.length := by simp [grow]
    have hle := Nat.le_trans (f.grow unit bs.length fill).position_le (f.grow unit bs.length fill).size_le
    show _ ≤ (overwrite _ _ _).length
    rw [length_overwrite hle]
    omega

/-- Writing overwrites the content at the position. -/
theorem content_write (unit : Nat) (fill : Nat → α) {bs : List α} (hne : bs ≠ []) (f : FlatArray α) :
    (f.write unit fill bs).content = overwrite f.content f.position bs := by
  have hgrown : (f.grow unit bs.length fill).content = f.content := by
    simp only [content, grow]
    exact List.take_append_of_le_length f.size_le
  rw [write, if_neg (by simpa using hne), ← hgrown]
  exact take_overwrite f.position_le (f.grow unit bs.length fill).size_le bs

end FlatArray

end AcidCompute

import AcidCompute.Base.ByteOrder

/-!
# Decoders of byte strings

A decoder takes a value off the front of a byte string, or finds none there.  A decoder that never takes nothing
(`Progresses`) takes at most as many values one after another as there are bytes (`count_le_of_many`).
-/

namespace AcidCompute

abbrev Decoder (α : Type) : Type := List Byte → Option (α × List Byte)

namespace Decoder

variable {α β : Type}

/-- A value is made of the bytes in front of the rest, at least one. -/
def Progresses (d : Decoder α) : Prop :=
  ∀ bs x rest, d bs = some (x, rest) → ∃ front, front ≠ [] ∧ bs = front ++ rest

def map (f : α → β) (d : Decoder α) : Decoder β := fun bs => (d bs).map fun p => (f p.1, p.2)

/-- One value of each, one behind the other. -/
def pair (d : Decoder α) (e : Decoder β) : Decoder (α × β) := fun bs =>
  (d bs).bind fun p => (e p.2).map fun q => ((p.1, q.1), q.2)

/-- That many values, one behind the other. -/
def many (d : Decoder α) : Nat → Decoder (List α)
  | 0, bs => some ([], bs)
  | n + 1, bs => (d bs).bind fun p => (many d n p.2).map fun q => (p.1 :: q.1, q.2)

/-- A byte. -/
def byte : Decoder Byte
  | [] => none
  | b :: rest => some (b, rest)

/-- `n` bytes in memory order. -/
def fixed (en : Endian) (n : Nat) : Decoder (BitVec (8 * n)) := fun bs =>
  if n ≤ bs.length then some (ofMemory en n (bs.take n), bs.drop n) else none

theorem Progresses.map {d : Decoder α} (h : d.Progresses) (f : α → β) : (d.map f).Progresses := by
  intro bs y rest heq
  obtain ⟨⟨x, rest'⟩, hx, hy⟩ := Option.map_eq_some_iff.1 heq
  obtain rfl : rest' = rest := congrArg Prod.snd hy
  exact h bs x rest' hx

theorem progresses_byte : byte.Progresses := by
  intro bs x rest heq
  cases bs with
  | nil => cases heq
  | cons b bs =>
    cases heq
    exact ⟨[x], List.cons_ne_nil _ _, rfl⟩

theorem progresses_fixed (en : Endian) {n : Nat} (hn : 0 < n) : (fixed en n).Progresses := by
  intro bs x rest heq
  unfold fixed at heq
  split at heq
  · rename_i hle
    cases heq
    refine ⟨bs.take n, List.ne_nil_of_length_pos ?_, (List.take_append_drop n bs).symm⟩
    rw [List.length_take_of_le hle]
    exact hn
  · cases heq

theorem pair_eq_some {d : Decoder α} {e : Decoder β} {bs rest : List Byte} {x : α} {y : β} :
    d.pair e bs = some ((x, y), rest) ↔ ∃ bs', d bs = some (x, bs') ∧ e bs' = some (y, rest) := by
  constructor
  · intro heq
    obtain ⟨⟨x', bs'⟩, hx, hmap⟩ := Option.bind_eq_some_iff.1 heq
    obtain ⟨⟨y', rest'⟩, hy, hpair⟩ := Option.map_eq_some_iff.1 hmap
    cases hpair
    exact ⟨bs', hx, hy⟩
  · rintro ⟨bs', hx, hy⟩
    exact Option.bind_eq_some_iff.2 ⟨(x, bs'), hx, Option.map_eq_some_iff.2 ⟨(y, rest), hy, rfl⟩⟩

theorem eq_none_of_pair {d : Decoder α} {e : Decoder β} {bs bs' : List Byte} {x : α} (hx : d bs = some (x, bs'))
    (h : d.pair e bs = none) : e bs' = none := by
  unfold pair at h
  rw [hx] at h
  exact Option.map_eq_none_iff.1 h

theorem many_succ_eq_some {d : Decoder α} {n : Nat} {bs rest : List Byte} {x : α} {xs : List α} :
    d.many (n + 1) bs = some (x :: xs, rest) ↔ ∃ bs', d bs = some (x, bs') ∧ d.many n bs' = some (xs, rest) := by
  constructor
  · intro heq
    obtain ⟨⟨x', bs'⟩, hx, hmap⟩ := Option.bind_eq_some_iff.1 heq
    obtain ⟨⟨xs', rest'⟩, hxs, hcons⟩ := Option.map_eq_some_iff.1 hmap
    cases hcons
    exact ⟨bs', hx, hxs⟩
  · rintro ⟨bs', hx, hxs⟩
    exact Option.bind_eq_some_iff.2 ⟨(x, bs'), hx, Option.map_eq_some_iff.2 ⟨(xs, rest), hxs, rfl⟩⟩

theorem Progresses.pair {d : Decoder α} {e : Decoder β} (h : d.Progresses) (h' : e.Progresses) :
    (d.pair e).Progresses := by
  rintro bs ⟨x, y⟩ rest heq
  obtain ⟨bs', hx, hy⟩ := pair_eq_some.1 heq
  obtain ⟨front, hne, rfl⟩ := h bs x bs' hx
  obtain ⟨front', -, rfl⟩ := h' bs' y rest hy
  exact ⟨front ++ front', List.append_ne_nil_of_left_ne_nil hne _, (List.append_assoc _ _ _).symm⟩

theorem Progresses.length_lt {d : Decoder α} (h : d.Progresses) {bs rest : List Byte} {x : α}
    (heq : d bs = some (x, rest)) : rest.length < bs.length := by
  obtain ⟨front, hne, rfl⟩ := h bs x rest heq
  have hpos := List.length_pos_iff.2 hne
  rw [List.length_append]
  omega

/-- Each of the values takes a byte. -/
theorem count_le_of_many {d : Decoder α} (h : d.Progresses) {n : Nat} {bs rest : List Byte} {xs : List α}
    (heq : d.many n bs = some (xs, rest)) : xs.length = n ∧ n + rest.length ≤ bs.length := by
  induction n generalizing bs xs with
  | zero =>
    cases heq
    exact ⟨rfl, Nat.le_of_eq (Nat.zero_add _)⟩
  | succ n ih =>
    cases xs with
    | nil =>
      obtain ⟨p, -, hmap⟩ := Option.bind_eq_some_iff.1 heq
      obtain ⟨q, -, hcons⟩ := Option.map_eq_some_iff.1 hmap
      cases hcons
    | cons x xs =>
      obtain ⟨bs', hx, hxs⟩ := many_succ_eq_some.1 heq
      obtain ⟨hlen, hle⟩ := ih hxs
      have hlt := h.length_lt hx
      exact ⟨congrArg Nat.succ hlen, by omega⟩

end Decoder

end AcidCompute

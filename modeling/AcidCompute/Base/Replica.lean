import Mathlib.Data.List.Pairwise

/-!
# Copies of a set

The holder of a copy processes changes in the order in which they were sent: a whole list, or one element that comes or
goes.  What the copy will be is `Change.replay`.  A list must not come behind changes that were made after it was read,
so that a sequence is of use only if the lists come first (`Change.ResetsFirst`).
-/

namespace AcidCompute

inductive Change (α : Type)
  | reset (l : List α)
  | add (a : α)
  | remove (a : α)
  deriving DecidableEq, Repr

namespace Change

variable {α : Type}

def isReset : Change α → Bool
  | reset _ => true
  | _ => false

def ResetsFirst (cs : List (Change α)) : Prop := cs.Pairwise fun c d => d.isReset = true → c.isReset = true

theorem ResetsFirst.append_left {cs ds : List (Change α)} (h : ResetsFirst (cs ++ ds)) : ResetsFirst cs :=
  (List.pairwise_append.1 h).1

theorem ResetsFirst.append_right {cs ds : List (Change α)} (h : ResetsFirst (cs ++ ds)) : ResetsFirst ds :=
  (List.pairwise_append.1 h).2.1

/-- A list may be put in front. -/
theorem ResetsFirst.cons_reset {cs : List (Change α)} (h : ResetsFirst cs) (l : List α) :
    ResetsFirst (reset l :: cs) :=
  List.pairwise_cons.2 ⟨fun _ _ _ => rfl, h⟩

/-- Any change may be put in front where there are no lists. -/
theorem ResetsFirst.cons {cs : List (Change α)} (h : ResetsFirst cs) (hnone : ∀ d ∈ cs, d.isReset = false)
    (c : Change α) : ResetsFirst (c :: cs) := by
  refine List.pairwise_cons.2 ⟨?_, h⟩
  intro d hd hreset
  rw [hnone d hd] at hreset
  cases hreset

/-- Behind a change of one element there are no lists. -/
theorem ResetsFirst.not_isReset {cs ds : List (Change α)} {c : Change α} (h : ResetsFirst (cs ++ c :: ds))
    (hc : c.isReset = false) : ∀ d ∈ ds, d.isReset = false := by
  intro d hd
  by_contra hreset
  rw [Bool.not_eq_false] at hreset
  rw [(List.pairwise_cons.1 h.append_right).1 d hd hreset] at hc
  cases hc

variable [DecidableEq α]

/-- The copy behind a change. -/
def apply (l : List α) : Change α → List α
  | reset l' => l'
  | add a => l ++ [a]
  | remove a => l.filter fun b => b ≠ a

def replay (l : List α) (cs : List (Change α)) : List α := cs.foldl apply l

@[simp] theorem replay_nil (l : List α) : replay l [] = l := rfl

@[simp] theorem replay_cons (l : List α) (c : Change α) (cs : List (Change α)) :
    replay l (c :: cs) = replay (apply l c) cs := rfl

theorem replay_append (l : List α) (cs ds : List (Change α)) : replay l (cs ++ ds) = replay (replay l cs) ds :=
  List.foldl_append

/-- Whether an element is in the copy depends on that element of the start alone. -/
theorem mem_replay_mono {l l' : List α} {a : α} (h : a ∈ l → a ∈ l') (cs : List (Change α)) :
    a ∈ replay l cs → a ∈ replay l' cs := by
  induction cs generalizing l l' with
  | nil => exact h
  | cons c cs ih =>
    apply ih
    cases c with
    | reset l'' => exact id
    | add b =>
      simp only [apply, List.mem_append]
      exact Or.imp_left h
    | remove b =>
      simp only [apply, List.mem_filter]
      exact And.imp_left h

theorem mem_replay_replicate_add {l : List α} {k : Nat} (hk : k ≠ 0) (a b : α) :
    b ∈ replay l (List.replicate k (add a)) ↔ b ∈ l ∨ b = a := by
  induction k generalizing l with
  | zero => exact absurd rfl hk
  | succ k ih =>
    rw [List.replicate_succ, replay_cons]
    by_cases hzero : k = 0
    · simp [hzero, apply]
    · rw [ih hzero]
      simp [apply]

theorem mem_replay_replicate_remove {l : List α} {k : Nat} (hk : k ≠ 0) (a b : α) :
    b ∈ replay l (List.replicate k (remove a)) ↔ b ∈ l ∧ b ≠ a := by
  induction k generalizing l with
  | zero => exact absurd rfl hk
  | succ k ih =>
    rw [List.replicate_succ, replay_cons]
    by_cases hzero : k = 0
    · simp [hzero, apply]
    · rw [ih hzero]
      simp [apply]

/-! ### A copy and its source -/

/-- When all changes are processed the copy has the elements of the source, up to those of which it has not been sent
that they come or go. -/
structure Tracks (source coming going : α → Prop) (l : List α) (cs : List (Change α)) : Prop where
  sound : ∀ a ∈ replay l cs, source a ∨ going a
  complete : ∀ a, source a → a ∈ replay l cs ∨ coming a

namespace Tracks

variable {source source' coming coming' going going' : α → Prop} {l l' : List α} {cs : List (Change α)}

/-- The holder of the copy processes a change. -/
theorem process {c : Change α} (h : Tracks source coming going l (c :: cs)) :
    Tracks source coming going (apply l c) cs where
  sound := h.sound
  complete := h.complete

/-- The list that was read last. -/
theorem reset (h : ∀ a, a ∈ l' ↔ source a) : Tracks source coming going l (cs ++ [.reset l']) where
  sound a ha := by
    rw [replay_append] at ha
    exact .inl ((h a).1 ha)
  complete a ha := by
    rw [replay_append]
    exact .inl ((h a).2 ha)

/-- The source changes, and nothing is sent. -/
theorem change (h : Tracks source coming going l cs)
    (hsound : ∀ a ∈ replay l cs, source a ∨ going a → source' a ∨ going' a)
    (hcomplete : ∀ a, source' a → source a ∧ (coming a → a ∈ replay l cs ∨ coming' a) ∨ coming' a) :
    Tracks source' coming' going' l cs where
  sound a ha := hsound a ha (h.sound a ha)
  complete a ha := by
    rcases hcomplete a ha with ⟨hbefore, hcoming⟩ | hnew
    · exact (h.complete a hbefore).elim .inl hcoming
    · exact .inr hnew

/-- An element is sent. -/
theorem add (h : Tracks source coming going l cs) {a : α} (ha : source a)
    (hcoming : ∀ b, coming b → b ≠ a → coming' b) {k : Nat} (hk : k ≠ 0) :
    Tracks source coming' going l (cs ++ List.replicate k (.add a)) where
  sound b hb := by
    rw [replay_append, mem_replay_replicate_add hk] at hb
    rcases hb with hold | rfl
    · exact h.sound b hold
    · exact .inl ha
  complete b hb := by
    rw [replay_append, mem_replay_replicate_add hk]
    by_cases heq : b = a
    · exact .inl (.inr heq)
    · rcases h.complete b hb with hin | hnot
      · exact .inl (.inl hin)
      · exact .inr (hcoming b hnot heq)

/-- That an element has gone is sent. -/
theorem remove (h : Tracks source coming going l cs) {a : α} (ha : source a → coming a)
    (hgoing : ∀ b, going b → b ≠ a → going' b) {k : Nat} (hk : k ≠ 0) :
    Tracks source coming going' l (cs ++ List.replicate k (.remove a)) where
  sound b hb := by
    rw [replay_append, mem_replay_replicate_remove hk] at hb
    exact (h.sound b hb.1).imp_right fun hb' => hgoing b hb' hb.2
  complete b hb := by
    rw [replay_append, mem_replay_replicate_remove hk]
    by_cases heq : b = a
    · exact .inr (heq ▸ ha (heq ▸ hb))
    · exact (h.complete b hb).imp_left fun hin => ⟨hin, heq⟩

/-- The copy loses an element that is not in the source. -/
theorem forget (h : Tracks source coming going l cs) {a : α} (ha : ¬ source a) :
    Tracks source coming going (l.filter fun b => b ≠ a) cs where
  sound b hb := h.sound b (mem_replay_mono (fun hin => (List.mem_filter.1 hin).1) cs hb)
  complete b hb := by
    refine (h.complete b hb).imp_left (mem_replay_mono ?_ cs)
    intro hin
    refine List.mem_filter.2 ⟨hin, ?_⟩
    rw [decide_eq_true_eq]
    rintro rfl
    exact ha hb

/-- Where there are no more changes, and everything has been sent, the copy is equal to the source. -/
theorem mem_iff (h : Tracks source coming going l []) (hcoming : ∀ a, source a → ¬ coming a)
    (hgoing : ∀ a, ¬ going a) (a : α) : a ∈ l ↔ source a :=
  ⟨fun ha => (h.sound a ha).resolve_right (hgoing a), fun ha => (h.complete a ha).resolve_right (hcoming a ha)⟩

end Tracks

end Change

end AcidCompute

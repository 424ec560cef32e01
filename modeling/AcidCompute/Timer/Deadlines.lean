import AcidCompute.Timer.Runs
import Mathlib.Algebra.Group.Nat.Defs

/-!
# Deadlines as 64-bit numbers

A deadline is the reading of the clock plus the interval, without a carry, and intervals may be anything up to
`2 ^ 64 - 1`: this is what a condition variable passes to keep a timer for good.  A timer is reported before its time
just if the sum has wrapped, or if the clock is taken to have been set back (`Timers.early_iff_of_reaches`).

`get_next_timer` tells how long the first deadline is away.
-/

namespace AcidCompute

namespace TimerManager

variable {κ : Type} {m : TimerManager κ} {now : BitVec 64}

/-- How long a deadline is away. -/
def timeLeft (now next : BitVec 64) : BitVec 64 := if now ≥ next then 0 else next - now

/-- `get_next_timer()`; the greatest number stands for no timer. -/
def getNextTimer (m : TimerManager κ) (now : BitVec 64) : BitVec 64 × TimerManager κ :=
  let m := { m with ticked := false }
  match m.timers with
  | [] => (BitVec.allOnes 64, m)
  | next :: _ => (timeLeft now (m.objects next).next, m)

theorem timeLeft_mono {next next' : BitVec 64} (h : next ≤ next') : timeLeft now next ≤ timeLeft now next' := by
  have hlt := next.isLt
  have hlt' := next'.isLt
  have hnow := now.isLt
  unfold timeLeft
  simp only [ge_iff_le, BitVec.le_def] at h ⊢
  split
  case isTrue => exact Nat.zero_le _
  case isFalse hnot =>
    rw [if_neg (by omega), BitVec.toNat_sub, BitVec.toNat_sub]
    omega

/-- Only when the clock shows 0 is a deadline as far away as no deadline at all. -/
private theorem eq_zero_of_timeLeft {next : BitVec 64} (h : timeLeft now next = BitVec.allOnes 64) : now = 0 := by
  have hlt := next.isLt
  have hnow := now.isLt
  have hall : (BitVec.allOnes 64).toNat = 2 ^ 64 - 1 := rfl
  apply BitVec.eq_of_toNat_eq
  have htoNat := congrArg BitVec.toNat h
  unfold timeLeft at htoNat
  rw [hall] at htoNat
  split at htoNat
  case isTrue => exact absurd htoNat (by decide)
  case isFalse hnot =>
    rw [BitVec.toNat_sub] at htoNat
    simp only [ge_iff_le, BitVec.le_def] at hnot
    simp only [BitVec.toNat_zero, BitVec.ofNat_eq_ofNat]
    omega

/-- The first deadline is the nearest. -/
theorem getNextTimer_spec (h : m.Ordered) (hnull : ∀ p ∈ m.timers, p ≠ Timer.null) (hne : m.timers ≠ []) :
    (∃ p ∈ m.timers, (m.getNextTimer now).1 = timeLeft now (m.objects p).next) ∧
      ∀ p ∈ m.timers, (m.getNextTimer now).1 ≤ timeLeft now (m.objects p).next := by
  obtain ⟨front, rest, htimers⟩ := List.exists_cons_of_ne_nil hne
  have hvalue : (m.getNextTimer now).1 = timeLeft now (m.objects front).next := by simp [getNextTimer, htimers]
  refine ⟨⟨front, by simp [htimers], hvalue⟩, ?_⟩
  intro p hp
  rw [hvalue]
  apply timeLeft_mono
  unfold Ordered at h
  rw [htimers] at h hp
  rcases List.mem_cons.1 hp with rfl | hrest
  · exact BitVec.le_refl _
  · exact ((OrderedSet.sorted_cons.1 h).1 p hrest).next_le (hnull front (by simp [htimers]))

/-- With a timer in the set the answer is not that there is none, unless the clock shows 0. -/
theorem getNextTimer_ne_allOnes (hnow : now ≠ 0) (hne : m.timers ≠ []) :
    (m.getNextTimer now).1 ≠ BitVec.allOnes 64 := by
  obtain ⟨front, rest, htimers⟩ := List.exists_cons_of_ne_nil hne
  intro hall
  simp only [getNextTimer, htimers] at hall
  exact hnow (eq_zero_of_timeLeft hall)

end TimerManager

namespace Timers

variable {κ : Type}

/-- A timer is reported before its interval has gone by. -/
def Early (s : State κ) (now : BitVec 64) (p : Nat) : Prop :=
  s.armed p ≤ now ∧ now - s.armed p < (s.manager.objects p).ms

/-- The deadline is a number of 64 bits. -/
def Fits (s : State κ) (p : Nat) : Prop := (s.armed p).toNat + (s.manager.objects p).ms.toNat < 2 ^ 64

instance (s : State κ) (now : BitVec 64) (p : Nat) : Decidable (Early s now p) := inferInstanceAs (Decidable (_ ∧ _))

instance (s : State κ) (p : Nat) : Decidable (Fits s p) := inferInstanceAs (Decidable (_ < _))

/-- Before its time a timer is due just if the deadline has wrapped. -/
private theorem due_iff_wraps {armed ms now : BitVec 64} (harmed : armed ≤ now) (hearly : now - armed < ms) :
    armed + ms ≤ now ↔ ¬ armed.toNat + ms.toNat < 2 ^ 64 := by
  have hlt := armed.isLt
  have hms := ms.isLt
  have hnow := now.isLt
  simp only [BitVec.le_def, BitVec.lt_def, BitVec.toNat_add, BitVec.toNat_sub] at harmed hearly ⊢
  omega

/-- A timer whose interval has not gone by is left alone just if its deadline has not wrapped and the clock is not taken
to have been set back. -/
theorem early_iff_of_reaches {start now : BitVec 64} {nowTimer : Nat} {s : State κ}
    (h : (machine start).Reaches Machine.any (machine start).start s) (hfree : s.Free nowTimer)
    (callbacks : List (Option κ)) :
    ∃ (expired : List Nat) (m : TimerManager κ), s.manager.listExpiredCallback now nowTimer callbacks =
        (callbacks ++ expired.map (fun p => (s.manager.objects p).callback), m) ∧
      (∀ p ∈ expired, p ∈ s.manager.timers) ∧
      ∀ p ∈ s.manager.timers, Early s now p →
        (p ∉ expired ↔ Fits s p ∧ (s.manager.detectClockRollover now).1 = false) := by
  have hs := Consistent.of_reaches h
  obtain ⟨m, heq, -, -, -⟩ := hs.listExpired hfree now callbacks
  refine ⟨s.manager.expired now, m, heq, fun p hp => (TimerManager.mem_expired.1 hp).1, ?_⟩
  intro p hp hearly
  have hdue : (s.manager.objects p).next ≤ now ↔ ¬ Fits s p := by
    rw [hs.next_eq p (hs.allocated p hp)]
    exact due_iff_wraps hearly.1 hearly.2
  rw [TimerManager.mem_expired, hdue]
  cases (s.manager.detectClockRollover now).1 with
  | true => simp [hp]
  | false => simp [hp]

/-- The timer that keeps a condition variable alive, and one for a second. -/
private def forGood : List (Event Nat) :=
  [.addTimer 8 (BitVec.allOnes 64) 70 true 5000, .addTimer 9 1000 71 false 5000]

theorem exists_early_forGood : ∃ s : State Nat, (machine 5000).Reaches Machine.any (machine 5000).start s ∧
    Early s 5001 8 ∧ (s.manager.listExpiredCallback 5001 16 []).1 = [some 70] ∧
    -- and again, when it has been armed anew
    Early (next s (.listExpiredCallback 5001 16)) 5002 8 ∧
    ((next s (.listExpiredCallback 5001 16)).manager.listExpiredCallback 5002 16 []).1 = [some 70] :=
  Machine.exists_reaches_of_run forGood (fun _ _ _ => trivial) (by decide +kernel)

/-- The timer for a second is left alone. -/
theorem early_iff_of_reaches_forGood : ∃ s : State Nat, (machine 5000).Reaches Machine.any (machine 5000).start s ∧
    ∃ (expired : List Nat) (m : TimerManager Nat), s.manager.listExpiredCallback 5001 16 [] =
        ([] ++ expired.map (fun p => (s.manager.objects p).callback), m) ∧ 9 ∉ expired := by
  obtain ⟨s, hreach, hfree, hmem, hearly, hfits, hforward⟩ : ∃ s : State Nat,
      (machine 5000).Reaches Machine.any (machine 5000).start s ∧ s.Free 16 ∧ 9 ∈ s.manager.timers ∧
        Early s 5001 9 ∧ Fits s 9 ∧ (s.manager.detectClockRollover 5001).1 = false :=
    Machine.exists_reaches_of_run forGood (fun _ _ _ => trivial) (by decide +kernel)
  obtain ⟨expired, m, heq, -, hiff⟩ := early_iff_of_reaches hreach hfree []
  exact ⟨s, hreach, expired, m, heq, (hiff 9 hmem hearly).2 ⟨hfits, hforward⟩⟩

end Timers

end AcidCompute

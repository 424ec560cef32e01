import AcidCompute.Timer.Deadlines

/-!
# How long `IOManager::idle` waits

`idle` asks for the time until the first deadline and passes it to `epoll_wait` as an `int`, five seconds at most.  The
conversion keeps the last 32 bits, so that a deadline which is far away may make the wait endless: for `epoll_wait` this
is what a negative number means.
-/

namespace AcidCompute

namespace IOManager

variable {κ : Type}

/-- `stopping()`, with what `Scheduler::stopping()` returns. -/
def stopping (m : TimerManager κ) (now : BitVec 64) (pendingEventCount : Nat) (schedulerStopping : Bool) : Bool :=
  (m.getNextTimer now).1 = BitVec.allOnes 64 ∧ pendingEventCount = 0 ∧ schedulerStopping = true

-- `static_cast<int>`
def toInt32 (x : BitVec 64) : Int := (x.setWidth 32).toInt

-- `MAX_TIMEOUT`
def maxTimeout : Int := 5000

-- `std::min`
def intMin (a b : Int) : Int := if b < a then b else a

/-- What becomes of `next_timeout` in the body of the loop around `epoll_wait`. -/
def clampTimeout (nextTimeout : BitVec 64) : BitVec 64 :=
  if nextTimeout ≠ BitVec.allOnes 64 then BitVec.ofInt 64 (intMin (toInt32 nextTimeout) maxTimeout)
  else BitVec.ofInt 64 maxTimeout

/-- `next_timeout` after so many calls of `epoll_wait` have been interrupted. -/
def interrupted (nextTimeout : BitVec 64) : Nat → BitVec 64
  | 0 => clampTimeout nextTimeout
  | k + 1 => clampTimeout (interrupted nextTimeout k)

/-- The timeout of `epoll_wait`, after so many interruptions. -/
def epollTimeout (nextTimeout : BitVec 64) (k : Nat) : Int := toInt32 (interrupted nextTimeout k)

/-! ### Numbers that an `int` holds -/

private theorem toInt32_ofInt {x : Int} (hlow : -0x80000000 ≤ x) (hhigh : x < 0x80000000) :
    toInt32 (BitVec.ofInt 64 x) = x := by
  unfold toInt32
  rw [BitVec.toInt_eq_toNat_cond, BitVec.toNat_setWidth, BitVec.toNat_ofInt]
  split <;> omega

private theorem toInt32_bounds (x : BitVec 64) : -0x80000000 ≤ toInt32 x ∧ toInt32 x < 0x80000000 := by
  unfold toInt32
  rw [BitVec.toInt_eq_toNat_cond, BitVec.toNat_setWidth]
  split <;> omega

/-- The number is not negative just if its bit 31 is clear, and then it is not larger. -/
private theorem toInt32_nonneg_iff (x : BitVec 64) :
    (0 ≤ toInt32 x ↔ x.toNat % 2 ^ 32 < 2 ^ 31) ∧ toInt32 x ≤ x.toNat := by
  unfold toInt32
  rw [BitVec.toInt_eq_toNat_cond, BitVec.toNat_setWidth]
  split <;> omega

private theorem intMin_of_le {a b : Int} (h : a ≤ b) : intMin a b = a := if_neg (Int.not_lt.2 h)

private theorem intMin_spec (a b : Int) : intMin a b ≤ a ∧ intMin a b ≤ b ∧ (intMin a b = a ∨ intMin a b = b) := by
  unfold intMin
  split <;> omega

private theorem toInt32_allOnes : toInt32 (BitVec.allOnes 64) = -1 := by decide

/-! ### The loop around `epoll_wait` -/

private theorem clampTimeout_ofInt {x : Int} (hlow : 0 ≤ x) (hhigh : x ≤ maxTimeout) :
    clampTimeout (BitVec.ofInt 64 x) = BitVec.ofInt 64 x := by
  have hmax : x ≤ 5000 := hhigh
  have hint : toInt32 (BitVec.ofInt 64 x) = x := toInt32_ofInt (by omega) (by omega)
  have hne : BitVec.ofInt 64 x ≠ BitVec.allOnes 64 := by
    intro heq
    rw [heq, toInt32_allOnes] at hint
    omega
  rw [clampTimeout, if_pos hne, hint, intMin_of_le hhigh]

/-- A timeout between 0 and five seconds stays as it is. -/
private theorem epollTimeout_of_clamp {d : BitVec 64} {x : Int} (h : clampTimeout d = BitVec.ofInt 64 x) (hlow : 0 ≤ x)
    (hhigh : x ≤ maxTimeout) (k : Nat) : epollTimeout d k = x := by
  have hsame : interrupted d k = BitVec.ofInt 64 x := by
    induction k with
    | zero => exact h
    | succ k ih =>
      show clampTimeout (interrupted d k) = _
      rw [ih, clampTimeout_ofInt hlow hhigh]
  unfold maxTimeout at hhigh
  rw [epollTimeout, hsame, toInt32_ofInt (by omega) (by omega)]

theorem epollTimeout_allOnes (k : Nat) : epollTimeout (BitVec.allOnes 64) k = maxTimeout := by
  apply epollTimeout_of_clamp
  · simp [clampTimeout]
  · decide
  · exact Int.le_refl _

theorem epollTimeout_of_small {d : BitVec 64} (h : d.toNat % 2 ^ 32 < 2 ^ 31) (k : Nat) :
    epollTimeout d k = intMin (toInt32 d) maxTimeout := by
  have hnonneg : 0 ≤ toInt32 d := (toInt32_nonneg_iff d).1.2 h
  have hne : d ≠ BitVec.allOnes 64 := by
    rintro rfl
    rw [toInt32_allOnes] at hnonneg
    omega
  obtain ⟨-, hle, hcases⟩ := intMin_spec (toInt32 d) maxTimeout
  apply epollTimeout_of_clamp
  · rw [clampTimeout, if_pos hne]
  · unfold maxTimeout at hcases ⊢
    omega
  · exact hle

/-- Before any interruption a negative number is passed on. -/
theorem epollTimeout_of_neg {d : BitVec 64} (hne : d ≠ BitVec.allOnes 64) (h : ¬ d.toNat % 2 ^ 32 < 2 ^ 31) :
    epollTimeout d 0 < 0 := by
  have hneg : toInt32 d < 0 := by
    rw [← (toInt32_nonneg_iff d).1] at h
    omega
  have hmin : intMin (toInt32 d) maxTimeout = toInt32 d := by
    apply intMin_of_le
    unfold maxTimeout
    omega
  show toInt32 (clampTimeout d) < 0
  obtain ⟨hlow, hhigh⟩ := toInt32_bounds d
  rwa [clampTimeout, if_pos hne, hmin, toInt32_ofInt hlow hhigh]

/-- A wait that does not come out negative is not longer than what has been asked for. -/
theorem epollTimeout_le {d : BitVec 64} (h : d = BitVec.allOnes 64 ∨ d.toNat % 2 ^ 32 < 2 ^ 31) (k : Nat) :
    0 ≤ epollTimeout d k ∧ epollTimeout d k ≤ 5000 ∧ epollTimeout d k ≤ d.toNat := by
  rcases h with rfl | hsmall
  · rw [epollTimeout_allOnes]
    decide
  · have hnonneg := (toInt32_nonneg_iff d).1.2 hsmall
    have hle := (toInt32_nonneg_iff d).2
    obtain ⟨hleft, hright, hcases⟩ := intMin_spec (toInt32 d) maxTimeout
    rw [epollTimeout_of_small hsmall]
    unfold maxTimeout at hleft hright hcases ⊢
    omega

/-- The wait is bounded by five seconds and by every deadline, just if the time until the first deadline leaves bit 31
clear. -/
theorem epollTimeout_iff_of_reaches {start : BitVec 64} {s : Timers.State κ}
    (h : (Timers.machine start).Reaches Machine.any (Timers.machine start).start s) (now : BitVec 64) :
    (∀ k, 0 ≤ epollTimeout (s.manager.getNextTimer now).1 k ∧ epollTimeout (s.manager.getNextTimer now).1 k ≤ 5000 ∧
        ∀ p ∈ s.manager.timers, epollTimeout (s.manager.getNextTimer now).1 k ≤
          (TimerManager.timeLeft now (s.manager.objects p).next).toNat) ↔
      (s.manager.getNextTimer now).1 = BitVec.allOnes 64 ∨ (s.manager.getNextTimer now).1.toNat % 2 ^ 32 < 2 ^ 31 := by
  have hs := Timers.Consistent.of_reaches h
  have hnull : ∀ p ∈ s.manager.timers, p ≠ Timer.null := fun p hp => hs.nonnull p (hs.allocated p hp)
  have hnearest : ∀ p ∈ s.manager.timers,
      (s.manager.getNextTimer now).1.toNat ≤ (TimerManager.timeLeft now (s.manager.objects p).next).toNat :=
    fun p hp => (TimerManager.getNextTimer_spec hs.ordered hnull (List.ne_nil_of_mem hp)).2 p hp
  generalize (s.manager.getNextTimer now).1 = d at hnearest ⊢
  constructor
  · intro hbounds
    by_contra hnot
    rw [not_or] at hnot
    have hneg := epollTimeout_of_neg hnot.1 hnot.2
    have hnonneg := (hbounds 0).1
    omega
  · rintro (rfl | hsmall) k
    · rw [epollTimeout_allOnes]
      refine ⟨by decide, by decide, fun p hp => ?_⟩
      have hle := hnearest p hp
      have hall : (BitVec.allOnes 64).toNat = 2 ^ 64 - 1 := rfl
      unfold maxTimeout
      omega
    · have hnonneg : 0 ≤ toInt32 d := (toInt32_nonneg_iff d).1.2 hsmall
      have hle : toInt32 d ≤ d.toNat := (toInt32_nonneg_iff d).2
      obtain ⟨hleft, hright, hcases⟩ := intMin_spec (toInt32 d) maxTimeout
      rw [epollTimeout_of_small hsmall]
      unfold maxTimeout at hleft hright hcases ⊢
      refine ⟨by omega, hright, fun p hp => ?_⟩
      have hp' := hnearest p hp
      omega

/-- A timer for about a month, and one for seven seconds. -/
private def farAway : List (Timers.Event Nat) :=
  [.addTimer 8 0x80000000 70 false 0, .addTimer 9 7000 71 false 0, .cancel 9]

theorem exists_endless_farAway : ∃ s : Timers.State Nat,
    (Timers.machine 0).Reaches Machine.any (Timers.machine 0).start s ∧
      epollTimeout (s.manager.getNextTimer 0).1 0 = -0x80000000 :=
  Machine.exists_reaches_of_run farAway (fun _ _ _ => trivial) (by decide +kernel)

/-- With the nearer timer the wait lasts for five seconds. -/
theorem epollTimeout_iff_of_reaches_farAway : ∃ s : Timers.State Nat,
    (Timers.machine 0).Reaches Machine.any (Timers.machine 0).start s ∧ s.manager.timers = [9, 8] ∧
      ∀ k, 0 ≤ epollTimeout (s.manager.getNextTimer 0).1 k ∧ epollTimeout (s.manager.getNextTimer 0).1 k ≤ 5000 := by
  obtain ⟨s, hreach, htimers, hsmall⟩ : ∃ s : Timers.State Nat,
      (Timers.machine 0).Reaches Machine.any (Timers.machine 0).start s ∧ s.manager.timers = [9, 8] ∧
        (s.manager.getNextTimer 0).1.toNat % 2 ^ 32 < 2 ^ 31 :=
    Machine.exists_reaches_of_run (farAway.take 2) (fun _ _ _ => trivial) (by decide +kernel)
  have hbounds := (epollTimeout_iff_of_reaches hreach 0).2 (.inr hsmall)
  exact ⟨s, hreach, htimers, fun k => ⟨(hbounds k).1, (hbounds k).2.1⟩⟩

end IOManager

end AcidCompute

import AcidCompute.Timer.Runs

/-!
# Threads that look for expired timers

`list_expired_callback` reads the clock before it takes a lock, so that a thread may come to the write lock with a
sample that is older than `m_previous_time`.  The clock itself never goes back.  As long as no such sample is taken for
a clock that has been set back, only timers that are due expire (`Timers.Threads.due_of_reaches`).
-/

namespace AcidCompute

namespace Timers.Threads

/-- Where a thread is in `list_expired_callback`. -/
inductive Phase
  | idle
  -- `now_ms` has been read
  | sampled (now : BitVec 64)
  -- there were timers when it had the read lock
  | checked (now : BitVec 64)
  deriving DecidableEq, Repr

/-- A timer whose callback has been returned, with its deadline and the largest sample at that moment. -/
structure Returned where
  timer : Nat
  deadline : BitVec 64
  largest : BitVec 64
  deriving DecidableEq, Repr

structure State (κ : Type) where
  timers : Timers.State κ
  clock : BitVec 64
  -- the largest value of the clock that a thread has sampled
  largest : BitVec 64
  threads : Nat → Phase
  returned : List Returned

inductive Event (κ : Type)
  -- time goes by
  | tick (clock : BitVec 64)
  | sample (thread : Nat)
  -- the section with the read lock
  | check (thread : Nat) (now : BitVec 64)
  -- the section with the write lock, with the address of `now_timer`
  | expire (thread : Nat) (now : BitVec 64) (nowTimer : Nat)
  -- a timer is added, cancelled, refreshed, reset or released
  | call (e : Timers.Event κ)
  deriving DecidableEq, Repr

variable {κ : Type}

def initial (clock : BitVec 64) : State κ := ⟨Timers.initial clock, clock, 0, fun _ => .idle, []⟩

/-- What is done to single timers, with readings that the clock has shown. -/
def Read (clock : BitVec 64) : Timers.Event κ → Prop
  | .addTimer _ _ _ _ now => now ≤ clock
  | .cancel _ => True
  | .refresh _ now => now ≤ clock
  | .reset _ _ _ now => now ≤ clock
  | .listExpiredCallback _ _ => False
  | .release _ => True

instance (clock : BitVec 64) : ∀ e : Timers.Event κ, Decidable (Read clock e)
  | .addTimer _ _ _ _ now => inferInstanceAs (Decidable (now ≤ clock))
  | .cancel _ => inferInstanceAs (Decidable True)
  | .refresh _ now => inferInstanceAs (Decidable (now ≤ clock))
  | .reset _ _ _ now => inferInstanceAs (Decidable (now ≤ clock))
  | .listExpiredCallback _ _ => inferInstanceAs (Decidable False)
  | .release _ => inferInstanceAs (Decidable True)

def Enabled (s : State κ) : Event κ → Prop
  | .tick clock => s.clock ≤ clock
  | .sample t => s.threads t = .idle
  | .check t now => s.threads t = .sampled now
  | .expire t now p => s.threads t = .checked now ∧ s.timers.Free p
  | .call e => Read s.clock e ∧ Timers.Enabled s.timers e

instance (s : State κ) (e : Event κ) : Decidable (Enabled s e) := by
  cases e <;> unfold Enabled <;> infer_instance

def State.setThread (s : State κ) (t : Nat) (phase : Phase) : State κ :=
  { s with threads := Function.update s.threads t phase }

/-- The timers whose callbacks the call returns. -/
def State.returns (s : State κ) (now : BitVec 64) : List Returned :=
  (s.timers.manager.expired now).map fun q => ⟨q, (s.timers.manager.objects q).next, s.largest⟩

def next (s : State κ) : Event κ → State κ
  | .tick clock => { s with clock := clock }
  | .sample t => { s.setThread t (.sampled s.clock) with largest := if s.largest < s.clock then s.clock else s.largest }
  | .check t now => s.setThread t (if s.timers.manager.timers = [] then .idle else .checked now)
  | .expire t now p =>
    { s.setThread t .idle with
      timers := Timers.next s.timers (.listExpiredCallback now p)
      returned := s.returned ++ s.returns now }
  | .call e => { s with timers := Timers.next s.timers e }

def machine (clock : BitVec 64) : Machine (State κ) (Event κ) where
  start := initial clock
  step s e := if Enabled s e then some (next s e) else none

theorem machine_step {clock : BitVec 64} {s s' : State κ} {e : Event κ} (h : (machine clock).step s e = some s') :
    Enabled s e ∧ next s e = s' := by
  simpa [machine] using h

/-- The sample is not older than the last one that was used, or older by an hour at most, where the last one was used
after the first hour. -/
def Recent (previous now : BitVec 64) : Prop :=
  previous.toNat ≤ now.toNat ∨ 3600000 ≤ previous.toNat ∧ previous.toNat ≤ now.toNat + 3600000

instance (previous now : BitVec 64) : Decidable (Recent previous now) := inferInstanceAs (Decidable (_ ∨ _))

/-- A thread with the write lock compares a recent sample, or finds no timers. -/
def InOrder (s : State κ) : Event κ → Prop
  | .expire _ now _ => s.timers.manager.timers = [] ∨ Recent s.timers.manager.previousTime now
  | _ => True

/-- The hour is subtracted without a sign. -/
theorem detectClockRollover_eq_false_iff (m : TimerManager κ) (now : BitVec 64) :
    (m.detectClockRollover now).1 = false ↔ Recent m.previousTime now := by
  have hnow := now.isLt
  have hprevious := m.previousTime.isLt
  simp only [TimerManager.detectClockRollover, Recent, decide_eq_false_iff_not, BitVec.lt_def, BitVec.toNat_sub]
  have hhour : (60 * 60 * 1000 : BitVec 64).toNat = 3600000 := rfl
  rw [hhour]
  omega

/-- What holds in every state of a run in which the samples are recent. -/
structure Timely (s : State κ) : Prop where
  consistent : Consistent s.timers
  sampled : ∀ t now, s.threads t = .sampled now → now ≤ s.largest
  checked : ∀ t now, s.threads t = .checked now → now ≤ s.largest
  due : ∀ r ∈ s.returned, r.deadline ≤ r.largest

theorem Timely.initial (clock : BitVec 64) : Timely (initial clock : State κ) where
  consistent := Consistent.initial clock
  sampled t now h := by cases h
  checked t now h := by cases h
  due r hr := by cases hr

/-! ### One step -/

section

variable {s : State κ}

/-- A thread goes on with a sample that has been made. -/
theorem Timely.setThread (h : Timely s) (t : Nat) (phase : Phase)
    (hsampled : ∀ now, phase = .sampled now → now ≤ s.largest)
    (hchecked : ∀ now, phase = .checked now → now ≤ s.largest) : Timely (s.setThread t phase) where
  consistent := h.consistent
  sampled :=
    (Function.forall_update_iff s.threads fun _ phase => ∀ now, phase = .sampled now → now ≤ s.largest).2
      ⟨hsampled, fun u _ => h.sampled u⟩
  checked :=
    (Function.forall_update_iff s.threads fun _ phase => ∀ now, phase = .checked now → now ≤ s.largest).2
      ⟨hchecked, fun u _ => h.checked u⟩
  due := h.due

theorem Timely.enlarge (h : Timely s) {largest : BitVec 64} (hle : s.largest ≤ largest) :
    Timely { s with largest := largest } where
  consistent := h.consistent
  sampled t now ht := BitVec.le_trans (h.sampled t now ht) hle
  checked t now ht := BitVec.le_trans (h.checked t now ht) hle
  due := h.due

theorem Timely.sample (h : Timely s) (t : Nat) : Timely (next s (.sample t)) := by
  have hlarger : s.largest ≤ (if s.largest < s.clock then s.clock else s.largest) := by
    split
    case isTrue hlt => exact BitVec.le_of_lt hlt
    case isFalse => exact BitVec.le_refl _
  have hclock : s.clock ≤ (if s.largest < s.clock then s.clock else s.largest) := by
    split
    case isTrue => exact BitVec.le_refl _
    case isFalse hlt => exact BitVec.not_lt.1 hlt
  apply (h.enlarge hlarger).setThread t
  · intro now hnow
    cases hnow
    exact hclock
  · intro now hnow
    cases hnow

theorem Timely.check (h : Timely s) {t : Nat} {now : BitVec 64} (ht : s.threads t = .sampled now) :
    Timely (next s (.check t now)) := by
  apply h.setThread t
  · intro now' hnow
    split at hnow <;> cases hnow
  · intro now' hnow
    split at hnow
    case isTrue => cases hnow
    case isFalse =>
      cases hnow
      exact h.sampled t now ht

/-- Where the clock has not been set back, what expires is due. -/
theorem Timely.due_of_recent (h : Timely s) {t : Nat} {now : BitVec 64} (ht : s.threads t = .checked now)
    (horder : s.timers.manager.timers = [] ∨ Recent s.timers.manager.previousTime now) :
    ∀ r ∈ s.returns now, r.deadline ≤ r.largest := by
  intro r hr
  obtain ⟨q, hq, rfl⟩ := List.mem_map.1 hr
  obtain ⟨hmem, hdue⟩ := TimerManager.mem_expired.1 hq
  have hrecent : Recent s.timers.manager.previousTime now := by
    apply horder.resolve_left
    rintro hnil
    rw [hnil] at hmem
    cases hmem
  rw [(detectClockRollover_eq_false_iff _ now).2 hrecent, or_iff_right Bool.false_ne_true] at hdue
  exact BitVec.le_trans hdue (h.checked t now ht)

theorem Timely.expire (h : Timely s) {t : Nat} {now : BitVec 64} {p : Nat} (ht : s.threads t = .checked now)
    (hfree : s.timers.Free p) (horder : s.timers.manager.timers = [] ∨ Recent s.timers.manager.previousTime now) :
    Timely (next s (.expire t now p)) := by
  have hidle : Timely (s.setThread t .idle) :=
    h.setThread t .idle (fun _ hphase => by cases hphase) (fun _ hphase => by cases hphase)
  refine { hidle with consistent := ?_, due := ?_ }
  · exact h.consistent.listExpiredCallback hfree now
  · intro r hr
    rcases List.mem_append.1 hr with hold | hnew
    · exact h.due r hold
    · exact h.due_of_recent ht horder r hnew

theorem Timely.call (h : Timely s) {e : Timers.Event κ} (henabled : Timers.Enabled s.timers e) :
    Timely (next s (.call e)) := { h with consistent := h.consistent.next henabled }

end

theorem Timely.step {clock : BitVec 64} {s s' : State κ} {e : Event κ} (h : Timely s) (horder : InOrder s e)
    (hstep : (machine clock).step s e = some s') : Timely s' := by
  obtain ⟨henabled, rfl⟩ := machine_step hstep
  cases e with
  | tick clock => exact { h with }
  | sample t => exact h.sample t
  | check t now => exact h.check henabled
  | expire t now p => exact h.expire henabled.1 henabled.2 horder
  | call e => exact h.call henabled.2

theorem Timely.of_reaches {clock : BitVec 64} {s : State κ}
    (h : (machine clock).Reaches InOrder (machine clock).start s) : Timely s :=
  h.invariant (fun _ _ _ hs horder hstep => hs.step horder hstep) (Timely.initial clock)

/-- As long as the samples that reach the write lock are recent, every callback that has been returned was due at the
largest sample, and these are the callbacks of the timers that `State.returns` lists. -/
theorem due_of_reaches {clock : BitVec 64} {s : State κ}
    (h : (machine clock).Reaches InOrder (machine clock).start s) :
    (∀ r ∈ s.returned, r.deadline ≤ r.largest) ∧
      ∀ now p, s.timers.Free p → (s.timers.manager.listExpiredCallback now p []).1 =
        (s.returns now).map fun r => (s.timers.manager.objects r.timer).callback := by
  have hs := Timely.of_reaches h
  refine ⟨hs.due, fun now p hfree => ?_⟩
  obtain ⟨m, heq, -, -, -⟩ := hs.consistent.listExpired hfree now []
  rw [heq, State.returns, List.map_map]
  rfl

/-- A thread that has sampled 5 gets the write lock after another one that has sampled 6. -/
private def overtaken : List (Event Nat) :=
  [.call (.addTimer 8 1000 70 false 5), .sample 0, .tick 6, .sample 1, .check 0 5, .check 1 6, .expire 1 6 16,
    .expire 0 5 16]

theorem exists_early_overtaken : ∃ s : State Nat, (machine 5).Reaches Machine.any (machine 5).start s ∧
    ∃ r ∈ s.returned, r.largest < r.deadline :=
  Machine.exists_reaches_of_run overtaken (fun _ _ _ => trivial) (by decide +kernel)

instance (s : State κ) (e : Event κ) : Decidable (InOrder s e) := by
  cases e <;> unfold InOrder <;> infer_instance

/-- The same two threads, two hours later, and a timer that is due. -/
private def overtakenLater : List (Event Nat) :=
  [.tick 7200005, .call (.addTimer 8 1000 70 false 7200005), .tick 7201005, .sample 0, .tick 7201006, .sample 1,
    .check 0 7201005, .check 1 7201006, .call (.addTimer 9 1000 71 false 7201006), .expire 1 7201006 16,
    .expire 0 7201005 16]

theorem due_of_reaches_overtaken : ∃ s : State Nat,
    (machine 7200000).Reaches InOrder (machine 7200000).start s ∧ s.returned = [⟨8, 7201005, 7201006⟩] ∧
      s.timers.manager.timers = [9] ∧ ∀ r ∈ s.returned, r.deadline ≤ r.largest := by
  obtain ⟨s, hreach, hreturned, htimers⟩ : ∃ s : State Nat,
      (machine 7200000).Reaches InOrder (machine 7200000).start s ∧ s.returned = [⟨8, 7201005, 7201006⟩] ∧
        s.timers.manager.timers = [9] :=
    Machine.exists_reaches_of_guarded overtakenLater (by decide +kernel)
  exact ⟨s, hreach, hreturned, htimers, (due_of_reaches hreach).1⟩

end Timers.Threads

end AcidCompute

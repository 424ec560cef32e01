import AcidCompute.IOManager.Timeout

/-!
# The condition variable of fibers (`CoCond` in `acid/common/co_mutex.{h,cpp}`)

A fiber that waits is in a queue and nowhere else, so that the scheduler would end if it had nothing to do.  To keep it
going, the first to wait adds a timer for `2 ^ 64 - 1` milliseconds, which all that wait share.  The events are the
sections with `m_mutex`, in which both variants of `wait` do the same, and what others do to timers of their own.

The timer lasts as long as nobody calls `notify` while two fibers wait (`CoCond.alive_of_reaches`).
-/

namespace AcidCompute

namespace CoCond

variable {κ : Type}

structure State (κ : Type) where
  timers : Timers.State κ
  -- `m_wait_queue`
  waitQueue : List Nat
  -- `m_timer`
  timer : Option Nat
  -- the fibers that have been handed to the scheduler
  scheduled : List Nat

inductive Event (κ : Type)
  -- with the address of a new timer
  | wait (fiber : Nat) (timer : Nat) (now : BitVec 64)
  | notify
  | notifyAll
  -- something is done to other timers, or expired timers are taken out
  | others (e : Timers.Event κ)
  deriving DecidableEq, Repr

def initial (start : BitVec 64) : State κ := ⟨Timers.initial start, [], none, []⟩

def Enabled (s : State κ) : Event κ → Prop
  | .wait _ timer _ => s.timer = none → s.timers.Free timer
  | .notify => True
  | .notifyAll => True
  | .others e => Timers.Enabled s.timers e ∧ (s.timer = none ∨ e.timer ≠ s.timer)

instance (s : State κ) : (e : Event κ) → Decidable (Enabled s e)
  | .wait _ timer _ => inferInstanceAs (Decidable (s.timer = none → s.timers.Free timer))
  | .notify => inferInstanceAs (Decidable True)
  | .notifyAll => inferInstanceAs (Decidable True)
  | .others e => inferInstanceAs (Decidable (Timers.Enabled s.timers e ∧ (s.timer = none ∨ e.timer ≠ s.timer)))

/-- `m_timer->cancel(); m_timer.reset();` if there is a timer. -/
def State.dropTimer (s : State κ) : State κ :=
  match s.timer with
  | none => s
  | some p => { s with timers := Timers.next s.timers (.cancel p), timer := none }

/-- The timer with an empty task, if there is none yet. -/
def State.keepAlive (s : State κ) (noop : κ) (timer : Nat) (now : BitVec 64) : State κ :=
  match s.timer with
  | none =>
    { s with
      timers := Timers.next s.timers (.addTimer timer (BitVec.ofInt 64 (-1)) noop true now), timer := some timer }
  | some _ => s

variable (noop : κ)

def next (s : State κ) : Event κ → State κ
  | .wait fiber timer now => { s with waitQueue := s.waitQueue ++ [fiber] }.keepAlive noop timer now
  | .notify =>
    match s.waitQueue with
    | [] => s
    | fiber :: rest => { { s with waitQueue := rest }.dropTimer with scheduled := s.scheduled ++ [fiber] }
  | .notifyAll => { s with waitQueue := [], scheduled := s.scheduled ++ s.waitQueue }.dropTimer
  | .others e => { s with timers := Timers.next s.timers e }

def machine (start : BitVec 64) : Machine (State κ) (Event κ) where
  start := initial start
  step s e := if Enabled s e then some (next noop s e) else none

variable {noop} {s s' : State κ} {start : BitVec 64} {e : Event κ}

theorem machine_step (h : (machine noop start).step s e = some s') : Enabled s e ∧ next noop s e = s' := by
  simpa [machine] using h

/-- While a fiber waits, the timer is registered. -/
def Alive (s : State κ) : Prop := s.waitQueue ≠ [] → ∃ p, s.timer = some p ∧ p ∈ s.timers.manager.timers

/-- `notify` is called only while one fiber waits, or none. -/
def AtMostOne (s : State κ) : Event κ → Prop
  | .notify => s.waitQueue.length ≤ 1
  | _ => True

instance (s : State κ) : (e : Event κ) → Decidable (AtMostOne s e)
  | .wait _ _ _ => inferInstanceAs (Decidable True)
  | .notify => inferInstanceAs (Decidable (s.waitQueue.length ≤ 1))
  | .notifyAll => inferInstanceAs (Decidable True)
  | .others _ => inferInstanceAs (Decidable True)

/-- What holds in every state of a run. -/
structure Sound (s : State κ) : Prop where
  consistent : Timers.Consistent s.timers
  registered : ∀ p, s.timer = some p →
    s.timers.allocated p = true ∧ p ∈ s.timers.manager.timers ∧ (s.timers.manager.objects p).recurring = true

theorem Sound.initial (start : BitVec 64) : Sound (initial start : State κ) :=
  ⟨Timers.Consistent.initial start, fun p hp => by cases hp⟩

/-! ### The timer -/

@[simp] theorem dropTimer_timer : s.dropTimer.timer = none := by
  unfold State.dropTimer
  split
  case h_1 hnone => exact hnone
  case h_2 => rfl

@[simp] theorem dropTimer_waitQueue : s.dropTimer.waitQueue = s.waitQueue := by
  unfold State.dropTimer
  split <;> rfl

theorem Sound.dropTimer (h : Sound s) : Sound s.dropTimer := by
  refine ⟨?_, fun p hp => by rw [dropTimer_timer] at hp; cases hp⟩
  unfold State.dropTimer
  split
  case h_1 => exact h.consistent
  case h_2 p hp => exact h.consistent.cancel (h.registered p hp).1

/-- Afterwards there is a timer, which recurs and is in the set. -/
theorem Sound.keepAlive (h : Sound s) {timer : Nat} (hfree : s.timer = none → s.timers.Free timer) (now : BitVec 64) :
    Sound (s.keepAlive noop timer now) ∧ ∃ p, (s.keepAlive noop timer now).timer = some p := by
  unfold State.keepAlive
  split
  case h_1 hnone =>
    refine ⟨⟨h.consistent.addTimer (hfree hnone) _ noop true now, ?_⟩, timer, rfl⟩
    intro p hp
    obtain rfl : timer = p := Option.some.inj hp
    refine ⟨Function.update_self _ _ _, TimerManager.mem_addTimerLocked.2 (.inl rfl), ?_⟩
    simp [Timers.next, TimerManager.addTimer, Timer.new]
  case h_2 p hp => exact ⟨h, p, hp⟩

/-- A timer that recurs stays in the set as long as others have timers of their own. -/
theorem Sound.others (h : Sound s) {e : Timers.Event κ} (henabled : Timers.Enabled s.timers e)
    (hother : s.timer = none ∨ e.timer ≠ s.timer) : Sound { s with timers := Timers.next s.timers e } := by
  refine ⟨h.consistent.next henabled, ?_⟩
  intro p hp
  have htimer : s.timer = some p := hp
  obtain ⟨halloc, hmem, hrec⟩ := h.registered p htimer
  have hne : e.timer ≠ some p := by
    rcases hother with hnone | hne
    · rw [htimer] at hnone
      cases hnone
    · rwa [htimer] at hne
  obtain ⟨halloc', hrec'⟩ := h.consistent.recurring_next henabled halloc hne
  refine ⟨halloc', h.consistent.mem_next henabled hmem ?_, hrec'.trans hrec⟩
  rintro (rfl | ⟨now, q, -, -, hnot⟩)
  · exact hne rfl
  · rw [hrec] at hnot
    cases hnot

theorem Sound.step (h : Sound s) (hstep : (machine noop start).step s e = some s') : Sound s' := by
  obtain ⟨henabled, rfl⟩ := machine_step hstep
  cases e with
  | wait fiber timer now =>
    have hqueued : Sound { s with waitQueue := s.waitQueue ++ [fiber] } := ⟨h.consistent, h.registered⟩
    exact (hqueued.keepAlive henabled now).1
  | notify =>
    unfold next
    cases hqueue : s.waitQueue with
    | nil => exact h
    | cons fiber rest =>
      have hpopped : Sound { s with waitQueue := rest } := ⟨h.consistent, h.registered⟩
      exact ⟨hpopped.dropTimer.consistent, hpopped.dropTimer.registered⟩
  | notifyAll =>
    have hempty : Sound { s with waitQueue := [], scheduled := s.scheduled ++ s.waitQueue } :=
      ⟨h.consistent, h.registered⟩
    exact hempty.dropTimer
  | others e => exact h.others henabled.1 henabled.2

/-! ### Who waits -/

/-- A step takes the timer away from a fiber that waits just if it is a `notify` for one of several. -/
theorem alive_iff (h : Sound s) (halive : Alive s) (hstep : (machine noop start).step s e = some s') :
    Alive s' ↔ AtMostOne s e := by
  have hsound := h.step hstep
  obtain ⟨henabled, rfl⟩ := machine_step hstep
  cases e with
  | wait fiber timer now =>
    refine iff_of_true (fun _ => ?_) trivial
    have hqueued : Sound { s with waitQueue := s.waitQueue ++ [fiber] } := ⟨h.consistent, h.registered⟩
    obtain ⟨p, hp⟩ := (hqueued.keepAlive henabled now).2
    exact ⟨p, hp, (hsound.registered p hp).2.1⟩
  | notify =>
    cases hqueue : s.waitQueue with
    | nil =>
      have hsame : next noop s .notify = s := by simp [next, hqueue]
      rw [hsame]
      exact iff_of_true halive (by simp [AtMostOne, hqueue])
    | cons fiber rest =>
      have htimer : (next noop s .notify).timer = none := by simp [next, hqueue]
      have hrest : (next noop s .notify).waitQueue = rest := by simp [next, hqueue]
      rw [Alive, htimer, hrest]
      cases rest with
      | nil => simp [AtMostOne, hqueue]
      | cons fiber' rest => simp [AtMostOne, hqueue]
  | notifyAll =>
    have hempty : (next noop s .notifyAll).waitQueue = [] := by simp [next]
    exact iff_of_true (fun hne => absurd hempty hne) trivial
  | others e =>
    refine iff_of_true (fun hne => ?_) trivial
    obtain ⟨p, hp, -⟩ := halive hne
    exact ⟨p, hp, (hsound.registered p hp).2.1⟩

/-- A run keeps the timer for the fibers that wait just if no `notify` comes while two of them wait, and then they keep
the scheduler going. -/
theorem alive_of_reaches :
    ((machine noop start).Reaches ((machine noop start).Keeps Alive) (initial start) s ↔
        (machine noop start).Reaches AtMostOne (initial start) s) ∧
      ((machine noop start).Reaches AtMostOne (initial start) s → Alive s ∧
        ∀ now pendingEventCount schedulerStopping, now ≠ 0 → s.waitQueue ≠ [] →
          IOManager.stopping s.timers.manager now pendingEventCount schedulerStopping = false) := by
  have hstart : Alive (initial start : State κ) := fun hne => absurd rfl hne
  constructor
  · exact Machine.reaches_keeps_iff (Sound.initial start) hstart (fun _ _ _ hs hstep => hs.step hstep)
      fun _ _ _ hs ha hstep => alive_iff hs ha hstep
  · intro h
    have halive : Sound s ∧ Alive s := by
      refine h.invariant (I := fun t => Sound t ∧ Alive t) ?_ ⟨Sound.initial start, hstart⟩
      rintro t e t' ⟨hs, ha⟩ hone hstep
      exact ⟨hs.step hstep, (alive_iff hs ha hstep).2 hone⟩
    refine ⟨halive.2, ?_⟩
    intro now pendingEventCount schedulerStopping hnow hwaits
    obtain ⟨p, -, hmem⟩ := halive.2 hwaits
    have hnext := TimerManager.getNextTimer_ne_allOnes (m := s.timers.manager) hnow (List.ne_nil_of_mem hmem)
    exact decide_eq_false fun hstop => hnext hstop.1

/-- Two fibers wait, and one is notified. -/
private def twoFibers : List (Event Nat) := [.wait 1 8 5, .wait 2 9 6, .notify]

theorem exists_parked_twoFibers : ∃ s : State Nat, (machine 0 5).Reaches Machine.any (initial 5) s ∧
    s.waitQueue = [2] ∧ s.timer = none ∧ s.timers.manager.timers = [] ∧
      IOManager.stopping s.timers.manager 7 0 true = true :=
  Machine.exists_reaches_of_run twoFibers (fun _ _ _ => trivial) (by decide +kernel)

/-- Before that both fibers keep the scheduler going. -/
theorem alive_of_reaches_twoFibers : ∃ s : State Nat, (machine 0 5).Reaches AtMostOne (initial 5) s ∧
    s.waitQueue = [1, 2] ∧ Alive s := by
  obtain ⟨s, hreach, hqueue⟩ : ∃ s : State Nat, (machine 0 5).Reaches AtMostOne (initial 5) s ∧ s.waitQueue = [1, 2] :=
    Machine.exists_reaches_of_guarded (twoFibers.take 2) (by decide +kernel)
  exact ⟨s, hreach, hqueue, (alive_of_reaches.2 hreach).1⟩

end CoCond

end AcidCompute

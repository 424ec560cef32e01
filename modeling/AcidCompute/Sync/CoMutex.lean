import AcidCompute.Base.Machine
import Mathlib.Logic.Function.Basic

/-!
# The mutex of fibers (`acid/common/co_mutex.{h,cpp}`)

`CoMutex` has a spinlock `m_mutex`, the id of the fiber that holds it, and a queue of fibers, which a second spinlock
guards.  The events are `try_lock`, `m_mutex.unlock` and the sections with `m_guard`, the comparison of the ids, the
store of the id behind `try_lock`, and the call of the scheduler.

A caller is a fiber of a scheduler or runs on the stack of a thread; in the latter case it may have no fiber and the id
0, `Fiber::get_this` makes a fiber for it, and `yield` returns at once.  What a scheduler does with the fiber of a
thread is left out.

Nothing counts nested scopes: the mutex excludes others only as long as no scope in another one ends
(`CoMutex.exclusive_of_reaches`).
-/

namespace AcidCompute

namespace CoMutex

/-- The callers of a mutex, and what `m_fiber_id` holds before it is set, which no constructor does. -/
structure Setting (ι : Type) where
  -- the id of the caller's fiber
  ids : ι → Nat
  thread : ι → Bool
  fiberId : Nat

/-- Where a caller is in `lock` and `unlock`. -/
inductive Phase (ι : Type)
  | idle
  -- in front of `while (!try_lock())`
  | trying
  -- in front of the section with `m_guard`
  | failed
  | parked
  -- scheduled again, in front of `while (!try_lock())`
  | woken
  -- `m_mutex` is taken and `m_fiber_id` not set
  | taken
  -- in front of `m_mutex.unlock()`, with the fiber that was in the queue
  | releasing (fiber : Option ι)
  -- in front of `schedule(fiber)`
  | scheduling (fiber : ι)
  deriving DecidableEq, Repr

structure Caller (ι : Type) where
  phase : Phase ι
  -- the scopes with a lock that the caller is in
  depth : Nat
  -- `t_fiber` is set
  hasFiber : Bool
  deriving DecidableEq, Repr

structure State (ι : Type) where
  -- `m_mutex`
  locked : Bool
  -- `m_fiber_id`
  fiberId : Nat
  -- `m_wait_queue`
  waitQueue : List ι
  callers : ι → Caller ι

inductive Event (ι : Type)
  -- the comparison in `lock`
  | lock (c : ι)
  | tryLock (c : ι)
  -- the section with `m_guard` in `lock`
  | guard (c : ι)
  | setId (c : ι)
  -- the section with `m_guard` in `unlock`
  | unlock (c : ι)
  | release (c : ι) (fiber : Option ι)
  | schedule (c : ι) (fiber : ι)
  deriving DecidableEq, Repr

variable {ι : Type} [DecidableEq ι]

namespace State

variable (s : State ι)

def setCaller (c : ι) (caller : Caller ι) : State ι := { s with callers := Function.update s.callers c caller }

def setPhase (c : ι) (phase : Phase ι) : State ι := s.setCaller c { s.callers c with phase := phase }

/-- `lock` returns. -/
def enter (c : ι) : State ι := s.setCaller c { s.callers c with phase := .idle, depth := (s.callers c).depth + 1 }

/-- `IOManager::get_this()->schedule(fiber)` -/
def wake (f : ι) : State ι := if (s.callers f).phase = .parked then s.setPhase f .woken else s

end State

variable (setting : Setting ι)

/-- `Fiber::get_fiber_id()` -/
def getFiberId (s : State ι) (c : ι) : Nat := if (s.callers c).hasFiber then setting.ids c else 0

def initial : State ι where
  locked := false
  fiberId := setting.fiberId
  waitQueue := []
  callers c := ⟨.idle, 0, !setting.thread c⟩

def Enabled (s : State ι) : Event ι → Prop
  | .lock c => (s.callers c).phase = .idle
  | .tryLock c => (s.callers c).phase = .trying ∨ (s.callers c).phase = .woken
  | .guard c => (s.callers c).phase = .failed
  | .setId c => (s.callers c).phase = .taken
  | .unlock c => (s.callers c).phase = .idle ∧ 0 < (s.callers c).depth
  | .release c fiber => (s.callers c).phase = .releasing fiber
  | .schedule c fiber => (s.callers c).phase = .scheduling fiber

instance (s : State ι) (e : Event ι) : Decidable (Enabled s e) := by
  cases e <;> unfold Enabled <;> infer_instance

/-- `unlock` goes on behind `m_mutex.unlock()`. -/
def afterRelease : Option ι → Phase ι
  | some fiber => .scheduling fiber
  | none => .idle

def next (s : State ι) : Event ι → State ι
  | .lock c => if getFiberId setting s c = s.fiberId then s.enter c else s.setPhase c .trying
  | .tryLock c => if s.locked then s.setPhase c .failed else { s.setPhase c .taken with locked := true }
  | .guard c =>
    if s.locked then
      { s.setCaller c ⟨if setting.thread c then .trying else .parked, (s.callers c).depth, true⟩ with
        waitQueue := s.waitQueue ++ [c] }
    else { s.enter c with locked := true, fiberId := getFiberId setting s c }
  | .setId c => { s.enter c with fiberId := getFiberId setting s c }
  | .unlock c =>
    { s.setCaller c ⟨.releasing s.waitQueue.head?, (s.callers c).depth - 1, (s.callers c).hasFiber⟩ with
      fiberId := 0
      waitQueue := s.waitQueue.tail }
  | .release c fiber => { s.setPhase c (afterRelease fiber) with locked := false }
  | .schedule c fiber => (s.wake fiber).setPhase c .idle

def machine : Machine (State ι) (Event ι) where
  start := initial setting
  step s e := if Enabled s e then some (next setting s e) else none

variable {setting}

theorem machine_step {s s' : State ι} {e : Event ι} (h : (machine setting).step s e = some s') :
    Enabled s e ∧ next setting s e = s' := by
  simpa [machine] using h

variable {s s' : State ι}

/-! ### One caller at a time -/

/-- The caller is in a scope with a lock, or `m_mutex` is its own. -/
def Owns (caller : Caller ι) : Prop :=
  0 < caller.depth ∨ caller.phase = .taken ∨ ∃ fiber, caller.phase = .releasing fiber

/-- A caller that is about to give the mutex away is in no scope any more. -/
def Ended (caller : Caller ι) : Prop := ∀ fiber, caller.phase = .releasing fiber → caller.depth = 0

/-- A caller in no scope does not find its own id, and a scope that ends lies in no other scope. -/
def Outermost (setting : Setting ι) (s : State ι) : Event ι → Prop
  | .lock c => getFiberId setting s c = s.fiberId → 0 < (s.callers c).depth
  | .unlock c => (s.callers c).depth = 1
  | _ => True

instance (s : State ι) (e : Event ι) : Decidable (Outermost setting s e) := by
  cases e <;> unfold Outermost <;> infer_instance

/-- What holds as long as only outermost scopes end. -/
structure Exclusive (s : State ι) : Prop where
  one : ∀ c c', Owns (s.callers c) → Owns (s.callers c') → c = c'
  locked : ∀ c, Owns (s.callers c) → s.locked = true
  released : ∀ c, Ended (s.callers c)

omit [DecidableEq ι] in
theorem Exclusive.initial : Exclusive (initial setting) where
  one c c' h := by simp [Owns, CoMutex.initial] at h
  locked c h := by simp [Owns, CoMutex.initial] at h
  released c fiber h := by simp [CoMutex.initial] at h

/-- A caller goes on that has the mutex afterwards only if it had it before. -/
theorem Exclusive.change (h : Exclusive s) {c : ι} {caller : Caller ι}
    (hcallers : s'.callers = Function.update s.callers c caller) (hlocked : s'.locked = s.locked)
    (howns : Owns caller → Owns (s.callers c)) (hreleased : Ended caller) : Exclusive s' := by
  have hsame : ∀ g, Owns (s'.callers g) → Owns (s.callers g) := by
    rw [hcallers]
    exact (Function.forall_update_iff s.callers fun g caller => Owns caller → Owns (s.callers g)).2
      ⟨howns, fun _ _ => id⟩
  constructor
  case one => exact fun g g' hg hg' => h.one g g' (hsame g hg) (hsame g' hg')
  case locked => exact fun g hg => hlocked.trans (h.locked g (hsame g hg))
  case released =>
    rw [hcallers]
    exact (Function.forall_update_iff s.callers fun _ caller => Ended caller).2 ⟨hreleased, fun g _ => h.released g⟩

/-- A caller takes the mutex while it is free. -/
theorem Exclusive.take (h : Exclusive s) {c : ι} {caller : Caller ι} (hfree : s.locked = false)
    (hcallers : s'.callers = Function.update s.callers c caller) (hlocked : s'.locked = true)
    (hreleased : ∀ fiber, caller.phase ≠ .releasing fiber) : Exclusive s' := by
  have hnone : ∀ g, ¬ Owns (s.callers g) := by
    intro g hg
    have hheld := h.locked g hg
    rw [hfree] at hheld
    cases hheld
  have honly : ∀ g, Owns (s'.callers g) → g = c := by
    intro g hg
    by_contra hne
    rw [hcallers, Function.update_of_ne hne] at hg
    exact hnone g hg
  constructor
  case one => exact fun g g' hg hg' => (honly g hg).trans (honly g' hg').symm
  case locked => exact fun _ _ => hlocked
  case released =>
    rw [hcallers]
    exact (Function.forall_update_iff s.callers fun _ caller => Ended caller).2
      ⟨fun fiber hphase => absurd hphase (hreleased fiber), fun g _ => h.released g⟩

theorem Exclusive.release (h : Exclusive s) {c : ι} {fiber : Option ι}
    (hphase : (s.callers c).phase = .releasing fiber) : Exclusive (next setting s (.release c fiber)) := by
  have hnone : ∀ g, ¬ Owns ((next setting s (.release c fiber)).callers g) := by
    intro g hg
    by_cases heq : g = c
    · subst heq
      have hdepth := h.released g fiber hphase
      cases fiber <;> simp [next, State.setPhase, State.setCaller, Owns, afterRelease, hdepth] at hg
    · simp only [next, State.setPhase, State.setCaller, Function.update_of_ne heq] at hg
      exact heq (h.one g c hg (.inr (.inr ⟨fiber, hphase⟩)))
  constructor
  case one => exact fun g g' hg => absurd hg (hnone g)
  case locked => exact fun g hg => absurd hg (hnone g)
  case released =>
    intro g f hg
    exact absurd (.inr (.inr ⟨f, hg⟩)) (hnone g)

theorem Exclusive.wake (h : Exclusive s) (f : ι) : Exclusive (s.wake f) := by
  unfold State.wake
  split
  case isTrue hparked =>
    refine h.change rfl rfl ?_ (fun fiber hphase => by cases hphase)
    rintro (hdepth | hphase | ⟨fiber, hphase⟩)
    · exact .inl hdepth
    · cases hphase
    · cases hphase
  case isFalse => exact h

/-- In front of a phase in which `m_mutex` is not its own, a caller has it only as the owner of a scope. -/
theorem Exclusive.setPhase (h : Exclusive s) (c : ι) {phase : Phase ι} (htaken : phase ≠ .taken)
    (hreleasing : ∀ fiber, phase ≠ .releasing fiber) : Exclusive (s.setPhase c phase) := by
  refine h.change rfl rfl ?_ (fun fiber hphase => absurd hphase (hreleasing fiber))
  rintro (hdepth | hphase | ⟨fiber, hphase⟩)
  · exact .inl hdepth
  · exact absurd hphase htaken
  · exact absurd hphase (hreleasing fiber)

theorem Exclusive.step {e : Event ι} (h : Exclusive s) (houtermost : Outermost setting s e)
    (hstep : (machine setting).step s e = some s') : Exclusive s' := by
  obtain ⟨henabled, rfl⟩ := machine_step hstep
  cases e with
  | lock c =>
    simp only [next]
    split
    case isTrue hid =>
      refine h.change rfl rfl (fun _ => .inl (houtermost hid)) (fun fiber hphase => by cases hphase)
    case isFalse => exact h.setPhase c (by simp) (by simp)
  | tryLock c =>
    simp only [next]
    split
    case isTrue => exact h.setPhase c (by simp) (by simp)
    case isFalse hfree =>
      exact h.take (Bool.eq_false_iff.2 hfree) rfl rfl (fun fiber hphase => by cases hphase)
  | guard c =>
    simp only [next]
    split
    case isTrue =>
      refine h.change rfl rfl ?_ ?_
      · rintro (hdepth | hphase | ⟨fiber, hphase⟩)
        · exact .inl hdepth
        · split at hphase <;> cases hphase
        · split at hphase <;> cases hphase
      · intro fiber hphase
        split at hphase <;> cases hphase
    case isFalse hfree =>
      exact h.take (Bool.eq_false_iff.2 hfree) rfl rfl (fun fiber hphase => by cases hphase)
  | setId c => exact h.change rfl rfl (fun _ => .inr (.inl henabled)) (fun fiber hphase => by cases hphase)
  | unlock c =>
    have hdepth : (s.callers c).depth - 1 = 0 := by rw [show (s.callers c).depth = 1 from houtermost]
    exact h.change rfl rfl (fun _ => .inl henabled.2) (fun _ _ => hdepth)
  | release c fiber => exact h.release henabled
  | schedule c fiber => exact (h.wake fiber).setPhase c (by simp) (by simp)

/-- As long as no caller from outside finds its own id in `m_fiber_id` and only outermost scopes end, two callers are
never in scopes of the same mutex. -/
theorem exclusive_of_reaches (h : (machine setting).Reaches (Outermost setting) (machine setting).start s) :
    ∀ c c', 0 < (s.callers c).depth → 0 < (s.callers c').depth → c = c' := by
  have hs : Exclusive s :=
    h.invariant (fun _ _ _ ht houtermost hstep => ht.step houtermost hstep) Exclusive.initial
  exact fun c c' hc hc' => hs.one c c' (.inl hc) (.inl hc')

inductive Pair
  | first
  | second
  deriving DecidableEq, Repr

/-- Two fibers, with the id of nobody in `m_fiber_id` at first. -/
def twoFibers : Setting Pair := ⟨fun c => if c = .first then 1 else 2, fun _ => false, 0⟩

/-- A fiber locks the mutex in a nested scope, and gives it away at the end of that scope. -/
private def nested : List (Event Pair) :=
  [.lock .first, .tryLock .first, .setId .first, .lock .first, .unlock .first, .release .first none, .lock .second,
    .tryLock .second, .setId .second]

theorem exists_shared_nested : ∃ s, (machine twoFibers).Reaches Machine.any (machine twoFibers).start s ∧
    0 < (s.callers .first).depth ∧ 0 < (s.callers .second).depth :=
  Machine.exists_reaches_of_run nested (fun _ _ _ => trivial) (by decide +kernel)

/-- A fiber waits for the other one and has the mutex after it. -/
private def handedOver : List (Event Pair) :=
  [.lock .first, .tryLock .first, .setId .first, .lock .second, .tryLock .second, .guard .second, .unlock .first,
    .release .first (some .second), .schedule .first .second, .tryLock .second, .setId .second]

theorem exclusive_of_reaches_handedOver : ∃ s,
    (machine twoFibers).Reaches (Outermost twoFibers) (machine twoFibers).start s ∧ 0 < (s.callers .second).depth ∧
      ∀ c, 0 < (s.callers c).depth → c = .second := by
  obtain ⟨s, hreach, hdepth⟩ : ∃ s,
      (machine twoFibers).Reaches (Outermost twoFibers) (machine twoFibers).start s ∧ 0 < (s.callers .second).depth :=
    Machine.exists_reaches_of_guarded handedOver (by decide +kernel)
  exact ⟨s, hreach, hdepth, fun c hc => exclusive_of_reaches hreach c .second hc hdepth⟩

end CoMutex

end AcidCompute

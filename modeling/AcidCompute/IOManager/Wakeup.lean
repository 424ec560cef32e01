import AcidCompute.IOManager.Timeout
import AcidCompute.Scheduler.Basic

/-!
# Waking the workers of an `IOManager`

A worker that finds no task waits in `epoll_wait`.  Whoever puts a task into an empty list, or a timer in front of all
others, calls `tickle`, which writes into a pipe that `epoll_wait` watches, unless no worker is counted as idle.  A
worker is counted some time after it has looked into the list, and a tickle in between finds nobody to wake
(`exists_forgotten`).  Where no tickle comes in between, no task is left while all workers wait
(`tasklist_of_reaches`).

The events are the sections with `m_mutex`, the steps on `m_idle_thread_count`, and the calls around `epoll_wait`.
A thread in `tickle` is counted in `tickles` in front of `has_idle_thread()`, and in `writes` behind it; what such a
thread does next does not wait for it here.  `epoll_wait` may return at any time, with the pipe among its events if
something has been written that no call of it has returned yet.
-/

namespace AcidCompute

namespace Wakeup

open Scheduler (ScheduleTask FiberOrCallback FiberState)

/-- Where a worker is in `run` and in `idle`. -/
inductive Phase
  -- in front of the section that looks for a task
  | looking
  -- the section has found a task
  | taken (task : ScheduleTask)
  -- in `resume`
  | executing (task : ScheduleTask)
  -- the section has found nothing
  | unoccupied
  -- counted in `m_idle_thread_count`, in front of `stopping(next_timeout)`
  | idle
  -- behind `get_next_timer`, with the reading of the clock and the result
  | planned (now left : BitVec 64)
  -- in `epoll_wait`
  | waiting (now left : BitVec 64)
  -- behind `epoll_wait`
  | awake
  deriving DecidableEq, Repr

/-- The worker is counted in `m_idle_thread_count`. -/
def Phase.counted : Phase → Bool
  | .idle => true
  | .planned _ _ => true
  | .waiting _ _ => true
  | .awake => true
  | _ => false

/-- The worker looks for a task before it waits. -/
def Phase.looks : Phase → Bool
  | .looking => true
  | .taken _ => true
  | .executing _ => true
  | .awake => true
  | _ => false

/-- The worker runs a task with this fiber or callback. -/
def Phase.runs (fc : FiberOrCallback) : Phase → Bool
  | .executing task => task.fc = fc
  | _ => false

variable {κ : Type}

structure State (κ : Type) where
  tasklist : List ScheduleTask
  -- how many tasks have been pushed
  pushed : Nat
  fibers : Nat → FiberState
  workers : List Phase
  idleThreadCount : Nat
  -- threads in `tickle`, in front of and behind `has_idle_thread()`
  tickles : Nat
  writes : Nat
  -- the pipe has become readable, and no `epoll_wait` has returned it yet
  signaled : Bool
  timers : Timers.State κ

/-- A manager whose threads have been started. -/
def initial (threads : Nat) (now : BitVec 64) : State κ where
  tasklist := []
  pushed := 0
  fibers _ := .ready
  workers := List.replicate threads .looking
  idleThreadCount := 0
  tickles := 0
  writes := 0
  signaled := false
  timers := Timers.initial now

inductive Event (κ : Type)
  | schedule (fc : Option FiberOrCallback) (thread : Int)
  -- a fiber is resumed, yields or ends, in a task or somewhere else
  | fiber (f : Nat) (state : FiberState)
  -- the steps of a worker, whose number is also its thread id
  | scan (w : Nat)
  | resume (w : Nat)
  | finish (w : Nat)
  | count (w : Nat)
  | plan (w : Nat) (now : BitVec 64)
  | wait (w : Nat)
  -- `epoll_wait` returns, with the pipe or without it
  | wake (w : Nat) (pipe : Bool)
  | expire (w : Nat) (now : BitVec 64) (nowTimer : Nat)
  | back (w : Nat)
  -- a call on a timer or on the manager, by anybody
  | timer (e : Timers.Event κ)
  -- the steps of `tickle`
  | hasIdleThread
  | write
  deriving DecidableEq, Repr

namespace State

variable (s : State κ)

def setPhase (w : Nat) (phase : Phase) : State κ := { s with workers := s.workers.set w phase }

def scan (w : Nat) : Scheduler.Found := Scheduler.scan s.fibers w s.tasklist

def newTask (fc : Option FiberOrCallback) (thread : Int) : Option ScheduleTask :=
  fc.map fun fc => ⟨fc, thread, s.pushed⟩

/-- `schedule`, as far as the call of `tickle` -/
def schedule (fc : Option FiberOrCallback) (thread : Int) : State κ :=
  let r := Scheduler.scheduleWithoutLock s.tasklist (s.newTask fc thread)
  { s with
    tasklist := r.2
    pushed := s.pushed + 1
    tickles := s.tickles + r.1.toNat }

/-- `resume` of the task, which makes a fiber of a callback. -/
def resumeTask : FiberOrCallback → State κ
  | .fiber f => { s with fibers := Function.update s.fibers f .running }
  | .callback _ => s

/-- A call on the timers, with a call of `tickle` for each of `on_timer_inserted_at_front`. -/
def callTimers (e : Timers.Event κ) : State κ :=
  let timers := Timers.next s.timers e
  { s with
    timers := timers
    tickles := s.tickles + (timers.manager.insertedAtFront - s.timers.manager.insertedAtFront) }

/-- Somebody has to be woken, or will be. -/
def Roused : Prop := 0 < s.tickles ∨ 0 < s.writes ∨ s.signaled = true

instance : Decidable s.Roused := inferInstanceAs (Decidable (_ ∨ _ ∨ _))

end State

/-- Calls on timers that do not belong to `idle`. -/
def Foreign : Timers.Event κ → Bool
  | .listExpiredCallback _ _ => false
  | _ => true

def next (s : State κ) : Event κ → Option (State κ)
  | .schedule fc thread => some (s.schedule fc thread)
  | .fiber f state => some { s with fibers := Function.update s.fibers f state }
  | .scan w =>
    if s.workers[w]? = some .looking then
      let s' := { s with tickles := s.tickles + (s.scan w).tickleMe.toNat }
      match (s.scan w).task with
      | none => some (s'.setPhase w .unoccupied)
      | some task => some ({ s' with tasklist := (s.scan w).rest }.setPhase w (.taken task))
    else none
  | .resume w =>
    match s.workers[w]? with
    | some (.taken task) => some ((s.setPhase w (.executing task)).resumeTask task.fc)
    | _ => none
  | .finish w =>
    match s.workers[w]? with
    | some (.executing _) => some (s.setPhase w .looking)
    | _ => none
  | .count w =>
    if s.workers[w]? = some .unoccupied then
      some { s.setPhase w .idle with idleThreadCount := s.idleThreadCount + 1 }
    else none
  | .plan w now =>
    if s.workers[w]? = some .idle then
      let r := s.timers.manager.getNextTimer now
      some { s.setPhase w (.planned now r.1) with timers := { s.timers with manager := r.2 } }
    else none
  | .wait w =>
    match s.workers[w]? with
    | some (.planned now left) => some (s.setPhase w (.waiting now left))
    | _ => none
  | .wake w pipe =>
    match s.workers[w]? with
    | some (.waiting _ _) =>
      if pipe then
        if s.signaled then some { s.setPhase w .awake with signaled := false } else none
      else some (s.setPhase w .awake)
    | _ => none
  | .expire w now nowTimer =>
    if s.workers[w]? = some .awake ∧ Timers.Enabled s.timers (.listExpiredCallback now nowTimer) then
      some { s with timers := Timers.next s.timers (.listExpiredCallback now nowTimer) }
    else none
  | .back w =>
    if s.workers[w]? = some .awake then
      some { s.setPhase w .looking with idleThreadCount := s.idleThreadCount - 1 }
    else none
  | .timer e => if Foreign e ∧ Timers.Enabled s.timers e then some (s.callTimers e) else none
  | .hasIdleThread =>
    if 0 < s.tickles then
      if 0 < s.idleThreadCount then some { s with tickles := s.tickles - 1, writes := s.writes + 1 }
      else some { s with tickles := s.tickles - 1 }
    else none
  | .write => if 0 < s.writes then some { s with writes := s.writes - 1, signaled := true } else none

def machine (κ : Type) (threads : Nat) (now : BitVec 64) : Machine (State κ) (Event κ) where
  start := initial threads now
  step := next

/-- The steps, one for each way in which the state changes. -/
inductive Step (s : State κ) : Event κ → State κ → Prop
  | schedule (fc : Option FiberOrCallback) (thread : Int) : Step s (.schedule fc thread) (s.schedule fc thread)
  | fiber (f : Nat) (state : FiberState) :
    Step s (.fiber f state) { s with fibers := Function.update s.fibers f state }
  | take {w task} (hphase : s.workers[w]? = some .looking) (hfound : (s.scan w).task = some task) :
    Step s (.scan w) { s.setPhase w (.taken task) with
      tasklist := (s.scan w).rest, tickles := s.tickles + (s.scan w).tickleMe.toNat }
  | pass {w} (hphase : s.workers[w]? = some .looking) (hnone : (s.scan w).task = none) :
    Step s (.scan w) { s.setPhase w .unoccupied with tickles := s.tickles + (s.scan w).tickleMe.toNat }
  | resume {w task} (hphase : s.workers[w]? = some (.taken task)) :
    Step s (.resume w) ((s.setPhase w (.executing task)).resumeTask task.fc)
  | finish {w task} (hphase : s.workers[w]? = some (.executing task)) : Step s (.finish w) (s.setPhase w .looking)
  | count {w} (hphase : s.workers[w]? = some .unoccupied) :
    Step s (.count w) { s.setPhase w .idle with idleThreadCount := s.idleThreadCount + 1 }
  | plan {w} (now : BitVec 64) (hphase : s.workers[w]? = some .idle) :
    Step s (.plan w now) { s.setPhase w (.planned now (s.timers.manager.getNextTimer now).1) with
      timers := { s.timers with manager := (s.timers.manager.getNextTimer now).2 } }
  | wait {w now left} (hphase : s.workers[w]? = some (.planned now left)) :
    Step s (.wait w) (s.setPhase w (.waiting now left))
  | wakePipe {w now left} (hphase : s.workers[w]? = some (.waiting now left)) (hsignaled : s.signaled = true) :
    Step s (.wake w true) { s.setPhase w .awake with signaled := false }
  | wake {w now left} (hphase : s.workers[w]? = some (.waiting now left)) :
    Step s (.wake w false) (s.setPhase w .awake)
  | expire {w} (now : BitVec 64) (nowTimer : Nat) (hphase : s.workers[w]? = some .awake)
    (henabled : Timers.Enabled s.timers (.listExpiredCallback now nowTimer)) :
    Step s (.expire w now nowTimer) { s with timers := Timers.next s.timers (.listExpiredCallback now nowTimer) }
  | back {w} (hphase : s.workers[w]? = some .awake) :
    Step s (.back w) { s.setPhase w .looking with idleThreadCount := s.idleThreadCount - 1 }
  | timer (e : Timers.Event κ) (hforeign : Foreign e = true) (henabled : Timers.Enabled s.timers e) :
    Step s (.timer e) (s.callTimers e)
  | somebody (htickles : 0 < s.tickles) (hidle : 0 < s.idleThreadCount) :
    Step s .hasIdleThread { s with tickles := s.tickles - 1, writes := s.writes + 1 }
  | nobody (htickles : 0 < s.tickles) (hidle : s.idleThreadCount = 0) :
    Step s .hasIdleThread { s with tickles := s.tickles - 1 }
  | write (hwrites : 0 < s.writes) : Step s .write { s with writes := s.writes - 1, signaled := true }

theorem Step.of_next {s s' : State κ} {e : Event κ} (h : next s e = some s') : Step s e s' := by
  cases e with
  | schedule fc thread =>
    cases h
    exact .schedule fc thread
  | fiber f state =>
    cases h
    exact .fiber f state
  | scan w =>
    rw [next] at h
    split at h
    case isTrue hphase =>
      dsimp only at h
      split at h
      case h_1 hnone =>
        cases h
        exact .pass hphase hnone
      case h_2 task hfound =>
        cases h
        exact .take hphase hfound
    case isFalse => cases h
  | resume w =>
    rw [next] at h
    split at h
    case h_1 task hphase =>
      cases h
      exact .resume hphase
    case h_2 => cases h
  | finish w =>
    rw [next] at h
    split at h
    case h_1 task hphase =>
      cases h
      exact .finish hphase
    case h_2 => cases h
  | count w =>
    rw [next] at h
    split at h
    case isTrue hphase =>
      cases h
      exact .count hphase
    case isFalse => cases h
  | plan w now =>
    rw [next] at h
    split at h
    case isTrue hphase =>
      cases h
      exact .plan now hphase
    case isFalse => cases h
  | wait w =>
    rw [next] at h
    split at h
    case h_1 now left hphase =>
      cases h
      exact .wait hphase
    case h_2 => cases h
  | wake w pipe =>
    rw [next] at h
    split at h
    case h_1 now left hphase =>
      cases pipe with
      | true =>
        rw [if_pos rfl] at h
        split at h
        case isTrue hsignaled =>
          cases h
          exact .wakePipe hphase hsignaled
        case isFalse => cases h
      | false =>
        cases h
        exact .wake hphase
    case h_2 => cases h
  | expire w now nowTimer =>
    rw [next] at h
    split at h
    case isTrue hboth =>
      cases h
      exact .expire now nowTimer hboth.1 hboth.2
    case isFalse => cases h
  | back w =>
    rw [next] at h
    split at h
    case isTrue hphase =>
      cases h
      exact .back hphase
    case isFalse => cases h
  | timer e =>
    rw [next] at h
    split at h
    case isTrue hboth =>
      cases h
      exact .timer e hboth.1 hboth.2
    case isFalse => cases h
  | hasIdleThread =>
    rw [next] at h
    split at h
    case isTrue htickles =>
      split at h
      case isTrue hidle =>
        cases h
        exact .somebody htickles hidle
      case isFalse hidle =>
        cases h
        exact .nobody htickles (Nat.eq_zero_of_not_pos hidle)
    case isFalse => cases h
  | write =>
    rw [next] at h
    split at h
    case isTrue hwrites =>
      cases h
      exact .write hwrites
    case isFalse => cases h

/-! ### Workers that look for a task -/

/-- Some worker looks for a task before it waits. -/
def State.Looked (s : State κ) : Prop := ∃ phase ∈ s.workers, phase.looks = true

instance (s : State κ) : Decidable s.Looked := inferInstanceAs (Decidable (∃ phase ∈ s.workers, phase.looks = true))

/-- A tickle looks for idle workers while none that has found no task is still to be counted, and a task whose fiber
runs is passed by only while a worker of this manager runs this fiber. -/
def Heeded (s : State κ) : Event κ → Prop
  | .hasIdleThread => Phase.unoccupied ∉ s.workers
  | .scan w => ∀ task ∈ s.tasklist, task.thread = -1 ∨ task.thread = w → task.fc.Running s.fibers →
      ∃ phase ∈ s.workers, phase.runs task.fc = true
  | _ => True

instance (s : State κ) : (e : Event κ) → Decidable (Heeded s e)
  | .hasIdleThread => inferInstanceAs (Decidable (_ ∉ _))
  | .scan _ => inferInstanceAs (Decidable (∀ task ∈ s.tasklist, _))
  | .schedule _ _ | .fiber _ _ | .resume _ | .finish _ | .count _ | .plan _ _ | .wait _ | .wake _ _ | .expire _ _ _
  | .back _ | .timer _ | .write => inferInstanceAs (Decidable True)

section

variable {s s' : State κ} {w : Nat} {phase phase' : Phase} {e : Event κ}

/-- A worker that goes on is in its new phase. -/
theorem mem_setPhase (h : s.workers[w]? = some phase) : phase' ∈ (s.setPhase w phase').workers := by
  obtain ⟨hw, -⟩ := List.getElem?_eq_some_iff.1 h
  exact List.mem_of_getElem? (List.getElem?_set_self hw)

/-- The other workers stay where they are. -/
theorem mem_setPhase_of_ne (h : s.workers[w]? = some phase) {other : Phase} (hmem : other ∈ s.workers)
    (hne : other ≠ phase) : other ∈ (s.setPhase w phase').workers := by
  obtain ⟨i, hi⟩ := List.mem_iff_getElem?.1 hmem
  have hneq : w ≠ i := by
    rintro rfl
    rw [hi, Option.some.injEq] at h
    exact hne h
  apply List.mem_of_getElem? (i := i)
  rw [State.setPhase, List.getElem?_set_ne hneq]
  exact hi

/-- How many workers are counted after one has gone on. -/
theorem countP_setPhase (h : s.workers[w]? = some phase) (phase' : Phase) :
    (s.workers.set w phase').countP Phase.counted + phase.counted.toNat =
      s.workers.countP Phase.counted + phase'.counted.toNat := by
  obtain ⟨hw, hget⟩ := List.getElem?_eq_some_iff.1 h
  rw [List.countP_set hw, hget]
  have hpos : phase.counted = true → 0 < s.workers.countP Phase.counted := by
    intro hcounted
    exact List.countP_pos_iff.2 ⟨phase, List.mem_of_getElem? h, hcounted⟩
  cases hphase : phase.counted with
  | true =>
    have hpos := hpos hphase
    cases phase'.counted <;> simp <;> omega
  | false => cases phase'.counted <;> simp

/-- `m_idle_thread_count` is what it says. -/
structure Counted (s : State κ) : Prop where
  count : s.idleThreadCount = s.workers.countP Phase.counted
  workers : s.workers ≠ []

theorem Counted.initial {threads : Nat} (hthreads : threads ≠ 0) (now : BitVec 64) :
    Counted (initial threads now : State κ) where
  count := by
    have hnone : (List.replicate threads Phase.looking).countP Phase.counted = 0 := by
      rw [List.countP_eq_zero]
      intro phase hphase
      rw [List.eq_of_mem_replicate hphase]
      decide
    exact hnone.symm
  workers := by
    intro hnil
    exact hthreads ((List.replicate_eq_nil_iff _).1 hnil)

/-- A worker goes on. -/
theorem Counted.setPhase (h : Counted s) (hphase : s.workers[w]? = some phase)
    (hworkers : s'.workers = s.workers.set w phase')
    (hcount : s'.idleThreadCount + phase.counted.toNat = s.idleThreadCount + phase'.counted.toNat) : Counted s' := by
  constructor
  case count =>
    have hset := countP_setPhase hphase phase'
    have hold := h.count
    rw [hworkers]
    omega
  case workers =>
    rw [hworkers]
    intro hnil
    exact h.workers ((List.set_eq_nil_iff _ _).1 hnil)

theorem Counted.step (h : Counted s) (hstep : Step s e s') : Counted s' := by
  cases hstep with
  | schedule | fiber | expire | timer | somebody | nobody | write => exact ⟨h.count, h.workers⟩
  | take hphase hfound => exact h.setPhase hphase rfl rfl
  | pass hphase hnone => exact h.setPhase hphase rfl rfl
  | @resume w task hphase =>
    have hsame : ((s.setPhase w (.executing task)).resumeTask task.fc).workers = s.workers.set w (.executing task) ∧
        ((s.setPhase w (.executing task)).resumeTask task.fc).idleThreadCount = s.idleThreadCount := by
      cases task.fc <;> exact ⟨rfl, rfl⟩
    refine h.setPhase hphase hsame.1 ?_
    rw [hsame.2]
    rfl
  | finish hphase => exact h.setPhase hphase rfl rfl
  | count hphase => exact h.setPhase hphase rfl rfl
  | plan now hphase => exact h.setPhase hphase rfl rfl
  | wait hphase => exact h.setPhase hphase rfl rfl
  | wakePipe hphase hsignaled => exact h.setPhase hphase rfl rfl
  | wake hphase => exact h.setPhase hphase rfl rfl
  | @back w hphase =>
    have hpos : 0 < s.idleThreadCount := by
      rw [h.count]
      exact List.countP_pos_iff.2 ⟨.awake, List.mem_of_getElem? hphase, rfl⟩
    refine h.setPhase hphase rfl ?_
    show s.idleThreadCount - 1 + 1 = s.idleThreadCount + 0
    omega

/-- Where nobody is counted, and nobody is still to be counted, everybody looks. -/
theorem Counted.looked (h : Counted s) (hidle : s.idleThreadCount = 0) (hnone : Phase.unoccupied ∉ s.workers) :
    s.Looked := by
  obtain ⟨phase, rest, hworkers⟩ := List.exists_cons_of_ne_nil h.workers
  have hmem : phase ∈ s.workers := by
    rw [hworkers]
    exact List.mem_cons_self
  have hnot := List.countP_eq_zero.1 (h.count.symm.trans hidle) phase hmem
  refine ⟨phase, hmem, ?_⟩
  cases phase with
  | looking | taken | executing | awake => rfl
  | unoccupied => exact absurd hmem hnone
  | idle | planned | waiting => exact absurd rfl hnot

theorem Looked.of_phase (h : s.workers[w]? = some phase) (hlooks : phase'.looks = true) :
    (s.setPhase w phase').Looked := ⟨phase', mem_setPhase h, hlooks⟩

theorem Looked.of_other (hlooked : s.Looked) (h : s.workers[w]? = some phase) (hlooks : phase.looks = false) :
    (s.setPhase w phase').Looked := by
  obtain ⟨other, hmem, hother⟩ := hlooked
  refine ⟨other, mem_setPhase_of_ne h hmem ?_, hother⟩
  rintro rfl
  rw [hlooks] at hother
  cases hother

/-- Where nothing is found and nobody has to be told, the fibers of all tasks run. -/
theorem scan_eq_none {fibers : Nat → FiberState} {self : Int} {tasks : List ScheduleTask}
    (hnone : (Scheduler.scan fibers self tasks).task = none)
    (hquiet : (Scheduler.scan fibers self tasks).tickleMe = false) :
    ∀ task ∈ tasks, (task.thread = -1 ∨ task.thread = self) ∧ task.fc.Running fibers := by
  induction tasks with
  | nil => intro task hmem; cases hmem
  | cons front tasks ih =>
    rw [Scheduler.scan] at hnone hquiet
    split at hnone
    case isTrue hpinned =>
      rw [if_pos hpinned] at hquiet
      cases hquiet
    case isFalse hmine =>
      rw [if_neg hmine] at hquiet
      split at hnone
      case isTrue hrunning =>
        rw [if_pos hrunning] at hquiet
        intro task hmem
        rcases List.mem_cons.1 hmem with rfl | hrest
        · refine ⟨?_, hrunning⟩
          by_contra hnot
          exact hmine (not_or.1 hnot)
        · exact ih hnone hquiet task hrest
      case isFalse => cases hnone

/-- A task is left in the list only with somebody to take it up. -/
def Attended (s : State κ) : Prop := s.tasklist ≠ [] → s.Roused ∨ s.Looked

/-- What rouses somebody stays, as long as it is not used up. -/
theorem Roused.mono (hroused : s.Roused) (htickles : s.tickles ≤ s'.tickles) (hwrites : s.writes ≤ s'.writes)
    (hsignaled : s.signaled = true → s'.signaled = true) : s'.Roused := by
  rcases hroused with ht | hw | hs
  · exact .inl (Nat.lt_of_lt_of_le ht htickles)
  · exact .inr (.inl (Nat.lt_of_lt_of_le hw hwrites))
  · exact .inr (.inr (hsignaled hs))

theorem Attended.schedule (h : Attended s) (fc : Option FiberOrCallback) (thread : Int) :
    Attended (s.schedule fc thread) := by
  intro _
  by_cases hempty : s.tasklist = []
  · left; left
    show 0 < s.tickles + s.tasklist.isEmpty.toNat
    rw [hempty]
    exact Nat.succ_pos _
  · rcases h hempty with hroused | hlooked
    · exact .inl (Roused.mono hroused (Nat.le_add_right _ _) (Nat.le_refl _) id)
    · exact .inr hlooked

/-- A look that finds nothing leaves running fibers behind, which other workers run, or wakes somebody. -/
theorem Attended.pass (hheeded : Heeded s (.scan w)) (hphase : s.workers[w]? = some .looking)
    (hnone : (s.scan w).task = none) :
    Attended { s.setPhase w .unoccupied with tickles := s.tickles + (s.scan w).tickleMe.toNat } := by
  intro hleft
  cases hquiet : (s.scan w).tickleMe with
  | true =>
    left; left
    exact Nat.succ_pos _
  | false =>
    right
    obtain ⟨task, tasks, htasks⟩ := List.exists_cons_of_ne_nil hleft
    have hmem : task ∈ s.tasklist := by
      have hcons : s.tasklist = task :: tasks := htasks
      rw [hcons]
      exact List.mem_cons_self
    obtain ⟨hmine, hrunning⟩ := scan_eq_none hnone hquiet task hmem
    obtain ⟨phase, hworker, hruns⟩ := hheeded task hmem hmine hrunning
    cases phase with
    | executing other => exact ⟨.executing other, mem_setPhase_of_ne hphase hworker (by simp), rfl⟩
    | _ => cases hruns

theorem Attended.step (h : Attended s) (hcounted : Counted s) (hheeded : Heeded s e) (hstep : Step s e s') :
    Attended s' := by
  cases hstep with
  | schedule fc thread => exact h.schedule fc thread
  | fiber f state => exact h
  | take hphase hfound => exact fun _ => .inr (Looked.of_phase hphase rfl)
  | pass hphase hnone => exact Attended.pass hheeded hphase hnone
  | @resume w task hphase =>
    intro _
    right
    have hworkers : ((s.setPhase w (.executing task)).resumeTask task.fc).workers =
        (s.setPhase w (.executing task)).workers := by
      cases task.fc <;> rfl
    refine ⟨.executing task, ?_, rfl⟩
    rw [hworkers]
    exact mem_setPhase hphase
  | finish hphase => exact fun _ => .inr (Looked.of_phase hphase rfl)
  | count hphase => exact fun hleft => (h hleft).imp id fun hlooked => Looked.of_other hlooked hphase rfl
  | plan now hphase => exact fun hleft => (h hleft).imp id fun hlooked => Looked.of_other hlooked hphase rfl
  | wait hphase => exact fun hleft => (h hleft).imp id fun hlooked => Looked.of_other hlooked hphase rfl
  | wakePipe hphase hsignaled => exact fun _ => .inr (Looked.of_phase hphase rfl)
  | wake hphase => exact fun _ => .inr (Looked.of_phase hphase rfl)
  | expire now nowTimer hphase henabled => exact h
  | back hphase => exact fun _ => .inr (Looked.of_phase hphase rfl)
  | timer e hforeign henabled =>
    exact fun hleft => (h hleft).imp_left fun hroused =>
      Roused.mono hroused (Nat.le_add_right _ _) (Nat.le_refl _) id
  | somebody htickles hidle => exact fun _ => .inl (.inr (.inl (Nat.succ_pos _)))
  | nobody htickles hidle => exact fun _ => .inr (hcounted.looked hidle hheeded)
  | write hwrites => exact fun _ => .inl (.inr (.inr rfl))

end

/-- A task in the list is on its way to somebody: a tickle is, or a worker that looks into the list before it waits. -/
theorem tasklist_of_reaches {threads : Nat} (hthreads : threads ≠ 0) {now : BitVec 64} {s : State κ}
    (h : (machine κ threads now).Reaches Heeded (machine κ threads now).start s) :
    s.tasklist = [] ∨ s.Roused ∨ s.Looked := by
  have hboth : Attended s ∧ Counted s :=
    h.invariant (I := fun s => Attended s ∧ Counted s)
      (fun _ _ _ hs hheeded hstep => ⟨hs.1.step hs.2 hheeded (Step.of_next hstep), hs.2.step (Step.of_next hstep)⟩)
      ⟨fun hne => absurd rfl hne, .initial hthreads now⟩
  by_cases hempty : s.tasklist = []
  · exact .inl hempty
  · exact .inr (hboth.1 hempty)

/-- One worker looks and waits, a task comes, and its tickle finds the worker. -/
theorem tasklist_of_reaches_tickled : ∃ s : State Nat,
    (machine Nat 1 5).Reaches Heeded (machine Nat 1 5).start s ∧ s.tasklist.length = 1 ∧
      (s.tasklist = [] ∨ s.Roused ∨ s.Looked) := by
  obtain ⟨s, hreach, hlength⟩ : ∃ s : State Nat,
      (machine Nat 1 5).Reaches Heeded (machine Nat 1 5).start s ∧ s.tasklist.length = 1 :=
    Machine.exists_reaches_of_guarded
      [.scan 0, .count 0, .plan 0 5, .wait 0, .schedule (some (.callback 1)) (-1), .hasIdleThread, .write]
      (by decide +kernel)
  exact ⟨s, hreach, hlength, tasklist_of_reaches (by decide) hreach⟩

/-- A tickle comes behind the look of the only worker, and in front of its count. -/
theorem exists_forgotten : ∃ s : State Nat,
    (machine Nat 1 5).Reaches Machine.any (machine Nat 1 5).start s ∧
      ¬ (s.tasklist = [] ∨ s.Roused ∨ s.Looked) ∧ s.workers = [.waiting 5 (BitVec.allOnes 64)] :=
  Machine.exists_reaches_of_run
    [.scan 0, .schedule (some (.callback 1)) (-1), .hasIdleThread, .count 0, .plan 0 5, .wait 0]
    (fun _ _ _ => trivial) (by decide +kernel)

end Wakeup

end AcidCompute

import AcidCompute.Base.Machine
import Mathlib.Logic.Function.Basic

/-!
# The scheduler

Any thread puts tasks at the end of `m_tasklist`; the threads in `Scheduler::run` take them out, resume the fiber or the
callback and look for the next one.  Both work on the list under `m_mutex`.  What the idle fiber does and which fibers
are running is left open here.
-/

namespace AcidCompute

namespace Scheduler

/-- `Fiber::State`. -/
inductive FiberState
  | ready
  | running
  | term
  deriving DecidableEq, Repr

inductive FiberOrCallback
  | fiber (f : Nat)
  | callback (c : Nat)
  deriving DecidableEq, Repr

structure ScheduleTask where
  fc : FiberOrCallback
  -- the thread that is to take it, -1 for any
  thread : Int
  -- how many tasks were pushed before
  number : Nat
  deriving DecidableEq, Repr

/-- `schedule_without_lock`, with `need_tickle`.  A null fiber and an empty function make a task that is not pushed. -/
def scheduleWithoutLock (tasklist : List ScheduleTask) (task : Option ScheduleTask) : Bool × List ScheduleTask :=
  (tasklist.isEmpty, tasklist ++ task.toList)

/-- What the walk over the list has found: `tickle_me`, `task` and the list that is left. -/
structure Found where
  tickleMe : Bool
  task : Option ScheduleTask
  rest : List ScheduleTask
  deriving DecidableEq, Repr

def FiberOrCallback.Running (fibers : Nat → FiberState) : FiberOrCallback → Prop
  | .fiber f => fibers f = .running
  | .callback _ => False

instance (fibers : Nat → FiberState) (fc : FiberOrCallback) : Decidable (fc.Running fibers) := by
  cases fc <;> unfold FiberOrCallback.Running <;> infer_instance

/-- The section of `run` that looks for a task, in the thread with the id `self`. -/
def scan (fibers : Nat → FiberState) (self : Int) : List ScheduleTask → Found
  | [] => ⟨false, none, []⟩
  | task :: tasks =>
    if task.thread ≠ -1 ∧ task.thread ≠ self then
      -- another thread has to be told
      ⟨true, (scan fibers self tasks).task, task :: (scan fibers self tasks).rest⟩
    else if task.fc.Running fibers then
      -- it has been scheduled before it has yielded
      ⟨(scan fibers self tasks).tickleMe, (scan fibers self tasks).task, task :: (scan fibers self tasks).rest⟩
    else
      ⟨!tasks.isEmpty, some task, tasks⟩

/-- Where a thread is in `run`. -/
inductive Phase
  -- not in `run`
  | outside
  -- before the section that looks for a task
  | looking
  -- the section has found nothing
  | unoccupied
  -- the section has found a task
  | taken (task : ScheduleTask)
  -- in `resume`, or back from it with `m_active_thread_count` not lowered yet
  | executing (task : ScheduleTask)
  deriving DecidableEq, Repr

structure Worker where
  phase : Phase
  idleFiber : FiberState
  deriving DecidableEq, Repr

/-- A task and the thread that has taken it. -/
structure Taken where
  thread : Int
  task : ScheduleTask
  deriving DecidableEq, Repr

structure State where
  tasklist : List ScheduleTask
  activeThreadCount : Nat
  -- `m_stopping`
  stopRequested : Bool
  workers : Int → Worker
  fibers : Nat → FiberState
  -- all tasks that have been pushed and all that have been taken
  pushed : List ScheduleTask
  takes : List Taken

inductive Event
  | schedule (fc : Option FiberOrCallback) (thread : Int)
  | stop
  -- a thread enters `run`
  | start (thread : Int)
  | scan (thread : Int)
  | resume (thread : Int)
  -- `resume` has returned and the thread is counted as active no more
  | finish (thread : Int)
  -- the idle fiber is resumed, and yields or ends
  | idle (thread : Int) (ends : Bool)
  | leave (thread : Int)
  -- a fiber is resumed, yields or ends, in a task or somewhere else
  | fiber (f : Nat) (state : FiberState)
  deriving DecidableEq, Repr

def initial : State where
  tasklist := []
  activeThreadCount := 0
  stopRequested := false
  workers _ := ⟨.outside, .ready⟩
  fibers _ := .ready
  pushed := []
  takes := []

namespace State

/-- `stopping()` -/
def stopping (s : State) : Bool := s.stopRequested && s.tasklist.isEmpty && s.activeThreadCount == 0

def phase (s : State) (thread : Int) : Phase := (s.workers thread).phase

def setPhase (s : State) (thread : Int) (phase : Phase) : State :=
  { s with workers := Function.update s.workers thread { s.workers thread with phase := phase } }

def scan (s : State) (thread : Int) : Found := Scheduler.scan s.fibers thread s.tasklist

/-- The task that is next in the order in which they are pushed. -/
def newTask (s : State) (fc : Option FiberOrCallback) (thread : Int) : Option ScheduleTask :=
  fc.map fun fc => ⟨fc, thread, s.pushed.length⟩

def setFiber (s : State) (f : Nat) (state : FiberState) : State :=
  { s with fibers := Function.update s.fibers f state }

/-- `resume` of the task, which makes a fiber of a callback. -/
def resumeTask (s : State) : FiberOrCallback → State
  | .fiber f => s.setFiber f .running
  | .callback _ => s

end State

/-- The assertion in `resume`. -/
def CanResume (fibers : Nat → FiberState) : FiberOrCallback → Prop
  | .fiber f => fibers f ≠ .term ∧ fibers f ≠ .running
  | .callback _ => True

instance (fibers : Nat → FiberState) (fc : FiberOrCallback) : Decidable (CanResume fibers fc) := by
  cases fc <;> unfold CanResume <;> infer_instance

def next (s : State) : Event → Option State
  | .schedule fc thread =>
    some { s with
      tasklist := (scheduleWithoutLock s.tasklist (s.newTask fc thread)).2
      pushed := s.pushed ++ (s.newTask fc thread).toList }
  | .stop => some { s with stopRequested := true }
  | .start w =>
    if s.phase w = .outside then some { s with workers := Function.update s.workers w ⟨.looking, .ready⟩ } else none
  | .scan w =>
    if s.phase w = .looking then
      match (s.scan w).task with
      | none => some (s.setPhase w .unoccupied)
      | some task =>
        some { s.setPhase w (.taken task) with
          tasklist := (s.scan w).rest
          activeThreadCount := s.activeThreadCount + 1
          takes := s.takes ++ [⟨w, task⟩] }
    else none
  | .resume w =>
    match s.phase w with
    | .taken task =>
      if CanResume s.fibers task.fc then some ((s.setPhase w (.executing task)).resumeTask task.fc) else none
    | _ => none
  | .finish w =>
    match s.phase w with
    | .executing _ => some { s.setPhase w .looking with activeThreadCount := s.activeThreadCount - 1 }
    | _ => none
  | .idle w ends =>
    if s.phase w = .unoccupied ∧ (s.workers w).idleFiber ≠ .term then
      some { s with workers := Function.update s.workers w ⟨.looking, if ends then .term else .ready⟩ }
    else none
  | .leave w =>
    if s.phase w = .unoccupied ∧ (s.workers w).idleFiber = .term then some (s.setPhase w .outside) else none
  | .fiber f state => some (s.setFiber f state)

def machine : Machine State Event where
  start := initial
  step := next

/-- The steps, one for each way in which the state changes. -/
inductive Step : State → State → Prop
  | schedule {s} (fc : Option FiberOrCallback) (thread : Int) :
    Step s { s with
      tasklist := (scheduleWithoutLock s.tasklist (s.newTask fc thread)).2
      pushed := s.pushed ++ (s.newTask fc thread).toList }
  | stop {s} : Step s { s with stopRequested := true }
  | start {s w} (hphase : s.phase w = .outside) :
    Step s { s with workers := Function.update s.workers w ⟨.looking, .ready⟩ }
  | pass {s w} (hphase : s.phase w = .looking) (hnone : (s.scan w).task = none) : Step s (s.setPhase w .unoccupied)
  | take {s w task} (hphase : s.phase w = .looking) (hfound : (s.scan w).task = some task) :
    Step s { s.setPhase w (.taken task) with
      tasklist := (s.scan w).rest
      activeThreadCount := s.activeThreadCount + 1
      takes := s.takes ++ [⟨w, task⟩] }
  | resume {s w task} (hphase : s.phase w = .taken task) (hcan : CanResume s.fibers task.fc) :
    Step s ((s.setPhase w (.executing task)).resumeTask task.fc)
  | finish {s w task} (hphase : s.phase w = .executing task) :
    Step s { s.setPhase w .looking with activeThreadCount := s.activeThreadCount - 1 }
  | idle {s w} (hphase : s.phase w = .unoccupied) (hidle : (s.workers w).idleFiber ≠ .term) (ends : Bool) :
    Step s { s with workers := Function.update s.workers w ⟨.looking, if ends then .term else .ready⟩ }
  | leave {s w} (hphase : s.phase w = .unoccupied) (hidle : (s.workers w).idleFiber = .term) :
    Step s (s.setPhase w .outside)
  | fiber {s} (f : Nat) (state : FiberState) : Step s (s.setFiber f state)

theorem Step.of_next {s s' : State} {e : Event} (h : next s e = some s') : Step s s' := by
  cases e with
  | schedule fc thread =>
    cases h
    exact .schedule fc thread
  | stop =>
    cases h
    exact .stop
  | start w =>
    rw [next] at h
    split at h
    case isTrue hphase =>
      cases h
      exact .start hphase
    case isFalse => cases h
  | scan w =>
    rw [next] at h
    split at h
    case isTrue hphase =>
      split at h
      case h_1 hnone =>
        cases h
        exact .pass hphase hnone
      case h_2 task hfound =>
        cases h
        exact .take hphase hfound
    case isFalse => cases h
  | resume w =>
    rw [next] at h
    split at h
    case h_1 task hphase =>
      split at h
      case isTrue hcan =>
        cases h
        exact .resume hphase hcan
      case isFalse => cases h
    case h_2 => cases h
  | finish w =>
    rw [next] at h
    split at h
    case h_1 task hphase =>
      cases h
      exact .finish hphase
    case h_2 => cases h
  | idle w ends =>
    rw [next] at h
    split at h
    case isTrue hboth =>
      cases h
      exact .idle hboth.1 hboth.2 ends
    case isFalse => cases h
  | leave w =>
    rw [next] at h
    split at h
    case isTrue hboth =>
      cases h
      exact .leave hboth.1 hboth.2
    case isFalse => cases h
  | fiber f state =>
    cases h
    exact .fiber f state

end Scheduler

end AcidCompute

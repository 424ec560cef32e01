import AcidCompute.Scheduler.Basic
import Mathlib.Data.Set.Card

/-!
# What becomes of a task

A task stays in the list until one thread takes it, and a thread takes the oldest task that it may take.  The tasks that
are neither in the list nor done are the tasks of the threads that `m_active_thread_count` counts
(`Scheduler.tasks_of_reaches`).
-/

namespace AcidCompute

namespace Scheduler

/-- A thread may take a task that is not for another thread, unless it is a fiber that is running. -/
def MayTake (fibers : Nat → FiberState) (self : Int) (task : ScheduleTask) : Prop :=
  (task.thread = -1 ∨ task.thread = self) ∧ ¬ task.fc.Running fibers

/-! ### The walk over the list -/

section

variable {fibers : Nat → FiberState} {self : Int}

/-- What may come of a walk over a list: it passes what the thread may not take, up to the first task that it may
take. -/
inductive Walk (fibers : Nat → FiberState) (self : Int) :
    List ScheduleTask → Option ScheduleTask → List ScheduleTask → Prop
  | nothing {tasks} (hall : ∀ task ∈ tasks, ¬ MayTake fibers self task) : Walk fibers self tasks none tasks
  | found {before task after} (hbefore : ∀ passed ∈ before, ¬ MayTake fibers self passed)
    (hmay : MayTake fibers self task) : Walk fibers self (before ++ task :: after) (some task) (before ++ after)

variable {task : ScheduleTask} {found : Option ScheduleTask} {tasks rest : List ScheduleTask}

theorem Walk.pass (h : Walk fibers self tasks found rest) (hnot : ¬ MayTake fibers self task) :
    Walk fibers self (task :: tasks) found (task :: rest) := by
  cases h with
  | nothing hall => exact .nothing (List.forall_mem_cons.2 ⟨hnot, hall⟩)
  | @found before found after hbefore hmay =>
    have hpassed : ∀ passed ∈ task :: before, ¬ MayTake fibers self passed := List.forall_mem_cons.2 ⟨hnot, hbefore⟩
    exact (Walk.found hpassed hmay : Walk fibers self (task :: before ++ found :: after) _ _)

theorem scan_walk (fibers : Nat → FiberState) (self : Int) (tasks : List ScheduleTask) :
    Walk fibers self tasks (scan fibers self tasks).task (scan fibers self tasks).rest := by
  induction tasks with
  | nil => exact .nothing (List.forall_mem_nil _)
  | cons task tasks ih =>
    rw [scan]
    split
    case isTrue hpinned =>
      apply ih.pass
      rintro ⟨hfor, -⟩
      exact hfor.elim hpinned.1 hpinned.2
    case isFalse hpinned =>
      split
      case isTrue hrunning => exact ih.pass fun hmay => hmay.2 hrunning
      case isFalse hrunning =>
        have hfor : task.thread = -1 ∨ task.thread = self := by
          by_cases hany : task.thread = -1
          · exact .inl hany
          · exact .inr (not_not.1 fun hother => hpinned ⟨hany, hother⟩)
        have hpassed : ∀ passed ∈ [], ¬ MayTake fibers self passed := List.forall_mem_nil _
        exact (Walk.found hpassed ⟨hfor, hrunning⟩ : Walk fibers self ([] ++ task :: tasks) _ _)

/-- The task that is found and what is left are the list. -/
theorem Walk.perm (h : Walk fibers self tasks (some task) rest) : (task :: rest).Perm tasks := by
  generalize hfound : some task = found at h
  cases h with
  | nothing => cases hfound
  | found =>
    cases hfound
    exact List.perm_middle.symm

theorem Walk.sublist (h : Walk fibers self tasks found rest) : rest.Sublist tasks := by
  cases h with
  | nothing => exact List.Sublist.refl _
  | found => exact List.Sublist.append_left (List.sublist_cons_self _ _) _

/-- In a list with the oldest task in front, the walk finds the oldest one of those that may be taken. -/
theorem Walk.eq_some_iff (h : Walk fibers self tasks found rest) (hsorted : tasks.Pairwise (·.number < ·.number)) :
    found = some task ↔ task ∈ tasks ∧ MayTake fibers self task ∧
      ∀ other ∈ tasks, MayTake fibers self other → task.number ≤ other.number := by
  cases h with
  | nothing hall =>
    constructor
    · intro hsome
      cases hsome
    · rintro ⟨hmem, hmay, -⟩
      exact absurd hmay (hall task hmem)
  | @found before oldest after hbefore hmay =>
    have hyounger : ∀ other ∈ before ++ oldest :: after, MayTake fibers self other →
        other = oldest ∨ oldest.number < other.number := by
      intro other hother hmay'
      rcases List.mem_append.1 hother with hpassed | hlater
      · exact absurd hmay' (hbefore other hpassed)
      · exact (List.mem_cons.1 hlater).imp_right
          ((List.pairwise_cons.1 (List.pairwise_append.1 hsorted).2.1).1 other)
    have hmem : oldest ∈ before ++ oldest :: after := List.mem_append_right _ List.mem_cons_self
    constructor
    · intro hsome
      cases hsome
      refine ⟨hmem, hmay, fun other hother hmay' => ?_⟩
      rcases hyounger other hother hmay' with rfl | hlt
      · exact Nat.le_refl _
      · exact Nat.le_of_lt hlt
    · rintro ⟨htask, hmay', hleast⟩
      rcases hyounger task htask hmay' with rfl | hlt
      · rfl
      · exact absurd (hleast oldest hmem hmay) (Nat.not_le.2 hlt)

end

/-! ### What holds in every state -/

/-- The task that a thread in this phase has taken and not finished. -/
def Phase.task : Phase → Option ScheduleTask
  | .taken task => some task
  | .executing task => some task
  | _ => none

def State.Has (s : State) (w : Int) (task : ScheduleTask) : Prop := (s.phase w).task = some task

/-- The threads that have a task. -/
def State.busy (s : State) : Set Int := {w | ∃ task, s.Has w task}

structure Sound (s : State) : Prop where
  numbered : s.pushed.map ScheduleTask.number = List.range s.pushed.length
  kept : (s.takes.map Taken.task ++ s.tasklist).Perm s.pushed
  inOrder : s.tasklist.Sublist s.pushed
  pinned : ∀ r ∈ s.takes, r.task.thread = -1 ∨ r.task.thread = r.thread
  has : ∀ w task, s.Has w task → ⟨w, task⟩ ∈ s.takes
  active : s.busy.encard = s.activeThreadCount

theorem Sound.initial : Sound initial where
  numbered := rfl
  kept := List.Perm.refl _
  inOrder := List.Sublist.refl _
  pinned r hr := by cases hr
  has w task h := by cases h
  active := by
    have hnone : Scheduler.initial.busy = ∅ := by
      ext w
      constructor
      · rintro ⟨task, h⟩
        cases h
      · intro h
        cases h
    rw [hnone, Set.encard_empty]
    rfl

section

variable {s : State} {w : Int}

theorem Sound.pushed_pairwise (h : Sound s) : s.pushed.Pairwise (·.number < ·.number) := by
  have hrange : (s.pushed.map ScheduleTask.number).Pairwise (· < ·) := by
    rw [h.numbered]
    exact List.pairwise_lt_range
  exact List.pairwise_map.1 hrange

theorem Sound.pairwise (h : Sound s) : s.tasklist.Pairwise (·.number < ·.number) :=
  h.pushed_pairwise.sublist h.inOrder

/-- One thread goes on, and the other fields that count are left alone. -/
theorem State.has_setWorker {s' : State} {worker : Worker} (hworkers : s'.workers = Function.update s.workers w worker)
    (v : Int) (task : ScheduleTask) :
    s'.Has v task ↔ (v = w ∧ worker.phase.task = some task) ∨ (v ≠ w ∧ s.Has v task) := by
  rw [State.Has, State.phase, hworkers]
  by_cases heq : v = w
  · subst heq
    simp
  · simp [heq, State.Has, State.phase]

theorem State.mem_busy_setWorker {s' : State} {worker : Worker}
    (hworkers : s'.workers = Function.update s.workers w worker) (v : Int) :
    v ∈ s'.busy ↔ (v = w ∧ ∃ task, worker.phase.task = some task) ∨ (v ≠ w ∧ v ∈ s.busy) := by
  simp only [State.busy, Set.mem_ofPred_eq, State.has_setWorker hworkers, exists_or, exists_and_left]

theorem State.busy_of_task {s' : State} {worker : Worker} {task : ScheduleTask}
    (hworkers : s'.workers = Function.update s.workers w worker) (htask : worker.phase.task = some task) :
    s'.busy = insert w s.busy := by
  ext v
  rw [State.mem_busy_setWorker hworkers, Set.mem_insert_iff, htask]
  by_cases heq : v = w <;> simp [heq]

theorem State.busy_of_none {s' : State} {worker : Worker} (hworkers : s'.workers = Function.update s.workers w worker)
    (hnone : worker.phase.task = none) : s'.busy = s.busy \ {w} := by
  ext v
  rw [State.mem_busy_setWorker hworkers, Set.mem_sdiff, Set.mem_singleton_iff, hnone]
  by_cases heq : v = w <;> simp [heq]

theorem State.mem_busy : w ∈ s.busy ↔ (s.phase w).task.isSome := Option.isSome_iff_exists.symm

/-! ### One step -/

theorem Sound.schedule (h : Sound s) (task : Option ScheduleTask) (hnumber : ∀ t ∈ task, t.number = s.pushed.length) :
    Sound { s with tasklist := (scheduleWithoutLock s.tasklist task).2, pushed := s.pushed ++ task.toList } := by
  refine { h with numbered := ?_, kept := ?_, inOrder := ?_ }
  · cases task with
    | none => simpa using h.numbered
    | some task => simp [h.numbered, hnumber task rfl, List.range_succ]
  · rw [scheduleWithoutLock, ← List.append_assoc]
    exact h.kept.append_right _
  · exact h.inOrder.append (List.Sublist.refl _)

/-- A thread goes on with the task that it has, or with none as before. -/
theorem Sound.setWorker (h : Sound s) {worker : Worker} (hsame : worker.phase.task = (s.phase w).task) :
    Sound { s with workers := Function.update s.workers w worker } := by
  have hhas : ∀ v task, State.Has { s with workers := Function.update s.workers w worker } v task ↔ s.Has v task := by
    intro v task
    rw [State.has_setWorker rfl, hsame]
    by_cases heq : v = w
    · subst heq
      simp [State.Has]
    · simp [heq]
  refine { h with has := ?_, active := ?_ }
  · intro v task hv
    exact h.has v task ((hhas v task).1 hv)
  · have hbusy : State.busy { s with workers := Function.update s.workers w worker } = s.busy := by
      ext v
      exact exists_congr (hhas v)
    rw [hbusy]
    exact h.active

theorem Sound.take (h : Sound s) {task : ScheduleTask} {rest : List ScheduleTask} (hphase : s.phase w = .looking)
    (hwalk : Walk s.fibers w s.tasklist (some task) rest) (hmay : MayTake s.fibers w task) :
    Sound { s.setPhase w (.taken task) with
      tasklist := rest
      activeThreadCount := s.activeThreadCount + 1
      takes := s.takes ++ [⟨w, task⟩] } where
  numbered := h.numbered
  kept := by
    rw [List.map_append, List.append_assoc]
    exact (hwalk.perm.append_left _).trans h.kept
  inOrder := hwalk.sublist.trans h.inOrder
  pinned r hr := by
    rcases List.mem_append.1 hr with hold | hnew
    · exact h.pinned r hold
    · rw [List.mem_singleton.1 hnew]
      exact hmay.1
  has v other hv := by
    rcases (State.has_setWorker (s := s) rfl v other).1 hv with ⟨rfl, hsame⟩ | ⟨-, hother⟩
    · cases hsame
      exact List.mem_append_right _ (List.mem_singleton.2 rfl)
    · exact List.mem_append_left _ (h.has v other hother)
  active := by
    have hnot : w ∉ s.busy := by
      rw [State.mem_busy, hphase]
      exact Bool.false_ne_true
    rw [State.busy_of_task (s := s) rfl rfl, Set.encard_insert_of_notMem hnot, h.active]
    rfl

theorem Sound.finish (h : Sound s) {task : ScheduleTask} (hphase : s.phase w = .executing task) :
    Sound { s.setPhase w .looking with activeThreadCount := s.activeThreadCount - 1 } := by
  refine { h with has := ?_, active := ?_ }
  · intro v other hv
    rcases (State.has_setWorker (s := s) rfl v other).1 hv with ⟨-, hnone⟩ | ⟨-, hother⟩
    · cases hnone
    · exact h.has v other hother
  · have hmem : w ∈ s.busy := by
      rw [State.mem_busy, hphase]
      rfl
    have hless : (s.busy \ {w}).encard + 1 = s.activeThreadCount :=
      (Set.encard_sdiff_singleton_add_one hmem).trans h.active
    rw [State.busy_of_none (s := s) rfl rfl]
    cases hcount : s.activeThreadCount with
    | zero =>
      rw [hcount] at hless
      simp at hless
    | succ n =>
      rw [hcount] at hless
      exact WithTop.add_right_cancel ENat.one_ne_top hless

end

theorem Sound.step {s s' : State} (h : Sound s) (hstep : Step s s') : Sound s' := by
  cases hstep with
  | schedule fc thread =>
    apply h.schedule
    intro task htask
    obtain ⟨fc, -, rfl⟩ := Option.mem_map.1 htask
    rfl
  | stop => exact { h with }
  | start hphase => exact h.setWorker (congrArg Phase.task hphase).symm
  | pass hphase hnone => exact h.setWorker (congrArg Phase.task hphase).symm
  | @take w task hphase hfound =>
    have hwalk : Walk s.fibers w s.tasklist (some task) (s.scan w).rest :=
      hfound ▸ scan_walk s.fibers w s.tasklist
    exact h.take hphase hwalk ((hwalk.eq_some_iff h.pairwise).1 rfl).2.1
  | @resume w task hphase hcan =>
    have hgoing : Sound (s.setPhase w (.executing task)) := h.setWorker (congrArg Phase.task hphase).symm
    cases task.fc with
    | fiber f => exact { hgoing with }
    | callback c => exact hgoing
  | finish hphase => exact h.finish hphase
  | idle hphase hidle ends => exact h.setWorker (congrArg Phase.task hphase).symm
  | leave hphase hidle => exact h.setWorker (congrArg Phase.task hphase).symm
  | fiber f state => exact { h with }

theorem Sound.of_reaches {s : State} (h : machine.Reaches Machine.any machine.start s) : Sound s :=
  h.invariant (fun _ _ _ hs _ hstep => hs.step (Step.of_next hstep)) Sound.initial

theorem Sound.takes_nodup {s : State} (h : Sound s) : (s.takes.map fun r => r.task.number).Nodup := by
  have hperm := h.kept.map ScheduleTask.number
  rw [h.numbered, List.map_append, List.map_map] at hperm
  exact (List.nodup_append.1 (hperm.nodup_iff.2 List.nodup_range)).1

theorem Sound.idle_of_stopping {s : State} (h : Sound s) (hstopping : s.stopping = true) :
    s.tasklist = [] ∧ s.busy = ∅ := by
  simp only [State.stopping, Bool.and_eq_true, List.isEmpty_iff, beq_iff_eq] at hstopping
  refine ⟨hstopping.1.2, Set.encard_eq_zero.1 ?_⟩
  rw [h.active, hstopping.2]
  rfl

/-- The tasks that have been pushed are the ones in the list and the ones that have been taken, each once and by a
thread that may take it.  What a thread finds is the oldest task that it may take.  The threads that are counted as
active are the ones that have a task, so that there is none when the scheduler may stop. -/
theorem tasks_of_reaches {s : State} (h : machine.Reaches Machine.any machine.start s) :
    s.pushed.map ScheduleTask.number = List.range s.pushed.length ∧
      (s.takes.map Taken.task ++ s.tasklist).Perm s.pushed ∧ (s.takes.map fun r => r.task.number).Nodup ∧
      (∀ r ∈ s.takes, r.task.thread = -1 ∨ r.task.thread = r.thread) ∧
      (∀ w task, (s.scan w).task = some task ↔ task ∈ s.tasklist ∧ MayTake s.fibers w task ∧
        ∀ other ∈ s.tasklist, MayTake s.fibers w other → task.number ≤ other.number) ∧
      (∀ w task, s.Has w task → ⟨w, task⟩ ∈ s.takes) ∧ s.busy.encard = s.activeThreadCount ∧
      (s.stopping = true → s.tasklist = [] ∧ s.busy = ∅) := by
  have hs := Sound.of_reaches h
  refine ⟨hs.numbered, hs.kept, hs.takes_nodup, hs.pinned, fun w task => ?_, hs.has, hs.active, hs.idle_of_stopping⟩
  exact (scan_walk s.fibers w s.tasklist).eq_some_iff hs.pairwise

/-- The threads 1 and 2 with a task for the thread 2, a fiber that has not yielded yet, and two callbacks. -/
private def skipped : List Event :=
  [.start 1, .start 2, .schedule (some (.callback 50)) 2, .fiber 7 .running, .schedule (some (.fiber 7)) (-1),
    .schedule none (-1), .schedule (some (.callback 51)) (-1), .scan 1, .resume 1, .fiber 7 .ready, .finish 1, .scan 1,
    .resume 1, .schedule (some (.callback 52)) (-1), .stop, .scan 2]

theorem tasks_of_reaches_skipped : ∃ s : State, machine.Reaches Machine.any machine.start s ∧
    s.takes = [⟨1, .callback 51, -1, 2⟩, ⟨1, .fiber 7, -1, 1⟩, ⟨2, .callback 50, 2, 0⟩] ∧
      s.tasklist = [⟨.callback 52, -1, 3⟩] ∧ (s.takes.map Taken.task ++ s.tasklist).Perm s.pushed ∧
      s.busy.encard = s.activeThreadCount ∧ s.activeThreadCount = 2 := by
  obtain ⟨s, hreach, htakes, hlist, hactive⟩ : ∃ s : State, machine.Reaches Machine.any machine.start s ∧
      s.takes = [⟨1, .callback 51, -1, 2⟩, ⟨1, .fiber 7, -1, 1⟩, ⟨2, .callback 50, 2, 0⟩] ∧
        s.tasklist = [⟨.callback 52, -1, 3⟩] ∧ s.activeThreadCount = 2 :=
    Machine.exists_reaches_of_run skipped (fun _ _ _ => trivial) (by decide +kernel)
  obtain ⟨-, hkept, -, -, -, -, hbusy, -⟩ := tasks_of_reaches hreach
  exact ⟨s, hreach, htakes, hlist, hkept, hbusy, hactive⟩

end Scheduler

end AcidCompute

import AcidCompute.Scheduler.Tasks

/-!
# The idle fiber of a plain scheduler

`run` takes an idle fiber that has ended as the sign that the scheduler has stopped.  The loop in `Scheduler::idle` goes
on while `m_stopping` is set, so that the fiber ends at once as long as `stop` has not been called, and never after
that.

A worker stays until `stop` and is able to leave then, if its idle fiber has run before, and from there on the worker
finds a task each time it looks until `stop` is called (`Scheduler.Plain.returns_of_reaches`).
-/

namespace AcidCompute

namespace Scheduler

namespace Plain

/-- `while (m_stopping)` in `idle`: one look at the flag each time the fiber is resumed. -/
def idleEnds (s : State) : Bool := !s.stopRequested

/-- What a scheduler does that does not override `idle`. -/
def Does (s : State) : Event → Prop
  | .idle _ ends => ends = idleEnds s
  | _ => True

/-- No worker comes to `run` after `stop`, no idle fiber is left when `stop` is called, and before that the workers
whose idle fiber has ended find tasks. -/
def Occupied (s : State) : Event → Prop
  | .start _ => s.stopRequested = false
  | .stop => ∀ w, s.phase w ≠ .outside → (s.workers w).idleFiber = .term
  | .scan w => s.stopRequested = false → (s.workers w).idleFiber = .term → (s.scan w).task ≠ none
  | .idle _ ends => ends = idleEnds s
  | _ => True

instance (s : State) : (e : Event) → Decidable (Does s e)
  | .idle _ ends => inferInstanceAs (Decidable (ends = idleEnds s))
  | .schedule _ _ => inferInstanceAs (Decidable True)
  | .stop => inferInstanceAs (Decidable True)
  | .start _ => inferInstanceAs (Decidable True)
  | .scan _ => inferInstanceAs (Decidable True)
  | .resume _ => inferInstanceAs (Decidable True)
  | .finish _ => inferInstanceAs (Decidable True)
  | .leave _ => inferInstanceAs (Decidable True)
  | .fiber _ _ => inferInstanceAs (Decidable True)

theorem does_of_occupied {s : State} {e : Event} (h : Occupied s e) : Does s e := by
  cases e with
  | idle w ends => exact h
  | _ => trivial

/-- How the parts that concern leaving change in a step: `stop` sets the flag, and at most one worker goes on. -/
inductive Moved (s s' : State) : Event → Prop
  | stop (hflag : s'.stopRequested = true) (hworkers : s'.workers = s.workers) : Moved s s' .stop
  | start {w} (hflag : s'.stopRequested = s.stopRequested)
    (hworkers : s'.workers = Function.update s.workers w ⟨.looking, .ready⟩) : Moved s s' (.start w)
  | pass {w} (hflag : s'.stopRequested = s.stopRequested) (hphase : s.phase w = .looking)
    (hnone : (s.scan w).task = none)
    (hworkers : s'.workers = Function.update s.workers w ⟨.unoccupied, (s.workers w).idleFiber⟩) : Moved s s' (.scan w)
  | go {w phase e} (hflag : s'.stopRequested = s.stopRequested) (hphase : s.phase w ≠ .outside)
    (hinside : phase ≠ .unoccupied ∧ phase ≠ .outside)
    (hworkers : s'.workers = Function.update s.workers w ⟨phase, (s.workers w).idleFiber⟩) : Moved s s' e
  | idle {w ends} (hflag : s'.stopRequested = s.stopRequested) (hphase : s.phase w = .unoccupied)
    (hidle : (s.workers w).idleFiber ≠ .term)
    (hworkers : s'.workers = Function.update s.workers w ⟨.looking, if ends then .term else .ready⟩) :
    Moved s s' (.idle w ends)
  | leave {w} (hflag : s'.stopRequested = s.stopRequested) (hphase : s.phase w = .unoccupied)
    (hidle : (s.workers w).idleFiber = .term)
    (hworkers : s'.workers = Function.update s.workers w ⟨.outside, .term⟩) : Moved s s' (.leave w)
  | same {e} (hflag : s'.stopRequested = s.stopRequested) (hworkers : s'.workers = s.workers) : Moved s s' e

theorem Moved.of_next {s s' : State} {e : Event} (h : next s e = some s') : Moved s s' e := by
  cases e with
  | schedule fc thread =>
    cases h
    exact .same rfl rfl
  | stop =>
    cases h
    exact .stop rfl rfl
  | start w =>
    rw [next] at h
    split at h
    case isTrue =>
      cases h
      exact .start rfl rfl
    case isFalse => cases h
  | scan w =>
    rw [next] at h
    split at h
    case isTrue hphase =>
      split at h
      case h_1 hnone =>
        cases h
        exact .pass rfl hphase hnone rfl
      case h_2 task hfound =>
        cases h
        exact .go rfl (by simp [hphase]) ⟨by simp, by simp⟩ rfl
    case isFalse => cases h
  | resume w =>
    rw [next] at h
    split at h
    case h_1 task hphase =>
      split at h
      case isTrue =>
        cases h
        have hworkers : ((s.setPhase w (.executing task)).resumeTask task.fc).workers =
            Function.update s.workers w ⟨.executing task, (s.workers w).idleFiber⟩ := by
          cases task.fc <;> rfl
        have hflag : ((s.setPhase w (.executing task)).resumeTask task.fc).stopRequested = s.stopRequested := by
          cases task.fc <;> rfl
        exact .go hflag (by simp [hphase]) ⟨by simp, by simp⟩ hworkers
      case isFalse => cases h
    case h_2 => cases h
  | finish w =>
    rw [next] at h
    split at h
    case h_1 task hphase =>
      cases h
      exact .go rfl (by simp [hphase]) ⟨by simp, by simp⟩ rfl
    case h_2 => cases h
  | idle w ends =>
    rw [next] at h
    split at h
    case isTrue hboth =>
      cases h
      exact .idle rfl hboth.1 hboth.2 rfl
    case isFalse => cases h
  | leave w =>
    rw [next] at h
    split at h
    case isTrue hboth =>
      cases h
      refine .leave rfl hboth.1 hboth.2 ?_
      rw [← hboth.2]
      rfl
    case isFalse => cases h
  | fiber f state =>
    cases h
    exact .same rfl rfl

/-! ### Workers that can leave -/

/-- Before `stop` nobody is about to leave, and afterwards everybody in `run` is able to. -/
structure Prepared (s : State) : Prop where
  before : s.stopRequested = false → ∀ w, (s.workers w).phase = .unoccupied → (s.workers w).idleFiber ≠ .term
  after : s.stopRequested = true → ∀ w, (s.workers w).phase ≠ .outside → (s.workers w).idleFiber = .term

theorem Prepared.initial : Prepared initial where
  before _ w h := by cases h
  after h := by cases h

/-- One worker goes on. -/
private theorem Prepared.setWorker {s s' : State} (h : Prepared s) {w : Int} {worker : Worker}
    (hflag : s'.stopRequested = s.stopRequested) (hworkers : s'.workers = Function.update s.workers w worker)
    (hbefore : s.stopRequested = false → worker.phase = .unoccupied → worker.idleFiber ≠ .term)
    (hafter : s.stopRequested = true → worker.phase ≠ .outside → worker.idleFiber = .term) : Prepared s' := by
  constructor
  case before =>
    rw [hflag, hworkers]
    intro hnot
    exact (Function.forall_update_iff s.workers fun _ worker => worker.phase = .unoccupied → worker.idleFiber ≠ .term).2
      ⟨hbefore hnot, fun v _ => h.before hnot v⟩
  case after =>
    rw [hflag, hworkers]
    intro hstop
    exact (Function.forall_update_iff s.workers fun _ worker => worker.phase ≠ .outside → worker.idleFiber = .term).2
      ⟨hafter hstop, fun v _ => h.after hstop v⟩

theorem Prepared.step {s s' : State} {e : Event} (h : Prepared s) (hoccupied : Occupied s e)
    (hstep : machine.step s e = some s') : Prepared s' := by
  cases Moved.of_next hstep with
  | stop hflag hworkers =>
    refine ⟨fun hnot => ?_, fun _ => ?_⟩
    · rw [hflag] at hnot
      cases hnot
    · rw [hworkers]
      exact hoccupied
  | start hflag hworkers =>
    have hnot : s.stopRequested = false := hoccupied
    refine h.setWorker hflag hworkers (fun _ hphase => by cases hphase) fun hstop => ?_
    rw [hnot] at hstop
    cases hstop
  | @pass w hflag hphase hnone hworkers =>
    refine h.setWorker hflag hworkers (fun hnot _ hterm => hoccupied hnot hterm hnone) fun hstop _ => ?_
    exact h.after hstop w (by rw [show (s.workers w).phase = .looking from hphase]; simp)
  | @go w phase _ hflag hphase hinside hworkers =>
    exact h.setWorker hflag hworkers (fun _ hunoccupied => absurd hunoccupied hinside.1)
      fun hstop _ => h.after hstop w hphase
  | @idle w ends hflag hphase hidle hworkers =>
    refine h.setWorker hflag hworkers (fun _ hlooking => by cases hlooking) fun hstop _ => ?_
    have hunoccupied : (s.workers w).phase = .unoccupied := hphase
    exact absurd (h.after hstop w (by rw [hunoccupied]; simp)) hidle
  | leave hflag hphase hidle hworkers =>
    exact h.setWorker hflag hworkers (fun _ hphase => by cases hphase) fun _ hne => absurd rfl hne
  | same hflag hworkers =>
    refine ⟨?_, ?_⟩
    · rw [hflag, hworkers]
      exact h.before
    · rw [hflag, hworkers]
      exact h.after

theorem Prepared.of_reaches {s : State} (h : machine.Reaches Occupied Scheduler.initial s) : Prepared s :=
  h.invariant (fun _ _ _ hs hoccupied hstep => hs.step hoccupied hstep) Prepared.initial

/-- An idle fiber that has not ended when `stop` is called does not end, and its worker does not leave. -/
theorem never_outside {s s' : State} {w : Int} (h : machine.Reaches Does s s') (hstop : s.stopRequested = true)
    (hphase : s.phase w ≠ .outside) (hidle : (s.workers w).idleFiber ≠ .term) : s'.phase w ≠ .outside := by
  have hkept : s'.stopRequested = true ∧ (s'.workers w).phase ≠ .outside ∧ (s'.workers w).idleFiber ≠ .term := by
    refine h.invariant (I := fun t => t.stopRequested = true ∧ (t.workers w).phase ≠ .outside ∧
      (t.workers w).idleFiber ≠ .term) ?_ ⟨hstop, hphase, hidle⟩
    rintro t e t' ⟨hstop, hphase, hidle⟩ hdoes hstep
    have hgoes : ∀ v worker, t'.stopRequested = t.stopRequested → t'.workers = Function.update t.workers v worker →
        (v = w → worker.phase ≠ .outside ∧ worker.idleFiber ≠ .term) →
        t'.stopRequested = true ∧ (t'.workers w).phase ≠ .outside ∧ (t'.workers w).idleFiber ≠ .term := by
      intro v worker hflag hworkers hworker
      refine ⟨hflag.trans hstop, ?_⟩
      rw [hworkers]
      by_cases heq : v = w
      · subst heq
        rw [Function.update_self]
        exact hworker rfl
      · rw [Function.update_of_ne (Ne.symm heq)]
        exact ⟨hphase, hidle⟩
    cases Moved.of_next hstep with
    | stop hflag hworkers => exact ⟨hflag, by rw [hworkers]; exact ⟨hphase, hidle⟩⟩
    | start hflag hworkers => exact hgoes _ _ hflag hworkers fun _ => ⟨by simp, by simp⟩
    | pass hflag _ _ hworkers => exact hgoes _ _ hflag hworkers fun heq => ⟨by simp, heq ▸ hidle⟩
    | go hflag _ hinside hworkers => exact hgoes _ _ hflag hworkers fun heq => ⟨hinside.2, heq ▸ hidle⟩
    | @idle v ends hflag _ _ hworkers =>
      have hends : ends = false := by
        rw [show ends = idleEnds t from hdoes, idleEnds, hstop]
        rfl
      exact hgoes _ _ hflag hworkers fun _ => ⟨by simp, by simp [hends]⟩
    | leave hflag _ hterm hworkers => exact hgoes _ _ hflag hworkers fun heq => absurd (heq ▸ hterm) hidle
    | same hflag hworkers => exact ⟨hflag.trans hstop, by rw [hworkers]; exact ⟨hphase, hidle⟩⟩
  exact hkept.2.1

/-- Once nothing is left to do, a worker whose idle fiber has ended finds nothing and leaves. -/
theorem can_leave {s : State} {w : Int} (h : Sound s) (hstopping : s.stopping = true) (hphase : s.phase w ≠ .outside)
    (hidle : (s.workers w).idleFiber = .term) :
    ∃ s', machine.Reaches Does s s' ∧ s'.phase w = .outside := by
  obtain ⟨hlist, hbusy⟩ := h.idle_of_stopping hstopping
  have hleave : ∀ t : State, t.phase w = .unoccupied → (t.workers w).idleFiber = .term →
      ∃ s', machine.Reaches Does t s' ∧ s'.phase w = .outside := by
    intro t hunoccupied hterm
    refine ⟨t.setPhase w .outside, Machine.Reaches.single (e := .leave w) trivial (if_pos ⟨hunoccupied, hterm⟩), ?_⟩
    simp [State.setPhase, State.phase]
  have hnot : w ∉ s.busy := by simp [hbusy]
  rw [State.mem_busy] at hnot
  cases hp : s.phase w with
  | outside => exact absurd hp hphase
  | looking =>
    have hscan : machine.step s (.scan w) = some (s.setPhase w .unoccupied) := by
      have hnone : (s.scan w).task = none := by
        rw [State.scan, hlist]
        rfl
      show next s (.scan w) = _
      rw [next, if_pos hp]
      split
      case h_1 => rfl
      case h_2 task hfound =>
        rw [hnone] at hfound
        cases hfound
    obtain ⟨s', hreach, hout⟩ := hleave (s.setPhase w .unoccupied) (by simp [State.setPhase, State.phase])
      (by simpa [State.setPhase] using hidle)
    exact ⟨s', Machine.Reaches.head (e := .scan w) trivial hscan hreach, hout⟩
  | unoccupied => exact hleave s hp hidle
  | taken task => simp [hp, Phase.task] at hnot
  | executing task => simp [hp, Phase.task] at hnot

private theorem enabled_of_leave {s s' : State} {w : Int} (h : machine.step s (.leave w) = some s') :
    s.phase w = .unoccupied ∧ (s.workers w).idleFiber = .term := by
  by_contra hnot
  have hnone : machine.step s (.leave w) = none := if_neg hnot
  rw [hnone] at h
  cases h

/-- As long as the workers are occupied, a worker leaves only after `stop`, and is able to leave then when nothing is
left to do.  In any run the workers that are able to leave then are those whose idle fiber has ended. -/
theorem returns_of_reaches {s : State} (h : machine.Reaches Does initial s) :
    (machine.Reaches Occupied initial s →
        (∀ w s', machine.step s (.leave w) = some s' → s.stopRequested = true) ∧
        (s.stopping = true → ∀ w, s.phase w ≠ .outside →
          (s.workers w).idleFiber = .term ∧ ∃ s', machine.Reaches Does s s' ∧ s'.phase w = .outside)) ∧
      (s.stopping = true → ∀ w, s.phase w ≠ .outside →
        ((∃ s', machine.Reaches Does s s' ∧ s'.phase w = .outside) ↔ (s.workers w).idleFiber = .term)) := by
  have hsound : Sound s := Sound.of_reaches (h.mono fun _ _ _ => trivial)
  have hflag : s.stopping = true → s.stopRequested = true := by
    intro hstopping
    simp only [State.stopping, Bool.and_eq_true] at hstopping
    exact hstopping.1.1
  refine ⟨fun hoccupied => ⟨?_, ?_⟩, ?_⟩
  · intro w s' hleave
    obtain ⟨hphase, hidle⟩ := enabled_of_leave hleave
    by_contra hnot
    exact (Prepared.of_reaches hoccupied).before (Bool.eq_false_iff.2 hnot) w hphase hidle
  · intro hstopping w hphase
    have hidle := (Prepared.of_reaches hoccupied).after (hflag hstopping) w hphase
    exact ⟨hidle, can_leave hsound hstopping hphase hidle⟩
  · intro hstopping w hphase
    constructor
    · rintro ⟨s', hreach, hout⟩
      by_contra hidle
      exact never_outside hreach (hflag hstopping) hphase hidle hout
    · exact can_leave hsound hstopping hphase

/-- A thread enters `run`, looks twice, leaves, and then there is a task. -/
private def tooEarly : List Event :=
  [.start 1, .scan 1, .idle 1 true, .scan 1, .leave 1, .schedule (some (.callback 50)) (-1)]

/-- A thread enters `run` and finds nothing, `stop` is called, and the idle fiber runs. -/
private def tooLate : List Event := [.start 1, .scan 1, .stop, .idle 1 false]

theorem exists_abandoned_tooEarly :
    (∃ s, machine.Reaches Does initial s ∧ s.stopRequested = false ∧ s.phase 1 = .outside ∧
        s.tasklist = [⟨.callback 50, -1, 0⟩]) ∧
      ∃ s, machine.Reaches Does initial s ∧ s.stopping = true ∧ s.phase 1 = .looking ∧
        ∀ s', machine.Reaches Does s s' → s'.phase 1 ≠ .outside := by
  refine ⟨Machine.exists_reaches_of_guarded tooEarly (by decide +kernel), ?_⟩
  obtain ⟨s, hreach, hstopping, hflag, hphase, hidle⟩ : ∃ s, machine.Reaches Does initial s ∧ s.stopping = true ∧
      s.stopRequested = true ∧ s.phase 1 = .looking ∧ (s.workers 1).idleFiber = .ready :=
    Machine.exists_reaches_of_guarded tooLate (by decide +kernel)
  refine ⟨s, hreach, hstopping, hphase, fun s' hreach' => never_outside hreach' hflag ?_ ?_⟩
  · simp [hphase]
  · simp [hidle]

/-- The idle fiber runs, the worker finds a task, and `stop` is called while it is busy. -/
theorem returns_of_reaches_busy : ∃ s, machine.Reaches Occupied initial s ∧ s.stopping = true ∧ s.phase 1 = .looking ∧
    ∃ s', machine.Reaches Does s s' ∧ s'.phase 1 = .outside := by
  obtain ⟨s, hreach, hstopping, hphase⟩ :
      ∃ s, machine.Reaches Occupied initial s ∧ s.stopping = true ∧ s.phase 1 = .looking := by
    refine ⟨_, .head (e := .start 1) rfl rfl <| .head (e := .scan 1) (fun _ hterm => by cases hterm) rfl <|
      .head (e := .idle 1 true) rfl rfl <| .head (e := .schedule (some (.callback 50)) (-1)) trivial rfl <|
      .head (e := .scan 1) (fun _ _ hnone => by cases hnone) rfl <| .head (e := .resume 1) trivial rfl <|
      .head (e := .stop) ?_ rfl <| .single (e := .finish 1) trivial rfl, by rfl, by rfl⟩
    intro w hw
    by_cases heq : w = 1
    · subst heq
      rfl
    · exact absurd (by simp [State.phase, State.setPhase, State.resumeTask, initial, heq]) hw
  have hleaves := (returns_of_reaches (hreach.mono fun _ _ => does_of_occupied)).1 hreach
  exact ⟨s, hreach, hstopping, hphase, (hleaves.2 hstopping 1 (by simp [hphase])).2⟩

end Plain

end Scheduler

end AcidCompute

import AcidCompute.IOManager.Wakeup
import AcidCompute.Scheduler.Tasks

/-!
# How an `IOManager` stops

`stop` sets a flag and waits for the workers.  The idle fiber of a worker ends when `stopping(next_timeout)` holds,
which looks for a timer, for a pending event and for tasks one after the other, and a worker leaves `run` when it finds
no task and its idle fiber has ended.

What comes behind the look of a worker is no loss as long as another one is still to look: then nothing is left when all
idle fibers have ended (`Shutdown.drained_of_reaches`).  A timer that is added in between from outside may be lost
(`Shutdown.exists_lost`).
-/

namespace AcidCompute

namespace Shutdown

open Scheduler (FiberOrCallback FiberState)

/-- Where a worker is in `idle`. -/
inductive Stage
  -- it has not been resumed
  | away
  -- in front of `get_next_timer` in `stopping(next_timeout)`
  | entered
  -- there is no timer
  | asked
  -- nor a pending event
  | counted
  -- `stopping(next_timeout)` does not hold
  | awake
  -- the callbacks of expired timers that are yet to be scheduled
  | firing (callbacks : List (Option Nat))
  deriving DecidableEq, Repr

structure State where
  scheduler : Scheduler.State
  timers : Timers.State Nat
  -- the fibers and callbacks of the events that are registered
  registered : List FiberOrCallback
  pendingEventCount : Nat
  stages : Int → Stage

inductive Event
  -- the steps of `run`, and the calls of `schedule` and `stop`
  | scheduler (e : Scheduler.Event)
  | enter (w : Int)
  -- the three parts of `stopping(next_timeout)`
  | ask (w : Int) (now : BitVec 64)
  | count (w : Int)
  | check (w : Int)
  -- `epoll_wait` and `list_expired_callback`
  | expire (w : Int) (now : BitVec 64) (nowTimer : Nat)
  | fire (w : Int)
  | yield (w : Int)
  -- an event is triggered, by the worker to which it has come or by `cancel_event`
  | trigger (i : Nat)
  -- `m_pending_event_count` is lowered behind `trigger_event`
  | settle
  -- a call on a timer or on the manager, by anybody
  | timer (e : Timers.Event Nat)
  | addEvent (fc : FiberOrCallback)
  | delEvent (i : Nat)
  deriving DecidableEq, Repr

namespace State

variable (s : State)

def idleFiber (w : Int) : FiberState := (s.scheduler.workers w).idleFiber

def setStage (w : Int) (stage : Stage) : State := { s with stages := Function.update s.stages w stage }

/-- A step of the scheduler. -/
def call (e : Scheduler.Event) : Option State :=
  (Scheduler.next s.scheduler e).map fun scheduler => { s with scheduler := scheduler }

/-- The worker is to look for timers before its idle fiber ends. -/
def Asks (w : Int) : Prop := s.idleFiber w ≠ .term ∧ s.stages w ≠ .asked ∧ s.stages w ≠ .counted

/-- The worker is to look for pending events before its idle fiber ends. -/
def Counts (w : Int) : Prop := s.idleFiber w ≠ .term ∧ s.stages w ≠ .counted

instance (w : Int) : Decidable (s.Asks w) := inferInstanceAs (Decidable (_ ∧ _))

instance (w : Int) : Decidable (s.Counts w) := inferInstanceAs (Decidable (_ ∧ _))

end State

/-- A manager with these threads, whose constructor has called `start`. -/
def initial (now : BitVec 64) : State := ⟨Scheduler.initial, Timers.initial now, [], 0, fun _ => .away⟩

/-- The steps of the scheduler that are not those of the idle fiber; each thread enters `run` once. -/
def Own (threads : List Int) (s : State) : Scheduler.Event → Prop
  | .idle _ _ => False
  | .start w => w ∈ threads ∧ s.idleFiber w ≠ .term
  | _ => True

instance (threads : List Int) (s : State) : (e : Scheduler.Event) → Decidable (Own threads s e)
  | .idle _ _ => inferInstanceAs (Decidable False)
  | .start w => inferInstanceAs (Decidable (w ∈ threads ∧ s.idleFiber w ≠ .term))
  | .schedule _ _ | .stop | .scan _ | .resume _ | .finish _ | .leave _ | .fiber _ _ => inferInstanceAs (Decidable True)

def next (threads : List Int) (s : State) : Event → Option State
  | .scheduler e => if Own threads s e then s.call e else none
  | .enter w =>
    if s.scheduler.phase w = .unoccupied ∧ s.idleFiber w ≠ .term ∧ s.stages w = .away then
      some (s.setStage w .entered)
    else none
  | .ask w now =>
    if s.stages w = .entered then
      let r := s.timers.manager.getNextTimer now
      some { s.setStage w (if r.1 = BitVec.allOnes 64 then .asked else .awake) with
        timers := { s.timers with manager := r.2 } }
    else none
  | .count w =>
    if s.stages w = .asked then some (s.setStage w (if s.pendingEventCount = 0 then .counted else .awake)) else none
  | .check w =>
    if s.stages w = .counted then
      if s.scheduler.stopping then (s.call (.idle w true)).map fun s => s.setStage w .away
      else some (s.setStage w .awake)
    else none
  | .expire w now nowTimer =>
    if s.stages w = .awake ∧ Timers.Enabled s.timers (.listExpiredCallback now nowTimer) then
      some { s.setStage w (.firing (s.timers.manager.listExpiredCallback now nowTimer []).1) with
        timers := Timers.next s.timers (.listExpiredCallback now nowTimer) }
    else none
  | .fire w =>
    match s.stages w with
    | .firing (cb :: callbacks) =>
      (s.call (.schedule (cb.map .callback) (-1))).map fun s => s.setStage w (.firing callbacks)
    | _ => none
  | .yield w =>
    if s.stages w = .firing [] then (s.call (.idle w false)).map fun s => s.setStage w .away else none
  | .trigger i =>
    match s.registered[i]? with
    | some fc => (s.call (.schedule (some fc) (-1))).map fun s => { s with registered := s.registered.eraseIdx i }
    | none => none
  | .settle =>
    if s.registered.length < s.pendingEventCount then some { s with pendingEventCount := s.pendingEventCount - 1 }
    else none
  | .timer e =>
    if Wakeup.Foreign e ∧ Timers.Enabled s.timers e then some { s with timers := Timers.next s.timers e } else none
  | .addEvent fc =>
    some { s with registered := s.registered ++ [fc], pendingEventCount := s.pendingEventCount + 1 }
  | .delEvent i =>
    if i < s.registered.length then
      some { s with registered := s.registered.eraseIdx i, pendingEventCount := s.pendingEventCount - 1 }
    else none

def machine (threads : List Int) (now : BitVec 64) : Machine State Event where
  start := initial now
  step := next threads

/-- Tasks, timers and events come while some worker is still to look for them. -/
def Heeded (threads : List Int) (s : State) : Event → Prop
  | .scheduler (.schedule fc _) => fc = none ∨ ∃ w ∈ threads, s.idleFiber w ≠ .term
  | .timer e => (Timers.next s.timers e).manager.timers = [] ∨ ∃ w ∈ threads, s.Asks w
  | .addEvent _ => ∃ w ∈ threads, s.Counts w
  -- otherwise `get_next_timer` may say that there is no timer
  | .ask _ now => now ≠ 0
  | _ => True

instance (threads : List Int) (s : State) : (e : Event) → Decidable (Heeded threads s e)
  | .scheduler (.schedule fc _) => inferInstanceAs (Decidable (fc = none ∨ ∃ w ∈ threads, s.idleFiber w ≠ .term))
  | .timer e =>
    inferInstanceAs (Decidable ((Timers.next s.timers e).manager.timers = [] ∨ ∃ w ∈ threads, s.Asks w))
  | .addEvent _ => inferInstanceAs (Decidable (∃ w ∈ threads, s.Counts w))
  | .ask _ now => inferInstanceAs (Decidable (now ≠ 0))
  | .scheduler .stop | .scheduler (.start _) | .scheduler (.scan _) | .scheduler (.resume _) | .scheduler (.finish _)
  | .scheduler (.idle _ _) | .scheduler (.leave _) | .scheduler (.fiber _ _) => inferInstanceAs (Decidable True)
  | .enter _ | .count _ | .check _ | .expire _ _ _ | .fire _ | .yield _ | .trigger _ | .settle | .delEvent _ =>
    inferInstanceAs (Decidable True)

/-! ### The scheduler -/

section

variable {s s' : Scheduler.State}

/-- A task is in the list, or a worker has one. -/
def Working (s : Scheduler.State) : Prop := s.tasklist ≠ [] ∨ ∃ w task, s.Has w task

/-- What a step of the scheduler does to the idle fibers, and to the workers that are in theirs. -/
structure Goes (s s' : Scheduler.State) : Prop where
  flag : s.stopRequested = true → s'.stopRequested = true
  idle : ∀ w, (s'.workers w).idleFiber = .term ↔ (s.workers w).idleFiber = .term
  unoccupied : ∀ w, s.phase w = .unoccupied → (s.workers w).idleFiber ≠ .term → s'.phase w = .unoccupied
  working : Working s' → Working s

/-- One worker goes on. -/
theorem Goes.setWorker {w : Int} {worker : Scheduler.Worker}
    (hworkers : s'.workers = Function.update s.workers w worker) (hflag : s'.stopRequested = s.stopRequested)
    (hidle : worker.idleFiber = .term ↔ (s.workers w).idleFiber = .term)
    (hunoccupied : s.phase w = .unoccupied → worker.phase = .unoccupied ∨ worker.idleFiber = .term)
    (hlist : s'.tasklist ≠ [] → Working s) (htask : worker.phase.task ≠ none → Working s) : Goes s s' := by
  have hself : s'.workers w = worker := by rw [hworkers, Function.update_self]
  have hother : ∀ v, v ≠ w → s'.workers v = s.workers v := fun v hv => by rw [hworkers, Function.update_of_ne hv]
  constructor
  case flag => exact fun h => hflag.trans h
  case idle =>
    intro v
    by_cases hv : v = w
    · subst hv
      rw [hself]
      exact hidle
    · rw [hother v hv]
  case unoccupied =>
    intro v hphase hnot
    unfold Scheduler.State.phase
    by_cases hv : v = w
    · subst hv
      rw [hself]
      exact (hunoccupied hphase).resolve_right fun hterm => hnot (hidle.1 hterm)
    · rw [hother v hv]
      exact hphase
  case working =>
    rintro (hne | ⟨v, task, hv⟩)
    · exact hlist hne
    · unfold Scheduler.State.Has Scheduler.State.phase at hv
      by_cases heq : v = w
      · subst heq
        rw [hself] at hv
        exact htask (by rw [hv]; simp)
      · rw [hother v heq] at hv
        exact .inr ⟨v, task, hv⟩

theorem working_of_task {w : Int} (h : (s.phase w).task ≠ none) : Working s := by
  obtain ⟨task, htask⟩ := Option.ne_none_iff_exists'.1 h
  exact .inr ⟨w, task, htask⟩

theorem Goes.of_next {threads : List Int} {t : State} {e : Scheduler.Event} (hown : Own threads t e)
    (hnot : ∀ fc thread, e ≠ .schedule fc thread) (h : Scheduler.next t.scheduler e = some s') :
    Goes t.scheduler s' := by
  cases e with
  | schedule fc thread => exact absurd rfl (hnot fc thread)
  | idle w ends => cases hown
  | stop =>
    cases h
    exact ⟨fun _ => rfl, fun _ => .rfl, fun _ hphase _ => hphase, id⟩
  | start w =>
    obtain ⟨hphase, h⟩ := Option.ite_none_right_eq_some.1 h
    cases h
    refine .setWorker rfl rfl (iff_of_false (by simp) hown.2) (fun hunoccupied => ?_) .inl (fun hnone => ?_)
    · rw [hphase] at hunoccupied
      cases hunoccupied
    · exact absurd rfl hnone
  | scan w =>
    obtain ⟨hphase, h⟩ := Option.ite_none_right_eq_some.1 h
    split at h
    case h_1 hnone =>
      cases h
      exact .setWorker rfl rfl .rfl (fun _ => .inl rfl) .inl fun hsome => absurd rfl hsome
    case h_2 task hfound =>
      cases h
      have hne : t.scheduler.tasklist ≠ [] := by
        intro hnil
        rw [Scheduler.State.scan, hnil] at hfound
        cases hfound
      refine .setWorker rfl rfl .rfl (fun hunoccupied => ?_) (fun _ => .inl hne) (fun _ => .inl hne)
      rw [hphase] at hunoccupied
      cases hunoccupied
  | resume w =>
    simp only [Scheduler.next] at h
    split at h
    case h_1 task hphase =>
      obtain ⟨hcan, h⟩ := Option.ite_none_right_eq_some.1 h
      cases h
      have hworking : Working t.scheduler := working_of_task (w := w) (by rw [hphase]; simp [Scheduler.Phase.task])
      cases task.fc <;>
      · refine .setWorker rfl rfl .rfl (fun hunoccupied => ?_) .inl fun _ => hworking
        rw [hphase] at hunoccupied
        cases hunoccupied
    case h_2 => cases h
  | finish w =>
    simp only [Scheduler.next] at h
    split at h
    case h_1 task hphase =>
      cases h
      refine .setWorker rfl rfl .rfl (fun hunoccupied => ?_) .inl fun hsome => absurd rfl hsome
      rw [hphase] at hunoccupied
      cases hunoccupied
    case h_2 => cases h
  | leave w =>
    obtain ⟨⟨hphase, hidle⟩, h⟩ := Option.ite_none_right_eq_some.1 h
    cases h
    exact .setWorker rfl rfl .rfl (fun _ => .inr hidle) .inl fun hsome => absurd rfl hsome
  | fiber f state =>
    cases h
    exact ⟨id, fun _ => .rfl, fun _ hphase _ => hphase, id⟩

theorem present_of_next {threads : List Int} {t : State} {e : Scheduler.Event} (hown : Own threads t e)
    (h : Scheduler.next t.scheduler e = some s') (w : Int) (hw : s'.phase w ≠ .outside) :
    t.scheduler.phase w ≠ .outside ∨ w ∈ threads := by
  have hupdate : ∀ {v : Int} {worker : Scheduler.Worker}, s'.workers = Function.update t.scheduler.workers v worker →
      t.scheduler.phase v ≠ .outside ∨ v ∈ threads → t.scheduler.phase w ≠ .outside ∨ w ∈ threads := by
    intro v worker hworkers hv
    by_cases heq : w = v
    · exact heq ▸ hv
    · left
      unfold Scheduler.State.phase at hw
      rwa [hworkers, Function.update_of_ne heq] at hw
  cases e with
  | schedule fc thread =>
    cases h
    exact .inl hw
  | idle v ends => cases hown
  | stop =>
    cases h
    exact .inl hw
  | start v =>
    obtain ⟨-, h⟩ := Option.ite_none_right_eq_some.1 h
    cases h
    exact hupdate rfl (.inr hown.1)
  | scan v =>
    obtain ⟨hphase, h⟩ := Option.ite_none_right_eq_some.1 h
    split at h <;>
    · cases h
      exact hupdate rfl (.inl (by simp [hphase]))
  | resume v =>
    simp only [Scheduler.next] at h
    split at h
    case h_1 task hphase =>
      obtain ⟨-, h⟩ := Option.ite_none_right_eq_some.1 h
      cases h
      have hinside : t.scheduler.phase v ≠ .outside := by simp [hphase]
      cases hfc : task.fc <;>
      · rw [hfc] at hupdate
        exact hupdate rfl (.inl hinside)
    case h_2 => cases h
  | finish v =>
    simp only [Scheduler.next] at h
    split at h
    case h_1 task hphase =>
      cases h
      exact hupdate rfl (.inl (by simp [hphase]))
    case h_2 => cases h
  | leave v =>
    obtain ⟨⟨hphase, -⟩, h⟩ := Option.ite_none_right_eq_some.1 h
    cases h
    exact hupdate rfl (.inl (by simp [hphase]))
  | fiber f state =>
    cases h
    exact .inl hw

end

/-! ### What is left has somebody to look for it -/

structure Base (threads : List Int) (s : State) : Prop where
  sound : Scheduler.Sound s.scheduler
  present : ∀ w, s.scheduler.phase w ≠ .outside → w ∈ threads
  inside : ∀ w, s.stages w ≠ .away → s.scheduler.phase w = .unoccupied ∧ s.idleFiber w ≠ .term
  stopped : ∀ w, s.idleFiber w = .term → s.scheduler.stopRequested = true
  counted : s.registered.length ≤ s.pendingEventCount

structure Inv (threads : List Int) (s : State) : Prop extends Base threads s where
  working : Working s.scheduler → ∃ w ∈ threads, s.idleFiber w ≠ .term
  events : s.registered ≠ [] → ∃ w ∈ threads, s.Counts w
  timers : s.timers.manager.timers ≠ [] → ∃ w ∈ threads, s.Asks w

section

variable {threads : List Int} {s s' : State} {w : Int}

theorem Inv.initial (now : BitVec 64) : Inv threads (initial now) where
  sound := Scheduler.Sound.initial
  present w h := absurd rfl h
  inside w h := absurd rfl h
  stopped w h := by cases h
  counted := Nat.le_refl 0
  working h := by
    rcases h with hne | ⟨w, task, hw⟩
    · exact absurd rfl hne
    · cases hw
  events h := absurd rfl h
  timers h := absurd rfl h

/-- A worker that is to look for everything is enough. -/
theorem Inv.of_asks (h : Base threads s) (hw : w ∈ threads) (hasks : s.Asks w) : Inv threads s where
  toBase := h
  working _ := ⟨w, hw, hasks.1⟩
  events _ := ⟨w, hw, hasks.1, hasks.2.2⟩
  timers _ := ⟨w, hw, hasks⟩

theorem Base.setStage (h : Base threads s) {stage : Stage} (hscheduler : s'.scheduler = s.scheduler)
    (hstages : s'.stages = Function.update s.stages w stage) (hregistered : s'.registered = s.registered)
    (hcount : s'.pendingEventCount = s.pendingEventCount)
    (hw : s.scheduler.phase w = .unoccupied ∧ s.idleFiber w ≠ .term) : Base threads s' where
  sound := by
    rw [hscheduler]
    exact h.sound
  present := by
    rw [hscheduler]
    exact h.present
  inside v hv := by
    unfold State.idleFiber
    rw [hscheduler]
    by_cases heq : v = w
    · exact heq ▸ hw
    · rw [hstages, Function.update_of_ne heq] at hv
      exact h.inside v hv
  stopped := by
    unfold State.idleFiber
    rw [hscheduler]
    exact h.stopped
  counted := by
    rw [hregistered, hcount]
    exact h.counted

/-- A task is put into the list. -/
theorem Base.push (h : Base threads s) {fc : Option FiberOrCallback} {thread : Int} {scheduler : Scheduler.State}
    (hnext : Scheduler.next s.scheduler (.schedule fc thread) = some scheduler) :
    Base threads { s with scheduler := scheduler } := by
  have hsound := h.sound.step (Scheduler.Step.of_next hnext)
  cases hnext
  exact ⟨hsound, h.present, h.inside, h.stopped, h.counted⟩

theorem Inv.push (h : Inv threads s) {fc : Option FiberOrCallback} {thread : Int} {scheduler : Scheduler.State}
    (hnext : Scheduler.next s.scheduler (.schedule fc thread) = some scheduler)
    (hheeded : fc = none ∨ ∃ w ∈ threads, s.idleFiber w ≠ .term) :
    Inv threads { s with scheduler := scheduler } := by
  refine { h.toBase.push hnext with working := ?_, events := ?_, timers := ?_ }
  · cases hnext
    rcases hheeded with rfl | hstays
    · intro hworking
      apply h.working
      simpa [Working, Scheduler.scheduleWithoutLock, Scheduler.State.newTask, Scheduler.State.Has,
        Scheduler.State.phase] using hworking
    · exact fun _ => hstays
  · cases hnext
    exact h.events
  · cases hnext
    exact h.timers

/-- The scheduler goes on, and nobody in its idle fiber. -/
theorem Base.call (h : Base threads s) {e : Scheduler.Event} (hown : Own threads s e)
    (hnot : ∀ fc thread, e ≠ .schedule fc thread) {scheduler : Scheduler.State}
    (hnext : Scheduler.next s.scheduler e = some scheduler) : Base threads { s with scheduler := scheduler } := by
  have hgoes := Goes.of_next hown hnot hnext
  refine ⟨h.sound.step (Scheduler.Step.of_next hnext), fun v hv => ?_, fun v hv => ?_, fun v hv => ?_, h.counted⟩
  · exact (present_of_next hown hnext v hv).elim (h.present v) id
  · obtain ⟨hphase, hidle⟩ := h.inside v hv
    exact ⟨hgoes.unoccupied v hphase hidle, fun hterm => hidle ((hgoes.idle v).1 hterm)⟩
  · exact hgoes.flag (h.stopped v ((hgoes.idle v).1 hv))

theorem Inv.call (h : Inv threads s) {e : Scheduler.Event} (hown : Own threads s e)
    (hnot : ∀ fc thread, e ≠ .schedule fc thread) {scheduler : Scheduler.State}
    (hnext : Scheduler.next s.scheduler e = some scheduler) : Inv threads { s with scheduler := scheduler } := by
  have hgoes := Goes.of_next hown hnot hnext
  have hstays : ∀ v, s.idleFiber v ≠ .term → (scheduler.workers v).idleFiber ≠ .term :=
    fun v hv hterm => hv ((hgoes.idle v).1 hterm)
  constructor
  case toBase => exact h.toBase.call hown hnot hnext
  case working =>
    intro hworking
    obtain ⟨v, hv, hidle⟩ := h.working (hgoes.working hworking)
    exact ⟨v, hv, hstays v hidle⟩
  case events =>
    intro hne
    obtain ⟨v, hv, hidle, hstage⟩ := h.events hne
    exact ⟨v, hv, hstays v hidle, hstage⟩
  case timers =>
    intro hne
    obtain ⟨v, hv, hidle, hstage⟩ := h.timers hne
    exact ⟨v, hv, hstays v hidle, hstage⟩

/-- A worker is in its idle fiber, and is to look for everything afterwards. -/
theorem Inv.alert (h : Inv threads s) {stage : Stage} (hscheduler : s'.scheduler = s.scheduler)
    (hstages : s'.stages = Function.update s.stages w stage) (hregistered : s'.registered = s.registered)
    (hcount : s'.pendingEventCount = s.pendingEventCount)
    (hw : s.scheduler.phase w = .unoccupied ∧ s.idleFiber w ≠ .term) (hstage : stage ≠ .asked ∧ stage ≠ .counted) :
    Inv threads s' := by
  refine .of_asks (w := w) (h.toBase.setStage hscheduler hstages hregistered hcount hw) ?_ ?_
  · exact h.present w (by rw [hw.1]; simp)
  · unfold State.Asks State.idleFiber
    rw [hscheduler, hstages, Function.update_self]
    exact ⟨hw.2, hstage⟩

/-- The idle fiber yields or ends. -/
theorem Base.idle (h : Base threads s) {ends : Bool} {scheduler : Scheduler.State}
    (hnext : Scheduler.next s.scheduler (.idle w ends) = some scheduler)
    (hends : ends = true → s.scheduler.stopRequested = true) :
    Base threads ({ s with scheduler := scheduler }.setStage w .away) := by
  have hsound := h.sound.step (Scheduler.Step.of_next hnext)
  obtain ⟨⟨hphase, hidle⟩, hnext⟩ := Option.ite_none_right_eq_some.1 hnext
  cases hnext
  refine ⟨hsound, fun v hv => ?_, fun v hv => ?_, fun v hv => ?_, h.counted⟩
  · by_cases heq : v = w
    · subst heq
      exact h.present v (by rw [hphase]; simp)
    · exact h.present v (by simpa [State.setStage, Scheduler.State.phase, heq] using hv)
  · by_cases heq : v = w
    · subst heq
      simp [State.setStage] at hv
    · have hold := h.inside v (by simpa [State.setStage, heq] using hv)
      simpa [State.setStage, State.idleFiber, Scheduler.State.phase, heq] using hold
  · by_cases heq : v = w
    · subst heq
      cases ends with
      | true => exact hends rfl
      | false => simp [State.setStage, State.idleFiber] at hv
    · exact h.stopped v (by simpa [State.setStage, State.idleFiber, heq] using hv)

theorem Base.step {e : Event} (h : Base threads s) (hstep : next threads s e = some s') : Base threads s' := by
  cases e with
  | scheduler e =>
    obtain ⟨hown, hcall⟩ := Option.ite_none_right_eq_some.1 hstep
    obtain ⟨scheduler, hnext, rfl⟩ := Option.map_eq_some_iff.1 hcall
    cases e with
    | schedule fc thread => exact h.push hnext
    | _ => exact h.call hown (by simp) hnext
  | enter w =>
    obtain ⟨⟨hphase, hidle, -⟩, hstep⟩ := Option.ite_none_right_eq_some.1 hstep
    cases hstep
    exact h.setStage rfl rfl rfl rfl ⟨hphase, hidle⟩
  | ask w now =>
    obtain ⟨hstage, hstep⟩ := Option.ite_none_right_eq_some.1 hstep
    cases hstep
    exact h.setStage rfl rfl rfl rfl (h.inside w (by rw [hstage]; simp))
  | count w =>
    obtain ⟨hstage, hstep⟩ := Option.ite_none_right_eq_some.1 hstep
    cases hstep
    exact h.setStage rfl rfl rfl rfl (h.inside w (by rw [hstage]; simp))
  | check w =>
    obtain ⟨hstage, hstep⟩ := Option.ite_none_right_eq_some.1 hstep
    split at hstep
    case isTrue hstopping =>
      obtain ⟨t, hcall, rfl⟩ := Option.map_eq_some_iff.1 hstep
      obtain ⟨scheduler, hnext, rfl⟩ := Option.map_eq_some_iff.1 hcall
      simp only [Scheduler.State.stopping, Bool.and_eq_true] at hstopping
      exact h.idle hnext fun _ => hstopping.1.1
    case isFalse =>
      cases hstep
      exact h.setStage rfl rfl rfl rfl (h.inside w (by rw [hstage]; simp))
  | expire w now nowTimer =>
    obtain ⟨⟨hstage, -⟩, hstep⟩ := Option.ite_none_right_eq_some.1 hstep
    cases hstep
    exact h.setStage rfl rfl rfl rfl (h.inside w (by rw [hstage]; simp))
  | fire w =>
    simp only [next] at hstep
    split at hstep
    case h_1 cb callbacks hstage =>
      obtain ⟨t, hcall, rfl⟩ := Option.map_eq_some_iff.1 hstep
      obtain ⟨scheduler, hnext, rfl⟩ := Option.map_eq_some_iff.1 hcall
      have hpushed := h.push hnext
      exact hpushed.setStage rfl rfl rfl rfl (hpushed.inside w (by rw [hstage]; simp))
    case h_2 => cases hstep
  | yield w =>
    obtain ⟨-, hstep⟩ := Option.ite_none_right_eq_some.1 hstep
    obtain ⟨t, hcall, rfl⟩ := Option.map_eq_some_iff.1 hstep
    obtain ⟨scheduler, hnext, rfl⟩ := Option.map_eq_some_iff.1 hcall
    exact h.idle hnext fun hends => by cases hends
  | trigger i =>
    simp only [next] at hstep
    split at hstep
    case h_1 fc hfc =>
      obtain ⟨t, hcall, rfl⟩ := Option.map_eq_some_iff.1 hstep
      obtain ⟨scheduler, hnext, rfl⟩ := Option.map_eq_some_iff.1 hcall
      have hpushed := h.push hnext
      exact { hpushed with counted := (List.length_eraseIdx_le _ _).trans hpushed.counted }
    case h_2 => cases hstep
  | settle =>
    obtain ⟨hlt, hstep⟩ := Option.ite_none_right_eq_some.1 hstep
    cases hstep
    exact { h with counted := Nat.le_sub_one_of_lt hlt }
  | timer e =>
    obtain ⟨-, hstep⟩ := Option.ite_none_right_eq_some.1 hstep
    cases hstep
    exact { h with }
  | addEvent fc =>
    cases hstep
    refine { h with counted := ?_ }
    simpa using h.counted
  | delEvent i =>
    obtain ⟨hi, hstep⟩ := Option.ite_none_right_eq_some.1 hstep
    cases hstep
    refine { h with counted := ?_ }
    show (s.registered.eraseIdx i).length ≤ s.pendingEventCount - 1
    rw [List.length_eraseIdx_of_lt hi]
    exact Nat.sub_le_sub_right h.counted 1

/-- A worker that has found nothing of one kind goes on. -/
theorem Inv.ask (h : Inv threads s) {now : BitVec 64} (hstage : s.stages w = .entered) (hnow : now ≠ 0) :
    Inv threads { s.setStage w (if (s.timers.manager.getNextTimer now).1 = BitVec.allOnes 64 then .asked else .awake)
      with timers := { s.timers with manager := (s.timers.manager.getNextTimer now).2 } } := by
  have hw := h.inside w (by rw [hstage]; simp)
  split
  case isTrue hall =>
    have hnone : s.timers.manager.timers = [] :=
      Classical.not_not.1 fun hne => TimerManager.getNextTimer_ne_allOnes hnow hne hall
    refine ⟨h.toBase.setStage rfl rfl rfl rfl hw, h.working, ?_, ?_⟩
    · intro hne
      obtain ⟨v, hv, hidle, hcounts⟩ := h.events hne
      refine ⟨v, hv, hidle, ?_⟩
      by_cases heq : v = w
      · subst heq
        simp [State.setStage]
      · simpa [State.setStage, heq] using hcounts
    · intro hne
      simp [TimerManager.getNextTimer, hnone] at hne
  case isFalse => exact h.alert rfl rfl rfl rfl hw (by simp)

theorem Inv.count (h : Inv threads s) (hstage : s.stages w = .asked) :
    Inv threads (s.setStage w (if s.pendingEventCount = 0 then .counted else .awake)) := by
  have hw := h.inside w (by rw [hstage]; simp)
  split
  case isTrue hzero =>
    have hnone : s.registered = [] := by
      have hcounted := h.counted
      rw [hzero] at hcounted
      exact List.eq_nil_of_length_eq_zero (Nat.le_zero.1 hcounted)
    refine ⟨h.toBase.setStage rfl rfl rfl rfl hw, h.working, ?_, ?_⟩
    · exact fun hne => absurd hnone hne
    · intro hne
      obtain ⟨v, hv, hidle, hasks⟩ := h.timers hne
      have heq : v ≠ w := by
        rintro rfl
        exact hasks.1 hstage
      exact ⟨v, hv, hidle, by simpa [State.setStage, heq] using hasks⟩
  case isFalse => exact h.alert rfl rfl rfl rfl hw (by simp)

/-- An idle fiber ends: whatever is left, another worker is to look for it. -/
theorem Inv.stop (h : Inv threads s) (hstage : s.stages w = .counted) (hstopping : s.scheduler.stopping = true)
    {scheduler : Scheduler.State} (hnext : Scheduler.next s.scheduler (.idle w true) = some scheduler) :
    Inv threads ({ s with scheduler := scheduler }.setStage w .away) := by
  obtain ⟨hlist, hbusy⟩ := h.sound.idle_of_stopping hstopping
  have hflag : s.scheduler.stopRequested = true := by
    simp only [Scheduler.State.stopping, Bool.and_eq_true] at hstopping
    exact hstopping.1.1
  have hbase := h.toBase.idle hnext fun _ => hflag
  obtain ⟨-, hnext⟩ := Option.ite_none_right_eq_some.1 hnext
  cases hnext
  refine { hbase with working := ?_, events := ?_, timers := ?_ }
  · rintro (hne | ⟨v, task, hv⟩)
    · exact absurd hlist hne
    · by_cases heq : v = w
      · subst heq
        simp [Scheduler.State.Has, Scheduler.State.phase, State.setStage, Scheduler.Phase.task] at hv
      · have hmem : v ∈ s.scheduler.busy :=
          ⟨task, by simpa [Scheduler.State.Has, Scheduler.State.phase, State.setStage, heq] using hv⟩
        rw [hbusy] at hmem
        cases hmem
  · intro hne
    obtain ⟨v, hv, hidle, hcounts⟩ := h.events hne
    have heq : v ≠ w := by
      rintro rfl
      exact hcounts hstage
    exact ⟨v, hv, by simpa [State.setStage, State.idleFiber, heq] using hidle,
      by simpa [State.setStage, heq] using hcounts⟩
  · intro hne
    obtain ⟨v, hv, hidle, hasks⟩ := h.timers hne
    have heq : v ≠ w := by
      rintro rfl
      exact hasks.2 hstage
    exact ⟨v, hv, by simpa [State.setStage, State.idleFiber, heq] using hidle,
      by simpa [State.setStage, heq] using hasks⟩

/-- An idle fiber yields, and begins with `stopping(next_timeout)` when it is resumed. -/
theorem Inv.yield (h : Inv threads s) (hstage : s.stages w = .firing []) {scheduler : Scheduler.State}
    (hnext : Scheduler.next s.scheduler (.idle w false) = some scheduler) :
    Inv threads ({ s with scheduler := scheduler }.setStage w .away) := by
  have hw := h.inside w (by rw [hstage]; simp)
  have hbase := h.toBase.idle hnext fun hends => by cases hends
  obtain ⟨-, hnext⟩ := Option.ite_none_right_eq_some.1 hnext
  cases hnext
  refine .of_asks (w := w) hbase (h.present w (by rw [hw.1]; simp)) ?_
  simp [State.Asks, State.idleFiber, State.setStage]

theorem Inv.step {e : Event} (h : Inv threads s) (hheeded : Heeded threads s e)
    (hstep : next threads s e = some s') : Inv threads s' := by
  have hbase : Base threads s' := h.toBase.step hstep
  cases e with
  | scheduler e =>
    obtain ⟨hown, hcall⟩ := Option.ite_none_right_eq_some.1 hstep
    obtain ⟨scheduler, hnext, rfl⟩ := Option.map_eq_some_iff.1 hcall
    cases e with
    | schedule fc thread => exact h.push hnext hheeded
    | _ => exact h.call hown (by simp) hnext
  | enter w =>
    obtain ⟨⟨hphase, hidle, -⟩, hstep⟩ := Option.ite_none_right_eq_some.1 hstep
    cases hstep
    exact h.alert rfl rfl rfl rfl ⟨hphase, hidle⟩ (by simp)
  | ask w now =>
    obtain ⟨hstage, hstep⟩ := Option.ite_none_right_eq_some.1 hstep
    cases hstep
    exact h.ask hstage hheeded
  | count w =>
    obtain ⟨hstage, hstep⟩ := Option.ite_none_right_eq_some.1 hstep
    cases hstep
    exact h.count hstage
  | check w =>
    obtain ⟨hstage, hstep⟩ := Option.ite_none_right_eq_some.1 hstep
    split at hstep
    case isTrue hstopping =>
      obtain ⟨t, hcall, rfl⟩ := Option.map_eq_some_iff.1 hstep
      obtain ⟨scheduler, hnext, rfl⟩ := Option.map_eq_some_iff.1 hcall
      exact h.stop hstage hstopping hnext
    case isFalse =>
      cases hstep
      exact h.alert rfl rfl rfl rfl (h.inside w (by rw [hstage]; simp)) (by simp)
  | expire w now nowTimer =>
    obtain ⟨⟨hstage, -⟩, hstep⟩ := Option.ite_none_right_eq_some.1 hstep
    cases hstep
    exact h.alert rfl rfl rfl rfl (h.inside w (by rw [hstage]; simp)) (by simp)
  | fire w =>
    simp only [next] at hstep
    split at hstep
    case h_1 cb callbacks hstage =>
      obtain ⟨t, hcall, rfl⟩ := Option.map_eq_some_iff.1 hstep
      obtain ⟨scheduler, hnext, rfl⟩ := Option.map_eq_some_iff.1 hcall
      have hw := h.inside w (by rw [hstage]; simp)
      have hmem := h.present w (by rw [hw.1]; simp)
      have hpushed := h.push hnext (.inr ⟨w, hmem, hw.2⟩)
      cases hnext
      exact hpushed.alert rfl rfl rfl rfl hw (by simp)
    case h_2 => cases hstep
  | yield w =>
    obtain ⟨hstage, hstep⟩ := Option.ite_none_right_eq_some.1 hstep
    obtain ⟨t, hcall, rfl⟩ := Option.map_eq_some_iff.1 hstep
    obtain ⟨scheduler, hnext, rfl⟩ := Option.map_eq_some_iff.1 hcall
    exact h.yield hstage hnext
  | trigger i =>
    simp only [next] at hstep
    split at hstep
    case h_1 fc hfc =>
      obtain ⟨t, hcall, rfl⟩ := Option.map_eq_some_iff.1 hstep
      obtain ⟨scheduler, hnext, rfl⟩ := Option.map_eq_some_iff.1 hcall
      have hne : s.registered ≠ [] := by
        intro hnil
        simp [hnil] at hfc
      obtain ⟨w, hw, hidle, -⟩ := h.events hne
      have hpushed := h.push hnext (.inr ⟨w, hw, hidle⟩)
      exact { hbase with working := hpushed.working, events := fun _ => hpushed.events hne, timers := hpushed.timers }
    case h_2 => cases hstep
  | settle =>
    obtain ⟨-, hstep⟩ := Option.ite_none_right_eq_some.1 hstep
    cases hstep
    exact { hbase with working := h.working, events := h.events, timers := h.timers }
  | timer e =>
    obtain ⟨-, hstep⟩ := Option.ite_none_right_eq_some.1 hstep
    cases hstep
    refine { h with timers := fun hne => ?_ }
    exact hheeded.resolve_left hne
  | addEvent fc =>
    cases hstep
    exact { hbase with working := h.working, events := fun _ => hheeded, timers := h.timers }
  | delEvent i =>
    obtain ⟨hi, hstep⟩ := Option.ite_none_right_eq_some.1 hstep
    cases hstep
    have hne : s.registered ≠ [] := by
      intro hnil
      simp [hnil] at hi
    exact { hbase with working := h.working, events := fun _ => h.events hne, timers := h.timers }

end

/-- An idle fiber ends only when `stop` has been called, and a worker that has a task is still to look for timers and
events unless its idle fiber has ended.  Where tasks, timers and events come while a worker is still to look for them,
and the clock does not read 0, nothing is left when all idle fibers have ended: no timer, no event, and no task that has
not been taken and finished. -/
theorem drained_of_reaches {threads : List Int} {now : BitVec 64} {s : State} :
    ((machine threads now).Reaches Machine.any (machine threads now).start s →
      (∀ w, s.idleFiber w = .term → s.scheduler.stopRequested = true) ∧
        ∀ w task, s.scheduler.Has w task → s.idleFiber w ≠ .term → w ∈ threads ∧ s.Asks w) ∧
    ((machine threads now).Reaches (Heeded threads) (machine threads now).start s →
      (∀ w ∈ threads, s.idleFiber w = .term) → s.timers.manager.timers = [] ∧ s.registered = [] ∧
        s.scheduler.tasklist = [] ∧ (s.scheduler.takes.map Scheduler.Taken.task).Perm s.scheduler.pushed ∧
          ∀ w task, ¬s.scheduler.Has w task) := by
  constructor
  · intro h
    have hbase : Base threads s := h.invariant (fun _ _ _ hs _ hstep => hs.step hstep) (Inv.initial now).toBase
    refine ⟨hbase.stopped, fun w task hw hidle => ?_⟩
    have hphase : s.scheduler.phase w ≠ .outside ∧ s.scheduler.phase w ≠ .unoccupied := by
      constructor <;>
      · intro hphase
        rw [Scheduler.State.Has, hphase] at hw
        cases hw
    have haway : s.stages w = .away := Classical.not_not.1 fun hne => hphase.2 (hbase.inside w hne).1
    exact ⟨hbase.present w hphase.1, hidle, by simp [haway], by simp [haway]⟩
  · intro h hall
    have hinv : Inv threads s :=
      h.invariant (fun _ _ _ hs hheeded hstep => hs.step hheeded hstep) (Inv.initial now)
    have hnot : ∀ {p : State → Int → Prop}, (∀ w, p s w → s.idleFiber w ≠ .term) → ¬∃ w ∈ threads, p s w := by
      rintro p hp ⟨w, hw, hpw⟩
      exact hp w hpw (hall w hw)
    have hworking : ¬Working s.scheduler := fun h => hnot (p := fun s w => s.idleFiber w ≠ .term) (fun _ => id)
      (hinv.working h)
    have hlist : s.scheduler.tasklist = [] := Classical.not_not.1 fun hne => hworking (.inl hne)
    refine ⟨?_, ?_, hlist, ?_, fun w task hw => hworking (.inr ⟨w, task, hw⟩)⟩
    · exact Classical.not_not.1 fun hne => hnot (fun _ hasks => hasks.1) (hinv.timers hne)
    · exact Classical.not_not.1 fun hne => hnot (fun _ hcounts => hcounts.1) (hinv.events hne)
    · have hkept := hinv.sound.kept
      rwa [hlist, List.append_nil] at hkept

/-- A task adds a timer after `stop`, and the worker goes on until the timer has expired and its callback is done. -/
private def lastTimer : List Event :=
  [.scheduler (.start 1), .scheduler (.schedule (some (.callback 5)) (-1)), .scheduler .stop, .scheduler (.scan 1),
    .scheduler (.resume 1), .timer (.addTimer 1 10 7 false 100), .scheduler (.finish 1), .scheduler (.scan 1), .enter 1,
    .ask 1 100, .expire 1 110 2, .fire 1, .yield 1, .scheduler (.scan 1), .scheduler (.resume 1),
    .scheduler (.finish 1), .scheduler (.scan 1), .enter 1, .ask 1 120, .count 1, .check 1, .scheduler (.scan 1),
    .scheduler (.leave 1)]

theorem drained_of_reaches_lastTimer : ∃ s : State, s.scheduler.phase 1 = .outside ∧ s.scheduler.pushed.length = 2 ∧
    s.timers.manager.timers = [] ∧ (s.scheduler.takes.map Scheduler.Taken.task).Perm s.scheduler.pushed := by
  obtain ⟨s, hreach, hphase, hlength, hidle⟩ : ∃ s : State,
      (machine [1] 100).Reaches (Heeded [1]) (machine [1] 100).start s ∧ s.scheduler.phase 1 = .outside ∧
        s.scheduler.pushed.length = 2 ∧ s.idleFiber 1 = .term :=
    Machine.exists_reaches_of_guarded lastTimer (by decide +kernel)
  obtain ⟨htimers, -, -, htakes, -⟩ := drained_of_reaches.2 hreach (by simpa using hidle)
  exact ⟨s, hphase, hlength, htimers, htakes⟩

/-- The only worker has found no timer, one is added from outside, and `stop` is called: nobody is left for it. -/
theorem exists_lost : ∃ s : State, (machine [1] 100).Reaches Machine.any (machine [1] 100).start s ∧
    s.scheduler.phase 1 = .outside ∧ s.idleFiber 1 = .term ∧ s.timers.manager.timers = [1] :=
  Machine.exists_reaches_of_run
    [.scheduler (.start 1), .scheduler (.scan 1), .enter 1, .ask 1 100, .timer (.addTimer 1 10 7 false 100),
      .scheduler .stop, .count 1, .check 1, .scheduler (.scan 1), .scheduler (.leave 1)]
    (fun _ _ _ => trivial) (by decide +kernel)

end Shutdown

end AcidCompute

import AcidCompute.Scheduler.Tasks

/-!
# Switching to a fiber and back

`Fiber::yield` sets the state of the fiber to `READY`, and `swapcontext` saves its context after that.  A worker that
looks for a task passes by fibers that are `RUNNING`, but it may find one that has been woken and is between the two.
It then resumes the fiber from the context of the yield before, while another worker is still on its stack.

The point to which a fiber has come is the number of its yields, and a context is the point that it leads to.  As long
as no worker takes a fiber that is between the two steps of `yield`, a fiber is resumed from the point to which it has
come, and by one worker (`Scheduler.Switch.resumed_of_reaches`).
-/

namespace AcidCompute

namespace Scheduler

namespace Switch

/-- Where a worker is. -/
inductive Phase
  | looking
  -- in front of `resume`
  | taken (f : Nat)
  -- on the stack of the fiber, which came from the point; it may have put itself into a queue
  | running (f : Nat) (point : Nat) (queued : Bool)
  -- `m_state` has been set and `swapcontext` has not saved the context
  | leaving (f : Nat) (point : Nat)
  deriving DecidableEq, Repr

def Phase.fiber : Phase → Option Nat
  | .looking => none
  | .taken f => some f
  | .running f _ _ => some f
  | .leaving f _ => some f

structure State where
  tasklist : List ScheduleTask
  workers : Int → Phase
  -- `m_state`
  fibers : Nat → FiberState
  -- `m_ctx`
  contexts : Nat → Nat
  points : Nat → Nat
  -- the fibers that wait for somebody to wake them up
  waiting : List Nat
  created : Nat → Bool
  -- how many tasks have been pushed
  pushed : Nat

inductive Event
  -- a new fiber is scheduled, which a callback gets as well
  | spawn (f : Nat) (thread : Int)
  -- the section of `run` that looks for a task
  | take (w : Int)
  | resume (w : Int)
  -- the fiber puts itself into a queue
  | enqueue (w : Int)
  -- somebody takes a fiber out of a queue and schedules it
  | wake (f : Nat) (thread : Int)
  -- `m_state = State::READY`
  | yield (w : Int)
  -- `m_state = State::TERM`, and the yield behind it
  | terminate (w : Int)
  -- `swapcontext` in `yield`
  | save (w : Int)
  deriving DecidableEq, Repr

def initial : State where
  tasklist := []
  workers _ := .looking
  fibers _ := .ready
  contexts _ := 0
  points _ := 0
  waiting := []
  created _ := false
  pushed := 0

namespace State

variable (s : State)

def setWorker (w : Int) (phase : Phase) : State := { s with workers := Function.update s.workers w phase }

def setFiber (f : Nat) (state : FiberState) : State := { s with fibers := Function.update s.fibers f state }

def push (f : Nat) (thread : Int) : State :=
  { s with tasklist := s.tasklist ++ [⟨.fiber f, thread, s.pushed⟩], pushed := s.pushed + 1 }

/-- `new Fiber(callback)` -/
def create (f : Nat) : State :=
  { s.setFiber f .ready with
    contexts := Function.update s.contexts f 0
    points := Function.update s.points f 0
    created := Function.update s.created f true }

/-- The first step of `yield`, for a fiber that came from the point. -/
def leave (w : Int) (f point : Nat) (state : FiberState) : State :=
  { (s.setFiber f state).setWorker w (.leaving f (point + 1)) with points := Function.update s.points f (point + 1) }

end State

def next (s : State) : Event → Option State
  | .spawn f thread =>
    if s.created f = false then some ((s.create f).push f thread) else none
  | .take w =>
    if s.workers w = .looking then
      match (scan s.fibers w s.tasklist).task with
      | none => some s
      | some ⟨.fiber f, _, _⟩ => some { s.setWorker w (.taken f) with tasklist := (scan s.fibers w s.tasklist).rest }
      | some ⟨.callback _, _, _⟩ => none
    else none
  | .resume w =>
    match s.workers w with
    | .taken f =>
      if CanResume s.fibers (.fiber f) then
        some ((s.setFiber f .running).setWorker w (.running f (s.contexts f) false))
      else none
    | _ => none
  | .enqueue w =>
    match s.workers w with
    | .running f point false => some { s.setWorker w (.running f point true) with waiting := s.waiting ++ [f] }
    | _ => none
  | .wake f thread => if f ∈ s.waiting then some { s.push f thread with waiting := s.waiting.erase f } else none
  | .yield w =>
    match s.workers w with
    | .running f point _ => if s.fibers f = .running then some (s.leave w f point .ready) else none
    | _ => none
  | .terminate w =>
    match s.workers w with
    | .running f point false => some (s.leave w f point .term)
    | _ => none
  | .save w =>
    match s.workers w with
    | .leaving f point => some { s.setWorker w .looking with contexts := Function.update s.contexts f point }
    | _ => none

def machine : Machine State Event where
  start := initial
  step := next

/-- No worker takes a fiber while it is between the two steps of `yield`. -/
def Outside (s : State) : Event → Prop
  | .take w => ∀ task f, (scan s.fibers w s.tasklist).task = some task → task.fc = .fiber f →
      ∀ v point, s.workers v ≠ .leaving f point
  | _ => True

/-! ### Who may have a fiber -/

def fiberOf : FiberOrCallback → Option Nat
  | .fiber f => some f
  | .callback _ => none

/-- The fibers that are scheduled or wait. -/
def State.tokens (s : State) : List Nat := (s.tasklist.filterMap fun task => fiberOf task.fc) ++ s.waiting

/-- Nobody has the fiber, and its context is the one of its last yield. -/
structure Rest (s : State) (f : Nat) : Prop where
  saved : s.contexts f = s.points f
  state : s.fibers f ≠ .running
  ready : f ∈ s.tokens → s.fibers f = .ready

/-- What a worker knows about the fiber that it has. -/
def Held (s : State) : Phase → Prop
  | .looking => True
  | .taken f => f ∉ s.tokens ∧ s.fibers f = .ready ∧ s.contexts f = s.points f
  | .running f point queued => s.fibers f = .running ∧ point = s.points f ∧ s.contexts f = s.points f ∧
      (queued = false → f ∉ s.tokens)
  | .leaving f point => point = s.points f ∧ s.fibers f ≠ .running ∧ (f ∈ s.tokens → s.fibers f = .ready)

/-- What holds in every state of a run in which no fiber is taken too early. -/
structure Exclusive (s : State) : Prop where
  unique : ∀ v w f, (s.workers v).fiber = some f → (s.workers w).fiber = some f → v = w
  nodup : s.tokens.Nodup
  created : ∀ f, s.created f = false → f ∉ s.tokens ∧ ∀ w, (s.workers w).fiber ≠ some f
  held : ∀ w, Held s (s.workers w)
  rest : ∀ f, (∀ w, (s.workers w).fiber ≠ some f) → Rest s f

/-- The fiber is as it was. -/
structure Same (s s' : State) (f : Nat) : Prop where
  fibers : s'.fibers f = s.fibers f
  contexts : s'.contexts f = s.contexts f
  points : s'.points f = s.points f
  tokens : f ∈ s'.tokens ↔ f ∈ s.tokens

theorem Exclusive.initial : Exclusive initial where
  unique v w f h := by cases h
  nodup := List.nodup_nil
  created f _ := ⟨by simp [State.tokens, Switch.initial], fun w h => by cases h⟩
  held w := trivial
  rest f _ := ⟨rfl, by simp [Switch.initial], fun h => by cases h⟩

section

variable {s s' : State} {w : Int} {f : Nat}

theorem Rest.same (h : Rest s f) (hsame : Same s s' f) : Rest s' f where
  saved := by rw [hsame.contexts, hsame.points, h.saved]
  state := by rw [hsame.fibers]; exact h.state
  ready hmem := by rw [hsame.fibers]; exact h.ready (hsame.tokens.1 hmem)

theorem Held.same {phase : Phase} (h : Held s phase) (hsame : ∀ g, phase.fiber = some g → Same s s' g) :
    Held s' phase := by
  cases phase with
  | looking => trivial
  | taken f =>
    have hf := hsame f rfl
    simpa only [Held, hf.tokens, hf.fibers, hf.contexts, hf.points] using h
  | running f point queued =>
    have hf := hsame f rfl
    simpa only [Held, hf.tokens, hf.fibers, hf.contexts, hf.points] using h
  | leaving f point =>
    have hf := hsame f rfl
    simpa only [Held, hf.tokens, hf.fibers, hf.points] using h

theorem Exclusive.created_of_worker (h : Exclusive s) (hf : (s.workers w).fiber = some f) : s.created f = true := by
  by_contra hnot
  exact (h.created f (Bool.eq_false_iff.2 hnot)).2 w hf

/-- One worker goes on with a fiber that nobody else has. -/
theorem Exclusive.move (h : Exclusive s) {phase : Phase} (hworkers : s'.workers = Function.update s.workers w phase)
    (hcreated : s'.created = s.created) (hothers : ∀ v, v ≠ w → (s.workers v).fiber ≠ some f)
    (hknown : s.created f = true) (hold : ∀ g, (s.workers w).fiber = some g → g = f)
    (hnew : ∀ g, phase.fiber = some g → g = f) (hsame : ∀ g, g ≠ f → Same s s' g) (hnodup : s'.tokens.Nodup)
    (hheld : Held s' phase) (hrest : phase.fiber = none → Rest s' f) : Exclusive s' := by
  have hself : s'.workers w = phase := by rw [hworkers, Function.update_self]
  have hother : ∀ v, v ≠ w → s'.workers v = s.workers v := by
    intro v hv
    rw [hworkers, Function.update_of_ne hv]
  constructor
  case unique =>
    intro v v' g hv hv'
    by_cases heq : v = w
    · by_cases heq' : v' = w
      · rw [heq, heq']
      · rw [heq, hself] at hv
        rw [hother v' heq', hnew g hv] at hv'
        exact absurd hv' (hothers v' heq')
    · rw [hother v heq] at hv
      by_cases heq' : v' = w
      · rw [heq', hself] at hv'
        rw [hnew g hv'] at hv
        exact absurd hv (hothers v heq)
      · rw [hother v' heq'] at hv'
        exact h.unique v v' g hv hv'
  case nodup => exact hnodup
  case created =>
    intro g hg
    rw [hcreated] at hg
    obtain ⟨htokens, hnone⟩ := h.created g hg
    have hne : g ≠ f := by
      rintro rfl
      rw [hknown] at hg
      cases hg
    refine ⟨fun hmem => htokens ((hsame g hne).tokens.1 hmem), fun v hv => ?_⟩
    by_cases heq : v = w
    · rw [heq, hself] at hv
      exact hne (hnew g hv)
    · rw [hother v heq] at hv
      exact hnone v hv
  case held =>
    intro v
    by_cases heq : v = w
    · rw [heq, hself]
      exact hheld
    · rw [hother v heq]
      apply (h.held v).same
      intro g hg
      apply hsame
      rintro rfl
      exact hothers v heq hg
  case rest =>
    intro g hg
    by_cases hne : g = f
    · subst hne
      apply hrest
      have hnot := hg w
      rw [hself] at hnot
      rcases Option.eq_none_or_eq_some phase.fiber with hnone | ⟨g', hg'⟩
      · exact hnone
      · rw [hnew g' hg'] at hg'
        exact absurd hg' hnot
    · refine (h.rest g fun v hv => ?_).same (hsame g hne)
      by_cases heq : v = w
      · exact hne (hold g (heq ▸ hv))
      · exact hg v (by rw [hother v heq]; exact hv)

end

/-! ### One step -/

section

variable {s : State} {w : Int} {f : Nat}

theorem tokens_push (thread : Int) : (s.push f thread).tokens.Perm (f :: s.tokens) := by
  have heq : (s.push f thread).tokens = (s.tasklist.filterMap fun task => fiberOf task.fc) ++ f :: s.waiting := by
    simp [State.push, State.tokens, fiberOf]
  rw [heq]
  exact List.perm_middle

/-- The lists change, and no worker goes on. -/
private theorem Exclusive.schedule {s' : State} (h : Exclusive s) (hworkers : s'.workers = s.workers)
    (hcreated : s'.created = s.created) (hsame : ∀ g, Same s s' g) (hnodup : s'.tokens.Nodup) : Exclusive s' := by
  constructor
  case unique =>
    rw [hworkers]
    exact h.unique
  case nodup => exact hnodup
  case created =>
    rw [hcreated, hworkers]
    intro g hg
    exact ⟨fun hmem => (h.created g hg).1 ((hsame g).tokens.1 hmem), (h.created g hg).2⟩
  case held =>
    rw [hworkers]
    exact fun v => (h.held v).same fun g _ => hsame g
  case rest =>
    rw [hworkers]
    exact fun g hg => (h.rest g hg).same (hsame g)

theorem Exclusive.spawn (h : Exclusive s) (hnew : s.created f = false) (thread : Int) :
    Exclusive ((s.create f).push f thread) := by
  obtain ⟨htokens, hnone⟩ := h.created f hnew
  have hperm : ((s.create f).push f thread).tokens.Perm (f :: s.tokens) := tokens_push (s := s.create f) thread
  have hsame : ∀ g, g ≠ f → Same s ((s.create f).push f thread) g := by
    intro g hg
    refine ⟨?_, ?_, ?_, ?_⟩
    · exact Function.update_of_ne hg _ _
    · exact Function.update_of_ne hg _ _
    · exact Function.update_of_ne hg _ _
    · rw [hperm.mem_iff, List.mem_cons, or_iff_right hg]
  constructor
  case unique => exact h.unique
  case nodup => exact hperm.nodup_iff.2 (List.nodup_cons.2 ⟨htokens, h.nodup⟩)
  case created =>
    intro g hg
    have hne : g ≠ f := by
      rintro rfl
      simp [State.push, State.create] at hg
    have hold : s.created g = false := (Function.update_of_ne hne _ _).symm.trans hg
    exact ⟨fun hmem => (h.created g hold).1 ((hsame g hne).tokens.1 hmem), (h.created g hold).2⟩
  case held =>
    intro v
    apply (h.held v).same
    intro g hg
    apply hsame
    rintro rfl
    exact hnone v hg
  case rest =>
    intro g hg
    by_cases hne : g = f
    · subst hne
      have hstate : ((s.create g).push g thread).fibers g = .ready := Function.update_self _ _ _
      refine ⟨?_, by simp [hstate], fun _ => hstate⟩
      simp [State.push, State.create]
    · exact (h.rest g hg).same (hsame g hne)

theorem Exclusive.wake (h : Exclusive s) (hmem : f ∈ s.waiting) (thread : Int) :
    Exclusive { s.push f thread with waiting := s.waiting.erase f } := by
  have hperm : (State.tokens { s.push f thread with waiting := s.waiting.erase f }).Perm s.tokens := by
    have heq : State.tokens { s.push f thread with waiting := s.waiting.erase f } =
        (s.tasklist.filterMap fun task => fiberOf task.fc) ++ f :: s.waiting.erase f := by
      simp [State.push, State.tokens, fiberOf]
    rw [heq]
    exact (List.perm_cons_erase hmem).symm.append_left _
  exact h.schedule rfl rfl (fun g => ⟨rfl, rfl, rfl, hperm.mem_iff⟩) (hperm.nodup_iff.2 h.nodup)

private theorem Walk.mayTake {fibers : Nat → FiberState} {self : Int} {tasks rest : List ScheduleTask}
    {task : ScheduleTask} (h : Walk fibers self tasks (some task) rest) : MayTake fibers self task := by
  generalize hfound : some task = found at h
  cases h with
  | nothing => cases hfound
  | found _ hmay =>
    cases hfound
    exact hmay

/-- A fiber that is found is with nobody, unless it is between the two steps of `yield`. -/
theorem Exclusive.take (h : Exclusive s) {task : ScheduleTask} {rest : List ScheduleTask}
    (hlooking : s.workers w = .looking) (hwalk : Walk s.fibers w s.tasklist (some task) rest)
    (hfiber : task.fc = .fiber f) (houtside : ∀ v point, s.workers v ≠ .leaving f point) :
    Exclusive { s.setWorker w (.taken f) with tasklist := rest } := by
  have hperm : s.tokens.Perm (f :: State.tokens { s.setWorker w (.taken f) with tasklist := rest }) := by
    have hlist := (hwalk.perm.symm.filterMap fun task => fiberOf task.fc).append_right s.waiting
    rwa [List.filterMap_cons_some (by rw [hfiber]; rfl)] at hlist
  obtain ⟨hnot, hnodup⟩ := List.nodup_cons.1 (hperm.nodup_iff.1 h.nodup)
  have hmem : f ∈ s.tokens := hperm.mem_iff.2 List.mem_cons_self
  have hstate : s.fibers f ≠ .running := by
    have hmay := (Walk.mayTake hwalk).2
    rwa [hfiber] at hmay
  have hnobody : ∀ v, (s.workers v).fiber ≠ some f := by
    intro v hv
    have hheld := h.held v
    cases hphase : s.workers v with
    | looking =>
      rw [hphase] at hv
      cases hv
    | taken g =>
      rw [hphase] at hv hheld
      cases hv
      exact hheld.1 hmem
    | running g point queued =>
      rw [hphase] at hv hheld
      cases hv
      exact hstate hheld.1
    | leaving g point =>
      rw [hphase] at hv
      cases hv
      exact houtside v point hphase
  have hrest := h.rest f hnobody
  refine h.move (f := f) rfl rfl (fun v _ => hnobody v) ?_ ?_ ?_ ?_ hnodup ?_ ?_
  · by_contra hunknown
    exact (h.created f (Bool.eq_false_iff.2 hunknown)).1 hmem
  · rw [hlooking]
    intro g hg
    cases hg
  · intro g hg
    exact (Option.some.inj hg).symm
  · exact fun g hg => ⟨rfl, rfl, rfl, by rw [hperm.mem_iff, List.mem_cons, or_iff_right hg]⟩
  · exact ⟨hnot, hrest.ready hmem, hrest.saved⟩
  · intro hnone
    cases hnone

/-- A worker goes on with its fiber. -/
private theorem Exclusive.goOn {s' : State} (h : Exclusive s) {phase : Phase} (hf : (s.workers w).fiber = some f)
    (hworkers : s'.workers = Function.update s.workers w phase) (hcreated : s'.created = s.created)
    (hnew : ∀ g, phase.fiber = some g → g = f) (hsame : ∀ g, g ≠ f → Same s s' g) (hnodup : s'.tokens.Nodup)
    (hheld : Held s' phase) (hrest : phase.fiber = none → Rest s' f) : Exclusive s' := by
  refine h.move hworkers hcreated ?_ (h.created_of_worker hf) ?_ hnew hsame hnodup hheld hrest
  · intro v hv hf'
    exact hv (h.unique v w f hf' hf)
  · intro g hg
    exact Option.some.inj (hg.symm.trans hf)

/-- A worker goes on and keeps its fiber. -/
private theorem Exclusive.keep {s' : State} (h : Exclusive s) {phase : Phase} (hf : (s.workers w).fiber = some f)
    (hworkers : s'.workers = Function.update s.workers w phase) (hcreated : s'.created = s.created)
    (hkeeps : phase.fiber = some f) (hsame : ∀ g, g ≠ f → Same s s' g) (hnodup : s'.tokens.Nodup)
    (hheld : Held s' phase) : Exclusive s' := by
  refine h.goOn hf hworkers hcreated ?_ hsame hnodup hheld ?_
  · intro g hg
    exact Option.some.inj (hg.symm.trans hkeeps)
  · intro hnone
    rw [hkeeps] at hnone
    cases hnone

theorem Exclusive.resume (h : Exclusive s) (hphase : s.workers w = .taken f) :
    Exclusive ((s.setFiber f .running).setWorker w (.running f (s.contexts f) false)) := by
  have hheld := h.held w
  rw [hphase] at hheld
  obtain ⟨hnot, -, hsaved⟩ := hheld
  refine h.keep (f := f) (by rw [hphase]; rfl) rfl rfl rfl ?_ h.nodup ?_
  · exact fun g hg => ⟨Function.update_of_ne hg _ _, rfl, rfl, Iff.rfl⟩
  · exact ⟨Function.update_self _ _ _, hsaved, hsaved, fun _ => hnot⟩

theorem Exclusive.enqueue (h : Exclusive s) {point : Nat} (hphase : s.workers w = .running f point false) :
    Exclusive { s.setWorker w (.running f point true) with waiting := s.waiting ++ [f] } := by
  have hheld := h.held w
  rw [hphase] at hheld
  obtain ⟨hstate, hpoint, hsaved, hnot⟩ := hheld
  have hperm : (State.tokens { s.setWorker w (.running f point true) with waiting := s.waiting ++ [f] }).Perm
      (f :: s.tokens) := by
    have heq : State.tokens { s.setWorker w (.running f point true) with waiting := s.waiting ++ [f] } =
        s.tokens ++ [f] := by
      simp [State.tokens, State.setWorker]
    rw [heq]
    exact List.perm_append_singleton f s.tokens
  refine h.keep (f := f) (by rw [hphase]; rfl) rfl rfl rfl ?_ ?_ ?_
  · exact fun g hg => ⟨rfl, rfl, rfl, by rw [hperm.mem_iff, List.mem_cons, or_iff_right hg]⟩
  · exact hperm.nodup_iff.2 (List.nodup_cons.2 ⟨hnot rfl, h.nodup⟩)
  · exact ⟨hstate, hpoint, hsaved, fun hqueued => by cases hqueued⟩

theorem Exclusive.leave (h : Exclusive s) {point : Nat} {queued : Bool} {state : FiberState}
    (hphase : s.workers w = .running f point queued) (hstate : state ≠ .running)
    (hready : f ∈ s.tokens → state = .ready) : Exclusive (s.leave w f point state) := by
  refine h.keep (f := f) (by rw [hphase]; rfl) rfl rfl rfl ?_ h.nodup ?_
  · exact fun g hg => ⟨Function.update_of_ne hg _ _, rfl, Function.update_of_ne hg _ _, Iff.rfl⟩
  · have hself : (s.leave w f point state).fibers f = state := Function.update_self _ _ _
    have hpoint : (s.leave w f point state).points f = point + 1 := Function.update_self _ _ _
    refine ⟨hpoint.symm, by rwa [hself], fun hmem => ?_⟩
    rw [hself]
    exact hready hmem

theorem Exclusive.save (h : Exclusive s) {point : Nat} (hphase : s.workers w = .leaving f point) :
    Exclusive { s.setWorker w .looking with contexts := Function.update s.contexts f point } := by
  have hheld := h.held w
  rw [hphase] at hheld
  obtain ⟨hpoint, hstate, hready⟩ := hheld
  refine h.goOn (f := f) (by rw [hphase]; rfl) rfl rfl ?_ ?_ h.nodup trivial ?_
  · intro g hg
    cases hg
  · exact fun g hg => ⟨rfl, Function.update_of_ne hg _ _, rfl, Iff.rfl⟩
  · exact fun _ => ⟨(Function.update_self _ _ _).trans hpoint, hstate, hready⟩

end

theorem Exclusive.step {s s' : State} {e : Event} (h : Exclusive s) (houtside : Outside s e)
    (hstep : machine.step s e = some s') : Exclusive s' := by
  change next s e = some s' at hstep
  cases e with
  | spawn f thread =>
    rw [next] at hstep
    split at hstep
    case isTrue hnew =>
      cases hstep
      exact h.spawn hnew thread
    case isFalse => cases hstep
  | take w =>
    rw [next] at hstep
    split at hstep
    case isTrue hlooking =>
      split at hstep
      case h_1 =>
        cases hstep
        exact h
      case h_2 f thread number hfound =>
        cases hstep
        have hwalk := scan_walk s.fibers w s.tasklist
        rw [hfound] at hwalk
        exact h.take hlooking hwalk rfl (houtside _ f hfound rfl)
      case h_3 => cases hstep
    case isFalse => cases hstep
  | resume w =>
    rw [next] at hstep
    split at hstep
    case h_1 f hphase =>
      split at hstep
      case isTrue =>
        cases hstep
        exact h.resume hphase
      case isFalse => cases hstep
    case h_2 => cases hstep
  | enqueue w =>
    rw [next] at hstep
    split at hstep
    case h_1 f point hphase =>
      cases hstep
      exact h.enqueue hphase
    case h_2 => cases hstep
  | wake f thread =>
    rw [next] at hstep
    split at hstep
    case isTrue hmem =>
      cases hstep
      exact h.wake hmem thread
    case isFalse => cases hstep
  | yield w =>
    rw [next] at hstep
    split at hstep
    case h_1 f point queued hphase =>
      split at hstep
      case isTrue =>
        cases hstep
        exact h.leave hphase (by simp) fun _ => rfl
      case isFalse => cases hstep
    case h_2 => cases hstep
  | terminate w =>
    rw [next] at hstep
    split at hstep
    case h_1 f point hphase =>
      cases hstep
      have hheld := h.held w
      rw [hphase] at hheld
      exact h.leave hphase (by simp) fun hmem => absurd hmem (hheld.2.2.2 rfl)
    case h_2 => cases hstep
  | save w =>
    rw [next] at hstep
    split at hstep
    case h_1 f point hphase =>
      cases hstep
      exact h.save hphase
    case h_2 => cases hstep

theorem Exclusive.of_reaches {s : State} (h : machine.Reaches Outside Switch.initial s) : Exclusive s :=
  h.invariant (fun _ _ _ hs houtside hstep => hs.step houtside hstep) Exclusive.initial

/-- As long as no fiber is taken between the two steps of `yield`, a fiber is with one worker at most, a worker resumes
it from the context of its last yield, the assertions in `resume` and `yield` hold, and it goes on where it has left. -/
theorem resumed_of_reaches {s : State} (h : machine.Reaches Outside initial s) :
    (∀ v w f, (s.workers v).fiber = some f → (s.workers w).fiber = some f → v = w) ∧
      (∀ w f, s.workers w = .taken f → s.contexts f = s.points f ∧ CanResume s.fibers (.fiber f)) ∧
      ∀ w f point queued, s.workers w = .running f point queued → point = s.points f ∧ s.fibers f = .running := by
  have hs := Exclusive.of_reaches h
  refine ⟨hs.unique, ?_, ?_⟩
  · intro w f hphase
    have hheld := hs.held w
    rw [hphase] at hheld
    obtain ⟨-, hstate, hsaved⟩ := hheld
    refine ⟨hsaved, ?_⟩
    simp [CanResume, hstate]
  · intro w f point queued hphase
    have hheld := hs.held w
    rw [hphase] at hheld
    exact ⟨hheld.2.1, hheld.1⟩

/-- A fiber puts itself into a queue, is woken, and sets its state. -/
private def woken : List Event := [.spawn 7 (-1), .take 1, .resume 1, .enqueue 1, .wake 7 (-1), .yield 1]

/-- Another worker resumes the fiber from the point where it started. -/
theorem exists_stale_woken : ∃ s, machine.Reaches Machine.any initial s ∧ s.workers 1 = .leaving 7 1 ∧
    s.workers 2 = .running 7 0 false ∧ s.points 7 = 1 :=
  Machine.exists_reaches_of_run (woken ++ [.take 2, .resume 2]) (fun _ _ _ => trivial) (by decide +kernel)

/-- The other worker takes the fiber after its context has been saved. -/
theorem resumed_of_reaches_woken : ∃ s, machine.Reaches Outside initial s ∧ s.workers 2 = .running 7 1 false ∧
    s.points 7 = 1 := by
  obtain ⟨s, hreach, hphase⟩ : ∃ s, machine.Reaches Outside initial s ∧ s.workers 2 = .running 7 1 false := by
    refine ⟨_, .head (e := .spawn 7 (-1)) trivial rfl <| .head (e := .take 1) ?_ rfl <|
      .head (e := .resume 1) trivial rfl <| .head (e := .enqueue 1) trivial rfl <|
      .head (e := .wake 7 (-1)) trivial rfl <| .head (e := .yield 1) trivial rfl <|
      .head (e := .save 1) trivial rfl <| .head (e := .take 2) ?_ rfl <|
      .single (e := .resume 2) trivial rfl, by rfl⟩
    · intro task f _ _ v point hphase
      cases hphase
    · intro task f _ _ v point hphase
      simp [State.setWorker, State.leave, State.setFiber, State.push, State.create, initial] at hphase
  exact ⟨s, hreach, hphase, ((resumed_of_reaches hreach).2.2 2 7 1 false hphase).1.symm⟩

end Switch

end Scheduler

end AcidCompute

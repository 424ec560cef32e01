import AcidCompute.Rpc.Client
import AcidCompute.Timer.Runs

/-!
# The timeout callback of a call

The callback that a call hands to its timer refers to `timeout`, a local variable of the call.  The call cancels the
timer before it returns, which takes the timer out of the set; `list_expired_callback` may have taken out the callback
before, and then the scheduler still runs it.

The callback never runs after the call has returned just if no call returns while its callback is taken out and has not
run (`RpcClient.CallTimeout.late_of_reaches`).
-/

namespace AcidCompute

namespace RpcClient

namespace CallTimeout

/-- What timers do: the callback of the call, and what others have added. -/
inductive Task
  | timeout
  | other (n : Nat)
  deriving DecidableEq, Repr

/-- One call, and the timers of its `IOManager`. -/
structure State where
  timers : Timers.State Task
  call : Call
  -- `timer`, a local variable
  timer : Option Nat
  -- what `list_expired_callback` has taken out and no worker has run
  tasks : List Task
  -- the callback has written to `timeout` when the call had returned
  late : Bool

inductive Event
  -- `add_timer`, with the address of the new timer
  | addTimer (timer : Nat) (now : BitVec 64)
  -- `handle_method_response`, or `close` with a null pointer
  | push (x : Option Protocol)
  | receive
  | cancel
  | finish
  -- `idle` takes out and schedules what has expired, and workers run it in any order
  | listExpiredCallback (now : BitVec 64) (nowTimer : Nat)
  | run (task : Task)
  -- something is done to other timers
  | others (e : Timers.Event Task)
  deriving DecidableEq, Repr

/-- A call that has sent its request. -/
def initial (start : BitVec 64) : State :=
  ⟨Timers.initial start, { Call.fresh with phase := .registered }, none, [], false⟩

/-- The timers of others have other callbacks. -/
def Foreign : Timers.Event Task → Prop
  | .addTimer _ _ cb _ _ => cb ≠ .timeout
  | .listExpiredCallback _ _ => False
  | _ => True

instance : (e : Timers.Event Task) → Decidable (Foreign e)
  | .addTimer _ _ cb _ _ => inferInstanceAs (Decidable (cb ≠ .timeout))
  | .cancel _ => inferInstanceAs (Decidable True)
  | .refresh _ _ => inferInstanceAs (Decidable True)
  | .reset _ _ _ _ => inferInstanceAs (Decidable True)
  | .listExpiredCallback _ _ => inferInstanceAs (Decidable False)
  | .release _ => inferInstanceAs (Decidable True)

def Enabled (s : State) : Event → Prop
  | .addTimer timer _ => s.call.phase = .registered ∧ s.timers.Free timer
  | .push _ => s.call.closed = true ∨ s.call.queue.length < 1
  | .receive => s.call.phase = .waiting ∧ (s.call.closed = true ∨ s.call.queue ≠ [])
  | .cancel => s.call.phase = .received
  | .finish => s.call.phase = .cancelled
  | .listExpiredCallback now nowTimer => Timers.Enabled s.timers (.listExpiredCallback now nowTimer)
  | .run task => task ∈ s.tasks
  | .others e => Timers.Enabled s.timers e ∧ Foreign e ∧ (s.timer = none ∨ e.timer ≠ s.timer)

instance (s : State) : (e : Event) → Decidable (Enabled s e)
  | .addTimer timer _ => inferInstanceAs (Decidable (s.call.phase = .registered ∧ s.timers.Free timer))
  | .push _ => inferInstanceAs (Decidable (s.call.closed = true ∨ s.call.queue.length < 1))
  | .receive => inferInstanceAs (Decidable (s.call.phase = .waiting ∧ (s.call.closed = true ∨ s.call.queue ≠ [])))
  | .cancel => inferInstanceAs (Decidable (s.call.phase = .received))
  | .finish => inferInstanceAs (Decidable (s.call.phase = .cancelled))
  | .listExpiredCallback now nowTimer =>
    inferInstanceAs (Decidable (Timers.Enabled s.timers (.listExpiredCallback now nowTimer)))
  | .run task => inferInstanceAs (Decidable (task ∈ s.tasks))
  | .others e =>
    inferInstanceAs (Decidable (Timers.Enabled s.timers e ∧ Foreign e ∧ (s.timer = none ∨ e.timer ≠ s.timer)))

/-- The local variables of the call are gone. -/
def returned : Phase → Bool
  | .returned _ => true
  | _ => false

variable (mTimeout : BitVec 64)

def next (s : State) : Event → State
  | .addTimer timer now =>
    -- `static_cast<uint64_t>(-1)` is for calls without a timeout
    if mTimeout ≠ BitVec.allOnes 64 then
      { s with
        timers := Timers.next s.timers (.addTimer timer mTimeout .timeout false now), timer := some timer
        call := { s.call with phase := .waiting } }
    else { s with call := { s.call with phase := .waiting } }
  | .push x => if s.call.closed then s else { s with call := { s.call with queue := s.call.queue ++ [x] } }
  | .receive =>
    if s.call.closed then { s with call := { s.call with phase := .received } }
    else { s with call :=
      { s.call with phase := .received, response := s.call.queue.headD none, queue := s.call.queue.tail } }
  | .cancel =>
    match s.timer with
    | some timer =>
      { s with timers := Timers.next s.timers (.cancel timer), call := { s.call with phase := .cancelled } }
    | none => { s with call := { s.call with phase := .cancelled } }
  | .finish => { s with call := { s.call with phase := .returned s.call.outcome }, timer := none }
  | .listExpiredCallback now nowTimer =>
    { s with
      timers := Timers.next s.timers (.listExpiredCallback now nowTimer)
      tasks := s.tasks ++ (s.timers.manager.listExpiredCallback now nowTimer []).1.filterMap id }
  | .run .timeout =>
    { s with
      tasks := s.tasks.erase .timeout, late := s.late || returned s.call.phase
      call := { s.call with timeout := true, closed := true, queue := [] } }
  | .run (.other n) => { s with tasks := s.tasks.erase (.other n) }
  | .others e => { s with timers := Timers.next s.timers e }

def machine (start : BitVec 64) : Machine State Event where
  start := initial start
  step s e := if Enabled s e then some (next mTimeout s e) else none

/-- The call returns when its callback is not on the way. -/
def Drained (s : State) : Event → Prop
  | .finish => .timeout ∉ s.tasks
  | _ => True

instance (s : State) : (e : Event) → Decidable (Drained s e)
  | .finish => inferInstanceAs (Decidable (.timeout ∉ s.tasks))
  | .addTimer _ _ => inferInstanceAs (Decidable True)
  | .push _ => inferInstanceAs (Decidable True)
  | .receive => inferInstanceAs (Decidable True)
  | .cancel => inferInstanceAs (Decidable True)
  | .listExpiredCallback _ _ => inferInstanceAs (Decidable True)
  | .run _ => inferInstanceAs (Decidable True)
  | .others _ => inferInstanceAs (Decidable True)

variable {mTimeout} {s s' : State} {start : BitVec 64} {e : Event}

theorem machine_step (h : (machine mTimeout start).step s e = some s') : Enabled s e ∧ next mTimeout s e = s' := by
  simpa [machine] using h

/-- The timer runs, as far as it has not expired. -/
def Armed (phase : Phase) : Prop := phase = .waiting ∨ phase = .received

/-- What holds in every state of a run. -/
structure Sound (s : State) : Prop where
  consistent : Timers.Consistent s.timers
  allocated : ∀ p, s.timer = some p → s.timers.allocated p = true
  -- the callback is in the timer of the call, and only until the call cancels it
  registered : ∀ p, s.timers.allocated p = true → (s.timers.manager.objects p).callback = some .timeout →
    s.timer = some p ∧ Armed s.call.phase
  late : s.late = true → returned s.call.phase = true

theorem Sound.initial (start : BitVec 64) : Sound (initial start) where
  consistent := Timers.Consistent.initial start
  allocated p hp := by cases hp
  registered p hp := by cases hp
  late hlate := by cases hlate

/-- A callback of the call that is taken out now was registered. -/
theorem Sound.armed_of_expired (h : Sound s) {now : BitVec 64} {nowTimer : Nat} (hfree : s.timers.Free nowTimer)
    (hmem : .timeout ∈ (s.timers.manager.listExpiredCallback now nowTimer []).1.filterMap id) :
    Armed s.call.phase := by
  obtain ⟨cb, hcb, heq⟩ := List.mem_filterMap.1 hmem
  obtain rfl : cb = some .timeout := heq
  obtain ⟨p, halloc, hp⟩ := h.consistent.mem_expired_callbacks hfree hcb
  exact (h.registered p halloc hp).2

/-- Nothing but `add_timer` of the call registers its callback. -/
theorem Sound.registered_next (h : Sound s) {e : Timers.Event Task} (henabled : Timers.Enabled s.timers e)
    (hnot : ∀ p ms recurring now, e ≠ .addTimer p ms .timeout recurring now) {p : Nat}
    (halloc : (Timers.next s.timers e).allocated p = true)
    (hcb : ((Timers.next s.timers e).manager.objects p).callback = some .timeout) :
    s.timer = some p ∧ Armed s.call.phase := by
  rcases h.consistent.callback_next henabled halloc hcb with ⟨hold, hcb⟩ | ⟨ms, recurring, now, heq⟩
  · exact h.registered p hold hcb
  · exact absurd heq (hnot p ms recurring now)

/-! ### Steps -/

theorem Sound.not_late (h : Sound s) (hphase : returned s.call.phase = false) : s.late = false := by
  by_contra hlate
  have hreturned := h.late (by simpa using hlate)
  rw [hphase] at hreturned
  cases hreturned

/-- What is said of a late callback does not matter before the call has returned. -/
private theorem Sound.of_late (h : Sound s) (hphase : returned s.call.phase = false) {P : Prop}
    (hlate : s.late = true) : P := by
  rw [h.not_late hphase] at hlate
  cases hlate

theorem Sound.addTimer (h : Sound s) {timer : Nat} {now : BitVec 64} (hphase : s.call.phase = .registered)
    (hfree : s.timers.Free timer) : Sound (next mTimeout s (.addTimer timer now)) := by
  have hearly : returned s.call.phase = false := by rw [hphase]; rfl
  have hnone : ∀ p, s.timers.allocated p = true → (s.timers.manager.objects p).callback ≠ some .timeout := by
    intro p halloc hp
    have harmed := (h.registered p halloc hp).2
    simp [Armed, hphase] at harmed
  dsimp only [next]
  split
  case isTrue =>
    have henabled : Timers.Enabled s.timers (.addTimer timer mTimeout .timeout false now) := hfree
    refine ⟨h.consistent.next henabled, ?_, ?_, h.of_late hearly⟩
    · rintro p hp
      obtain rfl : timer = p := Option.some.inj hp
      exact Function.update_self _ _ _
    · intro p halloc hp
      rcases h.consistent.callback_next henabled halloc hp with ⟨hold, hcb⟩ | ⟨ms, recurring, now', heq⟩
      · exact absurd hcb (hnone p hold)
      · cases heq
        exact ⟨rfl, .inl rfl⟩
  case isFalse =>
    exact ⟨h.consistent, h.allocated, fun p halloc hp => absurd hp (hnone p halloc), h.of_late hearly⟩

/-- The callback is in no timer afterwards. -/
theorem Sound.cancel (h : Sound s) (hphase : s.call.phase = .received) : Sound (next mTimeout s .cancel) := by
  have hearly : returned s.call.phase = false := by rw [hphase]; rfl
  dsimp only [next]
  split
  case h_1 timer htimer =>
    have henabled : Timers.Enabled s.timers (.cancel timer) := h.allocated timer htimer
    obtain ⟨hstill, hgone⟩ := h.consistent.callback_cancel henabled
    refine ⟨h.consistent.next henabled, ?_, ?_, h.of_late hearly⟩
    · intro p hp
      obtain rfl : timer = p := Option.some.inj (htimer.symm.trans hp)
      exact hstill
    · intro p halloc hp
      obtain ⟨hown, -⟩ := h.registered_next henabled (fun _ _ _ _ heq => by cases heq) halloc hp
      obtain rfl : timer = p := Option.some.inj (htimer.symm.trans hown)
      rw [hgone] at hp
      cases hp
  case h_2 hnone =>
    refine ⟨h.consistent, h.allocated, fun p halloc hp => ?_, h.of_late hearly⟩
    rw [(h.registered p halloc hp).1] at hnone
    cases hnone

/-- What is done to the timers of others does not concern the one of the call. -/
theorem Sound.others (h : Sound s) {e : Timers.Event Task} (henabled : Timers.Enabled s.timers e)
    (hforeign : Foreign e) (hother : s.timer = none ∨ e.timer ≠ s.timer) : Sound (next mTimeout s (.others e)) := by
  refine ⟨h.consistent.next henabled, ?_, ?_, h.late⟩
  · intro p hp
    have htimer : s.timer = some p := hp
    rw [htimer] at hother
    have hne : e.timer ≠ some p := hother.resolve_left (Option.some_ne_none p)
    exact ((h.consistent.object_next henabled (h.allocated p htimer)).2 hne).1
  · intro p halloc hp
    refine h.registered_next henabled ?_ halloc hp
    rintro q ms recurring now rfl
    exact hforeign rfl

theorem Sound.step (h : Sound s) (hstep : (machine mTimeout start).step s e = some s') : Sound s' := by
  obtain ⟨henabled, rfl⟩ := machine_step hstep
  cases e with
  | addTimer timer now => exact h.addTimer henabled.1 henabled.2
  | push x =>
    dsimp only [next]
    split
    case isTrue => exact h
    case isFalse => exact ⟨h.consistent, h.allocated, h.registered, h.late⟩
  | receive =>
    have hearly : returned s.call.phase = false := by rw [henabled.1]; rfl
    dsimp only [next]
    split
    case isTrue =>
      exact ⟨h.consistent, h.allocated, fun p halloc hp => ⟨(h.registered p halloc hp).1, .inr rfl⟩, h.of_late hearly⟩
    case isFalse =>
      exact ⟨h.consistent, h.allocated, fun p halloc hp => ⟨(h.registered p halloc hp).1, .inr rfl⟩, h.of_late hearly⟩
  | cancel => exact h.cancel henabled
  | finish =>
    refine ⟨h.consistent, ?_, ?_, fun _ => rfl⟩
    · intro p hp
      cases hp
    · intro p halloc hp
      have harmed := (h.registered p halloc hp).2
      rw [show s.call.phase = .cancelled from henabled] at harmed
      simp [Armed] at harmed
  | listExpiredCallback now nowTimer =>
    have henabled : Timers.Enabled s.timers (.listExpiredCallback now nowTimer) := henabled
    refine ⟨h.consistent.next henabled, h.allocated, ?_, h.late⟩
    exact fun p halloc hp => h.registered_next henabled (fun _ _ _ _ heq => by cases heq) halloc hp
  | run task =>
    cases task with
    | timeout =>
      refine ⟨h.consistent, h.allocated, h.registered, ?_⟩
      intro hlate
      rcases Bool.or_eq_true_iff.1 hlate with hbefore | hnow
      · exact h.late hbefore
      · exact hnow
    | other n => exact ⟨h.consistent, h.allocated, h.registered, h.late⟩
  | others e => exact h.others henabled.1 henabled.2.1 henabled.2.2

/-! ### After the return -/

/-- The call has returned, and nothing is on the way that would run its callback. -/
structure Over (s : State) : Prop where
  ended : returned s.call.phase = true
  drained : .timeout ∉ s.tasks
  late : s.late = false

theorem not_armed_of_returned {phase : Phase} (h : returned phase = true) : ¬ Armed phase := by
  rintro (rfl | rfl) <;> cases h

theorem Over.step (h : Over s) (hs : Sound s) (hstep : (machine mTimeout start).step s e = some s') : Over s' := by
  obtain ⟨henabled, rfl⟩ := machine_step hstep
  have hphase : ∀ phase, s.call.phase = phase → returned phase = true := fun phase heq => heq ▸ h.ended
  cases e with
  | addTimer timer now => exact absurd (hphase _ henabled.1) Bool.false_ne_true
  | push x =>
    dsimp only [next]
    split
    case isTrue => exact h
    case isFalse => exact ⟨h.ended, h.drained, h.late⟩
  | receive => exact absurd (hphase _ henabled.1) Bool.false_ne_true
  | cancel => exact absurd (hphase _ henabled) Bool.false_ne_true
  | finish => exact absurd (hphase _ henabled) Bool.false_ne_true
  | listExpiredCallback now nowTimer =>
    refine ⟨h.ended, ?_, h.late⟩
    intro hmem
    rcases List.mem_append.1 hmem with hold | hnew
    · exact h.drained hold
    · exact not_armed_of_returned h.ended (hs.armed_of_expired henabled hnew)
  | run task =>
    cases task with
    | timeout => exact absurd henabled h.drained
    | other n => exact ⟨h.ended, fun hmem => h.drained (List.mem_of_mem_erase hmem), h.late⟩
  | others e => exact ⟨h.ended, h.drained, h.late⟩

/-- Before the call returns nothing is late, and a settled return leaves nothing on the way. -/
theorem over_finish (hs : Sound s) (hstep : (machine mTimeout start).step s .finish = some s')
    (hdrained : .timeout ∉ s.tasks) : Over s' := by
  obtain ⟨henabled, rfl⟩ := machine_step hstep
  have hphase : s.call.phase = .cancelled := henabled
  exact ⟨rfl, hdrained, hs.not_late (by rw [hphase]; rfl)⟩

/-- Only the last step of the call ends it. -/
theorem returned_next (hphase : returned s.call.phase = false) (hne : e ≠ .finish)
    (hstep : (machine mTimeout start).step s e = some s') : returned s'.call.phase = false := by
  obtain ⟨henabled, rfl⟩ := machine_step hstep
  cases e with
  | addTimer timer now =>
    dsimp only [next]
    split <;> rfl
  | push x =>
    dsimp only [next]
    split <;> exact hphase
  | receive =>
    dsimp only [next]
    split <;> rfl
  | cancel =>
    dsimp only [next]
    split <;> rfl
  | finish => exact absurd rfl hne
  | listExpiredCallback now nowTimer => exact hphase
  | run task => cases task <;> exact hphase
  | others e => exact hphase

/-- The callback never runs after the call has returned if the call returns only when its callback is not on the way;
and if it is on the way then, a run goes on in which the callback runs. -/
theorem late_of_reaches :
    ((machine mTimeout start).Reaches Drained (initial start) s → s.late = false) ∧
      ((machine mTimeout start).Reaches Machine.any (initial start) s →
        ∀ s', (machine mTimeout start).step s .finish = some s' →
          ((∃ s'', (machine mTimeout start).Reaches Machine.any s' s'' ∧ s''.late = true) ↔ .timeout ∈ s.tasks)) := by
  constructor
  · intro h
    have hinv : Sound s ∧ (returned s.call.phase = true → Over s) := by
      refine h.invariant (I := fun t => Sound t ∧ (returned t.call.phase = true → Over t)) ?_
        ⟨Sound.initial start, fun hreturned => by cases hreturned⟩
      rintro t e t' ⟨hs, hover⟩ hdrained hstep
      refine ⟨hs.step hstep, fun hreturned => ?_⟩
      by_cases hbefore : returned t.call.phase = true
      · exact (hover hbefore).step hs hstep
      · by_cases heq : e = .finish
        · subst heq
          exact over_finish hs hstep hdrained
        · have hnot := returned_next (by simpa using hbefore) heq hstep
          rw [hreturned] at hnot
          cases hnot
    by_contra hlate
    have hlate' : s.late = true := by simpa using hlate
    exact hlate (hinv.2 (hinv.1.late hlate')).late
  · intro h s' hstep
    have hs : Sound s := h.invariant (fun _ _ _ hs _ hstep => hs.step hstep) (Sound.initial start)
    constructor
    · rintro ⟨s'', hreach, hlate⟩
      by_contra hdrained
      have hover : Sound s'' ∧ Over s'' :=
        hreach.invariant (I := fun t => Sound t ∧ Over t)
          (fun _ _ _ ht _ hstep => ⟨ht.1.step hstep, ht.2.step ht.1 hstep⟩)
          ⟨hs.step hstep, over_finish hs hstep hdrained⟩
      rw [hover.2.late] at hlate
      cases hlate
    · intro hmem
      obtain ⟨henabled, rfl⟩ := machine_step hstep
      -- the next step is that of the worker
      have hrun : (machine mTimeout start).step (next mTimeout s .finish) (.run .timeout) = some _ := if_pos hmem
      exact ⟨_, .single trivial hrun, Bool.or_true _⟩

/-- The response comes when the timer has expired and before the callback runs. -/
private def overtaken : List Event :=
  [.addTimer 8 5, .listExpiredCallback 15 16, .push (some ⟨0, 0, 0, 1, 0, []⟩), .receive, .cancel, .finish,
    .run .timeout]

theorem exists_late_overtaken : ∃ s, (machine 10 5).Reaches Machine.any (initial 5) s ∧
    s.call.phase = .returned (.response ⟨0, 0, 0, 1, 0, []⟩) ∧ s.late = true :=
  Machine.exists_reaches_of_run overtaken (fun _ _ _ => trivial) (by decide +kernel)

/-- The callback runs before the call returns, and there is nothing left for a later run. -/
theorem late_of_reaches_inTime : ∃ s, (machine 10 5).Reaches Drained (initial 5) s ∧
    s.call.phase = .returned .timeout ∧ s.late = false := by
  obtain ⟨s, hreach, hphase⟩ : ∃ s, (machine 10 5).Reaches Drained (initial 5) s ∧
      s.call.phase = .returned .timeout :=
    Machine.exists_reaches_of_guarded
      [.addTimer 8 5, .listExpiredCallback 15 16, .run .timeout, .receive, .cancel, .finish] (by decide +kernel)
  exact ⟨s, hreach, hphase, late_of_reaches.1 hreach⟩

end CallTimeout

end RpcClient

end AcidCompute

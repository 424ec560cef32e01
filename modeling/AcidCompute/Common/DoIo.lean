import AcidCompute.Common.Hook
import AcidCompute.Timer.Runs

/-!
# Hooked calls (`do_io` and `connect_with_timeout` in `acid/common/hook.cpp`)

A call that would block in the kernel waits for an event of its descriptor instead: it adds a timer if there is a limit,
registers its fiber, and yields.  What wakes it schedules the fiber once, be it the event loop, `cancel_event` in the
callback of the timer, or somebody who closes the descriptor.  The fiber then cancels the timer and looks at
`timer_info::cancelled`, which the callback has set, and otherwise makes the system call again.

Between any two of these steps other workers go on.  A fiber that waits is scheduled once, `EINTR` and `EAGAIN` never
get out of `do_io`, and a call times out only after a timer of its own has expired (`DoIo.returned_of_reaches`).
-/

namespace AcidCompute

namespace DoIo

inductive Errno
  | eintr
  | eagain
  | einprogress
  | ebadf
  | other (n : Nat)
  deriving DecidableEq, Repr

/-- What a system call returns, or -1 with the number that it leaves. -/
inductive SysResult
  | value (n : Nat)
  | error (errno : Errno)
  deriving DecidableEq, Repr

/-- What becomes of a call: the system call alone, `EBADF`, or one that waits. -/
inductive Mode
  | plain
  | refused
  | io
  | connect
  deriving DecidableEq, Repr

/-- The beginning of `do_io`, with `t_hook_enable` and what `FdMgr` finds. -/
def doIoMode (hookEnable : Bool) (ctx : Option FdCtx) : Mode :=
  if hookEnable = false then .plain
  else match ctx with
  | none => .plain
  | some ctx =>
    if ctx.isClosed then .refused
    else if ctx.isSocket = false ∨ ctx.userNonblock = true then .plain
    else .io

/-- The beginning of `connect_with_timeout`: without a context this one fails. -/
def connectMode (hookEnable : Bool) (ctx : Option FdCtx) : Mode :=
  if hookEnable = false then .plain
  else match ctx with
  | none => .refused
  | some ctx =>
    if ctx.isClosed then .refused
    else if ctx.isSocket = false then .plain
    else if ctx.userNonblock then .plain
    else .connect

/-- What the user has asked for last decides whether a call waits. -/
theorem modes_of_known {s : Files} {fd : Nat} {asked : Bool} {flags : BitVec 32} (h : s.Known fd asked flags) :
    doIoMode true (s.manager.get fd) = (if asked then .plain else .io) ∧
      connectMode true (s.manager.get fd) = (if asked then .plain else .connect) := by
  obtain ⟨hget, -⟩ := Option.filter_eq_some_iff.1 h.ctx
  rw [hget]
  cases asked with
  | true => exact ⟨rfl, rfl⟩
  | false => exact ⟨rfl, rfl⟩

inductive Outcome
  | result (r : SysResult)
  -- `add_event` has failed, with the number that it has left
  | failed
  -- `ETIMEDOUT`
  | timedOut
  deriving DecidableEq, Repr

inductive Phase
  -- before the system call
  | calling
  -- before `add_condition_timer`
  | blocked
  -- before `add_event`
  | limited
  -- between `add_event` and `yield`
  | added
  | parked
  -- before `timer->cancel()`, when `add_event` has failed or after `yield`
  | unregistered
  | resumed
  -- before `ti->cancelled` is read
  | checking
  -- before `getsockopt`
  | asking
  | returned (outcome : Outcome)
  deriving DecidableEq, Repr

/-- The callbacks of timers: the one of the call, and what others have added. -/
inductive Task
  | timeout
  | other (n : Nat)
  deriving DecidableEq, Repr

/-- A timer of the call that has been taken out: when it was added, and what the clock showed then. -/
structure Taken where
  started : BitVec 64
  now : BitVec 64
  rollover : Bool
  deriving DecidableEq, Repr

/-- One call, and the timers of its `IOManager`. -/
structure State where
  timers : Timers.State Task
  phase : Phase
  timer : Option Nat
  -- `ti->cancelled`, and a callback that has set it and has not called `cancel_event` yet
  cancelled : Bool
  cancelling : Bool
  -- the event context of the descriptor has the fiber of the call
  registered : Bool
  -- how often the fiber is in the list of tasks
  scheduled : Nat
  -- what `list_expired_callback` has taken out and no worker has run
  tasks : List Task
  -- what the clock showed when the last timer was added, and what has been taken out
  started : BitVec 64
  taken : List Taken

inductive Event
  -- the system call returns
  | call (r : SysResult)
  -- `add_condition_timer`, with the address of the new timer
  | addTimer (timer : Nat) (now : BitVec 64)
  -- `add_event`, and whether `epoll_ctl` succeeds
  | addEvent (ok : Bool)
  | yield
  -- the event comes, or somebody else cancels it
  | trigger
  | resume
  | cancel
  | check
  | getsockopt (r : SysResult)
  -- `idle` takes out and schedules what has expired, and workers run it in any order
  | listExpiredCallback (now : BitVec 64) (nowTimer : Nat)
  | run (task : Task)
  -- `cancel_event` in the callback, and whether `epoll_ctl` succeeds
  | cancelEvent (ok : Bool)
  -- something is done to other timers
  | others (e : Timers.Event Task)
  deriving DecidableEq, Repr

/-- The timers of others have other callbacks. -/
def Foreign : Timers.Event Task → Prop
  | .addTimer _ _ cb _ _ => cb ≠ .timeout
  | .listExpiredCallback _ _ => False
  | _ => True

instance : (e : Timers.Event Task) → Decidable (Foreign e)
  | .addTimer _ _ cb _ _ => inferInstanceAs (Decidable (cb ≠ .timeout))
  | .listExpiredCallback _ _ => inferInstanceAs (Decidable False)
  | .cancel _ | .refresh _ _ | .reset _ _ _ _ | .release _ => inferInstanceAs (Decidable True)

def Enabled (s : State) : Event → Prop
  | .call _ => s.phase = .calling
  | .addTimer timer _ => s.phase = .blocked ∧ s.timers.Free timer
  | .addEvent _ => s.phase = .limited
  | .yield => s.phase = .added
  | .trigger => s.registered = true
  -- `run` leaves a fiber that has not yielded in the list
  | .resume => s.phase = .parked ∧ 0 < s.scheduled
  | .cancel => s.phase = .unregistered ∨ s.phase = .resumed
  | .check => s.phase = .checking
  | .getsockopt _ => s.phase = .asking
  | .listExpiredCallback now nowTimer => Timers.Enabled s.timers (.listExpiredCallback now nowTimer)
  | .run task => task ∈ s.tasks
  | .cancelEvent _ => s.cancelling = true
  | .others e => Timers.Enabled s.timers e ∧ Foreign e ∧ (s.timer = none ∨ e.timer ≠ s.timer)

instance (s : State) : (e : Event) → Decidable (Enabled s e)
  | .call _ => inferInstanceAs (Decidable (s.phase = .calling))
  | .addTimer timer _ => inferInstanceAs (Decidable (s.phase = .blocked ∧ s.timers.Free timer))
  | .addEvent _ => inferInstanceAs (Decidable (s.phase = .limited))
  | .yield => inferInstanceAs (Decidable (s.phase = .added))
  | .trigger => inferInstanceAs (Decidable (s.registered = true))
  | .resume => inferInstanceAs (Decidable (s.phase = .parked ∧ 0 < s.scheduled))
  | .cancel => inferInstanceAs (Decidable (s.phase = .unregistered ∨ s.phase = .resumed))
  | .check => inferInstanceAs (Decidable (s.phase = .checking))
  | .getsockopt _ => inferInstanceAs (Decidable (s.phase = .asking))
  | .listExpiredCallback now nowTimer =>
    inferInstanceAs (Decidable (Timers.Enabled s.timers (.listExpiredCallback now nowTimer)))
  | .run task => inferInstanceAs (Decidable (task ∈ s.tasks))
  | .cancelEvent _ => inferInstanceAs (Decidable (s.cancelling = true))
  | .others e =>
    inferInstanceAs (Decidable (Timers.Enabled s.timers e ∧ Foreign e ∧ (s.timer = none ∨ e.timer ≠ s.timer)))

/-- The call has returned, so that `weak_info` has expired. -/
def Phase.returns : Phase → Bool
  | .returned _ => true
  | _ => false

variable (mode : Mode) (timeout : BitVec 64)

/-- The system call has returned. -/
def called (r : SysResult) : Phase :=
  match mode, r with
  -- `while (n == -1 && errno == EINTR)`
  | .io, .error .eintr => .calling
  | .io, .error .eagain => .blocked
  | .connect, .error .einprogress => .blocked
  | _, r => .returned (.result r)

/-- `trigger_event` -/
def State.triggered (s : State) : State := { s with registered := false, scheduled := s.scheduled + 1 }

def next (s : State) : Event → State
  | .call r => { s with phase := called mode r }
  | .addTimer timer now =>
    -- `static_cast<uint64_t>(-1)` is for calls without a limit
    if timeout ≠ BitVec.allOnes 64 then
      { s with
        timers := Timers.next s.timers (.addTimer timer timeout .timeout false now), timer := some timer, started := now
        phase := .limited }
    else { s with phase := .limited }
  | .addEvent ok => if ok then { s with registered := true, phase := .added } else { s with phase := .unregistered }
  | .yield => { s with phase := .parked }
  | .trigger => s.triggered
  | .resume => { s with scheduled := s.scheduled - 1, phase := .resumed }
  | .cancel =>
    -- `timer` is not used any more
    { s with
      timers := s.timer.elim s.timers fun timer => Timers.next s.timers (.cancel timer)
      timer := none
      phase :=
        if s.phase = .resumed then .checking
        -- `connect_with_timeout` goes on as if the descriptor had become writable
        else if mode = .connect then .asking
        else .returned .failed }
  | .check =>
    { s with phase :=
        if s.cancelled then .returned .timedOut else if mode = .connect then .asking else .calling }
  | .getsockopt r => { s with phase := .returned (.result r) }
  | .listExpiredCallback now nowTimer =>
    let callbacks := (s.timers.manager.listExpiredCallback now nowTimer []).1.filterMap id
    { s with
      timers := Timers.next s.timers (.listExpiredCallback now nowTimer)
      tasks := s.tasks ++ callbacks
      taken := s.taken ++ (callbacks.filter fun task => task = .timeout).map
        fun _ => ⟨s.started, now, (s.timers.manager.detectClockRollover now).1⟩ }
  | .run .timeout =>
    -- `!t || t->cancelled`
    if s.phase.returns ∨ s.cancelled then { s with tasks := s.tasks.erase .timeout }
    else { s with tasks := s.tasks.erase .timeout, cancelled := true, cancelling := true }
  | .run (.other n) => { s with tasks := s.tasks.erase (.other n) }
  | .cancelEvent ok =>
    if ok ∧ s.registered then { s.triggered with cancelling := false } else { s with cancelling := false }
  | .others e => { s with timers := Timers.next s.timers e }

/-- The call begins. -/
def initial (start : BitVec 64) : State where
  timers := Timers.initial start
  phase := if mode = .refused then .returned (.result (.error .ebadf)) else .calling
  timer := none
  cancelled := false
  cancelling := false
  registered := false
  scheduled := 0
  tasks := []
  started := start
  taken := []

def machine (start : BitVec 64) : Machine State Event where
  start := initial mode start
  step s e := if Enabled s e then some (next mode timeout s e) else none

/-- The phases from `add_condition_timer` up to `timer->cancel()`. -/
def Phase.timed : Phase → Bool
  | .limited | .added | .parked | .unregistered | .resumed => true
  | _ => false

/-- The phases from `add_event` up to where the fiber is resumed. -/
def Phase.waits : Phase → Bool
  | .added | .parked => true
  | _ => false

/-- The limit had passed, unless the clock was taken to have been set back. -/
def Taken.Due (timeout : BitVec 64) (r : Taken) : Prop := r.rollover = true ∨ r.started + timeout ≤ r.now

instance (timeout : BitVec 64) (r : Taken) : Decidable (r.Due timeout) := inferInstanceAs (Decidable (_ ∨ _))

variable {mode} {timeout} {s s' : State} {start : BitVec 64} {e : Event}

theorem machine_step (h : (machine mode timeout start).step s e = some s') :
    Enabled s e ∧ next mode timeout s e = s' := by
  simpa [machine] using h

theorem step_of_enabled (h : Enabled s e) : (machine mode timeout start).step s e = some (next mode timeout s e) :=
  if_pos h

/-! ### The timer -/

variable (timeout) in
/-- What `add_condition_timer` has set. -/
structure Own (s : State) (p : Nat) : Prop where
  allocated : s.timers.allocated p = true
  recurring : (s.timers.manager.objects p).recurring = false
  ms : (s.timers.manager.objects p).ms = timeout
  armed : s.timers.armed p = s.started

variable (timeout) in
/-- What holds of the timers throughout. -/
structure Timed (s : State) : Prop where
  consistent : Timers.Consistent s.timers
  own : ∀ p, s.timer = some p → Own timeout s p
  -- the callback is in the timer of this round, and in no other
  registered : ∀ p, s.timers.allocated p = true → (s.timers.manager.objects p).callback = some .timeout →
    s.timer = some p
  phase : s.timer ≠ none → s.phase.timed = true ∧ timeout ≠ BitVec.allOnes 64

theorem Timed.initial (start : BitVec 64) : Timed timeout (initial mode start) where
  consistent := Timers.Consistent.initial start
  own p hp := by cases hp
  registered p hp := by cases hp
  phase hne := absurd rfl hne

/-- The call goes on, and the timers stay as they are. -/
theorem Timed.keep (h : Timed timeout s) (htimers : s'.timers = s.timers) (htimer : s'.timer = s.timer)
    (hstarted : s'.started = s.started) (hphase : s.phase.timed = true → s'.phase.timed = true) : Timed timeout s' := by
  constructor
  case consistent =>
    rw [htimers]
    exact h.consistent
  case own =>
    rw [htimer]
    intro p hp
    have hown := h.own p hp
    exact ⟨by rw [htimers]; exact hown.allocated, by rw [htimers]; exact hown.recurring,
      by rw [htimers]; exact hown.ms, by rw [htimers, hstarted]; exact hown.armed⟩
  case registered =>
    rw [htimers, htimer]
    exact h.registered
  case phase =>
    rw [htimer]
    exact fun hne => ⟨hphase (h.phase hne).1, (h.phase hne).2⟩

theorem Timed.timer_eq_none (h : Timed timeout s) (hphase : s.phase.timed = false) : s.timer = none := by
  by_contra hne
  have htimed := (h.phase hne).1
  rw [hphase] at htimed
  cases htimed

/-- Nothing but `add_condition_timer` of the call registers its callback. -/
theorem Timed.registered_next (h : Timed timeout s) {e : Timers.Event Task} (henabled : Timers.Enabled s.timers e)
    (hnot : ∀ p ms recurring now, e ≠ .addTimer p ms .timeout recurring now) {p : Nat}
    (halloc : (Timers.next s.timers e).allocated p = true)
    (hcb : ((Timers.next s.timers e).manager.objects p).callback = some .timeout) : s.timer = some p := by
  rcases h.consistent.callback_next henabled halloc hcb with ⟨hold, hcb⟩ | ⟨ms, recurring, now, heq⟩
  · exact h.registered p hold hcb
  · exact absurd heq (hnot p ms recurring now)

theorem Timed.addTimer (h : Timed timeout s) {timer : Nat} {now : BitVec 64} (hphase : s.phase = .blocked)
    (hfree : s.timers.Free timer) : Timed timeout (next mode timeout s (.addTimer timer now)) := by
  have hnone : s.timer = none := h.timer_eq_none (by rw [hphase]; rfl)
  dsimp only [next]
  split
  case isFalse => exact h.keep rfl rfl rfl fun _ => rfl
  case isTrue hlimit =>
    have henabled : Timers.Enabled s.timers (.addTimer timer timeout .timeout false now) := hfree
    have hobject : (Timers.next s.timers (.addTimer timer timeout .timeout false now)).manager.objects timer =
        Timer.new timeout (some .timeout) false now := by
      simp [Timers.next, TimerManager.addTimer]
    refine ⟨h.consistent.next henabled, ?_, ?_, fun _ => ⟨rfl, hlimit⟩⟩
    · intro p hp
      obtain rfl : timer = p := Option.some.inj hp
      refine ⟨Function.update_self _ _ _, ?_, ?_, Function.update_self _ _ _⟩
      · exact congrArg Timer.recurring hobject
      · exact congrArg Timer.ms hobject
    · intro p halloc hp
      rcases h.consistent.callback_next henabled halloc hp with ⟨hold, hcb⟩ | ⟨ms, recurring, now', heq⟩
      · rw [h.registered p hold hcb] at hnone
        cases hnone
      · cases heq
        rfl

/-- The callback is in no timer afterwards. -/
theorem Timed.cancel (h : Timed timeout s) : Timed timeout (next mode timeout s .cancel) := by
  have hgone : ∀ P : Prop, (none : Option Nat) ≠ none → P := fun P hne => absurd rfl hne
  cases htimer : s.timer with
  | none =>
    refine ⟨?_, ?_, ?_, fun hne => hgone _ hne⟩
    · simpa only [next, htimer, Option.elim_none] using h.consistent
    · intro p hp
      cases hp
    · intro p halloc hp
      simp only [next, htimer, Option.elim_none] at halloc hp
      rw [h.registered p halloc hp] at htimer
      cases htimer
  | some timer =>
    have halloc := (h.own timer htimer).allocated
    have henabled : Timers.Enabled s.timers (.cancel timer) := halloc
    have hcancelled := h.consistent.callback_cancel halloc
    refine ⟨?_, ?_, ?_, fun hne => hgone _ hne⟩
    · simpa only [next, htimer, Option.elim_some] using h.consistent.next henabled
    · intro p hp
      cases hp
    · intro p halloc hp
      simp only [next, htimer, Option.elim_some] at halloc hp
      have hown := h.registered_next henabled (fun _ _ _ _ heq => by cases heq) halloc hp
      obtain rfl : timer = p := Option.some.inj (htimer.symm.trans hown)
      rw [hcancelled.2] at hp
      cases hp

/-- What is done to the timers of others leaves the one of the call alone. -/
theorem Timed.untouched (h : Timed timeout s) {e : Timers.Event Task} (henabled : Timers.Enabled s.timers e) {p : Nat}
    (hp : s.timer = some p) (hother : e.timer ≠ some p) :
    (Timers.next s.timers e).allocated p = true ∧ ((Timers.next s.timers e).manager.objects p).recurring = false ∧
      ((Timers.next s.timers e).manager.objects p).ms = timeout ∧ (Timers.next s.timers e).armed p = s.started := by
  have hown := h.own p hp
  obtain ⟨hallocated, hobject⟩ := (h.consistent.object_next henabled hown.allocated).2 hother
  have hfired : ∀ now, ((s.timers.manager.objects p).fired now).recurring = (s.timers.manager.objects p).recurring ∧
      ((s.timers.manager.objects p).fired now).ms = (s.timers.manager.objects p).ms := by
    intro now
    unfold Timer.fired
    split <;> exact ⟨rfl, rfl⟩
  refine ⟨hallocated, ?_, ?_, (h.consistent.armed_next henabled hown.recurring hother).trans hown.armed⟩
  · rcases hobject with heq | ⟨now, heq⟩
    · rw [heq, hown.recurring]
    · rw [heq, (hfired now).1, hown.recurring]
  · rcases hobject with heq | ⟨now, heq⟩
    · rw [heq, hown.ms]
    · rw [heq, (hfired now).2, hown.ms]

theorem Timed.listExpiredCallback (h : Timed timeout s) {now : BitVec 64} {nowTimer : Nat}
    (henabled : Timers.Enabled s.timers (.listExpiredCallback now nowTimer)) :
    Timed timeout (next mode timeout s (.listExpiredCallback now nowTimer)) := by
  refine ⟨h.consistent.next henabled, ?_, ?_, h.phase⟩
  · intro p hp
    obtain ⟨halloc, hrec, hms, harmed⟩ := h.untouched henabled hp (by rintro ⟨⟩)
    exact ⟨halloc, hrec, hms, harmed⟩
  · exact fun p halloc hp => h.registered_next henabled (fun _ _ _ _ heq => by cases heq) halloc hp

theorem Timed.others (h : Timed timeout s) {e : Timers.Event Task} (henabled : Timers.Enabled s.timers e)
    (hforeign : Foreign e) (hother : s.timer = none ∨ e.timer ≠ s.timer) :
    Timed timeout (next mode timeout s (.others e)) := by
  refine ⟨h.consistent.next henabled, ?_, ?_, h.phase⟩
  · intro p hp
    have htimer : s.timer = some p := hp
    rw [htimer] at hother
    obtain ⟨halloc, hrec, hms, harmed⟩ := h.untouched henabled htimer (hother.resolve_left (Option.some_ne_none p))
    exact ⟨halloc, hrec, hms, harmed⟩
  · intro p halloc hp
    refine h.registered_next henabled ?_ halloc hp
    rintro q ms recurring now rfl
    exact hforeign rfl

theorem Timed.step (h : Timed timeout s) (hstep : (machine mode timeout start).step s e = some s') :
    Timed timeout s' := by
  obtain ⟨henabled, rfl⟩ := machine_step hstep
  have hphase : ∀ phase : Phase, phase.timed = false → s.phase = phase → ∀ P : Prop, s.phase.timed = true → P := by
    intro phase hnot heq P htimed
    rw [heq, hnot] at htimed
    cases htimed
  cases e with
  | call r => exact h.keep rfl rfl rfl fun htimed => hphase .calling rfl henabled _ htimed
  | addTimer timer now => exact h.addTimer henabled.1 henabled.2
  | addEvent ok => cases ok <;> exact h.keep rfl rfl rfl fun _ => rfl
  | yield => exact h.keep rfl rfl rfl fun _ => rfl
  | trigger => exact h.keep rfl rfl rfl fun htimed => htimed
  | resume => exact h.keep rfl rfl rfl fun _ => rfl
  | cancel => exact h.cancel
  | check => exact h.keep rfl rfl rfl fun htimed => hphase .checking rfl henabled _ htimed
  | getsockopt r => exact h.keep rfl rfl rfl fun htimed => hphase .asking rfl henabled _ htimed
  | listExpiredCallback now nowTimer => exact h.listExpiredCallback henabled
  | run task =>
    cases task with
    | timeout =>
      dsimp only [next]
      split <;> exact h.keep rfl rfl rfl fun htimed => htimed
    | other n => exact h.keep rfl rfl rfl fun htimed => htimed
  | cancelEvent ok =>
    dsimp only [next]
    split <;> exact h.keep rfl rfl rfl fun htimed => htimed
  | others e => exact h.others henabled.1 henabled.2.1 henabled.2.2

/-! ### The fiber -/

/-- A fiber that waits is registered or scheduled, and one that does not is neither. -/
def Counted (s : State) : Prop := s.scheduled + s.registered.toNat = s.phase.waits.toNat

theorem Counted.idle (h : Counted s) (hphase : s.phase.waits = false) : s.scheduled = 0 ∧ s.registered = false := by
  unfold Counted at h
  rw [hphase] at h
  have hzero : s.registered.toNat = 0 := Nat.eq_zero_of_add_eq_zero_left h
  exact ⟨Nat.eq_zero_of_add_eq_zero_right h, by simpa using hzero⟩

/-- The call goes on, and does not wait before or afterwards. -/
private theorem Counted.go (h : Counted s) (hphase : s.phase.waits = false) (hscheduled : s'.scheduled = s.scheduled)
    (hregistered : s'.registered = s.registered) (hphase' : s'.phase.waits = false) : Counted s' := by
  unfold Counted at h ⊢
  rw [hscheduled, hregistered, h, hphase, hphase']

/-- `trigger_event` schedules the fiber that was registered. -/
private theorem Counted.triggered (h : Counted s) (hregistered : s.registered = true) : Counted s.triggered := by
  unfold Counted at h ⊢
  rw [hregistered] at h
  exact h

private theorem waits_called (mode : Mode) (r : SysResult) : (called mode r).waits = false := by
  unfold called
  split <;> rfl

theorem Counted.step (h : Counted s) (hstep : (machine mode timeout start).step s e = some s') : Counted s' := by
  obtain ⟨henabled, rfl⟩ := machine_step hstep
  have hidle : ∀ phase : Phase, phase.waits = false → s.phase = phase → s.phase.waits = false := by
    rintro phase hnot rfl
    exact hnot
  cases e with
  | call r => exact h.go (hidle .calling rfl henabled) rfl rfl (waits_called mode r)
  | addTimer timer now =>
    dsimp only [next]
    split <;> exact h.go (hidle .blocked rfl henabled.1) rfl rfl rfl
  | addEvent ok =>
    have hphase : s.phase = .limited := henabled
    cases ok with
    | false => exact h.go (hidle .limited rfl hphase) rfl rfl rfl
    | true =>
      have hnone := (h.idle (hidle .limited rfl hphase)).1
      show s.scheduled + 1 = 1
      rw [hnone]
  | yield =>
    have hphase : s.phase = .added := henabled
    unfold Counted at h
    rw [hphase] at h
    exact h
  | trigger => exact h.triggered henabled
  | resume =>
    obtain ⟨hphase, hpos⟩ := henabled
    unfold Counted at h
    rw [hphase] at h
    change s.scheduled + s.registered.toNat = 1 at h
    show s.scheduled - 1 + s.registered.toNat = 0
    omega
  | cancel =>
    have hnot : s.phase.waits = false := henabled.elim (hidle _ rfl) (hidle _ rfl)
    refine h.go hnot rfl rfl ?_
    dsimp only [next]
    split
    · rfl
    · split <;> rfl
  | check =>
    refine h.go (hidle .checking rfl henabled) rfl rfl ?_
    dsimp only [next]
    split
    · rfl
    · split <;> rfl
  | getsockopt r => exact h.go (hidle .asking rfl henabled) rfl rfl rfl
  | listExpiredCallback now nowTimer => exact h
  | run task =>
    cases task with
    | timeout =>
      dsimp only [next]
      split <;> exact h
    | other n => exact h
  | cancelEvent ok =>
    dsimp only [next]
    split
    case isTrue hboth => exact h.triggered hboth.2
    case isFalse => exact h
  | others e => exact h

/-! ### What the call returns -/

variable (mode) in
/-- What the call returns has a reason, and only `connect_with_timeout` calls `getsockopt`. -/
def Justified (s : State) : Phase → Prop
  | .asking => mode = .connect
  | .returned (.result r) => mode = .io → r ≠ .error .eintr ∧ r ≠ .error .eagain
  | .returned .failed => mode ≠ .connect
  | .returned .timedOut => s.cancelled = true
  | _ => True

variable (mode timeout) in
structure Reported (s : State) : Prop where
  due : ∀ r ∈ s.taken, r.Due timeout
  expired : .timeout ∈ s.tasks ∨ s.cancelled = true → s.taken ≠ []
  limited : s.taken ≠ [] → timeout ≠ BitVec.allOnes 64
  cancelling : s.cancelling = true → s.cancelled = true
  phase : Justified mode s s.phase

theorem Reported.initial (start : BitVec 64) : Reported mode timeout (initial mode start) where
  due r hr := by cases hr
  expired h := by
    rcases h with hmem | hcancelled
    · cases hmem
    · cases hcancelled
  limited hne := absurd rfl hne
  cancelling h := by cases h
  phase := by
    dsimp only [DoIo.initial]
    split
    case isTrue hrefused =>
      intro hio
      rw [hrefused] at hio
      cases hio
    case isFalse => trivial

/-- The call goes on, and nothing is taken out. -/
private theorem Reported.go (h : Reported mode timeout s) (htaken : s'.taken = s.taken) (htasks : s'.tasks = s.tasks)
    (hcancelled : s'.cancelled = s.cancelled) (hcancelling : s'.cancelling = true → s.cancelling = true)
    (hphase : Justified mode s' s'.phase) : Reported mode timeout s' := by
  constructor
  case due => rw [htaken]; exact h.due
  case expired => rw [htaken, htasks, hcancelled]; exact h.expired
  case limited => rw [htaken]; exact h.limited
  case cancelling => rw [hcancelled]; exact fun hbetween => h.cancelling (hcancelling hbetween)
  case phase => exact hphase

private theorem Justified.of_eq {phase : Phase} (h : Justified mode s phase) (hcancelled : s'.cancelled = s.cancelled) :
    Justified mode s' phase := by
  unfold Justified at h ⊢
  rwa [hcancelled]

private theorem justified_called (r : SysResult) : Justified mode s (called mode r) := by
  unfold called
  split
  case h_1 => trivial
  case h_2 => trivial
  case h_3 => trivial
  case h_4 heintr heagain _ => exact fun hio => ⟨heintr hio, heagain hio⟩

/-- A timer of the call that is taken out is due. -/
theorem Timed.due (h : Timed timeout s) {now : BitVec 64} {nowTimer : Nat} (hfree : s.timers.Free nowTimer)
    (hmem : .timeout ∈ (s.timers.manager.listExpiredCallback now nowTimer []).1.filterMap id) :
    s.timer ≠ none ∧ ((s.timers.manager.detectClockRollover now).1 = true ∨ s.started + timeout ≤ now) := by
  obtain ⟨cb, hcb, heq⟩ := List.mem_filterMap.1 hmem
  obtain rfl : cb = some .timeout := heq
  obtain ⟨m, hlist, -⟩ := h.consistent.listExpired hfree now []
  rw [hlist, List.nil_append, List.mem_map] at hcb
  obtain ⟨p, hexpired, hp⟩ := hcb
  obtain ⟨hin, hdue⟩ := TimerManager.mem_expired.1 hexpired
  have halloc := h.consistent.allocated p hin
  have htimer := h.registered p halloc hp
  have hown := h.own p htimer
  rw [h.consistent.next_eq p halloc, hown.ms, hown.armed] at hdue
  exact ⟨by rw [htimer]; exact Option.some_ne_none p, hdue⟩

theorem Reported.listExpiredCallback (h : Reported mode timeout s) (ht : Timed timeout s) {now : BitVec 64}
    {nowTimer : Nat} (hfree : s.timers.Free nowTimer) :
    Reported mode timeout (next mode timeout s (.listExpiredCallback now nowTimer)) := by
  have hnew : ∀ {r}, r ∈ (((s.timers.manager.listExpiredCallback now nowTimer []).1.filterMap id).filter
      fun task => task = Task.timeout).map
        (fun _ => (⟨s.started, now, (s.timers.manager.detectClockRollover now).1⟩ : Taken)) →
      r = ⟨s.started, now, (s.timers.manager.detectClockRollover now).1⟩ ∧
        .timeout ∈ (s.timers.manager.listExpiredCallback now nowTimer []).1.filterMap id := by
    intro r hr
    obtain ⟨task, htask, rfl⟩ := List.mem_map.1 hr
    obtain ⟨hin, htimeout⟩ := List.mem_filter.1 htask
    obtain rfl : task = .timeout := of_decide_eq_true htimeout
    exact ⟨rfl, hin⟩
  constructor
  case due =>
    intro r hr
    rcases List.mem_append.1 hr with hold | hr
    · exact h.due r hold
    · obtain ⟨rfl, hin⟩ := hnew hr
      exact (ht.due hfree hin).2
  case expired =>
    intro hreason hnil
    obtain ⟨hold, hnone⟩ := List.append_eq_nil_iff.1 hnil
    rcases hreason with hmem | hcancelled
    · rcases List.mem_append.1 hmem with hmem | hmem
      · exact h.expired (.inl hmem) hold
      · have hin := List.mem_filter (p := fun task => decide (task = Task.timeout)).2 ⟨hmem, rfl⟩
        rw [List.map_eq_nil_iff.1 hnone] at hin
        cases hin
    · exact h.expired (.inr hcancelled) hold
  case limited =>
    intro hne
    by_cases hold : s.taken = []
    · obtain ⟨r, hr⟩ := List.exists_mem_of_ne_nil _ hne
      rcases List.mem_append.1 hr with hr | hr
      · exact h.limited (List.ne_nil_of_mem hr)
      · exact (ht.phase (ht.due hfree (hnew hr).2).1).2
    · exact h.limited hold
  case cancelling => exact h.cancelling
  case phase => exact h.phase.of_eq rfl

theorem Reported.step (h : Reported mode timeout s) (ht : Timed timeout s)
    (hstep : (machine mode timeout start).step s e = some s') : Reported mode timeout s' := by
  obtain ⟨henabled, rfl⟩ := machine_step hstep
  have hkept : ∀ t : State, t.cancelled = s.cancelled → Justified mode t s.phase := fun t => h.phase.of_eq
  cases e with
  | call r => exact h.go rfl rfl rfl id (justified_called r)
  | addTimer timer now =>
    dsimp only [next]
    split <;> exact h.go rfl rfl rfl id trivial
  | addEvent ok => cases ok <;> exact h.go rfl rfl rfl id trivial
  | yield => exact h.go rfl rfl rfl id trivial
  | trigger => exact h.go rfl rfl rfl id (hkept _ rfl)
  | resume => exact h.go rfl rfl rfl id trivial
  | cancel =>
    refine h.go rfl rfl rfl id ?_
    dsimp only [next]
    split
    case isTrue => trivial
    case isFalse =>
      split
      case isTrue hmode => exact hmode
      case isFalse hmode => exact hmode
  | check =>
    refine h.go rfl rfl rfl id ?_
    dsimp only [next]
    split
    case isTrue hcancelled => exact hcancelled
    case isFalse =>
      split
      case isTrue hmode => exact hmode
      case isFalse => trivial
  | getsockopt r =>
    have hphase := h.phase
    rw [show s.phase = .asking from henabled] at hphase
    refine h.go rfl rfl rfl id fun hio => ?_
    rw [show mode = .connect from hphase] at hio
    cases hio
  | listExpiredCallback now nowTimer => exact h.listExpiredCallback ht henabled
  | run task =>
    cases task with
    | timeout =>
      dsimp only [next]
      split
      case isTrue =>
        refine ⟨h.due, ?_, h.limited, h.cancelling, hkept _ rfl⟩
        exact fun hreason => h.expired (hreason.imp_left List.mem_of_mem_erase)
      case isFalse hnot =>
        refine ⟨h.due, fun _ => h.expired (.inl henabled), h.limited, fun _ => rfl, ?_⟩
        -- the call has not returned
        have hlive := h.phase
        dsimp only
        cases hphase : s.phase with
        | returned outcome => exact absurd (.inl (by rw [hphase]; rfl)) hnot
        | asking =>
          rw [hphase] at hlive
          exact hlive
        | _ => trivial
    | other n =>
      refine ⟨h.due, ?_, h.limited, h.cancelling, hkept _ rfl⟩
      exact fun hreason => h.expired (hreason.imp_left List.mem_of_mem_erase)
  | cancelEvent ok =>
    dsimp only [next]
    split <;> exact h.go rfl rfl rfl (fun hbetween => by cases hbetween) (hkept _ rfl)
  | others e => exact h.go rfl rfl rfl id (hkept _ rfl)

/-! ### Runs -/

theorem bookkeeping_of_reaches (h : (machine mode timeout start).Reaches Machine.any (initial mode start) s) :
    Timed timeout s ∧ Counted s ∧ Reported mode timeout s := by
  refine h.invariant (I := fun t => Timed timeout t ∧ Counted t ∧ Reported mode timeout t) ?_ ?_
  · rintro t e t' ⟨htimed, hcounted, hreported⟩ - hstep
    exact ⟨htimed.step hstep, hcounted.step hstep, hreported.step htimed hstep⟩
  · refine ⟨Timed.initial start, ?_, Reported.initial start⟩
    dsimp only [Counted, initial]
    split <;> rfl

/-- A fiber that waits is registered or scheduled, once; a call that has returned has left no timer, no registration
and no scheduled fiber behind.  `do_io` returns neither `EINTR` nor `EAGAIN`, and a call times out only if it has a
limit and a timer of its own was due. -/
theorem returned_of_reaches (h : (machine mode timeout start).Reaches Machine.any (initial mode start) s) :
    s.scheduled + s.registered.toNat = s.phase.waits.toNat ∧
      (s.phase.returns = true → s.scheduled = 0 ∧ s.registered = false ∧
        ∀ p, s.timers.allocated p = true → (s.timers.manager.objects p).callback ≠ some .timeout) ∧
      (mode = .io → s.phase ≠ .returned (.result (.error .eintr)) ∧ s.phase ≠ .returned (.result (.error .eagain))) ∧
      (s.phase = .returned .timedOut → timeout ≠ BitVec.allOnes 64 ∧ s.taken ≠ [] ∧ ∀ r ∈ s.taken, r.Due timeout) := by
  obtain ⟨htimed, hcounted, hreported⟩ := bookkeeping_of_reaches h
  have hover : s.phase.returns = true → s.phase.waits = false ∧ s.phase.timed = false := by
    cases s.phase <;> simp [Phase.returns, Phase.waits, Phase.timed]
  have hphase := hreported.phase
  refine ⟨hcounted, fun hreturns => ?_, fun hio => ⟨fun heq => ?_, fun heq => ?_⟩, fun heq => ?_⟩
  · obtain ⟨hscheduled, hregistered⟩ := hcounted.idle (hover hreturns).1
    refine ⟨hscheduled, hregistered, fun p halloc hp => ?_⟩
    have hnone := htimed.timer_eq_none (hover hreturns).2
    rw [htimed.registered p halloc hp] at hnone
    cases hnone
  · rw [heq] at hphase
    exact (hphase hio).1 rfl
  · rw [heq] at hphase
    exact (hphase hio).2 rfl
  · rw [heq] at hphase
    have hne := hreported.expired (.inr hphase)
    exact ⟨hreported.limited hne, hne, hreported.due⟩

/-- The limit passes, the callback cancels the event, and the call returns. -/
private def timesOut : List Event :=
  [.call (.error .eintr), .call (.error .eagain), .addTimer 8 5, .addEvent true, .yield, .listExpiredCallback 15 16,
    .run .timeout, .cancelEvent true, .resume, .cancel, .check]

theorem returned_of_reaches_timesOut : ∃ s, (machine .io 10 5).Reaches Machine.any (initial .io 5) s ∧
    s.phase = .returned .timedOut ∧ s.taken = [⟨5, 15, false⟩] ∧ ∀ r ∈ s.taken, r.Due 10 := by
  obtain ⟨s, hreach, hphase, htaken⟩ : ∃ s, (machine .io 10 5).Reaches Machine.any (initial .io 5) s ∧
      s.phase = .returned .timedOut ∧ s.taken = [⟨5, 15, false⟩] :=
    Machine.exists_reaches_of_run timesOut (fun _ _ _ => trivial) (by decide +kernel)
  exact ⟨s, hreach, hphase, htaken, ((returned_of_reaches hreach).2.2.2 hphase).2.2⟩

end DoIo

end AcidCompute

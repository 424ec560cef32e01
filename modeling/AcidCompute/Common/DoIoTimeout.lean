import AcidCompute.Common.DoIo

/-!
# The limit of a hooked call

The timer is added before the event is registered, and a timer that has expired when the fiber cancels it still runs.
The callback sets `timer_info::cancelled` once and calls `cancel_event` once, which does nothing while no event is
registered.  If that happens before `add_event`, the fiber waits with its limit used up: no later timer of the call
cancels the event, and only the event itself wakes the fiber.  Otherwise the limit is on its way whenever the fiber
waits (`DoIo.parked_of_reaches`).
-/

namespace AcidCompute

namespace DoIo

/-- The phases of a round before `add_event`. -/
def Phase.early : Phase → Bool
  | .calling | .blocked | .limited => true
  | _ => false

/-- `cancel_event` in the callback comes when the event of the round has been added, and succeeds if it is there. -/
def Timely (s : State) : Event → Prop
  | .cancelEvent ok => ok = true ∧ s.phase.early = false
  | _ => True

instance (s : State) : (e : Event) → Decidable (Timely s e)
  | .cancelEvent ok => inferInstanceAs (Decidable (ok = true ∧ s.phase.early = false))
  | .call _ | .addTimer _ _ | .addEvent _ | .yield | .trigger | .resume | .cancel | .check | .getsockopt _
  | .listExpiredCallback _ _ | .run _ | .others _ => inferInstanceAs (Decidable True)

/-- Neither the event comes nor does anybody else cancel it. -/
def Untriggered (_ : State) (e : Event) : Prop := e ≠ .trigger

/-- The callback of the timer is registered, or taken out and about to run. -/
def State.Armed (s : State) : Prop :=
  (∃ p, s.timer = some p ∧ (s.timers.manager.objects p).callback = some .timeout) ∨ .timeout ∈ s.tasks

/-- The limit is on its way. -/
def State.Limited (s : State) : Prop := s.cancelled = true ∧ s.cancelling = true ∨ s.cancelled = false ∧ s.Armed

variable {mode : Mode} {timeout : BitVec 64} {s s' : State} {start : BitVec 64} {e : Event}

/-! ### With the limit on its way -/

variable (timeout) in
structure Pending (s : State) : Prop where
  cancelled : s.cancelled = true → s.cancelling = true ∨ s.registered = false ∧ s.phase.early = false
  armed : s.phase = .limited ∨ s.phase.waits = true → timeout ≠ BitVec.allOnes 64 → s.cancelled = false → s.Armed

theorem Pending.initial (start : BitVec 64) : Pending timeout (initial mode start) where
  cancelled hset := by cases hset
  armed hphase := by
    dsimp only [DoIo.initial] at hphase
    split at hphase <;> rcases hphase with heq | heq <;> cases heq

/-- The call goes on, and the limit is where it was. -/
private theorem Pending.go (h : Pending timeout s) (hcancelled : s'.cancelled = s.cancelled)
    (hcancelling : s'.cancelling = s.cancelling)
    (hearly : s.cancelled = true → s.cancelling = false → s.registered = false → s.phase.early = false →
      s'.registered = false ∧ s'.phase.early = false)
    (harmed : s'.phase = .limited ∨ s'.phase.waits = true → timeout ≠ BitVec.allOnes 64 → s.cancelled = false →
      s'.Armed) : Pending timeout s' := by
  constructor
  case cancelled =>
    rw [hcancelled, hcancelling]
    intro hset
    rcases h.cancelled hset with hbetween | ⟨hregistered, hphase⟩
    · exact .inl hbetween
    · by_cases hbetween : s.cancelling = true
      · exact .inl hbetween
      · exact .inr (hearly hset (Bool.eq_false_iff.2 hbetween) hregistered hphase)
  case armed =>
    rw [hcancelled]
    exact harmed

/-- A callback that a timer has is taken out or stays. -/
private theorem armed_listExpiredCallback (h : Timed timeout s) {now : BitVec 64} {nowTimer : Nat}
    (hfree : s.timers.Free nowTimer) (harmed : s.Armed) :
    (next mode timeout s (.listExpiredCallback now nowTimer)).Armed := by
  rcases harmed with ⟨p, htimer, hcb⟩ | htask
  · obtain ⟨m, hlist, -, hobjects, -⟩ := h.consistent.listExpired hfree now []
    have halloc := (h.own p htimer).allocated
    by_cases hexpired : p ∈ s.timers.manager.expired now
    · right
      refine List.mem_append_right _ (List.mem_filterMap.2 ⟨some .timeout, ?_, rfl⟩)
      rw [hlist, List.nil_append]
      exact List.mem_map.2 ⟨p, hexpired, hcb⟩
    · left
      refine ⟨p, htimer, ?_⟩
      have hmanager : (next mode timeout s (.listExpiredCallback now nowTimer)).timers.manager = m :=
        congrArg Prod.snd hlist
      rw [hmanager, hobjects p halloc, if_neg hexpired, hcb]
  · exact .inr (List.mem_append_left _ htask)

private theorem armed_others (h : Timed timeout s) {e : Timers.Event Task} (henabled : Timers.Enabled s.timers e)
    (hforeign : Foreign e) (hother : s.timer = none ∨ e.timer ≠ s.timer) (harmed : s.Armed) :
    (next mode timeout s (.others e)).Armed := by
  refine harmed.imp_left ?_
  rintro ⟨p, htimer, hcb⟩
  refine ⟨p, htimer, ?_⟩
  rw [htimer] at hother
  have hobject := h.consistent.object_eq henabled (hother.resolve_left (Option.some_ne_none p)) (by
    rintro now q rfl
    exact hforeign)
  exact (congrArg Timer.callback hobject).trans hcb

/-- Before `add_event` the limit is on its way, or the callback has not run. -/
private theorem Pending.of_early (h : Pending timeout s) (hphase : s.phase.early = true) {P : Prop}
    (hset : s.cancelled = true) (hbetween : s.cancelling = false) : P := by
  rcases h.cancelled hset with hyes | ⟨-, hnot⟩
  · rw [hbetween] at hyes
    cases hyes
  · rw [hphase] at hnot
    cases hnot

/-! Away from the phases in which the timer counts. -/

private theorem away_called (mode : Mode) (r : SysResult) :
    called mode r ≠ .limited ∧ (called mode r).waits = false := by
  unfold called
  split <;> exact ⟨by rintro ⟨⟩, rfl⟩

private theorem away_cancel (mode : Mode) (timeout : BitVec 64) (s : State) :
    (next mode timeout s .cancel).phase ≠ .limited ∧ (next mode timeout s .cancel).phase.waits = false ∧
      (next mode timeout s .cancel).phase.early = false := by
  dsimp only [next]
  split
  · exact ⟨by rintro ⟨⟩, rfl, rfl⟩
  · split <;> exact ⟨by rintro ⟨⟩, rfl, rfl⟩

private theorem away_check (mode : Mode) (timeout : BitVec 64) (s : State) :
    (next mode timeout s .check).phase ≠ .limited ∧ (next mode timeout s .check).phase.waits = false ∧
      (s.cancelled = true → (next mode timeout s .check).phase.early = false) := by
  dsimp only [next]
  split
  case isTrue => exact ⟨by rintro ⟨⟩, rfl, fun _ => rfl⟩
  case isFalse hclear => split <;> exact ⟨by rintro ⟨⟩, rfl, fun hset => absurd hset hclear⟩

theorem Pending.step (h : Pending timeout s) (ht : Timed timeout s) (hr : Reported mode timeout s)
    (htimely : Timely s e) (hstep : (machine mode timeout start).step s e = some s') : Pending timeout s' := by
  obtain ⟨henabled, rfl⟩ := machine_step hstep
  have hearly : ∀ phase : Phase, phase.early = true → s.phase = phase → ∀ P : Prop, s.cancelled = true →
      s.cancelling = false → P := by
    rintro phase hphase rfl P
    exact h.of_early hphase
  have hnot : ∀ phase : Phase, phase ≠ .limited → phase.waits = false → ∀ P : Prop,
      phase = .limited ∨ phase.waits = true → P := by
    rintro phase hne hwaits P (heq | htrue)
    · exact absurd heq hne
    · rw [hwaits] at htrue
      cases htrue
  cases e with
  | call r =>
    obtain ⟨hne, hwaits⟩ := away_called mode r
    exact h.go rfl rfl (fun hset hbetween _ _ => hearly .calling rfl henabled _ hset hbetween) (hnot _ hne hwaits _)
  | addTimer timer now =>
    dsimp only [next]
    split
    case isTrue =>
      refine h.go rfl rfl (fun hset hbetween _ _ => hearly .blocked rfl henabled.1 _ hset hbetween) fun _ _ _ => .inl ?_
      refine ⟨timer, rfl, ?_⟩
      simp [Timers.next, TimerManager.addTimer, Timer.new]
    case isFalse hunlimited =>
      exact h.go rfl rfl (fun hset hbetween _ _ => hearly .blocked rfl henabled.1 _ hset hbetween)
        fun _ hlimit => absurd hlimit hunlimited
  | addEvent ok =>
    have hphase : s.phase = .limited := henabled
    cases ok with
    | false =>
      exact h.go rfl rfl (fun hset hbetween _ _ => hearly .limited rfl hphase _ hset hbetween)
        (hnot .unregistered (by rintro ⟨⟩) rfl _)
    | true =>
      exact h.go rfl rfl (fun hset hbetween _ _ => hearly .limited rfl hphase _ hset hbetween)
        fun _ => h.armed (.inl hphase)
  | yield =>
    have hphase : s.phase = .added := henabled
    exact h.go rfl rfl (fun _ _ hregistered _ => ⟨hregistered, rfl⟩) fun _ => h.armed (.inr (by rw [hphase]; rfl))
  | trigger => exact h.go rfl rfl (fun _ _ _ hphase => ⟨rfl, hphase⟩) h.armed
  | resume =>
    exact h.go rfl rfl (fun _ _ hregistered _ => ⟨hregistered, rfl⟩) (hnot .resumed (by rintro ⟨⟩) rfl _)
  | cancel =>
    obtain ⟨hne, hwaits, hphase⟩ := away_cancel mode timeout s
    exact h.go rfl rfl (fun _ _ hregistered _ => ⟨hregistered, hphase⟩) (hnot _ hne hwaits _)
  | check =>
    obtain ⟨hne, hwaits, hphase⟩ := away_check mode timeout s
    exact h.go rfl rfl (fun hset _ hregistered _ => ⟨hregistered, hphase hset⟩) (hnot _ hne hwaits _)
  | getsockopt r =>
    exact h.go rfl rfl (fun _ _ hregistered _ => ⟨hregistered, rfl⟩)
      (hnot (.returned (.result r)) (by rintro ⟨⟩) rfl _)
  | listExpiredCallback now nowTimer =>
    exact h.go rfl rfl (fun _ _ hregistered hphase => ⟨hregistered, hphase⟩)
      fun hphase hlimit hclear => armed_listExpiredCallback ht henabled (h.armed hphase hlimit hclear)
  | run task =>
    cases task with
    | timeout =>
      dsimp only [next]
      split
      case isTrue hdone =>
        refine h.go rfl rfl (fun _ _ hregistered hphase => ⟨hregistered, hphase⟩) fun hphase hlimit hclear => ?_
        rcases hdone with hreturned | hset
        · obtain ⟨outcome, heq⟩ : ∃ outcome, s.phase = .returned outcome := by
            cases heq : s.phase with
            | returned outcome => exact ⟨outcome, rfl⟩
            | _ =>
              rw [heq] at hreturned
              cases hreturned
          refine hnot (.returned outcome) (by rintro ⟨⟩) rfl _ ?_
          rw [← heq]
          exact hphase
        · rw [hclear] at hset
          cases hset
      case isFalse => exact ⟨fun _ => .inl rfl, fun _ _ hclear => by cases hclear⟩
    | other n =>
      refine h.go rfl rfl (fun _ _ hregistered hphase => ⟨hregistered, hphase⟩) fun hphase hlimit hclear => ?_
      refine (h.armed hphase hlimit hclear).imp_right fun hmem => ?_
      exact (List.mem_erase_of_ne (by rintro ⟨⟩)).2 hmem
  | cancelEvent ok =>
    obtain ⟨rfl, hphase⟩ := htimely
    have hset : s.cancelled = true := hr.cancelling henabled
    dsimp only [next]
    split
    case isTrue =>
      refine ⟨fun _ => .inr ⟨rfl, hphase⟩, fun _ _ hclear => ?_⟩
      have hclear : s.cancelled = false := hclear
      rw [hset] at hclear
      cases hclear
    case isFalse hunregistered =>
      refine ⟨fun _ => .inr ⟨?_, hphase⟩, fun _ _ hclear => ?_⟩
      · simpa using hunregistered
      · have hclear : s.cancelled = false := hclear
        rw [hset] at hclear
        cases hclear
  | others e =>
    exact h.go rfl rfl (fun _ _ hregistered hphase => ⟨hregistered, hphase⟩)
      fun hphase hlimit hclear => armed_others ht henabled.1 henabled.2.1 henabled.2.2 (h.armed hphase hlimit hclear)

/-! ### With the limit used up -/

/-- The callback has run in vain. -/
structure Stuck (s : State) : Prop where
  phase : s.phase = .parked
  scheduled : s.scheduled = 0
  cancelled : s.cancelled = true
  cancelling : s.cancelling = false

/-- No timer and no callback changes that. -/
theorem Stuck.step (h : Stuck s) (huntriggered : Untriggered s e)
    (hstep : (machine mode timeout start).step s e = some s') : Stuck s' := by
  obtain ⟨henabled, rfl⟩ := machine_step hstep
  have hother : ∀ {phase : Phase} {P : Prop}, phase ≠ .parked → s.phase = phase → P := by
    rintro phase P hne rfl
    exact absurd h.phase hne
  cases e with
  | call r => exact hother (by rintro ⟨⟩) henabled
  | addTimer timer now => exact hother (by rintro ⟨⟩) henabled.1
  | addEvent ok => exact hother (by rintro ⟨⟩) henabled
  | yield => exact hother (by rintro ⟨⟩) henabled
  | trigger => exact absurd rfl huntriggered
  | resume =>
    have hpos := henabled.2
    rw [h.scheduled] at hpos
    cases hpos
  | cancel => exact henabled.elim (hother (by rintro ⟨⟩)) (hother (by rintro ⟨⟩))
  | check => exact hother (by rintro ⟨⟩) henabled
  | getsockopt r => exact hother (by rintro ⟨⟩) henabled
  | listExpiredCallback now nowTimer => exact ⟨h.phase, h.scheduled, h.cancelled, h.cancelling⟩
  | run task =>
    cases task with
    | timeout =>
      dsimp only [next]
      rw [if_pos (.inr h.cancelled)]
      exact ⟨h.phase, h.scheduled, h.cancelled, h.cancelling⟩
    | other n => exact ⟨h.phase, h.scheduled, h.cancelled, h.cancelling⟩
  | cancelEvent ok =>
    have hbetween : s.cancelling = true := henabled
    rw [h.cancelling] at hbetween
    cases hbetween
  | others e => exact ⟨h.phase, h.scheduled, h.cancelled, h.cancelling⟩

section

variable (mode timeout start)

/-- From `add_event` on nothing keeps the fiber from waiting. -/
private theorem reaches_stuck_limited (hphase : s.phase = .limited) (hcounted : Counted s) (hset : s.cancelled = true)
    (hbetween : s.cancelling = false) : ∃ s', (machine mode timeout start).Reaches Machine.any s s' ∧ Stuck s' := by
  have hadd : (machine mode timeout start).step s (.addEvent true) =
      some { s with registered := true, phase := .added } := step_of_enabled hphase
  have hyield : (machine mode timeout start).step { s with registered := true, phase := .added } .yield =
      some { s with registered := true, phase := .parked } := step_of_enabled (e := .yield) rfl
  refine ⟨_, (Machine.Reaches.single trivial hadd).trans (.single trivial hyield), rfl, ?_, hset, hbetween⟩
  exact (hcounted.idle (by rw [hphase]; rfl)).1

private theorem reaches_stuck_blocked (hphase : s.phase = .blocked) (hcounted : Counted s) (hset : s.cancelled = true)
    (hbetween : s.cancelling = false) (hroom : ∃ p, s.timers.Free p) :
    ∃ s', (machine mode timeout start).Reaches Machine.any s s' ∧ Stuck s' := by
  obtain ⟨p, hfree⟩ := hroom
  have hadd : (machine mode timeout start).step s (.addTimer p 0) = some (next mode timeout s (.addTimer p 0)) :=
    step_of_enabled ⟨hphase, hfree⟩
  have hkept : (next mode timeout s (.addTimer p 0)).phase = .limited ∧
      (next mode timeout s (.addTimer p 0)).cancelled = s.cancelled ∧
      (next mode timeout s (.addTimer p 0)).cancelling = s.cancelling := by
    dsimp only [next]
    split <;> exact ⟨rfl, rfl, rfl⟩
  obtain ⟨s', hreach, hstuck⟩ := reaches_stuck_limited mode timeout start hkept.1
    (hcounted.step hadd) (hkept.2.1.trans hset) (hkept.2.2.trans hbetween)
  exact ⟨s', .head trivial hadd hreach, hstuck⟩

/-- If the callback comes before `add_event`, the fiber may end up waiting for the event alone. -/
theorem reaches_stuck (hmode : mode = .io ∨ mode = .connect) (hcounted : Counted s) (hphase : s.phase.early = true)
    (hset : s.cancelled = true) (hbetween : s.cancelling = false) (hroom : ∃ p, s.timers.Free p) :
    ∃ s', (machine mode timeout start).Reaches Machine.any s s' ∧ Stuck s' := by
  cases heq : s.phase with
  | calling =>
    -- the system call would block again
    obtain ⟨r, hr⟩ : ∃ r, called mode r = .blocked := by
      rcases hmode with rfl | rfl
      · exact ⟨.error .eagain, rfl⟩
      · exact ⟨.error .einprogress, rfl⟩
    have hcall : (machine mode timeout start).step s (.call r) = some { s with phase := .blocked } := by
      rw [← hr]
      exact step_of_enabled heq
    obtain ⟨s', hreach, hstuck⟩ := reaches_stuck_blocked mode timeout start
      (s := { s with phase := .blocked }) rfl (hcounted.step hcall) hset hbetween hroom
    exact ⟨s', .head trivial hcall hreach, hstuck⟩
  | blocked => exact reaches_stuck_blocked mode timeout start heq hcounted hset hbetween hroom
  | limited => exact reaches_stuck_limited mode timeout start heq hcounted hset hbetween
  | _ =>
    rw [heq] at hphase
    cases hphase

end

/-! ### Runs -/

/-- While the callbacks cancel events that have been added, a fiber that waits is scheduled or has its limit on the way,
if it has one.  If `cancel_event` of the callback comes before `add_event`, the fiber may wait for the event alone: as
long as it does not come, no timer wakes the fiber. -/
theorem parked_of_reaches :
    ((machine mode timeout start).Reaches Timely (initial mode start) s → s.phase = .parked →
        timeout ≠ BitVec.allOnes 64 → s.scheduled = 1 ∨ s.registered = true ∧ s.Limited) ∧
      ((machine mode timeout start).Reaches Machine.any (initial mode start) s → mode = .io ∨ mode = .connect →
        s.phase.early = true → (∃ p, s.timers.Free p) → ∀ ok s',
          (machine mode timeout start).step s (.cancelEvent ok) = some s' →
            ∃ s'', (machine mode timeout start).Reaches Machine.any s' s'' ∧ s''.phase = .parked ∧
              ∀ t, (machine mode timeout start).Reaches Untriggered s'' t → t.phase = .parked) := by
  constructor
  · intro h hphase hlimit
    obtain ⟨htimed, hcounted, hreported⟩ := bookkeeping_of_reaches (h.mono fun _ _ _ => trivial)
    have hpending : Pending timeout s := by
      refine h.invariant_along (I := Pending timeout) ?_ ?_
      · intro t e t' hreach ht htimely hstep
        obtain ⟨htimed, -, hreported⟩ := bookkeeping_of_reaches (hreach.mono fun _ _ _ => trivial)
        exact ht.step htimed hreported htimely hstep
      · exact Pending.initial start
    have hwaits : s.phase.waits = true := by rw [hphase]; rfl
    unfold Counted at hcounted
    rw [hwaits] at hcounted
    change s.scheduled + s.registered.toNat = 1 at hcounted
    cases hregistered : s.registered with
    | false =>
      rw [hregistered] at hcounted
      exact .inl hcounted
    | true =>
      refine .inr ⟨rfl, ?_⟩
      cases hset : s.cancelled with
      | false => exact .inr ⟨hset, hpending.armed (.inr hwaits) hlimit hset⟩
      | true =>
        rcases hpending.cancelled hset with hbetween | ⟨hnot, -⟩
        · exact .inl ⟨hset, hbetween⟩
        · rw [hregistered] at hnot
          cases hnot
  · intro h hmode hphase hroom ok s' hstep
    obtain ⟨-, hcounted, hreported⟩ := bookkeeping_of_reaches h
    obtain ⟨henabled, hnext⟩ := machine_step hstep
    have hidle : s.phase.waits = false := by
      cases heq : s.phase with
      | calling | blocked | limited => rfl
      | _ =>
        rw [heq] at hphase
        cases hphase
    have hregistered := (hcounted.idle hidle).2
    obtain rfl : s' = { s with cancelling := false } := by
      rw [← hnext]
      dsimp only [next]
      rw [if_neg (by rw [hregistered]; rintro ⟨-, ⟨⟩⟩)]
    obtain ⟨s'', hreach, hstuck⟩ := reaches_stuck mode timeout start hmode (hcounted.step hstep)
      hphase (hreported.cancelling henabled) rfl hroom
    refine ⟨s'', hreach, hstuck.phase, fun t ht => ?_⟩
    exact (ht.invariant (fun _ _ _ hs huntriggered hstep => hs.step huntriggered hstep) hstuck).phase

/-- The event comes just when the limit has passed, and the callback runs while the fiber makes the system call
again. -/
private def overtaken : List Event :=
  [.call (.error .eagain), .addTimer 8 5, .addEvent true, .yield, .trigger, .listExpiredCallback 15 16, .resume,
    .cancel, .check, .run .timeout]

/-- The first round waits with its limit on the way, and the second may wait for good. -/
theorem parked_of_reaches_overtaken :
    (∃ s, (machine .io 10 5).Reaches Timely (initial .io 5) s ∧ s.phase = .parked ∧ s.scheduled = 0 ∧
        (s.scheduled = 1 ∨ s.registered = true ∧ s.Limited)) ∧
      ∃ s s'', (machine .io 10 5).Reaches Machine.any (initial .io 5) s ∧ s.cancelling = true ∧ s.phase = .calling ∧
        (machine .io 10 5).Reaches Machine.any s s'' ∧ s''.phase = .parked ∧
          ∀ t, (machine .io 10 5).Reaches Untriggered s'' t → t.phase = .parked := by
  constructor
  · obtain ⟨s, hreach, hphase, hscheduled⟩ : ∃ s, (machine .io 10 5).Reaches Timely (initial .io 5) s ∧
        s.phase = .parked ∧ s.scheduled = 0 :=
      Machine.exists_reaches_of_guarded (overtaken.take 4) (by decide +kernel)
    exact ⟨s, hreach, hphase, hscheduled, parked_of_reaches.1 hreach hphase (by decide)⟩
  · obtain ⟨s, hreach, hphase, hbetween, hfree⟩ : ∃ s, (machine .io 10 5).Reaches Machine.any (initial .io 5) s ∧
        s.phase = .calling ∧ s.cancelling = true ∧ s.timers.Free 17 :=
      Machine.exists_reaches_of_run overtaken (fun _ _ _ => trivial) (by decide +kernel)
    have hstep : (machine .io 10 5).step s (.cancelEvent true) = some (next .io 10 s (.cancelEvent true)) :=
      step_of_enabled hbetween
    obtain ⟨s'', hreach', hparked, hforever⟩ :=
      parked_of_reaches.2 hreach (.inl rfl) (by rw [hphase]; rfl) ⟨17, hfree⟩ true _ hstep
    exact ⟨s, s'', hreach, hbetween, hphase, .head trivial hstep hreach', hparked, hforever⟩

end DoIo

end AcidCompute

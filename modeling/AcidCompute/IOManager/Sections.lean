import AcidCompute.IOManager.Contexts

/-!
# The sections of the calls

Each section leaves the state alone, registers an event, removes one, or triggers events that are registered.  The only
other way out is a null scheduler, which an event has that was added outside of any scheduler.
-/

namespace AcidCompute

namespace IOManager

namespace Shared

variable {s s' : Shared} {o : Nat} {event : Event} {mask : BitVec 32}

/-! ### Triggers -/

theorem trigger_of_not_has (h : ¬ s.Has o event) : s.trigger o event = .error (.assertion .triggerEvent) := by
  have hzero : (s.contexts o).events &&& event.bit = 0 := not_not.1 h
  simp [trigger, triggerEvent, hzero]

theorem trigger_of_has (h : s.Has o event) : s.trigger o event = .error .nullDeref ∨
    ∃ task, FromSlot task (s.slot o event) ∧
      s.trigger o event = .ok { s.drop o event with scheduled := s.scheduled ++ [task] } := by
  have hbit : (s.contexts o).events &&& event.bit ≠ 0 := h
  have hslot : ({ s.contexts o with
      events := (s.contexts o).events &&& ~~~event.bit } : FdContext).getEventContext event = s.slot o event := by
    cases event <;> rfl
  cases hscheduler : (s.slot o event).scheduler with
  | none =>
    left
    simp only [trigger, triggerEvent, hbit, if_false, hslot, hscheduler]
    rfl
  | some scheduler =>
    right
    cases hcallback : (s.slot o event).callback with
    | none =>
      refine ⟨⟨scheduler, (s.slot o event).fiber, none, (s.slot o event).registration⟩, ⟨hscheduler, rfl, ?_⟩, ?_⟩
      · exact ⟨hcallback.symm, fun _ => rfl⟩
      · simp only [trigger, triggerEvent, hbit, if_false, hslot, hscheduler, hcallback]
        rfl
    | some callback =>
      refine ⟨⟨scheduler, none, some callback, (s.slot o event).registration⟩, ⟨hscheduler, rfl, ?_⟩, ?_⟩
      · refine ⟨hcallback.symm, fun hnone => ?_⟩
        rw [hcallback] at hnone
        cases hnone
      · simp only [trigger, triggerEvent, hbit, if_false, hslot, hscheduler, hcallback]
        rfl

theorem trigger_ok (h : s.trigger o event = .ok s') :
    s.Has o event ∧ ∃ task, FromSlot task (s.slot o event) ∧
      s' = { s.drop o event with scheduled := s.scheduled ++ [task] } := by
  by_cases hhas : s.Has o event
  · rcases trigger_of_has hhas with herror | ⟨task, hslot, hok⟩
    · rw [herror] at h
      cases h
    · rw [hok] at h
      cases h
      exact ⟨hhas, task, hslot, rfl⟩
  · rw [trigger_of_not_has hhas] at h
    cases h

/-- Registered events are triggered, or one of them has no scheduler. -/
def Fires (o : Nat) (s : Shared) (x : Except Failure Shared) : Prop :=
  x = .error .nullDeref ∨ ∃ tasks s', Triggers o s tasks s' ∧ x = .ok s'

theorem Fires.same : Fires o s (.ok s) := .inr ⟨[], s, .done, rfl⟩

theorem Fires.bind {x : Except Failure Shared} {f : Shared → Except Failure Shared} (hx : Fires o s x)
    (hf : ∀ tasks s', Triggers o s tasks s' → x = .ok s' → Fires o s' (f s')) : Fires o s (x >>= f) := by
  rcases hx with rfl | ⟨tasks, s', htriggers, rfl⟩
  · exact .inl rfl
  · rcases hf tasks s' htriggers rfl with herror | ⟨tasks', s'', htriggers', hok⟩
    · exact .inl herror
    · exact .inr ⟨tasks ++ tasks', s'', htriggers.trans htriggers', hok⟩

theorem trigger_fires (h : s.Has o event) : Fires o s (s.trigger o event) := by
  rcases trigger_of_has h with herror | ⟨task, hslot, hok⟩
  · exact .inl herror
  · exact .inr ⟨[task], _, .trigger h hslot .done, hok⟩

theorem triggerIf_fires (h : mask &&& event.bit ≠ 0 → s.Has o event) : Fires o s (s.triggerIf mask o event) := by
  unfold triggerIf
  split
  case isTrue hmask => exact trigger_fires (h hmask)
  case isFalse => exact .same

/-- Only the event itself is no longer registered. -/
theorem has_of_triggerIf (h : s.triggerIf mask o event = .ok s') (event' : Event) :
    s'.Has o event' ↔ s.Has o event' ∧ ¬ (mask &&& event.bit ≠ 0 ∧ event' = event) := by
  unfold triggerIf at h
  split at h
  case isTrue hmask =>
    obtain ⟨-, task, -, rfl⟩ := trigger_ok h
    have hdrop : ({ s.drop o event with scheduled := s.scheduled ++ [task] } : Shared).Has o event' ↔
        ¬ (o = o ∧ event' = event) ∧ s.Has o event' := has_drop
    rw [hdrop, and_comm]
    exact and_congr_right fun _ => not_congr ⟨fun hsame => ⟨hmask, hsame.2⟩, fun hsame => ⟨rfl, hsame.2⟩⟩
  case isFalse hmask =>
    cases h
    exact ⟨fun hhas => ⟨hhas, fun hboth => hmask hboth.1⟩, And.left⟩

/-! ### The calls -/

/-- A result without the value that is returned. -/
def state {α : Type} (x : Except Failure (α × Shared)) : Except Failure Shared := x.map Prod.snd

theorem state_bind_return {α : Type} {x : Except Failure Shared} {a : α} :
    state (x >>= fun s => pure (a, s)) = x := by
  cases x <;> rfl

theorem addEvent_failed {cb : Option Nat} {self : Caller} (h : ¬ s.Has o event) :
    s.addEvent o event cb self false = .ok (-1, s) := by
  have hzero : (s.contexts o).events &&& event.bit = 0 := not_not.1 h
  simp [addEvent, hzero]

theorem addEvent_spec (hs : Sound s) (h : ¬ s.Has o event) (cb : Option Nat) (self : Caller) :
    ∃ ec : EventContext, ec.Holds ∧ ec.registration = s.registrations ∧
      s.addEvent o event cb self true = .ok (0, s.register o event ec) := by
  have hzero : (s.contexts o).events &&& event.bit = 0 := not_not.1 h
  have hslot : ({ s.contexts o with events := (s.contexts o).events ||| event.bit } : FdContext).getEventContext event =
      s.slot o event := by
    cases event <;> rfl
  obtain ⟨hscheduler, hfiber, hcallback⟩ := hs.free o event h
  cases cb with
  | none =>
    refine ⟨⟨self.scheduler, some self.fiber, none, s.registrations⟩, .inl rfl, rfl, ?_⟩
    simp only [addEvent, hzero, ne_eq, not_true_eq_false, if_false, hslot, hscheduler, hfiber, hcallback]
    rfl
  | some callback =>
    refine ⟨⟨self.scheduler, none, some callback, s.registrations⟩, .inr rfl, rfl, ?_⟩
    simp only [addEvent, hzero, ne_eq, not_true_eq_false, if_false, hslot, hscheduler, hfiber, hcallback]
    rfl

theorem delEvent_eq (o : Nat) (event : Event) (epollCtl : Bool) : s.delEvent o event epollCtl =
    if s.Has o event ∧ epollCtl = true then
      (true, { s.drop o event with removed := s.removed ++ [(s.slot o event).registration] })
    else (false, s) := by
  by_cases hhas : s.Has o event
  · have hbit : (s.contexts o).events &&& event.bit ≠ 0 := hhas
    cases epollCtl with
    | false => simp [delEvent]
    | true =>
      simp only [delEvent, hbit, hhas, if_false, if_true, and_self]
      rfl
  · have hzero : (s.contexts o).events &&& event.bit = 0 := not_not.1 hhas
    simp [delEvent, hzero, hhas]

theorem sound_delEvent (hs : Sound s) (o : Nat) (event : Event) (epollCtl : Bool) :
    Sound (s.delEvent o event epollCtl).2 := by
  rw [delEvent_eq]
  split
  case isTrue hhas =>
    refine hs.drop hhas.1 rfl rfl ?_
    show (s.scheduled.map Scheduled.registration ++ (s.removed ++ [(s.slot o event).registration])).Perm
      ((s.slot o event).registration :: s.settled)
    rw [← List.append_assoc]
    exact List.perm_append_singleton _ _
  case isFalse => exact hs

theorem cancelEvent_failed : s.cancelEvent o event false = .ok (false, s) := by
  simp [cancelEvent]

theorem cancelEvent_fires (o : Nat) (event : Event) (epollCtl : Bool) :
    Fires o s (state (s.cancelEvent o event epollCtl)) := by
  cases epollCtl with
  | false =>
    rw [cancelEvent_failed]
    exact .same
  | true =>
    by_cases hbit : (s.contexts o).events &&& event.bit = 0
    · simp only [cancelEvent, hbit, if_true]
      exact .same
    · simp only [cancelEvent, hbit, if_false, Bool.true_eq_false, state_bind_return]
      exact trigger_fires hbit

theorem cancelAll_failed : s.cancelAll o false = .ok (false, s) := by
  simp [cancelAll]

/-- Once both events have been triggered no bit is left. -/
private theorem events_eq_zero (hs : Sound s) (h : ∀ event, ¬ s.Has o event) : (s.contexts o).events = 0 := by
  apply BitVec.eq_of_getLsbD_eq
  intro i hi
  rw [Bool.eq_iff_iff]
  constructor
  · intro hbit
    obtain ⟨event, rfl⟩ := hs.only o i hbit
    exact absurd ((FdContext.has_iff _ _).2 hbit) (h event)
  · intro hbit
    simp at hbit

theorem cancelAll_fires (hs : Sound s) (o : Nat) (epollCtl : Bool) : Fires o s (state (s.cancelAll o epollCtl)) := by
  unfold cancelAll
  split
  case isTrue => exact .same
  case isFalse =>
    split
    case isTrue => exact .same
    case isFalse =>
      have hread : Fires o s (s.triggerIf (s.contexts o).events o .read) := triggerIf_fires id
      rcases hread with herror | ⟨tasks, s₁, htriggers, hok⟩
      · rw [herror]
        exact .inl rfl
      · have hwrite : Fires o s₁ (s₁.triggerIf (s₁.contexts o).events o .write) := triggerIf_fires id
        rcases hwrite with herror | ⟨tasks', s₂, htriggers', hok'⟩
        · rw [hok]
          show Fires o s (state (s₁.triggerIf (s₁.contexts o).events o .write >>= _))
          rw [herror]
          exact .inl rfl
        · have hnone : ∀ event, ¬ s₂.Has o event := by
            intro event hhas
            obtain ⟨hhas₁, hnot⟩ := (has_of_triggerIf hok' event).1 hhas
            obtain ⟨hhas₀, hnot₀⟩ := (has_of_triggerIf hok event).1 hhas₁
            cases event with
            | read => exact hnot₀ ⟨hhas₀, rfl⟩
            | write => exact hnot ⟨hhas₁, rfl⟩
          have hzero := events_eq_zero ((hs.triggers htriggers).triggers htriggers') hnone
          refine .inr ⟨tasks ++ tasks', s₂, htriggers.trans htriggers', ?_⟩
          rw [hok]
          show state (s₁.triggerIf (s₁.contexts o).events o .write >>= _) = _
          rw [hok']
          show state (if (s₂.contexts o).events ≠ 0 then _ else _) = _
          rw [if_neg (not_not.2 hzero)]
          rfl

theorem handleEvent_failed : s.handleEvent o mask false = .ok s := by
  simp [handleEvent]

/-- The bits in `real_events` are registered, or none of them is. -/
def Matches (events realEvents : BitVec 32) : Prop := events &&& realEvents = 0 ∨ realEvents &&& ~~~events = 0

instance (events realEvents : BitVec 32) : Decidable (Matches events realEvents) := inferInstanceAs (Decidable (_ ∨ _))

theorem handleEvent_fires {epollCtl : Bool}
    (h : epollCtl = true → Matches (s.contexts o).events (realEvents mask (s.contexts o).events)) :
    Fires o s (s.handleEvent o mask epollCtl) := by
  cases epollCtl with
  | false =>
    rw [handleEvent_failed]
    exact .same
  | true =>
    by_cases hmeets : (s.contexts o).events &&& realEvents mask (s.contexts o).events = 0
    · simp only [handleEvent, hmeets, if_true]
      exact .same
    · have hsub := (h rfl).resolve_left hmeets
      have hhas : ∀ event : Event, realEvents mask (s.contexts o).events &&& event.bit ≠ 0 → s.Has o event := by
        intro event hevent
        rw [and_bit_ne_zero] at hevent
        refine (FdContext.has_iff _ _).2 ?_
        have hbit := congrArg (fun x => x.getLsbD event.index) hsub
        simpa [hevent, event.index_lt] using hbit
      simp only [handleEvent, hmeets, if_false, Bool.true_eq_false]
      refine Fires.bind (triggerIf_fires (hhas .read)) ?_
      intro tasks s' htriggers hok
      apply triggerIf_fires
      intro hwrite
      exact (has_of_triggerIf hok .write).2 ⟨hhas .write hwrite, by simp⟩

end Shared

end IOManager

end AcidCompute

import AcidCompute.Base.Machine
import AcidCompute.IOManager.Sections

/-!
# The event loop

Any number of workers call the functions on contexts they have found, and handle the events that `epoll_wait` has
returned to them.  A mask names events that were registered when it was returned; by the time it is handled some of
them may have been removed, and the handler triggers the others and those that are gone alike.  As long as every mask
that is handled is still registered, or nothing of it is, only registered events are triggered
(`IOManager.Loop.triggered_of_reaches`).
-/

namespace AcidCompute

namespace IOManager

namespace Loop

structure State where
  shared : Shared
  -- what `epoll_wait` has returned and nobody has handled yet
  batch : List (Nat × BitVec 32)
  failure : Option Failure

inductive Event
  | addEvent (o : Nat) (event : IOManager.Event) (cb : Option Nat) (self : Caller) (epollCtl : Bool)
  | delEvent (o : Nat) (event : IOManager.Event) (epollCtl : Bool)
  | cancelEvent (o : Nat) (event : IOManager.Event) (epollCtl : Bool)
  | cancelAll (o : Nat) (epollCtl : Bool)
  -- a worker comes back from `epoll_wait` with a mask for the context
  | epollWait (o : Nat) (mask : BitVec 32)
  -- a worker goes through the body of the loop
  | handle (o : Nat) (mask : BitVec 32) (epollCtl : Bool)
  deriving DecidableEq, Repr

def initial (storage : Nat → BitVec 32) : State := ⟨.initial storage, [], none⟩

/-- `EPOLLIN` and `EPOLLOUT` stand in the mask for registered events only. -/
def Names (s : State) (o : Nat) (mask : BitVec 32) : Prop :=
  ∀ event : IOManager.Event, mask &&& event.bit ≠ 0 → s.shared.Has o event

instance (s : State) (o : Nat) (mask : BitVec 32) : Decidable (Names s o mask) := inferInstanceAs (Decidable (∀ _, _))

def Enabled (s : State) : Event → Prop
  | .addEvent o event _ _ _ => s.failure = none ∧ ¬ (s.shared.slot o event).Holds
  | .epollWait o mask => s.failure = none ∧ Names s o mask
  | .handle o mask _ => s.failure = none ∧ (o, mask) ∈ s.batch
  | .delEvent _ _ _ | .cancelEvent _ _ _ | .cancelAll _ _ => s.failure = none

instance (s : State) (e : Event) : Decidable (Enabled s e) := by
  cases e <;> unfold Enabled <;> infer_instance

def State.finish (s : State) (x : Except Failure Shared) : State :=
  match x with
  | .ok shared => { s with shared := shared }
  | .error f => { s with failure := some f }

def next (s : State) : Event → State
  | .addEvent o event cb self epollCtl => s.finish ((s.shared.addEvent o event cb self epollCtl).map Prod.snd)
  | .delEvent o event epollCtl => { s with shared := (s.shared.delEvent o event epollCtl).2 }
  | .cancelEvent o event epollCtl => s.finish ((s.shared.cancelEvent o event epollCtl).map Prod.snd)
  | .cancelAll o epollCtl => s.finish ((s.shared.cancelAll o epollCtl).map Prod.snd)
  | .epollWait o mask => { s with batch := s.batch ++ [(o, mask)] }
  | .handle o mask epollCtl =>
    { s with batch := s.batch.erase (o, mask) }.finish (s.shared.handleEvent o mask epollCtl)

def machine (storage : Nat → BitVec 32) : Machine State Event where
  start := initial storage
  step s e := if Enabled s e then some (next s e) else none

theorem machine_step {storage : Nat → BitVec 32} {s s' : State} {e : Event}
    (h : (machine storage).step s e = some s') : Enabled s e ∧ next s e = s' := by
  simpa [machine] using h

/-- What a handler is about to trigger is registered, or none of it is. -/
def Current (s : State) : Event → Prop
  | .handle o mask epollCtl => epollCtl = true →
    Shared.Matches (s.shared.contexts o).events (Shared.realEvents mask (s.shared.contexts o).events)
  | _ => True

instance (s : State) (e : Event) : Decidable (Current s e) := by
  cases e <;> unfold Current <;> infer_instance

/-- The state is sound, and no assertion has failed. -/
structure Proper (s : State) : Prop where
  sound : Sound s.shared
  failure : s.failure = none ∨ s.failure = some .nullDeref

section

variable {storage : Nat → BitVec 32} {s s' : State} {e : Event} {o : Nat}

theorem Proper.fires (h : Proper s) {x : Except Failure Shared} (hx : Shared.Fires o s.shared x) :
    Proper (s.finish x) := by
  rcases hx with rfl | ⟨tasks, s', htriggers, rfl⟩
  · exact ⟨h.sound, .inr rfl⟩
  · exact ⟨h.sound.triggers htriggers, h.failure⟩

theorem Proper.addEvent (h : Proper s) {event : IOManager.Event} (hnot : ¬ (s.shared.slot o event).Holds)
    (cb : Option Nat) (self : Caller) (epollCtl : Bool) : Proper (next s (.addEvent o event cb self epollCtl)) := by
  have hhas : ¬ s.shared.Has o event := fun hhas => hnot (h.sound.holds o event hhas)
  cases epollCtl with
  | false =>
    rw [next, Shared.addEvent_failed hhas]
    exact ⟨h.sound, h.failure⟩
  | true =>
    obtain ⟨ec, hholds, hnumber, hadd⟩ := Shared.addEvent_spec h.sound hhas cb self
    rw [next, hadd]
    exact ⟨h.sound.register hhas hholds hnumber, h.failure⟩

theorem Proper.step (h : Proper s) (hcurrent : Current s e) (hstep : (machine storage).step s e = some s') :
    Proper s' := by
  obtain ⟨henabled, rfl⟩ := machine_step hstep
  cases e with
  | addEvent o event cb self epollCtl => exact h.addEvent henabled.2 cb self epollCtl
  | delEvent o event epollCtl => exact ⟨Shared.sound_delEvent h.sound o event epollCtl, h.failure⟩
  | cancelEvent o event epollCtl => exact h.fires (Shared.cancelEvent_fires o event epollCtl)
  | cancelAll o epollCtl => exact h.fires (Shared.cancelAll_fires h.sound o epollCtl)
  | epollWait o mask => exact ⟨h.sound, h.failure⟩
  | handle o mask epollCtl =>
    have hbatch : Proper { s with batch := s.batch.erase (o, mask) } := ⟨h.sound, h.failure⟩
    exact hbatch.fires (Shared.handleEvent_fires hcurrent)

/-- The contexts are created with no events, and what a handler triggers is registered or none of it is: then no
assertion fails, and a handler that comes to its end has scheduled registrations of its context, each once, and has
lowered the counter by their number. -/
theorem triggered_of_reaches (hstorage : ∀ o, storage o = 0)
    (h : (machine storage).Reaches Current (machine storage).start s) :
    (s.failure = none ∨ s.failure = some .nullDeref) ∧
      ∀ o mask epollCtl s', Current s (.handle o mask epollCtl) →
        (machine storage).step s (.handle o mask epollCtl) = some s' → s'.failure = none →
          ∃ tasks, s'.shared.scheduled = s.shared.scheduled ++ tasks ∧
            s'.shared.pending = s.shared.pending - BitVec.ofNat 64 tasks.length ∧
            (tasks.map Scheduled.registration).Nodup ∧
            ∀ task ∈ tasks, ∃ event, s.shared.Has o event ∧ (s.shared.slot o event).Holds ∧
              FromSlot task (s.shared.slot o event) := by
  have hs : Proper s :=
    h.invariant (fun _ _ _ ht hcurrent hstep => ht.step hcurrent hstep) ⟨Sound.initial hstorage, .inl rfl⟩
  refine ⟨hs.failure, fun o mask epollCtl s' hcurrent hstep hok => ?_⟩
  obtain ⟨-, rfl⟩ := machine_step hstep
  rcases Shared.handleEvent_fires hcurrent with herror | ⟨tasks, shared, htriggers, hresult⟩
  · rw [next, herror] at hok
    cases hok
  · rw [next, hresult]
    have honce := (List.nodup_append.1 (hs.sound.triggers htriggers).once).1
    rw [htriggers.scheduled_eq, List.map_append] at honce
    refine ⟨tasks, htriggers.scheduled_eq, htriggers.pending_eq, (List.nodup_append.1 honce).2.1, fun task htask => ?_⟩
    obtain ⟨event, hhas, hslot⟩ := htriggers.registered task htask
    exact ⟨event, hhas, hs.sound.holds o event hhas, hslot⟩

end

/-- Two events are reported, and one of them is cancelled before the handler comes to them. -/
private def overtakenMask : List Event :=
  [.addEvent 3 .read (some 7) ⟨some 1, 9⟩ true, .addEvent 3 .write (some 8) ⟨some 1, 9⟩ true, .epollWait 3 5,
    .cancelEvent 3 .read true, .handle 3 5 true]

theorem exists_unregistered_overtakenMask : ∃ s, (machine fun _ => 0).Reaches Machine.any (machine fun _ => 0).start s ∧
    s.failure = some (.assertion .triggerEvent) :=
  Machine.exists_reaches_of_run overtakenMask (fun _ _ _ => trivial) (by decide +kernel)

/-- Both events are handled at once, and a second worker comes too late. -/
private def twoWorkers : List Event :=
  [.addEvent 3 .read (some 7) ⟨some 1, 9⟩ true, .addEvent 3 .write (some 8) ⟨some 1, 9⟩ true, .epollWait 3 5,
    .epollWait 3 5, .handle 3 5 true, .handle 3 5 true]

theorem triggered_of_reaches_twoWorkers : ∃ s,
    (machine fun _ => 0).Reaches Current (machine fun _ => 0).start s ∧ s.shared.scheduled.length = 2 ∧
      s.shared.pending = 0 ∧ (s.failure = none ∨ s.failure = some .nullDeref) := by
  obtain ⟨s, hreach, hscheduled, hpending⟩ : ∃ s,
      (machine fun _ => 0).Reaches Current (machine fun _ => 0).start s ∧ s.shared.scheduled.length = 2 ∧
        s.shared.pending = 0 :=
    Machine.exists_reaches_of_guarded twoWorkers (by decide +kernel)
  exact ⟨s, hreach, hscheduled, hpending, (triggered_of_reaches (fun _ => rfl) hreach).1⟩

end Loop

end IOManager

end AcidCompute

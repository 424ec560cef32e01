import AcidCompute.IOManager.Basic
import Mathlib.Data.List.Nodup

/-!
# Contexts and registrations

In a sound state a bit is set just where the slot holds a fiber or a callback, and every registration is in one slot,
or has been scheduled once, or has been removed (`IOManager.Sound`).  The sections keep a state sound, whatever
`epoll_ctl` returns, and what they schedule was registered (`IOManager.Triggers`).
-/

namespace AcidCompute

namespace IOManager

/-! ### Bits -/

def Event.index : Event → Nat
  | .read => 0
  | .write => 2

theorem Event.index_lt (event : Event) : event.index < 32 := by
  cases event <;> decide

theorem Event.index_inj {event event' : Event} (h : event.index = event'.index) : event = event' := by
  cases event <;> cases event' <;> first | rfl | cases h

theorem Event.bit_eq (event : Event) : event.bit = BitVec.twoPow 32 event.index := by
  cases event <;> rfl

theorem and_bit_ne_zero (x : BitVec 32) (event : Event) : x &&& event.bit ≠ 0 ↔ x.getLsbD event.index = true := by
  rw [Event.bit_eq, BitVec.and_twoPow]
  split
  case isTrue h =>
    simp only [h, iff_true]
    cases event <;> decide
  case isFalse h => simp [h]

theorem getLsbD_or_bit (x : BitVec 32) (event : Event) (i : Nat) :
    (x ||| event.bit).getLsbD i = true ↔ i = event.index ∨ x.getLsbD i = true := by
  have hlt := event.index_lt
  rw [Event.bit_eq, BitVec.getLsbD_or, BitVec.getLsbD_twoPow]
  by_cases hi : event.index = i
  · simp [hi, hi ▸ hlt]
  · simp [hi, Ne.symm hi]

theorem getLsbD_and_not_bit (x : BitVec 32) (event : Event) (i : Nat) :
    (x &&& ~~~event.bit).getLsbD i = true ↔ i ≠ event.index ∧ x.getLsbD i = true := by
  rw [Event.bit_eq, BitVec.getLsbD_and, BitVec.getLsbD_not, BitVec.getLsbD_twoPow]
  by_cases hi : i < 32
  · by_cases heq : event.index = i
    · simp [hi, heq]
    · simp [hi, heq, Ne.symm heq]
  · have hnone : x.getLsbD i = false := BitVec.getLsbD_of_ge x i (Nat.le_of_not_lt hi)
    simp [hnone]

/-! ### One context -/

namespace EventContext

/-- The slot has something to schedule. -/
def Holds (ec : EventContext) : Prop := ec.fiber.isSome ∨ ec.callback.isSome

instance (ec : EventContext) : Decidable ec.Holds := inferInstanceAs (Decidable (_ ∨ _))

def Free (ec : EventContext) : Prop := ec.scheduler = none ∧ ec.fiber = none ∧ ec.callback = none

theorem free_reset : reset.Free := ⟨rfl, rfl, rfl⟩

theorem Free.not_holds {ec : EventContext} (h : ec.Free) : ¬ ec.Holds := by
  obtain ⟨-, hfiber, hcallback⟩ := h
  simp [Holds, hfiber, hcallback]

end EventContext

namespace FdContext

variable (ctx : FdContext) (event event' : Event)

theorem has_iff : ctx.Has event ↔ ctx.events.getLsbD event.index = true := and_bit_ne_zero _ _

@[simp] theorem setEventContext_events (ec : EventContext) : (ctx.setEventContext event ec).events = ctx.events := by
  cases event <;> rfl

theorem getEventContext_setEventContext (ec : EventContext) :
    (ctx.setEventContext event ec).getEventContext event' =
      if event' = event then ec else ctx.getEventContext event' := by
  cases event <;> cases event' <;> rfl

/-- The bit is set and the slot filled. -/
def register (ec : EventContext) : FdContext :=
  { ctx with events := ctx.events ||| event.bit }.setEventContext event ec

/-- The bit is cleared and the slot reset. -/
def drop : FdContext := { ctx with events := ctx.events &&& ~~~event.bit }.setEventContext event .reset

theorem has_register (ec : EventContext) : (ctx.register event ec).Has event' ↔ event' = event ∨ ctx.Has event' := by
  rw [has_iff, has_iff, register, setEventContext_events, getLsbD_or_bit]
  exact or_congr_left ⟨Event.index_inj, congrArg Event.index⟩

theorem has_drop : (ctx.drop event).Has event' ↔ event' ≠ event ∧ ctx.Has event' := by
  rw [has_iff, has_iff, drop, setEventContext_events, getLsbD_and_not_bit]
  exact and_congr_left fun _ => not_congr ⟨Event.index_inj, congrArg Event.index⟩

theorem slot_register (ec : EventContext) :
    (ctx.register event ec).getEventContext event' = if event' = event then ec else ctx.getEventContext event' := by
  rw [register, getEventContext_setEventContext]
  cases event' <;> rfl

theorem slot_drop :
    (ctx.drop event).getEventContext event' = if event' = event then .reset else ctx.getEventContext event' := by
  rw [drop, getEventContext_setEventContext]
  cases event' <;> rfl

end FdContext

namespace Shared

variable (s : Shared)

/-- The event is registered. -/
def Has (o : Nat) (event : Event) : Prop := (s.contexts o).Has event

instance (o : Nat) (event : Event) : Decidable (s.Has o event) := inferInstanceAs (Decidable ((s.contexts o).Has event))

def slot (o : Nat) (event : Event) : EventContext := (s.contexts o).getEventContext event

def register (o : Nat) (event : Event) (ec : EventContext) : Shared :=
  { s.setContext o ((s.contexts o).register event ec) with
    pending := s.pending + 1
    registrations := s.registrations + 1 }

def drop (o : Nat) (event : Event) : Shared :=
  { s.setContext o ((s.contexts o).drop event) with pending := s.pending - 1 }

variable {s} {o o' : Nat} {event event' : Event} {ec : EventContext}

theorem contexts_register : (s.register o event ec).contexts o' =
    if o' = o then (s.contexts o').register event ec else s.contexts o' := by
  change Function.update s.contexts o ((s.contexts o).register event ec) o' = _
  rw [Function.update_apply]
  split
  case isTrue heq => rw [heq]
  case isFalse => rfl

theorem contexts_drop : (s.drop o event).contexts o' =
    if o' = o then (s.contexts o').drop event else s.contexts o' := by
  change Function.update s.contexts o ((s.contexts o).drop event) o' = _
  rw [Function.update_apply]
  split
  case isTrue heq => rw [heq]
  case isFalse => rfl

theorem has_register : (s.register o event ec).Has o' event' ↔ o' = o ∧ event' = event ∨ s.Has o' event' := by
  rw [Has, contexts_register]
  split
  case isTrue ho => simp [Has, ho, FdContext.has_register]
  case isFalse ho => simp [Has, ho]

theorem has_drop : (s.drop o event).Has o' event' ↔ ¬ (o' = o ∧ event' = event) ∧ s.Has o' event' := by
  rw [Has, contexts_drop]
  split
  case isTrue ho => simp [Has, ho, FdContext.has_drop]
  case isFalse ho => simp [Has, ho]

theorem has_of_contexts_drop {s' : Shared} (hcontexts : s'.contexts = (s.drop o event).contexts) :
    s'.Has o' event' ↔ ¬ (o' = o ∧ event' = event) ∧ s.Has o' event' := by
  rw [← has_drop]
  unfold Has
  rw [hcontexts]

theorem slot_register : (s.register o event ec).slot o' event' =
    if o' = o ∧ event' = event then ec else s.slot o' event' := by
  rw [slot, contexts_register]
  split
  case isTrue ho => simp [slot, ho, FdContext.slot_register]
  case isFalse ho => simp [slot, ho]

theorem slot_drop : (s.drop o event).slot o' event' =
    if o' = o ∧ event' = event then .reset else s.slot o' event' := by
  rw [slot, contexts_drop]
  split
  case isTrue ho => simp [slot, ho, FdContext.slot_drop]
  case isFalse ho => simp [slot, ho]

theorem slot_register_self : (s.register o event ec).slot o event = ec := by
  rw [slot_register, if_pos ⟨rfl, rfl⟩]

theorem slot_register_of_ne (hne : ¬ (o' = o ∧ event' = event)) :
    (s.register o event ec).slot o' event' = s.slot o' event' := by
  rw [slot_register, if_neg hne]

theorem slot_drop_of_ne (hne : ¬ (o' = o ∧ event' = event)) : (s.drop o event).slot o' event' = s.slot o' event' := by
  rw [slot_drop, if_neg hne]

/-- The registrations that have been scheduled or removed. -/
def settled (s : Shared) : List Nat := s.scheduled.map Scheduled.registration ++ s.removed

end Shared

/-! ### Sound states -/

structure Sound (s : Shared) : Prop where
  only : ∀ o i, (s.contexts o).events.getLsbD i = true → ∃ event : Event, i = event.index
  holds : ∀ o event, s.Has o event → (s.slot o event).Holds
  free : ∀ o event, ¬ s.Has o event → (s.slot o event).Free
  recent : ∀ o event, s.Has o event → (s.slot o event).registration < s.registrations
  apart : ∀ o event o' event', s.Has o event → s.Has o' event' →
    (s.slot o event).registration = (s.slot o' event').registration → o = o' ∧ event = event'
  unsettled : ∀ o event, s.Has o event → (s.slot o event).registration ∉ s.settled
  settled : ∀ r ∈ s.settled, r < s.registrations
  once : s.settled.Nodup

/-- A bit is set just where the slot holds something. -/
theorem Sound.has_iff {s : Shared} (h : Sound s) (o : Nat) (event : Event) :
    s.Has o event ↔ (s.slot o event).Holds := by
  constructor
  · exact h.holds o event
  · intro hholds
    by_contra hnot
    exact (h.free o event hnot).not_holds hholds

section

variable {s s' : Shared} {o : Nat} {event : Event}

theorem Shared.not_has_initial {storage : Nat → BitVec 32} (hstorage : ∀ o, storage o = 0) (o : Nat) (event : Event) :
    ¬ (Shared.initial storage).Has o event := by
  rw [Shared.Has, FdContext.has_iff]
  simp [Shared.initial, FdContext.new, hstorage]

theorem Sound.initial {storage : Nat → BitVec 32} (hstorage : ∀ o, storage o = 0) : Sound (Shared.initial storage) := by
  have hnone := Shared.not_has_initial hstorage
  constructor
  case only =>
    intro o i hi
    simp [Shared.initial, FdContext.new, hstorage] at hi
  case holds => exact fun o event hhas => absurd hhas (hnone o event)
  case free =>
    intro o event _
    cases event <;> exact EventContext.free_reset
  case recent => exact fun o event hhas => absurd hhas (hnone o event)
  case apart => exact fun o event _ _ hhas => absurd hhas (hnone o event)
  case unsettled => exact fun o event hhas => absurd hhas (hnone o event)
  case settled => exact fun r hr => absurd hr List.not_mem_nil
  case once => exact List.nodup_nil

/-- What holds of the new slot and of those that were registered holds of all that are registered now. -/
private theorem forall_register {P : EventContext → Prop} {ec : EventContext} (hnew : P ec)
    (hold : ∀ o' event', s.Has o' event' → P (s.slot o' event')) (o' : Nat) (event' : Event)
    (hhas : (s.register o event ec).Has o' event') : P ((s.register o event ec).slot o' event') := by
  by_cases heq : o' = o ∧ event' = event
  · obtain ⟨rfl, rfl⟩ := heq
    rwa [Shared.slot_register_self]
  · rw [Shared.slot_register_of_ne heq]
    exact hold o' event' ((Shared.has_register.1 hhas).resolve_left heq)

theorem Sound.register (h : Sound s) (hnot : ¬ s.Has o event) {ec : EventContext} (hholds : ec.Holds)
    (hnumber : ec.registration = s.registrations) : Sound (s.register o event ec) := by
  have hother : ∀ o' event', (s.register o event ec).Has o' event' → ¬ (o' = o ∧ event' = event) →
      s.Has o' event' ∧ (s.register o event ec).slot o' event' = s.slot o' event' := by
    intro o' event' hhas hne
    exact ⟨(Shared.has_register.1 hhas).resolve_left hne, Shared.slot_register_of_ne hne⟩
  have hfresh : ∀ o' event', s.Has o' event' → (s.slot o' event').registration ≠ ec.registration := by
    intro o' event' hhas
    rw [hnumber]
    exact Nat.ne_of_lt (h.recent o' event' hhas)
  constructor
  case only =>
    intro o' i hi
    rw [Shared.contexts_register] at hi
    split at hi
    case isTrue =>
      rw [FdContext.register, FdContext.setEventContext_events, getLsbD_or_bit] at hi
      rcases hi with rfl | hi
      · exact ⟨event, rfl⟩
      · exact h.only o' i hi
    case isFalse => exact h.only o' i hi
  case holds => exact forall_register hholds h.holds
  case free =>
    intro o' event' hnone
    rw [Shared.has_register, not_or] at hnone
    rw [Shared.slot_register_of_ne hnone.1]
    exact h.free o' event' hnone.2
  case recent =>
    refine forall_register (P := fun slot => slot.registration < s.registrations + 1) ?_ ?_
    · rw [hnumber]
      exact Nat.lt_succ_self _
    · exact fun o' event' hhas => Nat.lt_succ_of_lt (h.recent o' event' hhas)
  case apart =>
    intro o₁ event₁ o₂ event₂ h₁ h₂ hsame
    by_cases heq₁ : o₁ = o ∧ event₁ = event
    · by_cases heq₂ : o₂ = o ∧ event₂ = event
      · exact ⟨heq₁.1.trans heq₂.1.symm, heq₁.2.trans heq₂.2.symm⟩
      · obtain ⟨rfl, rfl⟩ := heq₁
        obtain ⟨hhas, hslot⟩ := hother o₂ event₂ h₂ heq₂
        rw [Shared.slot_register_self, hslot] at hsame
        exact absurd hsame.symm (hfresh o₂ event₂ hhas)
    · obtain ⟨hhas₁, hslot₁⟩ := hother o₁ event₁ h₁ heq₁
      by_cases heq₂ : o₂ = o ∧ event₂ = event
      · obtain ⟨rfl, rfl⟩ := heq₂
        rw [Shared.slot_register_self, hslot₁] at hsame
        exact absurd hsame (hfresh o₁ event₁ hhas₁)
      · obtain ⟨hhas₂, hslot₂⟩ := hother o₂ event₂ h₂ heq₂
        rw [hslot₁, hslot₂] at hsame
        exact h.apart o₁ event₁ o₂ event₂ hhas₁ hhas₂ hsame
  case unsettled =>
    refine forall_register (P := fun slot => slot.registration ∉ s.settled) ?_ h.unsettled
    rw [hnumber]
    exact fun hmem => Nat.lt_irrefl _ (h.settled _ hmem)
  case settled => exact fun r hr => Nat.lt_succ_of_lt (h.settled r hr)
  case once => exact h.once

/-- A registration leaves its slot and is settled. -/
theorem Sound.drop (h : Sound s) (hhas : s.Has o event) (hcontexts : s'.contexts = (s.drop o event).contexts)
    (hregistrations : s'.registrations = s.registrations)
    (hsettled : s'.settled.Perm ((s.slot o event).registration :: s.settled)) : Sound s' := by
  have hhas' : ∀ o' event', s'.Has o' event' ↔ ¬ (o' = o ∧ event' = event) ∧ s.Has o' event' :=
    fun o' event' => Shared.has_of_contexts_drop hcontexts
  have hslot : ∀ o' event', s'.slot o' event' = (s.drop o event).slot o' event' := by
    intro o' event'
    unfold Shared.slot
    rw [hcontexts]
  have hkept : ∀ o' event', s'.Has o' event' → s.Has o' event' ∧ s'.slot o' event' = s.slot o' event' ∧
      ¬ (o' = o ∧ event' = event) := by
    intro o' event' hmem
    obtain ⟨hne, hold⟩ := (hhas' o' event').1 hmem
    exact ⟨hold, (hslot o' event').trans (Shared.slot_drop_of_ne hne), hne⟩
  constructor
  case only =>
    intro o' i hi
    rw [hcontexts, Shared.contexts_drop] at hi
    split at hi
    case isTrue =>
      rw [FdContext.drop, FdContext.setEventContext_events, getLsbD_and_not_bit] at hi
      exact h.only o' i hi.2
    case isFalse => exact h.only o' i hi
  case holds =>
    intro o' event' hmem
    obtain ⟨hold, heq, -⟩ := hkept o' event' hmem
    rw [heq]
    exact h.holds o' event' hold
  case free =>
    intro o' event' hnone
    rw [hslot, Shared.slot_drop]
    split
    case isTrue => exact EventContext.free_reset
    case isFalse hne => exact h.free o' event' fun hold => hnone ((hhas' o' event').2 ⟨hne, hold⟩)
  case recent =>
    intro o' event' hmem
    obtain ⟨hold, heq, -⟩ := hkept o' event' hmem
    rw [heq, hregistrations]
    exact h.recent o' event' hold
  case apart =>
    intro o₁ event₁ o₂ event₂ h₁ h₂ hsame
    obtain ⟨hold₁, heq₁, -⟩ := hkept o₁ event₁ h₁
    obtain ⟨hold₂, heq₂, -⟩ := hkept o₂ event₂ h₂
    rw [heq₁, heq₂] at hsame
    exact h.apart o₁ event₁ o₂ event₂ hold₁ hold₂ hsame
  case unsettled =>
    intro o' event' hmem
    obtain ⟨hold, heq, hne⟩ := hkept o' event' hmem
    rw [heq, hsettled.mem_iff, List.mem_cons]
    rintro (hsame | hmem')
    · exact hne (h.apart o' event' o event hold hhas hsame)
    · exact h.unsettled o' event' hold hmem'
  case settled =>
    intro r hr
    rw [hregistrations]
    rcases List.mem_cons.1 (hsettled.mem_iff.1 hr) with rfl | hmem
    · exact h.recent o event hhas
    · exact h.settled r hmem
  case once => exact hsettled.nodup_iff.2 (List.nodup_cons.2 ⟨h.unsettled o event hhas, h.once⟩)

end

/-! ### Triggered events -/

/-- The task comes from the slot. -/
structure FromSlot (task : Scheduled) (ec : EventContext) : Prop where
  scheduler : ec.scheduler = some task.scheduler
  registration : task.registration = ec.registration
  task : task.callback = ec.callback ∧ (ec.callback = none → task.fiber = ec.fiber)

/-- Events of one context are triggered, one after the other, each while it is registered. -/
inductive Triggers (o : Nat) : Shared → List Scheduled → Shared → Prop
  | done {s} : Triggers o s [] s
  | trigger {s s' event task tasks} (hhas : s.Has o event) (hslot : FromSlot task (s.slot o event))
    (hrest : Triggers o { s.drop o event with scheduled := s.scheduled ++ [task] } tasks s') :
    Triggers o s (task :: tasks) s'

section

variable {s s' : Shared} {o : Nat} {event : Event} {tasks : List Scheduled}

theorem Triggers.trans {s'' : Shared} {tasks' : List Scheduled} (h : Triggers o s tasks s')
    (h' : Triggers o s' tasks' s'') : Triggers o s (tasks ++ tasks') s'' := by
  induction h with
  | done => exact h'
  | trigger hhas hslot hrest ih => exact .trigger hhas hslot (ih h')

theorem Sound.triggers (h : Sound s) (ht : Triggers o s tasks s') : Sound s' := by
  induction ht with
  | done => exact h
  | @trigger s s' event task tasks hhas hslot hrest ih =>
    apply ih
    refine h.drop hhas rfl rfl ?_
    rw [← hslot.registration]
    show (List.map _ (s.scheduled ++ [task]) ++ s.removed).Perm (task.registration :: s.settled)
    rw [List.map_append, List.append_assoc]
    exact List.perm_middle

theorem Triggers.scheduled_eq (ht : Triggers o s tasks s') : s'.scheduled = s.scheduled ++ tasks := by
  induction ht with
  | done => simp
  | trigger hhas hslot hrest ih => simp [ih]

theorem Triggers.pending_eq (ht : Triggers o s tasks s') : s'.pending = s.pending - BitVec.ofNat 64 tasks.length := by
  induction ht with
  | done => simp
  | @trigger s s' event task tasks hhas hslot hrest ih =>
    have hpending : s'.pending = s.pending - 1 - BitVec.ofNat 64 tasks.length := ih
    rw [hpending, List.length_cons, BitVec.ofNat_add, BitVec.sub_sub, BitVec.add_comm]
    rfl

/-- What is triggered was registered from the start. -/
theorem Triggers.registered (ht : Triggers o s tasks s') :
    ∀ task ∈ tasks, ∃ event, s.Has o event ∧ FromSlot task (s.slot o event) := by
  induction ht with
  | done => simp
  | @trigger s s' event task tasks hhas hslot hrest ih =>
    intro r hr
    rcases List.mem_cons.1 hr with rfl | hmem
    · exact ⟨event, hhas, hslot⟩
    · obtain ⟨event', hhas', hslot'⟩ := ih r hmem
      obtain ⟨hne, hold⟩ := Shared.has_drop.1 hhas'
      have heq : ({ s.drop o event with scheduled := s.scheduled ++ [task] } : Shared).slot o event' =
          s.slot o event' := Shared.slot_drop_of_ne hne
      rw [heq] at hslot'
      exact ⟨event', hold, hslot'⟩

end

end IOManager

end AcidCompute

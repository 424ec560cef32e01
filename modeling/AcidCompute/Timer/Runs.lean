import AcidCompute.Timer.Expired

/-!
# Runs of a timer manager

Timers are added, cancelled, refreshed and reset by whoever holds a pointer to them, and taken out when they expire, in
any order and with any readings of the clock.  Throughout, the set is in order, it holds just the timers with a
callback, and the deadline of a timer is what the clock showed when it was last armed plus its interval
(`Timers.consistent_of_reaches`).
-/

namespace AcidCompute

namespace Timers

/-- A manager, with the addresses that are in use. -/
structure State (κ : Type) where
  manager : TimerManager κ
  allocated : Nat → Bool
  -- what the clock showed when a timer was last armed
  armed : Nat → BitVec 64
  fault : Option Fault

inductive Event (κ : Type)
  | addTimer (timer : Nat) (ms : BitVec 64) (cb : κ) (recurring : Bool) (now : BitVec 64)
  | cancel (timer : Nat)
  | refresh (timer : Nat) (now : BitVec 64)
  | reset (timer : Nat) (ms : BitVec 64) (fromNow : Bool) (now : BitVec 64)
  | listExpiredCallback (now : BitVec 64) (nowTimer : Nat)
  -- the last pointer to a timer goes
  | release (timer : Nat)
  deriving DecidableEq, Repr

variable {κ : Type}

/-- A manager without timers. -/
def initial (now : BitVec 64) : State κ := ⟨TimerManager.new now, fun _ => false, fun _ => 0, none⟩

/-- A member function of a timer is called; where it returns `true` it may have armed the timer. -/
def State.call (s : State κ) (op : Op (TimerManager κ) Bool) (timer : Nat) (reading : Option (BitVec 64)) : State κ :=
  match op s.manager with
  | .ok true m => { s with manager := m, armed := Function.update s.armed timer (reading.getD (s.armed timer)) }
  | .ok false m => { s with manager := m }
  | .error f m => { s with manager := m, fault := some f }

/-- The timers that expire and recur are armed anew. -/
def State.rearmed (s : State κ) (now : BitVec 64) (p : Nat) : BitVec 64 :=
  if p ∈ s.manager.expired now ∧ (s.manager.objects p).recurring = true then now else s.armed p

/-- An address where an object can be created. -/
def State.Free (s : State κ) (p : Nat) : Prop := p ≠ Timer.null ∧ s.allocated p = false

instance (s : State κ) (p : Nat) : Decidable (s.Free p) := inferInstanceAs (Decidable (_ ∧ _))

/-- A pointer can be used, or an object created. -/
def Enabled (s : State κ) : Event κ → Prop
  | .addTimer p _ _ _ _ => s.Free p
  | .cancel p => s.allocated p = true
  | .refresh p _ => s.allocated p = true
  | .reset p _ _ _ => s.allocated p = true
  | .listExpiredCallback _ p => s.Free p
  | .release p => s.allocated p = true ∧ p ∉ s.manager.timers

instance (s : State κ) (e : Event κ) : Decidable (Enabled s e) := by
  cases e <;> unfold Enabled <;> infer_instance

def next (s : State κ) : Event κ → State κ
  | .addTimer p ms cb recurring now =>
    { s with
      manager := s.manager.addTimer p ms (some cb) recurring now
      allocated := Function.update s.allocated p true
      armed := Function.update s.armed p now }
  | .cancel p => s.call (Timer.cancel p) p none
  | .refresh p now => s.call (Timer.refresh p now) p (some now)
  | .reset p ms fromNow now => s.call (Timer.reset p ms fromNow now) p (if fromNow then some now else none)
  | .listExpiredCallback now p =>
    { s with manager := (s.manager.listExpiredCallback now p []).2, armed := s.rearmed now }
  | .release p => { s with allocated := Function.update s.allocated p false }

def machine (now : BitVec 64) : Machine (State κ) (Event κ) where
  start := initial now
  step s e := if Enabled s e then some (next s e) else none

/-- What holds in every state of a run. -/
structure Consistent (s : State κ) : Prop where
  ordered : s.manager.Ordered
  allocated : ∀ p ∈ s.manager.timers, s.allocated p = true
  nonnull : ∀ p, s.allocated p = true → p ≠ Timer.null
  mem_iff : ∀ p, s.allocated p = true → (p ∈ s.manager.timers ↔ (s.manager.objects p).callback.isSome)
  next_eq : ∀ p, s.allocated p = true → (s.manager.objects p).next = s.armed p + (s.manager.objects p).ms
  fault : s.fault = none

theorem Consistent.initial (now : BitVec 64) : Consistent (initial now : State κ) where
  ordered := List.Pairwise.nil
  allocated p hp := by cases hp
  nonnull p hp := by cases hp
  mem_iff p hp := by cases hp
  next_eq p hp := by cases hp
  fault := rfl

/-! ### One step -/

section

variable {s : State κ} {p : Nat}

/-- A timer in use has no callback, or has one and is in the set. -/
theorem Consistent.none_or_mem (h : Consistent s) (hp : s.allocated p = true) :
    (s.manager.objects p).callback = none ∨
      p ∈ s.manager.timers ∧ (s.manager.objects p).callback.isSome := by
  rcases Option.eq_none_or_eq_some (s.manager.objects p).callback with hnone | ⟨cb, hcb⟩
  · exact .inl hnone
  · have hsome : (s.manager.objects p).callback.isSome := by simp [hcb]
    exact .inr ⟨(h.mem_iff p hp).2 hsome, hsome⟩

/-- An address that is free is not in the set. -/
theorem Consistent.not_mem_of_free (h : Consistent s) (hfree : s.Free p) : p ∉ s.manager.timers := by
  intro hp
  have halloc := h.allocated p hp
  rw [hfree.2] at halloc
  cases halloc

/-- One timer is created or changes, and is in the set afterwards if it has a callback. -/
theorem Consistent.change (h : Consistent s) (hp : p ≠ Timer.null) {m : TimerManager κ} {t : Timer κ} {a : BitVec 64}
    (hobjects : m.objects = Function.update s.manager.objects p t) (hordered : m.Ordered)
    (hself : p ∈ m.timers ↔ t.callback.isSome) (hothers : ∀ q, q ≠ p → (q ∈ m.timers ↔ q ∈ s.manager.timers))
    (hnext : t.next = a + t.ms) :
    Consistent ⟨m, Function.update s.allocated p true, Function.update s.armed p a, s.fault⟩ := by
  have halloc : ∀ q, q ≠ p → Function.update s.allocated p true q = s.allocated q :=
    fun q hq => Function.update_of_ne hq _ _
  have hkept : ∀ q, q ≠ p → m.objects q = s.manager.objects q := by
    intro q hq
    rw [hobjects, Function.update_of_ne hq]
  have hchanged : m.objects p = t := by rw [hobjects, Function.update_self]
  constructor
  case ordered => exact hordered
  case allocated =>
    intro q hq
    by_cases heq : q = p
    · simp [heq]
    · show Function.update s.allocated p true q = true
      rw [halloc q heq]
      exact h.allocated q ((hothers q heq).1 hq)
  case nonnull =>
    intro q hq
    by_cases heq : q = p
    · rwa [heq]
    · exact h.nonnull q ((halloc q heq).symm.trans hq)
  case mem_iff =>
    intro q hq
    by_cases heq : q = p
    · subst heq
      simp only [hchanged]
      exact hself
    · simp only [hkept q heq]
      exact (hothers q heq).trans (h.mem_iff q ((halloc q heq).symm.trans hq))
  case next_eq =>
    intro q hq
    by_cases heq : q = p
    · subst heq
      simp only [hchanged, Function.update_self]
      exact hnext
    · simp only [hkept q heq, Function.update_of_ne heq]
      exact h.next_eq q ((halloc q heq).symm.trans hq)
  case fault => exact h.fault

theorem Consistent.addTimer (h : Consistent s) (hfree : s.Free p) (ms : BitVec 64) (cb : κ) (recurring : Bool)
    (now : BitVec 64) : Consistent (next s (.addTimer p ms cb recurring now)) := by
  have hordered : (s.manager.store p (Timer.new ms (some cb) recurring now)).Ordered :=
    h.ordered.store (h.not_mem_of_free hfree) _
  refine h.change hfree.1 TimerManager.addTimerLocked_objects hordered.addTimerLocked ?_ ?_ rfl
  · rw [TimerManager.addTimer, TimerManager.mem_addTimerLocked]
    simp [Timer.new]
  · intro q hq
    rw [TimerManager.addTimer, TimerManager.mem_addTimerLocked]
    simp [hq]

/-- What a member function of a timer does: nothing, or it changes its timer, which stays in the set, or loses its
callback and leaves. -/
inductive Called (s : State κ) (p : Nat) (cancelled : Bool) (s' : State κ) : Prop
  | same (hstate : s' = s) (hnone : cancelled = true → (s.manager.objects p).callback = none)
  | changed {m : TimerManager κ} {t : Timer κ} {a : BitVec 64}
    (hstate : s' = ⟨m, s.allocated, Function.update s.armed p a, s.fault⟩)
    (hobjects : m.objects = Function.update s.manager.objects p t) (hordered : m.Ordered)
    (hmem : p ∈ s.manager.timers)
    (hcallback : t.callback = if cancelled then none else (s.manager.objects p).callback)
    (htimers : ∀ q, q ∈ m.timers ↔ q ∈ s.manager.timers ∧ (q = p → cancelled = false))
    (hnext : t.next = a + t.ms)

private theorem call_same {op : Op (TimerManager κ) Bool} {reading : Option (BitVec 64)} {b : Bool}
    (hop : op s.manager = .ok b s.manager) (hreading : b = true → reading = none) : s.call op p reading = s := by
  unfold State.call
  rw [hop]
  cases b with
  | false => rfl
  | true =>
    rw [hreading rfl, Option.getD_none, Function.update_eq_self]

private theorem call_true {op : Op (TimerManager κ) Bool} {reading : Option (BitVec 64)} {m : TimerManager κ}
    (hop : op s.manager = .ok true m) : s.call op p reading =
      ⟨m, s.allocated, Function.update s.armed p (reading.getD (s.armed p)), s.fault⟩ := by
  unfold State.call
  rw [hop]

theorem Consistent.called_cancel (h : Consistent s) (hp : s.allocated p = true) :
    Called s p true (next s (.cancel p)) := by
  rcases h.none_or_mem hp with hnone | ⟨hmem, hsome⟩
  · exact .same (call_same (Timer.cancel_of_none hnone) (fun _ => rfl)) (fun _ => hnone)
  · obtain ⟨m, hop, hobjects, hordered, htimers⟩ := Timer.cancel_spec h.ordered hmem hsome
    refine .changed (call_true hop) hobjects hordered hmem rfl (fun q => ?_) (h.next_eq p hp)
    simp [htimers]

theorem Consistent.called_refresh (h : Consistent s) (hp : s.allocated p = true) (now : BitVec 64) :
    Called s p false (next s (.refresh p now)) := by
  rcases h.none_or_mem hp with hnone | ⟨hmem, hsome⟩
  · exact .same (call_same (Timer.refresh_of_none now hnone) (fun hb => by cases hb)) (fun _ => hnone)
  · obtain ⟨m, hop, hobjects, hordered, htimers⟩ := Timer.refresh_spec now h.ordered hmem hsome
    refine .changed (call_true hop) hobjects hordered hmem rfl (fun q => ?_) rfl
    simp [htimers]

/-- Without `from_now` the timer stays armed at the time it was, with another interval. -/
theorem Consistent.called_reset (h : Consistent s) (hp : s.allocated p = true) (ms : BitVec 64) (fromNow : Bool)
    (now : BitVec 64) : Called s p false (next s (.reset p ms fromNow now)) := by
  by_cases hsame : ms = (s.manager.objects p).ms ∧ fromNow = false
  · obtain ⟨hms, rfl⟩ := hsame
    exact .same (call_same (Timer.reset_of_same ms now hms) (fun _ => rfl)) (fun hc => by cases hc)
  · rcases h.none_or_mem hp with hnone | ⟨hmem, hsome⟩
    · exact .same (call_same (Timer.reset_of_none ms fromNow now hnone hsame) (fun hb => by cases hb)) (fun _ => hnone)
    · obtain ⟨m, hop, hobjects, hordered, htimers⟩ := Timer.reset_spec ms fromNow now h.ordered hmem hsome hsame
      refine .changed (call_true hop) hobjects hordered hmem rfl (fun q => ?_) ?_
      · simp [htimers]
      · cases fromNow with
        | true => rfl
        | false =>
          show (s.manager.objects p).next - (s.manager.objects p).ms + ms = s.armed p + ms
          rw [h.next_eq p hp, BitVec.add_sub_cancel]

section

variable {s' : State κ} {cancelled : Bool} {q : Nat}

theorem Called.consistent (hcalled : Called s p cancelled s') (h : Consistent s) (hp : s.allocated p = true) :
    Consistent s' := by
  cases hcalled with
  | same hstate hnone => rwa [hstate]
  | @changed m t a hstate hobjects hordered hmem hcallback htimers hnext =>
    have hsome := (h.mem_iff p hp).1 hmem
    have hself : p ∈ m.timers ↔ t.callback.isSome := by
      cases cancelled <;> simp [htimers, hmem, hcallback, hsome]
    have hchange := h.change (h.nonnull p hp) hobjects hordered hself (fun q hq => by simp [htimers, hq]) hnext
    have halloc : Function.update s.allocated p true = s.allocated := by
      rw [← hp, Function.update_eq_self]
    rwa [halloc, ← hstate] at hchange

/-- Only a timer that is cancelled leaves the set. -/
theorem Called.mem (hcalled : Called s p cancelled s') (hq : q ∈ s.manager.timers)
    (hstays : q = p → cancelled = false) : q ∈ s'.manager.timers := by
  cases hcalled with
  | same hstate hnone => rwa [hstate]
  | changed hstate hobjects hordered hmem hcallback htimers hnext =>
    rw [hstate]
    exact (htimers q).2 ⟨hq, hstays⟩

/-- No other timer changes. -/
theorem Called.objects (hcalled : Called s p cancelled s') :
    s'.allocated = s.allocated ∧ ∃ t, s'.manager.objects = Function.update s.manager.objects p t ∧
      t.callback = if cancelled then none else (s.manager.objects p).callback := by
  cases hcalled with
  | same hstate hnone =>
    rw [hstate]
    refine ⟨rfl, s.manager.objects p, (Function.update_eq_self _ _).symm, ?_⟩
    cases cancelled with
    | true => exact hnone rfl
    | false => rfl
  | changed hstate hobjects hordered hmem hcallback htimers hnext =>
    rw [hstate]
    exact ⟨rfl, _, hobjects, hcallback⟩

end

theorem Consistent.cancel (h : Consistent s) (hp : s.allocated p = true) : Consistent (next s (.cancel p)) :=
  (h.called_cancel hp).consistent h hp

theorem Consistent.refresh (h : Consistent s) (hp : s.allocated p = true) (now : BitVec 64) :
    Consistent (next s (.refresh p now)) :=
  (h.called_refresh hp now).consistent h hp

theorem Consistent.reset (h : Consistent s) (hp : s.allocated p = true) (ms : BitVec 64) (fromNow : Bool)
    (now : BitVec 64) : Consistent (next s (.reset p ms fromNow now)) :=
  (h.called_reset hp ms fromNow now).consistent h hp

/-- The probe is no timer of the set. -/
theorem Consistent.listExpired (h : Consistent s) (hfree : s.Free p) (now : BitVec 64) (callbacks : List (Option κ)) :
    ∃ m, s.manager.listExpiredCallback now p callbacks =
        (callbacks ++ (s.manager.expired now).map (fun q => (s.manager.objects q).callback), m) ∧
      m.Ordered ∧
      (∀ q, s.allocated q = true → m.objects q =
        if q ∈ s.manager.expired now then (s.manager.objects q).fired now else s.manager.objects q) ∧
      ∀ q, q ∈ m.timers ↔
        q ∈ s.manager.timers ∧ (q ∈ s.manager.expired now → (s.manager.objects q).recurring = true) := by
  have hnull : ∀ q ∈ s.manager.timers, q ≠ Timer.null := fun q hq => h.nonnull q (h.allocated q hq)
  have hne : ∀ q, s.allocated q = true → q ≠ p := by
    rintro q hq rfl
    rw [hfree.2] at hq
    cases hq
  obtain ⟨m, heq, hordered, hobjects, htimers⟩ :=
    TimerManager.listExpiredCallback_spec now callbacks h.ordered hnull hfree.1 (h.not_mem_of_free hfree)
  exact ⟨m, heq, hordered, fun q hq => hobjects q (hne q hq), htimers⟩

theorem Consistent.listExpiredCallback (h : Consistent s) (hfree : s.Free p) (now : BitVec 64) :
    Consistent (next s (.listExpiredCallback now p)) := by
  obtain ⟨m, heq, hordered, hobjects, htimers⟩ := h.listExpired hfree now []
  have hmanager : (next s (.listExpiredCallback now p)).manager = m := congrArg Prod.snd heq
  constructor
  case ordered => rwa [hmanager]
  case allocated =>
    rw [hmanager]
    intro q hq
    exact h.allocated q ((htimers q).1 hq).1
  case nonnull => exact h.nonnull
  case mem_iff =>
    rw [hmanager]
    intro q hq
    rw [htimers q, hobjects q hq]
    have hiff := h.mem_iff q hq
    by_cases hexpired : q ∈ s.manager.expired now
    · have hmem := (TimerManager.mem_expired.1 hexpired).1
      by_cases hrec : (s.manager.objects q).recurring = true
      · simp [hexpired, hrec, hmem, Timer.fired, hiff.1 hmem]
      · simp [hexpired, hrec, Timer.fired]
    · simp [hexpired, hiff]
  case next_eq =>
    rw [hmanager]
    intro q hq
    rw [hobjects q hq]
    show _ = s.rearmed now q + _
    unfold State.rearmed
    by_cases hexpired : q ∈ s.manager.expired now
    · by_cases hrec : (s.manager.objects q).recurring = true
      · simp [hexpired, hrec, Timer.fired]
      · simp [hexpired, hrec, Timer.fired, h.next_eq q hq]
    · simp [hexpired, h.next_eq q hq]
  case fault => exact h.fault

theorem Consistent.release (h : Consistent s) (hp : p ∉ s.manager.timers) : Consistent (next s (.release p)) := by
  have hstill : ∀ q, (next s (.release p)).allocated q = true → s.allocated q = true := by
    intro q hq
    by_cases heq : q = p
    · subst heq
      simp [next] at hq
    · simpa [next, Function.update_of_ne heq] using hq
  refine { h with allocated := ?_, nonnull := ?_, mem_iff := ?_, next_eq := ?_ }
  · intro q hq
    have hne : q ≠ p := fun heq => hp (heq ▸ hq)
    simpa [next, Function.update_of_ne hne] using h.allocated q hq
  · exact fun q hq => h.nonnull q (hstill q hq)
  · exact fun q hq => h.mem_iff q (hstill q hq)
  · exact fun q hq => h.next_eq q (hstill q hq)

/-- Only a cancelled timer, and a one-shot timer that expires, leaves the set. -/
def Leaves (s : State κ) (e : Event κ) (q : Nat) : Prop :=
  e = .cancel q ∨ ∃ now p, e = .listExpiredCallback now p ∧ q ∈ s.manager.expired now ∧
    (s.manager.objects q).recurring = false

theorem Consistent.mem_next (h : Consistent s) {e : Event κ} (henabled : Enabled s e) {q : Nat}
    (hq : q ∈ s.manager.timers) (hstays : ¬ Leaves s e q) : q ∈ (next s e).manager.timers := by
  cases e with
  | addTimer p ms cb recurring now => exact TimerManager.mem_addTimerLocked.2 (.inr hq)
  | cancel p => exact (h.called_cancel henabled).mem hq fun heq => absurd (.inl (congrArg _ heq.symm)) hstays
  | refresh p now => exact (h.called_refresh henabled now).mem hq fun _ => rfl
  | reset p ms fromNow now => exact (h.called_reset henabled ms fromNow now).mem hq fun _ => rfl
  | listExpiredCallback now p =>
    obtain ⟨m, heq, -, -, htimers⟩ := h.listExpired henabled now []
    have hmanager : (next s (.listExpiredCallback now p)).manager = m := congrArg Prod.snd heq
    rw [hmanager]
    refine (htimers q).2 ⟨hq, fun hexpired => ?_⟩
    by_contra hrec
    exact hstays (.inr ⟨now, p, rfl, hexpired, Bool.eq_false_iff.2 hrec⟩)
  | release p => exact hq

/-- The timer that a call is about. -/
def Event.timer : Event κ → Option Nat
  | .addTimer p _ _ _ _ => some p
  | .cancel p => some p
  | .refresh p _ => some p
  | .reset p _ _ _ => some p
  | .listExpiredCallback _ _ => none
  | .release p => some p

/-- A timer in use keeps its callback or loses it, and what is done to other timers leaves it where it is; it may
expire. -/
theorem Consistent.object_next (h : Consistent s) {e : Event κ} (henabled : Enabled s e) {q : Nat}
    (hq : s.allocated q = true) :
    (((next s e).manager.objects q).callback = (s.manager.objects q).callback ∨
        ((next s e).manager.objects q).callback = none) ∧
      (e.timer ≠ some q → (next s e).allocated q = true ∧
        ((next s e).manager.objects q = s.manager.objects q ∨
          ∃ now, (next s e).manager.objects q = (s.manager.objects q).fired now)) := by
  have hcall : ∀ p cancelled, Called s p cancelled (next s e) →
      (((next s e).manager.objects q).callback = (s.manager.objects q).callback ∨
        ((next s e).manager.objects q).callback = none) ∧
      (p ≠ q → (next s e).allocated q = true ∧
        ((next s e).manager.objects q = s.manager.objects q ∨
          ∃ now, (next s e).manager.objects q = (s.manager.objects q).fired now)) := by
    intro p cancelled hcalled
    obtain ⟨hallocated, t, hobjects, hcallback⟩ := hcalled.objects
    rw [hallocated, hobjects]
    by_cases heq : q = p
    · subst heq
      rw [Function.update_self, hcallback]
      refine ⟨?_, fun hne => absurd rfl hne⟩
      cases cancelled with
      | true => exact .inr rfl
      | false => exact .inl rfl
    · rw [Function.update_of_ne heq]
      exact ⟨.inl rfl, fun _ => ⟨hq, .inl rfl⟩⟩
  cases e with
  | addTimer p ms cb recurring now =>
    have hne : q ≠ p := by
      rintro rfl
      rw [henabled.2] at hq
      cases hq
    have hobject : (next s (.addTimer p ms cb recurring now)).manager.objects q = s.manager.objects q := by
      simp [next, TimerManager.addTimer, Function.update_of_ne hne]
    rw [hobject]
    exact ⟨.inl rfl, fun _ => ⟨(Function.update_of_ne hne _ _).trans hq, .inl rfl⟩⟩
  | cancel p =>
    exact (hcall p _ (h.called_cancel henabled)).imp_right fun hother hne => hother fun heq => hne (congrArg some heq)
  | refresh p now =>
    exact (hcall p _ (h.called_refresh henabled now)).imp_right
      fun hother hne => hother fun heq => hne (congrArg some heq)
  | reset p ms fromNow now =>
    exact (hcall p _ (h.called_reset henabled ms fromNow now)).imp_right
      fun hother hne => hother fun heq => hne (congrArg some heq)
  | listExpiredCallback now p =>
    obtain ⟨m, heq, -, hobjects, -⟩ := h.listExpired henabled now []
    have hmanager : (next s (.listExpiredCallback now p)).manager = m := congrArg Prod.snd heq
    rw [hmanager, hobjects q hq]
    by_cases hexpired : q ∈ s.manager.expired now
    · rw [if_pos hexpired]
      refine ⟨?_, fun _ => ⟨hq, .inr ⟨now, rfl⟩⟩⟩
      by_cases hrec : (s.manager.objects q).recurring = true
      · simp [Timer.fired, hrec]
      · simp [Timer.fired, hrec]
    · rw [if_neg hexpired]
      exact ⟨.inl rfl, fun _ => ⟨hq, .inl rfl⟩⟩
  | release p =>
    refine ⟨.inl rfl, fun hne => ?_⟩
    have hother : q ≠ p := fun heq => hne (congrArg some heq.symm)
    exact ⟨(Function.update_of_ne hother _ _).trans hq, .inl rfl⟩

/-- What is done to other timers arms no timer but one that recurs. -/
theorem Consistent.armed_next (h : Consistent s) {e : Event κ} (henabled : Enabled s e) {q : Nat}
    (hrec : (s.manager.objects q).recurring = false) (hother : e.timer ≠ some q) :
    (next s e).armed q = s.armed q := by
  have hcall : ∀ p cancelled, Called s p cancelled (next s e) → p ≠ q → (next s e).armed q = s.armed q := by
    intro p cancelled hcalled hne
    cases hcalled with
    | same hstate hnone => rw [hstate]
    | changed hstate hobjects hordered hmem hcallback htimers hnext =>
      rw [hstate]
      exact Function.update_of_ne (Ne.symm hne) _ _
  cases e with
  | addTimer p ms cb recurring now =>
    have hne : q ≠ p := fun heq => hother (congrArg some heq.symm)
    exact Function.update_of_ne hne _ _
  | cancel p => exact hcall p _ (h.called_cancel henabled) fun heq => hother (congrArg some heq)
  | refresh p now => exact hcall p _ (h.called_refresh henabled now) fun heq => hother (congrArg some heq)
  | reset p ms fromNow now =>
    exact hcall p _ (h.called_reset henabled ms fromNow now) fun heq => hother (congrArg some heq)
  | listExpiredCallback now p =>
    show s.rearmed now q = s.armed q
    simp [State.rearmed, hrec]
  | release p => rfl

/-- Only when the expired timers are taken out does something happen to timers that no pointer was given for. -/
theorem Consistent.object_eq (h : Consistent s) {e : Event κ} (henabled : Enabled s e) {q : Nat}
    (hother : e.timer ≠ some q) (hnot : ∀ now p, e ≠ .listExpiredCallback now p) :
    (next s e).manager.objects q = s.manager.objects q := by
  have hcall : ∀ p cancelled, Called s p cancelled (next s e) → p ≠ q →
      (next s e).manager.objects q = s.manager.objects q := by
    intro p cancelled hcalled hne
    obtain ⟨-, t, hobjects, -⟩ := hcalled.objects
    rw [hobjects, Function.update_of_ne (Ne.symm hne)]
  cases e with
  | addTimer p ms cb recurring now =>
    have hne : q ≠ p := fun heq => hother (congrArg some heq.symm)
    simp [next, TimerManager.addTimer, Function.update_of_ne hne]
  | cancel p => exact hcall p _ (h.called_cancel henabled) fun heq => hother (congrArg some heq)
  | refresh p now => exact hcall p _ (h.called_refresh henabled now) fun heq => hother (congrArg some heq)
  | reset p ms fromNow now =>
    exact hcall p _ (h.called_reset henabled ms fromNow now) fun heq => hother (congrArg some heq)
  | listExpiredCallback now p => exact absurd rfl (hnot now p)
  | release p => rfl

/-- What is done to other timers does not make a timer recur or stop it. -/
theorem Consistent.recurring_next (h : Consistent s) {e : Event κ} (henabled : Enabled s e) {q : Nat}
    (hq : s.allocated q = true) (hother : e.timer ≠ some q) :
    (next s e).allocated q = true ∧
      ((next s e).manager.objects q).recurring = (s.manager.objects q).recurring := by
  obtain ⟨hallocated, hsame | ⟨now, hfired⟩⟩ := (h.object_next henabled hq).2 hother
  · rw [hsame]
    exact ⟨hallocated, rfl⟩
  · rw [hfired]
    refine ⟨hallocated, ?_⟩
    unfold Timer.fired
    split <;> rfl

/-- A callback that is registered was registered before, or has just been added. -/
theorem Consistent.callback_next (h : Consistent s) {e : Event κ} (henabled : Enabled s e) {q : Nat} {cb : κ}
    (hq : (next s e).allocated q = true) (hcb : ((next s e).manager.objects q).callback = some cb) :
    s.allocated q = true ∧ (s.manager.objects q).callback = some cb ∨
      ∃ ms recurring now, e = .addTimer q ms cb recurring now := by
  have hkept : s.allocated q = true → s.allocated q = true ∧ (s.manager.objects q).callback = some cb := by
    intro halloc
    rcases (h.object_next henabled halloc).1 with hsame | hnone
    · exact ⟨halloc, hsame ▸ hcb⟩
    · rw [hnone] at hcb
      cases hcb
  cases e with
  | addTimer p ms cb' recurring now =>
    by_cases heq : q = p
    · subst heq
      have hnew : ((next s (.addTimer q ms cb' recurring now)).manager.objects q).callback = some cb' := by
        simp [next, TimerManager.addTimer, Timer.new]
      obtain rfl : cb' = cb := Option.some.inj (hnew.symm.trans hcb)
      exact .inr ⟨ms, recurring, now, rfl⟩
    · exact .inl (hkept ((Function.update_of_ne heq _ _).symm.trans hq))
  | cancel p => exact .inl (hkept ((congrFun (h.called_cancel henabled).objects.1 q).symm.trans hq))
  | refresh p now => exact .inl (hkept ((congrFun (h.called_refresh henabled now).objects.1 q).symm.trans hq))
  | reset p ms fromNow now =>
    exact .inl (hkept ((congrFun (h.called_reset henabled ms fromNow now).objects.1 q).symm.trans hq))
  | listExpiredCallback now p => exact .inl (hkept hq)
  | release p =>
    by_cases heq : q = p
    · subst heq
      have hfreed : (next s (.release q)).allocated q = false := Function.update_self _ _ _
      rw [hfreed] at hq
      cases hq
    · exact .inl (hkept ((Function.update_of_ne heq _ _).symm.trans hq))

/-- A cancelled timer is still in use, and has no callback. -/
theorem Consistent.callback_cancel (h : Consistent s) (hp : s.allocated p = true) :
    (next s (.cancel p)).allocated p = true ∧ ((next s (.cancel p)).manager.objects p).callback = none := by
  obtain ⟨hallocated, t, hobjects, hcallback⟩ := (h.called_cancel hp).objects
  rw [hallocated, hobjects, Function.update_self]
  exact ⟨hp, hcallback⟩

/-- Only registered callbacks are taken out. -/
theorem Consistent.mem_expired_callbacks (h : Consistent s) (hfree : s.Free p) {now : BitVec 64} {cb : κ}
    (hcb : some cb ∈ (s.manager.listExpiredCallback now p []).1) :
    ∃ q, s.allocated q = true ∧ (s.manager.objects q).callback = some cb := by
  obtain ⟨m, heq, -⟩ := h.listExpired hfree now []
  rw [heq, List.nil_append, List.mem_map] at hcb
  obtain ⟨q, hexpired, hq⟩ := hcb
  exact ⟨q, h.allocated q (TimerManager.mem_expired.1 hexpired).1, hq⟩

theorem Consistent.next (h : Consistent s) {e : Event κ} (henabled : Enabled s e) : Consistent (next s e) := by
  cases e with
  | addTimer p ms cb recurring now => exact h.addTimer henabled ms cb recurring now
  | cancel p => exact h.cancel henabled
  | refresh p now => exact h.refresh henabled now
  | reset p ms fromNow now => exact h.reset henabled ms fromNow now
  | listExpiredCallback now p => exact h.listExpiredCallback henabled now
  | release p => exact h.release henabled.2

end

theorem machine_step {now : BitVec 64} {s s' : State κ} {e : Event κ} (h : (machine now).step s e = some s') :
    Enabled s e ∧ next s e = s' := by
  simpa [machine] using h

theorem Consistent.step {now : BitVec 64} {s s' : State κ} {e : Event κ} (h : Consistent s)
    (hstep : (machine now).step s e = some s') : Consistent s' := by
  obtain ⟨henabled, rfl⟩ := machine_step hstep
  exact h.next henabled

theorem Consistent.of_reaches {now : BitVec 64} {s : State κ}
    (h : (machine now).Reaches Machine.any (machine now).start s) : Consistent s :=
  h.invariant (fun _ _ _ hs _ hstep => hs.step hstep) (Consistent.initial now)

/-- Whatever is done to the timers, every search finds its timer, and no iterator to nothing is erased. -/
theorem consistent_of_reaches {now : BitVec 64} {s : State κ}
    (h : (machine now).Reaches Machine.any (machine now).start s) :
    OrderedSet.Sorted (Timer.Before s.manager.objects) s.manager.timers ∧ s.manager.timers.Nodup ∧
      (∀ p ∈ s.manager.timers, s.allocated p = true) ∧
      (∀ p, s.allocated p = true →
        (p ∈ s.manager.timers ↔ (s.manager.objects p).callback.isSome) ∧
        (s.manager.objects p).next = s.armed p + (s.manager.objects p).ms ∧
        ((s.manager.objects p).callback.isSome → s.manager.timers[s.manager.find p]? = some p)) ∧
      s.fault = none ∧
      ∀ e s', (machine now).step s e = some s' → ∀ p ∈ s.manager.timers, p ∈ s'.manager.timers ∨ Leaves s e p := by
  have hs := Consistent.of_reaches h
  refine ⟨hs.ordered, OrderedSet.Sorted.nodup hs.ordered, hs.allocated, ?_, hs.fault, ?_⟩
  · intro p hp
    refine ⟨hs.mem_iff p hp, hs.next_eq p hp, ?_⟩
    intro hsome
    exact OrderedSet.getElem?_find hs.ordered ((hs.mem_iff p hp).2 hsome)
  · intro e s' hstep p hp
    obtain ⟨henabled, rfl⟩ := machine_step hstep
    by_cases hleaves : Leaves s e p
    · exact .inr hleaves
    · exact .inl (hs.mem_next henabled hp hleaves)

/-- Two timers with the same deadline, of which one recurs and is refreshed after it has expired. -/
private def twoTimers : List (Event Nat) :=
  [.addTimer 8 10 70 true 5, .addTimer 9 0 71 false 15, .listExpiredCallback 15 16, .refresh 8 20, .cancel 9]

theorem consistent_of_reaches_twoTimers :
    ∃ s, (machine 5).run (machine 5).start twoTimers = some s ∧ s.manager.timers = [8] ∧
      (s.manager.objects 8).next = s.armed 8 + (s.manager.objects 8).ms ∧ s.fault = none := by
  obtain ⟨s, hrun, htimers, halloc⟩ : ∃ s, (machine 5).run (machine 5).start twoTimers = some s ∧
      s.manager.timers = [8] ∧ s.allocated 8 = true := ⟨_, rfl, rfl, rfl⟩
  have hs := consistent_of_reaches (Machine.reaches_of_run hrun)
  exact ⟨s, hrun, htimers, (hs.2.2.2.1 8 halloc).2.1, hs.2.2.2.2.1⟩

/-- As long as the clock has not been set back, just the timers that are due fire, in the order of their deadlines. -/
theorem listExpiredCallback_of_reaches {start now : BitVec 64} {nowTimer : Nat} {s : State κ}
    (h : (machine start).Reaches Machine.any (machine start).start s) (hfree : s.Free nowTimer)
    (hforward : (s.manager.detectClockRollover now).1 = false) (callbacks : List (Option κ)) :
    ∃ (expired : List Nat) (m : TimerManager κ), s.manager.listExpiredCallback now nowTimer callbacks =
        (callbacks ++ expired.map (fun p => (s.manager.objects p).callback), m) ∧
      (∀ p, p ∈ expired ↔ p ∈ s.manager.timers ∧ (s.manager.objects p).next ≤ now) ∧ expired.Nodup ∧
      expired.Pairwise (fun p q => (s.manager.objects p).next ≤ (s.manager.objects q).next) ∧
      (∀ p ∈ expired, (s.manager.objects p).callback.isSome) ∧
      (∀ p ∈ expired, (s.manager.objects p).recurring = false →
        p ∉ m.timers ∧ m.objects p = { s.manager.objects p with callback := none }) ∧
      (∀ p ∈ expired, (s.manager.objects p).recurring = true →
        p ∈ m.timers ∧ m.objects p = { s.manager.objects p with next := now + (s.manager.objects p).ms }) ∧
      ∀ p, s.allocated p = true → p ∉ expired →
        m.objects p = s.manager.objects p ∧ (p ∈ m.timers ↔ p ∈ s.manager.timers) := by
  have hs := Consistent.of_reaches h
  obtain ⟨m, heq, -, hobjects, htimers⟩ := hs.listExpired hfree now callbacks
  have hsorted := TimerManager.expired_sorted now hs.ordered
  have hmem : ∀ p, p ∈ s.manager.expired now ↔ p ∈ s.manager.timers ∧ (s.manager.objects p).next ≤ now := by
    intro p
    simp [TimerManager.mem_expired, hforward]
  have halloc : ∀ p ∈ s.manager.expired now, s.allocated p = true := fun p hp => hs.allocated p ((hmem p).1 hp).1
  refine ⟨s.manager.expired now, m, heq, hmem, hsorted.nodup, ?_, ?_, ?_, ?_, ?_⟩
  · refine List.Pairwise.imp_of_mem ?_ hsorted
    intro p q hp _ hbefore
    exact hbefore.next_le (hs.nonnull p (halloc p hp))
  · intro p hp
    exact (hs.mem_iff p (halloc p hp)).1 ((hmem p).1 hp).1
  · intro p hp hrec
    refine ⟨fun hin => ?_, ?_⟩
    · have hrec' := ((htimers p).1 hin).2 hp
      rw [hrec] at hrec'
      cases hrec'
    · rw [hobjects p (halloc p hp), if_pos hp]
      simp [Timer.fired, hrec]
  · intro p hp hrec
    refine ⟨(htimers p).2 ⟨((hmem p).1 hp).1, fun _ => hrec⟩, ?_⟩
    rw [hobjects p (halloc p hp), if_pos hp]
    simp [Timer.fired, hrec]
  · intro p hp hnot
    refine ⟨?_, ?_⟩
    · rw [hobjects p hp, if_neg hnot]
    · simp [htimers p, hnot]

/-- Both timers of `twoTimers` are due at 15, one on each side of the probe. -/
theorem listExpiredCallback_of_reaches_twoTimers :
    ∃ s : State Nat, (machine 5).run (machine 5).start (twoTimers.take 2) = some s ∧
      (∃ (expired : List Nat) (m : TimerManager Nat), s.manager.listExpiredCallback 15 16 [] =
        ([] ++ expired.map (fun p => (s.manager.objects p).callback), m) ∧
        ∀ p, p ∈ expired ↔ p ∈ s.manager.timers ∧ (s.manager.objects p).next ≤ 15) ∧
      (s.manager.listExpiredCallback 15 16 []).1 = [some 70, some 71] := by
  obtain ⟨s, hrun, hfree, hforward, hlist⟩ : ∃ s : State Nat,
      (machine 5).run (machine 5).start (twoTimers.take 2) = some s ∧ s.Free 16 ∧
        (s.manager.detectClockRollover 15).1 = false ∧
        (s.manager.listExpiredCallback 15 16 []).1 = [some 70, some 71] :=
    ⟨_, rfl, ⟨by decide, rfl⟩, rfl, by decide⟩
  obtain ⟨expired, m, heq, hmem, -⟩ :=
    listExpiredCallback_of_reaches (Machine.reaches_of_run hrun) hfree hforward []
  exact ⟨s, hrun, ⟨expired, m, heq, hmem⟩, hlist⟩

end Timers

end AcidCompute

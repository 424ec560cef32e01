import AcidCompute.Base.Machine
import Mathlib.Logic.Function.Basic

/-!
# Configuration variables (`ConfigVar` in `acid/common/config.h`)

Any number of threads set a variable.  `set_value` calls the listeners with the read lock and stores the value with the
write lock, and between the two it has no lock, so that another thread may call the listeners in between.  Each section
of a lock is one event.

The listener calls and the stores are recorded in a history, the newest first.  It is consistent if every call is made
with the value that was stored last and announces the value that is stored next (`ConfigVar.Consistent`).
-/

namespace AcidCompute

namespace ConfigVar

variable {τ : Type}

/-- What a listener is called with, and what is stored. -/
inductive Change (τ : Type)
  | called (listener : Nat) (oldVal newVal : τ)
  | stored (value : τ)
  deriving DecidableEq, Repr

/-- Where a thread is in `set_value`. -/
inductive Setter (τ : Type)
  | outside
  -- in front of the section of the read lock
  | entering (value : τ)
  -- in front of the section of the write lock
  | between (value : τ)
  deriving DecidableEq, Repr

structure State (τ : Type) where
  -- `m_val`
  val : τ
  -- the keys of `m_callbacks`
  callbacks : List Nat
  -- `index` in `add_listener`
  index : Nat
  setters : Nat → Setter τ
  history : List (Change τ)

inductive Event (τ : Type)
  | setValue (thread : Nat) (value : τ)
  | notify (thread : Nat) (value : τ)
  | store (thread : Nat) (value : τ)
  | addListener
  | delListener (key : Nat)
  | clearListener
  deriving DecidableEq, Repr

/-- `ConfigVar(name, value)` -/
def new (value : τ) : State τ := ⟨value, [], 0, fun _ => .outside, []⟩

def getValue (s : State τ) : τ := s.val

namespace State

variable (s : State τ)

def setSetter (t : Nat) (setter : Setter τ) : State τ := { s with setters := Function.update s.setters t setter }

/-- The loop over `m_callbacks`. -/
def callAll (newVal : τ) : State τ :=
  { s with history := (s.callbacks.map fun i => .called i s.val newVal).reverse ++ s.history }

end State

/-- A thread is where it must be for the event. -/
def Enabled (s : State τ) : Event τ → Prop
  | .setValue t _ => s.setters t = .outside
  | .notify t v => s.setters t = .entering v
  | .store t v => s.setters t = .between v
  | _ => True

instance [DecidableEq τ] (s : State τ) : (e : Event τ) → Decidable (Enabled s e)
  | .setValue t _ => inferInstanceAs (Decidable (s.setters t = _))
  | .notify t _ => inferInstanceAs (Decidable (s.setters t = _))
  | .store t _ => inferInstanceAs (Decidable (s.setters t = _))
  | .addListener => inferInstanceAs (Decidable True)
  | .delListener _ => inferInstanceAs (Decidable True)
  | .clearListener => inferInstanceAs (Decidable True)

variable [DecidableEq τ]

def next (s : State τ) : Event τ → State τ
  | .setValue t v => s.setSetter t (.entering v)
  | .notify t v => if v = s.val then s.setSetter t .outside else (s.callAll v).setSetter t (.between v)
  | .store t v => { s.setSetter t .outside with val := v, history := .stored v :: s.history }
  | .addListener => { s with index := s.index + 1, callbacks := s.callbacks ++ [s.index + 1] }
  | .delListener key => { s with callbacks := s.callbacks.filter fun i => i ≠ key }
  | .clearListener => { s with callbacks := [] }

def machine (value : τ) : Machine (State τ) (Event τ) where
  start := new value
  step s e := if Enabled s e then some (next s e) else none

theorem step_eq_some {value : τ} {s s' : State τ} {e : Event τ} :
    (machine value).step s e = some s' ↔ Enabled s e ∧ next s e = s' := by
  simp [machine]

/-! ### Histories -/

omit [DecidableEq τ] in
/-- The value of the variable after a history. -/
def lastStored (value : τ) : List (Change τ) → τ
  | [] => value
  | .called _ _ _ :: h => lastStored value h
  | .stored v :: _ => v

omit [DecidableEq τ] in
/-- What the listeners have been told since the last store. -/
def announced : List (Change τ) → List τ
  | .called _ _ v :: h => v :: announced h
  | _ => []

/-- The last value that a listener has been called with. -/
def lastPassed (i : Nat) : List (Change τ) → Option τ
  | [] => none
  | .called j _ v :: h => if j = i then some v else lastPassed i h
  | .stored _ :: h => lastPassed i h

omit [DecidableEq τ] in
/-- The old value of each call is the one that was stored last, and its new value is the one that is stored next. -/
def Consistent (value : τ) : List (Change τ) → Prop
  | [] => True
  | .called _ oldVal _ :: h => oldVal = lastStored value h ∧ Consistent value h
  | .stored v :: h => (∀ w ∈ announced h, w = v) ∧ Consistent value h

/-- No thread is in `set_value`. -/
def Quiet (s : State τ) : Prop := ∀ t, s.setters t = .outside

/-- A thread calls the listeners only if no thread is about to store another value. -/
def Serial (s : State τ) : Event τ → Prop
  | .notify _ v => v ≠ s.val → ∀ t w, s.setters t = .between w → w = v
  | _ => True

section

omit [DecidableEq τ]

variable {value : τ} {s : State τ}

private theorem lastStored_calls (callbacks : List Nat) (oldVal newVal : τ) (h : List (Change τ)) :
    lastStored value ((callbacks.map fun i => .called i oldVal newVal).reverse ++ h) = lastStored value h := by
  induction callbacks generalizing h with
  | nil => rfl
  | cons i callbacks ih =>
    rw [List.map_cons, List.reverse_cons, List.append_assoc, ih]
    rfl

private theorem announced_calls (callbacks : List Nat) (oldVal newVal : τ) (h : List (Change τ)) :
    ∀ v ∈ announced ((callbacks.map fun i => .called i oldVal newVal).reverse ++ h), v = newVal ∨ v ∈ announced h := by
  induction callbacks generalizing h with
  | nil =>
    intro v hv
    exact .inr hv
  | cons i callbacks ih =>
    intro v hv
    rw [List.map_cons, List.reverse_cons, List.append_assoc] at hv
    rcases ih _ v hv with heq | hmem
    · exact .inl heq
    · exact List.mem_cons.1 hmem

private theorem consistent_calls (callbacks : List Nat) {oldVal : τ} (newVal : τ) {h : List (Change τ)}
    (hold : oldVal = lastStored value h) (hc : Consistent value h) :
    Consistent value ((callbacks.map fun i => .called i oldVal newVal).reverse ++ h) := by
  induction callbacks generalizing h with
  | nil => exact hc
  | cons i callbacks ih =>
    rw [List.map_cons, List.reverse_cons, List.append_assoc]
    exact ih hold ⟨hold, hc⟩

end

omit [DecidableEq τ] in
/-- All the listeners are called, and no others. -/
private theorem lastPassed_calls (callbacks : List Nat) (oldVal newVal : τ) (h : List (Change τ)) (i : Nat) :
    lastPassed i ((callbacks.map fun i => .called i oldVal newVal).reverse ++ h) =
      if i ∈ callbacks then some newVal else lastPassed i h := by
  induction callbacks generalizing h with
  | nil => simp
  | cons j callbacks ih =>
    rw [List.map_cons, List.reverse_cons, List.append_assoc, ih]
    by_cases hmem : i ∈ callbacks
    · simp [hmem]
    · by_cases hij : j = i
      · subst hij
        simp [hmem, lastPassed]
      · simp [hmem, lastPassed, hij, Ne.symm hij]

/-! ### Serial runs -/

/-- What holds while the listeners are called in turn. -/
structure InTurn (value : τ) (s : State τ) : Prop where
  consistent : Consistent value s.history
  val_eq : s.val = lastStored value s.history
  agree : ∀ t v t' v', s.setters t = .between v → s.setters t' = .between v' → v = v'
  announced : ∀ v ∈ announced s.history, ∃ t, s.setters t = .between v
  -- the listeners that have been called know the value that is about to be stored, or that has been
  passed : ∀ i ∈ s.callbacks, ∀ v, lastPassed i s.history = some v → ∀ t w, s.setters t = .between w → v = w
  passed_idle : ∀ i ∈ s.callbacks, ∀ v, lastPassed i s.history = some v →
    (∀ t w, s.setters t ≠ .between w) → v = s.val
  -- a key is not used again
  callbacks_le : ∀ i ∈ s.callbacks, i ≤ s.index
  fresh : ∀ i, s.index < i → lastPassed i s.history = none

variable {value : τ} {s : State τ} {t : Nat}

section

omit [DecidableEq τ]

theorem InTurn.new (value : τ) : InTurn value (new value) where
  consistent := trivial
  val_eq := rfl
  agree t v t' v' h := by cases h
  announced v hv := by cases hv
  passed i hi := by cases hi
  passed_idle i hi := by cases hi
  callbacks_le i hi := by cases hi
  fresh i _ := rfl

@[simp] theorem setSetter_self (setter : Setter τ) : (s.setSetter t setter).setters t = setter := by
  simp [State.setSetter]

theorem setSetter_of_ne (setter : Setter τ) {t' : Nat} (hne : t' ≠ t) :
    (s.setSetter t setter).setters t' = s.setters t' := by
  simp [State.setSetter, Function.update_of_ne hne]

/-- The other threads stay between their sections. -/
private theorem between_setSetter {setter : Setter τ} (hold : ∀ w, s.setters t ≠ .between w) {t' : Nat} {w : τ}
    (h : s.setters t' = .between w) : (s.setSetter t setter).setters t' = .between w := by
  have hne : t' ≠ t := by
    rintro rfl
    exact hold w h
  rw [setSetter_of_ne setter hne, h]

private theorem between_of_setSetter {setter : Setter τ} (hnew : ∀ w, setter ≠ .between w) {t' : Nat} {w : τ}
    (h : (s.setSetter t setter).setters t' = .between w) : s.setters t' = .between w := by
  by_cases heq : t' = t
  · subst heq
    rw [setSetter_self] at h
    exact absurd h (hnew w)
  · rwa [setSetter_of_ne setter heq] at h

/-- A thread that is not between its sections moves without getting there. -/
private theorem InTurn.move (h : InTurn value s) {setter : Setter τ} (hold : ∀ w, s.setters t ≠ .between w)
    (hnew : ∀ w, setter ≠ .between w) : InTurn value (s.setSetter t setter) where
  consistent := h.consistent
  val_eq := h.val_eq
  agree t' v t'' v' hv hv' := h.agree t' v t'' v' (between_of_setSetter hnew hv) (between_of_setSetter hnew hv')
  announced v hv := by
    obtain ⟨t', ht'⟩ := h.announced v hv
    exact ⟨t', between_setSetter hold ht'⟩
  passed i hi v hv t' w hw := h.passed i hi v hv t' w (between_of_setSetter hnew hw)
  passed_idle i hi v hv hidle :=
    h.passed_idle i hi v hv fun t' w hw => hidle t' w (between_setSetter hold hw)
  callbacks_le := h.callbacks_le
  fresh := h.fresh

private theorem InTurn.callAll (h : InTurn value s) {v : τ} (hold : ∀ w, s.setters t ≠ .between w)
    (hserial : ∀ t w, s.setters t = .between w → w = v) : InTurn value ((s.callAll v).setSetter t (.between v)) := by
  have hself : ((s.callAll v).setSetter t (.between v)).setters t = .between v := setSetter_self _
  have hbetween : ∀ t' w, ((s.callAll v).setSetter t (.between v)).setters t' = .between w → w = v := by
    intro t' w hw
    by_cases heq : t' = t
    · subst heq
      rw [hself] at hw
      cases hw
      rfl
    · rw [setSetter_of_ne _ heq] at hw
      exact hserial t' w hw
  have hlast : ∀ i, lastPassed i (s.callAll v).history = if i ∈ s.callbacks then some v else lastPassed i s.history :=
    lastPassed_calls s.callbacks s.val v s.history
  constructor
  case consistent => exact consistent_calls s.callbacks v h.val_eq h.consistent
  case val_eq => exact h.val_eq.trans (lastStored_calls s.callbacks s.val v s.history).symm
  case agree =>
    intro t' w t'' w' hw hw'
    rw [hbetween t' w hw, hbetween t'' w' hw']
  case announced =>
    intro w hw
    rcases announced_calls s.callbacks s.val v s.history w hw with rfl | hmem
    · exact ⟨t, hself⟩
    · obtain ⟨t', ht'⟩ := h.announced w hmem
      exact ⟨t', between_setSetter hold ht'⟩
  case passed =>
    intro i hi w hw t' w' hw'
    have hmem : i ∈ s.callbacks := hi
    have heq := (hlast i).symm.trans hw
    rw [if_pos hmem] at heq
    cases heq
    exact (hbetween t' w' hw').symm
  case passed_idle =>
    intro i hi w hw hidle
    exact absurd hself (hidle t v)
  case callbacks_le => exact h.callbacks_le
  case fresh =>
    intro i hi
    have hmem : i ∉ s.callbacks := fun hmem => absurd (h.callbacks_le i hmem) (Nat.not_le.2 hi)
    have heq := hlast i
    rw [if_neg hmem, h.fresh i hi] at heq
    exact heq

private theorem InTurn.store (h : InTurn value s) {v : τ} (hv : s.setters t = .between v) :
    InTurn value { s.setSetter t .outside with val := v, history := .stored v :: s.history } := by
  have hothers : ∀ t' w, (s.setSetter t .outside).setters t' = .between w → w = v := fun t' w hw =>
    h.agree t' w t v (between_of_setSetter (fun w hw => by cases hw) hw) hv
  constructor
  case consistent =>
    refine ⟨?_, h.consistent⟩
    intro w hw
    obtain ⟨t', ht'⟩ := h.announced w hw
    exact h.agree t' w t v ht' hv
  case val_eq => rfl
  case agree =>
    intro t' w t'' w' hw hw'
    rw [hothers t' w hw, hothers t'' w' hw']
  case announced =>
    intro w hw
    cases hw
  case passed =>
    intro i hi w hw t' w' hw'
    rw [hothers t' w' hw']
    exact h.passed i hi w hw t v hv
  case passed_idle =>
    intro i hi w hw _
    exact h.passed i hi w hw t v hv
  case callbacks_le => exact h.callbacks_le
  case fresh => exact h.fresh

/-- Listeners are removed. -/
private theorem InTurn.forget (h : InTurn value s) {callbacks : List Nat} (hsub : ∀ i ∈ callbacks, i ∈ s.callbacks) :
    InTurn value { s with callbacks := callbacks } where
  consistent := h.consistent
  val_eq := h.val_eq
  agree := h.agree
  announced := h.announced
  passed i hi := h.passed i (hsub i hi)
  passed_idle i hi := h.passed_idle i (hsub i hi)
  callbacks_le i hi := h.callbacks_le i (hsub i hi)
  fresh := h.fresh

private theorem InTurn.addListener (h : InTurn value s) :
    InTurn value { s with index := s.index + 1, callbacks := s.callbacks ++ [s.index + 1] } := by
  have hnone : lastPassed (s.index + 1) s.history = none := h.fresh _ (Nat.lt_succ_self _)
  -- the new listener has not been called
  have hcalled : ∀ i ∈ s.callbacks ++ [s.index + 1], ∀ v, lastPassed i s.history = some v → i ∈ s.callbacks := by
    intro i hi v hv
    rcases List.mem_append.1 hi with hmem | hnew
    · exact hmem
    · rw [List.mem_singleton.1 hnew, hnone] at hv
      cases hv
  constructor
  case consistent => exact h.consistent
  case val_eq => exact h.val_eq
  case agree => exact h.agree
  case announced => exact h.announced
  case passed => exact fun i hi v hv => h.passed i (hcalled i hi v hv) v hv
  case passed_idle => exact fun i hi v hv => h.passed_idle i (hcalled i hi v hv) v hv
  case callbacks_le =>
    intro i hi
    rcases List.mem_append.1 hi with hmem | hnew
    · exact Nat.le_succ_of_le (h.callbacks_le i hmem)
    · exact Nat.le_of_eq (List.mem_singleton.1 hnew)
  case fresh => exact fun i hi => h.fresh i (Nat.lt_of_succ_lt hi)

end

theorem InTurn.next {e : Event τ} (h : InTurn value s) (he : Enabled s e) (hserial : Serial s e) :
    InTurn value (next s e) := by
  cases e with
  | setValue t v =>
    have hout : s.setters t = .outside := he
    exact h.move (by simp [hout]) (fun w hw => by cases hw)
  | notify t v =>
    have hentering : s.setters t = .entering v := he
    unfold ConfigVar.next
    dsimp only
    by_cases heq : v = s.val
    · rw [if_pos heq]
      exact h.move (by simp [hentering]) (fun w hw => by cases hw)
    · rw [if_neg heq]
      exact h.callAll (by simp [hentering]) (hserial heq)
  | store t v => exact h.store he
  | addListener => exact h.addListener
  | delListener key => exact h.forget fun i hi => (List.mem_filter.1 hi).1
  | clearListener => exact h.forget fun i hi => by cases hi

theorem inTurn_of_reaches (h : (machine value).Reaches Serial (new value) s) : InTurn value s := by
  refine h.invariant ?_ (InTurn.new value)
  intro s e s' hs hserial hstep
  obtain ⟨he, rfl⟩ := step_eq_some.1 hstep
  exact hs.next he hserial

/-- As long as the listeners are called in turn, their calls are a consistent history, and when nobody is in `set_value`
the last value that a listener has been told is the value of the variable. -/
theorem consistent_of_serial (h : (machine value).Reaches Serial (new value) s) :
    Consistent value s.history ∧
      (Quiet s → ∀ i ∈ s.callbacks, ∀ v, lastPassed i s.history = some v → v = getValue s) := by
  have hs := inTurn_of_reaches h
  refine ⟨hs.consistent, ?_⟩
  intro hquiet i hi v hv
  exact hs.passed_idle i hi v hv fun t w hw => by simp [hquiet t] at hw

/-! ### Two setters -/

/-- A thread sets a variable while nobody else does. -/
theorem reaches_setValue (hquiet : Quiet s) (t : Nat) {v : τ} (hne : v ≠ s.val) :
    ∃ s', (machine value).Reaches Serial s s' ∧ Quiet s' ∧ s'.val = v ∧ s'.callbacks = s.callbacks ∧
      s'.history = .stored v :: (s.callAll v).history := by
  let s₁ := s.setSetter t (.entering v)
  let s₂ := (s₁.callAll v).setSetter t (.between v)
  have hentering : s₁.setters t = .entering v := setSetter_self _
  have hnotify : next s₁ (.notify t v) = s₂ := if_neg hne
  have hserial : Serial s₁ (.notify t v) := by
    intro _ t' w hw
    have hold : s.setters t' = .between w := between_of_setSetter (fun w hw => by cases hw) hw
    rw [hquiet t'] at hold
    cases hold
  refine ⟨next s₂ (.store t v), ?_, ?_, rfl, rfl, rfl⟩
  · refine Machine.Reaches.head (e := .setValue t v) trivial (step_eq_some.2 ⟨hquiet t, rfl⟩) ?_
    refine Machine.Reaches.head (e := .notify t v) hserial (step_eq_some.2 ⟨hentering, hnotify⟩) ?_
    exact Machine.Reaches.single (e := .store t v) trivial (step_eq_some.2 ⟨setSetter_self _, rfl⟩)
  · intro t'
    by_cases heq : t' = t
    · subst heq
      exact setSetter_self _
    · simp [s₁, s₂, next, State.setSetter, State.callAll, heq, hquiet t']

/-- One thread, and then another, sets a variable with one listener. -/
theorem consistent_of_serial_two :
    ∃ s, (machine 0).Reaches Serial (new 0) s ∧ s.history = [.stored 2, .called 1 1 2, .stored 1, .called 1 0 1] ∧
      Consistent 0 s.history ∧ ∀ v, lastPassed 1 s.history = some v → v = getValue s := by
  have hadd : (machine 0).step (new 0) .addListener = some ⟨0, [1], 1, fun _ => .outside, []⟩ := rfl
  obtain ⟨s₁, hreach₁, hquiet₁, hval₁, hcallbacks₁, hhistory₁⟩ :
      ∃ s₁ : State Nat, (machine 0).Reaches Serial ⟨0, [1], 1, fun _ => .outside, []⟩ s₁ ∧ Quiet s₁ ∧ s₁.val = 1 ∧
        s₁.callbacks = [1] ∧ s₁.history = [.stored 1, .called 1 0 1] := reaches_setValue (fun _ => rfl) 1 (by decide)
  obtain ⟨s₂, hreach₂, hquiet₂, -, hcallbacks₂, hhistory₂⟩ : ∃ s₂, (machine 0).Reaches Serial s₁ s₂ ∧ Quiet s₂ ∧
      s₂.val = 2 ∧ s₂.callbacks = s₁.callbacks ∧ s₂.history = .stored 2 :: (s₁.callAll 2).history :=
    reaches_setValue hquiet₁ 2 (by rw [hval₁]; decide)
  have hreach : (machine 0).Reaches Serial (new 0) s₂ :=
    (Machine.Reaches.head (e := .addListener) trivial hadd hreach₁).trans hreach₂
  have hagree := consistent_of_serial hreach
  refine ⟨s₂, hreach, ?_, hagree.1, ?_⟩
  · rw [hhistory₂, State.callAll, hcallbacks₁, hval₁, hhistory₁]
    rfl
  · exact hagree.2 hquiet₂ 1 (by rw [hcallbacks₂, hcallbacks₁]; decide)

/-- Two threads call the listener in one order and store in the other. -/
theorem not_consistent_crossed :
    ∃ s, (machine 0).Reaches Machine.any (new 0) s ∧ Quiet s ∧ ¬ Consistent 0 s.history ∧ 1 ∈ s.callbacks ∧
      lastPassed 1 s.history = some 2 ∧ getValue s = 1 := by
  obtain ⟨s, hrun⟩ : ∃ s, (machine 0).run (new 0) [.addListener, .setValue 1 1, .setValue 2 2, .notify 1 1, .notify 2 2,
      .store 2 2, .store 1 1] = some s := ⟨_, rfl⟩
  have hreach := Machine.reaches_of_run hrun
  have hhistory : s.history = [.stored 1, .stored 2, .called 1 0 2, .called 1 0 1] := by
    cases hrun
    rfl
  refine ⟨s, hreach, ?_, ?_, ?_, ?_, ?_⟩
  · intro t
    cases hrun
    by_cases h1 : t = 1
    · subst h1
      rfl
    · by_cases h2 : t = 2
      · subst h2
        rfl
      · simp [next, State.setSetter, State.callAll, new, h1, h2]
  · rw [hhistory]
    intro hc
    have hne : (1 : Nat) = 2 := hc.2.1 1 (by decide)
    exact absurd hne (by decide)
  · cases hrun
    decide
  · rw [hhistory]
    decide
  · cases hrun
    rfl

end ConfigVar

end AcidCompute

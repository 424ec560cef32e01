import AcidCompute.Base.Machine
import AcidCompute.Common.Hook
import AcidCompute.IOManager.Basic

/-!
# Descriptors that are opened and closed (`socket`, `accept` and `close` in `acid/common/hook.cpp`)

The kernel gives a number out again as soon as its file is closed.  The hooks make a context for a number after it has
been given out, and `close` wakes the fibers that wait for the number, removes the context and closes the file, in this
order and with other workers in between.  So the contexts belong to the files that are open, as long as every file is
closed through the hook (`Descriptors.context_of_reaches`).

A call knows its file by the number only: it registers the number with the `epoll` of its `IOManager`, which forgets the
file when it is closed, while the `FdContext` of the number keeps the registration.
-/

namespace AcidCompute

namespace FdManager

variable {m : FdManager} {fd fd' : Nat}

/-- `del` -/
def del (m : FdManager) (fd : Nat) : FdManager :=
  ⟨m.fdCtxs.set fd none, by rw [List.length_set]; exact m.le_length⟩

theorem get_del_self : (m.del fd).get fd = none := by
  rw [get, del]
  by_cases hlt : fd < m.fdCtxs.length
  · rw [List.getElem?_set_self hlt]
    rfl
  · rw [List.getElem?_eq_none (by rw [List.length_set]; omega)]
    rfl

theorem get_del_of_ne (hne : fd ≠ fd') : (m.del fd).get fd' = m.get fd' := by
  rw [get, del, List.getElem?_set_ne hne, get]

theorem get_set_of_ne (hne : fd ≠ fd') (ctx : FdCtx) : (m.set fd ctx).get fd' = m.get fd' := by
  rw [get, set, List.getElem?_set_ne hne, get]

private theorem join_replicate (n i : Nat) : (List.replicate n (none : Option FdCtx))[i]?.join = none := by
  cases hget : (List.replicate n (none : Option FdCtx))[i]? with
  | none => rfl
  | some x =>
    rw [List.eq_of_mem_replicate (List.mem_of_getElem? hget)]
    rfl

theorem get_new : new.get fd = none := join_replicate 64 fd

/-- More room makes no contexts. -/
theorem get_reserve : (m.reserve fd).get fd' = m.get fd' := by
  unfold reserve
  split
  case isTrue => rfl
  case isFalse hge =>
    rw [get, get]
    dsimp only
    by_cases hlt : fd' < m.fdCtxs.length
    · rw [List.getElem?_append_left hlt]
    · rw [List.getElem?_append_right (by omega), List.getElem?_eq_none (l := m.fdCtxs) (by omega), join_replicate]
      rfl

end FdManager

namespace Files

variable {C : SystemCalls} {s : Files} {fd fd' : Nat}

theorem get_create_self (stat : Option Bool) : ((s.create C stat fd).manager.get fd).isSome = true := by
  unfold create
  split
  case h_1 ctx hget => rw [hget]; rfl
  case h_2 =>
    dsimp only
    rw [FdManager.get_set (FdManager.lt_reserve _ _)]
    rfl

theorem get_create_of_ne (stat : Option Bool) (hne : fd ≠ fd') :
    (s.create C stat fd).manager.get fd' = s.manager.get fd' := by
  unfold create
  split
  case h_1 => rfl
  case h_2 =>
    dsimp only
    rw [FdManager.get_set_of_ne hne, FdManager.get_reserve]

end Files

namespace Descriptors

inductive Stage
  | closed
  -- the system call has returned the number
  | opened
  -- `get` has made its context
  | ready
  -- in `close`, behind `cancel_all` and behind `del`
  | cancelled
  | deleted
  deriving DecidableEq, Repr

inductive Phase
  -- before the system call
  | calling
  -- before `add_event`
  | blocked
  | waiting
  | returned
  deriving DecidableEq, Repr

/-- A hooked call for a number. -/
structure Call where
  phase : Phase
  fd : Nat
  event : IOManager.Event
  -- the `IOManager` of the fiber
  iom : Nat
  -- the file that the number named when the call was made, and the one whose event has been registered
  file : Nat
  registered : Nat
  -- a system call has been made for another file
  astray : Bool
  deriving DecidableEq, Repr

structure State where
  files : Files
  stages : Nat → Stage
  -- the file that a number names, and the number of the next file
  file : Nat → Nat
  fresh : Nat
  -- the file that a context has been made for
  created : Nat → Nat
  calls : Nat → Call
  begun : Nat

inductive Event
  | socket (fd : Nat) (flags : BitVec 32)
  -- `get` with `auto_create`, and what `fstat` finds
  | get (fd : Nat) (stat : Option Bool)
  -- the three steps of `close`, in a fiber of the `IOManager` if there is one
  | cancelAll (fd : Nat) (iom : Option Nat)
  | del (fd : Nat)
  | close (fd : Nat)
  -- `close` in a thread without hooks, or for a number without a context
  | closeF (fd : Nat)
  | call (fd : Nat) (event : IOManager.Event) (iom : Nat)
  | sysCall (c : Nat) (blocks : Bool)
  | addEvent (c : Nat)
  | trigger (c : Nat)
  -- `cancel_event` by the timer of the call
  | cancelEvent (c : Nat)
  deriving DecidableEq, Repr

namespace State

variable (s : State)

/-- The number names a file other than the given one. -/
def Renamed (fd file : Nat) : Prop := s.stages fd ≠ .closed ∧ s.file fd ≠ file

instance (fd file : Nat) : Decidable (s.Renamed fd file) := inferInstanceAs (Decidable (_ ∧ _))

/-- The events of the file come. -/
def Watched (call : Call) : Prop := s.stages call.fd ≠ .closed ∧ s.file call.fd = call.registered

instance (call : Call) : Decidable (s.Watched call) := inferInstanceAs (Decidable (_ ∧ _))

/-- The call has not noticed that its file may be closed. -/
def Uses (c fd : Nat) : Prop := (s.calls c).fd = fd ∧ (s.calls c).phase ≠ .returned

instance (c fd : Nat) : Decidable (s.Uses c fd) := inferInstanceAs (Decidable (_ ∧ _))

/-- `cancel_all` wakes what waits in its `IOManager`, if `epoll_ctl` finds the file of the number. -/
def wake (fd : Nat) (iom : Option Nat) (call : Call) : Call :=
  if call.phase = .waiting ∧ call.fd = fd ∧ iom = some call.iom ∧ s.file fd = call.registered then
    { call with phase := .calling }
  else call

/-- The registrations of the `FdContext` of a call. -/
def Registered (call : Call) (d : Nat) : Prop :=
  (s.calls d).phase = .waiting ∧ (s.calls d).fd = call.fd ∧ (s.calls d).iom = call.iom

instance (call : Call) (d : Nat) : Decidable (s.Registered call d) := inferInstanceAs (Decidable (_ ∧ _))

/-- `epoll_ctl` finds the file: it is open, and `EPOLL_CTL_MOD` is for a file that has been added. -/
def Found (call : Call) : Prop :=
  s.stages call.fd ≠ .closed ∧ ∀ d < s.begun, s.Registered call d → (s.calls d).registered = s.file call.fd

instance (call : Call) : Decidable (s.Found call) := inferInstanceAs (Decidable (_ ∧ _))

end State

def Enabled (s : State) : Event → Prop
  | .socket fd _ => s.stages fd = .closed
  | .get fd _ => s.stages fd = .opened
  | .cancelAll fd _ => s.stages fd = .ready
  | .del fd => s.stages fd = .cancelled
  | .close fd => s.stages fd = .deleted
  | .closeF fd => s.stages fd = .opened ∨ s.stages fd = .ready
  | .call fd _ _ => s.stages fd ≠ .closed ∧ (s.files.manager.get fd).isSome = true
  | .sysCall c _ => c < s.begun ∧ (s.calls c).phase = .calling
  -- with the assertion that the event is not registered
  | .addEvent c => c < s.begun ∧ (s.calls c).phase = .blocked ∧
      ∀ d < s.begun, s.Registered (s.calls c) d → (s.calls d).event ≠ (s.calls c).event
  | .trigger c | .cancelEvent c => c < s.begun ∧ (s.calls c).phase = .waiting ∧ s.Watched (s.calls c)

instance (s : State) : (e : Event) → Decidable (Enabled s e)
  | .socket fd _ => inferInstanceAs (Decidable (s.stages fd = .closed))
  | .get fd _ => inferInstanceAs (Decidable (s.stages fd = .opened))
  | .cancelAll fd _ => inferInstanceAs (Decidable (s.stages fd = .ready))
  | .del fd => inferInstanceAs (Decidable (s.stages fd = .cancelled))
  | .close fd => inferInstanceAs (Decidable (s.stages fd = .deleted))
  | .closeF fd => inferInstanceAs (Decidable (s.stages fd = .opened ∨ s.stages fd = .ready))
  | .call fd _ _ => inferInstanceAs (Decidable (s.stages fd ≠ .closed ∧ (s.files.manager.get fd).isSome = true))
  | .sysCall c _ => inferInstanceAs (Decidable (c < s.begun ∧ (s.calls c).phase = .calling))
  | .addEvent c => inferInstanceAs (Decidable (c < s.begun ∧ (s.calls c).phase = .blocked ∧
      ∀ d < s.begun, s.Registered (s.calls c) d → (s.calls d).event ≠ (s.calls c).event))
  | .trigger c | .cancelEvent c =>
    inferInstanceAs (Decidable (c < s.begun ∧ (s.calls c).phase = .waiting ∧ s.Watched (s.calls c)))

namespace State

variable (s : State)

def setStage (fd : Nat) (stage : Stage) : State := { s with stages := Function.update s.stages fd stage }

def setCall (c : Nat) (call : Call) : State := { s with calls := Function.update s.calls c call }

end State

variable (C : SystemCalls)

def next (s : State) : Event → State
  | .socket fd flags =>
    { s.setStage fd .opened with
      files := { s.files with flags := Function.update s.files.flags fd flags }
      file := Function.update s.file fd s.fresh, fresh := s.fresh + 1 }
  | .get fd stat =>
    { s.setStage fd .ready with
      files := s.files.create C stat fd
      created :=
        if (s.files.manager.get fd).isSome then s.created else Function.update s.created fd (s.file fd) }
  | .cancelAll fd iom => { s.setStage fd .cancelled with calls := fun c => s.wake fd iom (s.calls c) }
  | .del fd => { s.setStage fd .deleted with files := { s.files with manager := s.files.manager.del fd } }
  | .close fd => s.setStage fd .closed
  | .closeF fd => s.setStage fd .closed
  | .call fd event iom =>
    { s.setCall s.begun ⟨.calling, fd, event, iom, s.file fd, 0, false⟩ with begun := s.begun + 1 }
  | .sysCall c blocks =>
    s.setCall c { s.calls c with
      -- `EBADF` if the file is closed
      phase := if blocks ∧ s.stages (s.calls c).fd ≠ .closed then .blocked else .returned
      astray := (s.calls c).astray || decide (s.Renamed (s.calls c).fd (s.calls c).file) }
  | .addEvent c =>
    s.setCall c { s.calls c with
      -- `do_io` returns if `add_event` fails
      phase := if s.Found (s.calls c) then .waiting else .returned
      registered := s.file (s.calls c).fd
      astray := (s.calls c).astray || decide (s.Renamed (s.calls c).fd (s.calls c).file) }
  | .trigger c => s.setCall c { s.calls c with phase := .calling }
  | .cancelEvent c => s.setCall c { s.calls c with phase := .returned }

/-- No number is given out and no call is made. -/
def initial : State where
  files := ⟨FdManager.new, fun _ => 0⟩
  stages := fun _ => .closed
  file := fun _ => 0
  fresh := 0
  created := fun _ => 0
  calls := fun _ => ⟨.returned, 0, .read, 0, 0, 0, false⟩
  begun := 0

def machine : Machine State Event where
  start := initial
  step s e := if Enabled s e then some (next C s e) else none

variable {C} {s s' : State} {e : Event}

theorem machine_step (h : (machine C).step s e = some s') : Enabled s e ∧ next C s e = s' := by
  simpa [machine] using h

theorem step_of_enabled (h : Enabled s e) : (machine C).step s e = some (next C s e) := if_pos h

@[simp] theorem setStage_stages (s : State) (fd fd' : Nat) (stage : Stage) :
    (s.setStage fd stage).stages fd' = if fd' = fd then stage else s.stages fd' := by
  simp [State.setStage, Function.update_apply]

/-! ### Every run -/

/-- Files have numbers below the next one. -/
structure Numbered (s : State) : Prop where
  file : ∀ fd, s.stages fd ≠ .closed → s.file fd < s.fresh
  created : ∀ fd, (s.files.manager.get fd).isSome = true → s.created fd < s.fresh
  call : ∀ c < s.begun, (s.calls c).file < s.fresh
  registered : ∀ c, (s.calls c).phase = .waiting → (s.calls c).registered < s.fresh
  begun : ∀ c, s.begun ≤ c → (s.calls c).phase = .returned
  -- `get` returns a context, and only `del` removes it
  context : ∀ fd, s.stages fd = .ready ∨ s.stages fd = .cancelled → (s.files.manager.get fd).isSome = true

theorem Numbered.initial : Numbered initial where
  file fd h := absurd rfl h
  created fd h := by
    have hnone : Descriptors.initial.files.manager.get fd = none := FdManager.get_new
    rw [hnone] at h
    cases h
  call c hc := absurd hc (Nat.not_lt_zero c)
  registered c h := by cases h
  begun c _ := rfl
  context fd h := by rcases h with h | h <;> cases h

/-- What a step makes of one call. -/
theorem setCall_calls (s : State) (c d : Nat) (call : Call) :
    (s.setCall c call).calls d = if d = c then call else s.calls d := by
  simp [State.setCall, Function.update_apply]

theorem wake_kept (s : State) (fd : Nat) (iom : Option Nat) (call : Call) :
    (s.wake fd iom call).fd = call.fd ∧ (s.wake fd iom call).iom = call.iom ∧ (s.wake fd iom call).file = call.file ∧
      (s.wake fd iom call).registered = call.registered ∧ (s.wake fd iom call).astray = call.astray ∧
      ((s.wake fd iom call).phase = .waiting → call.phase = .waiting) ∧
      ((s.wake fd iom call).phase = .returned ↔ call.phase = .returned) := by
  unfold State.wake
  split
  case isTrue h => simp [h.1]
  case isFalse => simp

/-- A step that changes one call only. -/
private theorem Numbered.setCall (h : Numbered s) {c : Nat} {call : Call} (hc : c < s.begun)
    (hfile : call.file = (s.calls c).file) (hregistered : call.phase = .waiting → call.registered < s.fresh) :
    Numbered (s.setCall c call) := by
  refine { h with call := ?_, registered := ?_, begun := ?_ }
  · intro d hd
    rw [setCall_calls]
    split
    · rw [hfile]
      exact h.call c hc
    · exact h.call d hd
  · intro d
    rw [setCall_calls]
    split
    · exact hregistered
    · exact h.registered d
  · intro d hd
    have hd : s.begun ≤ d := hd
    rw [setCall_calls, if_neg (by omega)]
    exact h.begun d hd

/-- A step of one number, which stays as it is otherwise. -/
private theorem Numbered.setStage (h : Numbered s) {fd : Nat} {stage : Stage} (hopen : s.stages fd ≠ .closed)
    (hcontext : stage = .ready ∨ stage = .cancelled → (s.files.manager.get fd).isSome = true) :
    Numbered (s.setStage fd stage) := by
  refine { h with file := ?_, context := ?_ }
  · intro fd' hfd'
    rw [setStage_stages] at hfd'
    split at hfd'
    case isTrue heq => exact heq ▸ h.file fd hopen
    case isFalse => exact h.file fd' hfd'
  · intro fd' hfd'
    rw [setStage_stages] at hfd'
    split at hfd'
    case isTrue heq => exact heq ▸ hcontext hfd'
    case isFalse => exact h.context fd' hfd'

theorem Numbered.step (h : Numbered s) (hstep : (machine C).step s e = some s') : Numbered s' := by
  obtain ⟨henabled, rfl⟩ := machine_step hstep
  have hopen : ∀ {fd stage}, s.stages fd = stage → stage ≠ .closed → s.stages fd ≠ .closed := by
    rintro fd stage rfl hne
    exact hne
  cases e with
  | socket fd flags =>
    have hfresh : s.fresh < s.fresh + 1 := Nat.lt_succ_self _
    constructor
    case file =>
      intro fd' hfd'
      show Function.update s.file fd s.fresh fd' < s.fresh + 1
      by_cases heq : fd' = fd
      · rw [heq, Function.update_self]
        exact hfresh
      · rw [Function.update_of_ne heq]
        refine Nat.lt_trans (h.file fd' ?_) hfresh
        simpa [next, heq] using hfd'
    case created => exact fun fd' hsome => Nat.lt_trans (h.created fd' hsome) hfresh
    case call => exact fun c hc => Nat.lt_trans (h.call c hc) hfresh
    case registered => exact fun c hwaiting => Nat.lt_trans (h.registered c hwaiting) hfresh
    case begun => exact h.begun
    case context =>
      intro fd' hfd'
      by_cases heq : fd' = fd
      · simp [next, heq] at hfd'
      · exact h.context fd' (by simpa [next, heq] using hfd')
  | get fd stat =>
    have hready : ∀ fd', s.stages fd' ≠ .closed ∨ (next C s (.get fd stat)).stages fd' = .closed := by
      intro fd'
      by_cases heq : fd' = fd
      · left
        rw [heq]
        exact hopen henabled (by rintro ⟨⟩)
      · rw [show (next C s (.get fd stat)).stages fd' = s.stages fd' by simp [next, heq]]
        exact (Decidable.em (s.stages fd' = .closed)).symm
    constructor
    case file => exact fun fd' hfd' => h.file fd' ((hready fd').resolve_right hfd')
    case created =>
      intro fd' hsome
      show (if (s.files.manager.get fd).isSome then s.created else Function.update s.created fd (s.file fd)) fd' <
        s.fresh
      have hfile := h.file fd (hopen henabled (by rintro ⟨⟩))
      by_cases heq : fd' = fd
      · subst heq
        split
        case isTrue hold => exact h.created fd' hold
        case isFalse =>
          rw [Function.update_self]
          exact hfile
      · have hold : (s.files.manager.get fd').isSome = true := by
          rw [← Files.get_create_of_ne (C := C) stat (Ne.symm heq)]
          exact hsome
        split
        case isTrue => exact h.created fd' hold
        case isFalse =>
          rw [Function.update_of_ne heq]
          exact h.created fd' hold
    case call => exact h.call
    case registered => exact h.registered
    case begun => exact h.begun
    case context =>
      intro fd' hfd'
      show ((s.files.create C stat fd).manager.get fd').isSome = true
      by_cases heq : fd' = fd
      · rw [heq]
        exact Files.get_create_self stat
      · rw [Files.get_create_of_ne stat (Ne.symm heq)]
        exact h.context fd' (by simpa [next, heq] using hfd')
  | cancelAll fd iom =>
    have hstage : Numbered (s.setStage fd .cancelled) :=
      h.setStage (hopen henabled (by rintro ⟨⟩)) fun _ => h.context fd (.inl henabled)
    refine { hstage with call := ?_, registered := ?_, begun := ?_ }
    · intro c hc
      obtain ⟨-, -, hfile, -⟩ := wake_kept s fd iom (s.calls c)
      show (s.wake fd iom (s.calls c)).file < s.fresh
      rw [hfile]
      exact h.call c hc
    · intro c hwaiting
      obtain ⟨-, -, -, hregistered, -, hphase, -⟩ := wake_kept s fd iom (s.calls c)
      show (s.wake fd iom (s.calls c)).registered < s.fresh
      rw [hregistered]
      exact h.registered c (hphase hwaiting)
    · intro c hc
      exact (wake_kept s fd iom (s.calls c)).2.2.2.2.2.2.2 (h.begun c hc)
  | del fd =>
    have hstage : Numbered (s.setStage fd .deleted) :=
      h.setStage (hopen henabled (by rintro ⟨⟩)) (by rintro (⟨⟨⟩⟩ | ⟨⟨⟩⟩))
    refine { hstage with created := ?_, context := ?_ }
    · intro fd' hsome
      refine h.created fd' ?_
      by_cases heq : fd' = fd
      · rw [heq, show (next C s (.del fd)).files.manager = s.files.manager.del fd from rfl, FdManager.get_del_self]
          at hsome
        cases hsome
      · rw [← FdManager.get_del_of_ne (Ne.symm heq)]
        exact hsome
    · intro fd' hfd'
      by_cases heq : fd' = fd
      · simp [next, heq] at hfd'
      · show ((s.files.manager.del fd).get fd').isSome = true
        rw [FdManager.get_del_of_ne (Ne.symm heq)]
        exact h.context fd' (by simpa [next, heq] using hfd')
  | close fd => exact h.setStage (hopen henabled (by rintro ⟨⟩)) (by rintro (⟨⟨⟩⟩ | ⟨⟨⟩⟩))
  | closeF fd =>
    refine h.setStage ?_ (by rintro (⟨⟨⟩⟩ | ⟨⟨⟩⟩))
    rcases henabled with henabled | henabled
    · exact hopen henabled (by rintro ⟨⟩)
    · exact hopen henabled (by rintro ⟨⟩)
  | call fd event iom =>
    have hcalls : ∀ c, (next C s (.call fd event iom)).calls c =
        if c = s.begun then ⟨.calling, fd, event, iom, s.file fd, 0, false⟩ else s.calls c :=
      fun c => setCall_calls s _ c _
    refine { h with call := ?_, registered := ?_, begun := ?_ }
    · intro c hc
      have hc : c < s.begun + 1 := hc
      rw [hcalls]
      split
      · exact h.file fd henabled.1
      · exact h.call c (by omega)
    · intro c
      rw [hcalls]
      split
      · rintro ⟨⟩
      · exact h.registered c
    · intro c hc
      have hc : s.begun + 1 ≤ c := hc
      rw [hcalls, if_neg (by omega)]
      exact h.begun c (by omega)
  | sysCall c blocks =>
    refine h.setCall henabled.1 rfl ?_
    dsimp only
    split <;> rintro ⟨⟩
  | addEvent c =>
    refine h.setCall henabled.1 rfl ?_
    dsimp only
    split
    case isTrue hfound => exact fun _ => h.file _ hfound.1
    case isFalse => rintro ⟨⟩
  | trigger c => exact h.setCall henabled.1 rfl (by rintro ⟨⟩)
  | cancelEvent c => exact h.setCall henabled.1 rfl (by rintro ⟨⟩)

theorem numbered_of_reaches (h : (machine C).Reaches Machine.any initial s) : Numbered s :=
  h.invariant (fun _ _ _ hs _ hstep => hs.step hstep) Numbered.initial

/-! ### The contexts -/

/-- A file with a context is closed through the hook. -/
def Hooked (s : State) : Event → Prop
  | .closeF fd => (s.files.manager.get fd).isSome = false
  | _ => True

instance (s : State) : (e : Event) → Decidable (Hooked s e)
  | .closeF fd => inferInstanceAs (Decidable ((s.files.manager.get fd).isSome = false))
  | .socket _ _ | .get _ _ | .cancelAll _ _ | .del _ | .close _ | .call _ _ _ | .sysCall _ _ | .addEvent _ | .trigger _
  | .cancelEvent _ => inferInstanceAs (Decidable True)

/-- The numbers with a context are in use, and the contexts belong to their files. -/
structure Tabled (s : State) : Prop where
  stage : ∀ fd, (s.files.manager.get fd).isSome = true → s.stages fd = .ready ∨ s.stages fd = .cancelled
  created : ∀ fd, (s.files.manager.get fd).isSome = true → s.created fd = s.file fd

theorem Tabled.initial : Tabled initial := by
  have hnone : ∀ fd, (Descriptors.initial.files.manager.get fd).isSome = false := fun fd => by
    rw [show Descriptors.initial.files.manager.get fd = none from FdManager.get_new]
    rfl
  constructor
  · intro fd hsome
    rw [hnone] at hsome
    cases hsome
  · intro fd hsome
    rw [hnone] at hsome
    cases hsome

/-- A step that leaves the contexts alone, and the numbers that have one. -/
private theorem Tabled.keep (h : Tabled s) (hmanager : s'.files.manager = s.files.manager)
    (hcreated : s'.created = s.created) (hkept : ∀ fd, (s.files.manager.get fd).isSome = true →
      s.stages fd = .ready ∨ s.stages fd = .cancelled →
        (s'.stages fd = .ready ∨ s'.stages fd = .cancelled) ∧ s'.file fd = s.file fd) : Tabled s' := by
  constructor
  · intro fd hsome
    rw [hmanager] at hsome
    exact (hkept fd hsome (h.stage fd hsome)).1
  · intro fd hsome
    rw [hmanager] at hsome
    rw [hcreated, (hkept fd hsome (h.stage fd hsome)).2]
    exact h.created fd hsome

/-- A number without a context may go to any stage. -/
private theorem Tabled.setStage (h : Tabled s) {fd : Nat} {stage : Stage}
    (hnone : (s.files.manager.get fd).isSome = false) : Tabled (s.setStage fd stage) := by
  refine h.keep rfl rfl fun fd' hsome hfd' => ⟨?_, rfl⟩
  have hne : fd' ≠ fd := by
    rintro rfl
    rw [hnone] at hsome
    cases hsome
  rw [setStage_stages, if_neg hne]
  exact hfd'

private theorem Tabled.isSome_eq_false (h : Tabled s) {fd : Nat}
    (hstage : ¬ (s.stages fd = .ready ∨ s.stages fd = .cancelled)) : (s.files.manager.get fd).isSome = false := by
  cases hsome : (s.files.manager.get fd).isSome with
  | false => rfl
  | true => exact absurd (h.stage fd hsome) hstage

theorem Tabled.step (h : Tabled s) (hhooked : Hooked s e) (hstep : (machine C).step s e = some s') : Tabled s' := by
  obtain ⟨henabled, rfl⟩ := machine_step hstep
  cases e with
  | socket fd flags =>
    have hclosed : s.stages fd = .closed := henabled
    refine h.keep rfl rfl fun fd' _ hfd' => ?_
    have hne : fd' ≠ fd := by
      rintro rfl
      rw [hclosed] at hfd'
      rcases hfd' with ⟨⟨⟩⟩ | ⟨⟨⟩⟩
    refine ⟨?_, Function.update_of_ne hne _ _⟩
    simpa [next, hne] using hfd'
  | get fd stat =>
    have hopened : s.stages fd = .opened := henabled
    have hnone : (s.files.manager.get fd).isSome = false := h.isSome_eq_false (by simp [hopened])
    have hcreated : (next C s (.get fd stat)).created = Function.update s.created fd (s.file fd) := by
      show (if (s.files.manager.get fd).isSome then s.created else _) = _
      rw [hnone]
      rfl
    have hother : ∀ {fd'}, fd' ≠ fd → ((next C s (.get fd stat)).files.manager.get fd').isSome = true →
        (s.files.manager.get fd').isSome = true := by
      intro fd' hne hsome
      rw [← Files.get_create_of_ne (C := C) stat (Ne.symm hne)]
      exact hsome
    constructor
    · intro fd' hsome
      by_cases heq : fd' = fd
      · simp [next, heq]
      · rw [show (next C s (.get fd stat)).stages fd' = s.stages fd' by simp [next, heq]]
        exact h.stage fd' (hother heq hsome)
    · intro fd' hsome
      rw [hcreated]
      by_cases heq : fd' = fd
      · rw [heq, Function.update_self]
        rfl
      · rw [Function.update_of_ne heq]
        exact h.created fd' (hother heq hsome)
  | cancelAll fd iom =>
    refine h.keep rfl rfl fun fd' _ hfd' => ⟨?_, rfl⟩
    by_cases heq : fd' = fd
    · simp [next, heq]
    · simpa [next, heq] using hfd'
  | del fd =>
    have hsome : ∀ {fd'}, ((s.files.manager.del fd).get fd').isSome = true →
        fd' ≠ fd ∧ (s.files.manager.get fd').isSome = true := by
      intro fd' hsome
      by_cases heq : fd' = fd
      · rw [heq, FdManager.get_del_self] at hsome
        cases hsome
      · rw [FdManager.get_del_of_ne (Ne.symm heq)] at hsome
        exact ⟨heq, hsome⟩
    constructor
    · intro fd' hsome'
      obtain ⟨hne, hold⟩ := hsome hsome'
      rw [show (next C s (.del fd)).stages fd' = s.stages fd' by simp [next, hne]]
      exact h.stage fd' hold
    · intro fd' hsome'
      exact h.created fd' (hsome hsome').2
  | close fd =>
    have hdeleted : s.stages fd = .deleted := henabled
    exact h.setStage (h.isSome_eq_false (by simp [hdeleted]))
  | closeF fd => exact h.setStage hhooked
  | call fd event iom => exact ⟨h.stage, h.created⟩
  | sysCall c blocks => exact ⟨h.stage, h.created⟩
  | addEvent c => exact ⟨h.stage, h.created⟩
  | trigger c => exact ⟨h.stage, h.created⟩
  | cancelEvent c => exact ⟨h.stage, h.created⟩

/-- While files with contexts are closed through the hook, a number has a context just if `get` has made one for its
file and `del` has not removed it.  The number of a file that is closed without the hook keeps the context, and has it
when it is given out for another file. -/
theorem context_of_reaches :
    ((machine C).Reaches Hooked initial s → ∀ fd,
        ((s.files.manager.get fd).isSome = true ↔ s.stages fd = .ready ∨ s.stages fd = .cancelled) ∧
          ((s.files.manager.get fd).isSome = true → s.created fd = s.file fd)) ∧
      ((machine C).Reaches Machine.any initial s → ∀ fd s', (s.files.manager.get fd).isSome = true →
        (machine C).step s (.closeF fd) = some s' →
          ∀ flags stat, ∃ s'', (machine C).run s' [.socket fd flags, .get fd stat] = some s'' ∧
            s''.stages fd = .ready ∧ s''.files.manager.get fd = s.files.manager.get fd ∧
              s''.created fd ≠ s''.file fd) := by
  constructor
  · intro h fd
    have htabled : Tabled s := h.invariant (fun _ _ _ hs hhooked hstep => hs.step hhooked hstep) Tabled.initial
    exact ⟨⟨htabled.stage fd, (numbered_of_reaches (h.mono fun _ _ _ => trivial)).context fd⟩, htabled.created fd⟩
  · intro h fd s' hsome hstep flags stat
    obtain ⟨henabled, rfl⟩ := machine_step hstep
    have hs := numbered_of_reaches h
    obtain ⟨ctx, hctx⟩ := Option.isSome_iff_exists.1 hsome
    let t := next C (next C s (.closeF fd)) (.socket fd flags)
    have hsocket : (machine C).step (next C s (.closeF fd)) (.socket fd flags) = some t :=
      step_of_enabled (by simp [Enabled, next])
    have hget : (machine C).step t (.get fd stat) = some (next C t (.get fd stat)) :=
      step_of_enabled (by simp [Enabled, t, next])
    have hkept : t.files.manager.get fd = some ctx := hctx
    refine ⟨next C t (.get fd stat), ?_, ?_, ?_, ?_⟩
    · simp only [Machine.run, hsocket, hget, Option.bind_some]
    · simp [next]
    · show (Files.create C t.files stat fd).manager.get fd = _
      rw [Files.create, hkept, hctx]
      exact hkept
    · have hcreated : (next C t (.get fd stat)).created fd = s.created fd := by
        show (if (t.files.manager.get fd).isSome then t.created else _) fd = _
        rw [hkept]
        rfl
      have hfile : (next C t (.get fd stat)).file fd = s.fresh := Function.update_self _ _ _
      rw [hcreated, hfile]
      exact Nat.ne_of_lt (hs.created fd hsome)

/-- Files whose modes may be set as one likes. -/
def plainCalls : SystemCalls where
  fcntl cmd flags :=
    match cmd with
    | .setfl arg => (arg, 0)
    | .getfl => (flags, flags)
    | .other _ _ => (flags, 0)
  ioctl _ arg flags := (if arg ≠ 0 then flags ||| oNonblock else flags &&& ~~~oNonblock, 0)

/-- The number 3 is given out, closed through the hook, and given out again. -/
private def reopened : List Event :=
  [.socket 3 2, .get 3 (some true), .cancelAll 3 none, .del 3, .close 3, .socket 3 2, .get 3 (some true)]

/-- The second file has a context of its own, and the third has that of the second if this is closed without the
hook. -/
theorem context_of_reaches_reopened :
    (∃ s, (machine plainCalls).Reaches Hooked initial s ∧ s.stages 3 = .ready ∧ s.file 3 = 1 ∧
        (s.files.manager.get 3).isSome = true ∧ s.created 3 = s.file 3) ∧
      ∃ s s' s'', (machine plainCalls).Reaches Machine.any initial s ∧
        (machine plainCalls).step s (.closeF 3) = some s' ∧
          (machine plainCalls).run s' [.socket 3 2, .get 3 (some true)] = some s'' ∧ s''.created 3 ≠ s''.file 3 := by
  constructor
  · obtain ⟨s, hreach, hready, hfile⟩ : ∃ s, (machine plainCalls).Reaches Hooked initial s ∧ s.stages 3 = .ready ∧
        s.file 3 = 1 := Machine.exists_reaches_of_guarded reopened (by decide +kernel)
    obtain ⟨hiff, hcreated⟩ := context_of_reaches.1 hreach 3
    have hsome := hiff.2 (.inl hready)
    exact ⟨s, hreach, hready, hfile, hsome, hcreated hsome⟩
  · obtain ⟨s, hreach, hready, hsome⟩ : ∃ s, (machine plainCalls).Reaches Machine.any initial s ∧
        s.stages 3 = .ready ∧ (s.files.manager.get 3).isSome = true :=
      Machine.exists_reaches_of_run reopened (fun _ _ _ => trivial) (by decide +kernel)
    have hstep := @step_of_enabled plainCalls s (.closeF 3) (.inr hready)
    obtain ⟨s'', hrun, -, -, hne⟩ := context_of_reaches.2 hreach 3 _ hsome hstep 2 (some true)
    exact ⟨s, _, s'', hreach, hstep, hrun, hne⟩

end Descriptors

end AcidCompute

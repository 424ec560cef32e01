import AcidCompute.Rpc.Pool

/-!
# Closing a connection pool

`RpcConnectionPool::close` uses `m_registry` without a test for null, and forgets the channels in `m_discover_handle`
without a message to the fibers that wait on them, as `RpcClient::close` would send it.  So a pool that has never been
connected must not be closed or destroyed, a fiber that is in `discover` may wait for ever, and one that is behind the
wait erases with an iterator whose node is gone.  And it tests `m_is_close` and sets it without a lock, so that two
fibers may be behind the test, of which the second one finds no registry (`not_shutDown`).  Where none of this can
happen the shutdown is clean (`shutDown_of_reaches`).

`discover` is called with `m_connections_mutex`, so that one fiber at a time is in it, at any point.  `close` may be
called at any time by any number of fibers, `handle_recv` and the destructor among them.  What `discover` does behind
its last use of `m_discover_handle` and what else the registry sends is left out here, and so is what the other fibers
of a pool do with a registry that is gone.  A pool with a registry is not connected again.
-/

namespace AcidCompute

namespace PoolClose

abbrev Results := List (BitVec 16 × List Byte)

/-- What is sent through `m_channel`. -/
inductive Request
  | discover (name : List Byte)
  | heartbeat
  deriving DecidableEq, Repr

/-- How far a call of `discover` has come. -/
inductive Phase
  | idle
  -- behind the test of the registry
  | entered
  -- with the iterator in `m_discover_handle`
  | requesting (it : Nat)
  | waiting (it : Nat)
  | received (it : Nat) (response : Option Results)
  -- without a response it returns an empty list
  | returned (response : Option Results)
  deriving DecidableEq, Repr

def Phase.inDiscover : Phase → Bool
  | .entered | .requesting _ | .waiting _ | .received _ _ => true
  | .idle | .returned _ => false

/-- The iterator in `m_discover_handle`. -/
def Phase.handle : Phase → Option Nat
  | .requesting it | .waiting it | .received it _ => some it
  | .idle | .entered | .returned _ => none

/-- The local variables of a call; `queue` is what `recv_channel` holds. -/
structure Call where
  name : List Byte
  phase : Phase
  queue : List (Option Results)
  deriving DecidableEq, Repr

/-- The call waits in `recv_channel >> response` and has nothing to take. -/
def Call.Blocked (call : Call) : Prop := (∃ it, call.phase = .waiting it) ∧ call.queue = []

/-- The fiber in `handle_recv`. -/
inductive Receiver
  | reading
  -- in front of the lock in `handle_service_discover`
  | dispatching (service : List Byte) (results : Results)
  -- with `m_discover_mutex`, in front of the push to the channel of a call
  | pushing (c : Nat) (results : Results)
  deriving DecidableEq, Repr

def Receiver.isPushing : Receiver → Bool
  | .pushing _ _ => true
  | _ => false

/-- How many calls of `close` have come how far. -/
structure Closers where
  -- behind the test of `m_is_close`
  tested : Nat
  -- behind `m_channel.close()`
  clearing : Nat
  -- behind `m_discover_handle.clear()`
  disconnecting : Nat
  -- at the end, and not because of the test
  finished : Nat
  deriving DecidableEq, Repr

structure State where
  -- `m_registry`, with `is_connected()` of the session
  registry : Option Bool
  isClose : Bool
  isHeartClose : Bool
  -- `m_heart_timer` is not null
  heartTimer : Bool
  -- `m_channel`, which is closed when `isClose` is set
  channel : List Request
  -- `m_discover_handle`, with the number of a call for its channel
  discoverHandle : NodeMap (List Byte) Nat
  -- the call that is in `discover`, with `m_connections_mutex`
  discovering : Option Nat
  calls : Nat → Call
  receiver : Receiver
  closers : Closers
  fault : Option Undefined

/-- `RpcConnectionPool(timeout_ms)` -/
def constructed : State where
  registry := none
  isClose := false
  isHeartClose := true
  heartTimer := false
  channel := []
  discoverHandle := .empty
  discovering := none
  calls := fun _ => ⟨[], .idle, []⟩
  receiver := .reading
  closers := ⟨0, 0, 0, 0⟩
  fault := none

inductive Event
  | connect (success : Bool)
  -- the session finds the connection closed
  | lose
  | heartbeat
  -- the steps of `discover`
  | discover (c : Nat) (name : List Byte)
  | openChannel (c : Nat)
  | request (c it : Nat)
  | takeResponse (c it : Nat) (response : Option Results)
  | leave (c it : Nat) (response : Option Results)
  -- the steps of the receiver, and of `handle_send`
  | receive (service : List Byte) (results : Results)
  | dispatch (service : List Byte) (results : Results)
  | push (c : Nat) (results : Results)
  | transmit
  -- the steps of `close`
  | close
  | mark
  | clear
  | disconnect
  deriving DecidableEq, Repr

namespace State

variable (s : State)

def setCall (c : Nat) (call : Call) : State := { s with calls := Function.update s.calls c call }

def setPhase (c : Nat) (phase : Phase) : State := s.setCall c { s.calls c with phase := phase }

/-- `m_channel << request` -/
def send (request : Request) : State := if s.isClose then s else { s with channel := s.channel ++ [request] }

end State

/-- When a fiber can take its step. -/
def Enabled (capacity : Nat) (s : State) : Event → Prop
  | .connect _ => s.registry = none
  | .lose => s.registry = some true
  | .heartbeat => s.heartTimer = true ∧ (s.isClose = true ∨ s.channel.length < capacity)
  | .discover c _ => (s.calls c).phase = .idle ∧ s.discovering = none
  | .openChannel c => (s.calls c).phase = .entered ∧ s.receiver.isPushing = false
  | .request c it => (s.calls c).phase = .requesting it ∧ (s.isClose = true ∨ s.channel.length < capacity)
  | .takeResponse c it response => (s.calls c).phase = .waiting it ∧ (s.calls c).queue.head? = some response
  | .leave c it response => (s.calls c).phase = .received it response ∧ s.receiver.isPushing = false
  | .receive _ _ => s.receiver = .reading ∧ s.registry = some true
  | .dispatch service results => s.receiver = .dispatching service results
  | .push c results => s.receiver = .pushing c results ∧ (s.calls c).queue.length < 1
  | .transmit => s.channel ≠ []
  | .close => True
  | .mark => 0 < s.closers.tested
  | .clear => 0 < s.closers.clearing
  | .disconnect => 0 < s.closers.disconnecting

instance (capacity : Nat) (s : State) : (e : Event) → Decidable (Enabled capacity s e)
  | .connect _ => inferInstanceAs (Decidable (_ = _))
  | .lose => inferInstanceAs (Decidable (_ = _))
  | .heartbeat => inferInstanceAs (Decidable (_ ∧ _))
  | .discover _ _ => inferInstanceAs (Decidable (_ ∧ _))
  | .openChannel _ => inferInstanceAs (Decidable (_ ∧ _))
  | .request _ _ => inferInstanceAs (Decidable (_ ∧ _))
  | .takeResponse _ _ _ => inferInstanceAs (Decidable (_ ∧ _))
  | .leave _ _ _ => inferInstanceAs (Decidable (_ ∧ _))
  | .receive _ _ => inferInstanceAs (Decidable (_ ∧ _))
  | .dispatch _ _ => inferInstanceAs (Decidable (_ = _))
  | .push _ _ => inferInstanceAs (Decidable (_ ∧ _))
  | .transmit => inferInstanceAs (Decidable (_ ≠ _))
  | .close => inferInstanceAs (Decidable True)
  | .mark | .clear | .disconnect => inferInstanceAs (Decidable (_ < _))

/-- What an enabled step does. -/
def next (s : State) : Event → State
  | .connect success => if success then { s with registry := some true, heartTimer := true } else s
  | .lose => { s with registry := some false }
  | .heartbeat => { { s with heartTimer := !s.isHeartClose }.send .heartbeat with isHeartClose := true }
  | .discover c name =>
    if s.registry = some true then { s.setCall c ⟨name, .entered, []⟩ with discovering := some c }
    else s.setCall c ⟨name, .returned none, []⟩
  | .openChannel c =>
    let (handle, it) := s.discoverHandle.emplace (s.calls c).name c
    { s.setPhase c (.requesting it) with discoverHandle := handle }
  | .request c it => (s.setPhase c (.waiting it)).send (.discover (s.calls c).name)
  | .takeResponse c it response =>
    s.setCall c { s.calls c with phase := .received it response, queue := (s.calls c).queue.tail }
  | .leave c it response =>
    match s.discoverHandle.erase it with
    | none => { s with fault := some .danglingIterator }
    | some handle => { s.setPhase c (.returned response) with discoverHandle := handle, discovering := none }
  | .receive service results => { s with receiver := .dispatching service results, isHeartClose := false }
  | .dispatch service results =>
    match s.discoverHandle.find service with
    | some e => { s with receiver := .pushing e.value results }
    | none => { s with receiver := .reading }
  | .push c results =>
    { s.setCall c { s.calls c with queue := (s.calls c).queue ++ [some results] } with receiver := .reading }
  | .transmit => { s with channel := s.channel.tail }
  | .close => if s.isClose then s else { s with closers.tested := s.closers.tested + 1 }
  | .mark =>
    { s with
      isHeartClose := true
      isClose := true
      channel := []
      heartTimer := false
      closers.tested := s.closers.tested - 1
      closers.clearing := s.closers.clearing + 1 }
  | .clear =>
    { s with
      discoverHandle := s.discoverHandle.clear
      closers.clearing := s.closers.clearing - 1
      closers.disconnecting := s.closers.disconnecting + 1 }
  | .disconnect =>
    match s.registry with
    | none => { s with fault := some .nullDeref }
    | some _ =>
      { s with
        registry := none
        closers.disconnecting := s.closers.disconnecting - 1
        closers.finished := s.closers.finished + 1 }

/-- After undefined behaviour there are no more steps. -/
def machine (capacity : Nat) : Machine State Event where
  start := constructed
  step s e := if s.fault = none ∧ Enabled capacity s e then some (next s e) else none

theorem step_eq_some {capacity : Nat} {s s' : State} {e : Event} :
    (machine capacity).step s e = some s' ↔ (s.fault = none ∧ Enabled capacity s e) ∧ next s e = s' := by
  simp [machine]

/-- One call of `close` at a time comes to the test, finds a registry and, from the clearing on, no fiber in
`discover`. -/
def Orderly (s : State) : Event → Prop
  | .discover _ _ => s.isClose = false ∨ s.registry ≠ some true
  | .close => s.isClose = true ∨ s.registry ≠ none ∧ s.closers.tested = 0
  | .clear => s.discovering = none
  | _ => True

instance (s : State) : (e : Event) → Decidable (Orderly s e)
  | .discover _ _ => inferInstanceAs (Decidable (_ ∨ _))
  | .close => inferInstanceAs (Decidable (_ ∨ _))
  | .clear => inferInstanceAs (Decidable (_ = _))
  | .connect _ | .lose | .heartbeat | .openChannel _ | .request _ _ | .takeResponse _ _ _ | .leave _ _ _
  | .receive _ _ | .dispatch _ _ | .push _ _ | .transmit | .mark | .disconnect => inferInstanceAs (Decidable True)

/-! ### Orderly runs -/

/-- What holds in every state of an orderly run. -/
structure Sound (s : State) : Prop where
  fault : s.fault = none
  discovering : ∀ c, (s.calls c).phase.inDiscover = true → s.discovering = some c
  handle : ∀ c it, (s.calls c).phase.handle = some it → ∃ e ∈ s.discoverHandle.entries, e.node = it
  alone : s.closers.tested + s.closers.clearing + s.closers.disconnecting + s.closers.finished ≤ 1
  begun : 0 < s.closers.clearing + s.closers.disconnecting + s.closers.finished → s.isClose = true
  cleared : 0 < s.closers.disconnecting + s.closers.finished → s.discovering = none
  registry : 0 < s.closers.tested + s.closers.clearing + s.closers.disconnecting → s.registry ≠ none

theorem Sound.init : Sound constructed where
  fault := rfl
  discovering c h := by cases h
  handle c it h := by cases h
  alone := by decide
  begun h := absurd h (by decide)
  cleared h := rfl
  registry h := absurd h (by decide)

section

variable {s : State} {c : Nat}

private theorem inDiscover_of_handle {phase : Phase} {it : Nat} (h : phase.handle = some it) :
    phase.inDiscover = true := by
  cases phase with
  | idle | entered | returned => cases h
  | requesting | waiting | received => rfl

/-- The call that is in `discover` goes on, or one goes in while none is there. -/
theorem Sound.move (h : Sound s) (hc : s.discovering = none ∨ s.discovering = some c) {call : Call}
    {m : NodeMap (List Byte) Nat} {d : Option Nat} (hd : call.phase.inDiscover = true → d = some c)
    (hhandle : ∀ it, call.phase.handle = some it → ∃ e ∈ m.entries, e.node = it)
    (hcleared : 0 < s.closers.disconnecting + s.closers.finished → d = none) :
    Sound { s.setCall c call with discoverHandle := m, discovering := d } := by
  have hout : ∀ x, x ≠ c → (s.calls x).phase.inDiscover ≠ true := by
    intro x hx hin
    have hx' := h.discovering x hin
    rcases hc with hnone | hsome
    · rw [hnone] at hx'
      cases hx'
    · rw [hsome] at hx'
      exact hx (Option.some.inj hx').symm
  constructor
  case fault => exact h.fault
  case discovering =>
    refine (Function.forall_update_iff s.calls fun x call => call.phase.inDiscover = true → d = some x).2 ⟨hd, ?_⟩
    intro x hx hin
    exact absurd hin (hout x hx)
  case handle =>
    refine (Function.forall_update_iff s.calls fun _ call =>
      ∀ it, call.phase.handle = some it → ∃ e ∈ m.entries, e.node = it).2 ⟨hhandle, ?_⟩
    intro x hx it hit
    exact absurd (inDiscover_of_handle hit) (hout x hx)
  case alone => exact h.alone
  case begun => exact h.begun
  case cleared => exact hcleared
  case registry => exact h.registry

/-- What goes through the channels does not matter. -/
theorem Sound.send (h : Sound s) (request : Request) : Sound (s.send request) := by
  unfold State.send
  split
  · exact h
  · exact ⟨h.fault, h.discovering, h.handle, h.alone, h.begun, h.cleared, h.registry⟩

/-- A call in `discover` is the only one there, and nothing has been cleared. -/
theorem Sound.inside (h : Sound s) (hin : (s.calls c).phase.inDiscover = true) :
    s.discovering = some c ∧ ¬ 0 < s.closers.disconnecting + s.closers.finished := by
  have hdiscovering := h.discovering c hin
  refine ⟨hdiscovering, fun hcleared => ?_⟩
  rw [h.cleared hcleared] at hdiscovering
  cases hdiscovering

theorem Sound.discover (h : Sound s) {name : List Byte} (hnone : s.discovering = none)
    (ho : s.isClose = false ∨ s.registry ≠ some true) : Sound (next s (.discover c name)) := by
  by_cases hregistry : s.registry = some true
  · simp only [next, hregistry, if_true]
    have hopen := ho.resolve_right (not_not_intro hregistry)
    refine h.move (.inl hnone) (fun _ => rfl) ?_ ?_
    · intro it hit
      cases hit
    · intro hclosing
      have hclose := h.begun (by omega)
      rw [hopen] at hclose
      cases hclose
  · simp only [next, hregistry, if_false]
    refine h.move (m := s.discoverHandle) (d := s.discovering) (.inl hnone) ?_ ?_ h.cleared
    · intro hin
      cases hin
    · intro it hit
      cases hit

theorem Sound.openChannel (h : Sound s) (hentered : (s.calls c).phase = .entered) :
    Sound (next s (.openChannel c)) := by
  obtain ⟨hdiscovering, hopen⟩ := h.inside (c := c) (by rw [hentered]; rfl)
  refine h.move (d := s.discovering) (.inr hdiscovering) (fun _ => hdiscovering) ?_
    (fun hclosed => absurd hclosed hopen)
  intro it hit
  cases hit
  exact NodeMap.exists_node_emplace s.discoverHandle (s.calls c).name c

/-- The call goes on with the same iterator. -/
theorem Sound.keep (h : Sound s) {call : Call} {it : Nat} (hold : (s.calls c).phase.handle = some it)
    (hnew : call.phase.handle = some it) : Sound (s.setCall c call) := by
  obtain ⟨hdiscovering, hopen⟩ := h.inside (inDiscover_of_handle hold)
  refine h.move (m := s.discoverHandle) (d := s.discovering) (.inr hdiscovering) (fun _ => hdiscovering) ?_
    (fun hclosed => absurd hclosed hopen)
  intro it' hit'
  cases hnew.symm.trans hit'
  exact h.handle c it hold

theorem Sound.leave (h : Sound s) {it : Nat} {response : Option Results}
    (hreceived : (s.calls c).phase = .received it response) : Sound (next s (.leave c it response)) := by
  obtain ⟨e, he, rfl⟩ := h.handle c it (by rw [hreceived]; rfl)
  obtain ⟨handle, herase, -⟩ := NodeMap.erase_of_mem he
  obtain ⟨hdiscovering, -⟩ := h.inside (c := c) (by rw [hreceived]; rfl)
  simp only [next, herase]
  refine h.move (.inr hdiscovering) ?_ ?_ (fun _ => rfl)
  · intro hin
    cases hin
  · intro it hit
    cases hit

theorem Sound.push (h : Sound s) {results : Results} : Sound (next s (.push c results)) := by
  have hphase : ∀ x, ((next s (.push c results)).calls x).phase = (s.calls x).phase :=
    (Function.forall_update_iff s.calls fun x call => call.phase = (s.calls x).phase).2 ⟨rfl, fun _ _ => rfl⟩
  constructor
  case fault => exact h.fault
  case discovering =>
    intro x hin
    exact h.discovering x (hphase x ▸ hin)
  case handle =>
    intro x it hit
    exact h.handle x it (hphase x ▸ hit)
  case alone => exact h.alone
  case begun => exact h.begun
  case cleared => exact h.cleared
  case registry => exact h.registry

theorem Sound.close (h : Sound s) (ho : s.isClose = true ∨ s.registry ≠ none ∧ s.closers.tested = 0) :
    Sound (next s .close) := by
  by_cases hclose : s.isClose = true
  · simp only [next, hclose, if_true]
    exact h
  · obtain ⟨hregistry, htested⟩ := ho.resolve_left hclose
    have hnone : ¬ 0 < s.closers.clearing + s.closers.disconnecting + s.closers.finished :=
      fun hlt => hclose (h.begun hlt)
    have hnext : next s .close = { s with closers.tested := s.closers.tested + 1 } := if_neg hclose
    rw [hnext]
    refine ⟨h.fault, h.discovering, h.handle, ?_, h.begun, h.cleared, fun _ => hregistry⟩
    show s.closers.tested + 1 + s.closers.clearing + s.closers.disconnecting + s.closers.finished ≤ 1
    omega

theorem Sound.mark (h : Sound s) (htested : 0 < s.closers.tested) : Sound (next s .mark) := by
  have halone := h.alone
  refine ⟨h.fault, h.discovering, h.handle, ?_, fun _ => rfl, h.cleared, fun _ => h.registry (by omega)⟩
  show s.closers.tested - 1 + (s.closers.clearing + 1) + s.closers.disconnecting + s.closers.finished ≤ 1
  omega

theorem Sound.clear (h : Sound s) (hclearing : 0 < s.closers.clearing) (hnone : s.discovering = none) :
    Sound (next s .clear) := by
  have halone := h.alone
  have hout : ∀ x, (s.calls x).phase.inDiscover ≠ true := by
    intro x hin
    cases hnone.symm.trans (h.discovering x hin)
  refine ⟨h.fault, h.discovering, ?_, ?_, fun _ => h.begun (by omega), fun _ => hnone, fun _ => h.registry (by omega)⟩
  · intro x it hit
    exact absurd (inDiscover_of_handle hit) (hout x)
  · show s.closers.tested + (s.closers.clearing - 1) + (s.closers.disconnecting + 1) + s.closers.finished ≤ 1
    omega

/-- Nobody else is going to need the registry. -/
theorem Sound.disconnect (h : Sound s) (hdisconnecting : 0 < s.closers.disconnecting) :
    Sound (next s .disconnect) := by
  have halone := h.alone
  obtain ⟨connected, hregistry⟩ := Option.ne_none_iff_exists'.1 (h.registry (by omega))
  simp only [next, hregistry]
  refine ⟨h.fault, h.discovering, h.handle, ?_, fun _ => h.begun (by omega), fun _ => h.cleared (by omega), ?_⟩
  · show s.closers.tested + s.closers.clearing + (s.closers.disconnecting - 1) + (s.closers.finished + 1) ≤ 1
    omega
  · intro hlt
    have hlt' : 0 < s.closers.tested + s.closers.clearing + (s.closers.disconnecting - 1) := hlt
    omega

theorem Sound.next {capacity : Nat} {e : Event} (h : Sound s) (ho : Orderly s e) (henabled : Enabled capacity s e) :
    Sound (next s e) := by
  cases e with
  | connect success =>
    cases success with
    | false => exact h
    | true => exact ⟨h.fault, h.discovering, h.handle, h.alone, h.begun, h.cleared, fun _ hnone => by cases hnone⟩
  | lose => exact ⟨h.fault, h.discovering, h.handle, h.alone, h.begun, h.cleared, fun _ hnone => by cases hnone⟩
  | heartbeat =>
    have hcancelled : Sound { s with heartTimer := !s.isHeartClose } :=
      ⟨h.fault, h.discovering, h.handle, h.alone, h.begun, h.cleared, h.registry⟩
    have hsent := hcancelled.send .heartbeat
    exact ⟨hsent.fault, hsent.discovering, hsent.handle, hsent.alone, hsent.begun, hsent.cleared, hsent.registry⟩
  | discover c name => exact h.discover henabled.2 ho
  | openChannel c => exact h.openChannel henabled.1
  | request c it =>
    have hkept : Sound (s.setPhase c (.waiting it)) := h.keep (by rw [henabled.1]; rfl) rfl
    exact hkept.send _
  | takeResponse c it response => exact h.keep (show (s.calls c).phase.handle = some it by rw [henabled.1]; rfl) rfl
  | leave c it response => exact h.leave henabled.1
  | receive service results => exact ⟨h.fault, h.discovering, h.handle, h.alone, h.begun, h.cleared, h.registry⟩
  | dispatch service results =>
    simp only [PoolClose.next]
    split <;> exact ⟨h.fault, h.discovering, h.handle, h.alone, h.begun, h.cleared, h.registry⟩
  | push c results => exact h.push
  | transmit => exact ⟨h.fault, h.discovering, h.handle, h.alone, h.begun, h.cleared, h.registry⟩
  | close => exact h.close ho
  | mark => exact h.mark henabled
  | clear => exact h.clear henabled ho
  | disconnect => exact h.disconnect henabled

end

theorem Sound.of_reaches {capacity : Nat} {s : State} (hreach : (machine capacity).Reaches Orderly constructed s) :
    Sound s := by
  refine hreach.invariant ?_ Sound.init
  intro t e t' h ho hstep
  obtain ⟨⟨-, henabled⟩, rfl⟩ := step_eq_some.1 hstep
  exact h.next ho henabled

/-- The call waits, and nobody has its channel. -/
structure Abandoned (s : State) (c : Nat) : Prop where
  blocked : (s.calls c).Blocked
  handle : ∀ e ∈ s.discoverHandle.entries, e.value ≠ c
  receiver : ∀ results, s.receiver ≠ .pushing c results

section

variable {s : State} {c : Nat}

theorem Abandoned.of_calls (h : Abandoned s c) {s' : State} (hcalls : s'.calls c = s.calls c)
    (hhandle : ∀ e ∈ s'.discoverHandle.entries, e ∈ s.discoverHandle.entries ∨ e.value ≠ c)
    (hreceiver : ∀ results, s'.receiver ≠ .pushing c results) : Abandoned s' c where
  blocked := hcalls.symm ▸ h.blocked
  handle e he := (hhandle e he).elim (h.handle e) id
  receiver := hreceiver

private theorem send_eq (s : State) (request : Request) : (s.send request).calls = s.calls ∧
    (s.send request).discoverHandle = s.discoverHandle ∧ (s.send request).receiver = s.receiver := by
  unfold State.send
  split <;> exact ⟨rfl, rfl, rfl⟩

/-- Nobody will push to the channel of the call, so that it waits for ever. -/
theorem Abandoned.next {capacity : Nat} {e : Event} (h : Abandoned s c) (henabled : Enabled capacity s e) :
    Abandoned (next s e) c := by
  obtain ⟨⟨it₀, hwaiting⟩, hempty⟩ := h.blocked
  have hother : ∀ {d phase}, (s.calls d).phase = phase → phase ≠ .waiting it₀ → c ≠ d := by
    rintro d phase hphase hne rfl
    exact hne (hphase.symm.trans hwaiting)
  cases e with
  | connect success =>
    cases success with
    | false => exact h
    | true => exact h.of_calls rfl (fun e he => .inl he) h.receiver
  | lose => exact h.of_calls rfl (fun e he => .inl he) h.receiver
  | heartbeat =>
    obtain ⟨hcalls, hhandle, hreceiver⟩ := send_eq { s with heartTimer := !s.isHeartClose } .heartbeat
    refine h.of_calls (congrFun hcalls c) (fun e he => .inl ?_) (fun results => ?_)
    · exact hhandle ▸ he
    · exact hreceiver.symm ▸ h.receiver results
  | discover d name =>
    have hne := hother henabled.1 Phase.noConfusion
    simp only [PoolClose.next]
    split
    all_goals exact h.of_calls (Function.update_of_ne hne _ _) (fun e he => .inl he) h.receiver
  | openChannel d =>
    have hne := hother henabled.1 Phase.noConfusion
    refine h.of_calls (Function.update_of_ne hne _ _) (fun e he => ?_) h.receiver
    refine (NodeMap.mem_emplace he).imp_right ?_
    rintro rfl
    exact hne.symm
  | request d it =>
    have hne := hother henabled.1 Phase.noConfusion
    obtain ⟨hcalls, hhandle, hreceiver⟩ := send_eq (s.setPhase d (.waiting it)) (.discover (s.calls d).name)
    refine h.of_calls ((congrFun hcalls c).trans (Function.update_of_ne hne _ _)) (fun e he => .inl ?_)
      (fun results => ?_)
    · exact hhandle ▸ he
    · exact hreceiver.symm ▸ h.receiver results
  | takeResponse d it response =>
    have hne : c ≠ d := by
      rintro rfl
      have hhead := henabled.2
      rw [hempty] at hhead
      cases hhead
    exact h.of_calls (Function.update_of_ne hne _ _) (fun e he => .inl he) h.receiver
  | leave d it response =>
    have hne := hother henabled.1 Phase.noConfusion
    simp only [PoolClose.next]
    cases herase : s.discoverHandle.erase it with
    | none => exact h.of_calls rfl (fun e he => .inl he) h.receiver
    | some handle =>
      exact h.of_calls (Function.update_of_ne hne _ _) (fun e he => .inl (NodeMap.mem_of_erase herase he)) h.receiver
  | receive service results => exact h.of_calls rfl (fun e he => .inl he) (fun _ heq => by cases heq)
  | dispatch service results =>
    simp only [PoolClose.next]
    cases hfind : s.discoverHandle.find service with
    | none => exact h.of_calls rfl (fun e he => .inl he) (fun _ heq => by cases heq)
    | some e =>
      refine h.of_calls rfl (fun e he => .inl he) ?_
      intro results' heq
      cases heq
      exact h.handle e (NodeMap.find_eq_some hfind).1 rfl
  | push d results =>
    have hne : c ≠ d := by
      rintro rfl
      exact h.receiver results henabled.1
    exact h.of_calls (Function.update_of_ne hne _ _) (fun e he => .inl he) (fun _ heq => by cases heq)
  | transmit => exact h.of_calls rfl (fun e he => .inl he) h.receiver
  | close =>
    simp only [PoolClose.next]
    split
    · exact h
    · exact h.of_calls rfl (fun e he => .inl he) h.receiver
  | mark => exact h.of_calls rfl (fun e he => .inl he) h.receiver
  | clear => exact h.of_calls rfl (fun e he => by cases he) h.receiver
  | disconnect =>
    simp only [PoolClose.next]
    split
    all_goals exact h.of_calls rfl (fun e he => .inl he) h.receiver

theorem Abandoned.of_reaches {capacity : Nat} {s' : State} (h : Abandoned s c)
    (hreach : (machine capacity).Reaches Machine.any s s') : Abandoned s' c := by
  refine hreach.invariant (I := fun t => Abandoned t c) ?_ h
  intro t e t' ht _ hstep
  obtain ⟨⟨-, henabled⟩, rfl⟩ := step_eq_some.1 hstep
  exact ht.next henabled

end

end PoolClose

end AcidCompute

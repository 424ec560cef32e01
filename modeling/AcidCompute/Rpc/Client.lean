import AcidCompute.Base.Machine
import AcidCompute.Base.NodeMap
import AcidCompute.Rpc.Protocol
import Mathlib.Logic.Function.Basic

/-!
# The calls of one client (`acid/rpc/rpc_client.{h,cpp}`)

A client runs any number of fibers in `call`, one that receives responses, one that sends requests, and one that calls
`close`.  The events below are the critical sections of `m_mutex` and the channel operations, so that runs of the
machine are the interleavings of the fibers; what an event names besides its fiber is what that fiber holds.  The
receiver and `close` push into channels while they hold `m_mutex`; each push is an event of its own, and nobody else
gets the mutex in between.

The server may answer anything at any time while the connection is open.
-/

namespace AcidCompute

namespace RpcClient

/-- What a call ends with: the response that it goes on to decode, `RPC_CLOSED` or `RPC_TIMEOUT`. -/
inductive Outcome
  | response (r : Protocol)
  | closed
  | timeout
  deriving DecidableEq, Repr

/-- How far a call has come. -/
inductive Phase
  | idle
  -- behind the check of the connection
  | opened
  -- behind the first critical section
  | registered
  -- behind the push of the request, with the timer running
  | waiting
  -- behind the pop of the response
  | received
  -- behind the cancellation of the timer
  | cancelled
  | returned (outcome : Outcome)
  deriving DecidableEq, Repr

/-- The local variables of a call; `queue` and `closed` are the state of its channel. -/
structure Call where
  phase : Phase
  id : BitVec 32
  it : Nat
  queue : List (Option Protocol)
  closed : Bool
  timeout : Bool
  response : Option Protocol
  deriving DecidableEq, Repr

def Call.fresh : Call := ⟨.idle, 0, 0, [], false, false, none⟩

/-- A call with an entry in `m_response_handle`, as far as `close` has not removed it. -/
def Call.Pending (call : Call) : Prop :=
  call.phase = .registered ∨ call.phase = .waiting ∨ call.phase = .received ∨ call.phase = .cancelled

/-- Nothing has been popped yet. -/
def Call.Unanswered (call : Call) : Prop := call.phase = .registered ∨ call.phase = .waiting

instance (call : Call) : Decidable call.Pending := inferInstanceAs (Decidable (_ ∨ _ ∨ _ ∨ _))

instance (call : Call) : Decidable call.Unanswered := inferInstanceAs (Decidable (_ ∨ _))

def Call.outcome (call : Call) : Outcome :=
  if call.timeout then .timeout
  else match call.response with
    | none => .closed
    | some r => .response r

/-- The fiber in `handle_recv`. -/
inductive Receiver
  | reading
  | handling (r : Protocol)
  -- in `handle_method_response`, with the mutex, in front of the push to the channel of a call
  | pushing (r : Protocol) (c : Nat)
  deriving DecidableEq, Repr

/-- The fiber in `close`. -/
inductive Closer
  | idle
  -- with the mutex, in front of the push to the channels of the given calls
  | notifying (rest : List Nat)
  | finished
  deriving DecidableEq, Repr

def Receiver.holdsMutex : Receiver → Bool
  | .pushing _ _ => true
  | _ => false

def Closer.holdsMutex : Closer → Bool
  | .notifying _ => true
  | _ => false

/-- The members of the client, and the fibers that use it. -/
structure State where
  -- `m_sequence_id`
  sequenceId : BitVec 32
  -- `m_is_close`
  isClose : Bool
  -- `m_session->is_connected()`
  connected : Bool
  -- `m_response_handle`, with the number of a call for its channel
  responseHandle : NodeMap (BitVec 32) Nat
  -- `m_channel`: the ids of the requests in it, and whether it is closed
  sending : List (BitVec 32)
  sendClosed : Bool
  calls : Nat → Call
  receiver : Receiver
  closer : Closer
  -- an iterator has been used after its node was erased
  broken : Bool

/-- A client after `connect`. -/
def connectedClient : State where
  sequenceId := 0
  isClose := false
  connected := true
  responseHandle := .empty
  sending := []
  sendClosed := false
  calls := fun _ => .fresh
  receiver := .reading
  closer := .idle
  broken := false

inductive Event
  -- the steps of a call
  | start (c : Nat)
  | register (c : Nat)
  | send (c : Nat)
  | receive (c : Nat)
  | cancel (c : Nat)
  | finish (c : Nat)
  -- the timer of a call
  | fire (c : Nat)
  -- `handle_send` takes a request
  | transmit
  -- the steps of the receiver
  | respond (r : Protocol)
  | lookUp (r : Protocol)
  | push (r : Protocol) (c : Nat)
  -- the steps of `close`
  | close
  | notify (c : Nat) (rest : List Nat)
  | closeEnd
  deriving DecidableEq, Repr

/-- What a client is set up with: whether `m_timeout` is set, and the capacity of `m_channel`. -/
structure Config where
  timeouts : Bool
  capacity : Nat

namespace State

variable (s : State)

/-- `m_mutex` is held across a push. -/
def Locked : Prop := s.receiver.holdsMutex = true ∨ s.closer.holdsMutex = true

instance : Decidable s.Locked := inferInstanceAs (Decidable (_ ∨ _))

/-- The channel of a call takes another element, or is closed and takes none. -/
def CanPush (c : Nat) : Prop := (s.calls c).closed = true ∨ (s.calls c).queue.length < 1

instance (c : Nat) : Decidable (s.CanPush c) := inferInstanceAs (Decidable (_ ∨ _))

def setCall (c : Nat) (call : Call) : State := { s with calls := Function.update s.calls c call }

/-- `push` on the channel of a call, which has room for one element. -/
def pushTo (c : Nat) (x : Option Protocol) : State :=
  if (s.calls c).closed then s else s.setCall c { s.calls c with queue := (s.calls c).queue ++ [x] }

end State

/-- `++m_sequence_id`, which goes back to zero at `UINT32_MAX`. -/
def nextSequenceId (id : BitVec 32) : BitVec 32 := if id + 1 = 0xffffffff#32 then 0 else id + 1

/-- When a fiber can take its step. -/
def Enabled (config : Config) (s : State) : Event → Prop
  | .start c => (s.calls c).phase = .idle
  | .register c => (s.calls c).phase = .opened ∧ ¬ s.Locked
  | .send c => (s.calls c).phase = .registered ∧ (s.sendClosed = true ∨ s.sending.length < config.capacity)
  | .receive c => (s.calls c).phase = .waiting ∧ ((s.calls c).closed = true ∨ (s.calls c).queue ≠ [])
  | .cancel c => (s.calls c).phase = .received
  | .finish c => (s.calls c).phase = .cancelled ∧ ¬ s.Locked
  | .fire c => config.timeouts = true ∧ ((s.calls c).phase = .waiting ∨ (s.calls c).phase = .received)
  | .transmit => s.sendClosed = false ∧ s.sending ≠ []
  | .respond _ => s.receiver = .reading ∧ s.connected = true
  | .lookUp r => s.receiver = .handling r ∧ ¬ s.Locked
  | .push r c => s.receiver = .pushing r c ∧ s.CanPush c
  | .close => s.closer = .idle ∧ ¬ s.Locked
  | .notify c rest => s.closer = .notifying (c :: rest) ∧ s.CanPush c
  | .closeEnd => s.closer = .notifying []

instance (config : Config) (s : State) (e : Event) : Decidable (Enabled config s e) := by
  cases e <;> unfold Enabled <;> infer_instance

/-- What an enabled step does. -/
def next (s : State) : Event → State
  | .start c =>
    if s.connected then s.setCall c { Call.fresh with phase := .opened }
    else s.setCall c { Call.fresh with phase := .returned .closed }
  | .register c =>
    let (handle, it) := s.responseHandle.emplace s.sequenceId c
    { s.setCall c { s.calls c with phase := .registered, id := s.sequenceId, it := it } with
      responseHandle := handle, sequenceId := nextSequenceId s.sequenceId }
  | .send c =>
    -- a closed channel drops the request
    { s.setCall c { s.calls c with phase := .waiting } with
      sending := if s.sendClosed then s.sending else s.sending ++ [(s.calls c).id] }
  | .receive c =>
    if (s.calls c).closed then s.setCall c { s.calls c with phase := .received }
    else s.setCall c { s.calls c with
      phase := .received, response := (s.calls c).queue.headD none, queue := (s.calls c).queue.tail }
  | .cancel c => s.setCall c { s.calls c with phase := .cancelled }
  | .finish c =>
    let s' := s.setCall c { s.calls c with phase := .returned (s.calls c).outcome }
    if s.isClose then s'
    else match s.responseHandle.erase (s.calls c).it with
      | some handle => { s' with responseHandle := handle }
      | none => { s' with broken := true }
  | .fire c => s.setCall c { s.calls c with timeout := true, closed := true, queue := [] }
  | .transmit => { s with sending := s.sending.tail }
  | .respond r => { s with receiver := .handling r }
  | .lookUp r =>
    match s.responseHandle.find r.sequenceId with
    | some e => { s with receiver := .pushing r e.value }
    | none => { s with receiver := .reading }
  | .push r c => { s.pushTo c (some r) with receiver := .reading }
  | .close =>
    if s.isClose then { s with closer := .finished }
    else { s with
      isClose := true, sendClosed := true, sending := [],
      closer := .notifying (s.responseHandle.entries.map Entry.value) }
  | .notify c rest => { s.pushTo c none with closer := .notifying rest }
  | .closeEnd => { s with responseHandle := s.responseHandle.clear, connected := false, closer := .finished }

def machine (config : Config) : Machine State Event where
  start := connectedClient
  step s e := if Enabled config s e then some (next s e) else none

theorem step_eq_some {config : Config} {s s' : State} {e : Event} :
    (machine config).step s e = some s' ↔ Enabled config s e ∧ next s e = s' := by
  simp [machine]

@[simp] theorem setCall_calls (s : State) (c d : Nat) (call : Call) :
    (s.setCall c call).calls d = if d = c then call else s.calls d := by
  simp [State.setCall, Function.update_apply]

/-- What holds of a changed call and of the others holds of all. -/
theorem forall_setCall {P : Nat → Call → Prop} {s : State} {c : Nat} {call : Call} (hself : P c call)
    (hother : ∀ d, d ≠ c → P d (s.calls d)) (d : Nat) : P d ((s.setCall c call).calls d) := by
  rw [setCall_calls]
  by_cases heq : d = c
  · rw [if_pos heq, heq]
    exact hself
  · rw [if_neg heq]
    exact hother d heq

end RpcClient

end AcidCompute

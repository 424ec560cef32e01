import AcidCompute.Base.Machine
import AcidCompute.Rpc.Registry
import Mathlib.Logic.Function.Basic

/-!
# The connection pool (`acid/rpc/rpc_connection_pool.{h,cpp}`)

Any number of fibers call services through a pool, which keeps a connection for each service and asks the registry for
addresses when it has none.  One fiber receives what the registry sends, and one sends what is for it.  The events below
are the critical sections of the mutexes, the channel operations and the remote calls; what an event names besides its
fiber is what that fiber holds.  `m_connections_mutex` is held over many of them, `m_discover_mutex` and `m_sub_mutex`
only by the receiver in front of a step for which it may have to wait.

The registry may send anything at any time.  A message stands for its content, as the handlers read it
(`RpcConnectionPool.handlePublish_content`, `RpcConnectionPool.handleServiceDiscover_content`).  `close`, the heartbeat
and subscriptions from outside are left out, and a mutex is held until the outermost guard of the fiber gives it back.
-/

namespace AcidCompute

open AcidCompute.ByteArray

/-- What a pool sends to its registry. -/
inductive PoolMessage
  | discover (name : List Byte)
  | subscribe (key : List Byte)
  | publishResponse
  deriving DecidableEq, Repr

/-- What a registry sends to a pool; of a result only the code and the value are used. -/
inductive RegistryMessage
  | discoverResponse (service : List Byte) (results : List (BitVec 16 × List Byte))
  | publish (p : Publication)
  | subscribeResponse
  | other
  deriving DecidableEq, Repr

namespace RpcConnectionPool

/-! ### Contents of messages -/

section

variable [Host]

/-- What the callback of a subscription reads. -/
def readUpdate (s : ByteArray) : Except Fault ((Bool × List Byte) × ByteArray) :=
  Op.exec (do
    let isNewServer ← Scalar.read .bool
    let addr ← Scalar.read .string
    return (isNewServer, addr)) s

/-- The callback of the key is called, and reads what was published. -/
theorem handlePublish_content (pool : RpcConnectionPool) (p : Publication) {proto : Protocol}
    (hcontent : proto.content = p.content) (hlen : p.content.length < Serializer.defaultBaseSize) :
    ∃ s s', pool.handlePublish proto = .ok ((pool.subHandle.lookup p.key).map fun callback => (callback, s)) ∧
      readUpdate s = .ok ((p.online, p.address), s') := by
  obtain ⟨s, hkey, hready, hbase, hposition, hunread⟩ := Serializer.readKey_content
    (hcontent.trans rfl : proto.content = stringVint p.key ++ _) (by rw [hcontent]; exact hlen)
  have hreads : Reads .big (do
      let isNewServer ← Scalar.read .bool
      let addr ← Scalar.read .string
      return (isNewServer, addr)) ([if p.online then 1 else 0] ++ (stringVint p.address ++ [])) (p.online, p.address) :=
    (Scalar.reads_read .bool p.online).bind ((Scalar.reads_read .string p.address).bind (Reads.nil _))
  have hread := hreads s [] hready (by rw [hbase, hposition, hcontent]; exact hlen)
    (by rw [hunread]; exact (List.append_nil _).symm)
  refine ⟨s, _, ?_, Op.exec_of_ok hread⟩
  unfold handlePublish lookupKey
  rw [hkey]
  rfl

/-- An answer goes to the channel of the service that it names. -/
theorem handleServiceDiscover_content (pool : RpcConnectionPool) {proto : Protocol} {service rest : List Byte}
    (hcontent : proto.content = stringVint service ++ rest) (hlen : proto.content.length < Serializer.defaultBaseSize) :
    pool.handleServiceDiscover proto = .ok ((pool.discoverHandle.lookup service).map fun c => (c, proto)) := by
  obtain ⟨s, hkey, -⟩ := Serializer.readKey_content hcontent hlen
  unfold handleServiceDiscover lookupKey
  rw [hkey]
  simp only [bind, Except.bind, pure, Except.pure, Option.map_map]
  rfl

end

/-! ### The fibers of a pool -/

/-- How far a call has come. -/
inductive Phase
  | idle
  -- behind `lock.unlock()`, with the iterator `connection`
  | found (it : Nat)
  -- in the call of the client
  | calling (it : Nat)
  -- it has returned `RPC_CLOSED`
  | failed (it : Nat)
  -- in front of the look at the cache, with the mutex from here on
  | locked
  -- in front of `discover`
  | discovering
  -- with the iterator in `m_discover_handle`
  | requesting (it : Nat)
  | waiting (it : Nat)
  | received (it : Nat) (results : List (BitVec 16 × List Byte))
  -- in front of `subscribe`
  | subscribing (ret : List (List Byte))
  -- in `subscribe`, in front of the push of the request
  | subscribed (ret : List (List Byte))
  | discovered (ret : List (List Byte))
  -- in front of `select`
  | choosing
  -- in the call of a new client, without the mutex
  | remote
  | returned (code : BitVec 16)
  deriving DecidableEq, Repr

/-- `m_connections_mutex` is held in this phase. -/
def Phase.holds : Phase → Bool
  | .locked | .discovering | .requesting _ | .waiting _ | .received _ _ | .subscribing _ | .subscribed _
  | .discovered _ | .choosing => true
  | .idle | .found _ | .calling _ | .failed _ | .remote | .returned _ => false

/-- The call is inside `discover`. -/
def Phase.inDiscover : Phase → Bool
  | .discovering | .requesting _ | .waiting _ | .received _ _ | .subscribing _ | .subscribed _ | .discovered _ => true
  | .idle | .found _ | .calling _ | .failed _ | .locked | .choosing | .remote | .returned _ => false

/-- The iterator `connection`, in front of a use of it. -/
def Phase.connection : Phase → Option Nat
  | .found it | .failed it => some it
  | _ => none

/-- The iterator in `m_discover_handle`. -/
def Phase.handle : Phase → Option Nat
  | .requesting it | .waiting it | .received it _ => some it
  | _ => none

/-- The local variables of a call; `queue` is what `recv_channel` holds. -/
structure Call where
  name : List Byte
  phase : Phase
  queue : List (List (BitVec 16 × List Byte))
  deriving DecidableEq, Repr

def Call.fresh : Call := ⟨[], .idle, []⟩

/-- The fiber in `handle_recv`. -/
inductive Receiver
  | reading
  | dispatching (m : RegistryMessage)
  -- in `handle_service_discover`, with `m_discover_mutex`, in front of the push to the channel of a call
  | pushing (c : Nat) (results : List (BitVec 16 × List Byte))
  -- in the callback for a service, with `m_sub_mutex`, in front of the lock of `m_connections_mutex`
  | updating (name : List Byte) (online : Bool) (address : List Byte)
  -- in front of the push of `RPC_PUBLISH_RESPONSE`
  | replying
  deriving DecidableEq, Repr

def Receiver.holdsDiscover : Receiver → Bool
  | .pushing _ _ => true
  | _ => false

/-- The receiver waits for `m_connections_mutex`. -/
def Receiver.isUpdating : Receiver → Bool
  | .updating _ _ _ => true
  | _ => false

structure State where
  -- `m_connections`, with the address of the remote end for a client
  connections : NodeMap (List Byte) (List Byte)
  -- `m_service_cache`
  serviceCache : List Byte → List (List Byte)
  -- `m_discover_handle`, with the number of a call for its channel
  discoverHandle : NodeMap (List Byte) Nat
  -- `m_sub_handle`, with the captured name for a callback
  subHandle : List (List Byte × List Byte)
  -- `m_channel`
  channel : List PoolMessage
  -- `m_registry->is_connected()`
  connected : Bool
  -- the call that holds `m_connections_mutex`
  holder : Option Nat
  calls : Nat → Call
  receiver : Receiver
  fault : Option Undefined

/-- A pool after `connect`. -/
def connectedPool : State where
  connections := .empty
  serviceCache := fun _ => []
  discoverHandle := .empty
  subHandle := []
  channel := []
  connected := true
  holder := none
  calls := fun _ => .fresh
  receiver := .reading
  fault := none

inductive Event
  -- the steps of a call
  | call (c : Nat) (name : List Byte)
  | invoke (c it : Nat)
  | result (c it : Nat) (code : BitVec 16)
  | relock (c it : Nat)
  | lookCache (c : Nat)
  | openChannel (c : Nat)
  | request (c it : Nat)
  | takeResponse (c it : Nat) (results : List (BitVec 16 × List Byte))
  | decode (c it : Nat) (results : List (BitVec 16 × List Byte))
  | subscribe (c : Nat) (ret : List (List Byte))
  | requestSubscribe (c : Nat) (ret : List (List Byte))
  | store (c : Nat) (ret : List (List Byte))
  | connect (c : Nat) (address : List Byte) (success : Bool)
  | finish (c : Nat) (code : BitVec 16)
  -- the steps of the receiver
  | receive (m : RegistryMessage)
  | dispatch (m : RegistryMessage)
  | push (c : Nat) (results : List (BitVec 16 × List Byte))
  | update (name : List Byte) (online : Bool) (address : List Byte)
  | reply
  -- `handle_send` takes a message
  | transmit (m : PoolMessage)
  -- the connection to the registry ends
  | lose
  deriving DecidableEq, Repr

/-- The call that takes the step. -/
def Event.caller : Event → Option Nat
  | .call c _ | .invoke c _ | .result c _ _ | .relock c _ | .lookCache c | .openChannel c | .request c _
  | .takeResponse c _ _ | .decode c _ _ | .subscribe c _ | .requestSubscribe c _ | .store c _ | .connect c _ _
  | .finish c _ => some c
  | .receive _ | .dispatch _ | .push _ _ | .update _ _ _ | .reply | .transmit _ | .lose => none

namespace State

variable (s : State)

def setCall (c : Nat) (call : Call) : State := { s with calls := Function.update s.calls c call }

def setPhase (c : Nat) (phase : Phase) : State := s.setCall c { s.calls c with phase := phase }

/-- The mutex is taken, or given back. -/
def setHolder (holder : Option Nat) : State := { s with holder := holder }

/-- `m_service_cache[name] = addrs` -/
def setCache (name : List Byte) (addrs : List (List Byte)) : State :=
  { s with serviceCache := Function.update s.serviceCache name addrs }

def send (m : PoolMessage) : State := { s with channel := s.channel ++ [m] }

end State

/-- When a fiber can take its step. -/
def Enabled (capacity : Nat) (s : State) : Event → Prop
  | .call c _ => (s.calls c).phase = .idle ∧ s.holder = none
  | .invoke c it => (s.calls c).phase = .found it
  | .result c it _ => (s.calls c).phase = .calling it
  | .relock c it => (s.calls c).phase = .failed it ∧ s.holder = none
  | .lookCache c => (s.calls c).phase = .locked
  | .openChannel c => (s.calls c).phase = .discovering ∧ s.receiver.holdsDiscover = false
  | .request c it => (s.calls c).phase = .requesting it ∧ s.channel.length < capacity
  | .takeResponse c it results => (s.calls c).phase = .waiting it ∧ (s.calls c).queue.head? = some results
  | .decode c it results => (s.calls c).phase = .received it results ∧ s.receiver.holdsDiscover = false
  | .subscribe c ret => (s.calls c).phase = .subscribing ret ∧ s.receiver.isUpdating = false
  | .requestSubscribe c ret => (s.calls c).phase = .subscribed ret ∧ s.channel.length < capacity
  | .store c ret => (s.calls c).phase = .discovered ret
  -- `select` may take any address
  | .connect c address _ => (s.calls c).phase = .choosing ∧ address ∈ s.serviceCache (s.calls c).name
  | .finish c _ => (s.calls c).phase = .remote
  | .receive _ => s.receiver = .reading ∧ s.connected = true
  | .dispatch m => s.receiver = .dispatching m
  | .push c results => s.receiver = .pushing c results ∧ (s.calls c).queue.length < 1
  | .update name online address => s.receiver = .updating name online address ∧ s.holder = none
  | .reply => s.receiver = .replying ∧ s.channel.length < capacity
  | .transmit m => s.channel.head? = some m
  | .lose => s.connected = true

instance (capacity : Nat) (s : State) (e : Event) : Decidable (Enabled capacity s e) := by
  cases e <;> unfold Enabled <;> infer_instance

/-- What the callback of a subscription makes of the list of addresses. -/
def updateCache (online : Bool) (address : List Byte) (addrs : List (List Byte)) : List (List Byte) :=
  if online then addrs ++ [address] else addrs.filter fun a => a ≠ address

/-- The end of `discover`, in front of the subscription; `front()` of an empty vector dereferences a null pointer. -/
def discoveredAddresses : List (BitVec 16 × List Byte) → Except Undefined (List (List Byte))
  | [] => throw .nullDeref
  | first :: results =>
    if first.1 = RpcState.noMethod.code then return [] else return (first :: results).map Prod.snd

/-- What an enabled step does. -/
def next (s : State) : Event → State
  | .call c name =>
    match s.connections.find name with
    | some e => s.setCall c ⟨name, .found e.node, []⟩
    | none => (s.setCall c ⟨name, .locked, []⟩).setHolder (some c)
  | .invoke c it =>
    match s.connections.deref it with
    | some _ => s.setPhase c (.calling it)
    | none => { s with fault := some .danglingIterator }
  | .result c it code => s.setPhase c (if code = RpcState.closed.code then .failed it else .returned code)
  | .relock c it =>
    match s.connections.deref it with
    | some e =>
      let name := (s.calls c).name
      let s := s.setCache name ((s.serviceCache name).filter fun a => a ≠ e.value)
      let s := { s with connections := s.connections.eraseKey name }
      (s.setPhase c .locked).setHolder (some c)
    | none => { s with fault := some .danglingIterator }
  | .lookCache c =>
    if s.serviceCache (s.calls c).name ≠ [] then s.setPhase c .choosing
    else if s.connected then s.setPhase c .discovering
    else (s.setPhase c (.returned RpcState.closed.code)).setHolder none
  | .openChannel c =>
    if s.connected then
      let (handle, it) := s.discoverHandle.emplace (s.calls c).name c
      { s.setPhase c (.requesting it) with discoverHandle := handle }
    else s.setPhase c (.discovered [])
  | .request c it => (s.setPhase c (.waiting it)).send (.discover (s.calls c).name)
  | .takeResponse c it results =>
    s.setCall c { s.calls c with phase := .received it results, queue := (s.calls c).queue.tail }
  | .decode c it results =>
    match s.discoverHandle.erase it with
    | none => { s with fault := some .danglingIterator }
    | some handle =>
      let s := { s with discoverHandle := handle }
      match discoveredAddresses results with
      | .error u => { s with fault := some u }
      | .ok [] => s.setPhase c (.discovered [])
      | .ok ret =>
        if (s.subHandle.lookup (serviceSubscribe ++ (s.calls c).name)).isSome then s.setPhase c (.discovered ret)
        else s.setPhase c (.subscribing ret)
  | .subscribe c ret =>
    let name := (s.calls c).name
    match s.subHandle.lookup (serviceSubscribe ++ name) with
    -- `assert(false)`
    | some _ => s.setPhase c (.discovered ret)
    | none => { s.setPhase c (.subscribed ret) with subHandle := (serviceSubscribe ++ name, name) :: s.subHandle }
  | .requestSubscribe c ret =>
    (s.setPhase c (.discovered ret)).send (.subscribe (serviceSubscribe ++ (s.calls c).name))
  | .store c ret =>
    let s := s.setCache (s.calls c).name ret
    if ret = [] then (s.setPhase c (.returned RpcState.noMethod.code)).setHolder none else s.setPhase c .choosing
  | .connect c address success =>
    if success then
      let s := { s with connections := (s.connections.emplace (s.calls c).name address).1 }
      (s.setPhase c .remote).setHolder none
    else (s.setPhase c (.returned RpcState.fail.code)).setHolder none
  | .finish c code => s.setPhase c (.returned code)
  | .receive m => { s with receiver := .dispatching m }
  | .dispatch m =>
    match m with
    | .discoverResponse service results =>
      match s.discoverHandle.find service with
      | some e => { s with receiver := .pushing e.value results }
      | none => { s with receiver := .reading }
    | .publish p =>
      match s.subHandle.lookup p.key with
      | some name => { s with receiver := .updating name p.online p.address }
      | none => { s with receiver := .replying }
    | _ => { s with receiver := .reading }
  | .push c results =>
    { s.setCall c { s.calls c with queue := (s.calls c).queue ++ [results] } with receiver := .reading }
  | .update name online address =>
    { s.setCache name (updateCache online address (s.serviceCache name)) with receiver := .replying }
  | .reply => { s.send .publishResponse with receiver := .reading }
  | .transmit _ => { s with channel := s.channel.tail }
  | .lose => { s with connected := false }

/-- After undefined behaviour there are no more steps. -/
def machine (capacity : Nat) : Machine State Event where
  start := connectedPool
  step s e := if s.fault = none ∧ Enabled capacity s e then some (next s e) else none

theorem step_eq_some {capacity : Nat} {s s' : State} {e : Event} :
    (machine capacity).step s e = some s' ↔ (s.fault = none ∧ Enabled capacity s e) ∧ next s e = s' := by
  simp [machine]

end RpcConnectionPool

end AcidCompute

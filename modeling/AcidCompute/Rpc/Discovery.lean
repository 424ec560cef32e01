import AcidCompute.Base.Replica
import AcidCompute.Rpc.Pool
import AcidCompute.Rpc.RegistryTable

/-!
# A pool and a registry

One pool is connected to a registry, whose session for it has number 0, and any number of providers come and go.  The
session of the pool works on one message at a time, and an answer is sent some time after it was made, so that the
publications of other sessions may get in front of it.  The messages of each direction arrive in order.

A registration is entered in the tables in one step and published in another, as in `handle_register_service`.  The
loop of `handle_unregidter_service` erases an entry in one step and publishes in another, and other sessions take steps
in between: after the first publication the mutex is free.  A run ends in front of the erasing of an entry that is
gone, and of what `handle_client` does with its null request when the loop is done.
-/

namespace AcidCompute

open AcidCompute.ByteArray

/-- What a subscription does to the table, where a key keeps its first entry. -/
def RpcServiceRegistry.subscribe (registry : RpcServiceRegistry) (key : List Byte) (client : Nat) :
    RpcServiceRegistry :=
  ⟨if (registry.subscribes.lookup key).isSome then registry.subscribes else registry.subscribes ++ [(key, client)]⟩

theorem RpcServiceRegistry.handleSubscribe_subscribe [Host] (registry : RpcServiceRegistry) {proto : Protocol}
    (client : Nat) {key rest : List Byte} (hlen : proto.content.length < 2 ^ 31)
    (htake : takeString proto.content = some (key, rest)) :
    ∃ response, registry.handleSubscribe proto client = .ok (registry.subscribe key client, response) :=
  ⟨_, registrySubscribe_eq registry client hlen htake⟩

namespace Discovery

/-- How far the session of a provider has come. -/
inductive ProviderPhase
  | serving
  -- in the loop of `handle_unregidter_service`, in front of a round, with the key in `m_iters` and the iterators that
  -- are still to be erased
  | erasing (address : List Byte) (its : List Nat)
  -- in a round, in front of `publish`
  | publishing (address : List Byte) (its : List Nat)
  | left
  deriving DecidableEq, Repr

/-- The session of a provider. -/
structure Provider where
  -- `provider_address`
  address : Option IPv4Address
  -- `service_name` and `service_address` in `handle_register_service`, in front of `publish`
  announcing : Option (List Byte × List Byte)
  phase : ProviderPhase
  deriving DecidableEq, Repr

namespace Provider

def fresh : Provider := ⟨none, none, .serving⟩

/-- The address and the iterators that are still to be erased. -/
def cleanup (provider : Provider) : Option (List Byte × List Nat) :=
  match provider.phase with
  | .erasing address its | .publishing address its => some (address, its)
  | .serving | .left => none

end Provider

structure State where
  pool : RpcConnectionPool.State
  services : RpcServiceRegistry.Services
  registry : RpcServiceRegistry
  providers : Nat → Provider
  -- from the pool to the registry
  up : List PoolMessage
  -- made, and not sent
  answer : Option RegistryMessage
  -- from the registry to the pool
  down : List RegistryMessage

def initial : State where
  pool := RpcConnectionPool.connectedPool
  services := .empty
  registry := ⟨[]⟩
  providers := fun _ => .fresh
  up := []
  answer := none
  down := []

inductive Event
  -- a step of the pool between its channels
  | pool (e : RpcConnectionPool.Event)
  | transmit (m : PoolMessage)
  | receive (m : RegistryMessage)
  -- the session of the pool
  | serve (m : PoolMessage)
  | answer (m : RegistryMessage)
  -- the session of a provider
  | provider (p : Nat) (address : IPv4Address)
  | register (p : Nat) (address : IPv4Address) (name : List Byte)
  | announce (p : Nat) (name address : List Byte)
  -- the connection of the provider has ended
  | leave (p : Nat) (address : IPv4Address)
  | erase (p : Nat) (address : List Byte) (i : Nat) (its : List Nat)
  | publish (p : Nat) (address : List Byte) (its : List Nat)
  | finish (p : Nat) (address : List Byte)
  deriving DecidableEq, Repr

/-- The other steps of a pool take part in steps of this machine, or do not happen. -/
def isOwn : RpcConnectionPool.Event → Bool
  | .receive _ | .transmit _ | .lose => false
  | _ => true

namespace State

variable (s : State)

def setProvider (p : Nat) (provider : Provider) : State :=
  { s with providers := Function.update s.providers p provider }

def setPhase (p : Nat) (phase : ProviderPhase) : State := s.setProvider p { s.providers p with phase := phase }

/-- What `publish` sends to the pool. -/
def told (p : Publication) : List RegistryMessage :=
  ((s.registry.publish (fun _ => true) p.key p.content).filter fun sent => sent.1 = 0).map fun _ => .publish p

end State

/-- When a step can be taken. -/
def Enabled (capacity : Nat) (s : State) : Event → Prop
  | .pool e => s.pool.fault = none ∧ RpcConnectionPool.Enabled capacity s.pool e ∧ isOwn e = true
  | .transmit m => s.pool.fault = none ∧ RpcConnectionPool.Enabled capacity s.pool (.transmit m)
  | .receive m => s.pool.fault = none ∧ RpcConnectionPool.Enabled capacity s.pool (.receive m) ∧ s.down.head? = some m
  | .serve m => s.up.head? = some m ∧ s.answer = none
  | .answer m => s.answer = some m
  | .provider p _ => (s.providers p).phase = .serving ∧ (s.providers p).announcing = none
  | .register p address _ | .leave p address =>
    (s.providers p).phase = .serving ∧ (s.providers p).announcing = none ∧ (s.providers p).address = some address
  | .announce p name address => (s.providers p).announcing = some (name, address)
  | .erase p address i its =>
    (s.providers p).phase = .erasing address (i :: its) ∧ (s.services.eraseService i).isSome = true
  | .publish p address its => (s.providers p).phase = .publishing address its
  | .finish p address => (s.providers p).phase = .erasing address []

instance (capacity : Nat) (s : State) (e : Event) : Decidable (Enabled capacity s e) := by
  cases e <;> unfold Enabled <;> infer_instance

/-- What the pool makes of the results of `handle_discover_service`. -/
def discoverResponse [Host] (services : RpcServiceRegistry.Services) (name : List Byte) : RegistryMessage :=
  .discoverResponse name ((RpcServiceRegistry.discoverResults services name).map fun r => (r.code, r.value))

def next [Host] (s : State) : Event → State
  | .pool e => { s with pool := RpcConnectionPool.next s.pool e }
  | .transmit m => { s with pool := RpcConnectionPool.next s.pool (.transmit m), up := s.up ++ [m] }
  | .receive m => { s with pool := RpcConnectionPool.next s.pool (.receive m), down := s.down.tail }
  | .serve m =>
    let s := { s with up := s.up.tail }
    match m with
    | .discover name => { s with answer := some (discoverResponse s.services name) }
    | .subscribe key => { s with registry := s.registry.subscribe key 0, answer := some .subscribeResponse }
    | .publishResponse => s
  | .answer m => { s with answer := none, down := s.down ++ [m] }
  | .provider p address => s.setProvider p { s.providers p with address := some address }
  | .register p address name =>
    { s.setProvider p { s.providers p with announcing := some (name, address.toString) } with
      services := s.services.register name address.toString }
  | .announce p name address =>
    { s.setProvider p { s.providers p with announcing := none } with
      down := s.down ++ s.told ⟨serviceSubscribe ++ name, true, address⟩ }
  | .leave p address =>
    match s.services.iters.lookup address.toString with
    | none => s.setPhase p .left
    | some its => s.setPhase p (.erasing address.toString its)
  | .erase p address i its =>
    match s.services.eraseService i with
    | some services => { s.setPhase p (.publishing address its) with services := services }
    | none => s
  | .publish p address its =>
    { s.setPhase p (.erasing address its) with
      down := s.down ++ s.told ⟨serviceSubscribe ++ address, false, address⟩ }
  | .finish p address => { s.setPhase p .left with services := s.services.eraseIters address }

def machine [Host] (capacity : Nat) : Machine State Event where
  start := initial
  step s e := if Enabled capacity s e then some (next s e) else none

theorem step_eq_some [Host] {capacity : Nat} {s s' : State} {e : Event} :
    (machine capacity).step s e = some s' ↔ Enabled capacity s e ∧ next s e = s' := by
  simp [machine]

/-- No message is on its way, and nothing is waiting to be published or erased. -/
def Quiescent (s : State) : Prop :=
  s.pool.channel = [] ∧ s.up = [] ∧ s.answer = none ∧ s.down = [] ∧ s.pool.receiver = .reading ∧
    ∀ p, (s.providers p).announcing = none ∧ (s.providers p).cleanup = none

/-- The addresses that are registered for a service. -/
def State.registered (s : State) (name : List Byte) : List (List Byte) :=
  (s.services.services.equalRange name).map Entry.value

end Discovery

end AcidCompute

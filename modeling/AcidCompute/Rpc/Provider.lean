import AcidCompute.Base.Machine
import AcidCompute.Rpc.DiscoverResponse
import AcidCompute.Rpc.RegistryClient

/-!
# Servers that register their methods (`RpcServer::bind_registry` and `start`)

A server tells the registry its port, and registers the names of its methods one after another, each behind the answer
for the one before.  When its connection has ended, the session of the registry erases its entries one after another,
with the steps of other sessions in between.  All answers can be read, the registry can serve all requests and erase all
entries, and its tables hold just what servers have registered that has not been erased, with all names of a server that
has started (`Provider.provided_of_reaches`).

A session serves a request in one step: the tables change in one critical section, and what is sent goes to its own
server.  A run ends in front of what `handle_client` does with its null request when it has found the end of a
connection, which is undefined.
-/

namespace AcidCompute

open AcidCompute.ByteArray

namespace RpcServer

variable [Host]

-- what `bind_registry` sends
def providerMessage (port : BitVec 32) : Except Fault Protocol := do
  let s ← Serializer.new
  let (_, s) ← Op.exec (do
    Scalar.write .uint32 port
    Serializer.reset) s
  let (content, _) ← Op.exec ByteArray.toString s
  return Protocol.create .rpcProvider content 0

omit [Host] in
-- what `register_service` sends
def registerMessage (name : List Byte) : Protocol := Protocol.create .rpcServiceRegister name 0

omit [Host] in
/-- `Protocol::heartbeat()` -/
def heartbeatMessage : Protocol := Protocol.create .heartbeatPacket [] 0

-- what `register_service` makes of the response
def readRegistered (response : Protocol) : Except Fault (Result (CppType.scalar .string)) := do
  let s ← Serializer.ofString response.content
  let (res, _) ← Op.exec (Result.empty (CppType.scalar .string)).read s
  return res

/-- The message says that the service is registered. -/
def Confirms (response : Protocol) (name : List Byte) : Prop :=
  readRegistered response = .ok { Result.succeeded (CppType.scalar .string) with value := name }

theorem providerMessage_eq (port : BitVec 32) :
    providerMessage port = .ok (Protocol.create .rpcProvider (varint port) 0) := by
  have hlen := length_varint_le 4 (by decide) port
  obtain ⟨b, b', b'', hnew, hexec, hstring⟩ :=
    Serializer.write_toString (Scalar.writes_write .uint32 port) (show (varint port).length + _ ≤ _ by
      unfold Serializer.defaultBaseSize addressSpace
      omega)
  unfold providerMessage
  rw [hnew]
  show (Op.exec _ b >>= _ : Except Fault Protocol) = _
  rw [hexec]
  show (Op.exec ByteArray.toString b' >>= _ : Except Fault Protocol) = _
  rw [hstring]
  rfl

/-- The registry reads the port that was sent. -/
theorem hanldeProvider_providerMessage (port : BitVec 32) (remote : IPv4Address) :
    RpcServiceRegistry.hanldeProvider (Protocol.create .rpcProvider (varint port) 0) (some remote) =
      .ok { remote with port := BitVec.setWidth 16 port } := by
  have hlen := length_varint_le 4 (by decide) port
  obtain ⟨s, hs, hholds⟩ := Serializer.ofString_spec (varint port) (by omega)
  have hstart := hholds.ready.moveTo (Nat.zero_le s.size)
  have hunread : (s.moveTo 0).unread = varint port ++ [] := hholds.content_eq.trans (List.append_nil _).symm
  have hread := Scalar.reads_read .uint32 port (s.moveTo 0) [] hstart (by
    show 0 + (varint port).length < s.baseSize
    rw [hholds.base_eq]
    unfold Serializer.defaultBaseSize
    omega) hunread
  unfold RpcServiceRegistry.hanldeProvider
  rw [show (Protocol.create .rpcProvider (varint port) 0).content = varint port from rfl, hs]
  show (Op.exec _ s >>= _ : Except Fault IPv4Address) = _
  rw [show Serializer.reset = setPosition 0 from rfl, Op.exec_bind_of_ok (setPosition_zero hholds.ready.valid),
    Op.exec_of_ok hread]
  rfl

/-- The success that `handle_register_service` answers with, and its bytes. -/
private def confirmation (name : List Byte) : Result (CppType.scalar .string) :=
  { Result.succeeded (CppType.scalar .string) with value := name }

private def confirmationBytes (name : List Byte) : List Byte :=
  (confirmation name).bytes (Format.scalar .string : Format .big _)

private theorem confirmationBytes_eq (name : List Byte) :
    confirmationBytes name = [0, 0, 7, 115, 117, 99, 99, 101, 115, 115] ++ stringVint name := by
  have hfront : Scalar.bytes .big .uint16 RpcState.success.code ++ stringVint (text "success") =
      [0, 0, 7, 115, 117, 99, 99, 101, 115, 115] := by decide
  show Scalar.bytes .big .uint16 RpcState.success.code ++ (stringVint (text "success") ++ stringVint name) = _
  rw [← List.append_assoc, hfront]

private theorem length_confirmationBytes (name : List Byte) :
    (confirmationBytes name).length ≤ 20 + name.length := by
  have hvint := length_varint_le 9 (by decide) (BitVec.ofNat 64 name.length)
  rw [confirmationBytes_eq, List.length_append, stringVint, List.length_append]
  show 10 + _ ≤ _
  omega

/-- A name may be longer than a block, since only its length has to lie in the first one. -/
private theorem confirms_confirmationBytes (name : List Byte) (hlen : name.length + 20 < 2 ^ 31) :
    Confirms (Protocol.create .rpcServiceRegisterResponse (confirmationBytes name) 0) name := by
  have hlength := length_confirmationBytes name
  obtain ⟨s, hs, hholds⟩ := Serializer.ofString_spec (confirmationBytes name) (by omega)
  have hunread : s.unread = [0, 0, 7, 115, 117, 99, 99, 101, 115, 115] ++ stringVint name :=
    hholds.unread_eq.trans (confirmationBytes_eq name)
  have hfront : Reads .big (do
      let code ← Scalar.read .uint16
      let message ← Scalar.read .string
      return (code, message)) [0, 0, 7, 115, 117, 99, 99, 101, 115, 115]
      (RpcState.success.code, text "success") := by
    have hbytes : Scalar.bytes .big .uint16 RpcState.success.code ++ (stringVint (text "success") ++ []) =
        [0, 0, 7, 115, 117, 99, 99, 101, 115, 115] := by decide
    rw [← hbytes]
    exact (Scalar.reads_read .uint16 RpcState.success.code).bind
      ((Scalar.reads_read .string (text "success")).bind (Reads.nil _))
  have hten := hfront s (stringVint name) hholds.ready (by rw [hholds.position_eq, hholds.base_eq]; decide) hunread
  have hstart := hholds.ready.moveTo (position_le_of_unread hholds.ready.valid hunread)
  obtain ⟨p, -, hvalue, -⟩ := readStringVint_ok hstart (by
    refine Nat.lt_of_le_of_lt (Nat.min_le_right _ _) ?_
    show s.position + 10 + 10 < s.baseSize
    rw [hholds.position_eq, hholds.base_eq]
    decide) (show takeString (s.moveTo (s.position + 10)).unread = some (name, []) by
      rw [show s.position + 10 = s.position + ([0, 0, 7, 115, 117, 99, 99, 101, 115, 115] : List Byte).length from rfl,
        unread_moveTo hunread, ← List.append_nil (stringVint name)]
      exact takeString_append (by omega) [])
  have hread : (Result.empty (CppType.scalar .string)).read s = .ok (confirmation name) (s.moveTo p) := by
    have hsplit : (Result.empty (CppType.scalar .string)).read = (do
        let (code, message) ← (do
          let code ← Scalar.read .uint16
          let message ← Scalar.read .string
          return (code, message))
        if code = RpcState.success.code then
          let value ← readStringVint
          return ⟨code, message, value⟩
        else
          return ⟨code, message, (Result.empty (CppType.scalar .string)).value⟩) := by
      simp only [bind_assoc, pure_bind]
      rfl
    rw [hsplit, Op.bind_of_ok hten]
    exact Op.bind_of_ok hvalue
  unfold Confirms readRegistered
  rw [show (Protocol.create .rpcServiceRegisterResponse (confirmationBytes name) 0).content =
    confirmationBytes name from rfl, hs]
  show (Op.exec _ s >>= _ : Except Fault (Result (CppType.scalar .string))) = _
  rw [Op.exec_of_ok hread]
  rfl

/-- The registry enters the service, and what it answers is read as a success with the name of the service. -/
theorem handleRegisterService_confirms (s : RpcServiceRegistry.Services) {name : List Byte} (address : IPv4Address)
    (hlen : name.length + 20 < 2 ^ 31) :
    ∃ response, RpcServiceRegistry.handleRegisterService s (registerMessage name) (some address) =
        .ok (s.register name address.toString, response, ⟨serviceSubscribe ++ name, true, address.toString⟩) ∧
      Confirms response name := by
  have hlength := length_confirmationBytes name
  obtain ⟨b, b', b'', hnew, hexec, hstring⟩ := Serializer.write_toString
    (Result.writes_write (.scalar .string) (confirmation name)) (show (confirmationBytes name).length + _ ≤ _ by
      unfold Serializer.defaultBaseSize addressSpace
      omega)
  refine ⟨_, ?_, confirms_confirmationBytes name hlen⟩
  unfold RpcServiceRegistry.handleRegisterService
  rw [hnew]
  show (Op.exec _ b >>= _ : Except Fault (RpcServiceRegistry.Services × Protocol × Publication)) = _
  rw [show (registerMessage name).content = name from rfl]
  show (Op.exec ((confirmation name).write >>= fun _ => Serializer.reset) b >>= _ :
    Except Fault (RpcServiceRegistry.Services × Protocol × Publication)) = _
  rw [hexec]
  show (Op.exec ByteArray.toString b' >>= _ : Except Fault (RpcServiceRegistry.Services × Protocol × Publication)) = _
  rw [hstring]
  rfl

end RpcServer

namespace RpcServiceRegistry

variable [Host] (remote : IPv4Address) (client : Nat)

private theorem dispatch_providerMessage (s : Serving) (port : BitVec 32) :
    dispatch (some remote) client s (Protocol.create .rpcProvider (varint port) 0) =
      .ok { s with provider := some { remote with port := BitVec.setWidth 16 port } } := by
  have htype : (Protocol.create .rpcProvider (varint port) 0).type = MessageType.rpcProvider.code := rfl
  unfold dispatch
  rw [htype, if_neg (by decide), if_pos rfl, RpcServer.hanldeProvider_providerMessage]
  rfl

private theorem dispatch_registerMessage (s : Serving) {name : List Byte} {address : IPv4Address}
    (hprovider : s.provider = some address) (hlen : name.length + 20 < 2 ^ 31) :
    ∃ response, dispatch (some remote) client s (RpcServer.registerMessage name) =
        .ok { s with
          services := s.services.register name address.toString
          sent := s.sent ++ [response]
          published := s.published ++ [⟨serviceSubscribe ++ name, true, address.toString⟩] } ∧
      RpcServer.Confirms response name := by
  obtain ⟨response, hregister, hconfirms⟩ := RpcServer.handleRegisterService_confirms s.services address hlen
  have htype : (RpcServer.registerMessage name).type = MessageType.rpcServiceRegister.code := rfl
  refine ⟨response, ?_, hconfirms⟩
  unfold dispatch
  rw [htype, if_neg (by decide), if_neg (by decide), if_pos rfl, hprovider, hregister]
  rfl

private theorem dispatch_heartbeatMessage (s : Serving) :
    dispatch (some remote) client s RpcServer.heartbeatMessage =
      .ok { s with sent := s.sent ++ [RpcServer.heartbeatMessage] } := by
  unfold dispatch
  rw [show RpcServer.heartbeatMessage.type = MessageType.heartbeatPacket.code from rfl, if_pos rfl]
  rfl

end RpcServiceRegistry

namespace Provider

open RpcServiceRegistry RpcServer

/-- A server, with the address that the registry sees its connection come from. -/
structure Config where
  remote : IPv4Address
  -- `m_port`
  port : BitVec 32
  -- the keys of `m_handlers`, in their order
  handlers : List (List Byte)

/-- The address that the services of a server are registered for. -/
def Config.address (config : Config) : IPv4Address := { config.remote with port := BitVec.setWidth 16 config.port }

inductive Stage
  | offline
  -- behind `bind_registry`
  | bound
  -- in `start`, in front of `register_service` for what is left of `m_handlers`
  | registering (handlers : List (List Byte))
  -- in `register_service`, in front of `recv_protocol`
  | waiting (name : List Byte) (handlers : List (List Byte))
  | started
  -- in the callback of `m_heart_timer`, in front of `recv_protocol`
  | beating
  -- `m_heart_timer` is cancelled
  | alone
  -- an exception has left `bind_registry` or `start`
  | failed
  deriving DecidableEq, Repr

/-- How far the session of the registry is behind the end of the connection. -/
inductive Cleanup
  -- in `handle_client`, the end has not been found
  | serving
  -- in `handle_unregidter_service`, with the iterators that are still to be erased
  | erasing (its : List Nat)
  | finished
  deriving DecidableEq, Repr

/-- The iterators that are still to be erased. -/
def Cleanup.its : Cleanup → List Nat
  | .erasing its => its
  | .serving | .finished => []

/-- In `handle_unregidter_service`. -/
def Cleanup.isErasing : Cleanup → Bool
  | .erasing _ => true
  | .serving | .finished => false

/-- A server, its connection to the registry and the session of the registry for it. -/
structure Peer where
  stage : Stage
  -- the services for which it has read a success
  registered : List (List Byte)
  opened : Bool
  up : List Protocol
  down : List Protocol
  -- `provider_address`
  provider : Option IPv4Address
  cleanup : Cleanup
  -- what the session has entered in the tables and not erased
  entered : List (Entry (List Byte) (List Byte))

namespace Peer

def initial : Peer := ⟨.offline, [], false, [], [], none, .serving, []⟩

/-- The key of the server in `m_iters`. -/
def key (peer : Peer) : Option (List Byte) := peer.provider.map IPv4Address.toString

/-- `send_protocol`, whose result nobody looks at. -/
def send (peer : Peer) (m : Protocol) : Peer := if peer.opened then { peer with up := peer.up ++ [m] } else peer

/-- Behind a request that has been served, where the next node was the given one. -/
def served (peer : Peer) (node : Nat) (up : List Protocol) (serving : Serving) : Peer :=
  { peer with
    up := up
    down := if peer.opened then peer.down ++ serving.sent else peer.down
    provider := serving.provider
    entered := peer.entered ++ serving.services.services.entries.filter fun e => node ≤ e.node }

end Peer

/-- The registry and any number of servers. -/
structure State (n : Nat) where
  services : Services
  peers : Fin n → Peer
  -- a session runs into undefined behaviour or an exception while it serves a request or erases an entry
  crashed : Bool

inductive Event (n : Nat)
  | bindRegistry (p : Fin n)
  | start (p : Fin n)
  -- `register_service` up to `recv_protocol`, and behind it
  | send (p : Fin n)
  | receive (p : Fin n)
  | finish (p : Fin n)
  | heartbeat (p : Fin n)
  | lose (p : Fin n)
  -- `recv_protocol` returns nothing
  | receiveNothing (p : Fin n)
  -- the session of the registry
  | serve (p : Fin n)
  -- it finds the end of the connection, erases the entries one after another, and then the list of iterators
  | leave (p : Fin n)
  | erase (p : Fin n)
  | forget (p : Fin n)
  deriving DecidableEq, Repr

variable {n : Nat}

def State.initial : State n := ⟨.empty, fun _ => .initial, false⟩

def State.setPeer (s : State n) (p : Fin n) (peer : Peer) : State n :=
  { s with peers := Function.update s.peers p peer }

/-- In front of `recv_protocol`. -/
def Stage.receives : Stage → Bool
  | .waiting _ _ | .beating => true
  | _ => false

/-- In front of `register_service`. -/
def Stage.registers : Stage → Bool
  | .registering (_ :: _) => true
  | _ => false

def Enabled (s : State n) : Event n → Prop
  | .bindRegistry p => (s.peers p).stage = .offline
  | .start p => (s.peers p).stage = .bound
  | .send p => (s.peers p).stage.registers = true
  | .receive p => (s.peers p).stage.receives = true ∧ (s.peers p).down ≠ []
  | .finish p => (s.peers p).stage = .registering []
  | .heartbeat p => (s.peers p).stage = .started
  | .lose p => (s.peers p).opened = true
  -- `start` sets a receive timeout behind the registrations
  | .receiveNothing p =>
    (s.peers p).stage = .beating ∨ (s.peers p).stage.receives = true ∧ (s.peers p).opened = false
  | .serve p => (s.peers p).cleanup = .serving ∧ (s.peers p).up ≠ []
  | .leave p => (s.peers p).cleanup = .serving ∧ (s.peers p).stage ≠ .offline ∧ (s.peers p).opened = false
  | .erase p => (s.peers p).cleanup.its ≠ []
  | .forget p => (s.peers p).cleanup = .erasing []

instance (s : State n) (e : Event n) : Decidable (Enabled s e) := by
  cases e <;> unfold Enabled <;> infer_instance

variable [Host] (config : Fin n → Config)

def next (s : State n) : Event n → State n
  | .bindRegistry p =>
    match providerMessage (config p).port with
    | .ok m => s.setPeer p { s.peers p with stage := .bound, opened := true, up := [m] }
    | .error _ => s.setPeer p { s.peers p with stage := .failed }
  | .start p => s.setPeer p { s.peers p with stage := .registering (config p).handlers }
  | .send p =>
    match (s.peers p).stage with
    | .registering (name :: handlers) =>
      s.setPeer p ({ s.peers p with stage := .waiting name handlers }.send (registerMessage name))
    | _ => s
  | .receive p =>
    match (s.peers p).stage, (s.peers p).down with
    | .waiting name handlers, m :: down =>
      match readRegistered m with
      | .ok res =>
        s.setPeer p { s.peers p with
          stage := .registering handlers
          down := down
          -- other results are logged
          registered :=
            if res.code = RpcState.success.code then (s.peers p).registered ++ [name] else (s.peers p).registered }
      | .error _ => s.setPeer p { s.peers p with stage := .failed }
    | .beating, _ :: down => s.setPeer p { s.peers p with stage := .started, down := down }
    | _, _ => s
  | .finish p => s.setPeer p { s.peers p with stage := .started }
  | .heartbeat p => s.setPeer p ({ s.peers p with stage := .beating }.send heartbeatMessage)
  | .lose p => s.setPeer p { s.peers p with opened := false }
  | .receiveNothing p =>
    match (s.peers p).stage with
    | .waiting _ handlers => s.setPeer p { s.peers p with stage := .registering handlers, down := [] }
    | .beating => s.setPeer p { s.peers p with stage := .alone, down := [] }
    | _ => s
  | .serve p =>
    match (s.peers p).up with
    | [] => s
    | m :: up =>
      match dispatch (some (config p).remote) p ⟨s.services, ⟨[]⟩, (s.peers p).provider, [], []⟩ m with
      | .ok serving =>
        { s.setPeer p ((s.peers p).served s.services.services.next up serving) with services := serving.services }
      | .error _ => { s with crashed := true }
  | .leave p =>
    match (s.peers p).provider with
    | none => s.setPeer p { s.peers p with cleanup := .finished }
    | some address =>
      match s.services.iters.lookup address.toString with
      | none => s.setPeer p { s.peers p with cleanup := .finished }
      | some its => s.setPeer p { s.peers p with cleanup := .erasing its }
  | .erase p =>
    match (s.peers p).cleanup with
    | .erasing (i :: its) =>
      match s.services.eraseService i with
      | some services =>
        { s.setPeer p { s.peers p with
            cleanup := .erasing its
            entered := (s.peers p).entered.filter fun e => e.node ≠ i } with
          services := services }
      | none => { s with crashed := true }
    | _ => s
  | .forget p =>
    match (s.peers p).provider with
    | some address =>
      { s.setPeer p { s.peers p with cleanup := .finished } with services := s.services.eraseIters address.toString }
    | none => s

def machine : Machine (State n) (Event n) where
  start := .initial
  step s e := if Enabled s e then some (next config s e) else none

variable {config} {s s' : State n} {e : Event n}

theorem machine_step (h : (machine config).step s e = some s') : Enabled s e ∧ next config s e = s' := by
  simpa [machine] using h

variable (config) in
/-- While the services of a provider go, no other session that has not finished has its address. -/
def Apart (s : State n) : Event n → Prop
  | .leave p => (s.peers p).key = none ∨
    ∀ q, q ≠ p → (s.peers q).cleanup ≠ .finished → (s.peers q).key ≠ (s.peers p).key
  -- the address becomes known
  | .serve p => (s.peers p).provider = none →
    ∀ q, q ≠ p → (s.peers q).cleanup.isErasing = true → (s.peers q).key ≠ some (config p).address.toString
  | _ => True

instance (s : State n) (e : Event n) : Decidable (Apart config s e) := by
  cases e <;> unfold Apart <;> infer_instance

/-! ### The exchange of one server -/

/-- Where a server with an open connection is in its registrations: the requests behind `RPC_PROVIDER` and the answers
that are on their way, the services that are entered in the tables, and those that the server knows of. -/
def Exchange (handlers : List (List Byte)) (pending down : List Protocol) (entered registered : List (List Byte)) :
    Stage → Prop
  | .bound => pending = [] ∧ down = [] ∧ entered = [] ∧ registered = []
  | .registering rest => pending = [] ∧ down = [] ∧ entered = registered ∧ handlers = registered ++ rest
  | .waiting name rest =>
    handlers = registered ++ name :: rest ∧
      (pending = [registerMessage name] ∧ down = [] ∧ entered = registered ∨
        pending = [] ∧ (∃ m, down = [m] ∧ Confirms m name) ∧ entered = registered ++ [name])
  | .started => pending = [] ∧ down = [] ∧ entered = handlers ∧ registered = handlers
  | .beating =>
    (pending = [heartbeatMessage] ∧ down = [] ∨ pending = [] ∧ ∃ m, down = [m]) ∧ entered = handlers ∧
      registered = handlers
  | .alone => (pending = [] ∨ pending = [heartbeatMessage]) ∧ entered = handlers ∧ registered = handlers
  | .offline | .failed => False

/-- The requests behind `RPC_PROVIDER`. -/
def Peer.pending (peer : Peer) : List Protocol := peer.up.filter fun m => m.type ≠ MessageType.rpcProvider.code

/-- A request that a server sends behind `RPC_PROVIDER`. -/
def Request (handlers : List (List Byte)) (m : Protocol) : Prop :=
  (∃ name ∈ handlers, m = registerMessage name) ∨ m = heartbeatMessage

/-- What holds of a server and its session, whether or not the connection is open. -/
structure Sound (config : Config) (peer : Peer) : Prop where
  stage : peer.stage ≠ .failed
  offline : peer.stage = .offline → peer = .initial
  closed : peer.cleanup ≠ .serving → peer.opened = false
  unannounced : peer.provider = none → peer.entered = [] ∧ (peer.stage = .offline ∨
    ∃ pending, peer.up = Protocol.create .rpcProvider (varint config.port) 0 :: pending ∧
      ∀ m ∈ pending, Request config.handlers m)
  announced : ∀ a, peer.provider = some a → a = config.address ∧ ∀ m ∈ peer.up, Request config.handlers m
  entered : ∀ e ∈ peer.entered, e.value = config.address.toString ∧ e.key ∈ config.handlers
  -- nothing but an answer that the server waits for, or has given up
  down : peer.down = [] ∨ (∃ name rest m, peer.stage = .waiting name rest ∧ peer.down = [m] ∧ Confirms m name) ∨
    (∃ m, peer.stage = .beating ∧ peer.down = [m]) ∨ peer.stage = .alone
  registering : ∀ rest, peer.stage = .registering rest → ∀ name ∈ rest, name ∈ config.handlers
  waiting : ∀ name rest, peer.stage = .waiting name rest → ∀ name' ∈ name :: rest, name' ∈ config.handlers
  exchange : peer.opened = true →
    Exchange config.handlers peer.pending peer.down (peer.entered.map Entry.key) peer.registered peer.stage

theorem Sound.initial (config : Config) : Sound config .initial := by
  constructor
  case stage => rintro ⟨⟩
  case offline => exact fun _ => rfl
  case closed => exact fun hnot => absurd rfl hnot
  case unannounced => exact fun _ => ⟨rfl, .inl rfl⟩
  case announced => rintro a ⟨⟩
  case entered => rintro e ⟨⟩
  case down => exact .inl rfl
  case registering => rintro rest ⟨⟩
  case waiting => rintro name rest ⟨⟩
  case exchange => rintro ⟨⟩

section

variable {config : Config} {peer : Peer}

/-- A server that is not waiting, with the rest of the record as it was. -/
private theorem Sound.setStage (h : Sound config peer) {stage : Stage} (hdown : peer.down = [])
    (hoffline : peer.stage ≠ .offline) (hstage : stage ≠ .failed ∧ stage ≠ .offline)
    (hrest : ∀ rest, stage = .registering rest → ∀ name ∈ rest, name ∈ config.handlers)
    (hwaiting : ∀ name rest, stage = .waiting name rest → ∀ name' ∈ name :: rest, name' ∈ config.handlers)
    (hexchange : peer.opened = true →
      Exchange config.handlers peer.pending peer.down (peer.entered.map Entry.key) peer.registered stage) :
    Sound config { peer with stage := stage } := by
  refine { h with
    stage := hstage.1
    offline := fun heq => absurd heq hstage.2
    unannounced := fun hnone => ?_
    down := .inl hdown
    registering := hrest
    waiting := hwaiting
    exchange := hexchange }
  obtain ⟨hentered, hup⟩ := h.unannounced hnone
  exact ⟨hentered, .inr (hup.resolve_left hoffline)⟩

theorem Sound.bindRegistry (h : Sound config peer) (hstage : peer.stage = .offline) :
    Sound config { peer with
      stage := .bound, opened := true, up := [Protocol.create .rpcProvider (varint config.port) 0] } := by
  rw [h.offline hstage]
  constructor
  case stage => rintro ⟨⟩
  case offline => rintro ⟨⟩
  case closed => exact fun hnot => absurd rfl hnot
  case unannounced => exact fun _ => ⟨rfl, .inr ⟨[], rfl, by simp⟩⟩
  case announced => rintro a ⟨⟩
  case entered => rintro e ⟨⟩
  case down => exact .inl rfl
  case registering => rintro rest ⟨⟩
  case waiting => rintro name rest ⟨⟩
  case exchange => exact fun _ => ⟨rfl, rfl, rfl, rfl⟩

theorem Sound.start (h : Sound config peer) (hstage : peer.stage = .bound) :
    Sound config { peer with stage := .registering config.handlers } := by
  have hdown : peer.down = [] := by simpa [hstage] using h.down
  refine h.setStage hdown (by simp [hstage]) ⟨by rintro ⟨⟩, by rintro ⟨⟩⟩ ?_ (by rintro name rest ⟨⟩) fun hopened => ?_
  · rintro rest ⟨⟩ name hname
    exact hname
  · have hexchange := h.exchange hopened
    rw [hstage] at hexchange
    obtain ⟨hpending, -, hentered, hregistered⟩ := hexchange
    exact ⟨hpending, hdown, hentered.trans hregistered.symm, by rw [hregistered]; rfl⟩

theorem Sound.finish (h : Sound config peer) (hstage : peer.stage = .registering []) :
    Sound config { peer with stage := .started } := by
  have hdown : peer.down = [] := by simpa [hstage] using h.down
  refine h.setStage hdown (by simp [hstage]) ⟨by rintro ⟨⟩, by rintro ⟨⟩⟩ (by rintro rest ⟨⟩) (by rintro name rest ⟨⟩)
    fun hopened => ?_
  have hexchange := h.exchange hopened
  rw [hstage] at hexchange
  obtain ⟨hpending, -, hentered, hhandlers⟩ := hexchange
  rw [List.append_nil] at hhandlers
  exact ⟨hpending, hdown, hentered.trans hhandlers.symm, hhandlers.symm⟩

/-- A request is sent behind the others. -/
private theorem Sound.send (h : Sound config peer) {m : Protocol} (hm : Request config.handlers m)
    (hoffline : peer.stage ≠ .offline) {stage : Stage} (hdown : peer.down = [])
    (hstage : stage ≠ .failed ∧ stage ≠ .offline) (hrest : ∀ rest, stage ≠ .registering rest)
    (hwaiting : ∀ name rest, stage = .waiting name rest → ∀ name' ∈ name :: rest, name' ∈ config.handlers)
    (hexchange : peer.opened = true →
      Exchange config.handlers (peer.pending ++ [m]) peer.down (peer.entered.map Entry.key) peer.registered stage) :
    Sound config (Peer.send { peer with stage := stage } m) := by
  have htype : decide (m.type ≠ MessageType.rpcProvider.code) = true := by
    rcases hm with ⟨name, -, rfl⟩ | rfl
    · exact decide_eq_true (show MessageType.rpcServiceRegister.code ≠ MessageType.rpcProvider.code by decide)
    · exact decide_eq_true (show MessageType.heartbeatPacket.code ≠ MessageType.rpcProvider.code by decide)
  unfold Peer.send
  dsimp only
  split
  case isTrue hopened =>
    refine { h with
      stage := hstage.1
      offline := fun heq => absurd heq hstage.2
      unannounced := fun hnone => ?_
      announced := fun a ha => ?_
      down := .inl hdown
      registering := fun rest heq => absurd heq (hrest rest)
      waiting := hwaiting
      exchange := fun _ => ?_ }
    · obtain ⟨hentered, hup⟩ := h.unannounced hnone
      obtain ⟨pending, hup, hpending⟩ := hup.resolve_left hoffline
      refine ⟨hentered, .inr ⟨pending ++ [m], ?_, ?_⟩⟩
      · show peer.up ++ [m] = _
        rw [hup]
        rfl
      · intro m' hm'
        rcases List.mem_append.1 hm' with hm' | hm'
        · exact hpending m' hm'
        · rw [List.mem_singleton.1 hm']
          exact hm
    · refine ⟨(h.announced a ha).1, fun m' hm' => ?_⟩
      rcases List.mem_append.1 hm' with hm' | hm'
      · exact (h.announced a ha).2 m' hm'
      · rw [List.mem_singleton.1 hm']
        exact hm
    · have hpending : Peer.pending { peer with stage := stage, up := peer.up ++ [m] } = peer.pending ++ [m] := by
        unfold Peer.pending
        rw [List.filter_append, List.filter_cons, if_pos htype]
        rfl
      rw [hpending]
      exact hexchange hopened
  case isFalse hclosed =>
    exact h.setStage hdown hoffline hstage (fun rest heq => absurd heq (hrest rest)) hwaiting
      fun hopened => absurd hopened hclosed

theorem Sound.register (h : Sound config peer) {name : List Byte} {handlers : List (List Byte)}
    (hstage : peer.stage = .registering (name :: handlers)) :
    Sound config (Peer.send { peer with stage := .waiting name handlers } (registerMessage name)) := by
  have hdown : peer.down = [] := by simpa [hstage] using h.down
  have hmem := h.registering _ hstage
  refine h.send (.inl ⟨name, hmem name List.mem_cons_self, rfl⟩) (by simp [hstage]) hdown
    ⟨by rintro ⟨⟩, by rintro ⟨⟩⟩ (by rintro rest ⟨⟩) ?_ fun hopened => ?_
  · rintro name' rest ⟨⟩
    exact hmem
  · have hexchange := h.exchange hopened
    rw [hstage] at hexchange
    obtain ⟨hpending, -, hentered, hhandlers⟩ := hexchange
    exact ⟨hhandlers, .inl ⟨by rw [hpending]; rfl, hdown, hentered⟩⟩

theorem Sound.heartbeat (h : Sound config peer) (hstage : peer.stage = .started) :
    Sound config (Peer.send { peer with stage := .beating } heartbeatMessage) := by
  have hdown : peer.down = [] := by simpa [hstage] using h.down
  refine h.send (.inr rfl) (by simp [hstage]) hdown ⟨by rintro ⟨⟩, by rintro ⟨⟩⟩ (by rintro rest ⟨⟩)
    (by rintro name rest ⟨⟩) fun hopened => ?_
  have hexchange := h.exchange hopened
  rw [hstage] at hexchange
  obtain ⟨hpending, -, hentered, hregistered⟩ := hexchange
  exact ⟨.inl ⟨by rw [hpending]; rfl, hdown⟩, hentered, hregistered⟩

/-- The answer that a server waits for is a success. -/
theorem Sound.receive (h : Sound config peer) {name : List Byte} {handlers : List (List Byte)} {m : Protocol}
    {down : List Protocol} (hstage : peer.stage = .waiting name handlers) (hdown : peer.down = m :: down) :
    Confirms m name ∧ Sound config { peer with
      stage := .registering handlers, down := down, registered := peer.registered ++ [name] } := by
  have hanswer : Confirms m name ∧ down = [] := by
    rcases h.down with hnone | ⟨name', rest, m', heq, hone, hconfirms⟩ | ⟨m', heq, -⟩ | heq
    · rw [hdown] at hnone
      cases hnone
    · rw [hdown] at hone
      rw [hstage] at heq
      cases hone
      cases heq
      exact ⟨hconfirms, rfl⟩
    · rw [hstage] at heq
      cases heq
    · rw [hstage] at heq
      cases heq
  obtain ⟨hconfirms, rfl⟩ := hanswer
  refine ⟨hconfirms, ?_⟩
  have hoffline : peer.stage ≠ .offline := by simp [hstage]
  refine { h with
    stage := by rintro ⟨⟩
    offline := by rintro ⟨⟩
    unannounced := fun hnone => ?_
    down := .inl rfl
    registering := ?_
    waiting := by rintro name rest ⟨⟩
    exchange := fun hopened => ?_ }
  · obtain ⟨hentered, hup⟩ := h.unannounced hnone
    exact ⟨hentered, .inr (hup.resolve_left hoffline)⟩
  · rintro rest ⟨⟩ name' hname'
    exact h.waiting name handlers hstage name' (List.mem_cons_of_mem _ hname')
  · have hexchange := h.exchange hopened
    rw [hstage] at hexchange
    obtain ⟨hhandlers, ⟨-, hnone, -⟩ | ⟨hpending, -, hentered⟩⟩ := hexchange
    · rw [hdown] at hnone
      cases hnone
    · exact ⟨hpending, rfl, hentered, by rw [List.append_assoc]; exact hhandlers⟩

theorem Sound.receiveHeartbeat (h : Sound config peer) {m : Protocol} {down : List Protocol}
    (hstage : peer.stage = .beating) (hdown : peer.down = m :: down) :
    Sound config { peer with stage := .started, down := down } := by
  have hone : down = [] := by
    have hanswer := h.down
    simp only [hstage, hdown] at hanswer
    rcases hanswer with ⟨⟨⟩⟩ | ⟨_, _, _, ⟨⟩, -⟩ | ⟨m', -, hone⟩ | ⟨⟨⟩⟩
    cases hone
    rfl
  subst hone
  have hoffline : peer.stage ≠ .offline := by simp [hstage]
  refine { h with
    stage := by rintro ⟨⟩
    offline := by rintro ⟨⟩
    unannounced := fun hnone => ?_
    down := .inl rfl
    registering := by rintro rest ⟨⟩
    waiting := by rintro name rest ⟨⟩
    exchange := fun hopened => ?_ }
  · obtain ⟨hentered, hup⟩ := h.unannounced hnone
    exact ⟨hentered, .inr (hup.resolve_left hoffline)⟩
  · have hexchange := h.exchange hopened
    rw [hstage] at hexchange
    obtain ⟨⟨-, hnone⟩ | ⟨hpending, -⟩, hentered, hregistered⟩ := hexchange
    · rw [hdown] at hnone
      cases hnone
    · exact ⟨hpending, rfl, hentered, hregistered⟩

/-- A server that gives up waiting. -/
private theorem Sound.giveUp (h : Sound config peer) (hoffline : peer.stage ≠ .offline) {stage : Stage}
    (hstage : stage ≠ .failed ∧ stage ≠ .offline)
    (hrest : ∀ rest, stage = .registering rest → ∀ name ∈ rest, name ∈ config.handlers)
    (hwaiting : ∀ name rest, stage ≠ .waiting name rest)
    (hexchange : peer.opened = true →
      Exchange config.handlers peer.pending [] (peer.entered.map Entry.key) peer.registered stage) :
    Sound config { peer with stage := stage, down := [] } := by
  refine { h with
    stage := hstage.1
    offline := fun heq => absurd heq hstage.2
    unannounced := fun hnone => ?_
    down := .inl rfl
    registering := hrest
    waiting := fun name rest heq => absurd heq (hwaiting name rest)
    exchange := hexchange }
  obtain ⟨hentered, hup⟩ := h.unannounced hnone
  exact ⟨hentered, .inr (hup.resolve_left hoffline)⟩

theorem Sound.receiveNothing (h : Sound config peer) {name : List Byte} {handlers : List (List Byte)}
    (hstage : peer.stage = .waiting name handlers) (hclosed : peer.opened = false) :
    Sound config { peer with stage := .registering handlers, down := [] } := by
  refine h.giveUp (by simp [hstage]) ⟨by rintro ⟨⟩, by rintro ⟨⟩⟩ ?_ (by rintro name rest ⟨⟩) fun hopened => ?_
  · rintro rest ⟨⟩ name' hname'
    exact h.waiting name handlers hstage name' (List.mem_cons_of_mem _ hname')
  · rw [hclosed] at hopened
    cases hopened

theorem Sound.abandon (h : Sound config peer) (hstage : peer.stage = .beating) :
    Sound config { peer with stage := .alone, down := [] } := by
  refine h.giveUp (by simp [hstage]) ⟨by rintro ⟨⟩, by rintro ⟨⟩⟩ (by rintro rest ⟨⟩) (by rintro name rest ⟨⟩)
    fun hopened => ?_
  have hexchange := h.exchange hopened
  rw [hstage] at hexchange
  obtain ⟨⟨hpending, -⟩ | ⟨hpending, -⟩, hentered, hregistered⟩ := hexchange
  · exact ⟨.inr hpending, hentered, hregistered⟩
  · exact ⟨.inl hpending, hentered, hregistered⟩

theorem Sound.lose (h : Sound config peer) (hopened : peer.opened = true) :
    Sound config { peer with opened := false } := by
  refine { h with offline := fun heq => ?_, closed := fun _ => rfl, exchange := by rintro ⟨⟩ }
  rw [h.offline heq] at hopened
  cases hopened

/-- The session goes on behind the end of the connection. -/
theorem Sound.cleanup (h : Sound config peer) (hoffline : peer.stage ≠ .offline) (hclosed : peer.opened = false)
    (cleanup : Cleanup) {entered : List (Entry (List Byte) (List Byte))} (hentered : entered ⊆ peer.entered) :
    Sound config { peer with cleanup := cleanup, entered := entered } := by
  refine { h with
    offline := fun heq => absurd heq hoffline
    closed := fun _ => hclosed
    unannounced := fun hnone => ?_
    entered := fun e he => h.entered e (hentered he)
    exchange := fun hopened => ?_ }
  · obtain ⟨hnothing, hup⟩ := h.unannounced hnone
    exact ⟨List.eq_nil_of_subset_nil (hnothing ▸ hentered), hup⟩
  · have hopened : peer.opened = true := hopened
    rw [hclosed] at hopened
    cases hopened

/-- What serving the request in front does: nothing to the tables, or it enters a service of the server. -/
def Serves (config : Config) (services : Services) (peer : Peer) (up : List Protocol) (serving : Serving) : Prop :=
  Sound config (peer.served services.services.next up serving) ∧
    (serving.services = services ∧ (peer.served services.services.next up serving).entered = peer.entered ∧
        (serving.provider = peer.provider ∨ peer.provider = none ∧ serving.provider = some config.address) ∨
      ∃ name, serving.services = services.register name config.address.toString ∧
        (peer.served services.services.next up serving).entered =
          peer.entered ++ [⟨name, services.services.next, config.address.toString⟩] ∧
        serving.provider = peer.provider)

omit [Host] in
private theorem pending_cons {m : Protocol} {up : List Protocol} (hup : peer.up = m :: up)
    (htype : m.type ≠ MessageType.rpcProvider.code) :
    peer.pending = m :: up.filter fun m => m.type ≠ MessageType.rpcProvider.code := by
  rw [Peer.pending, hup, List.filter_cons, if_pos (decide_eq_true htype)]

private theorem Sound.serveProvider (h : Sound config peer) (services : Services) (p : Nat) {m : Protocol}
    {up : List Protocol} (hup : peer.up = m :: up) (hnone : peer.provider = none) :
    ∃ serving, dispatch (some config.remote) p ⟨services, ⟨[]⟩, peer.provider, [], []⟩ m = .ok serving ∧
      Serves config services peer up serving := by
  obtain ⟨hentered, hfront⟩ := h.unannounced hnone
  have hoffline : peer.stage ≠ .offline := by
    intro heq
    rw [h.offline heq] at hup
    cases hup
  obtain ⟨pending, hpending, hrequest⟩ := hfront.resolve_left hoffline
  rw [hup] at hpending
  cases hpending
  refine ⟨⟨services, ⟨[]⟩, some config.address, [], []⟩, dispatch_providerMessage _ _ _ _, ?_⟩
  have hsame : (peer.served services.services.next up ⟨services, ⟨[]⟩, some config.address, [], []⟩) =
      { peer with up := up, provider := some config.address } := by
    unfold Peer.served
    dsimp only
    rw [Multimap.filter_next, List.append_nil, List.append_nil, ite_self]
  refine ⟨?_, .inl ⟨rfl, by rw [hsame], .inr ⟨hnone, rfl⟩⟩⟩
  rw [hsame]
  refine { h with
    offline := fun heq => absurd heq hoffline
    unannounced := by rintro ⟨⟩
    announced := ?_
    exchange := fun hopened => ?_ }
  · rintro a ⟨⟩
    exact ⟨rfl, hrequest⟩
  · have hpending : peer.pending = Peer.pending { peer with up := up, provider := some config.address } := by
      rw [Peer.pending, hup, List.filter_cons, if_neg (by
        show ¬ decide (MessageType.rpcProvider.code ≠ MessageType.rpcProvider.code) = true
        simp)]
      rfl
    rw [← hpending]
    exact h.exchange hopened

/-- A registration on its way is the one that the server waits for. -/
private theorem Exchange.of_register {handlers entered registered : List (List Byte)} {name : List Byte}
    {pending down : List Protocol} {stage : Stage}
    (h : Exchange handlers (registerMessage name :: pending) down entered registered stage) :
    ∃ rest, stage = .waiting name rest ∧ pending = [] ∧ down = [] ∧ entered = registered ∧
      handlers = registered ++ name :: rest := by
  have htype : registerMessage name ≠ heartbeatMessage := fun heq =>
    absurd (congrArg Protocol.type heq)
      (show MessageType.rpcServiceRegister.code ≠ MessageType.heartbeatPacket.code by decide)
  cases stage with
  | waiting name' rest =>
    obtain ⟨hhandlers, ⟨hpending, hdown, hentered⟩ | ⟨⟨⟩, -⟩⟩ := h
    obtain ⟨hname, hrest⟩ := List.cons.inj hpending
    obtain rfl : name = name' := congrArg Protocol.content hname
    exact ⟨rest, rfl, hrest, hdown, hentered, hhandlers⟩
  | beating =>
    obtain ⟨⟨hpending, -⟩ | ⟨⟨⟩, -⟩, -⟩ := h
    exact absurd (List.cons.inj hpending).1 htype
  | alone =>
    obtain ⟨⟨⟨⟩⟩ | hpending, -⟩ := h
    exact absurd (List.cons.inj hpending).1 htype
  | bound =>
    obtain ⟨⟨⟩, -⟩ := h
  | registering =>
    obtain ⟨⟨⟩, -⟩ := h
  | started =>
    obtain ⟨⟨⟩, -⟩ := h
  | offline => cases h
  | failed => cases h

/-- A heartbeat on its way is the one that the server waits for or has given up. -/
private theorem Exchange.of_heartbeat {handlers entered registered : List (List Byte)} {pending down : List Protocol}
    {stage : Stage} (h : Exchange handlers (heartbeatMessage :: pending) down entered registered stage) :
    (stage = .beating ∧ down = [] ∨ stage = .alone) ∧ pending = [] ∧ entered = handlers ∧ registered = handlers := by
  cases stage with
  | waiting name' rest =>
    obtain ⟨-, ⟨hpending, -⟩ | ⟨⟨⟩, -⟩⟩ := h
    exact absurd (congrArg Protocol.type (List.cons.inj hpending).1)
      (show MessageType.heartbeatPacket.code ≠ MessageType.rpcServiceRegister.code by decide)
  | beating =>
    obtain ⟨⟨hpending, hdown⟩ | ⟨⟨⟩, -⟩, hall⟩ := h
    exact ⟨.inl ⟨rfl, hdown⟩, (List.cons.inj hpending).2, hall⟩
  | alone =>
    obtain ⟨⟨⟨⟩⟩ | hpending, hall⟩ := h
    exact ⟨.inr rfl, (List.cons.inj hpending).2, hall⟩
  | bound =>
    obtain ⟨⟨⟩, -⟩ := h
  | registering =>
    obtain ⟨⟨⟩, -⟩ := h
  | started =>
    obtain ⟨⟨⟩, -⟩ := h
  | offline => cases h
  | failed => cases h

private theorem Sound.serveRegister (h : Sound config peer) (services : Services) (p : Nat) {name : List Byte}
    {up : List Protocol} (hup : peer.up = registerMessage name :: up) (hname : name ∈ config.handlers)
    (hfit : name.length + 20 < 2 ^ 31) (hprovider : peer.provider = some config.address) :
    ∃ serving, dispatch (some config.remote) p ⟨services, ⟨[]⟩, peer.provider, [], []⟩ (registerMessage name) =
        .ok serving ∧ Serves config services peer up serving := by
  obtain ⟨response, hdispatch, hconfirms⟩ := dispatch_registerMessage config.remote p
    ⟨services, ⟨[]⟩, peer.provider, [], []⟩ hprovider hfit
  refine ⟨⟨services.register name config.address.toString, ⟨[]⟩, peer.provider, [response],
    [⟨serviceSubscribe ++ name, true, config.address.toString⟩]⟩, hdispatch, ?_⟩
  have hnew : ((services.register name config.address.toString).services.entries.filter
      fun e => services.services.next ≤ e.node) = [⟨name, services.services.next, config.address.toString⟩] :=
    Multimap.filter_next_emplace
  have hentered : (peer.served services.services.next up
      ⟨services.register name config.address.toString, ⟨[]⟩, peer.provider, [response],
        [⟨serviceSubscribe ++ name, true, config.address.toString⟩]⟩).entered =
          peer.entered ++ [⟨name, services.services.next, config.address.toString⟩] :=
    congrArg (peer.entered ++ ·) hnew
  refine ⟨?_, .inr ⟨name, rfl, hentered, rfl⟩⟩
  have hoffline : peer.stage ≠ .offline := by
    intro heq
    rw [h.offline heq] at hup
    cases hup
  have hpending := pending_cons hup (show MessageType.rpcServiceRegister.code ≠ MessageType.rpcProvider.code by decide)
  refine { h with
    offline := fun heq => absurd heq hoffline
    unannounced := fun hnone => absurd (hprovider.symm.trans hnone) (by rintro ⟨⟩)
    announced := fun a ha => ⟨(h.announced a ha).1, fun m hm => (h.announced a ha).2 m ?_⟩
    entered := ?_
    down := ?_
    exchange := fun hopened => ?_ }
  · rw [hup]
    exact List.mem_cons_of_mem _ hm
  · intro e he
    have he := hentered ▸ he
    rcases List.mem_append.1 he with he | he
    · exact h.entered e he
    · rw [List.mem_singleton.1 he]
      exact ⟨rfl, hname⟩
  · cases hopened : peer.opened with
    | false =>
      rw [Peer.served, hopened]
      exact h.down
    | true =>
      have hexchange := h.exchange hopened
      rw [hpending] at hexchange
      obtain ⟨rest, hstage, -, hdown, -⟩ := hexchange.of_register
      rw [Peer.served, hopened, hdown]
      exact .inr (.inl ⟨name, rest, response, hstage, rfl, hconfirms⟩)
  · have hopened : peer.opened = true := hopened
    have hexchange := h.exchange hopened
    rw [hpending] at hexchange
    obtain ⟨rest, hstage, hup', hdown, hregistered, hhandlers⟩ := hexchange.of_register
    show Exchange config.handlers (up.filter _) (if peer.opened then peer.down ++ [response] else peer.down)
      (List.map Entry.key (peer.served services.services.next up ⟨_, _, _, _, _⟩).entered) peer.registered peer.stage
    rw [hopened, hdown, hstage, hentered, List.map_append, hregistered]
    exact ⟨hhandlers, .inr ⟨hup', ⟨response, rfl, hconfirms⟩, rfl⟩⟩

private theorem Sound.serveHeartbeat (h : Sound config peer) (services : Services) (p : Nat) {up : List Protocol}
    (hup : peer.up = heartbeatMessage :: up) (hprovider : peer.provider = some config.address) :
    ∃ serving, dispatch (some config.remote) p ⟨services, ⟨[]⟩, peer.provider, [], []⟩ heartbeatMessage = .ok serving ∧
      Serves config services peer up serving := by
  refine ⟨⟨services, ⟨[]⟩, peer.provider, [heartbeatMessage], []⟩, dispatch_heartbeatMessage _ _ _, ?_⟩
  have hentered : (peer.served services.services.next up
      ⟨services, ⟨[]⟩, peer.provider, [heartbeatMessage], []⟩).entered = peer.entered := by
    unfold Peer.served
    dsimp only
    rw [Multimap.filter_next, List.append_nil]
  refine ⟨?_, .inl ⟨rfl, hentered, .inl rfl⟩⟩
  have hoffline : peer.stage ≠ .offline := by
    intro heq
    rw [h.offline heq] at hup
    cases hup
  have hpending := pending_cons hup (show MessageType.heartbeatPacket.code ≠ MessageType.rpcProvider.code by decide)
  refine { h with
    offline := fun heq => absurd heq hoffline
    unannounced := fun hnone => absurd (hprovider.symm.trans hnone) (by rintro ⟨⟩)
    announced := fun a ha => ⟨(h.announced a ha).1, fun m hm => (h.announced a ha).2 m ?_⟩
    entered := fun e he => h.entered e (hentered ▸ he)
    down := ?_
    exchange := fun hopened => ?_ }
  · rw [hup]
    exact List.mem_cons_of_mem _ hm
  · cases hopened : peer.opened with
    | false =>
      rw [Peer.served, hopened]
      exact h.down
    | true =>
      have hexchange := h.exchange hopened
      rw [hpending] at hexchange
      obtain ⟨⟨hstage, hdown⟩ | hstage, -⟩ := hexchange.of_heartbeat
      · rw [Peer.served, hopened, hdown]
        exact .inr (.inr (.inl ⟨heartbeatMessage, hstage, rfl⟩))
      · exact .inr (.inr (.inr hstage))
  · have hopened : peer.opened = true := hopened
    have hexchange := h.exchange hopened
    rw [hpending] at hexchange
    obtain ⟨hstage, hup', hall⟩ := hexchange.of_heartbeat
    show Exchange config.handlers (up.filter _) (if peer.opened then peer.down ++ [heartbeatMessage] else peer.down)
      (List.map Entry.key (peer.served services.services.next up ⟨_, _, _, _, _⟩).entered) peer.registered peer.stage
    rw [hopened, hentered, hup']
    rcases hstage with ⟨hstage, hdown⟩ | hstage
    · rw [hstage, hdown]
      exact ⟨.inr ⟨rfl, heartbeatMessage, rfl⟩, hall⟩
    · rw [hstage]
      exact ⟨.inl rfl, hall⟩

theorem Sound.serve (h : Sound config peer) (hfit : ∀ name ∈ config.handlers, name.length + 20 < 2 ^ 31)
    (services : Services) (p : Nat) {m : Protocol} {up : List Protocol} (hup : peer.up = m :: up) :
    ∃ serving, dispatch (some config.remote) p ⟨services, ⟨[]⟩, peer.provider, [], []⟩ m = .ok serving ∧
      Serves config services peer up serving := by
  cases hprovider : peer.provider with
  | none =>
    have hserves := h.serveProvider services p hup hprovider
    rwa [hprovider] at hserves
  | some a =>
    obtain ⟨rfl, hrequest⟩ := h.announced a hprovider
    have hm : Request config.handlers m := hrequest m (by rw [hup]; exact List.mem_cons_self)
    rcases hm with ⟨name, hname, rfl⟩ | rfl
    · have hserves := h.serveRegister services p hup hname (hfit name hname) hprovider
      rwa [hprovider] at hserves
    · have hserves := h.serveHeartbeat services p hup hprovider
      rwa [hprovider] at hserves

end

end Provider

end AcidCompute

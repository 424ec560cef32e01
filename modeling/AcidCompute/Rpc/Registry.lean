import AcidCompute.Base.Multimap
import AcidCompute.Rpc.Handlers
import Mathlib.Data.List.AList

/-!
# The service registry (`acid/rpc/rpc_service_registry.{h,cpp}`)

The registry keeps the addresses registered for each service in a multimap, and for each address the iterators of its
entries in that multimap, with which the entries are erased when the provider disconnects.  Whoever has subscribed to a
service is sent a message when an address comes or goes.

Here a handler is one function on the two tables (`Services`), as if nobody else changed them at the same time.  For
`handle_unregidter_service` this need not be so: `publish` locks `m_mutex` again, which a fiber can do, and its guard
gives the mutex back before the loop is at its end.  The steps between which others come are in
`Rpc/RegistrySessions.lean`.
-/

namespace AcidCompute

open AcidCompute.ByteArray

/-- `RPC_SERVICE_SUBSCRIBE` -/
def serviceSubscribe : List Byte := text "[[rpc service subscribe]]"

-- `IPv4Address::insert`
def IPv4Address.toString (address : IPv4Address) : List Byte :=
  text (Nat.repr (address.ip >>> 24 &&& 0xff).toNat) ++ text "." ++
  text (Nat.repr (address.ip >>> 16 &&& 0xff).toNat) ++ text "." ++
  text (Nat.repr (address.ip >>> 8 &&& 0xff).toNat) ++ text "." ++
  text (Nat.repr (address.ip &&& 0xff).toNat) ++ text ":" ++
  text (Nat.repr address.port.toNat)

/-! ### Publications -/

/-- The arguments of `publish(key, data)`, where `data` says whether an address has come or gone. -/
structure Publication where
  key : List Byte
  online : Bool
  address : List Byte
  deriving DecidableEq, Repr

namespace Publication

/-- `std::tuple<bool, std::string>` -/
def dataType : Tys := .cons (.scalar .bool) (.cons (.scalar .string) .nil)

/-- What `publish` puts into its message. -/
def serialize [Host] (p : Publication) : Except Fault (List Byte) := do
  let s ← Serializer.new
  let (_, s) ← Op.exec (do
    Scalar.write .string p.key
    dataType.sem.shiftLeft (p.online, p.address, ())
    Serializer.reset) s
  let (content, _) ← Op.exec ByteArray.toString s
  return content

/-- The serialized form of a publication. -/
def content (p : Publication) : List Byte :=
  stringVint p.key ++ ([if p.online then 1 else 0] ++ (stringVint p.address ++ []))

theorem serialize_eq [Host] (p : Publication) (hfits : p.content.length + Serializer.defaultBaseSize ≤ addressSpace) :
    p.serialize = .ok p.content := by
  have happends : Writes .big (do Scalar.write .string p.key; dataType.sem.shiftLeft (p.online, p.address, ()))
      p.content :=
    (Scalar.writes_write .string p.key).bind ((dataType.format .big).writes_shiftLeft (p.online, p.address, ()))
  obtain ⟨b, b', b'', hnew, hexec, hstring⟩ := Serializer.write_toString happends hfits
  rw [bind_assoc] at hexec
  unfold serialize
  rw [hnew]
  show (Op.exec _ b >>= _ : Except Fault (List Byte)) = _
  rw [hexec]
  show (Op.exec ByteArray.toString b' >>= _ : Except Fault (List Byte)) = _
  rw [hstring]
  rfl

end Publication

namespace RpcServiceRegistry

-- `publish`, for the serialized key and data; `reachable` says of which sessions the weak pointer can be locked and
-- `is_connected()` holds
def publish (registry : RpcServiceRegistry) (reachable : Nat → Bool) (key content : List Byte) :
    List (Nat × Protocol) :=
  if registry.subscribes.isEmpty then []
  else
    let pub := Protocol.create .rpcPublishRequest content 0
    ((registry.subscribes.filter fun entry => entry.1 = key).filter fun entry => reachable entry.2).map
      fun entry => (entry.2, pub)

theorem mem_publish {registry : RpcServiceRegistry} {reachable : Nat → Bool} {key content : List Byte} {c : Nat}
    {pub : Protocol} : (c, pub) ∈ registry.publish reachable key content ↔
      (key, c) ∈ registry.subscribes ∧ reachable c = true ∧ pub = Protocol.create .rpcPublishRequest content 0 := by
  unfold publish
  cases hsub : registry.subscribes with
  | nil => simp
  | cons entry entries =>
    rw [if_neg (by simp)]
    simp only [List.mem_map, List.mem_filter, decide_eq_true_eq, Prod.mk.injEq]
    constructor
    · rintro ⟨⟨k, c'⟩, ⟨⟨hmem, rfl⟩, hreach⟩, rfl, rfl⟩
      exact ⟨hmem, hreach, rfl⟩
    · rintro ⟨hmem, hreach, rfl⟩
      exact ⟨(key, c), ⟨⟨hmem, rfl⟩, hreach⟩, rfl, rfl⟩

/-- The timer that cleans up the subscriptions. -/
def cleanSubscribes (registry : RpcServiceRegistry) (reachable : Nat → Bool) : RpcServiceRegistry :=
  ⟨registry.subscribes.filter fun entry => reachable entry.2⟩

/-! ### The tables of services -/

/-- Strings are compared byte by byte. -/
instance : Trans (fun a b : List Byte => a < b) (fun a b : List Byte => a < b) (fun a b : List Byte => a < b) :=
  inferInstance

instance : Std.Trichotomous (fun a b : List Byte => a < b) := inferInstance

/-- `m_services` and `m_iters`; an iterator is the number of an entry. -/
structure Services where
  services : Multimap (List Byte) (List Byte)
  iters : AList fun _ : List Byte => List Nat

def Services.empty : Services := ⟨.empty, ∅⟩

namespace Services

/-- `m_services.erase(i)`; an iterator whose entry is gone must not be used. -/
def eraseService (s : Services) (i : Nat) : Option Services :=
  (s.services.erase i).map fun services => { s with services := services }

/-- `m_iters.erase(it)` -/
def eraseIters (s : Services) (address : List Byte) : Services := { s with iters := s.iters.erase address }

-- the critical section of `handle_register_service`
def register (s : Services) (name address : List Byte) : Services :=
  let (services, it) := s.services.emplace name address
  ⟨services, s.iters.insert address ((s.iters.lookup address).getD [] ++ [it])⟩

/-- The loop over the iterators of an address. -/
def eraseLoop (address : List Byte) : List Nat → Multimap (List Byte) (List Byte) → List Publication →
    Except Undefined (Multimap (List Byte) (List Byte) × List Publication)
  | [], services, published => return (services, published)
  | i :: its, services, published =>
    match services.erase i with
    | none => throw .danglingIterator
    -- `it->first` is the key of `m_iters`, which is the address
    | some services => eraseLoop address its services (published ++ [⟨serviceSubscribe ++ address, false, address⟩])

end Services

-- `handle_unregidter_service`: the tables, and what is published
def handleUnregidterService (s : Services) (address : List Byte) : Except Undefined (Services × List Publication) :=
  match s.iters.lookup address with
  | none => return (s, [])
  | some its => do
    let (services, published) ← Services.eraseLoop address its s.services []
    return (⟨services, s.iters.erase address⟩, published)

section

variable [Host]

/-- The result that stands for one address of a service. -/
def found (address : List Byte) : Result (CppType.scalar .string) :=
  { Result.empty (CppType.scalar .string) with code := RpcState.success.code, value := address }

/-- The result that says that nobody has registered the service. -/
def notFound (name : List Byte) : Result (CppType.scalar .string) :=
  Result.failed _ .noMethod (text "discover service: " ++ name)

/-- The vector `results` of `handle_discover_service`. -/
def discoverResults (s : Services) (name : List Byte) : List (Result (CppType.scalar .string)) :=
  match s.services.equalRange name with
  | [] => [notFound name]
  | range => range.map fun it => found it.value

def handleDiscoverService (s : Services) (proto : Protocol) : Except Fault Protocol := do
  let serviceName := proto.content
  let results := discoverResults s serviceName
  let cnt := BitVec.ofNat 32 results.length
  let serializer ← Serializer.new
  let (_, serializer) ← Op.exec (do
    Scalar.write .string serviceName
    Scalar.write .uint32 cnt
    CppType.writeItems Result.write (results.take cnt.toNat)
    Serializer.reset) serializer
  let (content, _) ← Op.exec ByteArray.toString serializer
  return Protocol.create .rpcServiceDiscoverResponse content 0

-- `address` may be a null pointer
def handleRegisterService (s : Services) (proto : Protocol) (address : Option IPv4Address) :
    Except Fault (Services × Protocol × Publication) := do
  match address with
  | none => throw (.undefined .nullDeref)
  | some address =>
    let serviceAddress := address.toString
    let serviceName := proto.content
    let s := s.register serviceName serviceAddress
    let res : Result (CppType.scalar .string) :=
      { Result.succeeded (CppType.scalar .string) with value := serviceName }
    let serializer ← Serializer.new
    let (_, serializer) ← Op.exec (do
      res.write
      Serializer.reset) serializer
    let (content, _) ← Op.exec ByteArray.toString serializer
    let response := Protocol.create .rpcServiceRegisterResponse content 0
    return (s, response, ⟨serviceSubscribe ++ serviceName, true, serviceAddress⟩)

end

end RpcServiceRegistry

end AcidCompute

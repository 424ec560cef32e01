import AcidCompute.Rpc.Server

/-!
# The handlers of received messages

The functions of `acid/rpc` to which the receive loops pass a message (`rpc_server.cpp`, `rpc_service_registry.cpp`,
`rpc_client.cpp`, `rpc_connection_pool.cpp`).  All of them decode the content before they check anything, and none
of them catches what the decoder throws, so they return exactly for the contents that decode (`Handler.run_cases`).
-/

namespace AcidCompute

open AcidCompute.ByteArray

structure IPv4Address where
  ip : BitVec 32
  port : BitVec 16
  deriving DecidableEq, Repr

structure RpcServiceRegistry where
  -- `m_subscribes`, with a number for each session
  subscribes : List (List Byte × Nat)

/-- `std::function<void(Serializer)>` -/
abbrev Callback := ByteArray → Except Fault Unit

structure RpcConnectionPool where
  -- `m_discover_handle`, with a number for each channel
  discoverHandle : List (List Byte × Nat)
  -- `m_sub_handle`
  subHandle : List (List Byte × Callback)

section

variable [Host]

/-- Decode a key and look it up: the entry and the serializer behind the key. -/
def lookupKey {α : Type} (entries : List (List Byte × α)) (proto : Protocol) :
    Except Fault (Option (α × ByteArray)) := do
  let (key, s) ← Serializer.readKey proto.content
  return (entries.lookup key).map fun entry => (entry, s)

-- The port comes with the message, since a socket does not tell on which port its peer serves.
def RpcServiceRegistry.hanldeProvider (proto : Protocol) (remote : Option IPv4Address) :
    Except Fault IPv4Address := do
  let s ← Serializer.ofString proto.content
  let (port, _) ← Op.exec (do
    Serializer.reset
    Scalar.read .uint32) s
  -- the remote address may be of another family
  match remote with
  | none => throw (.undefined .nullDeref)
  | some address => return { address with port := BitVec.setWidth 16 port }

def RpcServiceRegistry.handleSubscribe (registry : RpcServiceRegistry) (proto : Protocol) (client : Nat) :
    Except Fault (RpcServiceRegistry × Protocol) := do
  let (key, s) ← Serializer.readKey proto.content
  -- `emplace` on an `unordered_map` keeps the entry that is there
  let subscribes :=
    if (registry.subscribes.lookup key).isSome then registry.subscribes else registry.subscribes ++ [(key, client)]
  let res := Result.succeeded (CppType.scalar .int8)
  let (_, s) ← Op.exec (do
    clear
    res.write
    Serializer.reset) s
  let (content, _) ← Op.exec ByteArray.toString s
  return (⟨subscribes⟩, Protocol.create .rpcSubscribeResponse content 0)

/-- `handle_publish` up to the call of the callback. -/
def RpcClient.handlePublish (subHandle : List (List Byte × Callback)) (proto : Protocol) :
    Except Fault (Option (Callback × ByteArray)) := lookupKey subHandle proto

/-- `handle_publish` up to the call of the callback. -/
def RpcConnectionPool.handlePublish (pool : RpcConnectionPool) (proto : Protocol) :
    Except Fault (Option (Callback × ByteArray)) := lookupKey pool.subHandle proto

/-- `handle_service_discover` up to the push: the channel and what goes into it. -/
def RpcConnectionPool.handleServiceDiscover (pool : RpcConnectionPool) (response : Protocol) :
    Except Fault (Option (Nat × Protocol)) := do
  let entry ← lookupKey pool.discoverHandle response
  return entry.map fun found => (found.1, response)

/-- A handler with the objects it works on. -/
inductive Handler
  | methodCall (server : RpcServer)
  | serverSubscribe (server : RpcServer) (client : Nat)
  | provider (remote : IPv4Address)
  | registrySubscribe (registry : RpcServiceRegistry) (client : Nat)
  | clientPublish (subHandle : List (List Byte × Callback))
  | serviceDiscover (pool : RpcConnectionPool)
  | poolPublish (pool : RpcConnectionPool)

namespace Handler

/-- Handle a message; what becomes of the outcome is left to the caller. -/
def run (handler : Handler) (proto : Protocol) : Except Fault Unit :=
  match handler with
  | methodCall server => (server.handleMethodCall proto).map fun _ => ()
  | serverSubscribe server client => (server.handleSubscribe proto client).map fun _ => ()
  | provider remote => (RpcServiceRegistry.hanldeProvider proto (some remote)).map fun _ => ()
  | registrySubscribe registry client => (registry.handleSubscribe proto client).map fun _ => ()
  | clientPublish subHandle => (RpcClient.handlePublish subHandle proto).map fun _ => ()
  | serviceDiscover pool => (pool.handleServiceDiscover proto).map fun _ => ()
  | poolPublish pool => (pool.handlePublish proto).map fun _ => ()

/-- What a handler asks of a content: a number in front of it for a provider, else a string. -/
def Decodes : Handler → List Byte → Prop
  | provider _, content => content.length < 2 ^ 31 ∧ (decodeVarint 5 0 0#32 content).isSome
  | _, content => Serializer.KeyDecodes content

/-- A method call decodes its arguments, too, and these may lie behind the first block. -/
def InBlock : Handler → List Byte → Prop
  | methodCall _, content => content.length < Serializer.defaultBaseSize
  | _, _ => True

end Handler

/-! ### A method call -/

/-- `proxy` answers, unless the arguments reach behind the first block of their serializer. -/
theorem proxy_cases (method : Method) {arg : List Byte} (hlen : arg.length < 2 ^ 31) :
    (∃ bs, Writes .big (RpcServer.proxy method arg) bs ∧ bs.length + Serializer.defaultBaseSize ≤ addressSpace) ∨
      (Serializer.defaultBaseSize ≤ arg.length ∧ ∃ u, RpcServer.proxy method arg = throw (.undefined u)) := by
  obtain ⟨s, hs, hholds⟩ := Serializer.ofString_spec arg hlen
  have hcalm := method.args.calm method.args.sem.fresh .big s hholds.ready
  rw [hholds.size_eq, hholds.base_eq] at hcalm
  unfold RpcServer.proxy
  rw [hs]
  dsimp only
  cases hexec : Op.exec (method.args.sem.shiftRight method.args.sem.fresh) s with
  | ok result =>
    refine .inl ⟨_, Result.writes_write ((returnType method.ret).format .big) _, ?_⟩
    have hfits := method.fits result.1
    have hmessage : (stringVint []).length = 1 := by decide
    rw [Result.length_bytes]
    show 2 + (stringVint []).length +
      ((returnType method.ret).bytes .big (returned method.ret (method.func result.1))).length + _ ≤ _
    unfold Serializer.defaultBaseSize at *
    omega
  | error fault =>
    cases fault with
    | throws e =>
      refine .inl ⟨_, Result.writes_write ((returnType method.ret).format .big) _, ?_⟩
      have hfits := method.fits_uninit
      have hmessage : (stringVint (text "params not match")).length = 17 := by decide
      rw [Result.length_bytes]
      show 2 + (stringVint (text "params not match")).length +
        ((returnType method.ret).bytes .big (returnType method.ret).sem.uninit).length + _ ≤ _
      unfold Serializer.defaultBaseSize at *
      omega
    | undefined u =>
      refine .inr ⟨?_, u, rfl⟩
      by_contra hshort
      rcases hcalm (by omega) with ⟨a, p, heq, -⟩ | ⟨e, b', heq⟩
      · rw [Op.exec_of_ok heq] at hexec
        cases hexec
      · rw [Op.exec_of_error heq] at hexec
        cases hexec

theorem call_cases (server : RpcServer) (name : List Byte) {arg : List Byte} (hlen : arg.length < 2 ^ 31) :
    (∃ ret bs ret', server.call name arg = .ok ret ∧ Op.exec ByteArray.toString ret = .ok (bs, ret')) ∨
      (Serializer.defaultBaseSize ≤ arg.length ∧ ∃ u, server.call name arg = .error (.undefined u)) := by
  cases hfind : server.find name with
  | none =>
    obtain ⟨ret, ret', hcall, hstring⟩ := RpcServer.call_none hfind arg
    exact .inl ⟨ret, [], ret', hcall, hstring⟩
  | some method =>
    rcases proxy_cases method hlen with ⟨bs, hproxy, hfits⟩ | ⟨hlong, u, hproxy⟩
    · obtain ⟨ret, ret', hcall, hstring⟩ := RpcServer.call_ok hfind hproxy hfits
      exact .inl ⟨ret, bs, ret', hcall, hstring⟩
    · refine .inr ⟨hlong, u, ?_⟩
      obtain ⟨b, hnew⟩ : ∃ b, Serializer.new = .ok b := ⟨_, rfl⟩
      rw [RpcServer.call_of_find hfind arg hnew, hproxy]
      rfl

/-- A name that can be read is looked up, and what follows it is passed on. -/
theorem handleMethodCall_cases (server : RpcServer) {proto : Protocol}
    (h : Serializer.KeyDecodes proto.content) :
    (∃ response, server.handleMethodCall proto = .ok response) ∨
      (Serializer.defaultBaseSize ≤ proto.content.length ∧
        ∃ u, server.handleMethodCall proto = .error (.undefined u)) := by
  obtain ⟨hlen, hsome⟩ := h
  obtain ⟨⟨name, arg⟩, htake⟩ := Option.isSome_iff_exists.1 hsome
  obtain ⟨s, hkey, hready, -, hcontent, hunread⟩ := Serializer.readKey_ok hlen htake
  have hstring := Op.exec_of_ok (toString_spec hready.valid hready.synced)
  have harg : arg.length ≤ proto.content.length := by
    have hle := hready.valid.length_unread
    rw [hunread, ← hready.valid.length_content, hcontent] at hle
    omega
  rw [hunread] at hstring
  unfold RpcServer.handleMethodCall
  rw [hkey]
  show (∃ response, (Op.exec ByteArray.toString s >>= _ : Except Fault Protocol) = _) ∨
    _ ∧ ∃ u, (Op.exec ByteArray.toString s >>= _ : Except Fault Protocol) = _
  rw [hstring]
  show (∃ response, (server.call name arg >>= _ : Except Fault Protocol) = _) ∨
    _ ∧ ∃ u, (server.call name arg >>= _ : Except Fault Protocol) = _
  rcases call_cases server name (Nat.lt_of_le_of_lt harg hlen) with ⟨ret, bs, ret', hcall, hret⟩ | ⟨hlong, u, hcall⟩
  · rw [hcall]
    show (∃ response, (Op.exec ByteArray.toString ret >>= _ : Except Fault Protocol) = _) ∨ _
    rw [hret]
    exact .inl ⟨_, rfl⟩
  · rw [hcall]
    exact .inr ⟨hlong.trans harg, u, rfl⟩

/-! ### Subscriptions and addresses -/

private theorem fits_succeeded {baseSize : Nat} (h : baseSize = Serializer.defaultBaseSize) :
    ((Result.succeeded (CppType.scalar .int8)).bytes (Format.scalar .int8 : Format .big _)).length + baseSize ≤
      addressSpace := by
  have hlen : ((Result.succeeded (CppType.scalar .int8)).bytes (Format.scalar .int8 : Format .big _)).length = 11 := by
    rw [Result.length_bytes]
    show 2 + (stringVint (text "success")).length + (Scalar.bytes .big .int8 0#8).length = 11
    decide
  rw [hlen, h]
  decide

/-- A success is written over the key, from the start on, and what the key left behind it is all that is sent back. -/
theorem serverSubscribe_eq (server : RpcServer) {proto : Protocol} (client : Nat) {key rest : List Byte}
    (hlen : proto.content.length < 2 ^ 31) (htake : takeString proto.content = some (key, rest)) :
    server.handleSubscribe proto client =
      .ok ({ server with subscribes := server.subscribes ++ [(key, client)] },
        Protocol.create .rpcSubscribeResponse (proto.content.drop
          ((Result.succeeded (CppType.scalar .int8)).bytes (Format.scalar .int8 : Format .big _)).length) 0) := by
  obtain ⟨s, hkey, hready, hbase, hcontent, -⟩ := Serializer.readKey_ok hlen htake
  have hstart := hready.moveTo (Nat.zero_le s.size)
  unfold RpcServer.handleSubscribe
  rw [hkey]
  rcases Result.writes_write (.scalar .int8) (Result.succeeded (CppType.scalar .int8)) _ hstart with
    ⟨b', heq, hb'⟩ | ⟨hfull, -⟩
  · have hstring := Op.exec_of_ok (toString_spec hb'.valid hb'.synced)
    have hunread : b'.unread = proto.content.drop
        ((Result.succeeded (CppType.scalar .int8)).bytes (Format.scalar .int8 : Format .big _)).length := by
      unfold unread
      rw [hb'.content_eq, hb'.position_eq]
      show List.drop (0 + _) (overwrite s.content 0 _) = _
      rw [hcontent, overwrite, List.take_zero, List.nil_append, Nat.zero_add, List.drop_left]
    show (Op.exec _ s >>= _ : Except Fault (RpcServer × Protocol)) = _
    rw [show Serializer.reset = setPosition 0 from rfl, Op.exec_bind_of_ok (setPosition_zero hready.valid),
      Op.exec_of_ok heq]
    show (Op.exec ByteArray.toString b' >>= _ : Except Fault (RpcServer × Protocol)) = _
    rw [hstring, hunread]
    rfl
  · refine absurd (Or.inr ?_) hfull
    have hfits := fits_succeeded hbase
    show 0 + _ + s.baseSize ≤ _
    rwa [Nat.zero_add]

theorem serverSubscribe_ok (server : RpcServer) {proto : Protocol} (client : Nat)
    (h : Serializer.KeyDecodes proto.content) : ∃ answer, server.handleSubscribe proto client = .ok answer := by
  obtain ⟨hlen, hsome⟩ := h
  obtain ⟨⟨key, rest⟩, htake⟩ := Option.isSome_iff_exists.1 hsome
  exact ⟨_, serverSubscribe_eq server client hlen htake⟩

/-- The subscription is entered unless the key has an entry, and a success is all that is sent back. -/
theorem registrySubscribe_eq (registry : RpcServiceRegistry) {proto : Protocol} (client : Nat) {key rest : List Byte}
    (hlen : proto.content.length < 2 ^ 31) (htake : takeString proto.content = some (key, rest)) :
    registry.handleSubscribe proto client =
      .ok (⟨if (registry.subscribes.lookup key).isSome then registry.subscribes
          else registry.subscribes ++ [(key, client)]⟩,
        Protocol.create .rpcSubscribeResponse
          ((Result.succeeded (CppType.scalar .int8)).bytes (Format.scalar .int8 : Format .big _)) 0) := by
  obtain ⟨s, hkey, hready, hbase, -, -⟩ := Serializer.readKey_ok hlen htake
  obtain ⟨b, hclear, hb⟩ := clear_spec hready
  obtain ⟨b', heq, hb'⟩ := hb.write_rewind
    (Result.writes_write (.scalar .int8) (Result.succeeded (CppType.scalar .int8))) (fits_succeeded hbase)
  have hstring := Op.exec_of_ok (toString_spec hb'.ready.valid hb'.ready.synced)
  rw [hb'.unread_eq] at hstring
  unfold RpcServiceRegistry.handleSubscribe
  rw [hkey]
  show (Op.exec _ s >>= _ : Except Fault (RpcServiceRegistry × Protocol)) = _
  rw [show Serializer.reset = setPosition 0 from rfl, Op.exec_bind_of_ok hclear, Op.exec_of_ok heq]
  show (Op.exec ByteArray.toString b' >>= _ : Except Fault (RpcServiceRegistry × Protocol)) = _
  rw [hstring]
  rfl

theorem registrySubscribe_ok (registry : RpcServiceRegistry) {proto : Protocol} (client : Nat)
    (h : Serializer.KeyDecodes proto.content) : ∃ answer, registry.handleSubscribe proto client = .ok answer := by
  obtain ⟨hlen, hsome⟩ := h
  obtain ⟨⟨key, rest⟩, htake⟩ := Option.isSome_iff_exists.1 hsome
  exact ⟨_, registrySubscribe_eq registry client hlen htake⟩

theorem provider_ok {proto : Protocol} (remote : IPv4Address) (hlen : proto.content.length < 2 ^ 31)
    (h : (decodeVarint 5 0 0#32 proto.content).isSome) :
    ∃ address, RpcServiceRegistry.hanldeProvider proto (some remote) = .ok address := by
  obtain ⟨⟨port, rest⟩, hdec⟩ := Option.isSome_iff_exists.1 h
  obtain ⟨s, hs, hholds⟩ := Serializer.ofString_spec proto.content hlen
  have hstart := hholds.ready.moveTo (Nat.zero_le s.size)
  have hunread : (s.moveTo 0).unread = proto.content := hholds.content_eq
  rw [← hunread] at hdec
  obtain ⟨front, -, -, hread⟩ := readVarUint_ok hstart
    (Nat.lt_of_le_of_lt (Nat.min_le_right _ _) (by show 0 + 5 < s.baseSize; rw [hholds.base_eq]; decide)) hdec
  unfold RpcServiceRegistry.hanldeProvider
  rw [hs]
  show ∃ address, (Op.exec _ s >>= _ : Except Fault IPv4Address) = .ok address
  rw [show Serializer.reset = setPosition 0 from rfl, show Scalar.read .uint32 = readVarUint 32 from rfl,
    Op.exec_bind_of_ok (setPosition_zero hholds.ready.valid), Op.exec_of_ok hread]
  exact ⟨_, rfl⟩

theorem provider_throws {proto : Protocol} (remote : Option IPv4Address) (hlen : proto.content.length < 2 ^ 32)
    (h : ¬ (proto.content.length < 2 ^ 31 ∧ (decodeVarint 5 0 0#32 proto.content).isSome)) :
    ∃ e, RpcServiceRegistry.hanldeProvider proto remote = .error (.throws e) := by
  unfold RpcServiceRegistry.hanldeProvider
  by_cases hint : proto.content.length < 2 ^ 31
  · obtain ⟨s, hs, hholds⟩ := Serializer.ofString_spec proto.content hint
    have hstart := hholds.ready.moveTo (Nat.zero_le s.size)
    have hunread : (s.moveTo 0).unread = proto.content := hholds.content_eq
    have hnone : decodeVarint 5 0 0#32 proto.content = none := by
      by_contra hsome
      exact h ⟨hint, Option.isSome_iff_ne_none.2 hsome⟩
    rw [← hunread] at hnone
    obtain ⟨b', hread⟩ := readVarUint_throws hstart
      (Nat.lt_of_le_of_lt (Nat.min_le_right _ _) (by show 0 + 5 < s.baseSize; rw [hholds.base_eq]; decide)) hnone
    rw [hs]
    show ∃ e, (Op.exec _ s >>= _ : Except Fault IPv4Address) = .error (.throws e)
    rw [show Serializer.reset = setPosition 0 from rfl, show Scalar.read .uint32 = readVarUint 32 from rfl,
      Op.exec_bind_of_ok (setPosition_zero hholds.ready.valid), Op.exec_of_error hread]
    exact ⟨_, rfl⟩
  · rw [Serializer.ofString_throws (by omega) hlen]
    exact ⟨_, rfl⟩

theorem lookupKey_ok {α : Type} (entries : List (List Byte × α)) {proto : Protocol}
    (h : Serializer.KeyDecodes proto.content) : ∃ found, lookupKey entries proto = .ok found := by
  obtain ⟨hlen, hsome⟩ := h
  obtain ⟨⟨key, rest⟩, htake⟩ := Option.isSome_iff_exists.1 hsome
  obtain ⟨s, hkey, -⟩ := Serializer.readKey_ok hlen htake
  unfold lookupKey
  rw [hkey]
  exact ⟨_, rfl⟩

/-! ### All handlers -/

namespace Handler

/-- A content that decodes is handled, unless the arguments of a method call reach behind the first block. -/
theorem run_of_decodes (handler : Handler) {proto : Protocol} (h : handler.Decodes proto.content) :
    handler.run proto = .ok () ∨
      (¬ handler.InBlock proto.content ∧ ∃ u, handler.run proto = .error (.undefined u)) := by
  cases handler with
  | methodCall server =>
    rcases handleMethodCall_cases server h with ⟨response, heq⟩ | ⟨hlong, u, heq⟩
    · exact .inl (by rw [run, heq]; rfl)
    · exact .inr ⟨Nat.not_lt.2 hlong, u, by rw [run, heq]; rfl⟩
  | serverSubscribe server client =>
    obtain ⟨answer, heq⟩ := serverSubscribe_ok server client h
    exact .inl (by rw [run, heq]; rfl)
  | provider remote =>
    obtain ⟨address, heq⟩ := provider_ok remote h.1 h.2
    exact .inl (by rw [run, heq]; rfl)
  | registrySubscribe registry client =>
    obtain ⟨answer, heq⟩ := registrySubscribe_ok registry client h
    exact .inl (by rw [run, heq]; rfl)
  | clientPublish subHandle =>
    obtain ⟨found, heq⟩ := lookupKey_ok subHandle h
    exact .inl (by rw [run, RpcClient.handlePublish, heq]; rfl)
  | serviceDiscover pool =>
    obtain ⟨found, heq⟩ := lookupKey_ok pool.discoverHandle h
    exact .inl (by rw [run, RpcConnectionPool.handleServiceDiscover, heq]; rfl)
  | poolPublish pool =>
    obtain ⟨found, heq⟩ := lookupKey_ok pool.subHandle h
    exact .inl (by rw [run, RpcConnectionPool.handlePublish, heq]; rfl)

/-- For any other content what the decoder throws leaves the handler. -/
theorem run_of_not_decodes (handler : Handler) {proto : Protocol} (hlen : proto.content.length < 2 ^ 32)
    (h : ¬ handler.Decodes proto.content) : ∃ e, handler.run proto = .error (.throws e) := by
  cases handler with
  | provider remote =>
    obtain ⟨e, heq⟩ := provider_throws (some remote) hlen h
    exact ⟨e, by rw [run, heq]; rfl⟩
  | methodCall server =>
    obtain ⟨e, heq⟩ := Serializer.readKey_throws hlen h
    exact ⟨e, by rw [run, RpcServer.handleMethodCall, heq]; rfl⟩
  | serverSubscribe server client =>
    obtain ⟨e, heq⟩ := Serializer.readKey_throws hlen h
    exact ⟨e, by rw [run, RpcServer.handleSubscribe, heq]; rfl⟩
  | registrySubscribe registry client =>
    obtain ⟨e, heq⟩ := Serializer.readKey_throws hlen h
    exact ⟨e, by rw [run, RpcServiceRegistry.handleSubscribe, heq]; rfl⟩
  | clientPublish subHandle =>
    obtain ⟨e, heq⟩ := Serializer.readKey_throws hlen h
    exact ⟨e, by rw [run, RpcClient.handlePublish, lookupKey, heq]; rfl⟩
  | serviceDiscover pool =>
    obtain ⟨e, heq⟩ := Serializer.readKey_throws hlen h
    exact ⟨e, by rw [run, RpcConnectionPool.handleServiceDiscover, lookupKey, heq]; rfl⟩
  | poolPublish pool =>
    obtain ⟨e, heq⟩ := Serializer.readKey_throws hlen h
    exact ⟨e, by rw [run, RpcConnectionPool.handlePublish, lookupKey, heq]; rfl⟩

/-- No exception leaves a handler just for the contents that decode, and for these it returns, as long as the arguments
of a method call stay in the first block. -/
theorem run_returns_iff (handler : Handler) (proto : Protocol) (hlen : proto.content.length < 2 ^ 32) :
    ((∀ e, handler.run proto ≠ .error (.throws e)) ↔ handler.Decodes proto.content) ∧
      (handler.InBlock proto.content → (handler.run proto = .ok () ↔ handler.Decodes proto.content)) := by
  by_cases h : handler.Decodes proto.content
  · rcases run_of_decodes handler h with heq | ⟨hout, u, heq⟩
    · simp [heq, h]
    · simp [heq, h, hout]
  · obtain ⟨e, heq⟩ := run_of_not_decodes handler hlen h
    simp [heq, h]

end Handler

end

section

attribute [local instance] Host.zeroed

/-- A key of one letter, without a callback. -/
theorem Handler.run_returns_iff_letter :
    (Handler.poolPublish ⟨[], []⟩).run { Protocol.empty with content := [1, 97] } = .ok () :=
  ((Handler.run_returns_iff (.poolPublish ⟨[], []⟩) { Protocol.empty with content := [1, 97] } (by decide)).2
    trivial).2 ⟨by decide, by decide⟩

/-- An empty request throws out of the server's handler. -/
theorem Handler.not_returns_empty :
    ∃ e, (Handler.methodCall ⟨[], []⟩).run Protocol.empty = .error (.throws e) :=
  Handler.run_of_not_decodes (.methodCall ⟨[], []⟩) (by decide) fun h => by
    have hsome : (takeString ([] : List Byte)).isSome := h.2
    exact absurd hsome (by decide)

end

end AcidCompute

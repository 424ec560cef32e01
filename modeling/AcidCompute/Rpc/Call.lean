import AcidCompute.Rpc.Server

/-!
# A call from the client to the server and back

The four codecs on the way of a call: the client's `call` (`rpc_client.h`) encodes the name and the tuple of the
arguments and decodes a `Result`, the server decodes the name, passes the rest on to `proxy`, and encodes the `Result`.
With the messages delivered unchanged the caller gets the function's value, or hears that there is no such function
(`call_result`).
-/

namespace AcidCompute

open AcidCompute.ByteArray

namespace RpcClient

variable [Host]

/-- The content of a request; without arguments the tuple is empty, and nothing is written for it. -/
def requestContent (name : List Byte) {args : Tys} (params : args.sem.Val) : Except Fault (List Byte) := do
  let s ← Serializer.new
  let (_, s) ← Op.exec (do
    Scalar.write .string name
    args.sem.shiftLeft params
    Serializer.reset) s
  let (content, _) ← Op.exec ByteArray.toString s
  return content

/-- What the caller makes of a response. -/
def decodeResponse (T : CppType) (response : Protocol) : Except Fault (Result T) := do
  if response.content.isEmpty then return Result.failed T .noMethod (text "method not found")
  let serializer ← Serializer.ofString response.content
  match Op.exec (Result.empty T).read serializer with
  | .ok (ret, _) => return ret
  | .error (.throws _) => return Result.failed T .noMatch (text "return value not match")
  | .error (.undefined u) => throw (.undefined u)

/-- `call<R>(name, params...)` on an open connection, where `deliver` answers the request that carries `id`. -/
def call (deliver : Protocol → Except Fault Protocol) (id : BitVec 32) (name : List Byte) {args : Tys}
    (params : args.sem.Val) (ret : Option Ty) : Except Fault (Result (returnType ret).sem) := do
  let content ← requestContent name params
  let response ← deliver (Protocol.create .rpcMethodRequest content id)
  decodeResponse (returnType ret).sem response

/-! ### The two ends of the client -/

/-- The serialized form of a request. -/
def requestBytes (name : List Byte) {args : Tys} (params : args.sem.Val) : List Byte :=
  stringVint name ++ (args.format .big).bytes params

/-- The serialized form of a response to a call that returned `value`. -/
def responseBytes {t : Ty} (value : t.sem.Val) : List Byte :=
  (RpcServer.valueResult t.sem value).bytes (t.format .big)

theorem requestContent_eq (name : List Byte) {args : Tys} (params : args.sem.Val)
    (hlen : (requestBytes name params).length < Serializer.defaultBaseSize) :
    requestContent name params = .ok (requestBytes name params) := by
  have happends : Writes .big (do Scalar.write .string name; args.sem.shiftLeft params) (requestBytes name params) :=
    (Scalar.writes_write .string name).bind ((args.format .big).writes_shiftLeft params)
  obtain ⟨b, b', b'', hnew, hexec, hstring⟩ := Serializer.write_toString happends (by
    have hspace : Serializer.defaultBaseSize + Serializer.defaultBaseSize ≤ addressSpace := by decide
    omega)
  rw [bind_assoc] at hexec
  unfold requestContent
  rw [hnew]
  show (Op.exec _ b >>= _ : Except Fault (List Byte)) = _
  rw [hexec]
  show (Op.exec ByteArray.toString b' >>= _ : Except Fault (List Byte)) = _
  rw [hstring]
  rfl

theorem decodeResponse_value {t : Ty} (hplain : t.Plain = true) (value : t.sem.Val)
    (hlen : (responseBytes value).length < Serializer.defaultBaseSize) {response : Protocol}
    (hcontent : response.content = responseBytes value) :
    decodeResponse t.sem response = .ok (RpcServer.valueResult t.sem value) := by
  have hne : responseBytes value ≠ [] := Result.bytes_ne_nil _ _
  obtain ⟨s, hs, hholds⟩ := Serializer.ofString_spec (responseBytes value) (Nat.lt_trans hlen (by decide))
  have hread := Result.reads_read (r := RpcServer.valueResult t.sem value) (Result.empty t.sem) rfl
    (Result.reads_empty hplain value) s [] hholds.ready
    (by rw [hholds.position_eq, hholds.base_eq, Nat.zero_add]; exact hlen)
    (by rw [hholds.unread_eq, List.append_nil]; rfl)
  unfold decodeResponse
  rw [hcontent, if_neg (by simpa using hne), hs]
  simp only [bind, Except.bind, Op.exec_of_ok hread]
  rfl

/-! ### The whole way -/

private theorem call_of_response {server : RpcServer} {id : BitVec 32} {name : List Byte} {args : Tys}
    {params : args.sem.Val} (hreq : (requestBytes name params).length < Serializer.defaultBaseSize) (ret : Option Ty)
    {content : List Byte} {b b' : ByteArray} (hcall : server.call name ((args.format .big).bytes params) = .ok b)
    (hstring : Op.exec ByteArray.toString b = .ok (content, b')) :
    call server.handleMethodCall id name params ret =
      decodeResponse (returnType ret).sem (Protocol.create .rpcMethodResponse content id) := by
  have hhandle := RpcServer.handleMethodCall_eq server
    (Protocol.create .rpcMethodRequest (requestBytes name params) id) rfl hreq hcall hstring
  unfold call
  rw [requestContent_eq name params hreq]
  show (server.handleMethodCall _ >>= _ : Except Fault _) = _
  rw [hhandle]
  rfl

/-- A call of a registered function, with the argument and return types it was registered with, returns its value; a
call of a function that is not registered returns `RPC_NO_METHOD`. -/
theorem call_result (server : RpcServer) (id : BitVec 32) (name : List Byte) :
    (∀ (method : Method) (params : method.args.sem.Val), server.find name = some method →
      method.args.Plain = true → (returnType method.ret).Plain = true →
      (requestBytes name params).length < Serializer.defaultBaseSize →
      (responseBytes (method.value params)).length < Serializer.defaultBaseSize →
        call server.handleMethodCall id name params method.ret =
          .ok (RpcServer.valueResult (returnType method.ret).sem (method.value params))) ∧
    (∀ (args : Tys) (params : args.sem.Val) (ret : Option Ty), server.find name = none →
      (requestBytes name params).length < Serializer.defaultBaseSize →
        call server.handleMethodCall id name params ret =
          .ok (Result.failed (returnType ret).sem .noMethod (text "method not found"))) := by
  constructor
  · intro method params hfind hargs hret hreq hresp
    have hlen : ((method.args.format .big).bytes params).length < Serializer.defaultBaseSize := by
      rw [requestBytes, List.length_append] at hreq
      omega
    have hproxy : Writes .big (RpcServer.proxy method ((method.args.format .big).bytes params))
        (responseBytes (method.value params)) := by
      rw [RpcServer.proxy_ok hargs params hlen]
      exact Result.writes_write _ _
    obtain ⟨b, b', hcall, hstring⟩ := RpcServer.call_ok hfind hproxy (by
      have hspace : Serializer.defaultBaseSize + Serializer.defaultBaseSize ≤ addressSpace := by decide
      omega)
    rw [call_of_response hreq method.ret hcall hstring]
    exact decodeResponse_value hret _ hresp rfl
  · intro args params ret hfind hreq
    obtain ⟨b, b', hcall, hstring⟩ := RpcServer.call_none hfind ((args.format .big).bytes params)
    rw [call_of_response hreq ret hcall hstring]
    rfl

end RpcClient

section

attribute [local instance] Host.zeroed

/-- A function of a number and a set, and a call of a name that is not registered. -/
theorem RpcClient.call_result_count :
    ∃ (method : Method) (params : method.args.sem.Val),
      RpcClient.call (RpcServer.handleMethodCall ⟨[(text "count", method)], []⟩) 7 (text "count") params method.ret =
        .ok (RpcServer.valueResult (returnType method.ret).sem (method.value params)) ∧
      RpcClient.call (RpcServer.handleMethodCall ⟨[(text "count", method)], []⟩) 8 (text "sum") params none =
        .ok (Result.failed (CppType.scalar .int8) .noMethod (text "method not found")) :=
  let method : Method :=
    { args := .cons (.scalar .int32) (.cons (.seq .set (.scalar .uint8)) .nil), ret := some (.scalar .uint8),
      func := fun x => BitVec.ofNat 8 x.2.1.items.length, fits := fun _ => by show 1 + _ ≤ _; decide,
      fits_uninit := by decide }
  let params : method.args.sem.Val := (-5#32, ⟨[1#8, 4#8], by decide, by decide⟩, ())
  ⟨method, params,
    (RpcClient.call_result ⟨[(text "count", method)], []⟩ 7 (text "count")).1 method params rfl rfl rfl (by decide)
      (by decide),
    (RpcClient.call_result ⟨[(text "count", method)], []⟩ 8 (text "sum")).2 _ params none rfl (by decide)⟩

end

end AcidCompute

import AcidCompute.Rpc.Protocol
import AcidCompute.Rpc.Result
import AcidCompute.Serializer.Received

/-!
# The server of `acid/rpc/rpc_server.{h,cpp}`

A server keeps the functions registered under a name and the sessions subscribed to a key.  A method call names a
function and carries its arguments; `proxy` decodes them, calls the function and encodes its result.
-/

namespace AcidCompute

open AcidCompute.ByteArray

/-- What a function returns, `none` being `void`. -/
@[reducible] def ReturnVal [Host] : Option Ty → Type
  | none => Unit
  | some t => t.sem.Val

/-- The variable `rt` of `proxy` after the call: it stays `{}` for a function that returns nothing. -/
def returned [Host] : (ret : Option Ty) → ReturnVal ret → (returnType ret).sem.Val
  | none, _ => (0#8 : BitVec 8)
  | some _, rt => rt

/-- A registered function.  Its results are values in memory, so that their serialized forms fit there, too. -/
structure Method [Host] where
  args : Tys
  ret : Option Ty
  func : args.sem.Val → ReturnVal ret
  fits : ∀ x, ((returnType ret).bytes .big (returned ret (func x))).length + 2 * Serializer.defaultBaseSize ≤
    addressSpace
  fits_uninit : ((returnType ret).bytes .big (returnType ret).sem.uninit).length + 2 * Serializer.defaultBaseSize ≤
    addressSpace

/-- The value that goes into the response. -/
def Method.value [Host] (method : Method) (params : method.args.sem.Val) : (returnType method.ret).sem.Val :=
  returned method.ret (method.func params)

structure RpcServer [Host] where
  -- `m_handlers`
  handlers : List (List Byte × Method)
  -- `m_subscribes`, with a number for each session
  subscribes : List (List Byte × Nat)

namespace RpcServer

variable [Host]

-- `register_method`, which assigns to the entry of the name
def registerMethod (name : List Byte) (method : Method) (server : RpcServer) : RpcServer :=
  { server with handlers := (name, method) :: server.handlers.filter fun entry => entry.1 != name }

/-- `m_handlers.find(name)` -/
def find (server : RpcServer) (name : List Byte) : Option Method := server.handlers.lookup name

/-- The result of the `catch (...)` branch of `proxy`.  There the message goes to `set_code`, which takes a number; it
is taken to be meant as the message. -/
def noMatch (T : CppType) : Result T := Result.failed T .noMatch (text "params not match")

/-- The result that `proxy` returns after the call. -/
def valueResult (T : CppType) (value : T.Val) : Result T :=
  { Result.empty T with code := RpcState.success.code, value := value }

/-- `proxy(func, serializer, arg)` on the serializer of the response. -/
def proxy (method : Method) (arg : List Byte) : Op ByteArray Unit := do
  match Serializer.ofString arg with
  | .error e => throw e
  | .ok s =>
    match Op.exec (method.args.sem.shiftRight method.args.sem.fresh) s with
    | .error (.undefined u) => throw (.undefined u)
    -- whatever the decoder throws is caught here
    | .error (.throws _) => (noMatch (returnType method.ret).sem).write
    | .ok (args, _) => (valueResult (returnType method.ret).sem (method.value args)).write

/-- `call(name, arg)`: the serializer of the response, empty when there is no such method. -/
def call (server : RpcServer) (name arg : List Byte) : Except Fault ByteArray := do
  let serializer ← Serializer.new
  match server.find name with
  | none => return serializer
  | some method =>
    let (_, serializer) ← Op.exec (do proxy method arg; Serializer.reset) serializer
    return serializer

def handleMethodCall (server : RpcServer) (proto : Protocol) : Except Fault Protocol := do
  let (funcName, request) ← Serializer.readKey proto.content
  let (arg, _) ← Op.exec ByteArray.toString request
  let ret ← server.call funcName arg
  let (content, _) ← Op.exec ByteArray.toString ret
  return Protocol.create .rpcMethodResponse content proto.sequenceId

def handleSubscribe (server : RpcServer) (proto : Protocol) (client : Nat) : Except Fault (RpcServer × Protocol) := do
  let (key, s) ← Serializer.readKey proto.content
  let server := { server with subscribes := server.subscribes ++ [(key, client)] }
  let res := Result.succeeded (CppType.scalar .int8)
  let (_, s) ← Op.exec (do Serializer.reset; res.write) s
  -- the position is behind the result, so that only what the key left behind it is sent
  let (content, _) ← Op.exec ByteArray.toString s
  return (server, Protocol.create .rpcSubscribeResponse content 0)

/-! ### Calls that reach their method -/

/-- The arguments are decoded in the first block of their serializer. -/
theorem proxy_ok {method : Method} (hplain : method.args.Plain = true) (x : method.args.sem.Val)
    (hlen : ((method.args.format .big).bytes x).length < Serializer.defaultBaseSize) :
    proxy method ((method.args.format .big).bytes x) =
      (valueResult (returnType method.ret).sem (method.value x)).write := by
  obtain ⟨s, hs, hholds⟩ := Serializer.ofString_spec ((method.args.format .big).bytes x)
    (Nat.lt_trans hlen (by decide))
  have hread := method.args.reads_plain hplain x s [] hholds.ready
    (by rw [hholds.position_eq, hholds.base_eq, Nat.zero_add]; exact hlen)
    (by rw [hholds.unread_eq, List.append_nil])
  unfold proxy
  rw [hs]
  dsimp only
  rw [Op.exec_of_ok hread]

theorem call_of_find {server : RpcServer} {name : List Byte} {method : Method}
    (hfind : server.find name = some method) (arg : List Byte) {b : ByteArray} (hnew : Serializer.new = .ok b) :
    server.call name arg = (Op.exec (do proxy method arg; Serializer.reset) b).map Prod.snd := by
  unfold call
  rw [hnew]
  simp only [bind, Except.bind, hfind]
  cases Op.exec _ b <;> rfl

theorem call_ok {server : RpcServer} {name arg : List Byte} {method : Method} (hfind : server.find name = some method)
    {bs : List Byte} (hproxy : Writes .big (proxy method arg) bs)
    (hfits : bs.length + Serializer.defaultBaseSize ≤ addressSpace) :
    ∃ ret ret', server.call name arg = .ok ret ∧ Op.exec ByteArray.toString ret = .ok (bs, ret') := by
  obtain ⟨b, b', b'', hnew, hexec, hstring⟩ := Serializer.write_toString hproxy hfits
  refine ⟨b', b'', ?_, hstring⟩
  rw [call_of_find hfind arg hnew, hexec]
  rfl

theorem call_none {server : RpcServer} {name : List Byte} (hfind : server.find name = none) (arg : List Byte) :
    ∃ ret ret', server.call name arg = .ok ret ∧ Op.exec ByteArray.toString ret = .ok ([], ret') := by
  obtain ⟨b, hnew⟩ : ∃ b, Serializer.new = .ok b := ⟨_, rfl⟩
  obtain ⟨hvalid, hsync, -, -, hpos, hsize, -⟩ := new_valid (by decide) hnew
  have hempty : b.unread = [] := by
    have hlen := hvalid.length_unread
    rw [hsize, hpos] at hlen
    exact List.length_eq_zero_iff.1 hlen
  refine ⟨b, b, ?_, ?_⟩
  · unfold call
    rw [hnew]
    simp only [bind, Except.bind, hfind]
    rfl
  · have hstring := toString_spec hvalid hsync
    rw [hempty] at hstring
    exact Op.exec_of_ok hstring

/-- The name in front of the arguments, and the arguments as they are passed on. -/
theorem handleMethodCall_eq (server : RpcServer) (proto : Protocol) {name arg : List Byte}
    (hcontent : proto.content = stringVint name ++ arg)
    (hlen : (stringVint name ++ arg).length < Serializer.defaultBaseSize) {content : List Byte} {ret ret' : ByteArray}
    (hcall : server.call name arg = .ok ret) (hret : Op.exec ByteArray.toString ret = .ok (content, ret')) :
    handleMethodCall server proto = .ok (Protocol.create .rpcMethodResponse content proto.sequenceId) := by
  obtain ⟨s, hkey, hready, -, -, hunread⟩ := Serializer.readKey_content hcontent (by rw [hcontent]; exact hlen)
  have hstring := toString_spec hready.valid hready.synced
  rw [hunread] at hstring
  unfold handleMethodCall
  rw [hkey]
  show (Op.exec ByteArray.toString s >>= _ : Except Fault Protocol) = _
  rw [Op.exec_of_ok hstring]
  show (server.call name arg >>= _ : Except Fault Protocol) = _
  rw [hcall]
  show (Op.exec ByteArray.toString ret >>= _ : Except Fault Protocol) = _
  rw [hret]
  rfl

end RpcServer

end AcidCompute

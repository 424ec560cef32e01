import AcidCompute.Rpc.Call
import AcidCompute.Rpc.Execution

/-!
# Calls of the functions of a server

With the functions that a server has registered, which share nothing, a call that returns a response decodes it to the
value of its function for its own arguments, whatever other calls are under way
(`RpcClient.Execution.decoded_of_reaches`).
-/

namespace AcidCompute

open AcidCompute.ByteArray

namespace RpcServer

variable [Host]

/-- The response to a call of a registered function. -/
theorem handleMethodCall_value {server : RpcServer} {name : List Byte} {method : Method}
    (hfind : server.find name = some method) (params : method.args.sem.Val) (hargs : method.args.Plain = true)
    (hreq : (RpcClient.requestBytes name params).length < Serializer.defaultBaseSize)
    (hresp : (RpcClient.responseBytes (method.value params)).length < Serializer.defaultBaseSize) (id : BitVec 32) :
    handleMethodCall server (Protocol.create .rpcMethodRequest (RpcClient.requestBytes name params) id) =
      .ok (Protocol.create .rpcMethodResponse (RpcClient.responseBytes (method.value params)) id) := by
  have hlen : ((method.args.format .big).bytes params).length < Serializer.defaultBaseSize := by
    rw [RpcClient.requestBytes, List.length_append] at hreq
    omega
  have hproxy : Writes .big (proxy method ((method.args.format .big).bytes params))
      (RpcClient.responseBytes (method.value params)) := by
    rw [proxy_ok hargs params hlen]
    exact Result.writes_write _ _
  obtain ⟨ret, ret', hcall, hstring⟩ := call_ok hfind hproxy (by
    have hspace : Serializer.defaultBaseSize + Serializer.defaultBaseSize ≤ addressSpace := by decide
    omega)
  exact handleMethodCall_eq server _ rfl hreq hcall hstring

theorem handleMethodCall_none {server : RpcServer} {name : List Byte} (hfind : server.find name = none) {args : Tys}
    (params : args.sem.Val) (hreq : (RpcClient.requestBytes name params).length < Serializer.defaultBaseSize)
    (id : BitVec 32) :
    handleMethodCall server (Protocol.create .rpcMethodRequest (RpcClient.requestBytes name params) id) =
      .ok (Protocol.create .rpcMethodResponse [] id) := by
  obtain ⟨ret, ret', hcall, hstring⟩ := call_none hfind ((args.format .big).bytes params)
  exact handleMethodCall_eq server _ rfl hreq hcall hstring

theorem sequenceId_handleMethodCall {server : RpcServer} {p r : Protocol} (h : handleMethodCall server p = .ok r) :
    r.sequenceId = p.sequenceId := by
  unfold handleMethodCall at h
  obtain ⟨_, -, h⟩ := ok_of_bind_ok h
  obtain ⟨_, -, h⟩ := ok_of_bind_ok h
  obtain ⟨_, -, h⟩ := ok_of_bind_ok h
  obtain ⟨_, -, h⟩ := ok_of_bind_ok h
  cases h
  rfl

end RpcServer

namespace RpcClient

namespace Execution

variable [Host]

/-- `handle_method_call` of a server whose functions share nothing; none where it throws. -/
def handled (server : RpcServer) : Handler Unit Unit where
  enter _ := ()
  access _ _ := none
  leave p _ := (server.handleMethodCall p).toOption

theorem handled_eq_some {server : RpcServer} {p r : Protocol} (h : (handled server).leave p () = some r) :
    server.handleMethodCall p = .ok r := by
  change (server.handleMethodCall p).toOption = some r at h
  cases hcall : server.handleMethodCall p with
  | error fault =>
    rw [hcall] at h
    cases h
  | ok response =>
    rw [hcall] at h
    cases h
    rfl

theorem keepsIds_handled (server : RpcServer) : KeepsIds (handled server) := fun _ _ _ hr =>
  RpcServer.sequenceId_handleMethodCall (handled_eq_some hr)

/-- Whatever other calls are under way, a call that returns a response has got the value of its function for its own
arguments, or hears that there is no such function. -/
theorem decoded_of_reaches {config : Config} {content : Nat → List Byte} {server : RpcServer} {s : State Unit Unit}
    (h : (machine config content (handled server) ()).Reaches FreshIds (initial ()) s) {c : Nat} {r : Protocol}
    (hreturned : (s.client.calls c).phase = .returned (.response r)) {name : List Byte} :
    (∀ (method : Method) (params : method.args.sem.Val), content c = requestBytes name params →
      server.find name = some method → method.args.Plain = true → (returnType method.ret).Plain = true →
      (requestBytes name params).length < Serializer.defaultBaseSize →
      (responseBytes (method.value params)).length < Serializer.defaultBaseSize →
        decodeResponse (returnType method.ret).sem r =
          .ok (RpcServer.valueResult (returnType method.ret).sem (method.value params))) ∧
    (∀ (args : Tys) (params : args.sem.Val) (ret : Option Ty), content c = requestBytes name params →
      server.find name = none → (requestBytes name params).length < Serializer.defaultBaseSize →
        decodeResponse (returnType ret).sem r =
          .ok (Result.failed (returnType ret).sem .noMethod (text "method not found"))) := by
  have hs := invariants_of_reaches (keepsIds_handled server) h
  obtain ⟨x, hx, rfl, hresponse⟩ := hs.answered c r (.inr (.inr hreturned))
  -- the response is what the server makes of the request of this call
  have hcall : server.handleMethodCall (request content s.client x.call) = .ok r := by
    obtain ⟨between, hsequential, -⟩ := hs.sequential
    obtain ⟨_, _, _, -, -, hleave⟩ := hsequential.does_of_mem (List.mem_map_of_mem hx)
    rw [← (hs.executed x hx).2]
    exact handled_eq_some (hleave.trans hresponse)
  constructor
  · intro method params hcontent hfind hargs hret hreq hresp
    have hvalue := RpcServer.handleMethodCall_value hfind params hargs hreq hresp (s.client.calls x.call).id
    rw [request, hcontent, hvalue] at hcall
    cases hcall
    exact decodeResponse_value hret _ hresp rfl
  · intro args params ret hcontent hfind hreq
    have hnone := RpcServer.handleMethodCall_none hfind params hreq (s.client.calls x.call).id
    rw [request, hcontent, hnone] at hcall
    cases hcall
    rfl

end Execution

section

attribute [local instance] Host.zeroed

open Execution

/-- A call of a function that nobody has registered. -/
private def unknownFunction : List Execution.Event :=
  let answer : Protocol := Protocol.create .rpcMethodResponse [] 0
  let ask : Message := ⟨0, Protocol.create .rpcMethodRequest (@requestBytes _ (text "sum") .nil ()) 0⟩
  [.client (.start 0), .client (.register 0), .client (.send 0), .client .transmit, .schedule, .begin ask, .enter ask,
    .leave, .reply ⟨0, answer⟩, .client (.respond answer), .client (.lookUp answer), .client (.push answer 0),
    .client (.receive 0), .client (.cancel 0), .client (.finish 0)]

theorem Execution.decoded_of_reaches_unknownFunction :
    ∃ s, (machine ⟨true, 4⟩ (fun _ => @requestBytes _ (text "sum") .nil ()) (handled ⟨[], []⟩) ()).Reaches FreshIds
        (Execution.initial ()) s ∧
      ∃ r, (s.client.calls 0).phase = .returned (.response r) ∧
        decodeResponse (returnType none).sem r =
          .ok (Result.failed (returnType none).sem .noMethod (text "method not found")) := by
  obtain ⟨s, hreach, hphase⟩ :
      ∃ s, (machine ⟨true, 4⟩ (fun _ => @requestBytes _ (text "sum") .nil ()) (handled ⟨[], []⟩) ()).Reaches
          FreshIds (Execution.initial ()) s ∧
        (s.client.calls 0).phase = .returned (.response (Protocol.create .rpcMethodResponse [] 0)) :=
    Machine.exists_reaches_of_guarded unknownFunction (by decide +kernel)
  exact ⟨s, hreach, _, hphase, (decoded_of_reaches hreach hphase).2 .nil () none rfl rfl (by decide)⟩

end

end RpcClient

end AcidCompute

import AcidCompute.Rpc.Publish

/-!
# Which publications reach a handler

A client and a connection pool keep a handler for each key they have subscribed to, and their receive loops pass on what
comes from the other side by the type of the message.  A publication has the type `RPC_PUBLISH_REQUEST`, and this is the
type for which the pool calls `handle_publish` (`RpcConnectionPool.handleRecv_handles`).  The client does so for
`RPC_PUBLISH_RESPONSE`, so that it calls no handler whatever the server publishes (`RpcClient.handleRecv_iff`).

A handler is called with a serializer; here the loops return which handlers are called with what.
-/

namespace AcidCompute

open AcidCompute.ByteArray

section

variable [Host]

/-- What a server sends to a client: its answers, and what it publishes. -/
inductive ServerMessage
  | heartbeat
  | methodResponse (content : List Byte) (id : BitVec 32)
  | subscribeResponse (content : List Byte)
  | published (T : Ty) (key : List Byte) (data : T.sem.Val)

namespace ServerMessage

def protocol : ServerMessage → Protocol
  | heartbeat => Protocol.create .heartbeatPacket [] 0
  | methodResponse content id => Protocol.create .rpcMethodResponse content id
  | subscribeResponse content => Protocol.create .rpcSubscribeResponse content 0
  | published _ key data => publicationMessage key data

/-- The handler for the key of a publication, and the bytes of what has been published. -/
def due {α : Type} (subHandle : List (List Byte × α)) : ServerMessage → Option (α × List Byte)
  | published T key data => (subHandle.lookup key).map fun handler => (handler, T.bytes .big data)
  | _ => none

end ServerMessage

variable {α : Type}

/-- One round of a receive loop, in which messages of the type `publishType` go to `handle_publish` and no other branch
calls a handler. -/
def handleResponse (publishType : MessageType) (subHandle : List (List Byte × α)) (response : Protocol) :
    Except Fault (Option (α × ByteArray)) :=
  if response.type = publishType.code then lookupKey subHandle response else return none

/-- The receive loop up to the end of the connection. -/
def handleRecvLoop (publishType : MessageType) (subHandle : List (List Byte × α)) :
    List Protocol → Except Fault (List (α × ByteArray))
  | [] => return []
  | response :: responses => do
    let call ← handleResponse publishType subHandle response
    let calls ← handleRecvLoop publishType subHandle responses
    return call.toList ++ calls

def RpcClient.handleRecv (subHandle : List (List Byte × α)) (responses : List Protocol) :
    Except Fault (List (α × ByteArray)) := handleRecvLoop .rpcPublishResponse subHandle responses

def RpcConnectionPool.handleRecv (subHandle : List (List Byte × α)) (responses : List Protocol) :
    Except Fault (List (α × ByteArray)) := handleRecvLoop .rpcPublishRequest subHandle responses

/-- Each publication under a subscribed key has one call of the handler of its key, in order, with a serializer that
stands in front of the data, and there are no other calls. -/
def Handled (subHandle : List (List Byte × α)) (messages : List ServerMessage) (calls : List (α × ByteArray)) : Prop :=
  List.Forall₂ (fun call due => call.1 = due.1 ∧ Ready .big call.2 ∧ call.2.unread = due.2) calls
    (messages.filterMap (ServerMessage.due subHandle))

/-! ### The client -/

/-- Nothing a server sends has the type for which the client looks up a handler. -/
theorem handleResponse_client (subHandle : List (List Byte × α)) (m : ServerMessage) :
    handleResponse .rpcPublishResponse subHandle m.protocol = .ok none := by
  cases m with
  | heartbeat =>
    exact if_neg (show MessageType.heartbeatPacket.code ≠ MessageType.rpcPublishResponse.code by decide)
  | methodResponse content id =>
    exact if_neg (show MessageType.rpcMethodResponse.code ≠ MessageType.rpcPublishResponse.code by decide)
  | subscribeResponse content =>
    exact if_neg (show MessageType.rpcSubscribeResponse.code ≠ MessageType.rpcPublishResponse.code by decide)
  | published T key data =>
    exact if_neg (show MessageType.rpcPublishRequest.code ≠ MessageType.rpcPublishResponse.code by decide)

theorem RpcClient.handleRecv_eq (subHandle : List (List Byte × α)) (messages : List ServerMessage) :
    handleRecv subHandle (messages.map ServerMessage.protocol) = .ok [] := by
  induction messages with
  | nil => rfl
  | cons m messages ih =>
    unfold handleRecv at ih ⊢
    rw [List.map_cons, handleRecvLoop, handleResponse_client]
    show (handleRecvLoop _ subHandle _ >>= _ : Except Fault (List (α × ByteArray))) = _
    rw [ih]
    rfl

/-- The client handles what a server sends just if none of the publications is under a key it has subscribed to. -/
theorem RpcClient.handleRecv_iff (subHandle : List (List Byte × α)) (messages : List ServerMessage) :
    (∃ calls, handleRecv subHandle (messages.map ServerMessage.protocol) = .ok calls ∧
        Handled subHandle messages calls) ↔
      ∀ T key data, ServerMessage.published T key data ∈ messages → subHandle.lookup key = none := by
  have hnone : messages.filterMap (ServerMessage.due subHandle) = [] ↔
      ∀ T key data, ServerMessage.published T key data ∈ messages → subHandle.lookup key = none := by
    rw [List.filterMap_eq_nil_iff]
    constructor
    · intro hall T key data hmem
      simpa [ServerMessage.due] using hall _ hmem
    · intro hall m hmem
      cases m with
      | published T key data => simp [ServerMessage.due, hall T key data hmem]
      | heartbeat | methodResponse | subscribeResponse => rfl
  rw [← hnone, handleRecv_eq]
  constructor
  · rintro ⟨calls, heq, hcalls⟩
    cases heq
    exact List.forall₂_nil_left_iff.1 hcalls
  · intro hnil
    refine ⟨[], rfl, ?_⟩
    unfold Handled
    rw [hnil]
    exact List.Forall₂.nil

/-! ### The pool -/

/-- The serializer that `handle_publish` of a pool passes on stands in front of the data. -/
theorem lookupKey_published (subHandle : List (List Byte × α)) {T : Ty} (key : List Byte) (data : T.sem.Val)
    (hlen : (publicationContent key data).length < 2 ^ 31) :
    ∃ s, lookupKey subHandle (publicationMessage key data) =
        .ok ((subHandle.lookup key).map fun handler => (handler, s)) ∧
      Ready .big s ∧ s.unread = T.bytes .big data := by
  have hkey : key.length < 2 ^ 64 := by
    have hle : key.length ≤ (publicationContent key data).length := by
      simp only [publicationContent, stringVint, List.length_append]
      omega
    omega
  have htake : takeString (publicationContent key data) = some (key, T.bytes .big data) := takeString_append hkey _
  obtain ⟨s, heq, hready, -, -, hunread⟩ := Serializer.readKey_ok hlen htake
  refine ⟨s, ?_, hready, hunread⟩
  unfold lookupKey
  rw [show (publicationMessage key data).content = publicationContent key data from rfl, heq]
  rfl

/-- A pool calls the handler that is due, as long as a serializer can take the message. -/
theorem handleResponse_pool (subHandle : List (List Byte × α)) {m : ServerMessage}
    (hlen : m.protocol.content.length < 2 ^ 31) :
    ∃ call, handleResponse .rpcPublishRequest subHandle m.protocol = .ok call ∧ Handled subHandle [m] call.toList := by
  cases m with
  | heartbeat =>
    have hne : MessageType.heartbeatPacket.code ≠ MessageType.rpcPublishRequest.code := by decide
    exact ⟨none, if_neg hne, List.Forall₂.nil⟩
  | methodResponse content id =>
    have hne : MessageType.rpcMethodResponse.code ≠ MessageType.rpcPublishRequest.code := by decide
    exact ⟨none, if_neg hne, List.Forall₂.nil⟩
  | subscribeResponse content =>
    have hne : MessageType.rpcSubscribeResponse.code ≠ MessageType.rpcPublishRequest.code := by decide
    exact ⟨none, if_neg hne, List.Forall₂.nil⟩
  | published T key data =>
    obtain ⟨s, hlookup, hready, hunread⟩ := lookupKey_published subHandle key data hlen
    refine ⟨_, (if_pos rfl).trans hlookup, ?_⟩
    cases hfind : subHandle.lookup key with
    | none => simp [Handled, ServerMessage.due, hfind]
    | some handler => simp [Handled, ServerMessage.due, hfind, hready, hunread]

/-- What is handled one after another. -/
theorem Handled.append {subHandle : List (List Byte × α)} {ms ms' : List ServerMessage}
    {calls calls' : List (α × ByteArray)} (h : Handled subHandle ms calls) (h' : Handled subHandle ms' calls') :
    Handled subHandle (ms ++ ms') (calls ++ calls') := by
  unfold Handled at *
  rw [List.filterMap_append]
  exact List.rel_append h h'

/-- The pool calls the handler of each publication, as long as a serializer can take the messages. -/
theorem RpcConnectionPool.handleRecv_handles (subHandle : List (List Byte × α)) {messages : List ServerMessage}
    (hlen : ∀ m ∈ messages, m.protocol.content.length < 2 ^ 31) :
    ∃ calls, handleRecv subHandle (messages.map ServerMessage.protocol) = .ok calls ∧
      Handled subHandle messages calls := by
  unfold handleRecv
  induction messages with
  | nil => exact ⟨[], rfl, List.Forall₂.nil⟩
  | cons m messages ih =>
    obtain ⟨call, hcall, hhandled⟩ := handleResponse_pool subHandle (hlen m List.mem_cons_self)
    obtain ⟨calls, heq, hcalls⟩ := ih fun m' hm' => hlen m' (List.mem_cons_of_mem _ hm')
    refine ⟨call.toList ++ calls, ?_, hhandled.append hcalls⟩
    rw [List.map_cons, handleRecvLoop, hcall]
    show (handleRecvLoop _ subHandle _ >>= _ : Except Fault (List (α × ByteArray))) = _
    rw [heq]
    rfl

end

section

attribute [local instance] Host.zeroed

/-- A boolean is published under a key that the client has subscribed to. -/
theorem RpcClient.not_handled_published :
    ¬ ∃ calls, handleRecv [([97], 0)] ([ServerMessage.published (.scalar .bool) [97] true].map ServerMessage.protocol) =
      .ok calls ∧ Handled [([97], 0)] [.published (.scalar .bool) [97] true] calls := by
  rintro ⟨calls, heq, hcalls⟩
  rw [handleRecv_eq] at heq
  cases heq
  cases hcalls

end

end AcidCompute

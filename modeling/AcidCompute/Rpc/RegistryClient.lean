import AcidCompute.Rpc.RegistryTable

/-!
# A client of the registry

`handle_client` serves the messages of one connection in a loop that it never leaves: at the end of the connection it
unregisters the services of the provider, and then asks the message that it has not received for its type
(`RpcServiceRegistry.handleClient_end`).
-/

namespace AcidCompute

namespace RpcServiceRegistry

/-- The registry, with the local variable `provider_address` of one `handle_client` and what that one has sent. -/
structure Serving where
  services : Services
  registry : RpcServiceRegistry
  -- `provider_address`
  provider : Option IPv4Address
  sent : List Protocol
  published : List Publication

section

variable [Host] (remote : Option IPv4Address) (client : Nat)

-- the `switch` of `handle_client`
def dispatch (s : Serving) (request : Protocol) : Except Fault Serving :=
  if request.type = MessageType.heartbeatPacket.code then
    return { s with sent := s.sent ++ [Protocol.create .heartbeatPacket [] 0] }
  else if request.type = MessageType.rpcProvider.code then do
    let address ← hanldeProvider request remote
    return { s with provider := some address }
  else if request.type = MessageType.rpcServiceRegister.code then do
    let (services, response, p) ← handleRegisterService s.services request s.provider
    return { s with services := services, sent := s.sent ++ [response], published := s.published ++ [p] }
  else if request.type = MessageType.rpcServiceDiscover.code then do
    let response ← handleDiscoverService s.services request
    return { s with sent := s.sent ++ [response] }
  else if request.type = MessageType.rpcSubscribeRequest.code then do
    let (registry, response) ← s.registry.handleSubscribe request client
    return { s with registry := registry, sent := s.sent ++ [response] }
  -- `RPC_PUBLISH_RESPONSE` and whatever is not expected
  else return s

omit [Host] in
/-- The branch for a message that has not been received. -/
def disconnected (s : Serving) : Except Fault Serving :=
  match s.provider with
  | none => return s
  | some address =>
    match handleUnregidterService s.services address.toString with
    | .error u => throw (.undefined u)
    | .ok (services, published) => return { s with services := services, published := s.published ++ published }

/-- One round of the loop; the branch for a message that has not been received goes on behind it. -/
def serve (s : Serving) (request : Option Protocol) : Except Fault Serving := do
  let s ← if request.isNone then disconnected s else pure s
  match request with
  -- `request->get_message_type()`
  | none => throw (.undefined .nullDeref)
  | some request => dispatch remote client s request

/-- What `recv_protocol` returns, one after another. -/
def handleClient : Serving → List (Option Protocol) → Except Fault Serving
  | s, [] => return s
  | s, request :: requests => serve remote client s request >>= fun s => handleClient s requests

/-- The client sends the messages and disconnects; `handle_client` gets through and leaves no service that was
registered meanwhile. -/
def Disconnects (s : Serving) (messages : List Protocol) : Prop :=
  ∃ s', handleClient remote client s (messages.map some ++ [none]) = .ok s' ∧
    ∀ e ∈ s'.services.services.entries, e.node < s.services.services.next

variable {remote client}

/-! ### The end of the connection -/

theorem serve_none (remote : Option IPv4Address) (client : Nat) (s : Serving) :
    ∃ fault, serve remote client s none = .error fault := by
  unfold serve
  cases disconnected s with
  | error fault => exact ⟨fault, rfl⟩
  | ok s' => exact ⟨.undefined .nullDeref, rfl⟩

/-- The services are unregistered first, which goes well. -/
theorem serve_none_eq {s : Serving} (hs : s.services.Consistent) :
    serve remote client s none = .error (.undefined .nullDeref) := by
  unfold serve disconnected
  cases s.provider with
  | none => rfl
  | some address =>
    obtain ⟨services, heq, -, -⟩ := hs.unregister address.toString
    simp only [heq]
    rfl

/-- The end of the connection is never got over, whatever the client has sent before. -/
theorem handleClient_end (s : Serving) (messages : List Protocol) : ¬ Disconnects remote client s messages := by
  rintro ⟨s', heq, -⟩
  induction messages generalizing s with
  | nil =>
    obtain ⟨fault, hserve⟩ := serve_none remote client s
    simp only [List.map_nil, List.nil_append, handleClient, hserve] at heq
    cases heq
  | cons message messages ih =>
    cases hserve : serve remote client s (some message) with
    | error fault =>
      simp only [List.map_cons, List.cons_append, handleClient, hserve] at heq
      cases heq
    | ok s₁ =>
      simp only [List.map_cons, List.cons_append, handleClient, hserve] at heq
      exact ih s₁ heq

end

section

attribute [local instance] Host.zeroed

/-- A client that registers a service and disconnects, and has not said that it is a provider. -/
theorem not_disconnects_unannounced :
    ¬ Disconnects none 1 ⟨.empty, ⟨[]⟩, none, [], []⟩ [Protocol.create .rpcServiceRegister (text "a") 0] := by
  rintro ⟨s', heq, -⟩
  have hfault : handleClient none 1 ⟨.empty, ⟨[]⟩, none, [], []⟩
      ([Protocol.create .rpcServiceRegister (text "a") 0].map some ++ [none]) = .error (.undefined .nullDeref) := rfl
  rw [hfault] at heq
  cases heq

end

/-! ### Before the end -/

section

variable [Host] {remote : Option IPv4Address} {client : Nat}

theorem serve_some (s : Serving) (request : Protocol) :
    serve remote client s (some request) = dispatch remote client s request := by
  unfold serve
  rw [if_neg (by simp)]
  rfl

/-- What has been served leaves the tables consistent. -/
theorem dispatch_consistent {s s' : Serving} {request : Protocol} (hs : s.services.Consistent)
    (h : dispatch remote client s request = .ok s') : s'.services.Consistent := by
  unfold dispatch at h
  by_cases hheart : request.type = MessageType.heartbeatPacket.code
  · rw [if_pos hheart] at h
    cases h
    exact hs
  rw [if_neg hheart] at h
  by_cases hprovider : request.type = MessageType.rpcProvider.code
  · rw [if_pos hprovider] at h
    obtain ⟨address, -, h⟩ := ok_of_bind_ok h
    cases h
    exact hs
  rw [if_neg hprovider] at h
  by_cases hregister : request.type = MessageType.rpcServiceRegister.code
  · rw [if_pos hregister] at h
    obtain ⟨⟨services, response, p⟩, hhandled, h⟩ := ok_of_bind_ok h
    cases h
    exact handleRegisterService_consistent hs hhandled
  rw [if_neg hregister] at h
  by_cases hdiscover : request.type = MessageType.rpcServiceDiscover.code
  · rw [if_pos hdiscover] at h
    obtain ⟨response, -, h⟩ := ok_of_bind_ok h
    cases h
    exact hs
  rw [if_neg hdiscover] at h
  by_cases hsubscribe : request.type = MessageType.rpcSubscribeRequest.code
  · rw [if_pos hsubscribe] at h
    obtain ⟨⟨registry, response⟩, -, h⟩ := ok_of_bind_ok h
    cases h
    exact hs
  · rw [if_neg hsubscribe] at h
    cases h
    exact hs

/-- What ends `handle_client` is the null pointer, once everything before has been served. -/
theorem handleClient_nullDeref {s s' : Serving} {messages : List Protocol} (hs : s.services.Consistent)
    (h : handleClient remote client s (messages.map some) = .ok s') :
    handleClient remote client s (messages.map some ++ [none]) = .error (.undefined .nullDeref) := by
  induction messages generalizing s with
  | nil =>
    simp only [List.map_nil, List.nil_append, handleClient, serve_none_eq hs]
    rfl
  | cons message messages ih =>
    cases hserve : serve remote client s (some message) with
    | error fault =>
      simp only [List.map_cons, handleClient, hserve] at h
      cases h
    | ok s₁ =>
      have hs₁ : s₁.services.Consistent := dispatch_consistent hs ((serve_some s message).symm.trans hserve)
      simp only [List.map_cons, List.cons_append, handleClient, hserve] at h ⊢
      exact ih hs₁ h

end

end RpcServiceRegistry

end AcidCompute

import AcidCompute.Rpc.Registry

/-!
# Publishing to the subscribers of a key

`RpcServer::publish` and `RpcServiceRegistry::publish` are templates with the same loop over the entries of a key.  They
differ in how the loop goes on: the registry's has `++it` in its head, and the server's moves its iterator nowhere.  So
the server's loop ends for the keys without an entry only (`RpcServer.publish_iff`).

Whether the session of an entry can be reached (the weak pointer can be locked and `is_connected()` holds) may change
while the loop runs; it is asked once in each round.
-/

namespace AcidCompute

open AcidCompute.ByteArray

section

variable [Host]

-- `s << key << data`, and what becomes of it
def publication {T : Ty} (key : List Byte) (data : T.sem.Val) : Except Fault Protocol := do
  let s ← Serializer.new
  let (_, s) ← Op.exec (do
    Scalar.write .string key
    T.sem.shiftLeft data
    Serializer.reset) s
  let (content, _) ← Op.exec ByteArray.toString s
  return Protocol.create .rpcPublishRequest content 0

/-- The content of the message for a key and data. -/
def publicationContent {T : Ty} (key : List Byte) (data : T.sem.Val) : List Byte :=
  stringVint key ++ T.bytes .big data

/-- The message for a key and data. -/
def publicationMessage {T : Ty} (key : List Byte) (data : T.sem.Val) : Protocol :=
  Protocol.create .rpcPublishRequest (publicationContent key data) 0

theorem publication_eq {T : Ty} (key : List Byte) (data : T.sem.Val)
    (hfits : (publicationContent key data).length + Serializer.defaultBaseSize ≤ addressSpace) :
    publication key data = .ok (publicationMessage key data) := by
  have happends : Writes .big (do Scalar.write .string key; T.sem.shiftLeft data) (publicationContent key data) :=
    (Scalar.writes_write .string key).bind ((T.format .big).writes_shiftLeft data)
  obtain ⟨b, b', b'', hnew, hexec, hstring⟩ := Serializer.write_toString happends hfits
  rw [bind_assoc] at hexec
  unfold publication
  rw [hnew]
  show (Op.exec _ b >>= _ : Except Fault Protocol) = _
  rw [hexec]
  show (Op.exec ByteArray.toString b' >>= _ : Except Fault Protocol) = _
  rw [hstring]
  rfl

/-! ### The loop -/

omit [Host] in
/-- The loop over the sessions from `it` to the end of the range, which moves on by `increment`; `reachable n` says
which sessions can be reached in round `n`. -/
def publishLoop (increment : List Nat → List Nat) (reachable : Nat → Nat → Bool) (pub : Protocol) :
    (fuel round : Nat) → List Nat → List (Nat × Protocol) → Option (List (Nat × Protocol))
  | 0, _, _, _ => none
  | _ + 1, _, [], sent => some sent
  | fuel + 1, round, connection :: rest, sent =>
    publishLoop increment reachable pub fuel (round + 1) (increment (connection :: rest))
      (if reachable round connection then sent ++ [(connection, pub)] else sent)

omit [Host] in
/-- One message to each session that is reached when it is its turn. -/
def deliveries (reachable : Nat → Nat → Bool) (pub : Protocol) : Nat → List Nat → List (Nat × Protocol)
  | _, [] => []
  | round, connection :: rest =>
    (if reachable round connection then [(connection, pub)] else []) ++ deliveries reachable pub (round + 1) rest

/-- The sessions under a key, from `equal_range(key)`. -/
def RpcServer.subscribers (server : RpcServer) (key : List Byte) : List Nat :=
  (server.subscribes.filter fun entry => entry.1 = key).map Prod.snd

omit [Host] in
def RpcServiceRegistry.subscribers (registry : RpcServiceRegistry) (key : List Byte) : List Nat :=
  (registry.subscribes.filter fun entry => entry.1 = key).map Prod.snd

/-- `publish(key, data)`: what has been sent when it returns, if it returns within `fuel` rounds. -/
def RpcServer.publish (server : RpcServer) (reachable : Nat → Nat → Bool) {T : Ty} (key : List Byte)
    (data : T.sem.Val) (fuel : Nat) : Except Fault (Option (List (Nat × Protocol))) := do
  if server.subscribes.isEmpty then return some []
  let pub ← publication key data
  return publishLoop id reachable pub fuel 0 (server.subscribers key) []

/-- `publish(key, data)` of the registry, with the rounds of its loop. -/
def RpcServiceRegistry.publishRounds (registry : RpcServiceRegistry) (reachable : Nat → Nat → Bool) {T : Ty}
    (key : List Byte) (data : T.sem.Val) (fuel : Nat) : Except Fault (Option (List (Nat × Protocol))) := do
  if registry.subscribes.isEmpty then return some []
  let pub ← publication key data
  return publishLoop List.tail reachable pub fuel 0 (registry.subscribers key) []

section

omit [Host]

variable (reachable : Nat → Nat → Bool) (pub : Protocol)

/-- A loop that stays where it is does not end in front of an entry. -/
theorem publishLoop_id_cons (fuel round : Nat) (connection : Nat) (rest : List Nat) (sent : List (Nat × Protocol)) :
    publishLoop id reachable pub fuel round (connection :: rest) sent = none := by
  induction fuel generalizing round sent with
  | zero => rfl
  | succ fuel ih => exact ih (round + 1) _

/-- A loop that moves on ends behind the last entry. -/
theorem publishLoop_tail (it : List Nat) (round : Nat) (sent : List (Nat × Protocol)) {fuel : Nat}
    (hfuel : it.length < fuel) :
    publishLoop List.tail reachable pub fuel round it sent = some (sent ++ deliveries reachable pub round it) := by
  induction it generalizing fuel round sent with
  | nil =>
    obtain ⟨fuel, rfl⟩ : ∃ n, fuel = n + 1 := ⟨fuel - 1, by omega⟩
    rw [deliveries, List.append_nil]
    rfl
  | cons connection rest ih =>
    obtain ⟨fuel, rfl⟩ : ∃ n, fuel = n + 1 := ⟨fuel - 1, by omega⟩
    have hrest : rest.length < fuel := Nat.lt_of_succ_lt_succ hfuel
    rw [publishLoop, List.tail_cons, ih (round + 1) _ hrest, deliveries]
    by_cases hreach : reachable round connection <;> simp [hreach]

/-- Where nothing changes, the sessions that can be reached get the message. -/
theorem deliveries_eq (up : Nat → Bool) (round : Nat) (it : List Nat) :
    deliveries (fun _ => up) pub round it = (it.filter up).map fun connection => (connection, pub) := by
  induction it generalizing round with
  | nil => rfl
  | cons connection rest ih =>
    rw [deliveries, ih]
    by_cases hup : up connection <;> simp [hup]

end

/-- The registry's loop sends one message for each entry whose session is reached, and ends. -/
theorem RpcServiceRegistry.publishRounds_eq (registry : RpcServiceRegistry) (reachable : Nat → Nat → Bool) {T : Ty}
    (key : List Byte) (data : T.sem.Val)
    (hfits : (publicationContent key data).length + Serializer.defaultBaseSize ≤ addressSpace) {fuel : Nat}
    (hfuel : (registry.subscribers key).length < fuel) :
    registry.publishRounds reachable key data fuel =
      .ok (some (deliveries reachable (publicationMessage key data) 0 (registry.subscribers key))) := by
  unfold publishRounds
  by_cases hempty : registry.subscribes = []
  · rw [if_pos (by simp [hempty]), subscribers, hempty]
    rfl
  · rw [if_neg (by simpa using hempty), publication_eq key data hfits]
    show Except.ok (publishLoop List.tail reachable _ fuel 0 (registry.subscribers key) []) = _
    rw [publishLoop_tail reachable _ _ 0 [] hfuel, List.nil_append]

/-- What is sent is what `publish` sends when nobody comes or goes. -/
theorem RpcServiceRegistry.deliveries_publish (registry : RpcServiceRegistry) (up : Nat → Bool) {T : Ty}
    (key : List Byte) (data : T.sem.Val) :
    deliveries (fun _ => up) (publicationMessage key data) 0 (registry.subscribers key) =
      registry.publish up key (publicationContent key data) := by
  unfold publish
  rw [deliveries_eq, subscribers]
  by_cases hempty : registry.subscribes = []
  · simp [hempty]
  · rw [if_neg (by simpa using hempty), List.filter_map, List.map_map]
    rfl

/-- `publish` returns, with one message sent for each entry under the key whose session is reached, just if there is no
such entry. -/
theorem RpcServer.publish_iff (server : RpcServer) (reachable : Nat → Nat → Bool) {T : Ty} (key : List Byte)
    (data : T.sem.Val)
    (hfits : (publicationContent key data).length + Serializer.defaultBaseSize ≤ addressSpace) :
    (∃ fuel, server.publish reachable key data fuel =
        .ok (some (deliveries reachable (publicationMessage key data) 0 (server.subscribers key)))) ↔
      ∀ entry ∈ server.subscribes, entry.1 ≠ key := by
  have hnone : server.subscribers key = [] ↔ ∀ entry ∈ server.subscribes, entry.1 ≠ key := by
    simp [subscribers, List.filter_eq_nil_iff]
  rw [← hnone]
  unfold publish
  by_cases hempty : server.subscribes = []
  · have hsub : server.subscribers key = [] := by simp [subscribers, hempty]
    rw [hsub]
    refine ⟨fun _ => rfl, fun _ => ⟨0, ?_⟩⟩
    rw [if_pos (by simp [hempty])]
    rfl
  · rw [publication_eq key data hfits]
    cases hsub : server.subscribers key with
    | nil =>
      refine ⟨fun _ => rfl, fun _ => ⟨1, ?_⟩⟩
      rw [if_neg (by simpa using hempty)]
      rfl
    | cons connection rest =>
      constructor
      · rintro ⟨fuel, heq⟩
        rw [if_neg (by simpa using hempty)] at heq
        have hloop : (Except.ok (publishLoop id reachable (publicationMessage key data) fuel 0 (connection :: rest)
          []) : Except Fault _) = .ok (some _) := heq
        rw [publishLoop_id_cons] at hloop
        cases hloop
      · intro hnil
        cases hnil

/-- Once a session has subscribed, nothing that is published under its key gets through the loop. -/
theorem RpcServer.not_published_of_handleSubscribe {server server' : RpcServer} {proto response : Protocol}
    {client : Nat}
    (hsub : server.handleSubscribe proto client = .ok (server', response)) :
    ∃ key, ∀ (reachable : Nat → Nat → Bool) {T : Ty} (data : T.sem.Val) (fuel : Nat) (sent : List (Nat × Protocol)),
      server'.publish reachable key data fuel ≠ .ok (some sent) := by
  obtain ⟨⟨key, s⟩, -, hrest⟩ := ok_of_bind_ok hsub
  obtain ⟨⟨_, s'⟩, -, hrest⟩ := ok_of_bind_ok hrest
  obtain ⟨⟨content, _⟩, -, hserver⟩ := ok_of_bind_ok hrest
  cases hserver
  refine ⟨key, ?_⟩
  intro reachable T data fuel sent heq
  obtain ⟨connection, rest, hrange⟩ : ∃ connection rest,
      subscribers { server with subscribes := server.subscribes ++ [(key, client)] } key = connection :: rest :=
    List.exists_cons_of_ne_nil (by simp [subscribers])
  unfold publish at heq
  rw [if_neg (by simp), hrange] at heq
  obtain ⟨pub, -, hloop⟩ := ok_of_bind_ok heq
  rw [publishLoop_id_cons] at hloop
  cases hloop

end

section

attribute [local instance] Host.zeroed

/-- A server with a subscriber under another key. -/
theorem RpcServer.publish_iff_other :
    ∃ fuel, (RpcServer.mk [] [([98], 0)]).publish (fun _ _ => true) (T := .scalar .bool) [97] true fuel =
      .ok (some (deliveries (fun _ _ => true) (publicationMessage (T := .scalar .bool) [97] true) 0 [])) :=
  (RpcServer.publish_iff ⟨[], [([98], 0)]⟩ (fun _ _ => true) (T := .scalar .bool) [97] true (by decide)).2 (by decide)

/-- A server with one subscriber, who stays connected. -/
theorem RpcServer.not_published_one :
    ¬ ∃ fuel, (RpcServer.mk [] [([97], 0)]).publish (fun _ _ => true) (T := .scalar .bool) [97] true fuel =
      .ok (some (deliveries (fun _ _ => true) (publicationMessage (T := .scalar .bool) [97] true) 0 [0])) := by
  rintro ⟨fuel, heq⟩
  obtain ⟨pub, -, hloop⟩ := ok_of_bind_ok heq
  have hsome : publishLoop id (fun _ _ => true) pub fuel 0 [0] [] = some _ := Except.ok.inj hloop
  rw [publishLoop_id_cons] at hsome
  cases hsome

end

end AcidCompute

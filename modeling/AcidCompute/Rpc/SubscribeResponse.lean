import AcidCompute.Rpc.Handlers

/-!
# The answers to a subscription

The registry clears the serializer in front of its answer and rewinds it behind.  The server rewinds it in front only,
so that the answer lies in front of the position, and what is sent is what the request left behind it
(`answersAlike_iff`).  The value of a `Result<>` is a byte that nothing has initialised, and it is sent, too.
-/

namespace AcidCompute

open AcidCompute.ByteArray

/-- A success without a value: the state, the message, and the byte of `m_value`. -/
def successBytes (value : Byte) : List Byte := [0, 0, 7, 115, 117, 99, 99, 101, 115, 115, value]

private theorem bytes_success (value : Byte) [Host] :
    (⟨RpcState.success.code, text "success", value⟩ : Result (CppType.scalar .int8)).bytes
      (Format.scalar .int8 : Format .big _) = successBytes value := by
  have hfront : Scalar.bytes .big .uint16 RpcState.success.code ++ stringVint (text "success") =
      [0, 0, 7, 115, 117, 99, 99, 101, 115, 115] := by decide
  rw [Result.bytes]
  show Scalar.bytes .big .uint16 RpcState.success.code ++ (stringVint (text "success") ++ [value]) = successBytes value
  rw [← List.append_assoc, hfront]
  rfl

/-- From its first byte to its end the content is read as a success, with any byte for the value. -/
def ReadsSuccess [Host] (content : List Byte) : Prop :=
  ∃ s s' r, Serializer.ofString content = .ok s ∧
    Op.exec (Result.empty (CppType.scalar .int8)).read s = .ok (r, s') ∧
    r.code = RpcState.success.code ∧ r.message = text "success" ∧ s'.unread = []

/-- Both handlers answer the request, with the same content, which is read as a success. -/
def AnswersAlike [Host] (server : RpcServer) (registry : RpcServiceRegistry) (client : Nat) (proto : Protocol) : Prop :=
  ∃ server' registry' answer answer',
    server.handleSubscribe proto client = .ok (server', answer) ∧
      registry.handleSubscribe proto client = .ok (registry', answer') ∧
      answer.content = answer'.content ∧ ReadsSuccess answer.content

private theorem readsSuccess_successBytes [Host] (value : Byte) : ReadsSuccess (successBytes value) := by
  have hlength : (successBytes value).length = 11 := rfl
  obtain ⟨s, hs, hholds⟩ := Serializer.ofString_spec (successBytes value) (by rw [hlength]; decide)
  have hread : Reads .big (Result.empty (CppType.scalar .int8)).read (successBytes value)
      ⟨RpcState.success.code, text "success", value⟩ := by
    rw [← bytes_success]
    exact Result.reads_read (Result.empty _) rfl (Scalar.reads_read .int8 _)
  have hunread : s.unread = successBytes value ++ [] := hholds.unread_eq.trans (List.append_nil _).symm
  have hroom : s.position + (successBytes value).length < s.baseSize := by
    rw [hholds.position_eq, hholds.base_eq, hlength]
    decide
  have heq := hread s [] hholds.ready hroom hunread
  exact ⟨s, _, _, hs, Op.exec_of_ok heq, rfl, rfl, unread_moveTo hunread⟩

private theorem answersAlike_iff_of_take [Host] (server : RpcServer) (registry : RpcServiceRegistry) (client : Nat)
    {proto : Protocol} {key rest : List Byte} (hlen : proto.content.length < 2 ^ 31)
    (htake : takeString proto.content = some (key, rest)) :
    AnswersAlike server registry client proto ↔ proto.content.drop 11 = successBytes (Host.storage 8) := by
  have hbytes : (Result.succeeded (CppType.scalar .int8)).bytes (Format.scalar .int8 : Format .big _) =
      successBytes (Host.storage 8) := bytes_success (Host.storage 8)
  have hserver := serverSubscribe_eq server client hlen htake
  have hregistry := registrySubscribe_eq registry client hlen htake
  rw [hbytes] at hserver hregistry
  constructor
  · rintro ⟨server', registry', answer, answer', hs, hr, hsame, -⟩
    rw [hserver] at hs
    rw [hregistry] at hr
    cases hs
    cases hr
    exact hsame
  · intro hdrop
    refine ⟨_, _, _, _, hserver, hregistry, hdrop, ?_⟩
    show ReadsSuccess (proto.content.drop 11)
    rw [hdrop]
    exact readsSuccess_successBytes (Host.storage 8)

/-- A request of less than 2^32 bytes with a key in front is answered alike just if its bytes behind the eleventh are a
success themselves, with the byte that the registry's `m_value` has. -/
theorem answersAlike_iff [Host] (server : RpcServer) (registry : RpcServiceRegistry) (client : Nat) {proto : Protocol}
    (hlen : proto.content.length < 2 ^ 32) (hkey : (takeString proto.content).isSome) :
    AnswersAlike server registry client proto ↔ proto.content.drop 11 = successBytes (Host.storage 8) := by
  obtain ⟨⟨key, rest⟩, htake⟩ := Option.isSome_iff_exists.1 hkey
  by_cases hint : proto.content.length < 2 ^ 31
  · exact answersAlike_iff_of_take server registry client hint htake
  · -- the request does not fit into a serializer
    refine iff_of_false ?_ fun hdrop => ?_
    · rintro ⟨server', registry', answer, answer', hs, -⟩
      unfold RpcServer.handleSubscribe Serializer.readKey at hs
      rw [Serializer.ofString_throws (by omega) hlen] at hs
      cases hs
    · have hlength := congrArg List.length hdrop
      rw [List.length_drop, show (successBytes (Host.storage 8)).length = 11 from rfl] at hlength
      omega

section

attribute [local instance] Host.zeroed

/-- A key of ten characters in front of the bytes of a success. -/
theorem answersAlike_iff_key :
    AnswersAlike ⟨[], []⟩ ⟨[]⟩ 0
      (Protocol.create .rpcSubscribeRequest (stringVint (List.replicate 10 65#8 ++ successBytes 0)) 0) :=
  (answersAlike_iff ⟨[], []⟩ ⟨[]⟩ 0 (by decide) (by decide)).2 (by decide)

/-- The answer to a subscription for the key `A` is not read as a success. -/
theorem not_answersAlike_short :
    takeString (Protocol.create .rpcSubscribeRequest (stringVint [65#8]) 0).content = some ([65#8], []) ∧
      ¬ AnswersAlike ⟨[], []⟩ ⟨[]⟩ 0 (Protocol.create .rpcSubscribeRequest (stringVint [65#8]) 0) := by
  have htake : takeString (Protocol.create .rpcSubscribeRequest (stringVint [65#8]) 0).content = some ([65#8], []) := by
    decide
  refine ⟨htake, ?_⟩
  rw [answersAlike_iff_of_take _ _ _ (by decide) htake]
  decide

end

end AcidCompute

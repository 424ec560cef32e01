import AcidCompute.Net.Stream
import AcidCompute.Rpc.Protocol

/-!
# Sessions of `acid/rpc/rpc_session.cpp`

A session sends an encoded message and receives one in two steps, the header and then the content.  The header is
received through the buffers of a byte array, and it lies inside one block: `get_write_buffers` describes nothing, the
kernel is asked for nothing, and the session takes that for the end of the connection (`recvProtocol_eq`).
-/

namespace AcidCompute

open AcidCompute.ByteArray

namespace RpcSession

/-- A call on a local object that is dropped afterwards. -/
def withLocal {σ α : Type} (object : σ) (m : Net σ α) : StateT Link (Except Stop) (α × σ) := fun link => do
  let (a, (link, object)) ← m (link, object)
  return ((a, object), link)

/-- A call that does not use the connection. -/
def pureCall {α : Type} (x : Except Fault α) : StateT Link (Except Stop) α := fun link =>
  match x with
  | .ok a => .ok (a, link)
  | .error f => .error (.fault f)

private theorem bind_of_ok {α β : Type} {m : StateT Link (Except Stop) α} {f : α → StateT Link (Except Stop) β}
    {link link' : Link} {a : α} (h : m link = .ok (a, link')) : (m >>= f) link = f a link' := by
  show (m link >>= _ : Except Stop (β × Link)) = _
  rw [h]
  rfl

private theorem withLocal_of_ok {σ α : Type} {object object' : σ} {m : Net σ α} {link link' : Link} {a : α}
    (h : m (link, object) = .ok (a, (link', object'))) : withLocal object m link = .ok ((a, object'), link') := by
  show (m (link, object) >>= _ : Except Stop _) = _
  rw [h]
  rfl

variable [Host] (t : Transport)

def recvProtocol : StateT Link (Except Stop) (Option Protocol) := do
  let protocol := Protocol.empty
  let byteArray ← pureCall (ByteArray.new Protocol.blockSize .big)
  let (ret, byteArray) ← withLocal byteArray (SocketStream.readFixSize t Protocol.baseLength)
  -- the result is unsigned
  if ret = 0 then return none
  let (protocol, _) ← pureCall (Op.exec (do
    setPosition 0
    Protocol.decodeMeta protocol) byteArray)
  if protocol.magic ≠ Protocol.magicNumber then return none
  if protocol.contentLength = 0 then return some protocol
  let (ret, buffer) ← withLocal (List.replicate protocol.contentLength.toNat 0)
    (SocketStream.readFixSizeBuffer t protocol.contentLength.toNat)
  if ret = 0 then return none
  return some { protocol with content := buffer }

def sendProtocol (protocol : Protocol) : StateT Link (Except Stop) Nat := do
  let byteArray ← pureCall protocol.encode
  let (ret, _) ← withLocal byteArray (SocketStream.writeFixSize t byteArray.size)
  return ret

/-- Messages sent one after another, and as many received on the other end. -/
def exchange (ps : List Protocol) : StateT Link (Except Stop) (List (Option Protocol)) := do
  let _ ← ps.mapM (sendProtocol t)
  ps.mapM fun _ => recvProtocol t

/-- The other end gets the messages in their order. -/
def Delivered (ps : List Protocol) : Prop :=
  ∃ received link, exchange t ps ⟨[], 0⟩ = .ok (received, link) ∧
    List.Forall₂ (fun r p => ∃ q : Protocol, r = some q ∧ q.version = p.version ∧ q.type = p.type ∧
      q.sequenceId = p.sequenceId ∧ q.content = p.content) received ps

/-! ### One message -/

/-- The end of the connection is all that is ever received. -/
theorem recvProtocol_eq (link : Link) : recvProtocol t link = .ok (none, link) := by
  obtain ⟨b, hnew⟩ : ∃ b, ByteArray.new Protocol.blockSize .big = .ok b := ⟨_, rfl⟩
  obtain ⟨hvalid, hsync, hbase, -, hpos, -, hcap⟩ := new_valid (by decide) hnew
  have hread : SocketStream.readFixSize t Protocol.baseLength (link, b) = .ok (0, (link, b)) := by
    have hcall := SocketStream.read_nothing t hvalid hsync Protocol.baseLength
      (by rw [hpos, hbase]; decide) (by rw [hpos, hcap]; decide) link
    show (SocketStream.read t Protocol.baseLength >>= _ : Net ByteArray Nat) (link, b) = _
    rw [Net.bind_of_ok hcall]
    rfl
  unfold recvProtocol
  rw [hnew, bind_of_ok rfl, bind_of_ok (withLocal_of_ok hread)]
  rfl

/-- How much of a message is sent. -/
def sentLength (p : Protocol) : Nat := (p.wire.length - 1) / Protocol.blockSize * Protocol.blockSize

/-- A message is sent up to its last block. -/
theorem sendProtocol_spec {p : Protocol} (hlen : p.content.length < 2 ^ 32) (link : Link) :
    ∃ link', sendProtocol t p link = .ok (0, link') ∧
      link'.pending = link.pending ++ p.wire.take (sentLength p) := by
  obtain ⟨b, hencode, hb⟩ := Protocol.encode_spec hlen
  have hsize : 0 < b.size := by
    rw [hb.size_eq, Protocol.wire, List.length_append, Protocol.length_metaBytes]
    omega
  obtain ⟨link', b', hwrite, hpending⟩ := SocketStream.writeFixSize_spec t hb.ready hb.position_eq hsize link
  rw [hb.content_eq, SocketStream.wholeBlocks, hb.size_eq, hb.base_eq] at hpending
  refine ⟨link', ?_, hpending⟩
  unfold sendProtocol
  rw [hencode, bind_of_ok rfl, bind_of_ok (withLocal_of_ok hwrite)]
  rfl

/-! ### Sequences of messages -/

private theorem mapM_sendProtocol {ps : List Protocol} (h : ∀ p ∈ ps, p.content.length < 2 ^ 32) (link : Link) :
    ∃ link', ps.mapM (sendProtocol t) link = .ok (ps.map fun _ => 0, link') ∧
      link'.pending = link.pending ++ ps.flatMap fun p => p.wire.take (sentLength p) := by
  induction ps generalizing link with
  | nil => exact ⟨link, rfl, (List.append_nil _).symm⟩
  | cons p ps ih =>
    obtain ⟨link₁, hsend, hpending₁⟩ := sendProtocol_spec t (h p (List.mem_cons_self ..)) link
    obtain ⟨link₂, hrest, hpending₂⟩ := ih (fun q hq => h q (List.mem_cons_of_mem p hq)) link₁
    refine ⟨link₂, ?_, ?_⟩
    · rw [List.mapM_cons, bind_of_ok hsend, bind_of_ok hrest]
      rfl
    · rw [hpending₂, hpending₁, List.flatMap_cons, List.append_assoc]

private theorem mapM_recvProtocol (ps : List Protocol) (link : Link) :
    ps.mapM (fun _ => recvProtocol t) link = .ok (ps.map fun _ => none, link) := by
  induction ps with
  | nil => rfl
  | cons p ps ih =>
    rw [List.mapM_cons, bind_of_ok (recvProtocol_eq t link), bind_of_ok ih]
    rfl

/-- Nothing is received, and what was sent stays in the connection. -/
theorem exchange_eq (ps : List Protocol) (h : ∀ p ∈ ps, p.content.length < 2 ^ 32) :
    ∃ link, exchange t ps ⟨[], 0⟩ = .ok (ps.map fun _ => none, link) ∧
      link.pending = ps.flatMap fun p => p.wire.take (sentLength p) := by
  obtain ⟨link, hsend, hpending⟩ := mapM_sendProtocol t h ⟨[], 0⟩
  refine ⟨link, ?_, hpending⟩
  unfold exchange
  rw [bind_of_ok hsend]
  exact mapM_recvProtocol t ps link

/-- Whatever the kernel does, only the empty sequence of messages is delivered. -/
theorem delivered_iff (ps : List Protocol) (h : ∀ p ∈ ps, p.content.length < 2 ^ 32) :
    Delivered t ps ↔ ps = [] := by
  obtain ⟨link, heq, -⟩ := exchange_eq t ps h
  constructor
  · rintro ⟨received, link', heq', hsame⟩
    rw [heq] at heq'
    cases heq'
    cases ps with
    | nil => rfl
    | cons p ps =>
      obtain ⟨⟨q, hq, -⟩, -⟩ := List.forall₂_cons.1 hsame
      cases hq
  · rintro rfl
    exact ⟨[], link, heq, List.Forall₂.nil⟩

end RpcSession

section

attribute [local instance] Host.zeroed

/-- A kernel that takes all bytes it is offered. -/
def Transport.greedy : Transport := ⟨fun _ n => n, fun _ _ h => h, fun _ _ => Nat.le_refl _⟩

/-- Not even a heartbeat gets through. -/
theorem RpcSession.not_delivered_heartbeat : ¬ RpcSession.Delivered Transport.greedy [Protocol.empty] := by
  rintro ⟨received, link, heq, hsame⟩
  obtain ⟨link', heq', -⟩ := RpcSession.exchange_eq Transport.greedy [Protocol.empty] (by decide)
  rw [heq'] at heq
  cases heq
  obtain ⟨⟨q, hq, -⟩, -⟩ := List.forall₂_cons.1 hsame
  cases hq

theorem RpcSession.delivered_iff_heartbeat :
    RpcSession.Delivered Transport.greedy [] ∧ (RpcSession.Delivered Transport.greedy [Protocol.empty] → False) :=
  ⟨(RpcSession.delivered_iff Transport.greedy [] (by decide)).2 rfl,
    fun h => absurd ((RpcSession.delivered_iff Transport.greedy [Protocol.empty] (by decide)).1 h) (by decide)⟩

end

end AcidCompute

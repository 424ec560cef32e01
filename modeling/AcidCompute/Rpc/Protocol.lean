import AcidCompute.ByteArray.Codec

/-!
# The message format of `acid/rpc/protocol.{h,cpp}`

A message is eleven bytes of header (magic number, version, type, sequence id and content length, the last two as
big-endian words) and the content.  The header is written and read in two ways each, with and without the content.
-/

namespace AcidCompute

open AcidCompute.ByteArray

/-- `Protocol::MessageType` -/
inductive MessageType
  | heartbeatPacket
  | rpcProvider
  | rpcComsumer
  | rpcRequest
  | rpcResponse
  | rpcMethodRequest
  | rpcMethodResponse
  | rpcServiceRegister
  | rpcServiceRegisterResponse
  | rpcServiceDiscover
  | rpcServiceDiscoverResponse
  | rpcSubscribeRequest
  | rpcSubscribeResponse
  | rpcPublishRequest
  | rpcPublishResponse
  deriving DecidableEq, Repr

-- the enumerators are numbered in the order of their declaration
def MessageType.code (type : MessageType) : BitVec 8 := BitVec.ofNat 8 type.ctorIdx

structure Protocol where
  magic : BitVec 8
  version : BitVec 8
  type : BitVec 8
  sequenceId : BitVec 32
  contentLength : BitVec 32
  content : List Byte
  deriving DecidableEq, Repr

namespace Protocol

/-- `MAGIC` -/
def magicNumber : BitVec 8 := 0xcc

/-- `DEFAULT_VERSION` -/
def defaultVersion : BitVec 8 := 0x01

/-- `BASE_LENGTH` -/
def baseLength : Nat := 11

/-- The base size of `std::make_shared<ByteArray>()`. -/
def blockSize : Nat := 4096

/-- `Protocol()` -/
def empty : Protocol where
  magic := magicNumber
  version := defaultVersion
  type := 0
  sequenceId := 0
  contentLength := 0
  content := []

def create (type : MessageType) (content : List Byte) (id : BitVec 32) : Protocol :=
  { empty with
    type := type.code, content := content, contentLength := BitVec.ofNat 32 content.length, sequenceId := id }

/-- The fields in front of the length, which both encoders write alike. -/
def writeHeader [Host] (p : Protocol) : Op ByteArray Unit := do
  writeFixInt8 p.magic
  writeFixInt8 p.version
  writeFixInt8 p.type
  writeFixInt (n := 4) p.sequenceId

def encodeMeta [Host] (p : Protocol) : Except Fault ByteArray := do
  let byteArray ← ByteArray.new blockSize .big
  let (_, byteArray) ← Op.exec (do
    writeHeader p
    writeFixInt (n := 4) (BitVec.ofNat 32 p.content.length)
    setPosition 0) byteArray
  return byteArray

def encode [Host] (p : Protocol) : Except Fault ByteArray := do
  let byteArray ← ByteArray.new blockSize .big
  let (_, byteArray) ← Op.exec (do
    writeHeader p
    writeStringFix 4 p.content
    setPosition 0) byteArray
  return byteArray

/-- The fields in front of the length, which both decoders read alike. -/
def readHeader [Host] (p : Protocol) : Op ByteArray Protocol := do
  let magic ← readFixInt8
  let version ← readFixInt8
  let type ← readFixInt8
  let sequenceId ← readFixInt 4
  return { p with magic := magic, version := version, type := type, sequenceId := sequenceId }

def decodeMeta [Host] (p : Protocol) : Op ByteArray Protocol := do
  let p ← readHeader p
  let contentLength ← readFixInt 4
  return { p with contentLength := contentLength }

def decode [Host] (p : Protocol) : Op ByteArray Protocol := do
  let p ← readHeader p
  let content ← readStringFix 4
  return { p with content := content, contentLength := BitVec.ofNat 32 content.length }

/-! ### The bytes on the wire -/

/-- The bytes of a word, highest first. -/
def bigEndian (v : BitVec 32) : List Byte :=
  [(v >>> 24).setWidth 8, (v >>> 16).setWidth 8, (v >>> 8).setWidth 8, v.setWidth 8]

/-- The fields in front of the length, in big-endian order. -/
def headerBytes (p : Protocol) : List Byte := [p.magic, p.version, p.type] ++ bigEndian p.sequenceId

/-- The eleven bytes in front of the content. -/
def metaBytes (p : Protocol) : List Byte := p.headerBytes ++ bigEndian (BitVec.ofNat 32 p.content.length)

/-- The whole message. -/
def wire (p : Protocol) : List Byte := p.metaBytes ++ p.content

theorem memory_big (v : BitVec 32) : memory .big (n := 4) v = bigEndian v := by
  have hbyte : ∀ k, BitVec.ofNat 8 (v.toNat / 2 ^ k) = (v >>> k).setWidth 8 := by
    intro k
    apply BitVec.eq_of_toNat_eq
    rw [BitVec.toNat_ofNat, BitVec.toNat_setWidth, BitVec.toNat_ushiftRight, Nat.shiftRight_eq_div_pow]
  have h0 := hbyte 0
  have h8 := hbyte 8
  have h16 := hbyte 16
  have h24 := hbyte 24
  simp only [Nat.pow_zero, Nat.div_one, BitVec.ushiftRight_zero, Nat.reducePow] at h0 h8 h16 h24
  simp only [memory, leBytes, bigEndian, Nat.div_div_eq_div_mul, Nat.reduceMul, h0, h8, h16, h24]
  rfl

@[simp] theorem length_headerBytes (p : Protocol) : p.headerBytes.length = 7 := rfl

@[simp] theorem length_metaBytes (p : Protocol) : p.metaBytes.length = 11 := rfl

section

variable [Host]

theorem writes_word (v : BitVec 32) : Writes .big (writeFixInt (n := 4) v) (bigEndian v) := by
  have hword : Writes .big (writeFixInt (n := 4) v) (memory .big (n := 4) v) := writes_fixInt (n := 4) v
  rwa [memory_big] at hword

theorem reads_readWord (v : BitVec 32) : Reads .big (readFixInt 4) (bigEndian v) v := by
  have hword : Reads .big (readFixInt 4) (memory .big (n := 4) v) v := reads_readFixInt (n := 4) v
  rwa [memory_big] at hword

theorem writes_header (p : Protocol) : Writes .big (writeHeader p) p.headerBytes :=
  (writes_fixInt8 p.magic).bind ((writes_fixInt8 p.version).bind
    ((writes_fixInt8 p.type).bind (writes_word p.sequenceId)))

theorem reads_readHeader (p q : Protocol) :
    Reads .big (readHeader q) p.headerBytes
      { q with magic := p.magic, version := p.version, type := p.type, sequenceId := p.sequenceId } :=
  (reads_readFixInt8 p.magic).bind ((reads_readFixInt8 p.version).bind
    ((reads_readFixInt8 p.type).bind ((reads_readWord p.sequenceId).map _)))

/-! ### Both encoders and both decoders -/

private theorem exec_encoder {m m' : Op ByteArray Unit} {bs cs : List Byte} (hm : Writes .big m bs)
    (hm' : Writes .big m' cs) (hlen : (bs ++ cs).length + blockSize ≤ addressSpace) :
    ∃ b b', ByteArray.new blockSize .big = .ok b ∧
      Op.exec (m >>= fun _ => m' >>= fun _ => setPosition 0) b = .ok ((), b') ∧
      Holds .big blockSize (bs ++ cs) b' := by
  obtain ⟨b, b', hnew, heq, hb'⟩ := exec_new (by decide) (hm.bind hm') hlen
  rw [bind_assoc] at heq
  exact ⟨b, b', hnew, heq, hb'⟩

theorem encodeMeta_spec (p : Protocol) : ∃ b, encodeMeta p = .ok b ∧ Holds .big blockSize p.metaBytes b := by
  obtain ⟨b, b', hnew, heq, hb'⟩ := exec_encoder (writes_header p) (writes_word _)
    (by show 11 + 4096 ≤ 2 ^ 56; decide)
  refine ⟨b', ?_, hb'⟩
  unfold encodeMeta
  rw [hnew]
  show (Op.exec _ b >>= _ : Except Fault ByteArray) = _
  rw [heq]
  rfl

theorem encode_spec {p : Protocol} (hlen : p.content.length < 2 ^ 32) :
    ∃ b, encode p = .ok b ∧ Holds .big blockSize p.wire b := by
  have hstring : Writes .big (writeStringFix 4 p.content)
      (bigEndian (BitVec.ofNat 32 p.content.length) ++ p.content) :=
    (writes_word _).bind (Writes.write p.content)
  have hwire : p.headerBytes ++ (bigEndian (BitVec.ofNat 32 p.content.length) ++ p.content) = p.wire := by
    rw [wire, metaBytes, List.append_assoc]
  obtain ⟨b, b', hnew, heq, hb'⟩ := exec_encoder (writes_header p) hstring
    (by
      rw [hwire, wire, List.length_append, length_metaBytes]
      unfold blockSize addressSpace
      omega)
  rw [hwire] at hb'
  refine ⟨b', ?_, hb'⟩
  unfold encode
  rw [hnew]
  show (Op.exec _ b >>= _ : Except Fault ByteArray) = _
  rw [heq]
  rfl

theorem reads_decodeMeta (p q : Protocol) :
    Reads .big (decodeMeta q) p.metaBytes
      { p with contentLength := BitVec.ofNat 32 p.content.length, content := q.content } :=
  (reads_readHeader p q).bind ((reads_readWord _).map _)

/-- The content may be longer than a block: it is read in one piece that starts in the first block. -/
theorem decode_spec {p : Protocol} (hlen : p.content.length < 2 ^ 32) (q : Protocol) {b : ByteArray}
    (hb : Holds .big blockSize p.wire b) :
    decode q b =
      .ok { p with contentLength := BitVec.ofNat 32 p.content.length } (b.moveTo (11 + p.content.length)) := by
  have hunread : b.unread = p.headerBytes ++ (bigEndian (BitVec.ofNat 32 p.content.length) ++ p.content) := by
    rw [hb.unread_eq, wire, metaBytes, List.append_assoc]
  have hsize : b.size = 11 + p.content.length := by
    rw [hb.size_eq, wire, List.length_append, length_metaBytes]
  have hheader := reads_readHeader p q b _ hb.ready
    (by rw [hb.position_eq, hb.base_eq, length_headerBytes]; decide) hunread
  have hb₁ := hb.ready.moveTo (position_le_of_unread hb.ready.valid hunread)
  have hu₁ := unread_moveTo hunread
  rw [hb.position_eq, length_headerBytes] at hheader hb₁ hu₁
  have hfirst : 7 + 4 < b.baseSize := by rw [hb.base_eq]; decide
  have hlength := reads_readWord (BitVec.ofNat 32 p.content.length) (b.moveTo 7) p.content hb₁ hfirst hu₁
  have hb₂ : Ready .big (b.moveTo 11) := hb.ready.moveTo (by omega)
  have hcontent : ByteArray.read p.content.length (b.moveTo 11) =
      .ok p.content (b.moveTo (11 + p.content.length)) := by
    have hread := read_spec hb₂.valid hb₂.synced (by show 11 < b.baseSize; rw [hb.base_eq]; decide)
      (n := p.content.length) (by show p.content.length ≤ b.size - 11; omega)
    have hu₂ : (b.moveTo 11).unread = p.content := unread_moveTo (b := b.moveTo 7) hu₁
    rwa [hu₂, List.take_length] at hread
  have hnat : (BitVec.ofNat 32 p.content.length).toNat = p.content.length := by
    rw [BitVec.toNat_ofNat, Nat.mod_eq_of_lt hlen]
  have hresize : resize p.content.length (b.moveTo 11) = .ok () (b.moveTo 11) := by
    unfold resize stringMaxSize
    rw [if_neg (by omega)]
    rfl
  have hstring : readStringFix 4 (b.moveTo 7) = .ok p.content (b.moveTo (11 + p.content.length)) := by
    refine (Op.bind_of_ok hlength).trans ?_
    show (resize (BitVec.ofNat 32 p.content.length).toNat >>= fun _ =>
      ByteArray.read (BitVec.ofNat 32 p.content.length).toNat : Op ByteArray _) (b.moveTo 11) = _
    rw [hnat, Op.bind_of_ok hresize, hcontent]
  unfold decode
  rw [Op.bind_of_ok hheader, Op.bind_of_ok hstring]
  rfl

/-- Decoding an encoded message gives it back with the length of its content; the header alone is the first eleven
bytes, in front of the content, for both encoders, both decoders and any content length that was set. -/
theorem decode_encode (p : Protocol) (hlen : p.content.length < 2 ^ 32) :
    ∃ b : ByteArray, encode p = .ok b ∧ b.content = p.wire ∧
      (∀ q : Protocol, ∃ b', decode q b =
        .ok { p with contentLength := BitVec.ofNat 32 p.content.length } b') ∧
      (∀ q : Protocol, ∃ b', decodeMeta q b =
        .ok { p with contentLength := BitVec.ofNat 32 p.content.length, content := q.content } b' ∧
          b'.position = 11 ∧ b'.unread = p.content) ∧
      ∀ n : BitVec 32, ∃ b', encodeMeta { p with contentLength := n } = .ok b' ∧
        b'.content = b.content.take 11 := by
  obtain ⟨b, hencode, hb⟩ := encode_spec hlen
  have hunread : b.unread = p.metaBytes ++ p.content := hb.unread_eq
  refine ⟨b, hencode, hb.content_eq, fun q => ⟨_, decode_spec hlen q hb⟩, fun q => ?_, fun n => ?_⟩
  · have hmeta := reads_decodeMeta p q b p.content hb.ready
      (by rw [hb.position_eq, hb.base_eq, length_metaBytes]; decide) hunread
    refine ⟨_, hmeta, ?_, unread_moveTo hunread⟩
    show b.position + 11 = 11
    rw [hb.position_eq]
  · obtain ⟨b', hmeta, hb'⟩ := encodeMeta_spec { p with contentLength := n }
    refine ⟨b', hmeta, ?_⟩
    rw [hb'.content_eq, hb.content_eq]
    rfl

end

/-- A request of three bytes on a little-endian host. -/
theorem decode_encode_three :
    ∃ b : ByteArray, @encode Host.zeroed { Protocol.empty with type := 5, content := [1, 2, 3] } = .ok b ∧
      b.content = [0xcc, 1, 5, 0, 0, 0, 0, 0, 0, 0, 3, 1, 2, 3] :=
  let p : Protocol := { Protocol.empty with type := 5, content := [1, 2, 3] }
  let ⟨b, hencode, hcontent, _⟩ := @decode_encode Host.zeroed p (by decide)
  ⟨b, hencode, hcontent.trans (by decide)⟩

end Protocol

end AcidCompute

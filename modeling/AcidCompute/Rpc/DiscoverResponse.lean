import AcidCompute.Rpc.Pool
import AcidCompute.Rpc.ResultSequence
import Mathlib.Logic.Function.Iterate

/-!
# The answer to a discovery

`handle_discover_service` writes the name of the service, a number of 32 bits and that many results, and `discover`
reads them again.  A service that nobody has registered has one result, a failure, whose value stays unread at the end
of the content.
-/

namespace AcidCompute

open AcidCompute.ByteArray

/-! ### The content of the answer -/

/-- What a serializer has been given is the string taken out of it. -/
theorem Serializer.toString_of_written [Host] {m : Op ByteArray Unit} {bs : List Byte} (hm : Writes .big m bs)
    {b b' : ByteArray} (hnew : Serializer.new = .ok b) (hexec : Op.exec (m >>= fun _ => reset) b = .ok ((), b')) :
    Op.exec ByteArray.toString b' = .ok (bs, b') := by
  have hb := holds_of_new (by decide) hnew
  rcases hm b hb.ready with ⟨b₁, heq, h₁⟩ | ⟨-, b₁, heq⟩
  · have hholds := hb.rewind h₁
    have hrewound : (m >>= fun _ => reset) b = .ok () (b₁.moveTo 0) :=
      (Op.bind_of_ok heq).trans (setPosition_zero h₁.valid)
    rw [Op.exec_of_ok hrewound] at hexec
    cases hexec
    have hstring := toString_spec hholds.ready.valid hholds.ready.synced
    rw [hholds.unread_eq] at hstring
    exact Op.exec_of_ok hstring
  · rw [Op.exec_of_error (Op.bind_of_error heq)] at hexec
    cases hexec

namespace RpcServiceRegistry

section

variable [Host]

/-- The results that are sent: as many as the number in front of them says. -/
def sentResults (s : Services) (name : List Byte) : List (Result (CppType.scalar .string)) :=
  (discoverResults s name).take (BitVec.ofNat 32 (discoverResults s name).length).toNat

/-- The serialized form of an answer. -/
def discoverContent (s : Services) (name : List Byte) : List Byte :=
  stringVint name ++ (varint (BitVec.ofNat 32 (discoverResults s name).length) ++
    (sentResults s name).flatMap (Result.bytes (Format.scalar .string : Format .big _)))

private theorem writes_discoverContent (s : Services) (name : List Byte) :
    Writes .big (do
      Scalar.write .string name
      Scalar.write .uint32 (BitVec.ofNat 32 (discoverResults s name).length)
      CppType.writeItems Result.write (sentResults s name)) (discoverContent s name) :=
  (Scalar.writes_write .string _).bind ((Scalar.writes_write .uint32 _).bind
    (CppType.writes_items (fun r => r.writes_write (Format.scalar .string)) _))

theorem content_handleDiscoverService {s : Services} {proto response : Protocol}
    (h : handleDiscoverService s proto = .ok response) : response.content = discoverContent s proto.content := by
  unfold handleDiscoverService at h
  obtain ⟨b, hnew, h⟩ := ok_of_bind_ok h
  obtain ⟨⟨⟨⟩, b'⟩, hexec, h⟩ := ok_of_bind_ok h
  obtain ⟨⟨content, b''⟩, hstring, h⟩ := ok_of_bind_ok h
  have hread := Serializer.toString_of_written (writes_discoverContent s proto.content) hnew (by
    rw [← hexec]
    simp only [bind_assoc]
    rfl)
  rw [hread] at hstring
  cases hstring
  cases h
  rfl

/-- The content of any answer that fits into memory is sent. -/
theorem handleDiscoverService_ok (s : Services) (proto : Protocol)
    (hfits : (discoverContent s proto.content).length + Serializer.defaultBaseSize ≤ addressSpace) :
    ∃ response, handleDiscoverService s proto = .ok response := by
  obtain ⟨b, b', b'', hnew, hexec, hstring⟩ := Serializer.write_toString (writes_discoverContent s proto.content) hfits
  unfold sentResults at hexec
  simp only [bind_assoc] at hexec
  unfold handleDiscoverService
  rw [hnew]
  show ∃ response, (Op.exec _ b >>= _ : Except Fault Protocol) = .ok response
  rw [hexec]
  show ∃ response, (Op.exec ByteArray.toString b' >>= _ : Except Fault Protocol) = .ok response
  rw [hstring]
  exact ⟨_, rfl⟩

theorem discoverResults_of_none {s : Services} {name : List Byte} (h : s.services.equalRange name = []) :
    discoverResults s name = [notFound name] := by
  unfold discoverResults
  rw [h]

theorem discoverResults_of_some {s : Services} {name : List Byte} (h : s.services.equalRange name ≠ []) :
    discoverResults s name = ((s.services.equalRange name).map Entry.value).map found := by
  unfold discoverResults
  rw [List.map_map]
  cases hrange : s.services.equalRange name with
  | nil => exact absurd hrange h
  | cons e entries => rfl

/-- As long as the number of results can be sent, all of them are. -/
theorem sentResults_eq {s : Services} {name : List Byte} (h : (discoverResults s name).length < 2 ^ 32) :
    sentResults s name = discoverResults s name := by
  unfold sentResults
  rw [BitVec.toNat_ofNat, Nat.mod_eq_of_lt h, List.take_length]

end

end RpcServiceRegistry

namespace RpcConnectionPool

section

variable [Host]

-- the loop of `discover`
def readResults : Nat → Op ByteArray (List (Result (CppType.scalar .string)))
  | 0 => return []
  | cnt + 1 => do
    let tmp ← (Result.empty (CppType.scalar .string)).read
    let res ← readResults cnt
    return tmp :: res

-- `discover`, from the response to the addresses in `ret`
def readResponse (response : Protocol) : Except Fault (List (List Byte)) := do
  let s ← Serializer.ofString response.content
  let (res, _) ← Op.exec (do
    let _ ← Scalar.read .string
    let cnt ← Scalar.read .uint32
    readResults cnt.toNat) s
  match discoveredAddresses (res.map fun r => (r.code, r.value)) with
  | .ok ret => return ret
  | .error u => throw (.undefined u)

private theorem reads_found (addresses : List (List Byte)) :
    Reads .big (readResults addresses.length)
      ((addresses.map RpcServiceRegistry.found).flatMap (Result.bytes (Format.scalar .string : Format .big _)))
      (addresses.map RpcServiceRegistry.found) := by
  induction addresses with
  | nil => exact Reads.nil []
  | cons address addresses ih =>
    have hfirst : Reads .big (Result.empty (CppType.scalar .string)).read
        ((RpcServiceRegistry.found address).bytes (Format.scalar .string)) (RpcServiceRegistry.found address) :=
      Result.reads_read (Result.empty _) rfl (Scalar.reads_read .string address)
    exact hfirst.bind (ih.map fun res => RpcServiceRegistry.found address :: res)

/-- A result that says that nobody has registered the service is read up to its value. -/
private theorem reads_notFound (name : List Byte) :
    ∃ front rest, (RpcServiceRegistry.notFound name).bytes (Format.scalar .string : Format .big _) = front ++ rest ∧
      Reads .big (readResults 1) front [RpcServiceRegistry.notFound name] := by
  have hfirst : Reads .big (Result.empty (CppType.scalar .string)).read _ (RpcServiceRegistry.notFound name) :=
    Result.reads_failure (show RpcState.noMethod.code ≠ RpcState.success.code by decide)
      (text "discover service: " ++ name) (Result.empty (CppType.scalar .string))
  refine ⟨_ ++ [], Scalar.bytes .big .string [], ?_, hfirst.bind (Reads.nil _)⟩
  unfold Result.bytes
  simp only [List.append_nil, List.append_assoc]
  rfl

private theorem readResponse_eq {response : Protocol} {name front rest : List Byte} {cnt : BitVec 32}
    {res : List (Result (CppType.scalar .string))}
    (hcontent : response.content = stringVint name ++ (varint cnt ++ (front ++ rest)))
    (hlen : response.content.length < Serializer.defaultBaseSize)
    (hres : Reads .big (readResults cnt.toNat) front res) :
    readResponse response = (discoveredAddresses (res.map fun r => (r.code, r.value))).mapError .undefined := by
  obtain ⟨s, hs, hholds⟩ := Serializer.ofString_spec response.content (Nat.lt_trans hlen (by decide))
  have hreads : Reads .big (do
      let _ ← Scalar.read .string
      let cnt ← Scalar.read .uint32
      readResults cnt.toNat) (stringVint name ++ (varint cnt ++ front)) res :=
    (Scalar.reads_read .string name).bind ((Scalar.reads_read .uint32 cnt).bind hres)
  have hsplit : response.content = (stringVint name ++ (varint cnt ++ front)) ++ rest := by
    rw [hcontent]
    simp only [List.append_assoc]
  have hfront : (stringVint name ++ (varint cnt ++ front)).length ≤ response.content.length := by
    rw [hsplit]
    exact (List.sublist_append_left _ rest).length_le
  have hread := hreads s rest hholds.ready (by rw [hholds.position_eq, hholds.base_eq]; omega)
    (hholds.unread_eq.trans hsplit)
  unfold readResponse
  rw [hs]
  show (Op.exec _ s >>= _ : Except Fault (List (List Byte))) = _
  rw [Op.exec_of_ok hread]
  show (match discoveredAddresses (res.map fun r => (r.code, r.value)) with
    | .ok ret => pure ret
    | .error u => throw (.undefined u) : Except Fault (List (List Byte))) = _
  cases discoveredAddresses (res.map fun r => (r.code, r.value)) with
  | ok ret => rfl
  | error u => rfl

end

end RpcConnectionPool

open RpcServiceRegistry RpcConnectionPool

/-- The addresses in an answer of less than a block are those that are registered for the service, in their order and
none just if there are none, and the answer goes to the channel of that service, as long as the number of addresses is
one of 32 bits. -/
theorem readResponse_of_discover [Host] {s : RpcServiceRegistry.Services} {proto response : Protocol}
    (h : handleDiscoverService s proto = .ok response)
    (hlen : response.content.length < Serializer.defaultBaseSize)
    (hcount : (s.services.equalRange proto.content).length < 2 ^ 32) :
    (∃ ret, readResponse response = .ok ret ∧ ret = (s.services.equalRange proto.content).map Entry.value ∧
      (ret = [] ↔ s.services.equalRange proto.content = [])) ∧
      ∀ pool : RpcConnectionPool, pool.handleServiceDiscover response =
        .ok ((pool.discoverHandle.lookup proto.content).map fun c => (c, response)) := by
  have hcontent := content_handleDiscoverService h
  refine ⟨⟨_, ?_, rfl, List.map_eq_nil_iff⟩, fun pool => handleServiceDiscover_content pool hcontent hlen⟩
  unfold discoverContent at hcontent
  by_cases hrange : s.services.equalRange proto.content = []
  · have hresults := discoverResults_of_none hrange
    obtain ⟨front, rest, hbytes, hread⟩ := reads_notFound proto.content
    rw [sentResults_eq (by rw [hresults]; exact (by decide : 1 < 2 ^ 32)), hresults, List.flatMap_singleton,
      hbytes] at hcontent
    rw [readResponse_eq hcontent hlen hread, hrange]
    rfl
  · have hresults := discoverResults_of_some hrange
    have hnat : (BitVec.ofNat 32 (s.services.equalRange proto.content).length).toNat =
        (s.services.equalRange proto.content).length := by
      rw [BitVec.toNat_ofNat, Nat.mod_eq_of_lt hcount]
    have hnumber : (discoverResults s proto.content).length = (s.services.equalRange proto.content).length := by
      rw [hresults, List.length_map, List.length_map]
    have hread := reads_found ((s.services.equalRange proto.content).map Entry.value)
    rw [sentResults_eq (by rw [hnumber]; exact hcount), hnumber, hresults] at hcontent
    rw [List.length_map, ← hnat] at hread
    rw [← List.append_nil (List.flatMap _ _)] at hcontent
    rw [readResponse_eq hcontent hlen hread]
    cases hlist : s.services.equalRange proto.content with
    | nil => exact absurd hlist hrange
    | cons e entries =>
      simp [discoveredAddresses, found, RpcState.code, pure, Except.pure, Except.mapError, Function.comp_def]

/-- A number of registrations of one address. -/
private theorem length_equalRange_register (name address : List Byte) (n : Nat) :
    (((fun s : Services => s.register name address)^[n] Services.empty).services.equalRange name).length = n := by
  induction n with
  | zero => rfl
  | succ n ih =>
    rw [Function.iterate_succ_apply']
    show ((Multimap.emplace _ name address).1.equalRange name).length = n + 1
    rw [Multimap.equalRange_emplace, if_pos rfl, List.length_append, ih]
    rfl

/-- A number that wraps around to zero makes `discover` look at the first of no results. -/
private theorem readResponse_of_wrap [Host] {s : Services} {name : List Byte}
    (hsome : s.services.equalRange name ≠ []) (hwrap : (s.services.equalRange name).length % 2 ^ 32 = 0)
    (hname : (stringVint name).length + 1 < Serializer.defaultBaseSize) :
    ∃ response, handleDiscoverService s (Protocol.create .rpcServiceDiscover name 0) = .ok response ∧
      response.content.length < Serializer.defaultBaseSize ∧
      readResponse response = .error (.undefined .nullDeref) := by
  have hnumber : BitVec.ofNat 32 (discoverResults s name).length = 0#32 := by
    rw [discoverResults_of_some hsome, List.length_map, List.length_map]
    exact BitVec.eq_of_toNat_eq (by rw [BitVec.toNat_ofNat, hwrap]; rfl)
  have hcontent : discoverContent s name = stringVint name ++ (varint 0#32 ++ ([] ++ [])) := by
    unfold discoverContent sentResults
    rw [hnumber]
    rfl
  have hlen : (discoverContent s name).length < Serializer.defaultBaseSize := by
    rw [hcontent, List.length_append]
    exact hname
  obtain ⟨response, hresponse⟩ := handleDiscoverService_ok s (Protocol.create .rpcServiceDiscover name 0) (by
    show (discoverContent s name).length + Serializer.defaultBaseSize ≤ addressSpace
    unfold Serializer.defaultBaseSize addressSpace at *
    omega)
  have hsent : response.content = discoverContent s name := content_handleDiscoverService hresponse
  refine ⟨response, hresponse, by rw [hsent]; exact hlen, ?_⟩
  rw [readResponse_eq (hsent.trans hcontent) (by rw [hsent]; exact hlen) (show Reads .big (readResults 0) [] [] from
    Reads.nil [])]
  rfl

section

attribute [local instance] Host.zeroed

/-- One address is registered for the service. -/
theorem readResponse_of_discover_one :
    ∃ response, handleDiscoverService (Services.empty.register [65#8] [66#8])
        (Protocol.create .rpcServiceDiscover [65#8] 0) = .ok response ∧
      readResponse response = .ok [[66#8]] := by
  obtain ⟨response, hresponse⟩ := handleDiscoverService_ok (Services.empty.register [65#8] [66#8])
    (Protocol.create .rpcServiceDiscover [65#8] 0) (by decide)
  have hlen : response.content.length < Serializer.defaultBaseSize := by
    rw [content_handleDiscoverService hresponse]
    decide
  obtain ⟨⟨ret, hret, hlist, -⟩, -⟩ := readResponse_of_discover hresponse hlen (by decide)
  exact ⟨response, hresponse, hret.trans (congrArg _ hlist)⟩

/-- Behind 2^32 registrations of an address the number of results is zero, and `discover` takes the first one. -/
theorem readResponse_undefined :
    ∃ response, handleDiscoverService ((fun s : Services => s.register [65#8] [66#8])^[4294967296] Services.empty)
        (Protocol.create .rpcServiceDiscover [65#8] 0) = .ok response ∧
      response.content.length < Serializer.defaultBaseSize ∧
      readResponse response = .error (.undefined .nullDeref) := by
  have hlength := length_equalRange_register [65#8] [66#8] 4294967296
  exact readResponse_of_wrap (List.ne_nil_of_length_pos (by rw [hlength]; decide)) (by rw [hlength]; decide) (by decide)

end

end AcidCompute

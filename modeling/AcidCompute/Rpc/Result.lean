import AcidCompute.Serializer.Format

/-!
# Call results of `acid/rpc/rpc.h`

A `Result` is a state, a message and a value.  All three are always written, the value is read only after a success.
-/

namespace AcidCompute

open AcidCompute.ByteArray

/-- `RpcState` -/
inductive RpcState
  | success
  | fail
  | noMatch
  | noMethod
  | closed
  | timeout
  deriving DecidableEq, Repr

def RpcState.code : RpcState → BitVec 16
  | .success => 0
  | .fail => 1
  | .noMatch => 2
  | .noMethod => 3
  | .closed => 4
  | .timeout => 5

/-- The bytes of a string literal. -/
def text (s : String) : List Byte := s.toList.map fun c => BitVec.ofNat 8 c.toNat

-- `return_type_t`: a function without a result returns an `int8_t` over the wire
def returnType : Option Ty → Ty
  | none => .scalar .int8
  | some t => t

structure Result (T : CppType) where
  code : BitVec 16
  message : List Byte
  value : T.Val

namespace Result

variable {T : CppType}

-- `Result() = default`; nothing initialises `m_value`
def empty (T : CppType) : Result T := ⟨0, [], T.uninit⟩

def succeeded (T : CppType) : Result T := { empty T with code := RpcState.success.code, message := text "success" }

def failed (T : CppType) (state : RpcState) (message : List Byte) : Result T :=
  { empty T with code := state.code, message := message }

-- `operator<<(Serializer&, Result<T>)`
def write [Host] (r : Result T) : Op ByteArray Unit := do
  Scalar.write .uint16 r.code
  Scalar.write .string r.message
  T.shiftLeft r.value

-- `operator>>(Serializer&, Result<T>&)`
def read [Host] (r : Result T) : Op ByteArray (Result T) := do
  let code ← Scalar.read .uint16
  let message ← Scalar.read .string
  if code = RpcState.success.code then
    let value ← T.shiftRight r.value
    return ⟨code, message, value⟩
  else
    return ⟨code, message, r.value⟩

variable {en : Endian}

/-- The serialized form of a result. -/
def bytes (f : Format en T) (r : Result T) : List Byte :=
  Scalar.bytes en .uint16 r.code ++ (Scalar.bytes en .string r.message ++ f.bytes r.value)

theorem writes_write [Host] (f : Format en T) (r : Result T) : Writes en r.write (r.bytes f) :=
  (Scalar.writes_write .uint16 r.code).bind
    ((Scalar.writes_write .string r.message).bind (f.writes_shiftLeft r.value))

theorem length_bytes (f : Format en T) (r : Result T) :
    (r.bytes f).length = 2 + (stringVint r.message).length + (f.bytes r.value).length := by
  have hcode : (Scalar.bytes en .uint16 r.code).length = 2 := length_memory en (n := 2) r.code
  rw [bytes, List.length_append, List.length_append, hcode]
  show 2 + ((stringVint r.message).length + _) = _
  omega

theorem bytes_ne_nil (f : Format en T) (r : Result T) : r.bytes f ≠ [] :=
  List.append_ne_nil_of_left_ne_nil (Scalar.bytes_ne_nil .uint16 r.code) _

/-- After a success the value is read as what it comes back as. -/
theorem reads_success [Host] {f : Format en T} {r : Result T} (r' : Result T) (hcode : r.code = RpcState.success.code)
    {y : T.Val} (hvalue : Reads en (T.shiftRight r'.value) (f.bytes r.value) y) :
    Reads en r'.read (r.bytes f) ⟨r.code, r.message, y⟩ := by
  refine (Scalar.reads_read .uint16 r.code).bind ((Scalar.reads_read .string r.message).bind ?_)
  rw [if_pos hcode]
  exact hvalue.map fun value => (⟨r.code, r.message, value⟩ : Result T)

/-- The result of a success is read back whole. -/
theorem reads_read [Host] {f : Format en T} {r : Result T} (r' : Result T) (hcode : r.code = RpcState.success.code)
    (hvalue : Reads en (T.shiftRight r'.value) (f.bytes r.value) r.value) :
    Reads en r'.read (r.bytes f) r := reads_success r' hcode hvalue

/-- The value of a plain type is read into a result that has just been created. -/
theorem reads_empty [Host] {t : Ty} (hplain : t.Plain = true) (x : t.sem.Val) :
    Reads en (t.sem.shiftRight (empty t.sem).value) (t.bytes en x) x := by
  show Reads en (t.sem.shiftRight t.sem.uninit) (t.bytes en x) x
  rw [t.shiftRight_uninit]
  exact t.reads_plain hplain x

/-- After a failure the reader stops in front of the value. -/
theorem reads_failure [Host] {code : BitVec 16} (hcode : code ≠ RpcState.success.code) (message : List Byte)
    (r' : Result T) :
    Reads en r'.read (Scalar.bytes en .uint16 code ++ (Scalar.bytes en .string message ++ []))
      ⟨code, message, r'.value⟩ := by
  refine (Scalar.reads_read .uint16 code).bind ((Scalar.reads_read .string message).bind ?_)
  rw [if_neg hcode]
  exact Reads.nil _

end Result

end AcidCompute

import AcidCompute.Base.Collection
import AcidCompute.ByteArray.Codec

/-!
# The serializer of `acid/rpc/serializer.h`

A `Serializer` is a byte array with typed operators.  What its overloads and `if constexpr` chains do for a C++ type is
kept in a `CppType`: the scalar `read` and `write`, which do nothing for a type they do not list, and the operators
`>>` and `<<`.  Each type former is one function on `CppType`s, so that overload resolution is visible in which of the
four operations of an element a container calls.  `std::vector<bool>` has no element to bind a reference to, so that
its `<<` does not compile; it is not treated apart here.
-/

namespace AcidCompute

open AcidCompute.ByteArray

/-- What `Serializer` does for a C++ type. -/
structure CppType where
  Val : Type
  /-- the value of `T{}` -/
  fresh : Val
  /-- the value of `T t;`, which is indeterminate for an arithmetic type -/
  uninit : Val
  /-- `operator<=>` -/
  order : Comparison Val
  /-- equality of values, for hash containers up to the order of their elements -/
  Same : Val → Val → Prop
  /-- `read(T& t)` -/
  read : Val → Op ByteArray Val
  /-- `write(T t)` -/
  write : Val → Op ByteArray Unit
  /-- `operator>>`, which returns the new value of its argument -/
  shiftRight : Val → Op ByteArray Val
  /-- `operator<<` on a `const` argument -/
  shiftLeft : Val → Op ByteArray Unit

/-! ### Scalars and strings -/

/-- The types in the `if constexpr` chains of `read` and `write`. -/
inductive Scalar
  | bool
  | int8
  | uint8
  | int16
  | uint16
  | int32
  | uint32
  | int64
  | uint64
  | float
  | double
  | string
  deriving DecidableEq, Repr

/-- The position of a float among the numbers, from the bits of its exponent and fraction; a NaN has none. -/
def floatKey (infinity : Nat) {w : Nat} (bits : BitVec w) : Option Int :=
  let magnitude := bits.toNat % 2 ^ (w - 1)
  if infinity < magnitude then none
  else some (if bits.msb then - (magnitude : Int) else magnitude)

namespace Scalar

/-- Floats are kept as their bit patterns. -/
@[reducible] def Val : Scalar → Type
  | bool => Bool
  | int8 | uint8 => BitVec 8
  | int16 | uint16 => BitVec 16
  | int32 | uint32 | float => BitVec 32
  | int64 | uint64 | double => BitVec 64
  | string => List Byte

def zero : (s : Scalar) → s.Val
  | bool => false
  | int8 | uint8 => 0#8
  | int16 | uint16 => 0#16
  | int32 | uint32 | float => 0#32
  | int64 | uint64 | double => 0#64
  | string => []

def uninit [Host] : (s : Scalar) → s.Val
  | bool => decide (Host.storage 8 ≠ 0)
  | int8 | uint8 => Host.storage 8
  | int16 | uint16 => Host.storage 16
  | int32 | uint32 | float => Host.storage 32
  | int64 | uint64 | double => Host.storage 64
  | string => []

def order : (s : Scalar) → Comparison s.Val
  | bool => .ofKey fun b => some b.toInt
  | int8 | int16 | int32 | int64 => .ofKey fun v => some v.toInt
  | uint8 | uint16 | uint32 | uint64 => .ofKey fun v => some v.toNat
  | float => .ofKey (floatKey 0x7f800000)
  | double => .ofKey (floatKey 0x7ff0000000000000)
  | string => (Comparison.ofKey fun c => some (c.toNat : Int)).list

/-- `Serializer::read`, the branches of the `if constexpr` chain. -/
def read [Host] : (s : Scalar) → Op ByteArray s.Val
  | bool => do
    let v ← readFixInt8
    return decide (v ≠ 0)
  | float => readFloat
  | double => readDouble
  | int8 => readFixInt8
  | uint8 => readFixInt8
  | int16 => readFixInt 2
  | uint16 => readFixInt 2
  | int32 => readVarInt 32
  | uint32 => readVarUint 32
  | int64 => readVarInt 64
  | uint64 => readVarUint 64
  | string => readStringVint

/-- `Serializer::write`, the branches of the `if constexpr` chain. -/
def write [Host] : (s : Scalar) → s.Val → Op ByteArray Unit
  | bool, t => writeFixInt8 (if t then 1 else 0)
  | float, t => writeFloat t
  | double, t => writeDouble t
  | int8, t => writeFixInt8 t
  | uint8, t => writeFixInt8 t
  | int16, t => writeFixInt (n := 2) t
  | uint16, t => writeFixInt (n := 2) t
  | int32, t => writeVarInt t
  | uint32, t => writeVarUint t
  | int64, t => writeVarInt t
  | uint64, t => writeVarUint t
  | string, t => writeStringVint t

end Scalar

namespace CppType

/-- A type of the chains; `>>` and `<<` are the templates `operator>>(T&)` and `operator<<(const T&)`. -/
def scalar [Host] (s : Scalar) : CppType where
  Val := s.Val
  fresh := s.zero
  uninit := s.uninit
  order := s.order
  Same v w := v = w
  read _ := s.read
  write t := s.write t
  shiftRight _ := s.read
  shiftLeft t := s.write t

/-! ### Pairs and tuples -/

/-- `std::pair<K, V>`.  The overload `operator<<(std::pair<K, V>&)` does not take a `const` pair, so that one is
written by `operator<<(const T&)`, and `write` does not list pairs. -/
def pair (K V : CppType) : CppType where
  Val := K.Val × V.Val
  fresh := (K.fresh, V.fresh)
  uninit := (K.fresh, V.fresh)
  order := K.order.pair V.order
  Same v w := K.Same v.1 w.1 ∧ V.Same v.2 w.2
  read t := return t
  write _ := return ()
  shiftRight t := do
    let first ← K.shiftRight t.1
    let second ← V.shiftRight t.2
    return (first, second)
  shiftLeft _ := return ()

/-- `std::tuple<>` -/
def tupleNil : CppType where
  Val := Unit
  fresh := ()
  uninit := ()
  order := .unit
  Same _ _ := True
  read t := return t
  write _ := return ()
  shiftRight t := return t
  shiftLeft _ := return ()

/-- `std::tuple<T, Args...>`, for `Args` the tuple of the other components: the fold expressions go through the
components from the first one on. -/
def tupleCons (T Args : CppType) : CppType where
  Val := T.Val × Args.Val
  fresh := (T.fresh, Args.fresh)
  uninit := (T.fresh, Args.fresh)
  order := T.order.pair Args.order
  Same v w := T.Same v.1 w.1 ∧ Args.Same v.2 w.2
  read t := return t
  write _ := return ()
  shiftRight t := do
    let first ← T.shiftRight t.1
    let others ← Args.shiftRight t.2
    return (first, others)
  shiftLeft t := do
    T.shiftLeft t.1
    Args.shiftLeft t.2

/-! ### Containers -/

/-- The loop of a container's `>>`: read `size` elements and emplace them. -/
def readItems {σ α : Type} {d : Discipline} {C : Comparison α} (item : Op σ α) :
    Nat → Collection d C → Op σ (Collection d C)
  | 0, t => return t
  | size + 1, t => do
    let tmp ← item
    match t.emplace tmp with
    | some t' => readItems item size t'
    | none => throw (.throws .lengthError)

/-- The loop of a container's `<<`. -/
def writeItems {α : Type} (put : α → Op ByteArray Unit) : List α → Op ByteArray Unit
  | [] => return ()
  | i :: rest => do
    put i
    writeItems put rest

/-- The order of the containers themselves; hash containers have none. -/
def collectionOrder {α : Type} {C : Comparison α} : (d : Discipline) → Comparison (Collection d C)
  | .unordered | .unorderedMulti => .never
  | .sequence | .ordered | .orderedMulti => C.list.on Collection.items

/-- The containers have one `>>` and one `<<` each, which differ in how an element is read, emplaced and written. -/
def container [Host] {α : Type} (d : Discipline) (C : Comparison α) (Same : α → α → Prop) (item : Op ByteArray α)
    (put : α → Op ByteArray Unit) : CppType where
  Val := Collection d C
  fresh := .empty
  uninit := .empty
  order := collectionOrder d
  Same t t' :=
    match d with
    | .unordered | .unorderedMulti => t.items.Perm t'.items
    | _ => List.Forall₂ Same t.items t'.items
  read t := return t
  write _ := return ()
  shiftRight t := do
    let size ← Scalar.read .uint64
    readItems item size.toNat t
  shiftLeft t := do
    Scalar.write .uint64 (BitVec.ofNat 64 t.items.length)
    writeItems put t.items

/-- `std::list<T>` -/
def list [Host] (T : CppType) : CppType := container .sequence T.order T.Same (T.read T.fresh) T.shiftLeft

/-- `std::vector<T>` -/
def vector [Host] (T : CppType) : CppType := container .sequence T.order T.Same (T.read T.fresh) T.shiftLeft

/-- `std::set<T>` -/
def set [Host] (T : CppType) : CppType := container .ordered T.order T.Same (T.read T.fresh) T.shiftLeft

/-- `std::unordered_set<T>`, whose `<<` calls `write` for the elements. -/
def unorderedSet [Host] (T : CppType) : CppType := container .unordered T.order T.Same (T.read T.fresh) T.write

/-- `std::multiset<T>`, whose `<<` calls `write` for the elements. -/
def multiset [Host] (T : CppType) : CppType := container .orderedMulti T.order T.Same (T.read T.fresh) T.write

/-- `std::unordered_multiset<T>`, whose `<<` calls `write` for the elements. -/
def unorderedMultiset [Host] (T : CppType) : CppType :=
  container .unorderedMulti T.order T.Same (T.read T.fresh) T.write

/-- The maps, whose elements are compared by their keys and read and written as pairs. -/
def assoc [Host] (d : Discipline) (K V : CppType) : CppType :=
  container d (K.order.on (α := K.Val × V.Val) Prod.fst) (pair K V).Same ((pair K V).shiftRight (pair K V).fresh)
    (pair K V).shiftLeft

/-- `std::map<K, V>` -/
def map [Host] (K V : CppType) : CppType := assoc .ordered K V

/-- `std::unordered_map<K, V>` -/
def unorderedMap [Host] (K V : CppType) : CppType := assoc .unordered K V

/-- `std::multimap<K, V>` -/
def multimap [Host] (K V : CppType) : CppType := assoc .orderedMulti K V

/-- `std::unordered_multimap<K, V>` -/
def unorderedMultimap [Host] (K V : CppType) : CppType := assoc .unorderedMulti K V

end CppType

/-! ### The types with serializer operators -/

inductive SeqKind
  | list
  | vector
  | set
  | unorderedSet
  | multiset
  | unorderedMultiset
  deriving DecidableEq, Repr

inductive AssocKind
  | map
  | unorderedMap
  | multimap
  | unorderedMultimap
  deriving DecidableEq, Repr

mutual

/-- The types that `Serializer` documents as supported. -/
inductive Ty
  | scalar (s : Scalar)
  | seq (k : SeqKind) (e : Ty)
  | assoc (k : AssocKind) (key value : Ty)
  | pair (first second : Ty)
  | tuple (args : Tys)

/-- The component types of a tuple. -/
inductive Tys
  | nil
  | cons (t : Ty) (args : Tys)

end

def SeqKind.sem [Host] : SeqKind → CppType → CppType
  | .list => .list
  | .vector => .vector
  | .set => .set
  | .unorderedSet => .unorderedSet
  | .multiset => .multiset
  | .unorderedMultiset => .unorderedMultiset

def AssocKind.sem [Host] : AssocKind → CppType → CppType → CppType
  | .map => .map
  | .unorderedMap => .unorderedMap
  | .multimap => .multimap
  | .unorderedMultimap => .unorderedMultimap

mutual

def Ty.sem [Host] : Ty → CppType
  | .scalar s => .scalar s
  | .seq k e => k.sem e.sem
  | .assoc k key value => k.sem key.sem value.sem
  | .pair first second => .pair first.sem second.sem
  | .tuple args => args.sem

/-- The tuple of the given component types. -/
def Tys.sem [Host] : Tys → CppType
  | .nil => .tupleNil
  | .cons t args => .tupleCons t.sem args.sem

end

/-- Where `T t;` is not `T{}`, `>>` does not look at what `t` holds. -/
theorem Ty.shiftRight_uninit [Host] (t : Ty) : t.sem.shiftRight t.sem.uninit = t.sem.shiftRight t.sem.fresh := by
  cases t with
  | scalar s => rfl
  | seq k e => cases k <;> rfl
  | assoc k key value => cases k <;> rfl
  | pair first second => rfl
  | tuple args => cases args <;> rfl

/-! ### The object itself -/

namespace Serializer

/-- The default base size of a byte array. -/
def defaultBaseSize : Nat := 4096

/-- The byte array of `Serializer()`. -/
def new [Host] : Except Fault ByteArray := ByteArray.new defaultBaseSize .big

/-- `reset` -/
def reset : Op ByteArray Unit := setPosition 0

/-- A `size_t` passed as an `int` parameter and turned back into a `size_t`. -/
def asInt (n : Nat) : Nat := ((BitVec.ofNat 32 n).signExtend 64).toNat

/-- `write_raw_data(in.c_str(), in.size())`, whose length parameter is an `int`. -/
def writeRawData [Host] (input : List Byte) : Op ByteArray Unit := ByteArray.write input (asInt input.length)

/-- `Serializer(const std::string& in)` -/
def ofString [Host] (input : List Byte) : Except Fault ByteArray := do
  let b ← new
  let (_, b) ← Op.exec (do writeRawData input; reset) b
  return b

-- `Serializer s(content); std::string key; s >> key;`, with which the handlers of messages start
def readKey [Host] (content : List Byte) : Except Fault (List Byte × ByteArray) := do
  let s ← ofString content
  Op.exec (Scalar.read .string) s

end Serializer

end AcidCompute

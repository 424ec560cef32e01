import AcidCompute.Base.Outcome
import AcidCompute.Base.Varint
import AcidCompute.Base.FlatArray
import AcidCompute.Base.Blocks

/-!
# The byte array of `acid/common/byte_array.{h,cpp}`

A `ByteArray` is a singly linked list of blocks of `base_size` bytes with one position and a cached pointer to the
block the position lies in.  The list is kept here as a list of blocks and a pointer into it as an index, `none`
being the null pointer.  Following a null pointer and touching bytes outside a block are undefined behaviour.

What the machine contributes is in `Host`: its byte order, and what `new char[n]` leaves in the storage it returns.
A process has at most `addressSpace` bytes, so an array that would grow past it gets `std::bad_alloc`; smaller
allocations are taken to succeed.
-/

namespace AcidCompute

/-- The machine the code runs on. -/
class Host where
  /-- `std::endian::native` -/
  native : Endian
  /-- the byte that fresh storage holds at an index of the array -/
  heap : Nat → Byte
  /-- the bits that an arithmetic object of a width holds before it is given a value -/
  storage : (n : Nat) → BitVec n

/-- A machine with little-endian numbers whose fresh storage is zero. -/
@[reducible] def Host.zeroed : Host := ⟨.little, fun _ => 0, fun _ => 0⟩

/-- The most bytes that a process of a 64-bit machine has (the user half of 57-bit addresses). -/
def addressSpace : Nat := 2 ^ 56

/-- `std::string::max_size()`. -/
def stringMaxSize : Nat := 2 ^ 62 - 1

/-- Subtraction of two `size_t`. -/
def sizeSub (a b : Nat) : Nat := (a + 2 ^ 64 - b) % 2 ^ 64

theorem sizeSub_of_le {a b : Nat} (h : b ≤ a) (ha : a < 2 ^ 64) : sizeSub a b = a - b := by
  unfold sizeSub; omega

theorem sizeSub_of_lt {a b : Nat} (h : a < b) (hb : b ≤ 2 ^ 64) : sizeSub a b = 2 ^ 64 - (b - a) := by
  unfold sizeSub; omega

/-- A storage block (`ByteArray::Node`); its `size` is the length. -/
abbrev Node := List Byte

namespace Node

/-- `memcpy` from a block: the bytes must lie inside it. -/
def load (node : Node) (offset length : Nat) : Except Undefined (List Byte) :=
  if offset + length ≤ node.length then .ok ((node.drop offset).take length) else .error .outOfBlock

/-- `memcpy` into a block: the bytes must lie inside it. -/
def store (node : Node) (offset : Nat) (bytes : List Byte) : Except Undefined Node :=
  if offset + bytes.length ≤ node.length then .ok (overwrite node offset bytes) else .error .outOfBlock

/-- The size of the first of `nodes`. -/
def headSize : List Node → Nat
  | [] => 0
  | node :: _ => node.length

end Node

structure ByteArray where
  baseSize : Nat
  position : Nat
  capacity : Nat
  size : Nat
  endian : Endian
  /-- the blocks from `m_root` on -/
  nodes : List Node
  /-- `m_cur` -/
  cur : Option Nat
  deriving DecidableEq

/-- A buffer for scattered input and output: `length` bytes from `offset` on of block `node`. -/
structure Iovec where
  node : Nat
  offset : Nat
  length : Nat
  deriving DecidableEq, Repr

namespace ByteArray

/-! ### Construction and growth -/

/-- `count` blocks as `new Node(base_size)` returns them, behind `start` bytes of storage. -/
def freshNodes [Host] (baseSize start : Nat) : Nat → List Node
  | 0 => []
  | count + 1 =>
    (List.range baseSize).map (fun i => Host.heap (start + i)) :: freshNodes baseSize (start + baseSize) count

/-- `ByteArray(base_size, en)` -/
def new [Host] (baseSize : Nat) (en : Endian) : Except Fault ByteArray :=
  if addressSpace < baseSize then .error (.throws .badAlloc)
  else .ok {
    baseSize := baseSize, position := 0, capacity := baseSize, size := 0, endian := en,
    nodes := freshNodes baseSize 0 1, cur := some 0 }

/-- The address of the `k`-th block, null behind the last one. -/
def nodeAt (b : ByteArray) (k : Nat) : Option Nat := if k < b.nodes.length then some k else none

def getReadSize (b : ByteArray) : Nat := b.size - b.position

def getCapacity (b : ByteArray) : Nat := b.capacity - b.position

/-- `add_capacity`: it grows by whole blocks unless strictly more than `size` bytes are free.  The rounding up does
not wrap for a size that a buffer can have. -/
def addCapacity [Host] (size : Nat) : Op ByteArray Unit := fun b =>
  if size = 0 then .ok () b
  else if size < b.getCapacity then .ok () b
  else
    let count := (size - b.getCapacity + b.baseSize - 1) / b.baseSize
    if addressSpace < b.capacity + count * b.baseSize then .error (.throws .badAlloc) b
    else
      let nodes := b.nodes ++ freshNodes b.baseSize b.capacity count
      let first := if count = 0 then none else some b.nodes.length
      .ok () { b with
        nodes := nodes, capacity := b.capacity + count * b.baseSize,
        cur := if b.getCapacity = 0 then first else b.cur }

/-- Follow a pointer to a block. -/
def deref (p : Option Nat) : Op ByteArray Nat :=
  match p with
  | some k => pure k
  | none => throw (.undefined .nullDeref)

/-! ### Writing -/

/-- The loop of `write` over the blocks from the current one (number `k`) on: the changed blocks, and the number of
the block that is current afterwards. -/
def writeLoop : Nat → List Node → Nat → Nat → List Byte → Except Undefined (List Node × Nat)
  | _, [], _, _, _ => .error .nullDeref
  | k, node :: rest, npos, ncap, bytes =>
    if bytes.length ≤ ncap then do
      let node' ← node.store npos bytes
      return (node' :: rest, if ncap = bytes.length then k + 1 else k)
    else do
      let node' ← node.store npos (bytes.take ncap)
      let (rest', k') ← writeLoop (k + 1) rest 0 (Node.headSize rest) (bytes.drop ncap)
      return (node' :: rest', k')

/-- `write(buffer, size)` -/
def write [Host] (buffer : List Byte) (size : Nat) : Op ByteArray Unit := do
  if size = 0 then return ()
  addCapacity size
  let b ← get
  let k ← deref b.cur
  if buffer.length < size then throw (.undefined .outOfBlock)
  let npos := b.position % b.baseSize
  let ncap := Node.headSize (b.nodes.drop k) - npos
  let (nodes, next) ← Op.liftUndefined (writeLoop k (b.nodes.drop k) npos ncap (buffer.take size))
  set { b with
    nodes := b.nodes.take k ++ nodes, cur := b.nodeAt next, position := b.position + size,
    size := max b.size (b.position + size) }

/-! ### Reading -/

/-- The loop of both `read`s over the blocks from the current one (number `k`) on: the bytes copied out, and the number
of the block that is current afterwards. -/
def readLoop : Nat → List Node → Nat → Nat → Nat → Except Undefined (List Byte × Nat)
  | k, _, _, _, 0 => .ok ([], k)
  | _, [], _, _, _ + 1 => .error .nullDeref
  | k, node :: rest, npos, ncap, size + 1 =>
    if size + 1 ≤ ncap then do
      let bytes ← node.load npos (size + 1)
      return (bytes, if ncap = size + 1 then k + 1 else k)
    else do
      let bytes ← node.load npos ncap
      let (bytes', k') ← readLoop (k + 1) rest 0 (Node.headSize rest) (size + 1 - ncap)
      return (bytes ++ bytes', k')

/-- `read(buffer, size)`.  The capacity left in the current block is `m_cur->size - m_position`: the position is not
reduced to the block, and the difference wraps around behind the first block. -/
def read (size : Nat) : Op ByteArray (List Byte) := do
  let b ← get
  if b.getReadSize < size then throw (.throws .outOfRange)
  let k ← deref b.cur
  let npos := b.position % b.baseSize
  let ncap := sizeSub (Node.headSize (b.nodes.drop k)) b.position
  let (bytes, next) ← Op.liftUndefined (readLoop k (b.nodes.drop k) npos ncap size)
  set { b with position := b.position + size, cur := b.nodeAt next }
  return bytes

/-- `read(buffer, size, position) const`, which starts at the current block whatever the position is. -/
def readAt (size position : Nat) : Op ByteArray (List Byte) := do
  let b ← get
  if sizeSub b.size position < size then throw (.throws .outOfRange)
  let k ← deref b.cur
  let npos := position % b.baseSize
  let ncap := Node.headSize (b.nodes.drop k) - npos
  let (bytes, _) ← Op.liftUndefined (readLoop k (b.nodes.drop k) npos ncap size)
  return bytes

/-- `to_string`: the bytes between the position and the size. -/
def toString : Op ByteArray (List Byte) := do
  let b ← get
  if b.getReadSize = 0 then return []
  readAt b.getReadSize b.position

/-! ### The position -/

/-- The walk of `set_position` from block `k` on: the number of the block that holds offset `pos`. -/
def seekLoop : Nat → List Node → Nat → Except Undefined Nat
  | _, [], _ => .error .nullDeref
  | k, node :: rest, pos =>
    if node.length < pos then seekLoop (k + 1) rest (pos - node.length)
    else .ok (if pos = node.length then k + 1 else k)

def setPosition (pos : Nat) : Op ByteArray Unit := do
  let b ← get
  if b.capacity < pos then throw (.throws .outOfRange)
  let k ← Op.liftUndefined (seekLoop 0 b.nodes pos)
  set { b with position := pos, size := max b.size pos, cur := b.nodeAt k }

/-- `clear`: only the root block is kept. -/
def clear : Op ByteArray Unit := do
  let b ← get
  set { b with position := 0, size := 0, capacity := b.baseSize, nodes := b.nodes.take 1, cur := b.nodeAt 0 }

/-! ### Buffers for scattered input and output -/

/-- The loop of `get_read_buffers` and `get_write_buffers`.  The buffer of the block in which the range ends is filled
in and then left behind by the `break` before `push_back`. -/
def iovecLoop : Nat → List Node → Nat → Nat → Nat → Except Undefined (List Iovec)
  | _, _, _, _, 0 => .ok []
  | _, [], _, _, _ + 1 => .error .nullDeref
  | k, _ :: rest, npos, ncap, len + 1 =>
    if len + 1 ≤ ncap then .ok []
    else do
      let iovs ← iovecLoop (k + 1) rest 0 (Node.headSize rest) (len + 1 - ncap)
      return { node := k, offset := npos, length := ncap } :: iovs

/-- `get_read_buffers(buffers, len)`: the buffers and the length announced. -/
def getReadBuffers (len : Nat) : Op ByteArray (List Iovec × Nat) := do
  let b ← get
  let len := min len b.getReadSize
  if len = 0 then return ([], 0)
  let k ← deref b.cur
  let npos := b.position % b.baseSize
  let ncap := Node.headSize (b.nodes.drop k) - npos
  let iovs ← Op.liftUndefined (iovecLoop k (b.nodes.drop k) npos ncap len)
  return (iovs, len)

/-- Follow `next` from a pointer, `count` times. -/
def follow : Nat → Option Nat → Op ByteArray (Option Nat)
  | 0, p => return p
  | count + 1, p => do
    let k ← deref p
    let b ← get
    follow count (b.nodeAt (k + 1))

/-- `get_read_buffers(buffers, len, position)`, which bounds the length by what is left behind the cursor, and counts
the blocks up to the position from the current one. -/
def getReadBuffersAt (len position : Nat) : Op ByteArray (List Iovec × Nat) := do
  let b ← get
  let len := min len b.getReadSize
  if len = 0 then return ([], 0)
  let npos := position % b.baseSize
  let cur ← follow (position / b.baseSize) b.cur
  let k ← deref cur
  let ncap := Node.headSize (b.nodes.drop k) - npos
  let iovs ← Op.liftUndefined (iovecLoop k (b.nodes.drop k) npos ncap len)
  return (iovs, len)

/-- `get_write_buffers(buffers, len)`: the buffers and the length announced. -/
def getWriteBuffers [Host] (len : Nat) : Op ByteArray (List Iovec × Nat) := do
  if len = 0 then return ([], 0)
  addCapacity len
  let b ← get
  let k ← deref b.cur
  let npos := b.position % b.baseSize
  let ncap := Node.headSize (b.nodes.drop k) - npos
  let iovs ← Op.liftUndefined (iovecLoop k (b.nodes.drop k) npos ncap len)
  return (iovs, len)

end ByteArray

end AcidCompute

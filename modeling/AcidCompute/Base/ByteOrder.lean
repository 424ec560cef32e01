import Mathlib.Data.List.Basic
import Mathlib.Tactic.Ring

/-!
# Numbers in memory

The bytes of an unsigned number of `n` bytes, lowest first (`leBytes`), and back (`ofLe`).  A host stores a number
in its own order (`memory`), and `byteSwap` turns a number into the one whose bytes lie in the opposite order.  The
key fact is `memory_byteSwap`: swapping the value and storing it in the host's order stores the original value in
the other order.
-/

namespace AcidCompute

/-- A byte of storage. -/
abbrev Byte := BitVec 8

/-- The order in which the bytes of a number lie in memory. -/
inductive Endian
  | little
  | big
  deriving DecidableEq, Repr

/-- The lowest `n` bytes of `v`, lowest first. -/
def leBytes : Nat → Nat → List Byte
  | 0, _ => []
  | n + 1, v => BitVec.ofNat 8 v :: leBytes n (v / 256)

/-- The number whose bytes are `bs`, lowest first. -/
def ofLe : List Byte → Nat
  | [] => 0
  | b :: bs => b.toNat + 256 * ofLe bs

@[simp] theorem length_leBytes (n v : Nat) : (leBytes n v).length = n := by
  induction n generalizing v with
  | zero => rfl
  | succ n ih => simp [leBytes, ih]

theorem ofLe_lt (bs : List Byte) : ofLe bs < 256 ^ bs.length := by
  induction bs with
  | nil => simp [ofLe]
  | cons b bs ih =>
    have hb : b.toNat < 256 := b.isLt
    simp only [ofLe, List.length_cons, Nat.pow_succ]
    omega

theorem ofLe_leBytes {n v : Nat} (h : v < 256 ^ n) : ofLe (leBytes n v) = v := by
  induction n generalizing v with
  | zero => simp at h; simp [leBytes, ofLe, h]
  | succ n ih =>
    have hdiv : v / 256 < 256 ^ n := by
      rw [Nat.pow_succ] at h
      exact Nat.div_lt_of_lt_mul (by rwa [Nat.mul_comm] at h)
    simp only [leBytes, ofLe, ih hdiv, BitVec.toNat_ofNat]
    omega

theorem leBytes_ofLe (bs : List Byte) : leBytes bs.length (ofLe bs) = bs := by
  induction bs with
  | nil => rfl
  | cons b bs ih =>
    have hb : b.toNat < 256 := b.isLt
    have hdiv : (b.toNat + 256 * ofLe bs) / 256 = ofLe bs := by omega
    have hlow : BitVec.ofNat 8 (b.toNat + 256 * ofLe bs) = b := by
      apply BitVec.eq_of_toNat_eq
      rw [BitVec.toNat_ofNat]
      omega
    simp only [List.length_cons, leBytes, ofLe, hdiv, hlow, ih]

private theorem two_pow_eight_mul (n : Nat) : 2 ^ (8 * n) = 256 ^ n := by
  rw [Nat.pow_mul]

/-- The bytes of `v` as they lie in memory in the given order. -/
def memory (e : Endian) {n : Nat} (v : BitVec (8 * n)) : List Byte :=
  match e with
  | .little => leBytes n v.toNat
  | .big => (leBytes n v.toNat).reverse

/-- The number that the bytes `bs` of memory stand for. -/
def ofMemory (e : Endian) (n : Nat) (bs : List Byte) : BitVec (8 * n) :=
  match e with
  | .little => BitVec.ofNat (8 * n) (ofLe bs)
  | .big => BitVec.ofNat (8 * n) (ofLe bs.reverse)

/-- The number with its bytes in the opposite order. -/
def byteSwap {n : Nat} (v : BitVec (8 * n)) : BitVec (8 * n) :=
  BitVec.ofNat (8 * n) (ofLe (leBytes n v.toNat).reverse)

@[simp] theorem length_memory (e : Endian) {n : Nat} (v : BitVec (8 * n)) : (memory e v).length = n := by
  cases e <;> simp [memory]

@[simp] theorem ofMemory_memory (e : Endian) {n : Nat} (v : BitVec (8 * n)) :
    ofMemory e n (memory e v) = v := by
  have h : ofLe (leBytes n v.toNat) = v.toNat :=
    ofLe_leBytes (by rw [← two_pow_eight_mul]; exact v.isLt)
  cases e <;> simp [ofMemory, memory, h]

/-- Any bytes are those of the number that they stand for. -/
theorem memory_ofMemory (e : Endian) {n : Nat} {bs : List Byte} (h : bs.length = n) :
    memory e (ofMemory e n bs) = bs := by
  subst h
  have hvalue : ∀ cs : List Byte, cs.length = bs.length →
      leBytes bs.length (BitVec.ofNat (8 * bs.length) (ofLe cs)).toNat = cs := by
    intro cs hcs
    have hlt := ofLe_lt cs
    rw [hcs, ← two_pow_eight_mul] at hlt
    rw [BitVec.toNat_ofNat, Nat.mod_eq_of_lt hlt, ← hcs]
    exact leBytes_ofLe cs
  cases e with
  | little => exact hvalue bs rfl
  | big =>
    show (leBytes bs.length (BitVec.ofNat (8 * bs.length) (ofLe bs.reverse)).toNat).reverse = bs
    rw [hvalue bs.reverse List.length_reverse, List.reverse_reverse]

private theorem leBytes_byteSwap {n : Nat} (v : BitVec (8 * n)) :
    leBytes n (byteSwap v).toNat = (leBytes n v.toNat).reverse := by
  have hlen : (leBytes n v.toNat).reverse.length = n := by simp
  have hlt := ofLe_lt (leBytes n v.toNat).reverse
  rw [hlen, ← two_pow_eight_mul] at hlt
  rw [byteSwap, BitVec.toNat_ofNat, Nat.mod_eq_of_lt hlt]
  conv => lhs; arg 1; rw [← hlen]
  exact leBytes_ofLe _

/-- Swapping the bytes of a number and storing it is storing it in the opposite order. -/
theorem memory_byteSwap {e e' : Endian} (h : e ≠ e') {n : Nat} (v : BitVec (8 * n)) :
    memory e (byteSwap v) = memory e' v := by
  cases e <;> cases e' <;> simp_all [memory, leBytes_byteSwap]

/-- Reading a number stored in the opposite order and swapping its bytes gives it back. -/
theorem byteSwap_ofMemory {e e' : Endian} (h : e ≠ e') {n : Nat} (v : BitVec (8 * n)) :
    byteSwap (ofMemory e n (memory e' v)) = v := by
  have hv : memory e' (byteSwap (ofMemory e n (memory e' v))) = memory e' v := by
    rw [memory_byteSwap h.symm, ← memory_byteSwap h, ofMemory_memory]
  rw [← ofMemory_memory e' (byteSwap _), hv, ofMemory_memory]

/-! ### Operations on each byte -/

theorem byteSwap_byteSwap {n : Nat} (v : BitVec (8 * n)) : byteSwap (byteSwap v) = v := by
  have hmemory : memory .little (byteSwap (byteSwap v)) = memory .little v := by
    rw [memory_byteSwap (show Endian.little ≠ .big by decide), memory_byteSwap (show Endian.big ≠ .little by decide)]
  rw [← ofMemory_memory .little (byteSwap (byteSwap v)), hmemory, ofMemory_memory]

/-- An operation on numbers that is one on each byte. -/
private theorem leBytes_bytewise {f : Nat → Nat → Nat} {g : Byte → Byte → Byte}
    (hlow : ∀ a b, BitVec.ofNat 8 (f a b) = g (BitVec.ofNat 8 a) (BitVec.ofNat 8 b))
    (hdiv : ∀ a b, f a b / 256 = f (a / 256) (b / 256)) (n a b : Nat) :
    leBytes n (f a b) = List.zipWith g (leBytes n a) (leBytes n b) := by
  induction n generalizing a b with
  | zero => rfl
  | succ n ih => rw [leBytes, leBytes, leBytes, List.zipWith_cons_cons, hlow, hdiv, ih]

private theorem byteSwap_bytewise {f : Nat → Nat → Nat} {g : Byte → Byte → Byte}
    (hlow : ∀ a b, BitVec.ofNat 8 (f a b) = g (BitVec.ofNat 8 a) (BitVec.ofNat 8 b))
    (hdiv : ∀ a b, f a b / 256 = f (a / 256) (b / 256)) {n : Nat}
    {op : BitVec (8 * n) → BitVec (8 * n) → BitVec (8 * n)} (hop : ∀ x y, (op x y).toNat = f x.toNat y.toNat)
    (x y : BitVec (8 * n)) : byteSwap (op x y) = op (byteSwap x) (byteSwap y) := by
  have hmemory : memory .little (byteSwap (op x y)) = memory .little (op (byteSwap x) (byteSwap y)) := by
    simp only [memory, leBytes_byteSwap, hop, leBytes_bytewise hlow hdiv]
    rw [List.reverse_zipWith (by simp)]
  rw [← ofMemory_memory .little (byteSwap (op x y)), hmemory, ofMemory_memory]

theorem byteSwap_and {n : Nat} (x y : BitVec (8 * n)) : byteSwap (x &&& y) = byteSwap x &&& byteSwap y :=
  byteSwap_bytewise (fun _ _ => BitVec.ofNat_and) (fun _ _ => Nat.and_div_two_pow (n := 8)) (fun _ _ => rfl) x y

theorem byteSwap_or {n : Nat} (x y : BitVec (8 * n)) : byteSwap (x ||| y) = byteSwap x ||| byteSwap y :=
  byteSwap_bytewise (fun _ _ => BitVec.ofNat_or) (fun _ _ => Nat.or_div_two_pow (n := 8)) (fun _ _ => rfl) x y

end AcidCompute

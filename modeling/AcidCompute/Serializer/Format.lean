import AcidCompute.Serializer.Basic

/-!
# The serialized form

What `<<` writes for a value of any supported type (`Ty.format`), and for which types `>>` takes it back
(`Ty.Plain`, `Ty.reads_plain`): scalars and strings, containers of these, and tuples nested to any depth.
-/

namespace AcidCompute

open AcidCompute.ByteArray

variable {en : Endian}

/-- What the two writers of a type write to an array with byte order `en`. -/
structure Format (en : Endian) (T : CppType) where
  /-- by `<<` -/
  bytes : T.Val → List Byte
  /-- by `write` -/
  written : T.Val → List Byte
  writes_shiftLeft : ∀ x : T.Val, Writes en (T.shiftLeft x) (bytes x)
  writes_write : ∀ x : T.Val, Writes en (T.write x) (written x)

/-! ### Scalars and strings -/

namespace Scalar

/-- The serialized form of a scalar or a string. -/
def bytes (en : Endian) : (s : Scalar) → s.Val → List Byte
  | bool, t => [if t then 1 else 0]
  | int8, t | uint8, t => [t]
  | int16, t | uint16, t => memory en (n := 2) t
  | float, t => memory en (n := 4) t
  | double, t => memory en (n := 8) t
  | int32, t | int64, t => varint (encodeZigzag t)
  | uint32, t | uint64, t => varint t
  | string, t => stringVint t

theorem writes_write [Host] (s : Scalar) (t : s.Val) : Writes en (s.write t) (s.bytes en t) := by
  cases s with
  | bool => exact writes_fixInt8 _
  | int8 | uint8 => exact writes_fixInt8 t
  | int16 | uint16 => exact writes_fixInt (n := 2) t
  | float => exact writes_fixInt (n := 4) t
  | double => exact writes_fixInt (n := 8) t
  | int32 | int64 => exact writes_varInt t
  | uint32 | uint64 => exact writes_varUint t
  | string => exact writes_stringVint t

theorem reads_read [Host] (s : Scalar) (t : s.Val) : Reads en s.read (s.bytes en t) t := by
  cases s with
  | bool =>
    have hbyte : Reads en readFixInt8 [if t then 1 else 0] (if t then 1 else 0) := reads_readFixInt8 _
    have hread := hbyte.map fun v => decide (v ≠ 0)
    cases t <;> exact hread
  | int8 | uint8 => exact reads_readFixInt8 t
  | int16 | uint16 => exact reads_readFixInt (n := 2) t
  | float => exact reads_readFixInt (n := 4) t
  | double => exact reads_readFixInt (n := 8) t
  | int32 | int64 => exact reads_readVarInt (by decide) t
  | uint32 | uint64 => exact reads_readVarUint (by decide) t
  | string => exact reads_readStringVint t

theorem bytes_ne_nil (s : Scalar) (t : s.Val) : s.bytes en t ≠ [] := by
  cases s with
  | bool | int8 | uint8 => exact List.cons_ne_nil _ _
  | int16 | uint16 => exact List.ne_nil_of_length_pos (by rw [bytes, length_memory]; decide)
  | float => exact List.ne_nil_of_length_pos (by rw [bytes, length_memory]; decide)
  | double => exact List.ne_nil_of_length_pos (by rw [bytes, length_memory]; decide)
  | int32 | int64 => exact varint_ne_nil _
  | uint32 | uint64 => exact varint_ne_nil _
  | string => exact List.append_ne_nil_of_left_ne_nil (varint_ne_nil _) _

end Scalar

/-! ### Containers -/

/-- The number of elements in front of a container's elements. -/
def countBytes (n : Nat) : List Byte := varint (BitVec.ofNat 64 n)

theorem countBytes_ne_nil (n : Nat) : countBytes n ≠ [] := varint_ne_nil _

namespace CppType

variable {α : Type} {d : Discipline} {C : Comparison α}

theorem writes_items {put : α → Op ByteArray Unit} {bytes : α → List Byte}
    (h : ∀ x, Writes en (put x) (bytes x)) (items : List α) :
    Writes en (writeItems put items) (items.flatMap bytes) := by
  induction items with
  | nil => exact Writes.nil
  | cons i rest ih => exact (h i).bind ih

/-- The loop emplaces, one after another, the elements it reads. -/
theorem reads_readItems {item : Op ByteArray α} {pieces : List (List Byte × α)}
    (h : ∀ piece ∈ pieces, Reads en item piece.1 piece.2) {t t' : Collection d C}
    (hrefill : t.refill (pieces.map Prod.snd) = some t') :
    Reads en (readItems item pieces.length t) (pieces.flatMap Prod.fst) t' := by
  induction pieces generalizing t with
  | nil =>
    obtain rfl := Option.some.inj hrefill
    exact Reads.nil t
  | cons piece pieces ih =>
    obtain ⟨t₁, ht₁, hrest⟩ := Option.bind_eq_some_iff.1 hrefill
    refine (h piece List.mem_cons_self).bind ?_
    rw [ht₁]
    exact ih (fun p hp => h p (List.mem_cons_of_mem piece hp)) hrest

theorem writes_container [Host] {Same : α → α → Prop} {item : Op ByteArray α} {put : α → Op ByteArray Unit}
    {bytes : α → List Byte} (h : ∀ x, Writes en (put x) (bytes x)) (t : Collection d C) :
    Writes en ((container d C Same item put).shiftLeft t)
      (countBytes t.items.length ++ t.items.flatMap bytes) :=
  (Scalar.writes_write .uint64 _).bind (writes_items h t.items)

/-- The count fits into the `size_t` it is written as. -/
theorem toNat_count (t : Collection d C) : (BitVec.ofNat 64 t.items.length).toNat = t.items.length := by
  have h := t.bounded
  unfold maxElements at h
  rw [BitVec.toNat_ofNat]
  omega

/-- What `>>` does with a count and the pieces behind it. -/
theorem reads_container [Host] (Same : α → α → Prop) {item : Op ByteArray α} {put : α → Op ByteArray Unit}
    {t t' : Collection d C} {pieces : List (List Byte × α)} (hlen : pieces.length = t.items.length)
    (h : ∀ piece ∈ pieces, Reads en item piece.1 piece.2)
    (hrefill : (Collection.empty : Collection d C).refill (pieces.map Prod.snd) = some t') :
    Reads en ((container d C Same item put).shiftRight .empty)
      (countBytes t.items.length ++ pieces.flatMap Prod.fst) t' := by
  refine (Scalar.reads_read .uint64 _).bind ?_
  rw [toNat_count t, ← hlen]
  exact reads_readItems h hrefill

/-- Elements that are read as they were written make the container again. -/
theorem reads_container_items [Host] (Same : α → α → Prop) {item : Op ByteArray α} {put : α → Op ByteArray Unit}
    {bytes : α → List Byte} (h : ∀ x, Reads en item (bytes x) x) (t : Collection d C) :
    Reads en ((container d C Same item put).shiftRight .empty)
      (countBytes t.items.length ++ t.items.flatMap bytes) t := by
  have hread : Reads en ((container d C Same item put).shiftRight .empty)
      (countBytes t.items.length ++ (t.items.map fun x => (bytes x, x)).flatMap Prod.fst) t :=
    reads_container Same (List.length_map _)
    (by
      intro piece hpiece
      obtain ⟨x, -, rfl⟩ := List.mem_map.1 hpiece
      exact h x)
    (by
      rw [List.map_map]
      exact (congrArg (Collection.empty.refill ·) (List.map_id t.items)).trans (Collection.refill_items t))
  rwa [List.flatMap_map] at hread

end CppType

/-! ### All types -/

namespace Format

def scalar [Host] (s : Scalar) : Format en (.scalar s) where
  bytes := s.bytes en
  written := s.bytes en
  writes_shiftLeft := s.writes_write
  writes_write := s.writes_write

def pair [Host] (K V : CppType) : Format en (.pair K V) where
  bytes _ := []
  written _ := []
  writes_shiftLeft _ := Writes.nil
  writes_write _ := Writes.nil

def tupleNil [Host] : Format en .tupleNil where
  bytes _ := []
  written _ := []
  writes_shiftLeft _ := Writes.nil
  writes_write _ := Writes.nil

def tupleCons [Host] {T Args : CppType} (f : Format en T) (g : Format en Args) : Format en (.tupleCons T Args) where
  bytes x := f.bytes x.1 ++ g.bytes x.2
  written _ := []
  writes_shiftLeft x := (f.writes_shiftLeft x.1).bind (g.writes_shiftLeft x.2)
  writes_write _ := Writes.nil

/-- A count and the elements, as `put` writes them. -/
def container [Host] {α : Type} {d : Discipline} {C : Comparison α} (Same : α → α → Prop) {item : Op ByteArray α}
    {put : α → Op ByteArray Unit} (bytes : α → List Byte) (h : ∀ x, Writes en (put x) (bytes x)) :
    Format en (.container d C Same item put) where
  bytes t := countBytes t.items.length ++ t.items.flatMap bytes
  written _ := []
  writes_shiftLeft := CppType.writes_container h
  writes_write _ := Writes.nil

def seq [Host] {T : CppType} (f : Format en T) : (k : SeqKind) → Format en (k.sem T)
  | .list => container T.Same f.bytes f.writes_shiftLeft
  | .vector => container T.Same f.bytes f.writes_shiftLeft
  | .set => container T.Same f.bytes f.writes_shiftLeft
  | .unorderedSet => container T.Same f.written f.writes_write
  | .multiset => container T.Same f.written f.writes_write
  | .unorderedMultiset => container T.Same f.written f.writes_write

def assoc [Host] (K V : CppType) : (k : AssocKind) → Format en (k.sem K V)
  | .map | .unorderedMap | .multimap | .unorderedMultimap =>
    container (CppType.pair K V).Same (fun _ => []) fun _ => Writes.nil

end Format

mutual

/-- The serialized form of a type's values. -/
def Ty.format [Host] (en : Endian) : (t : Ty) → Format en t.sem
  | .scalar s => .scalar s
  | .seq k e => (e.format en).seq k
  | .assoc k key value => .assoc key.sem value.sem k
  | .pair first second => .pair first.sem second.sem
  | .tuple args => args.format en

def Tys.format [Host] (en : Endian) : (ts : Tys) → Format en ts.sem
  | .nil => .tupleNil
  | .cons t args => (t.format en).tupleCons (args.format en)

end

/-- The bytes that `<<` writes for a value. -/
def Ty.bytes [Host] (en : Endian) (t : Ty) : t.sem.Val → List Byte := (t.format en).bytes

/-! ### The types whose values are read back -/

def Ty.isScalar : Ty → Bool
  | .scalar _ => true
  | _ => false

mutual

/-- Scalars and strings, the containers of these, and tuples of all of them.  A vector of Booleans is one of them,
though its `<<` does not compile, so that no program has it. -/
def Ty.Plain : Ty → Bool
  | .scalar _ => true
  | .seq _ e => e.isScalar
  | .assoc _ _ _ => false
  | .pair _ _ => false
  | .tuple args => args.Plain

def Tys.Plain : Tys → Bool
  | .nil => true
  | .cons t args => t.Plain && args.Plain

end

private theorem reads_seq [Host] (s : Scalar) (k : SeqKind) (t : (k.sem (.scalar s)).Val) :
    Reads en ((k.sem (.scalar s)).shiftRight (k.sem (.scalar s)).fresh)
      (((Format.scalar s : Format en (.scalar s)).seq k).bytes t) t := by
  cases k with
  | list | vector | set | unorderedSet | multiset | unorderedMultiset =>
    exact CppType.reads_container_items (CppType.scalar s).Same s.reads_read t

mutual

/-- `>>` takes the bytes that `<<` wrote, and no others, and returns the value. -/
theorem Ty.reads_plain [Host] (t : Ty) (h : t.Plain = true) (x : t.sem.Val) :
    Reads en (t.sem.shiftRight t.sem.fresh) (t.bytes en x) x := by
  cases t with
  | scalar s => exact s.reads_read x
  | seq k e =>
    cases e with
    | scalar s => exact reads_seq s k x
    | seq | assoc | pair | tuple => cases h
  | assoc k key value => cases h
  | pair first second => cases h
  | tuple args => exact args.reads_plain h x

theorem Tys.reads_plain [Host] (ts : Tys) (h : ts.Plain = true) (x : ts.sem.Val) :
    Reads en (ts.sem.shiftRight ts.sem.fresh) ((ts.format en).bytes x) x := by
  cases ts with
  | nil => exact Reads.nil x
  | cons t args =>
    obtain ⟨ht, hargs⟩ := Bool.and_eq_true_iff.1 h
    exact (t.reads_plain ht x.1).bind ((args.reads_plain hargs x.2).map fun others => (x.1, others))

end

end AcidCompute

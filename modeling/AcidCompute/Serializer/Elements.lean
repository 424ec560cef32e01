import AcidCompute.Base.Decoder
import AcidCompute.ByteArray.Reachable
import AcidCompute.Serializer.Received

/-!
# Containers that a peer sent

The number of elements in front of a container is whatever a peer declares.  Every element takes at least one byte or
makes its reader throw, so that there are at most as many element reads as unread bytes, and one that throws
(`elementReads_le`).
-/

namespace AcidCompute

open AcidCompute.ByteArray

variable {en : Endian}

/-! ### Scalars and strings in front of any bytes -/

/-- What a type of the chains takes off the front of the bytes. -/
def Scalar.decode (en : Endian) : (s : Scalar) → Decoder s.Val
  | .bool => Decoder.byte.map fun v => decide (v ≠ 0)
  | .int8 | .uint8 => Decoder.byte
  | .int16 | .uint16 => Decoder.fixed en 2
  | .float => Decoder.fixed en 4
  | .double => Decoder.fixed en 8
  | .int32 => Decoder.map decodeZigzag (decodeVarint 5 0 0#32)
  | .uint32 => decodeVarint 5 0 0#32
  | .int64 => Decoder.map decodeZigzag (decodeVarint 10 0 0#64)
  | .uint64 => decodeVarint 10 0 0#64
  | .string => takeString

/-- Where the bytes end inside the first block, the call takes what the decoder finds in front of the unread bytes, and
throws when there is nothing. -/
structure Takes {α : Type} (en : Endian) (m : Op ByteArray α) (d : Decoder α) : Prop where
  ok : ∀ b, Ready en b → b.size < b.baseSize → ∀ x rest, d b.unread = some (x, rest) →
    ∃ p, p ≤ b.size ∧ m b = .ok x (b.moveTo p) ∧ (b.moveTo p).unread = rest
  throws : ∀ b, Ready en b → b.size < b.baseSize → d b.unread = none → ∃ e b', m b = .error (.throws e) b'

theorem Takes.map {α β : Type} {m : Op ByteArray α} {d : Decoder α} (h : Takes en m d) (f : α → β) :
    Takes en (do let a ← m; return f a) (d.map f) where
  ok b hb hsize y rest heq := by
    obtain ⟨⟨x, rest'⟩, hx, hy⟩ := Option.map_eq_some_iff.1 heq
    cases hy
    obtain ⟨p, hp, hm, hrest⟩ := h.ok b hb hsize x _ hx
    exact ⟨p, hp, Op.bind_of_ok hm, hrest⟩
  throws b hb hsize heq := by
    obtain ⟨e, b', hm⟩ := h.throws b hb hsize (Option.map_eq_none_iff.1 heq)
    exact ⟨e, b', Op.bind_of_error hm⟩

private theorem takes_byte : Takes en readFixInt8 Decoder.byte where
  ok b hb hsize x rest heq := by
    have hu : b.unread = [x] ++ rest := by
      cases hbytes : b.unread with
      | nil =>
        rw [hbytes] at heq
        cases heq
      | cons c bs =>
        rw [hbytes] at heq
        cases heq
        rfl
    have hend := position_le_of_unread hb.valid hu
    exact ⟨_, hend, reads_readFixInt8 x b rest hb (by omega) hu, unread_moveTo hu⟩
  throws b hb _ heq := by
    cases hbytes : b.unread with
    | nil => exact ⟨_, _, readFixInt8_nothing hbytes hb.valid⟩
    | cons c bs =>
      rw [hbytes] at heq
      cases heq

private theorem takes_fixed [Host] {n : Nat} : Takes en (readFixInt n) (Decoder.fixed en n) where
  ok b hb hsize x rest heq := by
    unfold Decoder.fixed at heq
    split at heq
    · rename_i hle
      cases heq
      have hu : b.unread = b.unread.take n ++ b.unread.drop n := (List.take_append_drop n _).symm
      have hread : Reads en (readFixInt n) (b.unread.take n) (ofMemory en n (b.unread.take n)) := by
        have hmemory : Reads en (readFixInt n) (memory en (ofMemory en n (b.unread.take n))) _ := reads_readFixInt _
        rwa [memory_ofMemory en (List.length_take_of_le hle)] at hmemory
      have hend := position_le_of_unread hb.valid hu
      exact ⟨_, hend, hread b _ hb (by omega) hu, unread_moveTo hu⟩
    · cases heq
  throws b hb _ heq := by
    unfold Decoder.fixed at heq
    split at heq
    · cases heq
    · rename_i hshort
      rw [hb.valid.length_unread] at hshort
      have hread : ByteArray.read n b = .error (.throws .outOfRange) b := read_short (by omega)
      exact ⟨_, _, Op.bind_of_error hread⟩

private theorem takes_varUint (w : Nat) : Takes en (readVarUint w) (decodeVarint ((w + 6) / 7) 0 0#w) where
  ok b hb hsize x rest heq := by
    obtain ⟨front, hu, -, hread⟩ := readVarUint_ok hb (Nat.lt_of_le_of_lt (Nat.min_le_left _ _) hsize) heq
    exact ⟨_, position_le_of_unread hb.valid hu, hread, unread_moveTo hu⟩
  throws b hb hsize heq := by
    obtain ⟨b', hread⟩ := readVarUint_throws hb (Nat.lt_of_le_of_lt (Nat.min_le_left _ _) hsize) heq
    exact ⟨_, b', hread⟩

private theorem takes_string : Takes en readStringVint takeString where
  ok _ hb hsize _ _ heq := readStringVint_ok hb (Nat.lt_of_le_of_lt (Nat.min_le_left _ _) hsize) heq
  throws _ hb hsize heq := readStringVint_throws hb (Nat.lt_of_le_of_lt (Nat.min_le_left _ _) hsize) heq

theorem Scalar.takes_read [Host] (s : Scalar) : Takes en s.read (s.decode en) := by
  cases s with
  | bool => exact takes_byte.map _
  | int8 | uint8 => exact takes_byte
  | int16 | uint16 => exact takes_fixed
  | float => exact takes_fixed
  | double => exact takes_fixed
  | int32 => exact (takes_varUint 32).map decodeZigzag
  | int64 => exact (takes_varUint 64).map decodeZigzag
  | uint32 => exact takes_varUint 32
  | uint64 => exact takes_varUint 64
  | string => exact takes_string

private theorem progresses_varint {rounds : Nat} (hpos : 0 < rounds) (w : Nat) :
    Decoder.Progresses (decodeVarint rounds 0 0#w) := by
  intro bs x rest heq
  have hlt := length_decodeVarint_lt hpos heq
  obtain ⟨front, rfl, -⟩ := decodeVarint_suffix heq
  rw [List.length_append] at hlt
  exact ⟨front, List.ne_nil_of_length_pos (by omega), rfl⟩

private theorem progresses_string : Decoder.Progresses takeString := by
  intro bs x rest heq
  unfold takeString at heq
  split at heq
  · rename_i len rest' hdec
    split at heq
    · cases heq
      obtain ⟨front, hne, hbs⟩ := progresses_varint (by decide) 64 bs len rest' hdec
      refine ⟨front ++ rest'.take len.toNat, List.append_ne_nil_of_left_ne_nil hne _, ?_⟩
      rw [hbs, List.append_assoc, List.take_append_drop]
    · cases heq
  · cases heq

/-- Every scalar and every string takes at least one byte. -/
theorem Scalar.progresses_decode (en : Endian) (s : Scalar) : (s.decode en).Progresses := by
  cases s with
  | bool => exact Decoder.progresses_byte.map fun v : Byte => decide (v ≠ 0)
  | int8 | uint8 => exact Decoder.progresses_byte
  | int16 | uint16 => exact Decoder.progresses_fixed en (by decide)
  | float => exact Decoder.progresses_fixed en (by decide)
  | double => exact Decoder.progresses_fixed en (by decide)
  | int32 => exact (progresses_varint (by decide) 32).map decodeZigzag
  | int64 => exact (progresses_varint (by decide) 64).map decodeZigzag
  | uint32 => exact progresses_varint (by decide) 32
  | uint64 => exact progresses_varint (by decide) 64
  | string => exact progresses_string

/-! ### Counting the element reads -/

section

variable {α β : Type} {d : Discipline} {C : Comparison α}

/-- The element reads of a call and of what follows it, from a state of the array on. -/
def readsThen (m : Op ByteArray α) (reads : ByteArray → Nat) (next : α → ByteArray → Nat) (b : ByteArray) : Nat :=
  reads b +
    match m b with
    | .ok a b' => next a b'
    | .error _ _ => 0

theorem readsThen_of_ok {m : Op ByteArray α} {reads : ByteArray → Nat} {next : α → ByteArray → Nat} {b b' : ByteArray}
    {a : α} (h : m b = .ok a b') : readsThen m reads next b = reads b + next a b' := by
  unfold readsThen
  rw [h]

theorem readsThen_of_error {m : Op ByteArray α} {reads : ByteArray → Nat} {next : α → ByteArray → Nat}
    {b b' : ByteArray} {fault : Fault} (h : m b = .error fault b') : readsThen m reads next b = reads b := by
  unfold readsThen
  rw [h]
  rfl

/-- The element reads of the loop `readItems`, for those of an element. -/
def itemReads (item : Op ByteArray α) (reads : ByteArray → Nat) : Nat → Collection d C → ByteArray → Nat
  | 0, _ => fun _ => 0
  | size + 1, t => readsThen item reads fun tmp =>
    match t.emplace tmp with
    | some t' => itemReads item reads size t'
    | none => fun _ => 0

/-- The element reads of a container's `>>`; the number of elements is not one. -/
def containerReads [Host] (item : Op ByteArray α) (reads : ByteArray → Nat) (t : Collection d C) : ByteArray → Nat :=
  readsThen (Scalar.read .uint64) (fun _ => 0) fun size => itemReads item reads size.toNat t

/-- A call that counts its element reads beside the array. -/
def counted (m : Op ByteArray α) (reads : ByteArray → Nat) : Op (ByteArray × Nat) α := fun s =>
  match m s.1 with
  | .ok a b => .ok a (b, s.2 + reads s.1)
  | .error fault b => .error fault (b, s.2 + reads s.1)

theorem counted_bind (m : Op ByteArray α) (reads : ByteArray → Nat) (f : α → Op ByteArray β)
    (next : α → ByteArray → Nat) :
    (counted m reads >>= fun a => counted (f a) (next a)) = counted (m >>= f) (readsThen m reads next) := by
  funext ⟨b, count⟩
  cases hm : m b with
  | error fault b' =>
    have hcounted : counted m reads (b, count) = .error fault (b', count + reads b) := by simp only [counted, hm]
    rw [Op.bind_of_error hcounted]
    simp only [counted, Op.bind_of_error hm, readsThen_of_error hm]
  | ok a b' =>
    have hcounted : counted m reads (b, count) = .ok a (b', count + reads b) := by simp only [counted, hm]
    rw [Op.bind_of_ok hcounted]
    simp only [counted, Op.bind_of_ok hm, readsThen_of_ok hm, Nat.add_assoc]

/-- The loop of readers that count is the loop of the readers, and it counts its element reads. -/
theorem counted_readItems (item : Op ByteArray α) (reads : ByteArray → Nat) (size : Nat) (t : Collection d C) :
    CppType.readItems (counted item reads) size t =
      counted (CppType.readItems item size t) (itemReads item reads size t) := by
  induction size generalizing t with
  | zero => rfl
  | succ size ih =>
    unfold CppType.readItems itemReads
    rw [← counted_bind]
    congr 1
    funext tmp
    cases t.emplace tmp with
    | some t' => exact ih t'
    | none => rfl

/-- An element's reader, which takes at least as many bytes as it reads elements, and throws at the latest when there
are no bytes. -/
structure Paid (en : Endian) (item : Op ByteArray α) (reads : ByteArray → Nat) (dec : Decoder α) : Prop where
  takes : Takes en item dec
  progresses : dec.Progresses
  ok_le : ∀ b, Ready en b → b.size < b.baseSize → ∀ x rest, dec b.unread = some (x, rest) →
    reads b + rest.length ≤ b.unread.length
  throws_le : ∀ b, Ready en b → b.size < b.baseSize → dec b.unread = none → reads b ≤ b.unread.length + 1

private theorem paid_scalar [Host] (s : Scalar) : Paid en s.read (fun _ => 1) (s.decode en) where
  takes := s.takes_read
  progresses := s.progresses_decode en
  ok_le b _ _ x rest heq := by
    have hlt := (s.progresses_decode en).length_lt heq
    omega
  throws_le b _ _ _ := Nat.le_add_left 1 _

theorem Takes.pair {m : Op ByteArray α} {m' : Op ByteArray β} {dec : Decoder α} {dec' : Decoder β}
    (h : Takes en m dec) (h' : Takes en m' dec') :
    Takes en (do let a ← m; let a' ← m'; return (a, a')) (dec.pair dec') where
  ok := by
    rintro b hb hsize ⟨x, y⟩ rest heq
    obtain ⟨bs, hx, hy⟩ := Decoder.pair_eq_some.1 heq
    obtain ⟨p, hp, hread, rfl⟩ := h.ok b hb hsize x bs hx
    obtain ⟨q, hq, hread', hrest⟩ := h'.ok _ (hb.moveTo hp) hsize y rest hy
    exact ⟨q, hq, (Op.bind_of_ok hread).trans (Op.bind_of_ok hread'), hrest⟩
  throws := by
    intro b hb hsize heq
    cases hx : dec b.unread with
    | none =>
      obtain ⟨e, b', hread⟩ := h.throws b hb hsize hx
      exact ⟨e, b', Op.bind_of_error hread⟩
    | some found =>
      obtain ⟨x, bs⟩ := found
      obtain ⟨p, hp, hread, rfl⟩ := h.ok b hb hsize x bs hx
      obtain ⟨e, b', hread'⟩ := h'.throws _ (hb.moveTo hp) hsize (Decoder.eq_none_of_pair hx heq)
      exact ⟨e, b', (Op.bind_of_ok hread).trans (Op.bind_of_error hread')⟩

private theorem Paid.pair {m : Op ByteArray α} {m' : Op ByteArray β} {reads reads' : ByteArray → Nat}
    {dec : Decoder α} {dec' : Decoder β} (h : Paid en m reads dec) (h' : Paid en m' reads' dec') :
    Paid en (do let a ← m; let a' ← m'; return (a, a')) (readsThen m reads fun _ => reads') (dec.pair dec') where
  takes := h.takes.pair h'.takes
  progresses := h.progresses.pair h'.progresses
  ok_le := by
    rintro b hb hsize ⟨x, y⟩ rest heq
    obtain ⟨bs, hx, hy⟩ := Decoder.pair_eq_some.1 heq
    have hfirst := h.ok_le b hb hsize x bs hx
    obtain ⟨p, hp, hread, rfl⟩ := h.takes.ok b hb hsize x bs hx
    have hsecond := h'.ok_le _ (hb.moveTo hp) hsize y rest hy
    rw [readsThen_of_ok hread]
    omega
  throws_le := by
    intro b hb hsize heq
    cases hx : dec b.unread with
    | none =>
      obtain ⟨e, b', hread⟩ := h.takes.throws b hb hsize hx
      rw [readsThen_of_error hread]
      exact h.throws_le b hb hsize hx
    | some found =>
      obtain ⟨x, bs⟩ := found
      have hfirst := h.ok_le b hb hsize x bs hx
      obtain ⟨p, hp, hread, rfl⟩ := h.takes.ok b hb hsize x bs hx
      have hsecond := h'.throws_le _ (hb.moveTo hp) hsize (Decoder.eq_none_of_pair hx heq)
      rw [readsThen_of_ok hread]
      omega

/-- The loop makes no more element reads than there are bytes, and one that throws; it returns only with all its
elements. -/
private theorem readItems_paid {item : Op ByteArray α} {reads : ByteArray → Nat} {dec : Decoder α}
    (h : Paid en item reads dec) (size : Nat) (t : Collection d C) {b : ByteArray} (hb : Ready en b)
    (hsize : b.size < b.baseSize) :
    itemReads item reads size t b ≤ b.unread.length + 1 ∧
      ((∃ values rest t' b', dec.many size b.unread = some (values, rest) ∧
          CppType.readItems item size t b = .ok t' b' ∧ b'.unread = rest) ∨
        ∃ e b', CppType.readItems item size t b = .error (.throws e) b') := by
  induction size generalizing t b with
  | zero => exact ⟨Nat.zero_le _, .inl ⟨[], _, t, b, rfl, rfl, rfl⟩⟩
  | succ size ih =>
    cases hx : dec b.unread with
    | none =>
      obtain ⟨e, b', hread⟩ := h.takes.throws b hb hsize hx
      refine ⟨?_, .inr ⟨e, b', Op.bind_of_error hread⟩⟩
      unfold itemReads
      rw [readsThen_of_error hread]
      exact h.throws_le b hb hsize hx
    | some found =>
      obtain ⟨x, bs⟩ := found
      have hle := h.ok_le b hb hsize x bs hx
      obtain ⟨p, hp, hread, rfl⟩ := h.takes.ok b hb hsize x bs hx
      unfold itemReads CppType.readItems
      rw [readsThen_of_ok hread, Op.bind_of_ok hread]
      cases hemplace : t.emplace x with
      | none => exact ⟨by dsimp only; omega, .inr ⟨_, _, rfl⟩⟩
      | some t' =>
        obtain ⟨hrest, hdone⟩ := ih t' (hb.moveTo hp) hsize
        refine ⟨by dsimp only; omega, ?_⟩
        rcases hdone with ⟨values, rest, t'', b', hmany, heq, hunread⟩ | hthrows
        · exact .inl ⟨x :: values, rest, t'', b', Decoder.many_succ_eq_some.2 ⟨_, hx, hmany⟩, heq, hunread⟩
        · exact .inr hthrows

end

/-! ### Containers of scalars and strings -/

/-- A container whose elements, or keys and values, are scalars or strings. -/
inductive Shallow
  | seq (k : SeqKind) (e : Scalar)
  | assoc (k : AssocKind) (key value : Scalar)
  deriving DecidableEq, Repr

namespace Shallow

def type : Shallow → Ty
  | .seq k e => .seq k (.scalar e)
  | .assoc k key value => .assoc k (.scalar key) (.scalar value)

/-- The element reads of `>>` into a container that may have elements already: the key and the value of a map's entry
are two. -/
def elementReads [Host] : (c : Shallow) → c.type.sem.Val → ByteArray → Nat
  | .seq .list e, t | .seq .vector e, t | .seq .set e, t | .seq .unorderedSet e, t | .seq .multiset e, t
  | .seq .unorderedMultiset e, t => containerReads e.read (fun _ => 1) t
  | .assoc .map key value, t | .assoc .unorderedMap key value, t | .assoc .multimap key value, t
  | .assoc .unorderedMultimap key value, t =>
    containerReads (CppType.pair (.scalar key) (.scalar value) |>.shiftRight (key.zero, value.zero))
      (readsThen key.read (fun _ => 1) fun _ _ => 1) t

/-- `>>` with readers of scalars and strings that count. -/
def countedShiftRight [Host] : (c : Shallow) → c.type.sem.Val → Op (ByteArray × Nat) c.type.sem.Val
  | .seq .list e, t | .seq .vector e, t | .seq .set e, t | .seq .unorderedSet e, t | .seq .multiset e, t
  | .seq .unorderedMultiset e, t => do
    let size ← counted (Scalar.read .uint64) fun _ => 0
    CppType.readItems (counted e.read fun _ => 1) size.toNat t
  | .assoc .map key value, t | .assoc .unorderedMap key value, t | .assoc .multimap key value, t
  | .assoc .unorderedMultimap key value, t => do
    let size ← counted (Scalar.read .uint64) fun _ => 0
    CppType.readItems (do
      let first ← counted key.read fun _ => 1
      let second ← counted value.read fun _ => 1
      return (first, second)) size.toNat t

/-- The values of an element. -/
@[reducible] def Elem : Shallow → Type
  | .seq _ e => e.Val
  | .assoc _ key value => key.Val × value.Val

/-- An element in front of the bytes. -/
def decode (en : Endian) : (c : Shallow) → Decoder c.Elem
  | .seq _ e => e.decode en
  | .assoc _ key value => (key.decode en).pair (value.decode en)

/-- From one state to the other a count and that many elements have been taken off the unread bytes, and each of the
elements was there. -/
def Taken (c : Shallow) (b b' : ByteArray) : Prop :=
  ∃ (size : BitVec 64) (bs : List Byte) (values : List c.Elem),
    Scalar.decode b.endian .uint64 b.unread = some (size, bs) ∧
      (c.decode b.endian).many size.toNat bs = some (values, b'.unread) ∧ values.length = size.toNat ∧
      size.toNat + b'.unread.length < b.unread.length

end Shallow

private theorem counted_container [Host] {α : Type} {d : Discipline} {C : Comparison α} (item : Op ByteArray α)
    (reads : ByteArray → Nat) (t : Collection d C) :
    (do
      let size ← counted (Scalar.read .uint64) fun _ => 0
      CppType.readItems (counted item reads) size.toNat t) =
        counted (do
          let size ← Scalar.read .uint64
          CppType.readItems item size.toNat t) (containerReads item reads t) := by
  have hloop : (fun size : BitVec 64 => CppType.readItems (counted item reads) size.toNat t) =
      fun size => counted (CppType.readItems item size.toNat t) (itemReads item reads size.toNat t) :=
    funext fun size => counted_readItems item reads size.toNat t
  exact (congrArg _ hloop).trans (counted_bind _ _ _ _)

private theorem counted_pair [Host] (key value : Scalar) :
    (do
      let first ← counted key.read fun _ => 1
      let second ← counted value.read fun _ => 1
      return (first, second)) =
        counted (CppType.pair (.scalar key) (.scalar value) |>.shiftRight (key.zero, value.zero))
          (readsThen key.read (fun _ => 1) fun _ _ => 1) := by
  have hsecond : ∀ first : key.Val, (do
      let second ← counted value.read fun _ => 1
      return (first, second)) = counted (do
        let second ← value.read
        return (first, second)) fun _ => 1 := by
    intro first
    have hnothing : readsThen value.read (fun _ => 1) (fun _ _ => 0) = fun _ => 1 := by
      funext b
      unfold readsThen
      cases value.read b <;> rfl
    exact (counted_bind value.read (fun _ => 1) (fun second => pure (first, second)) fun _ _ => 0).trans
      (congrArg _ hnothing)
  exact (congrArg _ (funext hsecond)).trans (counted_bind _ _ _ _)

/-- What `elementReads` counts is what the readers of scalars and strings count in the loop of `>>`. -/
theorem counted_shiftRight [Host] (c : Shallow) (t : c.type.sem.Val) :
    c.countedShiftRight t = counted (c.type.sem.shiftRight t) (c.elementReads t) := by
  cases c with
  | seq k e =>
    cases k with
    | list | vector | set | unorderedSet | multiset | unorderedMultiset => exact counted_container e.read _ t
  | assoc k key value =>
    cases k with
    | map | unorderedMap | multimap | unorderedMultimap =>
      have hpair := counted_container (CppType.pair (.scalar key) (.scalar value) |>.shiftRight (key.zero, value.zero))
        (readsThen key.read (fun _ => 1) fun _ _ => 1) t
      rw [← counted_pair] at hpair
      exact hpair

private theorem containerReads_spec [Host] {α : Type} {d : Discipline} {C : Comparison α} (Same : α → α → Prop)
    {item : Op ByteArray α} (put : α → Op ByteArray Unit) {reads : ByteArray → Nat} {b : ByteArray} {dec : Decoder α}
    (h : Paid b.endian item reads dec) (t : Collection d C) (hb : Ready b.endian b) (hsize : b.size < b.baseSize) :
    containerReads item reads t b ≤ b.unread.length + 1 ∧
      ((∃ t' b' size bs values, (CppType.container d C Same item put).shiftRight t b = .ok t' b' ∧
          Scalar.decode b.endian .uint64 b.unread = some (size, bs) ∧
          dec.many size.toNat bs = some (values, b'.unread) ∧ values.length = size.toNat ∧
          size.toNat + b'.unread.length < b.unread.length) ∨
        ∃ e b', (CppType.container d C Same item put).shiftRight t b = .error (.throws e) b') := by
  have hcount : Takes b.endian (Scalar.read .uint64) (Scalar.decode b.endian .uint64) := Scalar.takes_read .uint64
  cases hx : Scalar.decode b.endian .uint64 b.unread with
  | none =>
    obtain ⟨e, b', hread⟩ := hcount.throws b hb hsize hx
    refine ⟨?_, .inr ⟨e, b', Op.bind_of_error hread⟩⟩
    unfold containerReads
    rw [readsThen_of_error hread]
    exact Nat.zero_le _
  | some found =>
    obtain ⟨size, bs⟩ := found
    have hlt := (Scalar.progresses_decode b.endian .uint64).length_lt hx
    obtain ⟨p, hp, hread, rfl⟩ := hcount.ok b hb hsize size bs hx
    obtain ⟨hreads, hdone⟩ := readItems_paid h size.toNat t (hb.moveTo hp) hsize
    refine ⟨?_, ?_⟩
    · unfold containerReads
      rw [readsThen_of_ok hread]
      omega
    · rcases hdone with ⟨values, rest, t', b', hmany, heq, rfl⟩ | ⟨e, b', heq⟩
      · obtain ⟨hlength, hle⟩ := Decoder.count_le_of_many h.progresses hmany
        exact .inl ⟨t', b', size, _, values, (Op.bind_of_ok hread).trans heq, rfl, hmany, hlength, by omega⟩
      · exact .inr ⟨e, b', (Op.bind_of_ok hread).trans heq⟩

/-- An array in any reachable state whose bytes end inside the first block, and any container of scalars or strings:
`>>` reads at most as many elements as there are unread bytes, and one more, and returns or throws; it returns only
after that many elements as the bytes declare, all of which were there. -/
theorem elementReads_le [Host] {b : ByteArray} (h : Reachable b) (hshort : b.size < b.baseSize) (c : Shallow)
    (t : c.type.sem.Val) :
    c.elementReads t b ≤ b.unread.length + 1 ∧
      ((∃ t' b', c.type.sem.shiftRight t b = .ok t' b' ∧ c.Taken b b') ∨
        ∃ e b', c.type.sem.shiftRight t b = .error (.throws e) b') := by
  have hready : Ready b.endian b := h.sound.ready (Nat.lt_of_le_of_lt h.sound.valid.position_le hshort)
  cases c with
  | seq k e =>
    have hitem : Paid b.endian e.read (fun _ => 1) (e.decode b.endian) := paid_scalar e
    cases k with
    | list | vector | set | unorderedSet | multiset | unorderedMultiset =>
      obtain ⟨hle, ⟨t', b', size, bs, values, heq, htaken⟩ | hthrows⟩ :=
        containerReads_spec (CppType.scalar e).Same e.write hitem t hready hshort
      · exact ⟨hle, .inl ⟨t', b', heq, size, bs, values, htaken⟩⟩
      · exact ⟨hle, .inr hthrows⟩
  | assoc k key value =>
    have hkey : Paid b.endian key.read (fun _ => 1) (key.decode b.endian) := paid_scalar key
    have hitem := hkey.pair (paid_scalar value)
    cases k with
    | map | unorderedMap | multimap | unorderedMultimap =>
      obtain ⟨hle, ⟨t', b', size, bs, values, heq, htaken⟩ | hthrows⟩ :=
        containerReads_spec (CppType.pair (.scalar key) (.scalar value)).Same (fun _ => pure ()) hitem t hready hshort
      · exact ⟨hle, .inl ⟨t', b', heq, size, bs, values, htaken⟩⟩
      · exact ⟨hle, .inr hthrows⟩

section

attribute [local instance] Host.zeroed

/-- Six bytes that declare 2^35 - 1 strings. -/
theorem elementReads_le_six :
    ∃ b : ByteArray, Reachable b ∧ b.unread.length = 6 ∧
      (Shallow.seq .vector .string).elementReads Collection.empty b ≤ 7 := by
  have hreach : Reachable ⟨8, 0, 8, 6, .big, [[255, 255, 255, 255, 127, 0, 0, 0]], some 0⟩ :=
    reachable_of_stateAfter 8 (by decide) .big [.write [255, 255, 255, 255, 127, 0], .setPosition 0] (by decide)
  exact ⟨_, hreach, rfl, (elementReads_le hreach (by decide) (.seq .vector .string) Collection.empty).1⟩

end

end AcidCompute

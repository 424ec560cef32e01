import AcidCompute.Serializer.RoundTrip

/-!
# Containers of containers, and maps

The `>>` of a container reads its elements with `read(tmp)`, which does nothing for an element that is itself a
container, a pair or a tuple, while its `<<` writes them.  So such a container comes back only when there was nothing
to read (`restoredAlone_seq_iff`).  The `<<` of a map writes its entries as `const` pairs, which writes nothing, while
its `>>` reads keys and values, so that only the empty map comes back (`restoredAlone_assoc_iff`).
-/

namespace AcidCompute

open AcidCompute.ByteArray

/-! ### Types of which nothing is written -/

mutual

/-- Pairs, and the tuples of such types only. -/
def Ty.Silent : Ty → Bool
  | .scalar _ => false
  | .seq _ _ => false
  | .assoc _ _ _ => false
  | .pair _ _ => true
  | .tuple args => args.Silent

def Tys.Silent : Tys → Bool
  | .nil => true
  | .cons t args => t.Silent && args.Silent

end

variable {en : Endian}

private theorem seq_bytes_ne_nil [Host] {T : CppType} (f : Format en T) (k : SeqKind) (x : (k.sem T).Val) :
    (f.seq k).bytes x ≠ [] := by
  cases k <;> exact List.append_ne_nil_of_left_ne_nil (countBytes_ne_nil _) _

private theorem assoc_bytes_ne_nil [Host] {K V : CppType} (k : AssocKind) (x : (k.sem K V).Val) :
    (Format.assoc K V k : Format en (k.sem K V)).bytes x ≠ [] := by
  cases k <;> exact List.append_ne_nil_of_left_ne_nil (countBytes_ne_nil _) _

mutual

theorem Ty.bytes_eq_nil_iff [Host] (t : Ty) (x : t.sem.Val) : t.bytes en x = [] ↔ t.Silent = true := by
  cases t with
  | scalar s => exact iff_of_false (s.bytes_ne_nil x) Bool.false_ne_true
  | seq k e => exact iff_of_false (seq_bytes_ne_nil (e.format en) k x) Bool.false_ne_true
  | assoc k key value => exact iff_of_false (assoc_bytes_ne_nil k x) Bool.false_ne_true
  | pair first second => exact iff_of_true rfl rfl
  | tuple args => exact args.bytes_eq_nil_iff x

theorem Tys.bytes_eq_nil_iff [Host] (ts : Tys) (x : ts.sem.Val) :
    (ts.format en).bytes x = [] ↔ ts.Silent = true := by
  cases ts with
  | nil => exact iff_of_true rfl rfl
  | cons t args =>
    have ht := t.bytes_eq_nil_iff x.1
    have hargs := args.bytes_eq_nil_iff x.2
    show t.bytes en x.1 ++ (args.format en).bytes x.2 = [] ↔ (t.Silent && args.Silent) = true
    rw [List.append_eq_nil_iff, ht, hargs, Bool.and_eq_true]

end

/-! ### Values that equal a fresh object -/

private theorem same_container_fresh [Host] {α : Type} {d : Discipline} {C : Comparison α} (Same : α → α → Prop)
    {item : Op ByteArray α} {put : α → Op ByteArray Unit} {t : Collection d C}
    (h : (CppType.container d C Same item put).Same t .empty) : t = .empty := by
  apply Collection.ext
  cases d with
  | unordered | unorderedMulti => exact List.Perm.eq_nil h
  | sequence | ordered | orderedMulti => exact List.forall₂_nil_right_iff.1 h

mutual

theorem Ty.eq_fresh_of_same [Host] (t : Ty) {x : t.sem.Val} (h : t.sem.Same x t.sem.fresh) : x = t.sem.fresh := by
  cases t with
  | scalar s => exact h
  | seq k e => cases k <;> exact same_container_fresh e.sem.Same h
  | assoc k key value => cases k <;> exact same_container_fresh (CppType.pair key.sem value.sem).Same h
  | pair first second => exact Prod.ext (first.eq_fresh_of_same h.1) (second.eq_fresh_of_same h.2)
  | tuple args => exact args.eq_fresh_of_same h

theorem Tys.eq_fresh_of_same [Host] (ts : Tys) {x : ts.sem.Val} (h : ts.sem.Same x ts.sem.fresh) :
    x = ts.sem.fresh := by
  cases ts with
  | nil => rfl
  | cons t args => exact Prod.ext (t.eq_fresh_of_same h.1) (args.eq_fresh_of_same h.2)

end

/-! ### One value on its own -/

namespace Serializer

/-- Written to the empty array `b` and read back into a fresh object, the value is restored from exactly the bytes
written for it. -/
def RestoredAlone [Host] (b : ByteArray) (t : Ty) (x : t.sem.Val) : Prop :=
  ∃ (y : t.sem.Val) (mark : Nat) (b' : ByteArray),
    roundTrip [⟨t, x⟩] b = .ok ([mark], [(⟨t, y⟩, mark)]) b' ∧ t.sem.Same x y

/-- The byte array of a fresh serializer. -/
theorem new_ready [Host] {b : ByteArray} (hnew : Serializer.new = .ok b) :
    Ready .big b ∧ b.baseSize = defaultBaseSize ∧ b.position = 0 ∧ b.size = 0 ∧ b.capacity = defaultBaseSize := by
  obtain ⟨hvalid, hsync, hbase, hend, hpos, hsize, hcap⟩ := new_valid (by decide) hnew
  exact ⟨⟨hvalid, hsync, hend⟩, hbase, hpos, hsize, hcap⟩

/-- What fits into the first block is written. -/
theorem exists_write [Host] {b : ByteArray} (hnew : Serializer.new = .ok b) {t : Ty} (x : t.sem.Val)
    (hlen : (t.bytes .big x).length < defaultBaseSize) : ∃ b₁, t.sem.shiftLeft x b = .ok () b₁ := by
  obtain ⟨hb, -, hpos, -, hcap⟩ := new_ready hnew
  rcases (t.format .big).writes_shiftLeft x b hb with ⟨b₁, heq, -⟩ | ⟨hfull, -⟩
  · exact ⟨b₁, heq⟩
  · exact absurd (.inl (by rw [hpos, hcap, Nat.zero_add]; exact hlen)) hfull

/-- After the write the array holds the serialized form, with the position back at the start. -/
private theorem roundTrip_alone [Host] {b : ByteArray} (hb : Ready en b) (hpos : b.position = 0) (hsize : b.size = 0)
    {t : Ty} {x : t.sem.Val} {b₁ : ByteArray} (hwrite : t.sem.shiftLeft x b = .ok () b₁) :
    Ready en (b₁.moveTo 0) ∧ (b₁.moveTo 0).baseSize = b.baseSize ∧ (b₁.moveTo 0).unread = t.bytes en x ∧
      roundTrip [⟨t, x⟩] b =
        (do
          let back ← readAll [t]
          return ([(t.bytes en x).length], back) : Op ByteArray _) (b₁.moveTo 0) := by
  rcases (t.format en).writes_shiftLeft x b hb with ⟨b', heq, h₁⟩ | ⟨-, b', heq⟩
  · obtain rfl : b₁ = b' := by
      rw [hwrite] at heq
      injection heq
    have hlen : b₁.position = (t.bytes en x).length := by
      rw [h₁.position_eq, hpos, Nat.zero_add]
      rfl
    have hempty : Holds en b.baseSize [] b := ⟨hb, rfl, hpos, by rw [content, hsize]; rfl⟩
    have hholds := hempty.rewind h₁
    refine ⟨hholds.ready, h₁.base_eq, hholds.unread_eq, ?_⟩
    unfold roundTrip
    have hmarks : writeAll [(⟨t, x⟩ : Datum)] b = .ok [b₁.position] b₁ := by
      unfold writeAll
      rw [Op.bind_of_ok hwrite, Op.get_bind_apply]
      rfl
    rw [Op.bind_of_ok hmarks, reset, Op.bind_of_ok (setPosition_zero h₁.valid), hlen]
    rfl
  · rw [hwrite] at heq
    cases heq

/-- A value whose serialized form is read as another value, from the part `bs` of it. -/
private theorem restoredAlone_iff [Host] {b : ByteArray} (hb : Ready en b) (hpos : b.position = 0)
    (hsize : b.size = 0) {t : Ty} {x y : t.sem.Val} {b₁ : ByteArray} (hwrite : t.sem.shiftLeft x b = .ok () b₁)
    {bs rest : List Byte} (hbytes : t.bytes en x = bs ++ rest) (hroom : bs.length < b.baseSize)
    (hread : Reads en (t.sem.shiftRight t.sem.fresh) bs y) :
    RestoredAlone b t x ↔ rest = [] ∧ t.sem.Same x y := by
  obtain ⟨hready, hbase, hunread, htrip⟩ := roundTrip_alone hb hpos hsize hwrite
  have hend : (b₁.moveTo 0).position + bs.length = bs.length := Nat.zero_add _
  have hback := hread (b₁.moveTo 0) rest hready (by rw [hend, hbase]; exact hroom) (hunread.trans hbytes)
  rw [hend] at hback
  have hall : readAll [t] (b₁.moveTo 0) = .ok [(⟨t, y⟩, bs.length)] (b₁.moveTo bs.length) := by
    unfold readAll
    rw [Op.bind_of_ok hback, Op.get_bind_apply]
    rfl
  have hresult : roundTrip [⟨t, x⟩] b =
      .ok ([(bs ++ rest).length], [(⟨t, y⟩, bs.length)]) (b₁.moveTo bs.length) := by
    rw [htrip, Op.bind_of_ok hall, hbytes]
    rfl
  unfold RestoredAlone
  rw [hresult]
  constructor
  · rintro ⟨z, mark, b', heq, hsame⟩
    simp only [EStateM.Result.ok.injEq, Prod.mk.injEq, List.cons.injEq, and_true] at heq
    obtain ⟨⟨hmark, hz, hmark'⟩, -⟩ := heq
    have hlen : (bs ++ rest).length = bs.length := hmark.trans hmark'.symm
    rw [List.length_append] at hlen
    obtain rfl : y = z := by injection hz with _ hz
    exact ⟨List.length_eq_zero_iff.1 (by omega), hsame⟩
  · rintro ⟨rfl, hsame⟩
    exact ⟨y, bs.length, _, by rw [List.append_nil], hsame⟩

end Serializer

/-! ### Containers whose elements are not scalars -/

/-- The elements of a sequence or a set. -/
def SeqKind.items [Host] {T : CppType} : (k : SeqKind) → (k.sem T).Val → List T.Val
  | .list, t | .vector, t | .set, t | .unorderedSet, t | .multiset, t | .unorderedMultiset, t => Collection.items t

/-- The entries of a map. -/
def AssocKind.items [Host] {K V : CppType} : (k : AssocKind) → (k.sem K V).Val → List (K.Val × V.Val)
  | .map, t | .unorderedMap, t | .multimap, t | .unorderedMultimap, t => Collection.items t

private theorem read_of_not_scalar [Host] {e : Ty} (he : e.isScalar = false) :
    e.sem.read e.sem.fresh = pure e.sem.fresh := by
  cases e with
  | scalar s => cases he
  | seq k e => cases k <;> rfl
  | assoc k key value => cases k <;> rfl
  | pair first second => rfl
  | tuple args => cases args <;> rfl

/-- Reading elements that `read` does not list takes the count only and fills the container with fresh objects. -/
private theorem reads_unlisted [Host] (en : Endian) {T : CppType} (hread : T.read T.fresh = pure T.fresh)
    {d : Discipline} (put : T.Val → Op ByteArray Unit) (t : Collection d T.order) :
    ∃ t' : Collection d T.order,
      Reads en ((CppType.container d T.order T.Same (T.read T.fresh) put).shiftRight .empty)
        (countBytes t.items.length) t' ∧
      (∀ x ∈ t'.items, x = T.fresh) ∧ ((∀ x ∈ t.items, x = T.fresh) → t' = t) := by
  obtain ⟨t', hrefill⟩ := Collection.refill_of_room (c := (Collection.empty : Collection d T.order))
    (List.replicate t.items.length T.fresh) (by
      rw [List.length_replicate]
      exact (Nat.zero_add _).symm ▸ t.bounded)
  refine ⟨t', ?_, ?_, ?_⟩
  · have hloop : Reads en ((CppType.container d T.order T.Same (T.read T.fresh) put).shiftRight .empty)
        (countBytes t.items.length ++ (List.replicate t.items.length (([] : List Byte), T.fresh)).flatMap Prod.fst)
        t' := CppType.reads_container T.Same List.length_replicate
      (by
        intro piece hpiece
        rw [List.eq_of_mem_replicate hpiece, hread]
        exact Reads.nil T.fresh)
      (by rw [List.map_replicate]; exact hrefill)
    have hnothing : (List.replicate t.items.length (([] : List Byte), T.fresh)).flatMap Prod.fst = [] :=
      List.flatMap_eq_nil_iff.2 fun piece hpiece => by rw [List.eq_of_mem_replicate hpiece]
    rwa [hnothing, List.append_nil] at hloop
  · intro x hx
    rcases Collection.mem_refill hrefill hx with hx | hx
    · exact List.eq_of_mem_replicate hx
    · cases hx
  · intro hall
    rw [← List.eq_replicate_of_mem hall, Collection.refill_items] at hrefill
    exact (Option.some.inj hrefill).symm

/-- What a reader makes of a list, a vector or a set of such elements. -/
private theorem seq_unlisted [Host] (en : Endian) {e : Ty} (he : e.isScalar = false) {k : SeqKind}
    (hk : k = .list ∨ k = .vector ∨ k = .set) (x : (Ty.seq k e).sem.Val) :
    (Ty.seq k e).bytes en x = countBytes (k.items x).length ++ (k.items x).flatMap (e.bytes en) ∧
      ∃ y : (Ty.seq k e).sem.Val,
        Reads en ((Ty.seq k e).sem.shiftRight (Ty.seq k e).sem.fresh) (countBytes (k.items x).length) y ∧
        (∀ i ∈ k.items y, i = e.sem.fresh) ∧ ((∀ i ∈ k.items x, i = e.sem.fresh) → y = x) ∧
        ((Ty.seq k e).sem.Same x y ↔ List.Forall₂ e.sem.Same (k.items x) (k.items y)) := by
  obtain rfl | rfl | rfl := hk
  all_goals
    obtain ⟨y, hreads, hfresh, hback⟩ := reads_unlisted en (read_of_not_scalar he) e.sem.shiftLeft x
    exact ⟨rfl, y, hreads, hfresh, hback, Iff.rfl⟩

private theorem eq_fresh_of_forall₂ [Host] {e : Ty} {l l' : List e.sem.Val} (h : List.Forall₂ e.sem.Same l l')
    (hfresh : ∀ j ∈ l', j = e.sem.fresh) : ∀ i ∈ l, i = e.sem.fresh := by
  induction h with
  | nil => exact fun i hi => absurd hi List.not_mem_nil
  | cons hij _ ih =>
    intro i hi
    rcases List.mem_cons.1 hi with rfl | hi
    · rw [hfresh _ List.mem_cons_self] at hij
      exact e.eq_fresh_of_same hij
    · exact ih (fun j hj => hfresh j (List.mem_cons_of_mem _ hj)) i hi

namespace Serializer

private theorem seq_restored_iff [Host] {b : ByteArray} (hb : Ready en b) (hpos : b.position = 0)
    (hsize : b.size = 0) (hbase : 10 < b.baseSize) {k : SeqKind} (hk : k = .list ∨ k = .vector ∨ k = .set) {e : Ty}
    (he : e.isScalar = false) {x : (Ty.seq k e).sem.Val} {b₁ : ByteArray}
    (hwrite : (Ty.seq k e).sem.shiftLeft x b = .ok () b₁) :
    RestoredAlone b (.seq k e) x ↔
      k.items x = [] ∨ (e.Silent = true ∧ ∀ i ∈ k.items x, i = e.sem.fresh) := by
  obtain ⟨hbytes, y, hreads, hfresh, hback, hsame⟩ := seq_unlisted en he hk x
  have hcount : (countBytes (k.items x).length).length ≤ 10 := length_varint_le 9 (by decide) _
  rw [restoredAlone_iff hb hpos hsize hwrite hbytes (by omega) hreads, hsame, List.flatMap_eq_nil_iff]
  constructor
  · rintro ⟨hsilent, hall⟩
    by_cases hempty : k.items x = []
    · exact .inl hempty
    · right
      obtain ⟨i, hi⟩ := List.exists_mem_of_ne_nil _ hempty
      exact ⟨(e.bytes_eq_nil_iff i).1 (hsilent i hi), eq_fresh_of_forall₂ hall hfresh⟩
  · intro h
    have hall : ∀ i ∈ k.items x, i = e.sem.fresh := by
      rcases h with hempty | ⟨-, hall⟩
      · rw [hempty]; exact fun i hi => absurd hi List.not_mem_nil
      · exact hall
    refine ⟨?_, ?_⟩
    · intro i hi
      rcases h with hempty | ⟨hsilent, -⟩
      · rw [hempty] at hi; exact absurd hi List.not_mem_nil
      · exact (e.bytes_eq_nil_iff i).2 hsilent
    · rw [hback hall]
      exact List.forall₂_same.2 fun i _ => e.same_refl i

/-- A list, vector or set of elements that are not scalars, written to a fresh serializer, comes back if and only if
it is empty, or nothing is written for its elements and all of them are what a fresh object is. -/
theorem nested_restored_iff [Host] {b : ByteArray} (hnew : Serializer.new = .ok b) {k : SeqKind}
    (hk : k = .list ∨ k = .vector ∨ k = .set) {e : Ty} (he : e.isScalar = false) {x : (Ty.seq k e).sem.Val}
    {b₁ : ByteArray} (hwrite : (Ty.seq k e).sem.shiftLeft x b = .ok () b₁) :
    RestoredAlone b (.seq k e) x ↔
      k.items x = [] ∨ (e.Silent = true ∧ ∀ i ∈ k.items x, i = e.sem.fresh) := by
  obtain ⟨hb, hbase, hpos, hsize, -⟩ := new_ready hnew
  exact seq_restored_iff hb hpos hsize (by rw [hbase]; decide) hk he hwrite

section

attribute [local instance] Host.zeroed

/-- An empty vector of pairs comes back. -/
theorem nested_restored_iff_pairs :
    ∃ b : ByteArray, Serializer.new = .ok b ∧
      RestoredAlone b (.seq .vector (.pair (.scalar .int32) (.scalar .string))) Collection.empty :=
  have hnew : Serializer.new = .ok _ := rfl
  have ⟨_, hwrite⟩ := exists_write hnew (t := .seq .vector (.pair (.scalar .int32) (.scalar .string)))
    Collection.empty (by decide)
  ⟨_, hnew, (nested_restored_iff hnew (.inr (.inl rfl)) rfl hwrite).2 (.inl rfl)⟩

/-- A vector that holds the vector of the byte 1 is written, and does not come back. -/
theorem not_restored_vector_of_vector :
    ∃ (b b₁ : ByteArray) (x : (Ty.seq .vector (.seq .vector (.scalar .uint8))).sem.Val),
      Serializer.new = .ok b ∧ (Ty.seq .vector (.seq .vector (.scalar .uint8))).sem.shiftLeft x b = .ok () b₁ ∧
        ¬ RestoredAlone b (.seq .vector (.seq .vector (.scalar .uint8))) x := by
  let inner : (Ty.seq .vector (.scalar .uint8)).sem.Val := ⟨[1#8], by decide, by decide⟩
  let x : (Ty.seq .vector (.seq .vector (.scalar .uint8))).sem.Val :=
    ⟨[inner], List.pairwise_singleton _ _, by decide⟩
  have hnew : Serializer.new = .ok _ := rfl
  obtain ⟨hb, hbase, hpos, hsize, -⟩ := new_ready hnew
  obtain ⟨b₁, hwrite⟩ := exists_write hnew x (by decide)
  refine ⟨_, b₁, x, hnew, hwrite, ?_⟩
  rw [seq_restored_iff hb hpos hsize (by rw [hbase]; decide) (.inr (.inl rfl)) rfl hwrite]
  rintro (hempty | ⟨hsilent, -⟩)
  · cases hempty
  · cases hsilent

end

end Serializer

/-! ### Maps -/

theorem Scalar.read_nothing [Host] (s : Scalar) {b : ByteArray} (h : b.size - b.position = 0) :
    s.read b = .error (.throws .outOfRange) b := by
  have hshort : ∀ n, ByteArray.read (n + 1) b = .error (.throws .outOfRange) b := fun n => read_short (by omega)
  have hbyte : readFixInt8 b = .error (.throws .outOfRange) b := Op.bind_of_error (hshort 0)
  have hvar : ∀ {w : Nat} (rounds shift : Nat) (result : BitVec w),
      readVarUintLoop (rounds + 1) shift result b = .error (.throws .outOfRange) b :=
    fun _ _ _ => Op.bind_of_error hbyte
  cases s with
  | bool => exact Op.bind_of_error hbyte
  | int8 | uint8 => exact hbyte
  | int16 | uint16 => exact Op.bind_of_error (hshort 1)
  | float => exact Op.bind_of_error (hshort 3)
  | double => exact Op.bind_of_error (hshort 7)
  | int32 | int64 => exact Op.bind_of_error (hvar _ 0 _)
  | uint32 | uint64 => exact hvar _ 0 _
  | string => exact Op.bind_of_error (hvar _ 0 _)

/-- A map's entries are missing from its serialized form. -/
private theorem assoc_bytes [Host] {key value : Ty} (k : AssocKind) (x : (Ty.assoc k key value).sem.Val) :
    (Ty.assoc k key value).bytes en x = countBytes (k.items x).length := by
  cases k with
  | map | unorderedMap | multimap | unorderedMultimap =>
    show countBytes (Collection.items x).length ++ (Collection.items x).flatMap (fun _ => []) = _
    rw [List.flatMap_eq_nil_iff.2 fun _ _ => rfl, List.append_nil]
    rfl

private theorem assoc_read_throws [Host] {K V : Scalar} (k : AssocKind) {n : Nat} (hn : 0 < n) (hmax : n < 2 ^ 64)
    {b : ByteArray} (hb : Ready en b) (hroom : b.position + (countBytes n).length < b.baseSize)
    (hu : b.unread = countBytes n) :
    ∃ b', (Ty.assoc k (.scalar K) (.scalar V)).sem.shiftRight (Ty.assoc k (.scalar K) (.scalar V)).sem.fresh b =
      .error (.throws .outOfRange) b' := by
  have hsize : Reads en (Scalar.read .uint64) (countBytes n) (BitVec.ofNat 64 n) := Scalar.reads_read .uint64 _
  have hcount := hsize b [] hb hroom (hu.trans (List.append_nil _).symm)
  have hlen := hb.valid.length_unread
  rw [hu] at hlen
  have hnothing := K.read_nothing (b := b.moveTo (b.position + (countBytes n).length))
    (show b.size - (b.position + (countBytes n).length) = 0 by omega)
  have hn64 : (BitVec.ofNat 64 n).toNat = n := by rw [BitVec.toNat_ofNat, Nat.mod_eq_of_lt hmax]
  obtain ⟨m, rfl⟩ : ∃ m, n = m + 1 := ⟨n - 1, by omega⟩
  refine ⟨b.moveTo (b.position + (countBytes (m + 1)).length), ?_⟩
  cases k with
  | map | unorderedMap | multimap | unorderedMultimap =>
    refine (Op.bind_of_ok hcount).trans ?_
    rw [hn64]
    exact Op.bind_of_error (Op.bind_of_error hnothing)

namespace Serializer

private theorem assoc_empty [Host] {K V : CppType} {k : AssocKind} {x : (k.sem K V).Val} (h : k.items x = []) :
    Reads en ((k.sem K V).shiftRight (k.sem K V).fresh) (countBytes (k.items x).length) x := by
  cases k with
  | map | unorderedMap | multimap | unorderedMultimap =>
    have hx : Collection.empty = x := Collection.ext h.symm
    have hloop : Reads en ((CppType.assoc _ K V).shiftRight .empty)
        (countBytes (Collection.items x).length ++ ([] : List (List Byte × (K.Val × V.Val))).flatMap Prod.fst) x :=
      CppType.reads_container (CppType.pair K V).Same (congrArg List.length h).symm
        (fun piece hpiece => absurd hpiece List.not_mem_nil) (congrArg some hx)
    rwa [List.flatMap_nil, List.append_nil] at hloop

private theorem assoc_bounded [Host] {K V : CppType} {k : AssocKind} (x : (k.sem K V).Val) :
    (k.items x).length < 2 ^ 64 := by
  have h : (k.items x).length ≤ maxElements := by cases k <;> exact Collection.bounded x
  unfold maxElements at h
  omega

private theorem write_assoc [Host] {b : ByteArray} (hnew : Serializer.new = .ok b) (k : AssocKind) (K V : Scalar)
    (x : (Ty.assoc k (.scalar K) (.scalar V)).sem.Val) :
    (countBytes (k.items x).length).length < b.baseSize ∧
      ∃ b₁, (Ty.assoc k (.scalar K) (.scalar V)).sem.shiftLeft x b = .ok () b₁ := by
  obtain ⟨-, hbase, -⟩ := new_ready hnew
  have hcount : (countBytes (k.items x).length).length ≤ 10 := length_varint_le 9 (by decide) _
  have hroom : (countBytes (k.items x).length).length < b.baseSize := by
    rw [hbase]
    exact Nat.lt_of_le_of_lt hcount (by decide)
  exact ⟨hroom, exists_write hnew x (by rw [assoc_bytes, ← hbase]; exact hroom)⟩

/-- Reading the entries that were not written throws. -/
private theorem map_items_of_restored [Host] {b : ByteArray} (hnew : Serializer.new = .ok b) (k : AssocKind)
    (K V : Scalar) (x : (Ty.assoc k (.scalar K) (.scalar V)).sem.Val)
    (h : RestoredAlone b (.assoc k (.scalar K) (.scalar V)) x) : k.items x = [] := by
  by_contra hne
  obtain ⟨y, mark, b', heq, -⟩ := h
  obtain ⟨hb, -, hpos, hsize, -⟩ := new_ready hnew
  obtain ⟨hroom, b₁, hwrite⟩ := write_assoc hnew k K V x
  obtain ⟨hready, hbase₁, hunread, htrip⟩ := roundTrip_alone hb hpos hsize hwrite
  obtain ⟨b₂, hthrow⟩ := assoc_read_throws (K := K) (V := V) k (List.length_pos_iff.2 hne) (assoc_bounded x)
    hready (by rw [hbase₁]; exact (Nat.zero_add _).symm ▸ hroom) (hunread.trans (assoc_bytes k x))
  have hback : readAll [Ty.assoc k (.scalar K) (.scalar V)] (b₁.moveTo 0) = .error (.throws .outOfRange) b₂ :=
    Op.bind_of_error hthrow
  rw [htrip, Op.bind_of_error hback] at heq
  cases heq

/-- A map from scalars or strings to scalars or strings, written to a fresh serializer, comes back if and only if it is
empty. -/
theorem map_restored_iff [Host] {b : ByteArray} (hnew : Serializer.new = .ok b) (k : AssocKind) (K V : Scalar)
    (x : (Ty.assoc k (.scalar K) (.scalar V)).sem.Val) :
    RestoredAlone b (.assoc k (.scalar K) (.scalar V)) x ↔ k.items x = [] := by
  refine ⟨map_items_of_restored hnew k K V x, fun hempty => ?_⟩
  obtain ⟨hb, -, hpos, hsize, -⟩ := new_ready hnew
  obtain ⟨hroom, b₁, hwrite⟩ := write_assoc hnew k K V x
  exact (restoredAlone_iff hb hpos hsize hwrite ((assoc_bytes k x).trans (List.append_nil _).symm) hroom
    (assoc_empty hempty)).2 ⟨rfl, Ty.same_refl _ x⟩

section

attribute [local instance] Host.zeroed

/-- The empty map comes back. -/
theorem map_restored_iff_empty :
    ∃ b : ByteArray, Serializer.new = .ok b ∧
      RestoredAlone b (.assoc .map (.scalar .string) (.scalar .int64)) Collection.empty :=
  have hnew : Serializer.new = .ok _ := rfl
  ⟨_, hnew, (map_restored_iff hnew .map .string .int64 Collection.empty).2 rfl⟩

/-- Reading back the map of 1 to 2 throws. -/
theorem not_restored_map :
    ∃ (b : ByteArray) (x : (Ty.assoc .map (.scalar .uint8) (.scalar .uint8)).sem.Val),
      Serializer.new = .ok b ∧ ¬ RestoredAlone b (.assoc .map (.scalar .uint8) (.scalar .uint8)) x := by
  have hnew : Serializer.new = .ok _ := rfl
  refine ⟨_, ⟨[(1#8, 2#8)], List.pairwise_singleton _ _, by decide⟩, hnew, ?_⟩
  intro h
  exact absurd (map_items_of_restored hnew .map .uint8 .uint8 _ h) (List.cons_ne_nil _ _)

end

end Serializer

end AcidCompute

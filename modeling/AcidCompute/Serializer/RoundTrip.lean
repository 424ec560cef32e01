import AcidCompute.Serializer.Format
import Mathlib.Data.List.Forall2

/-!
# Values written and read back in a row

A sender writes any number of values, resets the serializer and reads fresh values of the same types.  For plain types
whose total encoding stays inside the first block, every value comes back and every read ends where its write ended
(`roundTrip_of_plain`).
-/

namespace AcidCompute

open AcidCompute.ByteArray

/-! ### Equality of values is reflexive -/

namespace CppType

private theorem same_container [Host] {α : Type} (d : Discipline) {C : Comparison α} (Same : α → α → Prop)
    {item : Op ByteArray α} {put : α → Op ByteArray Unit} (h : ∀ x, Same x x) (t : Collection d C) :
    (container d C Same item put).Same t t := by
  have hitems : List.Forall₂ Same t.items t.items := List.forall₂_same.2 fun x _ => h x
  cases d with
  | unordered | unorderedMulti => exact List.Perm.refl _
  | sequence | ordered | orderedMulti => exact hitems

private theorem same_seq [Host] (k : SeqKind) {T : CppType} (h : ∀ x, T.Same x x) (t : (k.sem T).Val) :
    (k.sem T).Same t t := by
  cases k <;> exact same_container _ T.Same h t

private theorem same_assoc [Host] (k : AssocKind) {K V : CppType} (hK : ∀ x, K.Same x x) (hV : ∀ x, V.Same x x)
    (t : (k.sem K V).Val) : (k.sem K V).Same t t := by
  cases k <;> exact same_container _ (pair K V).Same (fun x => ⟨hK x.1, hV x.2⟩) t

end CppType

mutual

theorem Ty.same_refl [Host] : (t : Ty) → (x : t.sem.Val) → t.sem.Same x x
  | .scalar _, _ => rfl
  | .seq k e, x => CppType.same_seq k e.same_refl x
  | .assoc k key value, x => CppType.same_assoc k key.same_refl value.same_refl x
  | .pair first second, x => ⟨first.same_refl x.1, second.same_refl x.2⟩
  | .tuple args, x => args.same_refl x

theorem Tys.same_refl [Host] : (ts : Tys) → (x : ts.sem.Val) → ts.sem.Same x x
  | .nil, _ => trivial
  | .cons t args, x => ⟨t.same_refl x.1, args.same_refl x.2⟩

end

namespace Serializer

/-! ### Sequences of values -/

/-- A value together with its type. -/
structure Datum [Host] where
  type : Ty
  value : type.sem.Val

/-- A value that has been read in place of another one. -/
inductive Restores [Host] : Datum → Datum → Prop
  | intro (t : Ty) (x y : t.sem.Val) (h : t.sem.Same x y) : Restores ⟨t, x⟩ ⟨t, y⟩

/-- `<<` for one value after another; the positions behind each of them. -/
def writeAll [Host] : List Datum → Op ByteArray (List Nat)
  | [] => return []
  | d :: ds => do
    d.type.sem.shiftLeft d.value
    let b ← get
    let marks ← writeAll ds
    return b.position :: marks

/-- `>>` into a fresh object of one type after another; the values and the positions behind each of them. -/
def readAll [Host] : List Ty → Op ByteArray (List (Datum × Nat))
  | [] => return []
  | t :: ts => do
    let value ← t.sem.shiftRight t.sem.fresh
    let b ← get
    let rest ← readAll ts
    return (⟨t, value⟩, b.position) :: rest

/-- Write all, reset, and read as many values of the same types. -/
def roundTrip [Host] (ds : List Datum) : Op ByteArray (List Nat × List (Datum × Nat)) := do
  let marks ← writeAll ds
  reset
  let back ← readAll (ds.map Datum.type)
  return (marks, back)

/-- The serialized form of the values. -/
def encoding [Host] (en : Endian) (ds : List Datum) : List Byte := ds.flatMap fun d => d.type.bytes en d.value

/-- The values together with the positions behind their encodings, from position `p` on. -/
def marked [Host] (en : Endian) : Nat → List Datum → List (Datum × Nat)
  | _, [] => []
  | p, d :: ds =>
    let p' := p + (d.type.bytes en d.value).length
    (d, p') :: marked en p' ds

variable {en : Endian}

@[simp] theorem map_fst_marked [Host] (p : Nat) (ds : List Datum) : (marked en p ds).map Prod.fst = ds := by
  induction ds generalizing p with
  | nil => rfl
  | cons d ds ih => simp [marked, ih]

private theorem writeAll_spec [Host] (ds : List Datum) {b : ByteArray} (hb : Ready en b)
    (hfits : b.Fits (encoding en ds).length) :
    ∃ b', writeAll ds b = .ok ((marked en b.position ds).map Prod.snd) b' ∧ Written b (encoding en ds) b' := by
  induction ds generalizing b with
  | nil =>
    exact ⟨b, rfl, hb.valid, hb.synced, rfl, rfl, rfl, (overwrite_nil _ _).symm, Nat.le_refl _⟩
  | cons d ds ih =>
    have hsplit : encoding en (d :: ds) = d.type.bytes en d.value ++ encoding en ds := rfl
    rw [hsplit, List.length_append] at hfits
    rcases (d.type.format en).writes_shiftLeft d.value b hb with ⟨b₁, heq, h₁⟩ | ⟨hfull, -⟩
    · have hp₁ : b₁.position = b.position + (d.type.bytes en d.value).length := h₁.position_eq
      obtain ⟨b₂, heq₂, h₂⟩ := ih (h₁.ready hb) (h₁.fits hfits)
      refine ⟨b₂, ?_, h₁.trans hb.valid h₂⟩
      unfold writeAll
      rw [Op.bind_of_ok heq, Op.get_bind_apply, Op.bind_of_ok heq₂, hp₁]
      rfl
    · exact absurd (hfits.mono (Nat.le_add_right _ _)) hfull

private theorem readAll_spec [Host] (ds : List Datum) (hplain : ∀ d ∈ ds, d.type.Plain = true) {b : ByteArray}
    {rest : List Byte} (hb : Ready en b) (hroom : b.position + (encoding en ds).length < b.baseSize)
    (hu : b.unread = encoding en ds ++ rest) :
    readAll (ds.map Datum.type) b =
      .ok (marked en b.position ds) (b.moveTo (b.position + (encoding en ds).length)) := by
  induction ds generalizing b with
  | nil => exact (Reads.nil []) b rest hb hroom hu
  | cons d ds ih =>
    have hsplit : encoding en (d :: ds) = d.type.bytes en d.value ++ encoding en ds := rfl
    rw [hsplit, List.append_assoc] at hu
    rw [hsplit, List.length_append] at hroom ⊢
    have hread := d.type.reads_plain (hplain d List.mem_cons_self) d.value b _ hb (by omega) hu
    have hb₁ := hb.moveTo (position_le_of_unread hb.valid hu)
    have hrest := ih (fun x hx => hplain x (List.mem_cons_of_mem d hx)) hb₁
      (show b.position + (d.type.bytes en d.value).length + (encoding en ds).length < b.baseSize by omega)
      (unread_moveTo hu)
    rw [List.map_cons]
    unfold readAll
    rw [Op.bind_of_ok hread, Op.get_bind_apply, Op.bind_of_ok hrest, ← Nat.add_assoc]
    rfl

/-- Values of plain types whose encodings fill less than the first block come back equal, each from the bytes of its
own write. -/
theorem roundTrip_of_plain [Host] {baseSize : Nat} {b : ByteArray} (hnew : ByteArray.new baseSize en = .ok b)
    (ds : List Datum) (hplain : ∀ d ∈ ds, d.type.Plain = true) (hshort : (encoding en ds).length < baseSize) :
    ∃ (back : List (Datum × Nat)) (b' : ByteArray),
      roundTrip ds b = .ok (back.map Prod.snd, back) b' ∧ b'.content = encoding en ds ∧
        List.Forall₂ Restores ds (back.map Prod.fst) := by
  have hb := holds_of_new (by omega) hnew
  obtain ⟨b₁, hwrite, h₁⟩ := writeAll_spec ds hb.ready (hb.fits_of_lt hshort)
  have hholds := hb.rewind h₁
  have hread := readAll_spec ds hplain hholds.ready
    (show 0 + (encoding en ds).length < b₁.baseSize by rw [h₁.base_eq, hb.base_eq]; omega)
    (show (b₁.moveTo 0).unread = encoding en ds ++ [] by rw [hholds.unread_eq, List.append_nil])
  refine ⟨marked en 0 ds, b₁.moveTo (0 + (encoding en ds).length), ?_, hholds.content_eq, ?_⟩
  · unfold roundTrip
    rw [Op.bind_of_ok hwrite, hb.position_eq, reset, Op.bind_of_ok (setPosition_zero h₁.valid), Op.bind_of_ok hread]
    rfl
  · rw [map_fst_marked]
    exact List.forall₂_same.2 fun d _ => .intro d.type _ _ (d.type.same_refl d.value)

section

attribute [local instance] Host.zeroed

/-- A tuple of a negative number and a set, and a string, in blocks of sixteen bytes. -/
theorem roundTrip_of_plain_sixteen :
    ∃ (ds : List Datum) (b : ByteArray) (back : List (Datum × Nat)) (b' : ByteArray),
      ByteArray.new 16 .big = .ok b ∧ ds.length = 2 ∧ roundTrip ds b = .ok (back.map Prod.snd, back) b' ∧
        b'.content = encoding .big ds ∧ List.Forall₂ Restores ds (back.map Prod.fst) :=
  let ds : List Datum :=
    [⟨.tuple (.cons (.scalar .int32) (.cons (.seq .set (.scalar .uint8)) .nil)),
        (-1#32, ⟨[3#8, 7#8], by decide, by decide⟩, ())⟩,
      ⟨.scalar .string, [104#8, 105#8]⟩]
  let ⟨back, b', h⟩ := roundTrip_of_plain (show ByteArray.new 16 .big = .ok _ from rfl) ds (by decide) (by decide)
  ⟨ds, _, back, b', rfl, rfl, h⟩

end

end Serializer

end AcidCompute

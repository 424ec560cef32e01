import AcidCompute.Rpc.Result
import AcidCompute.Serializer.Nested

/-!
# Results one after another

The value of a `Result` is written whatever its code is, and read after a success only.  So in a sequence of results a
failure leaves the bytes of its value in front of the next result, unless its type has none (`aligned_iff`).
-/

namespace AcidCompute

open AcidCompute.ByteArray

/-- A type that the serializer handles: `>>` gives back what `<<` wrote, from just these bytes.  As a `Result` writes a
value that is not `const`, a pair would be written by the overload that ends without a return. -/
def Ty.Handled [Host] (en : Endian) (t : Ty) : Prop :=
  (∀ K V, t ≠ .pair K V) ∧
    ∀ x : t.sem.Val, ∃ y, t.sem.Same x y ∧ Reads en (t.sem.shiftRight t.sem.fresh) (t.bytes en x) y

/-- Scalars, strings, containers of them and tuples are handled. -/
theorem Ty.handled_of_plain [Host] (en : Endian) {t : Ty} (h : t.Plain = true) : t.Handled en := by
  refine ⟨?_, fun x => ⟨x, t.same_refl x, t.reads_plain h x⟩⟩
  rintro K V rfl
  cases h

namespace Result

section

variable [Host] {T : CppType}

/-- `<<` for one result after another; the positions behind each of them. -/
def writeAll : List (Result T) → Op ByteArray (List Nat)
  | [] => return []
  | r :: rs => do
    r.write
    let b ← get
    let marks ← writeAll rs
    return b.position :: marks

/-- `>>` into `count` fresh results; the positions behind each of them. -/
def readAll (T : CppType) : Nat → Op ByteArray (List (Result T × Nat))
  | 0 => return []
  | count + 1 => do
    let r ← (empty T).read
    let b ← get
    let rest ← readAll T count
    return (r, b.position) :: rest

def roundTrip (rs : List (Result T)) : Op ByteArray (List Nat × List (Result T × Nat)) := do
  let marks ← writeAll rs
  Serializer.reset
  let back ← readAll T rs.length
  return (marks, back)

end

/-- The same code and message, and after a success the same value. -/
def Agrees {T : CppType} (r r' : Result T) : Prop :=
  r'.code = r.code ∧ r'.message = r.message ∧ (r.code = RpcState.success.code → T.Same r.value r'.value)

/-- Each result comes back from the bytes that were written for it. -/
def Aligned [Host] {T : CppType} (b : ByteArray) (rs : List (Result T)) : Prop :=
  ∃ (back : List (Result T × Nat)) (b' : ByteArray),
    roundTrip rs b = .ok (back.map Prod.snd, back) b' ∧ List.Forall₂ Agrees rs (back.map Prod.fst)

variable {en : Endian} {T : CppType} (f : Format en T)

/-- The serialized form of the results. -/
def encoding (rs : List (Result T)) : List Byte := rs.flatMap (bytes f)

/-- The positions behind the encodings of the results, from position `p` on. -/
def marks : Nat → List (Result T) → List Nat
  | _, [] => []
  | p, r :: rs => (p + (r.bytes f).length) :: marks (p + (r.bytes f).length) rs

private theorem writeAll_spec [Host] (rs : List (Result T)) {b : ByteArray} (hb : Ready en b)
    (hfits : b.Fits (encoding f rs).length) :
    ∃ b', writeAll rs b = .ok (marks f b.position rs) b' ∧ Written b (encoding f rs) b' := by
  induction rs generalizing b with
  | nil => exact ⟨b, rfl, hb.valid, hb.synced, rfl, rfl, rfl, (overwrite_nil _ _).symm, Nat.le_refl _⟩
  | cons r rs ih =>
    have hsplit : encoding f (r :: rs) = r.bytes f ++ encoding f rs := rfl
    rw [hsplit, List.length_append] at hfits
    rcases writes_write f r b hb with ⟨b₁, heq, h₁⟩ | ⟨hfull, -⟩
    · have hposition : b₁.position = b.position + (r.bytes f).length := h₁.position_eq
      obtain ⟨b₂, heq₂, h₂⟩ := ih (h₁.ready hb) (h₁.fits hfits)
      refine ⟨b₂, ?_, h₁.trans hb.valid h₂⟩
      unfold writeAll marks
      rw [Op.bind_of_ok heq, Op.get_bind_apply, Op.bind_of_ok heq₂, hposition]
      rfl
    · exact absurd (hfits.mono (Nat.le_add_right _ _)) hfull

/-- Once the first result has been read, the others are read from where it ends. -/
private theorem readAll_succ_eq_ok [Host] {count : Nat} {r : Result T} {b b₁ b' : ByteArray}
    {back : List (Result T × Nat)} (hfirst : (empty T).read b = .ok r b₁) :
    readAll T (count + 1) b = .ok back b' ↔
      ∃ others, readAll T count b₁ = .ok others b' ∧ (r, b₁.position) :: others = back := by
  have hstep : readAll T (count + 1) b =
      (do
        let b ← get
        let rest ← readAll T count
        return (r, b.position) :: rest : Op ByteArray _) b₁ := Op.bind_of_ok hfirst
  rw [hstep, Op.get_bind_apply, Op.bind_eq_ok]
  constructor
  · rintro ⟨others, b₂, hothers, heq⟩
    cases heq
    exact ⟨others, hothers, rfl⟩
  · rintro ⟨others, hothers, rfl⟩
    exact ⟨others, b', hothers, rfl⟩

/-- What a result is read as, and from how many of its bytes. -/
private theorem exists_read [Host] (hhandled : ∀ x, ∃ y, T.Same x y ∧ Reads en (T.shiftRight T.uninit) (f.bytes x) y)
    (r : Result T) :
    ∃ r' front rest, r.bytes f = front ++ rest ∧ Reads en (empty T).read front r' ∧ Agrees r r' ∧
      (rest = [] ↔ r.code = RpcState.success.code ∨ f.bytes r.value = []) := by
  by_cases hcode : r.code = RpcState.success.code
  · obtain ⟨y, hsame, hvalue⟩ := hhandled r.value
    exact ⟨⟨r.code, r.message, y⟩, r.bytes f, [], (List.append_nil _).symm, reads_success (empty T) hcode hvalue,
      ⟨rfl, rfl, fun _ => hsame⟩, iff_of_true rfl (.inl hcode)⟩
  · refine ⟨⟨r.code, r.message, T.uninit⟩, _, f.bytes r.value, ?_, reads_failure hcode r.message (empty T),
      ⟨rfl, rfl, fun hsuccess => absurd hsuccess hcode⟩, ?_⟩
    · rw [bytes, List.append_nil, List.append_assoc]
    · exact ⟨.inr, fun h => h.resolve_left hcode⟩

private theorem readAll_iff [Host] (hhandled : ∀ x, ∃ y, T.Same x y ∧ Reads en (T.shiftRight T.uninit) (f.bytes x) y)
    (rs : List (Result T)) {b : ByteArray} (hb : Ready en b)
    (hroom : b.position + (encoding f rs).length < b.baseSize) {rest : List Byte}
    (hu : b.unread = encoding f rs ++ rest) :
    (∃ back b', readAll T rs.length b = .ok back b' ∧ back.map Prod.snd = marks f b.position rs ∧
      List.Forall₂ Agrees rs (back.map Prod.fst)) ↔
      ∀ r ∈ rs, r.code = RpcState.success.code ∨ f.bytes r.value = [] := by
  induction rs generalizing b with
  | nil => exact iff_of_true ⟨[], b, rfl, rfl, List.Forall₂.nil⟩ (List.forall_mem_nil _)
  | cons r rs ih =>
    have hsplit : encoding f (r :: rs) = r.bytes f ++ encoding f rs := rfl
    obtain ⟨r', front, left, hbytes, hread, hagrees, hleft⟩ := exists_read f hhandled r
    rw [hsplit, hbytes, List.append_assoc, List.append_assoc] at hu
    rw [hsplit, List.length_append, hbytes, List.length_append] at hroom
    have hfirst := hread b _ hb (by omega) hu
    have hready := hb.moveTo (position_le_of_unread hb.valid hu)
    have hmark : (r.bytes f).length = front.length + left.length := by rw [hbytes, List.length_append]
    rw [List.forall_mem_cons, ← hleft]
    by_cases hnone : left = []
    · -- the next result is read from where it was written
      subst hnone
      rw [List.length_nil, Nat.add_zero] at hmark
      have hrest := ih hready (by show b.position + front.length + (encoding f rs).length < b.baseSize; omega)
        (unread_moveTo hu)
      have hmarks_cons : marks f b.position (r :: rs) =
          (b.position + front.length) :: marks f (b.position + front.length) rs := by
        rw [← hmark]
        rfl
      rw [← hrest, hmarks_cons, List.length_cons]
      constructor
      · rintro ⟨back, b', heq, hmarks, hforall⟩
        obtain ⟨others, hothers, rfl⟩ := (readAll_succ_eq_ok hfirst).1 heq
        exact ⟨rfl, others, b', hothers, (List.cons.inj hmarks).2, (List.forall₂_cons.1 hforall).2⟩
      · rintro ⟨-, others, b', heq, hmarks, hforall⟩
        exact ⟨(r', b.position + front.length) :: others, b', (readAll_succ_eq_ok hfirst).2 ⟨others, heq, rfl⟩,
          congrArg _ hmarks, .cons hagrees hforall⟩
    · -- the bytes of the value are left
      refine iff_of_false ?_ fun hall => hnone hall.1
      rintro ⟨back, b', heq, hmarks, -⟩
      obtain ⟨others, -, rfl⟩ := (readAll_succ_eq_ok hfirst).1 heq
      have hstop : b.position + front.length = b.position + (r.bytes f).length := (List.cons.inj hmarks).1
      have hsome := List.length_pos_iff.2 hnone
      omega

private theorem aligned_iff_bytes [Host] {baseSize : Nat} {b : ByteArray} (hnew : ByteArray.new baseSize en = .ok b)
    (hhandled : ∀ x, ∃ y, T.Same x y ∧ Reads en (T.shiftRight T.uninit) (f.bytes x) y) {rs : List (Result T)}
    (hshort : (encoding f rs).length < baseSize) :
    Aligned b rs ↔ ∀ r ∈ rs, r.code = RpcState.success.code ∨ f.bytes r.value = [] := by
  have hb := holds_of_new (by omega) hnew
  obtain ⟨b₁, hwrite, h₁⟩ := writeAll_spec f rs hb.ready (hb.fits_of_lt hshort)
  have hholds := hb.rewind h₁
  have hunread : (b₁.moveTo 0).unread = encoding f rs ++ [] := by rw [hholds.unread_eq, List.append_nil]
  have hread := readAll_iff f hhandled rs hholds.ready
    (by rw [hholds.position_eq, hholds.base_eq]; omega) hunread
  have htrip : roundTrip rs b =
      (do
        let back ← readAll T rs.length
        return (marks f 0 rs, back) : Op ByteArray _) (b₁.moveTo 0) := by
    unfold roundTrip
    rw [Op.bind_of_ok hwrite, hb.position_eq, Serializer.reset, Op.bind_of_ok (setPosition_zero h₁.valid)]
  rw [← hread]
  unfold Aligned
  rw [htrip]
  constructor
  · rintro ⟨back, b', heq, hforall⟩
    obtain ⟨back₂, b₂, hall, heq⟩ := Op.bind_eq_ok.1 heq
    injection heq with hpair
    obtain ⟨hmarks, rfl⟩ := Prod.mk.inj hpair
    exact ⟨back₂, b₂, hall, hmarks.symm, hforall⟩
  · rintro ⟨back, b', hall, hmarks, hforall⟩
    refine ⟨back, b', ?_, hforall⟩
    rw [Op.bind_of_ok hall, hmarks]
    rfl

/-- Results of a type that the serializer handles, written one after another into the first block, come back aligned
if and only if each of them is a success, or nothing is written for their values. -/
theorem aligned_iff [Host] {baseSize : Nat} {b : ByteArray} (hnew : ByteArray.new baseSize en = .ok b) {t : Ty}
    (ht : t.Handled en) (rs : List (Result t.sem)) (hshort : (encoding (t.format en) rs).length < baseSize) :
    Aligned b rs ↔ ∀ r ∈ rs, r.code = RpcState.success.code ∨ t.Silent = true := by
  have hhandled : ∀ x : t.sem.Val, ∃ y, t.sem.Same x y ∧ Reads en (t.sem.shiftRight t.sem.uninit) (t.bytes en x) y := by
    rw [t.shiftRight_uninit]
    exact ht.2
  rw [aligned_iff_bytes (t.format en) hnew hhandled hshort]
  exact forall₂_congr fun r _ => or_congr Iff.rfl (t.bytes_eq_nil_iff r.value)

section

attribute [local instance] Host.zeroed

/-- Two results without a message, in blocks of sixteen bytes. -/
theorem aligned_iff_sixteen :
    ∃ b : ByteArray, ByteArray.new 16 .big = .ok b ∧
      (Aligned b [(⟨0#16, [], 5#32⟩ : Result (Ty.scalar .int32).sem), ⟨0#16, [], 6#32⟩] ↔
        ∀ r ∈ [(⟨0#16, [], 5#32⟩ : Result (Ty.scalar .int32).sem), ⟨0#16, [], 6#32⟩],
          r.code = RpcState.success.code ∨ (Ty.scalar .int32).Silent = true) :=
  ⟨_, rfl, aligned_iff (show ByteArray.new 16 .big = .ok _ from rfl) (Ty.handled_of_plain .big rfl) _ (by decide)⟩

/-- Behind a failure of a function that returns an `int`, the result of a success is read from the value of the
failure on. -/
theorem not_aligned_failure :
    ∃ b : ByteArray, ByteArray.new 16 .big = .ok b ∧ (Ty.scalar .int32).Handled .big ∧
      (encoding ((Ty.scalar .int32).format .big)
        [(⟨1#16, [], 0#32⟩ : Result (Ty.scalar .int32).sem), ⟨0#16, [], 5#32⟩]).length < 16 ∧
      ¬ Aligned b [(⟨1#16, [], 0#32⟩ : Result (Ty.scalar .int32).sem), ⟨0#16, [], 5#32⟩] := by
  have hhandled := Ty.handled_of_plain .big (t := .scalar .int32) rfl
  have hnew : ByteArray.new 16 .big = .ok _ := rfl
  refine ⟨_, hnew, hhandled, by decide, ?_⟩
  rw [aligned_iff_bytes ((Ty.scalar .int32).format .big) hnew hhandled.2 (by decide)]
  intro hall
  rcases hall _ List.mem_cons_self with hcode | hnothing
  · revert hcode
    decide
  · revert hnothing
    decide

end

end Result

end AcidCompute

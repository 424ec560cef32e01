import AcidCompute.Base.Machine
import AcidCompute.Http.Session

/-!
# The buffer of `HttpSession::recv_request`

The loop of `recv_request` mixes an `int` offset with lengths that are unsigned numbers of 64 bits.  `read` returns such
a length, so that -1 for a failure becomes the greatest one, and only 0 is tested for.

As long as no read fails, all reads and all calls of the parser stay in the buffer (`Http.Buffer.safe_of_reaches`); the
sizes are those that `Http.recvLoop` meets (`Http.Buffer.run_events`).
-/

namespace AcidCompute

namespace Http

namespace Buffer

/-- Where the function is: in front of `read`, in front of `execute` with a length, or at its end, with a request or a
null pointer. -/
inductive Point
  | reading
  | executing (len : BitVec 64)
  | returned (request : Bool)
  deriving DecidableEq, Repr

structure State where
  -- an `int`
  offset : BitVec 32
  point : Point
  -- a read has returned -1
  failed : Bool
  deriving DecidableEq, Repr

inductive Event
  -- what `read` returns, a `size_t`
  | read (len : BitVec 64)
  -- what `execute` returns, and what `has_error()` and `is_finished()` are then
  | execute (nparsed : BitVec 64) (hasError isFinished : Bool)
  deriving DecidableEq, Repr

def initial : State := ⟨0, .reading, false⟩

-- `buffer_size`, a `uint64_t`
def bufferSize : BitVec 64 := BitVec.ofNat 64 requestBufferSize

/-- `buffer_size - offset`, what `read` is asked for. -/
def State.asked (s : State) : BitVec 64 := bufferSize - s.offset.signExtend 64

-- -1, returned as a `size_t`
def failure : BitVec 64 := BitVec.allOnes 64

/-- `execute` parses not more than it is given. -/
def Point.Parses (nparsed : BitVec 64) : Point → Prop
  | .executing len => nparsed ≤ len
  | .reading => False
  | .returned _ => False

instance (nparsed : BitVec 64) : (point : Point) → Decidable (point.Parses nparsed)
  | .executing len => inferInstanceAs (Decidable (nparsed ≤ len))
  | .reading => inferInstanceAs (Decidable False)
  | .returned _ => inferInstanceAs (Decidable False)

/-- `read` returns not more than it is asked for, or fails. -/
def Enabled (s : State) : Event → Prop
  | .read len => s.point = .reading ∧ (len = failure ∨ len ≤ s.asked)
  | .execute nparsed _ _ => s.point.Parses nparsed

instance (s : State) : (e : Event) → Decidable (Enabled s e)
  | .read len => inferInstanceAs (Decidable (s.point = .reading ∧ (len = failure ∨ len ≤ s.asked)))
  | .execute nparsed _ _ => inferInstanceAs (Decidable (s.point.Parses nparsed))

def next (s : State) : Event → State
  | .read len =>
    if len = 0 then { s with point := .returned false }
    else { s with point := .executing (len + s.offset.signExtend 64), failed := s.failed || decide (len = failure) }
  | .execute nparsed hasError isFinished =>
    match s.point with
    | .executing len =>
      if hasError then { s with point := .returned false }
      else
        let offset := (len - nparsed).setWidth 32
        if offset = bufferSize.setWidth 32 then { s with offset := offset, point := .returned false }
        else { s with offset := offset, point := if isFinished then .returned true else .reading }
    | _ => s

def machine : Machine State Event where
  start := initial
  step s e := if Enabled s e then some (next s e) else none

/-- The offset is in the buffer, `read` is asked for the space behind it, and the parser is given what is in the buffer;
when a read has failed the function has returned a null pointer. -/
structure Safe (s : State) : Prop where
  offset : 0 ≤ s.offset.toInt ∧ s.offset.toInt ≤ requestBufferSize
  asked : s.point = .reading → (s.asked.toNat : Int) ≤ requestBufferSize - s.offset.toInt
  len : ∀ len, s.point = .executing len → len.toNat ≤ requestBufferSize
  failed : s.failed = true → s.point = .returned false

/-- The read does not fail. -/
def Succeeds (_ : State) : Event → Prop
  | .read len => len ≠ failure
  | .execute _ _ _ => True

instance (s : State) : (e : Event) → Decidable (Succeeds s e)
  | .read len => inferInstanceAs (Decidable (len ≠ failure))
  | .execute _ _ _ => inferInstanceAs (Decidable True)

variable {s s' : State} {e : Event}

theorem machine_step (h : machine.step s e = some s') : Enabled s e ∧ next s e = s' := by
  simpa [machine] using h

/-! ### Numbers in the buffer -/

@[simp] private theorem toNat_bufferSize : bufferSize.toNat = requestBufferSize := rfl

/-- An offset in the buffer is the same number with all widths. -/
private theorem toNat_offset {offset : BitVec 32} (h : 0 ≤ offset.toInt ∧ offset.toInt ≤ requestBufferSize) :
    offset.toNat ≤ requestBufferSize ∧ offset.toInt = offset.toNat ∧ (offset.signExtend 64).toNat = offset.toNat := by
  have hsize : requestBufferSize = 1024 := rfl
  have hcond := BitVec.toInt_eq_toNat_cond offset
  have hlt := offset.isLt
  have hint : offset.toInt = offset.toNat := by
    split at hcond
    · exact hcond
    · omega
  refine ⟨by omega, hint, ?_⟩
  have hmsb : offset.msb = false := by
    rw [BitVec.msb_eq_decide]
    simp only [decide_eq_false_iff_not]
    omega
  rw [BitVec.signExtend_eq_setWidth_of_msb_false hmsb, BitVec.toNat_setWidth]
  omega

/-- What `read` is asked for is the space behind the offset. -/
private theorem toNat_asked {offset : BitVec 32} (h : 0 ≤ offset.toInt ∧ offset.toInt ≤ requestBufferSize) :
    (bufferSize - offset.signExtend 64).toNat + offset.toNat = requestBufferSize := by
  obtain ⟨hle, -, hwide⟩ := toNat_offset h
  have hsize : requestBufferSize = 1024 := rfl
  rw [BitVec.toNat_sub, hwide, toNat_bufferSize]
  omega

/-- What the parser leaves of a length in the buffer is an offset in the buffer. -/
private theorem toInt_rest {len nparsed : BitVec 64} (hlen : len.toNat ≤ requestBufferSize) (hle : nparsed ≤ len) :
    ((len - nparsed).setWidth 32).toInt = (len.toNat - nparsed.toNat : Nat) := by
  have hsize : requestBufferSize = 1024 := rfl
  have hparsed : nparsed.toNat ≤ len.toNat := hle
  have hsub : (len - nparsed).toNat = len.toNat - nparsed.toNat := by
    rw [BitVec.toNat_sub]
    omega
  rw [BitVec.toInt_eq_toNat_cond, BitVec.toNat_setWidth, hsub]
  split <;> omega

/-! ### Steps -/

theorem Safe.initial : Safe initial where
  offset := by decide
  asked _ := by decide
  len len hlen := by cases hlen
  failed hfailed := by cases hfailed

/-- In the loop no read has failed so far. -/
theorem Safe.not_failed (h : Safe s) (hpoint : s.point ≠ .returned false) : s.failed = false := by
  by_contra hfailed
  exact hpoint (h.failed (by simpa using hfailed))

/-- The function returns a null pointer. -/
theorem Safe.returned (h : Safe s) : Safe { s with point := .returned false } where
  offset := h.offset
  asked hpoint := by cases hpoint
  len len hlen := by cases hlen
  failed _ := rfl

theorem safe_read_iff (h : Safe s) {len : BitVec 64} (hpoint : s.point = .reading)
    (hlen : len = failure ∨ len ≤ s.asked) : Safe (next s (.read len)) ↔ len ≠ failure := by
  have hfailed := h.not_failed (by simp [hpoint])
  dsimp only [next]
  split
  case isTrue hzero =>
    refine iff_of_true h.returned ?_
    rw [hzero]
    decide
  case isFalse =>
    constructor
    · intro hsafe heq
      have hpoint' := hsafe.failed (by simp [heq])
      cases hpoint'
    · intro hne
      have hle : len.toNat ≤ s.asked.toNat := hlen.resolve_left hne
      have hasked : s.asked.toNat + s.offset.toNat = requestBufferSize := toNat_asked h.offset
      have hwide := (toNat_offset h.offset).2.2
      have hsize : requestBufferSize = 1024 := rfl
      refine ⟨h.offset, fun hreading => ?_, fun len' hlen' => ?_, fun hfailed' => ?_⟩
      · cases hreading
      · obtain rfl : len + s.offset.signExtend 64 = len' := Point.executing.inj hlen'
        rw [BitVec.toNat_add, hwide]
        omega
      · simp [hfailed, hne] at hfailed'

theorem Safe.execute (h : Safe s) {nparsed : BitVec 64} {hasError isFinished : Bool}
    (hparses : s.point.Parses nparsed) : Safe (next s (.execute nparsed hasError isFinished)) := by
  cases hpoint : s.point with
  | reading =>
    rw [hpoint] at hparses
    cases hparses
  | returned request =>
    rw [hpoint] at hparses
    cases hparses
  | executing len =>
    rw [hpoint] at hparses
    have hfailed := h.not_failed (by simp [hpoint])
    have hlen := h.len len hpoint
    have hrest := toInt_rest hlen hparses
    have hinside : 0 ≤ ((len - nparsed).setWidth 32).toInt ∧
        ((len - nparsed).setWidth 32).toInt ≤ requestBufferSize := by
      omega
    dsimp only [next]
    rw [hpoint]
    dsimp only
    split
    case isTrue => exact h.returned
    case isFalse =>
      split
      case isTrue =>
        refine ⟨hinside, fun hreading => ?_, fun len' hlen' => ?_, fun _ => rfl⟩
        · cases hreading
        · cases hlen'
      case isFalse =>
        refine ⟨hinside, fun _ => ?_, fun len' hlen' => ?_, fun hfailed' => ?_⟩
        · have hasked := toNat_asked hinside
          have hint := (toNat_offset hinside).2.1
          show ((bufferSize - ((len - nparsed).setWidth 32).signExtend 64).toNat : Int) ≤
            requestBufferSize - ((len - nparsed).setWidth 32).toInt
          omega
        · revert hlen'
          cases isFinished <;> simp
        · rw [hfailed] at hfailed'
          cases hfailed'

/-- A step leaves everything in the buffer just if it is not a read that fails. -/
theorem safe_iff (h : Safe s) (hstep : machine.step s e = some s') : Safe s' ↔ Succeeds s e := by
  obtain ⟨henabled, rfl⟩ := machine_step hstep
  cases e with
  | read len => exact safe_read_iff h henabled.1 henabled.2
  | execute nparsed hasError isFinished => exact iff_of_true (h.execute henabled) trivial

/-- The function stays in its buffer, and ends when a read fails, just in the runs in which no read fails. -/
theorem safe_of_reaches :
    (machine.Reaches (machine.Keeps Safe) initial s ↔ machine.Reaches Succeeds initial s) ∧
      (machine.Reaches Succeeds initial s → Safe s) := by
  constructor
  · exact Machine.reaches_keeps_iff (I := fun _ => True) trivial Safe.initial (fun _ _ _ _ _ => trivial)
      fun _ _ _ _ hs hstep => safe_iff hs hstep
  · intro h
    exact h.invariant (fun _ _ _ hs hsucceeds hstep => (safe_iff hs hstep).2 hsucceeds) Safe.initial

/-- The first read fails, and the parser is given `2 ^ 64 - 1` bytes. -/
theorem exists_overrun_firstRead : ∃ s, machine.Reaches Machine.any initial s ∧
    s.point = .executing (BitVec.allOnes 64) ∧ ¬ Safe s := by
  obtain ⟨s, hreach, hpoint⟩ : ∃ s, machine.Reaches Machine.any initial s ∧
      s.point = .executing (BitVec.allOnes 64) :=
    Machine.exists_reaches_of_run [.read failure] (fun _ _ _ => trivial) (by decide +kernel)
  exact ⟨s, hreach, hpoint, fun hsafe => absurd (hsafe.len _ hpoint) (by decide)⟩

/-- A request comes in two reads, and the parser leaves some of the first one. -/
theorem safe_of_reaches_twoReads : ∃ s, machine.Reaches Succeeds initial s ∧ s.point = .returned true ∧ Safe s := by
  obtain ⟨s, hreach, hpoint⟩ : ∃ s, machine.Reaches Succeeds initial s ∧ s.point = .returned true :=
    Machine.exists_reaches_of_guarded [.read 100, .execute 90 false false, .read 1014, .execute 1024 false true]
      (by decide +kernel)
  exact ⟨s, hreach, hpoint, safe_of_reaches.2 hreach⟩

/-! ### The loop over bytes -/

/-- In front of `read`, with so many bytes in the buffer. -/
def reading (n : Nat) : State := ⟨BitVec.ofNat 32 n, .reading, false⟩

section

variable {σ : Type} (P : HttpParser σ) (parseUrl : List Byte → Option UrlParts)

/-- The sizes that `recvLoop` meets. -/
def events (t : σ) (p : Parser HttpRequest) (data : List Byte) : List (List Byte) → List Event
  | [] => []
  | bytes :: reads =>
    if bytes = [] then [.read 0]
    else
      match execute P parseUrl t p (data ++ bytes) with
      | none => [.read (BitVec.ofNat 64 bytes.length), .execute 0 true false]
      | some (nparsed, t, p) =>
        let rest := (data ++ bytes).drop nparsed
        .read (BitVec.ofNat 64 bytes.length) :: .execute (BitVec.ofNat 64 nparsed) false p.finished ::
          if rest.length = requestBufferSize ∨ p.finished = true then [] else events t p rest reads

end

private theorem step_read {n m : Nat} (hn : n < requestBufferSize) (hm : m ≠ 0) (hle : m ≤ requestBufferSize)
    (hstep : machine.step (reading n) (.read (BitVec.ofNat 64 m)) = some s') :
    n + m ≤ requestBufferSize ∧ s' = ⟨BitVec.ofNat 32 n, .executing (BitVec.ofNat 64 (n + m)), false⟩ := by
  have hsize : requestBufferSize = 1024 := rfl
  obtain ⟨henabled, rfl⟩ := machine_step hstep
  have htoNat : (BitVec.ofNat 64 m).toNat = m := by
    rw [BitVec.toNat_ofNat]
    omega
  have hoffset : (BitVec.ofNat 32 n).toNat = n := by
    rw [BitVec.toNat_ofNat]
    omega
  have hinside : 0 ≤ (BitVec.ofNat 32 n).toInt ∧ (BitVec.ofNat 32 n).toInt ≤ requestBufferSize := by
    rw [BitVec.toInt_eq_toNat_cond, hoffset]
    split <;> omega
  have hne : BitVec.ofNat 64 m ≠ failure := by
    intro heq
    rw [heq] at htoNat
    have hall : failure.toNat = 2 ^ 64 - 1 := rfl
    omega
  have hzero : BitVec.ofNat 64 m ≠ 0 := by
    intro heq
    rw [heq] at htoNat
    exact hm htoNat.symm
  have hasked : (reading n).asked.toNat + (BitVec.ofNat 32 n).toNat = requestBufferSize := toNat_asked hinside
  have hle' : (BitVec.ofNat 64 m).toNat ≤ (reading n).asked.toNat := henabled.2.resolve_left hne
  have hsum : BitVec.ofNat 64 m + (BitVec.ofNat 32 n).signExtend 64 = BitVec.ofNat 64 (n + m) := by
    apply BitVec.eq_of_toNat_eq
    rw [BitVec.toNat_add, (toNat_offset hinside).2.2, htoNat, hoffset, Nat.add_comm, BitVec.toNat_ofNat]
  refine ⟨by omega, ?_⟩
  rw [next, if_neg hzero]
  simp [reading, hne, hsum]

private theorem next_execute {offset : BitVec 32} {len k : Nat} (hlen : len ≤ requestBufferSize) (hk : k ≤ len)
    (isFinished : Bool) :
    next ⟨offset, .executing (BitVec.ofNat 64 len), false⟩ (.execute (BitVec.ofNat 64 k) false isFinished) =
      if len - k = requestBufferSize then ⟨BitVec.ofNat 32 (len - k), .returned false, false⟩
      else ⟨BitVec.ofNat 32 (len - k), if isFinished then .returned true else .reading, false⟩ := by
  have hsize : requestBufferSize = 1024 := rfl
  have hrest : (BitVec.ofNat 64 len - BitVec.ofNat 64 k).setWidth 32 = BitVec.ofNat 32 (len - k) := by
    apply BitVec.eq_of_toNat_eq
    rw [BitVec.toNat_setWidth, BitVec.toNat_sub, BitVec.toNat_ofNat, BitVec.toNat_ofNat, BitVec.toNat_ofNat]
    omega
  have hfull : BitVec.ofNat 32 (len - k) = bufferSize.setWidth 32 ↔ len - k = requestBufferSize := by
    rw [← BitVec.toNat_inj, BitVec.toNat_setWidth, BitVec.toNat_ofNat, toNat_bufferSize]
    omega
  simp only [next, hrest, hfull]
  split <;> simp_all

private theorem nparsed_le {σ : Type} {P : HttpParser σ} {parseUrl : List Byte → Option UrlParts}
    (hparser : ∀ t data, (P.execute t data).nparsed ≤ data.length) {t t' : σ} {p p' : Parser HttpRequest}
    {data : List Byte} {nparsed : Nat} (h : execute P parseUrl t p data = some (nparsed, t', p')) :
    nparsed ≤ data.length := by
  unfold execute at h
  dsimp only at h
  split at h
  · cases h
  · split at h
    · cases h
    · cases h
      exact hparser t data

/-- The sizes that `recvLoop` meets lead to where it ends, if they are possible. -/
theorem run_events {σ : Type} {P : HttpParser σ} {parseUrl : List Byte → Option UrlParts}
    (hparser : ∀ t data, (P.execute t data).nparsed ≤ data.length) {reads : List (List Byte)}
    (hreads : ∀ bytes ∈ reads, bytes.length ≤ requestBufferSize) {t : σ} {p : Parser HttpRequest} {data : List Byte}
    (hdata : data.length < requestBufferSize)
    (hrun : machine.run (reading data.length) (events P parseUrl t p data reads) = some s') :
    s'.point = .returned true ↔ (recvLoop P parseUrl t p data reads).1.isSome = true := by
  induction reads generalizing t p data with
  | nil =>
    cases hrun
    simp [reading, recvLoop]
  | cons bytes reads ih =>
    rw [List.forall_mem_cons] at hreads
    rw [events] at hrun
    rw [recvLoop]
    by_cases hempty : bytes = []
    · rw [if_pos hempty] at hrun ⊢
      obtain ⟨s₁, hstep, hrun⟩ := Option.bind_eq_some_iff.1 hrun
      cases hrun
      obtain ⟨-, rfl⟩ := machine_step hstep
      simp [next]
    · rw [if_neg hempty] at hrun ⊢
      have hlength : bytes.length ≠ 0 := fun hzero => hempty (List.eq_nil_of_length_eq_zero hzero)
      cases hexecute : execute P parseUrl t p (data ++ bytes) with
      | none =>
        rw [hexecute] at hrun
        obtain ⟨s₁, hread, hrun⟩ := Option.bind_eq_some_iff.1 hrun
        obtain ⟨-, rfl⟩ := step_read hdata hlength hreads.1 hread
        obtain ⟨s₂, hstep, hrun⟩ := Option.bind_eq_some_iff.1 hrun
        cases hrun
        obtain ⟨-, rfl⟩ := machine_step hstep
        simp [next]
      | some result =>
        obtain ⟨nparsed, t', p'⟩ := result
        rw [hexecute] at hrun
        obtain ⟨s₁, hread, hrun⟩ := Option.bind_eq_some_iff.1 hrun
        obtain ⟨hroom, rfl⟩ := step_read hdata hlength hreads.1 hread
        obtain ⟨s₂, hstep, hrun⟩ := Option.bind_eq_some_iff.1 hrun
        obtain ⟨-, rfl⟩ := machine_step hstep
        have hparsed := nparsed_le hparser hexecute
        rw [List.length_append] at hparsed
        have hrest : ((data ++ bytes).drop nparsed).length = data.length + bytes.length - nparsed := by
          rw [List.length_drop, List.length_append]
        rw [next_execute hroom hparsed] at hrun
        dsimp only
        rw [hrest] at hrun ⊢
        by_cases hfull : data.length + bytes.length - nparsed = requestBufferSize
        · rw [if_pos hfull, if_pos (.inl hfull)] at hrun
          cases hrun
          simp [hfull]
        · rw [if_neg hfull] at hrun ⊢
          by_cases hfinished : p'.finished = true
          · have hend : data.length + bytes.length - nparsed = requestBufferSize ∨ p'.finished = true := .inr hfinished
            rw [if_pos hend] at hrun
            cases hrun
            simp [hfinished]
          · rw [if_neg (not_or.2 ⟨hfull, hfinished⟩), if_neg hfinished, ← hrest] at hrun
            rw [if_neg hfinished]
            refine ih hreads.2 ?_ hrun
            omega

end Buffer

end Http

end AcidCompute

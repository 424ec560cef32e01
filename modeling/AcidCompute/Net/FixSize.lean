import AcidCompute.Net.Stream

/-!
# The `fix_size` functions of `acid/common/stream.cpp` on any results

`read` and `write` return how many bytes they have moved, 0, or -1 as a `size_t`.  The loops test for the 0 alone, so
that after a -1 they go on one byte before the last position with one byte more to move.
-/

namespace AcidCompute

namespace Stream

/-- What a call of `read` or `write` comes to. -/
inductive Result
  -- bytes have been moved
  | count (n : Nat)
  -- the other end is closed
  | closed
  | error
  deriving DecidableEq, Repr

/-- The result as a `size_t`. -/
def Result.size : Result → BitVec 64
  | .count n => BitVec.ofNat 64 n
  | .closed => 0
  | .error => -1

/-- The bytes that have been moved. -/
def Result.moved : Result → Nat
  | .count n => n
  | .closed => 0
  | .error => 0

/-- A call of `read` or `write`: where it moves bytes from or to, and how many it is to move at most. -/
structure Call where
  position : BitVec 64
  request : BitVec 64
  deriving DecidableEq, Repr

structure Return where
  value : BitVec 64
  calls : List Call
  deriving DecidableEq, Repr

def Return.after (call : Call) (ret : Return) : Return := { ret with calls := call :: ret.calls }

/-- The loop of the functions, as far as the results go.  What a result does to the position differs. -/
def resultLoop (move : BitVec 64 → Result → BitVec 64) (length : BitVec 64) :
    List Result → BitVec 64 → BitVec 64 → Option Return
  | [], _, left => if left = 0 then some ⟨length, []⟩ else none
  | r :: results, position, left =>
    if left = 0 then some ⟨length, []⟩
    else if r.size ≤ 0 then some ⟨r.size, [⟨position, left⟩]⟩
    else (resultLoop move length results (move position r) (left - r.size)).map (Return.after ⟨position, left⟩)

/-- `offset += len` -/
def moveOffset (offset : BitVec 64) (r : Result) : BitVec 64 := offset + r.size

/-- The position in a `ByteArray` is moved by the call itself, where the result is positive. -/
def movePosition (position : BitVec 64) (r : Result) : BitVec 64 := position + BitVec.ofNat 64 r.moved

/-- `read_fix_size(buffer, length)` -/
def readFixSizeBuffer (length : BitVec 64) (results : List Result) : Option Return :=
  resultLoop moveOffset length results 0 length

/-- `read_fix_size(byte_array, length)` -/
def readFixSize (length : BitVec 64) (results : List Result) : Option Return :=
  resultLoop movePosition length results 0 length

/-- `write_fix_size(buffer, length)` -/
def writeFixSizeBuffer (length : BitVec 64) (results : List Result) : Option Return :=
  resultLoop moveOffset length results 0 length

/-- `write_fix_size(byte_array, length)` -/
def writeFixSize (length : BitVec 64) (results : List Result) : Option Return :=
  resultLoop movePosition length results 0 length

/-- As long as there is something left, a count is positive and not larger than the request. -/
def Admissible : BitVec 64 → List Result → Prop
  | _, [] => True
  | left, .count n :: results => left = 0 ∨ 0 < n ∧ n ≤ left.toNat ∧ Admissible (left - BitVec.ofNat 64 n) results
  | _, .closed :: _ => True
  | left, .error :: results => left = 0 ∨ Admissible (left + 1) results

/-- There is a 0 or a -1, or the counts add up to the length. -/
def Ends (length : BitVec 64) (results : List Result) : Prop :=
  .closed ∈ results ∨ .error ∈ results ∨ ∃ k, ((results.take k).map Result.moved).sum = length.toNat

/-- Positive counts reach the length before any other result. -/
def Completes (length : BitVec 64) (results : List Result) (counts : List Nat) : Prop :=
  (∃ rest, results = counts.map .count ++ rest) ∧ (∀ n ∈ counts, 0 < n) ∧ counts.sum = length.toNat

/-- After positive counts some other result comes before the length is reached. -/
def StopsAt (length : BitVec 64) (results : List Result) (counts : List Nat) (r : Result) : Prop :=
  (∃ rest, results = counts.map .count ++ r :: rest) ∧ (∀ n ∈ counts, 0 < n) ∧ counts.sum < length.toNat ∧
    (r = .closed ∨ r = .error)

/-- Each call starts where the one before has ended, and its request ends where the buffer does. -/
def Consecutive (length : BitVec 64) (counts : List Nat) (calls : List Call) : Prop :=
  ∀ i, ∀ h : i < calls.length, calls[i].position.toNat = (counts.take i).sum ∧
    calls[i].position.toNat + calls[i].request.toNat = length.toNat

/-- What the documentation of the functions promises. -/
def AsPromised (length : BitVec 64) (results : List Result) (out : Option Return) : Prop :=
  ∃ ret, out = some ret ∧ (ret.value = length ↔ ∃ counts, Completes length results counts) ∧
    (∀ counts, Completes length results counts →
      ret.calls.length = counts.length ∧ Consecutive length counts ret.calls) ∧
    ∀ counts r, StopsAt length results counts r →
      ret.value = r.size ∧ ret.calls.length = counts.length + 1 ∧ Consecutive length counts ret.calls

/-! ### The counts before any other result -/

/-- The calls that a list of counts answers. -/
def callsFor : BitVec 64 → BitVec 64 → List Nat → List Call
  | _, _, [] => []
  | position, left, n :: counts =>
    ⟨position, left⟩ :: callsFor (position + BitVec.ofNat 64 n) (left - BitVec.ofNat 64 n) counts

section

variable {move : BitVec 64 → Result → BitVec 64} {length position left : BitVec 64} {counts : List Nat}
  {results rest : List Result} {r : Result}

theorem length_callsFor (position left : BitVec 64) (counts : List Nat) :
    (callsFor position left counts).length = counts.length := by
  induction counts generalizing position left with
  | nil => rfl
  | cons n counts ih => exact congrArg (· + 1) (ih _ _)

theorem from_start (offset : BitVec 64) : 0 + offset = offset := BitVec.zero_add offset

/-- The test `len <= 0` does not see a count. -/
theorem not_size_le {n : Nat} (hpos : 0 < n) (hlt : n < 2 ^ 64) : ¬ (Result.count n).size ≤ 0 := by
  have hzero : (0 : BitVec 64).toNat = 0 := rfl
  rw [Result.size, BitVec.le_def, BitVec.toNat_ofNat, hzero]
  omega

theorem toNat_sub_count {n : Nat} (h : n ≤ left.toNat) : (left - BitVec.ofNat 64 n).toNat = left.toNat - n := by
  have hword := left.isLt
  rw [BitVec.toNat_sub, BitVec.toNat_ofNat]
  omega

theorem toNat_add_count {n : Nat} (h : position.toNat + n < 2 ^ 64) :
    (position + BitVec.ofNat 64 n).toNat = position.toNat + n := by
  rw [BitVec.toNat_add, BitVec.toNat_ofNat]
  omega

/-- Counts that do not pass what is left are added to the position and taken from what is left. -/
theorem resultLoop_counts (hmove : ∀ p n, move p (.count n) = p + BitVec.ofNat 64 n) (hpos : ∀ n ∈ counts, 0 < n)
    (hsum : counts.sum ≤ left.toNat) :
    resultLoop move length (counts.map .count ++ rest) position left =
      (resultLoop move length rest (position + BitVec.ofNat 64 counts.sum) (left - BitVec.ofNat 64 counts.sum)).map
        fun ret => { ret with calls := callsFor position left counts ++ ret.calls } := by
  induction counts generalizing position left with
  | nil => simp [callsFor]
  | cons n counts ih =>
    have hn := hpos n List.mem_cons_self
    rw [List.sum_cons] at hsum
    have hword := left.isLt
    have hleft : left ≠ 0 := by
      rintro rfl
      simp at hsum
      omega
    have hsize := not_size_le (n := n) hn (by omega)
    have hrest : counts.sum ≤ (left - BitVec.ofNat 64 n).toNat := by
      rw [toNat_sub_count (by omega)]
      omega
    rw [List.map_cons, List.cons_append, resultLoop, if_neg hleft, if_neg hsize, hmove, Result.size,
      ih (fun m hm => hpos m (List.mem_cons_of_mem _ hm)) hrest, Option.map_map, List.sum_cons, BitVec.ofNat_add]
    rw [BitVec.add_assoc, BitVec.sub_sub]
    rfl

theorem resultLoop_zero : resultLoop move length results position 0 = some ⟨length, []⟩ := by
  cases results <;> rfl

/-- Positions of the calls, from a position `d` bytes after the start. -/
theorem callsFor_get {d : Nat} (hposition : position.toNat = d) (htotal : d + left.toNat = length.toNat)
    (hsum : counts.sum ≤ left.toNat) (i : Nat) (h : i < (callsFor position left counts).length) :
    (callsFor position left counts)[i].position.toNat = d + (counts.take i).sum ∧
      (callsFor position left counts)[i].position.toNat + (callsFor position left counts)[i].request.toNat =
        length.toNat := by
  induction counts generalizing position left d i with
  | nil => cases h
  | cons n counts ih =>
    cases i with
    | zero =>
      subst hposition
      exact ⟨rfl, htotal⟩
    | succ i =>
      have hword := length.isLt
      rw [List.sum_cons] at hsum
      have hn : n ≤ left.toNat := by omega
      have hleft := toNat_sub_count hn
      have hnext : (position + BitVec.ofNat 64 n).toNat = d + n := by
        rw [toNat_add_count (by omega), hposition]
      have hat := ih hnext (by omega) (by omega) i (Nat.lt_of_succ_lt_succ h)
      rw [List.take_succ_cons, List.sum_cons, ← Nat.add_assoc]
      exact hat

theorem callsFor_append (position left : BitVec 64) (counts : List Nat) (n : Nat) :
    callsFor position left (counts ++ [n]) =
      callsFor position left counts ++
        [⟨position + BitVec.ofNat 64 counts.sum, left - BitVec.ofNat 64 counts.sum⟩] := by
  induction counts generalizing position left with
  | nil => simp [callsFor]
  | cons m counts ih =>
    rw [List.cons_append, callsFor, ih, List.sum_cons, BitVec.ofNat_add, ← BitVec.add_assoc, BitVec.sub_sub]
    rfl

theorem consecutive_callsFor (hsum : counts.sum ≤ length.toNat) :
    Consecutive length counts (callsFor 0 length counts) := by
  intro i hi
  have hat := callsFor_get (d := 0) rfl (Nat.zero_add _) hsum i hi
  rw [Nat.zero_add] at hat
  exact hat

/-- The call that stops the loop is the next one. -/
theorem consecutive_callsFor_stop (hsum : counts.sum ≤ length.toNat) :
    Consecutive length counts (callsFor 0 length (counts ++ [0])) := by
  intro i hi
  have hle : i ≤ counts.length := by
    rw [length_callsFor, List.length_append] at hi
    exact Nat.le_of_lt_succ hi
  have hsame : (counts ++ [0]).sum ≤ length.toNat := by simpa using hsum
  have hat := consecutive_callsFor hsame i hi
  rw [List.take_append_of_le_length hle] at hat
  exact hat

/-! ### How the results may go -/

theorem prefix_of_append_eq {counts' : List Nat} {rest' : List Result} (hr : ∀ n, r ≠ .count n)
    (h : counts.map Result.count ++ r :: rest = counts'.map Result.count ++ rest') : counts' <+: counts := by
  induction counts' generalizing counts with
  | nil => exact List.nil_prefix
  | cons n counts' ih =>
    cases counts with
    | nil =>
      rw [List.map_nil, List.nil_append, List.map_cons, List.cons_append] at h
      exact absurd (List.cons.inj h).1 (hr n)
    | cons m counts =>
      rw [List.map_cons, List.map_cons, List.cons_append, List.cons_append] at h
      obtain ⟨hhead, htail⟩ := List.cons.inj h
      cases hhead
      exact List.cons_prefix_cons.2 ⟨rfl, ih htail⟩

theorem StopsAt.not_completes (h : StopsAt length results counts r) :
    ¬ ∃ counts', Completes length results counts' := by
  rintro ⟨counts', ⟨rest', heq'⟩, -, hsum'⟩
  obtain ⟨⟨rest, heq⟩, -, hsum, hr⟩ := h
  have hother : ∀ n, r ≠ .count n := by
    rintro n rfl
    rcases hr with hr | hr <;> cases hr
  obtain ⟨later, rfl⟩ := prefix_of_append_eq hother (heq.symm.trans heq')
  rw [List.sum_append] at hsum
  omega

/-- The counts reach what is left, or another result comes before, or there are counts only and they do not reach it. -/
theorem Admissible.cases (h : Admissible left results) :
    (∃ counts, Completes left results counts) ∨ (∃ counts r, StopsAt left results counts r) ∨
      ∃ counts : List Nat, results = counts.map Result.count ∧ counts.sum < left.toNat := by
  induction results generalizing left with
  | nil =>
    by_cases hleft : left.toNat = 0
    · exact .inl ⟨[], ⟨[], rfl⟩, List.forall_mem_nil _, hleft.symm⟩
    · exact .inr (.inr ⟨[], rfl, Nat.pos_of_ne_zero hleft⟩)
  | cons r results ih =>
    by_cases hleft : left.toNat = 0
    · exact .inl ⟨[], ⟨_, rfl⟩, List.forall_mem_nil _, hleft.symm⟩
    · have hstop : r = .closed ∨ r = .error → ∃ counts r', StopsAt left (r :: results) counts r' := fun hr =>
        ⟨[], r, ⟨results, rfl⟩, List.forall_mem_nil _, Nat.pos_of_ne_zero hleft, hr⟩
      cases r with
      | closed => exact .inr (.inl (hstop (.inl rfl)))
      | error => exact .inr (.inl (hstop (.inr rfl)))
      | count n =>
        have hne : left ≠ 0 := fun hzero => hleft (congrArg BitVec.toNat hzero)
        obtain ⟨hn, hle, hrest⟩ := h.resolve_left hne
        have hless := toNat_sub_count hle
        rcases ih hrest with ⟨counts, ⟨rest, rfl⟩, hpos, hsum⟩ | ⟨counts, r, ⟨rest, rfl⟩, hpos, hsum, hr⟩ |
          ⟨counts, rfl, hsum⟩
        · refine .inl ⟨n :: counts, ⟨rest, rfl⟩, List.forall_mem_cons.2 ⟨hn, hpos⟩, ?_⟩
          rw [List.sum_cons]
          omega
        · refine .inr (.inl ⟨n :: counts, r, ⟨rest, rfl⟩, List.forall_mem_cons.2 ⟨hn, hpos⟩, ?_, hr⟩)
          rw [List.sum_cons]
          omega
        · refine .inr (.inr ⟨n :: counts, rfl, ?_⟩)
          rw [List.sum_cons]
          omega

/-- Counts that do not reach the length are not all the results. -/
theorem Ends.not_counts (h : Ends length (counts.map Result.count)) : ¬ counts.sum < length.toNat := by
  intro hlt
  rcases h with hclosed | herror | ⟨k, hk⟩
  · obtain ⟨n, -, hn⟩ := List.mem_map.1 hclosed
    cases hn
  · obtain ⟨n, -, hn⟩ := List.mem_map.1 herror
    cases hn
  · have hmoved : ((counts.map Result.count).take k).map Result.moved = counts.take k := by
      rw [← List.map_take, List.map_map]
      exact List.map_id _
    rw [hmoved] at hk
    have hsplit : (counts.take k).sum + (counts.drop k).sum = counts.sum := by
      rw [← List.sum_append, List.take_append_drop]
    omega

/-! ### What the loop returns -/

theorem resultLoop_completes (hmove : ∀ p n, move p (.count n) = p + BitVec.ofNat 64 n)
    (h : Completes length results counts) :
    resultLoop move length results 0 length = some ⟨length, callsFor 0 length counts⟩ := by
  obtain ⟨⟨rest, rfl⟩, hpos, hsum⟩ := h
  have hleft : length - BitVec.ofNat 64 counts.sum = 0 := by
    rw [hsum, BitVec.ofNat_toNat, BitVec.setWidth_eq]
    exact BitVec.sub_self length
  rw [resultLoop_counts hmove hpos (Nat.le_of_eq hsum), hleft, resultLoop_zero, Option.map_some, List.append_nil]

/-- After the counts the loop comes to the other result. -/
theorem resultLoop_stops (hmove : ∀ p n, move p (.count n) = p + BitVec.ofNat 64 n)
    (h : StopsAt length (counts.map .count ++ r :: rest) counts r) :
    resultLoop move length (counts.map .count ++ r :: rest) 0 length =
      if r.size ≤ 0 then some ⟨r.size, callsFor 0 length (counts ++ [0])⟩
      else (resultLoop move length rest (move (BitVec.ofNat 64 counts.sum) r)
        (length - BitVec.ofNat 64 counts.sum - r.size)).map
          fun ret => { ret with calls := callsFor 0 length (counts ++ [0]) ++ ret.calls } := by
  obtain ⟨-, hpos, hsum, -⟩ := h
  have hleft : length - BitVec.ofNat 64 counts.sum ≠ 0 := by
    intro hzero
    have hless := toNat_sub_count (Nat.le_of_lt hsum)
    have hnone : (0 : BitVec 64).toNat = 0 := rfl
    rw [hzero, hnone] at hless
    omega
  have hcall : ∀ calls, callsFor 0 length counts ++
      ⟨BitVec.ofNat 64 counts.sum, length - BitVec.ofNat 64 counts.sum⟩ :: calls =
        callsFor 0 length (counts ++ [0]) ++ calls := by
    intro calls
    rw [callsFor_append, from_start, List.append_assoc]
    rfl
  rw [resultLoop_counts hmove hpos (Nat.le_of_lt hsum), from_start, resultLoop, if_neg hleft]
  split
  case isTrue => exact congrArg (fun calls => some (Return.mk r.size calls)) ((hcall []).trans (List.append_nil _))
  case isFalse =>
    rw [Option.map_map]
    congr 1
    funext ret
    exact congrArg (Return.mk ret.value) (hcall ret.calls)

/-- There is a call as long as something is left. -/
theorem calls_ne_nil {ret : Return} (hleft : left ≠ 0) (h : resultLoop move length results position left = some ret) :
    ret.calls ≠ [] := by
  cases results with
  | nil =>
    rw [resultLoop, if_neg hleft] at h
    cases h
  | cons r results =>
    rw [resultLoop, if_neg hleft] at h
    split at h
    · cases h
      exact List.cons_ne_nil _ _
    · obtain ⟨ret', -, rfl⟩ := Option.map_eq_some_iff.1 h
      exact List.cons_ne_nil _ _

theorem AsPromised.of_completes (hmove : ∀ p n, move p (.count n) = p + BitVec.ofNat 64 n)
    (h : Completes length results counts) : AsPromised length results (resultLoop move length results 0 length) := by
  refine ⟨_, resultLoop_completes hmove h, ⟨fun _ => ⟨counts, h⟩, fun _ => rfl⟩, fun counts' h' => ?_,
    fun counts' r hstop => absurd ⟨counts, h⟩ hstop.not_completes⟩
  -- two lists of counts give the same calls
  have hsame := (resultLoop_completes hmove h).symm.trans (resultLoop_completes hmove h')
  rw [(Return.mk.inj (Option.some.inj hsame)).2]
  exact ⟨length_callsFor 0 length counts', consecutive_callsFor (Nat.le_of_eq h'.2.2)⟩

theorem AsPromised.of_closed (hmove : ∀ p n, move p (.count n) = p + BitVec.ofNat 64 n)
    (h : StopsAt length results counts .closed) :
    AsPromised length results (resultLoop move length results 0 length) := by
  -- whatever list of counts the results are read with, the loop returns after it
  have hreturn : ∀ counts' r, StopsAt length results counts' r →
      r = .closed ∧ resultLoop move length results 0 length = some ⟨0, callsFor 0 length (counts' ++ [0])⟩ := by
    intro counts' r h'
    obtain ⟨⟨rest, rfl⟩, -⟩ := h
    obtain ⟨⟨rest', heq⟩, -, -, hr⟩ := id h'
    have hother : ∀ n, r ≠ .count n := by
      rintro n rfl
      rcases hr with hr | hr <;> cases hr
    have hprefix := prefix_of_append_eq (fun n hn => by cases hn) heq
    have hprefix' := prefix_of_append_eq hother heq.symm
    have hsame : counts = counts' := hprefix'.eq_of_length_le hprefix.length_le
    subst hsame
    obtain ⟨rfl, rfl⟩ := List.cons.inj (List.append_cancel_left heq)
    refine ⟨rfl, ?_⟩
    have hclosed : Result.closed.size ≤ 0 := BitVec.le_refl 0
    rw [resultLoop_stops hmove h', if_pos hclosed]
    rfl
  have hret := (hreturn counts .closed h).2
  refine ⟨_, hret, ⟨fun hzero => ?_, fun hcompletes => absurd hcompletes h.not_completes⟩,
    fun counts' h' => absurd ⟨counts', h'⟩ h.not_completes, fun counts' r h' => ?_⟩
  · obtain ⟨-, -, hsum, -⟩ := h
    rw [← show (0 : BitVec 64) = length from hzero] at hsum
    cases hsum
  · obtain ⟨rfl, hret'⟩ := hreturn counts' r h'
    have hsame := hret.symm.trans hret'
    rw [(Return.mk.inj (Option.some.inj hsame)).2]
    refine ⟨rfl, ?_, fun i hi => ?_⟩
    · rw [length_callsFor, List.length_append]
      rfl
    · exact consecutive_callsFor_stop (Nat.le_of_lt h'.2.2.1) i hi

/-- After a -1 there is another call, or the loop returns because one byte more than the largest number is none. -/
theorem AsPromised.not_of_error (h : StopsAt length results counts .error)
    (hmove : ∀ p n, move p (.count n) = p + BitVec.ofNat 64 n) :
    ¬ AsPromised length results (resultLoop move length results 0 length) := by
  rintro ⟨ret, hret, hvalue, -, hstop⟩
  obtain ⟨-, hcalls, -⟩ := hstop counts .error h
  have hnot := h.not_completes
  obtain ⟨⟨rest, rfl⟩, -⟩ := id h
  have herror : ¬ Result.error.size ≤ 0 := by decide
  rw [resultLoop_stops hmove h, if_neg herror] at hret
  obtain ⟨ret', hret', rfl⟩ := Option.map_eq_some_iff.1 hret
  by_cases hleft : length - BitVec.ofNat 64 counts.sum - Result.error.size = 0
  · rw [hleft, resultLoop_zero] at hret'
    cases hret'
    exact hnot (hvalue.1 rfl)
  · have hmore := List.length_pos_of_ne_nil (calls_ne_nil hleft hret')
    rw [List.length_append, length_callsFor, List.length_append, List.length_singleton] at hcalls
    omega

/-- The loop does what is promised if and only if no -1 comes before it has ended. -/
theorem asPromised_iff (hmove : ∀ p n, move p (.count n) = p + BitVec.ofNat 64 n) (hresults : Admissible length results)
    (hends : Ends length results) : AsPromised length results (resultLoop move length results 0 length) ↔
      ¬ ∃ counts, StopsAt length results counts .error := by
  constructor
  · rintro hpromised ⟨counts, hstop⟩
    exact AsPromised.not_of_error hstop hmove hpromised
  · intro hnone
    rcases hresults.cases with ⟨counts, hcompletes⟩ | ⟨counts, r, hstop⟩ | ⟨counts, rfl, hlt⟩
    · exact .of_completes hmove hcompletes
    · rcases hstop.2.2.2 with rfl | rfl
      · exact .of_closed hmove hstop
      · exact absurd ⟨counts, hstop⟩ hnone
    · exact absurd hlt hends.not_counts

end

/-- All four functions do what is promised if and only if no -1 comes before a 0 and before the counts reach the
length. -/
theorem fixSize_iff {length : BitVec 64} {results : List Result} (hresults : Admissible length results)
    (hends : Ends length results) :
    (AsPromised length results (readFixSizeBuffer length results) ↔ ¬ ∃ counts, StopsAt length results counts .error) ∧
      (AsPromised length results (readFixSize length results) ↔ ¬ ∃ counts, StopsAt length results counts .error) ∧
      (AsPromised length results (writeFixSizeBuffer length results) ↔
        ¬ ∃ counts, StopsAt length results counts .error) ∧
      (AsPromised length results (writeFixSize length results) ↔ ¬ ∃ counts, StopsAt length results counts .error) := by
  have hoffset : ∀ p n, moveOffset p (.count n) = p + BitVec.ofNat 64 n := fun _ _ => rfl
  have hposition : ∀ p n, movePosition p (.count n) = p + BitVec.ofNat 64 n := fun _ _ => rfl
  exact ⟨asPromised_iff hoffset hresults hends, asPromised_iff hposition hresults hends,
    asPromised_iff hoffset hresults hends, asPromised_iff hposition hresults hends⟩

theorem fixSize_iff_twoReads :
    AsPromised 4 [.count 3, .count 1] (readFixSizeBuffer 4 [.count 3, .count 1]) ∧
      readFixSizeBuffer 4 [.count 3, .count 1] = some ⟨4, [⟨0, 4⟩, ⟨3, 1⟩]⟩ := by
  have hresults : Admissible 4 [.count 3, .count 1] := by
    refine .inr ⟨by decide, by decide, .inr ⟨by decide, by decide, trivial⟩⟩
  have hcounts : ¬ ∃ counts, StopsAt 4 [.count 3, .count 1] counts .error := by
    rintro ⟨counts, ⟨rest, heq⟩, -⟩
    have hmem : Result.error ∈ [Result.count 3, .count 1] := heq ▸ List.mem_append_right _ List.mem_cons_self
    revert hmem
    decide
  exact ⟨(fixSize_iff hresults (.inr (.inr ⟨2, rfl⟩))).1.2 hcounts, by decide⟩

/-- A read that fails and one that delivers five bytes, for a buffer of four: the second goes to the byte in front of
the buffer, and the return says that everything has been read. -/
theorem readFixSizeBuffer_outside : Admissible 4 [.error, .count 5] ∧ Ends 4 [.error, .count 5] ∧
    readFixSizeBuffer 4 [.error, .count 5] = some ⟨4, [⟨0, 4⟩, ⟨-1, 5⟩]⟩ ∧
      ¬ AsPromised 4 [.error, .count 5] (readFixSizeBuffer 4 [.error, .count 5]) := by
  have hreturn : readFixSizeBuffer 4 [.error, .count 5] = some ⟨4, [⟨0, 4⟩, ⟨-1, 5⟩]⟩ := by decide
  refine ⟨.inr (.inr ⟨by decide, by decide, trivial⟩), .inr (.inl List.mem_cons_self), hreturn, ?_⟩
  rintro ⟨ret, hret, -, -, hstop⟩
  have hfirst : StopsAt 4 [.error, .count 5] [] .error := ⟨⟨_, rfl⟩, List.forall_mem_nil _, by decide, .inr rfl⟩
  have hvalue := (hstop [] .error hfirst).1
  cases hreturn.symm.trans hret
  revert hvalue
  decide

/-! ### A connection that does not fail -/

section

variable {σ : Type} {transfer : Nat → Nat → Net σ Nat} {length rounds offset left value : Nat} {s s' : Link × σ}

theorem fixSizeLoop_of_zero (h : fixSizeLoop transfer length rounds offset 0 s = .ok (value, s')) : value = length := by
  unfold fixSizeLoop at h
  cases h
  rfl

/-- One round: the call moves nothing and its 0 is returned, or the loop goes on behind it. -/
theorem fixSizeLoop_of_succ (h : fixSizeLoop transfer length (rounds + 1) offset (left + 1) s = .ok (value, s')) :
    ∃ len s₁, transfer offset (left + 1) s = .ok (len, s₁) ∧ (len = 0 ∧ value = 0 ∨
      0 < len ∧ fixSizeLoop transfer length rounds ((offset + len) % 2 ^ 64) (sizeSub (left + 1) len) s₁ =
        .ok (value, s')) := by
  unfold fixSizeLoop at h
  obtain ⟨len, s₁, htransfer, hrest⟩ := Net.of_bind_ok h
  refine ⟨len, s₁, htransfer, ?_⟩
  split at hrest
  case isTrue hzero =>
    cases hrest
    exact .inl ⟨hzero, hzero⟩
  case isFalse hpos => exact .inr ⟨Nat.pos_of_ne_zero hpos, hrest⟩

/-- What the loop returns over calls that do not fail it returns on the results of these calls. -/
theorem exists_results (hle : ∀ offset left s len s', transfer offset left s = .ok (len, s') → len ≤ left)
    (hword : length < 2 ^ 64) (h : fixSize transfer length s = .ok (value, s'))
    (move : BitVec 64 → Result → BitVec 64) : ∃ results calls,
      resultLoop move (BitVec.ofNat 64 length) results 0 (BitVec.ofNat 64 length) =
        some ⟨BitVec.ofNat 64 value, calls⟩ := by
  have hloop : ∀ rounds offset left s position, left < 2 ^ 64 →
      fixSizeLoop transfer length rounds offset left s = .ok (value, s') →
      ∃ results calls, resultLoop move (BitVec.ofNat 64 length) results position (BitVec.ofNat 64 left) =
        some ⟨BitVec.ofNat 64 value, calls⟩ := by
    intro rounds
    induction rounds with
    | zero =>
      intro offset left s position _ h
      cases left with
      | zero => exact ⟨[], [], by rw [fixSizeLoop_of_zero h]; exact resultLoop_zero⟩
      | succ left =>
        unfold fixSizeLoop at h
        cases h
    | succ rounds ih =>
      intro offset left s position hleft h
      cases left with
      | zero => exact ⟨[], [], by rw [fixSizeLoop_of_zero h]; exact resultLoop_zero⟩
      | succ left =>
        have hsome : BitVec.ofNat 64 (left + 1) ≠ 0 := by
          intro hzero
          have hnat := congrArg BitVec.toNat hzero
          rw [BitVec.toNat_ofNat, Nat.mod_eq_of_lt hleft] at hnat
          cases hnat
        obtain ⟨len, s₁, htransfer, ⟨-, rfl⟩ | ⟨hpos, hrest⟩⟩ := fixSizeLoop_of_succ h
        · refine ⟨[.closed], [⟨position, BitVec.ofNat 64 (left + 1)⟩], ?_⟩
          rw [resultLoop, if_neg hsome]
          rfl
        · have hlen := hle _ _ _ _ _ htransfer
          rw [sizeSub_of_le hlen hleft] at hrest
          obtain ⟨results, calls, hresults⟩ := ih _ _ s₁ (move position (.count len)) (by omega) hrest
          have hsub : BitVec.ofNat 64 (left + 1) - (Result.count len).size = BitVec.ofNat 64 (left + 1 - len) := by
            apply BitVec.eq_of_toNat_eq
            rw [Result.size, toNat_sub_count] <;> simp only [BitVec.toNat_ofNat] <;> omega
          refine ⟨.count len :: results, ⟨position, BitVec.ofNat 64 (left + 1)⟩ :: calls, ?_⟩
          rw [resultLoop, if_neg hsome, if_neg (not_size_le hpos (by omega)), hsub, hresults]
          rfl
  exact hloop length 0 length s 0 hword h

end

end Stream

namespace SocketStream

theorem readBuffer_le (t : Transport) {offset left len : Nat} {s s' : Link × List Byte}
    (h : readBuffer t offset left s = .ok (len, s')) : len ≤ left := by
  obtain ⟨link, buffer⟩ := s
  obtain ⟨bytes, s₁, hrecv, hrest⟩ := Net.of_bind_ok h
  have hlen : len = bytes.length := by
    cases hrest
    rfl
  have haccept := t.accept_le link.calls (min left link.pending.length)
  simp only [Socket.recv] at hrecv
  split at hrecv
  · cases hrecv
    exact hlen ▸ Nat.zero_le left
  · split at hrecv
    · cases hrecv
    · cases hrecv
      rw [hlen, List.length_take]
      omega

/-- Reading from a connection that does not fail is one of the runs with results. -/
theorem readFixSizeBuffer_results (t : Transport) {length value : Nat} (hword : length < 2 ^ 64)
    {s s' : Link × List Byte} (h : readFixSizeBuffer t length s = .ok (value, s')) : ∃ results calls,
      Stream.readFixSizeBuffer (BitVec.ofNat 64 length) results = some ⟨BitVec.ofNat 64 value, calls⟩ :=
  Stream.exists_results (fun _ _ _ _ _ htransfer => readBuffer_le t htransfer) hword h Stream.moveOffset

end SocketStream

end AcidCompute

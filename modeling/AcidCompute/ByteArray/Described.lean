import AcidCompute.ByteArray.Buffers
import AcidCompute.ByteArray.Reachable

/-!
# What the buffers describe

The buffer of the block in which a range ends is never handed out.  So the buffers of `get_read_buffers` and of
`get_write_buffers` describe less than the length that is announced, unless that is zero
(`readBuffers_iff`, `receivesLikeWrite_iff`).
-/

namespace AcidCompute

namespace ByteArray

/-- The call hands out buffers for the bytes from the position on, as many as are wanted and left. -/
def DescribesRead (m : Op ByteArray (List Iovec × Nat)) (b : ByteArray) (len position : Nat) : Prop :=
  ∃ iovs, m b = .ok (iovs, min len (b.size - position)) b ∧ room iovs = min len (b.size - position) ∧
    gather b.nodes iovs = (b.content.drop position).take (min len (b.size - position))

/-- The buffers describe `len` bytes, inside the blocks and none of them twice. -/
structure Describes (nodes : List Node) (iovs : List Iovec) (len : Nat) : Prop where
  room_eq : room iovs = len
  inside : ∀ iov ∈ iovs, iov.offset + iov.length ≤ (nodes.getD iov.node []).length
  disjoint : iovs.Pairwise fun x y =>
    x.node = y.node → x.offset + x.length ≤ y.offset ∨ y.offset + y.length ≤ x.offset

/-- Bytes received into the buffers, and the position moved behind them, are as if they had been written. -/
def ReceivesLikeWrite [Host] (b : ByteArray) (len : Nat) : Prop :=
  ∃ iovs b₁, getWriteBuffers len b = .ok (iovs, len) b₁ ∧ Describes b₁.nodes iovs len ∧
    ∀ bytes : List Byte, bytes.length ≤ len → b.size ≤ b.position + bytes.length →
      ∃ b₂ b₃ : ByteArray,
        setPosition (b.position + bytes.length) { b₁ with nodes := scatter iovs bytes b₁.nodes } = .ok () b₂ ∧
          write bytes bytes.length b = .ok () b₃ ∧ b₂.position = b₃.position ∧ b₂.size = b₃.size ∧
          b₂.content = b₃.content

/-! ### The loop leaves out the last buffer -/

theorem room_cons (iov : Iovec) (iovs : List Iovec) : room (iov :: iovs) = iov.length + room iovs := by
  rw [room, room, List.map_cons, List.sum_cons]

theorem room_iovecLoop_lt {nodes : List Node} {k npos ncap len : Nat} {iovs : List Iovec} (hlen : 0 < len)
    (h : iovecLoop k nodes npos ncap len = .ok iovs) : room iovs < len := by
  induction nodes generalizing k npos ncap len iovs with
  | nil =>
    obtain ⟨m, rfl⟩ : ∃ m, len = m + 1 := ⟨len - 1, by omega⟩
    cases h
  | cons node rest ih =>
    obtain ⟨m, rfl⟩ : ∃ m, len = m + 1 := ⟨len - 1, by omega⟩
    unfold iovecLoop at h
    split at h
    · cases h
      exact hlen
    · rename_i hlong
      obtain ⟨others, hloop, heq⟩ := ok_of_bind_ok h
      cases heq
      have hrest := ih (by omega) hloop
      rw [room_cons]
      dsimp only
      omega

/-- What is left of a call once the block to start from is known: the length is announced, and the buffers describe
less. -/
private theorem room_lt_of_ok {b b' : ByteArray} {cur : Option Nat} {npos len : Nat} {result : List Iovec × Nat}
    (hlen : 0 < len)
    (h : (do
      let k ← deref cur
      let iovs ← Op.liftUndefined (iovecLoop k (b.nodes.drop k) npos (Node.headSize (b.nodes.drop k) - npos) len)
      return (iovs, len) : Op ByteArray (List Iovec × Nat)) b = .ok result b') :
    result.2 = len ∧ room result.1 < len := by
  obtain ⟨k, b₁, -, h⟩ := Op.bind_eq_ok.1 h
  obtain ⟨iovs, b₂, hloop, h⟩ := Op.bind_eq_ok.1 h
  cases h
  exact ⟨rfl, room_iovecLoop_lt hlen (Op.liftUndefined_eq_ok.1 hloop).1⟩

private theorem describesRead_nothing {m : Op ByteArray (List Iovec × Nat)} {b : ByteArray} {len position : Nat}
    (h : m b = .ok ([], 0) b) (hzero : min len (b.size - position) = 0) : DescribesRead m b len position := by
  refine ⟨[], ?_, ?_, ?_⟩
  · rw [hzero]
    exact h
  · rw [hzero]
    rfl
  · rw [hzero, List.take_zero]
    rfl

/-! ### Reading -/

private theorem getReadBuffers_nothing {b : ByteArray} {len : Nat} (hzero : min len (b.size - b.position) = 0) :
    getReadBuffers len b = .ok ([], 0) b := by
  unfold getReadBuffers
  rw [Op.get_bind_apply, getReadSize, hzero]
  rfl

private theorem room_getReadBuffers {b b' : ByteArray} {len : Nat} {result : List Iovec × Nat}
    (hlen : 0 < min len (b.size - b.position)) (h : getReadBuffers len b = .ok result b') :
    room result.1 < min len (b.size - b.position) := by
  unfold getReadBuffers at h
  rw [Op.get_bind_apply, getReadSize, if_neg (by omega)] at h
  exact (room_lt_of_ok hlen h).2

private theorem getReadBuffersAt_nothing {b : ByteArray} {len : Nat} (position : Nat)
    (hzero : min len (b.size - b.position) = 0) : getReadBuffersAt len position b = .ok ([], 0) b := by
  unfold getReadBuffersAt
  rw [Op.get_bind_apply, getReadSize, hzero]
  rfl

private theorem follow_unchanged (count : Nat) (p : Option Nat) (b : ByteArray) :
    (∃ q, follow count p b = .ok q b) ∨ ∃ u, follow count p b = .error (.undefined u) b := by
  induction count generalizing p with
  | zero => exact .inl ⟨p, rfl⟩
  | succ count ih =>
    cases p with
    | none => exact .inr ⟨_, rfl⟩
    | some k => exact ih (b.nodeAt (k + 1))

private theorem room_getReadBuffersAt {b b' : ByteArray} {len position : Nat} {result : List Iovec × Nat}
    (hlen : 0 < min len (b.size - b.position)) (h : getReadBuffersAt len position b = .ok result b') :
    result.2 = min len (b.size - b.position) ∧ room result.1 < min len (b.size - b.position) := by
  unfold getReadBuffersAt at h
  rw [Op.get_bind_apply, getReadSize, if_neg (by omega)] at h
  dsimp only at h
  rcases follow_unchanged (position / b.baseSize) b.cur b with ⟨cur, heq⟩ | ⟨u, heq⟩
  · rw [Op.bind_of_ok heq] at h
    exact room_lt_of_ok hlen h
  · rw [Op.bind_of_error heq] at h
    cases h

/-- In every reachable state and for every length: the buffers for the bytes at the cursor are right just if there are
no such bytes, those for the bytes at a position just if there are none at the cursor either, and where both are right
at the cursor they agree. -/
theorem readBuffers_iff [Host] {b : ByteArray} (h : Reachable b) (len : Nat) :
    (DescribesRead (getReadBuffers len) b len b.position ↔ len = 0 ∨ b.position = b.size) ∧
      (∀ position ≤ b.size, DescribesRead (getReadBuffersAt len position) b len position ↔
        len = 0 ∨ b.position = b.size ∧ position = b.size) ∧
      (DescribesRead (getReadBuffers len) b len b.position →
        getReadBuffersAt len b.position b = getReadBuffers len b) := by
  have hple := h.sound.valid.position_le
  have hfirst : DescribesRead (getReadBuffers len) b len b.position ↔ len = 0 ∨ b.position = b.size := by
    constructor
    · rintro ⟨iovs, heq, hroom, -⟩
      by_contra hsome
      have hlt := room_getReadBuffers (show 0 < min len (b.size - b.position) by omega) heq
      dsimp only at hlt
      omega
    · intro hnone
      have hzero : min len (b.size - b.position) = 0 := by omega
      exact describesRead_nothing (getReadBuffers_nothing hzero) hzero
  refine ⟨hfirst, fun position hposition => ⟨?_, fun hnone => ?_⟩, fun hmeets => ?_⟩
  · rintro ⟨iovs, heq, hroom, -⟩
    by_contra hsome
    by_cases hzero : min len (b.size - b.position) = 0
    · -- nothing is announced, and the bytes at the position are not
      rw [getReadBuffersAt_nothing position hzero] at heq
      injection heq with hpair
      have hcount : 0 = min len (b.size - position) := congrArg Prod.snd hpair
      omega
    · obtain ⟨hcount, hlt⟩ := room_getReadBuffersAt (Nat.pos_of_ne_zero hzero) heq
      dsimp only at hcount hlt
      omega
  · have hzero : min len (b.size - b.position) = 0 := by omega
    exact describesRead_nothing (getReadBuffersAt_nothing position hzero) (by omega)
  · have hnone := hfirst.1 hmeets
    have hzero : min len (b.size - b.position) = 0 := by omega
    rw [getReadBuffers_nothing hzero, getReadBuffersAt_nothing _ hzero]

/-! ### Writing -/

private theorem room_getWriteBuffers [Host] {b b' : ByteArray} {len : Nat} {result : List Iovec × Nat} (hlen : 0 < len)
    (h : getWriteBuffers len b = .ok result b') : room result.1 < len := by
  unfold getWriteBuffers at h
  rw [if_neg (by omega)] at h
  obtain ⟨u, b₁, -, h⟩ := Op.bind_eq_ok.1 h
  exact (room_lt_of_ok hlen h).2

/-- In every reachable state the buffers for `len` bytes are as good as a write just if `len` is zero. -/
theorem receivesLikeWrite_iff [Host] {b : ByteArray} (h : Reachable b) (len : Nat) :
    b.ReceivesLikeWrite len ↔ len = 0 := by
  constructor
  · rintro ⟨iovs, b₁, heq, hdescribes, -⟩
    by_contra hlen
    have hlt := room_getWriteBuffers (Nat.pos_of_ne_zero hlen) heq
    have hroom := hdescribes.room_eq
    dsimp only at hlt
    omega
  · rintro rfl
    have hvalid := h.sound.valid
    refine ⟨[], b, rfl, ⟨rfl, List.forall_mem_nil _, List.Pairwise.nil⟩, fun bytes hbytes hend => ?_⟩
    obtain rfl : bytes = [] := List.length_eq_zero_iff.1 (Nat.le_zero.1 hbytes)
    have hmax : max b.size b.position = b.size := Nat.max_eq_left hvalid.position_le
    refine ⟨_, b, setPosition_spec hvalid (hvalid.position_le.trans hvalid.size_le), rfl, rfl, hmax, ?_⟩
    show List.take (max b.size b.position) b.data = b.content
    rw [hmax]
    rfl

section

attribute [local instance] Host.zeroed

/-- A fresh array of blocks of four bytes. -/
private def fourBytes : ByteArray where
  baseSize := 4
  position := 0
  capacity := 4
  size := 0
  endian := .big
  nodes := [[0, 0, 0, 0]]
  cur := some 0

private theorem reachable_fourBytes : Reachable fourBytes :=
  reachable_of_stateAfter 4 (by decide) .big [] (by decide)

/-- Three bytes written and rewound. -/
private def threeWritten : ByteArray where
  baseSize := 4
  position := 0
  capacity := 4
  size := 3
  endian := .big
  nodes := [[1, 2, 3, 0]]
  cur := some 0

private theorem reachable_threeWritten : Reachable threeWritten :=
  reachable_of_stateAfter 4 (by decide) .big [.write [1, 2, 3], .setPosition 0] (by decide)

/-- No bytes are wanted of an array. -/
theorem readBuffers_iff_nothing :
    ∃ b, Reachable b ∧ b.size = 3 ∧ DescribesRead (getReadBuffers 0) b 0 b.position ∧
      DescribesRead (getReadBuffersAt 0 2) b 0 2 :=
  ⟨threeWritten, reachable_threeWritten, rfl, ((readBuffers_iff reachable_threeWritten 0).1).2 (.inl rfl),
    ((readBuffers_iff reachable_threeWritten 0).2.1 2 (by decide)).2 (.inl rfl)⟩

/-- For the three bytes of an array no buffer is handed out, from the cursor or from a position. -/
theorem not_describesRead_three :
    ∃ b, Reachable b ∧ b.position = 0 ∧ getReadBuffers 3 b = .ok ([], 3) b ∧
      ¬ DescribesRead (getReadBuffers 3) b 3 b.position ∧ ¬ DescribesRead (getReadBuffersAt 3 0) b 3 0 := by
  refine ⟨threeWritten, reachable_threeWritten, rfl, rfl, ?_, ?_⟩
  · rintro ⟨iovs, heq, hroom, -⟩
    exact Nat.ne_of_lt (room_getReadBuffers (by decide) heq) hroom
  · rintro ⟨iovs, heq, hroom, -⟩
    exact Nat.ne_of_lt (room_getReadBuffersAt (by decide) heq).2 hroom

/-- No bytes are received. -/
theorem receivesLikeWrite_iff_nothing : ∃ b, Reachable b ∧ b.ReceivesLikeWrite 0 :=
  ⟨fourBytes, reachable_fourBytes, (receivesLikeWrite_iff reachable_fourBytes 0).2 rfl⟩

/-- There is no buffer for three bytes. -/
theorem not_receivesLikeWrite_three :
    ∃ b b₁, Reachable b ∧ getWriteBuffers 3 b = .ok ([], 3) b₁ ∧ ¬ b.ReceivesLikeWrite 3 := by
  refine ⟨fourBytes, fourBytes, reachable_fourBytes, rfl, ?_⟩
  rintro ⟨iovs, b₁, heq, hdescribes, -⟩
  exact Nat.ne_of_lt (room_getWriteBuffers (by decide) heq) hdescribes.room_eq

end

end ByteArray

end AcidCompute

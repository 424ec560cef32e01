import AcidCompute.ByteArray.Buffers

/-!
# Socket streams of `acid/common/stream.cpp` and `acid/net/socket_stream.cpp`

One direction of a connection is a queue of bytes.  The kernel decides how many bytes a call on a socket takes or
delivers: any positive number of those offered (`Transport`).  The `fix_size` functions repeat the call until all bytes
are through or a call returns nothing.
-/

namespace AcidCompute

/-- How many of the `n` bytes offered the kernel takes in call number `i`. -/
structure Transport where
  accept : Nat → Nat → Nat
  accept_pos : ∀ i n, 0 < n → 0 < accept i n
  accept_le : ∀ i n, accept i n ≤ n

/-- A connection from the sending to the receiving end. -/
structure Link where
  /-- the bytes sent and not yet received -/
  pending : List Byte
  /-- the calls made so far -/
  calls : Nat
  deriving DecidableEq, Repr

/-- Why a call does not return: a fault, or bytes that it waits for and that nobody sends. -/
inductive Stop
  | fault (f : Fault)
  | waiting
  deriving DecidableEq, Repr

/-- A call that works on a connection and a local object. -/
abbrev Net (σ α : Type) := StateT (Link × σ) (Except Stop) α

/-- A call on the local object alone. -/
def Net.onObject {σ α : Type} (m : Op σ α) : Net σ α := fun (link, s) =>
  match m s with
  | .ok a s' => .ok (a, (link, s'))
  | .error f _ => .error (.fault f)

section

variable {σ α β : Type} {s s' : Link × σ}

theorem Net.bind_of_ok {m : Net σ α} {f : α → Net σ β} {a : α} (h : m s = .ok (a, s')) :
    (m >>= f) s = f a s' := by
  show (m s >>= _ : Except Stop (β × Link × σ)) = _
  rw [h]
  rfl

theorem Net.of_bind_ok {m : Net σ α} {f : α → Net σ β} {b : β} (h : (m >>= f) s = .ok (b, s')) :
    ∃ a s₁, m s = .ok (a, s₁) ∧ f a s₁ = .ok (b, s') := by
  cases hm : m s with
  | ok p => exact ⟨p.1, p.2, rfl, (Net.bind_of_ok hm).symm.trans h⟩
  | error stop =>
    change (m s >>= _ : Except Stop (β × Link × σ)) = _ at h
    rw [hm] at h
    cases h

@[simp] theorem Net.get_bind_apply (f : Link × σ → Net σ α) : ((get : Net σ (Link × σ)) >>= f) s = f s s := rfl

theorem Net.onObject_of_ok {m : Op σ α} (link : Link) {o o' : σ} {a : α} (h : m o = .ok a o') :
    Net.onObject m (link, o) = .ok (a, (link, o')) := by
  simp only [Net.onObject, h]

end

namespace Socket

variable {σ : Type} (t : Transport)

/-- `send` of bytes, and `sendmsg` of the bytes in the buffers. -/
def send (bytes : List Byte) : Net σ Nat := fun (link, s) =>
  let n := t.accept link.calls bytes.length
  .ok (n, (⟨link.pending ++ bytes.take n, link.calls + 1⟩, s))

/-- `recv` and `recvmsg` into buffers for `size` bytes: without a buffer they do not wait for bytes. -/
def recv (size : Nat) : Net σ (List Byte) := fun (link, s) =>
  if size = 0 then .ok ([], (link, s))
  else if link.pending.isEmpty then .error .waiting
  else
    let n := t.accept link.calls (min size link.pending.length)
    .ok (link.pending.take n, (⟨link.pending.drop n, link.calls + 1⟩, s))

end Socket

namespace Stream

variable {σ : Type}

/-- The loop of the `fix_size` functions.  A call that moves at least one byte each time ends it in `length` rounds. -/
def fixSizeLoop (transfer : Nat → Nat → Net σ Nat) (length : Nat) : Nat → Nat → Nat → Net σ Nat
  | _, _, 0 => return length
  | 0, _, _ + 1 => throw .waiting
  | rounds + 1, offset, left + 1 => do
    let len ← transfer offset (left + 1)
    if len = 0 then return len
    fixSizeLoop transfer length rounds ((offset + len) % 2 ^ 64) (sizeSub (left + 1) len)

def fixSize (transfer : Nat → Nat → Net σ Nat) (length : Nat) : Net σ Nat :=
  fixSizeLoop transfer length length 0 length

/-- Calls that keep `I` and move bytes each time, or move none and establish `Q`. -/
theorem fixSize_rule (transfer : Nat → Nat → Net σ Nat) (I : Nat → Link × σ → Prop) (Q : Link × σ → Prop)
    (hstep : ∀ offset left s, 0 < left → I left s →
      (∃ s', transfer offset left s = .ok (0, s') ∧ Q s') ∨
        ∃ len s', 0 < len ∧ len ≤ left ∧ transfer offset left s = .ok (len, s') ∧ I (left - len) s')
    {length : Nat} (hlen : length < 2 ^ 64) {s : Link × σ} (hI : I length s) :
    (∃ s', fixSize transfer length s = .ok (0, s') ∧ Q s') ∨
      ∃ s', fixSize transfer length s = .ok (length, s') ∧ I 0 s' := by
  -- as many rounds as bytes are left suffice
  have hloop : ∀ rounds offset left s, left ≤ rounds → left < 2 ^ 64 → I left s →
      (∃ s', fixSizeLoop transfer length rounds offset left s = .ok (0, s') ∧ Q s') ∨
        ∃ s', fixSizeLoop transfer length rounds offset left s = .ok (length, s') ∧ I 0 s' := by
    intro rounds
    induction rounds with
    | zero =>
      intro offset left s hle _ hI
      rw [Nat.le_zero.1 hle] at hI ⊢
      exact .inr ⟨s, by unfold fixSizeLoop; rfl, hI⟩
    | succ rounds ih =>
      intro offset left s hle hword hI
      cases left with
      | zero => exact .inr ⟨s, by unfold fixSizeLoop; rfl, hI⟩
      | succ left =>
        unfold fixSizeLoop
        rcases hstep offset (left + 1) s (Nat.succ_pos left) hI with
          ⟨s', heq, hQ⟩ | ⟨len, s', hpos, hlen', heq, hI'⟩
        · rw [Net.bind_of_ok heq]
          exact .inl ⟨s', rfl, hQ⟩
        · rw [Net.bind_of_ok heq, if_neg (by omega), sizeSub_of_le hlen' hword]
          exact ih _ _ s' (by omega) (by omega) hI'
  exact hloop length 0 length s (Nat.le_refl _) hlen hI

end Stream

namespace SocketStream

variable (t : Transport)

/-- `read(buffer, length)` to `offset` in a buffer -/
def readBuffer (offset length : Nat) : Net (List Byte) Nat := do
  let bytes ← Socket.recv t length
  let (link, buffer) ← get
  set (link, overwrite buffer offset bytes)
  return bytes.length

/-- `read(byte_array, length)` -/
def read [Host] (length : Nat) : Net ByteArray Nat := do
  let (iovs, _) ← Net.onObject (ByteArray.getWriteBuffers length)
  let bytes ← Socket.recv t (ByteArray.room iovs)
  let (link, b) ← get
  set (link, { b with nodes := ByteArray.scatter iovs bytes b.nodes })
  if 0 < bytes.length then Net.onObject (ByteArray.setPosition (b.position + bytes.length))
  return bytes.length

/-- `write(byte_array, length)` -/
def write (length : Nat) : Net ByteArray Nat := do
  let (iovs, _) ← Net.onObject (ByteArray.getReadBuffers length)
  let (_, b) ← get
  let ret ← Socket.send t (ByteArray.gather b.nodes iovs)
  if 0 < ret then Net.onObject (ByteArray.setPosition (b.position + ret))
  return ret

/-- `read_fix_size(buffer, length)` -/
def readFixSizeBuffer (length : Nat) : Net (List Byte) Nat := Stream.fixSize (readBuffer t) length

/-- `read_fix_size(byte_array, length)` -/
def readFixSize [Host] (length : Nat) : Net ByteArray Nat := Stream.fixSize (fun _ => read t) length

/-- `write_fix_size(byte_array, length)` -/
def writeFixSize (length : Nat) : Net ByteArray Nat := Stream.fixSize (fun _ => write t) length

/-! ### One call -/

/-- Without room in the buffers nothing is received. -/
theorem read_nothing [Host] {b : ByteArray} (h : b.Valid) (hsync : b.Synced) (length : Nat)
    (hblock : b.position % b.baseSize + length ≤ b.baseSize) (hroom : b.position + length < b.capacity)
    (link : Link) : read t length (link, b) = .ok (0, (link, b)) := by
  have hbuffers := Net.onObject_of_ok link (ByteArray.getWriteBuffers_spec h hsync hblock hroom)
  unfold read
  rw [Net.bind_of_ok hbuffers]
  rfl

/-- The bytes in front of the block that holds the last one. -/
def wholeBlocks (b : ByteArray) : Nat := (b.size - 1) / b.baseSize * b.baseSize

theorem wholeBlocks_le (b : ByteArray) : wholeBlocks b ≤ b.size - 1 := Nat.div_mul_le_self (b.size - 1) b.baseSize

/-- The kernel takes some of the bytes in front of the last block. -/
theorem write_spec {b : ByteArray} (h : b.Valid) (hsync : b.Synced) (hsize : b.position < b.size)
    (hle : b.position ≤ wholeBlocks b) (link : Link) :
    ∃ n, n = t.accept link.calls (wholeBlocks b - b.position) ∧
      write t (b.size - b.position) (link, b) =
        .ok (n, (⟨link.pending ++ b.unread.take n, link.calls + 1⟩, b.moveTo (b.position + n))) := by
  have hwhole := wholeBlocks_le b
  have hlen := h.length_unread
  obtain ⟨iovs, hbuffers, hbytes⟩ := ByteArray.getReadBuffers_spec h hsync (b.size - b.position) (by omega)
    (Nat.le_refl _)
  rw [show b.position + (b.size - b.position) - 1 = b.size - 1 by omega, ← wholeBlocks] at hbytes
  have hlength : (ByteArray.gather b.nodes iovs).length = wholeBlocks b - b.position := by
    rw [hbytes, List.length_take]
    omega
  have haccept := t.accept_le link.calls (wholeBlocks b - b.position)
  have hsend : Socket.send t (ByteArray.gather b.nodes iovs) (link, b) =
      .ok (t.accept link.calls (wholeBlocks b - b.position),
        (⟨link.pending ++ b.unread.take (t.accept link.calls (wholeBlocks b - b.position)),
          link.calls + 1⟩, b)) := by
    unfold Socket.send
    dsimp only
    rw [hlength, hbytes, List.take_take, Nat.min_eq_left haccept]
  generalize hn : t.accept link.calls (wholeBlocks b - b.position) = n at haccept hsend ⊢
  refine ⟨n, rfl, ?_⟩
  unfold write
  rw [Net.bind_of_ok (Net.onObject_of_ok link hbuffers)]
  dsimp only
  rw [Net.get_bind_apply, Net.bind_of_ok hsend]
  by_cases hzero : n = 0
  · rw [hzero, Nat.add_zero, ByteArray.moveTo_position hsync]
    rfl
  · have hseek := ByteArray.setPosition_spec h (p := b.position + n) (by have := h.size_le; omega)
    rw [Nat.max_eq_left (by omega)] at hseek
    rw [if_pos (by omega), Net.bind_of_ok (Net.onObject_of_ok _ hseek)]
    rfl

/-! ### All calls -/

/-- `write_fix_size` on the array `b`, with `left` bytes still to be sent. -/
structure Sending (b : ByteArray) (link : Link) (left : Nat) (s : Link × ByteArray) : Prop where
  object : s.2 = b.moveTo s.2.position
  left_eq : s.2.position + left = b.size
  position_le : s.2.position ≤ wholeBlocks b
  pending : s.1.pending = link.pending ++ b.content.take s.2.position

theorem Sending.step {b : ByteArray} {en : Endian} (h : ByteArray.Ready en b) {link : Link} {left : Nat}
    {s : Link × ByteArray} (hleft : 0 < left) (hs : Sending b link left s) :
    (∃ s', write t left s = .ok (0, s') ∧ s'.1.pending = link.pending ++ b.content.take (wholeBlocks b)) ∨
      ∃ n s', 0 < n ∧ n ≤ left ∧ write t left s = .ok (n, s') ∧ Sending b link (left - n) s' := by
  obtain ⟨link', b'⟩ := s
  obtain ⟨hb', hsum, hpos, hpending⟩ := hs
  dsimp only at hb' hsum hpos hpending
  have hwhole := wholeBlocks_le b
  have hready : ByteArray.Ready en b' := by
    rw [hb']
    exact h.moveTo (by omega)
  have hsize : b'.size = b.size := by rw [hb']; rfl
  have hblocks : wholeBlocks b' = wholeBlocks b := by rw [hb']; rfl
  have hunread : b'.unread = b.content.drop b'.position := by rw [hb']; rfl
  obtain ⟨n, hn, hwrite⟩ := write_spec t hready.valid hready.synced (by omega) (by rw [hblocks]; exact hpos)
    link'
  rw [hsize, show b.size - b'.position = left by omega] at hwrite
  rw [hblocks] at hn
  have haccept := t.accept_le link'.calls (wholeBlocks b - b'.position)
  by_cases hend : b'.position = wholeBlocks b
  · -- only the last block is left, and it has no buffer
    rw [show n = 0 by omega] at hwrite
    refine .inl ⟨_, hwrite, ?_⟩
    show link'.pending ++ b'.unread.take 0 = _
    rw [List.take_zero, List.append_nil, hpending, hend]
  · have hsome := t.accept_pos link'.calls (wholeBlocks b - b'.position) (by omega)
    refine .inr ⟨n, _, by omega, by omega, hwrite, ?_, ?_, ?_, ?_⟩
    · show b'.moveTo (b'.position + n) = b.moveTo (b'.position + n)
      rw [hb']
      rfl
    · show b'.position + n + (left - n) = b.size
      omega
    · show b'.position + n ≤ wholeBlocks b
      omega
    · show link'.pending ++ b'.unread.take n = link.pending ++ b.content.take (b'.position + n)
      rw [hpending, hunread, List.take_add, List.append_assoc]

/-- Everything in front of the last block is sent, however the kernel cuts it, and the last block is not. -/
theorem writeFixSize_spec {b : ByteArray} {en : Endian} (h : ByteArray.Ready en b) (hstart : b.position = 0)
    (hsize : 0 < b.size) (link : Link) :
    ∃ link' b', writeFixSize t b.size (link, b) = .ok (0, (link', b')) ∧
      link'.pending = link.pending ++ b.content.take (wholeBlocks b) := by
  have hle := h.valid.size_le
  have hfits := h.valid.fits
  unfold addressSpace at hfits
  have hwhole := wholeBlocks_le b
  have hinit : Sending b link b.size (link, b) := by
    refine ⟨(ByteArray.moveTo_position h.synced).symm, ?_, ?_, ?_⟩
    · show b.position + b.size = b.size
      omega
    · show b.position ≤ wholeBlocks b
      omega
    · show link.pending = link.pending ++ b.content.take b.position
      rw [hstart, List.take_zero, List.append_nil]
  rcases Stream.fixSize_rule (fun _ => write t) (Sending b link) _
    (fun _ _ _ hleft hs => hs.step t h hleft) (by omega) hinit with ⟨s', heq, hsent⟩ | ⟨s', -, hs⟩
  · exact ⟨s'.1, s'.2, heq, hsent⟩
  · -- the last byte is never sent
    have hsum := hs.left_eq
    have hpos := hs.position_le
    omega

end SocketStream

end AcidCompute

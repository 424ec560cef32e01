import AcidCompute.Base.Machine
import AcidCompute.ByteArray.Codec

/-!
# The states that a byte array can be in

What can be done to a byte array comes down to a few calls (`Access`): the typed writers and `read_from_file` are
sequences of `write`, the typed readers of `read`, and the buffers of `get_write_buffers` are filled from outside.
`read` may leave the cached block behind, so that in a reachable array it is the right one only while the position lies
in the first block (`Reachable.sound`).
-/

namespace AcidCompute

namespace ByteArray

inductive Access
  | write (bytes : List Byte)
  | read (n : Nat)
  | setPosition (p : Nat)
  | clear
  | setIsLittleEndian (isLittle : Bool)
  | getWriteBuffers (len : Nat)
  /-- bytes received into memory that a buffer describes -/
  | fill (node offset : Nat) (bytes : List Byte)
  deriving DecidableEq, Repr

/-- `set_is_little_endian` -/
def setIsLittleEndian (isLittle : Bool) : Op ByteArray Unit := do
  let b ← get
  set { b with endian := if isLittle then .little else .big }

/-- Bytes arrive in a block. -/
def fill (node offset : Nat) (bytes : List Byte) : Op ByteArray Unit := do
  let b ← get
  match b.nodes[node]? with
  | none => throw (.undefined .outOfBlock)
  | some block =>
    let block ← Op.liftUndefined (block.store offset bytes)
    set { b with nodes := b.nodes.set node block }

def Access.exec [Host] : Access → Op ByteArray Unit
  | .write bytes => ByteArray.write bytes bytes.length
  | .read n => do let _ ← ByteArray.read n
  | .setPosition p => ByteArray.setPosition p
  | .clear => ByteArray.clear
  | .setIsLittleEndian isLittle => ByteArray.setIsLittleEndian isLittle
  | .getWriteBuffers len => do let _ ← ByteArray.getWriteBuffers len
  | .fill node offset bytes => ByteArray.fill node offset bytes

/-- An exception may be caught; after undefined behaviour there is no next state. -/
def accesses [Host] (b : ByteArray) : Machine ByteArray Access where
  start := b
  step b a :=
    match a.exec b with
    | .ok _ b' => some b'
    | .error (.throws _) b' => some b'
    | .error (.undefined _) _ => none

/-- A state of an array with blocks of at least one byte. -/
def Reachable [Host] (b : ByteArray) : Prop :=
  ∃ (baseSize : Nat) (en : Endian) (b₀ : ByteArray),
    0 < baseSize ∧ new baseSize en = .ok b₀ ∧ (accesses b₀).Reaches Machine.any b₀ b

/-- The invariant of all calls. -/
structure Sound (b : ByteArray) : Prop where
  valid : b.Valid
  cur_lt : ∀ k, b.cur = some k → k < b.nodes.length
  synced : b.position < b.baseSize → b.Synced

theorem nodeAt_lt {b : ByteArray} {k j : Nat} (h : b.nodeAt k = some j) : j < b.nodes.length := by
  unfold nodeAt at h
  split at h
  · rename_i hlt
    rwa [← Option.some.inj h]
  · cases h

theorem Sound.of_synced {b : ByteArray} (h : b.Valid) (hsync : b.Synced) : b.Sound where
  valid := h
  cur_lt _ hk := nodeAt_lt (hsync.symm.trans hk)
  synced _ := hsync

/-- In the first block the array is ready for all readers and writers. -/
theorem Sound.ready {b : ByteArray} (h : b.Sound) (hpos : b.position < b.baseSize) : Ready b.endian b :=
  ⟨h.valid, h.synced hpos, rfl⟩

/-- What a call does to a sound array: it returns in one, throws and changes nothing, or goes wrong. -/
def KeepsSound {α : Type} (m : Op ByteArray α) (b : ByteArray) : Prop :=
  (∃ a b', m b = .ok a b' ∧ b'.Sound) ∨ (∃ e, m b = .error (.throws e) b) ∨ ∃ u b', m b = .error (.undefined u) b'

theorem KeepsSound.discard {α : Type} {m : Op ByteArray α} {b : ByteArray} (h : KeepsSound m b) :
    KeepsSound (do let _ ← m) b := by
  rcases h with ⟨a, b', heq, hb'⟩ | ⟨e, heq⟩ | ⟨u, b', heq⟩
  · exact .inl ⟨(), b', Op.bind_of_ok heq, hb'⟩
  · exact .inr (.inl ⟨e, Op.bind_of_error heq⟩)
  · exact .inr (.inr ⟨u, b', Op.bind_of_error heq⟩)

/-- The part of a call behind which nothing throws any more. -/
private def Ends {α : Type} (m : Op ByteArray α) (b : ByteArray) : Prop :=
  (∃ a b', m b = .ok a b' ∧ b'.Sound) ∨ ∃ u b', m b = .error (.undefined u) b'

section

variable {α β : Type} {b : ByteArray}

private theorem Ends.keepsSound {m : Op ByteArray α} (h : Ends m b) : KeepsSound m b := h.imp id .inr

private theorem Ends.get {f : ByteArray → Op ByteArray α} (h : Ends (f b) b) : Ends (get >>= f) b := h

/-- A null pointer is undefined behaviour. -/
private theorem Ends.deref {cur : Option Nat} {f : Nat → Op ByteArray α} (h : ∀ k, cur = some k → Ends (f k) b) :
    Ends (deref cur >>= f) b := by
  cases cur with
  | none => exact .inr ⟨_, _, rfl⟩
  | some k => exact h k rfl

/-- So is what a loop over the blocks can run into. -/
private theorem Ends.lift {x : Except Undefined β} {f : β → Op ByteArray α} (h : ∀ a, x = .ok a → Ends (f a) b) :
    Ends (Op.liftUndefined x >>= f) b := by
  cases x with
  | error u => exact .inr ⟨u, _, rfl⟩
  | ok a => exact h a rfl

private theorem KeepsSound.of_bind {m : Op ByteArray β} {f : β → Op ByteArray α} {a : β} {b₁ : ByteArray}
    (heq : m b = .ok a b₁) (h : Ends (f a) b₁) : KeepsSound (m >>= f) b := by
  unfold KeepsSound
  rw [Op.bind_of_ok heq]
  exact h.imp id .inr

end

/-! ### Growth and writing -/

private theorem addCapacity_cur_lt [Host] {b b' : ByteArray} {size : Nat} (h : ∀ k, b.cur = some k → k < b.nodes.length)
    (heq : addCapacity size b = .ok () b') : ∀ k, b'.cur = some k → k < b'.nodes.length := by
  unfold addCapacity at heq
  split at heq
  · cases heq
    exact h
  · split at heq
    · cases heq
      exact h
    · dsimp only at heq
      generalize (size - b.getCapacity + b.baseSize - 1) / b.baseSize = count at heq
      split at heq
      · cases heq
      · cases heq
        intro k hk
        show k < (b.nodes ++ freshNodes b.baseSize b.capacity count).length
        rw [List.length_append, length_freshNodes]
        dsimp only at hk
        split at hk
        · -- the first of the new blocks
          split at hk
          · cases hk
          · have hlast := Option.some.inj hk
            omega
        · have hold := h k hk
          omega

private theorem addCapacity_sound [Host] {b : ByteArray} (h : b.Sound) {size : Nat} (hsize : 0 < size) :
    addCapacity size b = .error (.throws .badAlloc) b ∨
      ∃ b', addCapacity size b = .ok () b' ∧ b'.Sound ∧ b'.baseSize = b.baseSize ∧ b'.position = b.position ∧
        b.position + size ≤ b'.capacity := by
  rcases addCapacity_spec h.valid hsize with ⟨-, heq⟩ | ⟨b', heq, hbase, -, hroom, hcur, h', hflat⟩
  · exact .inl heq
  · have hposition : b'.position = b.position := congrArg FlatArray.position hflat
    refine .inr ⟨b', heq, ⟨h', addCapacity_cur_lt h.cur_lt heq, fun hfirst => ?_⟩, hbase, hposition, hroom⟩
    rw [hposition, hbase] at hfirst
    have hle : b'.baseSize ≤ b'.capacity := by
      rw [h'.capacity_eq]
      exact Nat.le_mul_of_pos_left _ h'.nodes_pos
    rw [Synced, h'.nodeAt_div (by omega), hcur (.inl (h.synced hfirst)), hposition, hbase]

private theorem length_store {node node' : Node} {offset : Nat} {bytes : List Byte}
    (h : node.store offset bytes = .ok node') : node'.length = node.length := by
  unfold Node.store at h
  split at h
  · rename_i hfits
    cases h
    rw [length_overwrite (by omega)]
    omega
  · cases h

/-- Wherever it starts, the loop leaves the blocks as long as they were. -/
private theorem writeLoop_blocks {n : Nat} {nodes nodes' : List Node} (h : BlocksOf n nodes) {k k' npos ncap : Nat}
    {bytes : List Byte} (heq : writeLoop k nodes npos ncap bytes = .ok (nodes', k')) :
    BlocksOf n nodes' ∧ nodes'.length = nodes.length := by
  induction nodes generalizing k npos ncap bytes nodes' with
  | nil => cases heq
  | cons node rest ih =>
    obtain ⟨hnode, hrest⟩ := blocksOf_cons.1 h
    unfold writeLoop at heq
    split at heq
    · obtain ⟨node', hstore, heq⟩ := ok_of_bind_ok heq
      cases heq
      exact ⟨blocksOf_cons.2 ⟨(length_store hstore).trans hnode, hrest⟩, rfl⟩
    · obtain ⟨node', hstore, heq⟩ := ok_of_bind_ok heq
      obtain ⟨⟨rest', j⟩, hloop, heq⟩ := ok_of_bind_ok heq
      cases heq
      obtain ⟨hblocks, hlength⟩ := ih hrest hloop
      exact ⟨blocksOf_cons.2 ⟨(length_store hstore).trans hnode, hblocks⟩, congrArg Nat.succ hlength⟩

private theorem Sound.write [Host] {b : ByteArray} (h : b.Sound) (bytes : List Byte) :
    KeepsSound (write bytes bytes.length) b := by
  by_cases hempty : bytes = []
  · subst hempty
    exact .inl ⟨(), b, rfl, h⟩
  by_cases hfirst : b.position < b.baseSize
  · rcases write_spec h.valid (.inl (h.synced hfirst)) hempty with ⟨-, heq⟩ | ⟨b', heq, hsync, -, -, h', -⟩
    · exact .inr (.inl ⟨_, heq⟩)
    · exact .inl ⟨(), b', heq, .of_synced h' hsync⟩
  · -- whatever block the pointer leads to, the position stays behind the first one
    have hlen : 0 < bytes.length := List.length_pos_iff.2 hempty
    unfold ByteArray.write
    rw [if_neg (by omega)]
    rcases addCapacity_sound h hlen with heq | ⟨b₁, heq, h₁, hbase, hposition, hroom⟩
    · exact .inr (.inl ⟨_, Op.bind_of_error heq⟩)
    · refine .of_bind heq (.get (.deref fun k hcur => ?_))
      simp only [lt_self_iff_false, if_false, List.take_length]
      refine .lift fun result hloop => ?_
      obtain ⟨nodes', next⟩ := result
      have hk := h₁.cur_lt k hcur
      obtain ⟨hblocks, hlength⟩ := writeLoop_blocks (h₁.valid.blocks.drop k) hloop
      have hcount : (b₁.nodes.take k ++ nodes').length = b₁.nodes.length := by
        rw [List.length_append, List.length_take, hlength, List.length_drop]
        omega
      refine .inl ⟨(), _, rfl, ⟨?_, fun j hj => ?_, fun hback => ?_⟩⟩
      · constructor
        case base_pos => exact h₁.valid.base_pos
        case blocks => exact blocksOf_append.2 ⟨h₁.valid.blocks.take k, hblocks⟩
        case nodes_pos => exact hcount ▸ h₁.valid.nodes_pos
        case capacity_eq => exact hcount ▸ h₁.valid.capacity_eq
        case position_le => exact Nat.le_max_right _ _
        case size_le =>
          have hsize := h₁.valid.size_le
          show max b₁.size (b₁.position + bytes.length) ≤ b₁.capacity
          omega
        case fits => exact h₁.valid.fits
      · have hlt := nodeAt_lt hj
        show j < (b₁.nodes.take k ++ nodes').length
        omega
      · have hpast : b₁.position + bytes.length < b₁.baseSize := hback
        omega

/-! ### The other calls -/

private theorem Sound.read {b : ByteArray} (h : b.Sound) (n : Nat) : KeepsSound (read n) b := by
  by_cases hshort : b.size - b.position < n
  · exact .inr (.inl ⟨_, read_short hshort⟩)
  have hple := h.valid.position_le
  have hn : n ≤ b.size - b.position := by omega
  by_cases hfirst : b.position < b.baseSize
  · exact .inl ⟨_, _, read_spec h.valid (h.synced hfirst) hfirst hn,
      .of_synced (h.valid.moveTo (by omega)) (synced_moveTo b _)⟩
  · unfold ByteArray.read
    refine Ends.keepsSound (.get ?_)
    rw [getReadSize, if_neg hshort]
    refine .deref fun k hcur => .lift fun result hloop => ?_
    obtain ⟨bytes, next⟩ := result
    have hmoved := h.valid.moveTo (show b.position + n ≤ b.size by omega)
    refine .inl ⟨bytes, _, rfl, ⟨⟨h.valid.base_pos, h.valid.blocks, h.valid.nodes_pos, h.valid.capacity_eq,
      hmoved.position_le, h.valid.size_le, h.valid.fits⟩, fun _ hj => nodeAt_lt hj, fun hback => ?_⟩⟩
    have hpast : b.position + n < b.baseSize := hback
    omega

private theorem Sound.setPosition {b : ByteArray} (h : b.Sound) (p : Nat) : KeepsSound (setPosition p) b := by
  by_cases hp : p ≤ b.capacity
  · exact .inl ⟨(), _, setPosition_spec h.valid hp, .of_synced (h.valid.seek hp) rfl⟩
  · exact .inr (.inl ⟨_, setPosition_high (by omega)⟩)

private theorem Sound.clear {b : ByteArray} (h : b.Sound) : KeepsSound clear b := by
  have hready : Ready b.endian (b.moveTo 0) := ⟨h.valid.moveTo (Nat.zero_le _), synced_moveTo b 0, rfl⟩
  obtain ⟨b', heq, hb'⟩ := clear_spec hready
  exact .inl ⟨(), b', heq, .of_synced hb'.ready.valid hb'.ready.synced⟩

private theorem Sound.setIsLittleEndian {b : ByteArray} (h : b.Sound) (isLittle : Bool) :
    KeepsSound (setIsLittleEndian isLittle) b := by
  have hvalid := h.valid
  exact .inl ⟨(), _, rfl, ⟨hvalid.base_pos, hvalid.blocks, hvalid.nodes_pos, hvalid.capacity_eq, hvalid.position_le,
    hvalid.size_le, hvalid.fits⟩, h.cur_lt, h.synced⟩

private theorem Sound.getWriteBuffers [Host] {b : ByteArray} (h : b.Sound) (len : Nat) :
    KeepsSound (getWriteBuffers len) b := by
  unfold ByteArray.getWriteBuffers
  by_cases hzero : len = 0
  · rw [if_pos hzero]
    exact .inl ⟨_, b, rfl, h⟩
  · rw [if_neg hzero]
    rcases addCapacity_sound h (Nat.pos_of_ne_zero hzero) with heq | ⟨b₁, heq, h₁, -, -, -⟩
    · exact .inr (.inl ⟨_, Op.bind_of_error heq⟩)
    · exact .of_bind heq (.get (.deref fun k _ => .lift fun iovs _ => .inl ⟨_, _, rfl, h₁⟩))

private theorem Sound.fill {b : ByteArray} (h : b.Sound) (node offset : Nat) (bytes : List Byte) :
    KeepsSound (fill node offset bytes) b := by
  unfold ByteArray.fill
  refine Ends.keepsSound (.get ?_)
  cases hnode : b.nodes[node]? with
  | none => exact .inr ⟨_, _, rfl⟩
  | some block =>
    refine .lift fun block' hstore => ?_
    have hcount : (b.nodes.set node block').length = b.nodes.length := List.length_set
    have hblocks : BlocksOf b.baseSize (b.nodes.set node block') := by
      intro x hx
      rcases List.mem_or_eq_of_mem_set hx with hold | rfl
      · exact h.valid.blocks x hold
      · exact (length_store hstore).trans (h.valid.blocks block (List.mem_of_getElem? hnode))
    refine .inl ⟨(), _, rfl, ⟨h.valid.base_pos, hblocks, hcount ▸ h.valid.nodes_pos, hcount ▸ h.valid.capacity_eq,
      h.valid.position_le, h.valid.size_le, h.valid.fits⟩, fun k hk => ?_, fun hfirst => ?_⟩
    · have hlt := h.cur_lt k hk
      show k < (b.nodes.set node block').length
      omega
    · have hsync := h.synced hfirst
      show b.cur = nodeAt _ _
      rw [hsync, nodeAt, nodeAt]
      simp only [hcount]

/-! ### All reachable states -/

theorem Sound.exec [Host] {b : ByteArray} (h : b.Sound) (a : Access) : KeepsSound a.exec b := by
  cases a with
  | write bytes => exact h.write bytes
  | read n => exact (h.read n).discard
  | setPosition p => exact h.setPosition p
  | clear => exact h.clear
  | setIsLittleEndian isLittle => exact h.setIsLittleEndian isLittle
  | getWriteBuffers len => exact (h.getWriteBuffers len).discard
  | fill node offset bytes => exact h.fill node offset bytes

theorem Reachable.sound [Host] {b : ByteArray} (h : Reachable b) : b.Sound := by
  obtain ⟨baseSize, en, b₀, hpos, hnew, hreach⟩ := h
  obtain ⟨hvalid, hsync, -⟩ := new_valid hpos hnew
  refine hreach.invariant (fun s a s' hs _ hstep => ?_) (.of_synced hvalid hsync)
  unfold accesses at hstep
  dsimp only at hstep
  rcases hs.exec a with ⟨_, b', heq, hb'⟩ | ⟨e, heq⟩ | ⟨u, b', heq⟩ <;> rw [heq] at hstep
  · cases hstep
    exact hb'
  · cases hstep
    exact hs
  · cases hstep

/-- The state after some calls on a fresh array, none of which goes wrong. -/
def stateAfter [Host] (baseSize : Nat) (en : Endian) (calls : List Access) : Option ByteArray :=
  (new baseSize en).toOption.bind fun b₀ => (accesses b₀).run b₀ calls

theorem reachable_of_stateAfter [Host] (baseSize : Nat) (hpos : 0 < baseSize) (en : Endian) (calls : List Access)
    {b : ByteArray} (h : stateAfter baseSize en calls = some b) : Reachable b := by
  obtain ⟨b₀, hnew, hrun⟩ := Option.bind_eq_some_iff.1 h
  cases hcase : new baseSize en with
  | error fault =>
    rw [hcase] at hnew
    cases hnew
  | ok b₁ =>
    rw [hcase] at hnew
    cases hnew
    exact ⟨baseSize, en, b₀, hpos, hcase, Machine.reaches_of_run hrun⟩

end ByteArray

end AcidCompute

import AcidCompute.ByteArray.ReadAt

/-!
# Saving to a file and loading from it

`write_to_file` writes the blocks from the current one on, each from the offset of its position.  The length of a chunk
is the block's size, or what is left if that is less, minus the offset, so that a position inside a block with less than
a block left to write leads past the last block (`savesAndRestores_iff`).  `read_from_file` appends a file in chunks of
the block's size.
-/

namespace AcidCompute

/-- The files of the machine. -/
structure FileSystem where
  /-- of the files that can be opened for reading -/
  content : List Byte → Option (List Byte)
  /-- the names under which a file can be opened for writing -/
  writable : List Byte → Bool

namespace FileSystem

/-- A file is replaced. -/
def store (fs : FileSystem) (filename bytes : List Byte) : FileSystem :=
  { fs with content := fun name => if name = filename then some bytes else fs.content name }

@[simp] theorem content_store (fs : FileSystem) (filename bytes : List Byte) :
    (fs.store filename bytes).content filename = some bytes := if_pos rfl

end FileSystem

/-- `std::ofstream`: what has been written, and `badbit`. -/
structure OutputStream where
  bytes : List Byte
  bad : Bool

/-- `ofs.write(node->ptr + offset, length)`.  A negative length sets `badbit`, and then nothing more is written. -/
def OutputStream.write (ofs : OutputStream) (node : Node) (offset length : Int) : Except Undefined OutputStream :=
  if ofs.bad then return ofs
  else if length < 0 then return { ofs with bad := true }
  else do
    let bytes ← node.load offset.toNat length.toNat
    return { ofs with bytes := ofs.bytes ++ bytes }

namespace ByteArray

/-! ### The two functions -/

/-- The loop of `write_to_file` over the blocks from `cur` on. -/
def writeFileLoop (baseSize : Int) : List Node → Int → Int → OutputStream → Except Undefined OutputStream
  | [], _, readSize, ofs => if 0 < readSize then throw .nullDeref else return ofs
  | node :: rest, pos, readSize, ofs =>
    if 0 < readSize then do
      let diff := pos.tmod baseSize
      let len := (if baseSize < readSize then baseSize else readSize) - diff
      let ofs ← ofs.write node diff len
      writeFileLoop baseSize rest (pos + len) (readSize - len) ofs
    else return ofs

def writeToFile (fs : FileSystem) (filename : List Byte) : Op ByteArray (Bool × FileSystem) := do
  let b ← get
  if fs.writable filename then
    let nodes := b.cur.elim [] fun k => b.nodes.drop k
    let ofs ← Op.liftUndefined (writeFileLoop b.baseSize nodes b.position b.getReadSize ⟨[], false⟩)
    return (true, fs.store filename ofs.bytes)
  else return (false, fs)

/-- The loop of `read_from_file` over what has not been read of the file.  A read of fewer bytes than were asked for
sets `eofbit`; all reads but the last take at least one byte, which bounds the rounds. -/
def readFileLoop [Host] (baseSize : Nat) : Nat → List Byte → Op ByteArray Unit
  | 0, _ => return ()
  | rounds + 1, file => do
    let buffer := file.take baseSize
    write buffer buffer.length
    if buffer.length < baseSize then return ()
    else readFileLoop baseSize rounds (file.drop baseSize)

def readFromFile [Host] (fs : FileSystem) (filename : List Byte) : Op ByteArray Bool := do
  let b ← get
  match fs.content filename with
  | none => return false
  | some file =>
    readFileLoop b.baseSize (file.length + 1) file
    return true

/-- The file gets the unread bytes, and an array of any block size into which it is loaded gives them back as a string.
A file that cannot be opened is left alone. -/
def SavesAndRestores [Host] (b : ByteArray) (fs : FileSystem) (filename : List Byte) : Prop :=
  if fs.writable filename then
    ∃ fs', writeToFile fs filename b = .ok (true, fs') b ∧ fs'.content filename = some b.unread ∧
      ∀ (baseSize : Nat) (en : Endian) (b₀ : ByteArray), 0 < baseSize → new baseSize en = .ok b₀ →
        b.unread.length + baseSize ≤ addressSpace →
        ∃ b₁, (do
          let opened ← readFromFile fs' filename
          setPosition 0
          let bytes ← toString
          return (opened, bytes) : Op ByteArray (Bool × List Byte)) b₀ = .ok (true, b.unread) b₁
  else writeToFile fs filename b = .ok (false, fs) b

/-- Nothing is left to write, or the position is at the start of a block or a whole block is left, and the bytes from
the current block on are those at the position. -/
def Savable (b : ByteArray) : Prop :=
  b.position = b.size ∨
    (b.position % b.baseSize = 0 ∨ b.baseSize ≤ b.size - b.position) ∧ b.FoundAt (b.size - b.position) b.position

/-! ### Writing the blocks -/

private theorem writeFileLoop_nothing (baseSize : Int) (nodes : List Node) (pos : Int) (ofs : OutputStream) :
    writeFileLoop baseSize nodes pos 0 ofs = .ok ofs := by
  cases nodes <;> rfl

private theorem stream_write {node : Node} {offset len : Nat} (h : offset + len ≤ node.length) (bytes : List Byte) :
    OutputStream.write ⟨bytes, false⟩ node offset len = .ok ⟨bytes ++ (node.drop offset).take len, false⟩ := by
  unfold OutputStream.write
  rw [if_neg Bool.false_ne_true, if_neg (by omega), Int.toNat_natCast, Int.toNat_natCast, Node.load, if_pos h]
  rfl

private theorem tmod_eq (pos n : Nat) : (pos : Int).tmod n = (pos % n : Nat) := by
  rw [Int.tmod_eq_emod_of_nonneg (Int.natCast_nonneg _), Int.natCast_emod]

/-- From the start of a block. -/
private theorem writeFileLoop_aligned {n : Nat} {nodes : List Node} (h : BlocksOf n nodes) {pos m : Nat}
    (hpos : pos % n = 0) (out : List Byte) :
    writeFileLoop n nodes pos m ⟨out, false⟩ =
      if m ≤ nodes.length * n then .ok ⟨out ++ nodes.flatten.take m, false⟩ else .error .nullDeref := by
  induction nodes generalizing pos m out with
  | nil =>
    rcases Nat.eq_zero_or_pos m with rfl | hm
    · rw [Int.natCast_zero, writeFileLoop_nothing, if_pos (Nat.zero_le _), List.take_zero, List.append_nil]
    · rw [writeFileLoop, if_pos (by omega), List.length_nil, Nat.zero_mul, if_neg (by omega)]
      rfl
  | cons node rest ih =>
    obtain ⟨hnode, hrest⟩ := blocksOf_cons.1 h
    rcases Nat.eq_zero_or_pos m with rfl | hm
    · rw [Int.natCast_zero, writeFileLoop_nothing, if_pos (Nat.zero_le _), List.take_zero, List.append_nil]
    · have hzero : ((0 : Nat) : Int) = 0 := rfl
      rw [writeFileLoop, if_pos (by omega), tmod_eq, hpos, List.length_cons, Nat.succ_mul]
      by_cases hlong : n < m
      · -- a whole block
        have hlen : ((if (n : Int) < m then (n : Int) else m) - (0 : Nat)) = n := by
          rw [if_pos (by omega), hzero, Int.sub_zero]
        have hleft : (m : Int) - n = (m - n : Nat) := by omega
        have hnext : (pos : Int) + n = (pos + n : Nat) := by omega
        have htake : (node.drop 0).take n = node := by rw [List.drop_zero, List.take_of_length_le (by omega)]
        have hsplit : (node :: rest).flatten.take m = node ++ rest.flatten.take (m - n) := by
          rw [List.flatten_cons, List.take_append, List.take_of_length_le (by omega), hnode]
        dsimp only
        rw [hlen, stream_write (by omega), htake, hleft, hnext]
        refine (ih hrest (show (pos + n) % n = 0 by rw [Nat.add_mod_right]; exact hpos) (out ++ node)).trans ?_
        rw [hsplit, List.append_assoc]
        by_cases hroom : m - n ≤ rest.length * n
        · rw [if_pos hroom, if_pos (by omega)]
        · rw [if_neg hroom, if_neg (by omega)]
      · have hlen : ((if (n : Int) < m then (n : Int) else m) - (0 : Nat)) = m := by
          rw [if_neg (by omega), hzero, Int.sub_zero]
        have htake : (node :: rest).flatten.take m = (node.drop 0).take m := by
          rw [List.flatten_cons, List.take_append_of_le_length (by omega), List.drop_zero]
        dsimp only
        rw [hlen, stream_write (by omega), Int.sub_self, htake, if_pos (by omega)]
        exact writeFileLoop_nothing _ _ _ _

/-- From inside a block, with at least a block left to write. -/
private theorem writeFileLoop_inside {n : Nat} (hn : 0 < n) {nodes : List Node} (h : BlocksOf n nodes)
    (hne : 0 < nodes.length) {pos m : Nat} (hm : n ≤ m) :
    writeFileLoop n nodes pos m ⟨[], false⟩ =
      if pos % n + m ≤ nodes.length * n then .ok ⟨(nodes.flatten.drop (pos % n)).take m, false⟩
      else .error .nullDeref := by
  obtain ⟨node, rest, rfl⟩ := List.exists_cons_of_length_pos hne
  obtain ⟨hnode, hrest⟩ := blocksOf_cons.1 h
  have hmod := Nat.mod_lt pos hn
  have hoffset := block_offset pos n
  have hlen : ((if (n : Int) < m then (n : Int) else m) - (pos % n : Nat)) = (n - pos % n : Nat) := by
    have hmin : (if (n : Int) < m then (n : Int) else m) = n := by split <;> omega
    rw [hmin]
    omega
  have hleft : (m : Int) - (n - pos % n : Nat) = (m - (n - pos % n) : Nat) := by omega
  have hnext : (pos : Int) + (n - pos % n : Nat) = ((pos / n + 1) * n : Nat) := by
    rw [Nat.succ_mul]
    omega
  have htake : (node.drop (pos % n)).take (n - pos % n) = node.drop (pos % n) :=
    List.take_of_length_le (by rw [List.length_drop]; omega)
  have hsplit : ((node :: rest).flatten.drop (pos % n)).take m =
      node.drop (pos % n) ++ rest.flatten.take (m - (n - pos % n)) := by
    rw [List.flatten_cons, List.drop_append_of_le_length (by omega), List.take_append,
      List.take_of_length_le (l := node.drop (pos % n)) (by rw [List.length_drop]; omega), List.length_drop, hnode]
  rw [writeFileLoop, if_pos (by omega), tmod_eq]
  dsimp only
  rw [hlen, stream_write (by omega), htake, hleft, hnext]
  refine (writeFileLoop_aligned hrest (show (pos / n + 1) * n % n = 0 from Nat.mul_mod_left _ _) _).trans ?_
  rw [hsplit, List.length_cons, Nat.succ_mul, List.nil_append]
  by_cases hroom : m - (n - pos % n) ≤ rest.length * n
  · rw [if_pos hroom, if_pos (by omega)]
  · rw [if_neg hroom, if_neg (by omega)]

/-- From inside a block, with less than a block left to write: the chunk is as long as what is left exceeds the offset,
so that what is left afterwards is the offset, and the other way round in the next block, until there is none. -/
private theorem writeFileLoop_lost {n : Nat} {nodes : List Node} (h : BlocksOf n nodes) {pos m : Nat}
    (hpos : 0 < pos % n) (hmpos : 0 < m) (hm : m < n) (ofs : OutputStream) :
    writeFileLoop n nodes pos m ofs = .error .nullDeref := by
  induction nodes generalizing pos m ofs with
  | nil =>
    rw [writeFileLoop, if_pos (by omega)]
    rfl
  | cons node rest ih =>
    obtain ⟨hnode, hrest⟩ := blocksOf_cons.1 h
    have hmod := Nat.mod_lt pos (show 0 < n by omega)
    have hle := Nat.mod_le pos n
    have hlen : ((if (n : Int) < m then (n : Int) else m) - (pos % n : Nat)) = (m : Int) - (pos % n : Nat) := by
      rw [if_neg (by omega)]
    have hleft : (m : Int) - ((m : Int) - (pos % n : Nat)) = (pos % n : Nat) := by omega
    have hnext : (pos : Int) + ((m : Int) - (pos % n : Nat)) = (pos - pos % n + m : Nat) := by omega
    have hswap : (pos - pos % n + m) % n = m := by
      have hstart : pos - pos % n = n * (pos / n) := by
        have hdiv := Nat.div_add_mod pos n
        omega
      rw [hstart, Nat.mul_add_mod, Nat.mod_eq_of_lt hm]
    obtain ⟨ofs', hwrite⟩ : ∃ ofs', ofs.write node (pos % n : Nat) ((m : Int) - (pos % n : Nat)) = .ok ofs' := by
      unfold OutputStream.write
      split
      · exact ⟨_, rfl⟩
      · split
        · exact ⟨_, rfl⟩
        · rw [Node.load, if_pos (by omega)]
          exact ⟨_, rfl⟩
    rw [writeFileLoop, if_pos (by omega), tmod_eq]
    dsimp only
    rw [hlen, hwrite, hleft, hnext]
    exact ih hrest (show 0 < (pos - pos % n + m) % n by rw [hswap]; exact hmpos) hpos hmod ofs'

/-- The bytes from the current block on are written, or the loop runs into the null pointer behind the last block. -/
private theorem writeToFile_cur {b : ByteArray} (h : b.Valid) {k : Nat} (hcur : b.cur = some k)
    (hk : k < b.nodes.length) (hleft : b.position < b.size) (fs : FileSystem) (filename : List Byte)
    (hopen : fs.writable filename = true) :
    writeToFile fs filename b =
      if (b.position % b.baseSize = 0 ∨ b.baseSize ≤ b.size - b.position) ∧
          k * b.baseSize + b.position % b.baseSize + (b.size - b.position) ≤ b.capacity then
        .ok (true, fs.store filename
          ((b.data.drop (k * b.baseSize + b.position % b.baseSize)).take (b.size - b.position))) b
      else .error (.undefined .nullDeref) b := by
  have hblocks := h.blocks.drop k
  obtain ⟨hdata, hroom, hstart⟩ := h.from_block hk
  have hloop : writeFileLoop b.baseSize (b.nodes.drop k) b.position (b.size - b.position : Nat) ⟨[], false⟩ =
      if (b.position % b.baseSize = 0 ∨ b.baseSize ≤ b.size - b.position) ∧
          k * b.baseSize + b.position % b.baseSize + (b.size - b.position) ≤ b.capacity then
        .ok ⟨(b.data.drop (k * b.baseSize + b.position % b.baseSize)).take (b.size - b.position), false⟩
      else .error .nullDeref := by
    rw [← List.drop_drop, ← hdata]
    by_cases haligned : b.position % b.baseSize = 0
    · rw [writeFileLoop_aligned hblocks haligned, hroom, haligned, List.drop_zero, List.nil_append]
      by_cases hfits : b.size - b.position ≤ b.capacity - k * b.baseSize
      · rw [if_pos hfits, if_pos (by omega)]
      · rw [if_neg hfits, if_neg (by omega)]
    · by_cases hblock : b.baseSize ≤ b.size - b.position
      · rw [writeFileLoop_inside h.base_pos hblocks (by rw [List.length_drop]; omega) hblock, hroom]
        by_cases hfits : b.position % b.baseSize + (b.size - b.position) ≤ b.capacity - k * b.baseSize
        · rw [if_pos hfits, if_pos (by omega)]
        · rw [if_neg hfits, if_neg (by omega)]
      · rw [writeFileLoop_lost hblocks (by omega) (by omega) (by omega), if_neg (by omega)]
  unfold writeToFile
  rw [Op.get_bind_apply, if_pos hopen, hcur]
  dsimp only [Option.elim]
  rw [getReadSize, hloop]
  split <;> rfl

private theorem writeToFile_null {b : ByteArray} (hcur : b.cur = none) (hleft : b.position < b.size) (fs : FileSystem)
    (filename : List Byte) (hopen : fs.writable filename = true) :
    writeToFile fs filename b = .error (.undefined .nullDeref) b := by
  unfold writeToFile
  rw [Op.get_bind_apply, if_pos hopen, hcur]
  dsimp only [Option.elim]
  rw [getReadSize, writeFileLoop, if_pos (by omega)]
  rfl

private theorem writeToFile_nothing {b : ByteArray} (hend : b.position = b.size) (fs : FileSystem)
    (filename : List Byte) (hopen : fs.writable filename = true) :
    writeToFile fs filename b = .ok (true, fs.store filename []) b := by
  unfold writeToFile
  rw [Op.get_bind_apply, if_pos hopen, getReadSize, hend, Nat.sub_self, Int.natCast_zero, writeFileLoop_nothing]
  rfl

/-! ### Loading a file -/

private theorem writes_readFileLoop [Host] {en : Endian} {baseSize rounds : Nat} {file : List Byte}
    (hrounds : file.length < rounds * baseSize) : Writes en (readFileLoop baseSize rounds file) file := by
  induction rounds generalizing file with
  | zero => omega
  | succ rounds ih =>
    unfold readFileLoop
    have hlen : (file.take baseSize).length = min baseSize file.length := List.length_take
    by_cases hlast : (file.take baseSize).length < baseSize
    · have hwrite : Writes en (write (file.take baseSize) (file.take baseSize).length) file := by
        have hall : file.take baseSize = file := List.take_of_length_le (by omega)
        rw [hall]
        exact Writes.write file
      have hdone := hwrite.bind Writes.nil
      rw [List.append_nil] at hdone
      simpa only [hlast, if_true] using hdone
    · rw [Nat.succ_mul] at hrounds
      have hrest : (file.drop baseSize).length < rounds * baseSize := by
        rw [List.length_drop]
        omega
      have hfirst : Writes en (write (file.take baseSize) (file.take baseSize).length) (file.take baseSize) :=
        Writes.write _
      have hboth := hfirst.bind (ih hrest)
      rw [List.take_append_drop] at hboth
      simpa only [hlast, if_false] using hboth

/-- A file that is loaded into a fresh array and taken out as a string. -/
private theorem readFromFile_restores [Host] {fs : FileSystem} {filename file : List Byte}
    (hfile : fs.content filename = some file) {baseSize : Nat} (hpos : 0 < baseSize) {en : Endian} {b₀ : ByteArray}
    (hnew : new baseSize en = .ok b₀) (hfits : file.length + baseSize ≤ addressSpace) :
    ∃ b₁, (do
      let opened ← readFromFile fs filename
      setPosition 0
      let bytes ← toString
      return (opened, bytes) : Op ByteArray (Bool × List Byte)) b₀ = .ok (true, file) b₁ := by
  have hb := holds_of_new hpos hnew
  have hbase := hb.base_eq
  have hposition := hb.position_eq
  have hrounds : file.length < (file.length + 1) * b₀.baseSize := by
    have hmul := Nat.le_mul_of_pos_right (file.length + 1) hb.ready.valid.base_pos
    omega
  have hwrites : Writes en (readFileLoop b₀.baseSize (file.length + 1) file) file := writes_readFileLoop hrounds
  rcases hwrites b₀ hb.ready with ⟨b₁, heq, hwritten⟩ | ⟨hfull, -⟩
  · have hload : readFromFile fs filename b₀ = .ok true b₁ := by
      unfold readFromFile
      rw [Op.get_bind_apply, hfile]
      exact Op.bind_of_ok heq
    have hholds := hb.rewind hwritten
    have hstring := toString_spec hholds.ready.valid hholds.ready.synced
    rw [hholds.unread_eq] at hstring
    refine ⟨b₁.moveTo 0, ?_⟩
    rw [Op.bind_of_ok hload, Op.bind_of_ok (setPosition_zero hwritten.valid), Op.bind_of_ok hstring]
    rfl
  · exact absurd (.inr (by omega)) hfull

/-! ### Both ways -/

/-- Where the right bytes are written, they are also restored. -/
private theorem savesAndRestores_of_ok [Host] {b : ByteArray} {fs : FileSystem} {filename bytes : List Byte}
    (hopen : fs.writable filename = true) (heq : writeToFile fs filename b = .ok (true, fs.store filename bytes) b) :
    b.SavesAndRestores fs filename ↔ bytes = b.unread := by
  unfold SavesAndRestores
  rw [if_pos hopen, heq]
  constructor
  · rintro ⟨fs', hsame, hcontent, -⟩
    injection hsame with hpair
    have hfs : fs.store filename bytes = fs' := congrArg Prod.snd hpair
    rw [← hfs, FileSystem.content_store] at hcontent
    exact Option.some.inj hcontent
  · rintro rfl
    exact ⟨_, rfl, fs.content_store filename _, fun baseSize en b₀ hpos hnew hfits =>
      readFromFile_restores (fs.content_store filename _) hpos hnew hfits⟩

private theorem not_savesAndRestores_of_error [Host] {b b' : ByteArray} {fs : FileSystem} {filename : List Byte}
    {fault : Fault} (hopen : fs.writable filename = true) (heq : writeToFile fs filename b = .error fault b') :
    ¬ b.SavesAndRestores fs filename := by
  unfold SavesAndRestores
  rw [if_pos hopen, heq]
  rintro ⟨fs', hsame, -⟩
  cases hsame

private theorem savesAndRestores_of_open [Host] {b : ByteArray} (h : b.Sound) {fs : FileSystem} {filename : List Byte}
    (hopen : fs.writable filename = true) : b.SavesAndRestores fs filename ↔ b.Savable := by
  have hple := h.valid.position_le
  by_cases hend : b.position = b.size
  · have hnothing : [] = b.unread := by
      have hlen := h.valid.length_unread
      exact (List.length_eq_zero_iff.1 (by omega)).symm
    rw [savesAndRestores_of_ok hopen (writeToFile_nothing hend fs filename hopen)]
    exact iff_of_true hnothing (.inl hend)
  · have hin : b.position + (b.size - b.position) ≤ b.size := by omega
    have hunread : b.unread = (b.data.drop b.position).take (b.size - b.position) := by
      rw [take_unread (Nat.le_refl _), List.take_of_length_le (Nat.le_of_eq h.valid.length_unread)]
    unfold Savable
    cases hcur : b.cur with
    | none =>
      refine iff_of_false
        (not_savesAndRestores_of_error hopen (writeToFile_null hcur (by omega) fs filename hopen)) ?_
      rintro (hsame | ⟨-, hfound⟩)
      · exact hend hsame
      · unfold FoundAt at hfound
        rw [if_pos hin, hcur] at hfound
        obtain ⟨k, hk, -⟩ := hfound
        cases hk
    | some k =>
      have heq := writeToFile_cur h.valid hcur (h.cur_lt k hcur) (by omega) fs filename hopen
      rw [foundAt_cur h.valid hcur (by omega) hin, ← hunread]
      by_cases hok : (b.position % b.baseSize = 0 ∨ b.baseSize ≤ b.size - b.position) ∧
          k * b.baseSize + b.position % b.baseSize + (b.size - b.position) ≤ b.capacity
      · rw [if_pos hok] at heq
        rw [savesAndRestores_of_ok hopen heq]
        exact ⟨fun hsame => .inr ⟨hok.1, hok.2, hsame⟩, fun hcases => (hcases.resolve_left hend).2.2⟩
      · rw [if_neg hok] at heq
        refine iff_of_false (not_savesAndRestores_of_error hopen heq) ?_
        rintro (hsame | ⟨halign, hroom, -⟩)
        · exact hend hsame
        · exact hok ⟨halign, hroom⟩

/-- In every reachable state, for all files: saving the unread bytes and loading them again gives them back, if the file
can be opened, just where the state is such that the chunks come out right. -/
theorem savesAndRestores_iff [Host] {b : ByteArray} (h : Reachable b) (fs : FileSystem) (filename : List Byte) :
    b.SavesAndRestores fs filename ↔ (fs.writable filename = true → b.Savable) := by
  by_cases hopen : fs.writable filename = true
  · rw [savesAndRestores_of_open h.sound hopen]
    exact ⟨fun hsavable _ => hsavable, fun himp => himp hopen⟩
  · refine iff_of_true ?_ fun hyes => absurd hyes hopen
    unfold SavesAndRestores writeToFile
    rw [if_neg hopen, Op.get_bind_apply, if_neg hopen]
    rfl

section

attribute [local instance] Host.zeroed

/-- Six bytes in two blocks, with the cursor behind the byte at `position` of the first block. -/
private def sixBytes (position : Nat) : ByteArray where
  baseSize := 4
  position := position
  capacity := 8
  size := 6
  endian := .big
  nodes := [[1, 2, 3, 4], [5, 6, 0, 0]]
  cur := some 0

private theorem reachable_sixBytes (position : Fin 4) : Reachable (sixBytes position) :=
  reachable_of_stateAfter 4 (by decide) .big [.write [1, 2, 3, 4, 5, 6], .setPosition position] (by decide +revert)

private def anyFile : FileSystem := ⟨fun _ => none, fun _ => true⟩

/-- From the byte 2 on there are five bytes left, more than a block. -/
theorem savesAndRestores_iff_six : ∃ b fs, Reachable b ∧ b.position = 1 ∧ b.SavesAndRestores fs [102#8] :=
  ⟨sixBytes 1, anyFile, reachable_sixBytes 1, rfl, (savesAndRestores_iff (reachable_sixBytes 1) _ _).2 fun _ =>
    .inr ⟨.inr (by decide), foundAt_of_cur (by decide) rfl⟩⟩

/-- From the byte 4 on there are three bytes left, less than a block. -/
theorem not_savesAndRestores_three :
    ∃ b fs, Reachable b ∧ b.position = 3 ∧ b.unread = [4, 5, 6] ∧ fs.writable [102#8] = true ∧
      ¬ b.SavesAndRestores fs [102#8] := by
  refine ⟨sixBytes 3, anyFile, reachable_sixBytes 3, rfl, by decide, rfl, fun h => ?_⟩
  rcases (savesAndRestores_of_open (reachable_sixBytes 3).sound rfl).1 h with hend | ⟨hblock, -⟩
  · exact absurd hend (by decide)
  · exact absurd hblock (by decide)

end

end ByteArray

end AcidCompute

import AcidCompute.ByteArray.Basic

/-!
# The byte array as a flat array

`Valid` is the invariant of the block list and `Synced` says that the cached block is the one the position lies in.
The loops of `write`, `read` and `set_position`, started with the right offset and capacity, do on the list of blocks
what happens on its concatenation (`writeLoop_spec`, `readLoop_spec`, `seekLoop_spec`).
-/

namespace AcidCompute

namespace ByteArray

/-- All the storage of the array, block after block. -/
def data (b : ByteArray) : List Byte := b.nodes.flatten

/-- The bytes that have been written. -/
def content (b : ByteArray) : List Byte := b.data.take b.size

/-- The bytes between the position and the size. -/
def unread (b : ByteArray) : List Byte := b.content.drop b.position

/-- The invariant of the block list. -/
structure Valid (b : ByteArray) : Prop where
  base_pos : 0 < b.baseSize
  blocks : BlocksOf b.baseSize b.nodes
  nodes_pos : 0 < b.nodes.length
  capacity_eq : b.capacity = b.nodes.length * b.baseSize
  position_le : b.position ≤ b.size
  size_le : b.size ≤ b.capacity
  fits : b.capacity ≤ addressSpace

/-- The cached block is the one the position lies in, null at the very end. -/
def Synced (b : ByteArray) : Prop := b.cur = b.nodeAt (b.position / b.baseSize)

instance (b : ByteArray) : Decidable b.Synced := inferInstanceAs (Decidable (_ = _))

/-- The array with its position, and the block that goes with it, at `p`. -/
def moveTo (b : ByteArray) (p : Nat) : ByteArray :=
  { b with position := p, cur := b.nodeAt (p / b.baseSize) }

theorem Valid.length_data {b : ByteArray} (h : b.Valid) : b.data.length = b.capacity := by
  rw [data, h.blocks.length_flatten, h.capacity_eq]

theorem Valid.length_content {b : ByteArray} (h : b.Valid) : b.content.length = b.size := by
  rw [content, List.length_take, h.length_data, Nat.min_eq_left h.size_le]

theorem Valid.length_unread {b : ByteArray} (h : b.Valid) : b.unread.length = b.size - b.position := by
  rw [unread, List.length_drop, h.length_content]

theorem Valid.moveTo {b : ByteArray} (h : b.Valid) {p : Nat} (hp : p ≤ b.size) : (b.moveTo p).Valid where
  base_pos := h.base_pos
  blocks := h.blocks
  nodes_pos := h.nodes_pos
  capacity_eq := h.capacity_eq
  position_le := hp
  size_le := h.size_le
  fits := h.fits

theorem synced_moveTo (b : ByteArray) (p : Nat) : (b.moveTo p).Synced := rfl

/-! ### Fresh storage -/

theorem blocksOf_freshNodes [Host] (baseSize start count : Nat) :
    BlocksOf baseSize (freshNodes baseSize start count) := by
  induction count generalizing start with
  | zero => exact BlocksOf.nil _
  | succ count ih => exact blocksOf_cons.2 ⟨by simp, ih _⟩

@[simp] theorem length_freshNodes [Host] (baseSize start count : Nat) :
    (freshNodes baseSize start count).length = count := by
  induction count generalizing start with
  | zero => rfl
  | succ count ih => simp [freshNodes, ih]

theorem flatten_freshNodes [Host] (baseSize start count : Nat) :
    (freshNodes baseSize start count).flatten =
      (List.range (count * baseSize)).map fun i => Host.heap (start + i) := by
  induction count generalizing start with
  | zero => simp [freshNodes]
  | succ count ih =>
    rw [freshNodes, List.flatten_cons, ih, Nat.succ_mul, Nat.add_comm (count * baseSize) baseSize, List.range_add,
      List.map_append, List.map_map]
    simp [Function.comp_def, Nat.add_assoc]

theorem new_valid [Host] {baseSize : Nat} {en : Endian} {b : ByteArray} (hpos : 0 < baseSize)
    (h : new baseSize en = .ok b) :
    b.Valid ∧ b.Synced ∧ b.baseSize = baseSize ∧ b.endian = en ∧ b.position = 0 ∧ b.size = 0 ∧
      b.capacity = baseSize := by
  unfold new at h
  split at h
  · cases h
  · cases h
    refine ⟨⟨hpos, blocksOf_freshNodes _ _ _, by simp, by simp, Nat.le_refl _, Nat.zero_le _,
      show baseSize ≤ addressSpace by omega⟩, ?_,
      rfl, rfl, rfl, rfl, rfl⟩
    simp [Synced, nodeAt]

/-! ### The loops over the blocks -/

theorem headSize_of_blocks {n : Nat} {nodes : List Node} (h : BlocksOf n nodes)
    (hne : 0 < nodes.length) : Node.headSize nodes = n := by
  cases nodes with
  | nil => simp at hne
  | cons node rest => exact (blocksOf_cons.1 h).1

private theorem div_of_lt_two_mul {a n : Nat} (hn : 0 < n) (h : a ≤ n) : a / n = if a = n then 1 else 0 := by
  split
  · rename_i he; subst he; exact Nat.div_self hn
  · exact Nat.div_eq_of_lt (by omega)

theorem readLoop_spec {n : Nat} (hn : 0 < n) {nodes : List Node} (h : BlocksOf n nodes) (k : Nat)
    {npos size : Nat} (hpos : npos < n) (hsize : npos + size ≤ nodes.length * n ∨ size = 0) :
    readLoop k nodes npos (n - npos) size =
      .ok ((nodes.flatten.drop npos).take size, k + (npos + size) / n) := by
  induction nodes generalizing k npos size with
  | nil =>
    obtain rfl : size = 0 := by
      rcases hsize with hs | hs
      · simp at hs; omega
      · exact hs
    simp [readLoop, Nat.div_eq_of_lt hpos]
  | cons node rest ih =>
    obtain ⟨hnode, hrest⟩ := blocksOf_cons.1 h
    cases size with
    | zero => simp [readLoop, Nat.div_eq_of_lt hpos]
    | succ size =>
      have hsize' : npos + (size + 1) ≤ n + rest.length * n := by
        simp only [List.length_cons, Nat.succ_mul] at hsize; omega
      unfold readLoop
      split
      · -- the range ends in this block
        rename_i hcap
        rw [Node.load, if_pos (by omega)]
        have hdiv := div_of_lt_two_mul hn (show npos + (size + 1) ≤ n by omega)
        have htake : ((node :: rest).flatten.drop npos).take (size + 1) = (node.drop npos).take (size + 1) := by
          rw [List.flatten_cons, List.drop_append_of_le_length (by omega),
            List.take_append_of_le_length (by simp; omega)]
        rw [htake, hdiv]
        by_cases he : n - npos = size + 1
        · simp [he, show npos + (size + 1) = n by omega]
        · simp [he, show ¬ npos + (size + 1) = n by omega]
      · rename_i hcap
        have hne : 0 < rest.length := by
          rcases Nat.eq_zero_or_pos rest.length with h0 | h0
          · rw [h0] at hsize'; omega
          · exact h0
        have hload : node.load npos (n - npos) = .ok (node.drop npos) := by
          rw [Node.load, if_pos (by omega), List.take_of_length_le (by simp; omega)]
        have hrec := ih hrest (k + 1) (show 0 < n from hn)
          (show 0 + (size + 1 - (n - npos)) ≤ rest.length * n ∨ size + 1 - (n - npos) = 0 by omega)
        rw [headSize_of_blocks hrest hne]
        rw [Nat.sub_zero] at hrec
        rw [hload, hrec]
        have hdiv : (npos + (size + 1)) / n = (0 + (size + 1 - (n - npos))) / n + 1 := by
          rw [← Nat.add_div_right _ hn]; congr 1; omega
        have htake : ((node :: rest).flatten.drop npos).take (size + 1) =
            node.drop npos ++ (rest.flatten.drop 0).take (size + 1 - (n - npos)) := by
          rw [List.flatten_cons, List.drop_append_of_le_length (by omega), List.take_append,
            List.take_of_length_le (by simp; omega)]
          simp [hnode]
        rw [htake, hdiv]
        show Except.ok _ = Except.ok _
        congr 2
        omega

theorem writeLoop_spec {n : Nat} (hn : 0 < n) {nodes : List Node} (h : BlocksOf n nodes) (k : Nat)
    {npos : Nat} {bytes : List Byte} (hpos : npos < n) (hne : 0 < nodes.length)
    (hsize : npos + bytes.length ≤ nodes.length * n) :
    ∃ nodes', writeLoop k nodes npos (n - npos) bytes = .ok (nodes', k + (npos + bytes.length) / n) ∧
      BlocksOf n nodes' ∧ nodes'.length = nodes.length ∧
      nodes'.flatten = overwrite nodes.flatten npos bytes := by
  induction nodes generalizing k npos bytes with
  | nil => simp at hne
  | cons node rest ih =>
    obtain ⟨hnode, hrest⟩ := blocksOf_cons.1 h
    have hsize' : npos + bytes.length ≤ n + rest.length * n := by
      simp only [List.length_cons, Nat.succ_mul] at hsize; omega
    unfold writeLoop
    split
    · rename_i hcap
      have hstore : node.store npos bytes = .ok (overwrite node npos bytes) := by
        rw [Node.store, if_pos (by omega)]
      refine ⟨overwrite node npos bytes :: rest, ?_, ?_, rfl, ?_⟩
      · have hdiv := div_of_lt_two_mul hn (show npos + bytes.length ≤ n by omega)
        rw [hstore, hdiv]
        by_cases he : n - npos = bytes.length
        · simp [he, show npos + bytes.length = n by omega]
        · simp [he, show ¬ npos + bytes.length = n by omega]
      · refine blocksOf_cons.2 ⟨?_, hrest⟩
        rw [length_overwrite (by omega)]; omega
      · rw [List.flatten_cons, List.flatten_cons, overwrite_append (by omega)]
    · rename_i hcap
      have hne' : 0 < rest.length := by
        rcases Nat.eq_zero_or_pos rest.length with h0 | h0
        · rw [h0] at hsize'; omega
        · exact h0
      have htake : (bytes.take (n - npos)).length = n - npos := by simp; omega
      have hdrop : (bytes.drop (n - npos)).length = bytes.length - (n - npos) := by simp
      have hstore : node.store npos (bytes.take (n - npos)) = .ok (overwrite node npos (bytes.take (n - npos))) := by
        rw [Node.store, if_pos (by omega)]
      obtain ⟨rest', hrec, hblocks, hlen, hflat⟩ :=
        ih hrest (k + 1) (show 0 < n from hn) hne'
          (show 0 + (bytes.drop (n - npos)).length ≤ rest.length * n by omega)
      rw [Nat.sub_zero] at hrec
      refine ⟨overwrite node npos (bytes.take (n - npos)) :: rest', ?_, ?_, by simp [hlen], ?_⟩
      · have hdiv : (npos + bytes.length) / n = (0 + (bytes.drop (n - npos)).length) / n + 1 := by
          rw [← Nat.add_div_right _ hn]; congr 1; omega
        rw [headSize_of_blocks hrest hne', hstore, hrec, hdiv]
        show Except.ok _ = Except.ok _
        congr 2
        omega
      · refine blocksOf_cons.2 ⟨?_, hblocks⟩
        rw [length_overwrite (by omega), htake]; omega
      · rw [List.flatten_cons, List.flatten_cons, hflat]
        -- the block is written up to its end, so the two parts are adjacent
        have hfull : overwrite node npos (bytes.take (n - npos)) = node.take npos ++ bytes.take (n - npos) := by
          rw [overwrite, htake, List.drop_of_length_le (by omega)]; simp
        have hprefix : (node ++ rest.flatten).take npos = node.take npos :=
          List.take_append_of_le_length (by omega)
        have hsuffix : (node ++ rest.flatten).drop (npos + bytes.length) =
            rest.flatten.drop (bytes.length - (n - npos)) := by
          rw [List.drop_append, List.drop_of_length_le (by omega), hnode]
          simp only [List.nil_append]
          congr 1; omega
        rw [hfull, overwrite, overwrite, hprefix, hsuffix]
        simp [List.append_assoc, ← List.append_assoc (bytes.take _)]

theorem seekLoop_spec {n : Nat} (hn : 0 < n) {nodes : List Node} (h : BlocksOf n nodes) (k : Nat) {pos : Nat}
    (hne : 0 < nodes.length) (hpos : pos ≤ nodes.length * n) : seekLoop k nodes pos = .ok (k + pos / n) := by
  induction nodes generalizing k pos with
  | nil => simp at hne
  | cons node rest ih =>
    obtain ⟨hnode, hrest⟩ := blocksOf_cons.1 h
    unfold seekLoop
    rw [hnode]
    split
    · have hpos' : pos - n ≤ rest.length * n := by
        simp only [List.length_cons, Nat.succ_mul] at hpos; omega
      have hne' : 0 < rest.length := by
        rcases Nat.eq_zero_or_pos rest.length with h0 | h0
        · rw [h0] at hpos'; omega
        · exact h0
      rw [ih hrest (k + 1) hne' hpos']
      have hdiv : pos / n = (pos - n) / n + 1 := by
        rw [← Nat.add_div_right _ hn]; congr 1; omega
      rw [hdiv]
      congr 1; omega
    · rw [div_of_lt_two_mul hn (by omega)]
      split <;> simp

end ByteArray

end AcidCompute

import AcidCompute.Base.NodeMap

/-!
# Ordered multimaps with iterators

A `std::multimap` is a list of nodes in the order of their keys, and nodes with equal keys stand in the order in which
they were inserted.  Iterators are numbers of nodes, as for a `NodeMap`.
-/

namespace AcidCompute

@[ext] structure Multimap (κ β : Type) [LT κ] where
  entries : List (Entry κ β)
  /-- the number of the next node -/
  next : Nat
  sorted : entries.Pairwise fun a b => ¬ b.key < a.key
  nodes_ne : entries.Pairwise fun a b => a.node ≠ b.node
  node_lt : ∀ e ∈ entries, e.node < next

namespace Multimap

variable {κ β : Type} [LT κ]

omit [LT κ] in
theorem nodes_ne_nil : ([] : List (Entry κ β)).Pairwise fun a b => a.node ≠ b.node := List.Pairwise.nil

omit [LT κ] in
theorem node_lt_nil : ∀ e ∈ ([] : List (Entry κ β)), e.node < 0 := List.forall_mem_nil _

def empty : Multimap κ β := ⟨[], 0, List.Pairwise.nil, nodes_ne_nil, node_lt_nil⟩

/-- `erase(it)`; an iterator whose node is gone must not be used. -/
def erase (m : Multimap κ β) (it : Nat) : Option (Multimap κ β) :=
  if m.entries.any fun e => e.node = it then
    some {
      entries := m.entries.filter fun e => e.node ≠ it
      next := m.next
      sorted := m.sorted.filter _
      nodes_ne := m.nodes_ne.filter _
      node_lt := fun e he => m.node_lt e ((List.mem_filter.1 he).1) }
  else none

theorem erase_of_mem {m : Multimap κ β} {e : Entry κ β} (he : e ∈ m.entries) :
    ∃ m', m.erase e.node = some m' ∧ m'.entries = m.entries.filter (fun x => x.node ≠ e.node) ∧
      m'.next = m.next := by
  unfold erase
  rw [if_pos (List.any_eq_true.2 ⟨e, he, by simp⟩)]
  exact ⟨_, rfl, rfl, rfl⟩

theorem eq_of_node {m : Multimap κ β} {a b : Entry κ β} (ha : a ∈ m.entries) (hb : b ∈ m.entries)
    (h : a.node = b.node) : a = b := Entry.eq_of_node m.nodes_ne ha hb h

theorem nodup_entries (m : Multimap κ β) : m.entries.Nodup :=
  m.nodes_ne.imp fun hne heq => hne (congrArg Entry.node heq)

/-- No node has the number of the next one. -/
theorem filter_next (m : Multimap κ β) : (m.entries.filter fun e => m.next ≤ e.node) = [] := by
  rw [List.filter_eq_nil_iff]
  intro e he hle
  exact absurd (of_decide_eq_true hle) (Nat.not_le_of_lt (m.node_lt e he))

/-- The nodes between the iterators of `equal_range(k)`. -/
def equalRange [DecidableEq κ] (m : Multimap κ β) (k : κ) : List (Entry κ β) := m.entries.filter fun e => e.key = k

/-! ### Inserting in order -/

variable [DecidableLT κ]

/-- Behind the nodes that are not greater. -/
theorem sorted_insertEntry [Trans (fun a b : κ => a < b) (fun a b : κ => a < b) (fun a b : κ => a < b)]
    [Std.Irrefl (fun a b : κ => a < b)] {e : Entry κ β} {l : List (Entry κ β)}
    (h : l.Pairwise fun a b => ¬ b.key < a.key) :
    (NodeMap.insertEntry e l).Pairwise fun a b => ¬ b.key < a.key := by
  refine NodeMap.pairwise_insertEntry ?_ ?_ ?_ h
  · intro a _ b _ hlt hab hbe
    exact hab (Std.lt_trans hbe hlt)
  · intro a _ hlt hae
    exact Std.Irrefl.irrefl (r := fun a b : κ => a < b) a.key (Std.lt_trans hae hlt)
  · intro a _ hge
    exact hge

variable [Trans (fun a b : κ => a < b) (fun a b : κ => a < b) (fun a b : κ => a < b)]
  [Std.Irrefl (fun a b : κ => a < b)]

/-- `emplace(k, v)`: the map, and the new node. -/
def emplace (m : Multimap κ β) (k : κ) (v : β) : Multimap κ β × Nat :=
  ({ entries := NodeMap.insertEntry ⟨k, m.next, v⟩ m.entries
     next := m.next + 1
     sorted := sorted_insertEntry m.sorted
     nodes_ne := NodeMap.pairwise_insertEntry
      (fun a ha b hb _ _ => Nat.ne_of_gt (m.node_lt b hb)) (fun a ha _ => Nat.ne_of_gt (m.node_lt a ha))
      (fun a ha _ => Nat.ne_of_lt (m.node_lt a ha)) m.nodes_ne
     node_lt := fun e he => by
      rcases NodeMap.mem_insertEntry.1 he with rfl | hmem
      · exact Nat.lt_succ_self _
      · exact Nat.lt_succ_of_lt (m.node_lt e hmem) }, m.next)

variable {m : Multimap κ β} {k : κ} {v : β}

@[simp] theorem emplace_node : (m.emplace k v).2 = m.next := rfl

theorem mem_emplace {x : Entry κ β} : x ∈ (m.emplace k v).1.entries ↔ x = ⟨k, m.next, v⟩ ∨ x ∈ m.entries :=
  NodeMap.mem_insertEntry

/-- Of the nodes behind an `emplace`, the new one has the number that was next. -/
theorem filter_next_emplace :
    ((m.emplace k v).1.entries.filter fun e => m.next ≤ e.node) = [⟨k, m.next, v⟩] := by
  refine List.perm_singleton.1 ((List.perm_ext_iff_of_nodup ((nodup_entries _).filter _)
    (List.pairwise_singleton _ _)).2 fun e => ?_)
  rw [List.mem_filter, mem_emplace, List.mem_singleton]
  constructor
  · rintro ⟨rfl | he, hle⟩
    · rfl
    · exact absurd (of_decide_eq_true hle) (Nat.not_le_of_lt (m.node_lt e he))
  · rintro rfl
    exact ⟨.inl rfl, decide_eq_true (Nat.le_refl _)⟩

variable [DecidableEq κ]

omit [Trans (fun a b : κ => a < b) (fun a b : κ => a < b) (fun a b : κ => a < b)] in
private theorem filter_insertEntry {e : Entry κ β} {l : List (Entry κ β)}
    (h : l.Pairwise fun a b => ¬ b.key < a.key) (k : κ) :
    (NodeMap.insertEntry e l).filter (fun x => x.key = k) =
      l.filter (fun x => x.key = k) ++ if e.key = k then [e] else [] := by
  induction l with
  | nil => by_cases hk : e.key = k <;> simp [NodeMap.insertEntry, hk]
  | cons a l ih =>
    obtain ⟨hfirst, hrest⟩ := List.pairwise_cons.1 h
    unfold NodeMap.insertEntry
    by_cases hlt : e.key < a.key
    · rw [if_pos hlt]
      by_cases hk : e.key = k
      · -- the other nodes have greater keys
        have hnone : (a :: l).filter (fun x => x.key = k) = [] := by
          rw [List.filter_eq_nil_iff]
          intro x hx heq
          have hkey : x.key = e.key := (of_decide_eq_true heq).trans hk.symm
          rcases List.mem_cons.1 hx with rfl | hmem
          · rw [hkey] at hlt
            exact Std.Irrefl.irrefl (r := fun a b : κ => a < b) _ hlt
          · exact hfirst x hmem (hkey ▸ hlt)
        rw [List.filter_cons, if_pos (by simpa using hk), hnone]
        simp [hk]
      · rw [List.filter_cons, if_neg (by simpa using hk)]
        simp [hk]
    · rw [if_neg hlt, List.filter_cons, ih hrest, List.filter_cons]
      by_cases hk : a.key = k <;> simp [hk]

/-- A new node comes last among those with its key. -/
theorem equalRange_emplace (k' : κ) :
    (m.emplace k v).1.equalRange k' = m.equalRange k' ++ if k = k' then [⟨k, m.next, v⟩] else [] :=
  filter_insertEntry m.sorted k'

end Multimap

end AcidCompute

import Mathlib.Data.List.Pairwise

/-!
# Ordered maps with iterators

A `std::map` is a list of nodes in the order of their keys.  An iterator is the number of a node: it designates that
node until the node is erased, whatever happens to the rest of the map, and the number of an erased node is not used
again.
-/

namespace AcidCompute

/-- A node of a map. -/
structure Entry (κ β : Type) where
  key : κ
  node : Nat
  value : β
  deriving DecidableEq, Repr

/-- Nodes with different numbers are told apart by them. -/
theorem Entry.eq_of_node {κ β : Type} {l : List (Entry κ β)} (hl : l.Pairwise fun a b => a.node ≠ b.node)
    {a b : Entry κ β} (ha : a ∈ l) (hb : b ∈ l) (h : a.node = b.node) : a = b := by
  have hsymm : Std.Symm fun a b : Entry κ β => a.node ≠ b.node := ⟨fun _ _ hne => Ne.symm hne⟩
  by_contra hne
  exact hl.forall ha hb hne h

@[ext] structure NodeMap (κ β : Type) [LT κ] where
  entries : List (Entry κ β)
  /-- the number of the next node -/
  next : Nat
  sorted : entries.Pairwise fun a b => a.key < b.key
  nodes_ne : entries.Pairwise fun a b => a.node ≠ b.node
  node_lt : ∀ e ∈ entries, e.node < next

namespace NodeMap

variable {κ β : Type} [LT κ]

def empty : NodeMap κ β := ⟨[], 0, List.Pairwise.nil, List.Pairwise.nil, by simp⟩

/-- All nodes are erased. -/
def clear (m : NodeMap κ β) : NodeMap κ β := ⟨[], m.next, List.Pairwise.nil, List.Pairwise.nil, by simp⟩

/-- `erase(it)`; an iterator whose node is gone must not be used. -/
def erase (m : NodeMap κ β) (it : Nat) : Option (NodeMap κ β) :=
  if m.entries.any fun e => e.node = it then
    some {
      entries := m.entries.filter fun e => e.node ≠ it
      next := m.next
      sorted := m.sorted.filter _
      nodes_ne := m.nodes_ne.filter _
      node_lt := fun e he => m.node_lt e ((List.mem_filter.1 he).1) }
  else none

/-- The node of an iterator, and no other, is erased. -/
theorem erase_of_mem {m : NodeMap κ β} {e : Entry κ β} (he : e ∈ m.entries) :
    ∃ m', m.erase e.node = some m' ∧ ∀ x, x ∈ m'.entries ↔ x ∈ m.entries ∧ x.node ≠ e.node := by
  unfold erase
  rw [if_pos (List.any_eq_true.2 ⟨e, he, by simp⟩)]
  exact ⟨_, rfl, fun x => by simp⟩

theorem mem_of_erase {m m' : NodeMap κ β} {it : Nat} (h : m.erase it = some m') {e : Entry κ β} (he : e ∈ m'.entries) :
    e ∈ m.entries := by
  unfold erase at h
  split at h
  · cases h
    exact (List.mem_filter.1 he).1
  · cases h

theorem eq_of_node {m : NodeMap κ β} {a b : Entry κ β} (ha : a ∈ m.entries) (hb : b ∈ m.entries)
    (h : a.node = b.node) : a = b := Entry.eq_of_node m.nodes_ne ha hb h

theorem eq_of_key [Std.Irrefl (fun a b : κ => a < b)] {m : NodeMap κ β} {a b : Entry κ β} (ha : a ∈ m.entries)
    (hb : b ∈ m.entries) (h : a.key = b.key) : a = b := by
  have hsymm : Std.Symm fun a b : Entry κ β => a.key ≠ b.key := ⟨fun _ _ hne => Ne.symm hne⟩
  have hpair : m.entries.Pairwise fun a b => a.key ≠ b.key := by
    refine m.sorted.imp fun {x y} hlt heq => ?_
    rw [heq] at hlt
    exact Std.Irrefl.irrefl (r := fun a b : κ => a < b) y.key hlt
  by_contra hne
  exact hpair.forall ha hb hne h

/-- What an iterator designates. -/
def deref (m : NodeMap κ β) (it : Nat) : Option (Entry κ β) := m.entries.find? fun e => e.node = it

theorem deref_eq_some {m : NodeMap κ β} {it : Nat} {e : Entry κ β} (h : m.deref it = some e) :
    e ∈ m.entries ∧ e.node = it :=
  ⟨List.mem_of_find?_eq_some h, by simpa using List.find?_some h⟩

theorem deref_of_mem {m : NodeMap κ β} {e : Entry κ β} (he : e ∈ m.entries) : m.deref e.node = some e := by
  cases h : m.deref e.node with
  | none => simpa using List.find?_eq_none.1 h e he
  | some e' =>
    obtain ⟨hmem, hnode⟩ := deref_eq_some h
    rw [eq_of_node hmem he hnode]

/-! ### Searching by key -/

section

variable [DecidableEq κ]

def find (m : NodeMap κ β) (k : κ) : Option (Entry κ β) := m.entries.find? fun e => e.key = k

theorem find_eq_some {m : NodeMap κ β} {k : κ} {e : Entry κ β} (h : m.find k = some e) : e ∈ m.entries ∧ e.key = k :=
  ⟨List.mem_of_find?_eq_some h, by simpa using List.find?_some h⟩

theorem find_eq_none {m : NodeMap κ β} {k : κ} : m.find k = none ↔ ∀ e ∈ m.entries, e.key ≠ k := by
  simp [find]

theorem find_of_mem [Std.Irrefl (fun a b : κ => a < b)] {m : NodeMap κ β} {e : Entry κ β} (he : e ∈ m.entries) :
    m.find e.key = some e := by
  cases h : m.find e.key with
  | none => exact absurd rfl (find_eq_none.1 h e he)
  | some e' =>
    obtain ⟨hmem, hkey⟩ := find_eq_some h
    rw [eq_of_key hmem he hkey]

/-- `erase(k)` -/
def eraseKey (m : NodeMap κ β) (k : κ) : NodeMap κ β where
  entries := m.entries.filter fun e => e.key ≠ k
  next := m.next
  sorted := m.sorted.filter _
  nodes_ne := m.nodes_ne.filter _
  node_lt e he := m.node_lt e ((List.mem_filter.1 he).1)

theorem mem_eraseKey {m : NodeMap κ β} {k : κ} {e : Entry κ β} :
    e ∈ (m.eraseKey k).entries ↔ e ∈ m.entries ∧ e.key ≠ k := by
  simp [eraseKey]

end

/-! ### Inserting in order -/

variable [DecidableLT κ]

/-- Insertion in front of the first node with a greater key. -/
def insertEntry (e : Entry κ β) : List (Entry κ β) → List (Entry κ β)
  | [] => [e]
  | a :: l => if e.key < a.key then e :: a :: l else a :: insertEntry e l

theorem mem_insertEntry {e x : Entry κ β} {l : List (Entry κ β)} : x ∈ insertEntry e l ↔ x = e ∨ x ∈ l := by
  induction l with
  | nil => simp [insertEntry]
  | cons a l ih =>
    unfold insertEntry
    split
    · simp
    · simp only [List.mem_cons, ih]
      exact or_left_comm

/-- A relation to which the new node fits, in either place. -/
theorem pairwise_insertEntry {R : Entry κ β → Entry κ β → Prop} {e : Entry κ β} {l : List (Entry κ β)}
    (hbefore : ∀ a ∈ l, ∀ b ∈ l, e.key < a.key → R a b → R e b) (hfirst : ∀ a ∈ l, e.key < a.key → R e a)
    (hafter : ∀ a ∈ l, ¬ e.key < a.key → R a e) (h : l.Pairwise R) : (insertEntry e l).Pairwise R := by
  induction l with
  | nil => exact List.pairwise_singleton R e
  | cons a l ih =>
    obtain ⟨ha, hl⟩ := List.pairwise_cons.1 h
    unfold insertEntry
    split
    · rename_i hlt
      refine List.pairwise_cons.2 ⟨fun b hb => ?_, h⟩
      rcases List.mem_cons.1 hb with rfl | hmem
      · exact hfirst b hb hlt
      · exact hbefore a List.mem_cons_self b hb hlt (ha b hmem)
    · rename_i hge
      refine List.pairwise_cons.2 ⟨fun b hb => ?_, ih ?_ ?_ ?_ hl⟩
      · rcases mem_insertEntry.1 hb with rfl | hmem
        · exact hafter a List.mem_cons_self hge
        · exact ha b hmem
      · exact fun x hx y hy => hbefore x (List.mem_cons_of_mem a hx) y (List.mem_cons_of_mem a hy)
      · exact fun x hx => hfirst x (List.mem_cons_of_mem a hx)
      · exact fun x hx => hafter x (List.mem_cons_of_mem a hx)

/-- Where no node has the key of the new one, it goes in its place. -/
theorem sorted_insertEntry [Trans (fun a b : κ => a < b) (fun a b : κ => a < b) (fun a b : κ => a < b)]
    [Std.Trichotomous (fun a b : κ => a < b)] {e : Entry κ β} {l : List (Entry κ β)} (hnew : ∀ a ∈ l, a.key ≠ e.key)
    (h : l.Pairwise fun a b => a.key < b.key) : (insertEntry e l).Pairwise fun a b => a.key < b.key := by
  refine pairwise_insertEntry ?_ ?_ ?_ h
  · intro a _ b _ hlt hab
    exact Std.lt_trans hlt hab
  · intro a _ hlt
    exact hlt
  · intro a ha hge
    rcases Std.lt_trichotomy a.key e.key with hlt | heq | hgt
    · exact hlt
    · exact absurd heq (hnew a ha)
    · exact absurd hgt hge

variable [DecidableEq κ] [Trans (fun a b : κ => a < b) (fun a b : κ => a < b) (fun a b : κ => a < b)]
  [Std.Trichotomous (fun a b : κ => a < b)]

/-- `emplace(k, v)`: the map and the node of the key, which keeps its value if it was there. -/
def emplace (m : NodeMap κ β) (k : κ) (v : β) : NodeMap κ β × Nat :=
  match h : m.find k with
  | some e => (m, e.node)
  | none =>
    ({ entries := insertEntry ⟨k, m.next, v⟩ m.entries
       next := m.next + 1
       sorted := sorted_insertEntry (find_eq_none.1 h) m.sorted
       nodes_ne := pairwise_insertEntry
        (fun a ha b hb _ _ => Nat.ne_of_gt (m.node_lt b hb)) (fun a ha _ => Nat.ne_of_gt (m.node_lt a ha))
        (fun a ha _ => Nat.ne_of_lt (m.node_lt a ha)) m.nodes_ne
       node_lt := fun e he => by
        rcases mem_insertEntry.1 he with rfl | hmem
        · exact Nat.lt_succ_self _
        · exact Nat.lt_succ_of_lt (m.node_lt e hmem) }, m.next)

theorem emplace_of_none {m : NodeMap κ β} {k : κ} (h : m.find k = none) (v : β) :
    (m.emplace k v).2 = m.next ∧ (m.emplace k v).1.entries = insertEntry ⟨k, m.next, v⟩ m.entries ∧
      (m.emplace k v).1.next = m.next + 1 := by
  unfold emplace
  split
  · rename_i e heq
    rw [h] at heq
    cases heq
  · exact ⟨rfl, rfl, rfl⟩

theorem emplace_of_some {m : NodeMap κ β} {k : κ} {e : Entry κ β} (h : m.find k = some e) (v : β) :
    m.emplace k v = (m, e.node) := by
  unfold emplace
  split
  · rename_i e' heq
    rw [h] at heq
    cases heq
    rfl
  · rename_i heq
    rw [h] at heq
    cases heq

/-- The iterator that `emplace` returns can be used. -/
theorem exists_node_emplace (m : NodeMap κ β) (k : κ) (v : β) :
    ∃ e ∈ (m.emplace k v).1.entries, e.node = (m.emplace k v).2 := by
  cases hfind : m.find k with
  | some e =>
    rw [emplace_of_some hfind]
    exact ⟨e, (find_eq_some hfind).1, rfl⟩
  | none =>
    obtain ⟨hnode, hentries, -⟩ := emplace_of_none hfind v
    rw [hnode, hentries]
    exact ⟨_, mem_insertEntry.2 (.inl rfl), rfl⟩

theorem mem_emplace {m : NodeMap κ β} {k : κ} {v : β} {e : Entry κ β} (he : e ∈ (m.emplace k v).1.entries) :
    e ∈ m.entries ∨ e = ⟨k, m.next, v⟩ := by
  cases hfind : m.find k with
  | some e' =>
    rw [emplace_of_some hfind] at he
    exact .inl he
  | none =>
    rw [(emplace_of_none hfind v).2.1] at he
    exact (mem_insertEntry.1 he).symm

/-- The nodes stay, and another one has a new number. -/
theorem emplace_spec (m : NodeMap κ β) (k : κ) (v : β) :
    (∀ e ∈ m.entries, e ∈ (m.emplace k v).1.entries) ∧
    (∀ e ∈ (m.emplace k v).1.entries, e ∈ m.entries ∨ e.node = m.next) ∧ m.next ≤ (m.emplace k v).1.next := by
  cases hfind : m.find k with
  | some e =>
    rw [emplace_of_some hfind]
    exact ⟨fun x hx => hx, fun x hx => .inl hx, Nat.le_refl _⟩
  | none =>
    obtain ⟨-, hentries, hnext⟩ := emplace_of_none hfind v
    rw [hentries, hnext]
    refine ⟨fun x hx => mem_insertEntry.2 (.inr hx), ?_, Nat.le_succ _⟩
    intro x hx
    rcases mem_insertEntry.1 hx with rfl | hold
    · exact .inr rfl
    · exact .inl hold

end NodeMap

end AcidCompute

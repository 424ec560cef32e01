import AcidCompute.Base.Machine
import AcidCompute.IOManager.Basic
import Mathlib.Algebra.Group.Nat.Defs

/-!
# The table of contexts

`m_fd_contexts` has a pointer for each descriptor.  `add_event` compares the size of the table under the read lock, and
resizes it under the write lock, which it takes afterwards, with a size that depends on its own descriptor only: a
thread may shrink the table that another one has just grown.  As long as none does, the context of a descriptor stays
the same (`IOManager.Table.kept_of_reaches`).
-/

namespace AcidCompute

namespace IOManager

/-- `m_fd_contexts`, with addresses for pointers. -/
structure FdTable where
  entries : List Nat
  -- how many contexts there have been; the next one is created at this address
  created : Nat
  deriving DecidableEq, Repr

namespace FdTable

variable (table : FdTable)

def contextResize (size : Nat) : FdTable :=
  if size ≤ table.entries.length then { table with entries := table.entries.take size }
  else
    let count := size - table.entries.length
    ⟨table.entries ++ (List.range count).map fun i => table.created + i, table.created + count⟩

/-- The table that the constructor of `IOManager` makes. -/
def new : FdTable := contextResize ⟨[], 0⟩ 32

/-- `static_cast<int>(m_fd_contexts.size())` -/
def sizeAsInt : Int := (BitVec.ofNat 32 table.entries.length).toInt

/-- `m_fd_contexts[fd]` -/
def find (fd : Nat) : Except Failure Nat :=
  match table.entries[fd]? with
  | some o => .ok o
  | none => .error .outOfRange

/-- `static_cast<size_t>(fd * 1.5)` -/
def grownSize (fd : Nat) : Nat := fd * 3 / 2

variable {table} {size fd o : Nat}

theorem contextResize_grow (h : table.entries.length ≤ size) :
    (table.contextResize size).entries.length = size ∧ table.entries <+: (table.contextResize size).entries := by
  unfold contextResize
  split
  case isTrue hle =>
    have heq : size = table.entries.length := Nat.le_antisymm hle h
    refine ⟨by simp [heq], ?_⟩
    rw [heq, List.take_length]
  case isFalse => exact ⟨by simp [Nat.add_sub_cancel' h], List.prefix_append _ _⟩

theorem getElem?_contextResize (h : table.entries.length ≤ size) (hfd : table.entries[fd]? = some o) :
    (table.contextResize size).entries[fd]? = some o := by
  obtain ⟨rest, hrest⟩ := (contextResize_grow h).2
  rw [← hrest, List.getElem?_append_left (List.getElem?_eq_some_iff.1 hfd).1, hfd]

theorem find_ok (h : table.find fd = .ok o) : table.entries[fd]? = some o := by
  unfold find at h
  split at h
  case h_1 hfd =>
    cases h
    exact hfd
  case h_2 => cases h

end FdTable

namespace Table

structure State where
  table : FdTable
  -- the threads in front of the write lock, with their descriptors
  growing : Nat → Option Nat
  -- the contexts that `add_event` has found, and gives to `epoll_ctl`
  found : List (Nat × Nat)
  failure : Option Failure

inductive Event
  -- the section of `add_event` with the read lock
  | lookUp (thread : Nat) (fd : Nat)
  -- the section with the write lock
  | grow (thread : Nat) (fd : Nat)
  deriving DecidableEq, Repr

def initial : State := ⟨.new, fun _ => none, [], none⟩

def Enabled (s : State) : Event → Prop
  | .lookUp t fd => s.failure = none ∧ s.growing t = none ∧ fd < 2 ^ 31
  | .grow t fd => s.failure = none ∧ s.growing t = some fd

instance (s : State) (e : Event) : Decidable (Enabled s e) := by
  cases e <;> unfold Enabled <;> infer_instance

/-- A thread takes the pointer out of the table. -/
def State.find (s : State) (fd : Nat) : State :=
  match s.table.find fd with
  | .ok o => { s with found := s.found ++ [(fd, o)] }
  | .error f => { s with failure := some f }

def next (s : State) : Event → State
  | .lookUp t fd =>
    if s.table.sizeAsInt > fd then s.find fd else { s with growing := Function.update s.growing t (some fd) }
  | .grow t fd =>
    { s with
      table := s.table.contextResize (FdTable.grownSize fd)
      growing := Function.update s.growing t none }.find fd

def machine : Machine State Event where
  start := initial
  step s e := if Enabled s e then some (next s e) else none

theorem machine_step {s s' : State} {e : Event} (h : machine.step s e = some s') : Enabled s e ∧ next s e = s' := by
  simpa [machine] using h

/-- The size that a thread comes to the write lock with is not below the size of the table. -/
def Grows (s : State) : Event → Prop
  | .lookUp _ _ => True
  | .grow _ fd => s.table.entries.length ≤ FdTable.grownSize fd

instance (s : State) (e : Event) : Decidable (Grows s e) := by
  cases e <;> unfold Grows <;> infer_instance

/-- The contexts that have been found are in the table. -/
def Found (s : State) : Prop := ∀ p ∈ s.found, s.table.entries[p.1]? = some p.2

variable {s s' : State} {e : Event}

theorem find_table (fd : Nat) : (s.find fd).table = s.table := by
  unfold State.find
  split <;> rfl

theorem Found.find (h : Found s) (fd : Nat) : Found (s.find fd) := by
  intro p hp
  rw [find_table]
  unfold State.find at hp
  split at hp
  case h_1 o hfind =>
    rcases List.mem_append.1 hp with hold | hnew
    · exact h p hold
    · rw [List.mem_singleton.1 hnew]
      exact FdTable.find_ok hfind
  case h_2 => exact h p hp

/-- The table keeps its entries. -/
theorem getElem?_of_step (hgrows : Grows s e) (hstep : machine.step s e = some s') {fd o : Nat}
    (h : s.table.entries[fd]? = some o) : s'.table.entries[fd]? = some o := by
  obtain ⟨-, rfl⟩ := machine_step hstep
  cases e with
  | lookUp t fd' =>
    simp only [next]
    split
    case isTrue => rwa [find_table]
    case isFalse => exact h
  | grow t fd' =>
    rw [next, find_table]
    exact FdTable.getElem?_contextResize hgrows h

theorem Found.step (h : Found s) (hgrows : Grows s e) (hstep : machine.step s e = some s') : Found s' := by
  obtain ⟨-, rfl⟩ := machine_step hstep
  cases e with
  | lookUp t fd =>
    simp only [next]
    split
    case isTrue => exact h.find fd
    case isFalse => exact h
  | grow t fd =>
    apply Found.find
    intro p hp
    exact FdTable.getElem?_contextResize hgrows (h p hp)

/-- As long as no thread shrinks the table, a context that is in it stays at its index, and every context that a call
has found is the one that later calls find. -/
theorem kept_of_reaches (h : machine.Reaches Grows machine.start s) (h' : machine.Reaches Grows s s') :
    (∀ fd o : Nat, s.table.entries[fd]? = some o → s'.table.entries[fd]? = some o) ∧
      ∀ fd o : Nat, (fd, o) ∈ s'.found → s'.table.find fd = .ok o := by
  have hfound : Found s' :=
    (h.trans h').invariant (fun _ _ _ ht hgrows hstep => ht.step hgrows hstep) (fun p hp => by cases hp)
  refine ⟨fun fd o hfd => ?_, fun fd o hmem => ?_⟩
  · exact h'.invariant (I := fun t => t.table.entries[fd]? = some o)
      (fun _ _ _ ht hgrows hstep => getElem?_of_step hgrows hstep ht) hfd
  · simp [FdTable.find, hfound (fd, o) hmem]

/-- Two threads see a table of 32 entries, and the second one to resize it drops the context of the first. -/
private def shrunk : List Event := [.lookUp 0 100, .lookUp 1 40, .grow 0 100, .grow 1 40]

theorem exists_lost_shrunk : ∃ s, machine.Reaches Machine.any machine.start s ∧
    (100, 100) ∈ s.found ∧ s.table.entries[100]? = none :=
  Machine.exists_reaches_of_run shrunk (fun _ _ _ => trivial) (by decide +kernel)

/-- The same two threads in the other order. -/
private def grown : List Event := [.lookUp 0 100, .lookUp 1 40, .grow 1 40, .grow 0 100]

theorem kept_of_reaches_grown : ∃ s, machine.Reaches Grows machine.start s ∧ s.found = [(40, 40), (100, 100)] ∧
    s.table.find 40 = .ok 40 := by
  obtain ⟨s, hreach, hfound⟩ : ∃ s, machine.Reaches Grows machine.start s ∧ s.found = [(40, 40), (100, 100)] :=
    Machine.exists_reaches_of_guarded grown (by decide +kernel)
  exact ⟨s, hreach, hfound, (kept_of_reaches hreach .refl).2 40 40 (by simp [hfound])⟩

end Table

end IOManager

end AcidCompute

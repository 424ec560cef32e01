import AcidCompute.IOManager.Sections
import AcidCompute.IOManager.Table
import Mathlib.Data.Finset.Card
import Mathlib.Data.Finset.Prod

/-!
# Sequences of calls

`add_event`, `del_event`, `cancel_event` and `cancel_all` in any order, on any descriptors, with any results of
`epoll_ctl`.  Where the contexts are created in storage that holds `NONE` in `events`, which nothing initialises, and
no descriptor is negative, `m_pending_event_count` is the number of the bits that are set, and no assertion fails
(`IOManager.Calls.sound_of_reaches`).
-/

namespace AcidCompute

namespace IOManager

namespace Calls

structure State where
  shared : Shared
  table : FdTable
  failure : Option Failure

inductive Event
  -- with the empty function as `none`
  | addEvent (fd : Int) (event : IOManager.Event) (cb : Option Nat) (self : Caller) (epollCtl : Bool)
  | delEvent (fd : Int) (event : IOManager.Event) (epollCtl : Bool)
  | cancelEvent (fd : Int) (event : IOManager.Event) (epollCtl : Bool)
  | cancelAll (fd : Int) (epollCtl : Bool)
  deriving DecidableEq, Repr

def Event.fd : Event → Int
  | .addEvent fd _ _ _ _ | .delEvent fd _ _ | .cancelEvent fd _ _ | .cancelAll fd _ => fd

/-- The result of `epoll_ctl`. -/
def Event.epollCtl : Event → Bool
  | .addEvent _ _ _ _ epollCtl | .delEvent _ _ epollCtl | .cancelEvent _ _ epollCtl | .cancelAll _ epollCtl => epollCtl

/-- A manager whose contexts are created in the storage given. -/
def initial (storage : Nat → BitVec 32) : State := ⟨.initial storage, .new, none⟩

namespace State

variable (s : State)

/-- The event of a descriptor has a registration. -/
def Registered (fd : Int) (event : IOManager.Event) : Prop :=
  0 ≤ fd ∧ (s.table.entries[fd.toNat]?).any (fun o => decide (s.shared.slot o event).Holds) = true

instance (fd : Int) (event : IOManager.Event) : Decidable (s.Registered fd event) :=
  inferInstanceAs (Decidable (_ ∧ _))

end State

/-- `m_fd_contexts[fd]` -/
def fdContext (table : FdTable) (fd : Int) : Except Failure Nat :=
  if fd < 0 then .error .outOfRange else table.find fd.toNat

namespace State

variable (s : State)

/-- The sections with the lock of the table in `add_event`, one after the other. -/
def lookUp (fd : Int) : Except Failure (Nat × FdTable) :=
  if s.table.sizeAsInt > fd then do
    let o ← fdContext s.table fd
    return (o, s.table)
  else do
    -- a negative descriptor is outside of the table of any size
    let table := s.table.contextResize (FdTable.grownSize fd.toNat)
    let o ← fdContext table fd
    return (o, table)

def finish (x : Except Failure Shared) : State :=
  match x with
  | .ok shared => { s with shared := shared }
  | .error f => { s with failure := some f }

/-- The calls that do nothing for a descriptor outside of the table. -/
def withContext (fd : Int) (body : Nat → Except Failure Shared) : State :=
  if s.table.sizeAsInt ≤ fd then s
  else
    match fdContext s.table fd with
    | .ok o => s.finish (body o)
    | .error f => { s with failure := some f }

end State

/-- A call on an `int`, and for `add_event` with an event that is not registered. -/
def Enabled (s : State) : Event → Prop
  | .addEvent fd event _ _ _ => s.failure = none ∧ -2 ^ 31 ≤ fd ∧ fd < 2 ^ 31 ∧ ¬ s.Registered fd event
  | e => s.failure = none ∧ -2 ^ 31 ≤ e.fd ∧ e.fd < 2 ^ 31

instance (s : State) (e : Event) : Decidable (Enabled s e) := by
  cases e <;> unfold Enabled <;> infer_instance

def next (s : State) : Event → State
  | .addEvent fd event cb self epollCtl =>
    match s.lookUp fd with
    | .ok (o, table) => { s with table := table }.finish ((s.shared.addEvent o event cb self epollCtl).map Prod.snd)
    | .error f => { s with failure := some f }
  | .delEvent fd event epollCtl => s.withContext fd fun o => .ok (s.shared.delEvent o event epollCtl).2
  | .cancelEvent fd event epollCtl => s.withContext fd fun o => (s.shared.cancelEvent o event epollCtl).map Prod.snd
  | .cancelAll fd epollCtl => s.withContext fd fun o => (s.shared.cancelAll o epollCtl).map Prod.snd

def machine (storage : Nat → BitVec 32) : Machine State Event where
  start := initial storage
  step s e := if Enabled s e then some (next s e) else none

theorem machine_step {storage : Nat → BitVec 32} {s s' : State} {e : Event}
    (h : (machine storage).step s e = some s') : Enabled s e ∧ next s e = s' := by
  simpa [machine] using h

/-! ### Bits and the counter -/

/-- The bits that are set in the first contexts. -/
def registered (n : Nat) (s : Shared) : Finset (Nat × IOManager.Event) :=
  (Finset.range n ×ˢ Finset.univ).filter fun x => s.Has x.1 x.2

theorem mem_registered {n : Nat} {s : Shared} {x : Nat × IOManager.Event} :
    x ∈ registered n s ↔ x.1 < n ∧ s.Has x.1 x.2 := by
  simp [registered]

theorem card_registered_le (n : Nat) (s : Shared) : (registered n s).card ≤ 2 * n := by
  have hcard : (Finset.range n ×ˢ (Finset.univ : Finset IOManager.Event)).card = n * 2 := by
    rw [Finset.card_product, Finset.card_range]
    rfl
  have hle := Finset.card_filter_le (Finset.range n ×ˢ (Finset.univ : Finset IOManager.Event)) fun x => s.Has x.1 x.2
  rw [hcard] at hle
  exact hle.trans_eq (Nat.mul_comm n 2)

/-- The counter is the number of the bits that are set in the first contexts, and others have none. -/
structure Tallied (n : Nat) (s : Shared) : Prop where
  sound : Sound s
  outside : ∀ o event, s.Has o event → o < n
  pending : s.pending.toNat = (registered n s).card

section

variable {n n' o : Nat} {s s' : Shared} {event : IOManager.Event} {tasks : List Scheduled}

theorem Tallied.mono (h : Tallied n s) (hle : n ≤ n') : Tallied n' s where
  sound := h.sound
  outside o event hhas := Nat.lt_of_lt_of_le (h.outside o event hhas) hle
  pending := by
    have hsame : registered n' s = registered n s := by
      ext x
      rw [mem_registered, mem_registered]
      exact ⟨fun hx => ⟨h.outside x.1 x.2 hx.2, hx.2⟩, fun hx => ⟨Nat.lt_of_lt_of_le hx.1 hle, hx.2⟩⟩
    rw [hsame]
    exact h.pending

theorem Tallied.register (h : Tallied n s) (hn : n < 2 ^ 32) (ho : o < n) (hnot : ¬ s.Has o event) {ec : EventContext}
    (hholds : ec.Holds) (hnumber : ec.registration = s.registrations) : Tallied n (s.register o event ec) where
  sound := h.sound.register hnot hholds hnumber
  outside o' event' hhas := by
    rcases Shared.has_register.1 hhas with ⟨rfl, -⟩ | hold
    · exact ho
    · exact h.outside o' event' hold
  pending := by
    have hinsert : registered n (s.register o event ec) = insert (o, event) (registered n s) := by
      ext ⟨o', event'⟩
      rw [Finset.mem_insert, mem_registered, mem_registered, Shared.has_register, Prod.mk.injEq]
      constructor
      · rintro ⟨hlt, hself | hold⟩
        · exact .inl hself
        · exact .inr ⟨hlt, hold⟩
      · rintro (⟨rfl, rfl⟩ | ⟨hlt, hold⟩)
        · exact ⟨ho, .inl ⟨rfl, rfl⟩⟩
        · exact ⟨hlt, .inr hold⟩
    have hnew : (o, event) ∉ registered n s := fun hmem => hnot (mem_registered.1 hmem).2
    have hbound := card_registered_le n s
    have hpending := h.pending
    rw [hinsert, Finset.card_insert_of_notMem hnew]
    show (s.pending + 1).toNat = _
    rw [BitVec.toNat_add, hpending]
    have hone : (1 : BitVec 64).toNat = 1 := rfl
    rw [hone, Nat.mod_eq_of_lt]
    omega

/-- The counter does not go below zero, since the bit that is cleared has been counted. -/
theorem Tallied.drop (h : Tallied n s) (hhas : s.Has o event) (hsound : Sound s')
    (hcontexts : s'.contexts = (s.drop o event).contexts) (hpending : s'.pending = s.pending - 1) : Tallied n s' := by
  have hhas' : ∀ o' event', s'.Has o' event' ↔ ¬ (o' = o ∧ event' = event) ∧ s.Has o' event' :=
    fun o' event' => Shared.has_of_contexts_drop hcontexts
  have hmem : (o, event) ∈ registered n s := mem_registered.2 ⟨h.outside o event hhas, hhas⟩
  have herase : registered n s' = (registered n s).erase (o, event) := by
    ext ⟨o', event'⟩
    rw [Finset.mem_erase, mem_registered, mem_registered, hhas', ne_eq, Prod.mk.injEq]
    exact and_left_comm
  have hpos := Finset.card_pos.2 ⟨_, hmem⟩
  have hcount := h.pending
  have hlt := s.pending.isLt
  refine ⟨hsound, fun o' event' hold => h.outside o' event' ((hhas' o' event').1 hold).2, ?_⟩
  rw [herase, Finset.card_erase_of_mem hmem, hpending, BitVec.toNat_sub]
  have hone : (1 : BitVec 64).toNat = 1 := rfl
  omega

theorem Tallied.triggers (h : Tallied n s) (ht : Triggers o s tasks s') : Tallied n s' := by
  induction ht with
  | done => exact h
  | @trigger s s' event task tasks hhas hslot hrest ih =>
    have hone : Triggers o s [task] { s.drop o event with scheduled := s.scheduled ++ [task] } :=
      .trigger hhas hslot .done
    exact ih (h.drop hhas (h.sound.triggers hone) rfl rfl)

end

/-! ### The table -/

/-- The table has grown only. -/
structure Grown (table : FdTable) : Prop where
  all : table.entries.length = table.created
  least : 32 ≤ table.entries.length
  most : table.entries.length < 2 ^ 31
  created : ∀ o ∈ table.entries, o < table.created

theorem Grown.new : Grown FdTable.new where
  all := by decide
  least := by decide
  most := by decide
  created := by decide

theorem Grown.sizeAsInt_eq {table : FdTable} (h : Grown table) : table.sizeAsInt = table.entries.length := by
  have hmost := h.most
  rw [FdTable.sizeAsInt, BitVec.toInt_eq_toNat_of_lt]
  · rw [BitVec.toNat_ofNat, Nat.mod_eq_of_lt (by omega)]
  · rw [BitVec.toNat_ofNat, Nat.mod_eq_of_lt (by omega)]
    omega

theorem Grown.find {table : FdTable} (h : Grown table) {fd : Nat} (hfd : fd < table.entries.length) :
    ∃ o, table.find fd = .ok o ∧ o < table.created := by
  refine ⟨table.entries[fd], ?_, h.created _ (List.getElem_mem hfd)⟩
  simp [FdTable.find, hfd]

theorem Grown.resize {table : FdTable} (h : Grown table) {size : Nat} (hle : table.entries.length < size)
    (hsize : size < 2 ^ 31) :
    Grown (table.contextResize size) ∧ table.created ≤ (table.contextResize size).created := by
  obtain ⟨hlength, -⟩ := FdTable.contextResize_grow (Nat.le_of_lt hle)
  have hcreated : (table.contextResize size).created = table.created + (size - table.entries.length) := by
    rw [FdTable.contextResize, if_neg (Nat.not_le.2 hle)]
  have hall := h.all
  refine ⟨⟨by omega, by rw [hlength]; exact Nat.le_of_lt (Nat.lt_of_le_of_lt h.least hle), by omega, ?_⟩, by omega⟩
  intro o ho
  rw [hcreated]
  rw [FdTable.contextResize, if_neg (Nat.not_le.2 hle)] at ho
  rcases List.mem_append.1 ho with hold | hnew
  · exact Nat.lt_of_lt_of_le (h.created o hold) (Nat.le_add_right _ _)
  · obtain ⟨i, hi, rfl⟩ := List.mem_map.1 hnew
    exact Nat.add_lt_add_left (List.mem_range.1 hi) _

/-! ### One call -/

/-- What holds in every state of a run in which the table grows only. -/
structure Accounted (s : State) : Prop where
  grown : Grown s.table
  tallied : Tallied s.table.created s.shared
  failure : s.failure = none ∨ s.failure = some .nullDeref

theorem Accounted.initial {storage : Nat → BitVec 32} (hstorage : ∀ o, storage o = 0) :
    Accounted (initial storage) := by
  have hnone := Shared.not_has_initial hstorage
  have hempty : registered FdTable.new.created (Shared.initial storage) = ∅ := by
    rw [Finset.eq_empty_iff_forall_notMem]
    exact fun x hx => hnone x.1 x.2 (mem_registered.1 hx).2
  refine ⟨Grown.new, ⟨Sound.initial hstorage, fun o event hhas => absurd hhas (hnone o event), ?_⟩, .inl rfl⟩
  show _ = (registered FdTable.new.created (Shared.initial storage)).card
  rw [hempty]
  rfl

/-- A section leaves the bits counted, or ends with a null scheduler. -/
def Leads (n : Nat) (x : Except Failure Shared) : Prop := x = .error .nullDeref ∨ ∃ s', x = .ok s' ∧ Tallied n s'

section

variable {s : State} {fd n : Nat}

theorem Leads.of_fires {o : Nat} {s : Shared} {x : Except Failure Shared} (h : Tallied n s)
    (hx : Shared.Fires o s x) : Leads n x := by
  rcases hx with herror | ⟨tasks, s', htriggers, hok⟩
  · exact .inl herror
  · exact .inr ⟨s', hok, h.triggers htriggers⟩

theorem Leads.delEvent {o : Nat} {s : Shared} (h : Tallied n s) (event : IOManager.Event) (epollCtl : Bool) :
    Leads n (.ok (s.delEvent o event epollCtl).2) := by
  have hsound := Shared.sound_delEvent h.sound o event epollCtl
  rw [Shared.delEvent_eq] at hsound ⊢
  split at hsound
  case isTrue hhas =>
    rw [if_pos hhas]
    exact .inr ⟨_, rfl, h.drop hhas.1 hsound rfl rfl⟩
  case isFalse hnot =>
    rw [if_neg hnot]
    exact .inr ⟨s, rfl, h⟩

theorem Accounted.finish (h : Accounted s) {x : Except Failure Shared} (hx : Leads s.table.created x) :
    Accounted (s.finish x) := by
  rcases hx with rfl | ⟨shared, rfl, htallied⟩
  · exact ⟨h.grown, h.tallied, .inr rfl⟩
  · exact ⟨h.grown, htallied, h.failure⟩

theorem fdContext_natCast (table : FdTable) (fd : Nat) : fdContext table fd = table.find fd :=
  if_neg (Int.not_lt.2 (Int.natCast_nonneg fd))

theorem Accounted.withContext (h : Accounted s) {body : Nat → Except Failure Shared}
    (hbody : ∀ o, Leads s.table.created (body o)) : Accounted (s.withContext fd body) := by
  unfold State.withContext
  rw [fdContext_natCast]
  split
  case isTrue => exact h
  case isFalse hlt =>
    rw [h.grown.sizeAsInt_eq] at hlt
    have hlength : fd < s.table.entries.length := by omega
    obtain ⟨o, hfind, -⟩ := h.grown.find hlength
    rw [hfind]
    exact h.finish (hbody o)

/-- `add_event` finds the context of its descriptor, which is new where the table has grown. -/
theorem Accounted.lookUp (h : Accounted s) (hfd : FdTable.grownSize fd < 2 ^ 31) :
    ∃ o table, s.lookUp fd = .ok (o, table) ∧ o < table.created ∧ Grown table ∧ s.table.created ≤ table.created ∧
      (s.table.entries[fd]? = some o ∨ s.table.created ≤ o) := by
  have hsize := h.grown.sizeAsInt_eq
  have hleast := h.grown.least
  have hall := h.grown.all
  by_cases hlt : fd < s.table.entries.length
  · obtain ⟨o, hfind, ho⟩ := h.grown.find hlt
    refine ⟨o, s.table, ?_, ho, h.grown, Nat.le_refl _, .inl (FdTable.find_ok hfind)⟩
    have hcovers : s.table.sizeAsInt > fd := by omega
    simp only [State.lookUp, hcovers, if_true, fdContext_natCast, hfind]
    rfl
  · have hless : s.table.entries.length < FdTable.grownSize fd := by
      unfold FdTable.grownSize
      omega
    obtain ⟨hgrown, hcreated⟩ := h.grown.resize hless hfd
    have hlength := (FdTable.contextResize_grow (Nat.le_of_lt hless)).1
    have hin : fd < (s.table.contextResize (FdTable.grownSize fd)).entries.length := by
      rw [hlength]
      unfold FdTable.grownSize
      omega
    obtain ⟨o, hfind, ho⟩ := hgrown.find hin
    refine ⟨o, s.table.contextResize (FdTable.grownSize fd), ?_, ho, hgrown, hcreated, .inr ?_⟩
    · have hcovers : ¬ s.table.sizeAsInt > fd := by omega
      simp only [State.lookUp, hcovers, if_false, fdContext_natCast, Int.toNat_natCast, hfind]
      rfl
    · have hentry := FdTable.find_ok hfind
      rw [FdTable.contextResize, if_neg (Nat.not_le.2 hless), List.getElem?_append_right (Nat.le_of_not_lt hlt),
        List.getElem?_map] at hentry
      obtain ⟨i, -, rfl⟩ := Option.map_eq_some_iff.1 hentry
      exact Nat.le_add_right _ _

theorem Accounted.not_has (h : Accounted s) {o : Nat} {event : IOManager.Event} (hnot : ¬ s.Registered fd event)
    (ho : s.table.entries[fd]? = some o ∨ s.table.created ≤ o) : ¬ s.shared.Has o event := by
  intro hhas
  rcases ho with hentry | hge
  · apply hnot
    simp [State.Registered, hentry, h.tallied.sound.holds o event hhas]
  · exact Nat.lt_irrefl _ (Nat.lt_of_lt_of_le (h.tallied.outside o event hhas) hge)

theorem Accounted.addEvent (h : Accounted s) (hfd : FdTable.grownSize fd < 2 ^ 31) {event : IOManager.Event}
    (hnot : ¬ s.Registered fd event) (cb : Option Nat) (self : Caller) (epollCtl : Bool) :
    Accounted (next s (.addEvent fd event cb self epollCtl)) ∧
      (epollCtl = false → (next s (.addEvent fd event cb self epollCtl)).shared = s.shared) := by
  obtain ⟨o, table, hlookUp, ho, hgrown, hle, hentry⟩ := h.lookUp hfd
  have hhas := h.not_has hnot hentry
  have htallied := h.tallied.mono hle
  have hlarger : Accounted { s with table := table } := ⟨hgrown, htallied, h.failure⟩
  simp only [next, hlookUp]
  cases epollCtl with
  | false =>
    rw [Shared.addEvent_failed hhas]
    exact ⟨hlarger.finish (.inr ⟨s.shared, rfl, htallied⟩), fun _ => rfl⟩
  | true =>
    obtain ⟨ec, hholds, hnumber, hadd⟩ := Shared.addEvent_spec h.tallied.sound hhas cb self
    have hmost := hgrown.most
    have hall := hgrown.all
    rw [hadd]
    refine ⟨hlarger.finish (.inr ⟨_, rfl, htallied.register ?_ ho hhas hholds hnumber⟩), fun hfalse => by cases hfalse⟩
    omega

end

/-- The descriptor is not negative, and `add_event` makes a table whose size is an `int`. -/
def Indexed (_ : State) : Event → Prop
  | .addEvent fd _ _ _ _ => 0 ≤ fd ∧ FdTable.grownSize fd.toNat < 2 ^ 31
  | e => 0 ≤ e.fd

instance (s : State) (e : Event) : Decidable (Indexed s e) := by
  cases e <;> unfold Indexed <;> infer_instance

section

variable {storage : Nat → BitVec 32} {s s' : State} {e : Event}

theorem Accounted.step (h : Accounted s) (hindexed : Indexed s e) (hstep : (machine storage).step s e = some s') :
    Accounted s' := by
  obtain ⟨henabled, rfl⟩ := machine_step hstep
  cases e with
  | addEvent fd event cb self epollCtl =>
    lift fd to Nat using hindexed.1
    exact (h.addEvent hindexed.2 henabled.2.2.2 cb self epollCtl).1
  | delEvent fd event epollCtl =>
    lift fd to Nat using hindexed
    exact h.withContext fun o => Leads.delEvent h.tallied event epollCtl
  | cancelEvent fd event epollCtl =>
    lift fd to Nat using hindexed
    exact h.withContext fun o => Leads.of_fires h.tallied (Shared.cancelEvent_fires o event epollCtl)
  | cancelAll fd epollCtl =>
    lift fd to Nat using hindexed
    exact h.withContext fun o => Leads.of_fires h.tallied (Shared.cancelAll_fires h.tallied.sound o epollCtl)

/-- A section that leaves the contexts alone. -/
private theorem withContext_shared {fd : Int} {body : Nat → Except Failure Shared}
    (hbody : ∀ o, body o = .ok s.shared) : (s.withContext fd body).shared = s.shared := by
  unfold State.withContext
  split
  · rfl
  · split
    · rw [hbody]
      rfl
    · rfl

theorem Accounted.shared_of_failed (h : Accounted s) (hindexed : Indexed s e) (hfailed : e.epollCtl = false)
    (hstep : (machine storage).step s e = some s') : s'.shared = s.shared := by
  obtain ⟨henabled, rfl⟩ := machine_step hstep
  cases e with
  | addEvent fd event cb self epollCtl =>
    lift fd to Nat using hindexed.1
    exact (h.addEvent hindexed.2 henabled.2.2.2 cb self epollCtl).2 hfailed
  | delEvent fd event epollCtl =>
    cases hfailed
    apply withContext_shared
    intro o
    rw [Shared.delEvent_eq, if_neg (by simp)]
  | cancelEvent fd event epollCtl =>
    cases hfailed
    apply withContext_shared
    intro o
    rw [Shared.cancelEvent_failed]
    rfl
  | cancelAll fd epollCtl =>
    cases hfailed
    apply withContext_shared
    intro o
    rw [Shared.cancelAll_failed]
    rfl

/-- Where every context is created with no events, no descriptor is negative, and the table does not outgrow an `int`:
no assertion fails, and nothing else but a null scheduler ends the program; the counter is the number of the bits that
are set; a bit is set just where the slot holds something; each registration is scheduled at most once, and not where
it has been removed; and a call changes none of this if its `epoll_ctl` fails. -/
theorem sound_of_reaches (hstorage : ∀ o, storage o = 0)
    (h : (machine storage).Reaches Indexed (machine storage).start s) :
    (s.failure = none ∨ s.failure = some .nullDeref) ∧
      s.shared.pending.toNat = (registered s.table.created s.shared).card ∧
      (∀ o event, s.shared.Has o event ↔ (s.shared.slot o event).Holds) ∧
      (s.shared.scheduled.map Scheduled.registration).Nodup ∧
      (∀ r ∈ s.shared.removed, r ∉ s.shared.scheduled.map Scheduled.registration) ∧
      ∀ e s', Indexed s e → (machine storage).step s e = some s' → e.epollCtl = false → s'.shared = s.shared := by
  have hs : Accounted s :=
    h.invariant (fun _ _ _ ht hindexed hstep => ht.step hindexed hstep) (Accounted.initial hstorage)
  obtain ⟨hscheduled, -, hdisjoint⟩ := List.nodup_append.1 hs.tallied.sound.once
  refine ⟨hs.failure, hs.tallied.pending, hs.tallied.sound.has_iff, hscheduled, ?_, ?_⟩
  · exact fun r hremoved hmem => hdisjoint r hmem r hremoved rfl
  · exact fun e s' hindexed hstep hfailed => hs.shared_of_failed hindexed hfailed hstep

end

/-- A manager of which one context is created in storage that holds `READ`. -/
private def stale : Nat → BitVec 32 := fun o => if o = 5 then 1 else 0

theorem exists_miscounted_stale : ∃ s, (machine stale).Reaches Machine.any (machine stale).start s ∧
    s.shared.pending.toNat ≠ (registered s.table.created s.shared).card ∧ s.shared.Has 5 .read ∧
      ¬ (s.shared.slot 5 .read).Holds :=
  Machine.exists_reaches_of_run [.addEvent 3 .read (some 7) ⟨some 1, 9⟩ true] (fun _ _ _ => trivial)
    (by decide +kernel)

/-- Both events of a descriptor, of which one is removed and the other one cancelled, in spite of a failure. -/
private def bothEvents : List Event :=
  [.addEvent 3 .read (some 7) ⟨some 1, 9⟩ true, .addEvent 3 .write none ⟨some 1, 9⟩ true, .delEvent 3 .read false,
    .delEvent 3 .read true, .cancelAll 3 true, .addEvent 40 .read (some 8) ⟨some 1, 9⟩ true]

theorem sound_of_reaches_bothEvents : ∃ s,
    (machine fun _ => 0).Reaches Indexed (machine fun _ => 0).start s ∧
      s.shared.scheduled = [⟨1, some 9, none, 1⟩] ∧ s.shared.removed = [0] ∧
      s.shared.pending.toNat = (registered s.table.created s.shared).card := by
  obtain ⟨s, hreach, hscheduled, hremoved⟩ : ∃ s,
      (machine fun _ => 0).Reaches Indexed (machine fun _ => 0).start s ∧
        s.shared.scheduled = [⟨1, some 9, none, 1⟩] ∧ s.shared.removed = [0] :=
    Machine.exists_reaches_of_guarded bothEvents (by decide +kernel)
  exact ⟨s, hreach, hscheduled, hremoved, (sound_of_reaches (fun _ => rfl) hreach).2.1⟩

end Calls

end IOManager

end AcidCompute

import AcidCompute.Base.Monitor

/-!
# Channels (`acid/common/channel.h`)

`ChannelImpl::push`, `pop` and `close` run with `m_mutex`, and wait on `m_push_cond` and `m_pop_cond`.  What `pop`
returns is in the order in which `push` was called (`ChannelImpl.fifo_of_reaches`), and no notification is lost
(`ChannelImpl.notified_of_reaches`).
-/

namespace AcidCompute

open Monitor

namespace ChannelImpl

/-- The members under the lock, and the values that `push` has accepted and `pop` has returned. -/
structure Data (α : Type) where
  -- `m_is_close`
  isClose : Bool
  -- `m_queue`
  queue : List α
  accepted : List α
  popped : List α
  deriving DecidableEq, Repr

-- `m_push_cond` and `m_pop_cond`
inductive Cond
  | push
  | pop
  deriving DecidableEq, Repr

inductive Label (α : Type)
  | push (t : α)
  -- `m_push_cond.wait` returns
  | pushWoken (t : α)
  -- the value is in the queue
  | pushed
  | pop
  -- `m_pop_cond.wait` returns
  | popWoken
  -- the value is out of the queue
  | popped
  | close
  -- in front of the two `notify_all` and of `q.swap(m_queue)`
  | notifyPush
  | notifyPop
  | swap
  -- the value of `push` or `pop`
  | finish (result : Bool)
  -- the end of `close`
  | leave
  deriving DecidableEq, Repr

variable {α : Type} (capacity : Nat)

/-- The test of `m_is_close` and of the loop in `push`, which are the same at the start and after a wait. -/
def pushLoop (t : α) (d : Data α) : Instr (Data α) (Label α) Cond :=
  if d.isClose then .update d (.finish false)
  else if d.queue.length ≥ capacity then .wait .push (.pushWoken t)
  else .update { d with queue := d.queue ++ [t], accepted := d.accepted ++ [t] } .pushed

def popLoop (d : Data α) : Instr (Data α) (Label α) Cond :=
  if d.isClose then .update d (.finish false)
  else
    match d.queue with
    | [] => .wait .pop .popWoken
    | t :: queue => .update { d with queue := queue, popped := d.popped ++ [t] } .popped

def code : Label α → Data α → Instr (Data α) (Label α) Cond
  | .push t, d => pushLoop capacity t d
  | .pushWoken t, d => pushLoop capacity t d
  | .pushed, _ => .notify .pop (.finish true)
  | .pop, d => popLoop d
  | .popWoken, d => popLoop d
  | .popped, _ => .notify .push (.finish true)
  | .close, d => if d.isClose then .update d .leave else .update { d with isClose := true } .notifyPush
  | .notifyPush, _ => .notifyAll .push .notifyPop
  | .notifyPop, _ => .notifyAll .pop .swap
  | .swap, d => .update { d with queue := [] } .leave
  | .finish _, _ => .unlock
  | .leave, _ => .unlock

def entry : Label α → Bool
  | .push _ | .pop | .close => true
  | _ => false

/-- `ChannelImpl(capacity)` -/
def monitor (α : Type) : Monitor (Data α) (Label α) Cond where
  start := ⟨false, [], [], []⟩
  entry := entry
  code := code capacity

/-! ### The instructions -/

/-- The labels from which `push` and `pop` make their tests. -/
def Pushes (t : α) (i : Label α) : Prop := i = .push t ∨ i = .pushWoken t

def Pops (i : Label α) : Prop := i = .pop ∨ i = .popWoken

/-- All that a fiber with the mutex may do. -/
inductive Does : Label α → Data α → Instr (Data α) (Label α) Cond → Prop
  | refusePush {i d t} (hclosed : d.isClose = true) (hi : Pushes t i) : Does i d (.update d (.finish false))
  | full {i d t} (hopen : d.isClose = false) (hfull : capacity ≤ d.queue.length) (hi : Pushes t i) :
    Does i d (.wait .push (.pushWoken t))
  | put {i d t} (hopen : d.isClose = false) (hroom : d.queue.length < capacity) (hi : Pushes t i) :
    Does i d (.update { d with queue := d.queue ++ [t], accepted := d.accepted ++ [t] } .pushed)
  | pushed {d} : Does .pushed d (.notify .pop (.finish true))
  | refusePop {i d} (hclosed : d.isClose = true) (hi : Pops i) : Does i d (.update d (.finish false))
  | empty {i d} (hopen : d.isClose = false) (hempty : d.queue = []) (hi : Pops i) : Does i d (.wait .pop .popWoken)
  | took {i d t queue} (hopen : d.isClose = false) (hqueue : d.queue = t :: queue) (hi : Pops i) :
    Does i d (.update { d with queue := queue, popped := d.popped ++ [t] } .popped)
  | popped {d} : Does .popped d (.notify .push (.finish true))
  | again {d} (hclosed : d.isClose = true) : Does .close d (.update d .leave)
  | close {d} (hopen : d.isClose = false) : Does .close d (.update { d with isClose := true } .notifyPush)
  | notifyPush {d} : Does .notifyPush d (.notifyAll .push .notifyPop)
  | notifyPop {d} : Does .notifyPop d (.notifyAll .pop .swap)
  | swap {d} : Does .swap d (.update { d with queue := [] } .leave)
  | finish {d r} : Does (.finish r) d .unlock
  | leave {d} : Does .leave d .unlock

variable {capacity} {i i' : Label α} {d d' : Data α}

theorem does_pushLoop {t : α} (hi : Pushes t i) : Does capacity i d (pushLoop capacity t d) := by
  unfold pushLoop
  split
  case isTrue hclosed => exact .refusePush hclosed hi
  case isFalse hopen =>
    have hopen' : d.isClose = false := Bool.eq_false_iff.2 hopen
    split
    case isTrue hfull => exact .full hopen' hfull hi
    case isFalse hroom => exact .put hopen' (Nat.lt_of_not_le hroom) hi

theorem does_popLoop (hi : Pops i) : Does capacity i d (popLoop d) := by
  unfold popLoop
  split
  case isTrue hclosed => exact .refusePop hclosed hi
  case isFalse hopen =>
    have hopen' : d.isClose = false := Bool.eq_false_iff.2 hopen
    split
    case h_1 hempty => exact .empty hopen' hempty hi
    case h_2 hqueue => exact .took hopen' hqueue hi

theorem does_code (i : Label α) (d : Data α) : Does capacity i d (code capacity i d) := by
  cases i with
  | push t => exact does_pushLoop (.inl rfl)
  | pushWoken t => exact does_pushLoop (.inr rfl)
  | pushed => exact .pushed
  | pop => exact does_popLoop (.inl rfl)
  | popWoken => exact does_popLoop (.inr rfl)
  | popped => exact .popped
  | close =>
    simp only [code]
    split
    case isTrue hclosed => exact .again hclosed
    case isFalse hopen => exact .close (Bool.eq_false_iff.2 hopen)
  | notifyPush => exact .notifyPush
  | notifyPop => exact .notifyPop
  | swap => exact .swap
  | finish r => exact .finish
  | leave => exact .leave

theorem does_of_code {instr : Instr (Data α) (Label α) Cond} (h : (monitor capacity α).code i d = instr) :
    Does capacity i d instr := h ▸ does_code i d

/-! ### Values in order -/

/-- The queue is within the capacity, and holds what has been accepted and has not been returned, or less once the
channel is closed. -/
structure Fifo (capacity : Nat) (d : Data α) : Prop where
  bounded : d.queue.length ≤ capacity
  inOrder : d.popped ++ d.queue <+: d.accepted
  all : d.isClose = false → d.popped ++ d.queue = d.accepted

/-- Where `push` and `pop` have done their work the channel is open, and where `close` has it is not. -/
def At : Label α → Data α → Prop
  | .pushed, d | .popped, d | .finish true, d => d.isClose = false
  | .notifyPush, d | .notifyPop, d | .swap, d => d.isClose = true
  | _, _ => True

/-- Where a fiber goes on when it gets the mutex. -/
def Starts : Label α → Prop
  | .push _ | .pushWoken _ | .pop | .popWoken | .close => True
  | _ => False

theorem Fifo.update (h : Fifo capacity d) (hat : At i d)
    (hcode : (monitor capacity α).code i d = .update d' i') : Fifo capacity d' ∧ At i' d' := by
  cases does_of_code hcode with
  | refusePush hclosed hi => exact ⟨h, trivial⟩
  | put hopen hroom hi =>
    refine ⟨⟨?_, ?_, ?_⟩, hopen⟩
    · rw [List.length_append]
      exact hroom
    · simp [← h.all hopen]
    · intro _
      simp [← h.all hopen]
  | refusePop hclosed hi => exact ⟨h, trivial⟩
  | @took _ _ t queue hopen hqueue hi =>
    have hall := h.all hopen
    rw [hqueue] at hall
    refine ⟨⟨?_, ?_, ?_⟩, hopen⟩
    · have hbounded := h.bounded
      rw [hqueue, List.length_cons] at hbounded
      exact Nat.le_of_succ_le hbounded
    · simp [← hall]
    · intro _
      simp [← hall]
  | again hclosed => exact ⟨h, trivial⟩
  | close hopen => exact ⟨⟨h.bounded, h.inOrder, fun hfalse => by cases hfalse⟩, rfl⟩
  | swap =>
    have hclosed : d.isClose = true := hat
    refine ⟨⟨Nat.zero_le _, ?_, ?_⟩, trivial⟩
    · rw [List.append_nil]
      exact (List.prefix_append _ _).trans h.inOrder
    · intro hopen
      rw [hclosed] at hopen
      cases hopen

theorem keeps (capacity : Nat) : (monitor capacity α).Keeps (Fifo capacity) Starts At where
  start := ⟨Nat.zero_le _, List.nil_prefix, fun _ => rfl⟩
  entry {i} hi := by
    cases i <;> trivial
  take {i d} hi _ := by
    cases i <;> trivial
  update h hat hcode := h.update hat hcode
  wait _ hcode := by
    cases does_of_code hcode <;> trivial
  notify hat hcode := by
    cases does_of_code hcode <;> exact hat
  notifyAll hat hcode := by
    cases does_of_code hcode <;> exact hat

/-- A step of a closed channel accepts and returns nothing. -/
theorem closed_of_step {s s' : Monitor.State (Data α) (Label α) Cond} (hstep : (monitor capacity α).Step s s')
    (hclosed : s.data.isClose = true) :
    s'.data.isClose = true ∧ s'.data.accepted = s.data.accepted ∧ s'.data.popped = s.data.popped := by
  cases hstep with
  | update hholder hcode =>
    cases does_of_code hcode with
    | put hopen hroom hi =>
      rw [hclosed] at hopen
      cases hopen
    | took hopen hqueue hi =>
      rw [hclosed] at hopen
      cases hopen
    | close hopen =>
      rw [hclosed] at hopen
      cases hopen
    | refusePush => exact ⟨hclosed, rfl, rfl⟩
    | refusePop => exact ⟨hclosed, rfl, rfl⟩
    | again => exact ⟨hclosed, rfl, rfl⟩
    | swap => exact ⟨hclosed, rfl, rfl⟩
  | notify hholder hcode => simpa using hclosed
  | call => exact ⟨hclosed, rfl, rfl⟩
  | enter => exact ⟨hclosed, rfl, rfl⟩
  | resume => exact ⟨hclosed, rfl, rfl⟩
  | wait => exact ⟨hclosed, rfl, rfl⟩
  | notifyAll => exact ⟨hclosed, rfl, rfl⟩
  | unlock => exact ⟨hclosed, rfl, rfl⟩

/-- Whatever the fibers do, the queue stays within the capacity, `pop` returns in order what `push` has accepted, with
nothing left out while the channel is open, and on a closed channel nothing succeeds. -/
theorem fifo_of_reaches {s : Monitor.State (Data α) (Label α) Cond}
    (h : (monitor capacity α).machine.Reaches Machine.any (monitor capacity α).machine.start s) :
    s.data.queue.length ≤ capacity ∧ s.data.popped <+: s.data.accepted ∧
      (s.data.isClose = false → s.data.accepted = s.data.popped ++ s.data.queue) ∧
      (s.data.isClose = true → (∀ f, s.holder ≠ some (f, .finish true)) ∧
        ∀ e s', (monitor capacity α).machine.step s e = some s' →
          s'.data.isClose = true ∧ s'.data.accepted = s.data.accepted ∧ s'.data.popped = s.data.popped) := by
  have hkept := (keeps capacity).of_reaches h
  refine ⟨hkept.data.bounded, (List.prefix_append _ _).trans hkept.data.inOrder, ?_, fun hclosed => ⟨?_, ?_⟩⟩
  · exact fun hopen => (hkept.data.all hopen).symm
  · intro f hholder
    have hopen : s.data.isClose = false := hkept.holder f _ hholder
    rw [hclosed] at hopen
    cases hopen
  · intro e s' hstep
    exact closed_of_step (Step.of_step hstep) hclosed

/-- Two producers and a consumer on a channel for one value, and a fiber that closes it. -/
private def oneSlot : List (Monitor.Event (Label Nat)) :=
  [.call 0 (.push 7), .call 1 (.push 8), .call 2 .pop, .acquire 2, .run, .acquire 0, .run, .run, .run, .acquire 1, .run,
    .acquire 2, .run, .run, .run, .acquire 1, .run, .run, .run, .call 3 .close, .acquire 3, .run, .run, .run]

theorem fifo_of_reaches_oneSlot : ∃ s : Monitor.State (Data Nat) (Label Nat) Cond,
    (monitor 1 Nat).machine.Reaches Machine.any (monitor 1 Nat).machine.start s ∧ s.data.popped = [7] ∧
      s.data.accepted = [7, 8] ∧ s.data.isClose = true ∧ s.data.popped <+: s.data.accepted := by
  obtain ⟨s, hreach, hpopped, haccepted, hclosed⟩ : ∃ s : Monitor.State (Data Nat) (Label Nat) Cond,
      (monitor 1 Nat).machine.Reaches Machine.any (monitor 1 Nat).machine.start s ∧ s.data.popped = [7] ∧
        s.data.accepted = [7, 8] ∧ s.data.isClose = true :=
    Machine.exists_reaches_of_run oneSlot (fun _ _ _ => trivial) (by decide +kernel)
  exact ⟨s, hreach, hpopped, haccepted, hclosed, (fifo_of_reaches hreach).2.1⟩

/-! ### Notifications -/

/-- What those who wait on a condition wait for: free places, and values. -/
def avail (capacity : Nat) : Cond → Data α → Nat
  | .push, d => if d.isClose then 0 else capacity - d.queue.length
  | .pop, d => if d.isClose then 0 else d.queue.length

/-- A woken fiber takes a place or a value, and a value that is put or taken is announced. -/
def debt : Cond → Label α → Nat
  | .push, .pushWoken _ | .push, .popped | .pop, .popWoken | .pop, .pushed => 1
  | _, _ => 0

theorem avail_of_closed (c : Cond) (hclosed : d.isClose = true) : avail capacity c d = 0 := by
  cases c <;> simp [avail, hclosed]

theorem debt_pushes {t : α} (hi : Pushes t i) : debt .pop i = 0 ∧ debt .push i ≤ 1 := by
  rcases hi with rfl | rfl <;> simp [debt]

theorem debt_pops (hi : Pops i) : debt .push i = 0 ∧ debt .pop i ≤ 1 := by
  rcases hi with rfl | rfl <;> simp [debt]

/-- What is waited for and what is owed for it change together. -/
theorem avail_update (c : Cond) (hat : At i d) (hcode : (monitor capacity α).code i d = .update d' i') (w : Nat)
    (h : avail capacity c d ≤ w + debt c i) : avail capacity c d' ≤ w + debt c i' := by
  cases does_of_code hcode with
  | refusePush hclosed hi =>
    rw [avail_of_closed c hclosed]
    exact Nat.zero_le _
  | refusePop hclosed hi =>
    rw [avail_of_closed c hclosed]
    exact Nat.zero_le _
  | again hclosed =>
    rw [avail_of_closed c hclosed]
    exact Nat.zero_le _
  | close hopen =>
    rw [avail_of_closed c rfl]
    exact Nat.zero_le _
  | swap =>
    have hclosed : d.isClose = true := hat
    exact Nat.le_trans (Nat.le_of_eq (avail_of_closed c hclosed)) (Nat.zero_le _)
  | put hopen hroom hi =>
    obtain ⟨hpop, hpush⟩ := debt_pushes hi
    have hpushed : debt .pop (.pushed : Label α) = 1 := rfl
    cases c with
    | push =>
      simp only [avail, hopen, Bool.false_eq_true, if_false, List.length_append, List.length_singleton] at h ⊢
      omega
    | pop =>
      simp only [avail, hopen, Bool.false_eq_true, if_false, List.length_append, List.length_singleton] at h ⊢
      omega
  | took hopen hqueue hi =>
    obtain ⟨hpush, hpop⟩ := debt_pops hi
    have hpopped : debt .push (.popped : Label α) = 1 := rfl
    cases c with
    | push =>
      simp only [avail, hopen, Bool.false_eq_true, if_false, hqueue, List.length_cons] at h ⊢
      omega
    | pop =>
      simp only [avail, hopen, Bool.false_eq_true, if_false, hqueue, List.length_cons] at h ⊢
      omega

theorem counts (capacity : Nat) (c : Cond) : (monitor capacity α).Counts At c (avail capacity c) (debt c) where
  update hat hcode w h := avail_update c hat hcode w h
  wait _ hcode := by
    cases does_of_code hcode with
    | full hopen hfull hi => exact ⟨by simpa [avail, hopen] using Nat.sub_eq_zero_of_le hfull, Nat.le_refl 1⟩
    | empty hopen hempty hi => exact ⟨by simp [avail, hopen, hempty], Nat.le_refl 1⟩
  waitOther _ hne hcode := by
    cases does_of_code hcode with
    | full hopen hfull hi =>
      cases c with
      | push => exact absurd rfl hne
      | pop => exact (debt_pushes hi).1
    | empty hopen hempty hi =>
      cases c with
      | push => exact (debt_pops hi).1
      | pop => exact absurd rfl hne
  notify _ hcode := by
    cases does_of_code hcode <;> exact Nat.le_refl 1
  notifyOther _ hne hcode := by
    cases does_of_code hcode with
    | pushed =>
      cases c with
      | push => exact Nat.le_refl 0
      | pop => exact absurd rfl hne
    | popped =>
      cases c with
      | push => exact absurd rfl hne
      | pop => exact Nat.le_refl 0
  notifyAllOther _ _ hcode := by
    cases does_of_code hcode <;> cases c <;> exact Nat.le_refl 0
  unlock _ hcode := by
    cases does_of_code hcode <;> cases c <;> rfl

/-- Where `close` has yet to wake those who wait. -/
def owes : Cond → Label α → Prop
  | .push, .notifyPush | .pop, .notifyPush | .pop, .notifyPop => True
  | _, _ => False

theorem flushes (capacity : Nat) (c : Cond) :
    (monitor capacity α).Flushes At c (fun d => d.isClose = true) (owes c) where
  update _ hcode hdone := by
    cases does_of_code hcode with
    | refusePush hclosed hi =>
      refine .inr ⟨hclosed, ?_⟩
      rcases hi with rfl | rfl <;> cases c <;> exact id
    | refusePop hclosed hi =>
      refine .inr ⟨hclosed, ?_⟩
      rcases hi with rfl | rfl <;> cases c <;> exact id
    | again hclosed => exact .inr ⟨hclosed, by cases c <;> exact id⟩
    | close hopen => exact .inl (by cases c <;> trivial)
    | swap => exact .inr ⟨hdone, by cases c <;> exact id⟩
    | put hopen hroom hi =>
      have hclosed : _ = true := hdone
      rw [hopen] at hclosed
      cases hclosed
    | took hopen hqueue hi =>
      have hclosed : _ = true := hdone
      rw [hopen] at hclosed
      cases hclosed
  wait _ hcode := by
    cases does_of_code hcode with
    | full hopen hfull hi => simp [hopen]
    | empty hopen hempty hi => simp [hopen]
  waitOther _ _ hcode := by
    cases does_of_code hcode with
    | full hopen hfull hi => rcases hi with rfl | rfl <;> cases c <;> exact id
    | empty hopen hempty hi => rcases hi with rfl | rfl <;> cases c <;> exact id
  notify _ hcode howes := by
    cases does_of_code hcode <;> cases c <;> cases howes
  notifyAllOther _ hne hcode howes := by
    cases does_of_code hcode with
    | notifyPush =>
      cases c with
      | push => exact absurd rfl hne
      | pop => trivial
    | notifyPop =>
      cases c with
      | push => cases howes
      | pop => exact absurd rfl hne
  unlock _ hcode := by
    cases does_of_code hcode <;> cases c <;> exact id

/-- While nobody has the mutex, consumers wait only if each value in the queue has a consumer that has been woken for
it, producers likewise for the free places, and nobody waits for a closed channel.  Those who have been woken are
fibers that have yet to come back from `wait`, each counted once. -/
theorem notified_of_reaches {s : Monitor.State (Data α) (Label α) Cond}
    (h : (monitor capacity α).machine.Reaches Machine.any (monitor capacity α).machine.start s)
    (hfree : s.holder = none) :
    (s.queue .pop ≠ [] → s.data.queue.length ≤ (s.woken .pop).length) ∧
      (s.queue .push ≠ [] → capacity - s.data.queue.length ≤ (s.woken .push).length) ∧
      (s.data.isClose = true → ∀ c, s.queue c = []) ∧
      ∀ c, (s.woken c).Nodup ∧ ∀ f ∈ s.woken c, f ∉ s.queue c ∧ ∃ i, s.fibers f = .waiting c i := by
  have hcounted := fun c => (counts capacity c).of_reaches (keeps capacity) h
  have hclosed : s.data.isClose = true → ∀ c, s.queue c = [] := by
    intro hclosed c
    apply Flushed.queue_eq_nil ((flushes capacity c).of_reaches (keeps capacity) h) hclosed
    intro f i hholder
    rw [hfree] at hholder
    cases hholder
  have hopen : ∀ c, s.queue c ≠ [] → s.data.isClose = false := by
    intro c hqueue
    exact Bool.eq_false_iff.2 fun hc => hqueue (hclosed hc c)
  have hsound := Sound.of_reaches h
  refine ⟨?_, ?_, hclosed, ?_⟩
  · intro hqueue
    simpa [avail, hopen .pop hqueue] using (hcounted .pop).avail_le hfree hqueue
  · intro hqueue
    simpa [avail, hopen .push hqueue] using (hcounted .push).avail_le hfree hqueue
  · intro c
    obtain ⟨-, hwoken, hdisjoint⟩ := List.nodup_append.1 (hsound.nodup c)
    refine ⟨hwoken, fun f hf => ⟨fun hqueue => hdisjoint f hqueue f hf rfl, ?_⟩⟩
    exact (hsound.waiting f c).1 (List.mem_append_right _ hf)

/-- Two consumers wait, and one of them has been woken for the value in the queue. -/
private def oneWoken : List (Monitor.Event (Label Nat)) :=
  [.call 0 .pop, .call 1 .pop, .call 2 (.push 7), .acquire 0, .run, .acquire 1, .run, .acquire 2, .run, .run, .run]

theorem notified_of_reaches_oneWoken : ∃ s : Monitor.State (Data Nat) (Label Nat) Cond,
    (monitor 3 Nat).machine.Reaches Machine.any (monitor 3 Nat).machine.start s ∧ s.holder = none ∧
      s.queue .pop = [1] ∧ s.woken .pop = [0] ∧ s.data.queue.length ≤ (s.woken .pop).length := by
  obtain ⟨s, hreach, hfree, hqueue, hwoken⟩ : ∃ s : Monitor.State (Data Nat) (Label Nat) Cond,
      (monitor 3 Nat).machine.Reaches Machine.any (monitor 3 Nat).machine.start s ∧ s.holder = none ∧
        s.queue .pop = [1] ∧ s.woken .pop = [0] :=
    Machine.exists_reaches_of_run oneWoken (fun _ _ _ => trivial) (by decide +kernel)
  refine ⟨s, hreach, hfree, hqueue, hwoken, (notified_of_reaches hreach hfree).1 ?_⟩
  rw [hqueue]
  exact List.cons_ne_nil _ _

end ChannelImpl

end AcidCompute

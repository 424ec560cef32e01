import AcidCompute.Base.Monitor

/-!
# The semaphore of fibers (`CoSemaphore` in `acid/common/co_mutex.{h,cpp}`)

`wait` and `notify` run with `m_mutex`, and a fiber that finds no unit left waits on `m_cond`.  `notify` may also be
called by a fiber that has taken no unit, and gives nothing back if none is taken.  There are never more units taken
than `m_num`, so that `m_used` does not wrap around; they are counted right as long as only their holders call
`notify`, and no notification is lost (`CoSemaphore.counted_of_reaches`).
-/

namespace AcidCompute

open Monitor

namespace CoSemaphore

/-- The member under the lock, with the fibers that hold a unit, once for each unit, and how many calls of `wait` and
`notify` have taken and given one. -/
structure Data where
  -- `m_used`
  used : Nat
  held : List Nat
  waits : Nat
  notifies : Nat
  deriving DecidableEq, Repr

/-- A call is labelled with the fiber that makes it. -/
inductive Label
  | wait (self : Nat)
  -- `m_cond.wait` returns
  | woken (self : Nat)
  | notify (self : Nat)
  -- in front of `m_cond.notify()`
  | given
  | leave
  deriving DecidableEq, Repr

variable (num : Nat)

/-- The test of the loop in `wait`, which is the same at the start and after `m_cond.wait`. -/
def waitLoop (self : Nat) (d : Data) : Instr Data Label Unit :=
  if d.used ≥ num then .wait () (.woken self)
  else .update { d with used := d.used + 1, held := self :: d.held, waits := d.waits + 1 } .leave

def code : Label → Data → Instr Data Label Unit
  | .wait self, d => waitLoop num self d
  | .woken self, d => waitLoop num self d
  | .notify self, d =>
    .update
      { d with
        used := if d.used > 0 then d.used - 1 else d.used
        held := d.held.erase self
        notifies := d.notifies + 1 } .given
  | .given, _ => .notify () .leave
  | .leave, _ => .unlock

def entry : Label → Bool
  | .wait _ | .notify _ => true
  | _ => false

/-- `CoSemaphore(num)` -/
def monitor : Monitor Data Label Unit where
  start := ⟨0, [], 0, 0⟩
  entry := entry
  code := code num

/-- A fiber calls `notify` only while it holds a unit. -/
def ByHolders (s : Monitor.State Data Label Unit) : Monitor.Event Label → Prop
  | .call f (.wait self) => self = f
  | .call f (.notify self) => self = f ∧ f ∈ s.data.held
  | _ => True

instance (s : Monitor.State Data Label Unit) : (e : Monitor.Event Label) → Decidable (ByHolders s e)
  | .call f (.wait self) => inferInstanceAs (Decidable (self = f))
  | .call f (.notify self) => inferInstanceAs (Decidable (self = f ∧ f ∈ s.data.held))
  | .call _ (.woken _) => inferInstanceAs (Decidable True)
  | .call _ .given => inferInstanceAs (Decidable True)
  | .call _ .leave => inferInstanceAs (Decidable True)
  | .acquire _ => inferInstanceAs (Decidable True)
  | .run => inferInstanceAs (Decidable True)

/-! ### The instructions -/

/-- The labels from which `wait` makes its test. -/
def Waits (self : Nat) (i : Label) : Prop := i = .wait self ∨ i = .woken self

/-- All that a fiber with the mutex may do. -/
inductive Does : Label → Data → Instr Data Label Unit → Prop
  | full {i d self} (hfull : num ≤ d.used) (hi : Waits self i) : Does i d (.wait () (.woken self))
  | take {i d self} (hroom : d.used < num) (hi : Waits self i) :
    Does i d (.update { d with used := d.used + 1, held := self :: d.held, waits := d.waits + 1 } .leave)
  | give {d self} : Does (.notify self) d
    (.update { d with used := d.used - 1, held := d.held.erase self, notifies := d.notifies + 1 } .given)
  | given {d} : Does .given d (.notify () .leave)
  | leave {d} : Does .leave d .unlock

variable {num} {i i' : Label} {d d' : Data}

theorem does_waitLoop {self : Nat} (hi : Waits self i) : Does num i d (waitLoop num self d) := by
  unfold waitLoop
  split
  case isTrue hfull => exact .full hfull hi
  case isFalse hroom => exact .take (Nat.lt_of_not_le hroom) hi

theorem does_of_code {instr : Instr Data Label Unit} (h : (monitor num).code i d = instr) : Does num i d instr := by
  subst h
  show Does num i d (code num i d)
  cases i with
  | wait self => exact does_waitLoop (.inl rfl)
  | woken self => exact does_waitLoop (.inr rfl)
  | notify self =>
    have hlower : (if d.used > 0 then d.used - 1 else d.used) = d.used - 1 := by split <;> omega
    simp only [code, hlower]
    exact .give
  | given => exact .given
  | leave => exact .leave

/-! ### Units -/

/-- Calls begin and waits end at these labels. -/
def Starts : Label → Prop
  | .wait _ | .woken _ | .notify _ => True
  | _ => False

theorem keeps (num : Nat) : (monitor num).Keeps (fun d => d.used ≤ num) Starts (fun _ _ => True) where
  start := Nat.zero_le _
  entry {i} hi := by
    cases i with
    | wait self => trivial
    | notify self => trivial
    | woken self => cases hi
    | given => cases hi
    | leave => cases hi
  take _ _ := trivial
  update {i d d' i'} hd _ hcode := by
    refine ⟨?_, trivial⟩
    cases does_of_code hcode with
    | take hroom hi => exact hroom
    | give => exact Nat.le_trans (Nat.sub_le _ _) hd
  wait _ hcode := by
    cases does_of_code hcode
    trivial
  notify _ _ := trivial
  notifyAll _ _ := trivial

/-- Each taken unit has a holder. -/
structure Balanced (d : Data) : Prop where
  used_eq : d.used = d.held.length
  waits_eq : d.waits = d.notifies + d.held.length

/-- A fiber runs its own call, and gives back a unit that it holds. -/
def Own (f : Nat) : Label → Data → Prop
  | .wait self, _ | .woken self, _ => self = f
  | .notify self, d => self = f ∧ f ∈ d.held
  | _, _ => True

theorem Own.of_waits {f self : Nat} (h : Own f i d) (hi : Waits self i) : self = f := by
  rcases hi with rfl | rfl <;> exact h

/-- Only its own call takes a unit away from a fiber. -/
theorem held_of_update {f g : Nat} (h : Own f i d) (hcode : (monitor num).code i d = .update d' i') (hne : g ≠ f)
    (hg : g ∈ d.held) : g ∈ d'.held := by
  cases does_of_code hcode with
  | take hroom hi => exact List.mem_cons_of_mem _ hg
  | give =>
    obtain ⟨rfl, -⟩ := h
    exact (List.mem_erase_of_ne hne).2 hg

theorem Balanced.update {f : Nat} (h : Balanced d) (hown : Own f i d)
    (hcode : (monitor num).code i d = .update d' i') : Balanced d' ∧ Own f i' d' := by
  have hused := h.used_eq
  have hwaits := h.waits_eq
  cases does_of_code hcode with
  | take hroom hi =>
    refine ⟨⟨?_, ?_⟩, trivial⟩
    · exact congrArg (· + 1) hused
    · show d.waits + 1 = d.notifies + (d.held.length + 1)
      omega
  | @give _ self =>
    obtain ⟨rfl, hmem⟩ := hown
    have hpos := List.length_pos_of_mem hmem
    have hlength := List.length_erase_of_mem hmem
    refine ⟨⟨?_, ?_⟩, trivial⟩
    · show d.used - 1 = (d.held.erase self).length
      omega
    · show d.waits = d.notifies + 1 + (d.held.erase self).length
      omega

/-- Who has the units, while only their holders call `notify`. -/
def units : Assertions Data Label Unit where
  data := Balanced
  entering := Own
  waiting f _ i _ := i = .woken f
  woken _ _ := True
  holder := Own

theorem units_valid (num : Nat) : units.Valid (monitor num) ByHolders where
  start := ⟨rfl, rfl⟩
  call {s f i} _ ha hi := by
    cases i with
    | wait self => exact ha
    | notify self => exact ha
    | woken self => cases hi
    | given => cases hi
    | leave => cases hi
  enter _ hown := hown
  resume {f c i d} _ hi _ := by
    cases hi
    rfl
  update hd hown hcode := Balanced.update hd hown hcode
  others {f i d d' i' g} hown hcode hne := by
    refine ⟨fun j hj => ?_, fun _ _ hj => hj⟩
    cases j with
    | notify self => exact ⟨hj.1, held_of_update hown hcode hne hj.2⟩
    | wait self => exact hj
    | woken self => exact hj
    | given => trivial
    | leave => trivial
  stable _ _ _ _ := trivial
  wait {f i d c i'} hown hcode := by
    cases does_of_code hcode with
    | full hfull hi => exact congrArg Label.woken (Own.of_waits hown hi)
  notify hown hcode := by
    cases does_of_code hcode
    exact ⟨trivial, trivial⟩
  notifyAll hown hcode := by cases does_of_code hcode

/-! ### Notifications -/

/-- A woken fiber takes a unit, and a unit that is given back is announced. -/
def debt : Label → Nat
  | .woken _ | .given => 1
  | _ => 0

theorem debt_of_waits {self : Nat} (hi : Waits self i) : debt i ≤ 1 := by
  rcases hi with rfl | rfl <;> simp [debt]

theorem counts (num : Nat) : (monitor num).Counts (fun _ _ => True) () (fun d => num - d.used) debt where
  update {i d d' i'} _ hcode w h := by
    cases does_of_code hcode with
    | take hroom hi =>
      have hone := debt_of_waits hi
      show num - (d.used + 1) ≤ w + 0
      omega
    | @give _ self =>
      have hnone : num - d.used ≤ w + 0 := h
      show num - (d.used - 1) ≤ w + 1
      omega
  wait _ hcode := by
    cases does_of_code hcode with
    | full hfull hi => exact ⟨Nat.sub_eq_zero_of_le hfull, Nat.le_refl 1⟩
  waitOther _ hne _ := absurd rfl hne
  notify _ hcode := by
    cases does_of_code hcode
    exact Nat.le_refl 1
  notifyOther _ hne _ := absurd rfl hne
  notifyAllOther _ hne _ := absurd rfl hne
  unlock _ hcode := by
    cases does_of_code hcode
    rfl

/-- Whatever the fibers do, no more units are taken than there are; if only holders call `notify`, as many are taken as
calls of `wait` have been completed without one of `notify`; and while nobody has the mutex, fibers wait only if each
free unit has a fiber that has been woken for it.  Those who have been woken are fibers that have yet to come back from
`m_cond.wait`, each counted once. -/
theorem counted_of_reaches {s : Monitor.State Data Label Unit}
    (h : (monitor num).machine.Reaches Machine.any (monitor num).machine.start s) :
    s.data.used ≤ num ∧
      ((monitor num).machine.Reaches ByHolders (monitor num).machine.start s →
        s.data.waits = s.data.used + s.data.notifies) ∧
      (s.holder = none → s.queue () ≠ [] → num - s.data.used ≤ (s.woken ()).length) ∧
      (s.woken ()).Nodup ∧ ∀ f ∈ s.woken (), f ∉ s.queue () ∧ ∃ i, s.fibers f = .waiting () i := by
  refine ⟨((keeps num).of_reaches h).data, fun hholders => ?_, fun hfree hqueue => ?_, ?_⟩
  · have hbalanced : Balanced s.data := ((units_valid num).of_reaches hholders).data
    rw [hbalanced.waits_eq, hbalanced.used_eq, Nat.add_comm]
  · exact ((counts num).of_reaches (keeps num) h).avail_le hfree hqueue
  · have hsound := Sound.of_reaches h
    obtain ⟨-, hwoken, hdisjoint⟩ := List.nodup_append.1 (hsound.nodup ())
    refine ⟨hwoken, fun f hf => ⟨fun hqueue => hdisjoint f hqueue f hf rfl, ?_⟩⟩
    exact (hsound.waiting f ()).1 (List.mem_append_right _ hf)

/-- One unit, which a fiber has given back while two others wait for it; one of them has been woken. -/
private def oneUnit : List (Monitor.Event Label) :=
  [.call 0 (.wait 0), .acquire 0, .run, .run, .call 1 (.wait 1), .call 2 (.wait 2), .acquire 1, .run, .acquire 2, .run,
    .call 0 (.notify 0), .acquire 0, .run, .run, .run]

theorem counted_of_reaches_oneUnit : ∃ s : Monitor.State Data Label Unit,
    (monitor 1).machine.Reaches ByHolders (monitor 1).machine.start s ∧ s.holder = none ∧ s.queue () = [2] ∧
      s.woken () = [1] ∧ s.data.waits = s.data.used + s.data.notifies ∧ 1 - s.data.used ≤ (s.woken ()).length := by
  obtain ⟨s, hreach, hfree, hqueue, hwoken⟩ : ∃ s : Monitor.State Data Label Unit,
      (monitor 1).machine.Reaches ByHolders (monitor 1).machine.start s ∧ s.holder = none ∧ s.queue () = [2] ∧
        s.woken () = [1] := Machine.exists_reaches_of_guarded oneUnit (by decide +kernel)
  have hcounted := counted_of_reaches (hreach.mono fun _ _ _ => trivial)
  refine ⟨s, hreach, hfree, hqueue, hwoken, hcounted.2.1 hreach, hcounted.2.2.1 hfree ?_⟩
  rw [hqueue]
  exact List.cons_ne_nil _ _

end CoSemaphore

end AcidCompute

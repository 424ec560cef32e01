import AcidCompute.IOManager.Wakeup
import AcidCompute.Timer.Front

/-!
# Waiting for the first deadline

A worker asks for the first deadline and waits that long.  A timer that comes in front of all others afterwards has to
wake somebody, and nobody is told of it while `m_ticked` is set.  That is no loss: where `m_ticked` is set, a tickle is
on its way, or some worker is still to ask (`Watched.ticked`).  So among workers that all wait there is one that waits
no longer than until the first deadline (`wait_le_of_reaches`).
-/

namespace AcidCompute

namespace Wakeup

open IOManager (epollTimeout)
open TimerManager (timeLeft)

variable {κ : Type}

/-- What a worker waits for: the reading of the clock, and what `get_next_timer` has returned for it. -/
def Phase.plan : Phase → Option (BitVec 64 × BitVec 64)
  | .planned now left => some (now, left)
  | .waiting now left => some (now, left)
  | _ => none

/-- Some worker asks for the first deadline before it waits. -/
def State.Asked (s : State κ) : Prop := ∃ phase ∈ s.workers, phase.plan = none

instance (s : State κ) : Decidable s.Asked := inferInstanceAs (Decidable (∃ phase ∈ s.workers, phase.plan = none))

/-- The time that is left is not longer than until any deadline. -/
def Covers (m : TimerManager κ) (plan : BitVec 64 × BitVec 64) : Prop :=
  ∀ q ∈ m.timers, plan.2 ≤ timeLeft plan.1 (m.objects q).next

/-- The time left leaves bit 31 clear, so that the wait does not come out endless. -/
def Short (left : BitVec 64) : Prop := left = BitVec.allOnes 64 ∨ left.toNat % 2 ^ 32 < 2 ^ 31

instance (left : BitVec 64) : Decidable (Short left) := inferInstanceAs (Decidable (_ ∨ _))

/-- No wait comes out endless, and no deadline is brought forward by `refresh`. -/
def Bounded (s : State κ) : Event κ → Prop
  | .plan _ now => Short (s.timers.manager.getNextTimer now).1
  | .timer e => Timers.Delays s.timers e
  | _ => True

instance (s : State κ) : (e : Event κ) → Decidable (Bounded s e)
  | .plan _ now => inferInstanceAs (Decidable (Short (s.timers.manager.getNextTimer now).1))
  | .timer e => inferInstanceAs (Decidable (Timers.Delays s.timers e))
  | .schedule _ _ | .fiber _ _ | .scan _ | .resume _ | .finish _ | .count _ | .wait _ | .wake _ _ | .expire _ _ _
  | .back _ | .hasIdleThread | .write => inferInstanceAs (Decidable True)

structure Watched (s : State κ) : Prop extends Counted s where
  timers : Timers.Consistent s.timers
  ticked : s.timers.manager.ticked = true → s.Roused ∨ s.Asked
  covered : s.Roused ∨ s.Asked ∨
    ∃ phase ∈ s.workers, ∃ plan, phase.plan = some plan ∧ Covers s.timers.manager plan
  short : ∀ phase ∈ s.workers, ∀ plan, phase.plan = some plan → Short plan.2

theorem Watched.initial {threads : Nat} (hthreads : threads ≠ 0) (now : BitVec 64) :
    Watched (initial threads now : State κ) where
  toCounted := .initial hthreads now
  timers := Timers.Consistent.initial now
  ticked h := by cases h
  covered := by
    right; left
    exact ⟨.looking, List.mem_replicate.2 ⟨hthreads, rfl⟩, rfl⟩
  short phase hphase plan hplan := by
    rw [List.eq_of_mem_replicate hphase] at hplan
    cases hplan

section

variable {s s' : State κ} {w : Nat} {phase phase' : Phase} {e : Event κ}

/-- A worker goes on and is still to ask. -/
theorem Watched.ask (h : Watched s) (hcounted : Counted s') (hphase : s.workers[w]? = some phase)
    (hplan : phase'.plan = none) (hworkers : s'.workers = s.workers.set w phase') (htimers : s'.timers = s.timers) :
    Watched s' := by
  have hasked : s'.Asked := by
    refine ⟨phase', ?_, hplan⟩
    rw [hworkers]
    exact mem_setPhase hphase
  constructor
  case toCounted => exact hcounted
  case timers => rw [htimers]; exact h.timers
  case ticked => exact fun _ => .inr hasked
  case covered => exact .inr (.inl hasked)
  case short =>
    intro other hother plan hother'
    rw [hworkers] at hother
    rcases List.mem_or_eq_of_mem_set hother with hold | rfl
    · exact h.short other hold plan hother'
    · rw [hplan] at hother'
      cases hother'

/-- Nothing happens but that somebody is roused. -/
theorem Watched.rouse (h : Watched s) (hcounted : Counted s') (hworkers : s'.workers = s.workers)
    (htimers : s'.timers = s.timers) (hroused : s.Roused → s'.Roused ∨ s'.Asked) : Watched s' := by
  have hasked : s.Asked → s'.Asked := by
    rintro ⟨phase, hmem, hplan⟩
    exact ⟨phase, hworkers ▸ hmem, hplan⟩
  constructor
  case toCounted => exact hcounted
  case timers => rw [htimers]; exact h.timers
  case ticked =>
    intro hticked
    rw [htimers] at hticked
    rcases h.ticked hticked with hold | hold
    · exact hroused hold
    · exact .inr (hasked hold)
  case covered =>
    rcases h.covered with hold | hold | hold
    · exact (hroused hold).imp_right .inl
    · exact .inr (.inl (hasked hold))
    · rw [hworkers, htimers]
      exact .inr (.inr hold)
  case short => rw [hworkers]; exact h.short

/-- A worker asks how long it may wait. -/
theorem Watched.plan (h : Watched s) (now : BitVec 64) (hphase : s.workers[w]? = some .idle)
    (hshort : Short (s.timers.manager.getNextTimer now).1) :
    Watched { s.setPhase w (.planned now (s.timers.manager.getNextTimer now).1) with
      timers := { s.timers with manager := (s.timers.manager.getNextTimer now).2 } } := by
  have htimers : (s.timers.manager.getNextTimer now).2 = { s.timers.manager with ticked := false } := by
    unfold TimerManager.getNextTimer
    dsimp only
    split <;> rfl
  rw [htimers]
  constructor
  case toCounted => exact h.toCounted.setPhase hphase rfl rfl
  case timers =>
    obtain ⟨hordered, hallocated, hnonnull, hmem, hnext, hfault⟩ := h.timers
    exact ⟨hordered, hallocated, hnonnull, hmem, hnext, hfault⟩
  case ticked => exact fun hticked => by cases hticked
  case covered =>
    right; right
    refine ⟨_, mem_setPhase hphase, _, rfl, ?_⟩
    intro q hq
    have hnull : ∀ p ∈ s.timers.manager.timers, p ≠ Timer.null :=
      fun p hp => h.timers.nonnull p (h.timers.allocated p hp)
    exact (TimerManager.getNextTimer_spec h.timers.ordered hnull (List.ne_nil_of_mem hq)).2 q hq
  case short =>
    intro other hother plan hplan
    rcases List.mem_or_eq_of_mem_set hother with hold | rfl
    · exact h.short other hold plan hplan
    · cases hplan
      exact hshort

/-- `epoll_wait` is called with what has been asked. -/
theorem Watched.wait (h : Watched s) {now left : BitVec 64} (hphase : s.workers[w]? = some (.planned now left)) :
    Watched (s.setPhase w (.waiting now left)) := by
  have hmem : Phase.planned now left ∈ s.workers := List.mem_of_getElem? hphase
  have hasked : s.Asked → (s.setPhase w (.waiting now left)).Asked := by
    rintro ⟨other, hother, hplan⟩
    refine ⟨other, mem_setPhase_of_ne hphase hother ?_, hplan⟩
    rintro rfl
    cases hplan
  constructor
  case toCounted => exact h.toCounted.setPhase hphase rfl rfl
  case timers => exact h.timers
  case ticked => exact fun hticked => (h.ticked hticked).imp_right hasked
  case covered =>
    rcases h.covered with hroused | hold | ⟨other, hother, plan, hplan, hcovers⟩
    · exact .inl hroused
    · exact .inr (.inl (hasked hold))
    · right; right
      by_cases heq : other = .planned now left
      · subst heq
        exact ⟨.waiting now left, mem_setPhase hphase, plan, hplan, hcovers⟩
      · exact ⟨other, mem_setPhase_of_ne hphase hother heq, plan, hplan, hcovers⟩
  case short =>
    intro other hother plan hplan
    rcases List.mem_or_eq_of_mem_set hother with hold | rfl
    · exact h.short other hold plan hplan
    · exact h.short _ hmem plan hplan

/-- A call on the timers that brings one to the front tells of it, or has no need to. -/
theorem Watched.timer (h : Watched s) {e : Timers.Event κ} (hforeign : Foreign e = true)
    (henabled : Timers.Enabled s.timers e) (hdelays : Timers.Delays s.timers e) : Watched (s.callTimers e) := by
  have hroused : s.Roused → (s.callTimers e).Roused := fun hroused =>
    Roused.mono hroused (Nat.le_add_right _ _) (Nat.le_refl _) id
  have hnot : ∀ now p, e ≠ .listExpiredCallback now p := by
    rintro now p rfl
    cases hforeign
  have htold := h.timers.told_or_quiet henabled hdelays hnot
  refine ⟨⟨h.count, h.workers⟩, h.timers.next henabled, ?_, ?_, h.short⟩
  · intro hticked
    rcases htold with hlt | hquiet
    · exact .inl (.inl (Nat.lt_of_lt_of_le (Nat.sub_pos_of_lt hlt) (Nat.le_add_left _ _)))
    · exact (h.ticked (hquiet.same.1.symm.trans hticked)).imp_left hroused
  · rcases htold with hlt | hquiet
    · exact .inl (.inl (Nat.lt_of_lt_of_le (Nat.sub_pos_of_lt hlt) (Nat.le_add_left _ _)))
    · rcases hquiet.behind with hticked | hbehind
      · exact (h.ticked hticked).imp hroused .inl
      · rcases h.covered with hold | hold | ⟨phase, hmem, plan, hplan, hcovers⟩
        · exact .inl (hroused hold)
        · exact .inr (.inl hold)
        · right; right
          refine ⟨phase, hmem, plan, hplan, ?_⟩
          intro q hq
          obtain ⟨q', hq', hle⟩ := hbehind q hq
          exact BitVec.le_trans (hcovers q' hq') (TimerManager.timeLeft_mono hle)

/-- Where nobody is counted as idle, everybody is still to ask. -/
theorem Watched.asked_of_count (h : Watched s) (hidle : s.idleThreadCount = 0) : s.Asked := by
  obtain ⟨phase, rest, hworkers⟩ := List.exists_cons_of_ne_nil h.workers
  have hmem : phase ∈ s.workers := by
    rw [hworkers]
    exact List.mem_cons_self
  have hnone := List.countP_eq_zero.1 (h.count.symm.trans hidle) phase hmem
  refine ⟨phase, hmem, ?_⟩
  cases phase with
  | planned now left => exact absurd rfl hnone
  | waiting now left => exact absurd rfl hnone
  | _ => rfl

theorem Watched.step (h : Watched s) (hbounded : Bounded s e) (hstep : Step s e s') : Watched s' := by
  have hcounted : Counted s' := h.toCounted.step hstep
  cases hstep with
  | schedule fc thread =>
    exact h.rouse hcounted rfl rfl fun hroused => .inl (Roused.mono hroused (Nat.le_add_right _ _) (Nat.le_refl _) id)
  | fiber f state => exact h.rouse hcounted rfl rfl .inl
  | take hphase hfound => exact h.ask hcounted hphase rfl rfl rfl
  | pass hphase hnone => exact h.ask hcounted hphase rfl rfl rfl
  | @resume w task hphase =>
    have hsame : ((s.setPhase w (.executing task)).resumeTask task.fc).workers = s.workers.set w (.executing task) ∧
        ((s.setPhase w (.executing task)).resumeTask task.fc).timers = s.timers := by
      cases task.fc <;> exact ⟨rfl, rfl⟩
    exact h.ask hcounted hphase rfl hsame.1 hsame.2
  | finish hphase => exact h.ask hcounted hphase rfl rfl rfl
  | count hphase => exact h.ask hcounted hphase rfl rfl rfl
  | plan now hphase => exact h.plan now hphase hbounded
  | wait hphase => exact h.wait hphase
  | wakePipe hphase hsignaled => exact h.ask hcounted hphase rfl rfl rfl
  | wake hphase => exact h.ask hcounted hphase rfl rfl rfl
  | expire now nowTimer hphase henabled =>
    have hasked : s.Asked := ⟨.awake, List.mem_of_getElem? hphase, rfl⟩
    exact ⟨hcounted, h.timers.next henabled, fun _ => .inr hasked, .inr (.inl hasked), h.short⟩
  | back hphase => exact h.ask hcounted hphase rfl rfl rfl
  | timer e hforeign henabled => exact h.timer hforeign henabled hbounded
  | somebody htickles hidle => exact h.rouse hcounted rfl rfl fun _ => .inl (.inr (.inl (Nat.succ_pos _)))
  | nobody htickles hidle => exact h.rouse hcounted rfl rfl fun _ => .inr (h.asked_of_count hidle)
  | write hwrites => exact h.rouse hcounted rfl rfl fun _ => .inl (.inr (.inr rfl))

end

/-- Among workers that all wait, there is one that does not wait past any deadline. -/
theorem wait_le_of_reaches {threads : Nat} (hthreads : threads ≠ 0) {start : BitVec 64} {s : State κ}
    (h : (machine κ threads start).Reaches Bounded (machine κ threads start).start s) (hquiet : ¬ s.Roused)
    (hwaiting : ∀ phase ∈ s.workers, ∃ now left, phase = .waiting now left) :
    ∃ now left, Phase.waiting now left ∈ s.workers ∧ ∀ k, 0 ≤ epollTimeout left k ∧ epollTimeout left k ≤ 5000 ∧
      ∀ q ∈ s.timers.manager.timers, epollTimeout left k ≤ (timeLeft now (s.timers.manager.objects q).next).toNat := by
  have hwatched : Watched s :=
    h.invariant (fun _ _ _ hs hbounded hstep => hs.step hbounded (Step.of_next hstep)) (.initial hthreads start)
  rcases hwatched.covered with hroused | ⟨phase, hmem, hplan⟩ | ⟨phase, hmem, plan, hplan, hcovers⟩
  · exact absurd hroused hquiet
  · obtain ⟨now, left, rfl⟩ := hwaiting phase hmem
    cases hplan
  · obtain ⟨now, left, rfl⟩ := hwaiting phase hmem
    cases hplan
    refine ⟨now, left, hmem, fun k => ?_⟩
    obtain ⟨hnonneg, hle, hleft⟩ := IOManager.epollTimeout_le (hwatched.short _ hmem _ rfl) k
    refine ⟨hnonneg, hle, fun q hq => Int.le_trans hleft ?_⟩
    exact Int.ofNat_le.2 (hcovers q hq)

/-- One worker waits for five seconds, a timer for ten milliseconds is added, and the worker waits for that. -/
private def tenMilliseconds : List (Event Nat) :=
  [.scan 0, .count 0, .plan 0 5, .wait 0, .timer (.addTimer 8 10 70 false 6), .hasIdleThread, .write, .wake 0 true,
    .back 0, .scan 0, .count 0, .plan 0 7, .wait 0]

theorem wait_le_of_reaches_tenMilliseconds : ∃ s : State Nat,
    (machine Nat 1 5).Reaches Bounded (machine Nat 1 5).start s ∧ s.timers.manager.timers = [8] ∧
      ∃ now left, Phase.waiting now left ∈ s.workers ∧ ∀ k, 0 ≤ epollTimeout left k ∧ epollTimeout left k ≤ 5000 ∧
        ∀ q ∈ s.timers.manager.timers,
          epollTimeout left k ≤ (timeLeft now (s.timers.manager.objects q).next).toNat := by
  obtain ⟨s, hreach, htimers, hquiet, hworkers⟩ : ∃ s : State Nat,
      (machine Nat 1 5).Reaches Bounded (machine Nat 1 5).start s ∧ s.timers.manager.timers = [8] ∧ ¬ s.Roused ∧
        s.workers = [.waiting 7 9] :=
    Machine.exists_reaches_of_guarded tenMilliseconds (by decide +kernel)
  refine ⟨s, hreach, htimers, wait_le_of_reaches (by decide) hreach hquiet ?_⟩
  intro phase hphase
  rw [hworkers, List.mem_singleton] at hphase
  exact ⟨7, 9, hphase⟩

end Wakeup

end AcidCompute

import AcidCompute.Base.Monitor
import AcidCompute.Sync.CoMutexQueue

/-!
# Monitors of `CoMutex` and `CoCond`

Channels, semaphores and latches are monitors: functions that run with a `CoMutex` and wait on `CoCond`s.  Here both
take their own steps, those of `lock` and `unlock` as in `CoMutex`, and for `CoCond::wait(lock)` and `notify` the
sections with the condition's `m_mutex` and the calls of the scheduler.  The section of `wait` lasts until
`lock.unlock()` returns, so that nobody notifies a fiber that has not given the mutex back.

A fiber is with the mutex where its place says (`CoMonitor.Inv`).
-/

namespace AcidCompute

open Monitor

namespace CoMonitor

variable {δ ι γ : Type}

/-- Where a fiber is. -/
inductive Place (ι γ : Type)
  | outside
  -- in `lock` at the start of a function
  | entering (label : ι)
  | inside (label : ι)
  -- in `notify`, in front of `schedule(fiber)`
  | notifying (fiber : Nat) (label : ι)
  -- in the section of `wait`, in front of `lock.unlock()` and in it
  | queued (cond : γ) (next : ι)
  | unlocking (cond : γ) (next : ι)
  -- behind the section
  | waiting (cond : γ) (next : ι)
  -- out of the queue, and handed to the scheduler
  | popped (cond : γ) (next : ι)
  | scheduled (cond : γ) (next : ι)
  -- in `lock.lock()` behind `yield`
  | resuming (cond : γ) (next : ι)
  -- in `unlock` at the end of a function
  | leaving
  deriving DecidableEq, Repr

structure State (δ ι γ : Type) where
  data : δ
  mutex : CoMutex.State Nat
  -- `m_wait_queue` of each condition
  queue : γ → List Nat
  -- the fiber in the section of `wait` that has the condition's `m_mutex`
  guard : γ → Option Nat
  places : Nat → Place ι γ

inductive Event (ι : Type)
  | call (fiber : Nat) (label : ι)
  -- a step in `lock` or `unlock`
  | mutex (e : CoMutex.Event Nat)
  | run (fiber : Nat)
  -- `lock.unlock()` in `wait`
  | unlock (fiber : Nat)
  -- `schedule(fiber)` in `notify`
  | schedule (fiber : Nat)
  -- a fiber that has been scheduled goes on behind `yield`
  | resume (fiber : Nat)
  deriving DecidableEq, Repr

/-- The fiber that takes a step. -/
def fiber : CoMutex.Event Nat → Nat
  | .lock f | .tryLock f | .guard f | .setId f | .unlock f | .release f _ | .schedule f _ => f

/-- The steps behind the first one of `lock` and `unlock`. -/
def inner : CoMutex.Event Nat → Bool
  | .lock _ | .unlock _ => false
  | _ => true

/-- A fiber goes on when `lock` or `unlock` has returned. -/
def arrive (caller : CoMutex.Caller Nat) : Place ι γ → Place ι γ
  | .entering i => if 0 < caller.depth then .inside i else .entering i
  | .resuming c i => if 0 < caller.depth then .inside i else .resuming c i
  | .unlocking c i => if caller.phase = .idle then .waiting c i else .unlocking c i
  | .leaving => if caller.phase = .idle then .outside else .leaving
  | place => place

-- a fiber that waits is taken out of the queue
def taken : Place ι γ → Place ι γ
  | .waiting c i => .popped c i
  | place => place

-- `schedule(fiber)`
def handed : Place ι γ → Place ι γ
  | .waiting c i | .popped c i => .scheduled c i
  | place => place

variable [DecidableEq γ]

/-- The section of `wait` ends when `lock.unlock()` has returned. -/
def freed (caller : CoMutex.Caller Nat) (guard : γ → Option Nat) : Place ι γ → γ → Option Nat
  | .unlocking c _ => if caller.phase = .idle then Function.update guard c none else guard
  | _ => guard

namespace State

variable (t : State δ ι γ)

def setPlace (f : Nat) (place : Place ι γ) : State δ ι γ := { t with places := Function.update t.places f place }

/-- A step of the mutex, by a fiber at some place. -/
def go (setting : CoMutex.Setting Nat) (f : Nat) (place : Place ι γ) (e : CoMutex.Event Nat) : State δ ι γ :=
  { t with
    mutex := CoMutex.next setting t.mutex e
    guard := freed ((CoMutex.next setting t.mutex e).callers f) t.guard place
    places := Function.update t.places f (arrive ((CoMutex.next setting t.mutex e).callers f) place) }

/-- The section of `wait` begins. -/
def push (f : Nat) (c : γ) (i : ι) : State δ ι γ :=
  { t.setPlace f (.queued c i) with
    queue := Function.update t.queue c (t.queue c ++ [f])
    guard := Function.update t.guard c (some f) }

/-- The section of `notify`. -/
def pop (f : Nat) (c : γ) (i : ι) : State δ ι γ :=
  match t.queue c with
  | [] => t.setPlace f (.inside i)
  | g :: rest =>
    { (t.setPlace g (taken (t.places g))).setPlace f (.notifying g i) with queue := Function.update t.queue c rest }

/-- `notify_all` -/
def popAll (f : Nat) (c : γ) (i : ι) : State δ ι γ :=
  { t with
    queue := Function.update t.queue c []
    places := Function.update (fun g => if g ∈ t.queue c then handed (t.places g) else t.places g) f (.inside i) }

end State

variable (setting : CoMutex.Setting Nat) (M : Monitor δ ι γ)

def initial : State δ ι γ := ⟨M.start, CoMutex.initial setting, fun _ => [], fun _ => none, fun _ => .outside⟩

/-- A fiber with the mutex goes on; the sections of a condition exclude each other. -/
def perform (t : State δ ι γ) (f : Nat) : Instr δ ι γ → Option (State δ ι γ)
  | .update d i => some { t.setPlace f (.inside i) with data := d }
  | .wait c i => if t.guard c = none then some (t.push f c i) else none
  | .notify c i => if t.guard c = none then some (t.pop f c i) else none
  | .notifyAll c i => if t.guard c = none then some (t.popAll f c i) else none
  | .unlock => some (t.go setting f .leaving (.unlock f))

def step (t : State δ ι γ) : Event ι → Option (State δ ι γ)
  | .call f i =>
    match t.places f with
    | .outside => if M.entry i then some (t.go setting f (.entering i) (.lock f)) else none
    | _ => none
  | .mutex e =>
    if inner e = true ∧ CoMutex.Enabled t.mutex e then some (t.go setting (fiber e) (t.places (fiber e)) e) else none
  | .run f =>
    match t.places f with
    | .inside i => perform setting t f (M.code i t.data)
    | _ => none
  | .unlock f =>
    match t.places f with
    | .queued c i => some (t.go setting f (.unlocking c i) (.unlock f))
    | _ => none
  | .schedule f =>
    match t.places f with
    | .notifying g i => some ((t.setPlace g (handed (t.places g))).setPlace f (.inside i))
    | _ => none
  | .resume f =>
    match t.places f with
    | .scheduled c i => some (t.go setting f (.resuming c i) (.lock f))
    | _ => none

def machine : Machine (State δ ι γ) (Event ι) where
  start := initial setting M
  step := step setting M

/-- The steps, one for each way in which a fiber goes on. -/
inductive Step (t : State δ ι γ) : State δ ι γ → Prop
  | call {f i} (hf : t.places f = .outside) (hi : M.entry i = true) : Step t (t.go setting f (.entering i) (.lock f))
  | mutex {e} (hinner : inner e = true) (henabled : CoMutex.Enabled t.mutex e) :
    Step t (t.go setting (fiber e) (t.places (fiber e)) e)
  | update {f i d i'} (hf : t.places f = .inside i) (hcode : M.code i t.data = .update d i') :
    Step t { t.setPlace f (.inside i') with data := d }
  | wait {f i c i'} (hf : t.places f = .inside i) (hcode : M.code i t.data = .wait c i') (hguard : t.guard c = none) :
    Step t (t.push f c i')
  | notify {f i c i'} (hf : t.places f = .inside i) (hcode : M.code i t.data = .notify c i')
    (hguard : t.guard c = none) : Step t (t.pop f c i')
  | notifyAll {f i c i'} (hf : t.places f = .inside i) (hcode : M.code i t.data = .notifyAll c i')
    (hguard : t.guard c = none) : Step t (t.popAll f c i')
  | leave {f i} (hf : t.places f = .inside i) (hcode : M.code i t.data = .unlock) :
    Step t (t.go setting f .leaving (.unlock f))
  | unlock {f c i} (hf : t.places f = .queued c i) : Step t (t.go setting f (.unlocking c i) (.unlock f))
  | schedule {f g i} (hf : t.places f = .notifying g i) :
    Step t ((t.setPlace g (handed (t.places g))).setPlace f (.inside i))
  | resume {f c i} (hf : t.places f = .scheduled c i) : Step t (t.go setting f (.resuming c i) (.lock f))

variable {setting} {M} {t t' : State δ ι γ}

theorem Step.of_run {f : Nat} {i : ι} (hf : t.places f = .inside i)
    (h : perform setting t f (M.code i t.data) = some t') : Step setting M t t' := by
  cases hcode : M.code i t.data with
  | update d i' =>
    rw [hcode] at h
    cases h
    exact .update hf hcode
  | wait c i' =>
    rw [hcode] at h
    obtain ⟨hguard, h⟩ := Option.ite_none_right_eq_some.1 h
    cases h
    exact .wait hf hcode hguard
  | notify c i' =>
    rw [hcode] at h
    obtain ⟨hguard, h⟩ := Option.ite_none_right_eq_some.1 h
    cases h
    exact .notify hf hcode hguard
  | notifyAll c i' =>
    rw [hcode] at h
    obtain ⟨hguard, h⟩ := Option.ite_none_right_eq_some.1 h
    cases h
    exact .notifyAll hf hcode hguard
  | unlock =>
    rw [hcode] at h
    cases h
    exact .leave hf hcode

theorem Step.of_step {e : Event ι} (h : (machine setting M).step t e = some t') : Step setting M t t' := by
  have h : CoMonitor.step setting M t e = some t' := h
  cases e with
  | call f i =>
    simp only [CoMonitor.step] at h
    split at h
    case h_1 hf =>
      obtain ⟨hi, h⟩ := Option.ite_none_right_eq_some.1 h
      cases h
      exact .call hf hi
    case h_2 => cases h
  | mutex e =>
    obtain ⟨⟨hinner, henabled⟩, h⟩ := Option.ite_none_right_eq_some.1 h
    cases h
    exact .mutex hinner henabled
  | run f =>
    simp only [CoMonitor.step] at h
    split at h
    case h_1 hf => exact .of_run hf h
    case h_2 => cases h
  | unlock f =>
    simp only [CoMonitor.step] at h
    split at h
    case h_1 hf =>
      cases h
      exact .unlock hf
    case h_2 => cases h
  | schedule f =>
    simp only [CoMonitor.step] at h
    split at h
    case h_1 hf =>
      cases h
      exact .schedule hf
    case h_2 => cases h
  | resume f =>
    simp only [CoMonitor.step] at h
    split at h
    case h_1 hf =>
      cases h
      exact .resume hf
    case h_2 => cases h

/-! ### The mutex -/

/-- How far a fiber is with the mutex. -/
inductive Kind
  | away
  | locking
  | holding
  | unlocking
  deriving DecidableEq, Repr

def Place.kind : Place ι γ → Kind
  | .outside | .waiting _ _ | .popped _ _ | .scheduled _ _ => .away
  | .entering _ | .resuming _ _ => .locking
  | .inside _ | .notifying _ _ | .queued _ _ => .holding
  | .unlocking _ _ | .leaving => .unlocking

/-- The caller of the mutex is where the fiber is. -/
def Fits : Kind → CoMutex.Caller Nat → Prop
  | .away, caller => caller = ⟨.idle, 0, true⟩
  | .locking, caller =>
    caller.depth = 0 ∧ caller.hasFiber = true ∧ (caller.phase = .trying ∨ caller.phase = .failed ∨
      caller.phase = .parked ∨ caller.phase = .woken ∨ caller.phase = .taken)
  | .holding, caller => caller = ⟨.idle, 1, true⟩
  | .unlocking, caller =>
    caller.depth = 0 ∧ caller.hasFiber = true ∧
      ((∃ g, caller.phase = .releasing g) ∨ ∃ g, caller.phase = .scheduling g)

/-- The callers are fibers with ids of their own, and `m_fiber_id` starts with the id of nobody. -/
structure Fibers (setting : CoMutex.Setting Nat) : Prop where
  fibers : ∀ f, setting.thread f = false
  injective : Function.Injective setting.ids
  ne_zero : ∀ f, setting.ids f ≠ 0
  unset : ∀ f, setting.ids f ≠ setting.fiberId

/-- Ids from 1 on. -/
def ownIds : CoMutex.Setting Nat := ⟨fun f => f + 1, fun _ => false, 0⟩

theorem ownIds_fibers : Fibers ownIds where
  fibers _ := rfl
  injective _ _ h := Nat.succ.inj h
  ne_zero _ := Nat.succ_ne_zero _
  unset _ := Nat.succ_ne_zero _

/-- The conditions whose section of `wait` a fiber is in, and for which it is woken. -/
def Place.waitSection : Place ι γ → Option γ
  | .queued c _ | .unlocking c _ => some c
  | _ => none

def Place.wokenFor : Place ι γ → Option γ
  | .popped c _ | .scheduled c _ | .resuming c _ => some c
  | _ => none

/-- The fiber that is about to be handed to the scheduler. -/
def Place.notifies : Place ι γ → Option Nat
  | .notifying g _ => some g
  | _ => none

def Place.isPopped : Place ι γ → Bool
  | .popped _ _ => true
  | _ => false

/-- The fiber neither waits for somebody to hand it to the scheduler nor has to do so. -/
def Place.Plain (place : Place ι γ) : Prop := place.notifies = none ∧ place.isPopped = false

/-- What holds throughout. -/
structure Inv (setting : CoMutex.Setting Nat) (t : State δ ι γ) : Prop where
  exclusive : CoMutex.Exclusive t.mutex
  fits : ∀ f, Fits (t.places f).kind (t.mutex.callers f)
  -- the id in `m_fiber_id` is that of a fiber with the mutex
  named : ∀ f, t.mutex.fiberId = setting.ids f → 0 < (t.mutex.callers f).depth
  guards : ∀ c f, t.guard c = some f ↔ (t.places f).waitSection = some c
  -- who is out of the queue is about to be handed to the scheduler
  popped : ∀ f, (t.places f).isPopped = true ↔ ∃ g, (t.places g).notifies = some f

theorem Fits.hasFiber {kind : Kind} {caller : CoMutex.Caller Nat} (h : Fits kind caller) : caller.hasFiber = true := by
  cases kind with
  | away => rw [show caller = _ from h]
  | locking => exact h.2.1
  | holding => rw [show caller = _ from h]
  | unlocking => exact h.2.1

/-- The others stay as they are, apart from one that is woken in `lock`. -/
theorem callers_of_ne (setting : CoMutex.Setting Nat) (s : CoMutex.State Nat) (e : CoMutex.Event Nat) {g : Nat}
    (hg : g ≠ fiber e) : (CoMutex.next setting s e).callers g = s.callers g ∨
      ((s.callers g).phase = .parked ∧
        (CoMutex.next setting s e).callers g = { s.callers g with phase := .woken }) := by
  cases e with
  | lock f =>
    left
    simp only [CoMutex.next]
    split <;> exact Function.update_of_ne hg _ _
  | tryLock f =>
    left
    simp only [CoMutex.next]
    split <;> exact Function.update_of_ne hg _ _
  | guard f =>
    left
    simp only [CoMutex.next]
    split <;> exact Function.update_of_ne hg _ _
  | setId f => exact .inl (Function.update_of_ne hg _ _)
  | unlock f => exact .inl (Function.update_of_ne hg _ _)
  | release f fiber => exact .inl (Function.update_of_ne hg _ _)
  | schedule f fiber =>
    have hcallers : (CoMutex.next setting s (.schedule f fiber)).callers g = (s.wake fiber).callers g :=
      Function.update_of_ne hg _ _
    rw [hcallers, CoMutex.State.wake]
    split
    case isTrue hparked =>
      by_cases hfiber : g = fiber
      · subst hfiber
        exact .inr ⟨hparked, Function.update_self _ _ _⟩
      · exact .inl (Function.update_of_ne hfiber _ _)
    case isFalse => exact .inl rfl

theorem Fits.woken {kind : Kind} {caller : CoMutex.Caller Nat} (h : Fits kind caller)
    (hparked : caller.phase = .parked) : Fits kind { caller with phase := .woken } := by
  cases kind with
  | away =>
    rw [show caller = _ from h] at hparked
    cases hparked
  | locking => exact ⟨h.1, h.2.1, .inr (.inr (.inr (.inl rfl)))⟩
  | holding =>
    rw [show caller = _ from h] at hparked
    cases hparked
  | unlocking =>
    obtain ⟨-, -, ⟨g, hg⟩ | ⟨g, hg⟩⟩ := h
    · rw [hparked] at hg
      cases hg
    · rw [hparked] at hg
      cases hg

/-- A step of a fiber does not change how the others fit. -/
theorem Fits.other {s : CoMutex.State Nat} {e : CoMutex.Event Nat} {g : Nat} {kind : Kind}
    (h : Fits kind (s.callers g)) (hg : g ≠ fiber e) : Fits kind ((CoMutex.next setting s e).callers g) := by
  rcases callers_of_ne setting s e hg with hsame | ⟨hparked, hwoken⟩
  · rwa [hsame]
  · rw [hwoken]
    exact h.woken hparked

theorem Fits.locking_of {kind : Kind} {caller : CoMutex.Caller Nat} (h : Fits kind caller)
    (hphase : caller.phase = .trying ∨ caller.phase = .failed ∨ caller.phase = .parked ∨ caller.phase = .woken ∨
      caller.phase = .taken) : kind = .locking := by
  cases kind with
  | away =>
    rw [show caller = _ from h] at hphase
    simp at hphase
  | locking => rfl
  | holding =>
    rw [show caller = _ from h] at hphase
    simp at hphase
  | unlocking =>
    obtain ⟨-, -, ⟨g, hg⟩ | ⟨g, hg⟩⟩ := h
    · simp [hg] at hphase
    · simp [hg] at hphase

theorem Fits.unlocking_of {kind : Kind} {caller : CoMutex.Caller Nat} (h : Fits kind caller)
    (hphase : (∃ g, caller.phase = .releasing g) ∨ ∃ g, caller.phase = .scheduling g) : kind = .unlocking := by
  cases kind with
  | away =>
    rw [show caller = _ from h] at hphase
    simp at hphase
  | locking =>
    obtain ⟨-, -, hlocking⟩ := h
    rcases hphase with ⟨g, hg⟩ | ⟨g, hg⟩
    · simp [hg] at hlocking
    · simp [hg] at hlocking
  | holding =>
    rw [show caller = _ from h] at hphase
    simp at hphase
  | unlocking => rfl

omit [DecidableEq γ] in
/-- A fiber in `lock` stays there, or has the mutex. -/
theorem fits_arrive_locking {place : Place ι γ} {caller : CoMutex.Caller Nat} (hkind : place.kind = .locking)
    (h : Fits .locking caller ∨ Fits .holding caller) : Fits (arrive caller place).kind caller := by
  rcases h with h | h
  · have hdepth : ¬0 < caller.depth := by
      rw [h.1]
      exact Nat.lt_irrefl 0
    cases place <;> cases hkind <;> simpa only [arrive, if_neg hdepth, Place.kind] using h
  · have hdepth : 0 < caller.depth := by
      rw [show caller = _ from h]
      exact Nat.one_pos
    cases place <;> cases hkind <;> simpa only [arrive, if_pos hdepth, Place.kind] using h

omit [DecidableEq γ] in
/-- A fiber in `unlock` stays there, or has given the mutex back. -/
theorem fits_arrive_unlocking {place : Place ι γ} {caller : CoMutex.Caller Nat} (hkind : place.kind = .unlocking)
    (h : Fits .unlocking caller ∨ Fits .away caller) : Fits (arrive caller place).kind caller := by
  rcases h with h | h
  · have hphase : caller.phase ≠ .idle := by
      rintro hidle
      obtain ⟨-, -, ⟨g, hg⟩ | ⟨g, hg⟩⟩ := h
      · simp [hidle] at hg
      · simp [hidle] at hg
    cases place <;> cases hkind <;> simpa only [arrive, if_neg hphase, Place.kind] using h
  · have hphase : caller.phase = .idle := by rw [show caller = _ from h]
    cases place <;> cases hkind <;> simpa only [arrive, if_pos hphase, Place.kind] using h

omit [DecidableEq γ] in
/-- The steps in `lock` and `unlock` lead to the next step, or to the end. -/
theorem fits_inner {s : CoMutex.State Nat} {e : CoMutex.Event Nat} (hthread : ∀ f, setting.thread f = false)
    {place : Place ι γ} (h : Fits place.kind (s.callers (fiber e))) (hinner : inner e = true)
    (henabled : CoMutex.Enabled s e) :
    Fits (arrive ((CoMutex.next setting s e).callers (fiber e)) place).kind
      ((CoMutex.next setting s e).callers (fiber e)) := by
  cases e with
  | lock f => cases hinner
  | unlock f => cases hinner
  | tryLock f =>
    have hkind : place.kind = .locking := h.locking_of (by rcases henabled with hf | hf <;> simp [fiber, hf])
    rw [hkind] at h
    refine fits_arrive_locking hkind (.inl ?_)
    simp only [CoMutex.next]
    split
    · exact ⟨by simpa [fiber, CoMutex.State.setPhase, CoMutex.State.setCaller] using h.1,
        by simpa [fiber, CoMutex.State.setPhase, CoMutex.State.setCaller] using h.2.1,
        by simp [fiber, CoMutex.State.setPhase, CoMutex.State.setCaller]⟩
    · exact ⟨by simpa [fiber, CoMutex.State.setPhase, CoMutex.State.setCaller] using h.1,
        by simpa [fiber, CoMutex.State.setPhase, CoMutex.State.setCaller] using h.2.1,
        by simp [fiber, CoMutex.State.setPhase, CoMutex.State.setCaller]⟩
  | guard f =>
    have hf : (s.callers f).phase = .failed := henabled
    have hkind : place.kind = .locking := h.locking_of (by simp [fiber, hf])
    rw [hkind] at h
    simp only [CoMutex.next]
    split
    case isTrue =>
      refine fits_arrive_locking hkind (.inl ?_)
      simp only [fiber, CoMutex.State.setCaller, Function.update_self, hthread f]
      exact ⟨h.1, rfl, by simp⟩
    case isFalse =>
      refine fits_arrive_locking hkind (.inr ?_)
      obtain ⟨hdepth, hfiber, -⟩ := h
      simp only [fiber] at hdepth hfiber
      simp [Fits, fiber, CoMutex.State.enter, CoMutex.State.setCaller, hdepth, hfiber]
  | setId f =>
    have hf : (s.callers f).phase = .taken := henabled
    have hkind : place.kind = .locking := h.locking_of (by simp [fiber, hf])
    rw [hkind] at h
    refine fits_arrive_locking hkind (.inr ?_)
    obtain ⟨hdepth, hfiber, -⟩ := h
    simp only [fiber] at hdepth hfiber
    simp [Fits, fiber, CoMutex.next, CoMutex.State.enter, CoMutex.State.setCaller, hdepth, hfiber]
  | release f g =>
    have hf : (s.callers f).phase = .releasing g := henabled
    have hkind : place.kind = .unlocking := h.unlocking_of (.inl ⟨g, hf⟩)
    rw [hkind] at h
    refine fits_arrive_unlocking hkind ?_
    obtain ⟨hdepth, hfiber, -⟩ := h
    simp only [fiber] at hdepth hfiber
    cases g with
    | none =>
      right
      simp [Fits, fiber, CoMutex.next, CoMutex.State.setPhase, CoMutex.State.setCaller, CoMutex.afterRelease, hdepth,
        hfiber]
    | some g =>
      left
      simp [Fits, fiber, CoMutex.next, CoMutex.State.setPhase, CoMutex.State.setCaller, CoMutex.afterRelease, hdepth,
        hfiber]
  | schedule f g =>
    have hf : (s.callers f).phase = .scheduling g := henabled
    have hkind : place.kind = .unlocking := h.unlocking_of (.inr ⟨g, hf⟩)
    rw [hkind] at h
    refine fits_arrive_unlocking hkind (.inr ?_)
    obtain ⟨hdepth, hfiber, -⟩ := h
    simp only [fiber] at hdepth hfiber
    have hsame : (s.wake g).callers f = s.callers f ∨ (s.wake g).callers f = { s.callers f with phase := .woken } := by
      unfold CoMutex.State.wake
      split
      · by_cases hgf : f = g
        · subst hgf
          exact .inr (Function.update_self _ _ _)
        · exact .inl (Function.update_of_ne hgf _ _)
      · exact .inl rfl
    rcases hsame with hsame | hsame <;>
      simp [Fits, fiber, CoMutex.next, CoMutex.State.setPhase, CoMutex.State.setCaller, hsame, hdepth, hfiber]

variable (setting) in
/-- What `m_fiber_id` is set to. -/
theorem fiberId_next {s : CoMutex.State Nat} (e : CoMutex.Event Nat) (hfiber : ∀ f, (s.callers f).hasFiber = true) :
    ((CoMutex.next setting s e).fiberId = s.fiberId ∧
        (s.callers (fiber e)).depth ≤ ((CoMutex.next setting s e).callers (fiber e)).depth) ∨
      ((CoMutex.next setting s e).fiberId = setting.ids (fiber e) ∧
        0 < ((CoMutex.next setting s e).callers (fiber e)).depth) ∨
      (CoMutex.next setting s e).fiberId = 0 := by
  have hid : ∀ f, CoMutex.getFiberId setting s f = setting.ids f := fun f => by simp [CoMutex.getFiberId, hfiber f]
  cases e with
  | lock f =>
    simp only [CoMutex.next]
    split
    · exact .inl ⟨rfl, by simp [fiber, CoMutex.State.enter, CoMutex.State.setCaller]⟩
    · exact .inl ⟨rfl, by simp [fiber, CoMutex.State.setPhase, CoMutex.State.setCaller]⟩
  | tryLock f =>
    simp only [CoMutex.next]
    split
    · exact .inl ⟨rfl, by simp [fiber, CoMutex.State.setPhase, CoMutex.State.setCaller]⟩
    · exact .inl ⟨rfl, by simp [fiber, CoMutex.State.setPhase, CoMutex.State.setCaller]⟩
  | guard f =>
    simp only [CoMutex.next]
    split
    · exact .inl ⟨rfl, by simp [fiber, CoMutex.State.setCaller]⟩
    · exact .inr (.inl ⟨hid f, by simp [fiber, CoMutex.State.enter, CoMutex.State.setCaller]⟩)
  | setId f =>
    exact .inr (.inl ⟨hid f, by simp [fiber, CoMutex.next, CoMutex.State.enter, CoMutex.State.setCaller]⟩)
  | unlock f => exact .inr (.inr rfl)
  | release f g =>
    exact .inl ⟨rfl, by simp [fiber, CoMutex.next, CoMutex.State.setPhase, CoMutex.State.setCaller]⟩
  | schedule f g =>
    have hdepth : ((s.wake g).callers f).depth = (s.callers f).depth := by
      unfold CoMutex.State.wake
      split
      · by_cases hgf : f = g
        · subst hgf
          simp [CoMutex.State.setPhase, CoMutex.State.setCaller]
        · simp [CoMutex.State.setPhase, CoMutex.State.setCaller, Function.update_of_ne hgf]
      · rfl
    have hfiberId : (s.wake g).fiberId = s.fiberId := by
      unfold CoMutex.State.wake
      split <;> rfl
    refine .inl ⟨hfiberId, ?_⟩
    simp [fiber, CoMutex.next, CoMutex.State.setPhase, CoMutex.State.setCaller, hdepth]

omit [DecidableEq γ] in
theorem waitSection_arrive {place : Place ι γ} {caller : CoMutex.Caller Nat}
    (h : ∀ c i, place = .unlocking c i → caller.phase ≠ .idle) :
    (arrive caller place).waitSection = place.waitSection := by
  cases place with
  | unlocking c i => rw [arrive, if_neg (h c i rfl)]
  | entering i =>
    rw [arrive]
    split <;> rfl
  | resuming c i =>
    rw [arrive]
    split <;> rfl
  | leaving =>
    rw [arrive]
    split <;> rfl
  | _ => rfl

theorem freed_eq {place : Place ι γ} {caller : CoMutex.Caller Nat} {guard : γ → Option Nat}
    (h : ∀ c i, place = .unlocking c i → caller.phase ≠ .idle) : freed caller guard place = guard := by
  cases place with
  | unlocking c i => rw [freed, if_neg (h c i rfl)]
  | _ => rfl

/-- The sections end where they should. -/
theorem guards_go {guard : γ → Option Nat} {places : Nat → Place ι γ} (h : ∀ c f, guard c = some f ↔
      (places f).waitSection = some c) {f : Nat} {place : Place ι γ}
    (hsection : place.waitSection = (places f).waitSection)
    (caller : CoMutex.Caller Nat) (c : γ) (g : Nat) : freed caller guard place c = some g ↔
      (Function.update places f (arrive caller place) g).waitSection = some c := by
  by_cases hends : ∃ c i, place = .unlocking c i ∧ caller.phase = .idle
  · obtain ⟨c', i, rfl, hidle⟩ := hends
    have hself : guard c' = some f := (h c' f).2 hsection.symm
    have harrive : (arrive caller (Place.unlocking c' i)) = .waiting c' i := if_pos hidle
    rw [harrive, freed, if_pos hidle]
    by_cases hc : c = c'
    · subst hc
      rw [Function.update_self]
      refine iff_of_false (by simp) fun hsec => ?_
      by_cases hg : g = f
      · subst hg
        rw [Function.update_self] at hsec
        cases hsec
      · rw [Function.update_of_ne hg, ← h, hself, Option.some.injEq] at hsec
        exact hg hsec.symm
    · rw [Function.update_of_ne hc, h]
      by_cases hg : g = f
      · subst hg
        have hother : (places g).waitSection ≠ some c := by
          rw [← hsection]
          exact fun hsec => hc (Option.some.inj hsec).symm
        rw [Function.update_self]
        exact iff_of_false hother (by simp [Place.waitSection])
      · rw [Function.update_of_ne hg]
  · have hgoes : ∀ c i, place = .unlocking c i → caller.phase ≠ .idle := fun c i hplace hidle =>
      hends ⟨c, i, hplace, hidle⟩
    rw [freed_eq hgoes, h]
    by_cases hg : g = f
    · subst hg
      rw [Function.update_self, waitSection_arrive hgoes, hsection]
    · rw [Function.update_of_ne hg]

/-! ### What holds throughout -/

omit [DecidableEq γ] in
/-- What is the same of a fiber at both places is the same of all. -/
theorem apply_update {α : Type} (φ : Place ι γ → α) {places : Nat → Place ι γ} {f : Nat} {place : Place ι γ}
    (h : φ place = φ (places f)) (g : Nat) : φ (Function.update places f place g) = φ (places g) := by
  by_cases hg : g = f
  · subst hg
    rw [Function.update_self, h]
  · rw [Function.update_of_ne hg]

omit [DecidableEq γ] in
/-- Whoever is out of the queue stays there until it is handed to the scheduler. -/
theorem popped_update {places : Nat → Place ι γ}
    (h : ∀ f, (places f).isPopped = true ↔ ∃ g, (places g).notifies = some f) {f : Nat} {place : Place ι γ}
    (hold : (places f).Plain) (hnew : place.Plain) (g : Nat) :
    (Function.update places f place g).isPopped = true ↔
      ∃ g', (Function.update places f place g').notifies = some g := by
  have hpopped := apply_update Place.isPopped (hnew.2.trans hold.2.symm) g
  have hnotifies := apply_update Place.notifies (hnew.1.trans hold.1.symm)
  simp only [hpopped, hnotifies]
  exact h g

omit [DecidableEq γ] in
theorem plain_arrive {place : Place ι γ} (h : place.Plain) (caller : CoMutex.Caller Nat) :
    (arrive caller place).Plain := by
  cases place with
  | entering i =>
    rw [arrive]
    split <;> exact ⟨rfl, rfl⟩
  | resuming c i =>
    rw [arrive]
    split <;> exact ⟨rfl, rfl⟩
  | unlocking c i =>
    rw [arrive]
    split <;> exact ⟨rfl, rfl⟩
  | leaving =>
    rw [arrive]
    split <;> exact ⟨rfl, rfl⟩
  | _ => exact h

/-- A step of the mutex keeps what holds. -/
theorem Inv.go (hset : Fibers setting) (h : Inv setting t) {f : Nat} {place : Place ι γ} {e : CoMutex.Event Nat}
    (hfiber : fiber e = f) (henabled : CoMutex.Enabled t.mutex e) (houtermost : CoMutex.Outermost setting t.mutex e)
    (hfit : Fits (arrive ((CoMutex.next setting t.mutex e).callers f) place).kind
      ((CoMutex.next setting t.mutex e).callers f))
    (hsection : place.waitSection = (t.places f).waitSection) (hold : (t.places f).Plain) (hnew : place.Plain) :
    Inv setting (t.go setting f place e) := by
  subst hfiber
  have hhas : ∀ g, (t.mutex.callers g).hasFiber = true := fun g => (h.fits g).hasFiber
  constructor
  case exclusive =>
    have hstep : (CoMutex.machine setting).step t.mutex e = some (CoMutex.next setting t.mutex e) := if_pos henabled
    exact h.exclusive.step houtermost hstep
  case fits =>
    intro g
    show Fits (Function.update t.places (fiber e) _ g).kind _
    by_cases hg : g = fiber e
    · subst hg
      rw [Function.update_self]
      exact hfit
    · rw [Function.update_of_ne hg]
      exact (h.fits g).other hg
  case named =>
    intro g hg
    show 0 < ((CoMutex.next setting t.mutex e).callers g).depth
    have hg : (CoMutex.next setting t.mutex e).fiberId = setting.ids g := hg
    by_cases hself : g = fiber e
    · subst hself
      rcases fiberId_next setting e hhas with ⟨hsame, hdepth⟩ | ⟨-, hdepth⟩ | hzero
      · exact Nat.lt_of_lt_of_le (h.named _ (hsame.symm.trans hg)) hdepth
      · exact hdepth
      · exact absurd (hg.symm.trans hzero) (hset.ne_zero _)
    · rcases fiberId_next setting e hhas with ⟨hsame, -⟩ | ⟨hids, -⟩ | hzero
      · have hdepth := h.named g (hsame.symm.trans hg)
        rcases callers_of_ne setting t.mutex e hself with heq | ⟨-, heq⟩
        · rwa [heq]
        · rwa [heq]
      · exact absurd (hset.injective (hg.symm.trans hids)) hself
      · exact absurd (hg.symm.trans hzero) (hset.ne_zero _)
  case guards => exact guards_go h.guards hsection _
  case popped => exact popped_update h.popped hold (plain_arrive hnew _)

omit [DecidableEq γ] in
/-- A fiber goes on while it has the mutex, and others are taken out of a queue. -/
theorem Inv.inside (h : Inv setting t) (hmutex : t'.mutex = t.mutex)
    (hkind : ∀ f, (t'.places f).kind = (t.places f).kind)
    (hguards : ∀ c f, t'.guard c = some f ↔ (t'.places f).waitSection = some c)
    (hpopped : ∀ f, (t'.places f).isPopped = true ↔ ∃ g, (t'.places g).notifies = some f) : Inv setting t' where
  exclusive := hmutex ▸ h.exclusive
  fits f := by
    rw [hkind, hmutex]
    exact h.fits f
  named f := by
    rw [hmutex]
    exact h.named f
  guards := hguards
  popped := hpopped

omit [DecidableEq γ] in
theorem Inv.initial (hset : Fibers setting) : Inv setting (CoMonitor.initial setting M) where
  exclusive := CoMutex.Exclusive.initial
  fits f := by simp [CoMonitor.initial, CoMutex.initial, Place.kind, Fits, hset.fibers f]
  named f hf := absurd hf.symm (hset.unset f)
  guards c f := by simp [CoMonitor.initial, Place.waitSection]
  popped f := by simp [CoMonitor.initial, Place.isPopped, Place.notifies]

end CoMonitor

end AcidCompute

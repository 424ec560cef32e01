import AcidCompute.Base.Machine
import Mathlib.Data.List.Nodup
import Mathlib.Logic.Function.Basic

/-!
# Monitors

Data under a lock, with condition queues, and any number of fibers that call functions.  A function is a program of
labelled instructions which a fiber runs with the lock.  A fiber that waits queues up and gives the lock back in one
step; it is woken by another fiber that has the lock, and then competes for the lock with the fibers that enter.

The rules derive what holds throughout from the single instructions: what is true at each place
(`Monitor.Assertions.Valid`), of the data alone (`Monitor.Keeps`), that no notification is lost (`Monitor.Counts`), and
that nobody waits any more (`Monitor.Flushes`).
-/

namespace AcidCompute

namespace Monitor

/-- What a fiber that has the lock does next. -/
inductive Instr (δ ι γ : Type)
  | update (data : δ) (next : ι)
  -- when it has been woken and has the lock again, the fiber goes on at `next`
  | wait (cond : γ) (next : ι)
  | notify (cond : γ) (next : ι)
  | notifyAll (cond : γ) (next : ι)
  | unlock

/-- Where a fiber is. -/
inductive Phase (ι γ : Type)
  | outside
  | entering (label : ι)
  | inside
  | waiting (cond : γ) (next : ι)
  deriving DecidableEq, Repr

structure State (δ ι γ : Type) where
  data : δ
  -- the fiber with the lock, and its place in the program
  holder : Option (Nat × ι)
  fibers : Nat → Phase ι γ
  -- the fibers in each condition queue
  queue : γ → List Nat
  -- the fibers that have been woken and have not resumed
  woken : γ → List Nat

inductive Event (ι : Type)
  | call (fiber : Nat) (label : ι)
  -- a fiber gets the lock
  | acquire (fiber : Nat)
  -- the fiber with the lock takes a step
  | run
  deriving DecidableEq, Repr

end Monitor

structure Monitor (δ ι γ : Type) where
  start : δ
  -- the labels where calls begin
  entry : ι → Bool
  code : ι → δ → Monitor.Instr δ ι γ

namespace Monitor

variable {δ ι γ : Type} [DecidableEq γ]

namespace State

variable (s : State δ ι γ)

def setPhase (f : Nat) (phase : Phase ι γ) : State δ ι γ := { s with fibers := Function.update s.fibers f phase }

/-- Where a fiber goes on when it gets the lock. -/
def resumption (f : Nat) : Option ι :=
  match s.fibers f with
  | .entering i => some i
  | .waiting c i => if f ∈ s.woken c then some i else none
  | _ => none

/-- A woken fiber resumes. -/
def resume (f : Nat) : State δ ι γ :=
  match s.fibers f with
  | .waiting c _ => { s with woken := Function.update s.woken c ((s.woken c).erase f) }
  | _ => s

def take (f : Nat) (i : ι) : State δ ι γ := { s.setPhase f .inside with holder := some (f, i) }

def goto (f : Nat) (i : ι) : State δ ι γ := { s with holder := some (f, i) }

/-- The fiber with the lock queues up and gives the lock back. -/
def park (f : Nat) (c : γ) (i : ι) : State δ ι γ :=
  { s.setPhase f (.waiting c i) with holder := none, queue := Function.update s.queue c (s.queue c ++ [f]) }

/-- The first fiber of a queue is woken, if there is one. -/
def wake (c : γ) : State δ ι γ :=
  match s.queue c with
  | [] => s
  | f :: rest =>
    { s with queue := Function.update s.queue c rest, woken := Function.update s.woken c (s.woken c ++ [f]) }

def wakeAll (c : γ) : State δ ι γ :=
  { s with
    queue := Function.update s.queue c []
    woken := Function.update s.woken c (s.woken c ++ s.queue c) }

def leave (f : Nat) : State δ ι γ := { s.setPhase f .outside with holder := none }

end State

variable (M : Monitor δ ι γ)

def initial : State δ ι γ := ⟨M.start, none, fun _ => .outside, fun _ => [], fun _ => []⟩

/-- The next step of the fiber with the lock. -/
def perform (s : State δ ι γ) (f : Nat) (i : ι) : State δ ι γ :=
  match M.code i s.data with
  | .update d i' => { s.goto f i' with data := d }
  | .wait c i' => s.park f c i'
  | .notify c i' => (s.goto f i').wake c
  | .notifyAll c i' => (s.goto f i').wakeAll c
  | .unlock => s.leave f

def step (s : State δ ι γ) : Event ι → Option (State δ ι γ)
  | .call f i =>
    match s.fibers f with
    | .outside => if M.entry i then some (s.setPhase f (.entering i)) else none
    | _ => none
  | .acquire f =>
    match s.holder with
    | none => (s.resumption f).map fun i => (s.resume f).take f i
    | some _ => none
  | .run => s.holder.map fun holder => M.perform s holder.1 holder.2

def machine : Machine (State δ ι γ) (Event ι) where
  start := M.initial
  step := M.step

/-- The steps, one for each way in which a fiber goes on. -/
inductive Step : State δ ι γ → State δ ι γ → Prop
  | call {s f i} (hf : s.fibers f = .outside) (hi : M.entry i = true) : Step s (s.setPhase f (.entering i))
  | enter {s f i} (hfree : s.holder = none) (hf : s.fibers f = .entering i) : Step s (s.take f i)
  | resume {s f c i} (hfree : s.holder = none) (hf : s.fibers f = .waiting c i) (hwoken : f ∈ s.woken c) :
    Step s ({ s with woken := Function.update s.woken c ((s.woken c).erase f) }.take f i)
  | update {s f i d i'} (hholder : s.holder = some (f, i)) (hcode : M.code i s.data = .update d i') :
    Step s { s.goto f i' with data := d }
  | wait {s f i c i'} (hholder : s.holder = some (f, i)) (hcode : M.code i s.data = .wait c i') :
    Step s (s.park f c i')
  | notify {s f i c i'} (hholder : s.holder = some (f, i)) (hcode : M.code i s.data = .notify c i') :
    Step s ((s.goto f i').wake c)
  | notifyAll {s f i c i'} (hholder : s.holder = some (f, i)) (hcode : M.code i s.data = .notifyAll c i') :
    Step s ((s.goto f i').wakeAll c)
  | unlock {s f i} (hholder : s.holder = some (f, i)) (hcode : M.code i s.data = .unlock) : Step s (s.leave f)

variable {M} {s s' : State δ ι γ}

theorem step_call {f : Nat} {i : ι} (h : M.machine.step s (.call f i) = some s') :
    s.fibers f = .outside ∧ M.entry i = true ∧ s' = s.setPhase f (.entering i) := by
  simp only [machine, step] at h
  split at h
  case h_1 hf =>
    split at h
    case isTrue hi =>
      cases h
      exact ⟨hf, hi, rfl⟩
    case isFalse => cases h
  case h_2 => cases h

theorem step_acquire {f : Nat} (h : M.machine.step s (.acquire f) = some s') : s.holder = none ∧
    ((∃ i, s.fibers f = .entering i ∧ s' = s.take f i) ∨ ∃ c i, s.fibers f = .waiting c i ∧ f ∈ s.woken c ∧
      s' = { s with woken := Function.update s.woken c ((s.woken c).erase f) }.take f i) := by
  simp only [machine, step] at h
  split at h
  case h_1 hfree =>
    obtain ⟨i, hi, rfl⟩ := Option.map_eq_some_iff.1 h
    refine ⟨hfree, ?_⟩
    cases hf : s.fibers f with
    | outside => simp [State.resumption, hf] at hi
    | inside => simp [State.resumption, hf] at hi
    | entering j =>
      have heq : j = i := by simpa [State.resumption, hf] using hi
      subst heq
      exact .inl ⟨j, rfl, by simp [State.resume, hf]⟩
    | waiting c j =>
      obtain ⟨hwoken, rfl⟩ : f ∈ s.woken c ∧ j = i := by simpa [State.resumption, hf] using hi
      exact .inr ⟨c, j, rfl, hwoken, by simp [State.resume, hf]⟩
  case h_2 => cases h

theorem step_run (h : M.machine.step s .run = some s') : ∃ f i, s.holder = some (f, i) ∧ s' = M.perform s f i := by
  obtain ⟨⟨f, i⟩, hholder, rfl⟩ := Option.map_eq_some_iff.1 h
  exact ⟨f, i, hholder, rfl⟩

theorem Step.of_step {e : Event ι} (h : M.machine.step s e = some s') : M.Step s s' := by
  cases e with
  | call f i =>
    obtain ⟨hf, hi, rfl⟩ := step_call h
    exact .call hf hi
  | acquire f =>
    obtain ⟨hfree, hplace⟩ := step_acquire h
    rcases hplace with ⟨i, hf, rfl⟩ | ⟨c, i, hf, hwoken, rfl⟩
    · exact .enter hfree hf
    · exact .resume hfree hf hwoken
  | run =>
    obtain ⟨f, i, hholder, rfl⟩ := step_run h
    cases hcode : M.code i s.data with
    | update d i' => simpa [perform, hcode] using Step.update hholder hcode
    | wait c i' => simpa [perform, hcode] using Step.wait hholder hcode
    | notify c i' => simpa [perform, hcode] using Step.notify hholder hcode
    | notifyAll c i' => simpa [perform, hcode] using Step.notifyAll hholder hcode
    | unlock => simpa [perform, hcode] using Step.unlock hholder hcode

/-! ### Queues -/

namespace State

omit [DecidableEq γ] in
@[simp] theorem goto_data (f : Nat) (i : ι) : (s.goto f i).data = s.data := rfl

omit [DecidableEq γ] in
@[simp] theorem goto_fibers (f : Nat) (i : ι) : (s.goto f i).fibers = s.fibers := rfl

omit [DecidableEq γ] in
@[simp] theorem setPhase_self (f : Nat) (phase : Phase ι γ) : (s.setPhase f phase).fibers f = phase :=
  Function.update_self _ _ _

omit [DecidableEq γ] in
theorem setPhase_of_ne {f g : Nat} {phase : Phase ι γ} (hne : g ≠ f) :
    (s.setPhase f phase).fibers g = s.fibers g := Function.update_of_ne hne _ _

variable (s) (c : γ)

theorem wake_eq : s.queue c = [] ∧ s.wake c = s ∨ ∃ f rest, s.queue c = f :: rest ∧
    s.wake c = { s with
      queue := Function.update s.queue c rest
      woken := Function.update s.woken c (s.woken c ++ [f]) } := by
  cases hqueue : s.queue c with
  | nil => exact .inl ⟨rfl, by simp [wake, hqueue]⟩
  | cons f rest => exact .inr ⟨f, rest, rfl, by simp [wake, hqueue]⟩

@[simp] theorem wake_data : (s.wake c).data = s.data := by
  rcases s.wake_eq c with ⟨-, heq⟩ | ⟨f, rest, -, heq⟩ <;> rw [heq]

@[simp] theorem wake_holder : (s.wake c).holder = s.holder := by
  rcases s.wake_eq c with ⟨-, heq⟩ | ⟨f, rest, -, heq⟩ <;> rw [heq]

@[simp] theorem wake_fibers : (s.wake c).fibers = s.fibers := by
  rcases s.wake_eq c with ⟨-, heq⟩ | ⟨f, rest, -, heq⟩ <;> rw [heq]

variable {s c}

theorem wake_queue_of_ne {c' : γ} (hne : c' ≠ c) : (s.wake c).queue c' = s.queue c' := by
  rcases s.wake_eq c with ⟨-, heq⟩ | ⟨f, rest, -, heq⟩
  · rw [heq]
  · rw [heq]
    exact Function.update_of_ne hne _ _

theorem wake_woken_of_ne {c' : γ} (hne : c' ≠ c) : (s.wake c).woken c' = s.woken c' := by
  rcases s.wake_eq c with ⟨-, heq⟩ | ⟨f, rest, -, heq⟩
  · rw [heq]
  · rw [heq]
    exact Function.update_of_ne hne _ _

/-- Nobody is woken where nobody waits. -/
theorem length_woken_wake (hqueue : (s.wake c).queue c ≠ []) :
    s.queue c ≠ [] ∧ ((s.wake c).woken c).length = (s.woken c).length + 1 := by
  rcases s.wake_eq c with ⟨hnil, heq⟩ | ⟨f, rest, hcons, heq⟩
  · rw [heq] at hqueue
    exact absurd hnil hqueue
  · rw [heq, hcons]
    simp

theorem wake_perm (c' : γ) :
    ((s.wake c).queue c' ++ (s.wake c).woken c').Perm (s.queue c' ++ s.woken c') := by
  by_cases hne : c' = c
  · subst hne
    rcases s.wake_eq c' with ⟨-, heq⟩ | ⟨f, rest, hcons, heq⟩
    · rw [heq]
    · rw [heq, hcons]
      simp only [Function.update_self]
      rw [← List.append_assoc]
      exact List.perm_append_comm
  · rw [wake_queue_of_ne hne, wake_woken_of_ne hne]

theorem wakeAll_perm (c' : γ) :
    ((s.wakeAll c).queue c' ++ (s.wakeAll c).woken c').Perm (s.queue c' ++ s.woken c') := by
  by_cases hne : c' = c
  · subst hne
    simpa [wakeAll] using List.perm_append_comm
  · simp [wakeAll, Function.update_of_ne hne]

end State

/-! ### Who waits -/

/-- A fiber waits for a condition just if it is once in its queue or among those that it has woken. -/
structure Sound (s : State δ ι γ) : Prop where
  nodup : ∀ c, (s.queue c ++ s.woken c).Nodup
  waiting : ∀ f c, f ∈ s.queue c ++ s.woken c ↔ ∃ i, s.fibers f = .waiting c i
  inside : ∀ f, s.fibers f = .inside ↔ ∃ i, s.holder = some (f, i)

omit [DecidableEq γ] in
theorem Sound.initial : Sound M.initial where
  nodup c := List.nodup_nil
  waiting f c := by simp [Monitor.initial]
  inside f := by simp [Monitor.initial]

omit [DecidableEq γ] in
/-- The fiber with the lock goes on, and fibers are woken. -/
theorem Sound.goto (h : Sound s) {f : Nat} {i i' : ι} (hholder : s.holder = some (f, i))
    (hholder' : s'.holder = some (f, i')) (hfibers : s'.fibers = s.fibers)
    (hperm : ∀ c, (s'.queue c ++ s'.woken c).Perm (s.queue c ++ s.woken c)) : Sound s' where
  nodup c := (hperm c).nodup_iff.2 (h.nodup c)
  waiting g c := by rw [(hperm c).mem_iff, hfibers, h.waiting g c]
  inside g := by
    rw [hfibers, h.inside g, hholder, hholder']
    simp

omit [DecidableEq γ] in
/-- A fiber that waits for nothing goes to where it waits for nothing. -/
theorem Sound.move (h : Sound s) {f : Nat} {phase : Phase ι γ} (hfibers : s'.fibers = Function.update s.fibers f phase)
    (hqueue : s'.queue = s.queue) (hwoken : s'.woken = s.woken) (hold : ∀ c i, s.fibers f ≠ .waiting c i)
    (hnew : ∀ c i, phase ≠ .waiting c i) (hself : phase = .inside ↔ ∃ i, s'.holder = some (f, i))
    (hothers : ∀ g, g ≠ f → ((∃ i, s'.holder = some (g, i)) ↔ ∃ i, s.holder = some (g, i))) : Sound s' where
  nodup c := by
    rw [hqueue, hwoken]
    exact h.nodup c
  waiting g c := by
    rw [hqueue, hwoken, h.waiting g c, hfibers]
    by_cases hg : g = f
    · subst hg
      simp [hold, hnew]
    · rw [Function.update_of_ne hg]
  inside g := by
    rw [hfibers]
    by_cases hg : g = f
    · subst hg
      rw [Function.update_self]
      exact hself
    · rw [Function.update_of_ne hg, h.inside g]
      exact (hothers g hg).symm

theorem Sound.resume (h : Sound s) {f : Nat} {c : γ} {i : ι} (hfree : s.holder = none)
    (hf : s.fibers f = .waiting c i) (hwoken : f ∈ s.woken c) :
    Sound ({ s with woken := Function.update s.woken c ((s.woken c).erase f) }.take f i) := by
  have hsplit := List.nodup_append.1 (h.nodup c)
  constructor
  case nodup =>
    intro c'
    by_cases hc : c' = c
    · subst hc
      simp only [State.take, State.setPhase, Function.update_self]
      exact (h.nodup c').sublist (List.Sublist.append_left List.erase_sublist _)
    · simpa [State.take, State.setPhase, Function.update_of_ne hc] using h.nodup c'
  case waiting =>
    intro g c'
    by_cases hg : g = f
    · subst hg
      by_cases hc : c' = c
      · subst hc
        have hqueue : g ∉ s.queue c' := fun hmem => hsplit.2.2 g hmem g hwoken rfl
        simp [State.take, State.setPhase, hqueue, hsplit.2.1.not_mem_erase]
      · have hnone : ¬ g ∈ s.queue c' ++ s.woken c' := by
          rw [h.waiting g c']
          rintro ⟨j, hj⟩
          rw [hf] at hj
          cases hj
          exact hc rfl
        simpa [State.take, State.setPhase, Function.update_of_ne hc] using hnone
    · have hmem := h.waiting g c'
      by_cases hc : c' = c
      · subst hc
        simpa [State.take, State.setPhase, Function.update_of_ne hg, List.mem_erase_of_ne hg] using hmem
      · simpa [State.take, State.setPhase, Function.update_of_ne hg, Function.update_of_ne hc] using hmem
  case inside =>
    intro g
    by_cases hg : g = f
    · subst hg
      simp [State.take, State.setPhase]
    · have hnot : s.fibers g ≠ .inside := by
        intro hin
        obtain ⟨j, hj⟩ := (h.inside g).1 hin
        rw [hfree] at hj
        cases hj
      have hne : f ≠ g := Ne.symm hg
      simp [State.take, State.setPhase, Function.update_of_ne hg, hnot, hne]

theorem Sound.park (h : Sound s) {f : Nat} {i : ι} (hholder : s.holder = some (f, i)) (c : γ) (i' : ι) :
    Sound (s.park f c i') := by
  have hf : s.fibers f = .inside := (h.inside f).2 ⟨i, hholder⟩
  have hnot : ∀ c', f ∉ s.queue c' ++ s.woken c' := by
    intro c' hmem
    obtain ⟨j, hj⟩ := (h.waiting f c').1 hmem
    rw [hf] at hj
    cases hj
  constructor
  case nodup =>
    intro c'
    by_cases hc : c' = c
    · subst hc
      have hperm : (s.queue c' ++ [f] ++ s.woken c').Perm (f :: (s.queue c' ++ s.woken c')) := by
        rw [List.append_assoc]
        exact List.perm_middle
      simp only [State.park, State.setPhase, Function.update_self]
      exact hperm.nodup_iff.2 (List.nodup_cons.2 ⟨hnot c', h.nodup c'⟩)
    · simpa [State.park, State.setPhase, Function.update_of_ne hc] using h.nodup c'
  case waiting =>
    intro g c'
    by_cases hg : g = f
    · subst hg
      by_cases hc : c' = c
      · subst hc
        simp [State.park, State.setPhase]
      · have hne : c ≠ c' := Ne.symm hc
        simpa [State.park, State.setPhase, Function.update_of_ne hc, hne] using hnot c'
    · have hmem := h.waiting g c'
      by_cases hc : c' = c
      · subst hc
        simpa [State.park, State.setPhase, Function.update_of_ne hg, hg] using hmem
      · simpa [State.park, State.setPhase, Function.update_of_ne hg, Function.update_of_ne hc] using hmem
  case inside =>
    intro g
    by_cases hg : g = f
    · subst hg
      simp [State.park, State.setPhase]
    · have hother : s.fibers g ≠ .inside := by
        intro hin
        obtain ⟨j, hj⟩ := (h.inside g).1 hin
        rw [hholder] at hj
        cases hj
        exact hg rfl
      simp [State.park, State.setPhase, Function.update_of_ne hg, hother]

theorem Sound.step (h : Sound s) (hstep : M.Step s s') : Sound s' := by
  cases hstep with
  | @call f i hf hi =>
    refine h.move rfl rfl rfl ?_ ?_ ?_ (fun _ _ => Iff.rfl)
    · simp [hf]
    · simp
    · have hnot : ¬ ∃ j, s.holder = some (f, j) := by
        rw [← h.inside f, hf]
        simp
      simpa [State.setPhase] using hnot
  | @enter f i hfree hf =>
    refine h.move rfl rfl rfl ?_ ?_ ?_ ?_
    · simp [hf]
    · simp
    · simp [State.take]
    · intro g hg
      simp [State.take, hfree, Ne.symm hg]
  | resume hfree hf hwoken => exact h.resume hfree hf hwoken
  | update hholder hcode => exact h.goto hholder rfl rfl fun _ => List.Perm.refl _
  | wait hholder hcode => exact h.park hholder _ _
  | notify hholder hcode =>
    refine h.goto hholder (State.wake_holder _ _) (State.wake_fibers _ _) ?_
    exact fun c' => State.wake_perm c'
  | notifyAll hholder hcode =>
    refine h.goto hholder rfl rfl ?_
    exact fun c' => State.wakeAll_perm c'
  | @unlock f i hholder hcode =>
    have hf : s.fibers f = .inside := (h.inside f).2 ⟨i, hholder⟩
    refine h.move rfl rfl rfl ?_ ?_ ?_ ?_
    · simp [hf]
    · simp
    · simp [State.leave]
    · intro g hg
      simp [State.leave, hholder, Ne.symm hg]

theorem Sound.of_reaches (h : M.machine.Reaches Machine.any M.machine.start s) : Sound s :=
  h.invariant (fun _ _ _ hs _ hstep => hs.step (Step.of_step hstep)) Sound.initial

/-! ### What holds at each place -/

/-- What is said of the data, and of a fiber and the data at each place where a fiber can be. -/
structure Assertions (δ ι γ : Type) where
  data : δ → Prop
  entering : Nat → ι → δ → Prop
  waiting : Nat → γ → ι → δ → Prop
  -- said once a fiber has been woken
  woken : γ → δ → Prop
  holder : Nat → ι → δ → Prop

namespace Assertions

structure Holds (A : Assertions δ ι γ) (s : State δ ι γ) : Prop where
  data : A.data s.data
  entering : ∀ f i, s.fibers f = .entering i → A.entering f i s.data
  waiting : ∀ f c i, s.fibers f = .waiting c i → A.waiting f c i s.data
  woken : ∀ c, s.woken c ≠ [] → A.woken c s.data
  holder : ∀ f i, s.holder = some (f, i) → A.holder f i s.data

/-- The assertions follow from each other along the program, and what is said of other fibers is not spoiled. -/
structure Valid (A : Assertions δ ι γ) (M : Monitor δ ι γ) (Allowed : State δ ι γ → Event ι → Prop) : Prop where
  start : A.data M.start
  call : ∀ {s f i}, A.Holds s → Allowed s (.call f i) → M.entry i = true → A.entering f i s.data
  enter : ∀ {f i d}, A.data d → A.entering f i d → A.holder f i d
  resume : ∀ {f c i d}, A.data d → A.waiting f c i d → A.woken c d → A.holder f i d
  update : ∀ {f i d d' i'}, A.data d → A.holder f i d → M.code i d = .update d' i' → A.data d' ∧ A.holder f i' d'
  others : ∀ {f i d d' i' g}, A.holder f i d → M.code i d = .update d' i' → g ≠ f →
    (∀ j, A.entering g j d → A.entering g j d') ∧ ∀ c j, A.waiting g c j d → A.waiting g c j d'
  stable : ∀ {f i d d' i'}, A.holder f i d → M.code i d = .update d' i' → ∀ c, A.woken c d → A.woken c d'
  wait : ∀ {f i d c i'}, A.holder f i d → M.code i d = .wait c i' → A.waiting f c i' d
  notify : ∀ {f i d c i'}, A.holder f i d → M.code i d = .notify c i' → A.holder f i' d ∧ A.woken c d
  notifyAll : ∀ {f i d c i'}, A.holder f i d → M.code i d = .notifyAll c i' → A.holder f i' d ∧ A.woken c d

variable {A : Assertions δ ι γ} {Allowed : State δ ι γ → Event ι → Prop}

omit [DecidableEq γ] in
/-- A fiber goes to a place, and the others stay where they are. -/
theorem Holds.setPhase (h : A.Holds s) (f : Nat) {phase : Phase ι γ}
    (hentering : ∀ i, phase = .entering i → A.entering f i s.data)
    (hwaiting : ∀ c i, phase = .waiting c i → A.waiting f c i s.data) : A.Holds (s.setPhase f phase) where
  data := h.data
  entering := by
    intro g i hg
    by_cases hgf : g = f
    · subst hgf
      exact hentering i (by rwa [State.setPhase_self] at hg)
    · exact h.entering g i (by rwa [State.setPhase_of_ne hgf] at hg)
  waiting := by
    intro g c i hg
    by_cases hgf : g = f
    · subst hgf
      exact hwaiting c i (by rwa [State.setPhase_self] at hg)
    · exact h.waiting g c i (by rwa [State.setPhase_of_ne hgf] at hg)
  woken := h.woken
  holder := h.holder

omit [DecidableEq γ] in
theorem Holds.take (h : A.Holds s) {f : Nat} {i : ι} (hi : A.holder f i s.data) : A.Holds (s.take f i) := by
  have hinside : A.Holds (s.setPhase f .inside) :=
    h.setPhase f (fun _ hphase => by cases hphase) (fun _ _ hphase => by cases hphase)
  refine { hinside with holder := ?_ }
  rintro g j hg
  cases hg
  exact hi

omit [DecidableEq γ] in
/-- The fiber with the lock goes on, and the data stay. -/
theorem Holds.goto (h : A.Holds s) {f : Nat} {i : ι} (hi : A.holder f i s.data) : A.Holds (s.goto f i) := by
  refine { h with holder := ?_ }
  rintro g j hg
  cases hg
  exact hi

omit [DecidableEq γ] in
/-- Fibers are woken when it may be said. -/
theorem Holds.ofWoken (h : A.Holds s) {c : γ} (hc : A.woken c s.data) (hdata : s'.data = s.data)
    (hholder : s'.holder = s.holder) (hfibers : s'.fibers = s.fibers)
    (hothers : ∀ c', c' ≠ c → s'.woken c' = s.woken c') : A.Holds s' where
  data := hdata ▸ h.data
  entering f i hf := by
    rw [hdata]
    exact h.entering f i (hfibers ▸ hf)
  waiting f c i hf := by
    rw [hdata]
    exact h.waiting f c i (hfibers ▸ hf)
  woken c' hne := by
    rw [hdata]
    by_cases hcc : c' = c
    · rwa [hcc]
    · exact h.woken c' (hothers c' hcc ▸ hne)
  holder f i hf := by
    rw [hdata]
    exact h.holder f i (hholder ▸ hf)

omit [DecidableEq γ] in
/-- Those who are not inside are other fibers than the one with the lock. -/
theorem Holds.update (h : A.Holds s) (hsound : Sound s) (hA : A.Valid M Allowed) {f : Nat} {i i' : ι} {d : δ}
    (hholder : s.holder = some (f, i)) (hcode : M.code i s.data = .update d i') :
    A.Holds { s with data := d, holder := some (f, i') } := by
  have hi := h.holder f i hholder
  obtain ⟨hdata, hlabel⟩ := hA.update h.data hi hcode
  have hinside := (hsound.inside f).2 ⟨i, hholder⟩
  have hne : ∀ g, s.fibers g ≠ .inside → g ≠ f := by
    rintro g hg rfl
    exact hg hinside
  constructor
  case data => exact hdata
  case entering =>
    intro g j hg
    have hout : s.fibers g ≠ .inside := by
      rw [show s.fibers g = .entering j from hg]
      simp
    exact (hA.others hi hcode (hne g hout)).1 j (h.entering g j hg)
  case waiting =>
    intro g c j hg
    have hout : s.fibers g ≠ .inside := by
      rw [show s.fibers g = .waiting c j from hg]
      simp
    exact (hA.others hi hcode (hne g hout)).2 c j (h.waiting g c j hg)
  case woken => exact fun c hc => hA.stable hi hcode c (h.woken c hc)
  case holder =>
    rintro g j hg
    cases hg
    exact hlabel

/-- A step by a fiber with the lock. -/
theorem Holds.perform (h : A.Holds s) (hsound : Sound s) (hA : A.Valid M Allowed) {f : Nat} {i : ι}
    (hholder : s.holder = some (f, i)) : A.Holds (M.perform s f i) := by
  have hi := h.holder f i hholder
  cases hcode : M.code i s.data with
  | update d i' =>
    simp only [Monitor.perform, hcode]
    exact h.update hsound hA hholder hcode
  | wait c i' =>
    have hphase : A.Holds (s.setPhase f (.waiting c i')) := by
      apply h.setPhase f
      · intro j hj
        cases hj
      · intro c' j hj
        cases hj
        exact hA.wait hi hcode
    simp only [Monitor.perform, hcode]
    refine { hphase with holder := ?_ }
    intro g j hg
    cases hg
  | notify c i' =>
    obtain ⟨hlabel, hwoken⟩ := hA.notify hi hcode
    simp only [Monitor.perform, hcode]
    exact (h.goto hlabel).ofWoken hwoken (State.wake_data _ _) (State.wake_holder _ _) (State.wake_fibers _ _)
      fun c' hne => State.wake_woken_of_ne hne
  | notifyAll c i' =>
    obtain ⟨hlabel, hwoken⟩ := hA.notifyAll hi hcode
    simp only [Monitor.perform, hcode]
    exact (h.goto hlabel).ofWoken hwoken rfl rfl rfl fun c' hne => Function.update_of_ne hne _ _
  | unlock =>
    have hphase : A.Holds (s.setPhase f .outside) :=
      h.setPhase f (fun _ hphase => by cases hphase) (fun _ _ hphase => by cases hphase)
    simp only [Monitor.perform, hcode]
    refine { hphase with holder := ?_ }
    intro g j hg
    cases hg

theorem Holds.step (h : A.Holds s) (hsound : Sound s) (hA : A.Valid M Allowed) {e : Event ι} (ha : Allowed s e)
    (hstep : M.machine.step s e = some s') : A.Holds s' := by
  cases e with
  | call f i =>
    obtain ⟨-, hi, rfl⟩ := step_call hstep
    apply h.setPhase f
    · intro j hj
      cases hj
      exact hA.call h ha hi
    · intro c j hj
      cases hj
  | acquire f =>
    rcases (step_acquire hstep).2 with ⟨i, hf, rfl⟩ | ⟨c, i, hf, hwoken, rfl⟩
    · exact h.take (hA.enter h.data (h.entering f i hf))
    · have hwithout : A.Holds { s with woken := Function.update s.woken c ((s.woken c).erase f) } := by
        refine { h with woken := ?_ }
        intro c' hc'
        by_cases hcc : c' = c
        · subst hcc
          exact h.woken c' (List.ne_nil_of_mem hwoken)
        · have hsame : Function.update s.woken c ((s.woken c).erase f) c' = s.woken c' := Function.update_of_ne hcc _ _
          exact h.woken c' (hsame ▸ hc')
      exact hwithout.take (hA.resume h.data (h.waiting f c i hf) (h.woken c (List.ne_nil_of_mem hwoken)))
  | run =>
    obtain ⟨f, i, hholder, rfl⟩ := step_run hstep
    exact h.perform hsound hA hholder

/-- What the assertions say is true in every state of a run. -/
theorem Valid.of_reaches (hA : A.Valid M Allowed) (h : M.machine.Reaches Allowed M.machine.start s) : A.Holds s := by
  refine h.invariant_along (fun t e t' hreach ht ha hstep => ?_) ?_
  · exact ht.step (Sound.of_reaches (hreach.mono fun _ _ _ => trivial)) hA ha hstep
  · constructor
    case data => exact hA.start
    case entering =>
      intro f i hf
      cases hf
    case waiting =>
      intro f c i hf
      cases hf
    case woken => exact fun c hc => absurd rfl hc
    case holder =>
      intro f i hf
      cases hf

end Assertions

/-! ### What holds of the data -/

/-- `I` holds of the data, and `J` where a fiber with the lock is; calls begin and waits end at labels in `R`. -/
structure Keeps (M : Monitor δ ι γ) (I : δ → Prop) (R : ι → Prop) (J : ι → δ → Prop) : Prop where
  start : I M.start
  entry : ∀ {i}, M.entry i = true → R i
  take : ∀ {i d}, R i → I d → J i d
  update : ∀ {i d d' i'}, I d → J i d → M.code i d = .update d' i' → I d' ∧ J i' d'
  wait : ∀ {i d c i'}, J i d → M.code i d = .wait c i' → R i'
  notify : ∀ {i d c i'}, J i d → M.code i d = .notify c i' → J i' d
  notifyAll : ∀ {i d c i'}, J i d → M.code i d = .notifyAll c i' → J i' d

structure Kept (I : δ → Prop) (R : ι → Prop) (J : ι → δ → Prop) (s : State δ ι γ) : Prop where
  data : I s.data
  entering : ∀ f i, s.fibers f = .entering i → R i
  waiting : ∀ f c i, s.fibers f = .waiting c i → R i
  holder : ∀ f i, s.holder = some (f, i) → J i s.data

section

variable {I : δ → Prop} {R : ι → Prop} {J : ι → δ → Prop}

omit [DecidableEq γ] in
/-- What is said of the data alone. -/
theorem Keeps.valid (hM : M.Keeps I R J) :
    Assertions.Valid ⟨I, fun _ i _ => R i, fun _ _ i _ => R i, fun _ _ => True, fun _ i d => J i d⟩ M Machine.any where
  start := hM.start
  call _ _ hi := hM.entry hi
  enter hd hi := hM.take hi hd
  resume hd hi _ := hM.take hi hd
  update hd hi hcode := hM.update hd hi hcode
  others _ _ _ := ⟨fun _ hj => hj, fun _ _ hj => hj⟩
  stable _ _ _ _ := trivial
  wait hi hcode := hM.wait hi hcode
  notify hi hcode := ⟨hM.notify hi hcode, trivial⟩
  notifyAll hi hcode := ⟨hM.notifyAll hi hcode, trivial⟩

theorem Keeps.of_reaches (hM : M.Keeps I R J) (h : M.machine.Reaches Machine.any M.machine.start s) :
    Kept I R J s := by
  have hholds := hM.valid.of_reaches h
  exact ⟨hholds.data, hholds.entering, hholds.waiting, hholds.holder⟩

omit [DecidableEq γ] in
/-- Nothing is said. -/
theorem Keeps.true : M.Keeps (fun _ => True) (fun _ => True) (fun _ _ => True) :=
  ⟨trivial, fun _ => trivial, fun _ _ => trivial, fun _ _ _ => ⟨trivial, trivial⟩, fun _ _ => trivial,
    fun _ _ => trivial, fun _ _ => trivial⟩

/-! ### No notification is lost -/

/-- `avail` counts what the fibers that wait for `c` wait for.  At each label a fiber with the lock has a debt: a fiber
that has been woken takes one, and a fiber that adds one sends a notification. -/
structure Counts (M : Monitor δ ι γ) (J : ι → δ → Prop) (c : γ) (avail : δ → Nat) (debt : ι → Nat) : Prop where
  update : ∀ {i d d' i'}, J i d → M.code i d = .update d' i' → ∀ w, avail d ≤ w + debt i → avail d' ≤ w + debt i'
  wait : ∀ {i d i'}, J i d → M.code i d = .wait c i' → avail d = 0 ∧ 1 ≤ debt i'
  waitOther : ∀ {i d c' i'}, J i d → c' ≠ c → M.code i d = .wait c' i' → debt i = 0
  notify : ∀ {i d i'}, J i d → M.code i d = .notify c i' → debt i ≤ debt i' + 1
  notifyOther : ∀ {i d c' i'}, J i d → c' ≠ c → M.code i d = .notify c' i' → debt i ≤ debt i'
  notifyAllOther : ∀ {i d c' i'}, J i d → c' ≠ c → M.code i d = .notifyAll c' i' → debt i ≤ debt i'
  unlock : ∀ {i d}, J i d → M.code i d = .unlock → debt i = 0

/-- What the fiber with the lock owes. -/
def State.owed (debt : ι → Nat) (s : State δ ι γ) : Nat := s.holder.elim 0 fun holder => debt holder.2

structure Counted (c : γ) (avail : δ → Nat) (debt : ι → Nat) (s : State δ ι γ) : Prop where
  covered : s.queue c ≠ [] → avail s.data ≤ (s.woken c).length + s.owed debt
  resumes : ∀ f i, s.fibers f = .waiting c i → 1 ≤ debt i

variable {c : γ} {avail : δ → Nat} {debt : ι → Nat}

omit [DecidableEq γ] in
theorem State.owed_of_holder {f : Nat} {i : ι} (hholder : s.holder = some (f, i)) : s.owed debt = debt i := by
  rw [owed, hholder]
  rfl

omit [DecidableEq γ] in
theorem State.owed_of_free (hfree : s.holder = none) : s.owed debt = 0 := by
  rw [owed, hfree]
  rfl

omit [DecidableEq γ] in
/-- A fiber comes to a place where it waits for nothing. -/
private theorem resumes_setPhase {f : Nat} {phase : Phase ι γ}
    (h : ∀ g i, s.fibers g = .waiting c i → 1 ≤ debt i) (hphase : ∀ i, phase = .waiting c i → 1 ≤ debt i) :
    ∀ g i, (s.setPhase f phase).fibers g = .waiting c i → 1 ≤ debt i :=
  (Function.forall_update_iff s.fibers fun _ phase => ∀ i, phase = .waiting c i → 1 ≤ debt i).2 ⟨hphase, fun g _ => h g⟩

/-- One fiber less is on its way, and it is the one with the lock now. -/
theorem Counted.resume (h : Counted c avail debt s) {f : Nat} {c' : γ} {i : ι} (hfree : s.holder = none)
    (hf : s.fibers f = .waiting c' i) (hwoken : f ∈ s.woken c') :
    Counted c avail debt ({ s with woken := Function.update s.woken c' ((s.woken c').erase f) }.take f i) := by
  refine ⟨fun hqueue => ?_, resumes_setPhase h.resumes (fun _ hphase => by cases hphase)⟩
  have hcovered := h.covered hqueue
  rw [State.owed_of_free hfree] at hcovered
  show avail s.data ≤ (Function.update s.woken c' ((s.woken c').erase f) c).length + debt i
  by_cases hc : c' = c
  · subst hc
    have hdebt := h.resumes f i hf
    have hlength := List.length_erase_of_mem hwoken
    have hpos := List.length_pos_of_mem hwoken
    rw [Function.update_self]
    omega
  · rw [Function.update_of_ne (Ne.symm hc)]
    omega

theorem Counted.park (h : Counted c avail debt s) (hM : M.Counts J c avail debt) {f : Nat} {i i' : ι} {c' : γ}
    (hholder : s.holder = some (f, i)) (hJ : J i s.data) (hcode : M.code i s.data = .wait c' i') :
    Counted c avail debt (s.park f c' i') := by
  by_cases hc : c' = c
  · -- there is nothing that the fiber could have
    subst hc
    obtain ⟨hnone, hdebt⟩ := hM.wait hJ hcode
    constructor
    case covered =>
      intro _
      show avail s.data ≤ _
      rw [hnone]
      exact Nat.zero_le _
    case resumes =>
      apply resumes_setPhase h.resumes
      intro j hj
      cases hj
      exact hdebt
  · have hzero := hM.waitOther hJ hc hcode
    constructor
    case covered =>
      intro hqueue
      have hsame : (s.park f c' i').queue c = s.queue c := Function.update_of_ne (Ne.symm hc) _ _
      rw [hsame] at hqueue
      have hcovered := h.covered hqueue
      rw [State.owed_of_holder hholder, hzero] at hcovered
      exact hcovered
    case resumes =>
      apply resumes_setPhase h.resumes
      intro j hj
      cases hj
      exact absurd rfl hc

theorem Counted.notify (h : Counted c avail debt s) (hM : M.Counts J c avail debt) {f : Nat} {i i' : ι} {c' : γ}
    (hholder : s.holder = some (f, i)) (hJ : J i s.data) (hcode : M.code i s.data = .notify c' i') :
    Counted c avail debt ((s.goto f i').wake c') := by
  have howed : ((s.goto f i').wake c').owed debt = debt i' :=
    State.owed_of_holder (s := (s.goto f i').wake c') (State.wake_holder _ _)
  refine ⟨fun hqueue => ?_, by simpa using h.resumes⟩
  rw [howed, State.wake_data]
  show avail s.data ≤ _
  by_cases hc : c' = c
  · subst hc
    obtain ⟨hold, hlength⟩ := State.length_woken_wake hqueue
    have hcovered := h.covered hold
    have hdebt := hM.notify hJ hcode
    rw [State.owed_of_holder hholder] at hcovered
    rw [hlength]
    show avail s.data ≤ (s.woken c').length + 1 + debt i'
    omega
  · rw [State.wake_queue_of_ne (Ne.symm hc)] at hqueue
    have hcovered := h.covered hqueue
    have hdebt := hM.notifyOther hJ hc hcode
    rw [State.owed_of_holder hholder] at hcovered
    rw [State.wake_woken_of_ne (Ne.symm hc)]
    exact Nat.le_trans hcovered (Nat.add_le_add_left hdebt _)

theorem Counted.notifyAll (h : Counted c avail debt s) (hM : M.Counts J c avail debt) {f : Nat} {i i' : ι} {c' : γ}
    (hholder : s.holder = some (f, i)) (hJ : J i s.data) (hcode : M.code i s.data = .notifyAll c' i') :
    Counted c avail debt ((s.goto f i').wakeAll c') := by
  refine ⟨fun hqueue => ?_, h.resumes⟩
  by_cases hc : c' = c
  · subst hc
    simp [State.wakeAll] at hqueue
  · have hsame : ((s.goto f i').wakeAll c').queue c = s.queue c := Function.update_of_ne (Ne.symm hc) _ _
    have hwoken : ((s.goto f i').wakeAll c').woken c = s.woken c := Function.update_of_ne (Ne.symm hc) _ _
    rw [hsame] at hqueue
    have hcovered := h.covered hqueue
    have hdebt := hM.notifyAllOther hJ hc hcode
    rw [State.owed_of_holder hholder] at hcovered
    rw [hwoken]
    exact Nat.le_trans hcovered (Nat.add_le_add_left hdebt _)

theorem Counted.step (h : Counted c avail debt s) (hM : M.Counts J c avail debt)
    (hJ : ∀ f i, s.holder = some (f, i) → J i s.data) (hstep : M.Step s s') : Counted c avail debt s' := by
  cases hstep with
  | call hf hi => exact ⟨h.covered, resumes_setPhase h.resumes (fun _ hphase => by cases hphase)⟩
  | @enter f i hfree hf =>
    refine ⟨fun hqueue => ?_, resumes_setPhase h.resumes (fun _ hphase => by cases hphase)⟩
    have hcovered := h.covered hqueue
    rw [State.owed_of_free hfree] at hcovered
    exact Nat.le_trans hcovered (Nat.le_add_right _ _)
  | resume hfree hf hwoken => exact h.resume hfree hf hwoken
  | @update f i d i' hholder hcode =>
    refine ⟨fun hqueue => ?_, h.resumes⟩
    have hcovered := h.covered hqueue
    rw [State.owed_of_holder hholder] at hcovered
    exact hM.update (hJ f i hholder) hcode _ hcovered
  | @wait f i c' i' hholder hcode => exact h.park hM hholder (hJ f i hholder) hcode
  | @notify f i c' i' hholder hcode => exact h.notify hM hholder (hJ f i hholder) hcode
  | @notifyAll f i c' i' hholder hcode => exact h.notifyAll hM hholder (hJ f i hholder) hcode
  | @unlock f i hholder hcode =>
    refine ⟨fun hqueue => ?_, resumes_setPhase h.resumes (fun _ hphase => by cases hphase)⟩
    have hcovered := h.covered hqueue
    rw [State.owed_of_holder hholder, hM.unlock (hJ f i hholder) hcode] at hcovered
    exact hcovered

theorem Counts.of_reaches (hM : M.Counts J c avail debt) (hkeeps : M.Keeps I R J)
    (h : M.machine.Reaches Machine.any M.machine.start s) : Counted c avail debt s := by
  refine h.invariant_along (fun t e t' hreach ht _ hstep => ?_) ?_
  · exact ht.step hM (hkeeps.of_reaches hreach).holder (Step.of_step hstep)
  · exact ⟨fun hqueue => absurd rfl hqueue, fun f i hf => by cases hf⟩

omit [DecidableEq γ] in
/-- While the lock is free, as many fibers are on their way as there is something to wait for, or nobody waits. -/
theorem Counted.avail_le (h : Counted c avail debt s) (hfree : s.holder = none) (hqueue : s.queue c ≠ []) :
    avail s.data ≤ (s.woken c).length := by
  have hcovered := h.covered hqueue
  rwa [State.owed_of_free hfree] at hcovered

/-! ### Nobody waits any more -/

/-- Once `done` holds of the data nobody begins to wait for `c`, and at the labels in `owes` those who wait have yet to
be woken. -/
structure Flushes (M : Monitor δ ι γ) (J : ι → δ → Prop) (c : γ) (done : δ → Prop) (owes : ι → Prop) : Prop where
  update : ∀ {i d d' i'}, J i d → M.code i d = .update d' i' → done d' → owes i' ∨ done d ∧ ¬ owes i
  wait : ∀ {i d i'}, J i d → M.code i d = .wait c i' → ¬ done d
  waitOther : ∀ {i d c' i'}, J i d → c' ≠ c → M.code i d = .wait c' i' → ¬ owes i
  notify : ∀ {i d c' i'}, J i d → M.code i d = .notify c' i' → owes i → owes i'
  notifyAllOther : ∀ {i d c' i'}, J i d → c' ≠ c → M.code i d = .notifyAll c' i' → owes i → owes i'
  unlock : ∀ {i d}, J i d → M.code i d = .unlock → ¬ owes i

/-- Those who wait have yet to be woken by the fiber with the lock. -/
def Flushed (c : γ) (done : δ → Prop) (owes : ι → Prop) (s : State δ ι γ) : Prop :=
  done s.data → s.queue c = [] ∨ ∃ f i, s.holder = some (f, i) ∧ owes i

variable {done : δ → Prop} {owes : ι → Prop}

omit [DecidableEq γ] in
theorem Flushed.queue_eq_nil (h : Flushed c done owes s) (hdone : done s.data)
    (hnot : ∀ f i, s.holder = some (f, i) → ¬ owes i) : s.queue c = [] := by
  rcases h hdone with hnil | ⟨f, i, hholder, howes⟩
  · exact hnil
  · exact absurd howes (hnot f i hholder)

omit [DecidableEq γ] in
theorem Flushed.queue_eq_nil_of_free (h : Flushed c done owes s) (hdone : done s.data) (hfree : s.holder = none) :
    s.queue c = [] := by
  refine h.queue_eq_nil hdone fun f i hf => ?_
  rw [hfree] at hf
  cases hf

omit [DecidableEq γ] in
theorem Flushed.of_holder (h : Flushed c done owes s) (hdone : done s.data) {f : Nat} {i : ι}
    (hholder : s.holder = some (f, i)) : s.queue c = [] ∨ owes i := by
  rcases h hdone with hnil | ⟨g, j, hg, howes⟩
  · exact .inl hnil
  · rw [hholder] at hg
    cases hg
    exact .inr howes

theorem Flushed.notify (h : Flushed c done owes s) (hM : M.Flushes J c done owes) {f : Nat} {i i' : ι} {c' : γ}
    (hholder : s.holder = some (f, i)) (hJ : J i s.data) (hcode : M.code i s.data = .notify c' i') :
    Flushed c done owes ((s.goto f i').wake c') := by
  intro hdone
  have hold : done s.data := by simpa using hdone
  rcases h.of_holder hold hholder with hnil | howes
  · refine .inl ?_
    by_cases hc : c' = c
    · subst hc
      by_contra hqueue
      exact (State.length_woken_wake hqueue).1 hnil
    · rw [State.wake_queue_of_ne (Ne.symm hc)]
      exact hnil
  · exact .inr ⟨f, i', State.wake_holder _ _, hM.notify hJ hcode howes⟩

theorem Flushed.step (h : Flushed c done owes s) (hM : M.Flushes J c done owes)
    (hJ : ∀ f i, s.holder = some (f, i) → J i s.data) (hstep : M.Step s s') : Flushed c done owes s' := by
  cases hstep with
  | call hf hi => exact h
  | enter hfree hf => exact fun hdone => .inl (h.queue_eq_nil_of_free hdone hfree)
  | resume hfree hf hwoken => exact fun hdone => .inl (h.queue_eq_nil_of_free hdone hfree)
  | @update f i d i' hholder hcode =>
    intro hdone
    rcases hM.update (hJ f i hholder) hcode hdone with howes | ⟨hold, hnot⟩
    · exact .inr ⟨f, i', rfl, howes⟩
    · exact .inl ((h.of_holder hold hholder).resolve_right hnot)
  | @wait f i c' i' hholder hcode =>
    intro hdone
    by_cases hc : c' = c
    · subst hc
      exact absurd hdone (hM.wait (hJ f i hholder) hcode)
    · have hnil : s.queue c = [] :=
        (h.of_holder hdone hholder).resolve_right (hM.waitOther (hJ f i hholder) hc hcode)
      exact .inl ((Function.update_of_ne (Ne.symm hc) _ _).trans hnil)
  | @notify f i c' i' hholder hcode => exact h.notify hM hholder (hJ f i hholder) hcode
  | @notifyAll f i c' i' hholder hcode =>
    intro hdone
    by_cases hc : c' = c
    · subst hc
      exact .inl (Function.update_self _ _ _)
    · rcases h.of_holder hdone hholder with hnil | howes
      · exact .inl ((Function.update_of_ne (Ne.symm hc) _ _).trans hnil)
      · exact .inr ⟨f, i', rfl, hM.notifyAllOther (hJ f i hholder) hc hcode howes⟩
  | @unlock f i hholder hcode =>
    intro hdone
    exact .inl ((h.of_holder hdone hholder).resolve_right (hM.unlock (hJ f i hholder) hcode))

theorem Flushes.of_reaches (hM : M.Flushes J c done owes) (hkeeps : M.Keeps I R J)
    (h : M.machine.Reaches Machine.any M.machine.start s) : Flushed c done owes s := by
  refine h.invariant_along (fun t e t' hreach ht _ hstep => ?_) ?_
  · exact ht.step hM (hkeeps.of_reaches hreach).holder (Step.of_step hstep)
  · exact fun _ => .inl rfl

end

end Monitor

end AcidCompute

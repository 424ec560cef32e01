import AcidCompute.Sync.CoCountDownLatch
import AcidCompute.Sync.CoMonitor

/-!
# Runs of `CoMutex` and `CoCond` as runs of a monitor

Whatever the mutex and the conditions do step by step, the functions run as those of the monitor, in which a fiber takes
the lock, queues up and is woken at once: each step is one of the monitor or one that it does not see
(`CoMonitor.follows_step`).  So what holds in all runs of the monitor holds of the functions as they are
(`CoMonitor.refines_of_reaches`).
-/

namespace AcidCompute

open Monitor

namespace CoMonitor

variable {δ ι γ : Type} [DecidableEq γ] {setting : CoMutex.Setting Nat} {M : Monitor δ ι γ} {t t' : State δ ι γ}

/-! ### The monitor -/

/-- What the monitor shows of a fiber. -/
def Place.phase : Place ι γ → Phase ι γ
  | .outside | .leaving => .outside
  | .entering i => .entering i
  | .inside _ | .notifying _ _ => .inside
  | .queued c i | .unlocking c i | .waiting c i | .popped c i | .scheduled c i | .resuming c i => .waiting c i

/-- Where the fiber with the mutex is in the program. -/
def Place.running : Place ι γ → Option ι
  | .inside i | .notifying _ i => some i
  | _ => none

def Place.view (place : Place ι γ) : Phase ι γ × Option ι × Option γ := (place.phase, place.running, place.wokenFor)

/-- The state of the monitor that the steps have led to. -/
structure Refines (t : State δ ι γ) (s : Monitor.State δ ι γ) : Prop where
  data : s.data = t.data
  queue : s.queue = t.queue
  fibers : ∀ f, s.fibers f = (t.places f).phase
  holder : ∀ f i, s.holder = some (f, i) ↔ (t.places f).running = some i
  woken : ∀ f c, f ∈ s.woken c ↔ (t.places f).wokenFor = some c

variable {s s' : Monitor.State δ ι γ}

omit [DecidableEq γ] in
/-- The monitor does not see the step. -/
theorem Refines.stutter (h : Refines t s) (hdata : t'.data = t.data) (hqueue : t'.queue = t.queue)
    (hview : ∀ f, (t'.places f).view = (t.places f).view) : Refines t' s where
  data := h.data.trans hdata.symm
  queue := h.queue.trans hqueue.symm
  fibers f := (h.fibers f).trans (congrArg Prod.fst (hview f)).symm
  holder f i := by
    have hrunning := congrArg (fun v => v.2.1) (hview f)
    rw [h.holder, show (t'.places f).running = (t.places f).running from hrunning]
  woken f c := by
    have hwoken := congrArg (fun v => v.2.2) (hview f)
    rw [h.woken, show (t'.places f).wokenFor = (t.places f).wokenFor from hwoken]

theorem Refines.go (h : Refines t s) {f : Nat} {place : Place ι γ} {e : CoMutex.Event Nat}
    (hview : (arrive ((CoMutex.next setting t.mutex e).callers f) place).view = (t.places f).view) :
    Refines (t.go setting f place e) s := h.stutter rfl rfl fun g => apply_update Place.view hview g

omit [DecidableEq γ] in
theorem Refines.holder_eq_none (h : Refines t s) (hnone : ∀ f i, (t.places f).running ≠ some i) : s.holder = none := by
  cases hholder : s.holder with
  | none => rfl
  | some holder => exact absurd ((h.holder holder.1 holder.2).1 hholder) (hnone _ _)

omit [DecidableEq γ] in
/-- Only one fiber runs. -/
theorem Refines.running_unique (h : Refines t s) {f g : Nat} {i j : ι} (hf : (t.places f).running = some i)
    (hg : (t.places g).running = some j) : g = f := by
  have hholder := ((h.holder f i).2 hf).symm.trans ((h.holder g j).2 hg)
  rw [Option.some.injEq, Prod.mk.injEq] at hholder
  exact hholder.1.symm

omit [DecidableEq γ] in
/-- Nobody else is in `notify` while a fiber runs. -/
theorem Refines.notifies_eq_none (h : Refines t s) {f g : Nat} {i : ι} (hf : (t.places f).running = some i)
    (hg : g ≠ f) : (t.places g).notifies = none := by
  cases hplace : t.places g with
  | notifying x j => exact absurd (h.running_unique hf (j := j) (by rw [hplace]; rfl)) hg
  | _ => rfl

omit [DecidableEq γ] in
/-- A fiber goes to another place, and the monitor sees it there. -/
theorem Refines.move (h : Refines t s) {f : Nat} {place : Place ι γ}
    (hplaces : t'.places = Function.update t.places f place) (hdata : s'.data = t'.data) (hqueue : s'.queue = t'.queue)
    (hfibers : s'.fibers = Function.update s.fibers f place.phase)
    (hholder : ∀ g j, s'.holder = some (g, j) ↔ (t'.places g).running = some j)
    (hwoken : ∀ g c, g ∈ s'.woken c ↔ (Function.update t.places f place g).wokenFor = some c) : Refines t' s' where
  data := hdata
  queue := hqueue
  fibers g := by
    rw [hfibers, hplaces]
    by_cases hg : g = f
    · subst hg
      rw [Function.update_self, Function.update_self]
    · rw [Function.update_of_ne hg, Function.update_of_ne hg]
      exact h.fibers g
  holder := hholder
  woken g c := by
    rw [hplaces]
    exact hwoken g c

omit [DecidableEq γ] in
/-- The fiber that runs goes to another place. -/
theorem Refines.holder_update (h : Refines t s) {f : Nat} {i : ι} (hf : (t.places f).running = some i)
    {place : Place ι γ} {holder : Option (Nat × ι)} (hplace : holder = place.running.map fun j => (f, j)) (g : Nat)
    (j : ι) : holder = some (g, j) ↔ (Function.update t.places f place g).running = some j := by
  rw [hplace]
  by_cases hg : g = f
  · subst hg
    rw [Function.update_self]
    cases place.running <;> simp
  · rw [Function.update_of_ne hg]
    refine iff_of_false ?_ fun hrunning => hg (h.running_unique hf hrunning)
    cases place.running with
    | none => simp
    | some k => simp [Ne.symm hg]

omit [DecidableEq γ] in
/-- The fiber that runs takes a step that wakes nobody. -/
theorem Refines.run (h : Refines t s) {f : Nat} {i : ι} {place : Place ι γ} (hf : t.places f = .inside i)
    (hplaces : t'.places = Function.update t.places f place) (hnone : place.wokenFor = none)
    (hdata : s'.data = t'.data) (hqueue : s'.queue = t'.queue)
    (hfibers : s'.fibers = Function.update s.fibers f place.phase)
    (hholder : s'.holder = place.running.map fun j => (f, j)) (hwoken : s'.woken = s.woken) : Refines t' s' := by
  have hrunning : (t.places f).running = some i := by
    rw [hf]
    rfl
  refine h.move hplaces hdata hqueue hfibers (fun g j => ?_) fun g c => ?_
  · rw [hplaces]
    exact h.holder_update hrunning hholder g j
  · have hold : (t.places f).wokenFor = none := by
      rw [hf]
      rfl
    rw [hwoken, apply_update Place.wokenFor (hnone.trans hold.symm)]
    exact h.woken g c

omit [DecidableEq γ] in
/-- A fiber that is in the queue of a condition waits, as long as nobody is in a section of `wait`. -/
theorem waiting_of_queue (hinv : Inv setting t) (h : Refines t s) (hsound : Sound s) {c : γ} (hguard : t.guard c = none)
    {g : Nat} (hg : g ∈ t.queue c) : ∃ i, t.places g = .waiting c i := by
  rw [← h.queue] at hg
  obtain ⟨i, hphase⟩ := (hsound.waiting g c).1 (List.mem_append_left _ hg)
  have hnot : (t.places g).wokenFor ≠ some c := by
    rw [Ne, ← h.woken]
    intro hwoken
    exact (List.nodup_append.1 (hsound.nodup c)).2.2 g hg g hwoken rfl
  have hsection : (t.places g).waitSection ≠ some c := by
    rw [Ne, ← hinv.guards, hguard]
    simp
  rw [h.fibers] at hphase
  cases hplace : t.places g with
  | waiting c' i' =>
    rw [hplace] at hphase
    cases hphase
    exact ⟨i, rfl⟩
  | queued c' i' =>
    rw [hplace] at hphase hsection
    cases hphase
    exact absurd rfl hsection
  | unlocking c' i' =>
    rw [hplace] at hphase hsection
    cases hphase
    exact absurd rfl hsection
  | popped c' i' =>
    rw [hplace] at hphase hnot
    cases hphase
    exact absurd rfl hnot
  | scheduled c' i' =>
    rw [hplace] at hphase hnot
    cases hphase
    exact absurd rfl hnot
  | resuming c' i' =>
    rw [hplace] at hphase hnot
    cases hphase
    exact absurd rfl hnot
  | _ =>
    rw [hplace] at hphase
    cases hphase

/-! ### Steps -/

/-- The monitor follows. -/
def Follows (M : Monitor δ ι γ) (s : Monitor.State δ ι γ) (t' : State δ ι γ) : Prop :=
  ∃ s', M.machine.Reaches Machine.any s s' ∧ Refines t' s'

theorem Refines.follows (h : Refines t' s) : Follows M s t' := ⟨s, .refl, h⟩

omit [DecidableEq γ] in
/-- A fiber that is away from the mutex does not find its own id. -/
theorem lock_next (hinv : Inv setting t) {f : Nat} (hkind : (t.places f).kind = .away) :
    CoMutex.Enabled t.mutex (.lock f) ∧ CoMutex.Outermost setting t.mutex (.lock f) ∧
      (CoMutex.next setting t.mutex (.lock f)).callers f = ⟨.trying, 0, true⟩ := by
  have hcaller : t.mutex.callers f = ⟨.idle, 0, true⟩ := by
    have hfits := hinv.fits f
    rwa [hkind] at hfits
  have hid : CoMutex.getFiberId setting t.mutex f = setting.ids f := by simp [CoMutex.getFiberId, hcaller]
  have hne : setting.ids f ≠ t.mutex.fiberId := by
    intro heq
    have hdepth := hinv.named f heq.symm
    rw [hcaller] at hdepth
    cases hdepth
  refine ⟨by simp [CoMutex.Enabled, hcaller], fun heq => absurd (hid.symm.trans heq) hne, ?_⟩
  simp [CoMutex.next, hid, hne, CoMutex.State.setPhase, CoMutex.State.setCaller, hcaller]

omit [DecidableEq γ] in
/-- A fiber with the mutex gives it away. -/
theorem unlock_next (hinv : Inv setting t) {f : Nat} (hkind : (t.places f).kind = .holding) :
    CoMutex.Enabled t.mutex (.unlock f) ∧ CoMutex.Outermost setting t.mutex (.unlock f) ∧
      (CoMutex.next setting t.mutex (.unlock f)).callers f = ⟨.releasing t.mutex.waitQueue.head?, 0, true⟩ := by
  have hcaller : t.mutex.callers f = ⟨.idle, 1, true⟩ := by
    have hfits := hinv.fits f
    rwa [hkind] at hfits
  refine ⟨by simp [CoMutex.Enabled, hcaller], by simp [CoMutex.Outermost, hcaller], ?_⟩
  simp [CoMutex.next, CoMutex.State.setCaller, hcaller]

theorem follows_call (hset : Fibers setting) (hinv : Inv setting t) (h : Refines t s) {f : Nat} {i : ι}
    (hf : t.places f = .outside) (hi : M.entry i = true) :
    Inv setting (t.go setting f (.entering i) (.lock f)) ∧ Follows M s (t.go setting f (.entering i) (.lock f)) := by
  obtain ⟨henabled, houtermost, hcaller⟩ := lock_next hinv (f := f) (by rw [hf]; rfl)
  have harrive : arrive ((CoMutex.next setting t.mutex (.lock f)).callers f) (.entering i : Place ι γ) =
      .entering i := by
    rw [hcaller]
    rfl
  refine ⟨hinv.go hset rfl henabled houtermost ?_ (by rw [hf]; rfl) (by rw [hf]; exact ⟨rfl, rfl⟩) ⟨rfl, rfl⟩, ?_⟩
  · rw [harrive, hcaller]
    exact ⟨rfl, rfl, .inl rfl⟩
  · have hstep : M.machine.step s (.call f i) = some (s.setPhase f (.entering i)) := by
      have hphase : s.fibers f = .outside := by
        rw [h.fibers, hf]
        rfl
      simp [Monitor.machine, Monitor.step, hphase, hi]
    refine ⟨s.setPhase f (.entering i), .single trivial hstep, ?_⟩
    refine h.move (congrArg (Function.update t.places f) harrive) h.data h.queue rfl (fun g j => ?_) fun g c => ?_
    · rw [show (t.go setting f (.entering i) (.lock f)).places = _ from congrArg (Function.update t.places f) harrive,
        apply_update Place.running (by rw [hf]; rfl)]
      exact h.holder g j
    · rw [apply_update Place.wokenFor (by rw [hf]; rfl)]
      exact h.woken g c

theorem follows_resume (hset : Fibers setting) (hinv : Inv setting t) (h : Refines t s) {f : Nat} {c : γ} {i : ι}
    (hf : t.places f = .scheduled c i) :
    Inv setting (t.go setting f (.resuming c i) (.lock f)) ∧
      Follows M s (t.go setting f (.resuming c i) (.lock f)) := by
  obtain ⟨henabled, houtermost, hcaller⟩ := lock_next hinv (f := f) (by rw [hf]; rfl)
  have harrive : arrive ((CoMutex.next setting t.mutex (.lock f)).callers f) (.resuming c i : Place ι γ) =
      .resuming c i := by
    rw [hcaller]
    rfl
  refine ⟨hinv.go hset rfl henabled houtermost ?_ (by rw [hf]; rfl) (by rw [hf]; exact ⟨rfl, rfl⟩) ⟨rfl, rfl⟩, ?_⟩
  · rw [harrive, hcaller]
    exact ⟨rfl, rfl, .inl rfl⟩
  · exact (h.go (by rw [harrive, hf]; rfl)).follows

theorem follows_unlock (hset : Fibers setting) (hinv : Inv setting t) (h : Refines t s) {f : Nat} {c : γ} {i : ι}
    (hf : t.places f = .queued c i) :
    Inv setting (t.go setting f (.unlocking c i) (.unlock f)) ∧
      Follows M s (t.go setting f (.unlocking c i) (.unlock f)) := by
  obtain ⟨henabled, houtermost, hcaller⟩ := unlock_next hinv (f := f) (by rw [hf]; rfl)
  have harrive : arrive ((CoMutex.next setting t.mutex (.unlock f)).callers f) (.unlocking c i : Place ι γ) =
      .unlocking c i := by
    rw [hcaller]
    rfl
  refine ⟨hinv.go hset rfl henabled houtermost ?_ (by rw [hf]; rfl) (by rw [hf]; exact ⟨rfl, rfl⟩) ⟨rfl, rfl⟩, ?_⟩
  · rw [harrive, hcaller]
    exact ⟨rfl, rfl, .inl ⟨_, rfl⟩⟩
  · exact (h.go (by rw [harrive, hf]; rfl)).follows

/-! ### Instructions -/

omit [DecidableEq γ] in
theorem Refines.running (h : Refines t s) {f : Nat} {i : ι} (hf : t.places f = .inside i) :
    s.holder = some (f, i) ∧ s.fibers f = .inside := by
  refine ⟨(h.holder f i).2 (by rw [hf]; rfl), ?_⟩
  rw [h.fibers, hf]
  rfl

theorem step_run_eq {f : Nat} {i : ι} (h : s.holder = some (f, i)) :
    M.machine.step s .run = some (M.perform s f i) := by
  simp [Monitor.machine, Monitor.step, h]

omit [DecidableEq γ] in
theorem fibers_inside {f : Nat} (h : s.fibers f = .inside) : s.fibers = Function.update s.fibers f .inside := by
  rw [← h, Function.update_eq_self]

theorem follows_leave (hset : Fibers setting) (hinv : Inv setting t) (h : Refines t s) {f : Nat} {i : ι}
    (hf : t.places f = .inside i) (hcode : M.code i t.data = .unlock) :
    Inv setting (t.go setting f .leaving (.unlock f)) ∧ Follows M s (t.go setting f .leaving (.unlock f)) := by
  obtain ⟨henabled, houtermost, hcaller⟩ := unlock_next hinv (f := f) (by rw [hf]; rfl)
  have harrive : arrive ((CoMutex.next setting t.mutex (.unlock f)).callers f) (.leaving : Place ι γ) = .leaving := by
    rw [hcaller]
    rfl
  refine ⟨hinv.go hset rfl henabled houtermost ?_ (by rw [hf]; rfl) (by rw [hf]; exact ⟨rfl, rfl⟩) ⟨rfl, rfl⟩, ?_⟩
  · rw [harrive, hcaller]
    exact ⟨rfl, rfl, .inl ⟨_, rfl⟩⟩
  · obtain ⟨hholder, -⟩ := h.running hf
    have hstep : M.machine.step s .run = some (s.leave f) := by
      rw [step_run_eq hholder, Monitor.perform, h.data, hcode]
    exact ⟨s.leave f, .single trivial hstep,
      h.run hf (congrArg (Function.update t.places f) harrive) rfl h.data h.queue rfl rfl rfl⟩

theorem follows_update (hinv : Inv setting t) (h : Refines t s) {f : Nat} {i i' : ι} {d : δ}
    (hf : t.places f = .inside i) (hcode : M.code i t.data = .update d i') :
    Inv setting { t.setPlace f (.inside i') with data := d } ∧
      Follows M s { t.setPlace f (.inside i') with data := d } := by
  constructor
  · refine hinv.inside rfl (apply_update Place.kind (by rw [hf]; rfl)) (fun c g => ?_) ?_
    · show t.guard c = some g ↔ (Function.update t.places f (.inside i') g).waitSection = some c
      rw [apply_update Place.waitSection (by rw [hf]; rfl)]
      exact hinv.guards c g
    · exact popped_update hinv.popped (by rw [hf]; exact ⟨rfl, rfl⟩) ⟨rfl, rfl⟩
  · obtain ⟨hholder, hphase⟩ := h.running hf
    have hstep : M.machine.step s .run = some { s.goto f i' with data := d } := by
      rw [step_run_eq hholder, Monitor.perform, h.data, hcode]
    exact ⟨_, .single trivial hstep, h.run hf rfl rfl rfl h.queue (fibers_inside hphase) rfl rfl⟩

theorem follows_wait (hinv : Inv setting t) (h : Refines t s) {f : Nat} {i i' : ι} {c : γ}
    (hf : t.places f = .inside i) (hcode : M.code i t.data = .wait c i') (hguard : t.guard c = none) :
    Inv setting (t.push f c i') ∧ Follows M s (t.push f c i') := by
  constructor
  · refine hinv.inside rfl (apply_update Place.kind (by rw [hf]; rfl)) (fun c' g => ?_)
      (popped_update hinv.popped (by rw [hf]; exact ⟨rfl, rfl⟩) ⟨rfl, rfl⟩)
    show Function.update t.guard c (some f) c' = some g ↔
      (Function.update t.places f (.queued c i') g).waitSection = some c'
    by_cases hc : c' = c
    · subst hc
      rw [Function.update_self]
      by_cases hg : g = f
      · subst hg
        rw [Function.update_self]
        exact iff_of_true rfl rfl
      · have hnot : ¬(t.places g).waitSection = some c' := by rw [← hinv.guards, hguard]; simp
        rw [Function.update_of_ne hg]
        exact iff_of_false (by simp [Ne.symm hg]) hnot
    · rw [Function.update_of_ne hc, hinv.guards]
      by_cases hg : g = f
      · subst hg
        rw [Function.update_self, hf]
        exact iff_of_false (by simp [Place.waitSection]) (by simp [Place.waitSection, Ne.symm hc])
      · rw [Function.update_of_ne hg]
  · obtain ⟨hholder, hphase⟩ := h.running hf
    have hstep : M.machine.step s .run = some (s.park f c i') := by
      rw [step_run_eq hholder, Monitor.perform, h.data, hcode]
    refine ⟨s.park f c i', .single trivial hstep, h.run hf rfl rfl h.data ?_ rfl rfl rfl⟩
    show Function.update s.queue c (s.queue c ++ [f]) = Function.update t.queue c (t.queue c ++ [f])
    rw [h.queue]

omit [DecidableEq γ] in
/-- Two fibers go to places that are the same in some respect. -/
theorem apply_update_update {α : Type} (φ : Place ι γ → α) {places : Nat → Place ι γ} {f g : Nat}
    {place place' : Place ι γ} (hne : f ≠ g) (hg : φ place = φ (places g)) (hf : φ place' = φ (places f)) (x : Nat) :
    φ (Function.update (Function.update places g place) f place' x) = φ (places x) := by
  rw [apply_update φ (hf.trans (by rw [Function.update_of_ne hne])), apply_update φ hg]

omit [DecidableEq γ] in
theorem exists_of_isPopped {place : Place ι γ} (h : place.isPopped = true) : ∃ c i, place = .popped c i := by
  cases place with
  | popped c i => exact ⟨c, i, rfl⟩
  | _ => cases h

/-- The fiber that is woken has been waiting to be handed to the scheduler. -/
theorem follows_schedule (hinv : Inv setting t) (h : Refines t s) {f g : Nat} {i : ι}
    (hf : t.places f = .notifying g i) :
    Inv setting ((t.setPlace g (handed (t.places g))).setPlace f (.inside i)) ∧
      Follows M s ((t.setPlace g (handed (t.places g))).setPlace f (.inside i)) := by
  obtain ⟨c, j, hg⟩ := exists_of_isPopped ((hinv.popped g).2 ⟨f, by rw [hf]; rfl⟩)
  have hne : f ≠ g := by
    rintro rfl
    rw [hf] at hg
    cases hg
  rw [hg]
  have hrunning : (t.places f).running = some i := by
    rw [hf]
    rfl
  constructor
  · refine hinv.inside rfl (apply_update_update Place.kind hne (by rw [hg]; rfl) (by rw [hf]; rfl)) (fun c' x => ?_)
      fun x => ?_
    · show t.guard c' = some x ↔
        (Function.update (Function.update t.places g (.scheduled c j)) f (.inside i) x).waitSection = some c'
      rw [apply_update_update Place.waitSection hne (by rw [hg]; rfl) (by rw [hf]; rfl)]
      exact hinv.guards c' x
    · have hnone : ∀ x', (Function.update (Function.update t.places g (.scheduled c j)) f (.inside i) x').notifies =
          none := by
        intro x'
        by_cases hx' : x' = f
        · subst hx'
          rw [Function.update_self]
          rfl
        · rw [Function.update_of_ne hx', apply_update Place.notifies (by rw [hg]; rfl)]
          exact h.notifies_eq_none hrunning hx'
      have hpopped : (Function.update (Function.update t.places g (.scheduled c j)) f (.inside i) x).isPopped =
          false := by
        by_cases hxg : x = g
        · subst hxg
          rw [Function.update_of_ne (Ne.symm hne), Function.update_self]
          rfl
        · rw [apply_update Place.isPopped (by rw [Function.update_of_ne hne, hf]; rfl), Function.update_of_ne hxg]
          by_contra hpopped
          obtain ⟨x', hx'⟩ := (hinv.popped x).1 (by simpa using hpopped)
          by_cases hx'f : x' = f
          · rw [hx'f, hf] at hx'
            exact hxg (Option.some.inj hx').symm
          · rw [h.notifies_eq_none hrunning hx'f] at hx'
            cases hx'
      refine iff_of_false (fun hx => ?_) (fun ⟨x', hx'⟩ => ?_)
      · exact Bool.false_ne_true (hpopped.symm.trans hx)
      · exact Option.some_ne_none x (hx'.symm.trans (hnone x'))
  · have hrefines : Refines ((t.setPlace g (.scheduled c j)).setPlace f (.inside i)) s :=
      h.stutter rfl rfl (apply_update_update Place.view hne (by rw [hg]; rfl) (by rw [hf]; rfl))
    exact hrefines.follows

omit [DecidableEq γ] in
/-- Nobody is out of a queue, or about to hand somebody to the scheduler, while another fiber runs. -/
theorem not_notifies (hinv : Inv setting t) (h : Refines t s) {f : Nat} {i : ι} (hf : t.places f = .inside i)
    (x : Nat) :
    (t.places x).notifies = none ∧ (t.places x).isPopped = false := by
  have hnone : ∀ x, (t.places x).notifies = none := by
    intro x
    by_cases hx : x = f
    · rw [hx, hf]
      rfl
    · exact h.notifies_eq_none (i := i) (by rw [hf]; rfl) hx
  refine ⟨hnone x, ?_⟩
  by_contra hpopped
  obtain ⟨g, hg⟩ := (hinv.popped x).1 (by simpa using hpopped)
  rw [hnone g] at hg
  cases hg

/-- The first fiber in a queue is taken out of it. -/
theorem inv_pop (hinv : Inv setting t) (h : Refines t s) {f g : Nat} {i i' j : ι} {c : γ} (hf : t.places f = .inside i)
    (hg : t.places g = .waiting c j) (rest : List Nat) :
    Inv setting { (t.setPlace g (.popped c j)).setPlace f (.notifying g i') with
      queue := Function.update t.queue c rest } := by
  have hne : f ≠ g := by
    rintro rfl
    rw [hf] at hg
    cases hg
  refine hinv.inside rfl (apply_update_update Place.kind hne (by rw [hg]; rfl) (by rw [hf]; rfl)) (fun c' x => ?_)
    fun x => ?_
  · show t.guard c' = some x ↔
      (Function.update (Function.update t.places g (.popped c j)) f (.notifying g i') x).waitSection = some c'
    rw [apply_update_update Place.waitSection hne (by rw [hg]; rfl) (by rw [hf]; rfl)]
    exact hinv.guards c' x
  · show (Function.update (Function.update t.places g (.popped c j)) f (.notifying g i') x).isPopped = true ↔
      ∃ x', (Function.update (Function.update t.places g (.popped c j)) f (.notifying g i') x').notifies = some x
    by_cases hx : x = g
    · subst hx
      refine iff_of_true ?_ ⟨f, by rw [Function.update_self]; rfl⟩
      rw [Function.update_of_ne (Ne.symm hne), Function.update_self]
      rfl
    · have hold := (not_notifies hinv h hf x).2
      refine iff_of_false (fun hpopped => ?_) fun ⟨x', hx'⟩ => ?_
      · rw [apply_update Place.isPopped (by rw [Function.update_of_ne hne, hf]; rfl), Function.update_of_ne hx,
          hold] at hpopped
        cases hpopped
      · by_cases hx'f : x' = f
        · subst hx'f
          rw [Function.update_self] at hx'
          exact hx (Option.some.inj hx').symm
        · rw [Function.update_of_ne hx'f, apply_update Place.notifies (by rw [hg]; rfl),
            (not_notifies hinv h hf x').1] at hx'
          cases hx'

theorem refines_pop (h : Refines t s) {f g : Nat} {i i' j : ι} {c : γ} (hf : t.places f = .inside i)
    (hg : t.places g = .waiting c j) (rest : List Nat) :
    Refines { (t.setPlace g (.popped c j)).setPlace f (.notifying g i') with queue := Function.update t.queue c rest }
      { s.goto f i' with
        queue := Function.update s.queue c rest
        woken := Function.update s.woken c (s.woken c ++ [g]) } := by
  have hne : f ≠ g := by
    rintro rfl
    rw [hf] at hg
    cases hg
  have hnew : ∀ x, (Function.update (Function.update t.places g (.popped c j)) f (.notifying g i') x).phase =
      (t.places x).phase := apply_update_update Place.phase hne (by rw [hg]; rfl) (by rw [hf]; rfl)
  constructor
  case data => exact h.data
  case queue =>
    show Function.update s.queue c rest = Function.update t.queue c rest
    rw [h.queue]
  case fibers => exact fun x => (h.fibers x).trans (hnew x).symm
  case holder =>
    have hrunning : (t.places f).running = some i := by rw [hf]; rfl
    intro x k
    show some (f, i') = some (x, k) ↔ (Function.update (Function.update t.places g (.popped c j)) f
      (.notifying g i') x).running = some k
    rw [Function.update_comm (Ne.symm hne), apply_update Place.running (by
      rw [Function.update_of_ne (Ne.symm hne), hg]; rfl)]
    exact h.holder_update hrunning (by rfl) x k
  case woken =>
    intro x c'
    show x ∈ Function.update s.woken c (s.woken c ++ [g]) c' ↔
      (Function.update (Function.update t.places g (.popped c j)) f (.notifying g i') x).wokenFor = some c'
    rw [apply_update Place.wokenFor (by rw [Function.update_of_ne hne, hf]; rfl)]
    by_cases hx : x = g
    · subst hx
      rw [Function.update_self]
      by_cases hc : c' = c
      · subst hc
        rw [Function.update_self]
        exact iff_of_true (by simp) rfl
      · rw [Function.update_of_ne hc, h.woken, hg]
        exact iff_of_false (by simp [Place.wokenFor]) (by simp [Place.wokenFor, Ne.symm hc])
    · rw [Function.update_of_ne hx, ← h.woken]
      by_cases hc : c' = c
      · subst hc
        rw [Function.update_self]
        simp [hx]
      · rw [Function.update_of_ne hc]

/-- Nobody is in the queue, or the first fiber is taken out of it. -/
theorem follows_notify (hinv : Inv setting t) (h : Refines t s) (hsound : Sound s) {f : Nat} {i i' : ι} {c : γ}
    (hf : t.places f = .inside i) (hcode : M.code i t.data = .notify c i') (hguard : t.guard c = none) :
    Inv setting (t.pop f c i') ∧ Follows M s (t.pop f c i') := by
  obtain ⟨hholder, hphase⟩ := h.running hf
  have hstep : M.machine.step s .run = some ((s.goto f i').wake c) := by
    rw [step_run_eq hholder, Monitor.perform, h.data, hcode]
  cases hqueue : t.queue c with
  | nil =>
    have hpop : t.pop f c i' = t.setPlace f (.inside i') := by simp [State.pop, hqueue]
    have hwake : (s.goto f i').wake c = s.goto f i' := by simp [State.wake, h.queue, hqueue, State.goto]
    rw [hwake] at hstep
    rw [hpop]
    refine ⟨hinv.inside rfl (apply_update Place.kind (by rw [hf]; rfl)) (fun c' g => ?_)
      (popped_update hinv.popped (by rw [hf]; exact ⟨rfl, rfl⟩) ⟨rfl, rfl⟩), ?_⟩
    · show t.guard c' = some g ↔ (Function.update t.places f (.inside i') g).waitSection = some c'
      rw [apply_update Place.waitSection (by rw [hf]; rfl)]
      exact hinv.guards c' g
    · exact ⟨_, .single trivial hstep, h.run hf rfl rfl h.data h.queue (fibers_inside hphase) rfl rfl⟩
  | cons g rest =>
    obtain ⟨j, hg⟩ := waiting_of_queue hinv h hsound hguard (g := g) (by rw [hqueue]; exact List.mem_cons_self)
    have hpop : t.pop f c i' = { (t.setPlace g (.popped c j)).setPlace f (.notifying g i') with
        queue := Function.update t.queue c rest } := by
      simp [State.pop, hqueue, hg, taken]
    have hwake : (s.goto f i').wake c = { s.goto f i' with
        queue := Function.update s.queue c rest
        woken := Function.update s.woken c (s.woken c ++ [g]) } := by
      have hsame : (s.goto f i').queue c = g :: rest := by rw [← hqueue, ← h.queue]; rfl
      rw [State.wake, hsame]
      rfl
    rw [hwake] at hstep
    rw [hpop]
    exact ⟨inv_pop hinv h hf hg rest, _, .single trivial hstep, refines_pop h hf hg rest⟩

@[simp] theorem popAll_places_self (f : Nat) (c : γ) (i : ι) : (t.popAll f c i).places f = .inside i := by
  simp [State.popAll]

theorem popAll_places_of_ne {f g : Nat} (hg : g ≠ f) (c : γ) (i : ι) :
    (t.popAll f c i).places g = if g ∈ t.queue c then handed (t.places g) else t.places g := by
  simp [State.popAll, Function.update_of_ne hg]

/-- All fibers in a queue are handed to the scheduler. -/
theorem follows_notifyAll (hinv : Inv setting t) (h : Refines t s) (hsound : Sound s) {f : Nat} {i i' : ι} {c : γ}
    (hf : t.places f = .inside i) (hcode : M.code i t.data = .notifyAll c i') (hguard : t.guard c = none) :
    Inv setting (t.popAll f c i') ∧ Follows M s (t.popAll f c i') := by
  have hwaiting : ∀ g ∈ t.queue c, ∃ j, t.places g = .waiting c j :=
    fun g hg => waiting_of_queue hinv h hsound hguard hg
  have hsame : ∀ {α : Type} (φ : Place ι γ → α), (∀ j, φ (.scheduled c j) = φ (.waiting c j)) →
      φ (.inside i') = φ (t.places f) → ∀ x, φ ((t.popAll f c i').places x) = φ (t.places x) := by
    intro α φ hscheduled hinside x
    by_cases hx : x = f
    · subst hx
      rw [popAll_places_self, hinside]
    · rw [popAll_places_of_ne hx]
      by_cases hqueue : x ∈ t.queue c
      · obtain ⟨j, hj⟩ := hwaiting x hqueue
        rw [if_pos hqueue, hj]
        exact hscheduled j
      · rw [if_neg hqueue]
  constructor
  · refine hinv.inside rfl (hsame Place.kind (fun _ => rfl) (by rw [hf]; rfl)) (fun c' x => ?_) fun x => ?_
    · rw [hsame Place.waitSection (fun _ => rfl) (by rw [hf]; rfl)]
      exact hinv.guards c' x
    · simp only [hsame Place.isPopped (fun _ => rfl) (by rw [hf]; rfl),
        hsame Place.notifies (fun _ => rfl) (by rw [hf]; rfl)]
      exact hinv.popped x
  · obtain ⟨hholder, hphase⟩ := h.running hf
    have hstep : M.machine.step s .run = some ((s.goto f i').wakeAll c) := by
      rw [step_run_eq hholder, Monitor.perform, h.data, hcode]
    refine ⟨_, .single trivial hstep, ?_⟩
    constructor
    case data => exact h.data
    case queue =>
      show Function.update s.queue c [] = Function.update t.queue c []
      rw [h.queue]
    case fibers => exact fun x => (h.fibers x).trans (hsame Place.phase (fun _ => rfl) (by rw [hf]; rfl) x).symm
    case holder =>
      intro x k
      have hrunning : ∀ x, ((t.popAll f c i').places x).running =
          (Function.update t.places f (.inside i') x).running := by
        intro x
        by_cases hx : x = f
        · subst hx
          rw [popAll_places_self, Function.update_self]
        · rw [Function.update_of_ne hx, popAll_places_of_ne hx]
          by_cases hqueue : x ∈ t.queue c
          · obtain ⟨j, hj⟩ := hwaiting x hqueue
            rw [if_pos hqueue, hj]
            rfl
          · rw [if_neg hqueue]
      rw [hrunning]
      exact h.holder_update (i := i) (by rw [hf]; rfl) (by rfl) x k
    case woken =>
      intro x c'
      show x ∈ Function.update s.woken c (s.woken c ++ s.queue c) c' ↔ _
      by_cases hx : x = f
      · subst hx
        have hout : x ∉ t.queue c := by
          intro hmem
          obtain ⟨j, hj⟩ := hwaiting x hmem
          rw [hf] at hj
          cases hj
        have hnone : ∀ c', x ∉ s.woken c' := by
          intro c'
          rw [h.woken, hf]
          simp [Place.wokenFor]
        rw [popAll_places_self]
        refine iff_of_false ?_ (by simp [Place.wokenFor])
        by_cases hc : c' = c
        · subst hc
          rw [Function.update_self, List.mem_append, h.queue]
          exact fun hmem => hmem.elim (hnone c') hout
        · rw [Function.update_of_ne hc]
          exact hnone c'
      · rw [popAll_places_of_ne hx]
        by_cases hqueue : x ∈ t.queue c
        · obtain ⟨j, hj⟩ := hwaiting x hqueue
          rw [if_pos hqueue, hj]
          by_cases hc : c' = c
          · subst hc
            rw [Function.update_self]
            exact iff_of_true (List.mem_append_right _ (h.queue ▸ hqueue)) rfl
          · rw [Function.update_of_ne hc, h.woken, hj]
            exact iff_of_false (by simp [Place.wokenFor]) (by simp [handed, Place.wokenFor, Ne.symm hc])
        · rw [if_neg hqueue, ← h.woken]
          by_cases hc : c' = c
          · subst hc
            rw [Function.update_self, List.mem_append, h.queue, or_iff_left hqueue]
          · rw [Function.update_of_ne hc]

/-! ### Steps of the mutex -/

omit [DecidableEq γ] in
/-- The steps behind the first one of `lock` and `unlock` are taken in `lock` and `unlock`. -/
theorem kind_inner {s : CoMutex.State Nat} {e : CoMutex.Event Nat} {kind : Kind}
    (h : Fits kind (s.callers (fiber e))) (hinner : inner e = true) (henabled : CoMutex.Enabled s e) :
    kind = .locking ∨ kind = .unlocking := by
  cases e with
  | lock f => cases hinner
  | unlock f => cases hinner
  | tryLock f => exact .inl (h.locking_of (by rcases henabled with hf | hf <;> simp [fiber, hf]))
  | guard f =>
    have hf : (s.callers f).phase = .failed := henabled
    exact .inl (h.locking_of (by simp [fiber, hf]))
  | setId f =>
    have hf : (s.callers f).phase = .taken := henabled
    exact .inl (h.locking_of (by simp [fiber, hf]))
  | release f g => exact .inr (h.unlocking_of (.inl ⟨g, henabled⟩))
  | schedule f g => exact .inr (h.unlocking_of (.inr ⟨g, henabled⟩))

omit [DecidableEq γ] in
theorem plain_of_kind {place : Place ι γ} (h : place.kind = .locking ∨ place.kind = .unlocking) : place.Plain := by
  cases place with
  | popped c i => simp [Place.kind] at h
  | notifying g i => simp [Place.kind] at h
  | _ => exact ⟨rfl, rfl⟩

theorem outermost_inner {s : CoMutex.State Nat} {e : CoMutex.Event Nat} (hinner : inner e = true) :
    CoMutex.Outermost setting s e := by
  cases e with
  | lock f => cases hinner
  | unlock f => cases hinner
  | _ => trivial

theorem inv_mutex (hset : Fibers setting) (hinv : Inv setting t) {e : CoMutex.Event Nat} (hinner : inner e = true)
    (henabled : CoMutex.Enabled t.mutex e) : Inv setting (t.go setting (fiber e) (t.places (fiber e)) e) := by
  have hplain := plain_of_kind (kind_inner (hinv.fits (fiber e)) hinner henabled)
  exact hinv.go hset rfl henabled (outermost_inner hinner)
    (fits_inner hset.fibers (hinv.fits (fiber e)) hinner henabled) rfl hplain hplain

omit [DecidableEq γ] in
/-- Nobody runs when a fiber gets the mutex. -/
theorem holder_eq_none (hinv : Inv setting t) (h : Refines t s) {e : CoMutex.Event Nat}
    (hexclusive : CoMutex.Exclusive (CoMutex.next setting t.mutex e))
    (hkind : (t.places (fiber e)).kind = .locking)
    (hdepth : 0 < ((CoMutex.next setting t.mutex e).callers (fiber e)).depth) : s.holder = none := by
  refine h.holder_eq_none fun g j hrunning => ?_
  have hholding : (t.places g).kind = .holding := by
    cases hplace : t.places g with
    | inside j => rfl
    | notifying g' j => rfl
    | _ =>
      rw [hplace] at hrunning
      cases hrunning
  have hcaller : t.mutex.callers g = ⟨.idle, 1, true⟩ := by
    have hfits := hinv.fits g
    rwa [hholding] at hfits
  have hne : g ≠ fiber e := by
    rintro rfl
    rw [hkind] at hholding
    cases hholding
  have hsame : (CoMutex.next setting t.mutex e).callers g = ⟨.idle, 1, true⟩ := by
    rcases callers_of_ne setting t.mutex e hne with heq | ⟨hparked, -⟩
    · exact heq.trans hcaller
    · rw [hcaller] at hparked
      cases hparked
  exact hne (hexclusive.one g (fiber e) (.inl (by rw [hsame]; exact Nat.one_pos)) (.inl hdepth))

/-- A fiber gets the mutex at the start of a function. -/
theorem follows_enter (h : Refines t s) (hnone : s.holder = none) {f : Nat} {i : ι} (hf : t.places f = .entering i)
    {e : CoMutex.Event Nat}
    (harrive : arrive ((CoMutex.next setting t.mutex e).callers f) (t.places f) = .inside i) :
    Follows M s (t.go setting f (t.places f) e) := by
  have hphase : s.fibers f = .entering i := by
    rw [h.fibers, hf]
    rfl
  have hstep : M.machine.step s (.acquire f) = some (s.take f i) := by
    simp [Monitor.machine, Monitor.step, hnone, State.resumption, State.resume, hphase]
  refine ⟨s.take f i, .single trivial hstep, ?_⟩
  refine h.move (congrArg (Function.update t.places f) harrive) h.data h.queue rfl (fun g j => ?_) fun g c => ?_
  · rw [show (t.go setting f (t.places f) e).places = _ from congrArg (Function.update t.places f) harrive]
    show some (f, i) = some (g, j) ↔ _
    by_cases hg : g = f
    · subst hg
      rw [Function.update_self]
      simp [Place.running]
    · rw [Function.update_of_ne hg, ← h.holder, hnone]
      simp [Ne.symm hg]
  · rw [apply_update Place.wokenFor (by rw [hf]; rfl)]
    exact h.woken g c

/-- A fiber that has been woken gets the mutex again. -/
theorem follows_acquire (h : Refines t s) (hsound : Sound s) (hnone : s.holder = none) {f : Nat} {c : γ} {i : ι}
    (hf : t.places f = .resuming c i) {e : CoMutex.Event Nat}
    (harrive : arrive ((CoMutex.next setting t.mutex e).callers f) (t.places f) = .inside i) :
    Follows M s (t.go setting f (t.places f) e) := by
  have hphase : s.fibers f = .waiting c i := by
    rw [h.fibers, hf]
    rfl
  have hwoken : f ∈ s.woken c := (h.woken f c).2 (by rw [hf]; rfl)
  have hstep : M.machine.step s (.acquire f) =
      some ({ s with woken := Function.update s.woken c ((s.woken c).erase f) }.take f i) := by
    simp [Monitor.machine, Monitor.step, hnone, State.resumption, State.resume, hphase, hwoken]
  refine ⟨_, .single trivial hstep, ?_⟩
  refine h.move (congrArg (Function.update t.places f) harrive) h.data h.queue rfl (fun g j => ?_) fun g c' => ?_
  · rw [show (t.go setting f (t.places f) e).places = _ from congrArg (Function.update t.places f) harrive]
    show some (f, i) = some (g, j) ↔ _
    by_cases hg : g = f
    · subst hg
      rw [Function.update_self]
      simp [Place.running]
    · rw [Function.update_of_ne hg, ← h.holder, hnone]
      simp [Ne.symm hg]
  · have hnodup : (s.woken c).Nodup := (List.nodup_append.1 (hsound.nodup c)).2.1
    show g ∈ Function.update s.woken c ((s.woken c).erase f) c' ↔ _
    by_cases hg : g = f
    · subst hg
      rw [Function.update_self]
      refine iff_of_false ?_ (by simp [Place.wokenFor])
      by_cases hc : c' = c
      · subst hc
        rw [Function.update_self]
        exact hnodup.not_mem_erase
      · rw [Function.update_of_ne hc, h.woken, hf]
        simp [Place.wokenFor, Ne.symm hc]
    · rw [Function.update_of_ne hg, ← h.woken]
      by_cases hc : c' = c
      · subst hc
        rw [Function.update_self, List.mem_erase_of_ne hg]
      · rw [Function.update_of_ne hc]

theorem follows_mutex (hset : Fibers setting) (hinv : Inv setting t) (h : Refines t s) (hsound : Sound s)
    {e : CoMutex.Event Nat} (hinner : inner e = true) (henabled : CoMutex.Enabled t.mutex e) :
    Follows M s (t.go setting (fiber e) (t.places (fiber e)) e) := by
  have hexclusive := (inv_mutex hset hinv hinner henabled).exclusive
  have hkind := kind_inner (hinv.fits (fiber e)) hinner henabled
  cases hplace : t.places (fiber e) with
  | entering i =>
    rw [← hplace]
    by_cases hdepth : 0 < ((CoMutex.next setting t.mutex e).callers (fiber e)).depth
    · have hnone := holder_eq_none hinv h hexclusive (by rw [hplace]; rfl) hdepth
      exact follows_enter h hnone hplace (by rw [hplace]; exact if_pos hdepth)
    · have harrive : arrive ((CoMutex.next setting t.mutex e).callers (fiber e)) (t.places (fiber e)) =
          t.places (fiber e) := by rw [hplace]; exact if_neg hdepth
      exact (h.go (congrArg Place.view harrive)).follows
  | resuming c i =>
    rw [← hplace]
    by_cases hdepth : 0 < ((CoMutex.next setting t.mutex e).callers (fiber e)).depth
    · have hnone := holder_eq_none hinv h hexclusive (by rw [hplace]; rfl) hdepth
      exact follows_acquire h hsound hnone hplace (by rw [hplace]; exact if_pos hdepth)
    · have harrive : arrive ((CoMutex.next setting t.mutex e).callers (fiber e)) (t.places (fiber e)) =
          t.places (fiber e) := by rw [hplace]; exact if_neg hdepth
      exact (h.go (congrArg Place.view harrive)).follows
  | unlocking c i =>
    refine (h.go ?_).follows
    rw [hplace, arrive]
    split <;> rfl
  | leaving =>
    refine (h.go ?_).follows
    rw [hplace, arrive]
    split <;> rfl
  | _ =>
    rw [hplace] at hkind
    simp [Place.kind] at hkind

/-- The monitor follows each step. -/
theorem follows_step (hset : Fibers setting) (hinv : Inv setting t) (h : Refines t s) (hsound : Sound s)
    (hstep : Step setting M t t') : Inv setting t' ∧ Follows M s t' := by
  cases hstep with
  | call hf hi => exact follows_call hset hinv h hf hi
  | mutex hinner henabled =>
    exact ⟨inv_mutex hset hinv hinner henabled, follows_mutex hset hinv h hsound hinner henabled⟩
  | update hf hcode => exact follows_update hinv h hf hcode
  | wait hf hcode hguard => exact follows_wait hinv h hf hcode hguard
  | notify hf hcode hguard => exact follows_notify hinv h hsound hf hcode hguard
  | notifyAll hf hcode hguard => exact follows_notifyAll hinv h hsound hf hcode hguard
  | leave hf hcode => exact follows_leave hset hinv h hf hcode
  | unlock hf => exact follows_unlock hset hinv h hf
  | schedule hf => exact follows_schedule hinv h hf
  | resume hf => exact follows_resume hset hinv h hf

omit [DecidableEq γ] in
theorem Refines.initial : Refines (CoMonitor.initial setting M) M.initial where
  data := rfl
  queue := rfl
  fibers _ := rfl
  holder f i := by simp [Monitor.initial, CoMonitor.initial, Place.running]
  woken f c := by simp [Monitor.initial, CoMonitor.initial, Place.wokenFor]

/-- A run of the steps is followed by a run of the monitor. -/
theorem follows_of_reaches (hset : Fibers setting) {Allowed : State δ ι γ → Event ι → Prop}
    (h : (machine setting M).Reaches Allowed (machine setting M).start t) :
    Inv setting t ∧ ∃ s, M.machine.Reaches Machine.any M.machine.start s ∧ Refines t s := by
  refine h.invariant (I := fun t => Inv setting t ∧ ∃ s, M.machine.Reaches Machine.any M.machine.start s ∧ Refines t s)
    ?_ ⟨Inv.initial hset, M.initial, .refl, Refines.initial⟩
  rintro t e t' ⟨hinv, s, hreach, href⟩ - hstep
  obtain ⟨hinv', s', hreach', href'⟩ := follows_step hset hinv href (Sound.of_reaches hreach) (.of_step hstep)
  exact ⟨hinv', s', hreach.trans hreach', href'⟩

omit [DecidableEq γ] in
/-- A fiber that has the mutex in the middle of a function owns it. -/
theorem Inv.owns (hinv : Inv setting t) {f : Nat} (hf : (t.places f).kind = .holding) :
    CoMutex.Owns (t.mutex.callers f) := by
  have hfits := hinv.fits f
  rw [hf] at hfits
  rw [show t.mutex.callers f = _ from hfits]
  exact .inl Nat.one_pos

/-- In any order of the steps that the fibers take in `lock`, `unlock`, `wait` and `notify`, the functions of a monitor
have done to the data and the queues what they do in a run in which each takes the lock, waits and is woken at once.
Only one fiber is in a function past `lock`, and none while the mutex is free. -/
theorem refines_of_reaches (hset : Fibers setting)
    (h : (machine setting M).Reaches Machine.any (machine setting M).start t) :
    (∃ s, M.machine.Reaches Machine.any M.machine.start s ∧ s.data = t.data ∧ s.queue = t.queue ∧
      (∀ f, s.fibers f = (t.places f).phase) ∧ ∀ f i, s.holder = some (f, i) ↔ (t.places f).running = some i) ∧
      (∀ f g, (t.places f).kind = .holding → (t.places g).kind = .holding → f = g) ∧
      (t.mutex.locked = false → ∀ f, (t.places f).kind ≠ .holding) := by
  obtain ⟨hinv, s, hreach, href⟩ := follows_of_reaches hset h
  refine ⟨⟨s, hreach, href.data, href.queue, href.fibers, href.holder⟩, fun f g hf hg => ?_, fun hfree f hf => ?_⟩
  · exact hinv.exclusive.one f g (hinv.owns hf) (hinv.owns hg)
  · rw [hinv.exclusive.locked f (hinv.owns hf)] at hfree
    cases hfree

/-- A fiber calls the `wait` of a latch, and gives the mutex back. -/
def awaiting : List (Event CoCountDownLatch.Label) :=
  [.call 0 .wait, .mutex (.tryLock 0), .mutex (.setId 0), .run 0, .unlock 0, .mutex (.release 0 none)]

theorem refines_of_reaches_awaiting : ∃ s : Monitor.State Int CoCountDownLatch.Label Unit,
    (CoCountDownLatch.monitor 1).machine.Reaches Machine.any (CoCountDownLatch.monitor 1).machine.start s ∧
      s.data = 1 ∧ s.queue () = [0] := by
  obtain ⟨t, hreach, hdata, hqueue⟩ : ∃ t : State Int CoCountDownLatch.Label Unit,
      (machine ownIds (CoCountDownLatch.monitor 1)).Reaches Machine.any
        (machine ownIds (CoCountDownLatch.monitor 1)).start t ∧ t.data = 1 ∧ t.queue () = [0] :=
    Machine.exists_reaches_of_run awaiting (fun _ _ _ => trivial) (by decide +kernel)
  obtain ⟨⟨s, hs, hsdata, hsqueue, -⟩, -⟩ := refines_of_reaches ownIds_fibers hreach
  exact ⟨s, hs, hsdata.trans hdata, (congrFun hsqueue ()).trans hqueue⟩

end CoMonitor

end AcidCompute

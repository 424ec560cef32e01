import AcidCompute.Sync.CoMutex
import Mathlib.Data.Fintype.Basic
import Mathlib.Data.List.Nodup

/-!
# The queue of a fiber mutex

`unlock` looks into the queue and frees `m_mutex` in two steps.  A fiber that queues up between them may be left there
with nobody to wake it; where none does, every fiber in the queue has somebody (`CoMutex.attended_of_reaches`).
-/

namespace AcidCompute

namespace CoMutex

variable {ι : Type} [DecidableEq ι] {setting : Setting ι} {s s' : State ι}

/-- A caller in `unlock` has taken a fiber out of the queue and has yet to schedule it. -/
def Pops (s : State ι) (c f : ι) : Prop :=
  (s.callers c).phase = .releasing (some f) ∨ (s.callers c).phase = .scheduling f

/-- A fiber in the queue has somebody to wake it. -/
def Attended (s : State ι) : Prop :=
  s.locked = true ∨ (∃ c f, Pops s c f) ∨ ∃ c, (s.callers c).phase = .woken

/-- No fiber queues up while an `unlock` that has found the queue empty has yet to free `m_mutex`. -/
def Noticed (s : State ι) : Event ι → Prop
  | .guard _ => s.locked = true → ∀ c, (s.callers c).phase ≠ .releasing none
  | _ => True

instance [Fintype ι] (s : State ι) : ∀ e : Event ι, Decidable (Noticed s e)
  | .guard _ => inferInstanceAs (Decidable (s.locked = true → ∀ c, (s.callers c).phase ≠ .releasing none))
  | .lock _ | .tryLock _ | .setId _ | .unlock _ | .release _ _ | .schedule _ _ => inferInstanceAs (Decidable True)

/-- Who is in the queue, and who has been taken out of it. -/
structure Queued (s : State ι) : Prop where
  nodup : s.waitQueue.Nodup
  queued : ∀ f ∈ s.waitQueue, (s.callers f).phase = .parked
  popped : ∀ c f, Pops s c f → (s.callers f).phase = .parked ∧ f ∉ s.waitQueue
  once : ∀ c c' f, Pops s c f → Pops s c' f → c = c'

/-- What holds as long as every `unlock` notices those who wait. -/
structure Attentive (s : State ι) : Prop where
  queues : Queued s
  unnoticed : ∀ c, (s.callers c).phase = .releasing none → s.waitQueue = []
  attended : s.waitQueue ≠ [] → Attended s

/-- The caller neither waits nor has anybody to schedule. -/
def Plain (phase : Phase ι) : Prop :=
  phase ≠ .parked ∧ ∀ fiber, phase ≠ .releasing (some fiber) ∧ phase ≠ .scheduling fiber

/-! ### One caller goes on -/

section

variable {c : ι} {caller : Caller ι}

/-- A caller in some phase afterwards is the one that has gone on, or was in that phase before. -/
theorem phase_of_update (hcallers : s'.callers = Function.update s.callers c caller) {g : ι} {phase : Phase ι}
    (hg : (s'.callers g).phase = phase) : caller.phase = phase ∧ g = c ∨ (s.callers g).phase = phase ∧ g ≠ c := by
  rw [hcallers] at hg
  by_cases heq : g = c
  · subst heq
    rw [Function.update_self] at hg
    exact .inl ⟨hg, rfl⟩
  · rw [Function.update_of_ne heq] at hg
    exact .inr ⟨hg, heq⟩

theorem pops_of_update (hcallers : s'.callers = Function.update s.callers c caller) {g f : ι} (hg : Pops s' g f) :
    (caller.phase = .releasing (some f) ∨ caller.phase = .scheduling f) ∧ g = c ∨ Pops s g f := by
  rcases hg with hg | hg
  · exact (phase_of_update hcallers hg).imp (And.imp_left .inl) fun hold => .inl hold.1
  · exact (phase_of_update hcallers hg).imp (And.imp_left .inr) fun hold => .inr hold.1

theorem parked_of_update (hcallers : s'.callers = Function.update s.callers c caller)
    (hnot : (s.callers c).phase ≠ .parked) {f : ι} (hf : (s.callers f).phase = .parked) :
    (s'.callers f).phase = .parked ∧ f ≠ c := by
  have hne : f ≠ c := fun heq => hnot (heq ▸ hf)
  rw [hcallers, Function.update_of_ne hne]
  exact ⟨hf, hne⟩

omit [DecidableEq ι] in
/-- The queue is left alone, nobody else is taken out of it, and who is concerned stays parked. -/
theorem Queued.of_pops (h : Queued s) (hqueue : s'.waitQueue = s.waitQueue) (hpops : ∀ g f, Pops s' g f → Pops s g f)
    (hparked : ∀ f, (f ∈ s.waitQueue ∨ ∃ g, Pops s' g f) → (s.callers f).phase = .parked →
      (s'.callers f).phase = .parked) : Queued s' := by
  constructor
  case nodup =>
    rw [hqueue]
    exact h.nodup
  case queued =>
    rw [hqueue]
    exact fun f hf => hparked f (.inl hf) (h.queued f hf)
  case popped =>
    rw [hqueue]
    intro g f hg
    obtain ⟨hf, hnot⟩ := h.popped g f (hpops g f hg)
    exact ⟨hparked f (.inr ⟨g, hg⟩) hf, hnot⟩
  case once => exact fun g g' f hg hg' => h.once g g' f (hpops g f hg) (hpops g' f hg')

/-- The caller neither waits nor comes to schedule another fiber. -/
theorem Queued.goes (h : Queued s) (hnot : (s.callers c).phase ≠ .parked)
    (hnew : ∀ f, caller.phase = .releasing (some f) ∨ caller.phase = .scheduling f → Pops s c f)
    (hcallers : s'.callers = Function.update s.callers c caller) (hqueue : s'.waitQueue = s.waitQueue) : Queued s' := by
  apply h.of_pops hqueue
  · intro g f hg
    rcases pops_of_update hcallers hg with ⟨hself, rfl⟩ | hold
    · exact hnew f hself
    · exact hold
  · exact fun f _ hf => (parked_of_update hcallers hnot hf).1

theorem Queued.plain (h : Queued s) (hold : Plain (s.callers c).phase) (hnew : Plain caller.phase)
    (hcallers : s'.callers = Function.update s.callers c caller) (hqueue : s'.waitQueue = s.waitQueue) : Queued s' :=
  h.goes hold.1 (fun f hself => (hself.elim (hnew.2 f).1 (hnew.2 f).2).elim) hcallers hqueue

theorem Queued.enqueue (h : Queued s) (hphase : (s.callers c).phase = .failed) (hnew : caller.phase = .parked)
    (hcallers : s'.callers = Function.update s.callers c caller) (hqueue : s'.waitQueue = s.waitQueue ++ [c]) :
    Queued s' := by
  have hparked : ∀ f, (s.callers f).phase = .parked → (s'.callers f).phase = .parked ∧ f ≠ c :=
    fun f => parked_of_update hcallers (by simp [hphase])
  have hpops : ∀ g f, Pops s' g f → Pops s g f :=
    fun g f hg => (pops_of_update hcallers hg).resolve_left (by simp [hnew])
  have hself : (s'.callers c).phase = .parked := by rw [hcallers, Function.update_self, hnew]
  constructor
  case nodup =>
    rw [hqueue]
    refine List.nodup_append.2 ⟨h.nodup, List.nodup_singleton c, ?_⟩
    intro f hf g hg
    rw [List.mem_singleton.1 hg]
    exact (hparked f (h.queued f hf)).2
  case queued =>
    rw [hqueue]
    intro f hf
    rcases List.mem_append.1 hf with hold | hlast
    · exact (hparked f (h.queued f hold)).1
    · rw [List.mem_singleton.1 hlast]
      exact hself
  case popped =>
    rw [hqueue]
    intro g f hg
    obtain ⟨hf, hnot⟩ := h.popped g f (hpops g f hg)
    obtain ⟨hf', hne⟩ := hparked f hf
    refine ⟨hf', ?_⟩
    rw [List.mem_append, List.mem_singleton]
    exact fun hmem => hmem.elim hnot hne
  case once => exact fun g g' f hg hg' => h.once g g' f (hpops g f hg) (hpops g' f hg')

/-- The first fiber in the queue is taken out of it. -/
theorem Queued.dequeue (h : Queued s) {first : ι} {rest : List ι} (hphase : (s.callers c).phase = .idle)
    (hcons : s.waitQueue = first :: rest) (hnew : caller.phase = .releasing (some first))
    (hcallers : s'.callers = Function.update s.callers c caller) (hqueue : s'.waitQueue = rest) : Queued s' := by
  have hnodup := h.nodup
  rw [hcons] at hnodup
  obtain ⟨hfirst, hrest⟩ := List.nodup_cons.1 hnodup
  have hmem : first ∈ s.waitQueue := by
    rw [hcons]
    exact List.mem_cons_self
  have hlater : ∀ f ∈ rest, f ∈ s.waitQueue := by
    intro f hf
    rw [hcons]
    exact List.mem_cons_of_mem first hf
  have hparked : ∀ f, (s.callers f).phase = .parked → (s'.callers f).phase = .parked :=
    fun f hf => (parked_of_update hcallers (by simp [hphase]) hf).1
  have hpops : ∀ g f, Pops s' g f → g = c ∧ f = first ∨ Pops s g f := by
    intro g f hg
    rcases pops_of_update hcallers hg with ⟨hself, rfl⟩ | hold
    · rw [hnew] at hself
      rcases hself with hself | hself
      · cases hself
        exact .inl ⟨rfl, rfl⟩
      · cases hself
    · exact .inr hold
  constructor
  case nodup => rwa [hqueue]
  case queued =>
    rw [hqueue]
    exact fun f hf => hparked f (h.queued f (hlater f hf))
  case popped =>
    rw [hqueue]
    intro g f hg
    rcases hpops g f hg with ⟨-, rfl⟩ | hold
    · exact ⟨hparked f (h.queued f hmem), hfirst⟩
    · obtain ⟨hf, hnot⟩ := h.popped g f hold
      exact ⟨hparked f hf, fun hin => hnot (hlater f hin)⟩
  case once =>
    intro g g' f hg hg'
    rcases hpops g f hg with ⟨rfl, rfl⟩ | hold
    · rcases hpops g' f hg' with ⟨rfl, -⟩ | hold'
      · rfl
      · exact absurd hmem (h.popped g' f hold').2
    · rcases hpops g' f hg' with ⟨rfl, rfl⟩ | hold'
      · exact absurd hmem (h.popped g f hold).2
      · exact h.once g g' f hold hold'

end

/-- `m_mutex` is free, and the fiber has yet to be scheduled. -/
theorem Queued.release (h : Queued s) {c f : ι} (hphase : (s.callers c).phase = .releasing (some f)) :
    Queued (next setting s (.release c (some f))) := by
  have hcallers : (next setting s (.release c (some f))).callers =
      Function.update s.callers c { s.callers c with phase := .scheduling f } := rfl
  refine h.goes (by simp [hphase]) ?_ hcallers rfl
  rintro f' (hself | hself)
  · cases hself
  · cases hself
    exact .inl hphase

/-- The caller that has taken a fiber out of the queue is done, and that fiber is woken. -/
theorem schedule_callers {c f : ι} (hf : (s.callers f).phase = .parked) (hne : f ≠ c) (g : ι) :
    ((next setting s (.schedule c f)).callers g).phase =
      if g = c then .idle else if g = f then .woken else (s.callers g).phase := by
  have hwake : s.wake f = s.setPhase f .woken := if_pos hf
  by_cases hgc : g = c
  · simp [next, State.setPhase, State.setCaller, hgc]
  · by_cases hgf : g = f
    · simp [next, hwake, State.setPhase, State.setCaller, hgf, hne]
    · simp [next, hwake, State.setPhase, State.setCaller, hgc, hgf]

theorem schedule_waitQueue {c f : ι} : (next setting s (.schedule c f)).waitQueue = s.waitQueue := by
  simp only [next, State.setPhase, State.setCaller, State.wake]
  split <;> rfl

omit [DecidableEq ι] in
theorem Queued.ne (h : Queued s) {c f : ι} (hphase : (s.callers c).phase = .scheduling f) : f ≠ c := by
  rintro rfl
  have hf := (h.popped f f (.inr hphase)).1
  rw [hphase] at hf
  cases hf

/-- The fiber that has been taken out of the queue is scheduled. -/
theorem Queued.schedule (h : Queued s) {c f : ι} (hphase : (s.callers c).phase = .scheduling f) :
    Queued (next setting s (.schedule c f)) := by
  obtain ⟨hf, hout⟩ := h.popped c f (.inr hphase)
  have hcallers : ∀ g, ((next setting s (.schedule c f)).callers g).phase =
      if g = c then .idle else if g = f then .woken else (s.callers g).phase := schedule_callers hf (h.ne hphase)
  have hpops : ∀ g f', Pops (next setting s (.schedule c f)) g f' → Pops s g f' ∧ g ≠ c := by
    intro g f' hg
    unfold Pops at hg
    rw [hcallers] at hg
    by_cases hgc : g = c
    · rw [if_pos hgc] at hg
      rcases hg with hg | hg <;> cases hg
    · by_cases hgf : g = f
      · rw [if_neg hgc, if_pos hgf] at hg
        rcases hg with hg | hg <;> cases hg
      · rw [if_neg hgc, if_neg hgf] at hg
        exact ⟨hg, hgc⟩
  apply h.of_pops schedule_waitQueue fun g f' hg => (hpops g f' hg).1
  intro g hconcerned hg
  -- the fiber that is woken is neither in the queue nor taken out by another caller
  have hgf : g ≠ f := by
    rintro rfl
    rcases hconcerned with hin | ⟨c', hc'⟩
    · exact hout hin
    · obtain ⟨hold, hne⟩ := hpops c' g hc'
      exact hne (h.once c' c g hold (.inr hphase))
  have hgc : g ≠ c := by
    rintro rfl
    rw [hphase] at hg
    cases hg
  rw [hcallers, if_neg hgc, if_neg hgf]
  exact hg

omit [DecidableEq ι] in
theorem Attentive.initial : Attentive (initial setting) where
  queues := by
    have hnone : ∀ c f, ¬ Pops (CoMutex.initial setting) c f := by simp [Pops, CoMutex.initial]
    exact ⟨List.nodup_nil, by simp [CoMutex.initial], fun c f h => absurd h (hnone c f),
      fun c _ f h => absurd h (hnone c f)⟩
  unnoticed _ _ := rfl
  attended hqueue := absurd rfl hqueue

/-- A caller goes on without the queue, and a fiber that has been woken only while `m_mutex` is held. -/
theorem Attentive.plain (h : Attentive s) {c : ι} {caller : Caller ι} (hold : Plain (s.callers c).phase)
    (hnew : Plain caller.phase) (hnone : caller.phase ≠ .releasing none)
    (hcallers : s'.callers = Function.update s.callers c caller) (hqueue : s'.waitQueue = s.waitQueue)
    (hlocked : s.locked = true → s'.locked = true) (hwoken : s'.locked = true ∨ (s.callers c).phase ≠ .woken) :
    Attentive s' := by
  have hother : ∀ g, g ≠ c → s'.callers g = s.callers g := by
    intro g hg
    rw [hcallers, Function.update_of_ne hg]
  refine ⟨h.queues.plain hold hnew hcallers hqueue, ?_, ?_⟩
  · intro g hg
    rw [hqueue]
    rcases phase_of_update hcallers hg with ⟨hself, -⟩ | ⟨hg, -⟩
    · exact absurd hself hnone
    · exact h.unnoticed g hg
  · intro hne
    rw [hqueue] at hne
    rcases h.attended hne with hheld | ⟨g, f, hg⟩ | ⟨g, hg⟩
    · exact .inl (hlocked hheld)
    · refine .inr (.inl ⟨g, f, ?_⟩)
      have heq : g ≠ c := by
        rintro rfl
        exact hg.elim (hold.2 f).1 (hold.2 f).2
      unfold Pops
      rw [hother g heq]
      exact hg
    · rcases hwoken with hheld | hnot
      · exact .inl hheld
      · refine .inr (.inr ⟨g, ?_⟩)
        have heq : g ≠ c := fun heq => hnot (heq ▸ hg)
        rw [hother g heq]
        exact hg

theorem Attentive.enqueue (h : Attentive s) {c : ι} (hphase : (s.callers c).phase = .failed)
    (hnone : ∀ g, (s.callers g).phase ≠ .releasing none) {caller : Caller ι} (hnew : caller.phase = .parked)
    (hcallers : s'.callers = Function.update s.callers c caller) (hqueue : s'.waitQueue = s.waitQueue ++ [c])
    (hlocked : s'.locked = true) : Attentive s' where
  queues := h.queues.enqueue hphase hnew hcallers hqueue
  unnoticed g hg := by
    rcases phase_of_update hcallers hg with ⟨hself, -⟩ | ⟨hg, -⟩
    · rw [hnew] at hself
      cases hself
    · exact absurd hg (hnone g)
  attended _ := .inl hlocked

theorem Attentive.unlock (h : Attentive s) {c : ι} (hphase : (s.callers c).phase = .idle) :
    Attentive (next setting s (.unlock c)) := by
  have hcallers : (next setting s (.unlock c)).callers = Function.update s.callers c
      ⟨.releasing s.waitQueue.head?, (s.callers c).depth - 1, (s.callers c).hasFiber⟩ := rfl
  have hself : ((next setting s (.unlock c)).callers c).phase = .releasing s.waitQueue.head? := by
    rw [hcallers, Function.update_self]
  cases hqueue : s.waitQueue with
  | nil =>
    have hplain : Plain (s.callers c).phase := by simp [Plain, hphase]
    have hnil : (next setting s (.unlock c)).waitQueue = [] := by simp [next, hqueue]
    refine ⟨h.queues.plain hplain ?_ hcallers (hnil.trans hqueue.symm), fun _ _ => hnil, fun hne => absurd hnil hne⟩
    simp [Plain, hqueue]
  | cons first rest =>
    have hcons : (next setting s (.unlock c)).waitQueue = rest := by simp [next, hqueue]
    rw [hqueue] at hself
    refine ⟨h.queues.dequeue hphase hqueue (by simp [hqueue]) hcallers hcons, ?_,
      fun _ => .inr (.inl ⟨c, first, .inl hself⟩)⟩
    intro g hg
    rcases phase_of_update hcallers hg with ⟨hnone, -⟩ | ⟨hold, -⟩
    · simp [hqueue] at hnone
    · rw [h.unnoticed g hold] at hqueue
      cases hqueue

theorem Attentive.release (h : Attentive s) {c : ι} {fiber : Option ι}
    (hphase : (s.callers c).phase = .releasing fiber) : Attentive (next setting s (.release c fiber)) := by
  have hcallers : (next setting s (.release c fiber)).callers =
      Function.update s.callers c { s.callers c with phase := afterRelease fiber } := rfl
  have hself : ((next setting s (.release c fiber)).callers c).phase = afterRelease fiber := by
    rw [hcallers, Function.update_self]
  cases fiber with
  | none =>
    have hnil := h.unnoticed c hphase
    have hplain : Plain (s.callers c).phase := by simp [Plain, hphase]
    refine ⟨h.queues.plain hplain ?_ hcallers rfl, fun _ _ => hnil, fun hne => absurd hnil hne⟩
    simp [Plain, afterRelease]
  | some f =>
    refine ⟨h.queues.release hphase, ?_, fun _ => .inr (.inl ⟨c, f, .inr hself⟩)⟩
    intro g hg
    rcases phase_of_update hcallers hg with ⟨hnone, -⟩ | ⟨hold, -⟩
    · cases hnone
    · exact h.unnoticed g hold

theorem Attentive.schedule (h : Attentive s) {c f : ι} (hphase : (s.callers c).phase = .scheduling f) :
    Attentive (next setting s (.schedule c f)) := by
  have hne := h.queues.ne hphase
  have hcallers : ∀ g, ((next setting s (.schedule c f)).callers g).phase =
      if g = c then .idle else if g = f then .woken else (s.callers g).phase :=
    schedule_callers (h.queues.popped c f (.inr hphase)).1 hne
  have hwoken : ((next setting s (.schedule c f)).callers f).phase = .woken := by
    rw [hcallers, if_neg hne, if_pos rfl]
  refine ⟨h.queues.schedule hphase, ?_, fun _ => .inr (.inr ⟨f, hwoken⟩)⟩
  intro g hg
  rw [schedule_waitQueue]
  rw [hcallers] at hg
  split at hg
  · cases hg
  · split at hg
    · cases hg
    · exact h.unnoticed g hg

theorem Attentive.step {e : Event ι} (h : Attentive s) (hfibers : ∀ c, setting.thread c = false)
    (hnoticed : Noticed s e) (hstep : (machine setting).step s e = some s') : Attentive s' := by
  obtain ⟨henabled, rfl⟩ := machine_step hstep
  cases e with
  | lock c =>
    have hidle : (s.callers c).phase = .idle := henabled
    have hplain : Plain (s.callers c).phase := by simp [Plain, hidle]
    have hnot : (s.callers c).phase ≠ .woken := by simp [hidle]
    simp only [next]
    split
    case isTrue => exact h.plain hplain (by simp [Plain]) (by simp) rfl rfl id (.inr hnot)
    case isFalse => exact h.plain hplain (by simp [Plain]) (by simp) rfl rfl id (.inr hnot)
  | tryLock c =>
    have hplain : Plain (s.callers c).phase := by
      rcases henabled with htrying | hwoken
      · simp [Plain, htrying]
      · simp [Plain, hwoken]
    simp only [next]
    split
    case isTrue hheld => exact h.plain hplain (by simp [Plain]) (by simp) rfl rfl id (.inl hheld)
    case isFalse => exact h.plain hplain (by simp [Plain]) (by simp) rfl rfl (fun _ => rfl) (.inl rfl)
  | guard c =>
    have hfailed : (s.callers c).phase = .failed := henabled
    simp only [next]
    split
    case isTrue hheld => exact h.enqueue hfailed (hnoticed hheld) (by simp [hfibers c]) rfl rfl hheld
    case isFalse =>
      exact h.plain (by simp [Plain, hfailed]) (by simp [Plain]) (by simp) rfl rfl (fun _ => rfl) (.inl rfl)
  | setId c =>
    have htaken : (s.callers c).phase = .taken := henabled
    exact h.plain (by simp [Plain, htaken]) (by simp [Plain]) (by simp) rfl rfl id (.inr (by simp [htaken]))
  | unlock c => exact h.unlock henabled.1
  | release c fiber => exact h.release henabled
  | schedule c f => exact h.schedule henabled

/-- As long as every `unlock` notices the fibers that wait, a fiber in the queue has somebody to wake it. -/
theorem attended_of_reaches (hfibers : ∀ c, setting.thread c = false)
    (h : (machine setting).Reaches Noticed (machine setting).start s) (hqueue : s.waitQueue ≠ []) : Attended s := by
  have hs : Attentive s :=
    h.invariant (fun _ _ _ ht hnoticed hstep => ht.step hfibers hnoticed hstep) Attentive.initial
  exact hs.attended hqueue

instance : Fintype Pair := ⟨{.first, .second}, fun c => by cases c <;> simp⟩

/-- A fiber queues up between the two steps of `unlock`. -/
private def unnoticed : List (Event Pair) :=
  [.lock .first, .tryLock .first, .setId .first, .lock .second, .tryLock .second, .unlock .first, .guard .second,
    .release .first none]

theorem exists_unattended_unnoticed : ∃ s, (machine twoFibers).Reaches Machine.any (machine twoFibers).start s ∧
    s.waitQueue ≠ [] ∧ ¬ Attended s := by
  obtain ⟨s, hreach, hqueue, hfree, hfirst, hsecond⟩ : ∃ s,
      (machine twoFibers).Reaches Machine.any (machine twoFibers).start s ∧ s.waitQueue = [.second] ∧ s.locked = false ∧
        (s.callers .first).phase = .idle ∧ (s.callers .second).phase = .parked :=
    Machine.exists_reaches_of_run unnoticed (fun _ _ _ => trivial) (by decide +kernel)
  refine ⟨s, hreach, by simp [hqueue], ?_⟩
  rintro (hheld | ⟨c, f, hpops⟩ | ⟨c, hwoken⟩)
  · rw [hfree] at hheld
    cases hheld
  · cases c <;> simp [Pops, hfirst, hsecond] at hpops
  · cases c <;> simp [hfirst, hsecond] at hwoken

/-- A fiber queues up in time, and is woken. -/
private def noticed : List (Event Pair) :=
  [.lock .first, .tryLock .first, .setId .first, .lock .second, .tryLock .second, .guard .second]

theorem attended_of_reaches_noticed : ∃ s,
    (machine twoFibers).Reaches Noticed (machine twoFibers).start s ∧ s.waitQueue = [.second] ∧ Attended s := by
  obtain ⟨s, hreach, hqueue⟩ : ∃ s,
      (machine twoFibers).Reaches Noticed (machine twoFibers).start s ∧ s.waitQueue = [.second] :=
    Machine.exists_reaches_of_guarded noticed (by decide +kernel)
  exact ⟨s, hreach, hqueue, attended_of_reaches (fun _ => rfl) hreach (by simp [hqueue])⟩

end CoMutex

end AcidCompute

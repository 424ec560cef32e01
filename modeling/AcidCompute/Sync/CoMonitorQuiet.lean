import AcidCompute.Sync.CoMonitorSteps

/-!
# When all fibers wait

With `CoMutex` and `CoCond` as they are, a state is quiet if no fiber can go on in a function.  As long as no fiber
queues up for the mutex while an `unlock` that has found the queue empty has yet to free it, the mutex is free in a
quiet state, and a fiber in a function is in the queue of a condition (`CoMonitor.quiet_of_reaches`).
-/

namespace AcidCompute

open Monitor

namespace CoMutex

section

variable {ι : Type} [DecidableEq ι] {setting : Setting ι} {s s' : State ι}

/-- Somebody has the mutex if it is taken, and whoever is parked is in the queue or has been taken out of it. -/
structure Accounted (s : State ι) : Prop where
  owned : s.locked = true → ∃ c, Owns (s.callers c)
  parked : ∀ c, (s.callers c).phase = .parked → c ∈ s.waitQueue ∨ ∃ c', Pops s c' c

omit [DecidableEq ι] in
theorem Accounted.initial : Accounted (initial setting) where
  owned h := by cases h
  parked c h := by cases h

theorem owned_update (h : ∃ c, Owns (s.callers c)) {c : ι} {caller : Caller ι}
    (hcallers : s'.callers = Function.update s.callers c caller) (howns : Owns (s.callers c) → Owns caller) :
    ∃ c, Owns (s'.callers c) := by
  obtain ⟨g, hg⟩ := h
  rw [hcallers]
  by_cases heq : g = c
  · subst heq
    exact ⟨g, by rw [Function.update_self]; exact howns hg⟩
  · exact ⟨g, by rwa [Function.update_of_ne heq]⟩

/-- The queue is left alone, and whom a caller has taken out of it stays taken out. -/
theorem parked_update (h : Accounted s) {c : ι} {caller : Caller ι}
    (hcallers : s'.callers = Function.update s.callers c caller) (hqueue : s'.waitQueue = s.waitQueue)
    (hnot : caller.phase ≠ .parked)
    (hpops : ∀ g, Pops s c g → caller.phase = .releasing (some g) ∨ caller.phase = .scheduling g) (g : ι)
    (hg : (s'.callers g).phase = .parked) : g ∈ s'.waitQueue ∨ ∃ c', Pops s' c' g := by
  rcases phase_of_update hcallers hg with ⟨hself, -⟩ | ⟨hold, -⟩
  · exact absurd hself hnot
  · rw [hqueue]
    rcases h.parked g hold with hin | ⟨c', hc'⟩
    · exact .inl hin
    · refine .inr ⟨c', ?_⟩
      unfold Pops
      rw [hcallers]
      by_cases heq : c' = c
      · subst heq
        rw [Function.update_self]
        exact hpops g hc'
      · rw [Function.update_of_ne heq]
        exact hc'

/-- A caller goes on that has taken nobody out of the queue. -/
theorem Accounted.change (h : Accounted s) {c : ι} {caller : Caller ι}
    (hcallers : s'.callers = Function.update s.callers c caller) (hqueue : s'.waitQueue = s.waitQueue)
    (howned : s'.locked = true → ∃ c, Owns (s'.callers c)) (hnot : caller.phase ≠ .parked)
    (hold : ∀ g, ¬Pops s c g) : Accounted s' :=
  ⟨howned, parked_update h hcallers hqueue hnot fun g hg => absurd hg (hold g)⟩

omit [DecidableEq ι] in
theorem not_pops {c : ι} (hreleasing : ∀ fiber, (s.callers c).phase ≠ .releasing fiber)
    (hscheduling : ∀ fiber, (s.callers c).phase ≠ .scheduling fiber) (g : ι) : ¬Pops s c g :=
  fun hpops => hpops.elim (hreleasing _) (hscheduling _)

variable (setting) in
/-- The others stay as they are, apart from the fiber that is woken. -/
theorem schedule_callers_of_ne (c f : ι) {g : ι} (hg : g ≠ c) :
    (next setting s (.schedule c f)).callers g = s.callers g ∧ ((s.callers g).phase = .parked → g ≠ f) ∨
      (s.callers g).phase = .parked ∧
        (next setting s (.schedule c f)).callers g = { s.callers g with phase := .woken } := by
  have hcallers : (next setting s (.schedule c f)).callers g = (s.wake f).callers g := Function.update_of_ne hg _ _
  rw [hcallers, State.wake]
  split
  case isTrue hparked =>
    by_cases hgf : g = f
    · subst hgf
      exact .inr ⟨hparked, Function.update_self _ _ _⟩
    · exact .inl ⟨Function.update_of_ne hgf _ _, fun _ => hgf⟩
  case isFalse hnot =>
    refine .inl ⟨rfl, fun hparked hgf => hnot ?_⟩
    rwa [← hgf]

theorem Accounted.schedule (h : Accounted s) {c f : ι} (hphase : (s.callers c).phase = .scheduling f) :
    Accounted (next setting s (.schedule c f)) := by
  have hself : (next setting s (.schedule c f)).callers c = { (s.wake f).callers c with phase := .idle } :=
    Function.update_self _ _ _
  have hwake : (s.wake f).callers c = s.callers c := by
    unfold State.wake
    split
    case isTrue hparked =>
      have hne : c ≠ f := by
        rintro rfl
        rw [hphase] at hparked
        cases hparked
      exact Function.update_of_ne hne _ _
    case isFalse => rfl
  have hlocked : (next setting s (.schedule c f)).locked = s.locked := by
    simp only [next, State.setPhase, State.setCaller, State.wake]
    split <;> rfl
  constructor
  · intro hheld
    obtain ⟨g, hg⟩ := h.owned (hlocked.symm.trans hheld)
    refine ⟨g, ?_⟩
    by_cases hgc : g = c
    · subst hgc
      rcases hg with hdepth | htaken | ⟨fiber, hreleasing⟩
      · rw [hself, hwake]
        exact .inl hdepth
      · rw [hphase] at htaken
        cases htaken
      · rw [hphase] at hreleasing
        cases hreleasing
    · rcases schedule_callers_of_ne setting c f hgc with ⟨hsame, -⟩ | ⟨hparked, hwoken⟩
      · rwa [hsame]
      · rcases hg with hdepth | htaken | ⟨fiber, hreleasing⟩
        · rw [hwoken]
          exact .inl hdepth
        · rw [hparked] at htaken
          cases htaken
        · rw [hparked] at hreleasing
          cases hreleasing
  · intro g hg
    have hgc : g ≠ c := by
      rintro rfl
      rw [hself] at hg
      cases hg
    rcases schedule_callers_of_ne setting c f hgc with ⟨hsame, hne⟩ | ⟨-, hwoken⟩
    · rw [hsame] at hg
      rw [schedule_waitQueue]
      rcases h.parked g hg with hin | ⟨c', hc'⟩
      · exact .inl hin
      · refine .inr ⟨c', ?_⟩
        have hc'c : c' ≠ c := by
          rintro rfl
          rcases hc' with hc' | hc'
          · rw [hphase] at hc'
            cases hc'
          · rw [hphase] at hc'
            exact hne hg (Phase.scheduling.inj hc').symm
        rcases schedule_callers_of_ne setting c f hc'c with ⟨hsame', -⟩ | ⟨hparked', -⟩
        · unfold Pops
          rwa [hsame']
        · simp [Pops, hparked'] at hc'
    · rw [hwoken] at hg
      cases hg

theorem Accounted.step {e : Event ι} (h : Accounted s) (hstep : (machine setting).step s e = some s') :
    Accounted s' := by
  obtain ⟨henabled, rfl⟩ := machine_step hstep
  cases e with
  | lock c =>
    have hidle : (s.callers c).phase = .idle := henabled
    have hnone := not_pops (s := s) (c := c) (by simp [hidle]) (by simp [hidle])
    simp only [next]
    split
    case isTrue =>
      exact h.change rfl rfl (fun hheld => owned_update (h.owned hheld) rfl fun _ => .inl (Nat.succ_pos _)) (by simp)
        hnone
    case isFalse =>
      refine h.change rfl rfl (fun hheld => owned_update (h.owned hheld) rfl ?_) (by simp) hnone
      rintro (hdepth | hphase | ⟨fiber, hphase⟩)
      · exact .inl hdepth
      · rw [hidle] at hphase
        cases hphase
      · rw [hidle] at hphase
        cases hphase
  | tryLock c =>
    have hphase : (s.callers c).phase = .trying ∨ (s.callers c).phase = .woken := henabled
    have hnone := not_pops (s := s) (c := c) (by rcases hphase with hp | hp <;> simp [hp])
      (by rcases hphase with hp | hp <;> simp [hp])
    simp only [next]
    split
    case isTrue hheld =>
      refine h.change rfl rfl (fun _ => owned_update (h.owned hheld) rfl ?_) (by simp) hnone
      rintro (hdepth | htaken | ⟨fiber, hreleasing⟩)
      · exact .inl hdepth
      · rw [htaken] at hphase
        simp at hphase
      · rw [hreleasing] at hphase
        simp at hphase
    case isFalse =>
      exact h.change rfl rfl (fun _ => ⟨c, .inr (.inl (by simp [State.setPhase, State.setCaller]))⟩) (by simp) hnone
  | guard c =>
    have hfailed : (s.callers c).phase = .failed := henabled
    have hnone := not_pops (s := s) (c := c) (by simp [hfailed]) (by simp [hfailed])
    simp only [next]
    split
    case isTrue hheld =>
      constructor
      · refine fun _ => owned_update (h.owned hheld) rfl ?_
        rintro (hdepth | hphase | ⟨fiber, hphase⟩)
        · exact .inl hdepth
        · rw [hfailed] at hphase
          cases hphase
        · rw [hfailed] at hphase
          cases hphase
      · intro g hg
        by_cases hgc : g = c
        · exact .inl (List.mem_append_right _ (by simp [hgc]))
        · have hold : (s.callers g).phase = .parked := by
            simpa [State.setCaller, Function.update_of_ne hgc] using hg
          rcases h.parked g hold with hin | ⟨c', hc'⟩
          · exact .inl (List.mem_append_left _ hin)
          · refine .inr ⟨c', ?_⟩
            have hne : c' ≠ c := fun heq => hnone g (heq ▸ hc')
            simpa [Pops, State.setCaller, Function.update_of_ne hne] using hc'
    case isFalse =>
      refine h.change rfl rfl (fun _ => ⟨c, .inl ?_⟩) (by simp) hnone
      simp [State.enter, State.setCaller]
  | setId c =>
    have htaken : (s.callers c).phase = .taken := henabled
    have hnone := not_pops (s := s) (c := c) (by simp [htaken]) (by simp [htaken])
    exact h.change rfl rfl (fun hheld => owned_update (h.owned hheld) rfl fun _ => .inl (Nat.succ_pos _)) (by simp)
      hnone
  | unlock c =>
    have hidle : (s.callers c).phase = .idle := henabled.1
    have hself : ((next setting s (.unlock c)).callers c).phase = .releasing s.waitQueue.head? := by
      simp [next, State.setCaller]
    refine ⟨fun _ => ⟨c, .inr (.inr ⟨_, hself⟩)⟩, fun g hg => ?_⟩
    have hgc : g ≠ c := by
      rintro rfl
      rw [hself] at hg
      cases hg
    have hold : (s.callers g).phase = .parked := by
      simpa [next, State.setCaller, Function.update_of_ne hgc] using hg
    rcases h.parked g hold with hin | ⟨c', hc'⟩
    · cases hqueue : s.waitQueue with
      | nil => simp [hqueue] at hin
      | cons first rest =>
        rw [hqueue] at hin
        rcases List.mem_cons.1 hin with rfl | hrest
        · exact .inr ⟨c, .inl (by rw [hself, hqueue]; rfl)⟩
        · exact .inl (by simpa [next, hqueue] using hrest)
    · have hne : c' ≠ c := by
        rintro rfl
        simp [Pops, hidle] at hc'
      exact .inr ⟨c', by simpa [next, Pops, State.setCaller, Function.update_of_ne hne] using hc'⟩
  | release c fiber =>
    have hreleasing : (s.callers c).phase = .releasing fiber := henabled
    have hcallers : (next setting s (.release c fiber)).callers =
        Function.update s.callers c { s.callers c with phase := afterRelease fiber } := rfl
    refine ⟨fun hheld => (by cases hheld), parked_update h hcallers rfl ?_ fun g hg => ?_⟩
    · cases fiber <;> simp [afterRelease]
    · rcases hg with hg | hg
      · rw [hreleasing] at hg
        cases hg
        exact .inr rfl
      · rw [hreleasing] at hg
        cases hg
  | schedule c f => exact h.schedule henabled

end

end CoMutex

namespace CoMonitor

variable {δ ι γ : Type} [DecidableEq γ] {setting : CoMutex.Setting Nat} {M : Monitor δ ι γ} {t t' : State δ ι γ}

/-- No fiber queues up for the mutex while an `unlock` that has found the queue empty has yet to free it. -/
def Noticed (t : State δ ι γ) : Event ι → Prop
  | .mutex e => CoMutex.Noticed t.mutex e
  | _ => True

/-- No fiber can go on in a function. -/
def Quiet (setting : CoMutex.Setting Nat) (M : Monitor δ ι γ) (t : State δ ι γ) : Prop :=
  ∀ e t', (machine setting M).step t e = some t' → ∃ f i, e = .call f i

/-! ### The mutex in a run -/

/-- A step leaves the mutex alone or is one of its steps. -/
theorem mutex_of_step (hinv : Inv setting t) {e : Event ι} (hnoticed : Noticed t e)
    (h : (machine setting M).step t e = some t') : t'.mutex = t.mutex ∨
      ∃ e', CoMutex.Noticed t.mutex e' ∧ (CoMutex.machine setting).step t.mutex e' = some t'.mutex := by
  have h : CoMonitor.step setting M t e = some t' := h
  cases e with
  | call f i =>
    simp only [CoMonitor.step] at h
    split at h
    case h_1 hf =>
      obtain ⟨-, h⟩ := Option.ite_none_right_eq_some.1 h
      cases h
      have henabled := (lock_next hinv (f := f) (by rw [hf]; rfl)).1
      exact .inr ⟨.lock f, trivial, if_pos henabled⟩
    case h_2 => cases h
  | mutex e =>
    obtain ⟨⟨-, henabled⟩, h⟩ := Option.ite_none_right_eq_some.1 h
    cases h
    exact .inr ⟨e, hnoticed, if_pos henabled⟩
  | run f =>
    simp only [CoMonitor.step] at h
    split at h
    case h_1 i hf =>
      cases hcode : M.code i t.data with
      | unlock =>
        rw [hcode] at h
        cases h
        have henabled := (unlock_next hinv (f := f) (by rw [hf]; rfl)).1
        exact .inr ⟨.unlock f, trivial, if_pos henabled⟩
      | update d i' =>
        rw [hcode] at h
        cases h
        exact .inl rfl
      | wait c i' =>
        rw [hcode] at h
        obtain ⟨-, h⟩ := Option.ite_none_right_eq_some.1 h
        cases h
        exact .inl rfl
      | notify c i' =>
        rw [hcode] at h
        obtain ⟨-, h⟩ := Option.ite_none_right_eq_some.1 h
        cases h
        left
        unfold State.pop
        split <;> rfl
      | notifyAll c i' =>
        rw [hcode] at h
        obtain ⟨-, h⟩ := Option.ite_none_right_eq_some.1 h
        cases h
        exact .inl rfl
    case h_2 => cases h
  | unlock f =>
    simp only [CoMonitor.step] at h
    split at h
    case h_1 hf =>
      cases h
      have henabled := (unlock_next hinv (f := f) (by rw [hf]; rfl)).1
      exact .inr ⟨.unlock f, trivial, if_pos henabled⟩
    case h_2 => cases h
  | schedule f =>
    simp only [CoMonitor.step] at h
    split at h
    case h_1 =>
      cases h
      exact .inl rfl
    case h_2 => cases h
  | resume f =>
    simp only [CoMonitor.step] at h
    split at h
    case h_1 hf =>
      cases h
      have henabled := (lock_next hinv (f := f) (by rw [hf]; rfl)).1
      exact .inr ⟨.lock f, trivial, if_pos henabled⟩
    case h_2 => cases h

/-- Nobody is forgotten who waits for the mutex. -/
theorem attentive_of_reaches (hset : Fibers setting)
    (h : (machine setting M).Reaches Noticed (machine setting M).start t) :
    CoMutex.Attentive t.mutex ∧ CoMutex.Accounted t.mutex := by
  refine h.invariant_along (I := fun t => CoMutex.Attentive t.mutex ∧ CoMutex.Accounted t.mutex) ?_
    ⟨CoMutex.Attentive.initial, CoMutex.Accounted.initial⟩
  rintro t e t' hreach ⟨hattentive, haccounted⟩ hnoticed hstep
  rcases mutex_of_step (follows_of_reaches hset hreach).1 hnoticed hstep with hsame | ⟨e', hnoticed', hmutex⟩
  · rw [hsame]
    exact ⟨hattentive, haccounted⟩
  · exact ⟨hattentive.step hset.fibers hnoticed' hmutex, haccounted.step hmutex⟩

/-! ### Quiet states -/

omit [DecidableEq γ] in
/-- A fiber that nobody has woken is in the queue. -/
theorem Refines.mem_queue {s : Monitor.State δ ι γ} (h : Refines t s) (hsound : Sound s) {f : Nat} {c : γ} {i : ι}
    (hf : t.places f = .waiting c i) : f ∈ t.queue c := by
  have hmem : f ∈ s.queue c ++ s.woken c := (hsound.waiting f c).2 ⟨i, by rw [h.fibers, hf]; rfl⟩
  rcases List.mem_append.1 hmem with hqueue | hwoken
  · rwa [← h.queue]
  · rw [h.woken, hf] at hwoken
    cases hwoken

theorem Quiet.elim (hquiet : Quiet setting M t) {e : Event ι} (hcall : ∀ f i, e ≠ .call f i)
    (h : step setting M t e ≠ none) : False := by
  obtain ⟨t', ht'⟩ := Option.ne_none_iff_exists'.1 h
  obtain ⟨f, i, heq⟩ := hquiet e t' ht'
  exact hcall f i heq

theorem Quiet.not_enabled (hquiet : Quiet setting M t) {e : CoMutex.Event Nat} (hinner : inner e = true) :
    ¬CoMutex.Enabled t.mutex e :=
  fun henabled => hquiet.elim (e := .mutex e) (by simp) (by simp [step, hinner, henabled])

theorem Quiet.kind_ne_unlocking (hquiet : Quiet setting M t) (hinv : Inv setting t) (f : Nat) :
    (t.places f).kind ≠ .unlocking := by
  intro hkind
  have hfits := hinv.fits f
  rw [hkind] at hfits
  obtain ⟨-, -, ⟨g, hg⟩ | ⟨g, hg⟩⟩ := hfits
  · exact hquiet.not_enabled (e := .release f g) rfl hg
  · exact hquiet.not_enabled (e := .schedule f g) rfl hg

theorem Quiet.ne_queued (hquiet : Quiet setting M t) (f : Nat) (c : γ) (i : ι) : t.places f ≠ .queued c i :=
  fun hf => hquiet.elim (e := .unlock f) (by simp) (by simp [step, hf])

theorem Quiet.guard_eq_none (hquiet : Quiet setting M t) (hinv : Inv setting t) (c : γ) : t.guard c = none := by
  cases hguard : t.guard c with
  | none => rfl
  | some f =>
    have hsection := (hinv.guards c f).1 hguard
    cases hplace : t.places f with
    | queued c' i => exact absurd hplace (hquiet.ne_queued f c' i)
    | unlocking c' i =>
      have hkind := hquiet.kind_ne_unlocking hinv f
      rw [hplace] at hkind
      exact absurd rfl hkind
    | _ =>
      rw [hplace] at hsection
      cases hsection

theorem Quiet.ne_inside (hquiet : Quiet setting M t) (hinv : Inv setting t) (f : Nat) (i : ι) :
    t.places f ≠ .inside i := by
  intro hf
  refine hquiet.elim (e := .run f) (by simp) ?_
  have hguard := hquiet.guard_eq_none hinv
  cases hcode : M.code i t.data <;> simp [step, hf, perform, hcode, hguard]

theorem Quiet.ne_notifying (hquiet : Quiet setting M t) (f g : Nat) (i : ι) : t.places f ≠ .notifying g i :=
  fun hf => hquiet.elim (e := .schedule f) (by simp) (by simp [step, hf])

theorem Quiet.ne_scheduled (hquiet : Quiet setting M t) (f : Nat) (c : γ) (i : ι) : t.places f ≠ .scheduled c i :=
  fun hf => hquiet.elim (e := .resume f) (by simp) (by simp [step, hf])

theorem Quiet.ne_popped (hquiet : Quiet setting M t) (hinv : Inv setting t) (f : Nat) (c : γ) (i : ι) :
    t.places f ≠ .popped c i := by
  intro hf
  obtain ⟨g, hg⟩ := (hinv.popped f).1 (by rw [hf]; rfl)
  cases hplace : t.places g with
  | notifying x j => exact hquiet.ne_notifying g x j hplace
  | _ =>
    rw [hplace] at hg
    cases hg

theorem Quiet.kind_ne_holding (hquiet : Quiet setting M t) (hinv : Inv setting t) (f : Nat) :
    (t.places f).kind ≠ .holding := by
  cases hplace : t.places f with
  | inside i => exact absurd hplace (hquiet.ne_inside hinv f i)
  | notifying g i => exact absurd hplace (hquiet.ne_notifying f g i)
  | queued c i => exact absurd hplace (hquiet.ne_queued f c i)
  | _ => simp [Place.kind]

/-- Whoever is in `lock` is parked there. -/
theorem Quiet.parked (hquiet : Quiet setting M t) (hinv : Inv setting t) {f : Nat}
    (hkind : (t.places f).kind = .locking) : (t.mutex.callers f).phase = .parked := by
  have hfits := hinv.fits f
  rw [hkind] at hfits
  obtain ⟨-, -, hphase | hphase | hphase | hphase | hphase⟩ := hfits
  · exact (hquiet.not_enabled (e := .tryLock f) rfl (.inl hphase)).elim
  · exact (hquiet.not_enabled (e := .guard f) rfl hphase).elim
  · exact hphase
  · exact (hquiet.not_enabled (e := .tryLock f) rfl (.inr hphase)).elim
  · exact (hquiet.not_enabled (e := .setId f) rfl hphase).elim

theorem Quiet.not_pops (hquiet : Quiet setting M t) (f g : Nat) : ¬CoMutex.Pops t.mutex f g := by
  rintro (hphase | hphase)
  · exact hquiet.not_enabled (e := .release f (some g)) rfl hphase
  · exact hquiet.not_enabled (e := .schedule f g) rfl hphase

/-- Nobody has the mutex. -/
theorem Quiet.not_owns (hquiet : Quiet setting M t) (hinv : Inv setting t) (f : Nat) :
    ¬CoMutex.Owns (t.mutex.callers f) := by
  have hfits := hinv.fits f
  rintro (hdepth | hphase | ⟨g, hphase⟩)
  · cases hkind : (t.places f).kind with
    | away =>
      rw [hkind] at hfits
      rw [show t.mutex.callers f = _ from hfits] at hdepth
      cases hdepth
    | locking =>
      rw [hkind] at hfits
      rw [hfits.1] at hdepth
      cases hdepth
    | holding => exact hquiet.kind_ne_holding hinv f hkind
    | unlocking => exact hquiet.kind_ne_unlocking hinv f hkind
  · exact hquiet.not_enabled (e := .setId f) rfl hphase
  · exact hquiet.not_enabled (e := .release f g) rfl hphase

theorem Quiet.locked_eq_false (hquiet : Quiet setting M t) (hinv : Inv setting t)
    (haccounted : CoMutex.Accounted t.mutex) : t.mutex.locked = false := by
  by_contra hlocked
  obtain ⟨f, hf⟩ := haccounted.owned (by simpa using hlocked)
  exact hquiet.not_owns hinv f hf

/-- Nobody waits for the mutex. -/
theorem Quiet.kind_ne_locking (hquiet : Quiet setting M t) (hinv : Inv setting t)
    (hattentive : CoMutex.Attentive t.mutex) (haccounted : CoMutex.Accounted t.mutex) (f : Nat) :
    (t.places f).kind ≠ .locking := by
  intro hkind
  rcases haccounted.parked f (hquiet.parked hinv hkind) with hqueue | ⟨g, hg⟩
  · rcases hattentive.attended (List.ne_nil_of_mem hqueue) with hlocked | ⟨g, g', hg⟩ | ⟨g, hwoken⟩
    · rw [hquiet.locked_eq_false hinv haccounted] at hlocked
      cases hlocked
    · exact hquiet.not_pops g g' hg
    · exact hquiet.not_enabled (e := .tryLock g) rfl (.inr hwoken)
  · exact hquiet.not_pops g f hg

/-- A fiber that can go on only by a call has made none, or it waits on a condition. -/
theorem Quiet.place (hquiet : Quiet setting M t) (hinv : Inv setting t) (hattentive : CoMutex.Attentive t.mutex)
    (haccounted : CoMutex.Accounted t.mutex) (f : Nat) :
    t.places f = .outside ∨ ∃ c i, t.places f = .waiting c i := by
  have hlocking := hquiet.kind_ne_locking hinv hattentive haccounted f
  have hholding := hquiet.kind_ne_holding hinv f
  have hunlocking := hquiet.kind_ne_unlocking hinv f
  cases hplace : t.places f with
  | outside => exact .inl rfl
  | waiting c i => exact .inr ⟨c, i, rfl⟩
  | popped c i => exact absurd hplace (hquiet.ne_popped hinv f c i)
  | scheduled c i => exact absurd hplace (hquiet.ne_scheduled f c i)
  | entering i => exact absurd (by rw [hplace]; rfl) hlocking
  | resuming c i => exact absurd (by rw [hplace]; rfl) hlocking
  | inside i => exact absurd (by rw [hplace]; rfl) hholding
  | notifying g i => exact absurd (by rw [hplace]; rfl) hholding
  | queued c i => exact absurd (by rw [hplace]; rfl) hholding
  | unlocking c i => exact absurd (by rw [hplace]; rfl) hunlocking
  | leaving => exact absurd (by rw [hplace]; rfl) hunlocking

omit [DecidableEq γ] in
theorem kind_of_place {f : Nat} (h : t.places f = .outside ∨ ∃ c i, t.places f = .waiting c i) :
    (t.places f).kind = .away := by
  rcases h with hout | ⟨c, i, hwaiting⟩
  · rw [hout]
    rfl
  · rw [hwaiting]
    rfl

/-- Such fibers cannot go on. -/
theorem Quiet.of_places (hinv : Inv setting t)
    (hplaces : ∀ f, t.places f = .outside ∨ ∃ c i, t.places f = .waiting c i) : Quiet setting M t := by
  intro e t' h
  have hnot : ∀ f (place : Place ι γ), place ≠ .outside → (∀ c i, place ≠ .waiting c i) → t.places f ≠ place := by
    rintro f place hout hwaiting rfl
    rcases hplaces f with heq | ⟨c, i, heq⟩
    · exact hout heq
    · exact hwaiting c i heq
  have h : CoMonitor.step setting M t e = some t' := h
  cases e with
  | call f i => exact ⟨f, i, rfl⟩
  | mutex e =>
    obtain ⟨⟨hinner, henabled⟩, -⟩ := Option.ite_none_right_eq_some.1 h
    have hkind := kind_inner (hinv.fits (fiber e)) hinner henabled
    rw [kind_of_place (hplaces _)] at hkind
    simp at hkind
  | run f =>
    simp only [CoMonitor.step] at h
    split at h
    case h_1 hf => exact absurd hf (hnot f _ (by simp) (by simp))
    case h_2 => cases h
  | unlock f =>
    simp only [CoMonitor.step] at h
    split at h
    case h_1 hf => exact absurd hf (hnot f _ (by simp) (by simp))
    case h_2 => cases h
  | schedule f =>
    simp only [CoMonitor.step] at h
    split at h
    case h_1 hf => exact absurd hf (hnot f _ (by simp) (by simp))
    case h_2 => cases h
  | resume f =>
    simp only [CoMonitor.step] at h
    split at h
    case h_1 hf => exact absurd hf (hnot f _ (by simp) (by simp))
    case h_2 => cases h

/-- Unless a fiber has queued up for the mutex unnoticed, the mutex is free when no fiber can go on in a function, and
every fiber that is in one waits on a condition and is in its queue. -/
theorem quiet_of_reaches (hset : Fibers setting)
    (h : (machine setting M).Reaches Noticed (machine setting M).start t) (hquiet : Quiet setting M t) :
    t.mutex.locked = false ∧ t.mutex.waitQueue = [] ∧
      ∀ f, t.places f = .outside ∨ ∃ c i, t.places f = .waiting c i ∧ f ∈ t.queue c := by
  obtain ⟨hinv, s, hreach, href⟩ := follows_of_reaches hset h
  obtain ⟨hattentive, haccounted⟩ := attentive_of_reaches hset h
  refine ⟨hquiet.locked_eq_false hinv haccounted, ?_, fun f => ?_⟩
  · apply List.eq_nil_iff_forall_not_mem.2
    intro f hf
    have hparked := hattentive.queues.queued f hf
    have hkind := (hinv.fits f).locking_of (.inr (.inr (.inl hparked)))
    exact hquiet.kind_ne_locking hinv hattentive haccounted f hkind
  · rcases hquiet.place hinv hattentive haccounted f with hout | ⟨c, i, hwaiting⟩
    · exact .inl hout
    · exact .inr ⟨c, i, hwaiting, href.mem_queue (Sound.of_reaches hreach) hwaiting⟩

/-- The `wait` of a latch goes on only when somebody counts down. -/
theorem quiet_awaiting : ∃ t : State Int CoCountDownLatch.Label Unit,
    (machine ownIds (CoCountDownLatch.monitor 1)).Reaches Noticed
      (machine ownIds (CoCountDownLatch.monitor 1)).start t ∧ Quiet ownIds (CoCountDownLatch.monitor 1) t ∧
      t.data = 1 ∧ t.places 0 = .waiting () .woken := by
  obtain ⟨t, hrun, hdata, hfirst, hothers⟩ : ∃ t, (machine ownIds (CoCountDownLatch.monitor 1)).run
      (machine ownIds (CoCountDownLatch.monitor 1)).start awaiting = some t ∧ t.data = 1 ∧
        t.places 0 = .waiting () .woken ∧ ∀ f, t.places (f + 1) = .outside := ⟨_, rfl, rfl, rfl, fun _ => rfl⟩
  have hreach : (machine ownIds (CoCountDownLatch.monitor 1)).Reaches Noticed
      (machine ownIds (CoCountDownLatch.monitor 1)).start t :=
    Machine.reaches_of_run_forall (fun t => by simp [awaiting, Noticed, CoMutex.Noticed]) hrun
  refine ⟨t, hreach, .of_places (follows_of_reaches ownIds_fibers hreach).1 fun f => ?_, hdata, hfirst⟩
  cases f with
  | zero => exact .inr ⟨(), .woken, hfirst⟩
  | succ f => exact .inl (hothers f)

theorem quiet_of_reaches_awaiting : ∃ t : State Int CoCountDownLatch.Label Unit,
    t.places 0 = .waiting () .woken ∧ t.mutex.locked = false ∧ 0 ∈ t.queue () := by
  obtain ⟨t, hreach, hquiet, -, hfirst⟩ := quiet_awaiting
  obtain ⟨hfree, -, hplaces⟩ := quiet_of_reaches ownIds_fibers hreach hquiet
  refine ⟨t, hfirst, hfree, ?_⟩
  rcases hplaces 0 with hout | ⟨c, i, -, hmem⟩
  · rw [hfirst] at hout
    cases hout
  · exact hmem

/-- The state of the monitor in which nobody goes on. -/
theorem exists_rest (hset : Fibers setting) (h : (machine setting M).Reaches Noticed (machine setting M).start t)
    (hquiet : Quiet setting M t) : ∃ s, M.machine.Reaches Machine.any M.machine.start s ∧ s.data = t.data ∧
      s.holder = none ∧ (∀ c, s.woken c = []) ∧ ∀ f c i, t.places f = .waiting c i → s.queue c ≠ [] := by
  obtain ⟨hinv, s, hreach, href⟩ := follows_of_reaches hset h
  obtain ⟨hattentive, haccounted⟩ := attentive_of_reaches hset h
  have hplace := hquiet.place hinv hattentive haccounted
  refine ⟨s, hreach, href.data, href.holder_eq_none fun f i hf => ?_, fun c => ?_, fun f c i hf => ?_⟩
  · rcases hplace f with hout | ⟨c, j, hwaiting⟩
    · rw [hout] at hf
      cases hf
    · rw [hwaiting] at hf
      cases hf
  · apply List.eq_nil_iff_forall_not_mem.2
    intro f hf
    rw [href.woken] at hf
    rcases hplace f with hout | ⟨c', j, hwaiting⟩
    · rw [hout] at hf
      cases hf
    · rw [hwaiting] at hf
      cases hf
  · rw [href.queue]
    exact List.ne_nil_of_mem (href.mem_queue (Sound.of_reaches hreach) hf)

end CoMonitor

end AcidCompute

import Mathlib.Logic.Relation

/-!
# State machines

A machine has a start and a partial step function: an event that is not enabled leads nowhere.  A run may be restricted
to events that the state allows, and what every allowed step preserves holds of every state that is reached
(`Reaches.invariant`).
-/

namespace AcidCompute

structure Machine (σ ε : Type) where
  start : σ
  step : σ → ε → Option σ

namespace Machine

variable {σ ε : Type} (M : Machine σ ε)

/-- Every event is allowed. -/
def any : σ → ε → Prop := fun _ _ => True

/-- A step by an allowed event. -/
def Move (Allowed : σ → ε → Prop) (s s' : σ) : Prop := ∃ e, Allowed s e ∧ M.step s e = some s'

/-- A run by allowed events. -/
def Reaches (Allowed : σ → ε → Prop) : σ → σ → Prop := Relation.ReflTransGen (M.Move Allowed)

/-- The state after a list of events. -/
def run : σ → List ε → Option σ
  | s, [] => some s
  | s, e :: es => (M.step s e).bind fun s' => run s' es

variable {M} {Allowed : σ → ε → Prop} {s s' s'' : σ} {e : ε}

theorem Reaches.refl : M.Reaches Allowed s s := Relation.ReflTransGen.refl

theorem Reaches.trans (h : M.Reaches Allowed s s') (h' : M.Reaches Allowed s' s'') : M.Reaches Allowed s s'' :=
  Relation.ReflTransGen.trans h h'

theorem Reaches.single (ha : Allowed s e) (h : M.step s e = some s') : M.Reaches Allowed s s' :=
  Relation.ReflTransGen.single ⟨e, ha, h⟩

theorem Reaches.head (ha : Allowed s e) (h : M.step s e = some s') (h' : M.Reaches Allowed s' s'') :
    M.Reaches Allowed s s'' := (Reaches.single ha h).trans h'

theorem Reaches.mono {Allowed' : σ → ε → Prop} (hle : ∀ s e, Allowed s e → Allowed' s e)
    (h : M.Reaches Allowed s s') : M.Reaches Allowed' s s' :=
  Relation.ReflTransGen.mono (fun _ _ ⟨e, ha, heq⟩ => ⟨e, hle _ e ha, heq⟩) _ _ h

/-- What every allowed step from a state that is reached preserves holds in every state that is reached. -/
theorem Reaches.invariant_along {I : σ → Prop}
    (hstep : ∀ t e t', M.Reaches Allowed s t → I t → Allowed t e → M.step t e = some t' → I t')
    (h : M.Reaches Allowed s s') (hs : I s) : I s' := by
  induction h with
  | refl => exact hs
  | tail hreach hmove ih =>
    obtain ⟨e, ha, heq⟩ := hmove
    exact hstep _ e _ hreach ih ha heq

/-- What every allowed step preserves holds in every state that is reached. -/
theorem Reaches.invariant {I : σ → Prop} (hstep : ∀ s e s', I s → Allowed s e → M.step s e = some s' → I s')
    (h : M.Reaches Allowed s s') (hs : I s) : I s' :=
  h.invariant_along (fun t e t' _ => hstep t e t') hs

/-- The step leads to a state with the property. -/
def Keeps (M : Machine σ ε) (P : σ → Prop) : σ → ε → Prop := fun s e => ∀ s', M.step s e = some s' → P s'

/-- Where the allowed steps are those that keep a property, it holds all along a run just if the run takes allowed steps
only.  An invariant may help to tell them apart. -/
theorem reaches_keeps_iff {I P : σ → Prop} (hs : I s) (hP : P s)
    (hinv : ∀ t e t', I t → M.step t e = some t' → I t')
    (hiff : ∀ t e t', I t → P t → M.step t e = some t' → (P t' ↔ Allowed t e)) :
    M.Reaches (M.Keeps P) s s' ↔ M.Reaches Allowed s s' := by
  have hboth : ∀ {t}, M.Reaches Allowed s t → M.Reaches (M.Keeps P) s t ∧ I t ∧ P t := by
    intro t h
    induction h with
    | refl => exact ⟨Relation.ReflTransGen.refl, hs, hP⟩
    | tail _ hmove ih =>
      obtain ⟨e, ha, hstep⟩ := hmove
      obtain ⟨hreach, hI, hold⟩ := ih
      have hnew := (hiff _ e _ hI hold hstep).2 ha
      refine ⟨Relation.ReflTransGen.tail hreach ⟨e, ?_, hstep⟩, hinv _ e _ hI hstep, hnew⟩
      intro t' ht'
      rw [hstep, Option.some.injEq] at ht'
      rwa [← ht']
  refine ⟨fun h => ?_, fun h => (hboth h).1⟩
  induction h with
  | refl => exact Relation.ReflTransGen.refl
  | tail _ hmove ih =>
    obtain ⟨e, hkeeps, hstep⟩ := hmove
    obtain ⟨-, hI, hold⟩ := hboth ih
    exact Relation.ReflTransGen.tail ih ⟨e, (hiff _ e _ hI hold hstep).1 (hkeeps _ hstep), hstep⟩

/-- The run of a list of events that are allowed in every state. -/
theorem reaches_of_run_forall {es : List ε} (hall : ∀ t, ∀ e ∈ es, Allowed t e) (h : M.run s es = some s') :
    M.Reaches Allowed s s' := by
  induction es generalizing s with
  | nil => cases h; exact Reaches.refl
  | cons e es ih =>
    obtain ⟨s₁, hstep, hrun⟩ := Option.bind_eq_some_iff.1 h
    exact Reaches.head (hall s e List.mem_cons_self) hstep
      (ih (fun t e he => hall t e (List.mem_cons_of_mem _ he)) hrun)

theorem reaches_of_run {es : List ε} (h : M.run s es = some s') : M.Reaches any s s' :=
  reaches_of_run_forall (fun _ _ _ => trivial) h

/-- The machine that takes the allowed steps only. -/
def guarded (M : Machine σ ε) (Allowed : σ → ε → Prop) [∀ s e, Decidable (Allowed s e)] : Machine σ ε where
  start := M.start
  step s e := if Allowed s e then M.step s e else none

theorem Reaches.of_guarded [∀ s e, Decidable (Allowed s e)] (h : (M.guarded Allowed).Reaches any s s') :
    M.Reaches Allowed s s' := by
  refine Relation.ReflTransGen.mono ?_ _ _ h
  rintro t t' ⟨e, -, hstep⟩
  by_cases ha : Allowed t e
  · exact ⟨e, ha, (if_pos ha).symm.trans hstep⟩
  · have hnone : (M.guarded Allowed).step t e = none := if_neg ha
    rw [hnone] at hstep
    cases hstep

/-- A run that can be evaluated, and what holds at its end. -/
theorem exists_reaches_of_run {P : σ → Prop} [DecidablePred P] (es : List ε) (hall : ∀ t, ∀ e ∈ es, Allowed t e)
    (h : ((M.run s es).any fun s' => decide (P s')) = true) : ∃ s', M.Reaches Allowed s s' ∧ P s' := by
  obtain ⟨s', hrun, hP⟩ := (Option.any_eq_true _ _).1 h
  exact ⟨s', reaches_of_run_forall hall hrun, of_decide_eq_true hP⟩

/-- The same where the state decides what is allowed. -/
theorem exists_reaches_of_guarded [∀ s e, Decidable (Allowed s e)] {P : σ → Prop} [DecidablePred P] (es : List ε)
    (h : (((M.guarded Allowed).run s es).any fun s' => decide (P s')) = true) :
    ∃ s', M.Reaches Allowed s s' ∧ P s' := by
  obtain ⟨s', hreach, hP⟩ := exists_reaches_of_run (M := M.guarded Allowed) es (fun _ _ _ => trivial) h
  exact ⟨s', hreach.of_guarded, hP⟩

end Machine

end AcidCompute

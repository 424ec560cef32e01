import AcidCompute.Timer.Deadlines

/-!
# Timers in front of the others

Whoever waits for the first deadline has to be told when a timer comes in front of it.  A call does that once, and then
not again before somebody has asked for the first deadline (`m_ticked`).  A call that tells nobody, though nobody has
been told yet, leaves every deadline at or behind one that was there before (`Timers.Consistent.told_or_quiet`).
-/

namespace AcidCompute

variable {κ : Type}

namespace TimerManager

variable {m m' : TimerManager κ} {p : Nat}

/-- The same has been told before and after a call. -/
def SameTold (m m' : TimerManager κ) : Prop := m'.ticked = m.ticked ∧ m'.insertedAtFront = m.insertedAtFront

theorem SameTold.refl (m : TimerManager κ) : SameTold m m := ⟨rfl, rfl⟩

theorem SameTold.trans {m₁ m₂ m₃ : TimerManager κ} (h : SameTold m₁ m₂) (h' : SameTold m₂ m₃) : SameTold m₁ m₃ :=
  ⟨h'.1.trans h.1, h'.2.trans h.2⟩

/-- Nobody is told by a call, and nobody has to be. -/
structure Quiet (m m' : TimerManager κ) : Prop where
  same : SameTold m m'
  behind : m.ticked = true ∨ ∀ q ∈ m'.timers, ∃ q' ∈ m.timers, (m.objects q').next ≤ (m'.objects q).next

/-- A timer that is put behind another one is not in front. -/
theorem addTimerLocked_told : m.insertedAtFront < (m.addTimerLocked p).insertedAtFront ∨
    SameTold m (m.addTimerLocked p) ∧ (m.ticked = true ∨ ∃ q ∈ m.timers, Timer.Before m.objects q p) := by
  unfold addTimerLocked
  dsimp only
  split
  case isTrue => exact .inl (Nat.lt_succ_self _)
  case isFalse hnot =>
    refine .inr ⟨⟨rfl, rfl⟩, ?_⟩
    by_cases hticked : m.ticked = true
    · exact .inl hticked
    · right
      have hbehind : (OrderedSet.insert (Timer.Before m.objects) p m.timers).2 ≠ 0 :=
        fun hzero => hnot ⟨hzero, Bool.eq_false_iff.2 hticked⟩
      cases htimers : m.timers with
      | nil =>
        rw [htimers] at hbehind
        exact absurd rfl hbehind
      | cons front rest =>
        refine ⟨front, List.mem_cons_self, ?_⟩
        by_contra hnotBefore
        rw [htimers, OrderedSet.insert_cons_of_not_lt hnotBefore] at hbehind
        exact hbehind rfl

theorem eraseAt_told (it : Nat) (m : TimerManager κ) : SameTold m ((eraseAt it).after m) := by
  unfold eraseAt
  rw [Op.after_get_bind]
  split
  case h_1 => exact SameTold.refl m
  case h_2 => exact ⟨rfl, rfl⟩

end TimerManager

namespace Timer

open TimerManager

variable {m : TimerManager κ} {p : Nat}

theorem cancel_told : SameTold m ((cancel p).after m) := by
  unfold cancel
  rw [Op.after_get_bind]
  split
  case isTrue =>
    rw [Op.after_set_bind]
    have herased := eraseAt_told ((m.store p { m.objects p with callback := none }).find p)
      (m.store p { m.objects p with callback := none })
    exact Op.after_bind_keeps (K := SameTold) (fun _ _ _ => SameTold.trans) herased fun _ m' => SameTold.refl m'
  case isFalse => exact SameTold.refl m

theorem refresh_told (now : BitVec 64) : SameTold m ((refresh p now).after m) := by
  unfold refresh
  rw [Op.after_get_bind]
  split
  case isTrue => exact SameTold.refl m
  case isFalse =>
    split
    case isTrue => exact SameTold.refl m
    case isFalse =>
      exact Op.after_bind_keeps (K := SameTold) (fun _ _ _ => SameTold.trans) (eraseAt_told _ m) fun _ m' => ⟨rfl, rfl⟩

/-- A timer whose deadline is set anew is put into the set again. -/
theorem reset_eq (ms : BitVec 64) (fromNow : Bool) (now : BitVec 64) (h : m.Ordered) (hp : p ∈ m.timers)
    (hcb : (m.objects p).callback.isSome) (hnew : ¬ (ms = (m.objects p).ms ∧ fromNow = false)) :
    ∃ t : Timer κ, reset p ms fromNow now m = .ok true (((m.without p).store p t).addTimerLocked p) := by
  obtain ⟨hsome, hfound⟩ := find_ne h hp hcb
  refine ⟨{ m.objects p with
    ms := ms, next := (if fromNow then now else (m.objects p).next - (m.objects p).ms) + ms }, ?_⟩
  unfold reset
  rw [Op.get_bind_apply, if_neg hnew, hsome, if_neg (by decide), if_neg hfound, Op.bind_of_ok (eraseAt_find h hp)]
  rfl

end Timer

namespace TimerManager

variable {m m' : TimerManager κ} {p : Nat}

/-- A timer is put into the set, and the others stay as they are. -/
theorem addTimerLocked_quiet {t : Timer κ} (hp : p ∉ m.timers) (hnull : ∀ q ∈ m.timers, q ≠ Timer.null) :
    m.insertedAtFront < ((m.store p t).addTimerLocked p).insertedAtFront ∨
      Quiet m ((m.store p t).addTimerLocked p) := by
  have hkept : ∀ q ∈ m.timers, (m.store p t).objects q = m.objects q := by
    intro q hq
    have hne : q ≠ p := by
      rintro rfl
      exact hp hq
    exact Function.update_of_ne hne _ _
  refine (addTimerLocked_told (m := m.store p t) (p := p)).imp id ?_
  rintro ⟨hsame, hbehind⟩
  refine ⟨hsame, hbehind.imp id ?_⟩
  rintro ⟨front, hfront, hbefore⟩ q hq
  rcases mem_addTimerLocked.1 hq with rfl | hold
  · refine ⟨front, hfront, ?_⟩
    rw [addTimerLocked_objects, ← hkept front hfront]
    exact hbefore.next_le (hnull front hfront)
  · refine ⟨q, hold, ?_⟩
    rw [addTimerLocked_objects, hkept q hold]
    exact BitVec.le_refl _

/-- The timer may have been in the set. -/
theorem Quiet.of_without (h : Quiet (m.without p) m') : Quiet m m' := by
  refine ⟨h.same, h.behind.imp id fun hbehind q hq => ?_⟩
  obtain ⟨q', hmem, hle⟩ := hbehind q hq
  exact ⟨q', (mem_without.1 hmem).1, hle⟩

end TimerManager

namespace Timers

open TimerManager

variable {s : State κ} {e : Event κ}

/-- `refresh` does not bring a deadline forward. -/
def Delays (s : State κ) : Event κ → Prop
  | .refresh p now => (s.manager.objects p).next ≤ now + (s.manager.objects p).ms
  | _ => True

instance (s : State κ) : (e : Event κ) → Decidable (Delays s e)
  | .refresh _ _ => inferInstanceAs (Decidable (_ ≤ _))
  | .addTimer _ _ _ _ _ | .cancel _ | .reset _ _ _ _ | .listExpiredCallback _ _ | .release _ =>
    inferInstanceAs (Decidable True)

theorem State.call_manager (op : Op (TimerManager κ) Bool) (p : Nat) (reading : Option (BitVec 64)) :
    (s.call op p reading).manager = op.after s.manager := by
  unfold State.call Op.after
  split <;> rename_i hop <;> rw [hop]

/-- The set loses timers, and keeps the others. -/
theorem Called.quiet {p : Nat} {cancelled : Bool} {s' : State κ} (h : Called s p cancelled s')
    (hsame : SameTold s.manager s'.manager) (hlate : p ∈ s'.manager.timers →
      (s.manager.objects p).next ≤ (s'.manager.objects p).next) : Quiet s.manager s'.manager := by
  refine ⟨hsame, .inr ?_⟩
  intro q hq
  cases h with
  | same hstate hnone =>
    rw [hstate] at hq ⊢
    exact ⟨q, hq, BitVec.le_refl _⟩
  | changed hstate hobjects hordered hmem hcallback htimers hnext =>
    subst hstate
    have hold := ((htimers q).1 hq).1
    refine ⟨q, hold, ?_⟩
    by_cases heq : q = p
    · rw [heq] at hq ⊢
      exact hlate hq
    · show _ ≤ Timer.next (_ : Timer κ)
      rw [hobjects, Function.update_of_ne heq]
      exact BitVec.le_refl _

theorem Consistent.told_or_quiet (h : Consistent s) (henabled : Enabled s e) (hdelays : Delays s e)
    (hforeign : ∀ now p, e ≠ .listExpiredCallback now p) :
    s.manager.insertedAtFront < (Timers.next s e).manager.insertedAtFront ∨
      Quiet s.manager (Timers.next s e).manager := by
  have hnull : ∀ q ∈ s.manager.timers, q ≠ Timer.null := fun q hq => h.nonnull q (h.allocated q hq)
  cases e with
  | addTimer p ms cb recurring now => exact addTimerLocked_quiet (h.not_mem_of_free henabled) hnull
  | cancel p =>
    right
    apply (h.called_cancel henabled).quiet
    · rw [Timers.next, State.call_manager]
      exact Timer.cancel_told
    · intro hmem
      have hsome := ((h.cancel henabled).mem_iff p (h.callback_cancel henabled).1).1 hmem
      rw [(h.callback_cancel henabled).2] at hsome
      cases hsome
  | refresh p now =>
    right
    apply (h.called_refresh henabled now).quiet
    · rw [Timers.next, State.call_manager]
      exact Timer.refresh_told now
    · intro hmem
      rw [Timers.next, State.call_manager, Op.after]
      rcases h.none_or_mem henabled with hnone | ⟨hin, hsome⟩
      · rw [Timer.refresh_of_none now hnone]
        exact BitVec.le_refl _
      · obtain ⟨m, hop, hobjects, -⟩ := Timer.refresh_spec now h.ordered hin hsome
        rw [hop]
        dsimp only
        rw [hobjects, Function.update_self]
        exact hdelays
  | reset p ms fromNow now =>
    rw [Timers.next, State.call_manager]
    by_cases hsame : ms = (s.manager.objects p).ms ∧ fromNow = false
    · obtain ⟨hms, rfl⟩ := hsame
      right
      rw [Op.after, Timer.reset_of_same ms now hms]
      exact ⟨SameTold.refl _, .inr fun q hq => ⟨q, hq, BitVec.le_refl _⟩⟩
    · rcases h.none_or_mem henabled with hnone | ⟨hin, hsome⟩
      · right
        rw [Op.after, Timer.reset_of_none ms fromNow now hnone hsame]
        exact ⟨SameTold.refl _, .inr fun q hq => ⟨q, hq, BitVec.le_refl _⟩⟩
      · obtain ⟨t, hop⟩ := Timer.reset_eq ms fromNow now h.ordered hin hsome hsame
        rw [Op.after, hop]
        have hout : p ∉ (s.manager.without p).timers := fun hmem => (mem_without.1 hmem).2 rfl
        have hquiet := addTimerLocked_quiet (t := t) hout fun q hq => hnull q (mem_without.1 hq).1
        exact hquiet.imp id Quiet.of_without
  | listExpiredCallback now p => exact absurd rfl (hforeign now p)
  | release p => exact .inr ⟨SameTold.refl _, .inr fun q hq => ⟨q, hq, BitVec.le_refl _⟩⟩

end Timers

end AcidCompute

import AcidCompute.Timer.Basic

/-!
# What the operations on timers do to the set

A timer is taken out of the set before its deadline changes, so the set stays in order and every search finds its
timer (`Timer.cancel_spec`, `Timer.refresh_spec`, `Timer.reset_spec`).
-/

namespace AcidCompute

variable {κ : Type} {m : TimerManager κ} {p q : Nat}

namespace Timer

/-- The order of two timers depends on nothing but their deadlines. -/
theorem before_update_of_ne {objects : Nat → Timer κ} {t : Timer κ} {q q' : Nat} (hq : q ≠ p) (hq' : q' ≠ p) :
    Before (Function.update objects p t) q q' ↔ Before objects q q' := by
  simp only [before_iff, Function.update_of_ne hq, Function.update_of_ne hq']

theorem before_update_of_next_eq {objects : Nat → Timer κ} {t : Timer κ} (h : t.next = (objects p).next)
    {q q' : Nat} : Before (Function.update objects p t) q q' ↔ Before objects q q' := by
  have hnext : ∀ x, (Function.update objects p t x).next = (objects x).next := by
    intro x
    by_cases hx : x = p
    · rw [hx, Function.update_self, h]
    · rw [Function.update_of_ne hx]
  simp only [before_iff, hnext]

end Timer

namespace TimerManager

/-- The timers are strictly increasing under the comparator. -/
def Ordered (m : TimerManager κ) : Prop := OrderedSet.Sorted (Timer.Before m.objects) m.timers

/-- The set without a timer. -/
def without (m : TimerManager κ) (p : Nat) : TimerManager κ := { m with timers := m.timers.filter fun q => q ≠ p }

@[simp] theorem store_timers {t : Timer κ} : (m.store p t).timers = m.timers := rfl

@[simp] theorem store_objects {t : Timer κ} : (m.store p t).objects = Function.update m.objects p t := rfl

@[simp] theorem insertTimer_objects : (m.insertTimer p).1.objects = m.objects := rfl

theorem mem_insertTimer : q ∈ (m.insertTimer p).1.timers ↔ q = p ∨ q ∈ m.timers := OrderedSet.mem_insert

theorem Ordered.insertTimer (h : m.Ordered) : (m.insertTimer p).1.Ordered := OrderedSet.Sorted.insert h

/-- An object outside of the set may change. -/
theorem Ordered.store (h : m.Ordered) (hp : p ∉ m.timers) (t : Timer κ) : (m.store p t).Ordered := by
  refine List.Pairwise.imp_of_mem ?_ h
  intro q q' hq hq' hbefore
  have hne : q ≠ p := fun heq => hp (heq ▸ hq)
  have hne' : q' ≠ p := fun heq => hp (heq ▸ hq')
  exact (Timer.before_update_of_ne hne hne').2 hbefore

/-- Where the deadline stays, the object may be in the set. -/
theorem Ordered.store_of_next_eq (h : m.Ordered) {t : Timer κ} (ht : t.next = (m.objects p).next) :
    (m.store p t).Ordered := by
  refine List.Pairwise.imp ?_ h
  intro q q' hbefore
  exact (Timer.before_update_of_next_eq ht).2 hbefore

/-- The checks in front of a change are passed by a timer in the set. -/
theorem find_ne (h : m.Ordered) (hp : p ∈ m.timers) (hcb : (m.objects p).callback.isSome) :
    (m.objects p).callback.isNone = false ∧ m.find p ≠ m.timers.length := by
  refine ⟨?_, Nat.ne_of_lt (OrderedSet.find_lt_length h hp)⟩
  rw [← Option.not_isSome, hcb]
  rfl

/-- `erase(find(timer))` -/
theorem eraseAt_find (h : m.Ordered) (hp : p ∈ m.timers) :
    eraseAt (m.find p) m = .ok () (m.without p) := by
  have herase : OrderedSet.erase (m.find p) m.timers = some (m.timers.filter fun q => q ≠ p) :=
    OrderedSet.erase_find h hp
  unfold eraseAt
  rw [Op.get_bind_apply, herase]
  rfl

@[simp] theorem addTimerLocked_objects : (m.addTimerLocked p).objects = m.objects := by
  unfold addTimerLocked
  dsimp only
  split <;> rfl

private theorem addTimerLocked_timers : (m.addTimerLocked p).timers = (m.insertTimer p).1.timers := by
  unfold addTimerLocked
  dsimp only
  split <;> rfl

theorem mem_addTimerLocked : q ∈ (m.addTimerLocked p).timers ↔ q = p ∨ q ∈ m.timers := by
  rw [addTimerLocked_timers, mem_insertTimer]

theorem Ordered.addTimerLocked (h : m.Ordered) : (m.addTimerLocked p).Ordered := by
  have hinsert : (m.insertTimer p).1.Ordered := h.insertTimer
  unfold Ordered at hinsert ⊢
  rwa [addTimerLocked_objects, addTimerLocked_timers]

theorem mem_without : q ∈ (m.without p).timers ↔ q ∈ m.timers ∧ q ≠ p := by
  simp [without]

theorem Ordered.without (h : m.Ordered) : (m.without p).Ordered := OrderedSet.Sorted.filter h _

/-- A timer that is not in the set is free to change. -/
theorem Ordered.without_store (h : m.Ordered) (t : Timer κ) : ((m.without p).store p t).Ordered := by
  apply h.without.store
  simp [mem_without]

private theorem or_mem_without (hp : p ∈ m.timers) : q = p ∨ q ∈ (m.without p).timers ↔ q ∈ m.timers := by
  rw [mem_without]
  by_cases heq : q = p
  · simp [heq, hp]
  · simp [heq]

end TimerManager

namespace Timer

open TimerManager

theorem cancel_of_none (h : (m.objects p).callback = none) : cancel p m = .ok false m := by
  unfold cancel
  rw [Op.get_bind_apply, h]
  rfl

/-- A timer in the set is found after its callback is gone, since its deadline is the same. -/
theorem cancel_spec (h : m.Ordered) (hp : p ∈ m.timers) (hcb : (m.objects p).callback.isSome) :
    ∃ m', cancel p m = .ok true m' ∧
      m'.objects = Function.update m.objects p { m.objects p with callback := none } ∧ m'.Ordered ∧
      ∀ q, q ∈ m'.timers ↔ q ∈ m.timers ∧ q ≠ p := by
  have hstore : (m.store p { m.objects p with callback := none }).Ordered := h.store_of_next_eq rfl
  have herase := eraseAt_find hstore hp
  refine ⟨(m.store p { m.objects p with callback := none }).without p, ?_, rfl, hstore.without, ?_⟩
  · unfold cancel
    rw [Op.get_bind_apply, if_pos hcb]
    exact (Op.set_bind_apply _ _ _).trans (Op.bind_of_ok herase)
  · intro q
    exact mem_without

theorem refresh_of_none (now : BitVec 64) (h : (m.objects p).callback = none) : refresh p now m = .ok false m := by
  unfold refresh
  rw [Op.get_bind_apply, h]
  rfl

theorem refresh_spec (now : BitVec 64) (h : m.Ordered) (hp : p ∈ m.timers) (hcb : (m.objects p).callback.isSome) :
    ∃ m', refresh p now m = .ok true m' ∧
      m'.objects = Function.update m.objects p { m.objects p with next := now + (m.objects p).ms } ∧ m'.Ordered ∧
      ∀ q, q ∈ m'.timers ↔ q ∈ m.timers := by
  obtain ⟨hsome, hfound⟩ := find_ne h hp hcb
  refine ⟨(((m.without p).store p { m.objects p with next := now + (m.objects p).ms }).insertTimer p).1, ?_, rfl,
    (h.without_store _).insertTimer, ?_⟩
  · unfold refresh
    rw [Op.get_bind_apply, hsome, if_neg (by decide), if_neg hfound, Op.bind_of_ok (eraseAt_find h hp)]
    rfl
  · intro q
    rw [mem_insertTimer]
    exact or_mem_without hp

theorem reset_of_same (ms : BitVec 64) (now : BitVec 64) (hms : ms = (m.objects p).ms) :
    reset p ms false now m = .ok true m := by
  unfold reset
  rw [Op.get_bind_apply, if_pos ⟨hms, rfl⟩]
  rfl

theorem reset_of_none (ms : BitVec 64) (fromNow : Bool) (now : BitVec 64) (h : (m.objects p).callback = none)
    (hnew : ¬ (ms = (m.objects p).ms ∧ fromNow = false)) : reset p ms fromNow now m = .ok false m := by
  unfold reset
  rw [Op.get_bind_apply, if_neg hnew, h]
  rfl

theorem reset_spec (ms : BitVec 64) (fromNow : Bool) (now : BitVec 64) (h : m.Ordered) (hp : p ∈ m.timers)
    (hcb : (m.objects p).callback.isSome) (hnew : ¬ (ms = (m.objects p).ms ∧ fromNow = false)) :
    ∃ m', reset p ms fromNow now m = .ok true m' ∧
      m'.objects = Function.update m.objects p { m.objects p with
        ms := ms, next := (if fromNow then now else (m.objects p).next - (m.objects p).ms) + ms } ∧ m'.Ordered ∧
      ∀ q, q ∈ m'.timers ↔ q ∈ m.timers := by
  obtain ⟨hsome, hfound⟩ := find_ne h hp hcb
  refine ⟨((m.without p).store p { m.objects p with
    ms := ms, next := (if fromNow then now else (m.objects p).next - (m.objects p).ms) + ms }).addTimerLocked p, ?_,
    addTimerLocked_objects, (h.without_store _).addTimerLocked, ?_⟩
  · unfold reset
    rw [Op.get_bind_apply, if_neg hnew, hsome, if_neg (by decide), if_neg hfound, Op.bind_of_ok (eraseAt_find h hp)]
    rfl
  · intro q
    rw [mem_addTimerLocked]
    exact or_mem_without hp

end Timer

end AcidCompute

import AcidCompute.Timer.Order
import Mathlib.Data.List.TakeWhile

/-!
# The timers that expire

The probe that `list_expired_callback` searches with has an address of its own, which decides between deadlines that
equal `now`.  The scan behind the lower bound makes up for that: the timers that are taken out are those with a
deadline not after `now` (`take_expiredEnd`).
-/

namespace AcidCompute

variable {κ : Type}

namespace Timer

/-- What becomes of a timer that expires. -/
def fired (now : BitVec 64) (t : Timer κ) : Timer κ :=
  if t.recurring then { t with next := now + t.ms } else { t with callback := none }

theorem Before.next_le {objects : Nat → Timer κ} {p q : Nat} (h : Before objects p q) (hp : p ≠ null) :
    (objects p).next ≤ (objects q).next := by
  rcases (before_iff.1 h).2 with hnull | hlt | ⟨hge, -⟩
  · exact absurd hnull hp
  · exact BitVec.le_of_lt hlt
  · exact BitVec.not_lt.1 hge

end Timer

namespace TimerManager

variable {m : TimerManager κ} {now : BitVec 64} {nowTimer : Nat}

/-- The timers that the next call takes out of the set: all of them when the clock has been set back. -/
def expired (m : TimerManager κ) (now : BitVec 64) : List Nat :=
  m.timers.filter fun p => (m.detectClockRollover now).1 = true ∨ (m.objects p).next ≤ now

@[simp] theorem detectClockRollover_timers : (m.detectClockRollover now).2.timers = m.timers := rfl

@[simp] theorem detectClockRollover_objects : (m.detectClockRollover now).2.objects = m.objects := rfl

/-! ### The expired part of the set -/

private theorem lt_of_mem_dropWhile {objects : Nat → Timer κ} {l : List Nat}
    (h : OrderedSet.Sorted (Timer.Before objects) l) (hnull : ∀ p ∈ l, p ≠ Timer.null)
    (hge : ∀ p ∈ l, now ≤ (objects p).next) :
    ∀ p ∈ l.dropWhile fun p => (objects p).next = now, now < (objects p).next := by
  induction l with
  | nil => simp
  | cons a l ih =>
    obtain ⟨hfirst, hrest⟩ := OrderedSet.sorted_cons.1 h
    by_cases ha : (objects a).next = now
    · simp only [List.dropWhile_cons, ha, decide_true, if_true]
      apply ih hrest
      · intro p hp
        exact hnull p (List.mem_cons_of_mem a hp)
      · intro p hp
        exact hge p (List.mem_cons_of_mem a hp)
    · have hlt : now < (objects a).next :=
        BitVec.lt_of_le_ne (hge a List.mem_cons_self) (Ne.symm ha)
      simp only [List.dropWhile_cons, ha, decide_false, Bool.false_eq_true, if_false]
      intro p hp
      rcases List.mem_cons.1 hp with rfl | hmem
      · exact hlt
      · exact Nat.lt_of_lt_of_le hlt ((hfirst p hmem).next_le (hnull a List.mem_cons_self))

private theorem take_scanned (p : Nat → Bool) (s : List Nat) (it : Nat) :
    s.take (it + ((s.drop it).takeWhile p).length) = s.take it ++ (s.drop it).takeWhile p ∧
      s.drop (it + ((s.drop it).takeWhile p).length) = (s.drop it).dropWhile p := by
  constructor
  · rw [List.take_add]
    congr 1
    exact (List.prefix_iff_eq_take.1 (List.takeWhile_prefix p)).symm
  · have happend := List.takeWhile_append_dropWhile (p := p) (l := s.drop it)
    rw [← List.drop_drop]
    calc (s.drop it).drop ((s.drop it).takeWhile p).length
        = ((s.drop it).takeWhile p ++ (s.drop it).dropWhile p).drop ((s.drop it).takeWhile p).length := by rw [happend]
      _ = (s.drop it).dropWhile p := List.drop_left

/-- In front of the lower bound of the probe, and behind it. -/
private theorem next_lowerBound (h : m.Ordered) (hnull : ∀ p ∈ m.timers, p ≠ Timer.null)
    (hprobe : nowTimer ≠ Timer.null) (hfresh : nowTimer ∉ m.timers) (hnow : (m.objects nowTimer).next = now) :
    (∀ p ∈ m.timers.take (OrderedSet.lowerBound (Timer.Before m.objects) nowTimer m.timers),
        (m.objects p).next ≤ now) ∧
      ∀ p ∈ m.timers.drop (OrderedSet.lowerBound (Timer.Before m.objects) nowTimer m.timers),
        now ≤ (m.objects p).next := by
  rw [OrderedSet.take_lowerBound h, OrderedSet.drop_lowerBound h]
  constructor
  · intro p hp
    obtain ⟨hmem, hbefore⟩ := List.mem_filter.1 hp
    rw [← hnow]
    exact Timer.Before.next_le (of_decide_eq_true hbefore) (hnull p hmem)
  · intro p hp
    obtain ⟨hmem, hnot⟩ := List.mem_filter.1 hp
    have hne : nowTimer ≠ p := fun heq => hfresh (heq ▸ hmem)
    have hafter : Timer.Before m.objects nowTimer p := by
      by_contra hnot'
      exact hne (Std.Trichotomous.trichotomous nowTimer p hnot' (of_decide_eq_true hnot))
    rw [← hnow]
    exact hafter.next_le hprobe

/-- The lower bound and the scan stop behind the last timer that is due. -/
theorem take_expiredEnd (h : m.Ordered) (hnull : ∀ p ∈ m.timers, p ≠ Timer.null) (hprobe : nowTimer ≠ Timer.null)
    (hfresh : nowTimer ∉ m.timers) (hnow : (m.objects nowTimer).next = now) :
    m.timers.take (m.expiredEnd now nowTimer false) = m.timers.filter (fun p => (m.objects p).next ≤ now) ∧
      m.timers.drop (m.expiredEnd now nowTimer false) = m.timers.filter (fun p => ¬ (m.objects p).next ≤ now) := by
  obtain ⟨hless, hgreater⟩ := next_lowerBound h hnull hprobe hfresh hnow
  obtain ⟨htake, hdrop⟩ := take_scanned (fun p => (m.objects p).next = now) m.timers
    (OrderedSet.lowerBound (Timer.Before m.objects) nowTimer m.timers)
  have hdue : ∀ p ∈ m.timers.take (m.expiredEnd now nowTimer false), (m.objects p).next ≤ now := by
    intro p hp
    rw [expiredEnd, if_neg (by decide), htake] at hp
    rcases List.mem_append.1 hp with hmem | hmem
    · exact hless p hmem
    · have heq := List.mem_takeWhile_imp hmem
      exact BitVec.le_of_eq (of_decide_eq_true heq)
  have hlater : ∀ p ∈ m.timers.drop (m.expiredEnd now nowTimer false), now < (m.objects p).next := by
    rw [expiredEnd, if_neg (by decide), hdrop]
    apply lt_of_mem_dropWhile
    · exact List.Pairwise.sublist (List.drop_sublist _ m.timers) h
    · intro p hp
      exact hnull p (List.mem_of_mem_drop hp)
    · exact hgreater
  have hsplit := List.take_append_drop (m.expiredEnd now nowTimer false) m.timers
  constructor
  · conv => rhs; rw [← hsplit, List.filter_append]
    rw [List.filter_eq_self.2 fun p hp => decide_eq_true (hdue p hp), List.filter_eq_nil_iff.2 fun p hp => ?_,
      List.append_nil]
    simpa using hlater p hp
  · conv => rhs; rw [← hsplit, List.filter_append]
    rw [List.filter_eq_nil_iff.2 fun p hp => ?_, List.filter_eq_self.2 fun p hp => ?_, List.nil_append]
    · simpa using hlater p hp
    · simpa using hdue p hp

/-- After the clock has been set back, nothing stays in the set. -/
theorem expiredEnd_rollover : m.expiredEnd now nowTimer true = m.timers.length := by
  simp [expiredEnd]

/-! ### The loop over the expired timers -/

private theorem fire_eq (now : BitVec 64) (callbacks : List (Option κ)) (p : Nat) :
    ∃ m', fire now (callbacks, m) p = (callbacks ++ [(m.objects p).callback], m') ∧
      m'.objects = Function.update m.objects p ((m.objects p).fired now) ∧
      (m.Ordered → p ∉ m.timers → m'.Ordered) ∧
      ∀ q, q ∈ m'.timers ↔ q ∈ m.timers ∨ q = p ∧ (m.objects p).recurring = true := by
  by_cases hrec : (m.objects p).recurring = true
  · refine ⟨((m.store p { m.objects p with next := now + (m.objects p).ms }).insertTimer p).1, ?_, ?_, ?_, ?_⟩
    · simp [fire, hrec]
    · simp [Timer.fired, hrec]
    · intro h hp
      exact (h.store hp _).insertTimer
    · intro q
      rw [mem_insertTimer, store_timers, or_comm]
      simp [hrec]
  · refine ⟨m.store p { m.objects p with callback := none }, ?_, ?_, ?_, ?_⟩
    · simp [fire, hrec]
    · simp [Timer.fired, hrec]
    · intro h hp
      exact h.store hp _
    · intro q
      simp [hrec]

/-- Every timer fires once, in the order given, and the recurring ones are back in the set. -/
theorem foldl_fire (now : BitVec 64) {l : List Nat} (hnodup : l.Nodup) (callbacks : List (Option κ)) (h : m.Ordered)
    (hout : ∀ p ∈ l, p ∉ m.timers) :
    ∃ m', l.foldl (fire now) (callbacks, m) = (callbacks ++ l.map (fun p => (m.objects p).callback), m') ∧
      m'.Ordered ∧ (∀ q, m'.objects q = if q ∈ l then (m.objects q).fired now else m.objects q) ∧
      ∀ q, q ∈ m'.timers ↔ q ∈ m.timers ∨ q ∈ l ∧ (m.objects q).recurring = true := by
  induction l generalizing m callbacks with
  | nil => exact ⟨m, by simp, h, by simp, by simp⟩
  | cons p l ih =>
    obtain ⟨hnotin, hrest⟩ := List.nodup_cons.1 hnodup
    obtain ⟨m₁, heq, hobjects, hordered, htimers⟩ := fire_eq (m := m) now callbacks p
    have hout₁ : ∀ q ∈ l, q ∉ m₁.timers := by
      intro q hq hmem
      rcases (htimers q).1 hmem with hold | ⟨rfl, -⟩
      · exact hout q (List.mem_cons_of_mem p hq) hold
      · exact hnotin hq
    have hkept : ∀ q, q ≠ p → m₁.objects q = m.objects q := by
      intro q hq
      rw [hobjects, Function.update_of_ne hq]
    obtain ⟨m', hfold, hordered', hobjects', htimers'⟩ :=
      ih hrest (callbacks ++ [(m.objects p).callback]) (hordered h (hout p List.mem_cons_self)) hout₁
    refine ⟨m', ?_, hordered', ?_, ?_⟩
    · have hcallbacks : l.map (fun q => (m₁.objects q).callback) = l.map fun q => (m.objects q).callback := by
        apply List.map_congr_left
        intro q hq
        rw [hkept q (ne_of_mem_of_not_mem hq hnotin)]
      rw [List.foldl_cons, heq, hfold, hcallbacks, List.append_assoc]
      rfl
    · intro q
      rw [hobjects' q]
      by_cases hq : q = p
      · subst hq
        simp [hnotin, hobjects]
      · simp [hkept q hq, hq]
    · intro q
      rw [htimers' q, htimers q]
      by_cases hq : q = p
      · subst hq
        simp [hnotin]
      · simp [hkept q hq, hq]

/-! ### The whole call -/

theorem expired_sorted (now : BitVec 64) (h : m.Ordered) : OrderedSet.Sorted (Timer.Before m.objects) (m.expired now) :=
  OrderedSet.Sorted.filter h _

theorem mem_expired {p : Nat} :
    p ∈ m.expired now ↔ p ∈ m.timers ∧ ((m.detectClockRollover now).1 = true ∨ (m.objects p).next ≤ now) := by
  simp [expired]

private theorem mem_drop_iff {l : List Nat} (h : l.Nodup) (n : Nat) {q : Nat} :
    q ∈ l.drop n ↔ q ∈ l ∧ q ∉ l.take n := by
  have hsplit := List.take_append_drop n l
  have hdisjoint : ∀ a ∈ l.take n, ∀ b ∈ l.drop n, a ≠ b := by
    rw [← hsplit] at h
    exact (List.nodup_append.1 h).2.2
  constructor
  · intro hq
    refine ⟨List.mem_of_mem_drop hq, ?_⟩
    intro htake
    exact hdisjoint q htake q hq rfl
  · rintro ⟨hmem, hnot⟩
    rw [← hsplit] at hmem
    exact (List.mem_append.1 hmem).resolve_left hnot

/-- Once the probe is there, the front part of the set is what expires. -/
private theorem take_expired (h : m.Ordered) (hnull : ∀ p ∈ m.timers, p ≠ Timer.null) (hprobe : nowTimer ≠ Timer.null)
    (hfresh : nowTimer ∉ m.timers) :
    m.timers.take ((((m.detectClockRollover now).2.store nowTimer (Timer.probe now))).expiredEnd now nowTimer
      (m.detectClockRollover now).1) = m.expired now := by
  cases hrollover : (m.detectClockRollover now).1 with
  | true =>
    rw [expiredEnd_rollover]
    simp [expired, hrollover]
  | false =>
    have hordered : ((m.detectClockRollover now).2.store nowTimer (Timer.probe now)).Ordered :=
      Ordered.store (m := (m.detectClockRollover now).2) h hfresh _
    have hnow : (((m.detectClockRollover now).2.store nowTimer (Timer.probe now)).objects nowTimer).next = now := by
      simp [Timer.probe]
    have htake := (take_expiredEnd hordered hnull hprobe hfresh hnow).1
    refine htake.trans ?_
    apply List.filter_congr
    intro p hp
    have hne : p ≠ nowTimer := fun heq => hfresh (heq ▸ hp)
    simp [hrollover, Function.update_of_ne hne]

/-- If the first deadline is in the future, so are the others. -/
theorem expired_eq_nil {now : BitVec 64} (h : m.Ordered) (hnull : ∀ p ∈ m.timers, p ≠ Timer.null) {front : Nat}
    {rest : List Nat} (htimers : m.timers = front :: rest) (hrollover : (m.detectClockRollover now).1 = false)
    (hearly : (m.objects front).next > now) : m.expired now = [] := by
  rw [List.eq_nil_iff_forall_not_mem]
  intro p hp
  obtain ⟨hmem, hdue⟩ := mem_expired.1 hp
  rw [hrollover, or_iff_right Bool.false_ne_true] at hdue
  have hfront : (m.objects front).next ≤ (m.objects p).next := by
    unfold Ordered at h
    rw [htimers] at h hmem
    rcases List.mem_cons.1 hmem with rfl | hrest
    · exact BitVec.le_refl _
    · exact ((OrderedSet.sorted_cons.1 h).1 p hrest).next_le (hnull front (by simp [htimers]))
  exact absurd (BitVec.le_trans hfront hdue) (BitVec.not_le.2 hearly)

/-- The timers that are due, and no others, fire in the order of the set. -/
theorem listExpiredCallback_spec (now : BitVec 64) (callbacks : List (Option κ)) (h : m.Ordered)
    (hnull : ∀ p ∈ m.timers, p ≠ Timer.null) (hprobe : nowTimer ≠ Timer.null) (hfresh : nowTimer ∉ m.timers) :
    ∃ m', m.listExpiredCallback now nowTimer callbacks =
        (callbacks ++ (m.expired now).map (fun p => (m.objects p).callback), m') ∧
      m'.Ordered ∧
      (∀ q, q ≠ nowTimer → m'.objects q = if q ∈ m.expired now then (m.objects q).fired now else m.objects q) ∧
      ∀ q, q ∈ m'.timers ↔ q ∈ m.timers ∧ (q ∈ m.expired now → (m.objects q).recurring = true) := by
  unfold listExpiredCallback
  cases htimers : m.timers with
  | nil =>
    have hnone : m.expired now = [] := by simp [expired, htimers]
    exact ⟨m, by simp [hnone], h, by simp [hnone], by simp [htimers]⟩
  | cons front rest =>
    by_cases hearly : (m.detectClockRollover now).1 = false ∧ (m.objects front).next > now
    · have hnone := expired_eq_nil h hnull htimers hearly.1 hearly.2
      refine ⟨(m.detectClockRollover now).2, ?_, h, ?_, ?_⟩
      · rw [hnone, List.map_nil, List.append_nil]
        exact if_pos hearly
      · intro q _
        simp [hnone]
      · intro q
        simp [hnone, htimers]
    · let m₂ := (m.detectClockRollover now).2.store nowTimer (Timer.probe now)
      let it := m₂.expiredEnd now nowTimer (m.detectClockRollover now).1
      have htake : m.timers.take it = m.expired now := take_expired h hnull hprobe hfresh
      have hordered : m₂.Ordered := Ordered.store (m := (m.detectClockRollover now).2) h hfresh _
      have hnodup : m.timers.Nodup := OrderedSet.Sorted.nodup h
      have hleft : ({ m₂ with timers := m.timers.drop it } : TimerManager κ).Ordered :=
        List.Pairwise.sublist (List.drop_sublist it m.timers) hordered
      have hout : ∀ p ∈ m.expired now, p ∉ m.timers.drop it := by
        intro p hp hdrop
        exact ((mem_drop_iff hnodup it).1 hdrop).2 (htake ▸ hp)
      obtain ⟨m', hfold, hordered', hobjects, hmem⟩ :=
        foldl_fire now ((expired_sorted now h).nodup) callbacks hleft hout
      have hkept : ∀ q, q ≠ nowTimer → m₂.objects q = m.objects q := fun q hq => Function.update_of_ne hq _ _
      have hmember : ∀ q ∈ m.timers, q ≠ nowTimer := fun q hq heq => hfresh (heq ▸ hq)
      refine ⟨m', ?_, hordered', ?_, ?_⟩
      · have hcallbacks : (m.expired now).map (fun p => (m₂.objects p).callback) =
            (m.expired now).map fun p => (m.objects p).callback := by
          apply List.map_congr_left
          intro p hp
          rw [hkept p (hmember p (mem_expired.1 hp).1)]
        refine (if_neg hearly).trans ?_
        rw [← hcallbacks, ← hfold, ← htake]
        rfl
      · intro q hq
        rw [hobjects q]
        simp only [hkept q hq]
      · intro q
        rw [hmem q, mem_drop_iff hnodup, htake, ← htimers]
        constructor
        · rintro (⟨hold, hnot⟩ | ⟨hexpired, hrec⟩)
          · exact ⟨hold, fun hexpired => absurd hexpired hnot⟩
          · have hold := (mem_expired.1 hexpired).1
            rw [hkept q (hmember q hold)] at hrec
            exact ⟨hold, fun _ => hrec⟩
        · rintro ⟨hold, hrec⟩
          by_cases hexpired : q ∈ m.expired now
          · refine .inr ⟨hexpired, ?_⟩
            rw [hkept q (hmember q hold)]
            exact hrec hexpired
          · exact .inl ⟨hold, hexpired⟩

end TimerManager

end AcidCompute

import AcidCompute.Base.Monitor

/-!
# The latch of fibers (`CoCountDownLatch` in `acid/common/co_mutex.{h,cpp}`)

`wait` tests the count once, and not again when `m_cond.wait` returns.  Nobody but the `count_down` that makes the count
0 wakes a fiber, and the count stays 0 from then on, so that no `wait` returns before.  Those who wait are in the queue
until that call gets to `notify_all` (`CoCountDownLatch.latched_of_reaches`).
-/

namespace AcidCompute

open Monitor

namespace CoCountDownLatch

inductive Label
  | wait
  -- `m_cond.wait` returns
  | woken
  -- the end of `wait`
  | returned
  | countDown
  -- in front of `notify_all`
  | notifyAll
  -- the value of `count_down`
  | finish (result : Bool)
  | getCount
  -- the value of `get_count`
  | got (count : Int)
  deriving DecidableEq, Repr

/-- The data are `m_count`. -/
def code : Label → Int → Instr Int Label Unit
  | .wait, count => if count = 0 then .update count .returned else .wait () .woken
  | .woken, count => .update count .returned
  | .returned, _ => .unlock
  | .countDown, count =>
    if count = 0 then .update count (.finish false)
    else .update (count - 1) (if count - 1 = 0 then .notifyAll else .finish true)
  | .notifyAll, _ => .notifyAll () (.finish true)
  | .finish _, _ => .unlock
  | .getCount, count => .update count (.got count)
  | .got _, _ => .unlock

def entry : Label → Bool
  | .wait | .countDown | .getCount => true
  | _ => false

/-- `CoCountDownLatch(count)` -/
def monitor (count : Int) : Monitor Int Label Unit where
  start := count
  entry := entry
  code := code

/-! ### The instructions -/

/-- All that a fiber with the mutex may do. -/
inductive Does : Label → Int → Instr Int Label Unit → Prop
  | pass : Does .wait 0 (.update 0 .returned)
  | wait {count} (hpositive : count ≠ 0) : Does .wait count (.wait () .woken)
  | woken {count} : Does .woken count (.update count .returned)
  | returned {count} : Does .returned count .unlock
  | refuse : Does .countDown 0 (.update 0 (.finish false))
  | last : Does .countDown 1 (.update 0 .notifyAll)
  | countDown {count} (hpositive : count ≠ 0) (hleft : count ≠ 1) :
    Does .countDown count (.update (count - 1) (.finish true))
  | notifyAll {count} : Does .notifyAll count (.notifyAll () (.finish true))
  | finish {count result} : Does (.finish result) count .unlock
  | getCount {count} : Does .getCount count (.update count (.got count))
  | got {count value} : Does (.got value) count .unlock

variable {start count count' : Int} {i i' : Label}

theorem does_of_code {instr : Instr Int Label Unit} (h : (monitor start).code i count = instr) :
    Does i count instr := by
  subst h
  show Does i count (code i count)
  cases i with
  | wait =>
    by_cases hzero : count = 0
    · subst hzero
      exact .pass
    · rw [code, if_neg hzero]
      exact .wait hzero
  | countDown =>
    by_cases hzero : count = 0
    · subst hzero
      exact .refuse
    · by_cases hone : count = 1
      · subst hone
        exact .last
      · rw [code, if_neg hzero, if_neg (show ¬ count - 1 = 0 by omega)]
        exact .countDown hzero hone
  | woken => exact .woken
  | returned => exact .returned
  | notifyAll => exact .notifyAll
  | finish result => exact .finish
  | getCount => exact .getCount
  | got value => exact .got

/-! ### When a wait returns -/

/-- Where a fiber comes only when there is nothing left to count. -/
def At : Label → Int → Prop
  | .woken, count | .returned, count | .notifyAll, count => count = 0
  | _, _ => True

/-- A fiber is woken when the count is 0. -/
def counted : Assertions Int Label Unit where
  data count := 0 ≤ count
  entering _ i _ := entry i = true
  waiting _ _ i _ := i = .woken
  woken _ count := count = 0
  holder _ := At

theorem At.update (h : At i count) (hcount : 0 ≤ count) (hcode : (monitor start).code i count = .update count' i') :
    0 ≤ count' ∧ At i' count' := by
  cases does_of_code hcode with
  | pass => exact ⟨hcount, rfl⟩
  | woken => exact ⟨hcount, h⟩
  | refuse => exact ⟨hcount, trivial⟩
  | last => exact ⟨Int.le_refl 0, rfl⟩
  | countDown hpositive hleft => exact ⟨by omega, trivial⟩
  | getCount => exact ⟨hcount, trivial⟩

theorem counted_valid (hstart : 0 ≤ start) : counted.Valid (monitor start) Machine.any where
  start := hstart
  call _ _ hi := hi
  enter {f i count} _ hi := by
    cases i with
    | wait => trivial
    | countDown => trivial
    | getCount => trivial
    | woken => cases hi
    | returned => cases hi
    | notifyAll => cases hi
    | finish result => cases hi
    | got value => cases hi
  resume _ hi hwoken := by
    cases hi
    exact hwoken
  update hcount hat hcode := At.update hat hcount hcode
  others _ _ _ := ⟨fun _ hj => hj, fun _ _ hj => hj⟩
  stable {f i count count' i'} _ hcode _ hwoken := by
    have hzero : count = 0 := hwoken
    subst hzero
    cases does_of_code hcode with
    | pass => rfl
    | woken => rfl
    | refuse => rfl
    | countDown hpositive hleft => exact absurd rfl hpositive
    | getCount => rfl
  wait _ hcode := by
    cases does_of_code hcode
    rfl
  notify _ hcode := by cases does_of_code hcode
  notifyAll hat hcode := by
    cases does_of_code hcode
    exact ⟨trivial, hat⟩

/-! ### Who is left in the queue -/

theorem flushes (start : Int) :
    (monitor start).Flushes (fun _ _ => True) () (fun count => count = 0) (fun i => i = .notifyAll) where
  update _ hcode hdone := by
    cases does_of_code hcode with
    | pass => exact .inr ⟨rfl, by simp⟩
    | woken => exact .inr ⟨hdone, by simp⟩
    | refuse => exact .inr ⟨rfl, by simp⟩
    | last => exact .inl rfl
    | countDown hpositive hleft =>
      have hzero : _ - 1 = (0 : Int) := hdone
      omega
    | getCount => exact .inr ⟨hdone, by simp⟩
  wait _ hcode := by
    cases does_of_code hcode with
    | wait hpositive => exact hpositive
  waitOther _ hne _ := absurd rfl hne
  notify _ hcode _ := by cases does_of_code hcode
  notifyAllOther _ hne _ := absurd rfl hne
  unlock _ hcode := by
    cases does_of_code hcode <;> simp

/-- No `wait` returns before the count is 0, the count is never negative, and once it is 0 nobody is in the queue unless
the `count_down` that has made it 0 is still in front of `notify_all`. -/
theorem latched_of_reaches (hstart : 0 ≤ start) {s : Monitor.State Int Label Unit}
    (h : (monitor start).machine.Reaches Machine.any (monitor start).machine.start s) :
    (∀ f, s.holder = some (f, .returned) → s.data = 0) ∧ 0 ≤ s.data ∧
      (s.data = 0 → s.queue () = [] ∨ ∃ f, s.holder = some (f, .notifyAll)) := by
  have hcounted := (counted_valid hstart).of_reaches h
  refine ⟨fun f hf => hcounted.holder f _ hf, hcounted.data, fun hzero => ?_⟩
  rcases (flushes start).of_reaches Keeps.true h hzero with hnil | ⟨f, i, hholder, rfl⟩
  · exact .inl hnil
  · exact .inr ⟨f, hholder⟩

/-- A fiber waits for a count of 1, and another one counts down. -/
private def oneLeft : List (Monitor.Event Label) :=
  [.call 0 .wait, .acquire 0, .run, .call 1 .countDown, .acquire 1, .run]

/-- In front of `notify_all` the count is 0, and the fiber is in the queue. -/
theorem exists_queued_oneLeft : ∃ s : Monitor.State Int Label Unit,
    (monitor 1).machine.Reaches Machine.any (monitor 1).machine.start s ∧ s.data = 0 ∧ s.queue () = [0] :=
  Machine.exists_reaches_of_run oneLeft (fun _ _ _ => trivial) (by decide +kernel)

/-- Afterwards the `wait` returns. -/
theorem latched_of_reaches_oneLeft : ∃ s : Monitor.State Int Label Unit,
    (monitor 1).machine.Reaches Machine.any (monitor 1).machine.start s ∧ s.holder = some (0, .returned) ∧
      s.data = 0 ∧ (s.queue () = [] ∨ ∃ f, s.holder = some (f, .notifyAll)) := by
  obtain ⟨s, hreach, hholder⟩ : ∃ s : Monitor.State Int Label Unit,
      (monitor 1).machine.Reaches Machine.any (monitor 1).machine.start s ∧ s.holder = some (0, .returned) :=
    Machine.exists_reaches_of_run (oneLeft ++ [.run, .run, .acquire 0, .run]) (fun _ _ _ => trivial)
      (by decide +kernel)
  have hlatched := latched_of_reaches (by decide) hreach
  have hzero := hlatched.1 0 hholder
  exact ⟨s, hreach, hholder, hzero, hlatched.2.2 hzero⟩

end CoCountDownLatch

end AcidCompute

import AcidCompute.Base.Machine
import AcidCompute.Base.OrderedSet
import AcidCompute.Base.Outcome
import Mathlib.Logic.Function.Basic

/-!
# Timers (`acid/common/timer.{h,cpp}`)

A timer is an object at an address, and the set of timers is ordered by the deadlines in these objects and then by the
addresses.  The deadline of a timer changes while the program runs, and with it the comparator.

The functions take the readings of the clock (`get_elapsed_ms`) and the addresses of new objects as arguments.
-/

namespace AcidCompute

/-- A timer; an empty `std::function` is `none`. -/
structure Timer (κ : Type) where
  recurring : Bool
  ms : BitVec 64
  next : BitVec 64
  callback : Option κ
  deriving DecidableEq, Repr

namespace Timer

variable {κ : Type}

-- `Timer(ms, cb, recurring, manager)`
def new (ms : BitVec 64) (cb : Option κ) (recurring : Bool) (now : BitVec 64) : Timer κ :=
  ⟨recurring, ms, now + ms, cb⟩

-- `Timer(next)`
def probe (next : BitVec 64) : Timer κ := ⟨false, 0, next, none⟩

-- the address of a null pointer
def null : Nat := 0

-- `Timer::Comparator::operator()`, with the objects that the pointers lead to
def comparator (objects : Nat → Timer κ) (lhs rhs : Nat) : Bool :=
  if lhs = null ∧ rhs = null then false
  else if lhs = null then true
  else if rhs = null then false
  else if (objects lhs).next < (objects rhs).next then true
  else if (objects lhs).next > (objects rhs).next then false
  else lhs < rhs

/-- The first of two pointers comes before the second. -/
def Before (objects : Nat → Timer κ) (lhs rhs : Nat) : Prop := comparator objects lhs rhs = true

instance (objects : Nat → Timer κ) : DecidableRel (Before objects) := fun _ _ => inferInstanceAs (Decidable (_ = _))

/-- The null pointer comes first, and then the deadlines decide before the addresses. -/
theorem before_iff {objects : Nat → Timer κ} {p q : Nat} :
    Before objects p q ↔ q ≠ null ∧ (p = null ∨ (objects p).next < (objects q).next ∨
      ¬ (objects q).next < (objects p).next ∧ p < q) := by
  unfold Before comparator
  by_cases hp : p = null
  · by_cases hq : q = null <;> simp [hp, hq]
  · by_cases hq : q = null
    · simp [hp, hq]
    · by_cases hlt : (objects p).next < (objects q).next
      · simp [hp, hq, hlt]
      · by_cases hgt : (objects q).next < (objects p).next
        · simp [hp, hq, hlt, hgt]
        · simp [hp, hq, hlt, hgt]

/-- Whatever the deadlines are, the comparator is a strict total order. -/
instance (objects : Nat → Timer κ) : IsStrictTotalOrder Nat (Before objects) where
  irrefl p := by
    simp only [before_iff, BitVec.lt_def]
    omega
  trans p q q' := by
    simp only [before_iff, BitVec.lt_def]
    omega
  trichotomous p q := by
    simp only [before_iff, BitVec.lt_def]
    omega

end Timer

/-- The members of a timer manager, with the objects that pointers to timers lead to.  A pointer keeps its object
alive, so that every pointer in use leads to an object. -/
structure TimerManager (κ : Type) where
  objects : Nat → Timer κ
  -- `m_timers`
  timers : List Nat
  -- `m_ticked`
  ticked : Bool
  -- `m_previous_time`
  previousTime : BitVec 64
  -- how often `on_timer_inserted_at_front` has been called
  insertedAtFront : Nat

namespace TimerManager

variable {κ : Type}

/-- `TimerManager()` -/
def new (now : BitVec 64) : TimerManager κ := ⟨fun _ => Timer.probe 0, [], false, now, 0⟩

/-- The object at an address is changed or created. -/
def store (m : TimerManager κ) (p : Nat) (timer : Timer κ) : TimerManager κ :=
  { m with objects := Function.update m.objects p timer }

/-- `m_timers.find(timer)` -/
def find (m : TimerManager κ) (p : Nat) : Nat := OrderedSet.find (Timer.Before m.objects) p m.timers

/-- `m_timers.erase(it)` -/
def eraseAt (it : Nat) : Op (TimerManager κ) Unit := do
  let m ← get
  match OrderedSet.erase it m.timers with
  | none => throw (.undefined .danglingIterator)
  | some timers => set { m with timers := timers }

/-- `m_timers.insert(timer)`: the set, and the position of the timer in it. -/
def insertTimer (m : TimerManager κ) (p : Nat) : TimerManager κ × Nat :=
  let (timers, it) := OrderedSet.insert (Timer.Before m.objects) p m.timers
  ({ m with timers := timers }, it)

-- `add_timer(val, lock)`
def addTimerLocked (m : TimerManager κ) (val : Nat) : TimerManager κ :=
  let (m, it) := m.insertTimer val
  if it = 0 ∧ m.ticked = false then { m with ticked := true, insertedAtFront := m.insertedAtFront + 1 } else m

-- `add_timer(ms, cb, recurring)`, with the address of the new timer
def addTimer (m : TimerManager κ) (timer : Nat) (ms : BitVec 64) (cb : Option κ) (recurring : Bool) (now : BitVec 64) :
    TimerManager κ :=
  (m.store timer (Timer.new ms cb recurring now)).addTimerLocked timer

end TimerManager

namespace Timer

variable {κ : Type}

open TimerManager

def cancel (this : Nat) : Op (TimerManager κ) Bool := do
  let m ← get
  if (m.objects this).callback.isSome then
    let m := m.store this { m.objects this with callback := none }
    set m
    eraseAt (m.find this)
    return true
  else return false

def refresh (this : Nat) (now : BitVec 64) : Op (TimerManager κ) Bool := do
  let m ← get
  if (m.objects this).callback.isNone then return false
  else if m.find this = m.timers.length then return false
  else
    eraseAt (m.find this)
    let m ← get
    let m := m.store this { m.objects this with next := now + (m.objects this).ms }
    set (m.insertTimer this).1
    return true

def reset (this : Nat) (ms : BitVec 64) (fromNow : Bool) (now : BitVec 64) : Op (TimerManager κ) Bool := do
  let m ← get
  if ms = (m.objects this).ms ∧ fromNow = false then return true
  else if (m.objects this).callback.isNone then return false
  else if m.find this = m.timers.length then return false
  else
    eraseAt (m.find this)
    let m ← get
    let start := if fromNow then now else (m.objects this).next - (m.objects this).ms
    set ((m.store this { m.objects this with ms := ms, next := start + ms }).addTimerLocked this)
    return true

end Timer

namespace TimerManager

variable {κ : Type}

def detectClockRollover (m : TimerManager κ) (now : BitVec 64) : Bool × TimerManager κ :=
  (decide (now < m.previousTime ∧ now < m.previousTime - 60 * 60 * 1000), { m with previousTime := now })

/-- The body of the loop over the expired timers. -/
def fire (now : BitVec 64) (x : List (Option κ) × TimerManager κ) (timer : Nat) : List (Option κ) × TimerManager κ :=
  let (callbacks, m) := x
  let object := m.objects timer
  if object.recurring then
    (callbacks ++ [object.callback], ((m.store timer { object with next := now + object.ms }).insertTimer timer).1)
  else (callbacks ++ [object.callback], m.store timer { object with callback := none })

/-- The position behind the last timer to expire. -/
def expiredEnd (m : TimerManager κ) (now : BitVec 64) (nowTimer : Nat) (rollover : Bool) : Nat :=
  let it := if rollover then m.timers.length else OrderedSet.lowerBound (Timer.Before m.objects) nowTimer m.timers
  it + ((m.timers.drop it).takeWhile fun p => (m.objects p).next = now).length

-- `nowTimer` is the address of the timer to compare with.  `m_timers.empty()` is asked with the read lock and again
-- with the write lock.
def listExpiredCallback (m : TimerManager κ) (now : BitVec 64) (nowTimer : Nat) (callbacks : List (Option κ)) :
    List (Option κ) × TimerManager κ :=
  match m.timers with
  | [] => (callbacks, m)
  | front :: _ =>
    let (rollover, m) := m.detectClockRollover now
    if rollover = false ∧ (m.objects front).next > now then (callbacks, m)
    else
      let m := m.store nowTimer (Timer.probe now)
      let it := m.expiredEnd now nowTimer rollover
      let expired := m.timers.take it
      expired.foldl (fire now) (callbacks, { m with timers := m.timers.drop it })

end TimerManager

end AcidCompute

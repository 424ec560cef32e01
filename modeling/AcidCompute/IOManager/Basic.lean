import Mathlib.Data.Fintype.Basic
import Mathlib.Logic.Function.Basic

/-!
# Events on file descriptors (`acid/common/iomanager.{h,cpp}`)

Each descriptor has a context with a word of event bits and a slot for each event.  A registration sets a bit, fills the
slot and raises `m_pending_event_count`; it is removed by `del_event`, or handed to its scheduler by `cancel_event`,
`cancel_all` and the loop in `idle`.  The definitions below are the sections with the mutex of the context, on the
context at an address; the results of `epoll_ctl` are arguments.
-/

namespace AcidCompute

namespace IOManager

-- the events of `enum Event` but `NONE`, which is 0
inductive Event
  | read
  | write
  deriving DecidableEq, Repr

instance : Fintype Event := ⟨{.read, .write}, fun event => by cases event <;> decide⟩

def Event.bit : Event → BitVec 32
  | .read => 0x1
  | .write => 0x4

/-- A slot; null pointers and an empty `std::function` are `none`. -/
structure EventContext where
  scheduler : Option Nat
  fiber : Option Nat
  callback : Option Nat
  -- the number of the registration, counted over all of them
  registration : Nat
  deriving DecidableEq, Repr

-- `reset_event_context`
def EventContext.reset : EventContext := ⟨none, none, none, 0⟩

structure FdContext where
  read : EventContext
  write : EventContext
  events : BitVec 32
  deriving DecidableEq, Repr

namespace FdContext

/-- `new FdContext`: the slots are empty, and `events` is what the storage held. -/
def new (storage : BitVec 32) : FdContext := ⟨.reset, .reset, storage⟩

variable (ctx : FdContext)

def getEventContext : Event → EventContext
  | .read => ctx.read
  | .write => ctx.write

def setEventContext (event : Event) (ec : EventContext) : FdContext :=
  match event with
  | .read => { ctx with read := ec }
  | .write => { ctx with write := ec }

/-- `events & event` -/
def Has (event : Event) : Prop := ctx.events &&& event.bit ≠ 0

instance (event : Event) : Decidable (ctx.Has event) := inferInstanceAs (Decidable (_ ≠ _))

end FdContext

/-- What a scheduler has been given, and the registration it comes from. -/
structure Scheduled where
  scheduler : Nat
  fiber : Option Nat
  callback : Option Nat
  registration : Nat
  deriving DecidableEq, Repr

/-- The contexts at their addresses, the counter, and what has become of the registrations. -/
structure Shared where
  contexts : Nat → FdContext
  -- `m_pending_event_count`
  pending : BitVec 64
  registrations : Nat
  scheduled : List Scheduled
  -- by `del_event`
  removed : List Nat

/-- A manager whose contexts are created in the storage given. -/
def Shared.initial (storage : Nat → BitVec 32) : Shared := ⟨fun o => .new (storage o), 0, 0, [], []⟩

/-- The assertions, by the functions that make them. -/
inductive Assertion
  | addEvent
  | slot
  | triggerEvent
  | cancelAll
  deriving DecidableEq, Repr

/-- What ends the program: an assertion, a null pointer, or an index outside of a vector. -/
inductive Failure
  | assertion (a : Assertion)
  | nullDeref
  | outOfRange
  deriving DecidableEq, Repr

/-- Who calls `add_event`: `Scheduler::get_this()` and `Fiber::get_this()`. -/
structure Caller where
  scheduler : Option Nat
  fiber : Nat
  deriving DecidableEq, Repr

namespace Shared

variable (s : Shared)

def setContext (o : Nat) (ctx : FdContext) : Shared := { s with contexts := Function.update s.contexts o ctx }

-- `FdContext::trigger_event`
def triggerEvent (o : Nat) (event : Event) : Except Failure Shared :=
  let ctx := s.contexts o
  if ctx.events &&& event.bit = 0 then .error (.assertion .triggerEvent)
  else
    let ctx := { ctx with events := ctx.events &&& ~~~event.bit }
    let ec := ctx.getEventContext event
    match ec.scheduler with
    | none => .error .nullDeref
    | some scheduler =>
      let task : Scheduled :=
        if ec.callback.isSome then ⟨scheduler, none, ec.callback, ec.registration⟩
        else ⟨scheduler, ec.fiber, none, ec.registration⟩
      .ok { s.setContext o (ctx.setEventContext event .reset) with scheduled := s.scheduled ++ [task] }

/-- `trigger_event(event)`, and one event less is pending. -/
def trigger (o : Nat) (event : Event) : Except Failure Shared := do
  let s ← s.triggerEvent o event
  return { s with pending := s.pending - 1 }

-- `add_event`, from the lock of the context on
def addEvent (o : Nat) (event : Event) (cb : Option Nat) (self : Caller) (epollCtl : Bool) :
    Except Failure (Int × Shared) :=
  let ctx := s.contexts o
  if ctx.events &&& event.bit ≠ 0 then .error (.assertion .addEvent)
  else if epollCtl = false then .ok (-1, s)
  else
    let ctx := { ctx with events := ctx.events ||| event.bit }
    let ec := ctx.getEventContext event
    if ec.scheduler.isSome ∨ ec.fiber.isSome ∨ ec.callback.isSome then .error (.assertion .slot)
    else
      let ec : EventContext :=
        if cb.isSome then ⟨self.scheduler, none, cb, s.registrations⟩
        else ⟨self.scheduler, some self.fiber, none, s.registrations⟩
      .ok (0, { s.setContext o (ctx.setEventContext event ec) with
        pending := s.pending + 1
        registrations := s.registrations + 1 })

def delEvent (o : Nat) (event : Event) (epollCtl : Bool) : Bool × Shared :=
  let ctx := s.contexts o
  if ctx.events &&& event.bit = 0 then (false, s)
  else if epollCtl = false then (false, s)
  else
    let ec := ctx.getEventContext event
    let ctx := { ctx with events := ctx.events &&& ~~~event.bit }
    (true, { s.setContext o (ctx.setEventContext event .reset) with
      pending := s.pending - 1
      removed := s.removed ++ [ec.registration] })

def cancelEvent (o : Nat) (event : Event) (epollCtl : Bool) : Except Failure (Bool × Shared) :=
  let ctx := s.contexts o
  if ctx.events &&& event.bit = 0 then .ok (false, s)
  else if epollCtl = false then .ok (false, s)
  else do
    let s ← s.trigger o event
    return (true, s)

/-- `if (mask & event) { trigger_event(event); --m_pending_event_count; }` -/
def triggerIf (mask : BitVec 32) (o : Nat) (event : Event) : Except Failure Shared :=
  if mask &&& event.bit ≠ 0 then s.trigger o event else .ok s

def cancelAll (o : Nat) (epollCtl : Bool) : Except Failure (Bool × Shared) :=
  if (s.contexts o).events = 0 then .ok (false, s)
  else if epollCtl = false then .ok (false, s)
  else do
    let s ← s.triggerIf (s.contexts o).events o .read
    let s ← s.triggerIf (s.contexts o).events o .write
    if (s.contexts o).events ≠ 0 then throw (.assertion .cancelAll)
    return (true, s)

-- `EPOLLIN` and `EPOLLOUT` have the values of `READ` and `WRITE`
def epollErr : BitVec 32 := 0x8
def epollHup : BitVec 32 := 0x10

/-- `real_events`, from the mask that `epoll_wait` has returned and the events of the context. -/
def realEvents (mask events : BitVec 32) : BitVec 32 :=
  let mask :=
    if mask &&& (epollErr ||| epollHup) ≠ 0 then mask ||| (Event.read.bit ||| Event.write.bit) &&& events else mask
  (if mask &&& Event.read.bit ≠ 0 then Event.read.bit else 0) |||
    (if mask &&& Event.write.bit ≠ 0 then Event.write.bit else 0)

/-- The body of the loop over the events in `idle`. -/
def handleEvent (o : Nat) (mask : BitVec 32) (epollCtl : Bool) : Except Failure Shared :=
  let realEvents := realEvents mask (s.contexts o).events
  if (s.contexts o).events &&& realEvents = 0 then .ok s
  else if epollCtl = false then .ok s
  else do
    let s ← s.triggerIf realEvents o .read
    s.triggerIf realEvents o .write

end Shared

end IOManager

end AcidCompute

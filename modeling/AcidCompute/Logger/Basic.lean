import AcidCompute.Base.ByteOrder
import AcidCompute.Base.Machine
import Mathlib.Data.List.Range
import Mathlib.Logic.Function.Basic

/-!
# The asynchronous logger (`acid/logger/async_logger.{h,cpp}`)

Lines go to the current buffer.  One that does not fit sends the buffer to the flush thread and takes a free one, for
which it may have to wait.  The current buffer stays at the front of `free_buffers_` until then.

A section of `append` and of `run` from the lock of `m_mutex` to the end or to a wait on `m_cond` is one step, and the
event of a step names the waiter that is woken if it signals.
-/

namespace AcidCompute

/-- A buffer, with the bytes in front of `m_cur_ptr`. -/
structure LogBuffer where
  data : List Byte
  deriving DecidableEq, Repr

namespace LogBuffer

-- `BUFFER_SIZE`
def bufferSize : Nat := 1024 * 1024

/-- `LogBuffer()` -/
def new : LogBuffer := ⟨[]⟩

variable (b : LogBuffer)

def length : Nat := b.data.length

def available : Nat := bufferSize - b.length

def append (buffer : List Byte) (len : Nat) : LogBuffer :=
  if b.available > len then ⟨b.data ++ buffer.take len⟩ else b

end LogBuffer

/-- How the queues or the file can be misused. -/
inductive Misuse
  -- `pop` or `front` of an empty queue
  | emptyQueue
  -- `fwrite` after `fclose`
  | closedFile
  deriving DecidableEq, Repr

/-- The members of a logger, with what has been written to the file. -/
structure AsyncLogger where
  buffers : Nat → LogBuffer
  curBuffer : Nat
  freeBuffers : List Nat
  flushBuffers : List Nat
  run : Bool
  file : List Byte
  -- in front of `fclose`
  fileOpen : Bool

namespace AsyncLogger

-- `BUFFER_NUM`
def bufferNum : Nat := 4

/-- `AsyncLogger(file)` -/
def new : AsyncLogger := ⟨fun _ => .new, 0, List.range bufferNum, [], true, [], true⟩

variable (l : AsyncLogger)

/-- `*cur_buffer_` -/
def current : LogBuffer := l.buffers l.curBuffer

def setBuffer (b : Nat) (buffer : LogBuffer) : AsyncLogger := { l with buffers := Function.update l.buffers b buffer }

/-- `int len = log_line.size()` -/
def len (line : List Byte) : BitVec 32 := BitVec.ofNat 32 line.length

/-- `cur_buffer_->available() > len` -/
def fits (line : List Byte) : Bool := decide ((len line).toInt < l.current.available)

/-- `cur_buffer_->append(log_line.c_str(), len)`, where `len` becomes a `size_t` -/
def appendCurrent (line : List Byte) : AsyncLogger :=
  l.setBuffer l.curBuffer (l.current.append line ((len line).signExtend 64).toNat)

/-- The current buffer goes from one queue to the other. -/
def queueCurrent : Except Misuse AsyncLogger :=
  match l.freeBuffers with
  | [] => throw .emptyQueue
  | _ :: rest => return { l with freeBuffers := rest, flushBuffers := l.flushBuffers ++ [l.curBuffer] }

/-- The line goes to the buffer at the front of the free ones. -/
def appendFront (line : List Byte) : Except Misuse AsyncLogger :=
  match l.freeBuffers with
  | [] => throw .emptyQueue
  | front :: _ => return { l with curBuffer := front }.appendCurrent line

def fwrite (bytes : List Byte) : Except Misuse AsyncLogger :=
  if l.fileOpen then return { l with file := l.file ++ bytes } else throw .closedFile

/-- `while (!flush_buffers_.empty())` in `run`, with what is in the queue. -/
def flushLoop : List Nat → AsyncLogger → Except Misuse AsyncLogger
  | [], l => return l
  | b :: rest, l => do
    let l ← l.fwrite (l.buffers b).data
    flushLoop rest ({ l with flushBuffers := rest, freeBuffers := l.freeBuffers ++ [b] }.setBuffer b .new)

def flushAll : Except Misuse AsyncLogger := flushLoop l.flushBuffers l

/-- What `run` does after a timeout. -/
def flushCurrent : Except Misuse AsyncLogger :=
  if l.current.length = 0 then return l
  else do
    let l ← l.fwrite l.current.data
    return l.setBuffer l.curBuffer .new

/-! ### The threads -/

/-- A thread that waits on `m_cond`. -/
inductive Waiter
  | appender (t : Nat)
  | flusher
  deriving DecidableEq, Repr

/-- Where the flush thread is. -/
inductive Flusher
  | outside
  -- on `m_cond`, or woken
  | waiting
  | timedOut
  | finished
  deriving DecidableEq, Repr

structure State where
  logger : AsyncLogger
  -- the calls of `append` that wait for a buffer, on `m_cond` or woken, with their threads
  waiting : List (Nat × List Byte)
  -- the threads on `m_cond`
  waiters : List Waiter
  flusher : Flusher
  fault : Option Misuse

def initial : State := ⟨new, [], [], .outside, none⟩

inductive Event
  | append (t : Nat) (line : List Byte) (woken : Option Waiter)
  -- a woken call of `append` has the lock
  | resume (t : Nat) (line : List Byte) (woken : Option Waiter)
  -- the flush thread goes to `wait_timeout`, its time is up, it has the lock again
  | await
  | timeout
  | flush (woken : Option Waiter)
  deriving DecidableEq, Repr

namespace State

variable (s : State)

/-- The thread that a signal may wake: any one, if there is one. -/
def MayWake : Option Waiter → Prop
  | none => s.waiters = []
  | some w => w ∈ s.waiters

instance : (woken : Option Waiter) → Decidable (s.MayWake woken)
  | none => inferInstanceAs (Decidable (_ = _))
  | some _ => inferInstanceAs (Decidable (_ ∈ _))

/-- `m_cond.signal()` -/
def signal : Option Waiter → State
  | none => s
  | some w => { s with waiters := s.waiters.erase w }

/-- `append` from the test of the loop on. -/
def takeBuffer (t : Nat) (line : List Byte) (woken : Option Waiter) : State :=
  if s.logger.freeBuffers = [] then
    let s := s.signal woken
    { s with waiting := s.waiting ++ [(t, line)], waiters := s.waiters ++ [.appender t] }
  else
    match s.logger.appendFront line with
    | .error f => { s with fault := some f }
    | .ok l => { s with logger := l }.signal woken

end State

/-- When a thread can take its step. -/
def Enabled (s : State) : Event → Prop
  | .append t _ woken => (∀ p ∈ s.waiting, p.1 ≠ t) ∧ s.MayWake woken
  | .resume t line woken => (t, line) ∈ s.waiting ∧ .appender t ∉ s.waiters ∧ s.MayWake woken
  | .await => s.flusher = .outside
  | .timeout => s.flusher = .waiting ∧ .flusher ∈ s.waiters
  | .flush woken => (s.flusher = .waiting ∧ .flusher ∉ s.waiters ∨ s.flusher = .timedOut) ∧ s.MayWake woken

instance (s : State) : (e : Event) → Decidable (Enabled s e)
  | .append _ _ _ => inferInstanceAs (Decidable (_ ∧ _))
  | .resume _ _ _ => inferInstanceAs (Decidable (_ ∧ _))
  | .await => inferInstanceAs (Decidable (_ = _))
  | .timeout => inferInstanceAs (Decidable (_ ∧ _))
  | .flush _ => inferInstanceAs (Decidable (_ ∧ _))

/-- What an enabled step does. -/
def next (s : State) : Event → State
  | .append t line woken =>
    if s.logger.fits line then { s with logger := s.logger.appendCurrent line }
    else
      match s.logger.queueCurrent with
      | .error f => { s with fault := some f }
      | .ok l => { s with logger := l }.takeBuffer t line woken
  | .resume t line woken => { s with waiting := s.waiting.erase (t, line) }.takeBuffer t line woken
  | .await =>
    if s.logger.run then { s with flusher := .waiting, waiters := s.waiters ++ [.flusher] }
    else { s with flusher := .finished }
  | .timeout => { s with flusher := .timedOut, waiters := s.waiters.erase .flusher }
  | .flush woken =>
    if s.logger.run = false then { s with flusher := .finished }
    else
      match s.flusher with
      | .timedOut =>
        match s.logger.flushCurrent with
        | .error f => { s with fault := some f }
        | .ok l => { s with logger := l, flusher := .outside }
      | _ =>
        match s.logger.flushAll with
        | .error f => { s with fault := some f }
        | .ok l =>
          let s' := { s with logger := l, flusher := .outside }
          -- an `append` waits
          if s.logger.freeBuffers = [] then s'.signal woken else s'

/-- After a misuse there are no more steps. -/
def machine : Machine State Event where
  start := initial
  step s e := if s.fault = none ∧ Enabled s e then some (next s e) else none

theorem step_eq_some {s s' : State} {e : Event} :
    machine.step s e = some s' ↔ (s.fault = none ∧ Enabled s e) ∧ next s e = s' := by
  simp [machine]

end AsyncLogger

end AcidCompute

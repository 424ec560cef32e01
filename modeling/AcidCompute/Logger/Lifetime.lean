import AcidCompute.Logger.Queues

/-!
# What a logger writes

One thread appends lines and then destroys the logger.  All of them are in the file in the end, in order, if each is
shorter than a buffer, the flush thread does not write the current buffer after a timeout while others are queued, and
it does not hold the lock while the destructor runs, which takes none (`complete_of_reaches`).  Otherwise a line may
be lost, written twice, or written in front of earlier ones (`not_complete`).

The destructor takes one step for each buffer that it writes.
-/

namespace AcidCompute

namespace LoggerLife

open AsyncLogger (Exclusive)

/-- How far the destructor has come. -/
inductive Destroyer
  | idle
  | flushing
  -- behind the `fwrite` of the current buffer
  | written
  -- behind `fclose`
  | closed
  | stopped
  deriving DecidableEq, Repr

/-- The destructor has written what is left. -/
def Destroyer.hasWritten : Destroyer → Bool
  | .written | .closed | .stopped => true
  | .idle | .flushing => false

structure State where
  threads : AsyncLogger.State
  -- what has been passed to `append`
  lines : List (List Byte)
  destroyer : Destroyer

inductive Event
  | thread (e : AsyncLogger.Event)
  -- the steps of `~AsyncLogger`
  | writeBuffer
  | writeCurrent
  | close
  | stop
  deriving DecidableEq, Repr

def initial : State := ⟨AsyncLogger.initial, [], .idle⟩

/-- The step is one of the thread that appends and of the time before it destroys the logger, or one of the flush
thread. -/
def OfUser (s : State) : AsyncLogger.Event → Prop
  | .append t _ _ => t = 0 ∧ s.destroyer = .idle
  | .resume t _ _ => t = 0
  | _ => True

instance (s : State) : (e : AsyncLogger.Event) → Decidable (OfUser s e)
  | .append _ _ _ => inferInstanceAs (Decidable (_ ∧ _))
  | .resume _ _ _ => inferInstanceAs (Decidable (_ = _))
  | .await | .timeout | .flush _ => inferInstanceAs (Decidable True)

/-- The destructor is in its loop, or may begin. -/
def State.Destroying (s : State) : Prop :=
  (s.destroyer = .idle ∨ s.destroyer = .flushing) ∧ s.threads.waiting = []

instance (s : State) : Decidable s.Destroying := inferInstanceAs (Decidable (_ ∧ _))

def Enabled (s : State) : Event → Prop
  | .thread e => AsyncLogger.Enabled s.threads e ∧ OfUser s e
  | .writeBuffer => s.Destroying ∧ s.threads.logger.flushBuffers ≠ []
  | .writeCurrent => s.Destroying ∧ s.threads.logger.flushBuffers = []
  | .close => s.destroyer = .written
  | .stop => s.destroyer = .closed

instance (s : State) : (e : Event) → Decidable (Enabled s e)
  | .thread _ => inferInstanceAs (Decidable (_ ∧ _))
  | .writeBuffer => inferInstanceAs (Decidable (_ ∧ _))
  | .writeCurrent => inferInstanceAs (Decidable (_ ∧ _))
  | .close => inferInstanceAs (Decidable (_ = _))
  | .stop => inferInstanceAs (Decidable (_ = _))

/-- One round of the loop of the destructor. -/
def writeFront (l : AsyncLogger) : Except Misuse AsyncLogger :=
  match l.flushBuffers with
  | [] => throw .emptyQueue
  | b :: rest => do
    let l ← l.fwrite (l.buffers b).data
    return { l with flushBuffers := rest }

/-- The line that a step passes to `append`. -/
def passed : AsyncLogger.Event → List (List Byte)
  | .append _ line _ => [line]
  | _ => []

namespace State

variable (s : State)

def setLogger (l : AsyncLogger) : State := { s with threads := { s.threads with logger := l } }

/-- The destructor writes, and has come to another place. -/
def write (result : Except Misuse AsyncLogger) (destroyer : Destroyer) : State :=
  match result with
  | .error f => { s with threads := { s.threads with fault := some f } }
  | .ok l => { s.setLogger l with destroyer := destroyer }

end State

def next (s : State) : Event → State
  | .thread e => { s with threads := AsyncLogger.next s.threads e, lines := s.lines ++ passed e }
  | .writeBuffer => s.write (writeFront s.threads.logger) .flushing
  | .writeCurrent => s.write (s.threads.logger.fwrite s.threads.logger.current.data) .written
  | .close => { s.setLogger { s.threads.logger with fileOpen := false } with destroyer := .closed }
  -- `broadcast` wakes all threads
  | .stop =>
    { s with
      threads := { s.threads with logger := { s.threads.logger with run := false }, waiters := [] }
      destroyer := .stopped }

def machine : Machine State Event where
  start := initial
  step s e := if s.threads.fault = none ∧ Enabled s e then some (next s e) else none

theorem step_eq_some {s s' : State} {e : Event} :
    machine.step s e = some s' ↔ (s.threads.fault = none ∧ Enabled s e) ∧ next s e = s' := by
  simp [machine]

/-- Once the destructor has written what is left, the file holds the lines in order. -/
def State.Complete (s : State) : Prop :=
  s.destroyer.hasWritten = true → s.threads.fault = none ∧ s.threads.logger.file = s.lines.flatten

/-- The flush thread does not come between the steps of the destructor, and what it writes is the oldest.  Its section
is one step, so that it holds the lock at no time between the first step of the destructor and `run_ = false`. -/
def InOrder (s : State) : Prop :=
  s.destroyer = .stopped ∨ s.destroyer = .idle ∧
    (s.threads.flusher = .timedOut →
      s.threads.logger.flushBuffers = [] ∨ s.threads.logger.current.data = [])

instance (s : State) : Decidable (InOrder s) := inferInstanceAs (Decidable (_ ∨ _ ∧ (_ → _)))

/-- The lines are shorter than a buffer and the flush thread writes in order. -/
def Careful (s : State) : Event → Prop
  | .thread (.append _ line _) => line.length < LogBuffer.bufferSize
  | .thread (.flush _) => InOrder s
  | _ => True

instance (s : State) : (e : Event) → Decidable (Careful s e)
  | .thread (.append _ _ _) => inferInstanceAs (Decidable (_ < _))
  | .thread (.flush _) => inferInstanceAs (Decidable (InOrder s))
  | .thread (.resume _ _ _) | .thread .await | .thread .timeout | .writeBuffer | .writeCurrent | .close | .stop =>
    inferInstanceAs (Decidable True)

/-! ### The bytes that are not yet in the file -/

/-- The bytes in the queue for the flush thread. -/
def queuedBytes (l : AsyncLogger) : List Byte := l.flushBuffers.flatMap fun b => (l.buffers b).data

/-- What comes behind the queue: the current buffer, or the line that waits for one. -/
def lastBytes (s : AsyncLogger.State) : List Byte :=
  if s.waiting = [] then s.logger.current.data else s.waiting.flatMap Prod.snd

/-- What holds before the destructor begins. -/
structure Filled (s : AsyncLogger.State) (lines : List (List Byte)) : Prop where
  exclusive : Exclusive s
  run : s.logger.run = true
  single : ∀ p ∈ s.waiting, p.1 = 0
  short : ∀ p ∈ s.waiting, p.2.length < LogBuffer.bufferSize
  cur_mem : s.logger.curBuffer ∈ s.logger.freeBuffers ++ s.logger.flushBuffers
  empty : ∀ b ∈ s.logger.freeBuffers, (s.waiting = [] → b ≠ s.logger.curBuffer) → s.logger.buffers b = .new
  content : s.logger.file ++ queuedBytes s.logger ++ lastBytes s = lines.flatten

theorem Filled.init : Filled AsyncLogger.initial [] where
  exclusive := Exclusive.init
  run := rfl
  single p hp := by cases hp
  short p hp := by cases hp
  cur_mem := by decide
  empty b _ _ := rfl
  content := rfl

section

variable {s : AsyncLogger.State} {lines : List (List Byte)}

/-- A buffer changes that is not queued. -/
private theorem queuedBytes_setBuffer {l : AsyncLogger} {b : Nat} (hb : b ∉ l.flushBuffers) (buffer : LogBuffer) :
    queuedBytes (l.setBuffer b buffer) = queuedBytes l := by
  have hsame : ∀ c ∈ l.flushBuffers, ((l.setBuffer b buffer).buffers c).data = (l.buffers c).data := by
    intro c hc
    rw [AsyncLogger.setBuffer_of_ne (ne_of_mem_of_not_mem hc hb)]
  simp only [queuedBytes, AsyncLogger.setBuffer_flushBuffers, List.flatMap_def, List.map_congr_left hsame]

/-- A line goes to the buffer at the front of the free ones, which are all empty, or waits for it. -/
theorem Filled.takeBuffer (hfault : s.fault = none) (hopen : s.logger.fileOpen = true) (hrun : s.logger.run = true)
    (hperm : (s.logger.freeBuffers ++ s.logger.flushBuffers).Perm (List.range AsyncLogger.bufferNum))
    (hnone : s.waiting = []) (hcur : s.logger.curBuffer ∈ s.logger.freeBuffers ++ s.logger.flushBuffers)
    (hempty : ∀ b ∈ s.logger.freeBuffers, s.logger.buffers b = .new) {line : List Byte}
    (hline : line.length < LogBuffer.bufferSize)
    (hcontent : s.logger.file ++ queuedBytes s.logger ++ line = lines.flatten) (woken : Option AsyncLogger.Waiter) :
    Filled (s.takeBuffer 0 line woken) lines := by
  have hexclusive := Exclusive.takeBuffer hfault hopen hperm hnone 0 line woken
  cases hfree : s.logger.freeBuffers with
  | nil =>
    obtain ⟨hlogger, -, hwaiting⟩ := AsyncLogger.takeBuffer_of_nil hfree 0 line woken
    rw [hnone, List.nil_append] at hwaiting
    constructor
    case exclusive => exact hexclusive
    case run => rw [hlogger, hrun]
    case single => simp [hwaiting]
    case short => simpa [hwaiting] using hline
    case cur_mem =>
      rw [hlogger]
      exact hcur
    case empty => simp [hlogger, hfree]
    case content => simpa [hlogger, lastBytes, hwaiting] using hcontent
  | cons front rest =>
    have hnodup : (front :: rest ++ s.logger.flushBuffers).Nodup := by
      rw [← hfree]
      exact hperm.nodup_iff.2 List.nodup_range
    have hnew : s.logger.buffers front = .new := hempty front (by simp [hfree])
    have hroom : line.length < ({ s.logger with curBuffer := front } : AsyncLogger).current.available := by
      show line.length < (s.logger.buffers front).available
      rw [hnew]
      exact hline
    have hqueued : front ∉ s.logger.flushBuffers := by
      intro hmem
      exact (List.nodup_cons.1 hnodup).1 (List.mem_append_right rest hmem)
    have hdata : ({ s.logger with curBuffer := front } : AsyncLogger).current.data ++ line = line := by
      show (s.logger.buffers front).data ++ line = line
      rw [hnew]
      rfl
    have hnext := AsyncLogger.takeBuffer_of_cons hfree 0 line woken
    rw [AsyncLogger.appendCurrent_of_lt hroom, hdata] at hnext
    rw [hnext] at hexclusive ⊢
    constructor
    case exclusive => exact hexclusive
    case run => simpa using hrun
    case single => simp [hnone]
    case short => simp [hnone]
    case cur_mem => simp [hfree]
    case empty =>
      intro b hb hne
      have hne' : b ≠ front := by simpa [hnone] using hne
      have hold : s.logger.buffers b = .new := hempty b (by simpa using hb)
      rw [AsyncLogger.signal_logger, AsyncLogger.setBuffer_of_ne hne', hold]
    case content =>
      have hsame : queuedBytes (({ s.logger with curBuffer := front } : AsyncLogger).setBuffer front ⟨line⟩) =
          queuedBytes s.logger := queuedBytes_setBuffer (l := { s.logger with curBuffer := front }) hqueued ⟨line⟩
      have hlast := AsyncLogger.current_setBuffer (l := { s.logger with curBuffer := front }) ⟨line⟩
      simpa [lastBytes, hnone, hsame, hlast] using hcontent

/-- Only the thread that waits could append, so that nobody waits. -/
theorem Filled.waiting_nil (h : Filled s lines) {line : List Byte} {woken : Option AsyncLogger.Waiter}
    (henabled : AsyncLogger.Enabled s (.append 0 line woken)) : s.waiting = [] := by
  cases hwaiting : s.waiting with
  | nil => rfl
  | cons p rest =>
    have hmem : p ∈ s.waiting := by simp [hwaiting]
    exact absurd (h.single p hmem) (henabled.1 p hmem)

/-- Unless an `append` waits, the current buffer is not queued. -/
theorem Filled.cur_not_queued (h : Filled s lines) (hnone : s.waiting = []) :
    s.logger.curBuffer ∉ s.logger.flushBuffers := by
  obtain ⟨rest, hfree⟩ := List.head?_eq_some_iff.1 (h.exclusive.front hnone)
  have hnodup := h.exclusive.nodup
  rw [hfree] at hnodup
  intro hmem
  exact (List.nodup_cons.1 hnodup).1 (List.mem_append_right rest hmem)

theorem Filled.append (h : Filled s lines) {line : List Byte} {woken : Option AsyncLogger.Waiter}
    (henabled : AsyncLogger.Enabled s (.append 0 line woken)) (hline : line.length < LogBuffer.bufferSize) :
    Filled (AsyncLogger.next s (.append 0 line woken)) (lines ++ [line]) := by
  have hnone := h.waiting_nil henabled
  have hcontent : s.logger.file ++ queuedBytes s.logger ++ s.logger.current.data = lines.flatten := by
    simpa [lastBytes, hnone] using h.content
  by_cases hfits : s.logger.fits line = true
  · have hroom := (AsyncLogger.fits_iff hline.le).1 hfits
    have hexclusive : Exclusive (AsyncLogger.next s (.append 0 line woken)) := h.exclusive.append (.inr hfits)
    rw [AsyncLogger.next_append_of_fits hfits, AsyncLogger.appendCurrent_of_lt hroom] at hexclusive ⊢
    constructor
    case exclusive => exact hexclusive
    case run => exact h.run
    case single => exact h.single
    case short => exact h.short
    case cur_mem => exact h.cur_mem
    case empty =>
      intro b hb hne
      have hne' : b ≠ s.logger.curBuffer := hne hnone
      exact (AsyncLogger.setBuffer_of_ne hne' _).trans (h.empty b hb hne)
    case content =>
      have hsame := queuedBytes_setBuffer (h.cur_not_queued hnone) ⟨s.logger.current.data ++ line⟩
      simp [lastBytes, hnone, hsame, ← hcontent]
  · obtain ⟨rest, hfree⟩ := List.head?_eq_some_iff.1 (h.exclusive.front hnone)
    have hnodup := h.exclusive.nodup
    rw [hfree] at hnodup
    rw [AsyncLogger.next_append_of_not_fits hfits hfree]
    apply Filled.takeBuffer (s := { s with logger := s.logger.queued rest })
    case hfault => exact h.exclusive.fault
    case hopen => exact h.exclusive.fileOpen
    case hrun => exact h.run
    case hperm => exact (AsyncLogger.queued_perm hfree).trans h.exclusive.perm
    case hnone => exact hnone
    case hcur => simp [AsyncLogger.queued]
    case hempty =>
      intro b hb
      refine h.empty b (by rw [hfree]; exact List.mem_cons_of_mem _ hb) ?_
      rintro - rfl
      exact (List.nodup_cons.1 hnodup).1 (List.mem_append_left _ hb)
    case hline => exact hline
    case hcontent =>
      rw [List.flatten_append, ← hcontent]
      simp [queuedBytes, AsyncLogger.queued, AsyncLogger.current]

theorem Filled.resume (h : Filled s lines) {line : List Byte} {woken : Option AsyncLogger.Waiter}
    (hmem : (0, line) ∈ s.waiting) : Filled (AsyncLogger.next s (.resume 0 line woken)) lines := by
  have hwaiting := h.exclusive.waiting_eq hmem
  apply Filled.takeBuffer (s := { s with waiting := s.waiting.erase (0, line) })
  case hfault => exact h.exclusive.fault
  case hopen => exact h.exclusive.fileOpen
  case hrun => exact h.run
  case hperm => exact h.exclusive.perm
  case hnone => simp [hwaiting]
  case hcur => exact h.cur_mem
  case hempty => exact fun b hb => h.empty b hb fun hnone => absurd hnone (List.ne_nil_of_mem hmem)
  case hline => exact h.short _ hmem
  case hcontent => simpa [lastBytes, hwaiting] using h.content

/-- All buffers in the queue have been written. -/
theorem Filled.flushed (h : Filled s lines) {s' : AsyncLogger.State} (hexclusive : Exclusive s')
    (hwaiting : s'.waiting = s.waiting) (hlogger : s'.logger = s.logger.flushed) : Filled s' lines where
  exclusive := hexclusive
  run := by
    rw [hlogger]
    exact h.run
  single := hwaiting ▸ h.single
  short := hwaiting ▸ h.short
  cur_mem := by
    rw [hlogger]
    exact List.mem_append_left _ h.cur_mem
  empty b hb hne := by
    rw [hlogger] at hb hne ⊢
    show (if b ∈ s.logger.flushBuffers then LogBuffer.new else s.logger.buffers b) = .new
    split
    · rfl
    · rename_i hout
      exact h.empty b ((List.mem_append.1 hb).resolve_right hout) (hwaiting ▸ hne)
  content := by
    have hlast : lastBytes s' = lastBytes s := by
      unfold lastBytes
      rw [hwaiting, hlogger]
      by_cases hnone : s.waiting = []
      · simp [hnone, AsyncLogger.flushed, AsyncLogger.current, h.cur_not_queued hnone]
      · simp [hnone]
    rw [hlast, hlogger, ← h.content]
    simp [queuedBytes, AsyncLogger.flushed]

theorem Filled.of_same (h : Filled s lines) {s' : AsyncLogger.State} (hexclusive : Exclusive s')
    (hwaiting : s'.waiting = s.waiting) (hlogger : s'.logger = s.logger) : Filled s' lines where
  exclusive := hexclusive
  run := hlogger ▸ h.run
  single := hwaiting ▸ h.single
  short := hwaiting ▸ h.short
  cur_mem := hlogger ▸ h.cur_mem
  empty := by
    rw [hlogger, hwaiting]
    exact h.empty
  content := by
    rw [lastBytes, hlogger, hwaiting]
    exact h.content

/-- The current buffer has been written; it is the oldest that is left, or empty. -/
theorem Filled.currentFlushed (h : Filled s lines) {s' : AsyncLogger.State} (hexclusive : Exclusive s')
    (hwaiting : s'.waiting = s.waiting) (hlogger : s'.logger = s.logger.currentFlushed)
    (hfirst : s.logger.flushBuffers = [] ∨ s.logger.current.data = []) : Filled s' lines := by
  by_cases hempty : s.logger.current.data = []
  · rw [AsyncLogger.currentFlushed_of_empty hempty] at hlogger
    exact h.of_same hexclusive hwaiting hlogger
  · have hqueue := hfirst.resolve_right hempty
    have hnone : s.waiting = [] := by
      -- otherwise the current buffer is one of the free ones
      by_contra hwaits
      have hcur := h.cur_mem
      rw [hqueue, List.append_nil] at hcur
      exact hempty (congrArg LogBuffer.data (h.empty _ hcur fun hnone => absurd hnone hwaits))
    constructor
    case exclusive => exact hexclusive
    case run =>
      rw [hlogger]
      exact h.run
    case single => exact hwaiting ▸ h.single
    case short => exact hwaiting ▸ h.short
    case cur_mem =>
      rw [hlogger]
      exact h.cur_mem
    case empty =>
      intro b hb hne
      rw [hlogger] at hb hne ⊢
      have hne' : b ≠ s.logger.curBuffer := hne (hwaiting.trans hnone)
      exact (AsyncLogger.setBuffer_of_ne (l := s.logger) hne' .new).trans (h.empty b hb fun _ => hne')
    case content =>
      have hlast : s'.logger.current.data = [] := by
        rw [hlogger]
        exact congrArg LogBuffer.data (AsyncLogger.current_setBuffer (l := s.logger) .new)
      have hfile : s'.logger.file = s.logger.file ++ s.logger.current.data := by
        rw [hlogger]
        rfl
      have hqueue' : s'.logger.flushBuffers = [] := by
        rw [hlogger]
        exact hqueue
      have hcontent := h.content
      rw [lastBytes, if_pos hnone, queuedBytes, hqueue] at hcontent
      rw [lastBytes, if_pos (hwaiting.trans hnone), queuedBytes, hqueue', hfile, hlast]
      simpa using hcontent

theorem Filled.flush (h : Filled s lines) {woken : Option AsyncLogger.Waiter}
    (hfirst : s.flusher = .timedOut → s.logger.flushBuffers = [] ∨ s.logger.current.data = []) :
    Filled (AsyncLogger.next s (.flush woken)) lines := by
  have hexclusive : Exclusive (AsyncLogger.next s (.flush woken)) := h.exclusive.flush
  obtain ⟨-, hwaiting, hlogger⟩ := AsyncLogger.next_flush h.exclusive.flush_nodup h.exclusive.fileOpen woken
  rw [if_neg (by simp [h.run])] at hlogger
  by_cases htimedOut : s.flusher = .timedOut
  · rw [if_pos htimedOut] at hlogger
    exact h.currentFlushed hexclusive hwaiting hlogger (hfirst htimedOut)
  · rw [if_neg htimedOut] at hlogger
    exact h.flushed hexclusive hwaiting hlogger

end

/-! ### Runs -/

/-- What holds throughout. -/
structure Kept (s : State) : Prop where
  fault : s.threads.fault = none
  idle : s.destroyer = .idle → Filled s.threads s.lines
  waiting : s.destroyer ≠ .idle → s.threads.waiting = []
  flushing : s.destroyer = .flushing → s.threads.logger.fileOpen = true ∧
    s.threads.logger.file ++ queuedBytes s.threads.logger ++ s.threads.logger.current.data = s.lines.flatten
  written : s.destroyer.hasWritten = true → s.threads.logger.file = s.lines.flatten
  stopped : s.destroyer = .stopped → s.threads.logger.run = false

theorem Kept.init : Kept initial where
  fault := rfl
  idle _ := Filled.init
  waiting h := absurd rfl h
  flushing h := by cases h
  written h := by cases h
  stopped h := by cases h

section

variable {s : State}

/-- The destructor has the bytes in the order in which they were passed. -/
theorem Kept.destroying (h : Kept s) (hd : s.Destroying) : s.threads.logger.fileOpen = true ∧
    s.threads.logger.file ++ queuedBytes s.threads.logger ++ s.threads.logger.current.data = s.lines.flatten := by
  obtain ⟨hidle | hflushing, hnone⟩ := hd
  · have hfilled := h.idle hidle
    refine ⟨hfilled.exclusive.fileOpen, ?_⟩
    simpa [lastBytes, hnone] using hfilled.content
  · exact h.flushing hflushing

/-- When the destructor has written what is left, only the file counts. -/
theorem Kept.of_written {t : AsyncLogger.State} {lines : List (List Byte)} {d : Destroyer} (hfault : t.fault = none)
    (hnone : t.waiting = []) (hfile : t.logger.file = lines.flatten) (hd : d.hasWritten = true)
    (hstopped : d = .stopped → t.logger.run = false) : Kept ⟨t, lines, d⟩ where
  fault := hfault
  idle hidle := by
    cases hidle
    cases hd
  waiting _ := hnone
  flushing hflushing := by
    cases hflushing
    cases hd
  written _ := hfile
  stopped := hstopped

theorem Kept.writeBuffer (h : Kept s) (hd : s.Destroying) (hqueue : s.threads.logger.flushBuffers ≠ []) :
    Kept (next s .writeBuffer) := by
  obtain ⟨hopen, hcontent⟩ := h.destroying hd
  obtain ⟨b, rest, hcons⟩ := List.exists_cons_of_ne_nil hqueue
  have hwrite : writeFront s.threads.logger = .ok { s.threads.logger with
      flushBuffers := rest, file := s.threads.logger.file ++ (s.threads.logger.buffers b).data } := by
    simp [writeFront, hcons, AsyncLogger.fwrite, hopen, bind, Except.bind, pure, Except.pure]
  simp only [next, hwrite, State.write]
  constructor
  case fault => exact h.fault
  case idle => exact fun hidle => by cases hidle
  case waiting => exact fun _ => hd.2
  case flushing =>
    refine fun _ => ⟨hopen, ?_⟩
    rw [queuedBytes, hcons] at hcontent
    simpa [State.setLogger, queuedBytes, AsyncLogger.current] using hcontent
  case written => exact fun hwritten => by cases hwritten
  case stopped => exact fun hstopped => by cases hstopped

theorem Kept.writeCurrent (h : Kept s) (hd : s.Destroying) (hqueue : s.threads.logger.flushBuffers = []) :
    Kept (next s .writeCurrent) := by
  obtain ⟨hopen, hcontent⟩ := h.destroying hd
  rw [queuedBytes, hqueue] at hcontent
  have hwrite : s.threads.logger.fwrite s.threads.logger.current.data = .ok { s.threads.logger with
      file := s.threads.logger.file ++ s.threads.logger.current.data } := by
    simp [AsyncLogger.fwrite, hopen, pure, Except.pure]
  simp only [next, hwrite, State.write]
  exact Kept.of_written h.fault hd.2 (by simpa [State.setLogger] using hcontent) rfl fun hstopped => by cases hstopped

/-- After the destructor has begun, a step of the flush thread leaves the logger alone. -/
theorem Kept.of_threads (h : Kept s) (hbegun : s.destroyer ≠ .idle) {t : AsyncLogger.State}
    (hfault : t.fault = s.threads.fault) (hwaiting : t.waiting = s.threads.waiting)
    (hlogger : t.logger = s.threads.logger) : Kept { s with threads := t } where
  fault := hfault.trans h.fault
  idle hidle := absurd hidle hbegun
  waiting _ := hwaiting.trans (h.waiting hbegun)
  flushing hflushing := by
    rw [show ({ s with threads := t } : State).threads.logger = s.threads.logger from hlogger]
    exact h.flushing hflushing
  written hwritten := by
    rw [show ({ s with threads := t } : State).threads.logger = s.threads.logger from hlogger]
    exact h.written hwritten
  stopped hstopped := by
    rw [show ({ s with threads := t } : State).threads.logger = s.threads.logger from hlogger]
    exact h.stopped hstopped

/-- Before that, what is to be shown is about the threads alone. -/
theorem Kept.of_filled {t : AsyncLogger.State} {lines : List (List Byte)} (h : Filled t lines) :
    Kept ⟨t, lines, .idle⟩ where
  fault := h.exclusive.fault
  idle _ := h
  waiting hbegun := absurd rfl hbegun
  flushing hflushing := by cases hflushing
  written hwritten := by cases hwritten
  stopped hstopped := by cases hstopped

theorem Filled.thread {t : AsyncLogger.State} {lines : List (List Byte)} (h : Filled t lines)
    {e : AsyncLogger.Event} (hcareful : Careful ⟨t, lines, .idle⟩ (.thread e)) (henabled : AsyncLogger.Enabled t e)
    (hof : OfUser ⟨t, lines, .idle⟩ e) : Filled (AsyncLogger.next t e) (lines ++ passed e) := by
  cases e with
  | append u line woken =>
    obtain ⟨rfl, -⟩ := hof
    exact h.append henabled hcareful
  | resume u line woken =>
    cases (hof : u = 0)
    simp only [passed, List.append_nil]
    exact h.resume henabled.1
  | await =>
    simp only [passed, List.append_nil]
    simp only [AsyncLogger.next, h.run, if_true]
    exact h.of_same (h.exclusive.of_queues rfl rfl rfl rfl rfl rfl) rfl rfl
  | timeout =>
    simp only [passed, List.append_nil]
    exact h.of_same (h.exclusive.of_queues rfl rfl rfl rfl rfl rfl) rfl rfl
  | flush woken =>
    simp only [passed, List.append_nil]
    rcases hcareful with hstopped | ⟨-, hfirst⟩
    · cases hstopped
    · exact h.flush hfirst

theorem Kept.thread (h : Kept s) {e : AsyncLogger.Event} (hcareful : Careful s (.thread e))
    (henabled : AsyncLogger.Enabled s.threads e) (hof : OfUser s e) : Kept (next s (.thread e)) := by
  by_cases hidle : s.destroyer = .idle
  · obtain ⟨t, lines, destroyer⟩ := s
    cases (hidle : destroyer = .idle)
    exact Kept.of_filled ((h.idle rfl).thread hcareful henabled hof)
  · have hnone := h.waiting hidle
    cases e with
    | append u line woken => exact absurd hof.2 hidle
    | resume u line woken =>
      have hmem := henabled.1
      rw [hnone] at hmem
      cases hmem
    | await =>
      simp only [next, passed, List.append_nil, AsyncLogger.next]
      split <;> exact h.of_threads hidle rfl rfl rfl
    | timeout =>
      simp only [next, passed, List.append_nil]
      exact h.of_threads hidle rfl rfl rfl
    | flush woken =>
      have hstopped : s.destroyer = .stopped := hcareful.resolve_right fun hbefore => hidle hbefore.1
      simp only [next, passed, List.append_nil, AsyncLogger.next, h.stopped hstopped, if_true]
      exact h.of_threads hidle rfl rfl rfl

theorem Kept.next {e : Event} (h : Kept s) (hcareful : Careful s e) (henabled : Enabled s e) : Kept (next s e) := by
  cases e with
  | thread e => exact h.thread hcareful henabled.1 henabled.2
  | writeBuffer => exact h.writeBuffer henabled.1 henabled.2
  | writeCurrent => exact h.writeCurrent henabled.1 henabled.2
  | close =>
    have hwritten : s.destroyer = .written := henabled
    refine Kept.of_written h.fault (h.waiting ?_) (h.written ?_) rfl fun hstopped => ?_
    · rw [hwritten]
      decide
    · rw [hwritten]
      rfl
    · cases hstopped
  | stop =>
    have hclosed : s.destroyer = .closed := henabled
    refine Kept.of_written h.fault (h.waiting ?_) (h.written ?_) rfl fun _ => rfl
    · rw [hclosed]
      decide
    · rw [hclosed]
      rfl

end

theorem Kept.of_reaches {s : State} (hreach : machine.Reaches Careful initial s) : Kept s := by
  refine hreach.invariant ?_ Kept.init
  intro t e t' h hcareful hstep
  obtain ⟨⟨-, henabled⟩, rfl⟩ := step_eq_some.1 hstep
  exact h.next hcareful henabled

/-- What a careful thread logs is in the file in the end. -/
theorem complete_of_reaches {s : State} (hreach : machine.Reaches Careful initial s) : s.Complete := by
  have h := Kept.of_reaches hreach
  exact fun hwritten => ⟨h.fault, h.written hwritten⟩

/-- A line is written after a timeout, and another one by the destructor. -/
theorem complete_of_reaches_two :
    ∃ s, machine.Reaches Careful initial s ∧ s.destroyer = .stopped ∧ s.lines = [[1], [2]] ∧ s.Complete := by
  obtain ⟨s, hreach, hstopped, hlines⟩ : ∃ s, machine.Reaches Careful initial s ∧ s.destroyer = .stopped ∧
      s.lines = [[1], [2]] :=
    Machine.exists_reaches_of_guarded
      [.thread (.append 0 [1] none), .thread .await, .thread .timeout, .thread (.flush none),
        .thread (.append 0 [2] none), .writeCurrent, .close, .stop] (by decide +kernel)
  exact ⟨s, hreach, hstopped, hlines, complete_of_reaches hreach⟩

/-! ### Where lines go wrong -/

/-- A line that fills a buffer is dropped. -/
private theorem reaches_lost {line : List Byte} (hline : line.length = LogBuffer.bufferSize) :
    ∃ s, machine.Reaches Machine.any initial s ∧ s.destroyer = .written ∧ s.lines = [line] ∧
      s.threads.logger.file = [] := by
  let t : AsyncLogger.State :=
    { AsyncLogger.initial with logger := { AsyncLogger.new.queued [1, 2, 3] with curBuffer := 1 } }
  have hfits : ¬ AsyncLogger.new.fits line = true := by
    rw [AsyncLogger.fits_iff hline.le, hline]
    decide
  have hnext : AsyncLogger.next AsyncLogger.initial (.append 0 line none) = t := by
    refine (AsyncLogger.next_append_of_cons (s := AsyncLogger.initial) hfits rfl 0 none).trans ?_
    rw [AsyncLogger.appendCurrent_of_ge hline.le]
    · rfl
    · rw [hline]
      decide
  obtain ⟨s, hrun⟩ : ∃ s, machine.run ⟨t, [line], .idle⟩ [.writeBuffer, .writeCurrent] = some s := ⟨_, rfl⟩
  have hrest := Machine.reaches_of_run hrun
  cases hrun
  refine ⟨_, Machine.Reaches.head (e := .thread (.append 0 line none)) trivial
    (step_eq_some.2 ⟨⟨rfl, ⟨?_, rfl⟩, rfl, rfl⟩, ?_⟩) hrest, rfl, rfl, rfl⟩
  · intro p hp
    cases hp
  · simp only [next, initial, hnext, passed, List.nil_append]

/-- The flush thread has missed the signal for the first buffer, and writes the second one after a timeout. -/
private theorem reaches_reordered {bytes : List Byte} (hlen : bytes.length = 600000) :
    ∃ s, machine.Reaches Machine.any initial s ∧ s.destroyer = .written ∧ s.lines = [1 :: bytes, 2 :: bytes] ∧
      s.threads.logger.file = 2 :: bytes ++ 1 :: bytes := by
  have hline : ∀ b : Byte, (b :: bytes).length = 600001 := by simp [hlen]
  have hsize : LogBuffer.bufferSize = 1048576 := rfl
  let l₁ : AsyncLogger := AsyncLogger.new.setBuffer 0 ⟨1 :: bytes⟩
  let l₂ : AsyncLogger := { l₁.queued [1, 2, 3] with curBuffer := 1 }.setBuffer 1 ⟨2 :: bytes⟩
  have hfirst : AsyncLogger.next AsyncLogger.initial (.append 0 (1 :: bytes) none) =
      { AsyncLogger.initial with logger := l₁ } := by
    have hroom : (1 :: bytes).length < AsyncLogger.new.current.available := by
      rw [hline]
      decide
    rw [AsyncLogger.next_append_of_fits ((AsyncLogger.fits_iff (by rw [hline, hsize]; omega)).2 hroom)]
    exact congrArg (fun l => { AsyncLogger.initial with logger := l }) (AsyncLogger.appendCurrent_of_lt hroom)
  have hsecond : AsyncLogger.next { AsyncLogger.initial with logger := l₁ } (.append 0 (2 :: bytes) none) =
      { AsyncLogger.initial with logger := l₂ } := by
    have hfull : l₁.current.available = 1048576 - 600001 := by
      show LogBuffer.bufferSize - (1 :: bytes).length = _
      rw [hline, hsize]
    have hfits : ¬ l₁.fits (2 :: bytes) = true := by
      rw [AsyncLogger.fits_iff (by rw [hline, hsize]; omega), hfull, hline]
      omega
    have hroom :
        (2 :: bytes).length < ({ l₁.queued [1, 2, 3] with curBuffer := 1 } : AsyncLogger).current.available := by
      show _ < LogBuffer.bufferSize
      rw [hline, hsize]
      omega
    refine (AsyncLogger.next_append_of_cons (s := { AsyncLogger.initial with logger := l₁ }) hfits rfl 0 none).trans ?_
    rw [AsyncLogger.appendCurrent_of_lt hroom]
    rfl
  have hnobody : ∀ p ∈ ([] : List (Nat × List Byte)), p.1 ≠ 0 := fun p hp => by cases hp
  have hstep₁ : machine.step initial (.thread (.append 0 (1 :: bytes) none)) =
      some ⟨{ AsyncLogger.initial with logger := l₁ }, [1 :: bytes], .idle⟩ := by
    refine step_eq_some.2 ⟨⟨rfl, ⟨hnobody, rfl⟩, rfl, rfl⟩, ?_⟩
    simp only [next, initial, hfirst, passed, List.nil_append]
  have hstep₂ : machine.step ⟨{ AsyncLogger.initial with logger := l₁ }, [1 :: bytes], .idle⟩
      (.thread (.append 0 (2 :: bytes) none)) =
      some ⟨{ AsyncLogger.initial with logger := l₂ }, [1 :: bytes, 2 :: bytes], .idle⟩ := by
    refine step_eq_some.2 ⟨⟨rfl, ⟨hnobody, rfl⟩, rfl, rfl⟩, ?_⟩
    simp only [next, hsecond, passed, List.cons_append, List.nil_append]
  obtain ⟨s, hrun⟩ : ∃ s, machine.run ⟨{ AsyncLogger.initial with logger := l₂ }, [1 :: bytes, 2 :: bytes], .idle⟩
      [.thread .await, .thread .timeout, .thread (.flush none), .writeBuffer, .writeCurrent] = some s := ⟨_, rfl⟩
  have hrest := Machine.reaches_of_run hrun
  cases hrun
  refine ⟨_, Machine.Reaches.head trivial hstep₁ (Machine.Reaches.head trivial hstep₂ hrest), rfl, rfl, ?_⟩
  show 2 :: bytes ++ 1 :: bytes ++ [] = _
  rw [List.append_nil]

/-- A line may be lost, written twice, or written in front of an earlier one. -/
theorem not_complete :
    (∃ s, machine.Reaches Machine.any initial s ∧ s.destroyer = .written ∧ s.threads.logger.file = [] ∧
      s.lines.flatten ≠ []) ∧
    (∃ s, machine.Reaches Machine.any initial s ∧ s.destroyer = .written ∧ s.threads.logger.file = [1, 1] ∧
      s.lines.flatten = [1]) ∧
    ∃ s bytes, machine.Reaches Machine.any initial s ∧ s.destroyer = .written ∧
      s.threads.logger.file = 2 :: bytes ++ 1 :: bytes ∧ s.lines.flatten = 1 :: bytes ++ 2 :: bytes := by
  refine ⟨?_, ?_, ?_⟩
  · obtain ⟨s, hreach, hwritten, hlines, hfile⟩ :=
      reaches_lost (List.length_replicate (n := LogBuffer.bufferSize) (a := (0 : Byte)))
    refine ⟨s, hreach, hwritten, hfile, ?_⟩
    rw [hlines, List.flatten_singleton, Ne, List.replicate_eq_nil_iff]
    decide
  · exact Machine.exists_reaches_of_run
      [.thread (.append 0 [1] none), .thread .await, .thread .timeout, .writeCurrent, .thread (.flush none)]
      (fun _ _ _ => trivial) (by decide +kernel)
  · obtain ⟨bytes, hlen⟩ : ∃ bytes : List Byte, bytes.length = 600000 :=
      ⟨List.replicate 600000 0, List.length_replicate⟩
    obtain ⟨s, hreach, hwritten, hlines, hfile⟩ := reaches_reordered hlen
    exact ⟨s, bytes, hreach, hwritten, hfile, by simp [hlines]⟩

end LoggerLife

end AcidCompute

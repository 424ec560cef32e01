import AcidCompute.Logger.Basic

/-!
# The queues of buffers of a logger

While an `append` waits for a buffer, `cur_buffer_` is not at the front of the free ones.  Another `append` whose line
does not fit takes a buffer from that queue all the same: from an empty one (`not_owned_second`), or the buffer that the
first one has been woken for.  If none does, every buffer stays in one of the queues (`owned_of_reaches`).
-/

namespace AcidCompute

namespace AsyncLogger

/-- The queues have not been misused and hold every buffer once, and unless an `append` waits the current buffer is the
front of the free ones. -/
def State.Owned (s : State) : Prop :=
  s.fault = none ∧ (s.logger.freeBuffers ++ s.logger.flushBuffers).Perm (List.range bufferNum) ∧
    (s.waiting = [] → s.logger.freeBuffers.head? = some s.logger.curBuffer)

/-- A line that does not fit comes only while no `append` waits. -/
def Alone (s : State) : Event → Prop
  | .append _ line _ => s.waiting = [] ∨ s.logger.fits line = true
  | _ => True

instance (s : State) : (e : Event) → Decidable (Alone s e)
  | .append _ _ _ => inferInstanceAs (Decidable (_ ∨ _))
  | .resume _ _ _ | .await | .timeout | .flush _ => inferInstanceAs (Decidable True)

/-! ### What the parts of a step do -/

section

variable {l : AsyncLogger} {s : State}

@[simp] theorem setBuffer_curBuffer (b : Nat) (buffer : LogBuffer) :
    (l.setBuffer b buffer).curBuffer = l.curBuffer := rfl

@[simp] theorem setBuffer_freeBuffers (b : Nat) (buffer : LogBuffer) :
    (l.setBuffer b buffer).freeBuffers = l.freeBuffers := rfl

@[simp] theorem setBuffer_flushBuffers (b : Nat) (buffer : LogBuffer) :
    (l.setBuffer b buffer).flushBuffers = l.flushBuffers := rfl

@[simp] theorem setBuffer_file (b : Nat) (buffer : LogBuffer) : (l.setBuffer b buffer).file = l.file := rfl

@[simp] theorem setBuffer_run (b : Nat) (buffer : LogBuffer) : (l.setBuffer b buffer).run = l.run := rfl

theorem setBuffer_of_ne {b c : Nat} (h : c ≠ b) (buffer : LogBuffer) :
    (l.setBuffer b buffer).buffers c = l.buffers c := Function.update_of_ne h _ _

@[simp] theorem current_setBuffer (buffer : LogBuffer) : (l.setBuffer l.curBuffer buffer).current = buffer :=
  Function.update_self _ _ _

@[simp] theorem signal_logger (woken : Option Waiter) : (s.signal woken).logger = s.logger := by
  cases woken <;> rfl

@[simp] theorem signal_waiting (woken : Option Waiter) : (s.signal woken).waiting = s.waiting := by
  cases woken <;> rfl

@[simp] theorem signal_fault (woken : Option Waiter) : (s.signal woken).fault = s.fault := by
  cases woken <;> rfl

/-- There is no free buffer, and the call waits. -/
theorem takeBuffer_of_nil (h : s.logger.freeBuffers = []) (t : Nat) (line : List Byte) (woken : Option Waiter) :
    (s.takeBuffer t line woken).logger = s.logger ∧ (s.takeBuffer t line woken).fault = s.fault ∧
      (s.takeBuffer t line woken).waiting = s.waiting ++ [(t, line)] := by
  simp [State.takeBuffer, h]

theorem takeBuffer_of_cons {front : Nat} {rest : List Nat} (h : s.logger.freeBuffers = front :: rest) (t : Nat)
    (line : List Byte) (woken : Option Waiter) :
    s.takeBuffer t line woken =
      { s with logger := { s.logger with curBuffer := front }.appendCurrent line }.signal woken := by
  simp [State.takeBuffer, AsyncLogger.appendFront, h, pure, Except.pure]

/-- For a line that is no longer than a buffer the conversions of its length change nothing. -/
theorem len_eq {line : List Byte} (hline : line.length ≤ LogBuffer.bufferSize) :
    (len line).toInt = line.length ∧ ((len line).signExtend 64).toNat = line.length := by
  have hlt : line.length < 2 ^ 31 := lt_of_le_of_lt hline (by decide)
  have htoNat : (len line).toNat = line.length := by
    rw [len, BitVec.toNat_ofNat]
    omega
  constructor
  · rw [BitVec.toInt_eq_toNat_of_lt (by omega), htoNat]
  · rw [BitVec.signExtend_eq_setWidth_of_msb_false (BitVec.msb_eq_false_iff_two_mul_lt.2 (by omega)),
      BitVec.toNat_setWidth, htoNat]
    omega

theorem fits_iff {line : List Byte} (hline : line.length ≤ LogBuffer.bufferSize) :
    l.fits line = true ↔ line.length < l.current.available := by
  simp [fits, (len_eq hline).1]

theorem appendCurrent_of_lt {line : List Byte} (hline : line.length < l.current.available) :
    l.appendCurrent line = l.setBuffer l.curBuffer ⟨l.current.data ++ line⟩ := by
  have hle : line.length ≤ LogBuffer.bufferSize := hline.le.trans (Nat.sub_le _ _)
  simp [appendCurrent, LogBuffer.append, (len_eq hle).2, hline]

/-- The buffer drops a line for which it has no room. -/
theorem appendCurrent_of_ge {line : List Byte} (hline : line.length ≤ LogBuffer.bufferSize)
    (hfull : l.current.available ≤ line.length) : l.appendCurrent line = l := by
  have hsame : Function.update l.buffers l.curBuffer l.current = l.buffers := Function.update_eq_self _ _
  simp [appendCurrent, LogBuffer.append, (len_eq hline).2, Nat.not_lt.2 hfull, setBuffer, hsame]

/-- The current buffer has gone from the front of one queue to the end of the other. -/
def queued (l : AsyncLogger) (rest : List Nat) : AsyncLogger :=
  { l with freeBuffers := rest, flushBuffers := l.flushBuffers ++ [l.curBuffer] }

/-- No buffer gets lost when the current one goes to the flush thread. -/
theorem queued_perm {rest : List Nat} (hfree : l.freeBuffers = l.curBuffer :: rest) :
    ((l.queued rest).freeBuffers ++ (l.queued rest).flushBuffers).Perm (l.freeBuffers ++ l.flushBuffers) := by
  show (rest ++ (l.flushBuffers ++ [l.curBuffer])).Perm _
  rw [hfree, ← List.append_assoc]
  exact List.perm_append_singleton _ _

/-- A line that fits goes to the current buffer. -/
theorem next_append_of_fits {line : List Byte} (hfits : s.logger.fits line = true) (t : Nat) (woken : Option Waiter) :
    next s (.append t line woken) = { s with logger := s.logger.appendCurrent line } := by
  simp [next, hfits]

/-- Another one sends the current buffer to the flush thread. -/
theorem next_append_of_not_fits {line : List Byte} (hfits : ¬ s.logger.fits line = true) {front : Nat}
    {rest : List Nat} (hfree : s.logger.freeBuffers = front :: rest) (t : Nat) (woken : Option Waiter) :
    next s (.append t line woken) = { s with logger := s.logger.queued rest }.takeBuffer t line woken := by
  simp [next, hfits, queueCurrent, queued, hfree, pure, Except.pure]

/-- It goes to the next free buffer. -/
theorem next_append_of_cons {line : List Byte} (hfits : ¬ s.logger.fits line = true) {front b : Nat} {rest : List Nat}
    (hfree : s.logger.freeBuffers = front :: b :: rest) (t : Nat) (woken : Option Waiter) :
    next s (.append t line woken) = { s with
      logger := { s.logger.queued (b :: rest) with curBuffer := b }.appendCurrent line }.signal woken := by
  rw [next_append_of_not_fits hfits hfree]
  exact takeBuffer_of_cons rfl t line woken

/-! ### What the flush thread does -/

/-- All buffers in the queue are written, in order, and are free. -/
def flushed (l : AsyncLogger) : AsyncLogger :=
  { l with
    buffers := fun b => if b ∈ l.flushBuffers then .new else l.buffers b
    freeBuffers := l.freeBuffers ++ l.flushBuffers
    flushBuffers := []
    file := l.file ++ l.flushBuffers.flatMap fun b => (l.buffers b).data }

/-- The current buffer is written. -/
def currentFlushed (l : AsyncLogger) : AsyncLogger :=
  { l with file := l.file ++ l.current.data }.setBuffer l.curBuffer .new

private theorem flushLoop_eq {bs : List Nat} (hflush : l.flushBuffers = bs) (hnodup : bs.Nodup)
    (hopen : l.fileOpen = true) : flushLoop bs l = .ok l.flushed := by
  induction bs generalizing l with
  | nil =>
    obtain ⟨buffers, curBuffer, freeBuffers, flushBuffers, run, file, fileOpen⟩ := l
    cases hflush
    simp [flushLoop, flushed, pure, Except.pure]
  | cons b rest ih =>
    obtain ⟨hb, hrest⟩ := List.nodup_cons.1 hnodup
    let l₁ : AsyncLogger := { l with
      buffers := Function.update l.buffers b .new
      freeBuffers := l.freeBuffers ++ [b]
      flushBuffers := rest
      file := l.file ++ (l.buffers b).data }
    have hfirst : flushLoop (b :: rest) l = flushLoop rest l₁ := by
      simp [flushLoop, fwrite, hopen, l₁, setBuffer, bind, Except.bind, pure, Except.pure]
    have hcontents : (rest.flatMap fun c => (l₁.buffers c).data) = rest.flatMap fun c => (l.buffers c).data := by
      have hsame : ∀ c ∈ rest, (l₁.buffers c).data = (l.buffers c).data := by
        intro c hc
        simp only [l₁, Function.update_of_ne (ne_of_mem_of_not_mem hc hb)]
      simp only [List.flatMap_def, List.map_congr_left hsame]
    have hbuffers : (fun c => if c ∈ rest then LogBuffer.new else l₁.buffers c) =
        fun c => if c ∈ b :: rest then LogBuffer.new else l.buffers c := by
      funext c
      by_cases hc : c = b
      · simp [l₁, hc]
      · simp [l₁, hc]
    rw [hfirst, ih (l := l₁) rfl hrest hopen]
    unfold flushed
    rw [hflush]
    dsimp only [l₁] at hcontents hbuffers ⊢
    rw [hbuffers, hcontents]
    simp

theorem flushAll_eq (hnodup : l.flushBuffers.Nodup) (hopen : l.fileOpen = true) : l.flushAll = .ok l.flushed :=
  flushLoop_eq rfl hnodup hopen

theorem currentFlushed_of_empty (h : l.current.data = []) : l.currentFlushed = l := by
  have hnew : Function.update l.buffers l.curBuffer .new = l.buffers := by
    rw [show LogBuffer.new = l.buffers l.curBuffer from congrArg LogBuffer.mk h.symm, Function.update_eq_self]
  simp [currentFlushed, h, setBuffer, hnew]

theorem flushCurrent_eq (hopen : l.fileOpen = true) : l.flushCurrent = .ok l.currentFlushed := by
  unfold flushCurrent
  by_cases hempty : l.current.length = 0
  · rw [if_pos hempty, currentFlushed_of_empty (List.length_eq_zero_iff.1 hempty)]
    rfl
  · simp [hempty, currentFlushed, fwrite, hopen, bind, Except.bind, pure, Except.pure]

/-- Whichever way the flush thread comes out of its wait, nothing changes but the logger and who waits on `m_cond`. -/
theorem next_flush (hnodup : s.logger.flushBuffers.Nodup) (hopen : s.logger.fileOpen = true) (woken : Option Waiter) :
    (next s (.flush woken)).fault = s.fault ∧ (next s (.flush woken)).waiting = s.waiting ∧
      (next s (.flush woken)).logger =
        if s.logger.run = false then s.logger
        else if s.flusher = .timedOut then s.logger.currentFlushed else s.logger.flushed := by
  by_cases hrun : s.logger.run = false
  · simp [next, hrun]
  · cases hflusher : s.flusher with
    | timedOut => simp [next, hrun, hflusher, flushCurrent_eq hopen]
    | outside | waiting | finished =>
      by_cases hempty : s.logger.freeBuffers = []
      · simp [next, hrun, hflusher, flushAll_eq hnodup hopen, hempty]
      · simp [next, hrun, hflusher, flushAll_eq hnodup hopen, hempty]

end

/-! ### One step -/

/-- What holds in every state of a run in which no line that does not fit comes while an `append` waits. -/
structure Exclusive (s : State) : Prop where
  fault : s.fault = none
  fileOpen : s.logger.fileOpen = true
  perm : (s.logger.freeBuffers ++ s.logger.flushBuffers).Perm (List.range bufferNum)
  front : s.waiting = [] → s.logger.freeBuffers.head? = some s.logger.curBuffer
  waiting_le : s.waiting.length ≤ 1

theorem Exclusive.init : Exclusive initial where
  fault := rfl
  fileOpen := rfl
  perm := by decide
  front := by decide
  waiting_le := Nat.zero_le 1

section

variable {s : State}

theorem Exclusive.nodup (h : Exclusive s) : (s.logger.freeBuffers ++ s.logger.flushBuffers).Nodup :=
  h.perm.nodup_iff.2 List.nodup_range

theorem Exclusive.flush_nodup (h : Exclusive s) : s.logger.flushBuffers.Nodup := (List.nodup_append.1 h.nodup).2.1

/-- What a step may change besides the queues does not matter. -/
theorem Exclusive.of_queues (h : Exclusive s) {s' : State} (hfault : s'.fault = s.fault)
    (hopen : s'.logger.fileOpen = s.logger.fileOpen) (hfree : s'.logger.freeBuffers = s.logger.freeBuffers)
    (hflush : s'.logger.flushBuffers = s.logger.flushBuffers) (hcur : s'.logger.curBuffer = s.logger.curBuffer)
    (hwaiting : s'.waiting = s.waiting) : Exclusive s' where
  fault := hfault.trans h.fault
  fileOpen := hopen.trans h.fileOpen
  perm := by
    rw [hfree, hflush]
    exact h.perm
  front hnone := by
    rw [hfree, hcur]
    exact h.front (hwaiting ▸ hnone)
  waiting_le := hwaiting ▸ h.waiting_le

/-- Nobody waits any more but the call that looks for a buffer. -/
theorem Exclusive.takeBuffer (hfault : s.fault = none) (hopen : s.logger.fileOpen = true)
    (hperm : (s.logger.freeBuffers ++ s.logger.flushBuffers).Perm (List.range bufferNum)) (hnone : s.waiting = [])
    (t : Nat) (line : List Byte) (woken : Option Waiter) : Exclusive (s.takeBuffer t line woken) := by
  cases hfree : s.logger.freeBuffers with
  | nil =>
    obtain ⟨hlogger, hfault', hwaiting⟩ := takeBuffer_of_nil hfree t line woken
    constructor
    case fault => rw [hfault', hfault]
    case fileOpen => rw [hlogger, hopen]
    case perm =>
      rw [hlogger]
      exact hperm
    case front => simp [hwaiting]
    case waiting_le => simp [hwaiting, hnone]
  | cons front rest =>
    rw [takeBuffer_of_cons hfree]
    constructor
    case fault => simpa using hfault
    case fileOpen => simpa [appendCurrent, setBuffer] using hopen
    case perm => simpa [appendCurrent, setBuffer] using hperm
    case front => simp [appendCurrent, setBuffer, hfree]
    case waiting_le => simp [hnone]

theorem Exclusive.append (h : Exclusive s) {t : Nat} {line : List Byte} {woken : Option Waiter}
    (ha : Alone s (.append t line woken)) : Exclusive (next s (.append t line woken)) := by
  by_cases hfits : s.logger.fits line = true
  · rw [next_append_of_fits hfits]
    exact h.of_queues rfl rfl rfl rfl rfl rfl
  · have hnone : s.waiting = [] := ha.resolve_right hfits
    obtain ⟨rest, hfree⟩ := List.head?_eq_some_iff.1 (h.front hnone)
    rw [next_append_of_not_fits hfits hfree]
    exact Exclusive.takeBuffer (s := { s with logger := s.logger.queued rest }) h.fault h.fileOpen
      ((queued_perm hfree).trans h.perm) hnone t line woken

/-- The only call that waits. -/
theorem Exclusive.waiting_eq (h : Exclusive s) {p : Nat × List Byte} (hmem : p ∈ s.waiting) : s.waiting = [p] := by
  obtain ⟨q, hq⟩ := List.length_eq_one_iff.1 (Nat.le_antisymm h.waiting_le (List.length_pos_of_mem hmem))
  rw [hq] at hmem ⊢
  rw [List.mem_singleton.1 hmem]

theorem Exclusive.resume (h : Exclusive s) {t : Nat} {line : List Byte} {woken : Option Waiter}
    (hmem : (t, line) ∈ s.waiting) : Exclusive (next s (.resume t line woken)) := by
  have hnone : s.waiting.erase (t, line) = [] := by simp [h.waiting_eq hmem]
  exact Exclusive.takeBuffer (s := { s with waiting := s.waiting.erase (t, line) }) h.fault h.fileOpen h.perm hnone
    t line woken

theorem Exclusive.flushed (h : Exclusive s) {s' : State} (hfault : s'.fault = s.fault)
    (hwaiting : s'.waiting = s.waiting) (hlogger : s'.logger = s.logger.flushed) : Exclusive s' where
  fault := hfault.trans h.fault
  fileOpen := by
    rw [hlogger]
    exact h.fileOpen
  perm := by
    rw [hlogger]
    simpa [AsyncLogger.flushed] using h.perm
  front hnone := by
    obtain ⟨rest, hfree⟩ := List.head?_eq_some_iff.1 (h.front (hwaiting ▸ hnone))
    simp [hlogger, AsyncLogger.flushed, hfree]
  waiting_le := hwaiting ▸ h.waiting_le

theorem Exclusive.flush (h : Exclusive s) {woken : Option Waiter} : Exclusive (next s (.flush woken)) := by
  obtain ⟨hfault, hwaiting, hlogger⟩ := next_flush h.flush_nodup h.fileOpen woken
  by_cases hrun : s.logger.run = false
  · rw [if_pos hrun] at hlogger
    exact h.of_queues hfault (by rw [hlogger]) (by rw [hlogger]) (by rw [hlogger]) (by rw [hlogger]) hwaiting
  · rw [if_neg hrun] at hlogger
    by_cases htimedOut : s.flusher = .timedOut
    · rw [if_pos htimedOut] at hlogger
      refine h.of_queues hfault ?_ ?_ ?_ ?_ hwaiting <;> rw [hlogger] <;> rfl
    · rw [if_neg htimedOut] at hlogger
      exact h.flushed hfault hwaiting hlogger

theorem Exclusive.next {e : Event} (h : Exclusive s) (ha : Alone s e) (henabled : Enabled s e) :
    Exclusive (next s e) := by
  cases e with
  | append t line woken => exact h.append ha
  | resume t line woken => exact h.resume henabled.1
  | await =>
    simp only [AsyncLogger.next]
    split <;> exact h.of_queues rfl rfl rfl rfl rfl rfl
  | timeout => exact h.of_queues rfl rfl rfl rfl rfl rfl
  | flush woken => exact h.flush

end

/-! ### Runs -/

theorem Exclusive.of_reaches {s : State} (hreach : machine.Reaches Alone initial s) : Exclusive s := by
  refine hreach.invariant ?_ Exclusive.init
  intro t e t' h ha hstep
  obtain ⟨⟨-, henabled⟩, rfl⟩ := step_eq_some.1 hstep
  exact h.next ha henabled

/-- With any number of threads, every buffer is in one of the queues, as long as no line that does not fit comes while
an `append` waits. -/
theorem owned_of_reaches {s : State} (hreach : machine.Reaches Alone initial s) : s.Owned := by
  have h := Exclusive.of_reaches hreach
  exact ⟨h.fault, h.perm, h.front⟩

/-- Two threads write, and the flush thread has a timeout. -/
theorem owned_of_reaches_two :
    ∃ s, machine.Reaches Alone initial s ∧ s.logger.file = [1, 2] ∧ s.Owned := by
  obtain ⟨s, hreach, hfile⟩ : ∃ s, machine.Reaches Alone initial s ∧ s.logger.file = [1, 2] :=
    Machine.exists_reaches_of_guarded
      [.append 0 [1] none, .await, .append 1 [2] (some .flusher), .timeout, .flush none] (by decide +kernel)
  exact ⟨s, hreach, hfile, owned_of_reaches hreach⟩

/-! ### A second call that finds the buffer full -/

/-- The current buffer has no room for another line of this kind, and the other free ones are empty. -/
structure Full (line : List Byte) (rest : List Nat) (s : State) : Prop where
  fault : s.fault = none
  waiting : s.waiting = []
  waiters : s.waiters = []
  current : s.logger.current.data = line
  free : s.logger.freeBuffers = s.logger.curBuffer :: rest
  nodup : s.logger.freeBuffers.Nodup
  empty : ∀ b ∈ rest, s.logger.buffers b = .new

section

variable {s : State} {line : List Byte}

theorem Full.not_fits {rest : List Nat} (h : Full line rest s) (hline : line.length + 1 = LogBuffer.bufferSize) :
    ¬ s.logger.fits line = true := by
  rw [fits_iff (by omega)]
  have havailable : s.logger.current.available = LogBuffer.bufferSize - line.length := by
    rw [LogBuffer.available, LogBuffer.length, h.current]
  have hlarge : 2 < LogBuffer.bufferSize := by decide
  omega

/-- The next buffer is filled. -/
theorem Full.append {b : Nat} {rest : List Nat} (h : Full line (b :: rest) s)
    (hline : line.length + 1 = LogBuffer.bufferSize) :
    ∃ s', machine.step s (.append 0 line none) = some s' ∧ Full line rest s' := by
  have hnext := next_append_of_cons (h.not_fits hline) h.free 0 none
  refine ⟨_, step_eq_some.2 ⟨⟨h.fault, by simp [h.waiting], h.waiters⟩, hnext⟩, ?_⟩
  have hempty : s.logger.buffers b = .new := h.empty b List.mem_cons_self
  have hnodup : (b :: rest).Nodup := by
    have hall := h.nodup
    rw [h.free] at hall
    exact (List.nodup_cons.1 hall).2
  have hfits : line.length < ({ s.logger.queued (b :: rest) with curBuffer := b } : AsyncLogger).current.available := by
    have havailable : ({ s.logger.queued (b :: rest) with curBuffer := b } : AsyncLogger).current.available =
        LogBuffer.bufferSize := by
      show (s.logger.buffers b).available = _
      rw [hempty]
      rfl
    omega
  rw [appendCurrent_of_lt hfits]
  constructor
  case fault => exact h.fault
  case waiting => exact h.waiting
  case waiters => exact h.waiters
  case current =>
    show (Function.update s.logger.buffers b ⟨(s.logger.buffers b).data ++ line⟩ b).data = line
    rw [Function.update_self, hempty]
    rfl
  case free => rfl
  case nodup => exact hnodup
  case empty =>
    intro c hc
    show Function.update s.logger.buffers b _ c = .new
    rw [Function.update_of_ne (ne_of_mem_of_not_mem hc (List.nodup_cons.1 hnodup).1)]
    exact h.empty c (List.mem_cons_of_mem b hc)

/-- The last buffer is full too, and then two threads come. -/
theorem Full.misused (h : Full line [] s) (hline : line.length + 1 = LogBuffer.bufferSize) :
    ∃ s', machine.Reaches Machine.any s s' ∧ s'.fault = some .emptyQueue := by
  have hfirst := next_append_of_not_fits (h.not_fits hline) h.free 0 none
  let s₁ : State := next s (.append 0 line none)
  have hlogger : s₁.logger = s.logger.queued [] := by
    rw [show s₁ = _ from hfirst]
    exact (takeBuffer_of_nil (s := { s with logger := s.logger.queued [] }) rfl 0 line none).1
  have hstate : s₁.fault = none ∧ s₁.waiting = [(0, line)] ∧ s₁.waiters = [.appender 0] := by
    rw [show s₁ = _ from hfirst]
    simp [State.takeBuffer, State.signal, queued, h.fault, h.waiting, h.waiters]
  obtain ⟨hfault, hwaiting, hwaiters⟩ := hstate
  have hsecond : next s₁ (.append 1 line (some (.appender 0))) = { s₁ with fault := some .emptyQueue } := by
    have hfits : ¬ s₁.logger.fits line = true := by
      rw [hlogger]
      exact h.not_fits hline
    have hqueue : s₁.logger.queueCurrent = .error .emptyQueue := by
      rw [hlogger]
      rfl
    simp [next, hfits, hqueue]
  refine ⟨_, ?_, congrArg State.fault hsecond⟩
  refine Machine.Reaches.head (e := .append 0 line none) trivial
    (step_eq_some.2 ⟨⟨h.fault, by simp [h.waiting], h.waiters⟩, rfl⟩) ?_
  refine Machine.Reaches.single (e := .append 1 line (some (.appender 0))) trivial
    (step_eq_some.2 ⟨⟨hfault, ?_, ?_⟩, rfl⟩)
  · show ∀ p ∈ s₁.waiting, p.1 ≠ 1
    simp [hwaiting]
  · show Waiter.appender 0 ∈ s₁.waiters
    simp [hwaiters]

end

/-- Two threads come with a line that does not fit when all buffers are full. -/
theorem not_owned_second : ∃ s, machine.Reaches Machine.any initial s ∧ s.fault = some .emptyQueue := by
  obtain ⟨line, hline⟩ : ∃ line : List Byte, line.length + 1 = LogBuffer.bufferSize := by
    refine ⟨List.replicate (LogBuffer.bufferSize - 1) 0, ?_⟩
    rw [List.length_replicate]
    decide
  have hroom : line.length < initial.logger.current.available := by
    have hempty : initial.logger.current.available = LogBuffer.bufferSize := rfl
    omega
  have hfirst := next_append_of_fits ((fits_iff (l := initial.logger) (by omega)).2 hroom) 0 none
  have hfull : Full line [1, 2, 3] (next initial (.append 0 line none)) := by
    rw [hfirst, appendCurrent_of_lt hroom]
    constructor
    case fault | waiting | waiters | current | free => rfl
    case nodup => show [0, 1, 2, 3].Nodup; decide
    case empty =>
      intro b hb
      show Function.update (fun _ => LogBuffer.new) 0 _ b = .new
      rw [Function.update_of_ne (ne_of_mem_of_not_mem hb (by decide))]
  obtain ⟨s₁, hstep₁, h₁⟩ := hfull.append hline
  obtain ⟨s₂, hstep₂, h₂⟩ := h₁.append hline
  obtain ⟨s₃, hstep₃, h₃⟩ := h₂.append hline
  obtain ⟨s, hreach, hfault⟩ := h₃.misused hline
  refine ⟨s, ?_, hfault⟩
  refine Machine.Reaches.head (e := .append 0 line none) trivial
    (step_eq_some.2 ⟨⟨rfl, by simp [initial], rfl⟩, rfl⟩) ?_
  exact Machine.Reaches.head trivial hstep₁ (Machine.Reaches.head trivial hstep₂
    (Machine.Reaches.head trivial hstep₃ hreach))

end AsyncLogger

end AcidCompute

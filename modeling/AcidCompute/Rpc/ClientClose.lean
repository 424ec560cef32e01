import AcidCompute.Rpc.ClientIds

/-!
# Calls and `close`

`close` wakes the calls that have an entry in `m_response_handle`.  A call that registers after that, having found the
connection open before, is woken by nobody (`hung_late_registration`).  If no call registers once `m_is_close` is set,
and each is answered at most once, `close` gets through and every registered call returns (`released_of_reaches`).
-/

namespace AcidCompute

namespace RpcClient

/-- The call waits in `channel >> response`. -/
def Call.Blocked (call : Call) : Prop := call.phase = .waiting ∧ call.queue = [] ∧ call.closed = false

/-- The response has been popped, and the entry not yet erased. -/
def Call.Popped (call : Call) : Prop := call.phase = .received ∨ call.phase = .cancelled

/-- `m_is_close` is set and no step will ever push to the channel that the call waits on, or close it. -/
def Hung (config : Config) (s : State) (c : Nat) : Prop :=
  s.isClose = true ∧ ∀ s', (machine config).Reaches Machine.any s s' → (s'.calls c).Blocked

/-- Calls register before `close` begins and under a free id, and are answered at most once. -/
structure Orderly (s : State) (e : Event) : Prop where
  register : ∀ c, e = .register c → s.isClose = false ∧ s.responseHandle.find s.sequenceId = none
  lookUp : ∀ r, e = .lookUp r → ∀ x, s.responseHandle.find r.sequenceId = some x →
    (s.calls x.value).Unanswered ∧ (s.calls x.value).queue = []

/-- What holds of the calls while `close` runs and after. -/
structure Closing (s : State) : Prop where
  untimed : ∀ c, (s.calls c).closed = false ∧ (s.calls c).timeout = false
  queue_le : ∀ c, (s.calls c).queue.length ≤ 1
  sendClosed : s.sendClosed = s.isClose
  popped : s.closer = .idle → ∀ c, (s.calls c).Popped → (s.calls c).queue = []
  pushing : ∀ r c, s.receiver = .pushing r c →
    s.closer = .idle ∧ (s.calls c).Unanswered ∧ (s.calls c).queue = []
  idle : s.closer = .idle → s.isClose = false
  notifying : ∀ rest, s.closer = .notifying rest → s.isClose = true ∧ rest.Nodup ∧
    (∀ c ∈ rest, (s.calls c).Pending ∧ ((s.calls c).Popped → (s.calls c).queue = [])) ∧
    ∀ c, (s.calls c).Unanswered → c ∈ rest ∨ (s.calls c).queue ≠ []
  finished : s.closer = .finished → s.isClose = true ∧ s.connected = false ∧ s.responseHandle.entries = [] ∧
    ∀ c, (s.calls c).Unanswered → (s.calls c).queue ≠ []

theorem Closing.init : Closing connectedClient where
  untimed c := ⟨rfl, rfl⟩
  queue_le c := Nat.zero_le 1
  sendClosed := rfl
  popped _ c _ := rfl
  pushing r c h := by cases h
  idle _ := rfl
  notifying rest h := by cases h
  finished h := by cases h

/-- How a call may change without upsetting `close`. -/
structure Advances (old new : Call) : Prop where
  untimed : new.closed = false ∧ new.timeout = false
  queue_le : new.queue.length ≤ 1
  unanswered : new.Unanswered → old.Unanswered ∧ (old.queue ≠ [] → new.queue ≠ [])
  popped : new.Popped → (old.Popped → old.queue = []) → new.queue = []

theorem Closing.update {s : State} (h : Closing s) {c : Nat} {call : Call} (ha : Advances (s.calls c) call)
    (hpending : s.closer.holdsMutex = true → (s.calls c).Pending → call.Pending)
    (hheld : ∀ r, s.receiver = .pushing r c → (s.calls c).Unanswered → (s.calls c).queue = [] →
      call.Unanswered ∧ call.queue = []) : Closing (s.setCall c call) where
  untimed := by
    apply forall_setCall (P := fun _ x => x.closed = false ∧ x.timeout = false)
    · exact ha.untimed
    · intro d _
      exact h.untimed d
  queue_le := by
    apply forall_setCall (P := fun _ x => x.queue.length ≤ 1)
    · exact ha.queue_le
    · intro d _
      exact h.queue_le d
  sendClosed := h.sendClosed
  popped hidle := by
    apply forall_setCall (P := fun _ x => x.Popped → x.queue = [])
    · intro hpopped
      exact ha.popped hpopped (h.popped hidle c)
    · intro d _
      exact h.popped hidle d
  pushing r := by
    apply forall_setCall (P := fun d x => s.receiver = .pushing r d → s.closer = .idle ∧ x.Unanswered ∧ x.queue = [])
    · intro hd
      obtain ⟨hidle, hun, hempty⟩ := h.pushing r c hd
      exact ⟨hidle, hheld r hd hun hempty⟩
    · intro d _
      exact h.pushing r d
  idle := h.idle
  notifying rest hrest := by
    have hheld : s.closer.holdsMutex = true := by
      rw [show s.closer = .notifying rest from hrest]
      rfl
    obtain ⟨hclose, hnodup, hmem, hall⟩ := h.notifying rest hrest
    refine ⟨hclose, hnodup, ?_, ?_⟩
    · apply forall_setCall (P := fun d x => d ∈ rest → x.Pending ∧ (x.Popped → x.queue = []))
      · intro hc
        exact ⟨hpending hheld (hmem c hc).1, fun hpopped => ha.popped hpopped (hmem c hc).2⟩
      · intro d _
        exact hmem d
    · apply forall_setCall (P := fun d x => x.Unanswered → d ∈ rest ∨ x.queue ≠ [])
      · intro hc
        obtain ⟨hun, hkept⟩ := ha.unanswered hc
        exact (hall c hun).imp_right hkept
      · intro d _
        exact hall d
  finished hfin := by
    obtain ⟨hclose, hconnected, hentries, hall⟩ := h.finished hfin
    refine ⟨hclose, hconnected, hentries, ?_⟩
    apply forall_setCall (P := fun _ x => x.Unanswered → x.queue ≠ [])
    · intro hc
      obtain ⟨hun, hkept⟩ := ha.unanswered hc
      exact hkept (hall c hun)
    · intro d _
      exact hall d

/-! ### One step -/

section

variable {s : State} {c : Nat}

/-- Nobody holds the mutex and `close` has not begun. -/
theorem Closing.closer_idle (h : Closing s) (hopen : s.isClose = false) : s.closer = .idle := by
  cases hcloser : s.closer with
  | idle => rfl
  | notifying rest => exact absurd ((h.notifying rest hcloser).1.symm.trans hopen) (by decide)
  | finished => exact absurd ((h.finished hcloser).1.symm.trans hopen) (by decide)

theorem Closing.start (h : Closing s) (hidle : (s.calls c).phase = .idle) {phase : Phase}
    (hphase : phase = .opened ∨ phase = .returned .closed) :
    Closing (s.setCall c { Call.fresh with phase := phase }) := by
  have hadvances : Advances (s.calls c) { Call.fresh with phase := phase } := by
    constructor
    case untimed => exact ⟨rfl, rfl⟩
    case queue_le => exact Nat.zero_le 1
    case unanswered =>
      intro hun
      rcases hphase with rfl | rfl <;> simp [Call.Unanswered] at hun
    case popped =>
      intro _ _
      rfl
  apply h.update hadvances
  · intro _ hp
    simp [Call.Pending, hidle] at hp
  · intro r _ hun
    simp [Call.Unanswered, hidle] at hun

theorem Closing.register (h : Closing s) (hopen : s.isClose = false) (hfree : ¬ s.Locked) :
    Closing (next s (.register c)) := by
  have hidle := h.closer_idle hopen
  have hcalls : ∀ d, d ≠ c → (next s (.register c)).calls d = s.calls d := by
    intro d hne
    simp [next, State.setCall, Function.update_of_ne hne]
  constructor
  case untimed =>
    intro d
    by_cases heq : d = c
    · subst heq
      simpa [next, State.setCall] using h.untimed d
    · rw [hcalls d heq]
      exact h.untimed d
  case queue_le =>
    intro d
    by_cases heq : d = c
    · subst heq
      simpa [next, State.setCall] using h.queue_le d
    · rw [hcalls d heq]
      exact h.queue_le d
  case sendClosed => exact h.sendClosed
  case popped =>
    intro _ d hd
    by_cases heq : d = c
    · subst heq
      simp [next, State.setCall, Call.Popped] at hd
    · rw [hcalls d heq] at hd ⊢
      exact h.popped hidle d hd
  case pushing =>
    intro r d hd
    have hheld : s.receiver = .pushing r d := hd
    exact absurd (.inl (by rw [hheld]; rfl)) hfree
  case idle => exact fun _ => hopen
  case notifying =>
    intro rest hrest
    cases hidle.symm.trans hrest
  case finished =>
    intro hfin
    cases hidle.symm.trans hfin

theorem Closing.send (h : Closing s) (hregistered : (s.calls c).phase = .registered) :
    Closing (next s (.send c)) := by
  have hadvances : Advances (s.calls c) { s.calls c with phase := .waiting } := by
    constructor
    case untimed => exact h.untimed c
    case queue_le => exact h.queue_le c
    case unanswered =>
      intro _
      exact ⟨.inl hregistered, id⟩
    case popped =>
      intro hpopped
      simp [Call.Popped] at hpopped
  have hsent : Closing (s.setCall c { s.calls c with phase := .waiting }) := by
    apply h.update hadvances
    · intro _ _
      exact .inr (.inl rfl)
    · intro r _ _ hempty
      exact ⟨.inr rfl, hempty⟩
  exact { hsent with sendClosed := hsent.sendClosed }

theorem Closing.receive (h : Closing s) (hready : (s.calls c).closed = true ∨ (s.calls c).queue ≠ []) :
    Closing (next s (.receive c)) := by
  have hclosed := (h.untimed c).1
  have hqueue : (s.calls c).queue ≠ [] := hready.resolve_left (by rw [hclosed]; decide)
  have hle := h.queue_le c
  obtain ⟨x, rest, hcons⟩ := List.exists_cons_of_ne_nil hqueue
  have hrest : rest = [] := by
    rw [hcons, List.length_cons] at hle
    exact List.length_eq_zero_iff.1 (by omega)
  have hnext : next s (.receive c) =
      s.setCall c { s.calls c with phase := .received, response := x, queue := [] } := by
    simp [next, hclosed, hcons, hrest]
  have hadvances : Advances (s.calls c) { s.calls c with phase := .received, response := x, queue := [] } := by
    constructor
    case untimed => exact h.untimed c
    case queue_le => exact Nat.zero_le 1
    case unanswered =>
      intro hun
      simp [Call.Unanswered] at hun
    case popped =>
      intro _ _
      rfl
  rw [hnext]
  apply h.update hadvances
  · intro _ _
    exact .inr (.inr (.inl rfl))
  · intro r _ _ hempty
    exact absurd hempty hqueue

theorem Closing.cancel (h : Closing s) (hreceived : (s.calls c).phase = .received) :
    Closing (next s (.cancel c)) := by
  have hadvances : Advances (s.calls c) { s.calls c with phase := .cancelled } := by
    constructor
    case untimed => exact h.untimed c
    case queue_le => exact h.queue_le c
    case unanswered =>
      intro hun
      simp [Call.Unanswered] at hun
    case popped =>
      intro _ hempty
      exact hempty (.inl hreceived)
  apply h.update hadvances
  · intro _ _
    exact .inr (.inr (.inr rfl))
  · intro r _ hun
    simp [Call.Unanswered, hreceived] at hun

theorem Closing.finish (h : Closing s) (hinv : s.isClose = false → Invariant s)
    (hcancelled : (s.calls c).phase = .cancelled) (hfree : ¬ s.Locked) : Closing (next s (.finish c)) := by
  have hadvances : Advances (s.calls c) { s.calls c with phase := .returned (s.calls c).outcome } := by
    constructor
    case untimed => exact h.untimed c
    case queue_le => exact h.queue_le c
    case unanswered =>
      intro hun
      simp [Call.Unanswered] at hun
    case popped =>
      intro hpopped
      simp [Call.Popped] at hpopped
  have hbase : Closing (s.setCall c { s.calls c with phase := .returned (s.calls c).outcome }) := by
    -- nobody is in front of a push, since the mutex is free
    apply h.update hadvances
    · intro hheld
      exact absurd (.inr hheld) hfree
    · intro r hr
      exact absurd (.inl (by rw [hr]; rfl)) hfree
  by_cases hclose : s.isClose = true
  · simp only [next, hclose, if_true]
    exact hbase
  · have hopen : s.isClose = false := by simpa using hclose
    have hidle := h.closer_idle hopen
    obtain ⟨handle, hnext, -, -⟩ := (hinv hopen).finish hopen hcancelled hfree
    rw [hnext]
    refine { hbase with finished := ?_ }
    intro hfin
    cases hidle.symm.trans hfin

/-- A response is looked up before `close`, for a call that has none. -/
theorem Closing.lookUp (h : Closing s) {r : Protocol} (ho : Orderly s (.lookUp r)) (hfree : ¬ s.Locked) :
    Closing (next s (.lookUp r)) := by
  cases hfind : s.responseHandle.find r.sequenceId with
  | none =>
    simp only [next, hfind]
    exact { h with pushing := fun r' d hd => by cases hd }
  | some x =>
    have hidle : s.closer = .idle := by
      cases hcloser : s.closer with
      | idle => rfl
      | notifying rest => exact absurd (.inr (by rw [hcloser]; rfl)) hfree
      | finished =>
        have hmem := (NodeMap.find_eq_some hfind).1
        rw [(h.finished hcloser).2.2.1] at hmem
        cases hmem
    simp only [next, hfind]
    refine { h with pushing := ?_ }
    intro r' d hd
    cases hd
    exact ⟨hidle, ho.lookUp r rfl x hfind⟩

theorem Closing.push (h : Closing s) {r : Protocol} (hreceiver : s.receiver = .pushing r c) :
    Closing (next s (.push r c)) := by
  obtain ⟨hidle, hun, hempty⟩ := h.pushing r c hreceiver
  have hclosed := (h.untimed c).1
  have hnext : next s (.push r c) =
      { s with receiver := .reading }.setCall c { s.calls c with queue := [some r] } := by
    simp [next, State.pushTo, hclosed, hempty, State.setCall]
  have hreading : Closing { s with receiver := .reading } := { h with pushing := fun r' d hd => by cases hd }
  have hadvances : Advances (s.calls c) { s.calls c with queue := [some r] } := by
    constructor
    case untimed => exact h.untimed c
    case queue_le => exact Nat.le_refl 1
    case unanswered =>
      intro _
      exact ⟨hun, fun _ => by simp⟩
    case popped =>
      intro hpopped
      rcases hun with hp | hp <;> simp [Call.Popped, hp] at hpopped
  rw [hnext]
  apply hreading.update hadvances
  · intro _ hp
    exact hp
  · intro r' hr'
    cases hr'

/-- `close` has all pending calls to notify. -/
theorem Closing.close (h : Closing s) (hinv : s.isClose = false → Invariant s) (hidle : s.closer = .idle)
    (hfree : ¬ s.Locked) : Closing (next s .close) := by
  have hopen := h.idle hidle
  have hsep := hinv hopen
  have hnext : next s .close = { s with
      isClose := true, sendClosed := true, sending := [],
      closer := .notifying (s.responseHandle.entries.map Entry.value) } := by
    simp [next, hopen]
  rw [hnext]
  constructor
  case untimed => exact h.untimed
  case queue_le => exact h.queue_le
  case sendClosed => rfl
  case pushing =>
    intro r d hd
    have hheld : s.receiver = .pushing r d := hd
    exact absurd (.inl (by rw [hheld]; rfl)) hfree
  case notifying =>
    intro rest hrest
    cases hrest
    refine ⟨rfl, ?_, ?_, ?_⟩
    · -- two nodes with the same call would have the same number
      refine List.pairwise_map.2 (s.responseHandle.nodes_ne.imp_of_mem fun {a b} ha hb hne heq => hne ?_)
      rw [← (hsep.owner a ha).2.2, ← (hsep.owner b hb).2.2, heq]
    · intro d hd
      obtain ⟨e, he, rfl⟩ := List.mem_map.1 hd
      exact ⟨(hsep.owner e he).1, h.popped hidle e.value⟩
    · intro d hd
      have hpending : (s.calls d).Pending := hd.imp_right .inl
      exact .inl (List.mem_map.2 ⟨_, hsep.entry d hpending, rfl⟩)
  -- `close` is at work and has not finished
  all_goals
    intro hc
    cases hc

theorem Closing.notify (h : Closing s) {rest : List Nat} (hcloser : s.closer = .notifying (c :: rest))
    (hpush : s.CanPush c) : Closing (next s (.notify c rest)) := by
  obtain ⟨hclose, hnodup, hmem, hall⟩ := h.notifying _ hcloser
  obtain ⟨hnot, hrest⟩ := List.nodup_cons.1 hnodup
  have hclosed := (h.untimed c).1
  have hempty : (s.calls c).queue = [] := by
    rcases hpush with hc | hlt
    · exact absurd (hclosed.symm.trans hc) (by decide)
    · exact List.length_eq_zero_iff.1 (by omega)
  have hnext : next s (.notify c rest) =
      { s.setCall c { s.calls c with queue := [none] } with closer := .notifying rest } := by
    simp [next, State.pushTo, hclosed, hempty]
  have hcalls : ∀ d, d ≠ c → (next s (.notify c rest)).calls d = s.calls d := by
    intro d hne
    rw [hnext]
    exact Function.update_of_ne hne _ _
  have hself : (next s (.notify c rest)).calls c = { s.calls c with queue := [none] } := by
    rw [hnext]
    exact Function.update_self _ _ _
  have hcl : (next s (.notify c rest)).closer = .notifying rest := by rw [hnext]
  have hreceiver : (next s (.notify c rest)).receiver = s.receiver := by rw [hnext]; rfl
  constructor
  case untimed =>
    intro d
    by_cases heq : d = c
    · rw [heq, hself]
      exact h.untimed c
    · rw [hcalls d heq]
      exact h.untimed d
  case queue_le =>
    intro d
    by_cases heq : d = c
    · rw [heq, hself]
      exact Nat.le_refl 1
    · rw [hcalls d heq]
      exact h.queue_le d
  case sendClosed =>
    rw [hnext]
    exact h.sendClosed
  case popped =>
    intro hidle
    cases hcl.symm.trans hidle
  case pushing =>
    intro r d hd
    cases hcloser.symm.trans (h.pushing r d (hreceiver.symm.trans hd)).1
  case idle =>
    intro hidle
    cases hcl.symm.trans hidle
  case notifying =>
    intro rest' hrest'
    cases hcl.symm.trans hrest'
    refine ⟨by rw [hnext]; exact hclose, hrest, ?_, ?_⟩
    · intro d hd
      rw [hcalls d (fun heq => hnot (heq ▸ hd))]
      exact hmem d (List.mem_cons_of_mem c hd)
    · intro d hd
      by_cases heq : d = c
      · rw [heq, hself]
        exact .inr (by simp)
      · rw [hcalls d heq] at hd ⊢
        exact (hall d hd).imp_left fun hin => (List.mem_cons.1 hin).resolve_left heq
  case finished =>
    intro hfin
    cases hcl.symm.trans hfin

theorem Closing.closeEnd (h : Closing s) (hcloser : s.closer = .notifying []) : Closing (next s .closeEnd) := by
  obtain ⟨hclose, -, -, hall⟩ := h.notifying [] hcloser
  constructor
  case untimed => exact h.untimed
  case queue_le => exact h.queue_le
  case sendClosed => exact h.sendClosed
  case popped =>
    intro hc
    cases hc
  case pushing =>
    intro r d hd
    cases hcloser.symm.trans (h.pushing r d hd).1
  case idle =>
    intro hc
    cases hc
  case notifying =>
    intro rest hrest
    cases hrest
  case finished =>
    intro _
    refine ⟨hclose, rfl, rfl, ?_⟩
    intro d hd
    exact (hall d hd).resolve_left (by simp)

theorem Closing.step {config : Config} (htimeouts : config.timeouts = false) {e : Event} (h : Closing s)
    (hinv : s.isClose = false → Invariant s) (ho : Orderly s e) (henabled : Enabled config s e) :
    Closing (next s e) := by
  cases e with
  | start c =>
    simp only [next]
    split
    · exact h.start henabled (.inl rfl)
    · exact h.start henabled (.inr rfl)
  | register c => exact h.register (ho.register c rfl).1 henabled.2
  | send c => exact h.send henabled.1
  | receive c => exact h.receive henabled.2
  | cancel c => exact h.cancel henabled
  | finish c => exact h.finish hinv henabled.1 henabled.2
  | fire c => exact absurd (htimeouts.symm.trans henabled.1) (by decide)
  | transmit =>
    exact { h with sendClosed := h.sendClosed }
  | respond r =>
    exact { h with pushing := fun r' d hd => by cases hd }
  | lookUp r => exact h.lookUp ho henabled.2
  | push r c => exact h.push henabled.1
  | close => exact h.close hinv henabled.1 henabled.2
  | notify c rest => exact h.notify henabled.1 henabled.2
  | closeEnd => exact h.closeEnd henabled

end

theorem closing_of_reaches {config : Config} (htimeouts : config.timeouts = false) {s : State}
    (h : (machine config).Reaches Orderly (machine config).start s) :
    Closing s ∧ (s.isClose = false → Invariant s) := by
  refine h.invariant (I := fun s => Closing s ∧ (s.isClose = false → Invariant s)) ?_
    ⟨Closing.init, fun _ => Invariant.init⟩
  rintro s e s' ⟨hs, hinv⟩ ho hstep
  obtain ⟨henabled, rfl⟩ := step_eq_some.1 hstep
  refine ⟨hs.step htimeouts hinv ho henabled, ?_⟩
  intro hopen
  exact (hinv (isClose_of_next hopen)).step (fun c hc => (ho.register c hc).2) henabled hopen

/-! ### Calls return after `close` -/

/-- The steps that a call takes on its own. -/
def Own (c : Nat) : State → Event → Prop :=
  fun _ e => e = .start c ∨ e = .send c ∨ e = .receive c ∨ e = .cancel c ∨ e = .finish c

/-- The call can run to its end without anyone's help, and ends with its response or `RPC_CLOSED`. -/
def Returns (config : Config) (s : State) (c : Nat) : Prop :=
  ∃ s', (machine config).Reaches (Own c) s s' ∧
    ((s'.calls c).phase = .returned .closed ∨ ∃ r, (s'.calls c).phase = .returned (.response r))

section

variable {config : Config} {s : State} {c : Nat}

theorem Returns.head {e : Event} (hown : Own c s e) (henabled : Enabled config s e)
    (h : Returns config (next s e) c) : Returns config s c := by
  obtain ⟨s', hreach, hphase⟩ := h
  exact ⟨s', .head hown (step_eq_some.2 ⟨henabled, rfl⟩) hreach, hphase⟩

/-- After `close` the mutex is free. -/
theorem Closing.not_locked (h : Closing s) (hfin : s.closer = .finished) : ¬ s.Locked := by
  rintro (hreceiver | hcloser)
  · cases hr : s.receiver with
    | pushing r d => cases hfin.symm.trans (h.pushing r d hr).1
    | reading => rw [hr] at hreceiver; cases hreceiver
    | handling r => rw [hr] at hreceiver; cases hreceiver
  · rw [hfin] at hcloser
    cases hcloser

private theorem returns_cancelled (h : Closing s) (hfin : s.closer = .finished)
    (hphase : (s.calls c).phase = .cancelled) : Returns config s c := by
  have hclose := (h.finished hfin).1
  have htimeout := (h.untimed c).2
  refine ⟨_, .single (.inr (.inr (.inr (.inr rfl))))
    (step_eq_some.2 ⟨⟨hphase, h.not_locked hfin⟩, rfl⟩), ?_⟩
  simp only [next, hclose, if_true, setCall_calls, Call.outcome, htimeout]
  cases (s.calls c).response with
  | none => exact .inl rfl
  | some r => exact .inr ⟨r, rfl⟩

private theorem returns_received (h : Closing s) (hfin : s.closer = .finished)
    (hphase : (s.calls c).phase = .received) : Returns config s c := by
  refine Returns.head (e := .cancel c) (.inr (.inr (.inr (.inl rfl)))) hphase ?_
  refine returns_cancelled (h.cancel hphase) hfin ?_
  simp [next]

private theorem returns_waiting (h : Closing s) (hfin : s.closer = .finished)
    (hphase : (s.calls c).phase = .waiting) : Returns config s c := by
  have hready : (s.calls c).closed = true ∨ (s.calls c).queue ≠ [] :=
    .inr ((h.finished hfin).2.2.2 c (.inr hphase))
  refine Returns.head (e := .receive c) (.inr (.inr (.inl rfl))) ⟨hphase, hready⟩ ?_
  refine returns_received (h.receive hready) ?_ ?_
  · simp only [next]
    split <;> exact hfin
  · simp only [next]
    split <;> simp

private theorem returns_registered (h : Closing s) (hfin : s.closer = .finished)
    (hphase : (s.calls c).phase = .registered) : Returns config s c := by
  have hclosed : s.sendClosed = true := h.sendClosed.trans (h.finished hfin).1
  refine Returns.head (e := .send c) (.inr (.inl rfl)) ⟨hphase, .inl hclosed⟩ ?_
  refine returns_waiting (h.send hphase) hfin ?_
  simp [next]

/-- A call that starts now finds the connection closed, one that has registered has been notified. -/
theorem Closing.returns (h : Closing s) (hfin : s.closer = .finished)
    (hphase : (s.calls c).phase = .idle ∨ (s.calls c).Pending) : Returns config s c := by
  rcases hphase with hidle | hregistered | hwaiting | hreceived | hcancelled
  · refine ⟨_, .single (.inl rfl) (step_eq_some.2 ⟨hidle, rfl⟩), .inl ?_⟩
    simp [next, (h.finished hfin).2.1]
  · exact returns_registered h hfin hregistered
  · exact returns_waiting h hfin hwaiting
  · exact returns_received h hfin hreceived
  · exact returns_cancelled h hfin hcancelled

/-! ### `close` gets through -/

/-- The next call to be notified makes room in its channel. -/
private theorem makes_room (config : Config) {d : Nat} {rest : List Nat} (h : Closing s)
    (hcloser : s.closer = .notifying (d :: rest)) :
    ∃ s', (machine config).Reaches Machine.any s s' ∧ Closing s' ∧ s'.closer = .notifying (d :: rest) ∧
      (s'.calls d).queue = [] := by
  obtain ⟨hclose, -, hmem, -⟩ := h.notifying _ hcloser
  obtain ⟨hpending, hpopped⟩ := hmem d List.mem_cons_self
  have hreceive : ∀ {t : State}, Closing t → t.closer = .notifying (d :: rest) → (t.calls d).phase = .waiting →
      (t.calls d).queue ≠ [] → ∃ s', (machine config).Reaches Machine.any t s' ∧ Closing s' ∧
        s'.closer = .notifying (d :: rest) ∧ (s'.calls d).queue = [] := by
    intro t ht htc hwaiting hqueue
    have hclosed := (ht.untimed d).1
    have hle := ht.queue_le d
    refine ⟨_, .single (e := .receive d) trivial (step_eq_some.2 ⟨⟨hwaiting, .inr hqueue⟩, rfl⟩),
      ht.receive (.inr hqueue), ?_, ?_⟩
    · simp only [next, hclosed]
      exact htc
    · simp only [next, hclosed, Bool.false_eq_true, if_false, setCall_calls, if_true]
      exact List.length_eq_zero_iff.1 (by rw [List.length_tail]; omega)
  by_cases hempty : (s.calls d).queue = []
  · exact ⟨s, .refl, h, hcloser, hempty⟩
  · rcases hpending with hregistered | hwaiting | hreceived | hcancelled
    · have hclosed : s.sendClosed = true := h.sendClosed.trans hclose
      obtain ⟨s', hreach, hs'⟩ := hreceive (h.send hregistered) hcloser (by simp [next]) (by simpa [next] using hempty)
      exact ⟨s', .head (e := .send d) trivial (step_eq_some.2 ⟨⟨hregistered, .inl hclosed⟩, rfl⟩) hreach, hs'⟩
    · exact hreceive h hcloser hwaiting hempty
    · exact absurd (hpopped (.inl hreceived)) hempty
    · exact absurd (hpopped (.inr hcancelled)) hempty

/-- Every call that is still to be notified gets something to pop. -/
private theorem notified (config : Config) {rest : List Nat} (h : Closing s) (hcloser : s.closer = .notifying rest)
    (hmem : c ∈ rest) :
    ∃ s', (machine config).Reaches Machine.any s s' ∧ (s'.calls c).queue ≠ [] := by
  induction rest generalizing s with
  | nil => cases hmem
  | cons d rest ih =>
    obtain ⟨t, hreach, ht, htc, hempty⟩ := makes_room config h hcloser
    have hpush : t.CanPush d := .inr (by rw [hempty]; exact Nat.one_pos)
    have hstep : (machine config).step t (.notify d rest) = some (next t (.notify d rest)) :=
      step_eq_some.2 ⟨⟨htc, hpush⟩, rfl⟩
    by_cases heq : c = d
    · refine ⟨_, hreach.trans (.single trivial hstep), ?_⟩
      simp [next, State.pushTo, (ht.untimed d).1, heq]
    · obtain ⟨s', hreach', hs'⟩ := ih (ht.notify htc hpush) rfl ((List.mem_cons.1 hmem).resolve_left heq)
      exact ⟨s', hreach.trans (.head trivial hstep hreach'), hs'⟩

theorem Closing.not_hung (h : Closing s) : ¬ Hung config s c := by
  rintro ⟨hclose, hblocked⟩
  have hwaits : (s.calls c).Unanswered := .inr (hblocked s .refl).1
  have hempty := (hblocked s .refl).2.1
  cases hcloser : s.closer with
  | idle => exact absurd ((h.idle hcloser).symm.trans hclose) (by decide)
  | notifying rest =>
    obtain ⟨-, -, -, hall⟩ := h.notifying rest hcloser
    obtain ⟨s', hreach, hqueue⟩ := notified config h hcloser ((hall c hwaits).resolve_right (by simp [hempty]))
    exact hqueue (hblocked s' hreach).2.1
  | finished => exact absurd hempty ((h.finished hcloser).2.2.2 c hwaits)

end

/-- In a run in which calls register before `close` begins and are answered at most once, no call is ever left hanging,
and once `close` has finished every call that has registered, or that starts now, returns. -/
theorem released_of_reaches (config : Config) (htimeouts : config.timeouts = false) {s : State}
    (h : (machine config).Reaches Orderly (machine config).start s) :
    (∀ c, ¬ Hung config s c) ∧
      (s.closer = .finished → ∀ c, (s.calls c).phase = .idle ∨ (s.calls c).Pending → Returns config s c) := by
  obtain ⟨hclosing, -⟩ := closing_of_reaches htimeouts h
  exact ⟨fun c => hclosing.not_hung, fun hfin c hphase => hclosing.returns hfin hphase⟩

/-- A call that waits while `close` runs. -/
theorem released_of_reaches_waiting :
    let s := [.register 0, .send 0, .close, .notify 0 [], .closeEnd].foldl next (next connectedClient (.start 0))
    ¬ Hung ⟨false, 1024⟩ s 0 ∧ Returns ⟨false, 1024⟩ s 0 := by
  intro s
  have hother : ∀ (t : State) (e : Event), (∀ c, e ≠ .register c) → (∀ r, e ≠ .lookUp r) → Orderly t e :=
    fun t e hregister hlookUp => ⟨fun c hc => absurd hc (hregister c), fun r hr => absurd hr (hlookUp r)⟩
  have hregister : Orderly (next connectedClient (.start 0)) (.register 0) :=
    ⟨fun c _ => ⟨rfl, rfl⟩, fun r hr => (by cases hr)⟩
  have hreach : (machine ⟨false, 1024⟩).Reaches Orderly (machine ⟨false, 1024⟩).start s := by
    refine .head (e := .start 0) (hother _ _ ?_ ?_) (step_eq_some.2 ⟨by decide, rfl⟩) ?_
    · simp
    · simp
    refine .head hregister (step_eq_some.2 ⟨by decide, rfl⟩) ?_
    refine .head (e := .send 0) (hother _ _ ?_ ?_) (step_eq_some.2 ⟨by decide, rfl⟩) ?_
    · simp
    · simp
    refine .head (e := .close) (hother _ _ ?_ ?_) (step_eq_some.2 ⟨by decide, rfl⟩) ?_
    · simp
    · simp
    refine .head (e := .notify 0 []) (hother _ _ ?_ ?_) (step_eq_some.2 ⟨by decide, rfl⟩) ?_
    · simp
    · simp
    refine .single (e := .closeEnd) (hother _ _ ?_ ?_) (step_eq_some.2 ⟨by decide, rfl⟩)
    · simp
    · simp
  have hreleased := released_of_reaches ⟨false, 1024⟩ rfl hreach
  exact ⟨hreleased.1 0, hreleased.2 rfl 0 (.inr (by decide))⟩

/-! ### A call that registers too late -/

/-- `close` is over, and a call waits that it has not notified. -/
private structure Abandoned (s : State) (c : Nat) : Prop where
  isClose : s.isClose = true
  connected : s.connected = false
  receiver : s.receiver = .reading
  closer : s.closer = .finished
  blocked : (s.calls c).Blocked

private theorem Abandoned.other {s : State} {c d : Nat} (h : Abandoned s c) (hne : c ≠ d) (call : Call) :
    Abandoned (s.setCall d call) c := by
  refine ⟨h.isClose, h.connected, h.receiver, h.closer, ?_⟩
  rw [setCall_calls, if_neg hne]
  exact h.blocked

private theorem Abandoned.step {config : Config} (htimeouts : config.timeouts = false) {s : State} {c : Nat}
    (h : Abandoned s c) {e : Event} (henabled : Enabled config s e) : Abandoned (next s e) c := by
  have hwaiting := h.blocked.1
  cases e with
  | start d =>
    have hne : c ≠ d := by
      rintro rfl
      cases hwaiting.symm.trans henabled
    simp only [next]
    split <;> exact h.other hne _
  | register d =>
    have hne : c ≠ d := by
      rintro rfl
      cases hwaiting.symm.trans henabled.1
    have hother := h.other hne { s.calls d with phase := .registered, id := s.sequenceId,
                                                it := (s.responseHandle.emplace s.sequenceId d).2 }
    exact ⟨hother.isClose, hother.connected, hother.receiver, hother.closer, hother.blocked⟩
  | send d =>
    have hne : c ≠ d := by
      rintro rfl
      cases hwaiting.symm.trans henabled.1
    have hother := h.other hne { s.calls d with phase := .waiting }
    exact ⟨hother.isClose, hother.connected, hother.receiver, hother.closer, hother.blocked⟩
  | receive d =>
    have hne : c ≠ d := by
      rintro rfl
      rcases henabled.2 with hclosed | hqueue
      · exact absurd (h.blocked.2.2.symm.trans hclosed) (by decide)
      · exact hqueue h.blocked.2.1
    simp only [next]
    split <;> exact h.other hne _
  | cancel d =>
    have hne : c ≠ d := by
      rintro rfl
      cases hwaiting.symm.trans henabled
    exact h.other hne _
  | finish d =>
    have hne : c ≠ d := by
      rintro rfl
      cases hwaiting.symm.trans henabled.1
    simp only [next, h.isClose, if_true]
    exact h.other hne _
  | fire d => exact absurd (htimeouts.symm.trans henabled.1) (by decide)
  | transmit => exact ⟨h.isClose, h.connected, h.receiver, h.closer, h.blocked⟩
  | respond r => exact absurd (h.connected.symm.trans henabled.2) (by decide)
  | lookUp r => cases h.receiver.symm.trans henabled.1
  | push r d => cases h.receiver.symm.trans henabled.1
  | close => cases h.closer.symm.trans henabled.1
  | notify d rest => cases h.closer.symm.trans henabled.1
  | closeEnd => cases h.closer.symm.trans henabled

/-- The call finds the connection open, `close` runs, and then the call registers. -/
theorem hung_late_registration :
    ∃ s, (machine ⟨false, 1024⟩).run (machine ⟨false, 1024⟩).start
        [.start 0, .close, .closeEnd, .register 0, .send 0] = some s ∧
      s.closer = .finished ∧ Hung ⟨false, 1024⟩ s 0 := by
  refine ⟨_, rfl, rfl, rfl, fun s' hreach => ?_⟩
  have habandoned := hreach.invariant (I := fun s => Abandoned s 0)
    (fun s e s' hs _ hstep => by
      obtain ⟨henabled, rfl⟩ := step_eq_some.1 hstep
      exact hs.step rfl henabled)
    ⟨rfl, rfl, rfl, rfl, rfl, rfl, rfl⟩
  exact habandoned.blocked

end RpcClient

end AcidCompute

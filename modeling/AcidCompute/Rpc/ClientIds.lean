import AcidCompute.Rpc.Client

/-!
# Sequence ids of pending calls

A call takes the next sequence id without asking whether a call with that id is still pending.  As long as every
`emplace` into `m_response_handle` finds its id free, ids and entries belong to one call each, and responses reach the
call that they answer (`separate_of_reaches`).  After 2^32 - 1 calls the ids start again, and a call that is still
pending then shares its id and its entry with the new one (`not_separate_wrapped`).
-/

namespace AcidCompute

namespace RpcClient

/-- The responses a call has got carry its id. -/
def Call.Answered (call : Call) : Prop :=
  ∀ r : Protocol, some r ∈ call.queue ∨ call.response = some r →
    (call.phase ≠ .idle ∧ call.phase ≠ .opened) ∧ r.sequenceId = call.id

/-- Every pending call has an entry of its own, until `close` begins. -/
structure Invariant (s : State) : Prop where
  entry : ∀ c, (s.calls c).Pending → ⟨(s.calls c).id, (s.calls c).it, c⟩ ∈ s.responseHandle.entries
  owner : ∀ e ∈ s.responseHandle.entries, (s.calls e.value).Pending ∧
    (s.calls e.value).id = e.key ∧ (s.calls e.value).it = e.node
  answered : ∀ c, (s.calls c).Answered
  pushing : ∀ r c, s.receiver = .pushing r c → (s.calls c).Pending ∧ r.sequenceId = (s.calls c).id
  closer : s.closer = .idle
  unbroken : s.broken = false

/-- The `emplace` of a registration inserts a node. -/
def EmplaceInserts (s : State) (e : Event) : Prop :=
  ∀ c, e = .register c → s.responseHandle.find s.sequenceId = none

theorem Invariant.init : Invariant connectedClient where
  entry c h := by simp [connectedClient, Call.Pending, Call.fresh] at h
  owner e h := by cases h
  answered c r h := by simp [connectedClient, Call.fresh] at h
  pushing r c h := by cases h
  closer := rfl
  unbroken := rfl

/-- A step of one call that leaves it pending or not, and a pending one with its id. -/
theorem Invariant.update {s : State} (h : Invariant s) {c : Nat} {call : Call}
    (hpending : call.Pending ↔ (s.calls c).Pending)
    (hkept : call.Pending → call.id = (s.calls c).id ∧ call.it = (s.calls c).it) (hanswered : call.Answered) :
    Invariant (s.setCall c call) where
  entry := by
    apply forall_setCall (P := fun d x => x.Pending → ⟨x.id, x.it, d⟩ ∈ s.responseHandle.entries)
    · intro hc
      rw [(hkept hc).1, (hkept hc).2]
      exact h.entry c (hpending.1 hc)
    · intro d _
      exact h.entry d
  owner e he := by
    refine forall_setCall (P := fun d x => (s.calls d).Pending ∧ (s.calls d).id = e.key ∧ (s.calls d).it = e.node →
      x.Pending ∧ x.id = e.key ∧ x.it = e.node) ?_ ?_ e.value (h.owner e he)
    · rintro ⟨hp, hkey, hnode⟩
      obtain ⟨hid, hit⟩ := hkept (hpending.2 hp)
      exact ⟨hpending.2 hp, hid.trans hkey, hit.trans hnode⟩
    · intro d _
      exact id
  answered := by
    apply forall_setCall (P := fun _ x => x.Answered)
    · exact hanswered
    · intro d _
      exact h.answered d
  pushing r := by
    apply forall_setCall (P := fun d x => s.receiver = .pushing r d → x.Pending ∧ r.sequenceId = x.id)
    · intro hc
      obtain ⟨hp, hr⟩ := h.pushing r c hc
      exact ⟨hpending.2 hp, hr.trans (hkept (hpending.2 hp)).1.symm⟩
    · intro d _
      exact h.pushing r d
  closer := h.closer
  unbroken := h.unbroken

/-! ### One step -/

section

variable {s : State} {c : Nat}

/-- The first step of a call. -/
theorem Invariant.start (h : Invariant s) (hidle : (s.calls c).phase = .idle) {phase : Phase}
    (hphase : ¬ ({ Call.fresh with phase := phase } : Call).Pending) :
    Invariant (s.setCall c { Call.fresh with phase := phase }) := by
  have hnot : ¬ (s.calls c).Pending := by simp [Call.Pending, hidle]
  apply h.update (iff_of_false hphase hnot)
  · intro hp
    exact absurd hp hphase
  · intro r hr
    simp [Call.fresh] at hr

/-- The entry of a registration is new, and no call had its id. -/
theorem Invariant.register (h : Invariant s) (hopened : (s.calls c).phase = .opened)
    (hfree : s.responseHandle.find s.sequenceId = none) : Invariant (next s (.register c)) := by
  obtain ⟨hit, hentries, -⟩ := NodeMap.emplace_of_none hfree c
  have hmem : ∀ e, e ∈ (s.responseHandle.emplace s.sequenceId c).1.entries ↔
      e = ⟨s.sequenceId, s.responseHandle.next, c⟩ ∨ e ∈ s.responseHandle.entries := by
    intro e
    rw [hentries]
    exact NodeMap.mem_insertEntry
  have hnot : ¬ (s.calls c).Pending := by simp [Call.Pending, hopened]
  have hcalls : ∀ d, (next s (.register c)).calls d = if d = c then
      { s.calls c with phase := .registered, id := s.sequenceId, it := s.responseHandle.next } else s.calls d := by
    intro d
    simp only [next, hit]
    exact setCall_calls s c d _
  have hsame : ∀ d, (s.calls d).Pending → (next s (.register c)).calls d = s.calls d := by
    intro d hd
    rw [hcalls, if_neg]
    rintro rfl
    exact hnot hd
  constructor
  case entry =>
    intro d hd
    show _ ∈ (s.responseHandle.emplace s.sequenceId c).1.entries
    rw [hmem, hcalls]
    by_cases heq : d = c
    · rw [if_pos heq, heq]
      exact .inl rfl
    · rw [hcalls, if_neg heq] at hd
      rw [if_neg heq]
      exact .inr (h.entry d hd)
  case owner =>
    intro e he
    rcases (hmem e).1 he with rfl | hold
    · rw [hcalls, if_pos rfl]
      exact ⟨.inl rfl, rfl, rfl⟩
    · rw [hsame e.value (h.owner e hold).1]
      exact h.owner e hold
  case answered =>
    intro d
    rw [hcalls]
    by_cases heq : d = c
    · rw [if_pos heq]
      intro r hr
      have hopen := (h.answered c r hr).1.2
      exact absurd hopened hopen
    · rw [if_neg heq]
      exact h.answered d
  case pushing =>
    intro r d hd
    rw [hsame d (h.pushing r d hd).1]
    exact h.pushing r d hd
  case closer => exact h.closer
  case unbroken => exact h.unbroken

/-- The last step of a call erases its own entry. -/
theorem Invariant.finish (h : Invariant s) (hopen : s.isClose = false)
    (hcancelled : (s.calls c).phase = .cancelled) (hfree : ¬ s.Locked) :
    ∃ handle, next s (.finish c) =
        { s.setCall c { s.calls c with phase := .returned (s.calls c).outcome } with responseHandle := handle } ∧
      (∀ e, e ∈ handle.entries ↔ e ∈ s.responseHandle.entries ∧ e.value ≠ c) ∧ Invariant (next s (.finish c)) := by
  have hpending : (s.calls c).Pending := by simp [Call.Pending, hcancelled]
  have hentry := h.entry c hpending
  obtain ⟨handle, herase, hmem⟩ := NodeMap.erase_of_mem hentry
  have hown : ∀ e, e ∈ handle.entries ↔ e ∈ s.responseHandle.entries ∧ e.value ≠ c := by
    intro e
    rw [hmem]
    constructor
    · rintro ⟨he, hne⟩
      refine ⟨he, fun hval => hne ?_⟩
      have hnode := (h.owner e he).2.2
      rw [hval] at hnode
      exact hnode.symm
    · rintro ⟨he, hne⟩
      exact ⟨he, fun hnode => hne (congrArg Entry.value (NodeMap.eq_of_node he hentry hnode))⟩
  have hnext : next s (.finish c) =
      { s.setCall c { s.calls c with phase := .returned (s.calls c).outcome } with responseHandle := handle } := by
    dsimp only at herase
    simp only [next, hopen, herase]
    rfl
  refine ⟨handle, hnext, hown, ?_⟩
  rw [hnext]
  have hcalls : ∀ d, d ≠ c →
      (s.setCall c { s.calls c with phase := .returned (s.calls c).outcome }).calls d = s.calls d := by
    intro d hne
    rw [setCall_calls, if_neg hne]
  constructor
  case entry =>
    intro d hd
    by_cases heq : d = c
    · subst heq
      simp [Call.Pending, State.setCall] at hd
    · show _ ∈ handle.entries
      rw [hcalls d heq] at hd ⊢
      exact (hown _).2 ⟨h.entry d hd, heq⟩
  case owner =>
    intro e he
    obtain ⟨hold, hne⟩ := (hown e).1 he
    rw [hcalls _ hne]
    exact h.owner e hold
  case answered =>
    intro d
    by_cases heq : d = c
    · subst heq
      intro r hr
      simp only [State.setCall, Function.update_self] at hr ⊢
      exact ⟨by simp, (h.answered d r hr).2⟩
    · rw [hcalls d heq]
      exact h.answered d
  case pushing =>
    -- the receiver is not in front of a push, since the mutex is free
    intro r d hd
    have hheld : s.receiver = .pushing r d := hd
    exact absurd (.inl (by rw [hheld]; rfl)) hfree
  case closer => exact h.closer
  case unbroken => exact h.unbroken

/-- A response goes to the pending call whose entry was found. -/
theorem Invariant.lookUp (h : Invariant s) (r : Protocol) : Invariant (next s (.lookUp r)) := by
  cases hfind : s.responseHandle.find r.sequenceId with
  | none =>
    simp only [next, hfind]
    exact { h with pushing := fun r' d hd => by cases hd }
  | some e =>
    obtain ⟨hmem, hkey⟩ := NodeMap.find_eq_some hfind
    obtain ⟨hp, hid, -⟩ := h.owner e hmem
    simp only [next, hfind]
    refine { h with pushing := ?_ }
    intro r' d hd
    cases hd
    exact ⟨hp, hkey.symm.trans hid.symm⟩

theorem Invariant.push (h : Invariant s) {r : Protocol} (hreceiver : s.receiver = .pushing r c) :
    Invariant (next s (.push r c)) := by
  obtain ⟨hp, hr⟩ := h.pushing r c hreceiver
  have hpushed : Invariant (s.pushTo c (some r)) := by
    unfold State.pushTo
    split
    · exact h
    · refine h.update Iff.rfl (fun _ => ⟨rfl, rfl⟩) ?_
      intro r' hr'
      have hphase : (s.calls c).phase ≠ .idle ∧ (s.calls c).phase ≠ .opened := by
        rcases hp with hp | hp | hp | hp <;> simp [hp]
      rcases hr' with hmem | hresponse
      · rcases List.mem_append.1 hmem with hold | hnew
        · exact h.answered c r' (.inl hold)
        · cases List.mem_singleton.1 hnew
          exact ⟨hphase, hr⟩
      · exact h.answered c r' (.inr hresponse)
  exact { hpushed with pushing := fun r' d hd => by cases hd }

end

theorem isClose_of_next {s : State} {e : Event} (h : (next s e).isClose = false) : s.isClose = false := by
  cases e with
  | start c =>
    simp only [next] at h
    split at h <;> exact h
  | receive c =>
    simp only [next] at h
    split at h <;> exact h
  | finish c =>
    simp only [next] at h
    split at h
    · exact h
    · split at h <;> exact h
  | lookUp r =>
    simp only [next] at h
    split at h <;> exact h
  | push r c | notify c rest =>
    simp only [next, State.pushTo] at h
    split at h <;> exact h
  | close =>
    simp only [next] at h
    split at h
    · exact h
    · cases h
  | register c | send c | cancel c | fire c | transmit | respond r | closeEnd => exact h

/-- Whatever happens before `close`, the invariant is kept by steps whose `emplace` inserts. -/
theorem Invariant.step {config : Config} {s : State} {e : Event} (h : Invariant s) (hins : EmplaceInserts s e)
    (henabled : Enabled config s e) (hopen : (next s e).isClose = false) : Invariant (next s e) := by
  cases e with
  | start c =>
    simp only [next]
    split
    · exact h.start henabled (by simp [Call.Pending])
    · exact h.start henabled (by simp [Call.Pending])
  | register c => exact h.register henabled.1 (hins c rfl)
  | send c =>
    have hsent : Invariant (s.setCall c { s.calls c with phase := .waiting }) := by
      refine h.update ?_ (fun _ => ⟨rfl, rfl⟩) fun r hr => ⟨by simp, (h.answered c r hr).2⟩
      simp [Call.Pending, henabled.1]
    exact { hsent with closer := hsent.closer }
  | receive c =>
    have hpending : (s.calls c).Pending := .inr (.inl henabled.1)
    simp only [next]
    split
    · refine h.update ?_ (fun _ => ⟨rfl, rfl⟩) fun r hr => ⟨by simp, (h.answered c r hr).2⟩
      exact ⟨fun _ => hpending, fun _ => .inr (.inr (.inl rfl))⟩
    · rename_i hclosed
      have hqueue : (s.calls c).queue ≠ [] := henabled.2.resolve_left hclosed
      obtain ⟨x, rest, hcons⟩ := List.exists_cons_of_ne_nil hqueue
      refine h.update ?_ (fun _ => ⟨rfl, rfl⟩) fun r hr => ⟨by simp, ?_⟩
      · exact ⟨fun _ => hpending, fun _ => .inr (.inr (.inl rfl))⟩
      · simp only [hcons, List.headD_cons, List.tail_cons] at hr
        refine (h.answered c r (.inl ?_)).2
        rw [hcons]
        rcases hr with hmem | rfl
        · exact List.mem_cons_of_mem x hmem
        · exact List.mem_cons_self
  | cancel c =>
    refine h.update ?_ (fun _ => ⟨rfl, rfl⟩) fun r hr => ⟨by simp, (h.answered c r hr).2⟩
    have hreceived : (s.calls c).phase = .received := henabled
    simp [Call.Pending, hreceived]
  | finish c =>
    obtain ⟨-, -, -, hfinish⟩ := h.finish (isClose_of_next hopen) henabled.1 henabled.2
    exact hfinish
  | fire c =>
    -- the closed channel has lost what was in it
    refine h.update Iff.rfl (fun _ => ⟨rfl, rfl⟩) ?_
    rintro r (hmem | hresponse)
    · cases hmem
    · exact h.answered c r (.inr hresponse)
  | transmit => exact { h with closer := h.closer }
  | respond r => exact { h with pushing := fun r' d hd => by cases hd }
  | lookUp r => exact h.lookUp r
  | push r c => exact h.push henabled.1
  | close =>
    have hclose : s.isClose = false := isClose_of_next hopen
    simp [next, hclose] at hopen
  | notify c rest =>
    have hidle := h.closer
    rw [henabled.1] at hidle
    cases hidle
  | closeEnd =>
    have hidle := h.closer
    rw [show s.closer = .notifying [] from henabled] at hidle
    cases hidle

/-! ### Runs -/

/-- What keeps the calls of a client apart. -/
structure Separate (s : State) : Prop where
  /-- no two pending calls have the same id -/
  distinct : ∀ c d, (s.calls c).Pending → (s.calls d).Pending → (s.calls c).id = (s.calls d).id → c = d
  /-- every pending call has its own channel under its id -/
  entry : ∀ c, (s.calls c).Pending →
    s.responseHandle.find (s.calls c).id = some ⟨(s.calls c).id, (s.calls c).it, c⟩
  /-- the receiver hands a response to the pending call with its id -/
  handed : ∀ r c, s.receiver = .pushing r c → (s.calls c).Pending ∧ r.sequenceId = (s.calls c).id
  /-- a call has got no response but those with its id -/
  answered : ∀ (c : Nat) (r : Protocol), some r ∈ (s.calls c).queue ∨ (s.calls c).response = some r →
    r.sequenceId = (s.calls c).id
  /-- a call that completes erases its own entry and no other -/
  erased : ∀ (config : Config) (c : Nat) (s' : State), (machine config).step s (.finish c) = some s' →
    s'.broken = false ∧ ∀ e, e ∈ s'.responseHandle.entries ↔ e ∈ s.responseHandle.entries ∧ e.value ≠ c

theorem Invariant.separate {s : State} (h : Invariant s) (hopen : s.isClose = false) : Separate s where
  distinct c d hc hd hid := by
    have hsame := NodeMap.eq_of_key (h.entry c hc) (h.entry d hd) hid
    exact congrArg Entry.value hsame
  entry c hc := NodeMap.find_of_mem (h.entry c hc)
  handed := h.pushing
  answered c r hr := (h.answered c r hr).2
  erased config c s' hstep := by
    obtain ⟨henabled, rfl⟩ := step_eq_some.1 hstep
    obtain ⟨handle, hnext, hmem, hinv⟩ := h.finish hopen henabled.1 henabled.2
    refine ⟨hinv.unbroken, fun e => ?_⟩
    rw [hnext]
    exact hmem e

/-- In a run in which every `emplace` inserts, the calls stay apart until `close` begins. -/
theorem separate_of_reaches (config : Config) {s : State}
    (h : (machine config).Reaches EmplaceInserts (machine config).start s) (hopen : s.isClose = false) :
    Separate s := by
  have hinv : s.isClose = false → Invariant s := by
    refine h.invariant (I := fun s => s.isClose = false → Invariant s) ?_ fun _ => Invariant.init
    intro s e s' hs hins hstep hopen'
    obtain ⟨henabled, rfl⟩ := step_eq_some.1 hstep
    exact (hs (isClose_of_next hopen')).step hins henabled hopen'
  exact (hinv hopen).separate hopen

/-- A call that waits for its response. -/
theorem separate_of_reaches_waiting :
    Separate (next (next (next connectedClient (.start 0)) (.register 0)) (.send 0)) := by
  have hstart : EmplaceInserts connectedClient (.start 0) := fun c hc => by cases hc
  have hregister : EmplaceInserts (next connectedClient (.start 0)) (.register 0) := fun c hc => rfl
  have hsend : EmplaceInserts (next (next connectedClient (.start 0)) (.register 0)) (.send 0) :=
    fun c hc => by cases hc
  exact separate_of_reaches ⟨false, 1024⟩ (.head hstart (step_eq_some.2 ⟨by decide, rfl⟩)
    (.head hregister (step_eq_some.2 ⟨by decide, rfl⟩) (.single hsend (step_eq_some.2 ⟨by decide, rfl⟩)))) rfl

/-! ### A run in which the ids start again -/

/-- The states of a call `c` that completes while nothing else happens: `s` is the client before. -/
private def during (s : State) (c : Nat) (call : Call) (handle : NodeMap (BitVec 32) Nat) (id : BitVec 32)
    (sending : List (BitVec 32)) (receiver : Receiver) : State :=
  { s with
    calls := Function.update s.calls c call, responseHandle := handle, sequenceId := id, sending := sending,
    receiver := receiver }

/-- A client on which nobody but the calls before `c` is at work. -/
private structure Quiet (s : State) (c : Nat) : Prop where
  isClose : s.isClose = false
  connected : s.connected = true
  sendClosed : s.sendClosed = false
  sending : s.sending = []
  receiver : s.receiver = .reading
  closer : s.closer = .idle
  fresh : ∀ d, c ≤ d → s.calls d = Call.fresh

/-- A call that waits for its response. -/
private def waitingCall (id : BitVec 32) (it : Nat) : Call := { Call.fresh with phase := .waiting, id := id, it := it }

private theorem asks (capacity : Nat) {s : State} {c : Nat} (h : Quiet s c)
    (hfree : s.responseHandle.find s.sequenceId = none) :
    (machine ⟨false, capacity + 1⟩).run s [.start c, .register c, .send c, .transmit] =
      some (during s c (waitingCall s.sequenceId s.responseHandle.next)
        (s.responseHandle.emplace s.sequenceId c).1 (nextSequenceId s.sequenceId) [] .reading) := by
  obtain ⟨hit, -, -⟩ := NodeMap.emplace_of_none hfree c
  set handle := (s.responseHandle.emplace s.sequenceId c).1 with hhandle
  set it := s.responseHandle.next with hitdef
  set id := s.sequenceId with hid
  have hfresh := h.fresh c (Nat.le_refl c)
  have hclosed := h.sendClosed
  have hidle := h.closer
  have hsending := h.sending
  have hreading := h.receiver
  have hconnected := h.connected
  have hstart : (machine ⟨false, capacity + 1⟩).step s (.start c) =
      some (during s c { Call.fresh with phase := .opened } s.responseHandle id [] .reading) := by
    refine step_eq_some.2 ⟨by simp [Enabled, hfresh, Call.fresh], ?_⟩
    simp only [next, hconnected, if_true, State.setCall, during]
    rw [hid, ← hsending, ← hreading]
  have hregister : (machine ⟨false, capacity + 1⟩).step
      (during s c { Call.fresh with phase := .opened } s.responseHandle id [] .reading) (.register c) =
      some (during s c { Call.fresh with phase := .registered, id := id, it := it } handle (nextSequenceId id) []
        .reading) := by
    refine step_eq_some.2 ⟨?_, ?_⟩
    · simp [Enabled, during, State.Locked, Receiver.holdsMutex, Closer.holdsMutex, hidle]
    · simp only [next, during, State.setCall, Function.update_self, Function.update_idem, hit, ← hhandle]
  have hsend : (machine ⟨false, capacity + 1⟩).step
      (during s c { Call.fresh with phase := .registered, id := id, it := it } handle (nextSequenceId id) []
        .reading) (.send c) = some (during s c (waitingCall id it) handle (nextSequenceId id) [id] .reading) := by
    refine step_eq_some.2 ⟨?_, ?_⟩
    · simp [Enabled, during]
    · simp [next, during, State.setCall, hclosed, waitingCall]
  have htransmit : (machine ⟨false, capacity + 1⟩).step
      (during s c (waitingCall id it) handle (nextSequenceId id) [id] .reading) .transmit =
      some (during s c (waitingCall id it) handle (nextSequenceId id) [] .reading) := by
    refine step_eq_some.2 ⟨?_, ?_⟩
    · simp [Enabled, during, hclosed]
    · simp [next, during]
  simp only [Machine.run, hstart, hregister, hsend, htransmit, Option.bind_some]

private theorem answers (config : Config) {s : State} {c : Nat} (h : Quiet s c) {handle : NodeMap (BitVec 32) Nat}
    (id : BitVec 32) {it : Nat} {r : Protocol} (hfind : handle.find r.sequenceId = some ⟨r.sequenceId, it, c⟩) :
    (machine config).run (during s c (waitingCall r.sequenceId it) handle id [] .reading)
        [.respond r, .lookUp r, .push r c] =
      some (during s c { waitingCall r.sequenceId it with queue := [some r] } handle id [] .reading) := by
  have hidle := h.closer
  have hconnected := h.connected
  have hrespond : (machine config).step (during s c (waitingCall r.sequenceId it) handle id [] .reading)
      (.respond r) = some (during s c (waitingCall r.sequenceId it) handle id [] (.handling r)) := by
    refine step_eq_some.2 ⟨?_, ?_⟩
    · simp [Enabled, during, hconnected]
    · simp [next, during]
  have hlookUp : (machine config).step (during s c (waitingCall r.sequenceId it) handle id [] (.handling r))
      (.lookUp r) = some (during s c (waitingCall r.sequenceId it) handle id [] (.pushing r c)) := by
    refine step_eq_some.2 ⟨?_, ?_⟩
    · simp [Enabled, during, State.Locked, Receiver.holdsMutex, Closer.holdsMutex, hidle]
    · simp [next, during, hfind]
  have hpush : (machine config).step (during s c (waitingCall r.sequenceId it) handle id [] (.pushing r c))
      (.push r c) =
      some (during s c { waitingCall r.sequenceId it with queue := [some r] } handle id [] .reading) := by
    refine step_eq_some.2 ⟨?_, ?_⟩
    · simp [Enabled, State.CanPush, during, waitingCall, Call.fresh]
    · simp [next, State.pushTo, State.setCall, during, waitingCall, Call.fresh]
  simp only [Machine.run, hrespond, hlookUp, hpush, Option.bind_some]

private theorem concludes (config : Config) {s : State} {c : Nat} (h : Quiet s c)
    {handle handle' : NodeMap (BitVec 32) Nat} (id id' : BitVec 32) {it : Nat} (r : Protocol)
    (herase : handle.erase it = some handle') :
    (machine config).run (during s c { waitingCall id it with queue := [some r] } handle id' [] .reading)
        [.receive c, .cancel c, .finish c] =
      some (during s c { waitingCall id it with phase := .returned (.response r), response := some r } handle' id' []
        .reading) := by
  have hclose := h.isClose
  have hidle := h.closer
  have hreceive : (machine config).step
      (during s c { waitingCall id it with queue := [some r] } handle id' [] .reading) (.receive c) =
      some (during s c { waitingCall id it with phase := .received, response := some r } handle id' [] .reading) := by
    refine step_eq_some.2 ⟨?_, ?_⟩
    · simp [Enabled, during, waitingCall]
    · simp [next, State.setCall, during, waitingCall, Call.fresh]
  have hcancel : (machine config).step
      (during s c { waitingCall id it with phase := .received, response := some r } handle id' [] .reading)
      (.cancel c) =
      some (during s c { waitingCall id it with phase := .cancelled, response := some r } handle id' [] .reading) := by
    refine step_eq_some.2 ⟨?_, ?_⟩
    · simp [Enabled, during]
    · simp [next, State.setCall, during]
  have hfinish : (machine config).step
      (during s c { waitingCall id it with phase := .cancelled, response := some r } handle id' [] .reading)
      (.finish c) =
      some (during s c { waitingCall id it with phase := .returned (.response r), response := some r } handle' id' []
        .reading) := by
    refine step_eq_some.2 ⟨?_, ?_⟩
    · simp [Enabled, during, State.Locked, Receiver.holdsMutex, Closer.holdsMutex, hidle]
    · simp [next, State.setCall, during, hclose, waitingCall, herase, Call.outcome, Call.fresh]
  simp only [Machine.run, hreceive, hcancel, hfinish, Option.bind_some]

/-- The next call runs from its start to its end, and the map is as before. -/
private theorem completes (capacity : Nat) {s : State} {c : Nat} (h : Quiet s c)
    (hfree : s.responseHandle.find s.sequenceId = none) :
    ∃ s', (machine ⟨false, capacity + 1⟩).Reaches Machine.any s s' ∧ Quiet s' (c + 1) ∧
      s'.sequenceId = nextSequenceId s.sequenceId ∧ (∀ d, d ≠ c → s'.calls d = s.calls d) ∧
      ∀ e, e ∈ s'.responseHandle.entries ↔ e ∈ s.responseHandle.entries := by
  obtain ⟨-, hentries, -⟩ := NodeMap.emplace_of_none hfree c
  have hentry : (⟨s.sequenceId, s.responseHandle.next, c⟩ : Entry (BitVec 32) Nat) ∈
      (s.responseHandle.emplace s.sequenceId c).1.entries := by
    rw [hentries]
    exact NodeMap.mem_insertEntry.2 (.inl rfl)
  obtain ⟨handle', herase, hmem⟩ := NodeMap.erase_of_mem hentry
  let r : Protocol := { Protocol.empty with sequenceId := s.sequenceId }
  have hasks := asks capacity h hfree
  have hanswers := answers ⟨false, capacity + 1⟩ h (nextSequenceId s.sequenceId) (r := r)
    (NodeMap.find_of_mem hentry)
  have hconcludes := concludes ⟨false, capacity + 1⟩ h s.sequenceId (nextSequenceId s.sequenceId) r herase
  refine ⟨_, (Machine.reaches_of_run hasks).trans
    ((Machine.reaches_of_run hanswers).trans (Machine.reaches_of_run hconcludes)),
    ⟨h.isClose, h.connected, h.sendClosed, rfl, rfl, h.closer, ?_⟩, rfl, ?_, ?_⟩
  · intro d hd
    show Function.update s.calls c _ d = _
    rw [Function.update_of_ne (by omega)]
    exact h.fresh d (by omega)
  · intro d hd
    exact Function.update_of_ne hd _ _
  · intro e
    show e ∈ handle'.entries ↔ _
    rw [hmem, hentries, NodeMap.mem_insertEntry]
    constructor
    · rintro ⟨rfl | hold, hne⟩
      · exact absurd rfl hne
      · exact hold
    · intro hold
      exact ⟨.inr hold, Nat.ne_of_lt (s.responseHandle.node_lt e hold)⟩

private theorem nextSequenceId_ofNat {k : Nat} (h : k + 1 < 2 ^ 32 - 1) :
    nextSequenceId (BitVec.ofNat 32 k) = BitVec.ofNat 32 (k + 1) := by
  have hsum : BitVec.ofNat 32 k + 1 = BitVec.ofNat 32 (k + 1) := BitVec.ofNat_add_ofNat k 1
  have hne : BitVec.ofNat 32 (k + 1) ≠ 0xffffffff#32 := by
    intro heq
    have hnat := congrArg BitVec.toNat heq
    simp only [BitVec.toNat_ofNat] at hnat
    omega
  rw [nextSequenceId, hsum, if_neg hne]

/-- Call 0 waits with the first id while `k` later calls have completed. -/
private structure Outlasts (k : Nat) (s : State) : Prop where
  quiet : Quiet s (k + 1)
  sequenceId : s.sequenceId = nextSequenceId (BitVec.ofNat 32 k)
  pending : (s.calls 0).Pending
  id_eq : (s.calls 0).id = 0
  keys : ∀ e ∈ s.responseHandle.entries, e.key = 0

private theorem outlasts (k : Nat) (hk : k < 2 ^ 32 - 1) :
    ∃ s, (machine ⟨false, 1024⟩).Reaches Machine.any connectedClient s ∧ Outlasts k s := by
  induction k with
  | zero =>
    obtain ⟨s, hrun, hs⟩ : ∃ s, (machine ⟨false, 1024⟩).run connectedClient
        [.start 0, .register 0, .send 0, .transmit] = some s ∧ Outlasts 0 s := by
      refine ⟨_, rfl, ⟨rfl, rfl, rfl, rfl, rfl, rfl, fun d hd => ?_⟩, by decide, by decide, by decide, by decide⟩
      show Function.update (Function.update (Function.update connectedClient.calls 0 _) 0 _) 0 _ d = _
      rw [Function.update_of_ne (by omega), Function.update_of_ne (by omega), Function.update_of_ne (by omega)]
      rfl
    exact ⟨s, Machine.reaches_of_run hrun, hs⟩
  | succ k ih =>
    obtain ⟨s, hreach, hs⟩ := ih (by omega)
    have hnext : s.sequenceId = BitVec.ofNat 32 (k + 1) := hs.sequenceId.trans (nextSequenceId_ofNat hk)
    have hfree : s.responseHandle.find s.sequenceId = none := by
      refine NodeMap.find_eq_none.2 fun e he heq => ?_
      have hzero := congrArg BitVec.toNat ((hs.keys e he).symm.trans (heq.trans hnext))
      simp only [BitVec.toNat_ofNat] at hzero
      change 0 = (k + 1) % 2 ^ 32 at hzero
      omega
    obtain ⟨s', hreach', hquiet, hid, hcalls, hentries⟩ := completes 1023 hs.quiet hfree
    refine ⟨s', hreach.trans hreach', hquiet, by rw [hid, hnext], ?_, ?_, fun e he => hs.keys e ((hentries e).1 he)⟩
    · rw [hcalls 0 (by omega)]
      exact hs.pending
    · rw [hcalls 0 (by omega)]
      exact hs.id_eq

/-- A call that outlasts 2^32 - 2 later ones shares its id with the next. -/
theorem not_separate_wrapped :
    ∃ s, (machine ⟨false, 1024⟩).Reaches Machine.any (machine ⟨false, 1024⟩).start s ∧ s.isClose = false ∧
      ¬ Separate s := by
  obtain ⟨s, hreach, hs⟩ := outlasts (2 ^ 32 - 2) (by omega)
  have hwrapped : s.sequenceId = 0 := hs.sequenceId.trans (by decide)
  have hidle := hs.quiet.closer
  have hreading := hs.quiet.receiver
  have hfresh := hs.quiet.fresh (2 ^ 32 - 1) (by omega)
  have hstart : (machine ⟨false, 1024⟩).step s (.start (2 ^ 32 - 1)) =
      some (s.setCall (2 ^ 32 - 1) { Call.fresh with phase := .opened }) := by
    refine step_eq_some.2 ⟨?_, ?_⟩
    · exact congrArg Call.phase hfresh
    · simp only [next, hs.quiet.connected, if_true]
  obtain ⟨s', hregister⟩ : ∃ s', (machine ⟨false, 1024⟩).step
      (s.setCall (2 ^ 32 - 1) { Call.fresh with phase := .opened }) (.register (2 ^ 32 - 1)) = some s' := by
    refine ⟨_, step_eq_some.2 ⟨?_, rfl⟩⟩
    simp [Enabled, State.setCall, State.Locked, hreading, hidle, Receiver.holdsMutex, Closer.holdsMutex]
  obtain ⟨-, rfl⟩ := step_eq_some.1 hregister
  refine ⟨_, hreach.trans (.head trivial hstart (.single trivial hregister)), hs.quiet.isClose, fun hsep => ?_⟩
  have hzero : (next (s.setCall (2 ^ 32 - 1) { Call.fresh with phase := .opened })
      (.register (2 ^ 32 - 1))).calls 0 = s.calls 0 := by
    simp [next, State.setCall]
  have hsame := hsep.distinct 0 (2 ^ 32 - 1) (by rw [hzero]; exact hs.pending)
    (by simp [next, State.setCall, Call.Pending])
    (by rw [hzero, hs.id_eq]; simp [next, State.setCall, hwrapped])
  omega

end RpcClient

end AcidCompute

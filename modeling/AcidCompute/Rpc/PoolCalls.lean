import AcidCompute.Rpc.Pool

/-!
# The mutexes of a pool

A call holds `m_connections_mutex` while it waits for the registry's answer, and the callback of a subscription locks
the same mutex in the fiber that would have to hand the answer over.  So a publication in the wrong moment stops both
(`RpcConnectionPool.not_neverDeadlocked`); without one no such state is reached
(`RpcConnectionPool.not_deadlocked_of_reaches`).
-/

namespace AcidCompute

namespace RpcConnectionPool

/-! ### What a step changes -/

@[simp] theorem setCall_calls (s : State) (c d : Nat) (call : Call) :
    (s.setCall c call).calls d = if d = c then call else s.calls d := by
  simp [State.setCall, Function.update_apply]

@[simp] theorem setPhase_calls (s : State) (c d : Nat) (phase : Phase) :
    (s.setPhase c phase).calls d = if d = c then { s.calls c with phase := phase } else s.calls d :=
  setCall_calls s c d _

section

variable (s : State) (c : Nat)

@[simp] theorem setCall_holder (call : Call) : (s.setCall c call).holder = s.holder := rfl

@[simp] theorem setPhase_holder (phase : Phase) : (s.setPhase c phase).holder = s.holder := rfl

@[simp] theorem setHolder_holder (holder : Option Nat) : (s.setHolder holder).holder = holder := rfl

@[simp] theorem setHolder_calls (holder : Option Nat) : (s.setHolder holder).calls = s.calls := rfl

@[simp] theorem setCache_calls (name : List Byte) (addrs : List (List Byte)) :
    (s.setCache name addrs).calls = s.calls := rfl

@[simp] theorem setCache_holder (name : List Byte) (addrs : List (List Byte)) :
    (s.setCache name addrs).holder = s.holder := rfl

@[simp] theorem setCall_discoverHandle (call : Call) : (s.setCall c call).discoverHandle = s.discoverHandle := rfl

@[simp] theorem send_calls (m : PoolMessage) : (s.send m).calls = s.calls := rfl

@[simp] theorem send_holder (m : PoolMessage) : (s.send m).holder = s.holder := rfl

end

/-- A call changes by its own steps and by a push to its channel. -/
theorem calls_next {s : State} {e : Event} {d : Nat} (hd : e.caller ≠ some d)
    (hpush : ∀ results, e ≠ .push d results) : (next s e).calls d = s.calls d := by
  have hne : ∀ c, e.caller = some c → d ≠ c := by
    rintro c hc rfl
    exact hd hc
  cases e with
  | push c results =>
    have heq : d ≠ c := by
      rintro rfl
      exact hpush results rfl
    simp [next, heq]
  | dispatch m =>
    simp only [next]
    repeat' split
    all_goals rfl
  | receive | update | reply | transmit | lose => rfl
  | _ c =>
    have hdc := hne _ rfl
    simp only [next]
    repeat' split
    all_goals simp [hdc]

theorem phase_next {s : State} {e : Event} {d : Nat} (hd : e.caller ≠ some d) :
    ((next s e).calls d).phase = (s.calls d).phase ∧ ((next s e).calls d).name = (s.calls d).name := by
  by_cases hpush : ∀ results, e ≠ .push d results
  · rw [calls_next hd hpush]
    exact ⟨rfl, rfl⟩
  · simp only [not_forall, not_not] at hpush
    obtain ⟨results, rfl⟩ := hpush
    simp [next]

/-- What a step of a call makes of its local variables, and of the mutex with its holder. -/
inductive Call.Moves (c : Nat) (call : Call) (holder : Option Nat) : Event → Call → Option Nat → Prop
  | found (name : List Byte) (it : Nat) (h : call.phase = .idle) :
    Moves c call holder (.call c name) ⟨name, .found it, []⟩ holder
  | locked (name : List Byte) (hfree : holder = none) (h : call.phase = .idle) :
    Moves c call holder (.call c name) ⟨name, .locked, []⟩ (some c)
  | calling (it : Nat) (h : call.phase = .found it) :
    Moves c call holder (.invoke c it) { call with phase := .calling it } holder
  | failed (it : Nat) (h : call.phase = .calling it) :
    Moves c call holder (.result c it RpcState.closed.code) { call with phase := .failed it } holder
  | returned (it : Nat) (code : BitVec 16) (h : call.phase = .calling it) :
    Moves c call holder (.result c it code) { call with phase := .returned code } holder
  | relocked (it : Nat) (hfree : holder = none) (h : call.phase = .failed it) :
    Moves c call holder (.relock c it) { call with phase := .locked } (some c)
  | cached (h : call.phase = .locked) : Moves c call holder (.lookCache c) { call with phase := .choosing } holder
  | discovering (h : call.phase = .locked) :
    Moves c call holder (.lookCache c) { call with phase := .discovering } holder
  | closed (h : call.phase = .locked) :
    Moves c call holder (.lookCache c) { call with phase := .returned RpcState.closed.code } none
  | requesting (it : Nat) (h : call.phase = .discovering) :
    Moves c call holder (.openChannel c) { call with phase := .requesting it } holder
  | disconnected (h : call.phase = .discovering) :
    Moves c call holder (.openChannel c) { call with phase := .discovered [] } holder
  | waiting (it : Nat) (h : call.phase = .requesting it) :
    Moves c call holder (.request c it) { call with phase := .waiting it } holder
  | received (it : Nat) (results : List (BitVec 16 × List Byte)) (h : call.phase = .waiting it) :
    Moves c call holder (.takeResponse c it results)
      { call with phase := .received it results, queue := call.queue.tail } holder
  | discovered (it : Nat) (results : List (BitVec 16 × List Byte)) (ret : List (List Byte))
    (hret : discoveredAddresses results = .ok ret) (h : call.phase = .received it results) :
    Moves c call holder (.decode c it results) { call with phase := .discovered ret } holder
  | subscribing (it : Nat) (results : List (BitVec 16 × List Byte)) (ret : List (List Byte))
    (hret : discoveredAddresses results = .ok ret) (hne : ret ≠ []) (h : call.phase = .received it results) :
    Moves c call holder (.decode c it results) { call with phase := .subscribing ret } holder
  | known (ret : List (List Byte)) (h : call.phase = .subscribing ret) :
    Moves c call holder (.subscribe c ret) { call with phase := .discovered ret } holder
  | subscribed (ret : List (List Byte)) (h : call.phase = .subscribing ret) :
    Moves c call holder (.subscribe c ret) { call with phase := .subscribed ret } holder
  | requested (ret : List (List Byte)) (h : call.phase = .subscribed ret) :
    Moves c call holder (.requestSubscribe c ret) { call with phase := .discovered ret } holder
  | stored (ret : List (List Byte)) (h : call.phase = .discovered ret) :
    Moves c call holder (.store c ret) { call with phase := .choosing } holder
  | missing (h : call.phase = .discovered []) :
    Moves c call holder (.store c []) { call with phase := .returned RpcState.noMethod.code } none
  | remote (address : List Byte) (h : call.phase = .choosing) :
    Moves c call holder (.connect c address true) { call with phase := .remote } none
  | refused (address : List Byte) (h : call.phase = .choosing) :
    Moves c call holder (.connect c address false) { call with phase := .returned RpcState.fail.code } none
  | finished (code : BitVec 16) (h : call.phase = .remote) :
    Moves c call holder (.finish c code) { call with phase := .returned code } holder

/-- A call moves by its own steps, unless they end in undefined behaviour. -/
theorem moves_next {capacity : Nat} {s : State} {e : Event} (henabled : Enabled capacity s e) {c : Nat}
    (hc : e.caller = some c) : ((next s e).calls c = s.calls c ∧ (next s e).holder = s.holder) ∨
      (s.calls c).Moves c s.holder e ((next s e).calls c) (next s e).holder := by
  cases e with
  | call c name =>
    cases hc
    right
    cases hfind : s.connections.find name with
    | some e => simpa [next, hfind] using .found name e.node henabled.1
    | none => simpa [next, hfind] using .locked name henabled.2 henabled.1
  | invoke c it =>
    cases hc
    cases hderef : s.connections.deref it with
    | some e => exact .inr (by simpa [next, hderef] using .calling it henabled)
    | none => exact .inl (by simp [next, hderef])
  | result c it code =>
    cases hc
    right
    by_cases hclosed : code = RpcState.closed.code
    · subst hclosed
      simpa [next] using .failed it henabled
    · simpa [next, hclosed] using .returned it code henabled
  | relock c it =>
    cases hc
    cases hderef : s.connections.deref it with
    | some e => exact .inr (by simpa [next, hderef] using .relocked it henabled.2 henabled.1)
    | none => exact .inl (by simp [next, hderef])
  | lookCache c =>
    cases hc
    right
    by_cases hcache : s.serviceCache (s.calls c).name = []
    · by_cases hconnected : s.connected = true
      · simpa [next, hcache, hconnected] using .discovering henabled
      · simpa [next, hcache, hconnected] using .closed henabled
    · simpa [next, hcache] using .cached henabled
  | openChannel c =>
    cases hc
    right
    by_cases hconnected : s.connected = true
    · simpa [next, hconnected] using .requesting _ henabled.1
    · simpa [next, hconnected] using .disconnected henabled.1
  | request c it =>
    cases hc
    exact .inr (by simpa [next] using .waiting it henabled.1)
  | takeResponse c it results =>
    cases hc
    exact .inr (by simpa [next] using .received it results henabled.1)
  | decode c it results =>
    cases hc
    cases herase : s.discoverHandle.erase it with
    | none => exact .inl (by simp [next, herase])
    | some handle =>
      cases hresults : discoveredAddresses results with
      | error u => exact .inl (by simp [next, herase, hresults])
      | ok ret =>
        right
        cases ret with
        | nil => simpa [next, herase, hresults] using .discovered it results [] hresults henabled.1
        | cons a ret =>
          by_cases hknown : (s.subHandle.lookup (serviceSubscribe ++ (s.calls c).name)).isSome = true
          · simpa [next, herase, hresults, hknown] using .discovered it results _ hresults henabled.1
          · simpa [next, herase, hresults, hknown] using .subscribing it results _ hresults (by simp) henabled.1
  | subscribe c ret =>
    cases hc
    right
    cases hlookup : s.subHandle.lookup (serviceSubscribe ++ (s.calls c).name) with
    | some name => simpa [next, hlookup] using .known ret henabled.1
    | none => simpa [next, hlookup] using .subscribed ret henabled.1
  | requestSubscribe c ret =>
    cases hc
    exact .inr (by simpa [next] using .requested ret henabled.1)
  | store c ret =>
    cases hc
    right
    by_cases hnone : ret = []
    · subst hnone
      simpa [next] using .missing henabled
    · simpa [next, hnone] using .stored ret henabled
  | connect c address success =>
    cases hc
    right
    cases success with
    | true => simpa [next] using .remote address henabled.1
    | false => simpa [next] using .refused address henabled.1
  | finish c code =>
    cases hc
    exact .inr (by simpa [next] using .finished code henabled)
  | receive | dispatch | push | update | reply | transmit | lose => cases hc

/-- Callbacks are added in one step of a call. -/
theorem subHandle_next {s : State} {e : Event} (hsubscribe : ∀ c ret, e ≠ .subscribe c ret) :
    (next s e).subHandle = s.subHandle := by
  cases e with
  | subscribe c ret => exact absurd rfl (hsubscribe c ret)
  | _ =>
    simp only [next]
    repeat' split
    all_goals rfl

/-- The receiver is not changed by calls. -/
theorem receiver_next {s : State} {e : Event} {c : Nat} (hc : e.caller = some c) :
    (next s e).receiver = s.receiver := by
  cases e with
  | receive | dispatch | push | update | reply | transmit | lose => cases hc
  | _ =>
    simp only [next]
    repeat' split
    all_goals rfl

/-! ### The mutex of the connections -/

/-- A call holds the mutex just in its phases with the mutex. -/
def Held (s : State) : Prop := ∀ c, (s.calls c).phase.holds = true ↔ s.holder = some c

theorem Held.step {s s' : State} (h : Held s) {c : Nat} (hother : ∀ d, d ≠ c → (s'.calls d).phase = (s.calls d).phase)
    (hself : (s'.calls c).phase.holds = true ↔ s'.holder = some c)
    (hholder : s'.holder = s.holder ∨ (s.holder = none ∨ s.holder = some c) ∧ (s'.holder = none ∨ s'.holder = some c)) :
    Held s' := by
  intro d
  by_cases heq : d = c
  · rw [heq]
    exact hself
  · rw [hother d heq, h d]
    rcases hholder with hsame | ⟨hold | hold, hnew | hnew⟩
    · rw [hsame]
    all_goals simp [hold, hnew, Ne.symm heq]

/-- One call at most has the mutex. -/
theorem Held.unique {s : State} (h : Held s) {c d : Nat} (hc : (s.calls c).phase.holds = true)
    (hd : (s.calls d).phase.holds = true) : d = c := by
  have hholder : s.holder = some d := (h d).1 hd
  rw [(h c).1 hc] at hholder
  exact (Option.some.inj hholder).symm

theorem Held.init : Held connectedPool := by
  intro c
  simp [connectedPool, Call.fresh, Phase.holds]

/-- A step of a call leaves the mutex as it is, takes it or gives it back. -/
theorem holder_next {capacity : Nat} {s : State} {e : Event} (henabled : Enabled capacity s e) {c : Nat}
    (hc : e.caller = some c) :
    (((next s e).calls c).phase.holds = (s.calls c).phase.holds ∧ (next s e).holder = s.holder) ∨
    (s.holder = none ∧ ((next s e).calls c).phase.holds = true ∧ (next s e).holder = some c) ∨
    ((s.calls c).phase.holds = true ∧ ((next s e).calls c).phase.holds = false ∧ (next s e).holder = none) := by
  rcases moves_next henabled hc with ⟨hcall, hholder⟩ | hmoves
  · rw [hcall]
    exact .inl ⟨rfl, hholder⟩
  · generalize (next s e).calls c = new, (next s e).holder = holder at hmoves ⊢
    cases hmoves with
    | locked name hfree | relocked it hfree => exact .inr (.inl ⟨hfree, rfl, rfl⟩)
    | closed hphase | missing hphase | remote address hphase | refused address hphase =>
      rw [hphase]
      exact .inr (.inr ⟨rfl, rfl, rfl⟩)
    | _ =>
      rename_i hphase
      rw [hphase]
      exact .inl ⟨rfl, rfl⟩

theorem Held.next {capacity : Nat} {s : State} (h : Held s) {e : Event} (henabled : Enabled capacity s e) :
    Held (next s e) := by
  cases hcaller : e.caller with
  | none =>
    have hholder : (RpcConnectionPool.next s e).holder = s.holder := by
      cases e with
      | dispatch m =>
        simp only [RpcConnectionPool.next]
        repeat' split
        all_goals rfl
      | receive | push | update | reply | transmit | lose => rfl
      | _ => cases hcaller
    intro d
    rw [(phase_next (by simp [hcaller])).1, hholder]
    exact h d
  | some c =>
    have hc := h c
    refine h.step (c := c) (fun d hne => (phase_next (by simpa [hcaller] using Ne.symm hne)).1) ?_ ?_
    · rcases holder_next henabled hcaller with ⟨hphase, hsame⟩ | ⟨-, hphase, hnew⟩ | ⟨-, hphase, hnew⟩
      · rw [hphase, hsame]
        exact hc
      · simp [hphase, hnew]
      · simp [hphase, hnew]
    · rcases holder_next henabled hcaller with ⟨-, hsame⟩ | ⟨hfree, -, hnew⟩ | ⟨hphase, -, hnew⟩
      · exact .inl hsame
      · exact .inr ⟨.inl hfree, .inr hnew⟩
      · exact .inr ⟨.inr (hc.1 hphase), .inl hnew⟩

/-! ### The channels of `discover` -/

/-- The entries of `m_discover_handle` belong to the calls that wait for a response. -/
def Opened (s : State) : Prop :=
  ∀ e : Entry (List Byte) Nat, e ∈ s.discoverHandle.entries ↔
    (s.calls e.value).phase.handle = some e.node ∧ (s.calls e.value).name = e.key

theorem Opened.init : Opened connectedPool := by
  intro e
  simp [connectedPool, Call.fresh, Phase.handle, NodeMap.empty]

/-- Only two steps open or close the channel of a call. -/
theorem handle_next {capacity : Nat} {s : State} {e : Event} (henabled : Enabled capacity s e)
    (hopen : ∀ c, e ≠ .openChannel c) (hdecode : ∀ c it results, e ≠ .decode c it results) :
    (next s e).discoverHandle = s.discoverHandle ∧
    ∀ d, ((next s e).calls d).phase.handle = (s.calls d).phase.handle ∧
      (((s.calls d).phase.handle = none) ∨ ((next s e).calls d).name = (s.calls d).name) := by
  constructor
  · cases e with
    | openChannel c => exact absurd rfl (hopen c)
    | decode c it results => exact absurd rfl (hdecode c it results)
    | _ =>
      simp only [next]
      repeat' split
      all_goals rfl
  · intro d
    by_cases hd : e.caller = some d
    · rcases moves_next henabled hd with ⟨hsame, -⟩ | hmoves
      · rw [hsame]
        exact ⟨rfl, .inr rfl⟩
      · generalize (next s e).calls d = new, (next s e).holder = holder at hmoves ⊢
        cases hmoves with
        | requesting | disconnected => exact absurd rfl (hopen d)
        | discovered it results | subscribing it results => exact absurd rfl (hdecode d it results)
        | waiting it hphase | received it results hphase =>
          rw [hphase]
          exact ⟨rfl, .inr rfl⟩
        | _ =>
          rename_i hphase
          rw [hphase]
          exact ⟨rfl, .inl rfl⟩
    · rw [(phase_next hd).1, (phase_next hd).2]
      exact ⟨rfl, .inr rfl⟩

theorem Phase.holds_of_inDiscover {phase : Phase} (h : phase.inDiscover = true) : phase.holds = true := by
  cases phase <;> simp_all [Phase.inDiscover, Phase.holds]

theorem Phase.holds_of_waiting {phase : Phase} {it : Nat} (h : phase = .waiting it) : phase.holds = true := by
  rw [h]
  rfl

theorem Phase.holds_of_handle {phase : Phase} {it : Nat} (h : phase.handle = some it) : phase.holds = true := by
  cases phase <;> simp_all [Phase.handle, Phase.holds]

/-- The entry of a call that waits for a response. -/
theorem Opened.mem {s : State} (h : Opened s) {c it : Nat} (hphase : (s.calls c).phase.handle = some it) :
    (⟨(s.calls c).name, it, c⟩ : Entry (List Byte) Nat) ∈ s.discoverHandle.entries := (h _).2 ⟨hphase, rfl⟩

/-- The channel of a call is opened when no other is. -/
theorem Opened.openChannel {s : State} (hheld : Held s) (h : Opened s) {c : Nat}
    (hphase : (s.calls c).phase = .discovering) : Opened (RpcConnectionPool.next s (.openChannel c)) := by
  have hholds : (s.calls c).phase.holds = true := by simp [hphase, Phase.holds]
  have hclosed : ∀ e, e ∉ s.discoverHandle.entries := by
    intro e he
    obtain ⟨hhandle, -⟩ := (h e).1 he
    rw [hheld.unique hholds (Phase.holds_of_handle hhandle), hphase] at hhandle
    cases hhandle
  have hfree : s.discoverHandle.find (s.calls c).name = none :=
    NodeMap.find_eq_none.2 fun e he => absurd he (hclosed e)
  obtain ⟨hit, hentries, -⟩ := NodeMap.emplace_of_none hfree c
  by_cases hconnected : s.connected = true
  · have hmem : ∀ e, e ∈ (s.discoverHandle.emplace (s.calls c).name c).1.entries ↔
        e = ⟨(s.calls c).name, s.discoverHandle.next, c⟩ := by
      intro e
      rw [hentries, NodeMap.mem_insertEntry, or_iff_left (hclosed e)]
    intro e
    simp only [RpcConnectionPool.next, hconnected, if_true, setPhase_calls, hit]
    rw [hmem]
    by_cases heq : e.value = c
    · rw [if_pos heq]
      constructor
      · rintro rfl
        exact ⟨rfl, rfl⟩
      · rintro ⟨hnode, hkey⟩
        obtain ⟨key, node, d⟩ := e
        simp only [Phase.handle, Option.some.injEq] at heq hnode hkey
        rw [heq, ← hnode, ← hkey]
    · rw [if_neg heq, ← h e]
      constructor
      · rintro rfl
        exact absurd rfl heq
      · intro he
        exact absurd he (hclosed e)
  · intro e
    simp only [RpcConnectionPool.next, hconnected]
    by_cases heq : e.value = c
    · have hnot := hclosed e
      simp [heq, Phase.handle, State.setPhase, hnot]
    · simpa [heq, State.setPhase] using h e

/-- The channel of a call is gone when its response has been taken. -/
theorem Opened.close {s : State} (h : Opened s) {c it : Nat} (hphase : (s.calls c).phase.handle = some it)
    {phase : Phase} (hnone : phase.handle = none) :
    ∃ handle, s.discoverHandle.erase it = some handle ∧
      Opened (State.setPhase { s with discoverHandle := handle } c phase) := by
  have hmem := h.mem hphase
  obtain ⟨handle, herase, hentries⟩ := NodeMap.erase_of_mem hmem
  refine ⟨handle, herase, ?_⟩
  intro e
  show e ∈ handle.entries ↔ _
  rw [hentries]
  by_cases heq : e.value = c
  · have hgone : ¬ (e ∈ s.discoverHandle.entries ∧ e.node ≠ it) := by
      rintro ⟨he, hne⟩
      obtain ⟨hhandle, -⟩ := (h e).1 he
      rw [heq, hphase] at hhandle
      exact hne (Option.some.inj hhandle).symm
    simp only [setPhase_calls, if_pos heq, hnone]
    exact iff_of_false hgone (by simp)
  · simp only [setPhase_calls, if_neg heq]
    rw [← h e, and_iff_left_iff_imp]
    intro he hnode
    have hsame : e = ⟨(s.calls c).name, it, c⟩ := NodeMap.eq_of_node he hmem hnode
    exact heq (by rw [hsame])

theorem Opened.decode {s : State} (h : Opened s) (hfault : s.fault = none) {c it : Nat}
    {results : List (BitVec 16 × List Byte)} (hphase : (s.calls c).phase = .received it results) :
    (RpcConnectionPool.next s (.decode c it results)).fault ≠ some .danglingIterator ∧
      ((RpcConnectionPool.next s (.decode c it results)).fault = none →
        Opened (RpcConnectionPool.next s (.decode c it results))) := by
  have hhandle : (s.calls c).phase.handle = some it := by simp [hphase, Phase.handle]
  have hidle : Phase.idle.handle = none := rfl
  obtain ⟨handle, herase, -⟩ := h.close hhandle hidle
  have hclosed : ∀ phase : Phase, phase.handle = none →
      Opened (State.setPhase { s with discoverHandle := handle } c phase) := by
    intro phase hnone
    obtain ⟨handle', herase', hopened⟩ := h.close hhandle hnone
    rw [herase] at herase'
    cases herase'
    exact hopened
  have hsame : ∀ phase, (State.setPhase { s with discoverHandle := handle } c phase).fault = none := fun _ => hfault
  simp only [RpcConnectionPool.next, herase]
  cases hresults : discoveredAddresses results with
  | error u =>
    have hnull : u = .nullDeref := by
      cases results with
      | nil =>
        cases hresults
        rfl
      | cons first rest =>
        by_cases hcode : first.1 = RpcState.noMethod.code
        · simp [discoveredAddresses, hcode, pure, Except.pure] at hresults
        · simp [discoveredAddresses, hcode, pure, Except.pure] at hresults
    rw [hnull]
    exact ⟨by simp, by simp⟩
  | ok ret =>
    cases ret with
    | nil => exact ⟨by simp [hsame], fun _ => hclosed _ rfl⟩
    | cons a ret =>
      dsimp only
      split
      · exact ⟨by simp [hsame], fun _ => hclosed _ rfl⟩
      · exact ⟨by simp [hsame], fun _ => hclosed _ rfl⟩

theorem Opened.next {capacity : Nat} {s : State} (hheld : Held s) (h : Opened s) (hfault : s.fault = none) {e : Event}
    (henabled : Enabled capacity s e) (hnext : (next s e).fault = none) : Opened (next s e) := by
  by_cases hopen : ∃ c, e = .openChannel c
  · obtain ⟨c, rfl⟩ := hopen
    exact h.openChannel hheld henabled.1
  by_cases hdecode : ∃ c it results, e = .decode c it results
  · obtain ⟨c, it, results, rfl⟩ := hdecode
    exact (h.decode hfault henabled.1).2 hnext
  obtain ⟨hhandle, hcalls⟩ := handle_next henabled (fun c heq => hopen ⟨c, heq⟩)
    (fun c it results heq => hdecode ⟨c, it, results, heq⟩)
  intro x
  rw [hhandle, h x, (hcalls x.value).1]
  rcases (hcalls x.value).2 with hnone | hname
  · simp [hnone]
  · rw [hname]

/-- The tables fit the phases of the calls in every run. -/
theorem held_of_reaches {capacity : Nat} {Allowed : State → Event → Prop} {s : State}
    (h : (machine capacity).Reaches Allowed connectedPool s) : Held s ∧ (s.fault = none → Opened s) := by
  refine h.invariant (I := fun s => Held s ∧ (s.fault = none → Opened s)) ?_ ⟨.init, fun _ => .init⟩
  rintro t e t' ⟨hheld, hopened⟩ - hstep
  obtain ⟨⟨hfault, henabled⟩, rfl⟩ := step_eq_some.1 hstep
  exact ⟨hheld.next henabled, (hopened hfault).next hheld hfault henabled⟩

/-! ### The receiver and the mutex -/

/-- The call is inside `discover`, and its response has not been dispatched. -/
def Call.awaits (call : Call) : Bool :=
  match call.phase with
  | .discovering | .requesting _ => true
  | .waiting _ => call.queue.isEmpty
  | _ => false

/-- A call waits with the mutex for a response, and the receiver, which has not dispatched it, waits for the mutex. -/
def Deadlocked (s : State) : Prop :=
  ∃ c it, s.holder = some c ∧ (s.calls c).phase = .waiting it ∧ (s.calls c).queue = [] ∧
    s.receiver.isUpdating = true

/-- No callback is entered while a call is about to wait or waits for a response, and no call goes on to discover while
the receiver is in a callback. -/
def Answerable (s : State) (e : Event) : Prop :=
  (∀ p, e = .dispatch (.publish p) → (s.subHandle.lookup p.key).isSome = true → ∀ c, (s.calls c).awaits = false) ∧
  (∀ c, e = .lookCache c → s.serviceCache (s.calls c).name = [] → s.connected = true →
    s.receiver.isUpdating = false)

/-- A call that is going to wait for a response was doing so, or has found nothing in the cache. -/
theorem awaits_next {capacity : Nat} {s : State} {e : Event} (henabled : Enabled capacity s e) {c : Nat}
    (h : ((next s e).calls c).awaits = true) : (s.calls c).awaits = true ∨
      (e = .lookCache c ∧ s.serviceCache (s.calls c).name = [] ∧ s.connected = true) := by
  by_cases hc : e.caller = some c
  · rcases moves_next henabled hc with ⟨hsame, -⟩ | hmoves
    · rw [hsame] at h
      exact .inl h
    · generalize hnew : (next s e).calls c = new, (next s e).holder = holder at h hmoves
      cases hmoves with
      | discovering =>
        by_cases hcache : s.serviceCache (s.calls c).name = []
        · by_cases hconnected : s.connected = true
          · exact .inr ⟨rfl, hcache, hconnected⟩
          · simp [next, hcache, hconnected] at hnew
        · simp [next, hcache] at hnew
      | requesting it hphase | waiting it hphase => exact .inl (by simp [Call.awaits, hphase])
      | _ => simp [Call.awaits] at h
  · refine .inl ?_
    by_cases hpush : ∀ results, e ≠ .push c results
    · rwa [calls_next hc hpush] at h
    · simp only [not_forall, not_not] at hpush
      obtain ⟨results, rfl⟩ := hpush
      cases hphase : (s.calls c).phase <;> simp_all [next, Call.awaits]

/-- The receiver comes into a callback by the publication for it. -/
theorem isUpdating_next {s : State} {e : Event} (h : (next s e).receiver.isUpdating = true) :
    s.receiver.isUpdating = true ∨
      ∃ p, e = .dispatch (.publish p) ∧ (s.subHandle.lookup p.key).isSome = true := by
  cases e with
  | dispatch m =>
    cases m with
    | publish p =>
      cases hlookup : s.subHandle.lookup p.key with
      | some name => exact .inr ⟨p, rfl, by simp [hlookup]⟩
      | none => simp [next, hlookup, Receiver.isUpdating] at h
    | discoverResponse service results =>
      simp only [next] at h
      split at h <;> simp [Receiver.isUpdating] at h
    | _ => simp [next, Receiver.isUpdating] at h
  | receive | push | update | reply => simp [next, Receiver.isUpdating] at h
  | _ =>
    refine .inl ?_
    simp only [next] at h
    repeat' split at h
    all_goals exact h

/-- In a run of answerable steps no call waits for a receiver that waits for it. -/
theorem not_deadlocked_of_reaches {capacity : Nat} {s : State}
    (h : (machine capacity).Reaches Answerable connectedPool s) : ¬ Deadlocked s := by
  have hfree : s.receiver.isUpdating = true → ∀ c, (s.calls c).awaits = false := by
    refine h.invariant (I := fun s => s.receiver.isUpdating = true → ∀ c, (s.calls c).awaits = false) ?_ ?_
    · rintro t e t' ht ⟨hdispatch, hlook⟩ hstep hupdating c
      obtain ⟨⟨-, henabled⟩, rfl⟩ := step_eq_some.1 hstep
      by_contra hawaits
      rw [Bool.not_eq_false] at hawaits
      rcases isUpdating_next hupdating with hold | ⟨p, rfl, hknown⟩
      · rcases awaits_next henabled hawaits with hbefore | ⟨rfl, hcache, hconnected⟩
        · simp [ht hold c] at hbefore
        · simp [hlook c rfl hcache hconnected] at hold
      · rcases awaits_next henabled hawaits with hbefore | ⟨heq, -⟩
        · simp [hdispatch p rfl hknown c] at hbefore
        · cases heq
    · intro hupdating
      cases hupdating
  rintro ⟨c, it, -, hphase, hqueue, hupdating⟩
  have hnot := hfree hupdating c
  simp [Call.awaits, hphase, hqueue] at hnot

/-- A call that finds nothing in the cache, and goes on to discover. -/
theorem not_deadlocked_of_reaches_one :
    ∃ s, (machine 1).run connectedPool [.call 1 (text "a"), .lookCache 1] = some s ∧ ¬ Deadlocked s := by
  let s := next connectedPool (.call 1 (text "a"))
  have hcall : Answerable connectedPool (.call 1 (text "a")) := by
    refine ⟨?_, ?_⟩
    · intro p he
      cases he
    · intro c he
      cases he
  have hlook : Answerable s (.lookCache 1) := by
    refine ⟨?_, ?_⟩
    · intro p he
      cases he
    · intro c he _ _
      rfl
  have hreach : (machine 1).Reaches Answerable connectedPool (next s (.lookCache 1)) :=
    .head hcall rfl (.single hlook rfl)
  exact ⟨next s (.lookCache 1), rfl, not_deadlocked_of_reaches hreach⟩

/-- Nobody ends a deadlock. -/
theorem Deadlocked.next {capacity : Nat} {s : State} (hheld : Held s) (h : Deadlocked s) {e : Event}
    (henabled : Enabled capacity s e) : Deadlocked (next s e) := by
  obtain ⟨c, it, hholder, hphase, hqueue, hupdating⟩ := h
  have hc : e.caller ≠ some c := by
    intro hc
    cases e <;> cases hc <;> simp [Enabled, hphase, hqueue] at henabled
  have hpush : ∀ results, e ≠ .push c results := by
    rintro results rfl
    simp [henabled.1, Receiver.isUpdating] at hupdating
  have hcall := calls_next (s := s) hc hpush
  have hreceiver : (RpcConnectionPool.next s e).receiver = s.receiver := by
    cases e with
    | receive | dispatch | push | reply =>
      simp only [Enabled] at henabled
      simp [henabled, Receiver.isUpdating] at hupdating
    | update name online address =>
      rw [henabled.2] at hholder
      cases hholder
    | transmit | lose => rfl
    | _ => exact receiver_next rfl
  refine ⟨c, it, ?_, by rw [hcall]; exact hphase, by rw [hcall]; exact hqueue, by rw [hreceiver]; exact hupdating⟩
  rw [← hheld.next henabled c, hcall, hphase]
  rfl

/-- For every order of the messages no call waits for a receiver that waits for it. -/
def NeverDeadlocked : Prop :=
  ∀ capacity s, 0 < capacity → (machine capacity).Reaches Machine.any connectedPool s → ¬ Deadlocked s

/-- The steps of a first call of a service up to its remote call; the registry knows one address. -/
def firstCall (c it : Nat) (name address : List Byte) : List Event :=
  let results := [(RpcState.success.code, address)]
  [.call c name, .lookCache c, .openChannel c, .request c it, .transmit (.discover name),
    .receive (.discoverResponse name results), .dispatch (.discoverResponse name results), .push c results,
    .takeResponse c it results, .decode c it results, .subscribe c [address], .requestSubscribe c [address],
    .transmit (.subscribe (serviceSubscribe ++ name)), .store c [address], .connect c address true]

/-- While a call waits for the addresses of "b", an address of "a" comes. -/
theorem not_neverDeadlocked : ¬ NeverDeadlocked := by
  intro h
  let published : Publication := ⟨serviceSubscribe ++ text "a", true, text "127.0.0.1:81"⟩
  obtain ⟨s, hreach, hholder, hphase, hqueue, hupdating⟩ := Machine.exists_reaches_of_run (M := machine 1)
    (s := connectedPool) (P := fun s => s.holder = some 2 ∧ (s.calls 2).phase = .waiting 1 ∧ (s.calls 2).queue = [] ∧
      s.receiver.isUpdating = true)
    (firstCall 1 0 (text "a") (text "127.0.0.1:80") ++
      [.call 2 (text "b"), .lookCache 2, .openChannel 2, .request 2 1, .receive (.publish published),
        .dispatch (.publish published)]) (fun _ _ _ => trivial) (by decide +kernel)
  exact h 1 s (by decide) hreach ⟨2, 1, hholder, hphase, hqueue, hupdating⟩

end RpcConnectionPool

end AcidCompute

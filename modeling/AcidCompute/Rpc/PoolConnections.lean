import AcidCompute.Rpc.PoolCalls

/-!
# The connections of a pool

Between its search and the removal of a failed connection a call keeps an iterator into `m_connections` without the
mutex.  The iterator stays valid if no other call that has not used its own iterator for the last time has the same one
when the connection is removed (`RpcConnectionPool.connectionsSafe_of_reaches`); otherwise it may be used after its node
is gone (`RpcConnectionPool.not_alwaysSafe`).
-/

namespace AcidCompute

namespace RpcConnectionPool

/-- A connection is removed when no other call is going to use the iterator, and a call that has come back from a
connection that is gone does not say that it was closed. -/
def Exclusive (s : State) (e : Event) : Prop :=
  (∀ c it, e = .relock c it → ∀ d, d ≠ c → (s.calls d).phase.connection ≠ some it) ∧
  (∀ c it, e = .result c it RpcState.closed.code → (s.connections.deref it).isSome = true)

/-- What the iterators of the calls designate. -/
structure Live (s : State) : Prop where
  designates : ∀ c it, (s.calls c).phase.connection = some it →
    ∃ e ∈ s.connections.entries, e.node = it ∧ e.key = (s.calls c).name
  calling : ∀ c it, (s.calls c).phase = .calling it →
    it < s.connections.next ∧ ∀ e ∈ s.connections.entries, e.node = it → e.key = (s.calls c).name

theorem Live.init : Live connectedPool where
  designates c it h := by simp [connectedPool, Call.fresh, Phase.connection] at h
  calling c it h := by simp [connectedPool, Call.fresh] at h

/-- The nodes that other calls are going to use stay, and new nodes have new numbers. -/
theorem Live.step {s s' : State} {e : Event} (h : Live s) {c : Nat} (hc : e.caller = some c) (hs' : next s e = s')
    (hkept : ∀ d, d ≠ c → ∀ x ∈ s.connections.entries, (s.calls d).phase.connection = some x.node →
      x ∈ s'.connections.entries)
    (hnew : ∀ x ∈ s'.connections.entries, x ∈ s.connections.entries ∨ x.node = s.connections.next)
    (hnext : s.connections.next ≤ s'.connections.next)
    (hself : ∀ it, (s'.calls c).phase.connection = some it →
      ∃ x ∈ s'.connections.entries, x.node = it ∧ x.key = (s'.calls c).name)
    (hcalling : ∀ it, (s'.calls c).phase = .calling it →
      it < s'.connections.next ∧ ∀ x ∈ s'.connections.entries, x.node = it → x.key = (s'.calls c).name) :
    Live s' := by
  have hother : ∀ d, d ≠ c → (s'.calls d).phase = (s.calls d).phase ∧ (s'.calls d).name = (s.calls d).name := by
    subst hs'
    exact fun d hne => phase_next (by simpa [hc] using Ne.symm hne)
  constructor
  case designates =>
    intro d it hphase
    by_cases heq : d = c
    · subst heq
      exact hself it hphase
    · rw [(hother d heq).1] at hphase
      obtain ⟨x, hx, rfl, hkey⟩ := h.designates d it hphase
      exact ⟨x, hkept d heq x hx hphase, rfl, hkey.trans (hother d heq).2.symm⟩
  case calling =>
    intro d it hphase
    by_cases heq : d = c
    · subst heq
      exact hcalling it hphase
    · rw [(hother d heq).1] at hphase
      obtain ⟨hlt, hkey⟩ := h.calling d it hphase
      refine ⟨by omega, ?_⟩
      intro x hx hnode
      rcases hnew x hx with hold | hfresh
      · rw [hkey x hold hnode, (hother d heq).2]
      · omega

/-- A connection goes or comes by two kinds of steps. -/
theorem connections_next {s : State} {e : Event} (hrelock : ∀ c it, e ≠ .relock c it)
    (hconnect : ∀ c address, e ≠ .connect c address true) : (next s e).connections = s.connections := by
  cases e with
  | relock c it => exact absurd rfl (hrelock c it)
  | connect c address success =>
    cases success with
    | true => exact absurd rfl (hconnect c address)
    | false => rfl
  | _ =>
    simp only [next]
    repeat' split
    all_goals rfl

/-- A step that leaves the connections as they are. -/
theorem Live.keep {s s' : State} {e : Event} (h : Live s) {c : Nat} (hc : e.caller = some c) (hs' : next s e = s')
    (hconnections : s'.connections = s.connections)
    (hself : ∀ it, (s'.calls c).phase.connection = some it →
      ∃ x ∈ s.connections.entries, x.node = it ∧ x.key = (s'.calls c).name)
    (hcalling : ∀ it, (s'.calls c).phase = .calling it →
      it < s.connections.next ∧ ∀ x ∈ s.connections.entries, x.node = it → x.key = (s'.calls c).name) : Live s' := by
  rw [← hconnections] at hself hcalling
  refine h.step hc hs' ?_ ?_ (by rw [hconnections]) hself hcalling
  · intro d _ x hx _
    rwa [hconnections]
  · intro x hx
    rw [hconnections] at hx
    exact .inl hx

section

variable {s : State} {c it : Nat}

theorem Live.call (h : Live s) (name : List Byte) : Live (next s (.call c name)) := by
  refine h.keep rfl rfl (connections_next (by simp) (by simp)) ?_ ?_
  · intro it hphase
    cases hfind : s.connections.find name with
    | none => simp [next, hfind, Phase.connection] at hphase
    | some e =>
      obtain ⟨he, hkey⟩ := NodeMap.find_eq_some hfind
      simp only [next, hfind, setCall_calls, if_true, Phase.connection, Option.some.injEq] at hphase
      exact ⟨e, he, hphase, by simpa [next, hfind] using hkey⟩
  · intro it hphase
    cases hfind : s.connections.find name <;> simp [next, hfind] at hphase

theorem Live.invoke (h : Live s) (hphase : (s.calls c).phase = .found it) :
    (next s (.invoke c it)).fault = s.fault ∧ Live (next s (.invoke c it)) := by
  obtain ⟨e, he, rfl, hkey⟩ := h.designates c it (by simp [hphase, Phase.connection])
  have hderef := NodeMap.deref_of_mem he
  refine ⟨by simp [next, hderef, State.setPhase, State.setCall], ?_⟩
  refine h.keep rfl rfl (connections_next (by simp) (by simp)) ?_ ?_
  · intro it hconnection
    simp [next, hderef, Phase.connection] at hconnection
  · intro it hcalling
    simp only [next, hderef, setPhase_calls, if_true, Phase.calling.injEq] at hcalling ⊢
    subst hcalling
    refine ⟨s.connections.node_lt e he, ?_⟩
    intro x hx hnode
    rw [NodeMap.eq_of_node hx he hnode]
    exact hkey

theorem Live.result (h : Live s) (hphase : (s.calls c).phase = .calling it) {code : BitVec 16}
    (hexclusive : Exclusive s (.result c it code)) : Live (next s (.result c it code)) := by
  refine h.keep rfl rfl (connections_next (by simp) (by simp)) ?_ ?_
  · intro it' hconnection
    by_cases hclosed : code = RpcState.closed.code
    · subst hclosed
      simp only [next, if_true, setPhase_calls, Phase.connection, Option.some.injEq] at hconnection ⊢
      subst hconnection
      obtain ⟨e, hderef⟩ := Option.isSome_iff_exists.1 (hexclusive.2 c it rfl)
      obtain ⟨he, hnode⟩ := NodeMap.deref_eq_some hderef
      exact ⟨e, he, hnode, (h.calling c it hphase).2 e he hnode⟩
    · simp [next, hclosed, Phase.connection] at hconnection
  · intro it' hcalling
    by_cases hclosed : code = RpcState.closed.code <;> simp [next, hclosed] at hcalling

/-- The node of the failed connection goes, and no other. -/
theorem Live.relock (h : Live s) (hphase : (s.calls c).phase = .failed it) :
    (next s (.relock c it)).fault = s.fault ∧ ∀ e, e ∈ (next s (.relock c it)).connections.entries ↔
      e ∈ s.connections.entries ∧ e.node ≠ it := by
  obtain ⟨e, he, rfl, hkey⟩ := h.designates c it (by simp [hphase, Phase.connection])
  have hderef := NodeMap.deref_of_mem he
  have hgone : ∀ x, x ∈ (next s (.relock c e.node)).connections.entries ↔
      x ∈ s.connections.entries ∧ x.key ≠ (s.calls c).name := by
    intro x
    simp only [next, hderef]
    exact NodeMap.mem_eraseKey
  refine ⟨by simp [next, hderef, State.setPhase, State.setCall, State.setCache, State.setHolder], ?_⟩
  intro x
  rw [hgone, ← hkey]
  constructor
  · rintro ⟨hx, hne⟩
    exact ⟨hx, fun hnode => hne (by rw [NodeMap.eq_of_node hx he hnode])⟩
  · rintro ⟨hx, hne⟩
    exact ⟨hx, fun heq => hne (by rw [NodeMap.eq_of_key hx he heq])⟩

theorem Live.next_relock (h : Live s) (hphase : (s.calls c).phase = .failed it)
    (hexclusive : Exclusive s (.relock c it)) : Live (next s (.relock c it)) := by
  obtain ⟨-, hentries⟩ := h.relock hphase
  obtain ⟨e, he, rfl, -⟩ := h.designates c it (by simp [hphase, Phase.connection])
  have hderef := NodeMap.deref_of_mem he
  refine h.step rfl rfl ?_ ?_ ?_ ?_ ?_
  · intro d hne x hx hconnection
    refine (hentries x).2 ⟨hx, ?_⟩
    intro hnode
    rw [hnode] at hconnection
    exact hexclusive.1 c e.node rfl d hne hconnection
  · intro x hx
    exact .inl ((hentries x).1 hx).1
  · simp [next, hderef, State.setPhase, State.setCall, State.setCache, State.setHolder, NodeMap.eraseKey]
  · intro it' hconnection
    simp [next, hderef, Phase.connection] at hconnection
  · intro it' hcalling
    simp [next, hderef] at hcalling

theorem Live.connect (h : Live s) (address : List Byte) : Live (next s (.connect c address true)) := by
  obtain ⟨hkept, hnew, hnext⟩ := s.connections.emplace_spec (s.calls c).name address
  refine h.step rfl rfl ?_ hnew hnext ?_ ?_
  · intro d _ x hx _
    exact hkept x hx
  · intro it' hconnection
    simp [next, Phase.connection] at hconnection
  · intro it' hcalling
    simp [next] at hcalling

theorem Live.receiver (h : Live s) {e : Event} (hcaller : e.caller = none) : Live (next s e) := by
  have hconnections : (next s e).connections = s.connections := by
    refine connections_next ?_ ?_
    · rintro c it rfl
      cases hcaller
    · rintro c address rfl
      cases hcaller
  have hsame : ∀ d, ((next s e).calls d).phase = (s.calls d).phase ∧ ((next s e).calls d).name = (s.calls d).name :=
    fun d => phase_next (by simp [hcaller])
  constructor
  case designates =>
    intro d it
    rw [(hsame d).1, (hsame d).2, hconnections]
    exact h.designates d it
  case calling =>
    intro d it
    rw [(hsame d).1, (hsame d).2, hconnections]
    exact h.calling d it

end

theorem Live.next {capacity : Nat} {s : State} (h : Live s) {e : Event} (henabled : Enabled capacity s e)
    (hexclusive : Exclusive s e) : Live (next s e) := by
  cases e with
  | call c name => exact h.call name
  | invoke c it => exact (h.invoke henabled).2
  | result c it code => exact h.result henabled hexclusive
  | relock c it => exact h.next_relock henabled.1 hexclusive
  | connect c address success =>
    cases success with
    | true => exact h.connect address
    | false =>
      refine h.keep rfl rfl rfl ?_ ?_
      · intro it hconnection
        simp [RpcConnectionPool.next, Phase.connection] at hconnection
      · intro it hcalling
        simp [RpcConnectionPool.next] at hcalling
  | receive | dispatch | push | update | reply | transmit | lose => exact h.receiver rfl
  | lookCache c | openChannel c | request c | takeResponse c | decode c | subscribe c | requestSubscribe c | store c
  | finish c =>
    refine h.keep rfl rfl (connections_next (by simp) (by simp)) ?_ ?_
    · intro it hconnection
      rcases moves_next henabled rfl with ⟨hsame, -⟩ | hmoves
      · rw [hsame] at hconnection ⊢
        exact h.designates c it hconnection
      · generalize (RpcConnectionPool.next s _).calls c = new, (RpcConnectionPool.next s _).holder = holder
          at hconnection hmoves
        cases hmoves <;> cases hconnection
    · intro it hcalling
      rcases moves_next henabled rfl with ⟨hsame, -⟩ | hmoves
      · rw [hsame] at hcalling ⊢
        exact h.calling c it hcalling
      · generalize (RpcConnectionPool.next s _).calls c = new, (RpcConnectionPool.next s _).holder = holder
          at hcalling hmoves
        cases hmoves <;> cases hcalling

/-- Other steps than these three do not use an iterator. -/
theorem fault_next {s : State} {e : Event} (hfault : s.fault = none) (hinvoke : ∀ c it, e ≠ .invoke c it)
    (hrelock : ∀ c it, e ≠ .relock c it) (hdecode : ∀ c it results, e ≠ .decode c it results) :
    (next s e).fault = none := by
  cases e with
  | invoke c it => exact absurd rfl (hinvoke c it)
  | relock c it => exact absurd rfl (hrelock c it)
  | decode c it results => exact absurd rfl (hdecode c it results)
  | _ =>
    simp only [next]
    repeat' split
    all_goals exact hfault

/-- No iterator has been used after its node was erased; the iterators that are going to be used designate entries with
the names of their calls; and a failed connection is removed with its own node and no other. -/
def ConnectionsSafe (capacity : Nat) (s : State) : Prop :=
  s.fault ≠ some .danglingIterator ∧
  (∀ c it, (s.calls c).phase.connection = some it →
    ∃ e ∈ s.connections.entries, e.node = it ∧ e.key = (s.calls c).name) ∧
  ∀ c it s', (s.calls c).phase = .failed it → (machine capacity).step s (.relock c it) = some s' →
    (∃ e ∈ s.connections.entries, e.node = it) ∧
    ∀ e, e ∈ s'.connections.entries ↔ e ∈ s.connections.entries ∧ e.node ≠ it

/-- In a run of exclusive steps the connections are safe. -/
theorem connectionsSafe_of_reaches {capacity : Nat} {s : State}
    (h : (machine capacity).Reaches Exclusive connectedPool s) : ConnectionsSafe capacity s := by
  have hs : s.fault ≠ some .danglingIterator ∧ Live s := by
    refine h.invariant_along (I := fun s => s.fault ≠ some .danglingIterator ∧ Live s) ?_
      ⟨by simp [connectedPool], .init⟩
    rintro t e t' hreach ⟨-, hlive⟩ hexclusive hstep
    obtain ⟨⟨hfault, henabled⟩, rfl⟩ := step_eq_some.1 hstep
    have hopened := (held_of_reaches hreach).2 hfault
    refine ⟨?_, hlive.next henabled hexclusive⟩
    by_cases hinvoke : ∃ c it, e = .invoke c it
    · obtain ⟨c, it, rfl⟩ := hinvoke
      simp [(hlive.invoke henabled).1, hfault]
    by_cases hrelock : ∃ c it, e = .relock c it
    · obtain ⟨c, it, rfl⟩ := hrelock
      simp [(hlive.relock henabled.1).1, hfault]
    by_cases hdecode : ∃ c it results, e = .decode c it results
    · obtain ⟨c, it, results, rfl⟩ := hdecode
      exact (hopened.decode hfault henabled.1).1
    · rw [fault_next hfault (fun c it heq => hinvoke ⟨c, it, heq⟩) (fun c it heq => hrelock ⟨c, it, heq⟩)
        (fun c it results heq => hdecode ⟨c, it, results, heq⟩)]
      simp
  obtain ⟨hfault, hlive⟩ := hs
  refine ⟨hfault, hlive.designates, ?_⟩
  intro c it s' hphase hstep
  obtain ⟨-, rfl⟩ := step_eq_some.1 hstep
  obtain ⟨e, he, hnode, -⟩ := hlive.designates c it (by simp [hphase, Phase.connection])
  exact ⟨⟨e, he, hnode⟩, (hlive.relock hphase).2⟩

/-- A call has come back from a closed connection. -/
theorem connectionsSafe_of_reaches_failed :
    ∃ s, (machine 1).Reaches Exclusive connectedPool s ∧ (s.calls 2).phase = .failed 0 ∧ ConnectionsSafe 1 s := by
  have hquiet : ∀ t, ∀ e ∈ firstCall 1 0 (text "a") (text "127.0.0.1:80") ++ [.call 2 (text "a"), .invoke 2 0],
      Exclusive t e := by
    intro t e he
    refine ⟨?_, ?_⟩
    · rintro c it rfl
      simp [firstCall] at he
    · rintro c it rfl
      simp [firstCall] at he
  obtain ⟨s, hreach, hderef, hphase, hfault⟩ := Machine.exists_reaches_of_run (M := machine 1) (s := connectedPool)
    (P := fun s => (s.connections.deref 0).isSome = true ∧ (s.calls 2).phase = .calling 0 ∧ s.fault = none) _ hquiet
    (by decide +kernel)
  have hclosed : Exclusive s (.result 2 0 RpcState.closed.code) := by
    refine ⟨?_, ?_⟩
    · intro c it heq
      cases heq
    · intro c it heq
      cases heq
      exact hderef
  have hfailed : (machine 1).Reaches Exclusive connectedPool (next s (.result 2 0 RpcState.closed.code)) :=
    hreach.trans (.single hclosed (step_eq_some.2 ⟨⟨hfault, hphase⟩, rfl⟩))
  exact ⟨_, hfailed, by simp [next], connectionsSafe_of_reaches hfailed⟩

/-- The connections are safe for every order of the steps. -/
def AlwaysSafe : Prop :=
  ∀ capacity s, 0 < capacity → (machine capacity).Reaches Machine.any connectedPool s → ConnectionsSafe capacity s

/-- Two calls have come back from one closed connection. -/
theorem not_alwaysSafe : ¬ AlwaysSafe := by
  intro h
  obtain ⟨s, hreach, hfault⟩ := Machine.exists_reaches_of_run (M := machine 1) (s := connectedPool)
    (P := fun s => s.fault = some .danglingIterator)
    (firstCall 1 0 (text "a") (text "127.0.0.1:80") ++
      [.call 2 (text "a"), .call 3 (text "a"), .invoke 2 0, .invoke 3 0, .result 2 0 RpcState.closed.code,
        .result 3 0 RpcState.closed.code, .relock 2 0, .lose, .lookCache 2, .relock 3 0])
    (fun _ _ _ => trivial) (by decide +kernel)
  exact (h 1 s (by decide) hreach).1 hfault

end RpcConnectionPool

end AcidCompute

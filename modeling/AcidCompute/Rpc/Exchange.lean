import AcidCompute.Rpc.Discovery
import AcidCompute.Rpc.PoolCalls

/-!
# Messages between a pool and a registry

At most one call waits for the addresses of a service, and then its request or the answer is on its way, or in its
channel, and no other.  What the registry publishes to the pool is something for which the pool has a callback
(`Discovery.coupled_of_reaches`).
-/

namespace AcidCompute

/-- The service that a request is about. -/
def PoolMessage.service : PoolMessage → Option (List Byte)
  | .discover name => some name
  | .subscribe _ | .publishResponse => none

/-- The service that an answer is about. -/
def RegistryMessage.service : RegistryMessage → Option (List Byte)
  | .discoverResponse service _ => some service
  | .publish _ | .subscribeResponse | .other => none

/-- The key of a subscription. -/
def PoolMessage.key : PoolMessage → Option (List Byte)
  | .subscribe key => some key
  | .discover _ | .publishResponse => none

/-- The key of a publication. -/
def RegistryMessage.key : RegistryMessage → Option (List Byte)
  | .publish p => some p.key
  | .discoverResponse _ _ | .subscribeResponse | .other => none

namespace RpcConnectionPool

/-- The message that the receiver has in hand. -/
def State.inHand (s : State) : List RegistryMessage :=
  match s.receiver with
  | .reading | .replying => []
  | .dispatching m => [m]
  | .pushing c results => [.discoverResponse (s.calls c).name results]
  | .updating name online address => [.publish ⟨serviceSubscribe ++ name, online, address⟩]

/-- Callbacks are kept under the keys of the services that they are for, from before the subscription is sent. -/
structure Subscribing (s : State) : Prop where
  keys : ∀ entry ∈ s.subHandle, entry.1 = serviceSubscribe ++ entry.2
  sent : ∀ c ret, (s.calls c).phase = .subscribed ret →
    (s.subHandle.lookup (serviceSubscribe ++ (s.calls c).name)).isSome = true
  nonempty : ∀ c ret, (s.calls c).phase = .subscribing ret ∨ (s.calls c).phase = .subscribed ret → ret ≠ []

theorem Subscribing.init : Subscribing connectedPool where
  keys entry h := by cases h
  sent c ret h := by simp [connectedPool, Call.fresh] at h
  nonempty c ret h := by simp [connectedPool, Call.fresh] at h

/-- A callback stays. -/
theorem lookup_next {s : State} {e : Event} {key : List Byte} (h : (s.subHandle.lookup key).isSome = true) :
    ((next s e).subHandle.lookup key).isSome = true := by
  cases e with
  | subscribe c ret =>
    cases hlookup : s.subHandle.lookup (serviceSubscribe ++ (s.calls c).name) with
    | some name =>
      simp only [next, hlookup]
      exact h
    | none =>
      simp only [next, hlookup, List.lookup_cons]
      split
      · rfl
      · exact h
  | _ =>
    rw [subHandle_next (by simp)]
    exact h

theorem Subscribing.next {capacity : Nat} {s : State} (h : Subscribing s) {e : Event}
    (henabled : Enabled capacity s e) : Subscribing (next s e) := by
  constructor
  case keys =>
    cases e with
    | subscribe c ret =>
      cases hlookup : s.subHandle.lookup (serviceSubscribe ++ (s.calls c).name) with
      | some name =>
        simp only [RpcConnectionPool.next, hlookup]
        exact h.keys
      | none =>
        simp only [RpcConnectionPool.next, hlookup]
        intro entry hentry
        rcases List.mem_cons.1 hentry with rfl | hold
        · rfl
        · exact h.keys entry hold
    | _ =>
      rw [subHandle_next (by simp)]
      exact h.keys
  case sent =>
    intro c ret hphase
    by_cases hc : e.caller = some c
    · rcases moves_next henabled hc with ⟨hsame, -⟩ | hmoves
      · rw [hsame] at hphase ⊢
        exact lookup_next (h.sent c ret hphase)
      · generalize hnew : (RpcConnectionPool.next s e).calls c = new, (RpcConnectionPool.next s e).holder = holder
          at hphase hmoves ⊢
        cases hmoves with
        | subscribed ret' =>
          cases hlookup : s.subHandle.lookup (serviceSubscribe ++ (s.calls c).name) with
          | some name => simp [RpcConnectionPool.next, hlookup] at hnew
          | none => simp [RpcConnectionPool.next, hlookup]
        | _ => cases hphase
    · rw [(phase_next hc).1] at hphase
      rw [(phase_next hc).2]
      exact lookup_next (h.sent c ret hphase)
  case nonempty =>
    intro c ret hphase
    by_cases hc : e.caller = some c
    · rcases moves_next henabled hc with ⟨hsame, -⟩ | hmoves
      · rw [hsame] at hphase
        exact h.nonempty c ret hphase
      · generalize (RpcConnectionPool.next s e).calls c = new, (RpcConnectionPool.next s e).holder = holder
          at hphase hmoves
        cases hmoves with
        | subscribing it results ret' hret hne =>
          cases hphase.resolve_right Phase.noConfusion
          exact hne
        | subscribed ret' hold =>
          cases hphase.resolve_left Phase.noConfusion
          exact h.nonempty c ret (.inl hold)
        | _ => rcases hphase with hphase | hphase <;> cases hphase
    · rw [(phase_next hc).1] at hphase
      exact h.nonempty c ret hphase

/-- The pool stays connected until the connection ends. -/
theorem connected_next {s : State} {e : Event} (hlose : e ≠ .lose) : (next s e).connected = s.connected := by
  cases e with
  | lose => exact absurd rfl hlose
  | _ =>
    simp only [next]
    repeat' split
    all_goals rfl

theorem calls_own {s : State} {e : Event} {c d : Nat} (hc : e.caller = some c) (hne : d ≠ c) :
    (next s e).calls d = s.calls d := by
  refine calls_next (by simpa [hc] using Ne.symm hne) ?_
  rintro results rfl
  cases hc

/-- Requests are made in two steps of a call. -/
theorem channel_next {s : State} {e : Event} {c : Nat} (hc : e.caller = some c)
    (hrequest : ∀ c it, e ≠ .request c it) (hsubscribe : ∀ c ret, e ≠ .requestSubscribe c ret) :
    (next s e).channel = s.channel := by
  cases e with
  | receive | dispatch | push | update | reply | transmit | lose => cases hc
  | request c it => exact absurd rfl (hrequest c it)
  | requestSubscribe c ret => exact absurd rfl (hsubscribe c ret)
  | _ =>
    simp only [next]
    repeat' split
    all_goals rfl

end RpcConnectionPool

namespace Discovery

open RpcConnectionPool (Held Opened Phase Subscribing)

/-- What is on its way to the pool. -/
def State.incoming (s : State) : List RegistryMessage := s.pool.inHand ++ s.down ++ s.answer.toList

/-- What is on its way to the registry. -/
def State.outgoing (s : State) : List PoolMessage := s.up ++ s.pool.channel

/-- The services that are asked for or answered. -/
def State.exchange (s : State) : List (List Byte) :=
  s.incoming.filterMap RegistryMessage.service ++ s.outgoing.filterMap PoolMessage.service

/-- Iterators, in the table and in front of sessions, are of entries with their address. -/
structure Owning (services : RpcServiceRegistry.Services) (providers : Nat → Provider) : Prop where
  owned : services.Owned
  cleanup : ∀ p address its, (providers p).cleanup = some (address, its) → services.Of address its

namespace Owning

variable {services : RpcServiceRegistry.Services} {providers : Nat → Provider}

theorem update (h : Owning services providers) {p : Nat} {provider : Provider}
    (hnew : ∀ address its, provider.cleanup = some (address, its) → services.Of address its) :
    Owning services (Function.update providers p provider) := by
  refine ⟨h.owned, ?_⟩
  intro q address its hq
  by_cases heq : q = p
  · subst heq
    rw [Function.update_self] at hq
    exact hnew address its hq
  · rw [Function.update_of_ne heq] at hq
    exact h.cleanup q address its hq

/-- A session in another phase may have the same iterators in front of it. -/
theorem update_same (h : Owning services providers) {p : Nat} (provider : Provider)
    (hsame : provider.cleanup = (providers p).cleanup) : Owning services (Function.update providers p provider) :=
  h.update fun address its hits => h.cleanup p address its (hsame.symm.trans hits)

theorem register (h : Owning services providers) (name address : List Byte) :
    Owning (services.register name address) providers where
  owned := h.owned.register name address
  cleanup p a its hp := (h.cleanup p a its hp).register name address

theorem eraseService (h : Owning services providers) {services' : RpcServiceRegistry.Services} {i : Nat}
    (herase : services.eraseService i = some services') : Owning services' providers where
  owned := h.owned.eraseService herase
  cleanup p a its hp := (h.cleanup p a its hp).eraseService herase

theorem eraseIters (h : Owning services providers) (address : List Byte) :
    Owning (services.eraseIters address) providers where
  owned := h.owned.eraseIters address
  cleanup := h.cleanup

end Owning

/-- The pool has a callback for a key. -/
def State.Handled (s : State) (key : List Byte) : Prop := (s.pool.subHandle.lookup key).isSome = true

structure Coupled (s : State) : Prop where
  held : Held s.pool
  opened : s.pool.fault = none → Opened s.pool
  subscribing : Subscribing s.pool
  owning : Owning s.services s.providers
  connected : s.pool.connected = true
  pushing : ∀ c results, s.pool.receiver = .pushing c results → ∃ it, (s.pool.calls c).phase = .waiting it
  queue : ∀ c, (∀ it, (s.pool.calls c).phase ≠ .waiting it) → (s.pool.calls c).queue = []
  waiting : ∀ c it, (s.pool.calls c).phase = .waiting it →
    (s.pool.calls c).queue.length + s.exchange.length = 1 ∧ ∀ name ∈ s.exchange, name = (s.pool.calls c).name
  exchange : s.exchange ≠ [] → ∃ c it, (s.pool.calls c).phase = .waiting it
  subscribed : ∀ key, (key, 0) ∈ s.registry.subscribes → s.Handled key
  published : ∀ key ∈ s.incoming.filterMap RegistryMessage.key, s.Handled key
  requested : ∀ key ∈ s.outgoing.filterMap PoolMessage.key, s.Handled key
  unkeyed : ∀ m, s.answer = some m → m.key = none

theorem Coupled.init : Coupled initial where
  held := .init
  opened _ := .init
  subscribing := .init
  owning := ⟨.empty, fun p address its h => by cases h⟩
  connected := rfl
  pushing c results h := by cases h
  queue c _ := rfl
  waiting c it h := by simp [initial, RpcConnectionPool.connectedPool, RpcConnectionPool.Call.fresh] at h
  exchange h := absurd rfl h
  subscribed key h := by cases h
  published key h := by cases h
  requested key h := by cases h
  unkeyed m h := by cases h

/-! ### Steps of calls -/

section

variable {capacity : Nat} {s : State} {e : RpcConnectionPool.Event} {c : Nat}

theorem Coupled.incoming_own [Host] (h : Coupled s) (hc : e.caller = some c)
    (hname : ((RpcConnectionPool.next s.pool e).calls c).name = (s.pool.calls c).name ∨
      ∀ it, (s.pool.calls c).phase ≠ .waiting it) : (next s (.pool e)).incoming = s.incoming := by
  have hinHand : (RpcConnectionPool.next s.pool e).inHand = s.pool.inHand := by
    unfold RpcConnectionPool.State.inHand
    rw [RpcConnectionPool.receiver_next hc]
    cases hpushing : s.pool.receiver with
    | pushing d results =>
      obtain ⟨it, hphase⟩ := h.pushing d results hpushing
      by_cases heq : d = c
      · subst heq
        simp only [hname.resolve_right fun hnot => hnot it hphase]
      · simp only [RpcConnectionPool.calls_own hc heq]
    | _ => rfl
  show (RpcConnectionPool.next s.pool e).inHand ++ s.down ++ s.answer.toList = _
  rw [hinHand]
  rfl

/-- While a call has the mutex, and does not wait, no service is asked for. -/
theorem Coupled.exchange_nil (h : Coupled s) (hholds : (s.pool.calls c).phase.holds = true)
    (hnot : ∀ it, (s.pool.calls c).phase ≠ .waiting it) : s.exchange = [] := by
  by_contra hne
  obtain ⟨d, it, hphase⟩ := h.exchange hne
  rw [h.held.unique hholds (Phase.holds_of_waiting hphase)] at hphase
  exact hnot it hphase

/-- While nobody has the mutex, no service is asked for. -/
theorem Coupled.exchange_nil_of_free (h : Coupled s) (hfree : s.pool.holder = none) : s.exchange = [] := by
  by_contra hne
  obtain ⟨d, it, hphase⟩ := h.exchange hne
  have hd := (h.held d).1 (Phase.holds_of_waiting hphase)
  rw [hfree] at hd
  cases hd

/-- The tables of the pool go on to fit its calls. -/
theorem Coupled.tables (h : Coupled s) (hfault : s.pool.fault = none)
    (hpool : RpcConnectionPool.Enabled capacity s.pool e) :
    Held (RpcConnectionPool.next s.pool e) ∧
      ((RpcConnectionPool.next s.pool e).fault = none → Opened (RpcConnectionPool.next s.pool e)) ∧
      Subscribing (RpcConnectionPool.next s.pool e) :=
  ⟨h.held.next hpool, fun hnext => (h.opened hfault).next h.held hfault hpool hnext, h.subscribing.next hpool⟩

/-- A step of the pool is all right if the calls that wait and the messages go together behind it. -/
theorem Coupled.pool_step [Host] (h : Coupled s) (henabled : Enabled capacity s (.pool e)) {s' : State}
    (hs' : next s (.pool e) = s')
    (hpushing : ∀ d results, s'.pool.receiver = .pushing d results → ∃ it, (s'.pool.calls d).phase = .waiting it)
    (hqueue : ∀ d, (∀ it, (s'.pool.calls d).phase ≠ .waiting it) → (s'.pool.calls d).queue = [])
    (hwaiting : ∀ d it, (s'.pool.calls d).phase = .waiting it →
      (s'.pool.calls d).queue.length + s'.exchange.length = 1 ∧ ∀ name ∈ s'.exchange, name = (s'.pool.calls d).name)
    (hexchange : s'.exchange ≠ [] → ∃ d it, (s'.pool.calls d).phase = .waiting it)
    (hpublished : ∀ key ∈ s'.incoming.filterMap RegistryMessage.key, s.Handled key)
    (hrequested : ∀ key ∈ s'.outgoing.filterMap PoolMessage.key, s.Handled key) : Coupled s' := by
  obtain ⟨hfault, hpool, hown⟩ := henabled
  obtain ⟨hheld, hopened, hsubscribing⟩ := h.tables hfault hpool
  have hlose : e ≠ .lose := by
    rintro rfl
    cases hown
  have hconnected := RpcConnectionPool.connected_next (s := s.pool) hlose
  have hhandled : ∀ key, s.Handled key → s'.Handled key := by
    subst hs'
    exact fun key => RpcConnectionPool.lookup_next
  subst hs'
  exact {
    held := hheld
    opened := hopened
    subscribing := hsubscribing
    owning := h.owning
    connected := hconnected.trans h.connected
    pushing := hpushing
    queue := hqueue
    waiting := hwaiting
    exchange := hexchange
    subscribed := fun key hin => hhandled key (h.subscribed key hin)
    published := fun key hin => hhandled key (hpublished key hin)
    requested := fun key hin => hhandled key (hrequested key hin)
    unkeyed := h.unkeyed }

/-- A call that is not waiting has nothing in its channel, and what it sends is for the callbacks that exist. -/
theorem Coupled.own [Host] (h : Coupled s) (henabled : Enabled capacity s (.pool e)) (hc : e.caller = some c)
    (hbefore : ∀ it, (s.pool.calls c).phase ≠ .waiting it)
    (hafter : ∀ it, ((RpcConnectionPool.next s.pool e).calls c).phase ≠ .waiting it)
    (hqueue : ((RpcConnectionPool.next s.pool e).calls c).queue = []) {sent : List PoolMessage}
    (hchannel : (RpcConnectionPool.next s.pool e).channel = s.pool.channel ++ sent)
    (hservice : sent.filterMap PoolMessage.service = [])
    (hkeys : ∀ key ∈ sent.filterMap PoolMessage.key, s.Handled key) : Coupled (next s (.pool e)) := by
  have hreceiver := RpcConnectionPool.receiver_next (s := s.pool) hc
  have hother : ∀ d, d ≠ c → (RpcConnectionPool.next s.pool e).calls d = s.pool.calls d := fun d =>
    RpcConnectionPool.calls_own hc
  have hwaiting : ∀ d it, ((RpcConnectionPool.next s.pool e).calls d).phase = .waiting it ↔
      (s.pool.calls d).phase = .waiting it := by
    intro d it
    by_cases heq : d = c
    · rw [heq]
      exact iff_of_false (hafter it) (hbefore it)
    · rw [hother d heq]
  have hincoming := h.incoming_own hc (.inr hbefore)
  have houtgoing : (next s (.pool e)).outgoing = s.outgoing ++ sent := by
    show s.up ++ (RpcConnectionPool.next s.pool e).channel = _
    rw [hchannel, ← List.append_assoc]
    rfl
  have hexchange : (next s (.pool e)).exchange = s.exchange := by
    unfold State.exchange
    rw [hincoming, houtgoing, List.filterMap_append, hservice, List.append_nil]
  refine h.pool_step henabled rfl ?pushing ?queue ?waiting ?exchange ?published ?requested
  case pushing =>
    intro d results hpushing
    obtain ⟨it, hphase⟩ := h.pushing d results (hreceiver.symm.trans hpushing)
    exact ⟨it, (hwaiting d it).2 hphase⟩
  case queue =>
    intro d hnot
    by_cases heq : d = c
    · rw [heq]
      exact hqueue
    · show ((RpcConnectionPool.next s.pool e).calls d).queue = []
      rw [hother d heq]
      exact h.queue d fun it hphase => hnot it ((hwaiting d it).2 hphase)
  case waiting =>
    intro d it hphase
    have hne : d ≠ c := by
      rintro rfl
      exact hafter it hphase
    rw [hexchange]
    show ((RpcConnectionPool.next s.pool e).calls d).queue.length + _ = 1 ∧
      ∀ name ∈ s.exchange, name = ((RpcConnectionPool.next s.pool e).calls d).name
    rw [hother d hne]
    exact h.waiting d it ((hwaiting d it).1 hphase)
  case exchange =>
    rw [hexchange]
    intro hne
    obtain ⟨d, it, hphase⟩ := h.exchange hne
    exact ⟨d, it, (hwaiting d it).2 hphase⟩
  case published =>
    rw [hincoming]
    exact h.published
  case requested =>
    intro key hin
    rw [houtgoing, List.filterMap_append, List.mem_append] at hin
    exact hin.elim (h.requested key) (hkeys key)

/-- A call goes on to wait, and its request is the only message about a service. -/
theorem Coupled.request [Host] (h : Coupled s) {it : Nat} (henabled : Enabled capacity s (.pool (.request c it))) :
    Coupled (next s (.pool (.request c it))) := by
  have hphase : (s.pool.calls c).phase = .requesting it := henabled.2.1.1
  have hnot : ∀ it, (s.pool.calls c).phase ≠ .waiting it := by simp [hphase]
  have hholds : (s.pool.calls c).phase.holds = true := by simp [hphase, Phase.holds]
  have hnone := h.exchange_nil hholds hnot
  have halone : ∀ d it, d ≠ c → (s.pool.calls d).phase ≠ .waiting it :=
    fun d it hne hd => hne (h.held.unique hholds (Phase.holds_of_waiting hd))
  have hcalls : ∀ d, (next s (.pool (.request c it))).pool.calls d =
      if d = c then { s.pool.calls c with phase := .waiting it } else s.pool.calls d := by
    intro d
    simp [next, RpcConnectionPool.next]
  have hincoming := h.incoming_own (e := .request c it) rfl (.inr hnot)
  have houtgoing : (next s (.pool (.request c it))).outgoing = s.outgoing ++ [.discover (s.pool.calls c).name] := by
    show s.up ++ (s.pool.channel ++ [PoolMessage.discover (s.pool.calls c).name]) = _
    rw [← List.append_assoc]
    rfl
  have hexchange : (next s (.pool (.request c it))).exchange = [(s.pool.calls c).name] := by
    have hboth : s.incoming.filterMap RegistryMessage.service ++ s.outgoing.filterMap PoolMessage.service = [] := hnone
    unfold State.exchange
    rw [hincoming, houtgoing, List.filterMap_append, ← List.append_assoc, hboth]
    rfl
  refine h.pool_step henabled rfl ?pushing ?queue ?waiting ?exchange ?published ?requested
  case pushing =>
    intro d results hpushing
    obtain ⟨it', hd⟩ := h.pushing d results hpushing
    by_cases heq : d = c
    · exact absurd (heq ▸ hd) (hnot it')
    · exact absurd hd (halone d it' heq)
  case queue =>
    intro d hd
    rw [hcalls] at hd ⊢
    by_cases heq : d = c
    · rw [if_pos heq] at hd
      exact absurd rfl (hd it)
    · rw [if_neg heq] at hd ⊢
      exact h.queue d hd
  case waiting =>
    intro d it' hd
    rw [hcalls] at hd
    by_cases heq : d = c
    · rw [hexchange, hcalls, if_pos heq]
      simp [h.queue c hnot]
    · rw [if_neg heq] at hd
      exact absurd hd (halone d it' heq)
  case exchange =>
    intro _
    exact ⟨c, it, by simp [hcalls]⟩
  case published =>
    rw [hincoming]
    exact h.published
  case requested =>
    intro key hin
    rw [houtgoing, List.filterMap_append, List.mem_append] at hin
    rcases hin with hold | hnew
    · exact h.requested key hold
    · cases hnew

/-- The answer has been the only message about a service. -/
theorem Coupled.takeResponse [Host] (h : Coupled s) {it : Nat} {results : List (BitVec 16 × List Byte)}
    (henabled : Enabled capacity s (.pool (.takeResponse c it results))) :
    (s.pool.calls c).queue = [results] ∧ Coupled (next s (.pool (.takeResponse c it results))) := by
  obtain ⟨hphase, hhead⟩ : (s.pool.calls c).phase = .waiting it ∧ (s.pool.calls c).queue.head? = some results :=
    henabled.2.1
  have hone := (h.waiting c it hphase).1
  obtain ⟨rest, hqueue⟩ : ∃ rest, (s.pool.calls c).queue = results :: rest := List.head?_eq_some_iff.1 hhead
  rw [hqueue, List.length_cons] at hone
  have hrest : rest = [] := List.length_eq_zero_iff.1 (by omega)
  have hnone : s.exchange = [] := List.length_eq_zero_iff.1 (by omega)
  rw [hrest] at hqueue
  refine ⟨hqueue, ?_⟩
  have hcalls : ∀ d, (next s (.pool (.takeResponse c it results))).pool.calls d =
      if d = c then { s.pool.calls c with phase := .received it results, queue := [] } else s.pool.calls d := by
    intro d
    simp [next, RpcConnectionPool.next, hqueue]
  have hincoming := h.incoming_own (e := .takeResponse c it results) rfl (.inl (by simp [RpcConnectionPool.next]))
  have hexchange : (next s (.pool (.takeResponse c it results))).exchange = [] := by
    rw [← hnone]
    unfold State.exchange
    rw [hincoming]
    rfl
  have hpushing : ∀ d results', s.pool.receiver ≠ .pushing d results' := by
    intro d results' hpushing
    have hin : (s.pool.calls d).name ∈ s.exchange := by
      simp [State.exchange, State.incoming, RpcConnectionPool.State.inHand, hpushing, RegistryMessage.service]
    rw [hnone] at hin
    cases hin
  refine h.pool_step henabled rfl ?pushing ?queue ?waiting ?exchange ?published ?requested
  case pushing =>
    intro d results' hd
    exact absurd hd (hpushing d results')
  case queue =>
    intro d hd
    rw [hcalls] at hd ⊢
    by_cases heq : d = c
    · rw [if_pos heq]
    · rw [if_neg heq] at hd ⊢
      exact h.queue d hd
  case waiting =>
    intro d it' hd
    rw [hcalls] at hd
    by_cases heq : d = c
    · rw [if_pos heq] at hd
      cases hd
    · rw [if_neg heq] at hd
      exact absurd (h.held.unique (Phase.holds_of_waiting hphase) (Phase.holds_of_waiting hd)) heq
  case exchange =>
    intro hne
    exact absurd hexchange hne
  case published =>
    rw [hincoming]
    exact h.published
  case requested => exact h.requested

/-- The phases of a call around a step that neither asks for a service nor takes an answer. -/
theorem phase_own (hpool : RpcConnectionPool.Enabled capacity s.pool e) (hc : e.caller = some c)
    (hrequest : ∀ c it, e ≠ .request c it) (htake : ∀ c it results, e ≠ .takeResponse c it results) :
    (∀ it, (s.pool.calls c).phase ≠ .waiting it) ∧
    (∀ it, ((RpcConnectionPool.next s.pool e).calls c).phase ≠ .waiting it) ∧
    (((RpcConnectionPool.next s.pool e).calls c).queue = (s.pool.calls c).queue ∨
      ((RpcConnectionPool.next s.pool e).calls c).queue = []) := by
  have hbefore : ∀ it, (s.pool.calls c).phase ≠ .waiting it := by
    intro it hphase
    cases e with
    | takeResponse c it results => exact absurd rfl (htake c it results)
    | receive | dispatch | push | update | reply | transmit | lose => cases hc
    | _ =>
      cases hc
      simp [RpcConnectionPool.Enabled, hphase] at hpool
  rcases RpcConnectionPool.moves_next hpool hc with ⟨hsame, -⟩ | hmoves
  · rw [hsame]
    exact ⟨hbefore, hbefore, .inl rfl⟩
  · refine ⟨hbefore, ?_⟩
    generalize (RpcConnectionPool.next s.pool e).calls c = new, (RpcConnectionPool.next s.pool e).holder = holder
      at hmoves ⊢
    cases hmoves with
    | waiting it => exact absurd rfl (hrequest c it)
    | received it results => exact absurd rfl (htake c it results)
    | found | locked => exact ⟨fun it => Phase.noConfusion, .inr rfl⟩
    | _ => exact ⟨fun it => Phase.noConfusion, .inl rfl⟩

theorem Coupled.call_step [Host] (h : Coupled s) (henabled : Enabled capacity s (.pool e)) (hc : e.caller = some c) :
    Coupled (next s (.pool e)) := by
  by_cases hrequest : ∃ c it, e = .request c it
  · obtain ⟨c, it, rfl⟩ := hrequest
    exact h.request henabled
  by_cases htake : ∃ c it results, e = .takeResponse c it results
  · obtain ⟨c, it, results, rfl⟩ := htake
    exact (h.takeResponse henabled).2
  obtain ⟨hbefore, hafter, hqueue⟩ := phase_own henabled.2.1 hc (fun c it heq => hrequest ⟨c, it, heq⟩)
    (fun c it results heq => htake ⟨c, it, results, heq⟩)
  rw [h.queue c hbefore, or_self] at hqueue
  by_cases hsubscribe : ∃ c ret, e = .requestSubscribe c ret
  · obtain ⟨c', ret, rfl⟩ := hsubscribe
    cases hc
    refine h.own henabled rfl hbefore hafter hqueue rfl rfl ?_
    intro key hkey
    cases List.mem_singleton.1 hkey
    exact h.subscribing.sent c ret henabled.2.1.1
  · have hchannel := RpcConnectionPool.channel_next (s := s.pool) hc (fun c it heq => hrequest ⟨c, it, heq⟩)
      (fun c ret heq => hsubscribe ⟨c, ret, heq⟩)
    exact h.own henabled hc hbefore hafter hqueue (hchannel.trans (List.append_nil _).symm) rfl
      (fun key hkey => by cases hkey)

end

/-! ### Steps of the receiver and of the registry -/

/-- What a step of the receiver or of a session leaves of the calls, and what it makes of the messages. -/
theorem Coupled.pass {s s' : State} (h : Coupled s)
    (htables : Held s'.pool ∧ (s'.pool.fault = none → Opened s'.pool) ∧ Subscribing s'.pool)
    (howning : Owning s'.services s'.providers)
    (hcalls : s'.pool.calls = s.pool.calls) (hhandle : s'.pool.subHandle = s.pool.subHandle)
    (hconnected : s'.pool.connected = s.pool.connected)
    (hpushing : ∀ c results, s'.pool.receiver = .pushing c results → ∃ it, (s.pool.calls c).phase = .waiting it)
    (hexchange : s'.exchange = s.exchange)
    (hsubscribed : ∀ key, (key, 0) ∈ s'.registry.subscribes → s.Handled key)
    (hpublished : ∀ key ∈ s'.incoming.filterMap RegistryMessage.key, s.Handled key)
    (hrequested : ∀ key ∈ s'.outgoing.filterMap PoolMessage.key, s.Handled key)
    (hanswer : ∀ m, s'.answer = some m → m.key = none) : Coupled s' := by
  have hhandled : ∀ key, s'.Handled key ↔ s.Handled key := by
    intro key
    unfold State.Handled
    rw [hhandle]
  constructor
  case held => exact htables.1
  case opened => exact htables.2.1
  case subscribing => exact htables.2.2
  case owning => exact howning
  case connected => exact hconnected.trans h.connected
  case pushing => rw [hcalls]; exact hpushing
  case queue => rw [hcalls]; exact h.queue
  case waiting => rw [hcalls, hexchange]; exact h.waiting
  case exchange => rw [hcalls, hexchange]; exact h.exchange
  case subscribed => exact fun key hin => (hhandled key).2 (hsubscribed key hin)
  case published => exact fun key hin => (hhandled key).2 (hpublished key hin)
  case requested => exact fun key hin => (hhandled key).2 (hrequested key hin)
  case unkeyed => exact hanswer

section

variable [Host] {capacity : Nat} {s : State}

/-- An answer finds the call that waits for it, a publication finds a callback, and other messages say nothing. -/
theorem Coupled.dispatch_incoming (h : Coupled s) {m : RegistryMessage}
    (henabled : Enabled capacity s (.pool (.dispatch m))) :
    (∃ dropped, s.incoming = dropped ++ (next s (.pool (.dispatch m))).incoming ∧
      ∀ x ∈ dropped, x.service = none ∧ x.key = none) ∧
    ∀ c results, (next s (.pool (.dispatch m))).pool.receiver = .pushing c results →
      ∃ it, (s.pool.calls c).phase = .waiting it := by
  obtain ⟨hfault, hpool, -⟩ := henabled
  have hreceiver : s.pool.receiver = .dispatching m := hpool
  have hinHand : s.incoming = m :: (s.down ++ s.answer.toList) := by
    simp [State.incoming, RpcConnectionPool.State.inHand, hreceiver]
  cases m with
  | discoverResponse service results =>
    have hin : service ∈ s.exchange := by simp [State.exchange, hinHand, RegistryMessage.service]
    obtain ⟨c, it, hphase⟩ := h.exchange (List.ne_nil_of_mem hin)
    have hname := (h.waiting c it hphase).2 service hin
    have hhandle : (s.pool.calls c).phase.handle = some it := by simp [hphase, Phase.handle]
    have hentry := (h.opened hfault).mem hhandle
    have hfind := NodeMap.find_of_mem hentry
    rw [← hname] at hfind
    have hnext : (next s (.pool (.dispatch (.discoverResponse service results)))).pool =
        { s.pool with receiver := .pushing c results } := by
      simp only [next, RpcConnectionPool.next, hfind]
    refine ⟨⟨[], ?_, by simp⟩, ?_⟩
    · unfold State.incoming
      rw [hnext]
      simp [RpcConnectionPool.State.inHand, hreceiver, hname, next]
    · rw [hnext]
      intro d results' heq
      cases heq
      exact ⟨it, hphase⟩
  | publish p =>
    have hkey : p.key ∈ s.incoming.filterMap RegistryMessage.key := by simp [hinHand, RegistryMessage.key]
    obtain ⟨name, hlookup⟩ := Option.isSome_iff_exists.1 (h.published p.key hkey)
    obtain ⟨before, behind, hentries, -⟩ := List.lookup_eq_some_iff.1 hlookup
    have hname : p.key = serviceSubscribe ++ name :=
      h.subscribing.keys (p.key, name) (by rw [hentries]; simp)
    have hnext : (next s (.pool (.dispatch (.publish p)))).pool =
        { s.pool with receiver := .updating name p.online p.address } := by
      simp only [next, RpcConnectionPool.next, hlookup]
    refine ⟨⟨[], ?_, by simp⟩, ?_⟩
    · unfold State.incoming
      rw [hnext]
      simp [RpcConnectionPool.State.inHand, hreceiver, ← hname, next]
    · rw [hnext]
      intro d results' heq
      cases heq
  | subscribeResponse | other =>
    refine ⟨⟨[_], hinHand, ?_⟩, ?_⟩
    · intro x hx
      cases List.mem_singleton.1 hx
      exact ⟨rfl, rfl⟩
    · intro d results' heq
      cases heq

theorem Coupled.dispatch (h : Coupled s) {m : RegistryMessage}
    (henabled : Enabled capacity s (.pool (.dispatch m))) : Coupled (next s (.pool (.dispatch m))) := by
  obtain ⟨⟨dropped, hincoming, hdropped⟩, hpushing⟩ := h.dispatch_incoming henabled
  obtain ⟨hfault, hpool, -⟩ := henabled
  have hservice : dropped.filterMap RegistryMessage.service = [] :=
    List.filterMap_eq_nil_iff.2 fun x hx => (hdropped x hx).1
  have hkey : dropped.filterMap RegistryMessage.key = [] :=
    List.filterMap_eq_nil_iff.2 fun x hx => (hdropped x hx).2
  have hkept : (next s (.pool (.dispatch m))).pool.calls = s.pool.calls ∧
      (next s (.pool (.dispatch m))).pool.subHandle = s.pool.subHandle ∧
      (next s (.pool (.dispatch m))).pool.connected = s.pool.connected ∧
      (next s (.pool (.dispatch m))).pool.channel = s.pool.channel := by
    simp only [next, RpcConnectionPool.next]
    repeat' split
    all_goals exact ⟨rfl, rfl, rfl, rfl⟩
  obtain ⟨hcalls, hhandle, hconnected, hchannel⟩ := hkept
  have houtgoing : (next s (.pool (.dispatch m))).outgoing = s.outgoing := by
    unfold State.outgoing
    rw [hchannel]
    rfl
  refine h.pass (h.tables hfault hpool) h.owning hcalls hhandle hconnected hpushing ?_ h.subscribed ?_ ?_
    h.unkeyed
  · unfold State.exchange
    rw [hincoming, List.filterMap_append, hservice, houtgoing]
    rfl
  · intro key hin
    refine h.published key ?_
    rw [hincoming, List.filterMap_append, hkey]
    exact hin
  · rw [houtgoing]
    exact h.requested

/-- The answer comes into the channel of the call that waits for it. -/
theorem Coupled.push (h : Coupled s) {c : Nat} {results : List (BitVec 16 × List Byte)}
    (henabled : Enabled capacity s (.pool (.push c results))) : Coupled (next s (.pool (.push c results))) := by
  obtain ⟨-, hpool, -⟩ := id henabled
  have hreceiver : s.pool.receiver = .pushing c results := hpool.1
  obtain ⟨it, hphase⟩ := h.pushing c results hreceiver
  have hqueue : (s.pool.calls c).queue = [] := List.length_eq_zero_iff.1 (Nat.lt_one_iff.1 hpool.2)
  have hcalls : ∀ d, (next s (.pool (.push c results))).pool.calls d =
      if d = c then { s.pool.calls c with queue := [results] } else s.pool.calls d := by
    intro d
    simp [next, RpcConnectionPool.next, hqueue]
  have hwaiting : ∀ d, ((next s (.pool (.push c results))).pool.calls d).phase = (s.pool.calls d).phase := by
    intro d
    rw [hcalls]
    by_cases heq : d = c
    · rw [if_pos heq, heq]
    · rw [if_neg heq]
  have hincoming : s.incoming =
      .discoverResponse (s.pool.calls c).name results :: (next s (.pool (.push c results))).incoming := by
    simp [State.incoming, RpcConnectionPool.State.inHand, hreceiver, next, RpcConnectionPool.next]
  have hexchange : s.exchange = (s.pool.calls c).name :: (next s (.pool (.push c results))).exchange := by
    unfold State.exchange
    rw [hincoming]
    rfl
  have hnone : (next s (.pool (.push c results))).exchange = [] := by
    have hone := (h.waiting c it hphase).1
    rw [hexchange, List.length_cons] at hone
    exact List.length_eq_zero_iff.1 (by omega)
  refine h.pool_step henabled rfl ?pushing ?queue ?waiting ?exchange ?published ?requested
  case pushing =>
    intro d results' hd
    cases hd
  case queue =>
    intro d hd
    have hne : d ≠ c := by
      rintro rfl
      exact hd it ((hwaiting d).trans hphase)
    rw [hcalls, if_neg hne]
    exact h.queue d fun it' hd' => hd it' ((hwaiting d).trans hd')
  case waiting =>
    intro d it' hd
    rw [hwaiting] at hd
    have heq : d = c := h.held.unique (Phase.holds_of_waiting hphase) (Phase.holds_of_waiting hd)
    rw [hnone, hcalls, if_pos heq]
    simp
  case exchange =>
    intro hne
    exact absurd hnone hne
  case published =>
    intro key hin
    refine h.published key ?_
    rw [hincoming]
    exact hin
  case requested => exact h.requested

theorem Coupled.update (h : Coupled s) {name address : List Byte} {online : Bool}
    (henabled : Enabled capacity s (.pool (.update name online address))) :
    s.incoming = .publish ⟨serviceSubscribe ++ name, online, address⟩ ::
        (next s (.pool (.update name online address))).incoming ∧
      Coupled (next s (.pool (.update name online address))) := by
  obtain ⟨hfault, hpool, -⟩ := henabled
  have hreceiver : s.pool.receiver = .updating name online address := hpool.1
  have hincoming : s.incoming = .publish ⟨serviceSubscribe ++ name, online, address⟩ ::
      (next s (.pool (.update name online address))).incoming := by
    simp [State.incoming, RpcConnectionPool.State.inHand, hreceiver, next, RpcConnectionPool.next]
  refine ⟨hincoming, h.pass (h.tables hfault hpool) h.owning rfl rfl rfl ?_ ?_ h.subscribed ?_
    h.requested h.unkeyed⟩
  · intro c results heq
    cases heq
  · unfold State.exchange
    rw [hincoming]
    rfl
  · intro key hin
    refine h.published key ?_
    rw [hincoming]
    exact List.mem_cons_of_mem _ hin

theorem Coupled.reply (h : Coupled s) (henabled : Enabled capacity s (.pool .reply)) :
    Coupled (next s (.pool .reply)) := by
  obtain ⟨hfault, hpool, -⟩ := henabled
  have hincoming : (next s (.pool .reply)).incoming = s.incoming := by
    simp [State.incoming, RpcConnectionPool.State.inHand, hpool.1, next, RpcConnectionPool.next]
  have houtgoing : (next s (.pool .reply)).outgoing = s.outgoing ++ [.publishResponse] := by
    show s.up ++ (s.pool.channel ++ [PoolMessage.publishResponse]) = _
    rw [← List.append_assoc]
    rfl
  refine h.pass (h.tables hfault hpool) h.owning rfl rfl rfl ?_ ?_ h.subscribed ?_ ?_ h.unkeyed
  · intro c results heq
    cases heq
  · unfold State.exchange
    rw [hincoming, houtgoing, List.filterMap_append]
    simp [PoolMessage.service]
  · rw [hincoming]
    exact h.published
  · rw [houtgoing, List.filterMap_append]
    simpa [PoolMessage.key] using h.requested

/-- A message comes to the other side. -/
theorem Coupled.transmit (h : Coupled s) {m : PoolMessage} (henabled : Enabled capacity s (.transmit m)) :
    Coupled (next s (.transmit m)) := by
  obtain ⟨hfault, hpool⟩ := henabled
  obtain ⟨rest, hchannel⟩ : ∃ rest, s.pool.channel = m :: rest := List.head?_eq_some_iff.1 hpool
  have houtgoing : (next s (.transmit m)).outgoing = s.outgoing := by
    simp [State.outgoing, next, RpcConnectionPool.next, hchannel]
  refine h.pass (h.tables hfault hpool) h.owning rfl rfl rfl h.pushing ?_ h.subscribed h.published ?_ h.unkeyed
  · unfold State.exchange
    rw [houtgoing]
    rfl
  · rw [houtgoing]
    exact h.requested

theorem incoming_receive {m : RegistryMessage} (henabled : Enabled capacity s (.receive m)) :
    (next s (.receive m)).incoming = s.incoming := by
  obtain ⟨-, hpool, hhead⟩ := henabled
  obtain ⟨rest, hdown⟩ := List.head?_eq_some_iff.1 hhead
  have hreceiver : s.pool.receiver = .reading := hpool.1
  simp [State.incoming, RpcConnectionPool.State.inHand, next, RpcConnectionPool.next, hreceiver, hdown]

theorem Coupled.receive (h : Coupled s) {m : RegistryMessage} (henabled : Enabled capacity s (.receive m)) :
    Coupled (next s (.receive m)) := by
  have hincoming := incoming_receive henabled
  obtain ⟨hfault, hpool, -⟩ := henabled
  refine h.pass (h.tables hfault hpool) h.owning rfl rfl rfl ?_ ?_ h.subscribed ?_ h.requested h.unkeyed
  · intro c results heq
    cases heq
  · unfold State.exchange
    rw [hincoming]
    rfl
  · rw [hincoming]
    exact h.published

theorem incoming_answer {m : RegistryMessage} (henabled : Enabled capacity s (.answer m)) :
    (next s (.answer m)).incoming = s.incoming := by
  have hanswer : s.answer = some m := henabled
  simp [State.incoming, next, hanswer]

theorem Coupled.answer (h : Coupled s) {m : RegistryMessage} (henabled : Enabled capacity s (.answer m)) :
    Coupled (next s (.answer m)) := by
  have hincoming := incoming_answer henabled
  refine h.pass ⟨h.held, h.opened, h.subscribing⟩ h.owning rfl rfl rfl h.pushing ?_ h.subscribed ?_ h.requested
    (fun m hm => by cases hm)
  · unfold State.exchange
    rw [hincoming]
    rfl
  · rw [hincoming]
    exact h.published

omit [Host] in
theorem mem_subscribe {registry : RpcServiceRegistry} {key key' : List Byte} {c c' : Nat}
    (h : (key', c') ∈ (registry.subscribe key c).subscribes) : (key', c') ∈ registry.subscribes ∨ key' = key := by
  by_cases hknown : (registry.subscribes.lookup key).isSome = true
  · rw [RpcServiceRegistry.subscribe, if_pos hknown] at h
    exact .inl h
  · rw [RpcServiceRegistry.subscribe, if_neg hknown] at h
    rcases List.mem_append.1 h with hold | hnew
    · exact .inl hold
    · cases List.mem_singleton.1 hnew
      exact .inr rfl

/-- The answer to a request. -/
def answerTo (services : RpcServiceRegistry.Services) : PoolMessage → List RegistryMessage
  | .discover name => [discoverResponse services name]
  | .subscribe _ => [.subscribeResponse]
  | .publishResponse => []

theorem incoming_serve {m : PoolMessage} (henabled : Enabled capacity s (.serve m)) :
    (next s (.serve m)).incoming = s.incoming ++ answerTo s.services m := by
  cases m <;> simp [State.incoming, next, answerTo, henabled.2]

theorem outgoing_serve {m : PoolMessage} (henabled : Enabled capacity s (.serve m)) :
    s.outgoing = m :: (next s (.serve m)).outgoing := by
  obtain ⟨rest, hup⟩ := List.head?_eq_some_iff.1 henabled.1
  cases m <;> simp [State.outgoing, next, hup]

/-- The registry answers a request. -/
theorem Coupled.serve (h : Coupled s) {m : PoolMessage} (henabled : Enabled capacity s (.serve m)) :
    Coupled (next s (.serve m)) := by
  have hincoming := incoming_serve henabled
  have houtgoing := outgoing_serve henabled
  have hpool : (next s (.serve m)).pool = s.pool ∧
      Owning (next s (.serve m)).services (next s (.serve m)).providers := by
    cases m <;> exact ⟨rfl, h.owning⟩
  obtain ⟨hpool, howning⟩ := hpool
  have hexchange : (next s (.serve m)).exchange = s.exchange := by
    unfold State.exchange
    rw [hincoming, houtgoing, List.filterMap_append, List.append_assoc]
    cases m <;> rfl
  refine h.pass (hpool ▸ ⟨h.held, h.opened, h.subscribing⟩) howning (by rw [hpool]) (by rw [hpool])
    (by rw [hpool]) (hpool ▸ h.pushing) hexchange ?_ ?_ ?_ ?_
  · intro key hin
    cases m with
    | discover | publishResponse => exact h.subscribed key hin
    | subscribe key' =>
      rcases mem_subscribe hin with hold | rfl
      · exact h.subscribed key hold
      · exact h.requested key (by simp [houtgoing, PoolMessage.key])
  · intro key hin
    have hnone : (answerTo s.services m).filterMap RegistryMessage.key = [] := by cases m <;> rfl
    rw [hincoming, List.filterMap_append, hnone, List.append_nil] at hin
    exact h.published key hin
  · intro key hin
    obtain ⟨x, hx, hkey⟩ := List.mem_filterMap.1 hin
    refine h.requested key (List.mem_filterMap.2 ⟨x, ?_, hkey⟩)
    rw [houtgoing]
    exact List.mem_cons_of_mem m hx
  · intro x hx
    cases m with
    | discover | subscribe => cases hx; rfl
    | publishResponse => exact h.unkeyed x hx

/-! ### Publications -/

omit [Host] in
theorem told_eq (s : State) (p : Publication) :
    ∃ k, s.told p = List.replicate k (.publish p) ∧ (k ≠ 0 ↔ (p.key, 0) ∈ s.registry.subscribes) := by
  refine ⟨_, List.map_const' .., ?_⟩
  rw [← Nat.pos_iff_ne_zero, List.length_pos_iff_exists_mem]
  constructor
  · rintro ⟨⟨c, pub⟩, hin⟩
    obtain ⟨hsent, hzero⟩ := List.mem_filter.1 hin
    have hc : c = 0 := of_decide_eq_true hzero
    subst hc
    exact (RpcServiceRegistry.mem_publish.1 hsent).1
  · intro hsub
    exact ⟨(0, _), List.mem_filter.2 ⟨RpcServiceRegistry.mem_publish.2 ⟨hsub, rfl, rfl⟩, rfl⟩⟩

omit [Host] in
/-- A session publishes, and changes the tables of services. -/
theorem Coupled.publish (h : Coupled s) (published : List Publication) {services : RpcServiceRegistry.Services}
    {providers : Nat → Provider} (howning : Owning services providers) :
    Coupled { s with
      providers := providers, services := services, down := s.down ++ published.flatMap s.told } := by
  have htold : ∀ m ∈ published.flatMap s.told, ∃ p, m = .publish p ∧ s.Handled p.key := by
    intro m hm
    obtain ⟨p, -, hin⟩ := List.mem_flatMap.1 hm
    obtain ⟨k, heq, hk⟩ := told_eq s p
    rw [heq] at hin
    obtain ⟨hne, rfl⟩ := List.mem_replicate.1 hin
    exact ⟨p, rfl, h.subscribed p.key (hk.1 hne)⟩
  have hservice : (published.flatMap s.told).filterMap RegistryMessage.service = [] := by
    refine List.filterMap_eq_nil_iff.2 fun m hm => ?_
    obtain ⟨p, rfl, -⟩ := htold m hm
    rfl
  refine h.pass ⟨h.held, h.opened, h.subscribing⟩ howning rfl rfl rfl h.pushing ?_ h.subscribed ?_ h.requested
    h.unkeyed
  · simp [State.exchange, State.incoming, State.outgoing, hservice]
  · intro key hin
    simp only [State.incoming, List.filterMap_append, List.mem_append] at hin
    rcases hin with (hhand | hdown | hnew) | hanswer
    · exact h.published key (by simp [State.incoming, hhand])
    · exact h.published key (by simp [State.incoming, hdown])
    · obtain ⟨m, hm, hkey⟩ := List.mem_filterMap.1 hnew
      obtain ⟨p, rfl, hhandled⟩ := htold m hm
      cases hkey
      exact hhandled
    · exact h.published key (by simp [State.incoming, hanswer])

theorem Coupled.provider (h : Coupled s) (p : Nat) (address : IPv4Address) :
    Coupled (next s (.provider p address)) := by
  have howning := h.owning.update_same { s.providers p with address := some address } rfl
  simpa [next, State.setProvider] using h.publish [] howning

theorem Coupled.register (h : Coupled s) (p : Nat) (address : IPv4Address) (name : List Byte) :
    Coupled (next s (.register p address name)) := by
  have howning := h.owning.update_same { s.providers p with announcing := some (name, address.toString) } rfl
  simpa [next, State.setProvider] using h.publish [] (howning.register name address.toString)

theorem Coupled.announce (h : Coupled s) (p : Nat) (name address : List Byte) :
    Coupled (next s (.announce p name address)) := by
  have howning := h.owning.update_same { s.providers p with announcing := none } rfl
  simpa [next, State.setProvider, State.told] using h.publish [⟨serviceSubscribe ++ name, true, address⟩] howning

omit [Host] in
theorem owning_setPhase (h : Coupled s) (p : Nat) {phase : ProviderPhase}
    (hnew : ∀ address its, Provider.cleanup { s.providers p with phase := phase } = some (address, its) →
      s.services.Of address its) : Owning s.services (s.setPhase p phase).providers :=
  h.owning.update hnew

/-- A session that leaves has the iterators of its address in front of it, or it has left. -/
theorem next_leave (s : State) (p : Nat) (address : IPv4Address) :
    ∃ phase, next s (.leave p address) = s.setPhase p phase ∧
      (phase = .left ∨ phase = .erasing address.toString (s.services.iterators address.toString)) := by
  cases hlookup : s.services.iters.lookup address.toString with
  | none => exact ⟨.left, by simp only [next, hlookup], .inl rfl⟩
  | some its =>
    refine ⟨.erasing address.toString its, by simp only [next, hlookup], .inr ?_⟩
    simp [RpcServiceRegistry.Services.iterators, hlookup]

theorem Coupled.leave (h : Coupled s) (p : Nat) (address : IPv4Address) : Coupled (next s (.leave p address)) := by
  obtain ⟨phase, heq, hphase⟩ := next_leave s p address
  have howning : Owning s.services (s.setPhase p phase).providers := by
    refine owning_setPhase h p ?_
    intro a its hits
    rcases hphase with rfl | rfl
    · cases hits
    · simp only [Provider.cleanup, Option.some.injEq, Prod.mk.injEq] at hits
      obtain ⟨rfl, rfl⟩ := hits
      exact h.owning.owned address.toString
  rw [heq]
  simpa [State.setPhase, State.setProvider] using h.publish [] howning

theorem Coupled.erase (h : Coupled s) {p : Nat} {address : List Byte} {i : Nat} {its : List Nat}
    (henabled : Enabled capacity s (.erase p address i its)) : Coupled (next s (.erase p address i its)) := by
  obtain ⟨hphase, hsome⟩ := henabled
  obtain ⟨services, herase⟩ := Option.isSome_iff_exists.1 hsome
  have hits : s.services.Of address (i :: its) :=
    h.owning.cleanup p address (i :: its) (by simp [Provider.cleanup, hphase])
  have howning : Owning s.services (s.setPhase p (.publishing address its)).providers := by
    refine owning_setPhase h p ?_
    intro a its' hits'
    cases hits'
    exact hits.tail
  simpa [next, herase, State.setPhase, State.setProvider] using h.publish [] (howning.eraseService herase)

theorem Coupled.publishOffline (h : Coupled s) {p : Nat} {address : List Byte} {its : List Nat}
    (henabled : Enabled capacity s (.publish p address its)) : Coupled (next s (.publish p address its)) := by
  have hphase : (s.providers p).phase = .publishing address its := henabled
  have howning : Owning s.services (s.setPhase p (.erasing address its)).providers :=
    h.owning.update_same _ (by simp [Provider.cleanup, hphase])
  simpa [next, State.setPhase, State.setProvider, State.told] using
    h.publish [⟨serviceSubscribe ++ address, false, address⟩] howning

theorem Coupled.finish (h : Coupled s) (p : Nat) (address : List Byte) : Coupled (next s (.finish p address)) := by
  have howning : Owning s.services (s.setPhase p .left).providers :=
    owning_setPhase h p (fun a its hits => by cases hits)
  simpa [next, State.setPhase, State.setProvider] using h.publish [] (howning.eraseIters address)

/-! ### Runs -/

theorem Coupled.next (h : Coupled s) {e : Event} (henabled : Enabled capacity s e) : Coupled (next s e) := by
  cases e with
  | pool e =>
    cases hc : e.caller with
    | some c => exact h.call_step henabled hc
    | none =>
      cases e with
      | dispatch m => exact h.dispatch henabled
      | push c results => exact h.push henabled
      | update name online address => exact (h.update henabled).2
      | reply => exact h.reply henabled
      | receive | transmit | lose => cases henabled.2.2
      | _ => cases hc
  | transmit m => exact h.transmit henabled
  | receive m => exact h.receive henabled
  | serve m => exact h.serve henabled
  | answer m => exact h.answer henabled
  | provider p address => exact h.provider p address
  | register p address name => exact h.register p address name
  | announce p name address => exact h.announce p name address
  | leave p address => exact h.leave p address
  | erase p address i its => exact h.erase henabled
  | publish p address its => exact h.publishOffline henabled
  | finish p address => exact h.finish p address

theorem coupled_of_reaches {Allowed : State → Event → Prop} (h : (machine capacity).Reaches Allowed initial s) :
    Coupled s := by
  refine h.invariant (I := Coupled) ?_ .init
  intro t e t' ht _ hstep
  obtain ⟨henabled, rfl⟩ := step_eq_some.1 hstep
  exact ht.next henabled

end

end Discovery

end AcidCompute

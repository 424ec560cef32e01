import AcidCompute.Rpc.Exchange

/-!
# The cache of a pool and the tables of a registry

What is on its way to the pool, together with what a call has in hand, makes of the list in the cache another list
(`Discovery.State.view`), and as long as every change at the registry is told to the pool this list has the addresses
that are registered (`Discovery.Tracked`).  So the two agree when everything has arrived
(`Discovery.agreement_of_reaches`).  The registry does not tell the pool of an address that comes before it has the
subscription (`Discovery.not_agreement`), nor that an address has gone, unless the service has the name of the address.
-/

namespace AcidCompute

open AcidCompute.ByteArray

namespace Discovery

open RpcConnectionPool (Held Phase discoveredAddresses)

/-! ### What the messages change -/

/-- The list that a call makes of an answer. -/
def resetOf (results : List (BitVec 16 × List Byte)) : List (Change (List Byte)) :=
  match discoveredAddresses results with
  | .ok ret => [.reset ret]
  | .error _ => []

/-- What a message is going to change in the list of a service. -/
def messageChanges (name : List Byte) : RegistryMessage → List (Change (List Byte))
  | .discoverResponse service results => if service = name then resetOf results else []
  | .publish p =>
    if p.key = serviceSubscribe ++ name then [if p.online then .add p.address else .remove p.address] else []
  | .subscribeResponse | .other => []

/-- What a call is going to store. -/
def callChanges (call : RpcConnectionPool.Call) : List (Change (List Byte)) :=
  match call.phase with
  | .waiting _ => call.queue.flatMap resetOf
  | .received _ results => resetOf results
  | .subscribing ret | .subscribed ret | .discovered ret => [.reset ret]
  | _ => []

/-- What a call is going to store for a service. -/
def namedChanges (name : List Byte) (call : RpcConnectionPool.Call) : List (Change (List Byte)) :=
  if call.name = name then callChanges call else []

/-- What the call with the mutex is going to store for a service. -/
def heldChanges (pool : RpcConnectionPool.State) (name : List Byte) : List (Change (List Byte)) :=
  match pool.holder with
  | some c => namedChanges name (pool.calls c)
  | none => []

namespace State

variable (s : State) (name : List Byte)

/-- The changes for a service, in the order in which the pool makes them. -/
def changes : List (Change (List Byte)) := heldChanges s.pool name ++ s.incoming.flatMap (messageChanges name)

/-- The list that the pool is going to have. -/
def view : List (List Byte) := Change.replay (s.pool.serviceCache name) (s.changes name)

/-- The pool has subscribed to the service, or will do so. -/
def Known : Prop := s.Handled (serviceSubscribe ++ name) ∨ ∃ l, l ≠ [] ∧ Change.reset l ∈ s.changes name

/-- The registry has the subscription of the pool. -/
def Subscribed : Prop := (serviceSubscribe ++ name, 0) ∈ s.registry.subscribes

/-- An address is registered, and this has not been published. -/
def Unsent (address : List Byte) : Prop :=
  ∃ p, (s.providers p).announcing = some (name, address)

/-- What is registered of an address is about to be erased. -/
def Doomed (address : List Byte) : Prop :=
  ∀ e ∈ s.services.services.entries, e.key = name → e.value = address →
    ∃ p its, (s.providers p).cleanup = some (address, its) ∧ e.node ∈ its

/-- An address may be missing in the list that the pool is going to have. -/
def Coming (address : List Byte) : Prop := s.Unsent name address ∨ s.Doomed name address

/-- It is going to be published under the key of the service that an address has gone. -/
def Going (address : List Byte) : Prop :=
  address = name ∧ ∃ p its, (s.providers p).phase = .publishing address its

/-- An iterator is that of the last registration of an address. -/
def Last (address : List Byte) (i : Nat) : Prop :=
  ∀ e ∈ s.services.services.entries, e.key = name → e.value = address → e.node = i

/-- The state with other tables of services and other providers. -/
def replace (services : RpcServiceRegistry.Services) (providers : Nat → Provider) : State :=
  { s with services := services, providers := providers }

end State

/-- The list that the pool is going to have is the list of the registry. -/
def Tracked (name : List Byte) (s : State) : Prop :=
  s.Known name → Change.ResetsFirst (s.changes name) →
    Change.Tracks (fun a => a ∈ s.registered name) (s.Coming name) (s.Going name) (s.pool.serviceCache name)
      (s.changes name)

theorem mem_registered {s : State} {name a : List Byte} :
    a ∈ s.registered name ↔ ∃ e ∈ s.services.services.entries, e.key = name ∧ e.value = a := by
  simp [State.registered, Multimap.equalRange, and_assoc]

theorem resetOf_discoverResults [Host] (services : RpcServiceRegistry.Services) (name : List Byte) :
    resetOf ((RpcServiceRegistry.discoverResults services name).map fun r => (r.code, r.value)) =
      [.reset ((services.services.equalRange name).map Entry.value)] := by
  unfold resetOf RpcServiceRegistry.discoverResults
  cases services.services.equalRange name with
  | nil => rfl
  | cons e entries =>
    simp [discoveredAddresses, RpcServiceRegistry.found, RpcState.code, pure, Except.pure]

/-- A call stores what it has in hand when it comes back from `discover`. -/
theorem namedChanges_eq_nil {call : RpcConnectionPool.Call} (h : call.phase.inDiscover = false) (name : List Byte) :
    namedChanges name call = [] := by
  have hnone : callChanges call = [] := by
    unfold callChanges
    cases hphase : call.phase <;> simp_all [Phase.inDiscover]
  unfold namedChanges
  rw [hnone, ite_self]

/-- What a call has in hand is read off the call also where another one, or none, has the mutex. -/
theorem heldChanges_of_ne {pool : RpcConnectionPool.State} (h : Held pool) {c : Nat}
    (hc : pool.holder = some c ∨ pool.holder = none) (name : List Byte) :
    heldChanges pool name = namedChanges name (pool.calls c) := by
  unfold heldChanges
  rcases hc with hc | hfree
  · rw [hc]
  · have hnot : (pool.calls c).phase.inDiscover = false := by
      by_contra hin
      have hholds := Phase.holds_of_inDiscover (Bool.eq_true_of_not_eq_false hin)
      rw [h c, hfree] at hholds
      cases hholds
    rw [hfree, namedChanges_eq_nil hnot]

/-- Only the call that takes a step may have something else in hand. -/
theorem heldChanges_next {pool pool' : RpcConnectionPool.State} (h : Held pool) (h' : Held pool') {c : Nat}
    (hother : ∀ d, d ≠ c → pool'.calls d = pool.calls d) {name : List Byte}
    (hself : namedChanges name (pool'.calls c) = namedChanges name (pool.calls c)) :
    heldChanges pool' name = heldChanges pool name := by
  by_cases hd : ∃ d, d ≠ c ∧ pool.holder = some d
  · -- another call has the mutex, and keeps it
    obtain ⟨d, hne, hholder⟩ := hd
    have hholder' : pool'.holder = some d := by
      rw [← h' d, hother d hne]
      exact (h d).2 hholder
    unfold heldChanges
    rw [hholder, hholder']
    simp only [hother d hne]
  · have hc : pool.holder = some c ∨ pool.holder = none := by
      cases hholder : pool.holder with
      | none => exact .inr rfl
      | some d =>
        by_cases heq : d = c
        · exact .inl (by rw [heq])
        · exact absurd ⟨d, heq, hholder⟩ hd
    have hc' : pool'.holder = some c ∨ pool'.holder = none := by
      cases hholder' : pool'.holder with
      | none => exact .inr rfl
      | some d =>
        by_cases heq : d = c
        · exact .inl (by rw [heq])
        · have hholds := (h' d).2 hholder'
          rw [hother d heq, h d] at hholds
          exact absurd ⟨d, heq, hholds⟩ hd
    rw [heldChanges_of_ne h hc, heldChanges_of_ne h' hc', hself]

/-! ### Steps of calls -/

section

variable [Host] {capacity : Nat} {s : State} {e : RpcConnectionPool.Event} {c : Nat} {name : List Byte}

/-- What a call has in hand goes with its answer until it is stored. -/
theorem namedChanges_next (h : Coupled s) (henabled : Enabled capacity s (.pool e)) (hc : e.caller = some c)
    (hstore : ∀ c ret, e ≠ .store c ret) (name : List Byte) :
    namedChanges name ((RpcConnectionPool.next s.pool e).calls c) = namedChanges name (s.pool.calls c) := by
  obtain ⟨hfault, hpool, -⟩ := id henabled
  rcases RpcConnectionPool.moves_next hpool hc with ⟨hsame, -⟩ | hmoves
  · rw [hsame]
  · generalize hnew : (RpcConnectionPool.next s.pool e).calls c = new, (RpcConnectionPool.next s.pool e).holder = holder
      at hmoves ⊢
    cases hmoves with
    | stored ret | missing => exact absurd rfl (hstore c _)
    | received it results hphase =>
      have hqueue := (h.takeResponse henabled).1
      simp [namedChanges, callChanges, hqueue, hphase]
    | discovered it results ret hret hphase | subscribing it results ret hret hne hphase =>
      simp [namedChanges, callChanges, hphase, resetOf, hret]
    | waiting it hphase =>
      have hqueue := h.queue c (by simp [hphase])
      simp [namedChanges, callChanges, hphase, hqueue]
    | disconnected hphase => simp [RpcConnectionPool.next, h.connected] at hnew
    | _ =>
      rename_i hphase
      simp [namedChanges, callChanges, hphase]

/-- A call that waits keeps its name. -/
theorem incoming_call (h : Coupled s) (henabled : Enabled capacity s (.pool e)) (hc : e.caller = some c) :
    (next s (.pool e)).incoming = s.incoming := by
  refine h.incoming_own hc ?_
  obtain ⟨-, hpool, -⟩ := henabled
  rcases RpcConnectionPool.moves_next hpool hc with ⟨hsame, -⟩ | hmoves
  · exact .inl (by rw [hsame])
  · generalize (RpcConnectionPool.next s.pool e).calls c = new, (RpcConnectionPool.next s.pool e).holder = holder
      at hmoves ⊢
    cases hmoves with
    | found name it hphase | locked name hfree hphase => exact .inr (by simp [hphase])
    | _ => exact .inl rfl

theorem changes_call (h : Coupled s) (henabled : Enabled capacity s (.pool e)) (hc : e.caller = some c)
    (hstore : ∀ c ret, e ≠ .store c ret) : (next s (.pool e)).changes name = s.changes name := by
  unfold State.changes
  rw [incoming_call h henabled hc]
  congr 1
  exact heldChanges_next h.held (h.call_step henabled hc).held (fun d => RpcConnectionPool.calls_own hc)
    (namedChanges_next h henabled hc hstore name)

omit [Host] in
theorem serviceCache_next (hc : e.caller = some c) (hstore : ∀ c ret, e ≠ .store c ret)
    (hrelock : ∀ c it, e ≠ .relock c it) :
    (RpcConnectionPool.next s.pool e).serviceCache = s.pool.serviceCache := by
  cases e with
  | store c ret => exact absurd rfl (hstore c ret)
  | relock c it => exact absurd rfl (hrelock c it)
  | receive | dispatch | push | update | reply | transmit | lose => cases hc
  | _ =>
    simp only [RpcConnectionPool.next]
    repeat' split
    all_goals rfl

/-- A callback is new only where a list is in hand. -/
theorem known_call (h : Coupled s) (henabled : Enabled capacity s (.pool e)) (hc : e.caller = some c)
    (hchanges : ∀ x ∈ (next s (.pool e)).changes name, x ∈ s.changes name)
    (hknown : (next s (.pool e)).Known name) : s.Known name := by
  rcases hknown with hhandled | ⟨l, hne, hin⟩
  · by_cases hsubscribe : ∃ c ret, e = .subscribe c ret
    · obtain ⟨c', ret, rfl⟩ := hsubscribe
      cases hc
      obtain ⟨-, hpool, -⟩ := henabled
      have hphase : (s.pool.calls c).phase = .subscribing ret := hpool.1
      by_cases hname : (s.pool.calls c).name = name
      · refine .inr ⟨ret, h.subscribing.nonempty c ret (.inl hphase), ?_⟩
        have hholder := (h.held c).1 (by simp [hphase, Phase.holds])
        simp [State.changes, heldChanges, hholder, namedChanges, hname, callChanges, hphase]
      · left
        unfold State.Handled at hhandled ⊢
        simp only [next, RpcConnectionPool.next] at hhandled
        split at hhandled
        · exact hhandled
        · have hother : (serviceSubscribe ++ name == serviceSubscribe ++ (s.pool.calls c).name) = false := by
            simpa using Ne.symm hname
          rwa [List.lookup_cons, hother] at hhandled
    · left
      have hhandle : (RpcConnectionPool.next s.pool e).subHandle = s.pool.subHandle :=
        RpcConnectionPool.subHandle_next fun c ret heq => hsubscribe ⟨c, ret, heq⟩
      unfold State.Handled at hhandled ⊢
      rw [← hhandle]
      exact hhandled
  · exact .inr ⟨l, hne, hchanges _ hin⟩

theorem Tracked.call (ht : Tracked name s) (h : Coupled s) (henabled : Enabled capacity s (.pool e))
    (hc : e.caller = some c) (hstore : ∀ c ret, e ≠ .store c ret) (hrelock : ∀ c it, e ≠ .relock c it) :
    Tracked name (next s (.pool e)) := by
  intro hknown
  have hchanges : (next s (.pool e)).changes name = s.changes name := changes_call h henabled hc hstore
  have hcache : (next s (.pool e)).pool.serviceCache = s.pool.serviceCache := serviceCache_next hc hstore hrelock
  have hbefore := ht (known_call h henabled hc (fun x hx => hchanges ▸ hx) hknown)
  rw [hchanges, hcache]
  exact hbefore

/-- The list in hand comes into the cache. -/
theorem Tracked.store (ht : Tracked name s) (h : Coupled s) {ret : List (List Byte)}
    (henabled : Enabled capacity s (.pool (.store c ret))) : Tracked name (next s (.pool (.store c ret))) := by
  obtain ⟨-, hpool, -⟩ := id henabled
  have hphase : (s.pool.calls c).phase = .discovered ret := hpool
  have hholder := (h.held c).1 (by simp [hphase, Phase.holds])
  have hnext := h.call_step henabled rfl
  have hincoming := incoming_call h henabled rfl
  have hcalls : ((next s (.pool (.store c ret))).pool.calls c).phase = .choosing ∨
      ((next s (.pool (.store c ret))).pool.calls c).phase = .returned RpcState.noMethod.code := by
    by_cases hnone : ret = []
    · exact .inr (by simp [next, RpcConnectionPool.next, hnone])
    · exact .inl (by simp [next, RpcConnectionPool.next, hnone])
  have hheld : heldChanges (next s (.pool (.store c ret))).pool name = [] := by
    have hc : (next s (.pool (.store c ret))).pool.holder = some c ∨
        (next s (.pool (.store c ret))).pool.holder = none := by
      by_cases hnone : ret = []
      · exact .inr (by simp [next, RpcConnectionPool.next, hnone])
      · exact .inl (by simp [next, RpcConnectionPool.next, hnone, RpcConnectionPool.State.setCache, hholder])
    rw [heldChanges_of_ne hnext.held hc]
    rcases hcalls with hphase' | hphase' <;> simp [namedChanges, callChanges, hphase']
  have hafter : (next s (.pool (.store c ret))).changes name = s.incoming.flatMap (messageChanges name) := by
    unfold State.changes
    rw [hheld, hincoming, List.nil_append]
  have hcache : (next s (.pool (.store c ret))).pool.serviceCache =
      Function.update s.pool.serviceCache (s.pool.calls c).name ret := by
    simp only [next, RpcConnectionPool.next]
    split <;> rfl
  have hbefore : s.changes name = namedChanges name (s.pool.calls c) ++ s.incoming.flatMap (messageChanges name) := by
    unfold State.changes
    rw [heldChanges_of_ne h.held (.inl hholder)]
  intro hknown hfirst
  have hold := ht (known_call h henabled rfl (fun x hx => by
    rw [hbefore]
    rw [hafter] at hx
    exact List.mem_append_right _ hx) hknown)
  rw [hafter] at hfirst ⊢
  by_cases hname : (s.pool.calls c).name = name
  · have hnamed : namedChanges name (s.pool.calls c) = [.reset ret] := by
      simp [namedChanges, hname, callChanges, hphase]
    rw [hbefore, hnamed] at hold
    rw [hcache, hname, Function.update_self]
    exact (hold (hfirst.cons_reset ret)).process
  · have hnamed : namedChanges name (s.pool.calls c) = [] := by simp [namedChanges, hname]
    rw [hbefore, hnamed, List.nil_append] at hold
    rw [hcache, Function.update_of_ne (Ne.symm hname)]
    exact hold hfirst

/-- The address of a failed connection leaves the cache. -/
theorem Tracked.relock (ht : Tracked name s) (h : Coupled s) {it : Nat}
    (henabled : Enabled capacity s (.pool (.relock c it)))
    (hgone : s.Known name → (s.pool.calls c).name = name →
      ∀ entry, s.pool.connections.deref it = some entry → entry.value ∉ s.registered name) :
    Tracked name (next s (.pool (.relock c it))) := by
  have hchanges : (next s (.pool (.relock c it))).changes name = s.changes name := changes_call h henabled rfl (by simp)
  intro hknown
  have hbefore := known_call h henabled rfl (fun x hx => hchanges ▸ hx) hknown
  rw [hchanges]
  intro hfirst
  have hold := ht hbefore hfirst
  cases hderef : s.pool.connections.deref it with
  | none =>
    have hsame : (next s (.pool (.relock c it))).pool.serviceCache = s.pool.serviceCache := by
      simp [next, RpcConnectionPool.next, hderef]
    rw [hsame]
    exact hold
  | some entry =>
    have hcache : (next s (.pool (.relock c it))).pool.serviceCache =
        Function.update s.pool.serviceCache (s.pool.calls c).name
          ((s.pool.serviceCache (s.pool.calls c).name).filter fun a => a ≠ entry.value) := by
      simp only [next, RpcConnectionPool.next, hderef]
      rfl
    by_cases hname : (s.pool.calls c).name = name
    · rw [hcache, hname, Function.update_self]
      exact hold.forget (hgone hbefore hname entry hderef)
    · rw [hcache, Function.update_of_ne (Ne.symm hname)]
      exact hold

end

/-! ### Steps of the receiver -/

section

variable [Host] {capacity : Nat} {s s' : State} {name : List Byte}

omit [Host] in
/-- A step that moves messages, and changes nothing else. -/
theorem Tracked.congr (ht : Tracked name s) (hchanges : s'.changes name = s.changes name)
    (hcache : s'.pool.serviceCache = s.pool.serviceCache) (hhandle : s'.pool.subHandle = s.pool.subHandle)
    (hservices : s'.services = s.services) (hproviders : s'.providers = s.providers) : Tracked name s' := by
  have hknown : s'.Known name ↔ s.Known name := by
    unfold State.Known State.Handled
    rw [hchanges, hhandle]
  have hregistered : s'.registered name = s.registered name := by
    unfold State.registered
    rw [hservices]
  have hcoming : s'.Coming name = s.Coming name := by
    unfold State.Coming State.Unsent State.Doomed
    rw [hproviders, hservices]
  have hgoing : s'.Going name = s.Going name := by
    unfold State.Going
    rw [hproviders]
  unfold Tracked
  rw [hknown, hchanges, hcache, hregistered, hcoming, hgoing]
  exact ht

omit [Host] in
theorem messageChanges_eq_nil {m : RegistryMessage} (hservice : m.service = none) (hkey : m.key = none)
    (name : List Byte) : messageChanges name m = [] := by
  cases m with
  | discoverResponse service results => cases hservice
  | publish p => cases hkey
  | subscribeResponse | other => rfl

theorem Tracked.dispatch (ht : Tracked name s) (h : Coupled s) {m : RegistryMessage}
    (henabled : Enabled capacity s (.pool (.dispatch m))) : Tracked name (next s (.pool (.dispatch m))) := by
  obtain ⟨⟨dropped, hincoming, hdropped⟩, -⟩ := h.dispatch_incoming henabled
  have hnone : dropped.flatMap (messageChanges name) = [] :=
    List.flatMap_eq_nil_iff.2 fun x hx => messageChanges_eq_nil (hdropped x hx).1 (hdropped x hx).2 name
  have hkept : (next s (.pool (.dispatch m))).pool.calls = s.pool.calls ∧
      (next s (.pool (.dispatch m))).pool.holder = s.pool.holder ∧
      (next s (.pool (.dispatch m))).pool.serviceCache = s.pool.serviceCache ∧
      (next s (.pool (.dispatch m))).pool.subHandle = s.pool.subHandle := by
    simp only [next, RpcConnectionPool.next]
    repeat' split
    all_goals exact ⟨rfl, rfl, rfl, rfl⟩
  obtain ⟨hcalls, hholder, hcache, hhandle⟩ := hkept
  refine ht.congr ?_ hcache hhandle rfl rfl
  unfold State.changes heldChanges
  rw [hincoming, List.flatMap_append, hnone, List.nil_append, hcalls, hholder]

/-- The list that was on its way is in hand. -/
theorem Tracked.push (ht : Tracked name s) (h : Coupled s) {c : Nat} {results : List (BitVec 16 × List Byte)}
    (henabled : Enabled capacity s (.pool (.push c results))) : Tracked name (next s (.pool (.push c results))) := by
  obtain ⟨-, hpool, -⟩ := henabled
  have hreceiver : s.pool.receiver = .pushing c results := hpool.1
  obtain ⟨it, hphase⟩ := h.pushing c results hreceiver
  have hholder := (h.held c).1 (by simp [hphase, Phase.holds])
  have hqueue : (s.pool.calls c).queue = [] := List.length_eq_zero_iff.1 (Nat.lt_one_iff.1 hpool.2)
  refine ht.congr ?_ rfl rfl rfl rfl
  simp [State.changes, heldChanges, State.incoming, RpcConnectionPool.State.inHand, hreceiver, hholder, next,
    RpcConnectionPool.next, namedChanges, callChanges, hphase, hqueue, messageChanges]

omit [Host] in
/-- Where no service is asked for, no list is on its way. -/
theorem isReset_of_exchange (h : s.exchange = []) :
    ∀ d ∈ s.incoming.flatMap (messageChanges name), d.isReset = false := by
  intro d hd
  obtain ⟨m, hm, hin⟩ := List.mem_flatMap.1 hd
  cases m with
  | discoverResponse service results =>
    have hservice : service ∈ s.exchange :=
      List.mem_append_left _ (List.mem_filterMap.2 ⟨.discoverResponse service results, hm, rfl⟩)
    rw [h] at hservice
    cases hservice
  | publish p =>
    simp only [messageChanges] at hin
    split at hin
    · rw [List.mem_singleton.1 hin]
      split <;> rfl
    · cases hin
  | subscribeResponse | other => cases hin

/-- A callback changes the list. -/
theorem Tracked.update (ht : Tracked name s) (h : Coupled s) {name' address : List Byte} {online : Bool}
    (henabled : Enabled capacity s (.pool (.update name' online address))) :
    Tracked name (next s (.pool (.update name' online address))) := by
  obtain ⟨hincoming, -⟩ := h.update henabled
  obtain ⟨-, hpool, -⟩ := henabled
  have hfree : s.pool.holder = none := hpool.2
  have hbefore : s.changes name = messageChanges name (.publish ⟨serviceSubscribe ++ name', online, address⟩) ++
      (next s (.pool (.update name' online address))).incoming.flatMap (messageChanges name) := by
    unfold State.changes heldChanges
    rw [hfree, hincoming]
    rfl
  have hafter : (next s (.pool (.update name' online address))).changes name =
      (next s (.pool (.update name' online address))).incoming.flatMap (messageChanges name) := by
    have hfree' : (next s (.pool (.update name' online address))).pool.holder = none := hfree
    unfold State.changes heldChanges
    rw [hfree']
    rfl
  have hknown : (next s (.pool (.update name' online address))).Known name → s.Known name := by
    rintro (hhandled | ⟨l, hne, hin⟩)
    · exact .inl hhandled
    · rw [hafter] at hin
      refine .inr ⟨l, hne, ?_⟩
      rw [hbefore]
      exact List.mem_append_right _ hin
  have hcache : (next s (.pool (.update name' online address))).pool.serviceCache =
      Function.update s.pool.serviceCache name'
        (RpcConnectionPool.updateCache online address (s.pool.serviceCache name')) := rfl
  intro hafterKnown hfirst
  have hold := ht (hknown hafterKnown)
  rw [hafter] at hfirst ⊢
  by_cases hname : name' = name
  · subst hname
    have hone : messageChanges name' (.publish ⟨serviceSubscribe ++ name', online, address⟩) =
        [if online then .add address else .remove address] := if_pos rfl
    have hnone : ∀ d ∈ (next s (.pool (.update name' online address))).incoming.flatMap (messageChanges name'),
        d.isReset = false := by
      intro d hd
      have hin : d ∈ s.incoming.flatMap (messageChanges name') := by
        rw [hincoming]
        exact List.mem_append_right _ hd
      exact isReset_of_exchange (h.exchange_nil_of_free hfree) d hin
    rw [hbefore, hone] at hold
    have happly : RpcConnectionPool.updateCache online address (s.pool.serviceCache name') =
        Change.apply (s.pool.serviceCache name') (if online then .add address else .remove address) := by
      cases online <;> rfl
    rw [hcache, Function.update_self, happly]
    exact (hold (hfirst.cons hnone _)).process
  · have hother : messageChanges name (.publish ⟨serviceSubscribe ++ name', online, address⟩) = [] :=
      if_neg fun heq => hname (List.append_cancel_left heq)
    rw [hbefore, hother, List.nil_append] at hold
    rw [hcache, Function.update_of_ne (Ne.symm hname)]
    exact hold hfirst

theorem Tracked.reply (ht : Tracked name s) (henabled : Enabled capacity s (.pool .reply)) :
    Tracked name (next s (.pool .reply)) := by
  obtain ⟨-, hpool, -⟩ := henabled
  refine ht.congr ?_ rfl rfl rfl rfl
  have hreceiver : s.pool.receiver = .replying := hpool.1
  simp [State.changes, heldChanges, State.incoming, RpcConnectionPool.State.inHand, hreceiver, next,
    RpcConnectionPool.next, RpcConnectionPool.State.send]

theorem Tracked.transmit (ht : Tracked name s) (m : PoolMessage) : Tracked name (next s (.transmit m)) :=
  ht.congr rfl rfl rfl rfl rfl

theorem Tracked.receive (ht : Tracked name s) {m : RegistryMessage} (henabled : Enabled capacity s (.receive m)) :
    Tracked name (next s (.receive m)) := by
  refine ht.congr ?_ rfl rfl rfl rfl
  unfold State.changes
  rw [incoming_receive henabled]
  rfl

end

/-! ### Steps of the registry -/

section

variable [Host] {capacity : Nat} {s : State} {name : List Byte}

theorem Tracked.answer (ht : Tracked name s) {m : RegistryMessage} (henabled : Enabled capacity s (.answer m)) :
    Tracked name (next s (.answer m)) := by
  refine ht.congr ?_ rfl rfl rfl rfl
  unfold State.changes
  rw [incoming_answer henabled]
  rfl

/-- An answer has the addresses of the registry. -/
theorem Tracked.serve (ht : Tracked name s) {m : PoolMessage} (henabled : Enabled capacity s (.serve m)) :
    Tracked name (next s (.serve m)) := by
  have hkept : (next s (.serve m)).pool = s.pool ∧ (next s (.serve m)).services = s.services ∧
      (next s (.serve m)).providers = s.providers := by
    cases m <;> exact ⟨rfl, rfl, rfl⟩
  obtain ⟨hpool, hservices, hproviders⟩ := hkept
  have hchanges : (next s (.serve m)).changes name =
      s.changes name ++ (answerTo s.services m).flatMap (messageChanges name) := by
    unfold State.changes
    rw [incoming_serve henabled, hpool, List.flatMap_append, List.append_assoc]
  by_cases hasked : m = .discover name
  · subst hasked
    have hanswer : (answerTo s.services (.discover name)).flatMap (messageChanges name) =
        [.reset (s.registered name)] := by
      simp [answerTo, discoverResponse, messageChanges, resetOf_discoverResults, State.registered]
    intro _ _
    rw [hchanges, hanswer]
    exact Change.Tracks.reset fun a => Iff.rfl
  · have hanswer : (answerTo s.services m).flatMap (messageChanges name) = [] := by
      cases m with
      | discover other =>
        have hne : other ≠ name := fun heq => hasked (by rw [heq])
        simp [answerTo, discoverResponse, messageChanges, hne]
      | subscribe key => rfl
      | publishResponse => rfl
    rw [hanswer, List.append_nil] at hchanges
    exact ht.congr hchanges (by rw [hpool]) (by rw [hpool]) hservices hproviders

/-! ### Publications -/

omit [Host] in
/-- What publications that are all the same change: something just if they are for the service, and the registry has
the subscription. -/
theorem publications_changes (s : State) (n : Nat) (p : Publication) (name : List Byte) :
    ∃ k, ((List.replicate n p).flatMap s.told).flatMap (messageChanges name) =
        List.replicate k (if p.online then .add p.address else .remove p.address) ∧
      (k ≠ 0 ↔ n ≠ 0 ∧ p.key = serviceSubscribe ++ name ∧ s.Subscribed name) := by
  obtain ⟨k, htold, hk⟩ := told_eq s p
  by_cases hkey : p.key = serviceSubscribe ++ name
  · refine ⟨n * k, ?_, ?_⟩
    · rw [List.flatMap_replicate, htold, List.flatten_replicate_replicate, List.flatMap_replicate, messageChanges,
        if_pos hkey, ← List.replicate_one, List.flatten_replicate_replicate, Nat.mul_one]
    · rw [Nat.mul_ne_zero_iff, hk, hkey]
      simp [State.Subscribed]
  · refine ⟨0, ?_, by simp [hkey]⟩
    rw [List.flatMap_replicate, htold, List.flatten_replicate_replicate, List.flatMap_replicate, messageChanges,
      if_neg hkey]
    simp

omit [Host] in
/-- Where it is not a publication, a message makes a list. -/
theorem isReset_of_key {m : RegistryMessage} (hkey : m.key = none) : ∀ d ∈ messageChanges name m, d.isReset = true := by
  intro d hd
  cases m with
  | discoverResponse service results =>
    simp only [messageChanges, resetOf] at hd
    split at hd
    · split at hd
      · rw [List.mem_singleton.1 hd]
        rfl
      · cases hd
    · cases hd
  | publish p => cases hkey
  | subscribeResponse | other => cases hd

omit [Host] in
/-- Publications come behind the changes that are on their way. -/
theorem Tracked.publish (ht : Tracked name s) (h : Coupled s) (services : RpcServiceRegistry.Services)
    (providers : Nat → Provider) (n : Nat) (p : Publication)
    (hstep : s.Known name → Change.Tracks (fun a => a ∈ s.registered name) (s.Coming name) (s.Going name)
        (s.pool.serviceCache name) (s.changes name) →
      Change.Tracks (fun a => a ∈ (s.replace services providers).registered name)
        ((s.replace services providers).Coming name) ((s.replace services providers).Going name)
        (s.pool.serviceCache name)
        (s.changes name ++ ((List.replicate n p).flatMap s.told).flatMap (messageChanges name))) :
    Tracked name { s with
      providers := providers, services := services, down := s.down ++ (List.replicate n p).flatMap s.told } := by
  obtain ⟨k, hpublished, -⟩ := publications_changes s n p name
  rw [hpublished] at hstep
  have hchanges : State.changes { s with
      providers := providers, services := services, down := s.down ++ (List.replicate n p).flatMap s.told } name =
      heldChanges s.pool name ++ (s.pool.inHand ++ s.down).flatMap (messageChanges name) ++
        (List.replicate k (if p.online then .add p.address else .remove p.address) ++
          s.answer.toList.flatMap (messageChanges name)) := by
    rw [← hpublished]
    simp [State.changes, State.incoming]
  have hbefore : s.changes name = heldChanges s.pool name ++ (s.pool.inHand ++ s.down).flatMap (messageChanges name) ++
      s.answer.toList.flatMap (messageChanges name) := by
    simp [State.changes, State.incoming]
  intro hknown hfirst
  have hold : s.Known name := by
    rcases hknown with hhandled | ⟨l, hne, hin⟩
    · exact .inl hhandled
    · refine .inr ⟨l, hne, ?_⟩
      rw [hchanges] at hin
      rw [hbefore]
      rcases List.mem_append.1 hin with hfront | hbehind
      · exact List.mem_append_left _ hfront
      rcases List.mem_append.1 hbehind with hnew | hback
      · have heq := (List.mem_replicate.1 hnew).2
        split at heq <;> cases heq
      · exact List.mem_append_right _ hback
  rw [hchanges] at hfirst ⊢
  cases k with
  | zero =>
    simp only [List.replicate_zero, List.nil_append, List.append_nil, ← hbefore] at hstep hfirst ⊢
    exact hstep hold (ht hold hfirst)
  | succ k =>
    -- no list is made behind a publication
    have hanswer : s.answer.toList.flatMap (messageChanges name) = [] := by
      have hone : (if p.online then Change.add p.address else .remove p.address).isReset = false := by
        split <;> rfl
      have hnone := hfirst.not_isReset hone
      refine List.flatMap_eq_nil_iff.2 fun m hm => ?_
      have hkey := h.unkeyed m (Option.mem_toList.1 hm)
      by_contra hne
      obtain ⟨d, hd⟩ := List.exists_mem_of_ne_nil _ hne
      have hreset := hnone d (List.mem_append_right _ (List.mem_flatMap.2 ⟨m, hm, hd⟩))
      rw [isReset_of_key hkey d hd] at hreset
      cases hreset
    rw [hanswer, List.append_nil] at hbefore
    rw [hanswer, List.append_nil] at hfirst ⊢
    rw [← hbefore] at hfirst ⊢
    exact hstep hold (ht hold hfirst.append_left)

omit [Host] in
/-- Nothing is published. -/
theorem Tracked.replace (ht : Tracked name s) (h : Coupled s) (services : RpcServiceRegistry.Services)
    (providers : Nat → Provider)
    (hstep : Change.Tracks (fun a => a ∈ s.registered name) (s.Coming name) (s.Going name)
        (s.pool.serviceCache name) (s.changes name) → s.Known name →
      Change.Tracks (fun a => a ∈ (s.replace services providers).registered name)
        ((s.replace services providers).Coming name) ((s.replace services providers).Going name)
        (s.pool.serviceCache name) (s.changes name)) : Tracked name (s.replace services providers) := by
  have hsame := ht.publish h services providers 0 ⟨[], true, []⟩ (by
    intro hknown htracks
    rw [List.replicate_zero, List.flatMap_nil, List.flatMap_nil, List.append_nil]
    exact hstep htracks hknown)
  simpa [State.replace] using hsame

section

variable {p : Nat} {provider : Provider} {services : RpcServiceRegistry.Services} {a : List Byte}

omit [Host] in
/-- One session changes, and registrations may go. -/
theorem State.Coming.update (h : s.Coming name a)
    (hservices : ∀ e ∈ services.services.entries, e ∈ s.services.services.entries)
    (hannouncing : (s.providers p).announcing = some (name, a) → provider.announcing = some (name, a))
    (hcleanup : ∀ its, (s.providers p).cleanup = some (a, its) → ∀ e ∈ services.services.entries, e.node ∈ its →
      ∃ its', provider.cleanup = some (a, its') ∧ e.node ∈ its') :
    (s.replace services (Function.update s.providers p provider)).Coming name a := by
  rcases h with ⟨q, hq⟩ | hdoomed
  · refine .inl ⟨q, ?_⟩
    by_cases heq : q = p
    · subst heq
      simpa [State.replace] using hannouncing hq
    · simpa [State.replace, heq] using hq
  · refine .inr ?_
    intro e he hkey hvalue
    obtain ⟨q, its, hq, hin⟩ := hdoomed e (hservices e he) hkey hvalue
    by_cases heq : q = p
    · subst heq
      obtain ⟨its', hits', hin'⟩ := hcleanup its hq e he hin
      exact ⟨q, its', by simpa [State.replace] using hits', hin'⟩
    · exact ⟨q, its, by simpa [State.replace, heq] using hq, hin⟩

omit [Host] in
theorem State.Going.update (h : s.Going name a)
    (hphase : ∀ its, (s.providers p).phase = .publishing a its → ∃ its', provider.phase = .publishing a its') :
    (s.replace services (Function.update s.providers p provider)).Going name a := by
  obtain ⟨rfl, q, its, hq⟩ := h
  refine ⟨rfl, ?_⟩
  by_cases heq : q = p
  · subst heq
    obtain ⟨its', hits'⟩ := hphase its hq
    exact ⟨q, its', by simpa [State.replace] using hits'⟩
  · exact ⟨q, its, by simpa [State.replace, heq] using hq⟩

end

theorem Tracked.provider (ht : Tracked name s) (h : Coupled s) (p : Nat) (address : IPv4Address) :
    Tracked name (next s (.provider p address)) := by
  refine ht.replace h s.services _ fun htracks _ => htracks.change ?_ ?_
  · exact fun a _ ha => ha.imp_right fun hgoing => hgoing.update fun its hits => ⟨its, hits⟩
  · exact fun a ha => .inl ⟨ha, fun hcoming => .inr (hcoming.update (fun e he => he) id
      fun its hits e _ hin => ⟨its, hits, hin⟩)⟩

/-- A registration is not published at once. -/
theorem Tracked.register (ht : Tracked name s) (h : Coupled s) {p : Nat} {address : IPv4Address} {name' : List Byte}
    (henabled : Enabled capacity s (.register p address name')) :
    Tracked name (next s (.register p address name')) := by
  obtain ⟨hserving, hidle, -⟩ := henabled
  have hregistered : ∀ a, a ∈ ((s.services.register name' address.toString).services.equalRange name).map Entry.value ↔
      a ∈ s.registered name ∨ name' = name ∧ a = address.toString := by
    intro a
    rw [RpcServiceRegistry.Services.register_services, Multimap.equalRange_emplace, List.map_append, List.mem_append]
    by_cases hname : name' = name
    · simp [hname, State.registered]
    · simp [hname, State.registered]
  refine ht.replace h (s.services.register name' address.toString) (Function.update s.providers p
    { s.providers p with announcing := some (name', address.toString) }) fun htracks _ => htracks.change ?_ ?_
  · exact fun a _ ha => ha.imp (fun hin => (hregistered a).2 (.inl hin)) fun hgoing =>
      hgoing.update fun its hits => ⟨its, hits⟩
  · intro a ha
    by_cases hnew : name' = name ∧ a = address.toString
    · exact .inr (.inl ⟨p, by simp [State.replace, hnew.1, hnew.2]⟩)
    · refine .inl ⟨((hregistered a).1 ha).resolve_right hnew, fun hcoming => .inr ?_⟩
      rcases hcoming with ⟨q, hq⟩ | hdoomed
      · refine .inl ⟨q, ?_⟩
        have hne : q ≠ p := by
          rintro rfl
          rw [hidle] at hq
          cases hq
        simpa [State.replace, hne] using hq
      · refine .inr ?_
        intro e he hkey hvalue
        rcases Multimap.mem_emplace.1 he with rfl | hold
        · exact absurd ⟨hkey, hvalue.symm⟩ hnew
        obtain ⟨q, its, hq, hin⟩ := hdoomed e hold hkey hvalue
        have hne : q ≠ p := by
          rintro rfl
          simp [Provider.cleanup, hserving] at hq
        exact ⟨q, its, by simpa [State.replace, hne] using hq, hin⟩

/-! ### Sessions that leave -/

theorem Tracked.leave (ht : Tracked name s) (h : Coupled s) {p : Nat} {address : IPv4Address}
    (henabled : Enabled capacity s (.leave p address)) : Tracked name (next s (.leave p address)) := by
  obtain ⟨hserving, -, -⟩ := henabled
  obtain ⟨phase, heq, -⟩ := next_leave s p address
  rw [heq]
  refine ht.replace h s.services (Function.update s.providers p { s.providers p with phase := phase })
    fun htracks _ => htracks.change ?_ ?_
  · refine fun a _ ha => ha.imp_right fun hgoing => hgoing.update ?_
    intro its hits
    rw [hserving] at hits
    cases hits
  · refine fun a ha => .inl ⟨ha, fun hcoming => .inr (hcoming.update (fun e he => he) id ?_)⟩
    intro its hits
    simp [Provider.cleanup, hserving] at hits

theorem Tracked.finish (ht : Tracked name s) (h : Coupled s) {p : Nat} {address : List Byte}
    (henabled : Enabled capacity s (.finish p address)) : Tracked name (next s (.finish p address)) := by
  have hphase : (s.providers p).phase = .erasing address [] := henabled
  refine ht.replace h (s.services.eraseIters address)
    (Function.update s.providers p { s.providers p with phase := .left }) fun htracks _ => htracks.change ?_ ?_
  · refine fun a _ ha => ha.imp_right fun hgoing => hgoing.update ?_
    intro its hits
    rw [hphase] at hits
    cases hits
  · refine fun a ha => .inl ⟨ha, fun hcoming => .inr (hcoming.update (fun e he => he) id ?_)⟩
    intro its hits e _ hin
    simp only [Provider.cleanup, hphase, Option.some.injEq, Prod.mk.injEq] at hits
    rw [← hits.2] at hin
    cases hin

/-! ### Reliable steps -/

/-- From when a list that is not empty has been made for a service: the last registration of an address that the pool
is going to have is erased only if the address is the name of the service.  When it is published that this address has
gone, the registry has the subscription, if the pool would keep the address otherwise, and the address has not been
registered again.  While the registry has the subscription it publishes only an address that is still registered, and
before that only one that the pool is going to have anyway, or that has gone.  And a connection fails only if its
address has gone. -/
def Reliable (name : List Byte) (s : State) (e : Event) : Prop :=
  s.Known name →
    (∀ p address i its, e = .erase p address i its → s.Last name address i → address ∈ s.view name →
      address = name) ∧
    (∀ p its, e = .publish p name its → (name ∈ s.view name → name ∈ s.registered name ∨ s.Subscribed name) ∧
      (s.Subscribed name → name ∈ s.registered name → s.Coming name name)) ∧
    (∀ p address, e = .announce p name address → (s.Subscribed name → address ∈ s.registered name) ∧
      (address ∈ s.registered name → s.Subscribed name ∨ address ∈ s.view name)) ∧
    ∀ c it entry, e = .pool (.relock c it) → (s.pool.calls c).name = name →
      s.pool.connections.deref it = some entry → entry.value ∉ s.registered name

/-- An entry goes, and this is still to be published. -/
theorem Tracked.erase (ht : Tracked name s) (h : Coupled s) {p i : Nat} {address : List Byte} {its : List Nat}
    (henabled : Enabled capacity s (.erase p address i its))
    (hreliable : Reliable name s (.erase p address i its)) : Tracked name (next s (.erase p address i its)) := by
  obtain ⟨hphase, hsome⟩ := henabled
  obtain ⟨services, herase⟩ := Option.isSome_iff_exists.1 hsome
  obtain ⟨hentries, -, -, -⟩ := RpcServiceRegistry.Services.eraseService_eq_some herase
  have hof : s.services.Of address (i :: its) :=
    h.owning.cleanup p address (i :: its) (by simp [Provider.cleanup, hphase])
  have hmem : ∀ e, e ∈ services.services.entries ↔ e ∈ s.services.services.entries ∧ e.node ≠ i := by
    simp [hentries]
  have hregistered : ∀ a, a ∈ (services.services.equalRange name).map Entry.value ↔
      ∃ e ∈ s.services.services.entries, e.key = name ∧ e.value = a ∧ e.node ≠ i := by
    intro a
    simp only [Multimap.equalRange, List.mem_map, List.mem_filter, hmem, decide_eq_true_eq]
    constructor
    · rintro ⟨e, ⟨⟨he, hne⟩, hkey⟩, hvalue⟩
      exact ⟨e, he, hkey, hvalue, hne⟩
    · rintro ⟨e, he, hkey, hvalue, hne⟩
      exact ⟨e, ⟨⟨he, hne⟩, hkey⟩, hvalue⟩
  have hnext : next s (.erase p address i its) = s.replace services (Function.update s.providers p
      { s.providers p with phase := .publishing address its }) := by
    simp only [next, herase]
    rfl
  rw [hnext]
  refine ht.replace h services _ fun htracks hknown => htracks.change ?_ ?_
  · intro a hview ha
    rcases ha with hin | hgoing
    · by_cases hlast : s.Last name address i
      · obtain ⟨e, he, hkey, hvalue⟩ := mem_registered.1 hin
        by_cases hnode : e.node = i
        · have heq : a = address := hvalue.symm.trans ((hof i List.mem_cons_self).2 e he hnode)
          subst heq
          have hname := (hreliable hknown).1 p a i its rfl hlast hview
          exact .inr ⟨hname, p, its, by simp [State.replace]⟩
        · exact .inl ((hregistered a).2 ⟨e, he, hkey, hvalue, hnode⟩)
      · -- another registration of the address stays
        simp only [State.Last, not_forall] at hlast
        obtain ⟨e', he', hkey', hvalue', hnode'⟩ := hlast
        obtain ⟨e, he, hkey, hvalue⟩ := mem_registered.1 hin
        by_cases hnode : e.node = i
        · have heq : a = address := hvalue.symm.trans ((hof i List.mem_cons_self).2 e he hnode)
          exact .inl ((hregistered a).2 ⟨e', he', hkey', hvalue'.trans heq.symm, hnode'⟩)
        · exact .inl ((hregistered a).2 ⟨e, he, hkey, hvalue, hnode⟩)
    · refine .inr (hgoing.update ?_)
      intro its' hits'
      rw [hphase] at hits'
      cases hits'
  · intro a ha
    obtain ⟨e, he, hkey, hvalue, -⟩ := (hregistered a).1 ha
    refine .inl ⟨mem_registered.2 ⟨e, he, hkey, hvalue⟩, fun hcoming => .inr (hcoming.update ?_ id ?_)⟩
    · exact fun e he => ((hmem e).1 he).1
    · intro its' hits' e he hin
      simp only [Provider.cleanup, hphase, Option.some.injEq, Prod.mk.injEq] at hits'
      obtain ⟨rfl, rfl⟩ := hits'
      exact ⟨its, rfl, (List.mem_cons.1 hin).resolve_left ((hmem e).1 he).2⟩

/-- It is published that an address has gone. -/
theorem Tracked.publishOffline (ht : Tracked name s) (h : Coupled s) {p : Nat} {address : List Byte} {its : List Nat}
    (henabled : Enabled capacity s (.publish p address its))
    (hreliable : Reliable name s (.publish p address its)) : Tracked name (next s (.publish p address its)) := by
  have hphase : (s.providers p).phase = .publishing address its := henabled
  obtain ⟨k, hpublished, hk⟩ := publications_changes s 1 ⟨serviceSubscribe ++ address, false, address⟩ name
  have hcoming : ∀ a, s.Coming name a → (s.replace s.services (Function.update s.providers p
      { s.providers p with phase := .erasing address its })).Coming name a := by
    intro a ha
    refine ha.update (fun e he => he) id ?_
    intro its' hits' e _ hin
    simp only [Provider.cleanup, hphase, Option.some.injEq, Prod.mk.injEq] at hits'
    obtain ⟨rfl, rfl⟩ := hits'
    exact ⟨its, rfl, hin⟩
  have hgoing : ∀ a, s.Going name a → a ≠ address → (s.replace s.services (Function.update s.providers p
      { s.providers p with phase := .erasing address its })).Going name a := by
    intro a ha hne
    refine ha.update fun its' hits' => ?_
    rw [hphase] at hits'
    cases hits'
    exact absurd rfl hne
  have hsame := ht.publish h s.services (Function.update s.providers p
    { s.providers p with phase := .erasing address its }) 1 ⟨serviceSubscribe ++ address, false, address⟩ (by
    intro hknown htracks
    rw [hpublished]
    have hkept : Change.Tracks (fun a => a ∈ s.registered name) ((s.replace s.services (Function.update s.providers p
        { s.providers p with phase := .erasing address its })).Coming name) (s.Going name)
        (s.pool.serviceCache name) (s.changes name) :=
      htracks.change (fun a _ ha => ha) (fun a ha => .inl ⟨ha, fun hin => .inr (hcoming a hin)⟩)
    by_cases hzero : k = 0
    · rw [hzero, List.replicate_zero, List.append_nil]
      refine hkept.change ?_ (fun a ha => .inl ⟨ha, .inr⟩)
      intro a hview ha
      refine ha.elim .inl fun hgone => ?_
      by_cases heq : a = address
      · subst heq
        obtain ⟨rfl, -⟩ := id hgone
        have hpublish := ((hreliable hknown).2.1 p its rfl).1 hview
        exact .inl (hpublish.resolve_right fun hsubscribed => hk.2 ⟨by decide, rfl, hsubscribed⟩ hzero)
      · exact .inr (hgoing a hgone heq)
    · obtain ⟨-, hkey, hsubscribed⟩ := hk.1 hzero
      have hname : address = name := List.append_cancel_left hkey
      subst hname
      exact hkept.remove (fun hin => hcoming address (((hreliable hknown).2.1 p its rfl).2 hsubscribed hin)) hgoing
        hzero)
  simpa [next, State.setPhase, State.setProvider, State.told] using hsame

/-- A registration is published. -/
theorem Tracked.announce (ht : Tracked name s) (h : Coupled s) {p : Nat} {name' address : List Byte}
    (henabled : Enabled capacity s (.announce p name' address))
    (hreliable : Reliable name s (.announce p name' address)) : Tracked name (next s (.announce p name' address)) := by
  have hannouncing : (s.providers p).announcing = some (name', address) := henabled
  have hcoming : ∀ a, s.Coming name a → ¬ (name' = name ∧ a = address) → (s.replace s.services
      (Function.update s.providers p { s.providers p with announcing := none })).Coming name a := by
    intro a ha hnot
    refine ha.update (fun e he => he) (fun hp => ?_) fun its hits e _ hin => ⟨its, hits, hin⟩
    rw [hannouncing] at hp
    cases hp
    exact absurd ⟨rfl, rfl⟩ hnot
  have hgoing : ∀ a, s.Going name a → (s.replace s.services
      (Function.update s.providers p { s.providers p with announcing := none })).Going name a :=
    fun a ha => ha.update fun its hits => ⟨its, hits⟩
  obtain ⟨k, hpublished, hk⟩ := publications_changes s 1 ⟨serviceSubscribe ++ name', true, address⟩ name
  have hsame := ht.publish h s.services (Function.update s.providers p { s.providers p with announcing := none }) 1
    ⟨serviceSubscribe ++ name', true, address⟩ (by
    intro hknown htracks
    rw [hpublished]
    have hkept : Change.Tracks (fun a => a ∈ s.registered name) (s.Coming name) ((s.replace s.services
        (Function.update s.providers p { s.providers p with announcing := none })).Going name)
        (s.pool.serviceCache name) (s.changes name) :=
      htracks.change (fun a _ ha => ha.imp_right (hgoing a)) (fun a ha => .inl ⟨ha, .inr⟩)
    by_cases hname : name' = name
    · subst hname
      obtain ⟨-, -, hannounce, -⟩ := hreliable hknown
      obtain ⟨hregistered, htold⟩ := hannounce p address rfl
      by_cases hsubscribed : s.Subscribed name'
      · exact hkept.add (hregistered hsubscribed) (fun b hb hne => hcoming b hb fun h => hne h.2)
          (hk.2 ⟨by decide, rfl, hsubscribed⟩)
      · have hzero : k = 0 := by
          by_contra hne
          exact hsubscribed (hk.1 hne).2.2
        rw [hzero, List.replicate_zero, List.append_nil]
        refine hkept.change (fun a _ ha => ha) fun a ha => .inl ⟨ha, fun hin => ?_⟩
        by_cases heq : a = address
        · subst heq
          exact .inl ((htold ha).resolve_left hsubscribed)
        · exact .inr (hcoming a hin fun h => heq h.2)
    · have hzero : k = 0 := by
        by_contra hne
        exact hname (List.append_cancel_left (hk.1 hne).2.1)
      rw [hzero, List.replicate_zero, List.append_nil]
      exact hkept.change (fun a _ ha => ha) fun a ha => .inl ⟨ha, fun hin => .inr (hcoming a hin fun h => hname h.1)⟩)
  simpa [next, State.setProvider, State.told] using hsame

/-! ### Runs -/

theorem Tracked.next (ht : Tracked name s) (h : Coupled s) {e : Event} (henabled : Enabled capacity s e)
    (hreliable : Reliable name s e) : Tracked name (next s e) := by
  cases e with
  | pool e =>
    cases hc : e.caller with
    | some c =>
      by_cases hstore : ∃ c ret, e = .store c ret
      · obtain ⟨c, ret, rfl⟩ := hstore
        exact ht.store h henabled
      by_cases hrelock : ∃ c it, e = .relock c it
      · obtain ⟨c, it, rfl⟩ := hrelock
        exact ht.relock h henabled fun hknown hname entry hderef =>
          (hreliable hknown).2.2.2 c it entry rfl hname hderef
      exact ht.call h henabled hc (fun c ret heq => hstore ⟨c, ret, heq⟩) (fun c it heq => hrelock ⟨c, it, heq⟩)
    | none =>
      cases e with
      | dispatch m => exact ht.dispatch h henabled
      | push c results => exact ht.push h henabled
      | update name' online address => exact ht.update h henabled
      | reply => exact ht.reply henabled
      | receive | transmit | lose => cases henabled.2.2
      | _ => cases hc
  | transmit m => exact ht.transmit m
  | receive m => exact ht.receive henabled
  | serve m => exact ht.serve henabled
  | answer m => exact ht.answer henabled
  | provider p address => exact ht.provider h p address
  | register p address name' => exact ht.register h henabled
  | announce p name' address => exact ht.announce h henabled hreliable
  | leave p address => exact ht.leave h henabled
  | erase p address i its => exact ht.erase h henabled hreliable
  | publish p address its => exact ht.publishOffline h henabled hreliable
  | finish p address => exact ht.finish h henabled

omit [Host] in
theorem Tracked.init : Tracked name initial := by
  rintro (hhandled | ⟨l, -, hin⟩)
  · cases hhandled
  · cases hin

/-- In a run of reliable steps, when everything has arrived, the registry has the subscription of the pool, and no call
is in `discover` for the service, the cache has just the registered addresses. -/
theorem agreement_of_reaches (h : (machine capacity).Reaches (Reliable name) initial s) (hquiescent : Quiescent s)
    (hsubscribed : s.Subscribed name)
    (hreturned : ∀ c, s.pool.holder = some c → (s.pool.calls c).name = name →
      (s.pool.calls c).phase.inDiscover = false) (a : List Byte) :
    a ∈ s.pool.serviceCache name ↔ a ∈ s.registered name := by
  have hcoupled : Coupled s := coupled_of_reaches h
  have htracked : Tracked name s := by
    refine h.invariant_along (I := Tracked name) ?_ .init
    intro t e t' hreach ht hreliable hstep
    obtain ⟨henabled, rfl⟩ := step_eq_some.1 hstep
    exact ht.next (coupled_of_reaches hreach) henabled hreliable
  obtain ⟨hchannel, hup, hanswer, hdown, hreceiver, hidle⟩ := hquiescent
  have hheld : heldChanges s.pool name = [] := by
    unfold heldChanges
    cases hholder : s.pool.holder with
    | none => rfl
    | some c =>
      by_cases hname : (s.pool.calls c).name = name
      · exact namedChanges_eq_nil (hreturned c hholder hname) name
      · exact if_neg hname
  have hnone : s.changes name = [] := by
    simp [State.changes, hheld, State.incoming, RpcConnectionPool.State.inHand, hreceiver, hdown, hanswer]
  have htracks := htracked (.inl (hcoupled.subscribed _ hsubscribed)) (by rw [hnone]; exact List.Pairwise.nil)
  rw [hnone] at htracks
  refine htracks.mem_iff ?_ ?_ a
  · rintro b hb (⟨p, hp⟩ | hdoomed)
    · rw [(hidle p).1] at hp
      cases hp
    · obtain ⟨e, he, hkey, hvalue⟩ := mem_registered.1 hb
      obtain ⟨p, its, hp, -⟩ := hdoomed e he hkey hvalue
      rw [(hidle p).2] at hp
      cases hp
  · rintro b ⟨-, p, its, hp⟩
    have hcleanup := (hidle p).2
    simp [Provider.cleanup, hp] at hcleanup

/-- A session that has not become a provider does nothing. -/
theorem fresh_of_reaches {Allowed : State → Event → Prop} {p : Nat}
    (hother : ∀ t address, ¬ Allowed t (.provider p address))
    (h : (machine capacity).Reaches Allowed initial s) : s.providers p = .fresh := by
  refine h.invariant (I := fun s => s.providers p = .fresh) ?_ rfl
  intro t e t' ht hallowed hstep
  obtain ⟨henabled, rfl⟩ := step_eq_some.1 hstep
  have hset : ∀ q provider, q ≠ p → (t.setProvider q provider).providers p = .fresh := by
    intro q provider hne
    simp [State.setProvider, Function.update_of_ne hne.symm, ht]
  cases e with
  | pool e => exact ht
  | transmit m => exact ht
  | receive m => exact ht
  | serve m => cases m <;> exact ht
  | answer m => exact ht
  | provider q address =>
    refine hset q _ ?_
    rintro rfl
    exact hother t address hallowed
  | register q address name =>
    refine hset q _ ?_
    rintro rfl
    simp [Enabled, ht, Provider.fresh] at henabled
  | announce q name address =>
    refine hset q _ ?_
    rintro rfl
    simp [Enabled, ht, Provider.fresh] at henabled
  | leave q address =>
    obtain ⟨phase, heq, -⟩ := next_leave t q address
    rw [heq]
    refine hset q _ ?_
    rintro rfl
    simp [Enabled, ht, Provider.fresh] at henabled
  | erase q address i its =>
    have hne : q ≠ p := by
      rintro rfl
      simp [Enabled, ht, Provider.fresh] at henabled
    simp only [Discovery.next]
    split
    · exact hset q _ hne
    · exact ht
  | publish q address its =>
    refine hset q _ ?_
    rintro rfl
    simp [Enabled, ht, Provider.fresh] at henabled
  | finish q address =>
    refine hset q _ ?_
    rintro rfl
    simp [Enabled, ht, Provider.fresh] at henabled

end

/-- The cache and the registry agree after every run, when everything has arrived. -/
def Agreement [Host] : Prop :=
  ∀ capacity name s, 0 < capacity → (machine capacity).Reaches Machine.any initial s → Quiescent s →
    s.Subscribed name →
    (∀ c, s.pool.holder = some c → (s.pool.calls c).name = name → (s.pool.calls c).phase.inDiscover = false) →
    ∀ a, a ∈ s.pool.serviceCache name ↔ a ∈ s.registered name

end Discovery

section

attribute [local instance] Host.zeroed

namespace Discovery

private def firstProvider : IPv4Address := ⟨0x7f000001#32, 80#16⟩

private def secondProvider : IPv4Address := ⟨0x7f000001#32, 81#16⟩

private def firstAnswer : RegistryMessage :=
  .discoverResponse (text "a") [(RpcState.success.code, firstProvider.toString)]

/-- The first call of the service "a", of which the registry knows one address, asks for it. -/
private def asks : List Event :=
  [.pool (.call 1 (text "a")), .pool (.lookCache 1), .pool (.openChannel 1), .pool (.request 1 0),
    .transmit (.discover (text "a")), .serve (.discover (text "a")), .answer firstAnswer]

/-- The call subscribes, and stores the address. -/
private def stores : List Event :=
  [.receive firstAnswer, .pool (.dispatch firstAnswer),
    .pool (.push 1 [(RpcState.success.code, firstProvider.toString)]),
    .pool (.takeResponse 1 0 [(RpcState.success.code, firstProvider.toString)]),
    .pool (.decode 1 0 [(RpcState.success.code, firstProvider.toString)]),
    .pool (.subscribe 1 [firstProvider.toString]), .pool (.requestSubscribe 1 [firstProvider.toString]),
    .transmit (.subscribe (serviceSubscribe ++ text "a")), .serve (.subscribe (serviceSubscribe ++ text "a")),
    .answer .subscribeResponse, .receive .subscribeResponse, .pool (.dispatch .subscribeResponse),
    .pool (.store 1 [firstProvider.toString]), .pool (.connect 1 firstProvider.toString true)]

private theorem quiescent_of_fresh {s : State} (hchannel : s.pool.channel = []) (hup : s.up = [])
    (hanswer : s.answer = none) (hdown : s.down = []) (hreceiver : s.pool.receiver = .reading)
    (hidle : ∀ p, s.providers p = .fresh ∨ (s.providers p).announcing = none ∧ (s.providers p).cleanup = none) :
    Quiescent s := by
  refine ⟨hchannel, hup, hanswer, hdown, hreceiver, ?_⟩
  intro p
  rcases hidle p with hfresh | hnone
  · rw [hfresh]
    exact ⟨rfl, rfl⟩
  · exact hnone

/-- A call discovers the one address of a service. -/
theorem agreement_of_reaches_one :
    ∃ s, (machine 1).Reaches (Reliable (text "a")) initial s ∧ firstProvider.toString ∈ s.registered (text "a") ∧
      (firstProvider.toString ∈ s.pool.serviceCache (text "a") ↔
        firstProvider.toString ∈ s.registered (text "a")) := by
  let Allowed : State → Event → Prop := fun t e =>
    Reliable (text "a") t e ∧ ∀ p address, p ≠ 1 → e ≠ .provider p address
  let s₁ := next (next initial (.provider 1 firstProvider)) (.register 1 firstProvider (text "a"))
  let s₂ := next s₁ (.announce 1 (text "a") firstProvider.toString)
  have hquiet : ∀ t, ∀ e ∈ [Event.provider 1 firstProvider, .register 1 firstProvider (text "a")] ++ (asks ++ stores),
      Allowed t e := by
    intro t e he
    refine ⟨fun _ => ⟨?_, ?_, ?_, ?_⟩, ?_⟩
    · rintro p address i its rfl
      simp [asks, stores] at he
    · rintro p its rfl
      simp [asks, stores] at he
    · rintro p address rfl
      simp [asks, stores] at he
    · rintro c it entry rfl
      simp [asks, stores] at he
    · rintro p address hp rfl
      simp [asks, stores, hp] at he
  have hfirst : (machine 1).Reaches Allowed initial s₁ :=
    Machine.reaches_of_run_forall (fun t e he => hquiet t e (List.mem_append_left _ he)) rfl
  -- the pool has not asked for the service
  have hunknown : ¬ s₁.Known (text "a") := by
    have hhandled : ¬ s₁.Handled (serviceSubscribe ++ text "a") := Bool.false_ne_true
    have hchanges : s₁.changes (text "a") = [] := rfl
    unfold State.Known
    rw [hchanges]
    rintro (hknown | ⟨l, -, hin⟩)
    · exact hhandled hknown
    · cases hin
  have hannounce : Allowed s₁ (.announce 1 (text "a") firstProvider.toString) :=
    ⟨fun hknown => absurd hknown hunknown, fun p address _ heq => by cases heq⟩
  obtain ⟨s, hrest, ⟨hchannel, hup, hanswer, hdown, hreceiver, hidle⟩, hsubscribed, hholder, hregistered⟩ :
      ∃ s, (machine 1).Reaches Allowed s₂ s ∧ (s.pool.channel = [] ∧ s.up = [] ∧ s.answer = none ∧ s.down = [] ∧
        s.pool.receiver = .reading ∧ (s.providers 1).announcing = none ∧ (s.providers 1).cleanup = none) ∧
        (serviceSubscribe ++ text "a", 0) ∈ s.registry.subscribes ∧ s.pool.holder = none ∧
        firstProvider.toString ∈ s.registered (text "a") :=
    Machine.exists_reaches_of_run (asks ++ stores) (fun t e he => hquiet t e (List.mem_append_right _ he))
      (by decide +kernel)
  have hreach : (machine 1).Reaches Allowed initial s := hfirst.trans (.head hannounce rfl hrest)
  have hquiescent : Quiescent s := by
    refine quiescent_of_fresh hchannel hup hanswer hdown hreceiver fun p => ?_
    by_cases hp : p = 1
    · rw [hp]
      exact .inr hidle
    · exact .inl (fresh_of_reaches (fun t address hallowed => hallowed.2 p address hp rfl) hreach)
  have hreliable : (machine 1).Reaches (Reliable (text "a")) initial s := hreach.mono fun _ _ hallowed => hallowed.1
  exact ⟨s, hreliable, hregistered,
    agreement_of_reaches hreliable hquiescent hsubscribed (by simp [hholder]) firstProvider.toString⟩

/-- A second provider registers the service between the answer and the subscription. -/
theorem not_agreement : ¬ Agreement := by
  intro h
  let Allowed : State → Event → Prop := fun _ e => ∀ p address, p ≠ 1 ∧ p ≠ 2 → e ≠ .provider p address
  obtain ⟨s, hreach, ⟨hchannel, hup, hanswer, hdown, hreceiver, hfirst, hsecond⟩, hsubscribed, hholder, hcache,
      hregistered⟩ :
      ∃ s, (machine 1).Reaches Allowed initial s ∧ (s.pool.channel = [] ∧ s.up = [] ∧ s.answer = none ∧ s.down = [] ∧
        s.pool.receiver = .reading ∧ ((s.providers 1).announcing = none ∧ (s.providers 1).cleanup = none) ∧
        (s.providers 2).announcing = none ∧ (s.providers 2).cleanup = none) ∧
        (serviceSubscribe ++ text "a", 0) ∈ s.registry.subscribes ∧ s.pool.holder = none ∧
        s.pool.serviceCache (text "a") = [firstProvider.toString] ∧
        secondProvider.toString ∈ s.registered (text "a") :=
    Machine.exists_reaches_of_run
      ([.provider 1 firstProvider, .register 1 firstProvider (text "a"),
        .announce 1 (text "a") firstProvider.toString] ++ asks ++ [.provider 2 secondProvider,
        .register 2 secondProvider (text "a"), .announce 2 (text "a") secondProvider.toString] ++ stores)
      (by
        rintro t _ he p address ⟨hp, hp'⟩ rfl
        simp [asks, stores, hp, hp'] at he) (by decide +kernel)
  have hquiescent : Quiescent s := by
    refine quiescent_of_fresh hchannel hup hanswer hdown hreceiver fun p => ?_
    by_cases hp : p = 1
    · rw [hp]
      exact .inr hfirst
    by_cases hp' : p = 2
    · rw [hp']
      exact .inr hsecond
    · exact .inl (fresh_of_reaches (fun t address hallowed => hallowed p address ⟨hp, hp'⟩ rfl) hreach)
  have hin := (h 1 (text "a") s (by decide) (hreach.mono fun _ _ _ => trivial) hquiescent hsubscribed
    (by simp [hholder]) secondProvider.toString).2 hregistered
  rw [hcache] at hin
  exact absurd hin (by decide)

end Discovery

end

end AcidCompute

import AcidCompute.Rpc.Registry
import Mathlib.Data.List.Induction

/-!
# The two tables of the registry

`m_iters` lists, for every address, the iterators of just the entries with that address in `m_services`, whatever has
been registered and unregistered (`RpcServiceRegistry.performAll_empty`).  So all of them are valid when the address
goes.  What is published then names the address where the name of the service belongs
(`RpcServiceRegistry.offlinePublished_iff`).
-/

namespace AcidCompute

open AcidCompute.ByteArray

namespace RpcServiceRegistry

namespace Services

/-- `m_iters[a]` -/
def iterators (s : Services) (address : List Byte) : List Nat := (s.iters.lookup address).getD []

/-- Each address has one iterator for each of its entries. -/
structure Consistent (s : Services) : Prop where
  nodup : ∀ a, (s.iterators a).Nodup
  mem_iff : ∀ a i, i ∈ s.iterators a ↔ ∃ e ∈ s.services.entries, e.node = i ∧ e.value = a

theorem Consistent.empty : Consistent empty where
  nodup a := by simp [iterators, Services.empty]
  mem_iff a i := by simp [iterators, Services.empty, Multimap.empty]

/-- An address has one iterator for each of its entries. -/
structure ConsistentAt (s : Services) (a : List Byte) : Prop where
  nodup : (s.iterators a).Nodup
  mem_iff : ∀ i, i ∈ s.iterators a ↔ ∃ e ∈ s.services.entries, e.node = i ∧ e.value = a

variable {s : Services} {name address a : List Byte}

theorem consistent_iff : Consistent s ↔ ∀ a, ConsistentAt s a :=
  ⟨fun h a => ⟨h.nodup a, h.mem_iff a⟩, fun h => ⟨fun a => (h a).nodup, fun a => (h a).mem_iff⟩⟩

/-! ### Registering -/

theorem register_services : (s.register name address).services = (s.services.emplace name address).1 := rfl

theorem iterators_register (a : List Byte) :
    (s.register name address).iterators a =
      if a = address then s.iterators address ++ [s.services.next] else s.iterators a := by
  unfold iterators register
  by_cases ha : a = address
  · subst ha
    simp
  · simp [ha, AList.lookup_insert_ne ha]

theorem ConsistentAt.register (h : ConsistentAt s a) (name address : List Byte) :
    ConsistentAt (s.register name address) a := by
  have hnew : s.services.next ∉ s.iterators a := by
    intro hin
    obtain ⟨e, he, hnode, -⟩ := (h.mem_iff _).1 hin
    exact absurd (s.services.node_lt e he) (by omega)
  constructor
  case nodup =>
    rw [iterators_register]
    by_cases ha : a = address
    · subst ha
      rw [if_pos rfl]
      refine List.nodup_append.2 ⟨h.nodup, List.nodup_singleton _, ?_⟩
      intro i hi j hj heq
      rw [List.mem_singleton.1 hj] at heq
      exact hnew (heq ▸ hi)
    · rw [if_neg ha]
      exact h.nodup
  case mem_iff =>
    intro i
    rw [iterators_register, register_services]
    by_cases ha : a = address
    · subst ha
      rw [if_pos rfl, List.mem_append, List.mem_singleton, h.mem_iff]
      constructor
      · rintro (⟨e, he, hnode, hvalue⟩ | rfl)
        · exact ⟨e, Multimap.mem_emplace.2 (.inr he), hnode, hvalue⟩
        · exact ⟨_, Multimap.mem_emplace.2 (.inl rfl), rfl, rfl⟩
      · rintro ⟨e, he, hnode, hvalue⟩
        rcases Multimap.mem_emplace.1 he with rfl | hold
        · exact .inr hnode.symm
        · exact .inl ⟨e, hold, hnode, hvalue⟩
    · rw [if_neg ha, h.mem_iff]
      constructor
      · rintro ⟨e, he, hnode, hvalue⟩
        exact ⟨e, Multimap.mem_emplace.2 (.inr he), hnode, hvalue⟩
      · rintro ⟨e, he, hnode, hvalue⟩
        rcases Multimap.mem_emplace.1 he with rfl | hold
        · exact absurd hvalue.symm ha
        · exact ⟨e, hold, hnode, hvalue⟩

theorem Consistent.register (h : Consistent s) (name address : List Byte) : Consistent (s.register name address) :=
  consistent_iff.2 fun a => (consistent_iff.1 h a).register name address

/-! ### Unregistering -/

/-- Iterators that are valid and distinct are erased one after another. -/
theorem eraseLoop_spec (address : List Byte) {its : List Nat} (hnodup : its.Nodup)
    {services : Multimap (List Byte) (List Byte)} (hvalid : ∀ i ∈ its, ∃ e ∈ services.entries, e.node = i)
    (published : List Publication) :
    ∃ services', eraseLoop address its services published = .ok (services', published ++
        List.replicate its.length ⟨serviceSubscribe ++ address, false, address⟩) ∧
      services'.entries = services.entries.filter fun e => e.node ∉ its := by
  induction its generalizing services published with
  | nil =>
    refine ⟨services, by simp [eraseLoop, pure, Except.pure], ?_⟩
    simp
  | cons i its ih =>
    obtain ⟨hnotin, hrest⟩ := List.nodup_cons.1 hnodup
    obtain ⟨e, he, rfl⟩ := hvalid i List.mem_cons_self
    obtain ⟨services₁, herase, hentries₁, -⟩ := Multimap.erase_of_mem he
    have hvalid₁ : ∀ j ∈ its, ∃ x ∈ services₁.entries, x.node = j := by
      intro j hj
      obtain ⟨x, hx, hnode⟩ := hvalid j (List.mem_cons_of_mem _ hj)
      refine ⟨x, ?_, hnode⟩
      rw [hentries₁, List.mem_filter]
      refine ⟨hx, ?_⟩
      rw [hnode]
      simpa using ne_of_mem_of_not_mem hj hnotin
    obtain ⟨services', hloop, hentries⟩ :=
      ih hrest hvalid₁ (published ++ [⟨serviceSubscribe ++ address, false, address⟩])
    refine ⟨services', ?_, ?_⟩
    · simp only [eraseLoop, herase, hloop, List.append_assoc, List.length_cons]
      rfl
    · rw [hentries, hentries₁, List.filter_filter]
      apply List.filter_congr
      intro x _
      simp [Bool.and_comm]

theorem iterators_length (h : Consistent s) (a : List Byte) :
    (s.iterators a).length = (s.services.entries.filter fun e => e.value = a).length := by
  have hperm : (s.iterators a).Perm ((s.services.entries.filter fun e => e.value = a).map fun e => e.node) := by
    refine (List.perm_ext_iff_of_nodup (h.nodup a) ?_).2 ?_
    · exact List.Pairwise.map _ (fun _ _ hne => hne) (s.services.nodes_ne.filter _)
    · intro i
      rw [h.mem_iff]
      simp only [List.mem_map, List.mem_filter, decide_eq_true_eq]
      constructor
      · rintro ⟨e, he, hnode, hvalue⟩
        exact ⟨e, ⟨he, hvalue⟩, hnode⟩
      · rintro ⟨e, ⟨he, hvalue⟩, hnode⟩
        exact ⟨e, he, hnode, hvalue⟩
  rw [hperm.length_eq, List.length_map]

theorem iterators_erase (services : Multimap (List Byte) (List Byte)) (address a : List Byte) :
    iterators ⟨services, s.iters.erase address⟩ a = if a = address then [] else s.iterators a := by
  unfold iterators
  by_cases ha : a = address
  · subst ha
    simp
  · simp [ha, AList.lookup_erase_ne ha]

/-- The registrations of one address are gone from both tables. -/
theorem Consistent.without (h : Consistent s) {address : List Byte} {services : Multimap (List Byte) (List Byte)}
    (hgone : services.entries = s.services.entries.filter fun e => e.value ≠ address) :
    Consistent ⟨services, s.iters.erase address⟩ := by
  constructor
  case nodup =>
    intro a
    rw [iterators_erase]
    by_cases ha : a = address
    · simp [ha]
    · rw [if_neg ha]
      exact h.nodup a
  case mem_iff =>
    intro a i
    rw [iterators_erase]
    by_cases ha : a = address
    · rw [if_pos ha]
      constructor
      · intro hin
        cases hin
      · rintro ⟨e, he, -, hvalue⟩
        rw [hgone, List.mem_filter] at he
        exact absurd (hvalue.trans ha) (of_decide_eq_true he.2)
    · rw [if_neg ha, h.mem_iff]
      simp only [hgone, List.mem_filter, decide_eq_true_eq]
      constructor
      · rintro ⟨e, he, hnode, hvalue⟩
        exact ⟨e, ⟨he, fun heq => ha (hvalue.symm.trans heq)⟩, hnode, hvalue⟩
      · rintro ⟨e, ⟨he, -⟩, hnode, hvalue⟩
        exact ⟨e, he, hnode, hvalue⟩

/-- The entries of an address go, one publication for each, and no others. -/
theorem Consistent.unregister (h : Consistent s) (address : List Byte) :
    ∃ s', handleUnregidterService s address = .ok (s',
        List.replicate (s.services.entries.filter fun e => e.value = address).length
          ⟨serviceSubscribe ++ address, false, address⟩) ∧
      s'.services.entries = s.services.entries.filter (fun e => e.value ≠ address) ∧ Consistent s' := by
  rw [← iterators_length h]
  cases hlookup : s.iters.lookup address with
  | none =>
    have hnone : s.iterators address = [] := by simp [iterators, hlookup]
    refine ⟨s, ?_, ?_, h⟩
    · simp [handleUnregidterService, hlookup, hnone, pure, Except.pure]
    · rw [eq_comm, List.filter_eq_self]
      intro e he
      have hnot : e.value ≠ address := by
        intro hvalue
        have hin := (h.mem_iff address e.node).2 ⟨e, he, rfl, hvalue⟩
        rw [hnone] at hin
        cases hin
      simpa using hnot
  | some its =>
    have hits : s.iterators address = its := by simp [iterators, hlookup]
    have hvalid : ∀ i ∈ its, ∃ e ∈ s.services.entries, e.node = i := by
      intro i hi
      obtain ⟨e, he, hnode, -⟩ := (h.mem_iff address i).1 (hits ▸ hi)
      exact ⟨e, he, hnode⟩
    obtain ⟨services, hloop, hentries⟩ := eraseLoop_spec address (hits ▸ h.nodup address) hvalid []
    have hgone : services.entries = s.services.entries.filter fun e => e.value ≠ address := by
      rw [hentries]
      apply List.filter_congr
      intro e he
      rw [← hits, decide_eq_decide, not_iff_not, h.mem_iff]
      constructor
      · rintro ⟨x, hx, hnode, hvalue⟩
        rwa [← Multimap.eq_of_node hx he hnode]
      · intro hvalue
        exact ⟨e, he, rfl, hvalue⟩
    refine ⟨⟨services, s.iters.erase address⟩, ?_, hgone, ?_⟩
    · rw [handleUnregidterService, hlookup, hits]
      simp only [hloop, List.nil_append]
      rfl
    · exact h.without hgone

/-! ### One step of `handle_unregidter_service` after another -/

/-- Iterators of entries with an address, some of which may be gone. -/
def Of (s : Services) (address : List Byte) (its : List Nat) : Prop :=
  ∀ i ∈ its, i < s.services.next ∧ ∀ e ∈ s.services.entries, e.node = i → e.value = address

/-- Every address has iterators of its own entries. -/
def Owned (s : Services) : Prop := ∀ a, s.Of a (s.iterators a)

theorem Of.tail {i : Nat} {its : List Nat} (h : s.Of address (i :: its)) : s.Of address its :=
  fun j hj => h j (List.mem_cons_of_mem i hj)

theorem Of.register {a : List Byte} {its : List Nat} (h : s.Of a its) (name address : List Byte) :
    (s.register name address).Of a its := by
  intro i hi
  obtain ⟨hlt, hvalue⟩ := h i hi
  refine ⟨Nat.lt_succ_of_lt hlt, ?_⟩
  intro e he hnode
  rcases Multimap.mem_emplace.1 he with rfl | hold
  · exact absurd hnode (Nat.ne_of_gt hlt)
  · exact hvalue e hold hnode

theorem Owned.empty : Owned .empty := by
  intro a i hi
  cases hi

theorem Owned.register (h : Owned s) (name address : List Byte) : Owned (s.register name address) := by
  intro a i hi
  rw [iterators_register] at hi
  by_cases ha : a = address
  · subst ha
    rw [if_pos rfl, List.mem_append, List.mem_singleton] at hi
    rcases hi with hold | rfl
    · exact (h a).register name a i hold
    · refine ⟨Nat.lt_succ_self _, ?_⟩
      intro e he hnode
      rcases Multimap.mem_emplace.1 he with rfl | hold
      · rfl
      · exact absurd hnode (Nat.ne_of_lt (s.services.node_lt e hold))
  · rw [if_neg ha] at hi
    exact (h a).register name address i hi

theorem eraseService_eq_some {s' : Services} {i : Nat} (h : s.eraseService i = some s') :
    s'.services.entries = s.services.entries.filter (fun e => e.node ≠ i) ∧ s'.services.next = s.services.next ∧
      s'.iters = s.iters ∧ ∃ e ∈ s.services.entries, e.node = i := by
  obtain ⟨services, herase, rfl⟩ := Option.map_eq_some_iff.1 h
  unfold Multimap.erase at herase
  split at herase
  · rename_i hany
    obtain ⟨e, he, hnode⟩ := List.any_eq_true.1 hany
    cases herase
    exact ⟨rfl, rfl, rfl, e, he, of_decide_eq_true hnode⟩
  · cases herase

theorem Of.eraseService {s' : Services} {i : Nat} {a : List Byte} {its : List Nat} (h : s.Of a its)
    (herase : s.eraseService i = some s') : s'.Of a its := by
  obtain ⟨hentries, hnext, -, -⟩ := eraseService_eq_some herase
  intro j hj
  obtain ⟨hlt, hvalue⟩ := h j hj
  refine ⟨hnext ▸ hlt, ?_⟩
  intro e he hnode
  rw [hentries] at he
  exact hvalue e (List.mem_filter.1 he).1 hnode

theorem Owned.eraseService {s' : Services} {i : Nat} (h : Owned s) (herase : s.eraseService i = some s') :
    Owned s' := by
  obtain ⟨-, -, hiters, -⟩ := eraseService_eq_some herase
  intro a
  have hsame : s'.iterators a = s.iterators a := by
    unfold iterators
    rw [hiters]
  rw [hsame]
  exact (h a).eraseService herase

theorem Owned.eraseIters (h : Owned s) (address : List Byte) : Owned (s.eraseIters address) := by
  intro a i hi
  have hold : i ∈ s.iterators a := by
    unfold Services.eraseIters at hi
    rw [iterators_erase] at hi
    split at hi
    · cases hi
    · exact hi
  exact h a i hold

/-- The entry of another address is erased. -/
theorem ConsistentAt.eraseService {s' : Services} {i : Nat} (h : ConsistentAt s a)
    (herase : s.eraseService i = some s') (hother : ∀ e ∈ s.services.entries, e.node = i → e.value ≠ a) :
    ConsistentAt s' a := by
  obtain ⟨hentries, -, hiters, -⟩ := eraseService_eq_some herase
  have hsame : s'.iterators a = s.iterators a := by
    unfold iterators
    rw [hiters]
  refine ⟨hsame ▸ h.nodup, fun j => ?_⟩
  rw [hsame, h.mem_iff, hentries]
  constructor
  · rintro ⟨e, he, hnode, hvalue⟩
    exact ⟨e, List.mem_filter.2 ⟨he, decide_eq_true fun heq => hother e he heq hvalue⟩, hnode, hvalue⟩
  · rintro ⟨e, he, hnode, hvalue⟩
    exact ⟨e, (List.mem_filter.1 he).1, hnode, hvalue⟩

/-- An address is forgotten when it has no entries left. -/
theorem ConsistentAt.eraseIters (h : a ≠ address → ConsistentAt s a)
    (hnone : a = address → ∀ e ∈ s.services.entries, e.value ≠ a) : ConsistentAt (s.eraseIters address) a := by
  have hiterators : (s.eraseIters address).iterators a = if a = address then [] else s.iterators a :=
    iterators_erase s.services address a
  by_cases ha : a = address
  · rw [if_pos ha] at hiterators
    refine ⟨hiterators ▸ List.nodup_nil, fun i => ?_⟩
    rw [hiterators]
    refine iff_of_false List.not_mem_nil ?_
    rintro ⟨e, he, -, hvalue⟩
    exact hnone ha e he hvalue
  · rw [if_neg ha] at hiterators
    refine ⟨hiterators ▸ (h ha).nodup, fun i => ?_⟩
    rw [hiterators, (h ha).mem_iff]
    rfl

/-- Where nobody else changes the tables, the steps do what the handler does. -/
theorem eraseLoop_cons {i : Nat} {its : List Nat} {s' : Services} (herase : s.eraseService i = some s')
    (published : List Publication) :
    eraseLoop address (i :: its) s.services published =
      eraseLoop address its s'.services (published ++ [⟨serviceSubscribe ++ address, false, address⟩]) := by
  obtain ⟨services, hservices, rfl⟩ := Option.map_eq_some_iff.1 herase
  simp only [eraseLoop, hservices]

end Services

/-! ### Sequences of calls -/

/-- A call that changes the tables. -/
inductive RegistryCall
  | register (name address : List Byte)
  | unregister (address : List Byte)
  deriving DecidableEq, Repr

namespace RegistryCall

def perform (s : Services) : RegistryCall → Except Undefined Services
  | register name address => return s.register name address
  | unregister address => (handleUnregidterService s address).map Prod.fst

/-- Calls one after another. -/
def performAll : List RegistryCall → Services → Except Undefined Services
  | [], s => return s
  | c :: cs, s => perform s c >>= performAll cs

/-- The registrations, in order, whose address has not been unregistered since. -/
def registrations : List RegistryCall → List (List Byte × List Byte)
  | [] => []
  | register name address :: cs =>
    if unregister address ∈ cs then registrations cs else (name, address) :: registrations cs
  | unregister _ :: cs => registrations cs

theorem registrations_register (cs : List RegistryCall) (name address : List Byte) :
    registrations (cs ++ [register name address]) = registrations cs ++ [(name, address)] := by
  induction cs with
  | nil => rfl
  | cons c cs ih =>
    cases c with
    | register n a =>
      by_cases hin : unregister a ∈ cs <;> simp [registrations, ih, hin]
    | unregister a => simpa [registrations] using ih

theorem registrations_unregister (cs : List RegistryCall) (address : List Byte) :
    registrations (cs ++ [unregister address]) = (registrations cs).filter fun r => r.2 ≠ address := by
  induction cs with
  | nil => rfl
  | cons c cs ih =>
    cases c with
    | register n a =>
      by_cases hin : unregister a ∈ cs
      · simpa [registrations, hin] using ih
      · by_cases ha : a = address
        · subst ha
          simp [registrations, ih, hin]
        · simp [registrations, ih, hin, ha]
    | unregister a => simpa [registrations] using ih

theorem performAll_append (cs cs' : List RegistryCall) (s : Services) :
    performAll (cs ++ cs') s = performAll cs s >>= performAll cs' := by
  induction cs generalizing s with
  | nil => rfl
  | cons c cs ih =>
    show (perform s c >>= performAll (cs ++ cs')) = (perform s c >>= performAll cs) >>= performAll cs'
    cases perform s c with
    | error u => rfl
    | ok s' => exact ih s'

/-- What a list of calls leaves in the tables. -/
private theorem performAll_spec (calls : List RegistryCall) :
    ∃ s, performAll calls .empty = .ok s ∧ s.Consistent ∧ ∀ name,
      (s.services.equalRange name).map (fun e => e.value) =
        ((registrations calls).filter fun r => r.1 = name).map Prod.snd := by
  induction calls using List.reverseRecOn with
  | nil => exact ⟨.empty, rfl, .empty, fun name => rfl⟩
  | append_singleton cs c ih =>
    obtain ⟨s, hrun, hs, hlist⟩ := ih
    rw [performAll_append, hrun]
    cases c with
    | register n a =>
      refine ⟨s.register n a, rfl, hs.register n a, ?_⟩
      intro name
      rw [Services.register_services, Multimap.equalRange_emplace, List.map_append, hlist name, registrations_register,
        List.filter_append, List.map_append]
      by_cases hn : n = name <;> simp [hn]
    | unregister a =>
      obtain ⟨s', heq, hentries, hs'⟩ := hs.unregister a
      refine ⟨s', ?_, hs', ?_⟩
      · show (perform s (unregister a) >>= performAll []) = _
        rw [perform, heq]
        rfl
      · intro name
        have hrange : s'.services.equalRange name = (s.services.equalRange name).filter fun e => e.value ≠ a := by
          simp only [Multimap.equalRange, hentries, List.filter_filter, Bool.and_comm]
        have hmap : ∀ l : List (Entry (List Byte) (List Byte)),
            (l.filter fun e => e.value ≠ a).map (fun e => e.value) =
              (l.map fun e => e.value).filter (fun v => v ≠ a) := by
          intro l
          rw [List.filter_map]
          rfl
        rw [hrange, hmap, hlist name, registrations_unregister, List.filter_map, List.filter_filter,
          List.filter_filter]
        congr 1
        apply List.filter_congr
        intro r _
        exact Bool.and_comm _ _

/-- Whatever has been called on an empty registry, every address has the iterators of its entries, and a service is
found at the addresses that have been registered for it and not unregistered since. -/
theorem performAll_empty [Host] (calls : List RegistryCall) :
    ∃ s, performAll calls .empty = .ok s ∧
      (∀ a, (s.iterators a).Nodup ∧ ∀ i, i ∈ s.iterators a ↔ ∃ e ∈ s.services.entries, e.node = i ∧ e.value = a) ∧
      ∀ name, discoverResults s name =
        if (registrations calls).filter (fun r => r.1 = name) = [] then [notFound name]
        else ((registrations calls).filter fun r => r.1 = name).map fun r => found r.2 := by
  obtain ⟨s, hrun, hs, hlist⟩ := performAll_spec calls
  refine ⟨s, hrun, fun a => ⟨hs.nodup a, hs.mem_iff a⟩, ?_⟩
  intro name
  have hname := hlist name
  unfold discoverResults
  cases hrange : s.services.equalRange name with
  | nil =>
    have hnone : (registrations calls).filter (fun r => r.1 = name) = [] := by
      rw [hrange, List.map_nil, eq_comm, List.map_eq_nil_iff] at hname
      exact hname
    rw [if_pos hnone]
  | cons e range =>
    rw [hrange] at hname
    have hsome : (registrations calls).filter (fun r => r.1 = name) ≠ [] := by
      intro hnone
      rw [hnone] at hname
      cases hname
    rw [if_neg hsome]
    have hfound := congrArg (List.map found) hname
    rw [List.map_map, List.map_map] at hfound
    exact hfound

end RegistryCall

/-- Two services at one address, of which the second is registered twice. -/
example : RegistryCall.registrations [.register [1] [8], .unregister [8], .register [2] [8], .register [2] [8]] =
    [([2], [8]), ([2], [8])] := by decide

section

variable [Host]

/-- The handler does to the tables what `register` does, and announces the address under the name of the service. -/
theorem handleRegisterService_eq (s : Services) (proto : Protocol) (address : IPv4Address)
    (hlen : proto.content.length < 2 ^ 32) :
    ∃ response, handleRegisterService s proto (some address) =
      .ok (s.register proto.content address.toString, response,
        ⟨serviceSubscribe ++ proto.content, true, address.toString⟩) := by
  let res : Result (CppType.scalar .string) := { Result.succeeded (CppType.scalar .string) with value := proto.content }
  have hlength : (res.bytes (Format.scalar .string : Format .big _)).length + Serializer.defaultBaseSize ≤
      addressSpace := by
    rw [Result.length_bytes]
    have hmessage : (stringVint (text "success")).length = 8 := by decide
    have hvalue : (stringVint proto.content).length ≤ 10 + proto.content.length := by
      rw [stringVint, List.length_append]
      have hvint := length_varint_le 9 (by decide) (BitVec.ofNat 64 proto.content.length)
      omega
    show 2 + (stringVint (text "success")).length + (stringVint proto.content).length + _ ≤ _
    unfold Serializer.defaultBaseSize addressSpace
    omega
  obtain ⟨b, b', b'', hnew, hexec, hstring⟩ :=
    Serializer.write_toString (Result.writes_write (.scalar .string) res) hlength
  refine ⟨Protocol.create .rpcServiceRegisterResponse (res.bytes (Format.scalar .string : Format .big _)) 0, ?_⟩
  unfold handleRegisterService
  rw [hnew]
  show (Op.exec _ b >>= _ : Except Fault (Services × Protocol × Publication)) = _
  rw [hexec]
  show (Op.exec ByteArray.toString b' >>= _ : Except Fault (Services × Protocol × Publication)) = _
  rw [hstring]
  rfl

/-- Whatever is registered, and whether or not the response can be made. -/
theorem handleRegisterService_consistent {s s' : Services} {proto response : Protocol} {address : Option IPv4Address}
    {p : Publication} (hs : s.Consistent) (h : handleRegisterService s proto address = .ok (s', response, p)) :
    s'.Consistent := by
  cases address with
  | none => cases h
  | some address =>
    obtain ⟨serializer, -, h⟩ := ok_of_bind_ok h
    obtain ⟨written, -, h⟩ := ok_of_bind_ok h
    obtain ⟨content, -, h⟩ := ok_of_bind_ok h
    cases h
    exact hs.register proto.content address.toString

end

/-! ### What is published when an address goes -/

/-- Each service at the address is announced to be offline under its key, and the sessions that have subscribed to it
are told. -/
def OfflinePublished (registry : RpcServiceRegistry) (reachable : Nat → Bool) (s : Services) (address : List Byte) :
    Prop :=
  ∃ s' published, handleUnregidterService s address = .ok (s', published) ∧
    published.Perm ((s.services.entries.filter fun e => e.value = address).map fun e =>
      ⟨serviceSubscribe ++ e.key, false, address⟩) ∧
    ∀ e ∈ s.services.entries, e.value = address → ∀ c, (serviceSubscribe ++ e.key, c) ∈ registry.subscribes →
      reachable c = true →
      (c, Protocol.create .rpcPublishRequest (Publication.content ⟨serviceSubscribe ++ e.key, false, address⟩) 0) ∈
        published.flatMap fun p => registry.publish reachable p.key p.content

/-- The key of the message is made from the address, so that it is the key of the service only where the service is
named like its address. -/
theorem offlinePublished_iff (registry : RpcServiceRegistry) (reachable : Nat → Bool) {s : Services}
    (h : s.Consistent) (address : List Byte) :
    OfflinePublished registry reachable s address ↔
      ∀ e ∈ s.services.entries, e.value = address → e.key = address := by
  obtain ⟨s', heq, -, -⟩ := h.unregister address
  constructor
  · rintro ⟨s'', published, heq', hperm, -⟩ e he hvalue
    rw [heq] at heq'
    cases heq'
    have hin : (⟨serviceSubscribe ++ e.key, false, address⟩ : Publication) ∈
        (s.services.entries.filter fun e => e.value = address).map fun e =>
          ⟨serviceSubscribe ++ e.key, false, address⟩ :=
      List.mem_map.2 ⟨e, List.mem_filter.2 ⟨he, decide_eq_true hvalue⟩, rfl⟩
    have hsame := (List.mem_replicate.1 (hperm.mem_iff.2 hin)).2
    exact List.append_cancel_left (congrArg Publication.key hsame)
  · intro hnamed
    refine ⟨s', _, heq, ?_, ?_⟩
    · apply List.Perm.of_eq
      rw [eq_comm, List.eq_replicate_iff]
      refine ⟨List.length_map _, ?_⟩
      intro p hp
      obtain ⟨e, he, rfl⟩ := List.mem_map.1 hp
      obtain ⟨hmem, hvalue⟩ := List.mem_filter.1 he
      rw [hnamed e hmem (of_decide_eq_true hvalue)]
    · intro e he hvalue c hsub hreach
      rw [hnamed e he hvalue] at hsub ⊢
      refine List.mem_flatMap.2 ⟨⟨serviceSubscribe ++ address, false, address⟩, ?_, ?_⟩
      · have hin : e ∈ s.services.entries.filter fun e => e.value = address :=
          List.mem_filter.2 ⟨he, decide_eq_true hvalue⟩
        exact List.mem_replicate.2 ⟨Nat.ne_of_gt (List.length_pos_of_mem hin), rfl⟩
      · exact mem_publish.2 ⟨hsub, hreach, rfl⟩

/-- A service that is registered and unregistered at one address. -/
theorem offlinePublished_iff_one :
    OfflinePublished ⟨[]⟩ (fun _ => true) (Services.empty.register [97] [97]) [97] :=
  (offlinePublished_iff ⟨[]⟩ (fun _ => true) (Services.Consistent.empty.register [97] [97]) [97]).2 (by decide)

/-- The subscriber of the service "a" is not told that its address has gone. -/
theorem not_offlinePublished :
    ¬ OfflinePublished ⟨[(serviceSubscribe ++ text "a", 1)]⟩ (fun _ => true)
      (Services.empty.register (text "a") (text "127.0.0.1:80")) (text "127.0.0.1:80") := by
  rintro ⟨s', published, heq, hperm, -⟩
  cases heq
  exact absurd (hperm.mem_iff.1 List.mem_cons_self) (by decide)

end RpcServiceRegistry

end AcidCompute

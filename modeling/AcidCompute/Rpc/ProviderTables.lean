import AcidCompute.Rpc.Provider

/-!
# What servers have registered

Every entry of the tables belongs to a session that has entered it and not erased it, and nobody else erases it, as long
as no session has the provider address of another one that leaves.  So the registry knows all methods of a server that
has started, and each of them once (`Provider.provided_of_reaches`).
-/

namespace AcidCompute

open AcidCompute.ByteArray

namespace Provider

open RpcServiceRegistry RpcServer

@[simp] theorem setPeer_peers {n : Nat} (s : State n) (p q : Fin n) (peer : Peer) :
    (s.setPeer p peer).peers q = if q = p then peer else s.peers q := by
  simp [State.setPeer, Function.update_apply]

/-- The tables hold what the sessions have entered and not erased. -/
structure Kept [Host] {n : Nat} (config : Fin n → Config) (s : State n) : Prop where
  sound : ∀ p, Sound (config p) (s.peers p)
  crashed : s.crashed = false
  present : ∀ p, ∀ e ∈ (s.peers p).entered, e ∈ s.services.services.entries
  owned : ∀ e ∈ s.services.services.entries, ∃ p, e ∈ (s.peers p).entered
  nodup : ∀ p, (s.peers p).entered.Nodup
  finished : ∀ p, (s.peers p).cleanup = .finished → (s.peers p).entered = []
  -- what is still to be erased
  erasing : ∀ p its, (s.peers p).cleanup = .erasing its →
    its.Nodup ∧ ∀ i, i ∈ its ↔ ∃ e ∈ (s.peers p).entered, e.node = i
  apart : ∀ p, (s.peers p).cleanup.isErasing = true → (s.peers p).key ≠ none ∧
    ∀ q, q ≠ p → (s.peers q).cleanup ≠ .finished → (s.peers q).key ≠ (s.peers p).key
  -- the iterators of an address, unless it is erased
  iterators : ∀ a, (∀ p, (s.peers p).cleanup.isErasing = true → (s.peers p).key ≠ some a) →
    s.services.ConsistentAt a

variable [Host] {n : Nat} {config : Fin n → Config} {s s' : State n} {e : Event n}

theorem Kept.initial : Kept config .initial where
  sound p := .initial (config p)
  crashed := rfl
  present p e he := by cases he
  owned e he := by cases he
  nodup p := List.nodup_nil
  finished p h := rfl
  erasing p its h := by cases h
  apart p h := by cases h
  iterators a _ := Services.consistent_iff.1 .empty a

/-- What a session has entered is entered for its provider address. -/
private theorem Kept.key (h : Kept config s) {q : Fin n} {entry : Entry (List Byte) (List Byte)}
    (he : entry ∈ (s.peers q).entered) :
    (s.peers q).key = some entry.value ∧ (s.peers q).cleanup ≠ .finished := by
  constructor
  · cases hprovider : (s.peers q).provider with
    | none =>
      rw [((h.sound q).unannounced hprovider).1] at he
      cases he
    | some a =>
      rw [Peer.key, hprovider, ((h.sound q).announced a hprovider).1, ((h.sound q).entered entry he).1]
      rfl
  · intro hfinished
    rw [h.finished q hfinished] at he
    cases he

omit [Host] in
/-- What holds of the server that takes a step and of the others. -/
private theorem forall_setPeer {P : Fin n → Peer → Prop} {p : Fin n} {peer : Peer} (hself : P p peer)
    (hothers : ∀ q, q ≠ p → P q (s.peers q)) : ∀ q, P q ((s.setPeer p peer).peers q) :=
  (Function.forall_update_iff s.peers P).2 ⟨hself, hothers⟩

/-- A step of one server that leaves the tables alone. -/
private theorem Kept.setPeer (h : Kept config s) {p : Fin n} {peer : Peer} (hsound : Sound (config p) peer)
    (hentered : peer.entered = (s.peers p).entered) (hcleanup : peer.cleanup = (s.peers p).cleanup)
    (hkey : peer.key = (s.peers p).key ∨ (s.peers p).cleanup = .serving ∧
      ∀ q, q ≠ p → (s.peers q).cleanup.isErasing = true → (s.peers q).key ≠ peer.key) :
    Kept config (s.setPeer p peer) := by
  have hsame : ∀ q, ((s.setPeer p peer).peers q).entered = (s.peers q).entered ∧
      ((s.setPeer p peer).peers q).cleanup = (s.peers q).cleanup :=
    forall_setPeer (P := fun q peer => peer.entered = (s.peers q).entered ∧ peer.cleanup = (s.peers q).cleanup)
      ⟨hentered, hcleanup⟩ fun _ _ => ⟨rfl, rfl⟩
  -- a session that erases has kept its key
  have herasing : ∀ q, (s.peers q).cleanup.isErasing = true → ((s.setPeer p peer).peers q).key = (s.peers q).key := by
    intro q hq
    rw [setPeer_peers]
    split
    case isTrue heq =>
      subst heq
      rcases hkey with hkey | ⟨hserving, -⟩
      · exact hkey
      · rw [hserving] at hq
        cases hq
    case isFalse => rfl
  constructor
  case sound => exact forall_setPeer (P := fun q => Sound (config q)) hsound fun q _ => h.sound q
  case crashed => exact h.crashed
  case present =>
    intro q e he
    rw [(hsame q).1] at he
    exact h.present q e he
  case owned =>
    intro e he
    obtain ⟨q, hq⟩ := h.owned e he
    exact ⟨q, (hsame q).1.symm ▸ hq⟩
  case nodup =>
    intro q
    rw [(hsame q).1]
    exact h.nodup q
  case finished =>
    intro q hq
    rw [(hsame q).2] at hq
    rw [(hsame q).1]
    exact h.finished q hq
  case erasing =>
    intro q its hq
    rw [(hsame q).2] at hq
    rw [(hsame q).1]
    exact h.erasing q its hq
  case apart =>
    intro q hq
    rw [(hsame q).2] at hq
    rw [herasing q hq]
    obtain ⟨hsome, hothers⟩ := h.apart q hq
    refine ⟨hsome, fun r hne hr => ?_⟩
    rw [(hsame r).2] at hr
    rw [setPeer_peers]
    split
    case isTrue heq =>
      subst heq
      rcases hkey with hkey | ⟨-, hnew⟩
      · rw [hkey]
        exact hothers r hne hr
      · exact (hnew q hne.symm hq).symm
    case isFalse => exact hothers r hne hr
  case iterators =>
    intro a ha
    refine h.iterators a fun q hq => ?_
    rw [← herasing q hq]
    exact ha q ((hsame q).2.symm ▸ hq)

/-- A service is entered by a session that serves. -/
private theorem Kept.enter (h : Kept config s) {p : Fin n} {peer : Peer} {name address : List Byte}
    (hsound : Sound (config p) peer) (hserving : (s.peers p).cleanup = .serving)
    (hcleanup : peer.cleanup = (s.peers p).cleanup) (hkey : peer.key = (s.peers p).key)
    (hentered : peer.entered = (s.peers p).entered ++ [⟨name, s.services.services.next, address⟩]) :
    Kept config { s.setPeer p peer with services := s.services.register name address } := by
  have hnew : (⟨name, s.services.services.next, address⟩ : Entry (List Byte) (List Byte)) ∉
      s.services.services.entries := fun hin => Nat.lt_irrefl _ (s.services.services.node_lt _ hin)
  have hsame : ∀ q, ((s.setPeer p peer).peers q).cleanup = (s.peers q).cleanup ∧
      ((s.setPeer p peer).peers q).key = (s.peers q).key :=
    forall_setPeer (P := fun q peer => peer.cleanup = (s.peers q).cleanup ∧ peer.key = (s.peers q).key)
      ⟨hcleanup, hkey⟩ fun _ _ => ⟨rfl, rfl⟩
  have hother : ∀ q, q ≠ p → ((s.setPeer p peer).peers q).entered = (s.peers q).entered := by
    intro q hne
    rw [setPeer_peers, if_neg hne]
  have hself : ((s.setPeer p peer).peers p).entered =
      (s.peers p).entered ++ [⟨name, s.services.services.next, address⟩] := by
    rw [setPeer_peers, if_pos rfl, hentered]
  constructor
  case sound => exact forall_setPeer (P := fun q => Sound (config q)) hsound fun q _ => h.sound q
  case crashed => exact h.crashed
  case present =>
    intro q e he
    show e ∈ (s.services.services.emplace name address).1.entries
    change e ∈ ((s.setPeer p peer).peers q).entered at he
    by_cases heq : q = p
    · rw [heq, hself] at he
      rcases List.mem_append.1 he with he | he
      · exact Multimap.mem_emplace.2 (.inr (h.present p e he))
      · exact Multimap.mem_emplace.2 (.inl (List.mem_singleton.1 he))
    · rw [hother q heq] at he
      exact Multimap.mem_emplace.2 (.inr (h.present q e he))
  case owned =>
    intro e he
    show ∃ q, e ∈ ((s.setPeer p peer).peers q).entered
    rcases Multimap.mem_emplace.1 he with rfl | he
    · exact ⟨p, hself ▸ List.mem_append_right _ (List.mem_singleton_self _)⟩
    · obtain ⟨q, hq⟩ := h.owned e he
      refine ⟨q, ?_⟩
      by_cases heq : q = p
      · rw [heq, hself]
        exact List.mem_append_left _ (heq ▸ hq)
      · rw [hother q heq]
        exact hq
  case nodup =>
    refine forall_setPeer (P := fun _ peer => peer.entered.Nodup) ?_ fun q _ => h.nodup q
    rw [hentered, List.nodup_append]
    refine ⟨h.nodup p, List.nodup_singleton _, ?_⟩
    rintro e he e' he' rfl
    rw [List.mem_singleton.1 he'] at he
    exact hnew (h.present p _ he)
  case finished =>
    refine forall_setPeer (P := fun _ peer => peer.cleanup = .finished → peer.entered = []) ?_ fun q _ => h.finished q
    rw [hcleanup, hserving]
    rintro ⟨⟩
  case erasing =>
    refine forall_setPeer (P := fun _ peer => ∀ its, peer.cleanup = .erasing its →
      its.Nodup ∧ ∀ i, i ∈ its ↔ ∃ e ∈ peer.entered, e.node = i) ?_ fun q _ => h.erasing q
    rw [hcleanup, hserving]
    rintro its ⟨⟩
  case apart =>
    intro q hq
    change ((s.setPeer p peer).peers q).cleanup.isErasing = true at hq
    show ((s.setPeer p peer).peers q).key ≠ none ∧ ∀ r, r ≠ q → ((s.setPeer p peer).peers r).cleanup ≠ .finished →
      ((s.setPeer p peer).peers r).key ≠ ((s.setPeer p peer).peers q).key
    rw [(hsame q).1] at hq
    rw [(hsame q).2]
    obtain ⟨hsome, hothers⟩ := h.apart q hq
    refine ⟨hsome, fun r hne hr => ?_⟩
    rw [(hsame r).1] at hr
    rw [(hsame r).2]
    exact hothers r hne hr
  case iterators =>
    intro a ha
    refine (h.iterators a fun q hq => ?_).register name address
    rw [← (hsame q).2]
    exact ha q ((hsame q).1.symm ▸ hq)

/-- A session that serves is the only one with its address that has not finished, so that its entries are those of the
address. -/
private theorem Kept.mem_entered_iff (h : Kept config s) {p : Fin n} {a : List Byte} (hkey : (s.peers p).key = some a)
    (hapart : ∀ q, q ≠ p → (s.peers q).cleanup ≠ .finished → (s.peers q).key ≠ some a)
    (e : Entry (List Byte) (List Byte)) :
    e ∈ (s.peers p).entered ↔ e ∈ s.services.services.entries ∧ e.value = a := by
  constructor
  · intro he
    have hvalue := (h.key he).1
    rw [hkey, Option.some.injEq] at hvalue
    exact ⟨h.present p e he, hvalue.symm⟩
  · rintro ⟨he, rfl⟩
    obtain ⟨q, hq⟩ := h.owned e he
    obtain ⟨hvalue, hfinished⟩ := h.key hq
    by_cases heq : q = p
    · exact heq ▸ hq
    · exact absurd hvalue (hapart q heq hfinished)

/-- The cleanup of one session goes on, and what the others have entered stays. -/
private theorem Kept.cleanUp (h : Kept config s) {p : Fin n} {peer : Peer} {services : Services}
    (keep : Entry (List Byte) (List Byte) → Bool) (hsound : Sound (config p) peer) (hkey : peer.key = (s.peers p).key)
    (hentries : services.services.entries = s.services.services.entries.filter keep)
    (hentered : peer.entered = (s.peers p).entered.filter keep)
    (hothers : ∀ q, q ≠ p → ∀ e ∈ (s.peers q).entered, keep e = true) (hunfinished : (s.peers p).cleanup ≠ .finished)
    (hfinished : peer.cleanup = .finished → peer.entered = [])
    (herasing : ∀ its, peer.cleanup = .erasing its → its.Nodup ∧ ∀ i, i ∈ its ↔ ∃ e ∈ peer.entered, e.node = i)
    (hapart : peer.cleanup.isErasing = true → (s.peers p).key ≠ none ∧
      ∀ q, q ≠ p → (s.peers q).cleanup ≠ .finished → (s.peers q).key ≠ (s.peers p).key)
    (hiterators : ∀ a, (∀ q, ((s.setPeer p peer).peers q).cleanup.isErasing = true →
      ((s.setPeer p peer).peers q).key ≠ some a) → services.ConsistentAt a) :
    Kept config { s.setPeer p peer with services := services } := by
  have hself : (s.setPeer p peer).peers p = peer := by rw [setPeer_peers, if_pos rfl]
  have hother : ∀ q, q ≠ p → (s.setPeer p peer).peers q = s.peers q := by
    intro q hne
    rw [setPeer_peers, if_neg hne]
  constructor
  case sound => exact forall_setPeer (P := fun q => Sound (config q)) hsound fun q _ => h.sound q
  case crashed => exact h.crashed
  case present =>
    intro q e he
    change e ∈ ((s.setPeer p peer).peers q).entered at he
    show e ∈ services.services.entries
    rw [hentries, List.mem_filter]
    by_cases heq : q = p
    · rw [heq, hself, hentered, List.mem_filter] at he
      exact ⟨h.present p e he.1, he.2⟩
    · rw [hother q heq] at he
      exact ⟨h.present q e he, hothers q heq e he⟩
  case owned =>
    intro e he
    show ∃ q, e ∈ ((s.setPeer p peer).peers q).entered
    change e ∈ services.services.entries at he
    rw [hentries, List.mem_filter] at he
    obtain ⟨q, hq⟩ := h.owned e he.1
    by_cases heq : q = p
    · refine ⟨p, ?_⟩
      rw [hself, hentered, List.mem_filter]
      exact ⟨heq ▸ hq, he.2⟩
    · refine ⟨q, ?_⟩
      rw [hother q heq]
      exact hq
  case nodup =>
    refine forall_setPeer (P := fun _ peer => peer.entered.Nodup) ?_ fun q _ => h.nodup q
    rw [hentered]
    exact (h.nodup p).filter _
  case finished =>
    exact forall_setPeer (P := fun _ peer => peer.cleanup = .finished → peer.entered = []) hfinished fun q _ =>
      h.finished q
  case erasing =>
    exact forall_setPeer (P := fun _ peer => ∀ its, peer.cleanup = .erasing its →
      its.Nodup ∧ ∀ i, i ∈ its ↔ ∃ e ∈ peer.entered, e.node = i) herasing fun q _ => h.erasing q
  case apart =>
    intro q hq
    change ((s.setPeer p peer).peers q).cleanup.isErasing = true at hq
    show ((s.setPeer p peer).peers q).key ≠ none ∧ ∀ r, r ≠ q → ((s.setPeer p peer).peers r).cleanup ≠ .finished →
      ((s.setPeer p peer).peers r).key ≠ ((s.setPeer p peer).peers q).key
    by_cases heq : q = p
    · subst heq
      rw [hself] at hq ⊢
      rw [hkey]
      obtain ⟨hsome, hrest⟩ := hapart hq
      refine ⟨hsome, fun r hne hr => ?_⟩
      rw [hother r hne] at hr ⊢
      exact hrest r hne hr
    · rw [hother q heq] at hq ⊢
      obtain ⟨hsome, hrest⟩ := h.apart q hq
      refine ⟨hsome, fun r hne hr => ?_⟩
      by_cases hrp : r = p
      · subst hrp
        rw [hself, hkey]
        exact hrest r hne hunfinished
      · rw [hother r hrp] at hr ⊢
        exact hrest r hne hr
  case iterators => exact hiterators

private theorem Kept.leave (h : Kept config s) {p : Fin n} (hapart : Apart config s (.leave p))
    (henabled : Enabled s (.leave p)) : Kept config (next config s (.leave p)) := by
  obtain ⟨hserving, hoffline, hclosed⟩ := henabled
  have hunfinished : (s.peers p).cleanup ≠ .finished := by
    rw [hserving]
    rintro ⟨⟩
  have hsound : ∀ cleanup, Sound (config p) { s.peers p with cleanup := cleanup } := fun cleanup =>
    (h.sound p).cleanup hoffline hclosed cleanup fun _ he => he
  -- the tables stay, and what holds of the cleanup is left
  have hstay : ∀ cleanup, (cleanup = .finished → (s.peers p).entered = []) →
      (∀ its, cleanup = .erasing its → (s.peers p).key ≠ none ∧
        (∀ q, q ≠ p → (s.peers q).cleanup ≠ .finished → (s.peers q).key ≠ (s.peers p).key) ∧
          its.Nodup ∧ ∀ i, i ∈ its ↔ ∃ e ∈ (s.peers p).entered, e.node = i) →
      Kept config (s.setPeer p { s.peers p with cleanup := cleanup }) := by
    intro cleanup hfinished herasing
    refine h.cleanUp (fun _ => true) (hsound cleanup) rfl (List.filter_true _).symm (List.filter_true _).symm
      (fun _ _ _ _ => rfl) hunfinished hfinished (fun its heq => (herasing its heq).2.2) ?_ ?_
    · intro hcleanup
      cases heq : cleanup with
      | erasing its => exact ⟨(herasing its heq).1, (herasing its heq).2.1⟩
      | _ =>
        rw [heq] at hcleanup
        cases hcleanup
    · intro a ha
      refine h.iterators a fun q hq => ?_
      have hne : q ≠ p := by
        rintro rfl
        rw [hserving] at hq
        cases hq
      have hnot := ha q
      rw [setPeer_peers, if_neg hne] at hnot
      exact hnot hq
  cases hprovider : (s.peers p).provider with
  | none =>
    have hnext : next config s (.leave p) = s.setPeer p { s.peers p with cleanup := .finished } := by
      simp only [next, hprovider]
    rw [hnext]
    exact hstay .finished (fun _ => ((h.sound p).unannounced hprovider).1) (by rintro its ⟨⟩)
  | some address =>
    have hkey : (s.peers p).key = some address.toString := by rw [Peer.key, hprovider]; rfl
    have hothers : ∀ q, q ≠ p → (s.peers q).cleanup ≠ .finished → (s.peers q).key ≠ some address.toString := by
      rcases hapart with hnone | hothers
      · rw [hkey] at hnone
        cases hnone
      · rw [← hkey]
        exact hothers
    have hconsistent : s.services.ConsistentAt address.toString := by
      refine h.iterators _ fun q hq => ?_
      have hne : q ≠ p := by
        rintro rfl
        rw [hserving] at hq
        cases hq
      refine hothers q hne fun hfinished => ?_
      rw [hfinished] at hq
      cases hq
    have hmem := h.mem_entered_iff hkey hothers
    cases hlookup : s.services.iters.lookup address.toString with
    | none =>
      have hnext : next config s (.leave p) = s.setPeer p { s.peers p with cleanup := .finished } := by
        simp only [next, hprovider, hlookup]
      rw [hnext]
      refine hstay .finished (fun _ => List.eq_nil_iff_forall_not_mem.2 fun e he => ?_) (by rintro its ⟨⟩)
      obtain ⟨hin, hvalue⟩ := (hmem e).1 he
      have hiterator := (hconsistent.mem_iff e.node).2 ⟨e, hin, rfl, hvalue⟩
      rw [Services.iterators, hlookup] at hiterator
      cases hiterator
    | some its =>
      have hits : s.services.iterators address.toString = its := by rw [Services.iterators, hlookup]; rfl
      have hnext : next config s (.leave p) = s.setPeer p { s.peers p with cleanup := .erasing its } := by
        simp only [next, hprovider, hlookup]
      rw [hnext]
      refine hstay (.erasing its) (by rintro ⟨⟩) ?_
      rintro its' ⟨⟩
      refine ⟨by rw [hkey]; rintro ⟨⟩, by rw [hkey]; exact hothers, hits ▸ hconsistent.nodup, fun i => ?_⟩
      rw [← hits, hconsistent.mem_iff]
      constructor
      · rintro ⟨e, he, hnode, hvalue⟩
        exact ⟨e, (hmem e).2 ⟨he, hvalue⟩, hnode⟩
      · rintro ⟨e, he, hnode⟩
        exact ⟨e, ((hmem e).1 he).1, hnode, ((hmem e).1 he).2⟩

/-- A session that is behind the end of the connection. -/
private theorem Kept.offline_closed (h : Kept config s) {p : Fin n} (hnot : (s.peers p).cleanup ≠ .serving) :
    (s.peers p).stage ≠ .offline ∧ (s.peers p).opened = false := by
  refine ⟨fun hstage => hnot ?_, (h.sound p).closed hnot⟩
  rw [(h.sound p).offline hstage]
  rfl

private theorem Kept.erase (h : Kept config s) {p : Fin n} {i : Nat} {its : List Nat}
    (hcleanup : (s.peers p).cleanup = .erasing (i :: its)) : Kept config (next config s (.erase p)) := by
  have hnot : (s.peers p).cleanup ≠ .serving := by
    rw [hcleanup]
    rintro ⟨⟩
  obtain ⟨hoffline, hclosed⟩ := h.offline_closed hnot
  obtain ⟨hsome, hothers⟩ := h.apart p (by rw [hcleanup]; rfl)
  obtain ⟨hnodup, hits⟩ := h.erasing p _ hcleanup
  obtain ⟨hnotin, hrest⟩ := List.nodup_cons.1 hnodup
  obtain ⟨e, he, hnode⟩ := (hits i).1 List.mem_cons_self
  have hin := h.present p e he
  obtain ⟨services, hservices⟩ : ∃ services, s.services.eraseService i = some services := by
    obtain ⟨m, herase, -⟩ := Multimap.erase_of_mem hin
    refine ⟨{ s.services with services := m }, ?_⟩
    rw [Services.eraseService, ← hnode, herase]
    rfl
  obtain ⟨hentries, -, -, -⟩ := Services.eraseService_eq_some hservices
  have hnext : next config s (.erase p) =
      { s.setPeer p { s.peers p with
          cleanup := .erasing its, entered := (s.peers p).entered.filter fun e => e.node ≠ i } with
        services := services } := by
    simp only [next, hcleanup, hservices]
  rw [hnext]
  refine h.cleanUp (fun e => e.node ≠ i)
    ((h.sound p).cleanup hoffline hclosed (.erasing its) (List.filter_subset_self _)) rfl hentries rfl ?_
    (by rw [hcleanup]; rintro ⟨⟩) (by rintro ⟨⟩) ?_ (fun _ => ⟨hsome, hothers⟩) ?_
  · -- what another session has entered has another address
    intro q hne e' he'
    refine decide_eq_true fun hnode' => ?_
    obtain rfl : e' = e := Multimap.eq_of_node (h.present q e' he') hin (hnode'.trans hnode.symm)
    obtain ⟨hkey, hfinished⟩ := h.key he'
    exact hothers q hne hfinished (hkey.trans (h.key he).1.symm)
  · rintro its' ⟨⟩
    refine ⟨hrest, fun j => ?_⟩
    constructor
    · intro hj
      obtain ⟨e', he', hnode'⟩ := (hits j).1 (List.mem_cons_of_mem i hj)
      refine ⟨e', List.mem_filter.2 ⟨he', decide_eq_true fun heq => hnotin ?_⟩, hnode'⟩
      rwa [← heq, hnode']
    · rintro ⟨e', he', hnode'⟩
      obtain ⟨he', hne⟩ := List.mem_filter.1 he'
      have hj := (hits j).2 ⟨e', he', hnode'⟩
      rw [List.mem_cons] at hj
      exact hj.resolve_left fun heq => of_decide_eq_true hne (hnode'.trans heq)
  · intro a ha
    have hkeys : ∀ q, (s.peers q).cleanup.isErasing = true → (s.peers q).key ≠ some a := by
      intro q hq
      have hnot := ha q
      rw [setPeer_peers] at hnot
      split at hnot
      case isTrue heq => exact heq ▸ hnot rfl
      case isFalse => exact hnot hq
    refine (h.iterators a hkeys).eraseService hservices fun e' he' hnode' hvalue => ?_
    obtain rfl : e' = e := Multimap.eq_of_node he' hin (hnode'.trans hnode.symm)
    refine hkeys p (by rw [hcleanup]; rfl) ?_
    rw [(h.key he).1, hvalue]

private theorem Kept.forget (h : Kept config s) {p : Fin n} (hcleanup : (s.peers p).cleanup = .erasing []) :
    Kept config (next config s (.forget p)) := by
  have hnot : (s.peers p).cleanup ≠ .serving := by
    rw [hcleanup]
    rintro ⟨⟩
  obtain ⟨hoffline, hclosed⟩ := h.offline_closed hnot
  obtain ⟨hsome, hothers⟩ := h.apart p (by rw [hcleanup]; rfl)
  obtain ⟨-, hits⟩ := h.erasing p _ hcleanup
  have hnone : (s.peers p).entered = [] := List.eq_nil_iff_forall_not_mem.2 fun e he =>
    absurd ((hits e.node).2 ⟨e, he, rfl⟩) List.not_mem_nil
  obtain ⟨address, hprovider⟩ : ∃ address, (s.peers p).provider = some address := by
    cases hprovider : (s.peers p).provider with
    | none => exact absurd (by rw [Peer.key, hprovider]; rfl) hsome
    | some address => exact ⟨address, rfl⟩
  have hkey : (s.peers p).key = some address.toString := by rw [Peer.key, hprovider]; rfl
  rw [hkey] at hothers
  have hmem := h.mem_entered_iff hkey hothers
  have hnext : next config s (.forget p) =
      { s.setPeer p { s.peers p with cleanup := .finished } with
        services := s.services.eraseIters address.toString } := by
    simp only [next, hprovider]
  rw [hnext]
  refine h.cleanUp (fun _ => true) ((h.sound p).cleanup hoffline hclosed .finished fun _ he => he) rfl
    (List.filter_true _).symm (List.filter_true _).symm (fun _ _ _ _ => rfl) (by rw [hcleanup]; rintro ⟨⟩)
    (fun _ => hnone) (by rintro its ⟨⟩) (by rintro ⟨⟩) fun a ha => ?_
  refine Services.ConsistentAt.eraseIters (fun hne => h.iterators a fun q hq => ?_) fun heq e he hvalue => ?_
  · by_cases hqp : q = p
    · rw [hqp, hkey]
      exact fun heq => hne (Option.some.inj heq).symm
    · have hnot := ha q
      rw [setPeer_peers, if_neg hqp] at hnot
      exact hnot hq
  · have hentered := (hmem e).2 ⟨he, hvalue.trans heq⟩
    rw [hnone] at hentered
    cases hentered

omit [Host] in
private theorem send_kept (peer : Peer) (m : Protocol) :
    (peer.send m).entered = peer.entered ∧ (peer.send m).cleanup = peer.cleanup ∧ (peer.send m).key = peer.key := by
  unfold Peer.send
  split <;> exact ⟨rfl, rfl, rfl⟩

theorem Kept.step (h : Kept config s) (hfit : ∀ p, ∀ name ∈ (config p).handlers, name.length + 20 < 2 ^ 31)
    (hapart : Apart config s e) (hstep : (machine config).step s e = some s') : Kept config s' := by
  obtain ⟨henabled, rfl⟩ := machine_step hstep
  cases e with
  | bindRegistry p =>
    have hnext : next config s (.bindRegistry p) = s.setPeer p { s.peers p with
        stage := .bound, opened := true, up := [Protocol.create .rpcProvider (varint (config p).port) 0] } := by
      simp only [next, providerMessage_eq]
    rw [hnext]
    exact h.setPeer ((h.sound p).bindRegistry henabled) rfl rfl (.inl rfl)
  | start p => exact h.setPeer ((h.sound p).start henabled) rfl rfl (.inl rfl)
  | send p =>
    have hsend : (s.peers p).stage.registers = true := henabled
    cases hstage : (s.peers p).stage with
    | registering handlers =>
      cases handlers with
      | nil =>
        rw [hstage] at hsend
        cases hsend
      | cons name handlers =>
        have hnext : next config s (.send p) =
            s.setPeer p (Peer.send { s.peers p with stage := .waiting name handlers } (registerMessage name)) := by
          simp only [next, hstage]
        rw [hnext]
        obtain ⟨hentered, hcleanup, hkey⟩ :=
          send_kept { s.peers p with stage := .waiting name handlers } (registerMessage name)
        exact h.setPeer ((h.sound p).register hstage) hentered hcleanup (.inl hkey)
    | _ =>
      rw [hstage] at hsend
      cases hsend
  | receive p =>
    obtain ⟨hreceives, hdown⟩ := henabled
    obtain ⟨m, down, hdown⟩ := List.exists_cons_of_ne_nil hdown
    cases hstage : (s.peers p).stage with
    | waiting name handlers =>
      obtain ⟨hconfirms, hsound⟩ := (h.sound p).receive hstage hdown
      have hread : readRegistered m = .ok _ := hconfirms
      have hnext : next config s (.receive p) = s.setPeer p { s.peers p with
          stage := .registering handlers, down := down, registered := (s.peers p).registered ++ [name] } := by
        simp only [next, hstage, hdown, hread]
        rfl
      rw [hnext]
      exact h.setPeer hsound rfl rfl (.inl rfl)
    | beating =>
      have hnext : next config s (.receive p) = s.setPeer p { s.peers p with stage := .started, down := down } := by
        simp only [next, hstage, hdown]
      rw [hnext]
      exact h.setPeer ((h.sound p).receiveHeartbeat hstage hdown) rfl rfl (.inl rfl)
    | _ =>
      rw [hstage] at hreceives
      cases hreceives
  | finish p => exact h.setPeer ((h.sound p).finish henabled) rfl rfl (.inl rfl)
  | heartbeat p =>
    obtain ⟨hentered, hcleanup, hkey⟩ := send_kept { s.peers p with stage := .beating } heartbeatMessage
    exact h.setPeer ((h.sound p).heartbeat henabled) hentered hcleanup (.inl hkey)
  | lose p => exact h.setPeer ((h.sound p).lose henabled) rfl rfl (.inl rfl)
  | receiveNothing p =>
    cases hstage : (s.peers p).stage with
    | waiting name handlers =>
      have hclosed : (s.peers p).opened = false := by
        rcases henabled with hbeating | ⟨-, hclosed⟩
        · rw [hstage] at hbeating
          cases hbeating
        · exact hclosed
      have hnext : next config s (.receiveNothing p) = s.setPeer p { s.peers p with
          stage := .registering handlers, down := [] } := by
        simp only [next, hstage]
      rw [hnext]
      exact h.setPeer ((h.sound p).receiveNothing hstage hclosed) rfl rfl (.inl rfl)
    | beating =>
      have hnext : next config s (.receiveNothing p) = s.setPeer p { s.peers p with stage := .alone, down := [] } := by
        simp only [next, hstage]
      rw [hnext]
      exact h.setPeer ((h.sound p).abandon hstage) rfl rfl (.inl rfl)
    | _ =>
      rcases henabled with hbeating | ⟨hreceives, -⟩
      · rw [hstage] at hbeating
        cases hbeating
      · rw [hstage] at hreceives
        cases hreceives
  | serve p =>
    obtain ⟨hserving, hup⟩ := henabled
    obtain ⟨m, up, hup⟩ := List.exists_cons_of_ne_nil hup
    obtain ⟨serving, hdispatch, hsound, hserved⟩ := (h.sound p).serve (hfit p) s.services p hup
    have hnext : next config s (.serve p) =
        { s.setPeer p ((s.peers p).served s.services.services.next up serving) with
          services := serving.services } := by
      simp only [next, hup, hdispatch]
    rw [hnext]
    rcases hserved with ⟨hservices, hentered, hprovider⟩ | ⟨name, hservices, hentered, hprovider⟩
    · rw [hservices]
      refine h.setPeer hsound hentered rfl ?_
      rcases hprovider with hprovider | ⟨hnone, hprovider⟩
      · exact .inl (congrArg (Option.map IPv4Address.toString) hprovider)
      · refine .inr ⟨hserving, fun q hne hq => ?_⟩
        have hkey : ((s.peers p).served s.services.services.next up serving).key =
            some (config p).address.toString := congrArg (Option.map IPv4Address.toString) hprovider
        rw [hkey]
        exact hapart hnone q hne hq
    · rw [hservices]
      exact h.enter hsound hserving rfl (congrArg (Option.map IPv4Address.toString) hprovider) hentered
  | leave p => exact h.leave hapart henabled
  | erase p =>
    cases hcleanup : (s.peers p).cleanup with
    | erasing its =>
      cases its with
      | nil => exact absurd (by rw [hcleanup]; rfl) henabled
      | cons i its => exact h.erase hcleanup
    | _ => exact absurd (by rw [hcleanup]; rfl) henabled
  | forget p => exact h.forget henabled

theorem tables_of_reaches (hfit : ∀ p, ∀ name ∈ (config p).handlers, name.length + 20 < 2 ^ 31)
    (h : (machine config).Reaches (Apart config) .initial s) : Kept config s :=
  h.invariant (fun _ _ _ hs hapart hstep => hs.step hfit hapart hstep) .initial

/-- Where the registry keeps up with `start`: every request can be served, every answer read and every entry erased, the
tables hold nothing but methods of servers whose session has not erased them, and all methods of a server that has
started and is still connected; none of them twice if no other server has its address. -/
theorem provided_of_reaches (hfit : ∀ p, ∀ name ∈ (config p).handlers, name.length + 20 < 2 ^ 31)
    (h : (machine config).Reaches (Apart config) .initial s) :
    s.crashed = false ∧
      (∀ e ∈ s.services.services.entries, ∃ p, (s.peers p).cleanup ≠ .finished ∧ e ∈ (s.peers p).entered ∧
        e.key ∈ (config p).handlers ∧ e.value = (config p).address.toString) ∧
      ∀ p, (s.peers p).stage ≠ .failed ∧ ((s.peers p).opened = true →
        (s.peers p).stage = .started ∨ (s.peers p).stage = .beating ∨ (s.peers p).stage = .alone →
          (s.peers p).registered = (config p).handlers ∧
          (∀ name ∈ (config p).handlers,
            (config p).address.toString ∈ (s.services.services.equalRange name).map Entry.value) ∧
          ((∀ q, q ≠ p → (s.peers q).cleanup ≠ .finished → (s.peers q).key ≠ some (config p).address.toString) →
            ((s.services.services.entries.filter fun e => e.value = (config p).address.toString).map Entry.key).Perm
              (config p).handlers)) := by
  have hkept := tables_of_reaches hfit h
  refine ⟨hkept.crashed, fun e he => ?_, fun p => ⟨(hkept.sound p).stage, fun hopened hstage => ?_⟩⟩
  · obtain ⟨p, hin⟩ := hkept.owned e he
    obtain ⟨hvalue, hkey⟩ := (hkept.sound p).entered e hin
    exact ⟨p, (hkept.key hin).2, hin, hkey, hvalue⟩
  · have hexchange := (hkept.sound p).exchange hopened
    obtain ⟨hentered, hregistered⟩ : (s.peers p).entered.map Entry.key = (config p).handlers ∧
        (s.peers p).registered = (config p).handlers := by
      rcases hstage with hstage | hstage | hstage
      · rw [hstage] at hexchange
        exact hexchange.2.2
      · rw [hstage] at hexchange
        exact hexchange.2
      · rw [hstage] at hexchange
        exact hexchange.2
    refine ⟨hregistered, fun name hname => ?_, fun halone => ?_⟩
    · rw [← hentered] at hname
      obtain ⟨e, he, rfl⟩ := List.mem_map.1 hname
      refine List.mem_map.2 ⟨e, ?_, ((hkept.sound p).entered e he).1⟩
      rw [Multimap.equalRange, List.mem_filter]
      exact ⟨hkept.present p e he, decide_eq_true rfl⟩
    · rw [← hentered]
      refine List.Perm.map _ ((List.perm_ext_iff_of_nodup ((Multimap.nodup_entries _).filter _)
        (hkept.nodup p)).2 fun e => ?_)
      rw [List.mem_filter]
      constructor
      · rintro ⟨hin, hvalue⟩
        obtain ⟨q, hq⟩ := hkept.owned e hin
        obtain ⟨hkey, hfinished⟩ := hkept.key hq
        by_cases heq : q = p
        · exact heq ▸ hq
        · rw [of_decide_eq_true hvalue] at hkey
          exact absurd hkey (halone q heq hfinished)
      · intro he
        exact ⟨hkept.present p e he, decide_eq_true ((hkept.sound p).entered e he).1⟩

end Provider

section

attribute [local instance] Host.zeroed

namespace Provider

/-- Two servers with two methods each. -/
private def twoMethods (p : Fin 2) : Config :=
  if p = 0 then ⟨⟨0x7f000001, 50000⟩, 80, [[97], [98]]⟩ else ⟨⟨0x7f000001, 50001⟩, 81, [[97], [99]]⟩

/-- The connection of one is lost when it has registered a method, which is erased while the other registers its own. -/
private def registering : List (Event 2) :=
  [.bindRegistry 0, .start 0, .send 0, .serve 0, .bindRegistry 1, .start 1, .serve 1, .send 1, .serve 1, .serve 0,
    .lose 1, .leave 1, .receive 0, .send 0, .erase 1, .serve 0, .forget 1, .receive 0, .finish 0, .heartbeat 0]

theorem provided_of_reaches_twoMethods :
    ∃ s, (machine twoMethods).Reaches (Apart twoMethods) .initial s ∧ s.crashed = false ∧
      (s.peers 0).stage = .beating ∧ (s.peers 1).cleanup = .finished ∧
      ((s.services.services.entries.filter fun e => e.value = (twoMethods 0).address.toString).map Entry.key).Perm
        [[97], [98]] := by
  have hfit : ∀ p, ∀ name ∈ (twoMethods p).handlers, name.length + 20 < 2 ^ 31 := by decide +kernel
  obtain ⟨s, hreach, hopened, hstage, hfinished⟩ : ∃ s, (machine twoMethods).Reaches (Apart twoMethods) .initial s ∧
      (s.peers 0).opened = true ∧ (s.peers 0).stage = .beating ∧ (s.peers 1).cleanup = .finished :=
    Machine.exists_reaches_of_guarded registering (by decide +kernel)
  obtain ⟨hcrashed, -, hpeers⟩ := provided_of_reaches hfit hreach
  obtain ⟨-, -, hperm⟩ := (hpeers 0).2 hopened (.inr (.inl hstage))
  refine ⟨s, hreach, hcrashed, hstage, hfinished, hperm fun q hne hq => ?_⟩
  have hother : q = 1 := by omega
  exact absurd (hother ▸ hfinished) hq

end Provider

end

end AcidCompute

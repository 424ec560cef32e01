import AcidCompute.Base.Machine
import AcidCompute.Rpc.RegistryTable
import Mathlib.Logic.Function.Basic

/-!
# The sessions of a registry

Any number of clients are served at once, and their requests change the same tables.  A registration lasts until some
provider with the same address leaves (`RpcServiceRegistry.registered_of_reaches`), and a subscription is kept only if
no other session has one under the same key (`RpcServiceRegistry.recipients_of_reaches`).

A session leaves when its `handle_client` finds the connection ended.  It erases the entries of its address one after
another, with the steps of other sessions in between, since after the first publication the mutex is free.  A run ends
in front of the erasing of an entry that is gone, and of what `handle_client` does with its null request when the
entries are erased.  It goes on where a second session of the address uses the key in `m_iters` that the first one has
erased, which is undefined as well: what holds of these runs holds of the ones that end there.
-/

namespace AcidCompute

open AcidCompute.ByteArray

namespace RpcServiceRegistry

/-- How far a session has come; numbers of sessions are not used again. -/
inductive SessionPhase
  | unused
  | serving
  -- in `handle_unregidter_service`, with the key in `m_iters` and the iterators that are still to be erased
  | erasing (address : List Byte) (its : List Nat)
  | left
  | destroyed
  deriving DecidableEq, Repr

structure Session where
  phase : SessionPhase
  -- `is_connected()`
  connected : Bool
  -- `provider_address`
  provider : Option IPv4Address
  deriving DecidableEq, Repr

/-- The object behind a weak pointer still exists. -/
def Session.alive (session : Session) : Bool :=
  match session.phase with
  | .serving | .erasing _ _ | .left => true
  | .unused | .destroyed => false

structure State where
  services : Services
  registry : RpcServiceRegistry
  sessions : Nat → Session
  -- the keys and sessions for which a subscription has been answered with success
  acknowledged : List (List Byte × Nat)

inductive Event
  | accept (c : Nat)
  | provider (c : Nat) (address : IPv4Address)
  | register (c : Nat) (name : List Byte)
  | subscribe (c : Nat) (content : List Byte)
  -- the connection ends
  | disconnect (c : Nat)
  -- `handle_client` finds the connection ended
  | leave (c : Nat)
  -- one round of the loop of `handle_unregidter_service`, and what is behind the loop
  | erase (c : Nat)
  | finish (c : Nat)
  | destroy (c : Nat)
  -- the timer
  | clean
  deriving DecidableEq, Repr

namespace State

def initial : State := ⟨.empty, ⟨[]⟩, fun _ => ⟨.unused, false, none⟩, []⟩

def setSession (s : State) (c : Nat) (session : Session) : State :=
  { s with sessions := Function.update s.sessions c session }

/-- What `publish` and the timer ask of the session behind an entry. -/
def reachable (s : State) (c : Nat) : Bool := (s.sessions c).alive && (s.sessions c).connected

def setPhase (s : State) (c : Nat) (phase : SessionPhase) : State :=
  s.setSession c { s.sessions c with phase := phase }

/-- The address is looked for, and its iterators are copied. -/
def leave (s : State) (c : Nat) : State :=
  match (s.sessions c).provider with
  | none => s.setPhase c .left
  | some address =>
    match s.services.iters.lookup address.toString with
    | none => s.setPhase c .left
    | some its => s.setPhase c (.erasing address.toString its)

/-- The next entry is erased; the publication of this changes nothing. -/
def erase (s : State) (c : Nat) : Option State :=
  match (s.sessions c).phase with
  | .erasing address (i :: its) =>
    (s.services.eraseService i).map fun services => { s.setPhase c (.erasing address its) with services := services }
  | _ => none

def finish (s : State) (c : Nat) : Option State :=
  match (s.sessions c).phase with
  | .erasing address [] => some { s.setPhase c .left with services := s.services.eraseIters address }
  | _ => none

end State

theorem erase_eq_some {s s' : State} {c : Nat} (h : s.erase c = some s') :
    ∃ address i its services, (s.sessions c).phase = .erasing address (i :: its) ∧
      s.services.eraseService i = some services ∧
      s' = { s.setPhase c (.erasing address its) with services := services } := by
  unfold State.erase at h
  split at h
  · rename_i address i its hphase
    obtain ⟨services, herase, rfl⟩ := Option.map_eq_some_iff.1 h
    exact ⟨address, i, its, services, hphase, herase, rfl⟩
  · cases h

theorem finish_eq_some {s s' : State} {c : Nat} (h : s.finish c = some s') :
    ∃ address, (s.sessions c).phase = .erasing address [] ∧
      s' = { s.setPhase c .left with services := s.services.eraseIters address } := by
  unfold State.finish at h
  split at h
  · rename_i address hphase
    exact ⟨address, hphase, (Option.some.inj h).symm⟩
  · cases h

/-- What a session does when its connection has ended: the tables stay, and it may have iterators in front of it. -/
theorem leave_eq (s : State) (c : Nat) :
    s.leave c = s.setPhase c .left ∨
      ∃ address, (s.sessions c).provider = some address ∧
        s.leave c = s.setPhase c (.erasing address.toString (s.services.iterators address.toString)) := by
  unfold State.leave
  cases hprovider : (s.sessions c).provider with
  | none => exact .inl rfl
  | some address =>
    cases hlookup : s.services.iters.lookup address.toString with
    | none => exact .inl (by simp [hlookup])
    | some its =>
      refine .inr ⟨address, rfl, ?_⟩
      simp [Services.iterators, hlookup]

theorem sessions_setPhase {s : State} {c d : Nat} {phase phase' : SessionPhase}
    (h : ((s.setPhase c phase').sessions d).phase = phase) :
    d = c ∧ phase' = phase ∨ (s.sessions d).phase = phase := by
  by_cases heq : d = c
  · subst heq
    left
    simpa [State.setPhase, State.setSession] using h
  · right
    simpa [State.setPhase, State.setSession, Function.update_of_ne heq] using h

theorem sessions_setSession {s : State} {c d : Nat} {phase : SessionPhase} (session : Session)
    (hsame : session.phase = (s.sessions c).phase ∨ session.phase ≠ phase)
    (h : ((s.setSession c session).sessions d).phase = phase) : (s.sessions d).phase = phase := by
  by_cases heq : d = c
  · subst heq
    have hphase : session.phase = phase := by simpa [State.setSession] using h
    rcases hsame with hsame | hne
    · exact hsame.symm.trans hphase
    · exact absurd hphase hne
  · simpa [State.setSession, Function.update_of_ne heq] using h

/-- Iterators, in the table and in front of sessions, are of entries with their address. -/
structure Owning (s : State) : Prop where
  owned : s.services.Owned
  erasing : ∀ c address its, (s.sessions c).phase = .erasing address its → s.services.Of address its

theorem Owning.initial : Owning .initial where
  owned := .empty
  erasing c address its h := by cases h

variable [Host]

/-- `handle_subscribe` on a content that is in front of it. -/
def State.subscribe (s : State) (c : Nat) (content : List Byte) : State :=
  match s.registry.handleSubscribe (Protocol.create .rpcSubscribeRequest content 0) c, takeString content with
  | .ok (registry, _), some (key, _) => { s with registry := registry, acknowledged := (key, c) :: s.acknowledged }
  | _, _ => s

/-- When a session can take its step. -/
def Enabled (s : State) : Event → Prop
  | .accept c => (s.sessions c).phase = .unused
  | .provider c _ => (s.sessions c).phase = .serving
  | .register c _ => (s.sessions c).phase = .serving ∧ (s.sessions c).provider.isSome
  -- for other contents the handler throws
  | .subscribe c content => (s.sessions c).phase = .serving ∧ Serializer.KeyDecodes content
  | .disconnect c => (s.sessions c).connected = true
  | .leave c => (s.sessions c).phase = .serving
  | .erase c => (s.erase c).isSome = true
  | .finish c => (s.finish c).isSome = true
  | .destroy c => (s.sessions c).phase = .left
  | .clean => True

instance (s : State) (e : Event) : Decidable (Enabled s e) := by
  cases e <;> unfold Enabled <;> unfold Serializer.KeyDecodes <;> infer_instance

def next (s : State) : Event → State
  | .accept c => s.setSession c ⟨.serving, true, none⟩
  | .provider c address => s.setSession c { s.sessions c with provider := some address }
  | .register c name =>
    match (s.sessions c).provider with
    | none => s
    | some address => { s with services := s.services.register name address.toString }
  | .subscribe c content => s.subscribe c content
  | .disconnect c => s.setSession c { s.sessions c with connected := false }
  | .leave c => s.leave c
  | .erase c => (s.erase c).getD s
  | .finish c => (s.finish c).getD s
  | .destroy c => s.setSession c { s.sessions c with phase := .destroyed, connected := false }
  | .clean => { s with registry := s.registry.cleanSubscribes s.reachable }

def machine : Machine State Event where
  start := .initial
  step s e := if Enabled s e then some (next s e) else none

theorem machine_step {s s' : State} {e : Event} (h : machine.step s e = some s') : Enabled s e ∧ next s e = s' := by
  simpa [machine] using h

/-! ### Registrations -/

/-- What a step does to the tables. -/
theorem services_next {s : State} {e : Event} (henabled : Enabled s e) :
    (next s e).services = s.services ∨
      (∃ c name address, e = .register c name ∧ (s.sessions c).provider = some address ∧
        (next s e).services = s.services.register name address.toString) ∨
      (∃ c address i its, e = .erase c ∧ (s.sessions c).phase = .erasing address (i :: its) ∧
        s.services.eraseService i = some (next s e).services) ∨
      ∃ c address, e = .finish c ∧ (s.sessions c).phase = .erasing address [] ∧
        (next s e).services = s.services.eraseIters address := by
  cases e with
  | accept | provider | disconnect | destroy | clean => exact .inl rfl
  | register c name =>
    cases hprovider : (s.sessions c).provider with
    | none => exact .inl (by simp [next, hprovider])
    | some address => exact .inr (.inl ⟨c, name, address, rfl, hprovider, by simp [next, hprovider]⟩)
  | subscribe c content =>
    refine .inl ?_
    unfold next State.subscribe
    dsimp only
    split <;> rfl
  | leave c =>
    refine .inl ?_
    show (s.leave c).services = s.services
    rcases leave_eq s c with heq | ⟨address, -, heq⟩ <;> rw [heq] <;> rfl
  | erase c =>
    obtain ⟨s', hs'⟩ := Option.isSome_iff_exists.1 henabled
    obtain ⟨address, i, its, services, hphase, herase, rfl⟩ := erase_eq_some hs'
    refine .inr (.inr (.inl ⟨c, address, i, its, rfl, hphase, ?_⟩))
    simp only [next, hs', Option.getD_some]
    exact herase
  | finish c =>
    obtain ⟨s', hs'⟩ := Option.isSome_iff_exists.1 henabled
    obtain ⟨address, hphase, rfl⟩ := finish_eq_some hs'
    refine .inr (.inr (.inr ⟨c, address, rfl, hphase, ?_⟩))
    simp only [next, hs', Option.getD_some]

/-- Iterators come in front of a session when it leaves, and get fewer. -/
theorem erasing_next {s : State} {e : Event} (henabled : Enabled s e) {d : Nat} {address : List Byte} {its : List Nat}
    (h : ((next s e).sessions d).phase = .erasing address its) :
    (∃ its', (s.sessions d).phase = .erasing address its' ∧ its ⊆ its') ∨
      ∃ provider, e = .leave d ∧ (s.sessions d).provider = some provider ∧ provider.toString = address ∧
        its = s.services.iterators address := by
  have hold : (s.sessions d).phase = .erasing address its →
      ∃ its', (s.sessions d).phase = .erasing address its' ∧ its ⊆ its' := fun hd => ⟨its, hd, fun _ hi => hi⟩
  cases e with
  | accept c => exact .inl (hold (sessions_setSession _ (.inr SessionPhase.noConfusion) h))
  | provider c a =>
    exact .inl (hold (sessions_setSession { s.sessions c with provider := some a } (.inl rfl) h))
  | register c name =>
    refine .inl (hold ?_)
    simp only [next] at h
    split at h <;> exact h
  | subscribe c content =>
    refine .inl (hold ?_)
    simp only [next, State.subscribe] at h
    split at h <;> exact h
  | disconnect c =>
    exact .inl (hold (sessions_setSession { s.sessions c with connected := false } (.inl rfl) h))
  | leave c =>
    have hleave : ((s.leave c).sessions d).phase = .erasing address its := h
    rcases leave_eq s c with heq | ⟨provider, hprovider, heq⟩
    · rw [heq] at hleave
      rcases sessions_setPhase hleave with ⟨-, hphase⟩ | hphase
      · cases hphase
      · exact .inl (hold hphase)
    · rw [heq] at hleave
      rcases sessions_setPhase hleave with ⟨rfl, hphase⟩ | hphase
      · obtain ⟨rfl, rfl⟩ := SessionPhase.erasing.inj hphase
        exact .inr ⟨provider, rfl, hprovider, rfl, rfl⟩
      · exact .inl (hold hphase)
  | erase c =>
    obtain ⟨s', hs'⟩ := Option.isSome_iff_exists.1 henabled
    obtain ⟨a, i, its', services, hphase, -, rfl⟩ := erase_eq_some hs'
    simp only [next, hs', Option.getD_some] at h
    rcases sessions_setPhase h with ⟨rfl, hsame⟩ | hd
    · cases hsame
      exact .inl ⟨i :: its, hphase, List.subset_cons_self i its⟩
    · exact .inl (hold hd)
  | finish c =>
    obtain ⟨s', hs'⟩ := Option.isSome_iff_exists.1 henabled
    obtain ⟨a, -, rfl⟩ := finish_eq_some hs'
    simp only [next, hs', Option.getD_some] at h
    rcases sessions_setPhase h with ⟨-, hsame⟩ | hd
    · cases hsame
    · exact .inl (hold hd)
  | destroy c => exact .inl (hold (sessions_setSession _ (.inr SessionPhase.noConfusion) h))
  | clean => exact .inl (hold h)

theorem Owning.next {s : State} (h : Owning s) {e : Event} (henabled : Enabled s e) : Owning (next s e) := by
  have hof : ∀ a its, s.services.Of a its → (RpcServiceRegistry.next s e).services.Of a its := by
    intro a its hits
    rcases services_next henabled with heq | ⟨c, name, address, -, -, heq⟩ | ⟨c, address, i, its', -, -, herase⟩ |
      ⟨c, address, -, -, heq⟩
    · rwa [heq]
    · rw [heq]
      exact hits.register name address.toString
    · exact hits.eraseService herase
    · rw [heq]
      exact hits
  constructor
  case owned =>
    rcases services_next henabled with heq | ⟨c, name, address, -, -, heq⟩ | ⟨c, address, i, its', -, -, herase⟩ |
      ⟨c, address, -, -, heq⟩
    · rw [heq]
      exact h.owned
    · rw [heq]
      exact h.owned.register name address.toString
    · exact h.owned.eraseService herase
    · rw [heq]
      exact h.owned.eraseIters address
  case erasing =>
    intro c address its hphase
    rcases erasing_next henabled hphase with ⟨its', hold, hsubset⟩ | ⟨provider, -, -, -, rfl⟩
    · exact hof address its fun i hi => h.erasing c address its' hold i (hsubset hi)
    · exact hof address _ (h.owned address)

theorem owning_of_reaches {Allowed : State → Event → Prop} {s s' : State} (hs : Owning s)
    (h : machine.Reaches Allowed s s') : Owning s' := by
  refine h.invariant (I := Owning) ?_ hs
  intro s e s' hs _ hstep
  obtain ⟨henabled, rfl⟩ := machine_step hstep
  exact hs.next henabled

/-- A step of a session that leaves. -/
def Leaving (c : Nat) (_ : State) (e : Event) : Prop := e = .leave c ∨ e = .erase c ∨ e = .finish c

/-- The loop over the iterators in front of a session, one round after another. -/
theorem exists_reaches_of_eraseLoop {c : Nat} {address : List Byte} {its : List Nat} {s : State}
    {published published' : List Publication} {services : Multimap (List Byte) (List Byte)}
    (hphase : (s.sessions c).phase = .erasing address its)
    (h : Services.eraseLoop address its s.services.services published = .ok (services, published')) :
    ∃ s', machine.Reaches (Leaving c) s s' ∧ s'.services = ⟨services, s.services.iters.erase address⟩ ∧
      (s'.sessions c).phase = .left := by
  induction its generalizing s published with
  | nil =>
    cases h
    have hfinish : s.finish c =
        some { s.setPhase c .left with services := s.services.eraseIters address } := by
      simp [State.finish, hphase]
    have hstep : machine.step s (.finish c) =
        some { s.setPhase c .left with services := s.services.eraseIters address } := by
      simp [machine, Enabled, next, hfinish]
    exact ⟨_, .single (.inr (.inr rfl)) hstep, rfl, by simp [State.setPhase, State.setSession]⟩
  | cons i its ih =>
    cases herase : s.services.eraseService i with
    | none =>
      rw [Services.eraseService, Option.map_eq_none_iff] at herase
      rw [Services.eraseLoop, herase] at h
      cases h
    | some services₁ =>
      rw [Services.eraseLoop_cons herase] at h
      have hsome : s.erase c = some { s.setPhase c (.erasing address its) with services := services₁ } := by
        simp [State.erase, hphase, herase]
      have hstep : machine.step s (.erase c) =
          some { s.setPhase c (.erasing address its) with services := services₁ } := by
        simp [machine, Enabled, next, hsome]
      have hrest : (({ s.setPhase c (.erasing address its) with services := services₁ } : State).sessions c).phase =
          .erasing address its := by simp [State.setPhase, State.setSession]
      obtain ⟨s', hreach, hservices, hleft⟩ := ih hrest h
      rw [(Services.eraseService_eq_some herase).2.2.1] at hservices
      exact ⟨s', .head (.inr (.inl rfl)) hstep hreach, hservices, hleft⟩

/-- Where nobody else takes a step while a session leaves, its steps do what the handler does. -/
theorem exists_reaches_of_unregister {s : State} {c : Nat} {address : IPv4Address} {services : Services}
    {published : List Publication} (hserving : (s.sessions c).phase = .serving)
    (hprovider : (s.sessions c).provider = some address)
    (h : handleUnregidterService s.services address.toString = .ok (services, published)) :
    ∃ s', machine.Reaches (Leaving c) s s' ∧ s'.services = services ∧ (s'.sessions c).phase = .left := by
  have hleave : machine.step s (.leave c) = some (s.leave c) := if_pos hserving
  unfold handleUnregidterService at h
  cases hlookup : s.services.iters.lookup address.toString with
  | none =>
    rw [hlookup] at h
    cases h
    have heq : s.leave c = s.setPhase c .left := by simp [State.leave, hprovider, hlookup]
    rw [heq] at hleave
    exact ⟨_, .single (.inl rfl) hleave, rfl, by simp [State.setPhase, State.setSession]⟩
  | some its =>
    rw [hlookup] at h
    obtain ⟨answer, hloop, hdone⟩ := ok_of_bind_ok h
    cases hdone
    have heq : s.leave c = s.setPhase c (.erasing address.toString its) := by simp [State.leave, hprovider, hlookup]
    rw [heq] at hleave
    have hphase : ((s.setPhase c (.erasing address.toString its)).sessions c).phase =
        .erasing address.toString its := by simp [State.setPhase, State.setSession]
    obtain ⟨s', hreach, hservices, hleft⟩ := exists_reaches_of_eraseLoop hphase hloop
    exact ⟨s', .head (.inl rfl) hleave hreach, hservices, hleft⟩

/-- No session with the address as its provider address leaves. -/
def Keeps (address : IPv4Address) (s : State) (e : Event) : Prop :=
  ∀ c provider, e = .leave c → (s.sessions c).provider = some provider → provider.toString ≠ address.toString

/-- An entry is there, and no session is going to erase it. -/
structure Kept (entry : Entry (List Byte) (List Byte)) (s : State) : Prop where
  mem : entry ∈ s.services.services.entries
  spared : ∀ c its, (s.sessions c).phase = .erasing entry.value its → entry.node ∉ its

/-- An entry goes only with its address. -/
theorem Kept.next {entry : Entry (List Byte) (List Byte)} {s : State} (hs : Owning s) (h : Kept entry s) {e : Event}
    (henabled : Enabled s e) {address : IPv4Address} (hvalue : entry.value = address.toString)
    (hkeeps : Keeps address s e) : Kept entry (next s e) := by
  constructor
  case mem =>
    rcases services_next henabled with heq | ⟨c, name, a, -, -, heq⟩ | ⟨c, a, i, its, -, hphase, herase⟩ |
      ⟨c, a, -, -, heq⟩
    · rw [heq]
      exact h.mem
    · rw [heq, Services.register_services]
      exact Multimap.mem_emplace.2 (.inr h.mem)
    · rw [(Services.eraseService_eq_some herase).1, List.mem_filter]
      refine ⟨h.mem, decide_eq_true ?_⟩
      -- the iterator would be of the entry's own address
      intro hnode
      have ha : entry.value = a := (hs.erasing c a _ hphase i List.mem_cons_self).2 entry h.mem hnode
      refine h.spared c (i :: its) (ha ▸ hphase) ?_
      rw [hnode]
      exact List.mem_cons_self
    · rw [heq]
      exact h.mem
  case spared =>
    intro c its hphase
    rcases erasing_next henabled hphase with ⟨its', hold, hsubset⟩ | ⟨provider, he, hprovider, ha, -⟩
    · exact fun hin => h.spared c its' hold (hsubset hin)
    · exact absurd (ha.trans hvalue) (hkeeps c provider he hprovider)

/-- A service registered by a session stays until a session with the same provider address leaves. -/
theorem registered_of_reaches {s s₁ s' : State} {c : Nat} {name : List Byte} {address : IPv4Address}
    (h : machine.Reaches Machine.any machine.start s) (hprovider : (s.sessions c).provider = some address)
    (hstep : machine.step s (.register c name) = some s₁) (hrun : machine.Reaches (Keeps address) s₁ s') :
    (⟨name, s.services.services.next, address.toString⟩ : Entry (List Byte) (List Byte)) ∈
      s'.services.services.entries := by
  have hs : Owning s := owning_of_reaches .initial h
  obtain ⟨henabled, rfl⟩ := machine_step hstep
  have hs₁ := hs.next henabled
  have hnext : next s (.register c name) = { s with services := s.services.register name address.toString } := by
    simp only [next, hprovider]
  have hnew : Kept ⟨name, s.services.services.next, address.toString⟩ (next s (.register c name)) := by
    rw [hnext]
    refine ⟨Multimap.mem_emplace.2 (.inl rfl), ?_⟩
    intro d its hphase hin
    exact absurd (hs.erasing d _ its hphase _ hin).1 (Nat.lt_irrefl _)
  have hkept : Kept ⟨name, s.services.services.next, address.toString⟩ s' := by
    refine hrun.invariant_along (I := Kept _) ?_ hnew
    intro t e t' hreach hin hkeeps hstep'
    obtain ⟨henabled', rfl⟩ := machine_step hstep'
    exact hin.next (owning_of_reaches hs₁ hreach) henabled' rfl hkeeps
  exact hkept.mem

end RpcServiceRegistry

section

attribute [local instance] Host.zeroed

namespace RpcServiceRegistry

private def provider80 : IPv4Address := ⟨0x7f000001#32, 80#16⟩

private def provider81 : IPv4Address := ⟨0x7f000001#32, 81#16⟩

/-- Two providers register "a", and one of them leaves. -/
theorem registered_of_reaches_provider :
    ∃ s', machine.run machine.start
        [.accept 1, .provider 1 provider80, .accept 2, .provider 2 provider81, .register 2 (text "a"),
          .register 1 (text "a"), .leave 2, .erase 2, .finish 2] = some s' ∧
      (⟨text "a", 1, provider80.toString⟩ : Entry (List Byte) (List Byte)) ∈ s'.services.services.entries := by
  let start : List Event :=
    [.accept 1, .provider 1 provider80, .accept 2, .provider 2 provider81, .register 2 (text "a")]
  let s := next (next (next (next (next .initial (.accept 1)) (.provider 1 provider80)) (.accept 2))
    (.provider 2 provider81)) (.register 2 (text "a"))
  let s₁ := next s (.register 1 (text "a"))
  let s₂ := next s₁ (.leave 2)
  have hrun : machine.run machine.start start = some s := rfl
  have hleave : Keeps provider80 s₁ (.leave 2) := by
    intro c provider he hprovider
    cases he
    obtain rfl : provider81 = provider := Option.some.inj hprovider
    decide
  have hkeeps : ∀ t : State, ∀ e ∈ [Event.erase 2, .finish 2], Keeps provider80 t e := by
    rintro t e he c provider rfl
    simp at he
  have herase : machine.Reaches (Keeps provider80) s₂ (next (next s₂ (.erase 2)) (.finish 2)) :=
    Machine.reaches_of_run_forall hkeeps rfl
  have hregister : machine.step s (.register 1 (text "a")) = some s₁ := rfl
  exact ⟨next (next s₂ (.erase 2)) (.finish 2), rfl,
    registered_of_reaches (Machine.reaches_of_run hrun) rfl hregister (.head hleave rfl herase)⟩

/-- What a session has registered stays until this session leaves. -/
def StaysRegistered [Host] : Prop :=
  ∀ s s₁ s' c name, machine.Reaches Machine.any machine.start s → machine.step s (.register c name) = some s₁ →
    machine.Reaches (fun _ e => e ≠ .leave c) s₁ s' →
    ∃ entry ∈ s'.services.services.entries, entry.node = s.services.services.next

/-- A provider has come back before its old connection is found to have ended. -/
theorem not_staysRegistered : ¬ StaysRegistered := by
  intro h
  let s := next (next (next (next .initial (.accept 1)) (.provider 1 provider80)) (.accept 2)) (.provider 2 provider80)
  let s₁ := next s (.register 2 (text "a"))
  have hrun : machine.run machine.start
      [.accept 1, .provider 1 provider80, .accept 2, .provider 2 provider80] = some s := rfl
  let s₂ := next (next s₁ (.leave 1)) (.erase 1)
  have hother : ∀ t : State, ∀ e ∈ [Event.leave 1, .erase 1], e ≠ .leave 2 := by simp
  have hleft : machine.Reaches (fun _ e => e ≠ .leave 2) s₁ s₂ := Machine.reaches_of_run_forall hother rfl
  obtain ⟨entry, hin, -⟩ := h s s₁ s₂ 2 (text "a") (Machine.reaches_of_run hrun) rfl hleft
  have hnone : s₂.services.services.entries = [] := rfl
  rw [hnone] at hin
  cases hin

end RpcServiceRegistry

end

/-! ### Subscriptions -/

namespace RpcServiceRegistry

private theorem filter_key {α : Type} {entries : List (List Byte × α)} (hnodup : (entries.map Prod.fst).Nodup)
    {key : List Byte} {a : α} (hin : (key, a) ∈ entries) :
    (entries.filter fun entry => entry.1 = key) = [(key, a)] := by
  induction entries with
  | nil => cases hin
  | cons entry entries ih =>
    rw [List.map_cons, List.nodup_cons] at hnodup
    rcases List.mem_cons.1 hin with rfl | hmem
    · have hnone : (entries.filter fun entry => entry.1 = key) = [] := by
        rw [List.filter_eq_nil_iff]
        intro other hother heq
        exact hnodup.1 (List.mem_map.2 ⟨other, hother, of_decide_eq_true heq⟩)
      simp [hnone]
    · have hne : entry.1 ≠ key := by
        intro heq
        exact hnodup.1 (List.mem_map.2 ⟨(key, a), hmem, heq.symm⟩)
      simp [hne, ih hnodup.2 hmem]

/-- With one entry for each key, a message goes to the session of that entry, if it can be reached. -/
theorem count_publish {registry : RpcServiceRegistry} (hnodup : (registry.subscribes.map Prod.fst).Nodup)
    (reachable : Nat → Bool) (key content : List Byte) (c : Nat) :
    ((registry.publish reachable key content).map Prod.fst).count c =
      if reachable c = true ∧ (key, c) ∈ registry.subscribes then 1 else 0 := by
  by_cases hin : ∃ d, (key, d) ∈ registry.subscribes
  · obtain ⟨d, hd⟩ := hin
    have hpublish : (registry.publish reachable key content).map Prod.fst = if reachable d then [d] else [] := by
      unfold publish
      rw [if_neg (by simpa using List.ne_nil_of_mem hd), filter_key hnodup hd]
      by_cases hreach : reachable d <;> simp [hreach]
    have hone : (key, c) ∈ registry.subscribes ↔ d = c := by
      constructor
      · intro hc
        have hsame := (filter_key hnodup hd).symm.trans (filter_key hnodup hc)
        simpa using hsame
      · rintro rfl
        exact hd
    rw [hpublish]
    simp only [hone]
    by_cases heq : d = c
    · subst heq
      by_cases hreach : reachable d <;> simp [hreach]
    · by_cases hreach : reachable d <;> simp [hreach, heq]
  · have hnone : (key, c) ∉ registry.subscribes := fun hc => hin ⟨c, hc⟩
    rw [if_neg fun h => hnone h.2, List.count_eq_zero]
    intro hmem
    obtain ⟨⟨d, pub⟩, hpub, rfl⟩ := List.mem_map.1 hmem
    exact hnone (mem_publish.1 hpub).1

/-- A subscription under a key that another session has an entry for is lost. -/
def Sole (s : State) (e : Event) : Prop :=
  ∀ c content key rest, e = .subscribe c content → takeString content = some (key, rest) → s.reachable c = true →
    ∀ d, (key, d) ∈ s.registry.subscribes → d = c

/-- What holds of the subscriptions as long as none is lost. -/
structure Tracked (s : State) : Prop where
  nodup : (s.registry.subscribes.map Prod.fst).Nodup
  acknowledged : ∀ entry ∈ s.registry.subscribes, entry ∈ s.acknowledged
  kept : ∀ key c, (key, c) ∈ s.acknowledged → s.reachable c = true → (key, c) ∈ s.registry.subscribes
  used : ∀ key c, (key, c) ∈ s.acknowledged → (s.sessions c).phase ≠ .unused

theorem Tracked.initial : Tracked .initial where
  nodup := List.nodup_nil
  acknowledged entry h := by cases h
  kept key c h := by cases h
  used key c h := by cases h

/-- A session that changes, and is not reached where it was not. -/
theorem Tracked.setSession {s : State} (h : Tracked s) {c : Nat} {session : Session}
    (hreach : (session.alive && session.connected) = true → s.reachable c = true ∨ (s.sessions c).phase = .unused)
    (hused : (s.sessions c).phase ≠ .unused → session.phase ≠ .unused) : Tracked (s.setSession c session) := by
  refine { h with kept := ?_, used := ?_ }
  · intro key d hack hd
    by_cases heq : d = c
    · subst heq
      rcases hreach (by simpa [State.reachable, State.setSession] using hd) with hold | hunused
      · exact h.kept key d hack hold
      · exact absurd hunused (h.used key d hack)
    · exact h.kept key d hack (by simpa [State.reachable, State.setSession, Function.update_of_ne heq] using hd)
  · intro key d hack
    by_cases heq : d = c
    · subst heq
      simpa [State.setSession] using hused (h.used key d hack)
    · simpa [State.setSession, Function.update_of_ne heq] using h.used key d hack

/-- Only a session that is served goes on to leave. -/
theorem Tracked.setPhase {s : State} (h : Tracked s) {c : Nat} {phase : SessionPhase}
    (hold : (s.sessions c).alive = true) (hunused : phase ≠ .unused) : Tracked (s.setPhase c phase) := by
  refine h.setSession (fun hreach => .inl ?_) (fun _ => hunused)
  rw [State.reachable, hold]
  exact (Bool.and_eq_true_iff.1 hreach).2

/-- A session is told that it is subscribed, and has an entry if it can be reached. -/
theorem Tracked.acknowledge {s : State} (h : Tracked s) {key : List Byte} {c : Nat}
    (hused : (s.sessions c).phase ≠ .unused) {subscribes : List (List Byte × Nat)}
    (hnodup : (subscribes.map Prod.fst).Nodup) (hold : ∀ entry ∈ s.registry.subscribes, entry ∈ subscribes)
    (hnew : ∀ entry ∈ subscribes, entry ∈ s.registry.subscribes ∨ entry = (key, c))
    (hown : s.reachable c = true → (key, c) ∈ subscribes) :
    Tracked { s with registry := ⟨subscribes⟩, acknowledged := (key, c) :: s.acknowledged } := by
  constructor
  case nodup => exact hnodup
  case acknowledged =>
    intro entry hentry
    rcases hnew entry hentry with hmem | rfl
    · exact List.mem_cons_of_mem _ (h.acknowledged entry hmem)
    · exact List.mem_cons_self
  case kept =>
    intro k d hack hreach
    rcases List.mem_cons.1 hack with heq | hmem
    · cases heq
      exact hown hreach
    · exact hold _ (h.kept k d hmem hreach)
  case used =>
    intro k d hack
    rcases List.mem_cons.1 hack with heq | hmem
    · cases heq
      exact hused
    · exact h.used k d hmem

variable [Host]

theorem Tracked.clean {s : State} (h : Tracked s) : Tracked (next s .clean) := by
  constructor
  case nodup =>
    refine List.Nodup.sublist ?_ h.nodup
    exact List.Sublist.map Prod.fst List.filter_sublist
  case acknowledged =>
    intro entry hentry
    exact h.acknowledged entry (List.mem_filter.1 hentry).1
  case kept =>
    intro key c hack hreach
    exact List.mem_filter.2 ⟨h.kept key c hack hreach, hreach⟩
  case used => exact h.used

theorem Tracked.subscribe {s : State} (h : Tracked s) {c : Nat} {content : List Byte}
    (henabled : Enabled s (.subscribe c content)) (hsole : Sole s (.subscribe c content)) :
    Tracked (next s (.subscribe c content)) := by
  obtain ⟨hserving, hlen, hsome⟩ := henabled
  obtain ⟨⟨key, rest⟩, htake⟩ := Option.isSome_iff_exists.1 hsome
  have hhandled : s.registry.handleSubscribe (Protocol.create .rpcSubscribeRequest content 0) c = _ :=
    registrySubscribe_eq s.registry c hlen htake
  have hnext : next s (.subscribe c content) =
      { s with
        registry := ⟨if (s.registry.subscribes.lookup key).isSome then s.registry.subscribes
          else s.registry.subscribes ++ [(key, c)]⟩
        acknowledged := (key, c) :: s.acknowledged } := by
    simp only [next, State.subscribe, hhandled, htake]
  rw [hnext]
  have hused : (s.sessions c).phase ≠ .unused := by simp [hserving]
  cases hlookup : s.registry.subscribes.lookup key with
  | some d =>
    have hd : (key, d) ∈ s.registry.subscribes := by
      obtain ⟨before, behind, heq, -⟩ := List.lookup_eq_some_iff.1 hlookup
      rw [heq]
      simp
    simp only [Option.isSome_some, if_true]
    refine h.acknowledge hused h.nodup (fun _ hentry => hentry) (fun _ hentry => .inl hentry) ?_
    -- the entry of the key is this session's own
    intro hreach
    rwa [← hsole c content key rest rfl htake hreach d hd]
  | none =>
    have hnone : ∀ entry ∈ s.registry.subscribes, entry.1 ≠ key := by
      intro entry hentry heq
      have hne := List.lookup_eq_none_iff.1 hlookup entry hentry
      simp [heq] at hne
    simp only [Option.isSome_none, Bool.false_eq_true, if_false]
    refine h.acknowledge hused ?_ (fun _ => List.mem_append_left _) ?_ (fun _ => by simp)
    · rw [List.map_append, List.nodup_append]
      refine ⟨h.nodup, List.nodup_singleton _, ?_⟩
      intro k hk k' hk' heq
      obtain ⟨entry, hentry, rfl⟩ := List.mem_map.1 hk
      rw [List.map_singleton, List.mem_singleton] at hk'
      exact hnone entry hentry (heq.trans hk')
    · intro entry hentry
      exact (List.mem_append.1 hentry).imp_right List.mem_singleton.1

theorem Tracked.next {s : State} (h : Tracked s) {e : Event} (henabled : Enabled s e) (hsole : Sole s e) :
    Tracked (next s e) := by
  cases e with
  | accept c => exact h.setSession (fun _ => .inr henabled) (fun hne => absurd henabled hne)
  | provider c address =>
    refine h.setSession (fun hreach => .inl hreach) ?_
    intro hne
    exact hne
  | register c name =>
    cases hprovider : (s.sessions c).provider with
    | none =>
      simp only [RpcServiceRegistry.next, hprovider]
      exact h
    | some address =>
      simp only [RpcServiceRegistry.next, hprovider]
      exact { h with }
  | subscribe c content => exact h.subscribe henabled hsole
  | disconnect c =>
    refine h.setSession (fun hreach => ?_) ?_
    · simp at hreach
    · intro hne
      exact hne
  | leave c =>
    have hserving : (s.sessions c).alive = true := by
      have hphase : (s.sessions c).phase = .serving := henabled
      simp [Session.alive, hphase]
    show Tracked (s.leave c)
    rcases leave_eq s c with heq | ⟨address, -, heq⟩
    · rw [heq]
      exact h.setPhase hserving SessionPhase.noConfusion
    · rw [heq]
      exact h.setPhase hserving SessionPhase.noConfusion
  | erase c =>
    obtain ⟨s', hs'⟩ := Option.isSome_iff_exists.1 henabled
    obtain ⟨address, i, its, services, hphase, -, rfl⟩ := erase_eq_some hs'
    simp only [RpcServiceRegistry.next, hs', Option.getD_some]
    exact { h.setPhase (c := c) (by simp [Session.alive, hphase]) SessionPhase.noConfusion with }
  | finish c =>
    obtain ⟨s', hs'⟩ := Option.isSome_iff_exists.1 henabled
    obtain ⟨address, hphase, rfl⟩ := finish_eq_some hs'
    simp only [RpcServiceRegistry.next, hs', Option.getD_some]
    exact { h.setPhase (c := c) (by simp [Session.alive, hphase]) SessionPhase.noConfusion with }
  | destroy c =>
    refine h.setSession (fun hreach => ?_) (fun _ => by simp)
    simp at hreach
  | clean => exact h.clean

/-- In a run in which no subscription is lost, a publication reaches just the sessions that have been told that they
are subscribed and are still connected, and each of them once. -/
theorem recipients_of_reaches {s : State} (h : machine.Reaches Sole machine.start s) (key content : List Byte) :
    (∀ c, ((s.registry.publish s.reachable key content).map Prod.fst).count c =
      if s.reachable c = true ∧ (key, c) ∈ s.acknowledged then 1 else 0) ∧
    ∀ sent ∈ s.registry.publish s.reachable key content, sent.2 = Protocol.create .rpcPublishRequest content 0 := by
  have hs : Tracked s := by
    refine h.invariant (I := Tracked) ?_ .initial
    intro t e t' ht hsole hstep
    obtain ⟨henabled, rfl⟩ := machine_step hstep
    exact ht.next henabled hsole
  constructor
  · intro c
    rw [count_publish hs.nodup]
    by_cases hreach : s.reachable c = true
    · have hiff : (key, c) ∈ s.registry.subscribes ↔ (key, c) ∈ s.acknowledged :=
        ⟨hs.acknowledged (key, c), fun hack => hs.kept key c hack hreach⟩
      simp only [hiff]
    · simp [hreach]
  · rintro ⟨c, pub⟩ hsent
    exact (mem_publish.1 hsent).2.2

end RpcServiceRegistry

section

attribute [local instance] Host.zeroed

namespace RpcServiceRegistry

/-- One session subscribes. -/
theorem recipients_of_reaches_one :
    ∃ s, machine.run machine.start [.accept 1, .subscribe 1 (stringVint (text "k"))] = some s ∧
      ((s.registry.publish s.reachable (text "k") []).map Prod.fst).count 1 = 1 := by
  let s := next .initial (.accept 1)
  have hsubscribe : Sole s (.subscribe 1 (stringVint (text "k"))) := by
    intro c content key rest he _ _ d hd
    cases hd
  have haccept : Sole .initial (.accept 1) := by
    intro c content key rest he
    cases he
  have hreach : machine.Reaches Sole machine.start (next s (.subscribe 1 (stringVint (text "k")))) :=
    .head haccept rfl (.single hsubscribe rfl)
  refine ⟨next s (.subscribe 1 (stringVint (text "k"))), rfl, ?_⟩
  exact ((recipients_of_reaches hreach (text "k") []).1 1).trans (by decide +kernel)

/-- Every session that has been told that it is subscribed, and is still connected, is sent one message. -/
def AllTold [Host] : Prop :=
  ∀ s, machine.Reaches Machine.any machine.start s → ∀ key content c,
    ((s.registry.publish s.reachable key content).map Prod.fst).count c =
      if s.reachable c = true ∧ (key, c) ∈ s.acknowledged then 1 else 0

/-- Of two sessions under one key the second is told that it is subscribed, and nothing more. -/
theorem not_allTold : ¬ AllTold := by
  intro h
  obtain ⟨s, hreach, hcount, htold⟩ : ∃ s, machine.Reaches Machine.any machine.start s ∧
      ((s.registry.publish s.reachable (text "k") []).map Prod.fst).count 2 = 0 ∧
      s.reachable 2 = true ∧ (text "k", 2) ∈ s.acknowledged :=
    Machine.exists_reaches_of_run
      [.accept 1, .accept 2, .subscribe 1 (stringVint (text "k")), .subscribe 2 (stringVint (text "k"))]
      (fun _ _ _ => trivial) (by decide +kernel)
  have hone := h s hreach (text "k") [] 2
  rw [hcount, if_pos htold] at hone
  cases hone

end RpcServiceRegistry

end

end AcidCompute

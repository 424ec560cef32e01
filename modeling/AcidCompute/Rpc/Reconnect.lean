import AcidCompute.Rpc.Client

/-!
# A client that connects again

A call erases its entry when it wakes, unless `m_is_close` is set, because `close` clears the map.  `connect` resets the
flag, and does not ask whether calls that `close` has woken are still on their way to that test.

As long as every `connect` finds the entries of all calls that are under way, and new calls find their ids free, a call
erases its own entry (`RpcClient.Reconnect.attached_of_reaches`).
-/

namespace AcidCompute

namespace RpcClient

namespace Reconnect

inductive Event
  | client (e : RpcClient.Event)
  -- a `connect` that succeeds; one that fails leaves `m_is_close` and the map alone
  | connect
  deriving DecidableEq, Repr

/-- `close` may be called again. -/
def reopened : Closer → Closer
  | .finished => .idle
  | closer => closer

def Enabled (config : Config) (s : State) : Event → Prop
  | .client e => RpcClient.Enabled config s e
  | .connect => True

instance (config : Config) (s : State) : (e : Event) → Decidable (Enabled config s e)
  | .client e => inferInstanceAs (Decidable (RpcClient.Enabled config s e))
  | .connect => inferInstanceAs (Decidable True)

def next (s : State) : Event → State
  | .client e => RpcClient.next s e
  | .connect =>
    { s with isClose := false, connected := true, sending := [], sendClosed := false, closer := reopened s.closer }

def machine (config : Config) : Machine State Event where
  start := connectedClient
  step s e := if Enabled config s e then some (next s e) else none

/-- The entry that the registration of a call has made. -/
def entry (s : State) (c : Nat) : Entry (BitVec 32) Nat := ⟨(s.calls c).id, (s.calls c).it, c⟩

/-- While `m_is_close` is not set, the calls under way have their entries, and no `close` is about to remove them. -/
def Attached (s : State) : Prop :=
  s.isClose = false → ∀ c, (s.calls c).Pending → entry s c ∈ s.responseHandle.entries ∧ s.closer.holdsMutex = false

/-- `connect` finds the entries of all calls under way and no `close`, and new calls find their ids free. -/
def Settled (s : State) : Event → Prop
  | .connect => ∀ c, (s.calls c).Pending → entry s c ∈ s.responseHandle.entries ∧ s.closer.holdsMutex = false
  | .client (.register _) => s.isClose = false → s.responseHandle.find s.sequenceId = none
  | .client _ => True

/-- The call has registered. -/
def Begun (call : Call) : Prop := call.phase ≠ .idle ∧ call.phase ≠ .opened

/-- What holds in every run: entries are of calls that have registered. -/
def Tracked (s : State) : Prop := ∀ e ∈ s.responseHandle.entries, Begun (s.calls e.value)

variable {config : Config} {s s' : State} {c : Nat}

theorem machine_step {e : Event} (h : (machine config).step s e = some s') :
    Enabled config s e ∧ next s e = s' := by
  simpa [machine] using h

/-! ### Steps that leave the map alone -/

/-- The map and the flag stay, and calls go on with the entries that they have. -/
structure Quiet (s s' : State) : Prop where
  handle : s'.responseHandle = s.responseHandle
  isClose : s'.isClose = s.isClose
  mutex : s'.closer.holdsMutex = s.closer.holdsMutex
  broken : s'.broken = s.broken
  pending : ∀ d, (s'.calls d).Pending → (s.calls d).Pending ∧ entry s' d = entry s d
  begun : ∀ d, Begun (s.calls d) → Begun (s'.calls d)

theorem Quiet.refl (s : State) : Quiet s s := ⟨rfl, rfl, rfl, rfl, fun _ hd => ⟨hd, rfl⟩, fun _ hd => hd⟩

theorem Quiet.setCall {call : Call} (hid : call.id = (s.calls c).id) (hit : call.it = (s.calls c).it)
    (hpending : call.Pending → (s.calls c).Pending) (hbegun : Begun (s.calls c) → Begun call) :
    Quiet s (s.setCall c call) where
  handle := rfl
  isClose := rfl
  mutex := rfl
  broken := rfl
  pending d hd := by
    by_cases heq : d = c
    · subst heq
      rw [setCall_calls, if_pos rfl] at hd
      refine ⟨hpending hd, ?_⟩
      simp [entry, hid, hit]
    · rw [setCall_calls, if_neg heq] at hd
      exact ⟨hd, by simp [entry, heq]⟩
  begun d hd := by
    rw [setCall_calls]
    by_cases heq : d = c
    · subst heq
      rw [if_pos rfl]
      exact hbegun hd
    · rwa [if_neg heq]

/-- A call that has not registered goes on without an entry. -/
theorem Quiet.fresh {call : Call} (hnot : ¬ Begun (s.calls c)) (hpending : ¬ call.Pending) :
    Quiet s (s.setCall c call) where
  handle := rfl
  isClose := rfl
  mutex := rfl
  broken := rfl
  pending d hd := by
    by_cases heq : d = c
    · subst heq
      rw [setCall_calls, if_pos rfl] at hd
      exact absurd hd hpending
    · rw [setCall_calls, if_neg heq] at hd
      exact ⟨hd, by simp [entry, heq]⟩
  begun d hd := by
    rw [setCall_calls]
    by_cases heq : d = c
    · subst heq
      exact absurd hd hnot
    · rwa [if_neg heq]

theorem Quiet.pushTo (s : State) (c : Nat) (x : Option Protocol) : Quiet s (s.pushTo c x) := by
  unfold State.pushTo
  split
  case isTrue => exact Quiet.refl s
  case isFalse => exact Quiet.setCall rfl rfl id id

/-- The events that register a call or remove entries. -/
def Edits : RpcClient.Event → Bool
  | .register _ => true
  | .finish _ => true
  | .close => true
  | .closeEnd => true
  | _ => false

theorem Quiet.of_next {e : RpcClient.Event} (henabled : RpcClient.Enabled config s e) (hedits : Edits e = false) :
    Quiet s (RpcClient.next s e) := by
  cases e with
  | start c =>
    have hnot : ¬ Begun (s.calls c) := fun hbegun => hbegun.1 henabled
    dsimp only [RpcClient.next]
    split
    case isTrue => exact Quiet.fresh hnot (by simp [Call.Pending])
    case isFalse => exact Quiet.fresh hnot (by simp [Call.Pending])
  | register c => cases hedits
  | send c =>
    have hsent : Quiet s (s.setCall c { s.calls c with phase := .waiting }) :=
      Quiet.setCall rfl rfl (fun _ => .inl henabled.1) (fun _ => by simp [Begun])
    exact { hsent with }
  | receive c =>
    dsimp only [RpcClient.next]
    split
    case isTrue => exact Quiet.setCall rfl rfl (fun _ => .inr (.inl henabled.1)) (fun _ => by simp [Begun])
    case isFalse => exact Quiet.setCall rfl rfl (fun _ => .inr (.inl henabled.1)) (fun _ => by simp [Begun])
  | cancel c => exact Quiet.setCall rfl rfl (fun _ => .inr (.inr (.inl henabled))) (fun _ => by simp [Begun])
  | finish c => cases hedits
  | fire c => exact Quiet.setCall rfl rfl id id
  | transmit => exact { Quiet.refl s with }
  | respond r => exact { Quiet.refl s with }
  | lookUp r =>
    dsimp only [RpcClient.next]
    split
    case h_1 => exact { Quiet.refl s with }
    case h_2 => exact { Quiet.refl s with }
  | push r c => exact { Quiet.pushTo s c (some r) with }
  | close => cases hedits
  | notify c rest =>
    have hholds : s.closer.holdsMutex = true := by
      rw [henabled.1]
      rfl
    exact { Quiet.pushTo s c none with mutex := hholds.symm }
  | closeEnd => cases hedits

theorem Quiet.tracked (h : Quiet s s') (ht : Tracked s) : Tracked s' := by
  intro e he
  rw [h.handle] at he
  exact h.begun e.value (ht e he)

theorem Quiet.attached (h : Quiet s s') (ha : Attached s) : Attached s' := by
  intro hopen d hd
  rw [h.isClose] at hopen
  obtain ⟨hpending, hentry⟩ := h.pending d hd
  rw [h.handle, h.mutex, hentry]
  exact ha hopen d hpending

/-! ### Steps that change the map -/

/-- A call goes on whose entry is gone, or that has none yet, and the other calls keep theirs. -/
private theorem calls_of_ne {call : Call} {d : Nat} (hne : d ≠ c) : (s.setCall c call).calls d = s.calls d := by
  rw [setCall_calls, if_neg hne]

theorem tracked_register (ht : Tracked s) : Tracked (RpcClient.next s (.register c)) := by
  have hcalls : ∀ d, Begun (s.calls d) ∨ d = c → Begun ((RpcClient.next s (.register c)).calls d) := by
    intro d hd
    dsimp only [RpcClient.next]
    rw [setCall_calls]
    by_cases heq : d = c
    · rw [if_pos heq]
      simp [Begun]
    · rw [if_neg heq]
      exact hd.resolve_right heq
  intro e he
  have hmem : e ∈ (s.responseHandle.emplace s.sequenceId c).1.entries := he
  cases hfind : s.responseHandle.find s.sequenceId with
  | some x =>
    rw [NodeMap.emplace_of_some hfind] at hmem
    exact hcalls _ (.inl (ht e hmem))
  | none =>
    rw [(NodeMap.emplace_of_none hfind c).2.1, NodeMap.mem_insertEntry] at hmem
    rcases hmem with rfl | hold
    · exact hcalls _ (.inr rfl)
    · exact hcalls _ (.inl (ht e hold))

/-- The registration makes an entry for the call if it finds the id free, and else finds the entry of another call. -/
theorem attached_register_iff (ht : Tracked s) (ha : Attached s) (hopened : (s.calls c).phase = .opened)
    (hfree : ¬ s.Locked) :
    Attached (RpcClient.next s (.register c)) ↔
      (s.isClose = false → s.responseHandle.find s.sequenceId = none) := by
  have hmutex : s.closer.holdsMutex = false := by
    by_contra hheld
    exact hfree (.inr (by simpa using hheld))
  have hnot : ¬ Begun (s.calls c) := fun hbegun => hbegun.2 hopened
  have hself : entry (RpcClient.next s (.register c)) c =
      ⟨s.sequenceId, (s.responseHandle.emplace s.sequenceId c).2, c⟩ := by
    simp [RpcClient.next, entry]
  constructor
  · intro hattached hopen
    rcases Option.eq_none_or_eq_some (s.responseHandle.find s.sequenceId) with hnone | ⟨x, hx⟩
    · exact hnone
    · have hpending : ((RpcClient.next s (.register c)).calls c).Pending := by simp [RpcClient.next, Call.Pending]
      have hmem := (hattached hopen c hpending).1
      rw [hself] at hmem
      have hold : (⟨s.sequenceId, (s.responseHandle.emplace s.sequenceId c).2, c⟩ : Entry (BitVec 32) Nat) ∈
          s.responseHandle.entries := by
        simpa [RpcClient.next, NodeMap.emplace_of_some hx] using hmem
      exact absurd (ht _ hold) hnot
  · intro hnone hopen d hd
    have hinsert := NodeMap.emplace_of_none (hnone hopen) c
    have hentries : ∀ e, e ∈ (RpcClient.next s (.register c)).responseHandle.entries ↔
        e = ⟨s.sequenceId, s.responseHandle.next, c⟩ ∨ e ∈ s.responseHandle.entries := by
      intro e
      show e ∈ (s.responseHandle.emplace s.sequenceId c).1.entries ↔ _
      rw [hinsert.2.1, NodeMap.mem_insertEntry]
    refine ⟨(hentries _).2 ?_, hmutex⟩
    by_cases heq : d = c
    · subst heq
      rw [hself, hinsert.1]
      exact .inl rfl
    · have hsame : (RpcClient.next s (.register c)).calls d = s.calls d := by
        dsimp only [RpcClient.next]
        rw [calls_of_ne heq]
      rw [hsame] at hd
      rw [entry, hsame]
      exact .inr (ha hopen d hd).1

/-- The iterator of a call that erases is the one of its own entry. -/
theorem attached_finish (ha : Attached s) (hcancelled : (s.calls c).phase = .cancelled) :
    Attached (RpcClient.next s (.finish c)) ∧ (RpcClient.next s (.finish c)).broken = s.broken := by
  by_cases hclose : s.isClose = true
  · have hnext : RpcClient.next s (.finish c) =
        s.setCall c { s.calls c with phase := .returned (s.calls c).outcome } := by
      simp [RpcClient.next, hclose]
    rw [hnext]
    refine ⟨fun hopen => ?_, rfl⟩
    rw [show s.isClose = false from hopen] at hclose
    cases hclose
  · have hopen : s.isClose = false := by simpa using hclose
    have hown := (ha hopen c (.inr (.inr (.inr hcancelled)))).1
    obtain ⟨handle, herase, hentries⟩ := NodeMap.erase_of_mem hown
    have hnext : RpcClient.next s (.finish c) =
        { s.setCall c { s.calls c with phase := .returned (s.calls c).outcome } with responseHandle := handle } := by
      have herase' : s.responseHandle.erase (s.calls c).it = some handle := herase
      simp [RpcClient.next, hopen, herase']
    rw [hnext]
    refine ⟨fun _ d hd => ?_, rfl⟩
    have hne : d ≠ c := by
      rintro rfl
      simp [Call.Pending] at hd
    have hsame : (s.setCall c { s.calls c with phase := .returned (s.calls c).outcome }).calls d = s.calls d :=
      calls_of_ne hne
    rw [hsame] at hd
    obtain ⟨hmem, hmutex⟩ := ha hopen d hd
    rw [entry, hsame, hentries]
    refine ⟨⟨hmem, fun hnode => ?_⟩, hmutex⟩
    -- entries with one node are one entry, and belong to one call
    exact hne (congrArg Entry.value (NodeMap.eq_of_node hmem hown hnode))

/-- Entries are only removed, and calls that have registered go on. -/
private theorem tracked_finish (ht : Tracked s) : Tracked (RpcClient.next s (.finish c)) := by
  have hcalls : ∀ d, Begun (s.calls d) →
      Begun ((s.setCall c { s.calls c with phase := .returned (s.calls c).outcome }).calls d) := by
    intro d hd
    by_cases heq : d = c
    · subst heq
      simp [Begun]
    · rwa [calls_of_ne heq]
  dsimp only [RpcClient.next]
  split
  case isTrue => exact fun e he => hcalls _ (ht e he)
  case isFalse =>
    split
    case h_1 handle herase => exact fun e he => hcalls _ (ht e (NodeMap.mem_of_erase herase he))
    case h_2 => exact fun e he => hcalls _ (ht e he)

theorem Tracked.step {e : Event} (ht : Tracked s) (hstep : (machine config).step s e = some s') : Tracked s' := by
  obtain ⟨henabled, rfl⟩ := machine_step hstep
  cases e with
  | connect => exact ht
  | client e =>
    cases hedits : Edits e with
    | false => exact (Quiet.of_next henabled hedits).tracked ht
    | true =>
      cases e with
      | register c => exact tracked_register ht
      | finish c => exact tracked_finish ht
      | close =>
        dsimp only [next, RpcClient.next]
        split
        case isTrue => exact ht
        case isFalse => exact ht
      | closeEnd =>
        intro e he
        cases he
      | _ => cases hedits

/-- A step leaves the calls under way with their entries just if it is settled. -/
theorem attached_iff {e : Event} (ht : Tracked s) (ha : Attached s) (hstep : (machine config).step s e = some s') :
    Attached s' ↔ Settled s e := by
  obtain ⟨henabled, rfl⟩ := machine_step hstep
  cases e with
  | connect =>
    have hmutex : (reopened s.closer).holdsMutex = s.closer.holdsMutex := by cases s.closer <;> rfl
    have hattached : Attached (next s .connect) ↔ ∀ c, (s.calls c).Pending →
        entry s c ∈ s.responseHandle.entries ∧ (reopened s.closer).holdsMutex = false :=
      ⟨fun h => h rfl, fun h _ => h⟩
    rw [hattached, hmutex]
    rfl
  | client e =>
    cases hedits : Edits e with
    | false =>
      have hsettled : Settled s (.client e) := by
        cases e with
        | register c => cases hedits
        | _ => trivial
      exact iff_of_true ((Quiet.of_next henabled hedits).attached ha) hsettled
    | true =>
      cases e with
      | register c => exact attached_register_iff ht ha henabled.1 henabled.2
      | finish c => exact iff_of_true (attached_finish ha henabled.1).1 trivial
      | close =>
        refine iff_of_true ?_ trivial
        dsimp only [next, RpcClient.next]
        split
        case isTrue hclose =>
          intro hopen
          rw [show s.isClose = false from hopen] at hclose
          cases hclose
        case isFalse =>
          intro hopen
          cases hopen
      | closeEnd =>
        refine iff_of_true (fun hopen d hd => ?_) trivial
        have hholds : s.closer.holdsMutex = true := by
          rw [show s.closer = .notifying [] from henabled]
          rfl
        have hnot := (ha hopen d hd).2
        rw [hholds] at hnot
        cases hnot
      | _ => cases hedits

theorem broken_next {e : Event} (ha : Attached s) (hstep : (machine config).step s e = some s') :
    s'.broken = s.broken := by
  obtain ⟨henabled, rfl⟩ := machine_step hstep
  cases e with
  | connect => rfl
  | client e =>
    cases hedits : Edits e with
    | false => exact (Quiet.of_next henabled hedits).broken
    | true =>
      cases e with
      | register c => rfl
      | finish c => exact (attached_finish ha henabled.1).2
      | close =>
        dsimp only [next, RpcClient.next]
        split
        case isTrue => rfl
        case isFalse => rfl
      | closeEnd => rfl
      | _ => cases hedits

/-- The calls under way keep their entries while `m_is_close` is not set, just in the runs whose steps are settled.  In
these a call erases the entry that it has made, and no iterator whose node is gone. -/
theorem attached_of_reaches :
    ((machine config).Reaches ((machine config).Keeps Attached) connectedClient s ↔
        (machine config).Reaches Settled connectedClient s) ∧
      ((machine config).Reaches Settled connectedClient s → s.broken = false ∧
        ∀ c, (s.calls c).phase = .cancelled → s.isClose = false →
          s.responseHandle.deref (s.calls c).it = some (entry s c)) := by
  have htracked : Tracked connectedClient := fun e he => by cases he
  have hattached : Attached connectedClient := fun _ c hc => by simp [connectedClient, Call.Pending, Call.fresh] at hc
  constructor
  · exact Machine.reaches_keeps_iff htracked hattached (fun _ _ _ ht hstep => ht.step hstep)
      fun _ _ _ ht ha hstep => attached_iff ht ha hstep
  · intro h
    have hinv : Tracked s ∧ Attached s ∧ s.broken = false := by
      refine h.invariant (I := fun t => Tracked t ∧ Attached t ∧ t.broken = false) ?_ ⟨htracked, hattached, rfl⟩
      rintro t e t' ⟨ht, ha, hbroken⟩ hsettled hstep
      exact ⟨ht.step hstep, (attached_iff ht ha hstep).2 hsettled, (broken_next ha hstep).trans hbroken⟩
    refine ⟨hinv.2.2, ?_⟩
    intro c hcancelled hopen
    exact NodeMap.deref_of_mem (hinv.2.1 hopen c (.inr (.inr (.inr hcancelled)))).1

/-- A call waits, `close` wakes it and removes its entry, and the client connects again before the call erases. -/
private def removed : List Event :=
  [.client (.start 0), .client (.register 0), .client (.send 0), .client .close, .client (.notify 0 []),
    .client .closeEnd, .connect, .client (.receive 0), .client (.cancel 0), .client (.finish 0)]

theorem exists_broken_removed : ∃ s, (machine ⟨false, 1⟩).Reaches Machine.any connectedClient s ∧ s.broken = true :=
  Machine.exists_reaches_of_run removed (fun _ _ _ => trivial) (by decide +kernel)

/-- The client connects again after the call has returned, and another call is answered. -/
theorem attached_of_reaches_again : ∃ s, (machine ⟨false, 1⟩).Reaches Settled connectedClient s ∧
    (s.calls 0).phase = .returned .closed ∧ (s.calls 1).phase = .cancelled ∧
      s.responseHandle.deref (s.calls 1).it = some (entry s 1) := by
  obtain ⟨s, hreach, hreturned, hcancelled, hopen⟩ : ∃ s, (machine ⟨false, 1⟩).Reaches Settled connectedClient s ∧
      (s.calls 0).phase = .returned .closed ∧ (s.calls 1).phase = .cancelled ∧ s.isClose = false := by
    let r : Protocol := ⟨0, 0, 0, 1, 0, []⟩
    refine ⟨_, .head (e := .client (.start 0)) trivial rfl <| .head (e := .client (.register 0)) (fun _ => rfl) rfl <|
      .head (e := .client (.send 0)) trivial rfl <| .head (e := .client .close) trivial rfl <|
      .head (e := .client (.notify 0 [])) trivial rfl <| .head (e := .client .closeEnd) trivial rfl <|
      .head (e := .client (.receive 0)) trivial rfl <| .head (e := .client (.cancel 0)) trivial rfl <|
      .head (e := .client (.finish 0)) trivial rfl <| .head (e := .connect) ?_ rfl <|
      .head (e := .client (.start 1)) trivial rfl <| .head (e := .client (.register 1)) (fun _ => rfl) rfl <|
      .head (e := .client (.send 1)) trivial rfl <| .head (e := .client (.respond r)) trivial rfl <|
      .head (e := .client (.lookUp r)) trivial rfl <| .head (e := .client (.push r 1)) trivial rfl <|
      .head (e := .client (.receive 1)) trivial rfl <| .single (e := .client (.cancel 1)) trivial rfl,
      by rfl, by rfl, by rfl⟩
    intro c hpending
    cases c with
    | zero =>
      revert hpending
      decide
    | succ c =>
      have hfresh : ¬ Call.fresh.Pending := by decide
      exact absurd hpending hfresh
  exact ⟨s, hreach, hreturned, hcancelled, (attached_of_reaches.2 hreach).2 1 hcancelled hopen⟩

end Reconnect

end RpcClient

end AcidCompute

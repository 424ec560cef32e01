import AcidCompute.Base.Sections
import AcidCompute.Rpc.Client
import Mathlib.Data.List.Perm.Subperm
import Mathlib.Data.List.Nodup

/-!
# Calls and what the server executes

A client is connected to a server.  `handle_client` schedules a task for every request that it receives, so that
requests are executed by several workers at once and in any order, and their responses are sent in any order.  Between
the two ends the messages of each direction arrive in order; both ends may stop at any time.

The functions that are registered may share a state, which each of them uses in one section of several accesses; no two
of these sections overlap, as if all of them locked one mutex.  Every request is executed at most once, a call that gets
a response gets the one to its own request, and what the calls see is what they would see one after another, in an order
in which a call that has returned comes before those that start later (`RpcClient.Execution.linearized_of_reaches`).
-/

namespace AcidCompute

namespace RpcClient

namespace Execution

/-- A message on its way, with the call that it belongs to. -/
structure Message where
  call : Nat
  proto : Protocol
  deriving DecidableEq, Repr

/-- A request behind its section. -/
structure Executed where
  call : Nat
  request : Protocol
  -- none if the handler throws
  response : Option Protocol
  deriving DecidableEq, Repr

/-- What `handle_method_call` does with the shared state, and the response that it makes. -/
abbrev Handler (σ ρ : Type) := Section σ ρ Protocol (Option Protocol)

/-- A client, the two directions of its connection, and a server. -/
structure State (σ ρ : Type) where
  client : RpcClient.State
  -- the calls that have an id and have not pushed their request
  unsent : List Nat
  -- the requests in `m_channel` of the client
  outgoing : List Message
  requests : List Message
  -- scheduled by `handle_client`
  tasks : List Message
  -- taken by the workers, in front of their sections
  running : List Message
  -- what the registered functions share
  shared : σ
  -- the request in its section
  holder : Option (Message × ρ)
  -- behind their sections, in front of `send_protocol`
  replies : List Message
  responses : List Message
  -- the response that the receiver of the client handles
  inHand : Option Message
  executed : List Executed

inductive Event
  | client (e : RpcClient.Event)
  -- `handle_client` receives a request, and a worker takes its task in any order
  | schedule
  | begin (m : Message)
  -- the section of the function
  | enter (m : Message)
  | access
  | leave
  -- the function has ended
  | reply (m : Message)
  deriving DecidableEq, Repr

namespace State

variable {σ ρ : Type} (s : State σ ρ)

/-- The request in its section. -/
def inside : List Message := (s.holder.map Prod.fst).toList

/-- The requests that are not executed. -/
def carried : List Message := s.outgoing ++ s.requests ++ (s.tasks ++ s.running ++ s.inside)

/-- The responses that the client has not handled. -/
def back : List Message := s.replies ++ s.responses ++ s.inHand.toList

/-- The server has executed the call with this response. -/
def Answers (c : Nat) (r : Protocol) : Prop := ∃ x ∈ s.executed, x.call = c ∧ x.response = some r

/-- What is executed, each request with its response. -/
def history : List (Protocol × Option Protocol) := s.executed.map fun x => (x.request, x.response)

/-- The section of a request ends, and its response is made. -/
def leave (handle : Handler σ ρ) (m : Message) (r : ρ) : State σ ρ :=
  { s with
    holder := none
    replies := s.replies ++ ((handle.leave m.proto r).map fun response => ⟨m.call, response⟩).toList
    executed := s.executed ++ [⟨m.call, m.proto, handle.leave m.proto r⟩] }

end State

/-- The receiver can only receive what the server has sent. -/
def Comes {σ ρ : Type} (s : State σ ρ) : RpcClient.Event → Prop
  | .respond r => s.responses.head?.map Message.proto = some r
  | _ => True

instance {σ ρ : Type} (s : State σ ρ) : (e : RpcClient.Event) → Decidable (Comes s e)
  | .respond r => inferInstanceAs (Decidable (s.responses.head?.map Message.proto = some r))
  | .start _ | .register _ | .send _ | .receive _ | .cancel _ | .finish _ | .fire _ | .transmit | .lookUp _ | .push _ _
  | .close | .notify _ _ | .closeEnd => inferInstanceAs (Decidable True)

variable {σ ρ : Type} (config : Config) (content : Nat → List Byte) (handle : Handler σ ρ)

def Enabled (s : State σ ρ) : Event → Prop
  | .client e => RpcClient.Enabled config s.client e ∧ Comes s e
  | .schedule => s.requests ≠ []
  | .begin m => m ∈ s.tasks
  -- no other section is under way
  | .enter m => m ∈ s.running ∧ s.holder.isNone
  | .access => (s.holder.bind fun inside => handle.access s.shared inside.2).isSome
  | .leave => s.holder.isSome ∧ (s.holder.bind fun inside => handle.access s.shared inside.2).isNone
  | .reply m => m ∈ s.replies

instance (s : State σ ρ) : (e : Event) → Decidable (Enabled config handle s e)
  | .client e => inferInstanceAs (Decidable (RpcClient.Enabled config s.client e ∧ Comes s e))
  | .schedule => inferInstanceAs (Decidable (s.requests ≠ []))
  | .begin m => inferInstanceAs (Decidable (m ∈ s.tasks))
  | .enter m => inferInstanceAs (Decidable (m ∈ s.running ∧ s.holder.isNone))
  | .access => inferInstanceAs (Decidable ((Option.bind _ _).isSome = true))
  | .leave => inferInstanceAs (Decidable (_ ∧ _))
  | .reply m => inferInstanceAs (Decidable (m ∈ s.replies))

/-- The request of a call with its id. -/
def request (s : RpcClient.State) (c : Nat) : Protocol := Protocol.create .rpcMethodRequest (content c) (s.calls c).id

def next (s : State σ ρ) : Event → State σ ρ
  | .client e =>
    let s' := { s with client := RpcClient.next s.client e }
    match e with
    | .register c => { s' with unsent := c :: s.unsent }
    | .send c =>
      { s' with
        unsent := s.unsent.filter fun d => d ≠ c
        outgoing := if s.client.sendClosed then s.outgoing else s.outgoing ++ [⟨c, request content s.client c⟩] }
    | .transmit => { s' with outgoing := s.outgoing.tail, requests := s.requests ++ s.outgoing.head?.toList }
    | .respond _ => { s' with responses := s.responses.tail, inHand := s.responses.head? }
    | .lookUp r => { s' with inHand := if (s.client.responseHandle.find r.sequenceId).isSome then s.inHand else none }
    | .push _ _ => { s' with inHand := none }
    | .close => { s' with outgoing := if s.client.isClose then s.outgoing else [] }
    | _ => s'
  | .schedule => { s with requests := s.requests.tail, tasks := s.tasks ++ s.requests.head?.toList }
  | .begin m => { s with tasks := s.tasks.erase m, running := s.running ++ [m] }
  | .enter m => { s with running := s.running.erase m, holder := some (m, handle.enter m.proto) }
  | .access =>
    match s.holder with
    | some (m, r) =>
      match handle.access s.shared r with
      | some (shared, r) => { s with shared := shared, holder := some (m, r) }
      | none => s
    | none => s
  | .leave =>
    match s.holder with
    | some (m, r) => s.leave handle m r
    | none => s
  | .reply m => { s with replies := s.replies.erase m, responses := s.responses ++ [m] }

def initial (shared : σ) : State σ ρ := ⟨connectedClient, [], [], [], [], [], shared, none, [], [], none, []⟩

def machine (shared : σ) : Machine (State σ ρ) Event where
  start := initial shared
  step s e := if Enabled config handle s e then some (next content handle s e) else none

/-- A response carries the id of its request. -/
def KeepsIds : Prop := ∀ p r response, handle.leave p r = some response → response.sequenceId = p.sequenceId

/-- What the shared state was when the last section ended; the accesses of the one that is under way are behind it. -/
def Committed (s : State σ ρ) (between : σ) : Prop :=
  match s.holder with
  | some (m, r) => handle.Accesses (between, handle.enter m.proto) (s.shared, r)
  | none => between = s.shared

/-- The next id belongs to no other call that is under way, and to no message. -/
def Fresh (s : State σ ρ) : Prop :=
  s.client.responseHandle.find s.client.sequenceId = none ∧
    (∀ c ∈ s.unsent, (s.client.calls c).id ≠ s.client.sequenceId) ∧
      ∀ m ∈ s.carried ++ s.back, m.proto.sequenceId ≠ s.client.sequenceId

instance (s : State σ ρ) : Decidable (Fresh s) := inferInstanceAs (Decidable (_ ∧ _ ∧ _))

/-- Ids are given out when they are free. -/
def FreshIds (s : State σ ρ) : Event → Prop
  | .client (.register _) => Fresh s
  | _ => True

instance (s : State σ ρ) : (e : Event) → Decidable (FreshIds s e)
  | .client (.register _) => inferInstanceAs (Decidable (Fresh s))
  | .client (.start _) | .client (.send _) | .client (.receive _) | .client (.cancel _) | .client (.finish _)
  | .client (.fire _) | .client .transmit | .client (.respond _) | .client (.lookUp _) | .client (.push _ _)
  | .client .close | .client (.notify _ _) | .client .closeEnd | .schedule | .begin _ | .enter _ | .access | .leave
  | .reply _ =>
    inferInstanceAs (Decidable True)

/-! ### What holds throughout -/

/-- The request has been pushed. -/
def Sent (call : Call) : Prop := call.phase ≠ .idle ∧ call.phase ≠ .opened ∧ call.phase ≠ .registered

/-- The call has got the response, or will find it in its channel. -/
def Has (call : Call) (r : Protocol) : Prop :=
  some r ∈ call.queue ∨ call.response = some r ∨ call.phase = .returned (.response r)

variable {config} {content} {handle} {shared : σ} {s s' : State σ ρ} {e : Event}

/-- How often a call is among messages. -/
def occurrences (c : Nat) (ms : List Message) : Nat := (ms.map Message.call).count c

variable (content handle shared) in
structure Sound (s : State σ ρ) : Prop where
  unsent : ∀ c, c ∈ s.unsent ↔ (s.client.calls c).phase = .registered
  -- an entry with the id of a call leads to this call
  unsentMatched : ∀ c ∈ s.unsent, ∀ e ∈ s.client.responseHandle.entries,
    e.key = (s.client.calls c).id → e.value = c
  matched : ∀ m ∈ s.carried ++ s.back, ∀ e ∈ s.client.responseHandle.entries,
    e.key = m.proto.sequenceId → e.value = m.call
  outgoing : s.outgoing.map (fun m => m.proto.sequenceId) = s.client.sending
  carried : ∀ m ∈ s.carried, Sent (s.client.calls m.call) ∧ m.proto = request content s.client m.call
  executed : ∀ x ∈ s.executed, Sent (s.client.calls x.call) ∧ x.request = request content s.client x.call
  once : ∀ c, occurrences c s.carried + (s.executed.map Executed.call).count c ≤ 1
  answers : ∀ m ∈ s.back, s.Answers m.call m.proto
  answered : ∀ c r, Has (s.client.calls c) r → s.Answers c r
  handling : ∀ r, s.client.receiver = .handling r → s.inHand.map Message.proto = some r
  pushing : ∀ r c, s.client.receiver = .pushing r c → s.inHand = some ⟨c, r⟩
  sequential : ∃ between, handle.Sequential shared s.history between ∧ Committed handle s between

theorem Sound.initial (shared : σ) : Sound content handle shared (initial shared) where
  unsent c := by
    constructor
    · intro h
      cases h
    · intro h
      cases h
  unsentMatched c hc := by cases hc
  matched m hm := by cases hm
  outgoing := rfl
  carried m hm := by cases hm
  executed x hx := by cases hx
  once c := Nat.zero_le 1
  answers m hm := by cases hm
  answered c r h := by
    rcases h with h | h | h
    · cases h
    · cases h
    · cases h
  handling r h := by cases h
  pushing r c h := by cases h
  sequential := ⟨shared, .nil shared, rfl⟩

/-- What a step does to a call that goes on: it stays behind the push or in front of it, with its id. -/
structure Progress (s : State σ ρ) (c : Nat) (old new : Call) : Prop where
  registered : new.phase = .registered ↔ old.phase = .registered
  sent : Sent old → Sent new
  id : old.phase = .registered ∨ Sent old → new.id = old.id
  answered : ∀ r, Has new r → Has old r ∨ s.Answers c r

theorem Progress.refl (s : State σ ρ) (c : Nat) (call : Call) : Progress s c call call :=
  ⟨Iff.rfl, fun h => h, fun _ => rfl, fun _ => .inl⟩

/-- What a call has got is not changed by the steps up to the push of its request. -/
private theorem Has.of_phase {call : Call} {phase : Phase} {id : BitVec 32} {it : Nat} {r : Protocol}
    (h : Has { call with phase := phase, id := id, it := it } r) (hphase : phase ≠ .returned (.response r)) :
    Has call r := by
  rcases h with hqueue | hresponse | hreturned
  · exact .inl hqueue
  · exact .inr (.inl hresponse)
  · exact absurd hreturned hphase

theorem request_congr {client client' : RpcClient.State} {c : Nat} (h : (client'.calls c).id = (client.calls c).id) :
    request content client' c = request content client c := by
  unfold request
  rw [h]

theorem occurrences_append (c : Nat) (ms ms' : List Message) :
    occurrences c (ms ++ ms') = occurrences c ms + occurrences c ms' := by
  unfold occurrences
  rw [List.map_append, List.count_append]

theorem occurrences_singleton (c : Nat) (m : Message) : occurrences c [m] = if m.call = c then 1 else 0 := by
  unfold occurrences
  rw [List.map_singleton, List.count_singleton]
  simp only [beq_iff_eq]

theorem occurrences_le (c : Nat) {ms ms' : List Message} (h : ms'.Subperm ms) :
    occurrences c ms' ≤ occurrences c ms := by
  obtain ⟨l, hperm, hsub⟩ := h
  calc occurrences c ms' = occurrences c l := ((hperm.map Message.call).count_eq c).symm
    _ ≤ occurrences c ms := (hsub.map Message.call).count_le c

/-- Nothing that is carried or executed belongs to a call that has not pushed its request. -/
private theorem Sound.once_eq_zero (h : Sound content handle shared s) {c : Nat} (hnot : ¬ Sent (s.client.calls c)) :
    occurrences c s.carried + (s.executed.map Executed.call).count c = 0 := by
  have hcarried : occurrences c s.carried = 0 := by
    refine List.count_eq_zero.2 fun hmem => ?_
    obtain ⟨m, hm, rfl⟩ := List.mem_map.1 hmem
    exact hnot (h.carried m hm).1
  have hexecuted : (s.executed.map Executed.call).count c = 0 := by
    refine List.count_eq_zero.2 fun hmem => ?_
    obtain ⟨x, hx, rfl⟩ := List.mem_map.1 hmem
    exact hnot (h.executed x hx).1
  omega

/-- Calls go on, and messages move on or are lost. -/
theorem Sound.move (h : Sound content handle shared s) (hunsent : s'.unsent = s.unsent)
    (hexecuted : s'.executed = s.executed)
    (hcommitted : ∀ between, Committed handle s between → Committed handle s' between)
    (hentries : ∀ e ∈ s'.client.responseHandle.entries, e ∈ s.client.responseHandle.entries)
    (hcalls : ∀ c, Progress s c (s.client.calls c) (s'.client.calls c)) (hcarried : s'.carried.Subperm s.carried)
    (hback : ∀ m ∈ s'.back, m ∈ s.back)
    (houtgoing : s'.outgoing.map (fun m => m.proto.sequenceId) = s'.client.sending)
    (hhandling : ∀ r, s'.client.receiver = .handling r → s'.inHand.map Message.proto = some r)
    (hpushing : ∀ r c, s'.client.receiver = .pushing r c → s'.inHand = some ⟨c, r⟩) :
    Sound content handle shared s' := by
  have hanswers : ∀ {c r}, s.Answers c r → s'.Answers c r := by
    intro c r
    unfold State.Answers
    rw [hexecuted]
    exact id
  constructor
  case unsent =>
    intro c
    rw [hunsent, (hcalls c).registered]
    exact h.unsent c
  case unsentMatched =>
    intro c hc e he hkey
    rw [hunsent] at hc
    rw [(hcalls c).id (.inl ((h.unsent c).1 hc))] at hkey
    exact h.unsentMatched c hc e (hentries e he) hkey
  case matched =>
    intro m hm e he hkey
    refine h.matched m ?_ e (hentries e he) hkey
    rcases List.mem_append.1 hm with hm | hm
    · exact List.mem_append_left _ (hcarried.subset hm)
    · exact List.mem_append_right _ (hback m hm)
  case outgoing => exact houtgoing
  case carried =>
    intro m hm
    obtain ⟨hsent, hrequest⟩ := h.carried m (hcarried.subset hm)
    exact ⟨(hcalls _).sent hsent, by rw [request_congr ((hcalls _).id (.inr hsent)), hrequest]⟩
  case executed =>
    rw [hexecuted]
    intro x hx
    obtain ⟨hsent, hrequest⟩ := h.executed x hx
    exact ⟨(hcalls _).sent hsent, by rw [request_congr ((hcalls _).id (.inr hsent)), hrequest]⟩
  case once =>
    intro c
    rw [hexecuted]
    have hle := occurrences_le c hcarried
    have honce := h.once c
    omega
  case answers => exact fun m hm => hanswers (h.answers m (hback m hm))
  case answered =>
    intro c r hhas
    rcases (hcalls c).answered r hhas with hhad | hnew
    · exact hanswers (h.answered c r hhad)
    · exact hanswers hnew
  case handling => exact hhandling
  case pushing => exact hpushing
  case sequential =>
    obtain ⟨between, hsequential, hbetween⟩ := h.sequential
    refine ⟨between, ?_, hcommitted between hbetween⟩
    unfold State.history
    rw [hexecuted]
    exact hsequential

/-! ### Steps of the client -/

theorem progress_setCall {c : Nat} {call : Call} (hself : Progress s c (s.client.calls c) call) (d : Nat) :
    Progress s d (s.client.calls d) ((s.client.setCall c call).calls d) :=
  forall_setCall (P := fun d call => Progress s d (s.client.calls d) call) hself (fun d _ => Progress.refl s d _) d

theorem progress_pushTo {c : Nat} {x : Option Protocol} (hx : ∀ r, x = some r → s.Answers c r) (d : Nat) :
    Progress s d (s.client.calls d) ((s.client.pushTo c x).calls d) := by
  unfold RpcClient.State.pushTo
  split
  case isTrue => exact Progress.refl s d _
  case isFalse =>
    have hself : Progress s c (s.client.calls c)
        { s.client.calls c with queue := (s.client.calls c).queue ++ [x] } := by
      refine ⟨Iff.rfl, fun h => h, fun _ => rfl, fun r hhas => ?_⟩
      rcases hhas with hqueue | hrest
      · rcases List.mem_append.1 hqueue with hold | hnew
        · exact .inl (.inl hold)
        · exact .inr (hx r (List.mem_singleton.1 hnew).symm)
      · exact .inl (.inr hrest)
    exact progress_setCall hself d

/-- A push into the channel of a call leaves everything but this call alone. -/
private theorem pushTo_kept (client : RpcClient.State) (c : Nat) (x : Option Protocol) :
    (client.pushTo c x).responseHandle = client.responseHandle ∧ (client.pushTo c x).sending = client.sending ∧
      (client.pushTo c x).receiver = client.receiver := by
  unfold RpcClient.State.pushTo
  split <;> exact ⟨rfl, rfl, rfl⟩

/-- The first step of a call, which has got nothing yet. -/
private theorem progress_start {c : Nat} (hidle : (s.client.calls c).phase = .idle) {phase : Phase}
    (hphase : phase ≠ .registered) (hnone : ∀ r, phase ≠ .returned (.response r)) :
    Progress s c (s.client.calls c) { Call.fresh with phase := phase } := by
  refine ⟨iff_of_false hphase (by rw [hidle]; rintro ⟨⟩), fun hsent => absurd hidle hsent.1, ?_, ?_⟩
  · rintro (hregistered | hsent)
    · rw [hidle] at hregistered
      cases hregistered
    · exact absurd hidle hsent.1
  · rintro r (hqueue | hresponse | hreturned)
    · cases hqueue
    · cases hresponse
    · exact absurd hreturned (hnone r)

/-- A step behind the push of the request. -/
private theorem progress_sent {c : Nat} {call : Call} (hold : Sent (s.client.calls c)) (hnew : Sent call)
    (hid : call.id = (s.client.calls c).id) (hanswered : ∀ r, Has call r → Has (s.client.calls c) r) :
    Progress s c (s.client.calls c) call :=
  ⟨iff_of_false hnew.2.2 hold.2.2, fun _ => hnew, fun _ => hid, fun r hhas => .inl (hanswered r hhas)⟩

theorem sent_of_phase {call : Call} {phase : Phase} (h : call.phase = phase) (hidle : phase ≠ .idle)
    (hopened : phase ≠ .opened) (hregistered : phase ≠ .registered) : Sent call := by
  subst h
  exact ⟨hidle, hopened, hregistered⟩

/-- What a call has got decides what it returns. -/
private theorem outcome_response {call : Call} {r : Protocol} (h : call.outcome = .response r) :
    call.response = some r := by
  unfold Call.outcome at h
  split at h
  · cases h
  · split at h
    · cases h
    · cases h
      assumption

/-- The steps of a call behind the push of its request. -/
private theorem progress_steps {c : Nat} (hsent : Sent (s.client.calls c)) :
    Progress s c (s.client.calls c)
        { s.client.calls c with
          phase := .received, response := (s.client.calls c).queue.headD none
          queue := (s.client.calls c).queue.tail } ∧
      Progress s c (s.client.calls c) { s.client.calls c with phase := .received } ∧
      Progress s c (s.client.calls c) { s.client.calls c with phase := .cancelled } ∧
      Progress s c (s.client.calls c) { s.client.calls c with phase := .returned (s.client.calls c).outcome } ∧
      Progress s c (s.client.calls c) { s.client.calls c with timeout := true, closed := true, queue := [] } := by
  have hto : ∀ phase : Phase, (∀ r, phase ≠ .returned (.response r)) → ∀ r,
      Has { s.client.calls c with phase := phase } r → Has (s.client.calls c) r := by
    rintro phase hnot r (hqueue | hresponse | hreturned)
    · exact .inl hqueue
    · exact .inr (.inl hresponse)
    · exact absurd hreturned (hnot r)
  refine ⟨?_, ?_, ?_, ?_, ?_⟩
  · refine progress_sent hsent (sent_of_phase rfl (by rintro ⟨⟩) (by rintro ⟨⟩) (by rintro ⟨⟩)) rfl ?_
    rintro r (hqueue | hresponse | hreturned)
    · exact .inl (List.mem_of_mem_tail hqueue)
    · left
      have hhead : (s.client.calls c).queue.headD none = some r := hresponse
      cases hqueue : (s.client.calls c).queue with
      | nil =>
        rw [hqueue] at hhead
        cases hhead
      | cons x xs =>
        rw [hqueue] at hhead
        exact List.mem_cons.2 (.inl hhead.symm)
    · cases hreturned
  · exact progress_sent hsent (sent_of_phase rfl (by rintro ⟨⟩) (by rintro ⟨⟩) (by rintro ⟨⟩)) rfl
      (hto .received (fun _ => by rintro ⟨⟩))
  · exact progress_sent hsent (sent_of_phase rfl (by rintro ⟨⟩) (by rintro ⟨⟩) (by rintro ⟨⟩)) rfl
      (hto .cancelled (fun _ => by rintro ⟨⟩))
  · refine progress_sent hsent (sent_of_phase rfl (by rintro ⟨⟩) (by rintro ⟨⟩) (by rintro ⟨⟩)) rfl ?_
    rintro r (hqueue | hresponse | hreturned)
    · exact .inl hqueue
    · exact .inr (.inl hresponse)
    · exact .inr (.inl (outcome_response (Phase.returned.inj hreturned)))
  · refine progress_sent hsent hsent rfl ?_
    rintro r (hqueue | hresponse | hreturned)
    · cases hqueue
    · exact .inr (.inl hresponse)
    · exact .inr (.inr hreturned)

/-- Only the client does something, and no message moves. -/
private theorem Sound.stay (h : Sound content handle shared s) {client : RpcClient.State}
    (hentries : ∀ e ∈ client.responseHandle.entries, e ∈ s.client.responseHandle.entries)
    (hcalls : ∀ c, Progress s c (s.client.calls c) (client.calls c)) (hsending : client.sending = s.client.sending)
    (hreceiver : client.receiver = s.client.receiver) : Sound content handle shared { s with client := client } := by
  refine h.move rfl rfl (fun _ hbetween => hbetween) hentries hcalls (List.Subperm.refl _) (fun m hm => hm) ?_ ?_ ?_
  · rw [hsending]
    exact h.outgoing
  · rw [hreceiver]
    exact h.handling
  · rw [hreceiver]
    exact h.pushing

/-- A step of one call. -/
private theorem Sound.setCall (h : Sound content handle shared s) {c : Nat} {call : Call}
    (hcall : Progress s c (s.client.calls c) call) :
    Sound content handle shared { s with client := s.client.setCall c call } :=
  h.stay (fun _ he => he) (progress_setCall hcall) rfl rfl

private theorem Sound.start (h : Sound content handle shared s) {c : Nat} (hidle : (s.client.calls c).phase = .idle) :
    Sound content handle shared (next content handle s (.client (.start c))) := by
  dsimp only [next, RpcClient.next]
  split
  · exact h.setCall (progress_start hidle (by rintro ⟨⟩) (fun _ => by rintro ⟨⟩))
  · exact h.setCall (progress_start hidle (by rintro ⟨⟩) (fun _ => by rintro ⟨⟩))

private theorem Sound.receive (h : Sound content handle shared s) {c : Nat}
    (hwaiting : (s.client.calls c).phase = .waiting) :
    Sound content handle shared (next content handle s (.client (.receive c))) := by
  obtain ⟨htake, hnothing, -⟩ :=
    progress_steps (s := s) (sent_of_phase hwaiting (by rintro ⟨⟩) (by rintro ⟨⟩) (by rintro ⟨⟩))
  dsimp only [next, RpcClient.next]
  split
  · exact h.setCall hnothing
  · exact h.setCall htake

private theorem Sound.finish (h : Sound content handle shared s) {c : Nat}
    (hcancelled : (s.client.calls c).phase = .cancelled) :
    Sound content handle shared (next content handle s (.client (.finish c))) := by
  obtain ⟨-, -, -, hreturned, -⟩ :=
    progress_steps (s := s) (sent_of_phase hcancelled (by rintro ⟨⟩) (by rintro ⟨⟩) (by rintro ⟨⟩))
  dsimp only [next, RpcClient.next]
  split
  · exact h.setCall hreturned
  · split
    case h_1 handle' herase =>
      exact h.stay (fun e he => NodeMap.mem_of_erase herase he) (progress_setCall hreturned) rfl rfl
    case h_2 => exact h.stay (fun _ he => he) (progress_setCall hreturned) rfl rfl

/-- A new entry has an id that leads to no other call. -/
private theorem Sound.register (h : Sound content handle shared s) (hfresh : Fresh s) {c : Nat}
    (hopened : (s.client.calls c).phase = .opened) :
    Sound content handle shared (next content handle s (.client (.register c))) := by
  obtain ⟨hfree, hunsent, hmessages⟩ := hfresh
  obtain ⟨-, hentries, -⟩ := NodeMap.emplace_of_none hfree c
  have hnot : ¬ Sent (s.client.calls c) := fun hsent => hsent.2.1 hopened
  have hcalls : ∀ d, d ≠ c → (RpcClient.next s.client (.register c)).calls d = s.client.calls d := fun d hd =>
    (setCall_calls s.client c d _).trans (if_neg hd)
  have hself : (RpcClient.next s.client (.register c)).calls c =
      { s.client.calls c with
        phase := .registered, id := s.client.sequenceId
        it := (s.client.responseHandle.emplace s.client.sequenceId c).2 } :=
    (setCall_calls s.client c c _).trans (if_pos rfl)
  have hmem : ∀ e ∈ (RpcClient.next s.client (.register c)).responseHandle.entries,
      e = ⟨s.client.sequenceId, s.client.responseHandle.next, c⟩ ∨ e ∈ s.client.responseHandle.entries := by
    intro e he
    refine NodeMap.mem_insertEntry.1 ?_
    rw [← hentries]
    exact he
  have hother : ∀ {d}, Sent (s.client.calls d) → d ≠ c := by
    rintro d hsent rfl
    exact hnot hsent
  constructor
  case unsent =>
    intro d
    show d ∈ c :: s.unsent ↔ ((RpcClient.next s.client (.register c)).calls d).phase = .registered
    by_cases hd : d = c
    · rw [hd, hself]
      exact iff_of_true List.mem_cons_self rfl
    · rw [hcalls d hd, List.mem_cons, or_iff_right hd]
      exact h.unsent d
  case unsentMatched =>
    intro d hd e he hkey
    change e.key = ((RpcClient.next s.client (.register c)).calls d).id at hkey
    by_cases heq : d = c
    · subst heq
      rw [hself] at hkey
      rcases hmem e he with rfl | hold
      · rfl
      · exact absurd hkey (NodeMap.find_eq_none.1 hfree e hold)
    · have hd : d ∈ s.unsent := (List.mem_cons.1 hd).resolve_left heq
      rw [hcalls d heq] at hkey
      rcases hmem e he with rfl | hold
      · exact absurd hkey.symm (hunsent d hd)
      · exact h.unsentMatched d hd e hold hkey
  case matched =>
    intro m hm e he hkey
    rcases hmem e he with rfl | hold
    · exact absurd hkey.symm (hmessages m hm)
    · exact h.matched m hm e hold hkey
  case outgoing => exact h.outgoing
  case carried =>
    intro m hm
    obtain ⟨hsent, hrequest⟩ := h.carried m hm
    have hsame := hcalls m.call (hother hsent)
    refine ⟨?_, hrequest.trans (request_congr (congrArg Call.id hsame)).symm⟩
    show Sent ((RpcClient.next s.client (.register c)).calls m.call)
    rw [hsame]
    exact hsent
  case executed =>
    intro x hx
    obtain ⟨hsent, hrequest⟩ := h.executed x hx
    have hsame := hcalls x.call (hother hsent)
    refine ⟨?_, hrequest.trans (request_congr (congrArg Call.id hsame)).symm⟩
    show Sent ((RpcClient.next s.client (.register c)).calls x.call)
    rw [hsame]
    exact hsent
  case once => exact h.once
  case answers => exact h.answers
  case answered =>
    intro d r hhas
    change Has ((RpcClient.next s.client (.register c)).calls d) r at hhas
    by_cases hd : d = c
    · subst hd
      rw [hself] at hhas
      exact h.answered d r (hhas.of_phase (by rintro ⟨⟩))
    · rw [hcalls d hd] at hhas
      exact h.answered d r hhas
  case handling => exact h.handling
  case pushing => exact h.pushing
  case sequential => exact h.sequential

/-- The request is in the channel, unless that is closed. -/
private theorem Sound.send (h : Sound content handle shared s) {c : Nat}
    (hregistered : (s.client.calls c).phase = .registered) :
    Sound content handle shared (next content handle s (.client (.send c))) := by
  have hnot : ¬ Sent (s.client.calls c) := fun hsent => hsent.2.2 hregistered
  have hcalls : ∀ d, d ≠ c → (RpcClient.next s.client (.send c)).calls d = s.client.calls d := fun d hd =>
    (setCall_calls s.client c d _).trans (if_neg hd)
  have hself : (RpcClient.next s.client (.send c)).calls c = { s.client.calls c with phase := .waiting } :=
    (setCall_calls s.client c c _).trans (if_pos rfl)
  have hid : ∀ d, ((RpcClient.next s.client (.send c)).calls d).id = (s.client.calls d).id := by
    intro d
    by_cases hd : d = c
    · rw [hd, hself]
    · rw [hcalls d hd]
  have hsent : ∀ d, Sent (s.client.calls d) → Sent ((RpcClient.next s.client (.send c)).calls d) := by
    intro d hsent
    rw [hcalls d fun hd => hnot (hd ▸ hsent)]
    exact hsent
  -- a message is an old one, or the request of this call
  have hcarried : ∀ m ∈ (next content handle s (.client (.send c))).carried,
      m ∈ s.carried ∨ m = ⟨c, request content s.client c⟩ := by
    intro m hm
    simp only [State.carried, next, List.mem_append] at hm ⊢
    split at hm
    · exact .inl hm
    · simp only [List.mem_append, List.mem_singleton] at hm
      tauto
  have hunsent : c ∈ s.unsent := (h.unsent c).2 hregistered
  constructor
  case unsent =>
    intro d
    show d ∈ s.unsent.filter (fun d => d ≠ c) ↔ ((RpcClient.next s.client (.send c)).calls d).phase = .registered
    rw [List.mem_filter, decide_eq_true_iff]
    by_cases hd : d = c
    · rw [hd, hself]
      exact iff_of_false (fun hmem => hmem.2 rfl) (by rintro ⟨⟩)
    · rw [hcalls d hd, and_iff_left hd]
      exact h.unsent d
  case unsentMatched =>
    intro d hd e he hkey
    refine h.unsentMatched d (List.mem_filter.1 hd).1 e he ?_
    rw [← hid d]
    exact hkey
  case matched =>
    intro m hm e he hkey
    rcases List.mem_append.1 hm with hm | hm
    · rcases hcarried m hm with hold | rfl
      · exact h.matched m (List.mem_append_left _ hold) e he hkey
      · exact h.unsentMatched c hunsent e he hkey
    · exact h.matched m (List.mem_append_right _ hm) e he hkey
  case outgoing =>
    show (if s.client.sendClosed then s.outgoing else _).map _ =
      if s.client.sendClosed then s.client.sending else s.client.sending ++ [(s.client.calls c).id]
    split
    · exact h.outgoing
    · rw [List.map_append, h.outgoing]
      rfl
  case carried =>
    intro m hm
    rw [show (next content handle s (.client (.send c))).client = RpcClient.next s.client (.send c) from rfl,
      request_congr (hid m.call)]
    rcases hcarried m hm with hold | rfl
    · exact ⟨hsent m.call (h.carried m hold).1, (h.carried m hold).2⟩
    · refine ⟨?_, rfl⟩
      rw [hself]
      exact sent_of_phase rfl (by rintro ⟨⟩) (by rintro ⟨⟩) (by rintro ⟨⟩)
  case executed =>
    intro x hx
    rw [show (next content handle s (.client (.send c))).client = RpcClient.next s.client (.send c) from rfl,
      request_congr (hid x.call)]
    exact ⟨hsent x.call (h.executed x hx).1, (h.executed x hx).2⟩
  case once =>
    intro d
    have honce := h.once d
    have hnew : occurrences d (next content handle s (.client (.send c))).carried ≤
        occurrences d s.carried + if c = d then 1 else 0 := by
      simp only [State.carried, State.inside, next, occurrences_append]
      split
      · omega
      · rw [occurrences_append, occurrences_singleton]
        dsimp only
        omega
    show _ + (s.executed.map Executed.call).count d ≤ 1
    by_cases hd : c = d
    · subst hd
      have hzero := h.once_eq_zero hnot
      rw [if_pos rfl] at hnew
      omega
    · rw [if_neg hd] at hnew
      omega
  case answers => exact h.answers
  case answered =>
    intro d r hhas
    change Has ((RpcClient.next s.client (.send c)).calls d) r at hhas
    by_cases hd : d = c
    · subst hd
      rw [hself] at hhas
      exact h.answered d r (hhas.of_phase (by rintro ⟨⟩))
    · rw [hcalls d hd] at hhas
      exact h.answered d r hhas
  case handling => exact h.handling
  case pushing => exact h.pushing
  case sequential => exact h.sequential

/-! ### Steps of the messages -/

private theorem head_tail {α : Type} (l : List α) : l.head?.toList ++ l.tail = l := by
  cases l <;> rfl

private theorem Sound.transmit (h : Sound content handle shared s) :
    Sound content handle shared (next content handle s (.client .transmit)) := by
  refine h.move rfl rfl (fun _ hbetween => hbetween) (fun _ he => he) (fun c => Progress.refl s c _) ?_ (fun m hm => hm)
    ?_ h.handling h.pushing
  · refine List.Perm.subperm ?_
    show (s.outgoing.tail ++ (s.requests ++ s.outgoing.head?.toList) ++ (s.tasks ++ s.running ++ s.inside)).Perm
      (s.outgoing ++ s.requests ++ (s.tasks ++ s.running ++ s.inside))
    refine List.Perm.append_right _ ?_
    calc s.outgoing.tail ++ (s.requests ++ s.outgoing.head?.toList)
        = s.outgoing.tail ++ s.requests ++ s.outgoing.head?.toList := (List.append_assoc _ _ _).symm
      _ |>.Perm (s.outgoing.head?.toList ++ (s.outgoing.tail ++ s.requests)) := List.perm_append_comm
      _ = s.outgoing ++ s.requests := by rw [← List.append_assoc, head_tail]
  · show s.outgoing.tail.map _ = s.client.sending.tail
    rw [← h.outgoing, List.map_tail]

private theorem Sound.respond (h : Sound content handle shared s) {r : Protocol}
    (hcomes : s.responses.head?.map Message.proto = some r) :
    Sound content handle shared (next content handle s (.client (.respond r))) := by
  refine h.move rfl rfl (fun _ hbetween => hbetween) (fun _ he => he) (fun c => Progress.refl s c _)
    (List.Subperm.refl _) ?_ h.outgoing ?_ ?_
  · intro m hm
    simp only [State.back, next, List.mem_append] at hm ⊢
    have hsplit := head_tail s.responses
    rcases hm with (hreplies | htail) | hhead
    · exact .inl (.inl hreplies)
    · exact .inl (.inr (List.mem_of_mem_tail htail))
    · left; right
      rw [← hsplit]
      exact List.mem_append_left _ hhead
  · intro r' hr'
    obtain rfl := Receiver.handling.inj hr'
    exact hcomes
  · intro r' c hr'
    cases hr'

private theorem Sound.lookUp (h : Sound content handle shared s) {r : Protocol}
    (hreceiver : s.client.receiver = .handling r) :
    Sound content handle shared (next content handle s (.client (.lookUp r))) := by
  have hhand := h.handling r hreceiver
  obtain ⟨m, hm, rfl⟩ := Option.map_eq_some_iff.1 hhand
  cases hfind : s.client.responseHandle.find m.proto.sequenceId with
  | none =>
    have hnext : next content handle s (.client (.lookUp m.proto)) =
        { s with client := { s.client with receiver := .reading }, inHand := none } := by
      simp only [next, RpcClient.next, hfind]
      rfl
    rw [hnext]
    refine h.move rfl rfl (fun _ hbetween => hbetween) (fun _ he => he) (fun c => Progress.refl s c _)
      (List.Subperm.refl _) ?_ h.outgoing ?_ ?_
    · intro m' hm'
      simp only [State.back, List.mem_append] at hm' ⊢
      exact .inl (hm'.resolve_right (by simp))
    · intro r' hr'
      cases hr'
    · intro r' c hr'
      cases hr'
  | some e =>
    have hnext : next content handle s (.client (.lookUp m.proto)) =
        { s with client := { s.client with receiver := .pushing m.proto e.value } } := by
      simp only [next, RpcClient.next, hfind]
      rfl
    rw [hnext]
    obtain ⟨hmem, hkey⟩ := NodeMap.find_eq_some hfind
    -- the entry that is found is the one of the call
    have hvalue : e.value = m.call := by
      refine h.matched m (List.mem_append_right _ ?_) e hmem hkey
      refine List.mem_append_right _ ?_
      rw [hm]
      exact List.mem_singleton_self m
    refine h.move rfl rfl (fun _ hbetween => hbetween) (fun _ he => he) (fun c => Progress.refl s c _)
      (List.Subperm.refl _) (fun _ hm => hm) h.outgoing ?_ ?_
    · intro r' hr'
      cases hr'
    · intro r' c hr'
      obtain ⟨rfl, rfl⟩ := Receiver.pushing.inj hr'
      rw [hvalue]
      exact hm

private theorem Sound.push (h : Sound content handle shared s) {r : Protocol} {c : Nat}
    (hreceiver : s.client.receiver = .pushing r c) :
    Sound content handle shared (next content handle s (.client (.push r c))) := by
  have hhand := h.pushing r c hreceiver
  have hanswers : s.Answers c r := by
    refine h.answers ⟨c, r⟩ (List.mem_append_right _ ?_)
    rw [hhand]
    exact List.mem_singleton_self _
  obtain ⟨hentries, hsending, -⟩ := pushTo_kept s.client c (some r)
  refine h.move rfl rfl (fun _ hbetween => hbetween) ?_ ?_ (List.Subperm.refl _) ?_ ?_ ?_ ?_
  · intro e he
    rw [← hentries]
    exact he
  · refine progress_pushTo fun r' hr' => ?_
    cases hr'
    exact hanswers
  · intro m hm
    simp only [State.back, next, List.mem_append] at hm ⊢
    exact .inl (hm.resolve_right (by simp))
  · exact h.outgoing.trans hsending.symm
  · intro r' hr'
    cases hr'
  · intro r' c' hr'
    cases hr'

private theorem Sound.close (h : Sound content handle shared s) :
    Sound content handle shared (next content handle s (.client .close)) := by
  by_cases hclose : s.client.isClose = true
  · have hnext : next content handle s (.client .close) =
        { s with client := { s.client with closer := .finished } } := by
      simp only [next, RpcClient.next, hclose, if_true]
    rw [hnext]
    exact h.stay (fun _ he => he) (fun c => Progress.refl s c _) rfl rfl
  · have hnext : next content handle s (.client .close) =
        { s with
          client := { s.client with
            isClose := true, sendClosed := true, sending := []
            closer := .notifying (s.client.responseHandle.entries.map Entry.value) }
          outgoing := [] } := by
      simp only [next, RpcClient.next, hclose, if_false, Bool.false_eq_true]
    rw [hnext]
    refine h.move rfl rfl (fun _ hbetween => hbetween) (fun _ he => he) (fun c => Progress.refl s c _) ?_
      (fun m hm => hm) rfl h.handling h.pushing
    show ([] ++ s.requests ++ (s.tasks ++ s.running ++ s.inside)).Subperm
      (s.outgoing ++ s.requests ++ (s.tasks ++ s.running ++ s.inside))
    rw [List.append_assoc s.outgoing]
    exact (List.sublist_append_right s.outgoing _).subperm

private theorem Sound.schedule (h : Sound content handle shared s) :
    Sound content handle shared (next content handle s .schedule) := by
  refine h.move rfl rfl (fun _ hbetween => hbetween) (fun _ he => he) (fun c => Progress.refl s c _) ?_ (fun m hm => hm)
    h.outgoing h.handling h.pushing
  refine List.Perm.subperm ?_
  show (s.outgoing ++ s.requests.tail ++ (s.tasks ++ s.requests.head?.toList ++ s.running ++ s.inside)).Perm
    (s.outgoing ++ s.requests ++ (s.tasks ++ s.running ++ s.inside))
  rw [List.append_assoc s.outgoing, List.append_assoc s.outgoing]
  refine List.Perm.append_left _ ?_
  calc s.requests.tail ++ (s.tasks ++ s.requests.head?.toList ++ s.running ++ s.inside)
      = s.requests.tail ++ s.tasks ++ s.requests.head?.toList ++ (s.running ++ s.inside) := by
        simp only [List.append_assoc]
    _ |>.Perm (s.requests.head?.toList ++ (s.requests.tail ++ s.tasks) ++ (s.running ++ s.inside)) :=
        List.perm_append_comm.append_right _
    _ = s.requests ++ (s.tasks ++ s.running ++ s.inside) := by
        rw [← List.append_assoc (Option.toList _), head_tail]
        simp only [List.append_assoc]

private theorem Sound.begin (h : Sound content handle shared s) {m : Message} (hm : m ∈ s.tasks) :
    Sound content handle shared (next content handle s (.begin m)) := by
  refine h.move rfl rfl (fun _ hbetween => hbetween) (fun _ he => he) (fun c => Progress.refl s c _) ?_ (fun m hm => hm)
    h.outgoing h.handling h.pushing
  refine List.Perm.subperm ?_
  show (s.outgoing ++ s.requests ++ (s.tasks.erase m ++ (s.running ++ [m]) ++ s.inside)).Perm
    (s.outgoing ++ s.requests ++ (s.tasks ++ s.running ++ s.inside))
  refine (List.Perm.append_right _ ?_).append_left _
  calc s.tasks.erase m ++ (s.running ++ [m])
      = s.tasks.erase m ++ s.running ++ [m] := (List.append_assoc _ _ _).symm
    _ |>.Perm ([m] ++ (s.tasks.erase m ++ s.running)) := List.perm_append_comm
    _ |>.Perm (s.tasks ++ s.running) := (List.perm_cons_erase hm).symm.append_right _

private theorem Sound.enter (h : Sound content handle shared s) {m : Message} (hm : m ∈ s.running)
    (hholder : s.holder = none) : Sound content handle shared (next content handle s (.enter m)) := by
  refine h.move rfl rfl ?_ (fun _ he => he) (fun c => Progress.refl s c _) ?_ (fun m hm => hm) h.outgoing h.handling
    h.pushing
  · intro between hbetween
    rw [Committed, hholder] at hbetween
    subst hbetween
    exact Relation.ReflTransGen.refl
  · have hinside : s.inside = [] := by rw [State.inside, hholder]; rfl
    refine List.Perm.subperm ?_
    show (s.outgoing ++ s.requests ++ (s.tasks ++ s.running.erase m ++ [m])).Perm
      (s.outgoing ++ s.requests ++ (s.tasks ++ s.running ++ s.inside))
    rw [hinside, List.append_nil, List.append_assoc s.tasks]
    refine List.Perm.append_left _ (List.Perm.append_left _ ?_)
    exact List.perm_append_comm.trans (List.perm_cons_erase hm).symm

private theorem Sound.access (h : Sound content handle shared s) {m : Message} {r r' : ρ} {shared' : σ}
    (hholder : s.holder = some (m, r)) (haccess : handle.access s.shared r = some (shared', r')) :
    Sound content handle shared (next content handle s .access) := by
  have hnext : next content handle s .access = { s with shared := shared', holder := some (m, r') } := by
    simp only [next, hholder, haccess]
  rw [hnext]
  refine h.move rfl rfl ?_ (fun _ he => he) (fun c => Progress.refl s c _) ?_ (fun m hm => hm) h.outgoing h.handling
    h.pushing
  · intro between hbetween
    rw [Committed, hholder] at hbetween
    exact Relation.ReflTransGen.tail hbetween haccess
  · refine List.Perm.subperm ?_
    unfold State.carried State.inside
    rw [hholder]
    exact List.Perm.refl _

private theorem Sound.reply (h : Sound content handle shared s) {m : Message} (hm : m ∈ s.replies) :
    Sound content handle shared (next content handle s (.reply m)) := by
  refine h.move rfl rfl (fun _ hbetween => hbetween) (fun _ he => he) (fun c => Progress.refl s c _)
    (List.Subperm.refl _) ?_ h.outgoing h.handling h.pushing
  intro m' hm'
  simp only [State.back, next, List.mem_append, List.mem_singleton] at hm' ⊢
  rcases hm' with (hreplies | hresponses | rfl) | hhand
  · exact .inl (.inl (List.mem_of_mem_erase hreplies))
  · exact .inl (.inr hresponses)
  · exact .inl (.inl hm)
  · exact .inr hhand

private theorem Sound.leave (h : Sound content handle shared s) (hhandle : KeepsIds handle) {m : Message} {r : ρ}
    (hholder : s.holder = some (m, r)) (hend : handle.access s.shared r = none) :
    Sound content handle shared (s.leave handle m r) := by
  have hinside : s.inside = [m] := by rw [State.inside, hholder]; rfl
  have hcarried : m ∈ s.carried := by simp [State.carried, hinside]
  have hless : ∀ m' ∈ (s.leave handle m r).carried, m' ∈ s.carried := by
    intro m' hm'
    simp only [State.carried, State.leave, State.inside, List.mem_append] at hm' ⊢
    rcases hm' with hm' | hm' | hm'
    · exact .inl hm'
    · exact .inr (.inl hm')
    · cases hm'
  have hanswers : ∀ {c r'}, s.Answers c r' → (s.leave handle m r).Answers c r' := by
    rintro c r' ⟨x, hx, hcall, hresponse⟩
    exact ⟨x, List.mem_append_left _ hx, hcall, hresponse⟩
  have hback : ∀ m' ∈ (s.leave handle m r).back, m' ∈ s.back ∨
      m'.call = m.call ∧ handle.leave m.proto r = some m'.proto := by
    intro m' hm'
    simp only [State.back, State.leave, List.mem_append] at hm' ⊢
    rcases hm' with ((hreplies | hnew) | hresponses) | hhand
    · exact .inl (.inl (.inl hreplies))
    · right
      obtain ⟨response, hresponse, rfl⟩ := Option.map_eq_some_iff.1 (Option.mem_toList.1 hnew)
      exact ⟨rfl, hresponse⟩
    · exact .inl (.inl (.inr hresponses))
    · exact .inl (.inr hhand)
  constructor
  case unsent => exact h.unsent
  case unsentMatched => exact h.unsentMatched
  case matched =>
    intro m' hm' e he hkey
    rcases List.mem_append.1 hm' with hm' | hm'
    · exact h.matched m' (List.mem_append_left _ (hless m' hm')) e he hkey
    · rcases hback m' hm' with hold | ⟨hcall, hresponse⟩
      · exact h.matched m' (List.mem_append_right _ hold) e he hkey
      · rw [hcall]
        rw [hhandle _ _ _ hresponse] at hkey
        exact h.matched m (List.mem_append_left _ hcarried) e he hkey
  case outgoing => exact h.outgoing
  case carried => exact fun m' hm' => h.carried m' (hless m' hm')
  case executed =>
    intro x hx
    rcases List.mem_append.1 hx with hold | hnew
    · exact h.executed x hold
    · obtain rfl := List.mem_singleton.1 hnew
      exact h.carried m hcarried
  case once =>
    intro c
    have honce := h.once c
    have hnone : occurrences c (s.leave handle m r).inside = 0 := rfl
    simp only [State.carried, occurrences_append, hinside, occurrences_singleton] at honce
    simp only [State.carried, occurrences_append, hnone]
    simp only [State.leave, List.map_append, List.count_append, List.map_cons, List.map_nil, List.count_singleton,
      beq_iff_eq]
    omega
  case answers =>
    intro m' hm'
    rcases hback m' hm' with hold | ⟨hcall, hresponse⟩
    · exact hanswers (h.answers m' hold)
    · exact ⟨_, List.mem_append_right _ (List.mem_singleton_self _), hcall.symm, hresponse⟩
  case answered => exact fun c r' hhas => hanswers (h.answered c r' hhas)
  case handling => exact h.handling
  case pushing => exact h.pushing
  case sequential =>
    obtain ⟨between, hsequential, hbetween⟩ := h.sequential
    rw [Committed, hholder] at hbetween
    refine ⟨s.shared, ?_, rfl⟩
    have hdoes : handle.Does between (m.proto, handle.leave m.proto r) s.shared := ⟨r, hbetween, hend, rfl⟩
    have hhistory : (s.leave handle m r).history = s.history ++ [(m.proto, handle.leave m.proto r)] := by
      unfold State.history State.leave
      rw [List.map_append, List.map_singleton]
    rw [hhistory]
    exact hsequential.concat hdoes

theorem Sound.step (h : Sound content handle shared s) (hhandle : KeepsIds handle) (hfresh : FreshIds s e)
    (hstep : (machine config content handle shared).step s e = some s') : Sound content handle shared s' := by
  obtain ⟨henabled, rfl⟩ : Enabled config handle s e ∧ next content handle s e = s' := by simpa [machine] using hstep
  cases e with
  | schedule => exact h.schedule
  | begin m => exact h.begin henabled
  | enter m => exact h.enter henabled.1 (Option.isNone_iff_eq_none.1 henabled.2)
  | access =>
    obtain ⟨⟨shared', r'⟩, haccess⟩ := Option.isSome_iff_exists.1 henabled
    obtain ⟨⟨m, r⟩, hholder, haccess⟩ := Option.bind_eq_some_iff.1 haccess
    exact h.access hholder haccess
  | leave =>
    obtain ⟨⟨m, r⟩, hholder⟩ := Option.isSome_iff_exists.1 henabled.1
    have hend := Option.isNone_iff_eq_none.1 henabled.2
    rw [hholder] at hend
    have hnext : next content handle s .leave = s.leave handle m r := by simp only [next, hholder]
    rw [hnext]
    exact h.leave hhandle hholder hend
  | reply m => exact h.reply henabled
  | client e =>
    obtain ⟨henabled, hcomes⟩ := henabled
    have hsteps : ∀ {c phase}, (s.client.calls c).phase = phase → phase ≠ .idle → phase ≠ .opened →
        phase ≠ .registered → Sent (s.client.calls c) := fun hphase => sent_of_phase hphase
    cases e with
    | start c => exact h.start henabled
    | register c => exact h.register hfresh henabled.1
    | send c => exact h.send henabled.1
    | receive c => exact h.receive henabled.1
    | cancel c =>
      obtain ⟨-, -, hcancelled, -⟩ :=
        progress_steps (s := s) (hsteps henabled (by rintro ⟨⟩) (by rintro ⟨⟩) (by rintro ⟨⟩))
      exact h.setCall hcancelled
    | finish c => exact h.finish henabled.1
    | fire c =>
      have hsent : Sent (s.client.calls c) := by
        rcases henabled.2 with hphase | hphase
        · exact hsteps hphase (by rintro ⟨⟩) (by rintro ⟨⟩) (by rintro ⟨⟩)
        · exact hsteps hphase (by rintro ⟨⟩) (by rintro ⟨⟩) (by rintro ⟨⟩)
      obtain ⟨-, -, -, -, hfired⟩ := progress_steps (s := s) hsent
      exact h.setCall hfired
    | transmit => exact h.transmit
    | respond r => exact h.respond hcomes
    | lookUp r => exact h.lookUp henabled.1
    | push r c => exact h.push henabled.1
    | close => exact h.close
    | notify c rest =>
      have hcalls : ∀ d, Progress s d (s.client.calls d) ((s.client.pushTo c none).calls d) :=
        progress_pushTo (fun r hr => by cases hr)
      obtain ⟨hentries, hsending, hreceiver⟩ := pushTo_kept s.client c none
      refine h.stay (fun e he => ?_) hcalls hsending hreceiver
      rw [← hentries]
      exact he
    | closeEnd => exact h.stay (fun e he => by cases he) (fun c => Progress.refl s c _) rfl rfl

/-! ### Runs -/

theorem invariants_of_reaches (hhandle : KeepsIds handle)
    (h : (machine config content handle shared).Reaches FreshIds (initial shared) s) : Sound content handle shared s :=
  h.invariant (fun _ _ _ hs hfresh hstep => hs.step hhandle hfresh hstep) (Sound.initial shared)

/-- Executions are only added. -/
theorem executed_prefix (h : (machine config content handle shared).Reaches FreshIds s s') :
    ∃ later, s'.executed = s.executed ++ later := by
  refine h.invariant (I := fun t => ∃ later, t.executed = s.executed ++ later) ?_ ⟨[], (List.append_nil _).symm⟩
  rintro t e t' ⟨later, hlater⟩ - hstep
  obtain ⟨-, rfl⟩ : Enabled config handle t e ∧ next content handle t e = t' := by simpa [machine] using hstep
  cases e with
  | schedule | begin m | enter m | reply m => exact ⟨later, hlater⟩
  | access =>
    refine ⟨later, ?_⟩
    simp only [next]
    split
    · split
      · exact hlater
      · exact hlater
    · exact hlater
  | leave =>
    simp only [next]
    split
    case h_1 m r _ =>
      refine ⟨later ++ [⟨m.call, m.proto, handle.leave m.proto r⟩], ?_⟩
      rw [← List.append_assoc, ← hlater]
      rfl
    case h_2 => exact ⟨later, hlater⟩
  | client e => cases e <;> exact ⟨later, hlater⟩

/-- Each call is executed at most once, with its own request, and one that returns a response has been executed with
this response.  The responses are those of a server that executes the requests one after another, in the order in which
their sections have ended.  What has been executed was sent before, and a call that has returned a response is not
executed later, so that this order is one in which the calls may have taken effect. -/
theorem linearized_of_reaches (hhandle : KeepsIds handle)
    (h : (machine config content handle shared).Reaches FreshIds (initial shared) s) :
    (∃ between, handle.Sequential shared s.history between ∧ Committed handle s between) ∧
      (∀ xs after, handle.Sequential shared xs after → xs.map Prod.fst = s.history.map Prod.fst → xs = s.history) ∧
      (s.executed.map Executed.call).Nodup ∧
      (∀ x ∈ s.executed, Sent (s.client.calls x.call) ∧ x.request = request content s.client x.call) ∧
      (∀ c r, (s.client.calls c).phase = .returned (.response r) → ∃ x ∈ s.executed, x.call = c ∧ x.response = some r) ∧
      ∀ s', (machine config content handle shared).Reaches FreshIds s s' →
        ∃ later, s'.executed = s.executed ++ later ∧
          ∀ x ∈ later, ∀ r, (s.client.calls x.call).phase ≠ .returned (.response r) := by
  have hs := invariants_of_reaches hhandle h
  have hnodup : ∀ {t : State σ ρ}, Sound content handle shared t → (t.executed.map Executed.call).Nodup := by
    intro t ht
    rw [List.nodup_iff_count_le_one]
    intro c
    have honce := ht.once c
    omega
  have hunique : ∀ xs after, handle.Sequential shared xs after → xs.map Prod.fst = s.history.map Prod.fst →
      xs = s.history := by
    intro xs after hxs hsame
    obtain ⟨between, hsequential, -⟩ := hs.sequential
    exact (hsequential.unique hxs hsame).1
  refine ⟨hs.sequential, hunique, hnodup hs, hs.executed, fun c r hphase => hs.answered c r (.inr (.inr hphase)), ?_⟩
  intro s' hreach
  obtain ⟨later, hlater⟩ := executed_prefix hreach
  refine ⟨later, hlater, fun x hx r hphase => ?_⟩
  obtain ⟨y, hy, hcall, -⟩ := hs.answered x.call r (.inr (.inr hphase))
  have hdistinct := hnodup (invariants_of_reaches hhandle (h.trans hreach))
  rw [hlater, List.map_append, List.nodup_append] at hdistinct
  exact hdistinct.2.2 y.call (List.mem_map_of_mem hy) x.call (List.mem_map_of_mem hx) hcall

/-- A function that counts its calls: it reads the counter and writes it. -/
private def counting : Handler Nat (Option Nat × Nat) where
  enter _ := (none, 0)
  access
    | n, (none, _) => some (n, (some n, 0))
    | _, (some n, 0) => some (n + 1, (some n, 1))
    | _, (some _, _) => none
  leave p r := r.1.map fun n => Protocol.create .rpcMethodResponse [BitVec.ofNat 8 n] p.sequenceId

/-- Both calls are executed at once, and the answer to call 1, which has the id 1, comes first. -/
private def overtaking : List Event :=
  let ask (c : Nat) (id : BitVec 32) : Message := ⟨c, Protocol.create .rpcMethodRequest [BitVec.ofNat 8 c] id⟩
  let answer (c n : Nat) (id : BitVec 32) : Message := ⟨c, Protocol.create .rpcMethodResponse [BitVec.ofNat 8 n] id⟩
  [.client (.start 0), .client (.register 0), .client (.send 0), .client (.start 1), .client (.register 1),
    .client (.send 1), .client .transmit, .client .transmit, .schedule, .schedule, .begin (ask 0 0), .begin (ask 1 1),
    .enter (ask 1 1), .access, .access, .leave, .enter (ask 0 0), .access, .reply (answer 1 0 1),
    .client (.respond (answer 1 0 1).proto), .client (.lookUp (answer 1 0 1).proto),
    .client (.push (answer 1 0 1).proto 1), .client (.receive 1), .client (.cancel 1), .client (.finish 1), .access,
    .leave]

theorem linearized_of_reaches_overtaking :
    ∃ s, (machine ⟨true, 4⟩ (fun c => [BitVec.ofNat 8 c]) counting 0).Reaches FreshIds (initial 0) s ∧
      (s.client.calls 1).phase = .returned (.response (Protocol.create .rpcMethodResponse [0] 1)) ∧
      s.executed.map Executed.call = [1, 0] ∧ counting.Sequential 0 s.history 2 := by
  obtain ⟨s, hreach, hphase, hcalls, hshared, hholder⟩ :
      ∃ s, (machine ⟨true, 4⟩ (fun c => [BitVec.ofNat 8 c]) counting 0).Reaches FreshIds (initial 0) s ∧
        (s.client.calls 1).phase = .returned (.response (Protocol.create .rpcMethodResponse [0] 1)) ∧
        s.executed.map Executed.call = [1, 0] ∧ s.shared = 2 ∧ s.holder.isNone = true :=
    Machine.exists_reaches_of_guarded overtaking (by decide +kernel)
  have hids : KeepsIds counting := by
    intro p r response hresponse
    obtain ⟨n, -, rfl⟩ := Option.map_eq_some_iff.1 hresponse
    rfl
  obtain ⟨between, hsequential, hbetween⟩ := (linearized_of_reaches hids hreach).1
  rw [Committed, Option.isNone_iff_eq_none.1 hholder] at hbetween
  rw [hbetween, hshared] at hsequential
  exact ⟨s, hreach, hphase, hcalls, hsequential⟩

end Execution

end RpcClient

end AcidCompute

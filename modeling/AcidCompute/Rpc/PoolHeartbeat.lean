import AcidCompute.Base.Machine
import AcidCompute.Base.Outcome
import AcidCompute.Rpc.Protocol

/-!
# The heartbeat of a connection pool (`RpcConnectionPool::connect` and `handle_recv`)

The callback of the heartbeat timer gives the registry up if it finds `m_is_heart_close` set, sends a heartbeat, and
sets the flag; every message that is received resets it.  The constructor sets it too, and `connect` leaves it so, where
`RpcClient::connect` resets it.  The callback sends before it sets the flag, so that the answer may come in between.

The steps of a callback, of `handle_send`, `handle_recv` and `close` follow each other in any order, in runs in which
the registry answers every heartbeat before the next tick (`InTime`).  The pool keeps its timer just if every tick comes
after a message that has come after the previous callback has ended (`PoolHeartbeat.gaveUp_of_reaches`).
-/

namespace AcidCompute

namespace PoolHeartbeat

/-- What is sent through `m_channel`. -/
inductive Request
  | heartbeat
  | other
  deriving DecidableEq, Repr

structure State where
  -- `m_registry` is not null
  connected : Bool
  isClose : Bool
  isHeartClose : Bool
  -- `m_heart_timer` is not null, and its timer is registered
  heartTimer : Bool
  -- `m_channel`, which is closed when `isClose` is set
  channel : List Request
  -- callbacks that have expired and not begun, that are in front of the push to `m_channel`, and behind it
  due : Nat
  sending : Nat
  ending : Nat
  -- heartbeats on their way to the registry and answers on their way back
  unanswered : Nat
  -- a message has been received, and no callback has ended since
  heard : Bool
  -- a callback has cancelled the timer
  gaveUp : Bool
  fault : Option Undefined
  deriving DecidableEq, Repr

/-- `RpcConnectionPool(timeout_ms)` -/
def constructed : State where
  connected := false
  isClose := false
  isHeartClose := true
  heartTimer := false
  channel := []
  due := 0
  sending := 0
  ending := 0
  unanswered := 0
  heard := false
  gaveUp := false
  fault := none

inductive Event
  | connect (success : Bool)
  -- `list_expired_callback` takes the callback out of the timer
  | expire
  -- the steps of a callback
  | tick
  | push
  | mark
  -- a request or an answer of the pool, and the step of `handle_send`
  | request
  | transmit
  | receive (type : MessageType)
  | close
  deriving DecidableEq, Repr

/-- The registry has answered every heartbeat. -/
def InTime (s : State) : Prop := s.sending = 0 ∧ .heartbeat ∉ s.channel ∧ s.unanswered = 0

instance (s : State) : Decidable (InTime s) := inferInstanceAs (Decidable (_ ∧ _ ∧ _))

/-- `m_channel` takes another element, or is closed and takes none. -/
def CanPush (capacity : Nat) (s : State) : Prop := s.isClose = true ∨ s.channel.length < capacity

instance (capacity : Nat) (s : State) : Decidable (CanPush capacity s) := inferInstanceAs (Decidable (_ ∨ _))

def Enabled (capacity : Nat) (s : State) : Event → Prop
  | .connect _ => s.connected = false ∧ s.isClose = false
  | .expire => s.heartTimer = true
  | .tick => 0 < s.due ∧ InTime s
  | .push => 0 < s.sending ∧ CanPush capacity s
  | .mark => 0 < s.ending
  | .request => CanPush capacity s
  | .transmit => s.channel ≠ []
  -- a heartbeat packet is the answer to one
  | .receive type => s.connected = true ∧ s.isClose = false ∧ (type = .heartbeatPacket → 0 < s.unanswered)
  | .close => s.connected = true ∨ s.isClose = true

instance (capacity : Nat) (s : State) : (e : Event) → Decidable (Enabled capacity s e)
  | .connect _ => inferInstanceAs (Decidable (s.connected = false ∧ s.isClose = false))
  | .expire => inferInstanceAs (Decidable (s.heartTimer = true))
  | .tick => inferInstanceAs (Decidable (0 < s.due ∧ InTime s))
  | .push => inferInstanceAs (Decidable (0 < s.sending ∧ CanPush capacity s))
  | .mark => inferInstanceAs (Decidable (0 < s.ending))
  | .request => inferInstanceAs (Decidable (CanPush capacity s))
  | .transmit => inferInstanceAs (Decidable (s.channel ≠ []))
  | .receive type =>
    inferInstanceAs (Decidable (s.connected = true ∧ s.isClose = false ∧ (type = .heartbeatPacket → 0 < s.unanswered)))
  | .close => inferInstanceAs (Decidable (s.connected = true ∨ s.isClose = true))

/-- `m_channel << request` -/
def State.send (s : State) (request : Request) : State :=
  if s.isClose then s else { s with channel := s.channel ++ [request] }

/-- `m_heart_timer->cancel(); m_heart_timer.reset();` -/
def State.giveUp (s : State) : State :=
  if s.heartTimer then { s with heartTimer := false, gaveUp := true } else { s with fault := some .nullDeref }

def next (s : State) : Event → State
  | .connect success => if success then { s with connected := true, heartTimer := true } else s
  | .expire => { s with due := s.due + 1 }
  | .tick =>
    let s := { s with due := s.due - 1, sending := s.sending + 1 }
    if s.isHeartClose then s.giveUp else s
  | .push => { s.send .heartbeat with sending := s.sending - 1, ending := s.ending + 1 }
  | .mark => { s with isHeartClose := true, ending := s.ending - 1, heard := false }
  | .request => s.send .other
  | .transmit =>
    { s with
      channel := s.channel.tail
      unanswered := if s.channel.head? = some .heartbeat then s.unanswered + 1 else s.unanswered }
  | .receive type =>
    { s with
      isHeartClose := false, heard := true
      unanswered := if type = .heartbeatPacket then s.unanswered - 1 else s.unanswered }
  | .close =>
    if s.isClose then s
    else { s with isHeartClose := true, isClose := true, channel := [], heartTimer := false, connected := false }

def machine (capacity : Nat) : Machine State Event where
  start := constructed
  step s e := if Enabled capacity s e then some (next s e) else none

/-- A tick comes after a message that has come since the previous callback ended; after `close` it may come any time. -/
def Heard (s : State) : Event → Prop
  | .tick => s.heartTimer = true → s.heard = true
  | _ => True

instance (s : State) : (e : Event) → Decidable (Heard s e)
  | .tick => inferInstanceAs (Decidable (s.heartTimer = true → s.heard = true))
  | .connect _ => inferInstanceAs (Decidable True)
  | .expire => inferInstanceAs (Decidable True)
  | .push => inferInstanceAs (Decidable True)
  | .mark => inferInstanceAs (Decidable True)
  | .request => inferInstanceAs (Decidable True)
  | .transmit => inferInstanceAs (Decidable True)
  | .receive _ => inferInstanceAs (Decidable True)
  | .close => inferInstanceAs (Decidable True)

variable {capacity : Nat} {s s' : State} {e : Event}

theorem machine_step (h : (machine capacity).step s e = some s') : Enabled capacity s e ∧ next s e = s' := by
  simpa [machine] using h

/-- What the flag says in every state of a run, until `close` sets it and removes the timer. -/
structure Sound (s : State) : Prop where
  running : s.heartTimer = true → s.isClose = false
  flag : s.isClose = false → s.isHeartClose = !s.heard

theorem Sound.constructed : Sound constructed := ⟨fun h => absurd h Bool.false_ne_true, fun _ => rfl⟩

theorem Sound.send (h : Sound s) (request : Request) : Sound (s.send request) := by
  unfold State.send
  split
  case isTrue => exact h
  case isFalse => exact ⟨h.running, h.flag⟩

theorem Sound.giveUp (h : Sound s) : Sound s.giveUp := by
  unfold State.giveUp
  split
  case isTrue => exact ⟨fun hrunning => absurd hrunning Bool.false_ne_true, h.flag⟩
  case isFalse => exact ⟨h.running, h.flag⟩

theorem Sound.step (h : Sound s) (hstep : (machine capacity).step s e = some s') : Sound s' := by
  obtain ⟨henabled, rfl⟩ := machine_step hstep
  cases e with
  | connect success =>
    dsimp only [next]
    split
    case isTrue => exact ⟨fun _ => henabled.2, h.flag⟩
    case isFalse => exact h
  | expire => exact ⟨h.running, h.flag⟩
  | tick =>
    have hbegun : Sound { s with due := s.due - 1, sending := s.sending + 1 } := ⟨h.running, h.flag⟩
    dsimp only [next]
    split
    case isTrue => exact hbegun.giveUp
    case isFalse => exact hbegun
  | push =>
    have hsent := h.send .heartbeat
    exact ⟨hsent.running, hsent.flag⟩
  | mark => exact ⟨h.running, fun _ => rfl⟩
  | request => exact h.send .other
  | transmit => exact ⟨h.running, h.flag⟩
  | receive type => exact ⟨h.running, fun _ => rfl⟩
  | close =>
    dsimp only [next]
    split
    case isTrue => exact h
    case isFalse => exact ⟨fun hrunning => absurd hrunning Bool.false_ne_true, fun hopen => by cases hopen⟩

/-- The pool gives the registry up in a tick that finds the timer running and has heard nothing. -/
theorem gaveUp_iff (h : Sound s) (hkept : s.gaveUp = false) (hstep : (machine capacity).step s e = some s') :
    s'.gaveUp = false ↔ Heard s e := by
  obtain ⟨henabled, rfl⟩ := machine_step hstep
  have hsend : ∀ request, (s.send request).gaveUp = false := by
    intro request
    unfold State.send
    split <;> exact hkept
  cases e with
  | connect success =>
    refine iff_of_true ?_ trivial
    dsimp only [next]
    split <;> exact hkept
  | expire => exact iff_of_true hkept trivial
  | tick =>
    cases htimer : s.heartTimer with
    | false =>
      refine iff_of_true ?_ (fun hrunning => ?_)
      · cases hflag : s.isHeartClose <;> simp [next, State.giveUp, hflag, htimer, hkept]
      · rw [htimer] at hrunning
        cases hrunning
    | true =>
      have hflag : s.isHeartClose = !s.heard := h.flag (h.running htimer)
      cases hheard : s.heard <;> simp [next, State.giveUp, Heard, hflag, hheard, htimer, hkept]
  | push => exact iff_of_true (hsend .heartbeat) trivial
  | mark => exact iff_of_true hkept trivial
  | request => exact iff_of_true (hsend .other) trivial
  | transmit => exact iff_of_true hkept trivial
  | receive type => exact iff_of_true hkept trivial
  | close =>
    refine iff_of_true ?_ trivial
    dsimp only [next]
    split <;> exact hkept

/-- The callback never cancels the timer just in the runs in which every tick finds that a message has come since the
previous callback ended, and before the first tick since `connect`. -/
theorem gaveUp_of_reaches :
    ((machine capacity).Reaches ((machine capacity).Keeps fun t => t.gaveUp = false) constructed s ↔
        (machine capacity).Reaches Heard constructed s) ∧
      ((machine capacity).Reaches Heard constructed s → s.gaveUp = false) := by
  constructor
  · exact Machine.reaches_keeps_iff Sound.constructed rfl (fun _ _ _ hs hstep => hs.step hstep)
      fun _ _ _ hs hkept hstep => gaveUp_iff hs hkept hstep
  · intro h
    have hinv : Sound s ∧ s.gaveUp = false := by
      refine h.invariant (I := fun t => Sound t ∧ t.gaveUp = false) ?_ ⟨Sound.constructed, rfl⟩
      rintro t e t' ⟨hs, hkept⟩ hheard hstep
      exact ⟨hs.step hstep, (gaveUp_iff hs hkept hstep).2 hheard⟩
    exact hinv.2

/-- A heartbeat, from the timer to the registry. -/
private def heartbeat : List Event := [.expire, .tick, .push, .mark, .transmit]

/-- Nothing comes before the first tick; or the answer comes before the callback that has sent the heartbeat ends. -/
theorem exists_gaveUp_silent :
    (∃ s, (machine 1024).Reaches Machine.any constructed s ∧ s.gaveUp = true ∧ s.sending = 1 ∧ s.channel = []) ∧
      ∃ s, (machine 1024).Reaches Machine.any constructed s ∧ s.gaveUp = true :=
  ⟨Machine.exists_reaches_of_run [.connect true, .expire, .tick] (fun _ _ _ => trivial) (by decide +kernel),
    Machine.exists_reaches_of_run
      [.connect true, .receive .rpcSubscribeResponse, .expire, .tick, .push, .transmit, .receive .heartbeatPacket,
        .mark, .expire, .tick] (fun _ _ _ => trivial) (by decide +kernel)⟩

/-- A message comes before the first tick, and then two heartbeats are answered. -/
theorem gaveUp_of_reaches_answered : ∃ s, (machine 1024).Reaches Heard constructed s ∧
    s.heartTimer = true ∧ s.gaveUp = false := by
  obtain ⟨s, hreach, htimer⟩ : ∃ s, (machine 1024).Reaches Heard constructed s ∧ s.heartTimer = true :=
    Machine.exists_reaches_of_guarded ([.connect true, .receive .rpcSubscribeResponse] ++ heartbeat ++
      [.receive .heartbeatPacket] ++ heartbeat ++ [.receive .heartbeatPacket]) (by decide +kernel)
  exact ⟨s, hreach, htimer, gaveUp_of_reaches.2 hreach⟩

end PoolHeartbeat

end AcidCompute

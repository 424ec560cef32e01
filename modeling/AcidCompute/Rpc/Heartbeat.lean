import AcidCompute.Rpc.Server
import AcidCompute.Timer.Runs

/-!
# The heartbeat timers of `RpcServer` and `RpcServiceRegistry`

For each client a fiber receives messages in `handle_client`, and calls `update` in front of the loop and for every
message.  `update` takes the pointer to the timer by value, so that the fiber's own pointer stays null and every call
adds another timer instead of moving the one that is there.  The first one closes the socket `m_alive_time` milliseconds
after the client has connected, whatever it has sent (`Armed`).

The timers are those of one manager, which serves any number of clients.  The clock ticks only when no timer is due.
-/

namespace AcidCompute

namespace Heartbeat

/-- The members of a server that `update` uses, and what it passes to `add_timer`. -/
structure Config where
  -- `m_alive_time`
  aliveTime : Nat
  recurring : Bool
  deriving DecidableEq, Repr

/-- Where a client is, with the readings of the clock when it connected and when its socket was closed by a timer. -/
inductive Phase
  | waiting
  | served (start : Nat)
  | left (start : Nat)
  | timedOut (start time : Nat)
  deriving DecidableEq, Repr

/-- A client, with the local variable of its fiber and the readings of the clock for its messages. -/
structure Client where
  phase : Phase
  -- `heart_timer`
  heartTimer : Option Nat
  received : List Nat
  deriving DecidableEq, Repr

structure State where
  clock : Nat
  -- a callback captures a client
  timers : Timers.State Nat
  clients : Nat → Client

/-- Where a new timer is needed, or a probe, the event has its address. -/
inductive Event
  | connect (c p : Nat)
  | message (c p : Nat)
  | leave (c : Nat)
  | tick
  | expire (probe : Nat)
  deriving DecidableEq, Repr

def Phase.isServed : Phase → Bool
  | served _ => true
  | _ => false

namespace Client

/-- `client->close()` -/
def close (client : Client) (clock : Nat) : Client :=
  match client.phase with
  | .served start => { client with phase := .timedOut start clock }
  | _ => client

/-- No message has been received in the `aliveTime` milliseconds before a timer closed the socket. -/
def Silent (client : Client) (aliveTime : Nat) : Prop :=
  ∀ start time, client.phase = .timedOut start time → ∀ t ∈ client.received, ¬ (time < t + aliveTime ∧ t ≤ time)

/-- The client left by itself, or less than `aliveTime` milliseconds have passed since it connected, or it has sent no
message after the millisecond in which it connected. -/
def Brief (client : Client) (clock aliveTime : Nat) : Prop :=
  match client.phase with
  | .waiting => True
  | .left _ => True
  | .served start => clock < start + aliveTime ∨ ∀ t ∈ client.received, t = start
  | .timedOut start _ => clock < start + aliveTime ∨ ∀ t ∈ client.received, t = start

end Client

namespace State

variable (s : State)

/-- `get_elapsed_ms` -/
def now : BitVec 64 := BitVec.ofNat 64 s.clock

def setClient (c : Nat) (client : Client) : State := { s with clients := Function.update s.clients c client }

/-- `update(heart_timer, client)` -/
def update (config : Config) (heartTimer : Option Nat) (c p : Nat) : State :=
  match heartTimer with
  | none =>
    { s with
      timers := Timers.next s.timers (.addTimer p (BitVec.ofNat 64 config.aliveTime) c config.recurring s.now) }
  | some timer =>
    { s with timers := Timers.next s.timers (.reset timer (BitVec.ofNat 64 config.aliveTime) true s.now) }

/-- The callbacks of the timers that have expired are called. -/
def closeAll (callbacks : List (Option Nat)) : State :=
  callbacks.foldl (fun s callback => callback.elim s fun c => s.setClient c ((s.clients c).close s.clock)) s

/-- No timer is due. -/
def Settled : Prop := ∀ p ∈ s.timers.manager.timers, s.now < (s.timers.manager.objects p).next

instance : Decidable s.Settled := inferInstanceAs (Decidable (∀ p ∈ s.timers.manager.timers, _))

end State

/-- When an event can happen; the clock does not run out of numbers. -/
def Enabled (s : State) : Event → Prop
  | .connect c p => (s.clients c).phase = .waiting ∧ s.timers.Free p
  | .message c p => (s.clients c).phase.isServed = true ∧ s.timers.Free p
  | .leave c => (s.clients c).phase.isServed = true
  | .tick => s.Settled ∧ s.clock + 1 < 2 ^ 64
  | .expire probe => s.timers.Free probe

/-- The deadline of a timer that is added is a number of 64 bits. -/
def Fits (config : Config) (s : State) : Event → Prop
  | .connect _ _ | .message _ _ => s.clock + config.aliveTime < 2 ^ 64
  | .leave _ | .tick | .expire _ => True

instance (config : Config) (s : State) : (e : Event) → Decidable (Fits config s e)
  | .connect _ _ | .message _ _ => inferInstanceAs (Decidable (_ < _))
  | .leave _ | .tick | .expire _ => inferInstanceAs (Decidable True)

instance (s : State) : (e : Event) → Decidable (Enabled s e)
  | .connect _ _ => inferInstanceAs (Decidable (_ ∧ _))
  | .message _ _ => inferInstanceAs (Decidable (_ ∧ _))
  | .leave _ => inferInstanceAs (Decidable (_ = _))
  | .tick => inferInstanceAs (Decidable (_ ∧ _))
  | .expire _ => inferInstanceAs (Decidable (_ ∧ _))

def next (config : Config) (s : State) : Event → State
  | .connect c p =>
    let s := s.setClient c ⟨.served s.clock, none, []⟩
    s.update config (s.clients c).heartTimer c p
  | .message c p =>
    let s := s.setClient c { s.clients c with received := s.clock :: (s.clients c).received }
    s.update config (s.clients c).heartTimer c p
  | .leave c =>
    match (s.clients c).phase with
    | .served start => s.setClient c { s.clients c with phase := .left start }
    | _ => s
  | .tick => { s with clock := s.clock + 1 }
  | .expire probe =>
    { s.closeAll (s.timers.manager.listExpiredCallback s.now probe []).1 with
      timers := Timers.next s.timers (.listExpiredCallback s.now probe) }

def initial (now : BitVec 64) : State := ⟨now.toNat, Timers.initial now, fun _ => ⟨.waiting, none, []⟩⟩

def machine (config : Config) (now : BitVec 64) : Machine State Event where
  start := initial now
  step s e := if Enabled s e then some (next config s e) else none

theorem step_eq_some {config : Config} {now : BitVec 64} {s s' : State} {e : Event} :
    (machine config now).step s e = some s' ↔ Enabled s e ∧ next config s e = s' := by
  simp [machine]

/-! ### The timers of one client -/

/-- Its timers in the set: the first one is due `aliveTime` milliseconds after the client connected, and none before. -/
def Timed (config : Config) (m : TimerManager Nat) (c start : Nat) : Prop :=
  (∃ p ∈ m.timers, (m.objects p).callback = some c ∧ (m.objects p).next.toNat = start + config.aliveTime) ∧
    ∀ p ∈ m.timers, (m.objects p).callback = some c → start + config.aliveTime ≤ (m.objects p).next.toNat

/-- What holds of a client and its timers. -/
def Clocked (config : Config) (clock : Nat) (m : TimerManager Nat) (c : Nat) (client : Client) : Prop :=
  match client.phase with
  | .waiting => ∀ p ∈ m.timers, (m.objects p).callback ≠ some c
  | .served start =>
    clock ≤ start + config.aliveTime ∧ (∀ t ∈ client.received, start ≤ t ∧ t ≤ clock) ∧ start ≤ clock ∧
      Timed config m c start
  | .left _ => True
  | .timedOut start time =>
    time = start + config.aliveTime ∧ (∀ t ∈ client.received, start ≤ t ∧ t ≤ time) ∧ time ≤ clock

structure Armed (config : Config) (s : State) : Prop where
  consistent : Timers.Consistent s.timers
  clock_lt : s.clock < 2 ^ 64
  -- the clock is not taken to have been set back
  previous : s.timers.manager.previousTime ≤ s.now
  -- `update` changes its own copy of the pointer
  heartTimer : ∀ c, (s.clients c).heartTimer = none
  client : ∀ c, Clocked config s.clock s.timers.manager c (s.clients c)

theorem toNat_now {s : State} (h : s.clock < 2 ^ 64) : s.now.toNat = s.clock := by
  rw [State.now, BitVec.toNat_ofNat, Nat.mod_eq_of_lt h]

theorem Armed.initial (config : Config) (now : BitVec 64) : Armed config (initial now) where
  consistent := Timers.Consistent.initial _
  clock_lt := now.isLt
  previous := by
    show now ≤ BitVec.ofNat 64 now.toNat
    rw [BitVec.ofNat_toNat, BitVec.setWidth_eq]
    exact BitVec.le_refl now
  heartTimer c := rfl
  client c p hp := by cases hp

section

variable {config : Config} {s : State} {c : Nat}

/-- Where the timers of a client stay as they are. -/
private theorem Clocked.of_same {clock : Nat} {m m' : TimerManager Nat} {client : Client}
    (h : Clocked config clock m c client)
    (hmem : ∀ p, p ∈ m'.timers ∧ (m'.objects p).callback = some c ↔ p ∈ m.timers ∧ (m.objects p).callback = some c)
    (hobjects : ∀ p, p ∈ m.timers → (m.objects p).callback = some c → m'.objects p = m.objects p) :
    Clocked config clock m' c client := by
  unfold Clocked at *
  cases hphase : client.phase with
  | waiting =>
    rw [hphase] at h
    intro p hp hcallback
    obtain ⟨hp', hcallback'⟩ := (hmem p).1 ⟨hp, hcallback⟩
    exact h p hp' hcallback'
  | served start =>
    rw [hphase] at h
    obtain ⟨hclock, hreceived, hstart, ⟨q, hq, hqcallback, hqnext⟩, hlater⟩ := h
    refine ⟨hclock, hreceived, hstart, ⟨q, ?_, ?_, ?_⟩, ?_⟩
    · exact ((hmem q).2 ⟨hq, hqcallback⟩).1
    · exact ((hmem q).2 ⟨hq, hqcallback⟩).2
    · rw [hobjects q hq hqcallback]
      exact hqnext
    · intro p hp hcallback
      obtain ⟨hp', hcallback'⟩ := (hmem p).1 ⟨hp, hcallback⟩
      rw [hobjects p hp' hcallback']
      exact hlater p hp' hcallback'
  | left start => trivial
  | timedOut start time =>
    rw [hphase] at h
    exact h

/-! ### A timer is added -/

private theorem addTimer_previousTime (m : TimerManager Nat) (p : Nat) (ms : BitVec 64) (cb : Option Nat)
    (recurring : Bool) (now : BitVec 64) : (m.addTimer p ms cb recurring now).previousTime = m.previousTime := by
  unfold TimerManager.addTimer TimerManager.addTimerLocked
  dsimp only
  split <;> rfl

/-- The pointer that `handle_client` passes is null, so that each call adds a timer. -/
private theorem Armed.update (h : Armed config s) {client : Client} {p : Nat} (hfree : s.timers.Free p)
    (hfits : s.clock + config.aliveTime < 2 ^ 64) (htimer : client.heartTimer = none)
    (hclient : ∀ m : TimerManager Nat, (∀ q, q ∈ m.timers ↔ q = p ∨ q ∈ s.timers.manager.timers) →
      (m.objects p).callback = some c → (m.objects p).next.toNat = s.clock + config.aliveTime →
      (∀ q, q ≠ p → m.objects q = s.timers.manager.objects q) → Clocked config s.clock m c client) :
    Armed config ((s.setClient c client).update config client.heartTimer c p) := by
  have hfresh := h.consistent.not_mem_of_free hfree
  rw [htimer]
  let m := s.timers.manager.addTimer p (BitVec.ofNat 64 config.aliveTime) (some c) config.recurring s.now
  have hmem : ∀ q, q ∈ m.timers ↔ q = p ∨ q ∈ s.timers.manager.timers := fun q => TimerManager.mem_addTimerLocked
  have hobjects : m.objects = Function.update s.timers.manager.objects p
      (Timer.new (BitVec.ofNat 64 config.aliveTime) (some c) config.recurring s.now) :=
    TimerManager.addTimerLocked_objects
  have hself : m.objects p = Timer.new (BitVec.ofNat 64 config.aliveTime) (some c) config.recurring s.now := by
    rw [hobjects, Function.update_self]
  have hothers : ∀ q, q ≠ p → m.objects q = s.timers.manager.objects q := by
    intro q hq
    rw [hobjects, Function.update_of_ne hq]
  constructor
  case consistent => exact h.consistent.addTimer hfree _ _ _ _
  case clock_lt => exact h.clock_lt
  case previous =>
    show m.previousTime ≤ s.now
    rw [addTimer_previousTime]
    exact h.previous
  case heartTimer =>
    exact (Function.forall_update_iff s.clients fun _ x => x.heartTimer = none).2 ⟨htimer, fun d _ => h.heartTimer d⟩
  case client =>
    refine (Function.forall_update_iff s.clients fun d x => Clocked config s.clock m d x).2 ⟨?_, ?_⟩
    · refine hclient m hmem (by rw [hself]; rfl) ?_ hothers
      rw [hself]
      show (s.now + BitVec.ofNat 64 config.aliveTime).toNat = _
      rw [BitVec.toNat_add, toNat_now h.clock_lt, BitVec.toNat_ofNat,
        Nat.mod_eq_of_lt (show config.aliveTime < 2 ^ 64 by omega), Nat.mod_eq_of_lt hfits]
    · intro d hd
      refine (h.client d).of_same ?_ ?_
      · intro q
        by_cases hq : q = p
        · subst hq
          rw [hself]
          have hne : (some c : Option Nat) ≠ some d := fun heq => hd (Option.some.inj heq).symm
          simp [Timer.new, hne, hfresh]
        · rw [hmem q, hothers q hq]
          simp [hq]
      · intro q hq _
        exact hothers q fun heq => hfresh (heq ▸ hq)

private theorem Armed.connect (h : Armed config s) {p : Nat} (hwaiting : (s.clients c).phase = .waiting)
    (hfree : s.timers.Free p) (hfits : s.clock + config.aliveTime < 2 ^ 64) :
    Armed config (next config s (.connect c p)) := by
  have hclient : ((s.setClient c ⟨.served s.clock, none, []⟩).clients c) = ⟨.served s.clock, none, []⟩ := by
    simp [State.setClient]
  unfold next
  dsimp only
  rw [hclient]
  refine h.update hfree hfits rfl ?_
  intro m hmem hcallback hnext hothers
  have hnone := h.client c
  unfold Clocked at hnone
  rw [hwaiting] at hnone
  refine ⟨Nat.le_add_right _ _, by simp, Nat.le_refl _, ⟨p, (hmem p).2 (.inl rfl), hcallback, hnext⟩, ?_⟩
  intro q hq hqcallback
  by_cases heq : q = p
  · rw [heq, hnext]
  · rw [hothers q heq] at hqcallback
    exact absurd hqcallback (hnone q (((hmem q).1 hq).resolve_left heq))

private theorem Armed.message (h : Armed config s) {p : Nat} (hserved : (s.clients c).phase.isServed = true)
    (hfree : s.timers.Free p) (hfits : s.clock + config.aliveTime < 2 ^ 64) :
    Armed config (next config s (.message c p)) := by
  obtain ⟨start, hphase⟩ : ∃ start, (s.clients c).phase = .served start := by
    cases hphase : (s.clients c).phase with
    | served start => exact ⟨start, rfl⟩
    | waiting | left | timedOut => simp [hphase, Phase.isServed] at hserved
  have hclocked := h.client c
  unfold Clocked at hclocked
  rw [hphase] at hclocked
  obtain ⟨hclock, hreceived, hstart, ⟨q, hq, hqcallback, hqnext⟩, hlater⟩ := hclocked
  let client : Client := { s.clients c with received := s.clock :: (s.clients c).received }
  have hclient : (s.setClient c client).clients c = client := by simp [State.setClient]
  have hfresh := h.consistent.not_mem_of_free hfree
  show Armed config ((s.setClient c client).update config ((s.setClient c client).clients c).heartTimer c p)
  rw [hclient]
  refine h.update hfree hfits (h.heartTimer c) ?_
  intro m hmem hcallback hnext hothers
  have hold : ∀ q, q ∈ s.timers.manager.timers → m.objects q = s.timers.manager.objects q := fun q hq =>
    hothers q fun heq => hfresh (heq ▸ hq)
  unfold Clocked
  rw [show client.phase = .served start from hphase]
  refine ⟨hclock, ?_, hstart, ⟨q, (hmem q).2 (.inr hq), ?_, ?_⟩, ?_⟩
  · intro t ht
    rcases List.mem_cons.1 ht with rfl | hmem'
    · exact ⟨hstart, Nat.le_refl _⟩
    · exact hreceived t hmem'
  · rw [hold q hq]
    exact hqcallback
  · rw [hold q hq]
    exact hqnext
  · intro r hr hrcallback
    rcases (hmem r).1 hr with rfl | hmem'
    · rw [hnext]
      omega
    · rw [hold r hmem'] at hrcallback ⊢
      exact hlater r hmem' hrcallback

private theorem Armed.leave (h : Armed config s) : Armed config (next config s (.leave c)) := by
  cases hphase : (s.clients c).phase with
  | served start =>
    simp only [next, hphase]
    have hheart : ∀ d, ((s.setClient c { s.clients c with phase := .left start }).clients d).heartTimer = none :=
      (Function.forall_update_iff s.clients fun _ x => x.heartTimer = none).2
        ⟨h.heartTimer c, fun d _ => h.heartTimer d⟩
    have hclient : ∀ d, Clocked config s.clock s.timers.manager d
        ((s.setClient c { s.clients c with phase := .left start }).clients d) :=
      (Function.forall_update_iff s.clients fun d x => Clocked config s.clock s.timers.manager d x).2
        ⟨trivial, fun d _ => h.client d⟩
    exact ⟨h.consistent, h.clock_lt, h.previous, hheart, hclient⟩
  | waiting | left | timedOut =>
    simp only [next, hphase]
    exact h

/-- Where no timer is due, the first timer of a client is not. -/
private theorem Armed.lt_of_settled (h : Armed config s) (hsettled : s.Settled) {start : Nat}
    (hphase : (s.clients c).phase = .served start) : s.clock < start + config.aliveTime := by
  have hclocked := h.client c
  unfold Clocked at hclocked
  rw [hphase] at hclocked
  obtain ⟨-, -, -, ⟨p, hp, -, hnext⟩, -⟩ := hclocked
  have hlater := BitVec.lt_def.1 (hsettled p hp)
  rwa [toNat_now h.clock_lt, hnext] at hlater

private theorem Armed.tick (h : Armed config s) (hsettled : s.Settled) (hfits : s.clock + 1 < 2 ^ 64) :
    Armed config (next config s .tick) := by
  have hnow : (next config s .tick).now.toNat = s.clock + 1 := toNat_now hfits
  have hprevious := BitVec.le_def.1 h.previous
  rw [toNat_now h.clock_lt] at hprevious
  constructor
  case consistent => exact h.consistent
  case clock_lt => exact hfits
  case previous =>
    rw [BitVec.le_def, hnow]
    exact Nat.le_succ_of_le hprevious
  case heartTimer => exact h.heartTimer
  case client =>
    intro c
    show Clocked config (s.clock + 1) s.timers.manager c (s.clients c)
    have hclocked := h.client c
    unfold Clocked at *
    cases hphase : (s.clients c).phase with
    | waiting =>
      rw [hphase] at hclocked
      exact hclocked
    | served start =>
      have hlt := h.lt_of_settled hsettled hphase
      rw [hphase] at hclocked
      obtain ⟨-, hreceived, hstart, htimed⟩ := hclocked
      exact ⟨hlt, fun t ht => ⟨(hreceived t ht).1, Nat.le_succ_of_le (hreceived t ht).2⟩, Nat.le_succ_of_le hstart,
        htimed⟩
    | left start => trivial
    | timedOut start time =>
      rw [hphase] at hclocked
      obtain ⟨htime, hreceived, hle⟩ := hclocked
      exact ⟨htime, hreceived, Nat.le_succ_of_le hle⟩

/-! ### The timers expire -/

private theorem close_close (client : Client) (clock : Nat) :
    (client.close clock).close clock = client.close clock := by
  obtain ⟨phase, heartTimer, received⟩ := client
  cases phase <;> rfl

private theorem close_heartTimer (client : Client) (clock : Nat) :
    (client.close clock).heartTimer = client.heartTimer := by
  obtain ⟨phase, heartTimer, received⟩ := client
  cases phase <;> rfl

/-- A client is closed once, however many of its timers expire. -/
private theorem closeAll_clients (s : State) (callbacks : List (Option Nat)) (c : Nat) :
    (s.closeAll callbacks).clock = s.clock ∧ (s.closeAll callbacks).timers = s.timers ∧
      (s.closeAll callbacks).clients c =
        if some c ∈ callbacks then (s.clients c).close s.clock else s.clients c := by
  induction callbacks generalizing s with
  | nil => exact ⟨rfl, rfl, rfl⟩
  | cons callback callbacks ih =>
    cases callback with
    | none =>
      have htail := ih s
      simpa [State.closeAll] using htail
    | some d =>
      obtain ⟨hclock, htimers, hclients⟩ := ih (s.setClient d ((s.clients d).close s.clock))
      refine ⟨hclock, htimers, ?_⟩
      show ((s.setClient d ((s.clients d).close s.clock)).closeAll callbacks).clients c = _
      rw [hclients]
      by_cases hd : c = d
      · subst hd
        simp [State.setClient, close_close]
      · simp [State.setClient, hd]

private theorem foldl_fire_previousTime (now : BitVec 64) (l : List Nat) (x : List (Option Nat) × TimerManager Nat) :
    (l.foldl (TimerManager.fire now) x).2.previousTime = x.2.previousTime := by
  induction l generalizing x with
  | nil => rfl
  | cons p l ih =>
    rw [List.foldl_cons, ih]
    unfold TimerManager.fire
    dsimp only
    split <;> rfl

private theorem listExpiredCallback_previousTime (m : TimerManager Nat) (now : BitVec 64) (probe : Nat)
    (callbacks : List (Option Nat)) (h : m.previousTime ≤ now) :
    (m.listExpiredCallback now probe callbacks).2.previousTime ≤ now := by
  unfold TimerManager.listExpiredCallback
  split
  · exact h
  · dsimp only
    split
    · exact BitVec.le_refl now
    · rw [foldl_fire_previousTime]
      exact BitVec.le_refl now

/-- The clock has not been set back, so that the timers that are due expire and no others. -/
private theorem Armed.mem_expired (h : Armed config s) {p : Nat} :
    p ∈ s.timers.manager.expired s.now ↔ p ∈ s.timers.manager.timers ∧ (s.timers.manager.objects p).next ≤ s.now := by
  have hrollover : (s.timers.manager.detectClockRollover s.now).1 = false :=
    decide_eq_false fun hback => BitVec.not_lt.2 h.previous hback.1
  rw [TimerManager.mem_expired, hrollover, or_iff_right Bool.false_ne_true]

/-- A timer that is due is the first one of its client, so that it closes the socket at its deadline. -/
private theorem Clocked.close {clock : Nat} {m : TimerManager Nat} {client : Client}
    (h : Clocked config clock m c client) {q : Nat} (hq : q ∈ m.timers) (hcallback : (m.objects q).callback = some c)
    (hnext : (m.objects q).next.toNat ≤ clock) (m' : TimerManager Nat) :
    Clocked config clock m' c (client.close clock) := by
  unfold Clocked at h
  cases hphase : client.phase with
  | waiting =>
    rw [hphase] at h
    exact absurd hcallback (h q hq)
  | served start =>
    rw [hphase] at h
    obtain ⟨hle, hreceived, -, -, hlater⟩ := h
    have htime : clock = start + config.aliveTime := Nat.le_antisymm hle ((hlater q hq hcallback).trans hnext)
    simp only [Client.close, hphase, Clocked]
    exact ⟨htime, hreceived, Nat.le_refl _⟩
  | left start => simp only [Client.close, hphase, Clocked]
  | timedOut start time =>
    rw [hphase] at h
    simpa only [Client.close, hphase, Clocked] using h

private theorem Armed.expire (h : Armed config s) {probe : Nat} (hfree : s.timers.Free probe) :
    Armed config (next config s (.expire probe)) := by
  obtain ⟨m, heq, -, hobjects, htimers⟩ := h.consistent.listExpired hfree s.now []
  let callbacks := (s.timers.manager.expired s.now).map fun q => (s.timers.manager.objects q).callback
  have hcallbacks : (s.timers.manager.listExpiredCallback s.now probe []).1 = callbacks := congrArg Prod.fst heq
  have hmanager : (next config s (.expire probe)).timers.manager = m := congrArg Prod.snd heq
  have hclock : (next config s (.expire probe)).clock = s.clock := (closeAll_clients s _ 0).1
  have hclients : ∀ c, (next config s (.expire probe)).clients c =
      if some c ∈ callbacks then (s.clients c).close s.clock else s.clients c := by
    intro c
    rw [← hcallbacks]
    exact (closeAll_clients s _ c).2.2
  have hnow : (next config s (.expire probe)).now = s.now := by rw [State.now, hclock, State.now]
  constructor
  case consistent => exact h.consistent.listExpiredCallback hfree s.now
  case clock_lt => exact hclock.symm ▸ h.clock_lt
  case previous =>
    rw [hnow]
    exact listExpiredCallback_previousTime _ _ _ _ h.previous
  case heartTimer =>
    intro c
    rw [hclients c]
    split
    · rw [close_heartTimer]
      exact h.heartTimer c
    · exact h.heartTimer c
  case client =>
    intro c
    rw [hclients c, hclock, hmanager]
    by_cases hdue : some c ∈ callbacks
    · rw [if_pos hdue]
      obtain ⟨q, hexpired, hcallback⟩ := List.mem_map.1 hdue
      obtain ⟨hq, hnext⟩ := h.mem_expired.1 hexpired
      rw [BitVec.le_def, toNat_now h.clock_lt] at hnext
      exact (h.client c).close hq hcallback hnext m
    · rw [if_neg hdue]
      have hearly : ∀ q ∈ s.timers.manager.timers, (s.timers.manager.objects q).callback = some c →
          q ∉ s.timers.manager.expired s.now := fun q _ hcallback hexpired =>
        hdue (List.mem_map.2 ⟨q, hexpired, hcallback⟩)
      have hkept : ∀ q ∈ s.timers.manager.timers, (s.timers.manager.objects q).callback = some c →
          m.objects q = s.timers.manager.objects q := by
        intro q hq hcallback
        rw [hobjects q (h.consistent.allocated q hq), if_neg (hearly q hq hcallback)]
      refine (h.client c).of_same ?_ hkept
      intro q
      constructor
      · rintro ⟨hq, hcallback⟩
        obtain ⟨hold, hrecurring⟩ := (htimers q).1 hq
        refine ⟨hold, ?_⟩
        rw [hobjects q (h.consistent.allocated q hold)] at hcallback
        by_cases hexpired : q ∈ s.timers.manager.expired s.now
        · rw [if_pos hexpired] at hcallback
          simpa [Timer.fired, hrecurring hexpired] using hcallback
        · rwa [if_neg hexpired] at hcallback
      · rintro ⟨hq, hcallback⟩
        refine ⟨(htimers q).2 ⟨hq, fun hexpired => absurd hexpired (hearly q hq hcallback)⟩, ?_⟩
        rw [hkept q hq hcallback]
        exact hcallback

/-! ### Runs -/

theorem Armed.next {e : Event} (h : Armed config s) (hfits : Fits config s e) (henabled : Enabled s e) :
    Armed config (next config s e) := by
  cases e with
  | connect c p => exact h.connect henabled.1 henabled.2 hfits
  | message c p => exact h.message henabled.1 henabled.2 hfits
  | leave c => exact h.leave
  | tick => exact h.tick henabled.1 henabled.2
  | expire probe => exact h.expire henabled

theorem Armed.of_reaches {now : BitVec 64}
    (hreach : (machine config now).Reaches (Fits config) (Heartbeat.initial now) s) : Armed config s := by
  refine hreach.invariant ?_ (Armed.initial config now)
  intro t e t' h hfits hstep
  obtain ⟨henabled, rfl⟩ := step_eq_some.1 hstep
  exact h.next hfits henabled

end

/-- The heartbeat timeout spares a client that has been heard of in time, if the client does not stay or is silent from
the start; once the timers that are due have expired, only then. -/
theorem silent_iff (config : Config) (now : BitVec 64) {s : State}
    (hreach : (machine config now).Reaches (Fits config) (initial now) s) (c : Nat) :
    ((s.clients c).Brief s.clock config.aliveTime → (s.clients c).Silent config.aliveTime) ∧
      (s.Settled → (s.clients c).Silent config.aliveTime → (s.clients c).Brief s.clock config.aliveTime) := by
  have h := Armed.of_reaches hreach
  have hclocked := h.client c
  unfold Clocked at hclocked
  unfold Client.Brief Client.Silent
  cases hphase : (s.clients c).phase with
  | waiting => exact ⟨fun _ _ _ heq => (by cases heq), fun _ _ => trivial⟩
  | left start => exact ⟨fun _ _ _ heq => (by cases heq), fun _ _ => trivial⟩
  | served start =>
    exact ⟨fun _ _ _ heq => (by cases heq), fun hsettled _ => .inl (h.lt_of_settled hsettled hphase)⟩
  | timedOut start time =>
    rw [hphase] at hclocked
    obtain ⟨htime, hreceived, hle⟩ := hclocked
    constructor
    · rintro hbrief _ _ ⟨⟩ t ht ⟨hlate, -⟩
      rcases hbrief with hearly | hstart
      · omega
      · have hfirst := hstart t ht
        omega
    · intro _ hsilent
      refine .inr fun t ht => ?_
      have hspared := hsilent start time rfl t ht
      have hrange := hreceived t ht
      omega

/-- A client that says nothing after it has connected is closed after three milliseconds. -/
theorem silent_iff_brief :
    ∃ s, (machine ⟨3, true⟩ 0).Reaches (Fits ⟨3, true⟩) (initial 0) s ∧ (s.clients 0).phase = .timedOut 0 3 ∧
      (s.clients 0).Silent 3 ∧ (s.clients 0).Brief s.clock 3 := by
  obtain ⟨s, hreach, hphase, hsettled, hreceived⟩ : ∃ s, (machine ⟨3, true⟩ 0).Reaches (Fits ⟨3, true⟩) (initial 0) s ∧
      (s.clients 0).phase = .timedOut 0 3 ∧ s.Settled ∧ ∀ t ∈ (s.clients 0).received, t = 0 :=
    Machine.exists_reaches_of_guarded [.connect 0 1, .message 0 2, .tick, .tick, .tick, .expire 9] (by decide +kernel)
  have hbrief : (s.clients 0).Brief s.clock 3 := by
    unfold Client.Brief
    rw [hphase]
    exact .inr hreceived
  have hsilent := (silent_iff ⟨3, true⟩ 0 hreach 0).1 hbrief
  exact ⟨s, hreach, hphase, hsilent, (silent_iff ⟨3, true⟩ 0 hreach 0).2 hsettled hsilent⟩

/-- A client sends a message one millisecond after it has connected, and is closed two milliseconds later. -/
private theorem reaches_closed (recurring : Bool) :
    ∃ s, (machine ⟨3, recurring⟩ 0).Reaches Machine.any (initial 0) s ∧ ¬ (s.clients 0).Silent 3 := by
  obtain ⟨s, hreach, hphase, hreceived⟩ : ∃ s, (machine ⟨3, recurring⟩ 0).Reaches Machine.any (initial 0) s ∧
      (s.clients 0).phase = .timedOut 0 3 ∧ 1 ∈ (s.clients 0).received :=
    Machine.exists_reaches_of_run [.connect 0 1, .tick, .message 0 2, .tick, .tick, .expire 9] (fun _ _ _ => trivial)
      (by cases recurring <;> decide +kernel)
  exact ⟨s, hreach, fun hsilent => hsilent 0 3 hphase 1 hreceived (by decide)⟩

end Heartbeat

/-- The timers of `RpcServer::update`. -/
def RpcServer.heartbeat (aliveTime : Nat) : Heartbeat.Config := ⟨aliveTime, true⟩

/-- The timers of `RpcServiceRegistry::update`. -/
def RpcServiceRegistry.heartbeat (aliveTime : Nat) : Heartbeat.Config := ⟨aliveTime, false⟩

/-- Two milliseconds after its last message a client is closed that may be silent for three. -/
theorem Heartbeat.not_silent_sending :
    (∃ s, (machine (RpcServer.heartbeat 3) 0).Reaches Machine.any (initial 0) s ∧ ¬ (s.clients 0).Silent 3) ∧
      ∃ s, (machine (RpcServiceRegistry.heartbeat 3) 0).Reaches Machine.any (initial 0) s ∧
        ¬ (s.clients 0).Silent 3 := by
  exact ⟨reaches_closed true, reaches_closed false⟩

end AcidCompute

import AcidCompute.Common.Descriptors

/-!
# Calls for descriptors that are closed (`do_io` and `close` in `acid/common/hook.cpp`)

A fiber may wait for a number in `do_io` while another closes it.  With some care about when numbers are given out again
and where `cancel_all` comes, every call is made for the file that its number named in the beginning.  Without it, a
fiber may wait for good for a file that is closed, or read from another file (`Descriptors.file_of_reaches`).
-/

namespace AcidCompute

namespace Descriptors

variable {C : SystemCalls} {s s' : State} {e : Event}

/-- A number is given out when no call uses it any more, `cancel_all` comes after all registrations, in the `IOManager`
of the calls, and no call waits for a file that is closed without the hook. -/
def Careful (s : State) : Event → Prop
  | .socket fd _ => ∀ c < s.begun, ¬ s.Uses c fd
  | .cancelAll fd iom => ∀ c < s.begun, (s.calls c).phase = .waiting → (s.calls c).fd = fd → iom = some (s.calls c).iom
  | .closeF fd => ∀ c < s.begun, (s.calls c).phase = .waiting → (s.calls c).fd ≠ fd
  | .addEvent c => s.stages (s.calls c).fd ≠ .cancelled ∧ s.stages (s.calls c).fd ≠ .deleted
  | _ => True

instance (s : State) : (e : Event) → Decidable (Careful s e)
  | .socket fd _ => inferInstanceAs (Decidable (∀ c < s.begun, ¬ s.Uses c fd))
  | .cancelAll fd iom => inferInstanceAs (Decidable
      (∀ c < s.begun, (s.calls c).phase = .waiting → (s.calls c).fd = fd → iom = some (s.calls c).iom))
  | .closeF fd => inferInstanceAs (Decidable (∀ c < s.begun, (s.calls c).phase = .waiting → (s.calls c).fd ≠ fd))
  | .addEvent c =>
    inferInstanceAs (Decidable (s.stages (s.calls c).fd ≠ .cancelled ∧ s.stages (s.calls c).fd ≠ .deleted))
  | .get _ _ | .del _ | .close _ | .call _ _ _ | .sysCall _ _ | .trigger _ | .cancelEvent _ =>
    inferInstanceAs (Decidable True)

namespace State

/-- The number of a call names its file as long as it names one, and the call waits for this file while it is open. -/
structure Attends (s : State) (call : Call) : Prop where
  astray : call.astray = false
  file : call.phase ≠ .returned → s.stages call.fd ≠ .closed → s.file call.fd = call.file
  registered : call.phase = .waiting → call.registered = call.file
  stage : call.phase = .waiting → s.stages call.fd = .opened ∨ s.stages call.fd = .ready

end State

/-- A step that leaves a call and its number alone. -/
private theorem State.Attends.keep {call : Call} (h : s.Attends call) (hstage : s'.stages call.fd = s.stages call.fd)
    (hfile : s'.file call.fd = s.file call.fd) : s'.Attends call := by
  refine ⟨h.astray, ?_, h.registered, ?_⟩
  · rw [hstage, hfile]
    exact h.file
  · rw [hstage]
    exact h.stage

/-- A step to a stage that no call waits in. -/
private theorem State.Attends.setStage {call : Call} (h : s.Attends call) {fd : Nat} {stage : Stage}
    (hopen : s.stages fd ≠ .closed) (hwaiting : call.phase = .waiting → call.fd = fd → stage = .ready) :
    (s.setStage fd stage).Attends call := by
  by_cases heq : call.fd = fd
  · refine ⟨h.astray, fun hphase _ => h.file hphase (heq ▸ hopen), h.registered, fun hphase => ?_⟩
    rw [setStage_stages, if_pos heq]
    exact .inr (hwaiting hphase heq)
  · exact h.keep (by rw [setStage_stages, if_neg heq]) rfl

/-- A step that changes one call only. -/
private theorem attends_setCall (h : ∀ c, s.Attends (s.calls c)) {c : Nat} {call : Call} (hcall : s.Attends call) :
    ∀ d, (s.setCall c call).Attends ((s.setCall c call).calls d) := by
  intro d
  rw [setCall_calls]
  split
  · exact State.Attends.keep hcall rfl rfl
  · exact State.Attends.keep (h d) rfl rfl

theorem attends_step (hnumbered : Numbered s) (h : ∀ c, s.Attends (s.calls c)) (hcareful : Careful s e)
    (hstep : (machine C).step s e = some s') : ∀ c, s'.Attends (s'.calls c) := by
  obtain ⟨henabled, rfl⟩ := machine_step hstep
  have hbegun : ∀ {c}, (s.calls c).phase ≠ .returned → c < s.begun := fun {c} hphase =>
    Nat.lt_of_not_le fun hle => hphase (hnumbered.begun c hle)
  have hrenamed : ∀ {c}, (s.calls c).phase ≠ .returned →
      decide (s.Renamed (s.calls c).fd (s.calls c).file) = false := fun {c} hphase =>
    decide_eq_false fun ⟨hopen, hne⟩ => hne ((h c).file hphase hopen)
  cases e with
  | socket fd flags =>
    intro c
    by_cases heq : (s.calls c).fd = fd
    · have hreturned : (s.calls c).phase = .returned := by
        by_contra hphase
        exact hcareful c (hbegun hphase) ⟨heq, hphase⟩
      have hnot : (s.calls c).phase ≠ .waiting := by
        rw [hreturned]
        rintro ⟨⟩
      exact ⟨(h c).astray, fun hphase => absurd hreturned hphase, fun hphase => absurd hphase hnot,
        fun hphase => absurd hphase hnot⟩
    · exact State.Attends.keep (h c) ((setStage_stages s fd _ _).trans (if_neg heq)) (Function.update_of_ne heq _ _)
  | get fd stat =>
    have hopened : s.stages fd = .opened := henabled
    intro c
    have hstage : (s.setStage fd .ready).Attends (s.calls c) := (h c).setStage (by simp [hopened]) fun _ _ => rfl
    exact State.Attends.keep hstage rfl rfl
  | cancelAll fd iom =>
    have hready : s.stages fd = .ready := henabled
    intro c
    show State.Attends _ (s.wake fd iom (s.calls c))
    have hopen : s.stages fd ≠ .closed := by simp [hready]
    by_cases hwoken : (s.calls c).phase = .waiting ∧ (s.calls c).fd = fd
    · obtain ⟨hphase, hfd⟩ := hwoken
      have hnot : (s.calls c).phase ≠ .returned := by simp [hphase]
      have hfile := (h c).file hnot (hfd ▸ hopen)
      have hwake : s.wake fd iom (s.calls c) = { s.calls c with phase := .calling } := by
        refine if_pos ⟨hphase, hfd, hcareful c (hbegun hnot) hphase hfd, ?_⟩
        rw [(h c).registered hphase, ← hfile, hfd]
      rw [hwake]
      exact ⟨(h c).astray, fun _ _ => hfile, by rintro ⟨⟩, by rintro ⟨⟩⟩
    · have hwake : s.wake fd iom (s.calls c) = s.calls c := if_neg fun hall => hwoken ⟨hall.1, hall.2.1⟩
      rw [hwake]
      have hstage : (s.setStage fd .cancelled).Attends (s.calls c) :=
        (h c).setStage hopen fun hphase hfd => absurd ⟨hphase, hfd⟩ hwoken
      exact State.Attends.keep hstage rfl rfl
  | del fd =>
    have hcancelled : s.stages fd = .cancelled := henabled
    intro c
    have hstage : (s.setStage fd .deleted).Attends (s.calls c) := by
      refine (h c).setStage (by simp [hcancelled]) fun hphase hfd => ?_
      exact absurd ((h c).stage hphase) (by simp [hfd, hcancelled])
    exact State.Attends.keep hstage rfl rfl
  | close fd =>
    have hdeleted : s.stages fd = .deleted := henabled
    intro c
    refine (h c).setStage (by simp [hdeleted]) fun hphase hfd => ?_
    exact absurd ((h c).stage hphase) (by simp [hfd, hdeleted])
  | closeF fd =>
    intro c
    refine (h c).setStage ?_ fun hphase hfd => ?_
    · rcases henabled with henabled | henabled <;> rw [henabled] <;> rintro ⟨⟩
    · exact absurd hfd (hcareful c (hbegun (by simp [hphase])) hphase)
  | call fd event iom =>
    intro c
    have hcall : s.Attends ⟨.calling, fd, event, iom, s.file fd, 0, false⟩ :=
      ⟨rfl, fun _ _ => rfl, by rintro ⟨⟩, by rintro ⟨⟩⟩
    exact State.Attends.keep (attends_setCall h hcall c) rfl rfl
  | sysCall c blocks =>
    obtain ⟨-, hphase⟩ := henabled
    have hnot : (s.calls c).phase ≠ .returned := by simp [hphase]
    refine attends_setCall h ⟨?_, fun _ => (h c).file hnot, ?_, ?_⟩
    · dsimp only
      rw [(h c).astray, hrenamed hnot]
      rfl
    · dsimp only
      split <;> rintro ⟨⟩
    · dsimp only
      split <;> rintro ⟨⟩
  | addEvent c =>
    obtain ⟨-, hphase, -⟩ := henabled
    obtain ⟨hcancelled, hdeleted⟩ := hcareful
    have hnot : (s.calls c).phase ≠ .returned := by simp [hphase]
    have hfound : ∀ {p : Prop} [Decidable p], (if p then Phase.waiting else .returned) = .waiting → p := by
      intro p _ hp
      by_contra hnp
      rw [if_neg hnp] at hp
      cases hp
    refine attends_setCall h ⟨?_, fun _ => (h c).file hnot, fun hwaiting => ?_, fun hwaiting => ?_⟩
    · dsimp only
      rw [(h c).astray, hrenamed hnot]
      rfl
    · exact (h c).file hnot (hfound hwaiting).1
    · have hopen := (hfound hwaiting).1
      dsimp only
      cases hstage : s.stages (s.calls c).fd with
      | closed => exact absurd hstage hopen
      | opened => exact .inl rfl
      | ready => exact .inr rfl
      | cancelled => exact absurd hstage hcancelled
      | deleted => exact absurd hstage hdeleted
  | trigger c =>
    obtain ⟨-, hphase, -⟩ := henabled
    have hnot : (s.calls c).phase ≠ .returned := by simp [hphase]
    exact attends_setCall h ⟨(h c).astray, fun _ => (h c).file hnot, by rintro ⟨⟩, by rintro ⟨⟩⟩
  | cancelEvent c => exact attends_setCall h ⟨(h c).astray, fun hphase => absurd rfl hphase, by rintro ⟨⟩, by rintro ⟨⟩⟩

/-- A call that waits for a file that is closed. -/
structure Lost (c : Nat) (s : State) : Prop where
  begun : c < s.begun
  phase : (s.calls c).phase = .waiting
  watched : ¬ s.Watched (s.calls c)
  registered : (s.calls c).registered < s.fresh

/-- A step after which the call is the same, and its number does not name its file. -/
private theorem Lost.keep {c : Nat} (h : Lost c s) (hcall : s'.calls c = s.calls c) (hbegun : s.begun ≤ s'.begun)
    (hfresh : s.fresh ≤ s'.fresh) (hwatched : s'.Watched (s.calls c) → s.Watched (s.calls c)) : Lost c s' := by
  refine ⟨Nat.lt_of_lt_of_le h.begun hbegun, ?_, ?_, ?_⟩
  · rw [hcall]
    exact h.phase
  · rw [hcall]
    exact fun hnew => h.watched (hwatched hnew)
  · rw [hcall]
    exact Nat.lt_of_lt_of_le h.registered hfresh

private theorem Lost.setStage {c : Nat} (h : Lost c s) {fd : Nat} {stage : Stage} (hopen : s.stages fd ≠ .closed) :
    Lost c (s.setStage fd stage) := by
  refine h.keep rfl (Nat.le_refl _) (Nat.le_refl _) fun ⟨hstage, hfile⟩ => ⟨?_, hfile⟩
  rw [setStage_stages] at hstage
  split at hstage
  case isTrue heq => exact heq ▸ hopen
  case isFalse => exact hstage

private theorem Lost.setCall {c d : Nat} (h : Lost c s) {call : Call} (hne : c ≠ d) : Lost c (s.setCall d call) :=
  h.keep (by rw [setCall_calls, if_neg hne]) (Nat.le_refl _) (Nat.le_refl _) id

theorem Lost.step {c : Nat} (h : Lost c s) (hstep : (machine C).step s e = some s') : Lost c s' := by
  obtain ⟨henabled, rfl⟩ := machine_step hstep
  have hother : ∀ {d phase}, (s.calls d).phase = phase → phase ≠ .waiting → c ≠ d := by
    rintro d phase rfl hne rfl
    exact hne h.phase
  cases e with
  | socket fd flags =>
    refine h.keep rfl (Nat.le_refl _) (Nat.le_succ _) fun ⟨hstage, hfile⟩ => ?_
    by_cases heq : (s.calls c).fd = fd
    · have hnew : (next C s (.socket fd flags)).file (s.calls c).fd = s.fresh := by
        rw [heq]
        exact Function.update_self _ _ _
      have hregistered := h.registered
      omega
    · exact ⟨by rwa [show (next C s (.socket fd flags)).stages (s.calls c).fd = s.stages (s.calls c).fd from
        (setStage_stages s fd _ _).trans (if_neg heq)] at hstage, (Function.update_of_ne heq _ _).symm.trans hfile⟩
  | get fd stat =>
    have hopened : s.stages fd = .opened := henabled
    have hstage : Lost c (s.setStage fd .ready) := h.setStage (by simp [hopened])
    exact hstage.keep rfl (Nat.le_refl _) (Nat.le_refl _) id
  | cancelAll fd iom =>
    have hready : s.stages fd = .ready := henabled
    have hstage : Lost c (s.setStage fd .cancelled) := h.setStage (by simp [hready])
    refine hstage.keep (if_neg ?_) (Nat.le_refl _) (Nat.le_refl _) id
    rintro ⟨-, hfd, -, hfile⟩
    exact h.watched ⟨by simp [hfd, hready], hfd ▸ hfile⟩
  | del fd =>
    have hcancelled : s.stages fd = .cancelled := henabled
    have hstage : Lost c (s.setStage fd .deleted) := h.setStage (by simp [hcancelled])
    exact hstage.keep rfl (Nat.le_refl _) (Nat.le_refl _) id
  | close fd =>
    have hdeleted : s.stages fd = .deleted := henabled
    exact h.setStage (by simp [hdeleted])
  | closeF fd =>
    refine h.setStage ?_
    rcases henabled with henabled | henabled <;> rw [henabled] <;> rintro ⟨⟩
  | call fd event iom =>
    have hbegun := h.begun
    exact (h.setCall (show c ≠ s.begun by omega)).keep rfl (Nat.le_succ _) (Nat.le_refl _) id
  | sysCall d blocks => exact h.setCall (hother henabled.2 (by rintro ⟨⟩))
  | addEvent d => exact h.setCall (hother henabled.2.1 (by rintro ⟨⟩))
  | trigger d =>
    refine h.setCall ?_
    rintro rfl
    exact h.watched henabled.2.2
  | cancelEvent d =>
    refine h.setCall ?_
    rintro rfl
    exact h.watched henabled.2.2

/-- The files of a number are later than that of a call. -/
structure Outdated (c fd : Nat) (s : State) : Prop where
  begun : c < s.begun
  number : (s.calls c).fd = fd
  file : (s.calls c).file < s.file fd
  fresh : (s.calls c).file < s.fresh

theorem Outdated.step {c fd : Nat} (h : Outdated c fd s) (hstep : (machine C).step s e = some s') :
    Outdated c fd s' := by
  obtain ⟨-, rfl⟩ := machine_step hstep
  have hbegun := h.begun
  have hset : ∀ {d call}, call.fd = (s.calls d).fd → call.file = (s.calls d).file →
      Outdated c fd (s.setCall d call) := by
    intro d call hfd hfile
    have hcall : ((s.setCall d call).calls c).fd = (s.calls c).fd ∧
        ((s.setCall d call).calls c).file = (s.calls c).file := by
      rw [setCall_calls]
      split
      case isTrue heq => exact heq ▸ ⟨hfd, hfile⟩
      case isFalse => exact ⟨rfl, rfl⟩
    exact ⟨hbegun, hcall.1.trans h.number, by rw [hcall.2]; exact h.file, by rw [hcall.2]; exact h.fresh⟩
  cases e with
  | socket fd' flags =>
    refine ⟨hbegun, h.number, ?_, Nat.lt_succ_of_lt h.fresh⟩
    show (s.calls c).file < Function.update s.file fd' s.fresh fd
    by_cases heq : fd = fd'
    · rw [heq, Function.update_self]
      exact h.fresh
    · rw [Function.update_of_ne heq]
      exact h.file
  | cancelAll fd' iom =>
    obtain ⟨hfd, -, hfile, -⟩ := wake_kept s fd' iom (s.calls c)
    refine ⟨hbegun, hfd.trans h.number, ?_, ?_⟩
    · show (s.wake fd' iom (s.calls c)).file < s.file fd
      rw [hfile]
      exact h.file
    · show (s.wake fd' iom (s.calls c)).file < s.fresh
      rw [hfile]
      exact h.fresh
  | call fd' event iom =>
    have hcall : (next C s (.call fd' event iom)).calls c = s.calls c :=
      (setCall_calls s _ c _).trans (if_neg (by omega))
    exact ⟨Nat.lt_succ_of_lt hbegun, by rw [hcall]; exact h.number, by rw [hcall]; exact h.file,
      by rw [hcall]; exact h.fresh⟩
  | sysCall d blocks => exact hset rfl rfl
  | addEvent d => exact hset rfl rfl
  | trigger d => exact hset rfl rfl
  | cancelEvent d => exact hset rfl rfl
  | get _ _ | del _ | close _ | closeF _ => exact ⟨hbegun, h.number, h.file, h.fresh⟩

private theorem Outdated.astray {c fd : Nat} (h : Outdated c fd s) (hopen : s.stages fd ≠ .closed)
    (he : (∃ blocks, e = .sysCall c blocks) ∨ e = .addEvent c) (hstep : (machine C).step s e = some s') :
    (s'.calls c).astray = true := by
  obtain ⟨-, rfl⟩ := machine_step hstep
  have hrenamed : decide (s.Renamed (s.calls c).fd (s.calls c).file) = true := by
    refine decide_eq_true ⟨h.number ▸ hopen, ?_⟩
    rw [h.number]
    exact (Nat.ne_of_lt h.file).symm
  rcases he with ⟨blocks, rfl⟩ | rfl
  · rw [next, setCall_calls, if_pos rfl, hrenamed, Bool.or_true]
  · rw [next, setCall_calls, if_pos rfl, hrenamed, Bool.or_true]

/-- With care, no call is made for another file than its own, and a call that waits waits for its own file, which is
open and not about to be closed.  A call that still waits for its file when this is closed waits for good, and a call
whose number is given out before it has noticed makes its system calls for other files only. -/
theorem file_of_reaches :
    ((machine C).Reaches Careful initial s → ∀ c, (s.calls c).astray = false ∧ ((s.calls c).phase = .waiting →
        (s.stages (s.calls c).fd = .opened ∨ s.stages (s.calls c).fd = .ready) ∧
          s.file (s.calls c).fd = (s.calls c).registered ∧ (s.calls c).registered = (s.calls c).file)) ∧
      ((machine C).Reaches Machine.any initial s → ∀ c s', (s.calls c).phase = .waiting → s.Watched (s.calls c) →
        (machine C).step s (.close (s.calls c).fd) = some s' ∨ (machine C).step s (.closeF (s.calls c).fd) = some s' →
          ∀ s'', (machine C).Reaches Machine.any s' s'' → (s''.calls c).phase = .waiting) ∧
      ((machine C).Reaches Machine.any initial s → ∀ c < s.begun, ∀ flags s',
        (machine C).step s (.socket (s.calls c).fd flags) = some s' → ∀ t, (machine C).Reaches Machine.any s' t →
          ∀ e t', (∃ blocks, e = .sysCall c blocks) ∨ e = .addEvent c → t.stages (t.calls c).fd ≠ .closed →
            (machine C).step t e = some t' → (t'.calls c).astray = true) := by
  refine ⟨?_, ?_, ?_⟩
  · intro h c
    have hattends : ∀ c, s.Attends (s.calls c) :=
      h.invariant_along (fun _ _ _ hreach hs hcareful hstep =>
        attends_step (numbered_of_reaches (hreach.mono fun _ _ _ => trivial)) hs hcareful hstep)
        fun _ => ⟨rfl, fun hphase => absurd rfl hphase, by rintro ⟨⟩, by rintro ⟨⟩⟩
    refine ⟨(hattends c).astray, fun hphase => ?_⟩
    have hstage := (hattends c).stage hphase
    have hregistered := (hattends c).registered hphase
    refine ⟨hstage, ?_, hregistered⟩
    rw [hregistered]
    refine (hattends c).file (by simp [hphase]) ?_
    rcases hstage with hstage | hstage <;> rw [hstage] <;> rintro ⟨⟩
  · intro h c s' hphase hwatched hstep s'' hreach
    have hnumbered := numbered_of_reaches h
    have hbegun : c < s.begun := by
      refine Nat.lt_of_not_le fun hle => ?_
      rw [hnumbered.begun c hle] at hphase
      cases hphase
    obtain rfl : s.setStage (s.calls c).fd .closed = s' := by
      rcases hstep with hstep | hstep
      · exact (machine_step hstep).2
      · exact (machine_step hstep).2
    have hlost : Lost c (s.setStage (s.calls c).fd .closed) := by
      refine ⟨hbegun, hphase, fun hopen => hopen.1 ?_, hnumbered.registered c hphase⟩
      exact (setStage_stages s _ _ _).trans (if_pos rfl)
    exact (hreach.invariant (fun _ _ _ hs _ hstep => hs.step hstep) hlost).phase
  · intro h c hbegun flags s' hstep t hreach e t' he hopen hlast
    have hnumbered := numbered_of_reaches h
    obtain ⟨-, rfl⟩ := machine_step hstep
    have hfile := hnumbered.call c hbegun
    have houtdated : Outdated c (s.calls c).fd (next C s (.socket (s.calls c).fd flags)) := by
      refine ⟨hbegun, rfl, ?_, Nat.lt_succ_of_lt hfile⟩
      show (s.calls c).file < Function.update s.file (s.calls c).fd s.fresh (s.calls c).fd
      rw [Function.update_self]
      exact hfile
    have hnow := hreach.invariant (fun _ _ _ hs _ hstep => hs.step hstep) houtdated
    exact hnow.astray (hnow.number ▸ hopen) he hlast

/-- Two fibers read from the socket 3, the first waits, and the socket is closed in another `IOManager` or thread. -/
private def closing : List Event :=
  [.socket 3 2, .get 3 (some true), .call 3 .read 1, .call 3 .read 1, .sysCall 0 true, .addEvent 0]

/-- One call waits with care, one waits for a file that is closed, and one reads from the next file of the number. -/
theorem file_of_reaches_closing :
    (∃ s, (machine plainCalls).Reaches Careful initial s ∧ (s.calls 0).phase = .waiting ∧
        (s.calls 0).astray = false ∧ s.stages 3 = .ready ∧ s.file 3 = (s.calls 0).file) ∧
      ∃ s s', (machine plainCalls).Reaches Machine.any initial s ∧
        (machine plainCalls).step s (.closeF 3) = some s' ∧
        (∀ s'', (machine plainCalls).Reaches Machine.any s' s'' → (s''.calls 0).phase = .waiting) ∧
        ∃ t t', (machine plainCalls).Reaches Machine.any s' t ∧
          (machine plainCalls).step t (.sysCall 1 false) = some t' ∧ (t'.calls 1).astray = true := by
  constructor
  · obtain ⟨s, hreach, hphase, hfd, hready⟩ : ∃ s, (machine plainCalls).Reaches Careful initial s ∧
        (s.calls 0).phase = .waiting ∧ (s.calls 0).fd = 3 ∧ s.stages 3 = .ready :=
      Machine.exists_reaches_of_guarded closing (by decide +kernel)
    obtain ⟨hastray, hwaiting⟩ := file_of_reaches.1 hreach 0
    obtain ⟨-, hfile, hregistered⟩ := hwaiting hphase
    exact ⟨s, hreach, hphase, hastray, hready, hfd ▸ hfile.trans hregistered⟩
  · obtain ⟨s, hreach, hphase, hfd, hwatched, hready, hbegun, hcall⟩ :
        ∃ s, (machine plainCalls).Reaches Machine.any initial s ∧ (s.calls 0).phase = .waiting ∧ (s.calls 0).fd = 3 ∧
          s.Watched (s.calls 0) ∧ s.stages 3 = .ready ∧ 1 < s.begun ∧
            (s.calls 1).phase = .calling ∧ (s.calls 1).fd = 3 :=
      Machine.exists_reaches_of_run closing (fun _ _ _ => trivial) (by decide +kernel)
    let s' := next plainCalls s (.closeF 3)
    let t := next plainCalls s' (.socket 3 2)
    have hclose : (machine plainCalls).step s (.closeF 3) = some s' := step_of_enabled (.inr hready)
    have hsocket : (machine plainCalls).step s' (.socket 3 2) = some t :=
      step_of_enabled ((setStage_stages s 3 3 _).trans (if_pos rfl))
    have hread : (machine plainCalls).step t (.sysCall 1 false) = some (next plainCalls t (.sysCall 1 false)) :=
      step_of_enabled ⟨hbegun, hcall.1⟩
    have hreach' : (machine plainCalls).Reaches Machine.any s' t := .single trivial hsocket
    have hopen : t.stages (t.calls 1).fd ≠ .closed := by
      have hfd1 : (t.calls 1).fd = 3 := hcall.2
      rw [hfd1, show t.stages 3 = .opened from (setStage_stages s' 3 3 _).trans (if_pos rfl)]
      rintro ⟨⟩
    refine ⟨s, s', hreach, hclose, ?_, t, _, hreach', hread, ?_⟩
    · exact file_of_reaches.2.1 hreach 0 s' hphase hwatched (.inr (by rw [hfd]; exact hclose))
    · have hstep : (machine plainCalls).step s' (.socket (s'.calls 1).fd 2) = some t := by
        rw [show (s'.calls 1).fd = 3 from hcall.2]
        exact hsocket
      exact file_of_reaches.2.2 (hreach.trans (.single trivial hclose)) 1 hbegun 2 t hstep t .refl _ _
        (.inl ⟨false, rfl⟩) hopen hread

end Descriptors

end AcidCompute

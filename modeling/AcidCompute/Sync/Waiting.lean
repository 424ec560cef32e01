import AcidCompute.Sync.Channel
import AcidCompute.Sync.CoCountDownLatch
import AcidCompute.Sync.CoMonitorQuiet
import AcidCompute.Sync.CoSemaphore

/-!
# Who waits for a channel, a semaphore or a latch

The functions of `ChannelImpl`, `CoSemaphore` and `CoCountDownLatch` with `CoMutex` and `CoCond` as they are.  What the
monitors guarantee holds after every step, and when no fiber can go on, those who wait do so because there is nothing
for them.
-/

namespace AcidCompute

open Monitor CoMonitor

variable {setting : CoMutex.Setting Nat}

namespace ChannelImpl

variable {α : Type} {capacity : Nat}

/-- After every step the queue is within the capacity, `pop` has returned in order what `push` has accepted, and nothing
is lost while the channel is open.  When no fiber can go on, and none has queued up for the mutex unnoticed, consumers
wait only for an open channel without values, and producers only for an open channel that is full. -/
theorem delivered_of_reaches (hset : Fibers setting) {t : CoMonitor.State (Data α) (Label α) Cond}
    (h : (CoMonitor.machine setting (monitor capacity α)).Reaches Machine.any
      (CoMonitor.machine setting (monitor capacity α)).start t) :
    t.data.queue.length ≤ capacity ∧ t.data.popped <+: t.data.accepted ∧
      (t.data.isClose = false → t.data.accepted = t.data.popped ++ t.data.queue) ∧
      ((CoMonitor.machine setting (monitor capacity α)).Reaches Noticed
        (CoMonitor.machine setting (monitor capacity α)).start t → Quiet setting (monitor capacity α) t →
        (∀ f i, t.places f = .waiting .pop i → t.data.isClose = false ∧ t.data.queue = []) ∧
        ∀ f i, t.places f = .waiting .push i → t.data.isClose = false ∧ t.data.queue.length = capacity) := by
  obtain ⟨-, s, hreach, href⟩ := follows_of_reaches hset h
  have hkept : Fifo capacity t.data := href.data ▸ ((keeps capacity).of_reaches hreach).data
  refine ⟨hkept.bounded, (List.prefix_append _ _).trans hkept.inOrder, fun hopen => (hkept.all hopen).symm, ?_⟩
  intro hnoticed hquiet
  obtain ⟨s, hreach, hdata, hfree, hwoken, hwaits⟩ := exists_rest hset hnoticed hquiet
  have hopen : ∀ f c i, t.places f = .waiting c i → t.data.isClose = false := by
    intro f c i hf
    rw [← hdata]
    refine Bool.eq_false_iff.2 fun hclosed => hwaits f c i hf ?_
    exact Flushed.queue_eq_nil_of_free ((flushes capacity c).of_reaches (keeps capacity) hreach) hclosed hfree
  have hnone : ∀ f c i, t.places f = .waiting c i → avail capacity c t.data = 0 := by
    intro f c i hf
    have hle := ((counts capacity c).of_reaches (keeps capacity) hreach).avail_le hfree (hwaits f c i hf)
    rw [hwoken, hdata] at hle
    exact Nat.le_zero.1 hle
  constructor
  · intro f i hf
    have hempty := hnone f _ i hf
    simp only [avail, hopen f _ i hf, Bool.false_eq_true, if_false] at hempty
    exact ⟨hopen f _ i hf, List.eq_nil_of_length_eq_zero hempty⟩
  · intro f i hf
    have hfull := hnone f _ i hf
    simp only [avail, hopen f _ i hf, Bool.false_eq_true, if_false] at hfull
    exact ⟨hopen f _ i hf, Nat.le_antisymm hkept.bounded (Nat.le_of_sub_eq_zero hfull)⟩

/-- A fiber waits in `pop`. -/
private def consumer : List (CoMonitor.Event (Label Nat)) :=
  [.call 0 .pop, .mutex (.tryLock 0), .mutex (.setId 0), .run 0, .unlock 0, .mutex (.release 0 none)]

theorem delivered_of_reaches_consumer : ∃ t : CoMonitor.State (Data Nat) (Label Nat) Cond,
    Quiet ownIds (monitor 1 Nat) t ∧ t.places 0 = .waiting .pop .popWoken ∧ t.data.isClose = false ∧
      t.data.queue = [] := by
  obtain ⟨t, hrun, hfirst, hothers⟩ : ∃ t, (CoMonitor.machine ownIds (monitor 1 Nat)).run
      (CoMonitor.machine ownIds (monitor 1 Nat)).start consumer = some t ∧ t.places 0 = .waiting .pop .popWoken ∧
        ∀ f, t.places (f + 1) = .outside := ⟨_, rfl, rfl, fun _ => rfl⟩
  have hreach : (CoMonitor.machine ownIds (monitor 1 Nat)).Reaches Noticed
      (CoMonitor.machine ownIds (monitor 1 Nat)).start t :=
    Machine.reaches_of_run_forall (fun t => by simp [consumer, Noticed, CoMutex.Noticed]) hrun
  have hquiet : Quiet ownIds (monitor 1 Nat) t := by
    refine .of_places (follows_of_reaches ownIds_fibers hreach).1 fun f => ?_
    cases f with
    | zero => exact .inr ⟨.pop, .popWoken, hfirst⟩
    | succ f => exact .inl (hothers f)
  obtain ⟨-, -, -, hwaits⟩ := delivered_of_reaches ownIds_fibers (hreach.mono fun _ _ _ => trivial)
  exact ⟨t, hquiet, hfirst, (hwaits hreach hquiet).1 0 _ hfirst⟩

end ChannelImpl

namespace CoSemaphore

variable {num : Nat}

/-- Never are more units taken than there are.  When no fiber can go on, and none has queued up for the mutex unnoticed,
fibers wait only while all are taken. -/
theorem taken_of_reaches (hset : Fibers setting) {t : CoMonitor.State Data Label Unit}
    (h : (CoMonitor.machine setting (monitor num)).Reaches Machine.any
      (CoMonitor.machine setting (monitor num)).start t) :
    t.data.used ≤ num ∧
      ((CoMonitor.machine setting (monitor num)).Reaches Noticed (CoMonitor.machine setting (monitor num)).start t →
        Quiet setting (monitor num) t → ∀ f c i, t.places f = .waiting c i → t.data.used = num) := by
  obtain ⟨-, s, hreach, href⟩ := follows_of_reaches hset h
  have hused : t.data.used ≤ num := href.data ▸ ((keeps num).of_reaches hreach).data
  refine ⟨hused, fun hnoticed hquiet f c i hf => Nat.le_antisymm hused ?_⟩
  obtain ⟨s, hreach, hdata, hfree, hwoken, hwaits⟩ := exists_rest hset hnoticed hquiet
  have hle := ((counts num).of_reaches (keeps num) hreach).avail_le hfree (hwaits f c i hf)
  rw [hwoken, hdata] at hle
  exact Nat.le_of_sub_eq_zero (Nat.le_zero.1 hle)

/-- A fiber waits for the unit that another one has taken. -/
private def secondWait : List (CoMonitor.Event Label) :=
  [.call 0 (.wait 0), .mutex (.tryLock 0), .mutex (.setId 0), .run 0, .run 0, .mutex (.release 0 none),
    .call 1 (.wait 1), .mutex (.tryLock 1), .mutex (.setId 1), .run 1, .unlock 1, .mutex (.release 1 none)]

theorem taken_of_reaches_secondWait : ∃ t : CoMonitor.State Data Label Unit,
    Quiet ownIds (monitor 1) t ∧ t.places 1 = .waiting () (.woken 1) ∧ t.data.used = 1 := by
  obtain ⟨t, hrun, hfirst, hsecond, hothers⟩ : ∃ t, (CoMonitor.machine ownIds (monitor 1)).run
      (CoMonitor.machine ownIds (monitor 1)).start secondWait = some t ∧ t.places 0 = .outside ∧
        t.places 1 = .waiting () (.woken 1) ∧ ∀ f, t.places (f + 2) = .outside := ⟨_, rfl, rfl, rfl, fun _ => rfl⟩
  have hreach : (CoMonitor.machine ownIds (monitor 1)).Reaches Noticed (CoMonitor.machine ownIds (monitor 1)).start t :=
    Machine.reaches_of_run_forall (fun t => by simp [secondWait, Noticed, CoMutex.Noticed]) hrun
  have hquiet : Quiet ownIds (monitor 1) t := by
    refine .of_places (follows_of_reaches ownIds_fibers hreach).1 fun f => ?_
    rcases f with _ | _ | f
    · exact .inl hfirst
    · exact .inr ⟨(), .woken 1, hsecond⟩
    · exact .inl (hothers f)
  have htaken := taken_of_reaches ownIds_fibers (hreach.mono fun _ _ _ => trivial)
  exact ⟨t, hquiet, hsecond, htaken.2 hreach hquiet 1 () _ hsecond⟩

end CoSemaphore

namespace CoCountDownLatch

variable {start : Int}

/-- The count is never negative and is 0 where a `wait` returns.  When no fiber can go on, and none has queued up for
the mutex unnoticed, fibers wait only for a count that is left. -/
theorem awaited_of_reaches (hset : Fibers setting) (hstart : 0 ≤ start) {t : CoMonitor.State Int Label Unit}
    (h : (CoMonitor.machine setting (monitor start)).Reaches Machine.any
      (CoMonitor.machine setting (monitor start)).start t) :
    0 ≤ t.data ∧ (∀ f, t.places f = .inside .returned → t.data = 0) ∧
      ((CoMonitor.machine setting (monitor start)).Reaches Noticed (CoMonitor.machine setting (monitor start)).start t →
        Quiet setting (monitor start) t → ∀ f c i, t.places f = .waiting c i → 0 < t.data) := by
  obtain ⟨-, s, hreach, href⟩ := follows_of_reaches hset h
  have hcounted := (counted_valid hstart).of_reaches hreach
  have hcount : 0 ≤ t.data := href.data ▸ hcounted.data
  refine ⟨hcount, fun f hf => ?_, fun hnoticed hquiet f c i hf => ?_⟩
  · have hholder : s.holder = some (f, .returned) := (href.holder f _).2 (by rw [hf]; rfl)
    rw [← href.data]
    exact hcounted.holder f _ hholder
  · obtain ⟨s, hreach, hdata, hfree, -, hwaits⟩ := exists_rest hset hnoticed hquiet
    refine lt_of_le_of_ne hcount fun hzero => hwaits f c i hf ?_
    exact Flushed.queue_eq_nil_of_free ((flushes start).of_reaches Keeps.true hreach) (hdata.trans hzero.symm) hfree

theorem awaited_of_reaches_awaiting : ∃ t : CoMonitor.State Int Label Unit,
    Quiet ownIds (monitor 1) t ∧ t.places 0 = .waiting () .woken ∧ 0 < t.data := by
  obtain ⟨t, hreach, hquiet, -, hfirst⟩ := quiet_awaiting
  have hawaited := awaited_of_reaches ownIds_fibers (by decide) (hreach.mono fun _ _ _ => trivial)
  exact ⟨t, hquiet, hfirst, hawaited.2.2 hreach hquiet 0 () _ hfirst⟩

end CoCountDownLatch

end AcidCompute

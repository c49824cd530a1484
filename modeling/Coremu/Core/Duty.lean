import Coremu.Core.Pause

/-!
# How often a spinning guest sleeps

`sched_pause` is called for every `pause` instruction of the guest.  It counts the calls of its
thread in `pause_cnt`: most of them return at once, a few yield the host processor, and then one
sleeps and the count starts again.  Signals may end the sleep early, and the thread does other
things between the calls; the count keeps the rhythm all the same.

The calls of `coremu_cpu_sched`, `pthread_yield` and `nanosleep` are events of the trace.  A
thread that has been told to yield or to sleep may not have come to it yet.

## Main definitions

* `shown` — how often a thread has shown an event.
* `Op.yieldDue`, `Op.sleepDue` — a `pthread_yield` or a `nanosleep` is still to come.
* `PauseStep` — what a step does to `pause_cnt` and to the place in `sched_pause`.
* `DutyInv` — how the events and `pause_cnt` are related.

## Main results

* `step_pauseStep` — every step does one of these things.
* `AnyRun.duty` — the relation holds in every run.
* `schedPause_duty` — **of every 103 calls of a thread two yield and the last one sleeps.**
-/

namespace Coremu.Core

variable {M : Machine} {i j : ℕ} {s s' : Shared} {t t' : Thread} {x : Choice} {e f : Event}
  {cfg : Config} {tr : List (ℕ × Event)}

/-! ### Counting events -/

/-- How often thread `i` has shown `e`. -/
def shown (i : ℕ) (e : Event) (tr : List (ℕ × Event)) : ℕ := tr.count (i, e)

theorem shown_snoc (i : ℕ) (e f : Event) (tr : List (ℕ × Event)) :
    shown i f (tr ++ [(i, e)]) = shown i f tr + if e = f then 1 else 0 := by
  rw [shown, shown, List.count_append, List.count_singleton]
  simp

theorem shown_snoc_of_ne (hj : j ≠ i) (e f : Event) (tr : List (ℕ × Event)) :
    shown j f (tr ++ [(i, e)]) = shown j f tr := by
  rw [shown, shown, List.count_append, List.count_singleton]
  simp [Ne.symm hj]

/-- One of the events that are counted. -/
def Event.ofPause : Event → Bool
  | .cpuSched .pause | .yield | .nanosleep .pause => true
  | _ => false

theorem shown_snoc_of_not (he : e.ofPause = false) (hf : f.ofPause = true) :
    shown i f (tr ++ [(i, e)]) = shown i f tr := by
  rw [shown_snoc, if_neg, Nat.add_zero]
  rintro rfl
  rw [he] at hf
  cases hf

/-! ### Where a thread stands -/

/-- The thread is in `sched_pause`, between the decision to sleep and the return. -/
def Op.inPause : Op → Bool
  | .sched .pause _ => true
  | _ => false

/-- It has decided to yield and not yielded yet. -/
def Op.yieldDue : Op → ℕ
  | .yield => 1
  | _ => 0

/-- It has decided to sleep and not called `nanosleep` yet. -/
def Op.sleepDue : Op → ℕ
  | .sched .pause .setState | .sched .pause .nanosleep => 1
  | _ => 0

/-- All that is counted with. -/
def Op.place (op : Op) : Bool × ℕ × ℕ := (op.inPause, op.yieldDue, op.sleepDue)

theorem Op.place_interrupted (op : Op) : op.interrupted.place = op.place := by
  cases op with
  | sched ev p => cases p <;> cases ev <;> rfl
  | _ => rfl

/-- The calls of `sched_pause` since the last one that slept. -/
def Thread.sinceSleep (t : Thread) : ℕ := if t.op.inPause then 0 else t.pauseCnt

/-- How `pause_cnt` is related to the number of calls, of yields and of sleeps. -/
structure DutyInv (calls yields sleeps : ℕ) (t : Thread) : Prop where
  bound : t.pauseCnt ≤ pauseThreshold + 2
  sleeping : t.op.inPause = true → t.pauseCnt = pauseThreshold + 2
  calls : calls = (pauseThreshold + 3) * (sleeps + t.op.sleepDue) + t.sinceSleep
  yields : yields + t.op.yieldDue =
    2 * (sleeps + t.op.sleepDue) + (t.sinceSleep - pauseThreshold)

/-! ### Steps -/

/-- What a step does to `pause_cnt` and to the place in `sched_pause`, and what it shows. -/
inductive PauseStep (t : Thread) (e : Event) (t' : Thread) : Prop
  | call : e = .cpuSched .pause → t.op = .idle → t' = cpuSched .pause t → PauseStep t e t'
  | yield : e = .yield → t.op = .yield → t' = { t with op := .idle } → PauseStep t e t'
  | nanosleep (size : ℕ) (state : CMCoreState) : e = .nanosleep .pause →
      t.op = .sched .pause .nanosleep → t' = { t with op := .sched .pause (.sleep size state) } →
      PauseStep t e t'
  /-- `pause_cnt = 0;` -/
  | wake : e.ofPause = false → t.op = .sched .pause .setRun →
      t' = { t with op := .idle, pauseCnt := 0 } → PauseStep t e t'
  | keep : e.ofPause = false → t'.pauseCnt = t.pauseCnt → t'.op.place = t.op.place →
      PauseStep t e t'

theorem PauseStep.waitFrom (M : Machine) (m : ℕ) (ho : t.op.place = Op.idle.place) :
    PauseStep t (M.waitFrom m t).2 (M.waitFrom m t).1 := by
  unfold Machine.waitFrom
  split <;> exact .keep rfl rfl ho.symm

theorem receiveIntr_ofPause (k : CMCore) (r : RecvPc) : (receiveIntr k r).2.2.ofPause = false := by
  cases r with
  | dequeue =>
    cases hq : k.intrQueue with
    | nil => simp [receiveIntr, hq, Event.ofPause]
    | cons e rest =>
      simp only [receiveIntr, hq]
      split <;> rfl
  | _ => rfl

/-- **What a step can do to `pause_cnt`.** -/
theorem step_pauseStep (hs : Step M i s t x s' t' e) : PauseStep t e t' := by
  cases hs with
  | handler | callReceive | restart => exact .keep rfl rfl rfl
  | receive => exact .keep (receiveIntr_ofPause _ _) rfl rfl
  | signal => exact .keep rfl rfl t.op.place_interrupted
  | send m p now hh ho =>
    cases (sendIntr M i m (s.core m) p).2 <;> exact .keep rfl rfl (by rw [ho]; rfl)
  | sched ev p now hh ho =>
    cases ev with
    | halted => cases p <;> exact .keep rfl rfl (by rw [ho]; rfl)
    | pause =>
      cases p with
      | nanosleep => exact .nanosleep _ _ rfl ho rfl
      | setRun => exact .wake rfl ho rfl
      | setState | sleep _ _ => exact .keep rfl rfl (by rw [ho]; rfl)
  | yield now hh ho => exact .yield rfl ho rfl
  | pauseCore p now _ r hh ho hp => cases r <;> exact .keep rfl rfl (by rw [ho]; rfl)
  | wait m all p now _ r hh ho hp =>
    cases r with
    | some p => cases all <;> exact .keep rfl rfl (by rw [ho]; rfl)
    | none =>
      cases all with
      | false => exact .keep rfl rfl (by rw [ho]; rfl)
      | true => exact .waitFrom M (m + 1) (by rw [ho]; rfl)
  | callSched ev hh ho hi hr =>
    cases ev with
    | pause => exact .call rfl ho rfl
    | halted => exact .keep rfl rfl (by rw [ho]; rfl)
  | callWaitAll hh ho hr => exact .waitFrom M 0 (by rw [ho])
  | callSend _ _ _ ho | callPause _ ho | callWait _ _ ho | spurious _ _ ho | killFails _ _ ho =>
    exact .keep rfl rfl (by rw [ho]; rfl)

/-! ### The invariant -/

section Invariant

variable {calls yields sleeps : ℕ}

theorem DutyInv.call (h : DutyInv calls yields sleeps t) (ho : t.op = .idle) :
    DutyInv (calls + 1) yields sleeps (cpuSched .pause t) := by
  obtain ⟨hb, -, hc, hy⟩ := h
  simp only [Thread.sinceSleep, ho, Op.inPause, Op.yieldDue, Op.sleepDue, Bool.false_eq_true,
    if_false, Nat.add_zero] at hc hy
  unfold cpuSched
  dsimp only
  split
  · -- the call is counted
    refine ⟨by simp only; omega, by simp [ho, Op.inPause], ?_, ?_⟩ <;>
      simp only [Thread.sinceSleep, ho, Op.inPause, Op.yieldDue, Op.sleepDue, Bool.false_eq_true,
        if_false, Nat.add_zero] <;> omega
  · split
    · -- it is counted, and will yield
      refine ⟨by simp only; omega, by simp [Op.inPause], ?_, ?_⟩ <;>
        simp only [Thread.sinceSleep, Op.inPause, Op.yieldDue, Op.sleepDue, Bool.false_eq_true,
          if_false, Nat.add_zero] <;> omega
    · -- it will sleep
      refine ⟨hb, fun _ => by simp only; omega, ?_, ?_⟩ <;>
        simp only [Thread.sinceSleep, Op.inPause, Op.yieldDue, Op.sleepDue, if_true,
          Nat.mul_succ] <;> omega

theorem DutyInv.yield (h : DutyInv calls yields sleeps t) (ho : t.op = .yield) :
    DutyInv calls (yields + 1) sleeps { t with op := .idle } := by
  obtain ⟨hb, -, hc, hy⟩ := h
  simp only [Thread.sinceSleep, ho, Op.inPause, Op.yieldDue, Op.sleepDue] at hc hy
  exact ⟨hb, nofun, hc, hy⟩

theorem DutyInv.nanosleep (h : DutyInv calls yields sleeps t) (ho : t.op = .sched .pause .nanosleep)
    (size : ℕ) (state : CMCoreState) :
    DutyInv calls yields (sleeps + 1) { t with op := .sched .pause (.sleep size state) } := by
  obtain ⟨hb, hp, hc, hy⟩ := h
  simp only [Thread.sinceSleep, ho, Op.inPause, Op.yieldDue, Op.sleepDue] at hc hy
  exact ⟨hb, fun _ => hp (by rw [ho]; rfl), hc, hy⟩

theorem DutyInv.wake (h : DutyInv calls yields sleeps t) (ho : t.op = .sched .pause .setRun) :
    DutyInv calls yields sleeps { t with op := .idle, pauseCnt := 0 } := by
  obtain ⟨-, -, hc, hy⟩ := h
  simp only [Thread.sinceSleep, ho, Op.inPause, Op.yieldDue, Op.sleepDue] at hc hy
  exact ⟨Nat.zero_le _, nofun, hc, hy⟩

theorem DutyInv.keep (h : DutyInv calls yields sleeps t) (hc : t'.pauseCnt = t.pauseCnt)
    (hp : t'.op.place = t.op.place) : DutyInv calls yields sleeps t' := by
  simp only [Op.place, Prod.mk.injEq] at hp
  obtain ⟨hin, hyield, hsleep⟩ := hp
  have hs : t'.sinceSleep = t.sinceSleep := by simp [Thread.sinceSleep, hc, hin]
  obtain ⟨hb, hpause, hcalls, hyields⟩ := h
  rw [← hc] at hb hpause
  rw [← hin] at hpause
  rw [← hs, ← hsleep] at hcalls hyields
  rw [← hyield] at hyields
  exact ⟨hb, hpause, hcalls, hyields⟩

end Invariant

/-- The relation between the trace of thread `i` and its `pause_cnt`. -/
abbrev Duty (i : ℕ) (tr : List (ℕ × Event)) (t : Thread) : Prop :=
  DutyInv (shown i (.cpuSched .pause) tr) (shown i .yield tr) (shown i (.nanosleep .pause) tr) t

/-- **A step keeps the relation.** -/
theorem Duty.step (h : Duty i tr t) (hs : PauseStep t e t') : Duty i (tr ++ [(i, e)]) t' := by
  unfold Duty
  cases hs with
  | call he ho ht =>
    subst he ht
    simpa [shown_snoc] using h.call ho
  | yield he ho ht =>
    subst he ht
    simpa [shown_snoc] using h.yield ho
  | nanosleep size state he ho ht =>
    subst he ht
    simpa [shown_snoc] using h.nanosleep ho size state
  | wake he ho ht =>
    subst ht
    rw [shown_snoc_of_not he rfl, shown_snoc_of_not he rfl, shown_snoc_of_not he rfl]
    exact h.wake ho
  | keep he hc hp =>
    rw [shown_snoc_of_not he rfl, shown_snoc_of_not he rfl, shown_snoc_of_not he rfl]
    exact h.keep hc hp

theorem AnyRun.duty (h : AnyRun M tr cfg) : ∀ i, Duty i tr (cfg.thread i) := by
  refine Interleave.Program.Run.induct (J := fun tr cfg => ∀ i, Duty i tr (cfg.thread i)) ?_ ?_ h
  · rintro _ rfl i
    exact ⟨Nat.zero_le _, nofun, rfl, rfl⟩
  · intro tr cfg i x s' t' e hinv _ hs
    refine Interleave.Config.forall_after
      (T := fun j (t : Thread) => Duty j (tr ++ [(i, e)]) t) ?_ fun j hj => ?_
    · exact (hinv i).step (step_pauseStep (step_cases hs))
    · unfold Duty
      rw [shown_snoc_of_ne hj, shown_snoc_of_ne hj, shown_snoc_of_ne hj]
      exact hinv j

/-- **Of every 103 calls of `sched_pause` by a thread, the last one sleeps and the two before it
yield**, whatever happens between them: the calls of `nanosleep` and of `pthread_yield` in the
trace, with one more if the thread is on its way to it, are these functions of the number of
calls.  `pause_cnt` stays below its bound, and a thread that is in the sleep has made a whole
number of such rounds. -/
theorem schedPause_duty (h : AnyRun M tr cfg) (i : ℕ) :
    shown i (.nanosleep .pause) tr + (cfg.thread i).op.sleepDue =
        shown i (.cpuSched .pause) tr / 103 ∧
      shown i .yield tr + (cfg.thread i).op.yieldDue =
        2 * (shown i (.cpuSched .pause) tr / 103) + (shown i (.cpuSched .pause) tr % 103 - 100) ∧
      (cfg.thread i).pauseCnt ≤ 102 ∧
      ((cfg.thread i).op.inPause = true → shown i (.cpuSched .pause) tr % 103 = 0) := by
  obtain ⟨hb, hp, hc, hy⟩ := h.duty i
  -- so the sleeps are the quotient and the calls since the last one the remainder
  have hle : (cfg.thread i).sinceSleep ≤ 102 := by
    unfold Thread.sinceSleep
    split
    · exact Nat.zero_le _
    · exact hb
  simp only [pauseThreshold] at hb hp hc hy
  refine ⟨by omega, by omega, hb, fun hin => ?_⟩
  have hz : (cfg.thread i).sinceSleep = 0 := by simp [Thread.sinceSleep, hin]
  omega

/-- The one core of a machine sleeps in `sched_pause`, after its first round. -/
theorem schedPause_duty_asleep : ∃ tr cfg, AnyRun ⟨1, 1⟩ tr cfg ∧
    (cfg.thread 0).op.inPause = true ∧ shown 0 (.cpuSched .pause) tr = 103 ∧
      shown 0 (.nanosleep .pause) tr + (cfg.thread 0).op.sleepDue = 1 ∧
        shown 0 .yield tr + (cfg.thread 0).op.yieldDue = 2 := by
  obtain ⟨tr, cfg, hr, ht⟩ : ∃ tr cfg, AnyRun ⟨1, 1⟩ tr cfg ∧
      ((cfg.thread 0).op.inPause && decide (shown 0 (.cpuSched .pause) tr = 103)) = true :=
    Interleave.Program.exists_run_of_exec (P := program ⟨1, 1⟩) (fun _ _ _ _ => true)
      (fun _ _ _ _ _ => trivial) started_start sleepSteps
      (fun tr cfg => (cfg.thread 0).op.inPause &&
        decide (shown 0 (.cpuSched .pause) tr = 103)) (by decide +kernel)
  obtain ⟨hin, hcalls⟩ := Bool.and_eq_true_iff.mp ht
  have hcalls := of_decide_eq_true hcalls
  obtain ⟨hs, hy, -, -⟩ := schedPause_duty hr 0
  rw [hcalls] at hs hy
  exact ⟨tr, cfg, hr, hin, hcalls, hs, hy⟩

end Coremu.Core

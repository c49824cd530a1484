import Coremu.Core.Wakeup

/-!
# Stopping all cores

A coordinator stops the world by waiting until every core's `state` is `CM_STATE_PAUSE`.
The field has other writers: `sched_pause` stores the same value while a core only
sleeps, and a sender stores `CM_STATE_RUN` for a core that it is about to signal, without
holding `pause_mutex`.  The first makes the coordinator go on too early, the second makes
it wait for a core that is stopped.

A core that is blocked in `coremu_cond_wait` may run its signal handler there; it goes
back to waiting then.  POSIX also lets `pthread_cond_wait` return without a broadcast, and
`coremu_pause_core` has no loop around it.  What the coordinator infers rests on this not
happening; that a blocked core shows `CM_STATE_PAUSE` does not.

## Main definitions

* `Blocked` — a core is inside the `coremu_cond_wait` of `coremu_pause_core`.
* `OpStep` — what a step does to the operation of a thread.
* `PauseInv` — the invariant of the pause mutex, the broadcasts and the states.
* `SeesStopped`, `KeepsPause` — the conditions on the coordinator and on the senders.

## Main results

* `waitAll_blocked` — **when `coremu_wait_all_cores_pause` returns, every core is
  blocked**, if the coordinator takes no sleeping or released core for a paused one.
* `waitAll_sleeping` — **it may return while a core only sleeps in `sched_pause`.**
* `blocked_state` — **a blocked core shows `CM_STATE_PAUSE`**, if no sender overwrites it.
* `blocked_running` — **a sender may overwrite it.**
-/

namespace Coremu.Core

variable {M : Machine} {c i j k : ℕ} {s s' : Shared} {t t' : Thread} {x : Choice} {e : Event}

/-- Core `j` is inside the `coremu_cond_wait` of `coremu_pause_core`, and there has been
no broadcast since. -/
def Blocked (cfg : Config) (j : ℕ) : Prop :=
  (cfg.thread j).op = .pauseCore (.waiting cfg.shared.broadcasts)

/-! ### How the operation of a thread changes -/

theorem Op.eq_of_interrupted {op op' : Op} (h : op.interrupted = op')
    (hne : ∀ ev p, op' ≠ .sched ev p) : op = op' := by
  cases op with
  | sched ev p => cases p <;> exact absurd h.symm (hne _ _)
  | _ => exact h

/-- What a step does to the operation of the thread, function by function. -/
inductive OpStep (M : Machine) (i : ℕ) (s : Shared) (t : Thread) (x : Choice) (s' : Shared)
    (t' : Thread) : Prop
  /-- It is somewhere else: in its handler or in `coremu_receive_intr`. -/
  | keep : t'.op = t.op → t'.sent = t.sent → OpStep M i s t x s' t'
  /-- A signal is delivered. -/
  | interrupted : t'.op = t.op.interrupted → t'.sent = t.sent → OpStep M i s t x s' t'
  /-- The function returns. -/
  | ret : t'.op = .idle → OpStep M i s t x s' t'
  | send (j : ℕ) (p p' : SendPc) : t.op = .send j p →
      (sendIntr M i j (s.core j) p).2 = some p' → t'.op = .send j p' → OpStep M i s t x s' t'
  | sched (ev : CMSchedEvent) (p : SleepPc) : t'.op = .sched ev p → OpStep M i s t x s' t'
  | yield : t'.op = .yield → OpStep M i s t x s' t'
  | pauseCore (p p' : PausePc) : t.op = .pauseCore p → pauseCore i s p = some (s', some p') →
      t'.op = .pauseCore p' → OpStep M i s t x s' t'
  /-- `coremu_cond_wait` returns without a broadcast. -/
  | spurious (since : ℕ) : x = .spurious → t.op = .pauseCore (.waiting since) →
      t'.op = .pauseCore .setRun → OpStep M i s t x s' t'
  | wait (j : ℕ) (all : Bool) (p p' : WaitPc) (now : BitVec 64) : t.handler = none →
      x = .go now → t.op = .wait j all p → waitPause i j s p = some (s', some p') →
      t'.op = .wait j all p' → OpStep M i s t x s' t'
  /-- `coremu_wait_all_cores_pause` goes on with the next core. -/
  | next (j : ℕ) : t.op = .wait j true .unlock → t'.op = .wait (j + 1) true .lock →
      OpStep M i s t x s' t'
  | callSend (intr : DataType) (j : ℕ) : t'.op = .send j (.putIntr ⟨i, t'.sent, intr⟩) →
      OpStep M i s t x s' t'
  | callPause : t'.op = .pauseCore .lock → OpStep M i s t x s' t'
  | callWait (j : ℕ) : t'.op = .wait j false .lock → OpStep M i s t x s' t'
  | callWaitAll : t'.op = .wait 0 true .lock → OpStep M i s t x s' t'

theorem cpuSched_op (ev : CMSchedEvent) (t : Thread) :
    (cpuSched ev t).op = t.op ∧ (cpuSched ev t).sent = t.sent ∨
      (cpuSched ev t).op = .yield ∨ (cpuSched ev t).op = .sched ev .setState := by
  cases ev with
  | halted => exact .inr (.inr rfl)
  | pause =>
    unfold cpuSched
    dsimp only
    split
    · exact .inl ⟨rfl, rfl⟩
    · split
      · exact .inr (.inl rfl)
      · exact .inr (.inr rfl)

theorem waitFrom_op (M : Machine) (j : ℕ) (t : Thread) :
    (M.waitFrom j t).1.op = .idle ∨ (M.waitFrom j t).1.op = .wait j true .lock := by
  unfold Machine.waitFrom
  split
  · exact .inr rfl
  · exact .inl rfl

/-- `coremu_wait_pause` returns after its last access only. -/
theorem waitPause_ret {p : WaitPc} (h : waitPause i j s p = some (s', none)) : p = .unlock := by
  cases p with
  | lock => cases (waitPause_lock.mp h).2.2
  | test => cases h
  | retry => cases h
  | unlock => rfl

theorem step_op (hs : Step M i s t x s' t' e) : OpStep M i s t x s' t' := by
  cases hs with
  | handler p now hh => exact .keep rfl rfl
  | signal hh hu => exact .interrupted rfl rfl
  | send j p now hh ho =>
    cases hr : (sendIntr M i j (s.core j) p).2 with
    | some p' => exact .send j p p' ho hr rfl
    | none => exact .ret rfl
  | sched ev p now hh ho =>
    cases hr : (sched ev (s.core i) p).2 with
    | some p' => exact .sched ev p' rfl
    | none => cases ev <;> exact .ret rfl
  | yield now hh ho => exact .ret rfl
  | pauseCore p now _ r hh ho hq =>
    cases r with
    | some p' => exact .pauseCore p p' ho hq rfl
    | none => exact .ret rfl
  | wait j all p now _ r hh ho hq =>
    cases r with
    | some p' => exact .wait j all p p' now hh rfl ho hq (by cases all <;> rfl)
    | none =>
      cases all with
      | false => exact .ret rfl
      | true =>
        rcases waitFrom_op M (j + 1) t with hidle | hnext
        · exact .ret hidle
        · rw [waitPause_ret hq] at ho
          exact .next j ho hnext
  | receive now hh ho hr => exact .keep rfl rfl
  | callReceive hh ho hi hr => exact .keep rfl rfl
  | callSend intr j hh ho hj => exact .callSend intr j rfl
  | callSched ev hh ho hi hr =>
    rcases cpuSched_op ev t with ⟨hop, hsent⟩ | hop | hop
    · exact .keep hop hsent
    · exact .yield hop
    · exact .sched ev .setState hop
  | callPause hh ho hi hr => exact .callPause rfl
  | callWait j hh ho hj hr => exact .callWait j rfl
  | callWaitAll hh ho hr =>
    rcases waitFrom_op M 0 t with hidle | hnext
    · exact .ret hidle
    · exact .callWaitAll hnext
  | restart hh ho hr => exact .keep rfl rfl
  | spurious since hh ho hm => exact .spurious since rfl ho rfl
  | killFails j hh ho => exact .ret rfl

/-! ### What a step does to the mutex, the states and the broadcasts -/

/-- The thread holds `pause_mutex`. -/
def Op.holds : Op → Bool
  | .pauseCore .test | .pauseCore .setPause | .pauseCore .condWait | .pauseCore .setRun
  | .pauseCore .unlock | .wait _ _ .test | .wait _ _ .retry | .wait _ _ .unlock => true
  | _ => false

/-- The core may show `CM_STATE_PAUSE`. -/
def Op.pausing : Op → Bool
  | .pauseCore .condWait | .pauseCore (.waiting _) | .pauseCore .setRun
  | .sched .pause .nanosleep | .sched .pause (.sleep _ _) | .sched .pause .setRun => true
  | _ => false

theorem Op.holds_interrupted (op : Op) : op.interrupted.holds = op.holds := by
  cases op with
  | sched ev p => cases p <;> rfl
  | _ => rfl

theorem Op.pausing_interrupted (op : Op) : op.interrupted.pausing = op.pausing := by
  cases op with
  | sched ev p => cases p <;> cases ev <;> rfl
  | _ => rfl

theorem waitFrom_holds (M : Machine) (j : ℕ) (t : Thread) :
    (M.waitFrom j t).1.op.holds = false := by
  rcases waitFrom_op M j t with h | h <;> (rw [h]; rfl)

/-- The mutex after a step of thread `i`: kept, taken when it was free, or given back. -/
def MutexStep (i : ℕ) (m m' : Option ℕ) (holds holds' : Bool) : Prop :=
  (m' = m ∧ holds' = holds) ∨ (m = none ∧ m' = some i ∧ holds' = true) ∨
    (holds = true ∧ m' = none ∧ holds' = false)

theorem pauseCore_mutex {p : PausePc} {r : Option PausePc} (h : pauseCore i s p = some (s', r))
    (ho : t.op = .pauseCore p) :
    MutexStep i s.pauseMutex s'.pauseMutex t.op.holds (t.pauseNext r).op.holds := by
  rw [ho]
  cases p with
  | lock =>
    obtain ⟨hm, rfl, rfl⟩ := pauseCore_lock.mp h
    exact .inr (.inl ⟨hm, rfl, rfl⟩)
  | waiting since =>
    obtain ⟨-, hm, rfl, rfl⟩ := pauseCore_waiting.mp h
    exact .inr (.inl ⟨hm, rfl, rfl⟩)
  | test =>
    cases h
    refine .inl ⟨rfl, ?_⟩
    split <;> rfl
  | setPause => cases h; exact .inl ⟨rfl, rfl⟩
  | setRun => cases h; exact .inl ⟨rfl, rfl⟩
  | condWait => cases h; exact .inr (.inr ⟨rfl, rfl, rfl⟩)
  | unlock => cases h; exact .inr (.inr ⟨rfl, rfl, rfl⟩)

theorem waitPause_mutex {all : Bool} {p : WaitPc} {r : Option WaitPc}
    (h : waitPause i j s p = some (s', r)) (ho : t.op = .wait j all p) :
    MutexStep i s.pauseMutex s'.pauseMutex t.op.holds (M.waitNext t j all r).1.op.holds := by
  rw [ho]
  cases p with
  | lock =>
    obtain ⟨hm, rfl, rfl⟩ := waitPause_lock.mp h
    exact .inr (.inl ⟨hm, rfl, rfl⟩)
  | test =>
    cases h
    refine .inl ⟨rfl, ?_⟩
    split <;> rfl
  | retry => cases h; exact .inr (.inr ⟨rfl, rfl, rfl⟩)
  | unlock =>
    cases h
    refine .inr (.inr ⟨rfl, rfl, ?_⟩)
    cases all with
    | false => rfl
    | true => exact waitFrom_holds M (j + 1) t

theorem step_mutex (hs : Step M i s t x s' t' e) :
    MutexStep i s.pauseMutex s'.pauseMutex t.op.holds t'.op.holds := by
  cases hs with
  | handler | receive | callReceive | restart => exact .inl ⟨rfl, rfl⟩
  | signal hh hu => exact .inl ⟨rfl, t.op.holds_interrupted⟩
  | send j p now hh ho =>
    refine .inl ⟨rfl, ?_⟩
    rw [ho]
    cases (sendIntr M i j (s.core j) p).2 <;> rfl
  | sched ev p now hh ho =>
    refine .inl ⟨rfl, ?_⟩
    rw [ho]
    cases (sched ev (s.core i) p).2 with
    | some p' => rfl
    | none => cases ev <;> rfl
  | yield _ _ ho | killFails _ _ ho =>
    rw [ho]
    exact .inl ⟨rfl, rfl⟩
  | pauseCore p now _ r hh ho hp => exact pauseCore_mutex hp ho
  | spurious since hh ho hm =>
    rw [ho]
    exact .inr (.inl ⟨hm, rfl, rfl⟩)
  | wait j all p now _ r hh ho hp => exact waitPause_mutex hp ho
  | callSched ev hh ho hi hr =>
    refine .inl ⟨rfl, ?_⟩
    rcases cpuSched_op ev t with ⟨h, -⟩ | h | h
    · rw [h]
    all_goals
      rw [h, ho]
      rfl
  | callSend _ _ _ ho | callPause _ ho | callWait _ _ ho =>
    rw [ho]
    exact .inl ⟨rfl, rfl⟩
  | callWaitAll hh ho hr =>
    rw [ho]
    exact .inl ⟨rfl, waitFrom_holds M 0 t⟩

/-- A restart is the only broadcast. -/
theorem step_broadcasts (hs : Step M i s t x s' t' e) :
    s'.broadcasts = s.broadcasts ∨
      x = .restartAllCores ∧ s'.broadcasts = s.broadcasts + 1 ∧ t'.op = .idle := by
  cases hs with
  | pauseCore p now _ r hh ho hp =>
    left
    cases p with
    | lock =>
      obtain ⟨-, rfl, -⟩ := pauseCore_lock.mp hp
      rfl
    | waiting since =>
      obtain ⟨-, -, rfl, -⟩ := pauseCore_waiting.mp hp
      rfl
    | _ => cases hp; rfl
  | wait j all p now _ r hh ho hp =>
    left
    cases p with
    | lock =>
      obtain ⟨-, rfl, -⟩ := waitPause_lock.mp hp
      rfl
    | _ => cases hp; rfl
  | restart hh ho hr => exact .inr ⟨rfl, rfl, ho⟩
  | _ => exact .inl rfl

/-- The step of the thread stores `CM_STATE_RUN` for core `c`, at line 84. -/
def Thread.storesRun (c : ℕ) (t : Thread) (x : Choice) : Bool :=
  match t.handler, t.sending c, x with
  | none, some .setRun, .go _ => true
  | _, _, _ => false

/-- The core is about to store `CM_STATE_RUN` itself. -/
def Op.leaving : Op → Bool
  | .sched _ .setRun | .pauseCore .setRun => true
  | _ => false

theorem sendIntr_state (k : CMCore) (p : SendPc) :
    (sendIntr M i j k p).1.state = k.state ∨
      (sendIntr M i j k p).1.state = .run ∧ p matches .setRun := by
  cases p with
  | setRun => exact .inr ⟨rfl, rfl⟩
  | _ => exact .inl rfl

theorem sched_state (ev : CMSchedEvent) (k : CMCore) (p : SleepPc) :
    (sched ev k p).1.state = k.state ∨
      ((sched ev k p).1.state = ev.state ∧ (sched ev k p).2 = some .nanosleep) ∨
      (sched ev k p).1.state = .run ∧ p = .setRun := by
  cases p with
  | setState => exact .inr (.inl ⟨rfl, rfl⟩)
  | setRun => exact .inr (.inr ⟨rfl, rfl⟩)
  | nanosleep | sleep _ _ => exact .inl rfl

theorem pauseCore_state {p : PausePc} {r : Option PausePc} (h : pauseCore i s p = some (s', r)) :
    (s'.core i).state = (s.core i).state ∨
      ((s'.core i).state = .pause ∧ r = some .condWait) ∨
      (s'.core i).state = .run ∧ p = .setRun := by
  cases p with
  | lock =>
    obtain ⟨-, rfl, -⟩ := pauseCore_lock.mp h
    exact .inl rfl
  | waiting since =>
    obtain ⟨-, -, rfl, -⟩ := pauseCore_waiting.mp h
    exact .inl rfl
  | setPause =>
    cases h
    rw [Shared.setCore_core_self]
    exact .inr (.inl ⟨rfl, rfl⟩)
  | setRun =>
    cases h
    rw [Shared.setCore_core_self]
    exact .inr (.inr ⟨rfl, rfl⟩)
  | test | condWait | unlock =>
    cases h
    exact .inl rfl

theorem coreSignalHandler_state (now : BitVec 64) (k : CMCore) (p : HandlerPc) :
    (coreSignalHandler M now k p).1.state = k.state := by
  cases p <;> rfl

theorem receiveIntr_state (k : CMCore) (r : RecvPc) : (receiveIntr k r).1.state = k.state := by
  cases r with
  | dequeue =>
    cases hq : k.intrQueue with
    | nil => simp [receiveIntr, hq]
    | cons e rest =>
      simp only [receiveIntr, hq]
      split <;> rfl
  | _ => rfl

/-- A new record for core `i` in the state of `j`. -/
theorem setCore_state (s : Shared) {k : CMCore} (h : k.state = (s.core i).state) :
    ((s.setCore i k).core j).state = (s.core j).state := by
  by_cases hj : j = i
  · subst hj
    rw [Shared.setCore_core_self, h]
  · rw [Shared.setCore_core_of_ne _ _ hj]

/-- The state of core `j` after a step of thread `i`: the same, `CM_STATE_RUN` from a
sender or from the core itself, or what core `j` stores before it sleeps or waits. -/
theorem step_state (hs : Step M i s t x s' t' e) (j : ℕ) :
    (s'.core j).state = (s.core j).state ∨
      ((s'.core j).state = .run ∧ (t.storesRun j x = true ∨ j = i ∧ t.op.leaving = true)) ∨
      j = i ∧ ((∃ ev, (s'.core j).state = ev.state ∧ t'.op = .sched ev .nanosleep) ∨
        (s'.core j).state = .pause ∧ t'.op = .pauseCore .condWait) := by
  cases hs with
  | handler p now hh => exact .inl (setCore_state s (coreSignalHandler_state now _ p))
  | signal hh hu => exact .inl (setCore_state s rfl)
  | send k p now hh ho =>
    by_cases hj : j = k
    · subst hj
      rw [Shared.setCore_core_self]
      rcases sendIntr_state (M := M) (i := i) (j := j) (s.core j) p with hst | ⟨hst, hp⟩
      · exact .inl hst
      · refine .inr (.inl ⟨hst, .inl ?_⟩)
        cases p with
        | setRun => simp [Thread.storesRun, hh, Thread.sending_of_send ho]
        | _ => cases hp
    · rw [Shared.setCore_core_of_ne _ _ hj]
      exact .inl rfl
  | sched ev p now hh ho =>
    by_cases hj : j = i
    · subst hj
      rw [Shared.setCore_core_self]
      rcases sched_state ev (s.core j) p with hst | ⟨hst, hr⟩ | ⟨hst, rfl⟩
      · exact .inl hst
      · exact .inr (.inr ⟨rfl, .inl ⟨ev, hst, by rw [hr]; rfl⟩⟩)
      · exact .inr (.inl ⟨hst, .inr ⟨rfl, by rw [ho]; rfl⟩⟩)
    · rw [Shared.setCore_core_of_ne _ _ hj]
      exact .inl rfl
  | pauseCore p now _ r hh ho hp =>
    by_cases hj : j = i
    · subst hj
      rcases pauseCore_state hp with hst | ⟨hst, rfl⟩ | ⟨hst, rfl⟩
      · exact .inl hst
      · exact .inr (.inr ⟨rfl, .inr ⟨hst, rfl⟩⟩)
      · exact .inr (.inl ⟨hst, .inr ⟨rfl, by rw [ho]; rfl⟩⟩)
    · -- the state of another core is left alone
      left
      rcases pauseCore_core hp with hc | ⟨st, hc⟩ <;> rw [hc]
      rw [Shared.setCore_core_of_ne _ _ hj]
  | wait k all p now _ r hh ho hp => rw [waitPause_core hp]; exact .inl rfl
  | receive now hh ho hr => exact .inl (setCore_state s (receiveIntr_state _ _))
  | callReceive hh ho hi hr => exact .inl (setCore_state s (receiveIntr_state _ _))
  | _ => exact .inl rfl

/-- A core that may show `CM_STATE_PAUSE` still may, or has stored `CM_STATE_RUN`. -/
theorem step_pausing (hs : Step M i s t x s' t' e) (hp : t.op.pausing = true) :
    t'.op.pausing = true ∨ (s'.core i).state = .run := by
  cases hs with
  | handler | receive | callReceive | restart => exact .inl hp
  | signal hh hu => exact .inl (t.op.pausing_interrupted.trans hp)
  | sched ev p now hh ho =>
    rw [ho] at hp
    cases p with
    | setRun => exact .inr (by rw [Shared.setCore_core_self]; rfl)
    | setState => cases ev <;> cases hp
    | nanosleep | sleep _ _ =>
      cases ev with
      | pause => exact .inl rfl
      | halted => cases hp
  | pauseCore p now _ r hh ho hq =>
    rw [ho] at hp
    cases p with
    | condWait => cases hq; exact .inl rfl
    | waiting since =>
      obtain ⟨-, -, rfl, rfl⟩ := pauseCore_waiting.mp hq
      exact .inl rfl
    | setRun => cases hq; exact .inr (by rw [Shared.setCore_core_self])
    | _ => cases hp
  | spurious => exact .inl rfl
  | send _ _ _ _ ho | yield _ _ ho | wait _ _ _ _ _ _ _ ho | callSend _ _ _ ho | callSched _ _ ho
  | callPause _ ho | callWait _ _ ho | callWaitAll _ ho | killFails _ _ ho =>
    rw [ho] at hp
    cases hp

/-- How a thread comes to a point of `coremu_pause_core`: it is there already, calls the
function, makes a step of it, or its wait ends without a broadcast. -/
theorem step_pauseOp (hs : Step M i s t x s' t' e) {q : PausePc} (hn : t'.op = .pauseCore q) :
    t.op = .pauseCore q ∨ q = .lock ∨ q = .setRun ∨
      ∃ p, t.op = .pauseCore p ∧ pauseCore i s p = some (s', some q) := by
  cases step_op hs with
  | keep ho _ => exact .inl (ho.symm.trans hn)
  | interrupted ho _ => exact .inl (Op.eq_of_interrupted (ho.symm.trans hn) (by simp))
  | pauseCore p p' ho hq ho' =>
    rw [hn, Op.pauseCore.injEq] at ho'
    subst ho'
    exact .inr (.inr (.inr ⟨p, ho, hq⟩))
  | callPause ho =>
    rw [hn, Op.pauseCore.injEq] at ho
    exact .inr (.inl ho)
  | spurious _ _ _ ho =>
    rw [hn, Op.pauseCore.injEq] at ho
    exact .inr (.inr (.inl ho))
  | ret ho | sched _ _ ho | yield ho | callSend _ _ ho | callWait _ ho | callWaitAll ho =>
    rw [hn] at ho
    cases ho
  | send _ _ _ _ _ ho | wait _ _ _ _ _ _ _ _ _ ho | next _ _ ho =>
    rw [hn] at ho
    cases ho

/-- A thread that waits for the broadcast was waiting before, or has just begun. -/
theorem step_waiting (hs : Step M i s t x s' t' e) {n : ℕ}
    (hn : t'.op = .pauseCore (.waiting n)) :
    t.op = .pauseCore (.waiting n) ∨ t.op = .pauseCore .condWait ∧ n = s.broadcasts := by
  rcases step_pauseOp hs hn with hold | hlock | hrun | ⟨p, ho, hq⟩
  · exact .inl hold
  · cases hlock
  · cases hrun
  · cases p with
    | condWait => cases hq; exact .inr ⟨ho, rfl⟩
    | lock => cases (pauseCore_lock.mp hq).2.2
    | waiting since => cases (pauseCore_waiting.mp hq).2.2.2
    | test =>
      simp only [pauseCore, Option.some.injEq, Prod.mk.injEq] at hq
      obtain ⟨-, hq⟩ := hq
      split at hq <;> cases hq
    | setPause | setRun | unlock => cases hq

/-- A thread that is about to wait was so before, or has just stored `CM_STATE_PAUSE`. -/
theorem step_condWait (hs : Step M i s t x s' t' e) (hn : t'.op = .pauseCore .condWait) :
    t.op = .pauseCore .condWait ∨ (s'.core i).state = .pause := by
  rcases step_pauseOp hs hn with hold | hlock | hrun | ⟨p, ho, hq⟩
  · exact .inl hold
  · cases hlock
  · cases hrun
  · cases p with
    | setPause => cases hq; exact .inr (by rw [Shared.setCore_core_self])
    | lock => cases (pauseCore_lock.mp hq).2.2
    | waiting since => cases (pauseCore_waiting.mp hq).2.2.2
    | test =>
      simp only [pauseCore, Option.some.injEq, Prod.mk.injEq] at hq
      obtain ⟨-, hq⟩ := hq
      split at hq <;> cases hq
    | condWait | setRun | unlock => cases hq

/-- A thread that waits and has not been released does not move, if `pthread_cond_wait`
returns only after a broadcast. -/
theorem step_blocked (hs : Step M i s t x s' t' e) (hx : x.NoSpurious)
    (hb : t.op = .pauseCore (.waiting s.broadcasts)) : t'.op = t.op := by
  cases hs with
  | handler | receive | callReceive | restart => rfl
  | signal hh hu => simp only [hb, Op.interrupted]
  | pauseCore p now _ r hh ho hq =>
    rw [hb] at ho
    cases ho
    exact absurd (pauseCore_waiting.mp hq).1 (lt_irrefl _)
  | spurious => exact absurd rfl hx
  | send _ _ _ _ ho | sched _ _ _ _ ho | yield _ _ ho | wait _ _ _ _ _ _ _ ho | callSend _ _ _ ho
  | callSched _ _ ho | callPause _ ho | callWait _ _ ho | callWaitAll _ ho | killFails _ _ ho =>
    rw [hb] at ho
    cases ho

/-! ### The mutex and the states -/

/-- What holds of `pause_mutex`, of the broadcasts and of the states, in every run. -/
structure PauseInv (cfg : Config) : Prop where
  mutex : ∀ i, cfg.shared.pauseMutex = some i ↔ (cfg.thread i).op.holds = true
  since : ∀ i n, (cfg.thread i).op = .pauseCore (.waiting n) → n ≤ cfg.shared.broadcasts
  state : ∀ j, (cfg.shared.core j).state = .pause → (cfg.thread j).op.pausing = true

theorem pauseInv_start : PauseInv start := by
  refine ⟨fun i => iff_of_false ?_ ?_, fun i n hn => ?_, fun j hj => ?_⟩
  · intro h; cases h
  · intro h; cases h
  · cases hn
  · cases hj

theorem MutexStep.forall_iff {cfg : Config} (h : ∀ j, cfg.shared.pauseMutex = some j ↔
      (cfg.thread j).op.holds = true)
    (hm : MutexStep i cfg.shared.pauseMutex s'.pauseMutex (cfg.thread i).op.holds t'.op.holds) :
    ∀ j, s'.pauseMutex = some j ↔ ((cfg.after i s' t').thread j).op.holds = true := by
  have hother : ∀ j, j ≠ i → ((cfg.after i s' t').thread j).op = (cfg.thread j).op := by
    intro j hj
    rw [Interleave.Config.after_thread_of_ne _ _ _ hj]
  intro j
  rcases hm with ⟨hm', hh⟩ | ⟨hnone, hm', hh⟩ | ⟨hh, hm', hh'⟩
  · rw [hm', h j]
    by_cases hj : j = i
    · subst hj
      rw [Interleave.Config.after_thread_self, hh]
    · rw [hother j hj]
  · by_cases hj : j = i
    · subst hj
      rw [Interleave.Config.after_thread_self, hm']
      exact iff_of_true rfl hh
    · -- nobody held it before
      rw [hother j hj, ← h j, hnone, hm']
      exact iff_of_false (fun e => hj (Option.some.inj e).symm) (by simp)
  · by_cases hj : j = i
    · subst hj
      rw [Interleave.Config.after_thread_self, hm', hh']
      exact iff_of_false (by simp) Bool.false_ne_true
    · rw [hother j hj, ← h j, hm', (h i).mpr hh]
      exact iff_of_false (by simp) fun e => hj (Option.some.inj e).symm

theorem PauseInv.step {cfg : Config} (h : PauseInv cfg)
    (hs : Step M i cfg.shared (cfg.thread i) x s' t' e) : PauseInv (cfg.after i s' t') := by
  have hle : cfg.shared.broadcasts ≤ s'.broadcasts := by
    rcases step_broadcasts hs with hb | ⟨-, hb, -⟩ <;> omega
  refine ⟨MutexStep.forall_iff h.mutex (step_mutex hs), ?_, ?_⟩
  · refine Interleave.Config.forall_after
      (T := fun _ (t : Thread) => ∀ n, t.op = .pauseCore (.waiting n) → n ≤ s'.broadcasts)
      (fun n hn => ?_) fun j _ n hn => (h.since j n hn).trans hle
    rcases step_waiting hs hn with hold | ⟨-, rfl⟩
    · exact (h.since i n hold).trans hle
    · exact hle
  · intro j hj
    rw [Interleave.Config.after_shared] at hj
    by_cases hji : j = i
    · subst hji
      rw [Interleave.Config.after_thread_self]
      rcases step_state hs j with hsame | ⟨hrun, -⟩ | ⟨-, ⟨ev, hev, hop⟩ | ⟨-, hop⟩⟩
      · rw [hsame] at hj
        rcases step_pausing hs (h.state j hj) with hp | hrun
        · exact hp
        · rw [hsame, hj] at hrun
          cases hrun
      · rw [hj] at hrun
        cases hrun
      · -- of the two states in which a core sleeps, this is that of `sched_pause`
        rw [hj] at hev
        rw [hop]
        cases ev with
        | halted => cases hev
        | pause => rfl
      · rw [hop]
        rfl
    · rw [Interleave.Config.after_thread_of_ne _ _ _ hji]
      rcases step_state hs j with hsame | ⟨hrun, -⟩ | ⟨hji', -⟩
      · exact h.state j (hsame ▸ hj)
      · rw [hj] at hrun
        cases hrun
      · exact absurd hji' hji

/-! ### The coordinator -/

/-- The calls of a coordinator. -/
def Choice.coordinates : Choice → Bool
  | .waitPause _ | .waitAllCoresPause | .restartAllCores => true
  | _ => false

/-- Thread `k` is the only coordinator. -/
def OneCoordinator (k : ℕ) (_ : List (ℕ × Event)) (_ : Config) (i : ℕ) (x : Choice) : Prop :=
  x.coordinates = true → i = k

instance (k : ℕ) (tr : List (ℕ × Event)) (cfg : Config) (i : ℕ) (x : Choice) :
    Decidable (OneCoordinator k tr cfg i x) :=
  inferInstanceAs (Decidable (_ → _))

/-- The core whose state the thread tests in this step, in `coremu_wait_pause`. -/
def Thread.testing (t : Thread) (x : Choice) : Option ℕ :=
  match t.handler, t.op, x with
  | none, .wait j _ .test, .go _ => some j
  | _, _, _ => none

/-- The core is neither in `sched_pause` nor released from its wait by a broadcast. -/
def Op.Stopped (broadcasts : ℕ) : Op → Prop
  | .sched .pause _ => False
  | .pauseCore (.waiting since) => since = broadcasts
  | _ => True

instance (n : ℕ) : (op : Op) → Decidable (op.Stopped n)
  | .sched .pause _ => .isFalse id
  | .sched .halted _ => .isTrue trivial
  | .pauseCore (.waiting since) => inferInstanceAs (Decidable (since = n))
  | .pauseCore .lock | .pauseCore .test | .pauseCore .setPause | .pauseCore .condWait
  | .pauseCore .setRun | .pauseCore .unlock => .isTrue trivial
  | .idle | .yield | .send _ _ | .wait _ _ _ => .isTrue trivial

/-- Thread `k` is the only coordinator, and when it finds that a core shows
`CM_STATE_PAUSE`, the core is neither in `sched_pause` nor released from its wait. -/
def SeesStopped (k : ℕ) (tr : List (ℕ × Event)) (cfg : Config) (i : ℕ) (x : Choice) : Prop :=
  OneCoordinator k tr cfg i x ∧ ∀ j, (cfg.thread i).testing x = some j →
    (cfg.shared.core j).state = .pause → (cfg.thread j).op.Stopped cfg.shared.broadcasts

/-- The runs with one coordinator, `k`, in which the C library does what the code counts
on. -/
abbrev CoordinatedRun (M : Machine) (k : ℕ) :=
  (program M).Run Started fun tr cfg i x => OneCoordinator k tr cfg i x ∧ x.plain = true

/-- The runs in which the coordinator `k` takes no other core for a paused one, and
`pthread_cond_wait` returns only after a broadcast. -/
abbrev StoppedRun (M : Machine) (k : ℕ) :=
  (program M).Run Started fun tr cfg i x => SeesStopped k tr cfg i x ∧ x.NoSpurious

/-- The cores that `coremu_wait_all_cores_pause` has seen paused: those below this one. -/
def WaitPc.seen (j : ℕ) : WaitPc → ℕ
  | .unlock => j + 1
  | _ => j

/-- The cores that the coordinator has seen paused are blocked. -/
def Waited (k : ℕ) (cfg : Config) : Prop :=
  ∀ j p, (cfg.thread k).op = .wait j true p → ∀ j' < p.seen j, Blocked cfg j'

/-- **A core that shows `CM_STATE_PAUSE` to the holder of the mutex is blocked**, if it is
neither in `sched_pause` nor released. -/
theorem PauseInv.blocked {cfg : Config} (h : PauseInv cfg) (hk : (cfg.thread k).op.holds = true)
    (hkp : (cfg.thread k).op.pausing = false) (hj : (cfg.shared.core j).state = .pause)
    (hst : (cfg.thread j).op.Stopped cfg.shared.broadcasts) : Blocked cfg j := by
  have hp := h.state j hj
  -- the other places where the core shows it are inside the mutex
  have hholds : (cfg.thread j).op.holds = false := by
    by_contra hne
    have hmj := (h.mutex j).mpr (Bool.eq_true_of_not_eq_false hne)
    rw [(h.mutex k).mpr hk, Option.some.injEq] at hmj
    rw [hmj, hp] at hkp
    cases hkp
  unfold Blocked
  cases ho : (cfg.thread j).op with
  | pauseCore p =>
    rw [ho] at hp hst hholds
    cases p with
    | waiting since => rw [show since = cfg.shared.broadcasts from hst]
    | condWait => cases hholds
    | setRun => cases hholds
    | _ => cases hp
  | sched ev p =>
    rw [ho] at hp hst
    cases ev with
    | pause => exact hst.elim
    | halted => cases p <;> cases hp
  | _ => rw [ho] at hp; cases hp

theorem Blocked.after {cfg : Config} (hb : Blocked cfg j)
    (hs : Step M i cfg.shared (cfg.thread i) x s' t' e) (hx : x.NoSpurious)
    (hbc : s'.broadcasts = cfg.shared.broadcasts) : Blocked (cfg.after i s' t') j := by
  unfold Blocked at hb ⊢
  rw [Interleave.Config.after_shared, hbc]
  by_cases hj : j = i
  · subst hj
    rw [Interleave.Config.after_thread_self, step_blocked hs hx hb]
    exact hb
  · rw [Interleave.Config.after_thread_of_ne _ _ _ hj]
    exact hb

/-- How a thread comes to wait for core `j`: it waits for it already, has just found it
paused, goes on from the core before, or begins with the first. -/
theorem step_wait (hs : Step M i s t x s' t' e) {p : WaitPc} (hp : t'.op = .wait j true p) :
    (∃ q, t.op = .wait j true q ∧ p.seen j ≤ q.seen j) ∨
      (t.op = .wait j true .test ∧ t.testing x = some j ∧ (s.core j).state = .pause ∧
        p = .unlock) ∨
      (∃ j₀, t.op = .wait j₀ true .unlock ∧ p.seen j = j₀ + 1) ∨ p.seen j = 0 := by
  cases step_op hs with
  | keep ho _ => exact .inl ⟨p, ho.symm.trans hp, le_rfl⟩
  | interrupted ho _ =>
    exact .inl ⟨p, Op.eq_of_interrupted (ho.symm.trans hp) (by simp), le_rfl⟩
  | wait j' all q p' now hh hx ho hq ho' =>
    rw [hp] at ho'
    cases ho'
    cases q with
    | lock =>
      obtain ⟨-, -, hr⟩ := waitPause_lock.mp hq
      cases hr
      exact .inl ⟨.lock, ho, le_rfl⟩
    | test =>
      simp only [waitPause, Option.some.injEq, Prod.mk.injEq] at hq
      obtain ⟨-, hr⟩ := hq
      split at hr
      · subst hr
        exact .inl ⟨.test, ho, le_rfl⟩
      · next hst =>
        subst hr
        exact .inr (.inl ⟨ho, by simp [Thread.testing, hh, ho, hx], not_not.mp hst, rfl⟩)
    | retry => cases hq; exact .inl ⟨.retry, ho, le_rfl⟩
    | unlock => cases hq
  | next j₀ ho ho' =>
    rw [hp] at ho'
    cases ho'
    exact .inr (.inr (.inl ⟨j₀, ho, rfl⟩))
  | callWaitAll ho =>
    rw [hp] at ho
    cases ho
    exact .inr (.inr (.inr rfl))
  | ret ho | sched _ _ ho | yield ho | callSend _ _ ho | callPause ho | callWait _ ho =>
    rw [hp] at ho
    cases ho
  | send _ _ _ _ _ ho | pauseCore _ _ _ _ ho | spurious _ _ _ ho =>
    rw [hp] at ho
    cases ho

/-- **A step keeps the cores blocked that the coordinator has seen.** -/
theorem Waited.step {cfg : Config} (hw : Waited k cfg) (h : PauseInv cfg)
    {tr : List (ℕ × Event)} (hx : SeesStopped k tr cfg i x) (hn : x.NoSpurious)
    (hs : Step M i cfg.shared (cfg.thread i) x s' t' e) : Waited k (cfg.after i s' t') := by
  intro j p hp j' hj'
  by_cases hik : k = i
  · subst hik
    rw [Interleave.Config.after_thread_self] at hp
    have hbc : s'.broadcasts = cfg.shared.broadcasts := by
      rcases step_broadcasts hs with hb | ⟨-, -, hidle⟩
      · exact hb
      · rw [hp] at hidle
        cases hidle
    rcases step_wait hs hp with ⟨q, hq, hle⟩ | ⟨hq, htest, hpause, rfl⟩ | ⟨j₀, hq, hseen⟩ | hseen
    · exact (hw j q hq j' (lt_of_lt_of_le hj' hle)).after hs hn hbc
    · -- the core that has just been found paused is blocked, too
      refine Blocked.after ?_ hs hn hbc
      rcases Nat.lt_succ_iff_lt_or_eq.mp hj' with hlt | rfl
      · exact hw j .test hq j' hlt
      · exact h.blocked (by rw [hq]; rfl) (by rw [hq]; rfl) hpause (hx.2 j' htest hpause)
    · exact (hw j₀ .unlock hq j' (by rw [hseen] at hj'; exact hj')).after hs hn hbc
    · omega
  · rw [Interleave.Config.after_thread_of_ne _ _ _ hik] at hp
    have hbc : s'.broadcasts = cfg.shared.broadcasts := by
      rcases step_broadcasts hs with hb | ⟨rfl, -, -⟩
      · exact hb
      · exact absurd (hx.1 rfl).symm hik
    exact (hw j p hp j' hj').after hs hn hbc

theorem StoppedRun.inv {tr : List (ℕ × Event)} {cfg : Config} (h : StoppedRun M k tr cfg) :
    PauseInv cfg ∧ Waited k cfg := by
  refine Interleave.Program.Run.induct (J := fun _ cfg => PauseInv cfg ∧ Waited k cfg) ?_ ?_ h
  · rintro _ rfl
    refine ⟨pauseInv_start, fun j p hp => ?_⟩
    cases hp
  · rintro tr cfg i x s' t' e ⟨hi, hw⟩ ⟨hx, hn⟩ hs
    exact ⟨hi.step (step_cases hs), hw.step hi hx hn (step_cases hs)⟩

/-- When `coremu_wait_all_cores_pause` returns, it has seen all cores. -/
theorem step_allPaused (hs : Step M i s t x s' t' .allPaused) :
    s'.broadcasts = s.broadcasts ∧
      (M.smpCpus = 0 ∨ ∃ j, t.op = .wait j true .unlock ∧ M.smpCpus ≤ j + 1) := by
  have hfrom : ∀ n, (M.waitFrom n t).2 = .allPaused → M.smpCpus ≤ n := by
    intro n hn
    unfold Machine.waitFrom at hn
    split at hn
    · cases hn
    · omega
  refine ⟨?_, ?_⟩
  · rcases step_broadcasts hs with hb | ⟨rfl, -, -⟩
    · exact hb
    · cases hs
  generalize hE : Event.allPaused = E at hs
  cases hs with
  | wait j all q now _ r hh ho hq =>
    cases r with
    | some q' => cases all <;> cases hE
    | none =>
      cases all with
      | false => cases hE
      | true =>
        rw [waitPause_ret hq] at ho
        exact .inr ⟨j, ho, hfrom _ hE.symm⟩
  | receive now hh ho hr =>
    cases hrv : t.recv with
    | dequeue =>
      cases hq : (s.core i).intrQueue with
      | nil => simp [hrv, receiveIntr, hq] at hE
      | cons e rest =>
        simp only [hrv, receiveIntr, hq] at hE
        split at hE <;> cases hE
    | _ => simp [hrv, receiveIntr] at hE
  | sched ev p now hh ho => cases p <;> cases hE
  | callWaitAll hh ho hr => exact .inl (Nat.le_zero.mp (hfrom 0 hE.symm))
  | _ => cases hE

/-- **When `coremu_wait_all_cores_pause` returns, every core is blocked** in the
`coremu_cond_wait` of `coremu_pause_core`, if the coordinator takes no core for a paused
one that is in `sched_pause`, or that a broadcast has released, and `pthread_cond_wait`
returns only after a broadcast. -/
theorem waitAll_blocked {tr : List (ℕ × Event)} {cfg : Config}
    (h : StoppedRun M k (tr ++ [(k, .allPaused)]) cfg) : ∀ j < M.smpCpus, Blocked cfg j := by
  obtain ⟨cfg₁, x, s', t', hrun, hx, hs, rfl⟩ := h.of_snoc
  obtain ⟨-, hw⟩ := StoppedRun.inv hrun
  have hstep := step_cases hs
  obtain ⟨hbc, hz | ⟨j₀, ho, hle⟩⟩ := step_allPaused hstep
  · intro j hj
    omega
  · intro j hj
    exact (hw j₀ .unlock ho j (lt_of_lt_of_le hj hle)).after hstep hx.2 hbc

/-- Core `i` calls `coremu_pause_core` and is blocked after these steps. -/
def pauses (i : ℕ) : List (ℕ × Choice) := (i, .pauseCore) :: goes i 4

/-- The condition of `StoppedRun`, computed. -/
def stoppedGuard (k : ℕ) (tr : List (ℕ × Event)) (cfg : Config) (i : ℕ) (x : Choice) : Bool :=
  (decide (OneCoordinator k tr cfg i x) && x.plain) && ((cfg.thread i).testing x).all fun j =>
    decide ((cfg.shared.core j).state = .pause → (cfg.thread j).op.Stopped cfg.shared.broadcasts)

theorem seesStopped_of_guard {tr : List (ℕ × Event)} {cfg : Config}
    (h : stoppedGuard k tr cfg i x = true) : SeesStopped k tr cfg i x ∧ x.NoSpurious := by
  obtain ⟨hone, hall⟩ := Bool.and_eq_true_iff.mp h
  obtain ⟨hone, hplain⟩ := Bool.and_eq_true_iff.mp hone
  refine ⟨⟨of_decide_eq_true hone, fun j hj => ?_⟩, Choice.noSpurious_of_plain hplain⟩
  rw [hj] at hall
  exact of_decide_eq_true hall

/-- Two cores pause, and a third thread waits for them. -/
theorem waitAll_blocked_two : ∃ tr cfg, StoppedRun twoOnOne 2 (tr ++ [(2, .allPaused)]) cfg ∧
    ∀ j < twoOnOne.smpCpus, Blocked cfg j := by
  obtain ⟨tr, cfg, hr, ht⟩ : ∃ tr cfg, StoppedRun twoOnOne 2 tr cfg ∧
      decide (tr.getLast? = some (2, .allPaused)) = true :=
    Interleave.Program.exists_run_of_exec (P := program twoOnOne) (stoppedGuard 2)
      (fun _ _ _ _ hg => seesStopped_of_guard hg) started_start
      (pauses 0 ++ pauses 1 ++ (2, .waitAllCoresPause) :: goes 2 6)
      (fun tr _ => decide (tr.getLast? = some (2, .allPaused))) (by decide)
  obtain ⟨tr, rfl⟩ := List.getLast?_eq_some_iff.mp (of_decide_eq_true ht)
  exact ⟨tr, cfg, hr, waitAll_blocked hr⟩

/-- Core 0 calls `coremu_cpu_sched(CM_EVENT_PAUSE)`: a hundred times, twice with a
`pthread_yield`, and once more. -/
def schedPauses : List (ℕ × Choice) :=
  List.replicate pauseThreshold (0, .cpuSched .pause) ++ (0, .cpuSched .pause) :: goes 0 1 ++
    (0, .cpuSched .pause) :: goes 0 1 ++ [(0, .cpuSched .pause)]

/-- Core 0 executes `coremu_cpu_sched(CM_EVENT_PAUSE)` until it sleeps, and thread 1 waits
for all cores. -/
def sleepSteps : List (ℕ × Choice) :=
  schedPauses ++ goes 0 2 ++ (1, .waitAllCoresPause) :: goes 1 3

/-- The thread is inside the `nanosleep` of `sched_pause`. -/
def Op.sleepsInPause : Op → Bool
  | .sched .pause (.sleep _ _) => true
  | _ => false

/-- **`coremu_wait_all_cores_pause` may return while a core only sleeps**, in the
`nanosleep` of `sched_pause`; it goes on to run the guest after 100 microseconds. -/
theorem waitAll_sleeping : ∃ tr cfg, CoordinatedRun ⟨1, 1⟩ 1 (tr ++ [(1, .allPaused)]) cfg ∧
    (cfg.thread 0).op.sleepsInPause = true ∧ ¬ Blocked cfg 0 := by
  obtain ⟨tr, cfg, hr, ht⟩ : ∃ tr cfg, CoordinatedRun ⟨1, 1⟩ 1 tr cfg ∧
      (decide (tr.getLast? = some (1, .allPaused)) && (cfg.thread 0).op.sleepsInPause) = true :=
    Interleave.Program.exists_run_of_exec (P := program ⟨1, 1⟩)
      (fun tr cfg i x => decide (OneCoordinator 1 tr cfg i x ∧ x.plain = true))
      (fun _ _ _ _ hg => of_decide_eq_true hg) started_start sleepSteps
      (fun tr cfg => decide (tr.getLast? = some (1, .allPaused)) &&
        (cfg.thread 0).op.sleepsInPause) (by decide +kernel)
  obtain ⟨hlast, hsleep⟩ := Bool.and_eq_true_iff.mp ht
  obtain ⟨tr, rfl⟩ := List.getLast?_eq_some_iff.mp (of_decide_eq_true hlast)
  refine ⟨tr, cfg, hr, hsleep, fun hb => ?_⟩
  rw [show (cfg.thread 0).op = _ from hb] at hsleep
  cases hsleep

/-! ### A blocked core shows it -/

/-- The core has stored `CM_STATE_PAUSE` in `coremu_pause_core` and has not been
released. -/
def Op.Stopping (broadcasts : ℕ) : Op → Prop
  | .pauseCore .condWait => True
  | .pauseCore (.waiting since) => since = broadcasts
  | _ => False

/-- No sender stores `CM_STATE_RUN` for core `c` after the core has stored
`CM_STATE_PAUSE` in `coremu_pause_core`, until it is released. -/
def KeepsPause (c : ℕ) (_ : List (ℕ × Event)) (cfg : Config) (i : ℕ) (x : Choice) : Prop :=
  (cfg.thread i).storesRun c x = true → ¬ (cfg.thread c).op.Stopping cfg.shared.broadcasts

/-- The runs in which no sender overwrites the state of core `c` while it is stopped. -/
abbrev KeptRun (M : Machine) (c : ℕ) := (program M).Run Started (KeepsPause c)

/-- A core that has stored `CM_STATE_PAUSE` before was there already, or stores it now. -/
theorem step_stopping (hs : Step M i s t x s' t' e)
    (hn : ∀ n, t.op = .pauseCore (.waiting n) → n ≤ s.broadcasts)
    (hp : t'.op.Stopping s'.broadcasts) :
    t.op.Stopping s.broadcasts ∨ (s'.core i).state = .pause := by
  cases ho' : t'.op with
  | pauseCore p =>
    rw [ho'] at hp
    cases p with
    | waiting n =>
      have hbc : s.broadcasts ≤ s'.broadcasts := by
        rcases step_broadcasts hs with hb | ⟨-, hb, -⟩ <;> omega
      have hn' : n = s'.broadcasts := hp
      left
      rcases step_waiting hs ho' with hold | ⟨hold, -⟩
      · have := hn n hold
        rw [hold]
        exact le_antisymm this (by omega)
      · rw [hold]
        trivial
    | condWait =>
      rcases step_condWait hs ho' with hold | hst
      · rw [hold]
        exact .inl trivial
      · exact .inr hst
    | _ => exact hp.elim
  | _ => rw [ho'] at hp; exact hp.elim

/-- A core that has stored its state does not store it again. -/
theorem Op.Stopping.not_leaving {n : ℕ} {op : Op} (h : op.Stopping n) : op.leaving = false := by
  cases op with
  | pauseCore p => cases p <;> first | rfl | exact h.elim
  | _ => exact h.elim

/-- A step keeps the state of a core that is stopped. -/
theorem keepsPause_step {cfg : Config} (h : PauseInv cfg)
    (hc : (cfg.thread c).op.Stopping cfg.shared.broadcasts → (cfg.shared.core c).state = .pause)
    {tr : List (ℕ × Event)} (hx : KeepsPause c tr cfg i x)
    (hs : Step M i cfg.shared (cfg.thread i) x s' t' e)
    (hp : ((cfg.after i s' t').thread c).op.Stopping s'.broadcasts) :
    (s'.core c).state = .pause := by
  have hstop : (cfg.thread c).op.Stopping cfg.shared.broadcasts ∨ (s'.core c).state = .pause := by
    by_cases hci : c = i
    · subst hci
      rw [Interleave.Config.after_thread_self] at hp
      exact step_stopping hs (h.since c) hp
    · rw [Interleave.Config.after_thread_of_ne _ _ _ hci] at hp
      left
      cases ho : (cfg.thread c).op with
      | pauseCore p =>
        rw [ho] at hp
        cases p with
        | waiting n =>
          have hn := h.since c n ho
          have hn' : n = s'.broadcasts := hp
          rcases step_broadcasts hs with hb | ⟨-, hb, -⟩
          · exact hn'.trans hb
          · omega
        | _ => exact hp
      | _ => rw [ho] at hp; exact hp
  rcases hstop with hstop | hst
  · rcases step_state hs c with hsame | ⟨-, hrun | ⟨rfl, hleave⟩⟩ | ⟨rfl, ⟨ev, -, hop⟩ | ⟨hst, -⟩⟩
    · rw [hsame]
      exact hc hstop
    · exact absurd hstop (hx hrun)
    · rw [hstop.not_leaving] at hleave
      cases hleave
    · rw [Interleave.Config.after_thread_self, hop] at hp
      exact hp.elim
    · exact hst
  · exact hst

theorem KeptRun.inv {tr : List (ℕ × Event)} {cfg : Config} (h : KeptRun M c tr cfg) :
    PauseInv cfg ∧ ((cfg.thread c).op.Stopping cfg.shared.broadcasts →
      (cfg.shared.core c).state = .pause) := by
  refine Interleave.Program.Run.induct (J := fun _ cfg => PauseInv cfg ∧
    ((cfg.thread c).op.Stopping cfg.shared.broadcasts →
      (cfg.shared.core c).state = .pause)) ?_ ?_ h
  · rintro _ rfl
    exact ⟨pauseInv_start, fun hp => hp.elim⟩
  · rintro tr cfg i x s' t' e ⟨hi, hc⟩ hx hs
    exact ⟨hi.step (step_cases hs), keepsPause_step hi hc hx (step_cases hs)⟩

/-- **A blocked core shows `CM_STATE_PAUSE`**, if no sender overwrites it, and so the loop
of `coremu_wait_pause` ends at its next test. -/
theorem blocked_state {tr : List (ℕ × Event)} {cfg : Config} (h : KeptRun M c tr cfg)
    (hb : Blocked cfg c) : (cfg.shared.core c).state = .pause ∧
      ∀ i, waitPause i c cfg.shared .test = some (cfg.shared, some .unlock) := by
  have hst : (cfg.shared.core c).state = .pause := by
    refine (KeptRun.inv h).2 ?_
    rw [show (cfg.thread c).op = _ from hb]
    exact rfl
  refine ⟨hst, fun i => ?_⟩
  simp [waitPause, hst]

instance (n : ℕ) : (op : Op) → Decidable (op.Stopping n)
  | .pauseCore .condWait => .isTrue trivial
  | .pauseCore (.waiting since) => inferInstanceAs (Decidable (since = n))
  | .pauseCore .lock | .pauseCore .test | .pauseCore .setPause
  | .pauseCore .setRun | .pauseCore .unlock => .isFalse id
  | .idle | .yield | .send _ _ | .sched _ _ | .wait _ _ _ => .isFalse id

instance (c : ℕ) (tr : List (ℕ × Event)) (cfg : Config) (i : ℕ) (x : Choice) :
    Decidable (KeepsPause c tr cfg i x) :=
  inferInstanceAs (Decidable (_ → _))

/-- Core 0 is blocked, as a computation. -/
def blockedZero (cfg : Config) : Bool :=
  match (cfg.thread 0).op with
  | .pauseCore (.waiting since) => decide (since = cfg.shared.broadcasts)
  | _ => false

theorem blocked_of_blockedZero {cfg : Config} (h : blockedZero cfg = true) : Blocked cfg 0 := by
  unfold blockedZero at h
  split at h
  · next since ho => rw [Blocked, ho, of_decide_eq_true h]
  · cases h

/-- Thread 1 signals core 0, which pauses, and thread 2 finds the signal pending. -/
theorem blocked_state_pending : ∃ tr cfg, KeptRun ⟨1, 1⟩ 0 tr cfg ∧ Blocked cfg 0 ∧
    (cfg.shared.core 0).state = .pause ∧
      ∀ i, waitPause i 0 cfg.shared .test = some (cfg.shared, some .unlock) := by
  obtain ⟨tr, cfg, hr, ht⟩ : ∃ tr cfg, KeptRun ⟨1, 1⟩ 0 tr cfg ∧ blockedZero cfg = true :=
    Interleave.Program.exists_run_of_exec (P := program ⟨1, 1⟩)
      (fun tr cfg i x => decide (KeepsPause 0 tr cfg i x))
      (fun _ _ _ _ hg => of_decide_eq_true hg) started_start
      (sends 1 8 ++ pauses 0 ++ sends 2 9) (fun _ cfg => blockedZero cfg) (by decide)
  have hb := blocked_of_blockedZero ht
  exact ⟨tr, cfg, hr, hb, blocked_state hr hb⟩

/-- **A sender may overwrite the state of a blocked core**: core 0 pauses, and thread 1
sends an interrupt to it and stores `CM_STATE_RUN`. -/
theorem blocked_running : ∃ tr cfg, PlainRun ⟨1, 1⟩ tr cfg ∧ Blocked cfg 0 ∧
    (cfg.shared.core 0).state = .run := by
  obtain ⟨tr, cfg, hr, ht⟩ : ∃ tr cfg, PlainRun ⟨1, 1⟩ tr cfg ∧
      (blockedZero cfg && decide ((cfg.shared.core 0).state = .run)) = true :=
    Interleave.Program.exists_run_of_exec (P := program ⟨1, 1⟩) (fun _ _ _ x => x.plain)
      (fun _ _ _ _ hp => hp) started_start (pauses 0 ++ sends 1 6)
      (fun _ cfg => blockedZero cfg && decide ((cfg.shared.core 0).state = .run)) (by decide)
  obtain ⟨hb, hst⟩ := Bool.and_eq_true_iff.mp ht
  exact ⟨tr, cfg, hr, blocked_of_blockedZero hb, of_decide_eq_true hst⟩

end Coremu.Core

import Coremu.Core.Model

/-!
# No lost wakeup

A sender signals a core only if more interrupts are pending than the core's threshold
says, and not if a signal is on its way already.  Senders and the signal handler change
the threshold and the flag `sig_pending` with plain reads and writes.

When more interrupts are pending than the threshold says, somebody has to see to it: a
signal is on its way, the handler is running, a drain has been requested or is being
made, or a sender is still to look.  Every access keeps this but one: a sender that has
computed a new threshold from an old value may store it after others have raised the
threshold further, and so lower it behind everybody's back.

This counts on two things.  Every `pthread_kill` leads to a run of the handler, and no
interrupt is `NULL`: `coremu_receive_intr` takes a `NULL` for the end of the queue and leaves
what is behind it.

## Main definitions

* `Thread.sending` — where a thread stands in a send to a given core.
* `CoreStep` — what a step of some thread does to a given core.
* `Overdue` — more interrupts are pending than the threshold says.
* `Notified` — a signal is on its way, the handler is running, or a drain is requested.
* `Quiet` — nobody is between its `enqueue` and the end of its send, or receiving.
* `NullFree` — no interrupt for a core is `NULL`.
* `RaisesOnly` — no sender lowers the threshold.

## Main results

* `core_cases` — every step does one of these things to the core.
* `NullFree.step` — a step that sends no `NULL` keeps the core free of it.
* `wakeInv_step` — a step keeps the invariant.
* `overdue_notified` — **whenever nobody is sending to the core, it is notified of more
  interrupts than its threshold**, if no sender lowers the threshold.
* `overdue_unnotified` — **a delayed sender may lower the threshold, and nobody notifies
  the core.**
-/

namespace Coremu.Core

variable {M : Machine} {c i j : ℕ} {k : CMCore}

/-! ### The sends to a core -/

@[simp] theorem Shared.setCore_core_self (s : Shared) (j : ℕ) (k : CMCore) :
    (s.setCore j k).core j = k := by
  simp [Shared.setCore]

theorem Shared.setCore_core_of_ne (s : Shared) (k : CMCore) (h : c ≠ j) :
    (s.setCore j k).core c = s.core c := by
  simp [Shared.setCore, h]

/-- Where a thread stands in a send to core `c`. -/
def Thread.sending (c : ℕ) (t : Thread) : Option SendPc :=
  match t.op with
  | .send j p => if j = c then some p else none
  | _ => none

theorem Thread.sending_of_send {t : Thread} {p : SendPc} (h : t.op = .send c p) :
    t.sending c = some p := by
  simp [Thread.sending, h]

theorem Thread.sending_of_ne {t : Thread} {p : SendPc} (h : t.op = .send j p) (hj : j ≠ c) :
    t.sending c = none := by
  simp [Thread.sending, h, hj]

theorem Thread.sending_sendNext (t : Thread) (r : Option SendPc) :
    (t.sendNext c r).sending c = r := by
  cases r <;> simp [Thread.sendNext, Thread.sending]

theorem Thread.sending_interrupted (t : Thread) (h : Option HandlerPc) :
    ({ t with handler := h, op := t.op.interrupted } : Thread).sending c = t.sending c := by
  unfold Thread.sending
  cases ho : t.op with
  | sched e p => cases p <;> simp [Op.interrupted]
  | _ => simp [Op.interrupted]

/-- A thread in a send to core `c` is still there after a step of thread `i`, or it is
thread `i` itself. -/
theorem exists_sending_after {cfg : Config} {s' : Shared} {t' : Thread} {P Q : SendPc → Prop}
    {R : Prop} (h : ∃ j p, (cfg.thread j).sending c = some p ∧ P p) (hmono : ∀ p, P p → Q p)
    (hown : ∀ p, (cfg.thread i).sending c = some p → P p →
      R ∨ ∃ p', t'.sending c = some p' ∧ Q p') :
    R ∨ ∃ j p, ((cfg.after i s' t').thread j).sending c = some p ∧ Q p := by
  obtain ⟨j, p, hj, hp⟩ := h
  by_cases hji : j = i
  · subst hji
    rcases hown p hj hp with hr | ⟨p', hp'⟩
    · exact .inl hr
    · exact .inr ⟨j, p', by rw [Interleave.Config.after_thread_self]; exact hp'⟩
  · exact .inr ⟨j, p, by rw [Interleave.Config.after_thread_of_ne _ _ _ hji]; exact hj, hmono p hp⟩

/-! ### What a step does to a core -/

theorem Thread.sending_of_not_send {t : Thread} (h : ∀ j p, t.op ≠ .send j p) :
    t.sending c = none := by
  unfold Thread.sending
  split
  · next j p ho => exact absurd ho (h j p)
  · rfl

theorem Thread.sending_sendNext_of_ne {t : Thread} (hj : j ≠ c) (r : Option SendPc) :
    (t.sendNext j r).sending c = none := by
  cases r <;> simp [Thread.sendNext, Thread.sending, hj]

theorem Thread.sendNext_frame (t : Thread) (j : ℕ) (r : Option SendPc) :
    (t.sendNext j r).handler = t.handler ∧ (t.sendNext j r).recv = t.recv := by
  cases r <;> exact ⟨rfl, rfl⟩

/-- Nothing changes that matters for notifying a core. -/
structure Keeps (k k' : CMCore) : Prop where
  intrQueue : k'.intrQueue = k.intrQueue
  intrThreshHold : k'.intrThreshHold = k.intrThreshHold
  sigPending : k'.sigPending = k.sigPending
  undelivered : k'.undelivered = k.undelivered
  drain : k'.drain = k.drain

theorem Keeps.refl (k : CMCore) : Keeps k k := ⟨rfl, rfl, rfl, rfl, rfl⟩

theorem Keeps.of_eq {k' : CMCore} (h : k' = k) : Keeps k k' := h ▸ .refl k

/-- Writing the state of a core. -/
theorem Keeps.setState (s : Shared) (i c : ℕ) (st : CMCoreState) :
    Keeps (s.core c) ((s.setCore i { s.core i with state := st }).core c) := by
  by_cases hc : c = i
  · subst hc
    rw [Shared.setCore_core_self]
    exact ⟨rfl, rfl, rfl, rfl, rfl⟩
  · exact .of_eq (Shared.setCore_core_of_ne _ _ hc)

/-- `coremu_pause_core` writes nothing of the cores but the state of its own. -/
theorem pauseCore_core {s s' : Shared} {p : PausePc} {r : Option PausePc}
    (h : pauseCore i s p = some (s', r)) :
    s'.core = s.core ∨ ∃ st, s'.core = (s.setCore i { s.core i with state := st }).core := by
  cases p with
  | lock =>
    obtain ⟨-, rfl, -⟩ := pauseCore_lock.mp h
    exact .inl rfl
  | waiting since =>
    obtain ⟨-, -, rfl, -⟩ := pauseCore_waiting.mp h
    exact .inl rfl
  | setPause => cases h; exact .inr ⟨.pause, rfl⟩
  | setRun => cases h; exact .inr ⟨.run, rfl⟩
  | test | condWait | unlock => cases h; exact .inl rfl

/-- So do `sched_halted` and `sched_pause`. -/
theorem sched_core (e : CMSchedEvent) (k : CMCore) (p : SleepPc) :
    ∃ st, (sched e k p).1 = { k with state := st } := by
  cases p with
  | setState => exact ⟨e.state, rfl⟩
  | setRun => exact ⟨.run, rfl⟩
  | nanosleep | sleep _ _ => exact ⟨k.state, rfl⟩

theorem waitPause_core {s s' : Shared} {p : WaitPc} {r : Option WaitPc}
    (h : waitPause i j s p = some (s', r)) : s'.core = s.core := by
  cases p with
  | lock =>
    obtain ⟨-, rfl, -⟩ := waitPause_lock.mp h
    rfl
  | _ => cases h; rfl

/-- The thread is in no send to core `c`, and neither its handler nor its
`coremu_receive_intr` moves. -/
def Thread.Aside (c : ℕ) (t t' : Thread) : Prop :=
  t'.sending c = none ∧ t'.handler = t.handler ∧ t'.recv = t.recv

theorem Thread.aside_schedNext (t : Thread) (e : CMSchedEvent) (r : Option SleepPc) :
    t.Aside c (t.schedNext e r) := by
  cases r with
  | some p => exact ⟨rfl, rfl, rfl⟩
  | none => cases e <;> exact ⟨rfl, rfl, rfl⟩

theorem Thread.aside_pauseNext (t : Thread) (r : Option PausePc) : t.Aside c (t.pauseNext r) := by
  cases r <;> exact ⟨rfl, rfl, rfl⟩

theorem Thread.aside_waitFrom (M : Machine) (j : ℕ) (t : Thread) :
    t.Aside c (M.waitFrom j t).1 := by
  unfold Machine.waitFrom
  split <;> exact ⟨rfl, rfl, rfl⟩

theorem Thread.aside_waitNext (M : Machine) (t : Thread) (j : ℕ) (all : Bool)
    (r : Option WaitPc) : t.Aside c (M.waitNext t j all r).1 := by
  cases r with
  | some p => cases all <;> exact ⟨rfl, rfl, rfl⟩
  | none =>
    cases all with
    | false => exact ⟨rfl, rfl, rfl⟩
    | true => exact aside_waitFrom M (j + 1) t

theorem Thread.aside_cpuSched {t : Thread} (e : CMSchedEvent) (ho : t.op = .idle) :
    t.Aside c (cpuSched e t) := by
  have hkeep : ∀ n, t.Aside c { t with pauseCnt := n } := fun n =>
    ⟨by simp [Thread.sending, ho], rfl, rfl⟩
  cases e with
  | halted => exact ⟨rfl, rfl, rfl⟩
  | pause =>
    unfold cpuSched
    dsimp only
    split
    · exact hkeep _
    · split <;> exact ⟨rfl, rfl, rfl⟩

/-- What a step of thread `i` does to core `c`. -/
inductive CoreStep (M : Machine) (c i : ℕ) (s : Shared) (t : Thread) (x : Choice) (s' : Shared)
    (t' : Thread) : Prop
  /-- An access of a send to the core. -/
  | send (p : SendPc) (now : BitVec 64) : t.handler = none → x = .go now → t.op = .send c p →
      s'.core c = (sendIntr M i c (s.core c) p).1 →
      t' = t.sendNext c (sendIntr M i c (s.core c) p).2 → CoreStep M c i s t x s' t'
  /-- An access of its handler. -/
  | handler (q : HandlerPc) (now : BitVec 64) : i = c → t.handler = some q →
      s'.core c = (coreSignalHandler M now (s.core c) q).1 →
      t' = { t with handler := (coreSignalHandler M now (s.core c) q).2 } →
      CoreStep M c i s t x s' t'
  /-- A signal is delivered. -/
  | signal : i = c → s'.core c = { s.core c with undelivered := (s.core c).undelivered - 1 } →
      t' = { t with handler := some .readTsc, op := t.op.interrupted } →
      CoreStep M c i s t x s' t'
  /-- An access of its `coremu_receive_intr`. -/
  | receive (r : RecvPc) : i = c → t.handler = none →
      s'.core c = (receiveIntr (s.core c) r).1 →
      t' = { t with recv := (receiveIntr (s.core c) r).2.1 } → CoreStep M c i s t x s' t'
  /-- The `pthread_kill` of a send to the core fails. -/
  | killFails : t.handler = none → x = .killFails → t.op = .send c .kill →
      s'.core c = s.core c → t' = t.sendNext c none → CoreStep M c i s t x s' t'
  /-- Anything else; a send to the core may begin. -/
  | other : Keeps (s.core c) (s'.core c) → (s'.core c).prio = (s.core c).prio →
      (i ≠ c → s'.core c = s.core c) →
      (i = c → t'.handler = t.handler ∧ t'.recv = t.recv) →
      (t'.sending c = t.sending c ∧ t'.sent = t.sent ∨ t.sending c = none ∧
        (t'.sending c = none ∨
          ∃ e, x = .sendIntr e.value c ∧ t'.sending c = some (.putIntr e))) →
      CoreStep M c i s t x s' t'

section CoreStep

variable {s s' : Shared} {t t' : Thread} {x : Choice} {ev : Event}

/-- The cores are left alone by a thread that is in no send. -/
theorem CoreStep.of_aside (hop : ∀ j p, t.op ≠ .send j p) (hc : s'.core = s.core)
    (ht : t.Aside c t') : CoreStep M c i s t x s' t' := by
  rw [Thread.Aside] at ht
  refine .other ?_ (by rw [hc]) (fun _ => by rw [hc]) (fun _ => ht.2)
    (.inr ⟨Thread.sending_of_not_send hop, .inl ht.1⟩)
  rw [hc]
  exact .refl _

/-- The thread of core `i`, which is in no send, writes the state of its core. -/
theorem CoreStep.of_state (hop : ∀ j p, t.op ≠ .send j p) {st : CMCoreState}
    (hc : s'.core = (s.setCore i { s.core i with state := st }).core) (ht : t.Aside c t') :
    CoreStep M c i s t x s' t' := by
  have hne : i ≠ c → s'.core c = s.core c := fun hi => by
    rw [hc]
    exact Shared.setCore_core_of_ne _ _ (Ne.symm hi)
  refine .other (by rw [hc]; exact .setState s i c st) ?_ hne (fun _ => ht.2)
    (.inr ⟨Thread.sending_of_not_send hop, .inl ht.1⟩)
  by_cases hi : i = c
  · rw [hc, hi, Shared.setCore_core_self]
  · rw [hne hi]

/-- A write to another core, by a thread whose send to core `c` stays where it is. -/
theorem CoreStep.of_ne (hi : i ≠ c) (hc : s'.core c = s.core c)
    (hs : t'.sending c = t.sending c) (hsent : t'.sent = t.sent) :
    CoreStep M c i s t x s' t' :=
  .other (.of_eq hc) (by rw [hc]) (fun _ => hc) (fun e => absurd e hi) (.inl ⟨hs, hsent⟩)

/-- **What a step can do to a core.** -/
theorem core_cases (c : ℕ) (hs : Step M i s t x s' t' ev) : CoreStep M c i s t x s' t' := by
  have hop : ∀ {op : Op}, t.op = op → (∀ j p, op ≠ .send j p) → ∀ j p, t.op ≠ .send j p :=
    fun h hne j p => h ▸ hne j p
  cases hs with
  | handler q now hh =>
    by_cases hi : i = c
    · subst hi
      exact .handler q now rfl hh (Shared.setCore_core_self _ _ _) rfl
    · exact .of_ne hi (Shared.setCore_core_of_ne _ _ (Ne.symm hi)) rfl rfl
  | signal hh hu =>
    by_cases hi : i = c
    · subst hi
      exact .signal rfl (Shared.setCore_core_self _ _ _) rfl
    · exact .of_ne hi (Shared.setCore_core_of_ne _ _ (Ne.symm hi)) (t.sending_interrupted _) rfl
  | send j p now hh ho =>
    by_cases hj : j = c
    · subst hj
      exact .send p now hh rfl ho (Shared.setCore_core_self _ _ _) rfl
    · -- a send to another core
      have hc := s.setCore_core_of_ne (sendIntr M i j (s.core j) p).1 (Ne.symm hj)
      exact .other (.of_eq hc) (by rw [hc]) (fun _ => hc) (fun _ => t.sendNext_frame _ _)
        (.inr ⟨Thread.sending_of_ne ho hj, .inl (Thread.sending_sendNext_of_ne hj _)⟩)
  | sched e p now hh ho =>
    obtain ⟨st, hst⟩ := sched_core e (s.core i) p
    exact .of_state (hop ho fun _ _ => nofun) (by rw [hst]) (t.aside_schedNext e _)
  | yield now hh ho => exact .of_aside (hop ho fun _ _ => nofun) rfl ⟨rfl, rfl, rfl⟩
  | pauseCore p now _ r hh ho hp =>
    rcases pauseCore_core hp with hc | ⟨st, hc⟩
    · exact .of_aside (hop ho fun _ _ => nofun) hc (t.aside_pauseNext r)
    · exact .of_state (hop ho fun _ _ => nofun) hc (t.aside_pauseNext r)
  | wait j all p now _ r hh ho hp =>
    exact .of_aside (hop ho fun _ _ => nofun) (waitPause_core hp) (t.aside_waitNext M j all r)
  | receive now hh ho hr =>
    by_cases hi : i = c
    · subst hi
      exact .receive t.recv rfl hh (Shared.setCore_core_self _ _ _) rfl
    · exact .of_ne hi (Shared.setCore_core_of_ne _ _ (Ne.symm hi)) rfl rfl
  | callReceive hh ho _ hr =>
    by_cases hi : i = c
    · subst hi
      exact .receive .out rfl hh (Shared.setCore_core_self _ _ _) rfl
    · exact .of_ne hi (Shared.setCore_core_of_ne _ _ (Ne.symm hi)) rfl rfl
  | callSend intr j hh ho hj hr =>
    refine .other (.refl _) rfl (fun _ => rfl) (fun _ => ⟨rfl, rfl⟩)
      (.inr ⟨Thread.sending_of_not_send (hop ho fun _ _ => nofun), ?_⟩)
    by_cases hjc : j = c
    · subst hjc
      exact .inr ⟨_, rfl, Thread.sending_of_send rfl⟩
    · exact .inl (Thread.sending_of_ne rfl hjc)
  | callSched e hh ho hi hr =>
    exact .of_aside (hop ho fun _ _ => nofun) rfl (Thread.aside_cpuSched e ho)
  | callPause hh ho hi hr | callWait j hh ho hj hr =>
    exact .of_aside (hop ho fun _ _ => nofun) rfl ⟨rfl, rfl, rfl⟩
  | callWaitAll hh ho hr =>
    exact .of_aside (hop ho fun _ _ => nofun) rfl (t.aside_waitFrom M 0)
  | restart hh ho hr =>
    exact .of_aside (hop ho fun _ _ => nofun) rfl
      ⟨Thread.sending_of_not_send (hop ho fun _ _ => nofun), rfl, rfl⟩
  | spurious since hh ho hm => exact .of_aside (hop ho fun _ _ => nofun) rfl (t.aside_pauseNext _)
  | killFails j hh ho =>
    by_cases hj : j = c
    · subst hj
      exact .killFails hh rfl ho rfl rfl
    · exact .other (.refl _) rfl (fun _ => rfl) (fun _ => t.sendNext_frame _ _)
        (.inr ⟨Thread.sending_of_ne ho hj, .inl (Thread.sending_sendNext_of_ne hj _)⟩)

end CoreStep

/-! ### No `NULL` on a queue -/

/-- No access of a send leads back to its first one. -/
theorem sendIntr_ne_putIntr (e : Entry) (p : SendPc) :
    (sendIntr M i j k p).2 ≠ some (.putIntr e) := by
  have hunsent : M.unsent ≠ .putIntr e := by
    unfold Machine.unsent
    split <;> simp
  cases p with
  | putIntr _ => simp only [sendIntr]; split <;> simp
  | threshHold pendingIntr => simp only [sendIntr]; split <;> simp [hunsent]
  | belowMax => simp only [sendIntr]; split <;> simp [hunsent]
  | raise v => simp [sendIntr, hunsent]
  | sigPending => simp only [sendIntr]; split <;> simp
  | isHalt => simp only [sendIntr]; split <;> simp
  | isPause => simp only [sendIntr]; split <;> simp
  | _ => simp [sendIntr]

/-- Only its first access adds to the queue. -/
theorem mem_sendIntr_queue {p : SendPc} {e : Entry}
    (he : e ∈ (sendIntr M i j k p).1.intrQueue) : e ∈ k.intrQueue ∨ p = .putIntr e := by
  cases p with
  | putIntr e' =>
    rcases List.mem_append.mp he with he | he
    · exact .inl he
    · rw [List.mem_singleton.mp he]
      exact .inr rfl
  | _ => exact .inl he

/-- The receiver adds nothing to it. -/
theorem mem_receiveIntr_queue {r : RecvPc} {e : Entry}
    (he : e ∈ (receiveIntr k r).1.intrQueue) : e ∈ k.intrQueue := by
  cases r with
  | dequeue =>
    cases hq : k.intrQueue with
    | nil =>
      simp only [receiveIntr, hq] at he
      exact hq ▸ he
    | cons e' rest =>
      simp only [receiveIntr, hq] at he
      split at he <;> exact List.mem_cons_of_mem _ he
  | _ => exact he

theorem coreSignalHandler_queue (now : BitVec 64) (k : CMCore) (q : HandlerPc) :
    (coreSignalHandler M now k q).1.intrQueue = k.intrQueue := by
  cases q <;> rfl

/-- No interrupt for core `c` is `NULL`, on its queue or in the hands of a sender. -/
structure NullFree (c : ℕ) (cfg : Config) : Prop where
  queue : ∀ e ∈ (cfg.shared.core c).intrQueue, e.value ≠ NULL
  put : ∀ i e, (cfg.thread i).sending c = some (.putIntr e) → e.value ≠ NULL

theorem nullFree_start (c : ℕ) : NullFree c start where
  queue _ he := nomatch he
  put _ _ hp := nomatch hp

/-- The interrupts in the hands of the senders after a step of thread `i`. -/
theorem NullFree.after {cfg : Config} {s' : Shared} {t' : Thread} (h : NullFree c cfg)
    (hq : ∀ e ∈ (s'.core c).intrQueue, e.value ≠ NULL)
    (ht : ∀ e, t'.sending c = some (.putIntr e) → e.value ≠ NULL) :
    NullFree c (cfg.after i s' t') :=
  ⟨hq, Interleave.Config.forall_after
    (T := fun _ (t : Thread) => ∀ e, t.sending c = some (.putIntr e) → e.value ≠ NULL) ht
      fun j _ => h.put j⟩

/-- **A step that sends no `NULL` keeps the core free of it.** -/
theorem NullFree.step {cfg : Config} {x : Choice} {s' : Shared} {t' : Thread}
    (h : NullFree c cfg) (hx : x.NonNull)
    (hs : CoreStep M c i cfg.shared (cfg.thread i) x s' t') : NullFree c (cfg.after i s' t') := by
  cases hs with
  | send p now hh hnow ho hk ht =>
    subst ht
    refine h.after (fun e he => ?_) fun e he => ?_
    · rw [hk] at he
      rcases mem_sendIntr_queue he with hold | rfl
      · exact h.queue e hold
      · exact h.put i e (Thread.sending_of_send ho)
    · rw [Thread.sending_sendNext] at he
      exact absurd he (sendIntr_ne_putIntr e p)
  | handler q now hi hq hk ht =>
    subst ht
    refine h.after (fun e he => h.queue e ?_) (h.put i)
    rwa [hk, coreSignalHandler_queue] at he
  | signal hi hk ht =>
    subst ht
    refine h.after (fun e he => h.queue e ?_) fun e he => h.put i e ?_
    · rwa [hk] at he
    · rwa [Thread.sending_interrupted] at he
  | receive r hi hh hk ht =>
    subst ht
    refine h.after (fun e he => h.queue e ?_) (h.put i)
    rw [hk] at he
    exact mem_receiveIntr_queue he
  | killFails hh hf ho hk ht =>
    subst ht
    refine h.after (fun e he => h.queue e (hk ▸ he)) fun e he => ?_
    rw [Thread.sending_sendNext] at he
    cases he
  | other hk _ _ _ hsend =>
    refine h.after (fun e he => h.queue e (hk.intrQueue ▸ he)) fun e he => ?_
    rcases hsend with ⟨hsame, -⟩ | ⟨-, hnone | ⟨e', hcall, hput⟩⟩
    · exact h.put i e (hsame.symm.trans he)
    · rw [hnone] at he
      cases he
    · rw [hput] at he
      cases he
      exact fun hnull => hx c (hnull ▸ hcall)

/-! ### Who sees to it -/

/-- The sender is on its way to its `pthread_kill`. -/
def SendPc.willKill : SendPc → Bool
  | .setRun | .setPriority | .kill => true
  | _ => false

/-- The sender is still to look, or to notify the core.  A size that it has read counts
as long as the queue has not grown: who made it grow is still to look. -/
def SendPc.Responsible (k : CMCore) : SendPc → Prop
  | .notifier | .getSize | .sigPending | .setSigPending | .setRun | .setPriority | .kill => True
  | .threshHold pendingIntr => k.intrQueue.length ≤ pendingIntr
  | .putIntr _ | .belowMax | .readThreshHold | .raise _ | .isHalt | .isPause => False

theorem SendPc.responsible_of_willKill {p : SendPc} (h : p.willKill = true) : p.Responsible k := by
  cases p <;> trivial

/-- More interrupts are pending than the threshold says. -/
def Overdue (k : CMCore) : Prop := k.intrThreshHold.toInt < k.intrQueue.length

/-- A signal to core `c` is undelivered, its handler is running, or a drain has been
requested. -/
def Notified (c : ℕ) (cfg : Config) : Prop :=
  0 < (cfg.shared.core c).undelivered ∨ (cfg.thread c).handler ≠ none ∨
    (cfg.shared.core c).drain = true

/-- What holds in the handler. -/
def HandlerPc.Ok (k : CMCore) : HandlerPc → Prop
  | .readThreshHold _ => 0 < k.intrThreshHold.toInt
  | .lower _ v => 0 ≤ v.toInt
  | .clearSig => k.drain = true
  | _ => True

/-- What holds of core `c`. -/
structure WakeInv (c : ℕ) (cfg : Config) : Prop where
  nonneg : 0 ≤ (cfg.shared.core c).intrThreshHold.toInt
  handler : ∀ p, (cfg.thread c).handler = some p → p.Ok (cfg.shared.core c)
  /-- A signal that is marked as pending is so, or will be. -/
  sig : (cfg.shared.core c).sigPending = true → 0 < (cfg.shared.core c).undelivered ∨
    (cfg.thread c).handler ≠ none ∨
      ∃ i p, (cfg.thread i).sending c = some p ∧ p.willKill = true
  /-- Somebody sees to overdue interrupts. -/
  wake : Overdue (cfg.shared.core c) → Notified c cfg ∨ (cfg.thread c).recv ≠ .out ∨
    ∃ i p, (cfg.thread i).sending c = some p ∧ p.Responsible (cfg.shared.core c)

/-! ### A step of a send -/

/-- The sender does not lower the threshold. -/
def SendPc.Raises (k : CMCore) : SendPc → Prop
  | .raise v => k.intrThreshHold.toInt ≤ v.toInt
  | _ => True

/-- A sender takes no signal back. -/
theorem sendIntr_undelivered (k : CMCore) (p : SendPc) :
    k.undelivered ≤ (sendIntr M i j k p).1.undelivered := by
  cases p with
  | kill => exact Nat.le_succ _
  | _ => exact le_rfl

/-- A sender lowers no threshold and withdraws no request. -/
theorem sendIntr_mono {p : SendPc} (hp : p.Raises k) :
    k.intrThreshHold.toInt ≤ (sendIntr M i j k p).1.intrThreshHold.toInt ∧
      (k.drain = true → (sendIntr M i j k p).1.drain = true) := by
  cases p with
  | raise v => exact ⟨hp, id⟩
  | notifier => exact ⟨le_rfl, fun _ => rfl⟩
  | _ => exact ⟨le_rfl, id⟩

/-- Who is going to send a signal has sent it, or is still going to. -/
theorem sendIntr_willKill {p : SendPc} (hp : p.willKill = true) :
    0 < (sendIntr M i j k p).1.undelivered ∨
      ∃ p', (sendIntr M i j k p).2 = some p' ∧ p'.willKill = true := by
  cases p with
  | setRun => exact .inr ⟨_, rfl, rfl⟩
  | setPriority => exact .inr ⟨_, rfl, rfl⟩
  | kill => exact .inl (Nat.succ_pos _)
  | _ => cases hp

/-- Who marks a signal as pending is going to send it. -/
theorem sendIntr_sigPending {p : SendPc} (h : (sendIntr M i j k p).1.sigPending = true) :
    k.sigPending = true ∨ ∃ p', (sendIntr M i j k p).2 = some p' ∧ p'.willKill = true := by
  cases p with
  | setSigPending => exact .inr ⟨_, rfl, rfl⟩
  | _ => exact .inl h

/-- Interrupts become overdue only by one more of them. -/
theorem sendIntr_overdue {p : SendPc} (hp : p.Raises k)
    (h : Overdue (sendIntr M i j k p).1) :
    Overdue k ∨ ∃ p', (sendIntr M i j k p).2 = some p' ∧
      p'.Responsible (sendIntr M i j k p).1 := by
  cases p with
  | putIntr e =>
    refine .inr ⟨_, rfl, ?_⟩
    split <;> trivial
  | raise v =>
    have hle : k.intrThreshHold.toInt ≤ v.toInt := hp
    exact .inl (lt_of_le_of_lt hle h)
  | _ => exact .inl h

/-- The others stay responsible, unless the queue grows. -/
theorem sendIntr_responsible_mono {p q : SendPc} (hq : q.Responsible k) :
    q.Responsible (sendIntr M i j k p).1 ∨ ∃ p', (sendIntr M i j k p).2 = some p' ∧
      p'.Responsible (sendIntr M i j k p).1 := by
  cases p with
  | putIntr e =>
    refine .inr ⟨_, rfl, ?_⟩
    split <;> trivial
  | _ => left; cases q <;> exact hq

/-- Who is responsible for overdue interrupts has notified the core, stays responsible,
or has found that a signal is pending. -/
theorem sendIntr_responsible {p : SendPc} (hp : p.Responsible k) (ho : Overdue k) :
    (0 < (sendIntr M i j k p).1.undelivered ∨ (sendIntr M i j k p).1.drain = true) ∨
      (∃ p', (sendIntr M i j k p).2 = some p' ∧ p'.Responsible (sendIntr M i j k p).1) ∨
        p.willKill = false ∧ k.sigPending = true := by
  cases p with
  | notifier => exact .inl (.inr rfl)
  | getSize => exact .inr (.inl ⟨_, rfl, le_refl (k.intrQueue.length : ℤ)⟩)
  | threshHold pendingIntr =>
    -- the threshold is below the size, and the size is at most what was read
    have hlt : k.intrThreshHold.toInt < pendingIntr := lt_of_lt_of_le ho hp
    refine .inr (.inl ⟨.sigPending, ?_, trivial⟩)
    simp only [sendIntr, if_pos hlt]
  | sigPending =>
    cases hsig : k.sigPending with
    | true => exact .inr (.inr ⟨rfl, rfl⟩)
    | false =>
      refine .inr (.inl ⟨.setSigPending, ?_, trivial⟩)
      simp [sendIntr, hsig]
  | setSigPending => exact .inr (.inl ⟨_, rfl, trivial⟩)
  | setRun => exact .inr (.inl ⟨_, rfl, trivial⟩)
  | setPriority => exact .inr (.inl ⟨_, rfl, trivial⟩)
  | kill => exact .inl (.inl (Nat.succ_pos _))
  | putIntr _ | belowMax | readThreshHold | raise _ | isHalt | isPause => cases hp

theorem HandlerPc.Ok.send {p : SendPc} (hp : p.Raises k) {q : HandlerPc} (hq : q.Ok k) :
    q.Ok (sendIntr M i j k p).1 := by
  obtain ⟨hthr, hdrain⟩ := sendIntr_mono (M := M) (i := i) (j := j) hp
  cases q with
  | readThreshHold tsc => exact lt_of_lt_of_le hq hthr
  | clearSig => exact hdrain hq
  | lower tsc v => exact hq
  | _ => trivial

/-- The thread's handler and its place in `coremu_receive_intr` are kept by a send. -/
theorem sendNext_after {cfg : Config} {s' : Shared} {r : Option SendPc} :
    (((cfg.after i s' ((cfg.thread i).sendNext j r)).thread c).handler =
      (cfg.thread c).handler) ∧
    ((cfg.after i s' ((cfg.thread i).sendNext j r)).thread c).recv = (cfg.thread c).recv := by
  by_cases hc : c = i
  · subst hc
    rw [Interleave.Config.after_thread_self]
    exact Thread.sendNext_frame _ _ _
  · rw [Interleave.Config.after_thread_of_ne _ _ _ hc]
    exact ⟨rfl, rfl⟩

section Send

variable {cfg : Config} {p : SendPc} {s' : Shared}

/-- The configuration after a step of a send of thread `i` to core `c`. -/
abbrev afterSend (M : Machine) (c i : ℕ) (cfg : Config) (p : SendPc) (s' : Shared) : Config :=
  cfg.after i s' ((cfg.thread i).sendNext c (sendIntr M i c (cfg.shared.core c) p).2)

theorem sending_afterSend : ((afterSend M c i cfg p s').thread i).sending c =
    (sendIntr M i c (cfg.shared.core c) p).2 := by
  rw [Interleave.Config.after_thread_self]
  exact (cfg.thread i).sending_sendNext _

/-- A signal that is marked as pending is undelivered, handled, or on its way. -/
theorem WakeInv.send_sig (h : WakeInv c cfg) (ho : (cfg.thread i).sending c = some p)
    (hsig : (sendIntr M i c (cfg.shared.core c) p).1.sigPending = true) :
    0 < (sendIntr M i c (cfg.shared.core c) p).1.undelivered ∨ (cfg.thread c).handler ≠ none ∨
      ∃ j q, ((afterSend M c i cfg p s').thread j).sending c = some q ∧ q.willKill = true := by
  rcases sendIntr_sigPending hsig with hold | ⟨p', hr, hp'⟩
  · rcases h.sig hold with hu | hh | hex
    · exact .inl (lt_of_lt_of_le hu (sendIntr_undelivered _ p))
    · exact .inr (.inl hh)
    · -- the sender that was on its way still is, or it has just sent the signal
      refine (exists_sending_after (Q := fun q => q.willKill = true) hex (fun _ hq => hq)
        ?_).imp_right .inr
      intro q hq hw
      rw [ho, Option.some.injEq] at hq
      subst hq
      rw [(cfg.thread i).sending_sendNext]
      exact sendIntr_willKill hw
  · exact .inr (.inr ⟨i, p', sending_afterSend.trans hr, hp'⟩)

/-- The step of a sender that is responsible: if it gives this up, a signal was pending, and
somebody else sees to it. -/
theorem WakeInv.send_responsible (h : WakeInv c cfg) (ho : (cfg.thread i).sending c = some p)
    (hp : p.Responsible (cfg.shared.core c)) (hover : Overdue (cfg.shared.core c)) :
    (0 < (sendIntr M i c (cfg.shared.core c) p).1.undelivered ∨ (cfg.thread c).handler ≠ none ∨
      (sendIntr M i c (cfg.shared.core c) p).1.drain = true) ∨
    ∃ j q, ((afterSend M c i cfg p s').thread j).sending c = some q ∧
      q.Responsible (sendIntr M i c (cfg.shared.core c) p).1 := by
  rcases sendIntr_responsible (M := M) (i := i) (j := c) hp hover with
    (hu | hd) | ⟨p', hr, hp'⟩ | ⟨hnk, hsig⟩
  · exact .inl (.inl hu)
  · exact .inl (.inr (.inr hd))
  · exact .inr ⟨i, p', sending_afterSend.trans hr, hp'⟩
  · rcases h.sig hsig with hu | hh | hex
    · exact .inl (.inl (lt_of_lt_of_le hu (sendIntr_undelivered _ p)))
    · exact .inl (.inr (.inl hh))
    · refine .inr ((exists_sending_after (Q := SendPc.Responsible _) (R := False) hex
        (fun _ hq => SendPc.responsible_of_willKill hq) ?_).resolve_left id)
      -- it is not the sender itself, which is not going to send one
      intro q hq hw
      rw [ho, Option.some.injEq] at hq
      subst hq
      rw [hnk] at hw
      cases hw

/-- Somebody sees to overdue interrupts. -/
theorem WakeInv.send_wake (h : WakeInv c cfg) (ho : (cfg.thread i).sending c = some p)
    (hp : p.Raises (cfg.shared.core c))
    (hover : Overdue (sendIntr M i c (cfg.shared.core c) p).1) :
    (0 < (sendIntr M i c (cfg.shared.core c) p).1.undelivered ∨ (cfg.thread c).handler ≠ none ∨
      (sendIntr M i c (cfg.shared.core c) p).1.drain = true) ∨ (cfg.thread c).recv ≠ .out ∨
    ∃ j q, ((afterSend M c i cfg p s').thread j).sending c = some q ∧
      q.Responsible (sendIntr M i c (cfg.shared.core c) p).1 := by
  rcases sendIntr_overdue hp hover with hold | ⟨p', hr, hp'⟩
  · rcases h.wake hold with (hu | hh | hd) | hrecv | ⟨j, q, hj, hq⟩
    · exact .inl (.inl (lt_of_lt_of_le hu (sendIntr_undelivered _ p)))
    · exact .inl (.inr (.inl hh))
    · exact .inl (.inr (.inr ((sendIntr_mono hp).2 hd)))
    · exact .inr (.inl hrecv)
    · by_cases hji : j = i
      · subst hji
        rw [ho, Option.some.injEq] at hj
        subst hj
        exact (h.send_responsible ho hq hold).imp_right .inr
      · rcases sendIntr_responsible_mono (M := M) (i := i) (j := c) (p := p) hq with
          hq' | ⟨p', hr, hp'⟩
        · refine .inr (.inr ⟨j, q, ?_, hq'⟩)
          rw [Interleave.Config.after_thread_of_ne _ _ _ hji]
          exact hj
        · exact .inr (.inr ⟨i, p', sending_afterSend.trans hr, hp'⟩)
  · exact .inr (.inr ⟨i, p', sending_afterSend.trans hr, hp'⟩)

/-- A step of a send keeps the invariant, if it does not lower the threshold. -/
theorem WakeInv.send (h : WakeInv c cfg) (ho : (cfg.thread i).sending c = some p)
    (hp : p.Raises (cfg.shared.core c))
    (hk : s'.core c = (sendIntr M i c (cfg.shared.core c) p).1) :
    WakeInv c (afterSend M c i cfg p s') := by
  refine ⟨?_, fun q hq => ?_, ?_, ?_⟩
  · rw [Interleave.Config.after_shared, hk]
    exact le_trans h.nonneg (sendIntr_mono hp).1
  · rw [sendNext_after.1] at hq
    rw [Interleave.Config.after_shared, hk]
    exact (h.handler q hq).send hp
  · rw [sendNext_after.1, Interleave.Config.after_shared, hk]
    exact h.send_sig ho
  · unfold Notified
    rw [sendNext_after.1, sendNext_after.2, Interleave.Config.after_shared, hk]
    exact h.send_wake ho hp

end Send

/-! ### The handler and the receiver -/

theorem toInt_sub_one {b : BitVec 64} (h : 0 < b.toInt) : 0 ≤ (b - 1).toInt := by
  have hlt : b.toInt < 2 ^ 63 := BitVec.toInt_lt
  rw [BitVec.toInt_sub, Int.bmod_eq_of_le] <;> simp <;> omega

/-- A running handler notifies the core. -/
theorem WakeInv.running {cfg : Config} {s' : Shared} {t' : Thread} {q : HandlerPc}
    (hh : t'.handler = some q) (hn : 0 ≤ (s'.core c).intrThreshHold.toInt)
    (hq : q.Ok (s'.core c)) : WakeInv c (cfg.after c s' t') := by
  have hself : ((cfg.after c s' t').thread c).handler = some q := by
    rw [Interleave.Config.after_thread_self, hh]
  refine ⟨hn, fun q' hq' => ?_, fun _ => .inr (.inl ?_), fun _ => .inl (.inr (.inl ?_))⟩
  · rw [hself, Option.some.injEq] at hq'
    exact hq' ▸ hq
  · rw [hself]
    exact nofun
  · rw [hself]
    exact nofun

/-- A step of the handler: it is still running, or it has cleared the flag. -/
theorem WakeInv.handlerStep {cfg : Config} (h : WakeInv c cfg) {p : HandlerPc} {now : BitVec 64}
    {s' : Shared} (hp : (cfg.thread c).handler = some p)
    (hk : s'.core c = (coreSignalHandler M now (cfg.shared.core c) p).1) :
    WakeInv c (cfg.after c s'
      { cfg.thread c with handler := (coreSignalHandler M now (cfg.shared.core c) p).2 }) := by
  have hok := h.handler p hp
  have hnn := h.nonneg
  have hrun : ∀ q, (coreSignalHandler M now (cfg.shared.core c) p).2 = some q →
      0 ≤ (coreSignalHandler M now (cfg.shared.core c) p).1.intrThreshHold.toInt →
      q.Ok (coreSignalHandler M now (cfg.shared.core c) p).1 → WakeInv c (cfg.after c s'
        { cfg.thread c with handler := (coreSignalHandler M now (cfg.shared.core c) p).2 }) :=
    fun q hq hn hqk => .running hq (by rw [hk]; exact hn) (by rw [hk]; exact hqk)
  cases p with
  | readTsc => exact hrun _ rfl hnn trivial
  | stamped tsc => exact hrun _ rfl hnn (by split <;> trivial)
  | interval tsc => exact hrun _ rfl hnn (by split <;> trivial)
  | clearThreshHold tsc => exact hrun _ rfl (show (0 : ℤ) ≤ 0 from le_rfl) trivial
  | positive tsc =>
    refine hrun _ rfl hnn ?_
    split
    · next hpos => exact hpos
    · trivial
  | readThreshHold tsc => exact hrun _ rfl hnn (toInt_sub_one hok)
  | lower tsc v => exact hrun _ rfl hok trivial
  | setStamp tsc => exact hrun _ rfl hnn trivial
  | setPriority => exact hrun _ rfl hnn trivial
  | notifier => exact hrun _ rfl hnn rfl
  | clearSig =>
    -- the flag is down, and the drain has been requested before
    refine ⟨?_, fun q hq => ?_, fun hsig => ?_, fun _ => .inl (.inr (.inr ?_))⟩
    · rw [Interleave.Config.after_shared, hk]
      exact hnn
    · rw [Interleave.Config.after_thread_self] at hq
      cases hq
    · rw [Interleave.Config.after_shared, hk] at hsig
      cases hsig
    · rw [Interleave.Config.after_shared, hk]
      exact hok

/-- If no interrupt is `NULL`, the core leaves `coremu_receive_intr` only with an empty
queue. -/
theorem receiveIntr_out {r : RecvPc} (hnull : ∀ e ∈ k.intrQueue, e.value ≠ NULL)
    (h : (receiveIntr k r).2.1 = .out) : (receiveIntr k r).1.intrQueue = [] := by
  cases r with
  | out => cases h
  | handler => cases h
  | intrP =>
    simp only [receiveIntr] at h ⊢
    split at h
    · cases h
    · next hlen => exact List.length_eq_zero_iff.mp (by omega)
  | dequeue =>
    cases hq : k.intrQueue with
    | nil => simp [receiveIntr, hq]
    | cons e rest =>
      have he := hnull e (hq ▸ List.mem_cons_self)
      simp only [receiveIntr, hq, if_neg he] at h
      cases h

/-- The receiver touches only the queue and the request to drain it. -/
theorem receiveIntr_frame (k : CMCore) (r : RecvPc) :
    (receiveIntr k r).1.intrThreshHold = k.intrThreshHold ∧
      (receiveIntr k r).1.sigPending = k.sigPending ∧
        (receiveIntr k r).1.undelivered = k.undelivered := by
  cases r with
  | dequeue =>
    cases hq : k.intrQueue with
    | nil => simp [receiveIntr, hq]
    | cons e rest =>
      simp only [receiveIntr, hq]
      split <;> exact ⟨rfl, rfl, rfl⟩
  | _ => exact ⟨rfl, rfl, rfl⟩

theorem WakeInv.receive {cfg : Config} (h : WakeInv c cfg) (hnull : NullFree c cfg)
    (hh : (cfg.thread c).handler = none) {r : RecvPc} {s' : Shared}
    (hk : s'.core c = (receiveIntr (cfg.shared.core c) r).1) :
    WakeInv c (cfg.after c s'
      { cfg.thread c with recv := (receiveIntr (cfg.shared.core c) r).2.1 }) := by
  obtain ⟨hthr, hsig, hund⟩ := receiveIntr_frame (cfg.shared.core c) r
  refine ⟨?_, fun q hq => ?_, fun hs => ?_, fun hover => ?_⟩
  · rw [Interleave.Config.after_shared, hk, hthr]
    exact h.nonneg
  · rw [Interleave.Config.after_thread_self] at hq
    rw [hh] at hq
    cases hq
  · rw [Interleave.Config.after_shared, hk] at hs ⊢
    rw [Interleave.Config.after_thread_self, hund]
    rw [hsig] at hs
    rcases h.sig hs with hu | hh | hex
    · exact .inl hu
    · exact .inr (.inl hh)
    · refine (exists_sending_after (Q := fun q => q.willKill = true) hex (fun _ hq => hq)
        fun q hq hw => .inr ⟨q, ?_, hw⟩).imp_right .inr
      exact hq
  · by_cases hr : (receiveIntr (cfg.shared.core c) r).2.1 = .out
    · -- the queue is empty, and the threshold is not negative
      unfold Overdue at hover
      rw [Interleave.Config.after_shared, hk, hthr, receiveIntr_out hnull.queue hr] at hover
      have := h.nonneg
      simp at hover
      omega
    · refine .inr (.inl ?_)
      rw [Interleave.Config.after_thread_self]
      exact hr

/-! ### All other steps -/

theorem HandlerPc.Ok.keeps {k' : CMCore} {q : HandlerPc} (h : q.Ok k) (hk : Keeps k k') :
    q.Ok k' := by
  cases q with
  | readThreshHold tsc => rw [HandlerPc.Ok, hk.intrThreshHold]; exact h
  | clearSig => rw [HandlerPc.Ok, hk.drain]; exact h
  | lower tsc v => exact h
  | _ => trivial

theorem SendPc.Responsible.keeps {k' : CMCore} {p : SendPc} (h : p.Responsible k)
    (hk : Keeps k k') : p.Responsible k' := by
  cases p with
  | threshHold n => rw [SendPc.Responsible, hk.intrQueue]; exact h
  | _ => exact h

/-- A step of thread `i` that changes nothing of core `c`'s notification, and takes `i`
out of no send to it. -/
theorem WakeInv.frame {cfg : Config} (h : WakeInv c cfg) {s' : Shared} {t' : Thread}
    (hk : Keeps (cfg.shared.core c) (s'.core c))
    (hs : ∀ p, (cfg.thread i).sending c = some p → t'.sending c = some p)
    (ht : i = c → t'.handler = (cfg.thread i).handler ∧ t'.recv = (cfg.thread i).recv) :
    WakeInv c (cfg.after i s' t') := by
  have hown : ((cfg.after i s' t').thread c).handler = (cfg.thread c).handler ∧
      ((cfg.after i s' t').thread c).recv = (cfg.thread c).recv := by
    by_cases hc : c = i
    · subst hc
      rw [Interleave.Config.after_thread_self]
      exact ht rfl
    · rw [Interleave.Config.after_thread_of_ne _ _ _ hc]
      exact ⟨rfl, rfl⟩
  have hstay : ∀ {P Q : SendPc → Prop}, (∀ p, P p → Q p) →
      (∃ j p, (cfg.thread j).sending c = some p ∧ P p) →
        ∃ j p, ((cfg.after i s' t').thread j).sending c = some p ∧ Q p := by
    intro P Q hmono hex
    refine (exists_sending_after (R := False) hex hmono fun p hp hP => ?_).resolve_left id
    exact .inr ⟨p, hs p hp, hmono p hP⟩
  constructor
  · rw [Interleave.Config.after_shared, hk.intrThreshHold]
    exact h.nonneg
  · intro p hp
    rw [hown.1] at hp
    exact (h.handler p hp).keeps hk
  · intro hsig
    rw [Interleave.Config.after_shared] at hsig ⊢
    rw [hk.sigPending] at hsig
    rw [hk.undelivered, hown.1]
    exact (h.sig hsig).imp_right (Or.imp_right (hstay fun _ hp => hp))
  · intro hover
    unfold Overdue at hover
    unfold Notified
    rw [Interleave.Config.after_shared] at hover ⊢
    rw [hk.intrThreshHold, hk.intrQueue] at hover
    rw [hk.undelivered, hk.drain, hown.1, hown.2]
    exact (h.wake hover).imp_right (Or.imp_right (hstay fun _ hp => hp.keeps hk))

/-! ### Runs -/

/-- The step of the thread is a store to the threshold of core `c`, at line 88. -/
def Thread.raising (c : ℕ) (t : Thread) (x : Choice) : Option (BitVec 64) :=
  match t.handler, t.sending c, x with
  | none, some (.raise v), .go _ => some v
  | _, _, _ => none

/-- No sender stores a threshold for core `c` that is lower than the one it has. -/
def RaisesOnly (c : ℕ) (_ : List (ℕ × Event)) (cfg : Config) (i : ℕ) (x : Choice) : Prop :=
  ∀ v, (cfg.thread i).raising c x = some v →
    (cfg.shared.core c).intrThreshHold.toInt ≤ v.toInt

/-- The runs in which no sender lowers the threshold of core `c`, every `pthread_kill` leads
to a run of the handler and no `NULL` is sent. -/
abbrev RaisingRun (M : Machine) (c : ℕ) :=
  (program M).Run Started fun tr cfg i x => RaisesOnly c tr cfg i x ∧ x.Reliable

theorem wakeInv_start (c : ℕ) : WakeInv c start := by
  refine ⟨show (0 : ℤ) ≤ 0 from le_rfl, fun p hp => ?_, fun hs => ?_, fun ho => ?_⟩
  · cases hp
  · cases hs
  · have hlt : (0 : ℤ) < 0 := ho
    exact absurd hlt (lt_irrefl 0)

/-- **A step that does not lower the threshold keeps the invariant.** -/
theorem wakeInv_step {cfg : Config} (h : WakeInv c cfg) (hnull : NullFree c cfg) {x : Choice}
    {s' : Shared} {t' : Thread} {tr : List (ℕ × Event)} (hx : RaisesOnly c tr cfg i x)
    (hd : x.Delivers) (hs : CoreStep M c i cfg.shared (cfg.thread i) x s' t') :
    WakeInv c (cfg.after i s' t') := by
  cases hs with
  | send p now hh hnow ho hk ht =>
    subst hnow ht
    have hsend := Thread.sending_of_send ho
    refine h.send hsend ?_ hk
    cases p with
    | raise v => exact hx v (by simp [Thread.raising, hh, hsend])
    | _ => trivial
  | handler q now hi hq hk ht =>
    subst hi ht
    exact h.handlerStep hq hk
  | signal hi hk ht =>
    subst hi ht
    exact .running rfl (by rw [hk]; exact h.nonneg) trivial
  | receive r hi hh hk ht =>
    subst hi ht
    exact h.receive hnull hh hk
  | killFails hh hf => exact absurd hf hd
  | other hk _ _ hown hsend =>
    refine h.frame hk (fun p hp => ?_) hown
    rcases hsend with ⟨hsame, -⟩ | ⟨hnone, -⟩
    · exact hsame.trans hp
    · rw [hnone] at hp
      cases hp

theorem RaisingRun.wakeInv {tr : List (ℕ × Event)} {cfg : Config} (h : RaisingRun M c tr cfg) :
    WakeInv c cfg := by
  suffices WakeInv c cfg ∧ NullFree c cfg from this.1
  refine Interleave.Program.Run.induct (J := fun _ cfg => WakeInv c cfg ∧ NullFree c cfg) ?_ ?_ h
  · rintro _ rfl
    exact ⟨wakeInv_start c, nullFree_start c⟩
  · rintro tr cfg i x s' t' e ⟨hwake, hnull⟩ ⟨hx, hd, hn⟩ hs
    have hcs := core_cases c (step_cases hs)
    exact ⟨wakeInv_step hwake hnull hx hd hcs, hnull.step hn hcs⟩

/-- No thread stands between its `enqueue` on core `c`'s queue and the end of its
`coremu_send_intr`, and `c` is not inside `coremu_receive_intr`. -/
def Quiet (c : ℕ) (cfg : Config) : Prop :=
  (∀ i p, (cfg.thread i).sending c = some p → ∃ e, p = .putIntr e) ∧ (cfg.thread c).recv = .out

/-- **No wakeup is lost as long as no sender lowers the threshold**: whenever nobody is
sending to core `c` and it is not receiving, it is notified of more interrupts than its
threshold says. -/
theorem overdue_notified {tr : List (ℕ × Event)} {cfg : Config} (h : RaisingRun M c tr cfg)
    (hq : Quiet c cfg) (ho : Overdue (cfg.shared.core c)) : Notified c cfg := by
  rcases (RaisingRun.wakeInv h).wake ho with hn | hr | ⟨i, p, hp, hresp⟩
  · exact hn
  · exact absurd hq.2 hr
  · obtain ⟨e, rfl⟩ := hq.1 i p hp
    cases hresp

/-! ### Runs of two cores on one processor -/

/-- Two emulated cores on a host with one processor. -/
def twoOnOne : Machine := ⟨2, 1⟩

/-- `n` steps of thread `i`; `read_host_tsc` returns 1. -/
def goes (i n : ℕ) : List (ℕ × Choice) := List.replicate n (i, .go 1)

/-- Thread `i` sends 7 to core 0 and makes `n` steps of the send. -/
def sends (i n : ℕ) : List (ℕ × Choice) := (i, .sendIntr 7 0) :: goes i n

/-- No thread below `n` is in a send. -/
def sendsDone (n : ℕ) (cfg : Config) : Bool :=
  (List.range n).all fun i => ((cfg.thread i).sending 0).isNone

theorem sending_of_sendsDone {n : ℕ} {cfg : Config}
    (hcfg : ∀ j, ¬ j < n → cfg.thread j = start.thread j) (hd : sendsDone n cfg = true) (i : ℕ) :
    (cfg.thread i).sending 0 = none := by
  by_cases hi : i < n
  · exact Option.isNone_iff_eq_none.mp (List.all_eq_true.mp hd i (List.mem_range.mpr hi))
  · rw [hcfg i hi]
    rfl

theorem quiet_of_sendsDone {n : ℕ} {cfg : Config}
    (hcfg : ∀ j, ¬ j < n → cfg.thread j = start.thread j) (hd : sendsDone n cfg = true)
    (hr : (cfg.thread 0).recv = .out) : Quiet 0 cfg := by
  refine ⟨fun i p hp => ?_, hr⟩
  rw [sending_of_sendsDone hcfg hd i] at hp
  cases hp

/-- The condition of `RaisingRun` for core 0, computed. -/
def raisesGuard (cfg : Config) (i : ℕ) (x : Choice) : Bool :=
  (((cfg.thread i).raising 0 x).all fun v =>
    decide ((cfg.shared.core 0).intrThreshHold.toInt ≤ v.toInt)) && x.plain

theorem raisesOnly_of_guard {tr : List (ℕ × Event)} {cfg : Config} {x : Choice}
    (h : raisesGuard cfg i x = true) : RaisesOnly 0 tr cfg i x ∧ x.Reliable := by
  obtain ⟨hr, hp⟩ := Bool.and_eq_true_iff.mp h
  refine ⟨fun v hv => ?_, Choice.reliable_of_plain hp⟩
  rw [hv] at hr
  exact of_decide_eq_true hr

/-- Three interrupts are pending and the threshold is 2. -/
def threeOverTwo (cfg : Config) : Bool :=
  decide ((cfg.shared.core 0).intrThreshHold = 2 ∧ (cfg.shared.core 0).intrQueue.length = 3 ∧
    (cfg.thread 0).recv = .out)

theorem overdue_of_threeOverTwo {cfg : Config} (h : threeOverTwo cfg = true) :
    Overdue (cfg.shared.core 0) ∧ (cfg.thread 0).recv = .out := by
  obtain ⟨hthr, hlen, hr⟩ := of_decide_eq_true h
  refine ⟨?_, hr⟩
  unfold Overdue
  rw [hthr, hlen]
  decide

/-- Threads 2, 3 and 4 send; thread 2 signals, thread 3 raises the threshold to 2, and
thread 4 looks before that and raises it to 2 once more. -/
def pendingSteps : List (ℕ × Choice) := sends 2 8 ++ sends 3 6 ++ sends 4 6 ++ goes 3 3 ++ goes 4 3

/-- A signal is on its way to a core with three interrupts and the threshold 2. -/
theorem overdue_notified_pending : ∃ tr cfg, RaisingRun twoOnOne 0 tr cfg ∧ Quiet 0 cfg ∧
    Overdue (cfg.shared.core 0) ∧ Notified 0 cfg := by
  obtain ⟨tr, cfg, hr, hcfg, ht⟩ : ∃ tr cfg, RaisingRun twoOnOne 0 tr cfg ∧
      (∀ j, ¬ j < 5 → cfg.thread j = start.thread j) ∧
        (threeOverTwo cfg && sendsDone 5 cfg) = true :=
    Interleave.Program.exists_run_of_exec_within (P := program twoOnOne) (c := start) (· < 5)
      (fun _ cfg i x => raisesGuard cfg i x) (fun _ _ _ _ _ hg => raisesOnly_of_guard hg)
      started_start pendingSteps (by decide)
      (fun _ cfg => threeOverTwo cfg && sendsDone 5 cfg) (by decide)
  obtain ⟨hover, hdone⟩ := Bool.and_eq_true_iff.mp ht
  obtain ⟨ho, hrecv⟩ := overdue_of_threeOverTwo hover
  have hq := quiet_of_sendsDone hcfg hdone hrecv
  exact ⟨tr, cfg, hr, hq, ho, overdue_notified hr hq ho⟩

/-- Thread 2 sends and signals core 0.  Thread 3 sends and has computed the threshold 2
when threads 4 and 5 send and raise it to 6.  The handler runs, the core handles the four
interrupts, and thread 6 sends three more, without a signal.  Then thread 3 stores 2. -/
def staleSteps : List (ℕ × Choice) :=
  sends 2 8 ++ sends 3 6 ++ sends 4 9 ++ sends 5 9 ++ (0, .signal) :: goes 0 6 ++
    (0, .receiveIntr) :: goes 0 13 ++ sends 6 5 ++ sends 6 5 ++ sends 6 5 ++ goes 3 3

/-- Nobody has notified core 0. -/
def unnotified (cfg : Config) : Bool :=
  decide ((cfg.shared.core 0).undelivered = 0 ∧ (cfg.shared.core 0).drain = false) &&
    (cfg.thread 0).handler.isNone

/-- **A delayed sender may lower the threshold, and nobody notifies the core**: all sends
have returned, three interrupts are pending over a threshold of 2, and no signal is on
its way, no handler runs and no drain is requested. -/
theorem overdue_unnotified : ∃ tr cfg, PlainRun twoOnOne tr cfg ∧ Quiet 0 cfg ∧
    Overdue (cfg.shared.core 0) ∧ ¬ Notified 0 cfg := by
  obtain ⟨tr, cfg, hr, hcfg, ht⟩ : ∃ tr cfg, PlainRun twoOnOne tr cfg ∧
      (∀ j, ¬ j < 7 → cfg.thread j = start.thread j) ∧
        (threeOverTwo cfg && (sendsDone 7 cfg && unnotified cfg)) = true :=
    Interleave.Program.exists_run_of_exec_within (P := program twoOnOne) (c := start) (· < 7)
      (fun _ _ _ x => x.plain) (fun _ _ _ _ _ hp => hp) started_start staleSteps (by decide)
      (fun _ cfg => threeOverTwo cfg && (sendsDone 7 cfg && unnotified cfg)) (by decide)
  obtain ⟨hover, ht⟩ := Bool.and_eq_true_iff.mp ht
  obtain ⟨hdone, hun⟩ := Bool.and_eq_true_iff.mp ht
  obtain ⟨ho, hrecv⟩ := overdue_of_threeOverTwo hover
  refine ⟨tr, cfg, hr, quiet_of_sendsDone hcfg hdone hrecv, ho, ?_⟩
  obtain ⟨hud, hh⟩ := Bool.and_eq_true_iff.mp hun
  obtain ⟨hund, hdrain⟩ := of_decide_eq_true hud
  rintro (hu | hh' | hd)
  · omega
  · exact hh' (Option.isNone_iff_eq_none.mp hh)
  · rw [hdrain] at hd
    cases hd

end Coremu.Core

import Coremu.Core.Halt
import Coremu.Core.Restart
import Coremu.System.Refine

/-!
# Sends can return

Enqueuing takes the lock of the queue, and the thread that has the lock may be interrupted by
its signal handler, or not be scheduled for long.  Meanwhile a sender may spin any number of
times, so there is no bound on its own steps.  But it depends on nobody else: from every
reachable state, a bounded number of steps of itself and of the thread that holds the lock
can bring a thread inside `coremu_send_intr` to its return.

## Main definitions

* `sendRank`, `enqRank` — how many accesses are left at a program point to a sender that does
  not spin.
* `Holds` — a thread has the lock of a queue.
* `Sending`, `Releasing` — the states on the way.

## Main results

* `Sending.step` — an access that gets closer.
* `Run.exists_holds` — a lock that is taken has a holder.
* `system_send_returns` — **a send can return after a bounded number of steps of two threads.**
-/

namespace Coremu.System

open Coremu.Core (Machine CMCore handlerRank handlerRank_le handlerRank_step)
open Coremu.LockQueue (Pc EnqPc)

variable {M : Machine} {i j k n : ℕ} {cfg : Config} {tr : List (ℕ × Event)}

/-! ### Accesses left -/

/-- How many accesses `coremu_send_intr` makes at most before it returns, once it has
enqueued. -/
def sendRank : Option Core.SendPc → ℕ
  | none => 0
  | some .notifier | some .kill => 1
  | some .setPriority => 2
  | some .setRun | some .isPause => 3
  | some .setSigPending | some .isHalt => 4
  | some (.raise _) => 5
  | some .readThreshHold => 6
  | some .belowMax => 7
  | some .sigPending => 8
  | some (.threshHold _) => 9
  | some .getSize | some (.putIntr _) => 10

theorem sendRank_unsent : sendRank (some M.unsent) ≤ 4 := by
  unfold Machine.unsent
  split <;> simp [sendRank]

theorem sendRank_step (k : CMCore) {p : Core.SendPc} (hp : ∀ e, p ≠ .putIntr e) :
    sendRank (Core.sendIntr M i j k p).2 < sendRank (some p) := by
  have hun := sendRank_unsent (M := M)
  cases p with
  | putIntr e => exact absurd rfl (hp e)
  | threshHold n | sigPending | belowMax =>
    simp only [Core.sendIntr]
    split <;> simp only [sendRank] at hun ⊢ <;> omega
  | raise v => exact lt_of_le_of_lt hun (Nat.lt_succ_self 4)
  | isHalt | isPause =>
    simp only [Core.sendIntr]
    split <;> simp [sendRank]
  | _ => simp [Core.sendIntr, sendRank]

/-- How many accesses `enqueue` makes at most before it returns, the call included, if it is
not kept waiting. -/
def enqRank : Pc → ℕ
  | .idle => 11
  | .enq (.newNode _) => 10
  | .enq (.setValue _ _) => 9
  | .enq (.setNext _ _) => 8
  | .enq (.spinLock _ _) => 7
  | .enq (.readTail _ _) => 6
  | .enq (.link _ _ _) => 5
  | .enq (.setTail _) => 4
  | .enq .incCount => 3
  | .enq .spinUnlock => 2
  | .enq .ret => 1
  | .deq _ => 0

/-- The enqueuer has the lock. -/
def locked : Pc → Bool
  | .enq p => p.holds
  | _ => false

/-- The enqueuer still needs a block. -/
def unallocated : Pc → Bool
  | .idle | .enq (.newNode _) => true
  | _ => false

theorem unallocated_of_locked {p : Pc} (h : locked p = true) : unallocated p = false := by
  cases p with
  | enq r => cases r <;> first | rfl | cases h
  | _ => cases h

/-- How many accesses a thread inside `coremu_send_intr` makes at most before it returns. -/
def rank (t : Thread) : ℕ :=
  handlerRank t.core.handler + match t.core.op with
    | .send _ (.putIntr _) => 10 + enqRank t.queue
    | .send _ p => sendRank (some p)
    | _ => 0

theorem rank_put {t : Thread} {e : Core.Entry} (ho : t.core.op = .send j (.putIntr e)) :
    rank t = handlerRank t.core.handler + (10 + enqRank t.queue) := by
  simp [rank, ho]

theorem rank_send {t : Thread} {p : Core.SendPc} (ho : t.core.op = .send j p)
    (hp : ∀ e, p ≠ .putIntr e) : rank t = handlerRank t.core.handler + sendRank (some p) := by
  cases p with
  | putIntr e => exact absurd rfl (hp e)
  | _ => simp [rank, ho]

/-! ### The accesses of `enqueue` -/

section Enqueue

variable {s s' : LockQueue.Shared} {p p' : Pc} {y : LockQueue.Choice} {f : Fifo.Event DataType}

/-- An access of `enqueue` by a thread that is not kept waiting. -/
structure EnqGoes (s : LockQueue.Shared) (p : Pc) (s' : LockQueue.Shared) (p' : Pc)
    (f : Fifo.Event DataType) : Prop where
  /-- It gets closer, or is the last one. -/
  rank : enqRank p' < enqRank p ∧ f ≠ .retEnq ∨ p = .enq .ret ∧ p' = .idle ∧ f = .retEnq
  /-- Without the lock, it leaves the lock free. -/
  lock : locked p' = false → s'.tLock = 0
  /-- With the lock, it allocates nothing. -/
  held : locked p = true → s'.live = s.live
  /-- Before it allocates, the heap is as it was. -/
  heap : unallocated p' = true → f ≠ .retEnq → unallocated p = true ∧ s'.live = s.live

theorem exists_enqGoes {v : DataType} (hp : ∀ r, p ≠ .deq r)
    (hlock : locked p = false → s.tLock = 0)
    (hfree : unallocated p = true → ∃ a, Block a ∧ s.live a = false) :
    ∃ y s' p' f, LockQueue.step s p y = some (s', p', f) ∧ Fits (.callEnq v) f = true ∧
      EnqGoes s p s' p' f := by
  cases p with
  | deq r => exact absurd rfl (hp r)
  | idle =>
    refine ⟨.callEnq v, _, _, _, rfl, decide_eq_true rfl, .inl ?_, fun _ => hlock rfl, ?_,
      fun _ _ => ⟨rfl, rfl⟩⟩
    · simp [enqRank]
    · simp [locked]
  | enq r =>
    cases r with
    | newNode v =>
      obtain ⟨a, hb, hl⟩ := hfree rfl
      refine ⟨.alloc a, _, _, _, if_pos ⟨hb, hl⟩, rfl, .inl ?_, fun _ => hlock rfl, ?_, ?_⟩
      · simp [enqRank]
      · simp [locked, LockQueue.EnqPc.holds]
      · simp [unallocated]
    | spinLock v node =>
      refine ⟨.go, _, _, _, rfl, rfl, ?_⟩
      have hr : (testandset s.tLock).2 = 0 := by
        simp [hlock rfl, testandset, compareExchange]
      rw [if_pos hr]
      refine ⟨.inl ?_, ?_, ?_, ?_⟩
      · simp [enqRank]
      · simp [locked, LockQueue.EnqPc.holds]
      · simp [locked, LockQueue.EnqPc.holds]
      · simp [unallocated]
    | setValue v node | setNext v node =>
      refine ⟨.go, _, _, _, rfl, rfl, .inl ?_, fun _ => hlock rfl, fun _ => rfl, ?_⟩
      · simp [enqRank]
      · simp [unallocated]
    | readTail v node | link v node tail | setTail node | incCount =>
      refine ⟨.go, _, _, _, rfl, rfl, .inl ?_, ?_, fun _ => rfl, ?_⟩
      · simp [enqRank]
      · simp [locked, LockQueue.EnqPc.holds]
      · simp [unallocated]
    | spinUnlock =>
      refine ⟨.go, _, _, _, rfl, rfl, .inl ?_, fun _ => rfl, fun _ => rfl, ?_⟩
      · simp [enqRank]
      · simp [unallocated]
    | ret =>
      exact ⟨.go, _, _, _, rfl, rfl, .inr ⟨rfl, rfl, rfl⟩, fun _ => hlock rfl, fun _ => rfl,
        fun _ h => absurd rfl h⟩

end Enqueue

/-! ### The accesses of a sender -/

/-- The thread has the lock of the queue of core `j`. -/
def Holds (j : ℕ) (t : Thread) : Prop :=
  (∃ e, t.core.op = .send j (.putIntr e)) ∧ locked t.queue = true

section Step

variable {s s' : Shared} {t t' : Thread} {x : Choice} {e : Event}

/-- The next access of a running signal handler. -/
theorem handler_step {q : Core.HandlerPc} (hh : t.core.handler = some q) :
    ∃ c h, step M i s t (.core (.go 0)) =
        some ({ s with cores := c }, { t with core := { t.core with handler := h } }, .core .tau) ∧
      handlerRank h < handlerRank t.core.handler := by
  have hq : (queuePoint t.core && proceeds (.go 0)) = false := by
    simp [queuePoint, hh]
  exact ⟨_, _, (Step.core _ _ _ _ hq (Core.Step.handler q 0 hh).eq_some).eq_some,
    by rw [hh]; exact handlerRank_step 0 _ q⟩

/-- The next access of `coremu_send_intr` after it has enqueued. -/
theorem send_step {p : Core.SendPc} (hh : t.core.handler = none) (ho : t.core.op = .send j p)
    (hp : ∀ e, p ≠ .putIntr e) :
    ∃ c r, step M i s t (.core (.go 0)) =
        some ({ s with cores := c }, { t with core := t.core.sendNext j r }, .core .tau) ∧
      sendRank r < sendRank (some p) ∧ ∀ e, r ≠ some (.putIntr e) := by
  by_cases hsize : p = .getSize
  · subst hsize
    exact ⟨s.cores, some (.threshHold (s.intrGetSize j)), (Step.getSize j 0 hh ho).eq_some,
      by simp [sendRank], nofun⟩
  · have hq : (queuePoint t.core && proceeds (.go 0)) = false := by
      cases p with
      | putIntr e => exact absurd rfl (hp e)
      | getSize => exact absurd rfl hsize
      | _ => simp [queuePoint, hh, ho]
    exact ⟨_, _, (Step.core _ _ _ _ hq (Core.Step.send j p 0 hh ho).eq_some).eq_some,
      sendRank_step _ hp, fun e => Core.sendIntr_ne_putIntr e p⟩

end Step

/-- A thread that is in a send was in it before, or has called it for a core. -/
theorem core_send {c c' : Core.Shared} {l l' : Core.Thread} {y : Core.Choice} {ev : Core.Event}
    (hs : Core.Step M i c l y c' l' ev) {p : Core.SendPc} (ho : l'.op = .send j p) :
    (∃ p', l.op = .send j p') ∨ j < M.smpCpus := by
  have hfrom : ∀ m, (M.waitFrom m l).1.op ≠ .send j p := by
    intro m hm
    rcases Core.waitFrom_op M m l with h | h <;> exact absurd (h.symm.trans hm) nofun
  cases hs with
  | callSend intr m hh hop hm =>
    cases ho
    exact .inr hm
  | send m q now hh hop =>
    cases hr : (Core.sendIntr M i m (c.core m) q).2 with
    | some p' =>
      rw [hr] at ho
      cases ho
      exact .inl ⟨q, hop⟩
    | none =>
      rw [hr] at ho
      cases ho
  | handler | receive | callReceive | restart => exact .inl ⟨p, ho⟩
  | signal hh hu => exact .inl ⟨p, Core.Op.eq_of_interrupted ho nofun⟩
  | sched e q now hh hop =>
    cases hr : (Core.sched e (c.core i) q).2 with
    | some p' => rw [hr] at ho; cases ho
    | none => rw [hr] at ho; cases e <;> cases ho
  | pauseCore q now _ r hh hop => cases r <;> cases ho
  | wait m all q now _ r hh hop =>
    cases r with
    | some q' => cases all <;> cases ho
    | none =>
      cases all with
      | false => cases ho
      | true => exact absurd ho (hfrom (m + 1))
  | callSched e hh hop hi hr =>
    rcases Core.cpuSched_op e l with h | h
    · exact .inl ⟨p, h.1.symm.trans ho⟩
    · rcases h with h | h <;> exact absurd (h.symm.trans ho) nofun
  | callPause | callWait | yield | spurious | killFails => cases ho
  | callWaitAll hh hop hr => exact absurd ho (hfrom 0)

/-- Interrupts are sent to cores only. -/
theorem core_send_lt {tr : List (ℕ × Core.Event)} {cfg : Core.Config} (h : Core.AnyRun M tr cfg) :
    ∀ i j p, (cfg.thread i).op = .send j p → j < M.smpCpus := by
  refine Interleave.Program.Run.induct
    (J := fun _ cfg => ∀ i j p, (cfg.thread i).op = .send j p → j < M.smpCpus) ?_ ?_ h
  · rintro _ rfl i j p ho
    cases ho
  · intro tr cfg i x s' t' e ih _ hs m j p ho
    by_cases hm : m = i
    · subst hm
      rw [Interleave.Config.after_thread_self] at ho
      rcases core_send (Core.step_cases hs) ho with ⟨p', ho'⟩ | hj
      · exact ih m j p' ho'
      · exact hj
    · rw [Interleave.Config.after_thread_of_ne _ _ _ hm] at ho
      exact ih m j p ho

theorem Run.send_lt (h : Run M tr cfg) {p : Core.SendPc}
    (ho : (cfg.thread i).core.op = .send j p) : j < M.smpCpus := by
  obtain ⟨_, L, hm⟩ := h.matched
  have hop : ∃ p', (coreThread i (cfg.thread i)).op = .send j p' := by
    unfold coreThread
    rw [ho]
    cases p <;> exact ⟨_, rfl⟩
  obtain ⟨p', hop⟩ := hop
  exact core_send_lt hm.run i j p' hop

/-- The thread that enqueues is not inside `dequeue`. -/
theorem Run.queue_ne_deq (h : Run M tr cfg) {e : Core.Entry}
    (ho : (cfg.thread i).core.op = .send j (.putIntr e)) : ∀ r, (cfg.thread i).queue ≠ .deq r := by
  intro r hr
  obtain ⟨_, L, hm⟩ := h.matched
  have hfit := hm.tracks.fitting i
  rw [Fitting, hr] at hfit
  rw [ho] at hfit
  cases hfit.1

theorem Run.step (h : Run M tr cfg) {x : Choice} {s' : Shared} {t' : Thread} {e : Event}
    (hs : step M i cfg.shared (cfg.thread i) x = some (s', t', e)) :
    Run M (tr ++ [(i, e)]) (cfg.after i s' t') :=
  .snoc h trivial hs

/-- Thread `i` is inside its `n`-th `coremu_send_intr`, to core `j`, and nobody keeps it
waiting: the lock is free unless the thread itself has it, and there is a block to allocate. -/
structure Sending (M : Machine) (i j n : ℕ) (cfg : Config) : Prop where
  run : ∃ tr, Run M tr cfg
  op : ∃ p, (cfg.thread i).core.op = .send j p
  sent : (cfg.thread i).core.sent = n
  lock : locked (cfg.thread i).queue = false → (cfg.shared.lockQueue j).tLock = 0
  heap : ∀ e, (cfg.thread i).core.op = .send j (.putIntr e) →
    unallocated (cfg.thread i).queue = true → ∃ a, Block a ∧ cfg.shared.live a = false

/-- The `n`-th `coremu_send_intr` has returned. -/
def Returned (n : ℕ) (t : Thread) : Prop := t.core.op = .idle ∧ t.core.sent = n + 1

/-- A step of the thread that does not access the queue. -/
theorem Sending.after (h : Sending M i j n cfg) {c : Core.Shared} {l : Core.Thread} {x : Choice}
    {e : Event} (hs : step M i cfg.shared (cfg.thread i) x =
      some ({ cfg.shared with cores := c }, { cfg.thread i with core := l }, e))
    (hop : l.op = (cfg.thread i).core.op ∨ ∃ p, l.op = .send j p ∧ ∀ e, p ≠ .putIntr e)
    (hsent : l.sent = (cfg.thread i).core.sent) :
    Sending M i j n
      (cfg.after i { cfg.shared with cores := c } { cfg.thread i with core := l }) := by
  obtain ⟨tr, hrun⟩ := h.run
  refine ⟨⟨_, hrun.step hs⟩, ?_, ?_, ?_, ?_⟩
  all_goals rw [Interleave.Config.after_thread_self]
  · rcases hop with hop | ⟨p, hop, -⟩
    · obtain ⟨p, ho⟩ := h.op
      exact ⟨p, hop.trans ho⟩
    · exact ⟨p, hop⟩
  · exact hsent.trans h.sent
  · exact h.lock
  · intro e ho
    rcases hop with hop | ⟨p, hop, hne⟩
    · exact h.heap e (hop.symm.trans ho)
    · cases hop.symm.trans ho
      exact absurd rfl (hne e)

/-- The next access of the `enqueue` in `coremu_put_intr`. -/
theorem Sending.enqueue (h : Sending M i j n cfg) (hh : (cfg.thread i).core.handler = none)
    {e : Core.Entry} (ho : (cfg.thread i).core.op = .send j (.putIntr e)) : ∃ x s' t' e,
    step M i cfg.shared (cfg.thread i) x = some (s', t', e) ∧ rank t' < rank (cfg.thread i) ∧
      Sending M i j n (cfg.after i s' t') ∧
        (locked (cfg.thread i).queue = true → s'.live = cfg.shared.live) := by
  obtain ⟨tr, hrun⟩ := h.run
  obtain ⟨y, q, p, f, hst, hf, hgo⟩ := exists_enqGoes (s := cfg.shared.lockQueue j)
    (v := e.value) (hrun.queue_ne_deq ho) h.lock (h.heap e ho)
  have hstep := (Step.enqueue (M := M) (i := i) j e y q p f hh ho hst hf).eq_some
  have hrun' := hrun.step hstep
  have hlock : locked p = false → ((cfg.shared.setQueue j q).lockQueue j).tLock = 0 := by
    rw [Shared.lockQueue_setQueue]
    exact hgo.lock
  refine ⟨_, _, _, _, hstep, ?_⟩
  rcases hgo.rank with ⟨hlt, hne⟩ | ⟨hret, rfl, rfl⟩
  · have hsame : { cfg.thread i with queue := p }.afterEnq i j f =
        { cfg.thread i with queue := p } := by
      cases f with
      | retEnq => exact absurd rfl hne
      | _ => rfl
    rw [hsame] at hrun' ⊢
    refine ⟨?_, ⟨⟨_, hrun'⟩, ?_, ?_, ?_, ?_⟩, hgo.held⟩
    · rw [rank_put ho, rank_put (t := { cfg.thread i with queue := p }) ho]
      exact Nat.add_lt_add_left (Nat.add_lt_add_left hlt 10) _
    all_goals rw [Interleave.Config.after_thread_self]
    · exact ⟨_, ho⟩
    · exact h.sent
    · exact hlock
    · intro e' _ hu
      obtain ⟨hold, hlive⟩ := hgo.heap hu hne
      obtain ⟨a, hb, ha⟩ := h.heap e ho hold
      exact ⟨a, hb, (congrFun hlive a).trans ha⟩
  · -- `enqueue` returns
    refine ⟨?_, ⟨⟨_, hrun'⟩, ?_, ?_, ?_, ?_⟩, hgo.held⟩
    · rw [rank_put ho, hret, rank_send (p := afterPut i j) (j := j) rfl (afterPut_ne_putIntr i j)]
      have : sendRank (some (afterPut i j)) ≤ 10 := by
        unfold afterPut
        split <;> simp [sendRank]
      exact Nat.add_lt_add_left (Nat.lt_succ_of_le this) _
    all_goals rw [Interleave.Config.after_thread_self]
    · exact ⟨_, rfl⟩
    · exact h.sent
    · exact hlock
    · intro e' ho'
      exact absurd (Core.Op.send.inj ho').2 (afterPut_ne_putIntr i j e')

/-- **A sender that is not kept waiting has an access** that gets it closer to its return, or
is its return. -/
theorem Sending.step (h : Sending M i j n cfg) : ∃ x s' t' e,
    step M i cfg.shared (cfg.thread i) x = some (s', t', e) ∧ rank t' < rank (cfg.thread i) ∧
      (Sending M i j n (cfg.after i s' t') ∧
          (locked (cfg.thread i).queue = true → s'.live = cfg.shared.live) ∨
        Returned n t' ∧ locked (cfg.thread i).queue = false) := by
  obtain ⟨tr, hrun⟩ := h.run
  obtain ⟨p, ho⟩ := h.op
  cases hh : (cfg.thread i).core.handler with
  | some q =>
    obtain ⟨c, hd, hst, hlt⟩ := handler_step (M := M) (i := i) (s := cfg.shared) hh
    refine ⟨_, _, _, _, hst, ?_, .inl ⟨h.after hst (.inl rfl) rfl, fun _ => rfl⟩⟩
    exact Nat.add_lt_add_right hlt _
  | none =>
    by_cases hput : ∃ e, p = .putIntr e
    · obtain ⟨e, rfl⟩ := hput
      obtain ⟨x, s', t', e', hst, hlt, hnext⟩ := h.enqueue hh ho
      exact ⟨x, s', t', e', hst, hlt, .inl hnext⟩
    · have hne : ∀ e, p ≠ .putIntr e := fun e he => hput ⟨e, he⟩
      obtain ⟨c, r, hst, hlt, hr⟩ := send_step (M := M) (i := i) (s := cfg.shared) hh ho hne
      refine ⟨_, _, _, _, hst, ?_, ?_⟩
      · rw [rank_send ho hne, rank, (Core.Thread.sendNext_frame _ _ _).1]
        refine Nat.add_lt_add_left (lt_of_le_of_lt ?_ hlt) _
        cases r with
        | none => exact Nat.zero_le _
        | some p' =>
          cases p' with
          | putIntr e => exact absurd rfl (hr e)
          | _ => exact le_rfl
      · cases r with
        | some p' =>
          exact .inl ⟨h.after hst (.inr ⟨p', rfl, fun e he => hr e (congrArg some he)⟩) rfl,
            fun _ => rfl⟩
        | none =>
          refine .inr ⟨⟨rfl, congrArg (· + 1) h.sent⟩, ?_⟩
          obtain ⟨V, hV⟩ := hrun.separated
          rw [(hV.thread i).idle (queueOf_eq_none ?_ ?_)]
          · rfl
          · intro m e ho'
            exact absurd (Core.Op.send.inj (ho.symm.trans ho')).2 (hne e)
          · intro ho'
            exact absurd (ho.symm.trans ho') nofun

/-! ### The holder of the lock -/

/-- A lock that is taken has a holder. -/
theorem Run.exists_holds (h : Run M tr cfg) (hj : j < M.smpCpus)
    (hlock : (cfg.shared.lockQueue j).tLock ≠ 0) : ∃ k, Holds j (cfg.thread k) := by
  obtain ⟨v, g, hg⟩ := h.ledger hj
  obtain ⟨_, L, hm⟩ := h.matched
  have hl := hg.inv.1.lock
  cases hh : g.holder with
  | none =>
    rw [hh] at hl
    exact absurd (hg.view.within.tLock.symm.trans hl) hlock
  | some k =>
    have hk : LockQueue.ThreadInv j g v.shared k (v.thread k).queue := hg.inv.2 k
    rw [hg.view.thread k] at hk
    by_cases hq : queueOf k (cfg.thread k).core = some j
    · have hfit := hm.tracks.fitting k
      rw [show (queueThread j k (cfg.thread k)).queue = _ from if_pos hq] at hk
      unfold Fitting at hfit
      cases hp : (cfg.thread k).queue with
      | idle =>
        rw [hp] at hk
        exact absurd hh hk.2.1
      | deq p =>
        rw [hp] at hk
        exact absurd hh hk.2.1
      | enq p =>
        rw [hp] at hk hfit
        obtain ⟨m, e, ho⟩ := hfit
        rw [queueOf_send ho, Option.some.injEq] at hq
        subst hq
        exact ⟨k, ⟨e, ho⟩, by rw [hp]; exact hk.2.1.mpr hh⟩
    · rw [show (queueThread j k (cfg.thread k)).queue = _ from if_neg hq] at hk
      exact absurd hh hk.2.1

/-- A thread that has the lock is not kept waiting. -/
theorem Holds.sending (h : Holds j (cfg.thread k)) (hrun : Run M tr cfg) :
    Sending M k j (cfg.thread k).core.sent cfg := by
  obtain ⟨⟨e, ho⟩, hlocked⟩ := h
  refine ⟨⟨tr, hrun⟩, ⟨_, ho⟩, rfl, fun hl => ?_, fun _ _ hu => ?_⟩
  · exact absurd (hlocked.symm.trans hl) nofun
  · exact absurd ((unallocated_of_locked hlocked).symm.trans hu) nofun

/-- Thread `k` is on its way from `cfg₀`, where it has the lock of the queue of core `j`, to
the release of the lock. -/
structure Releasing (M : Machine) (k j : ℕ) (cfg₀ cfg : Config) : Prop where
  run : ∃ tr, Run M tr cfg
  sending : (cfg.shared.lockQueue j).tLock = 0 ∨ Sending M k j (cfg₀.thread k).core.sent cfg
  live : cfg.shared.live = cfg₀.shared.live
  others : ∀ m, m ≠ k → cfg.thread m = cfg₀.thread m

theorem Releasing.step {cfg₀ : Config} (h : Releasing M k j cfg₀ cfg)
    (hlock : (cfg.shared.lockQueue j).tLock ≠ 0) : ∃ x s' t' e,
    step M k cfg.shared (cfg.thread k) x = some (s', t', e) ∧
      Releasing M k j cfg₀ (cfg.after k s' t') ∧ rank t' < rank (cfg.thread k) := by
  have hs := h.sending.resolve_left hlock
  have hlocked : locked (cfg.thread k).queue = true := by
    by_contra hl
    exact hlock (hs.lock (by simpa using hl))
  obtain ⟨x, s', t', e, hst, hlt, ⟨hs', hsame⟩ | ⟨-, hl⟩⟩ := hs.step
  · refine ⟨x, s', t', e, hst, ⟨hs'.run, .inr hs', (hsame hlocked).trans h.live, ?_⟩, hlt⟩
    intro m hm
    rw [Interleave.Config.after_thread_of_ne _ _ _ hm]
    exact h.others m hm
  · exact absurd (hlocked.symm.trans hl) nofun

/-- The holder can free the lock by a bounded number of its own steps. -/
theorem Holds.release (h : Holds j (cfg.thread k)) (hrun : Run M tr cfg) :
    ∃ tr' cfg', (program M).From (· = k) cfg tr' cfg' ∧ tr'.length ≤ rank (cfg.thread k) ∧
      Releasing M k j cfg cfg' ∧ (cfg'.shared.lockQueue j).tLock = 0 := by
  refine Interleave.Program.exists_from_of_rank (fun c => rank (c.thread k)) ?_
    ⟨⟨tr, hrun⟩, .inr (h.sending hrun), rfl, fun _ _ => rfl⟩
  intro c hc hlock
  obtain ⟨x, s', t', e, hst, hc', hlt⟩ := hc.step hlock
  refine ⟨k, x, s', t', e, rfl, hst, hc', ?_⟩
  rw [Interleave.Config.after_thread_self]
  exact hlt

/-- A sender that is not kept waiting can return by itself. -/
theorem Sending.returns (h : Sending M i j n cfg) :
    ∃ tr' cfg', (program M).From (· = i) cfg tr' cfg' ∧ tr'.length ≤ rank (cfg.thread i) ∧
      (Sending M i j n cfg' ∨ Returned n (cfg'.thread i)) ∧ Returned n (cfg'.thread i) := by
  refine Interleave.Program.exists_from_of_rank (fun c => rank (c.thread i)) ?_ (.inl h)
  intro c hc hne
  obtain ⟨x, s', t', e, hst, hlt, hnext⟩ := (hc.resolve_right hne).step
  refine ⟨i, x, s', t', e, rfl, hst, ?_, ?_⟩
  · rw [Interleave.Config.after_thread_self]
    exact hnext.imp And.left And.left
  · rw [Interleave.Config.after_thread_self]
    exact hlt

theorem rank_le {t : Thread} {p : Core.SendPc} (ho : t.core.op = .send j p) : rank t ≤ 31 := by
  have hh := handlerRank_le t.core.handler
  have hq : enqRank t.queue ≤ 11 := by
    cases hq : t.queue with
    | enq r => cases r <;> simp [enqRank]
    | _ => simp [enqRank]
  have hs : sendRank (some p) ≤ 10 := by cases p <;> simp [sendRank]
  by_cases hput : ∃ e, p = .putIntr e
  · obtain ⟨e, rfl⟩ := hput
    rw [rank_put ho]
    omega
  · rw [rank_send ho fun e he => hput ⟨e, he⟩]
    omega

/-- **A send can return after a bounded number of steps of two threads**: from every reachable
state, a thread inside `coremu_send_intr` to core `j` can return from it within 62 steps, of
its own and of the thread that has the lock of the queue of core `j`, if there is a block to
allocate. -/
theorem system_send_returns (h : Run M tr cfg) {p : Core.SendPc}
    (ho : (cfg.thread i).core.op = .send j p)
    (hfree : ∃ a, Block a ∧ cfg.shared.live a = false) :
    ∃ tr' cfg', (program M).From (fun k => k = i ∨ Holds j (cfg.thread k)) cfg tr' cfg' ∧
      tr'.length ≤ 62 ∧ (cfg'.thread i).core.op = .idle ∧
        (cfg'.thread i).core.sent = (cfg.thread i).core.sent + 1 := by
  have hri := rank_le ho
  by_cases hwait : locked (cfg.thread i).queue = false ∧ (cfg.shared.lockQueue j).tLock ≠ 0
  · -- the lock is taken by another thread, which frees it first
    obtain ⟨k, hk⟩ := h.exists_holds (h.send_lt ho) hwait.2
    have hki : i ≠ k := by
      rintro rfl
      exact absurd (hk.2.symm.trans hwait.1) nofun
    obtain ⟨tr₁, cfg₁, hfrom₁, hlen₁, hrel, hlock⟩ := hk.release h
    have hi := hrel.others i hki
    have hsend : Sending M i j (cfg.thread i).core.sent cfg₁ := by
      refine ⟨hrel.run, ⟨p, by rw [hi]; exact ho⟩, by rw [hi], fun _ => hlock, fun _ _ _ => ?_⟩
      rw [hrel.live]
      exact hfree
    obtain ⟨tr₂, cfg₂, hfrom₂, hlen₂, -, hret⟩ := hsend.returns
    obtain ⟨e, hok⟩ := hk.1
    have hrk := rank_le hok
    rw [hi] at hlen₂
    refine ⟨tr₁ ++ tr₂, cfg₂, (hfrom₁.mono ?_).append hfrom₂ ?_, ?_, hret⟩
    · rintro _ _ _ _ rfl
      exact .inr hk
    · rintro _ _ _ _ rfl
      exact .inl rfl
    · rw [List.length_append]
      omega
  · have hsend : Sending M i j (cfg.thread i).core.sent cfg := by
      refine ⟨⟨tr, h⟩, ⟨p, ho⟩, rfl, fun hl => ?_, fun _ _ _ => hfree⟩
      by_contra hne
      exact hwait ⟨hl, hne⟩
    obtain ⟨tr₂, cfg₂, hfrom₂, hlen₂, -, hret⟩ := hsend.returns
    refine ⟨tr₂, cfg₂, hfrom₂.mono ?_, by omega, hret⟩
    rintro _ _ _ _ rfl
    exact .inl rfl

/-- The thread is inside the `coremu_put_intr` of a send to core `j`. -/
def putting (j : ℕ) (t : Thread) : Bool :=
  match t.core.op with
  | .send m (.putIntr _) => decide (m = j)
  | _ => false

theorem exists_of_putting {t : Thread} (h : putting j t = true) :
    ∃ e, t.core.op = .send j (.putIntr e) := by
  unfold putting at h
  split at h
  · next m e ho =>
    rw [decide_eq_true_eq] at h
    exact ⟨e, h ▸ ho⟩
  · cases h

/-- Thread 2 sends 5 to core 1 up to its link, and core 0 sends 7 to core 1 up to the lock. -/
def spinSteps : List (ℕ × Choice) :=
  (2, .core (.sendIntr 5 1)) ::
    ((LockQueue.enqueueSteps 2 5 64).take 6).map (fun p => (p.1, .queue p.2)) ++
  (0, .core (.sendIntr 7 1)) ::
    ((LockQueue.enqueueSteps 0 7 80).take 5).map (fun p => (p.1, .queue p.2))

/-- Core 0 waits for thread 2, and the block at 96 is free. -/
def spinTest (_ : List (ℕ × Event)) (cfg : Config) : Bool :=
  putting 1 (cfg.thread 0) && !locked (cfg.thread 0).queue &&
    (putting 1 (cfg.thread 2) && locked (cfg.thread 2).queue) && !cfg.shared.live 96

/-- Core 0 spins on a lock that thread 2 has, and can return all the same. -/
theorem system_send_returns_spinning : ∃ tr cfg, Run Core.twoOnOne tr cfg ∧
    (∃ e, (cfg.thread 0).core.op = .send 1 (.putIntr e)) ∧ locked (cfg.thread 0).queue = false ∧
      Holds 1 (cfg.thread 2) ∧ (∃ a, Block a ∧ cfg.shared.live a = false) ∧
        ∃ tr' cfg', (program Core.twoOnOne).From (fun k => k = 0 ∨ Holds 1 (cfg.thread k)) cfg
          tr' cfg' ∧ (cfg'.thread 0).core.op = .idle := by
  obtain ⟨tr, cfg, hr, ht⟩ : ∃ tr cfg, Run Core.twoOnOne tr cfg ∧ spinTest tr cfg = true :=
    Interleave.Program.exists_run_of_exec (fun _ _ _ _ => true) (fun _ _ _ _ _ => trivial)
      booted_bootTwo spinSteps spinTest (by decide)
  simp only [spinTest, Bool.and_eq_true, Bool.not_eq_true'] at ht
  obtain ⟨⟨⟨hput, hl⟩, hput₂, hl₂⟩, hfree⟩ := ht
  obtain ⟨e, ho⟩ := exists_of_putting hput
  have hblock : ∃ a, Block a ∧ cfg.shared.live a = false := ⟨96, by decide, hfree⟩
  obtain ⟨tr', cfg', hfrom, -, hidle, -⟩ := system_send_returns hr ho hblock
  exact ⟨tr, cfg, hr, ⟨e, ho⟩, hl, ⟨exists_of_putting hput₂, hl₂⟩, hblock, tr', cfg', hfrom, hidle⟩

end Coremu.System

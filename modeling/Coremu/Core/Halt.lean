import Coremu.Core.Pause

/-!
# Sleeping on an interrupt

`sched_halted` stores `CM_STATE_HALT` and sleeps for at most 5 ms, without looking at the
queue again.  A sender that finds the core halted signals it whatever the threshold says,
and the signal ends the sleep.

The signal may come before the sleep, though: then its handler has run, nobody signals
again, and the core sleeps on the interrupt.  What the code does ensure is about the
interrupts that arrive during the sleep: a sender finds the core halted, or another sender
has stored `CM_STATE_RUN` in between and signals it.  A `pthread_kill` that fails would leave
the core asleep, so none may.

## Main definitions

* `Signalled` — a signal is undelivered, or a sender is about to send one.
* `Looking` — the sender of an interrupt has not decided yet.
* `HaltInv` — the invariant.

## Main results

* `halted_signalled` — **a core that sleeps on an interrupt which arrived during the sleep
  is signalled**, once its `coremu_send_intr` has returned.
* `halted_unsignalled` — **of an earlier interrupt it need not be.**
-/

namespace Coremu.Core

variable {M : Machine} {c i j n : ℕ} {s s' : Shared} {t t' : Thread} {x : Choice} {ev : Event}
variable {cfg : Config} {k : CMCore}

/-! ### How a core falls asleep and how an interrupt is sent -/

/-- A core that is asleep was so before and only its handler has moved, or it has just
gone to sleep. -/
theorem step_asleep (hs : Step M c s t x s' t' ev)
    (ho : t'.op = .sched .halted (.sleep n .halt)) :
    (t.op = .sched .halted (.sleep n .halt) ∧ (s'.core c).intrQueue = (s.core c).intrQueue ∧
      (s'.core c).state = (s.core c).state ∧ (s'.core c).undelivered = (s.core c).undelivered) ∨
    (n = (s'.core c).intrQueue.length ∧ (s'.core c).state = .halt) := by
  have hfrom : ∀ m, (M.waitFrom m t).1.op ≠ .sched .halted (.sleep n .halt) := by
    intro m hm
    rcases waitFrom_op M m t with h | h <;> (rw [h] at hm; cases hm)
  cases hs with
  | handler p now hh =>
    left
    rw [Shared.setCore_core_self]
    cases p <;> exact ⟨ho, rfl, rfl, rfl⟩
  | signal hh hu =>
    cases hop : t.op with
    | sched e p => cases p <;> (rw [hop] at ho; cases ho)
    | _ => rw [hop] at ho; cases ho
  | send j p now hh hop =>
    cases hr : (sendIntr M c j (s.core j) p).2 <;> (rw [hr] at ho; cases ho)
  | sched e p now hh hop =>
    cases p with
    | nanosleep =>
      right
      rw [Shared.setCore_core_self]
      simp only [sched, Thread.schedNext, Op.sched.injEq, SleepPc.sleep.injEq] at ho
      exact ⟨ho.2.1.symm, ho.2.2⟩
    | setRun => cases e <;> cases ho
    | setState | sleep _ _ => cases ho
  | pauseCore p now _ r hh hop hp => cases r <;> cases ho
  | wait j all p now _ r hh hop hp =>
    cases r with
    | some p' => cases all <;> cases ho
    | none =>
      cases all with
      | false => cases ho
      | true => exact absurd ho (hfrom (j + 1))
  | callSched e hh hop hi hr =>
    rcases cpuSched_op e t with ⟨h, -⟩ | h | h
    · rw [h, hop] at ho
      cases ho
    all_goals
      rw [h] at ho
      cases ho
  | yield | callSend | callPause | callWait | spurious | killFails => cases ho
  | callWaitAll hh hop _ => exact absurd ho (hfrom 0)
  | receive now hh hop | callReceive hh hop | restart hh hop =>
    rw [hop] at ho
    cases ho

/-- A thread that is about to enqueue was so before, or has just called
`coremu_send_intr`. -/
theorem step_putIntr (hs : Step M i s t x s' t' ev) {e : Entry}
    (ho : t'.op = .send j (.putIntr e)) :
    (t.op = .send j (.putIntr e) ∧ t'.sent = t.sent) ∨ e.sender = i ∧ e.seq = t'.sent := by
  cases step_op hs with
  | keep hop hsent => exact .inl ⟨hop.symm.trans ho, hsent⟩
  | interrupted hop hsent =>
    exact .inl ⟨Op.eq_of_interrupted (hop.symm.trans ho) (by simp), hsent⟩
  | send j' p p' _ hr hop =>
    rw [ho, Op.send.injEq] at hop
    exact absurd (hop.2 ▸ hr) (sendIntr_ne_putIntr e p)
  | callSend intr j' hop =>
    rw [ho] at hop
    cases hop
    exact .inr ⟨rfl, rfl⟩
  | ret hop | sched _ _ hop | yield hop | callPause hop | callWait _ hop | callWaitAll hop =>
    rw [ho] at hop
    cases hop
  | pauseCore _ _ _ _ hop | spurious _ _ _ hop | wait _ _ _ _ _ _ _ _ _ hop | next _ _ hop =>
    rw [ho] at hop
    cases hop

/-! ### The invariant -/

/-- A signal to core `c` is undelivered, or a sender is on its way to its
`pthread_kill`. -/
def Signalled (c : ℕ) (cfg : Config) : Prop :=
  0 < (cfg.shared.core c).undelivered ∨
    ∃ i p, (cfg.thread i).sending c = some p ∧ p.willKill = true

/-- The sender is past its `enqueue`, and may still find out that the core is halted. -/
def SendPc.undecided : SendPc → Bool
  | .putIntr _ | .notifier | .isPause => false
  | _ => true

/-- The sender of `e` is still in its send to core `c`, and undecided. -/
def Looking (c : ℕ) (e : Entry) (cfg : Config) : Prop :=
  e.seq = (cfg.thread e.sender).sent ∧
    ∃ p, (cfg.thread e.sender).sending c = some p ∧ p.undecided = true

/-- What holds while core `c` sleeps and its queue had `n` interrupts before. -/
structure Asleep (c n : ℕ) (cfg : Config) : Prop where
  /-- Who has changed the state sends a signal. -/
  state : (cfg.shared.core c).state ≠ .halt → Signalled c cfg
  /-- Who has sent a new interrupt finds the core halted, or signalled. -/
  new : ∀ e ∈ (cfg.shared.core c).intrQueue.drop n, Signalled c cfg ∨ Looking c e cfg

structure HaltInv (c : ℕ) (cfg : Config) : Prop where
  own : ∀ i j e, (cfg.thread i).op = .send j (.putIntr e) →
    e.sender = i ∧ e.seq = (cfg.thread i).sent
  asleep : ∀ n, (cfg.thread c).op = .sched .halted (.sleep n .halt) → Asleep c n cfg

theorem haltInv_start (c : ℕ) : HaltInv c start := by
  refine ⟨fun i j e ho => ?_, fun n ho => ?_⟩
  · cases ho
  · cases ho

/-! ### A step of a send -/

/-- An undecided sender stays so, has sent its signal, or has found that the core is not
halted. -/
theorem sendIntr_undecided {p : SendPc} (hp : p.undecided = true) :
    (∃ p', (sendIntr M i j k p).2 = some p' ∧ p'.undecided = true) ∨
      0 < (sendIntr M i j k p).1.undelivered ∨ k.state ≠ .halt := by
  have hunsent : M.unsent.undecided = true := by
    unfold Machine.unsent
    split <;> rfl
  cases p with
  | threshHold pendingIntr =>
    refine .inl ⟨_, rfl, ?_⟩
    split
    · rfl
    · exact hunsent
  | belowMax =>
    refine .inl ⟨_, rfl, ?_⟩
    split
    · rfl
    · exact hunsent
  | sigPending =>
    refine .inl ⟨_, rfl, ?_⟩
    split <;> rfl
  | raise v => exact .inl ⟨_, rfl, hunsent⟩
  | isHalt =>
    by_cases hst : k.state = .halt
    · refine .inl ⟨.setPriority, ?_, rfl⟩
      simp only [sendIntr, if_pos hst]
    · exact .inr (.inr hst)
  | kill => exact .inr (.inl (Nat.succ_pos _))
  | getSize | setSigPending | setRun | readThreshHold | setPriority => exact .inl ⟨_, rfl, rfl⟩
  | putIntr _ | notifier | isPause => cases hp

/-- The core after an access of a send, and the interrupts that are new on its queue. -/
theorem sendIntr_queue (n : ℕ) (p : SendPc) {e : Entry}
    (he : e ∈ (sendIntr M i j k p).1.intrQueue.drop n) :
    e ∈ k.intrQueue.drop n ∨ p = .putIntr e := by
  cases p with
  | putIntr e' =>
    have he' : e ∈ (k.intrQueue ++ [e']).drop n := he
    rw [List.drop_append, List.mem_append] at he'
    rcases he' with he' | he'
    · exact .inl he'
    · rw [List.mem_singleton.mp (List.mem_of_mem_drop he')]
      exact .inr rfl
  | _ => exact .inl he

theorem Signalled.send {p : SendPc} (h : Signalled c cfg)
    (ho : (cfg.thread i).sending c = some p)
    (hk : s'.core c = (sendIntr M i c (cfg.shared.core c) p).1) :
    Signalled c (cfg.after i s' ((cfg.thread i).sendNext c
      (sendIntr M i c (cfg.shared.core c) p).2)) := by
  unfold Signalled
  rw [Interleave.Config.after_shared, hk]
  rcases h with hu | hex
  · exact .inl (lt_of_lt_of_le hu (sendIntr_undelivered _ p))
  · refine exists_sending_after (Q := fun q => q.willKill = true) hex (fun _ hq => hq) ?_
    intro q hq hw
    rw [ho, Option.some.injEq] at hq
    subst hq
    rw [Thread.sending_sendNext]
    exact sendIntr_willKill hw

theorem Signalled.frame (h : Signalled c cfg)
    (hu : (s'.core c).undelivered = (cfg.shared.core c).undelivered)
    (hs : ∀ p, (cfg.thread i).sending c = some p → t'.sending c = some p) :
    Signalled c (cfg.after i s' t') := by
  unfold Signalled
  rw [Interleave.Config.after_shared, hu]
  rcases h with hu | hex
  · exact .inl hu
  · exact exists_sending_after (Q := fun q => q.willKill = true) hex (fun _ hq => hq)
      fun p hp hw => .inr ⟨p, hs p hp, hw⟩

theorem Looking.frame {e : Entry} (h : Looking c e cfg)
    (hs : e.sender = i → ∀ p, (cfg.thread i).sending c = some p →
      t'.sending c = some p ∧ t'.sent = (cfg.thread i).sent) :
    Looking c e (cfg.after i s' t') := by
  obtain ⟨hseq, p, hp, hun⟩ := h
  by_cases hi : e.sender = i
  · obtain ⟨hp', hsent⟩ := hs hi p (hi ▸ hp)
    unfold Looking
    rw [hi, Interleave.Config.after_thread_self, hsent, hp']
    exact ⟨hi ▸ hseq, p, rfl, hun⟩
  · unfold Looking
    rw [Interleave.Config.after_thread_of_ne _ _ _ hi]
    exact ⟨hseq, p, hp, hun⟩

/-- A step of a send to a sleeping core. -/
theorem Asleep.send {p : SendPc} (h : Asleep c n cfg) (hc : c ≠ i)
    (ho : (cfg.thread i).op = .send c p)
    (hown : ∀ e, p = .putIntr e → e.sender = i ∧ e.seq = (cfg.thread i).sent)
    (hk : s'.core c = (sendIntr M i c (cfg.shared.core c) p).1) :
    Asleep c n (cfg.after i s' ((cfg.thread i).sendNext c
      (sendIntr M i c (cfg.shared.core c) p).2)) := by
  set k := cfg.shared.core c with hk₀
  set r := (sendIntr M i c k p).2 with hr₀
  have hsend := Thread.sending_of_send ho
  have hkeep : Signalled c cfg → Signalled c (cfg.after i s' ((cfg.thread i).sendNext c r)) :=
    fun hw => hw.send hsend hk
  have hnext := (cfg.thread i).sending_sendNext (c := c) r
  -- a sender that has not returned has sent as much as before
  have hlook : ∀ e, e.sender = i → e.seq = (cfg.thread i).sent →
      (∃ p', r = some p' ∧ p'.undecided = true) →
        Looking c e (cfg.after i s' ((cfg.thread i).sendNext c r)) := by
    rintro e rfl hseq ⟨p', hr, hun⟩
    unfold Looking
    rw [Interleave.Config.after_thread_self, hnext, hr]
    exact ⟨hseq, p', rfl, hun⟩
  constructor
  · rw [Interleave.Config.after_shared, hk]
    intro hst
    rcases sendIntr_state (M := M) (i := i) (j := c) k p with hsame | ⟨-, hp⟩
    · exact hkeep (h.state (hsame ▸ hst))
    · -- line 84: the sender is going to signal the core
      cases p with
      | setRun =>
        refine .inr ⟨i, .setPriority, ?_, rfl⟩
        rw [Interleave.Config.after_thread_self, hnext]
        rfl
      | _ => cases hp
  · rw [Interleave.Config.after_shared, hk]
    intro e he
    rcases sendIntr_queue n p he with hold | rfl
    · rcases h.new e hold with hw | hl
      · exact .inl (hkeep hw)
      · by_cases hi : e.sender = i
        · obtain ⟨hseq, q, hq, hun⟩ := hl
          rw [hi] at hseq hq
          rw [hsend, Option.some.injEq] at hq
          subst hq
          rcases sendIntr_undecided (M := M) (i := i) (j := c) (k := k) hun with hex | hu | hst
          · exact .inr (hlook e hi hseq hex)
          · refine .inl (.inl ?_)
            rw [Interleave.Config.after_shared, hk]
            exact hu
          · -- the state has been changed before, so a signal comes anyway
            exact .inl (hkeep (h.state hst))
        · exact .inr (hl.frame fun hi' => absurd hi' hi)
    · -- the interrupt has just arrived, from another thread
      obtain ⟨hi, hseq⟩ := hown e rfl
      refine .inr (hlook e hi hseq ⟨.getSize, ?_, rfl⟩)
      simp only [hr₀, sendIntr, if_neg (Ne.symm hc)]

theorem Asleep.frame (h : Asleep c n cfg)
    (hq : (s'.core c).intrQueue = (cfg.shared.core c).intrQueue)
    (hst : (s'.core c).state = (cfg.shared.core c).state)
    (hu : (s'.core c).undelivered = (cfg.shared.core c).undelivered)
    (hs : ∀ p, (cfg.thread i).sending c = some p → t'.sending c = some p ∧
      t'.sent = (cfg.thread i).sent) :
    Asleep c n (cfg.after i s' t') := by
  have hkeep : Signalled c cfg → Signalled c (cfg.after i s' t') :=
    fun hw => hw.frame hu fun p hp => (hs p hp).1
  constructor
  · rw [Interleave.Config.after_shared, hst]
    exact fun hne => hkeep (h.state hne)
  · rw [Interleave.Config.after_shared, hq]
    intro e he
    exact (h.new e he).imp hkeep fun hl => hl.frame fun _ => hs

/-- **A step keeps the invariant.** -/
theorem HaltInv.step (h : HaltInv c cfg) (hx : x.Delivers)
    (hs : Step M i cfg.shared (cfg.thread i) x s' t' ev) : HaltInv c (cfg.after i s' t') := by
  constructor
  · refine Interleave.Config.forall_after (T := fun i (t : Thread) => ∀ j e,
      t.op = .send j (.putIntr e) → e.sender = i ∧ e.seq = t.sent) ?_ fun j _ => h.own j
    intro j e ho
    rcases step_putIntr hs ho with ⟨hold, hsent⟩ | hnew
    · rw [hsent]
      exact h.own i j e hold
    · exact hnew
  · intro n ho
    by_cases hc : c = i
    · subst hc
      rw [Interleave.Config.after_thread_self] at ho
      rcases step_asleep hs ho with ⟨hold, hq, hst, hu⟩ | ⟨rfl, hst⟩
      · refine (h.asleep n hold).frame hq hst hu fun p hp => ?_
        simp only [Thread.sending, hold] at hp
        cases hp
      · -- it has just gone to sleep: nothing is new
        refine ⟨fun hne => absurd hst hne, fun e he => ?_⟩
        rw [Interleave.Config.after_shared, List.drop_length] at he
        cases he
    · rw [Interleave.Config.after_thread_of_ne _ _ _ hc] at ho
      cases core_cases c hs with
      | send p now _ _ hop hk ht =>
        subst ht
        refine (h.asleep n ho).send hc hop (fun e hp => ?_) hk
        exact h.own i c e (hp ▸ hop)
      | handler _ _ hi | signal hi | receive _ hi => exact absurd hi.symm hc
      | killFails hh hf => exact absurd hf hx
      | other _ _ hk _ hsend =>
        replace hk := hk (Ne.symm hc)
        refine (h.asleep n ho).frame (by rw [hk]) (by rw [hk]) (by rw [hk]) fun p hp => ?_
        rcases hsend with ⟨hsame, hsent⟩ | ⟨hnone, -⟩
        · exact ⟨hsame.trans hp, hsent⟩
        · rw [hnone] at hp
          cases hp

theorem DeliveredRun.haltInv {tr : List (ℕ × Event)} (h : DeliveredRun M tr cfg) :
    HaltInv c cfg := by
  refine Interleave.Program.Run.induct (J := fun _ cfg => HaltInv c cfg) ?_ ?_ h
  · rintro _ rfl
    exact haltInv_start c
  · intro tr cfg i x s' t' e ih hx hs
    exact ih.step hx (step_cases hs)

/-- **A core that sleeps on an interrupt which arrived during the sleep is signalled**: if
core `c` is inside the `nanosleep` of `sched_halted`, which it has entered in
`CM_STATE_HALT` with `n` interrupts on its queue, and the send of a later one has
returned, then a signal is undelivered or about to be sent.  Every `pthread_kill` is taken to
lead to a run of the handler. -/
theorem halted_signalled {tr : List (ℕ × Event)} (h : DeliveredRun M tr cfg)
    (ho : (cfg.thread c).op = .sched .halted (.sleep n .halt)) {e : Entry}
    (he : e ∈ (cfg.shared.core c).intrQueue.drop n)
    (hd : e.seq < (cfg.thread e.sender).sent) : Signalled c cfg := by
  rcases ((DeliveredRun.haltInv h).asleep n ho).new e he with hw | hl
  · exact hw
  · exact absurd hl.1 (ne_of_lt hd)

/-- The size of the queue when the core has gone to sleep, in `CM_STATE_HALT`. -/
def Op.haltedSize : Op → Option ℕ
  | .sched .halted (.sleep n .halt) => some n
  | _ => none

theorem Op.eq_of_haltedSize {op : Op} (h : op.haltedSize = some n) :
    op = .sched .halted (.sleep n .halt) := by
  unfold Op.haltedSize at h
  split at h
  · cases h; rfl
  · cases h

/-- Thread 2 sends an interrupt to core 0 while that sleeps. -/
theorem halted_signalled_asleep : ∃ tr cfg n e, DeliveredRun twoOnOne tr cfg ∧
    (cfg.thread 0).op = .sched .halted (.sleep n .halt) ∧
      e ∈ (cfg.shared.core 0).intrQueue.drop n ∧ e.seq < (cfg.thread e.sender).sent ∧
        Signalled 0 cfg := by
  obtain ⟨tr, cfg, hr, ht⟩ : ∃ tr cfg, DeliveredRun twoOnOne tr cfg ∧
      decide ((cfg.thread 0).op.haltedSize = some 0 ∧
        ⟨2, 0, 7⟩ ∈ (cfg.shared.core 0).intrQueue.drop 0 ∧ 0 < (cfg.thread 2).sent) = true :=
    Interleave.Program.exists_run_of_exec (P := program twoOnOne) (fun _ _ _ x => x.plain)
      (fun _ _ _ _ => Choice.delivers_of_plain) started_start
      ((0, .cpuSched .halted) :: goes 0 2 ++ sends 2 8)
      (fun _ cfg => decide ((cfg.thread 0).op.haltedSize = some 0 ∧
        ⟨2, 0, 7⟩ ∈ (cfg.shared.core 0).intrQueue.drop 0 ∧ 0 < (cfg.thread 2).sent)) (by decide)
  obtain ⟨hop, he, hsent⟩ := of_decide_eq_true ht
  have ho := Op.eq_of_haltedSize hop
  exact ⟨tr, cfg, 0, _, hr, ho, he, hsent, halted_signalled hr ho he hsent⟩

/-- Core 0 finds its queue empty.  Thread 2 sends it an interrupt and signals it, and the
handler runs.  Then the core halts. -/
def missedSteps : List (ℕ × Choice) :=
  (0, .receiveIntr) :: goes 0 1 ++ sends 2 8 ++ (0, .signal) :: goes 0 6 ++
    (0, .cpuSched .halted) :: goes 0 2

/-- The thread is inside the `nanosleep` of `sched_halted`. -/
def Op.sleepsHalted : Op → Bool
  | .sched .halted (.sleep _ _) => true
  | _ => false

/-- **A core may sleep on an interrupt and nobody signals it**: the send has returned, and
its signal has come before the sleep. -/
theorem halted_unsignalled : twoOnOne.physicalCoreEnoughP = false ∧ ∃ tr cfg e,
    PlainRun twoOnOne tr cfg ∧ (cfg.thread 0).op.sleepsHalted = true ∧
      e ∈ (cfg.shared.core 0).intrQueue ∧ e.seq < (cfg.thread e.sender).sent ∧
        ¬ Signalled 0 cfg := by
  refine ⟨by decide, ?_⟩
  obtain ⟨tr, cfg, hr, hcfg, ht⟩ : ∃ tr cfg, PlainRun twoOnOne tr cfg ∧
      (∀ j, ¬ j < 3 → cfg.thread j = start.thread j) ∧
        ((cfg.thread 0).op.sleepsHalted && (sendsDone 3 cfg &&
          decide (⟨2, 0, 7⟩ ∈ (cfg.shared.core 0).intrQueue ∧ 0 < (cfg.thread 2).sent ∧
            (cfg.shared.core 0).undelivered = 0))) = true :=
    Interleave.Program.exists_run_of_exec_within (P := program twoOnOne) (c := start) (· < 3)
      (fun _ _ _ x => x.plain) (fun _ _ _ _ _ hp => hp) started_start missedSteps (by decide)
      (fun _ cfg => (cfg.thread 0).op.sleepsHalted && (sendsDone 3 cfg &&
        decide (⟨2, 0, 7⟩ ∈ (cfg.shared.core 0).intrQueue ∧ 0 < (cfg.thread 2).sent ∧
          (cfg.shared.core 0).undelivered = 0))) (by decide)
  obtain ⟨hop, ht⟩ := Bool.and_eq_true_iff.mp ht
  obtain ⟨hdone, hd⟩ := Bool.and_eq_true_iff.mp ht
  obtain ⟨he, hsent, hund⟩ := of_decide_eq_true hd
  refine ⟨tr, cfg, _, hr, hop, he, hsent, ?_⟩
  rintro (hu | ⟨i, p, hp, -⟩)
  · omega
  · rw [sending_of_sendsDone hcfg hdone i] at hp
    cases hp

end Coremu.Core

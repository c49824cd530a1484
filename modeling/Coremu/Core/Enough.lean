import Coremu.Core.Wakeup

/-!
# A processor for every core

On a host with at least as many processors as there are emulated cores, `coremu_send_signal`
sends its signal whatever the threshold, the flag `sig_pending` and the state of the core
say.  The threshold is still read, raised and lowered by senders and handlers in the same
racy way, but no wakeup depends on it: whoever has enqueued an interrupt for a core is on
its way to a `pthread_kill`, or to `event_notifier` if it is the core itself.  That is enough
if every `pthread_kill` leads to a run of the handler, and if no interrupt is `NULL`.

## Main definitions

* `SendPc.willNotify` — the sender has enqueued, and will notify the core.
* `EnoughInv` — what holds of a core.

## Main results

* `EnoughInv.step` — a step keeps the invariant.
* `ReliableRun.enoughInv` — it holds in every run in which no signal gets lost and no `NULL` is
  sent.
* `EnoughInv.notified` — whenever nobody is sending to a core with pending interrupts, the
  core is notified.
-/

namespace Coremu.Core

variable {M : Machine} {c i j : ℕ} {k : CMCore} {cfg : Config} {s' : Shared} {t' : Thread}
variable {p : SendPc}

/-! ### A sender that notifies -/

/-- The sender tests the state of the core, to see whether the signal is needed. -/
def SendPc.testsState : SendPc → Bool
  | .isHalt | .isPause => true
  | _ => false

/-- The sender has enqueued its interrupt, and does not ask whether the signal is needed. -/
def SendPc.willNotify : SendPc → Bool
  | .putIntr _ | .isHalt | .isPause => false
  | _ => true

theorem SendPc.testsState_of_willNotify (h : p.willNotify = true) : p.testsState = false := by
  cases p <;> first | rfl | cases h

theorem Machine.unsent_willNotify (hM : M.physicalCoreEnoughP = true) :
    M.unsent.willNotify = true := by
  simp [Machine.unsent, hM, SendPc.willNotify]

/-- A send that goes on will notify the core. -/
theorem sendIntr_next {p' : SendPc} (hM : M.physicalCoreEnoughP = true)
    (hp : p.testsState = false) (h : (sendIntr M i j k p).2 = some p') : p'.willNotify = true := by
  have hun := Machine.unsent_willNotify hM
  cases p with
  | notifier | kill => cases h
  | isHalt | isPause => cases hp
  | raise v =>
    cases h
    exact hun
  | threshHold pendingIntr | belowMax =>
    cases h
    split
    · rfl
    · exact hun
  | putIntr e | sigPending =>
    cases h
    split <;> rfl
  | getSize | setSigPending | setRun | readThreshHold | setPriority =>
    cases h
    rfl

/-- A send that returns has notified the core. -/
theorem sendIntr_last (hp : p.testsState = false) (h : (sendIntr M i j k p).2 = none) :
    0 < (sendIntr M i j k p).1.undelivered ∨ (sendIntr M i j k p).1.drain = true := by
  cases p with
  | notifier => exact .inr rfl
  | kill => exact .inl (Nat.succ_pos _)
  | isHalt | isPause => cases hp
  | _ => cases h

/-- A sender withdraws no request to drain. -/
theorem sendIntr_drain (p : SendPc) (h : k.drain = true) :
    (sendIntr M i j k p).1.drain = true := by
  cases p with
  | notifier => rfl
  | _ => exact h

/-! ### The invariant -/

/-- What holds of core `c` on a host with enough processors. -/
structure EnoughInv (c : ℕ) (cfg : Config) : Prop where
  /-- No sender asks whether its signal is needed. -/
  send : ∀ i p, (cfg.thread i).sending c = some p → p.testsState = false
  /-- The handler asks for a drain before its last access. -/
  handler : (cfg.thread c).handler = some .clearSig → (cfg.shared.core c).drain = true
  /-- Somebody sees to pending interrupts. -/
  wake : (cfg.shared.core c).intrQueue ≠ [] → Notified c cfg ∨ (cfg.thread c).recv ≠ .out ∨
    ∃ i p, (cfg.thread i).sending c = some p ∧ p.willNotify = true

theorem enoughInv_start (c : ℕ) : EnoughInv c start where
  send _ _ hp := nomatch hp
  handler hh := nomatch hh
  wake hq := absurd rfl hq

/-- The sends to the core after a step of thread `i`. -/
theorem EnoughInv.send_after (h : EnoughInv c cfg)
    (ht : ∀ p, t'.sending c = some p → p.testsState = false) :
    ∀ j p, ((cfg.after i s' t').thread j).sending c = some p → p.testsState = false := by
  intro j p hp
  by_cases hj : j = i
  · subst hj
    rw [Interleave.Config.after_thread_self] at hp
    exact ht p hp
  · rw [Interleave.Config.after_thread_of_ne _ _ _ hj] at hp
    exact h.send j p hp

/-- An access of a send to the core: the sender will notify the core, or it just has. -/
theorem EnoughInv.sendStep (h : EnoughInv c cfg) (hM : M.physicalCoreEnoughP = true)
    (ho : (cfg.thread i).sending c = some p)
    (hk : s'.core c = (sendIntr M i c (cfg.shared.core c) p).1) :
    EnoughInv c (afterSend M c i cfg p s') := by
  have hp := h.send i p ho
  refine ⟨h.send_after fun p' hp' => ?_, fun hh => ?_, fun _ => ?_⟩
  · rw [(cfg.thread i).sending_sendNext] at hp'
    exact SendPc.testsState_of_willNotify (sendIntr_next hM hp hp')
  · rw [sendNext_after.1] at hh
    rw [Interleave.Config.after_shared, hk]
    exact sendIntr_drain p (h.handler hh)
  · cases hr : (sendIntr M i c (cfg.shared.core c) p).2 with
    | some p' => exact .inr (.inr ⟨i, p', sending_afterSend.trans hr, sendIntr_next hM hp hr⟩)
    | none =>
      rw [Notified, Interleave.Config.after_shared, hk]
      exact .inl ((sendIntr_last hp hr).imp_right .inr)

/-- A running handler notifies the core. -/
theorem EnoughInv.running (h : EnoughInv c cfg) {q : HandlerPc} (hh : t'.handler = some q)
    (hq : q = .clearSig → (s'.core c).drain = true)
    (hs : t'.sending c = (cfg.thread c).sending c) : EnoughInv c (cfg.after c s' t') := by
  have hself : ((cfg.after c s' t').thread c).handler = some q := by
    rw [Interleave.Config.after_thread_self, hh]
  refine ⟨h.send_after fun p hp => h.send c p (hs ▸ hp), fun hc => hq ?_,
    fun _ => .inl (.inr (.inl ?_))⟩
  · rw [hself, Option.some.injEq] at hc
    exact hc
  · rw [hself]
    exact nofun

/-- An access of the handler: it goes on, or the drain has been asked for. -/
theorem EnoughInv.handlerStep (h : EnoughInv c cfg) {q : HandlerPc} {now : BitVec 64}
    (hq : (cfg.thread c).handler = some q)
    (hk : s'.core c = (coreSignalHandler M now (cfg.shared.core c) q).1) :
    EnoughInv c (cfg.after c s'
      { cfg.thread c with handler := (coreSignalHandler M now (cfg.shared.core c) q).2 }) := by
  cases q with
  | clearSig =>
    have hd : (s'.core c).drain = true := by
      rw [hk]
      exact h.handler hq
    exact ⟨h.send_after fun p hp => h.send c p hp, fun _ => hd, fun _ => .inl (.inr (.inr hd))⟩
  | notifier => exact h.running rfl (fun _ => by rw [hk]; rfl) rfl
  | stamped tsc | interval tsc | positive tsc =>
    refine h.running rfl (fun hc => ?_) rfl
    split at hc <;> cases hc
  | _ => exact h.running rfl nofun rfl

/-- The core leaves `coremu_receive_intr` only with an empty queue. -/
theorem EnoughInv.receive (h : EnoughInv c cfg) (hnull : NullFree c cfg)
    (hh : (cfg.thread c).handler = none) {r : RecvPc}
    (hk : s'.core c = (receiveIntr (cfg.shared.core c) r).1) :
    EnoughInv c (cfg.after c s'
      { cfg.thread c with recv := (receiveIntr (cfg.shared.core c) r).2.1 }) := by
  refine ⟨h.send_after fun p hp => h.send c p hp, fun hc => ?_, fun hne => .inr (.inl ?_)⟩
  · rw [Interleave.Config.after_thread_self] at hc
    exact absurd (hh.symm.trans hc) nofun
  · rw [Interleave.Config.after_thread_self]
    intro hout
    rw [Interleave.Config.after_shared, hk, receiveIntr_out hnull.queue hout] at hne
    exact hne rfl

/-- A step of thread `i` that changes nothing of core `c`'s notification; it may begin a
send to the core. -/
theorem EnoughInv.frame (h : EnoughInv c cfg) (hk : Keeps (cfg.shared.core c) (s'.core c))
    (ht : i = c → t'.handler = (cfg.thread i).handler ∧ t'.recv = (cfg.thread i).recv)
    (hs : t'.sending c = (cfg.thread i).sending c ∨ (cfg.thread i).sending c = none ∧
      (t'.sending c = none ∨ ∃ e, t'.sending c = some (.putIntr e))) :
    EnoughInv c (cfg.after i s' t') := by
  have hown : ((cfg.after i s' t').thread c).handler = (cfg.thread c).handler ∧
      ((cfg.after i s' t').thread c).recv = (cfg.thread c).recv := by
    by_cases hc : c = i
    · subst hc
      rw [Interleave.Config.after_thread_self]
      exact ht rfl
    · rw [Interleave.Config.after_thread_of_ne _ _ _ hc]
      exact ⟨rfl, rfl⟩
  refine ⟨h.send_after fun p hp => ?_, fun hc => ?_, fun hne => ?_⟩
  · rcases hs with hs | ⟨-, hs | ⟨e, hs⟩⟩
    · exact h.send i p (hs ▸ hp)
    · rw [hs] at hp
      cases hp
    · rw [hs] at hp
      cases hp
      rfl
  · rw [hown.1] at hc
    rw [Interleave.Config.after_shared, hk.drain]
    exact h.handler hc
  · rw [Interleave.Config.after_shared, hk.intrQueue] at hne
    rw [Notified, Interleave.Config.after_shared, hk.undelivered, hk.drain, hown.1, hown.2]
    refine (h.wake hne).imp_right (Or.imp_right fun hex => ?_)
    -- the sender that will notify the core goes on with its send
    refine (exists_sending_after (R := False) hex (fun _ hp => hp)
      fun p hp hw => ?_).resolve_left id
    rcases hs with hs | ⟨hnone, -⟩
    · exact .inr ⟨p, hs.trans hp, hw⟩
    · rw [hnone] at hp
      cases hp

/-- **A step keeps the invariant.** -/
theorem EnoughInv.step (h : EnoughInv c cfg) (hnull : NullFree c cfg)
    (hM : M.physicalCoreEnoughP = true) {x : Choice} (hx : x.Delivers)
    (hs : CoreStep M c i cfg.shared (cfg.thread i) x s' t') : EnoughInv c (cfg.after i s' t') := by
  cases hs with
  | send p now hh hnow ho hk ht =>
    subst ht
    exact h.sendStep hM (Thread.sending_of_send ho) hk
  | handler q now hi hq hk ht =>
    subst hi ht
    exact h.handlerStep hq hk
  | signal hi hk ht =>
    subst hi ht
    exact h.running rfl nofun ((cfg.thread i).sending_interrupted _)
  | receive r hi hh hk ht =>
    subst hi ht
    exact h.receive hnull hh hk
  | killFails hh hfail => exact absurd hfail hx
  | other hk _ _ hown hsend =>
    refine h.frame hk hown (hsend.imp And.left (And.imp_right (Or.imp_right ?_)))
    exact fun ⟨e, _, he⟩ => ⟨e, he⟩

/-- The runs in which every `pthread_kill` leads to one run of the handler, and no `NULL` is
sent. -/
abbrev ReliableRun (M : Machine) := (program M).Run Started fun _ _ _ x => x.Reliable

theorem ReliableRun.enoughInv {tr : List (ℕ × Event)} (hM : M.physicalCoreEnoughP = true)
    (h : ReliableRun M tr cfg) (c : ℕ) : EnoughInv c cfg := by
  suffices EnoughInv c cfg ∧ NullFree c cfg from this.1
  refine Interleave.Program.Run.induct (J := fun _ cfg => EnoughInv c cfg ∧ NullFree c cfg) ?_ ?_ h
  · rintro _ rfl
    exact ⟨enoughInv_start c, nullFree_start c⟩
  · rintro tr cfg i x s' t' e ⟨hinv, hnull⟩ ⟨hx, hn⟩ hs
    have hcs := core_cases c (step_cases hs)
    exact ⟨hinv.step hnull hM hx hcs, hnull.step hn hcs⟩

/-- Whenever nobody is sending to core `c` and it is not receiving, it is notified of its
pending interrupts. -/
theorem EnoughInv.notified (h : EnoughInv c cfg) (hq : Quiet c cfg)
    (hne : (cfg.shared.core c).intrQueue ≠ []) : Notified c cfg := by
  rcases h.wake hne with hn | hr | ⟨i, p, hp, hw⟩
  · exact hn
  · exact absurd hq.2 hr
  · obtain ⟨e, rfl⟩ := hq.1 i p hp
    cases hw

end Coremu.Core

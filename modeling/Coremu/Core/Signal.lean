import Coremu.Core.Wakeup

/-!
# The signal flag, the priority and the threshold

A sender marks a core before it signals it: it sets `sig_pending` and raises the priority
of the core's thread.  The signal handler takes both marks away again, in two separate
accesses, while other senders may set them anew.  A mark cannot get stuck all the same, as
long as every `pthread_kill` leads to a run of the handler: whoever sets a mark sends a signal
afterwards, and the handler that this signal starts has the access that takes the mark away
still before it.

The third thing that senders and handlers change is the threshold.  A sender doubles it
after a separate test against `MAX_INTR_THRESHOLD`, so that it may leave its range; it
stays there as long as every value that is doubled is small enough.

## Main definitions

* `SameSignals` — the signalling of a core is left alone.
* `Awaited` — somebody will take a mark away.
* `Mark` — what makes a property of a core a mark.
* `Settled` — nobody is signalling the core.
* `DoublesInRange` — no sender doubles a threshold that is too large.

## Main results

* `Mark.awaited` — **a mark is awaited in every reachable state.**
* `settled_unmarked` — **when nobody is signalling a core, its flag is down and its
  priority is the average one.**
* `threshHold_range` — **the threshold stays in its range**, if no sender doubles a value
  that is too large.
* `threshHold_above_max` — **one sender alone may leave the range.**
-/

namespace Coremu.Core

variable {M : Machine} {c i : ℕ} {k k' : CMCore} {s s' : Shared} {t t' : Thread} {x : Choice}
variable {ev : Event} {cfg : Config} {tr : List (ℕ × Event)}

/-! ### What signalling a core reads and writes -/

/-- What signalling a core reads and writes is unchanged. -/
structure SameSignals (k k' : CMCore) : Prop where
  intrThreshHold : k'.intrThreshHold = k.intrThreshHold
  sigPending : k'.sigPending = k.sigPending
  prio : k'.prio = k.prio
  undelivered : k'.undelivered = k.undelivered

theorem Keeps.sameSignals (h : Keeps k k') (hp : k'.prio = k.prio) : SameSignals k k' :=
  ⟨h.intrThreshHold, h.sigPending, hp, h.undelivered⟩

theorem receiveIntr_signals (k : CMCore) (r : RecvPc) : SameSignals k (receiveIntr k r).1 := by
  obtain ⟨hthr, hsig, hund⟩ := receiveIntr_frame k r
  refine ⟨hthr, hsig, ?_, hund⟩
  cases r with
  | dequeue =>
    cases hq : k.intrQueue with
    | nil => simp only [receiveIntr, hq]
    | cons e rest =>
      simp only [receiveIntr, hq]
      split <;> rfl
  | _ => rfl

/-! ### Marks on a core -/

/-- Somebody will take a mark on core `c` away: the handler of an undelivered signal, the
running handler if it is at a point in `H`, or the handler of the signal that a sender at
a point in `Q` is going to send. -/
def Awaited (H : HandlerPc → Prop) (Q : SendPc → Prop) (c : ℕ) (cfg : Config) : Prop :=
  0 < (cfg.shared.core c).undelivered ∨ (∃ q, (cfg.thread c).handler = some q ∧ H q) ∨
    ∃ i p, (cfg.thread i).sending c = some p ∧ Q p

/-- A mark that senders set before they signal a core and that its handler takes away. -/
structure Mark (M : Machine) (f : CMCore → Prop) (H : HandlerPc → Prop) (Q : SendPc → Prop) :
    Prop where
  /-- There is none at the start. -/
  new : ¬ f .new
  /-- Only signalling sets it. -/
  same : ∀ {k k' : CMCore}, SameSignals k k' → f k' → f k
  /-- Who sets it is going to send a signal, -/
  set : ∀ {i c : ℕ} {k : CMCore} {p : SendPc}, f (sendIntr M i c k p).1 →
    f k ∨ ∃ p', (sendIntr M i c k p).2 = some p' ∧ Q p'
  /-- and does so. -/
  kill : ∀ {i c : ℕ} {k : CMCore} {p : SendPc}, Q p → 0 < (sendIntr M i c k p).1.undelivered ∨
    ∃ p', (sendIntr M i c k p).2 = some p' ∧ Q p'
  /-- The handler begins before the access that takes the mark away, -/
  readTsc : H .readTsc
  /-- sets none, -/
  keep : ∀ {now : BitVec 64} {k : CMCore} {q : HandlerPc}, f (coreSignalHandler M now k q).1 → f k
  /-- and does not pass that access with the mark still there. -/
  clear : ∀ {now : BitVec 64} {k : CMCore} {q : HandlerPc}, H q →
    f (coreSignalHandler M now k q).1 → ∃ q', (coreSignalHandler M now k q).2 = some q' ∧ H q'

/-- `core->sig_pending`: any handler that is running takes it away, at its last access. -/
theorem mark_sigPending :
    Mark M (fun k => k.sigPending = true) (fun _ => True) fun p => p.willKill = true where
  new := nofun
  same h hk := h.sigPending ▸ hk
  set := sendIntr_sigPending
  kill := sendIntr_willKill
  readTsc := trivial
  keep {now k q} h := by
    cases q with
    | clearSig => cases h
    | _ => exact h
  clear {now k q} _ h := by
    cases q with
    | clearSig => cases h
    | _ => exact ⟨_, rfl, trivial⟩

/-- The handler has not put the priority down yet. -/
def HandlerPc.boosted : HandlerPc → Bool
  | .notifier | .clearSig => false
  | _ => true

/-- The priority of the core's thread: a handler takes it away at
`coremu_thread_setpriority`, and whoever sets it sends the signal next. -/
theorem mark_prio :
    Mark M (fun k => k.prio ≠ avgPrio) (fun q => q.boosted = true) fun p => p = .kill where
  new h := h rfl
  same h hk := h.prio ▸ hk
  set {i c k p} h := by
    cases p with
    | setPriority => exact .inr ⟨_, rfl, rfl⟩
    | _ => exact .inl h
  kill {i c k p} h := by
    subst h
    exact .inl (Nat.succ_pos _)
  readTsc := rfl
  keep {now k q} h := by
    cases q with
    | setPriority => exact absurd rfl h
    | _ => exact h
  clear {now k q} hq h := by
    cases q with
    | setPriority => exact absurd rfl h
    | notifier | clearSig => cases hq
    | stamped tsc => exact ⟨_, rfl, by split <;> rfl⟩
    | interval tsc => exact ⟨_, rfl, by split <;> rfl⟩
    | positive tsc => exact ⟨_, rfl, by split <;> rfl⟩
    | _ => exact ⟨_, rfl, rfl⟩

/-- A handler sends no signal. -/
theorem coreSignalHandler_undelivered (now : BitVec 64) (k : CMCore) (q : HandlerPc) :
    (coreSignalHandler M now k q).1.undelivered = k.undelivered := by
  cases q <;> rfl

section Marks

variable {f : CMCore → Prop} {H : HandlerPc → Prop} {Q : SendPc → Prop}

theorem Awaited.of_sending {p : SendPc} (h : t'.sending c = some p) (hp : Q p) :
    Awaited H Q c (cfg.after i s' t') :=
  .inr (.inr ⟨i, p, by rw [Interleave.Config.after_thread_self]; exact h, hp⟩)

/-- What is awaited stays so after a step of thread `i`, if the part of thread `i` in it
does. -/
theorem Awaited.after (h : Awaited H Q c cfg)
    (hu : (cfg.shared.core c).undelivered ≤ (s'.core c).undelivered)
    (hh : i = c → ∀ q, (cfg.thread i).handler = some q → H q → ∃ q', t'.handler = some q' ∧ H q')
    (hs : ∀ p, (cfg.thread i).sending c = some p → Q p →
      0 < (s'.core c).undelivered ∨ ∃ p', t'.sending c = some p' ∧ Q p') :
    Awaited H Q c (cfg.after i s' t') := by
  rcases h with hpos | ⟨q, hq, hH⟩ | hex
  · exact .inl (lt_of_lt_of_le hpos hu)
  · by_cases hi : i = c
    · subst hi
      refine .inr (.inl ?_)
      rw [Interleave.Config.after_thread_self]
      exact hh rfl q hq hH
    · refine .inr (.inl ⟨q, ?_, hH⟩)
      rw [Interleave.Config.after_thread_of_ne _ _ _ (Ne.symm hi)]
      exact hq
  · exact (exists_sending_after (Q := Q) hex (fun _ hp => hp) hs).imp_right .inr

/-- A step that leaves the signalling of the core alone. -/
theorem Mark.same_step (hm : Mark M f H Q) (h : f (cfg.shared.core c) → Awaited H Q c cfg)
    (hk : SameSignals (cfg.shared.core c) (s'.core c)) (hf : f (s'.core c))
    (hh : i = c → t'.handler = (cfg.thread i).handler)
    (hs : ∀ p, (cfg.thread i).sending c = some p → t'.sending c = some p) :
    Awaited H Q c (cfg.after i s' t') :=
  (h (hm.same hk hf)).after hk.undelivered.ge (fun hi q hq hH => ⟨q, (hh hi).trans hq, hH⟩)
    fun p hp hQ => .inr ⟨p, hs p hp, hQ⟩

/-- **A step keeps a mark awaited.** -/
theorem Mark.step (hm : Mark M f H Q) (h : f (cfg.shared.core c) → Awaited H Q c cfg)
    (hx : x.Delivers) (hs : CoreStep M c i cfg.shared (cfg.thread i) x s' t') (hf : f (s'.core c)) :
    Awaited H Q c (cfg.after i s' t') := by
  cases hs with
  | send p now hh hx ho hk ht =>
    subst ht
    have hp := Thread.sending_of_send ho
    rw [hk] at hf
    -- the mark was there before, or this access sets it
    rcases hm.set hf with hold | ⟨p', hr, hQ⟩
    · refine (h hold).after ?_ (fun _ q hq hH => ⟨q, ?_, hH⟩) fun p₁ hp₁ hQ => ?_
      · rw [hk]
        exact sendIntr_undelivered _ p
      · rw [(Thread.sendNext_frame _ _ _).1]
        exact hq
      · rw [hp, Option.some.injEq] at hp₁
        subst hp₁
        rw [hk, Thread.sending_sendNext]
        exact hm.kill hQ
    · exact .of_sending ((Thread.sending_sendNext _ _).trans hr) hQ
  | handler q now hi hq hk ht =>
    subst hi ht
    rw [hk] at hf
    have hu : (s'.core i).undelivered = (cfg.shared.core i).undelivered := by
      rw [hk, coreSignalHandler_undelivered]
    refine (h (hm.keep hf)).after hu.ge (fun _ q₁ hq₁ hH => ?_) fun p hp hQ => .inr ⟨p, hp, hQ⟩
    rw [hq, Option.some.injEq] at hq₁
    subst hq₁
    exact hm.clear hH hf
  | signal hi hk ht =>
    subst hi ht
    refine .inr (.inl ⟨.readTsc, ?_, hm.readTsc⟩)
    rw [Interleave.Config.after_thread_self]
  | receive r hi hh hk ht =>
    subst ht
    refine hm.same_step h ?_ hf (fun _ => rfl) fun _ hp => hp
    rw [hk]
    exact receiveIntr_signals _ r
  | killFails hh hfail => exact absurd hfail hx
  | other hk hp _ hown hsend =>
    refine hm.same_step h (hk.sameSignals hp) hf (fun hi => (hown hi).1) fun p hp => ?_
    rcases hsend with ⟨hsame, -⟩ | ⟨hnone, -⟩
    · exact hsame.trans hp
    · rw [hnone] at hp
      cases hp

/-- **A mark is awaited in every reachable state.** -/
theorem Mark.awaited (hm : Mark M f H Q) (h : DeliveredRun M tr cfg) :
    f (cfg.shared.core c) → Awaited H Q c cfg := by
  refine Interleave.Program.Run.induct
    (J := fun _ cfg => f (cfg.shared.core c) → Awaited H Q c cfg) ?_ ?_ h
  · rintro _ rfl hf
    exact absurd hf hm.new
  · intro tr cfg i x s' t' e ih hx hs hf
    exact hm.step ih hx (core_cases c (step_cases hs)) hf

end Marks

/-- The sender is inside `coremu_send_signal`. -/
def SendPc.inSendSignal : SendPc → Bool
  | .putIntr _ | .notifier => false
  | _ => true

/-- Nobody is signalling core `c`: no sender is inside `coremu_send_signal` for it, no
signal to it is undelivered, and its handler is not running. -/
structure Settled (c : ℕ) (cfg : Config) : Prop where
  sending : ∀ i p, (cfg.thread i).sending c = some p → p.inSendSignal = false
  undelivered : (cfg.shared.core c).undelivered = 0
  handler : (cfg.thread c).handler = none

theorem Settled.not_awaited {H : HandlerPc → Prop} {Q : SendPc → Prop} (h : Settled c cfg)
    (hQ : ∀ p, Q p → p.inSendSignal = true) : ¬ Awaited H Q c cfg := by
  rintro (hu | ⟨q, hq, -⟩ | ⟨i, p, hp, hp'⟩)
  · rw [h.undelivered] at hu
    cases hu
  · rw [h.handler] at hq
    cases hq
  · have hin := hQ p hp'
    rw [h.sending i p hp] at hin
    cases hin

/-- **Neither the flag nor the priority gets stuck**, if every `pthread_kill` leads to a run
of the handler: when nobody is signalling a core, its `sig_pending` is 0 and the priority of
its thread is `avg_prio`. -/
theorem settled_unmarked (h : DeliveredRun M tr cfg) (hc : Settled c cfg) :
    (cfg.shared.core c).sigPending = false ∧ (cfg.shared.core c).prio = avgPrio := by
  constructor
  · by_contra hsig
    rw [Bool.not_eq_false] at hsig
    refine hc.not_awaited (fun p hp => ?_) (mark_sigPending.awaited h hsig)
    cases p with
    | setRun | setPriority | kill => rfl
    | _ => cases hp
  · by_contra hprio
    refine hc.not_awaited (fun p hp => ?_) (mark_prio.awaited h hprio)
    rw [hp]
    rfl

/-- Thread 2 signals core 0 and the handler runs to its end. -/
def settledSteps : List (ℕ × Choice) := sends 2 8 ++ (0, .signal) :: goes 0 6

/-- After a signal and its handler nobody is signalling core 0. -/
theorem settled_unmarked_handled : ∃ tr cfg, DeliveredRun twoOnOne tr cfg ∧ Settled 0 cfg ∧
    (cfg.shared.core 0).timeStamp = 1 ∧
      ((cfg.shared.core 0).sigPending = false ∧ (cfg.shared.core 0).prio = avgPrio) := by
  obtain ⟨tr, cfg, hr, hcfg, ht⟩ : ∃ tr cfg, DeliveredRun twoOnOne tr cfg ∧
      (∀ j, ¬ j < 3 → cfg.thread j = start.thread j) ∧ (sendsDone 3 cfg &&
        (decide ((cfg.shared.core 0).undelivered = 0 ∧ (cfg.shared.core 0).timeStamp = 1) &&
          (cfg.thread 0).handler.isNone)) = true :=
    Interleave.Program.exists_run_of_exec_within (P := program twoOnOne) (c := start) (· < 3)
      (fun _ _ _ x => x.plain) (fun _ _ _ _ _ => Choice.delivers_of_plain) started_start
      settledSteps (by decide)
      (fun _ cfg => sendsDone 3 cfg &&
        (decide ((cfg.shared.core 0).undelivered = 0 ∧ (cfg.shared.core 0).timeStamp = 1) &&
          (cfg.thread 0).handler.isNone)) (by decide)
  obtain ⟨hdone, ht⟩ := Bool.and_eq_true_iff.mp ht
  obtain ⟨hu, hh⟩ := Bool.and_eq_true_iff.mp ht
  obtain ⟨hu, hstamp⟩ := of_decide_eq_true hu
  have hsettled : Settled 0 cfg := by
    refine ⟨fun i p hp => ?_, hu, Option.isNone_iff_eq_none.mp hh⟩
    rw [sending_of_sendsDone hcfg hdone i] at hp
    cases hp
  exact ⟨tr, cfg, hr, hsettled, hstamp, settled_unmarked hr hsettled⟩

/-! ### The range of the threshold -/

/-- The step of the thread reads the threshold of core `c` to double it, at line 88. -/
def Thread.doubling (c : ℕ) (t : Thread) (x : Choice) : Bool :=
  match t.handler, t.sending c, x with
  | none, some .readThreshHold, .go _ => true
  | _, _, _ => false

/-- A sender that reads the threshold of core `c` to double it reads one that is at most
`MAX_INTR_THRESHOLD` afterwards. -/
def DoublesInRange (c : ℕ) (_ : List (ℕ × Event)) (cfg : Config) (i : ℕ) (x : Choice) : Prop :=
  (cfg.thread i).doubling c x = true →
    ((cfg.shared.core c).intrThreshHold.toInt + 1) * 2 ≤ maxIntrThreshold

/-- The runs in which no sender doubles a threshold of core `c` that is too large. -/
abbrev DoublingRun (M : Machine) (c : ℕ) := (program M).Run Started (DoublesInRange c)

/-- A threshold between `lo` and `MAX_INTR_THRESHOLD`. -/
def InRange (lo : ℤ) (v : BitVec 64) : Prop := lo ≤ v.toInt ∧ v.toInt ≤ maxIntrThreshold

theorem InRange.double {v : BitVec 64} (h : InRange 0 v)
    (hle : (v.toInt + 1) * 2 ≤ maxIntrThreshold) : InRange 1 ((v + 1) <<< 1) := by
  obtain ⟨hlo, -⟩ := h
  unfold maxIntrThreshold at hle
  -- a value this small is not changed by the wrap of the addition or of the shift
  have hnat : v.toInt = v.toNat := by
    have hlt := v.isLt
    rw [BitVec.toInt_eq_toNat_cond] at hlo ⊢
    split at hlo
    · next hsmall => rw [if_pos hsmall]
    · omega
  have hone : BitVec.toNat (1 : BitVec 64) = 1 := rfl
  have heq : ((v + 1) <<< 1).toInt = (v.toInt + 1) * 2 := by
    rw [BitVec.toInt_shiftLeft, Nat.shiftLeft_eq, BitVec.toNat_add, hone,
      Nat.mod_eq_of_lt (by omega), Int.bmod_eq_of_le] <;> push_cast <;> omega
  unfold InRange maxIntrThreshold
  rw [heq]
  omega

theorem InRange.lower {v : BitVec 64} (h : InRange 1 v) : InRange 0 (v - 1) := by
  obtain ⟨hlo, hhi⟩ := h
  unfold maxIntrThreshold at hhi
  unfold InRange maxIntrThreshold
  rw [BitVec.toInt_sub, Int.bmod_eq_of_le] <;> simp <;> omega

/-- What the handler holds, and knows of the threshold. -/
def HandlerPc.InRange (k : CMCore) : HandlerPc → Prop
  | .readThreshHold _ => 0 < k.intrThreshHold.toInt
  | .lower _ v => Core.InRange 0 v
  | _ => True

/-- Everything that has been computed for the threshold of core `c` is in its range. -/
structure RangeInv (c : ℕ) (cfg : Config) : Prop where
  range : InRange 0 (cfg.shared.core c).intrThreshHold
  handler : ∀ q, (cfg.thread c).handler = some q → q.InRange (cfg.shared.core c)
  raise : ∀ i v, (cfg.thread i).sending c = some (.raise v) → InRange 1 v

theorem rangeInv_start (c : ℕ) : RangeInv c start := by
  refine ⟨⟨show (0 : ℤ) ≤ 0 from le_rfl, show (0 : ℤ) ≤ 50 by decide⟩, fun q hq => ?_,
    fun i v hv => ?_⟩
  · cases hq
  · cases hv

/-- Only `readThreshHold` leads to a store. -/
theorem sendIntr_raise {p : SendPc} {v : BitVec 64}
    (h : (sendIntr M i c k p).2 = some (.raise v)) :
    p = .readThreshHold ∧ v = (k.intrThreshHold + 1) <<< 1 := by
  have hunsent : M.unsent ≠ .raise v := by
    unfold Machine.unsent
    split <;> simp
  cases p with
  | readThreshHold =>
    simp only [sendIntr, Option.some.injEq, SendPc.raise.injEq] at h
    exact ⟨rfl, h.symm⟩
  | putIntr _ => simp only [sendIntr] at h; split at h <;> cases h
  | threshHold pendingIntr => simp only [sendIntr] at h; split at h <;> simp_all
  | belowMax => simp only [sendIntr] at h; split at h <;> simp_all
  | raise v' => simp [sendIntr, hunsent] at h
  | sigPending => simp only [sendIntr] at h; split at h <;> cases h
  | isHalt => simp only [sendIntr] at h; split at h <;> cases h
  | isPause => simp only [sendIntr] at h; split at h <;> cases h
  | _ => cases h

/-- The threshold after an access of a send: what it was, or what the sender had
computed. -/
theorem sendIntr_intrThreshHold (k : CMCore) (p : SendPc) :
    (sendIntr M i c k p).1.intrThreshHold = k.intrThreshHold ∨
      ∃ v, p = .raise v ∧ (sendIntr M i c k p).1.intrThreshHold = v := by
  cases p with
  | raise v => exact .inr ⟨v, rfl, rfl⟩
  | _ => exact .inl rfl

/-- A handler that has seen a positive threshold will see one: senders only store larger
ones. -/
theorem HandlerPc.InRange.mono {q : HandlerPc} (h : q.InRange k)
    (hle : 0 < k.intrThreshHold.toInt → 0 < k'.intrThreshHold.toInt) : q.InRange k' := by
  cases q with
  | readThreshHold tsc => exact hle h
  | lower tsc v => exact h
  | _ => trivial

theorem coreSignalHandler_range (now : BitVec 64) {q : HandlerPc}
    (hk : Core.InRange 0 k.intrThreshHold) (hq : q.InRange k) :
    Core.InRange 0 (coreSignalHandler M now k q).1.intrThreshHold ∧
      ∀ q', (coreSignalHandler M now k q).2 = some q' →
        q'.InRange (coreSignalHandler M now k q).1 := by
  have hzero : Core.InRange 0 (0 : BitVec 64) :=
    ⟨show (0 : ℤ) ≤ 0 from le_rfl, show (0 : ℤ) ≤ 50 by decide⟩
  cases q with
  | clearThreshHold tsc => exact ⟨hzero, fun q' hq' => by cases hq'; trivial⟩
  | lower tsc v => exact ⟨hq, fun q' hq' => by cases hq'; trivial⟩
  | positive tsc =>
    refine ⟨hk, fun q' hq' => ?_⟩
    simp only [coreSignalHandler, Option.some.injEq] at hq'
    subst hq'
    split
    · next hpos => exact hpos
    · trivial
  | readThreshHold tsc =>
    refine ⟨hk, fun q' hq' => ?_⟩
    cases hq'
    exact InRange.lower ⟨hq, hk.2⟩
  | stamped tsc | interval tsc =>
    refine ⟨hk, fun q' hq' => ?_⟩
    simp only [coreSignalHandler, Option.some.injEq] at hq'
    subst hq'
    split <;> trivial
  | readTsc | setStamp tsc | setPriority | notifier =>
    exact ⟨hk, fun q' hq' => by cases hq'; trivial⟩
  | clearSig => exact ⟨hk, fun q' hq' => by cases hq'⟩

/-- What the threads hold after a step of thread `i`. -/
theorem RangeInv.after (h : RangeInv c cfg) (hrange : InRange 0 (s'.core c).intrThreshHold)
    (hhandler : ∀ q, ((cfg.after i s' t').thread c).handler = some q → q.InRange (s'.core c))
    (hraise : ∀ v, t'.sending c = some (.raise v) → InRange 1 v) :
    RangeInv c (cfg.after i s' t') := by
  refine ⟨hrange, hhandler, fun j v => ?_⟩
  by_cases hj : j = i
  · subst hj
    rw [Interleave.Config.after_thread_self]
    exact hraise v
  · rw [Interleave.Config.after_thread_of_ne _ _ _ hj]
    exact h.raise j v

/-- A step that leaves the handler alone, and a positive threshold positive. -/
theorem RangeInv.keep (h : RangeInv c cfg) (hrange : InRange 0 (s'.core c).intrThreshHold)
    (hpos : 0 < (cfg.shared.core c).intrThreshHold.toInt → 0 < (s'.core c).intrThreshHold.toInt)
    (hh : i = c → t'.handler = (cfg.thread i).handler)
    (hraise : ∀ v, t'.sending c = some (.raise v) → InRange 1 v) :
    RangeInv c (cfg.after i s' t') := by
  refine h.after hrange (fun q hq => (h.handler q ?_).mono hpos) hraise
  by_cases hi : i = c
  · subst hi
    rw [Interleave.Config.after_thread_self, hh rfl] at hq
    exact hq
  · rwa [Interleave.Config.after_thread_of_ne _ _ _ (Ne.symm hi)] at hq

/-- **A step that doubles no large threshold keeps the range.** -/
theorem rangeInv_step (h : RangeInv c cfg) (hx : DoublesInRange c tr cfg i x)
    (hs : CoreStep M c i cfg.shared (cfg.thread i) x s' t') : RangeInv c (cfg.after i s' t') := by
  cases hs with
  | send p now hh hnow ho hk ht =>
    subst ht
    have hp := Thread.sending_of_send ho
    have hh' := (Thread.sendNext_frame (cfg.thread i) c
      (sendIntr M i c (cfg.shared.core c) p).2).1
    have hraise : ∀ v, ((cfg.thread i).sendNext c
        (sendIntr M i c (cfg.shared.core c) p).2).sending c = some (.raise v) → InRange 1 v := by
      intro v hv
      rw [Thread.sending_sendNext] at hv
      obtain ⟨rfl, rfl⟩ := sendIntr_raise hv
      exact h.range.double (hx (by simp [Thread.doubling, hh, hp, hnow]))
    rcases sendIntr_intrThreshHold (M := M) (i := i) (c := c) (cfg.shared.core c) p with
      hthr | ⟨v, rfl, hthr⟩
    · rw [← hk] at hthr
      exact h.keep (hthr ▸ h.range) (fun hpos => hthr ▸ hpos) (fun _ => hh') hraise
    · -- the value that is stored was computed from a small one
      rw [← hk] at hthr
      have hv := h.raise i v hp
      exact h.keep (hthr ▸ ⟨le_trans (by decide) hv.1, hv.2⟩) (fun _ => hthr ▸ hv.1)
        (fun _ => hh') hraise
  | handler q now hi hq hk ht =>
    subst hi ht
    obtain ⟨hrange, hnext⟩ := coreSignalHandler_range (M := M) now h.range (h.handler q hq)
    rw [← hk] at hrange hnext
    refine h.after hrange (fun q₁ hq₁ => hnext q₁ ?_) fun v hv => h.raise i v hv
    rw [Interleave.Config.after_thread_self] at hq₁
    exact hq₁
  | signal hi hk ht =>
    subst hi ht
    refine h.after (by rw [hk]; exact h.range) (fun q₁ hq₁ => ?_) fun v hv => h.raise i v ?_
    · rw [Interleave.Config.after_thread_self, Option.some.injEq] at hq₁
      subst hq₁
      trivial
    · rwa [Thread.sending_interrupted] at hv
  | receive r hi hh hk ht =>
    subst ht
    have hthr : (s'.core c).intrThreshHold = (cfg.shared.core c).intrThreshHold := by
      rw [hk, (receiveIntr_signals _ r).intrThreshHold]
    exact h.keep (hthr ▸ h.range) (fun hpos => hthr ▸ hpos) (fun _ => rfl)
      fun v hv => h.raise i v hv
  | killFails hh hfail ho hk ht =>
    subst ht
    refine h.keep (hk ▸ h.range) (fun hpos => hk ▸ hpos)
      (fun _ => (Thread.sendNext_frame _ _ _).1) fun v hv => ?_
    rw [Thread.sending_sendNext] at hv
    cases hv
  | other hk _ _ hown hsend =>
    refine h.keep (hk.intrThreshHold ▸ h.range) (fun hpos => hk.intrThreshHold ▸ hpos)
      (fun hi => (hown hi).1) fun v hv => ?_
    rcases hsend with ⟨hsame, -⟩ | ⟨-, hnone | ⟨e, -, he⟩⟩
    · exact h.raise i v (hsame.symm.trans hv)
    · rw [hnone] at hv
      cases hv
    · rw [he] at hv
      cases hv

/-- **The threshold stays in its range**, from 0 to `MAX_INTR_THRESHOLD`, if no sender
doubles a value that is too large. -/
theorem threshHold_range (h : DoublingRun M c tr cfg) :
    0 ≤ (cfg.shared.core c).intrThreshHold.toInt ∧
      (cfg.shared.core c).intrThreshHold.toInt ≤ maxIntrThreshold := by
  have hinv : RangeInv c cfg := by
    refine Interleave.Program.Run.induct (J := fun _ cfg => RangeInv c cfg) ?_ ?_ h
    · rintro _ rfl
      exact rangeInv_start c
    · intro tr cfg i x s' t' e ih hx hs
      exact rangeInv_step ih hx (core_cases c (step_cases hs))
  exact hinv.range

/-- `DoublesInRange 0`, computed. -/
def doublesGuard (cfg : Config) (i : ℕ) (x : Choice) : Bool :=
  !(cfg.thread i).doubling 0 x ||
    decide (((cfg.shared.core 0).intrThreshHold.toInt + 1) * 2 ≤ maxIntrThreshold)

theorem doublesInRange_of_guard (h : doublesGuard cfg i x = true) :
    DoublesInRange 0 tr cfg i x := by
  intro hd
  rw [doublesGuard, hd] at h
  exact of_decide_eq_true h

/-- `n` sends of thread 2 to core 0 that find few interrupts pending, and one that raises
the threshold. -/
def raises (n : ℕ) : List (ℕ × Choice) := (List.replicate n (sends 2 5)).flatten ++ sends 2 9

/-- Thread 2 signals core 0, which does not react, and raises its threshold to 2, 6, 14
and 30. -/
def raisingSteps : List (ℕ × Choice) := sends 2 8 ++ raises 0 ++ raises 0 ++ raises 3 ++ raises 7

/-- The threshold is 30 in a run in which no large one is doubled. -/
theorem threshHold_range_thirty : ∃ tr cfg, DoublingRun twoOnOne 0 tr cfg ∧
    (cfg.shared.core 0).intrThreshHold = 30 ∧ 0 ≤ (cfg.shared.core 0).intrThreshHold.toInt ∧
      (cfg.shared.core 0).intrThreshHold.toInt ≤ maxIntrThreshold := by
  obtain ⟨tr, cfg, hr, ht⟩ : ∃ tr cfg, DoublingRun twoOnOne 0 tr cfg ∧
      decide ((cfg.shared.core 0).intrThreshHold = 30) = true :=
    Interleave.Program.exists_run_of_exec (P := program twoOnOne)
      (fun _ cfg i x => doublesGuard cfg i x) (fun _ _ _ _ hg => doublesInRange_of_guard hg)
      started_start raisingSteps (fun _ cfg => decide ((cfg.shared.core 0).intrThreshHold = 30))
      (by decide +kernel)
  exact ⟨tr, cfg, hr, of_decide_eq_true ht, threshHold_range hr⟩

/-- **One sender alone may leave the range**: with 31 interrupts pending it finds the
threshold at 30, which is below `MAX_INTR_THRESHOLD`, and doubles it. -/
theorem threshHold_above_max : ∃ tr cfg, PlainRun twoOnOne tr cfg ∧
    (cfg.shared.core 0).intrThreshHold = 62 ∧
      maxIntrThreshold < (cfg.shared.core 0).intrThreshHold.toInt := by
  obtain ⟨tr, cfg, hr, ht⟩ : ∃ tr cfg, PlainRun twoOnOne tr cfg ∧
      decide ((cfg.shared.core 0).intrThreshHold = 62) = true :=
    Interleave.Program.exists_run_of_exec (P := program twoOnOne) (fun _ _ _ x => x.plain)
      (fun _ _ _ _ hp => hp) started_start (raisingSteps ++ raises 15)
      (fun _ cfg => decide ((cfg.shared.core 0).intrThreshHold = 62)) (by decide +kernel)
  have hthr := of_decide_eq_true ht
  refine ⟨tr, cfg, hr, hthr, ?_⟩
  rw [hthr]
  decide

end Coremu.Core

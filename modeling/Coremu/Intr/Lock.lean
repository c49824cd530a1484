import Mathlib.Data.Finset.Option
import Coremu.Intr.Drain
import Coremu.LockQueue.Linearizable

/-!
# Receiving interrupts from the lock-based queue

The enqueuer counts its value while it still holds `t_lock`, so at most one value is in
the queue and not counted, it is the last one, and its `enqueue` has not returned.  So
when the counter is zero, nothing is left that has been sent.  But `coremu_receive_intr`
also ends at a `NULL`, with everything behind it still in the queue.

## Main results

* `counter`, `progress` — the queue keeps account, and a dequeue takes at most eight
  steps.
* `lockQueue_receive_drains` — **`coremu_receive_intr` handles all interrupts sent before
  it was called, if none is `NULL`.**
* `lockQueue_null_leaves_interrupt` — otherwise it may leave one.
-/

namespace Coremu.Intr.Lock

open Coremu.LockQueue

/-- `main/lock-queue.c` as a queue. -/
def queue : Queue Shared Pc LockQueue.Choice where
  program := LockQueue.program
  queueGetSize := LockQueue.queueGetSize
  idle
    | .idle => true
    | _ => false

/-- The enqueuer has linked its node and not counted it. -/
def uncounted : Pc → Bool
  | .enq (.setTail _) | .enq .incCount => true
  | _ => false

/-- The core has moved `Head` and not counted down. -/
def popped : Pc → Bool
  | .deq p => p.popped
  | _ => false

/-- The runs of `coremu_receive_intr` on the lock-based queue of core `c`. -/
abbrev Run (c : ℕ) := (program queue c).Run (Start NewQueue) fun _ _ _ _ => True

variable {c i : ℕ} {g : Ghost} {s : Shared}

/-! ### The counter keeps account -/

theorem enqInv_op {p : EnqPc} (h : EnqInv g s i p) : (g.abs.op i).InEnq := by
  cases p with
  | newNode v => exact .inl ⟨v, h⟩
  | setValue v _ | setNext v _ | spinLock v _ | readTail v _ | link v _ _ => exact .inl ⟨v, h.1⟩
  | setTail _ | incCount | spinUnlock => exact .inr h.1
  | ret => exact .inr h

theorem deqInv_op {p : DeqPc} (h : DeqInv g s i p) : g.abs.op i ≠ .idle := by
  have hdeq : (∃ w, g.abs.op i = .deq w) → g.abs.op i ≠ .idle := by
    rintro ⟨w, ho⟩
    simp [ho]
  have hdone : (∃ v, g.abs.op i = .deqDone v) → g.abs.op i ≠ .idle := by
    rintro ⟨v, ho⟩
    simp [ho]
  cases p with
  | readHead => exact hdeq h
  | readNext _ | readValue _ _ | setHead _ _ _ => exact hdeq h.1
  | free _ v => exact hdone ⟨v, h.1⟩
  | decCount v => exact hdone ⟨v, h⟩
  | ret r =>
    cases r with
    | none => exact hdeq ⟨_, h⟩
    | some v => exact hdone ⟨v, h⟩

theorem idle_iff {p : Pc} (h : ThreadInv c g s i p) : queue.idle p = true ↔ g.abs.op i = .idle := by
  cases p with
  | idle => exact iff_of_true rfl h.1
  | enq p => exact iff_of_false (by simp [queue]) (enqInv_op h.1).ne_idle
  | deq p => exact iff_of_false (by simp [queue]) (deqInv_op h.1)

/-- The enqueuer in the window is the holder of the lock. -/
theorem uncounted_iff {p : Pc} (h : ThreadInv c g s i p) :
    uncounted p = true ↔ g.holder = some i ∧ g.uncounted = true := by
  cases p with
  | idle => exact iff_of_false (by simp [uncounted]) fun hu => h.2.1 hu.1
  | deq p => exact iff_of_false (by simp [uncounted]) fun hu => h.2.1 hu.1
  | enq p =>
    obtain ⟨he, hh, -⟩ := h
    cases p with
    | setTail node => exact iff_of_true rfl ⟨hh.mp rfl, he.2.2.1⟩
    | incCount => exact iff_of_true rfl ⟨hh.mp rfl, he.2.2⟩
    | readTail v node =>
      refine iff_of_false (by simp [uncounted]) fun hu => ?_
      rw [he.2.2.2] at hu
      exact Bool.false_ne_true hu.2
    | link v node tail =>
      refine iff_of_false (by simp [uncounted]) fun hu => ?_
      rw [he.2.2.2.1] at hu
      exact Bool.false_ne_true hu.2
    | spinUnlock =>
      refine iff_of_false (by simp [uncounted]) fun hu => ?_
      rw [he.2.2] at hu
      exact Bool.false_ne_true hu.2
    | newNode v | setValue v node | setNext v node | spinLock v node | ret =>
      exact iff_of_false (by simp [uncounted]) fun hu => Bool.false_ne_true (hh.mpr hu.1)

theorem popped_iff {p : Pc} (h : ThreadInv c g s i p) :
    popped p = true ↔ i = c ∧ g.popped = true := by
  cases p with
  | idle =>
    refine iff_of_false (by simp [popped]) fun hu => ?_
    rw [h.2.2 hu.1] at hu
    exact Bool.false_ne_true hu.2
  | enq p =>
    refine iff_of_false (by simp [popped]) fun hu => ?_
    rw [h.2.2 hu.1] at hu
    exact Bool.false_ne_true hu.2
  | deq p =>
    obtain ⟨-, -, hi, hp⟩ := h
    rw [hp]
    exact ⟨fun hu => ⟨hi, hu⟩, fun hu => hu.2⟩

theorem popped_op {p : Pc} (h : ThreadInv c g s i p) (hp : popped p = true) :
    ∃ v, g.abs.op i = .deqDone v := by
  cases p with
  | idle => cases hp
  | enq p => cases hp
  | deq p =>
    cases p with
    | free _ v => exact ⟨v, h.1.1⟩
    | decCount v => exact ⟨v, h.1⟩
    | _ => cases hp

/-- The list has no more nodes than there are blocks. -/
theorem length_le (h : SharedInv g s) : g.abs.content.length ≤ 2 ^ 60 := by
  have hlen := length_le_of_block h.list.nodup fun a ha => (h.node a ha).1
  have heq := h.list.length_eq
  rw [List.length_map] at heq
  omega

/-- The enqueuers in the window: the holder or nobody. -/
def windowSet (g : Ghost) : Finset ℕ := if g.uncounted then g.holder.toFinset else ∅

theorem mem_windowSet : i ∈ windowSet g ↔ g.holder = some i ∧ g.uncounted = true := by
  unfold windowSet
  split
  · next hu => rw [Option.mem_toFinset, Option.mem_def]; simp [hu]
  · next hu => simp [hu]

theorem card_windowSet (h : SharedInv g s) : (windowSet g).card = g.uncounted.toNat := by
  unfold windowSet
  cases hu : g.uncounted with
  | false => rfl
  | true =>
    cases hh : g.holder with
    | none =>
      rw [(h.free hh).2] at hu
      cases hu
    | some i => rfl

/-- The threads in the windows: the holder of the lock, and the consumer. -/
theorem exists_windows {cfg : LockQueue.Config} (h : Inv c g cfg) : ∃ U D : Finset ℕ,
    (∀ i, i ∈ U ↔ uncounted (cfg.thread i) = true) ∧
    (∀ i, i ∈ D ↔ popped (cfg.thread i) = true) ∧
      U.card = g.uncounted.toNat ∧ D.card = g.popped.toNat := by
  refine ⟨windowSet g, if g.popped then {c} else ∅, fun i => ?_, fun i => ?_,
    card_windowSet h.1, by cases g.popped <;> rfl⟩
  · rw [mem_windowSet, uncounted_iff (h.2 i)]
  · rw [popped_iff (h.2 i)]
    split
    · next hp => simp [hp]
    · next hp => simp [hp]

theorem counts {cfg : LockQueue.Config} (h : Inv c g cfg) :
    Counts queue uncounted popped g.abs cfg where
  idle i := idle_iff (h.2 i)
  taken i hp := popped_op (h.2 i) hp
  length := length_le h.1
  size := by
    obtain ⟨U, D, hU, hD, hu, hd⟩ := exists_windows h
    refine ⟨U, D, hU, hD, ?_⟩
    change cfg.shared.count.toInt = _
    rw [h.1.count, hu, hd]

/-- Only the link opens the window. -/
theorem uncounted_step {p p' : Pc} {x : LockQueue.Choice} {s' : Shared} {e : Fifo.Event DataType}
    (hst : LockQueue.Step s p x s' p' e) (hu : uncounted p' = true) :
    uncounted p = true ∨ ∃ v, e = .append v := by
  cases hst with
  | link v => exact .inr ⟨v, rfl⟩
  | setTail => exact .inl rfl
  | _ => cases hu

/-- **The counter of the lock-based queue keeps account.** -/
def counter (c : ℕ) : Counter queue NewQueue (OneConsumer c) where
  uncounted := uncounted
  popped := popped
  counts h := by
    obtain ⟨g, hg, hi⟩ := LockQueue.Run.inv h
    exact ⟨g.abs, hg, counts hi⟩
  idle {p} h := by
    cases p with
    | idle => rfl
    | _ => cases h
  window hs hu := uncounted_step (LockQueue.step_cases hs) hu

/-- Only a call of `dequeue` is restricted. -/
theorem allows (c : ℕ) : Allows queue c (fun _ _ _ _ => True) (OneConsumer c) := by
  intro tr cfg i x s' l f _ hs hc
  cases x with
  | callDeq =>
    refine hc ?_
    have hst : LockQueue.Step cfg.shared (cfg.thread i).queue .callDeq s' l f :=
      LockQueue.step_cases hs
    generalize (cfg.thread i).queue = p at hst
    cases hst
    rfl
  | _ => trivial

/-! ### A dequeue never waits -/

/-- The steps that are left of a dequeue. -/
def left (_ : Shared) : Pc → ℕ
  | .idle => 8
  | .deq .readHead => 7
  | .deq (.readNext _) => 6
  | .deq (.readValue _ _) => 5
  | .deq (.setHead _ _ _) => 4
  | .deq (.free _ _) => 3
  | .deq (.decCount _) => 2
  | .deq (.ret _) => 1
  | .enq _ => 0

/-- **A dequeue of the lock-based queue takes at most eight steps**, and takes no lock. -/
theorem progress (c : ℕ) : Progress queue NewQueue (OneConsumer c) c 8 left where
  call s p hp := by
    cases p with
    | idle => exact le_rfl
    | _ => cases hp
  self {tr cfg a x s' l f} hrun ha hin hs hf hf' := by
    obtain ⟨g, hg, hi⟩ := LockQueue.Run.inv hrun
    obtain rfl : a = g.abs := Option.some.inj (ha.symm.trans hg)
    have hth := hi.2 c
    have hst : LockQueue.Step cfg.shared (cfg.thread c) x s' l f := LockQueue.step_cases hs
    generalize cfg.thread c = p at hth hst
    cases p with
    | idle =>
      cases hst with
      | callEnq v => exact absurd rfl (hf v)
      | callDeq => simp [left]
    | enq p => exact absurd (enqInv_op hth.1) hin.not_inEnq
    | deq p =>
      cases hst with
      | deqRet r => exact absurd rfl (hf' r)
      | _ => simp [left]
  other _ _ _ _ _ := le_rfl
  enabled {tr cfg a} hrun ha hin := by
    obtain ⟨g, hg, hi⟩ := LockQueue.Run.inv hrun
    obtain rfl : a = g.abs := Option.some.inj (ha.symm.trans hg)
    have hth := hi.2 c
    cases hp : cfg.thread c with
    | idle => exact ⟨.callDeq, _, _, .callDeq, rfl, by simp⟩
    | enq p =>
      rw [hp] at hth
      exact absurd (enqInv_op hth.1) hin.not_inEnq
    | deq p =>
      cases p with
      | free node v => exact ⟨.free ⟨NULL, 0⟩, _, _, .tau, rfl, by simp⟩
      | readNext node => exact ⟨.go, _, _, .look, rfl, by simp⟩
      | setHead _ _ v => exact ⟨.go, _, _, .remove v, rfl, by simp⟩
      | ret r => exact ⟨.go, _, _, .retDeq r, rfl, by simp⟩
      | _ => exact ⟨.go, _, _, .tau, rfl, by simp⟩

/-! ### Draining -/

/-- When the counter is zero, the only value left is that of the holder of the lock. -/
theorem endsClean (c : ℕ) : EndsClean queue c NewQueue fun _ _ _ _ => True := by
  intro tr cfg a hrun _ ha hr ht
  obtain ⟨hqr, -⟩ := Run.queue (allows c) hrun
  obtain ⟨g, hg, hi⟩ := LockQueue.Run.inv hqr
  obtain rfl : a = g.abs := Option.some.inj (ha.symm.trans hg)
  obtain ⟨b, hb, hcnt, hinv⟩ := Run.recvInv (counter c) (allows c) hrun
  obtain rfl : g.abs = b := Option.some.inj (ha.symm.trans hb)
  obtain ⟨U, hU, hle⟩ := hinv.length_le_of_test ha hcnt hr ht
  obtain rfl : U = windowSet g := by
    ext i
    rw [hU, mem_windowSet]
    exact uncounted_iff (hi.2 i)
  rw [card_windowSet hi.1] at hle
  intro e he
  -- the only value left is the last one
  obtain ⟨x, hx⟩ : ∃ x, g.abs.content = [x] := by
    rw [← List.length_eq_one_iff]
    have hpos := List.length_pos_of_mem he
    have := Bool.toNat_le g.uncounted
    omega
  have hun : g.uncounted = true := by
    rw [hx, List.length_singleton] at hle
    cases hu : g.uncounted with
    | false => rw [hu] at hle; exact absurd hle (by decide)
    | true => rfl
  cases hh : g.holder with
  | none =>
    rw [(hi.1.free hh).2] at hun
    cases hun
  | some k =>
    rw [hx, List.mem_singleton] at he
    subst he
    obtain ⟨hs, hq⟩ := hi.1.last k hh hun e (by rw [hx]; rfl)
    rw [hs, hq]

/-- **`coremu_receive_intr` drains the lock-based queue**, if no `NULL` is put on it: when
it returns, every interrupt whose `coremu_put_intr` had returned before the call has been
handled, once and in queue order. -/
theorem lockQueue_receive_drains {tr : List (ℕ × Event)}
    {cfg : Interleave.Config ℕ Shared (Thread Pc)} (h : Run c tr cfg) (hn : NoNull tr) :
    ∀ p q, tr = p ++ (c, .receive) :: q ++ [(c, .done)] → Drained p tr := by
  rintro p q rfl
  exact Run.drained (counter c) (allows c) (endsClean c) h hn

/-! ### Runs -/

/-- No interrupt on the queue of core 1, and no thread in an operation. -/
def startConfig : Interleave.Config ℕ Shared (Thread Pc) :=
  ⟨(LockQueue.start 16).shared, fun _ => ⟨.out, .idle⟩⟩

theorem start_startConfig : Start NewQueue startConfig :=
  ⟨⟨_, 16, by decide, rfl⟩, fun _ => rfl⟩

/-- Steps of the queue. -/
def queueSteps (l : List (ℕ × LockQueue.Choice)) : List (ℕ × Intr.Choice LockQueue.Choice) :=
  l.map fun p => (p.1, .queue p.2)

/-- The test of `coremu_get_intr`, and a dequeue. -/
def getSteps (i : ℕ) : List (ℕ × Intr.Choice LockQueue.Choice) :=
  (i, .go) :: queueSteps (dequeueSteps i ⟨5, 5⟩)

/-- Thread 0 sends an interrupt to core 1, which handles it. -/
def drainSteps : List (ℕ × Intr.Choice LockQueue.Choice) :=
  queueSteps (enqueueSteps 0 7 32) ++ (1, .receive) :: getSteps 1 ++ List.replicate 4 (1, .go)

/-- The interrupt of thread 0 has been sent before the call, and is handled in it. -/
theorem lockQueue_receive_drains_one : ∃ p q cfg,
    Run 1 (p ++ (1, .receive) :: q ++ [(1, .done)]) cfg ∧
      NoNull (p ++ (1, .receive) :: q ++ [(1, .done)]) ∧
      Fifo.completed 0 (queueTrace p) = [7] ∧ handled q = [7] ∧
        Drained p (p ++ (1, .receive) :: q ++ [(1, .done)]) := by
  obtain ⟨tr, cfg, hr, ht⟩ : ∃ tr cfg, Run 1 tr cfg ∧ decide (tr = tr.take 11 ++ (1, .receive) ::
      (tr.drop 12).dropLast ++ [(1, .done)] ∧ NoNull tr ∧
        Fifo.completed 0 (queueTrace (tr.take 11)) = [7] ∧
          handled (tr.drop 12).dropLast = [7]) = true :=
    Interleave.Program.exists_run_of_exec (fun _ _ _ _ => true) (fun _ _ _ _ _ => trivial)
      start_startConfig drainSteps _ (by decide)
  obtain ⟨htr, hn, hcomp, hhand⟩ := of_decide_eq_true ht
  rw [htr] at hr hn
  exact ⟨_, _, cfg, hr, hn, hcomp, hhand, lockQueue_receive_drains hr hn _ _ rfl⟩

/-- Thread 0 sends `NULL` and then 8 to core 1, which receives. -/
def nullSteps : List (ℕ × Intr.Choice LockQueue.Choice) :=
  queueSteps (enqueueSteps 0 NULL 32 ++ enqueueSteps 0 8 48) ++ (1, .receive) :: getSteps 1 ++
    [(1, .go)]

/-- **A `NULL` ends `coremu_receive_intr` early**: the interrupt 8 was sent before it was
called and is not handled. -/
theorem lockQueue_null_leaves_interrupt : ∃ p q tr cfg, Run 1 tr cfg ∧
    tr = p ++ (1, .receive) :: q ++ [(1, .done)] ∧
      Fifo.completed 0 (queueTrace p) = [NULL, 8] ∧ 8 ∉ handled tr ∧ ¬ Drained p tr := by
  obtain ⟨tr, cfg, hr, ht⟩ : ∃ tr cfg, Run 1 tr cfg ∧ decide (tr = tr.take 22 ++ (1, .receive) ::
      (tr.drop 23).dropLast ++ [(1, .done)] ∧
        Fifo.completed 0 (queueTrace (tr.take 22)) = [NULL, 8] ∧ handled tr = []) = true :=
    Interleave.Program.exists_run_of_exec (fun _ _ _ _ => true) (fun _ _ _ _ _ => trivial)
      start_startConfig nullSteps _ (by decide)
  obtain ⟨htr, hcomp, hhand⟩ := of_decide_eq_true ht
  refine ⟨_, _, tr, cfg, hr, htr, hcomp, by simp [hhand], fun hd => ?_⟩
  have := hd.take 0
  rw [hcomp, hhand] at this
  simp at this

end Coremu.Intr.Lock

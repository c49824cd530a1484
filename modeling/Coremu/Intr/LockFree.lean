import Coremu.Intr.Drain
import Coremu.MsQueue.Linearizable
import Coremu.MsQueue.Progress

/-!
# Receiving interrupts from the lock-free queue

With `main/ms-queue.c` each enqueuer counts its value after it has linked it, and any
number of them may be in between.  The value of such an enqueuer may be dequeued before
it is counted, in place of one that is counted; then the counter reaches zero while an
interrupt that has been sent is still in the queue, and `coremu_receive_intr` returns
without handling it.

The counter keeps account only as long as the queue loses no value, so the results about it
are about runs in which no block is freed that an enqueue is about to compare and swap.

## Main definitions

* `NoReuse`, `Unreleased` — what is assumed of the allocator, and of the blocks freed.
* `Run`, `KeptRun` — the runs under the first assumption, and under both.
* `Held` — every interrupt that is not counted is still in the queue.

## Main results

* `counter`, `progress` — the queue keeps account, and a dequeue of the core takes at
  most 27 steps.
* `lockFreeQueue_leaves_interrupt` — **`coremu_receive_intr` may leave an interrupt that
  was sent before it was called.**
* `lockFreeQueue_receive_drains` — **it handles all of them, if none is `NULL` and `Held` is
  true whenever it tests the counter.**
-/

namespace Coremu.Intr.LockFree

open Coremu.MsQueue

/-- In none of the queue's functions. -/
def isIdle : Pc → Bool
  | .idle => true
  | _ => false

/-- `main/ms-queue.c` as a queue. -/
def queue : Queue Shared MsQueue.Thread MsQueue.Choice where
  program := MsQueue.program
  queueGetSize := MsQueue.queueGetSize
  idle t := isIdle t.pc

theorem isIdle_iff {p : Pc} : isIdle p = true ↔ p = .idle := by
  cases p <;> simp [isIdle]

/-- A configuration of the queue and of `coremu_receive_intr`. -/
abbrev Config := Interleave.Config ℕ Shared (Intr.Thread MsQueue.Thread)

/-- The allocator hands out no block twice. -/
def NoReuse (tr : List (ℕ × Event)) (cfg : Config) (i : ℕ) :
    Intr.Choice MsQueue.Choice → Prop
  | .queue x => MsQueue.NoReuse (queueTrace tr) (queueConfig cfg) i x
  | _ => True

instance (tr : List (ℕ × Event)) (cfg : Config) (i : ℕ) : ∀ x, Decidable (NoReuse tr cfg i x)
  | .queue x => inferInstanceAs (Decidable (MsQueue.NoReuse (queueTrace tr) (queueConfig cfg) i x))
  | .receive | .go => inferInstanceAs (Decidable True)

/-- No block is freed that an enqueue is about to compare and swap. -/
def Unreleased (tr : List (ℕ × Event)) (cfg : Config) (i : ℕ) :
    Intr.Choice MsQueue.Choice → Prop
  | .queue x => MsQueue.Unreleased (queueTrace tr) (queueConfig cfg) i x
  | _ => True

/-- The runs of `coremu_receive_intr` on the lock-free queue of core `c`, in which no
block is handed out twice. -/
abbrev Run (c : ℕ) := (program queue c).Run (Start NewQueue) NoReuse

/-- Those of them in which no block is freed that an enqueue is about to compare and swap. -/
abbrev KeptRun (c : ℕ) := (program queue c).Run (Start NewQueue) fun tr cfg i x =>
  NoReuse tr cfg i x ∧ Unreleased tr cfg i x

variable {c i : ℕ} {g : Ghost} {s : Shared}

/-! ### The counter keeps account -/

theorem enqInv_op {p : EnqPc} (h : EnqInv g s i p) : (g.abs.op i).InEnq := by
  cases p with
  | sigmaskBlk v | newNode v => exact .inl ⟨v, h⟩
  | setValue v _ | setNext v _ | readTail v _ => exact .inl ⟨v, h.1⟩
  | restTail v _ _ | readNext v _ _ | restNext v _ _ _ | readCur v _ _ _ | restCur v _ _ _ _
  | cmp128 v _ _ _ _ | link v _ _ _ | advance v _ _ _ => exact .inl ⟨v, h.1.1⟩
  | swing _ _ => exact .inr h.1
  | incCount | sigmaskRes | ret => exact .inr h

theorem deqInv_op {p : DeqPc} (h : DeqInv g s i p) : g.abs.op i ≠ .idle := by
  have hdeq : (∃ w, g.abs.op i = .deq w) → g.abs.op i ≠ .idle := by
    rintro ⟨w, ho⟩
    simp [ho]
  have hdone : (∃ v, g.abs.op i = .deqDone v) → g.abs.op i ≠ .idle := by
    rintro ⟨v, ho⟩
    simp [ho]
  cases p with
  | sigmaskBlk | readHead => exact hdeq h
  | restHead _ | readTail _ | restTail _ _ | readNext _ _ | restNext _ _ _ | readCur _ _ _
  | restCur _ _ _ _ | cmp128 _ _ _ _ | advance _ _ | readValue _ _ | swing _ _ _ => exact hdeq h.1
  | free _ v => exact hdone ⟨v, h.1⟩
  | decCount v | sigmaskRes v => exact hdone ⟨v, h⟩
  | ret r =>
    cases r with
    | none => exact hdeq ⟨_, h⟩
    | some v => exact hdone ⟨v, h⟩

theorem idle_iff {t : MsQueue.Thread} (h : ThreadInv g s i t.pc) :
    queue.idle t = true ↔ g.abs.op i = .idle := by
  have hop := h.op
  change isIdle t.pc = true ↔ _
  cases hpc : t.pc with
  | idle =>
    rw [hpc] at hop
    exact iff_of_true rfl hop
  | enq p =>
    rw [hpc] at hop
    exact iff_of_false Bool.false_ne_true (enqInv_op hop).ne_idle
  | deq p =>
    rw [hpc] at hop
    exact iff_of_false Bool.false_ne_true (deqInv_op hop)

theorem popped_op {p : Pc} (h : OpInv g s i p) (hp : p.popped = true) :
    ∃ v, g.abs.op i = .deqDone v := by
  cases p with
  | idle => cases hp
  | enq p => cases hp
  | deq p =>
    cases p with
    | free _ v => exact ⟨v, h.1⟩
    | decCount v => exact ⟨v, h⟩
    | _ => cases hp

/-- The list has no more nodes than there are blocks. -/
theorem length_le (h : SharedInv g s) : g.abs.content.length ≤ 2 ^ 60 := by
  have hlen := length_le_of_block h.list.nodup fun a ha => (h.node a ha).1
  have heq := h.list.length_eq
  rw [List.length_map] at heq
  omega

theorem counts {cfg : MsQueue.Config} (h : Inv g cfg) (hlost : g.lost = 0) :
    Counts queue (fun t => t.pc.uncounted) (fun t => t.pc.popped) g.abs cfg where
  idle i := idle_iff (h.2 i)
  taken i hp := popped_op (h.2 i).op hp
  length := length_le h.1
  size := by
    refine ⟨g.uncounted, g.popped, fun i => (h.2 i).uncounted, fun i => (h.2 i).popped, ?_⟩
    change cfg.shared.count.toInt = _
    rw [h.1.count, hlost, Nat.cast_zero, add_zero]

/-- Only the link opens the window. -/
theorem uncounted_step {p : Pc} {t t' : MsQueue.Thread} {x : MsQueue.Choice} {s' : Shared}
    {e : Fifo.Event DataType} (hst : MsQueue.Step s t p x s' t' e) (hu : t'.pc.uncounted = true) :
    p.uncounted = true ∨ ∃ v, e = .append v := by
  cases hst with
  | link v => exact .inr ⟨v, rfl⟩
  | enqSwing => exact .inl rfl
  | _ => cases hu

/-- **The counter of the lock-free queue keeps account.** -/
def counter (c : ℕ) : Counter queue NewQueue (Sole c) where
  uncounted t := t.pc.uncounted
  popped t := t.pc.popped
  counts h := by
    obtain ⟨g, hlost, hg, hi⟩ := SoleRun.inv h
    exact ⟨g.abs, hg, counts hi hlost⟩
  idle {t} h := by
    rw [isIdle_iff.mp h]
    rfl
  window hs hu := uncounted_step (MsQueue.step_cases hs) hu

/-- Only a call of `dequeue` is restricted besides. -/
theorem allows (c : ℕ) :
    Allows queue c (fun tr cfg i x => NoReuse tr cfg i x ∧ Unreleased tr cfg i x) (Sole c) := by
  intro tr cfg i x s' l f hx hs hc
  refine ⟨hx, ?_⟩
  rintro rfl
  refine hc ?_
  have hst : MsQueue.Step cfg.shared _ (cfg.thread i).queue.pc .callDeq s' l f :=
    MsQueue.step_cases hs
  generalize (cfg.thread i).queue.pc = p at hst
  cases hst
  rfl

/-! ### A dequeue of the core ends -/

/-- The steps that are left of a dequeue. -/
def left (s : Shared) (t : MsQueue.Thread) : ℕ :=
  match t.pc with
  | .idle => 27
  | .deq p => MsQueue.left s p
  | .enq _ => 0

/-- In the `dequeue` of `coremu_get_intr` the core is in no `enqueue`. -/
theorem not_enq {t : MsQueue.Thread} (h : ThreadInv g s c t.pc) (hin : InDeq g.abs c) (p : EnqPc) :
    t.pc ≠ .enq p := by
  intro hpc
  have hop := h.op
  rw [hpc] at hop
  exact hin.not_inEnq (enqInv_op hop)

/-- **A dequeue of the core takes at most 27 steps.** -/
theorem progress (c : ℕ) : Progress queue NewQueue (Sole c) c 27 left where
  call s t ht := by
    rw [left, isIdle_iff.mp ht]
  self {tr cfg a x s' l f} hrun ha hin hs hf hf' := by
    obtain ⟨g, -, hg, hi⟩ := SoleRun.inv hrun
    obtain rfl : a = g.abs := Option.some.inj (ha.symm.trans hg)
    obtain ⟨-, hcur⟩ := SoleRun.current hrun
    have hs' : MsQueue.step cfg.shared (cfg.thread c) x = some (s', l, f) := hs
    cases hpc : (cfg.thread c).pc with
    | idle =>
      simp only [MsQueue.step, hpc] at hs'
      cases x with
      | callEnq v => cases hs'; exact absurd rfl (hf v)
      | callDeq =>
        cases hs'
        have hle := round_le cfg.shared.head.ptr cfg.shared.tail.ptr
        simp only [left, hpc, Thread.goto, MsQueue.left]
        omega
      | _ => cases hs'
    | enq p => exact absurd hpc (not_enq (hi.2 c) hin p)
    | deq p =>
      simp only [MsQueue.step, hpc] at hs'
      have hop := (hi.2 c).op
      rw [hpc] at hop
      rcases current_dequeue hi.1 hop (hcur p hpc) hs' with ⟨r, hr, -⟩ | ⟨p', hp', -, hlt⟩
      · exact absurd hr (hf' r)
      · simp only [left, hpc, hp']
        exact hlt
  other {tr cfg i x s' l f} hrun hx hic hs _ := by
    obtain ⟨g, -, -, hi⟩ := SoleRun.inv hrun
    obtain ⟨hother, hcur⟩ := SoleRun.current hrun
    have hs' : MsQueue.step cfg.shared (cfg.thread i) x = some (s', l, f) := hs
    obtain ⟨hhead, -⟩ := step_head (hother i hic) (fun e => hic (hx.2 e)) hs'
    have hev := hi.evolves (hi.unheld_of_noReuse hx.1.1) hs'
    cases hpc : (cfg.thread c).pc with
    | idle => simp only [left, hpc, le_refl]
    | enq p => simp only [left, hpc, le_refl]
    | deq p =>
      simp only [left, hpc]
      exact left_evolves (hcur p hpc) hev hhead
  enabled {tr cfg a} hrun ha hin := by
    obtain ⟨g, -, hg, hi⟩ := SoleRun.inv hrun
    obtain rfl : a = g.abs := Option.some.inj (ha.symm.trans hg)
    cases hpc : (cfg.thread c).pc with
    | idle =>
      refine ⟨.callDeq, cfg.shared, (cfg.thread c).goto (.deq .sigmaskBlk), .callDeq, ?_, by simp⟩
      change MsQueue.step cfg.shared (cfg.thread c) .callDeq = _
      simp only [MsQueue.step, hpc]
    | enq p => exact absurd hpc (not_enq (hi.2 c) hin p)
    | deq p =>
      obtain ⟨x, s', t', e, hs, he⟩ := dequeue_enabled cfg.shared (cfg.thread c) p
      refine ⟨x, s', t', e, ?_, he⟩
      change MsQueue.step cfg.shared (cfg.thread c) x = _
      simp only [MsQueue.step, hpc, hs]

/-! ### Draining -/

/-- Every interrupt that is linked and not counted is still in the queue: none was
dequeued before its sender counted it. -/
def Held (tr : List (ℕ × Event)) (cfg : Config) : Prop :=
  ∀ i, (cfg.thread i).queue.pc.uncounted = true →
    ∀ a, Fifo.exec (queueTrace tr) = some a → ∃ e ∈ a.content, e.sender = i ∧ e.seq = a.finished i

/-- No block is handed out twice, none is freed that an enqueue is about to compare and swap,
and when core `c` tests the counter, every interrupt that is not counted is still in the
queue. -/
def HeldAtTest (c : ℕ) (tr : List (ℕ × Event)) (cfg : Config) (i : ℕ)
    (x : Intr.Choice MsQueue.Choice) : Prop :=
  (NoReuse tr cfg i x ∧ Unreleased tr cfg i x) ∧
    ((cfg.thread c).recv = .intrP → i = c → Held tr cfg)

/-- The runs of `coremu_receive_intr` in which every test is made with all interrupts
that are not counted in the queue. -/
abbrev HeldRun (c : ℕ) := (program queue c).Run (Start NewQueue) (HeldAtTest c)

/-- If each of the threads in `U` has its unfinished value in a queue of no more values,
then the queue holds no other values. -/
theorem leftover_of_held {a : Fifo.State ℕ DataType} {U : Finset ℕ}
    (hU : ∀ i ∈ U, ∃ e ∈ a.content, e.sender = i ∧ e.seq = a.finished i)
    (hlen : a.content.length ≤ U.card) : Fifo.Leftover a.finished a := by
  set unfinished := a.content.filter fun e => e.seq = a.finished e.sender with hunf
  have hsub : U ⊆ (unfinished.map (·.sender)).toFinset := by
    intro i hi
    obtain ⟨e, he, rfl, hseq⟩ := hU i hi
    rw [List.mem_toFinset, List.mem_map]
    exact ⟨e, List.mem_filter.mpr ⟨he, decide_eq_true hseq⟩, rfl⟩
  -- so all values are of this kind
  have hle : a.content.length ≤ unfinished.length := by
    calc a.content.length ≤ U.card := hlen
      _ ≤ (unfinished.map (·.sender)).toFinset.card := Finset.card_le_card hsub
      _ ≤ (unfinished.map (·.sender)).length := List.toFinset_card_le _
      _ = unfinished.length := List.length_map _
  have hall := List.length_filter_eq_length_iff.mp
    (le_antisymm (List.length_filter_le _ _) (hunf ▸ hle))
  intro e he
  exact (of_decide_eq_true (hall e he)).ge

theorem endsClean (c : ℕ) : EndsClean queue c NewQueue (HeldAtTest c) := by
  intro tr cfg a hrun hal ha hr ht
  have hallow : Allows queue c (HeldAtTest c) (Sole c) :=
    fun _ _ _ _ _ _ _ hx => allows c _ _ _ _ _ _ _ hx.1
  obtain ⟨b, hb, hcnt, hinv⟩ := Run.recvInv (counter c) hallow hrun
  obtain rfl : a = b := Option.some.inj (ha.symm.trans hb)
  obtain ⟨U, hU, hle⟩ := hinv.length_le_of_test ha hcnt hr ht
  exact leftover_of_held (fun i hi => hal.2 hr rfl i ((hU i).mp hi) a ha) hle

/-- **`coremu_receive_intr` drains the lock-free queue**, if no `NULL` is put on it, and
whenever it tests the counter every interrupt that is linked and not counted is still in
the queue. -/
theorem lockFreeQueue_receive_drains {tr : List (ℕ × Event)} {cfg : Config}
    (h : HeldRun c tr cfg) (hn : NoNull tr) :
    ∀ p q, tr = p ++ (c, .receive) :: q ++ [(c, .done)] → Drained p tr := by
  rintro p q rfl
  exact Run.drained (counter c) (fun _ _ _ _ _ _ _ hx => allows c _ _ _ _ _ _ _ hx.1)
    (endsClean c) h hn

/-! ### Runs -/

/-- `new_queue()` for core 2, with no thread in an operation. -/
def startConfig : Config :=
  ⟨(MsQueue.start 16).shared, fun _ => ⟨.out, ⟨.idle, 0, 0⟩⟩⟩

theorem start_startConfig : Start NewQueue startConfig :=
  ⟨⟨_, 16, by decide, rfl, fun _ => rfl⟩, fun _ => rfl⟩

/-- Steps of the queue. -/
def queueSteps (l : List (ℕ × MsQueue.Choice)) : List (ℕ × Intr.Choice MsQueue.Choice) :=
  l.map fun p => (p.1, .queue p.2)

/-- Core 2 receives, and finds one interrupt. -/
def receiveSteps : List (ℕ × Intr.Choice MsQueue.Choice) :=
  [(2, .receive), (2, .go)] ++ queueSteps (dequeueSteps 2 ⟨⟨9, 9⟩, 9⟩) ++ List.replicate 4 (2, .go)

/-- The call of core 2 that begins after `n` steps and returns at the end. -/
def ReceivesAt (n : ℕ) (tr : List (ℕ × Event)) : Prop :=
  tr = tr.take n ++ (2, .receive) :: (tr.drop (n + 1)).dropLast ++ [(2, .done)]

instance (n : ℕ) (tr : List (ℕ × Event)) : Decidable (ReceivesAt n tr) :=
  inferInstanceAs (Decidable (tr = _))

/-- Thread 0 sends 7; thread 1 links 8 and does not count it.  Then core 2 receives. -/
def heldSteps : List (ℕ × Intr.Choice MsQueue.Choice) :=
  queueSteps (enqueueToLink 0 7 32 ⟨⟨5, 5⟩, 5⟩ ++ enqueueFromLink 0 ++
    enqueueToLink 1 8 48 ⟨⟨5, 5⟩, 5⟩ ++ [(1, .go), (1, .go)]) ++ receiveSteps

/-- No block is handed out twice, and none freed that one of the threads below 3 is about to
compare and swap. -/
def keptGuard (tr : List (ℕ × Event)) (cfg : Config) (i : ℕ) (x : Intr.Choice MsQueue.Choice) :
    Bool :=
  decide (NoReuse tr cfg i x) && keepsWithin 3 (queueConfig cfg) i

theorem kept_of_guard {tr : List (ℕ × Event)} {cfg : Config} {x : Intr.Choice MsQueue.Choice}
    (hcfg : ∀ j, ¬ j < 3 → cfg.thread j = startConfig.thread j)
    (h : keptGuard tr cfg i x = true) : NoReuse tr cfg i x ∧ Unreleased tr cfg i x := by
  obtain ⟨hx, hkept⟩ := Bool.and_eq_true_iff.mp h
  refine ⟨of_decide_eq_true hx, ?_⟩
  have hidle : ∀ j, ¬ j < 3 → (queueConfig cfg).thread j = (MsQueue.start 16).thread j := by
    intro j hj
    change (cfg.thread j).queue = _
    rw [hcfg j hj]
    rfl
  cases x with
  | queue x =>
    change MsQueue.Unreleased (queueTrace tr) (queueConfig cfg) i x
    exact unreleased_of_keepsWithin hidle hkept
  | receive | go => trivial

/-- `HeldAtTest 2`, if only the threads below 3 have moved. -/
def heldGuard (tr : List (ℕ × Event)) (cfg : Config) (i : ℕ) (x : Intr.Choice MsQueue.Choice) :
    Bool :=
  keptGuard tr cfg i x && (List.range 3).all fun j =>
    !(cfg.thread j).queue.pc.uncounted || (Fifo.exec (queueTrace tr)).all fun a =>
      a.content.any fun e => e.sender = j ∧ e.seq = a.finished j

theorem heldAtTest_of_guard {tr : List (ℕ × Event)} {cfg : Config}
    {x : Intr.Choice MsQueue.Choice} (hcfg : ∀ j, ¬ j < 3 → cfg.thread j = startConfig.thread j)
    (h : heldGuard tr cfg i x = true) : HeldAtTest 2 tr cfg i x := by
  obtain ⟨hx, hheld⟩ := Bool.and_eq_true_iff.mp h
  refine ⟨kept_of_guard hcfg hx, fun _ _ j hj a ha => ?_⟩
  by_cases hj3 : j < 3
  · have := List.all_eq_true.mp hheld j (List.mem_range.mpr hj3)
    rw [hj, ha] at this
    simpa using this
  · rw [hcfg j hj3] at hj
    cases hj

/-- The interrupt of thread 0 was sent before the call and is handled, while that of
thread 1 is in the queue and not counted. -/
theorem lockFreeQueue_receive_drains_one : ∃ p q tr cfg, HeldRun 2 tr cfg ∧ NoNull tr ∧
    tr = p ++ (2, .receive) :: q ++ [(2, .done)] ∧ Fifo.completed 0 (queueTrace p) = [7] ∧
      handled tr = [7] ∧ Fifo.appended (queueTrace p) = [(0, 7), (1, 8)] ∧ Drained p tr := by
  obtain ⟨tr, cfg, hr, -, ht⟩ : ∃ tr cfg, HeldRun 2 tr cfg ∧
      (∀ j, ¬ j < 3 → cfg.thread j = startConfig.thread j) ∧ decide (ReceivesAt 31 tr ∧
      NoNull tr ∧ Fifo.completed 0 (queueTrace (tr.take 31)) = [7] ∧ handled tr = [7] ∧
        Fifo.appended (queueTrace (tr.take 31)) = [(0, 7), (1, 8)]) = true :=
    Interleave.Program.exists_run_of_exec_within (· < 3) heldGuard
      (fun _ _ _ _ hcfg hg => heldAtTest_of_guard hcfg hg) start_startConfig heldSteps (by decide)
      _ (by decide)
  obtain ⟨htr, hn, hcomp, hhand, happ⟩ := of_decide_eq_true ht
  exact ⟨_, _, tr, cfg, hr, hn, htr, hcomp, hhand, happ,
    lockFreeQueue_receive_drains hr hn _ _ htr⟩

/-- Thread 0 links its interrupt 7 and does not count it; thread 1 sends 8.  Then core 2
receives. -/
def overtakenSteps : List (ℕ × Intr.Choice MsQueue.Choice) :=
  queueSteps (enqueueToLink 0 7 32 ⟨⟨5, 5⟩, 5⟩ ++ [(0, .go), (0, .go)] ++
    enqueueToLink 1 8 48 ⟨⟨5, 5⟩, 5⟩ ++ enqueueFromLink 1) ++ receiveSteps

/-- **`coremu_receive_intr` may leave an interrupt that was sent before it was called**:
that of thread 1, because the one of thread 0 was handled and is not counted. -/
theorem lockFreeQueue_leaves_interrupt : ∃ p q tr cfg, Run 2 tr cfg ∧
    tr = p ++ (2, .receive) :: q ++ [(2, .done)] ∧ Fifo.completed 1 (queueTrace p) = [8] ∧
      8 ∉ handled tr ∧ ¬ Drained p tr := by
  obtain ⟨tr, cfg, hr, ht⟩ : ∃ tr cfg, Run 2 tr cfg ∧ decide (ReceivesAt 31 tr ∧
      Fifo.completed 1 (queueTrace (tr.take 31)) = [8] ∧ handled tr = [7] ∧
        Fifo.appended (queueTrace tr) = [(0, 7), (1, 8)]) = true :=
    Interleave.Program.exists_run_of_exec (fun tr cfg i x => decide (NoReuse tr cfg i x))
      (fun _ _ _ _ => of_decide_eq_true) start_startConfig overtakenSteps
      (fun tr _ => decide (ReceivesAt 31 tr ∧ Fifo.completed 1 (queueTrace (tr.take 31)) = [8] ∧
        handled tr = [7] ∧ Fifo.appended (queueTrace tr) = [(0, 7), (1, 8)])) (by decide)
  obtain ⟨htr, hcomp, hhand, happ⟩ := of_decide_eq_true ht
  refine ⟨_, _, tr, cfg, hr, htr, hcomp, by rw [hhand]; decide, fun hd => ?_⟩
  have := hd.take 1
  rw [hcomp, hhand, happ] at this
  exact absurd this (by decide)

end Coremu.Intr.LockFree

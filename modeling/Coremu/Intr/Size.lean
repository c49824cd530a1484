import Coremu.Intr.Lock
import Coremu.Intr.LockFree
import Coremu.LockQueue.Tail
import Coremu.MsQueue.LinkCas
import Coremu.MsQueue.Retry

/-!
# What `queue_get_size` returns

Neither queue updates its counter together with its list.  A value is in the list and not
counted while its enqueuer stands between the link and `atomic_incq`, and it is out of the
list and still counted while its dequeuer stands between the move of `Head` and
`atomic_decq`.  Apart from these the counter is exact, and it may be negative: a value can
be dequeued and counted down before it is counted.  The lock-free queue also counts a value
that was lost at its link, so there this is about the runs in which no block is freed that an
enqueue is about to compare and swap.

The counter is a 64-bit word, so the equation is one between signed numbers only as long as
these are small.  They are: each value, linked or unlinked, has its own block.

## Main definitions

* `Accounts` — the size, the values and the threads in the two windows.

## Main results

* `Accounts.quiet` — with no thread in a window the size is the number of values.
* `msQueue_accounts`, `lockQueue_accounts` — the two queues.
* `queueGetSize_accounts` — **both counters keep account, if no value is lost.**
* `queueGetSize_counts_lost` — a lost value is counted for ever.
-/

namespace Coremu

namespace Intr

/-- The size of a queue with so many values is right up to the threads in the windows:
those that have linked a node and not counted it, and those that have unlinked one and not
counted down. -/
def Accounts (size : ℤ) (values : ℕ) (uncounted popped : ℕ → Bool) : Prop :=
  ∃ U D : Finset ℕ, (∀ i, i ∈ U ↔ uncounted i = true) ∧ (∀ i, i ∈ D ↔ popped i = true) ∧
    size = values - U.card + D.card

/-- With no thread in a window the size is the number of values. -/
theorem Accounts.quiet {size : ℤ} {values : ℕ} {uncounted popped : ℕ → Bool}
    (h : Accounts size values uncounted popped) (hu : ∀ i, uncounted i = false)
    (hp : ∀ i, popped i = false) : size = values := by
  obtain ⟨U, D, hU, hD, hsize⟩ := h
  have hU0 : U = ∅ := Finset.eq_empty_of_forall_notMem fun i hi => by
    rw [hU, hu] at hi
    cases hi
  have hD0 : D = ∅ := Finset.eq_empty_of_forall_notMem fun i hi => by
    rw [hD, hp] at hi
    cases hi
  rw [hsize, hU0, hD0]
  simp

/-! ### The lock-free queue -/

section LockFree

open MsQueue

variable {g : Ghost} {s : Shared} {tr : List (ℕ × Fifo.Event DataType)} {cfg : MsQueue.Config}

theorem LockFree.uncounted_op {i : ℕ} {p : Pc} (h : OpInv g s i p) (hp : p.uncounted = true) :
    g.abs.op i = .enqDone := by
  cases p with
  | idle => cases hp
  | deq p => cases hp
  | enq p =>
    cases p with
    | swing node tail => exact h.1
    | incCount => exact h
    | _ => cases hp

/-- The counter of the lock-free queue.  The threads in a window have linked or unlinked a
node, and there are not enough blocks for so many that the counter could overflow. -/
theorem msQueue_accounts (h : FreshKeptRun tr cfg) : ∃ nodes, MsQueue.Reachable cfg.shared nodes ∧
    Accounts (MsQueue.queueGetSize cfg.shared) nodes.tail.length
      (fun i => (cfg.thread i).pc.uncounted) fun i => (cfg.thread i).pc.popped := by
  have hfresh : FreshRun tr cfg := h.mono fun _ _ _ _ hx => hx.1
  obtain ⟨-, hr, -⟩ := hfresh.run_inv
  obtain ⟨g, hlost, hg, hi⟩ := h.inv
  refine ⟨g.nodes, hi.1.reachable, g.uncounted, g.popped, fun i => (hi.2 i).uncounted,
    fun i => (hi.2 i).popped, ?_⟩
  -- each thread in a window has appended or removed a value of its own
  have hU : g.uncounted.card ≤ (Fifo.appended tr).length := 
    Fifo.card_enqDone_le (Fifo.lossy_zero_iff.mpr hg) fun i hm =>
      LockFree.uncounted_op (hi.2 i).op ((hi.2 i).uncounted.mp hm)
  have hD : g.popped.card ≤ (Fifo.removed tr).length := 
    Fifo.card_deqDone_le (Fifo.lossy_zero_iff.mpr hg) fun i hm =>
      LockFree.popped_op (hi.2 i).op ((hi.2 i).popped.mp hm)
  have hlen := hi.1.length_le hr
  have hnodes := hi.1.list.length_eq
  have hgone := hi.1.headChanges
  obtain ⟨pre, happ, hrem⟩ := Fifo.appended_eq hg
  rw [hfresh.headChanges_eq] at hgone
  rw [happ, List.length_append, List.length_map] at hU
  rw [hrem, List.length_map] at hD hgone
  rw [List.length_map] at hnodes
  rw [MsQueue.queueGetSize, hi.1.count, hi.1.list.length_tail, List.length_map, hlost,
    Nat.cast_zero, add_zero]
  exact toInt_ofInt_of_lt (by omega) (by omega)

end LockFree

/-! ### The lock-based queue -/

section Lock

open LockQueue

variable {c : ℕ} {tr : List (ℕ × Fifo.Event DataType)} {cfg : LockQueue.Config}

/-- The counter of the lock-based queue.  An enqueuer counts its value while it holds the
lock, so only one can be in its window. -/
theorem lockQueue_accounts (h : LockQueue.Run c tr cfg) :
    (∃ nodes, LockQueue.Reachable cfg.shared nodes ∧
      Accounts (LockQueue.queueGetSize cfg.shared) nodes.tail.length
        (fun i => Lock.uncounted (cfg.thread i)) fun i => Lock.popped (cfg.thread i)) ∧
    ∀ i j, Lock.uncounted (cfg.thread i) = true → Lock.uncounted (cfg.thread j) = true →
      i = j := by
  obtain ⟨g, -, hi⟩ := h.inv
  refine ⟨⟨g.nodes, hi.1.reachable, ?_⟩, fun i j hui huj => ?_⟩
  · obtain ⟨U, D, hU, hD, hu, hd⟩ := Lock.exists_windows hi
    refine ⟨U, D, hU, hD, ?_⟩
    have hlen := Lock.length_le hi.1
    have hu1 := Bool.toNat_le g.uncounted
    have hd1 := Bool.toNat_le g.popped
    rw [LockQueue.queueGetSize, hi.1.count, hi.1.list.length_tail, List.length_map, hu, hd]
    exact toInt_ofInt_of_lt (by omega) (by omega)
  · have hhi := ((Lock.uncounted_iff (hi.2 i)).mp hui).1
    have hhj := ((Lock.uncounted_iff (hi.2 j)).mp huj).1
    exact Option.some.inj (hhi.symm.trans hhj)

end Lock

/-! ### Both queues -/

/-- **Both counters keep account**, that of the lock-free queue if no block is freed that an
enqueue is about to compare and swap, that of the lock-based one with the consumer `c`.  In
every state of every such run, `queue_get_size` is the number of values in the list, less the
enqueuers that have linked their node and not counted it, plus the dequeuers that have moved
`Head` and not counted down.  When no operation is in progress it is the number of values, and
in the lock-based queue at most one enqueuer is in its window. -/
theorem queueGetSize_accounts (c : ℕ) :
    (∀ tr cfg, MsQueue.FreshKeptRun tr cfg → ∃ nodes, MsQueue.Reachable cfg.shared nodes ∧
      Accounts (MsQueue.queueGetSize cfg.shared) nodes.tail.length
        (fun i => (cfg.thread i).pc.uncounted) (fun i => (cfg.thread i).pc.popped) ∧
      ((∀ i, (cfg.thread i).pc = .idle) →
        MsQueue.queueGetSize cfg.shared = nodes.tail.length)) ∧
    ∀ tr cfg, LockQueue.Run c tr cfg → (∃ nodes, LockQueue.Reachable cfg.shared nodes ∧
      Accounts (LockQueue.queueGetSize cfg.shared) nodes.tail.length
        (fun i => Lock.uncounted (cfg.thread i)) (fun i => Lock.popped (cfg.thread i)) ∧
      ((∀ i, cfg.thread i = .idle) → LockQueue.queueGetSize cfg.shared = nodes.tail.length)) ∧
      ∀ i j, Lock.uncounted (cfg.thread i) = true → Lock.uncounted (cfg.thread j) = true →
        i = j := by
  refine ⟨fun tr cfg h => ?_, fun tr cfg h => ?_⟩
  · obtain ⟨nodes, hn, hacc⟩ := msQueue_accounts h
    refine ⟨nodes, hn, hacc, fun hidle => hacc.quiet (fun i => ?_) fun i => ?_⟩ <;>
    · rw [hidle i]
      rfl
  · obtain ⟨⟨nodes, hn, hacc⟩, hone⟩ := lockQueue_accounts h
    refine ⟨⟨nodes, hn, hacc, fun hidle => hacc.quiet (fun i => ?_) fun i => ?_⟩, hone⟩ <;>
    · rw [hidle i]
      rfl

/-- Thread 0 links its node and stops; thread 2 moves `Tail` on, and dequeues the value. -/
def overtakenSteps : List (ℕ × MsQueue.Choice) :=
  open MsQueue in
  enqueueToLink 0 7 32 ⟨⟨5, 5⟩, 5⟩ ++ [(0, .go), (2, .callDeq), (2, .go)] ++
    (readPair 2 ++ readPair 2 ++ readPair 2 ++ readPair 2) ++ [(2, .go), (2, .go)] ++
    (readPair 2 ++ readPair 2 ++ readPair 2 ++ readPair 2) ++
    List.replicate 3 (2, .go) ++ [(2, .free ⟨⟨9, 9⟩, 9⟩)] ++ List.replicate 3 (2, .go)

/-- The size of the lock-free queue is `-1` when a value is dequeued before it is counted;
that of the lock-based queue is back at 0 after one value. -/
theorem queueGetSize_accounts_served :
    (∃ tr cfg, MsQueue.FreshKeptRun tr cfg ∧ MsQueue.queueGetSize cfg.shared = -1 ∧
      ∃ nodes, MsQueue.Reachable cfg.shared nodes ∧
        Accounts (-1) nodes.tail.length (fun i => (cfg.thread i).pc.uncounted)
          fun i => (cfg.thread i).pc.popped) ∧
    ∃ tr cfg, LockQueue.Run 1 tr cfg ∧ LockQueue.queueGetSize cfg.shared = 0 ∧
      ∃ nodes, LockQueue.Reachable cfg.shared nodes ∧
        Accounts 0 nodes.tail.length (fun i => Lock.uncounted (cfg.thread i))
          fun i => Lock.popped (cfg.thread i) := by
  constructor
  · obtain ⟨tr, cfg, hr, ht⟩ := MsQueue.exists_freshKeptRun 3 (show Block 16 by decide)
      overtakenSteps (by decide) (fun _ cfg => decide (MsQueue.queueGetSize cfg.shared = -1))
      (by decide)
    have hsize := of_decide_eq_true ht
    obtain ⟨nodes, hn, hacc, -⟩ := (queueGetSize_accounts 1).1 tr cfg hr
    exact ⟨tr, cfg, hr, hsize, nodes, hn, hsize ▸ hacc⟩
  · obtain ⟨tr, cfg, hr, ht⟩ : ∃ tr cfg, LockQueue.Run 1 tr cfg ∧
        decide (LockQueue.queueGetSize cfg.shared = 0) = true :=
      Interleave.Program.exists_run_of_exec
        (fun tr cfg i x => decide (LockQueue.OneConsumer 1 tr cfg i x))
        (fun _ _ _ _ => of_decide_eq_true) (c := LockQueue.start 16) ⟨_, 16, by decide, rfl⟩
        (LockQueue.enqueueSteps 0 7 32 ++ LockQueue.dequeueSteps 1 ⟨5, 5⟩)
        (fun _ cfg => decide (LockQueue.queueGetSize cfg.shared = 0)) (by decide)
    have hsize := of_decide_eq_true ht
    obtain ⟨⟨nodes, hn, hacc, -⟩, -⟩ := (queueGetSize_accounts 1).2 tr cfg hr
    exact ⟨tr, cfg, hr, hsize, nodes, hn, hsize ▸ hacc⟩

/-- **A lost value is counted for ever**: after `lostLink` no operation is in progress, the
list is empty, and the size is 1. -/
theorem queueGetSize_counts_lost : ∃ tr cfg, MsQueue.FreshRun tr cfg ∧
    (∀ i, (cfg.thread i).pc = .idle) ∧ MsQueue.queueGetSize cfg.shared = 1 ∧
    MsQueue.Reachable cfg.shared [48] ∧ ∀ nodes, MsQueue.Reachable cfg.shared nodes →
      ¬ Accounts (MsQueue.queueGetSize cfg.shared) nodes.tail.length
        (fun i => (cfg.thread i).pc.uncounted) fun i => (cfg.thread i).pc.popped := by
  obtain ⟨tr, cfg, hr, hrest, ht⟩ : ∃ tr cfg, MsQueue.FreshRun tr cfg ∧
      (∀ j, ¬ j < 3 → cfg.thread j = (MsQueue.start 16).thread j) ∧ decide (
      (∀ j ∈ List.range 3, LockFree.isIdle (cfg.thread j).pc = true) ∧
      MsQueue.queueGetSize cfg.shared = 1 ∧ cfg.shared.head.ptr = 48 ∧
        cfg.shared.next 48 = NULL) = true :=
    Interleave.Program.exists_run_of_exec_within (· < 3)
      (fun tr cfg i x => decide (MsQueue.NoReuse tr cfg i x)) (fun _ _ _ _ _ => of_decide_eq_true)
      (MsQueue.newQueue_start 16 (by decide)) MsQueue.lostLink (by decide) _ (by decide +kernel)
  obtain ⟨hlt, hsize, hhead, hnext⟩ := of_decide_eq_true ht
  have hidle : ∀ i, (cfg.thread i).pc = .idle := fun i => by
    by_cases hi : i < 3
    · exact LockFree.isIdle_iff.mp (hlt i (List.mem_range.mpr hi))
    · rw [hrest i hi]
      rfl
  have hone : MsQueue.Reachable cfg.shared [48] := ⟨⟨hhead, hnext⟩, by decide⟩
  refine ⟨tr, cfg, hr, hidle, hsize, hone, fun nodes hn hacc => ?_⟩
  have hlen := hacc.quiet (fun i => by rw [hidle i]; rfl) fun i => by rw [hidle i]; rfl
  rw [hn.unique hone, hsize] at hlen
  exact absurd hlen (by decide)

end Intr

end Coremu

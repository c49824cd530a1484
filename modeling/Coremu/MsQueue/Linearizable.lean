import Coremu.MsQueue.Run

/-!
# The lock-free queue as a linearizable FIFO

Any number of threads enqueue and dequeue.  An enqueue takes effect at its link
(line 161), a dequeue that finds a value at its move of `Head` (line 204), and one
that finds none at its last read of the pointer of `head.ptr->next`: the test of
line 188 shows that `Head` had not moved then.

This holds as long as no block is freed that an enqueue is about to compare and swap.  The
code does not see to that: `dequeue` frees the old dummy at once, and an enqueue that has
passed the test of line 155 may then find in it the pair that it has read, put there by the
allocator.  Its swap succeeds, and its value is lost.

## Main definitions

* `tornRead`, `lostLink` — a schedule in which this happens.

## Main results

* `msQueue_linearizable_fifo` — **linearizable, if no such block is freed.**
* `msQueue_loses_value` — otherwise not.
-/

namespace Coremu.MsQueue

variable {tr : List (ℕ × Fifo.Event DataType)} {cfg : Config}

/-- **The queue of `main/ms-queue.c` is a linearizable FIFO**, for every number of
enqueuers and dequeuers and every interleaving, if no block is freed that an enqueue is about
to compare and swap. -/
theorem msQueue_linearizable_fifo (h : KeptRun tr cfg) (hb : Bounded cfg.shared) :
    Fifo.Linearized tr := by
  obtain ⟨g, -, hg, -⟩ := h.inv hb
  exact Fifo.linearized_of_exec hg

/-! ### Schedules -/

/-- Reading a pair, the pointer first. -/
def readPair (i : ℕ) : List (ℕ × Choice) := [(i, .half .ptr), (i, .go)]

/-- The steps of an `enqueue` up to the swap of line 161, with no other thread moving. -/
def enqueueToLink (i : ℕ) (v : DataType) (a : Addr) (n : Node) : List (ℕ × Choice) :=
  [(i, .callEnq v), (i, .go), (i, .alloc a n), (i, .go), (i, .go)] ++
    readPair i ++ readPair i ++ readPair i ++ [(i, .go)]

/-- The steps of an `enqueue` from the swap of line 161 on. -/
def enqueueFromLink (i : ℕ) : List (ℕ × Choice) := List.replicate 5 (i, .go)

/-- The steps of a `dequeue` that finds a value, with what the release leaves in the block. -/
def dequeueSteps (i : ℕ) (n : Node) : List (ℕ × Choice) :=
  [(i, .callDeq), (i, .go)] ++ readPair i ++ readPair i ++ readPair i ++ readPair i ++
    List.replicate 3 (i, .go) ++ [(i, .free n)] ++ List.replicate 3 (i, .go)

/-- The steps of a `dequeue` that finds the queue empty. -/
def emptySteps (i : ℕ) : List (ℕ × Choice) :=
  [(i, .callDeq), (i, .go)] ++ readPair i ++ readPair i ++ readPair i ++ readPair i ++
    [(i, .go), (i, .go)]

/-- `new_queue()` on a cleared heap. -/
def start (node : Addr) : Config :=
  ⟨initializeQ (fun _ => ⟨⟨NULL, 0⟩, 0⟩) node, fun _ => ⟨.idle, 0, 0⟩⟩

theorem newQueue_start (node : Addr) (h : Block node) : NewQueue (start node) :=
  ⟨_, node, h, rfl, fun _ => rfl⟩

/-- Thread `i` does not free a block that one of the first `k` threads is about to compare and
swap. -/
def keepsWithin (k : ℕ) (cfg : Config) (i : ℕ) : Bool :=
  (List.range k).all fun j =>
    (cfg.thread i).frees.isNone || (cfg.thread j).held ≠ (cfg.thread i).frees

/-- That is enough if the others do nothing. -/
theorem unreleased_of_keepsWithin {k : ℕ} {node : Addr} {i : ℕ} {x : Choice}
    (hidle : ∀ j, ¬ j < k → cfg.thread j = (start node).thread j)
    (h : keepsWithin k cfg i = true) : Unreleased tr cfg i x := by
  intro a ha j hj
  by_cases hjk : j < k
  · have hne := List.all_eq_true.mp h j (List.mem_range.mpr hjk)
    simp [ha, hj] at hne
  · rw [hidle j hjk] at hj
    cases hj

/-- A schedule of the first `k` threads that keeps to this and hands out no block twice. -/
theorem exists_freshKeptRun (k : ℕ) {node : Addr} (hb : Block node) (sched : List (ℕ × Choice))
    (hk : ∀ p ∈ sched, p.1 < k) (test : List (ℕ × Fifo.Event DataType) → Config → Bool)
    (h : (program.exec (fun tr cfg i x => decide (NoReuse tr cfg i x) && keepsWithin k cfg i) []
      (start node) sched).any (fun r => test r.1 r.2) = true) :
    ∃ tr cfg, FreshKeptRun tr cfg ∧ test tr cfg = true := by
  have hallow : ∀ tr (cfg : Config) i x,
      (∀ j, ¬ j < k → cfg.thread j = (start node).thread j) →
      (decide (NoReuse tr cfg i x) && keepsWithin k cfg i) = true →
        NoReuse tr cfg i x ∧ Unreleased tr cfg i x := by
    intro tr cfg i x hidle hx
    obtain ⟨hfresh, hkept⟩ := Bool.and_eq_true_iff.mp hx
    exact ⟨of_decide_eq_true hfresh, unreleased_of_keepsWithin hidle hkept⟩
  obtain ⟨tr, cfg, hr, -, ht⟩ := Interleave.Program.exists_run_of_exec_within (· < k) _ hallow
    (newQueue_start node hb) sched hk test h
  exact ⟨tr, cfg, hr, ht⟩

/-- Two threads enqueue, the second one while the first is in the middle; a third
thread dequeues both values. -/
theorem msQueue_linearizable_fifo_served : ∃ tr cfg, KeptRun tr cfg ∧ Bounded cfg.shared ∧
    Fifo.returned tr = [8, 7] ∧ Fifo.Linearized tr := by
  obtain ⟨tr, cfg, hr, ht⟩ := exists_freshKeptRun 3 (show Block 16 by decide)
    (enqueueToLink 0 7 32 ⟨⟨5, 5⟩, 5⟩ ++ enqueueToLink 1 8 48 ⟨⟨5, 5⟩, 5⟩ ++
      enqueueFromLink 1 ++ [(0, .go)] ++ readPair 0 ++ readPair 0 ++ readPair 0 ++ [(0, .go)] ++
      enqueueFromLink 0 ++ dequeueSteps 2 ⟨⟨9, 9⟩, 9⟩ ++ dequeueSteps 2 ⟨⟨NULL, 9⟩, 9⟩)
    (by decide) (fun tr _ => decide (Fifo.returned tr = [8, 7])) (by decide)
  obtain ⟨hr, hb⟩ := hr.kept_bounded
  exact ⟨tr, cfg, hr, hb, of_decide_eq_true ht, msQueue_linearizable_fifo hr hb⟩

/-! ### A value that is lost -/

/-- Thread 0 enqueues 7 and reads `NULL` in the dummy, thread 1 links 8 behind it, and thread 0
reads the count and passes the test of line 155.  Thread 1 moves `Tail` and returns. -/
def tornRead : List (ℕ × Choice) :=
  [(0, .callEnq 7), (0, .go), (0, .alloc 32 ⟨⟨5, 5⟩, 5⟩), (0, .go), (0, .go)] ++ readPair 0 ++
    [(0, .half .ptr)] ++ enqueueToLink 1 8 48 ⟨⟨5, 5⟩, 5⟩ ++ [(1, .go)] ++ [(0, .go)] ++
    readPair 0 ++ [(0, .go)] ++ List.replicate 4 (1, .go)

/-- After this thread 2 dequeues 8 and frees the dummy, and the allocator leaves its `next.ptr`
as `NULL` and the rest as it was.  Now thread 0 swaps it. -/
def lostLink : List (ℕ × Choice) :=
  tornRead ++ dequeueSteps 2 ⟨⟨NULL, 1⟩, 0⟩ ++ enqueueFromLink 0

/-- **An enqueue returns, and its value is in no queue**, although no block was handed out
twice: a dequeue that is called afterwards returns none. -/
theorem msQueue_loses_value : ∃ tr cfg, FreshRun tr cfg ∧ Bounded cfg.shared ∧
    Fifo.visible 0 tr = [.callEnq 7, .append 7, .retEnq] ∧
    Fifo.visible 2 tr = [.callDeq, .remove 8, .retDeq (some 8), .callDeq, .retDeq none] ∧
    ¬ Fifo.Linearized tr := by
  -- within the last dequeue there is no point at which all that was appended is removed
  obtain ⟨tr, cfg, hr, ht⟩ : ∃ tr cfg, FreshRun tr cfg ∧ decide (
      Fifo.visible 0 tr = [.callEnq 7, .append 7, .retEnq] ∧
      Fifo.visible 2 tr = [.callDeq, .remove 8, .retDeq (some 8), .callDeq, .retDeq none] ∧
      tr = tr.dropLast ++ [(2, .retDeq none)] ∧
      ¬ ∃ p₁ ∈ tr.dropLast.inits, Fifo.visible 2 p₁ = Fifo.visible 2 tr.dropLast ∧
        (Fifo.appended p₁).map Prod.snd = Fifo.removed p₁) = true :=
    Interleave.Program.exists_run_of_exec (fun tr cfg i x => decide (NoReuse tr cfg i x))
      (fun _ _ _ _ => of_decide_eq_true) (newQueue_start 16 (by decide)) (lostLink ++ emptySteps 2)
      _ (by decide +kernel)
  obtain ⟨h0, h2, htr, hnone⟩ := of_decide_eq_true ht
  exact ⟨tr, cfg, hr, hr.run_bounded.2, h0, h2, fun hlin => hnone (hlin.sawEmpty htr)⟩

end Coremu.MsQueue

import Coremu.LockQueue.Step

/-!
# The lock-based queue is a linearizable FIFO

Any number of threads enqueue under `t_lock`, one thread dequeues without it, and
every access is interleaved in any order: each enqueue takes effect at its write
`Q->Tail->next = node`, the dequeues return the appended values oldest first, and
a dequeue returns false only if the queue was empty when it read `node->next`.
-/

namespace Coremu.LockQueue

variable {c : ℕ} {tr : List (ℕ × Fifo.Event DataType)} {cfg : Config}

/-- Only the consumer's calls of `dequeue` are in the trace. -/
theorem Run.callDeq_eq (h : Run c tr cfg) : ∀ j, j ≠ c → (j, Fifo.Event.callDeq) ∉ tr := by
  refine Interleave.Program.Run.induct
    (J := fun tr _ => ∀ j, j ≠ c → (j, Fifo.Event.callDeq) ∉ tr) ?_ ?_ h
  · intro cfg _ j _ hm
    cases hm
  · intro tr cfg i x s' l' e ih hx hs j hj hm
    rw [List.mem_append, List.mem_singleton, Prod.mk.injEq] at hm
    rcases hm with hm | ⟨rfl, rfl⟩
    · exact ih j hj hm
    · have hst := step_cases hs
      generalize cfg.thread j = p at hst
      cases hst
      exact hj hx

/-- **The queue of `main/lock-queue.c` is a linearizable FIFO**, for every number of
producers, one consumer and every interleaving. -/
theorem lockQueue_linearizable_fifo (h : Run c tr cfg) :
    Fifo.Linearized tr ∧ Fifo.OldestFirst c tr := by
  obtain ⟨g, hg, -⟩ := h.inv
  exact ⟨Fifo.linearized_of_exec hg, Fifo.oldestFirst_of_exec hg h.callDeq_eq⟩

/-- The steps of one `enqueue`, the node being allocated at `a`. -/
def enqueueSteps (i : ℕ) (v : DataType) (a : Addr) : List (ℕ × Choice) :=
  [(i, .callEnq v), (i, .alloc a)] ++ List.replicate 9 (i, .go)

/-- The steps of one `dequeue` that finds a value. -/
def dequeueSteps (i : ℕ) (n : Node) : List (ℕ × Choice) :=
  (i, .callDeq) :: List.replicate 4 (i, .go) ++ (i, .free n) :: List.replicate 2 (i, .go)

/-- `new_queue()` on a cleared heap. -/
def start (node : Addr) : Config := ⟨initializeQ (fun _ => ⟨NULL, 0⟩) node, fun _ => .idle⟩

/-- A value sent by thread 0 is served to thread 1. -/
theorem lockQueue_linearizable_fifo_served : ∃ tr cfg, Run 1 tr cfg ∧
    Fifo.returned tr = [7] ∧ Fifo.Linearized tr ∧ Fifo.OldestFirst 1 tr := by
  obtain ⟨tr, cfg, hr, ht⟩ :
      ∃ tr cfg, Run 1 tr cfg ∧ decide (Fifo.returned tr = [7]) = true :=
    Interleave.Program.exists_run_of_exec (fun tr cfg i x => decide (OneConsumer 1 tr cfg i x))
      (fun _ _ _ _ => of_decide_eq_true) (c := start 16) ⟨_, 16, by decide, rfl⟩
      (enqueueSteps 0 7 32 ++ dequeueSteps 1 ⟨5, 5⟩)
      (fun tr _ => decide (Fifo.returned tr = [7])) (by decide)
  exact ⟨tr, cfg, hr, of_decide_eq_true ht, lockQueue_linearizable_fifo hr⟩

end Coremu.LockQueue

import Coremu.Intr.Lock
import Coremu.Intr.LockFree

/-!
# When `coremu_get_intr` comes back empty-handed

`coremu_get_intr` tests the counter of the queue and then dequeues.  The counter and the
list are changed at different times, and a comment in the code wonders about the case
that the dequeue finds nothing.  It does not arise with the lock-based queue, as long as only
the core itself dequeues: whoever has counted a value has linked it before, and only the core
takes values out.  With the lock-free queue it does arise, because a value may be lost at its
link and counted nevertheless; it does not, if no block is freed that an enqueue is about to
compare and swap.
-/

namespace Coremu.Intr

/-- **Whenever `coremu_intr_p` holds in `coremu_get_intr`, the dequeue that follows returns
`true`**, with the lock-based queue, and with the lock-free queue if no block is freed that an
enqueue is about to compare and swap; and the size of the queue is never negative. -/
theorem getIntr_succeeds (c : ℕ) :
    (∀ tr cfg, Lock.Run c tr cfg → GetIntrSucceeds Lock.queue c 8 tr cfg) ∧
      ∀ tr cfg, LockFree.KeptRun c tr cfg → GetIntrSucceeds LockFree.queue c 27 tr cfg := by
  constructor
  · intro tr cfg h
    exact Run.getIntrSucceeds (Lock.counter c) (Lock.allows c) (Lock.progress c) h
  · intro tr cfg h
    exact Run.getIntrSucceeds (LockFree.counter c) (LockFree.allows c) (LockFree.progress c) h

/-- With either queue there is a run in which the test passes. -/
theorem getIntr_succeeds_tested :
    (∃ tr cfg, Lock.Run 1 tr cfg ∧ (1, .intrP true) ∈ tr ∧
      GetIntrSucceeds Lock.queue 1 8 tr cfg) ∧
    ∃ tr cfg, LockFree.KeptRun 2 tr cfg ∧ (2, .intrP true) ∈ tr ∧
      GetIntrSucceeds LockFree.queue 2 27 tr cfg := by
  constructor
  · obtain ⟨tr, cfg, hr, ht⟩ :
        ∃ tr cfg, Lock.Run 1 tr cfg ∧ decide ((1, .intrP true) ∈ tr) = true :=
      Interleave.Program.exists_run_of_exec (fun _ _ _ _ => true) (fun _ _ _ _ _ => trivial)
        Lock.start_startConfig Lock.drainSteps (fun tr _ => decide ((1, Event.intrP true) ∈ tr))
        (by decide)
    exact ⟨tr, cfg, hr, of_decide_eq_true ht, (getIntr_succeeds 1).1 tr cfg hr⟩
  · obtain ⟨tr, cfg, hr, -, ht⟩ : ∃ tr cfg, LockFree.KeptRun 2 tr cfg ∧
        (∀ j, ¬ j < 3 → cfg.thread j = LockFree.startConfig.thread j) ∧
        decide ((2, .intrP true) ∈ tr) = true :=
      Interleave.Program.exists_run_of_exec_within (· < 3) LockFree.keptGuard
        (fun _ _ _ _ hcfg hg => LockFree.kept_of_guard hcfg hg) LockFree.start_startConfig
        LockFree.heldSteps (by decide) _ (by decide)
    exact ⟨tr, cfg, hr, of_decide_eq_true ht, (getIntr_succeeds 2).2 tr cfg hr⟩

/-- Core 2 handles the interrupt of thread 1 and frees the dummy; thread 0 links its own to
that block and counts it.  Then core 2 goes on. -/
def lostSteps : List (ℕ × Choice MsQueue.Choice) :=
  LockFree.queueSteps MsQueue.tornRead ++ [(2, .receive), (2, .go)] ++
    LockFree.queueSteps (MsQueue.dequeueSteps 2 ⟨⟨NULL, 1⟩, 0⟩) ++ [(2, .go), (2, .go)] ++
    LockFree.queueSteps (MsQueue.enqueueFromLink 0) ++ [(2, .go)] ++
    LockFree.queueSteps (MsQueue.emptySteps 2)

/-- **With the lock-free queue the test may pass and the dequeue return `false`**: the
counter is 1 and the list is empty, with no block handed out twice and one consumer. -/
theorem getIntr_fails : ∃ p q tr cfg, LockFree.Run 2 tr cfg ∧ tr = p ++ (2, .intrP true) :: q ∧
    Fifo.visible 2 (queueTrace q) = [.callDeq, .retDeq none] ∧
      ¬ GetIntrSucceeds LockFree.queue 2 27 tr cfg := by
  obtain ⟨tr, cfg, hr, ht⟩ : ∃ tr cfg, LockFree.Run 2 tr cfg ∧ decide (
      tr = tr.take 55 ++ (2, .intrP true) :: tr.drop 56 ∧
      Fifo.visible 2 (queueTrace (tr.drop 56)) = [.callDeq, .retDeq none] ∧
      (2, Event.queue (.retDeq none)) ∈ tr) = true :=
    Interleave.Program.exists_run_of_exec
      (fun tr cfg i x => decide (LockFree.NoReuse tr cfg i x)) (fun _ _ _ _ => of_decide_eq_true)
      LockFree.start_startConfig lostSteps _ (by decide +kernel)
  obtain ⟨htr, hvis, hnone⟩ := of_decide_eq_true ht
  exact ⟨_, _, tr, cfg, hr, htr, hvis, fun hok => hok.never hnone⟩

end Coremu.Intr

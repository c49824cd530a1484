import Coremu.MsQueue.Linearizable

/-!
# The signal mask across `enqueue` and `dequeue`

Both functions of `main/ms-queue.c` block all signals while they work and restore the
mask of the caller at the end.  `dequeue` has a second exit, for the empty queue, and there
the call of `coremu_sigmask_res` stands behind the `return`: the core goes on with every
signal blocked, `COREMU_SIGNAL` among them, and the next call saves that mask.

## Main definitions

* `Pc.emptyExit` — the thread is about to leave `dequeue` by `return false`.
* `maskHistory`, `ReturningRun` — runs in which a thread does not take this exit, with the
  mask it had at its last call.
* `MaskOk` — where the mask of the caller is kept, at each program point.

## Main results

* `mask_restored` — on the other exits **the mask is that of the call**.
* `mask_lost` — after `return false` it is not.
-/

namespace Coremu.MsQueue

/-- The test of line 188 is going to succeed, and lines 189 and 190 are going to find the
queue empty. -/
def Pc.emptyExit (s : Shared) : Pc → Bool
  | .deq (.cmp128 head tail next _) =>
      decide (s.head = head ∧ head.ptr = tail.ptr ∧ next.ptr = NULL)
  | _ => false

/-- Where the mask `m` of the caller is: it is the mask of the thread outside the two
calls, and in `save_sig_set` between them.  After `return false` it is gone. -/
def MaskOk (m : SigSet) (t : Thread) : Pc → Prop
  | .idle | .enq (.sigmaskBlk _) | .enq .ret | .deq .sigmaskBlk | .deq (.ret (some _)) =>
      t.mask = m
  | .deq (.ret none) => False
  | _ => t.saved = m

/-- The thread is in no call. -/
def Pc.isIdle : Pc → Bool
  | .idle => true
  | _ => false

theorem Pc.isIdle_iff {p : Pc} : p.isIdle = true ↔ p = .idle := by
  cases p <;> simp [Pc.isIdle]

section Steps

variable {s s' : Shared} {t t' : Thread} {p : Pc} {x : Choice} {e : Fifo.Event DataType}
  {m : SigSet}

/-- A step other than the empty exit keeps the mask of the caller. -/
theorem MaskOk.step (h : MaskOk m t p) (hst : Step s t p x s' t' e) (hne : p.emptyExit s = false) :
    MaskOk m t' t'.pc := by
  cases hst with
  -- here `return false;` stands before `coremu_sigmask_res`
  | deqEmpty head tail next cur heq hht hnull =>
    rw [Pc.emptyExit, decide_eq_false_iff_not] at hne
    exact absurd ⟨heq, hht, hnull⟩ hne
  | deqRet r =>
    cases r with
    | none => exact h.elim
    | some v => exact h
  | _ => exact h

/-- A return ends a call, and is not the test of line 188. -/
theorem step_return (hst : Step s t p x s' t' e) (he : e = .retEnq ∨ ∃ r, e = .retDeq r) :
    p ≠ .idle ∧ t'.pc = .idle ∧ p.emptyExit s = false := by
  cases hst with
  | enqRet | deqRet r => exact ⟨by simp, rfl, rfl⟩
  | deqReadNext head tail r => cases r <;> simp [Half.event] at he
  | deqRestNext head tail r => cases r <;> simp [Torn.event] at he
  | _ => simp at he

end Steps

/-! ### Runs -/

/-- The mask each thread had when its last call began. -/
def maskHistory :
    Interleave.Program.History ℕ Shared Thread Choice (Fifo.Event DataType) (ℕ → SigSet) where
  init _ := 0
  -- a thread that is in no call can only begin one
  note m _ cfg i _ _ _ _ :=
    Function.update m i (if (cfg.thread i).pc.isIdle then (cfg.thread i).mask else m i)

/-- Thread `i` does not take the exit for the empty queue. -/
def NoEmptyExit (i : ℕ) (_ : List (ℕ × Fifo.Event DataType)) (cfg : Config) (j : ℕ)
    (_ : Choice) : Prop :=
  j = i → (cfg.thread i).pc.emptyExit cfg.shared = false

instance (i : ℕ) (tr : List (ℕ × Fifo.Event DataType)) (cfg : Config) (j : ℕ) (x : Choice) :
    Decidable (NoEmptyExit i tr cfg j x) :=
  inferInstanceAs (Decidable (_ → _))

/-- The run begins in `c₀`. -/
def StartsAt (c₀ cfg : Config) : Prop := cfg = c₀

theorem startsAt_self (c₀ : Config) : StartsAt c₀ c₀ := rfl

/-- The runs from `c₀` in which thread `i` does not take that exit; the queue and the other
threads may be in any state, and blocks may be reused. -/
abbrev ReturningRun (i : ℕ) (c₀ : Config) :=
  program.Noted maskHistory (StartsAt c₀) (NoEmptyExit i)

variable {i : ℕ} {c₀ cfg : Config} {tr : List (ℕ × Fifo.Event DataType)} {m : ℕ → SigSet}

/-- What holds of thread `i`, when it had the mask `m₀` at the start: its mask is kept, and
it was the mask at the last call. -/
def MaskInv (m₀ : SigSet) (i : ℕ) (cfg : Config) (m : ℕ → SigSet) : Prop :=
  MaskOk m₀ (cfg.thread i) (cfg.thread i).pc ∧ ((cfg.thread i).pc ≠ .idle → m i = m₀)

theorem MaskInv.step {m₀ : SigSet} (h : MaskInv m₀ i cfg m) {j : ℕ} {x : Choice} {s' : Shared}
    {t' : Thread} {e : Fifo.Event DataType} (hne : NoEmptyExit i tr cfg j x)
    (hs : MsQueue.step cfg.shared (cfg.thread j) x = some (s', t', e)) :
    MaskInv m₀ i (cfg.after j s' t') (maskHistory.note m tr cfg j x s' t' e) := by
  by_cases hij : i = j
  · subst hij
    rw [MaskInv, Interleave.Config.after_thread_self]
    refine ⟨h.1.step (step_cases hs) (hne rfl), fun _ => ?_⟩
    simp only [maskHistory, Function.update_self]
    split
    · next hpc =>
      have hok := h.1
      rw [Pc.isIdle_iff.mp hpc] at hok
      exact hok
    · next hpc => exact h.2 (mt Pc.isIdle_iff.mpr hpc)
  · rw [MaskInv, Interleave.Config.after_thread_of_ne _ _ _ hij]
    refine ⟨h.1, fun hpc => ?_⟩
    rw [← h.2 hpc]
    exact Function.update_of_ne hij _ _

theorem ReturningRun.inv (hidle : (c₀.thread i).pc = .idle) (h : ReturningRun i c₀ tr cfg m) :
    MaskInv (c₀.thread i).mask i cfg m := by
  refine Interleave.Program.Noted.induct
    (J := fun _ cfg m => MaskInv (c₀.thread i).mask i cfg m) ?_ ?_ h
  · rintro _ rfl
    refine ⟨?_, fun hne => absurd hidle hne⟩
    rw [hidle]
    rfl
  · intro tr cfg m j x s' t' e _ ih hne hs
    exact ih.step hne hs

/-- **The mask of the caller is restored on every exit but the one for the empty queue.**
Whatever the queue holds and the other threads do, when a call of thread `i` returns, its
mask is the one it had when the call began; and while the thread is in no call, its mask is
the one it started with. -/
theorem mask_restored (hidle : (c₀.thread i).pc = .idle) (h : ReturningRun i c₀ tr cfg m) :
    (∀ x s' t' e, step cfg.shared (cfg.thread i) x = some (s', t', e) →
      (e = .retEnq ∨ ∃ r, e = .retDeq r) → t'.mask = m i) ∧
    ((cfg.thread i).pc = .idle → (cfg.thread i).mask = (c₀.thread i).mask) := by
  obtain ⟨hok, hnote⟩ := h.inv hidle
  refine ⟨fun x s' t' e hs he => ?_, fun hpc => ?_⟩
  · have hst := step_cases hs
    obtain ⟨hne, hret, hexit⟩ := step_return hst he
    have hok' := hok.step hst hexit
    rw [hret] at hok'
    exact hok'.trans (hnote hne).symm
  · rw [hpc] at hok
    exact hok

/-- `new_queue()`, with two signals blocked in every thread. -/
def maskedStart : Config := ⟨(start 16).shared, fun _ => ⟨.idle, 5, 0⟩⟩

/-- Thread 0 enqueues a value and dequeues it, and has its mask back. -/
theorem mask_restored_served : (maskedStart.thread 0).pc = .idle ∧
    ∃ tr cfg m, ReturningRun 0 maskedStart tr cfg m ∧ Fifo.returned tr = [7] ∧
      (cfg.thread 0).mask = 5 := by
  refine ⟨rfl, ?_⟩
  obtain ⟨tr, cfg, hr, ht⟩ : ∃ tr cfg, program.Run (StartsAt maskedStart) (NoEmptyExit 0) tr cfg ∧
      decide ((cfg.thread 0).pc.isIdle = true ∧ Fifo.returned tr = [7]) = true :=
    Interleave.Program.exists_run_of_exec (P := program)
      (fun tr cfg i x => decide (NoEmptyExit 0 tr cfg i x)) (fun _ _ _ _ => of_decide_eq_true)
      (startsAt_self maskedStart)
      (enqueueToLink 0 7 32 ⟨⟨5, 5⟩, 5⟩ ++ enqueueFromLink 0 ++
        dequeueSteps 0 ⟨⟨9, 9⟩, 9⟩)
      (fun tr cfg => decide ((cfg.thread 0).pc.isIdle = true ∧ Fifo.returned tr = [7]))
      (by decide)
  obtain ⟨hpc, hret⟩ := of_decide_eq_true ht
  obtain ⟨m, hm⟩ := hr.noted maskHistory
  exact ⟨tr, cfg, m, hm, hret, (mask_restored rfl hm).2 (Pc.isIdle_iff.mp hpc)⟩

/-- **`dequeue` of an empty queue returns with all signals blocked**, although the thread
had called it with none blocked. -/
theorem mask_lost : ∃ tr cfg, program.Run (StartsAt (start 16)) (fun _ _ _ _ => True) tr cfg ∧
    Fifo.visible 0 tr = [.callDeq, .retDeq none] ∧ ((start 16).thread 0).mask = 0 ∧
      (cfg.thread 0).pc = .idle ∧ (cfg.thread 0).mask = BitVec.allOnes 64 := by
  obtain ⟨tr, cfg, hr, ht⟩ : ∃ tr cfg,
      program.Run (StartsAt (start 16)) (fun _ _ _ _ => True) tr cfg ∧
        decide (Fifo.visible 0 tr = [.callDeq, .retDeq none] ∧
          (cfg.thread 0).pc.isIdle = true ∧ (cfg.thread 0).mask = BitVec.allOnes 64) = true :=
    Interleave.Program.exists_run_of_exec (P := program) (fun _ _ _ _ => true)
      (fun _ _ _ _ _ => trivial) (startsAt_self (start 16)) (emptySteps 0)
      (fun tr cfg => decide (Fifo.visible 0 tr = [.callDeq, .retDeq none] ∧
        (cfg.thread 0).pc.isIdle = true ∧ (cfg.thread 0).mask = BitVec.allOnes 64)) (by decide)
  obtain ⟨hvis, hpc, hmask⟩ := of_decide_eq_true ht
  exact ⟨tr, cfg, hr, hvis, rfl, Pc.isIdle_iff.mp hpc, hmask⟩

end Coremu.MsQueue

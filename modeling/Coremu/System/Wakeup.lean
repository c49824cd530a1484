import Coremu.Core.Enough
import Coremu.System.Refine

/-!
# No lost interrupt

On a host with a processor for every core, an interrupt is not lost between the queue of
`main/lock-queue.c`, the signal and `coremu_receive_intr`: when nobody is sending to a core,
the core is not receiving, and nothing is left that would make it receive, it has handled
every interrupt that was ever sent to it.

Two conditions on the run are needed.  Every `pthread_kill` leads to one run of the handler: the
host queues `COREMU_SIGNAL` as a real-time signal, but a call may fail, and the code does not
look at the result.  And no `NULL` is sent: it would end `coremu_receive_intr` with the
interrupts behind it unhandled, and nothing would make the core receive again.

## Main definitions

* `Notified` — something will make a core receive.
* `Quiet` — nobody sends to a core, and it does not receive.

## Main results

* `Quiet.core` — a quiet core is so in the core model.
* `system_no_lost_interrupt` — **a quiet core that is not notified has handled everything.**
-/

namespace Coremu.System

open Coremu.Core (Machine)
open Coremu.LockQueue (Pc)

variable {M : Machine} {i j : ℕ} {cfg : Config} {tr : List (ℕ × Event)}

/-- A signal to core `j` is undelivered, its handler is running, or a drain has been
requested. -/
def Notified (j : ℕ) (cfg : Config) : Prop :=
  0 < (cfg.shared.cores.core j).undelivered ∨ (cfg.thread j).core.handler ≠ none ∨
    (cfg.shared.cores.core j).drain = true

/-- No thread is inside `coremu_send_intr` to core `j`, and `j` is not inside
`coremu_receive_intr`. -/
def Quiet (j : ℕ) (cfg : Config) : Prop :=
  (∀ i, (cfg.thread i).core.sending j = none) ∧ (cfg.thread j).core.recv = .out

/-- Nobody works on the queue of a quiet core. -/
theorem Quiet.rest (h : Quiet j cfg) (i : ℕ) : (queueThread j i (cfg.thread i)).queue = .idle := by
  refine if_neg fun hq => ?_
  unfold queueOf at hq
  split at hq
  · next ho =>
    cases hq
    exact absurd ((Core.Thread.sending_of_send ho).symm.trans (h.1 i)) nofun
  · next _ hr =>
    cases hq
    exact absurd (hr.symm.trans h.2) nofun
  · cases hq

/-- A thread that is in no send to a core is in none in the core model. -/
theorem sending_coreThread {t : Thread} (h : t.core.sending j = none) :
    (coreThread i t).sending j = none := by
  unfold coreThread Core.Thread.sending at *
  cases ho : t.core.op with
  | send k p =>
    rw [ho] at h
    cases p <;> simpa using h
  | _ => rfl

/-- A quiet core is so in the core model. -/
theorem Quiet.core (h : Quiet j cfg) (hfit : Fitting (cfg.thread j)) (L : ℕ → List Core.Entry) :
    Core.Quiet j (coreConfig L cfg) := by
  refine ⟨fun i p hp => ?_, ?_⟩
  · exact absurd ((sending_coreThread (h.1 i)).symm.trans hp) nofun
  · -- it has not just returned from `dequeue`
    have hret : returning (cfg.thread j).queue = none := by
      unfold Fitting at hfit
      cases hp : (cfg.thread j).queue with
      | deq p =>
        rw [hp] at hfit
        exact absurd (hfit.2.symm.trans h.2) nofun
      | _ => rfl
    change coreRecv (cfg.thread j).queue (cfg.thread j).core.recv = .out
    rw [coreRecv, hret]
    exact h.2

/-- With nobody in an operation on the queue and nothing in it, all that was sent has been
returned. -/
theorem Separated.all_returned {V : ℕ → IntrConfig} (h : Separated M tr cfg V) (hj : j < M.smpCpus)
    (hq : Quiet j cfg) (hsize : cfg.shared.intrGetSize j = 0) :
    Fifo.returned (queueTrace j tr) = (Fifo.appended (queueTrace j tr)).map Prod.snd ∧
      ∀ i, Fifo.appendedBy i (queueTrace j tr) = Fifo.sent i (queueTrace j tr) := by
  obtain ⟨g, hg⟩ := h.ledger hj
  obtain ⟨hlen, -, hop⟩ := hg.atRest hq.rest
  have hnil : g.abs.content = [] := by
    rw [hsize, Int.natCast_eq_zero] at hlen
    exact List.length_eq_zero_iff.mp hlen
  refine ⟨?_, fun i => ?_⟩
  · rw [(Fifo.content_eq_nil_iff hg.exec).mp hnil,
      (Fifo.removed_eq_returned hg.exec (h.queueRun hj).callDeq_eq).1, hop j]
    exact (List.append_nil _).symm
  · rw [Fifo.sent_eq hg.exec i, hop i]
    exact (List.append_nil _).symm

/-- **No interrupt is lost on a host with enough processors**, if every `pthread_kill` leads to
one run of the handler and no `NULL` is sent: when nobody is sending to a core, it is not
receiving, no signal to it is undelivered, its handler is not running and no drain is
requested, then every interrupt that was sent to it has been handled, in the order in which
they entered the queue. -/
theorem system_no_lost_interrupt (hM : M.physicalCoreEnoughP = true) (h : ReliableRun M tr cfg)
    (hj : j < M.smpCpus) (hq : Quiet j cfg) (hn : ¬ Notified j cfg) :
    Fifo.returned (queueTrace j tr) = (Fifo.appended (queueTrace j tr)).map Prod.snd ∧
      ∀ i, Fifo.appendedBy i (queueTrace j tr) = Fifo.sent i (queueTrace j tr) := by
  have hrun : Run M tr cfg := h.mono fun _ _ _ _ _ => trivial
  obtain ⟨tr', L, hm⟩ := exists_matched (fun _ => Core.Choice.reliable_of_plain rfl) h
  obtain ⟨V, hV⟩ := hrun.separated
  refine hV.all_returned hj hq ?_
  -- the queue of the core model is empty, or the core would be notified there
  have hnil : L j = [] := by
    by_contra hne
    have hinv := Core.ReliableRun.enoughInv hM hm.run j
    exact hn (hinv.notified (hq.core (hm.tracks.fitting j) L) hne)
  rw [← hm.tracks.size j, hnil]
  rfl

/-- The steps of the core model are plain. -/
def Choice.plain : Choice → Bool
  | .queue _ => true
  | .core x => x.plain

theorem Choice.reliable_of_plain {x : Choice} (h : x.plain = true) :
    x.Meets Core.Choice.Reliable := by
  cases x with
  | queue x => trivial
  | core x => exact Core.Choice.reliable_of_plain h

/-- Two emulated cores on a host with two processors. -/
def twoOnTwo : Machine := ⟨2, 2⟩

/-- `n` steps of thread `i` outside a queue. -/
def goes (i n : ℕ) : List (ℕ × Choice) := List.replicate n (i, .core (.go 0))

/-- Core 0 sends the interrupt 7 to core 1 and signals it; core 1 runs its handler, receives
the interrupt and handles it. -/
def handledSteps : List (ℕ × Choice) :=
  (0, .core (.sendIntr 7 1)) :: (LockQueue.enqueueSteps 0 7 64).map (fun p => (p.1, .queue p.2)) ++
    goes 0 7 ++ (1, .core .signal) :: goes 1 6 ++ (1, .core .receiveIntr) :: goes 1 1 ++
      (LockQueue.dequeueSteps 1 ⟨5, 5⟩).map (fun p => (p.1, .queue p.2)) ++ goes 1 2

/-- Nobody below 2 is in a send to core 1, and core 1 is not notified and not receiving. -/
def quietTest (tr : List (ℕ × Event)) (cfg : Config) : Bool :=
  decide (Fifo.returned (queueTrace 1 tr) = [7]) && decide ((cfg.thread 1).core.recv = .out) &&
    ((List.range 2).all fun i => ((cfg.thread i).core.sending 1).isNone) &&
      (decide ((cfg.shared.cores.core 1).undelivered = 0) &&
        ((cfg.thread 1).core.handler.isNone && !(cfg.shared.cores.core 1).drain))

/-- The interrupt of core 0 is all that was ever sent to core 1. -/
theorem system_no_lost_interrupt_handled : ∃ tr cfg, twoOnTwo.physicalCoreEnoughP = true ∧
    ReliableRun twoOnTwo tr cfg ∧ 1 < twoOnTwo.smpCpus ∧ Quiet 1 cfg ∧ ¬ Notified 1 cfg ∧
      (Fifo.appended (queueTrace 1 tr)).map Prod.snd = [7] := by
  obtain ⟨tr, cfg, hr, hrest, ht⟩ : ∃ tr cfg, ReliableRun twoOnTwo tr cfg ∧
      (∀ j, ¬ j < 2 → cfg.thread j = bootTwo.thread j) ∧ quietTest tr cfg = true :=
    Interleave.Program.exists_run_of_exec_within (· < 2) (fun _ _ _ x => x.plain)
      (fun _ _ _ _ _ => Choice.reliable_of_plain) ⟨_, _, by decide, by decide, rfl⟩ handledSteps
      (by decide) quietTest (by decide)
  simp only [quietTest, Bool.and_eq_true, decide_eq_true_eq, List.all_eq_true, List.mem_range,
    Option.isNone_iff_eq_none, Bool.not_eq_true'] at ht
  obtain ⟨⟨⟨hret, hrecv⟩, hsend⟩, hund, hhand, hdrain⟩ := ht
  have hq : Quiet 1 cfg := by
    refine ⟨fun i => ?_, hrecv⟩
    by_cases hi : i < 2
    · exact hsend i hi
    · rw [hrest i hi]
      rfl
  have hn : ¬ Notified 1 cfg := by
    rintro (hu | hh | hd)
    · omega
    · exact hh hhand
    · rw [hdrain] at hd
      cases hd
  refine ⟨tr, cfg, rfl, hr, by decide, hq, hn, ?_⟩
  rw [← (system_no_lost_interrupt rfl hr (by decide) hq hn).1, hret]

end Coremu.System

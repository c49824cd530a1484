import Coremu.Core.Halt
import Coremu.Intr.Lock
import Coremu.LockQueue.Frame
import Coremu.System.Model

/-!
# Each core has its queue to itself

The queues of all cores live on one heap, any thread works on any of them, and a core that
is sending to another one may be interrupted by its signal handler.  Seen from one core, all
this is a run of `coremu_receive_intr` on a queue with a heap of its own: a queue accesses
its own blocks only, and no block belongs to two queues.

## Main definitions

* `queueOf` — the queue that a thread is working on.
* `queueTrace`, `queueThread` — what a core sees of a trace and of a thread.
* `ThreadOk` — where the parts of a thread fit together.
* `View`, `Separated` — what each core sees of the state.

## Main results

* `core_move` — what a step of the core model does to the place of a thread.
* `Separated.step` — a step is one for the core whose queue it accesses, and none for the
  others.
* `Run.separated` — **every run is a run of each core on a queue of its own.**
* `system_fifo` — **every core handles the interrupts sent to it, oldest first.**
-/

namespace Coremu.System

open Coremu.Core (Machine)
open Coremu.LockQueue (Pc Within Unnoticed)

/-- The queue that thread `i` is working on. -/
def queueOf (i : ℕ) (t : Core.Thread) : Option ℕ :=
  match t.op, t.recv with
  | .send j (.putIntr _), _ => some j
  | .idle, .dequeue => some i
  | _, _ => none

/-- The accesses of the queue of core `j` in a trace. -/
def queueTrace (j : ℕ) (tr : List (ℕ × Event)) : List (ℕ × Fifo.Event DataType) :=
  tr.filterMap fun p => match p.2 with
    | .queue k e => if k = j then some (p.1, e) else none
    | .core _ => none

/-- The place of a thread in `coremu_receive_intr`. -/
def recvPc : Core.RecvPc → Intr.RecvPc
  | .out => .out
  | .intrP => .intrP
  | .dequeue => .dequeue
  | .handler => .handler

/-- What core `j` sees of thread `i`. -/
def queueThread (j i : ℕ) (t : Thread) : Intr.Thread Pc where
  recv := if i = j then recvPc t.core.recv else .out
  queue := if queueOf i t.core = some j then t.queue else .idle

/-- The parts of thread `i` fit together. -/
structure ThreadOk (M : Machine) (i : ℕ) (t : Thread) : Prop where
  /-- A thread that is receiving does nothing else, unless it is inside `event_handler`. -/
  recv : t.core.op ≠ .idle → t.core.recv = .out ∨ t.core.recv = .handler
  /-- Only a core receives. -/
  core : t.core.recv ≠ .out → i < M.smpCpus
  idle : queueOf i t.core = none → t.queue = .idle
  /-- An interrupt is sent to a core. -/
  sent : ∀ j e, t.core.op = .send j (.putIntr e) → j < M.smpCpus

variable {M : Machine} {i j k : ℕ} {s s' : Shared} {t t' : Thread} {x : Choice} {e : Event}
variable {cfg : Config} {tr : List (ℕ × Event)}

/-! ### Traces and threads -/

@[simp] theorem queueTrace_nil (j : ℕ) : queueTrace j [] = [] := rfl

theorem queueTrace_concat_queue (j : ℕ) (tr : List (ℕ × Event)) (i : ℕ) (f : Fifo.Event DataType) :
    queueTrace j (tr ++ [(i, .queue j f)]) = queueTrace j tr ++ [(i, f)] := by
  simp [queueTrace]

theorem queueTrace_concat_of_ne (tr : List (ℕ × Event)) (i : ℕ) (f : Fifo.Event DataType)
    (h : k ≠ j) : queueTrace j (tr ++ [(i, .queue k f)]) = queueTrace j tr := by
  simp [queueTrace, h]

theorem queueTrace_concat_core (j : ℕ) (tr : List (ℕ × Event)) (i : ℕ) (ev : Core.Event) :
    queueTrace j (tr ++ [(i, .core ev)]) = queueTrace j tr := by
  simp [queueTrace]

theorem queueOf_send {c : Core.Thread} {e : Core.Entry} (h : c.op = .send j (.putIntr e)) :
    queueOf i c = some j := by
  simp [queueOf, h]

theorem queueOf_dequeue {c : Core.Thread} (ho : c.op = .idle) (hr : c.recv = .dequeue) :
    queueOf i c = some i := by
  simp [queueOf, ho, hr]

theorem queueOf_eq_none {c : Core.Thread} (ho : ∀ j e, c.op ≠ .send j (.putIntr e))
    (hr : c.op = .idle → c.recv ≠ .dequeue) : queueOf i c = none := by
  unfold queueOf
  split
  · next j e h => exact absurd h (ho j e)
  · next h1 h2 => exact absurd h2 (hr h1)
  · rfl

/-- Two threads look the same to every core, if they are at the same place of
`coremu_receive_intr`, and in the same queue or in none. -/
theorem queueThread_congr (hok : queueOf i t.core = none → t.queue = .idle)
    (hq : t'.queue = t.queue) (hr : t'.core.recv = t.core.recv)
    (ho : queueOf i t'.core = queueOf i t.core ∨ queueOf i t.core = none) :
    queueThread j i t' = queueThread j i t := by
  unfold queueThread
  rw [hq, hr]
  rcases ho with ho | ho
  · rw [ho]
  · rw [hok ho, ite_self, ite_self]

/-! ### What a step of the core model does to the place of a thread -/

/-- A step of the core model leaves a thread at its place of `coremu_receive_intr`, or it is
the call, or the end of an `event_handler`. -/
theorem core_move {c c' : Core.Shared} {l l' : Core.Thread} {y : Core.Choice} {ev : Core.Event}
    (hq : (queuePoint l && proceeds y) = false) (hs : Core.Step M i c l y c' l' ev) :
    (l'.recv = l.recv ∧ (queueOf i l' = queueOf i l ∨ queueOf i l = none)) ∨
      (l.op = .idle ∧ l' = { l with recv := .intrP } ∧
        (l.recv = .handler ∨ l.recv = .out ∧ i < M.smpCpus)) := by
  have hnone : ∀ {op : Core.Op}, l.op = op → op ≠ .idle → (∀ j e, op ≠ .send j (.putIntr e)) →
      queueOf i l = none := by
    rintro op rfl hne hsend
    exact queueOf_eq_none hsend fun h => absurd h hne
  have hidle : l.op = .idle → l.recv ≠ .dequeue → queueOf i l = none := fun ho hr =>
    queueOf_eq_none (by simp [ho]) fun _ => hr
  cases hs with
  | handler p now hh => exact .inl ⟨rfl, .inl rfl⟩
  | signal hh hu =>
    refine .inl ⟨rfl, .inl ?_⟩
    unfold queueOf
    cases ho : l.op with
    | sched ev p => cases p <;> rfl
    | _ => rfl
  | send j p now hh ho =>
    refine .inl ⟨(Core.Thread.sendNext_frame _ _ _).2, .inr (hnone ho (by simp) fun j' e he => ?_)⟩
    cases he
    simp [queuePoint, proceeds, hh, ho] at hq
  | sched ev p now hh ho =>
    refine .inl ⟨?_, .inr (hnone ho (by simp) (by simp))⟩
    exact (Core.Thread.aside_schedNext (c := i) l ev _).2.2
  | yield _ _ ho | spurious _ _ ho | killFails _ _ ho =>
    exact .inl ⟨rfl, .inr (hnone ho (by simp) (by simp))⟩
  | pauseCore p now _ r hh ho hp =>
    exact .inl ⟨(Core.Thread.aside_pauseNext (c := i) l r).2.2, .inr (hnone ho (by simp) (by simp))⟩
  | wait j all p now _ r hh ho hp =>
    exact .inl ⟨(Core.Thread.aside_waitNext (c := i) M l j all r).2.2,
      .inr (hnone ho (by simp) (by simp))⟩
  | receive now hh ho hr =>
    right
    cases hrv : l.recv with
    | out => exact absurd hrv hr
    | handler => exact ⟨ho, rfl, .inl rfl⟩
    | _ => simp [queuePoint, proceeds, hh, ho, hrv] at hq
  | callReceive hh ho hi hr => exact .inr ⟨ho, rfl, .inr ⟨hr, hi⟩⟩
  | callSend intr j hh ho hj hr =>
    refine .inl ⟨rfl, .inr (hidle ho ?_)⟩
    rcases hr with hr | hr <;> simp [hr]
  | callSched ev hh ho hi hr =>
    refine .inl ⟨(Core.Thread.aside_cpuSched (c := i) ev ho).2.2, .inr (hidle ho (by simp [hr]))⟩
  | callPause hh ho hi hr => exact .inl ⟨rfl, .inr (hidle ho (by simp [hr]))⟩
  | callWait j hh ho hj hr => exact .inl ⟨rfl, .inr (hidle ho (by simp [hr]))⟩
  | callWaitAll hh ho hr =>
    exact .inl ⟨(Core.Thread.aside_waitFrom (c := i) M 0 l).2.2, .inr (hidle ho (by simp [hr]))⟩
  | restart hh ho hr => exact .inl ⟨rfl, .inl rfl⟩

/-- Who is about to enqueue was so before, or has just called `coremu_send_intr`. -/
theorem core_putIntr {c c' : Core.Shared} {l l' : Core.Thread} {y : Core.Choice} {ev : Core.Event}
    {e : Core.Entry} (hs : Core.Step M i c l y c' l' ev) (ho : l'.op = .send j (.putIntr e)) :
    l.op = .send j (.putIntr e) ∨ j < M.smpCpus := by
  have hfrom : ∀ m, (M.waitFrom m l).1.op ≠ .send j (.putIntr e) := by
    intro m hm
    rcases Core.waitFrom_op M m l with h | h <;> (rw [h] at hm; cases hm)
  cases hs with
  | callSend intr j' hh hop hj hr =>
    cases ho
    exact .inr hj
  | send j' p now hh hop =>
    cases hr : (Core.sendIntr M i j' (c.core j') p).2 with
    | none => rw [hr] at ho; cases ho
    | some p' =>
      rw [hr] at ho
      cases ho
      exact absurd hr (Core.sendIntr_ne_putIntr e p)
  | handler | receive | callReceive | restart => exact .inl ho
  | signal => exact .inl (Core.Op.eq_of_interrupted ho (by simp))
  | sched ev p =>
    cases hr : (Core.sched ev (c.core i) p).2 with
    | some p' => rw [hr] at ho; cases ho
    | none => rw [hr] at ho; cases ev <;> cases ho
  | pauseCore p now _ r => cases r <;> cases ho
  | wait j' all p now _ r =>
    cases r with
    | some p' => cases all <;> cases ho
    | none =>
      cases all with
      | false => cases ho
      | true => exact absurd ho (hfrom (j' + 1))
  | callSched ev hh hop =>
    rcases Core.cpuSched_op ev l with ⟨h, -⟩ | h | h <;> rw [h] at ho
    · exact .inl ho
    · cases ho
    · cases ho
  | yield | callPause | callWait | spurious | killFails => cases ho
  | callWaitAll => exact absurd ho (hfrom 0)

/-- Who calls a function is not receiving, or inside `event_handler`. -/
theorem core_recv {c c' : Core.Shared} {l l' : Core.Thread} {y : Core.Choice} {ev : Core.Event}
    (hs : Core.Step M i c l y c' l' ev) (ho : l.op = .idle) (ho' : l'.op ≠ .idle) :
    l'.recv = .out ∨ l'.recv = .handler := by
  have hout : ∀ {r : Core.RecvPc}, r = l.recv → l.recv = .out → r = .out ∨ r = .handler :=
    fun h1 h2 => .inl (h1.trans h2)
  cases hs with
  | handler | receive | callReceive | restart => exact absurd ho ho'
  | signal => exact absurd (by rw [ho]; rfl) ho'
  | callSend _ _ _ _ _ hr => exact hr
  | callSched ev _ _ _ hr => exact hout (Core.Thread.aside_cpuSched (c := i) ev ho).2.2 hr
  | callPause _ _ _ hr | callWait _ _ _ _ hr => exact .inl hr
  | callWaitAll _ _ hr => exact hout (Core.Thread.aside_waitFrom (c := i) M 0 l).2.2 hr
  | send _ _ _ _ hop | sched _ _ _ _ hop | pauseCore _ _ _ _ _ hop | wait _ _ _ _ _ _ _ hop
  | yield _ _ hop | spurious _ _ hop | killFails _ _ hop =>
    rw [ho] at hop
    cases hop

theorem ThreadOk.core_step (h : ThreadOk M i t) {c c' : Core.Shared} {l : Core.Thread}
    {y : Core.Choice} {ev : Core.Event} (hq : (queuePoint t.core && proceeds y) = false)
    (hs : Core.Step M i c t.core y c' l ev) : ThreadOk M i { t with core := l } := by
  have hmove := core_move hq hs
  refine ⟨fun ho => ?_, fun hr => ?_, fun hn => ?_, fun j e ho => ?_⟩
  · by_cases hop : t.core.op = .idle
    · exact core_recv hs hop ho
    · rcases hmove with ⟨hr, -⟩ | ⟨hidle, -⟩
      · rw [hr]
        exact h.recv hop
      · exact absurd hidle hop
  · rcases hmove with ⟨hsame, -⟩ | ⟨-, -, hh | ⟨-, hi⟩⟩
    · exact h.core (hsame ▸ hr)
    · exact h.core (by simp [hh])
    · exact hi
  · rcases hmove with ⟨-, hsame | hnone⟩ | ⟨hidle, -, hr⟩
    · exact h.idle (hsame ▸ hn)
    · exact h.idle hnone
    · refine h.idle (queueOf_eq_none (by simp [hidle]) fun _ => ?_)
      rcases hr with hr | ⟨hr, -⟩ <;> simp [hr]
  · rcases core_putIntr hs ho with hold | hnew
    · exact h.sent j e hold
    · exact hnew

/-! ### What each core sees -/

/-- The state of `coremu_receive_intr` on one queue. -/
abbrev IntrConfig := Interleave.Config ℕ LockQueue.Shared (Intr.Thread Pc)

/-- `v` is what core `j` sees: its queue, on the part of the heap that belongs to it. -/
structure View (j : ℕ) (cfg : Config) (v : IntrConfig) : Prop where
  within : Within v.shared (cfg.shared.lockQueue j)
  thread : ∀ i, v.thread i = queueThread j i (cfg.thread i)

/-- Every core has its queue to itself. -/
structure Separated (M : Machine) (tr : List (ℕ × Event)) (cfg : Config) (V : ℕ → IntrConfig) :
    Prop where
  run : ∀ j < M.smpCpus, ∃ trj, Intr.Lock.Run j trj (V j) ∧ Intr.queueTrace trj = queueTrace j tr
  view : ∀ j < M.smpCpus, View j cfg (V j)
  /-- No block belongs to two queues. -/
  apart : ∀ j < M.smpCpus, ∀ k < M.smpCpus, ∀ a, (V j).shared.live a = true →
    (V k).shared.live a = true → j = k
  /-- Every block in use belongs to a queue. -/
  cover : ∀ a, cfg.shared.live a = true → ∃ j < M.smpCpus, (V j).shared.live a = true
  thread : ∀ i, ThreadOk M i (cfg.thread i)

variable {V : ℕ → IntrConfig} {v v' : IntrConfig}

/-- A core that sees no change. -/
theorem View.after (h : View j cfg v) (hw : Within v.shared (s'.lockQueue j))
    (ht : queueThread j i t' = queueThread j i (cfg.thread i)) : View j (cfg.after i s' t') v where
  within := hw
  thread k := by
    by_cases hk : k = i
    · subst hk
      rw [Interleave.Config.after_thread_self, ht]
      exact h.thread k
    · rw [Interleave.Config.after_thread_of_ne _ _ _ hk]
      exact h.thread k

/-- A core that sees a step of thread `i`. -/
theorem View.of_step (h : View j cfg v) {q : LockQueue.Shared} (hw : Within q (s'.lockQueue j)) :
    View j (cfg.after i s' t') (v.after i q (queueThread j i t')) where
  within := hw
  thread k := by
    by_cases hk : k = i
    · subst hk
      rw [Interleave.Config.after_thread_self, Interleave.Config.after_thread_self]
    · rw [Interleave.Config.after_thread_of_ne _ _ _ hk,
        Interleave.Config.after_thread_of_ne _ _ _ hk]
      exact h.thread k

/-- A step that no core sees. -/
theorem Separated.same (h : Separated M tr cfg V) (htr : ∀ j, queueTrace j (tr ++ [(i, e)]) =
      queueTrace j tr) (hw : ∀ j, s'.lockQueue j = cfg.shared.lockQueue j)
    (hv : ∀ j, queueThread j i t' = queueThread j i (cfg.thread i)) (ht : ThreadOk M i t') :
    Separated M (tr ++ [(i, e)]) (cfg.after i s' t') V where
  run j hj := by
    rw [htr]
    exact h.run j hj
  view j hj := (h.view j hj).after (by rw [hw]; exact (h.view j hj).within) (hv j)
  apart := h.apart
  cover a ha := h.cover a ((congrArg (·.live a) (hw 0)).symm.trans ha)
  thread := Interleave.Config.forall_after ht fun j _ => h.thread j

/-- A step that only core `j` sees. -/
theorem Separated.update (h : Separated M tr cfg V) (hj : j < M.smpCpus)
    (hrun : ∃ trj, Intr.Lock.Run j trj v' ∧ Intr.queueTrace trj = queueTrace j (tr ++ [(i, e)]))
    (hview : View j (cfg.after i s' t') v')
    (hothers : ∀ k < M.smpCpus, k ≠ j → queueTrace k (tr ++ [(i, e)]) = queueTrace k tr ∧
      View k (cfg.after i s' t') (V k))
    (hfresh : ∀ a, v'.shared.live a = true →
      (V j).shared.live a = true ∨ cfg.shared.live a = false)
    (hkept : ∀ a, s'.live a = true → v'.shared.live a = true ∨
      (V j).shared.live a = false ∧ cfg.shared.live a = true)
    (ht : ThreadOk M i t') :
    Separated M (tr ++ [(i, e)]) (cfg.after i s' t') (Function.update V j v') := by
  -- a block that is new to core `j` belongs to no other core
  have hnew : ∀ k < M.smpCpus, k ≠ j → ∀ a, v'.shared.live a = true →
      (V k).shared.live a = true → False := by
    intro k hk hkj a ha hka
    rcases hfresh a ha with hold | hfree
    · exact hkj (h.apart k hk j hj a hka hold)
    · have hlive := (h.view k hk).within.live a hka
      rw [show (cfg.shared.lockQueue k).live a = cfg.shared.live a from rfl, hfree] at hlive
      cases hlive
  refine ⟨fun k hk => ?_, fun k hk => ?_, fun k hk m hm a hka hma => ?_, fun a ha => ?_,
    Interleave.Config.forall_after ht fun m _ => h.thread m⟩
  · by_cases hkj : k = j
    · subst hkj
      rw [Function.update_self]
      exact hrun
    · rw [Function.update_of_ne hkj, (hothers k hk hkj).1]
      exact h.run k hk
  · by_cases hkj : k = j
    · subst hkj
      rw [Function.update_self]
      exact hview
    · rw [Function.update_of_ne hkj]
      exact (hothers k hk hkj).2
  · by_cases hkj : k = j
    · by_cases hmj : m = j
      · rw [hkj, hmj]
      · rw [hkj, Function.update_self] at hka
        rw [Function.update_of_ne hmj] at hma
        exact (hnew m hm hmj a hka hma).elim
    · rw [Function.update_of_ne hkj] at hka
      by_cases hmj : m = j
      · rw [hmj, Function.update_self] at hma
        exact (hnew k hk hkj a hma hka).elim
      · rw [Function.update_of_ne hmj] at hma
        exact h.apart k hk m hm a hka hma
  · rcases hkept a ha with hown | ⟨hnot, hold⟩
    · exact ⟨j, hj, by rw [Function.update_self]; exact hown⟩
    · obtain ⟨k, hk, hka⟩ := h.cover a hold
      have hkj : k ≠ j := by
        rintro rfl
        rw [hnot] at hka
        cases hka
      exact ⟨k, hk, by rw [Function.update_of_ne hkj]; exact hka⟩

/-! ### The accesses of a queue -/

section Access

variable {y : LockQueue.Choice} {q : LockQueue.Shared} {p : Pc} {f : Fifo.Event DataType}

/-- The thread that works on the queue of core `j`, as that core sees it. -/
theorem View.queue_eq (h : View j cfg v) (hq : queueOf i (cfg.thread i).core = some j) :
    (v.thread i).queue = (cfg.thread i).queue := by
  rw [h.thread i]
  exact if_pos hq

/-- An access of the queue of core `j` is one on the part of the heap that belongs to it. -/
theorem Separated.queue_step (h : Separated M tr cfg V) (hj : j < M.smpCpus)
    (hq : queueOf i (cfg.thread i).core = some j)
    (hs : LockQueue.step (cfg.shared.lockQueue j) (cfg.thread i).queue y = some (q, p, f)) :
    ∃ q', LockQueue.step (V j).shared ((V j).thread i).queue y = some (q', p, f) ∧
      Within q' q ∧ Unnoticed (V j).shared (cfg.shared.lockQueue j) q' q := by
  obtain ⟨trj, hrun, -⟩ := h.run j hj
  obtain ⟨hqrun, -⟩ := Intr.Run.queue (Intr.Lock.allows j) hrun
  obtain ⟨g, -, hinv⟩ := LockQueue.Run.inv hqrun
  rw [← (h.view j hj).queue_eq hq] at hs
  exact (h.view j hj).within.step (fun a ha => (hinv.2 i).touches_live hinv.1 ha) hs

/-- The other cores do not notice it. -/
theorem Separated.others (h : Separated M tr cfg V) (hj : j < M.smpCpus) {q' : LockQueue.Shared}
    (hu : Unnoticed (V j).shared (cfg.shared.lockQueue j) q' q) (hk : k < M.smpCpus)
    (hkj : k ≠ j) : Within (V k).shared ((cfg.shared.setQueue j q).lockQueue k) := by
  have hw := (h.view k hk).within
  have hnot : ∀ a, (V k).shared.live a = true → (V j).shared.live a = false := by
    intro a ha
    cases hja : (V j).shared.live a with
    | false => rfl
    | true => exact absurd (h.apart k hk j hj a ha hja) hkj
  have hqueue : (cfg.shared.setQueue j q).queue k = cfg.shared.queue k :=
    Function.update_of_ne hkj _ _
  refine ⟨?_, ?_, ?_, ?_, fun a ha => ?_, fun a ha => ?_⟩
  · rw [hw.head, Shared.lockQueue, Shared.lockQueue, hqueue]
  · rw [hw.tail, Shared.lockQueue, Shared.lockQueue, hqueue]
  · rw [hw.count, Shared.lockQueue, Shared.lockQueue, hqueue]
  · rw [hw.tLock, Shared.lockQueue, Shared.lockQueue, hqueue]
  · exact (hu.others a (hnot a ha) (hw.live a ha)).1
  · exact (hw.mem a ha).trans (hu.others a (hnot a ha) (hw.live a ha)).2.symm

/-- What is the same for every access of the queue of core `j` by thread `i`. -/
theorem Separated.access (h : Separated M tr cfg V) (hj : j < M.smpCpus) {q' : LockQueue.Shared}
    (hw : Within q' q) (hu : Unnoticed (V j).shared (cfg.shared.lockQueue j) q' q)
    (hrun : ∃ trj, Intr.Lock.Run j trj ((V j).after i q' (queueThread j i t')) ∧
      Intr.queueTrace trj = queueTrace j tr ++ [(i, f)])
    (hothers : ∀ k, k ≠ j → queueThread k i t' = queueThread k i (cfg.thread i))
    (ht : ThreadOk M i t') :
    ∃ V', Separated M (tr ++ [(i, .queue j f)]) (cfg.after i (cfg.shared.setQueue j q) t') V' := by
  refine ⟨_, h.update hj ?_ ((h.view j hj).of_step (q := q') (by simpa using hw))
    (fun k hk hkj => ⟨queueTrace_concat_of_ne tr i f hkj.symm, ?_⟩) hu.fresh hu.kept ht⟩
  · rw [queueTrace_concat_queue]
    exact hrun
  · exact (h.view k hk).after (h.others hj hu hk hkj) (hothers k hkj)

/-- The thread returns from a function of the queue. -/
theorem eq_idle_of_ret {s₁ s₂ : LockQueue.Shared} {p₁ : Pc}
    (hs : LockQueue.step s₁ p₁ y = some (s₂, p, f)) (hf : f = .retEnq ∨ ∃ r, f = .retDeq r) :
    p = .idle := by
  rcases hf with rfl | ⟨r, rfl⟩ <;>
  · have hst := LockQueue.step_cases hs
    cases hst
    rfl

theorem intr_put {c : ℕ} {q₁ q₂ : LockQueue.Shared} {l : Intr.Thread Pc}
    (hr : l.recv = .out ∨ l.recv = .handler)
    (hs : LockQueue.step q₁ l.queue y = some (q₂, p, f)) (hd : f ≠ .callDeq) :
    Intr.step Intr.Lock.queue c i q₁ l (.queue y) = some (q₂, { l with queue := p }, .queue f) := by
  have hput : Intr.putIntr Intr.Lock.queue i q₁ l y =
      some (q₂, { l with queue := p }, .queue f) := by
    have hs' : Intr.Lock.queue.program.step i q₁ l.queue y = some (q₂, p, f) := hs
    rw [Intr.putIntr, hs', Option.bind_some, if_neg hd]
  rcases hr with hr | hr <;> simp only [Intr.step, hr, hput]

theorem intr_get {c : ℕ} {q₁ q₂ : LockQueue.Shared} {l : Intr.Thread Pc} (hr : l.recv = .dequeue)
    (hs : LockQueue.step q₁ l.queue y = some (q₂, p, f)) (hf : ∀ v, f ≠ .callEnq v) :
    Intr.step Intr.Lock.queue c i q₁ l (.queue y) =
      some (q₂, ⟨Intr.RecvPc.after f, p⟩, .queue f) := by
  have hs' : Intr.Lock.queue.program.step i q₁ l.queue y = some (q₂, p, f) := hs
  simp only [Intr.step, hr, Intr.getIntr, hs', Option.bind_some]

theorem ne_of_fits_enq {v : DataType} (hf : Fits (.callEnq v) f = true) : f ≠ .callDeq := by
  rintro rfl
  have heq : Fifo.Event.callEnq v = .callDeq := of_decide_eq_true hf
  cases heq

theorem ne_of_fits_deq (hf : Fits .callDeq f = true) (v : DataType) : f ≠ .callEnq v := by
  rintro rfl
  have heq : Fifo.Event.callDeq = .callEnq v := of_decide_eq_true hf
  cases heq

/-- A thread that works on the queue of core `j`, or has just left it, as that core sees it. -/
theorem queueThread_self (hok : queueOf i t.core = none → t.queue = .idle)
    (ho : queueOf i t.core = some j ∨ queueOf i t.core = none) :
    queueThread j i t = ⟨if i = j then recvPc t.core.recv else .out, t.queue⟩ := by
  unfold queueThread
  rcases ho with ho | ho
  · rw [if_pos ho]
  · rw [hok ho, ite_self]

/-- The other cores do not see it. -/
theorem queueThread_other (ho : queueOf i t.core = some j)
    (ho' : queueOf i t'.core = some j ∨ queueOf i t'.core = none)
    (hr : t'.core.recv = t.core.recv ∨ i = j) (hk : k ≠ j) :
    queueThread k i t' = queueThread k i t := by
  have hne : ∀ {o : Option ℕ}, o = some j ∨ o = none → o ≠ some k := by
    rintro o (rfl | rfl)
    · exact fun h => hk (Option.some.inj h).symm
    · exact nofun
  unfold queueThread
  rw [if_neg (hne (.inl ho)), if_neg (hne ho')]
  rcases hr with hr | rfl
  · rw [hr]
  · rw [if_neg hk.symm, if_neg hk.symm]

theorem Thread.afterEnq_frame (t : Thread) (i j : ℕ) (f : Fifo.Event DataType) :
    (t.afterEnq i j f).queue = t.queue ∧ (t.afterEnq i j f).core.recv = t.core.recv := by
  cases f <;> exact ⟨rfl, rfl⟩

theorem afterPut_ne_putIntr (i j : ℕ) (e : Core.Entry) : afterPut i j ≠ .putIntr e := by
  unfold afterPut
  split <;> exact nofun

/-- The thread stays in the `enqueue`, or it has left it. -/
theorem ThreadOk.afterEnq (h : ThreadOk M i t) {e : Core.Entry}
    (ho : t.core.op = .send j (.putIntr e)) (hp : f = .retEnq → p = .idle) :
    ThreadOk M i ({ t with queue := p }.afterEnq i j f) ∧
      (queueOf i ({ t with queue := p }.afterEnq i j f).core = some j ∨
        queueOf i ({ t with queue := p }.afterEnq i j f).core = none) := by
  have hqo := queueOf_send (i := i) ho
  by_cases hret : f = .retEnq
  · subst hret
    have hne : ∀ k e', Core.Op.send j (afterPut i j) ≠ .send k (.putIntr e') := fun k e' he =>
      afterPut_ne_putIntr i j e' (Core.Op.send.inj he).2
    refine ⟨⟨fun _ => h.recv (by simp [ho]), h.core, fun _ => hp rfl, fun k e' he => ?_⟩,
      .inr (queueOf_eq_none hne nofun)⟩
    exact absurd he (hne k e')
  · have hsame : { t with queue := p }.afterEnq i j f = { t with queue := p } := by
      cases f with
      | retEnq => exact absurd rfl hret
      | _ => rfl
    rw [hsame]
    refine ⟨⟨h.recv, h.core, fun hn => ?_, h.sent⟩, .inl hqo⟩
    rw [hqo] at hn
    cases hn

/-- An access of `coremu_put_intr`. -/
theorem Separated.enqueue (h : Separated M tr cfg V) {e : Core.Entry}
    (ho : (cfg.thread i).core.op = .send j (.putIntr e))
    (hs : LockQueue.step (cfg.shared.lockQueue j) (cfg.thread i).queue y = some (q, p, f))
    (hf : Fits (.callEnq e.value) f = true) :
    ∃ V', Separated M (tr ++ [(i, .queue j f)]) (cfg.after i (cfg.shared.setQueue j q)
      ({ cfg.thread i with queue := p }.afterEnq i j f)) V' := by
  have hok := h.thread i
  have hj := hok.sent j e ho
  have hqo := queueOf_send (i := i) ho
  obtain ⟨q', hs', hw, hu⟩ := h.queue_step hj hqo hs
  have hthread := (h.view j hj).thread i
  rw [queueThread_self hok.idle (.inl hqo)] at hthread
  -- the same step, as core `j` sees it
  have hview : ((V j).thread i).recv = .out ∨ ((V j).thread i).recv = .handler := by
    rw [hthread]
    dsimp only
    split
    · rcases hok.recv (by simp [ho]) with hr | hr <;> simp [hr, recvPc]
    · exact .inl rfl
  obtain ⟨trj, hrun, htrj⟩ := h.run j hj
  have hrun' := Interleave.Program.Run.snoc hrun trivial
    (intr_put (c := j) (i := i) hview hs' (ne_of_fits_enq hf))
  obtain ⟨hok', ho'⟩ := hok.afterEnq ho (p := p) (f := f) fun hret => eq_idle_of_ret hs (.inl hret)
  obtain ⟨hp, hr⟩ := Thread.afterEnq_frame { cfg.thread i with queue := p } i j f
  refine h.access hj hw hu ⟨trj ++ [(i, .queue f)], ?_, ?_⟩
    (fun k hk => queueThread_other hqo ho' (.inl hr) hk) hok'
  · rw [queueThread_self hok'.idle ho', hp, hr]
    rw [hthread] at hrun'
    exact hrun'
  · rw [Intr.queueTrace_concat_queue, htrj]

/-- One more step of thread `i` that is no access of the queue. -/
theorem run_local {c : ℕ} {trj : List (ℕ × Intr.Event)} {l l' : Intr.Thread Pc}
    {z : Intr.Choice LockQueue.Choice} {ev : Intr.Event} (hloc : ev.local = true)
    (hrun : Intr.Lock.Run c trj (v.after i q l))
    (hs : Intr.step Intr.Lock.queue c i q l z = some (q, l', ev)) :
    ∃ trj', Intr.Lock.Run c trj' (v.after i q l') ∧
      Intr.queueTrace trj' = Intr.queueTrace trj := by
  refine ⟨trj ++ [(i, ev)], ?_, Intr.queueTrace_concat_local _ _ hloc⟩
  rw [← Interleave.Config.after_after v i q q l l']
  refine .snoc hrun trivial (x := z) ?_
  rw [Interleave.Config.after_thread_self]
  exact hs

theorem Thread.afterDeq_retSome (t : Thread) {intr : DataType} (h : intr ≠ NULL) :
    t.afterDeq (.retDeq (some intr)) = t.recvAt .handler :=
  congrArg t.recvAt (if_neg h)

/-- After `dequeue` has returned, `event_handler` is called, or the function returns. -/
theorem run_afterDeq {trj : List (ℕ × Intr.Event)} (ht : t.core.recv = .dequeue)
    (hrun : Intr.Lock.Run i trj (v.after i q ⟨Intr.RecvPc.after f, p⟩)) :
    ∃ trj', Intr.Lock.Run i trj' (v.after i q ⟨recvPc (t.afterDeq f).core.recv, p⟩) ∧
      Intr.queueTrace trj' = Intr.queueTrace trj := by
  have hsame : (∀ r, f ≠ .retDeq r) → recvPc (t.afterDeq f).core.recv = Intr.RecvPc.after f := by
    intro hf
    rw [Intr.RecvPc.after_of_ne hf]
    cases f with
    | retDeq r => exact absurd rfl (hf r)
    | _ => exact congrArg recvPc ht
  cases f with
  | retDeq r =>
    cases r with
    | none => exact run_local rfl hrun (z := .go) rfl
    | some intr =>
      by_cases hn : intr = NULL
      · subst hn
        exact run_local rfl hrun (z := .go) rfl
      · rw [Intr.RecvPc.after_retSome hn] at hrun
        rw [Thread.afterDeq_retSome t hn]
        exact run_local rfl hrun (z := .go) rfl
  | _ =>
    rw [hsame nofun]
    exact ⟨_, hrun, rfl⟩

/-- The thread stays in the `dequeue`, or it has left it. -/
theorem ThreadOk.afterDeq (h : ThreadOk M i t) (ho : t.core.op = .idle)
    (hr : t.core.recv = .dequeue) (hp : (∃ r, f = .retDeq r) → p = .idle) :
    ThreadOk M i ({ t with queue := p }.afterDeq f) ∧
      (queueOf i ({ t with queue := p }.afterDeq f).core = some i ∨
        queueOf i ({ t with queue := p }.afterDeq f).core = none) := by
  have hi : i < M.smpCpus := h.core (by simp [hr])
  -- the function has returned
  have hret : ∀ r, r ≠ .dequeue → (∃ r, f = .retDeq r) →
      ThreadOk M i ({ t with queue := p }.recvAt r) ∧
        (queueOf i ({ t with queue := p }.recvAt r).core = some i ∨
          queueOf i ({ t with queue := p }.recvAt r).core = none) := by
    intro r hne hf
    have hsent : ∀ j e, t.core.op ≠ .send j (.putIntr e) := by simp [ho]
    exact ⟨⟨fun hop => absurd ho hop, fun _ => hi, fun _ => hp hf, fun j e he =>
      absurd he (hsent j e)⟩, .inr (queueOf_eq_none hsent fun _ => hne)⟩
  have hqo : queueOf i t.core = some i := queueOf_dequeue ho hr
  cases f with
  | retDeq r =>
    cases r with
    | none => exact hret _ nofun ⟨_, rfl⟩
    | some intr =>
      refine hret _ ?_ ⟨_, rfl⟩
      split <;> exact nofun
  | _ =>
    refine ⟨⟨h.recv, h.core, fun hn => ?_, h.sent⟩, .inl hqo⟩
    exact absurd (hqo.symm.trans hn) nofun

/-- An access of the `dequeue` in `coremu_get_intr`. -/
theorem Separated.dequeue (h : Separated M tr cfg V) (ho : (cfg.thread i).core.op = .idle)
    (hr : (cfg.thread i).core.recv = .dequeue)
    (hs : LockQueue.step (cfg.shared.lockQueue i) (cfg.thread i).queue y = some (q, p, f))
    (hf : Fits .callDeq f = true) :
    ∃ V', Separated M (tr ++ [(i, .queue i f)]) (cfg.after i (cfg.shared.setQueue i q)
      ({ cfg.thread i with queue := p }.afterDeq f)) V' := by
  have hok := h.thread i
  have hi : i < M.smpCpus := hok.core (by simp [hr])
  have hqo := queueOf_dequeue (i := i) ho hr
  obtain ⟨q', hs', hw, hu⟩ := h.queue_step hi hqo hs
  have hview : ((V i).thread i).recv = .dequeue := by
    rw [(h.view i hi).thread i]
    simp [queueThread, hr, recvPc]
  obtain ⟨trj, hrun, htrj⟩ := h.run i hi
  have hrun' := Interleave.Program.Run.snoc hrun trivial
    (intr_get (c := i) (i := i) hview hs' (ne_of_fits_deq hf))
  obtain ⟨trj', hrun'', htrj'⟩ := run_afterDeq (t := { cfg.thread i with queue := p }) hr hrun'
  obtain ⟨hok', ho'⟩ := hok.afterDeq ho hr (p := p) (f := f) fun hret =>
    eq_idle_of_ret hs (.inr hret)
  have hp : ({ cfg.thread i with queue := p }.afterDeq f).queue = p := by
    cases f with
    | retDeq r => cases r <;> rfl
    | _ => rfl
  refine h.access hi hw hu ⟨trj', ?_, ?_⟩
    (fun k hk => queueThread_other hqo ho' (.inr rfl) hk) hok'
  · rw [queueThread_self hok'.idle ho', hp, if_pos rfl]
    exact hrun''
  · rw [htrj', Intr.queueTrace_concat_queue, htrj]

end Access

/-! ### The other steps -/

/-- A step of `coremu_send_intr` or `coremu_cpu_sched` that reads a counter. -/
theorem Separated.goto (h : Separated M tr cfg V) {op : Core.Op} {ev : Core.Event}
    (ho : (cfg.thread i).core.op ≠ .idle)
    (hsend : ∀ j e, (cfg.thread i).core.op ≠ .send j (.putIntr e))
    (hsend' : ∀ j e, op ≠ .send j (.putIntr e)) :
    Separated M (tr ++ [(i, .core ev)]) (cfg.after i cfg.shared ((cfg.thread i).goto op)) V := by
  have hok := h.thread i
  have hnone : queueOf i (cfg.thread i).core = none :=
    queueOf_eq_none hsend fun hidle => absurd hidle ho
  refine h.same (fun j => queueTrace_concat_core j tr i ev) (fun _ => rfl)
    (fun j => queueThread_congr hok.idle rfl rfl (.inr hnone)) ?_
  exact ⟨fun _ => hok.recv ho, hok.core, fun _ => hok.idle hnone, fun j e he =>
    absurd he (hsend' j e)⟩

/-- A step of `coremu_receive_intr` that does not change the queue. -/
theorem Separated.receive (h : Separated M tr cfg V) (hi : i < M.smpCpus)
    {ev : Core.Event} (hw : ∀ j, s'.lockQueue j = cfg.shared.lockQueue j)
    (hq : (cfg.thread i).queue = .idle) (hq' : t'.queue = .idle)
    (hrun : ∀ trj, Intr.Lock.Run i trj (V i) →
      ∃ trj', Intr.Lock.Run i trj' ((V i).after i (V i).shared ⟨recvPc t'.core.recv, .idle⟩) ∧
        Intr.queueTrace trj' = Intr.queueTrace trj) (ht : ThreadOk M i t') :
    ∃ V', Separated M (tr ++ [(i, .core ev)]) (cfg.after i s' t') V' := by
  have hview := (h.view i hi).within
  obtain ⟨trj, hr, htrj⟩ := h.run i hi
  obtain ⟨trj', hr', htrj'⟩ := hrun trj hr
  have hself : queueThread i i t' = ⟨recvPc t'.core.recv, .idle⟩ := by
    simp [queueThread, hq']
  have hothers : ∀ k, k ≠ i → queueThread k i t' = queueThread k i (cfg.thread i) := by
    intro k hk
    simp [queueThread, hq, hq', hk.symm]
  refine ⟨_, h.update hi ⟨trj', hself ▸ hr', ?_⟩ ((h.view i hi).of_step (by rw [hw]; exact hview))
    (fun k hk hki => ⟨queueTrace_concat_core k tr i ev, ?_⟩) (fun a ha => .inl ha)
    (fun a ha => LockQueue.own_or_other ((congrArg (·.live a) (hw i)).symm.trans ha)) ht⟩
  · rw [htrj', htrj, queueTrace_concat_core]
  · exact (h.view k hk).after (by rw [hw]; exact (h.view k hk).within) (hothers k hki)

/-- `coremu_intr_p` reads the counter of the queue that the core sees. -/
theorem View.intrP (h : View j cfg v) :
    Intr.coremuIntrP Intr.Lock.queue v.shared = decide (0 < cfg.shared.intrGetSize j) := by
  have hcount : v.shared.count = (cfg.shared.lockQueue j).count := h.within.count
  have hsize : Intr.Lock.queue.queueGetSize v.shared = cfg.shared.intrGetSize j :=
    congrArg BitVec.toInt hcount
  rw [Intr.coremuIntrP, hsize]

/-- The test of `coremu_intr_p` in `coremu_receive_intr`. -/
theorem Separated.intrP (h : Separated M tr cfg V) (ho : (cfg.thread i).core.op = .idle)
    (hr : (cfg.thread i).core.recv = .intrP) {ev : Core.Event} :
    ∃ V', Separated M (tr ++ [(i, .core ev)]) (cfg.after i cfg.shared
      ((cfg.thread i).recvAt (if 0 < cfg.shared.intrGetSize i then .dequeue else .out))) V' := by
  have hok := h.thread i
  have hi : i < M.smpCpus := hok.core (by simp [hr])
  have hsend : ∀ j e, (cfg.thread i).core.op ≠ .send j (.putIntr e) := by simp [ho]
  have hnone : queueOf i (cfg.thread i).core = none := queueOf_eq_none hsend (by simp [hr])
  have hq := hok.idle hnone
  have hthread : (V i).thread i = ⟨.intrP, .idle⟩ := by
    rw [(h.view i hi).thread i]
    simp [queueThread, hr, hq, recvPc]
  refine h.receive hi (fun _ => rfl) hq hq (fun trj hrun => ?_)
    ⟨fun hop => absurd ho hop, fun _ => hi, fun _ => hq, fun j e he => absurd he (hsend j e)⟩
  -- the test, and the return when it fails
  have hstep : Intr.step Intr.Lock.queue i i (V i).shared ((V i).thread i) .go =
      some ((V i).shared, ⟨if 0 < cfg.shared.intrGetSize i then .dequeue else .ret, .idle⟩,
        .intrP (decide (0 < cfg.shared.intrGetSize i))) := by
    simp only [Intr.step, hthread, (h.view i hi).intrP, decide_eq_true_eq]
  have hrun' := Interleave.Program.Run.snoc hrun trivial hstep
  have htr := Intr.queueTrace_concat_local trj i
    (e := .intrP (decide (0 < cfg.shared.intrGetSize i))) rfl
  by_cases hpos : 0 < cfg.shared.intrGetSize i
  · simp only [if_pos hpos] at hrun' ⊢
    exact ⟨_, hrun', htr⟩
  · simp only [if_neg hpos] at hrun' ⊢
    obtain ⟨trj', h1, h2⟩ := run_local rfl hrun' (z := .go) rfl
    exact ⟨trj', h1, h2.trans htr⟩

/-- A step of the core model. -/
theorem Separated.core (h : Separated M tr cfg V) {y : Core.Choice} {c : Core.Shared}
    {l : Core.Thread} {ev : Core.Event}
    (hq : (queuePoint (cfg.thread i).core && proceeds y) = false)
    (hs : Core.Step M i cfg.shared.cores (cfg.thread i).core y c l ev) :
    ∃ V', Separated M (tr ++ [(i, .core ev)])
      (cfg.after i { cfg.shared with cores := c } { cfg.thread i with core := l }) V' := by
  have hok := h.thread i
  have hok' := hok.core_step hq hs
  rcases core_move hq hs with ⟨hr, hqo⟩ | ⟨ho, hl, hr⟩
  · exact ⟨V, h.same (fun j => queueTrace_concat_core j tr i ev) (fun _ => rfl)
      (fun j => queueThread_congr hok.idle rfl hr hqo) hok'⟩
  · subst hl
    have hne : (cfg.thread i).core.recv ≠ .dequeue := by
      rcases hr with hr | ⟨hr, -⟩ <;> simp [hr]
    have hidle := hok.idle (queueOf_eq_none (by simp [ho]) fun _ => hne)
    have hi : i < M.smpCpus := hok'.core nofun
    have hthread : (V i).thread i = ⟨recvPc (cfg.thread i).core.recv, .idle⟩ := by
      rw [(h.view i hi).thread i]
      simp [queueThread, hidle]
    refine h.receive hi (fun _ => rfl) hidle hidle (fun trj hrun => ?_) hok'
    rcases hr with hr | ⟨hr, -⟩
    · refine ⟨_, .snoc hrun trivial (x := .go) ?_, Intr.queueTrace_concat_local trj i
        (e := .handled) rfl⟩
      rw [hthread, hr]
      rfl
    · refine ⟨_, .snoc hrun trivial (x := .receive) ?_, Intr.queueTrace_concat_local trj i
        (e := .receive) rfl⟩
      rw [hthread, hr]
      exact if_pos ⟨rfl, rfl⟩

/-- **A step is one for the core whose queue it accesses**, and none for the others. -/
theorem Separated.step (h : Separated M tr cfg V)
    (hs : System.step M i cfg.shared (cfg.thread i) x = some (s', t', e)) :
    ∃ V', Separated M (tr ++ [(i, e)]) (cfg.after i s' t') V' := by
  cases step_cases hs with
  | enqueue j e y q p f hh ho hst hf => exact h.enqueue ho hst hf
  | dequeue y q p f hh ho hr hst hf => exact h.dequeue ho hr hst hf
  | getSize j now hh ho => exact ⟨V, h.goto (by simp [ho]) (by simp [ho]) nofun⟩
  | nanosleep ev now hh ho => exact ⟨V, h.goto (by simp [ho]) (by simp [ho]) nofun⟩
  | intrP now hh ho hr => exact h.intrP ho hr
  | core y c l ev hq hst => exact h.core hq (Core.step_cases hst)

/-! ### Runs -/

/-- What core `j` sees after `coremu_core_init`: a new queue. -/
def bootView (mem : Addr → LockQueue.Node) (node : ℕ → Addr) (j : ℕ) : IntrConfig :=
  ⟨LockQueue.initializeQ mem (node j), fun _ => ⟨.out, .idle⟩⟩

theorem boot_separated {mem : Addr → LockQueue.Node} {node : ℕ → Addr}
    (hb : ∀ j < M.smpCpus, Block (node j))
    (hinj : ∀ j < M.smpCpus, ∀ k < M.smpCpus, node j = node k → j = k) :
    Separated M [] (boot M mem node) (bootView mem node) where
  run j hj := ⟨[], .nil ⟨⟨mem, node j, hb j hj, rfl⟩, fun _ => rfl⟩, rfl⟩
  view j hj := by
    have hmem : (List.range M.smpCpus).any (node · = node j) = true := by
      rw [List.any_eq_true]
      exact ⟨j, List.mem_range.mpr hj, decide_eq_true rfl⟩
    refine ⟨⟨rfl, rfl, rfl, rfl, fun a ha => ?_, fun a ha => ?_⟩, fun i => ?_⟩
    · obtain rfl : a = node j := of_decide_eq_true ha
      exact hmem
    · obtain rfl : a = node j := of_decide_eq_true ha
      simp only [bootView, LockQueue.initializeQ, Function.update_self, boot, Shared.lockQueue,
        if_pos hmem]
    · simp [bootView, queueThread, boot, Core.start, recvPc]
  apart j hj k hk a ha hka := by
    obtain rfl : a = node j := of_decide_eq_true ha
    exact hinj j hj k hk (of_decide_eq_true hka)
  cover a ha := by
    obtain ⟨j, hj, hja⟩ := List.any_eq_true.mp ha
    exact ⟨j, List.mem_range.mp hj, decide_eq_true (of_decide_eq_true hja).symm⟩
  thread i := ⟨fun ho => absurd rfl ho, fun hr => absurd rfl hr, fun _ => rfl, nofun⟩

/-- **Every run is a run of each core on a queue of its own.** -/
theorem Run.separated (h : Run M tr cfg) : ∃ V, Separated M tr cfg V := by
  refine Interleave.Program.Run.induct (J := fun tr cfg => ∃ V, Separated M tr cfg V) ?_ ?_ h
  · rintro cfg ⟨mem, node, hb, hinj, rfl⟩
    exact ⟨_, boot_separated hb hinj⟩
  · rintro tr cfg i x s' t' e ⟨V, hV⟩ - hs
    exact hV.step hs

/-- The queue that core `j` sees is one with core `j` as its consumer. -/
theorem Separated.queueRun (h : Separated M tr cfg V) (hj : j < M.smpCpus) :
    LockQueue.Run j (queueTrace j tr) (Intr.queueConfig (V j)) := by
  obtain ⟨trj, hrun, htrj⟩ := h.run j hj
  rw [← htrj]
  exact (Intr.Run.queue (Intr.Lock.allows j) hrun).1

/-- **Every core is served the interrupts sent to it, oldest first**, whatever the other
cores do to their queues on the same heap. -/
theorem system_fifo (h : Run M tr cfg) (hj : j < M.smpCpus) :
    Fifo.Linearized (queueTrace j tr) ∧ Fifo.OldestFirst j (queueTrace j tr) := by
  obtain ⟨V, hV⟩ := h.separated
  have hrun := hV.queueRun hj
  obtain ⟨g, hg, -⟩ := hrun.inv
  exact ⟨Fifo.linearized_of_exec hg, Fifo.oldestFirst_of_exec hg hrun.callDeq_eq⟩

/-- Two cores, after `coremu_core_init`. -/
def bootTwo : Config :=
  boot Core.twoOnOne (fun _ => ⟨NULL, 0⟩) fun j => BitVec.ofNat 64 (16 * (j + 1))

theorem booted_bootTwo : Booted Core.twoOnOne bootTwo :=
  ⟨_, _, by decide, by decide, rfl⟩

/-- Core 0 sends the interrupt 7 to core 1, up to the return of `coremu_put_intr`; core 1
receives it, up to the call of `event_handler`. -/
def sendSteps : List (ℕ × Choice) :=
  (0, .core (.sendIntr 7 1)) :: (LockQueue.enqueueSteps 0 7 64).map (fun p => (p.1, .queue p.2)) ++
    (1, .core .receiveIntr) :: (1, .core (.go 0)) ::
      (LockQueue.dequeueSteps 1 ⟨5, 5⟩).map fun p => (p.1, .queue p.2)

/-- The interrupt is served to core 1. -/
theorem system_fifo_served : ∃ tr cfg, Run Core.twoOnOne tr cfg ∧ 1 < Core.twoOnOne.smpCpus ∧
    Fifo.returned (queueTrace 1 tr) = [7] ∧ Fifo.Linearized (queueTrace 1 tr) ∧
      Fifo.OldestFirst 1 (queueTrace 1 tr) := by
  obtain ⟨tr, cfg, hr, ht⟩ : ∃ tr cfg, Run Core.twoOnOne tr cfg ∧
      decide (Fifo.returned (queueTrace 1 tr) = [7]) = true :=
    Interleave.Program.exists_run_of_exec (fun _ _ _ _ => true) (fun _ _ _ _ _ => trivial)
      booted_bootTwo sendSteps (fun tr _ => decide (Fifo.returned (queueTrace 1 tr) = [7]))
      (by decide)
  exact ⟨tr, cfg, hr, by decide, of_decide_eq_true ht, system_fifo hr (by decide)⟩

end Coremu.System

import Coremu.Core.Model
import Coremu.LockQueue.Model

/-!
# All cores with their queues

The core model takes `enqueue` and `dequeue` for one step each.  Here they are the code of
`main/lock-queue.c`, access by access: every core has its queue, a thread that sends to a
core runs `enqueue` on the queue of that core, and the thread of a core runs `dequeue` on
its own.  All nodes come from one heap, so a block that one queue has freed may be handed
out to another.  `queue_get_size` reads the counter, whatever the list holds.

Signals are not blocked by this queue: the handler of a core may run in the middle of an
`enqueue`, also while the thread holds `t_lock`.

Where the core model would use its own queue, the steps are those given here; all other
steps are those of the core model, whose field `intrQueue` stays as it is and is not read.

## Main definitions

* `QueueT`, `Shared` — the queues, and what all threads see.
* `putIntr`, `getIntr` — one access of `coremu_put_intr` and `coremu_get_intr`.
* `step`, `program` — one step of a thread.
* `Booted`, `Run` — after `coremu_core_init` for every core, and the runs from there.
* `ReliableRun` — those in which no signal gets lost and no `NULL` is sent.

## Main results

* `step_cases` — what a step can do.
-/

namespace Coremu.System

open Coremu.Core (Machine CMSchedEvent)

/-- `struct queue_t` of `main/lock-queue.c` -/
structure QueueT where
  head : Addr
  tail : Addr
  count : BitVec 64
  tLock : BitVec 32

/-- What all threads see. -/
structure Shared where
  /-- `cm_cores` but for `intr_queue`, `pause_mutex` and `pause_cond` -/
  cores : Core.Shared
  /-- `core->intr_queue` -/
  queue : ℕ → QueueT
  /-- The content of every block of the heap. -/
  mem : Addr → LockQueue.Node
  /-- The blocks in use. -/
  live : Addr → Bool

/-- The queue of core `j`, with the heap. -/
def Shared.lockQueue (s : Shared) (j : ℕ) : LockQueue.Shared where
  head := (s.queue j).head
  tail := (s.queue j).tail
  count := (s.queue j).count
  tLock := (s.queue j).tLock
  mem := s.mem
  live := s.live

/-- The state after an access of the queue of core `j`. -/
def Shared.setQueue (s : Shared) (j : ℕ) (q : LockQueue.Shared) : Shared where
  cores := s.cores
  queue := Function.update s.queue j ⟨q.head, q.tail, q.count, q.tLock⟩
  mem := q.mem
  live := q.live

@[simp] theorem Shared.lockQueue_setQueue (s : Shared) (j : ℕ) (q : LockQueue.Shared) :
    (s.setQueue j q).lockQueue j = q := by
  simp [Shared.lockQueue, Shared.setQueue]

/-- `coremu_intr_get_size` -/
def Shared.intrGetSize (s : Shared) (j : ℕ) : ℤ := LockQueue.queueGetSize (s.lockQueue j)

theorem Shared.intrGetSize_setQueue (s : Shared) (j : ℕ) (q : LockQueue.Shared) :
    (s.setQueue j q).intrGetSize j = q.count.toInt := by
  rw [Shared.intrGetSize, Shared.lockQueue_setQueue, LockQueue.queueGetSize]

/-- A thread: its place in the core model, and in the queue it works on. -/
structure Thread where
  core : Core.Thread
  queue : LockQueue.Pc

/-- What a step shows. -/
inductive Event
  /-- An access of the queue of core `j`. -/
  | queue (j : ℕ) (e : Fifo.Event DataType)
  /-- A step of the core model. -/
  | core (e : Core.Event)
  deriving DecidableEq, Repr

/-- What the code leaves open at a step. -/
inductive Choice
  | queue (x : LockQueue.Choice)
  | core (x : Core.Choice)
  deriving Repr

/-- The thread goes on with `op`. -/
def Thread.goto (t : Thread) (op : Core.Op) : Thread := { t with core := { t.core with op := op } }

/-- The thread is at `r` of `coremu_receive_intr`. -/
def Thread.recvAt (t : Thread) (r : Core.RecvPc) : Thread :=
  { t with core := { t.core with recv := r } }

/-- Where `coremu_send_intr` of thread `i` to core `j` goes on after `coremu_put_intr`. -/
def afterPut (i j : ℕ) : Core.SendPc := if i = j then .notifier else .getSize

/-- The thread after an access of the `enqueue` in `coremu_put_intr`. -/
def Thread.afterEnq (t : Thread) (i j : ℕ) : Fifo.Event DataType → Thread
  | .retEnq => t.goto (.send j (afterPut i j))
  | _ => t

/-- The thread after an access of the `dequeue` in `coremu_get_intr`: when that has returned
an interrupt, the thread is inside `event_handler`; `NULL` ends `coremu_receive_intr`. -/
def Thread.afterDeq (t : Thread) : Fifo.Event DataType → Thread
  | .retDeq (some intr) => t.recvAt (if intr = NULL then .out else .handler)
  | .retDeq none => t.recvAt .out
  | _ => t

/-- The function of the queue is called with this event, or has been called before. -/
def Fits (call : Fifo.Event DataType) : Fifo.Event DataType → Bool
  | .callEnq v => decide (call = .callEnq v)
  | .callDeq => decide (call = .callDeq)
  | _ => true

/-- One access of `coremu_put_intr` of thread `i`, which sends `e` to core `j`. -/
def putIntr (i j : ℕ) (s : Shared) (t : Thread) (e : Core.Entry) (x : LockQueue.Choice) :
    Option (Shared × Thread × Event) :=
  (LockQueue.step (s.lockQueue j) t.queue x).bind fun r =>
    if Fits (.callEnq e.value) r.2.2 then
      some (s.setQueue j r.1, { t with queue := r.2.1 }.afterEnq i j r.2.2, .queue j r.2.2)
    else none

/-- One access of the `dequeue` in `coremu_get_intr`, by the thread of core `i`. -/
def getIntr (i : ℕ) (s : Shared) (t : Thread) (x : LockQueue.Choice) :
    Option (Shared × Thread × Event) :=
  (LockQueue.step (s.lockQueue i) t.queue x).bind fun r =>
    if Fits .callDeq r.2.2 then
      some (s.setQueue i r.1, { t with queue := r.2.1 }.afterDeq r.2.2, .queue i r.2.2)
    else none

/-- The core model would use its own queue here. -/
def queuePoint (t : Core.Thread) : Bool :=
  match t.handler, t.op, t.recv with
  | none, .send _ (.putIntr _), _ => true
  | none, .send _ .getSize, _ => true
  | none, .sched _ .nanosleep, _ => true
  | none, .idle, .intrP => true
  | none, .idle, .dequeue => true
  | _, _, _ => false

/-- The next access of the thread, unless its signal handler or a call comes next. -/
def proceeds : Core.Choice → Bool
  | .go _ => true
  | _ => false

/-- One step of thread `i` at a point where the core model would read its own queue. -/
def readSize (i : ℕ) (s : Shared) (t : Thread) : Option (Shared × Thread × Event) :=
  match t.core.op, t.core.recv with
  | .send j .getSize, _ =>
      some (s, t.goto (.send j (.threshHold (s.intrGetSize j))), .core .tau)
  | .sched e .nanosleep, _ =>
      some (s, t.goto (.sched e (.sleep (s.intrGetSize i).toNat (s.cores.core i).state)),
        .core (.nanosleep e))
  | .idle, .intrP =>
      -- `coremu_intr_p`
      some (s, t.recvAt (if 0 < s.intrGetSize i then .dequeue else .out), .core .tau)
  | _, _ => none

/-- One step of thread `i`. -/
def step (M : Machine) (i : ℕ) (s : Shared) (t : Thread) :
    Choice → Option (Shared × Thread × Event)
  | .queue x =>
      match t.core.handler, t.core.op, t.core.recv with
      | none, .send j (.putIntr e), _ => putIntr i j s t e x
      | none, .idle, .dequeue => getIntr i s t x
      | _, _, _ => none
  | .core x =>
      if queuePoint t.core && proceeds x then readSize i s t
      else (Core.step M i s.cores t.core x).map fun r =>
        ({ s with cores := r.1 }, { t with core := r.2.1 }, .core r.2.2)

/-- The threads, numbered without bound. -/
def program (M : Machine) : Interleave.Program ℕ Shared Thread Choice Event where
  step i s t x := step M i s t x

/-- The state of all cores, of their queues and of all threads. -/
abbrev Config := Interleave.Config ℕ Shared Thread

/-! ### What a step can do -/

/-- The steps of thread `i`. -/
inductive Step (M : Machine) (i : ℕ) (s : Shared) (t : Thread) :
    Choice → Shared → Thread → Event → Prop
  | enqueue (j : ℕ) (e : Core.Entry) (x : LockQueue.Choice) (q : LockQueue.Shared)
      (p : LockQueue.Pc) (f : Fifo.Event DataType) : t.core.handler = none →
      t.core.op = .send j (.putIntr e) → LockQueue.step (s.lockQueue j) t.queue x = some (q, p, f) →
      Fits (.callEnq e.value) f = true →
      Step M i s t (.queue x) (s.setQueue j q) ({ t with queue := p }.afterEnq i j f) (.queue j f)
  | dequeue (x : LockQueue.Choice) (q : LockQueue.Shared) (p : LockQueue.Pc)
      (f : Fifo.Event DataType) : t.core.handler = none → t.core.op = .idle →
      t.core.recv = .dequeue → LockQueue.step (s.lockQueue i) t.queue x = some (q, p, f) →
      Fits .callDeq f = true →
      Step M i s t (.queue x) (s.setQueue i q) ({ t with queue := p }.afterDeq f) (.queue i f)
  | getSize (j : ℕ) (now : BitVec 64) : t.core.handler = none → t.core.op = .send j .getSize →
      Step M i s t (.core (.go now)) s (t.goto (.send j (.threshHold (s.intrGetSize j))))
        (.core .tau)
  | nanosleep (e : CMSchedEvent) (now : BitVec 64) : t.core.handler = none →
      t.core.op = .sched e .nanosleep →
      Step M i s t (.core (.go now)) s
        (t.goto (.sched e (.sleep (s.intrGetSize i).toNat (s.cores.core i).state)))
        (.core (.nanosleep e))
  | intrP (now : BitVec 64) : t.core.handler = none → t.core.op = .idle → t.core.recv = .intrP →
      Step M i s t (.core (.go now)) s
        (t.recvAt (if 0 < s.intrGetSize i then .dequeue else .out)) (.core .tau)
  | core (x : Core.Choice) (c : Core.Shared) (l : Core.Thread) (e : Core.Event) :
      (queuePoint t.core && proceeds x) = false → Core.step M i s.cores t.core x = some (c, l, e) →
      Step M i s t (.core x) { s with cores := c } { t with core := l } (.core e)

section Inversion

variable {M : Machine} {i : ℕ} {s s' : Shared} {t t' : Thread} {x : Choice} {e : Event}

theorem readSize_cases {now : BitVec 64} (hq : queuePoint t.core = true)
    (hs : readSize i s t = some (s', t', e)) : Step M i s t (.core (.go now)) s' t' e := by
  have hh : t.core.handler = none := by
    cases hh : t.core.handler with
    | none => rfl
    | some p => simp [queuePoint, hh] at hq
  unfold readSize at hs
  split at hs
  · next j ho => cases hs; exact .getSize j now hh ho
  · next ev ho => cases hs; exact .nanosleep ev now hh ho
  · next ho hr => cases hs; exact .intrP now hh ho hr
  · cases hs

/-- **What a step can do.** -/
theorem step_cases (hs : step M i s t x = some (s', t', e)) : Step M i s t x s' t' e := by
  cases x with
  | queue x =>
    simp only [step] at hs
    split at hs
    · next j e' hh ho =>
      obtain ⟨⟨q, p, f⟩, hq, hs⟩ := Option.bind_eq_some_iff.mp hs
      obtain ⟨hf, hs⟩ := Option.ite_none_right_eq_some.mp hs
      cases hs
      exact .enqueue j e' x q p f hh ho hq hf
    · next hh ho hr =>
      obtain ⟨⟨q, p, f⟩, hq, hs⟩ := Option.bind_eq_some_iff.mp hs
      obtain ⟨hf, hs⟩ := Option.ite_none_right_eq_some.mp hs
      cases hs
      exact .dequeue x q p f hh ho hr hq hf
    · cases hs
  | core x =>
    simp only [step] at hs
    split at hs
    · next hq =>
      rw [Bool.and_eq_true] at hq
      obtain ⟨hq, hx⟩ := hq
      cases x with
      | go now => exact readSize_cases hq hs
      | _ => cases hx
    · next hq =>
      obtain ⟨⟨c, l, ev⟩, hc, hs⟩ := Option.map_eq_some_iff.mp hs
      cases hs
      exact .core x c l ev (by simpa using hq) hc

/-- Each of these is a step. -/
theorem Step.eq_some (h : Step M i s t x s' t' e) : step M i s t x = some (s', t', e) := by
  cases h with
  | enqueue j e x q p f hh ho hq hf =>
    simp only [step, putIntr, hh, ho, hq, Option.bind_some, hf, if_true]
  | dequeue x q p f hh ho hr hq hf =>
    simp only [step, getIntr, hh, ho, hr, hq, Option.bind_some, hf, if_true]
  | getSize j now hh ho => simp [step, queuePoint, proceeds, readSize, hh, ho]
  | nanosleep e now hh ho => simp [step, queuePoint, proceeds, readSize, hh, ho]
  | intrP now hh ho hr => simp [step, queuePoint, proceeds, readSize, hh, ho, hr]
  | core x c l e hq hc => simp [step, hq, hc]

end Inversion

/-! ### Runs -/

/-- After `coremu_core_init` for every core: `node j` is the dummy node of the queue of core
`j`, which `new_queue()` has taken from the heap `mem`. -/
def boot (M : Machine) (mem : Addr → LockQueue.Node) (node : ℕ → Addr) : Config where
  shared :=
    { cores := Core.start.shared
      queue := fun j => ⟨node j, node j, 0, 0⟩
      mem := fun a => if (List.range M.smpCpus).any (node · = a) then ⟨NULL, 0⟩ else mem a
      live := fun a => (List.range M.smpCpus).any (node · = a) }
  thread i := ⟨Core.start.thread i, .idle⟩

/-- The cores are initialised, their dummy nodes are different blocks, and no thread has
done anything yet. -/
def Booted (M : Machine) (cfg : Config) : Prop :=
  ∃ mem node, (∀ j < M.smpCpus, Block (node j)) ∧
    (∀ j < M.smpCpus, ∀ k < M.smpCpus, node j = node k → j = k) ∧ cfg = boot M mem node

/-- The runs of a machine. -/
abbrev Run (M : Machine) := (program M).Run (Booted M) fun _ _ _ _ => True

/-- If this is a step of the core model, it satisfies `A`. -/
def Choice.Meets (A : Core.Choice → Prop) : Choice → Prop
  | .queue _ => True
  | .core x => A x

/-- The runs in which every `pthread_kill` leads to one run of the handler, and no `NULL` is
sent. -/
abbrev ReliableRun (M : Machine) :=
  (program M).Run (Booted M) fun _ _ _ x => x.Meets Core.Choice.Reliable

end Coremu.System

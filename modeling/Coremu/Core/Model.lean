import Coremu.Atomic
import Coremu.Lib.Interleave
import Coremu.Lib.Fifo

/-!
# Cores, signals and pauses

The threads of `main/intr.c`, `main/sched.c` and `main/core.c` after initialisation.
Thread `i` is the thread of core `i` for `i` below `cm_smp_cpus`; every other number is
a thread of the hardware emulation.  Any thread sends interrupts to any core; a core's
thread receives them, halts, pauses and is stopped by `coremu_pause_core`, and its signal
handler runs on top of whatever it does; a coordinator waits for the cores to be paused
and restarts them.

An access of a field of a core is one step.  `enqueue` and `dequeue` are one step each,
which also changes the size of the queue.  A `pthread_kill` leads to one later run of the
handler, with all signals blocked, or fails; a signal ends a `nanosleep`.
`pthread_cond_wait` returns after a broadcast, and may return without one.  Any interrupt
may be sent, also `NULL`: the assertion of `coremu_send_intr` is compiled to nothing.
`event_handler` is registered and may send interrupts; `event_notifier` is registered and
asks the core to call `coremu_receive_intr` some time.

## Main definitions

* `Machine`, `CMCore`, `Shared` — the host, a core, and what all threads see.
* `sendIntr`, `coreSignalHandler`, `receiveIntr`, `sched`, `pauseCore`, `waitPause` — one
  step of each function.
* `step`, `program` — one step of a thread.
* `Step` — the same as a relation.
* `Choice.Delivers`, `Choice.NoSpurious`, `Choice.NonNull` — what results ask of a run where
  they need it: that no `pthread_kill` fails, that `pthread_cond_wait` returns only after a
  broadcast, and that no `NULL` is sent.

## Main results

* `step_cases` — what a step can do.
-/

namespace Coremu.Core

/-- The host, as `coremu_init` finds it. -/
structure Machine where
  /-- `cm_smp_cpus` -/
  smpCpus : ℕ
  /-- `host_cpu_avail` -/
  hostCpuAvail : ℕ

/-- `coremu_get_thrs_per_core` -/
def Machine.getThrsPerCore (M : Machine) : ℕ :=
  (M.hostCpuAvail + M.smpCpus - 1) / M.hostCpuAvail

/-- `coremu_physical_core_enough_p` -/
def Machine.physicalCoreEnoughP (M : Machine) : Bool := decide (M.smpCpus ≤ M.hostCpuAvail)

/-- `SIG_HANDLE_INTERVAL` -/
def Machine.sigHandleInterval (M : Machine) : ℕ := 2500000 * (M.getThrsPerCore / 8)

/-- `MAX_INTR_THRESHOLD` -/
def maxIntrThreshold : ℤ := 50

/-- `PAUSE_THRESHOLD` -/
def pauseThreshold : ℕ := 100

/-- `avg_prio` -/
def avgPrio : ℤ := -1

/-- `high_prio` -/
def highPrio : ℤ := -11

/-- `CMCoreState` -/
inductive CMCoreState
  | run
  | halt
  | pause
  deriving DecidableEq, Repr

/-- `CMSchedEvent` -/
inductive CMSchedEvent
  | halted
  | pause
  deriving DecidableEq, Repr

/-- An interrupt on a queue, with its sender and the number of sends of that thread that
had returned before. -/
abbrev Entry := Fifo.Entry ℕ DataType

/-- `CMCore`, with what the kernel and the emulator hold for it. -/
structure CMCore where
  /-- `core->intr_queue` -/
  intrQueue : List Entry
  /-- `core->time_stamp` -/
  timeStamp : BitVec 64
  /-- `core->intr_thresh_hold`, an `int64_t` -/
  intrThreshHold : BitVec 64
  /-- `core->sig_pending` -/
  sigPending : Bool
  /-- `core->state` -/
  state : CMCoreState
  /-- The priority of `core->tid`. -/
  prio : ℤ
  /-- The number of `COREMU_SIGNAL`s sent to `core->thread` and not delivered. -/
  undelivered : ℕ
  /-- `event_notifier` has asked for a `coremu_receive_intr` that has not begun. -/
  drain : Bool

/-- What all threads see. -/
structure Shared where
  /-- `cm_cores` -/
  core : ℕ → CMCore
  /-- The holder of `pause_mutex`. -/
  pauseMutex : Option ℕ
  /-- How often `pause_cond` has been broadcast. -/
  broadcasts : ℕ

/-- A new state of core `j`. -/
def Shared.setCore (s : Shared) (j : ℕ) (k : CMCore) : Shared :=
  { s with core := Function.update s.core j k }

/-! ### `coremu_send_intr` -/

/-- Program points of `coremu_send_intr` and `coremu_send_signal`. -/
inductive SendPc
  /-- `coremu_put_intr(core, e);` -/
  | putIntr (e : Entry)
  /-- `event_notifier();`, when the core sends to itself -/
  | notifier
  /-- `int64_t pending_intr = coremu_intr_get_size(core);` -/
  | getSize
  /-- `if (pending_intr > core->intr_thresh_hold)` -/
  | threshHold (pendingIntr : ℤ)
  /-- `if (!core->sig_pending)` -/
  | sigPending
  /-- `core->sig_pending = 1;` -/
  | setSigPending
  /-- `core->state = CM_STATE_RUN;`, line 84 -/
  | setRun
  /-- `if (core->intr_thresh_hold < MAX_INTR_THRESHOLD)` -/
  | belowMax
  /-- reading `core->intr_thresh_hold` for `(core->intr_thresh_hold + 1) << 1` -/
  | readThreshHold
  /-- `core->intr_thresh_hold = v;`, line 88 -/
  | raise (v : BitVec 64)
  /-- `core->state == CM_STATE_HALT` -/
  | isHalt
  /-- `core->state == CM_STATE_PAUSE` -/
  | isPause
  /-- `coremu_thread_setpriority(PRIO_PROCESS, core->tid, high_prio);` -/
  | setPriority
  /-- `pthread_kill(core->thread, COREMU_SIGNAL);` -/
  | kill
  deriving Repr

/-- Line 92 with `send_sig_p` zero. -/
def Machine.unsent (M : Machine) : SendPc :=
  if M.physicalCoreEnoughP then .setPriority else .isHalt

/-- One access of `coremu_send_intr` by thread `i` to the core `k` with number `j`; there
is no next program point when it returns. -/
def sendIntr (M : Machine) (i j : ℕ) (k : CMCore) : SendPc → CMCore × Option SendPc
  | .putIntr e =>
      ({ k with intrQueue := k.intrQueue ++ [e] }, some (if i = j then .notifier else .getSize))
  | .notifier => ({ k with drain := true }, none)
  | .getSize => (k, some (.threshHold k.intrQueue.length))
  | .threshHold pendingIntr =>
      (k, some (if k.intrThreshHold.toInt < pendingIntr then .sigPending else M.unsent))
  | .sigPending => (k, some (if k.sigPending then .belowMax else .setSigPending))
  | .setSigPending => ({ k with sigPending := true }, some .setRun)
  -- `send_sig_p` is set, so the test of line 92 succeeds at once
  | .setRun => ({ k with state := .run }, some .setPriority)
  | .belowMax =>
      (k, some (if k.intrThreshHold.toInt < maxIntrThreshold then .readThreshHold else M.unsent))
  | .readThreshHold => (k, some (.raise ((k.intrThreshHold + 1) <<< 1)))
  | .raise v => ({ k with intrThreshHold := v }, some M.unsent)
  | .isHalt => (k, some (if k.state = .halt then .setPriority else .isPause))
  | .isPause => (k, if k.state = .pause then some .setPriority else none)
  | .setPriority => ({ k with prio := highPrio }, some .kill)
  | .kill => ({ k with undelivered := k.undelivered + 1 }, none)

/-! ### `coremu_core_signal_handler` -/

/-- Program points of `coremu_core_signal_handler` and `adjust_intr_threshold`. -/
inductive HandlerPc
  /-- `uint64_t tsc = read_host_tsc();` -/
  | readTsc
  /-- `if (self->time_stamp)` -/
  | stamped (tsc : BitVec 64)
  /-- `if ((tsc - self->time_stamp) > SIG_HANDLE_INTERVAL)` -/
  | interval (tsc : BitVec 64)
  /-- `self->intr_thresh_hold = 0;` -/
  | clearThreshHold (tsc : BitVec 64)
  /-- `else if (self->intr_thresh_hold > 0)` -/
  | positive (tsc : BitVec 64)
  /-- reading `self->intr_thresh_hold` for `self->intr_thresh_hold--` -/
  | readThreshHold (tsc : BitVec 64)
  /-- writing `self->intr_thresh_hold` -/
  | lower (tsc : BitVec 64) (v : BitVec 64)
  /-- `self->time_stamp = tsc;` -/
  | setStamp (tsc : BitVec 64)
  /-- `coremu_thread_setpriority(PRIO_PROCESS, 0, avg_prio);` -/
  | setPriority
  /-- `event_notifier();` -/
  | notifier
  /-- `self->sig_pending = 0;` -/
  | clearSig
  deriving Repr

/-- One access of `coremu_core_signal_handler` on the core `k`; `now` is what
`read_host_tsc` returns. -/
def coreSignalHandler (M : Machine) (now : BitVec 64) (k : CMCore) :
    HandlerPc → CMCore × Option HandlerPc
  | .readTsc => (k, some (.stamped now))
  | .stamped tsc => (k, some (if k.timeStamp ≠ 0 then .interval tsc else .setStamp tsc))
  | .interval tsc =>
      (k, some (if M.sigHandleInterval < (tsc - k.timeStamp).toNat then .clearThreshHold tsc
        else .positive tsc))
  | .clearThreshHold tsc => ({ k with intrThreshHold := 0 }, some (.setStamp tsc))
  | .positive tsc =>
      (k, some (if 0 < k.intrThreshHold.toInt then .readThreshHold tsc else .setStamp tsc))
  | .readThreshHold tsc => (k, some (.lower tsc (k.intrThreshHold - 1)))
  | .lower tsc v => ({ k with intrThreshHold := v }, some (.setStamp tsc))
  | .setStamp tsc => ({ k with timeStamp := tsc }, some .setPriority)
  | .setPriority => ({ k with prio := avgPrio }, some .notifier)
  | .notifier => ({ k with drain := true }, some .clearSig)
  | .clearSig => ({ k with sigPending := false }, none)

/-! ### `coremu_receive_intr` -/

/-- Where a core stands in `coremu_receive_intr`. -/
inductive RecvPc
  /-- Outside. -/
  | out
  /-- `if (!coremu_intr_p(core))` -/
  | intrP
  /-- `if (!dequeue(core->intr_queue, &intr))` -/
  | dequeue
  /-- Inside `event_handler`. -/
  | handler
  deriving DecidableEq, Repr

/-- What a step shows. -/
inductive Event
  /-- `event_handler` is called. -/
  | handle (intr : DataType)
  /-- `coremu_wait_all_cores_pause` returns. -/
  | allPaused
  /-- `coremu_cpu_sched(e)` is called. -/
  | cpuSched (e : CMSchedEvent)
  /-- `sched_pause` calls `pthread_yield()`. -/
  | yield
  /-- `sched_halted` or `sched_pause` calls `nanosleep`. -/
  | nanosleep (e : CMSchedEvent)
  /-- Any other access. -/
  | tau
  deriving DecidableEq, Repr

/-- One step of `coremu_receive_intr` on the core `k`; a `NULL` that is dequeued ends the
loop like an empty queue. -/
def receiveIntr (k : CMCore) : RecvPc → CMCore × RecvPc × Event
  | .out => ({ k with drain := false }, .intrP, .tau)
  | .intrP => (k, if 0 < k.intrQueue.length then .dequeue else .out, .tau)
  | .dequeue =>
      match k.intrQueue with
      | [] => (k, .out, .tau)
      | e :: rest =>
          if e.value = NULL then ({ k with intrQueue := rest }, .out, .tau)
          else ({ k with intrQueue := rest }, .handler, .handle e.value)
  | .handler => (k, .intrP, .tau)

/-! ### `coremu_cpu_sched` -/

/-- Program points of `sched_halted`, and of `sched_pause` once it sleeps. -/
inductive SleepPc
  /-- `self->state = …;` -/
  | setState
  /-- Before `nanosleep(…, NULL);`. -/
  | nanosleep
  /-- Inside `nanosleep`; `size` and `state` are those of the core when it was called. -/
  | sleep (size : ℕ) (state : CMCoreState)
  /-- `self->state = CM_STATE_RUN;` -/
  | setRun
  deriving Repr

/-- The state in which the core sleeps. -/
def CMSchedEvent.state : CMSchedEvent → CMCoreState
  | .halted => .halt
  | .pause => .pause

/-- One step of `sched_halted`, or of `sched_pause` once it sleeps, on the core `k`. -/
def sched (e : CMSchedEvent) (k : CMCore) : SleepPc → CMCore × Option SleepPc
  | .setState => ({ k with state := e.state }, some .nanosleep)
  | .nanosleep => (k, some (.sleep k.intrQueue.length k.state))
  | .sleep _ _ => (k, some .setRun)
  | .setRun => ({ k with state := .run }, none)

/-- What such a step shows. -/
def SleepPc.shows (e : CMSchedEvent) : SleepPc → Event
  | .nanosleep => .nanosleep e
  | _ => .tau

/-! ### `coremu_pause_core` and `coremu_wait_pause` -/

/-- Program points of `coremu_pause_core`. -/
inductive PausePc
  /-- `coremu_mutex_lock(&pause_mutex, …);` -/
  | lock
  /-- `if (self->state == CM_STATE_RUN)` -/
  | test
  /-- `self->state = CM_STATE_PAUSE;` -/
  | setPause
  /-- `coremu_cond_wait(&pause_cond, &pause_mutex);`, before the call -/
  | condWait
  /-- Inside `coremu_cond_wait`; `since` broadcasts had been made when it was called. -/
  | waiting (since : ℕ)
  /-- `self->state = CM_STATE_RUN;` -/
  | setRun
  /-- `coremu_mutex_unlock(&pause_mutex, …);` -/
  | unlock
  deriving Repr

/-- Thread `i` takes `pause_mutex`, if it is free. -/
def Shared.lock (s : Shared) (i : ℕ) : Option Shared :=
  if s.pauseMutex = none then some { s with pauseMutex := some i } else none

/-- One step of `coremu_pause_core` by the thread of core `i`. -/
def pauseCore (i : ℕ) (s : Shared) : PausePc → Option (Shared × Option PausePc)
  | .lock => (s.lock i).map fun s' => (s', some .test)
  | .test => some (s, some (if (s.core i).state = .run then .setPause else .unlock))
  | .setPause => some (s.setCore i { s.core i with state := .pause }, some .condWait)
  -- the mutex is given up and the wait begins in one step
  | .condWait => some ({ s with pauseMutex := none }, some (.waiting s.broadcasts))
  | .waiting since =>
      if since < s.broadcasts then (s.lock i).map fun s' => (s', some .setRun) else none
  | .setRun => some (s.setCore i { s.core i with state := .run }, some .unlock)
  | .unlock => some ({ s with pauseMutex := none }, none)

/-- Program points of `coremu_wait_pause`. -/
inductive WaitPc
  /-- `coremu_mutex_lock(&pause_mutex, …);` -/
  | lock
  /-- `while (core->state != CM_STATE_PAUSE)` -/
  | test
  /-- `coremu_mutex_unlock(&pause_mutex, …);` in the loop -/
  | retry
  /-- `coremu_mutex_unlock(&pause_mutex, …);` after the loop -/
  | unlock
  deriving Repr

/-- One step of `coremu_wait_pause` by thread `i`, for core `j`. -/
def waitPause (i j : ℕ) (s : Shared) : WaitPc → Option (Shared × Option WaitPc)
  | .lock => (s.lock i).map fun s' => (s', some .test)
  | .test => some (s, some (if (s.core j).state ≠ .pause then .retry else .unlock))
  | .retry => some ({ s with pauseMutex := none }, some .lock)
  | .unlock => some ({ s with pauseMutex := none }, none)

/-! ### What the lock asks for -/

section Lock

variable {i j : ℕ} {s s' : Shared}

theorem lock_eq_some : s.lock i = some s' ↔
    s.pauseMutex = none ∧ s' = { s with pauseMutex := some i } := by
  simp only [Shared.lock, Option.ite_none_right_eq_some, Option.some.injEq, eq_comm (b := s')]

theorem pauseCore_lock {r : Option PausePc} : pauseCore i s .lock = some (s', r) ↔
    s.pauseMutex = none ∧ s' = { s with pauseMutex := some i } ∧ r = some .test := by
  simp only [pauseCore, Option.map_eq_some_iff, lock_eq_some, Prod.mk.injEq]
  constructor
  · rintro ⟨_, ⟨hm, rfl⟩, rfl, rfl⟩
    exact ⟨hm, rfl, rfl⟩
  · rintro ⟨hm, rfl, rfl⟩
    exact ⟨_, ⟨hm, rfl⟩, rfl, rfl⟩

theorem pauseCore_waiting {since : ℕ} {r : Option PausePc} :
    pauseCore i s (.waiting since) = some (s', r) ↔ since < s.broadcasts ∧
      s.pauseMutex = none ∧ s' = { s with pauseMutex := some i } ∧ r = some .setRun := by
  simp only [pauseCore, Option.ite_none_right_eq_some, Option.map_eq_some_iff, lock_eq_some,
    Prod.mk.injEq]
  constructor
  · rintro ⟨hlt, _, ⟨hm, rfl⟩, rfl, rfl⟩
    exact ⟨hlt, hm, rfl, rfl⟩
  · rintro ⟨hlt, hm, rfl, rfl⟩
    exact ⟨hlt, _, ⟨hm, rfl⟩, rfl, rfl⟩

theorem waitPause_lock {r : Option WaitPc} : waitPause i j s .lock = some (s', r) ↔
    s.pauseMutex = none ∧ s' = { s with pauseMutex := some i } ∧ r = some .test := by
  simp only [waitPause, Option.map_eq_some_iff, lock_eq_some, Prod.mk.injEq]
  constructor
  · rintro ⟨_, ⟨hm, rfl⟩, rfl, rfl⟩
    exact ⟨hm, rfl, rfl⟩
  · rintro ⟨hm, rfl, rfl⟩
    exact ⟨_, ⟨hm, rfl⟩, rfl, rfl⟩

end Lock

/-! ### Threads -/

/-- What a thread is doing. -/
inductive Op
  | idle
  /-- `coremu_send_intr` to core `j` -/
  | send (j : ℕ) (p : SendPc)
  /-- `coremu_cpu_sched`, which sleeps -/
  | sched (e : CMSchedEvent) (p : SleepPc)
  /-- `sched_pause`, before `pthread_yield();` -/
  | yield
  /-- `coremu_pause_core` -/
  | pauseCore (p : PausePc)
  /-- `coremu_wait_pause` for core `j`, called by `coremu_wait_all_cores_pause` or not -/
  | wait (j : ℕ) (all : Bool) (p : WaitPc)
  deriving Repr

/-- A thread. -/
structure Thread where
  /-- Its signal handler, if that is running. -/
  handler : Option HandlerPc
  /-- Its place in `coremu_receive_intr`. -/
  recv : RecvPc
  /-- What else it is doing, inside `event_handler` if it is there. -/
  op : Op
  /-- How many of its calls of `coremu_send_intr` have returned. -/
  sent : ℕ
  /-- `pause_cnt` -/
  pauseCnt : ℕ

/-- What the code leaves open at a step. -/
inductive Choice
  /-- A signal is delivered. -/
  | signal
  /-- The thread calls `coremu_receive_intr`. -/
  | receiveIntr
  /-- The thread calls `coremu_send_intr(intr, j)`. -/
  | sendIntr (intr : DataType) (j : ℕ)
  /-- The thread calls `coremu_cpu_sched(e)`. -/
  | cpuSched (e : CMSchedEvent)
  /-- The thread calls `coremu_pause_core()`. -/
  | pauseCore
  /-- The thread calls `coremu_wait_pause(&cm_cores[j])`. -/
  | waitPause (j : ℕ)
  /-- The thread calls `coremu_wait_all_cores_pause()`. -/
  | waitAllCoresPause
  /-- The thread calls `coremu_restart_all_cores()`. -/
  | restartAllCores
  /-- `pthread_cond_wait` returns without a broadcast, as POSIX allows. -/
  | spurious
  /-- `pthread_kill` returns `EAGAIN` and queues no signal. -/
  | killFails
  /-- `read_host_tsc` returns this value, if it is called. -/
  | go (now : BitVec 64)
  deriving Repr

/-- `coremu_wait_all_cores_pause` goes on with core `j`, or returns. -/
def Machine.waitFrom (M : Machine) (j : ℕ) (t : Thread) : Thread × Event :=
  if j < M.smpCpus then ({ t with op := .wait j true .lock }, .tau)
  else ({ t with op := .idle }, .allPaused)

/-- A signal ends a `nanosleep`. -/
def Op.interrupted : Op → Op
  | .sched e (.sleep _ _) => .sched e .setRun
  | op => op

/-- Returning from `sched_pause`. -/
def Thread.wake (t : Thread) (e : CMSchedEvent) : Thread :=
  match e with
  | .halted => { t with op := .idle }
  | .pause => { t with op := .idle, pauseCnt := 0 }

/-- `coremu_cpu_sched(e)`: `sched_pause` counts its calls, yields, and sleeps at last. -/
def cpuSched (e : CMSchedEvent) (t : Thread) : Thread :=
  match e with
  | .halted => { t with op := .sched .halted .setState }
  | .pause =>
      if t.pauseCnt < pauseThreshold then { t with pauseCnt := t.pauseCnt + 1 }
      else if t.pauseCnt ≤ pauseThreshold + 1 then
        { t with pauseCnt := t.pauseCnt + 1, op := .yield }
      else { t with op := .sched .pause .setState }

/-- Thread `i` calls a function, or goes on in `coremu_receive_intr`; only the thread of a
core calls one that uses `coremu_get_core_self`, and `event_handler` only sends
interrupts. -/
def call (M : Machine) (i : ℕ) (s : Shared) (t : Thread) : Choice → Option (Shared × Thread × Event)
  | .sendIntr intr j =>
      if j < M.smpCpus ∧ (t.recv = .out ∨ t.recv = .handler) then
        some (s, { t with op := .send j (.putIntr ⟨i, t.sent, intr⟩) }, .tau)
      else none
  | .receiveIntr =>
      if i < M.smpCpus ∧ t.recv = .out then
        some (s.setCore i (receiveIntr (s.core i) .out).1, { t with recv := .intrP }, .tau)
      else none
  | .cpuSched e =>
      if i < M.smpCpus ∧ t.recv = .out then some (s, cpuSched e t, .cpuSched e) else none
  | .pauseCore =>
      if i < M.smpCpus ∧ t.recv = .out then some (s, { t with op := .pauseCore .lock }, .tau)
      else none
  | .waitPause j =>
      if j < M.smpCpus ∧ t.recv = .out then some (s, { t with op := .wait j false .lock }, .tau)
      else none
  | .waitAllCoresPause =>
      if t.recv = .out then some (s, (M.waitFrom 0 t).1, (M.waitFrom 0 t).2) else none
  | .restartAllCores =>
      if t.recv = .out then some ({ s with broadcasts := s.broadcasts + 1 }, t, .tau) else none
  | .go _ =>
      if t.recv ≠ .out then
        some (s.setCore i (receiveIntr (s.core i) t.recv).1,
          { t with recv := (receiveIntr (s.core i) t.recv).2.1 },
          (receiveIntr (s.core i) t.recv).2.2)
      else none
  | .signal | .spurious | .killFails => none

/-- One access of the function that thread `i` is in. -/
def proceed (M : Machine) (i : ℕ) (s : Shared) (t : Thread) : Op → Option (Shared × Thread × Event)
  | .idle => none
  | .send j p =>
      some (s.setCore j (sendIntr M i j (s.core j) p).1,
        match (sendIntr M i j (s.core j) p).2 with
        | some p' => { t with op := .send j p' }
        | none => { t with op := .idle, sent := t.sent + 1 },
        .tau)
  | .sched e p =>
      some (s.setCore i (sched e (s.core i) p).1,
        match (sched e (s.core i) p).2 with
        | some p' => { t with op := .sched e p' }
        | none => t.wake e,
        p.shows e)
  | .yield => some (s, { t with op := .idle }, .yield)
  | .pauseCore p =>
      (pauseCore i s p).map fun r =>
        (r.1, { t with op := match r.2 with
          | some p' => .pauseCore p'
          | none => .idle }, .tau)
  | .wait j all p =>
      (waitPause i j s p).map fun r =>
        match r.2, all with
        | some p', _ => (r.1, { t with op := .wait j all p' }, .tau)
        | none, false => (r.1, { t with op := .idle }, .tau)
        | none, true => (r.1, M.waitFrom (j + 1) t)

/-- The C library does something else than the code counts on. -/
def fault (i : ℕ) (s : Shared) (t : Thread) : Choice → Op → Option (Shared × Thread × Event)
  | .spurious, .pauseCore (.waiting _) =>
      (s.lock i).map fun s' => (s', { t with op := .pauseCore .setRun }, .tau)
  -- `coremu_send_signal` does not look at what `pthread_kill` returns
  | .killFails, .send _ .kill => some (s, { t with op := .idle, sent := t.sent + 1 }, .tau)
  | _, _ => none

/-- One step of thread `i`. -/
def step (M : Machine) (i : ℕ) (s : Shared) (t : Thread) (x : Choice) :
    Option (Shared × Thread × Event) :=
  match t.handler, x with
  | some p, .go now =>
      some (s.setCore i (coreSignalHandler M now (s.core i) p).1,
        { t with handler := (coreSignalHandler M now (s.core i) p).2 }, .tau)
  | some _, _ => none
  | none, .signal =>
      if 0 < (s.core i).undelivered then
        some (s.setCore i { s.core i with undelivered := (s.core i).undelivered - 1 },
          { t with handler := some .readTsc, op := t.op.interrupted }, .tau)
      else none
  | none, x =>
      match t.op with
      | .idle => call M i s t x
      | op => match x with
        | .go _ => proceed M i s t op
        | x => fault i s t x op

/-! ### What a step can do -/

/-- The thread after an access of `coremu_send_intr` to core `j`. -/
def Thread.sendNext (t : Thread) (j : ℕ) : Option SendPc → Thread
  | some p => { t with op := .send j p }
  | none => { t with op := .idle, sent := t.sent + 1 }

/-- The thread after a step of `sched_halted` or `sched_pause`. -/
def Thread.schedNext (t : Thread) (e : CMSchedEvent) : Option SleepPc → Thread
  | some p => { t with op := .sched e p }
  | none => t.wake e

/-- The thread after a step of `coremu_pause_core`. -/
def Thread.pauseNext (t : Thread) : Option PausePc → Thread
  | some p => { t with op := .pauseCore p }
  | none => { t with op := .idle }

/-- The thread after a step of `coremu_wait_pause`, and what the step shows. -/
def Machine.waitNext (M : Machine) (t : Thread) (j : ℕ) : Bool → Option WaitPc → Thread × Event
  | all, some p => ({ t with op := .wait j all p }, .tau)
  | false, none => ({ t with op := .idle }, .tau)
  | true, none => M.waitFrom (j + 1) t

/-- The steps of thread `i`. -/
inductive Step (M : Machine) (i : ℕ) (s : Shared) (t : Thread) :
    Choice → Shared → Thread → Event → Prop
  | handler (p : HandlerPc) (now : BitVec 64) : t.handler = some p →
      Step M i s t (.go now) (s.setCore i (coreSignalHandler M now (s.core i) p).1)
        { t with handler := (coreSignalHandler M now (s.core i) p).2 } .tau
  | signal : t.handler = none → 0 < (s.core i).undelivered →
      Step M i s t .signal
        (s.setCore i { s.core i with undelivered := (s.core i).undelivered - 1 })
        { t with handler := some .readTsc, op := t.op.interrupted } .tau
  | send (j : ℕ) (p : SendPc) (now : BitVec 64) : t.handler = none → t.op = .send j p →
      Step M i s t (.go now) (s.setCore j (sendIntr M i j (s.core j) p).1)
        (t.sendNext j (sendIntr M i j (s.core j) p).2) .tau
  | sched (e : CMSchedEvent) (p : SleepPc) (now : BitVec 64) : t.handler = none →
      t.op = .sched e p →
      Step M i s t (.go now) (s.setCore i (sched e (s.core i) p).1)
        (t.schedNext e (sched e (s.core i) p).2) (p.shows e)
  | yield (now : BitVec 64) : t.handler = none → t.op = .yield →
      Step M i s t (.go now) s { t with op := .idle } .yield
  | pauseCore (p : PausePc) (now : BitVec 64) (s' : Shared) (r : Option PausePc) :
      t.handler = none → t.op = .pauseCore p → pauseCore i s p = some (s', r) →
      Step M i s t (.go now) s' (t.pauseNext r) .tau
  | wait (j : ℕ) (all : Bool) (p : WaitPc) (now : BitVec 64) (s' : Shared) (r : Option WaitPc) :
      t.handler = none → t.op = .wait j all p → waitPause i j s p = some (s', r) →
      Step M i s t (.go now) s' (M.waitNext t j all r).1 (M.waitNext t j all r).2
  | receive (now : BitVec 64) : t.handler = none → t.op = .idle → t.recv ≠ .out →
      Step M i s t (.go now) (s.setCore i (receiveIntr (s.core i) t.recv).1)
        { t with recv := (receiveIntr (s.core i) t.recv).2.1 } (receiveIntr (s.core i) t.recv).2.2
  | callReceive : t.handler = none → t.op = .idle → i < M.smpCpus → t.recv = .out →
      Step M i s t .receiveIntr (s.setCore i (receiveIntr (s.core i) .out).1)
        { t with recv := .intrP } .tau
  | callSend (intr : DataType) (j : ℕ) : t.handler = none → t.op = .idle → j < M.smpCpus →
      t.recv = .out ∨ t.recv = .handler →
      Step M i s t (.sendIntr intr j) s { t with op := .send j (.putIntr ⟨i, t.sent, intr⟩) } .tau
  | callSched (e : CMSchedEvent) : t.handler = none → t.op = .idle → i < M.smpCpus →
      t.recv = .out → Step M i s t (.cpuSched e) s (cpuSched e t) (.cpuSched e)
  | callPause : t.handler = none → t.op = .idle → i < M.smpCpus → t.recv = .out →
      Step M i s t .pauseCore s { t with op := .pauseCore .lock } .tau
  | callWait (j : ℕ) : t.handler = none → t.op = .idle → j < M.smpCpus → t.recv = .out →
      Step M i s t (.waitPause j) s { t with op := .wait j false .lock } .tau
  | callWaitAll : t.handler = none → t.op = .idle → t.recv = .out →
      Step M i s t .waitAllCoresPause s (M.waitFrom 0 t).1 (M.waitFrom 0 t).2
  | restart : t.handler = none → t.op = .idle → t.recv = .out →
      Step M i s t .restartAllCores { s with broadcasts := s.broadcasts + 1 } t .tau
  | spurious (since : ℕ) : t.handler = none → t.op = .pauseCore (.waiting since) →
      s.pauseMutex = none →
      Step M i s t .spurious { s with pauseMutex := some i } (t.pauseNext (some .setRun)) .tau
  | killFails (j : ℕ) : t.handler = none → t.op = .send j .kill →
      Step M i s t .killFails s (t.sendNext j none) .tau

section Inversion

variable {M : Machine} {i : ℕ} {s s' : Shared} {t t' : Thread} {x : Choice} {e : Event}

theorem call_cases (hh : t.handler = none) (ho : t.op = .idle)
    (hs : call M i s t x = some (s', t', e)) : Step M i s t x s' t' e := by
  cases x with
  | signal | spurious | killFails => cases hs
  | receiveIntr =>
    obtain ⟨⟨hi, hr⟩, hs⟩ := Option.ite_none_right_eq_some.mp hs
    cases hs
    exact .callReceive hh ho hi hr
  | sendIntr intr j =>
    obtain ⟨⟨hj, hr⟩, hs⟩ := Option.ite_none_right_eq_some.mp hs
    cases hs
    exact .callSend intr j hh ho hj hr
  | cpuSched e =>
    obtain ⟨⟨hi, hr⟩, hs⟩ := Option.ite_none_right_eq_some.mp hs
    cases hs
    exact .callSched e hh ho hi hr
  | pauseCore =>
    obtain ⟨⟨hi, hr⟩, hs⟩ := Option.ite_none_right_eq_some.mp hs
    cases hs
    exact .callPause hh ho hi hr
  | waitPause j =>
    obtain ⟨⟨hj, hr⟩, hs⟩ := Option.ite_none_right_eq_some.mp hs
    cases hs
    exact .callWait j hh ho hj hr
  | waitAllCoresPause =>
    obtain ⟨hr, hs⟩ := Option.ite_none_right_eq_some.mp hs
    cases hs
    exact .callWaitAll hh ho hr
  | restartAllCores =>
    obtain ⟨hr, hs⟩ := Option.ite_none_right_eq_some.mp hs
    cases hs
    exact .restart hh ho hr
  | go now =>
    obtain ⟨hr, hs⟩ := Option.ite_none_right_eq_some.mp hs
    cases hs
    exact .receive now hh ho hr

theorem proceed_cases (hh : t.handler = none) {now : BitVec 64}
    (hs : proceed M i s t t.op = some (s', t', e)) : Step M i s t (.go now) s' t' e := by
  cases ho : t.op with
  | idle => rw [ho] at hs; cases hs
  | send j p =>
    rw [ho] at hs
    have hstep := Step.send (M := M) (i := i) (s := s) j p now hh ho
    simp only [proceed, Option.some.injEq, Prod.mk.injEq] at hs
    obtain ⟨rfl, rfl, rfl⟩ := hs
    cases hr : (sendIntr M i j (s.core j) p).2 <;> (rw [hr] at hstep; exact hstep)
  | sched ev p =>
    rw [ho] at hs
    have hstep := Step.sched (M := M) (i := i) (s := s) ev p now hh ho
    simp only [proceed, Option.some.injEq, Prod.mk.injEq] at hs
    obtain ⟨rfl, rfl, rfl⟩ := hs
    cases hr : (sched ev (s.core i) p).2 <;> (rw [hr] at hstep; exact hstep)
  | yield =>
    rw [ho] at hs
    cases hs
    exact .yield now hh ho
  | pauseCore p =>
    rw [ho] at hs
    obtain ⟨⟨s₁, r⟩, hp, hs⟩ := Option.map_eq_some_iff.mp hs
    simp only [Prod.mk.injEq] at hs
    obtain ⟨rfl, rfl, rfl⟩ := hs
    have hstep := Step.pauseCore (M := M) p now s₁ r hh ho hp
    cases r <;> exact hstep
  | wait j all p =>
    rw [ho] at hs
    obtain ⟨⟨s₁, r⟩, hp, hs⟩ := Option.map_eq_some_iff.mp hs
    have hstep := Step.wait (M := M) j all p now s₁ r hh ho hp
    cases r with
    | some p' =>
      simp only [Prod.mk.injEq] at hs
      obtain ⟨rfl, rfl, rfl⟩ := hs
      exact hstep
    | none =>
      cases all with
      | false =>
        simp only [Prod.mk.injEq] at hs
        obtain ⟨rfl, rfl, rfl⟩ := hs
        exact hstep
      | true =>
        simp only [Prod.mk.injEq] at hs
        obtain ⟨rfl, he⟩ := hs
        rw [Machine.waitNext, he] at hstep
        exact hstep

theorem fault_cases (hh : t.handler = none) (hs : fault i s t x t.op = some (s', t', e)) :
    Step M i s t x s' t' e := by
  unfold fault at hs
  split at hs
  · next since ho =>
    obtain ⟨s₁, hl, hs⟩ := Option.map_eq_some_iff.mp hs
    obtain ⟨hm, rfl⟩ := lock_eq_some.mp hl
    cases hs
    exact .spurious since hh ho hm
  · next j ho =>
    cases hs
    exact .killFails j hh ho
  · cases hs

/-- **What a step can do.** -/
theorem step_cases (hs : step M i s t x = some (s', t', e)) : Step M i s t x s' t' e := by
  unfold step at hs
  split at hs
  · next p now hh =>
    cases hs
    exact .handler p now hh
  · cases hs
  · next hh =>
    obtain ⟨hu, hs⟩ := Option.ite_none_right_eq_some.mp hs
    cases hs
    exact .signal hh hu
  · next hh _ =>
    split at hs
    · next ho => exact call_cases hh ho hs
    · split at hs
      · exact proceed_cases hh hs
      · exact fault_cases hh hs

/-- Each of these is a step. -/
theorem Step.eq_some (h : Step M i s t x s' t' e) : step M i s t x = some (s', t', e) := by
  obtain ⟨handler, recv, op, sent, pauseCnt⟩ := t
  cases h with
  | handler p now hh =>
    cases hh
    rfl
  | signal hh hu =>
    cases hh
    exact if_pos hu
  | send j p now hh ho =>
    cases hh
    cases ho
    rcases hr : sendIntr M i j (s.core j) p with ⟨k, _ | p'⟩ <;>
      simp only [step, proceed, hr] <;> rfl
  | sched ev p now hh ho =>
    cases hh
    cases ho
    rcases hr : Core.sched ev (s.core i) p with ⟨k, _ | p'⟩ <;>
      simp only [step, proceed, hr] <;> rfl
  | yield now hh ho =>
    cases hh
    cases ho
    rfl
  | pauseCore p now s₁ r hh ho hp =>
    cases hh
    cases ho
    simp only [step, proceed, hp, Option.map_some]
    cases r <;> rfl
  | wait j all p now s₁ r hh ho hp =>
    cases hh
    cases ho
    simp only [step, proceed, hp, Option.map_some]
    cases r <;> cases all <;> rfl
  | receive now hh ho hr =>
    cases hh
    cases ho
    exact if_pos hr
  | callReceive hh ho hi hr =>
    cases hh
    cases ho
    exact if_pos ⟨hi, hr⟩
  | callSend intr j hh ho hj hr =>
    cases hh
    cases ho
    exact if_pos ⟨hj, hr⟩
  | callSched ev hh ho hi hr | callPause hh ho hi hr =>
    cases hh
    cases ho
    exact if_pos ⟨hi, hr⟩
  | callWait j hh ho hj hr =>
    cases hh
    cases ho
    exact if_pos ⟨hj, hr⟩
  | callWaitAll hh ho hr | restart hh ho hr =>
    cases hh
    cases ho
    exact if_pos hr
  | spurious since hh ho hm =>
    cases hh
    cases ho
    simp only [step, fault, lock_eq_some.mpr ⟨hm, rfl⟩, Option.map_some]
    rfl
  | killFails j hh ho =>
    cases hh
    cases ho
    rfl

end Inversion

/-- The threads, numbered without bound. -/
def program (M : Machine) : Interleave.Program ℕ Shared Thread Choice Event where
  step i s t x := step M i s t x

/-- The state of the cores and of all threads. -/
abbrev Config := Interleave.Config ℕ Shared Thread

/-- A core after `coremu_core_init` and `coremu_init_sched_core`. -/
def CMCore.new : CMCore where
  intrQueue := []
  timeStamp := 0
  intrThreshHold := 0
  sigPending := false
  state := .run
  prio := avgPrio
  undelivered := 0
  drain := false

/-- After `coremu_run_all_cores()`, before any thread has done anything. -/
def start : Config where
  shared := ⟨fun _ => .new, none, 0⟩
  thread _ := ⟨none, .out, .idle, 0, 0⟩

/-- Every run begins here. -/
def Started (cfg : Config) : Prop := cfg = start

theorem started_start : Started start := rfl

/-- The runs of a machine. -/
abbrev AnyRun (M : Machine) := (program M).Run Started fun _ _ _ _ => True

/-- Every `pthread_kill` leads to one run of the handler. -/
def Choice.Delivers (x : Choice) : Prop := x ≠ .killFails

/-- `pthread_cond_wait` returns only after a broadcast. -/
def Choice.NoSpurious (x : Choice) : Prop := x ≠ .spurious

/-- `coremu_send_intr` is not called with `NULL`. -/
def Choice.NonNull (x : Choice) : Prop := ∀ j, x ≠ .sendIntr NULL j

/-- What a core has to count on to hear of its interrupts: every `pthread_kill` leads to one
run of the handler, and no `NULL` is sent. -/
def Choice.Reliable (x : Choice) : Prop := x.Delivers ∧ x.NonNull

/-- The runs in which every `pthread_kill` leads to one run of the handler. -/
abbrev DeliveredRun (M : Machine) := (program M).Run Started fun _ _ _ x => x.Delivers

/-- The C library does what the code counts on, and no `NULL` is sent. -/
def Choice.plain : Choice → Bool
  | .spurious | .killFails => false
  | .sendIntr intr _ => decide (intr ≠ NULL)
  | _ => true

theorem Choice.delivers_of_plain {x : Choice} (h : x.plain = true) : x.Delivers := by
  rintro rfl
  cases h

theorem Choice.noSpurious_of_plain {x : Choice} (h : x.plain = true) : x.NoSpurious := by
  rintro rfl
  cases h

theorem Choice.reliable_of_plain {x : Choice} (h : x.plain = true) : x.Reliable := by
  refine ⟨Choice.delivers_of_plain h, ?_⟩
  rintro j rfl
  cases h

/-- The runs in which this is so throughout. -/
abbrev PlainRun (M : Machine) := (program M).Run Started fun _ _ _ x => x.plain = true

end Coremu.Core

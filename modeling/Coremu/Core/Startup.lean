import Coremu.Core.Signal
import Mathlib.Data.Int.CardIntervalMod

/-!
# Starting the cores

`coremu_run_all_cores` creates the threads of the cores one after the other and then sets
`init_done`, from which on interrupts may be sent.  What a sender needs to know of a core
is filled in by somebody else: `core->tid` by the thread of the core itself, when it comes
to `coremu_init_sched_core`.  Until then it is 0, and `setpriority(PRIO_PROCESS, 0, …)`
acts on the calling thread, so that a sender raises its own priority.

The threads here are those of the core model, which run on top of the start-up.  The core
model keeps the priority that the code means a core's thread to have; here every thread
has the priority that the kernel gives it.  The two agree for the cores that have stored
their thread id, if no sender is too early.

`coremu_init_sched_core` also binds the thread to a core of the host.  The number of
threads bound to the same one is compared with what `coremu_get_thrs_per_core` says.

## Main definitions

* `Host`, `setpriority` — the thread ids and priorities of the kernel.
* `runAllCores`, `initSchedCore`, `step`, `program` — the start-up.
* `Thread.prioCall` — the call of `setpriority` that a step of the core model makes.
* `TidKnown` — no sender uses a thread id before it has been stored.
* `topologyBindCore`, `bound` — which threads are bound to a core of the host.

## Main results

* `step_prio` — what a step of the core model does to the priorities the code means.
* `TidRun.prio` — the kernel's priorities are those of the core model.
* `send_boosts_target` — **a send raises the priority of its target only**, if no sender
  is too early.
* `send_boosts_sender` — **a sender that is too early raises its own priority.**
* `bound_le_thrsPerCore_iff` — **no more threads are bound to a core of the host than the load
  figure says, exactly if** rounding up their share of the cores gives no more than rounding
  up their share of the processors.
* `bound_above_thrsPerCore` — **on a host with two processors a core there may be more.**
-/

namespace Coremu.Core

/-! ### Which priority the code means a thread to have -/

/-- A call of `coremu_thread_setpriority`. -/
inductive PrioCall
  | none
  /-- `coremu_thread_setpriority(PRIO_PROCESS, 0, avg_prio);` in the signal handler -/
  | self
  /-- `coremu_thread_setpriority(PRIO_PROCESS, core->tid, high_prio);` for core `j` -/
  | target (j : ℕ)
  deriving DecidableEq, Repr

/-- The call of `coremu_thread_setpriority` that a step makes. -/
def Thread.prioCall (t : Thread) (x : Choice) : PrioCall :=
  match t.handler, t.op, x with
  | some .setPriority, _, .go _ => .self
  | none, .send j .setPriority, .go _ => .target j
  | _, _, _ => .none

/-- The priorities of the cores' threads after a call of thread `i`, as the code means it. -/
def PrioCall.meant (i : ℕ) (prio : ℕ → ℤ) : PrioCall → ℕ → ℤ
  | .none => prio
  | .self => Function.update prio i avgPrio
  | .target j => Function.update prio j highPrio

section Prio

variable {M : Machine} {i j : ℕ} {s s' : Shared} {t t' : Thread} {x : Choice} {e : Event}
variable {k : CMCore}

/-- Writing a core and its priority. -/
theorem setCore_prio (s : Shared) (j : ℕ) (k : CMCore) :
    (fun c => ((s.setCore j k).core c).prio) =
      Function.update (fun c => (s.core c).prio) j k.prio := by
  funext c
  by_cases hc : c = j
  · subst hc
    rw [Shared.setCore_core_self, Function.update_self]
  · rw [Shared.setCore_core_of_ne _ _ hc, Function.update_of_ne hc]

theorem setCore_prio_of_eq (s : Shared) (h : k.prio = (s.core j).prio) :
    (fun c => ((s.setCore j k).core c).prio) = fun c => (s.core c).prio := by
  rw [setCore_prio, h, Function.update_eq_self]

/-- A thread that is in no send and not in its handler sets no priority. -/
theorem Thread.prioCall_of_not_send (hh : t.handler = none) (ho : ∀ j p, t.op ≠ .send j p) :
    t.prioCall x = .none := by
  unfold Thread.prioCall
  rw [hh]
  cases hop : t.op with
  | send j p => exact absurd hop (ho j p)
  | _ => rfl

/-- **What a step does to the priorities the code means.** -/
theorem step_prio (hs : Step M i s t x s' t' e) :
    (fun c => (s'.core c).prio) = (t.prioCall x).meant i fun c => (s.core c).prio := by
  have hrest : ∀ {op : Op}, t.handler = none → t.op = op → (∀ j p, op ≠ .send j p) →
      ((fun c => (s'.core c).prio) = fun c => (s.core c).prio) →
      (fun c => (s'.core c).prio) = (t.prioCall x).meant i fun c => (s.core c).prio := by
    intro op hh ho hne hp
    rw [Thread.prioCall_of_not_send hh (ho ▸ hne)]
    exact hp
  cases hs with
  | handler q now hh =>
    rw [setCore_prio]
    unfold Thread.prioCall
    rw [hh]
    cases q with
    | setPriority => rfl
    | _ => exact Function.update_eq_self i _
  | send j p now hh ho =>
    rw [setCore_prio]
    unfold Thread.prioCall
    rw [hh, ho]
    cases p with
    | setPriority => rfl
    | _ => exact Function.update_eq_self j _
  | signal hh hu =>
    have hnone : t.prioCall .signal = .none := by
      unfold Thread.prioCall
      rw [hh]
      cases t.op with
      | send j p => cases p <;> rfl
      | _ => rfl
    rw [setCore_prio, hnone]
    exact Function.update_eq_self i _
  | sched ev p now hh ho =>
    obtain ⟨st, hst⟩ := sched_core ev (s.core i) p
    exact hrest hh ho (fun _ _ => nofun) (setCore_prio_of_eq s (by rw [hst]))
  | pauseCore p now _ r hh ho hp =>
    refine hrest hh ho (fun _ _ => nofun) ?_
    rcases pauseCore_core hp with hc | ⟨st, hc⟩ <;> rw [hc]
    exact setCore_prio_of_eq s rfl
  | wait j all p now _ r hh ho hp =>
    exact hrest hh ho (fun _ _ => nofun) (by rw [waitPause_core hp])
  | receive now hh ho hr =>
    exact hrest hh ho (fun _ _ => nofun) (setCore_prio_of_eq s (receiveIntr_signals _ _).prio)
  | callReceive hh ho hi hr =>
    exact hrest hh ho (fun _ _ => nofun) (setCore_prio_of_eq s (receiveIntr_signals _ _).prio)
  | callSend _ _ hh ho | callSched _ hh ho | callPause hh ho | callWait _ hh ho
  | callWaitAll hh ho | restart hh ho | yield _ hh ho | spurious _ hh ho =>
    exact hrest hh ho (fun _ _ => nofun) rfl
  | killFails j hh ho =>
    unfold Thread.prioCall
    rw [hh, ho]
    rfl

end Prio

end Coremu.Core

namespace Coremu.Startup

open Coremu.Core (Machine avgPrio highPrio PrioCall)

/-! ### The kernel -/

/-- A machine with the ids that the kernel gives its threads. -/
structure Host extends Machine where
  /-- `gettid()` of each thread -/
  gettid : ℕ → ℤ
  gettid_pos : ∀ i, 0 < gettid i
  gettid_inj : Function.Injective gettid

/-- `setpriority(PRIO_PROCESS, who, p)`, called by thread `i`: 0 stands for the caller. -/
def setpriority (H : Host) (i : ℕ) (who p : ℤ) (prio : ℕ → ℤ) : ℕ → ℤ :=
  if who = 0 then Function.update prio i p
  else fun j => if H.gettid j = who then p else prio j

variable {H : Host} {i j c : ℕ} {p : ℤ} {table : ℕ → ℤ}

theorem setpriority_zero : setpriority H i 0 p table = Function.update table i p := if_pos rfl

theorem setpriority_gettid :
    setpriority H i (H.gettid j) p table = Function.update table j p := by
  unfold setpriority
  rw [if_neg (H.gettid_pos j).ne']
  funext c
  by_cases hc : c = j
  · subst hc
    rw [if_pos rfl, Function.update_self]
  · rw [if_neg fun e => hc (H.gettid_inj e), Function.update_of_ne hc]

/-! ### The start-up -/

/-- What all threads see. -/
structure Shared where
  /-- The cores, as in the core model. -/
  cores : Core.Shared
  /-- `core->tid` -/
  tid : ℕ → ℤ
  /-- The priority of each thread. -/
  prio : ℕ → ℤ
  /-- The cores below have been given their thread by `pthread_create`. -/
  created : ℕ
  /-- `init_done` -/
  initDone : Bool

/-- Program points of `coremu_run_all_cores`. -/
inductive RunPc
  /-- `pthread_create(&cur->thread, …)` in the loop over the cores -/
  | create
  /-- `init_done = true;` -/
  | setInitDone
  deriving DecidableEq, Repr

/-- Program points of `coremu_init_sched_core`. -/
inductive InitPc
  /-- `coremu_thread_setpriority(PRIO_PROCESS, 0, avg_prio);` -/
  | setPriority
  /-- `self->tid = coremu_gettid();` -/
  | setTid
  deriving DecidableEq, Repr

/-- Where a thread stands. -/
inductive Pc
  | runAllCores (p : RunPc)
  | initSchedCore (p : InitPc)
  /-- Somewhere in the core model. -/
  | running
  deriving DecidableEq, Repr

/-- A thread. -/
structure Thread where
  pc : Pc
  core : Core.Thread

/-- What the code leaves open at a step. -/
inductive Choice
  /-- The thread calls `coremu_init_sched_core()`. -/
  | initSchedCore
  /-- A step of the core model. -/
  | core (x : Core.Choice)
  /-- Nothing. -/
  | go
  deriving Repr

/-- One step of `coremu_run_all_cores` by thread `i`.  A new thread has the priority of the
thread that creates it. -/
def runAllCores (H : Host) (i : ℕ) (s : Shared) : RunPc → Shared × Pc
  | .create =>
      if s.created < H.smpCpus then
        ({ s with created := s.created + 1, prio := Function.update s.prio s.created (s.prio i) },
          .runAllCores .create)
      else (s, .runAllCores .setInitDone)
  | .setInitDone => ({ s with initDone := true }, .running)

/-- One step of `coremu_init_sched_core` by the thread of core `i`. -/
def initSchedCore (H : Host) (i : ℕ) (s : Shared) : InitPc → Shared × Pc
  | .setPriority =>
      ({ s with
          prio := setpriority H i 0 avgPrio s.prio
          cores := s.cores.setCore i { s.cores.core i with prio := avgPrio } },
        .initSchedCore .setTid)
  | .setTid => ({ s with tid := Function.update s.tid i (H.gettid i) }, .running)

/-- The call is one of `coremu_send_intr`. -/
def sends : Core.Choice → Bool
  | .sendIntr _ _ => true
  | _ => false

/-- The thread may make a step of the core model: it is there, or its signal handler is
running or begins. -/
def Thread.runs (t : Thread) : Core.Choice → Bool
  | .signal => true
  | _ => decide (t.pc = .running) || t.core.handler.isSome

/-- The priorities after a call of `setpriority` by thread `i`, as the kernel sets them. -/
def PrioCall.made (H : Host) (i : ℕ) (s : Shared) : PrioCall → ℕ → ℤ
  | .none => s.prio
  | .self => setpriority H i 0 avgPrio s.prio
  | .target j => setpriority H i (s.tid j) highPrio s.prio

/-- One step of thread `i`.  The thread of a core makes none before it is created. -/
def step (H : Host) (i : ℕ) (s : Shared) (t : Thread) (x : Choice) :
    Option (Shared × Thread × Core.Event) :=
  if i < H.smpCpus → i < s.created then
    match x with
    | .core x =>
        if t.runs x = true then
          -- `if (!coremu_init_done_p()) return;`
          if sends x = true ∧ s.initDone = false then some (s, t, .tau)
          else (Core.step H.toMachine i s.cores t.core x).map fun r =>
            ({ s with cores := r.1, prio := PrioCall.made H i s (t.core.prioCall x) },
              { t with core := r.2.1 }, r.2.2)
        else none
    | .initSchedCore =>
        if (t.pc = .running ∧ i < H.smpCpus) ∧ t.core.handler.isNone ∧ t.core.recv = .out then
          match t.core.op with
          | .idle => some (s, { t with pc := .initSchedCore .setPriority }, .tau)
          | _ => none
        else none
    | .go =>
        if t.core.handler.isNone then
          match t.pc with
          | .runAllCores p =>
              some ((runAllCores H i s p).1, { t with pc := (runAllCores H i s p).2 }, .tau)
          | .initSchedCore p =>
              some ((initSchedCore H i s p).1, { t with pc := (initSchedCore H i s p).2 }, .tau)
          | .running => none
        else none
  else none

/-- The threads, numbered without bound: those of the cores, the main thread, and others. -/
def program (H : Host) : Interleave.Program ℕ Shared Thread Choice Core.Event where
  step i s t x := step H i s t x

/-- The state of the host and of all threads. -/
abbrev Config := Interleave.Config ℕ Shared Thread

/-- After `coremu_core_init` for every core: the main thread, whose number is `cm_smp_cpus`,
is about to run all cores.  `coremu_init` has cleared `cm_cores`, so no `tid` is set. -/
def start (H : Host) : Config where
  shared := ⟨Core.start.shared, fun _ => 0, fun _ => highPrio, 0, false⟩
  thread i := ⟨if i = H.smpCpus then .runAllCores .create else .running, Core.start.thread i⟩

/-- Every run begins here. -/
def Started (H : Host) (cfg : Config) : Prop := cfg = start H

theorem started_start (H : Host) : Started H (start H) := rfl

/-- The C library does what the code counts on, and no `NULL` is sent. -/
def Choice.plain : Choice → Bool
  | .core x => x.plain
  | _ => true

/-- The runs of a host in which this is so throughout. -/
abbrev PlainRun (H : Host) := (program H).Run (Started H) fun _ _ _ x => x.plain = true

/-- The core whose thread's priority the step is to raise. -/
def Thread.boosts (t : Thread) : Choice → Option ℕ
  | .core x => match t.core.prioCall x with
    | .target j => some j
    | _ => none
  | _ => none

/-- A sender raises the priority of a core's thread only when `core->tid` has been
stored. -/
def TidKnown (_ : List (ℕ × Core.Event)) (cfg : Config) (i : ℕ) (x : Choice) : Prop :=
  ∀ j, (cfg.thread i).boosts x = some j → cfg.shared.tid j ≠ 0

/-- The runs in which no sender is too early. -/
abbrev TidRun (H : Host) := (program H).Run (Started H) TidKnown

/-! ### What a step can do -/

variable {s s' : Shared} {t t' : Thread} {x : Choice} {e : Core.Event} {cfg : Config}
variable {tr : List (ℕ × Core.Event)}

/-- The steps of thread `i`. -/
inductive Step (H : Host) (i : ℕ) (s : Shared) (t : Thread) : Choice → Shared → Thread → Prop
  /-- Before `init_done` is set, `coremu_send_intr` returns at once. -/
  | refused (intr : DataType) (j : ℕ) : Step H i s t (.core (.sendIntr intr j)) s t
  | core (x : Core.Choice) (c' : Core.Shared) (l' : Core.Thread) (e : Core.Event) :
      Core.Step H.toMachine i s.cores t.core x c' l' e →
      Step H i s t (.core x)
        { s with cores := c', prio := PrioCall.made H i s (t.core.prioCall x) }
        { t with core := l' }
  | callInit : t.pc = .running → Step H i s t .initSchedCore s
      { t with pc := .initSchedCore .setPriority }
  | runAllCores (p : RunPc) : t.pc = .runAllCores p →
      Step H i s t .go (runAllCores H i s p).1 { t with pc := (runAllCores H i s p).2 }
  | initSchedCore (p : InitPc) : t.pc = .initSchedCore p →
      Step H i s t .go (initSchedCore H i s p).1 { t with pc := (initSchedCore H i s p).2 }

/-- **What a step can do**; the thread has been created. -/
theorem step_cases (hs : step H i s t x = some (s', t', e)) :
    (i < H.smpCpus → i < s.created) ∧ Step H i s t x s' t' := by
  obtain ⟨hborn, hs⟩ := Option.ite_none_right_eq_some.mp hs
  refine ⟨hborn, ?_⟩
  cases x with
  | core x =>
    obtain ⟨-, hs⟩ := Option.ite_none_right_eq_some.mp hs
    split at hs
    · next hsend =>
      cases hs
      cases x with
      | sendIntr intr j => exact .refused intr j
      | _ => cases hsend.1
    · obtain ⟨⟨c', l', e'⟩, hc, hs⟩ := Option.map_eq_some_iff.mp hs
      cases hs
      exact .core x c' l' e' (Core.step_cases hc)
  | initSchedCore =>
    obtain ⟨⟨⟨hpc, -⟩, -⟩, hs⟩ := Option.ite_none_right_eq_some.mp hs
    split at hs
    · cases hs
      exact .callInit hpc
    · cases hs
  | go =>
    obtain ⟨-, hs⟩ := Option.ite_none_right_eq_some.mp hs
    split at hs
    · next p hpc =>
      cases hs
      exact .runAllCores p hpc
    · next p hpc =>
      cases hs
      exact .initSchedCore p hpc
    · cases hs

/-! ### The kernel's priorities -/

/-- Core `c` has stored its thread id, or is about to, with its priority set. -/
def Known (c : ℕ) (cfg : Config) : Prop :=
  cfg.shared.tid c ≠ 0 ∨ (cfg.thread c).pc = .initSchedCore .setTid

/-- What holds in a run in which no sender is too early. -/
structure Inv (H : Host) (cfg : Config) : Prop where
  tid : ∀ c, cfg.shared.tid c = 0 ∨ cfg.shared.tid c = H.gettid c
  /-- A core whose thread has not been created has stored nothing. -/
  unborn : ∀ c, cfg.shared.created ≤ c → c < H.smpCpus → ¬ Known c cfg
  /-- The kernel's priority is the one the code means. -/
  prio : ∀ c, Known c cfg → cfg.shared.prio c = (cfg.shared.cores.core c).prio

theorem inv_start (H : Host) : Inv H (start H) := by
  have hnot : ∀ c, ¬ Known c (start H) := by
    rintro c (hc | hc)
    · exact hc rfl
    · have hpc : (if c = H.smpCpus then Pc.runAllCores .create else .running) =
          .initSchedCore .setTid := hc
      split at hpc <;> cases hpc
  exact ⟨fun _ => .inl rfl, fun c _ _ => hnot c, fun c hc => absurd hc (hnot c)⟩

/-- A call that knows the thread id acts as the code means it to. -/
theorem made_eq_meant (htid : ∀ c, s.tid c = 0 ∨ s.tid c = H.gettid c) {q : PrioCall}
    (hknown : ∀ j, q = .target j → s.tid j ≠ 0) : PrioCall.made H i s q = q.meant i s.prio := by
  cases q with
  | none => rfl
  | self => exact setpriority_zero
  | target j =>
    rw [PrioCall.made, (htid j).resolve_left (hknown j rfl)]
    exact setpriority_gettid

/-- What the code means at a core depends on the priority of that core alone. -/
theorem meant_congr {q : PrioCall} {f g : ℕ → ℤ} (h : f c = g c) :
    q.meant i f c = q.meant i g c := by
  cases q with
  | none => exact h
  | self => simp only [PrioCall.meant, Function.update_apply, h]
  | target j => simp only [PrioCall.meant, Function.update_apply, h]

theorem boosts_of_prioCall {y : Core.Choice} (h : t.core.prioCall y = .target j) :
    t.boosts (.core y) = some j := by
  simp only [Thread.boosts, h]

/-- The invariant after a step of thread `i`: what is known of a core was known before and
still agrees, or the core is `i` and agrees now. -/
theorem Inv.after (h : Inv H cfg) (hborn : i < H.smpCpus → i < cfg.shared.created)
    (htid : ∀ c, s'.tid c = 0 ∨ s'.tid c = H.gettid c)
    (hcreated : cfg.shared.created ≤ s'.created)
    (hknown : ∀ c, Known c (cfg.after i s' t') →
      (Known c cfg ∧ (cfg.shared.prio c = (cfg.shared.cores.core c).prio →
        s'.prio c = (s'.cores.core c).prio)) ∨
      (c = i ∧ s'.prio c = (s'.cores.core c).prio)) : Inv H (cfg.after i s' t') := by
  refine ⟨htid, fun c hle hlt hc => ?_, fun c hc => ?_⟩
  · have hle' : cfg.shared.created ≤ c := le_trans hcreated hle
    rcases hknown c hc with ⟨hold, -⟩ | ⟨rfl, -⟩
    · exact h.unborn c hle' hlt hold
    · exact absurd (hborn hlt) (Nat.not_lt.mpr hle')
  · rcases hknown c hc with ⟨hold, hp⟩ | ⟨-, hp⟩
    · exact hp (h.prio c hold)
    · exact hp

/-- A step that changes no thread id and does not bring thread `i` to storing its own. -/
theorem Known.of_after (hc : Known c (cfg.after i s' t')) (htid : s'.tid c = cfg.shared.tid c)
    (hpc : t'.pc = (cfg.thread i).pc ∨ t'.pc ≠ .initSchedCore .setTid) : Known c cfg := by
  rcases hc with hc | hc
  · exact .inl (htid ▸ hc)
  · right
    by_cases hci : c = i
    · subst hci
      rw [Interleave.Config.after_thread_self] at hc
      exact (hpc.resolve_right fun hne => hne hc) ▸ hc
    · rwa [Interleave.Config.after_thread_of_ne _ _ _ hci] at hc

theorem Inv.runAllCores (h : Inv H cfg) (hborn : i < H.smpCpus → i < cfg.shared.created)
    (p : RunPc) : Inv H (cfg.after i (runAllCores H i cfg.shared p).1
      { cfg.thread i with pc := (Startup.runAllCores H i cfg.shared p).2 }) := by
  cases p with
  | create =>
    by_cases hlt : cfg.shared.created < H.smpCpus
    · have hrun : Startup.runAllCores H i cfg.shared .create =
          ({ cfg.shared with
              created := cfg.shared.created + 1
              prio := Function.update cfg.shared.prio cfg.shared.created (cfg.shared.prio i) },
            .runAllCores .create) := if_pos hlt
      rw [hrun]
      refine h.after hborn h.tid (Nat.le_succ _) fun c hc => ?_
      have hold : Known c cfg := hc.of_after rfl (.inr nofun)
      refine .inl ⟨hold, fun hp => ?_⟩
      -- the thread that is created has stored nothing
      have hne : c ≠ cfg.shared.created := by
        rintro rfl
        exact h.unborn _ le_rfl hlt hold
      exact (Function.update_of_ne hne _ _).trans hp
    · have hrun : Startup.runAllCores H i cfg.shared .create =
          (cfg.shared, .runAllCores .setInitDone) := if_neg hlt
      rw [hrun]
      exact h.after hborn h.tid le_rfl fun c hc => .inl ⟨hc.of_after rfl (.inr nofun), id⟩
  | setInitDone =>
    exact h.after hborn h.tid le_rfl fun c hc => .inl ⟨hc.of_after rfl (.inr nofun), id⟩

/-- `coremu_init_sched_core` sets the priority that the code means. -/
theorem initSchedCore_prio (s : Shared) (c : ℕ) :
    (initSchedCore H i s .setPriority).1.prio c = Function.update s.prio i avgPrio c ∧
      ((initSchedCore H i s .setPriority).1.cores.core c).prio =
        Function.update (fun c => (s.cores.core c).prio) i avgPrio c :=
  ⟨congrFun (setpriority_zero (H := H)) c, congrFun (Core.setCore_prio s.cores i _) c⟩

theorem Inv.initSchedCore (h : Inv H cfg) (hborn : i < H.smpCpus → i < cfg.shared.created)
    {p : InitPc} (hpc : (cfg.thread i).pc = .initSchedCore p) :
    Inv H (cfg.after i (initSchedCore H i cfg.shared p).1
      { cfg.thread i with pc := (Startup.initSchedCore H i cfg.shared p).2 }) := by
  cases p with
  | setPriority =>
    refine h.after hborn h.tid le_rfl fun c hc => ?_
    obtain ⟨hmade, hmeant⟩ := initSchedCore_prio (H := H) (i := i) cfg.shared c
    by_cases hci : c = i
    · rw [hci, Function.update_self] at hmade hmeant
      exact .inr ⟨hci, hci ▸ hmade.trans hmeant.symm⟩
    · have hold : Known c cfg := by
        rcases hc with hc | hc
        · exact .inl hc
        · rw [Interleave.Config.after_thread_of_ne _ _ _ hci] at hc
          exact .inr hc
      rw [Function.update_of_ne hci] at hmade hmeant
      exact .inl ⟨hold, fun hp => hmade.trans (hp.trans hmeant.symm)⟩
  | setTid =>
    refine h.after hborn (fun c => ?_) le_rfl fun c hc => .inl ⟨?_, id⟩
    · by_cases hci : c = i
      · exact .inr (hci ▸ Function.update_self _ _ _)
      · exact (h.tid c).imp (Function.update_of_ne hci _ _).trans
          (Function.update_of_ne hci _ _).trans
    · by_cases hci : c = i
      · exact .inr (hci ▸ hpc)
      · exact hc.of_after (Function.update_of_ne hci _ _) (.inr nofun)

/-- **A step of a run in which no sender is too early keeps the invariant.** -/
theorem inv_step (h : Inv H cfg) (hx : TidKnown tr cfg i x) (hborn : i < H.smpCpus →
    i < cfg.shared.created) (hs : Step H i cfg.shared (cfg.thread i) x s' t') :
    Inv H (cfg.after i s' t') := by
  cases hs with
  | refused intr j =>
    exact h.after hborn h.tid le_rfl fun c hc => .inl ⟨hc.of_after rfl (.inl rfl), id⟩
  | core y c' l' e hcore =>
    refine h.after hborn h.tid le_rfl fun c hc => .inl ⟨hc.of_after rfl (.inl rfl), fun hp => ?_⟩
    -- both sides make the same change: the kernel as called, the core model as meant
    have hmade := made_eq_meant (i := i) h.tid fun j hj => hx j (boosts_of_prioCall hj)
    have hmeant := congrFun (Core.step_prio hcore) c
    dsimp only at hmeant ⊢
    rw [hmade, hmeant]
    exact meant_congr hp
  | callInit hpc =>
    exact h.after hborn h.tid le_rfl fun c hc => .inl ⟨hc.of_after rfl (.inr nofun), id⟩
  | runAllCores p hpc => exact h.runAllCores hborn p
  | initSchedCore p hpc => exact h.initSchedCore hborn hpc

theorem TidRun.inv (h : TidRun H tr cfg) : Inv H cfg := by
  refine Interleave.Program.Run.induct (J := fun _ cfg => Inv H cfg) ?_ ?_ h
  · rintro _ rfl
    exact inv_start H
  · intro tr cfg i x s' t' e ih hx hs
    obtain ⟨hborn, hst⟩ := step_cases hs
    exact inv_step ih hx hborn hst

/-- **The kernel's priorities are those of the core model**, for the cores that have stored
their thread id, if no sender is too early. -/
theorem TidRun.prio (h : TidRun H tr cfg) (hc : cfg.shared.tid c ≠ 0) :
    cfg.shared.prio c = (cfg.shared.cores.core c).prio :=
  (TidRun.inv h).prio c (.inl hc)

/-! ### Whose priority a send raises -/

/-- The access is the call of `coremu_thread_setpriority`. -/
def boosting : Core.SendPc → Bool
  | .setPriority => true
  | _ => false

theorem prioCall_send {t : Core.Thread} {q : Core.SendPc} (now : BitVec 64)
    (hh : t.handler = none) (ho : t.op = .send j q) :
    t.prioCall (.go now) = if boosting q = true then .target j else .none := by
  unfold Core.Thread.prioCall
  rw [hh, ho]
  cases q <;> rfl

/-- **A send raises the priority of its target only**, if no sender is too early: every
step of an accepted send of thread `j` to core `c` leaves all priorities as they are, but
for `coremu_thread_setpriority`, which gives the thread of core `c` the priority
`high_prio` and changes no other. -/
theorem send_boosts_target {q : Core.SendPc} {y : Core.Choice} (h : TidRun H tr cfg)
    (hh : (cfg.thread j).core.handler = none) (ho : (cfg.thread j).core.op = .send c q)
    (hy : (∃ now, y = .go now) ∨ y = .killFails) (hx : TidKnown tr cfg j (.core y))
    (hs : step H j cfg.shared (cfg.thread j) (.core y) = some (s', t', e)) :
    s'.prio = if boosting q = true then Function.update cfg.shared.prio c highPrio
      else cfg.shared.prio := by
  have hmade := made_eq_meant (i := j) (TidRun.inv h).tid fun k hk => hx k (boosts_of_prioCall hk)
  obtain ⟨-, hst⟩ := step_cases hs
  cases hst with
  | refused intr k => rcases hy with ⟨now, hy⟩ | hy <;> cases hy
  | core y c' l' e' hcore =>
    have hcall : (cfg.thread j).core.prioCall y =
        if boosting q = true then .target c else .none := by
      rcases hy with ⟨now, rfl⟩ | rfl
      · exact prioCall_send now hh ho
      · -- only the `pthread_kill` fails
        cases hcore with
        | killFails k _ ho' =>
          rw [ho] at ho'
          cases ho'
          simp [Core.Thread.prioCall, hh, ho, boosting]
    dsimp only
    rw [hmade, hcall]
    split <;> rfl

/-! ### Runs of two cores on two processors -/

/-- Two emulated cores on a host with two processors. -/
def twoOnTwo : Host where
  smpCpus := 2
  hostCpuAvail := 2
  gettid i := i + 1
  gettid_pos i := by omega
  gettid_inj i j h := by simpa using h

/-- The main thread creates both threads and sets `init_done`. -/
def runAllCoresSteps : List (ℕ × Choice) := List.replicate 4 (2, .go)

/-- The thread of core `i` runs `coremu_init_sched_core`. -/
def initSteps (i : ℕ) : List (ℕ × Choice) := [(i, .initSchedCore), (i, .go), (i, .go)]

/-- The thread of core 0 sends an interrupt to core 1, up to line 94. -/
def sendSteps : List (ℕ × Choice) :=
  (0, .core (.sendIntr 7 1)) :: List.replicate 6 (0, .core (.go 0))

/-- The core to which thread 0 is at line 94 of a send. -/
def boostedCore (cfg : Config) : Option ℕ :=
  match (cfg.thread 0).core.handler, (cfg.thread 0).core.op with
  | none, .send j .setPriority => some j
  | _, _ => none

theorem op_of_boostedCore (h : boostedCore cfg = some j) :
    (cfg.thread 0).core.handler = none ∧ (cfg.thread 0).core.op = .send j .setPriority := by
  unfold boostedCore at h
  split at h
  · next hh ho =>
    cases h
    exact ⟨hh, ho⟩
  · cases h

/-- The next step of thread 0 in its send is made, and `P` holds of the priorities before
and after it. -/
def nextPrio (H : Host) (cfg : Config) (P : (ℕ → ℤ) → (ℕ → ℤ) → Bool) : Bool :=
  (step H 0 cfg.shared (cfg.thread 0) (.core (.go 0))).any fun r => P cfg.shared.prio r.1.prio

theorem exists_step_of_nextPrio {P : (ℕ → ℤ) → (ℕ → ℤ) → Bool} (h : nextPrio H cfg P = true) :
    ∃ s' t' e, step H 0 cfg.shared (cfg.thread 0) (.core (.go 0)) = some (s', t', e) ∧
      P cfg.shared.prio s'.prio = true := by
  unfold nextPrio at h
  cases hst : step H 0 cfg.shared (cfg.thread 0) (.core (.go 0)) with
  | none => rw [hst] at h; cases h
  | some r =>
    rw [hst] at h
    exact ⟨r.1, r.2.1, r.2.2, rfl, h⟩

/-- `TidKnown`, computed. -/
def tidGuard (cfg : Config) (i : ℕ) (x : Choice) : Bool :=
  ((cfg.thread i).boosts x).all fun j => decide (cfg.shared.tid j ≠ 0)

theorem tidKnown_of_guard (h : tidGuard cfg i x = true) : TidKnown tr cfg i x := by
  intro j hj
  rw [tidGuard, hj] at h
  exact of_decide_eq_true h

/-- Core 0 raises the priority of core 1, which has stored its thread id. -/
theorem send_boosts_target_stored : ∃ tr cfg s' t' e, TidRun twoOnTwo tr cfg ∧
    step twoOnTwo 0 cfg.shared (cfg.thread 0) (.core (.go 0)) = some (s', t', e) ∧
      cfg.shared.prio 1 = avgPrio ∧
        s'.prio = Function.update cfg.shared.prio 1 highPrio := by
  obtain ⟨tr, cfg, hr, ht⟩ : ∃ tr cfg, TidRun twoOnTwo tr cfg ∧
      ((decide (boostedCore cfg = some 1) && tidGuard cfg 0 (.core (.go 0))) &&
        nextPrio twoOnTwo cfg fun f _ => decide (f 1 = avgPrio)) = true :=
    Interleave.Program.exists_run_of_exec (P := program twoOnTwo)
      (fun _ cfg i x => tidGuard cfg i x) (fun _ _ _ _ hg => tidKnown_of_guard hg)
      (started_start twoOnTwo) (runAllCoresSteps ++ initSteps 1 ++ initSteps 0 ++ sendSteps)
      (fun _ cfg => (decide (boostedCore cfg = some 1) && tidGuard cfg 0 (.core (.go 0))) &&
        nextPrio twoOnTwo cfg fun f _ => decide (f 1 = avgPrio)) (by decide)
  obtain ⟨ht, hnext⟩ := Bool.and_eq_true_iff.mp ht
  obtain ⟨hboost, hguard⟩ := Bool.and_eq_true_iff.mp ht
  obtain ⟨hh, ho⟩ := op_of_boostedCore (of_decide_eq_true hboost)
  obtain ⟨s', t', e, hs, hprio⟩ := exists_step_of_nextPrio hnext
  exact ⟨tr, cfg, s', t', e, hr, hs, of_decide_eq_true hprio,
    send_boosts_target hr hh ho (.inl ⟨0, rfl⟩) (tidKnown_of_guard hguard) hs⟩

/-- **A sender that is too early raises its own priority**: `init_done` is set, core 0 is at
line 94 of a send to core 1, whose thread has not come to `coremu_init_sched_core`.  The
next step raises the priority of core 0 and leaves that of core 1 as it is. -/
theorem send_boosts_sender : ∃ tr cfg s' t' e, PlainRun twoOnTwo tr cfg ∧
    (cfg.thread 0).core.op = .send 1 .setPriority ∧
    step twoOnTwo 0 cfg.shared (cfg.thread 0) (.core (.go 0)) = some (s', t', e) ∧
      (cfg.shared.prio 0 = avgPrio ∧ s'.prio 0 = highPrio) ∧
        s'.prio 1 = cfg.shared.prio 1 := by
  obtain ⟨tr, cfg, hr, ht⟩ : ∃ tr cfg, PlainRun twoOnTwo tr cfg ∧
      (decide (boostedCore cfg = some 1) && nextPrio twoOnTwo cfg fun f g =>
        decide ((f 0 = avgPrio ∧ g 0 = highPrio) ∧ g 1 = f 1)) = true :=
    Interleave.Program.exists_run_of_exec (P := program twoOnTwo) (fun _ _ _ x => x.plain)
      (fun _ _ _ _ hp => hp) (started_start twoOnTwo)
      (runAllCoresSteps ++ initSteps 0 ++ sendSteps)
      (fun _ cfg => decide (boostedCore cfg = some 1) && nextPrio twoOnTwo cfg fun f g =>
        decide ((f 0 = avgPrio ∧ g 0 = highPrio) ∧ g 1 = f 1)) (by decide)
  obtain ⟨hboost, hnext⟩ := Bool.and_eq_true_iff.mp ht
  obtain ⟨s', t', e, hs, hprio⟩ := exists_step_of_nextPrio hnext
  obtain ⟨hself, htarget⟩ := of_decide_eq_true hprio
  exact ⟨tr, cfg, s', t', e, hr, (op_of_boostedCore (of_decide_eq_true hboost)).2, hs, hself,
    htarget⟩

/-! ### Binding threads to the cores of the host -/

/-- `topology_bind_core`: the index of the host's core object to which the thread of the
emulated core `serial` is bound, when `cores` of them have been found.  The thread runs on
one processor of it. -/
def topologyBindCore (cores serial : ℕ) : ℕ := serial % cores

/-- How many threads are bound to the core object `index`. -/
def bound (M : Machine) (cores index : ℕ) : ℕ :=
  M.smpCpus.count fun i => topologyBindCore cores i = index

variable {M : Machine} {cores : ℕ}

/-- The threads that are bound to the core object `index`: those with this remainder. -/
theorem bound_eq (hcores : 0 < cores) {index : ℕ} (hindex : index < cores) :
    bound M cores index =
      M.smpCpus / cores + if index < M.smpCpus % cores then 1 else 0 := by
  have hcount := Nat.count_modEq_card M.smpCpus hcores index
  rw [Nat.mod_eq_of_lt hindex] at hcount
  have hmod : ∀ i, topologyBindCore cores i = index ↔ i ≡ index [MOD cores] := fun i => by
    rw [topologyBindCore, Nat.ModEq, Nat.mod_eq_of_lt hindex]
  rw [← hcount]
  exact le_antisymm (Nat.count_mono_left fun i _ => (hmod i).mp)
    (Nat.count_mono_left fun i _ => (hmod i).mpr)

/-- A share, rounded up. -/
theorem ceil_eq (hcores : 0 < cores) (n : ℕ) :
    (cores + n - 1) / cores = n / cores + if 0 < n % cores then 1 else 0 := by
  have hdm := Nat.div_add_mod n cores
  have hlt := Nat.mod_lt n hcores
  split
  · rw [show cores + n - 1 = n % cores - 1 + cores * (n / cores + 1) by rw [Nat.mul_succ]; omega,
      Nat.add_mul_div_left _ _ hcores, Nat.div_eq_of_lt (by omega), Nat.zero_add]
  · rw [show cores + n - 1 = cores - 1 + cores * (n / cores) by omega,
      Nat.add_mul_div_left _ _ hcores, Nat.div_eq_of_lt (by omega), Nat.zero_add, Nat.add_zero]

/-- The threads are dealt out in turn, so no core object has more than its share, rounded
up, -/
theorem bound_le (hcores : 0 < cores) {index : ℕ} (hindex : index < cores) :
    bound M cores index ≤ (cores + M.smpCpus - 1) / cores := by
  rw [bound_eq hcores hindex, ceil_eq hcores]
  split <;> split <;> omega

/-- and the first one has as many. -/
theorem bound_first (hcores : 0 < cores) :
    bound M cores 0 = (cores + M.smpCpus - 1) / cores := by
  rw [bound_eq hcores hcores, ceil_eq hcores]

/-- **No more threads are bound to a core of the host than the load figure says, and at most
one if there are enough processors, exactly if** the share of a core, rounded up, is at most
the share of a processor, rounded up. -/
theorem bound_le_thrsPerCore_iff (hsmp : 1 ≤ M.smpCpus) (hcores : 1 ≤ cores) :
    (∀ index < cores, bound M cores index ≤ M.getThrsPerCore ∧
      (M.physicalCoreEnoughP = true → bound M cores index ≤ 1)) ↔
    (cores + M.smpCpus - 1) / cores ≤ (M.hostCpuAvail + M.smpCpus - 1) / M.hostCpuAvail := by
  constructor
  · intro h
    rw [← bound_first hcores]
    exact (h 0 hcores).1
  · intro hshare index hindex
    have hle : bound M cores index ≤ M.getThrsPerCore := (bound_le hcores hindex).trans hshare
    refine ⟨hle, fun henough => hle.trans ?_⟩
    -- with enough processors the load figure is one
    have hfew : M.smpCpus ≤ M.hostCpuAvail := of_decide_eq_true henough
    refine Nat.lt_succ_iff.mp ((Nat.div_lt_iff_lt_mul (by omega)).mpr ?_)
    omega

/-- Five threads on a host with two cores of one processor each: three are bound to the
first core. -/
theorem bound_le_thrsPerCore_five : bound ⟨5, 2⟩ 2 0 = 3 ∧
    bound ⟨5, 2⟩ 2 0 ≤ Machine.getThrsPerCore ⟨5, 2⟩ :=
  ⟨by decide,
    ((bound_le_thrsPerCore_iff (by decide) (by decide)).mpr (by decide) 0 (by decide)).1⟩

/-- **On a host with two processors a core there may be more**: one core object with two
processors, and two emulated cores.  Both are bound to it, on the same processor, although
the load figure is one and there are enough processors. -/
theorem bound_above_thrsPerCore : bound ⟨2, 2⟩ 1 0 = 2 ∧ Machine.getThrsPerCore ⟨2, 2⟩ = 1 ∧
    Machine.physicalCoreEnoughP ⟨2, 2⟩ = true := by
  decide

end Coremu.Startup

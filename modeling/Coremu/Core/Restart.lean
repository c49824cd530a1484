import Coremu.Core.Pause

/-!
# Stopping and restarting all cores

Once all cores are blocked in `coremu_pause_core`, they stay so until somebody calls
`coremu_restart_all_cores`, if `pthread_cond_wait` returns only after a broadcast: signals are
still delivered to them and their queues still grow, but no core hands an interrupt to the
guest.  After the restart every core can get out again, whoever holds `pause_mutex` at that
time.  It need not: a coordinator in `coremu_wait_pause` may take the mutex again and again.

`pause_mutex` is an error-checking mutex, and `coremu_mutex_lock` and `coremu_mutex_unlock`
end the program on an error.  They never find one.

## Main definitions

* `MutexCall`, `mutexError` — what an error-checking mutex objects to.
* `handlerRank`, `Thread.holdRank` — how many accesses are left at a program point.
* `Op.Released`, `Releasing` — the states between the restart and the return.

## Main results

* `pauseMutex_noError` — **no assertion on `pause_mutex` fails.**
* `stopped_until_restart` — **cores that are all blocked stay blocked until the restart**, and
  handle no interrupt, if `pthread_cond_wait` returns only after a broadcast.
* `restart_releases` — **after the restart a core can return** in a few steps, of its own and
  of the holder of the mutex.
-/

namespace Coremu.Core

variable {M : Machine} {c i j k n : ℕ} {s s' : Shared} {t t' : Thread} {x : Choice} {e : Event}
  {cfg cfg' : Config} {tr tr' : List (ℕ × Event)}

theorem AnyRun.pauseInv (h : AnyRun M tr cfg) : PauseInv cfg := by
  refine Interleave.Program.Run.induct (J := fun _ cfg => PauseInv cfg) ?_ ?_ h
  · rintro _ rfl
    exact pauseInv_start
  · intro tr cfg i x s' t' e hinv _ hs
    exact hinv.step (step_cases hs)

/-! ### The error checks of `pause_mutex` -/

/-- The calls on a mutex. -/
inductive MutexCall
  /-- `pthread_mutex_lock` -/
  | lock
  /-- `pthread_mutex_unlock` -/
  | unlock
  /-- `pthread_cond_wait` -/
  | condWait
  deriving DecidableEq, Repr

/-- The call on `pause_mutex` that a thread makes next. -/
def Op.mutexCall : Op → Option MutexCall
  | .pauseCore .lock | .wait _ _ .lock => some .lock
  | .pauseCore .unlock | .wait _ _ .retry | .wait _ _ .unlock => some .unlock
  | .pauseCore .condWait => some .condWait
  | _ => none

/-- Whether a mutex of type `PTHREAD_MUTEX_ERRORCHECK`, held by `holder`, returns an error to
thread `i`: `EDEADLK` when the thread has it already, `EPERM` when it has not. -/
def mutexError (i : ℕ) (holder : Option ℕ) : MutexCall → Bool
  | .lock => decide (holder = some i)
  | .unlock | .condWait => decide (holder ≠ some i)

/-- Only a thread without the mutex asks for it. -/
theorem Op.holds_of_mutexCall {op : Op} {q : MutexCall} (h : op.mutexCall = some q) :
    op.holds = decide (q ≠ .lock) := by
  cases op with
  | pauseCore p => cases p <;> cases h <;> rfl
  | wait j all p => cases p <;> cases h <;> rfl
  | _ => cases h

/-- **No assertion on `pause_mutex` fails**: a thread locks it only without having it, and
unlocks it or waits with it only while it has it; and there is one such thread at most. -/
theorem pauseMutex_noError (h : AnyRun M tr cfg) :
    (∀ i q, (cfg.thread i).op.mutexCall = some q →
      mutexError i cfg.shared.pauseMutex q = false) ∧
    ∀ i j, (cfg.thread i).op.holds = true → (cfg.thread j).op.holds = true → i = j := by
  have hinv := h.pauseInv
  refine ⟨fun i q hq => ?_, fun i j hi hj => ?_⟩
  · have hm := hinv.mutex i
    rw [Op.holds_of_mutexCall hq] at hm
    cases q <;> simpa [mutexError] using hm
  · have hmi := (hinv.mutex i).mpr hi
    rw [(hinv.mutex j).mpr hj, Option.some.injEq] at hmi
    exact hmi.symm

/-- Core 0 has the mutex and is about to wait, and core 1 asks for the mutex. -/
theorem pauseMutex_noError_two : ∃ tr cfg, AnyRun twoOnOne tr cfg ∧
    (cfg.thread 0).op.mutexCall = some .condWait ∧ (cfg.thread 1).op.mutexCall = some .lock ∧
      mutexError 0 cfg.shared.pauseMutex .condWait = false ∧
      mutexError 1 cfg.shared.pauseMutex .lock = false := by
  obtain ⟨tr, cfg, hr, ht⟩ : ∃ tr cfg, AnyRun twoOnOne tr cfg ∧
      decide ((cfg.thread 0).op.mutexCall = some .condWait ∧
        (cfg.thread 1).op.mutexCall = some .lock) = true :=
    Interleave.Program.exists_run_of_exec (P := program twoOnOne) (fun _ _ _ _ => true)
      (fun _ _ _ _ _ => trivial) started_start ((0, .pauseCore) :: goes 0 3 ++ [(1, .pauseCore)])
      (fun _ cfg => decide ((cfg.thread 0).op.mutexCall = some .condWait ∧
        (cfg.thread 1).op.mutexCall = some .lock)) (by decide)
  obtain ⟨h0, h1⟩ := of_decide_eq_true ht
  obtain ⟨herr, -⟩ := pauseMutex_noError hr
  exact ⟨tr, cfg, hr, h0, h1, herr 0 _ h0, herr 1 _ h1⟩

/-! ### All cores stay blocked -/

/-- Only the thread of a core is in `coremu_receive_intr`. -/
theorem step_recv (hs : Step M i s t x s' t' e) (ht : t.recv ≠ .out → i < M.smpCpus) :
    t'.recv ≠ .out → i < M.smpCpus := by
  cases hs with
  | receive now hh ho hr => exact fun _ => ht hr
  | callReceive hh ho hi hr => exact fun _ => hi
  | send j p now hh ho =>
    rw [(t.sendNext_frame j _).2]
    exact ht
  | sched ev p now hh ho =>
    rw [(t.aside_schedNext (c := i) ev _).2.2]
    exact ht
  | pauseCore p now _ r hh ho hp =>
    rw [(t.aside_pauseNext (c := i) r).2.2]
    exact ht
  | wait j all p now _ r hh ho hp =>
    rw [(t.aside_waitNext (c := i) M j all r).2.2]
    exact ht
  | callSched ev hh ho hi hr => exact fun _ => hi
  | callWaitAll hh ho hr =>
    rw [(t.aside_waitFrom (c := i) M 0).2.2]
    exact ht
  | _ => exact ht

theorem AnyRun.recv_lt (h : AnyRun M tr cfg) : ∀ i, (cfg.thread i).recv ≠ .out → i < M.smpCpus := by
  refine Interleave.Program.Run.induct
    (J := fun _ cfg => ∀ i, (cfg.thread i).recv ≠ .out → i < M.smpCpus) ?_ ?_ h
  · rintro _ rfl i hi
    exact absurd rfl hi
  · intro tr cfg i x s' t' e hinv _ hs
    exact Interleave.Config.forall_after
      (T := fun i (t : Thread) => t.recv ≠ .out → i < M.smpCpus)
      (step_recv (step_cases hs) (hinv i)) fun j _ => hinv j

/-- An interrupt is handed to the guest in `coremu_receive_intr`, with nothing else to do. -/
theorem step_handle {v : DataType} (hs : Step M i s t x s' t' (.handle v)) :
    t.op = .idle ∧ t.recv ≠ .out := by
  generalize hE : Event.handle v = E at hs
  have hfrom : ∀ m, (M.waitFrom m t).2 ≠ .handle v := by
    intro m
    unfold Machine.waitFrom
    split <;> simp
  cases hs with
  | receive now hh ho hr => exact ⟨ho, hr⟩
  | wait j all p now _ r hh ho hp =>
    cases r with
    | some p' => cases all <;> cases hE
    | none =>
      cases all with
      | false => cases hE
      | true => exact absurd hE.symm (hfrom (j + 1))
  | sched ev p now hh ho => cases p <;> cases hE
  | callWaitAll hh ho hr => exact absurd hE.symm (hfrom 0)
  | _ => cases hE

theorem sendIntr_isPrefix (k : CMCore) (p : SendPc) :
    k.intrQueue <+: (sendIntr M i j k p).1.intrQueue := by
  cases p with
  | putIntr e => exact List.prefix_append _ _
  | _ => exact List.prefix_refl _

/-- The queue of a blocked core only grows. -/
theorem step_queue (hs : Step M i s t x s' t' e) (hx : x.NoSpurious)
    (hb : i = c → t.op = .pauseCore (.waiting s.broadcasts)) :
    (s.core c).intrQueue <+: (s'.core c).intrQueue := by
  by_cases hi : i = c
  · -- of its own functions only the signal handler runs
    subst hi
    have hop := hb rfl
    cases hs with
    | handler q now hh =>
      rw [Shared.setCore_core_self, coreSignalHandler_queue]
    | signal hh hu =>
      rw [Shared.setCore_core_self]
    | pauseCore p now _ r hh ho hq =>
      rw [hop] at ho
      cases ho
      exact absurd (pauseCore_waiting.mp hq).1 (lt_irrefl _)
    | spurious => exact absurd rfl hx
    | send _ _ _ _ ho | sched _ _ _ _ ho | yield _ _ ho | wait _ _ _ _ _ _ _ ho | receive _ _ ho
    | callReceive _ ho | callSend _ _ _ ho | callSched _ _ ho | callPause _ ho | callWait _ _ ho
    | callWaitAll _ ho | restart _ ho | killFails _ _ ho =>
      exact absurd (hop.symm.trans ho) (by simp)
  · cases core_cases c hs with
    | send p now hh hx ho hc ht =>
      rw [hc]
      exact sendIntr_isPrefix _ p
    | killFails hh hx ho hc =>
      rw [hc]
    | other hk hp hne =>
      rw [hne hi]
    | handler _ _ hc | signal hc | receive _ hc => exact absurd hc hi

/-- What holds from the time on at which all cores are blocked, in `cfg`. -/
structure AllStopped (M : Machine) (cfg : Config) (tr' : List (ℕ × Event)) (cfg' : Config) :
    Prop where
  recv : ∀ i, (cfg'.thread i).recv ≠ .out → i < M.smpCpus
  blocked : ∀ j < M.smpCpus, Blocked cfg' j
  queue : ∀ j < M.smpCpus,
    (cfg.shared.core j).intrQueue <+: (cfg'.shared.core j).intrQueue
  silent : ∀ i v, (i, .handle v) ∉ tr'

theorem AllStopped.step (h : AllStopped M cfg tr' cfg') (hx : x ≠ .restartAllCores)
    (hn : x.NoSpurious) (hs : Step M i cfg'.shared (cfg'.thread i) x s' t' e) :
    AllStopped M cfg (tr' ++ [(i, e)]) (cfg'.after i s' t') where
  recv := Interleave.Config.forall_after
    (T := fun i (t : Thread) => t.recv ≠ .out → i < M.smpCpus)
    (step_recv hs (h.recv i)) fun j _ => h.recv j
  blocked j hj := by
    refine (h.blocked j hj).after hs hn ?_
    rcases step_broadcasts hs with hb | ⟨hr, -⟩
    · exact hb
    · exact absurd hr hx
  queue j hj := by
    refine (h.queue j hj).trans (step_queue hs hn ?_)
    rintro rfl
    exact h.blocked i hj
  silent k v := by
    rw [List.mem_append, List.mem_singleton]
    rintro (hold | hnew)
    · exact h.silent k v hold
    · -- the thread would have to be that of a core, and a core is blocked
      cases hnew
      obtain ⟨ho, hr⟩ := step_handle hs
      have hb := h.blocked i (h.recv i hr)
      rw [Blocked, ho] at hb
      cases hb

/-- **Cores that are all blocked stay blocked until the restart**, if `pthread_cond_wait`
returns only after a broadcast: signals may be delivered to them and interrupts enqueued for
them, but no core hands one to the guest, and what is on their queues stays there. -/
theorem stopped_until_restart (h : AnyRun M tr cfg) (hb : ∀ j < M.smpCpus, Blocked cfg j)
    (h' : (program M).Run (· = cfg) (fun _ _ _ x => x ≠ .restartAllCores ∧ x.NoSpurious)
      tr' cfg') :
    (∀ j < M.smpCpus, Blocked cfg' j ∧
      (cfg.shared.core j).intrQueue <+: (cfg'.shared.core j).intrQueue) ∧
    ∀ i v, (i, .handle v) ∉ tr' := by
  have hall : AllStopped M cfg tr' cfg' := by
    refine Interleave.Program.Run.induct (J := fun tr' cfg' => AllStopped M cfg tr' cfg') ?_ ?_ h'
    · rintro _ rfl
      exact ⟨h.recv_lt, hb, fun j _ => List.prefix_refl _, fun i v => List.not_mem_nil⟩
    · intro tr' cfg' i x s' t' e hstop hx hs
      exact hstop.step hx.1 hx.2 (step_cases hs)
  exact ⟨fun j hj => ⟨hall.blocked j hj, hall.queue j hj⟩, hall.silent⟩

/-- Two cores are blocked. -/
def twoBlocked (cfg : Config) : Bool :=
  (List.range 2).all fun j => match (cfg.thread j).op with
    | .pauseCore (.waiting since) => decide (since = cfg.shared.broadcasts)
    | _ => false

theorem blocked_of_twoBlocked (h : twoBlocked cfg = true) : ∀ j < 2, Blocked cfg j := by
  intro j hj
  have hb := List.all_eq_true.mp h j (List.mem_range.mpr hj)
  split at hb
  · next since ho => rw [Blocked, ho, of_decide_eq_true hb]
  · cases hb

/-- `x` is not a restart, and no wait ends without one. -/
def Choice.goesOn : Choice → Bool
  | .restartAllCores | .spurious => false
  | _ => true

theorem Choice.noRestart_of_goesOn (h : x.goesOn = true) :
    x ≠ .restartAllCores ∧ x.NoSpurious := by
  constructor
  all_goals
    rintro rfl
    cases h

/-- Two cores are blocked, thread 2 sends an interrupt to core 0, and the core handles the
signal and waits on. -/
theorem stopped_until_restart_signalled : ∃ tr cfg tr' cfg', AnyRun twoOnOne tr cfg ∧
    (∀ j < twoOnOne.smpCpus, Blocked cfg j) ∧
    (program twoOnOne).Run (· = cfg) (fun _ _ _ x => x ≠ .restartAllCores ∧ x.NoSpurious)
      tr' cfg' ∧ (cfg'.shared.core 0).drain = true ∧ Blocked cfg' 0 ∧
        (cfg'.shared.core 0).intrQueue.map (·.value) = [7] := by
  obtain ⟨tr, cfg, tr', cfg', hr, hr', ht⟩ : ∃ tr cfg tr' cfg', AnyRun twoOnOne tr cfg ∧
      (program twoOnOne).Run (· = cfg) (fun _ _ _ x => x ≠ .restartAllCores ∧ x.NoSpurious)
        tr' cfg' ∧ (twoBlocked cfg && decide ((cfg'.shared.core 0).drain = true ∧
          (cfg'.shared.core 0).intrQueue.map (·.value) = [7])) = true :=
    Interleave.Program.exists_run_of_exec_then (P := program twoOnOne) (fun _ _ _ _ => true)
      (fun _ _ _ x => x.goesOn) (fun _ _ _ _ _ => trivial)
      (fun _ _ _ _ => Choice.noRestart_of_goesOn) started_start
      (pauses 0 ++ pauses 1) (sends 2 8 ++ (0, .signal) :: goes 0 6)
      (fun _ cfg _ cfg' => twoBlocked cfg && decide ((cfg'.shared.core 0).drain = true ∧
          (cfg'.shared.core 0).intrQueue.map (·.value) = [7])) (by decide)
  obtain ⟨hb, hd⟩ := Bool.and_eq_true_iff.mp ht
  obtain ⟨hdrain, hqueue⟩ := of_decide_eq_true hd
  have hall := blocked_of_twoBlocked hb
  obtain ⟨hstop, -⟩ := stopped_until_restart hr hall hr'
  exact ⟨tr, cfg, tr', cfg', hr, hall, hr', hdrain, (hstop 0 (by decide)).1, hqueue⟩

/-! ### The restart -/

/-- How many accesses a signal handler makes at most before it returns. -/
def handlerRank : Option HandlerPc → ℕ
  | none => 0
  | some .clearSig => 1
  | some .notifier => 2
  | some .setPriority => 3
  | some (.setStamp _) => 4
  | some (.lower _ _) | some (.clearThreshHold _) => 5
  | some (.readThreshHold _) => 6
  | some (.positive _) => 7
  | some (.interval _) => 8
  | some (.stamped _) => 9
  | some .readTsc => 10

theorem handlerRank_le (h : Option HandlerPc) : handlerRank h ≤ 10 := by
  rcases h with _ | q
  · exact Nat.zero_le _
  · cases q <;> simp [handlerRank]

theorem handlerRank_step (now : BitVec 64) (k : CMCore) (q : HandlerPc) :
    handlerRank (coreSignalHandler M now k q).2 < handlerRank (some q) := by
  cases q with
  | stamped tsc | interval tsc | positive tsc =>
    simp only [coreSignalHandler]
    split <;> simp [handlerRank]
  | _ => simp [coreSignalHandler, handlerRank]

/-- How many accesses the holder of the mutex makes at most before it gives it back. -/
def Op.holdRank : Op → ℕ
  | .pauseCore .test => 3
  | .pauseCore .setPause | .pauseCore .setRun | .wait _ _ .test => 2
  | .pauseCore .condWait | .pauseCore .unlock | .wait _ _ .retry | .wait _ _ .unlock => 1
  | _ => 0

/-- The same, with the accesses of its signal handler. -/
def Thread.holdRank (t : Thread) : ℕ := handlerRank t.handler + t.op.holdRank

theorem Thread.holdRank_le (t : Thread) : t.holdRank ≤ 13 := by
  have hop : t.op.holdRank ≤ 3 := by
    cases t.op with
    | pauseCore p => cases p <;> simp [Op.holdRank]
    | wait j all p => cases p <;> simp [Op.holdRank]
    | _ => exact Nat.zero_le _
  exact Nat.add_le_add (handlerRank_le _) hop

theorem waitFrom_holdRank (M : Machine) (j : ℕ) (t : Thread) :
    (M.waitFrom j t).1.op.holdRank = 0 := by
  rcases waitFrom_op M j t with h | h <;> (rw [h]; rfl)

/-- The thread that holds the mutex is never kept waiting. -/
theorem holder_step (s : Shared) (hold : t.op.holds = true) : ∃ s' t' e,
    Step M i s t (.go 0) s' t' e ∧ t'.holdRank < t.holdRank := by
  cases hh : t.handler with
  | some q =>
    refine ⟨_, _, _, .handler q 0 hh, ?_⟩
    rw [Thread.holdRank, Thread.holdRank, hh]
    exact Nat.add_lt_add_right (handlerRank_step 0 _ q) _
  | none =>
    cases ho : t.op with
    | pauseCore p =>
      rw [ho] at hold
      have hgo : ∀ s' r, pauseCore i s p = some (s', r) →
          (t.pauseNext r).op.holdRank < t.op.holdRank →
            ∃ s' t' e, Step M i s t (.go 0) s' t' e ∧ t'.holdRank < t.holdRank := by
        intro s' r hp hlt
        refine ⟨_, _, _, .pauseCore p 0 s' r hh ho hp, ?_⟩
        rw [Thread.holdRank, (t.aside_pauseNext (c := i) r).2.1]
        exact Nat.add_lt_add_left hlt _
      rw [ho] at hgo
      cases p with
      | lock => cases hold
      | waiting since => cases hold
      | test =>
        refine hgo _ _ rfl ?_
        split <;> simp [Thread.pauseNext, Op.holdRank]
      | _ => exact hgo _ _ rfl (by simp [Thread.pauseNext, Op.holdRank])
    | wait j all p =>
      rw [ho] at hold
      have hgo : ∀ s' r, waitPause i j s p = some (s', r) →
          (M.waitNext t j all r).1.op.holdRank < t.op.holdRank →
            ∃ s' t' e, Step M i s t (.go 0) s' t' e ∧ t'.holdRank < t.holdRank := by
        intro s' r hp hlt
        refine ⟨_, _, _, .wait j all p 0 s' r hh ho hp, ?_⟩
        rw [Thread.holdRank, (t.aside_waitNext (c := i) M j all r).2.1]
        exact Nat.add_lt_add_left hlt _
      rw [ho] at hgo
      cases p with
      | lock => cases hold
      | test =>
        refine hgo _ _ rfl ?_
        split <;> cases all <;> simp [Machine.waitNext, Op.holdRank]
      | retry => exact hgo _ _ rfl (by cases all <;> simp [Machine.waitNext, Op.holdRank])
      | unlock =>
        refine hgo _ _ rfl ?_
        cases all with
        | false => simp [Machine.waitNext, Op.holdRank]
        | true =>
          rw [Machine.waitNext, waitFrom_holdRank]
          simp [Op.holdRank]
    | _ => rw [ho] at hold; cases hold

/-- The core has been released from its wait and is on its way out of `coremu_pause_core`, or
out of it. -/
def Op.Released (s : Shared) (j : ℕ) : Op → Prop
  | .pauseCore (.waiting since) => since < s.broadcasts
  | .pauseCore .setRun => True
  | .pauseCore .unlock | .idle => (s.core j).state = .run
  | _ => False

/-- It stays so if no broadcast is taken back, and its state is kept from the time on when it
has the mutex again. -/
theorem Op.Released.mono {op : Op} (h : op.Released s j) (hb : s.broadcasts ≤ s'.broadcasts)
    (hstate : op.holds = true ∨ op = .idle → (s'.core j).state = (s.core j).state) :
    op.Released s' j := by
  cases op with
  | pauseCore p =>
    cases p with
    | waiting since => exact lt_of_lt_of_le h hb
    | setRun => trivial
    | unlock => exact (hstate (.inl rfl)).trans h
    | _ => exact h.elim
  | idle => exact (hstate (.inr rfl)).trans h
  | _ => exact h.elim

/-- How many accesses it makes at most on its way, with those of its signal handler. -/
def Thread.outRank (t : Thread) : ℕ :=
  handlerRank t.handler + match t.op with
    | .pauseCore (.waiting _) => 3
    | .pauseCore .setRun => 2
    | .pauseCore .unlock => 1
    | _ => 0

/-- The mutex is free, or core `j` has it, or `holder`, who had it at the beginning. -/
structure Releasing (M : Machine) (j : ℕ) (holder : Option ℕ) (cfg : Config) : Prop where
  run : ∃ tr, AnyRun M tr cfg
  mutex : ∀ k, cfg.shared.pauseMutex = some k → k = j ∨ holder = some k
  op : (cfg.thread j).op.Released cfg.shared j

/-- How many accesses the holder of the mutex makes before core `j` gets it. -/
def waitRank (j : ℕ) (cfg : Config) : ℕ :=
  match cfg.shared.pauseMutex with
  | some k => if k = j then 0 else (cfg.thread k).holdRank
  | none => 0

theorem waitRank_of_ne (hm : cfg.shared.pauseMutex = some k) (hk : k ≠ j) :
    waitRank j cfg = (cfg.thread k).holdRank := by
  simp [waitRank, hm, hk]

theorem waitRank_eq_zero (hm : ∀ k, cfg.shared.pauseMutex = some k → k = j) :
    waitRank j cfg = 0 := by
  unfold waitRank
  split
  · next k h => rw [if_pos (hm k h)]
  · rfl

/-- The holder of the mutex gets closer to giving it back. -/
theorem Releasing.holder {holder : Option ℕ} (h : Releasing M j holder cfg)
    (hidle : (cfg.thread j).op ≠ .idle) (hm : cfg.shared.pauseMutex = some k) (hk : k ≠ j) :
    ∃ s' t' e, step M k cfg.shared (cfg.thread k) (.go 0) = some (s', t', e) ∧
      Releasing M j holder (cfg.after k s' t') ∧
      waitRank j (cfg.after k s' t') < waitRank j cfg := by
  obtain ⟨tr, hrun⟩ := h.run
  have hinv := hrun.pauseInv
  obtain ⟨s', t', e, hs, hlt⟩ := holder_step (M := M) (i := k) cfg.shared ((hinv.mutex k).mp hm)
  have hj : (cfg.after k s' t').thread j = cfg.thread j :=
    Interleave.Config.after_thread_of_ne _ _ _ (Ne.symm hk)
  have hmutex : s'.pauseMutex = some k ∨ s'.pauseMutex = none := by
    rcases step_mutex hs with ⟨hm', -⟩ | ⟨hnone, -⟩ | ⟨-, hm', -⟩
    · exact .inl (hm'.trans hm)
    · rw [hm] at hnone
      cases hnone
    · exact .inr hm'
  refine ⟨s', t', e, hs.eq_some, ⟨⟨_, .snoc hrun trivial hs.eq_some⟩, fun m hm' => ?_, ?_⟩, ?_⟩
  · rw [Interleave.Config.after_shared] at hm'
    rcases hmutex with hk' | hk'
    · rw [hk', Option.some.injEq] at hm'
      rw [← hm']
      exact h.mutex k hm
    · rw [hk'] at hm'
      cases hm'
  · -- core `j` has not got the mutex, so it still waits
    rw [hj]
    have hle : cfg.shared.broadcasts ≤ s'.broadcasts := by
      rcases step_broadcasts hs with hb | ⟨-, hb, -⟩ <;> omega
    refine h.op.mono hle ?_
    rintro (hheld | ho)
    · have hmj := (hinv.mutex j).mpr hheld
      rw [hm, Option.some.injEq] at hmj
      exact absurd hmj hk
    · exact absurd ho hidle
  · rw [waitRank_of_ne hm hk]
    rcases hmutex with hk' | hk'
    · rw [waitRank_of_ne (k := k) hk' hk, Interleave.Config.after_thread_self]
      exact hlt
    · have hfree : ∀ m, s'.pauseMutex = some m → m = j := by
        intro m hm'
        rw [hk'] at hm'
        cases hm'
      have hzero : waitRank j (cfg.after k s' t') = 0 := waitRank_eq_zero hfree
      rw [hzero]
      exact lt_of_le_of_lt (Nat.zero_le _) hlt

/-- A step of core `j` itself, while nobody else has the mutex. -/
theorem Releasing.next {holder : Option ℕ} (h : Releasing M j holder cfg)
    (hm : ∀ k, cfg.shared.pauseMutex = some k → k = j)
    (hs : Step M j cfg.shared (cfg.thread j) x s' t' e) (hop : t'.op.Released s' j) :
    Releasing M j holder (cfg.after j s' t') ∧ waitRank j (cfg.after j s' t') = 0 := by
  obtain ⟨tr, hrun⟩ := h.run
  have hm' : ∀ k, s'.pauseMutex = some k → k = j := by
    intro k hk
    rcases step_mutex hs with ⟨hsame, -⟩ | ⟨-, hself, -⟩ | ⟨-, hnone, -⟩
    · exact hm k (hsame ▸ hk)
    · rw [hself, Option.some.injEq] at hk
      exact hk.symm
    · rw [hnone] at hk
      cases hk
  refine ⟨⟨⟨_, .snoc hrun trivial hs.eq_some⟩, fun k hk => .inl (hm' k hk), ?_⟩,
    waitRank_eq_zero hm'⟩
  rw [Interleave.Config.after_thread_self]
  exact hop

/-- Core `j` gets closer to its return, if nobody else has the mutex. -/
theorem Releasing.self {holder : Option ℕ} (h : Releasing M j holder cfg)
    (hidle : (cfg.thread j).op ≠ .idle) (hm : ∀ k, cfg.shared.pauseMutex = some k → k = j) :
    ∃ s' t' e, step M j cfg.shared (cfg.thread j) (.go 0) = some (s', t', e) ∧
      Releasing M j holder (cfg.after j s' t') ∧ waitRank j (cfg.after j s' t') = 0 ∧
      t'.outRank < (cfg.thread j).outRank := by
  obtain ⟨tr, hrun⟩ := h.run
  have hinv := hrun.pauseInv
  have hgo : ∀ {s' t' e}, Step M j cfg.shared (cfg.thread j) (.go 0) s' t' e →
      t'.op.Released s' j → t'.outRank < (cfg.thread j).outRank →
        ∃ s' t' e, step M j cfg.shared (cfg.thread j) (.go 0) = some (s', t', e) ∧
          Releasing M j holder (cfg.after j s' t') ∧ waitRank j (cfg.after j s' t') = 0 ∧
            t'.outRank < (cfg.thread j).outRank := by
    intro s' t' e hs hop hlt
    obtain ⟨hnext, hzero⟩ := h.next hm hs hop
    exact ⟨s', t', e, hs.eq_some, hnext, hzero, hlt⟩
  cases hh : (cfg.thread j).handler with
  | some q =>
    refine hgo (.handler q 0 hh) ?_ ?_
    · -- the handler changes neither the state nor the broadcasts
      exact h.op.mono le_rfl fun _ => setCore_state _ (coreSignalHandler_state 0 _ q)
    · rw [Thread.outRank, Thread.outRank, hh]
      exact Nat.add_lt_add_right (handlerRank_step 0 _ q) _
  | none =>
    have hop := h.op
    cases ho : (cfg.thread j).op with
    | pauseCore p =>
      rw [ho] at hop
      cases p with
      | waiting since =>
        -- it does not have the mutex while it waits, so nobody has
        have hfree : cfg.shared.pauseMutex = none := by
          cases hmx : cfg.shared.pauseMutex with
          | none => rfl
          | some k =>
            obtain rfl := hm k hmx
            have := (hinv.mutex k).mp hmx
            rw [ho] at this
            cases this
        refine hgo (.pauseCore _ 0 _ _ hh ho (pauseCore_waiting.mpr ⟨hop, hfree, rfl, rfl⟩))
          trivial ?_
        simp [Thread.outRank, Thread.pauseNext, ho]
      | setRun =>
        refine hgo (.pauseCore _ 0 _ _ hh ho rfl) ?_ ?_
        · simp [Thread.pauseNext, Op.Released]
        · simp [Thread.outRank, Thread.pauseNext, ho]
      | unlock =>
        refine hgo (.pauseCore _ 0 _ _ hh ho rfl) hop ?_
        simp [Thread.outRank, Thread.pauseNext, ho]
      | _ => exact hop.elim
    | idle => exact absurd ho hidle
    | _ => rw [ho] at hop; exact hop.elim

/-- One of the two threads makes the next step. -/
theorem Releasing.step {holder : Option ℕ} (h : Releasing M j holder cfg)
    (hidle : (cfg.thread j).op ≠ .idle) : ∃ i x s' t' e, (i = j ∨ holder = some i) ∧
      (program M).step i cfg.shared (cfg.thread i) x = some (s', t', e) ∧
      Releasing M j holder (cfg.after i s' t') ∧
      waitRank j (cfg.after i s' t') + ((cfg.after i s' t').thread j).outRank <
        waitRank j cfg + (cfg.thread j).outRank := by
  by_cases hother : ∃ k, cfg.shared.pauseMutex = some k ∧ k ≠ j
  · obtain ⟨k, hk, hkj⟩ := hother
    obtain ⟨s', t', e, hs, hc', hlt⟩ := h.holder hidle hk hkj
    refine ⟨k, .go 0, s', t', e, h.mutex k hk, hs, hc', ?_⟩
    rw [Interleave.Config.after_thread_of_ne _ _ _ (Ne.symm hkj)]
    exact Nat.add_lt_add_right hlt _
  · have hm : ∀ k, cfg.shared.pauseMutex = some k → k = j := by
      intro k hk
      by_contra hne
      exact hother ⟨k, hk, hne⟩
    obtain ⟨s', t', e, hs, hc', hzero, hlt⟩ := h.self hidle hm
    refine ⟨j, .go 0, s', t', e, .inl rfl, hs, hc', ?_⟩
    rw [hzero, Interleave.Config.after_thread_self, Nat.zero_add]
    exact lt_of_lt_of_le hlt (Nat.le_add_left _ _)

theorem waitRank_le (j : ℕ) (cfg : Config) : waitRank j cfg ≤ 13 := by
  unfold waitRank
  split
  · split
    · exact Nat.zero_le _
    · exact Thread.holdRank_le _
  · exact Nat.zero_le _

theorem Thread.outRank_le (t : Thread) : t.outRank ≤ 13 := by
  have hh := handlerRank_le t.handler
  unfold Thread.outRank
  split <;> omega

/-- **After the restart a core can return** from `coremu_pause_core` and show `CM_STATE_RUN`: a
run of at most 26 steps leads there, of its own thread and of the thread that has
`pause_mutex` at that time. -/
theorem restart_releases (h : AnyRun M tr cfg)
    (hw : (cfg.thread j).op = .pauseCore (.waiting n)) (hn : n < cfg.shared.broadcasts) :
    ∃ tr' cfg', (program M).From (fun i => i = j ∨ cfg.shared.pauseMutex = some i) cfg tr' cfg' ∧
      tr'.length ≤ 26 ∧ (cfg'.thread j).op = .idle ∧ (cfg'.shared.core j).state = .run := by
  have hstart : Releasing M j cfg.shared.pauseMutex cfg := by
    refine ⟨⟨tr, h⟩, fun k hk => .inr hk, ?_⟩
    rw [hw]
    exact hn
  obtain ⟨tr', cfg', hrun, hlen, hrel, hidle⟩ := Interleave.Program.exists_from_of_rank
    (P := program M) (T := fun i => i = j ∨ cfg.shared.pauseMutex = some i)
    (I := Releasing M j cfg.shared.pauseMutex) (Q := fun c => (c.thread j).op = .idle)
    (fun c => waitRank j c + (c.thread j).outRank) (fun _ hc hidle => hc.step hidle) hstart
  refine ⟨tr', cfg', hrun, hlen.trans ?_, hidle, ?_⟩
  · exact Nat.add_le_add (waitRank_le j cfg) (Thread.outRank_le _)
  · have hop := hrel.op
    rw [hidle] at hop
    exact hop

/-- The broadcasts that had been made when the thread began to wait. -/
def Op.waitingSince : Op → Option ℕ
  | .pauseCore (.waiting since) => some since
  | _ => none

theorem Op.eq_of_waitingSince {op : Op} (h : op.waitingSince = some n) :
    op = .pauseCore (.waiting n) := by
  unfold Op.waitingSince at h
  split at h
  · cases h
    rfl
  · cases h

/-- Two cores are blocked, thread 2 restarts them, core 1 is first, and core 0 gets out after
it. -/
theorem restart_releases_second : ∃ tr cfg, AnyRun twoOnOne tr cfg ∧
    (cfg.thread 0).op = .pauseCore (.waiting 0) ∧ cfg.shared.pauseMutex = some 1 ∧
      ∃ tr' cfg', (program twoOnOne).From (fun i => i = 0 ∨ cfg.shared.pauseMutex = some i) cfg
        tr' cfg' ∧ (cfg'.thread 0).op = .idle ∧ (cfg'.shared.core 0).state = .run := by
  obtain ⟨tr, cfg, hr, ht⟩ : ∃ tr cfg, AnyRun twoOnOne tr cfg ∧
      decide ((cfg.thread 0).op.waitingSince = some 0 ∧ cfg.shared.pauseMutex = some 1 ∧
        cfg.shared.broadcasts = 1) = true :=
    Interleave.Program.exists_run_of_exec (P := program twoOnOne) (fun _ _ _ _ => true)
      (fun _ _ _ _ _ => trivial) started_start
      (pauses 0 ++ pauses 1 ++ [(2, .restartAllCores), (1, .go 0)])
      (fun _ cfg => decide ((cfg.thread 0).op.waitingSince = some 0 ∧
        cfg.shared.pauseMutex = some 1 ∧ cfg.shared.broadcasts = 1)) (by decide)
  obtain ⟨hop, hm, hb⟩ := of_decide_eq_true ht
  have hw := Op.eq_of_waitingSince hop
  obtain ⟨tr', cfg', hrun, -, hidle, hst⟩ := restart_releases hr hw (by omega)
  exact ⟨tr, cfg, hr, hw, hm, tr', cfg', hrun, hidle, hst⟩

end Coremu.Core

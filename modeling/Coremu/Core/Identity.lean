import Mathlib.Logic.Function.Basic
import Coremu.Lib.Interleave

/-!
# Which core a thread is

Every function of a core begins with `coremu_get_core_self`, which looks for the calling
thread in `cm_cores` and remembers what it has found in the thread-local `cm_core_self`.  What
it looks for is stored by somebody else: `pthread_create`, called by the main thread in
`coremu_run_all_cores`, starts a thread and stores its id in `core->thread`, in either order.
A thread that looks too early finds nothing; `coremu_wait_init` is there to wait.  A signal may
arrive while a thread is looking, and its handler begins to look as well, with the same
`cm_core_self`.

## Main definitions

* `Host`, `Shared`, `Thread` — the ids of the threads, and what is known of them.
* `runAllCores`, `getCoreSelf` — one step of each function.
* `step`, `program` — one step of a thread.
* `Inv` — what holds in every run.

## Main results

* `step_cases` — what a step can do.
* `coreSelf_own` — **a thread takes itself for no other core**, and after `coremu_wait_init`
  it finds its own.
* `coreSelf_returns` — **the search can be ended** by the thread itself, also with a signal on
  top.
-/

namespace Coremu.Identity

/-- The cores and the ids of the threads.  Threads below `smpCpus` are those of the cores, and
the next one is the main thread, which is also that of the hardware emulation. -/
structure Host where
  /-- `cm_smp_cpus` -/
  smpCpus : ℕ
  /-- `pthread_self()` of each thread -/
  pthreadSelf : ℕ → ℕ
  pthreadSelf_pos : ∀ i, 0 < pthreadSelf i
  pthreadSelf_inj : Function.Injective pthreadSelf

/-- What all threads see. -/
structure Shared where
  /-- `core->thread`; `coremu_init` has cleared it. -/
  thread : ℕ → ℕ
  /-- The threads of the cores that are running. -/
  started : ℕ → Bool
  /-- `hw_thrid` -/
  hwThrid : ℕ
  /-- `init_done` -/
  initDone : Bool

/-- The id of the thread of core `j` is stored. -/
def Shared.store (H : Host) (s : Shared) (j : ℕ) : Shared :=
  { s with thread := Function.update s.thread j (H.pthreadSelf j) }

/-- The thread of core `j` is started. -/
def Shared.launch (s : Shared) (j : ℕ) : Shared :=
  { s with started := Function.update s.started j true }

/-! ### `coremu_run_all_cores` -/

/-- Program points of `coremu_init` and `coremu_run_all_cores`. -/
inductive RunPc
  /-- `hw_thrid = (hw_thr_t) pthread_self();` -/
  | registerHwThr
  /-- `pthread_create(&cur->thread, …)` in the loop over the cores -/
  | create (core : ℕ)
  /-- Inside `pthread_create`, which has stored the id, or started the thread. -/
  | created (core : ℕ) (stored : Bool)
  /-- `init_done = true;` -/
  | setInitDone
  deriving DecidableEq, Repr

/-- One step of `coremu_init` and `coremu_run_all_cores` by thread `i`; `first` says whether
`pthread_create` stores the id before it starts the thread. -/
def runAllCores (H : Host) (i : ℕ) (s : Shared) (first : Bool) : RunPc → Shared × Option RunPc
  | .registerHwThr => ({ s with hwThrid := H.pthreadSelf i }, some (.create 0))
  | .create core =>
      if core < H.smpCpus then
        (if first then s.store H core else s.launch core, some (.created core first))
      else (s, some .setInitDone)
  | .created core stored =>
      (if stored then s.launch core else s.store H core, some (.create (core + 1)))
  | .setInitDone => ({ s with initDone := true }, none)

/-! ### `coremu_get_core_self` -/

/-- Program points of `coremu_get_core_self`. -/
inductive SelfPc
  /-- `if (pthread_self() == coremu_get_hw_id())` in `coremu_assert_core_thr` -/
  | assertCoreThr
  /-- `if (cm_core_self == NULL)` -/
  | test
  /-- `if (core->thread == pthread_self())` in the loop over the cores -/
  | scan (core : ℕ)
  /-- `return cm_core_self;` -/
  | ret
  deriving DecidableEq, Repr

/-- What comes next. -/
inductive Next
  | goto (p : SelfPc)
  | ret
  /-- The assertion has failed. -/
  | abort
  deriving DecidableEq, Repr

/-- One step of `coremu_get_core_self` by thread `i`, with its `cm_core_self`. -/
def getCoreSelf (H : Host) (i : ℕ) (s : Shared) (self : Option ℕ) : SelfPc → Option ℕ × Next
  | .assertCoreThr => (self, if H.pthreadSelf i = s.hwThrid then .abort else .goto .test)
  | .test => (self, .goto (if self = none then .scan 0 else .ret))
  | .scan core =>
      if core < H.smpCpus then
        if s.thread core = H.pthreadSelf i then (some core, .goto .ret)
        else (self, .goto (.scan (core + 1)))
      else (self, .goto .ret)
  | .ret => (self, .ret)

/-! ### Threads -/

/-- Where a thread stands. -/
inductive Pc
  | idle
  | run (p : RunPc)
  /-- `while (!init_done)` in `coremu_wait_init` -/
  | waitInit
  /-- `nanosleep(&tsp, NULL);` -/
  | nanosleep
  | self (p : SelfPc)
  /-- An assertion has failed. -/
  | aborted
  deriving DecidableEq, Repr

/-- A thread. -/
structure Thread where
  pc : Pc
  /-- The `coremu_get_core_self` of the signal handler, if that is running. -/
  handler : Option SelfPc
  /-- `cm_core_self` -/
  cmCoreSelf : Option ℕ
  deriving DecidableEq, Repr

/-- What the code leaves open at a step. -/
inductive Choice
  /-- A signal is delivered. -/
  | signal
  /-- The thread calls `coremu_wait_init()`. -/
  | waitInit
  /-- The thread calls `coremu_get_core_self()`. -/
  | getCoreSelf
  /-- `pthread_create` stores the id first, if it is called. -/
  | go (first : Bool)
  deriving DecidableEq, Repr

/-- What a step shows. -/
inductive Event
  /-- `coremu_get_core_self` returns this. -/
  | self (r : Option ℕ)
  /-- `coremu_wait_init` returns. -/
  | waited
  /-- An assertion fails. -/
  | abort
  /-- Any other access. -/
  | tau
  deriving DecidableEq, Repr

/-- The thread after a step of the `coremu_get_core_self` that it has called. -/
def Thread.inCall (t : Thread) : Option ℕ × Next → Thread × Event
  | (self, .goto p) => ({ t with cmCoreSelf := self, pc := .self p }, .tau)
  | (self, .ret) => ({ t with cmCoreSelf := self, pc := .idle }, .self self)
  | (self, .abort) => ({ t with cmCoreSelf := self, pc := .aborted }, .abort)

/-- The thread after a step of the `coremu_get_core_self` of its signal handler. -/
def Thread.inHandler (t : Thread) : Option ℕ × Next → Thread × Event
  | (self, .goto p) => ({ t with cmCoreSelf := self, handler := some p }, .tau)
  | (self, .ret) => ({ t with cmCoreSelf := self, handler := none }, .self self)
  | (self, .abort) => ({ t with cmCoreSelf := self, handler := none, pc := .aborted }, .abort)

/-- The thread after a step of `coremu_run_all_cores`. -/
def Thread.inRun (t : Thread) : Option RunPc → Thread
  | some p => { t with pc := .run p }
  | none => { t with pc := .idle }

/-- One step of thread `i`.  The thread of a core makes none before it is started, and signals
are sent to the threads of the cores only. -/
def step (H : Host) (i : ℕ) (s : Shared) (t : Thread) (x : Choice) :
    Option (Shared × Thread × Event) :=
  if i < H.smpCpus → s.started i = true then
    match t.handler, x with
    | some p, .go _ => some (s, t.inHandler (getCoreSelf H i s t.cmCoreSelf p))
    | some _, _ => none
    | none, .signal =>
        if i < H.smpCpus ∧ t.pc ≠ .aborted then
          some (s, { t with handler := some .assertCoreThr }, .tau)
        else none
    | none, .waitInit => if t.pc = .idle then some (s, { t with pc := .waitInit }, .tau) else none
    | none, .getCoreSelf =>
        if t.pc = .idle then some (s, { t with pc := .self .assertCoreThr }, .tau) else none
    | none, .go first =>
        match t.pc with
        | .run p =>
            some ((runAllCores H i s first p).1, t.inRun (runAllCores H i s first p).2, .tau)
        | .waitInit =>
            if s.initDone then some (s, { t with pc := .idle }, .waited)
            else some (s, { t with pc := .nanosleep }, .tau)
        | .nanosleep => some (s, { t with pc := .waitInit }, .tau)
        | .self p => some (s, t.inCall (getCoreSelf H i s t.cmCoreSelf p))
        | .idle | .aborted => none
  else none

/-- The threads, numbered without bound. -/
def program (H : Host) : Interleave.Program ℕ Shared Thread Choice Event where
  step i s t x := step H i s t x

/-- The state of all threads. -/
abbrev Config := Interleave.Config ℕ Shared Thread

/-- The main thread is in `coremu_init`. -/
def start (H : Host) : Config where
  shared := ⟨fun _ => 0, fun _ => false, 0, false⟩
  thread i := ⟨if i = H.smpCpus then .run .registerHwThr else .idle, none, none⟩

/-- Every run begins here. -/
def Started (H : Host) (cfg : Config) : Prop := cfg = start H

theorem started_start (H : Host) : Started H (start H) := rfl

/-- The runs of a host. -/
abbrev AnyRun (H : Host) := (program H).Run (Started H) fun _ _ _ _ => True

/-! ### What a step can do -/

/-- The steps of thread `i`. -/
inductive Step (H : Host) (i : ℕ) (s : Shared) (t : Thread) :
    Choice → Shared → Thread → Event → Prop
  | handler (p : SelfPc) (first : Bool) : t.handler = some p →
      Step H i s t (.go first) s (t.inHandler (getCoreSelf H i s t.cmCoreSelf p)).1
        (t.inHandler (getCoreSelf H i s t.cmCoreSelf p)).2
  | signal : t.handler = none → i < H.smpCpus → t.pc ≠ .aborted →
      Step H i s t .signal s { t with handler := some .assertCoreThr } .tau
  | callWait : t.handler = none → t.pc = .idle →
      Step H i s t .waitInit s { t with pc := .waitInit } .tau
  | callSelf : t.handler = none → t.pc = .idle →
      Step H i s t .getCoreSelf s { t with pc := .self .assertCoreThr } .tau
  | run (p : RunPc) (first : Bool) : t.handler = none → t.pc = .run p →
      Step H i s t (.go first) (runAllCores H i s first p).1
        (t.inRun (runAllCores H i s first p).2) .tau
  | waited (first : Bool) : t.handler = none → t.pc = .waitInit → s.initDone = true →
      Step H i s t (.go first) s { t with pc := .idle } .waited
  | sleep (first : Bool) : t.handler = none → t.pc = .waitInit → s.initDone = false →
      Step H i s t (.go first) s { t with pc := .nanosleep } .tau
  | wake (first : Bool) : t.handler = none → t.pc = .nanosleep →
      Step H i s t (.go first) s { t with pc := .waitInit } .tau
  | self (p : SelfPc) (first : Bool) : t.handler = none → t.pc = .self p →
      Step H i s t (.go first) s (t.inCall (getCoreSelf H i s t.cmCoreSelf p)).1
        (t.inCall (getCoreSelf H i s t.cmCoreSelf p)).2

section Inversion

variable {H : Host} {i : ℕ} {s s' : Shared} {t t' : Thread} {x : Choice} {e : Event}

/-- **What a step can do**, by a thread that has been started. -/
theorem step_cases (hs : step H i s t x = some (s', t', e)) :
    (i < H.smpCpus → s.started i = true) ∧ Step H i s t x s' t' e := by
  obtain ⟨hstart, hgo⟩ := Option.ite_none_right_eq_some.mp hs
  refine ⟨hstart, ?_⟩
  obtain ⟨pc, handler, self⟩ := t
  cases handler with
  | some p =>
    cases x with
    | go first =>
      have hstep := Step.handler (H := H) (i := i) (s := s) (t := ⟨pc, some p, self⟩) p first rfl
      obtain ⟨rfl, hpair⟩ := Prod.mk.inj (Option.some.inj hgo)
      rw [hpair] at hstep
      exact hstep
    | _ => cases hgo
  | none =>
    cases x with
    | signal =>
      obtain ⟨⟨hi, hp⟩, hgo⟩ := Option.ite_none_right_eq_some.mp hgo
      cases hgo
      exact .signal rfl hi hp
    | waitInit =>
      obtain ⟨hp, hgo⟩ := Option.ite_none_right_eq_some.mp hgo
      cases hgo
      exact .callWait rfl hp
    | getCoreSelf =>
      obtain ⟨hp, hgo⟩ := Option.ite_none_right_eq_some.mp hgo
      cases hgo
      exact .callSelf rfl hp
    | go first =>
      cases pc with
      | run p =>
        cases hgo
        exact .run p first rfl rfl
      | waitInit =>
        cases hd : s.initDone with
        | true =>
          simp only [hd, if_true] at hgo
          cases hgo
          exact .waited first rfl rfl hd
        | false =>
          simp only [hd, Bool.false_eq_true, if_false] at hgo
          cases hgo
          exact .sleep first rfl rfl hd
      | nanosleep =>
        cases hgo
        exact .wake first rfl rfl
      | self p =>
        have hstep := Step.self (H := H) (i := i) (s := s) (t := ⟨.self p, none, self⟩) p first
          rfl rfl
        obtain ⟨rfl, hpair⟩ := Prod.mk.inj (Option.some.inj hgo)
        rw [hpair] at hstep
        exact hstep
      | idle | aborted => cases hgo

end Inversion

/-! ### What holds in every run -/

/-- The id of the thread of core `j` has been stored. -/
def Stored (H : Host) (s : Shared) (j : ℕ) : Prop := s.thread j = H.pthreadSelf j

/-- What holds of the shared state. -/
structure SharedInv (H : Host) (s : Shared) : Prop where
  thread : ∀ j, s.thread j = 0 ∨ Stored H s j
  hwThrid : s.hwThrid = 0 ∨ s.hwThrid = H.pthreadSelf H.smpCpus
  done : s.initDone = true → ∀ j < H.smpCpus, Stored H s j

/-- The ids that have been stored when the main thread is here. -/
def RunPc.Ok (H : Host) (s : Shared) : RunPc → Prop
  | .registerHwThr => True
  | .create core => ∀ j < core, Stored H s j
  | .created core stored => (∀ j < core, Stored H s j) ∧ (stored = true → Stored H s core)
  | .setInitDone => ∀ j < H.smpCpus, Stored H s j

/-- A search that has not passed core `i` yet, or has found it. -/
def SelfPc.Found (i : ℕ) (self : Option ℕ) : SelfPc → Prop
  | .scan core => self = some i ∨ core ≤ i
  | .ret => self = some i
  | .assertCoreThr | .test => True

/-- What holds of thread `i`. -/
structure ThreadInv (H : Host) (s : Shared) (i : ℕ) (t : Thread) : Prop where
  run : ∀ p, t.pc = .run p → i = H.smpCpus ∧ p.Ok H s
  self : t.cmCoreSelf = none ∨ t.cmCoreSelf = some i ∧ i < H.smpCpus

/-- What holds of thread `i` once it has waited. -/
structure Waited (H : Host) (s : Shared) (i : ℕ) (t : Thread) : Prop where
  done : s.initDone = true
  started : i < H.smpCpus → s.started i = true
  handler : i < H.smpCpus → ∀ p, t.handler = some p → p.Found i t.cmCoreSelf
  call : i < H.smpCpus → ∀ p, t.pc = .self p → p.Found i t.cmCoreSelf

/-- What holds in every run. -/
structure Inv (H : Host) (tr : List (ℕ × Event)) (cfg : Config) : Prop where
  shared : SharedInv H cfg.shared
  thread : ∀ i, ThreadInv H cfg.shared i (cfg.thread i)
  waited : ∀ i, (i, .waited) ∈ tr → Waited H cfg.shared i (cfg.thread i)

variable {H : Host} {i j : ℕ} {s s' : Shared} {t t' : Thread} {x : Choice} {e : Event}
  {self : Option ℕ} {p : SelfPc} {cfg : Config} {tr : List (ℕ × Event)}

/-! ### The search -/

/-- Nobody else has the id of thread `i`. -/
theorem SharedInv.thread_eq (h : SharedInv H s) {core : ℕ}
    (hc : s.thread core = H.pthreadSelf i) : core = i := by
  rcases h.thread core with hz | hst
  · have := H.pthreadSelf_pos i
    omega
  · exact H.pthreadSelf_inj (hst.symm.trans hc)

/-- A thread finds itself or nothing. -/
theorem getCoreSelf_self (h : SharedInv H s) (self : Option ℕ) (p : SelfPc) :
    (getCoreSelf H i s self p).1 = self ∨
      (getCoreSelf H i s self p).1 = some i ∧ i < H.smpCpus := by
  cases p with
  | scan core =>
    simp only [getCoreSelf]
    split
    · next hlt =>
      split
      · next heq =>
        obtain rfl := h.thread_eq heq
        exact .inr ⟨rfl, hlt⟩
      · exact .inl rfl
    · exact .inl rfl
  | _ => exact .inl rfl

/-- What has been found stays found. -/
theorem getCoreSelf_keep (h : SharedInv H s) (hself : self = some i) (p : SelfPc) :
    (getCoreSelf H i s self p).1 = some i := by
  rcases getCoreSelf_self h self p with hk | ⟨hk, -⟩
  · exact hk.trans hself
  · exact hk

/-- A search for core `i` does not pass it, once the id is stored. -/
theorem getCoreSelf_found (h : SharedInv H s) (hi : i < H.smpCpus) (hst : Stored H s i)
    (hp : p.Found i self) (hself : self = none ∨ self = some i) :
    (∀ p', (getCoreSelf H i s self p).2 = .goto p' →
        p'.Found i (getCoreSelf H i s self p).1) ∧
      ((getCoreSelf H i s self p).2 = .ret → (getCoreSelf H i s self p).1 = some i) := by
  cases p with
  | assertCoreThr =>
    simp only [getCoreSelf]
    split
    · exact ⟨by simp, by simp⟩
    · refine ⟨fun p' hp' => ?_, by simp⟩
      cases hp'
      trivial
  | test =>
    refine ⟨fun p' hp' => ?_, nofun⟩
    cases hp'
    rcases hself with rfl | rfl
    · exact .inr (Nat.zero_le i)
    · exact rfl
  | scan core =>
    simp only [getCoreSelf]
    split
    · split
      · next heq =>
        refine ⟨fun p' hp' => ?_, by simp⟩
        cases hp'
        exact congrArg some (h.thread_eq heq)
      · next hne =>
        refine ⟨fun p' hp' => ?_, by simp⟩
        cases hp'
        rcases hp with hfound | hle
        · exact .inl hfound
        · have hci : core ≠ i := by
            rintro rfl
            exact hne hst
          exact .inr (Nat.lt_of_le_of_ne hle hci)
    · next hge =>
      refine ⟨fun p' hp' => ?_, by simp⟩
      cases hp'
      rcases hp with hfound | hle
      · exact hfound
      · exact absurd (Nat.lt_of_le_of_lt hle hi) hge
  | ret => exact ⟨nofun, fun _ => hp⟩

/-- Only the main thread fails the assertion. -/
theorem getCoreSelf_abort (h : SharedInv H s)
    (ha : (getCoreSelf H i s self p).2 = .abort) : i = H.smpCpus := by
  cases p with
  | assertCoreThr =>
    simp only [getCoreSelf] at ha
    split at ha
    · next heq =>
      rcases h.hwThrid with hz | hhw
      · have := H.pthreadSelf_pos i
        omega
      · exact H.pthreadSelf_inj (heq.trans hhw)
    · cases ha
  | test => cases ha
  | scan core =>
    simp only [getCoreSelf] at ha
    split at ha
    · split at ha <;> cases ha
    · cases ha
  | ret => cases ha

/-- Stored ids, running threads and `init_done` stay. -/
structure Grows (H : Host) (s s' : Shared) : Prop where
  stored : ∀ j, Stored H s j → Stored H s' j
  started : ∀ j, s.started j = true → s'.started j = true
  done : s.initDone = true → s'.initDone = true

theorem Grows.refl (H : Host) (s : Shared) : Grows H s s := ⟨fun _ => id, fun _ => id, id⟩

theorem stored_store (H : Host) (s : Shared) (j : ℕ) : Stored H (s.store H j) j :=
  Function.update_self _ _ _

theorem Grows.store (H : Host) (s : Shared) (j : ℕ) : Grows H s (s.store H j) := by
  refine ⟨fun k hk => ?_, fun _ => id, id⟩
  by_cases hkj : k = j
  · rw [hkj]
    exact stored_store H s j
  · exact (Function.update_of_ne hkj _ _).trans hk

theorem Grows.launch (H : Host) (s : Shared) (j : ℕ) : Grows H s (s.launch j) := by
  refine ⟨fun _ => id, fun k hk => ?_, id⟩
  by_cases hkj : k = j
  · rw [hkj]
    exact Function.update_self _ _ _
  · exact (Function.update_of_ne hkj _ _).trans hk

theorem SharedInv.store (h : SharedInv H s) (j : ℕ) : SharedInv H (s.store H j) where
  thread k := by
    by_cases hkj : k = j
    · rw [hkj]
      exact .inr (stored_store H s j)
    · refine (h.thread k).imp (fun hz => ?_) ((Grows.store H s j).stored k)
      exact (Function.update_of_ne hkj _ _).trans hz
  hwThrid := h.hwThrid
  done hd k hk := (Grows.store H s j).stored k (h.done hd k hk)

theorem SharedInv.launch (h : SharedInv H s) (j : ℕ) : SharedInv H (s.launch j) :=
  ⟨h.thread, h.hwThrid, h.done⟩

/-- A step of the main thread stores what it has to. -/
theorem runAllCores_ok (h : SharedInv H s) (first : Bool) {p : RunPc} (hp : p.Ok H s) :
    SharedInv H (runAllCores H H.smpCpus s first p).1 ∧
      Grows H s (runAllCores H H.smpCpus s first p).1 ∧
      ∀ p', (runAllCores H H.smpCpus s first p).2 = some p' →
        p'.Ok H (runAllCores H H.smpCpus s first p).1 := by
  -- with core `k`, all cores below the next one are done
  have hsucc : ∀ {s' : Shared} {k : ℕ}, Grows H s s' → (∀ j < k, Stored H s j) → Stored H s' k →
      ∀ j < k + 1, Stored H s' j := by
    intro s' k hg hlt hk j hj
    rcases Nat.lt_succ_iff_lt_or_eq.mp hj with hj | rfl
    · exact hg.stored j (hlt j hj)
    · exact hk
  cases p with
  | registerHwThr =>
    refine ⟨⟨h.thread, .inr rfl, h.done⟩, ⟨fun _ => id, fun _ => id, id⟩, fun p' hp' => ?_⟩
    cases hp'
    exact fun j hj => absurd hj (Nat.not_lt_zero j)
  | create core =>
    simp only [runAllCores]
    split
    · cases first with
      | true =>
        refine ⟨h.store core, .store H s core, fun p' hp' => ?_⟩
        cases hp'
        refine ⟨fun j hj => ?_, fun _ => stored_store H s core⟩
        exact (Grows.store H s core).stored j (hp j hj)
      | false =>
        refine ⟨h.launch core, .launch H s core, fun p' hp' => ?_⟩
        cases hp'
        exact ⟨hp, nofun⟩
    · next hge =>
      refine ⟨h, .refl H s, fun p' hp' => ?_⟩
      cases hp'
      exact fun j hj => hp j (Nat.lt_of_lt_of_le hj (Nat.le_of_not_lt hge))
  | created core stored =>
    obtain ⟨hlt, hcore⟩ := hp
    cases stored with
    | true =>
      refine ⟨h.launch core, .launch H s core, fun p' hp' => ?_⟩
      cases hp'
      exact hsucc (.launch H s core) hlt (hcore rfl)
    | false =>
      refine ⟨h.store core, .store H s core, fun p' hp' => ?_⟩
      cases hp'
      exact hsucc (.store H s core) hlt (stored_store H s core)
  | setInitDone =>
    exact ⟨⟨h.thread, h.hwThrid, fun _ => hp⟩, ⟨fun _ => id, fun _ => id, fun _ => rfl⟩, nofun⟩

/-! ### Steps and runs -/

theorem RunPc.Ok.grows {p : RunPc} (h : p.Ok H s) (hg : Grows H s s') : p.Ok H s' := by
  cases p with
  | registerHwThr => trivial
  | create core | setInitDone => exact fun j hj => hg.stored j (h j hj)
  | created core stored =>
    exact ⟨fun j hj => hg.stored j (h.1 j hj), fun hst => hg.stored core (h.2 hst)⟩

theorem ThreadInv.grows (h : ThreadInv H s i t) (hg : Grows H s s') : ThreadInv H s' i t where
  run p hp := ⟨(h.run p hp).1, (h.run p hp).2.grows hg⟩
  self := h.self

theorem Waited.grows (h : Waited H s i t) (hg : Grows H s s') : Waited H s' i t :=
  ⟨hg.done h.done, fun hi => hg.started i (h.started hi), h.handler, h.call⟩

/-- A step keeps the shared invariant, and what has been stored. -/
theorem step_shared (h : SharedInv H s) (ht : ThreadInv H s i t) (hs : Step H i s t x s' t' e) :
    SharedInv H s' ∧ Grows H s s' := by
  cases hs with
  | run p first hh hp =>
    obtain ⟨rfl, hok⟩ := ht.run p hp
    obtain ⟨hinv, hg, -⟩ := runAllCores_ok h first hok
    exact ⟨hinv, hg⟩
  | _ => exact ⟨h, .refl H s⟩

/-- A step keeps the invariant of its thread. -/
theorem step_thread (h : SharedInv H s) (ht : ThreadInv H s i t) (hs : Step H i s t x s' t' e) :
    ThreadInv H s' i t' := by
  have hself : ∀ p, (getCoreSelf H i s t.cmCoreSelf p).1 = none ∨
      (getCoreSelf H i s t.cmCoreSelf p).1 = some i ∧ i < H.smpCpus := by
    intro p
    rcases getCoreSelf_self (i := i) h t.cmCoreSelf p with hk | hk
    · rw [hk]
      exact ht.self
    · exact .inr hk
  cases hs with
  | handler p first hh =>
    have hp := hself p
    rcases hr : getCoreSelf H i s t.cmCoreSelf p with ⟨self', p' | _ | _⟩
    all_goals rw [hr] at hp
    · exact ⟨ht.run, hp⟩
    · exact ⟨ht.run, hp⟩
    · exact ⟨nofun, hp⟩
  | self p first hh hpc =>
    have hp := hself p
    rcases hr : getCoreSelf H i s t.cmCoreSelf p with ⟨self', p' | _ | _⟩
    all_goals
      rw [hr] at hp
      exact ⟨nofun, hp⟩
  | run p first hh hp =>
    obtain ⟨rfl, hok⟩ := ht.run p hp
    obtain ⟨-, -, hnext⟩ := runAllCores_ok h first hok
    cases hr : (runAllCores H H.smpCpus s first p).2 with
    | none => exact ⟨nofun, ht.self⟩
    | some p' =>
      refine ⟨fun q hq => ?_, ht.self⟩
      cases hq
      exact ⟨rfl, hnext p' hr⟩
  | signal hh hi hp => exact ⟨ht.run, ht.self⟩
  | _ => exact ⟨nofun, ht.self⟩

/-- A thread that has waited goes on with its search. -/
theorem step_waited (h : SharedInv H s) (ht : ThreadInv H s i t) (hw : Waited H s i t)
    (hs : Step H i s t x s' t' e) : Waited H s' i t' := by
  have hself : t.cmCoreSelf = none ∨ t.cmCoreSelf = some i := ht.self.imp_right And.left
  cases hs with
  | handler p first hh =>
    have hfound := fun hi => getCoreSelf_found h hi (h.done hw.done i hi) (hw.handler hi p hh) hself
    -- what the handler has found, the call under it has found, too
    have hcall : i < H.smpCpus → ∀ q, t.pc = .self q →
        q.Found i (getCoreSelf H i s t.cmCoreSelf p).1 := by
      intro hi q hq
      have hold := hw.call hi q hq
      cases q with
      | scan core =>
        exact hold.imp (fun hs => getCoreSelf_keep h hs p) id
      | ret => exact getCoreSelf_keep h hold p
      | _ => trivial
    rcases hr : getCoreSelf H i s t.cmCoreSelf p with ⟨self', p' | _ | _⟩
    all_goals rw [hr] at hfound hcall
    · refine ⟨hw.done, hw.started, fun hi q hq => ?_, hcall⟩
      cases hq
      exact (hfound hi).1 p' rfl
    · exact ⟨hw.done, hw.started, fun _ => nofun, hcall⟩
    · exact ⟨hw.done, hw.started, fun _ => nofun, fun _ => nofun⟩
  | self p first hh hpc =>
    have hfound := fun hi => getCoreSelf_found h hi (h.done hw.done i hi) (hw.call hi p hpc) hself
    have hnone : ∀ {q : SelfPc} {P : Prop}, t.handler = some q → P := by
      intro q P hq
      rw [hh] at hq
      cases hq
    rcases hr : getCoreSelf H i s t.cmCoreSelf p with ⟨self', p' | _ | _⟩
    all_goals rw [hr] at hfound
    · refine ⟨hw.done, hw.started, fun _ q hq => hnone hq, fun hi q hq => ?_⟩
      cases hq
      exact (hfound hi).1 p' rfl
    · exact ⟨hw.done, hw.started, fun _ q hq => hnone hq, fun _ => nofun⟩
    · exact ⟨hw.done, hw.started, fun _ q hq => hnone hq, fun _ => nofun⟩
  | signal hh hi hp =>
    refine ⟨hw.done, hw.started, fun _ q hq => ?_, hw.call⟩
    cases hq
    trivial
  | callSelf hh hp =>
    refine ⟨hw.done, hw.started, hw.handler, fun _ q hq => ?_⟩
    cases hq
    trivial
  | run p first hh hp =>
    obtain ⟨rfl, hok⟩ := ht.run p hp
    obtain ⟨-, hg, -⟩ := runAllCores_ok h first hok
    have hmain : ∀ {P : Prop}, H.smpCpus < H.smpCpus → P := fun hi => absurd hi (Nat.lt_irrefl _)
    exact ⟨hg.done hw.done, hmain, hmain, hmain⟩
  | _ => exact ⟨hw.done, hw.started, hw.handler, fun _ => nofun⟩

/-- `coremu_wait_init` returns when `init_done` is set. -/
theorem waited_of_step (hstart : i < H.smpCpus → s.started i = true)
    (hs : Step H i s t x s' t' .waited) : Waited H s' i t' := by
  generalize hE : Event.waited = E at hs
  cases hs with
  | waited first hh hp hd =>
    refine ⟨hd, hstart, fun _ q hq => ?_, fun _ => nofun⟩
    rw [show t.handler = none from hh] at hq
    cases hq
  | handler p first hh =>
    rcases hr : getCoreSelf H i s t.cmCoreSelf p with ⟨self', p' | _ | _⟩ <;>
      (rw [hr] at hE; cases hE)
  | self p first hh hpc =>
    rcases hr : getCoreSelf H i s t.cmCoreSelf p with ⟨self', p' | _ | _⟩ <;>
      (rw [hr] at hE; cases hE)
  | _ => cases hE

theorem inv_start (H : Host) : Inv H [] (start H) where
  shared := ⟨fun _ => .inl rfl, .inl rfl, nofun⟩
  thread i := by
    refine ⟨fun p hp => ?_, .inl rfl⟩
    by_cases hi : i = H.smpCpus
    · have hpc : ((start H).thread i).pc = .run .registerHwThr := if_pos hi
      rw [hpc] at hp
      cases hp
      exact ⟨hi, trivial⟩
    · have hpc : ((start H).thread i).pc = .idle := if_neg hi
      rw [hpc] at hp
      cases hp
  waited _ h := absurd h List.not_mem_nil

theorem Inv.step (h : Inv H tr cfg) (hstart : i < H.smpCpus → cfg.shared.started i = true)
    (hs : Step H i cfg.shared (cfg.thread i) x s' t' e) :
    Inv H (tr ++ [(i, e)]) (cfg.after i s' t') := by
  obtain ⟨hinv, hg⟩ := step_shared h.shared (h.thread i) hs
  refine ⟨hinv, ?_, fun j hj => ?_⟩
  · exact Interleave.Config.forall_after (T := fun j t => ThreadInv H s' j t)
      (step_thread h.shared (h.thread i) hs) fun j _ => (h.thread j).grows hg
  · rw [List.mem_append, List.mem_singleton] at hj
    by_cases hji : j = i
    · subst hji
      rw [Interleave.Config.after_thread_self]
      rcases hj with hold | hnew
      · exact step_waited h.shared (h.thread j) (h.waited j hold) hs
      · cases hnew
        exact waited_of_step hstart hs
    · rw [Interleave.Config.after_thread_of_ne _ _ _ hji]
      rcases hj with hold | hnew
      · exact (h.waited j hold).grows hg
      · exact absurd (congrArg Prod.fst hnew) hji

theorem AnyRun.inv (h : AnyRun H tr cfg) : Inv H tr cfg := by
  refine Interleave.Program.Run.induct (J := Inv H) ?_ ?_ h
  · rintro _ rfl
    exact inv_start H
  · intro tr cfg i x s' t' e hinv _ hs
    obtain ⟨hstart, hstep⟩ := step_cases hs
    exact hinv.step hstart hstep

/-! ### What the search answers -/

/-- The answer `e` of thread `i` after the trace `tr` is right. -/
structure AnswerOk (H : Host) (tr : List (ℕ × Event)) (i : ℕ) (e : Event) : Prop where
  own : ∀ r, e = .self r → r = none ∨ r = some i ∧ i < H.smpCpus
  late : ∀ r, e = .self r → i < H.smpCpus → (i, .waited) ∈ tr → r = some i
  abort : e = .abort → i = H.smpCpus

theorem Inv.answer (h : Inv H tr cfg) (hs : Step H i cfg.shared (cfg.thread i) x s' t' e) :
    AnswerOk H tr i e := by
  have ht := h.thread i
  -- an answer of either search is right
  have hsearch : ∀ p, (i < H.smpCpus → (i, .waited) ∈ tr →
      p.Found i (cfg.thread i).cmCoreSelf) → ∀ self' next,
        getCoreSelf H i cfg.shared (cfg.thread i).cmCoreSelf p = (self', next) →
          (next = .ret → AnswerOk H tr i (.self self')) ∧
            (next = .abort → AnswerOk H tr i .abort) := by
    intro p hp self' next hr
    constructor
    · rintro rfl
      refine ⟨?_, ?_, nofun⟩
      · rintro r ⟨⟩
        have hown := getCoreSelf_self (i := i) h.shared (cfg.thread i).cmCoreSelf p
        rw [hr] at hown
        rcases hown with hk | hk
        · rw [show self' = _ from hk]
          exact ht.self
        · exact .inr hk
      · rintro r ⟨⟩ hi hw
        obtain ⟨-, hret⟩ := getCoreSelf_found h.shared hi
          (h.shared.done (h.waited i hw).done i hi) (hp hi hw) (ht.self.imp_right And.left)
        rw [hr] at hret
        exact hret rfl
    · rintro rfl
      refine ⟨nofun, nofun, fun _ => ?_⟩
      exact getCoreSelf_abort h.shared (congrArg Prod.snd hr)
  have htau : AnswerOk H tr i .tau := ⟨nofun, nofun, nofun⟩
  cases hs with
  | handler p first hh =>
    have hp := hsearch p fun hi hw => (h.waited i hw).handler hi p hh
    rcases hr : getCoreSelf H i cfg.shared (cfg.thread i).cmCoreSelf p with ⟨self', p' | _ | _⟩
    · exact htau
    · exact (hp _ _ hr).1 rfl
    · exact (hp _ _ hr).2 rfl
  | self p first hh hpc =>
    have hp := hsearch p fun hi hw => (h.waited i hw).call hi p hpc
    rcases hr : getCoreSelf H i cfg.shared (cfg.thread i).cmCoreSelf p with ⟨self', p' | _ | _⟩
    · exact htau
    · exact (hp _ _ hr).1 rfl
    · exact (hp _ _ hr).2 rfl
  | waited first hh hp hd => exact ⟨nofun, nofun, nofun⟩
  | _ => exact htau

theorem AnyRun.answers (h : AnyRun H tr cfg) {pre post : List (ℕ × Event)}
    (htr : tr = pre ++ (i, e) :: post) : AnswerOk H pre i e := by
  induction h generalizing post with
  | nil _ => simp at htr
  | snoc hrun _ hs ih =>
    rcases Interleave.concat_eq_cases htr with ⟨heq, rfl⟩ | ⟨post', rfl, htr'⟩
    · cases heq
      obtain rfl := (List.append_inj' htr rfl).1
      exact (AnyRun.inv hrun).answer (step_cases hs).2
    · exact ih htr'

/-- **A thread takes itself for no other core**: `coremu_get_core_self` returns the core of
the calling thread or nothing; it returns the core once the thread has been through
`coremu_wait_init`, and its assertion fails for the main thread only. -/
theorem coreSelf_own (h : AnyRun H tr cfg) {pre post : List (ℕ × Event)}
    (htr : tr = pre ++ (i, e) :: post) :
    (∀ r, e = .self r → (r = none ∨ r = some i ∧ i < H.smpCpus) ∧
      (i < H.smpCpus → (i, .waited) ∈ pre → r = some i)) ∧ (e = .abort → i = H.smpCpus) := by
  obtain ⟨hown, hlate, habort⟩ := h.answers htr
  exact ⟨fun r hr => ⟨hown r hr, hlate r hr⟩, habort⟩

/-- Two cores; the main thread has number 2. -/
def twoCores : Host where
  smpCpus := 2
  pthreadSelf i := i + 1
  pthreadSelf_pos := Nat.succ_pos
  pthreadSelf_inj _ _ h := Nat.succ.inj h

/-- `n` steps of thread `i`. -/
def goes (i n : ℕ) : List (ℕ × Choice) := List.replicate n (i, .go false)

/-- Core 1 is started before its id is stored.  It looks for itself at once and finds nothing,
waits until the main thread is done, and looks again; there a signal arrives. -/
def earlySteps : List (ℕ × Choice) :=
  goes 2 4 ++ (1, .getCoreSelf) :: goes 1 6 ++ (1, .waitInit) :: goes 1 2 ++ goes 2 3 ++
    goes 1 1 ++ (1, .getCoreSelf) :: goes 1 2 ++ (1, .signal) :: goes 1 8

/-- Core 1 finds nothing at first, and itself after it has waited. -/
theorem coreSelf_own_late : ∃ tr cfg r, AnyRun twoCores (tr ++ [(1, .self r)]) cfg ∧
    (1, .self none) ∈ tr ∧ (1, .waited) ∈ tr ∧ r = some 1 := by
  obtain ⟨tr, cfg, hr, ht⟩ : ∃ tr cfg, AnyRun twoCores tr cfg ∧
      decide ((1, .self none) ∈ tr.dropLast ∧ (1, .waited) ∈ tr.dropLast ∧
        tr.getLast? = some (1, .self (some 1))) = true :=
    Interleave.Program.exists_run_of_exec (P := program twoCores) (fun _ _ _ _ => true)
      (fun _ _ _ _ _ => trivial) (started_start twoCores) earlySteps
      (fun tr _ => decide ((1, .self none) ∈ tr.dropLast ∧ (1, .waited) ∈ tr.dropLast ∧
        tr.getLast? = some (1, .self (some 1)))) (by decide)
  obtain ⟨hnone, hwaited, hlast⟩ := of_decide_eq_true ht
  obtain ⟨tr, rfl⟩ := List.getLast?_eq_some_iff.mp hlast
  rw [List.dropLast_concat] at hnone hwaited
  obtain ⟨hself, -⟩ := coreSelf_own hr rfl
  exact ⟨tr, cfg, _, hr, hnone, hwaited, (hself _ rfl).2 (by decide) hwaited⟩

/-! ### The end of the search -/

/-- How many steps a search takes at most. -/
def SelfPc.rank (H : Host) : SelfPc → ℕ
  | .assertCoreThr => H.smpCpus + 4
  | .test => H.smpCpus + 3
  | .scan core => H.smpCpus - core + 2
  | .ret => 1

theorem SelfPc.rank_le (H : Host) (p : SelfPc) : p.rank H ≤ H.smpCpus + 4 := by
  cases p <;> simp only [SelfPc.rank] <;> omega

theorem SelfPc.rank_pos (H : Host) (p : SelfPc) : 0 < p.rank H := by
  cases p <;> simp only [SelfPc.rank] <;> omega

/-- How many steps the search takes that a thread has called. -/
def Pc.rank (H : Host) : Pc → ℕ
  | .self p => p.rank H
  | _ => 0

/-- How many steps a thread needs to finish its searches. -/
def Thread.rank (H : Host) (t : Thread) : ℕ := (t.handler.map (·.rank H)).getD 0 + t.pc.rank H

theorem Thread.rank_le (H : Host) (t : Thread) : t.rank H ≤ 2 * (H.smpCpus + 4) := by
  have hhandler : (t.handler.map (·.rank H)).getD 0 ≤ H.smpCpus + 4 := by
    cases t.handler with
    | none => exact Nat.zero_le _
    | some p => exact p.rank_le H
  have hpc : t.pc.rank H ≤ H.smpCpus + 4 := by
    cases t.pc with
    | self p => exact p.rank_le H
    | _ => exact Nat.zero_le _
  unfold Thread.rank
  omega

/-- A step of a search that does not fail gets closer to its end. -/
theorem getCoreSelf_rank (H : Host) (i : ℕ) (s : Shared) (self : Option ℕ) (p p' : SelfPc)
    (h : (getCoreSelf H i s self p).2 = .goto p') : p'.rank H < p.rank H := by
  cases p with
  | assertCoreThr =>
    simp only [getCoreSelf] at h
    split at h
    · cases h
    · cases h
      simp only [SelfPc.rank]
      omega
  | test =>
    simp only [getCoreSelf] at h
    split at h
    all_goals
      cases h
      simp only [SelfPc.rank]
      omega
  | scan core =>
    simp only [getCoreSelf] at h
    split at h
    · split at h
      all_goals
        cases h
        simp only [SelfPc.rank]
        omega
    · cases h
      simp only [SelfPc.rank]
      omega
  | ret => cases h

/-- The next step of the search of a signal handler. -/
theorem step_handler (hstart : i < H.smpCpus → s.started i = true) (hh : t.handler = some p)
    (first : Bool) :
    step H i s t (.go first) = some (s, t.inHandler (getCoreSelf H i s t.cmCoreSelf p)) := by
  obtain ⟨pc, handler, self⟩ := t
  cases hh
  exact if_pos hstart

/-- The next step of the search that a thread has called. -/
theorem step_self (hstart : i < H.smpCpus → s.started i = true) (hh : t.handler = none)
    (hp : t.pc = .self p) (first : Bool) :
    step H i s t (.go first) = some (s, t.inCall (getCoreSelf H i s t.cmCoreSelf p)) := by
  obtain ⟨pc, handler, self⟩ := t
  cases hh
  cases hp
  exact if_pos hstart

/-- Core `i` has waited, and is looking for itself or has found itself. -/
structure Searching (H : Host) (i : ℕ) (cfg : Config) : Prop where
  run : ∃ tr, AnyRun H tr cfg ∧ (i, .waited) ∈ tr
  place : (∃ p, (cfg.thread i).pc = .self p) ∨
    (cfg.thread i).pc = .idle ∧ (cfg.thread i).handler = none ∧ (cfg.thread i).cmCoreSelf = some i

theorem Searching.step (h : Searching H i cfg) (hi : i < H.smpCpus)
    (hpc : (cfg.thread i).pc ≠ .idle) : ∃ s' t' e,
    (program H).step i cfg.shared (cfg.thread i) (.go false) = some (s', t', e) ∧
      Searching H i (cfg.after i s' t') ∧ t'.rank H < (cfg.thread i).rank H := by
  obtain ⟨tr, hrun, hw⟩ := h.run
  have hinv := hrun.inv
  have hwait := hinv.waited i hw
  have hne : i ≠ H.smpCpus := Nat.ne_of_lt hi
  obtain ⟨p, hp⟩ : ∃ p, (cfg.thread i).pc = .self p :=
    h.place.resolve_right fun hidle => hpc hidle.1
  have hnext : ∀ {s' t' e},
      (program H).step i cfg.shared (cfg.thread i) (.go false) = some (s', t', e) →
      ((∃ p, t'.pc = .self p) ∨ t'.pc = .idle ∧ t'.handler = none ∧ t'.cmCoreSelf = some i) →
        Searching H i (cfg.after i s' t') := by
    intro s' t' e hs hplace
    refine ⟨⟨_, .snoc hrun trivial hs, List.mem_append_left _ hw⟩, ?_⟩
    rw [Interleave.Config.after_thread_self]
    exact hplace
  cases hh : (cfg.thread i).handler with
  | some q =>
    have hs := step_handler (t := cfg.thread i) hwait.started hh false
    rcases hr : getCoreSelf H i cfg.shared (cfg.thread i).cmCoreSelf q with ⟨self', q' | _ | _⟩
    · rw [hr] at hs
      refine ⟨_, _, _, hs, hnext hs (.inl ⟨p, hp⟩), ?_⟩
      have hlt := getCoreSelf_rank H i cfg.shared (cfg.thread i).cmCoreSelf q q' (by rw [hr])
      simpa [Thread.inHandler, Thread.rank, hh] using hlt
    · rw [hr] at hs
      refine ⟨_, _, _, hs, hnext hs (.inl ⟨p, hp⟩), ?_⟩
      simpa [Thread.inHandler, Thread.rank, hh] using q.rank_pos H
    · exact absurd (getCoreSelf_abort hinv.shared (congrArg Prod.snd hr)) hne
  | none =>
    have hs := step_self (t := cfg.thread i) hwait.started hh hp false
    rcases hr : getCoreSelf H i cfg.shared (cfg.thread i).cmCoreSelf p with ⟨self', p' | _ | _⟩
    · rw [hr] at hs
      refine ⟨_, _, _, hs, hnext hs (.inl ⟨p', rfl⟩), ?_⟩
      have hlt := getCoreSelf_rank H i cfg.shared (cfg.thread i).cmCoreSelf p p' (by rw [hr])
      simpa [Thread.inCall, Thread.rank, Pc.rank, hh, hp] using hlt
    · -- it returns what it has found
      obtain ⟨-, hret⟩ := getCoreSelf_found hinv.shared hi (hinv.shared.done hwait.done i hi)
        (hwait.call hi p hp) ((hinv.thread i).self.imp_right And.left)
      rw [hr] at hs hret
      refine ⟨_, _, _, hs, hnext hs (.inr ⟨rfl, hh, hret rfl⟩), ?_⟩
      simpa [Thread.inCall, Thread.rank, Pc.rank, hh, hp] using p.rank_pos H
    · exact absurd (getCoreSelf_abort hinv.shared (congrArg Prod.snd hr)) hne

/-- **The search can be ended**: a core that has waited and is looking for itself can find itself
by a bounded number of its own steps, also when its signal handler is running. -/
theorem coreSelf_returns (h : AnyRun H tr cfg) (hi : i < H.smpCpus) (hw : (i, .waited) ∈ tr)
    (hp : (cfg.thread i).pc = .self p) : ∃ tr' cfg', (program H).From (· = i) cfg tr' cfg' ∧
      tr'.length ≤ 2 * (H.smpCpus + 4) ∧ (cfg'.thread i).pc = .idle ∧
        (cfg'.thread i).cmCoreSelf = some i := by
  have hstart : Searching H i cfg := ⟨⟨tr, h, hw⟩, .inl ⟨p, hp⟩⟩
  obtain ⟨tr', cfg', hrun, hlen, hsearch, hidle⟩ := Interleave.Program.exists_from_of_rank
    (P := program H) (T := (· = i)) (I := Searching H i) (Q := fun c => (c.thread i).pc = .idle)
    (fun c => (c.thread i).rank H) (fun c hc hidle => by
      obtain ⟨s', t', e, hs, hc', hlt⟩ := hc.step hi hidle
      refine ⟨i, _, s', t', e, rfl, hs, hc', ?_⟩
      rwa [Interleave.Config.after_thread_self]) hstart
  refine ⟨tr', cfg', hrun, Nat.le_trans hlen (Thread.rank_le H _), hidle, ?_⟩
  rcases hsearch.place with ⟨q, hq⟩ | ⟨-, -, hself⟩
  · rw [hidle] at hq
    cases hq
  · exact hself

/-- Core 1 has waited and is looking for itself, and its signal handler has begun to look. -/
theorem coreSelf_returns_signalled : ∃ tr cfg, AnyRun twoCores tr cfg ∧ (1, .waited) ∈ tr ∧
    (cfg.thread 1).pc = .self (.scan 0) ∧ (cfg.thread 1).handler = some .test ∧
      ∃ tr' cfg', (program twoCores).From (· = 1) cfg tr' cfg' ∧
        (cfg'.thread 1).pc = .idle ∧ (cfg'.thread 1).cmCoreSelf = some 1 := by
  obtain ⟨tr, cfg, hr, ht⟩ : ∃ tr cfg, AnyRun twoCores tr cfg ∧
      decide ((1, .waited) ∈ tr ∧ (cfg.thread 1).pc = .self (.scan 0) ∧
        (cfg.thread 1).handler = some .test) = true :=
    Interleave.Program.exists_run_of_exec (P := program twoCores) (fun _ _ _ _ => true)
      (fun _ _ _ _ _ => trivial) (started_start twoCores) (earlySteps.take 23)
      (fun tr cfg => decide ((1, .waited) ∈ tr ∧ (cfg.thread 1).pc = .self (.scan 0) ∧
        (cfg.thread 1).handler = some .test)) (by decide)
  obtain ⟨hw, hp, hh⟩ := of_decide_eq_true ht
  obtain ⟨tr', cfg', hrun, -, hidle, hself⟩ := coreSelf_returns hr (by decide) hw hp
  exact ⟨tr, cfg, hr, hw, hp, hh, tr', cfg', hrun, hidle, hself⟩

end Coremu.Identity

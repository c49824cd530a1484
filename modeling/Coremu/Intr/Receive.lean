import Coremu.Atomic
import Coremu.Lib.Interleave
import Coremu.Lib.Fifo

/-!
# Receiving interrupts

`coremu_put_intr`, `coremu_get_intr` and `coremu_receive_intr` of `main/intr.c`, over
any queue with the interface of `incl/queue.h`.  Any number of threads put interrupts
on the queue of core `c`; the thread of core `c` itself runs `coremu_receive_intr`,
and puts interrupts on its own queue when it is not receiving, or from inside
`event_handler`.  An `event_handler` is registered.

An interrupt may be `NULL`.  `coremu_put_intr` is called by `coremu_send_intr` only, and
that asserts the contrary, but `cm_assert` expands to nothing there: `main/utils.h` includes
`incl/coremu-debug.h` before `CONFIG_COREMU` is defined.  A `NULL` is put on the queue like
any other interrupt, and `coremu_receive_intr` takes it for the end of the queue.

## Main definitions

* `Queue` — a queue with the interface of `incl/queue.h`.
* `RecvPc`, `Thread` — where a thread stands in `coremu_receive_intr` and in the queue.
* `putIntr`, `getIntr`, `step`, `program` — one step of a thread.
* `queueTrace`, `queueConfig` — the queue's part of a run.
* `NoNull` — no `NULL` is put on the queue.

## Main results

* `step_cases` — what a step can do.
* `Run.queue` — the queue's part of a run is a run of the queue.
-/

namespace Coremu.Intr

/-- A queue as `incl/queue.h` declares it. -/
structure Queue (σ τ χ : Type) where
  /-- `enqueue` and `dequeue` -/
  program : Interleave.Program ℕ σ τ χ (Fifo.Event DataType)
  /-- `queue_get_size` -/
  queueGetSize : σ → ℤ
  /-- The thread is in none of them. -/
  idle : τ → Bool

/-- Where a thread stands in `coremu_receive_intr`. -/
inductive RecvPc
  /-- Outside. -/
  | out
  /-- `if (!coremu_intr_p(core))` -/
  | intrP
  /-- `if (!dequeue(core->intr_queue, &intr))` -/
  | dequeue
  /-- `event_handler(intr);`, before the call -/
  | handle (intr : DataType)
  /-- Inside `event_handler`. -/
  | handler
  /-- `coremu_get_intr` has returned `NULL`. -/
  | ret
  deriving Repr

/-- A thread: its place in `coremu_receive_intr`, and in the queue. -/
structure Thread (τ : Type) where
  recv : RecvPc
  queue : τ

/-- What a step shows. -/
inductive Event
  /-- `coremu_receive_intr` is called. -/
  | receive
  /-- The result of `coremu_intr_p`. -/
  | intrP (pending : Bool)
  /-- `event_handler` is called. -/
  | handle (intr : DataType)
  /-- `event_handler` returns. -/
  | handled
  /-- `coremu_receive_intr` returns. -/
  | done
  /-- An access of the queue. -/
  | queue (e : Fifo.Event DataType)
  deriving DecidableEq, Repr

/-- What the code leaves open at a step. -/
inductive Choice (χ : Type)
  /-- The thread calls `coremu_receive_intr`. -/
  | receive
  /-- A choice of the queue. -/
  | queue (x : χ)
  /-- Nothing. -/
  | go
  deriving Repr

variable {σ τ χ : Type} (Q : Queue σ τ χ)

/-- `coremu_intr_p` -/
def coremuIntrP (s : σ) : Bool := decide (0 < Q.queueGetSize s)

/-- One access of `coremu_put_intr`: any access of the queue but a call of `dequeue`. -/
def putIntr (i : ℕ) (s : σ) (t : Thread τ) (x : χ) : Option (σ × Thread τ × Event) :=
  (Q.program.step i s t.queue x).bind fun r =>
    if r.2.2 = .callDeq then none
    else some (r.1, { t with queue := r.2.1 }, .queue r.2.2)

/-- Where `coremu_receive_intr` goes on after an access of `dequeue`. -/
def RecvPc.after : Fifo.Event DataType → RecvPc
  | .retDeq (some intr) => if intr = NULL then .ret else .handle intr
  | .retDeq none => .ret
  | _ => .dequeue

theorem RecvPc.after_retSome {intr : DataType} (h : intr ≠ NULL) :
    RecvPc.after (.retDeq (some intr)) = .handle intr :=
  if_neg h

theorem RecvPc.after_retNull : RecvPc.after (.retDeq (some NULL)) = .ret := rfl

theorem RecvPc.after_of_ne {e : Fifo.Event DataType} (h : ∀ r, e ≠ .retDeq r) :
    RecvPc.after e = .dequeue := by
  cases e with
  | retDeq r => exact absurd rfl (h r)
  | _ => rfl

/-- One access of the `dequeue` in `coremu_get_intr`. -/
def getIntr (i : ℕ) (s : σ) (t : Thread τ) (x : χ) : Option (σ × Thread τ × Event) :=
  (Q.program.step i s t.queue x).bind fun r =>
    match r.2.2 with
    | .callEnq _ => none
    | e => some (r.1, ⟨RecvPc.after e, r.2.1⟩, .queue e)

/-- One step of a thread; `c` is the core that the queue belongs to. -/
def step (c i : ℕ) (s : σ) (t : Thread τ) (x : Choice χ) : Option (σ × Thread τ × Event) :=
  match t.recv, x with
  | .out, .receive =>
      if i = c ∧ Q.idle t.queue then some (s, { t with recv := .intrP }, .receive) else none
  | .out, .queue x => putIntr Q i s t x
  | .intrP, .go =>
      some (s, { t with recv := if coremuIntrP Q s then .dequeue else .ret },
        .intrP (coremuIntrP Q s))
  | .dequeue, .queue x => getIntr Q i s t x
  | .handle intr, .go => some (s, { t with recv := .handler }, .handle intr)
  | .handler, .queue x => putIntr Q i s t x
  | .handler, .go =>
      if Q.idle t.queue then some (s, { t with recv := .intrP }, .handled) else none
  | .ret, .go => some (s, { t with recv := .out }, .done)
  | _, _ => none

/-- The threads, numbered without bound. -/
def program (c : ℕ) : Interleave.Program ℕ σ (Thread τ) (Choice χ) Event where
  step i s t x := step Q c i s t x

/-! ### What a step can do -/

/-- The steps of a thread. -/
inductive Step (c i : ℕ) (s : σ) (t : Thread τ) : Choice χ → σ → Thread τ → Event → Prop
  | receive : i = c → t.recv = .out → Q.idle t.queue = true →
      Step c i s t .receive s { t with recv := .intrP } .receive
  | intrP : t.recv = .intrP →
      Step c i s t .go s { t with recv := if coremuIntrP Q s then .dequeue else .ret }
        (.intrP (coremuIntrP Q s))
  | put {x : χ} {s' : σ} {l : τ} {f : Fifo.Event DataType} : t.recv = .out ∨ t.recv = .handler →
      Q.program.step i s t.queue x = some (s', l, f) → f ≠ .callDeq →
      Step c i s t (.queue x) s' { t with queue := l } (.queue f)
  | get {x : χ} {s' : σ} {l : τ} {f : Fifo.Event DataType} : t.recv = .dequeue →
      Q.program.step i s t.queue x = some (s', l, f) → (∀ v, f ≠ .callEnq v) →
      Step c i s t (.queue x) s' ⟨RecvPc.after f, l⟩ (.queue f)
  | handle {intr : DataType} : t.recv = .handle intr →
      Step c i s t .go s { t with recv := .handler } (.handle intr)
  | handled : t.recv = .handler → Q.idle t.queue = true →
      Step c i s t .go s { t with recv := .intrP } .handled
  | done : t.recv = .ret → Step c i s t .go s { t with recv := .out } .done

variable {Q} {c i : ℕ} {s s' : σ} {t t' : Thread τ} {x : Choice χ} {e : Event}

theorem putIntr_cases {x : χ} (h : t.recv = .out ∨ t.recv = .handler)
    (hs : putIntr Q i s t x = some (s', t', e)) : Step Q c i s t (.queue x) s' t' e := by
  simp only [putIntr, Option.bind_eq_some_iff] at hs
  obtain ⟨⟨s₁, l, f⟩, hq, hs⟩ := hs
  split at hs
  · cases hs
  · next hf => cases hs; exact .put h hq hf

theorem getIntr_cases {x : χ} (h : t.recv = .dequeue)
    (hs : getIntr Q i s t x = some (s', t', e)) : Step Q c i s t (.queue x) s' t' e := by
  simp only [getIntr, Option.bind_eq_some_iff] at hs
  obtain ⟨⟨s₁, l, f⟩, hq, hs⟩ := hs
  cases f with
  | callEnq v => cases hs
  | _ => cases hs; exact .get h hq (by simp)

/-- **What a step can do.** -/
theorem step_cases (hs : step Q c i s t x = some (s', t', e)) : Step Q c i s t x s' t' e := by
  unfold step at hs
  split at hs
  · next hr =>
    split at hs
    · next hc => cases hs; exact .receive hc.1 hr hc.2
    · cases hs
  · next hr => exact putIntr_cases (.inl hr) hs
  · next hr => cases hs; exact .intrP hr
  · next hr => exact getIntr_cases hr hs
  · next hr => cases hs; exact .handle hr
  · next hr => exact putIntr_cases (.inr hr) hs
  · next hr =>
    split at hs
    · next hc => cases hs; exact .handled hr hc
    · cases hs
  · next hr => cases hs; exact .done hr
  · cases hs

/-- In the `dequeue` of `coremu_get_intr`, a step is an access of the queue. -/
theorem Step.of_dequeue (h : Step Q c i s t x s' t' e) (hr : t.recv = .dequeue) :
    ∃ y l f, x = .queue y ∧ Q.program.step i s t.queue y = some (s', l, f) ∧
      (∀ v, f ≠ .callEnq v) ∧ t' = ⟨RecvPc.after f, l⟩ ∧ e = .queue f := by
  cases h with
  | get _ hst hf => exact ⟨_, _, _, rfl, hst, hf, rfl, rfl⟩
  | put hr' _ _ => rcases hr' with hr' | hr' <;> (rw [hr] at hr'; cases hr')
  | receive _ hr' | intrP hr' | handle hr' | handled hr' | done hr' =>
    rw [hr] at hr'
    cases hr'

/-- A thread other than that of core `c` only puts interrupts on the queue. -/
theorem Step.of_out (h : Step Q c i s t x s' t' e) (hr : t.recv = .out) (hi : i ≠ c) :
    ∃ y l f, x = .queue y ∧ Q.program.step i s t.queue y = some (s', l, f) ∧ f ≠ .callDeq ∧
      t' = { t with queue := l } ∧ e = .queue f := by
  cases h with
  | put _ hst hf => exact ⟨_, _, _, rfl, hst, hf, rfl, rfl⟩
  | receive hc _ _ => exact absurd hc hi
  | intrP hr' | get hr' | handle hr' | handled hr' | done hr' =>
    rw [hr] at hr'
    cases hr'

/-! ### The queue's part of a run -/

/-- The accesses of the queue in a trace. -/
def queueTrace (tr : List (ℕ × Event)) : List (ℕ × Fifo.Event DataType) :=
  tr.filterMap fun p => match p.2 with
    | .queue e => some (p.1, e)
    | _ => none

/-- The interrupts passed to `event_handler`. -/
def handled (tr : List (ℕ × Event)) : List DataType :=
  tr.filterMap fun p => match p.2 with
    | .handle intr => some intr
    | _ => none

/-- No `NULL` is put on the queue. -/
def NoNull (tr : List (ℕ × Event)) : Prop :=
  ∀ p ∈ tr, p.2 ≠ .queue (.callEnq NULL)

instance (tr : List (ℕ × Event)) : Decidable (NoNull tr) :=
  inferInstanceAs (Decidable (∀ p ∈ tr, p.2 ≠ .queue (.callEnq NULL)))

/-- The queue's part of a configuration. -/
def queueConfig (cfg : Interleave.Config ℕ σ (Thread τ)) : Interleave.Config ℕ σ τ :=
  ⟨cfg.shared, fun i => (cfg.thread i).queue⟩

@[simp] theorem queueTrace_nil : queueTrace [] = [] := rfl

@[simp] theorem queueTrace_concat_queue (tr : List (ℕ × Event)) (i : ℕ)
    (f : Fifo.Event DataType) : queueTrace (tr ++ [(i, .queue f)]) = queueTrace tr ++ [(i, f)] := by
  simp [queueTrace]

/-- An event that is no access of the queue. -/
def Event.local : Event → Bool
  | .queue _ => false
  | _ => true

theorem queueTrace_concat_local (tr : List (ℕ × Event)) (i : ℕ) (he : e.local = true) :
    queueTrace (tr ++ [(i, e)]) = queueTrace tr := by
  cases e with
  | queue f => cases he
  | _ => simp [queueTrace]

theorem queueTrace_mono {p tr : List (ℕ × Event)} (h : p <+: tr) :
    queueTrace p <+: queueTrace tr :=
  h.filterMap _

theorem mem_queueTrace {tr : List (ℕ × Event)} {f : Fifo.Event DataType} :
    (i, f) ∈ queueTrace tr ↔ (i, .queue f) ∈ tr := by
  rw [queueTrace, List.mem_filterMap]
  constructor
  · rintro ⟨⟨j, e⟩, hm, he⟩
    cases e with
    | queue g =>
      obtain ⟨rfl, rfl⟩ := Prod.mk.inj (Option.some.inj he)
      exact hm
    | _ => cases he
  · exact fun hm => ⟨_, hm, rfl⟩

theorem NoNull.of_append {p q : List (ℕ × Event)} (h : NoNull (p ++ q)) : NoNull p :=
  fun _ hm => h _ (List.mem_append_left _ hm)

/-- If no `NULL` is put, none is returned. -/
theorem NoNull.returned {tr : List (ℕ × Event)} (h : NoNull tr) {a : Fifo.State ℕ DataType}
    (ha : Fifo.exec (queueTrace tr) = some a) : ∀ v ∈ Fifo.returned (queueTrace tr), v ≠ NULL := by
  refine (Fifo.forall_returned (P := fun v => v ≠ NULL) ha ?_).2
  rintro i v hm rfl
  exact h _ (mem_queueTrace.mp hm) rfl

theorem queueConfig_after (cfg : Interleave.Config ℕ σ (Thread τ)) (i : ℕ) (s' : σ)
    (t' : Thread τ) : queueConfig (cfg.after i s' t') = (queueConfig cfg).after i s' t'.queue := by
  simp only [queueConfig, Interleave.Config.after, Interleave.Config.mk.injEq, true_and]
  funext j
  by_cases hj : j = i
  · subst hj; simp
  · simp [hj]

/-- A step outside the queue leaves the queue's part as it is. -/
theorem queueConfig_after_local (cfg : Interleave.Config ℕ σ (Thread τ)) (i : ℕ) (r : RecvPc) :
    queueConfig (cfg.after i cfg.shared ⟨r, (cfg.thread i).queue⟩) = queueConfig cfg := by
  rw [queueConfig_after]
  simp only [queueConfig, Interleave.Config.after, Interleave.Config.mk.injEq, true_and]
  funext j
  by_cases hj : j = i
  · subst hj; simp
  · simp [hj]

/-- Every thread outside `coremu_receive_intr`, and the queue as `start` says. -/
def Start (start : Interleave.Config ℕ σ τ → Prop) (cfg : Interleave.Config ℕ σ (Thread τ)) :
    Prop :=
  start (queueConfig cfg) ∧ ∀ i, (cfg.thread i).recv = .out

section Projection

variable {start : Interleave.Config ℕ σ τ → Prop}
  {qallow : List (ℕ × Fifo.Event DataType) → Interleave.Config ℕ σ τ → ℕ → χ → Prop}
  {allow : List (ℕ × Event) → Interleave.Config ℕ σ (Thread τ) → ℕ → Choice χ → Prop}

/-- What is allowed of a run allows the queue's part of it, given that only `c` calls
`dequeue`. -/
def Allows (Q : Queue σ τ χ) (c : ℕ)
    (allow : List (ℕ × Event) → Interleave.Config ℕ σ (Thread τ) → ℕ → Choice χ → Prop)
    (qallow : List (ℕ × Fifo.Event DataType) → Interleave.Config ℕ σ τ → ℕ → χ → Prop) : Prop :=
  ∀ tr cfg i x s' l f, allow tr cfg i (.queue x) →
    Q.program.step i cfg.shared (cfg.thread i).queue x = some (s', l, f) →
    (f = .callDeq → i = c) → qallow (queueTrace tr) (queueConfig cfg) i x

/-- **The queue's part of a run is a run of the queue**, and only core `c` is ever in
`coremu_receive_intr`. -/
theorem Run.queue (hq : Allows Q c allow qallow) {tr : List (ℕ × Event)}
    {cfg : Interleave.Config ℕ σ (Thread τ)} (h : (program Q c).Run (Start start) allow tr cfg) :
    Q.program.Run start qallow (queueTrace tr) (queueConfig cfg) ∧
      ∀ i, i ≠ c → (cfg.thread i).recv = .out := by
  refine Interleave.Program.Run.induct (J := fun tr cfg =>
    Q.program.Run start qallow (queueTrace tr) (queueConfig cfg) ∧
      ∀ i, i ≠ c → (cfg.thread i).recv = .out) ?_ ?_ h
  · exact fun cfg hc => ⟨.nil hc.1, fun i _ => hc.2 i⟩
  · rintro tr cfg i x s' t' e ⟨hrun, hout⟩ ha hs
    -- the others stay outside
    have hout' : t'.recv = .out ∨ i = c →
        ∀ j, j ≠ c → ((cfg.after i s' t').thread j).recv = .out := by
      intro hor j hj
      by_cases hji : j = i
      · subst hji
        rw [Interleave.Config.after_thread_self]
        exact hor.resolve_right hj
      · rw [Interleave.Config.after_thread_of_ne _ _ _ hji]
        exact hout j hj
    have hic : (cfg.thread i).recv ≠ .out → i = c := fun hne => by
      by_contra hne'
      exact hne (hout i hne')
    cases step_cases hs with
    | receive hc =>
      rw [queueTrace_concat_local _ _ rfl, queueConfig_after_local]
      exact ⟨hrun, hout' (.inr hc)⟩
    | @put x _ l f hr hst hf =>
      rw [queueTrace_concat_queue, queueConfig_after]
      refine ⟨.snoc hrun (hq _ _ _ _ _ _ _ ha hst fun e => absurd e hf) hst, hout' ?_⟩
      exact hr.imp id fun hr => hic (by simp [hr])
    | @get x _ l f hr hst hf =>
      have hc : i = c := hic (by simp [hr])
      rw [queueTrace_concat_queue, queueConfig_after]
      exact ⟨.snoc hrun (hq _ _ _ _ _ _ _ ha hst fun _ => hc) hst, hout' (.inr hc)⟩
    | intrP hr | handle hr | handled hr | done hr =>
      -- the queue is not touched, and only the core itself is inside
      rw [queueTrace_concat_local _ _ rfl, queueConfig_after_local]
      exact ⟨hrun, hout' (.inr (hic (by simp [hr])))⟩

end Projection

end Coremu.Intr

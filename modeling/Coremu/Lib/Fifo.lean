import Mathlib.Data.Finset.Card
import Mathlib.Data.List.Induction
import Mathlib.Data.List.Infix
import Mathlib.Data.List.Nodup
import Mathlib.Logic.Function.Basic
import Mathlib.Tactic.Common

/-!
# Linearizable first-in first-out queues

The trace of a concurrent queue shows, thread by thread, the calls and returns
of `enqueue` and `dequeue`, the instant at which an enqueue takes effect
(`append`), the instant at which a dequeue takes effect (`remove`), and the
instants at which a dequeue looks whether the queue is empty (`look`).  Every
other access is `tau`.

`step` is the abstract queue: it accepts an event exactly when a sequential
queue could have made it at that instant.  A trace it accepts (`exec`) carries
its own linearization, which `Linearized` spells out on the trace alone.

## Main definitions

* `Event`, `Entry`, `Op`, `State` — the abstract queue and the calls in progress.
* `step`, `exec` — the abstract queue as an acceptor of traces.
* `Op.Moves` — what an event does to the operation of its thread.
* `Lossy` — the traces of a queue that may lose a value where it is appended.
* `appended`, `removed`, `returned`, `sent`, `visible` — what a trace shows.
* `Linearized` — every operation took effect once, between its call and its
  return, in first-in first-out order.
* `OldestFirst` — what this means for the values that a single consumer returns.

## Main results

* `step_cases` — what each event asks for and does.
* `exec_induct` — what a step preserves, every accepted trace preserves.
* `exec_seq` — the queue holds what was appended and not removed, and the values of a
  sender are numbered in its order.
* `lossy_zero_iff` — a trace without a loss is an accepted one.
* `Waits.card_add_countP_le` — what waits for an effect was called before.
* `linearized_of_exec` — **an accepted trace is linearized.**
* `sent_eq` — a sender's values are appended in the order it sent them.
* `oldestFirst_of_exec` — **an accepted trace with one consumer serves it oldest
  first.**
-/

namespace Fifo

/-- What a step of a queue shows. -/
inductive Event (V : Type*)
  /-- A call of `enqueue`. -/
  | callEnq (v : V)
  /-- The value enters the queue. -/
  | append (v : V)
  /-- `enqueue` returns. -/
  | retEnq
  /-- A call of `dequeue`. -/
  | callDeq
  /-- The dequeue looks for a first value. -/
  | look
  /-- The value leaves the queue. -/
  | remove (v : V)
  /-- `dequeue` returns, with a value or without. -/
  | retDeq (r : Option V)
  /-- Any other access. -/
  | tau
  deriving DecidableEq, Repr

/-- A value in the queue, with the thread that sent it and how many of its
enqueues had returned before. -/
structure Entry (ι V : Type*) where
  sender : ι
  seq : ℕ
  value : V
  deriving DecidableEq, Repr

/-- Where a thread stands in its operation. -/
inductive Op (V : Type*)
  | idle
  /-- `enqueue v` has been called and has not taken effect. -/
  | enq (v : V)
  /-- `enqueue` has taken effect. -/
  | enqDone
  /-- `dequeue` has been called; was the queue empty when it last looked? -/
  | deq (sawEmpty : Bool)
  /-- `dequeue` has removed `v`. -/
  | deqDone (v : V)
  deriving DecidableEq, Repr

/-- The abstract queue: its values, oldest first, the operation of each thread
and how many of its enqueues have returned. -/
structure State (ι V : Type*) where
  content : List (Entry ι V)
  op : ι → Op V
  finished : ι → ℕ

variable {ι V : Type*} [DecidableEq ι] [DecidableEq V]

/-- The empty queue, with no operation in progress. -/
def empty : State ι V := ⟨[], fun _ => .idle, fun _ => 0⟩

/-- One event of thread `i`; `none` if a sequential queue could not make it. -/
def step (a : State ι V) (i : ι) : Event V → Option (State ι V)
  | .callEnq v =>
      if a.op i = .idle then some { a with op := Function.update a.op i (.enq v) } else none
  | .append v =>
      if a.op i = .enq v then
        some { a with
          content := a.content ++ [⟨i, a.finished i, v⟩]
          op := Function.update a.op i .enqDone }
      else none
  | .retEnq =>
      if a.op i = .enqDone then
        some { a with
          op := Function.update a.op i .idle
          finished := Function.update a.finished i (a.finished i + 1) }
      else none
  | .callDeq =>
      if a.op i = .idle then some { a with op := Function.update a.op i (.deq false) } else none
  | .look =>
      match a.op i with
      | .deq _ => some { a with op := Function.update a.op i (.deq a.content.isEmpty) }
      | _ => none
  | .remove v =>
      match a.op i, a.content with
      | .deq _, e :: rest =>
          if e.value = v then
            some { a with content := rest, op := Function.update a.op i (.deqDone v) }
          else none
      | _, _ => none
  | .retDeq (some v) =>
      if a.op i = .deqDone v then some { a with op := Function.update a.op i .idle } else none
  | .retDeq none =>
      if a.op i = .deq true then some { a with op := Function.update a.op i .idle } else none
  | .tau => some a

/-! ### What each event asks for and does -/

section Inversion

variable {a b : State ι V} {i : ι} {v : V}

theorem step_callEnq : step a i (.callEnq v) = some b ↔
    a.op i = .idle ∧ b = { a with op := Function.update a.op i (.enq v) } := by
  simp only [step, Option.ite_none_right_eq_some, Option.some.injEq, eq_comm (b := b)]

theorem step_append : step a i (.append v) = some b ↔
    a.op i = .enq v ∧ b = { a with
      content := a.content ++ [⟨i, a.finished i, v⟩]
      op := Function.update a.op i .enqDone } := by
  simp only [step, Option.ite_none_right_eq_some, Option.some.injEq, eq_comm (b := b)]

theorem step_retEnq : step a i .retEnq = some b ↔
    a.op i = .enqDone ∧ b = { a with
      op := Function.update a.op i .idle
      finished := Function.update a.finished i (a.finished i + 1) } := by
  simp only [step, Option.ite_none_right_eq_some, Option.some.injEq, eq_comm (b := b)]

theorem step_callDeq : step a i .callDeq = some b ↔
    a.op i = .idle ∧ b = { a with op := Function.update a.op i (.deq false) } := by
  simp only [step, Option.ite_none_right_eq_some, Option.some.injEq, eq_comm (b := b)]

theorem step_look : step a i .look = some b ↔
    ∃ w, a.op i = .deq w ∧
      b = { a with op := Function.update a.op i (.deq a.content.isEmpty) } := by
  simp only [step]
  split
  · next w hw => simp [hw, eq_comm (b := b)]
  · next hw =>
    constructor
    · intro h; cases h
    · rintro ⟨w, h, -⟩; exact absurd h (hw w)

theorem step_remove : step a i (.remove v) = some b ↔
    ∃ w e rest, a.op i = .deq w ∧ a.content = e :: rest ∧ e.value = v ∧
      b = { a with content := rest, op := Function.update a.op i (.deqDone v) } := by
  simp only [step]
  split
  · next w e rest hw hc => simp [hw, hc, eq_comm (b := b)]
  · next hw =>
    constructor
    · intro h; cases h
    · rintro ⟨w, e, rest, h, hc, -⟩; exact absurd hc (hw w e rest h)

theorem step_retSome : step a i (.retDeq (some v)) = some b ↔
    a.op i = .deqDone v ∧ b = { a with op := Function.update a.op i .idle } := by
  simp only [step, Option.ite_none_right_eq_some, Option.some.injEq, eq_comm (b := b)]

theorem step_retNone : step a i (.retDeq none) = some b ↔
    a.op i = .deq true ∧ b = { a with op := Function.update a.op i .idle } := by
  simp only [step, Option.ite_none_right_eq_some, Option.some.injEq, eq_comm (b := b)]

theorem step_tau : step a i .tau = some b ↔ b = a := by
  simp only [step, Option.some.injEq, eq_comm]

/-- The events that thread `i` can make in `a`, each with the state after it. -/
inductive Step (a : State ι V) (i : ι) : Event V → State ι V → Prop
  | callEnq (v : V) : a.op i = .idle →
      Step a i (.callEnq v) { a with op := Function.update a.op i (.enq v) }
  | append (v : V) : a.op i = .enq v →
      Step a i (.append v) { a with
        content := a.content ++ [⟨i, a.finished i, v⟩]
        op := Function.update a.op i .enqDone }
  | retEnq : a.op i = .enqDone →
      Step a i .retEnq { a with
        op := Function.update a.op i .idle
        finished := Function.update a.finished i (a.finished i + 1) }
  | callDeq : a.op i = .idle →
      Step a i .callDeq { a with op := Function.update a.op i (.deq false) }
  | look (w : Bool) : a.op i = .deq w →
      Step a i .look { a with op := Function.update a.op i (.deq a.content.isEmpty) }
  | remove (w : Bool) (x : Entry ι V) (rest : List (Entry ι V)) : a.op i = .deq w →
      a.content = x :: rest →
      Step a i (.remove x.value)
        { a with content := rest, op := Function.update a.op i (.deqDone x.value) }
  | retSome (v : V) : a.op i = .deqDone v →
      Step a i (.retDeq (some v)) { a with op := Function.update a.op i .idle }
  | retNone : a.op i = .deq true →
      Step a i (.retDeq none) { a with op := Function.update a.op i .idle }
  | tau : Step a i .tau a

/-- **Every step is one of these.** -/
theorem step_cases {e : Event V} (h : step a i e = some b) : Step a i e b := by
  cases e with
  | callEnq v => obtain ⟨ho, rfl⟩ := step_callEnq.mp h; exact .callEnq v ho
  | append v => obtain ⟨ho, rfl⟩ := step_append.mp h; exact .append v ho
  | retEnq => obtain ⟨ho, rfl⟩ := step_retEnq.mp h; exact .retEnq ho
  | callDeq => obtain ⟨ho, rfl⟩ := step_callDeq.mp h; exact .callDeq ho
  | look => obtain ⟨w, ho, rfl⟩ := step_look.mp h; exact .look w ho
  | remove v =>
    obtain ⟨w, x, rest, ho, hc, rfl, rfl⟩ := step_remove.mp h
    exact .remove w x rest ho hc
  | retDeq r =>
    cases r with
    | some v => obtain ⟨ho, rfl⟩ := step_retSome.mp h; exact .retSome v ho
    | none => obtain ⟨ho, rfl⟩ := step_retNone.mp h; exact .retNone ho
  | tau => rw [step_tau.mp h]; exact .tau

/-- What an event does to the operation of the thread that makes it, whatever the queue
holds. -/
inductive Op.Moves : Event V → Op V → Op V → Prop
  | callEnq (v : V) : Moves (.callEnq v) .idle (.enq v)
  | append (v : V) : Moves (.append v) (.enq v) .enqDone
  | retEnq : Moves .retEnq .enqDone .idle
  | callDeq : Moves .callDeq .idle (.deq false)
  | look (w w' : Bool) : Moves .look (.deq w) (.deq w')
  | remove (w : Bool) (v : V) : Moves (.remove v) (.deq w) (.deqDone v)
  | retSome (v : V) : Moves (.retDeq (some v)) (.deqDone v) .idle
  | retNone : Moves (.retDeq none) (.deq true) .idle
  | tau (o : Op V) : Moves .tau o o

theorem moves_of_step {e : Event V} (h : step a i e = some b) : Op.Moves e (a.op i) (b.op i) := by
  cases step_cases h with
  | callEnq v ho => simpa [ho] using .callEnq v
  | append v ho => simpa [ho] using .append v
  | retEnq ho => simpa [ho] using .retEnq
  | callDeq ho => simpa [ho] using .callDeq
  | look w ho => simpa [ho] using .look w _
  | remove w x rest ho => simpa [ho] using .remove w x.value
  | retSome v ho => simpa [ho] using .retSome v
  | retNone ho => simpa [ho] using .retNone
  | tau => exact .tau _

/-- An event only changes the operation of the thread that makes it. -/
theorem op_of_ne {e : Event V} (h : step a i e = some b) {j : ι} (hj : j ≠ i) :
    b.op j = a.op j := by
  cases step_cases h with
  | tau => rfl
  | _ => exact Function.update_of_ne hj _ _

/-- Only an append and a removal change the content. -/
theorem content_of_step {e : Event V} (h : step a i e = some b) (ha : ∀ v, e ≠ .append v)
    (hr : ∀ v, e ≠ .remove v) : b.content = a.content := by
  cases step_cases h with
  | append v => exact absurd rfl (ha v)
  | remove w x => exact absurd rfl (hr x.value)
  | _ => rfl

/-- A thread that is in an enqueue. -/
def Op.InEnq (o : Op V) : Prop := (∃ v, o = .enq v) ∨ o = .enqDone

omit [DecidableEq V] in
theorem Op.InEnq.ne_idle {o : Op V} (h : o.InEnq) : o ≠ .idle := by
  rintro rfl
  rcases h with ⟨v, hv⟩ | hv
  · cases hv
  · cases hv

/-- A thread that is in no dequeue. -/
def Op.NoDeq (o : Op V) : Prop := (∀ w, o ≠ .deq w) ∧ ∀ v, o ≠ .deqDone v

omit [DecidableEq V] in
theorem Op.noDeq_idle : (Op.idle : Op V).NoDeq := ⟨by simp, by simp⟩

/-- Only a call starts a dequeue. -/
theorem noDeq_step {e : Event V} (h : step a i e = some b) (he : e ≠ .callDeq)
    (hi : (a.op i).NoDeq) : (b.op i).NoDeq := by
  obtain ⟨hd, hdd⟩ := hi
  cases step_cases h with
  | callEnq | append | retEnq => simp [Op.NoDeq]
  | callDeq => exact absurd rfl he
  | look w ho | remove w x rest ho => exact absurd ho (hd w)
  | retSome v ho => exact absurd ho (hdd v)
  | retNone ho => exact absurd ho (hd true)
  | tau => exact ⟨hd, hdd⟩

/-- A thread that is in no dequeue neither removes a value nor returns one. -/
theorem ne_of_noDeq {e : Event V} (h : step a i e = some b) (hi : (a.op i).NoDeq) :
    (∀ v, e ≠ .remove v) ∧ ∀ r, e ≠ .retDeq r := by
  obtain ⟨hd, hdd⟩ := hi
  refine ⟨?_, ?_⟩
  · rintro v rfl
    obtain ⟨w, x, rest, ho, -⟩ := step_remove.mp h
    exact hd w ho
  · rintro (_ | v) rfl
    · exact hd true (step_retNone.mp h).1
    · exact hdd v (step_retSome.mp h).1

/-- The value that an operation carries. -/
def Op.value : Op V → Option V
  | .enq v | .deqDone v => some v
  | _ => none

/-- `P` holds of every value in the queue, and of those on their way in and out. -/
structure State.Forall (P : V → Prop) (a : State ι V) : Prop where
  content : ∀ x ∈ a.content, P x.value
  op : ∀ j v, (a.op j).value = some v → P v

/-- A property of all values called with holds of all values. -/
theorem State.Forall.step {P : V → Prop} {e : Event V} (ha : a.Forall P)
    (h : Fifo.step a i e = some b) (he : ∀ v, e = .callEnq v → P v) : b.Forall P := by
  have hop : (∀ v, (b.op i).value = some v → P v) → ∀ j v, (b.op j).value = some v → P v := by
    intro hi j v hj
    by_cases hji : j = i
    · subst hji; exact hi v hj
    · rw [op_of_ne h hji] at hj
      exact ha.op j v hj
  cases step_cases h with
  | callEnq v =>
    refine ⟨ha.content, hop fun w hw => ?_⟩
    simp only [Function.update_self, Op.value, Option.some.injEq] at hw
    exact hw ▸ he v rfl
  | append v ho =>
    refine ⟨fun x hx => ?_, hop fun w hw => by simp [Op.value] at hw⟩
    rw [List.mem_append, List.mem_singleton] at hx
    rcases hx with hx | rfl
    · exact ha.content x hx
    · exact ha.op i v (by rw [ho]; rfl)
  | remove w y rest ho hy =>
    have hall := ha.content
    rw [hy] at hall
    refine ⟨fun x hx => hall x (List.mem_cons_of_mem _ hx), hop fun v hv => ?_⟩
    simp only [Function.update_self, Op.value, Option.some.injEq] at hv
    exact hv ▸ hall y List.mem_cons_self
  | retEnq | callDeq | look | retSome | retNone =>
    exact ⟨ha.content, hop fun w hw => by simp [Op.value] at hw⟩
  | tau => exact ha

end Inversion

/-- The abstract queue after a trace, if it accepts the trace. -/
def exec (tr : List (ι × Event V)) : Option (State ι V) :=
  tr.foldlM (fun a p => step a p.1 p.2) empty

@[simp] theorem exec_nil : exec ([] : List (ι × Event V)) = some empty := rfl

theorem exec_concat (tr : List (ι × Event V)) (i : ι) (e : Event V) :
    exec (tr ++ [(i, e)]) = (exec tr).bind fun a => step a i e := by
  simp [exec, List.foldlM_append]

/-- A trace is accepted up to its last event, and then that event is. -/
theorem exec_concat_eq_some {tr : List (ι × Event V)} {i : ι} {e : Event V} {a : State ι V} :
    exec (tr ++ [(i, e)]) = some a ↔ ∃ b, exec tr = some b ∧ step b i e = some a := by
  rw [exec_concat, Option.bind_eq_some_iff]

/-- What shows nothing changes nothing. -/
theorem exec_filter_tau (tr : List (ι × Event V)) :
    exec (tr.filter fun p => p.2 ≠ .tau) = exec tr := by
  induction tr using List.reverseRecOn with
  | nil => rfl
  | append_singleton tr p ih =>
    obtain ⟨i, e⟩ := p
    rw [List.filter_append, exec_concat, ← ih]
    by_cases he : e = .tau
    · simp [he, step]
    · simp [he, exec_concat]

/-- Two traces that show the same have the same effect. -/
theorem exec_congr_filter_tau {tr tr' : List (ι × Event V)}
    (h : (tr.filter fun p => p.2 ≠ .tau) = tr'.filter fun p => p.2 ≠ .tau) :
    exec tr = exec tr' := by
  rw [← exec_filter_tau tr, h, exec_filter_tau]

/-- Every beginning of an accepted trace is accepted. -/
theorem exec_of_append {tr tr' : List (ι × Event V)} {a : State ι V}
    (h : exec (tr ++ tr') = some a) : ∃ b, exec tr = some b := by
  induction tr' using List.reverseRecOn generalizing a with
  | nil => exact ⟨a, by simpa using h⟩
  | append_singleton tr' p ih =>
    rw [← List.append_assoc] at h
    obtain ⟨b, hb, -⟩ := exec_concat_eq_some.mp h
    exact ih hb

/-- An event of an accepted trace is accepted after the events before it. -/
theorem exec_split {p q : List (ι × Event V)} {i : ι} {e : Event V} {a : State ι V}
    (h : exec (p ++ (i, e) :: q) = some a) : ∃ b d, exec p = some b ∧ step b i e = some d := by
  rw [List.append_cons] at h
  obtain ⟨d, hd⟩ := exec_of_append h
  obtain ⟨b, hb, hs⟩ := exec_concat_eq_some.mp hd
  exact ⟨b, d, hb, hs⟩

/-- **Induction over an accepted trace**: what holds of the empty queue and is preserved
by every step holds at the end. -/
theorem exec_induct {J : List (ι × Event V) → State ι V → Prop} (h0 : J [] empty)
    (hs : ∀ tr b i e a, exec tr = some b → J tr b → step b i e = some a →
      J (tr ++ [(i, e)]) a)
    {tr : List (ι × Event V)} {a : State ι V} (h : exec tr = some a) : J tr a := by
  induction tr using List.reverseRecOn generalizing a with
  | nil =>
    rw [exec_nil, Option.some.injEq] at h
    exact h ▸ h0
  | append_singleton tr p ih =>
    obtain ⟨b, hb, hstep⟩ := exec_concat_eq_some.mp h
    exact hs tr b p.1 p.2 a hb (ih hb) hstep

/-! ### Queues that lose values -/

/-- Thread `i` goes on as if its value were in the queue. -/
def State.lose (a : State ι V) (i : ι) : State ι V :=
  { a with op := Function.update a.op i .enqDone }

/-- The traces of a queue that may lose a value where it is appended; `n` values are lost. -/
inductive Lossy : List (ι × Event V) → ℕ → State ι V → Prop
  | nil : Lossy [] 0 empty
  | step {tr n a b} (i : ι) (e : Event V) : Lossy tr n a → Fifo.step a i e = some b →
      Lossy (tr ++ [(i, e)]) n b
  | lose {tr n a} (i : ι) (v : V) : Lossy tr n a → a.op i = .enq v →
      Lossy (tr ++ [(i, .append v)]) (n + 1) (a.lose i)

/-- **A trace without a loss is an accepted one.** -/
theorem lossy_zero_iff {tr : List (ι × Event V)} {a : State ι V} :
    Lossy tr 0 a ↔ exec tr = some a := by
  refine ⟨fun h => ?_, fun h => ?_⟩
  · generalize hn : 0 = n at h
    induction h with
    | nil => rfl
    | step i e _ hs ih => exact exec_concat_eq_some.mpr ⟨_, ih hn, hs⟩
    | lose i v => omega
  · refine exec_induct (J := fun tr a => Lossy tr 0 a) .nil ?_ h
    intro tr b i e a _ hb hs
    exact .step i e hb hs

/-! ### What a trace shows -/

/-- Did the event call, take effect or return? -/
def Event.visible : Event V → Bool
  | .look => false
  | .tau => false
  | _ => true

/-- The calls, effects and returns of thread `i`. -/
def visible (i : ι) (tr : List (ι × Event V)) : List (Event V) :=
  tr.filterMap fun p => if p.1 = i ∧ p.2.visible then some p.2 else none

/-- The values appended, with their senders. -/
def appended (tr : List (ι × Event V)) : List (ι × V) :=
  tr.filterMap fun p => match p.2 with
    | .append v => some (p.1, v)
    | _ => none

/-- The values removed. -/
def removed (tr : List (ι × Event V)) : List V :=
  tr.filterMap fun p => match p.2 with
    | .remove v => some v
    | _ => none

/-- The values returned by a dequeue. -/
def returned (tr : List (ι × Event V)) : List V :=
  tr.filterMap fun p => match p.2 with
    | .retDeq r => r
    | _ => none

/-- The values thread `i` has called `enqueue` with. -/
def sent (i : ι) (tr : List (ι × Event V)) : List V :=
  tr.filterMap fun p => match p.2 with
    | .callEnq v => if p.1 = i then some v else none
    | _ => none

omit [DecidableEq ι] [DecidableEq V] in
theorem appended_append (tr tr' : List (ι × Event V)) :
    appended (tr ++ tr') = appended tr ++ appended tr' :=
  List.filterMap_append

omit [DecidableEq ι] [DecidableEq V] in
theorem removed_append (tr tr' : List (ι × Event V)) :
    removed (tr ++ tr') = removed tr ++ removed tr' :=
  List.filterMap_append

omit [DecidableEq ι] [DecidableEq V] in
theorem returned_append (tr tr' : List (ι × Event V)) :
    returned (tr ++ tr') = returned tr ++ returned tr' :=
  List.filterMap_append

omit [DecidableEq V] in
theorem sent_append (i : ι) (tr tr' : List (ι × Event V)) :
    sent i (tr ++ tr') = sent i tr ++ sent i tr' :=
  List.filterMap_append

section Visible

omit [DecidableEq V]

theorem visible_concat (i : ι) (tr : List (ι × Event V)) (p : ι × Event V) :
    visible i (tr ++ [p]) =
      visible i tr ++ (if p.1 = i ∧ p.2.visible then [p.2] else []) := by
  rw [visible, List.filterMap_append]
  split <;> simp_all [visible]

theorem visible_concat_of_ne {i j : ι} (h : j ≠ i) (tr : List (ι × Event V)) (e : Event V) :
    visible i (tr ++ [(j, e)]) = visible i tr := by
  rw [visible_concat, if_neg (by simp [h]), List.append_nil]

theorem visible_concat_hidden {e : Event V} (h : e.visible = false) (i j : ι)
    (tr : List (ι × Event V)) : visible i (tr ++ [(j, e)]) = visible i tr := by
  rw [visible_concat, if_neg (by simp [h]), List.append_nil]

theorem visible_concat_self {e : Event V} (h : e.visible = true) (i : ι)
    (tr : List (ι × Event V)) : visible i (tr ++ [(i, e)]) = visible i tr ++ [e] := by
  rw [visible_concat, if_pos (by simp [h])]

end Visible

/-! ### What the queue holds -/

/-- One if the enqueue in progress has taken effect. -/
def Op.done : Op V → ℕ
  | .enqDone => 1
  | _ => 0

/-- What the queue `a` holds after `pre` was removed: the values of each sender are
numbered from the ones removed to the last one appended. -/
def Numbered (pre : List (ι × V)) (a : State ι V) (i : ι) : Prop :=
  (a.content.filter (·.sender = i)).map (·.seq) =
      List.range' (pre.countP (·.1 = i)) (a.content.countP (·.sender = i)) ∧
    pre.countP (·.1 = i) + a.content.countP (·.sender = i) = a.finished i + (a.op i).done

theorem Numbered.append {pre : List (ι × V)} {a b : State ι V} {i j : ι} {v : V}
    (h : Numbered pre a i) (hs : step a j (.append v) = some b) : Numbered pre b i := by
  obtain ⟨ho, rfl⟩ := step_append.mp hs
  obtain ⟨hseq, hlen⟩ := h
  by_cases hj : j = i
  · subst hj
    rw [ho] at hlen
    simp only [Op.done, Nat.add_zero] at hlen
    constructor
    · simp only [List.filter_append, List.map_append, hseq, List.countP_append]
      simp [List.range'_concat, hlen]
    · simp only [List.countP_append]
      simp [Op.done]
      omega
  · refine ⟨?_, ?_⟩
    · simpa [List.filter_append, hj] using hseq
    · simpa [hj, Ne.symm hj] using hlen

theorem Numbered.remove {pre : List (ι × V)} {a b : State ι V} {i j : ι} {v : V}
    {x : Entry ι V} {rest : List (Entry ι V)} (h : Numbered pre a i)
    (hs : step a j (.remove v) = some b) (hc : a.content = x :: rest) :
    Numbered (pre ++ [(x.sender, x.value)]) b i := by
  obtain ⟨w, y, rest', ho, hc', -, rfl⟩ := step_remove.mp hs
  rw [hc, List.cons.injEq] at hc'
  obtain ⟨rfl, rfl⟩ := hc'
  obtain ⟨hseq, hlen⟩ := h
  rw [hc] at hseq hlen
  have hdone : (Function.update a.op j (.deqDone v) i).done = (a.op i).done := by
    by_cases hj : i = j
    · subst hj; simp [ho, Op.done]
    · simp [hj]
  by_cases hx : x.sender = i
  · simp only [List.filter_cons, List.countP_cons, hx, decide_true, if_true, List.map_cons,
      List.range'_succ, List.cons.injEq] at hseq hlen
    constructor
    · simpa [List.countP_append, hx] using hseq.2
    · simp only [List.countP_append, List.countP_singleton, hx, decide_true, if_true, hdone]
      omega
  · constructor
    · simpa [List.filter_cons, List.countP_append, hx] using hseq
    · rw [hdone]
      simpa [List.countP_append, hx] using hlen

omit [DecidableEq V] in
/-- A change of the operations only. -/
theorem Numbered.of_op {pre : List (ι × V)} {a b : State ι V} {i : ι} (h : Numbered pre a i)
    (hc : b.content = a.content)
    (hf : b.finished i + (b.op i).done = a.finished i + (a.op i).done) : Numbered pre b i := by
  obtain ⟨hseq, hlen⟩ := h
  exact ⟨by rw [hc]; exact hseq, by rw [hc, hf]; exact hlen⟩

/-- Every event but a removal keeps the numbers. -/
theorem Numbered.step {pre : List (ι × V)} {a b : State ι V} {i j : ι} {e : Event V}
    (h : Numbered pre b i) (hs : Fifo.step b j e = some a) (he : ∀ v, e ≠ .remove v) :
    Numbered pre a i := by
  -- an operation in progress only counts once it has taken effect
  have hop : ∀ o : Op V, o.done = (b.op j).done →
      Numbered pre { b with op := Function.update b.op j o } i := by
    intro o ho
    refine h.of_op rfl ?_
    by_cases hj : i = j
    · subst hj; simp [ho]
    · simp [hj]
  cases step_cases hs with
  | append v => exact h.append hs
  | remove w x => exact absurd rfl (he x.value)
  | retEnq ho =>
    refine h.of_op rfl ?_
    by_cases hj : i = j
    · subst hj; simp [ho, Op.done]
    · simp [hj]
  | callEnq v ho | callDeq ho | look w ho | retSome v ho | retNone ho =>
    exact hop _ (by rw [ho]; rfl)
  | tau => exact h

/-- **The queue holds what was appended and not removed, in order, and each sender's
values are numbered in that order.** -/
theorem exec_seq {tr : List (ι × Event V)} {a : State ι V} (h : exec tr = some a) :
    ∃ pre, appended tr = pre ++ a.content.map (fun e => (e.sender, e.value)) ∧
      removed tr = pre.map Prod.snd ∧ ∀ i, Numbered pre a i := by
  refine exec_induct (J := fun tr a => ∃ pre,
    appended tr = pre ++ a.content.map (fun e => (e.sender, e.value)) ∧
      removed tr = pre.map Prod.snd ∧ ∀ i, Numbered pre a i) ?_ ?_ h
  · exact ⟨[], rfl, rfl, fun i => ⟨rfl, rfl⟩⟩
  · rintro tr b j e a - ⟨pre, hpre, hrem, hnum⟩ hs
    rw [appended_append, removed_append, hpre, hrem]
    cases step_cases hs with
    | append v =>
      refine ⟨pre, ?_, List.append_nil _, fun i => (hnum i).append hs⟩
      rw [List.map_append, List.append_assoc]
      rfl
    | remove w x rest ho hc =>
      refine ⟨pre ++ [(x.sender, x.value)], ?_, ?_, fun i => (hnum i).remove hs hc⟩
      · rw [hc, List.map_cons, List.append_cons]
        exact List.append_nil _
      · rw [List.map_append]
        rfl
    | _ =>
      exact ⟨pre, List.append_nil _, List.append_nil _, fun i => (hnum i).step hs nofun⟩

/-- The queue holds what was appended and not removed, in order. -/
theorem appended_eq {tr : List (ι × Event V)} {a : State ι V} (h : exec tr = some a) :
    ∃ pre, appended tr = pre ++ a.content.map (fun e => (e.sender, e.value)) ∧
      removed tr = pre.map Prod.snd := by
  obtain ⟨pre, happ, hrem, -⟩ := exec_seq h
  exact ⟨pre, happ, hrem⟩

/-- The queue is empty exactly when everything appended has been removed. -/
theorem content_eq_nil_iff {tr : List (ι × Event V)} {a : State ι V} (h : exec tr = some a) :
    a.content = [] ↔ (appended tr).map Prod.snd = removed tr := by
  obtain ⟨pre, hpre, hrem⟩ := appended_eq h
  rw [hpre, hrem]
  simp

/-! ### Calls and effects -/

/-- The event is a call of `enqueue`. -/
def Event.isCallEnq : Event V → Bool
  | .callEnq _ => true
  | _ => false

/-- The event is a call of `dequeue`. -/
def Event.isCallDeq : Event V → Bool
  | .callDeq => true
  | _ => false

/-- The value enters the queue. -/
def Event.isAppend : Event V → Bool
  | .append _ => true
  | _ => false

/-- The value leaves the queue. -/
def Event.isRemove : Event V → Bool
  | .remove _ => true
  | _ => false

/-- How often `enqueue` was called. -/
def enqCalls (tr : List (ι × Event V)) : ℕ := tr.countP fun p => p.2.isCallEnq

/-- How often `dequeue` was called. -/
def deqCalls (tr : List (ι × Event V)) : ℕ := tr.countP fun p => p.2.isCallDeq

omit [DecidableEq ι] [DecidableEq V] in
theorem appended_length (tr : List (ι × Event V)) :
    (appended tr).length = tr.countP fun p => p.2.isAppend := by
  rw [appended, List.length_filterMap_eq_countP]
  refine List.countP_congr fun p _ => ?_
  cases p.2 <;> simp [Event.isAppend]

omit [DecidableEq ι] [DecidableEq V] in
theorem removed_length (tr : List (ι × Event V)) :
    (removed tr).length = tr.countP fun p => p.2.isRemove := by
  rw [removed, List.length_filterMap_eq_countP]
  refine List.countP_congr fun p _ => ?_
  cases p.2 <;> simp [Event.isRemove]

section Waiting

variable {call eff : Event V → Bool} {W : Op V → Prop}

/-- Operations that wait.  An operation waits when it fulfils `W`: a thread that is idle does
not, only the event `call` makes its operation wait, and the event `eff` ends this. -/
structure Waits (call eff : Event V → Bool) (W : Op V → Prop) : Prop where
  idle : ¬ W .idle
  call : ∀ {e o o'}, Op.Moves e o o' → W o' → W o ∨ call e = true
  eff : ∀ {e o o'}, Op.Moves e o o' → eff e = true → W o ∧ ¬ W o'

omit [DecidableEq V] in
/-- An event of thread `i`, with the finite set `S` that covers those that wait. -/
theorem Waits.covers_step (hW : Waits call eff W) {tr : List (ι × Event V)} {o o' : ι → Op V}
    {i : ι} {e : Event V} (hi : Op.Moves e (o i) (o' i)) (hne : ∀ j, j ≠ i → o' j = o j)
    (h : ∃ S : Finset ι, (∀ j, W (o j) → j ∈ S) ∧
      tr.countP (fun p => eff p.2) + S.card ≤ tr.countP fun p => call p.2) :
    ∃ S : Finset ι, (∀ j, W (o' j) → j ∈ S) ∧
      (tr ++ [(i, e)]).countP (fun p => eff p.2) + S.card ≤
        (tr ++ [(i, e)]).countP fun p => call p.2 := by
  obtain ⟨S, hmem, hle⟩ := h
  have hother : ∀ j, j ≠ i → W (o' j) → j ∈ S := by
    intro j hji hw
    rw [hne j hji] at hw
    exact hmem j hw
  simp only [List.countP_append, List.countP_singleton]
  by_cases he : eff e = true
  · obtain ⟨hw, hnw⟩ := hW.eff hi he
    have hcard := Finset.card_erase_add_one (hmem i hw)
    refine ⟨S.erase i, fun j hj => ?_, by rw [if_pos he]; omega⟩
    have hji : j ≠ i := by
      rintro rfl
      exact hnw hj
    exact Finset.mem_erase.mpr ⟨hji, hother j hji hj⟩
  · rw [if_neg he]
    by_cases hc : call e = true
    · have hcard := Finset.card_insert_le i S
      refine ⟨insert i S, fun j hj => ?_, by rw [if_pos hc]; omega⟩
      by_cases hji : j = i
      · exact hji ▸ Finset.mem_insert_self i S
      · exact Finset.mem_insert_of_mem (hother j hji hj)
    · refine ⟨S, fun j hj => ?_, by rw [if_neg hc]; omega⟩
      by_cases hji : j = i
      · subst hji
        exact hmem j ((hW.call hi hj).resolve_right hc)
      · exact hother j hji hj

/-- **Each operation that waits, and each one that waited and has ended, had its own call.** -/
theorem Waits.card_add_countP_le (hW : Waits call eff W) {tr : List (ι × Event V)} {n : ℕ}
    {a : State ι V} (h : Lossy tr n a) {U : Finset ι} (hU : ∀ i ∈ U, W (a.op i)) :
    tr.countP (fun p => eff p.2) + U.card ≤ tr.countP (fun p => call p.2) := by
  -- there may be infinitely many threads; along the trace a finite set `S` covers those that wait
  suffices hS : ∃ S : Finset ι, (∀ i, W (a.op i) → i ∈ S) ∧
      tr.countP (fun p => eff p.2) + S.card ≤ tr.countP (fun p => call p.2) by
    obtain ⟨S, hmem, hle⟩ := hS
    have hcard := Finset.card_le_card fun i hi => hmem i (hU i hi)
    omega
  clear hU
  induction h with
  | nil => exact ⟨∅, fun i hi => absurd hi hW.idle, le_rfl⟩
  | step i e _ hs ih => exact hW.covers_step (moves_of_step hs) (fun j hj => op_of_ne hs hj) ih
  | lose i v _ ho ih =>
    refine hW.covers_step ?_ (fun j hj => Function.update_of_ne hj _ _) ih
    rw [ho]
    simpa [State.lose] using .append v

omit [DecidableEq V] in
/-- An enqueue waits from its call to its effect. -/
theorem waits_enq : Waits (V := V) Event.isCallEnq Event.isAppend fun o => ∃ v, o = .enq v where
  idle := by simp
  call hs hw := by
    cases hs with
    | callEnq => exact .inr rfl
    | tau => exact .inl hw
    | _ => simp at hw
  eff hs he := by
    cases hs with
    | append v => simp
    | _ => cases he

omit [DecidableEq V] in
/-- A dequeue waits from its call to its effect. -/
theorem waits_deq : Waits (V := V) Event.isCallDeq Event.isRemove fun o => ∃ w, o = .deq w where
  idle := by simp
  call hs hw := by
    cases hs with
    | callDeq => exact .inr rfl
    | look w => exact .inl ⟨w, rfl⟩
    | tau => exact .inl hw
    | _ => simp at hw
  eff hs he := by
    cases hs with
    | remove w v => simp
    | _ => cases he

variable {tr : List (ι × Event V)} {n : ℕ} {a : State ι V}

/-- Every value appended belongs to a call of `enqueue`. -/
theorem Lossy.appended_length_le (h : Lossy tr n a) : (appended tr).length ≤ enqCalls tr := by
  rw [appended_length]
  exact waits_enq.card_add_countP_le h (U := ∅) (by simp)

/-- Every value removed belongs to a call of `dequeue`. -/
theorem Lossy.removed_length_le (h : Lossy tr n a) : (removed tr).length ≤ deqCalls tr := by
  rw [removed_length]
  exact waits_deq.card_add_countP_le h (U := ∅) (by simp)

/-- A value that was appended is in the queue, or it was removed or lost. -/
theorem Lossy.appended_length_eq (h : Lossy tr n a) :
    (appended tr).length = (removed tr).length + a.content.length + n := by
  induction h with
  | nil => rfl
  | step i e _ hs ih =>
    rw [appended_append, removed_append, List.length_append, List.length_append, ih]
    cases step_cases hs with
    | append v => simp [appended, removed]; omega
    | remove w x rest ho hc => simp [appended, removed, hc]; omega
    | _ => simp [appended, removed]
  | lose i v _ ho ih =>
    rw [appended_append, removed_append, List.length_append, List.length_append, ih]
    simp [appended, removed, State.lose]
    omega

/-- The enqueues that have taken effect and not returned have appended a value each. -/
theorem card_enqDone_le (h : Lossy tr n a) {U : Finset ι} (hU : ∀ i ∈ U, a.op i = .enqDone) :
    U.card ≤ (appended tr).length := by
  have hW : Waits (V := V) Event.isAppend (fun _ => false) fun o => o = .enqDone := by
    refine ⟨by simp, fun hs hw => ?_, by simp⟩
    cases hs with
    | append => exact .inr rfl
    | tau => exact .inl hw
    | _ => simp at hw
  have hle := hW.card_add_countP_le h hU
  rw [appended_length]
  omega

/-- The dequeues that have taken effect and not returned have removed a value each. -/
theorem card_deqDone_le (h : Lossy tr n a) {U : Finset ι}
    (hU : ∀ i ∈ U, ∃ v, a.op i = .deqDone v) : U.card ≤ (removed tr).length := by
  have hW : Waits (V := V) Event.isRemove (fun _ => false) fun o => ∃ v, o = .deqDone v := by
    refine ⟨by simp, fun hs hw => ?_, by simp⟩
    cases hs with
    | remove => exact .inr rfl
    | tau => exact .inl hw
    | _ => simp at hw
  have hle := hW.card_add_countP_le h hU
  rw [removed_length]
  omega

end Waiting

/-! ### Linearization -/

/-- **The trace is that of a linearizable queue.**  Each enqueue appends its value
exactly once, between its call and its return; each dequeue that returns a value
removed it exactly once, in the same way, and it was then the oldest value
appended and not yet removed; each dequeue that returns none looked, during its
call, at an instant when everything appended had been removed. -/
structure Linearized (tr : List (ι × Event V)) : Prop where
  append : ∀ p i v q, tr = p ++ (i, .append v) :: q →
    ∃ u, visible i p = u ++ [.callEnq v]
  retEnq : ∀ p i q, tr = p ++ (i, .retEnq) :: q →
    ∃ u v, visible i p = u ++ [.callEnq v, .append v]
  remove : ∀ p i v q, tr = p ++ (i, .remove v) :: q →
    (∃ u, visible i p = u ++ [.callDeq]) ∧
      ∃ rest, (appended p).map Prod.snd = removed p ++ v :: rest
  retSome : ∀ p i v q, tr = p ++ (i, .retDeq (some v)) :: q →
    ∃ u, visible i p = u ++ [.callDeq, .remove v]
  retNone : ∀ p i q, tr = p ++ (i, .retDeq none) :: q →
    (∃ u, visible i p = u ++ [.callDeq]) ∧
      ∃ p₁ p₂, p = p₁ ++ (i, .look) :: p₂ ∧ visible i p₁ = visible i p ∧
        (appended p₁).map Prod.snd = removed p₁

omit [DecidableEq V] in
/-- A dequeue that returns none has seen an empty queue, at an instant of its call. -/
theorem Linearized.sawEmpty {tr p q : List (ι × Event V)} {i : ι} (h : Linearized tr)
    (htr : tr = p ++ (i, .retDeq none) :: q) : ∃ p₁ ∈ p.inits, visible i p₁ = visible i p ∧
      (appended p₁).map Prod.snd = removed p₁ := by
  obtain ⟨-, p₁, p₂, hp, hvis, hempty⟩ := h.retNone p i q htr
  exact ⟨p₁, (List.mem_inits _ _).mpr ⟨_, hp.symm⟩, hvis, hempty⟩

/-- What the operation of a thread says about the end of its visible events. -/
def OpShape (i : ι) (tr : List (ι × Event V)) : Op V → Prop
  | .idle => True
  | .enq v => ∃ u, visible i tr = u ++ [.callEnq v]
  | .enqDone => ∃ u v, visible i tr = u ++ [.callEnq v, .append v]
  | .deq w => (∃ u, visible i tr = u ++ [.callDeq]) ∧
      (w = true → ∃ p₁ p₂, tr = p₁ ++ (i, .look) :: p₂ ∧ visible i p₁ = visible i tr ∧
        (appended p₁).map Prod.snd = removed p₁)
  | .deqDone v => ∃ u, visible i tr = u ++ [.callDeq, .remove v]

omit [DecidableEq V] in
/-- An event that thread `i` does not make, or that is not visible, changes
nothing in the shape of its operation. -/
theorem OpShape.concat {i : ι} {tr : List (ι × Event V)} {o : Op V} (h : OpShape i tr o)
    {p : ι × Event V} (hp : visible i (tr ++ [p]) = visible i tr) : OpShape i (tr ++ [p]) o := by
  cases o with
  | idle => trivial
  | enq v => rw [OpShape, hp]; exact h
  | enqDone => rw [OpShape, hp]; exact h
  | deqDone v => rw [OpShape, hp]; exact h
  | deq w =>
    obtain ⟨hu, hw⟩ := h
    refine ⟨by rw [hp]; exact hu, fun hwt => ?_⟩
    obtain ⟨p₁, p₂, rfl, hv, he⟩ := hw hwt
    exact ⟨p₁, p₂ ++ [p], by simp, by rw [hp]; exact hv, he⟩

theorem opShape_of_exec {tr : List (ι × Event V)} {a : State ι V} (h : exec tr = some a) :
    ∀ i, OpShape i tr (a.op i) := by
  refine exec_induct (J := fun tr a => ∀ i, OpShape i tr (a.op i)) (fun i => trivial) ?_ h
  · intro tr b i e a hb ih hs j
    by_cases hj : j = i
    · subst hj
      have hop := ih j
      cases step_cases hs with
      | callEnq v =>
        simp only [Function.update_self]
        exact ⟨_, visible_concat_self rfl j tr⟩
      | append v ho =>
        rw [ho] at hop
        obtain ⟨u, hu⟩ := hop
        simp only [Function.update_self]
        exact ⟨u, v, by rw [visible_concat_self rfl j tr, hu]; simp⟩
      | callDeq =>
        simp only [Function.update_self]
        exact ⟨⟨_, visible_concat_self rfl j tr⟩, fun h => by cases h⟩
      | look w ho =>
        rw [ho] at hop
        simp only [Function.update_self]
        refine ⟨by rw [visible_concat_hidden rfl]; exact hop.1, fun hw => ?_⟩
        -- the instant at which everything was removed is that of this look
        refine ⟨tr, [], rfl, (visible_concat_hidden rfl j j tr).symm, ?_⟩
        exact (content_eq_nil_iff hb).mp (List.isEmpty_iff.mp hw)
      | remove w x rest ho =>
        rw [ho] at hop
        obtain ⟨u, hu⟩ := hop.1
        simp only [Function.update_self]
        exact ⟨u, by rw [visible_concat_self rfl j tr, hu]; simp⟩
      | retEnq | retSome | retNone => simp only [Function.update_self]; trivial
      | tau => exact hop.concat (visible_concat_hidden rfl j j tr)
    · rw [op_of_ne hs hj]
      exact (ih j).concat (visible_concat_of_ne (Ne.symm hj) tr e)

/-- **An accepted trace is linearized.** -/
theorem linearized_of_exec {tr : List (ι × Event V)} {a : State ι V} (h : exec tr = some a) :
    Linearized tr := by
  constructor
  · intro p i v q ht
    obtain ⟨b, d, hb, hs⟩ := exec_split (ht ▸ h)
    have hop := opShape_of_exec hb i
    rw [(step_append.mp hs).1] at hop
    exact hop
  · intro p i q ht
    obtain ⟨b, d, hb, hs⟩ := exec_split (ht ▸ h)
    have hop := opShape_of_exec hb i
    rw [(step_retEnq.mp hs).1] at hop
    exact hop
  · intro p i v q ht
    obtain ⟨b, d, hb, hs⟩ := exec_split (ht ▸ h)
    obtain ⟨w, x, rest, ho, hc, hv, -⟩ := step_remove.mp hs
    have hop := opShape_of_exec hb i
    rw [ho] at hop
    obtain ⟨pre, hpre, hrem⟩ := appended_eq hb
    exact ⟨hop.1, rest.map (·.value), by rw [hpre, hrem, hc]; simp [hv]⟩
  · intro p i v q ht
    obtain ⟨b, d, hb, hs⟩ := exec_split (ht ▸ h)
    have hop := opShape_of_exec hb i
    rw [(step_retSome.mp hs).1] at hop
    exact hop
  · intro p i q ht
    obtain ⟨b, d, hb, hs⟩ := exec_split (ht ▸ h)
    have hop := opShape_of_exec hb i
    rw [(step_retNone.mp hs).1] at hop
    exact ⟨hop.1, hop.2 rfl⟩

/-! ### Senders and consumers -/

/-- The value a thread has called `enqueue` with and not appended yet. -/
def Op.pending : Op V → List V
  | .enq v => [v]
  | _ => []

/-- The value a thread has removed and not returned yet. -/
def Op.taken : Op V → List V
  | .deqDone v => [v]
  | _ => []

/-- The values of thread `i` that were appended, oldest first. -/
def appendedBy (i : ι) (tr : List (ι × Event V)) : List V :=
  ((appended tr).filter (·.1 = i)).map Prod.snd

omit [DecidableEq V] in
theorem appendedBy_append (i : ι) (tr tr' : List (ι × Event V)) :
    appendedBy i (tr ++ tr') = appendedBy i tr ++ appendedBy i tr' := by
  rw [appendedBy, appended_append, List.filter_append, List.map_append]
  rfl

/-- What is pending enters the queue next: after an event of any thread, what thread `i`
had pending and has sent is what it has appended and has pending. -/
theorem pending_step {a b : State ι V} {j : ι} {e : Event V} (hs : step b j e = some a) (i : ι) :
    (b.op i).pending ++ sent i [(j, e)] = appendedBy i [(j, e)] ++ (a.op i).pending := by
  by_cases hj : i = j
  · subst hj
    cases step_cases hs with
    | callEnq v ho | append v ho => simp [ho, sent, appendedBy, appended, Op.pending]
    | retEnq ho | callDeq ho | look w ho | remove w x rest ho | retSome v ho | retNone ho =>
      simp only [ho, Function.update_self]
      rfl
    | tau => exact List.append_nil _
  · have hji : j ≠ i := Ne.symm hj
    rw [op_of_ne hs hj]
    cases e with
    | callEnq v | append v => simp [sent, appendedBy, appended, hji]
    | _ => exact List.append_nil _

/-- **A sender's values enter the queue in the order it sent them**, each once, up
to the enqueue in progress. -/
theorem sent_eq {tr : List (ι × Event V)} {a : State ι V} (h : exec tr = some a) (i : ι) :
    sent i tr = appendedBy i tr ++ (a.op i).pending := by
  refine exec_induct (J := fun tr a => sent i tr = appendedBy i tr ++ (a.op i).pending) rfl ?_ h
  · intro tr b j e a _ ih hs
    rw [sent_append, ih, List.append_assoc, pending_step hs, appendedBy_append, List.append_assoc]

/-- The last value in the queue, if its `enqueue` has not returned, is the last one that its
sender sent. -/
theorem sent_getLast {tr : List (ι × Event V)} {a : State ι V} (h : exec tr = some a)
    {e : Entry ι V}
    (ho : a.op e.sender = .enqDone) (he : a.content.getLast? = some e) :
    (sent e.sender tr).getLast? = some e.value := by
  obtain ⟨pre, happ, -⟩ := appended_eq h
  obtain ⟨init, hinit⟩ := List.getLast?_eq_some_iff.mp he
  rw [sent_eq h, ho, appendedBy, happ, hinit]
  simp [Op.pending]

/-- What is taken is returned next: after an event of thread `c`, what it had taken and has
removed is what it has returned and has taken. -/
theorem taken_step {a b : State ι V} {c : ι} {e : Event V} (hs : step b c e = some a) :
    (b.op c).taken ++ removed [(c, e)] = returned [(c, e)] ++ (a.op c).taken := by
  cases step_cases hs with
  | callEnq v ho | append v ho | retEnq ho | callDeq ho | look w ho | remove w x rest ho
  | retSome v ho | retNone ho =>
    simp only [ho, Function.update_self]
    rfl
  | tau => exact List.append_nil _

/-- **A property of all values that `enqueue` is called with holds of all that `dequeue`
returns.** -/
theorem forall_returned {P : V → Prop} {tr : List (ι × Event V)} {a : State ι V}
    (h : exec tr = some a) (he : ∀ i v, (i, Event.callEnq v) ∈ tr → P v) :
    a.Forall P ∧ ∀ v ∈ returned tr, P v := by
  refine exec_induct (J := fun tr a => (∀ i v, (i, Event.callEnq v) ∈ tr → P v) →
    a.Forall P ∧ ∀ v ∈ returned tr, P v) ?_ ?_ h he
  · exact fun _ => ⟨⟨by simp [empty], by simp [empty, Op.value]⟩, by simp [returned]⟩
  · intro tr b i e a _ ih hs he
    obtain ⟨hb, hret⟩ := ih fun j v hm => he j v (List.mem_append_left _ hm)
    refine ⟨hb.step hs fun v hv => he i v (by simp [hv]), fun v hv => ?_⟩
    rw [returned_append, List.mem_append] at hv
    rcases hv with hv | hv
    · exact hret v hv
    · -- the value returned is the one the thread has removed
      cases step_cases hs with
      | retSome u ho =>
        obtain rfl : v = u := by simpa [returned] using hv
        exact hb.op i v (by rw [ho]; rfl)
      | _ => simp [returned] at hv

/-- With one consumer `c`, what was removed has been returned, up to the dequeue
in progress. -/
theorem removed_eq_returned {tr : List (ι × Event V)} {a : State ι V} {c : ι}
    (h : exec tr = some a) (hc : ∀ j, j ≠ c → (j, Event.callDeq) ∉ tr) :
    removed tr = returned tr ++ (a.op c).taken ∧ ∀ j, j ≠ c → (a.op j).NoDeq := by
  refine exec_induct (J := fun tr a => (∀ j, j ≠ c → (j, Event.callDeq) ∉ tr) →
    removed tr = returned tr ++ (a.op c).taken ∧ ∀ j, j ≠ c → (a.op j).NoDeq) ?_ ?_ h hc
  · exact fun _ => ⟨rfl, fun _ _ => Op.noDeq_idle⟩
  · intro tr b i e a _ ih hs hc
    obtain ⟨ih, ihj⟩ := ih fun j hj hm => hc j hj (by simp [hm])
    rw [removed_append, returned_append, ih]
    by_cases hi : i = c
    · subst hi
      refine ⟨?_, fun j hj => by rw [op_of_ne hs hj]; exact ihj j hj⟩
      rw [List.append_assoc, taken_step hs, List.append_assoc]
    · -- another thread never dequeues
      obtain ⟨hrem, hret⟩ := ne_of_noDeq hs (ihj i hi)
      have hcall : e ≠ .callDeq := fun he => hc i hi (by simp [he])
      have hnil : removed [(i, e)] = [] ∧ returned [(i, e)] = [] := by
        cases e with
        | remove v => exact absurd rfl (hrem v)
        | retDeq r => exact absurd rfl (hret r)
        | _ => exact ⟨rfl, rfl⟩
      refine ⟨?_, fun j hj => ?_⟩
      · rw [op_of_ne hs fun e => hi e.symm, hnil.1, hnil.2, List.append_nil, List.append_nil]
      · by_cases hji : j = i
        · subst hji; exact noDeq_step hs hcall (ihj j hj)
        · rw [op_of_ne hs hji]; exact ihj j hj

/-- **One consumer `c` is served oldest first.**  A dequeue that returns a value
returns the oldest one appended and not yet returned; one that returns none
looked, during its call, when everything appended had been returned; altogether
the values returned are the first ones appended, and those of each sender come in
the order it sent them. -/
structure OldestFirst (c : ι) (tr : List (ι × Event V)) : Prop where
  retSome : ∀ p v q, tr = p ++ (c, .retDeq (some v)) :: q →
    ∃ rest, (appended p).map Prod.snd = returned p ++ v :: rest
  retNone : ∀ p q, tr = p ++ (c, .retDeq none) :: q →
    ∃ p₁ p₂, p = p₁ ++ (c, .look) :: p₂ ∧ visible c p₁ = visible c p ∧
      (appended p₁).map Prod.snd = returned p₁
  returned : returned tr <+: (appended tr).map Prod.snd
  sender : ∀ i, (((appended tr).take (Fifo.returned tr).length).filter (·.1 = i)).map Prod.snd
    <+: sent i tr

/-- **An accepted trace in which only `c` dequeues serves `c` oldest first.** -/
theorem oldestFirst_of_exec {tr : List (ι × Event V)} {a : State ι V} {c : ι}
    (h : exec tr = some a) (hc : ∀ j, j ≠ c → (j, Event.callDeq) ∉ tr) : OldestFirst c tr := by
  -- what was removed and not returned before an event of `c` is what `c` itself holds
  have key : ∀ p e q, tr = p ++ (c, e) :: q → ∃ b d, exec p = some b ∧ step b c e = some d ∧
      removed p = returned p ++ (b.op c).taken := by
    rintro p e q rfl
    obtain ⟨b, d, hb, hs⟩ := exec_split h
    exact ⟨b, d, hb, hs, (removed_eq_returned hb fun j hj hm => hc j hj (by simp [hm])).1⟩
  obtain ⟨pre, hpre, hrem⟩ := appended_eq h
  have htaken := (removed_eq_returned h hc).1
  constructor
  · intro p v q ht
    obtain ⟨b, d, hb, hs, hr⟩ := key p _ q ht
    rw [(step_retSome.mp hs).1] at hr
    obtain ⟨pre, hpre, hrem⟩ := appended_eq hb
    refine ⟨b.content.map (·.value), ?_⟩
    rw [hpre, List.map_append, ← hrem, hr]
    simp [Op.taken]
  · intro p q ht
    obtain ⟨p₁, p₂, rfl, hv, he⟩ := ((linearized_of_exec h).retNone p c q ht).2
    refine ⟨p₁, p₂, rfl, hv, ?_⟩
    obtain ⟨b, d, hb, hs, hr⟩ := key p₁ .look (p₂ ++ (c, .retDeq none) :: q) (by simp [ht])
    obtain ⟨w, ho, -⟩ := step_look.mp hs
    rw [he, hr, ho]
    simp [Op.taken]
  · rw [hpre, List.map_append, ← hrem, htaken, List.append_assoc]
    exact List.prefix_append _ _
  · intro i
    rw [sent_eq h i, appendedBy]
    refine List.IsPrefix.trans ?_ (List.prefix_append _ _)
    exact ((List.take_prefix _ _).filter _).map _

end Fifo

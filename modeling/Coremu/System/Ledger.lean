import Coremu.System.Queues

/-!
# The account of a queue

The list of nodes of a queue and its counter change at different accesses.  A value is in the
list from the access that links its node to the one that moves the head past it; it is counted
from the access after the link to the one before the return of `dequeue`.

## Main definitions

* `enqueued`, `returning`, `taken` — which values are counted, by program points.
* `EnqMove`, `DeqMove` — what the accesses of a queue do to its counter.
* `Ledger` — what is known of the queue of a core.

## Main results

* `Run.ledger` — every queue has such an account.
* `Ledger.size` — the counter and the list.
* `Ledger.atRest` — with nobody in an operation, the counter is the length of the list.
-/

namespace Coremu.System

open Coremu.Core (Machine)
open Coremu.LockQueue (Pc)

variable {M : Machine} {i j : ℕ} {cfg : Config} {tr : List (ℕ × Event)}

/-! ### Program points -/

/-- The enqueuer has counted its value. -/
def enqueued : Pc → Bool
  | .enq .spinUnlock | .enq .ret => true
  | _ => false

/-- The dequeuer has counted down, and will return its value. -/
def returning : Pc → Option DataType
  | .deq (.ret r) => r
  | _ => none

/-- The value that the dequeuer has taken out of the list and not counted down. -/
def taken : Pc → List DataType
  | .deq (.free _ v) | .deq (.decCount v) => [v]
  | _ => []

/-- The function of the queue that the thread is in is the one that it has called. -/
def Fitting (t : Thread) : Prop :=
  match t.queue with
  | .idle => True
  | .enq _ => ∃ j e, t.core.op = .send j (.putIntr e)
  | .deq _ => t.core.op = .idle ∧ t.core.recv = .dequeue

/-! ### The accesses of a queue -/

section Move

variable {q q' : LockQueue.Shared} {p p' : Pc} {y : LockQueue.Choice} {f : Fifo.Event DataType}

/-- The accesses of `enqueue`, as far as the core model is concerned. -/
inductive EnqMove (q q' : LockQueue.Shared) : Pc → Pc → Fifo.Event DataType → Prop
  | call (v : DataType) : q'.count = q.count → EnqMove q q' .idle (.enq (.newNode v)) (.callEnq v)
  | stay (r r' : LockQueue.EnqPc) (f : Fifo.Event DataType) : q'.count = q.count →
      enqueued (.enq r') = enqueued (.enq r) → (f = .tau ∨ ∃ v, f = .append v) →
      EnqMove q q' (.enq r) (.enq r') f
  | count : q'.count = atomicIncq q.count → EnqMove q q' (.enq .incCount) (.enq .spinUnlock) .tau
  | ret : q'.count = q.count → EnqMove q q' (.enq .ret) .idle .retEnq

theorem enqMove_of_step (hs : LockQueue.Step q p y q' p' f) (hp : ∀ r, p ≠ .deq r)
    (hf : f ≠ .callDeq) : EnqMove q q' p p' f := by
  cases hs with
  | callEnq v => exact .call v rfl
  | callDeq => exact absurd rfl hf
  | incCount => exact .count rfl
  | enqRet => exact .ret rfl
  | link v node tail => exact .stay _ _ _ rfl rfl (.inr ⟨v, rfl⟩)
  | newNode | setValue | setNext | spinLock | spin | readTail | setTail | spinUnlock =>
    exact .stay _ _ _ rfl rfl (.inl rfl)
  | _ => exact absurd rfl (hp _)

/-- The accesses of `dequeue`, as far as the core model is concerned. -/
inductive DeqMove (q q' : LockQueue.Shared) : Pc → Pc → Fifo.Event DataType → Prop
  | call : q'.count = q.count → DeqMove q q' .idle (.deq .readHead) .callDeq
  | stay (r r' : LockQueue.DeqPc) (f : Fifo.Event DataType) : q'.count = q.count →
      taken (.deq r') = taken (.deq r) → returning (.deq r) = none → returning (.deq r') = none →
      (f = .tau ∨ f = .look) → DeqMove q q' (.deq r) (.deq r') f
  | remove (node newHead : Addr) (v : DataType) : q'.count = q.count →
      DeqMove q q' (.deq (.setHead node newHead v)) (.deq (.free node v)) (.remove v)
  | count (v : DataType) : q'.count = atomicDecq q.count →
      DeqMove q q' (.deq (.decCount v)) (.deq (.ret (some v))) .tau
  | ret (r : Option DataType) : q'.count = q.count →
      DeqMove q q' (.deq (.ret r)) .idle (.retDeq r)

theorem deqMove_of_step (hs : LockQueue.Step q p y q' p' f) (hp : ∀ r, p ≠ .enq r)
    (hf : ∀ v, f ≠ .callEnq v) : DeqMove q q' p p' f := by
  cases hs with
  | callDeq => exact .call rfl
  | callEnq v => exact absurd rfl (hf v)
  | decCount v => exact .count v rfl
  | deqRet r => exact .ret r rfl
  | setHead node newHead v => exact .remove node newHead v rfl
  | empty | readNext => exact .stay _ _ _ rfl rfl rfl rfl (.inr rfl)
  | readHead | readValue | free => exact .stay _ _ _ rfl rfl rfl rfl (.inl rfl)
  | _ => exact absurd rfl (hp _)

end Move

/-! ### The account of a queue -/

section Ledger

variable {V : ℕ → IntrConfig} {g : LockQueue.Ghost}

/-- What is known of the queue of core `j`: no more values are linked and not counted than
are in the list, and the core has one to take when it is about to. -/
structure Ledger (j : ℕ) (tr : List (ℕ × Event)) (cfg : Config) (v : IntrConfig)
    (g : LockQueue.Ghost) : Prop where
  view : View j cfg v
  exec : Fifo.exec (queueTrace j tr) = some g.abs
  inv : LockQueue.Inv j g (Intr.queueConfig v)
  counted : g.uncounted.toNat ≤ g.abs.content.length
  place : Intr.Place (Intr.Lock.counter j) j g.abs (Intr.queueConfig v) (v.thread j).recv

theorem Separated.ledger (h : Separated M tr cfg V) (hj : j < M.smpCpus) :
    ∃ g, Ledger j tr cfg (V j) g := by
  obtain ⟨trj, hrun, htrj⟩ := h.run j hj
  obtain ⟨hqr, -⟩ := Intr.Run.queue (Intr.Lock.allows j) hrun
  obtain ⟨g, hg, hinv⟩ := LockQueue.Run.inv hqr
  obtain ⟨a, ha, -, hrecv⟩ := Intr.Run.recvInv (Intr.Lock.counter j) (Intr.Lock.allows j) hrun
  obtain rfl : g.abs = a := Option.some.inj (hg.symm.trans ha)
  obtain ⟨U, hU, hle⟩ := hrecv.counted
  obtain rfl : U = Intr.Lock.windowSet g := by
    ext i
    rw [hU, Intr.Lock.mem_windowSet]
    exact Intr.Lock.uncounted_iff (hinv.2 i)
  rw [Intr.Lock.card_windowSet hinv.1] at hle
  exact ⟨g, h.view j hj, htrj ▸ hg, hinv, hle, hrecv.place⟩

theorem Run.ledger (h : Run M tr cfg) (hj : j < M.smpCpus) : ∃ v g, Ledger j tr cfg v g := by
  obtain ⟨V, hV⟩ := h.separated
  obtain ⟨g, hg⟩ := hV.ledger hj
  exact ⟨V j, g, hg⟩

variable {v : IntrConfig}

/-- What holds of a thread that works on the queue. -/
theorem Ledger.thread (h : Ledger j tr cfg v g) (hq : queueOf i (cfg.thread i).core = some j) :
    LockQueue.ThreadInv j g v.shared i (cfg.thread i).queue := by
  rw [← h.view.queue_eq hq]
  exact h.inv.2 i

theorem Ledger.count (h : Ledger j tr cfg v g) : (cfg.shared.lockQueue j).count =
    BitVec.ofInt 64 (g.abs.content.length - g.uncounted.toNat + g.popped.toNat) := by
  rw [← h.view.within.count]
  exact h.inv.1.count

/-- The counter and the list. -/
theorem Ledger.size (h : Ledger j tr cfg v g) : cfg.shared.intrGetSize j =
    g.abs.content.length - g.uncounted.toNat + g.popped.toNat := by
  have hlen := Intr.Lock.length_le h.inv.1
  have hu := Bool.toNat_le g.uncounted
  have hp := Bool.toNat_le g.popped
  rw [Shared.intrGetSize, LockQueue.queueGetSize, h.count]
  exact toInt_ofInt_of_lt (by omega) (by omega)

theorem taken_length (p : Pc) : (taken p).length = (Intr.Lock.popped p).toNat := by
  cases p with
  | deq p => cases p <;> rfl
  | _ => rfl

/-- The value that the core has taken is the one that is counted and not in the list. -/
theorem Ledger.taken_length (h : Ledger j tr cfg v g) (hfit : Fitting (cfg.thread j)) :
    (taken (cfg.thread j).queue).length = g.popped.toNat := by
  have hsee : Intr.Lock.popped (v.thread j).queue = Intr.Lock.popped (cfg.thread j).queue := by
    by_cases hq : queueOf j (cfg.thread j).core = some j
    · rw [h.view.queue_eq hq]
    · have hidle : (v.thread j).queue = .idle := by
        rw [h.view.thread j]
        exact if_neg hq
      rw [hidle]
      unfold Fitting at hfit
      cases hp : (cfg.thread j).queue with
      | deq p =>
        rw [hp] at hfit
        exact absurd (queueOf_dequeue hfit.1 hfit.2) hq
      | _ => rfl
  have hpop := Intr.Lock.popped_iff (h.inv.2 j)
  have hbool : Intr.Lock.popped (v.thread j).queue = g.popped := by
    rw [Bool.eq_iff_iff]
    exact hpop.trans (and_iff_right rfl)
  rw [System.taken_length, ← hsee, hbool]

/-- With nobody in an operation on the queue, the counter is the length of the list, and a
node more is linked. -/
theorem Ledger.atRest (h : Ledger j tr cfg v g)
    (hrest : ∀ i, (queueThread j i (cfg.thread i)).queue = .idle) :
    (g.abs.content.length : ℤ) = cfg.shared.intrGetSize j ∧
      g.nodes.length = g.abs.content.length + 1 ∧ ∀ i, g.abs.op i = .idle := by
  have hinv : ∀ i, LockQueue.ThreadInv j g v.shared i .idle := by
    intro i
    have hi : LockQueue.ThreadInv j g v.shared i (v.thread i).queue := h.inv.2 i
    rwa [h.view.thread i, hrest i] at hi
  have hfree : g.holder = none := Option.eq_none_iff_forall_ne_some.mpr fun i => (hinv i).2.1
  have hlen := h.inv.1.list.length_eq
  rw [List.length_map] at hlen
  refine ⟨?_, hlen, fun i => (hinv i).1⟩
  rw [h.size, (h.inv.1.free hfree).2, (hinv j).2.2 rfl]
  simp

end Ledger

end Coremu.System

import Coremu.LockQueue.Model
import Coremu.Lib.Chain

/-!
# The invariant of the lock-based queue

The consumer takes no lock, so the list and `Tail` agree only outside the window
between `Q->Tail->next = node` and `Q->Tail = node`, in which `Tail` may even
point to a block that was released.  The invariant says what holds there, in
terms of a ghost state: the nodes reachable from `Head`, the owner of each node
that is not linked yet, the holder of `t_lock` and how far it has come, and the
abstract queue.

## Main definitions

* `Ghost` — the ghost state.
* `SharedInv` — what holds of the shared state.
* `ThreadInv` — what holds at each program point of a thread.
* `Stable` — the changes of the state that no other thread notices.

## Main results

* `ThreadInv.stable` — a thread's invariant survives such changes.
-/

namespace Coremu.LockQueue

open Linked

/-- What the code does not store. -/
structure Ghost where
  /-- The nodes reachable from `Head`, the dummy first. -/
  nodes : List Addr
  /-- The thread that has allocated a node and not linked it yet. -/
  owner : Addr → Option ℕ
  /-- The thread between `coremu_spin_lock` and `coremu_spin_unlock`. -/
  holder : Option ℕ
  /-- The holder has linked its node and not yet moved `Tail`. -/
  linked : Bool
  /-- The holder has linked its node and not yet counted it. -/
  uncounted : Bool
  /-- The consumer has moved `Head` and not yet counted down. -/
  popped : Bool
  /-- The abstract queue. -/
  abs : Fifo.State ℕ DataType

/-- The memory as a successor function. -/
def Shared.next (s : Shared) (a : Addr) : Addr := (s.mem a).next

/-- The values in the memory. -/
def Shared.value (s : Shared) (a : Addr) : DataType := (s.mem a).value

/-- What holds of the shared state. -/
structure SharedInv (g : Ghost) (s : Shared) : Prop where
  list : DummyList s.next s.value NULL s.head g.nodes (g.abs.content.map (·.value))
  node : ∀ a ∈ g.nodes, Block a ∧ s.live a = true ∧ g.owner a = none
  owned : ∀ a i, g.owner a = some i → Block a ∧ s.live a = true
  lock : s.tLock = if g.holder.isSome then 1 else 0
  tail : g.linked = false → g.nodes.getLast? = some s.tail
  free : g.holder = none → g.linked = false ∧ g.uncounted = false
  last : ∀ i, g.holder = some i → g.uncounted = true → ∀ e, g.abs.content.getLast? = some e →
    e.sender = i ∧ e.seq = g.abs.finished i
  count : s.count = BitVec.ofInt 64 (g.abs.content.length - g.uncounted.toNat + g.popped.toNat)

/-- Thread `i` owns `node`, which holds `value` if that has been written and no
successor if that has. -/
def Owns (g : Ghost) (s : Shared) (i : ℕ) (node : Addr) (value : Option DataType)
    (next : Option Addr) : Prop :=
  g.owner node = some i ∧ (∀ v, value = some v → (s.mem node).value = v) ∧
    ∀ a, next = some a → (s.mem node).next = a

/-- Program points between `coremu_spin_lock` and `coremu_spin_unlock`. -/
def EnqPc.holds : EnqPc → Bool
  | .readTail _ _ | .link _ _ _ | .setTail _ | .incCount | .spinUnlock => true
  | _ => false

/-- What holds at each program point of `enqueue`. -/
def EnqInv (g : Ghost) (s : Shared) (i : ℕ) : EnqPc → Prop
  | .newNode v => g.abs.op i = .enq v
  | .setValue v node => g.abs.op i = .enq v ∧ Owns g s i node none none
  | .setNext v node => g.abs.op i = .enq v ∧ Owns g s i node (some v) none
  | .spinLock v node => g.abs.op i = .enq v ∧ Owns g s i node (some v) (some NULL)
  | .readTail v node => g.abs.op i = .enq v ∧ Owns g s i node (some v) (some NULL) ∧
      g.linked = false ∧ g.uncounted = false
  | .link v node tail => g.abs.op i = .enq v ∧ Owns g s i node (some v) (some NULL) ∧
      g.linked = false ∧ g.uncounted = false ∧ tail = s.tail
  | .setTail node => g.abs.op i = .enqDone ∧ g.linked = true ∧ g.uncounted = true ∧
      g.nodes.getLast? = some node
  | .incCount => g.abs.op i = .enqDone ∧ g.linked = false ∧ g.uncounted = true
  | .spinUnlock => g.abs.op i = .enqDone ∧ g.linked = false ∧ g.uncounted = false
  | .ret => g.abs.op i = .enqDone

/-- Program points of `dequeue` between the move of `Head` and the count. -/
def DeqPc.popped : DeqPc → Bool
  | .free _ _ | .decCount _ => true
  | _ => false

/-- What holds at each program point of `dequeue`. -/
def DeqInv (g : Ghost) (s : Shared) (i : ℕ) : DeqPc → Prop
  | .readHead => ∃ w, g.abs.op i = .deq w
  | .readNext node => (∃ w, g.abs.op i = .deq w) ∧ node = s.head
  | .readValue node newHead => (∃ w, g.abs.op i = .deq w) ∧
      ∃ rest, g.nodes = node :: newHead :: rest
  | .setHead node newHead v => (∃ w, g.abs.op i = .deq w) ∧
      ∃ rest, g.nodes = node :: newHead :: rest ∧ (s.mem newHead).value = v
  | .free node v => g.abs.op i = .deqDone v ∧ s.live node = true ∧ node ∉ g.nodes ∧
      g.owner node = none
  | .decCount v => g.abs.op i = .deqDone v
  | .ret (some v) => g.abs.op i = .deqDone v
  | .ret none => g.abs.op i = .deq true

/-- What holds of a thread; `c` is the consumer. -/
def ThreadInv (c : ℕ) (g : Ghost) (s : Shared) (i : ℕ) : Pc → Prop
  | .idle => g.abs.op i = .idle ∧ g.holder ≠ some i ∧ (i = c → g.popped = false)
  | .enq p => EnqInv g s i p ∧ (p.holds = true ↔ g.holder = some i) ∧ (i = c → g.popped = false)
  | .deq p => DeqInv g s i p ∧ g.holder ≠ some i ∧ i = c ∧ g.popped = p.popped

/-! ### What another thread's step may change -/

/-- A change of the state that thread `j` does not notice. -/
structure Stable (c : ℕ) (g g' : Ghost) (s s' : Shared) (j : ℕ) : Prop where
  op : g'.abs.op j = g.abs.op j
  holder : g'.holder = some j ↔ g.holder = some j
  /-- The holder's view of the lock-protected part. -/
  locked : g.holder = some j → g'.linked = g.linked ∧ g'.uncounted = g.uncounted ∧
    s'.tail = s.tail ∧ g'.nodes.getLast? = g.nodes.getLast?
  owned : ∀ a, g.owner a = some j → g'.owner a = some j ∧ s'.mem a = s.mem a
  /-- The consumer's view of the front of the list. -/
  front : j = c → g'.popped = g.popped ∧ s'.head = s.head ∧
    (∀ a b l, g.nodes = a :: b :: l → (∃ l', g'.nodes = a :: b :: l') ∧
      (s'.mem b).value = (s.mem b).value) ∧
    ∀ a, s.live a = true → a ∉ g.nodes → g.owner a = none →
      s'.live a = true ∧ a ∉ g'.nodes ∧ g'.owner a = none

variable {c : ℕ} {g g' : Ghost} {s s' : Shared} {i j : ℕ}

theorem Owns.stable {node : Addr} {v : Option DataType} {n : Option Addr}
    (h : Owns g s j node v n) (hst : Stable c g g' s s' j) : Owns g' s' j node v n := by
  obtain ⟨ho, hv, hn⟩ := h
  obtain ⟨ho', hm⟩ := hst.owned node ho
  exact ⟨ho', by rw [hm]; exact hv, by rw [hm]; exact hn⟩

theorem EnqInv.stable {p : EnqPc} (h : EnqInv g s j p) (hst : Stable c g g' s s' j)
    (hp : p.holds = true → g.holder = some j) : EnqInv g' s' j p := by
  cases p with
  | newNode v => exact hst.op.trans h
  | setValue v node => exact ⟨hst.op.trans h.1, h.2.stable hst⟩
  | setNext v node => exact ⟨hst.op.trans h.1, h.2.stable hst⟩
  | spinLock v node => exact ⟨hst.op.trans h.1, h.2.stable hst⟩
  | readTail v node =>
    obtain ⟨hl, hu, -, -⟩ := hst.locked (hp rfl)
    exact ⟨hst.op.trans h.1, h.2.1.stable hst, hl.trans h.2.2.1, hu.trans h.2.2.2⟩
  | link v node tail =>
    obtain ⟨hl, hu, ht, -⟩ := hst.locked (hp rfl)
    exact ⟨hst.op.trans h.1, h.2.1.stable hst, hl.trans h.2.2.1, hu.trans h.2.2.2.1,
      h.2.2.2.2.trans ht.symm⟩
  | setTail node =>
    obtain ⟨hl, hu, -, hn⟩ := hst.locked (hp rfl)
    exact ⟨hst.op.trans h.1, hl.trans h.2.1, hu.trans h.2.2.1, hn.trans h.2.2.2⟩
  | incCount =>
    obtain ⟨hl, hu, -, -⟩ := hst.locked (hp rfl)
    exact ⟨hst.op.trans h.1, hl.trans h.2.1, hu.trans h.2.2⟩
  | spinUnlock =>
    obtain ⟨hl, hu, -, -⟩ := hst.locked (hp rfl)
    exact ⟨hst.op.trans h.1, hl.trans h.2.1, hu.trans h.2.2⟩
  | ret => exact hst.op.trans h

theorem DeqInv.stable {p : DeqPc} (h : DeqInv g s j p) (hst : Stable c g g' s s' j)
    (hj : j = c) : DeqInv g' s' j p := by
  obtain ⟨-, hh, hf, hx⟩ := hst.front hj
  cases p with
  | readHead => simpa [DeqInv, hst.op] using h
  | readNext node => exact ⟨by simpa [hst.op] using h.1, h.2.trans hh.symm⟩
  | readValue node newHead =>
    obtain ⟨ho, l, hl⟩ := h
    exact ⟨by simpa [hst.op] using ho, (hf _ _ _ hl).1⟩
  | setHead node newHead v =>
    obtain ⟨ho, l, hl, hv⟩ := h
    obtain ⟨⟨l', hl'⟩, hm⟩ := hf _ _ _ hl
    exact ⟨by simpa [hst.op] using ho, l', hl', hm.trans hv⟩
  | free node v =>
    obtain ⟨ho, hl, hn, hw⟩ := h
    exact ⟨hst.op.trans ho, hx node hl hn hw⟩
  | decCount v => exact hst.op.trans h
  | ret r =>
    cases r with
    | none => exact hst.op.trans h
    | some v => exact hst.op.trans h

/-- **A thread's invariant survives a change it does not notice.** -/
theorem ThreadInv.stable {p : Pc} (h : ThreadInv c g s j p) (hst : Stable c g g' s s' j) :
    ThreadInv c g' s' j p := by
  cases p with
  | idle =>
    obtain ⟨ho, hh, hp⟩ := h
    exact ⟨hst.op.trans ho, fun e => hh (hst.holder.mp e),
      fun e => (hst.front e).1.trans (hp e)⟩
  | enq p =>
    obtain ⟨he, hh, hp⟩ := h
    exact ⟨he.stable hst hh.mp, hh.trans hst.holder.symm, fun e => (hst.front e).1.trans (hp e)⟩
  | deq p =>
    obtain ⟨hd, hh, hj, hp⟩ := h
    exact ⟨hd.stable hst hj, fun e => hh (hst.holder.mp e), hj, (hst.front hj).1.trans hp⟩

end Coremu.LockQueue

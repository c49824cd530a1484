import Coremu.Lib.Tso
import Coremu.LockQueue.Model

/-!
# The queue of `main/lock-queue.c` with store buffers

The code of `enqueue` and `dequeue` as an x86 processor runs it.  `__testandset`, `atomic_incq`
and `atomic_decq` are locked instructions.  Every other write is a plain store, also the one of
`coremu_spin_unlock`, which has no barrier, and the ones with which `coremu_mallocz` clears a
block; it waits in the store buffer of the thread.

Which blocks are in use is the allocator's own state, and changes at once.  So does the content
of a block that is released: the allocator hands a block to another thread only after what the
first one did to it.

## Main definitions

* `Store`, `Shared.commit` — the plain stores, and what they do to memory.
* `code` — the code, access by access.
* `BufferedRun` — runs from `new_queue()` with store buffers, in which one thread dequeues.

## Main results

* `code_direct` — **with stores that take effect at once, the code is the model of the queue.**
-/

namespace Coremu.LockQueue

/-- A plain store. -/
inductive Store
  /-- `coremu_mallocz` clears a block. -/
  | clear (node : Addr)
  /-- `node->value = value;` -/
  | value (node : Addr) (value : DataType)
  /-- `node->next = NULL;` -/
  | next (node next : Addr)
  /-- `Q->Tail->next = node;`, with the value that enters the queue with `node` -/
  | link (tail node : Addr) (value : DataType)
  /-- `Q->Head = new_head;` -/
  | head (newHead : Addr)
  /-- `Q->Tail = node;` -/
  | tail (node : Addr)
  /-- `s->lock = 0;` of `coremu_spin_unlock` -/
  | unlock
  deriving DecidableEq, Repr

/-- A store reaches memory. -/
def Shared.commit (s : Shared) : Store → Shared
  | .clear node => s.write node ⟨NULL, 0⟩
  | .value node v => s.write node { s.mem node with value := v }
  | .next node n => s.write node { s.mem node with next := n }
  | .link tail node _ => s.write tail { s.mem tail with next := node }
  | .head a => { s with head := a }
  | .tail a => { s with tail := a }
  | .unlock => { s with tLock := 0 }

/-- An enqueue takes effect when the link to its node is in memory. -/
def Store.shows : Store → Option (Fifo.Event DataType)
  | .link _ _ v => some (.append v)
  | _ => none

/-- The effect of an access of the queue. -/
abbrev Effect := Tso.Effect Shared Pc Store (Fifo.Event DataType)

/-- One access of `enqueue`, in the memory `s` that the thread sees as `v`. -/
def enqueueAccess (s v : Shared) : EnqPc → Choice → Option Effect
  | .newNode value, .alloc a =>
      if Block a ∧ s.live a = false then
        some ⟨{ s with live := Function.update s.live a true }, [.clear a],
          .enq (.setValue value a), .tau⟩
      else none
  | .setValue value node, .go => some ⟨s, [.value node value], .enq (.setNext value node), .tau⟩
  | .setNext value node, .go => some ⟨s, [.next node NULL], .enq (.spinLock value node), .tau⟩
  | .spinLock value node, .go =>
      some ⟨{ s with tLock := (testandset s.tLock).1 }, [],
        if (testandset s.tLock).2 = 0 then .enq (.readTail value node)
        else .enq (.spinLock value node), .tau⟩
  | .readTail value node, .go => some ⟨s, [], .enq (.link value node v.tail), .tau⟩
  | .link value node tail, .go =>
      some ⟨s, [.link tail node value], .enq (.setTail node), .tau⟩
  | .setTail node, .go => some ⟨s, [.tail node], .enq .incCount, .tau⟩
  | .incCount, .go =>
      some ⟨{ s with count := atomicIncq s.count }, [], .enq .spinUnlock, .tau⟩
  | .spinUnlock, .go => some ⟨s, [.unlock], .enq .ret, .tau⟩
  | .ret, .go => some ⟨s, [], .idle, .retEnq⟩
  | _, _ => none

/-- One access of `dequeue`. -/
def dequeueAccess (s v : Shared) : DeqPc → Choice → Option Effect
  | .readHead, .go => some ⟨s, [], .deq (.readNext v.head), .tau⟩
  | .readNext node, .go =>
      some ⟨s, [], if (v.mem node).next = NULL then .deq (.ret none)
        else .deq (.readValue node (v.mem node).next), .look⟩
  | .readValue node newHead, .go =>
      some ⟨s, [], .deq (.setHead node newHead (v.mem newHead).value), .tau⟩
  | .setHead node newHead value, .go =>
      some ⟨s, [.head newHead], .deq (.free node value), .remove value⟩
  | .free node value, .free n =>
      some ⟨{ s.write node n with live := Function.update s.live node false }, [],
        .deq (.decCount value), .tau⟩
  | .decCount value, .go =>
      some ⟨{ s with count := atomicDecq s.count }, [], .deq (.ret (some value)), .tau⟩
  | .ret r, .go => some ⟨s, [], .idle, .retDeq r⟩
  | _, _ => none

/-- One access of a thread: a call when it is idle, else the next one of the function it is in. -/
def access (s v : Shared) : Pc → Choice → Option Effect
  | .idle, .callEnq value => some ⟨s, [], .enq (.newNode value), .callEnq value⟩
  | .idle, .callDeq => some ⟨s, [], .deq .readHead, .callDeq⟩
  | .idle, _ => none
  | .enq p, x => enqueueAccess s v p x
  | .deq p, x => dequeueAccess s v p x

/-- The locked instructions. -/
def Pc.fences : Pc → Bool
  | .enq (.spinLock _ _) | .enq .incCount | .deq (.decCount _) => true
  | _ => false

/-- The code of the queue. -/
def code : Tso.Code ℕ Shared Pc Choice Store (Fifo.Event DataType) where
  commit := Shared.commit
  shows := Store.shows
  quiet := .tau
  fences := Pc.fences
  access _ := access

/-- **With stores that take effect at once, the code is the model of the queue.** -/
theorem code_direct : code.direct = program := by
  refine congrArg Interleave.Program.mk (funext fun _ => funext fun s => funext fun p =>
    funext fun x => ?_)
  cases p with
  | idle => cases x <;> rfl
  | enq p =>
    cases p with
    | newNode v =>
      cases x with
      | alloc a =>
        simp only [code, access, enqueueAccess, step, enqueue]
        split <;> rfl
      | _ => rfl
    | _ => cases x <;> rfl
  | deq p => cases p <;> cases x <;> rfl

/-- The state of the queue and of all threads, with their store buffers. -/
abbrev BufferedConfig := Interleave.Config ℕ Shared (Tso.Thread Pc Store)

/-- After `new_queue()`, with its stores in memory and no operation in progress. -/
def NewBuffered (m : BufferedConfig) : Prop :=
  ∃ mem node, Block node ∧ m = ⟨initializeQ mem node, fun _ => ⟨.idle, []⟩⟩

/-- Only thread `c` calls `dequeue`. -/
def OneBufferedConsumer (c : ℕ) (_ : List (ℕ × Fifo.Event DataType)) (_ : BufferedConfig) (i : ℕ) :
    Option Choice → Prop
  | some .callDeq => i = c
  | _ => True

instance (c : ℕ) (tr : List (ℕ × Fifo.Event DataType)) (m : BufferedConfig) (i : ℕ) :
    ∀ x, Decidable (OneBufferedConsumer c tr m i x)
  | some .callDeq => inferInstanceAs (Decidable (i = c))
  | some (.callEnq _) | some (.alloc _) | some (.free _) | some .go | none =>
      inferInstanceAs (Decidable True)

/-- The runs from `new_queue()` with store buffers, in which any threads call `enqueue` and thread
`c` alone calls `dequeue`. -/
abbrev BufferedRun (c : ℕ) := code.buffered.Run NewBuffered (OneBufferedConsumer c)

end Coremu.LockQueue

import Coremu.Atomic
import Coremu.Lib.Interleave
import Coremu.Lib.Fifo

/-!
# The queue of `main/lock-queue.c`

The default interrupt queue: a linked list with a dummy node, producers ordered
by the spin lock `t_lock`, and one consumer that takes no lock.  Each access to
shared memory is one step: every read or write of `Head`, `Tail`, `node->next`
and `node->value`, the `cmpxchg` of `__testandset`, the unlock store, the locked
increments and decrements of `count`, and each allocation and release of a node.

`coremu_mallocz` may hand out any block that is not in use, also one that was
released before, and clears it; `coremu_free` leaves the block with any content.

## Main definitions

* `Node`, `Shared` — the nodes, `struct queue_t` and the heap.
* `EnqPc`, `DeqPc`, `Pc` — the program points, with the live local variables.
* `enqueue`, `dequeue`, `program` — one step of each function.
* `Step` — what a step can do; `step_cases` says that there is nothing else.
* `initializeQ`, `NewQueue`, `OneConsumer`, `Run` — runs from `new_queue()` in which one thread
  dequeues.
-/

namespace Coremu.LockQueue

/-- `node_t` -/
structure Node where
  next : Addr
  value : DataType
  deriving DecidableEq, Repr

/-- `struct queue_t`, with the heap its nodes live in. -/
structure Shared where
  /-- `Q->Head` -/
  head : Addr
  /-- `Q->Tail` -/
  tail : Addr
  /-- `Q->count` -/
  count : BitVec 64
  /-- `Q->t_lock` -/
  tLock : BitVec 32
  /-- The content of every block. -/
  mem : Addr → Node
  /-- The blocks in use. -/
  live : Addr → Bool

/-- Program points of `enqueue`, named after the access that comes next. -/
inductive EnqPc
  /-- `node_t *node = new_node();` -/
  | newNode (value : DataType)
  /-- `node->value = value;` -/
  | setValue (value : DataType) (node : Addr)
  /-- `node->next = NULL;` -/
  | setNext (value : DataType) (node : Addr)
  /-- `coremu_spin_lock(&Q->t_lock);` -/
  | spinLock (value : DataType) (node : Addr)
  /-- `Q->Tail->next = node;`, reading `Q->Tail` -/
  | readTail (value : DataType) (node : Addr)
  /-- `Q->Tail->next = node;`, writing the link -/
  | link (value : DataType) (node tail : Addr)
  /-- `Q->Tail = node;` -/
  | setTail (node : Addr)
  /-- `atomic_incq(&Q->count);` -/
  | incCount
  /-- `coremu_spin_unlock(&Q->t_lock);` -/
  | spinUnlock
  | ret
  deriving Repr

/-- Program points of `dequeue`. -/
inductive DeqPc
  /-- `node_t *node = Q->Head;` -/
  | readHead
  /-- `node_t *new_head = node->next;` -/
  | readNext (node : Addr)
  /-- `*value_p = new_head->value;` -/
  | readValue (node newHead : Addr)
  /-- `Q->Head = new_head;` -/
  | setHead (node newHead : Addr) (value : DataType)
  /-- `coremu_free(node);` -/
  | free (node : Addr) (value : DataType)
  /-- `atomic_decq(&Q->count);` -/
  | decCount (value : DataType)
  /-- The result: `none` for `false`, the value written to `*value_p` for `true`. -/
  | ret (r : Option DataType)
  deriving Repr

/-- Where a thread stands. -/
inductive Pc
  | idle
  | enq (p : EnqPc)
  | deq (p : DeqPc)
  deriving Repr

/-- What the code leaves open at a step. -/
inductive Choice
  /-- The thread calls `enqueue` with this value. -/
  | callEnq (value : DataType)
  /-- The thread calls `dequeue`. -/
  | callDeq
  /-- The allocator returns this block. -/
  | alloc (a : Addr)
  /-- The release leaves this in the block. -/
  | free (n : Node)
  /-- Nothing. -/
  | go
  deriving Repr

/-- Writing a block. -/
def Shared.write (s : Shared) (a : Addr) (n : Node) : Shared :=
  { s with mem := Function.update s.mem a n }

/-- One access of `enqueue`. -/
def enqueue (s : Shared) : EnqPc → Choice → Option (Shared × Pc × Fifo.Event DataType)
  | .newNode v, .alloc a =>
      if Block a ∧ s.live a = false then
        some ({ s.write a ⟨NULL, 0⟩ with live := Function.update s.live a true },
          .enq (.setValue v a), .tau)
      else none
  | .setValue v node, .go =>
      some (s.write node { s.mem node with value := v }, .enq (.setNext v node), .tau)
  | .setNext v node, .go =>
      some (s.write node { s.mem node with next := NULL }, .enq (.spinLock v node), .tau)
  | .spinLock v node, .go =>
      -- `while (__testandset(lock));`: the loop ends when the word read was 0
      some ({ s with tLock := (testandset s.tLock).1 },
        if (testandset s.tLock).2 = 0 then .enq (.readTail v node) else .enq (.spinLock v node),
        .tau)
  | .readTail v node, .go => some (s, .enq (.link v node s.tail), .tau)
  | .link v node tail, .go =>
      some (s.write tail { s.mem tail with next := node }, .enq (.setTail node), .append v)
  | .setTail node, .go => some ({ s with tail := node }, .enq .incCount, .tau)
  | .incCount, .go => some ({ s with count := atomicIncq s.count }, .enq .spinUnlock, .tau)
  | .spinUnlock, .go => some ({ s with tLock := 0 }, .enq .ret, .tau)
  | .ret, .go => some (s, .idle, .retEnq)
  | _, _ => none

/-- One access of `dequeue`. -/
def dequeue (s : Shared) : DeqPc → Choice → Option (Shared × Pc × Fifo.Event DataType)
  | .readHead, .go => some (s, .deq (.readNext s.head), .tau)
  | .readNext node, .go =>
      some (s, if (s.mem node).next = NULL then .deq (.ret none)
        else .deq (.readValue node (s.mem node).next), .look)
  | .readValue node newHead, .go =>
      some (s, .deq (.setHead node newHead (s.mem newHead).value), .tau)
  | .setHead node newHead v, .go =>
      some ({ s with head := newHead }, .deq (.free node v), .remove v)
  | .free node v, .free n =>
      some ({ s.write node n with live := Function.update s.live node false },
        .deq (.decCount v), .tau)
  | .decCount v, .go =>
      some ({ s with count := atomicDecq s.count }, .deq (.ret (some v)), .tau)
  | .ret r, .go => some (s, .idle, .retDeq r)
  | _, _ => none

/-- One step of a thread: a call when it is idle, else the next access of the
function it is in. -/
def step (s : Shared) : Pc → Choice → Option (Shared × Pc × Fifo.Event DataType)
  | .idle, .callEnq v => some (s, .enq (.newNode v), .callEnq v)
  | .idle, .callDeq => some (s, .deq .readHead, .callDeq)
  | .idle, _ => none
  | .enq p, x => enqueue s p x
  | .deq p, x => dequeue s p x

/-- `queue_get_size` -/
def queueGetSize (s : Shared) : ℤ := s.count.toInt

/-- The threads, numbered without bound. -/
def program : Interleave.Program ℕ Shared Pc Choice (Fifo.Event DataType) where
  step _ s p x := step s p x

/-- The state of the queue and of all threads. -/
abbrev Config := Interleave.Config ℕ Shared Pc

/-! ### What a step can do -/

/-- What a step from a program point can do, access by access. -/
inductive Step (s : Shared) : Pc → Choice → Shared → Pc → Fifo.Event DataType → Prop
  | callEnq (v : DataType) : Step s .idle (.callEnq v) s (.enq (.newNode v)) (.callEnq v)
  | callDeq : Step s .idle .callDeq s (.deq .readHead) .callDeq
  | newNode (v : DataType) (a : Addr) : Block a → s.live a = false →
      Step s (.enq (.newNode v)) (.alloc a)
        { s.write a ⟨NULL, 0⟩ with live := Function.update s.live a true }
        (.enq (.setValue v a)) .tau
  | setValue (v : DataType) (node : Addr) : Step s (.enq (.setValue v node)) .go
      (s.write node { s.mem node with value := v }) (.enq (.setNext v node)) .tau
  | setNext (v : DataType) (node : Addr) : Step s (.enq (.setNext v node)) .go
      (s.write node { s.mem node with next := NULL }) (.enq (.spinLock v node)) .tau
  | spinLock (v : DataType) (node : Addr) : s.tLock = 0 → Step s (.enq (.spinLock v node)) .go
      { s with tLock := 1 } (.enq (.readTail v node)) .tau
  | spin (v : DataType) (node : Addr) : s.tLock ≠ 0 →
      Step s (.enq (.spinLock v node)) .go s (.enq (.spinLock v node)) .tau
  | readTail (v : DataType) (node : Addr) :
      Step s (.enq (.readTail v node)) .go s (.enq (.link v node s.tail)) .tau
  | link (v : DataType) (node tail : Addr) : Step s (.enq (.link v node tail)) .go
      (s.write tail { s.mem tail with next := node }) (.enq (.setTail node)) (.append v)
  | setTail (node : Addr) :
      Step s (.enq (.setTail node)) .go { s with tail := node } (.enq .incCount) .tau
  | incCount : Step s (.enq .incCount) .go { s with count := atomicIncq s.count }
      (.enq .spinUnlock) .tau
  | spinUnlock : Step s (.enq .spinUnlock) .go { s with tLock := 0 } (.enq .ret) .tau
  | enqRet : Step s (.enq .ret) .go s .idle .retEnq
  | readHead : Step s (.deq .readHead) .go s (.deq (.readNext s.head)) .tau
  | empty (node : Addr) : (s.mem node).next = NULL →
      Step s (.deq (.readNext node)) .go s (.deq (.ret none)) .look
  | readNext (node : Addr) : (s.mem node).next ≠ NULL →
      Step s (.deq (.readNext node)) .go s (.deq (.readValue node (s.mem node).next)) .look
  | readValue (node newHead : Addr) : Step s (.deq (.readValue node newHead)) .go s
      (.deq (.setHead node newHead (s.mem newHead).value)) .tau
  | setHead (node newHead : Addr) (v : DataType) : Step s (.deq (.setHead node newHead v)) .go
      { s with head := newHead } (.deq (.free node v)) (.remove v)
  | free (node : Addr) (v : DataType) (n : Node) : Step s (.deq (.free node v)) (.free n)
      { s.write node n with live := Function.update s.live node false } (.deq (.decCount v)) .tau
  | decCount (v : DataType) : Step s (.deq (.decCount v)) .go
      { s with count := atomicDecq s.count } (.deq (.ret (some v))) .tau
  | deqRet (r : Option DataType) : Step s (.deq (.ret r)) .go s .idle (.retDeq r)

/-- **Every step is one of these.** -/
theorem step_cases {s s' : Shared} {p p' : Pc} {x : Choice} {e : Fifo.Event DataType}
    (hs : step s p x = some (s', p', e)) : Step s p x s' p' e := by
  cases p with
  | idle => cases x <;> cases hs <;> constructor
  | enq p =>
    cases p with
    | newNode v =>
      cases x with
      | alloc a =>
        obtain ⟨⟨hb, hl⟩, hs⟩ := Option.ite_none_right_eq_some.mp hs
        cases hs
        exact .newNode v a hb hl
      | _ => cases hs
    | spinLock v node =>
      cases x with
      | go =>
        simp only [step, enqueue, testandset, compareExchange] at hs
        by_cases hl : s.tLock = 0
        · simp only [hl, if_true] at hs
          cases hs
          exact .spinLock v node hl
        · simp only [hl, if_false] at hs
          cases hs
          exact .spin v node hl
      | _ => cases hs
    | _ =>
      cases x <;> cases hs
      constructor
  | deq p =>
    cases p with
    | readNext node =>
      cases x with
      | go =>
        simp only [step, dequeue] at hs
        by_cases hn : (s.mem node).next = NULL
        · simp only [hn, if_true] at hs
          cases hs
          exact .empty node hn
        · simp only [hn, if_false] at hs
          cases hs
          exact .readNext node hn
      | _ => cases hs
    | _ =>
      cases x <;> cases hs
      constructor

/-! ### Runs -/

/-- `initialize`, with `node` the block that `new_node` returns out of the heap
`mem`. -/
def initializeQ (mem : Addr → Node) (node : Addr) : Shared where
  head := node
  tail := node
  count := 0
  tLock := 0
  mem := Function.update mem node ⟨NULL, 0⟩
  live := fun a => a = node

/-- After `new_queue()`, with no operation in progress. -/
def NewQueue (c : Config) : Prop :=
  ∃ mem node, Block node ∧ c = ⟨initializeQ mem node, fun _ => .idle⟩

/-- Only thread `c` calls `dequeue`. -/
def OneConsumer (c : ℕ) (_ : List (ℕ × Fifo.Event DataType)) (_ : Config) (i : ℕ) :
    Choice → Prop
  | .callDeq => i = c
  | _ => True

instance (c : ℕ) (tr : List (ℕ × Fifo.Event DataType)) (cfg : Config) (i : ℕ) :
    ∀ x, Decidable (OneConsumer c tr cfg i x)
  | .callDeq => inferInstanceAs (Decidable (i = c))
  | .callEnq _ | .alloc _ | .free _ | .go => inferInstanceAs (Decidable True)

/-- The runs from `new_queue()` in which any threads call `enqueue` and thread `c`
alone calls `dequeue`. -/
abbrev Run (c : ℕ) := program.Run NewQueue (OneConsumer c)

end Coremu.LockQueue

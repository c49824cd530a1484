import Coremu.Atomic
import Coremu.Lib.Interleave
import Coremu.Lib.Fifo

/-!
# The queue of `main/ms-queue.c`

The lock-free interrupt queue: a linked list with a dummy node, in which `Head`,
`Tail` and the `next` field of a node are pairs of a pointer and a count.  Such a
pair is read as two 64-bit words, in either order, and written as a whole by
`cmpxchg16b` only.  `cmp128(p1, p2)` is the compare-and-swap `CAS(p1, *p2, *p1)`,
which reads `*p1` once more, again word by word, before it swaps.

A block stays readable after `ms_free`, but what is in it then belongs to the allocator,
which keeps its own links in the first words of a free block, where `next` was.  So the
release may leave anything there, also `NULL`.  The allocator may hand out any block that
is not in use, also one that was freed, with any content: neither `new_node` nor `enqueue`
sets `next.count`.

`dequeue` blocks the signals of its thread and restores them before it returns
`true`; the call that should do so on the other path stands after the `return`.

## Main definitions

* `Pointer`, `Node`, `Shared` — the pairs, the nodes, `struct queue_t` and the heap.
* `Half`, `Torn` — reading a pair word by word.
* `EnqPc`, `DeqPc`, `Thread` — the program points, and the signal mask.
* `enqueue`, `dequeue`, `program` — one step of each function.
* `Step` — what a step can do; `step_cases` says that there is nothing else.
* `Unheld`, `NoReuse` — two assumptions on the blocks that are handed out.
* `Unreleased` — an assumption on the blocks that are freed.
* `AnyRun`, `Run`, `FreshRun`, `KeptRun` — the runs without an assumption and under these.
-/

namespace Coremu.MsQueue

/-- `pointer_t` -/
structure Pointer where
  ptr : Addr
  count : BitVec 64
  deriving DecidableEq, Repr

/-- `node_t` -/
structure Node where
  next : Pointer
  value : DataType
  deriving DecidableEq, Repr

/-- `struct queue_t`, with the heap its nodes live in and the history of both. -/
structure Shared where
  /-- `Q->Head` -/
  head : Pointer
  /-- `Q->Tail` -/
  tail : Pointer
  /-- `Q->count` -/
  count : BitVec 64
  /-- The content of every block. -/
  mem : Addr → Node
  /-- The blocks in use. -/
  live : Addr → Bool
  /-- The blocks that were handed out at some time. -/
  used : Addr → Bool
  /-- Whether a block was handed out a second time. -/
  reused : Bool
  /-- How often `Q->Head` has changed. -/
  headChanges : ℕ
  /-- How often `Q->Tail` has changed. -/
  tailChanges : ℕ

/-! ### Reading and writing pairs -/

/-- The word of a pair that is read first. -/
inductive Half
  | ptr
  | count
  deriving Repr

/-- A pair of which one word has been read. -/
inductive Torn
  | ptr (a : Addr)
  | count (n : BitVec 64)
  deriving Repr

/-- Reading the first word. -/
def Half.read : Half → Pointer → Torn
  | .ptr, p => .ptr p.ptr
  | .count, p => .count p.count

/-- Reading the other word. -/
def Torn.rest : Torn → Pointer → Pointer
  | .ptr a, p => ⟨a, p.count⟩
  | .count n, p => ⟨p.ptr, n⟩

/-- Writing a block. -/
def Shared.write (s : Shared) (a : Addr) (n : Node) : Shared :=
  { s with mem := Function.update s.mem a n }

/-- Storing a pair in `Q->Head`. -/
def Shared.setHead (s : Shared) (p : Pointer) : Shared :=
  { s with head := p, headChanges := if p = s.head then s.headChanges else s.headChanges + 1 }

/-- Storing a pair in `Q->Tail`. -/
def Shared.setTail (s : Shared) (p : Pointer) : Shared :=
  { s with tail := p, tailChanges := if p = s.tail then s.tailChanges else s.tailChanges + 1 }

/-- `CAS(&Q->Head, old, new)` -/
def casHead (s : Shared) (old new : Pointer) : Shared × Bool :=
  (s.setHead (compareExchange s.head old new).1, (compareExchange s.head old new).2)

/-- `CAS(&Q->Tail, old, new)` -/
def casTail (s : Shared) (old new : Pointer) : Shared × Bool :=
  (s.setTail (compareExchange s.tail old new).1, (compareExchange s.tail old new).2)

/-- `CAS(&(a->next), old, new)` -/
def casNext (s : Shared) (a : Addr) (old new : Pointer) : Shared × Bool :=
  (s.write a { s.mem a with next := (compareExchange (s.mem a).next old new).1 },
    (compareExchange (s.mem a).next old new).2)

/-! ### Threads -/

/-- Program points of `enqueue`, named after the access that comes next; `rest`
stands for the second word of a read. -/
inductive EnqPc
  /-- `coremu_sigmask_blk(&save_sig_set, NULL);` -/
  | sigmaskBlk (value : DataType)
  /-- `node_t *node = new_node();` -/
  | newNode (value : DataType)
  /-- `node->value = value;` -/
  | setValue (value : DataType) (node : Addr)
  /-- `node->next.ptr = NULL;` -/
  | setNext (value : DataType) (node : Addr)
  /-- `tail = Q->Tail;` -/
  | readTail (value : DataType) (node : Addr)
  | restTail (value : DataType) (node : Addr) (tail : Torn)
  /-- `next = tail.ptr->next;` -/
  | readNext (value : DataType) (node : Addr) (tail : Pointer)
  | restNext (value : DataType) (node : Addr) (tail : Pointer) (next : Torn)
  /-- `cmp128(&Q->Tail, &tail)`, reading `*p1` -/
  | readCur (value : DataType) (node : Addr) (tail next : Pointer)
  | restCur (value : DataType) (node : Addr) (tail next : Pointer) (cur : Torn)
  /-- `cmp128(&Q->Tail, &tail)`, the swap -/
  | cmp128 (value : DataType) (node : Addr) (tail next cur : Pointer)
  /-- `CAS(&(tail.ptr->next), next, new_ptr)` -/
  | link (value : DataType) (node : Addr) (tail next : Pointer)
  /-- `CAS(&Q->Tail, tail, new_ptr);` in the loop -/
  | advance (value : DataType) (node : Addr) (tail next : Pointer)
  /-- `CAS(&Q->Tail, tail, new_ptr);` after the loop -/
  | swing (node : Addr) (tail : Pointer)
  /-- `atomic_incq(&Q->count);` -/
  | incCount
  /-- `coremu_sigmask_res(&save_sig_set, NULL);` -/
  | sigmaskRes
  | ret
  deriving Repr

/-- Program points of `dequeue`. -/
inductive DeqPc
  /-- `coremu_sigmask_blk(&save_sig_set, NULL);` -/
  | sigmaskBlk
  /-- `head = Q->Head;` -/
  | readHead
  | restHead (head : Torn)
  /-- `tail = Q->Tail;` -/
  | readTail (head : Pointer)
  | restTail (head : Pointer) (tail : Torn)
  /-- `next = head.ptr->next;` -/
  | readNext (head tail : Pointer)
  | restNext (head tail : Pointer) (next : Torn)
  /-- `cmp128(&Q->Head, &head)`, reading `*p1` -/
  | readCur (head tail next : Pointer)
  | restCur (head tail next : Pointer) (cur : Torn)
  /-- `cmp128(&Q->Head, &head)`, the swap -/
  | cmp128 (head tail next cur : Pointer)
  /-- `CAS(&Q->Tail, tail, new_ptr);` -/
  | advance (tail next : Pointer)
  /-- `*pvalue = next.ptr->value;` -/
  | readValue (head next : Pointer)
  /-- `CAS(&Q->Head, head, new_ptr)` -/
  | swing (head next : Pointer) (value : DataType)
  /-- `ms_free(head.ptr);` -/
  | free (head : Pointer) (value : DataType)
  /-- `atomic_decq(&Q->count);` -/
  | decCount (value : DataType)
  /-- `coremu_sigmask_res(&save_sig_set, NULL);` -/
  | sigmaskRes (value : DataType)
  /-- The result: `none` for `false`, the value written to `*pvalue` for `true`. -/
  | ret (r : Option DataType)
  deriving Repr

/-- Where a thread stands. -/
inductive Pc
  | idle
  | enq (p : EnqPc)
  | deq (p : DeqPc)
  deriving Repr

/-- `sigset_t` -/
abbrev SigSet := BitVec 64

/-- A thread: its program point, its signal mask and its variable `save_sig_set`. -/
structure Thread where
  pc : Pc
  mask : SigSet
  saved : SigSet

/-- The thread goes on at `p`. -/
def Thread.goto (t : Thread) (p : Pc) : Thread := { t with pc := p }

/-- `coremu_sigmask_blk`: all signals are blocked, the mask is saved.  That is what the code
asks for; Linux leaves out `SIGKILL`, `SIGSTOP` and the signals 32 and 33, which no handler
of COREMU is installed for. -/
def Thread.sigmaskBlk (t : Thread) : Thread := { t with mask := BitVec.allOnes 64, saved := t.mask }

/-- `coremu_sigmask_res`: the saved mask is set. -/
def Thread.sigmaskRes (t : Thread) : Thread := { t with mask := t.saved }

/-- What the code leaves open at a step. -/
inductive Choice
  /-- The thread calls `enqueue` with this value. -/
  | callEnq (value : DataType)
  /-- The thread calls `dequeue`. -/
  | callDeq
  /-- The allocator returns this block, with this content. -/
  | alloc (a : Addr) (n : Node)
  /-- The release leaves this in the block. -/
  | free (n : Node)
  /-- The word of a pair that is read first. -/
  | half (h : Half)
  /-- Nothing. -/
  | go
  deriving Repr

/-- One access of `enqueue`. -/
def enqueue (s : Shared) (t : Thread) :
    EnqPc → Choice → Option (Shared × Thread × Fifo.Event DataType)
  | .sigmaskBlk v, .go => some (s, t.sigmaskBlk.goto (.enq (.newNode v)), .tau)
  | .newNode v, .alloc a n =>
      if Block a ∧ s.live a = false then
        some ({ s.write a n with
            live := Function.update s.live a true
            used := Function.update s.used a true
            reused := s.reused || s.used a },
          t.goto (.enq (.setValue v a)), .tau)
      else none
  | .setValue v node, .go =>
      some (s.write node { s.mem node with value := v }, t.goto (.enq (.setNext v node)), .tau)
  | .setNext v node, .go =>
      -- the count of `node->next` stays as the allocator left it
      some (s.write node { s.mem node with next := ⟨NULL, (s.mem node).next.count⟩ },
        t.goto (.enq (.readTail v node)), .tau)
  | .readTail v node, .half h => some (s, t.goto (.enq (.restTail v node (h.read s.tail))), .tau)
  | .restTail v node r, .go => some (s, t.goto (.enq (.readNext v node (r.rest s.tail))), .tau)
  | .readNext v node tail, .half h =>
      some (s, t.goto (.enq (.restNext v node tail (h.read (s.mem tail.ptr).next))), .tau)
  | .restNext v node tail r, .go =>
      some (s, t.goto (.enq (.readCur v node tail (r.rest (s.mem tail.ptr).next))), .tau)
  | .readCur v node tail next, .half h =>
      some (s, t.goto (.enq (.restCur v node tail next (h.read s.tail))), .tau)
  | .restCur v node tail next r, .go =>
      some (s, t.goto (.enq (.cmp128 v node tail next (r.rest s.tail))), .tau)
  | .cmp128 v node tail next cur, .go =>
      some ((casTail s tail cur).1,
        if (casTail s tail cur).2 then
          if next.ptr = NULL then t.goto (.enq (.link v node tail next))
          else t.goto (.enq (.advance v node tail next))
        else t.goto (.enq (.readTail v node)),
        .tau)
  | .link v node tail next, .go =>
      if (casNext s tail.ptr next ⟨node, next.count + 1⟩).2 then
        some ((casNext s tail.ptr next ⟨node, next.count + 1⟩).1,
          t.goto (.enq (.swing node tail)), .append v)
      else
        some ((casNext s tail.ptr next ⟨node, next.count + 1⟩).1,
          t.goto (.enq (.readTail v node)), .tau)
  | .advance v node tail next, .go =>
      some ((casTail s tail ⟨next.ptr, tail.count + 1⟩).1, t.goto (.enq (.readTail v node)), .tau)
  | .swing node tail, .go =>
      some ((casTail s tail ⟨node, tail.count + 1⟩).1, t.goto (.enq .incCount), .tau)
  | .incCount, .go =>
      some ({ s with count := atomicIncq s.count }, t.goto (.enq .sigmaskRes), .tau)
  | .sigmaskRes, .go => some (s, t.sigmaskRes.goto (.enq .ret), .tau)
  | .ret, .go => some (s, t.goto .idle, .retEnq)
  | _, _ => none

/-- The event of a read of `head.ptr->next`: the dequeue looks for a first value when
it reads the pointer. -/
def Half.event : Half → Fifo.Event DataType
  | .ptr => .look
  | .count => .tau

/-- The event of the second read, by the word that was read first. -/
def Torn.event : Torn → Fifo.Event DataType
  | .ptr _ => .tau
  | .count _ => .look

/-- One access of `dequeue`. -/
def dequeue (s : Shared) (t : Thread) :
    DeqPc → Choice → Option (Shared × Thread × Fifo.Event DataType)
  | .sigmaskBlk, .go => some (s, t.sigmaskBlk.goto (.deq .readHead), .tau)
  | .readHead, .half h => some (s, t.goto (.deq (.restHead (h.read s.head))), .tau)
  | .restHead r, .go => some (s, t.goto (.deq (.readTail (r.rest s.head))), .tau)
  | .readTail head, .half h => some (s, t.goto (.deq (.restTail head (h.read s.tail))), .tau)
  | .restTail head r, .go => some (s, t.goto (.deq (.readNext head (r.rest s.tail))), .tau)
  | .readNext head tail, .half h =>
      some (s, t.goto (.deq (.restNext head tail (h.read (s.mem head.ptr).next))), h.event)
  | .restNext head tail r, .go =>
      some (s, t.goto (.deq (.readCur head tail (r.rest (s.mem head.ptr).next))), r.event)
  | .readCur head tail next, .half h =>
      some (s, t.goto (.deq (.restCur head tail next (h.read s.head))), .tau)
  | .restCur head tail next r, .go =>
      some (s, t.goto (.deq (.cmp128 head tail next (r.rest s.head))), .tau)
  | .cmp128 head tail next cur, .go =>
      some ((casHead s head cur).1,
        if (casHead s head cur).2 then
          if head.ptr = tail.ptr then
            -- `return false` before the signals are restored
            if next.ptr = NULL then t.goto (.deq (.ret none))
            else t.goto (.deq (.advance tail next))
          else t.goto (.deq (.readValue head next))
        else t.goto (.deq .readHead),
        .tau)
  | .advance tail next, .go =>
      some ((casTail s tail ⟨next.ptr, tail.count + 1⟩).1, t.goto (.deq .readHead), .tau)
  | .readValue head next, .go =>
      some (s, t.goto (.deq (.swing head next (s.mem next.ptr).value)), .tau)
  | .swing head next v, .go =>
      if (casHead s head ⟨next.ptr, head.count + 1⟩).2 then
        some ((casHead s head ⟨next.ptr, head.count + 1⟩).1, t.goto (.deq (.free head v)),
          .remove v)
      else
        some ((casHead s head ⟨next.ptr, head.count + 1⟩).1, t.goto (.deq .readHead), .tau)
  | .free head v, .free n =>
      some ({ s.write head.ptr n with live := Function.update s.live head.ptr false },
        t.goto (.deq (.decCount v)), .tau)
  | .decCount v, .go =>
      some ({ s with count := atomicDecq s.count }, t.goto (.deq (.sigmaskRes v)), .tau)
  | .sigmaskRes v, .go => some (s, t.sigmaskRes.goto (.deq (.ret (some v))), .tau)
  | .ret r, .go => some (s, t.goto .idle, .retDeq r)
  | _, _ => none

/-- One step of a thread: a call when it is idle, else the next access of the
function it is in. -/
def step (s : Shared) (t : Thread) (x : Choice) :
    Option (Shared × Thread × Fifo.Event DataType) :=
  match t.pc, x with
  | .idle, .callEnq v => some (s, t.goto (.enq (.sigmaskBlk v)), .callEnq v)
  | .idle, .callDeq => some (s, t.goto (.deq .sigmaskBlk), .callDeq)
  | .idle, _ => none
  | .enq p, x => enqueue s t p x
  | .deq p, x => dequeue s t p x

/-- `queue_get_size` -/
def queueGetSize (s : Shared) : ℤ := s.count.toInt

/-- The threads, numbered without bound. -/
def program : Interleave.Program ℕ Shared Thread Choice (Fifo.Event DataType) where
  step _ s t x := step s t x

/-- The state of the queue and of all threads. -/
abbrev Config := Interleave.Config ℕ Shared Thread

/-! ### What a step can do -/

section CompareAndSwap

variable {s : Shared} {head tail next : Pointer}

theorem setTail_self (s : Shared) : s.setTail s.tail = s := by simp [Shared.setTail]

theorem setHead_self (s : Shared) : s.setHead s.head = s := by simp [Shared.setHead]

theorem casTail_of_eq (h : s.tail = tail) (new : Pointer) :
    casTail s tail new = (s.setTail new, true) := by
  simp [casTail, compareExchange, h]

theorem casTail_of_ne (h : s.tail ≠ tail) (new : Pointer) : casTail s tail new = (s, false) := by
  simp [casTail, compareExchange, h, setTail_self]

theorem casHead_of_eq (h : s.head = head) (new : Pointer) :
    casHead s head new = (s.setHead new, true) := by
  simp [casHead, compareExchange, h]

theorem casHead_of_ne (h : s.head ≠ head) (new : Pointer) : casHead s head new = (s, false) := by
  simp [casHead, compareExchange, h, setHead_self]

theorem casNext_of_eq {a : Addr} (h : (s.mem a).next = next) (new : Pointer) :
    casNext s a next new = (s.write a { s.mem a with next := new }, true) := by
  simp [casNext, compareExchange, h]

theorem casNext_of_ne {a : Addr} (h : (s.mem a).next ≠ next) (new : Pointer) :
    casNext s a next new = (s, false) := by
  simp [casNext, compareExchange, h, Shared.write]

end CompareAndSwap

/-- What a step from a program point can do, access by access. -/
inductive Step (s : Shared) (t : Thread) :
    Pc → Choice → Shared → Thread → Fifo.Event DataType → Prop
  | callEnq (v : DataType) :
      Step s t .idle (.callEnq v) s (t.goto (.enq (.sigmaskBlk v))) (.callEnq v)
  | callDeq : Step s t .idle .callDeq s (t.goto (.deq .sigmaskBlk)) .callDeq
  | enqBlk (v : DataType) :
      Step s t (.enq (.sigmaskBlk v)) .go s (t.sigmaskBlk.goto (.enq (.newNode v))) .tau
  | newNode (v : DataType) (a : Addr) (n : Node) : Block a → s.live a = false →
      Step s t (.enq (.newNode v)) (.alloc a n)
        { s.write a n with
          live := Function.update s.live a true
          used := Function.update s.used a true
          reused := s.reused || s.used a }
        (t.goto (.enq (.setValue v a))) .tau
  | setValue (v : DataType) (node : Addr) :
      Step s t (.enq (.setValue v node)) .go (s.write node { s.mem node with value := v })
        (t.goto (.enq (.setNext v node))) .tau
  | setNext (v : DataType) (node : Addr) :
      Step s t (.enq (.setNext v node)) .go
        (s.write node { s.mem node with next := ⟨NULL, (s.mem node).next.count⟩ })
        (t.goto (.enq (.readTail v node))) .tau
  | enqReadTail (v : DataType) (node : Addr) (h : Half) :
      Step s t (.enq (.readTail v node)) (.half h) s
        (t.goto (.enq (.restTail v node (h.read s.tail)))) .tau
  | enqRestTail (v : DataType) (node : Addr) (r : Torn) :
      Step s t (.enq (.restTail v node r)) .go s
        (t.goto (.enq (.readNext v node (r.rest s.tail)))) .tau
  | enqReadNext (v : DataType) (node : Addr) (tail : Pointer) (h : Half) :
      Step s t (.enq (.readNext v node tail)) (.half h) s
        (t.goto (.enq (.restNext v node tail (h.read (s.mem tail.ptr).next)))) .tau
  | enqRestNext (v : DataType) (node : Addr) (tail : Pointer) (r : Torn) :
      Step s t (.enq (.restNext v node tail r)) .go s
        (t.goto (.enq (.readCur v node tail (r.rest (s.mem tail.ptr).next)))) .tau
  | enqReadCur (v : DataType) (node : Addr) (tail next : Pointer) (h : Half) :
      Step s t (.enq (.readCur v node tail next)) (.half h) s
        (t.goto (.enq (.restCur v node tail next (h.read s.tail)))) .tau
  | enqRestCur (v : DataType) (node : Addr) (tail next : Pointer) (r : Torn) :
      Step s t (.enq (.restCur v node tail next r)) .go s
        (t.goto (.enq (.cmp128 v node tail next (r.rest s.tail)))) .tau
  | enqLast (v : DataType) (node : Addr) (tail next cur : Pointer) : s.tail = tail →
      next.ptr = NULL → Step s t (.enq (.cmp128 v node tail next cur)) .go (s.setTail cur)
        (t.goto (.enq (.link v node tail next))) .tau
  | enqBehind (v : DataType) (node : Addr) (tail next cur : Pointer) : s.tail = tail →
      next.ptr ≠ NULL → Step s t (.enq (.cmp128 v node tail next cur)) .go (s.setTail cur)
        (t.goto (.enq (.advance v node tail next))) .tau
  | enqStale (v : DataType) (node : Addr) (tail next cur : Pointer) : s.tail ≠ tail →
      Step s t (.enq (.cmp128 v node tail next cur)) .go s (t.goto (.enq (.readTail v node))) .tau
  | link (v : DataType) (node : Addr) (tail next : Pointer) : (s.mem tail.ptr).next = next →
      Step s t (.enq (.link v node tail next)) .go
        (s.write tail.ptr { s.mem tail.ptr with next := ⟨node, next.count + 1⟩ })
        (t.goto (.enq (.swing node tail))) (.append v)
  | linkFailed (v : DataType) (node : Addr) (tail next : Pointer) :
      (s.mem tail.ptr).next ≠ next →
      Step s t (.enq (.link v node tail next)) .go s (t.goto (.enq (.readTail v node))) .tau
  | enqAdvance (v : DataType) (node : Addr) (tail next : Pointer) :
      Step s t (.enq (.advance v node tail next)) .go
        (casTail s tail ⟨next.ptr, tail.count + 1⟩).1 (t.goto (.enq (.readTail v node))) .tau
  | enqSwing (node : Addr) (tail : Pointer) :
      Step s t (.enq (.swing node tail)) .go (casTail s tail ⟨node, tail.count + 1⟩).1
        (t.goto (.enq .incCount)) .tau
  | incCount : Step s t (.enq .incCount) .go { s with count := atomicIncq s.count }
      (t.goto (.enq .sigmaskRes)) .tau
  | enqRes : Step s t (.enq .sigmaskRes) .go s (t.sigmaskRes.goto (.enq .ret)) .tau
  | enqRet : Step s t (.enq .ret) .go s (t.goto .idle) .retEnq
  | deqBlk : Step s t (.deq .sigmaskBlk) .go s (t.sigmaskBlk.goto (.deq .readHead)) .tau
  | readHead (h : Half) : Step s t (.deq .readHead) (.half h) s
      (t.goto (.deq (.restHead (h.read s.head)))) .tau
  | restHead (r : Torn) : Step s t (.deq (.restHead r)) .go s
      (t.goto (.deq (.readTail (r.rest s.head)))) .tau
  | deqReadTail (head : Pointer) (h : Half) : Step s t (.deq (.readTail head)) (.half h) s
      (t.goto (.deq (.restTail head (h.read s.tail)))) .tau
  | deqRestTail (head : Pointer) (r : Torn) : Step s t (.deq (.restTail head r)) .go s
      (t.goto (.deq (.readNext head (r.rest s.tail)))) .tau
  | deqReadNext (head tail : Pointer) (h : Half) : Step s t (.deq (.readNext head tail)) (.half h) s
      (t.goto (.deq (.restNext head tail (h.read (s.mem head.ptr).next)))) h.event
  | deqRestNext (head tail : Pointer) (r : Torn) : Step s t (.deq (.restNext head tail r)) .go s
      (t.goto (.deq (.readCur head tail (r.rest (s.mem head.ptr).next)))) r.event
  | deqReadCur (head tail next : Pointer) (h : Half) :
      Step s t (.deq (.readCur head tail next)) (.half h) s
        (t.goto (.deq (.restCur head tail next (h.read s.head)))) .tau
  | deqRestCur (head tail next : Pointer) (r : Torn) :
      Step s t (.deq (.restCur head tail next r)) .go s
        (t.goto (.deq (.cmp128 head tail next (r.rest s.head)))) .tau
  | deqEmpty (head tail next cur : Pointer) : s.head = head → head.ptr = tail.ptr →
      next.ptr = NULL → Step s t (.deq (.cmp128 head tail next cur)) .go (s.setHead cur)
        (t.goto (.deq (.ret none))) .tau
  | deqBehind (head tail next cur : Pointer) : s.head = head → head.ptr = tail.ptr →
      next.ptr ≠ NULL → Step s t (.deq (.cmp128 head tail next cur)) .go (s.setHead cur)
        (t.goto (.deq (.advance tail next))) .tau
  | deqFront (head tail next cur : Pointer) : s.head = head → head.ptr ≠ tail.ptr →
      Step s t (.deq (.cmp128 head tail next cur)) .go (s.setHead cur)
        (t.goto (.deq (.readValue head next))) .tau
  | deqStale (head tail next cur : Pointer) : s.head ≠ head →
      Step s t (.deq (.cmp128 head tail next cur)) .go s (t.goto (.deq .readHead)) .tau
  | deqAdvance (tail next : Pointer) :
      Step s t (.deq (.advance tail next)) .go (casTail s tail ⟨next.ptr, tail.count + 1⟩).1
        (t.goto (.deq .readHead)) .tau
  | readValue (head next : Pointer) : Step s t (.deq (.readValue head next)) .go s
      (t.goto (.deq (.swing head next (s.mem next.ptr).value))) .tau
  | pop (head next : Pointer) (v : DataType) : s.head = head →
      Step s t (.deq (.swing head next v)) .go (s.setHead ⟨next.ptr, head.count + 1⟩)
        (t.goto (.deq (.free head v))) (.remove v)
  | popFailed (head next : Pointer) (v : DataType) : s.head ≠ head →
      Step s t (.deq (.swing head next v)) .go s (t.goto (.deq .readHead)) .tau
  | free (head : Pointer) (v : DataType) (n : Node) : Step s t (.deq (.free head v)) (.free n)
      { s.write head.ptr n with live := Function.update s.live head.ptr false }
      (t.goto (.deq (.decCount v))) .tau
  | decCount (v : DataType) : Step s t (.deq (.decCount v)) .go
      { s with count := atomicDecq s.count } (t.goto (.deq (.sigmaskRes v))) .tau
  | deqRes (v : DataType) : Step s t (.deq (.sigmaskRes v)) .go s
      (t.sigmaskRes.goto (.deq (.ret (some v)))) .tau
  | deqRet (r : Option DataType) : Step s t (.deq (.ret r)) .go s (t.goto .idle) (.retDeq r)

section Inversion

variable {s s' : Shared} {t t' : Thread} {x : Choice} {e : Fifo.Event DataType}

theorem enqueue_cases {p : EnqPc} (hs : enqueue s t p x = some (s', t', e)) :
    Step s t (.enq p) x s' t' e := by
  cases p with
  | newNode v =>
    cases x with
    | alloc a n =>
      obtain ⟨⟨hb, hl⟩, hs⟩ := Option.ite_none_right_eq_some.mp hs
      cases hs
      exact .newNode v a n hb hl
    | _ => cases hs
  | cmp128 v node tail next cur =>
    cases x with
    | go =>
      simp only [enqueue] at hs
      by_cases heq : s.tail = tail
      · rw [casTail_of_eq heq] at hs
        by_cases hnull : next.ptr = NULL
        · simp only [hnull, if_true] at hs
          cases hs
          exact .enqLast v node tail next cur heq hnull
        · simp only [hnull, if_true, if_false] at hs
          cases hs
          exact .enqBehind v node tail next cur heq hnull
      · rw [casTail_of_ne heq] at hs
        cases hs
        exact .enqStale v node tail next cur heq
    | _ => cases hs
  | link v node tail next =>
    cases x with
    | go =>
      simp only [enqueue] at hs
      by_cases heq : (s.mem tail.ptr).next = next
      · rw [casNext_of_eq heq] at hs
        cases hs
        exact .link v node tail next heq
      · rw [casNext_of_ne heq] at hs
        cases hs
        exact .linkFailed v node tail next heq
    | _ => cases hs
  | _ =>
    cases x <;> cases hs
    constructor

theorem dequeue_cases {p : DeqPc} (hs : dequeue s t p x = some (s', t', e)) :
    Step s t (.deq p) x s' t' e := by
  cases p with
  | cmp128 head tail next cur =>
    cases x with
    | go =>
      simp only [dequeue] at hs
      by_cases heq : s.head = head
      · rw [casHead_of_eq heq] at hs
        by_cases hht : head.ptr = tail.ptr
        · by_cases hnull : next.ptr = NULL
          · simp only [hht, hnull, if_true] at hs
            cases hs
            exact .deqEmpty head tail next cur heq hht hnull
          · simp only [hht, hnull, if_true, if_false] at hs
            cases hs
            exact .deqBehind head tail next cur heq hht hnull
        · simp only [hht, if_true, if_false] at hs
          cases hs
          exact .deqFront head tail next cur heq hht
      · rw [casHead_of_ne heq] at hs
        cases hs
        exact .deqStale head tail next cur heq
    | _ => cases hs
  | swing head next v =>
    cases x with
    | go =>
      simp only [dequeue] at hs
      by_cases heq : s.head = head
      · rw [casHead_of_eq heq] at hs
        cases hs
        exact .pop head next v heq
      · rw [casHead_of_ne heq] at hs
        cases hs
        exact .popFailed head next v heq
    | _ => cases hs
  | _ =>
    cases x <;> cases hs
    constructor

/-- **Every step is one of these.** -/
theorem step_cases (hs : step s t x = some (s', t', e)) : Step s t t.pc x s' t' e := by
  cases hpc : t.pc with
  | idle =>
    simp only [step, hpc] at hs
    cases x <;> cases hs <;> constructor
  | enq p =>
    simp only [step, hpc] at hs
    exact enqueue_cases hs
  | deq p =>
    simp only [step, hpc] at hs
    exact dequeue_cases hs

end Inversion

/-! ### Runs -/

/-- `initialize`, with `node` the block that `new_node` returns out of the heap
`mem`: its value and the count of its `next` are not set. -/
def initializeQ (mem : Addr → Node) (node : Addr) : Shared where
  head := ⟨node, 0⟩
  tail := ⟨node, 0⟩
  count := 0
  mem := Function.update mem node { mem node with next := ⟨NULL, (mem node).next.count⟩ }
  live := fun a => a = node
  used := fun a => a = node
  reused := false
  headChanges := 0
  tailChanges := 0

/-- After `new_queue()`, with no operation in progress. -/
def NewQueue (c : Config) : Prop :=
  ∃ mem node, Block node ∧ c.shared = initializeQ mem node ∧ ∀ i, (c.thread i).pc = .idle

/-- The block that an enqueue will compare and swap next: between the test of line 155
and the swap of line 161 it holds the address in `tail.ptr`. -/
def Thread.held (t : Thread) : Option Addr :=
  match t.pc with
  | .enq (.link _ _ tail _) => some tail.ptr
  | _ => none

/-- The block that a dequeue will free next. -/
def Thread.frees (t : Thread) : Option Addr :=
  match t.pc with
  | .deq (.free head _) => some head.ptr
  | _ => none

/-- The allocator does not hand out a block that an enqueue is about to compare and
swap.  This is weaker than not to hand out a block whose address an operation in
progress has read. -/
def Unheld (_ : List (ℕ × Fifo.Event DataType)) (c : Config) (_ : ℕ) : Choice → Prop
  | .alloc a _ => ∀ j, (c.thread j).held ≠ some a
  | _ => True

/-- The allocator hands out no block twice. -/
def NoReuse (_ : List (ℕ × Fifo.Event DataType)) (c : Config) (_ : ℕ) : Choice → Prop
  | .alloc a _ => c.shared.used a = false
  | _ => True

instance (tr : List (ℕ × Fifo.Event DataType)) (c : Config) (i : ℕ) :
    ∀ x, Decidable (NoReuse tr c i x)
  | .alloc a _ => inferInstanceAs (Decidable (c.shared.used a = false))
  | .callEnq _ | .callDeq | .free _ | .half _ | .go => inferInstanceAs (Decidable True)

/-- No block is freed that an enqueue is about to compare and swap.  Such a block is in use,
so that none is handed out, either. -/
def Unreleased (_ : List (ℕ × Fifo.Event DataType)) (c : Config) (i : ℕ) (_ : Choice) : Prop :=
  ∀ a, (c.thread i).frees = some a → ∀ j, (c.thread j).held ≠ some a

/-- The runs from `new_queue()`, with any reuse of freed blocks. -/
abbrev AnyRun := program.Run NewQueue fun _ _ _ _ => True

/-- The runs from `new_queue()` in which no block is handed out that an enqueue is
about to compare and swap. -/
abbrev Run := program.Run NewQueue Unheld

/-- The runs from `new_queue()` in which no block is handed out twice. -/
abbrev FreshRun := program.Run NewQueue NoReuse

/-- The runs from `new_queue()` in which no block is freed that an enqueue is about to compare
and swap. -/
abbrev KeptRun := program.Run NewQueue Unreleased

/-- The runs from `new_queue()` in which no block is handed out twice, and none is freed that
an enqueue is about to compare and swap. -/
abbrev FreshKeptRun :=
  program.Run NewQueue fun tr c i x => NoReuse tr c i x ∧ Unreleased tr c i x

end Coremu.MsQueue

import Coremu.Lib.Tso
import Coremu.MsQueue.Model

/-!
# The queue of `main/ms-queue.c` with store buffers

The code of `enqueue` and `dequeue` as an x86 processor runs it.  All that is written to a node of
the list, to `Head` or to `Tail` is written by `cmpxchg16b`, a locked instruction, and so are the
counts.  Only the two writes to a new node are plain stores, which wait in the store buffer of the
thread while it reads `Tail`.

A block comes from the allocator with the content it has in memory, and what a release leaves in
it is in memory.

## Main definitions

* `Store`, `Shared.commit` — the plain stores, and what they do to memory.
* `code` — the code, access by access.
* `Pc.pointers`, `Unseen` — the assumption on the blocks that are handed out.
* `Holds` — the one on the blocks that are freed.
* `BufferedRun`, `KeptBufferedRun` — the runs from `new_queue()` with store buffers, under the
  first assumption and under both.

## Main results

* `code_direct` — **with stores that take effect at once, the code is the model of the queue.**
-/

namespace Coremu.MsQueue

/-- A plain store. -/
inductive Store
  /-- `node->value = value;` -/
  | value (node : Addr) (value : DataType)
  /-- `node->next.ptr = NULL;` -/
  | next (node : Addr)
  deriving DecidableEq, Repr

/-- A store reaches memory. -/
def Shared.commit (s : Shared) : Store → Shared
  | .value node v => s.write node { s.mem node with value := v }
  | .next node => s.write node { s.mem node with next := ⟨NULL, (s.mem node).next.count⟩ }

/-- The effect of an access of the queue. -/
abbrev Effect := Tso.Effect Shared Thread Store (Fifo.Event DataType)

/-- One access of `enqueue`, in the memory `s` that the thread sees as `w`. -/
def enqueueAccess (s w : Shared) (t : Thread) : EnqPc → Choice → Option Effect
  | .sigmaskBlk v, .go => some ⟨s, [], t.sigmaskBlk.goto (.enq (.newNode v)), .tau⟩
  | .newNode v, .alloc a n =>
      if Block a ∧ s.live a = false then
        some ⟨{ s.write a n with
            live := Function.update s.live a true
            used := Function.update s.used a true
            reused := s.reused || s.used a }, [],
          t.goto (.enq (.setValue v a)), .tau⟩
      else none
  | .setValue v node, .go => some ⟨s, [.value node v], t.goto (.enq (.setNext v node)), .tau⟩
  | .setNext v node, .go => some ⟨s, [.next node], t.goto (.enq (.readTail v node)), .tau⟩
  | .readTail v node, .half h =>
      some ⟨s, [], t.goto (.enq (.restTail v node (h.read w.tail))), .tau⟩
  | .restTail v node r, .go => some ⟨s, [], t.goto (.enq (.readNext v node (r.rest w.tail))), .tau⟩
  | .readNext v node tail, .half h =>
      some ⟨s, [], t.goto (.enq (.restNext v node tail (h.read (w.mem tail.ptr).next))), .tau⟩
  | .restNext v node tail r, .go =>
      some ⟨s, [], t.goto (.enq (.readCur v node tail (r.rest (w.mem tail.ptr).next))), .tau⟩
  | .readCur v node tail next, .half h =>
      some ⟨s, [], t.goto (.enq (.restCur v node tail next (h.read w.tail))), .tau⟩
  | .restCur v node tail next r, .go =>
      some ⟨s, [], t.goto (.enq (.cmp128 v node tail next (r.rest w.tail))), .tau⟩
  | .cmp128 v node tail next cur, .go =>
      some ⟨(casTail s tail cur).1, [],
        if (casTail s tail cur).2 then
          if next.ptr = NULL then t.goto (.enq (.link v node tail next))
          else t.goto (.enq (.advance v node tail next))
        else t.goto (.enq (.readTail v node)),
        .tau⟩
  | .link v node tail next, .go =>
      if (casNext s tail.ptr next ⟨node, next.count + 1⟩).2 then
        some ⟨(casNext s tail.ptr next ⟨node, next.count + 1⟩).1, [],
          t.goto (.enq (.swing node tail)), .append v⟩
      else
        some ⟨(casNext s tail.ptr next ⟨node, next.count + 1⟩).1, [],
          t.goto (.enq (.readTail v node)), .tau⟩
  | .advance v node tail next, .go =>
      some ⟨(casTail s tail ⟨next.ptr, tail.count + 1⟩).1, [], t.goto (.enq (.readTail v node)),
        .tau⟩
  | .swing node tail, .go =>
      some ⟨(casTail s tail ⟨node, tail.count + 1⟩).1, [], t.goto (.enq .incCount), .tau⟩
  | .incCount, .go =>
      some ⟨{ s with count := atomicIncq s.count }, [], t.goto (.enq .sigmaskRes), .tau⟩
  | .sigmaskRes, .go => some ⟨s, [], t.sigmaskRes.goto (.enq .ret), .tau⟩
  | .ret, .go => some ⟨s, [], t.goto .idle, .retEnq⟩
  | _, _ => none

/-- One access of `dequeue`. -/
def dequeueAccess (s w : Shared) (t : Thread) : DeqPc → Choice → Option Effect
  | .sigmaskBlk, .go => some ⟨s, [], t.sigmaskBlk.goto (.deq .readHead), .tau⟩
  | .readHead, .half h => some ⟨s, [], t.goto (.deq (.restHead (h.read w.head))), .tau⟩
  | .restHead r, .go => some ⟨s, [], t.goto (.deq (.readTail (r.rest w.head))), .tau⟩
  | .readTail head, .half h => some ⟨s, [], t.goto (.deq (.restTail head (h.read w.tail))), .tau⟩
  | .restTail head r, .go => some ⟨s, [], t.goto (.deq (.readNext head (r.rest w.tail))), .tau⟩
  | .readNext head tail, .half h =>
      some ⟨s, [], t.goto (.deq (.restNext head tail (h.read (w.mem head.ptr).next))), h.event⟩
  | .restNext head tail r, .go =>
      some ⟨s, [], t.goto (.deq (.readCur head tail (r.rest (w.mem head.ptr).next))), r.event⟩
  | .readCur head tail next, .half h =>
      some ⟨s, [], t.goto (.deq (.restCur head tail next (h.read w.head))), .tau⟩
  | .restCur head tail next r, .go =>
      some ⟨s, [], t.goto (.deq (.cmp128 head tail next (r.rest w.head))), .tau⟩
  | .cmp128 head tail next cur, .go =>
      some ⟨(casHead s head cur).1, [],
        if (casHead s head cur).2 then
          if head.ptr = tail.ptr then
            if next.ptr = NULL then t.goto (.deq (.ret none))
            else t.goto (.deq (.advance tail next))
          else t.goto (.deq (.readValue head next))
        else t.goto (.deq .readHead),
        .tau⟩
  | .advance tail next, .go =>
      some ⟨(casTail s tail ⟨next.ptr, tail.count + 1⟩).1, [], t.goto (.deq .readHead), .tau⟩
  | .readValue head next, .go =>
      some ⟨s, [], t.goto (.deq (.swing head next (w.mem next.ptr).value)), .tau⟩
  | .swing head next v, .go =>
      if (casHead s head ⟨next.ptr, head.count + 1⟩).2 then
        some ⟨(casHead s head ⟨next.ptr, head.count + 1⟩).1, [], t.goto (.deq (.free head v)),
          .remove v⟩
      else
        some ⟨(casHead s head ⟨next.ptr, head.count + 1⟩).1, [], t.goto (.deq .readHead), .tau⟩
  | .free head v, .free n =>
      some ⟨{ s.write head.ptr n with live := Function.update s.live head.ptr false }, [],
        t.goto (.deq (.decCount v)), .tau⟩
  | .decCount v, .go =>
      some ⟨{ s with count := atomicDecq s.count }, [], t.goto (.deq (.sigmaskRes v)), .tau⟩
  | .sigmaskRes v, .go => some ⟨s, [], t.sigmaskRes.goto (.deq (.ret (some v))), .tau⟩
  | .ret r, .go => some ⟨s, [], t.goto .idle, .retDeq r⟩
  | _, _ => none

/-- One access of a thread: a call when it is idle, else the next one of the function it is in. -/
def access (s w : Shared) (t : Thread) (x : Choice) : Option Effect :=
  match t.pc, x with
  | .idle, .callEnq v => some ⟨s, [], t.goto (.enq (.sigmaskBlk v)), .callEnq v⟩
  | .idle, .callDeq => some ⟨s, [], t.goto (.deq .sigmaskBlk), .callDeq⟩
  | .idle, _ => none
  | .enq p, x => enqueueAccess s w t p x
  | .deq p, x => dequeueAccess s w t p x

/-- The locked instructions. -/
def Pc.fences : Pc → Bool
  | .enq (.cmp128 _ _ _ _ _) | .enq (.link _ _ _ _) | .enq (.advance _ _ _ _)
  | .enq (.swing _ _) | .enq .incCount => true
  | .deq (.cmp128 _ _ _ _) | .deq (.advance _ _) | .deq (.swing _ _ _) | .deq (.decCount _) => true
  | _ => false

/-- The code of the queue. -/
def code : Tso.Code ℕ Shared Thread Choice Store (Fifo.Event DataType) where
  commit := Shared.commit
  shows _ := none
  quiet := .tau
  fences t := t.pc.fences
  access _ := access

/-- **With stores that take effect at once, the code is the model of the queue.** -/
theorem code_direct : code.direct = program := by
  refine congrArg Interleave.Program.mk (funext fun _ => funext fun s => funext fun t =>
    funext fun x => ?_)
  obtain ⟨pc, mask, saved⟩ := t
  cases pc with
  | idle => cases x <;> rfl
  | enq p =>
    cases p with
    | newNode v =>
      cases x with
      | alloc a n =>
        simp only [code, access, enqueueAccess, step, enqueue]
        split <;> rfl
      | _ => rfl
    | link v node tail next =>
      cases x with
      | go =>
        simp only [code, access, enqueueAccess, step, enqueue]
        split <;> rfl
      | _ => rfl
    | _ => cases x <;> rfl
  | deq p =>
    cases p with
    | swing head next v =>
      cases x with
      | go =>
        simp only [code, access, dequeueAccess, step, dequeue]
        split <;> rfl
      | _ => rfl
    | _ => cases x <;> rfl

/-! ### Runs -/

/-- The state of the queue and of all threads, with their store buffers. -/
abbrev BufferedConfig := Interleave.Config ℕ Shared (Tso.Thread Thread Store)

/-- After `new_queue()`, with its stores in memory and no operation in progress. -/
def NewBuffered (m : BufferedConfig) : Prop :=
  ∃ mem node, Block node ∧ m.shared = initializeQ mem node ∧
    ∀ i, (m.thread i).pc.pc = .idle ∧ (m.thread i).buffer = []

/-- The pointer that has been read, if it is the pointer. -/
def Torn.pointers : Torn → List Addr
  | .ptr a => [a]
  | .count _ => []

/-- The pointers that a thread has read from `Head` or `Tail`, or from the node that `Head` pointed
to, and is going to follow or to compare. -/
def Pc.pointers : Pc → List Addr
  | .enq (.restTail _ _ r) | .deq (.restHead r) => r.pointers
  | .enq (.readNext _ _ tail) | .enq (.restNext _ _ tail _) | .enq (.readCur _ _ tail _)
  | .enq (.restCur _ _ tail _ _) | .enq (.cmp128 _ _ tail _ _) | .enq (.link _ _ tail _) =>
      [tail.ptr]
  | .deq (.readTail head) | .deq (.restTail head _) | .deq (.readNext head _)
  | .deq (.restNext head _ _) | .deq (.readCur head _ _) | .deq (.restCur head _ _ _)
  | .deq (.cmp128 head _ _ _) => [head.ptr]
  | .deq (.readValue _ next) => [next.ptr]
  | _ => []

/-- The allocator does not hand out a block that an operation in progress is going to follow. -/
def Unseen (_ : List (ℕ × Fifo.Event DataType)) (m : BufferedConfig) (_ : ℕ) :
    Option Choice → Prop
  | some (.alloc a _) => ∀ j, a ∉ (m.thread j).pc.pc.pointers
  | _ => True

/-- The runs from `new_queue()` with store buffers, in which no block is handed out that an
operation in progress is going to follow. -/
abbrev BufferedRun := code.buffered.Run NewBuffered Unseen

/-- Thread `i` is not about to free a block that an enqueue is about to compare and swap. -/
def Holds (m : BufferedConfig) (i : ℕ) : Prop :=
  ∀ a, (m.thread i).pc.frees = some a → ∀ j, (m.thread j).pc.held ≠ some a

/-- Those of these runs in which no block is freed that an enqueue is about to compare and
swap. -/
abbrev KeptBufferedRun :=
  code.buffered.Run NewBuffered fun tr m i x => Unseen tr m i x ∧ Holds m i

end Coremu.MsQueue

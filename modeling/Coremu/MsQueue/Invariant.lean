import Coremu.MsQueue.Model
import Coremu.Lib.Chain

/-!
# The invariant of the lock-free queue

A thread works on what it read some time ago, so what it knows is conditional:
*if* `Q->Tail` still is the pair `tail` it read, then the successor it read is the
one `tail.ptr` has, or was read when there was none.  The counts make this sound.
Both words of `Q->Tail` are read apart, but a pair that is still stored there has
been stored since its count was read: every change counts up, and there are fewer
than `2 ^ 64` changes.

After the test of line 155 the condition on the count is gone, and only the link
`tail.ptr->next` protects the thread: as long as it is `NULL`, `Tail` has not moved.
This needs that the block is not freed, nor handed out again.  If it is freed, and the
release leaves the pair in it that the thread has read, then the swap of line 161 succeeds
on a block that is not in the list.  The list, `Head` and `Tail` do not notice, but the value
is lost; `Ghost.lost` counts these values.

## Main definitions

* `Ghost` — the list, the owner of each node that is not in it, and the abstract queue.
* `SharedInv` — what holds of the shared state.
* `ThreadInv` — what holds at each program point of a thread.
* `Evolves`, `Stable` — what another thread's step may change.

## Main results

* `ThreadInv.stable` — a thread's invariant survives such changes.
-/

namespace Coremu.MsQueue

open Linked

/-- What the code does not store. -/
structure Ghost where
  /-- The nodes that have been unlinked, oldest first. -/
  gone : List Addr
  /-- The nodes reachable from `Head`, the dummy first. -/
  nodes : List Addr
  /-- The thread that has allocated a node and not linked it into the list. -/
  owner : Addr → Option ℕ
  /-- The thread that has unlinked a node and not freed it yet. -/
  retired : Addr → Option ℕ
  /-- The enqueuers that have linked their node and not counted it yet. -/
  uncounted : Finset ℕ
  /-- The dequeuers that have moved `Head` and not counted down yet. -/
  popped : Finset ℕ
  /-- The number of values whose node was linked behind a block that was freed. -/
  lost : ℕ
  /-- The abstract queue. -/
  abs : Fifo.State ℕ DataType

/-- The memory as a successor function. -/
def Shared.next (s : Shared) (a : Addr) : Addr := (s.mem a).next.ptr

/-- The values in the memory. -/
def Shared.value (s : Shared) (a : Addr) : DataType := (s.mem a).value

/-- What holds of the shared state. -/
structure SharedInv (g : Ghost) (s : Shared) : Prop where
  list : DummyList s.next s.value NULL s.head.ptr g.nodes (g.abs.content.map (·.value))
  node : ∀ a ∈ g.nodes, Block a ∧ s.live a = true ∧ g.owner a = none ∧ g.retired a = none
  owned : ∀ a i, g.owner a = some i → Block a ∧ s.live a = true ∧ g.retired a = none
  retired : ∀ a i, g.retired a = some i → s.live a = true
  used : ∀ a, s.live a = true → s.used a = true
  tail_mem : s.tail.ptr ∈ g.nodes
  /-- `Tail` points to the last node or to the one before it. -/
  tail_last : s.next s.tail.ptr ≠ NULL → s.next (s.next s.tail.ptr) = NULL
  headCount : s.head.count = BitVec.ofNat 64 s.headChanges
  tailCount : s.tail.count = BitVec.ofNat 64 s.tailChanges
  headChanges : s.headChanges = g.gone.length
  tailChanges : s.tailChanges + (if s.next s.tail.ptr = NULL then 1 else 2) =
    g.gone.length + g.nodes.length
  fresh : s.reused = false → (g.gone ++ g.nodes).Nodup ∧
    (∀ a ∈ g.gone, Block a ∧ s.used a = true) ∧ ∀ a i, g.owner a = some i → a ∉ g.gone
  count : s.count =
    BitVec.ofInt 64 (g.abs.content.length + g.lost - g.uncounted.card + g.popped.card)

/-- There have been fewer than `2 ^ 64` changes of `Head` and of `Tail`. -/
def Bounded (s : Shared) : Prop := s.headChanges < 2 ^ 64 ∧ s.tailChanges < 2 ^ 64

/-! ### What a thread knows -/

/-- The count of a pair that was read from `Q->Head`. -/
def HeadSeen (s : Shared) (head : Pointer) : Prop := head.count.toNat ≤ s.headChanges

/-- The count of a pair that was read from `Q->Tail`. -/
def TailSeen (s : Shared) (tail : Pointer) : Prop := tail.count.toNat ≤ s.tailChanges

/-- The word that has been read, if it is the count, is at most `n`. -/
def Torn.CountLe : Torn → ℕ → Prop
  | .ptr _, _ => True
  | .count k, n => k.toNat ≤ n

/-- The word that has been read, if it is the pointer, has the property. -/
def Torn.PtrIs : Torn → (Addr → Prop) → Prop
  | .ptr a, q => q a
  | .count _, _ => True

/-- The word that has been read is that of `p`. -/
def Torn.Agrees : Torn → Pointer → Prop
  | .ptr a, p => a = p.ptr
  | .count n, p => n = p.count

/-- `a` was read as the successor of `tail.ptr`. -/
def NextSeen (s : Shared) (tail : Pointer) (a : Addr) : Prop :=
  s.tail = tail → a = NULL ∨ a = s.next tail.ptr

/-- `Tail` may be moved from `tail` to `a`. -/
def AdvanceOk (s : Shared) (tail : Pointer) (a : Addr) : Prop :=
  a ≠ NULL ∧ (s.tail = tail → a = s.next tail.ptr)

/-- `a` was read as the pointer of `Q->Tail` after `head` was read: when it is not
that of `head`, then `Tail` has left the dummy. -/
def Apart (s : Shared) (head : Pointer) (a : Addr) : Prop :=
  s.head = head → a ≠ head.ptr → s.tail.ptr ≠ head.ptr

/-- `a` was read as the successor of `head.ptr`. -/
def FrontSeen (g : Ghost) (s : Shared) (i : ℕ) (head tail : Pointer) (a : Addr) : Prop :=
  s.head = head → (a = NULL → g.abs.op i = .deq true) ∧ (a = NULL ∨ a = s.next head.ptr) ∧
    (tail.ptr ≠ head.ptr → a ≠ NULL)

/-- `Head` may be moved from `head` to `a`. -/
def PopOk (s : Shared) (head : Pointer) (a : Addr) : Prop :=
  s.head = head → a ≠ NULL ∧ a = s.next head.ptr ∧ s.tail.ptr ≠ head.ptr

/-- Thread `i` owns a node that is ready to be linked. -/
def Ready (g : Ghost) (s : Shared) (i : ℕ) (v : DataType) (node : Addr) : Prop :=
  g.abs.op i = .enq v ∧ g.owner node = some i ∧ s.value node = v ∧ s.next node = NULL

/-- What holds at each program point of `enqueue`. -/
def EnqInv (g : Ghost) (s : Shared) (i : ℕ) : EnqPc → Prop
  | .sigmaskBlk v | .newNode v => g.abs.op i = .enq v
  | .setValue v node => g.abs.op i = .enq v ∧ g.owner node = some i
  | .setNext v node => g.abs.op i = .enq v ∧ g.owner node = some i ∧ s.value node = v
  | .readTail v node => Ready g s i v node
  | .restTail v node r => Ready g s i v node ∧ r.CountLe s.tailChanges
  | .readNext v node tail => Ready g s i v node ∧ TailSeen s tail
  | .restNext v node tail r => Ready g s i v node ∧ TailSeen s tail ∧ r.PtrIs (NextSeen s tail)
  | .readCur v node tail next => Ready g s i v node ∧ TailSeen s tail ∧ NextSeen s tail next.ptr
  | .restCur v node tail next r => Ready g s i v node ∧ TailSeen s tail ∧
      NextSeen s tail next.ptr ∧ (s.tail = tail → r.Agrees tail)
  | .cmp128 v node tail next cur => Ready g s i v node ∧ TailSeen s tail ∧
      NextSeen s tail next.ptr ∧ (s.tail = tail → cur = tail)
  | .link v node tail next => Ready g s i v node ∧ TailSeen s tail ∧ next.ptr = NULL ∧
      g.owner tail.ptr = none ∧ s.used tail.ptr = true ∧
      (s.live tail.ptr = true → s.next tail.ptr = NULL → s.tail.ptr = tail.ptr)
  | .advance v node tail next => Ready g s i v node ∧ TailSeen s tail ∧ AdvanceOk s tail next.ptr
  | .swing node tail => g.abs.op i = .enqDone ∧ TailSeen s tail ∧ AdvanceOk s tail node
  | .incCount | .sigmaskRes | .ret => g.abs.op i = .enqDone

/-- What holds at each program point of `dequeue`. -/
def DeqInv (g : Ghost) (s : Shared) (i : ℕ) : DeqPc → Prop
  | .sigmaskBlk | .readHead => ∃ w, g.abs.op i = .deq w
  | .restHead r => (∃ w, g.abs.op i = .deq w) ∧ r.CountLe s.headChanges
  | .readTail head => (∃ w, g.abs.op i = .deq w) ∧ HeadSeen s head
  | .restTail head r => (∃ w, g.abs.op i = .deq w) ∧ HeadSeen s head ∧
      r.CountLe s.tailChanges ∧ r.PtrIs (Apart s head)
  | .readNext head tail => (∃ w, g.abs.op i = .deq w) ∧ HeadSeen s head ∧ TailSeen s tail ∧
      Apart s head tail.ptr
  | .restNext head tail r => (∃ w, g.abs.op i = .deq w) ∧ HeadSeen s head ∧ TailSeen s tail ∧
      Apart s head tail.ptr ∧ r.PtrIs (FrontSeen g s i head tail)
  | .readCur head tail next => (∃ w, g.abs.op i = .deq w) ∧ HeadSeen s head ∧ TailSeen s tail ∧
      Apart s head tail.ptr ∧ FrontSeen g s i head tail next.ptr
  | .restCur head tail next r => (∃ w, g.abs.op i = .deq w) ∧ HeadSeen s head ∧
      TailSeen s tail ∧ Apart s head tail.ptr ∧ FrontSeen g s i head tail next.ptr ∧
      (s.head = head → r.Agrees head)
  | .cmp128 head tail next cur => (∃ w, g.abs.op i = .deq w) ∧ HeadSeen s head ∧
      TailSeen s tail ∧ Apart s head tail.ptr ∧ FrontSeen g s i head tail next.ptr ∧
      (s.head = head → cur = head)
  | .advance tail next => (∃ w, g.abs.op i = .deq w) ∧ TailSeen s tail ∧
      AdvanceOk s tail next.ptr
  | .readValue head next => (∃ w, g.abs.op i = .deq w) ∧ HeadSeen s head ∧ PopOk s head next.ptr
  | .swing head next v => (∃ w, g.abs.op i = .deq w) ∧ HeadSeen s head ∧ PopOk s head next.ptr ∧
      (s.head = head → s.value next.ptr = v)
  | .free head v => g.abs.op i = .deqDone v ∧ g.retired head.ptr = some i
  | .decCount v | .sigmaskRes v | .ret (some v) => g.abs.op i = .deqDone v
  | .ret none => g.abs.op i = .deq true

/-- Program points of `enqueue` between the link and the count. -/
def Pc.uncounted : Pc → Bool
  | .enq (.swing _ _) | .enq .incCount => true
  | _ => false

/-- Program points of `dequeue` between the move of `Head` and the count. -/
def Pc.popped : Pc → Bool
  | .deq (.free _ _) | .deq (.decCount _) => true
  | _ => false

/-- What holds of the operation a thread is in. -/
def OpInv (g : Ghost) (s : Shared) (i : ℕ) : Pc → Prop
  | .idle => g.abs.op i = .idle
  | .enq p => EnqInv g s i p
  | .deq p => DeqInv g s i p

/-- What holds of a thread. -/
structure ThreadInv (g : Ghost) (s : Shared) (i : ℕ) (p : Pc) : Prop where
  op : OpInv g s i p
  uncounted : i ∈ g.uncounted ↔ p.uncounted = true
  popped : i ∈ g.popped ↔ p.popped = true

/-! ### What another thread's step may change -/

/-- How `Head`, `Tail` and the links at them change from `s` to `s'`. -/
structure Evolves (s s' : Shared) : Prop where
  headLe : s.headChanges ≤ s'.headChanges
  headSame : s'.headChanges = s.headChanges → s'.head = s.head
  tailLe : s.tailChanges ≤ s'.tailChanges
  tailSame : s'.tailChanges = s.tailChanges → s'.tail = s.tail
  /-- A link is never changed again while `Tail` stays. -/
  tailNext : s'.tail = s.tail → s.next s.tail.ptr ≠ NULL →
    s'.next s.tail.ptr = s.next s.tail.ptr
  /-- The first value stays while `Head` does. -/
  headNext : s'.head = s.head → s.next s.head.ptr ≠ NULL →
    s'.next s.head.ptr = s.next s.head.ptr ∧
      s'.value (s.next s.head.ptr) = s.value (s.next s.head.ptr)
  /-- While `Tail` is at the dummy, it does not change. -/
  leave : s'.head = s.head → s'.tail.ptr = s.head.ptr → s'.tail = s.tail
  /-- `Tail` stays at the last node. -/
  tailStay : s.next s.tail.ptr = NULL → s'.tail.ptr = s.tail.ptr
  used : ∀ a, s.used a = true → s'.used a = true

/-- A change of the state that thread `j` does not notice; `held` is the block the
thread is about to compare and swap. -/
structure Stable (g g' : Ghost) (s s' : Shared) (held : Option Addr) (j : ℕ) : Prop where
  evolves : Evolves s s'
  op : g'.abs.op j = g.abs.op j
  uncounted : j ∈ g'.uncounted ↔ j ∈ g.uncounted
  popped : j ∈ g'.popped ↔ j ∈ g.popped
  owned : ∀ a, g.owner a = some j → g'.owner a = some j ∧ s'.mem a = s.mem a
  retired : ∀ a, g.retired a = some j → g'.retired a = some j
  unowned : ∀ a, held = some a → g.owner a = none → g'.owner a = none
  linked : ∀ a, held = some a → g.owner a = none → s'.live a = true → s'.next a = NULL →
    s.live a = true ∧ s.next a = NULL

variable {g g' : Ghost} {s s' : Shared} {i j : ℕ} {held : Option Addr}

/-- `Tail` does not return to the dummy. -/
theorem Evolves.apart (h : Evolves s s') (hh : s'.head = s.head) (ht : s.tail.ptr ≠ s.head.ptr) :
    s'.tail.ptr ≠ s.head.ptr := by
  intro he
  rw [h.leave hh he] at he
  exact ht he

/-- **A pair that is still stored in `Q->Tail` has been there since its count was
read.** -/
theorem Evolves.tail_eq (h : Evolves s s') (h' : SharedInv g' s') (hb : Bounded s')
    {tail : Pointer} (hseen : TailSeen s tail) (heq : s'.tail = tail) :
    s.tail = tail ∧ s'.tail = s.tail := by
  have hcount : tail.count.toNat = s'.tailChanges := by
    rw [← heq, h'.tailCount, BitVec.toNat_ofNat, Nat.mod_eq_of_lt hb.2]
  have hsame := h.tailSame (le_antisymm (hcount ▸ hseen) h.tailLe)
  exact ⟨hsame.symm.trans heq, hsame⟩

/-- **A pair that is still stored in `Q->Head` has been there since its count was
read.** -/
theorem Evolves.head_eq (h : Evolves s s') (h' : SharedInv g' s') (hb : Bounded s')
    {head : Pointer} (hseen : HeadSeen s head) (heq : s'.head = head) :
    s.head = head ∧ s'.head = s.head := by
  have hcount : head.count.toNat = s'.headChanges := by
    rw [← heq, h'.headCount, BitVec.toNat_ofNat, Nat.mod_eq_of_lt hb.1]
  have hsame := h.headSame (le_antisymm (hcount ▸ hseen) h.headLe)
  exact ⟨hsame.symm.trans heq, hsame⟩

theorem TailSeen.evolves {tail : Pointer} (h : TailSeen s tail) (hev : Evolves s s') :
    TailSeen s' tail :=
  le_trans h hev.tailLe

theorem HeadSeen.evolves {head : Pointer} (h : HeadSeen s head) (hev : Evolves s s') :
    HeadSeen s' head :=
  le_trans h hev.headLe

theorem Torn.CountLe.mono {r : Torn} {m n : ℕ} (h : r.CountLe m) (hle : m ≤ n) :
    r.CountLe n := by
  cases r with
  | ptr a => trivial
  | count k => exact le_trans h hle

theorem Torn.PtrIs.imp {r : Torn} {q q' : Addr → Prop} (h : r.PtrIs q) (hq : ∀ a, q a → q' a) :
    r.PtrIs q' := by
  cases r with
  | ptr a => exact hq a h
  | count k => trivial

theorem NextSeen.evolves {tail : Pointer} {a : Addr} (h : NextSeen s tail a) (hev : Evolves s s')
    (h' : SharedInv g' s') (hb : Bounded s') (hseen : TailSeen s tail) : NextSeen s' tail a := by
  intro heq
  obtain ⟨rfl, hsame⟩ := hev.tail_eq h' hb hseen heq
  rcases h rfl with hn | rfl
  · exact .inl hn
  · by_cases hn : s.next s.tail.ptr = NULL
    · exact .inl hn
    · exact .inr (hev.tailNext hsame hn).symm

theorem AdvanceOk.evolves {tail : Pointer} {a : Addr} (h : AdvanceOk s tail a)
    (hev : Evolves s s') (h' : SharedInv g' s') (hb : Bounded s') (hseen : TailSeen s tail) :
    AdvanceOk s' tail a := by
  refine ⟨h.1, fun heq => ?_⟩
  obtain ⟨rfl, hsame⟩ := hev.tail_eq h' hb hseen heq
  obtain ⟨hn, ha⟩ := h
  obtain rfl := ha rfl
  exact (hev.tailNext hsame hn).symm

theorem Apart.evolves {head : Pointer} {a : Addr} (h : Apart s head a) (hev : Evolves s s')
    (h' : SharedInv g' s') (hb : Bounded s') (hseen : HeadSeen s head) : Apart s' head a := by
  intro heq hne
  obtain ⟨rfl, hsame⟩ := hev.head_eq h' hb hseen heq
  exact hev.apart hsame (h rfl hne)

theorem FrontSeen.stable {head tail : Pointer} {a : Addr} (h : FrontSeen g s j head tail a)
    (hst : Stable g g' s s' held j) (h' : SharedInv g' s') (hb : Bounded s')
    (hseen : HeadSeen s head) : FrontSeen g' s' j head tail a := by
  intro heq
  obtain ⟨rfl, hsame⟩ := hst.evolves.head_eq h' hb hseen heq
  obtain ⟨hop, hn, hne⟩ := h rfl
  refine ⟨fun hnull => hst.op.trans (hop hnull), ?_, hne⟩
  rcases hn with hn | rfl
  · exact .inl hn
  · by_cases hn : s.next s.head.ptr = NULL
    · exact .inl hn
    · exact .inr (hst.evolves.headNext hsame hn).1.symm

theorem PopOk.evolves {head : Pointer} {a : Addr} (h : PopOk s head a) (hev : Evolves s s')
    (h' : SharedInv g' s') (hb : Bounded s') (hseen : HeadSeen s head) : PopOk s' head a := by
  intro heq
  obtain ⟨rfl, hsame⟩ := hev.head_eq h' hb hseen heq
  obtain ⟨hn, rfl, hne⟩ := h rfl
  exact ⟨hn, (hev.headNext hsame hn).1.symm, hev.apart hsame hne⟩

theorem Ready.stable {v : DataType} {node : Addr} (h : Ready g s j v node)
    (hst : Stable g g' s s' held j) : Ready g' s' j v node := by
  obtain ⟨hop, hown, hv, hn⟩ := h
  obtain ⟨hown', hm⟩ := hst.owned node hown
  refine ⟨hst.op.trans hop, hown', ?_, ?_⟩
  · rw [Shared.value, hm]; exact hv
  · rw [Shared.next, hm]; exact hn

theorem EnqInv.stable {p : EnqPc} {t : Thread} (ht : t.pc = .enq p) (h : EnqInv g s j p)
    (hst : Stable g g' s s' t.held j) (h' : SharedInv g' s') (hb : Bounded s') :
    EnqInv g' s' j p := by
  have hev := hst.evolves
  cases p with
  | sigmaskBlk v => exact hst.op.trans h
  | newNode v => exact hst.op.trans h
  | setValue v node => exact ⟨hst.op.trans h.1, (hst.owned node h.2).1⟩
  | setNext v node =>
    obtain ⟨hop, hown, hv⟩ := h
    obtain ⟨hown', hm⟩ := hst.owned node hown
    exact ⟨hst.op.trans hop, hown', by rw [Shared.value, hm]; exact hv⟩
  | readTail v node => exact Ready.stable h hst
  | restTail v node r => exact ⟨h.1.stable hst, h.2.mono hev.tailLe⟩
  | readNext v node tail => exact ⟨h.1.stable hst, h.2.evolves hev⟩
  | restNext v node tail r =>
    obtain ⟨hr, ht, hn⟩ := h
    exact ⟨hr.stable hst, ht.evolves hev, hn.imp fun _ hx => hx.evolves hev h' hb ht⟩
  | readCur v node tail next =>
    obtain ⟨hr, ht, hn⟩ := h
    exact ⟨hr.stable hst, ht.evolves hev, hn.evolves hev h' hb ht⟩
  | restCur v node tail next r =>
    obtain ⟨hr, ht, hn, hc⟩ := h
    exact ⟨hr.stable hst, ht.evolves hev, hn.evolves hev h' hb ht,
      fun heq => hc (hev.tail_eq h' hb ht heq).1⟩
  | cmp128 v node tail next cur =>
    obtain ⟨hr, ht, hn, hc⟩ := h
    exact ⟨hr.stable hst, ht.evolves hev, hn.evolves hev h' hb ht,
      fun heq => hc (hev.tail_eq h' hb ht heq).1⟩
  | link v node tail next =>
    obtain ⟨hr, hs, hn, ho, hu, hl⟩ := h
    -- the count no longer helps: the link does
    have hheld : t.held = some tail.ptr := by rw [Thread.held, ht]
    refine ⟨hr.stable hst, hs.evolves hev, hn, hst.unowned _ hheld ho, hev.used _ hu, ?_⟩
    intro hlive hnull
    obtain ⟨hlive', hnull'⟩ := hst.linked _ hheld ho hlive hnull
    have htail := hl hlive' hnull'
    rw [← htail] at hnull'
    exact (hev.tailStay hnull').trans htail
  | advance v node tail next =>
    obtain ⟨hr, ht, ha⟩ := h
    exact ⟨hr.stable hst, ht.evolves hev, ha.evolves hev h' hb ht⟩
  | swing node tail =>
    obtain ⟨hop, ht, ha⟩ := h
    exact ⟨hst.op.trans hop, ht.evolves hev, ha.evolves hev h' hb ht⟩
  | incCount => exact hst.op.trans h
  | sigmaskRes => exact hst.op.trans h
  | ret => exact hst.op.trans h

theorem DeqInv.stable {p : DeqPc} (h : DeqInv g s j p) (hst : Stable g g' s s' held j)
    (h' : SharedInv g' s') (hb : Bounded s') : DeqInv g' s' j p := by
  have hev := hst.evolves
  have hop : (∃ w, g.abs.op j = .deq w) → ∃ w, g'.abs.op j = .deq w :=
    fun ⟨w, hw⟩ => ⟨w, hst.op.trans hw⟩
  cases p with
  | sigmaskBlk => exact hop h
  | readHead => exact hop h
  | restHead r => exact ⟨hop h.1, h.2.mono hev.headLe⟩
  | readTail head => exact ⟨hop h.1, h.2.evolves hev⟩
  | restTail head r =>
    obtain ⟨ho, hh, hc, ha⟩ := h
    exact ⟨hop ho, hh.evolves hev, hc.mono hev.tailLe,
      ha.imp fun _ hx => hx.evolves hev h' hb hh⟩
  | readNext head tail =>
    obtain ⟨ho, hh, ht, ha⟩ := h
    exact ⟨hop ho, hh.evolves hev, ht.evolves hev, ha.evolves hev h' hb hh⟩
  | restNext head tail r =>
    obtain ⟨ho, hh, ht, ha, hf⟩ := h
    exact ⟨hop ho, hh.evolves hev, ht.evolves hev, ha.evolves hev h' hb hh,
      hf.imp fun _ hx => hx.stable hst h' hb hh⟩
  | readCur head tail next =>
    obtain ⟨ho, hh, ht, ha, hf⟩ := h
    exact ⟨hop ho, hh.evolves hev, ht.evolves hev, ha.evolves hev h' hb hh,
      hf.stable hst h' hb hh⟩
  | restCur head tail next r =>
    obtain ⟨ho, hh, ht, ha, hf, hc⟩ := h
    exact ⟨hop ho, hh.evolves hev, ht.evolves hev, ha.evolves hev h' hb hh,
      hf.stable hst h' hb hh, fun heq => hc (hev.head_eq h' hb hh heq).1⟩
  | cmp128 head tail next cur =>
    obtain ⟨ho, hh, ht, ha, hf, hc⟩ := h
    exact ⟨hop ho, hh.evolves hev, ht.evolves hev, ha.evolves hev h' hb hh,
      hf.stable hst h' hb hh, fun heq => hc (hev.head_eq h' hb hh heq).1⟩
  | advance tail next =>
    obtain ⟨ho, ht, ha⟩ := h
    exact ⟨hop ho, ht.evolves hev, ha.evolves hev h' hb ht⟩
  | readValue head next =>
    obtain ⟨ho, hh, hp⟩ := h
    exact ⟨hop ho, hh.evolves hev, hp.evolves hev h' hb hh⟩
  | swing head next v =>
    obtain ⟨ho, hh, hp, hv⟩ := h
    refine ⟨hop ho, hh.evolves hev, hp.evolves hev h' hb hh, fun heq => ?_⟩
    obtain ⟨hold, hsame⟩ := hev.head_eq h' hb hh heq
    obtain ⟨hn, ha, -⟩ := hp hold
    rw [← hv hold, ha, ← hold]
    rw [ha, ← hold] at hn
    exact (hev.headNext hsame hn).2
  | free head v => exact ⟨hst.op.trans h.1, hst.retired _ h.2⟩
  | decCount v => exact hst.op.trans h
  | sigmaskRes v => exact hst.op.trans h
  | ret r =>
    cases r with
    | none => exact hst.op.trans h
    | some v => exact hst.op.trans h

/-- **A thread's invariant survives a change it does not notice.** -/
theorem ThreadInv.stable {t : Thread} (h : ThreadInv g s j t.pc)
    (hst : Stable g g' s s' t.held j) (h' : SharedInv g' s') (hb : Bounded s') :
    ThreadInv g' s' j t.pc := by
  obtain ⟨hop, hu, hp⟩ := h
  refine ⟨?_, hst.uncounted.trans hu, hst.popped.trans hp⟩
  cases hpc : t.pc with
  | idle => rw [hpc] at hop; exact hst.op.trans hop
  | enq p => rw [hpc] at hop; exact EnqInv.stable hpc hop hst h' hb
  | deq p => rw [hpc] at hop; exact DeqInv.stable hop hst h' hb

end Coremu.MsQueue

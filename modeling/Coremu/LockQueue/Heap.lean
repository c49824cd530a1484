import Coremu.Lib.Account
import Coremu.LockQueue.Tail

/-!
# Who has a block

Every block that the queue has taken from the heap is a node of the list, or is in the hands
of one thread: a producer that has allocated it and not linked it yet, or the consumer that
has taken it out of the list and not freed it yet.  So no block is lost, and none is freed
that somebody still has.

## Main definitions

* `Pc.node` — the block in the hands of a thread.

## Main results

* `handover` — where a step moves a block.
* `Run.accounted` — **every block in use is in one place, in every run.**
-/

namespace Coremu.LockQueue

open Linked

/-- The block in the hands of a thread. -/
def Pc.node : Pc → Option Addr
  | .enq (.setValue _ node) | .enq (.setNext _ node) | .enq (.spinLock _ node)
  | .enq (.readTail _ node) | .enq (.link _ node _) => some node
  | .deq (.free node _) => some node
  | _ => none

variable {c : ℕ} {g : Ghost} {s s' : Shared} {i j : ℕ} {p p' : Pc} {x : Choice}
  {e : Fifo.Event DataType} {a : Addr} {cfg : Config} {tr : List (ℕ × Fifo.Event DataType)}

/-- A write changes no successor but that of the block. -/
theorem write_next_of_ne (s : Shared) {b : Addr} (n : Node) (hba : b ≠ a) :
    (s.write a n).next b = s.next b := by
  simp [Shared.next, Shared.write, hba]

/-- Of the shared state, only `Q->Tail` says which node is accessed next. -/
theorem Pc.touches_congr (p : Pc) (h : s'.tail = s.tail) : p.touches s' = p.touches s := by
  cases p with
  | enq p => cases p <;> first | rfl | exact congrArg some h
  | deq p => cases p <;> rfl
  | idle => rfl

/-- What a thread has in its hands is not in the list. -/
theorem ThreadInv.node_notMem (h : SharedInv g s) (hp : ThreadInv c g s i p)
    (ha : p.node = some a) : a ∉ g.nodes := by
  cases p with
  | idle => cases ha
  | enq p =>
    obtain ⟨he, -, -⟩ := hp
    cases p with
    | setValue v node | setNext v node | spinLock v node =>
      cases ha
      exact h.notMem_of_owner he.2.1
    | readTail v node | link v node tail =>
      cases ha
      exact h.notMem_of_owner he.2.1.1
    | _ => cases ha
  | deq p =>
    obtain ⟨hd, -, -, -⟩ := hp
    cases p with
    | free node v =>
      cases ha
      exact hd.2.2.1
    | _ => cases ha

/-- **Where a step moves a block**: from the heap to a thread, from there to the list, from
the list to the consumer, and from there to the heap. -/
theorem handover (h : SharedInv g s) (hp : ThreadInv c g s i p) (hs : Step s p x s' p' e) :
    ∃ nodes, Reachable s' nodes ∧ Heap.Move s.live g.nodes p.node s'.live nodes p'.node := by
  have hr := h.reachable
  cases hs with
  | newNode v a hb hl =>
    exact ⟨g.nodes, hr.off (h.fresh hl).1 fun _ => write_next_of_ne s _, .take a hl⟩
  | setValue v node | setNext v node =>
    exact ⟨g.nodes, hr.off (hp.node_notMem h rfl) fun _ => write_next_of_ne s _, .stay _⟩
  | link v node tail =>
    obtain ⟨⟨ho, ⟨hown, hv, hn⟩, hlk, hun, rfl⟩, hh, -⟩ := hp
    have hlink := h.link hown (hh.mp rfl) (hn _ rfl) hlk hun (a := { g.abs with
      content := g.abs.content ++ [⟨i, g.abs.finished i, v⟩] }) rfl (hv v rfl).symm rfl rfl
    exact ⟨g.nodes ++ [node], hlink.reachable, .link node⟩
  | setHead node newHead v =>
    obtain ⟨⟨-, l, hl, -⟩, -⟩ := hp
    obtain ⟨hchain, hnull⟩ := hr
    rw [hl] at hchain hnull
    obtain ⟨-, hrest⟩ := Chain.cons_iff.mp hchain
    obtain ⟨rfl, -⟩ := Chain.cons_iff.mp hrest
    exact ⟨s.next node :: l, ⟨hrest, fun hm => hnull (List.mem_cons_of_mem _ hm)⟩,
      .unlink node _ hl⟩
  | free node v n =>
    exact ⟨g.nodes, hr.off (hp.node_notMem h rfl) fun _ => write_next_of_ne s n, .free node⟩
  | _ => exact ⟨g.nodes, hr, .stay _⟩

/-- **Every block in use is in one place, in every run.** -/
theorem Run.accounted (h : Run c tr cfg) : ∃ nodes, Reachable cfg.shared nodes ∧
    Heap.Accounted cfg.shared.live nodes fun i => (cfg.thread i).node := by
  induction h with
  | nil hc =>
    obtain ⟨mem, node, hb, rfl⟩ := hc
    exact ⟨[node], (sharedInv_initializeQ mem hb).reachable, Heap.accounted_new node⟩
  | @snoc tr cfg i x s' p' e hrun hx hs ih =>
    obtain ⟨g, -, hinv⟩ := Run.inv hrun
    obtain ⟨nodes, hr, hacc⟩ := ih
    obtain rfl := hr.unique hinv.1.reachable
    obtain ⟨nodes', hr', hmove⟩ := handover hinv.1 (hinv.2 i) (step_cases hs)
    refine ⟨nodes', hr', ?_⟩
    rw [Interleave.Config.map_after cfg Pc.node]
    exact hacc.move hmove

end Coremu.LockQueue

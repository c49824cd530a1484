import Coremu.Lib.Account
import Coremu.MsQueue.LinkCas

/-!
# Who has a block of the lock-free queue

A `dequeue` that has moved `Head` frees the old dummy with no lock held, while others still
read it.  Yet it is the only one that does.  If no block is freed that an enqueue is about to
compare and swap, every block in use is a node of the list, or is in the hands of the one
thread that has allocated it and not linked it yet, or has taken it out of the list and not
freed it yet.  Without this condition the node of a link that is lost stays in use for ever.

## Main definitions

* `Pc.node` — the block in the hands of a thread.

## Main results

* `handover` — where a step moves a block.
* `msQueue_heap_accounted` — **no block is lost, and none is freed twice.**
-/

namespace Coremu.MsQueue

open Linked

/-- The block in the hands of a thread. -/
def Pc.node : Pc → Option Addr
  | .enq (.setValue _ node) | .enq (.setNext _ node) | .enq (.readTail _ node)
  | .enq (.restTail _ node _) | .enq (.readNext _ node _) | .enq (.restNext _ node _ _)
  | .enq (.readCur _ node _ _) | .enq (.restCur _ node _ _ _) | .enq (.cmp128 _ node _ _ _)
  | .enq (.link _ node _ _) | .enq (.advance _ node _ _) => some node
  | .deq (.free head _) => some head.ptr
  | _ => none

variable {g : Ghost} {s s' : Shared} {t t' : Thread} {i : ℕ} {p : Pc} {x : Choice}
  {e : Fifo.Event DataType} {a : Addr} {cfg : Config} {tr : List (ℕ × Fifo.Event DataType)}

/-- A write changes no successor but that of the block. -/
theorem write_next_of_ne (s : Shared) {b : Addr} (n : Node) (hba : b ≠ a) :
    (s.write a n).next b = s.next b := by
  simp [Shared.next, Shared.write, hba]

/-- **Where a step moves a block**: from the heap to a thread, from there to the list, from
the list to the thread that moves `Head`, and from there to the heap. -/
theorem handover (h : SharedInv g s) (hp : ThreadInv g s i p)
    (hlive : ∀ v node tail next, p = .enq (.link v node tail next) → s.live tail.ptr = true)
    (hs : Step s t p x s' t' e) :
    ∃ nodes, Reachable s' nodes ∧ Heap.Move s.live g.nodes p.node s'.live nodes t'.pc.node := by
  have hr := h.reachable
  have hop := hp.op
  cases hs with
  | newNode v a n hb hl =>
    exact ⟨g.nodes, hr.off (h.free_block hl).1 fun _ => write_next_of_ne s n, .take a hl⟩
  | setValue v node =>
    exact ⟨g.nodes, hr.off (h.notMem_of_owner hop.2) fun _ => write_next_of_ne s _, .stay _⟩
  | setNext v node =>
    exact ⟨g.nodes, hr.off (h.notMem_of_owner hop.2.1) fun _ => write_next_of_ne s _, .stay _⟩
  | link v node tail next heq =>
    obtain ⟨⟨-, hown, -, hnn⟩, -, hnull, -, -, hlk⟩ := hop
    have hlast : s.next tail.ptr = NULL := by
      rw [Shared.next, heq]
      exact hnull
    have htm : tail.ptr ∈ g.nodes := hlk (hlive v node tail next rfl) hlast ▸ h.tail_mem
    have hlist := h.link_list hown hnn htm hlast (next.count + 1)
    exact ⟨g.nodes ++ [node], hlist.reachable, .link node⟩
  | deqEmpty head tail next cur heq | deqBehind head tail next cur heq
  | deqFront head tail next cur heq =>
    -- the swap of `cmp128` stores what is there
    obtain ⟨-, -, -, -, -, hcur⟩ := hop
    rw [setHead_cur heq hcur]
    exact ⟨g.nodes, hr, .stay _⟩
  | pop head next v heq =>
    obtain ⟨-, -, hpop, -⟩ := hop
    obtain ⟨hn, hnext, -⟩ := hpop heq
    subst heq
    rw [hnext] at hn ⊢
    obtain ⟨l, vs, hl, -, -, hlist⟩ := h.list.front hn
    exact ⟨s.next s.head.ptr :: l, hlist.reachable, .unlink _ _ hl⟩
  | free head v n =>
    exact ⟨g.nodes, hr.off (h.notMem_of_retired hop.2) fun _ => write_next_of_ne s n,
      .free head.ptr⟩
  | _ => exact ⟨g.nodes, hr, .stay _⟩

/-- Every block in use is in one place, in every run that frees no block about to be swapped. -/
theorem KeptRun.accounted (h : KeptRun tr cfg) (hb : Bounded cfg.shared) :
    ∃ nodes, Reachable cfg.shared nodes ∧
      Heap.Accounted cfg.shared.live nodes fun i => (cfg.thread i).pc.node := by
  induction h with
  | @nil cfg hc =>
    obtain ⟨mem, node, hblock, hs, hidle⟩ := hc
    have hhand : (fun i => (cfg.thread i).pc.node) = fun _ => none := by
      funext i
      rw [hidle i]
      rfl
    rw [hs, hhand]
    exact ⟨[node], (sharedInv_initializeQ mem hblock).reachable, Heap.accounted_new node⟩
  | @snoc tr cfg i x s' t' e hrun hx hs ih =>
    have hb₀ : Bounded cfg.shared := Bounded.before hs hb
    obtain ⟨-, hlive, g, -, -, hinv⟩ := KeptRun.run_inv hrun hb₀
    obtain ⟨nodes, hr, hacc⟩ := ih hb₀
    obtain rfl := hr.unique hinv.1.reachable
    obtain ⟨nodes', hr', hmove⟩ := handover hinv.1 (hinv.2 i)
      (fun v node tail next hpc => hlive i _ (by rw [Thread.held, hpc])) (step_cases hs)
    refine ⟨nodes', hr', ?_⟩
    rw [Interleave.Config.map_after cfg fun t => t.pc.node]
    exact hacc.move hmove

/-- With nobody in an operation, the count is the length of the list without the dummy. -/
theorem SharedInv.queueGetSize (h : SharedInv g s) (hl : g.lost = 0) (hu : g.uncounted = ∅)
    (hp : g.popped = ∅) : MsQueue.queueGetSize s + 1 = g.nodes.length := by
  have hlen := length_le_of_block h.list.nodup fun a ha => (h.node a ha).1
  have hnodes := h.list.length_eq
  rw [List.length_map] at hnodes
  rw [MsQueue.queueGetSize, h.count, hl, hu, hp, Finset.card_empty, Nat.cast_zero, sub_zero,
    add_zero, add_zero, BitVec.toInt_ofInt, Int.bmod_eq_of_le (by omega) (by omega)]
  omega

/-- **No block is lost, and none is freed twice**: every block in use is a node of the list or
in the hands of one thread, and with nobody in an operation there is one for every value, and
one more.  This is so in every run that frees no block that an enqueue is about to compare and
swap. -/
theorem msQueue_heap_accounted (h : KeptRun tr cfg) (hb : Bounded cfg.shared) :
    ∃ nodes, Reachable cfg.shared nodes ∧
      (Heap.Accounted cfg.shared.live nodes fun i => (cfg.thread i).pc.node) ∧
      ((∀ i, (cfg.thread i).pc = .idle) →
        ({a | cfg.shared.live a = true}.ncard : ℤ) = queueGetSize cfg.shared + 1) := by
  obtain ⟨nodes, hr, hacc⟩ := h.accounted hb
  refine ⟨nodes, hr, hacc, fun hidle => ?_⟩
  obtain ⟨g, hlost, -, hinv⟩ := h.inv hb
  have hu : g.uncounted = ∅ := by
    refine Finset.eq_empty_of_forall_notMem fun i hi => ?_
    have := (hinv.2 i).uncounted.mp hi
    rw [hidle i] at this
    cases this
  have hp : g.popped = ∅ := by
    refine Finset.eq_empty_of_forall_notMem fun i hi => ?_
    have := (hinv.2 i).popped.mp hi
    rw [hidle i] at this
    cases this
  rw [hinv.1.queueGetSize hlost hu hp, ← hr.unique hinv.1.reachable, hacc.card fun i => by
    rw [hidle i]
    rfl]

/-- A value has been taken, the first dummy is in the list again, and both threads are idle. -/
def dummyBack (tr : List (ℕ × Fifo.Event DataType)) (cfg : Config) : Bool :=
  decide (Fifo.returned tr = [7] ∧ queueGetSize cfg.shared = 1 ∧ cfg.shared.live 16 = true ∧
    cfg.shared.headChanges = 1 ∧ cfg.shared.tailChanges = 2) && (List.range 2).all fun i =>
      match (cfg.thread i).pc with
      | .idle => true
      | _ => false

/-- A thread enqueues, another one dequeues and frees the dummy, and the first one is given
this block for its next node: two blocks are in use then. -/
theorem msQueue_heap_accounted_reused : ∃ tr cfg, KeptRun tr cfg ∧ Bounded cfg.shared ∧
    Fifo.returned tr = [7] ∧ cfg.shared.live 16 = true ∧
      {a | cfg.shared.live a = true}.ncard = 2 := by
  obtain ⟨tr, cfg, hr, hrest, ht⟩ : ∃ tr cfg, KeptRun tr cfg ∧
      (∀ j, ¬ j < 2 → cfg.thread j = (start 16).thread j) ∧ dummyBack tr cfg = true :=
    Interleave.Program.exists_run_of_exec_within (· < 2) (fun _ cfg i _ => keepsWithin 2 cfg i)
      (fun _ _ _ _ => unreleased_of_keepsWithin) (newQueue_start 16 (by decide))
      (enqueueToLink 0 7 32 ⟨⟨5, 5⟩, 5⟩ ++ enqueueFromLink 0 ++ dequeueSteps 1 ⟨⟨9, 9⟩, 9⟩ ++
        enqueueToLink 0 8 16 ⟨⟨5, 5⟩, 5⟩ ++ enqueueFromLink 0) (by decide) dummyBack (by decide)
  obtain ⟨hdone, hidle⟩ := Bool.and_eq_true_iff.mp ht
  obtain ⟨hret, hsize, hlive, hh, htl⟩ := of_decide_eq_true hdone
  have hb : Bounded cfg.shared := ⟨by omega, by omega⟩
  have hall : ∀ i, (cfg.thread i).pc = .idle := by
    intro i
    by_cases hi : i < 2
    · have hpc := List.all_eq_true.mp hidle i (List.mem_range.mpr hi)
      cases h : (cfg.thread i).pc with
      | idle => rfl
      | _ => simp [h] at hpc
    · rw [hrest i hi]
      rfl
  obtain ⟨nodes, -, -, hcard⟩ := msQueue_heap_accounted hr hb
  refine ⟨tr, cfg, hr, hb, hret, hlive, ?_⟩
  have := hcard hall
  rw [hsize] at this
  exact_mod_cast this

end Coremu.MsQueue

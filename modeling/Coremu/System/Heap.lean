import Mathlib.Data.Set.Card
import Mathlib.Algebra.BigOperators.Ring.Finset
import Coremu.LockQueue.Heap
import Coremu.System.Ledger

/-!
# The heap that all queues share

Every block in use is a node of the queue of one core, or is in the hands of one thread; and
a thread accesses blocks in use only.  So the queues neither lose a block nor get into each
other's way, though each of them frees its nodes to the others.

## Main definitions

* `HeapAccounted` — who has a block, over all queues.

## Main results

* `Separated.heap` — what each core knows of its part, put together.
* `HeapAccounted.card` — at rest there is a block for every interrupt, and one for every core.
* `system_heap_accounted` — **no block is lost, shared or used after it was freed.**
-/

namespace Coremu.System

open Coremu.Core (Machine)
open Coremu.LockQueue (Pc Reachable)

/-- The blocks in use are the nodes of the queues and those in the hands of a thread, each is
in one of these places only, and only blocks in use are accessed. -/
structure HeapAccounted (M : Machine) (cfg : Config) (nodes : ℕ → List Addr) : Prop where
  reachable : ∀ j < M.smpCpus, Reachable (cfg.shared.lockQueue j) (nodes j)
  nodup : ∀ j < M.smpCpus, (nodes j).Nodup
  live : ∀ a, cfg.shared.live a = true ↔
    (∃ j < M.smpCpus, a ∈ nodes j) ∨ ∃ i, (cfg.thread i).queue.node = some a
  apart : ∀ j < M.smpCpus, ∀ k < M.smpCpus, ∀ a, a ∈ nodes j → a ∈ nodes k → j = k
  unlinked : ∀ i a, (cfg.thread i).queue.node = some a → ∀ j < M.smpCpus, a ∉ nodes j
  single : ∀ i k a, (cfg.thread i).queue.node = some a → (cfg.thread k).queue.node = some a → i = k
  touched : ∀ i j a, queueOf i (cfg.thread i).core = some j →
    (cfg.thread i).queue.touches (cfg.shared.lockQueue j) = some a → cfg.shared.live a = true

variable {M : Machine} {i j k : ℕ} {cfg : Config} {tr : List (ℕ × Event)} {V : ℕ → IntrConfig}
  {t : Thread} {a : Addr}

/-- A thread works on the queue of a core. -/
theorem ThreadOk.lt (h : ThreadOk M i t) (hq : queueOf i t.core = some j) : j < M.smpCpus := by
  unfold queueOf at hq
  split at hq
  · next k e ho =>
    cases hq
    exact h.sent j e ho
  · next ho hr =>
    cases hq
    exact h.core (by simp [hr])
  · cases hq

/-- A thread that has a block works on a queue. -/
theorem ThreadOk.queueOf (h : ThreadOk M i t) (ha : t.queue.node = some a) :
    ∃ j < M.smpCpus, System.queueOf i t.core = some j := by
  cases hq : System.queueOf i t.core with
  | none =>
    rw [h.idle hq] at ha
    cases ha
  | some j => exact ⟨j, h.lt hq, rfl⟩

/-- What a core sees of its list is the list. -/
theorem View.reachable {v : IntrConfig} {nodes : List Addr} (h : View j cfg v)
    (hr : Reachable v.shared nodes) (hlive : ∀ a ∈ nodes, v.shared.live a = true) :
    Reachable (cfg.shared.lockQueue j) nodes := by
  have hsame : Linked.Reachable (cfg.shared.lockQueue j).next NULL v.shared.head nodes :=
    hr.congr fun b hb => by
      rw [LockQueue.Shared.next, LockQueue.Shared.next, h.within.mem b (hlive b hb)]
  rwa [h.within.head] at hsame

/-- What each core knows of its part of the heap, put together. -/
theorem Separated.heap (h : Separated M tr cfg V) : ∃ nodes : ℕ → List Addr,
    HeapAccounted M cfg nodes ∧
      ∀ j < M.smpCpus, ∃ g, Ledger j tr cfg (V j) g ∧ g.nodes = nodes j := by
  have hex : ∀ j < M.smpCpus, ∃ l, ∃ g, Ledger j tr cfg (V j) g ∧ g.nodes = l := fun j hj => by
    obtain ⟨g, hg⟩ := h.ledger hj
    exact ⟨_, g, hg, rfl⟩
  choose! nodes hnodes using hex
  have hlist : ∀ j < M.smpCpus, Reachable (V j).shared (nodes j) := by
    intro j hj
    obtain ⟨g, hg, hl⟩ := hnodes j hj
    exact hl ▸ hg.inv.1.reachable
  have hacc : ∀ j < M.smpCpus, Heap.Accounted (V j).shared.live (nodes j)
      fun i => ((Intr.queueConfig (V j)).thread i).node := by
    intro j hj
    obtain ⟨l, hr, hacc⟩ := (h.queueRun hj).accounted
    exact hr.unique (hlist j hj) ▸ hacc
  -- the blocks that core `j` sees
  have hview : ∀ {j : ℕ}, j < M.smpCpus → ∀ {i : ℕ}, queueOf i (cfg.thread i).core = some j →
      (Intr.queueConfig (V j)).thread i = (cfg.thread i).queue := fun hj i hq =>
    (h.view _ hj).queue_eq hq
  have hlinked : ∀ j < M.smpCpus, ∀ a ∈ nodes j, (V j).shared.live a = true := fun j hj a ha =>
    ((hacc j hj).live a).mpr (.inl ha)
  have hheld : ∀ j < M.smpCpus, ∀ i a, queueOf i (cfg.thread i).core = some j →
      (cfg.thread i).queue.node = some a →
        ((Intr.queueConfig (V j)).thread i).node = some a := fun j hj i a hq ha => by
    rw [hview hj hq]
    exact ha
  have hhand : ∀ j < M.smpCpus, ∀ i a, queueOf i (cfg.thread i).core = some j →
      (cfg.thread i).queue.node = some a → (V j).shared.live a = true := fun j hj i a hq ha =>
    ((hacc j hj).live a).mpr (.inr ⟨i, hheld j hj i a hq ha⟩)
  refine ⟨nodes, ⟨fun j hj => ?_, fun j hj => (hacc j hj).nodup,
    fun a => ⟨fun ha => ?_, ?_⟩, fun j hj k hk a ha hka => ?_, fun i a ha j hj hm => ?_,
    fun i k a hi hk => ?_, fun i j a hq ha => ?_⟩, hnodes⟩
  · exact (h.view j hj).reachable (hlist j hj) (hlinked j hj)
  · obtain ⟨j, hj, hja⟩ := h.cover a ha
    rcases ((hacc j hj).live a).mp hja with hm | ⟨i, hi⟩
    · exact .inl ⟨j, hj, hm⟩
    · refine .inr ⟨i, ?_⟩
      have hpc : ((V j).thread i).queue.node = some a := hi
      rw [(h.view j hj).thread i] at hpc
      by_cases hq : queueOf i (cfg.thread i).core = some j
      · rwa [show (queueThread j i (cfg.thread i)).queue = _ from if_pos hq] at hpc
      · rw [show (queueThread j i (cfg.thread i)).queue = _ from if_neg hq] at hpc
        cases hpc
  · rintro (⟨j, hj, hm⟩ | ⟨i, hi⟩)
    · exact (h.view j hj).within.live a (hlinked j hj a hm)
    · obtain ⟨j, hj, hq⟩ := (h.thread i).queueOf hi
      exact (h.view j hj).within.live a (hhand j hj i a hq hi)
  · exact h.apart j hj k hk a (hlinked j hj a ha) (hlinked k hk a hka)
  · obtain ⟨k, hk, hq⟩ := (h.thread i).queueOf ha
    obtain rfl : j = k := h.apart j hj k hk a (hlinked j hj a hm) (hhand k hk i a hq ha)
    exact (hacc j hj).unlinked a ⟨i, hheld j hj i a hq ha⟩ hm
  · obtain ⟨m, hm, hq⟩ := (h.thread i).queueOf hi
    obtain ⟨n, hn, hq'⟩ := (h.thread k).queueOf hk
    obtain rfl : m = n := h.apart m hm n hn a (hhand m hm i a hq hi) (hhand n hn k a hq' hk)
    exact (hacc m hm).single i k a (hheld m hm i a hq hi) (hheld m hm k a hq' hk)
  · have hj := (h.thread i).lt hq
    obtain ⟨g, hg, -⟩ := hnodes j hj
    have hinv := hg.inv
    refine (h.view j hj).within.live a ((hinv.2 i).touches_live hinv.1 ?_)
    rw [hview hj hq, ← ha]
    exact LockQueue.Pc.touches_congr _ (h.view j hj).within.tail

/-- At rest, only the nodes of the queues are in use. -/
theorem HeapAccounted.card {nodes : ℕ → List Addr} (h : HeapAccounted M cfg nodes)
    (hidle : ∀ i, (cfg.thread i).queue = .idle) : {a | cfg.shared.live a = true}.ncard =
      ∑ j ∈ Finset.range M.smpCpus, (nodes j).length := by
  classical
  have hset : {a | cfg.shared.live a = true} =
      ((Finset.range M.smpCpus).biUnion fun j => (nodes j).toFinset : Finset Addr) := by
    ext a
    have hnone : ¬ ∃ i, (cfg.thread i).queue.node = some a := by
      rintro ⟨i, hi⟩
      rw [hidle i] at hi
      cases hi
    simp [h.live a, hnone]
  rw [hset, Set.ncard_coe_finset, Finset.card_biUnion]
  · refine Finset.sum_congr rfl fun j hj => ?_
    exact List.toFinset_card_of_nodup (h.nodup j (Finset.mem_range.mp hj))
  · intro j hj k hk hjk
    refine Finset.disjoint_left.mpr fun a ha hka => ?_
    exact hjk (h.apart j (Finset.mem_range.mp hj) k (Finset.mem_range.mp hk) a
      (List.mem_toFinset.mp ha) (List.mem_toFinset.mp hka))

/-- **No block is lost, shared or used after it was freed**: every block in use is a node of
one queue or in the hands of one thread, and with nobody in an operation there is one for
every interrupt on a queue, and one more for every core. -/
theorem system_heap_accounted (h : Run M tr cfg) : ∃ nodes, HeapAccounted M cfg nodes ∧
    ((∀ i, (cfg.thread i).queue = .idle) → ({a | cfg.shared.live a = true}.ncard : ℤ) =
      ∑ j ∈ Finset.range M.smpCpus, (cfg.shared.intrGetSize j + 1)) := by
  obtain ⟨V, hV⟩ := h.separated
  obtain ⟨nodes, hacc, hledger⟩ := hV.heap
  refine ⟨nodes, hacc, fun hidle => ?_⟩
  rw [hacc.card hidle, Nat.cast_sum]
  refine Finset.sum_congr rfl fun j hj => ?_
  obtain ⟨g, hg, hnodes⟩ := hledger j (Finset.mem_range.mp hj)
  obtain ⟨hsize, hlen, -⟩ := hg.atRest fun i => by rw [queueThread, hidle i, ite_self]
  rw [← hnodes, hlen, ← hsize, Nat.cast_succ]

theorem eq_idle_of_idle {p : Pc} (h : Intr.Lock.queue.idle p = true) : p = .idle := by
  cases p with
  | idle => rfl
  | _ => cases h

/-- Core 1 has taken an interrupt, and neither core is in an operation. -/
def restTest (tr : List (ℕ × Event)) (cfg : Config) : Bool :=
  decide (Fifo.returned (queueTrace 1 tr) = [7]) && (List.range 2).all fun i =>
    Intr.Lock.queue.idle (cfg.thread i).queue && decide (cfg.shared.intrGetSize i = 0)

/-- After core 1 has taken the interrupt of core 0, nobody is in an operation, and the two
dummies are all that is in use. -/
theorem system_heap_accounted_rest : ∃ tr cfg, Run Core.twoOnOne tr cfg ∧
    Fifo.returned (queueTrace 1 tr) = [7] ∧ (∀ i, (cfg.thread i).queue = .idle) ∧
      {a | cfg.shared.live a = true}.ncard = 2 := by
  obtain ⟨tr, cfg, hr, hrest, ht⟩ : ∃ tr cfg, Run Core.twoOnOne tr cfg ∧
      (∀ j, ¬ j < 2 → cfg.thread j = bootTwo.thread j) ∧ restTest tr cfg = true :=
    Interleave.Program.exists_run_of_exec_within (· < 2) (fun _ _ _ _ => true)
      (fun _ _ _ _ _ _ => trivial) booted_bootTwo sendSteps (by decide) restTest (by decide)
  simp only [restTest, Bool.and_eq_true, decide_eq_true_eq, List.all_eq_true, List.mem_range] at ht
  obtain ⟨hret, hcores⟩ := ht
  have hall : ∀ i, (cfg.thread i).queue = .idle := by
    intro i
    by_cases hi : i < 2
    · exact eq_idle_of_idle (hcores i hi).1
    · rw [hrest i hi]
      rfl
  refine ⟨tr, cfg, hr, hret, hall, ?_⟩
  obtain ⟨nodes, -, hcard⟩ := system_heap_accounted hr
  have hsum : ∑ j ∈ Finset.range Core.twoOnOne.smpCpus, (cfg.shared.intrGetSize j + 1) = 2 := by
    rw [Finset.sum_congr rfl fun j hj => by rw [(hcores j (Finset.mem_range.mp hj)).2]]
    rfl
  exact_mod_cast (hcard hall).trans hsum

end Coremu.System

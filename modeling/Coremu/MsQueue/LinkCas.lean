import Coremu.MsQueue.Linearizable

/-!
# The link and the reuse of freed nodes

The count in `next` is meant to protect the compare-and-swap of line 161 against a
node that was freed and handed out again: the comment of `enqueue` speaks of a free
list, from which a node would come back with its old count.  But nodes come from
`ms_allocaligned`, and neither `new_node` nor `enqueue` nor `initialize` sets
`next.count`.  So an enqueue that is delayed between lines 155 and 161 can link its
node to a block that is not in the list any more.  It need not even be handed out again:
`lostLink` shows that what the release leaves in it may be enough.

## Main definitions

* `Reachable` — the nodes reachable from `Q->Head`.
* `LinksAtEnd`, `NothingLost` — what the link is meant to ensure.

## Main results

* `linkCas_sound` — it ensures this when no block is freed that an enqueue is about to
  compare and swap; such a block is not handed out, either.
* `linkCas_reused` — it does not otherwise.
-/

namespace Coremu.MsQueue

open Linked

/-- `nodes` are the nodes reachable from `Q->Head` by `next`, in this order. -/
abbrev Reachable (s : Shared) (nodes : List Addr) : Prop :=
  Linked.Reachable s.next NULL s.head.ptr nodes

/-- `a` is the last node of the list reachable from `Q->Head`. -/
abbrev LastNode (s : Shared) (a : Addr) : Prop := Linked.LastNode s.next NULL s.head.ptr a

/-- When the compare-and-swap of line 161 is going to succeed, it swaps the last node
of the list, and makes the new node the last one. -/
def LinksAtEnd (s : Shared) (t : Thread) : Prop :=
  ∀ v node tail next, t.pc = .enq (.link v node tail next) →
    (casNext s tail.ptr next ⟨node, next.count + 1⟩).2 = true →
      LastNode s tail.ptr ∧ LastNode (casNext s tail.ptr next ⟨node, next.count + 1⟩).1 node

/-- The values that were linked and not dequeued are those of the list, in order. -/
def NothingLost (tr : List (ℕ × Fifo.Event DataType)) (s : Shared) : Prop :=
  ∃ nodes, Reachable s nodes ∧
    (Fifo.appended tr).map Prod.snd = Fifo.removed tr ++ nodes.tail.map s.value

variable {g : Ghost} {s : Shared} {tr : List (ℕ × Fifo.Event DataType)} {cfg : Config}

theorem SharedInv.reachable (h : SharedInv g s) : Reachable s g.nodes := h.list.reachable

theorem SharedInv.linksAtEnd (h : SharedInv g s) {i : ℕ} {t : Thread}
    (hp : ThreadInv g s i t.pc) (hlive : ∀ a, t.held = some a → s.live a = true) :
    LinksAtEnd s t := by
  intro v node tail next hpc hcas
  have hl : s.live tail.ptr = true := hlive _ (by rw [Thread.held, hpc])
  rw [hpc] at hp
  have heq : (s.mem tail.ptr).next = next := by
    by_contra hne
    rw [casNext_of_ne hne] at hcas
    cases hcas
  obtain ⟨⟨⟨-, hown, -, hnn⟩, -, hnull, -, -, hlk⟩, -, -⟩ := hp
  have hlast : s.next tail.ptr = NULL := by rw [Shared.next, heq]; exact hnull
  have htm : tail.ptr ∈ g.nodes := hlk hl hlast ▸ h.tail_mem
  have hlist := h.link_list hown hnn htm hlast (next.count + 1)
  refine ⟨⟨_, h.reachable, h.list.getLast htm hlast⟩, g.nodes ++ [node], ?_, by simp⟩
  rw [casNext_of_eq heq]
  exact ⟨hlist.chain, hlist.null_notMem⟩

theorem SharedInv.nothingLost (h : SharedInv g s) (hg : Fifo.exec tr = some g.abs) :
    NothingLost tr s := by
  obtain ⟨pre, happ, hrem⟩ := Fifo.appended_eq hg
  refine ⟨g.nodes, h.reachable, ?_⟩
  rw [happ, hrem, List.map_append, ← h.list.vals_eq, List.map_map]
  rfl

/-- **The link is sound as long as no block is freed that an enqueue is about to compare and
swap**: the node it swaps is the last one, the new node becomes reachable, and no value is
lost. -/
theorem linkCas_sound (h : KeptRun tr cfg) (hb : Bounded cfg.shared) :
    (∀ i, LinksAtEnd cfg.shared (cfg.thread i)) ∧ NothingLost tr cfg.shared ∧
      ∀ p i q, tr = p ++ (i, .retEnq) :: q →
        ∃ u v, Fifo.visible i p = u ++ [.callEnq v, .append v] := by
  obtain ⟨-, hlive, g, -, hg, hi⟩ := h.run_inv hb
  exact ⟨fun i => hi.1.linksAtEnd (hi.2 i) (hlive i), hi.1.nothingLost hg,
    (Fifo.linearized_of_exec hg).retEnq⟩

/-- The value of a completed enqueue is linked behind another one. -/
theorem linkCas_sound_served : ∃ tr cfg, KeptRun tr cfg ∧ Bounded cfg.shared ∧
    Fifo.appended tr = [(1, 8), (0, 7)] ∧
      (∀ i, LinksAtEnd cfg.shared (cfg.thread i)) ∧ NothingLost tr cfg.shared := by
  obtain ⟨tr, cfg, hr, ht⟩ := exists_freshKeptRun 2 (show Block 16 by decide)
    (enqueueToLink 1 8 32 ⟨⟨5, 5⟩, 5⟩ ++ enqueueFromLink 1 ++
      enqueueToLink 0 7 48 ⟨⟨5, 5⟩, 5⟩ ++ enqueueFromLink 0)
    (by decide) (fun tr _ => decide (Fifo.appended tr = [(1, 8), (0, 7)])) (by decide)
  obtain ⟨hr, hb⟩ := hr.kept_bounded
  obtain ⟨hend, hlost, -⟩ := linkCas_sound hr hb
  exact ⟨tr, cfg, hr, hb, of_decide_eq_true ht, hend, hlost⟩

/-! ### A block that is handed out again -/

/-- Thread 0 stands before its swap of the dummy's `next`; thread 1 enqueues, and
dequeues, which frees the dummy; then thread 1 is given the same block again, with a
cleared `next`. -/
def reusedSteps : List (ℕ × Choice) :=
  enqueueToLink 0 7 32 ⟨⟨5, 5⟩, 5⟩ ++
    (enqueueToLink 1 8 48 ⟨⟨5, 5⟩, 5⟩ ++ enqueueFromLink 1 ++
      dequeueSteps 1 ⟨⟨9, 9⟩, 9⟩) ++
    [(1, .callEnq 9), (1, .go), (1, .alloc 16 ⟨⟨NULL, 0⟩, 0⟩)]

/-- Then both enqueues complete. -/
def lostSteps : List (ℕ × Choice) :=
  reusedSteps ++ enqueueFromLink 0 ++ [(1, .go), (1, .go)] ++
    readPair 1 ++ readPair 1 ++ readPair 1 ++ [(1, .go)] ++ enqueueFromLink 1

/-- The swap of thread 0 is going to succeed on the block 16, while the list is the
node 48 alone. -/
def swapsReused (cfg : Config) : Bool :=
  match (cfg.thread 0).pc with
  | .enq (.link _ node tail next) => decide ((cfg.shared.headChanges = 1 ∧
      cfg.shared.tailChanges = 1) ∧
      (casNext cfg.shared tail.ptr next ⟨node, next.count + 1⟩).2 = true ∧ tail.ptr = 16 ∧
      cfg.shared.head.ptr = 48 ∧ cfg.shared.next 48 = NULL)
  | _ => false

/-- Three values were linked and one was dequeued, but the list holds one value. -/
def lostOne (tr : List (ℕ × Fifo.Event DataType)) (cfg : Config) : Bool :=
  decide ((cfg.shared.headChanges = 1 ∧ cfg.shared.tailChanges = 2) ∧ (0, .retEnq) ∈ tr ∧
    Fifo.appended tr = [(1, 8), (0, 7), (1, 9)] ∧ Fifo.removed tr = [8] ∧
    cfg.shared.head.ptr = 48 ∧ cfg.shared.next 48 = 16 ∧ cfg.shared.next 16 = NULL)

/-- **A delayed enqueue links its node to a block that is not in the list any more**,
and its value is lost although it completes. -/
theorem linkCas_reused :
    (∃ tr cfg, AnyRun tr cfg ∧ Bounded cfg.shared ∧
      ∃ v node tail next, (cfg.thread 0).pc = .enq (.link v node tail next) ∧
        (casNext cfg.shared tail.ptr next ⟨node, next.count + 1⟩).2 = true ∧
          ¬ LastNode cfg.shared tail.ptr) ∧
    ∃ tr cfg, AnyRun tr cfg ∧ Bounded cfg.shared ∧ (0, .retEnq) ∈ tr ∧
      ¬ NothingLost tr cfg.shared := by
  constructor
  · obtain ⟨tr, cfg, hr, ht⟩ : ∃ tr cfg, AnyRun tr cfg ∧ swapsReused cfg = true :=
      Interleave.Program.exists_run_of_exec (fun _ _ _ _ => true) (fun _ _ _ _ _ => trivial)
        (newQueue_start 16 (by decide)) reusedSteps (fun _ => swapsReused) (by decide)
    unfold swapsReused at ht
    split at ht
    · next v node tail next hpc =>
      obtain ⟨⟨hh, htl⟩, hcas, htail, hhead, hnext⟩ := of_decide_eq_true ht
      refine ⟨tr, cfg, hr, ⟨by omega, by omega⟩, v, node, tail, next, hpc, hcas, ?_⟩
      rintro ⟨nodes, hnodes, hlast⟩
      have hone : Reachable cfg.shared [48] := ⟨⟨hhead, hnext⟩, by decide⟩
      rw [hnodes.unique hone, htail] at hlast
      exact absurd hlast (by decide)
    · cases ht
  · obtain ⟨tr, cfg, hr, ht⟩ : ∃ tr cfg, AnyRun tr cfg ∧ lostOne tr cfg = true :=
      Interleave.Program.exists_run_of_exec (fun _ _ _ _ => true) (fun _ _ _ _ _ => trivial)
        (newQueue_start 16 (by decide)) lostSteps lostOne (by decide)
    obtain ⟨⟨hh, htl⟩, hret, happ, hrem, hhead, hn1, hn2⟩ := of_decide_eq_true ht
    refine ⟨tr, cfg, hr, ⟨by omega, by omega⟩, hret, ?_⟩
    rintro ⟨nodes, hnodes, hvals⟩
    have htwo : Reachable cfg.shared [48, 16] := ⟨⟨hhead, hn1, hn2⟩, by decide⟩
    rw [hnodes.unique htwo, happ, hrem] at hvals
    exact absurd (congrArg List.length hvals) (by simp)

end Coremu.MsQueue

import Coremu.LockQueue.Linearizable

/-!
# The consumer frees no node that a producer writes

The consumer of `main/lock-queue.c` takes no lock, and frees the old dummy as soon as it
has a successor.  This may be the node `Q->Tail` points to: the holder of `t_lock` has
linked its own node behind it and has not moved `Tail` yet.  In this window `Tail` is
dangling, and the block may be handed out again, even to a producer that waits for the lock.

No harm is done.  The holder does not follow `Tail` any more, and by the time that another
producer has the lock `Tail` is the last node again, which the consumer does not free.

## Main definitions

* `Reachable`, `LastNode` — the nodes reachable from `Q->Head`, and the last of them.
* `Pc.locked`, `Pc.inWindow` — the program points under the lock and in the window.
* `Pc.touches`, `Pc.linksTo` — the node that is accessed next, and linked to.
* `TailSafe` — `Tail` is right wherever a producer relies on it.

## Main results

* `ThreadInv.touches_cases` — a node that is accessed is linked, owned or being freed.
* `Inv.linked_eq_false` — `Tail` lags only while a thread is in the window.
* `lockQueue_tail_safe` — **every state is safe, though the consumer may free what `Tail`
  points to.**
-/

namespace Coremu.LockQueue

/-- `nodes` are the nodes reachable from `Q->Head` by `next`, in this order. -/
abbrev Reachable (s : Shared) (nodes : List Addr) : Prop :=
  Linked.Reachable s.next NULL s.head nodes

/-- `a` is the last node of the list reachable from `Q->Head`. -/
abbrev LastNode (s : Shared) (a : Addr) : Prop := Linked.LastNode s.next NULL s.head a

/-- Program points between `coremu_spin_lock` and `coremu_spin_unlock`. -/
def Pc.locked : Pc → Bool
  | .enq p => p.holds
  | _ => false

/-- The program point between `Q->Tail->next = node;` and `Q->Tail = node;`. -/
def Pc.inWindow : Pc → Bool
  | .enq (.setTail _) => true
  | _ => false

/-- The node that `Q->Tail->next = node;` links to: the one `Q->Tail` points to, until it
has been read. -/
def Pc.linksTo (s : Shared) : Pc → Option Addr
  | .enq (.readTail _ _) => some s.tail
  | .enq (.link _ _ tail) => some tail
  | _ => none

/-- The node that a thread reads, writes or frees next. -/
def Pc.touches (s : Shared) : Pc → Option Addr
  | .enq (.setValue _ node) | .enq (.setNext _ node) => some node
  | .deq (.readNext node) | .deq (.free node _) => some node
  | .deq (.readValue _ newHead) => some newHead
  | p => p.linksTo s

/-- `Q->Tail` is right wherever a producer relies on it, and no thread accesses a node that
is not allocated or is being freed by another one. -/
structure TailSafe (cfg : Config) : Prop where
  /-- At most one thread is between `coremu_spin_lock` and `coremu_spin_unlock`. -/
  exclusive : ∀ i j, (cfg.thread i).locked = true → (cfg.thread j).locked = true → i = j
  /-- When `t_lock` is free, `Q->Tail` is the last node. -/
  unlocked : cfg.shared.tLock = 0 → LastNode cfg.shared cfg.shared.tail
  /-- It is the last node, and allocated, whenever no thread is in the window. -/
  outside : (∀ i, (cfg.thread i).inWindow = false) →
    cfg.shared.live cfg.shared.tail = true ∧ LastNode cfg.shared cfg.shared.tail
  /-- Who executes `Q->Tail->next = node;` writes to `Q->Tail`, which is allocated, the last
  node and without successor. -/
  link : ∀ i a, (cfg.thread i).linksTo cfg.shared = some a → a = cfg.shared.tail ∧
    cfg.shared.live a = true ∧ LastNode cfg.shared a ∧ cfg.shared.next a = NULL
  /-- Every node that is accessed is allocated. -/
  touched : ∀ i a, (cfg.thread i).touches cfg.shared = some a → cfg.shared.live a = true
  /-- Nobody else accesses the node that the consumer frees. -/
  freed : ∀ i j node v, cfg.thread i = .deq (.free node v) →
    (cfg.thread j).touches cfg.shared = some node → j = i

variable {c : ℕ} {g : Ghost} {s : Shared} {i : ℕ} {p : Pc} {a : Addr} {cfg : Config}
  {tr : List (ℕ × Fifo.Event DataType)}

/-! ### What the invariant says about `Tail` -/

theorem SharedInv.reachable (h : SharedInv g s) : Reachable s g.nodes := h.list.reachable

/-- Outside the window `Tail` is an allocated node at the end of the list. -/
theorem SharedInv.tail_last (h : SharedInv g s) (hlk : g.linked = false) :
    s.live s.tail = true ∧ LastNode s s.tail ∧ s.next s.tail = NULL := by
  have hlast := h.tail hlk
  exact ⟨(h.node _ (List.mem_of_mem_getLast? hlast)).2.1, ⟨g.nodes, h.reachable, hlast⟩,
    h.list.next_getLast hlast⟩

/-- Who is under the lock holds it. -/
theorem ThreadInv.holder_of_locked (hp : ThreadInv c g s i p) (hl : p.locked = true) :
    g.holder = some i := by
  cases p with
  | enq p => exact hp.2.1.mp hl
  | idle | deq _ => cases hl

/-- **Only a thread in the window keeps `Tail` from the end of the list.** -/
theorem Inv.linked_eq_false (h : Inv c g cfg) (hw : ∀ i, (cfg.thread i).inWindow = false) :
    g.linked = false := by
  cases hh : g.holder with
  | none => exact (h.1.free hh).1
  | some i =>
    have hp := h.2 i
    have hwi := hw i
    generalize cfg.thread i = p at hp hwi
    cases p with
    | idle => exact absurd hh hp.2.1
    | deq p => exact absurd hh hp.2.1
    | enq p =>
      obtain ⟨he, hhold, -⟩ := hp
      have hl := hhold.mpr hh
      cases p with
      | readTail v node => exact he.2.2.1
      | link v node tail => exact he.2.2.1
      | setTail node => cases hwi
      | incCount | spinUnlock => exact he.2.1
      | _ => cases hl

/-- Who is about to link its node has not done so. -/
theorem ThreadInv.linksTo_eq (hp : ThreadInv c g s i p) (ha : p.linksTo s = some a) :
    a = s.tail ∧ g.linked = false := by
  cases p with
  | enq p =>
    obtain ⟨he, -, -⟩ := hp
    cases p with
    | readTail v node =>
      cases ha
      exact ⟨rfl, he.2.2.1⟩
    | link v node tail =>
      cases ha
      exact ⟨he.2.2.2.2, he.2.2.1⟩
    | _ => cases ha
  | idle | deq _ => cases ha

/-- **A node that is accessed is in the list, owned by the thread or being freed by it.** -/
theorem ThreadInv.touches_cases (h : SharedInv g s) (hp : ThreadInv c g s i p)
    (ha : p.touches s = some a) :
    a ∈ g.nodes ∨ g.owner a = some i ∨ ∃ v, p = .deq (.free a v) := by
  cases p with
  | idle => cases ha
  | enq p =>
    cases p with
    | setValue v node | setNext v node =>
      cases ha
      exact .inr (.inl hp.1.2.1)
    | readTail v node | link v node tail =>
      obtain ⟨rfl, hlk⟩ := hp.linksTo_eq ha
      exact .inl (List.mem_of_mem_getLast? (h.tail hlk))
    | _ => cases ha
  | deq p =>
    cases p with
    | readNext node =>
      cases ha
      obtain ⟨⟨-, rfl⟩, -⟩ := hp
      exact .inl h.list.head_mem
    | readValue node newHead =>
      cases ha
      obtain ⟨⟨-, l, hl⟩, -⟩ := hp
      exact .inl (by rw [hl]; simp)
    | free node v =>
      cases ha
      exact .inr (.inr ⟨v, rfl⟩)
    | _ => cases ha

theorem ThreadInv.touches_live (h : SharedInv g s) (hp : ThreadInv c g s i p)
    (ha : p.touches s = some a) : s.live a = true := by
  rcases hp.touches_cases h ha with hm | ho | ⟨v, rfl⟩
  · exact (h.node a hm).2.1
  · exact (h.owned a i ho).2
  · exact hp.1.2.1

/-! ### Every state is safe -/

theorem Inv.tailSafe (h : Inv c g cfg) : TailSafe cfg where
  exclusive i j hi hj := by
    have hhi := (h.2 i).holder_of_locked hi
    have hhj := (h.2 j).holder_of_locked hj
    exact Option.some.inj (hhi.symm.trans hhj)
  unlocked hl := (h.1.tail_last (h.1.free (h.1.holder_none hl)).1).2.1
  outside hw := by
    obtain ⟨hlive, hlast, -⟩ := h.1.tail_last (h.linked_eq_false hw)
    exact ⟨hlive, hlast⟩
  link i a ha := by
    obtain ⟨rfl, hlk⟩ := (h.2 i).linksTo_eq ha
    exact ⟨rfl, h.1.tail_last hlk⟩
  touched i a ha := (h.2 i).touches_live h.1 ha
  freed i j node v hi ha := by
    have hp := h.2 i
    rw [hi] at hp
    obtain ⟨⟨-, -, hnn, hown⟩, -, hic, -⟩ := hp
    -- the freed node is neither linked nor owned, so `j` is freeing it, too
    rcases (h.2 j).touches_cases h.1 ha with hm | ho | ⟨w, hj⟩
    · exact absurd hm hnn
    · rw [hown] at ho
      cases ho
    · have hq := h.2 j
      rw [hj] at hq
      exact hq.2.2.1.trans hic.symm

/-- Thread 0 links its node behind the dummy and stops; thread 1 dequeues the value, up to
`coremu_free`. -/
def overtakingSteps : List (ℕ × Choice) :=
  [(0, .callEnq 7), (0, .alloc 32)] ++ List.replicate 5 (0, .go) ++
    (1, .callDeq) :: List.replicate 4 (1, .go)

/-- Thread 1 is about to free the node that `Q->Tail` points to, and thread 0 is in the
window. -/
def freesTail (cfg : Config) : Bool :=
  match cfg.thread 0, cfg.thread 1 with
  | .enq (.setTail _), .deq (.free node _) => decide (node = cfg.shared.tail)
  | _, _ => false

/-- **`Tail` is safe in every run**, for every number of producers, one consumer, every
interleaving and any reuse of freed blocks.  And yet in some run, with a producer between
`Q->Tail->next = node;` and `Q->Tail = node;`, the consumer frees the node that `Q->Tail`
points to, and leaves `Q->Tail` dangling. -/
theorem lockQueue_tail_safe :
    (∀ c tr cfg, Run c tr cfg → TailSafe cfg) ∧
    ∃ c tr cfg i node v, Run c tr cfg ∧ cfg.thread i = .enq (.setTail node) ∧
      cfg.thread c = .deq (.free cfg.shared.tail v) ∧
      ∀ n, ∃ s' p' e, step cfg.shared (cfg.thread c) (.free n) = some (s', p', e) ∧
        s'.tail = cfg.shared.tail ∧ s'.live s'.tail = false := by
  constructor
  · intro c tr cfg h
    obtain ⟨g, -, hi⟩ := h.inv
    exact hi.tailSafe
  · obtain ⟨tr, cfg, hr, ht⟩ : ∃ tr cfg, Run 1 tr cfg ∧ freesTail cfg = true :=
      Interleave.Program.exists_run_of_exec
        (fun tr cfg i x => decide (OneConsumer 1 tr cfg i x))
        (fun _ _ _ _ => of_decide_eq_true) (c := start 16) ⟨_, 16, by decide, rfl⟩
        overtakingSteps (fun _ => freesTail) (by decide)
    unfold freesTail at ht
    split at ht
    · next node b v hzero hone =>
      obtain rfl := of_decide_eq_true ht
      refine ⟨1, tr, cfg, 0, node, v, hr, hzero, hone, fun n => ?_⟩
      rw [hone]
      exact ⟨_, _, _, rfl, rfl, Function.update_self _ _ _⟩
    · cases ht

/-- Then the consumer frees the node, and thread 2 is given the block while `Q->Tail`
still points to it. -/
def reusingSteps : List (ℕ × Choice) :=
  overtakingSteps ++ [(1, .free ⟨5, 5⟩), (2, .callEnq 8), (2, .alloc 16)]

/-- Then thread 0 returns, and thread 2 has the lock and is about to link its node. -/
def relinkingSteps : List (ℕ × Choice) :=
  reusingSteps ++ List.replicate 4 (0, .go) ++ List.replicate 4 (2, .go)

/-- Another producer writes to the block that `Q->Tail` points to, but as to a node of its
own; when it has the lock, `Q->Tail` is the last node. -/
theorem lockQueue_tail_safe_reused :
    (∃ tr cfg, Run 1 tr cfg ∧ (cfg.thread 0).inWindow = true ∧ cfg.shared.tail = 16 ∧
      (cfg.thread 2).touches cfg.shared = some 16 ∧ TailSafe cfg) ∧
    ∃ tr cfg, Run 1 tr cfg ∧ (cfg.thread 2).linksTo cfg.shared = some 32 ∧
      cfg.shared.live 32 = true ∧ LastNode cfg.shared 32 := by
  constructor
  · obtain ⟨tr, cfg, hr, ht⟩ : ∃ tr cfg, Run 1 tr cfg ∧
        decide ((cfg.thread 0).inWindow = true ∧ cfg.shared.tail = 16 ∧
          (cfg.thread 2).touches cfg.shared = some 16) = true :=
      Interleave.Program.exists_run_of_exec
        (fun tr cfg i x => decide (OneConsumer 1 tr cfg i x))
        (fun _ _ _ _ => of_decide_eq_true) (c := start 16) ⟨_, 16, by decide, rfl⟩
        reusingSteps (fun _ cfg => decide ((cfg.thread 0).inWindow = true ∧
          cfg.shared.tail = 16 ∧ (cfg.thread 2).touches cfg.shared = some 16)) (by decide)
    obtain ⟨hwin, htail, htouch⟩ := of_decide_eq_true ht
    exact ⟨tr, cfg, hr, hwin, htail, htouch, lockQueue_tail_safe.1 1 tr cfg hr⟩
  · obtain ⟨tr, cfg, hr, ht⟩ : ∃ tr cfg, Run 1 tr cfg ∧
        decide ((cfg.thread 2).linksTo cfg.shared = some 32) = true :=
      Interleave.Program.exists_run_of_exec
        (fun tr cfg i x => decide (OneConsumer 1 tr cfg i x))
        (fun _ _ _ _ => of_decide_eq_true) (c := start 16) ⟨_, 16, by decide, rfl⟩
        relinkingSteps (fun _ cfg => decide ((cfg.thread 2).linksTo cfg.shared = some 32))
        (by decide)
    have hlink := of_decide_eq_true ht
    obtain ⟨-, hlive, hlast, -⟩ := (lockQueue_tail_safe.1 1 tr cfg hr).link 2 32 hlink
    exact ⟨tr, cfg, hr, hlink, hlive, hlast⟩

end Coremu.LockQueue

import Coremu.MsQueue.LinkCas

/-!
# `Tail` never falls behind `Head`

`Tail` is moved by three compare-and-swaps in two functions, each of which may come late,
and a dequeue that moves `Head` only compares it with a copy of `Tail` it made before.  The
order of its reads makes up for this: `Tail` is read after `Head`.  If they are two nodes
and `Head` is still the same at the test of line 188, then `Tail` had left the dummy when it
was read, and it does not come back.  So `Tail` is always a node of the list, at most one
behind the last.

It follows that no operation follows `NULL`, and more: every block that is accessed was
handed out by the allocator.  It may have been freed since.

## Main definitions

* `LastOrBefore` — the last node of a list, or the one before it.
* `Issued` — the block was handed out by the allocator.
* `Pc.touches` — the node that a thread accesses next.
* `Pc.Valid` — the pointers that a thread has read and will follow.

## Main results

* `SharedInv.tail_lastOrBefore` — where `Tail` is.
* `Pc.Valid.step`, `Run.valid` — a step, and a run, only follows blocks that were handed out.
* `tail_not_behind` — **`Tail` is the last or the last but one node, no dequeue reads a
  value through `NULL`, and no node is freed that `Head` or `Tail` points to.**
-/

namespace Coremu.MsQueue

variable {g : Ghost} {s s' : Shared} {t t' : Thread} {p : Pc} {x : Choice}
  {e : Fifo.Event DataType} {i : ℕ} {a : Addr} {tr : List (ℕ × Fifo.Event DataType)}
  {cfg : Config}

/-! ### Where `Tail` is -/

/-- `a` is the last node of the list, or the one before it. -/
def LastOrBefore (nodes : List Addr) (a : Addr) : Prop :=
  ∃ m, nodes = m ++ [a] ∨ ∃ b, nodes = m ++ [a, b]

theorem SharedInv.tail_lastOrBefore (h : SharedInv g s) : LastOrBefore g.nodes s.tail.ptr := by
  by_cases hn : s.next s.tail.ptr = NULL
  · obtain ⟨m, hm⟩ := h.list.chain.eq_last h.list.null_notMem h.tail_mem hn
    exact ⟨m, .inl hm⟩
  · obtain ⟨m, hm⟩ := h.list.chain.eq_last_two h.list.nodup h.list.null_notMem h.tail_mem hn
      (h.tail_last hn)
    exact ⟨m, .inr ⟨_, hm⟩⟩

/-! ### What is followed -/

/-- The block was handed out by the allocator at some time. -/
def Issued (s : Shared) (a : Addr) : Prop := Block a ∧ s.used a = true

/-- The node that the thread reads, writes or frees next. -/
def Pc.touches : Pc → Option Addr
  | .enq (.setValue _ node) | .enq (.setNext _ node) => some node
  | .enq (.readNext _ _ tail) | .enq (.restNext _ _ tail _) | .enq (.link _ _ tail _) =>
      some tail.ptr
  | .deq (.readNext head _) | .deq (.restNext head _ _) | .deq (.free head _) => some head.ptr
  | .deq (.readValue _ next) => some next.ptr
  | _ => none

/-- The pointers that a thread holds and is going to follow were handed out. -/
def Pc.Valid (s : Shared) : Pc → Prop
  | .enq (.setValue _ node) | .enq (.setNext _ node) => Issued s node
  | .enq (.restTail _ _ r) | .deq (.restHead r) => r.PtrIs (Issued s)
  | .enq (.readNext _ _ tail) | .enq (.restNext _ _ tail _) | .enq (.readCur _ _ tail _)
  | .enq (.restCur _ _ tail _ _) | .enq (.cmp128 _ _ tail _ _) | .enq (.link _ _ tail _) =>
      Issued s tail.ptr
  | .deq (.readTail head) | .deq (.restTail head _) | .deq (.readNext head _)
  | .deq (.restNext head _ _) | .deq (.readCur head _ _) | .deq (.restCur head _ _ _)
  | .deq (.cmp128 head _ _ _) | .deq (.swing head _ _) | .deq (.free head _) =>
      Issued s head.ptr
  | .deq (.readValue head next) => Issued s head.ptr ∧ Issued s next.ptr
  | _ => True

theorem SharedInv.issued (h : SharedInv g s) (ha : a ∈ g.nodes) : Issued s a := by
  obtain ⟨hb, hlive, -⟩ := h.node a ha
  exact ⟨hb, h.used a hlive⟩

theorem Issued.mono (h : Issued s a) (hu : ∀ b, s.used b = true → s'.used b = true) :
    Issued s' a :=
  ⟨h.1, hu a h.2⟩

theorem Pc.Valid.touches (h : p.Valid s) (ha : p.touches = some a) : Issued s a := by
  cases p with
  | idle => cases ha
  | enq p => cases p <;> cases ha <;> exact h
  | deq p =>
    cases p with
    | readValue head next =>
      cases ha
      exact h.2
    | _ => cases ha <;> exact h

/-- What was handed out stays so. -/
theorem Pc.Valid.mono (h : p.Valid s) (hu : ∀ b, s.used b = true → s'.used b = true) :
    p.Valid s' := by
  cases p with
  | idle => trivial
  | enq p =>
    cases p with
    | restTail v node r => exact h.imp fun _ ha => ha.mono hu
    | setValue | setNext | readNext | restNext | readCur | restCur | cmp128 | link =>
      exact Issued.mono h hu
    | _ => trivial
  | deq p =>
    cases p with
    | restHead r => exact h.imp fun _ ha => ha.mono hu
    | readValue head next => exact ⟨h.1.mono hu, h.2.mono hu⟩
    | readTail | restTail | readNext | restNext | readCur | restCur | cmp128 | swing | free =>
      exact Issued.mono h hu
    | _ => trivial

theorem used_step (hst : Step s t p x s' t' e) (hb : s.used a = true) : s'.used a = true := by
  cases hst with
  | newNode v b n =>
    by_cases hab : a = b
    · exact hab ▸ Function.update_self _ _ _
    · exact (Function.update_of_ne hab _ _).trans hb
  | _ => exact hb

/-- **A step of its own** keeps the pointers of a thread valid: what it reads in `Head` and
`Tail` are nodes of the list, and what it reads as the first node is one when it passes the
test of line 188. -/
theorem Pc.Valid.step (h : p.Valid s) (hi : SharedInv g s) (hp : ThreadInv g s i p)
    (hst : Step s t p x s' t' e) : t'.pc.Valid s' := by
  cases hst with
  | newNode v b n hb => exact ⟨hb, Function.update_self _ _ _⟩
  | enqReadTail v node r => exact Half.read_ptrIs (hi.issued hi.tail_mem) r
  | enqRestTail v node r => exact Torn.rest_ptr (hi.issued hi.tail_mem) h
  | readHead r => exact Half.read_ptrIs (hi.issued hi.list.head_mem) r
  | restHead r => exact Torn.rest_ptr (hi.issued hi.list.head_mem) h
  | deqFront head tail next cur heq hht =>
    obtain ⟨-, -, -, -, hfront, -⟩ := hp.op
    obtain ⟨-, hor, hne⟩ := hfront heq
    subst heq
    have hnull := hne (Ne.symm hht)
    have hnext := hor.resolve_left hnull
    refine ⟨h, hi.issued ?_⟩
    rw [hnext] at hnull ⊢
    exact hi.list.next_mem hi.list.head_mem hnull
  | readValue head next => exact h.1
  | setValue | enqReadNext | enqRestNext | enqReadCur | enqRestCur | enqLast | deqReadTail
  | deqRestTail | deqReadNext | deqRestNext | deqReadCur | deqRestCur | pop => exact h
  | _ => trivial

/-- **In every state of every run the pointers of every thread are valid.** -/
theorem Run.valid (h : Run tr cfg) (hb : Bounded cfg.shared) (j : ℕ) :
    (cfg.thread j).pc.Valid cfg.shared := by
  induction h generalizing j with
  | nil hc =>
    obtain ⟨mem, node, -, -, hth⟩ := hc
    rw [hth j]
    trivial
  | @snoc tr cfg i x s' t' e hr hx hs ih =>
    have hb' : Bounded cfg.shared := Bounded.before hs hb
    obtain ⟨g, -, hi⟩ := Run.inv hr hb'
    have hst := step_cases hs
    by_cases hj : j = i
    · subst hj
      rw [Interleave.Config.after_thread_self]
      exact (ih hb' j).step hi.1 (hi.2 j) hst
    · rw [Interleave.Config.after_thread_of_ne _ _ _ hj]
      exact (ih hb' j).mono fun b => used_step hst

/-- **No operation accesses a node that was not handed out**, so none follows `NULL`. -/
theorem Run.touches_issued (h : Run tr cfg) (hb : Bounded cfg.shared)
    (ha : (cfg.thread i).pc.touches = some a) : Issued cfg.shared a :=
  (h.valid hb i).touches ha

/-! ### `Head` and `Tail` -/

/-- **`Tail` never falls behind `Head`.**  In every run in which no block is handed out
twice, `Q->Tail` is the last or the last but one of the nodes reachable from `Q->Head`; a
dequeue that has come to line 201 has a node to read the value from; and what is freed is
not the node that `Q->Head` or `Q->Tail` points to. -/
theorem tail_not_behind (h : FreshRun tr cfg) :
    (∃ nodes, Reachable cfg.shared nodes ∧ LastOrBefore nodes cfg.shared.tail.ptr) ∧
    (∀ i head next, (cfg.thread i).pc = .deq (.readValue head next) → next.ptr ≠ NULL) ∧
    (∀ i head v, (cfg.thread i).pc = .deq (.free head v) →
      head.ptr ≠ cfg.shared.head.ptr ∧ head.ptr ≠ cfg.shared.tail.ptr) ∧
    cfg.shared.live cfg.shared.head.ptr = true ∧ cfg.shared.live cfg.shared.tail.ptr = true := by
  obtain ⟨g, -, hi⟩ := h.inv
  obtain ⟨hrun, hb⟩ := h.run_bounded
  have hhead := hi.1.list.head_mem
  have htail := hi.1.tail_mem
  refine ⟨⟨g.nodes, hi.1.reachable, hi.1.tail_lastOrBefore⟩, fun i head next hpc => ?_,
    fun i head v hpc => ?_, (hi.1.node _ hhead).2.1, (hi.1.node _ htail).2.1⟩
  · have hissued : Issued cfg.shared next.ptr := hrun.touches_issued hb (by rw [hpc]; rfl)
    exact hissued.1.1
  · have hop := (hi.2 i).op
    rw [hpc] at hop
    have hout := hi.1.notMem_of_retired hop.2
    exact ⟨fun heq => hout (heq ▸ hhead), fun heq => hout (heq ▸ htail)⟩

/-- Thread 0 enqueues two values.  Thread 2 dequeues one, up to `ms_free`; thread 0 links a
third value and does not move `Tail`; thread 1 dequeues, up to line 201. -/
def laggingSteps : List (ℕ × Choice) :=
  enqueueToLink 0 7 32 ⟨⟨5, 5⟩, 5⟩ ++ enqueueFromLink 0 ++
    enqueueToLink 0 8 48 ⟨⟨5, 5⟩, 5⟩ ++ enqueueFromLink 0 ++
    (dequeueSteps 2 ⟨⟨9, 9⟩, 9⟩).take 13 ++ enqueueToLink 0 9 64 ⟨⟨5, 5⟩, 5⟩ ++ [(0, .go)] ++
    (dequeueSteps 1 ⟨⟨9, 9⟩, 9⟩).take 11

/-- `Tail` is not the last node, thread 1 is at line 201 and thread 2 at `ms_free`. -/
def lagging (cfg : Config) : Bool :=
  decide (cfg.shared.next cfg.shared.tail.ptr ≠ NULL) &&
    match (cfg.thread 1).pc, (cfg.thread 2).pc with
    | .deq (.readValue _ _), .deq (.free _ _) => true
    | _, _ => false

/-- While `Tail` is one behind, a dequeue reads its value and another one frees its node. -/
theorem tail_not_behind_lagging : ∃ tr cfg, FreshRun tr cfg ∧
    cfg.shared.next cfg.shared.tail.ptr ≠ NULL ∧
    (∃ nodes, Reachable cfg.shared nodes ∧ LastOrBefore nodes cfg.shared.tail.ptr) ∧
    (∃ head next, (cfg.thread 1).pc = .deq (.readValue head next) ∧ next.ptr ≠ NULL) ∧
    ∃ head v, (cfg.thread 2).pc = .deq (.free head v) ∧ head.ptr ≠ cfg.shared.head.ptr ∧
      head.ptr ≠ cfg.shared.tail.ptr := by
  obtain ⟨tr, cfg, hr, ht⟩ : ∃ tr cfg, FreshRun tr cfg ∧ lagging cfg = true :=
    Interleave.Program.exists_run_of_exec (fun tr cfg i x => decide (NoReuse tr cfg i x))
      (fun _ _ _ _ => of_decide_eq_true) (newQueue_start 16 (by decide)) laggingSteps
      (fun _ => lagging) (by decide)
  obtain ⟨hlag, hpcs⟩ := Bool.and_eq_true_iff.mp ht
  obtain ⟨hlist, hread, hfree, -⟩ := tail_not_behind hr
  split at hpcs
  · next head next old v hone htwo =>
    exact ⟨tr, cfg, hr, of_decide_eq_true hlag, hlist, ⟨head, next, hone, hread 1 _ _ hone⟩,
      old, v, htwo, hfree 2 _ _ htwo⟩
  · cases hpcs

end Coremu.MsQueue

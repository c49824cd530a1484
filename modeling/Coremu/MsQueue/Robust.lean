import Coremu.MsQueue.Linearizable
import Coremu.MsQueue.Unbuffered

/-!
# Store buffers of the lock-free queue do not show

Every step of the queue with store buffers is matched by at most one without them, so every run
shows what some run without buffers shows: the queue is also a linearizable FIFO on x86, as long as
no block is handed out that an operation in progress is going to read, and none is freed that an
enqueue is about to compare and swap.

## Main results

* `Unbuffered.step` — **a step is matched by at most one without buffers.**
* `msQueue_tso_refines` — **every run shows what a run without buffers shows.**
* `msQueue_tso_fifo` — **the queue is a linearizable FIFO with store buffers**, if no block is
  freed that an enqueue is about to compare and swap.
-/

namespace Coremu.MsQueue

variable {m : BufferedConfig} {k : Config} {g : Ghost} {i : ℕ} {s s' z : Shared} {t : Thread}
variable {x : Choice} {e : Fifo.Event DataType} {tr : List (ℕ × Fifo.Event DataType)}
variable {A : Config → ℕ → Choice → Prop}

/-! ### Every access is matched -/

theorem step_enq {p : EnqPc} (hp : t.pc = .enq p) : step s t x = enqueue s t p x := by
  simp only [step, hp]

theorem step_deq {p : DeqPc} (hp : t.pc = .deq p) : step s t x = dequeue s t p x := by
  simp only [step, hp]

/-- `CAS(&Q->Tail, old, new)` does the same without buffers. -/
theorem Unbuffered.casTail (h : Unbuffered m k) (old new : Pointer) :
    casTail k.shared old new =
      ({ (casTail m.shared old new).1 with mem := k.shared.mem },
        (casTail m.shared old new).2) := by
  rw [h.words]
  rfl

/-- `CAS(&Q->Head, old, new)` does the same without buffers. -/
theorem Unbuffered.casHead (h : Unbuffered m k) (old new : Pointer) :
    casHead k.shared old new =
      ({ (casHead m.shared old new).1 with mem := k.shared.mem },
        (casHead m.shared old new).2) := by
  rw [h.words]
  rfl

/-- **An access of `enqueue` is matched.** -/
theorem Unbuffered.enqueue (h : Unbuffered m k) (hk : Inv g k) (hap : NodesApart k)
    (hx : A k i x) {p : EnqPc} {r : Effect} (hp : (m.thread i).pc.pc = .enq p)
    (hf : (Pc.enq p).fences = true → (m.thread i).buffer = [])
    (hr : enqueueAccess m.shared (m.view i) (m.thread i).pc p x = some r) : Matched A k i r.event
      (m.after i r.shared ⟨r.thread, (m.thread i).buffer ++ r.stores⟩) := by
  have hpend := h.pending i
  have hmem := fun a => h.view_mem (a := a) (i := i) hap
  have htail := (h.view_words (i := i)).2
  have hun : (m.thread i).pc.pc.unlinked = (Pc.enq p).unlinked := by rw [hp]
  rw [hp] at hpend hmem
  cases p with
  | sigmaskBlk v | sigmaskRes | ret =>
    cases x <;> cases hr
    rw [List.append_nil]
    exact h.silent hx (step_enq hp) hun.symm hpend
  | newNode v =>
    cases x with
    | alloc a n =>
      obtain ⟨⟨hb, ha⟩, hr⟩ := Option.ite_none_right_eq_some.mp hr
      cases hr
      have ha' : k.shared.live a = false := by
        rw [h.words]
        exact ha
      rw [List.append_nil]
      refine h.take hk hx ((step_enq hp).trans (if_pos ⟨hb, ha'⟩)) hpend hun rfl ?_ ?_ ?_ ?_ ?_
      · exact (hk.1.free_block ha').2.1
      · exact fun d hd => Function.update_of_ne hd _ _
      · exact fun d hd => Function.update_of_ne hd _ _
      · simp [Shared.write]
      · rw [h.words]
        rfl
    | _ => cases hr
  | setValue v node =>
    cases x <;> cases hr
    refine h.issue hk hx (step_enq hp) hun rfl rfl ?_
    rw [hpend]
    exact List.suffix_refl _
  | setNext v node =>
    cases x <;> cases hr
    refine h.issue hk hx (step_enq hp) hun rfl rfl ?_
    have hsuf : (m.thread i).buffer ++ [.next node] <:+ [.value node v] ++ [.next node] :=
      List.suffix_append_self_iff.mpr hpend
    exact hsuf
  | readTail v node | restTail v node r | readCur v node tail next | restCur v node tail next r =>
    cases x <;> cases hr
    rw [List.append_nil, htail]
    exact h.silent hx (step_enq hp) hun.symm hpend
  | readNext v node tail | restNext v node tail r =>
    cases x <;> cases hr
    rw [List.append_nil, hmem _ (List.mem_singleton_self _)]
    exact h.silent hx (step_enq hp) hun.symm hpend
  | cmp128 v node tail next cur =>
    cases x <;> cases hr
    have hcas := h.casTail tail cur
    rw [List.append_nil]
    refine h.setWords hx ((step_enq hp).trans ?_) rfl (congrArg Prod.fst hcas) ?_ ?_
    · simp only [MsQueue.enqueue, hcas]
    · split
      · split <;> exact hun.symm
      · exact hun.symm
    · rw [hf rfl]
      exact .nil _
  | link v node tail next =>
    cases x with
    | go =>
      have hb := hf rfl
      have hm : m.shared.mem tail.ptr = k.shared.mem tail.ptr := by
        have hv := hmem tail.ptr (List.mem_singleton_self _)
        rwa [BufferedConfig.view, hb] at hv
      simp only [enqueueAccess] at hr
      by_cases heq : (k.shared.mem tail.ptr).next = next
      · rw [casNext_of_eq (hm ▸ heq)] at hr
        cases hr
        rw [List.append_nil, hm]
        have hst : MsQueue.step k.shared (m.thread i).pc .go = some (k.shared.write tail.ptr
            { k.shared.mem tail.ptr with next := ⟨node, next.count + 1⟩ },
            (m.thread i).pc.goto (.enq (.swing node tail)), .append v) := by
          rw [step_enq hp]
          simp only [MsQueue.enqueue, casNext_of_eq heq, if_true]
        refine h.write hx hst hb (fun j hj => ?_) rfl rfl ?_
        · -- the block it swaps is one that it has read
          rw [← h.thread] at hj hp
          exact hap j i tail.ptr hj (hp ▸ List.mem_singleton_self _)
        · rw [h.words]
          rfl
      · rw [casNext_of_ne (hm ▸ heq)] at hr
        cases hr
        rw [List.append_nil]
        refine h.silent hx ((step_enq hp).trans ?_) hun.symm ?_
        · simp only [MsQueue.enqueue, casNext_of_ne heq, Bool.false_eq_true, if_false]
        · rw [hb]
          exact .nil _
    | _ => cases hr
  | advance v node tail next =>
    cases x <;> cases hr
    have hcas := h.casTail tail ⟨next.ptr, tail.count + 1⟩
    rw [List.append_nil]
    refine h.setWords hx ((step_enq hp).trans ?_) rfl (congrArg Prod.fst hcas) hun.symm ?_
    · simp only [MsQueue.enqueue]
    · rw [hf rfl]
      exact .nil _
  | swing node tail =>
    cases x <;> cases hr
    have hcas := h.casTail tail ⟨node, tail.count + 1⟩
    rw [List.append_nil]
    exact h.setWords hx (step_enq hp) rfl (congrArg Prod.fst hcas) hun.symm hpend
  | incCount =>
    cases x <;> cases hr
    rw [List.append_nil]
    exact h.setWords hx (step_enq hp) rfl (by rw [h.words]) hun.symm hpend

/-- **An access of `dequeue` is matched.** -/
theorem Unbuffered.dequeue (h : Unbuffered m k) (hk : Inv g k) (hap : NodesApart k)
    (hx : A k i x) {p : DeqPc} {r : Effect} (hp : (m.thread i).pc.pc = .deq p)
    (hr : dequeueAccess m.shared (m.view i) (m.thread i).pc p x = some r) : Matched A k i r.event
      (m.after i r.shared ⟨r.thread, (m.thread i).buffer ++ r.stores⟩) := by
  have hpend := h.pending i
  have hmem := fun a => h.view_mem (a := a) (i := i) hap
  have ⟨hhead, htail⟩ := h.view_words (i := i)
  have hun : (m.thread i).pc.pc.unlinked = none := by rw [hp]; rfl
  rw [hp] at hpend hmem
  -- a dequeue issues no stores, and its buffer is empty
  have hpend' : (m.thread i).buffer = [] := hpend
  cases p with
  | sigmaskBlk | sigmaskRes v | ret r =>
    cases x <;> cases hr
    rw [List.append_nil]
    exact h.silent hx (step_deq hp) hun.symm hpend
  | readHead | restHead r | readCur head tail next | restCur head tail next r =>
    cases x <;> cases hr
    rw [List.append_nil, hhead]
    exact h.silent hx (step_deq hp) hun.symm hpend
  | readTail head | restTail head r =>
    cases x <;> cases hr
    rw [List.append_nil, htail]
    exact h.silent hx (step_deq hp) hun.symm hpend
  | readNext head tail | restNext head tail r | readValue head next =>
    cases x <;> cases hr
    rw [List.append_nil, hmem _ (List.mem_singleton_self _)]
    exact h.silent hx (step_deq hp) hun.symm hpend
  | cmp128 head tail next cur =>
    cases x <;> cases hr
    have hcas := h.casHead head cur
    rw [List.append_nil]
    refine h.setWords hx ((step_deq hp).trans ?_) rfl (congrArg Prod.fst hcas) ?_ ?_
    · simp only [MsQueue.dequeue, hcas]
    · split
      · split
        · split <;> exact hun.symm
        · exact hun.symm
      · exact hun.symm
    · rw [hpend']
      exact .nil _
  | advance tail next =>
    cases x <;> cases hr
    have hcas := h.casTail tail ⟨next.ptr, tail.count + 1⟩
    rw [List.append_nil]
    exact h.setWords hx (step_deq hp) rfl (congrArg Prod.fst hcas) hun.symm hpend
  | swing head next v =>
    cases x with
    | go =>
      have hcas := h.casHead head ⟨next.ptr, head.count + 1⟩
      have hdeq : MsQueue.dequeue k.shared (m.thread i).pc (.swing head next v) .go =
          if (MsQueue.casHead m.shared head ⟨next.ptr, head.count + 1⟩).2 then
            some ((MsQueue.casHead k.shared head ⟨next.ptr, head.count + 1⟩).1,
              (m.thread i).pc.goto (.deq (.free head v)), .remove v)
          else
            some ((MsQueue.casHead k.shared head ⟨next.ptr, head.count + 1⟩).1,
              (m.thread i).pc.goto (.deq .readHead), .tau) := by
        simp only [MsQueue.dequeue, hcas]
      simp only [dequeueAccess] at hr
      split at hr
      · next hc =>
        cases hr
        rw [if_pos hc] at hdeq
        rw [List.append_nil]
        exact h.setWords hx ((step_deq hp).trans hdeq) rfl (congrArg Prod.fst hcas) hun.symm hpend
      · next hc =>
        cases hr
        rw [if_neg hc] at hdeq
        rw [List.append_nil]
        exact h.setWords hx ((step_deq hp).trans hdeq) rfl (congrArg Prod.fst hcas) hun.symm hpend
    | _ => cases hr
  | free head v =>
    cases x <;> cases hr
    rw [List.append_nil]
    refine h.write hx (step_deq hp) hpend' (fun j hj => ?_) rfl rfl (by rw [h.words]; rfl)
    -- the block was taken out of the list, so it is nobody's new node
    have hret := (hk.2 i).op
    rw [h.thread i, hp] at hret
    have hnone := (hk.1.owned _ j (h.owner hk hj)).2.2
    rw [hret.2] at hnone
    cases hnone
  | decCount v =>
    cases x <;> cases hr
    rw [List.append_nil]
    exact h.setWords hx (step_deq hp) rfl (by rw [h.words]) hun.symm hpend

/-- **Every step is matched by at most one without buffers.** -/
theorem Unbuffered.step (h : Unbuffered m k) (hk : Inv g k) (hap : NodesApart k)
    {y : Option Choice} {t : Tso.Thread Thread Store} (hx : ∀ x, y = some x → A k i x)
    (hst : code.buffered.step i m.shared (m.thread i) y = some (s, t, e)) :
    Matched A k i e (m.after i s t) := by
  rcases Tso.Code.buffered_cases hst with
    ⟨x, r, rfl, hf, hr, rfl, rfl, rfl⟩ | ⟨w, b, rfl, hb, rfl, rfl, rfl⟩
  · have hx' : A k i x := hx x rfl
    have hr : access m.shared (m.view i) (m.thread i).pc x = some r := hr
    cases hp : (m.thread i).pc.pc with
    | idle =>
      simp only [access, hp] at hr
      have hun : (m.thread i).pc.pc.unlinked = none := by rw [hp]; rfl
      have hpend := h.pending i
      rw [hp] at hpend
      cases x with
      | callEnq v =>
        cases hr
        rw [List.append_nil]
        exact h.silent hx' (by simp only [MsQueue.step, hp]) hun.symm hpend
      | callDeq =>
        cases hr
        rw [List.append_nil]
        exact h.silent hx' (by simp only [MsQueue.step, hp]) hun.symm hpend
      | _ => cases hr
    | enq p =>
      simp only [access, hp] at hr
      exact h.enqueue hk hap hx' hp (fun hl => hf (by simpa [code, hp] using hl)) hr
    | deq p =>
      simp only [access, hp] at hr
      exact h.dequeue hk hap hx' hp hr
  · exact h.arrive hk hb

/-! ### Whole runs -/

/-- Changes of `Head` and `Tail` are never uncounted. -/
def Shared.Grows (s s' : Shared) : Prop :=
  s.headChanges ≤ s'.headChanges ∧ s.tailChanges ≤ s'.tailChanges

theorem Shared.Grows.bounded (h : s.Grows s') (hb : Bounded s') : Bounded s :=
  ⟨h.1.trans_lt hb.1, h.2.trans_lt hb.2⟩

theorem Shared.Grows.refl (s : Shared) : s.Grows s := ⟨le_rfl, le_rfl⟩

theorem grows_casTail (s : Shared) (tail new : Pointer) : s.Grows (casTail s tail new).1 :=
  ⟨le_rfl, setTail_le s _⟩

theorem grows_casHead (s : Shared) (head new : Pointer) : s.Grows (casHead s head new).1 :=
  ⟨setHead_le s _, le_rfl⟩

/-- An access counts the changes that it makes. -/
theorem grows_access {r : Effect} (hr : access s z t x = some r) : s.Grows r.shared := by
  obtain ⟨pc, mask, saved⟩ := t
  cases pc with
  | idle =>
    cases x <;> cases hr
    all_goals exact .refl s
  | enq p =>
    cases p with
    | newNode v =>
      cases x with
      | alloc a n =>
        simp only [access, enqueueAccess] at hr
        split at hr
        · cases hr
          exact .refl s
        · cases hr
      | _ => cases hr
    | link v node tail next =>
      cases x with
      | go =>
        simp only [access, enqueueAccess] at hr
        split at hr <;> cases hr <;> exact .refl s
      | _ => cases hr
    | cmp128 | advance | swing =>
      cases x <;> cases hr
      exact grows_casTail s _ _
    | _ =>
      cases x <;> cases hr
      exact .refl s
  | deq p =>
    cases p with
    | swing head next v =>
      cases x with
      | go =>
        simp only [access, dequeueAccess] at hr
        split at hr <;> cases hr <;> exact grows_casHead s _ _
      | _ => cases hr
    | cmp128 =>
      cases x <;> cases hr
      exact grows_casHead s _ _
    | advance =>
      cases x <;> cases hr
      exact grows_casTail s _ _
    | _ =>
      cases x <;> cases hr
      exact .refl s

/-- A step with store buffers counts the changes that it makes. -/
theorem grows_buffered {y : Option Choice} {l l' : Tso.Thread Thread Store}
    (hst : code.buffered.step i s l y = some (s', l', e)) : s.Grows s' := by
  rcases Tso.Code.buffered_cases hst with
    ⟨x, r, rfl, -, hr, rfl, rfl, rfl⟩ | ⟨w, b, rfl, -, rfl, rfl, rfl⟩
  · exact grows_access hr
  · cases w <;> exact .refl s

/-- A run in which the counts of `Head` and `Tail` do not wrap has not let them wrap before. -/
theorem bounded_buffered {B : List (ℕ × Fifo.Event DataType) → BufferedConfig → ℕ →
      Option Choice → Prop} (h : code.buffered.Run NewBuffered B tr m) (hb : Bounded m.shared) :
    code.buffered.Run NewBuffered (fun tr m i x => B tr m i x ∧ Bounded m.shared) tr m := by
  induction h with
  | nil hm => exact .nil hm
  | snoc hr hx hs ih =>
    have hb' := (grows_buffered hs).bounded hb
    exact .snoc (ih hb') ⟨hx, hb'⟩ hs

/-- A new queue has no stores on their way. -/
theorem unbuffered_new (hm : NewBuffered m) : ∃ k, NewQueue k ∧ Unbuffered m k := by
  obtain ⟨mem, node, hb, hsh, hth⟩ := hm
  refine ⟨⟨m.shared, fun i => (m.thread i).pc⟩, ⟨mem, node, hb, hsh, fun i => (hth i).1⟩, ?_⟩
  exact {
    thread := fun _ => rfl
    pending := fun i => by rw [(hth i).1]; exact (hth i).2
    hidden := ⟨fun i a ha => (by rw [(hth i).1] at ha; cases ha), fun _ _ => rfl⟩
    words := rfl }

/-- With all stores in memory the two states are the same. -/
theorem Unbuffered.eq_of_drained (h : Unbuffered m k) (hb : ∀ i, (m.thread i).buffer = []) :
    k = ⟨m.shared, fun i => (m.thread i).pc⟩ := by
  have hmem : m.shared.mem = k.shared.mem := funext (h.hidden.of_drained hb)
  have hshared : k.shared = m.shared := h.words.trans (by rw [← hmem])
  have hthread : k.thread = fun i => (m.thread i).pc := funext h.thread
  cases k
  cases hshared
  cases hthread
  rfl

theorem Unbuffered.bounded (h : Unbuffered m k) (hb : Bounded m.shared) : Bounded k.shared := by
  rw [h.words]
  exact hb

/-- The run without buffers, and how its state is related: `A` is what is allowed in it, where
`B` is allowed in the run with buffers. -/
theorem exists_unbuffered {B : List (ℕ × Fifo.Event DataType) → BufferedConfig → ℕ →
      Option Choice → Prop} (hA : ∀ k i x, A k i x → Seen k i x)
    (hB : ∀ tr m k i x, Unbuffered m k → B tr m i (some x) → A k i x)
    (h : code.buffered.Run NewBuffered B tr m) (hb : Bounded m.shared) :
    ∃ tr' k, program.Run NewQueue (fun _ => A) tr' k ∧
      Tso.observed .tau tr' = Tso.observed .tau tr ∧ Unbuffered m k := by
  refine Tso.exists_run_observed ?_ ?_ (bounded_buffered h hb)
  · intro m hm
    exact unbuffered_new hm
  · intro tr m i y s t e tr' k hy hst hr hu
    have hr : SeenRun tr' k := hr.mono fun _ k i x hx => hA k i x hx
    have hk := hu.bounded hy.2
    obtain ⟨g, -, hg⟩ := hr.run.inv hk
    refine hu.step hg (hr.apart hk) ?_ hst
    rintro x rfl
    exact hB tr m k i x hu hy.1

/-- The allocator keeps off the same blocks in both runs. -/
theorem Unbuffered.seen (h : Unbuffered m k) (hx : Unseen tr m i (some x)) : Seen k i x := by
  cases x with
  | alloc a n =>
    intro j
    rw [h.thread j]
    exact hx j
  | _ => trivial

theorem Unbuffered.unreleased (h : Unbuffered m k) (hx : Holds m i) : Unreleased tr k i x := by
  intro a ha j
  rw [h.thread] at ha ⊢
  exact hx a ha j

/-! ### A run -/

/-- `new_queue()` on a cleared heap, with empty buffers. -/
def bufferedStart (node : Addr) : BufferedConfig :=
  ⟨initializeQ (fun _ => ⟨⟨NULL, 0⟩, 0⟩) node, fun _ => ⟨⟨.idle, 0, 0⟩, []⟩⟩

/-- The allocator keeps off the blocks that threads 0 and 1 are going to follow. -/
def unseenByTwo (m : BufferedConfig) : Option Choice → Bool
  | some (.alloc a _) => (List.range 2).all fun j => decide (a ∉ (m.thread j).pc.pc.pointers)
  | _ => true

/-- Thread `i` does not free a block that thread 0 or 1 is about to compare and swap. -/
def holdsByTwo (m : BufferedConfig) (i : ℕ) : Bool :=
  (List.range 2).all fun j =>
    (m.thread i).pc.frees.isNone || (m.thread j).pc.held ≠ (m.thread i).pc.frees

/-- Steps of the code, without a store arriving. -/
def accesses (l : List (ℕ × Choice)) : List (ℕ × Option Choice) := l.map fun p => (p.1, some p.2)

/-- An `enqueue` of thread 0 up to the test of line 155, with the stores to its node in its
buffer. -/
def enqueueToTest (v : DataType) (a : Addr) : List (ℕ × Option Choice) :=
  accesses ([(0, .callEnq v), (0, .go), (0, .alloc a ⟨⟨5, 5⟩, 5⟩), (0, .go), (0, .go)] ++
    readPair 0 ++ readPair 0 ++ readPair 0)

/-- Thread 0 enqueues a value that thread 1 takes, and is at its next `enqueue`, with the block
that thread 1 has released. -/
def serveAndReuse : List (ℕ × Option Choice) :=
  enqueueToTest 7 32 ++ [(0, none), (0, none), (0, some .go)] ++
    accesses (enqueueFromLink 0 ++ dequeueSteps 1 ⟨⟨9, 9⟩, 9⟩) ++ enqueueToTest 8 16

/-- The runs of threads 0 and 1 that a schedule gives. -/
theorem exists_bufferedRun (sched : List (ℕ × Option Choice)) (hT : ∀ p ∈ sched, p.1 < 2)
    (test : List (ℕ × Fifo.Event DataType) → BufferedConfig → Bool)
    (h : (code.buffered.exec (fun _ m i x => unseenByTwo m x && holdsByTwo m i) []
      (bufferedStart 16) sched).any (fun r => test r.1 r.2) = true) :
    ∃ tr m, KeptBufferedRun tr m ∧ test tr m = true := by
  have hunseen : ∀ tr (m : BufferedConfig) i x,
      (∀ j, ¬ j < 2 → m.thread j = (bufferedStart 16).thread j) →
        unseenByTwo m x = true → Unseen tr m i x := by
    intro tr m i x hrest hx
    match x with
    | some (.alloc a n) =>
      intro j
      by_cases hj : j < 2
      · exact of_decide_eq_true (List.all_eq_true.mp hx j (List.mem_range.mpr hj))
      · rw [hrest j hj]
        exact List.not_mem_nil
    | some (.callEnq v) | some .callDeq | some (.free n) | some .go | some (.half h) | none =>
      trivial
  have hholds : ∀ (m : BufferedConfig) i,
      (∀ j, ¬ j < 2 → m.thread j = (bufferedStart 16).thread j) →
        holdsByTwo m i = true → Holds m i := by
    intro m i hrest hx a ha j hj
    by_cases hj2 : j < 2
    · have hne := List.all_eq_true.mp hx j (List.mem_range.mpr hj2)
      simp [ha, hj] at hne
    · rw [hrest j hj2] at hj
      cases hj
  have hallow : ∀ tr (m : BufferedConfig) i x,
      (∀ j, ¬ j < 2 → m.thread j = (bufferedStart 16).thread j) →
        (unseenByTwo m x && holdsByTwo m i) = true → Unseen tr m i x ∧ Holds m i := by
    intro tr m i x hrest hx
    obtain ⟨hu, hh⟩ := Bool.and_eq_true_iff.mp hx
    exact ⟨hunseen tr m i x hrest hu, hholds m i hrest hh⟩
  have hnew : NewBuffered (bufferedStart 16) :=
    ⟨_, 16, by decide, rfl, fun _ => ⟨rfl, rfl⟩⟩
  obtain ⟨tr, m, hr, -, ht⟩ := Interleave.Program.exists_run_of_exec_within (· < 2) _ hallow hnew
    sched hT test h
  exact ⟨tr, m, hr, ht⟩

/-! ### The results -/

/-- **Every run with store buffers shows what a run without them shows**, and when all stores have
reached memory both are in the same state. -/
theorem msQueue_tso_refines (h : BufferedRun tr m) (hb : Bounded m.shared) :
    ∃ tr' k, Run tr' k ∧ Tso.observed .tau tr' = Tso.observed .tau tr ∧
      ((∀ i, (m.thread i).buffer = []) → k = ⟨m.shared, fun i => (m.thread i).pc⟩) := by
  obtain ⟨tr', k, hr, hobs, hu⟩ := exists_unbuffered (A := Seen) (fun _ _ _ hx => hx)
    (fun _ _ _ _ _ hu hx => hu.seen hx) h hb
  exact ⟨tr', k, SeenRun.run hr, hobs, hu.eq_of_drained⟩

/-- A run that has served a value, with both stores to the next node in the buffer. -/
theorem msQueue_tso_refines_waiting : ∃ tr m, BufferedRun tr m ∧ Bounded m.shared ∧
    Fifo.returned tr = [7] ∧ (m.thread 0).buffer = [.value 16 8, .next 16] ∧
      ∃ tr' k, Run tr' k ∧ Tso.observed .tau tr' = Tso.observed .tau tr ∧
        ((∀ i, (m.thread i).buffer = []) → k = ⟨m.shared, fun i => (m.thread i).pc⟩) := by
  obtain ⟨tr, m, hr, ht⟩ := exists_bufferedRun serveAndReuse (by decide)
    (fun tr m => decide (Fifo.returned tr = [7] ∧
      (m.thread 0).buffer = [.value 16 8, .next 16] ∧
        m.shared.headChanges = 1 ∧ m.shared.tailChanges = 1)) (by decide)
  obtain ⟨hret, hbuf, hh, htl⟩ := of_decide_eq_true ht
  have hr : BufferedRun tr m := hr.mono fun _ _ _ _ hx => hx.1
  have hb : Bounded m.shared := ⟨by omega, by omega⟩
  exact ⟨tr, m, hr, hb, hret, hbuf, msQueue_tso_refines hr hb⟩

/-- **The queue of `main/ms-queue.c` is a linearizable FIFO with store buffers**, if no block is
freed that an enqueue is about to compare and swap. -/
theorem msQueue_tso_fifo (h : KeptBufferedRun tr m) (hb : Bounded m.shared) :
    Fifo.Linearized tr := by
  obtain ⟨tr', k, hr, hobs, hu⟩ := exists_unbuffered
    (A := fun k i x => Seen k i x ∧ Unreleased [] k i x) (fun _ _ _ hx => hx.1)
    (fun _ _ _ _ _ hu hx => ⟨hu.seen hx.1, hu.unreleased hx.2⟩) h hb
  have hkept : KeptRun tr' k := hr.mono fun _ _ _ _ hx => hx.2
  obtain ⟨g, -, hg, -⟩ := hkept.inv (hu.bounded hb)
  have hexec : Fifo.exec tr = some g.abs := (Fifo.exec_congr_filter_tau hobs.symm).trans hg
  exact Fifo.linearized_of_exec hexec

/-- The value whose stores have waited in the buffer is served. -/
theorem msQueue_tso_fifo_served : ∃ tr m, KeptBufferedRun tr m ∧ Bounded m.shared ∧
    Fifo.returned tr = [7] ∧ Fifo.Linearized tr := by
  obtain ⟨tr, m, hr, ht⟩ := exists_bufferedRun serveAndReuse (by decide)
    (fun tr m => decide (Fifo.returned tr = [7] ∧
      m.shared.headChanges = 1 ∧ m.shared.tailChanges = 1)) (by decide)
  obtain ⟨hret, hh, htl⟩ := of_decide_eq_true ht
  have hb : Bounded m.shared := ⟨by omega, by omega⟩
  exact ⟨tr, m, hr, hb, hret, msQueue_tso_fifo hr hb⟩

end Coremu.MsQueue

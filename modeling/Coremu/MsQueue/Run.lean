import Coremu.MsQueue.Step

/-!
# Runs of the lock-free queue

Every step of every thread is matched by the ghost state, and so the invariant holds
at the end of every run in which the allocator does not hand out a block that an
enqueue is about to compare and swap, as long as there are fewer than `2 ^ 64` changes
of `Head` and of `Tail`.  If no block is handed out twice, both conditions hold by
themselves: there are not enough blocks.

In these runs values may be lost.  If no block is freed, either, that an enqueue is about to
compare and swap, then this block stays in use and nothing is lost.

## Main results

* `stepOk_step` — every allowed step is matched by the ghost state.
* `Run.inv` — the invariant holds at the end of every run.
* `FreshRun.run_bounded` — a run that hands out no block twice is one of these.
* `KeptRun.inv` — **a run that frees no block that is about to be swapped loses no value.**
-/

namespace Coremu.MsQueue

open Linked

variable {g g' : Ghost} {s s' : Shared} {i j : ℕ} {H : ℕ → Option Addr} {v : DataType}
  {node : Addr} {head tail next cur : Pointer}

/-! ### `cmp128` -/

/-- A successful `cmp128(&Q->Tail, &tail)` writes back what it found. -/
theorem setTail_cur (heq : s.tail = tail) (hcur : s.tail = tail → cur = tail) :
    s.setTail cur = s := by
  rw [hcur heq, ← heq]
  exact setTail_self s

/-- A successful `cmp128(&Q->Head, &head)` writes back what it found. -/
theorem setHead_cur (heq : s.head = head) (hcur : s.head = head → cur = head) :
    s.setHead cur = s := by
  rw [hcur heq, ← heq]
  exact setHead_self s

/-- `Tail` is still the pair that was read, and there was no successor. -/
theorem stepOk_enqLast (h : SharedInv g s)
    (hp : ThreadInv g s i (.enq (.cmp128 v node tail next cur))) (heq : s.tail = tail)
    (hnull : next.ptr = NULL) :
    StepOk H g s i .tau (s.setTail cur) (.enq (.link v node tail next)) := by
  obtain ⟨⟨hr, ht, -, hcur⟩, hu, hd⟩ := hp
  rw [setTail_cur heq hcur]
  have htm := h.node _ h.tail_mem
  rw [heq] at htm
  exact StepOk.silent h
    ⟨⟨hr, ht, hnull, htm.2.2.1, h.used _ htm.2.1, fun _ _ => by rw [heq]⟩, hu, hd⟩

/-- `Head` is still the pair that was read, and so is `Tail`, which is behind: the
successor of the dummy is that of `tail.ptr`. -/
theorem stepOk_deqBehind (h : SharedInv g s)
    (hp : ThreadInv g s i (.deq (.cmp128 head tail next cur))) (heq : s.head = head)
    (hht : head.ptr = tail.ptr) (hnull : next.ptr ≠ NULL) :
    StepOk H g s i .tau (s.setHead cur) (.deq (.advance tail next)) := by
  obtain ⟨⟨hop, -, ht, -, hf, hcur⟩, hu, hd⟩ := hp
  rw [setHead_cur heq hcur]
  refine StepOk.silent h ⟨⟨hop, ht, hnull, fun _ => ?_⟩, hu, hd⟩
  rw [← hht]
  exact (hf heq).2.1.resolve_left hnull

/-- `Head` is still the pair that was read, and `Tail` was not at the dummy. -/
theorem stepOk_deqFront (h : SharedInv g s)
    (hp : ThreadInv g s i (.deq (.cmp128 head tail next cur))) (heq : s.head = head)
    (hht : head.ptr ≠ tail.ptr) :
    StepOk H g s i .tau (s.setHead cur) (.deq (.readValue head next)) := by
  obtain ⟨⟨hop, hh, -, ha, hf, hcur⟩, hu, hd⟩ := hp
  rw [setHead_cur heq hcur]
  obtain ⟨-, hn, hne⟩ := hf heq
  have hnull := hne (Ne.symm hht)
  exact StepOk.silent h
    ⟨⟨hop, hh, fun e => ⟨hnull, hn.resolve_left hnull, ha e (Ne.symm hht)⟩⟩, hu, hd⟩

/-! ### Looking for the first value -/

/-- The read of the pointer of `head.ptr->next`. -/
theorem frontSeen_look (h : SharedInv g s) (ha : Apart s head tail.ptr) {a : Fifo.State ℕ DataType}
    (hop : a.op i = .deq g.abs.content.isEmpty) :
    FrontSeen { g with abs := a } s i head tail (s.mem head.ptr).next.ptr := by
  intro heq
  refine ⟨fun hnull => ?_, .inr rfl, fun hne => ?_⟩
  · have hnil := h.content_nil_iff.mpr (heq ▸ hnull)
    rw [hnil] at hop
    exact hop
  · have := h.next_ne_null (heq ▸ ha heq hne)
    rw [heq] at this
    exact this

/-- A read of one word of `head.ptr->next`, with its event: a look when it is the
pointer. -/
theorem stepOk_look (h : SharedInv g s) {p p' : DeqPc} (hp : ThreadInv g s i (.deq p))
    (hop : ∃ w, g.abs.op i = .deq w) {e : Fifo.Event DataType} (he : e = .tau ∨ e = .look)
    (hu : (Pc.deq p').uncounted = (Pc.deq p).uncounted)
    (hd : (Pc.deq p').popped = (Pc.deq p).popped)
    (htau : e = .tau → DeqInv g s i p')
    (hlook : e = .look → ∀ a : Fifo.State ℕ DataType, a.op i = .deq g.abs.content.isEmpty →
      DeqInv { g with abs := a } s i p') :
    StepOk H g s i e s (.deq p') := by
  obtain ⟨w, hw⟩ := hop
  have hu' : i ∈ g.uncounted ↔ (Pc.deq p').uncounted = true := by rw [hu]; exact hp.uncounted
  have hd' : i ∈ g.popped ↔ (Pc.deq p').popped = true := by rw [hd]; exact hp.popped
  rcases he with rfl | rfl
  · exact StepOk.silent h ⟨htau rfl, hu', hd'⟩
  · exact StepOk.setAbs h (Fifo.step_look.mpr ⟨w, hw, rfl⟩) rfl
      ⟨hlook rfl _ (Function.update_self _ _ _), hu', hd'⟩

/-! ### All steps -/

/-- Every allowed step from a program point is matched by the ghost state. -/
theorem stepOk_of_step (h : SharedInv g s) {t t' : Thread} {p : Pc} (hp : ThreadInv g s i p)
    (hHi : ∀ v node tail next, p = .enq (.link v node tail next) → H i = some tail.ptr)
    {x : Choice} (hH : ∀ a n, x = .alloc a n → ∀ j, H j ≠ some a) {e : Fifo.Event DataType}
    (hst : Step s t p x s' t' e) : StepOk H g s i e s' t'.pc := by
  have ⟨hop, hu, hd⟩ := hp
  cases hst with
  | callEnq v =>
    exact StepOk.setAbs h (Fifo.step_callEnq.mpr ⟨hop, rfl⟩) rfl
      ⟨Function.update_self _ _ _, hu, hd⟩
  | callDeq =>
    exact StepOk.setAbs h (Fifo.step_callDeq.mpr ⟨hop, rfl⟩) rfl
      ⟨⟨_, Function.update_self _ _ _⟩, hu, hd⟩
  | enqBlk v => exact StepOk.silent h ⟨hop, hu, hd⟩
  | newNode v a n hb hl => exact stepOk_newNode h hp hb hl (hH a n rfl) n
  | setValue v node => exact stepOk_setValue h hp
  | setNext v node => exact stepOk_setNext h hp
  | enqReadTail v node r => exact StepOk.silent h ⟨⟨hop, r.read_countLe h.tailSeen⟩, hu, hd⟩
  | enqRestTail v node r =>
    exact StepOk.silent h ⟨⟨hop.1, Torn.rest_count_le h.tailSeen hop.2⟩, hu, hd⟩
  | enqReadNext v node tail r =>
    have hn : NextSeen s tail (s.mem tail.ptr).next.ptr := fun _ => .inr rfl
    exact StepOk.silent h ⟨⟨hop.1, hop.2, r.read_ptrIs hn⟩, hu, hd⟩
  | enqRestNext v node tail r =>
    have hn : NextSeen s tail (s.mem tail.ptr).next.ptr := fun _ => .inr rfl
    exact StepOk.silent h ⟨⟨hop.1, hop.2.1, Torn.rest_ptr hn hop.2.2⟩, hu, hd⟩
  | enqReadCur v node tail next r =>
    -- `*p1` need only be right if the swap is going to succeed
    obtain ⟨hr, ht, hn⟩ := hop
    exact StepOk.silent h ⟨⟨hr, ht, hn, fun e => e ▸ r.read_agrees s.tail⟩, hu, hd⟩
  | enqRestCur v node tail next r =>
    obtain ⟨hr, ht, hn, ha⟩ := hop
    refine StepOk.silent h ⟨⟨hr, ht, hn, fun e => ?_⟩, hu, hd⟩
    rw [e]
    exact Torn.rest_eq (ha e)
  | enqLast v node tail next cur heq hnull => exact stepOk_enqLast h hp heq hnull
  | enqBehind v node tail next cur heq hnull =>
    obtain ⟨hr, ht, hn, hcur⟩ := hop
    rw [setTail_cur heq hcur]
    exact StepOk.silent h ⟨⟨hr, ht, hnull, fun e => (hn e).resolve_left hnull⟩, hu, hd⟩
  | enqStale v node tail next cur hne => exact StepOk.silent h ⟨hop.1, hu, hd⟩
  | link v node tail next heq => exact stepOk_link h hp (hHi v node tail next rfl) heq _
  | linkFailed v node tail next hne => exact StepOk.silent h ⟨hop.1, hu, hd⟩
  | enqAdvance v node tail next =>
    obtain ⟨hr, -, ha⟩ := hop
    exact StepOk.advance h ha ⟨hr, hu, hd⟩ ⟨hr, hu, hd⟩
  | enqSwing node tail =>
    obtain ⟨ho, -, ha⟩ := hop
    exact StepOk.advance h ha ⟨ho, hu, hd⟩ ⟨ho, hu, hd⟩
  | incCount => exact stepOk_incCount h hp
  | enqRes => exact StepOk.silent h ⟨hop, hu, hd⟩
  | enqRet =>
    exact StepOk.setAbs h (Fifo.step_retEnq.mpr ⟨hop, rfl⟩) rfl
      ⟨Function.update_self _ _ _, hu, hd⟩
  | deqBlk => exact StepOk.silent h ⟨hop, hu, hd⟩
  | readHead r => exact StepOk.silent h ⟨⟨hop, r.read_countLe h.headSeen⟩, hu, hd⟩
  | restHead r => exact StepOk.silent h ⟨⟨hop.1, Torn.rest_count_le h.headSeen hop.2⟩, hu, hd⟩
  | deqReadTail head r =>
    have ha : Apart s head s.tail.ptr := fun _ hne => hne
    exact StepOk.silent h ⟨⟨hop.1, hop.2, r.read_countLe h.tailSeen, r.read_ptrIs ha⟩, hu, hd⟩
  | deqRestTail head r =>
    obtain ⟨ho, hh, hc, ha⟩ := hop
    have ha' : Apart s head s.tail.ptr := fun _ hne => hne
    exact StepOk.silent h
      ⟨⟨ho, hh, Torn.rest_count_le h.tailSeen hc, Torn.rest_ptr ha' ha⟩, hu, hd⟩
  | deqReadNext head tail r =>
    -- an empty `dequeue` takes effect where it reads the pointer, which may be either word
    obtain ⟨ho, hh, ht, ha⟩ := hop
    refine stepOk_look h hp ho ?_ rfl rfl (fun he => ?_) fun he a hw => ?_
    · cases r <;> simp [Half.event]
    · cases r with
      | ptr => cases he
      | count => exact ⟨ho, hh, ht, ha, trivial⟩
    · exact ⟨⟨_, hw⟩, hh, ht, ha, r.read_ptrIs (frontSeen_look h ha hw)⟩
  | deqRestNext head tail r =>
    obtain ⟨ho, hh, ht, ha, hf⟩ := hop
    refine stepOk_look h hp ho ?_ rfl rfl (fun he => ?_) fun he a hw => ?_
    · cases r <;> simp [Torn.event]
    · cases r with
      | ptr b => exact ⟨ho, hh, ht, ha, hf⟩
      | count n => cases he
    · cases r with
      | ptr b => cases he
      | count n => exact ⟨⟨_, hw⟩, hh, ht, ha, frontSeen_look h ha hw⟩
  | deqReadCur head tail next r =>
    obtain ⟨ho, hh, ht, ha, hf⟩ := hop
    exact StepOk.silent h ⟨⟨ho, hh, ht, ha, hf, fun e => e ▸ r.read_agrees s.head⟩, hu, hd⟩
  | deqRestCur head tail next r =>
    obtain ⟨ho, hh, ht, ha, hf, hc⟩ := hop
    refine StepOk.silent h ⟨⟨ho, hh, ht, ha, hf, fun e => ?_⟩, hu, hd⟩
    rw [e]
    exact Torn.rest_eq (hc e)
  | deqEmpty head tail next cur heq hht hnull =>
    obtain ⟨-, -, -, -, hf, hcur⟩ := hop
    rw [setHead_cur heq hcur]
    exact StepOk.silent h ⟨(hf heq).1 hnull, hu, hd⟩
  | deqBehind head tail next cur heq hht hnull => exact stepOk_deqBehind h hp heq hht hnull
  | deqFront head tail next cur heq hht => exact stepOk_deqFront h hp heq hht
  | deqStale head tail next cur hne => exact StepOk.silent h ⟨hop.1, hu, hd⟩
  | deqAdvance tail next =>
    obtain ⟨ho, -, ha⟩ := hop
    exact StepOk.advance h ha ⟨ho, hu, hd⟩ ⟨ho, hu, hd⟩
  | readValue head next =>
    obtain ⟨ho, hh, hpop⟩ := hop
    exact StepOk.silent h ⟨⟨ho, hh, hpop, fun _ => rfl⟩, hu, hd⟩
  | pop head next v heq => exact stepOk_pop h hp heq
  | popFailed head next v hne => exact StepOk.silent h ⟨hop.1, hu, hd⟩
  | free head v n => exact stepOk_free h hp n
  | decCount v => exact stepOk_decCount h hp
  | deqRes v => exact StepOk.silent h ⟨hop, hu, hd⟩
  | deqRet r =>
    cases r with
    | none =>
      exact StepOk.setAbs h (Fifo.step_retNone.mpr ⟨hop, rfl⟩) rfl
        ⟨Function.update_self _ _ _, hu, hd⟩
    | some v =>
      exact StepOk.setAbs h (Fifo.step_retSome.mpr ⟨hop, rfl⟩) rfl
        ⟨Function.update_self _ _ _, hu, hd⟩

/-- **Every allowed step is matched by the ghost state.** -/
theorem stepOk_step (h : SharedInv g s) {t t' : Thread} (hp : ThreadInv g s i t.pc)
    (hHi : H i = t.held) {x : Choice} (hH : ∀ a n, x = .alloc a n → ∀ j, H j ≠ some a)
    {e : Fifo.Event DataType} (hs : step s t x = some (s', t', e)) : StepOk H g s i e s' t'.pc := by
  refine stepOk_of_step h hp (fun v node tail next hpc => ?_) hH (step_cases hs)
  rw [hHi, Thread.held, hpc]

/-! ### The history of a step -/

theorem setTail_le (s : Shared) (p : Pointer) : s.tailChanges ≤ (s.setTail p).tailChanges := by
  simp only [Shared.setTail]
  split <;> omega

theorem setHead_le (s : Shared) (p : Pointer) : s.headChanges ≤ (s.setHead p).headChanges := by
  simp only [Shared.setHead]
  split <;> omega

/-- Changes of `Head` and `Tail` are never uncounted, and only an allocation can be
one of a block that was used. -/
structure History (s s' : Shared) (x : Choice) : Prop where
  headLe : s.headChanges ≤ s'.headChanges
  tailLe : s.tailChanges ≤ s'.tailChanges
  reused : s'.reused = true → s.reused = true ∨ ∃ a n, x = .alloc a n ∧ s.used a = true

theorem history_step {t t' : Thread} {x : Choice} {e : Fifo.Event DataType}
    (hs : step s t x = some (s', t', e)) : History s s' x := by
  have hst := step_cases hs
  generalize t.pc = p at hst
  cases hst with
  | newNode v a n =>
    refine ⟨le_rfl, le_rfl, fun hr => ?_⟩
    rw [Bool.or_eq_true] at hr
    exact hr.imp_right fun hu => ⟨a, n, rfl, hu⟩
  | enqLast | enqBehind | enqAdvance | enqSwing | deqAdvance =>
    exact ⟨le_rfl, setTail_le s _, .inl⟩
  | deqEmpty | deqBehind | deqFront | pop => exact ⟨setHead_le s _, le_rfl, .inl⟩
  | _ => exact ⟨le_rfl, le_rfl, .inl⟩

/-! ### Whole runs -/

/-- The shared invariant holds, and that of every thread. -/
def Inv (g : Ghost) (cfg : Config) : Prop :=
  SharedInv g cfg.shared ∧ ∀ i, ThreadInv g cfg.shared i (cfg.thread i).pc

theorem initializeQ_next (mem : Addr → Node) (node : Addr) :
    (initializeQ mem node).next node = NULL := by
  simp [Shared.next, initializeQ]

/-- The list of a new queue is the dummy alone, and nothing has happened yet. -/
theorem sharedInv_initializeQ (mem : Addr → Node) {node : Addr} (hb : Block node) :
    SharedInv ⟨[], [node], fun _ => none, fun _ => none, ∅, ∅, 0, Fifo.empty⟩
      (initializeQ mem node) where
  list := ⟨⟨rfl, initializeQ_next mem node⟩, hb.1, List.nodup_singleton _,
    by simpa using hb.1.symm, rfl⟩
  node a ha := by
    obtain rfl := List.mem_singleton.mp ha
    exact ⟨hb, by simp [initializeQ], rfl, rfl⟩
  owned _ _ ha := by cases ha
  retired _ _ ha := by cases ha
  used _ ha := ha
  tail_mem := List.mem_singleton_self _
  tail_last hn := absurd (initializeQ_next mem node) hn
  headCount := rfl
  tailCount := rfl
  headChanges := rfl
  tailChanges := by
    change 0 + (if (initializeQ mem node).next node = NULL then 1 else 2) = _
    rw [if_pos (initializeQ_next mem node)]
    rfl
  fresh _ := ⟨List.nodup_singleton _, nofun, fun _ _ _ => List.not_mem_nil⟩
  count := rfl

theorem inv_newQueue {cfg : Config} (h : NewQueue cfg) :
    ∃ g, g.abs = Fifo.empty ∧ g.lost = 0 ∧ Inv g cfg := by
  obtain ⟨mem, node, hb, hs, hth⟩ := h
  refine ⟨⟨[], [node], fun _ => none, fun _ => none, ∅, ∅, 0, Fifo.empty⟩, rfl, rfl, ?_,
    fun i => ?_⟩
  · rw [hs]
    exact sharedInv_initializeQ mem hb
  · rw [hth i]
    exact ⟨rfl, by simp [Pc.uncounted], by simp [Pc.popped]⟩

/-- The trace leads to the abstract queue, with the values that are lost. -/
def Traced (tr : List (ℕ × Fifo.Event DataType)) (g : Ghost) : Prop := Fifo.Lossy tr g.lost g.abs

theorem Traced.step {tr : List (ℕ × Fifo.Event DataType)} (h : Traced tr g) {held : Option Addr}
    {e : Fifo.Event DataType} (hf : Follows held g s i e g') : Traced (tr ++ [(i, e)]) g' := by
  cases hf with
  | step hs hl =>
    rw [Traced, hl]
    exact .step i e h hs
  | lose v a _ _ he ho habs hl =>
    rw [Traced, hl, habs, he]
    exact .lose i v h ho

/-- A step from a state with the invariant, in terms of the configuration. -/
theorem Inv.step {cfg : Config} (h : Inv g cfg) {x : Choice} {t' : Thread}
    {e : Fifo.Event DataType} {tr : List (ℕ × Fifo.Event DataType)} (hx : Unheld tr cfg i x)
    (hs : MsQueue.step cfg.shared (cfg.thread i) x = some (s', t', e)) :
    ∃ g', Follows (cfg.thread i).held g cfg.shared i e g' ∧ SharedInv g' s' ∧
      (Bounded s' → Inv g' (cfg.after i s' t')) := by
  have hH : ∀ a n, x = .alloc a n → ∀ j, (cfg.thread j).held ≠ some a := by
    rintro a n rfl
    exact hx
  obtain ⟨g', habs, hsh', hth', hst⟩ :=
    stepOk_step (H := fun j => (cfg.thread j).held) h.1 (h.2 i) rfl hH hs
  refine ⟨g', habs, hsh', fun hb => ⟨hsh', ?_⟩⟩
  exact Interleave.Config.forall_after (T := fun j (t : Thread) => ThreadInv g' s' j t.pc) hth'
    fun j hj => (h.2 j).stable (hst j hj) hsh' hb

/-- A step leaves fewer than `2 ^ 64` changes only if there were fewer before. -/
theorem Bounded.before {t t' : Thread} {x : Choice} {e : Fifo.Event DataType}
    (hs : step s t x = some (s', t', e)) (hb : Bounded s') : Bounded s := by
  have hist := history_step hs
  exact ⟨hist.headLe.trans_lt hb.1, hist.tailLe.trans_lt hb.2⟩

/-- **The invariant holds at the end of every run**, with the abstract queue that
the trace leads to. -/
theorem Run.inv {tr : List (ℕ × Fifo.Event DataType)} {cfg : Config} (h : Run tr cfg)
    (hb : Bounded cfg.shared) : ∃ g, Traced tr g ∧ Inv g cfg := by
  refine Interleave.Program.Run.induct (J := fun tr cfg => Bounded cfg.shared →
    ∃ g, Traced tr g ∧ Inv g cfg) ?_ ?_ h hb
  · intro cfg hc _
    obtain ⟨g, habs, hlost, hi⟩ := inv_newQueue hc
    exact ⟨g, by rw [Traced, habs, hlost]; exact .nil, hi⟩
  · intro tr cfg i x s' t' e ih hx hs hb
    -- the counts only grow, so the state before was bounded, too
    obtain ⟨g, hg, hi⟩ := ih (Bounded.before hs hb)
    obtain ⟨g', habs, -, hi'⟩ := hi.step hx hs
    exact ⟨g', hg.step habs, hi' hb⟩

/-! ### Runs without reuse -/

/-- With no block handed out twice there are not more nodes than blocks. -/
theorem SharedInv.length_le (h : SharedInv g s) (hr : s.reused = false) :
    g.gone.length + g.nodes.length ≤ 2 ^ 60 := by
  obtain ⟨hnd, hgone, -⟩ := h.fresh hr
  rw [← List.length_append]
  refine length_le_of_block hnd fun a ha => ?_
  rcases List.mem_append.mp ha with ha | ha
  · exact (hgone a ha).1
  · exact (h.node a ha).1

/-- So there are not enough nodes for `2 ^ 64` changes. -/
theorem SharedInv.bounded (h : SharedInv g s) (hr : s.reused = false) : Bounded s := by
  have hlen := h.length_le hr
  have hhead := h.headChanges
  have htail := h.tailChanges
  refine ⟨by omega, ?_⟩
  split at htail <;> omega

/-- The block that a thread is about to compare and swap was handed out. -/
theorem Inv.used_of_held {cfg : Config} (h : Inv g cfg) {a : Addr}
    (ha : (cfg.thread j).held = some a) : cfg.shared.used a = true := by
  have hop := (h.2 j).op
  rw [Thread.held] at ha
  split at ha
  · next hpc =>
    rw [hpc] at hop
    cases ha
    exact hop.2.2.2.2.1
  · cases ha

theorem Inv.unheld_of_noReuse {cfg : Config} (h : Inv g cfg) {x : Choice}
    {tr : List (ℕ × Fifo.Event DataType)} (hx : NoReuse tr cfg i x) : Unheld tr cfg i x := by
  cases x with
  | alloc a n =>
    intro j hj
    have hused := h.used_of_held hj
    rw [show cfg.shared.used a = false from hx] at hused
    cases hused
  | _ => trivial

/-- **The invariant holds at the end of every run that hands out no block twice.** -/
theorem FreshRun.run_inv {tr : List (ℕ × Fifo.Event DataType)} {cfg : Config}
    (h : FreshRun tr cfg) : Run tr cfg ∧ cfg.shared.reused = false ∧
      ∃ g, Traced tr g ∧ Inv g cfg := by
  refine Interleave.Program.Run.induct (J := fun tr cfg => Run tr cfg ∧
    cfg.shared.reused = false ∧ ∃ g, Traced tr g ∧ Inv g cfg) ?_ ?_ h
  · intro cfg hc
    obtain ⟨g, habs, hlost, hi⟩ := inv_newQueue hc
    refine ⟨.nil hc, ?_, g, by rw [Traced, habs, hlost]; exact .nil, hi⟩
    obtain ⟨mem, node, -, hs, -⟩ := hc
    rw [hs]
    rfl
  · rintro tr cfg i x s' t' e ⟨hrun, hr, g, hg, hi⟩ hx hs
    have hx' := hi.unheld_of_noReuse hx
    obtain ⟨g', habs, hsh', hi'⟩ := hi.step hx' hs
    -- the step is no reuse, so the new state is bounded because of its nodes
    have hr' : s'.reused = false := by
      by_contra hne
      rcases (history_step hs).reused (Bool.eq_true_of_not_eq_false hne) with h1 | ⟨a, n, rfl, h1⟩
      · rw [hr] at h1
        cases h1
      · rw [show cfg.shared.used a = false from hx] at h1
        cases h1
    exact ⟨.snoc hrun hx' hs, hr', g', hg.step habs, hi' (hsh'.bounded hr')⟩

/-- **A run that hands out no block twice is a run**, and its changes are bounded. -/
theorem FreshRun.run_bounded {tr : List (ℕ × Fifo.Event DataType)} {cfg : Config}
    (h : FreshRun tr cfg) : Run tr cfg ∧ Bounded cfg.shared := by
  obtain ⟨hrun, hr, g, -, hi⟩ := h.run_inv
  exact ⟨hrun, hi.1.bounded hr⟩

theorem FreshRun.inv {tr : List (ℕ × Fifo.Event DataType)} {cfg : Config} (h : FreshRun tr cfg) :
    ∃ g, Traced tr g ∧ Inv g cfg :=
  h.run_inv.2.2

/-! ### Runs that lose no value -/

/-- Every block that is about to be compared and swapped is in use. -/
def HeldLive (cfg : Config) : Prop :=
  ∀ i a, (cfg.thread i).held = some a → cfg.shared.live a = true

/-- Only the test of line 155 lets a thread hold a block, and it is a node of the list then. -/
theorem live_of_held (h : SharedInv g s) {t t' : Thread} {x : Choice} {e : Fifo.Event DataType}
    (hs : step s t x = some (s', t', e)) {a : Addr} (ha : t'.held = some a) :
    s'.live a = true := by
  have hst := step_cases hs
  generalize t.pc = p at hst
  cases hst with
  | enqLast v node tail next cur heq hnull =>
    cases ha
    rw [← heq]
    exact (h.node _ h.tail_mem).2.1
  | _ => cases ha

/-- Only a release takes a block out of use. -/
theorem live_of_step {t t' : Thread} {x : Choice} {e : Fifo.Event DataType}
    (hs : step s t x = some (s', t', e)) {a : Addr} (ha : s.live a = true)
    (hf : t.frees ≠ some a) : s'.live a = true := by
  have hst := step_cases hs
  generalize hpc : t.pc = p at hst
  cases hst with
  | newNode v b n =>
    by_cases hab : a = b
    · rw [hab]
      exact Function.update_self _ _ _
    · exact (Function.update_of_ne hab _ _).trans ha
  | free head v n =>
    have hne : a ≠ head.ptr := by
      rintro rfl
      exact hf (by rw [Thread.frees, hpc])
    exact (Function.update_of_ne hne _ _).trans ha
  | _ => exact ha

theorem HeldLive.step {cfg : Config} (h : HeldLive cfg) (hinv : SharedInv g cfg.shared)
    {tr : List (ℕ × Fifo.Event DataType)} {x : Choice} {t' : Thread} {e : Fifo.Event DataType}
    (hx : Unreleased tr cfg i x)
    (hs : MsQueue.step cfg.shared (cfg.thread i) x = some (s', t', e)) :
    HeldLive (cfg.after i s' t') := by
  refine Interleave.Config.forall_after
    (T := fun _ (t : Thread) => ∀ a, t.held = some a → s'.live a = true)
    (fun a ha => live_of_held hinv hs ha) fun j _ a ha => ?_
  exact live_of_step hs (h j a ha) fun hf => hx a hf j ha

/-- The block an enqueue holds is in use, and the allocator hands out none that is. -/
theorem HeldLive.unheld {cfg : Config} (h : HeldLive cfg) {tr : List (ℕ × Fifo.Event DataType)}
    {x : Choice} {t' : Thread} {e : Fifo.Event DataType}
    (hs : MsQueue.step cfg.shared (cfg.thread i) x = some (s', t', e)) : Unheld tr cfg i x := by
  have hst := step_cases hs
  generalize (cfg.thread i).pc = p at hst
  cases hst with
  | newNode v a n hb hl =>
    intro j hj
    rw [h j a hj] at hl
    cases hl
  | _ => trivial

/-- With the block in use, nothing is lost. -/
theorem Follows.of_live {held : Option Addr} {e : Fifo.Event DataType}
    (h : Follows held g s i e g') (hl : ∀ a, held = some a → s.live a = true) :
    Fifo.step g.abs i e = some g'.abs ∧ g'.lost = g.lost := by
  cases h with
  | step hs hlost => exact ⟨hs, hlost⟩
  | lose v a ha hdead =>
    rw [hl a ha] at hdead
    cases hdead

/-- **A run that frees no block that is about to be swapped loses no value**, and hands out
no such block, either. -/
theorem KeptRun.run_inv {tr : List (ℕ × Fifo.Event DataType)} {cfg : Config} (h : KeptRun tr cfg)
    (hb : Bounded cfg.shared) : Run tr cfg ∧ HeldLive cfg ∧
      ∃ g, g.lost = 0 ∧ Fifo.exec tr = some g.abs ∧ Inv g cfg := by
  refine Interleave.Program.Run.induct (J := fun tr cfg => Bounded cfg.shared →
    Run tr cfg ∧ HeldLive cfg ∧ ∃ g, g.lost = 0 ∧ Fifo.exec tr = some g.abs ∧ Inv g cfg) ?_ ?_ h hb
  · intro cfg hc _
    obtain ⟨g, habs, hlost, hi⟩ := inv_newQueue hc
    refine ⟨.nil hc, fun i a ha => ?_, g, hlost, by rw [habs, Fifo.exec_nil], hi⟩
    obtain ⟨mem, node, -, -, hidle⟩ := hc
    rw [Thread.held, hidle i] at ha
    cases ha
  · intro tr cfg i x s' t' e ih hx hs hb
    obtain ⟨hrun, hlive, g, hlost, hg, hi⟩ := ih (Bounded.before hs hb)
    -- that held blocks are in use bars their reuse, and the link to a freed one
    have hx' : Unheld tr cfg i x := hlive.unheld hs
    obtain ⟨g', hf, -, hi'⟩ := hi.step hx' hs
    obtain ⟨habs, hlost'⟩ := hf.of_live (hlive i)
    exact ⟨.snoc hrun hx' hs, hlive.step hi.1 hx hs, g', hlost'.trans hlost,
      Fifo.exec_concat_eq_some.mpr ⟨_, hg, habs⟩, hi' hb⟩

theorem KeptRun.inv {tr : List (ℕ × Fifo.Event DataType)} {cfg : Config} (h : KeptRun tr cfg)
    (hb : Bounded cfg.shared) :
    ∃ g, g.lost = 0 ∧ Fifo.exec tr = some g.abs ∧ Inv g cfg :=
  (h.run_inv hb).2.2

/-- If no block is handed out twice, either, the changes are bounded. -/
theorem FreshKeptRun.kept_bounded {tr : List (ℕ × Fifo.Event DataType)} {cfg : Config}
    (h : FreshKeptRun tr cfg) : KeptRun tr cfg ∧ Bounded cfg.shared := by
  have hfresh : FreshRun tr cfg := h.mono fun _ _ _ _ hx => hx.1
  exact ⟨h.mono fun _ _ _ _ hx => hx.2, hfresh.run_bounded.2⟩

theorem FreshKeptRun.inv {tr : List (ℕ × Fifo.Event DataType)} {cfg : Config}
    (h : FreshKeptRun tr cfg) : ∃ g, g.lost = 0 ∧ Fifo.exec tr = some g.abs ∧ Inv g cfg :=
  h.kept_bounded.1.inv h.kept_bounded.2

end Coremu.MsQueue

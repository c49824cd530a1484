import Coremu.MsQueue.Invariant

/-!
# Every step of the lock-free queue keeps the invariant

Only six accesses change what other threads look at: the allocation and the release
of a node, the writes to a node before it is linked, the link, and the moves of
`Tail` and of `Head`.  Each has one lemma on the shared invariant and one on what the
others see (`Evolves`); the program points that make the access then only differ in
what their own thread knows.  `cmp128` changes nothing: if it succeeds, the pair it
writes back is the one it found.

The link has two outcomes.  If the block that is swapped is in use, it is the last node of the
list, and the value enters the queue.  If it was freed, the swap may succeed too, and then
the value is lost: the thread goes on, and nobody else notices.
-/

namespace Coremu.MsQueue

open Linked

variable {g g' : Ghost} {s s' : Shared} {i j : ℕ} {H : ℕ → Option Addr} {v : DataType}
  {node : Addr} {head tail next : Pointer}

/-- How the abstract queue follows a step of thread `i` with event `e`; `held` is the block
that the thread is about to compare and swap. -/
inductive Follows (held : Option Addr) (g : Ghost) (s : Shared) (i : ℕ) (e : Fifo.Event DataType)
    (g' : Ghost) : Prop
  /-- It makes the same event. -/
  | step : Fifo.step g.abs i e = some g'.abs → g'.lost = g.lost → Follows held g s i e g'
  /-- The block was freed, and the value that is appended is lost. -/
  | lose (v : DataType) (a : Addr) : held = some a → s.live a = false → e = .append v →
      g.abs.op i = .enq v → g'.abs = g.abs.lose i → g'.lost = g.lost + 1 → Follows held g s i e g'

/-- The step to `(s', p')` with event `e` is matched by the ghost state; `H` gives the
block that each thread is about to compare and swap. -/
def StepOk (H : ℕ → Option Addr) (g : Ghost) (s : Shared) (i : ℕ) (e : Fifo.Event DataType)
    (s' : Shared) (p' : Pc) : Prop :=
  ∃ g', Follows (H i) g s i e g' ∧ SharedInv g' s' ∧ ThreadInv g' s' i p' ∧
    ∀ j, j ≠ i → Stable g g' s s' (H j) j

/-- A step that shows nothing. -/
theorem Follows.tau {held : Option Addr} (habs : g'.abs = g.abs) (hlost : g'.lost = g.lost) :
    Follows held g s i .tau g' :=
  .step (Fifo.step_tau.mpr habs) hlost

/-! ### Consequences of the invariant -/

/-- An owned node is not linked. -/
theorem SharedInv.notMem_of_owner (h : SharedInv g s) {a : Addr} (ha : g.owner a = some i) :
    a ∉ g.nodes := by
  intro hm
  rw [(h.node a hm).2.2.1] at ha
  cases ha

/-- A node that is to be freed is out of the list. -/
theorem SharedInv.notMem_of_retired (h : SharedInv g s) {a : Addr} (ha : g.retired a = some i) :
    a ∉ g.nodes := by
  intro hm
  rw [(h.node a hm).2.2.2] at ha
  cases ha

/-- A block the allocator may return is not linked, not owned and not retired. -/
theorem SharedInv.free_block (h : SharedInv g s) {a : Addr} (ha : s.live a = false) :
    a ∉ g.nodes ∧ g.owner a = none ∧ g.retired a = none := by
  refine ⟨fun hm => ?_, ?_, ?_⟩
  · rw [(h.node a hm).2.1] at ha
    cases ha
  · cases ho : g.owner a with
    | none => rfl
    | some k => rw [(h.owned a k ho).2.1] at ha; cases ha
  · cases ho : g.retired a with
    | none => rfl
    | some k => rw [h.retired a k ho] at ha; cases ha

theorem SharedInv.headSeen (h : SharedInv g s) : HeadSeen s s.head := by
  rw [HeadSeen, h.headCount, BitVec.toNat_ofNat]
  exact Nat.mod_le _ _

theorem SharedInv.tailSeen (h : SharedInv g s) : TailSeen s s.tail := by
  rw [TailSeen, h.tailCount, BitVec.toNat_ofNat]
  exact Nat.mod_le _ _

/-- The abstract queue is empty exactly when the dummy has no successor. -/
theorem SharedInv.content_nil_iff (h : SharedInv g s) :
    g.abs.content = [] ↔ s.next s.head.ptr = NULL := by
  rw [← h.list.vals_eq_nil_iff, List.map_eq_nil_iff]

/-- When `Tail` has left the dummy, the queue is not empty. -/
theorem SharedInv.next_ne_null (h : SharedInv g s) (ht : s.tail.ptr ≠ s.head.ptr) :
    s.next s.head.ptr ≠ NULL := by
  intro hn
  have hm := h.tail_mem
  rw [h.list.eq_singleton hn, List.mem_singleton] at hm
  exact ht hm

/-! ### Reading word by word -/

theorem Half.read_countLe {p : Pointer} {n : ℕ} (h : p.count.toNat ≤ n) :
    ∀ x : Half, (x.read p).CountLe n
  | .ptr => trivial
  | .count => h

theorem Torn.rest_count_le {p : Pointer} {n : ℕ} (h : p.count.toNat ≤ n) :
    ∀ {r : Torn}, r.CountLe n → (r.rest p).count.toNat ≤ n
  | .ptr _, _ => h
  | .count _, hr => hr

theorem Half.read_ptrIs {p : Pointer} {q : Addr → Prop} (h : q p.ptr) :
    ∀ x : Half, (x.read p).PtrIs q
  | .ptr => h
  | .count => trivial

theorem Torn.rest_ptr {p : Pointer} {q : Addr → Prop} (h : q p.ptr) :
    ∀ {r : Torn}, r.PtrIs q → q (r.rest p).ptr
  | .ptr _, hr => hr
  | .count _, _ => h

theorem Half.read_agrees (p : Pointer) : ∀ x : Half, (x.read p).Agrees p
  | .ptr => rfl
  | .count => rfl

theorem Torn.rest_eq {p : Pointer} : ∀ {r : Torn}, r.Agrees p → r.rest p = p
  | .ptr _, rfl => rfl
  | .count _, rfl => rfl

/-! ### Counting the changes -/

/-- A pair with the next count is another pair. -/
theorem counted_ne (p : Pointer) (a : Addr) : (⟨a, p.count + 1⟩ : Pointer) ≠ p := by
  intro e
  have hc : p.count + 1 = p.count := congrArg Pointer.count e
  simp at hc

/-- Storing a pair with the next count is a change. -/
theorem setTail_changes (s : Shared) (a : Addr) :
    (s.setTail ⟨a, s.tail.count + 1⟩).tailChanges = s.tailChanges + 1 :=
  if_neg (counted_ne _ _)

theorem setHead_changes (s : Shared) (a : Addr) :
    (s.setHead ⟨a, s.head.count + 1⟩).headChanges = s.headChanges + 1 :=
  if_neg (counted_ne _ _)

/-! ### Frames -/

/-- Nothing happens to `Head`, `Tail` and the nodes of the list. -/
theorem Evolves.frame (h : SharedInv g s) (hhead : s'.head = s.head) (htail : s'.tail = s.tail)
    (hhc : s'.headChanges = s.headChanges) (htc : s'.tailChanges = s.tailChanges)
    (hmem : ∀ a ∈ g.nodes, s'.mem a = s.mem a)
    (hused : ∀ a, s.used a = true → s'.used a = true) : Evolves s s' where
  headLe := hhc.ge
  headSame _ := hhead
  tailLe := htc.ge
  tailSame _ := htail
  tailNext _ _ := by rw [Shared.next, hmem _ h.tail_mem]; rfl
  headNext _ hn := by
    refine ⟨by rw [Shared.next, hmem _ h.list.head_mem]; rfl, ?_⟩
    rw [Shared.value, hmem _ (h.list.next_mem h.list.head_mem hn)]
    rfl
  leave _ _ := htail
  tailStay _ := by rw [htail]
  used := hused

theorem Evolves.refl (s : Shared) : Evolves s s where
  headLe := le_rfl
  headSame _ := rfl
  tailLe := le_rfl
  tailSame _ := rfl
  tailNext _ _ := rfl
  headNext _ _ := ⟨rfl, rfl⟩
  leave _ _ := rfl
  tailStay _ := rfl
  used _ hu := hu

/-- The memory and what is in use stay, and so does everything the ghost state says of thread
`j`. -/
theorem Stable.of_evolves {held : Option Addr} (hev : Evolves s s') (hmem : s'.mem = s.mem)
    (hlive : s'.live = s.live) (hop : g'.abs.op j = g.abs.op j)
    (hu : j ∈ g'.uncounted ↔ j ∈ g.uncounted) (hp : j ∈ g'.popped ↔ j ∈ g.popped)
    (hown : g'.owner = g.owner) (hret : ∀ a, g.retired a = some j → g'.retired a = some j) :
    Stable g g' s s' held j where
  evolves := hev
  op := hop
  uncounted := hu
  popped := hp
  owned a ha := ⟨by rw [hown]; exact ha, by rw [hmem]⟩
  retired := hret
  unowned a _ ha := by rw [hown]; exact ha
  linked a _ _ hl hn := by
    rw [hlive] at hl
    rw [Shared.next, hmem] at hn
    exact ⟨hl, hn⟩

/-- A step that changes no shared state, and keeps the values of the queue. -/
theorem StepOk.setAbs (h : SharedInv g s) {a : Fifo.State ℕ DataType} {e : Fifo.Event DataType}
    (hs : Fifo.step g.abs i e = some a) (hc : a.content = g.abs.content) {p' : Pc}
    (hp : ThreadInv { g with abs := a } s i p') : StepOk H g s i e s p' := by
  refine ⟨{ g with abs := a }, .step hs rfl, { h with list := ?_, count := ?_ }, hp,
    fun j hj => ?_⟩
  · rw [hc]; exact h.list
  · rw [hc]; exact h.count
  · exact .of_evolves (.refl s) rfl rfl (Fifo.op_of_ne hs hj) Iff.rfl Iff.rfl rfl fun _ ha => ha

/-- A step that changes no shared state, and whose event is silent. -/
theorem StepOk.silent (h : SharedInv g s) {p' : Pc} (hp : ThreadInv g s i p') :
    StepOk H g s i .tau s p' :=
  StepOk.setAbs h (Fifo.step_tau.mpr rfl) rfl hp

/-! ### Nodes that are not linked -/

/-- Writing a block that is not linked. -/
theorem SharedInv.write (h : SharedInv g s) {a : Addr} (ha : a ∉ g.nodes) (n : Node) :
    SharedInv g (s.write a n) := by
  have hmem : ∀ b ∈ g.nodes, (s.write a n).mem b = s.mem b := fun b hb => by
    have hba : b ≠ a := fun e => ha (e ▸ hb)
    simp [Shared.write, hba]
  have hnext : ∀ b ∈ g.nodes, (s.write a n).next b = s.next b := fun b hb => by
    rw [Shared.next, hmem b hb]; rfl
  refine { h with list := h.list.congr hnext fun b hb => ?_, tail_last := ?_, tailChanges := ?_ }
  · rw [Shared.value, hmem b hb]; rfl
  · intro hn
    have hn' : s.next s.tail.ptr ≠ NULL := by rw [← hnext _ h.tail_mem]; exact hn
    change (s.write a n).next ((s.write a n).next s.tail.ptr) = NULL
    rw [hnext _ h.tail_mem, hnext _ (h.list.next_mem h.tail_mem hn')]
    exact h.tail_last hn'
  · change s.tailChanges + (if (s.write a n).next s.tail.ptr = NULL then 1 else 2) = _
    rw [hnext _ h.tail_mem]
    exact h.tailChanges

/-- A write to a block that is not linked. -/
theorem Evolves.write (h : SharedInv g s) {a : Addr} {n : Node} (ha : a ∉ g.nodes)
    (hhead : s'.head = s.head) (htail : s'.tail = s.tail)
    (hhc : s'.headChanges = s.headChanges) (htc : s'.tailChanges = s.tailChanges)
    (hmem : s'.mem = Function.update s.mem a n)
    (hused : ∀ b, s.used b = true → s'.used b = true) : Evolves s s' := by
  refine .frame h hhead htail hhc htc (fun b hb => ?_) hused
  have hba : b ≠ a := fun e => ha (e ▸ hb)
  rw [hmem, Function.update_of_ne hba]

/-- A write to a block that thread `j` does not own, and that it is not about to compare and
swap, unless the block is not in use afterwards. -/
theorem Stable.of_write {held : Option Addr} {a : Addr} {n : Node} (hev : Evolves s s')
    (hmem : s'.mem = Function.update s.mem a n) (hop : g'.abs.op j = g.abs.op j)
    (hu : j ∈ g'.uncounted ↔ j ∈ g.uncounted) (hp : j ∈ g'.popped ↔ j ∈ g.popped)
    (hown : ∀ b, g.owner b = some j → b ≠ a ∧ g'.owner b = some j)
    (hret : ∀ b, g.retired b = some j → g'.retired b = some j)
    (hheld : ∀ b, held = some b → g.owner b = none → g'.owner b = none ∧
      (s'.live b = true → b ≠ a ∧ s.live b = true)) : Stable g g' s s' held j where
  evolves := hev
  op := hop
  uncounted := hu
  popped := hp
  owned b hb := by
    obtain ⟨hba, hb'⟩ := hown b hb
    rw [hmem]
    exact ⟨hb', Function.update_of_ne hba _ _⟩
  retired := hret
  unowned b hb ho := (hheld b hb ho).1
  linked b hb ho hl hn := by
    obtain ⟨hba, hl'⟩ := (hheld b hb ho).2 hl
    rw [Shared.next, hmem, Function.update_of_ne hba] at hn
    exact ⟨hl', hn⟩

/-- A step that writes a node its thread owns. -/
theorem StepOk.writeOwn (h : SharedInv g s) {a : Addr} (ha : g.owner a = some i) {n : Node}
    {p' : Pc} (hp : ThreadInv g (s.write a n) i p') :
    StepOk H g s i .tau (s.write a n) p' := by
  have hnn := h.notMem_of_owner ha
  refine ⟨g, .tau rfl rfl, h.write hnn n, hp, fun j hj => ?_⟩
  refine .of_write (.write h hnn rfl rfl rfl rfl rfl fun _ hu => hu) rfl rfl Iff.rfl Iff.rfl
    (fun b hb => ⟨?_, hb⟩) (fun _ hb => hb) fun b _ hb => ⟨hb, fun hl => ⟨?_, hl⟩⟩
  · rintro rfl
    exact hj (Option.some.inj (hb.symm.trans ha))
  · rintro rfl
    rw [ha] at hb
    cases hb

theorem stepOk_setValue (h : SharedInv g s) (hp : ThreadInv g s i (.enq (.setValue v node))) :
    StepOk H g s i .tau (s.write node { s.mem node with value := v })
      (.enq (.setNext v node)) := by
  obtain ⟨⟨hop, hown⟩, hu, hd⟩ := hp
  exact StepOk.writeOwn h hown ⟨⟨hop, hown, by simp [Shared.value, Shared.write]⟩, hu, hd⟩

theorem stepOk_setNext (h : SharedInv g s) (hp : ThreadInv g s i (.enq (.setNext v node))) :
    StepOk H g s i .tau
      (s.write node { s.mem node with next := ⟨NULL, (s.mem node).next.count⟩ })
      (.enq (.readTail v node)) := by
  obtain ⟨⟨hop, hown, hv⟩, hu, hd⟩ := hp
  refine StepOk.writeOwn h hown ⟨⟨hop, hown, ?_, ?_⟩, hu, hd⟩
  · simpa [Shared.value, Shared.write] using hv
  · simp [Shared.next, Shared.write]

/-- The allocator hands out the block `a` with the content `n`. -/
def Shared.alloc (s : Shared) (a : Addr) (n : Node) : Shared :=
  { s.write a n with
    live := Function.update s.live a true
    used := Function.update s.used a true
    reused := s.reused || s.used a }

/-- Thread `i` owns the block `a`. -/
def Ghost.own (g : Ghost) (i : ℕ) (a : Addr) : Ghost :=
  { g with owner := Function.update g.owner a (some i) }

theorem alloc_used (s : Shared) {a b : Addr} (n : Node) (hb : s.used b = true) :
    (s.alloc a n).used b = true := by
  by_cases hba : b = a
  · rw [hba]
    exact Function.update_self _ _ _
  · exact (Function.update_of_ne hba _ _).trans hb

theorem SharedInv.alloc (h : SharedInv g s) {a : Addr} (ha : Block a) (hl : s.live a = false)
    (n : Node) : SharedInv (g.own i a) (s.alloc a n) := by
  obtain ⟨hnn, hno, hnr⟩ := h.free_block hl
  have hlive : ∀ b, s.live b = true → b ≠ a ∧ (s.alloc a n).live b = true := by
    intro b hb
    have hba : b ≠ a := by
      rintro rfl
      rw [hl] at hb
      cases hb
    exact ⟨hba, (Function.update_of_ne hba _ _).trans hb⟩
  have howner : ∀ b, b ≠ a → (g.own i a).owner b = g.owner b := fun b hb =>
    Function.update_of_ne hb _ _
  refine { h.write hnn n with node := ?_, owned := ?_, retired := ?_, used := ?_, fresh := ?_ }
  · intro b hb
    obtain ⟨h1, h2, h3, h4⟩ := h.node b hb
    obtain ⟨hba, h2'⟩ := hlive b h2
    exact ⟨h1, h2', (howner b hba).trans h3, h4⟩
  · intro b k hb
    by_cases hba : b = a
    · subst hba
      exact ⟨ha, Function.update_self _ _ _, hnr⟩
    · obtain ⟨h1, h2, h3⟩ := h.owned b k ((howner b hba).symm.trans hb)
      exact ⟨h1, (hlive b h2).2, h3⟩
  · exact fun b k hb => (hlive b (h.retired b k hb)).2
  · intro b hb
    by_cases hba : b = a
    · rw [hba]
      exact Function.update_self _ _ _
    · exact alloc_used s n (h.used b ((Function.update_of_ne hba _ _).symm.trans hb))
  · intro hr
    obtain ⟨hr, hu⟩ := Bool.or_eq_false_iff.mp hr
    obtain ⟨hnd, hgone, hown⟩ := h.fresh hr
    refine ⟨hnd, fun b hb => ⟨(hgone b hb).1, alloc_used s n (hgone b hb).2⟩, fun b k hb hm => ?_⟩
    by_cases hba : b = a
    · -- a block that is gone has been used before
      have hused := (hgone b hm).2
      rw [hba, hu] at hused
      cases hused
    · exact hown b k ((howner b hba).symm.trans hb) hm

/-- Here the assumption on the allocator is needed: no other thread is about to compare and
swap the block. -/
theorem Stable.alloc (h : SharedInv g s) {a : Addr} (hl : s.live a = false) {held : Option Addr}
    (hheld : held ≠ some a) (n : Node) : Stable g (g.own i a) s (s.alloc a n) held j := by
  obtain ⟨hnn, hno, -⟩ := h.free_block hl
  refine .of_write (.write h hnn rfl rfl rfl rfl rfl fun _ => alloc_used s n) rfl rfl Iff.rfl
    Iff.rfl (fun b hb => ?_) (fun _ hb => hb) fun b hb ho => ?_
  · have hba : b ≠ a := by
      rintro rfl
      rw [hno] at hb
      cases hb
    exact ⟨hba, (Function.update_of_ne hba _ _).trans hb⟩
  · have hba : b ≠ a := fun e => hheld (e ▸ hb)
    exact ⟨(Function.update_of_ne hba _ _).trans ho,
      fun hl => ⟨hba, (Function.update_of_ne hba _ _).symm.trans hl⟩⟩

/-- The block is handed out to thread `i`. -/
theorem stepOk_newNode (h : SharedInv g s) (hp : ThreadInv g s i (.enq (.newNode v))) {a : Addr}
    (ha : Block a) (hl : s.live a = false) (hH : ∀ j, H j ≠ some a) (n : Node) :
    StepOk H g s i .tau (s.alloc a n) (.enq (.setValue v a)) := by
  obtain ⟨hop, hu, hd⟩ := hp
  exact ⟨g.own i a, .tau rfl rfl, h.alloc ha hl n,
    ⟨⟨hop, Function.update_self _ _ _⟩, hu, hd⟩, fun j _ => .alloc h hl (hH j) n⟩

/-! ### The link -/

/-- The node `a` gets the successor `node`. -/
def Shared.link (s : Shared) (a node : Addr) (c : BitVec 64) : Shared :=
  s.write a { s.mem a with next := ⟨node, c⟩ }

theorem link_next (s : Shared) (a node : Addr) (c : BitVec 64) :
    (s.link a node c).next = Function.update s.next a node := by
  funext b
  by_cases hb : b = a
  · subst hb
    simp [Shared.link, Shared.next, Shared.write]
  · simp [Shared.link, Shared.next, Shared.write, hb]

theorem link_value (s : Shared) (a node : Addr) (c : BitVec 64) :
    (s.link a node c).value = s.value := by
  funext b
  by_cases hb : b = a
  · subst hb
    simp [Shared.link, Shared.value, Shared.write]
  · simp [Shared.link, Shared.value, Shared.write, hb]

/-- Thread `i` has linked its node, which is not counted yet. -/
def Ghost.link (g : Ghost) (i : ℕ) (node : Addr) (a : Fifo.State ℕ DataType) : Ghost :=
  { g with
    nodes := g.nodes ++ [node]
    owner := Function.update g.owner node none
    uncounted := insert i g.uncounted
    abs := a }

/-- The list with an owned node behind the last one. -/
theorem SharedInv.link_list (h : SharedInv g s) (hown : g.owner node = some i)
    (hnn : s.next node = NULL) {a : Addr} (ha : a ∈ g.nodes) (hlast : s.next a = NULL)
    (c : BitVec 64) :
    DummyList (s.link a node c).next s.value NULL s.head.ptr (g.nodes ++ [node])
      (g.abs.content.map (·.value) ++ [s.value node]) := by
  rw [link_next]
  exact h.list.push (h.list.getLast ha hlast) (h.notMem_of_owner hown) hnn
    (h.owned node i hown).1.1 (Function.update_self _ _ _) fun b hb => Function.update_of_ne hb _ _

/-- Linking an owned node behind the last one. -/
theorem SharedInv.link (h : SharedInv g s) (hown : g.owner node = some i)
    (hnn : s.next node = NULL) (hlast : s.next s.tail.ptr = NULL) (hiu : i ∉ g.uncounted)
    {a : Fifo.State ℕ DataType} {e : Fifo.Entry ℕ DataType}
    (hc : a.content = g.abs.content ++ [e]) (he : e.value = s.value node) (c : BitVec 64) :
    SharedInv (g.link i node a) (s.link s.tail.ptr node c) := by
  have hnm := h.notMem_of_owner hown
  obtain ⟨hnb, hnl, hnr⟩ := h.owned node i hown
  have htail : (s.link s.tail.ptr node c).next s.tail.ptr = node := by
    rw [link_next, Function.update_self]
  have howner : ∀ b, b ≠ node → (g.link i node a).owner b = g.owner b := fun b hb =>
    Function.update_of_ne hb _ _
  have hnone : (g.link i node a).owner node = none := Function.update_self _ _ _
  have howned : ∀ b k, (g.link i node a).owner b = some k → g.owner b = some k := by
    intro b k hb
    by_cases hbn : b = node
    · rw [hbn, hnone] at hb
      cases hb
    · exact (howner b hbn).symm.trans hb
  refine { h with list := ?_, node := ?_, owned := ?_, tail_mem := ?_, tail_last := ?_,
                  tailChanges := ?_, fresh := ?_, count := ?_ }
  · rw [link_value]
    change DummyList _ _ _ _ _ (a.content.map (·.value))
    rw [hc, List.map_append, List.map_singleton, he]
    exact h.link_list hown hnn h.tail_mem hlast c
  · intro b hb
    rcases List.mem_append.mp hb with hb | hb
    · obtain ⟨h1, h2, h3, h4⟩ := h.node b hb
      exact ⟨h1, h2, (howner b fun e => hnm (e ▸ hb)).trans h3, h4⟩
    · obtain rfl := List.mem_singleton.mp hb
      exact ⟨hnb, hnl, hnone, hnr⟩
  · exact fun b k hb => h.owned b k (howned b k hb)
  · exact List.mem_append_left _ h.tail_mem
  · intro _
    change (s.link s.tail.ptr node c).next ((s.link s.tail.ptr node c).next s.tail.ptr) = NULL
    have hnt : node ≠ s.tail.ptr := fun e => hnm (e ▸ h.tail_mem)
    rw [htail, link_next, Function.update_of_ne hnt]
    exact hnn
  · -- `Tail` was at the last node and is one behind now
    have hch := h.tailChanges
    rw [if_pos hlast] at hch
    change s.tailChanges + (if (s.link s.tail.ptr node c).next s.tail.ptr = NULL then 1 else 2) =
      g.gone.length + (g.nodes ++ [node]).length
    rw [htail, if_neg hnb.1, List.length_append, List.length_singleton]
    omega
  · intro hr
    obtain ⟨hnd, hgone, ho⟩ := h.fresh hr
    refine ⟨?_, hgone, fun b k hb => ho b k (howned b k hb)⟩
    change (g.gone ++ (g.nodes ++ [node])).Nodup
    rw [← List.append_assoc]
    refine List.nodup_append.mpr ⟨hnd, List.nodup_singleton _, fun b hb x hx hbx => ?_⟩
    rw [List.mem_singleton.mp hx] at hbx
    subst hbx
    exact (List.mem_append.mp hb).elim (ho b i hown) hnm
  · change s.count =
      BitVec.ofInt 64 (a.content.length + g.lost - (insert i g.uncounted).card + g.popped.card)
    rw [h.count, Finset.card_insert_of_notMem hiu, hc, List.length_append, List.length_singleton]
    congr 1
    omega

theorem Evolves.link (hlast : s.next s.tail.ptr = NULL) (node : Addr) (c : BitVec 64) :
    Evolves s (s.link s.tail.ptr node c) where
  headLe := le_rfl
  headSame _ := rfl
  tailLe := le_rfl
  tailSame _ := rfl
  tailNext _ hn := absurd hlast hn
  headNext _ hn := by
    -- the dummy has a successor, so it is not the node that is swapped
    have hne : s.head.ptr ≠ s.tail.ptr := fun e => hn (e ▸ hlast)
    rw [link_next, link_value, Function.update_of_ne hne]
    exact ⟨rfl, rfl⟩
  leave _ _ := rfl
  tailStay _ := rfl
  used _ hu := hu

theorem Stable.link (h : SharedInv g s) (hown : g.owner node = some i)
    (hlast : s.next s.tail.ptr = NULL) {a : Fifo.State ℕ DataType} (hop : a.op j = g.abs.op j)
    (hj : j ≠ i) (c : BitVec 64) {held : Option Addr} :
    Stable g (g.link i node a) s (s.link s.tail.ptr node c) held j where
  evolves := .link hlast node c
  op := hop
  uncounted := by simp [Ghost.link, hj]
  popped := Iff.rfl
  owned b hb := by
    have hbn : b ≠ node := by
      rintro rfl
      exact hj (Option.some.inj (hb.symm.trans hown))
    have hbt : b ≠ s.tail.ptr := fun e => h.notMem_of_owner hb (e ▸ h.tail_mem)
    exact ⟨(Function.update_of_ne hbn _ _).trans hb, Function.update_of_ne hbt _ _⟩
  retired _ hb := hb
  unowned b _ hb := by
    by_cases hbn : b = node
    · rw [hbn]
      exact Function.update_self _ _ _
    · exact (Function.update_of_ne hbn _ _).trans hb
  linked b _ _ hl hn := by
    rw [link_next] at hn
    by_cases hbt : b = s.tail.ptr
    · rw [hbt, Function.update_self] at hn
      exact absurd hn (h.owned node i hown).1.1
    · rw [Function.update_of_ne hbt] at hn
      exact ⟨hl, hn⟩

/-- Thread `i` has linked its node behind a block that was freed, and not counted it yet. -/
def Ghost.lose (g : Ghost) (i : ℕ) : Ghost :=
  { g with
    uncounted := insert i g.uncounted
    lost := g.lost + 1
    abs := g.abs.lose i }

/-- Linking a node behind a block that was freed. -/
theorem SharedInv.lose (h : SharedInv g s) {a : Addr} (ha : s.live a = false)
    (hiu : i ∉ g.uncounted) (c : BitVec 64) : SharedInv (g.lose i) (s.link a node c) := by
  refine { h.write (h.free_block ha).1 _ with count := ?_ }
  change s.count = BitVec.ofInt 64
    (g.abs.content.length + (g.lost + 1 : ℕ) - (insert i g.uncounted).card + g.popped.card)
  rw [h.count, Finset.card_insert_of_notMem hiu]
  congr 1
  omega

/-- Nobody has the block in the list or in its hands. -/
theorem Stable.lose (h : SharedInv g s) {a : Addr} (ha : s.live a = false) (hj : j ≠ i)
    (c : BitVec 64) {held : Option Addr} :
    Stable g (g.lose i) s (s.link a node c) held j := by
  obtain ⟨hnn, hno, -⟩ := h.free_block ha
  refine .of_write (.write h hnn rfl rfl rfl rfl rfl fun _ hu => hu) rfl
    (Function.update_of_ne hj _ _) (by simp [Ghost.lose, hj]) Iff.rfl (fun b hb => ⟨?_, hb⟩)
    (fun _ hb => hb) fun b _ ho => ⟨ho, fun hl => ⟨?_, hl⟩⟩
  · rintro rfl
    rw [hno] at hb
    cases hb
  · rintro rfl
    rw [show s.live b = true from hl] at ha
    cases ha

/-- The compare-and-swap of line 161 succeeds.  If the block it swaps is in use, it is the last
node, and the value enters the queue; if not, the value is lost. -/
theorem stepOk_link (h : SharedInv g s) (hp : ThreadInv g s i (.enq (.link v node tail next)))
    (hHi : H i = some tail.ptr) (heq : (s.mem tail.ptr).next = next) (c : BitVec 64) :
    StepOk H g s i (.append v) (s.link tail.ptr node c) (.enq (.swing node tail)) := by
  obtain ⟨⟨⟨hop, hown, hv, hnn⟩, hts, hnull, -, -, hlk⟩, hu, hd⟩ := hp
  have hiu : i ∉ g.uncounted := fun hm => Bool.false_ne_true (hu.mp hm)
  have hok : AdvanceOk (s.link tail.ptr node c) tail node :=
    ⟨(h.owned node i hown).1.1, fun _ => by rw [link_next, Function.update_self]⟩
  cases hlive : s.live tail.ptr with
  | false =>
    refine ⟨g.lose i, .lose v tail.ptr hHi hlive rfl hop rfl rfl, h.lose hlive hiu c,
      ⟨⟨Function.update_self _ _ _, hts, hok⟩, ?_, hd⟩, fun j hj => .lose h hlive hj c⟩
    exact iff_of_true (Finset.mem_insert_self _ _) rfl
  | true =>
    have hlast : s.next tail.ptr = NULL := by rw [Shared.next, heq]; exact hnull
    have htail := hlk hlive hlast
    refine ⟨g.link i node _, .step (Fifo.step_append.mpr ⟨hop, rfl⟩) rfl, ?_,
      ⟨⟨Function.update_self _ _ _, hts, hok⟩, ?_, hd⟩, fun j hj => ?_⟩
    · rw [← htail] at hlast ⊢
      exact h.link hown hnn hlast hiu rfl hv.symm c
    · exact iff_of_true (Finset.mem_insert_self _ _) rfl
    · rw [← htail] at hlast ⊢
      exact .link h hown hlast (Function.update_of_ne hj _ _) hj c

/-! ### Moving `Tail` -/

theorem SharedInv.advance (h : SharedInv g s) (hn : s.next s.tail.ptr ≠ NULL) :
    SharedInv g (s.setTail ⟨s.next s.tail.ptr, s.tail.count + 1⟩) := by
  have hnext : s.next (s.next s.tail.ptr) = NULL := h.tail_last hn
  refine { h with tail_mem := h.list.next_mem h.tail_mem hn, tail_last := ?_, tailCount := ?_,
                  tailChanges := ?_ }
  · exact fun hx => absurd hnext hx
  · rw [setTail_changes, BitVec.ofNat_add, ← h.tailCount]
    rfl
  · have hc := h.tailChanges
    rw [if_neg hn] at hc
    rw [setTail_changes]
    change s.tailChanges + 1 + (if s.next (s.next s.tail.ptr) = NULL then 1 else 2) = _
    rw [if_pos hnext]
    omega

theorem Evolves.advance (h : SharedInv g s) (hn : s.next s.tail.ptr ≠ NULL) :
    Evolves s (s.setTail ⟨s.next s.tail.ptr, s.tail.count + 1⟩) where
  headLe := le_rfl
  headSame _ := rfl
  tailLe := by rw [setTail_changes]; omega
  tailSame hx := by rw [setTail_changes] at hx; omega
  tailNext _ _ := rfl
  headNext _ _ := ⟨rfl, rfl⟩
  leave _ hx := absurd hx (h.list.next_ne_head h.tail_mem)
  tailStay hx := absurd hx hn
  used _ hu := hu

/-- A compare-and-swap that moves `Tail` from `tail` to `a`, or fails. -/
theorem StepOk.advance (h : SharedInv g s) {a : Addr} (ha : AdvanceOk s tail a) {p' : Pc}
    (hp : ThreadInv g s i p')
    (hp' : ThreadInv g (s.setTail ⟨a, tail.count + 1⟩) i p') :
    StepOk H g s i .tau (casTail s tail ⟨a, tail.count + 1⟩).1 p' := by
  by_cases heq : s.tail = tail
  · obtain ⟨hn, ha⟩ := ha
    rw [casTail_of_eq heq]
    subst heq
    obtain rfl := ha rfl
    refine ⟨g, .tau rfl rfl, h.advance hn, hp', fun j _ => ?_⟩
    exact .of_evolves (.advance h hn) rfl rfl rfl Iff.rfl Iff.rfl rfl fun _ hx => hx
  · rw [casTail_of_ne heq]
    exact StepOk.silent h hp

/-! ### Moving `Head` -/

/-- Thread `i` has unlinked the dummy and not counted down; the nodes `l` are left. -/
def Ghost.pop (g : Ghost) (i : ℕ) (dummy : Addr) (l : List Addr) (a : Fifo.State ℕ DataType) :
    Ghost :=
  { g with
    gone := g.gone ++ [dummy]
    nodes := l
    retired := Function.update g.retired dummy (some i)
    popped := insert i g.popped
    abs := a }

/-- Unlinking the dummy when `Tail` has left it. -/
theorem SharedInv.pop (h : SharedInv g s) (ht : s.tail.ptr ≠ s.head.ptr) (hip : i ∉ g.popped)
    {l : List Addr} (hl : g.nodes = s.head.ptr :: l) {a : Fifo.State ℕ DataType}
    {e : Fifo.Entry ℕ DataType} (hc : g.abs.content = e :: a.content)
    (hlist : DummyList s.next s.value NULL (s.next s.head.ptr) l (a.content.map (·.value))) :
    SharedInv (g.pop i s.head.ptr l a) (s.setHead ⟨s.next s.head.ptr, s.head.count + 1⟩) := by
  obtain ⟨hhb, hhl, -⟩ := h.node _ h.list.head_mem
  have hnm : s.head.ptr ∉ l := by
    have hnd := h.list.nodup
    rw [hl] at hnd
    exact (List.nodup_cons.mp hnd).1
  have howner : ∀ b k, g.owner b = some k → b ≠ s.head.ptr := fun b k hb e =>
    h.notMem_of_owner hb (e ▸ h.list.head_mem)
  have hretired : ∀ b, b ≠ s.head.ptr → (g.pop i s.head.ptr l a).retired b = g.retired b :=
    fun b hb => Function.update_of_ne hb _ _
  refine { h with list := hlist, node := ?_, owned := ?_, retired := ?_, tail_mem := ?_,
                  headCount := ?_, headChanges := ?_, tailChanges := ?_, fresh := ?_,
                  count := ?_ }
  · intro b hb
    obtain ⟨h1, h2, h3, h4⟩ := h.node b (hl ▸ List.mem_cons_of_mem _ hb)
    exact ⟨h1, h2, h3, (hretired b fun e => hnm (e ▸ hb)).trans h4⟩
  · intro b k hb
    obtain ⟨h1, h2, h3⟩ := h.owned b k hb
    exact ⟨h1, h2, (hretired b (howner b k hb)).trans h3⟩
  · intro b k hb
    by_cases hbh : b = s.head.ptr
    · rw [hbh]
      exact hhl
    · exact h.retired b k ((hretired b hbh).symm.trans hb)
  · have htm := h.tail_mem
    rw [hl] at htm
    exact (List.mem_cons.mp htm).resolve_left ht
  · rw [setHead_changes, BitVec.ofNat_add, ← h.headCount]
    rfl
  · change _ = (g.gone ++ [s.head.ptr]).length
    rw [setHead_changes, h.headChanges, List.length_append, List.length_singleton]
  · have hch := h.tailChanges
    rw [hl, List.length_cons] at hch
    change s.tailChanges + (if s.next s.tail.ptr = NULL then 1 else 2) =
      (g.gone ++ [s.head.ptr]).length + l.length
    rw [List.length_append, List.length_singleton]
    omega
  · intro hr
    obtain ⟨hnd, hgone, ho⟩ := h.fresh hr
    refine ⟨?_, fun b hb => ?_, fun b k hb hm => ?_⟩
    · -- together they are the same nodes as before
      rw [hl, List.append_cons] at hnd
      exact hnd
    · rcases List.mem_append.mp hb with hb | hb
      · exact hgone b hb
      · rw [List.mem_singleton.mp hb]
        exact ⟨hhb, h.used _ hhl⟩
    · rcases List.mem_append.mp hm with hm | hm
      · exact ho b k hb hm
      · exact howner b k hb (List.mem_singleton.mp hm)
  · change s.count =
      BitVec.ofInt 64 (a.content.length + g.lost - g.uncounted.card + (insert i g.popped).card)
    rw [h.count, Finset.card_insert_of_notMem hip, hc, List.length_cons]
    congr 1
    omega

theorem Evolves.pop (s : Shared) (b : Addr) :
    Evolves s (s.setHead ⟨b, s.head.count + 1⟩) where
  headLe := by rw [setHead_changes]; omega
  headSame hx := by rw [setHead_changes] at hx; omega
  tailLe := le_rfl
  tailSame _ := rfl
  tailNext _ _ := rfl
  headNext _ _ := ⟨rfl, rfl⟩
  leave _ _ := rfl
  tailStay _ := rfl
  used _ hu := hu

/-- The compare-and-swap of line 204 succeeds: the first value leaves the queue. -/
theorem stepOk_pop (h : SharedInv g s) (hp : ThreadInv g s i (.deq (.swing head next v)))
    (heq : s.head = head) :
    StepOk H g s i (.remove v) (s.setHead ⟨next.ptr, head.count + 1⟩) (.deq (.free head v)) := by
  obtain ⟨⟨⟨w, hop⟩, -, hpop, hv⟩, hu, hd⟩ := hp
  obtain ⟨hn, hnext, ht⟩ := hpop heq
  replace hv := hv heq
  subst heq
  rw [hnext] at hn hv ⊢
  obtain ⟨l, vs, hl, hvals, -, hlist⟩ := h.list.front hn
  -- the first value of the list is the first one of the abstract queue
  obtain ⟨e, rest, hcont, hev, rfl⟩ := List.map_eq_cons_iff.mp hvals
  have hip : i ∉ g.popped := fun hm => Bool.false_ne_true (hd.mp hm)
  refine ⟨g.pop i s.head.ptr (s.next s.head.ptr :: l) _,
    .step (Fifo.step_remove.mpr ⟨w, e, rest, hop, hcont, hev.trans hv, rfl⟩) rfl, ?_,
    ⟨⟨?_, ?_⟩, hu, ?_⟩, fun j hj => ?_⟩
  · exact h.pop ht hip hl hcont hlist
  · exact Function.update_self _ _ _
  · exact Function.update_self _ _ _
  · exact iff_of_true (Finset.mem_insert_self _ _) rfl
  · refine .of_evolves (.pop s _) rfl rfl (Function.update_of_ne hj _ _) Iff.rfl
      (by simp [Ghost.pop, hj]) rfl fun a ha => ?_
    have hah : a ≠ s.head.ptr := fun e => h.notMem_of_retired ha (e ▸ h.list.head_mem)
    exact (Function.update_of_ne hah _ _).trans ha

/-- The block `a` is free, and the allocator leaves `n` in it. -/
def Shared.free (s : Shared) (a : Addr) (n : Node) : Shared :=
  { s.write a n with live := Function.update s.live a false }

theorem free_live {a b : Addr} {n : Node} (hb : (s.free a n).live b = true) :
    b ≠ a ∧ s.live b = true := by
  have hba : b ≠ a := by
    rintro rfl
    rw [show (s.free b n).live b = false from Function.update_self _ _ _] at hb
    cases hb
  exact ⟨hba, (Function.update_of_ne hba _ _).symm.trans hb⟩

/-- Nobody has unlinked the node `a` that is not freed yet. -/
def Ghost.free (g : Ghost) (a : Addr) : Ghost :=
  { g with retired := Function.update g.retired a none }

theorem SharedInv.free (h : SharedInv g s) {a : Addr} (ha : g.retired a = some i) (n : Node) :
    SharedInv (g.free a) (s.free a n) := by
  have hne : ∀ b, g.retired b = none → b ≠ a := by
    rintro b hb rfl
    rw [ha] at hb
    cases hb
  have hlive : ∀ b, b ≠ a → s.live b = true → (s.free a n).live b = true := fun b hba hb =>
    (Function.update_of_ne hba _ _).trans hb
  have hret : ∀ b, b ≠ a → (g.free a).retired b = g.retired b := fun b hba =>
    Function.update_of_ne hba _ _
  refine { h.write (h.notMem_of_retired ha) n with node := ?_, owned := ?_, retired := ?_,
                                                   used := ?_ }
  · intro b hb
    obtain ⟨h1, h2, h3, h4⟩ := h.node b hb
    exact ⟨h1, hlive b (hne b h4) h2, h3, (hret b (hne b h4)).trans h4⟩
  · intro b k hb
    obtain ⟨h1, h2, h3⟩ := h.owned b k hb
    exact ⟨h1, hlive b (hne b h3) h2, (hret b (hne b h3)).trans h3⟩
  · intro b k hb
    by_cases hba : b = a
    · rw [hba, show (g.free a).retired a = none from Function.update_self _ _ _] at hb
      cases hb
    · exact hlive b hba (h.retired b k ((hret b hba).symm.trans hb))
  · exact fun b hb => h.used b (free_live hb).2

/-- A thread that is about to compare and swap the block no longer knows anything of it. -/
theorem Stable.free (h : SharedInv g s) {a : Addr} (ha : g.retired a = some i) (hj : j ≠ i)
    (n : Node) {held : Option Addr} : Stable g (g.free a) s (s.free a n) held j := by
  refine .of_write (.write h (h.notMem_of_retired ha) rfl rfl rfl rfl rfl fun _ hu => hu) rfl rfl
    Iff.rfl Iff.rfl (fun b hb => ⟨?_, hb⟩) (fun b hb => ?_) fun b _ ho => ⟨ho, free_live⟩
  · rintro rfl
    rw [(h.owned b j hb).2.2] at ha
    cases ha
  · have hba : b ≠ a := by
      rintro rfl
      exact hj (Option.some.inj (hb.symm.trans ha))
    exact (Function.update_of_ne hba _ _).trans hb

/-- The old dummy is freed by the thread that unlinked it. -/
theorem stepOk_free (h : SharedInv g s) (hp : ThreadInv g s i (.deq (.free head v))) (n : Node) :
    StepOk H g s i .tau (s.free head.ptr n) (.deq (.decCount v)) := by
  obtain ⟨⟨hop, hret⟩, hu, hd⟩ := hp
  exact ⟨g.free head.ptr, .tau rfl rfl, h.free hret n, ⟨hop, hu, hd⟩,
    fun j hj => .free h hret hj n⟩

/-! ### The counter -/

theorem stepOk_incCount (h : SharedInv g s) (hp : ThreadInv g s i (.enq .incCount)) :
    StepOk H g s i .tau { s with count := atomicIncq s.count } (.enq .sigmaskRes) := by
  obtain ⟨hop, hu, hd⟩ := hp
  have hcard := Finset.card_erase_add_one (hu.mpr rfl)
  refine ⟨{ g with uncounted := g.uncounted.erase i }, .tau rfl rfl,
    { h with count := ?_ }, ⟨hop, iff_of_false (by simp) Bool.false_ne_true, hd⟩, fun j hj => ?_⟩
  · simp only [h.count, atomicIncq_ofInt, ← hcard]
    congr 1
    omega
  · exact .of_evolves (.frame h rfl rfl rfl rfl (fun _ _ => rfl) fun _ hx => hx) rfl rfl rfl
      (by simp [hj]) Iff.rfl rfl fun _ ha => ha

theorem stepOk_decCount (h : SharedInv g s) (hp : ThreadInv g s i (.deq (.decCount v))) :
    StepOk H g s i .tau { s with count := atomicDecq s.count } (.deq (.sigmaskRes v)) := by
  obtain ⟨hop, hu, hd⟩ := hp
  have hcard := Finset.card_erase_add_one (hd.mpr rfl)
  refine ⟨{ g with popped := g.popped.erase i }, .tau rfl rfl, { h with count := ?_ },
    ⟨hop, hu, iff_of_false (by simp) Bool.false_ne_true⟩, fun j hj => ?_⟩
  · simp only [h.count, atomicDecq_ofInt, ← hcard]
    congr 1
    omega
  · exact .of_evolves (.frame h rfl rfl rfl rfl (fun _ _ => rfl) fun _ hx => hx) rfl rfl rfl
      Iff.rfl (by simp [hj]) rfl fun _ ha => ha

end Coremu.MsQueue

import Coremu.LockQueue.Invariant

/-!
# Every step of the lock-based queue keeps the invariant

One lemma for each access of `enqueue` and `dequeue`: the shared invariant holds
after it, the thread that made it is at its next program point, no other thread
notices, and the abstract queue makes the same event.
-/

namespace Coremu.LockQueue

open Linked

variable {c : ℕ} {g g' : Ghost} {s s' : Shared} {i j : ℕ}

/-- The step to `(s', p')` with event `e` is matched by the ghost state. -/
def StepOk (c : ℕ) (g : Ghost) (s : Shared) (i : ℕ) (e : Fifo.Event DataType) (s' : Shared)
    (p' : Pc) : Prop :=
  ∃ g', Fifo.step g.abs i e = some g'.abs ∧ SharedInv g' s' ∧ ThreadInv c g' s' i p' ∧
    ∀ j, j ≠ i → Stable c g g' s s' j

/-! ### Consequences of the invariant -/

/-- An owned node is not linked. -/
theorem SharedInv.notMem_of_owner (h : SharedInv g s) {a : Addr} (ha : g.owner a = some i) :
    a ∉ g.nodes := by
  intro hm
  rw [(h.node a hm).2.2] at ha
  cases ha

/-- A block the allocator may return is neither linked nor owned. -/
theorem SharedInv.fresh (h : SharedInv g s) {a : Addr} (ha : s.live a = false) :
    a ∉ g.nodes ∧ g.owner a = none := by
  refine ⟨fun hm => ?_, ?_⟩
  · rw [(h.node a hm).2.1] at ha
    cases ha
  · cases ho : g.owner a with
    | none => rfl
    | some k =>
      rw [(h.owned a k ho).2] at ha
      cases ha

/-- Nobody holds a lock that is free. -/
theorem SharedInv.holder_none (h : SharedInv g s) (hl : s.tLock = 0) : g.holder = none := by
  have hlock := h.lock
  rw [hl] at hlock
  cases hg : g.holder with
  | none => rfl
  | some k =>
    rw [hg] at hlock
    cases hlock

/-- The abstract queue is empty exactly when the dummy has no successor. -/
theorem SharedInv.content_nil_iff (h : SharedInv g s) :
    g.abs.content = [] ↔ s.next s.head = NULL := by
  rw [← h.list.vals_eq_nil_iff, List.map_eq_nil_iff]

/-! ### Frames -/

/-- Writing a block that is not linked. -/
theorem SharedInv.write (h : SharedInv g s) {a : Addr} (ha : a ∉ g.nodes) (n : Node) :
    SharedInv g (s.write a n) := by
  have hne : ∀ b ∈ g.nodes, b ≠ a := fun b hb e => ha (e ▸ hb)
  refine { h with list := h.list.congr (fun b hb => ?_) fun b hb => ?_ }
  · simp [Shared.next, Shared.write, hne b hb]
  · simp [Shared.value, Shared.write, hne b hb]

/-- A change of the abstract queue that keeps its values. -/
theorem SharedInv.setAbs (h : SharedInv g s) {a : Fifo.State ℕ DataType}
    (hc : a.content = g.abs.content)
    (hf : ∀ k, g.holder = some k → a.finished k = g.abs.finished k) :
    SharedInv { g with abs := a } s := by
  refine { h with list := ?_, last := ?_, count := ?_ }
  · rw [hc]; exact h.list
  · intro k hk hu e he
    rw [hc] at he
    obtain ⟨h1, h2⟩ := h.last k hk hu e he
    exact ⟨h1, h2.trans (hf k hk).symm⟩
  · rw [hc]; exact h.count

/-- Nothing but the operation of thread `i` changes. -/
theorem Stable.setAbs {a : Fifo.State ℕ DataType} {e : Fifo.Event DataType}
    (hs : Fifo.step g.abs i e = some a) : ∀ j, j ≠ i → Stable c g { g with abs := a } s s j := by
  intro j hj
  refine ⟨Fifo.op_of_ne hs hj, Iff.rfl, fun _ => ⟨rfl, rfl, rfl, rfl⟩, fun b hb => ⟨hb, rfl⟩, ?_⟩
  intro _
  exact ⟨rfl, rfl, fun a b l hl => ⟨⟨l, hl⟩, rfl⟩, fun b h1 h2 h3 => ⟨h1, h2, h3⟩⟩

/-- No other thread notices a write to a node that thread `i` owns. -/
theorem Stable.write (h : SharedInv g s) {a : Addr} (ha : g.owner a = some i) (n : Node) :
    ∀ j, j ≠ i → Stable c g g s (s.write a n) j := by
  intro j hj
  refine ⟨rfl, Iff.rfl, fun _ => ⟨rfl, rfl, rfl, rfl⟩, ?_, ?_⟩
  · intro b hb
    have hba : b ≠ a := by
      rintro rfl
      rw [ha, Option.some.injEq] at hb
      exact hj hb.symm
    exact ⟨hb, by simp [Shared.write, hba]⟩
  · refine fun _ => ⟨rfl, rfl, fun x b l hl => ⟨⟨l, hl⟩, ?_⟩, fun b h1 h2 h3 => ⟨h1, h2, h3⟩⟩
    have hba : b ≠ a := by
      rintro rfl
      exact h.notMem_of_owner ha (by rw [hl]; simp)
    simp [Shared.write, hba]

/-- What a thread does to the lock, to `Tail` and to the counter while it has the lock, or
when it takes it or gives it back, is not noticed by one that does not have it. -/
theorem Stable.outside (hne : g.holder ≠ some j) (hne' : g'.holder ≠ some j)
    (habs : g'.abs = g.abs) (hnodes : g'.nodes = g.nodes) (howner : g'.owner = g.owner)
    (hpopped : g'.popped = g.popped) (hmem : s'.mem = s.mem) (hhead : s'.head = s.head)
    (hlive : s'.live = s.live) : Stable c g g' s s' j where
  op := by rw [habs]
  holder := iff_of_false hne' hne
  locked hj := absurd hj hne
  owned a ha := ⟨by rw [howner]; exact ha, by rw [hmem]⟩
  front _ := by
    rw [hpopped, hhead, hnodes, howner, hlive, hmem]
    exact ⟨rfl, rfl, fun a b l hl => ⟨⟨l, hl⟩, rfl⟩, fun a h1 h2 h3 => ⟨h1, h2, h3⟩⟩

/-- Only one thread has the lock. -/
theorem holder_ne (h : g.holder = some i) (hj : j ≠ i) : g.holder ≠ some j := fun e =>
  hj (Option.some.inj (e.symm.trans h))

/-- A step that changes no shared state, and keeps the values of the queue. -/
theorem StepOk.setAbs (h : SharedInv g s) {a : Fifo.State ℕ DataType}
    {e : Fifo.Event DataType} (hs : Fifo.step g.abs i e = some a)
    (hc : a.content = g.abs.content)
    (hf : ∀ k, g.holder = some k → a.finished k = g.abs.finished k) {p' : Pc}
    (hp : ThreadInv c { g with abs := a } s i p') : StepOk c g s i e s p' :=
  ⟨_, hs, h.setAbs hc hf, hp, Stable.setAbs hs⟩

/-- A step that changes no shared state, and whose event is silent. -/
theorem StepOk.silent (h : SharedInv g s) {p' : Pc} (hp : ThreadInv c g s i p') :
    StepOk c g s i .tau s p' :=
  StepOk.setAbs h (Fifo.step_tau.mpr rfl) rfl (fun _ _ => rfl) hp

/-- A step that writes a node its thread owns. -/
theorem StepOk.writeOwn (h : SharedInv g s) {a : Addr} (ha : g.owner a = some i) {n : Node}
    {p' : Pc} (hp : ThreadInv c g (s.write a n) i p') :
    StepOk c g s i .tau (s.write a n) p' :=
  ⟨g, Fifo.step_tau.mpr rfl, h.write (h.notMem_of_owner ha) n, hp, Stable.write h ha n⟩

/-! ### The accesses of `enqueue` -/

theorem stepOk_callEnq (h : SharedInv g s) (hp : ThreadInv c g s i .idle) (v : DataType) :
    StepOk c g s i (.callEnq v) s (.enq (.newNode v)) := by
  obtain ⟨ho, hh, hc⟩ := hp
  refine StepOk.setAbs h (Fifo.step_callEnq.mpr ⟨ho, rfl⟩) rfl (fun _ _ => rfl) ?_
  exact ⟨by simp [EnqInv], iff_of_false Bool.false_ne_true hh, hc⟩

theorem stepOk_newNode (h : SharedInv g s) {v : DataType}
    (hp : ThreadInv c g s i (.enq (.newNode v))) {a : Addr} (ha : Block a)
    (hl : s.live a = false) :
    StepOk c g s i .tau { s.write a ⟨NULL, 0⟩ with live := Function.update s.live a true }
      (.enq (.setValue v a)) := by
  obtain ⟨ho, hh, hc⟩ := hp
  obtain ⟨han, hao⟩ := h.fresh hl
  have hne : ∀ b, s.live b = true → b ≠ a := by
    rintro b hb rfl
    rw [hl] at hb
    cases hb
  refine ⟨{ g with owner := Function.update g.owner a (some i) }, Fifo.step_tau.mpr rfl, ?_, ?_, ?_⟩
  · have hw := h.write han ⟨NULL, 0⟩
    refine { hw with node := ?_, owned := ?_ }
    · intro b hb
      obtain ⟨h1, h2, h3⟩ := h.node b hb
      have hba := hne b h2
      exact ⟨h1, by simp [hba, h2], by simp [hba, h3]⟩
    · intro b k hb
      by_cases hba : b = a
      · subst hba
        exact ⟨ha, by simp⟩
      · simp only [Function.update_of_ne hba] at hb
        obtain ⟨h1, h2⟩ := h.owned b k hb
        exact ⟨h1, by simp [hba, h2]⟩
  · exact ⟨⟨ho, by simp, by simp, by simp⟩, hh, hc⟩
  · intro j hj
    refine ⟨rfl, Iff.rfl, fun _ => ⟨rfl, rfl, rfl, rfl⟩, fun b hb => ?_, fun _ => ?_⟩
    · have hba := hne b (h.owned b j hb).2
      exact ⟨by simp [hba, hb], by simp [Shared.write, hba]⟩
    · refine ⟨rfl, rfl, fun x b l hl => ⟨⟨l, hl⟩, ?_⟩, fun b h1 h2 h3 => ?_⟩
      · have hba := hne b (h.node b (by rw [hl]; simp)).2.1
        simp [Shared.write, hba]
      · have hba := hne b h1
        exact ⟨by simp [hba, h1], h2, by simp [hba, h3]⟩

theorem stepOk_setValue (h : SharedInv g s) {v : DataType} {node : Addr}
    (hp : ThreadInv c g s i (.enq (.setValue v node))) :
    StepOk c g s i .tau (s.write node { s.mem node with value := v }) (.enq (.setNext v node)) := by
  obtain ⟨⟨ho, hown, -⟩, hh, hc⟩ := hp
  refine StepOk.writeOwn h hown ⟨⟨ho, hown, ?_, by simp⟩, hh, hc⟩
  simp [Shared.write]

theorem stepOk_setNext (h : SharedInv g s) {v : DataType} {node : Addr}
    (hp : ThreadInv c g s i (.enq (.setNext v node))) :
    StepOk c g s i .tau (s.write node { s.mem node with next := NULL })
      (.enq (.spinLock v node)) := by
  obtain ⟨⟨ho, hown, hv, -⟩, hh, hc⟩ := hp
  refine StepOk.writeOwn h hown ⟨⟨ho, hown, ?_, ?_⟩, hh, hc⟩
  · simpa [Shared.write] using hv
  · simp [Shared.write]

/-- The lock was free: the thread becomes its holder. -/
theorem stepOk_spinLock_taken (h : SharedInv g s) {v : DataType} {node : Addr}
    (hp : ThreadInv c g s i (.enq (.spinLock v node))) (hl : s.tLock = 0) :
    StepOk c g s i .tau { s with tLock := 1 } (.enq (.readTail v node)) := by
  obtain ⟨⟨ho, hown⟩, -, hc⟩ := hp
  have hnone := h.holder_none hl
  obtain ⟨hlk, hun⟩ := h.free hnone
  refine ⟨{ g with holder := some i }, Fifo.step_tau.mpr rfl, ?_, ?_, ?_⟩
  · refine { h with lock := rfl, free := by simp, last := ?_ }
    intro k hk hu
    rw [hun] at hu
    cases hu
  · exact ⟨⟨ho, hown, hlk, hun⟩, iff_of_true rfl rfl, hc⟩
  · intro j hj
    refine .outside ?_ (fun e => hj (Option.some.inj e).symm) rfl rfl rfl rfl rfl rfl rfl
    rw [hnone]
    exact nofun

theorem stepOk_readTail (h : SharedInv g s) {v : DataType} {node : Addr}
    (hp : ThreadInv c g s i (.enq (.readTail v node))) :
    StepOk c g s i .tau s (.enq (.link v node s.tail)) := by
  obtain ⟨⟨ho, hown, hl, hu⟩, hh, hc⟩ := hp
  exact StepOk.silent h ⟨⟨ho, hown, hl, hu, rfl⟩, hh, hc⟩

/-- The node `a` gets the successor `node`. -/
def Shared.link (s : Shared) (a node : Addr) : Shared := s.write a { s.mem a with next := node }

theorem link_value (s : Shared) (a node : Addr) : (s.link a node).value = s.value := by
  funext b
  by_cases hb : b = a
  · subst hb
    simp [Shared.link, Shared.value, Shared.write]
  · simp [Shared.link, Shared.value, Shared.write, hb]

/-- The holder of the lock has linked its node, and neither moved `Tail` nor counted. -/
def Ghost.link (g : Ghost) (node : Addr) (a : Fifo.State ℕ DataType) : Ghost :=
  { g with
    nodes := g.nodes ++ [node]
    owner := Function.update g.owner node none
    linked := true
    uncounted := true
    abs := a }

theorem SharedInv.link (h : SharedInv g s) {node : Addr} (hown : g.owner node = some i)
    (hhold : g.holder = some i) (hn : s.next node = NULL) (hlk : g.linked = false)
    (hun : g.uncounted = false) {a : Fifo.State ℕ DataType} {e : Fifo.Entry ℕ DataType}
    (hc : a.content = g.abs.content ++ [e]) (hv : e.value = s.value node) (hsender : e.sender = i)
    (hseq : e.seq = a.finished i) : SharedInv (g.link node a) (s.link s.tail node) := by
  have hnn := h.notMem_of_owner hown
  have hlast := h.tail hlk
  have howner : ∀ b, b ≠ node → (g.link node a).owner b = g.owner b := fun b hb =>
    Function.update_of_ne hb _ _
  have hnone : (g.link node a).owner node = none := Function.update_self _ _ _
  refine { h with list := ?_, node := ?_, owned := ?_, tail := nofun, free := ?_, last := ?_,
                  count := ?_ }
  · rw [link_value]
    change DummyList _ _ _ _ _ (a.content.map (·.value))
    rw [hc, List.map_append, List.map_singleton, hv]
    refine h.list.push hlast hnn hn (h.owned node i hown).1.1 ?_ fun b hb => ?_
    · simp [Shared.link, Shared.next, Shared.write]
    · simp [Shared.link, Shared.next, Shared.write, hb]
  · intro b hb
    rcases List.mem_append.mp hb with hb | hb
    · obtain ⟨h1, h2, h3⟩ := h.node b hb
      exact ⟨h1, h2, (howner b fun e => hnn (e ▸ hb)).trans h3⟩
    · obtain rfl := List.mem_singleton.mp hb
      obtain ⟨h1, h2⟩ := h.owned b i hown
      exact ⟨h1, h2, hnone⟩
  · intro b k hb
    by_cases hbn : b = node
    · rw [hbn, hnone] at hb
      cases hb
    · exact h.owned b k ((howner b hbn).symm.trans hb)
  · exact fun hf => absurd (hhold.symm.trans hf) nofun
  · -- the last value is the one that has just been linked
    intro k hk _ x hx
    obtain rfl : i = k := Option.some.inj (hhold.symm.trans hk)
    change a.content.getLast? = some x at hx
    rw [hc, List.getLast?_concat, Option.some.injEq] at hx
    subst hx
    exact ⟨hsender, hseq⟩
  · change s.count = BitVec.ofInt 64 (a.content.length - true.toNat + g.popped.toNat)
    rw [h.count, hun, hc, List.length_append, List.length_singleton]
    congr 1
    simp

theorem Stable.link (h : SharedInv g s) {node : Addr} (hown : g.owner node = some i)
    (hhold : g.holder = some i) (htm : s.tail ∈ g.nodes) (hj : j ≠ i)
    {a : Fifo.State ℕ DataType} (hop : a.op j = g.abs.op j) :
    Stable c g (g.link node a) s (s.link s.tail node) j where
  op := hop
  holder := Iff.rfl
  locked hjh := absurd hjh (holder_ne hhold hj)
  owned b hb := by
    have hbn : b ≠ node := by
      rintro rfl
      exact hj (Option.some.inj (hb.symm.trans hown))
    have hbt : b ≠ s.tail := fun e => h.notMem_of_owner hb (e ▸ htm)
    exact ⟨(Function.update_of_ne hbn _ _).trans hb, Function.update_of_ne hbt _ _⟩
  front _ := by
    refine ⟨rfl, rfl, fun x b l hl => ⟨⟨l ++ [node], by simp [Ghost.link, hl]⟩,
      congrFun (link_value s s.tail node) b⟩, fun b h1 h2 h3 => ?_⟩
    have hbn : b ≠ node := by
      rintro rfl
      rw [hown] at h3
      cases h3
    exact ⟨h1, by simp [Ghost.link, h2, hbn], (Function.update_of_ne hbn _ _).trans h3⟩

/-- The write `Q->Tail->next = node`: the value enters the queue. -/
theorem stepOk_link (h : SharedInv g s) {v : DataType} {node tail : Addr}
    (hp : ThreadInv c g s i (.enq (.link v node tail))) :
    StepOk c g s i (.append v) (s.link tail node) (.enq (.setTail node)) := by
  obtain ⟨⟨ho, ⟨hown, hv, hn⟩, hlk, hun, rfl⟩, hh, hc⟩ := hp
  have hhold : g.holder = some i := hh.mp rfl
  have htm : s.tail ∈ g.nodes := List.mem_of_mem_getLast? (h.tail hlk)
  refine ⟨g.link node _, Fifo.step_append.mpr ⟨ho, rfl⟩, ?_, ⟨⟨?_, rfl, rfl, ?_⟩, ?_, hc⟩,
    fun j hj => ?_⟩
  · exact h.link hown hhold (hn _ rfl) hlk hun rfl (hv v rfl).symm rfl rfl
  · exact Function.update_self _ _ _
  · exact List.getLast?_concat
  · exact iff_of_true rfl hhold
  · exact .link h hown hhold htm hj (Function.update_of_ne hj _ _)

theorem stepOk_setTail (h : SharedInv g s) {node : Addr}
    (hp : ThreadInv c g s i (.enq (.setTail node))) :
    StepOk c g s i .tau { s with tail := node } (.enq .incCount) := by
  obtain ⟨⟨ho, -, hun, hlast⟩, hh, hc⟩ := hp
  have hhold : g.holder = some i := hh.mp rfl
  refine ⟨{ g with linked := false }, Fifo.step_tau.mpr rfl, ?_, ?_, ?_⟩
  · refine { h with tail := fun _ => hlast, free := ?_ }
    intro hf
    exact absurd (hhold.symm.trans hf) (by simp)
  · exact ⟨⟨ho, rfl, hun⟩, iff_of_true rfl hhold, hc⟩
  · intro j hj
    have hne := holder_ne hhold hj
    exact .outside hne hne rfl rfl rfl rfl rfl rfl rfl

theorem stepOk_incCount (h : SharedInv g s) (hp : ThreadInv c g s i (.enq .incCount)) :
    StepOk c g s i .tau { s with count := atomicIncq s.count } (.enq .spinUnlock) := by
  obtain ⟨⟨ho, hlk, hun⟩, hh, hc⟩ := hp
  have hhold : g.holder = some i := hh.mp rfl
  refine ⟨{ g with uncounted := false }, Fifo.step_tau.mpr rfl, ?_, ?_, ?_⟩
  · refine { h with free := ?_, last := ?_, count := ?_ }
    · intro hf
      exact absurd (hhold.symm.trans hf) (by simp)
    · intro k _ hu
      cases hu
    · simp only
      rw [h.count, atomicIncq_ofInt, hun]
      congr 1
      simp
      omega
  · exact ⟨⟨ho, hlk, rfl⟩, iff_of_true rfl hhold, hc⟩
  · intro j hj
    have hne := holder_ne hhold hj
    exact .outside hne hne rfl rfl rfl rfl rfl rfl rfl

theorem stepOk_spinUnlock (h : SharedInv g s) (hp : ThreadInv c g s i (.enq .spinUnlock)) :
    StepOk c g s i .tau { s with tLock := 0 } (.enq .ret) := by
  obtain ⟨⟨ho, hlk, hun⟩, hh, hc⟩ := hp
  have hhold : g.holder = some i := hh.mp rfl
  refine ⟨{ g with holder := none }, Fifo.step_tau.mpr rfl, ?_, ?_, ?_⟩
  · exact { h with lock := rfl, free := fun _ => ⟨hlk, hun⟩, last := by simp }
  · exact ⟨ho, iff_of_false Bool.false_ne_true (by simp), hc⟩
  · exact fun j hj => .outside (holder_ne hhold hj) nofun rfl rfl rfl rfl rfl rfl rfl

theorem stepOk_enqRet (h : SharedInv g s) (hp : ThreadInv c g s i (.enq .ret)) :
    StepOk c g s i .retEnq s .idle := by
  obtain ⟨ho, hh, hc⟩ := hp
  have hhold : g.holder ≠ some i := fun e => Bool.false_ne_true (hh.mpr e)
  refine StepOk.setAbs h (Fifo.step_retEnq.mpr ⟨ho, rfl⟩) rfl ?_ ⟨by simp, hhold, hc⟩
  intro k hk
  have hki : k ≠ i := fun e => hhold (e ▸ hk)
  simp [hki]

/-! ### The accesses of `dequeue` -/

theorem stepOk_callDeq (h : SharedInv g s) (hp : ThreadInv c g s i .idle) (hi : i = c) :
    StepOk c g s i .callDeq s (.deq .readHead) := by
  obtain ⟨ho, hh, hc⟩ := hp
  refine StepOk.setAbs h (Fifo.step_callDeq.mpr ⟨ho, rfl⟩) rfl (fun _ _ => rfl) ?_
  exact ⟨⟨false, by simp⟩, hh, hi, hc hi⟩

theorem stepOk_readHead (h : SharedInv g s) (hp : ThreadInv c g s i (.deq .readHead)) :
    StepOk c g s i .tau s (.deq (.readNext s.head)) := by
  obtain ⟨ho, hh, hi, hpop⟩ := hp
  exact StepOk.silent h ⟨⟨ho, rfl⟩, hh, hi, hpop⟩

/-- The read of `node->next` finds `NULL`: the queue is empty. -/
theorem stepOk_empty (h : SharedInv g s) {node : Addr}
    (hp : ThreadInv c g s i (.deq (.readNext node))) (hn : (s.mem node).next = NULL) :
    StepOk c g s i .look s (.deq (.ret none)) := by
  obtain ⟨⟨⟨w, ho⟩, rfl⟩, hh, hi, hpop⟩ := hp
  have hnil : g.abs.content = [] := h.content_nil_iff.mpr hn
  exact StepOk.setAbs h (Fifo.step_look.mpr ⟨w, ho, rfl⟩) rfl (fun _ _ => rfl)
    ⟨by simp [DeqInv, hnil], hh, hi, hpop⟩

/-- The read of `node->next` finds a node: the first value. -/
theorem stepOk_readNext (h : SharedInv g s) {node : Addr}
    (hp : ThreadInv c g s i (.deq (.readNext node))) (hn : (s.mem node).next ≠ NULL) :
    StepOk c g s i .look s (.deq (.readValue node (s.mem node).next)) := by
  obtain ⟨⟨⟨w, ho⟩, rfl⟩, hh, hi, hpop⟩ := hp
  obtain ⟨l, -, hl, -⟩ := h.list.front hn
  exact StepOk.setAbs h (Fifo.step_look.mpr ⟨w, ho, rfl⟩) rfl (fun _ _ => rfl)
    ⟨⟨⟨_, Function.update_self _ _ _⟩, l, hl⟩, hh, hi, hpop⟩

theorem stepOk_readValue (h : SharedInv g s) {node newHead : Addr}
    (hp : ThreadInv c g s i (.deq (.readValue node newHead))) :
    StepOk c g s i .tau s (.deq (.setHead node newHead (s.mem newHead).value)) := by
  obtain ⟨⟨ho, l, hl⟩, hh, hi, hpop⟩ := hp
  exact StepOk.silent h ⟨⟨ho, l, hl, rfl⟩, hh, hi, hpop⟩

/-- The write `Q->Head = new_head`: the oldest value leaves the queue. -/
theorem stepOk_setHead (h : SharedInv g s) {node newHead : Addr} {v : DataType}
    (hp : ThreadInv c g s i (.deq (.setHead node newHead v))) :
    StepOk c g s i (.remove v) { s with head := newHead } (.deq (.free node v)) := by
  obtain ⟨⟨⟨w, ho⟩, l, hl, hv⟩, hh, hi, hpop⟩ := hp
  have hchain := h.list.chain
  rw [hl, Chain.cons_iff, Chain.cons_iff] at hchain
  obtain ⟨rfl, rfl, -⟩ := hchain
  have hnn : s.next s.head ≠ NULL := fun e => h.list.null_notMem (by rw [hl, e]; simp)
  obtain ⟨m, vs, hm, hvals, hnm, hlist⟩ := h.list.front hnn
  obtain rfl : l = m := by
    rw [hl, List.cons.injEq, List.cons.injEq] at hm
    exact hm.2.2
  obtain ⟨e, rest, hcont, hev, rfl⟩ := List.map_eq_cons_iff.mp hvals
  have hsub : ∀ a ∈ s.next s.head :: l, a ∈ g.nodes := fun a ha => by
    rw [hl]; exact List.mem_cons_of_mem _ ha
  refine ⟨{ g with nodes := s.next s.head :: l, popped := true, abs := _ },
    Fifo.step_remove.mpr ⟨w, e, rest, ho, hcont, hev.trans hv, rfl⟩, ?_, ?_, ?_⟩
  · refine { h with list := hlist, node := ?_, tail := ?_, last := ?_, count := ?_ }
    · exact fun a ha => h.node a (hsub a ha)
    · intro hlk
      have := h.tail hlk
      rw [hl, List.getLast?_cons_cons] at this
      exact this
    · intro k hk hu x hx
      refine h.last k hk hu x ?_
      rw [hcont]
      cases rest with
      | nil => simp at hx
      | cons y rest => rw [List.getLast?_cons_cons]; exact hx
    · have hcnt := h.count
      rw [hpop, hcont] at hcnt
      simp only [hcnt]
      congr 1
      simp [DeqPc.popped]
      omega
  · obtain ⟨-, hlive, hown⟩ := h.node _ h.list.head_mem
    exact ⟨⟨by simp, hlive, hnm, hown⟩, hh, hi, rfl⟩
  · intro j hj
    refine ⟨by simp [hj], Iff.rfl, fun _ => ⟨rfl, rfl, rfl, ?_⟩, fun a ha => ⟨ha, rfl⟩, ?_⟩
    · rw [hl, List.getLast?_cons_cons]
    · exact fun e => absurd (e.trans hi.symm) hj

/-- The old dummy is released; nobody but the holder's `Tail` can point to it. -/
theorem stepOk_free (h : SharedInv g s) {node : Addr} {v : DataType}
    (hp : ThreadInv c g s i (.deq (.free node v))) (n : Node) :
    StepOk c g s i .tau { s.write node n with live := Function.update s.live node false }
      (.deq (.decCount v)) := by
  obtain ⟨⟨ho, -, hnn, hown⟩, hh, hi, hpop⟩ := hp
  have hne : ∀ a ∈ g.nodes, a ≠ node := fun a ha e => hnn (e ▸ ha)
  have hne' : ∀ a k, g.owner a = some k → a ≠ node := by
    rintro a k ha rfl
    rw [hown] at ha
    cases ha
  refine ⟨g, Fifo.step_tau.mpr rfl, ?_, ⟨ho, hh, hi, hpop⟩, ?_⟩
  · refine { h.write hnn n with node := ?_, owned := ?_ }
    · intro a ha
      obtain ⟨h1, h2, h3⟩ := h.node a ha
      exact ⟨h1, by simp [hne a ha, h2], h3⟩
    · intro a k ha
      obtain ⟨h1, h2⟩ := h.owned a k ha
      exact ⟨h1, by simp [hne' a k ha, h2]⟩
  · intro j hj
    refine ⟨rfl, Iff.rfl, fun _ => ⟨rfl, rfl, rfl, rfl⟩, fun a ha => ⟨ha, ?_⟩, ?_⟩
    · simp [Shared.write, hne' a j ha]
    · exact fun e => absurd (e.trans hi.symm) hj

theorem stepOk_decCount (h : SharedInv g s) {v : DataType}
    (hp : ThreadInv c g s i (.deq (.decCount v))) :
    StepOk c g s i .tau { s with count := atomicDecq s.count } (.deq (.ret (some v))) := by
  obtain ⟨ho, hh, hi, hpop⟩ := hp
  refine ⟨{ g with popped := false }, Fifo.step_tau.mpr rfl, ?_, ⟨ho, hh, hi, rfl⟩, ?_⟩
  · refine { h with count := ?_ }
    have hcnt := h.count
    rw [hpop] at hcnt
    simp only [hcnt, atomicDecq_ofInt]
    congr 1
    simp [DeqPc.popped]
  · intro j hj
    refine ⟨rfl, Iff.rfl, fun _ => ⟨rfl, rfl, rfl, rfl⟩, fun a ha => ⟨ha, rfl⟩, ?_⟩
    exact fun e => absurd (e.trans hi.symm) hj

theorem stepOk_deqRet (h : SharedInv g s) {r : Option DataType}
    (hp : ThreadInv c g s i (.deq (.ret r))) : StepOk c g s i (.retDeq r) s .idle := by
  obtain ⟨ho, hh, hi, hpop⟩ := hp
  cases r with
  | none =>
    exact StepOk.setAbs h (Fifo.step_retNone.mpr ⟨ho, rfl⟩) rfl (fun _ _ => rfl)
      ⟨by simp, hh, fun _ => hpop⟩
  | some v =>
    exact StepOk.setAbs h (Fifo.step_retSome.mpr ⟨ho, rfl⟩) rfl (fun _ _ => rfl)
      ⟨by simp, hh, fun _ => hpop⟩

/-! ### All steps -/

/-- **Every allowed step is matched by the ghost state.** -/
theorem stepOk_step (h : SharedInv g s) {p : Pc} (hp : ThreadInv c g s i p) {x : Choice}
    {tr : List (ℕ × Fifo.Event DataType)} {cfg : Config} (hx : OneConsumer c tr cfg i x)
    {s' : Shared} {p' : Pc} {e : Fifo.Event DataType}
    (hs : step s p x = some (s', p', e)) : StepOk c g s i e s' p' := by
  cases step_cases hs with
  | callEnq v => exact stepOk_callEnq h hp v
  | callDeq => exact stepOk_callDeq h hp hx
  | newNode v a hb hl => exact stepOk_newNode h hp hb hl
  | setValue => exact stepOk_setValue h hp
  | setNext => exact stepOk_setNext h hp
  | spinLock v node hl => exact stepOk_spinLock_taken h hp hl
  | spin => exact StepOk.silent h hp
  | readTail => exact stepOk_readTail h hp
  | link => exact stepOk_link h hp
  | setTail => exact stepOk_setTail h hp
  | incCount => exact stepOk_incCount h hp
  | spinUnlock => exact stepOk_spinUnlock h hp
  | enqRet => exact stepOk_enqRet h hp
  | readHead => exact stepOk_readHead h hp
  | empty node hn => exact stepOk_empty h hp hn
  | readNext node hn => exact stepOk_readNext h hp hn
  | readValue => exact stepOk_readValue h hp
  | setHead => exact stepOk_setHead h hp
  | free node v n => exact stepOk_free h hp n
  | decCount => exact stepOk_decCount h hp
  | deqRet => exact stepOk_deqRet h hp

/-! ### Whole runs -/

/-- The ghost state of a configuration: the shared invariant, and that of every
thread. -/
def Inv (c : ℕ) (g : Ghost) (cfg : Config) : Prop :=
  SharedInv g cfg.shared ∧ ∀ i, ThreadInv c g cfg.shared i (cfg.thread i)

/-- The list of a new queue is the dummy alone, and nobody has the lock. -/
theorem sharedInv_initializeQ (mem : Addr → Node) {node : Addr} (hb : Block node) :
    SharedInv ⟨[node], fun _ => none, none, false, false, false, Fifo.empty⟩
      (initializeQ mem node) where
  list := by
    refine ⟨⟨rfl, ?_⟩, hb.1, List.nodup_singleton _, ?_, rfl⟩
    · simp [Shared.next, initializeQ]
    · simpa using hb.1.symm
  node a ha := by
    obtain rfl := List.mem_singleton.mp ha
    exact ⟨hb, by simp [initializeQ], rfl⟩
  owned _ _ ha := by cases ha
  lock := rfl
  tail _ := rfl
  free _ := ⟨rfl, rfl⟩
  last _ hi := by cases hi
  count := rfl

theorem inv_newQueue {cfg : Config} (h : NewQueue cfg) :
    ∃ g, g.abs = Fifo.empty ∧ Inv c g cfg := by
  obtain ⟨mem, node, hb, rfl⟩ := h
  exact ⟨⟨[node], fun _ => none, none, false, false, false, Fifo.empty⟩, rfl,
    sharedInv_initializeQ mem hb, fun i => ⟨rfl, by simp, fun _ => rfl⟩⟩

/-- **The invariant holds at the end of every run**, with the abstract queue that
the trace leads to. -/
theorem Run.inv {tr : List (ℕ × Fifo.Event DataType)} {cfg : Config} (h : Run c tr cfg) :
    ∃ g, Fifo.exec tr = some g.abs ∧ Inv c g cfg := by
  refine Interleave.Program.Run.induct (J := fun tr cfg => ∃ g, Fifo.exec tr = some g.abs ∧
    Inv c g cfg) ?_ ?_ h
  · intro cfg hc
    obtain ⟨g, hg, hi⟩ := inv_newQueue (c := c) hc
    exact ⟨g, by rw [Fifo.exec_nil, hg], hi⟩
  · rintro tr cfg i x s' l' e ⟨g, hg, hsh, hth⟩ hx hs
    obtain ⟨g', habs, hsh', hth', hst⟩ := stepOk_step hsh (hth i) hx hs
    refine ⟨g', Fifo.exec_concat_eq_some.mpr ⟨_, hg, habs⟩, hsh', ?_⟩
    exact Interleave.Config.forall_after hth' fun j hj => (hth j).stable (hst j hj)

end Coremu.LockQueue

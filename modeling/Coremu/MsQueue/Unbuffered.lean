import Coremu.MsQueue.Run
import Coremu.MsQueue.Tso

/-!
# The lock-free queue without its store buffers

The two stores to a new node may still be in the buffer of its thread while it reads `Tail` and
the last node, but not when it links the node: that is a locked instruction.  Until then nobody
else has the address of the node, if the allocator does not hand out a block that some operation
is still going to read.  So beside a run with store buffers there is one without them, in which the
two stores take effect when they are issued.

With an allocator that does hand out such a block this is not so: an enqueue that has read an old
`Tail` may read the block before the stores of its new owner arrive, although that owner has read
`Tail` after issuing them.

## Main definitions

* `Pc.Pending` — the stores that may be in the buffer of a thread.
* `Seen`, `SeenRun` — the assumption on the allocator, without buffers.
* `Unbuffered` — how the states of the two runs are related.
* `Matched` — a step of the one run, and the step of the other that goes with it.

## Main results

* `SeenRun.apart` — **nobody is going to read a node that is not linked yet.**
* `Unbuffered.issue`, `Unbuffered.arrive` — a store is issued, and arrives.
* `Unbuffered.write` — a node is linked, or a block released.
-/

namespace Coremu.MsQueue

variable {m : BufferedConfig} {k : Config} {g : Ghost} {i j : ℕ} {s s' z : Shared} {p q : Pc}
variable {t t' : Thread} {b : List Store} {w : Store} {a : Addr} {x : Choice}
variable {e : Fifo.Event DataType} {tr : List (ℕ × Fifo.Event DataType)} {cfg : Config}
variable {A : Config → ℕ → Choice → Prop}

/-! ### What a store changes -/

/-- The block that a store writes. -/
def Store.block : Store → Option Addr
  | .value node _ | .next node => some node

theorem commit_mem_of_ne (h : w.block ≠ some a) : (s.commit w).mem a = s.mem a := by
  cases w with
  | value node v | next node =>
    refine Function.update_of_ne (fun e => h ?_) _ _
    exact congrArg some e.symm

/-- A store writes one block. -/
theorem blocks : Tso.Blocks code Shared.mem Store.block where
  of_ne := commit_mem_of_ne
  congr {s s' a} w h := by
    change (s.commit w).mem a = (s'.commit w).mem a
    by_cases hw : w.block = some a
    · cases w with
      | value node v | next node =>
        cases hw
        simp [Shared.commit, Shared.write, h]
    · rw [commit_mem_of_ne hw, commit_mem_of_ne hw, h]

/-- Stores change the content of blocks alone. -/
theorem view_eq (s : Shared) (b : List Store) :
    code.view s b = { s with mem := (code.view s b).mem } := by
  induction b generalizing s with
  | nil => rfl
  | cons w b ih =>
    have hw : s.commit w = { s with mem := (s.commit w).mem } := by cases w <;> rfl
    have hv : code.view s (w :: b) = code.view (s.commit w) b := rfl
    rw [hv, ih (s.commit w)]
    rw [hw]

/-! ### What may be in a buffer -/

/-- The node that the thread has not linked yet. -/
def Pc.unlinked : Pc → Option Addr
  | .enq (.setValue _ node) | .enq (.setNext _ node) | .enq (.readTail _ node)
  | .enq (.restTail _ node _) | .enq (.readNext _ node _) | .enq (.restNext _ node _ _)
  | .enq (.readCur _ node _ _) | .enq (.restCur _ node _ _ _) | .enq (.cmp128 _ node _ _ _)
  | .enq (.link _ node _ _) | .enq (.advance _ node _ _) => some node
  | _ => none

/-- The stores that may be in the buffer of a thread: the last ones since its last locked
instruction. -/
def Pc.Pending : Pc → List Store → Prop
  | .enq (.setNext v node), b => b <:+ [.value node v]
  | .enq (.readTail v node), b | .enq (.restTail v node _), b | .enq (.readNext v node _), b
  | .enq (.restNext v node _ _), b | .enq (.readCur v node _ _), b
  | .enq (.restCur v node _ _ _), b | .enq (.cmp128 v node _ _ _), b =>
      b <:+ [.value node v, .next node]
  | _, b => b = []

theorem Pc.Pending.nil (p : Pc) : p.Pending [] := by
  cases p with
  | enq p => cases p <;> first | exact List.nil_suffix | rfl
  | _ => rfl

/-- The oldest store leaves the buffer. -/
theorem Pc.Pending.tail (h : p.Pending (w :: b)) : p.Pending b := by
  have hsuf : ∀ l : List Store, w :: b <:+ l → b <:+ l := fun l => (List.suffix_cons w b).trans
  cases p with
  | enq p => cases p <;> first | exact hsuf _ h | cases h
  | _ => cases h

/-- Only stores to the thread's own node are on their way. -/
theorem Pc.Pending.block (h : p.Pending b) (hw : w ∈ b) (ha : w.block = some a) :
    p.unlinked = some a := by
  cases p with
  | enq p =>
    cases p with
    | setNext v node =>
      cases List.mem_singleton.mp (h.subset hw)
      exact ha
    | readTail v node | restTail v node r | readNext v node tail | restNext v node tail r
    | readCur v node tail next | restCur v node tail next r | cmp128 v node tail next cur =>
      have hm := h.subset hw
      simp only [List.mem_cons, List.not_mem_nil, or_false] at hm
      rcases hm with rfl | rfl <;> exact ha
    | _ =>
      cases h
      cases hw
  | _ =>
    cases h
    cases hw

/-! ### Nobody reads a node that is not linked -/

/-- The allocator does not hand out a block that an operation in progress is going to follow. -/
def Seen (c : Config) (_ : ℕ) : Choice → Prop
  | .alloc a _ => ∀ j, a ∉ (c.thread j).pc.pointers
  | _ => True

/-- The runs from `new_queue()` without buffers, in which no block is handed out that an operation
in progress is going to follow. -/
abbrev SeenRun := program.Run NewQueue fun _ => Seen

/-- Such a run hands out no block that an enqueue is about to compare and swap. -/
theorem SeenRun.run (h : SeenRun tr cfg) : Run tr cfg := by
  refine Interleave.Program.Run.mono (fun tr c i x hx => ?_) h
  cases x with
  | alloc a n =>
    intro j hj
    refine hx j ?_
    generalize c.thread j = t at hj
    obtain ⟨pc, mask, saved⟩ := t
    cases pc with
    | enq p =>
      cases p with
      | link v node tail next =>
        cases hj
        exact List.mem_singleton_self _
      | _ => cases hj
    | _ => cases hj
  | _ => trivial

/-- A pointer that a thread gets is a node of the list. -/
theorem pointers_step (hi : SharedInv g s) (hp : ThreadInv g s i p) (hst : Step s t p x s' t' e)
    (ha : a ∈ t'.pc.pointers) : a ∈ p.pointers ∨ a ∈ g.nodes := by
  cases hst with
  | enqReadTail v node r =>
    cases r with
    | ptr => exact .inr (List.mem_singleton.mp ha ▸ hi.tail_mem)
    | count => cases ha
  | enqRestTail v node r =>
    cases r with
    | ptr d => exact .inl ha
    | count n => exact .inr (List.mem_singleton.mp ha ▸ hi.tail_mem)
  | readHead r =>
    cases r with
    | ptr => exact .inr (List.mem_singleton.mp ha ▸ hi.list.head_mem)
    | count => cases ha
  | restHead r =>
    cases r with
    | ptr d => exact .inl ha
    | count n => exact .inr (List.mem_singleton.mp ha ▸ hi.list.head_mem)
  | deqFront head tail next cur heq hht =>
    -- the test of line 188 shows that it was the successor of the dummy
    obtain ⟨-, -, -, -, hfront, -⟩ := hp.op
    obtain ⟨-, hor, hne⟩ := hfront heq
    subst heq
    have hnull := hne (Ne.symm hht)
    have hnext := hor.resolve_left hnull
    cases List.mem_singleton.mp ha
    rw [hnext] at hnull ⊢
    exact .inr (hi.list.next_mem hi.list.head_mem hnull)
  | enqReadNext | enqRestNext | enqReadCur | enqRestCur | enqLast | deqReadTail | deqRestTail
  | deqReadNext | deqRestNext | deqReadCur | deqRestCur => exact .inl ha
  | _ => cases ha

/-- A thread gets a node from the allocator. -/
theorem unlinked_step (hst : Step s t p x s' t' e) (ha : t'.pc.unlinked = some a) :
    p.unlinked = some a ∨ ∃ n, x = .alloc a n := by
  cases hst with
  | newNode v d n =>
    cases ha
    exact .inr ⟨n, rfl⟩
  | _ => first | exact .inl ha | cases ha

/-- A thread owns the node that it has not linked. -/
theorem ThreadInv.owner (h : ThreadInv g s i p) (ha : p.unlinked = some a) :
    g.owner a = some i := by
  have hop := h.op
  cases p with
  | enq p =>
    cases p with
    | setValue v node =>
      cases ha
      exact hop.2
    | setNext v node =>
      cases ha
      exact hop.2.1
    | readTail v node =>
      cases ha
      exact hop.2.1
    | restTail | readNext | restNext | readCur | restCur | cmp128 | link | advance =>
      cases ha
      exact hop.1.2.1
    | _ => cases ha
  | _ => cases ha

/-- No thread is going to read a node that is not linked yet. -/
def NodesApart (k : Config) : Prop :=
  ∀ i j a, (k.thread i).pc.unlinked = some a → a ∉ (k.thread j).pc.pointers

/-- **Nobody is going to read a node that is not linked yet**, in every run. -/
theorem SeenRun.apart (h : SeenRun tr cfg) (hb : Bounded cfg.shared) : NodesApart cfg := by
  induction h with
  | nil hc =>
    obtain ⟨mem, node, -, -, hth⟩ := hc
    intro i j a ha
    rw [hth i] at ha
    cases ha
  | @snoc tr cfg i x s' t' e hr hx hs ih =>
    have hb' : Bounded cfg.shared := Bounded.before hs hb
    obtain ⟨g, -, hi⟩ := Run.inv (SeenRun.run hr) hb'
    have hst := step_cases hs
    have hap := ih hb'
    -- the node of thread `l`, before or after the step, and a pointer of thread `j` before it
    have hnode : ∀ l j a, ((cfg.after i s' t').thread l).pc.unlinked = some a →
        a ∉ (cfg.thread j).pc.pointers := by
      intro l j a ha
      by_cases hl : l = i
      · subst hl
        rw [Interleave.Config.after_thread_self] at ha
        rcases unlinked_step hst ha with ha | ⟨n, rfl⟩
        · exact hap l j a ha
        · exact hx j
      · rw [Interleave.Config.after_thread_of_ne _ _ _ hl] at ha
        exact hap l j a ha
    intro l j a ha hj
    by_cases hji : j = i
    · subst hji
      rw [Interleave.Config.after_thread_self] at hj
      rcases pointers_step hi.1 (hi.2 j) hst hj with hj | hmem
      · exact hnode l j a ha hj
      · -- a node of the list is owned by nobody, and not free
        have hown := (hi.1.node a hmem).2.2.1
        by_cases hl : l = j
        · subst hl
          rw [Interleave.Config.after_thread_self] at ha
          rcases unlinked_step hst ha with ha | ⟨n, rfl⟩
          · rw [(hi.2 l).owner ha] at hown
            cases hown
          · generalize (cfg.thread l).pc = p at hst
            cases hst
            cases hj
        · rw [Interleave.Config.after_thread_of_ne _ _ _ hl] at ha
          rw [(hi.2 l).owner ha] at hown
          cases hown
    · rw [Interleave.Config.after_thread_of_ne _ _ _ hji] at hj
      exact hnode l j a ha hj

/-! ### The two runs -/

/-- The memory as thread `i` sees it. -/
def BufferedConfig.view (m : BufferedConfig) (i : ℕ) : Shared :=
  code.view m.shared (m.thread i).buffer

/-- The state `k` of the run without buffers at the state `m` of the run with buffers: the stores
that are on their way have arrived. -/
structure Unbuffered (m : BufferedConfig) (k : Config) : Prop where
  thread : ∀ i, k.thread i = (m.thread i).pc
  pending : ∀ i, (m.thread i).pc.pc.Pending (m.thread i).buffer
  hidden : Tso.Hidden code Shared.mem (fun t => t.pc.unlinked) m k.shared
  words : k.shared = { m.shared with mem := k.shared.mem }

theorem Unbuffered.owner (h : Unbuffered m k) (hk : Inv g k)
    (ha : (m.thread i).pc.pc.unlinked = some a) : g.owner a = some i := by
  rw [← h.thread i] at ha
  exact (hk.2 i).owner ha

/-- No two threads have the same node. -/
theorem Unbuffered.unlinked_ne (h : Unbuffered m k) (hk : Inv g k) (hj : j ≠ i)
    (hi : (m.thread i).pc.pc.unlinked = some a) : (m.thread j).pc.pc.unlinked ≠ some a := by
  intro hja
  have ho := h.owner hk hja
  rw [h.owner hk hi] at ho
  exact hj (Option.some.inj ho).symm

/-- What a thread reads of a block that it follows is as without buffers. -/
theorem Unbuffered.view_mem (h : Unbuffered m k) (hap : NodesApart k)
    (ha : a ∈ (m.thread i).pc.pc.pointers) : (m.view i).mem a = k.shared.mem a := by
  have hne : ∀ j, (m.thread j).pc.pc.unlinked ≠ some a := by
    intro j hj
    rw [← h.thread] at hj ha
    exact hap j i a hj ha
  refine Eq.trans ?_ (h.hidden.rest a hne)
  exact blocks.view_of_ne fun w hw hwa => hne i ((h.pending i).block hw hwa)

/-- The words that a thread reads are as without buffers. -/
theorem Unbuffered.view_words (h : Unbuffered m k) :
    (m.view i).head = k.shared.head ∧ (m.view i).tail = k.shared.tail := by
  rw [BufferedConfig.view, view_eq, h.words]
  exact ⟨rfl, rfl⟩

/-- A step to `m'` is matched by at most one of thread `i` without buffers, which shows the
same; `A` is what is allowed there. -/
def Matched (A : Config → ℕ → Choice → Prop) (k : Config) (i : ℕ) (e : Fifo.Event DataType)
    (m' : BufferedConfig) : Prop :=
  ∃ k', Tso.Follows program A .tau k i e k' ∧ Unbuffered m' k'

theorem Unbuffered.after (h : Unbuffered m k) (hpend : t'.pc.Pending b)
    (hhid : Tso.Hidden code Shared.mem (fun t => t.pc.unlinked) (m.after i s ⟨t', b⟩) z)
    (hz : z = { s with mem := z.mem }) :
    Unbuffered (m.after i s ⟨t', b⟩) (k.after i z t') where
  thread j := by
    by_cases hj : j = i
    · subst hj
      simp
    · simpa [Interleave.Config.after_thread_of_ne, hj] using h.thread j
  pending j := by
    by_cases hj : j = i
    · subst hj
      simpa using hpend
    · simpa [Interleave.Config.after_thread_of_ne, hj] using h.pending j
  hidden := hhid
  words := hz

/-- A step that changes no shared state. -/
theorem Unbuffered.silent (h : Unbuffered m k) (hx : A k i x)
    (hst : step k.shared (m.thread i).pc x = some (k.shared, t', e))
    (hun : t'.pc.unlinked = (m.thread i).pc.pc.unlinked)
    (hpend : t'.pc.Pending (m.thread i).buffer) :
    Matched A k i e (m.after i m.shared ⟨t', (m.thread i).buffer⟩) := by
  rw [← h.thread i] at hst
  refine ⟨_, .move hx hst, h.after hpend ?_ h.words⟩
  exact h.hidden.keep blocks (fun _ => rfl) (fun _ => rfl) hun fun _ _ => rfl

/-- A step that changes `Head`, `Tail`, the count or what the allocator knows. -/
theorem Unbuffered.setWords (h : Unbuffered m k) (hx : A k i x)
    (hst : step k.shared (m.thread i).pc x = some (z, t', e)) (hs : s.mem = m.shared.mem)
    (hz : z = { s with mem := k.shared.mem })
    (hun : t'.pc.unlinked = (m.thread i).pc.pc.unlinked)
    (hpend : t'.pc.Pending (m.thread i).buffer) :
    Matched A k i e (m.after i s ⟨t', (m.thread i).buffer⟩) := by
  rw [← h.thread i] at hst
  have hmem : z.mem = k.shared.mem := by rw [hz]
  refine ⟨_, .move hx hst, h.after hpend ?_ (by rw [hmem]; exact hz)⟩
  exact h.hidden.keep blocks (fun _ => by rw [hs]) (fun _ => by rw [hmem]) hun fun _ _ => rfl

/-- A store to the new node is issued. -/
theorem Unbuffered.issue (h : Unbuffered m k) (hk : Inv g k) (hx : A k i x)
    (hst : step k.shared (m.thread i).pc x = some (k.shared.commit w, t', e))
    (hi : (m.thread i).pc.pc.unlinked = some a) (hp : t'.pc.unlinked = some a)
    (hw : w.block = some a) (hpend : t'.pc.Pending ((m.thread i).buffer ++ [w])) :
    Matched A k i e (m.after i m.shared ⟨t', (m.thread i).buffer ++ [w]⟩) := by
  rw [← h.thread i] at hst
  refine ⟨_, .move hx hst, h.after hpend ?_ ?_⟩
  · exact h.hidden.issue blocks hi hp hw fun j hj => h.unlinked_ne hk hj hi
  · rw [h.words]
    cases w <;> rfl

/-- A new node is allocated. -/
theorem Unbuffered.take (h : Unbuffered m k) (hk : Inv g k) (hx : A k i x)
    (hst : step k.shared (m.thread i).pc x = some (z, t', e)) (hb : (m.thread i).buffer = [])
    (hi : (m.thread i).pc.pc.unlinked = none) (hp : t'.pc.unlinked = some a)
    (ha : g.owner a = none) (hs : ∀ d, d ≠ a → s.mem d = m.shared.mem d)
    (hzm : ∀ d, d ≠ a → z.mem d = k.shared.mem d) (hsz : s.mem a = z.mem a)
    (hz : z = { s with mem := z.mem }) :
    Matched A k i e (m.after i s ⟨t', (m.thread i).buffer⟩) := by
  rw [← h.thread i] at hst
  rw [hb]
  refine ⟨_, .move hx hst, h.after (.nil _) ?_ hz⟩
  refine h.hidden.take blocks hi hp hs hzm hsz fun j _ hj => ?_
  rw [h.owner hk hj] at ha
  cases ha

/-- The block `a`, which is nobody's new node, gets the content `n`. -/
theorem Unbuffered.write (h : Unbuffered m k) (hx : A k i x) {n : Node}
    (hst : step k.shared (m.thread i).pc x = some (z, t', e)) (hb : (m.thread i).buffer = [])
    (ha : ∀ j, (m.thread j).pc.pc.unlinked ≠ some a) (hp : t'.pc.unlinked = none)
    (hs : s.mem = Function.update m.shared.mem a n)
    (hz : z = { s with mem := Function.update k.shared.mem a n }) :
    Matched A k i e (m.after i s ⟨t', (m.thread i).buffer⟩) := by
  have hmem : z.mem = Function.update k.shared.mem a n := by rw [hz]
  rw [← h.thread i] at hst
  rw [hb]
  refine ⟨_, .move hx hst, h.after (.nil _) ?_ (by rw [hmem]; exact hz)⟩
  refine h.hidden.write blocks (.inr hb) hp (fun j _ => ha j) (fun d hd => ?_) (fun d hd => ?_) ?_
  · rw [hs, Function.update_of_ne hd]
  · rw [hmem, Function.update_of_ne hd]
  · intro _
    rw [hs, hmem, Function.update_self, Function.update_self]

/-- **The arrival of a store is matched**, by nothing. -/
theorem Unbuffered.arrive (h : Unbuffered m k) (hk : Inv g k)
    (hb : (m.thread i).buffer = w :: b) :
    Matched A k i .tau (m.after i (m.shared.commit w) ⟨(m.thread i).pc, b⟩) := by
  have hpend := h.pending i
  rw [hb] at hpend
  have hself : k.after i k.shared (m.thread i).pc = k := by
    rw [← h.thread i]
    simp [Interleave.Config.after]
  refine ⟨k, .stay, hself ▸ h.after hpend.tail ?_ ?_⟩
  · exact h.hidden.arrive blocks hb (fun d hd => hpend.block List.mem_cons_self hd)
      fun d hd j hj => h.unlinked_ne hk hj hd
  · rw [h.words]
    cases w <;> rfl

end Coremu.MsQueue

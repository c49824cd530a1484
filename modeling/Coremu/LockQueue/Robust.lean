import Coremu.LockQueue.Unbuffered

/-!
# Store buffers do not show

Every step of the queue with store buffers is matched by at most one without them, so every run
shows what some run without buffers shows: the queue is also a linearizable FIFO on x86.  And as
long as a store to a block is on its way, the block is not released.

## Main results

* `Unbuffered.step` — **a step is matched by at most one without buffers.**
* `lockQueue_tso_refines` — **every run shows what a run without buffers shows.**
* `lockQueue_tso_fifo` — **the queue is a linearizable FIFO with store buffers.**
* `lockQueue_tso_stores_live` — **no store arrives in a block that has been released.**
-/

namespace Coremu.LockQueue

variable {c : ℕ} {u : Option ℕ} {m : BufferedConfig} {k : Config} {g : Ghost} {i j : ℕ}
variable {s : Shared} {p : Pc} {b : List Store} {w : Store} {a : Addr}
variable {e : Fifo.Event DataType}

/-! ### Every step is matched -/

/-- The end of the list is not owned. -/
theorem Inv.owner_tail (hk : Inv c g k) (hl : g.linked = false) : g.owner k.shared.tail = none :=
  (hk.1.node _ (List.mem_of_mem_getLast? (hk.1.tail hl))).2.2

/-- **The arrival of a store is matched.** -/
theorem Unbuffered.arrive (h : Unbuffered c u m k) (hk : Inv c g k)
    (hb : (m.thread i).buffer = w :: b) : Matched c k i ((w.shows).getD .tau)
      (m.after i (m.shared.commit w) ⟨(m.thread i).pc, b⟩) := by
  have hl := h.thread i
  have hi := hk.2 i
  rw [hb] at hl
  generalize hp : (m.thread i).pc = p, hq : k.thread i = q at hl hi
  cases hl with
  | same hpend =>
    rw [hpend.shows List.mem_cons_self, ← hp]
    rw [← hp] at hpend
    exact h.flush hk hb hpend (hq.trans hp.symm)
  | link v node last =>
    obtain ⟨⟨-, -, hlink, -, rfl⟩, -, -⟩ := hi
    rw [← hp]
    refine h.move (x := .go) trivial (by rw [hq]; rfl)
      (.link h hk v hb (by rw [hp]; rfl) (hk.owner_tail hlink) ?_)
    rw [hp]
    exact .same rfl
  | linkTail v node last =>
    obtain ⟨⟨-, -, hlink, -, rfl⟩, -, -⟩ := hi
    rw [← hp]
    refine h.move (x := .go) trivial (by rw [hq]; rfl)
      (.link h hk v hb (by rw [hp]; rfl) (hk.owner_tail hlink) ?_)
    rw [hp]
    exact .tail node
  | tail node =>
    rw [← hp]
    refine h.move (x := .go) trivial (by rw [hq]; rfl)
      (.tailFlush h hb (by rw [hp]; rfl) ?_)
    rw [hp]
    exact .same rfl

/-- What the consumer reads of a block in the list is as without buffers. -/
theorem Unbuffered.view_mem (h : Unbuffered c u m k) (hk : Inv c g k)
    (hp : (m.thread i).pc.Pending (m.thread i).buffer) (hi : (m.thread i).pc.unlinked = none)
    (ha : a ∈ g.nodes) : (m.view i).mem a = k.shared.mem a := by
  refine Eq.trans ?_ (h.hidden.rest a (h.unlinked_of_owner hk (hk.1.node a ha).2.2))
  refine blocks.view_of_ne fun w hw => ?_
  rcases hp.mem hw with rfl | ⟨d, hd, -, -⟩ | ⟨d, q, rfl, -⟩
  · simp [Store.block]
  · rw [hi] at hd
    cases hd
  · simp [Store.block]

/-- A store is issued under the lock: the run without buffers stays before it. -/
theorem Unbuffered.issue (h : Unbuffered c u m k) (hp : p.unlinked = none)
    (hi : (m.thread i).pc.unlinked = none)
    (hw : (∃ last node v, w = .link last node v) ∨ ∃ node, w = .tail node)
    (hl : Lags p ((m.thread i).buffer ++ [w]) (k.thread i)) :
    Matched c k i .tau (m.after i m.shared ⟨p, (m.thread i).buffer ++ [w]⟩) := by
  refine h.stay (.keep h hl (hp.trans hi.symm) (fun d hd => ?_) ?_ ?_)
  · rw [hp] at hd
    cases hd
  · rw [code.view_concat]
    rcases hw with ⟨last, node, v, rfl⟩ | ⟨node, rfl⟩ <;> rfl
  · rcases hw with ⟨last, node, v, rfl⟩ | ⟨node, rfl⟩ <;> simp

/-- **An access of `enqueue` is matched**, from the same program point. -/
theorem Unbuffered.enqueue (h : Unbuffered c u m k) (hk : Inv c g k) {p : EnqPc} {x : Choice}
    {r : Effect} (hp : (m.thread i).pc = .enq p) (hq : k.thread i = .enq p)
    (hpend : (Pc.enq p).Pending (m.thread i).buffer)
    (hf : (Pc.enq p).fences = true → (m.thread i).buffer = [])
    (hr : enqueueAccess m.shared (m.view i) p x = some r) : Matched c k i r.event
      (m.after i r.shared ⟨r.thread, (m.thread i).buffer ++ r.stores⟩) := by
  have hi := hk.2 i
  rw [hq] at hi
  have hun : (m.thread i).pc.unlinked = (Pc.enq p).unlinked := by rw [hp]
  cases p with
  | newNode v =>
    cases x with
    | alloc a =>
      obtain ⟨⟨hb, ha⟩, hr⟩ := Option.ite_none_right_eq_some.mp hr
      cases hr
      rw [h.live] at ha
      have hst : step k.shared (k.thread i) (.alloc a) =
          some ({ k.shared.write a ⟨NULL, 0⟩ with live := Function.update k.shared.live a true },
            .enq (.setValue v a), .tau) := by
        rw [hq]
        exact if_pos ⟨hb, ha⟩
      have hsuf : (m.thread i).buffer ++ [.clear a] <:+ [.unlock] ++ [.clear a] :=
        List.suffix_append_self_iff.mpr hpend
      exact h.move (x := .alloc a) trivial hst (.newNode h hk v hun ha (.same hsuf))
    | _ => cases hr
  | setValue v node =>
    cases x <;> cases hr
    have hsuf : (m.thread i).buffer ++ [.value node v] <:+ [.unlock, .clear node] ++ _ :=
      List.suffix_append_self_iff.mpr hpend
    exact h.move (x := .go) trivial (by rw [hq]; rfl) (.writeOwn h hk hun rfl rfl (.same hsuf))
  | setNext v node =>
    cases x <;> cases hr
    have hsuf : (m.thread i).buffer ++ [.next node NULL] <:+
        [.unlock, .clear node, .value node v] ++ _ := List.suffix_append_self_iff.mpr hpend
    exact h.move (x := .go) trivial (by rw [hq]; rfl) (.writeOwn h hk hun rfl rfl (.same hsuf))
  | spinLock v node =>
    cases x <;> cases hr
    have hb := hf rfl
    by_cases hm : m.shared.tLock = 0
    · have hz : k.shared.tLock = 0 := by
        have hlock := h.lock
        rw [h.unlock_none hm, hm] at hlock
        exact hlock.symm
      have hst : step k.shared (k.thread i) .go =
          some ({ k.shared with tLock := 1 }, .enq (.readTail v node), .tau) := by
        simp [hq, step, LockQueue.enqueue, testandset, compareExchange, hz]
      simp only [testandset, compareExchange, hm, if_true, hb, List.append_nil]
      exact h.move (x := .go) trivial hst (.spinLock h hb hm rfl (.same rfl))
    · -- without buffers the lock may be free already, so this try is left out
      simp only [testandset, compareExchange, hm, if_false, List.append_nil]
      refine h.stay (.goto h ?_ hun.symm)
      rw [hq]
      exact .same hpend
  | readTail v node =>
    cases x <;> cases hr
    have hv : (m.view i).tail = k.shared.tail := by
      rw [BufferedConfig.view, hpend]
      exact h.tail
    rw [List.append_nil, hv]
    refine h.move (x := .go) trivial (by rw [hq]; rfl) (.goto h ?_ hun.symm)
    exact .same hpend
  | link v node last =>
    cases x <;> cases hr
    refine h.issue rfl hun (.inl ⟨_, _, _, rfl⟩) ?_
    rw [hpend, hq]
    exact .link v node last
  | setTail node =>
    cases x <;> cases hr
    refine h.issue rfl hun (.inr ⟨_, rfl⟩) ?_
    rw [hpend, hq]
    exact .tail node
  | incCount =>
    cases x <;> cases hr
    have hb := hf rfl
    have hst : step k.shared (k.thread i) .go =
        some ({ k.shared with count := atomicIncq k.shared.count }, .enq .spinUnlock, .tau) := by
      rw [hq]
      rfl
    rw [List.append_nil, hb]
    exact h.move (x := .go) trivial hst
      (.setCount h hb (congrArg atomicIncq h.count) rfl (.same rfl))
  | spinUnlock =>
    cases x <;> cases hr
    have hz : k.shared.tLock = 1 := by
      rw [hk.1.lock, hi.2.1.mp rfl]
      rfl
    rw [show (m.thread i).buffer = [] from hpend]
    exact h.move (x := .go) trivial (by rw [hq]; rfl)
      (.spinUnlock h hpend hz rfl (.same (List.suffix_refl _)))
  | ret =>
    cases x <;> cases hr
    rw [List.append_nil]
    exact h.move (x := .go) trivial (by rw [hq]; rfl) (.goto h (.same hpend) hun.symm)

/-- **An access of `dequeue` is matched.** -/
theorem Unbuffered.dequeue (h : Unbuffered c u m k) (hk : Inv c g k) {p : DeqPc} {x : Choice}
    {r : Effect} (hp : (m.thread i).pc = .deq p) (hq : k.thread i = .deq p)
    (hpend : (Pc.deq p).Pending (m.thread i).buffer)
    (hf : (Pc.deq p).fences = true → (m.thread i).buffer = [])
    (hr : dequeueAccess m.shared (m.view i) p x = some r) : Matched c k i r.event
      (m.after i r.shared ⟨r.thread, (m.thread i).buffer ++ r.stores⟩) := by
  have hi := hk.2 i
  rw [hq] at hi
  obtain ⟨hd, -, rfl, -⟩ := hi
  have hun : (m.thread i).pc.unlinked = none := by rw [hp]; rfl
  have hmem : ∀ a ∈ g.nodes, (m.view i).mem a = k.shared.mem a :=
    fun a => h.view_mem hk (hp ▸ hpend) hun
  cases p with
  | readHead =>
    cases x <;> cases hr
    rw [List.append_nil, h.head]
    exact h.move (x := .go) trivial (by rw [hq]; rfl) (.goto h (.same hpend) hun.symm)
  | readNext node =>
    cases x <;> cases hr
    obtain ⟨-, rfl⟩ := hd
    rw [List.append_nil, hmem _ hk.1.list.head_mem]
    refine h.move (x := .go) trivial (by rw [hq]; rfl) (.goto h ?_ ?_)
    · split <;> exact .same hpend
    · split <;> exact hun.symm
  | readValue node newHead =>
    cases x <;> cases hr
    obtain ⟨-, rest, hn⟩ := hd
    rw [List.append_nil, hmem newHead (by simp [hn])]
    exact h.move (x := .go) trivial (by rw [hq]; rfl) (.goto h (.same hpend) hun.symm)
  | setHead node newHead v =>
    cases x <;> cases hr
    have hsuf : (m.thread i).buffer ++ [.head newHead] <:+ [.unlock] ++ _ :=
      List.suffix_append_self_iff.mpr hpend
    exact h.move (x := .go) trivial (by rw [hq]; rfl)
      (.setHead h hun rfl (.same ⟨newHead, hsuf⟩))
  | free node v =>
    cases x <;> cases hr
    next n =>
    rw [List.append_nil]
    exact h.move (x := .free n) trivial (by rw [hq]; rfl)
      (.free h hk n hun rfl hd.2.2.2 (.same hpend))
  | decCount v =>
    cases x <;> cases hr
    have hb := hf rfl
    have hst : step k.shared (k.thread i) .go = some
        ({ k.shared with count := atomicDecq k.shared.count }, .deq (.ret (some v)), .tau) := by
      rw [hq]
      rfl
    rw [List.append_nil, hb]
    exact h.move (x := .go) trivial hst
      (.setCount h hb (congrArg atomicDecq h.count) rfl (.same List.nil_suffix))
  | ret r =>
    cases x <;> cases hr
    rw [List.append_nil]
    exact h.move (x := .go) trivial (by rw [hq]; rfl) (.goto h (.same hpend) hun.symm)

/-- **An access is matched.** -/
theorem Unbuffered.access (h : Unbuffered c u m k) (hk : Inv c g k) {x : Choice} {r : Effect}
    (hx : OneConsumer c [] k i x)
    (hf : (m.thread i).pc.fences = true → (m.thread i).buffer = [])
    (hr : access m.shared (m.view i) (m.thread i).pc x = some r) : Matched c k i r.event
      (m.after i r.shared ⟨r.thread, (m.thread i).buffer ++ r.stores⟩) := by
  have hl := h.thread i
  generalize hp : (m.thread i).pc = p, hb : (m.thread i).buffer = b, hq : k.thread i = q at hl
  rw [hp] at hf hr
  cases hl with
  | same hpend =>
    rw [← hb] at hpend ⊢
    cases p with
    | idle =>
      have hun : (m.thread i).pc.unlinked = none := by rw [hp]; rfl
      cases x with
      | callEnq v =>
        cases hr
        rw [List.append_nil]
        exact h.move (x := .callEnq v) hx (by rw [hq]; rfl) (.goto h (.same hpend) hun.symm)
      | callDeq =>
        cases hr
        rw [List.append_nil]
        exact h.move (x := .callDeq) hx (by rw [hq]; rfl) (.goto h (.same hpend) hun.symm)
      | _ => cases hr
    | enq p => exact h.enqueue hk hp hq hpend hf hr
    | deq p => exact h.dequeue hk hp hq hpend hf hr
  | link v node last =>
    cases x <;> cases hr
    rw [← hb]
    refine h.issue rfl (by rw [hp]; rfl) (.inr ⟨_, rfl⟩) ?_
    rw [hb, hq]
    exact .linkTail v node last
  | linkTail v node last => cases hb.symm.trans (hf rfl)
  | tail node => cases hb.symm.trans (hf rfl)

/-- **Every step is matched by at most one without buffers.** -/
theorem Unbuffered.step (h : Unbuffered c u m k) (hk : Inv c g k) {x : Option Choice}
    {t : Tso.Thread Pc Store} {tr : List (ℕ × Fifo.Event DataType)}
    (hx : OneBufferedConsumer c tr m i x)
    (hst : code.buffered.step i m.shared (m.thread i) x = some (s, t, e)) :
    Matched c k i e (m.after i s t) := by
  rcases Tso.Code.buffered_cases hst with
    ⟨y, r, rfl, hf, hr, rfl, rfl, rfl⟩ | ⟨w, b, rfl, hb, rfl, rfl, rfl⟩
  · refine h.access hk ?_ hf hr
    cases y with
    | callDeq => exact hx
    | _ => trivial
  · exact h.arrive hk hb

/-- A new queue has no stores on their way. -/
theorem unbuffered_new (hm : NewBuffered m) : ∃ k, NewQueue k ∧ Unbuffered c none m k := by
  obtain ⟨mem, node, hb, rfl⟩ := hm
  refine ⟨⟨initializeQ mem node, fun _ => .idle⟩, ⟨mem, node, hb, rfl⟩, ?_⟩
  exact {
    thread := fun _ => .same List.nil_suffix
    hidden := ⟨fun _ _ ha => (by cases ha), fun _ _ => rfl⟩
    head := rfl
    tail := rfl
    count := rfl
    live := rfl
    lock := rfl
    released := fun hu => by cases hu
    unlock := fun _ => by simp }

/-- With all stores in memory the two states are the same. -/
theorem Unbuffered.eq_of_drained (h : Unbuffered c u m k) (hb : ∀ i, (m.thread i).buffer = []) :
    k = ⟨m.shared, fun i => (m.thread i).pc⟩ := by
  have hu : u = none := by
    cases u with
    | none => rfl
    | some j =>
      have hj := (h.unlock j).mpr rfl
      rw [hb j] at hj
      cases hj
  have hmem : m.shared.mem = k.shared.mem := funext (h.hidden.of_drained hb)
  have hhead := h.head
  have hlock := h.lock
  rw [BufferedConfig.view, hb c] at hhead
  rw [hu] at hlock
  have hthread : k.thread = fun i => (m.thread i).pc := by
    funext i
    have hl := h.thread i
    rw [hb i] at hl
    generalize (m.thread i).pc = p, k.thread i = q at hl
    cases hl
    rfl
  have hshared : k.shared = m.shared := by
    have htail := h.tail
    have hcount := h.count
    have hlive := h.live
    generalize m.shared = s, k.shared = z at *
    cases s
    cases z
    simp_all
  cases k
  simp_all

variable {tr : List (ℕ × Fifo.Event DataType)}

/-- The run without buffers, and how its state is related. -/
theorem BufferedRun.unbuffered (h : BufferedRun c tr m) : ∃ tr' k, Run c tr' k ∧
    Tso.observed .tau tr' = Tso.observed .tau tr ∧ ∃ u, Unbuffered c u m k := by
  refine Tso.exists_run_observed (R := fun m k => ∃ u, Unbuffered c u m k) ?_ ?_ h
  · intro m hm
    obtain ⟨k, hk, hu⟩ := unbuffered_new hm
    exact ⟨k, hk, none, hu⟩
  · intro tr m i x s t e tr' k hx hst hr ⟨u, hu⟩
    have hr : Run c tr' k := hr
    obtain ⟨g, -, hk⟩ := hr.inv
    exact hu.step hk hx hst

/-! ### A run -/

/-- `new_queue()` on a cleared heap, with empty buffers. -/
def bufferedStart (node : Addr) : BufferedConfig :=
  ⟨initializeQ (fun _ => ⟨NULL, 0⟩) node, fun _ => ⟨.idle, []⟩⟩

/-- `enqueue` of thread 0, up to `atomic_incq`: the stores to the node reach memory before the
lock is taken, and the link and `Tail` are in the buffer at the end. -/
def enqueueBuffered : List (ℕ × Option Choice) :=
  [(0, some (.callEnq 7)), (0, some (.alloc 32)), (0, some .go), (0, some .go), (0, none),
    (0, none), (0, none)] ++ List.replicate 4 (0, some .go)

/-- Thread 1 finds the queue empty, the link and `Tail` reach memory, `enqueue` returns with the
release of the lock in its buffer, and thread 1 takes the value. -/
def dequeueBuffered : List (ℕ × Option Choice) :=
  [(1, some .callDeq), (1, some .go), (1, some .go), (1, some .go), (0, none), (0, none),
    (0, some .go), (0, some .go), (0, some .go), (1, some .callDeq), (1, some .go), (1, some .go),
    (1, some .go), (1, some .go), (1, some (.free ⟨5, 5⟩)), (1, none), (1, some .go),
    (1, some .go)]

/-- The runs with thread 1 as the consumer that a schedule gives. -/
theorem exists_bufferedRun (sched : List (ℕ × Option Choice))
    (test : List (ℕ × Fifo.Event DataType) → BufferedConfig → Bool)
    (h : (code.buffered.exec (fun tr m i x => decide (OneBufferedConsumer 1 tr m i x)) []
      (bufferedStart 16) sched).any (fun r => test r.1 r.2) = true) :
    ∃ tr m, BufferedRun 1 tr m ∧ test tr m = true :=
  Interleave.Program.exists_run_of_exec _ (fun _ _ _ _ => of_decide_eq_true)
    ⟨_, 16, by decide, rfl⟩ sched test h

/-! ### The results -/

/-- **Every run with store buffers shows what a run without them shows**, and when all stores have
reached memory both are in the same state. -/
theorem lockQueue_tso_refines (h : BufferedRun c tr m) : ∃ tr' k, Run c tr' k ∧
    Tso.observed .tau tr' = Tso.observed .tau tr ∧
      ((∀ i, (m.thread i).buffer = []) → k = ⟨m.shared, fun i => (m.thread i).pc⟩) := by
  obtain ⟨tr', k, hr, hobs, u, hu⟩ := h.unbuffered
  exact ⟨tr', k, hr, hobs, hu.eq_of_drained⟩

/-- A run in which both `dequeue`s of thread 1 and the `enqueue` of thread 0 have returned, and
the lock is still taken in memory. -/
theorem lockQueue_tso_refines_waiting : ∃ tr m, BufferedRun 1 tr m ∧ Fifo.returned tr = [7] ∧
    m.shared.tLock = 1 ∧ ∃ tr' k, Run 1 tr' k ∧
      Tso.observed .tau tr' = Tso.observed .tau tr ∧
        ((∀ i, (m.thread i).buffer = []) → k = ⟨m.shared, fun i => (m.thread i).pc⟩) := by
  obtain ⟨tr, m, hr, ht⟩ := exists_bufferedRun (enqueueBuffered ++ dequeueBuffered)
    (fun tr m => decide (Fifo.returned tr = [7] ∧ m.shared.tLock = 1)) (by decide)
  exact ⟨tr, m, hr, (of_decide_eq_true ht).1, (of_decide_eq_true ht).2, lockQueue_tso_refines hr⟩

/-- **The queue of `main/lock-queue.c` is a linearizable FIFO with store buffers.** -/
theorem lockQueue_tso_fifo (h : BufferedRun c tr m) :
    Fifo.Linearized tr ∧ Fifo.OldestFirst c tr := by
  obtain ⟨tr', k, hr, hobs, -⟩ := h.unbuffered
  obtain ⟨g, hg, -⟩ := hr.inv
  have hexec : Fifo.exec tr = some g.abs := (Fifo.exec_congr_filter_tau hobs.symm).trans hg
  refine ⟨Fifo.linearized_of_exec hexec, Fifo.oldestFirst_of_exec hexec fun j hj hm => ?_⟩
  have hmem : (j, .callDeq) ∈ Tso.observed .tau tr := (Tso.mem_observed (by simp)).mpr hm
  rw [← hobs, Tso.mem_observed (by simp)] at hmem
  exact hr.callDeq_eq j hj hmem

/-- The value that thread 1 did not find while the link to it was in a buffer is served later. -/
theorem lockQueue_tso_fifo_served : ∃ tr m, BufferedRun 1 tr m ∧ Fifo.returned tr = [7] ∧
    Fifo.Linearized tr ∧ Fifo.OldestFirst 1 tr := by
  obtain ⟨tr, m, hr, ht⟩ := exists_bufferedRun (enqueueBuffered ++ dequeueBuffered)
    (fun tr _ => decide (Fifo.returned tr = [7])) (by decide)
  exact ⟨tr, m, hr, of_decide_eq_true ht, lockQueue_tso_fifo hr⟩

/-- The block that a waiting store writes is in use. -/
theorem Unbuffered.live_block (h : Unbuffered c u m k) (hk : Inv c g k)
    (hw : w ∈ (m.thread i).buffer) (ha : w.block = some a) : m.shared.live a = true := by
  have hlast : g.linked = false → k.shared.live k.shared.tail = true := fun hl =>
    (hk.1.node _ (List.mem_of_mem_getLast? (hk.1.tail hl))).2.1
  have hl := h.thread i
  have hi := hk.2 i
  rw [h.live]
  generalize hp : (m.thread i).pc = p, (m.thread i).buffer = b, k.thread i = q at hl hi hw
  cases hl with
  | same hpend =>
    rcases hpend.mem hw with rfl | ⟨d, hd, hwd, -⟩ | ⟨d, q, rfl, -⟩
    · cases ha
    · cases hwd.symm.trans ha
      exact (hk.1.owned a i (h.owner hk (hp ▸ hd))).2
    · cases ha
  | link v node last =>
    obtain ⟨⟨-, -, hlink, -, rfl⟩, -, -⟩ := hi
    cases List.mem_singleton.mp hw
    cases ha
    exact hlast hlink
  | linkTail v node last =>
    obtain ⟨⟨-, -, hlink, -, rfl⟩, -, -⟩ := hi
    simp only [List.mem_cons, List.not_mem_nil, or_false] at hw
    rcases hw with rfl | rfl
    · cases ha
      exact hlast hlink
    · cases ha
  | tail node =>
    cases List.mem_singleton.mp hw
    cases ha

/-- **No store arrives in a block that has been released**: as long as a store to a block is in a
store buffer, the block is in use. -/
theorem lockQueue_tso_stores_live (h : BufferedRun c tr m) (hw : w ∈ (m.thread i).buffer)
    (ha : w.block = some a) : m.shared.live a = true := by
  obtain ⟨tr', k, hr, -, u, hu⟩ := h.unbuffered
  obtain ⟨g, -, hk⟩ := hr.inv
  exact hu.live_block hk hw ha

/-- The link to the node of thread 0 is in its buffer. -/
theorem lockQueue_tso_stores_live_link : ∃ tr m, BufferedRun 1 tr m ∧
    Store.link 16 32 7 ∈ (m.thread 0).buffer ∧ m.shared.live 16 = true := by
  obtain ⟨tr, m, hr, ht⟩ := exists_bufferedRun enqueueBuffered
    (fun _ m => decide (Store.link 16 32 7 ∈ (m.thread 0).buffer)) (by decide)
  have hw := of_decide_eq_true ht
  exact ⟨tr, m, hr, hw, lockQueue_tso_stores_live hr hw rfl⟩

end Coremu.LockQueue

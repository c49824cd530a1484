import Coremu.LockQueue.Linearizable
import Coremu.LockQueue.Tso

/-!
# The queue without its store buffers

Beside a run with store buffers there is one without them, in which a store takes effect

* when it is issued, if nobody else can tell: the stores to a node that is not linked yet, those to
  `Head`, which only the consumer reads, and the one that releases `t_lock` (as long as it is in a
  buffer, a thread that wants the lock spins, which the run without buffers leaves out);
* when it reaches memory, for the link to the new node and for `Tail`: until then the producer is
  still before them in the run without buffers.  It is not past `atomic_incq`, which waits for
  both.

## Main definitions

* `Pc.Pending` — the stores that may be in the buffer of a thread.
* `Lags` — where a thread is in the run without buffers.
* `Unbuffered` — how the states of the two runs are related.
* `Change`, `Matched` — a step of the one run, and the step of the other that goes with it.

## Main results

* `Unbuffered.after` — the states stay related.
* `Unbuffered.flush` — a store that the run without buffers has had in memory arrives.
-/

namespace Coremu.LockQueue

open Interleave (Config.after_thread_self Config.after_thread_of_ne)

variable {c : ℕ} {u u' : Option ℕ} {m : BufferedConfig} {k : Config} {g : Ghost} {i j : ℕ}
variable {s s' z : Shared} {p q : Pc} {b : List Store} {w : Store} {a : Addr}
variable {e : Fifo.Event DataType}

/-! ### What a store changes -/

/-- The block that a store writes. -/
def Store.block : Store → Option Addr
  | .clear node | .value node _ | .next node _ => some node
  | .link last _ _ => some last
  | _ => none

theorem commit_mem_of_ne (h : w.block ≠ some a) : (s.commit w).mem a = s.mem a := by
  cases w with
  | clear node | value node v | next node n | link last node v =>
    refine Function.update_of_ne (fun e => h ?_) _ _
    exact congrArg some e.symm
  | _ => rfl

/-- A store writes one block at most. -/
theorem blocks : Tso.Blocks code Shared.mem Store.block where
  of_ne := commit_mem_of_ne
  congr {s s' a} w h := by
    change (s.commit w).mem a = (s'.commit w).mem a
    by_cases hw : w.block = some a
    · cases w with
      | clear node | value node v | next node n | link last node v =>
        cases hw
        simp [Shared.commit, Shared.write, h]
      | _ => cases hw
    · rw [commit_mem_of_ne hw, commit_mem_of_ne hw, h]

theorem view_head_congr (b : List Store) (h : s.head = s'.head) :
    (code.view s b).head = (code.view s' b).head := by
  induction b generalizing s s' with
  | nil => exact h
  | cons w b ih =>
    refine ih ?_
    cases w <;> first | exact h | rfl

/-! ### What may be in a buffer -/

/-- The node that the thread has not linked yet and may still have stores to on their way. -/
def Pc.unlinked : Pc → Option Addr
  | .enq (.setValue _ node) | .enq (.setNext _ node) | .enq (.spinLock _ node) => some node
  | _ => none

/-- The stores that may be in the buffer of a thread that is not behind in the run without
buffers: the last ones since its last locked instruction. -/
def Pc.Pending : Pc → List Store → Prop
  | .enq (.setValue _ node), b => b <:+ [.unlock, .clear node]
  | .enq (.setNext v node), b => b <:+ [.unlock, .clear node, .value node v]
  | .enq (.spinLock v node), b => b <:+ [.unlock, .clear node, .value node v, .next node NULL]
  | .enq (.readTail _ _), b | .enq (.link _ _ _), b | .enq (.setTail _), b
  | .enq .incCount, b | .enq .spinUnlock, b => b = []
  | .deq (.free _ _), b | .deq (.decCount _), b => ∃ h, b <:+ [.unlock, .head h]
  | _, b => b <:+ [.unlock]

/-- Where a thread with the stores `b` in its buffer is in the run without buffers: at the same
point, or before a store under the lock that has not reached memory. -/
inductive Lags : Pc → List Store → Pc → Prop
  | same {p : Pc} {b : List Store} : p.Pending b → Lags p b p
  | link (v : DataType) (node tail : Addr) :
      Lags (.enq (.setTail node)) [.link tail node v] (.enq (.link v node tail))
  | linkTail (v : DataType) (node tail : Addr) :
      Lags (.enq .incCount) [.link tail node v, .tail node] (.enq (.link v node tail))
  | tail (node : Addr) : Lags (.enq .incCount) [.tail node] (.enq (.setTail node))

theorem Pc.Pending.nil (p : Pc) : p.Pending [] := by
  cases p with
  | idle => exact List.nil_suffix
  | enq p => cases p <;> first | exact List.nil_suffix | rfl
  | deq p => cases p <;> first | exact List.nil_suffix | exact ⟨NULL, List.nil_suffix⟩

/-- The oldest store leaves the buffer. -/
theorem Pc.Pending.tail (h : p.Pending (w :: b)) : p.Pending b := by
  have hsuf : ∀ l : List Store, w :: b <:+ l → b <:+ l := fun l => (List.suffix_cons w b).trans
  cases p with
  | idle => exact hsuf _ h
  | enq p => cases p <;> first | exact hsuf _ h | cases h
  | deq p => cases p <;> first | exact hsuf _ h | exact h.imp fun _ => hsuf _

/-- What may be in a buffer, kind by kind. -/
theorem Pc.Pending.mem (h : p.Pending b) (hw : w ∈ b) : w = .unlock ∨
    (∃ a, p.unlinked = some a ∧ w.block = some a ∧ w.shows = none) ∨
      ∃ a q, w = .head a ∧ p = .deq q := by
  cases p with
  | idle => exact .inl (List.mem_singleton.mp (h.subset hw))
  | enq p =>
    cases p with
    | setValue v node | setNext v node | spinLock v node =>
      have hm := h.subset hw
      simp only [List.mem_cons, List.not_mem_nil, or_false] at hm
      rcases hm with rfl | hm
      · exact .inl rfl
      · refine .inr (.inl ⟨node, rfl, ?_⟩)
        grind [Store.block, Store.shows]
    | newNode v | ret => exact .inl (List.mem_singleton.mp (h.subset hw))
    | _ =>
      cases h
      cases hw
  | deq p =>
    cases p with
    | free node v | decCount v =>
      obtain ⟨a, h⟩ := h
      have hm := h.subset hw
      simp only [List.mem_cons, List.not_mem_nil, or_false] at hm
      rcases hm with rfl | rfl
      · exact .inl rfl
      · exact .inr (.inr ⟨a, _, rfl, rfl⟩)
    | _ => exact .inl (List.mem_singleton.mp (h.subset hw))

/-- Their arrival in memory does not show. -/
theorem Pc.Pending.shows (h : p.Pending b) (hw : w ∈ b) : w.shows = none := by
  rcases h.mem hw with rfl | ⟨a, -, -, hs⟩ | ⟨a, q, rfl, -⟩
  · rfl
  · exact hs
  · rfl

/-- The lock is released once. -/
theorem Pc.Pending.unlock (h : p.Pending (.unlock :: b)) : Store.unlock ∉ b := by
  have hcount : ∀ l : List Store, Store.unlock :: b <:+ l → l.count .unlock ≤ 1 →
      Store.unlock ∉ b := by
    intro l hl hc hm
    have h1 := hl.sublist.count_le Store.unlock
    have h2 := List.count_pos_iff.mpr hm
    rw [List.count_cons_self] at h1
    omega
  cases p with
  | idle => exact hcount _ h (by simp)
  | enq p => cases p <;> first | exact hcount _ h (by simp) | cases h
  | deq p =>
    cases p with
    | free node v | decCount v =>
      obtain ⟨a, h⟩ := h
      exact hcount _ h (by simp)
    | _ => exact hcount _ h (by simp)

/-! ### The two runs -/

/-- The memory as thread `i` sees it. -/
def BufferedConfig.view (m : BufferedConfig) (i : ℕ) : Shared :=
  code.view m.shared (m.thread i).buffer

/-- The state `k` of the run without buffers at the state `m` of the run with buffers; `c` is the
consumer, and `u` the thread whose release of the lock is on its way. -/
structure Unbuffered (c : ℕ) (u : Option ℕ) (m : BufferedConfig) (k : Config) : Prop where
  thread : ∀ i, Lags (m.thread i).pc (m.thread i).buffer (k.thread i)
  /-- A node that is not linked yet is as the thread that has it sees it. -/
  hidden : Tso.Hidden code Shared.mem Pc.unlinked m k.shared
  head : (m.view c).head = k.shared.head
  tail : m.shared.tail = k.shared.tail
  count : m.shared.count = k.shared.count
  live : m.shared.live = k.shared.live
  lock : m.shared.tLock = if u.isSome then 1 else k.shared.tLock
  released : u.isSome → k.shared.tLock = 0
  unlock : ∀ i, .unlock ∈ (m.thread i).buffer ↔ u = some i

/-- A thread that has stores to a node on their way is not behind. -/
theorem Lags.of_unlinked (h : Lags p b q) (ha : p.unlinked = some a) : q = p ∧ p.Pending b := by
  cases h with
  | same h => exact ⟨rfl, h⟩
  | _ => cases ha

/-- The thread owns the node that it has not linked. -/
theorem Unbuffered.owner (h : Unbuffered c u m k) (hk : Inv c g k)
    (ha : (m.thread i).pc.unlinked = some a) : g.owner a = some i := by
  obtain ⟨hq, -⟩ := (h.thread i).of_unlinked ha
  have hi := hk.2 i
  rw [hq] at hi
  generalize (m.thread i).pc = p at ha hi
  cases p with
  | enq p =>
    cases p with
    | setValue v node | setNext v node | spinLock v node =>
      cases ha
      exact hi.1.2.1
    | _ => cases ha
  | _ => cases ha

/-- No two threads have the same node. -/
theorem Unbuffered.unlinked_ne (h : Unbuffered c u m k) (hk : Inv c g k) (hj : j ≠ i)
    (hi : (m.thread i).pc.unlinked = some a) : (m.thread j).pc.unlinked ≠ some a := by
  intro hja
  have ho := h.owner hk hja
  rw [h.owner hk hi] at ho
  exact hj (Option.some.inj ho).symm

/-- A block that nobody owns is not on the way of a thread's stores. -/
theorem Unbuffered.unlinked_of_owner (h : Unbuffered c u m k) (hk : Inv c g k)
    (ha : g.owner a = none) (j : ℕ) : (m.thread j).pc.unlinked ≠ some a := by
  intro hj
  rw [h.owner hk hj] at ha
  cases ha

/-- The changes of the two states by a step of thread `i`: to memory at once, from `m.shared` to
`s`, to the thread, and to the state `z` of the run without buffers. -/
structure Change (c : ℕ) (u u' : Option ℕ) (m : BufferedConfig) (k : Config) (i : ℕ) (s : Shared)
    (p : Pc) (b : List Store) (z : Shared) (q : Pc) : Prop where
  thread : Lags p b q
  hidden : Tso.Hidden code Shared.mem Pc.unlinked (m.after i s ⟨p, b⟩) z
  head : if i = c then (code.view s b).head = z.head
    else s.head = m.shared.head ∧ z.head = k.shared.head
  tail : s.tail = z.tail
  count : s.count = z.count
  live : s.live = z.live
  lock : s.tLock = if u'.isSome then 1 else z.tLock
  released : u'.isSome → z.tLock = 0
  unlock : .unlock ∈ b ↔ u' = some i
  same : ∀ j, j ≠ i → (u' = some j ↔ u = some j)

theorem Unbuffered.after (h : Unbuffered c u m k) (hc : Change c u u' m k i s p b z q) :
    Unbuffered c u' (m.after i s ⟨p, b⟩) (k.after i z q) where
  thread j := by
    by_cases hj : j = i
    · subst hj
      simpa using hc.thread
    · simpa [Config.after_thread_of_ne, hj] using h.thread j
  hidden := hc.hidden
  head := by
    have hh := hc.head
    by_cases hi : i = c
    · subst hi
      simpa [BufferedConfig.view] using hh
    · rw [if_neg hi] at hh
      simp only [BufferedConfig.view, Config.after_thread_of_ne _ _ _ (Ne.symm hi)]
      exact (view_head_congr _ hh.1).trans (h.head.trans hh.2.symm)
  tail := hc.tail
  count := hc.count
  live := hc.live
  lock := hc.lock
  released := hc.released
  unlock j := by
    by_cases hj : j = i
    · subst hj
      simpa using hc.unlock
    · rw [hc.same j hj, Config.after_thread_of_ne _ _ _ hj]
      exact h.unlock j

/-- A step to `m'` is matched by at most one of thread `i` without buffers, which shows the
same. -/
def Matched (c : ℕ) (k : Config) (i : ℕ) (e : Fifo.Event DataType) (m' : BufferedConfig) : Prop :=
  ∃ k', Tso.Follows program (OneConsumer c []) .tau k i e k' ∧ ∃ u', Unbuffered c u' m' k'

theorem Unbuffered.stay (h : Unbuffered c u m k)
    (hc : Change c u u' m k i s p b k.shared (k.thread i)) :
    Matched c k i .tau (m.after i s ⟨p, b⟩) := by
  have hk : k.after i k.shared (k.thread i) = k := by simp [Interleave.Config.after]
  exact ⟨k, .stay, u', hk ▸ h.after hc⟩

theorem Unbuffered.move (h : Unbuffered c u m k) {x : Choice} (hx : OneConsumer c [] k i x)
    (hst : step k.shared (k.thread i) x = some (z, q, e)) (hc : Change c u u' m k i s p b z q) :
    Matched c k i e (m.after i s ⟨p, b⟩) :=
  ⟨_, .move hx hst, u', h.after hc⟩

/-! ### The changes of a step -/

/-- The states differ in the content of blocks alone. -/
structure SameWords (s s' : Shared) : Prop where
  head : s'.head = s.head
  tail : s'.tail = s.tail
  count : s'.count = s.count
  live : s'.live = s.live
  lock : s'.tLock = s.tLock

/-- A store to a block changes nothing else. -/
theorem commit_sameWords (s : Shared) (h : w.block = some a) : SameWords s (s.commit w) := by
  cases w with
  | clear node | value node v | next node n | link last node v => exact ⟨rfl, rfl, rfl, rfl, rfl⟩
  | _ => cases h

/-- Nothing changes but the thread, and what it has in its buffer. -/
theorem Change.keep (h : Unbuffered c u m k) (hl : Lags p b q)
    (hp : p.unlinked = (m.thread i).pc.unlinked)
    (hv : ∀ a, p.unlinked = some a → (code.view m.shared b).mem a = (m.view i).mem a)
    (hh : (code.view m.shared b).head = (m.view i).head)
    (hu : .unlock ∈ b ↔ .unlock ∈ (m.thread i).buffer) :
    Change c u u m k i m.shared p b k.shared q where
  thread := hl
  hidden := h.hidden.keep blocks (fun _ => rfl) (fun _ => rfl) hp hv
  head := by
    split
    · next hi => exact hh.trans (hi ▸ h.head)
    · exact ⟨rfl, rfl⟩
  tail := h.tail
  count := h.count
  live := h.live
  lock := h.lock
  released := h.released
  unlock := hu.trans (h.unlock i)
  same _ _ := Iff.rfl

/-- Nothing changes but the program point. -/
theorem Change.goto (h : Unbuffered c u m k) (hl : Lags p (m.thread i).buffer q)
    (hp : p.unlinked = (m.thread i).pc.unlinked) :
    Change c u u m k i m.shared p (m.thread i).buffer k.shared q :=
  .keep h hl hp (fun _ _ => rfl) rfl Iff.rfl

/-- A store to the thread's own node is issued. -/
theorem Change.writeOwn (h : Unbuffered c u m k) (hk : Inv c g k)
    (hi : (m.thread i).pc.unlinked = some a) (hp : p.unlinked = some a) (hw : w.block = some a)
    (hl : Lags p ((m.thread i).buffer ++ [w]) q) :
    Change c u u m k i m.shared p ((m.thread i).buffer ++ [w]) (k.shared.commit w) q where
  thread := hl
  hidden := h.hidden.issue blocks hi hp hw fun j hj => h.unlinked_ne hk hj hi
  head := by
    rw [code.view_concat]
    split
    · next hc =>
      have hh : (m.view i).head = k.shared.head := hc ▸ h.head
      exact (commit_sameWords _ hw).head.trans (hh.trans (commit_sameWords _ hw).head.symm)
    · exact ⟨rfl, (commit_sameWords _ hw).head⟩
  tail := h.tail.trans (commit_sameWords _ hw).tail.symm
  count := h.count.trans (commit_sameWords _ hw).count.symm
  live := h.live.trans (commit_sameWords _ hw).live.symm
  lock := by rw [(commit_sameWords _ hw).lock]; exact h.lock
  released hu := (commit_sameWords _ hw).lock.trans (h.released hu)
  unlock := by
    have hne : Store.unlock ≠ w := fun e => by rw [← e] at hw; cases hw
    simpa [hne] using h.unlock i
  same _ _ := Iff.rfl

/-- A new node is allocated, and the stores that clear it are issued. -/
theorem Change.newNode (h : Unbuffered c u m k) (hk : Inv c g k) (v : DataType)
    (hi : (m.thread i).pc.unlinked = none) (ha : k.shared.live a = false)
    (hl : Lags (.enq (.setValue v a)) ((m.thread i).buffer ++ [.clear a]) q) :
    Change c u u m k i { m.shared with live := Function.update m.shared.live a true }
      (.enq (.setValue v a)) ((m.thread i).buffer ++ [.clear a])
      { k.shared.write a ⟨NULL, 0⟩ with live := Function.update k.shared.live a true } q where
  thread := hl
  hidden := by
    refine h.hidden.take blocks hi rfl (fun _ _ => rfl) (fun d hd => Function.update_of_ne hd _ _)
      ?_ fun j _ => h.unlinked_of_owner hk (hk.1.fresh ha).2 j
    rw [code.view_concat]
    simp [code, Shared.commit, Shared.write]
  head := by
    split
    · next hc =>
      have hh : (m.view i).head = k.shared.head := hc ▸ h.head
      rw [code.view_concat]
      refine Eq.trans ?_ hh
      exact view_head_congr _ rfl
    · exact ⟨rfl, rfl⟩
  tail := h.tail
  count := h.count
  live := congrArg (Function.update · a true) h.live
  lock := h.lock
  released := h.released
  unlock := by simpa using h.unlock i
  same _ _ := Iff.rfl

/-- A block that nobody has is released, and the allocator writes to it. -/
theorem Change.free (h : Unbuffered c u m k) (hk : Inv c g k) (n : Node)
    (hi : (m.thread i).pc.unlinked = none) (hp : p.unlinked = none) (ha : g.owner a = none)
    (hl : Lags p (m.thread i).buffer q) :
    Change c u u m k i { m.shared.write a n with live := Function.update m.shared.live a false }
      p (m.thread i).buffer
      { k.shared.write a n with live := Function.update k.shared.live a false } q where
  thread := hl
  hidden := by
    refine h.hidden.write blocks (.inl hi) hp (fun j _ => h.unlinked_of_owner hk ha j)
      (fun d hd => Function.update_of_ne hd _ _) (fun d hd => Function.update_of_ne hd _ _) ?_
    simp [Shared.write]
  head := by
    split
    · next hc =>
      have hh : (m.view i).head = k.shared.head := hc ▸ h.head
      refine Eq.trans ?_ hh
      exact view_head_congr _ rfl
    · exact ⟨rfl, rfl⟩
  tail := h.tail
  count := h.count
  live := congrArg (Function.update · a false) h.live
  lock := h.lock
  released := h.released
  unlock := h.unlock i
  same _ _ := Iff.rfl

/-- Nothing changes but the program point of a thread with an empty buffer, which has no node, or
gives up to have one with stores on their way. -/
theorem Change.drained (h : Unbuffered c u m k) (hb : (m.thread i).buffer = [])
    (hp : p.unlinked = none) (hl : Lags p [] q) :
    Change c u u m k i m.shared p [] k.shared q where
  thread := hl
  hidden := h.hidden.drop blocks hb hp (fun _ => rfl) fun _ => rfl
  head := by
    split
    · next hc =>
      have hh := h.head
      rwa [← hc, BufferedConfig.view, hb] at hh
    · exact ⟨rfl, rfl⟩
  tail := h.tail
  count := h.count
  live := h.live
  lock := h.lock
  released := h.released
  unlock := by rw [← hb]; exact h.unlock i
  same _ _ := Iff.rfl

/-- The counter changes. -/
theorem Change.setCount (h : Unbuffered c u m k) (hb : (m.thread i).buffer = []) {n n' : BitVec 64}
    (hn : n = n') (hp : p.unlinked = none) (hl : Lags p [] q) :
    Change c u u m k i { m.shared with count := n } p [] { k.shared with count := n' } q :=
  { Change.drained h hb hp hl with
    hidden := h.hidden.drop blocks hb hp (fun _ => rfl) fun _ => rfl
    count := hn }

/-- The release of the lock is not on its way when the lock is free. -/
theorem Unbuffered.unlock_none (h : Unbuffered c u m k) (hl : m.shared.tLock = 0) : u = none := by
  cases u with
  | none => rfl
  | some j =>
    have hlock := h.lock
    rw [hl] at hlock
    cases hlock

/-- The lock is taken. -/
theorem Change.spinLock (h : Unbuffered c u m k) (hb : (m.thread i).buffer = [])
    (hm : m.shared.tLock = 0) (hp : p.unlinked = none) (hl : Lags p [] q) :
    Change c u u m k i { m.shared with tLock := 1 } p [] { k.shared with tLock := 1 } q := by
  have hu := h.unlock_none hm
  subst hu
  exact { Change.drained h hb hp hl with
    hidden := h.hidden.drop blocks hb hp (fun _ => rfl) fun _ => rfl
    lock := rfl
    released := fun hf => by cases hf }

/-- The store that releases the lock is issued. -/
theorem Change.spinUnlock (h : Unbuffered c u m k) (hb : (m.thread i).buffer = [])
    (hz : k.shared.tLock = 1) (hp : p.unlinked = none) (hl : Lags p [.unlock] q) :
    Change c u (some i) m k i m.shared p [.unlock] { k.shared with tLock := 0 } q := by
  have hu : u = none := by
    cases u with
    | none => rfl
    | some j =>
      have hr := h.released rfl
      rw [hz] at hr
      cases hr
  subst hu
  exact { Change.drained h hb hp (.same (.nil p)) with
    thread := hl
    hidden := h.hidden.drop blocks hb hp (fun _ => rfl) fun _ => rfl
    lock := h.lock.trans hz
    released := fun _ => rfl
    unlock := by simp
    same := fun j hj => by simp [Ne.symm hj] }

/-- The consumer issues a store to `Head`. -/
theorem Change.setHead (h : Unbuffered c u m k) (hi : (m.thread c).pc.unlinked = none)
    (hp : p.unlinked = none) (hl : Lags p ((m.thread c).buffer ++ [.head a]) q) :
    Change c u u m k c m.shared p ((m.thread c).buffer ++ [.head a])
      { k.shared with head := a } q where
  thread := hl
  hidden := h.hidden.keep blocks (fun _ => rfl) (fun _ => rfl) (hp.trans hi.symm) fun d hd => by
    rw [hp] at hd
    cases hd
  head := by
    rw [if_pos rfl, code.view_concat]
    rfl
  tail := h.tail
  count := h.count
  live := h.live
  lock := h.lock
  released := h.released
  unlock := by simpa using h.unlock c
  same _ _ := Iff.rfl

/-- A store reaches memory that the run without buffers has had in memory since it was issued: one
to the thread's own node, one of the consumer to `Head`, or one that releases the lock. -/
theorem Change.flush (h : Unbuffered c u m k) (hk : Inv c g k)
    (hb : (m.thread i).buffer = w :: b) (hl : Lags (m.thread i).pc b q)
    (hw : ∀ d, w.block = some d → (m.thread i).pc.unlinked = some d)
    (hhead : i ≠ c → ∀ d, w ≠ .head d) (htail : ∀ d, w ≠ .tail d)
    (hlock : (m.shared.commit w).tLock = if u'.isSome then 1 else k.shared.tLock)
    (hreleased : u'.isSome → k.shared.tLock = 0) (hunlock : .unlock ∈ b ↔ u' = some i)
    (hsame : ∀ j, j ≠ i → (u' = some j ↔ u = some j)) :
    Change c u u' m k i (m.shared.commit w) (m.thread i).pc b k.shared q where
  thread := hl
  hidden := h.hidden.arrive blocks hb hw fun d hd j hj => h.unlinked_ne hk hj hd
  head := by
    split
    · next hc =>
      have hh := h.head
      rwa [← hc, BufferedConfig.view, hb] at hh
    · next hc =>
      refine ⟨?_, rfl⟩
      cases w with
      | head d => exact absurd rfl (hhead hc d)
      | _ => rfl
  tail := by
    refine Eq.trans ?_ h.tail
    cases w with
    | tail d => exact absurd rfl (htail d)
    | _ => rfl
  count := by
    refine Eq.trans ?_ h.count
    cases w <;> rfl
  live := by
    refine Eq.trans ?_ h.live
    cases w <;> rfl
  lock := hlock
  released := hreleased
  unlock := hunlock
  same := hsame

/-- **A store that is in memory without buffers reaches memory.** -/
theorem Unbuffered.flush (h : Unbuffered c u m k) (hk : Inv c g k)
    (hb : (m.thread i).buffer = w :: b) (hp : (m.thread i).pc.Pending (w :: b))
    (hq : k.thread i = (m.thread i).pc) :
    Matched c k i .tau (m.after i (m.shared.commit w) ⟨(m.thread i).pc, b⟩) := by
  have hl : Lags (m.thread i).pc b (k.thread i) := by
    rw [hq]
    exact .same hp.tail
  have hu := h.unlock i
  rw [hb] at hu
  have hlock := h.lock
  rcases hp.mem List.mem_cons_self with rfl | ⟨a, ha, hw, -⟩ | ⟨a, p, rfl, hd⟩
  · -- the lock is free without buffers, and nobody has taken it
    have hui : u = some i := hu.mp List.mem_cons_self
    subst hui
    have hc : Change c (some i) none m k i (m.shared.commit .unlock) (m.thread i).pc b k.shared
        (k.thread i) := by
      refine .flush h hk hb hl (fun _ e => by cases e) (fun _ _ e => by cases e)
        (fun _ e => by cases e) (h.released rfl).symm (fun e => by cases e) ?_ ?_
      · simpa using hp.unlock
      · intro j hj
        simp [Ne.symm hj]
    exact h.stay hc
  · have hne : Store.unlock ≠ w := fun e => by rw [← e] at hw; cases hw
    refine h.stay (.flush h hk hb hl (fun d hd => ?_) (fun _ d e => ?_) (fun d e => ?_) ?_
      h.released ?_ fun _ _ => Iff.rfl)
    · rwa [← hw, hd] at ha
    · rw [e] at hw
      cases hw
    · rw [e] at hw
      cases hw
    · exact (commit_sameWords _ hw).lock.trans hlock
    · simpa [hne] using hu
  · -- only the consumer dequeues
    have hic : i = c := by
      have hi := hk.2 i
      rw [hq, hd] at hi
      exact hi.2.2.1
    refine h.stay (.flush h hk hb hl (fun _ e => by cases e) (fun e => absurd hic e)
      (fun _ e => by cases e) hlock h.released ?_ fun _ _ => Iff.rfl)
    simpa using hu

/-- The link to the new node reaches memory. -/
theorem Change.link (h : Unbuffered c u m k) (hk : Inv c g k) {last node : Addr} (v : DataType)
    (hb : (m.thread i).buffer = .link last node v :: b) (hi : (m.thread i).pc.unlinked = none)
    (ha : g.owner last = none) (hl : Lags (m.thread i).pc b q) :
    Change c u u m k i (m.shared.commit (.link last node v)) (m.thread i).pc b
      (k.shared.write last { k.shared.mem last with next := node }) q where
  thread := hl
  hidden := h.hidden.write blocks (.inl hi) hi (fun j _ => h.unlinked_of_owner hk ha j)
    (fun d hd => Function.update_of_ne hd _ _) (fun d hd => Function.update_of_ne hd _ _)
    (blocks.congr (.link last node v))
  head := by
    split
    · next hc =>
      have hh := h.head
      rwa [← hc, BufferedConfig.view, hb] at hh
    · exact ⟨rfl, rfl⟩
  tail := h.tail
  count := h.count
  live := h.live
  lock := h.lock
  released := h.released
  unlock := by
    have hu := h.unlock i
    rw [hb] at hu
    simpa using hu
  same _ _ := Iff.rfl

/-- The store to `Tail` reaches memory. -/
theorem Change.tailFlush (h : Unbuffered c u m k) (hb : (m.thread i).buffer = [.tail a])
    (hi : (m.thread i).pc.unlinked = none) (hl : Lags (m.thread i).pc [] q) :
    Change c u u m k i (m.shared.commit (.tail a)) (m.thread i).pc []
      { k.shared with tail := a } q where
  thread := hl
  hidden := h.hidden.keep blocks (fun _ => rfl) (fun _ => rfl) rfl fun d hd => by
    rw [hi] at hd
    cases hd
  head := by
    split
    · next hc =>
      have hh := h.head
      rwa [← hc, BufferedConfig.view, hb] at hh
    · exact ⟨rfl, rfl⟩
  tail := rfl
  count := h.count
  live := h.live
  lock := h.lock
  released := h.released
  unlock := by
    have hu := h.unlock i
    rw [hb] at hu
    simpa using hu
  same _ _ := Iff.rfl

end Coremu.LockQueue

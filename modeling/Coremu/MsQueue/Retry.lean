import Coremu.MsQueue.Counts

/-!
# Lock-freedom of the lock-free queue

An operation of `main/ms-queue.c` never waits for another thread; it goes round its loop
again when it finds that something has moved.  There are six ways to fail: a test by
`cmp128` or a swap finds another value than the one that was read, or `Tail` was behind and
had to be moved on first.  In each of them `Head`, `Tail` or the link at `Tail` has changed
since the round began, at the latest by the swap that moves `Tail` on.  And there is a limit
to such changes: a value is linked once, `Tail` passes it once, and `Head` does.

So a thread that stops inside an operation does not make the others go round for ever.

## Main definitions

* `changes` — the swaps so far that changed something.
* `loopHistory`, `LoopRun` — runs that note the changes at the start of each round.
* `Pc.Agrees` — what has been read in this round is what is stored.

## Main results

* `agrees_step`, `changes_of_retry` — one step in the loop.
* `changes_le` — the number of changes is bounded by the calls.
* `retry_after_change` — **whoever goes round again, something has changed.**
-/

namespace Coremu.MsQueue

variable {g : Ghost} {s s' : Shared} {t t' : Thread} {p : Pc} {x : Choice}
  {e : Fifo.Event DataType} {i : ℕ} {tr : List (ℕ × Fifo.Event DataType)} {cfg : Config}

/-! ### Changes -/

/-- How many swaps have changed `Q->Head`, `Q->Tail` or the `next` of a node.  The swaps of a
`next` that succeed are the links, and a link is always a change. -/
def changes (tr : List (ℕ × Fifo.Event DataType)) (s : Shared) : ℕ :=
  s.headChanges + s.tailChanges + (Fifo.appended tr).length

/-- Program points whose swap may count as a change: all but the ones of `cmp128`. -/
def Pc.swaps : Pc → Bool
  | .enq (.link _ _ _ _) | .enq (.advance _ _ _ _) | .enq (.swing _ _) | .deq (.advance _ _)
  | .deq (.swing _ _ _) => true
  | _ => false

theorem changes_concat (i : ℕ) (e : Fifo.Event DataType) (s : Shared) :
    changes (tr ++ [(i, e)]) s = changes tr s + if e.isAppend then 1 else 0 := by
  rw [changes, changes, Fifo.appended_length, Fifo.appended_length, List.countP_append,
    List.countP_singleton]
  exact (Nat.add_assoc _ _ _).symm

/-- A step makes at most one change, and only by a swap that is not one of `cmp128`. -/
theorem changes_step (tr : List (ℕ × Fifo.Event DataType)) (i : ℕ)
    (hst : Step s t p x s' t' e) (hw : p.WritesBack s) :
    changes (tr ++ [(i, e)]) s' = changes tr s ∨
      changes (tr ++ [(i, e)]) s' = changes tr s + 1 ∧ p.swaps = true := by
  have htail : ∀ tail a, changes tr (casTail s tail ⟨a, tail.count + 1⟩).1 = changes tr s ∨
      changes tr (casTail s tail ⟨a, tail.count + 1⟩).1 = changes tr s + 1 := by
    intro tail a
    have hh : (casTail s tail ⟨a, tail.count + 1⟩).1.headChanges = s.headChanges := rfl
    simp only [changes, hh]
    rcases casTail_countsUp s tail a with ⟨-, h⟩ | ⟨-, h⟩
    · exact .inl (by omega)
    · exact .inr (by omega)
  rw [changes_concat]
  cases hst with
  -- `cmp128` writes back the pair it found
  | enqLast v node tail next cur heq | enqBehind v node tail next cur heq =>
    rw [setTail_cur heq hw]
    exact .inl rfl
  | deqEmpty head tail next cur heq | deqBehind head tail next cur heq
  | deqFront head tail next cur heq =>
    rw [setHead_cur heq hw]
    exact .inl rfl
  | link => exact .inr ⟨rfl, rfl⟩
  | enqAdvance | enqSwing | deqAdvance => exact (htail _ _).imp_right fun h => ⟨h, rfl⟩
  | pop head next v heq =>
    subst heq
    refine .inr ⟨?_, rfl⟩
    simp only [changes, setHead_changes]
    change s.headChanges + 1 + s.tailChanges + _ + 0 = _
    omega
  | deqReadNext head tail r => cases r <;> exact .inl rfl
  | deqRestNext head tail r => cases r <;> exact .inl rfl
  | _ => exact .inl rfl

theorem changes_mono (tr : List (ℕ × Fifo.Event DataType)) (i : ℕ)
    (hst : Step s t p x s' t' e) (hw : p.WritesBack s) :
    changes tr s ≤ changes (tr ++ [(i, e)]) s' := by
  rcases changes_step tr i hst hw with h | ⟨h, -⟩ <;> omega

/-! ### What a step without a change leaves -/

theorem ThreadInv.writesBack (h : ThreadInv g s i p) : p.WritesBack s := by
  have hop := h.op
  cases p with
  | idle => trivial
  | enq q =>
    cases q with
    | cmp128 v node tail next cur => exact hop.2.2.2
    | _ => trivial
  | deq q =>
    cases q with
    | cmp128 head tail next cur => exact hop.2.2.2.2.2
    | _ => trivial

/-- Only a link writes to a node of the list. -/
theorem mem_of_step (h : SharedInv g s) (hp : ThreadInv g s i p) (hst : Step s t p x s' t' e)
    (he : e.isAppend = false) {a : Addr} (ha : a ∈ g.nodes) : s'.mem a = s.mem a := by
  cases hst with
  | newNode v b n hb hl =>
    refine Function.update_of_ne ?_ _ _
    rintro rfl
    exact (h.free_block hl).1 ha
  | setValue v node =>
    refine Function.update_of_ne ?_ _ _
    rintro rfl
    exact h.notMem_of_owner hp.op.2 ha
  | setNext v node =>
    refine Function.update_of_ne ?_ _ _
    rintro rfl
    exact h.notMem_of_owner hp.op.2.1 ha
  | free head v n =>
    refine Function.update_of_ne ?_ _ _
    rintro rfl
    exact h.notMem_of_retired hp.op.2 ha
  | link => cases he
  | _ => rfl

/-- The pair in the `next` of the node at `Tail`. -/
def Shared.tailNext (s : Shared) : Pointer := (s.mem s.tail.ptr).next

/-- A step without a change leaves `Head`, `Tail` and the link at `Tail`. -/
theorem same_of_changes_eq (h : SharedInv g s) (hp : ThreadInv g s i p)
    (hst : Step s t p x s' t' e) (heq : changes (tr ++ [(i, e)]) s' = changes tr s) :
    s'.head = s.head ∧ s'.tail = s.tail ∧ s'.tailNext = s.tailNext := by
  have hhead := head_countsUp hst hp.writesBack
  have htail := tail_countsUp hst hp.writesBack
  have hh := hhead.le
  have ht := htail.le
  rw [changes_concat, changes, changes] at heq
  -- none of the three summands can go down, so each of them is the same
  have he : e.isAppend = false := by
    by_contra hne
    rw [Bool.not_eq_false] at hne
    rw [if_pos hne] at heq
    omega
  have htl : s'.tail = s.tail := htail.same (by omega)
  refine ⟨hhead.same (by omega), htl, ?_⟩
  rw [Shared.tailNext, htl, mem_of_step h hp hst he h.tail_mem]
  rfl

/-! ### One round of the loop -/

/-- The start of a round. -/
def Pc.loopStart : Pc → Bool
  | .enq (.readTail _ _) | .deq .readHead => true
  | _ => false

/-- Program points in a round, after its first access. -/
def Pc.inLoop : Pc → Bool
  | .enq (.restTail _ _ _) | .enq (.readNext _ _ _) | .enq (.restNext _ _ _ _)
  | .enq (.readCur _ _ _ _) | .enq (.restCur _ _ _ _ _) | .enq (.cmp128 _ _ _ _ _)
  | .enq (.link _ _ _ _) | .enq (.advance _ _ _ _) => true
  | .deq (.restHead _) | .deq (.readTail _) | .deq (.restTail _ _) | .deq (.readNext _ _)
  | .deq (.restNext _ _ _) | .deq (.readCur _ _ _) | .deq (.restCur _ _ _ _)
  | .deq (.cmp128 _ _ _ _) | .deq (.advance _ _) | .deq (.readValue _ _)
  | .deq (.swing _ _ _) => true
  | _ => false

/-- What has been read in this round, and will be compared, is what is stored: `hd` in
`Head`, `tl` in `Tail` and `nx` in the link at `Tail`. -/
def Pc.Agrees (hd tl nx : Pointer) : Pc → Prop
  | .enq (.restTail _ _ r) => r.Agrees tl
  | .enq (.readNext _ _ tail) | .enq (.advance _ _ tail _) | .deq (.advance tail _) => tl = tail
  | .enq (.restNext _ _ tail r) => tl = tail ∧ r.Agrees nx
  | .enq (.readCur _ _ tail next) | .enq (.restCur _ _ tail next _)
  | .enq (.cmp128 _ _ tail next _) | .enq (.link _ _ tail next) => tl = tail ∧ nx = next
  | .deq (.restHead r) => r.Agrees hd
  | .deq (.readTail head) | .deq (.readValue head _) | .deq (.swing head _ _) => hd = head
  | .deq (.restTail head r) => hd = head ∧ r.Agrees tl
  | .deq (.readNext head tail) | .deq (.restNext head tail _) | .deq (.readCur head tail _)
  | .deq (.restCur head tail _ _) | .deq (.cmp128 head tail _ _) => hd = head ∧ tl = tail
  | _ => True

/-- What has been read is what is stored now. -/
abbrev Pc.Current (p : Pc) (s : Shared) : Prop := p.Agrees s.head s.tail s.tailNext

theorem Pc.agrees_loopStart (h : p.loopStart = true) (hd tl nx : Pointer) : p.Agrees hd tl nx := by
  cases p with
  | idle => cases h
  | enq q =>
    cases q with
    | readTail => trivial
    | _ => cases h
  | deq q =>
    cases q with
    | readHead => trivial
    | _ => cases h

/-- **A step of its own** keeps what a thread has read current. -/
theorem agrees_step (hst : Step s t p x s' t' e) (hw : p.WritesBack s) (h : p.Current s) :
    t'.pc.Current s' := by
  cases hst with
  | enqReadTail v node r => exact r.read_agrees s.tail
  | enqRestTail v node r => exact (Torn.rest_eq h).symm
  | enqReadNext v node tail r =>
    obtain rfl : s.tail = tail := h
    exact ⟨rfl, r.read_agrees s.tailNext⟩
  | enqRestNext v node tail r =>
    obtain ⟨rfl, hr⟩ := h
    exact ⟨rfl, (Torn.rest_eq hr).symm⟩
  | enqLast v node tail next cur heq =>
    rw [setTail_cur heq hw]
    exact h
  | enqBehind v node tail next cur heq =>
    rw [setTail_cur heq hw]
    exact h.1
  | readHead r => exact r.read_agrees s.head
  | restHead r => exact (Torn.rest_eq h).symm
  | deqReadTail head r => exact ⟨h, r.read_agrees s.tail⟩
  | deqRestTail head r => exact ⟨h.1, (Torn.rest_eq h.2).symm⟩
  | deqBehind head tail next cur heq =>
    rw [setHead_cur heq hw]
    exact h.2
  | deqFront head tail next cur heq =>
    rw [setHead_cur heq hw]
    exact h.1
  | enqReadCur | enqRestCur | deqReadNext | deqRestNext | deqReadCur | deqRestCur | readValue =>
    exact h
  | _ => trivial

theorem changes_advance {tail : Pointer} (heq : s.tail = tail) (a : Addr) :
    changes tr (casTail s tail ⟨a, tail.count + 1⟩).1 = changes tr s + 1 := by
  subst heq
  rw [casTail_of_eq rfl]
  simp only [changes, setTail_changes]
  change s.headChanges + (s.tailChanges + 1) + _ = _
  omega

/-- **A round that fails although nothing has moved** fails by moving `Tail` on. -/
theorem changes_of_retry (hst : Step s t p x s' t' e) (h : p.Current s)
    (hin : p.inLoop = true) (hback : t'.pc.loopStart = true) :
    changes (tr ++ [(i, e)]) s' = changes tr s + 1 := by
  rw [changes_concat]
  cases hst with
  -- a test or a swap that fails has found another value than the one read
  | enqStale v node tail next cur hne => exact absurd h.1 hne
  | linkFailed v node tail next hne =>
    obtain ⟨rfl, hn⟩ := h
    exact absurd hn hne
  | deqStale head tail next cur hne => exact absurd h.1 hne
  | popFailed head next v hne => exact absurd h hne
  | enqAdvance v node tail next | deqAdvance tail next => exact changes_advance h _
  | setNext | deqBlk => cases hin
  | _ => cases hback

/-! ### Runs -/

/-- The changes there were at the start of each thread's last round. -/
def loopHistory :
    Interleave.Program.History ℕ Shared Thread Choice (Fifo.Event DataType) (ℕ → ℕ) where
  init _ := 0
  note n tr _ i _ s' t' e :=
    Function.update n i (if t'.pc.loopStart then changes (tr ++ [(i, e)]) s' else n i)

/-- The runs from `new_queue()` that hand out no block twice, with these notes. -/
abbrev LoopRun := program.Noted loopHistory NewQueue NoReuse

/-- As long as there is no change since a round began, what was read in it is current. -/
def LoopInv (tr : List (ℕ × Fifo.Event DataType)) (cfg : Config) (n : ℕ → ℕ) : Prop :=
  ∀ i, n i ≤ changes tr cfg.shared ∧
    (changes tr cfg.shared = n i → (cfg.thread i).pc.Current cfg.shared)

theorem LoopInv.step {n : ℕ → ℕ} (h : LoopInv tr cfg n) (hi : Inv g cfg)
    (hs : MsQueue.step cfg.shared (cfg.thread i) x = some (s', t', e)) :
    LoopInv (tr ++ [(i, e)]) (cfg.after i s' t') (loopHistory.note n tr cfg i x s' t' e) := by
  have hst := step_cases hs
  have hw := (hi.2 i).writesBack
  have hle : changes tr cfg.shared ≤ changes (tr ++ [(i, e)]) s' := changes_mono tr i hst hw
  intro j
  obtain ⟨hn, hcur⟩ := h j
  by_cases hji : j = i
  · subst hji
    simp only [loopHistory, Function.update_self, Interleave.Config.after_shared,
      Interleave.Config.after_thread_self]
    split
    · next hstart => exact ⟨le_rfl, fun _ => Pc.agrees_loopStart hstart _ _ _⟩
    · exact ⟨hn.trans hle, fun heq => agrees_step hst hw (hcur (by omega))⟩
  · simp only [loopHistory, Function.update_of_ne hji, Interleave.Config.after_shared,
      Interleave.Config.after_thread_of_ne _ _ _ hji]
    refine ⟨hn.trans hle, fun heq => ?_⟩
    -- no change since `j` began its round, so this step of `i` is not one either
    obtain ⟨hhead, htail, hnext⟩ :=
      same_of_changes_eq hi.1 (hi.2 i) hst (show _ = changes tr _ by omega)
    rw [Pc.Current, hhead, htail, hnext]
    exact hcur (by omega)

theorem LoopRun.inv {n : ℕ → ℕ} (h : LoopRun tr cfg n) : LoopInv tr cfg n := by
  refine Interleave.Program.Noted.induct (J := LoopInv) ?_ ?_ h
  · rintro cfg ⟨mem, node, -, -, hth⟩ i
    refine ⟨Nat.zero_le _, fun _ => ?_⟩
    rw [hth i]
    trivial
  · intro tr cfg n i x s' t' e hr ih _ hs
    obtain ⟨g, -, hi⟩ := FreshRun.inv hr
    exact ih.step hi hs

/-! ### The number of changes -/

/-- `Head` moves when a value is removed, and only then. -/
theorem headChanges_step (hst : Step s t p x s' t' e) (hw : p.WritesBack s) :
    s'.headChanges = s.headChanges + if e.isRemove then 1 else 0 := by
  cases hst with
  | deqEmpty head tail next cur heq | deqBehind head tail next cur heq
  | deqFront head tail next cur heq =>
    rw [setHead_cur heq hw]
    rfl
  | pop head next v heq =>
    subst heq
    exact setHead_changes s _
  | deqReadNext head tail r => cases r <;> rfl
  | deqRestNext head tail r => cases r <;> rfl
  | _ => rfl

theorem FreshRun.headChanges_eq (h : FreshRun tr cfg) :
    cfg.shared.headChanges = (Fifo.removed tr).length := by
  induction h with
  | nil hc =>
    obtain ⟨mem, node, -, hs, -⟩ := hc
    rw [hs]
    rfl
  | @snoc tr cfg i x s' t' e hr hx hs ih =>
    obtain ⟨g, -, hi⟩ := FreshRun.inv hr
    rw [Interleave.Config.after_shared, headChanges_step (step_cases hs) (hi.2 i).writesBack, ih,
      Fifo.removed_length, Fifo.removed_length, List.countP_append, List.countP_singleton]

/-- `Tail` never overtakes the links. -/
theorem FreshRun.tailChanges_le (h : FreshRun tr cfg) :
    cfg.shared.tailChanges ≤ (Fifo.appended tr).length := by
  obtain ⟨g, hg, hi, -⟩ := h.inv
  have happ := Fifo.Lossy.appended_length_eq hg
  have hhead := h.headChanges_eq
  have hnodes := hi.list.length_eq
  have hc := hi.headChanges
  have ht := hi.tailChanges
  rw [List.length_map] at hnodes
  -- `Tail` is at the last node or at the one before it
  split at ht <;> omega

/-- **The changes are at most two for each call of `enqueue` and one for each call of
`dequeue`.** -/
theorem changes_le (h : FreshRun tr cfg) :
    changes tr cfg.shared ≤ 2 * Fifo.enqCalls tr + Fifo.deqCalls tr := by
  obtain ⟨g, hg, -⟩ := h.inv
  have hhead := h.headChanges_eq
  have htail := h.tailChanges_le
  have henq := Fifo.Lossy.appended_length_le hg
  have hdeq := Fifo.Lossy.removed_length_le hg
  rw [changes]
  omega

/-- **The queue is lock-free.**  In every run in which no block is handed out twice, when a
step leads from inside a round of `enqueue` or `dequeue` to the start of the next, a swap
has changed `Head`, `Tail` or a link since the round began.  Only swaps other than those of
`cmp128` count as changes, and there are at most two for each call of `enqueue` and one for
each call of `dequeue`. -/
theorem retry_after_change {n : ℕ → ℕ} (h : LoopRun tr cfg n) :
    (∀ i x s' t' e, step cfg.shared (cfg.thread i) x = some (s', t', e) →
      (cfg.thread i).pc.inLoop = true → t'.pc.loopStart = true →
        n i < changes (tr ++ [(i, e)]) s') ∧
    (∀ i x s' t' e, step cfg.shared (cfg.thread i) x = some (s', t', e) →
      changes (tr ++ [(i, e)]) s' = changes tr cfg.shared ∨
        changes (tr ++ [(i, e)]) s' = changes tr cfg.shared + 1 ∧
          (cfg.thread i).pc.swaps = true) ∧
    changes tr cfg.shared ≤ 2 * Fifo.enqCalls tr + Fifo.deqCalls tr := by
  obtain ⟨g, -, hi⟩ := FreshRun.inv h.run
  refine ⟨fun i x s' t' e hs hin hback => ?_,
    fun i x s' t' e hs => changes_step tr i (step_cases hs) (hi.2 i).writesBack,
    changes_le h.run⟩
  obtain ⟨hn, hcur⟩ := h.inv i
  have hst := step_cases hs
  by_cases heq : changes tr cfg.shared = n i
  · rw [changes_of_retry hst (hcur heq) hin hback]
    omega
  · have hle := changes_mono tr i hst (hi.2 i).writesBack
    omega

/-- Thread 0 is inside a round, and its next step leads to the start of another. -/
def retries (cfg : Config) : Bool :=
  (cfg.thread 0).pc.inLoop &&
    (step cfg.shared (cfg.thread 0) .go).any fun r => r.2.1.pc.loopStart

/-- Thread 0 is about to link its node when thread 1 links another one. -/
theorem retry_after_change_link : ∃ tr cfg n, LoopRun tr cfg n ∧
    ∃ s' t' e, step cfg.shared (cfg.thread 0) .go = some (s', t', e) ∧
      t'.pc.loopStart = true ∧ n 0 < changes (tr ++ [(0, e)]) s' := by
  obtain ⟨tr, cfg, hr, ht⟩ : ∃ tr cfg, FreshRun tr cfg ∧ retries cfg = true :=
    Interleave.Program.exists_run_of_exec (fun tr cfg i x => decide (NoReuse tr cfg i x))
      (fun _ _ _ _ => of_decide_eq_true) (newQueue_start 16 (by decide))
      (enqueueToLink 0 7 32 ⟨⟨5, 5⟩, 5⟩ ++ enqueueToLink 1 8 48 ⟨⟨5, 5⟩, 5⟩ ++ enqueueFromLink 1)
      (fun _ => retries) (by decide)
  obtain ⟨hin, hany⟩ := Bool.and_eq_true_iff.mp ht
  obtain ⟨⟨s', t', e⟩, hs, hback⟩ := (Option.any_eq_true _ _).mp hany
  obtain ⟨n, hn⟩ := hr.noted loopHistory
  exact ⟨tr, cfg, n, hn, s', t', e, hs, hback,
    (retry_after_change hn).1 0 .go s' t' e hs hin hback⟩

end Coremu.MsQueue

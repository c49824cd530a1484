import Coremu.MsQueue.Run

/-!
# A dequeue of the only consumer

With several consumers a `dequeue` of `main/ms-queue.c` may run round its loop for ever.
With one consumer it goes round at most once: nobody else moves `Head`, so both tests on
`Head` succeed, and the loop is repeated only after `Tail` was found at the dummy.  The
consumer then moves `Tail` on, or somebody else has done so, and `Tail` does not come
back to the dummy.

## Main definitions

* `Sole`, `SoleRun` — only thread `c` calls `dequeue`, no block is handed out twice, and none
  is freed that an enqueue is about to compare and swap.
* `Current` — the pairs that the consumer has read are those of now.
* `left` — a bound on the steps that are left of a dequeue.

## Main results

* `current_dequeue` — an own step keeps the pairs current and makes `left` smaller.
* `SoleRun.current` — they are current at the end of every run.
* `left_evolves` — a step of an enqueuer does not make `left` larger.
-/

namespace Coremu.MsQueue

variable {g : Ghost} {s s' : Shared} {c i : ℕ}

/-- Only thread `c` calls `dequeue`, the allocator hands out no block twice, and no block is
freed that an enqueue is about to compare and swap. -/
def Sole (c : ℕ) (tr : List (ℕ × Fifo.Event DataType)) (cfg : Config) (i : ℕ) (x : Choice) :
    Prop :=
  (NoReuse tr cfg i x ∧ Unreleased tr cfg i x) ∧ (x = .callDeq → i = c)

/-- The runs from `new_queue()` with one consumer. -/
abbrev SoleRun (c : ℕ) := program.Run NewQueue (Sole c)

theorem SoleRun.kept {tr : List (ℕ × Fifo.Event DataType)} {cfg : Config}
    (h : SoleRun c tr cfg) : FreshKeptRun tr cfg :=
  h.mono fun _ _ _ _ hx => hx.1

theorem SoleRun.inv {tr : List (ℕ × Fifo.Event DataType)} {cfg : Config} (h : SoleRun c tr cfg) :
    ∃ g, g.lost = 0 ∧ Fifo.exec tr = some g.abs ∧ Inv g cfg :=
  h.kept.inv

/-! ### What the consumer has read is current -/

/-- As long as `Tail` is at the dummy, it is the pair that was read. -/
def TailCurrent (s : Shared) (tail : Pointer) : Prop := s.tail.ptr = s.head.ptr → s.tail = tail

/-- What the only consumer has read of `Head`, and of `Tail` while it is at the dummy, is
what is stored there. -/
def Current (s : Shared) : DeqPc → Prop
  | .restHead r => r.Agrees s.head
  | .readTail head => s.head = head
  | .restTail head r => s.head = head ∧ (s.tail.ptr = s.head.ptr → r.Agrees s.tail)
  | .readNext head tail | .restNext head tail _ | .readCur head tail _ | .restCur head tail _ _
  | .cmp128 head tail _ _ => s.head = head ∧ TailCurrent s tail
  | .advance tail _ => TailCurrent s tail
  | .readValue head _ | .swing head _ _ => s.head = head
  | .sigmaskBlk | .readHead | .free _ _ | .decCount _ | .sigmaskRes _ | .ret _ => True

/-- What it has read stays current when others move `Tail`. -/
theorem Current.evolves {p : DeqPc} (h : Current s p) (hev : Evolves s s')
    (hh : s'.head = s.head) : Current s' p := by
  have htail : ∀ {tail}, TailCurrent s tail → TailCurrent s' tail := by
    intro tail ht heq
    rw [hh] at heq
    have hsame := hev.leave hh heq
    rw [hsame] at heq ⊢
    exact ht heq
  cases p with
  | restHead r => rw [Current, hh]; exact h
  | readTail head => exact hh.trans h
  | restTail head r =>
    refine ⟨hh.trans h.1, fun heq => ?_⟩
    rw [hh] at heq
    have hsame := hev.leave hh heq
    rw [hsame] at heq ⊢
    exact h.2 heq
  | readNext head tail => exact ⟨hh.trans h.1, htail h.2⟩
  | restNext head tail r => exact ⟨hh.trans h.1, htail h.2⟩
  | readCur head tail next => exact ⟨hh.trans h.1, htail h.2⟩
  | restCur head tail next r => exact ⟨hh.trans h.1, htail h.2⟩
  | cmp128 head tail next cur => exact ⟨hh.trans h.1, htail h.2⟩
  | advance tail next => exact htail h
  | readValue head next => exact hh.trans h
  | swing head next v => exact hh.trans h
  | sigmaskBlk | readHead | free _ _ | decCount _ | sigmaskRes _ | ret _ => trivial

/-! ### The steps that are left -/

/-- The steps of the round that only moves `Tail`, if `tail` is at the dummy `head`. -/
def round (head tail : Addr) : ℕ := if tail = head then 10 else 0

theorem round_le (head tail : Addr) : round head tail ≤ 10 := by
  unfold round
  split <;> omega

/-- The round that the second word of `Q->Tail` will lead to. -/
def Torn.round (s : Shared) (head : Pointer) : Torn → ℕ
  | .ptr a => MsQueue.round head.ptr a
  | .count _ => MsQueue.round head.ptr s.tail.ptr

/-- A bound on the steps that are left of a dequeue. -/
def left (s : Shared) : DeqPc → ℕ
  | .sigmaskBlk => 16 + round s.head.ptr s.tail.ptr
  | .readHead => 15 + round s.head.ptr s.tail.ptr
  | .restHead _ => 14 + round s.head.ptr s.tail.ptr
  | .readTail _ => 13 + round s.head.ptr s.tail.ptr
  | .restTail head r => 12 + r.round s head
  | .readNext head tail => 11 + round head.ptr tail.ptr
  | .restNext head tail _ => 10 + round head.ptr tail.ptr
  | .readCur head tail _ => 9 + round head.ptr tail.ptr
  | .restCur head tail _ _ => 8 + round head.ptr tail.ptr
  | .cmp128 head tail _ _ => 7 + round head.ptr tail.ptr
  | .advance _ _ => 16
  | .readValue _ _ => 6
  | .swing _ _ _ => 5
  | .free _ _ => 4
  | .decCount _ => 3
  | .sigmaskRes _ => 2
  | .ret _ => 1

/-- After the swap of `Tail` at the dummy, `Tail` is not at the dummy. -/
theorem round_advance (h : SharedInv g s) {tail next : Pointer} (ha : AdvanceOk s tail next.ptr)
    (hc : TailCurrent s tail) :
    round s.head.ptr (casTail s tail ⟨next.ptr, tail.count + 1⟩).1.tail.ptr = 0 := by
  refine if_neg ?_
  by_cases heq : s.tail = tail
  · rw [casTail_of_eq heq]
    change next.ptr ≠ s.head.ptr
    rw [ha.2 heq, ← heq]
    exact h.list.next_ne_head h.tail_mem
  · rw [casTail_of_ne heq]
    exact fun ht => heq (hc ht)

/-- **A step of the only consumer** keeps what it has read current, and makes what is
left smaller. -/
theorem current_dequeue (h : SharedInv g s) {t t' : Thread} {p : DeqPc} (hp : DeqInv g s i p)
    (hc : Current s p) {x : Choice} {e : Fifo.Event DataType}
    (hs : dequeue s t p x = some (s', t', e)) :
    (∃ r, e = .retDeq r ∧ t'.pc = .idle) ∨
      ∃ p', t'.pc = .deq p' ∧ Current s' p' ∧ left s' p' < left s p := by
  cases dequeue_cases hs with
  | deqBlk => exact .inr ⟨_, rfl, trivial, by simp only [left]; omega⟩
  | readHead r => exact .inr ⟨_, rfl, r.read_agrees s.head, by simp only [left]; omega⟩
  | restHead r =>
    refine .inr ⟨_, rfl, ?_, by simp only [left]; omega⟩
    exact (Torn.rest_eq hc).symm
  | deqReadTail head r =>
    refine .inr ⟨_, rfl, ⟨hc, fun _ => r.read_agrees s.tail⟩, ?_⟩
    have hhead : s.head = head := hc
    cases r <;> (simp only [left, Half.read, Torn.round, hhead]; omega)
  | deqRestTail head r =>
    refine .inr ⟨_, rfl, ⟨hc.1, fun heq => (Torn.rest_eq (hc.2 heq)).symm⟩, ?_⟩
    cases r <;> (simp only [left, Torn.round, Torn.rest]; omega)
  | deqReadNext head tail | deqRestNext head tail | deqReadCur head tail | deqRestCur head tail
  | readValue head => exact .inr ⟨_, rfl, hc, by simp only [left]; omega⟩
  | deqEmpty head tail next cur heq hht hnull =>
    rw [setHead_cur heq hp.2.2.2.2.2]
    exact .inr ⟨_, rfl, trivial, by simp only [left]; omega⟩
  | deqBehind head tail next cur heq hht hnull =>
    have hround : round head.ptr tail.ptr = 10 := if_pos hht.symm
    rw [setHead_cur heq hp.2.2.2.2.2]
    exact .inr ⟨_, rfl, hc.2, by simp only [left, hround]; omega⟩
  | deqFront head tail next cur heq hht =>
    rw [setHead_cur heq hp.2.2.2.2.2]
    exact .inr ⟨_, rfl, hc.1, by simp only [left]; omega⟩
  -- nobody else moves `Head`: the tests succeed
  | deqStale head tail next cur hne => exact absurd hc.1 hne
  | popFailed head next v hne => exact absurd hc hne
  | deqAdvance tail next =>
    have hround := round_advance h hp.2.2 hc
    refine .inr ⟨_, rfl, trivial, ?_⟩
    change 15 + round s.head.ptr _ < 16
    omega
  | pop | free | decCount | deqRes => exact .inr ⟨_, rfl, trivial, by simp only [left]; omega⟩
  | deqRet r => exact .inl ⟨r, rfl, rfl⟩

/-- A dequeue can always go on. -/
theorem dequeue_enabled (s : Shared) (t : Thread) (p : DeqPc) :
    ∃ x s' t' e, dequeue s t p x = some (s', t', e) ∧ ∀ v, e ≠ .callEnq v := by
  cases p with
  | readHead | readTail _ | readCur _ _ _ => exact ⟨.half .ptr, _, _, .tau, rfl, by simp⟩
  | readNext head tail => exact ⟨.half .ptr, _, _, .look, rfl, by simp⟩
  | restNext head tail r => exact ⟨.go, _, _, r.event, rfl, by cases r <;> simp [Torn.event]⟩
  | swing head next v =>
    by_cases heq : s.head = head
    · refine ⟨.go, s.setHead ⟨next.ptr, head.count + 1⟩, t.goto (.deq (.free head v)), .remove v,
        ?_, by simp⟩
      simp only [dequeue, casHead_of_eq heq, if_true]
    · refine ⟨.go, s, t.goto (.deq .readHead), .tau, ?_, by simp⟩
      simp only [dequeue, casHead_of_ne heq, Bool.false_eq_true, if_false]
  | free head v => exact ⟨.free ⟨⟨NULL, 0⟩, 0⟩, _, _, .tau, rfl, by simp⟩
  | ret r => exact ⟨.go, _, _, .retDeq r, rfl, by simp⟩
  | _ => exact ⟨.go, _, _, .tau, rfl, by simp⟩

/-- A step of an enqueuer leaves no more steps than before. -/
theorem left_evolves {p : DeqPc} (hc : Current s p) (hev : Evolves s s')
    (hh : s'.head = s.head) : left s' p ≤ left s p := by
  have hround : round s.head.ptr s'.tail.ptr ≤ round s.head.ptr s.tail.ptr := by
    unfold round
    split
    · next ht =>
      rw [hev.leave hh ht] at ht
      rw [if_pos ht]
    · omega
  cases p with
  | sigmaskBlk | readHead | restHead _ | readTail _ => simp only [left, hh]; omega
  | restTail head r =>
    cases r with
    | ptr a => exact le_rfl
    | count n =>
      simp only [left, Torn.round, ← hc.1]
      omega
  | _ => exact le_rfl

/-! ### Runs with one consumer -/

/-- An enqueue does not move `Head`, and does not turn into a dequeue. -/
theorem enqueue_head {t t' : Thread} {p : EnqPc} {x : Choice} {e : Fifo.Event DataType}
    (hs : enqueue s t p x = some (s', t', e)) : s'.head = s.head ∧ ∀ q, t'.pc ≠ .deq q := by
  cases enqueue_cases hs <;> exact ⟨rfl, by simp [Thread.goto]⟩

/-- A step of a thread that is in no `dequeue` and does not call it. -/
theorem step_head {t t' : Thread} {x : Choice} {e : Fifo.Event DataType}
    (ht : ∀ p, t.pc ≠ .deq p) (hx : x ≠ .callDeq) (hs : step s t x = some (s', t', e)) :
    s'.head = s.head ∧ ∀ q, t'.pc ≠ .deq q := by
  cases hpc : t.pc with
  | idle =>
    simp only [step, hpc] at hs
    cases x with
    | callEnq v => cases hs; exact ⟨rfl, by simp [Thread.goto]⟩
    | callDeq => exact absurd rfl hx
    | _ => cases hs
  | enq p => simp only [step, hpc] at hs; exact enqueue_head hs
  | deq p => exact absurd hpc (ht p)

theorem Inv.evolves {cfg : Config} (h : Inv g cfg) {x : Choice} {t' : Thread}
    {e : Fifo.Event DataType} {tr : List (ℕ × Fifo.Event DataType)} (hx : Unheld tr cfg i x)
    (hs : MsQueue.step cfg.shared (cfg.thread i) x = some (s', t', e)) :
    Evolves cfg.shared s' := by
  obtain ⟨g', -, -, -, hst⟩ := stepOk_step (H := fun j => (cfg.thread j).held) h.1 (h.2 i) rfl
    (by rintro a n rfl; exact hx) hs
  exact (hst (i + 1) (Nat.succ_ne_self i)).evolves

/-- The step of the consumer, wherever it stands. -/
theorem current_step {t t' : Thread} (h : SharedInv g s) (hp : ThreadInv g s i t.pc)
    (hc : ∀ p, t.pc = .deq p → Current s p) {x : Choice} {e : Fifo.Event DataType}
    (hs : step s t x = some (s', t', e)) : ∀ p, t'.pc = .deq p → Current s' p := by
  intro q hq
  cases hpc : t.pc with
  | idle =>
    simp only [step, hpc] at hs
    cases x with
    | callEnq v => cases hs; cases hq
    | callDeq => cases hs; cases hq; trivial
    | _ => cases hs
  | enq p =>
    simp only [step, hpc] at hs
    exact absurd hq ((enqueue_head hs).2 q)
  | deq p =>
    simp only [step, hpc] at hs
    rw [hpc] at hp
    rcases current_dequeue h hp.op (hc p hpc) hs with ⟨r, -, hidle⟩ | ⟨p', hp', hcur, -⟩
    · rw [hidle] at hq
      cases hq
    · rw [hp'] at hq
      cases hq
      exact hcur

/-- **What the only consumer has read is current, in every run**; no other thread is in
a `dequeue`. -/
theorem SoleRun.current {tr : List (ℕ × Fifo.Event DataType)} {cfg : Config}
    (h : SoleRun c tr cfg) : (∀ i, i ≠ c → ∀ p, (cfg.thread i).pc ≠ .deq p) ∧
      ∀ p, (cfg.thread c).pc = .deq p → Current cfg.shared p := by
  induction h with
  | nil hc =>
    obtain ⟨mem, node, -, -, hth⟩ := hc
    refine ⟨fun i _ p hp => ?_, fun p hp => ?_⟩
    · rw [hth] at hp
      cases hp
    · rw [hth] at hp
      cases hp
  | @snoc tr cfg i x s' t' e hr hx hs ih =>
    obtain ⟨hother, hcur⟩ := ih
    obtain ⟨g, -, -, hi⟩ := SoleRun.inv hr
    have hs' : step cfg.shared (cfg.thread i) x = some (s', t', e) := hs
    by_cases hic : i = c
    · subst hic
      refine ⟨fun j hj => ?_, ?_⟩
      · rw [Interleave.Config.after_thread_of_ne _ _ _ hj]
        exact hother j hj
      · rw [Interleave.Config.after_thread_self]
        exact current_step hi.1 (hi.2 i) hcur hs'
    · obtain ⟨hhead, hnd⟩ := step_head (hother i hic) (fun e => hic (hx.2 e)) hs'
      have hev := hi.evolves (hi.unheld_of_noReuse hx.1.1) hs'
      refine ⟨?_, fun p hp => ?_⟩
      · refine Interleave.Config.forall_after
          (T := fun j (t : Thread) => j ≠ c → ∀ p, t.pc ≠ .deq p) (fun _ => hnd) fun j _ => hother j
      · rw [Interleave.Config.after_thread_of_ne _ _ _ (Ne.symm hic)] at hp
        exact (hcur p hp).evolves hev hhead

end Coremu.MsQueue

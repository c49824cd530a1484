import Coremu.MsQueue.Linearizable

/-!
# `cmp128` only compares

`cmp128(p1, p2)` is the swap `CAS(p1, *p2, *p1)`.  The pair `*p1` that it stores is read
word by word, while other threads move `Head` and `Tail`, so it need not be a pair that was
ever there.  It does no harm: the swap only succeeds if the word still holds `*p2`, the
count of `*p2` then shows that the word has not changed since that count was read, and
`*p1` was read later.  That counts do not come back rests in turn on the swaps of `cmp128`
storing nothing new, so both are proved together.

Nothing here needs that the list is intact: the runs are those with any reuse of freed
blocks.

## Main definitions

* `Snap` — what a thread has read of a word that it is going to compare.
* `countHistory`, `CountRun` — runs that note when the count of that word was read.
* `WordInv` — what holds of a word and of what the threads have read of it.

## Main results

* `Snap.Ok.other`, `Snap.Ok.move` — a step of another thread, and a step of its own.
* `cmp128_compares` — **a swap of `cmp128` that succeeds stores what is there, and the
  counts go up by one at every change.**
-/

namespace Coremu.MsQueue

/-! ### What a thread has read of a word -/

/-- What a thread has read of `Q->Head` or `Q->Tail` for a comparison by `cmp128`. -/
inductive Snap
  /-- Nothing, or nothing that it is going to compare. -/
  | none
  /-- One word of the pair. -/
  | half (r : Torn)
  /-- The pair. -/
  | whole (old : Pointer)
  /-- The pair, and one word of `*p1`. -/
  | reread (old : Pointer) (r : Torn)
  /-- The pair and `*p1`. -/
  | operands (old cur : Pointer)

/-- What holds of it: the word is `w` and has changed `c` times, and it had changed `n`
times when its count was read. -/
def Snap.Ok (w : Pointer) (c n : ℕ) : Snap → Prop
  | .none | .half (.ptr _) => True
  | .half (.count k) => k.toNat = n ∧ n ≤ c
  | .whole old => old.count.toNat = n ∧ n ≤ c
  | .reread old r => (old.count.toNat = n ∧ n ≤ c) ∧ (w = old → r.Agrees old)
  | .operands old cur => (old.count.toNat = n ∧ n ≤ c) ∧ (w = old → cur = old)

/-- How a read of the word `w` changes it, and when the count was read. -/
inductive Snap.Move (w : Pointer) (c n : ℕ) : Snap → Snap → ℕ → Prop
  | first (h : Half) : Move w c n .none (.half (h.read w)) (match h with | .ptr => n | .count => c)
  | second (r : Torn) :
      Move w c n (.half r) (.whole (r.rest w)) (match r with | .ptr _ => c | .count _ => n)
  | keep (old : Pointer) : Move w c n (.whole old) (.whole old) n
  | again (old : Pointer) (h : Half) : Move w c n (.whole old) (.reread old (h.read w)) n
  | rest (old : Pointer) (r : Torn) :
      Move w c n (.reread old r) (.operands old (r.rest w)) n

/-- A word stays as it is, or it changes and counts up. -/
def CountsUp (w w' : Pointer) (c c' : ℕ) : Prop :=
  (w' = w ∧ c' = c) ∨ (w'.count = w.count + 1 ∧ c' = c + 1)

section Word

variable {w w' old : Pointer} {c c' n n' : ℕ} {sn sn' : Snap}

theorem count_toNat (hw : w.count = BitVec.ofNat 64 c) (hc : c < 2 ^ 64) : w.count.toNat = c := by
  rw [hw, BitVec.toNat_ofNat, Nat.mod_eq_of_lt hc]

theorem CountsUp.le (h : CountsUp w w' c c') : c ≤ c' := by
  rcases h with ⟨-, h⟩ | ⟨-, h⟩ <;> omega

theorem CountsUp.same (h : CountsUp w w' c c') (hc : c' = c) : w' = w := by
  rcases h with ⟨h, -⟩ | ⟨-, h⟩
  · exact h
  · omega

theorem CountsUp.count (h : CountsUp w w' c c') (hw : w.count = BitVec.ofNat 64 c) :
    w'.count = BitVec.ofNat 64 c' := by
  rcases h with ⟨rfl, rfl⟩ | ⟨h, rfl⟩
  · exact hw
  · rw [h, hw, BitVec.ofNat_add]
    rfl

/-- **A pair that is still stored has been there since its count was read**: another
thread's step cannot have brought it back. -/
theorem Snap.Ok.other (h : sn.Ok w c n) (hup : CountsUp w w' c c')
    (hw' : w'.count = BitVec.ofNat 64 c') (hc' : c' < 2 ^ 64) : sn.Ok w' c' n := by
  have hle := hup.le
  -- the count has not come round to `n` again, as fewer than `2 ^ 64` changes were made
  have hback : ∀ {old : Pointer}, old.count.toNat = n ∧ n ≤ c → w' = old → w = old := by
    rintro old ⟨hn, hnc⟩ rfl
    rw [count_toNat hw' hc'] at hn
    exact (hup.same (by omega)).symm
  cases sn with
  | none => trivial
  | half r =>
    cases r with
    | ptr a => trivial
    | count k => exact ⟨h.1, h.2.trans hle⟩
  | whole old => exact ⟨h.1, h.2.trans hle⟩
  | reread old r => exact ⟨⟨h.1.1, h.1.2.trans hle⟩, fun e => h.2 (hback h.1 e)⟩
  | operands old cur => exact ⟨⟨h.1.1, h.1.2.trans hle⟩, fun e => h.2 (hback h.1 e)⟩

/-- A read of its own. -/
theorem Snap.Ok.move (h : sn.Ok w c n) (hw : w.count = BitVec.ofNat 64 c) (hc : c < 2 ^ 64)
    (hm : Snap.Move w c n sn sn' n') : sn'.Ok w c n' := by
  have hnow : w.count.toNat = c := count_toNat hw hc
  cases hm with
  | first r =>
    cases r with
    | ptr => trivial
    | count => exact ⟨hnow, le_rfl⟩
  | second r =>
    cases r with
    | ptr a => exact ⟨hnow, le_rfl⟩
    | count k => exact h
  | keep old => exact h
  | again old r => exact ⟨h, fun e => e ▸ r.read_agrees w⟩
  | rest old r =>
    refine ⟨h.1, fun e => ?_⟩
    rw [e]
    exact Torn.rest_eq (h.2 e)

/-- What holds of a word that has changed `c` times: it holds this number as its count,
and thread `i` has read `sn i` of it, the count after `n i` changes. -/
structure WordInv (w : Pointer) (c : ℕ) (n : ℕ → ℕ) (sn : ℕ → Snap) : Prop where
  count : w.count = BitVec.ofNat 64 c
  snap : ∀ i, (sn i).Ok w c (n i)

/-- A step of thread `i` keeps it. -/
theorem WordInv.step {n n' : ℕ → ℕ} {sn sn' : ℕ → Snap} {i : ℕ} (h : WordInv w c n sn)
    (hup : CountsUp w w' c c') (hc' : c' < 2 ^ 64)
    (hi : sn' i = .none ∨ (w' = w ∧ c' = c) ∧ Snap.Move w c (n i) (sn i) (sn' i) (n' i))
    (hj : ∀ j, j ≠ i → sn' j = sn j ∧ n' j = n j) : WordInv w' c' n' sn' := by
  have hw' := hup.count h.count
  refine ⟨hw', fun j => ?_⟩
  by_cases hji : j = i
  · subst hji
    rcases hi with hnone | ⟨⟨rfl, rfl⟩, hm⟩
    · rw [hnone]
      trivial
    · exact (h.snap j).move h.count hc' hm
  · rw [(hj j hji).1, (hj j hji).2]
    exact (h.snap j).other hup hw' hc'

/-- The operands of a swap that succeeds: the word is `*p1`, and it has not changed since
the count of `*p2` was read. -/
theorem WordInv.operands {n : ℕ → ℕ} {sn : ℕ → Snap} {i : ℕ} {cur : Pointer}
    (h : WordInv w c n sn) (hc : c < 2 ^ 64) (hsn : sn i = .operands old cur) (heq : w = old) :
    cur = w ∧ n i = c := by
  have hok := h.snap i
  rw [hsn] at hok
  refine ⟨(hok.2 heq).trans heq.symm, ?_⟩
  rw [← hok.1.1, ← heq]
  exact count_toNat h.count hc

end Word

/-! ### The words `Q->Head` and `Q->Tail` -/

/-- What the program point shows of `Q->Tail`: only `enqueue` compares it. -/
def Pc.tailSnap : Pc → Snap
  | .enq (.restTail _ _ r) => .half r
  | .enq (.readNext _ _ tail) | .enq (.restNext _ _ tail _) | .enq (.readCur _ _ tail _) =>
      .whole tail
  | .enq (.restCur _ _ tail _ r) => .reread tail r
  | .enq (.cmp128 _ _ tail _ cur) => .operands tail cur
  | _ => .none

/-- What the program point shows of `Q->Head`: only `dequeue` compares it. -/
def Pc.headSnap : Pc → Snap
  | .deq (.restHead r) => .half r
  | .deq (.readTail head) | .deq (.restTail head _) | .deq (.readNext head _)
  | .deq (.restNext head _ _) | .deq (.readCur head _ _) => .whole head
  | .deq (.restCur head _ _ r) => .reread head r
  | .deq (.cmp128 head _ _ cur) => .operands head cur
  | _ => .none

/-- The step reads the count of `Q->Tail` for the comparison in `enqueue`. -/
def Pc.readsTailCount : Pc → Choice → Bool
  | .enq (.readTail _ _), .half .count | .enq (.restTail _ _ (.ptr _)), .go => true
  | _, _ => false

/-- The step reads the count of `Q->Head` for the comparison in `dequeue`. -/
def Pc.readsHeadCount : Pc → Choice → Bool
  | .deq .readHead, .half .count | .deq (.restHead (.ptr _)), .go => true
  | _, _ => false

/-- A swap of `cmp128` that is going to succeed stores what is there. -/
def Pc.WritesBack (s : Shared) : Pc → Prop
  | .enq (.cmp128 _ _ tail _ cur) => s.tail = tail → cur = tail
  | .deq (.cmp128 head _ _ cur) => s.head = head → cur = head
  | _ => True

section Steps

variable {s s' : Shared} {t t' : Thread} {p : Pc} {x : Choice} {e : Fifo.Event DataType}

theorem tailSnap_step (n : ℕ) (hst : Step s t p x s' t' e) :
    t'.pc.tailSnap = .none ∨ s' = s ∧ Snap.Move s.tail s.tailChanges n p.tailSnap t'.pc.tailSnap
      (if p.readsTailCount x then s.tailChanges else n) := by
  cases hst with
  | enqReadTail v node r => exact .inr ⟨rfl, by cases r <;> exact .first _⟩
  | enqRestTail v node r => exact .inr ⟨rfl, by cases r <;> exact .second _⟩
  | enqReadNext | enqRestNext => exact .inr ⟨rfl, .keep _⟩
  | enqReadCur => exact .inr ⟨rfl, .again _ _⟩
  | enqRestCur => exact .inr ⟨rfl, .rest _ _⟩
  | _ => exact .inl rfl

theorem headSnap_step (n : ℕ) (hst : Step s t p x s' t' e) :
    t'.pc.headSnap = .none ∨ s' = s ∧ Snap.Move s.head s.headChanges n p.headSnap t'.pc.headSnap
      (if p.readsHeadCount x then s.headChanges else n) := by
  cases hst with
  | readHead r => exact .inr ⟨rfl, by cases r <;> exact .first _⟩
  | restHead r => exact .inr ⟨rfl, by cases r <;> exact .second _⟩
  | deqReadTail | deqRestTail | deqReadNext | deqRestNext => exact .inr ⟨rfl, .keep _⟩
  | deqReadCur => exact .inr ⟨rfl, .again _ _⟩
  | deqRestCur => exact .inr ⟨rfl, .rest _ _⟩
  | _ => exact .inl rfl

theorem casTail_countsUp (s : Shared) (tail : Pointer) (a : Addr) :
    CountsUp s.tail (casTail s tail ⟨a, tail.count + 1⟩).1.tail s.tailChanges
      (casTail s tail ⟨a, tail.count + 1⟩).1.tailChanges := by
  by_cases heq : s.tail = tail
  · subst heq
    rw [casTail_of_eq rfl]
    exact .inr ⟨rfl, setTail_changes s a⟩
  · rw [casTail_of_ne heq]
    exact .inl ⟨rfl, rfl⟩

/-- **`Tail` counts up**, as long as `cmp128` stores what is there. -/
theorem tail_countsUp (hst : Step s t p x s' t' e) (hw : p.WritesBack s) :
    CountsUp s.tail s'.tail s.tailChanges s'.tailChanges := by
  cases hst with
  | enqLast v node tail next cur heq | enqBehind v node tail next cur heq =>
    rw [setTail_cur heq hw]
    exact .inl ⟨rfl, rfl⟩
  | enqAdvance | enqSwing | deqAdvance => exact casTail_countsUp s _ _
  | _ => exact .inl ⟨rfl, rfl⟩

/-- **`Head` counts up**, as long as `cmp128` stores what is there. -/
theorem head_countsUp (hst : Step s t p x s' t' e) (hw : p.WritesBack s) :
    CountsUp s.head s'.head s.headChanges s'.headChanges := by
  cases hst with
  | deqEmpty head tail next cur heq | deqBehind head tail next cur heq
  | deqFront head tail next cur heq =>
    rw [setHead_cur heq hw]
    exact .inl ⟨rfl, rfl⟩
  | pop head next v heq =>
    subst heq
    exact .inr ⟨rfl, setHead_changes s _⟩
  | _ => exact .inl ⟨rfl, rfl⟩

end Steps

/-! ### Runs -/

/-- How often `Q->Head` and `Q->Tail` had changed when each thread last read the count
that it compares. -/
structure CountNotes where
  head : ℕ → ℕ
  tail : ℕ → ℕ

/-- Noting the changes at each read of a count. -/
def countHistory :
    Interleave.Program.History ℕ Shared Thread Choice (Fifo.Event DataType) CountNotes where
  init := ⟨fun _ => 0, fun _ => 0⟩
  note n _ cfg i x _ _ _ :=
    { head := Function.update n.head i
        (if (cfg.thread i).pc.readsHeadCount x then cfg.shared.headChanges else n.head i)
      tail := Function.update n.tail i
        (if (cfg.thread i).pc.readsTailCount x then cfg.shared.tailChanges else n.tail i) }

/-- The runs from `new_queue()`, with any reuse of freed blocks and with these notes. -/
abbrev CountRun := program.Noted countHistory NewQueue fun _ _ _ _ => True

/-- What holds of both words. -/
structure CountInv (n : CountNotes) (cfg : Config) : Prop where
  head : WordInv cfg.shared.head cfg.shared.headChanges n.head fun i =>
    (cfg.thread i).pc.headSnap
  tail : WordInv cfg.shared.tail cfg.shared.tailChanges n.tail fun i =>
    (cfg.thread i).pc.tailSnap

theorem countInv_newQueue {cfg : Config} (h : NewQueue cfg) : CountInv countHistory.init cfg := by
  obtain ⟨mem, node, -, hs, hth⟩ := h
  refine ⟨⟨by rw [hs]; rfl, fun i => ?_⟩, ⟨by rw [hs]; rfl, fun i => ?_⟩⟩ <;>
  · rw [hth i]
    trivial

theorem CountInv.writesBack {n : CountNotes} {cfg : Config} (h : CountInv n cfg) (i : ℕ) :
    (cfg.thread i).pc.WritesBack cfg.shared := by
  have hhead := h.head.snap i
  have htail := h.tail.snap i
  generalize (cfg.thread i).pc = p at hhead htail ⊢
  cases p with
  | idle => trivial
  | enq q =>
    cases q with
    | cmp128 v node tail next cur => exact htail.2
    | _ => trivial
  | deq q =>
    cases q with
    | cmp128 head tail next cur => exact hhead.2
    | _ => trivial

theorem CountInv.step {n : CountNotes} {cfg : Config} (h : CountInv n cfg)
    {tr : List (ℕ × Fifo.Event DataType)} {i : ℕ} {x : Choice} {s' : Shared} {t' : Thread}
    {e : Fifo.Event DataType}
    (hs : MsQueue.step cfg.shared (cfg.thread i) x = some (s', t', e)) (hb : Bounded s') :
    CountInv (countHistory.note n tr cfg i x s' t' e) (cfg.after i s' t') := by
  have hst := step_cases hs
  constructor
  · refine h.head.step (head_countsUp hst (h.writesBack i)) hb.1 (i := i) ?_ fun j hj => ?_
    · simp only [countHistory, Function.update_self, Interleave.Config.after_thread_self]
      refine (headSnap_step (n.head i) hst).imp_right ?_
      rintro ⟨rfl, hm⟩
      exact ⟨⟨rfl, rfl⟩, hm⟩
    · rw [Interleave.Config.after_thread_of_ne _ _ _ hj]
      exact ⟨rfl, Function.update_of_ne hj _ _⟩
  · refine h.tail.step (tail_countsUp hst (h.writesBack i)) hb.2 (i := i) ?_ fun j hj => ?_
    · simp only [countHistory, Function.update_self, Interleave.Config.after_thread_self]
      refine (tailSnap_step (n.tail i) hst).imp_right ?_
      rintro ⟨rfl, hm⟩
      exact ⟨⟨rfl, rfl⟩, hm⟩
    · rw [Interleave.Config.after_thread_of_ne _ _ _ hj]
      exact ⟨rfl, Function.update_of_ne hj _ _⟩

theorem CountRun.inv {tr : List (ℕ × Fifo.Event DataType)} {cfg : Config} {n : CountNotes}
    (h : CountRun tr cfg n) (hb : Bounded cfg.shared) : CountInv n cfg := by
  refine Interleave.Program.Noted.induct
    (J := fun _ cfg n => Bounded cfg.shared → CountInv n cfg) ?_ ?_ h hb
  · intro cfg hc _
    exact countInv_newQueue hc
  · intro tr cfg n i x s' t' e _ ih _ hs hb
    have hist := history_step hs
    exact (ih ⟨hist.headLe.trans_lt hb.1, hist.tailLe.trans_lt hb.2⟩).step hs hb

/-- **`cmp128` only compares.**  At the end of every run with fewer than `2 ^ 64` changes,
a swap of `cmp128` that is going to succeed stores the pair that is there, and the word has
not changed since its count was read; and the next step leaves `Head` and `Tail` alone or
raises their counts by one. -/
theorem cmp128_compares {tr : List (ℕ × Fifo.Event DataType)} {cfg : Config} {n : CountNotes}
    (h : CountRun tr cfg n) (hb : Bounded cfg.shared) :
    (∀ i v node tail next cur, (cfg.thread i).pc = .enq (.cmp128 v node tail next cur) →
      (casTail cfg.shared tail cur).2 = true →
        cur = cfg.shared.tail ∧ n.tail i = cfg.shared.tailChanges) ∧
    (∀ i head tail next cur, (cfg.thread i).pc = .deq (.cmp128 head tail next cur) →
      (casHead cfg.shared head cur).2 = true →
        cur = cfg.shared.head ∧ n.head i = cfg.shared.headChanges) ∧
    ∀ i x s' t' e, step cfg.shared (cfg.thread i) x = some (s', t', e) → Bounded s' →
      (s'.head = cfg.shared.head ∨ s'.head.count.toNat = cfg.shared.head.count.toNat + 1) ∧
        (s'.tail = cfg.shared.tail ∨ s'.tail.count.toNat = cfg.shared.tail.count.toNat + 1) := by
  have hinv := h.inv hb
  refine ⟨fun i v node tail next cur hpc hcas => ?_, fun i head tail next cur hpc hcas => ?_,
    fun i x s' t' e hs hb' => ⟨?_, ?_⟩⟩
  · have heq : cfg.shared.tail = tail := by
      by_contra hne
      rw [casTail_of_ne hne] at hcas
      cases hcas
    exact hinv.tail.operands hb.2 (by rw [hpc]; rfl) heq
  · have heq : cfg.shared.head = head := by
      by_contra hne
      rw [casHead_of_ne hne] at hcas
      cases hcas
    exact hinv.head.operands hb.1 (by rw [hpc]; rfl) heq
  · have hup := head_countsUp (step_cases hs) (hinv.writesBack i)
    refine hup.imp And.left fun ⟨hc, hn⟩ => ?_
    rw [count_toNat (hup.count hinv.head.count) hb'.1, count_toNat hinv.head.count hb.1, hn]
  · have hup := tail_countsUp (step_cases hs) (hinv.writesBack i)
    refine hup.imp And.left fun ⟨hc, hn⟩ => ?_
    rw [count_toNat (hup.count hinv.tail.count) hb'.2, count_toNat hinv.tail.count hb.2, hn]

/-- Thread 0 is about to swap `Q->Tail` for itself, after one change. -/
def comparesTail (cfg : Config) : Bool :=
  match (cfg.thread 0).pc with
  | .enq (.cmp128 _ _ tail _ cur) => decide ((casTail cfg.shared tail cur).2 = true ∧
      cfg.shared.headChanges = 0 ∧ cfg.shared.tailChanges = 1)
  | _ => false

/-- Thread 1 enqueues; then thread 0 compares `Q->Tail` with what it has read. -/
theorem cmp128_compares_tail : ∃ tr cfg n, CountRun tr cfg n ∧ Bounded cfg.shared ∧
    ∃ v node tail next cur, (cfg.thread 0).pc = .enq (.cmp128 v node tail next cur) ∧
      cur = cfg.shared.tail ∧ n.tail 0 = 1 := by
  obtain ⟨tr, cfg, hr, ht⟩ : ∃ tr cfg, AnyRun tr cfg ∧ comparesTail cfg = true :=
    Interleave.Program.exists_run_of_exec (fun _ _ _ _ => true) (fun _ _ _ _ _ => trivial)
      (newQueue_start 16 (by decide))
      (enqueueToLink 1 8 32 ⟨⟨5, 5⟩, 5⟩ ++ enqueueFromLink 1 ++
        (enqueueToLink 0 7 48 ⟨⟨5, 5⟩, 5⟩).dropLast)
      (fun _ => comparesTail) (by decide)
  obtain ⟨n, hn⟩ := hr.noted countHistory
  unfold comparesTail at ht
  split at ht
  · next v node tail next cur hpc =>
    obtain ⟨hcas, hh, htl⟩ := of_decide_eq_true ht
    have hb : Bounded cfg.shared := ⟨by omega, by omega⟩
    obtain ⟨hcur, hnote⟩ := (cmp128_compares hn hb).1 0 v node tail next cur hpc hcas
    exact ⟨tr, cfg, n, hn, hb, v, node, tail, next, cur, hpc, hcur, hnote.trans htl⟩
  · cases ht

end Coremu.MsQueue

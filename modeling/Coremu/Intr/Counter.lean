import Coremu.Intr.Receive
import Coremu.Lib.FifoServed

/-!
# The counter of the interrupt queue

`coremu_get_intr` decides by the counter of the queue whether there is an interrupt,
but an enqueuer counts its value only after it has linked it, and the core counts down
only after it has removed one.  What saves it is that the core removes at most as many
values as have been counted: the values linked and not yet counted are never more than
those in the queue.

This module derives it for every queue whose counter keeps account in this way
(`Counter`), from the one contract that both queues meet.

## Main definitions

* `Counts`, `Counter` — a queue whose counter keeps account.
* `Counted` — at least `n` values have been counted and not removed.
* `RecvInv` — the invariant of `coremu_receive_intr`.

## Main results

* `Run.recvInv` — **the invariant holds at the end of every run.**
* `RecvInv.size_nonneg` — the counter is never negative.
* `RecvInv.length_le_of_test` — when the test fails, no more values are in the queue
  than are linked and not counted.
-/

namespace Coremu.Intr

variable {σ τ χ : Type} {Q : Queue σ τ χ}

/-- The counter of the queue, in terms of the abstract queue `a`: a value is missing
while its enqueuer is in the window `uncounted`, and counted twice while its dequeuer
is in the window `popped`. -/
structure Counts (Q : Queue σ τ χ) (uncounted popped : τ → Bool) (a : Fifo.State ℕ DataType)
    (cfg : Interleave.Config ℕ σ τ) : Prop where
  idle : ∀ i, Q.idle (cfg.thread i) = true ↔ a.op i = .idle
  taken : ∀ i, popped (cfg.thread i) = true → ∃ v, a.op i = .deqDone v
  length : a.content.length ≤ 2 ^ 60
  size : ∃ U D : Finset ℕ, (∀ i, i ∈ U ↔ uncounted (cfg.thread i) = true) ∧
    (∀ i, i ∈ D ↔ popped (cfg.thread i) = true) ∧
    Q.queueGetSize cfg.shared = (BitVec.ofInt 64 (a.content.length - U.card + D.card)).toInt

/-- A linearizable queue whose counter keeps account. -/
structure Counter (Q : Queue σ τ χ) (start : Interleave.Config ℕ σ τ → Prop)
    (allow : List (ℕ × Fifo.Event DataType) → Interleave.Config ℕ σ τ → ℕ → χ → Prop) where
  /-- The value is in the queue and not counted yet. -/
  uncounted : τ → Bool
  /-- The value is out of the queue and still counted. -/
  popped : τ → Bool
  counts : ∀ {tr cfg}, Q.program.Run start allow tr cfg →
    ∃ a, Fifo.exec tr = some a ∧ Counts Q uncounted popped a cfg
  idle : ∀ {t}, Q.idle t = true → uncounted t = false
  /-- Only an append opens the window. -/
  window : ∀ {i s t x s' t' e}, Q.program.step i s t x = some (s', t', e) →
    uncounted t' = true → uncounted t = true ∨ ∃ v, e = .append v

variable {start : Interleave.Config ℕ σ τ → Prop}
  {qallow : List (ℕ × Fifo.Event DataType) → Interleave.Config ℕ σ τ → ℕ → χ → Prop}

/-- At least `n` values in the queue are counted. -/
def Counted (K : Counter Q start qallow) (n : ℕ) (a : Fifo.State ℕ DataType)
    (cfg : Interleave.Config ℕ σ τ) : Prop :=
  ∃ U : Finset ℕ, (∀ i, i ∈ U ↔ K.uncounted (cfg.thread i) = true) ∧ U.card + n ≤ a.content.length

section Counted

variable {K : Counter Q start qallow} {n : ℕ} {a b : Fifo.State ℕ DataType}
  {cfg : Interleave.Config ℕ σ τ} {i : ℕ} {x : χ} {s' : σ} {l : τ} {f : Fifo.Event DataType}

/-- The enqueuers in the window after a step of thread `i`: at most one more, and then
the step appended a value. -/
theorem Counter.exists_window (K : Counter Q start qallow)
    (hs : Q.program.step i cfg.shared (cfg.thread i) x = some (s', l, f)) {U : Finset ℕ}
    (hU : ∀ j, j ∈ U ↔ K.uncounted (cfg.thread j) = true) :
    ∃ U' : Finset ℕ, (∀ j, j ∈ U' ↔ K.uncounted ((cfg.after i s' l).thread j) = true) ∧
      U'.card ≤ U.card + 1 ∧ ((∀ v, f ≠ .append v) → U'.card ≤ U.card) := by
  by_cases hl : K.uncounted l = true
  · refine ⟨insert i U, Interleave.Config.forall_after
      (T := fun j (t : τ) => j ∈ insert i U ↔ K.uncounted t = true) ?_ fun j hj => ?_,
      Finset.card_insert_le i U, fun hf => ?_⟩
    · simp [hl]
    · simp [hj, hU j]
    · rcases K.window hs hl with h | ⟨v, h⟩
      · rw [Finset.insert_eq_of_mem ((hU i).mpr h)]
      · exact absurd h (hf v)
  · refine ⟨U.erase i, Interleave.Config.forall_after
      (T := fun j (t : τ) => j ∈ U.erase i ↔ K.uncounted t = true) ?_ fun j hj => ?_,
      (Finset.card_erase_le).trans (Nat.le_succ _), fun _ => Finset.card_erase_le⟩
    · simp [hl]
    · simp [hj, hU j]

/-- A step that removes no value keeps the values that are counted. -/
theorem Counted.step (h : Counted K n a cfg)
    (hs : Q.program.step i cfg.shared (cfg.thread i) x = some (s', l, f))
    (ha : Fifo.step a i f = some b) (hf : ∀ v, f ≠ .remove v) :
    Counted K n b (cfg.after i s' l) := by
  obtain ⟨U, hU, hle⟩ := h
  obtain ⟨U', hU', hcard, hsame⟩ := K.exists_window hs hU
  refine ⟨U', hU', ?_⟩
  by_cases happ : ∃ v, f = .append v
  · obtain ⟨v, rfl⟩ := happ
    obtain ⟨-, rfl⟩ := Fifo.step_append.mp ha
    rw [List.length_append, List.length_singleton]
    omega
  · rw [not_exists] at happ
    rw [Fifo.content_of_step ha happ hf]
    have := hsame happ
    omega

/-- A step that removes a value takes one of those that are counted. -/
theorem Counted.remove {v : DataType} (h : Counted K (n + 1) a cfg)
    (hs : Q.program.step i cfg.shared (cfg.thread i) x = some (s', l, .remove v))
    (ha : Fifo.step a i (.remove v) = some b) : Counted K n b (cfg.after i s' l) := by
  obtain ⟨U, hU, hle⟩ := h
  obtain ⟨U', hU', -, hsame⟩ := K.exists_window hs hU
  obtain ⟨w, e, rest, -, hc, -, rfl⟩ := Fifo.step_remove.mp ha
  have hcard := hsame (by simp)
  rw [hc, List.length_cons] at hle
  exact ⟨U', hU', by dsimp only; omega⟩

theorem Counted.mono {m : ℕ} (h : Counted K n a cfg) (hm : m ≤ n) : Counted K m a cfg := by
  obtain ⟨U, hU, hle⟩ := h
  exact ⟨U, hU, by omega⟩

theorem Counted.content_ne_nil (h : Counted K 1 a cfg) : a.content ≠ [] := by
  obtain ⟨U, -, hle⟩ := h
  intro he
  rw [he, List.length_nil] at hle
  omega

end Counted

/-! ### The invariant of `coremu_receive_intr` -/

/-- What holds of the operation of core `c` at each place of `coremu_receive_intr`.
Once the test has passed, one of the counted values is the core's to remove. -/
def Place (K : Counter Q start qallow) (c : ℕ) (a : Fifo.State ℕ DataType)
    (cfg : Interleave.Config ℕ σ τ) : RecvPc → Prop
  | .out | .handler => (a.op c).NoDeq
  | .intrP | .handle _ | .ret => a.op c = .idle
  | .dequeue => ((a.op c = .idle ∨ a.op c = .deq false) ∧ Counted K 1 a cfg) ∨
      ∃ v, a.op c = .deqDone v

/-- The interrupt returned by `coremu_get_intr` and not yet passed on. -/
def RecvPc.pending : RecvPc → List DataType
  | .handle intr => [intr]
  | _ => []

/-- What holds in every reachable state. -/
structure RecvInv (K : Counter Q start qallow) (c : ℕ) (tr : List (ℕ × Event))
    (a : Fifo.State ℕ DataType) (cfg : Interleave.Config ℕ σ (Thread τ)) : Prop where
  sole : ∀ i, i ≠ c → (i, .callDeq) ∉ queueTrace tr
  place : Place K c a (queueConfig cfg) (cfg.thread c).recv
  counted : Counted K 0 a (queueConfig cfg)
  handled : (Fifo.returned (queueTrace tr)).filter (· ≠ NULL) =
    handled tr ++ (cfg.thread c).recv.pending
  never : (c, .queue (.retDeq none)) ∉ tr

section Recv

variable {K : Counter Q start qallow} {c i : ℕ} {tr : List (ℕ × Event)}
  {a b : Fifo.State ℕ DataType} {cfg : Interleave.Config ℕ σ (Thread τ)}

/-- The values of the counter. -/
theorem RecvInv.size_eq (h : RecvInv K c tr a cfg) (ha : Fifo.exec (queueTrace tr) = some a)
    (hcnt : Counts Q K.uncounted K.popped a (queueConfig cfg)) :
    ∃ U : Finset ℕ, (∀ j, j ∈ U ↔ K.uncounted (cfg.thread j).queue = true) ∧
      U.card ≤ a.content.length ∧
      Q.queueGetSize cfg.shared = a.content.length - U.card +
        if K.popped (cfg.thread c).queue then 1 else 0 := by
  obtain ⟨U, D, hU, hD, hsize⟩ := hcnt.size
  obtain ⟨U', hU', hle⟩ := h.counted
  obtain rfl : U' = U := by
    ext j
    rw [hU', hU]
  have hD' : (D.card : ℤ) = if K.popped (cfg.thread c).queue then 1 else 0 := by
    -- only the core itself takes values out
    have hsub : ∀ j ∈ D, j = c := by
      intro j hj
      by_contra hne
      obtain ⟨v, hv⟩ := hcnt.taken j ((hD j).mp hj)
      exact ((Fifo.removed_eq_returned ha h.sole).2 j hne).2 v hv
    by_cases hc : K.popped (cfg.thread c).queue = true
    · have : D = {c} := Finset.eq_singleton_iff_unique_mem.mpr ⟨(hD c).mpr hc, hsub⟩
      rw [this, Finset.card_singleton, if_pos hc]
      rfl
    · have : D = ∅ := Finset.eq_empty_of_forall_notMem fun j hj => hc ((hD c).mp (hsub j hj ▸ hj))
      rw [this, Finset.card_empty, if_neg hc]
      rfl
  have hlen := hcnt.length
  refine ⟨U', hU', hle, ?_⟩
  change Q.queueGetSize (queueConfig cfg).shared = _
  rw [hsize, hD', toInt_ofInt_of_lt]
  · split <;> omega
  · split <;> omega

/-- **The counter is never negative.** -/
theorem RecvInv.size_nonneg (h : RecvInv K c tr a cfg) (ha : Fifo.exec (queueTrace tr) = some a)
    (hcnt : Counts Q K.uncounted K.popped a (queueConfig cfg)) :
    0 ≤ Q.queueGetSize cfg.shared := by
  obtain ⟨U, -, hle, hsize⟩ := h.size_eq ha hcnt
  rw [hsize]
  split <;> omega

/-- At the test the counter is the number of values that are counted. -/
theorem RecvInv.size_of_test (h : RecvInv K c tr a cfg) (ha : Fifo.exec (queueTrace tr) = some a)
    (hcnt : Counts Q K.uncounted K.popped a (queueConfig cfg))
    (hr : (cfg.thread c).recv = .intrP) :
    ∃ U : Finset ℕ, (∀ j, j ∈ U ↔ K.uncounted (cfg.thread j).queue = true) ∧
      Q.queueGetSize cfg.shared = a.content.length - U.card := by
  obtain ⟨U, hU, -, hsize⟩ := h.size_eq ha hcnt
  have hidle : a.op c = .idle := by
    have := h.place
    rw [hr] at this
    exact this
  have hnp : ¬ K.popped (cfg.thread c).queue = true := by
    intro hp
    obtain ⟨v, hv⟩ := hcnt.taken c hp
    rw [hidle] at hv
    cases hv
  rw [if_neg hnp, add_zero] at hsize
  exact ⟨U, hU, hsize⟩

/-- **When the test fails, no more values are in the queue than are linked and not
counted.** -/
theorem RecvInv.length_le_of_test (h : RecvInv K c tr a cfg)
    (ha : Fifo.exec (queueTrace tr) = some a)
    (hcnt : Counts Q K.uncounted K.popped a (queueConfig cfg))
    (hr : (cfg.thread c).recv = .intrP) (ht : coremuIntrP Q cfg.shared = false) :
    ∃ U : Finset ℕ, (∀ j, j ∈ U ↔ K.uncounted (cfg.thread j).queue = true) ∧
      a.content.length ≤ U.card := by
  obtain ⟨U, hU, hsize⟩ := h.size_of_test ha hcnt hr
  have : ¬ 0 < Q.queueGetSize cfg.shared := of_decide_eq_false ht
  exact ⟨U, hU, by omega⟩

/-! ### The steps -/

/-- A step of another thread, or of the core outside the queue: only the place of the
core matters. -/
theorem RecvInv.local (h : RecvInv K c tr a cfg) {e : Event} (he : e.local = true) {r : RecvPc}
    (hi : i = c) (hp : Place K c a (queueConfig cfg) r)
    (hh : Intr.handled tr ++ (cfg.thread c).recv.pending =
      Intr.handled (tr ++ [(i, e)]) ++ r.pending) :
    RecvInv K c (tr ++ [(i, e)]) a (cfg.after i cfg.shared ⟨r, (cfg.thread i).queue⟩) := by
  subst hi
  have hq := queueTrace_concat_local tr i he
  refine ⟨?_, ?_, ?_, ?_, ?_⟩
  · rw [hq]; exact h.sole
  · rw [queueConfig_after_local, Interleave.Config.after_thread_self]; exact hp
  · rw [queueConfig_after_local]; exact h.counted
  · rw [hq, Interleave.Config.after_thread_self, h.handled, hh]
  · rw [List.mem_append, List.mem_singleton, not_or]
    refine ⟨h.never, fun hm => ?_⟩
    rw [Prod.mk.injEq] at hm
    rw [← hm.2] at he
    cases he

/-- What a step of the queue keeps, whoever makes it. -/
theorem RecvInv.queue (h : RecvInv K c tr a cfg) {s' : σ} {t' : Thread τ}
    {f : Fifo.Event DataType} (hsole : f = .callDeq → i = c) (hnever : f ≠ .retDeq none)
    (hplace : Place K c b ((queueConfig cfg).after i s' t'.queue)
      ((cfg.after i s' t').thread c).recv)
    (hcounted : Counted K 0 b ((queueConfig cfg).after i s' t'.queue))
    (hret : (Fifo.returned (queueTrace tr ++ [(i, f)])).filter (· ≠ NULL) =
      Intr.handled tr ++ ((cfg.after i s' t').thread c).recv.pending) :
    RecvInv K c (tr ++ [(i, .queue f)]) b (cfg.after i s' t') := by
  refine ⟨?_, ?_, ?_, ?_, ?_⟩
  · intro j hj
    rw [queueTrace_concat_queue, List.mem_append, List.mem_singleton, not_or]
    refine ⟨h.sole j hj, fun hm => hj ?_⟩
    rw [Prod.mk.injEq] at hm
    exact hm.1.trans (hsole hm.2.symm)
  · rw [queueConfig_after]; exact hplace
  · rw [queueConfig_after]; exact hcounted
  · rw [queueTrace_concat_queue, hret]
    simp [Intr.handled]
  · rw [List.mem_append, List.mem_singleton, not_or]
    refine ⟨h.never, fun hm => hnever ?_⟩
    rw [Prod.mk.injEq, Event.queue.injEq] at hm
    exact hm.2.symm

theorem RecvInv.noDeq (h : RecvInv K c tr a cfg) (ha : Fifo.exec (queueTrace tr) = some a)
    (hi : i ≠ c) : (a.op i).NoDeq :=
  (Fifo.removed_eq_returned ha h.sole).2 i hi

/-- The place of core `c` is kept by a step of another thread that removes no value. -/
theorem Place.step (hp : Place K c a (queueConfig cfg) (cfg.thread c).recv) {x : χ} {s' : σ} {l : τ}
    {f : Fifo.Event DataType} (hi : i ≠ c)
    (hs : Q.program.step i cfg.shared (cfg.thread i).queue x = some (s', l, f))
    (ha : Fifo.step a i f = some b) (hf : ∀ v, f ≠ .remove v) :
    Place K c b ((queueConfig cfg).after i s' l) (cfg.thread c).recv := by
  have hop : b.op c = a.op c := Fifo.op_of_ne ha (Ne.symm hi)
  cases hr : (cfg.thread c).recv with
  | dequeue =>
    rw [hr] at hp
    rcases hp with ⟨ho, hcnt⟩ | hd
    · exact .inl ⟨by rw [hop]; exact ho, hcnt.step hs ha hf⟩
    · exact .inr (by rw [hop]; exact hd)
  | _ =>
    rw [hr] at hp
    simpa only [Place, hop] using hp

/-- An access of `coremu_put_intr`. -/
theorem RecvInv.put (h : RecvInv K c tr a cfg) (hexec : Fifo.exec (queueTrace tr) = some a) {x : χ}
    {s' : σ} {l : τ} {f : Fifo.Event DataType}
    (hr : (cfg.thread i).recv = .out ∨ (cfg.thread i).recv = .handler)
    (hs : Q.program.step i cfg.shared (cfg.thread i).queue x = some (s', l, f))
    (hf : f ≠ .callDeq) (ha : Fifo.step a i f = some b) :
    RecvInv K c (tr ++ [(i, .queue f)]) b
      (cfg.after i s' { cfg.thread i with queue := l }) := by
  have hno : (a.op i).NoDeq := by
    by_cases hi : i = c
    · have hp := h.place
      rw [← hi] at hp
      rcases hr with hr | hr <;> (rw [hr] at hp; exact hi ▸ hp)
    · exact h.noDeq hexec hi
  obtain ⟨hrem, hret⟩ := Fifo.ne_of_noDeq ha hno
  have hrecv : ((cfg.after i s' { cfg.thread i with queue := l }).thread c).recv =
      (cfg.thread c).recv := by
    by_cases hi : c = i
    · subst hi; rw [Interleave.Config.after_thread_self]
    · rw [Interleave.Config.after_thread_of_ne _ _ _ hi]
  refine h.queue (fun e => absurd e hf) (hret none) ?_ (h.counted.step hs ha hrem) ?_
  · rw [hrecv]
    by_cases hi : i = c
    · subst hi
      have hno' := Fifo.noDeq_step ha hf hno
      rcases hr with hr | hr <;> (rw [hr]; exact hno')
    · exact h.place.step hi hs ha hrem
  · rw [hrecv, ← h.handled]
    cases f with
    | retDeq r => exact absurd rfl (hret r)
    | _ => simp [Fifo.returned]

/-- An access of the core's own `dequeue` leads to its next place: as long as a value is
counted, the look does not find the queue empty. -/
theorem Place.get (hp : Place K c a (queueConfig cfg) .dequeue) {x : χ} {s' : σ} {l : τ}
    {f : Fifo.Event DataType}
    (hs : Q.program.step c cfg.shared (cfg.thread c).queue x = some (s', l, f))
    (hf : ∀ v, f ≠ .callEnq v) (ha : Fifo.step a c f = some b) :
    Place K c b ((queueConfig cfg).after c s' l) (RecvPc.after f) := by
  have hself : ∀ o, Function.update a.op c o c = o := fun o => Function.update_self _ _ _
  rcases hp with ⟨ho, hcnt⟩ | ⟨v, ho⟩
  · -- the value is still to be removed
    cases Fifo.step_cases ha with
    | callEnq v => exact absurd rfl (hf v)
    | callDeq => exact .inl ⟨.inr (hself _), hcnt.step hs ha (by simp)⟩
    | look w =>
      have hne : a.content.isEmpty = false := by simpa using hcnt.content_ne_nil
      exact .inl ⟨.inr (by simp [hne]), hcnt.step hs ha (by simp)⟩
    | remove w e rest _ hc =>
      exact .inr ⟨e.value, hself _⟩
    | tau => exact .inl ⟨ho, hcnt.step hs ha (by simp)⟩
    | append v ho' | retEnq ho' | retSome v ho' | retNone ho' =>
      rcases ho with ho | ho <;> (rw [ho] at ho'; cases ho')
  · -- it has been removed, so the call returns it
    cases Fifo.step_cases ha with
    | callEnq v => exact absurd rfl (hf v)
    | tau => exact .inr ⟨v, ho⟩
    | retSome u ho' =>
      by_cases hu : u = NULL
      · rw [hu, RecvPc.after_retNull]
        exact hself _
      · rw [RecvPc.after_retSome hu]
        exact hself _
    | callDeq ho' | look w ho' | remove w e rest ho' | append u ho' | retEnq ho' | retNone ho' =>
      rw [ho] at ho'
      cases ho'

/-- The `dequeue` does not return without a value. -/
theorem Place.ne_retNone (hp : Place K c a (queueConfig cfg) .dequeue) {f : Fifo.Event DataType}
    (ha : Fifo.step a c f = some b) : f ≠ .retDeq none := by
  rintro rfl
  have ho := (Fifo.step_retNone.mp ha).1
  rcases hp with ⟨ho' | ho', -⟩ | ⟨v, ho'⟩ <;> (rw [ho] at ho'; cases ho')

/-- An access of the `dequeue` in `coremu_get_intr`: it finds a value. -/
theorem RecvInv.get (h : RecvInv K c tr a cfg) {x : χ} {s' : σ} {l : τ}
    {f : Fifo.Event DataType} (hr : (cfg.thread c).recv = .dequeue)
    (hs : Q.program.step c cfg.shared (cfg.thread c).queue x = some (s', l, f))
    (hf : ∀ v, f ≠ .callEnq v) (ha : Fifo.step a c f = some b) :
    RecvInv K c (tr ++ [(c, .queue f)]) b (cfg.after c s' ⟨RecvPc.after f, l⟩) := by
  have hp := h.place
  rw [hr] at hp
  have hhand := h.handled
  rw [hr] at hhand
  simp only [RecvPc.pending, List.append_nil] at hhand
  have hrecv : ((cfg.after c s' ⟨RecvPc.after f, l⟩).thread c).recv = RecvPc.after f := by
    rw [Interleave.Config.after_thread_self]
  refine h.queue (fun _ => rfl) (hp.ne_retNone ha) ?_ ?_ ?_
  · rw [hrecv]
    exact hp.get hs hf ha
  · by_cases hrem : ∃ v, f = .remove v
    · obtain ⟨v, rfl⟩ := hrem
      rcases hp with ⟨-, hcnt⟩ | ⟨u, ho⟩
      · exact hcnt.remove hs ha
      · obtain ⟨w, e, rest, ho', -⟩ := Fifo.step_remove.mp ha
        rw [ho] at ho'
        cases ho'
    · rw [not_exists] at hrem
      exact h.counted.step hs ha hrem
  · rw [hrecv, Fifo.returned_append, List.filter_append, hhand]
    cases f with
    | retDeq r =>
      cases r with
      | none => exact absurd rfl (hp.ne_retNone ha)
      | some u =>
        -- a `NULL` is not passed on
        by_cases hu : u = NULL
        · rw [hu, RecvPc.after_retNull]
          rfl
        · rw [RecvPc.after_retSome hu]
          have hkeep : decide (u ≠ NULL) = true := decide_eq_true hu
          simp only [Fifo.returned, List.filterMap_cons, List.filterMap_nil, List.filter_cons,
            hkeep, if_true, List.filter_nil, RecvPc.pending]
    | _ =>
      rw [RecvPc.after_of_ne (by simp)]
      rfl

/-- Outside the queue nothing happens to the abstract queue. -/
theorem eq_of_exec_local (hb : Fifo.exec (queueTrace tr) = some b) {e : Event}
    (he : e.local = true) (ha : Fifo.exec (queueTrace (tr ++ [(i, e)])) = some a) : b = a := by
  rw [queueTrace_concat_local _ _ he, hb] at ha
  exact Option.some.inj ha

theorem step_of_exec_queue (hb : Fifo.exec (queueTrace tr) = some b) {f : Fifo.Event DataType}
    (ha : Fifo.exec (queueTrace (tr ++ [(i, .queue f)])) = some a) :
    Fifo.step b i f = some a := by
  rw [queueTrace_concat_queue, Fifo.exec_concat_eq_some] at ha
  obtain ⟨b', hb', hst⟩ := ha
  rw [hb] at hb'
  exact Option.some.inj hb' ▸ hst

/-- The test of `coremu_intr_p`: if the counter is positive, a value is counted. -/
theorem RecvInv.test (h : RecvInv K c tr a cfg) (ha : Fifo.exec (queueTrace tr) = some a)
    (hcnt : Counts Q K.uncounted K.popped a (queueConfig cfg))
    (hr : (cfg.thread c).recv = .intrP) :
    Place K c a (queueConfig cfg) (if coremuIntrP Q cfg.shared then .dequeue else .ret) := by
  have hidle := h.place
  rw [hr] at hidle
  split
  · next ht =>
    obtain ⟨U, hU, hsize⟩ := h.size_of_test ha hcnt hr
    have hpos : 0 < Q.queueGetSize cfg.shared := of_decide_eq_true ht
    exact .inl ⟨.inl hidle, U, hU, by omega⟩
  · exact hidle

/-- **A step keeps the invariant.** -/
theorem RecvInv.step (h : RecvInv K c tr b cfg) (hb : Fifo.exec (queueTrace tr) = some b)
    (hcnt : Counts Q K.uncounted K.popped b (queueConfig cfg))
    (hout : ∀ i, i ≠ c → (cfg.thread i).recv = .out) {x : Choice χ} {s' : σ} {t' : Thread τ}
    {e : Event} (hst : Step Q c i cfg.shared (cfg.thread i) x s' t' e)
    (ha : Fifo.exec (queueTrace (tr ++ [(i, e)])) = some a) :
    RecvInv K c (tr ++ [(i, e)]) a (cfg.after i s' t') := by
  have hic : (cfg.thread i).recv ≠ .out → i = c := fun hne => by
    by_contra hne'
    exact hne (hout i hne')
  have hplace := h.place
  cases hst with
  | receive hc hr hi =>
    obtain rfl := eq_of_exec_local hb rfl ha
    subst hc
    refine h.local rfl rfl ((hcnt.idle i).mp hi) ?_
    rw [hr]
    simp [Intr.handled, RecvPc.pending]
  | intrP hr =>
    obtain rfl := eq_of_exec_local hb rfl ha
    obtain rfl := hic (by simp [hr])
    refine h.local rfl rfl (h.test hb hcnt hr) ?_
    rw [hr]
    split <;> simp [Intr.handled, RecvPc.pending]
  | put hr hs hf => exact h.put hb hr hs hf (step_of_exec_queue hb ha)
  | get hr hs hf =>
    obtain rfl := hic (by simp [hr])
    exact h.get hr hs hf (step_of_exec_queue hb ha)
  | handle hr | done hr =>
    obtain rfl := eq_of_exec_local hb rfl ha
    obtain rfl := hic (by simp [hr])
    rw [hr] at hplace
    have hidle : b.op i = .idle := hplace
    refine h.local rfl rfl (show (b.op i).NoDeq from hidle ▸ Fifo.Op.noDeq_idle) ?_
    rw [hr]
    simp [Intr.handled, RecvPc.pending]
  | handled hr hi =>
    obtain rfl := eq_of_exec_local hb rfl ha
    obtain rfl := hic (by simp [hr])
    refine h.local rfl rfl ((hcnt.idle i).mp hi) ?_
    rw [hr]
    simp [Intr.handled, RecvPc.pending]

/-! ### Whole runs -/

variable {allow : List (ℕ × Event) → Interleave.Config ℕ σ (Thread τ) → ℕ → Choice χ → Prop}

theorem recvInv_nil (K : Counter Q start qallow) (hc : Start start cfg) :
    RecvInv K c [] Fifo.empty cfg := by
  obtain ⟨a, ha, hcnt⟩ := K.counts (.nil hc.1)
  rw [Fifo.exec_nil, Option.some.injEq] at ha
  subst ha
  have hidle : ∀ i, K.uncounted (cfg.thread i).queue = false :=
    fun i => K.idle ((hcnt.idle i).mpr rfl)
  refine ⟨by simp, ?_, ⟨∅, fun i => ?_, le_rfl⟩, ?_, by simp⟩
  · rw [hc.2 c]
    exact Fifo.Op.noDeq_idle
  · exact iff_of_false (by simp) (by simp [queueConfig, hidle i])
  · rw [hc.2 c]
    rfl

/-- **The invariant holds at the end of every run.** -/
theorem Run.recvInv (K : Counter Q start qallow) (hq : Allows Q c allow qallow)
    (h : (program Q c).Run (Start start) allow tr cfg) :
    ∃ a, Fifo.exec (queueTrace tr) = some a ∧
      Counts Q K.uncounted K.popped a (queueConfig cfg) ∧ RecvInv K c tr a cfg := by
  obtain ⟨hqr, -⟩ := Run.queue hq h
  obtain ⟨a, ha, hcnt⟩ := K.counts hqr
  refine ⟨a, ha, hcnt, ?_⟩
  clear hqr hcnt
  -- the abstract queue is determined by the trace, so it may vary in the induction
  induction h generalizing a with
  | nil hc =>
    rw [queueTrace_nil, Fifo.exec_nil, Option.some.injEq] at ha
    exact ha ▸ recvInv_nil K hc
  | @snoc tr cfg i x s' t' e hrun hal hs ih =>
    obtain ⟨hqr, hout⟩ := Run.queue hq hrun
    obtain ⟨b, hb, hcnt⟩ := K.counts hqr
    exact (ih b hb).step hb hcnt hout (step_cases hs) ha

end Recv

end Coremu.Intr

import Coremu.Intr.Counter

/-!
# Draining the interrupt queue

`coremu_receive_intr` is to "handle all the pending interrupt": when it returns, every
interrupt that was on the queue when it began should have been passed to
`event_handler`.  It stops when the counter of the queue is zero, so what is left then
has not been counted.  Whether it can have been sent nevertheless depends on the queue.
It also stops at a `NULL`, and then leaves what was sent after it: the results about a
whole call are about runs in which none is put.

## Main definitions

* `Drained` — every interrupt sent before has been handled, once and in queue order.
* `GetIntrSucceeds` — `coremu_get_intr` succeeds whenever its test passes.
* `Progress`, `Returning` — a measure of what is left of a dequeue, and its bound.

## Main results

* `Run.drained` — **a call drains the queue, if no `NULL` is put, and whenever its test
  fails only interrupts are left that have not been sent yet.**
* `Run.getIntrSucceeds` — **when the test passes, the dequeue that follows returns a
  value.**
-/

namespace Coremu.Intr

variable {σ τ χ : Type} {Q : Queue σ τ χ} {start : Interleave.Config ℕ σ τ → Prop}
  {qallow : List (ℕ × Fifo.Event DataType) → Interleave.Config ℕ σ τ → ℕ → χ → Prop}
  {allow : List (ℕ × Event) → Interleave.Config ℕ σ (Thread τ) → ℕ → Choice χ → Prop}
  {K : Counter Q start qallow} {c : ℕ} {tr p q : List (ℕ × Event)}
  {cfg : Interleave.Config ℕ σ (Thread τ)}

/-- The interrupts handled so far are the first ones put on the queue, each handled
once and in queue order; among those of each sender `i` are all whose
`coremu_put_intr` had returned after the trace `p`. -/
def Drained (p tr : List (ℕ × Event)) : Prop :=
  ∃ served rest, Fifo.appended (queueTrace tr) = served ++ rest ∧
    served.map Prod.snd = handled tr ∧
      ∀ i, Fifo.completed i (queueTrace p) <+: (served.filter (·.1 = i)).map Prod.snd

/-- What has been handled, read off the trace. -/
theorem Drained.take (h : Drained p tr) (i : ℕ) : Fifo.completed i (queueTrace p) <+:
    (((Fifo.appended (queueTrace tr)).take (handled tr).length).filter (·.1 = i)).map Prod.snd := by
  obtain ⟨served, rest, happ, hserved, hcomp⟩ := h
  rw [happ, ← hserved, List.length_map, List.take_left]
  exact hcomp i

/-- When the test of `coremu_get_intr` fails, every interrupt that is left belongs to a
`coremu_put_intr` that has not returned. -/
def EndsClean (Q : Queue σ τ χ) (c : ℕ) (start : Interleave.Config ℕ σ τ → Prop)
    (allow : List (ℕ × Event) → Interleave.Config ℕ σ (Thread τ) → ℕ → Choice χ → Prop) : Prop :=
  ∀ tr cfg a, (program Q c).Run (Start start) allow tr cfg → allow tr cfg c .go →
    Fifo.exec (queueTrace tr) = some a → (cfg.thread c).recv = .intrP →
      coremuIntrP Q cfg.shared = false → Fifo.Leftover a.finished a

/-- The access of a `dequeue` that ends the loop would be one without a value, or with
a `NULL`. -/
theorem RecvInv.after_ne_ret {a b : Fifo.State ℕ DataType} (h : RecvInv K c tr a cfg)
    (hb : Fifo.exec (queueTrace tr) = some a) (hr : (cfg.thread c).recv = .dequeue)
    {f : Fifo.Event DataType} (hn : NoNull (tr ++ [(c, .queue f)]))
    (ha : Fifo.exec (queueTrace (tr ++ [(c, .queue f)])) = some b) : RecvPc.after f ≠ .ret := by
  have hp := h.place
  rw [hr] at hp
  by_cases hf : ∃ r, f = .retDeq r
  · obtain ⟨r, rfl⟩ := hf
    cases r with
    | none => exact absurd rfl (hp.ne_retNone (step_of_exec_queue hb ha))
    | some u =>
      have hu : u ≠ NULL := hn.returned ha u (by simp [Fifo.returned])
      rw [RecvPc.after_retSome hu]
      simp
  · rw [RecvPc.after_of_ne (not_exists.mp hf)]
    simp

/-- From the failed test until it returns, nothing is left of what was sent before the
call. -/
theorem Run.leftover (K : Counter Q start qallow) (hq : Allows Q c allow qallow)
    (hclean : EndsClean Q c start allow)
    (h : (program Q c).Run (Start start) allow tr cfg) (hn : NoNull tr)
    {a : Fifo.State ℕ DataType} (ha : Fifo.exec (queueTrace tr) = some a)
    (htr : tr = p ++ (c, .receive) :: q)
    (hr : (cfg.thread c).recv = .ret) :
    Fifo.Leftover (fun i => Fifo.finishedBy i (queueTrace p)) a := by
  induction h generalizing a q with
  | nil => cases p <;> cases htr
  | @snoc tr cfg i x s' t' e hrun hal hs ih =>
    obtain ⟨b, hb, hcnt, hinv⟩ := Run.recvInv K hq hrun
    obtain ⟨-, hout⟩ := Run.queue hq hrun
    have hic : (cfg.thread i).recv ≠ .out → i = c := fun hne => by
      by_contra hne'
      exact hne (hout i hne')
    have hself : ∀ s t, (((cfg.after c s t).thread c).recv : RecvPc) = t.recv := fun s t => by
      rw [Interleave.Config.after_thread_self]
    -- what had returned before the call is not more than what has returned now
    have hle : ∀ q', tr = p ++ (c, .receive) :: q' →
        ∀ j, Fifo.finishedBy j (queueTrace p) ≤ b.finished j := by
      rintro q' rfl j
      rw [Fifo.finished_eq hb j]
      exact Fifo.finishedBy_le_of_prefix (queueTrace_mono (List.prefix_append _ _)) j
    cases step_cases hs with
    | receive hc =>
      subst hc
      rw [hself] at hr
      cases hr
    | intrP hr' =>
      obtain rfl := hic (by simp [hr'])
      rw [hself] at hr
      obtain ⟨q', rfl, htr'⟩ := (Interleave.concat_eq_cases htr).resolve_left (by simp)
      obtain rfl := eq_of_exec_local hb rfl ha
      split at hr
      · cases hr
      · next ht =>
        have hl := hclean _ _ _ hrun hal hb hr' (by simpa using ht)
        exact fun e he => (hle q' htr' _).trans (hl e he)
    | put hrecv hst hf =>
      obtain ⟨q', rfl, htr'⟩ := (Interleave.concat_eq_cases htr).resolve_left (by simp)
      have hne : c ≠ i := by
        rintro rfl
        rw [hself] at hr
        rcases hrecv with h | h <;> (rw [h] at hr; cases hr)
      rw [Interleave.Config.after_thread_of_ne _ _ _ hne] at hr
      exact (ih hn.of_append hb htr' hr).step (hle q' htr') (step_of_exec_queue hb ha)
    | get hrecv hst hf =>
      obtain rfl := hic (by simp [hrecv])
      rw [hself] at hr
      exact absurd hr (hinv.after_ne_ret hb hrecv hn ha)
    | handle hr' | handled hr' | done hr' =>
      -- these leave the core at another place
      obtain rfl := hic (by simp [hr'])
      rw [hself] at hr
      cases hr

/-- **A call of `coremu_receive_intr` drains the queue**, if no `NULL` is put on it, and
whenever the test fails only interrupts are left that have not been sent yet. -/
theorem Run.drained (K : Counter Q start qallow) (hq : Allows Q c allow qallow)
    (hclean : EndsClean Q c start allow)
    (h : (program Q c).Run (Start start) allow (p ++ (c, .receive) :: q ++ [(c, .done)]) cfg)
    (hn : NoNull (p ++ (c, .receive) :: q ++ [(c, .done)])) :
    Drained p (p ++ (c, .receive) :: q ++ [(c, .done)]) := by
  obtain ⟨cfg₁, x, s', t', hrun, hal, hs, rfl⟩ := h.of_snoc
  obtain ⟨a, ha, hcnt, hinv⟩ := Run.recvInv K hq hrun
  have hr : (cfg₁.thread c).recv = .ret := by
    cases step_cases hs with
    | done hr => exact hr
  have hl := Run.leftover K hq hclean hrun hn.of_append ha rfl hr
  have hpre : queueTrace p <+: queueTrace (p ++ (c, .receive) :: q) :=
    queueTrace_mono (List.prefix_append _ _)
  obtain ⟨served, rest, happ, hserved, hcomp⟩ := Fifo.completed_served ha hpre hl
  refine ⟨served, rest, ?_, ?_, hcomp⟩
  · rw [queueTrace_concat_local _ _ rfl]
    exact happ
  · -- nothing is on its way from the queue to the handler
    have hidle : a.op c = .idle := by
      have := hinv.place
      rw [hr] at this
      exact this
    have hh := hinv.handled
    rw [hr, List.filter_eq_self.mpr fun v hv =>
      decide_eq_true (hn.of_append.returned ha v hv)] at hh
    rw [hserved, (Fifo.removed_eq_returned ha hinv.sole).1, hh, hidle]
    simp [handled, Fifo.Op.taken, RecvPc.pending]

/-! ### `coremu_get_intr` succeeds -/

/-- **`coremu_get_intr` succeeds whenever its test passes**: the counter is never
negative; no dequeue returns `false`; the dequeue that follows a passed test returns a
value after at most `n` steps of the core, and until then the core can always go on. -/
structure GetIntrSucceeds (Q : Queue σ τ χ) (c n : ℕ) (tr : List (ℕ × Event))
    (cfg : Interleave.Config ℕ σ (Thread τ)) : Prop where
  size : 0 ≤ Q.queueGetSize cfg.shared
  never : (c, .queue (.retDeq none)) ∉ tr
  returns : ∀ p q, tr = p ++ (c, .intrP true) :: q → n < (q.filter (·.1 = c)).length →
    ∃ v, (c, .queue (.retDeq (some v))) ∈ q
  enabled : (cfg.thread c).recv = .dequeue →
    ∃ x s' t' e, step Q c c cfg.shared (cfg.thread c) (.queue x) = some (s', t', e)

/-- Where a thread may be while it is in the `dequeue` of `coremu_get_intr`. -/
def InDeq (a : Fifo.State ℕ DataType) (c : ℕ) : Prop :=
  a.op c = .idle ∨ (∃ w, a.op c = .deq w) ∨ ∃ v, a.op c = .deqDone v

theorem InDeq.not_inEnq {a : Fifo.State ℕ DataType} {c : ℕ} (h : InDeq a c) :
    ¬ (a.op c).InEnq := by
  rintro (⟨v, hv⟩ | hv) <;> rcases h with ho | ⟨w, ho⟩ | ⟨w, ho⟩ <;> (rw [hv] at ho; cases ho)

/-- `left` bounds the steps of a dequeue of thread `c` that are left. -/
structure Progress (Q : Queue σ τ χ) (start : Interleave.Config ℕ σ τ → Prop)
    (qallow : List (ℕ × Fifo.Event DataType) → Interleave.Config ℕ σ τ → ℕ → χ → Prop) (c n : ℕ)
    (left : σ → τ → ℕ) : Prop where
  call : ∀ s t, Q.idle t = true → left s t ≤ n
  self : ∀ {tr cfg a x s' l f}, Q.program.Run start qallow tr cfg → Fifo.exec tr = some a →
    InDeq a c → Q.program.step c cfg.shared (cfg.thread c) x = some (s', l, f) →
      (∀ v, f ≠ .callEnq v) → (∀ r, f ≠ .retDeq r) → left s' l < left cfg.shared (cfg.thread c)
  other : ∀ {tr cfg i x s' l f}, Q.program.Run start qallow tr cfg → qallow tr cfg i x → i ≠ c →
    Q.program.step i cfg.shared (cfg.thread i) x = some (s', l, f) → f ≠ .callDeq →
      left s' (cfg.thread c) ≤ left cfg.shared (cfg.thread c)
  enabled : ∀ {tr cfg a}, Q.program.Run start qallow tr cfg → Fifo.exec tr = some a →
    InDeq a c → ∃ x s' l f, Q.program.step c cfg.shared (cfg.thread c) x = some (s', l, f) ∧
      ∀ v, f ≠ .callEnq v

theorem RecvInv.inDeq {a : Fifo.State ℕ DataType} (h : RecvInv K c tr a cfg)
    (hr : (cfg.thread c).recv = .dequeue) : InDeq a c := by
  have hp := h.place
  rw [hr] at hp
  rcases hp with ⟨ho | ho, -⟩ | ⟨v, ho⟩
  · exact .inl ho
  · exact .inr (.inl ⟨_, ho⟩)
  · exact .inr (.inr ⟨v, ho⟩)

/-- The core is in the dequeue that follows a passed test; `q` has happened since, and the
steps of the core in it and those left are at most `n`. -/
def Returning (left : σ → τ → ℕ) (c n : ℕ) (q : List (ℕ × Event))
    (cfg : Interleave.Config ℕ σ (Thread τ)) : Prop :=
  (cfg.thread c).recv = .dequeue ∧
    (q.filter (·.1 = c)).length + left cfg.shared (cfg.thread c).queue ≤ n

section Returning

variable {left : σ → τ → ℕ} {n i : ℕ} {x : Choice χ} {s' : σ} {t' : Thread τ} {e : Event}
  {b : Fifo.State ℕ DataType}

/-- The test itself: the dequeue has not been called yet. -/
theorem Returning.test (hp : Progress Q start qallow c n left)
    (hcnt : Counts Q K.uncounted K.popped b (queueConfig cfg)) (hinv : RecvInv K c tr b cfg)
    (hs : Step Q c c cfg.shared (cfg.thread c) x s' t' (.intrP true)) :
    Returning left c n [] (cfg.after c s' t') := by
  generalize hE : Event.intrP true = E at hs
  cases hs with
  | intrP hr =>
    rw [Event.intrP.injEq] at hE
    have hidle : b.op c = .idle := by
      have hplace := hinv.place
      rw [hr] at hplace
      exact hplace
    have hcall : left cfg.shared (cfg.thread c).queue ≤ n :=
      hp.call _ _ ((hcnt.idle c).mpr hidle)
    rw [Returning, Interleave.Config.after_thread_self, ← hE]
    exact ⟨rfl, by simpa using hcall⟩
  | _ => cases hE

/-- A step of the core: the call returns, or fewer steps are left. -/
theorem Returning.core (h : Returning left c n q cfg) (hp : Progress Q start qallow c n left)
    (hqr : Q.program.Run start qallow (queueTrace tr) (queueConfig cfg))
    (hb : Fifo.exec (queueTrace tr) = some b) (hinv : RecvInv K c tr b cfg)
    (hs : Step Q c c cfg.shared (cfg.thread c) x s' t' e) :
    (∃ r, e = .queue (.retDeq r)) ∨ Returning left c n (q ++ [(c, e)]) (cfg.after c s' t') := by
  obtain ⟨hr, hle⟩ := h
  obtain ⟨y, l, f, -, hst, hf, rfl, rfl⟩ := hs.of_dequeue hr
  by_cases hret : ∃ r, f = .retDeq r
  · obtain ⟨r, rfl⟩ := hret
    exact .inl ⟨r, rfl⟩
  · have hlt : left s' l < left cfg.shared (cfg.thread c).queue :=
      hp.self hqr hb (hinv.inDeq hr) hst hf (not_exists.mp hret)
    have hone : [(c, Event.queue f)].filter (·.1 = c) = [(c, .queue f)] := by simp
    right
    rw [Returning, Interleave.Config.after_thread_self, List.filter_append, List.length_append,
      hone, List.length_singleton, Interleave.Config.after_shared]
    refine ⟨RecvPc.after_of_ne (not_exists.mp hret), ?_⟩
    dsimp only
    omega

/-- A step of a sender does not set the core back. -/
theorem Returning.other (h : Returning left c n q cfg) (hq : Allows Q c allow qallow)
    (hp : Progress Q start qallow c n left)
    (hqr : Q.program.Run start qallow (queueTrace tr) (queueConfig cfg))
    (hout : (cfg.thread i).recv = .out) (hi : i ≠ c) (hal : allow tr cfg i x)
    (hs : Step Q c i cfg.shared (cfg.thread i) x s' t' e) :
    Returning left c n (q ++ [(i, e)]) (cfg.after i s' t') := by
  obtain ⟨hr, hle⟩ := h
  obtain ⟨y, l, f, rfl, hst, hf, rfl, rfl⟩ := hs.of_out hout hi
  have hle' : left s' (cfg.thread c).queue ≤ left cfg.shared (cfg.thread c).queue :=
    hp.other hqr (hq _ _ _ _ _ _ _ hal hst fun e => absurd e hf) hi hst hf
  have hnil : [(i, Event.queue f)].filter (·.1 = c) = [] := by simp [hi]
  rw [Returning, Interleave.Config.after_thread_of_ne _ _ _ (Ne.symm hi), List.filter_append,
    hnil, List.append_nil, Interleave.Config.after_shared]
  exact ⟨hr, by omega⟩

end Returning

/-- After a passed test the dequeue has returned a value, or the steps of the core
since then and those left are bounded. -/
theorem Run.returns_or {left : σ → τ → ℕ} {n : ℕ} (K : Counter Q start qallow)
    (hq : Allows Q c allow qallow) (hp : Progress Q start qallow c n left)
    (h : (program Q c).Run (Start start) allow tr cfg) (htr : tr = p ++ (c, .intrP true) :: q) :
    (∃ v, (c, .queue (.retDeq (some v))) ∈ q) ∨ Returning left c n q cfg := by
  induction h generalizing q with
  | nil => cases p <;> cases htr
  | @snoc tr cfg i x s' t' e hrun hal hs ih =>
    obtain ⟨b, hb, hcnt, hinv⟩ := Run.recvInv K hq hrun
    obtain ⟨hqr, hout⟩ := Run.queue hq hrun
    have hst := step_cases hs
    rcases Interleave.concat_eq_cases htr with ⟨he, rfl⟩ | ⟨q', rfl, htr'⟩
    · rw [Prod.mk.injEq] at he
      obtain ⟨rfl, rfl⟩ := he
      exact .inr (.test hp hcnt hinv hst)
    · rcases ih htr' with ⟨v, hv⟩ | hret
      · exact .inl ⟨v, List.mem_append_left _ hv⟩
      by_cases hi : i = c
      · subst hi
        rcases hret.core hp hqr hb hinv hst with ⟨r, rfl⟩ | hret'
        · cases r with
          | some v => exact .inl ⟨v, List.mem_append_right _ (List.mem_singleton_self _)⟩
          | none =>
            obtain ⟨_, -, -, hinv'⟩ := Run.recvInv K hq (.snoc hrun hal hs)
            exact absurd (by simp) hinv'.never
        · exact .inr hret'
      · exact .inr (hret.other hq hp hqr (hout i hi) hi hal hst)

/-- **`coremu_get_intr` succeeds whenever its test passes.** -/
theorem Run.getIntrSucceeds {left : σ → τ → ℕ} {n : ℕ} (K : Counter Q start qallow)
    (hq : Allows Q c allow qallow) (hp : Progress Q start qallow c n left)
    (h : (program Q c).Run (Start start) allow tr cfg) : GetIntrSucceeds Q c n tr cfg := by
  obtain ⟨a, ha, hcnt, hinv⟩ := Run.recvInv K hq h
  obtain ⟨hqr, -⟩ := Run.queue hq h
  refine ⟨hinv.size_nonneg ha hcnt, hinv.never, fun p q htr hlt => ?_, fun hr => ?_⟩
  · rcases Run.returns_or K hq hp h htr with hv | ⟨-, hle⟩
    · exact hv
    · omega
  · obtain ⟨x, s', l, f, hst, hf⟩ := hp.enabled hqr ha (hinv.inDeq hr)
    have hst' : Q.program.step c cfg.shared (cfg.thread c).queue x = some (s', l, f) := hst
    refine ⟨x, s', ⟨RecvPc.after f, l⟩, .queue f, ?_⟩
    simp only [step, hr, getIntr, hst', Option.bind_some]

end Coremu.Intr

import Coremu.System.Tracks

/-!
# The machine refines the core model

Every run of the machine, where `enqueue` and `dequeue` are the code of `main/lock-queue.c` and
all queues are on one heap, is a run of the core model: a thread shows the same in both, up to
the interrupt that it is about to handle.  A condition on the steps of the core model that
lets every access pass carries over, so what is assumed of a run of the machine may be used of
the other one.

## Main definitions

* `coreSeen`, `seen` — what a thread shows: the interrupts it handles, and the end of
  `coremu_wait_all_cores_pause`.
* `Matched` — a run of the core model that matches one of the machine.
* `Refines` — the same, said of the two states.

## Main results

* `Matched.step` — **a step is matched by at most one of the core model.**
* `system_refines_core` — **every run is one of the core model.**
-/

namespace Coremu.System

open Coremu.Core (Machine CMCore)
open Coremu.LockQueue (Pc)

variable {M : Machine} {i j : ℕ} {L : ℕ → List Core.Entry} {s' : Shared} {t' : Thread}
variable {x : Choice} {e : Event} {cfg : Config} {tr : List (ℕ × Event)}

/-! ### What a run shows -/

/-- What thread `i` shows in a run of the core model. -/
def coreSeen (i : ℕ) (tr : List (ℕ × Core.Event)) : List Core.Event :=
  tr.filterMap fun p => if p.1 = i ∧ p.2 ≠ .tau then some p.2 else none

/-- What the core does with the interrupt that `coremu_get_intr` returns. -/
def handling (intr : DataType) : Option Core.Event :=
  if intr = NULL then none else some (.handle intr)

/-- What a step shows in terms of the core model: a `dequeue` returns to the call of
`event_handler`. -/
def Event.seen : Event → Option Core.Event
  | .queue _ (.retDeq (some intr)) => handling intr
  | .queue _ _ => none
  | .core .tau => none
  | .core e => some e

/-- What thread `i` shows in a run. -/
def seen (i : ℕ) (tr : List (ℕ × Event)) : List Core.Event :=
  tr.filterMap fun p => if p.1 = i then p.2.seen else none

theorem coreSeen_append (k : ℕ) (tr tr' : List (ℕ × Core.Event)) :
    coreSeen k (tr ++ tr') = coreSeen k tr ++ coreSeen k tr' :=
  List.filterMap_append

theorem coreSeen_map (k i : ℕ) (evs : List Core.Event) :
    coreSeen k (evs.map fun ev => (i, ev)) = if i = k then evs.filter (· ≠ .tau) else [] := by
  rw [coreSeen, List.filterMap_map]
  split
  · next hik =>
    rw [← List.filterMap_eq_filter]
    refine List.filterMap_congr fun ev _ => ?_
    by_cases hev : ev = .tau <;> simp [hev, hik, Option.guard]
  · next hik => exact List.filterMap_eq_nil_iff.mpr fun ev _ => by simp [hik]

theorem seen_concat (k : ℕ) (tr : List (ℕ × Event)) (i : ℕ) (e : Event) :
    seen k (tr ++ [(i, e)]) = seen k tr ++ if i = k then e.seen.toList else [] := by
  rw [seen, List.filterMap_append, ← seen]
  split
  · next hik => cases hse : e.seen <;> simp [hik, hse]
  · next hik => simp [hik]

/-- The interrupt that the thread is about to handle. -/
def Thread.pending (t : Thread) : List Core.Event := ((returning t.queue).bind handling).toList

/-- Every thread shows the same in both runs, but for what it is about to handle. -/
def Shows (tr : List (ℕ × Event)) (cfg : Config) (tr' : List (ℕ × Core.Event)) : Prop :=
  ∀ k, coreSeen k tr' = seen k tr ++ (cfg.thread k).pending

/-- A step of thread `i`, with the events `evs` in the core model. -/
theorem Shows.after {tr' : List (ℕ × Core.Event)} (h : Shows tr cfg tr') (evs : List Core.Event)
    (hi : (cfg.thread i).pending ++ evs.filter (· ≠ .tau) = e.seen.toList ++ t'.pending) :
    Shows (tr ++ [(i, e)]) (cfg.after i s' t') (tr' ++ evs.map fun ev => (i, ev)) := by
  intro k
  rw [coreSeen_append, coreSeen_map, h k, seen_concat]
  by_cases hk : i = k
  · subst hk
    rw [if_pos rfl, if_pos rfl, Interleave.Config.after_thread_self, List.append_assoc, hi,
      List.append_assoc]
  · rw [if_neg hk, if_neg hk, Interleave.Config.after_thread_of_ne _ _ _ (Ne.symm hk)]
    simp

/-! ### Matching a step -/

/-- A run of the core model, with steps of `A` only, that matches the run of the machine. -/
structure Matched (M : Machine) (A : Core.Choice → Prop) (tr : List (ℕ × Event)) (cfg : Config)
    (tr' : List (ℕ × Core.Event)) (L : ℕ → List Core.Entry) : Prop where
  run : (Core.program M).Run Core.Started (fun _ _ _ y => A y) tr' (coreConfig L cfg)
  tracks : Tracks M tr cfg L
  shows : Shows tr cfg tr'

section Match

variable {A : Core.Choice → Prop} {tr' : List (ℕ × Core.Event)} {L' : ℕ → List Core.Entry}

/-- A step that the core model does not see. -/
theorem Matched.stutter (h : Matched M A tr cfg tr' L) (hc : s'.cores = cfg.shared.cores)
    (ht : coreThread i t' = coreThread i (cfg.thread i))
    (htracks : Tracks M (tr ++ [(i, e)]) (cfg.after i s' t') L)
    (hseen : (cfg.thread i).pending = e.seen.toList ++ t'.pending) :
    ∃ tr'' L', Matched M A (tr ++ [(i, e)]) (cfg.after i s' t') tr'' L' := by
  refine ⟨tr', L, ?_, htracks, ?_⟩
  · rw [coreConfig_same L hc ht]
    exact h.run
  · have hshows : Shows (tr ++ [(i, e)]) (cfg.after i s' t')
        (tr' ++ ([] : List Core.Event).map fun ev => (i, ev)) :=
      h.shows.after [] (by simpa using hseen)
    simpa using hshows

/-- A step that is one of the core model. -/
theorem Matched.move (h : Matched M A tr cfg tr' L) (s' : Shared) {y : Core.Choice}
    {ev : Core.Event} (hy : A y)
    (hs : Core.Step M i (withQueues L cfg.shared.cores) (coreThread i (cfg.thread i)) y
      (withQueues L' s'.cores) (coreThread i t') ev)
    (htracks : Tracks M (tr ++ [(i, e)]) (cfg.after i s' t') L')
    (hseen : (cfg.thread i).pending ++ [ev].filter (· ≠ .tau) = e.seen.toList ++ t'.pending) :
    ∃ tr'' L', Matched M A (tr ++ [(i, e)]) (cfg.after i s' t') tr'' L' := by
  refine ⟨tr' ++ [(i, ev)], L', ?_, htracks, h.shows.after [ev] hseen⟩
  rw [coreConfig_after L]
  exact .snoc h.run hy hs.eq_some

/-- In the core model, the thread that enqueues is not receiving. -/
theorem coreThread_put (t : Thread) {e : Core.Entry} (ho : t.core.op = .send j (.putIntr e))
    (hq : returning t.queue = none) : coreThread i t = { t.core with
      op := .send j (if enqueued t.queue then afterPut i j else .putIntr e) } := by
  simp [coreThread, coreRecv, ho, hq]

/-- A new queue of core `j`. -/
theorem withQueues_update (L : ℕ → List Core.Entry) (c : Core.Shared) (j : ℕ)
    (l : List Core.Entry) : withQueues (Function.update L j l) c =
      (withQueues L c).setCore j { (withQueues L c).core j with intrQueue := l } := by
  simp only [withQueues, Core.Shared.setCore, Core.Shared.mk.injEq, and_true]
  funext m
  by_cases hm : m = j
  · subst hm; simp
  · simp [hm]

/-- An enqueuer counts its value: the interrupt enters the queue of the core model. -/
theorem Matched.countUp (h : Matched M A tr cfg tr' L) (hgo : ∀ now, A (.go now))
    (hrun : Run M tr cfg) {e : Core.Entry} {q : LockQueue.Shared} (hj : j < M.smpCpus)
    (hh : (cfg.thread i).core.handler = none) (ho : (cfg.thread i).core.op = .send j (.putIntr e))
    (hp : (cfg.thread i).queue = .enq .incCount)
    (hcount : q.count = atomicIncq (cfg.shared.lockQueue j).count) :
    ∃ tr'' L', Matched M A (tr ++ [(i, .queue j .tau)]) (cfg.after i (cfg.shared.setQueue j q)
      { cfg.thread i with queue := .enq .spinUnlock }) tr'' L' := by
  have htr := h.tracks
  obtain ⟨v, g, hg⟩ := hrun.ledger hj
  obtain ⟨hmap, hlen⟩ := htr.inc hrun hj ho hp hg.exec
  have htracks : Tracks M (tr ++ [(i, .queue j .tau)]) (cfg.after i (cfg.shared.setQueue j q)
      { cfg.thread i with queue := .enq .spinUnlock }) (Function.update L j (L j ++ [e])) := by
    refine htr.access ⟨j, e, ho⟩ (by rw [hcount]; exact hlen) (fun a b ha hst => ?_)
      (fun _ => by rw [hp]; rfl) fun m e' ho' => .inr ?_
    · obtain rfl := Fifo.step_tau.mp hst
      obtain rfl : g.abs = b := Option.some.inj (hg.exec.symm.trans ha)
      rw [taken_after (by rw [hp]; rfl), hmap]
    · exact htr.sent_concat ho (by rw [hp]; nofun) nofun ho'
  have hold : coreThread i (cfg.thread i) = { (cfg.thread i).core with
      op := .send j (.putIntr e) } := by
    rw [coreThread_put _ ho (by rw [hp]; rfl), hp]
    rfl
  have hnew : coreThread i { cfg.thread i with queue := .enq .spinUnlock } =
      { (cfg.thread i).core with op := .send j (afterPut i j) } :=
    coreThread_put { cfg.thread i with queue := .enq .spinUnlock } ho rfl
  have hstep : Core.Step M i (withQueues L cfg.shared.cores) (coreThread i (cfg.thread i)) (.go 0)
      (withQueues (Function.update L j (L j ++ [e])) cfg.shared.cores)
      (coreThread i { cfg.thread i with queue := .enq .spinUnlock }) .tau := by
    rw [hold, hnew, withQueues_update]
    exact .send j (.putIntr e) 0 hh rfl
  exact h.move (cfg.shared.setQueue j q) (hgo 0) hstep htracks (by rw [Thread.pending, hp]; rfl)

/-- An access of `coremu_put_intr`: the core model puts the interrupt on its queue when it is
counted. -/
theorem Matched.enqueue (h : Matched M A tr cfg tr' L) (hgo : ∀ now, A (.go now))
    (hrun : Run M tr cfg) {e : Core.Entry} {y : LockQueue.Choice} {q : LockQueue.Shared} {p : Pc}
    {f : Fifo.Event DataType} (hj : j < M.smpCpus) (hh : (cfg.thread i).core.handler = none)
    (ho : (cfg.thread i).core.op = .send j (.putIntr e))
    (hs : LockQueue.step (cfg.shared.lockQueue j) (cfg.thread i).queue y = some (q, p, f))
    (hf : Fits (.callEnq e.value) f = true) :
    ∃ tr'' L', Matched M A (tr ++ [(i, .queue j f)]) (cfg.after i (cfg.shared.setQueue j q)
      ({ cfg.thread i with queue := p }.afterEnq i j f)) tr'' L' := by
  have htr := h.tracks
  have hfit : ∀ r, (cfg.thread i).queue ≠ .deq r := by
    intro r hr
    have := htr.fitting i
    rw [Fitting, hr] at this
    rw [ho] at this
    cases this.1
  have hmove := enqMove_of_step (LockQueue.step_cases hs) hfit (ne_of_fits_enq hf)
  generalize hp : (cfg.thread i).queue = p₀ at hmove
  cases hmove with
  | call v hcount =>
    obtain rfl : e.value = v := Fifo.Event.callEnq.inj (of_decide_eq_true hf)
    refine h.stutter rfl (coreThread_congr rfl ?_ ?_)
      (htr.keep hj ⟨j, e, ho⟩ hcount (by simp) ?_ ?_) ?_
    · rw [hp]; rfl
    · rw [hp]; rfl
    · rw [hp]; rfl
    · intro m e' ho'
      obtain ⟨rfl, he⟩ := Core.Op.send.inj (ho.symm.trans ho')
      cases he
      right
      rw [queueTrace_concat_queue, Fifo.sent_append]
      simp [Fifo.sent]
    · rw [Thread.pending, hp]; rfl
  | stay r r' f hcount henq hf' =>
    have hsame : { cfg.thread i with queue := .enq r' }.afterEnq i j f =
        { cfg.thread i with queue := .enq r' } := by
      rcases hf' with rfl | ⟨v, rfl⟩ <;> rfl
    rw [hsame]
    refine h.stutter rfl (coreThread_congr rfl ?_ ?_) (htr.keep hj ⟨j, e, ho⟩ hcount ?_ ?_ ?_) ?_
    · rw [hp]; exact henq
    · rw [hp]; rfl
    · rcases hf' with rfl | ⟨v, rfl⟩ <;> simp
    · rw [hp]; rfl
    · intro m e' ho'
      have hf : ∀ v, f ≠ .callEnq v := by rcases hf' with rfl | ⟨v, rfl⟩ <;> simp
      exact .inr (htr.sent_concat ho (by simp [hp]) hf ho')
    · rw [Thread.pending, hp]
      rcases hf' with rfl | ⟨v, rfl⟩ <;> rfl
  | count hcount =>
    exact h.countUp hgo hrun hj hh ho hp hcount
  | ret hcount =>
    have hcore : coreThread i ({ cfg.thread i with queue := .idle }.afterEnq i j .retEnq) =
        coreThread i (cfg.thread i) := by
      rw [coreThread_of_idle rfl, coreThread_put _ ho (by rw [hp]; rfl), hp]
      rfl
    refine h.stutter rfl hcore (htr.keep hj trivial hcount (by simp) ?_ ?_) ?_
    · rw [hp]; rfl
    · exact fun _ _ _ => .inl rfl
    · rw [Thread.pending, hp]; rfl

/-- In the core model, a core that has counted down is inside `event_handler`, unless it has
taken a `NULL`. -/
theorem coreThread_get (t : Thread) (ho : t.core.op = .idle) :
    coreThread i t = { t.core with recv := coreRecv t.queue t.core.recv } := by
  simp only [coreThread, ho]

/-- The core model takes an interrupt off its queue. -/
theorem receiveIntr_dequeue {k : CMCore} {e : Core.Entry} {rest : List Core.Entry}
    (hq : k.intrQueue = e :: rest) : Core.receiveIntr k .dequeue =
      ({ k with intrQueue := rest }, if e.value = NULL then .out else .handler,
        (handling e.value).getD .tau) := by
  simp only [Core.receiveIntr, hq, handling]
  split <;> rfl

theorem filter_handling (intr : DataType) :
    [(handling intr).getD .tau].filter (· ≠ .tau) = (handling intr).toList := by
  unfold handling
  split <;> rfl

/-- The core counts down: the interrupt leaves the queue of the core model. -/
theorem Matched.countDown (h : Matched M A tr cfg tr' L) (hgo : ∀ now, A (.go now))
    (hrun : Run M tr cfg) {q : LockQueue.Shared} {v : DataType} (hi : i < M.smpCpus)
    (hh : (cfg.thread i).core.handler = none) (ho : (cfg.thread i).core.op = .idle)
    (hr : (cfg.thread i).core.recv = .dequeue) (hp : (cfg.thread i).queue = .deq (.decCount v))
    (hcount : q.count = atomicDecq (cfg.shared.lockQueue i).count) :
    ∃ tr'' L', Matched M A (tr ++ [(i, .queue i .tau)]) (cfg.after i (cfg.shared.setQueue i q)
      { cfg.thread i with queue := .deq (.ret (some v)) }) tr'' L' := by
  obtain ⟨w, g, hg⟩ := hrun.ledger hi
  obtain ⟨e, rest, hL, rfl, hrest, hlen⟩ := h.tracks.dec hrun hi hp hg.exec
  have htracks : Tracks M (tr ++ [(i, .queue i .tau)]) (cfg.after i (cfg.shared.setQueue i q)
      { cfg.thread i with queue := .deq (.ret (some e.value)) }) (Function.update L i rest) := by
    refine h.tracks.access ⟨ho, hr⟩ (by rw [hcount]; exact hlen) (fun a b ha hst => ?_)
      (fun hne => absurd rfl hne) fun m e ho' => absurd (ho.symm.trans ho') nofun
    obtain rfl := Fifo.step_tau.mp hst
    obtain rfl : g.abs = b := Option.some.inj (hg.exec.symm.trans ha)
    rw [Interleave.Config.after_thread_self]
    exact hrest
  have hold : coreThread i (cfg.thread i) = (cfg.thread i).core := by
    rw [coreThread_get _ ho, hp]
    rfl
  have hnew : coreThread i { cfg.thread i with queue := .deq (.ret (some e.value)) } =
      { (cfg.thread i).core with recv := if e.value = NULL then .out else .handler } :=
    coreThread_get { cfg.thread i with queue := .deq (.ret (some e.value)) } ho
  have hstep : Core.Step M i (withQueues L cfg.shared.cores) (coreThread i (cfg.thread i)) (.go 0)
      (withQueues (Function.update L i rest) cfg.shared.cores)
      (coreThread i { cfg.thread i with queue := .deq (.ret (some e.value)) })
        ((handling e.value).getD .tau) := by
    rw [hold, hnew, withQueues_update]
    have hrecv := Core.Step.receive (M := M) (i := i) (s := withQueues L cfg.shared.cores)
      (t := (cfg.thread i).core) 0 hh ho (by rw [hr]; nofun)
    have hqueue : ((withQueues L cfg.shared.cores).core i).intrQueue = e :: rest := hL
    rw [hr, receiveIntr_dequeue hqueue] at hrecv
    exact hrecv
  refine h.move (cfg.shared.setQueue i q) (hgo 0) hstep htracks ?_
  rw [filter_handling, Thread.pending, hp]
  rfl

/-- An access of the `dequeue` in `coremu_get_intr`: the core model takes the interrupt off
its queue when it is counted down. -/
theorem Matched.dequeue (h : Matched M A tr cfg tr' L) (hgo : ∀ now, A (.go now))
    (hrun : Run M tr cfg) {y : LockQueue.Choice} {q : LockQueue.Shared} {p : Pc}
    {f : Fifo.Event DataType} (hi : i < M.smpCpus) (hh : (cfg.thread i).core.handler = none)
    (ho : (cfg.thread i).core.op = .idle) (hr : (cfg.thread i).core.recv = .dequeue)
    (hs : LockQueue.step (cfg.shared.lockQueue i) (cfg.thread i).queue y = some (q, p, f))
    (hf : Fits .callDeq f = true)
    (hnext : ∃ b, Fifo.exec (queueTrace i (tr ++ [(i, .queue i f)])) = some b) :
    ∃ tr'' L', Matched M A (tr ++ [(i, .queue i f)]) (cfg.after i (cfg.shared.setQueue i q)
      ({ cfg.thread i with queue := p }.afterDeq f)) tr'' L' := by
  have htr := h.tracks
  have hfit : ∀ r, (cfg.thread i).queue ≠ .enq r := by
    intro r hp
    have := htr.fitting i
    rw [Fitting, hp] at this
    obtain ⟨j, e, ho'⟩ := this
    rw [ho] at ho'
    cases ho'
  have hsent : ∀ m e, (cfg.thread i).core.op ≠ .send m (.putIntr e) := by
    intro m e ho'
    rw [ho] at ho'
    cases ho'
  obtain ⟨w, g, hg⟩ := hrun.ledger hi
  have hmove := deqMove_of_step (LockQueue.step_cases hs) hfit (ne_of_fits_deq hf)
  generalize hp : (cfg.thread i).queue = p₀ at hmove
  cases hmove with
  | call hcount =>
    refine h.stutter rfl (coreThread_congr rfl ?_ ?_) (htr.keep hi ⟨ho, hr⟩ hcount (by simp) ?_
      fun m e ho' => absurd ho' (hsent m e)) ?_
    · rw [hp]; rfl
    · rw [hp]; rfl
    · rw [hp]; rfl
    · rw [Thread.pending, hp]; rfl
  | stay r r' f hcount htaken hret hret' hf' =>
    have hsame : { cfg.thread i with queue := .deq r' }.afterDeq f =
        { cfg.thread i with queue := .deq r' } := by
      rcases hf' with rfl | rfl <;> rfl
    rw [hsame]
    refine h.stutter rfl (coreThread_congr rfl ?_ ?_) (htr.keep hi ⟨ho, hr⟩ hcount ?_ ?_
      fun m e ho' => absurd ho' (hsent m e)) ?_
    · rw [hp]; rfl
    · rw [hp, hret, hret']
    · rcases hf' with rfl | rfl <;> simp
    · rw [hp]; exact htaken
    · rw [Thread.pending, Thread.pending, hp, hret, hret']
      rcases hf' with rfl | rfl <;> rfl
  | remove node newHead v hcount =>
    change ∃ tr'' L', Matched M A _
      (cfg.after i _ { cfg.thread i with queue := .deq (.free node v) }) tr'' L'
    refine h.stutter rfl (coreThread_congr rfl ?_ ?_) ?_ ?_
    · rw [hp]; rfl
    · rw [hp]; rfl
    · rw [← Function.update_eq_self i L]
      refine htr.access ⟨ho, hr⟩ (by rw [hcount]; exact htr.size i) (fun a b ha hst => ?_)
        (fun hne => absurd rfl hne) fun m e ho' => absurd ho' (hsent m e)
      -- what leaves the list is still counted
      obtain ⟨-, e, rest, -, hc, rfl, rfl⟩ := Fifo.step_remove.mp hst
      have hold := htr.content i hi a ha
      rw [hp, hc] at hold
      rw [Interleave.Config.after_thread_self]
      exact hold
    · rw [Thread.pending, hp]; rfl
  | count v hcount =>
    exact h.countDown hgo hrun hi hh ho hr hp hcount
  | ret r hcount =>
    obtain ⟨b, hb⟩ := hnext
    rw [queueTrace_concat_queue, Fifo.exec_concat_eq_some] at hb
    obtain ⟨a, ha, hst⟩ := hb
    obtain rfl : g.abs = a := Option.some.inj (hg.exec.symm.trans ha)
    have hplace := hg.place
    have hrecv : (w.thread i).recv = .dequeue := by
      rw [hg.view.thread i]
      simp [queueThread, hr, recvPc]
    rw [hrecv] at hplace
    cases r with
    | none => exact absurd rfl (hplace.ne_retNone hst)
    | some v =>
      -- the core model went on when the interrupt was counted down, also past a `NULL`
      have hcore : coreThread i ({ cfg.thread i with queue := .idle }.afterDeq
          (.retDeq (some v))) = coreThread i (cfg.thread i) := by
        rw [coreThread_of_idle rfl, coreThread_get _ ho, hp]
        rfl
      refine h.stutter rfl hcore (htr.keep hi trivial hcount (by simp) ?_
        fun m e ho' => absurd ho' (hsent m e)) ?_
      · rw [hp]; rfl
      · rw [Thread.pending, hp]
        exact (List.append_nil _).symm

/-- A thread that works on a queue is interrupted by its signal handler only. -/
theorem core_busy (L : ℕ → List Core.Entry) {c c' : Core.Shared} {l l' : Core.Thread}
    (l₀ : Core.Thread) {y : Core.Choice} {ev : Core.Event} (hb : queueOf i l ≠ none)
    (hq : (queuePoint l && proceeds y) = false)
    (hs : Core.Step M i c l y c' l' ev) (hh : l₀.handler = l.handler)
    (ho : l₀.op.interrupted = l₀.op) :
    l' = { l with handler := l'.handler } ∧ ev = .tau ∧
      Core.Step M i (withQueues L c) l₀ y (withQueues L c') { l₀ with handler := l'.handler }
        .tau := by
  have hidle : l.op = .idle → l.recv ≠ .dequeue → False := fun h1 h2 =>
    hb (queueOf_eq_none (by simp [h1]) fun _ => h2)
  have hother : ∀ {op : Core.Op}, l.op = op → op ≠ .idle → (∀ j e, op ≠ .send j (.putIntr e)) →
      False := by
    rintro op rfl h1 h2
    exact hb (queueOf_eq_none h2 fun h => absurd h h1)
  cases hs with
  | handler p now hh' =>
    have hno : (queuePoint l₀ && proceeds (.go now)) = false := by
      simp [queuePoint, hh.trans hh']
    exact ⟨rfl, rfl, core_step_queue hno (.handler p now (hh.trans hh'))⟩
  | signal hh' hu =>
    have hop : l.op.interrupted = l.op := by
      cases hop : l.op with
      | sched e p => exact (hother hop (by simp) (by simp)).elim
      | _ => rfl
    have hstep := Core.Step.signal (M := M) (hh.trans hh') hu
    rw [ho] at hstep
    refine ⟨?_, rfl, core_step_queue (by simp [proceeds]) hstep⟩
    rw [hop]
  | send j p now hh' hop =>
    refine (hother hop (by simp) fun j' e he => ?_).elim
    cases he
    simp [queuePoint, proceeds, hh', hop] at hq
  | sched e p now hh' hop => exact (hother hop (by simp) (by simp)).elim
  | pauseCore p now _ r hh' hop => exact (hother hop (by simp) (by simp)).elim
  | wait j all p now _ r hh' hop => exact (hother hop (by simp) (by simp)).elim
  | receive now hh' hop hr =>
    refine (hidle hop fun hd => ?_).elim
    simp [queuePoint, proceeds, hh', hop, hd] at hq
  | yield now hh' hop => exact (hother hop (by simp) (by simp)).elim
  | spurious since hh' hop hm => exact (hother hop (by simp) (by simp)).elim
  | killFails j hh' hop => exact (hother hop (by simp) (by simp)).elim
  | callReceive _ hop _ hr | callSched _ _ hop _ hr | callPause _ hop _ hr
  | callWait _ _ hop _ hr | callWaitAll _ hop hr | restart _ hop hr =>
    exact (hidle hop (by simp [hr])).elim
  | callSend _ _ _ hop _ hr =>
    refine (hidle hop ?_).elim
    rcases hr with hr | hr <;> simp [hr]

/-- A thread that works on a queue is inside `coremu_send_intr`, or does nothing else. -/
theorem interrupted_coreThread (t : Thread) (hb : queueOf i t.core ≠ none) :
    (coreThread i t).op.interrupted = (coreThread i t).op := by
  unfold coreThread queueOf at *
  cases ho : t.core.op with
  | send j p => cases p <;> rfl
  | sched e p =>
    rw [ho] at hb
    exact absurd rfl hb
  | _ => rfl

/-- Writing back what is there. -/
theorem setCore_self (s : Core.Shared) (j : ℕ) : s.setCore j (s.core j) = s := by
  simp [Core.Shared.setCore]

/-- A step of a thread that works on no queue. -/
theorem Matched.idle (h : Matched M A tr cfg tr' L) {y : Core.Choice} {c : Core.Shared}
    {l : Core.Thread} {ev : Core.Event} (hy : A y) (hidle : (cfg.thread i).queue = .idle)
    (hs : Core.Step M i (withQueues L cfg.shared.cores) (cfg.thread i).core y (withQueues L c) l
      ev) :
    ∃ tr'' L', Matched M A (tr ++ [(i, .core ev)])
      (cfg.after i { cfg.shared with cores := c } { cfg.thread i with core := l }) tr'' L' := by
  have hfit : Fitting { cfg.thread i with core := l } := by
    rw [Fitting, hidle]
    trivial
  have hold : coreThread i (cfg.thread i) = (cfg.thread i).core := coreThread_of_idle hidle
  have hnew : coreThread i { cfg.thread i with core := l } = l :=
    coreThread_of_idle (t := { cfg.thread i with core := l }) hidle
  rw [← hold] at hs
  rw [← hnew] at hs
  refine h.move { cfg.shared with cores := c } hy hs (h.tracks.core hfit rfl (fun _ => rfl)
    fun _ _ _ => .inl hidle) ?_
  rw [Thread.pending, Thread.pending, hidle]
  cases ev <;> rfl

/-- A step of the core model. -/
theorem Matched.core (h : Matched M A tr cfg tr' L) (hok : ThreadOk M i (cfg.thread i))
    {y : Core.Choice} {c : Core.Shared} {l : Core.Thread} {ev : Core.Event} (hy : A y)
    (hq : (queuePoint (cfg.thread i).core && proceeds y) = false)
    (hs : Core.Step M i cfg.shared.cores (cfg.thread i).core y c l ev) :
    ∃ tr'' L', Matched M A (tr ++ [(i, .core ev)])
      (cfg.after i { cfg.shared with cores := c } { cfg.thread i with core := l }) tr'' L' := by
  by_cases hb : queueOf i (cfg.thread i).core = none
  · exact h.idle hy (hok.idle hb) (core_step_queue hq hs)
  · obtain ⟨hl, rfl, hstep⟩ := core_busy L (coreThread i (cfg.thread i)) hb hq hs rfl
      (interrupted_coreThread _ hb)
    have hop : l.op = (cfg.thread i).core.op ∧ l.recv = (cfg.thread i).core.recv := by
      rw [hl]
      exact ⟨rfl, rfl⟩
    have hfit : Fitting { cfg.thread i with core := l } := by
      have hold := h.tracks.fitting i
      simp only [Fitting, hop] at hold ⊢
      exact hold
    have hthread : coreThread i { cfg.thread i with core := l } =
        { coreThread i (cfg.thread i) with handler := l.handler } := by
      rw [hl]
      rfl
    rw [← hthread] at hstep
    refine h.move { cfg.shared with cores := c } hy hstep (h.tracks.core hfit rfl (fun _ => rfl)
      fun m e ho' => .inr (hop.1 ▸ ho')) ?_
    exact List.append_nil _

/-- **A step is matched by at most one of the core model.** -/
theorem Matched.step (h : Matched M A tr cfg tr' L) (hgo : ∀ now, A (.go now))
    (hrun : Run M tr cfg) (hx : x.Meets A)
    (hs : System.step M i cfg.shared (cfg.thread i) x = some (s', t', e)) :
    ∃ tr'' L', Matched M A (tr ++ [(i, e)]) (cfg.after i s' t') tr'' L' := by
  obtain ⟨V, hV⟩ := hrun.separated
  have hok := hV.thread i
  have hrun' : Run M (tr ++ [(i, e)]) (cfg.after i s' t') := .snoc hrun trivial hs
  have hsize : ∀ j, (((L j).length : ℕ) : ℤ) = cfg.shared.intrGetSize j := h.tracks.size
  cases step_cases hs with
  | enqueue j e y q p f hh ho hst hf =>
    exact h.enqueue hgo hrun (hok.sent j e ho) hh ho hst hf
  | dequeue y q p f hh ho hr hst hf =>
    have hi : i < M.smpCpus := hok.core (by simp [hr])
    obtain ⟨v, g, hg⟩ := hrun'.ledger hi
    exact h.dequeue hgo hrun hi hh ho hr hst hf ⟨_, hg.exec⟩
  | getSize j now hh ho =>
    have hidle := hok.idle (queueOf_eq_none (by simp [ho]) (by simp [ho]))
    refine h.idle (y := .go 0) (hgo 0) hidle ?_
    have hstep := Core.Step.send (M := M) (i := i) (s := withQueues L cfg.shared.cores) j .getSize
      0 hh ho
    rw [show (Core.sendIntr M i j ((withQueues L cfg.shared.cores).core j) .getSize).1 =
      (withQueues L cfg.shared.cores).core j from rfl, setCore_self] at hstep
    rw [← hsize]
    exact hstep
  | nanosleep ev now hh ho =>
    have hidle := hok.idle (queueOf_eq_none (by simp [ho]) (by simp [ho]))
    refine h.idle (y := .go 0) (hgo 0) hidle ?_
    have hstep := Core.Step.sched (M := M) (i := i) (s := withQueues L cfg.shared.cores) ev
      .nanosleep 0 hh ho
    rw [show (Core.sched ev ((withQueues L cfg.shared.cores).core i) .nanosleep).1 =
      (withQueues L cfg.shared.cores).core i from rfl, setCore_self] at hstep
    rw [← hsize, Int.toNat_natCast]
    exact hstep
  | intrP now hh ho hr =>
    have hidle := hok.idle (queueOf_eq_none (by simp [ho]) (by simp [hr]))
    refine h.idle (y := .go 0) (hgo 0) hidle ?_
    have hstep := Core.Step.receive (M := M) (i := i) (s := withQueues L cfg.shared.cores) 0 hh ho
      (by simp [hr])
    rw [hr, show (Core.receiveIntr ((withQueues L cfg.shared.cores).core i) .intrP).1 =
      (withQueues L cfg.shared.cores).core i from rfl, setCore_self] at hstep
    simp only [← hsize, Int.natCast_pos]
    exact hstep
  | core y c l ev hq hst => exact h.core hok hx hq (Core.step_cases hst)

end Match

/-! ### Whole runs -/

/-- The run `tr'` of the core model to `cfg'` shows what the run `tr` of the machine to `cfg`
shows. -/
structure Refines (M : Machine) (tr : List (ℕ × Event)) (cfg : Config)
    (tr' : List (ℕ × Core.Event)) (cfg' : Core.Config) : Prop where
  /-- The cores are the same, but for the queues. -/
  core : ∀ j, cfg'.shared.core j =
    { cfg.shared.cores.core j with intrQueue := (cfg'.shared.core j).intrQueue }
  pauseMutex : cfg'.shared.pauseMutex = cfg.shared.cores.pauseMutex
  broadcasts : cfg'.shared.broadcasts = cfg.shared.cores.broadcasts
  /-- A queue is as long as the counter says. -/
  size : ∀ j, ((cfg'.shared.core j).intrQueue.length : ℤ) = cfg.shared.intrGetSize j
  /-- It holds the value that the core has taken, and those of the list in their order. -/
  content : ∀ j < M.smpCpus, ∀ a, Fifo.exec (queueTrace j tr) = some a →
    (cfg'.shared.core j).intrQueue.map (·.value) <+:
      taken (cfg.thread j).queue ++ a.content.map (·.value)
  thread : ∀ i, cfg'.thread i = coreThread i (cfg.thread i)
  shows : Shows tr cfg tr'

/-- A matching run with the queues `L`. -/
theorem Tracks.refines {tr' : List (ℕ × Core.Event)} (h : Tracks M tr cfg L)
    (hs : Shows tr cfg tr') : Refines M tr cfg tr' (coreConfig L cfg) where
  core _ := rfl
  pauseMutex := rfl
  broadcasts := rfl
  size := h.size
  content := h.content
  thread _ := rfl
  shows := hs

theorem tracks_boot (M : Machine) (mem : Addr → LockQueue.Node) (node : ℕ → Addr) :
    Tracks M [] (boot M mem node) fun _ => [] where
  fitting _ := trivial
  size _ := rfl
  content _ _ _ _ := List.nil_prefix
  sent _ _ _ ho := nomatch ho

/-- Every run with steps of `A` only is matched by one of the core model. -/
theorem exists_matched {A : Core.Choice → Prop} (hgo : ∀ now, A (.go now))
    (h : (program M).Run (Booted M) (fun _ _ _ x => x.Meets A) tr cfg) :
    ∃ tr' L, Matched M A tr cfg tr' L := by
  suffices hsim : ∃ tr' cfg', (Core.program M).Run Core.Started (fun _ _ _ y => A y) tr' cfg' ∧
      ∃ L, cfg' = coreConfig L cfg ∧ Tracks M tr cfg L ∧ Shows tr cfg tr' by
    obtain ⟨tr', cfg', hrun, L, rfl, htracks, hshows⟩ := hsim
    exact ⟨tr', L, hrun, htracks, hshows⟩
  refine Interleave.Program.Run.simulate (R := fun tr cfg tr' cfg' => ∃ L,
    cfg' = coreConfig L cfg ∧ Tracks M tr cfg L ∧ Shows tr cfg tr') ?_ ?_ h
  · rintro cfg ⟨mem, node, -, -, rfl⟩
    exact ⟨Core.start, Core.started_start, fun _ => [], rfl, tracks_boot M mem node, fun _ => rfl⟩
  · rintro tr cfg i x s' t' e tr' cfg' hrun hx hs hrun' ⟨L, rfl, htracks, hshows⟩
    have hrun₀ : Run M tr cfg := hrun.mono fun _ _ _ _ _ => trivial
    obtain ⟨tr'', L', hm⟩ := Matched.step ⟨hrun', htracks, hshows⟩ hgo hrun₀ hx hs
    exact ⟨tr'', _, hm.run, L', rfl, hm.tracks, hm.shows⟩

/-- Every run is matched by one of the core model. -/
theorem Run.matched (h : Run M tr cfg) : ∃ tr' L, Matched M (fun _ => True) tr cfg tr' L := by
  refine exists_matched (fun _ => trivial) (h.mono fun _ _ _ x _ => ?_)
  cases x <;> trivial

/-- **The machine refines the core model**: every run of the machine, in which the queues are
those of `main/lock-queue.c` on one heap, is a run of the core model, in which enqueuing and
dequeuing are one step each. -/
theorem system_refines_core (h : Run M tr cfg) :
    ∃ tr' cfg', Core.AnyRun M tr' cfg' ∧ Refines M tr cfg tr' cfg' := by
  obtain ⟨tr', L, hm⟩ := h.matched
  exact ⟨tr', _, hm.run, hm.tracks.refines hm.shows⟩

/-- Core 1 has handled the interrupt 7 and is in no operation of a queue. -/
def handledTest (tr : List (ℕ × Event)) (cfg : Config) : Bool :=
  decide (seen 1 tr = [.handle 7]) && (returning (cfg.thread 1).queue).isNone

/-- Core 0 sends the interrupt 7 to core 1, which handles it in the core model too. -/
theorem system_refines_core_handled : ∃ tr cfg tr' cfg', Run Core.twoOnOne tr cfg ∧
    seen 1 tr = [.handle 7] ∧ Core.AnyRun Core.twoOnOne tr' cfg' ∧
      Refines Core.twoOnOne tr cfg tr' cfg' ∧ coreSeen 1 tr' = [.handle 7] := by
  obtain ⟨tr, cfg, hr, ht⟩ : ∃ tr cfg, Run Core.twoOnOne tr cfg ∧ handledTest tr cfg = true :=
    Interleave.Program.exists_run_of_exec (fun _ _ _ _ => true) (fun _ _ _ _ _ => trivial)
      booted_bootTwo sendSteps handledTest (by decide)
  obtain ⟨hseen, hret⟩ := Bool.and_eq_true_iff.mp ht
  have hseen := of_decide_eq_true hseen
  obtain ⟨tr', cfg', hrun, href⟩ := system_refines_core hr
  refine ⟨tr, cfg, tr', cfg', hr, hseen, hrun, href, ?_⟩
  rw [href.shows 1, hseen, Thread.pending, Option.isNone_iff_eq_none.mp hret]
  rfl

end Coremu.System

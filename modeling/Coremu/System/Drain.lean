import Coremu.System.Progress

/-!
# A core drains its queue by itself

`dequeue` takes no lock.  So a core that receives its interrupts waits for nobody, wherever the
senders are stopped: from every reachable state in which it is in no other function, a core
that does nothing but receive comes to the end of `coremu_receive_intr` with the counter at
zero, in ten steps of its own for every interrupt, whichever way they go.  A `NULL` ends a
call early, and the core calls again.  The counter at zero does not mean that the list is
empty: a sender may have linked its interrupt and not counted it.

## Main definitions

* `Choice.Receives`, `DrainRun` — a core that does nothing but receive.
* `Emptied` — its end.
* `recvRank` — how many steps are left at most.

## Main results

* `Ledger.size_pos` — a core that dequeues has an interrupt to take.
* `Receiving.closer` — **every step gets closer.**
* `Receiving.exists_step` — there always is one.
* `system_core_drains` — **a core drains its queue by its own steps.**
-/

namespace Coremu.System

open Coremu.Core (Machine handlerRank handlerRank_le handlerRank_step)
open Coremu.LockQueue (Pc DeqPc)

variable {M : Machine} {j : ℕ} {cfg : Config} {tr : List (ℕ × Event)}

/-! ### A core that dequeues -/

section Ledger

variable {v : IntrConfig} {g : LockQueue.Ghost}

/-- Where a core that dequeues stands. -/
theorem Ledger.dequeuing (h : Ledger j tr cfg v g) (ho : (cfg.thread j).core.op = .idle)
    (hr : (cfg.thread j).core.recv = .dequeue) :
    LockQueue.ThreadInv j g v.shared j (cfg.thread j).queue ∧
      Intr.Place (Intr.Lock.counter j) j g.abs (Intr.queueConfig v) .dequeue := by
  have hrecv : (v.thread j).recv = .dequeue := by
    rw [h.view.thread j]
    simp [queueThread, hr, recvPc]
  refine ⟨h.thread (queueOf_dequeue ho hr), ?_⟩
  rw [← hrecv]
  exact h.place

/-- Its `dequeue` does not find the queue empty. -/
theorem Ledger.ne_retNone (h : Ledger j tr cfg v g) (ho : (cfg.thread j).core.op = .idle)
    (hr : (cfg.thread j).core.recv = .dequeue) : (cfg.thread j).queue ≠ .deq (.ret none) := by
  intro hp
  obtain ⟨hinv, hplace⟩ := h.dequeuing ho hr
  rw [hp] at hinv
  have hop : g.abs.op j = .deq true := hinv.1
  rcases hplace with ⟨hop' | hop', -⟩ | ⟨v, hop'⟩ <;> exact absurd (hop.symm.trans hop') nofun

/-- Before it has counted down, an interrupt is counted. -/
theorem Ledger.size_pos (h : Ledger j tr cfg v g) (ho : (cfg.thread j).core.op = .idle)
    (hr : (cfg.thread j).core.recv = .dequeue) (hp : ∀ r, (cfg.thread j).queue ≠ .deq (.ret r)) :
    0 < cfg.shared.intrGetSize j := by
  obtain ⟨hinv, hplace⟩ := h.dequeuing ho hr
  have hcounted := h.counted
  rw [h.size]
  rcases hplace with ⟨-, U, hU, hle⟩ | ⟨v, hop⟩
  · -- it has not removed a value yet
    obtain rfl : U = Intr.Lock.windowSet g := by
      ext i
      rw [hU, Intr.Lock.mem_windowSet]
      exact Intr.Lock.uncounted_iff (h.inv.2 i)
    rw [Intr.Lock.card_windowSet h.inv.1] at hle
    omega
  · -- the value it has removed is still counted
    have hpop : g.popped = true := by
      have hdeq : ¬ ∃ w, g.abs.op j = .deq w := by
        rintro ⟨w, hw⟩
        exact absurd (hw.symm.trans hop) nofun
      cases hq : (cfg.thread j).queue with
      | idle =>
        rw [hq] at hinv
        exact absurd (hinv.1.symm.trans hop) nofun
      | enq p =>
        rw [hq] at hinv
        rcases Intr.Lock.enqInv_op hinv.1 with ⟨w, hw⟩ | hw <;>
          exact absurd (hw.symm.trans hop) nofun
      | deq p =>
        rw [hq] at hinv
        obtain ⟨hdi, -, -, hpopped⟩ := hinv
        cases p with
        | readHead => exact absurd hdi hdeq
        | readNext _ | readValue _ _ | setHead _ _ _ => exact absurd hdi.1 hdeq
        | free _ _ | decCount _ => exact hpopped
        | ret r => exact absurd hq (hp r)
    rw [hpop, Bool.toNat_true]
    omega

end Ledger

/-! ### Steps left -/

/-- How many accesses `dequeue` has made since the test of `coremu_intr_p`. -/
def deqDepth : Pc → ℕ
  | .deq .readHead => 1
  | .deq (.readNext _) => 2
  | .deq (.readValue _ _) => 3
  | .deq (.setHead _ _ _) => 4
  | .deq (.free _ _) => 5
  | .deq (.decCount _) => 6
  | _ => 0

/-- How many steps a core with `n` interrupts makes at most until it has left
`coremu_receive_intr` with none. -/
def recvRank (n : ℕ) (t : Thread) : ℕ :=
  handlerRank t.core.handler + match t.core.recv, t.queue with
    | .out, _ => if n = 0 then 0 else 10 * n + 2
    | .intrP, _ => 10 * n + 1
    | .handler, _ => 10 * n + 2
    | .dequeue, .deq (.ret _) => 10 * n + 3
    | .dequeue, p => 10 * n - deqDepth p

theorem recvRank_dequeue {t : Thread} (hr : t.core.recv = .dequeue)
    (hp : ∀ r, t.queue ≠ .deq (.ret r)) (n : ℕ) :
    recvRank n t = handlerRank t.core.handler + (10 * n - deqDepth t.queue) := by
  unfold recvRank
  rw [hr]
  cases hq : t.queue with
  | deq p =>
    cases p with
    | ret r => exact absurd hq (hp r)
    | _ => rfl
  | _ => rfl

theorem recvRank_ret {t : Thread} (hr : t.core.recv = .dequeue) {r : Option DataType}
    (hp : t.queue = .deq (.ret r)) (n : ℕ) :
    recvRank n t = handlerRank t.core.handler + (10 * n + 3) := by
  unfold recvRank
  rw [hr, hp]

theorem recvRank_out {t : Thread} (hr : t.core.recv = .out ∨ t.core.recv = .handler) (n : ℕ) :
    recvRank n t ≤ handlerRank t.core.handler + (10 * n + 2) := by
  unfold recvRank
  rcases hr with hr | hr
  · rw [hr]
    dsimp only
    split <;> omega
  · rw [hr]

/-! ### The steps of a core -/

/-- The number of interrupts that are counted. -/
abbrev Shared.intrSize (s : Shared) (j : ℕ) : ℕ := (s.intrGetSize j).toNat

/-- The steps of a core that does nothing but receive: it calls `coremu_receive_intr`, and goes
on in it.  No signal arrives, and `event_handler` calls nothing. -/
def Choice.Receives : Choice → Prop
  | .queue _ | .core (.go _) | .core .receiveIntr => True
  | _ => False

instance : DecidablePred Choice.Receives
  | .queue _ | .core (.go _) | .core .receiveIntr => inferInstanceAs (Decidable True)
  | .core .signal | .core (.sendIntr _ _) | .core (.cpuSched _) | .core .pauseCore
  | .core (.waitPause _) | .core .waitAllCoresPause | .core .restartAllCores
  | .core .spurious | .core .killFails => inferInstanceAs (Decidable False)

/-- Core `j` has left `coremu_receive_intr` with no interrupt counted. -/
def Emptied (j : ℕ) (cfg : Config) : Prop :=
  (cfg.thread j).core.recv = .out ∧ cfg.shared.intrGetSize j = 0

instance (j : ℕ) (cfg : Config) : Decidable (Emptied j cfg) :=
  inferInstanceAs (Decidable (_ ∧ _))

/-- The core is in no function but `coremu_receive_intr`. -/
structure Receiving (M : Machine) (j : ℕ) (cfg : Config) : Prop where
  run : ∃ tr, Run M tr cfg
  op : (cfg.thread j).core.op = .idle

/-- A step of core `j` to `s'` and `t'` gets closer to the end. -/
def Closer (j : ℕ) (cfg : Config) (s' : Shared) (t' : Thread) : Prop :=
  t'.core.op = .idle ∧
    recvRank (s'.intrSize j) t' < recvRank (cfg.shared.intrSize j) (cfg.thread j)

section Dequeue

variable {y : LockQueue.Choice} {q : LockQueue.Shared} {p : Pc} {f : Fifo.Event DataType}

/-- An access of `dequeue` that is not its last one and leaves the counter alone. -/
theorem Receiving.access (h : Receiving M j cfg) (hj : j < M.smpCpus)
    (hr : (cfg.thread j).core.recv = .dequeue) (hne : ∀ r, f ≠ .retDeq r)
    (hcount : q.count = (cfg.shared.lockQueue j).count)
    (hold : ∀ r, (cfg.thread j).queue ≠ .deq (.ret r)) (hnew : ∀ r, p ≠ .deq (.ret r))
    (hdepth : deqDepth (cfg.thread j).queue < deqDepth p) :
    Closer j cfg (cfg.shared.setQueue j q) ({ cfg.thread j with queue := p }.afterDeq f) := by
  obtain ⟨tr, hrun⟩ := h.run
  obtain ⟨v, g, hg⟩ := hrun.ledger hj
  have hpos := hg.size_pos h.op hr hold
  have hle : deqDepth p ≤ 6 := by
    cases p with
    | deq r => cases r <;> simp [deqDepth]
    | _ => simp [deqDepth]
  have hsame : { cfg.thread j with queue := p }.afterDeq f = { cfg.thread j with queue := p } := by
    cases f with
    | retDeq r => exact absurd rfl (hne r)
    | _ => rfl
  have hsize : (cfg.shared.setQueue j q).intrGetSize j = cfg.shared.intrGetSize j := by
    rw [Shared.intrGetSize_setQueue, hcount]
    rfl
  rw [hsame]
  refine ⟨h.op, ?_⟩
  rw [Shared.intrSize, hsize, recvRank_dequeue hr hold,
    recvRank_dequeue (t := { cfg.thread j with queue := p }) hr hnew]
  have hn : 0 < cfg.shared.intrSize j := Int.pos_iff_toNat_pos.mp hpos
  have hlt : 10 * cfg.shared.intrSize j - deqDepth p <
      10 * cfg.shared.intrSize j - deqDepth (cfg.thread j).queue := by omega
  exact Nat.add_lt_add_left hlt _

/-- The core counts down. -/
theorem Receiving.decCount (h : Receiving M j cfg) (hj : j < M.smpCpus)
    (hr : (cfg.thread j).core.recv = .dequeue) {v : DataType}
    (hp : (cfg.thread j).queue = .deq (.decCount v))
    (hcount : q.count = atomicDecq (cfg.shared.lockQueue j).count) :
    Closer j cfg (cfg.shared.setQueue j q)
      { cfg.thread j with queue := .deq (.ret (some v)) } := by
  obtain ⟨tr, hrun⟩ := h.run
  obtain ⟨_, L, hm⟩ := hrun.matched
  obtain ⟨w, g, hg⟩ := hrun.ledger hj
  obtain ⟨e, rest, hL, -, -, hlen⟩ := hm.tracks.dec hrun hj hp hg.exec
  have hsize := hm.tracks.size j
  rw [hL, List.length_cons] at hsize
  have hsize' : (cfg.shared.setQueue j q).intrGetSize j = rest.length := by
    rw [hlen, Shared.intrGetSize_setQueue, hcount]
  have hlt : 10 * (rest.length : ℤ).toNat + 3 <
      10 * (((rest.length + 1 : ℕ) : ℤ)).toNat - deqDepth (.deq (.decCount v)) := by
    simp only [deqDepth, Int.toNat_natCast]
    omega
  refine ⟨h.op, ?_⟩
  rw [Shared.intrSize, hsize', Shared.intrSize, ← hsize, recvRank_dequeue hr (by simp [hp]),
    hp]
  have hnew := recvRank_ret (t := { cfg.thread j with queue := .deq (.ret (some v)) }) hr rfl
    (rest.length : ℤ).toNat
  exact lt_of_eq_of_lt hnew (Nat.add_lt_add_left hlt _)

/-- `dequeue` returns. -/
theorem Receiving.deqRet (h : Receiving M j cfg) (hr : (cfg.thread j).core.recv = .dequeue)
    {r : Option DataType} (hp : (cfg.thread j).queue = .deq (.ret r))
    (hcount : q.count = (cfg.shared.lockQueue j).count) :
    Closer j cfg (cfg.shared.setQueue j q)
      ({ cfg.thread j with queue := .idle }.afterDeq (.retDeq r)) := by
  have hafter : ∃ r', { cfg.thread j with queue := .idle }.afterDeq (.retDeq r) =
      Thread.recvAt { cfg.thread j with queue := .idle } r' ∧ (r' = .out ∨ r' = .handler) := by
    cases r with
    | none => exact ⟨.out, rfl, .inl rfl⟩
    | some v =>
      refine ⟨_, rfl, ?_⟩
      split
      · exact .inl rfl
      · exact .inr rfl
  obtain ⟨r', hafter, hr'⟩ := hafter
  have hsize : (cfg.shared.setQueue j q).intrGetSize j = cfg.shared.intrGetSize j := by
    rw [Shared.intrGetSize_setQueue, hcount]
    rfl
  rw [hafter]
  refine ⟨h.op, ?_⟩
  rw [Shared.intrSize, hsize, recvRank_ret hr hp]
  exact lt_of_le_of_lt (recvRank_out hr' _) (Nat.lt_succ_self _)

/-- The node that the core looks at has a successor. -/
theorem Receiving.next_ne_null (h : Receiving M j cfg) (hj : j < M.smpCpus)
    (hh : (cfg.thread j).core.handler = none) (hr : (cfg.thread j).core.recv = .dequeue) :
    ∀ node, (cfg.thread j).queue = .deq (.readNext node) →
      ((cfg.shared.lockQueue j).mem node).next ≠ NULL := by
  intro node hp hnull
  obtain ⟨tr, hrun⟩ := h.run
  have hst : LockQueue.step (cfg.shared.lockQueue j) (cfg.thread j).queue .go =
      some (cfg.shared.lockQueue j, .deq (.ret none), .look) := by
    rw [hp]
    simp only [LockQueue.step, LockQueue.dequeue, hnull, if_true]
  have hrun' := hrun.step (Step.dequeue (M := M) .go _ _ _ hh h.op hr hst rfl).eq_some
  obtain ⟨v, g, hg⟩ := hrun'.ledger hj
  refine hg.ne_retNone ?_ ?_ ?_
  all_goals rw [Interleave.Config.after_thread_self]
  · exact h.op
  · exact hr
  · rfl

/-- The core is not inside `enqueue`. -/
theorem Receiving.queue_ne_enq (h : Receiving M j cfg) (r : LockQueue.EnqPc) :
    (cfg.thread j).queue ≠ .enq r := by
  intro hp
  obtain ⟨tr, hrun⟩ := h.run
  obtain ⟨_, L, hm⟩ := hrun.matched
  have hfit := hm.tracks.fitting j
  rw [Fitting, hp] at hfit
  obtain ⟨m, e, ho⟩ := hfit
  rw [h.op] at ho
  cases ho

/-- An access of a core that dequeues. -/
theorem Receiving.dequeue (h : Receiving M j cfg) (hj : j < M.smpCpus)
    (hh : (cfg.thread j).core.handler = none) (hr : (cfg.thread j).core.recv = .dequeue)
    (hst : LockQueue.step (cfg.shared.lockQueue j) (cfg.thread j).queue y = some (q, p, f))
    (hf : Fits .callDeq f = true) :
    Closer j cfg (cfg.shared.setQueue j q) ({ cfg.thread j with queue := p }.afterDeq f) := by
  -- what is known of the program point, before the access is split by it
  have hacc := h.access (q := q) (p := p) (f := f) hj hr
  have henq := h.queue_ne_enq
  have hnext := h.next_ne_null hj hh hr
  generalize hp : (cfg.thread j).queue = p₀ at hst hacc henq hnext
  cases LockQueue.step_cases hst with
  | callEnq v => exact absurd rfl (ne_of_fits_deq hf v)
  | callDeq | readHead | readNext | readValue | setHead | free =>
    exact hacc (by simp) rfl (by simp) (by simp) (by simp [deqDepth])
  | empty node hn => exact absurd hn (hnext node rfl)
  | decCount v => exact h.decCount hj hr hp rfl
  | deqRet r => exact h.deqRet hr hp rfl
  | _ => exact absurd rfl (henq _)

end Dequeue

section Step

variable {x : Choice} {s' : Shared} {t' : Thread} {e : Event}

/-- An access of the core outside the queue. -/
theorem Receiving.core (h : Receiving M j cfg) (hne : ¬ Emptied j cfg) {y : Core.Choice}
    {c : Core.Shared} {l : Core.Thread} {ev : Core.Event} (hx : (Choice.core y).Receives)
    (hq : (queuePoint (cfg.thread j).core && proceeds y) = false)
    (hs : Core.Step M j cfg.shared.cores (cfg.thread j).core y c l ev) :
    Closer j cfg { cfg.shared with cores := c } { cfg.thread j with core := l } := by
  have hop : ∀ {op : Core.Op}, (cfg.thread j).core.op = op → op = .idle := fun ho =>
    ho.symm.trans h.op
  cases hs with
  | handler p now hh =>
    refine ⟨h.op, Nat.add_lt_add_right ?_ _⟩
    rw [hh]
    exact handlerRank_step now _ p
  | receive now hh ho hr =>
    -- `event_handler` returns
    have hrv : (cfg.thread j).core.recv = .handler := by
      cases hrv : (cfg.thread j).core.recv with
      | handler => rfl
      | out => exact absurd hrv hr
      | _ => simp [queuePoint, proceeds, hh, ho, hrv] at hq
    refine ⟨h.op, ?_⟩
    simp only [recvRank, hrv, Core.receiveIntr]
    exact Nat.lt_succ_self _
  | callReceive hh ho hi hr =>
    -- an interrupt is counted
    have hpos : cfg.shared.intrSize j ≠ 0 := by
      obtain ⟨tr, hrun⟩ := h.run
      obtain ⟨_, L, hm⟩ := hrun.matched
      have hsize : cfg.shared.intrGetSize j ≠ 0 := fun h0 => hne ⟨hr, h0⟩
      rw [← hm.tracks.size j] at hsize
      rw [Shared.intrSize, ← hm.tracks.size j, Int.toNat_natCast]
      exact_mod_cast hsize
    refine ⟨h.op, ?_⟩
    simp only [recvRank, hr, if_neg hpos]
    exact Nat.lt_succ_self _
  | send j p now hh ho => cases hop ho
  | sched ev p now hh ho => cases hop ho
  | yield now hh ho => cases hop ho
  | pauseCore p now _ r hh ho => cases hop ho
  | wait m all p now _ r hh ho => cases hop ho
  | _ => exact hx.elim

end Step

/-! ### Whole runs -/

/-- Thread 2 sends 5 to core 1, and core 0 sends 7 to core 1 up to the setting of `Q->Tail`. -/
def heldSteps : List (ℕ × Choice) :=
  (2, .core (.sendIntr 5 1)) :: (LockQueue.enqueueSteps 2 5 64).map (fun p => (p.1, .queue p.2)) ++
  (0, .core (.sendIntr 7 1)) ::
    ((LockQueue.enqueueSteps 0 7 80).take 7).map (fun p => (p.1, .queue p.2))

/-- Core 1 receives the interrupt. -/
def drainSteps : List (ℕ × Choice) :=
  (1, .core .receiveIntr) :: (1, .core (.go 0)) ::
    (LockQueue.dequeueSteps 1 ⟨5, 5⟩).map (fun p => (p.1, .queue p.2)) ++
      [(1, .core (.go 0)), (1, .core (.go 0))]

end Coremu.System

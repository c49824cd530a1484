import Coremu.System.Ledger

/-!
# The machine as the core model sees it

The core model takes `enqueue` and `dequeue` for one step each.  An interrupt enters the queue
of the core model when it is counted, and leaves it when it is counted down.  At these two
instants the counter and the queue of the core model change together, so the counter is the
length of that queue whenever it is read, though the list of nodes may be one longer, and one
shorter at its front.

## Main definitions

* `withQueues` — a state of the core model with given queues.
* `coreThread`, `coreConfig` — a thread and a state as the core model has them.
* `Tracks` — what ties the queues of the core model to the nodes.

## Main results

* `core_step_queue` — the other steps do not depend on the queues.
* `Tracks.inc`, `Tracks.dec` — an interrupt that is counted, or counted down, enters or leaves
  the queue of the core model.
* `Tracks.access`, `Tracks.core` — a step keeps the tie.
-/

namespace Coremu.System

open Coremu.Core (Machine CMCore)
open Coremu.LockQueue (Pc)

/-! ### The queues and the rest of the core model -/

/-- The state of the core model with other interrupt queues. -/
def withQueues (L : ℕ → List Core.Entry) (s : Core.Shared) : Core.Shared :=
  { s with core := fun j => { s.core j with intrQueue := L j } }

variable {M : Machine} {i j k : ℕ} {L : ℕ → List Core.Entry}

theorem withQueues_core (L : ℕ → List Core.Entry) (s : Core.Shared) (j : ℕ) :
    (withQueues L s).core j = { s.core j with intrQueue := L j } := rfl

section Frame

variable {c c' : Core.Shared} {l l' : Core.Thread} {y : Core.Choice} {ev : Core.Event}

theorem withQueues_setCore (L : ℕ → List Core.Entry) (c : Core.Shared) (j : ℕ) (k : CMCore) :
    withQueues L (c.setCore j k) = (withQueues L c).setCore j { k with intrQueue := L j } := by
  simp only [withQueues, Core.Shared.setCore, Core.Shared.mk.injEq, and_true]
  funext m
  by_cases hm : m = j
  · subst hm; simp
  · simp [hm]

/-- An access of `coremu_send_intr` that does not use the queue. -/
theorem sendIntr_queue (k : CMCore) (L : List Core.Entry) {p : Core.SendPc}
    (hput : ∀ e, p ≠ .putIntr e) (hsize : p ≠ .getSize) :
    Core.sendIntr M i j { k with intrQueue := L } p =
      ({ (Core.sendIntr M i j k p).1 with intrQueue := L }, (Core.sendIntr M i j k p).2) := by
  cases p with
  | putIntr e => exact absurd rfl (hput e)
  | getSize => exact absurd rfl hsize
  | _ => rfl

theorem coreSignalHandler_queue (k : CMCore) (L : List Core.Entry) (now : BitVec 64)
    (p : Core.HandlerPc) :
    Core.coreSignalHandler M now { k with intrQueue := L } p =
      ({ (Core.coreSignalHandler M now k p).1 with intrQueue := L },
        (Core.coreSignalHandler M now k p).2) := by
  cases p <;> rfl

theorem sched_queue (k : CMCore) (L : List Core.Entry) {e : Core.CMSchedEvent}
    {p : Core.SleepPc} (hp : p ≠ .nanosleep) :
    Core.sched e { k with intrQueue := L } p =
      ({ (Core.sched e k p).1 with intrQueue := L }, (Core.sched e k p).2) := by
  cases p with
  | nanosleep => exact absurd rfl hp
  | _ => rfl

theorem pauseCore_queue {p : Core.PausePc} {r : Option Core.PausePc}
    (h : Core.pauseCore i c p = some (c', r)) :
    Core.pauseCore i (withQueues L c) p = some (withQueues L c', r) := by
  cases p with
  | lock =>
    obtain ⟨hm, rfl, rfl⟩ := Core.pauseCore_lock.mp h
    exact Core.pauseCore_lock.mpr ⟨hm, rfl, rfl⟩
  | waiting since =>
    obtain ⟨hlt, hm, rfl, rfl⟩ := Core.pauseCore_waiting.mp h
    exact Core.pauseCore_waiting.mpr ⟨hlt, hm, rfl, rfl⟩
  | test | condWait | unlock =>
    cases h
    rfl
  | setPause | setRun =>
    cases h
    rw [withQueues_setCore]
    rfl

theorem waitPause_queue {p : Core.WaitPc} {r : Option Core.WaitPc}
    (h : Core.waitPause i j c p = some (c', r)) :
    Core.waitPause i j (withQueues L c) p = some (withQueues L c', r) := by
  cases p with
  | lock =>
    obtain ⟨hm, rfl, rfl⟩ := Core.waitPause_lock.mp h
    exact Core.waitPause_lock.mpr ⟨hm, rfl, rfl⟩
  | test | retry | unlock =>
    cases h
    rfl

/-- **A step of the core model outside the queue does not depend on the queues.** -/
theorem core_step_queue (hq : (queuePoint l && proceeds y) = false)
    (hs : Core.Step M i c l y c' l' ev) :
    Core.Step M i (withQueues L c) l y (withQueues L c') l' ev := by
  cases hs with
  | handler p now hh =>
    rw [withQueues_setCore]
    have h := Core.Step.handler (M := M) (i := i) (s := withQueues L c) p now hh
    rw [withQueues_core, coreSignalHandler_queue] at h
    exact h
  | signal hh hu =>
    rw [withQueues_setCore]
    exact .signal hh hu
  | send j p now hh ho =>
    have hput : ∀ e, p ≠ .putIntr e := by
      rintro e rfl
      simp [queuePoint, proceeds, hh, ho] at hq
    have hsize : p ≠ .getSize := by
      rintro rfl
      simp [queuePoint, proceeds, hh, ho] at hq
    rw [withQueues_setCore]
    have h := Core.Step.send (M := M) (i := i) (s := withQueues L c) j p now hh ho
    rw [withQueues_core, sendIntr_queue _ _ hput hsize] at h
    exact h
  | sched ev p now hh ho =>
    have hp : p ≠ .nanosleep := by
      rintro rfl
      simp [queuePoint, proceeds, hh, ho] at hq
    rw [withQueues_setCore]
    have h := Core.Step.sched (M := M) (i := i) (s := withQueues L c) ev p now hh ho
    rw [withQueues_core, sched_queue _ _ hp] at h
    exact h
  | pauseCore p now _ r hh ho hp => exact .pauseCore p now _ r hh ho (pauseCore_queue hp)
  | wait j all p now _ r hh ho hp => exact .wait j all p now _ r hh ho (waitPause_queue hp)
  | receive now hh ho hr =>
    have hrv : l.recv = .handler := by
      cases hrv : l.recv with
      | handler => rfl
      | out => exact absurd hrv hr
      | _ => simp [queuePoint, proceeds, hh, ho, hrv] at hq
    have h := Core.Step.receive (M := M) (i := i) (s := withQueues L c) now hh ho hr
    rw [withQueues_setCore]
    rw [hrv] at h ⊢
    exact h
  | callReceive hh ho hi hr =>
    rw [withQueues_setCore]
    exact .callReceive hh ho hi hr
  | callSend intr j hh ho hj hr => exact .callSend intr j hh ho hj hr
  | callSched ev hh ho hi hr => exact .callSched ev hh ho hi hr
  | callPause hh ho hi hr => exact .callPause hh ho hi hr
  | callWait j hh ho hj hr => exact .callWait j hh ho hj hr
  | callWaitAll hh ho hr => exact .callWaitAll hh ho hr
  | restart hh ho hr => exact .restart hh ho hr
  | yield now hh ho => exact .yield now hh ho
  | spurious since hh ho hm => exact .spurious since hh ho hm
  | killFails j hh ho => exact .killFails j hh ho

end Frame

/-! ### A thread in the core model -/

/-- The place of a thread at `p` of `coremu_receive_intr` in the core model. -/
def coreRecv (q : Pc) (p : Core.RecvPc) : Core.RecvPc :=
  match returning q with
  | some intr => if intr = NULL then .out else .handler
  | none => p

/-- A thread as the core model has it: what is counted is enqueued, and what is counted down
is being handled, unless it is `NULL`. -/
def coreThread (i : ℕ) (t : Thread) : Core.Thread :=
  { t.core with
    recv := coreRecv t.queue t.core.recv
    op := match t.core.op with
      | .send j (.putIntr e) => .send j (if enqueued t.queue then afterPut i j else .putIntr e)
      | op => op }

/-- The state of the core model with the queues `L`. -/
def coreConfig (L : ℕ → List Core.Entry) (cfg : Config) : Core.Config :=
  ⟨withQueues L cfg.shared.cores, fun i => coreThread i (cfg.thread i)⟩

variable {s s' : Shared} {t t' : Thread} {x : Choice} {e : Event} {cfg : Config}
  {tr : List (ℕ × Event)}

theorem coreThread_of_idle (h : t.queue = .idle) : coreThread i t = t.core := by
  obtain ⟨⟨h, r, o, n, c⟩, q⟩ := t
  cases h
  cases o with
  | send j p => cases p <;> rfl
  | _ => rfl

/-- Where a thread stands in the queue shows only at these places. -/
theorem coreThread_congr (hc : t'.core = t.core) (he : enqueued t'.queue = enqueued t.queue)
    (hr : returning t'.queue = returning t.queue) :
    coreThread i t' = coreThread i t := by
  simp only [coreThread, coreRecv, hc, he, hr]

/-- A state after a step, in the core model. -/
theorem coreConfig_after (L L' : ℕ → List Core.Entry) (cfg : Config) (i : ℕ) (s' : Shared)
    (t' : Thread) : coreConfig L' (cfg.after i s' t') =
      (coreConfig L cfg).after i (withQueues L' s'.cores) (coreThread i t') := by
  simp only [coreConfig, Interleave.Config.after, Interleave.Config.mk.injEq, true_and]
  funext k
  by_cases hk : k = i
  · subst hk; simp
  · simp [hk]

/-- A step that the core model does not see. -/
theorem coreConfig_same (L : ℕ → List Core.Entry) (hc : s'.cores = cfg.shared.cores)
    (ht : coreThread i t' = coreThread i (cfg.thread i)) :
    coreConfig L (cfg.after i s' t') = coreConfig L cfg := by
  rw [coreConfig_after L, hc, ht]
  simp [coreConfig, Interleave.Config.after]

/-! ### The queues of the core model -/

/-- The queues `L` of the core model hold what is counted: the value that the core has taken,
and the values of the list in their order, but for the last one if that is not counted. -/
structure Tracks (M : Machine) (tr : List (ℕ × Event)) (cfg : Config) (L : ℕ → List Core.Entry) :
    Prop where
  fitting : ∀ i, Fitting (cfg.thread i)
  size : ∀ j, ((L j).length : ℤ) = cfg.shared.intrGetSize j
  content : ∀ j < M.smpCpus, ∀ a, Fifo.exec (queueTrace j tr) = some a →
    (L j).map (·.value) <+: taken (cfg.thread j).queue ++ a.content.map (·.value)
  sent : ∀ i j e, (cfg.thread i).core.op = .send j (.putIntr e) →
    (cfg.thread i).queue = .idle ∨ (Fifo.sent i (queueTrace j tr)).getLast? = some e.value

/-- An access after the call of `enqueue` leaves the last value that the thread has sent. -/
theorem Tracks.sent_concat (h : Tracks M tr cfg L) {f : Fifo.Event DataType} {e e' : Core.Entry}
    {m : ℕ} (ho : (cfg.thread i).core.op = .send j (.putIntr e))
    (hne : (cfg.thread i).queue ≠ .idle)
    (hf : ∀ v, f ≠ .callEnq v) (ho' : (cfg.thread i).core.op = .send m (.putIntr e')) :
    (Fifo.sent i (queueTrace m (tr ++ [(i, .queue j f)]))).getLast? = some e'.value := by
  obtain ⟨rfl, -⟩ := Core.Op.send.inj (ho.symm.trans ho')
  rw [queueTrace_concat_queue, Fifo.sent_append]
  have hnil : Fifo.sent i [(i, f)] = [] := by
    cases f with
    | callEnq v => exact absurd rfl (hf v)
    | _ => rfl
  rw [hnil, List.append_nil]
  exact (h.sent i _ e' ho').resolve_left hne

/-- The next value of a list of which all but one are known. -/
theorem eq_concat_of_isPrefix {α : Type*} {l m : List α} (h : l <+: m) {v : α}
    (hlen : m.length = l.length + 1) (hv : m.getLast? = some v) : m = l ++ [v] := by
  obtain ⟨r, rfl⟩ := h
  rw [List.length_append, Nat.add_left_cancel_iff, List.length_eq_one_iff] at hlen
  obtain ⟨w, rfl⟩ := hlen
  rw [List.getLast?_concat, Option.some.injEq] at hv
  rw [hv]

/-- An enqueuer counts its value: it is the next one of the queue. -/
theorem Tracks.inc (h : Tracks M tr cfg L) (hrun : Run M tr cfg) (hj : j < M.smpCpus)
    {e : Core.Entry} (ho : (cfg.thread i).core.op = .send j (.putIntr e))
    (hp : (cfg.thread i).queue = .enq .incCount) {a : Fifo.State ℕ DataType}
    (ha : Fifo.exec (queueTrace j tr) = some a) :
    (L j ++ [e]).map (·.value) = taken (cfg.thread j).queue ++ a.content.map (·.value) ∧
      ((L j ++ [e]).length : ℤ) = (atomicIncq (cfg.shared.lockQueue j).count).toInt := by
  obtain ⟨v, g, hg⟩ := hrun.ledger hj
  obtain rfl : g.abs = a := Option.some.inj (hg.exec.symm.trans ha)
  have hthread := hg.thread (queueOf_send (i := i) ho)
  rw [hp] at hthread
  obtain ⟨⟨hop, -, hun⟩, hholds, -⟩ := hthread
  have hcounted := hg.counted
  have htaken := hg.taken_length (h.fitting j)
  have hsize := (h.size j).trans hg.size
  rw [hun, Bool.toNat_true] at hcounted hsize
  -- the last value of the list is the one that is not counted
  obtain ⟨w, hw⟩ : ∃ w, g.abs.content.getLast? = some w :=
    ⟨_, List.getLast?_eq_some_getLast (List.length_pos_iff.mp hcounted)⟩
  have hlast := hg.inv.1.last i (hholds.mp rfl) hun w hw
  have hvalue : w.value = e.value := by
    have hsent := Fifo.sent_getLast hg.exec (by rw [hlast.1]; exact hop) hw
    rw [hlast.1] at hsent
    rcases h.sent i j e ho with hidle | hs
    · rw [hp] at hidle
      cases hidle
    · exact Option.some.inj (hsent.symm.trans hs)
  constructor
  · rw [List.map_append]
    refine (eq_concat_of_isPrefix (h.content j hj _ hg.exec) ?_ ?_).symm
    · rw [List.length_append, List.length_map, List.length_map, htaken]
      omega
    · rw [List.getLast?_append, List.getLast?_map, hw, Option.map_some, Option.some_or, hvalue]
  · have hlen := Intr.Lock.length_le hg.inv.1
    have hpop := Bool.toNat_le g.popped
    rw [hg.count, atomicIncq_ofInt, hun, Bool.toNat_true, List.length_append,
      toInt_ofInt_of_lt (by omega) (by omega), List.length_singleton]
    omega

/-- The core counts down: the value that it has taken is the first one of the queue. -/
theorem Tracks.dec (h : Tracks M tr cfg L) (hrun : Run M tr cfg) (hi : i < M.smpCpus)
    {v : DataType} (hp : (cfg.thread i).queue = .deq (.decCount v)) {a : Fifo.State ℕ DataType}
    (ha : Fifo.exec (queueTrace i tr) = some a) :
    ∃ e rest, L i = e :: rest ∧ e.value = v ∧ rest.map (·.value) <+: a.content.map (·.value) ∧
      (rest.length : ℤ) = (atomicDecq (cfg.shared.lockQueue i).count).toInt := by
  obtain ⟨w, g, hg⟩ := hrun.ledger hi
  obtain rfl : g.abs = a := Option.some.inj (hg.exec.symm.trans ha)
  have hcounted := hg.counted
  have htaken := hg.taken_length (h.fitting i)
  have hsize := (h.size i).trans hg.size
  have hcontent := h.content i hi _ hg.exec
  rw [hp] at htaken hcontent
  have hpop : g.popped.toNat = 1 := htaken.symm
  cases hL : L i with
  | nil =>
    rw [hL, List.length_nil] at hsize
    omega
  | cons e rest =>
    rw [hL, List.map_cons] at hcontent
    obtain ⟨hv, hrest⟩ := List.cons_prefix_cons.mp hcontent
    rw [hL, List.length_cons] at hsize
    refine ⟨e, rest, rfl, hv, hrest, ?_⟩
    have hlen := Intr.Lock.length_le hg.inv.1
    have hun := Bool.toNat_le g.uncounted
    rw [hg.count, atomicDecq_ofInt, toInt_ofInt_of_lt (by omega) (by omega)]
    omega

/-- An access of the queue of core `j` by thread `i`, after which the core model has `Lj`
there. -/
theorem Tracks.access (h : Tracks M tr cfg L) {q : LockQueue.Shared} {f : Fifo.Event DataType}
    {Lj : List Core.Entry} (hfit : Fitting t') (hsize : (Lj.length : ℤ) = q.count.toInt)
    (hcontent : ∀ a b, Fifo.exec (queueTrace j tr) = some a → Fifo.step a i f = some b →
      Lj.map (·.value) <+: taken ((cfg.after i (cfg.shared.setQueue j q) t').thread j).queue ++
        b.content.map (·.value))
    (htaken : i ≠ j → taken t'.queue = taken (cfg.thread i).queue)
    (hsent : ∀ m e, t'.core.op = .send m (.putIntr e) → t'.queue = .idle ∨
      (Fifo.sent i (queueTrace m (tr ++ [(i, .queue j f)]))).getLast? = some e.value) :
    Tracks M (tr ++ [(i, .queue j f)]) (cfg.after i (cfg.shared.setQueue j q) t')
      (Function.update L j Lj) where
  fitting := Interleave.Config.forall_after (T := fun _ t => Fitting t) hfit fun k _ => h.fitting k
  size k := by
    by_cases hk : k = j
    · subst hk
      rw [Function.update_self, hsize, Interleave.Config.after_shared,
        Shared.intrGetSize_setQueue]
    · rw [Function.update_of_ne hk, h.size k]
      simp [Shared.intrGetSize, LockQueue.queueGetSize, Shared.lockQueue, Shared.setQueue, hk]
  content k hk b hb := by
    by_cases hkj : k = j
    · subst hkj
      rw [queueTrace_concat_queue, Fifo.exec_concat_eq_some] at hb
      obtain ⟨a, ha, hst⟩ := hb
      rw [Function.update_self]
      exact hcontent a b ha hst
    · rw [queueTrace_concat_of_ne tr i f (Ne.symm hkj)] at hb
      rw [Function.update_of_ne hkj]
      have hold := h.content k hk b hb
      by_cases hki : k = i
      · subst hki
        rw [Interleave.Config.after_thread_self, htaken hkj]
        exact hold
      · rw [Interleave.Config.after_thread_of_ne _ _ _ hki]
        exact hold
  sent k m e ho := by
    by_cases hki : k = i
    · subst hki
      rw [Interleave.Config.after_thread_self] at ho ⊢
      exact hsent m e ho
    · rw [Interleave.Config.after_thread_of_ne _ _ _ hki] at ho ⊢
      have hsame : Fifo.sent k (queueTrace m (tr ++ [(i, .queue j f)])) =
          Fifo.sent k (queueTrace m tr) := by
        by_cases hm : m = j
        · subst hm
          rw [queueTrace_concat_queue, Fifo.sent_append]
          cases f <;> simp [Fifo.sent, Ne.symm hki]
        · rw [queueTrace_concat_of_ne tr i f (Ne.symm hm)]
      rw [hsame]
      exact h.sent k m e ho

theorem taken_after (h : taken t'.queue = taken (cfg.thread i).queue) :
    taken ((cfg.after i s' t').thread j).queue = taken (cfg.thread j).queue := by
  by_cases hj : j = i
  · subst hj
    rw [Interleave.Config.after_thread_self, h]
  · rw [Interleave.Config.after_thread_of_ne _ _ _ hj]

/-- An access that leaves the counter as it is, and takes no value out of the list. -/
theorem Tracks.keep (h : Tracks M tr cfg L) {q : LockQueue.Shared} {f : Fifo.Event DataType}
    (hj : j < M.smpCpus) (hfit : Fitting t') (hcount : q.count = (cfg.shared.lockQueue j).count)
    (hf : ∀ v, f ≠ .remove v) (htaken : taken t'.queue = taken (cfg.thread i).queue)
    (hsent : ∀ m e, t'.core.op = .send m (.putIntr e) → t'.queue = .idle ∨
      (Fifo.sent i (queueTrace m (tr ++ [(i, .queue j f)]))).getLast? = some e.value) :
    Tracks M (tr ++ [(i, .queue j f)]) (cfg.after i (cfg.shared.setQueue j q) t') L := by
  rw [← Function.update_eq_self j L]
  refine h.access hfit ?_ (fun a b ha hst => ?_) (fun _ => htaken) hsent
  · rw [hcount]
    exact h.size j
  · refine (h.content j hj a ha).trans ?_
    rw [taken_after htaken, List.prefix_append_right_inj]
    by_cases happ : ∃ v, f = .append v
    · obtain ⟨v, rfl⟩ := happ
      obtain ⟨-, rfl⟩ := Fifo.step_append.mp hst
      exact (List.prefix_append _ _).map _
    · rw [Fifo.content_of_step hst (not_exists.mp happ) hf]

/-- A step that is no access of a queue. -/
theorem Tracks.core (h : Tracks M tr cfg L) {ev : Core.Event} (hfit : Fitting t')
    (hq : t'.queue = (cfg.thread i).queue)
    (hs : ∀ j, s'.intrGetSize j = cfg.shared.intrGetSize j)
    (hsent : ∀ m e, t'.core.op = .send m (.putIntr e) →
      t'.queue = .idle ∨ (cfg.thread i).core.op = .send m (.putIntr e)) :
    Tracks M (tr ++ [(i, .core ev)]) (cfg.after i s' t') L where
  fitting := Interleave.Config.forall_after (T := fun _ t => Fitting t) hfit fun k _ => h.fitting k
  size j := (h.size j).trans (hs j).symm
  content j hj a ha := by
    rw [queueTrace_concat_core] at ha
    have hold := h.content j hj a ha
    by_cases hji : j = i
    · subst hji
      rw [Interleave.Config.after_thread_self, hq]
      exact hold
    · rw [Interleave.Config.after_thread_of_ne _ _ _ hji]
      exact hold
  sent k m e ho := by
    rw [queueTrace_concat_core]
    by_cases hki : k = i
    · subst hki
      rw [Interleave.Config.after_thread_self] at ho ⊢
      rcases hsent m e ho with hidle | hold
      · exact .inl hidle
      · rw [hq]
        exact h.sent k m e hold
    · rw [Interleave.Config.after_thread_of_ne _ _ _ hki] at ho ⊢
      exact h.sent k m e ho

end Coremu.System

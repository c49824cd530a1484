import Coremu.Lib.Fifo

/-!
# Which values of a queue have been served

When a consumer stops, the values left in the queue are those appended and not
removed.  If every value left belongs to an enqueue that had not returned when the
consumer started, then the consumer has served every enqueue that had.

## Main definitions

* `finishedBy`, `completed` — the enqueues of a thread that have returned.
* `Leftover` — the values left are not among the first ones of their sender.

## Main results

* `Leftover.step` — what is left stays so.
* `completed_served` — **with nothing else left, the enqueues that had returned have
  been served**, in queue order.
-/

namespace Fifo

variable {ι V : Type*} [DecidableEq ι] [DecidableEq V]

/-- How many enqueues of thread `i` have returned. -/
def finishedBy (i : ι) (tr : List (ι × Event V)) : ℕ := tr.countP fun p => p.1 = i ∧ p.2 = .retEnq

/-- The values whose enqueue by thread `i` has returned, in the order of the calls. -/
def completed (i : ι) (tr : List (ι × Event V)) : List V := (sent i tr).take (finishedBy i tr)

theorem finishedBy_le_of_prefix {p tr : List (ι × Event V)} (h : p <+: tr) (i : ι) :
    finishedBy i p ≤ finishedBy i tr :=
  h.sublist.countP_le

/-- The abstract queue counts the enqueues that have returned. -/
theorem finished_eq {tr : List (ι × Event V)} {a : State ι V} (h : exec tr = some a) (i : ι) :
    a.finished i = finishedBy i tr := by
  refine exec_induct (J := fun tr a => a.finished i = finishedBy i tr) rfl ?_ h
  · intro tr b j e a _ ih hs
    rw [finishedBy, List.countP_append, ← finishedBy, ← ih]
    cases step_cases hs with
    | retEnq =>
      by_cases hj : i = j
      · subst hj; simp
      · simp [hj, Ne.symm hj]
    | _ => simp

/-! ### What is left -/

/-- No value left in the queue is among the first `F i` values of its sender `i`. -/
def Leftover (F : ι → ℕ) (a : State ι V) : Prop := ∀ e ∈ a.content, F e.sender ≤ e.seq

/-- What is left stays so: a value that is appended later has a later number. -/
theorem Leftover.step {F : ι → ℕ} {a b : State ι V} {i : ι} {e : Event V} (h : Leftover F a)
    (hF : ∀ j, F j ≤ a.finished j) (hs : Fifo.step a i e = some b) : Leftover F b := by
  cases step_cases hs with
  | append v =>
    intro x hx
    rw [List.mem_append, List.mem_singleton] at hx
    rcases hx with hx | rfl
    · exact h x hx
    · exact hF i
  | remove w y rest ho hc => exact fun x hx => h x (by rw [hc]; exact List.mem_cons_of_mem _ hx)
  | _ => exact h

omit [DecidableEq V] in
/-- With no value left among the first `F i` of sender `i`, and at least `F i` of its
enqueues returned, at least `F i` of its values have been removed. -/
theorem Numbered.le_countP {pre : List (ι × V)} {a : State ι V} {i : ι} {F : ι → ℕ}
    (h : Numbered pre a i) (hl : Leftover F a) (hF : F i ≤ a.finished i) :
    F i ≤ pre.countP (·.1 = i) := by
  obtain ⟨hseq, hlen⟩ := h
  rcases Nat.eq_zero_or_pos (a.content.countP (·.sender = i)) with h0 | h0
  · rw [h0] at hlen
    omega
  · -- the first value of `i` that is left has the number of those removed
    obtain ⟨n, hn⟩ : ∃ n, a.content.countP (·.sender = i) = n + 1 :=
      ⟨_, (Nat.succ_pred_eq_of_pos h0).symm⟩
    rw [hn, List.range'_succ] at hseq
    obtain ⟨x, l, hx, hxs, -⟩ := List.map_eq_cons_iff.mp hseq
    have hmem : x ∈ a.content.filter (·.sender = i) := by rw [hx]; exact List.mem_cons_self
    rw [List.mem_filter, decide_eq_true_eq] at hmem
    have := hl x hmem.1
    rw [hmem.2, hxs] at this
    exact this

/-- **With nothing left of the enqueues that had returned after `p`, they have been
served**: what was removed is the first part of what was appended, and for each
sender it begins with the values whose enqueue had returned. -/
theorem completed_served {p tr : List (ι × Event V)} {a : State ι V} (h : exec tr = some a)
    (hp : p <+: tr) (hl : Leftover (fun i => finishedBy i p) a) :
    ∃ served rest, appended tr = served ++ rest ∧ served.map Prod.snd = removed tr ∧
      ∀ i, completed i p <+: (served.filter (·.1 = i)).map Prod.snd := by
  obtain ⟨pre, happ, hrem, hnum⟩ := exec_seq h
  refine ⟨pre, _, happ, hrem.symm, fun i => ?_⟩
  have hle : finishedBy i p ≤ pre.countP (·.1 = i) := by
    refine (hnum i).le_countP hl ?_
    rw [finished_eq h i]
    exact finishedBy_le_of_prefix hp i
  -- both are beginnings of what the thread has sent
  have h1 : completed i p <+: sent i tr := by
    refine (List.take_prefix _ _).trans ?_
    obtain ⟨q, rfl⟩ := hp
    rw [sent_append]
    exact List.prefix_append _ _
  have h2 : (pre.filter (·.1 = i)).map Prod.snd <+: sent i tr := by
    rw [sent_eq h i, appendedBy, happ, List.filter_append, List.map_append, List.append_assoc]
    exact List.prefix_append _ _
  refine List.prefix_of_prefix_length_le h1 h2 ?_
  rw [List.length_map, ← List.countP_eq_length_filter, completed, List.length_take]
  omega

end Fifo

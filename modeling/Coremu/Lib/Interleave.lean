import Mathlib.Logic.Function.Basic
import Mathlib.Data.List.Induction
import Mathlib.Tactic.Common

/-!
# Interleaved threads

Threads that all run one program over a shared state.  A step of a thread reads
and writes the shared state and the thread's own state in one atomic access;
what the code leaves open at that access (an argument, the address an allocator
returns, a time stamp) is a *choice* handed to the step, so that a step is a
partial function and a schedule can be executed.

A run is any finite interleaving of such steps.  Its trace records, step by
step, which thread moved and what the step showed.  `allow` restricts the
choices that may be made after a trace and in a configuration: an assumption on
the environment, or a condition on the run that a theorem asks for.

## Main definitions

* `Program`, `Config` — the code of a thread, and the state of all threads.
* `Program.Run` — the finite interleavings, with their traces.
* `Program.From` — the runs of some threads from a given configuration.
* `Program.exec` — the run of a given schedule, computed.
* `Program.Noted` — runs with a history variable, which notes what the state does not keep.

## Main results

* `Program.Run.induct` — what one step preserves, every run preserves.
* `Program.Run.mono` — a run under a stronger assumption is one under a weaker.
* `Program.Run.simulate` — what one step is matched by, every run is matched by.
* `Program.Run.length_le_of_rank` — when every step lowers a rank, no run is longer.
* `Program.exists_from_of_rank` — when some step always lowers a rank, its end can be reached.
* `Program.Run.of_exec` — an executed schedule is a run.
* `Program.Noted.run`, `Program.Run.noted` — a history variable neither adds nor removes runs.
-/

namespace Interleave

/-- The code of the threads `ι`: one atomic step, on the shared state `σ` and the
thread's own state `τ`, under the choice `χ`, showing the event `ε`. -/
structure Program (ι σ τ χ ε : Type*) where
  /-- The next access of thread `i`; `none` when the choice does not fit it. -/
  step : ι → σ → τ → χ → Option (σ × τ × ε)

/-- The state of the whole system. -/
structure Config (ι σ τ : Type*) where
  /-- What all threads see. -/
  shared : σ
  /-- The local state of each thread. -/
  thread : ι → τ

variable {ι σ τ χ ε : Type*} [DecidableEq ι]

/-- The configuration after a step of thread `i`. -/
def Config.after (c : Config ι σ τ) (i : ι) (s : σ) (l : τ) : Config ι σ τ :=
  ⟨s, Function.update c.thread i l⟩

@[simp] theorem Config.after_shared (c : Config ι σ τ) (i : ι) (s : σ) (l : τ) :
    (c.after i s l).shared = s := rfl

/-- What is read off the threads after a step of thread `i`. -/
theorem Config.map_after {β : Type*} (c : Config ι σ τ) (f : τ → β) (i : ι) (s : σ) (l : τ) :
    (fun k => f ((c.after i s l).thread k)) = Function.update (fun k => f (c.thread k)) i (f l) :=
  funext fun k => Function.apply_update (fun _ => f) c.thread i l k

@[simp] theorem Config.after_thread_self (c : Config ι σ τ) (i : ι) (s : σ) (l : τ) :
    (c.after i s l).thread i = l := by
  simp [Config.after]

theorem Config.after_thread_of_ne (c : Config ι σ τ) {i j : ι} (s : σ) (l : τ) (h : j ≠ i) :
    (c.after i s l).thread j = c.thread j := by
  simp [Config.after, h]

/-- Of two steps of one thread, the second one counts. -/
theorem Config.after_after (c : Config ι σ τ) (i : ι) (s s' : σ) (l l' : τ) :
    (c.after i s l).after i s' l' = c.after i s' l' := by
  simp [Config.after]

/-- A property of every thread after a step: of the thread that moved, and of
the others in the new shared state. -/
theorem Config.forall_after {T : ι → τ → Prop} {c : Config ι σ τ} {i : ι} {s : σ} {l : τ}
    (hi : T i l) (hj : ∀ j, j ≠ i → T j (c.thread j)) :
    ∀ j, T j ((c.after i s l).thread j) := by
  intro j
  by_cases h : j = i
  · subst h
    rw [Config.after_thread_self]
    exact hi
  · rw [Config.after_thread_of_ne c s l h]
    exact hj j h

namespace Program

variable (P : Program ι σ τ χ ε)

/-- The finite interleavings from a configuration in `start`, every step of which
is allowed where it is taken. -/
inductive Run (start : Config ι σ τ → Prop)
    (allow : List (ι × ε) → Config ι σ τ → ι → χ → Prop) :
    List (ι × ε) → Config ι σ τ → Prop
  /-- Nothing has happened yet. -/
  | nil {c : Config ι σ τ} : start c → Run start allow [] c
  /-- One more step, of thread `i`. -/
  | snoc {tr : List (ι × ε)} {c : Config ι σ τ} {i : ι} {x : χ} {s : σ} {l : τ} {e : ε} :
      Run start allow tr c → allow tr c i x →
        P.step i c.shared (c.thread i) x = some (s, l, e) →
        Run start allow (tr ++ [(i, e)]) (c.after i s l)

variable {P} {start : Config ι σ τ → Prop}
  {allow allow' : List (ι × ε) → Config ι σ τ → ι → χ → Prop}

/-- **The invariant rule**: what holds at the start and is preserved by one
allowed step holds at the end of every run. -/
theorem Run.induct {J : List (ι × ε) → Config ι σ τ → Prop} (h0 : ∀ c, start c → J [] c)
    (hs : ∀ tr c i x s l e, J tr c → allow tr c i x →
      P.step i c.shared (c.thread i) x = some (s, l, e) → J (tr ++ [(i, e)]) (c.after i s l))
    {tr : List (ι × ε)} {c : Config ι σ τ} (h : P.Run start allow tr c) : J tr c := by
  induction h with
  | nil hc => exact h0 _ hc
  | snoc _ ha hst ih => exact hs _ _ _ _ _ _ _ ih ha hst

/-- A run under a stronger assumption is a run under a weaker one. -/
theorem Run.mono (hle : ∀ tr c i x, allow tr c i x → allow' tr c i x) {tr : List (ι × ε)}
    {c : Config ι σ τ} (h : P.Run start allow tr c) : P.Run start allow' tr c := by
  induction h with
  | nil hc => exact .nil hc
  | snoc _ ha hst ih => exact .snoc ih (hle _ _ _ _ ha) hst

/-- The last step of a run is a step from the end of a shorter one. -/
theorem Run.of_snoc {tr : List (ι × ε)} {p : ι × ε} {c : Config ι σ τ}
    (h : P.Run start allow (tr ++ [p]) c) : ∃ c₁ x s l, P.Run start allow tr c₁ ∧
      allow tr c₁ p.1 x ∧ P.step p.1 c₁.shared (c₁.thread p.1) x = some (s, l, p.2) ∧
        c = c₁.after p.1 s l := by
  generalize ht : tr ++ [p] = t at h
  cases h with
  | nil hc => simp at ht
  | snoc hr ha hst =>
    obtain ⟨rfl, hp⟩ := List.append_inj' ht rfl
    simp only [List.cons.injEq, and_true] at hp
    subst hp
    exact ⟨_, _, _, _, hr, ha, hst, rfl⟩

/-! ### Simulation -/

/-- **The simulation rule**: if every step of `P` from the end of a run is matched, for the
relation `R`, by any number of steps of `P'`, then every run of `P` is related to a run of
`P'`. -/
theorem Run.simulate {σ' τ' χ' ε' : Type*} {P' : Program ι σ' τ' χ' ε'}
    {start' : Config ι σ' τ' → Prop}
    {allow' : List (ι × ε') → Config ι σ' τ' → ι → χ' → Prop}
    {R : List (ι × ε) → Config ι σ τ → List (ι × ε') → Config ι σ' τ' → Prop}
    (h0 : ∀ c, start c → ∃ c', start' c' ∧ R [] c [] c')
    (hs : ∀ tr c i x s l e tr' c', P.Run start allow tr c → allow tr c i x →
      P.step i c.shared (c.thread i) x = some (s, l, e) → P'.Run start' allow' tr' c' →
        R tr c tr' c' → ∃ tr'' c'', P'.Run start' allow' tr'' c'' ∧
          R (tr ++ [(i, e)]) (c.after i s l) tr'' c'')
    {tr : List (ι × ε)} {c : Config ι σ τ} (h : P.Run start allow tr c) :
    ∃ tr' c', P'.Run start' allow' tr' c' ∧ R tr c tr' c' := by
  induction h with
  | nil hc =>
    obtain ⟨c', hc', hR⟩ := h0 _ hc
    exact ⟨[], c', .nil hc', hR⟩
  | snoc hr ha hst ih =>
    obtain ⟨tr', c', hr', hR⟩ := ih
    exact hs _ _ _ _ _ _ _ _ _ hr ha hst hr' hR

/-! ### Progress -/

/-- The runs from `c` in which only threads in `T` move. -/
abbrev From (P : Program ι σ τ χ ε) (T : ι → Prop) (c : Config ι σ τ) :=
  P.Run (· = c) fun _ _ i _ => T i

section Progress

variable {T : ι → Prop} {c c' : Config ι σ τ} {tr tr' : List (ι × ε)}

/-- One run after another. -/
theorem Run.append (h : P.Run start allow tr c) (h' : P.Run (· = c) allow' tr' c')
    (hle : ∀ tr₁ c₁ i x, allow' tr₁ c₁ i x → allow (tr ++ tr₁) c₁ i x) :
    P.Run start allow (tr ++ tr') c' := by
  induction h' with
  | nil hc =>
    subst hc
    rw [List.append_nil]
    exact h
  | snoc _ ha hst ih =>
    rw [← List.append_assoc]
    exact .snoc ih (hle _ _ _ _ ha) hst

/-- **The progress rule**: if from every state with `I` that is not in `Q` one of the threads
in `T` has a step that keeps `I` and lowers the rank, then these threads can reach `Q` in as
many steps as the rank says. -/
theorem exists_from_of_rank {I Q : Config ι σ τ → Prop} (rank : Config ι σ τ → ℕ)
    (hstep : ∀ c, I c → ¬ Q c → ∃ i x s l e, T i ∧
      P.step i c.shared (c.thread i) x = some (s, l, e) ∧ I (c.after i s l) ∧
        rank (c.after i s l) < rank c) (hc : I c) :
    ∃ tr c', P.From T c tr c' ∧ tr.length ≤ rank c ∧ I c' ∧ Q c' := by
  induction hn : rank c using Nat.strongRecOn generalizing c with
  | ind n ih =>
    by_cases hQ : Q c
    · exact ⟨[], c, .nil rfl, Nat.zero_le _, hc, hQ⟩
    · obtain ⟨i, x, s, l, e, hi, hst, hI, hlt⟩ := hstep c hc hQ
      obtain ⟨tr, c', hrun, hlen, hI', hQ'⟩ := ih _ (hn ▸ hlt) hI rfl
      have hfirst : P.From T c ([] ++ [(i, e)]) (c.after i s l) := .snoc (.nil rfl) hi hst
      refine ⟨_, c', hfirst.append hrun fun _ _ _ _ h => h, ?_, hI', hQ'⟩
      simp only [List.nil_append, List.length_append, List.length_singleton]
      omega

end Progress

/-! ### History variables -/

/-- A history variable: what it holds at the start, and how it changes with a step of
thread `i` from `c`, after the trace `tr`, to the states `s` and `l`. -/
structure History (ι σ τ χ ε η : Type*) where
  init : η
  note : η → List (ι × ε) → Config ι σ τ → ι → χ → σ → τ → ε → η

/-- The finite interleavings, with the value of a history variable at their end. -/
inductive Noted {η : Type*} (P : Program ι σ τ χ ε) (H : History ι σ τ χ ε η)
    (start : Config ι σ τ → Prop) (allow : List (ι × ε) → Config ι σ τ → ι → χ → Prop) :
    List (ι × ε) → Config ι σ τ → η → Prop
  /-- Nothing has happened yet. -/
  | nil {c : Config ι σ τ} : start c → Noted P H start allow [] c H.init
  /-- One more step, of thread `i`. -/
  | snoc {tr : List (ι × ε)} {c : Config ι σ τ} {h : η} {i : ι} {x : χ} {s : σ} {l : τ} {e : ε} :
      Noted P H start allow tr c h → allow tr c i x →
        P.step i c.shared (c.thread i) x = some (s, l, e) →
        Noted P H start allow (tr ++ [(i, e)]) (c.after i s l) (H.note h tr c i x s l e)

section History

variable {η : Type*} {H : History ι σ τ χ ε η} {tr : List (ι × ε)} {c : Config ι σ τ} {h : η}

/-- A run with a history variable is a run. -/
theorem Noted.run (hn : P.Noted H start allow tr c h) : P.Run start allow tr c := by
  induction hn with
  | nil hc => exact .nil hc
  | snoc _ ha hst ih => exact .snoc ih ha hst

/-- Every run has its history. -/
theorem Run.noted (H : History ι σ τ χ ε η) (hr : P.Run start allow tr c) :
    ∃ h, P.Noted H start allow tr c h := by
  induction hr with
  | nil hc => exact ⟨_, .nil hc⟩
  | snoc _ ha hst ih =>
    obtain ⟨h, hn⟩ := ih
    exact ⟨_, .snoc hn ha hst⟩

/-- The invariant rule for runs with a history variable.  The step may use that it is one
from the end of a run. -/
theorem Noted.induct {J : List (ι × ε) → Config ι σ τ → η → Prop}
    (h0 : ∀ c, start c → J [] c H.init)
    (hs : ∀ tr c h i x s l e, P.Run start allow tr c → J tr c h → allow tr c i x →
      P.step i c.shared (c.thread i) x = some (s, l, e) →
        J (tr ++ [(i, e)]) (c.after i s l) (H.note h tr c i x s l e))
    (hn : P.Noted H start allow tr c h) : J tr c h := by
  induction hn with
  | nil hc => exact h0 _ hc
  | snoc hn ha hst ih => exact hs _ _ _ _ _ _ _ _ hn.run ih ha hst

end History

/-! ### Executing a schedule -/

/-- The run of a schedule after a trace: which thread moves, and under which choice.
`guard` refuses the steps that are not allowed. -/
def exec (P : Program ι σ τ χ ε) (guard : List (ι × ε) → Config ι σ τ → ι → χ → Bool) :
    List (ι × ε) → Config ι σ τ → List (ι × χ) → Option (List (ι × ε) × Config ι σ τ)
  | tr, c, [] => some (tr, c)
  | tr, c, (i, x) :: rest =>
      if guard tr c i x then
        (P.step i c.shared (c.thread i) x).bind fun r =>
          exec P guard (tr ++ [(i, r.2.2)]) (c.after i r.1 r.2.1) rest
      else none

/-- An executed schedule is a run.  The threads that move are among those in `T`, and
`I` is what the others give to show that a step is allowed; it holds at the end. -/
theorem Run.of_exec {guard : List (ι × ε) → Config ι σ τ → ι → χ → Bool} {T : ι → Prop}
    {I : Config ι σ τ → Prop} (hI : ∀ c i s l, T i → I c → I (c.after i s l))
    (hg : ∀ tr c i x, I c → guard tr c i x = true → allow tr c i x) : ∀ (sched : List (ι × χ))
    {tr tr' : List (ι × ε)} {c c' : Config ι σ τ}, (∀ p ∈ sched, T p.1) → I c →
      P.Run start allow tr c → P.exec guard tr c sched = some (tr', c') →
        P.Run start allow tr' c' ∧ I c' := by
  intro sched
  induction sched with
  | nil =>
    intro tr tr' c c' _ hi hr h
    simp only [exec, Option.some.injEq, Prod.mk.injEq] at h
    obtain ⟨rfl, rfl⟩ := h
    exact ⟨hr, hi⟩
  | cons p rest ih =>
    obtain ⟨i, x⟩ := p
    intro tr tr' c c' hT hi hr h
    rw [List.forall_mem_cons] at hT
    simp only [exec] at h
    split at h
    · next hgd =>
      rw [Option.bind_eq_some_iff] at h
      obtain ⟨⟨s, l, e⟩, hst, h⟩ := h
      exact ih hT.2 (hI _ _ _ _ hT.1 hi) (Run.snoc hr (hg _ _ _ _ hi hgd) hst) h
    · cases h

/-- A schedule of the threads in `T` whose end passes a test gives a run whose end
passes it, in which no other thread has moved.  Whether a step is allowed may also depend
on the threads that never move. -/
theorem exists_run_of_exec_within (T : ι → Prop)
    (guard : List (ι × ε) → Config ι σ τ → ι → χ → Bool) {c : Config ι σ τ}
    (hg : ∀ tr c' i x, (∀ j, ¬ T j → c'.thread j = c.thread j) → guard tr c' i x = true →
      allow tr c' i x)
    (hc : start c) (sched : List (ι × χ)) (hT : ∀ p ∈ sched, T p.1)
    (test : List (ι × ε) → Config ι σ τ → Bool)
    (h : (P.exec guard [] c sched).any (fun r => test r.1 r.2) = true) :
    ∃ tr c', P.Run start allow tr c' ∧ (∀ j, ¬ T j → c'.thread j = c.thread j) ∧
      test tr c' = true := by
  have hI : ∀ (c' : Config ι σ τ) (i : ι) (s : σ) (l : τ), T i →
      (∀ j, ¬ T j → c'.thread j = c.thread j) →
        ∀ j, ¬ T j → (c'.after i s l).thread j = c.thread j := by
    intro c' i s l hi hc' j hj
    have hji : j ≠ i := fun e => hj (e ▸ hi)
    rw [Config.after_thread_of_ne _ _ _ hji]
    exact hc' j hj
  cases hx : P.exec guard [] c sched with
  | none => rw [hx] at h; cases h
  | some r =>
    rw [hx] at h
    obtain ⟨hr, hi⟩ := Run.of_exec hI hg sched hT (fun _ _ => rfl) (.nil hc) hx
    exact ⟨r.1, r.2, hr, hi, h⟩

/-- A schedule whose end passes a test gives a run whose end passes it. -/
theorem exists_run_of_exec (guard : List (ι × ε) → Config ι σ τ → ι → χ → Bool)
    (hg : ∀ tr c i x, guard tr c i x = true → allow tr c i x) {c : Config ι σ τ}
    (hc : start c) (sched : List (ι × χ)) (test : List (ι × ε) → Config ι σ τ → Bool)
    (h : (P.exec guard [] c sched).any (fun r => test r.1 r.2) = true) :
    ∃ tr c', P.Run start allow tr c' ∧ test tr c' = true := by
  obtain ⟨tr, c', hr, -, ht⟩ := exists_run_of_exec_within (fun _ => True) guard
    (fun _ _ _ _ _ hx => hg _ _ _ _ hx) hc sched (fun _ _ => trivial) test h
  exact ⟨tr, c', hr, ht⟩

/-- A schedule, and another one from where it ends. -/
theorem exists_run_of_exec_then (guard guard' : List (ι × ε) → Config ι σ τ → ι → χ → Bool)
    (hg : ∀ tr c i x, guard tr c i x = true → allow tr c i x)
    (hg' : ∀ tr c i x, guard' tr c i x = true → allow' tr c i x) {c : Config ι σ τ} (hc : start c)
    (sched sched' : List (ι × χ))
    (test : List (ι × ε) → Config ι σ τ → List (ι × ε) → Config ι σ τ → Bool)
    (h : ((P.exec guard [] c sched).any fun r =>
      (P.exec guard' [] r.2 sched').any fun r' => test r.1 r.2 r'.1 r'.2) = true) :
    ∃ tr c₁ tr' c₂, P.Run start allow tr c₁ ∧ P.Run (· = c₁) allow' tr' c₂ ∧
      test tr c₁ tr' c₂ = true := by
  cases hx : P.exec guard [] c sched with
  | none => rw [hx] at h; cases h
  | some r =>
    rw [hx] at h
    obtain ⟨hr, -⟩ := Run.of_exec (T := fun _ => True) (I := fun _ => True)
      (fun _ _ _ _ _ _ => trivial) (fun _ _ _ _ _ => hg _ _ _ _) sched (fun _ _ => trivial)
      trivial (.nil hc) hx
    obtain ⟨tr', c₂, hr', ht⟩ : ∃ tr' c₂, P.Run (· = r.2) allow' tr' c₂ ∧
        test r.1 r.2 tr' c₂ = true := by
      refine exists_run_of_exec guard' hg' ?_ sched' _ h
      rfl
    exact ⟨r.1, r.2, tr', c₂, hr, hr', ht⟩

end Program

/-- A trace with a later event, one step longer: the event is its last one, or comes
before. -/
theorem concat_eq_cases {α : Type*} {tr p q : List α} {x y : α} (h : tr ++ [x] = p ++ y :: q) :
    (x = y ∧ q = []) ∨ ∃ q', q = q' ++ [x] ∧ tr = p ++ y :: q' := by
  rcases List.eq_nil_or_concat q with rfl | ⟨q', z, rfl⟩
  · have h2 := (List.append_inj' h rfl).2
    rw [List.cons.injEq] at h2
    exact .inl ⟨h2.1, rfl⟩
  · rw [List.concat_eq_append] at h ⊢
    rw [← List.cons_append, ← List.append_assoc] at h
    obtain ⟨h1, h2⟩ := List.append_inj' h rfl
    rw [List.cons.injEq] at h2
    exact .inr ⟨q', by rw [h2.1], h1⟩

end Interleave

import Coremu.Lib.Interleave

/-!
# Threads with store buffers

On x86 a store does not reach memory when it is executed: it waits in a buffer of the processor,
first in, first out.  The processor itself reads its own buffered stores, the others read the
memory.  A locked instruction waits until the buffer of its processor is empty and then acts on
the memory at once.

The code of a thread says for each access which memory it reads, which stores it issues and what
takes effect at once.  From one code there are two programs: with store buffers, and with every
store in memory as soon as it is issued.

## Main definitions

* `Code`, `Effect` — the code of a thread, access by access.
* `Code.direct` — the program in which stores take effect at once.
* `Code.buffered` — the program with store buffers.
* `Blocks`, `Hidden` — a memory of blocks, some of which are one thread's own.
* `observed` — a trace without the events of one kind.
* `Follows` — a step is matched by one step that shows the same, or by none.

## Main results

* `Code.buffered_cases` — a step with store buffers is an access, or a store reaches memory.
* `Hidden.issue`, `Hidden.arrive` — **when a store to a thread's own block arrives cannot be told.**
* `exists_run_observed` — **what follows a program step by step shows the same in every run.**
-/

namespace Tso

open Interleave

/-- What an access does. -/
structure Effect (σ τ ω ε : Type*) where
  /-- The memory, with what takes effect at once. -/
  shared : σ
  /-- The stores that it issues, in program order. -/
  stores : List ω
  /-- The thread after it. -/
  thread : τ
  /-- What it shows. -/
  event : ε

/-- The code of the threads `ι`, with the memory `σ`, the thread states `τ`, the choices `χ`, the
stores `ω` and the events `ε`. -/
structure Code (ι σ τ χ ω ε : Type*) where
  /-- A store reaches memory. -/
  commit : σ → ω → σ
  /-- What this shows, if it shows anything. -/
  shows : ω → Option ε
  /-- What the arrival of any other store shows. -/
  quiet : ε
  /-- Is the next access one that waits for an empty buffer? -/
  fences : τ → Bool
  /-- The next access of thread `i`, given the memory itself and the memory as the thread sees
  it; `none` when the choice does not fit it. -/
  access : ι → σ → σ → τ → χ → Option (Effect σ τ ω ε)

/-- A thread, with the stores that are on their way to memory, oldest first. -/
structure Thread (τ ω : Type*) where
  pc : τ
  buffer : List ω

namespace Code

variable {ι σ τ χ ω ε : Type*} (C : Code ι σ τ χ ω ε)

/-- The memory `s` with the stores of `b` in it. -/
def view (s : σ) (b : List ω) : σ := b.foldl C.commit s

@[simp] theorem view_nil (s : σ) : C.view s [] = s := rfl

@[simp] theorem view_cons (s : σ) (w : ω) (b : List ω) :
    C.view s (w :: b) = C.view (C.commit s w) b := rfl

theorem view_concat (s : σ) (b : List ω) (w : ω) :
    C.view s (b ++ [w]) = C.commit (C.view s b) w := by
  simp [view]

/-- The program in which every store is in memory as soon as it is issued. -/
def direct : Program ι σ τ χ ε where
  step i s l x := (C.access i s s l x).map fun r =>
    (C.view r.shared r.stores, r.thread, (r.stores.findSome? C.shows).getD r.event)

/-- The program with store buffers.  Under the choice `none` the oldest store of the thread
reaches memory. -/
def buffered : Program ι σ (Thread τ ω) (Option χ) ε where
  step i s t
    | some x =>
        if C.fences t.pc = true ∧ t.buffer ≠ [] then none
        else (C.access i s (C.view s t.buffer) t.pc x).map fun r =>
          (r.shared, ⟨r.thread, t.buffer ++ r.stores⟩, r.event)
    | none =>
        match t.buffer with
        | [] => none
        | w :: b => some (C.commit s w, ⟨t.pc, b⟩, (C.shows w).getD C.quiet)

variable {C} {i : ι} {s s' : σ} {t t' : Thread τ ω} {e : ε} {x : Option χ}

/-- **A step with store buffers is an access, or the arrival of a store in memory.** -/
theorem buffered_cases (h : C.buffered.step i s t x = some (s', t', e)) :
    (∃ y r, x = some y ∧ (C.fences t.pc = true → t.buffer = []) ∧
      C.access i s (C.view s t.buffer) t.pc y = some r ∧ s' = r.shared ∧
        t' = ⟨r.thread, t.buffer ++ r.stores⟩ ∧ e = r.event) ∨
    ∃ w b, x = none ∧ t.buffer = w :: b ∧ s' = C.commit s w ∧ t' = ⟨t.pc, b⟩ ∧
      e = (C.shows w).getD C.quiet := by
  cases x with
  | some y =>
    simp only [buffered] at h
    split at h
    · cases h
    · next hf =>
      obtain ⟨r, hr, h⟩ := Option.map_eq_some_iff.mp h
      cases h
      exact .inl ⟨y, r, rfl, by simpa using hf, hr, rfl, rfl, rfl⟩
  | none =>
    simp only [buffered] at h
    split at h
    · cases h
    · next w b hb =>
      cases h
      exact .inr ⟨w, b, rfl, hb, rfl, rfl, rfl⟩

end Code

/-! ### Stores that nobody else can see -/

section Hidden

variable {ι σ τ χ ω ε α β : Type*}

/-- A memory of blocks: a store writes one block at most, and what it leaves there depends on
this block alone. -/
structure Blocks (C : Code ι σ τ χ ω ε) (mem : σ → α → β) (block : ω → Option α) : Prop where
  of_ne : ∀ {s w a}, block w ≠ some a → mem (C.commit s w) a = mem s a
  congr : ∀ {s s' a} w, mem s a = mem s' a → mem (C.commit s w) a = mem (C.commit s' w) a

/-- In `z` every thread's stores to its own block have arrived, and apart from them the blocks are
as in memory. -/
structure Hidden (C : Code ι σ τ χ ω ε) (mem : σ → α → β) (held : τ → Option α)
    (m : Config ι σ (Thread τ ω)) (z : σ) : Prop where
  own : ∀ i a, held (m.thread i).pc = some a →
    mem (C.view m.shared (m.thread i).buffer) a = mem z a
  rest : ∀ a, (∀ i, held (m.thread i).pc ≠ some a) → mem m.shared a = mem z a

variable {C : Code ι σ τ χ ω ε} {mem : σ → α → β} {block : ω → Option α} {held : τ → Option α}
  {m : Config ι σ (Thread τ ω)} {s s' z z' : σ} {i : ι} {p : τ} {b : List ω} {w : ω} {a : α}

theorem Blocks.view_congr (hB : Blocks C mem block) (b : List ω) (h : mem s a = mem s' a) :
    mem (C.view s b) a = mem (C.view s' b) a := by
  induction b generalizing s s' with
  | nil => exact h
  | cons w b ih => exact ih (hB.congr w h)

theorem Blocks.view_of_ne (hB : Blocks C mem block) (h : ∀ w ∈ b, block w ≠ some a) :
    mem (C.view s b) a = mem s a := by
  induction b generalizing s with
  | nil => rfl
  | cons w b ih =>
    rw [List.forall_mem_cons] at h
    exact (ih h.2).trans (hB.of_ne h.1)

theorem Hidden.rest_except (h : Hidden C mem held m z) (hi : held (m.thread i).pc ≠ some a)
    (hj : ∀ j, j ≠ i → held (m.thread j).pc ≠ some a) : mem m.shared a = mem z a := by
  refine h.rest a fun j => ?_
  by_cases hji : j = i
  · exact hji ▸ hi
  · exact hj j hji

/-- The same for a thread that has no block, or no stores on their way to it. -/
theorem Hidden.rest_drained (h : Hidden C mem held m z)
    (hi : held (m.thread i).pc = none ∨ (m.thread i).buffer = [])
    (hj : ∀ j, j ≠ i → held (m.thread j).pc ≠ some a) : mem m.shared a = mem z a := by
  by_cases ha : held (m.thread i).pc = some a
  · rcases hi with hi | hi
    · rw [hi] at ha
      cases ha
    · have hv := h.own i a ha
      rwa [hi] at hv
  · exact h.rest_except ha hj

/-- When no store is on its way, the blocks are the same. -/
theorem Hidden.of_drained (h : Hidden C mem held m z) (hb : ∀ i, (m.thread i).buffer = []) (a : α) :
    mem m.shared a = mem z a := by
  by_cases ha : ∃ i, held (m.thread i).pc = some a
  · obtain ⟨i, hi⟩ := ha
    have hv := h.own i a hi
    rwa [hb i] at hv
  · exact h.rest a (not_exists.mp ha)

variable [DecidableEq ι]

/-- A step of thread `i` that changes no other thread's block. -/
theorem Hidden.after (hB : Blocks C mem block) (h : Hidden C mem held m z)
    (hown : ∀ a, held p = some a → mem (C.view s b) a = mem z' a)
    (hrest : ∀ a, held p ≠ some a → (∀ j, j ≠ i → held (m.thread j).pc ≠ some a) →
      mem s a = mem z' a)
    (hothers : ∀ j, j ≠ i → ∀ a, held (m.thread j).pc = some a →
      mem s a = mem m.shared a ∧ mem z' a = mem z a) :
    Hidden C mem held (m.after i s ⟨p, b⟩) z' where
  own j a ha := by
    by_cases hj : j = i
    · subst hj
      simp only [Config.after_thread_self] at ha ⊢
      exact hown a ha
    · simp only [Config.after_thread_of_ne _ _ _ hj] at ha ⊢
      obtain ⟨hs, hz⟩ := hothers j hj a ha
      exact (hB.view_congr _ hs).trans ((h.own j a ha).trans hz.symm)
  rest a ha := by
    refine hrest a ?_ fun j hj => ?_
    · simpa using ha i
    · simpa [Config.after_thread_of_ne, hj] using ha j

/-- The thread goes on with the same block, no block changes, and what the thread has in its buffer
leaves its own block as it was. -/
theorem Hidden.keep (hB : Blocks C mem block) (h : Hidden C mem held m z)
    (hs : ∀ a, mem s a = mem m.shared a) (hz : ∀ a, mem z' a = mem z a)
    (hp : held p = held (m.thread i).pc)
    (hb : ∀ a, held p = some a →
      mem (C.view m.shared b) a = mem (C.view m.shared (m.thread i).buffer) a) :
    Hidden C mem held (m.after i s ⟨p, b⟩) z' := by
  refine h.after hB (fun a ha => ?_) (fun a ha hj => ?_) fun j _ a _ => ⟨hs a, hz a⟩
  · calc mem (C.view s b) a = mem (C.view m.shared b) a := hB.view_congr b (hs a)
      _ = mem (C.view m.shared (m.thread i).buffer) a := hb a ha
      _ = mem z a := h.own i a (hp ▸ ha)
      _ = mem z' a := (hz a).symm
  · exact (hs a).trans ((h.rest_except (hp ▸ ha) hj).trans (hz a).symm)

/-- **A store to the thread's own block is issued**: in `z` it arrives at once. -/
theorem Hidden.issue (hB : Blocks C mem block) (h : Hidden C mem held m z)
    (hi : held (m.thread i).pc = some a) (hp : held p = some a) (hw : block w = some a)
    (hne : ∀ j, j ≠ i → held (m.thread j).pc ≠ some a) :
    Hidden C mem held (m.after i m.shared ⟨p, (m.thread i).buffer ++ [w]⟩) (C.commit z w) := by
  have hout : ∀ d, d ≠ a → mem (C.commit z w) d = mem z d := fun d hd =>
    hB.of_ne fun e => hd (Option.some.inj (e.symm.trans hw))
  refine h.after hB (fun d hd => ?_) (fun d hd hj => ?_) fun j hj d hd => ⟨rfl, hout d ?_⟩
  · rw [C.view_concat]
    exact hB.congr w (h.own i d (hi.trans (hp.symm.trans hd)))
  · have hda : d ≠ a := fun e => hd (hp.trans (congrArg some e.symm))
    rw [hout d hda]
    exact h.rest_except (fun e => hda (Option.some.inj (e.symm.trans hi))) hj
  · rintro rfl
    exact hne j hj hd

/-- **A store to the thread's own block arrives**, or one to none: in `z` it has arrived before. -/
theorem Hidden.arrive (hB : Blocks C mem block) (h : Hidden C mem held m z)
    (hb : (m.thread i).buffer = w :: b)
    (hw : ∀ a, block w = some a → held (m.thread i).pc = some a)
    (hne : ∀ a, held (m.thread i).pc = some a → ∀ j, j ≠ i → held (m.thread j).pc ≠ some a) :
    Hidden C mem held (m.after i (C.commit m.shared w) ⟨(m.thread i).pc, b⟩) z := by
  refine h.after hB (fun d hd => ?_) (fun d hd hj => ?_) fun j hj d hd => ⟨?_, rfl⟩
  · have hv := h.own i d hd
    rwa [hb] at hv
  · exact (hB.of_ne fun e => hd (hw d e)).trans (h.rest_except hd hj)
  · exact hB.of_ne fun e => hne d (hw d e) j hj hd

/-- The thread takes a block that nobody has. -/
theorem Hidden.take (hB : Blocks C mem block) (h : Hidden C mem held m z)
    (hi : held (m.thread i).pc = none) (hp : held p = some a)
    (hs : ∀ d, d ≠ a → mem s d = mem m.shared d) (hz : ∀ d, d ≠ a → mem z' d = mem z d)
    (hv : mem (C.view s b) a = mem z' a) (hne : ∀ j, j ≠ i → held (m.thread j).pc ≠ some a) :
    Hidden C mem held (m.after i s ⟨p, b⟩) z' := by
  refine h.after hB (fun d hd => ?_) (fun d hd hj => ?_) fun j hj d hd => ?_
  · cases Option.some.inj (hp.symm.trans hd)
    exact hv
  · have hda : d ≠ a := fun e => hd (hp.trans (congrArg some e.symm))
    rw [hs d hda, hz d hda]
    exact h.rest_except (by simp [hi]) hj
  · have hda : d ≠ a := by
      rintro rfl
      exact hne j hj hd
    exact ⟨hs d hda, hz d hda⟩

/-- A thread with an empty buffer gives up its block, if it has one, and no block changes. -/
theorem Hidden.drop (hB : Blocks C mem block) (h : Hidden C mem held m z)
    (hb : (m.thread i).buffer = []) (hp : held p = none)
    (hs : ∀ a, mem s a = mem m.shared a) (hz : ∀ a, mem z' a = mem z a) :
    Hidden C mem held (m.after i s ⟨p, b⟩) z' := by
  refine h.after hB (fun d hd => ?_) (fun d _ hj => ?_) fun _ _ d _ => ⟨hs d, hz d⟩
  · rw [hp] at hd
    cases hd
  · rw [hs d, hz d]
    exact h.rest_drained (.inr hb) hj

/-- The same is written to a block that nobody has, in memory and in `z`, by a thread that has no
block afterwards. -/
theorem Hidden.write (hB : Blocks C mem block) (h : Hidden C mem held m z)
    (hi : held (m.thread i).pc = none ∨ (m.thread i).buffer = []) (hp : held p = none)
    (hne : ∀ j, j ≠ i → held (m.thread j).pc ≠ some a)
    (hs : ∀ d, d ≠ a → mem s d = mem m.shared d) (hz : ∀ d, d ≠ a → mem z' d = mem z d)
    (ha : mem m.shared a = mem z a → mem s a = mem z' a) :
    Hidden C mem held (m.after i s ⟨p, b⟩) z' := by
  refine h.after hB (fun d hd => ?_) (fun d _ hj => ?_) fun j hj d hd => ?_
  · rw [hp] at hd
    cases hd
  · have hd := h.rest_drained hi hj
    by_cases hda : d = a
    · subst hda
      exact ha hd
    · rw [hs d hda, hz d hda]
      exact hd
  · have hda : d ≠ a := by
      rintro rfl
      exact hne j hj hd
    exact ⟨hs d hda, hz d hda⟩

end Hidden

/-! ### Programs that show the same -/

section Observed

variable {ι σ τ χ ε σ' τ' χ' : Type*} [DecidableEq ε]

/-- A trace without the events `quiet`. -/
def observed (quiet : ε) (tr : List (ι × ε)) : List (ι × ε) := tr.filter fun p => p.2 ≠ quiet

theorem observed_concat (quiet : ε) (tr : List (ι × ε)) (i : ι) (e : ε) :
    observed quiet (tr ++ [(i, e)]) = observed quiet tr ++ observed quiet [(i, e)] :=
  List.filter_append _ _

theorem observed_quiet (quiet : ε) (tr : List (ι × ε)) (i : ι) :
    observed quiet (tr ++ [(i, quiet)]) = observed quiet tr := by
  simp [observed]

theorem mem_observed {quiet e : ε} {tr : List (ι × ε)} {i : ι} (he : e ≠ quiet) :
    (i, e) ∈ observed quiet tr ↔ (i, e) ∈ tr := by
  simp [observed, he]

variable [DecidableEq ι]

/-- A step of thread `i` that shows `e`, or no step when `e` is quiet. -/
inductive Follows (P : Program ι σ τ χ ε) (allow : Config ι σ τ → ι → χ → Prop) (quiet : ε)
    (c : Config ι σ τ) (i : ι) : ε → Config ι σ τ → Prop
  | stay : Follows P allow quiet c i quiet c
  | move {x : χ} {s : σ} {l : τ} {e : ε} : allow c i x →
      P.step i c.shared (c.thread i) x = some (s, l, e) →
        Follows P allow quiet c i e (c.after i s l)

/-- **What follows a program step by step shows the same in every run.** -/
theorem exists_run_observed {P : Program ι σ τ χ ε} {P' : Program ι σ' τ' χ' ε} {quiet : ε}
    {start : Config ι σ τ → Prop} {start' : Config ι σ' τ' → Prop}
    {allow : List (ι × ε) → Config ι σ τ → ι → χ → Prop}
    {allow' : Config ι σ' τ' → ι → χ' → Prop} {R : Config ι σ τ → Config ι σ' τ' → Prop}
    (h0 : ∀ c, start c → ∃ c', start' c' ∧ R c c')
    (hs : ∀ tr c i x s l e tr' c', allow tr c i x →
      P.step i c.shared (c.thread i) x = some (s, l, e) →
        P'.Run start' (fun _ => allow') tr' c' → R c c' →
          ∃ c'', Follows P' allow' quiet c' i e c'' ∧ R (c.after i s l) c'')
    {tr : List (ι × ε)} {c : Config ι σ τ} (h : P.Run start allow tr c) :
    ∃ tr' c', P'.Run start' (fun _ => allow') tr' c' ∧
      observed quiet tr' = observed quiet tr ∧ R c c' := by
  refine Program.Run.simulate
    (R := fun tr c tr' c' => observed quiet tr' = observed quiet tr ∧ R c c') ?_ ?_ h
  · intro c hc
    obtain ⟨c', hc', hR⟩ := h0 c hc
    exact ⟨c', hc', rfl, hR⟩
  · intro tr c i x s l e tr' c' _ hx hst hr ⟨hobs, hR⟩
    obtain ⟨c'', hf, hR'⟩ := hs tr c i x s l e tr' c' hx hst hr hR
    cases hf with
    | stay =>
      refine ⟨tr', c', hr, ?_, hR'⟩
      rw [observed_quiet]
      exact hobs
    | move ha hst' =>
      refine ⟨_, _, .snoc hr ha hst', ?_, hR'⟩
      rw [observed_concat, observed_concat, hobs]

end Observed

end Tso

import Coremu.Atomic
import Coremu.Lib.Interleave

/-!
# Installing a block once

`coremu_atomic_mallocz` of `main/malloc-helper.c` allocates a cleared block and stores its
address in `*pp` with a compare-exchange against `NULL`.  A caller that comes too late
releases its block again.

Every call is a thread of its own, which makes its accesses in any order with the others:
`malloc`, `memset`, `atomic_compare_exchangeq` and `free`.  `malloc` succeeds; it returns
any address but `NULL` that is not in use, also one that was released before, with any
content.

## Main definitions

* `Pc`, `program` — the program points of a call and its steps.
* `allocated`, `freed`, `stored` — what a call has allocated and released, and which calls
  have stored their block, read off a trace.
* `Inv` — every call owns its block, and who has stored owns `*pp`.

## Main results

* `inv_step` — a step keeps the invariant.
* `atomicMallocz_once` — **at most one call stores its block, `*pp` never changes again,
  and when all calls have returned one of them has returned 1 and left its cleared block
  in `*pp`, while every other one has released its own block and returned 0.**
-/

namespace Coremu.Malloc

/-- `*pp` and the heap. -/
structure Shared where
  /-- `*pp` -/
  pp : Addr
  /-- The content of every block in use. -/
  heap : Addr → Option (List (BitVec 8))

/-- Program points of `coremu_atomic_mallocz`. -/
inductive Pc
  /-- Not called yet. -/
  | idle
  /-- `malloc(size)` in `coremu_malloc` -/
  | malloc (size : BitVec 64)
  /-- `memset(p, 0, size);` -/
  | memset (size : BitVec 64) (p : Addr)
  /-- `res = atomic_compare_exchangeq((uint64_t *)pp, (uint64_t)0, (uint64_t)p);` -/
  | compareExchange (size : BitVec 64) (p : Addr)
  /-- `coremu_free(p);` -/
  | free (size : BitVec 64) (p res : Addr)
  /-- `return res == 0;` -/
  | ret (size : BitVec 64) (p res : Addr)
  /-- The call has returned `r`. -/
  | returned (size : BitVec 64) (p : Addr) (r : ℤ)
  deriving Repr

/-- What the code leaves open at a step. -/
inductive Choice
  /-- The call is made, with this size. -/
  | call (size : BitVec 64)
  /-- `malloc` returns this address, and the block has this content. -/
  | alloc (a : Addr) (bytes : List (BitVec 8))
  /-- Nothing. -/
  | go
  deriving Repr

/-- What a step shows. -/
inductive Event
  /-- A block is allocated. -/
  | alloc (a : Addr)
  /-- The compare-exchange has written `*pp`. -/
  | store
  /-- A block is released. -/
  | free (a : Addr)
  /-- Any other access. -/
  | tau
  deriving Repr

/-- A block after `memset(p, 0, size)`. -/
def memset (size : BitVec 64) (bytes : List (BitVec 8)) : List (BitVec 8) :=
  List.replicate size.toNat 0 ++ bytes.drop size.toNat

/-- A cleared block. -/
def zeros (size : BitVec 64) : List (BitVec 8) := List.replicate size.toNat 0

/-- One access of `coremu_atomic_mallocz`. -/
def step (s : Shared) : Pc → Choice → Option (Shared × Pc × Event)
  | .idle, .call size => some (s, .malloc size, .tau)
  | .malloc size, .alloc a bytes =>
      if (a ≠ NULL ∧ s.heap a = none) ∧ bytes.length = size.toNat then
        some ({ s with heap := Function.update s.heap a (some bytes) }, .memset size a, .alloc a)
      else none
  | .memset size p, .go =>
      some ({ s with heap := Function.update s.heap p ((s.heap p).map (memset size)) },
        .compareExchange size p, .tau)
  | .compareExchange size p, .go =>
      some ({ s with pp := (compareExchange s.pp NULL p).1 },
        if s.pp ≠ NULL then .free size p s.pp else .ret size p s.pp,
        if (compareExchange s.pp NULL p).2 then .store else .tau)
  | .free size p res, .go =>
      some ({ s with heap := Function.update s.heap p none }, .ret size p res, .free p)
  | .ret size p res, .go => some (s, .returned size p (if res = 0 then 1 else 0), .tau)
  | _, _ => none

/-- The calls, numbered without bound. -/
def program : Interleave.Program ℕ Shared Pc Choice Event where
  step _ s p x := step s p x

/-- The state of the heap and of all calls. -/
abbrev Config := Interleave.Config ℕ Shared Pc

/-- `*pp` is `NULL` and no call has been made; other blocks may be in use. -/
def Unset (cfg : Config) : Prop := cfg.shared.pp = NULL ∧ ∀ i, cfg.thread i = .idle

/-- The runs from such a state. -/
abbrev Run := program.Run Unset fun _ _ _ _ => True

/-- What may happen from `cfg` on. -/
abbrev RunFrom (cfg : Config) := program.Run (· = cfg) fun _ _ _ _ => True

/-! ### What a trace says about a call -/

/-- The block that the event allocates. -/
def Event.allocated : Event → List Addr
  | .alloc a => [a]
  | _ => []

/-- The block that the event releases. -/
def Event.freed : Event → List Addr
  | .free a => [a]
  | _ => []

/-- The event is a store to `*pp`. -/
def Event.stores : Event → Bool
  | .store => true
  | _ => false

/-- The blocks that call `i` has allocated. -/
def allocated (i : ℕ) (tr : List (ℕ × Event)) : List Addr :=
  tr.flatMap fun p => if p.1 = i then p.2.allocated else []

/-- The blocks that call `i` has released. -/
def freed (i : ℕ) (tr : List (ℕ × Event)) : List Addr :=
  tr.flatMap fun p => if p.1 = i then p.2.freed else []

/-- The calls that have stored their block in `*pp`. -/
def stored (tr : List (ℕ × Event)) : List ℕ :=
  tr.flatMap fun p => if p.2.stores then [p.1] else []

section Trace

variable {i j : ℕ} {tr : List (ℕ × Event)} {e : Event}

theorem allocated_concat : allocated i (tr ++ [(i, e)]) = allocated i tr ++ e.allocated := by
  simp [allocated]

theorem freed_concat : freed i (tr ++ [(i, e)]) = freed i tr ++ e.freed := by
  simp [freed]

theorem allocated_concat_of_ne (h : i ≠ j) : allocated j (tr ++ [(i, e)]) = allocated j tr := by
  simp [allocated, h]

theorem freed_concat_of_ne (h : i ≠ j) : freed j (tr ++ [(i, e)]) = freed j tr := by
  simp [freed, h]

theorem stored_concat : stored (tr ++ [(i, e)]) = stored tr ++ if e.stores then [i] else [] := by
  simp [stored]

end Trace

/-! ### The invariant -/

variable {s s' : Shared} {i j w : ℕ} {size : BitVec 64} {p q : Addr} {pc pc' : Pc} {x : Choice}
variable {e : Event} {cfg cfg' : Config} {tr tr' : List (ℕ × Event)}

/-- The call owns the block `p`: it has neither released it nor returned 0. -/
def Pc.Owns (p : Addr) : Pc → Prop
  | .idle | .malloc _ => False
  | .memset _ q | .compareExchange _ q | .free _ q _ => q = p
  | .ret _ q res => q = p ∧ res = NULL
  | .returned _ q r => q = p ∧ r = 1

/-- The call has stored its block. -/
def Pc.Won : Pc → Prop
  | .ret _ _ res => res = NULL
  | .returned _ _ r => r = 1
  | _ => False

/-- The call has stored its block: it is cleared, and in `*pp`. -/
structure Installed (s : Shared) (al fr : List Addr) (size : BitVec 64) (p : Addr) : Prop where
  allocated : al = [p]
  freed : fr = []
  pp : s.pp = p
  ne_null : p ≠ NULL
  heap : s.heap p = some (zeros size)

/-- The call came too late, and has released its block. -/
structure Released (s : Shared) (al fr : List Addr) (p : Addr) : Prop where
  allocated : al = [p]
  freed : fr = [p]
  pp : s.pp ≠ NULL

/-- What holds of a call that has allocated `al` and released `fr`. -/
def CallInv (s : Shared) (al fr : List Addr) : Pc → Prop
  | .idle | .malloc _ => al = [] ∧ fr = []
  | .memset size p =>
      (al = [p] ∧ fr = []) ∧ p ≠ NULL ∧ ∃ b, s.heap p = some b ∧ b.length = size.toNat
  | .compareExchange size p => (al = [p] ∧ fr = []) ∧ p ≠ NULL ∧ s.heap p = some (zeros size)
  | .free size p res => (al = [p] ∧ fr = []) ∧ (res ≠ NULL ∧ s.pp ≠ NULL) ∧
      s.heap p = some (zeros size)
  | .ret size p res => (res = NULL ∧ Installed s al fr size p) ∨ (res ≠ NULL ∧ Released s al fr p)
  | .returned size p r => (r = 1 ∧ Installed s al fr size p) ∨ (r = 0 ∧ Released s al fr p)

/-- What holds in every reachable state. -/
structure Inv (tr : List (ℕ × Event)) (cfg : Config) : Prop where
  call : ∀ i, CallInv cfg.shared (allocated i tr) (freed i tr) (cfg.thread i)
  /-- No two calls own the same block. -/
  apart : ∀ i j p, (cfg.thread i).Owns p → (cfg.thread j).Owns p → i = j
  /-- Nobody has stored, or one call has. -/
  stored : (cfg.shared.pp = NULL ∧ stored tr = []) ∨ ∃ w, (cfg.thread w).Won ∧ stored tr = [w]

/-- A block that a call owns is in use. -/
theorem CallInv.heap_ne_none {al fr : List Addr} (h : CallInv s al fr pc) (ho : pc.Owns p) :
    s.heap p ≠ none := by
  cases pc with
  | idle | malloc _ => cases ho
  | memset size q =>
    cases ho
    obtain ⟨-, -, b, hb, -⟩ := h
    rw [hb]
    nofun
  | compareExchange size q =>
    cases ho
    rw [h.2.2]
    nofun
  | free size q res =>
    cases ho
    rw [h.2.2]
    nofun
  | ret size q res =>
    obtain ⟨rfl, hres⟩ := ho
    rcases h with ⟨-, h⟩ | ⟨hne, -⟩
    · rw [h.heap]
      nofun
    · exact absurd hres hne
  | returned size q r =>
    obtain ⟨rfl, rfl⟩ := ho
    rcases h with ⟨-, h⟩ | ⟨hz, -⟩
    · rw [h.heap]
      nofun
    · cases hz

/-- Who has stored owns what is in `*pp`. -/
theorem CallInv.won {al fr : List Addr} (h : CallInv s al fr pc) (hw : pc.Won) :
    s.pp ≠ NULL ∧ pc.Owns s.pp := by
  cases pc with
  | ret size q res =>
    rcases h with ⟨hres, h⟩ | ⟨hne, -⟩
    · exact ⟨h.pp ▸ h.ne_null, h.pp.symm, hres⟩
    · exact absurd hw hne
  | returned size q r =>
    rcases h with ⟨hr, h⟩ | ⟨rfl, -⟩
    · exact ⟨h.pp ▸ h.ne_null, h.pp.symm, hr⟩
    · cases hw
  | _ => cases hw

/-- A step that leaves the call's block alone and does not change a `*pp` that is set. -/
theorem CallInv.frame {al fr : List Addr} (h : CallInv s al fr pc)
    (hheap : ∀ p, pc.Owns p → s'.heap p = s.heap p) (hpp : s.pp ≠ NULL → s'.pp = s.pp) :
    CallInv s' al fr pc := by
  have hinst : ∀ {size p}, Installed s al fr size p → s'.heap p = s.heap p →
      Installed s' al fr size p := fun h hp =>
    ⟨h.allocated, h.freed, (hpp (h.pp ▸ h.ne_null)).trans h.pp, h.ne_null, hp.trans h.heap⟩
  have hrel : ∀ {p}, Released s al fr p → Released s' al fr p := fun h =>
    ⟨h.allocated, h.freed, hpp h.pp ▸ h.pp⟩
  cases pc with
  | idle | malloc _ => exact h
  | memset size p =>
    obtain ⟨hlists, hne, b, hb, hlen⟩ := h
    exact ⟨hlists, hne, b, (hheap p rfl).trans hb, hlen⟩
  | compareExchange size p => exact ⟨h.1, h.2.1, (hheap p rfl).trans h.2.2⟩
  | free size p res =>
    obtain ⟨hlists, ⟨hres, hset⟩, hb⟩ := h
    exact ⟨hlists, ⟨hres, hpp hset ▸ hset⟩, (hheap p rfl).trans hb⟩
  | ret size p res =>
    rcases h with ⟨hres, h⟩ | ⟨hne, h⟩
    · exact .inl ⟨hres, hinst h (hheap p ⟨rfl, hres⟩)⟩
    · exact .inr ⟨hne, hrel h⟩
  | returned size p r =>
    rcases h with ⟨hr, h⟩ | ⟨hr, h⟩
    · exact .inl ⟨hr, hinst h (hheap p ⟨rfl, hr⟩)⟩
    · exact .inr ⟨hr, hrel h⟩

/-! ### A step -/

/-- The steps of a call. -/
inductive Step (s : Shared) : Pc → Choice → Shared → Pc → Event → Prop
  | call (size : BitVec 64) : Step s .idle (.call size) s (.malloc size) .tau
  | malloc (size : BitVec 64) (a : Addr) (bytes : List (BitVec 8)) : a ≠ NULL →
      s.heap a = none → bytes.length = size.toNat →
      Step s (.malloc size) (.alloc a bytes)
        { s with heap := Function.update s.heap a (some bytes) } (.memset size a) (.alloc a)
  | memset (size : BitVec 64) (p : Addr) :
      Step s (.memset size p) .go
        { s with heap := Function.update s.heap p ((s.heap p).map (memset size)) }
        (.compareExchange size p) .tau
  | install (size : BitVec 64) (p : Addr) : s.pp = NULL →
      Step s (.compareExchange size p) .go { s with pp := p } (.ret size p NULL) .store
  | late (size : BitVec 64) (p : Addr) : s.pp ≠ NULL →
      Step s (.compareExchange size p) .go s (.free size p s.pp) .tau
  | free (size : BitVec 64) (p res : Addr) :
      Step s (.free size p res) .go { s with heap := Function.update s.heap p none }
        (.ret size p res) (.free p)
  | ret (size : BitVec 64) (p res : Addr) :
      Step s (.ret size p res) .go s (.returned size p (if res = 0 then 1 else 0)) .tau

/-- **What a step can do.** -/
theorem step_cases (hs : step s pc x = some (s', pc', e)) : Step s pc x s' pc' e := by
  unfold step at hs
  split at hs
  · cases hs
    exact .call _
  · next size a bytes =>
    obtain ⟨⟨⟨hne, hfree⟩, hlen⟩, hs⟩ := Option.ite_none_right_eq_some.mp hs
    cases hs
    exact .malloc size a bytes hne hfree hlen
  · cases hs
    exact .memset _ _
  · next size p =>
    by_cases hpp : s.pp = NULL
    · simp only [compareExchange, ne_eq, hpp, not_true, if_false, if_true,
        Option.some.injEq, Prod.mk.injEq] at hs
      obtain ⟨rfl, rfl, rfl⟩ := hs
      exact .install size p hpp
    · simp only [compareExchange, ne_eq, hpp, not_false_eq_true, if_true,
        Bool.false_eq_true, if_false, Option.some.injEq, Prod.mk.injEq] at hs
      obtain ⟨rfl, rfl, rfl⟩ := hs
      exact .late size p hpp
  · cases hs
    exact .free _ _ _
  · cases hs
    exact .ret _ _ _
  · cases hs

/-- A `*pp` that is set stays as it is. -/
theorem Step.pp (hs : Step s pc x s' pc' e) (h : s.pp ≠ NULL) : s'.pp = s.pp := by
  cases hs with
  | install size p hpp => exact absurd hpp h
  | _ => rfl

/-- A step changes only the block that the call owns, or a block that nobody uses. -/
theorem Step.heap (hs : Step s pc x s' pc' e) (p : Addr) :
    s'.heap p = s.heap p ∨ pc.Owns p ∨ s.heap p = none := by
  have hup : ∀ {q b}, p ≠ q → Function.update s.heap q b p = s.heap p :=
    fun h => Function.update_of_ne h _ _
  cases hs with
  | malloc size a bytes hne hfree hlen =>
    by_cases hp : p = a
    · exact .inr (.inr (hp ▸ hfree))
    · exact .inl (hup hp)
  | memset size q =>
    by_cases hp : p = q
    · exact .inr (.inl hp.symm)
    · exact .inl (hup hp)
  | free size q res =>
    by_cases hp : p = q
    · exact .inr (.inl hp.symm)
    · exact .inl (hup hp)
  | _ => exact .inl rfl

/-- A call owns after a step what it owned before, or what it has just allocated. -/
theorem Step.owns (hs : Step s pc x s' pc' e) (hp : pc'.Owns p) : pc.Owns p ∨ s.heap p = none := by
  cases hs with
  | call size => cases hp
  | malloc size a bytes hne hfree hlen =>
    cases hp
    exact .inr hfree
  | memset size q => exact .inl hp
  | install size q hpp => exact .inl hp.1
  | late size q hpp => exact .inl hp
  | free size q res => exact .inl hp.1
  | ret size q res =>
    obtain ⟨rfl, hr⟩ := hp
    refine .inl ⟨rfl, ?_⟩
    by_contra hne
    rw [if_neg hne] at hr
    cases hr

/-- A step of a call keeps what holds of it. -/
theorem Step.callInv {al fr : List Addr} (hs : Step s pc x s' pc' e) (h : CallInv s al fr pc) :
    CallInv s' (al ++ e.allocated) (fr ++ e.freed) pc' := by
  cases hs with
  | call size => simpa [CallInv, Event.allocated, Event.freed] using h
  | malloc size a bytes hne hfree hlen =>
    obtain ⟨rfl, rfl⟩ := h
    exact ⟨⟨rfl, rfl⟩, hne, bytes, Function.update_self _ _ _, hlen⟩
  | memset size p =>
    obtain ⟨⟨rfl, rfl⟩, hne, b, hb, hlen⟩ := h
    refine ⟨⟨rfl, rfl⟩, hne, (Function.update_self _ _ _).trans ?_⟩
    rw [hb, Option.map_some, Malloc.memset, ← hlen, List.drop_length, List.append_nil, zeros, hlen]
  | install size p hpp =>
    obtain ⟨⟨rfl, rfl⟩, hne, hb⟩ := h
    exact .inl ⟨rfl, rfl, rfl, rfl, hne, hb⟩
  | late size p hpp =>
    obtain ⟨⟨rfl, rfl⟩, -, hb⟩ := h
    exact ⟨⟨rfl, rfl⟩, ⟨hpp, hpp⟩, hb⟩
  | free size p res =>
    obtain ⟨⟨rfl, rfl⟩, ⟨hres, hset⟩, -⟩ := h
    exact .inr ⟨hres, rfl, rfl, hset⟩
  | ret size p res =>
    simp only [Event.allocated, Event.freed, List.append_nil]
    rcases h with ⟨hres, h⟩ | ⟨hne, h⟩
    · exact .inl ⟨if_pos hres, h⟩
    · exact .inr ⟨if_neg hne, h⟩

/-- Who has stored has done so for good, and whoever stores now finds `*pp` not set. -/
theorem Step.won (hs : Step s pc x s' pc' e) : (e.stores = true ∧ s.pp = NULL ∧ pc'.Won) ∨
    (e.stores = false ∧ s'.pp = s.pp ∧ (pc.Won → pc'.Won)) := by
  cases hs with
  | install size p hpp => exact .inl ⟨rfl, hpp, rfl⟩
  | ret size p res => exact .inr ⟨rfl, rfl, fun hw => if_pos hw⟩
  | _ => exact .inr ⟨rfl, rfl, fun hw => by cases hw⟩

theorem inv_unset (h : Unset cfg) : Inv [] cfg := by
  refine ⟨fun i => ?_, fun i j p hi => ?_, .inl ⟨h.1, rfl⟩⟩
  · rw [h.2 i]
    exact ⟨rfl, rfl⟩
  · rw [h.2 i] at hi
    cases hi

/-- **A step keeps the invariant.** -/
theorem inv_step (h : Inv tr cfg) (hs : Step cfg.shared (cfg.thread i) x s' pc' e) :
    Inv (tr ++ [(i, e)]) (cfg.after i s' pc') := by
  -- a block that call `i` takes or changes belongs to no other call
  have hother : ∀ j, j ≠ i → ∀ p, (cfg.thread j).Owns p →
      ¬ ((cfg.thread i).Owns p ∨ cfg.shared.heap p = none) := by
    rintro j hj p hp (ho | hnone)
    · exact hj (h.apart j i p hp ho)
    · exact (h.call j).heap_ne_none hp hnone
  refine ⟨fun j => ?_, fun j k p => ?_, ?_⟩
  · by_cases hj : j = i
    · subst hj
      rw [Interleave.Config.after_thread_self, allocated_concat, freed_concat]
      exact hs.callInv (h.call j)
    · rw [Interleave.Config.after_thread_of_ne _ _ _ hj, allocated_concat_of_ne (Ne.symm hj),
        freed_concat_of_ne (Ne.symm hj)]
      exact (h.call j).frame (fun p hp => (hs.heap p).resolve_right (hother j hj p hp)) hs.pp
  · by_cases hj : j = i
    · by_cases hk : k = i
      · exact fun _ _ => hj.trans hk.symm
      · subst hj
        rw [Interleave.Config.after_thread_self, Interleave.Config.after_thread_of_ne _ _ _ hk]
        exact fun hp hp' => absurd (hs.owns hp) (hother k hk p hp')
    · by_cases hk : k = i
      · subst hk
        rw [Interleave.Config.after_thread_self, Interleave.Config.after_thread_of_ne _ _ _ hj]
        exact fun hp hp' => absurd (hs.owns hp') (hother j hj p hp)
      · rw [Interleave.Config.after_thread_of_ne _ _ _ hj,
          Interleave.Config.after_thread_of_ne _ _ _ hk]
        exact h.apart j k p
  · rw [stored_concat]
    rcases hs.won with ⟨hst, hnull, hw⟩ | ⟨hst, hpp, hwon⟩
    · -- nobody has stored before
      rcases h.stored with ⟨-, hnil⟩ | ⟨w, hw', -⟩
      · refine .inr ⟨i, ?_, by rw [hnil, hst]; rfl⟩
        rw [Interleave.Config.after_thread_self]
        exact hw
      · exact absurd hnull ((h.call w).won hw').1
    · rw [hst]
      simp only [Bool.false_eq_true, if_false, List.append_nil]
      rcases h.stored with ⟨hnull, hnil⟩ | ⟨w, hw, hw'⟩
      · exact .inl ⟨hpp.trans hnull, hnil⟩
      · refine .inr ⟨w, ?_, hw'⟩
        by_cases hwi : w = i
        · subst hwi
          rw [Interleave.Config.after_thread_self]
          exact hwon hw
        · rwa [Interleave.Config.after_thread_of_ne _ _ _ hwi]

theorem Run.inv (h : Run tr cfg) : Inv tr cfg := by
  refine Interleave.Program.Run.induct (J := Inv) (fun _ hc => inv_unset hc) ?_ h
  intro tr cfg i x s' pc' e ih _ hs
  exact inv_step ih (step_cases hs)

/-- From a state in which `*pp` is set it never changes. -/
theorem RunFrom.pp (hset : cfg.shared.pp ≠ NULL) (h : RunFrom cfg tr cfg') :
    cfg'.shared.pp = cfg.shared.pp := by
  refine Interleave.Program.Run.induct (J := fun _ cfg' => cfg'.shared.pp = cfg.shared.pp)
    ?_ ?_ h
  · rintro _ rfl
    rfl
  · intro tr c i x s' pc' e ih _ hs
    exact ((step_cases hs).pp (ih ▸ hset)).trans ih

/-! ### All calls -/

/-- What the call has returned, if it has. -/
def Pc.result : Pc → Option ℤ
  | .returned _ _ r => some r
  | _ => none

/-- The call has been made. -/
def Pc.called : Pc → Bool
  | .idle => false
  | _ => true

/-- A call that has returned: with 1, or with 0. -/
theorem CallInv.returned {al fr : List Addr} (h : CallInv s al fr pc) (hr : pc.result ≠ none) :
    (∃ size p, pc = .returned size p 1 ∧ Installed s al fr size p) ∨
      ∃ size p, pc = .returned size p 0 ∧ Released s al fr p := by
  cases pc with
  | returned size p r =>
    rcases h with ⟨rfl, h⟩ | ⟨rfl, h⟩
    · exact .inl ⟨size, p, rfl, h⟩
    · exact .inr ⟨size, p, rfl, h⟩
  | _ => exact absurd rfl hr

/-- **`coremu_atomic_mallocz` installs exactly once**: at most one call has stored its
block; a `*pp` that is set never changes again; and when all calls that were made have
returned, exactly one of them has returned 1, its block is in `*pp`, cleared and not
released, and every other one has returned 0 and has released its own block and no
other. -/
theorem atomicMallocz_once (h : Run tr cfg) :
    (stored tr).length ≤ 1 ∧
    (cfg.shared.pp ≠ NULL → ∀ tr' cfg', RunFrom cfg tr' cfg' →
      cfg'.shared.pp = cfg.shared.pp) ∧
    ((∀ i, (cfg.thread i).called = true → (cfg.thread i).result ≠ none) →
      (∃ i, (cfg.thread i).called = true) →
      ∃ w size, cfg.thread w = .returned size cfg.shared.pp 1 ∧
        allocated w tr = [cfg.shared.pp] ∧ freed w tr = [] ∧
        cfg.shared.heap cfg.shared.pp = some (zeros size) ∧
        ∀ i, i ≠ w → (cfg.thread i).called = true →
          ∃ size p, cfg.thread i = .returned size p 0 ∧ allocated i tr = [p] ∧
            freed i tr = [p]) := by
  have hinv := Run.inv h
  refine ⟨?_, fun hset tr' cfg' h' => RunFrom.pp hset h', fun hall ⟨i, hi⟩ => ?_⟩
  · rcases hinv.stored with ⟨-, hnil⟩ | ⟨w, -, hw⟩
    · rw [hnil]
      exact Nat.zero_le 1
    · rw [hw]
      exact le_rfl
  · -- `*pp` is set, since some call has returned
    have hset : cfg.shared.pp ≠ NULL := by
      rcases (hinv.call i).returned (hall i hi) with ⟨_, _, -, hi⟩ | ⟨_, _, -, hi⟩
      · exact hi.pp ▸ hi.ne_null
      · exact hi.pp
    obtain ⟨w, hw⟩ : ∃ w, (cfg.thread w).Won := by
      rcases hinv.stored with ⟨hnull, -⟩ | ⟨w, hw, -⟩
      · exact absurd hnull hset
      · exact ⟨w, hw⟩
    have hcalled : (cfg.thread w).called = true := by
      cases hpc : cfg.thread w with
      | idle => rw [hpc] at hw; cases hw
      | _ => rfl
    rcases (hinv.call w).returned (hall w hcalled) with ⟨size, p, hpc, hin⟩ | ⟨_, _, hpc, -⟩
    · refine ⟨w, size, hin.pp ▸ hpc, hin.pp ▸ hin.allocated, hin.freed, hin.pp ▸ hin.heap, ?_⟩
      intro j hj hcj
      rcases (hinv.call j).returned (hall j hcj) with ⟨_, q, hqc, hq⟩ | ⟨size, q, hqc, hq⟩
      · -- it would own `*pp` too
        refine absurd (hinv.apart j w cfg.shared.pp ?_ ((hinv.call w).won hw).2) hj
        rw [hqc]
        exact ⟨hq.pp.symm, rfl⟩
      · exact ⟨size, q, hqc, hq.allocated, hq.freed⟩
    · rw [hpc] at hw
      cases hw

/-- `*pp` is `NULL`, nothing is in use, and nobody has called. -/
def unset : Config := ⟨⟨NULL, fun _ => none⟩, fun _ => .idle⟩

/-- Calls 0 and 1 ask for 2 and 3 bytes.  Both have a cleared block before call 1 makes its
compare-exchange, and call 0 comes too late. -/
def racingSteps : List (ℕ × Choice) :=
  [(0, .call 2), (1, .call 3), (0, .alloc 16 [5, 6]), (1, .alloc 32 [7, 8, 9]), (0, .go), (1, .go),
    (1, .go), (0, .go), (0, .go), (0, .go), (1, .go)]

/-- Of two calls that race one has installed its block. -/
theorem atomicMallocz_once_race : ∃ tr cfg, Run tr cfg ∧ (stored tr).length ≤ 1 ∧
    ∃ w size, cfg.thread w = .returned size cfg.shared.pp 1 ∧
      cfg.shared.heap cfg.shared.pp = some (zeros size) := by
  obtain ⟨tr, cfg, hr, hcfg, ht⟩ : ∃ tr cfg, Run tr cfg ∧
      (∀ j, ¬ j < 2 → cfg.thread j = unset.thread j) ∧
        (((cfg.thread 0).result == some 0) && ((cfg.thread 1).result == some 1)) = true :=
    Interleave.Program.exists_run_of_exec_within (P := program) (c := unset) (· < 2)
      (fun _ _ _ _ => true) (fun _ _ _ _ _ _ => trivial) ⟨rfl, fun _ => rfl⟩ racingSteps (by decide)
      (fun _ cfg => ((cfg.thread 0).result == some 0) && ((cfg.thread 1).result == some 1))
      (by decide)
  obtain ⟨h0, h1⟩ := Bool.and_eq_true_iff.mp ht
  rw [beq_iff_eq] at h0 h1
  have hall : ∀ i, (cfg.thread i).called = true → (cfg.thread i).result ≠ none := by
    intro i hi
    by_cases hlt : i < 2
    · have hcases : i = 0 ∨ i = 1 := by omega
      rcases hcases with rfl | rfl
      · rw [h0]
        nofun
      · rw [h1]
        nofun
    · rw [hcfg i hlt] at hi
      cases hi
  have hsome : ∃ i, (cfg.thread i).called = true := by
    refine ⟨1, ?_⟩
    cases hpc : cfg.thread 1 with
    | idle => rw [hpc] at h1; cases h1
    | _ => rfl
  obtain ⟨hone, -, hfinal⟩ := atomicMallocz_once hr
  obtain ⟨w, size, hw, -, -, hheap, -⟩ := hfinal hall hsome
  exact ⟨tr, cfg, hr, hone, w, size, hw, hheap⟩

end Coremu.Malloc

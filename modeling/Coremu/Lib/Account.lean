import Mathlib.Data.Set.Card
import Mathlib.Logic.Function.Basic

/-!
# Who has a block

Threads take blocks from a heap, put them into a common list, take them out again and give
them back to the heap.  The account of such a structure says that every block in use is in the
list or in the hands of a thread, and in one of these places only.  So no block is lost, and
none is given back that somebody still has.

## Main definitions

* `Accounted` — every block in use is in one place.
* `Move` — what a step of one thread may do: it takes a block from the heap, puts it into the
  list, takes the first one out, or gives one back.

## Main results

* `Accounted.move` — **a move keeps the account.**
* `Accounted.card` — with empty hands, there are as many blocks in use as the list is long.
-/

namespace Heap

variable {α ι : Type*}

/-- Somebody has the block. -/
def Held (hand : ι → Option α) (a : α) : Prop := ∃ i, hand i = some a

/-- Nobody else has it. -/
def Single (hand : ι → Option α) : Prop := ∀ i j a, hand i = some a → hand j = some a → i = j

/-- The blocks in use are those of the list and those in the hands of a thread, and each is in
one of these places only. -/
structure Accounted (live : α → Bool) (nodes : List α) (hand : ι → Option α) : Prop where
  nodup : nodes.Nodup
  live : ∀ a, live a = true ↔ a ∈ nodes ∨ Held hand a
  unlinked : ∀ a, Held hand a → a ∉ nodes
  single : Single hand

/-- What a step of a thread does, with what it has in its hands before and after. -/
inductive Move [DecidableEq α] (live : α → Bool) (nodes : List α) :
    Option α → (α → Bool) → List α → Option α → Prop
  | stay (p : Option α) : Move live nodes p live nodes p
  /-- The thread takes a block from the heap. -/
  | take (a : α) : live a = false →
      Move live nodes none (Function.update live a true) nodes (some a)
  /-- It puts its block into the list. -/
  | link (a : α) : Move live nodes (some a) live (nodes ++ [a]) none
  /-- It takes the first block out of the list. -/
  | unlink (a : α) (rest : List α) : nodes = a :: rest → Move live nodes none live rest (some a)
  /-- It gives its block back. -/
  | free (a : α) : Move live nodes (some a) (Function.update live a false) nodes none

variable {live live' : α → Bool} {nodes nodes' : List α} {hand : ι → Option α} {i : ι} {a b : α}

/-! ### Hands -/

section Hands

variable [DecidableEq ι]

theorem held_give (hi : hand i = none) :
    Held (Function.update hand i (some a)) b ↔ b = a ∨ Held hand b := by
  constructor
  · rintro ⟨j, hj⟩
    by_cases hji : j = i
    · rw [hji, Function.update_self] at hj
      exact .inl (Option.some.inj hj).symm
    · rw [Function.update_of_ne hji] at hj
      exact .inr ⟨j, hj⟩
  · rintro (rfl | ⟨j, hj⟩)
    · exact ⟨i, Function.update_self _ _ _⟩
    · have hji : j ≠ i := by
        rintro rfl
        rw [hi] at hj
        cases hj
      exact ⟨j, (Function.update_of_ne hji _ _).trans hj⟩

theorem held_drop (h : Single hand) (hi : hand i = some a) :
    Held (Function.update hand i none) b ↔ b ≠ a ∧ Held hand b := by
  constructor
  · rintro ⟨j, hj⟩
    by_cases hji : j = i
    · rw [hji, Function.update_self] at hj
      cases hj
    · rw [Function.update_of_ne hji] at hj
      refine ⟨?_, j, hj⟩
      rintro rfl
      exact hji (h j i b hj hi)
  · rintro ⟨hba, j, hj⟩
    have hji : j ≠ i := by
      rintro rfl
      rw [hi] at hj
      exact hba (Option.some.inj hj).symm
    exact ⟨j, (Function.update_of_ne hji _ _).trans hj⟩

theorem Single.give (h : Single hand) (ha : ¬ Held hand a) :
    Single (Function.update hand i (some a)) := by
  intro j k b hj hk
  by_cases hji : j = i <;> by_cases hki : k = i
  · rw [hji, hki]
  · rw [hji, Function.update_self] at hj
    rw [Function.update_of_ne hki] at hk
    cases hj
    exact absurd ⟨k, hk⟩ ha
  · rw [Function.update_of_ne hji] at hj
    rw [hki, Function.update_self] at hk
    cases hk
    exact absurd ⟨j, hj⟩ ha
  · rw [Function.update_of_ne hji] at hj
    rw [Function.update_of_ne hki] at hk
    exact h j k b hj hk

theorem Single.drop (h : Single hand) : Single (Function.update hand i none) := by
  have hold : ∀ j b, Function.update hand i none j = some b → hand j = some b := by
    intro j b hj
    by_cases hji : j = i
    · rw [hji, Function.update_self] at hj
      cases hj
    · rwa [Function.update_of_ne hji] at hj
  intro j k b hj hk
  exact h j k b (hold j b hj) (hold k b hk)

end Hands

/-! ### Moves -/

/-- A new structure with one block in its list, and empty hands. -/
theorem accounted_new [DecidableEq α] (a : α) :
    Accounted (fun b => decide (b = a)) [a] fun _ : ι => none where
  nodup := List.nodup_singleton a
  live b := by simp [Held]
  unlinked := nofun
  single := nofun

variable [DecidableEq α] [DecidableEq ι] {p' : Option α}

/-- **A move keeps the account.** -/
theorem Accounted.move (h : Accounted live nodes hand)
    (hm : Move live nodes (hand i) live' nodes' p') :
    Accounted live' nodes' (Function.update hand i p') := by
  generalize hp : hand i = p at hm
  cases hm with
  | stay =>
    rw [← hp, Function.update_eq_self]
    exact h
  | take a ha =>
    have hnew : a ∉ nodes ∧ ¬ Held hand a := by
      rw [← not_or, ← h.live a, ha]
      exact Bool.false_ne_true
    refine ⟨h.nodup, fun b => ?_, fun b => ?_, h.single.give hnew.2⟩
    · rw [held_give hp, Function.update_apply]
      split
      · next hba => simp [hba]
      · next hba => simp [hba, h.live b]
    · rw [held_give hp]
      rintro (rfl | hb)
      · exact hnew.1
      · exact h.unlinked b hb
  | link a =>
    have ha : a ∉ nodes := h.unlinked a ⟨i, hp⟩
    refine ⟨List.nodup_append.mpr ⟨h.nodup, List.nodup_singleton a, ?_⟩, fun b => ?_, fun b => ?_,
      h.single.drop⟩
    · rintro b hb c hc rfl
      exact ha (List.mem_singleton.mp hc ▸ hb)
    · rw [held_drop h.single hp, h.live b, List.mem_append, List.mem_singleton]
      by_cases hba : b = a
      · have hheld : Held hand a := ⟨i, hp⟩
        simp [hba, hheld]
      · simp [hba]
    · rw [held_drop h.single hp, List.mem_append, List.mem_singleton]
      rintro ⟨hba, hb⟩ (hbn | hbn)
      · exact h.unlinked b hb hbn
      · exact hba hbn
  | unlink a rest hn =>
    subst hn
    obtain ⟨ha, hrest⟩ := List.nodup_cons.mp h.nodup
    have hhand : ¬ Held hand a := fun hh => h.unlinked a hh List.mem_cons_self
    refine ⟨hrest, fun b => ?_, fun b => ?_, h.single.give hhand⟩
    · rw [held_give hp, h.live b, List.mem_cons, or_assoc, or_left_comm]
    · rw [held_give hp]
      rintro (rfl | hb)
      · exact ha
      · exact fun hbn => h.unlinked b hb (List.mem_cons_of_mem a hbn)
  | free a =>
    have ha : a ∉ nodes := h.unlinked a ⟨i, hp⟩
    refine ⟨h.nodup, fun b => ?_, fun b => ?_, h.single.drop⟩
    · rw [held_drop h.single hp, Function.update_apply]
      split
      · next hba => simp [hba, ha]
      · next hba => simp [hba, h.live b]
    · rw [held_drop h.single hp]
      exact fun hb => h.unlinked b hb.2

omit [DecidableEq α] [DecidableEq ι] in
/-- With empty hands, there are as many blocks in use as the list is long. -/
theorem Accounted.card (h : Accounted live nodes hand) (hidle : ∀ i, hand i = none) :
    {a | live a = true}.ncard = nodes.length := by
  classical
  have hset : {a | live a = true} = (nodes.toFinset : Set α) := by
    ext a
    have hnone : ¬ Held hand a := by
      rintro ⟨i, hi⟩
      rw [hidle i] at hi
      cases hi
    simp [h.live a, hnone]
  rw [hset, Set.ncard_coe_finset, List.toFinset_card_of_nodup h.nodup]

end Heap

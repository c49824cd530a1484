import Coremu.LockQueue.Tail

/-!
# A queue on a heap that it shares

A queue accesses no block that is not its own: every node that it reads, writes or frees is
allocated, and was handed out to it.  So a step on a heap with other users is a step on a
heap of its own, and the others do not notice it.

## Main definitions

* `Within` — the queue has a part of the heap for itself.
* `Unnoticed` — a step changes nothing outside of this part.

## Main results

* `Within.step` — **a step on the whole heap is a step on the queue's own part.**
-/

namespace Coremu.LockQueue

/-- The queue `q` on a heap of its own is the queue `s` on a larger one. -/
structure Within (q s : Shared) : Prop where
  head : q.head = s.head
  tail : q.tail = s.tail
  count : q.count = s.count
  tLock : q.tLock = s.tLock
  live : ∀ a, q.live a = true → s.live a = true
  mem : ∀ a, q.live a = true → q.mem a = s.mem a

/-- From `s` to `s'` nothing changes for the other users of the heap, the blocks that are
new in `q'` were free, and all others had been in use. -/
structure Unnoticed (q s q' s' : Shared) : Prop where
  others : ∀ a, q.live a = false → s.live a = true → s'.live a = true ∧ s'.mem a = s.mem a
  fresh : ∀ a, q'.live a = true → q.live a = true ∨ s.live a = false
  kept : ∀ a, s'.live a = true → q'.live a = true ∨ q.live a = false ∧ s.live a = true

variable {q s s' : Shared} {p p' : Pc} {x : Choice} {e : Fifo.Event DataType} {a : Addr}

/-- A block in use belongs to the queue or to somebody else. -/
theorem own_or_other (ha : s.live a = true) :
    q.live a = true ∨ q.live a = false ∧ s.live a = true := by
  cases q.live a with
  | true => exact .inl rfl
  | false => exact .inr ⟨rfl, ha⟩

theorem Unnoticed.of_heap {q' : Shared} (hmem : s'.mem = s.mem) (hs : s'.live = s.live)
    (hq : q'.live = q.live) : Unnoticed q s q' s' where
  others a _ ha := by rw [hmem, hs]; exact ⟨ha, rfl⟩
  fresh a ha := .inl (by rw [← hq]; exact ha)
  kept a ha := by
    rw [hs] at ha
    rw [hq]
    exact own_or_other ha

/-- Writing a block of the queue. -/
theorem Within.write (h : Within q s) (a : Addr) (n : Node) :
    Within (q.write a n) (s.write a n) where
  head := h.head
  tail := h.tail
  count := h.count
  tLock := h.tLock
  live := h.live
  mem b hb := by
    by_cases hba : b = a
    · subst hba
      simp [Shared.write]
    · simp only [Shared.write, Function.update_of_ne hba]
      exact h.mem b hb

theorem Unnoticed.write (ha : q.live a = true) (n n' : Node) :
    Unnoticed q s (q.write a n') (s.write a n) where
  others b hb hlive := by
    have hba : b ≠ a := by
      rintro rfl
      rw [ha] at hb
      cases hb
    exact ⟨hlive, Function.update_of_ne hba _ _⟩
  fresh b hb := .inl hb
  kept b hb := own_or_other hb

/-- The same write, computed from what the block holds. -/
theorem Within.writeOwn (h : Within q s) (ha : q.live a = true) (f : Node → Node) :
    Within (q.write a (f (q.mem a))) (s.write a (f (s.mem a))) ∧
      Unnoticed q s (q.write a (f (q.mem a))) (s.write a (f (s.mem a))) := by
  rw [h.mem a ha]
  exact ⟨h.write a _, .write ha _ _⟩

theorem Within.alloc (h : Within q s) (ha : s.live a = false) :
    Within { q.write a ⟨NULL, 0⟩ with live := Function.update q.live a true }
      { s.write a ⟨NULL, 0⟩ with live := Function.update s.live a true } ∧
    Unnoticed q s { q.write a ⟨NULL, 0⟩ with live := Function.update q.live a true }
      { s.write a ⟨NULL, 0⟩ with live := Function.update s.live a true } := by
  refine ⟨⟨h.head, h.tail, h.count, h.tLock, fun b hb => ?_, fun b hb => ?_⟩,
    ⟨fun b _ hlive => ?_, fun b hb => ?_, fun b hb => ?_⟩⟩
  · by_cases hba : b = a
    · subst hba
      exact Function.update_self _ _ _
    · simp only [Function.update_of_ne hba] at hb ⊢
      exact h.live b hb
  · by_cases hba : b = a
    · subst hba
      simp [Shared.write]
    · simp only [Function.update_of_ne hba] at hb
      simp only [Shared.write, Function.update_of_ne hba]
      exact h.mem b hb
  · have hba : b ≠ a := by
      rintro rfl
      rw [ha] at hlive
      cases hlive
    simp only [Shared.write, Function.update_of_ne hba, and_true]
    exact hlive
  · by_cases hba : b = a
    · exact .inr (hba ▸ ha)
    · simp only [Function.update_of_ne hba] at hb
      exact .inl hb
  · by_cases hba : b = a
    · subst hba
      exact .inl (Function.update_self _ _ _)
    · simp only [Function.update_of_ne hba] at hb ⊢
      exact own_or_other hb

theorem Within.free (h : Within q s) (ha : q.live a = true) (n : Node) :
    Within { q.write a n with live := Function.update q.live a false }
      { s.write a n with live := Function.update s.live a false } ∧
    Unnoticed q s { q.write a n with live := Function.update q.live a false }
      { s.write a n with live := Function.update s.live a false } := by
  have hne : ∀ b, Function.update q.live a false b = true → b ≠ a ∧ q.live b = true := by
    intro b hb
    by_cases hba : b = a
    · subst hba
      rw [Function.update_self] at hb
      cases hb
    · rw [Function.update_of_ne hba] at hb
      exact ⟨hba, hb⟩
  refine ⟨⟨h.head, h.tail, h.count, h.tLock, fun b hb => ?_, fun b hb => ?_⟩,
    ⟨fun b hb hlive => ?_, fun b hb => .inl (hne b hb).2, fun b hb => ?_⟩⟩
  · obtain ⟨hba, hb⟩ := hne b hb
    simp only [Function.update_of_ne hba]
    exact h.live b hb
  · obtain ⟨hba, hb⟩ := hne b hb
    simp only [Shared.write, Function.update_of_ne hba]
    exact h.mem b hb
  · have hba : b ≠ a := by
      rintro rfl
      rw [ha] at hb
      cases hb
    simp only [Shared.write, Function.update_of_ne hba, and_true]
    exact hlive
  · by_cases hba : b = a
    · subst hba
      simp only [Function.update_self, Bool.false_eq_true] at hb
    · simp only [Function.update_of_ne hba] at hb ⊢
      exact own_or_other hb

/-- **A step on the whole heap is a step on the queue's own part**, and nobody else notices
it, if the node that is accessed belongs to the queue. -/
theorem Within.step (h : Within q s) (ht : ∀ a, p.touches q = some a → q.live a = true)
    (hs : step s p x = some (s', p', e)) :
    ∃ q', step q p x = some (q', p', e) ∧ Within q' s' ∧ Unnoticed q s q' s' := by
  cases step_cases hs with
  | callEnq v => exact ⟨q, rfl, h, .of_heap rfl rfl rfl⟩
  | callDeq => exact ⟨q, rfl, h, .of_heap rfl rfl rfl⟩
  | newNode v a hb hl =>
    have hq : q.live a = false := by
      cases hqa : q.live a with
      | false => rfl
      | true =>
        rw [h.live a hqa] at hl
        cases hl
    exact ⟨_, if_pos ⟨hb, hq⟩, h.alloc hl⟩
  | setValue v node => exact ⟨_, rfl, h.writeOwn (ht node rfl) fun n => { n with value := v }⟩
  | setNext v node => exact ⟨_, rfl, h.writeOwn (ht node rfl) fun n => { n with next := NULL }⟩
  | spinLock v node hl =>
    have hq : q.tLock = 0 := h.tLock.trans hl
    refine ⟨{ q with tLock := 1 }, ?_, ⟨h.head, h.tail, h.count, rfl, h.live, h.mem⟩,
      .of_heap rfl rfl rfl⟩
    simp [LockQueue.step, enqueue, testandset, compareExchange, hq]
  | spin v node hl =>
    have hq : q.tLock ≠ 0 := h.tLock ▸ hl
    refine ⟨q, ?_, h, .of_heap rfl rfl rfl⟩
    simp only [LockQueue.step, enqueue, testandset, compareExchange, hq, if_false]
  | readTail v node =>
    refine ⟨q, ?_, h, .of_heap rfl rfl rfl⟩
    rw [← h.tail]
    rfl
  | link v node tail => exact ⟨_, rfl, h.writeOwn (ht tail rfl) fun n => { n with next := node }⟩
  | setTail node =>
    exact ⟨{ q with tail := node }, rfl, ⟨h.head, rfl, h.count, h.tLock, h.live, h.mem⟩,
      .of_heap rfl rfl rfl⟩
  | incCount =>
    exact ⟨{ q with count := atomicIncq q.count }, rfl,
      ⟨h.head, h.tail, congrArg atomicIncq h.count, h.tLock, h.live, h.mem⟩, .of_heap rfl rfl rfl⟩
  | spinUnlock =>
    exact ⟨{ q with tLock := 0 }, rfl, ⟨h.head, h.tail, h.count, rfl, h.live, h.mem⟩,
      .of_heap rfl rfl rfl⟩
  | enqRet => exact ⟨q, rfl, h, .of_heap rfl rfl rfl⟩
  | readHead =>
    refine ⟨q, ?_, h, .of_heap rfl rfl rfl⟩
    rw [← h.head]
    rfl
  | empty node hn =>
    rw [← h.mem node (ht node rfl)] at hn
    exact ⟨q, by simp only [LockQueue.step, dequeue, hn, if_true], h, .of_heap rfl rfl rfl⟩
  | readNext node hn =>
    rw [← h.mem node (ht node rfl)] at hn ⊢
    exact ⟨q, by simp only [LockQueue.step, dequeue, hn, if_false], h, .of_heap rfl rfl rfl⟩
  | readValue node newHead =>
    rw [← h.mem newHead (ht newHead rfl)]
    exact ⟨q, rfl, h, .of_heap rfl rfl rfl⟩
  | setHead node newHead v =>
    exact ⟨{ q with head := newHead }, rfl, ⟨rfl, h.tail, h.count, h.tLock, h.live, h.mem⟩,
      .of_heap rfl rfl rfl⟩
  | free node v n => exact ⟨_, rfl, h.free (ht node rfl) n⟩
  | decCount v =>
    exact ⟨{ q with count := atomicDecq q.count }, rfl,
      ⟨h.head, h.tail, congrArg atomicDecq h.count, h.tLock, h.live, h.mem⟩, .of_heap rfl rfl rfl⟩
  | deqRet r => exact ⟨q, rfl, h, .of_heap rfl rfl rfl⟩

end Coremu.LockQueue

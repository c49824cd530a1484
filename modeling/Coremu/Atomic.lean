import Mathlib.Data.BitVec
import Mathlib.Data.Finset.Card
import Mathlib.Tactic.Common

/-!
# Words, addresses and atomic instructions

The machine the COREMU library runs on, as far as its queues see it: 64-bit
words and addresses, the locked instructions of `incl/coremu-atomic.h` and
`incl/atomic-template.h`, and the test-and-set of `incl/coremu-spinlock.h`.
Memory is sequentially consistent, so each of them is a function of the word it
acts on.
-/

namespace Coremu

/-- A pointer. -/
abbrev Addr := BitVec 64

/-- `data_type` of `incl/queue.h`: an `unsigned long` that can hold a pointer. -/
abbrev DataType := BitVec 64

/-- The null pointer. -/
abbrev NULL : Addr := 0

/-- The allocators return blocks aligned to 16 bytes, and never `NULL`. -/
def Block (a : Addr) : Prop := a ≠ NULL ∧ a.toNat % 16 = 0

instance (a : Addr) : Decidable (Block a) := inferInstanceAs (Decidable (_ ∧ _))

/-- There are fewer than `2 ^ 60` blocks. -/
theorem length_le_of_block {l : List Addr} (hnd : l.Nodup) (hl : ∀ a ∈ l, Block a) :
    l.length ≤ 2 ^ 60 := by
  have hcard : l.toFinset.card ≤ (Finset.range (2 ^ 60)).card := by
    refine Finset.card_le_card_of_injOn (fun a => a.toNat / 16) (fun a _ => ?_) ?_
    · have hlt := a.isLt
      rw [Finset.mem_coe, Finset.mem_range]
      dsimp only
      omega
    · intro a ha b hb hab
      have h1 := (hl a (List.mem_toFinset.mp (Finset.mem_coe.mp ha))).2
      have h2 := (hl b (List.mem_toFinset.mp (Finset.mem_coe.mp hb))).2
      refine BitVec.eq_of_toNat_eq ?_
      dsimp only at hab
      omega
  rwa [List.toFinset_card_of_nodup hnd, Finset.card_range] at hcard

/-- `lock; incq` -/
def atomicIncq (p : BitVec 64) : BitVec 64 := p + 1

/-- `lock; decq` -/
def atomicDecq (p : BitVec 64) : BitVec 64 := p - 1

/-- `lock; cmpxchg` on a cell of any width: the new content of the cell, and whether
it was written. -/
def compareExchange {α : Type*} [DecidableEq α] (mem old new : α) : α × Bool :=
  if mem = old then (new, true) else (mem, false)

/-- `__testandset`: the new lock word and the word read. -/
def testandset (lock : BitVec 32) : BitVec 32 × BitVec 32 :=
  ((compareExchange lock 0 1).1, lock)

/-- Counting up a word that holds an integer modulo `2 ^ 64`. -/
theorem atomicIncq_ofInt (n : ℤ) : atomicIncq (BitVec.ofInt 64 n) = BitVec.ofInt 64 (n + 1) := by
  rw [atomicIncq, BitVec.ofInt_add]
  rfl

/-- Counting down a word that holds an integer modulo `2 ^ 64`. -/
theorem atomicDecq_ofInt (n : ℤ) : atomicDecq (BitVec.ofInt 64 n) = BitVec.ofInt 64 (n - 1) := by
  have h : BitVec.ofInt 64 n = BitVec.ofInt 64 (n - 1) + 1 := by
    conv_lhs => rw [show n = n - 1 + 1 by omega, BitVec.ofInt_add]
    rfl
  rw [atomicDecq, h, BitVec.add_sub_cancel]

/-- A word read as a signed number. -/
theorem toInt_ofInt_of_lt {n : ℤ} (h1 : -2 ^ 63 ≤ n) (h2 : n < 2 ^ 63) :
    (BitVec.ofInt 64 n).toInt = n :=
  BitVec.toInt_ofInt_eq_self (by decide) h1 h2

end Coremu

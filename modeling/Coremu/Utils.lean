import Mathlib.Algebra.Order.Group.Int
import Mathlib.Tactic.Common

/-!
# Subtracting times

`timeval_subtract` of `main/utils.c` moves whole seconds between the two fields of `y`, so
that the microseconds of `x` and `y` can be subtracted field by field.  The first carry
runs when the difference of the microseconds is negative, the second when it is too large.

Both carries keep the time that `y` denotes, so the result is exact whatever the fields
are.  They do not always bring the difference below 1000000, though: the first one carries
a second too many when the difference is a whole number of seconds, and the second one is
not made for exactly one second.  The result is then a second short and 1000000
microseconds long, and its sign is not the one of `x - y`.

The fields are integers, and `/` is the truncating division of C.

## Main definitions

* `Timeval`, `timevalSubtract` — the function, with the updated `y`.
* `WholeSecond` — the differences that the carries leave at 1000000.

## Main results

* `timevalSubtract_micros` — the result is exact.
* `timevalSubtract_tvUsec` — where its microseconds are 1000000.
* `timevalSubtract_normal_iff` — **the result is in normal form and the return value is the
  sign of the difference exactly elsewhere.**
* `timevalSubtract_whole` — **two equal times may be reported as a negative difference.**
-/

namespace Coremu.Utils

/-- `struct timeval` -/
structure Timeval where
  tvSec : ℤ
  tvUsec : ℤ
  deriving DecidableEq, Repr

/-- The time in microseconds. -/
def Timeval.micros (t : Timeval) : ℤ := t.tvSec * 1000000 + t.tvUsec

/-- What `timeval_subtract` leaves behind. -/
structure Subtraction where
  /-- `*result` -/
  result : Timeval
  /-- `*y` after the carries -/
  y : Timeval
  /-- The return value. -/
  ret : ℤ
  deriving DecidableEq, Repr

/-- `if (x->tv_usec < y->tv_usec) { … }` -/
def carryNegative (x y : Timeval) : Timeval :=
  if x.tvUsec < y.tvUsec then
    let nsec := (y.tvUsec - x.tvUsec).tdiv 1000000 + 1
    { tvUsec := y.tvUsec - 1000000 * nsec, tvSec := y.tvSec + nsec }
  else y

/-- `if (x->tv_usec - y->tv_usec > 1000000) { … }` -/
def carryLarge (x y : Timeval) : Timeval :=
  if x.tvUsec - y.tvUsec > 1000000 then
    let nsec := (x.tvUsec - y.tvUsec).tdiv 1000000
    { tvUsec := y.tvUsec + 1000000 * nsec, tvSec := y.tvSec - nsec }
  else y

/-- `timeval_subtract` -/
def timevalSubtract (x y : Timeval) : Subtraction :=
  let y := carryLarge x (carryNegative x y)
  { result := { tvSec := x.tvSec - y.tvSec, tvUsec := x.tvUsec - y.tvUsec }
    y := y
    ret := if x.tvSec < y.tvSec then 1 else 0 }

variable {x y : Timeval}

/-! ### The carries -/

/-- The first carry keeps the time and leaves no negative difference. -/
theorem carryNegative_spec (x y : Timeval) : (carryNegative x y).micros = y.micros ∧
    (x.tvUsec < y.tvUsec → 0 < x.tvUsec - (carryNegative x y).tvUsec ∧
      x.tvUsec - (carryNegative x y).tvUsec ≤ 1000000 ∧
        (x.tvUsec - (carryNegative x y).tvUsec = 1000000 ↔ 1000000 ∣ y.tvUsec - x.tvUsec)) ∧
    (y.tvUsec ≤ x.tvUsec → carryNegative x y = y) := by
  unfold carryNegative Timeval.micros
  split
  · next hlt =>
    have hdiv : (y.tvUsec - x.tvUsec).tdiv 1000000 = (y.tvUsec - x.tvUsec) / 1000000 :=
      Int.tdiv_eq_ediv_of_nonneg (by omega)
    dsimp only
    rw [hdiv]
    refine ⟨by omega, fun _ => by omega, fun hle => ?_⟩
    omega
  · next hnlt => exact ⟨rfl, fun hlt => absurd hlt hnlt, fun _ => rfl⟩

/-- The second carry keeps the time and leaves no difference above a second. -/
theorem carryLarge_spec (x y : Timeval) : (carryLarge x y).micros = y.micros ∧
    (1000000 < x.tvUsec - y.tvUsec → 0 ≤ x.tvUsec - (carryLarge x y).tvUsec ∧
      x.tvUsec - (carryLarge x y).tvUsec < 1000000) ∧
    (x.tvUsec - y.tvUsec ≤ 1000000 → carryLarge x y = y) := by
  unfold carryLarge Timeval.micros
  split
  · next hlt =>
    have hdiv : (x.tvUsec - y.tvUsec).tdiv 1000000 = (x.tvUsec - y.tvUsec) / 1000000 :=
      Int.tdiv_eq_ediv_of_nonneg (by omega)
    dsimp only
    rw [hdiv]
    refine ⟨by omega, fun _ => by omega, fun hle => ?_⟩
    omega
  · next hnlt => exact ⟨rfl, fun hlt => absurd hlt hnlt, fun _ => rfl⟩

/-! ### The result -/

/-- **The result is exact**, and the updated `y` denotes the same time as before. -/
theorem timevalSubtract_micros (x y : Timeval) :
    (timevalSubtract x y).result.micros = x.micros - y.micros ∧
      (timevalSubtract x y).y.micros = y.micros := by
  have hy : (timevalSubtract x y).y.micros = y.micros :=
    (carryLarge_spec x (carryNegative x y)).1.trans (carryNegative_spec x y).1
  refine ⟨?_, hy⟩
  rw [← hy]
  simp only [timevalSubtract, Timeval.micros]
  omega

/-- The microseconds differ by one second, or by a negative number of whole seconds. -/
def WholeSecond (x y : Timeval) : Prop :=
  x.tvUsec - y.tvUsec = 1000000 ∨ x.tvUsec < y.tvUsec ∧ 1000000 ∣ y.tvUsec - x.tvUsec

/-- The microseconds of the result: they are 1000000 exactly for a whole second. -/
theorem timevalSubtract_tvUsec (x y : Timeval) : 0 ≤ (timevalSubtract x y).result.tvUsec ∧
    (timevalSubtract x y).result.tvUsec ≤ 1000000 ∧
      ((timevalSubtract x y).result.tvUsec = 1000000 ↔ WholeSecond x y) := by
  obtain ⟨-, hneg, hnonneg⟩ := carryNegative_spec x y
  obtain ⟨-, hlarge, hsmall⟩ := carryLarge_spec x (carryNegative x y)
  have hres : (timevalSubtract x y).result.tvUsec =
      x.tvUsec - (carryLarge x (carryNegative x y)).tvUsec := rfl
  rw [hres]
  unfold WholeSecond
  by_cases hlt : x.tvUsec < y.tvUsec
  · -- after the first carry the difference is at most a second, so there is no second one
    obtain ⟨hpos, hle, hiff⟩ := hneg hlt
    rw [hsmall hle, hiff]
    refine ⟨hpos.le, hle, fun h => .inr ⟨hlt, h⟩, ?_⟩
    rintro (h | ⟨-, h⟩)
    · omega
    · exact h
  · rw [hnonneg (by omega)] at hlarge hsmall ⊢
    by_cases hbig : 1000000 < x.tvUsec - y.tvUsec
    · obtain ⟨hlo, hhi⟩ := hlarge hbig
      refine ⟨hlo, hhi.le, fun h => absurd h hhi.ne, ?_⟩
      rintro (h | ⟨h, -⟩)
      · omega
      · exact absurd h hlt
    · rw [hsmall (by omega)]
      refine ⟨by omega, by omega, .inl, ?_⟩
      rintro (h | ⟨h, -⟩)
      · exact h
      · exact absurd h hlt

/-- In normal form the seconds carry the sign, and the return value shows it. -/
theorem timevalSubtract_ret (h : (timevalSubtract x y).result.tvUsec < 1000000) :
    (timevalSubtract x y).ret = if x.micros - y.micros < 0 then 1 else 0 := by
  have hlo := (timevalSubtract_tvUsec x y).1
  have hsign : x.micros - y.micros < 0 ↔ (timevalSubtract x y).result.tvSec < 0 := by
    rw [← (timevalSubtract_micros x y).1, Timeval.micros]
    omega
  have hsec : (timevalSubtract x y).result.tvSec < 0 ↔
      x.tvSec < (carryLarge x (carryNegative x y)).tvSec := by
    simp only [timevalSubtract]
    omega
  simp only [hsign, hsec]
  rfl

/-- **The result is exact, in normal form, and the return value is its sign, exactly if** the
microseconds do not differ by a whole second. -/
theorem timevalSubtract_normal_iff (x y : Timeval) :
    ((timevalSubtract x y).result.micros = x.micros - y.micros ∧
      (0 ≤ (timevalSubtract x y).result.tvUsec ∧
        (timevalSubtract x y).result.tvUsec < 1000000) ∧
      (timevalSubtract x y).y.micros = y.micros ∧
      (timevalSubtract x y).ret = if x.micros - y.micros < 0 then 1 else 0) ↔
    ¬ WholeSecond x y := by
  obtain ⟨hexact, hy⟩ := timevalSubtract_micros x y
  obtain ⟨hlo, hle, hiff⟩ := timevalSubtract_tvUsec x y
  constructor
  · rintro ⟨-, ⟨-, hlt⟩, -⟩ hwhole
    exact hlt.ne (hiff.mpr hwhole)
  · intro h
    have hlt : (timevalSubtract x y).result.tvUsec < 1000000 :=
      lt_of_le_of_ne hle fun e => h (hiff.mp e)
    exact ⟨hexact, ⟨hlo, hlt⟩, hy, timevalSubtract_ret hlt⟩

/-- 5 s 3 µs less 2 s and 2500007 µs: the first carry moves three seconds. -/
theorem timevalSubtract_normal_carry : ¬ WholeSecond ⟨5, 3⟩ ⟨2, 2500007⟩ ∧
    (timevalSubtract ⟨5, 3⟩ ⟨2, 2500007⟩).result = ⟨0, 499996⟩ ∧
      (timevalSubtract ⟨5, 3⟩ ⟨2, 2500007⟩).ret = 0 := by
  have hnot : ¬ WholeSecond ⟨5, 3⟩ ⟨2, 2500007⟩ := by
    rintro (h | ⟨-, h⟩)
    · cases h
    · exact absurd h (by decide)
  exact ⟨hnot, by decide, ((timevalSubtract_normal_iff _ _).mpr hnot).2.2.2⟩

/-- **Two equal times may be reported as a negative difference**: one second and 1000000
microseconds.  The result has 1000000 microseconds and the return value is 1. -/
theorem timevalSubtract_whole :
    (⟨1, 0⟩ : Timeval).micros - (⟨0, 1000000⟩ : Timeval).micros = 0 ∧
      (timevalSubtract ⟨1, 0⟩ ⟨0, 1000000⟩).result = ⟨-1, 1000000⟩ ∧
        (timevalSubtract ⟨1, 0⟩ ⟨0, 1000000⟩).ret = 1 := by
  decide

end Coremu.Utils

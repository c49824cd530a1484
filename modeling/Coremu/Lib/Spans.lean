import Mathlib.Order.Basic
import Mathlib.Order.Lattice

/-!
# Lists of spans

A map from points to values can be kept as a list of spans, each with one value.  In the canonical
list of a map no span is empty, they are in order and do not overlap, and two that touch have
different values.

## Main definitions

* `Shape` — where a span begins and ends, and its value.
* `Shape.lookup` — the value at a point.
* `Shape.Canonical` — the list is in order and cannot be made shorter by joining spans.

## Main results

* `Shape.Canonical.join` — two lists with a gap between them.
* `Shape.Canonical.insert` — a span between two lists.
-/

namespace Spans

variable {α β V : Type*}

/-- Where a span begins and ends, and its value. -/
structure Shape (α β V : Type*) where
  /-- The first point of the span. -/
  lo : β → α
  /-- The first point after the span. -/
  hi : β → α
  /-- The value at every point of the span. -/
  val : β → V

namespace Shape

variable [LinearOrder α] (S : Shape α β V) {l r : List β} {x : β} {a c : α}

/-- The value at a point: that of the first span that covers it. -/
def lookup : List β → α → Option V
  | [], _ => none
  | x :: l, a => if S.lo x ≤ a ∧ a < S.hi x then some (S.val x) else lookup l a

/-- `x` ends before `y` begins, and where they touch their values differ. -/
def Below (x y : β) : Prop := S.hi x ≤ S.lo y ∧ (S.hi x = S.lo y → S.val x ≠ S.val y)

/-- No span is empty, they are in order and do not overlap, and two that touch differ. -/
structure Canonical (l : List β) : Prop where
  nonempty : ∀ x ∈ l, S.lo x < S.hi x
  below : l.Pairwise S.Below

variable {S}

theorem lookup_cons (x : β) (l : List β) (a : α) : S.lookup (x :: l) a =
    if S.lo x ≤ a ∧ a < S.hi x then some (S.val x) else S.lookup l a := rfl

theorem lookup_append (l r : List β) (a : α) :
    S.lookup (l ++ r) a = (S.lookup l a).or (S.lookup r a) := by
  induction l with
  | nil => rfl
  | cons x l ih =>
    rw [List.cons_append, lookup_cons, lookup_cons, ih]
    split <;> rfl

/-- Nothing covers a point after all spans. -/
theorem lookup_of_hi_le (h : ∀ x ∈ l, S.hi x ≤ a) : S.lookup l a = none := by
  induction l with
  | nil => rfl
  | cons x l ih =>
    have hx := h x List.mem_cons_self
    rw [lookup_cons, if_neg fun hc => absurd hc.2 (not_lt.mpr hx)]
    exact ih fun y hy => h y (List.mem_cons_of_mem x hy)

/-- Nothing covers a point before all spans. -/
theorem lookup_of_lt_lo (h : ∀ x ∈ l, a < S.lo x) : S.lookup l a = none := by
  induction l with
  | nil => rfl
  | cons x l ih =>
    have hx := h x List.mem_cons_self
    rw [lookup_cons, if_neg fun hc => absurd hc.1 (not_le.mpr hx)]
    exact ih fun y hy => h y (List.mem_cons_of_mem x hy)

theorem canonical_nil : S.Canonical [] := ⟨fun _ hx => absurd hx List.not_mem_nil, .nil⟩

theorem canonical_cons : S.Canonical (x :: l) ↔
    S.lo x < S.hi x ∧ (∀ y ∈ l, S.Below x y) ∧ S.Canonical l := by
  constructor
  · intro h
    obtain ⟨hbelow, hl⟩ := List.pairwise_cons.mp h.below
    exact ⟨h.nonempty x List.mem_cons_self, hbelow,
      fun y hy => h.nonempty y (List.mem_cons_of_mem x hy), hl⟩
  · rintro ⟨hx, hbelow, hl⟩
    refine ⟨fun y hy => ?_, List.pairwise_cons.mpr ⟨hbelow, hl.below⟩⟩
    rcases List.mem_cons.mp hy with rfl | hy
    · exact hx
    · exact hl.nonempty y hy

theorem canonical_append : S.Canonical (l ++ r) ↔
    S.Canonical l ∧ S.Canonical r ∧ ∀ x ∈ l, ∀ y ∈ r, S.Below x y := by
  constructor
  · intro h
    obtain ⟨hl, hr, hlr⟩ := List.pairwise_append.mp h.below
    exact ⟨⟨fun x hx => h.nonempty x (List.mem_append_left r hx), hl⟩,
      ⟨fun x hx => h.nonempty x (List.mem_append_right l hx), hr⟩, hlr⟩
  · rintro ⟨hl, hr, hlr⟩
    refine ⟨fun x hx => ?_, List.pairwise_append.mpr ⟨hl.below, hr.below, hlr⟩⟩
    rcases List.mem_append.mp hx with hx | hx
    · exact hl.nonempty x hx
    · exact hr.nonempty x hx

/-- Two lists with a gap between them. -/
theorem Canonical.join (hl : S.Canonical l) (hr : S.Canonical r) (hle : ∀ x ∈ l, S.hi x ≤ c)
    (hlt : ∀ y ∈ r, c < S.lo y) : S.Canonical (l ++ r) := by
  refine canonical_append.mpr ⟨hl, hr, fun x hx y hy => ?_⟩
  have hlt' : S.hi x < S.lo y := (hle x hx).trans_lt (hlt y hy)
  exact ⟨hlt'.le, fun e => absurd e hlt'.ne⟩

/-- A span between two lists. -/
theorem Canonical.insert (hl : S.Canonical l) (hr : S.Canonical r) (hx : S.lo x < S.hi x)
    (hbefore : ∀ y ∈ l, S.Below y x) (hafter : ∀ z ∈ r, S.Below x z) :
    S.Canonical (l ++ x :: r) := by
  refine canonical_append.mpr ⟨hl, canonical_cons.mpr ⟨hx, hafter, hr⟩, fun y hy z hz => ?_⟩
  rcases List.mem_cons.mp hz with rfl | hz
  · exact hbefore y hy
  · -- the span lies between them
    have hlt : S.hi y < S.lo z := ((hbefore y hy).1.trans_lt hx).trans_le (hafter z hz).1
    exact ⟨hlt.le, fun e => absurd e hlt.ne⟩

end Shape

end Spans

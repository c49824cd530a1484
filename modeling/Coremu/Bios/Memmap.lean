import Mathlib.Algebra.Order.Ring.Nat
import Mathlib.Data.List.Induction
import Mathlib.Tactic.Common
import Coremu.Lib.Spans

/-!
# The memory map of the BIOS

`add_e820` of `bios/seabios/src/memmap.c` records what a range of memory is used for: it looks for
the place of the range in the list, cuts the entry that it begins in, removes and cuts those that
it overlaps, joins it with its neighbours of the same type, and puts it in.  A range of the type
`E820_HOLE` is only taken out.

The list is cut at the position `i` of the source, into the entries before it and the rest.
Numbers of 64 bits are natural numbers, with the remainder taken where the source adds.

## Main definitions

* `position`, `overlap`, `addE820` — the two loops, and the function.
* `typeAt` — the type of an address.
* `WellFormed` — what holds of the list at all times.
* `Positioned`, `Overlapped` — what the two loops have done.

## Main results

* `position_spec`, `overlap_spec` — the two loops.
* `addE820_wellFormed` — **a call keeps the list well formed**, also when it is full.
* `addE820_typeAt` — **what a call does to the type of every address.**
-/

namespace Coremu.Bios

/-- `struct e820entry` -/
structure E820Entry where
  start : ℕ
  size : ℕ
  type : BitVec 32
  deriving DecidableEq, Repr

/-- `CONFIG_MAX_E820` -/
def maxE820 : ℕ := 32

/-- `E820_RAM` -/
def e820Ram : BitVec 32 := 1

/-- `E820_RESERVED` -/
def e820Reserved : BitVec 32 := 2

/-- `E820_HOLE` -/
def e820Hole : BitVec 32 := -1

/-- A number of 64 bits. -/
def u64 (n : ℕ) : ℕ := n % 2 ^ 64

/-- `e->start + e->size` -/
def E820Entry.stop (e : E820Entry) : ℕ := u64 (e.start + e.size)

/-- `insert_e820` at the end of `before`: the rest of the list then. -/
def insertE820 (before rest : List E820Entry) (e : E820Entry) : List E820Entry :=
  if maxE820 ≤ before.length + rest.length then rest else e :: rest

/-- The list cut at `i`, with `start` and `size`, after the first loop. -/
structure Position where
  before : List E820Entry
  rest : List E820Entry
  start : ℕ
  size : ℕ
  deriving Repr

/-- The first loop of `add_e820`: the position of the new item. -/
def position (start size last : ℕ) (type : BitVec 32) : List E820Entry → List E820Entry → Position
  | before, [] => ⟨before, [], start, size⟩
  | before, e :: rest =>
      if e.stop < start then position start size last type (before ++ [e]) rest
      else if e.start < start then
        if type = e.type then ⟨before, e :: rest, e.start, u64 (size + (start - e.start))⟩
        else
          -- the entry is cut, and the position is after it
          let before := before ++ [{ e with size := start - e.start }]
          if last < e.stop then
            ⟨before, insertE820 before rest ⟨last, e.stop - last, e.type⟩, start, size⟩
          else ⟨before, rest, start, size⟩
      else ⟨before, e :: rest, start, size⟩

/-- The second loop of `add_e820`: the size of the new item, and what is left after it. -/
def overlap (last : ℕ) (type : BitVec 32) (size : ℕ) : List E820Entry → ℕ × List E820Entry
  | [] => (size, [])
  | e :: rest =>
      if last < e.start then (size, e :: rest)
      else if e.stop ≤ last then overlap last type size rest
      else if type = e.type then (u64 (size + (e.stop - last)), rest)
      else (size, ⟨last, e.stop - last, e.type⟩ :: rest)

/-- `add_e820` -/
def addE820 (l : List E820Entry) (start size : ℕ) (type : BitVec 32) : List E820Entry :=
  if size = 0 then l
  else
    let last := u64 (start + size)
    let p := position start size last type [] l
    let o := overlap last type p.size p.rest
    if type ≠ e820Hole then p.before ++ insertE820 p.before o.2 ⟨p.start, o.1, type⟩
    else p.before ++ o.2

/-! ### What the list means -/

/-- The ranges of the entries. -/
def shape : Spans.Shape ℕ E820Entry (BitVec 32) where
  lo e := e.start
  hi e := e.start + e.size
  val e := e.type

/-- The type of an address. -/
def typeAt (l : List E820Entry) (a : ℕ) : Option (BitVec 32) := shape.lookup l a

/-- An entry that does not reach the last address, and is no hole. -/
structure E820Entry.Ok (e : E820Entry) : Prop where
  fits : e.start + e.size < 2 ^ 64
  type : e.type ≠ e820Hole

/-- The list is sorted, without overlaps or empty entries, and entries of one type that touch are
joined. -/
structure WellFormed (l : List E820Entry) : Prop where
  canonical : shape.Canonical l
  ok : ∀ e ∈ l, e.Ok

variable {l before rest : List E820Entry} {e : E820Entry} {start size last a : ℕ}
variable {type : BitVec 32}

theorem u64_of_lt {n : ℕ} (h : n < 2 ^ 64) : u64 n = n := Nat.mod_eq_of_lt h

theorem E820Entry.Ok.stop_eq (h : e.Ok) : e.stop = e.start + e.size := u64_of_lt h.fits

theorem below_iff {x y : E820Entry} : shape.Below x y ↔
    x.start + x.size ≤ y.start ∧ (x.start + x.size = y.start → x.type ≠ y.type) := Iff.rfl

theorem typeAt_cons (e : E820Entry) (l : List E820Entry) (a : ℕ) : typeAt (e :: l) a =
    if e.start ≤ a ∧ a < e.start + e.size then some e.type else typeAt l a := rfl

theorem typeAt_append (l r : List E820Entry) (a : ℕ) :
    typeAt (l ++ r) a = (typeAt l a).or (typeAt r a) := Spans.Shape.lookup_append l r a

theorem wellFormed_nil : WellFormed [] :=
  ⟨Spans.Shape.canonical_nil, fun _ he => absurd he List.not_mem_nil⟩

theorem wellFormed_cons : WellFormed (e :: l) ↔
    0 < e.size ∧ e.Ok ∧ (∀ y ∈ l, shape.Below e y) ∧ WellFormed l := by
  have hsize : shape.lo e < shape.hi e ↔ 0 < e.size := by
    change e.start < e.start + e.size ↔ 0 < e.size
    omega
  constructor
  · intro h
    obtain ⟨hpos, hbelow, hl⟩ := Spans.Shape.canonical_cons.mp h.canonical
    exact ⟨hsize.mp hpos, h.ok e List.mem_cons_self, hbelow, hl,
      fun y hy => h.ok y (List.mem_cons_of_mem e hy)⟩
  · rintro ⟨hpos, hok, hbelow, hl⟩
    refine ⟨Spans.Shape.canonical_cons.mpr ⟨hsize.mpr hpos, hbelow, hl.canonical⟩, fun y hy => ?_⟩
    rcases List.mem_cons.mp hy with rfl | hy
    · exact hok
    · exact hl.ok y hy

theorem wellFormed_append {r : List E820Entry} : WellFormed (l ++ r) ↔
    WellFormed l ∧ WellFormed r ∧ ∀ x ∈ l, ∀ y ∈ r, shape.Below x y := by
  constructor
  · intro h
    obtain ⟨hl, hr, hlr⟩ := Spans.Shape.canonical_append.mp h.canonical
    exact ⟨⟨hl, fun x hx => h.ok x (List.mem_append_left r hx)⟩,
      ⟨hr, fun x hx => h.ok x (List.mem_append_right l hx)⟩, hlr⟩
  · rintro ⟨hl, hr, hlr⟩
    refine ⟨Spans.Shape.canonical_append.mpr ⟨hl.canonical, hr.canonical, hlr⟩, fun x hx => ?_⟩
    rcases List.mem_append.mp hx with hx | hx
    · exact hl.ok x hx
    · exact hr.ok x hx

theorem typeAt_of_stop_le (h : ∀ e ∈ l, e.start + e.size ≤ a) : typeAt l a = none :=
  Spans.Shape.lookup_of_hi_le h

theorem typeAt_of_lt_start (h : ∀ e ∈ l, a < e.start) : typeAt l a = none :=
  Spans.Shape.lookup_of_lt_lo h

/-- What is left of an entry from `last` on. -/
def E820Entry.above (e : E820Entry) (last : ℕ) : E820Entry :=
  ⟨last, e.start + e.size - last, e.type⟩

theorem wellFormed_above (h : WellFormed (e :: rest)) (hlt : last < e.start + e.size) :
    WellFormed (e.above last :: rest) := by
  obtain ⟨-, hok, hbelow, hrest⟩ := wellFormed_cons.mp h
  have hstop : last + (e.start + e.size - last) = e.start + e.size := by omega
  refine wellFormed_cons.mpr ⟨?_, ⟨?_, hok.type⟩, fun y hy => ?_, hrest⟩
  · change 0 < e.start + e.size - last
    omega
  · change last + (e.start + e.size - last) < 2 ^ 64
    rw [hstop]
    exact hok.fits
  · have hy := below_iff.mp (hbelow y hy)
    rw [below_iff]
    change last + (e.start + e.size - last) ≤ y.start ∧
      (last + (e.start + e.size - last) = y.start → e.type ≠ y.type)
    rwa [hstop]

theorem typeAt_above (hle : e.start ≤ last) (ha : last ≤ a) :
    typeAt (e.above last :: rest) a = typeAt (e :: rest) a := by
  have hcov : (last ≤ a ∧ a < last + (e.start + e.size - last)) ↔
      (e.start ≤ a ∧ a < e.start + e.size) := by omega
  rw [typeAt_cons, typeAt_cons]
  change (if last ≤ a ∧ a < last + (e.start + e.size - last) then some e.type else _) = _
  simp only [hcov]

/-! ### The second loop -/

/-- What the second loop leaves: `stop` is where the new item ends then. -/
structure Overlapped (last : ℕ) (type : BitVec 32) (rest : List E820Entry) (stop : ℕ)
    (rest' : List E820Entry) : Prop where
  le : last ≤ stop
  fits : stop < 2 ^ 64
  hole : type = e820Hole → stop = last
  wellFormed : WellFormed rest'
  after : ∀ e ∈ rest', stop ≤ e.start ∧ (stop = e.start → type ≠ e.type)
  length : rest'.length ≤ rest.length
  typeAt : ∀ a, last ≤ a → (if a < stop then some type else typeAt rest' a) = typeAt rest a

/-- **The second loop removes the addresses below `last`** from the rest, and joins the new item
with the next one of its type. -/
theorem overlap_spec (hlast : start + size = last) (hfits : last < 2 ^ 64) :
    WellFormed rest → Overlapped last type rest (start + (overlap last type size rest).1)
      (overlap last type size rest).2 := by
  induction rest with
  | nil =>
    intro h
    have hstop : start + size = last := hlast
    refine ⟨hstop.ge, hstop ▸ hfits, fun _ => hstop, h, fun _ he => absurd he List.not_mem_nil,
      le_rfl, fun a ha => ?_⟩
    rw [overlap, hstop, if_neg (by omega)]
  | cons e rest ih =>
    intro h
    obtain ⟨hpos, hok, hbelow, hrest⟩ := wellFormed_cons.mp h
    have hstop := hok.stop_eq
    have hfit := hok.fits
    unfold overlap
    by_cases hlt : last < e.start
    · -- no overlap
      rw [if_pos hlt]
      refine ⟨hlast.ge, hlast ▸ hfits, fun _ => hlast, h, fun y hy => ?_, le_rfl, fun a ha => ?_⟩
      · rcases List.mem_cons.mp hy with rfl | hy
        · exact ⟨by omega, fun e => by omega⟩
        · have hy := (hbelow y hy).1
          change e.start + e.size ≤ y.start at hy
          exact ⟨by omega, fun e => by omega⟩
      · rw [hlast, if_neg (by omega)]
    · rw [if_neg hlt, hstop]
      by_cases hle : e.start + e.size ≤ last
      · -- completely overlapped
        rw [if_pos hle]
        have hO := ih hrest
        refine ⟨hO.le, hO.fits, hO.hole, hO.wellFormed, hO.after,
          hO.length.trans (Nat.le_succ _), fun a ha => ?_⟩
        rw [hO.typeAt a ha, typeAt_cons, if_neg (by omega)]
      · rw [if_neg hle]
        have hafter : ∀ y ∈ rest, e.start + e.size ≤ y.start ∧
            (e.start + e.size = y.start → e.type ≠ y.type) := fun y hy => below_iff.mp (hbelow y hy)
        by_cases ht : type = e.type
        · -- joined with the next item
          rw [if_pos ht]
          have hsize : start + u64 (size + (e.start + e.size - last)) = e.start + e.size := by
            rw [u64_of_lt (by omega)]
            omega
          refine ⟨?_, ?_, fun hh => absurd (ht ▸ hh) hok.type, hrest, fun y hy => ?_,
            Nat.le_succ _, fun a ha => ?_⟩
          · rw [hsize]
            omega
          · rw [hsize]
            exact hfit
          · rw [hsize, ht]
            exact hafter y hy
          · rw [hsize, typeAt_cons, ht]
            by_cases hc : a < e.start + e.size
            · rw [if_pos hc, if_pos ⟨by omega, hc⟩]
            · rw [if_neg hc, if_neg fun hc' => hc hc'.2]
        · -- cut
          rw [if_neg ht]
          refine ⟨hlast.ge, hlast ▸ hfits, fun _ => hlast, ?_, fun y hy => ?_, le_rfl,
            fun a ha => ?_⟩
          · exact wellFormed_above h (by omega)
          · rw [hlast]
            rcases List.mem_cons.mp hy with rfl | hy
            · exact ⟨le_rfl, fun _ => ht⟩
            · have hy := (hafter y hy).1
              exact ⟨by omega, fun e => by omega⟩
          · rw [hlast, if_neg (by omega)]
            exact typeAt_above (by omega) ha

/-- Without the new item its addresses have no type. -/
theorem Overlapped.typeAt_append {stop : ℕ} {rest' : List E820Entry}
    (ho : Overlapped last type rest stop rest') (before : List E820Entry) (first a : ℕ) :
    Bios.typeAt (before ++ rest') a = (Bios.typeAt before a).or
      (if first ≤ a ∧ a < stop then none else Bios.typeAt rest' a) := by
  rw [Bios.typeAt_append]
  by_cases hc : first ≤ a ∧ a < stop
  · have hnone : Bios.typeAt rest' a = none :=
      typeAt_of_lt_start fun e he => hc.2.trans_le (ho.after e he).1
    rw [if_pos hc, hnone]
  · rw [if_neg hc]

/-! ### The first loop -/

/-- What the first loop finds. -/
structure Positioned (start last : ℕ) (type : BitVec 32) (l : List E820Entry) (p : Position) :
    Prop where
  sum : p.start + p.size = last
  le : p.start ≤ start
  hole : type = e820Hole → p.start = start
  before : WellFormed p.before
  rest : WellFormed p.rest
  below : ∀ e ∈ p.before, e.start + e.size ≤ p.start ∧ (e.start + e.size = p.start → e.type ≠ type)
  length : p.before.length + p.rest.length ≤ l.length + 1
  full : l.length ≤ maxE820 → p.before.length + p.rest.length ≤ maxE820
  typeBefore : ∀ a < start, (if p.start ≤ a then some type else typeAt p.before a) = typeAt l a
  typeAfter : ∀ a, last ≤ a → typeAt p.rest a = typeAt l a ∨
    maxE820 ≤ l.length ∧ typeAt p.rest a = none

/-- The new item begins in none of the entries. -/
theorem positioned_between (h : WellFormed (before ++ rest)) (hsum : start + size = last)
    (hbefore : ∀ e ∈ before, e.start + e.size < start) (hrest : ∀ e ∈ rest, start ≤ e.start) :
    Positioned start last type (before ++ rest) ⟨before, rest, start, size⟩ := by
  obtain ⟨hb, hr, -⟩ := wellFormed_append.mp h
  have hlen : before.length + rest.length = (before ++ rest).length := List.length_append.symm
  refine ⟨hsum, le_rfl, fun _ => rfl, hb, hr, fun e he => ?_, ?_, fun hle => ?_, fun a ha => ?_,
    fun a ha => .inl ?_⟩
  · have := hbefore e he
    exact ⟨this.le, fun heq => absurd heq this.ne⟩
  · exact hlen.le.trans (Nat.le_succ _)
  · exact hlen.le.trans hle
  · have hnone : typeAt rest a = none :=
      typeAt_of_lt_start fun e he => Nat.lt_of_lt_of_le ha (hrest e he)
    rw [if_neg (Nat.not_le.mpr ha), typeAt_append, hnone, Option.or_none]
  · have hnone : typeAt before a = none := by
      refine typeAt_of_stop_le fun e he => ?_
      have := hbefore e he
      omega
    rw [typeAt_append, hnone, Option.none_or]

/-- The new item begins in an entry of its type, or at its end. -/
theorem positioned_join (h : WellFormed (before ++ e :: rest)) (hsum : start + size = last)
    (hlast : last < 2 ^ 64) (hlt : e.start < start) (hle : start ≤ e.start + e.size)
    (ht : type = e.type) : Positioned start last type (before ++ e :: rest)
      ⟨before, e :: rest, e.start, u64 (size + (start - e.start))⟩ := by
  obtain ⟨hb, hr, hcross⟩ := wellFormed_append.mp h
  obtain ⟨hpos, hok, hbelow, -⟩ := wellFormed_cons.mp hr
  have hlen : before.length + (e :: rest).length = (before ++ e :: rest).length :=
    List.length_append.symm
  have hbe : ∀ y ∈ before, y.start + y.size ≤ e.start ∧
      (y.start + y.size = e.start → y.type ≠ e.type) :=
    fun y hy => below_iff.mp (hcross y hy e List.mem_cons_self)
  have hnone : ∀ a, e.start ≤ a → typeAt before a = none := fun a ha =>
    typeAt_of_stop_le fun y hy => (hbe y hy).1.trans ha
  refine ⟨?_, hlt.le, fun hh => absurd (ht ▸ hh) hok.type, hb, hr, fun y hy => ht ▸ hbe y hy,
    hlen.le.trans (Nat.le_succ _), fun hle => hlen.le.trans hle, fun a ha => ?_,
    fun a ha => .inl ?_⟩
  · change e.start + u64 (size + (start - e.start)) = last
    rw [u64_of_lt (by omega)]
    omega
  · rw [typeAt_append, typeAt_cons]
    by_cases hc : e.start ≤ a
    · rw [if_pos hc, hnone a hc, Option.none_or, if_pos ⟨hc, by omega⟩, ht]
    · have hrest : typeAt rest a = none := by
        refine typeAt_of_lt_start fun y hy => ?_
        have hy := (below_iff.mp (hbelow y hy)).1
        omega
      rw [if_neg hc, if_neg fun hc' => hc hc'.1, hrest, Option.or_none]
  · rw [typeAt_append, hnone a (by omega), Option.none_or]

/-- The new item begins in an entry of another type, or at its end: the entry is cut. -/
theorem positioned_cut (h : WellFormed (before ++ e :: rest)) (hsum : start + size = last)
    (hlt : e.start < start) (hle : start ≤ e.start + e.size) (ht : type ≠ e.type)
    {rest' : List E820Entry} (hrest' : WellFormed rest') (hlen : rest'.length ≤ rest.length + 1)
    (hfull : (before ++ e :: rest).length ≤ maxE820 → before.length + 1 + rest'.length ≤ maxE820)
    (hafter : ∀ a, last ≤ a → typeAt rest' a = typeAt (e :: rest) a ∨
      maxE820 ≤ (before ++ e :: rest).length ∧ typeAt rest' a = none) :
    Positioned start last type (before ++ e :: rest)
      ⟨before ++ [{ e with size := start - e.start }], rest', start, size⟩ := by
  obtain ⟨hb, hr, hcross⟩ := wellFormed_append.mp h
  obtain ⟨hpos, hok, hbelow, -⟩ := wellFormed_cons.mp hr
  have hbe : ∀ y ∈ before, y.start + y.size ≤ e.start ∧
      (y.start + y.size = e.start → y.type ≠ e.type) :=
    fun y hy => below_iff.mp (hcross y hy e List.mem_cons_self)
  have hfit := hok.fits
  refine ⟨hsum, le_rfl, fun _ => rfl, ?_, hrest', fun y hy => ?_, ?_, fun hle' => ?_,
    fun a ha => ?_, fun a ha => ?_⟩
  · refine wellFormed_append.mpr ⟨hb, wellFormed_cons.mpr ⟨?_, ⟨?_, hok.type⟩,
      fun _ hy => absurd hy List.not_mem_nil, wellFormed_nil⟩, fun y hy z hz => ?_⟩
    · change 0 < start - e.start
      omega
    · change e.start + (start - e.start) < 2 ^ 64
      omega
    · rw [List.mem_singleton.mp hz, below_iff]
      exact hbe y hy
  · rcases List.mem_append.mp hy with hy | hy
    · have hy := (hbe y hy).1
      change y.start + y.size ≤ start ∧ (y.start + y.size = start → y.type ≠ type)
      exact ⟨by omega, fun e => by omega⟩
    · rw [List.mem_singleton.mp hy]
      change e.start + (start - e.start) ≤ start ∧ (_ → e.type ≠ type)
      exact ⟨by omega, fun _ => ht.symm⟩
  · rw [List.length_append, List.length_append, List.length_singleton, List.length_cons]
    change before.length + 1 + rest'.length ≤ before.length + (rest.length + 1) + 1
    omega
  · have := hfull hle'
    rwa [List.length_append, List.length_singleton]
  · have hrest : typeAt rest a = none := by
      refine typeAt_of_lt_start fun y hy => ?_
      have hy := (below_iff.mp (hbelow y hy)).1
      omega
    have hcov : (e.start ≤ a ∧ a < e.start + (start - e.start)) ↔
        (e.start ≤ a ∧ a < e.start + e.size) := by omega
    rw [if_neg (Nat.not_le.mpr ha), typeAt_append, typeAt_append, typeAt_cons, typeAt_cons, hrest]
    simp only [hcov]
    rfl
  · have hnone : typeAt before a = none := by
      refine typeAt_of_stop_le fun y hy => ?_
      have hy := (hbe y hy).1
      omega
    rw [typeAt_append, hnone, Option.none_or]
    exact hafter a ha

/-- **The first loop finds the position of the new item.** -/
theorem position_spec (hsum : start + size = last) (hlast : last < 2 ^ 64)
    (h : WellFormed (before ++ rest)) (hbefore : ∀ e ∈ before, e.start + e.size < start) :
    Positioned start last type (before ++ rest) (position start size last type before rest) := by
  induction rest generalizing before with
  | nil => exact positioned_between h hsum hbefore fun _ he => absurd he List.not_mem_nil
  | cons e rest ih =>
    obtain ⟨-, hr, -⟩ := wellFormed_append.mp h
    obtain ⟨hpos, hok, hbelow, hwf⟩ := wellFormed_cons.mp hr
    have hstop := hok.stop_eq
    have hfit := hok.fits
    unfold position
    rw [hstop]
    by_cases hskip : e.start + e.size < start
    · rw [if_pos hskip]
      have happ : before ++ e :: rest = (before ++ [e]) ++ rest := by simp
      rw [happ] at h ⊢
      refine ih h fun y hy => ?_
      rcases List.mem_append.mp hy with hy | hy
      · exact hbefore y hy
      · rw [List.mem_singleton.mp hy]
        exact hskip
    · rw [if_neg hskip]
      by_cases hlt : e.start < start
      · rw [if_pos hlt]
        by_cases ht : type = e.type
        · rw [if_pos ht]
          exact positioned_join h hsum hlast hlt (by omega) ht
        · rw [if_neg ht]
          by_cases hcut : last < e.start + e.size
          · rw [if_pos hcut]
            refine positioned_cut h hsum hlt (by omega) ht ?_ ?_ ?_ ?_
            · unfold insertE820
              split
              · exact hwf
              · exact wellFormed_above hr hcut
            · unfold insertE820
              split
              · exact Nat.le_succ _
              · exact le_rfl
            · intro hle
              unfold insertE820
              rw [List.length_append, List.length_singleton]
              rw [List.length_append, List.length_cons] at hle
              split
              · omega
              · rw [List.length_cons]
                omega
            · intro a ha
              unfold insertE820
              rw [List.length_append, List.length_singleton, List.length_append, List.length_cons]
              split
              · -- the list is full, and what is left of the entry is lost
                next hfull =>
                rw [typeAt_cons]
                by_cases hc : e.start ≤ a ∧ a < e.start + e.size
                · refine .inr ⟨by omega, typeAt_of_lt_start fun y hy => ?_⟩
                  exact hc.2.trans_le (below_iff.mp (hbelow y hy)).1
                · rw [if_neg hc]
                  exact .inl rfl
              · left
                exact typeAt_above (by omega) ha
          · rw [if_neg hcut]
            refine positioned_cut h hsum hlt (by omega) ht hwf (Nat.le_succ _) ?_ ?_
            · intro hle
              rw [List.length_append, List.length_cons] at hle
              omega
            · intro a ha
              left
              rw [typeAt_cons, if_neg (by omega)]
      · rw [if_neg hlt]
        refine positioned_between h hsum hbefore fun y hy => ?_
        rcases List.mem_cons.mp hy with rfl | hy
        · omega
        · have hy := (below_iff.mp (hbelow y hy)).1
          omega

/-! ### A call -/

/-- What the two loops have done together. -/
theorem addE820_spec (type : BitVec 32) (h : WellFormed l) (hpos : size ≠ 0)
    (hfits : start + size < 2 ^ 64) :
    ∃ (p : Position) (o : ℕ × List E820Entry), Positioned start (start + size) type l p ∧
      Overlapped (start + size) type p.rest (p.start + o.1) o.2 ∧
        addE820 l start size type = if type ≠ e820Hole
          then p.before ++ insertE820 p.before o.2 ⟨p.start, o.1, type⟩ else p.before ++ o.2 := by
  have hp : Positioned start (start + size) type l
      (position start size (start + size) type [] l) := by
    have h' : WellFormed ([] ++ l) := h
    exact position_spec rfl hfits h' fun _ he => absurd he List.not_mem_nil
  refine ⟨_, _, hp, overlap_spec hp.sum hfits hp.rest, ?_⟩
  unfold addE820
  rw [if_neg hpos, u64_of_lt hfits]

section Loops

variable {p : Position} {o : ℕ × List E820Entry}

/-- The entries before the new item and those after it, without it. -/
theorem Positioned.join (hp : Positioned start last type l p)
    (ho : Overlapped last type p.rest (p.start + o.1) o.2) (hlt : start < last) :
    WellFormed (p.before ++ o.2) := by
  refine ⟨hp.before.canonical.join (c := start) ho.wellFormed.canonical (fun e he => ?_)
    fun e he => ?_, fun e he => ?_⟩
  · exact (hp.below e he).1.trans hp.le
  · exact hlt.trans_le (ho.le.trans (ho.after e he).1)
  · rcases List.mem_append.mp he with he | he
    · exact hp.before.ok e he
    · exact ho.wellFormed.ok e he

/-- The entries with the new item between them. -/
theorem Positioned.insert (hp : Positioned start last type l p)
    (ho : Overlapped last type p.rest (p.start + o.1) o.2) (hlt : start < last)
    (ht : type ≠ e820Hole) : WellFormed (p.before ++ ⟨p.start, o.1, type⟩ :: o.2) := by
  have hle := hp.le
  have hstop := ho.le
  refine ⟨hp.before.canonical.insert ho.wellFormed.canonical ?_ ?_ ?_, fun e he => ?_⟩
  · change p.start < p.start + o.1
    omega
  · exact fun e he => below_iff.mpr (hp.below e he)
  · exact fun e he => below_iff.mpr (ho.after e he)
  · rcases List.mem_append.mp he with he | he
    · exact hp.before.ok e he
    · rcases List.mem_cons.mp he with rfl | he
      · exact ⟨ho.fits, ht⟩
      · exact ho.wellFormed.ok e he

/-- The type of an address below the new item, in it, and above it. -/
theorem Positioned.typeAt (hp : Positioned start last type l p)
    (ho : Overlapped last type p.rest (p.start + o.1) o.2) (v : Option (BitVec 32))
    (hv : p.start < start → v = some type) (hv' : last < p.start + o.1 → v = some type)
    (hlt : start < last) (a : ℕ) :
    let t := (typeAt p.before a).or
      (if p.start ≤ a ∧ a < p.start + o.1 then v else typeAt o.2 a)
    t = (if start ≤ a ∧ a < last then v else typeAt l a) ∨ maxE820 ≤ l.length ∧ t = none := by
  intro t
  have hle := hp.le
  have hstop := ho.le
  have hbefore : p.start ≤ a → Bios.typeAt p.before a = none := fun ha =>
    typeAt_of_stop_le fun e he => (hp.below e he).1.trans ha
  rcases Nat.lt_or_ge a start with ha | ha
  · -- below the range of the call
    left
    have hout : ¬ (start ≤ a ∧ a < last) := fun hc => absurd hc.1 (Nat.not_le.mpr ha)
    rw [if_neg hout, ← hp.typeBefore a ha]
    by_cases hc : p.start ≤ a
    · have hin : p.start ≤ a ∧ a < p.start + o.1 := ⟨hc, by omega⟩
      change (Bios.typeAt p.before a).or _ = _
      rw [hbefore hc, Option.none_or, if_pos hin, if_pos hc, hv (by omega)]
    · have hnone : Bios.typeAt o.2 a = none := by
        refine typeAt_of_lt_start fun e he => ?_
        have := (ho.after e he).1
        omega
      have hnot : ¬ (p.start ≤ a ∧ a < p.start + o.1) := fun hc' => hc hc'.1
      change (Bios.typeAt p.before a).or _ = _
      rw [if_neg hnot, if_neg hc, hnone, Option.or_none]
  · have ht : t = if a < p.start + o.1 then v else Bios.typeAt o.2 a := by
      have hin : (p.start ≤ a ∧ a < p.start + o.1) ↔ a < p.start + o.1 :=
        and_iff_right (hle.trans ha)
      change (Bios.typeAt p.before a).or _ = _
      rw [hbefore (hle.trans ha), Option.none_or]
      simp only [hin]
    rw [ht]
    rcases Nat.lt_or_ge a last with ha' | ha'
    · left
      rw [if_pos (ha'.trans_le hstop), if_pos ⟨ha, ha'⟩]
    · -- above it
      have hout : ¬ (start ≤ a ∧ a < last) := fun hc => absurd hc.2 (Nat.not_lt.mpr ha')
      have hrest : (if a < p.start + o.1 then v else Bios.typeAt o.2 a) =
          Bios.typeAt p.rest a := by
        rw [← ho.typeAt a ha']
        by_cases hc : a < p.start + o.1
        · rw [if_pos hc, if_pos hc, hv' (ha'.trans_lt hc)]
        · rw [if_neg hc, if_neg hc]
      rw [if_neg hout, hrest]
      exact hp.typeAfter a ha'

end Loops

/-- **A call keeps the list well formed**, also when it is full. -/
theorem addE820_wellFormed (h : WellFormed l) (hfits : start + size < 2 ^ 64) :
    WellFormed (addE820 l start size type) := by
  by_cases hpos : size = 0
  · rwa [addE820, if_pos hpos]
  obtain ⟨p, o, hp, ho, heq⟩ := addE820_spec type h hpos hfits
  have hlt : start < start + size := by omega
  rw [heq]
  split
  · next ht =>
    unfold insertE820
    split
    · exact hp.join ho hlt
    · exact hp.insert ho hlt ht
  · exact hp.join ho hlt

/-- An entry is put in if there is room. -/
theorem length_insertE820 (before rest : List E820Entry) (e : E820Entry) :
    (before ++ insertE820 before rest e).length ≤ before.length + rest.length + 1 ∧
      (before.length + rest.length ≤ maxE820 →
        (before ++ insertE820 before rest e).length ≤ maxE820) := by
  unfold insertE820
  split
  · rw [List.length_append]
    exact ⟨Nat.le_succ _, id⟩
  · rw [List.length_append, List.length_cons]
    exact ⟨le_rfl, fun _ => by omega⟩

/-- A call adds at most two entries, the new item and one that is cut in two, and there are never
more than `CONFIG_MAX_E820`. -/
theorem addE820_length (type : BitVec 32) (h : WellFormed l) (hfits : start + size < 2 ^ 64) :
    (addE820 l start size type).length ≤ l.length + 2 ∧
      (l.length ≤ maxE820 → (addE820 l start size type).length ≤ maxE820) := by
  by_cases hpos : size = 0
  · rw [addE820, if_pos hpos]
    exact ⟨Nat.le_add_right _ _, id⟩
  obtain ⟨p, o, hp, ho, heq⟩ := addE820_spec type h hpos hfits
  have hlen := hp.length
  have hfull := hp.full
  have hlen' := ho.length
  rw [heq]
  split
  · obtain ⟨hle, hmax⟩ := length_insertE820 p.before o.2 ⟨p.start, o.1, type⟩
    exact ⟨by omega, fun hl => hmax (by have := hfull hl; omega)⟩
  · rw [List.length_append]
    exact ⟨by omega, fun hl => by have := hfull hl; omega⟩

/-- The type that an address has after a call. -/
def typeAfter (l : List E820Entry) (start size : ℕ) (type : BitVec 32) (a : ℕ) :
    Option (BitVec 32) :=
  if start ≤ a ∧ a < start + size then if type = e820Hole then none else some type else typeAt l a

/-- **A call gives its range its type, and changes no other address**; when fewer than two entries
are free, an address may lose its type. -/
theorem addE820_typeAt (type : BitVec 32) (h : WellFormed l) (hfits : start + size < 2 ^ 64)
    (a : ℕ) :
    typeAt (addE820 l start size type) a = typeAfter l start size type a ∨
      maxE820 < l.length + 2 ∧ typeAt (addE820 l start size type) a = none := by
  by_cases hpos : size = 0
  · left
    rw [addE820, if_pos hpos, typeAfter, if_neg (by omega)]
  obtain ⟨p, o, hp, ho, heq⟩ := addE820_spec type h hpos hfits
  have hlt : start < start + size := by omega
  rw [heq, typeAfter]
  by_cases ht : type = e820Hole
  · -- the range is taken out
    rw [if_neg (not_not_intro ht), if_pos ht, ho.typeAt_append p.before p.start]
    refine (hp.typeAt ho none ?_ ?_ hlt a).imp_right (And.imp_left fun hfull => by omega)
    · exact fun hc => absurd (hp.hole ht) hc.ne
    · exact fun hc => absurd (ho.hole ht) hc.ne'
  · have hlen := hp.length
    have hlen' := ho.length
    have hput := hp.typeAt ho (some type) (fun _ => rfl) (fun _ => rfl) hlt a
    rw [if_pos ht, if_neg ht, insertE820]
    split
    · -- the list is full, and the new item is lost
      next hfull =>
      rw [ho.typeAt_append p.before p.start]
      by_cases hc : p.start ≤ a ∧ a < p.start + o.1
      · refine .inr ⟨by omega, ?_⟩
        rw [if_pos hc, Option.or_none]
        exact typeAt_of_stop_le fun e he => (hp.below e he).1.trans hc.1
      · rw [if_neg hc] at hput ⊢
        exact hput.imp_right (And.imp_left fun hfull => by omega)
    · rw [typeAt_append, typeAt_cons]
      exact hput.imp_right (And.imp_left fun hfull => by omega)

end Coremu.Bios

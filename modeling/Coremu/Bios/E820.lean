import Coremu.Bios.Memmap

/-!
# The memory map after any calls

`add_e820` is called by all of the BIOS, with ranges that overlap each other.  The list has a fixed
number of places, and `insert_e820` drops an entry when there is none.

## Main definitions

* `Call`, `e820List` — the calls, and the list after them.
* `lastType` — the type that the last call is to give to an address.
* `ramProbe` — the calls at boot.
* `findHighArea` — the highest area of memory that is large enough.

## Main results

* `e820_wellFormed` — **the list is sorted, free of overlaps and joined, after any calls.**
* `e820_last_call` — **the type of an address is that of the last call that covers it.**
* `e820_never_wrong` — **no address has a wrong type**, also when the list is full.
* `findHighArea_highest` — **no area above the one that is found would have been suitable**, for
  sizes below 4G less 1M.
* `ramProbe_memory` — **the map at boot declares no memory between 640K and 1M.**
-/

namespace Coremu.Bios

/-! ### A sequence of calls -/

/-- The arguments of a call of `add_e820`. -/
structure Call where
  start : ℕ
  size : ℕ
  type : BitVec 32
  deriving DecidableEq, Repr

/-- The range of the call ends below `2 ^ 64`. -/
def Call.Fits (c : Call) : Prop := c.start + c.size < 2 ^ 64

/-- The address is in the range of the call. -/
def Call.Covers (c : Call) (a : ℕ) : Prop := c.start ≤ a ∧ a < c.start + c.size

instance (c : Call) (a : ℕ) : Decidable (c.Covers a) :=
  inferInstanceAs (Decidable (c.start ≤ a ∧ a < c.start + c.size))

/-- The type that the call is to give to its addresses. -/
def Call.gives (c : Call) : Option (BitVec 32) :=
  if c.type = e820Hole then none else some c.type

/-- The list after `memmap_setup` and some calls of `add_e820`. -/
def e820List (calls : List Call) : List E820Entry :=
  calls.foldl (fun l c => addE820 l c.start c.size c.type) []

/-- The type of an address that the last call that covers it is to give. -/
def lastType (calls : List Call) (a : ℕ) : Option (BitVec 32) :=
  (calls.reverse.find? fun c => decide (c.Covers a)).bind Call.gives

variable {calls : List Call}

theorem e820List_concat (calls : List Call) (c : Call) :
    e820List (calls ++ [c]) = addE820 (e820List calls) c.start c.size c.type := by
  simp [e820List]

theorem lastType_concat (calls : List Call) (c : Call) (a : ℕ) :
    lastType (calls ++ [c]) a = if c.Covers a then c.gives else lastType calls a := by
  unfold lastType
  rw [List.reverse_append, List.reverse_singleton, List.singleton_append, List.find?_cons]
  by_cases hc : c.Covers a
  · simp [hc]
  · simp [hc]

theorem wellFormed_e820List (hfits : ∀ c ∈ calls, c.Fits) : WellFormed (e820List calls) := by
  induction calls using List.reverseRecOn with
  | nil => exact wellFormed_nil
  | append_singleton calls c ih =>
    rw [e820List_concat]
    exact addE820_wellFormed (ih fun d hd => hfits d (List.mem_append_left _ hd))
      (hfits c (List.mem_append_right _ (List.mem_singleton_self c)))

theorem e820List_length (hfits : ∀ c ∈ calls, c.Fits) : (e820List calls).length ≤ maxE820 := by
  induction calls using List.reverseRecOn with
  | nil => exact Nat.zero_le _
  | append_singleton calls c ih =>
    have hfits' : ∀ d ∈ calls, d.Fits := fun d hd => hfits d (List.mem_append_left _ hd)
    rw [e820List_concat]
    exact (addE820_length c.type (wellFormed_e820List hfits')
      (hfits c (List.mem_append_right _ (List.mem_singleton_self c)))).2 (ih hfits')

/-- One more call. -/
theorem typeAfter_concat (calls : List Call) (c : Call) {a : ℕ}
    (h : typeAt (e820List calls) a = lastType calls a) :
    typeAfter (e820List calls) c.start c.size c.type a = lastType (calls ++ [c]) a := by
  rw [lastType_concat, ← h]
  rfl

/-- The type of an address is that of the last call that covers it, unless it was lost when fewer
than two entries were free. -/
theorem typeAt_e820List (hfits : ∀ c ∈ calls, c.Fits) (a : ℕ) :
    typeAt (e820List calls) a = lastType calls a ∨
      (∃ p c q, calls = p ++ c :: q ∧ maxE820 < (e820List p).length + 2) ∧
        typeAt (e820List calls) a = none := by
  induction calls using List.reverseRecOn with
  | nil => exact .inl rfl
  | append_singleton calls c ih =>
    have hfits' : ∀ d ∈ calls, d.Fits := fun d hd => hfits d (List.mem_append_left _ hd)
    have hc : c.Fits := hfits c (List.mem_append_right _ (List.mem_singleton_self c))
    rw [e820List_concat]
    rcases addE820_typeAt c.type (wellFormed_e820List hfits') hc a with h | ⟨hfull, h⟩
    · rw [h]
      rcases ih hfits' with hl | ⟨⟨p, d, q, hd, hfull⟩, hl⟩
      · exact .inl (typeAfter_concat calls c hl)
      · -- it was lost before: the call gives it a type again, or leaves it without one
        by_cases hcov : c.Covers a
        · left
          rw [lastType_concat, if_pos hcov]
          exact if_pos hcov
        · right
          refine ⟨⟨p, d, q ++ [c], ?_, hfull⟩, (if_neg hcov).trans hl⟩
          rw [hd, List.append_assoc, List.cons_append]
    · exact .inr ⟨⟨calls, c, [], rfl, hfull⟩, h⟩

theorem e820List_length_le (hfits : ∀ c ∈ calls, c.Fits) :
    (e820List calls).length ≤ 2 * calls.length := by
  induction calls using List.reverseRecOn with
  | nil => exact Nat.zero_le _
  | append_singleton calls c ih =>
    have hfits' : ∀ d ∈ calls, d.Fits := fun d hd => hfits d (List.mem_append_left _ hd)
    have hlen := (addE820_length c.type (wellFormed_e820List hfits')
      (hfits c (List.mem_append_right _ (List.mem_singleton_self c)))).1
    have ih := ih hfits'
    rw [e820List_concat, List.length_append, List.length_singleton]
    omega

/-- Sixteen calls always find room. -/
theorem room_of_length (hfits : ∀ c ∈ calls, c.Fits) (hlen : calls.length ≤ 16) (p : List Call)
    (c : Call) (q : List Call) (h : calls = p ++ c :: q) : (e820List p).length + 2 ≤ maxE820 := by
  have hfits' : ∀ d ∈ p, d.Fits := fun d hd => hfits d (by rw [h]; exact List.mem_append_left _ hd)
  have hp := e820List_length_le hfits'
  rw [h, List.length_append, List.length_cons] at hlen
  unfold maxE820
  omega

/-! ### The map at boot -/

/-- The bytes of the nvram that hold the size of memory. -/
structure Nvram where
  extmemLow : BitVec 8
  extmemHigh : BitVec 8
  extmem2Low : BitVec 8
  extmem2High : BitVec 8
  highmemLow : BitVec 8
  highmemMid : BitVec 8
  highmemHigh : BitVec 8

/-- `RamSize`, a number of 32 bits. -/
def Nvram.ramSize (n : Nvram) : ℕ :=
  let rs := n.extmem2Low.toNat * 2 ^ 16 + n.extmem2High.toNat * 2 ^ 24
  if rs ≠ 0 then (rs + 16 * 1024 * 1024) % 2 ^ 32
  else n.extmemLow.toNat * 2 ^ 10 + n.extmemHigh.toNat * 2 ^ 18 + 1024 * 1024

/-- `RamSizeOver4G` -/
def Nvram.ramSizeOver4G (n : Nvram) : ℕ :=
  n.highmemLow.toNat * 2 ^ 16 + n.highmemMid.toNat * 2 ^ 24 + n.highmemHigh.toNat * 2 ^ 32

/-- The calls of `ram_probe` on an emulator that has no entries of its own; `seg` and `kb` are the
segment of the extended data area and its size. -/
def ramProbe (n : Nvram) (seg : BitVec 16) (kb : BitVec 8) (kvm : Bool) : List Call :=
  [⟨0, n.ramSize, e820Ram⟩, ⟨0x100000000, n.ramSizeOver4G, e820Ram⟩,
    ⟨0xfffc0000, 256 * 1024, e820Reserved⟩, ⟨0xa0000, 0xf0000 - 0xa0000, e820Hole⟩,
    ⟨seg.toNat * 16, kb.toNat * 1024, e820Reserved⟩, ⟨0xf0000, 0x10000, e820Reserved⟩] ++
  if kvm then [⟨0xfffbc000, 4 * 4096, e820Reserved⟩] else []

theorem ramProbe_fits (n : Nvram) (seg : BitVec 16) (kb : BitVec 8) (kvm : Bool) :
    ∀ c ∈ ramProbe n seg kb kvm, c.Fits := by
  have hlow : n.ramSize < 2 ^ 33 := by
    have h1 := n.extmemLow.isLt
    have h2 := n.extmemHigh.isLt
    unfold Nvram.ramSize
    dsimp only
    split <;> omega
  have hhigh : n.ramSizeOver4G < 2 ^ 41 := by
    have h1 := n.highmemLow.isLt
    have h2 := n.highmemMid.isLt
    have h3 := n.highmemHigh.isLt
    unfold Nvram.ramSizeOver4G
    omega
  have hseg := seg.isLt
  have hkb := kb.isLt
  intro c hc
  cases kvm <;> simp only [ramProbe, List.mem_append, List.mem_cons, List.not_mem_nil, or_false,
    if_true, Bool.false_eq_true, if_false] at hc
  · rcases hc with rfl | rfl | rfl | rfl | rfl | rfl <;> (unfold Call.Fits; dsimp only; omega)
  · rcases hc with (rfl | rfl | rfl | rfl | rfl | rfl) | rfl <;>
      (unfold Call.Fits; dsimp only; omega)

/-- The last calls come first: what each of them gives, where it covers the address. -/
theorem lastType_ramProbe (n : Nvram) (seg : BitVec 16) (kb : BitVec 8) (kvm : Bool) (a : ℕ) :
    lastType (ramProbe n seg kb kvm) a =
      if kvm = true ∧ 0xfffbc000 ≤ a ∧ a < 0xfffc0000 then some e820Reserved
      else if 0xf0000 ≤ a ∧ a < 0x100000 then some e820Reserved
      else if seg.toNat * 16 ≤ a ∧ a < seg.toNat * 16 + kb.toNat * 1024 then some e820Reserved
      else if 0xa0000 ≤ a ∧ a < 0xf0000 then none
      else if 0xfffc0000 ≤ a ∧ a < 0x100000000 then some e820Reserved
      else if 0x100000000 ≤ a ∧ a < 0x100000000 + n.ramSizeOver4G then some e820Ram
      else if a < n.ramSize then some e820Ram
      else none := by
  have hbase : lastType (ramProbe n seg kb false) a =
      if 0xf0000 ≤ a ∧ a < 0x100000 then some e820Reserved
      else if seg.toNat * 16 ≤ a ∧ a < seg.toNat * 16 + kb.toNat * 1024 then some e820Reserved
      else if 0xa0000 ≤ a ∧ a < 0xf0000 then none
      else if 0xfffc0000 ≤ a ∧ a < 0x100000000 then some e820Reserved
      else if 0x100000000 ≤ a ∧ a < 0x100000000 + n.ramSizeOver4G then some e820Ram
      else if a < n.ramSize then some e820Ram
      else none := by
    change lastType ([] ++ [_] ++ [_] ++ [_] ++ [_] ++ [_] ++ [_]) a = _
    simp only [lastType_concat]
    simp [Call.Covers, Call.gives, lastType, e820Ram, e820Reserved, e820Hole]
  cases kvm with
  | false => simpa using hbase
  | true =>
    change lastType (ramProbe n seg kb false ++ [_]) a = _
    rw [lastType_concat, hbase]
    simp [Call.Covers, Call.gives, e820Reserved, e820Hole]

/-! ### The highest area -/

/-- The search of `find_high_area`, from the last entry down; `size` has 32 bits. -/
def searchDown (size : ℕ) : List E820Entry → Option E820Entry
  | [] => none
  | e :: l =>
      if e.type ≠ e820Ram ∨ 0xffffffff < e.stop ∨ e.size < size then searchDown size l
      else if e.stop < (1024 * 1024 + size) % 2 ^ 32 then none
      else some e

/-- `find_high_area` -/
def findHighArea (size : ℕ) (l : List E820Entry) : Option E820Entry := searchDown size l.reverse

/-- An area of memory below 4G that holds `size`, and that much above 1M. -/
structure E820Entry.Suitable (size : ℕ) (e : E820Entry) : Prop where
  type : e.type = e820Ram
  below : e.start + e.size ≤ 0xffffffff
  large : size ≤ e.size
  above : 1024 * 1024 + size ≤ e.start + e.size

variable {l : List E820Entry}

/-- The search goes down, so it may stop at the first end that is too low.  The size is such
that the sum does not wrap. -/
theorem searchDown_spec {size : ℕ} (hsize : 1024 * 1024 + size < 2 ^ 32) (hok : ∀ e ∈ l, e.Ok)
    (hsort : l.Pairwise fun x y => y.start + y.size ≤ x.start) :
    match searchDown size l with
    | some e => e ∈ l ∧ e.Suitable size ∧ ∀ y ∈ l, y.Suitable size → y.start ≤ e.start
    | none => ∀ y ∈ l, ¬ y.Suitable size := by
  induction l with
  | nil => exact fun _ hy => absurd hy List.not_mem_nil
  | cons e l ih =>
    obtain ⟨habove, hsort⟩ := List.pairwise_cons.mp hsort
    have hok' : ∀ y ∈ l, y.Ok := fun y hy => hok y (List.mem_cons_of_mem e hy)
    have hstop := (hok e List.mem_cons_self).stop_eq
    unfold searchDown
    rw [hstop, Nat.mod_eq_of_lt hsize]
    by_cases hskip : e.type ≠ e820Ram ∨ 0xffffffff < e.start + e.size ∨ e.size < size
    · -- the entry is not suitable
      have hnot : ¬ e.Suitable size := by
        intro hs
        rcases hskip with ht | hb | hl
        · exact ht hs.type
        · exact absurd hs.below (Nat.not_le.mpr hb)
        · exact absurd hs.large (Nat.not_le.mpr hl)
      rw [if_pos hskip]
      have ih := ih hok' hsort
      cases hf : searchDown size l with
      | none =>
        rw [hf] at ih
        intro y hy
        rcases List.mem_cons.mp hy with rfl | hy
        · exact hnot
        · exact ih y hy
      | some d =>
        rw [hf] at ih
        obtain ⟨hd, hs, hhigh⟩ := ih
        refine ⟨List.mem_cons_of_mem e hd, hs, fun y hy hys => ?_⟩
        rcases List.mem_cons.mp hy with rfl | hy
        · exact absurd hys hnot
        · exact hhigh y hy hys
    · rw [if_neg hskip]
      rw [not_or, not_or, not_not, not_lt, not_lt] at hskip
      obtain ⟨ht, hb, hl⟩ := hskip
      by_cases hlow : e.start + e.size < 1024 * 1024 + size
      · rw [if_pos hlow]
        intro y hy hs
        have hs := hs.above
        rcases List.mem_cons.mp hy with rfl | hy
        · omega
        · have hy := habove y hy
          omega
      · rw [if_neg hlow]
        refine ⟨List.mem_cons_self, ⟨ht, hb, hl, not_lt.mp hlow⟩, fun y hy _ => ?_⟩
        rcases List.mem_cons.mp hy with rfl | hy
        · exact le_rfl
        · have hy := habove y hy
          omega

/-! ### The results -/

/-- A machine with 2G of memory. -/
def twoGig : Nvram := ⟨0, 0, 0, 0x7f, 0, 0, 0⟩

/-- Its map, without kvm and with 1K for the extended data area. -/
def twoGigCalls : List Call := ramProbe twoGig 0x9fc0 1 false

/-- **After any calls the list is sorted, free of overlaps and empty entries, and joined**, and has
at most `CONFIG_MAX_E820` entries. -/
theorem e820_wellFormed (hfits : ∀ c ∈ calls, c.Fits) :
    WellFormed (e820List calls) ∧ (e820List calls).length ≤ maxE820 :=
  ⟨wellFormed_e820List hfits, e820List_length hfits⟩

/-- The six calls for 2G of memory leave five entries. -/
theorem e820_wellFormed_twoGig : e820List twoGigCalls =
    [⟨0, 0x9fc00, e820Ram⟩, ⟨0x9fc00, 0x400, e820Reserved⟩, ⟨0xf0000, 0x10000, e820Reserved⟩,
      ⟨0x100000, 0x7ff00000, e820Ram⟩, ⟨0xfffc0000, 0x40000, e820Reserved⟩] ∧
    WellFormed (e820List twoGigCalls) ∧ (e820List twoGigCalls).length ≤ maxE820 :=
  ⟨by decide, e820_wellFormed (ramProbe_fits _ _ _ _)⟩

/-- **The type of an address is that of the last call that covers it**, if two entries were free
at every call. -/
theorem e820_last_call (hfits : ∀ c ∈ calls, c.Fits)
    (hroom : ∀ p c q, calls = p ++ c :: q → (e820List p).length + 2 ≤ maxE820) (a : ℕ) :
    typeAt (e820List calls) a = lastType calls a := by
  rcases typeAt_e820List hfits a with h | ⟨⟨p, c, q, hcalls, hfull⟩, -⟩
  · exact h
  · exact absurd (hroom p c q hcalls) (Nat.not_le.mpr hfull)

/-- The extended data area is reserved, although the memory around it is not. -/
theorem e820_last_call_ebda : lastType twoGigCalls 0x9fc00 = some e820Reserved ∧
    typeAt (e820List twoGigCalls) 0x9fc00 = lastType twoGigCalls 0x9fc00 :=
  ⟨by decide, e820_last_call (ramProbe_fits _ _ _ _)
    (room_of_length (ramProbe_fits _ _ _ _) (by decide)) 0x9fc00⟩

/-- **No address ever has a wrong type**: also when the list is full, an address has the type of
the last call that covers it, or none. -/
theorem e820_never_wrong (hfits : ∀ c ∈ calls, c.Fits) (a : ℕ) :
    typeAt (e820List calls) a = lastType calls a ∨ typeAt (e820List calls) a = none :=
  (typeAt_e820List hfits a).imp_right And.right

/-- One page in two, with a page more than there are entries. -/
def manyCalls : List Call := (List.range 33).map fun i => ⟨2 * i, 1, e820Ram⟩

/-- The last page is lost. -/
theorem e820_never_wrong_full : typeAt (e820List manyCalls) 64 = none ∧
    lastType manyCalls 64 = some e820Ram ∧
      (typeAt (e820List manyCalls) 64 = lastType manyCalls 64 ∨
        typeAt (e820List manyCalls) 64 = none) := by
  refine ⟨by decide, by decide, e820_never_wrong (fun c hc => ?_) 64⟩
  obtain ⟨i, hi, rfl⟩ := List.mem_map.mp hc
  have hi := List.mem_range.mp hi
  change 2 * i + 1 < 2 ^ 64
  omega

/-- **`find_high_area` finds the highest suitable area**, and nothing only if there is none,
although it stops at the first area that ends too low.  The size is below 4G less 1M, so that
`1024 * 1024 + size` does not wrap. -/
theorem findHighArea_highest (hfits : ∀ c ∈ calls, c.Fits) {size : ℕ}
    (hsize : 1024 * 1024 + size < 2 ^ 32) :
    (∀ e, findHighArea size (e820List calls) = some e → e ∈ e820List calls ∧ e.Suitable size ∧
      ∀ y ∈ e820List calls, y.Suitable size → y.start ≤ e.start) ∧
    (findHighArea size (e820List calls) = none → ∀ y ∈ e820List calls, ¬ y.Suitable size) := by
  have hwf := wellFormed_e820List hfits
  have hspec := searchDown_spec (l := (e820List calls).reverse) hsize
    (fun e he => hwf.ok e (List.mem_reverse.mp he)) ?_
  · simp only [List.mem_reverse] at hspec
    unfold findHighArea
    cases hf : searchDown size (e820List calls).reverse with
    | none =>
      rw [hf] at hspec
      exact ⟨fun e he => (by cases he), fun _ => hspec⟩
    | some d =>
      rw [hf] at hspec
      refine ⟨fun e he => ?_, fun h => by cases h⟩
      cases he
      exact hspec
  · rw [List.pairwise_reverse]
    exact hwf.canonical.below.imp fun hxy => hxy.1

/-- With 2G of memory it is the memory above 1M. -/
theorem findHighArea_highest_twoGig :
    findHighArea 0x10000 (e820List twoGigCalls) = some ⟨0x100000, 0x7ff00000, e820Ram⟩ ∧
      ∀ y ∈ e820List twoGigCalls, y.Suitable 0x10000 → y.start ≤ 0x100000 := by
  have hfind : findHighArea 0x10000 (e820List twoGigCalls) =
      some ⟨0x100000, 0x7ff00000, e820Ram⟩ := by decide
  have hhigh := findHighArea_highest (ramProbe_fits twoGig 0x9fc0 1 false)
    (show 1024 * 1024 + 0x10000 < 2 ^ 32 by decide)
  exact ⟨hfind, (hhigh.1 _ hfind).2.2⟩

/-- For a larger size the sum wraps, and an area is found that does not end that much above 1M. -/
example : findHighArea 0xfff80000 (e820List [⟨0, 0xfffc0000, e820Ram⟩]) =
    some ⟨0, 0xfffc0000, e820Ram⟩ ∧ 0xfffc0000 < 1024 * 1024 + 0xfff80000 := by
  decide

/-- **The map at boot declares no memory between 640K and 1M**, whatever the size of memory is, and
no memory that the nvram does not report. -/
theorem ramProbe_memory (n : Nvram) (seg : BitVec 16) (kb : BitVec 8) (kvm : Bool) (a : ℕ) :
    (typeAt (e820List (ramProbe n seg kb kvm)) a = some e820Ram →
      (a < 0xa0000 ∨ 0x100000 ≤ a) ∧
        (a < n.ramSize ∨ 0x100000000 ≤ a ∧ a < 0x100000000 + n.ramSizeOver4G)) ∧
    (0xf0000 ≤ a ∧ a < 0x100000 →
      typeAt (e820List (ramProbe n seg kb kvm)) a = some e820Reserved) := by
  have hfits := ramProbe_fits n seg kb kvm
  have hlen : (ramProbe n seg kb kvm).length ≤ 16 := by cases kvm <;> simp [ramProbe]
  have hne : some e820Reserved ≠ some e820Ram := by decide
  have htype : typeAt (e820List (ramProbe n seg kb kvm)) a =
      lastType (ramProbe n seg kb kvm) a := by
    rcases typeAt_e820List hfits a with h | ⟨⟨p, c, q, hcalls, hfull⟩, -⟩
    · exact h
    · exact absurd (room_of_length hfits hlen p c q hcalls) (Nat.not_le.mpr hfull)
  rw [htype, lastType_ramProbe]
  constructor
  · intro h
    split_ifs at h with h1 h2 h3 h4 h5 h6 h7
    · exact absurd h hne
    · exact absurd h hne
    · exact absurd h hne
    · exact absurd h hne
    · exact ⟨.inr (by omega), .inr h6⟩
    · exact ⟨by omega, .inl h7⟩
  · intro h
    rw [if_pos h, ite_self]

/-- The area of the BIOS is reserved with 2G of memory. -/
theorem ramProbe_memory_twoGig : typeAt (e820List twoGigCalls) 0xf0000 = some e820Reserved :=
  (ramProbe_memory twoGig 0x9fc0 1 false 0xf0000).2 (by decide)

end Coremu.Bios

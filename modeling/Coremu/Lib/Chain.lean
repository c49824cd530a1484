import Mathlib.Logic.Function.Basic
import Mathlib.Data.List.Nodup
import Mathlib.Tactic.Common

/-!
# Singly linked chains, and queues stored in them

`Chain next a L b` says that following `next` from `a` visits the nodes `L`, in
this order, and then arrives at `b`.  With `b` the null address and `L` free of
repetitions it is the shape of a linked list in memory; `next` is the memory
read as a function.

`DummyList` is the shape in which concurrent queues are usually stored: a linked
list whose first node is a dummy, and whose other nodes hold the values.

## Main definitions

* `Chain` — what following `next` visits.
* `Reachable`, `LastNode` — the nodes of a list in memory, and the last of them.
* `DummyList` — a list that stores a queue.

## Main results

* `Chain.congr` — a chain only depends on `next` at its nodes.
* `Chain.unique` — the end determines the nodes.
* `Chain.next_mem`, `Chain.eq_last` — the successor of a node is a node or the
  end, and only the last node points to the end.
* `Chain.eq_last_two` — a node whose successor points to the end is the last but one.
* `Chain.link` — appending a node at the end.
* `Reachable.unique`, `Reachable.congr` — the memory determines the nodes, and only their
  successors matter.
* `DummyList.push`, `DummyList.front` — linking a node behind the last one appends
  its value; moving to the second node removes the first value.
-/

namespace Linked

variable {α : Type*}

/-- Following `next` from `a` visits exactly `L` before arriving at `b`. -/
def Chain (next : α → α) : α → List α → α → Prop
  | a, [], b => a = b
  | a, x :: l, b => a = x ∧ Chain next (next x) l b

namespace Chain

variable {next next' : α → α} {a b x y : α} {l : List α}

@[simp] theorem nil_iff : Chain next a [] b ↔ a = b := Iff.rfl

@[simp] theorem cons_iff : Chain next a (x :: l) b ↔ a = x ∧ Chain next (next x) l b := Iff.rfl

/-- A chain only depends on `next` at its nodes. -/
theorem congr (h : Chain next a l b) (hn : ∀ z ∈ l, next' z = next z) : Chain next' a l b := by
  induction l generalizing a with
  | nil => exact h
  | cons z l ih =>
    refine ⟨h.1, ?_⟩
    rw [hn z (by simp)]
    exact ih h.2 fun w hw => hn w (by simp [hw])

/-- Writing outside a chain leaves it as it is. -/
theorem update [DecidableEq α] (h : Chain next a l b) (hx : x ∉ l) :
    Chain (Function.update next x y) a l b := by
  refine h.congr fun z hz => ?_
  have hzx : z ≠ x := fun e => hx (e ▸ hz)
  rw [Function.update_of_ne hzx]

/-- The last node of a chain is the one that points to its end. -/
theorem concat_iff : Chain next a (l ++ [x]) b ↔ Chain next a l x ∧ next x = b := by
  induction l generalizing a with
  | nil => simp
  | cons z l ih =>
    rw [List.cons_append, cons_iff, cons_iff, ih, and_assoc]

/-- A non-empty chain starts at its first node. -/
theorem exists_cons (h : Chain next a l b) (hab : a ≠ b) :
    ∃ m, l = a :: m ∧ Chain next (next a) m b := by
  cases l with
  | nil => exact absurd h hab
  | cons z m =>
    obtain ⟨rfl, h⟩ := h
    exact ⟨m, rfl, h⟩

/-- The successor of a node of a chain is a node of it, or its end. -/
theorem next_mem (h : Chain next a l b) (hx : x ∈ l) : next x ∈ l ∨ next x = b := by
  induction l generalizing a with
  | nil => simp at hx
  | cons z l ih =>
    obtain ⟨rfl, h⟩ := h
    rcases List.mem_cons.mp hx with rfl | hx
    · cases l with
      | nil => exact Or.inr h
      | cons w l => exact Or.inl (by rw [h.1]; simp)
    · rcases ih h hx with h' | h'
      · exact Or.inl (List.mem_cons_of_mem _ h')
      · exact Or.inr h'

/-- Only the last node points to the end, if the end is no node. -/
theorem eq_last (h : Chain next a l b) (hb : b ∉ l) (hx : x ∈ l) (hn : next x = b) :
    ∃ m, l = m ++ [x] := by
  induction l generalizing a with
  | nil => simp at hx
  | cons z l ih =>
    obtain ⟨rfl, h⟩ := h
    rw [List.mem_cons, not_or] at hb
    by_cases hxl : x ∈ l
    · obtain ⟨m, rfl⟩ := ih h hb.2 hxl
      exact ⟨a :: m, rfl⟩
    · obtain rfl : x = a := (List.mem_cons.mp hx).resolve_right hxl
      cases l with
      | nil => exact ⟨[], rfl⟩
      | cons w l =>
        -- the successor would be a node, so not the end
        have hbw : b = w := hn.symm.trans h.1
        exact absurd (by simp [hbw]) hb.2

/-- The node before the one that points to the end is the last but one. -/
theorem eq_last_two (h : Chain next a l b) (hnd : l.Nodup) (hb : b ∉ l) (hx : x ∈ l)
    (hne : next x ≠ b) (hn : next (next x) = b) : ∃ m, l = m ++ [x, next x] := by
  obtain ⟨m, rfl⟩ := h.eq_last hb ((h.next_mem hx).resolve_right hne) hn
  have hxm : x ∈ m := by
    rcases List.mem_append.mp hx with hx | hx
    · exact hx
    · rw [← List.mem_singleton.mp hx] at hn
      exact absurd hn hne
  have hlast : next x ∉ m := fun hm =>
    (List.nodup_append.mp hnd).2.2 _ hm _ (List.mem_singleton_self _) rfl
  -- up to the last node, `x` is the one that points to it
  obtain ⟨k, rfl⟩ := (concat_iff.mp h).1.eq_last hlast hxm rfl
  exact ⟨k, List.append_assoc _ _ _⟩

/-- The nodes of a chain that does not pass its end are determined by the end. -/
theorem unique {m : List α} (h : Chain next a l b) (h' : Chain next a m b) (hb : b ∉ l)
    (hb' : b ∉ m) : l = m := by
  induction l generalizing a m with
  | nil =>
    cases m with
    | nil => rfl
    | cons z m => exact absurd (by rw [← h, h'.1]; simp) hb'
  | cons x l ih =>
    cases m with
    | nil => exact absurd (by rw [← h.1, nil_iff.mp h']; simp) hb
    | cons z m =>
      obtain ⟨rfl, h⟩ := h
      obtain ⟨rfl, h'⟩ := h'
      rw [ih h h' (fun hm => hb (by simp [hm])) fun hm => hb' (by simp [hm])]

/-- The successor of a node is not the first node. -/
theorem next_ne_head (h : Chain next a l b) (hnd : l.Nodup) (hb : b ∉ l) (hx : x ∈ l) :
    next x ≠ a := by
  induction l generalizing a with
  | nil => simp at hx
  | cons z l ih =>
    obtain ⟨rfl, h⟩ := h
    rw [List.nodup_cons] at hnd
    rw [List.mem_cons, not_or] at hb
    rcases List.mem_cons.mp hx with rfl | hx
    · cases l with
      | nil => rw [nil_iff.mp h]; exact hb.1
      | cons w l => rw [h.1]; exact fun e => hnd.1 (by simp [e])
    · rcases h.next_mem hx with h' | h'
      · exact fun e => hnd.1 (e ▸ h')
      · exact fun e => hb.1 (h'.symm.trans e)

/-- **Linking a node behind the last one** makes it the last. -/
theorem link [DecidableEq α] (h : Chain next a (l ++ [x]) b) (hx : x ∉ l)
    (hy : y ∉ l ++ [x]) (hyb : next y = b) :
    Chain (Function.update next x y) a (l ++ [x, y]) b := by
  have h1 : Chain next a l x := (concat_iff.mp h).1
  have hyx : y ≠ x := fun e => hy (by simp [e])
  rw [show l ++ [x, y] = (l ++ [x]) ++ [y] by simp, concat_iff, concat_iff]
  refine ⟨⟨h1.update hx, Function.update_self _ _ _⟩, ?_⟩
  rw [Function.update_of_ne hyx, hyb]

end Chain

/-! ### The nodes of a list -/

/-- `nodes` are the nodes reachable from `head` by `next`, in this order, up to `null`. -/
def Reachable (next : α → α) (null head : α) (nodes : List α) : Prop :=
  Chain next head nodes null ∧ null ∉ nodes

/-- `a` is the last node reachable from `head`. -/
def LastNode (next : α → α) (null head a : α) : Prop :=
  ∃ nodes, Reachable next null head nodes ∧ nodes.getLast? = some a

namespace Reachable

variable {next next' : α → α} {null head x : α} {m n : List α}

theorem unique (hm : Reachable next null head m) (hn : Reachable next null head n) : m = n :=
  hm.1.unique hn.1 hm.2 hn.2

/-- Only the successors of the nodes matter. -/
theorem congr (h : Reachable next null head n) (hn : ∀ z ∈ n, next' z = next z) :
    Reachable next' null head n :=
  ⟨h.1.congr hn, h.2⟩

/-- A change at a node that is not in the list. -/
theorem off (h : Reachable next null head n) (hx : x ∉ n) (hn : ∀ z, z ≠ x → next' z = next z) :
    Reachable next' null head n :=
  h.congr fun z hz => hn z fun e => hx (e ▸ hz)

end Reachable

/-! ### Queues with a dummy node -/

/-- The nodes reachable from `head` hold, behind a dummy node, the values `vals`. -/
structure DummyList {β : Type*} (next : α → α) (val : α → β) (null head : α) (nodes : List α)
    (vals : List β) : Prop where
  chain : Chain next head nodes null
  head_ne : head ≠ null
  nodup : nodes.Nodup
  null_notMem : null ∉ nodes
  vals_eq : vals = nodes.tail.map val

namespace DummyList

variable {β : Type*} {next next' : α → α} {val val' : α → β} {null head x y : α}
  {nodes : List α} {vals : List β}

theorem reachable (h : DummyList next val null head nodes vals) :
    Reachable next null head nodes :=
  ⟨h.chain, h.null_notMem⟩

/-- The list only depends on its own nodes. -/
theorem congr (h : DummyList next val null head nodes vals) (hn : ∀ z ∈ nodes, next' z = next z)
    (hv : ∀ z ∈ nodes, val' z = val z) : DummyList next' val' null head nodes vals := by
  refine { h with chain := h.chain.congr hn, vals_eq := ?_ }
  rw [h.vals_eq]
  exact List.map_congr_left fun z hz => (hv z (List.mem_of_mem_tail hz)).symm

/-- The dummy is the first node. -/
theorem nodes_eq (h : DummyList next val null head nodes vals) :
    ∃ l, nodes = head :: l ∧ Chain next (next head) l null :=
  h.chain.exists_cons h.head_ne

theorem head_mem (h : DummyList next val null head nodes vals) : head ∈ nodes := by
  obtain ⟨l, rfl, -⟩ := h.nodes_eq
  exact List.mem_cons_self

theorem length_tail (h : DummyList next val null head nodes vals) :
    nodes.tail.length = vals.length := by
  rw [h.vals_eq, List.length_map]

theorem length_eq (h : DummyList next val null head nodes vals) :
    nodes.length = vals.length + 1 := by
  obtain ⟨l, rfl, -⟩ := h.nodes_eq
  rw [h.vals_eq, List.length_map, List.tail_cons, List.length_cons]

theorem next_mem (h : DummyList next val null head nodes vals) (hx : x ∈ nodes)
    (hn : next x ≠ null) : next x ∈ nodes :=
  (h.chain.next_mem hx).resolve_right hn

theorem next_ne_head (h : DummyList next val null head nodes vals) (hx : x ∈ nodes) :
    next x ≠ head :=
  h.chain.next_ne_head h.nodup h.null_notMem hx

/-- With no successor of the dummy, it is the only node. -/
theorem eq_singleton (h : DummyList next val null head nodes vals) (hn : next head = null) :
    nodes = [head] := by
  obtain ⟨l, rfl, hc⟩ := h.nodes_eq
  cases l with
  | nil => rfl
  | cons b l =>
    have hb : null = b := hn.symm.trans hc.1
    exact absurd (by simp [hb]) h.null_notMem

/-- With a successor of the dummy, that node holds the first value, and it is the
dummy of the other values. -/
theorem front (h : DummyList next val null head nodes vals) (hn : next head ≠ null) :
    ∃ l vs, nodes = head :: next head :: l ∧ vals = val (next head) :: vs ∧
      head ∉ next head :: l ∧ DummyList next val null (next head) (next head :: l) vs := by
  obtain ⟨l, rfl, hc⟩ := h.nodes_eq
  obtain ⟨m, rfl, hc'⟩ := hc.exists_cons hn
  have hnd := List.nodup_cons.mp h.nodup
  refine ⟨m, m.map val, rfl, h.vals_eq, hnd.1, ⟨rfl, hc'⟩, hn, hnd.2, ?_, rfl⟩
  exact fun hm => h.null_notMem (List.mem_cons_of_mem _ hm)

/-- No value is stored exactly when the dummy has no successor. -/
theorem vals_eq_nil_iff (h : DummyList next val null head nodes vals) :
    vals = [] ↔ next head = null := by
  constructor
  · intro hv
    by_contra hn
    obtain ⟨l, vs, -, hvs, -⟩ := h.front hn
    rw [hv] at hvs
    cases hvs
  · intro hn
    rw [h.vals_eq, h.eq_singleton hn]
    rfl

/-- A node without successor is the last one. -/
theorem getLast (h : DummyList next val null head nodes vals) (hx : x ∈ nodes)
    (hn : next x = null) : nodes.getLast? = some x := by
  obtain ⟨m, rfl⟩ := h.chain.eq_last h.null_notMem hx hn
  simp

/-- The last node has no successor. -/
theorem next_getLast (h : DummyList next val null head nodes vals)
    (hx : nodes.getLast? = some x) : next x = null := by
  obtain ⟨m, rfl⟩ := List.getLast?_eq_some_iff.mp hx
  exact (Chain.concat_iff.mp h.chain).2

/-- **Linking a node behind the last one appends its value.** -/
theorem push (h : DummyList next val null head nodes vals) (hx : nodes.getLast? = some x)
    (hy : y ∉ nodes) (hyn : next y = null) (hy0 : y ≠ null) (hxy : next' x = y)
    (hn : ∀ z, z ≠ x → next' z = next z) :
    DummyList next' val null head (nodes ++ [y]) (vals ++ [val y]) := by
  classical
  have hne : nodes ≠ [] := fun e => by rw [e] at hx; cases hx
  have htail : (nodes ++ [y]).tail = nodes.tail ++ [y] := List.tail_append_of_ne_nil hne
  obtain ⟨m, rfl⟩ := List.getLast?_eq_some_iff.mp hx
  refine ⟨?_, h.head_ne, ?_, ?_, ?_⟩
  · have hxm : x ∉ m := fun hm => (List.nodup_append.mp h.nodup).2.2 x hm x (by simp) rfl
    have hupd : next' = Function.update next x y := by
      funext z
      by_cases hz : z = x
      · rw [hz, hxy, Function.update_self]
      · rw [hn z hz, Function.update_of_ne hz]
    rw [List.append_assoc, hupd]
    exact h.chain.link hxm hy hyn
  · refine List.nodup_append.mpr ⟨h.nodup, List.nodup_singleton y, fun a ha b hb e => ?_⟩
    rw [List.mem_singleton] at hb
    exact hy (hb ▸ e ▸ ha)
  · rw [List.mem_append, List.mem_singleton, not_or]
    exact ⟨h.null_notMem, hy0.symm⟩
  · rw [htail, List.map_append, ← h.vals_eq]
    rfl

end DummyList

end Linked

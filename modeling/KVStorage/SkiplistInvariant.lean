import KVStorage.Skiplist
import Mathlib.Tactic.Common

/-!
# The representation invariant and the descent of `find`

A list is described by its towers: one per node after the head, in key order,
with the number of levels the node is linked on. Level `i` chains exactly the
towers higher than `i`, so a tower always occupies contiguous levels from 0.
-/

namespace KVStorage

set_option autoImplicit false

open LinkedChain

/-- A node as the levels see it. -/
structure Tower where
  addr : Addr
  key : Int32
  value : CppString
  height : Nat

/-- The nodes linked on level `i`, in order. -/
def levelAddrs (ts : List Tower) (i : Fin level) : List Addr :=
  (ts.filter fun t => i.val < t.height).map (·.addr)

namespace Skiplist

structure Represents (sl : Skiplist) (ts : List Tower) : Prop where
  head_data : sl.heap.data sl.head = some (-1, CppString.empty)
  chain : ∀ i, Chain (sl.heap.next i) sl.head (levelAddrs ts i)
  node_data : ∀ t ∈ ts, sl.heap.data t.addr = some (t.key, t.value)
  linked : ∀ t ∈ ts, 0 < t.height
  unlinked : ∀ t ∈ ts, ∀ i : Fin level, t.height ≤ i.val → sl.heap.next i t.addr = some none
  sorted : ts.Pairwise fun t u => t.key < u.key
  below : ∀ a, sl.heap a ≠ none → a < sl.top

/-- No node is alive besides the head and the nodes of level 0. -/
def NoLeak (sl : Skiplist) (ts : List Tower) : Prop :=
  ∀ a, sl.heap a ≠ none → a = sl.head ∨ a ∈ ts.map (·.addr)

end Skiplist

theorem levelAddrs_append (l r : List Tower) (i : Fin level) :
    levelAddrs (l ++ r) i = levelAddrs l i ++ levelAddrs r i := by
  simp [levelAddrs]

theorem levelAddrs_cons_pos {t : Tower} {i : Fin level} (h : i.val < t.height) (r : List Tower) :
    levelAddrs (t :: r) i = t.addr :: levelAddrs r i := by
  simp [levelAddrs, h]

theorem levelAddrs_cons_neg {t : Tower} {i : Fin level} (h : ¬i.val < t.height) (r : List Tower) :
    levelAddrs (t :: r) i = levelAddrs r i := by
  simp [levelAddrs, h]

theorem mem_levelAddrs {ts : List Tower} {i : Fin level} {a : Addr} :
    a ∈ levelAddrs ts i ↔ ∃ t ∈ ts, i.val < t.height ∧ t.addr = a := by
  simp [levelAddrs, and_assoc]

theorem levelAddrs_bottom {ts : List Tower} (h : ∀ t ∈ ts, 0 < t.height) :
    levelAddrs ts Skiplist.bottom = ts.map (·.addr) := by
  unfold levelAddrs
  rw [List.filter_eq_self.mpr]
  intro t ht
  exact decide_eq_true (h t ht)

theorem Heap.key_of_data {h : Heap} {a : Addr} {k : Int32} {v : CppString}
    (hd : h.data a = some (k, v)) : h.key a = some k := by
  obtain ⟨n, hn, he⟩ := Option.map_eq_some_iff.mp hd
  simp only [Prod.mk.injEq] at he
  simp [Heap.key, hn, he.1]

theorem Heap.data_eq_none_iff (h : Heap) (a : Addr) : h.data a = none ↔ h a = none :=
  Option.map_eq_none_iff

theorem Heap.next_eq_none_iff (h : Heap) (i : Fin level) (a : Addr) :
    h.next i a = none ↔ h a = none :=
  Option.map_eq_none_iff

namespace Skiplist

variable {sl : Skiplist} {ts l r : List Tower} {i : Fin level} {target : Int32}

theorem Represents.chain_below (h : sl.Represents ts) (i : Fin level) :
    ∀ a ∈ sl.head :: levelAddrs ts i, a < sl.top := by
  intro a ha
  apply h.below
  intro hn
  exact (h.chain i).cell ha ((Heap.next_eq_none_iff _ _ _).mpr hn)

theorem Represents.level_length (h : sl.Represents ts) (i : Fin level) :
    (levelAddrs ts i).length < sl.top :=
  (h.chain i).length_lt (h.chain_below i)

theorem Represents.addrs_nodup (h : sl.Represents ts) : (sl.head :: ts.map (·.addr)).Nodup := by
  rw [← levelAddrs_bottom h.linked]
  exact (h.chain bottom).nodup

theorem exists_split (h : ts.Pairwise fun t u => t.key < u.key) (target : Int32) :
    ∃ l r, ts = l ++ r ∧ (∀ t ∈ l, t.key < target) ∧ ∀ t ∈ r, target ≤ t.key := by
  induction ts with
  | nil => exact ⟨[], [], by simp⟩
  | cons t ts ih =>
    obtain ⟨ht, hts⟩ := List.pairwise_cons.mp h
    by_cases hlt : t.key < target
    · obtain ⟨l, r, rfl, hl, hr⟩ := ih hts
      refine ⟨t :: l, r, rfl, ?_, hr⟩
      intro u hu
      rcases List.mem_cons.mp hu with rfl | hu
      · exact hlt
      · exact hl u hu
    · have hle : target ≤ t.key := not_lt.mp hlt
      refine ⟨[], t :: ts, rfl, by simp, ?_⟩
      intro u hu
      rcases List.mem_cons.mp hu with rfl | hu
      · exact hle
      · exact hle.trans (ht u hu).le

theorem Represents.test_eq (h : sl.Represents ts) {t : Tower} (ht : t ∈ ts) :
    ((sl.heap.key t.addr).map fun k => decide (k < target)) = some (decide (t.key < target)) := by
  rw [Heap.key_of_data (h.node_data t ht)]
  rfl

section Find
variable (h : sl.Represents (l ++ r))
variable (hl : ∀ t ∈ l, t.key < target) (hr : ∀ t ∈ r, target ≤ t.key)
include h hl hr

/-- Where the inner loop stops does not depend on which earlier node of the level
it started from. -/
theorem walk_eq {p : Addr} (hp : p = sl.head ∨ p ∈ levelAddrs l i) :
    sl.walk i target p = some (lastCell sl.head (levelAddrs l i)) := by
  have hc := h.chain i
  have hlen := h.level_length i
  rw [levelAddrs_append] at hc hlen
  have hpass : ∀ c ∈ levelAddrs l i,
      ((sl.heap.key c).map fun k => decide (k < target)) = some true := by
    intro c hcl
    obtain ⟨t, ht, _, rfl⟩ := mem_levelAddrs.mp hcl
    rw [h.test_eq (List.mem_append_left r ht), decide_eq_true (hl t ht)]
  have hstop : ∀ c ∈ (levelAddrs r i).head?,
      ((sl.heap.key c).map fun k => decide (k < target)) = some false := by
    intro c hcr
    obtain ⟨t, ht, _, rfl⟩ := mem_levelAddrs.mp (List.mem_of_mem_head? hcr)
    rw [h.test_eq (List.mem_append_right l ht), decide_eq_false (hr t ht).not_gt]
  unfold walk
  simp only [List.length_append] at hlen
  rcases hp with rfl | hp
  · exact walkWhile_eq hc hpass hstop (by unfold fuel; omega)
  · obtain ⟨x, y, hxy⟩ := List.append_of_mem hp
    rw [hxy] at hc hpass hlen ⊢
    have hfrom : Chain (sl.heap.next i) p (y ++ levelAddrs r i) := by
      have := ((chain_append _ _ (x ++ [p]) (y ++ levelAddrs r i)).mp (by simpa using hc)).2
      rwa [lastCell_concat] at this
    rw [lastCell_append, lastCell_cons]
    simp only [List.length_append, List.length_cons] at hlen
    exact walkWhile_eq hfrom (fun c hcy => hpass c (by simp [hcy])) hstop (by unfold fuel; omega)

theorem findBelow_eq (n : Nat) (hn : n ≤ level) (p : Addr) (pre : Fin level → Addr)
    (hp : p = sl.head ∨ ∃ t ∈ l, t.addr = p ∧ n ≤ t.height) :
    sl.findBelow target n hn p pre =
      some fun i => if i.val < n then lastCell sl.head (levelAddrs l i) else pre i := by
  induction n generalizing p pre with
  | zero => simp [findBelow]
  | succ n ih =>
    have hlevel : p = sl.head ∨ p ∈ levelAddrs l ⟨n, hn⟩ := by
      rcases hp with hp | ⟨t, ht, ha, hh⟩
      · exact Or.inl hp
      · exact Or.inr (mem_levelAddrs.mpr ⟨t, ht, hh, ha⟩)
    have hq : lastCell sl.head (levelAddrs l ⟨n, hn⟩) = sl.head ∨
        ∃ t ∈ l, t.addr = lastCell sl.head (levelAddrs l ⟨n, hn⟩) ∧ n ≤ t.height := by
      rcases List.mem_cons.mp (lastCell_mem sl.head (levelAddrs l ⟨n, hn⟩)) with hm | hm
      · exact Or.inl hm
      · obtain ⟨t, ht, hlt, ha⟩ := mem_levelAddrs.mp hm
        exact Or.inr ⟨t, ht, ha, Nat.le_of_lt hlt⟩
    rw [findBelow, walk_eq h hl hr hlevel]
    change findBelow sl target n _ _ _ = _
    rw [ih _ _ _ hq]
    congr 1
    funext i
    by_cases hi : i.val < n
    · simp [hi, Nat.lt_succ_of_lt hi]
    · by_cases he : i.val = n
      · have hei : i = ⟨n, hn⟩ := Fin.ext he
        simp [hei]
      · have hne : i ≠ ⟨n, hn⟩ := fun hc => he (congrArg Fin.val hc)
        have hnlt : ¬i.val < n + 1 := by omega
        simp [hi, hnlt, hne]

/-- `find` returns, on each level, the last node with a smaller key. -/
theorem find_eq : sl.find target = some fun i => lastCell sl.head (levelAddrs l i) := by
  unfold find
  rw [findBelow_eq h hl hr level le_rfl sl.head _ (Or.inl rfl)]
  congr 1
  funext i
  simp [i.isLt]

end Find

theorem next_bottom_pred (h : sl.Represents (l ++ r)) :
    sl.heap.next bottom (lastCell sl.head (levelAddrs l bottom)) = some (r.head?.map (·.addr)) := by
  have hc := h.chain bottom
  rw [levelAddrs_append] at hc
  have hlink := ((chain_append _ _ _ _).mp hc).2.head_link
  rw [hlink, levelAddrs_bottom fun t ht => h.linked t (List.mem_append_right l ht), List.head?_map]

end Skiplist

end KVStorage

import KVStorage.SkiplistRefinement

/-!
# What `find` promises

The nodes that `find` leaves in `pre`, told from the links and the keys of the heap
alone. The head's key is never compared, so the targets up to -1 are no exception.
-/

namespace KVStorage

set_option autoImplicit false

open LinkedChain

/-- The node is there and its key is less than `target`. -/
def Heap.keyBelow (h : Heap) (target : Int32) (a : Addr) : Bool :=
  (h.key a).any fun k => decide (k < target)

namespace Skiplist

/-- On every level `pre` is the last node of the chain with a key less than `target`,
or the head, and a node that follows it has no such key. -/
structure Precedes (sl : Skiplist) (target : Int32) (pre : Fin level → Addr) : Prop where
  last_below : ∀ i, ∃ nodes, Chain (sl.heap.next i) sl.head nodes ∧
    pre i = lastCell sl.head (nodes.filter (sl.heap.keyBelow target))
  next_not_below : ∀ i, sl.heap.next i (pre i) = some none ∨
    ∃ q k, sl.heap.next i (pre i) = some (some q) ∧ sl.heap.key q = some k ∧ target ≤ k

/-- `pre[0]->next[0]` is a node with the key `target`. -/
def FoundAfter (sl : Skiplist) (target : Int32) (pre : Fin level → Addr) : Prop :=
  ∃ q, sl.heap.next bottom (pre bottom) = some (some q) ∧ sl.heap.key q = some target

variable {sl : Skiplist} {ts l r : List Tower} {target : Int32}

theorem Represents.keyBelow_eq (h : sl.Represents ts) {t : Tower} (ht : t ∈ ts) :
    sl.heap.keyBelow target t.addr = decide (t.key < target) := by
  rw [Heap.keyBelow, Heap.key_of_data (h.node_data t ht), Option.any_some]

section Split
variable (h : sl.Represents (l ++ r))
variable (hl : ∀ t ∈ l, t.key < target) (hr : ∀ t ∈ r, target ≤ t.key)
include h hl hr

theorem filter_keyBelow (i : Fin level) :
    (levelAddrs (l ++ r) i).filter (sl.heap.keyBelow target) = levelAddrs l i := by
  have hbefore : (levelAddrs l i).filter (sl.heap.keyBelow target) = levelAddrs l i := by
    apply List.filter_eq_self.mpr
    intro a ha
    obtain ⟨t, ht, _, rfl⟩ := mem_levelAddrs.mp ha
    rw [h.keyBelow_eq (List.mem_append_left r ht)]
    exact decide_eq_true (hl t ht)
  have hafter : (levelAddrs r i).filter (sl.heap.keyBelow target) = [] := by
    apply List.filter_eq_nil_iff.mpr
    intro a ha
    obtain ⟨t, ht, _, rfl⟩ := mem_levelAddrs.mp ha
    rw [h.keyBelow_eq (List.mem_append_right l ht), decide_eq_true_eq]
    exact (hr t ht).not_gt
  rw [levelAddrs_append, List.filter_append, hbefore, hafter, List.append_nil]

theorem split_precedes : sl.Precedes target fun i => lastCell sl.head (levelAddrs l i) := by
  constructor
  · intro i
    exact ⟨levelAddrs (l ++ r) i, h.chain i, by rw [filter_keyBelow h hl hr]⟩
  · intro i
    have hc := h.chain i
    rw [levelAddrs_append] at hc
    have hlink := ((chain_append _ _ _ _).mp hc).2.head_link
    rw [hlink]
    cases hhead : (levelAddrs r i).head? with
    | none => exact Or.inl rfl
    | some q =>
      obtain ⟨t, ht, _, rfl⟩ := mem_levelAddrs.mp (List.mem_of_mem_head? hhead)
      have hkey := Heap.key_of_data (h.node_data t (List.mem_append_right l ht))
      exact Or.inr ⟨t.addr, t.key, rfl, hkey, hr t ht⟩

/-- The keys ascend, so a tower with the key `target` is the first one after the cut. -/
theorem split_foundAfter : sl.FoundAfter target (fun i => lastCell sl.head (levelAddrs l i)) ↔
    target ∈ (l ++ r).map (·.key) := by
  have hbefore : target ∉ l.map (·.key) := by
    intro hm
    obtain ⟨t, ht, hk⟩ := List.mem_map.mp hm
    exact (hl t ht).ne hk
  rw [FoundAfter, next_bottom_pred h, List.map_append, List.mem_append, or_iff_right hbefore]
  cases r with
  | nil => simp
  | cons u r =>
    have hu : u ∈ l ++ u :: r := List.mem_append_right l List.mem_cons_self
    have hkey := Heap.key_of_data (h.node_data u hu)
    have hrest : target ∈ (u :: r).map (·.key) → u.key = target := by
      intro hm
      have hsorted := (List.pairwise_append.mp h.sorted).2.1
      rcases List.mem_cons.mp hm with he | hm
      · exact he.symm
      · obtain ⟨t, ht, hk⟩ := List.mem_map.mp hm
        have hlt : u.key < target := hk ▸ (List.pairwise_cons.mp hsorted).1 t ht
        exact absurd hlt (hr u List.mem_cons_self).not_gt
    constructor
    · rintro ⟨q, hq, hk⟩
      simp only [List.head?_cons, Option.map_some, Option.some.injEq] at hq
      rw [← hq, hkey, Option.some.injEq] at hk
      rw [← hk]
      exact List.mem_cons_self
    · intro hm
      exact ⟨u.addr, rfl, hkey.trans (congrArg some (hrest hm))⟩

end Split

/-- `find` ends for every target, and what it leaves in `pre` decides whether the target is a key
of the list. -/
theorem find_precedes (h : sl.Represents ts) (target : Int32) :
    ∃ pre, sl.find target = some pre ∧ sl.Precedes target pre ∧
      (sl.FoundAfter target pre ↔ target ∈ ts.map (·.key)) := by
  obtain ⟨l, r, rfl, hl, hr⟩ := exists_split h.sorted target
  exact ⟨_, find_eq h hl hr, split_precedes h hl hr, split_foundAfter h hl hr⟩

/-- A key below -1 is found in front of a node of all levels. -/
theorem find_precedes_two : ∃ (sl : Skiplist) (ts : List Tower), sl.Represents ts ∧
    ts.map (·.key) = [-7, 5] ∧ ∃ pre, sl.find (-7) = some pre ∧ sl.Precedes (-7) pre ∧
      (sl.FoundAfter (-7) pre ↔ -7 ∈ ts.map (·.key)) := by
  obtain ⟨sl₁, ts₁, _, h₁, _⟩ := new_holdsAs.add 5 [97] fun _ => true
  obtain ⟨sl, ts, _, h, _⟩ := h₁.add (-7) [98] fun _ => false
  refine ⟨sl, ts, h.represents, ?_, find_precedes h.represents (-7)⟩
  have hkeys := congrArg (List.map Prod.fst) h.entries
  rw [List.map_map] at hkeys
  exact hkeys.symm

/-- After any sequence of calls from the empty list. -/
theorem run_new_precedes (ops : List ListOp) (target : Int32) :
    ∃ sl answers pre, new.run ops = some (sl, answers) ∧ sl.find target = some pre ∧
      sl.Precedes target pre ∧
      (sl.FoundAfter target pre ↔ ((mapRun (fun _ => none) ops).1 target).isSome) := by
  obtain ⟨sl, ts, m, hrun, hholds, hplain, _⟩ := run_new ops
  obtain ⟨l, r, rfl, hl, hr⟩ := exists_split hholds.represents.sorted target
  refine ⟨sl, _, _, hrun, find_eq hholds.represents hl hr, split_precedes hholds.represents hl hr, ?_⟩
  have hkeys : m.keys = (l ++ r).map (·.key) := by
    rw [SortedMap.keys, hholds.entries, List.map_map]
    rfl
  rw [split_foundAfter hholds.represents hl hr, ← hkeys, ← hplain, SortedMap.mem_keys_iff, plain,
    Option.isSome_map, Option.isSome_iff_exists]

end Skiplist

end KVStorage

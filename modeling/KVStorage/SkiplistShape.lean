import KVStorage.SkiplistRefinement

/-!
# The shape of the skip list

What the links of all eight levels look like after any sequence of calls, without
the towers: only the chains, the keys of their nodes and the cells still alive.
-/

namespace KVStorage

set_option autoImplicit false

open LinkedChain

namespace Skiplist

variable {sl : Skiplist} {ts : List Tower}

/-- The levels of a list, each given by the nodes its chain passes through. -/
structure Shape (sl : Skiplist) (chains : Fin level → List Addr) : Prop where
  ends_in_null : ∀ i, Chain (sl.heap.next i) sl.head (chains i)
  ascending : ∀ i, ∃ ks, (chains i).mapM sl.heap.key = some ks ∧ ks.Pairwise (· < ·)
  nested : ∀ i j : Fin level, j.val = i.val + 1 → (chains j).Sublist (chains i)
  contiguous : ∀ a, ∃ h, ∀ i : Fin level, a ∈ chains i ↔ i.val < h
  live_once : ∀ a, a ≠ sl.head → (sl.heap a ≠ none → (chains bottom).count a = 1)
  no_dangling : ∀ a, a = sl.head ∨ a ∈ chains bottom →
    ∀ i b, sl.heap.next i a = some (some b) → sl.heap b ≠ none

theorem levelAddrs_nested (ts : List Tower) {i j : Fin level} (hij : i.val ≤ j.val) :
    (levelAddrs ts j).Sublist (levelAddrs ts i) := by
  unfold levelAddrs
  apply List.Sublist.map
  apply List.monotone_filter_right
  intro t ht
  simp only [decide_eq_true_eq] at ht ⊢
  omega

theorem Represents.ascending (h : sl.Represents ts) (i : Fin level) :
    ∃ ks, (levelAddrs ts i).mapM sl.heap.key = some ks ∧ ks.Pairwise (· < ·) := by
  refine ⟨(ts.filter fun t => i.val < t.height).map (·.key), ?_, ?_⟩
  · apply mapM_towers
    intro u hu
    exact Heap.key_of_data (h.node_data u (List.mem_filter.mp hu).1)
  · apply List.pairwise_map.mpr
    exact h.sorted.filter _

theorem Represents.contiguous (h : sl.Represents ts) (a : Addr) :
    ∃ n, ∀ i : Fin level, a ∈ levelAddrs ts i ↔ i.val < n := by
  by_cases ha : ∃ t ∈ ts, t.addr = a
  · obtain ⟨t, ht, rfl⟩ := ha
    refine ⟨t.height, ?_⟩
    intro i
    constructor
    · intro hm
      by_contra hi
      exact h.not_mem_level ht (not_lt.mp hi) (List.mem_cons_of_mem _ hm)
    · intro hi
      exact mem_levelAddrs.mpr ⟨t, ht, hi, rfl⟩
  · refine ⟨0, ?_⟩
    intro i
    constructor
    · intro hm
      obtain ⟨t, ht, _, he⟩ := mem_levelAddrs.mp hm
      exact absurd ⟨t, ht, he⟩ ha
    · intro hi
      exact absurd hi (Nat.not_lt_zero _)

/-- A link leads to a node of its own level: past its tower a node has none. -/
theorem Represents.link_mem (h : sl.Represents ts) {a b : Addr} {i : Fin level}
    (ha : a = sl.head ∨ a ∈ ts.map (·.addr)) (hb : sl.heap.next i a = some (some b)) :
    b ∈ levelAddrs ts i := by
  have hlevel : a ∈ sl.head :: levelAddrs ts i := by
    rcases ha with rfl | ha
    · exact List.mem_cons_self
    · obtain ⟨t, ht, rfl⟩ := List.mem_map.mp ha
      apply List.mem_cons_of_mem
      apply mem_levelAddrs.mpr
      refine ⟨t, ht, ?_, rfl⟩
      by_contra hi
      rw [h.unlinked t ht i (not_lt.mp hi)] at hb
      simp at hb
  exact (h.chain i).next_mem hlevel hb

theorem Represents.shape (h : sl.Represents ts) (hleak : sl.NoLeak ts) :
    sl.Shape (levelAddrs ts) := by
  have hbottom := levelAddrs_bottom h.linked
  refine ⟨h.chain, h.ascending, ?_, h.contiguous, ?_, ?_⟩
  · intro i j hij
    exact levelAddrs_nested ts (by omega)
  · intro a ha hlive
    rw [hbottom]
    apply List.count_eq_one_of_mem (List.nodup_cons.mp h.addrs_nodup).2
    exact (hleak a hlive).resolve_left ha
  · intro a ha i b hb
    rw [hbottom] at ha
    have hm : b ∈ levelAddrs ts i := h.link_mem ha hb
    obtain ⟨t, ht, _, rfl⟩ := mem_levelAddrs.mp hm
    exact h.live t.addr (List.mem_cons_of_mem _ (List.mem_map_of_mem ht))

/-! ## What `clear` deletes -/

/-- `freeFrom` with the pointers it passes to `delete`, in order. -/
def freeFromTrace : Nat → Option Addr → Heap → Option (Heap × List Addr)
  | _, none, h => some (h, [])
  | 0, some _, _ => none
  | fuel + 1, some p, h => do
    let nextNode ← h.next bottom p
    let h ← h.free p
    let (h, deleted) ← freeFromTrace fuel nextNode h
    some (h, p :: deleted)

theorem freeFromTrace_fst (fuel : Nat) (p : Option Addr) (h : Heap) :
    (freeFromTrace fuel p h).map Prod.fst = freeFrom fuel p h := by
  induction fuel generalizing p h with
  | zero => cases p <;> rfl
  | succ fuel ih =>
    cases p with
    | none => rfl
    | some p =>
      simp only [freeFromTrace, freeFrom, Option.bind_eq_bind, Option.map_bind, ← ih]
      congr 1
      funext nextNode
      simp only [Function.comp_apply, Option.map_bind]
      congr 1
      funext h
      cases freeFromTrace fuel nextNode h <;> rfl

theorem freeFromTrace_deleted {l : List Addr} {fuel : Nat} {h h' : Heap} {deleted : List Addr}
    (ht : freeFromTrace fuel l.head? h = some (h', deleted))
    (hc : ∀ a m, l = a :: m → Chain (h.next bottom) a m) : deleted = l := by
  induction l generalizing fuel h deleted with
  | nil =>
    have hnil : freeFromTrace fuel none h = some (h, []) := by cases fuel <;> rfl
    rw [List.head?_nil, hnil] at ht
    cases ht
    rfl
  | cons a l ih =>
    have hchain := hc a l rfl
    have ha : h a ≠ none := fun hn =>
      hchain.cell List.mem_cons_self ((Heap.next_eq_none_iff _ _ _).mpr hn)
    cases fuel with
    | zero => simp [freeFromTrace] at ht
    | succ fuel =>
      simp only [List.head?_cons, freeFromTrace, hchain.head_link, h.free_eq ha,
        Option.bind_eq_bind, Option.bind_some, Option.bind_eq_some_iff] at ht
      obtain ⟨⟨h₁, rest⟩, hrest, he⟩ := ht
      cases he
      rw [ih hrest (chain_free hchain)]

/-- `clear` with the pointers it passes to `delete`, in order. -/
def clearTrace (sl : Skiplist) : Option (Skiplist × List Addr) := do
  let first ← sl.heap.next bottom sl.head
  let (h, deleted) ← freeFromTrace sl.fuel first sl.heap
  let h ← resetHead sl.head h
  some ({ sl with heap := h }, deleted)

theorem clearTrace_fst (sl : Skiplist) : sl.clearTrace.map Prod.fst = sl.clear := by
  simp only [clearTrace, clear, Option.bind_eq_bind, Option.map_bind, ← freeFromTrace_fst]
  congr 1
  funext first
  simp only [Function.comp_apply]
  cases freeFromTrace sl.fuel first sl.heap with
  | none => rfl
  | some t =>
    simp only [Option.bind_some, Option.map_bind, Option.map_some]
    cases resetHead sl.head t.1 <;> rfl

/-- The nodes of level 0 are deleted one after another, each once, and only the
head with null links remains. -/
theorem Represents.clearTrace (h : sl.Represents ts) (hleak : sl.NoLeak ts) :
    ∃ sl', sl.clearTrace = some (sl', levelAddrs ts bottom) ∧ sl'.head = sl.head ∧
      sl'.Shape fun _ => [] := by
  obtain ⟨sl', hclear, hrep, hhead, hleak'⟩ := clear_eq h
  rw [← clearTrace_fst, Option.map_eq_some_iff] at hclear
  obtain ⟨⟨sl₁, deleted⟩, htrace, rfl⟩ := hclear
  have hc := h.chain bottom
  have hd : deleted = levelAddrs ts bottom := by
    simp only [Skiplist.clearTrace, hc.head_link, Option.bind_eq_bind, Option.bind_some,
      Option.bind_eq_some_iff] at htrace
    obtain ⟨⟨h₁, d⟩, hfree, h₂, _, he⟩ := htrace
    cases he
    apply freeFromTrace_deleted hfree
    intro a m hl
    rw [hl] at hc
    exact hc.2
  refine ⟨sl₁, by rw [htrace, hd], hhead, ?_⟩
  exact hrep.shape (hleak' hleak)

/-- After any sequence of calls every chain ends in null, ascends and contains the
chain above it, level 0 passes each living node once, no link of a reachable node
dangles, and `clear` would delete each node once and leave the empty list. -/
theorem run_new_shape (ops : List ListOp) :
    ∃ sl answers chains, new.run ops = some (sl, answers) ∧ sl.Shape chains ∧
      ∃ sl', sl.clear = some sl' ∧ sl.clearTrace = some (sl', chains bottom) ∧
        sl'.head = sl.head ∧ sl'.Shape fun _ => [] := by
  obtain ⟨sl, ts, m, hrun, hholds, _, hleak⟩ := run_new ops
  obtain ⟨sl', htrace, hhead, hshape⟩ := hholds.represents.clearTrace hleak
  refine ⟨sl, _, levelAddrs ts, hrun, hholds.represents.shape hleak, sl', ?_, htrace, hhead, hshape⟩
  rw [← clearTrace_fst, htrace]
  rfl

end Skiplist

end KVStorage

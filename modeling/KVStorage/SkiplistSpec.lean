import KVStorage.SkiplistOperations

/-!
# The operations on the list of towers

Each operation returns, and its result is the list of towers with one tower put
in, taken out or given a new value at the place of the key.
-/

namespace KVStorage

set_option autoImplicit false

open LinkedChain

namespace Skiplist

variable {sl sl' : Skiplist} {ts l r : List Tower} {t : Tower} {num target : Int32}

theorem mem_cells_of_level {a c : Addr} {i : Fin level} (hc : c ∈ a :: levelAddrs ts i) :
    c ∈ a :: ts.map (·.addr) := by
  rcases List.mem_cons.mp hc with rfl | hc
  · exact List.mem_cons_self
  · obtain ⟨u, hu, _, rfl⟩ := mem_levelAddrs.mp hc
    exact List.mem_cons_of_mem _ (List.mem_map_of_mem hu)

theorem Represents.frame (h : sl.Represents ts) (sl' : Skiplist) (hhead : sl'.head = sl.head)
    (hn : ∀ i, ∀ c ∈ sl.head :: ts.map (·.addr), sl'.heap.next i c = sl.heap.next i c)
    (hd : ∀ c ∈ sl.head :: ts.map (·.addr), sl'.heap.data c = sl.heap.data c)
    (hb : ∀ a, sl'.heap a ≠ none → a < sl'.top) : sl'.Represents ts where
  head_data := by rw [hhead, hd _ List.mem_cons_self, h.head_data]
  chain i := by
    rw [hhead]
    apply (h.chain i).frame
    intro c hc
    exact hn i c (mem_cells_of_level hc)
  node_data u hu := by
    rw [hd _ (List.mem_cons_of_mem _ (List.mem_map_of_mem hu)), h.node_data u hu]
  linked := h.linked
  unlinked u hu i hi := by
    rw [hn i _ (List.mem_cons_of_mem _ (List.mem_map_of_mem hu)), h.unlinked u hu i hi]
  sorted := h.sorted
  below := hb

theorem Represents.live (h : sl.Represents ts) : ∀ c ∈ sl.head :: ts.map (·.addr), sl.heap c ≠ none := by
  rw [← levelAddrs_bottom h.linked]
  intro c hc hn
  exact (h.chain bottom).cell hc ((Heap.next_eq_none_iff _ _ _).mpr hn)

theorem Represents.node (h : sl.Represents ts) (ht : t ∈ ts) :
    ∃ n, sl.heap t.addr = some n ∧ n.key = t.key ∧ n.value = t.value := by
  obtain ⟨n, hn, he⟩ := Option.map_eq_some_iff.mp (h.node_data t ht)
  simp only [Prod.mk.injEq] at he
  exact ⟨n, hn, he.1, he.2⟩

theorem Represents.not_mem_level (h : sl.Represents ts) (ht : t ∈ ts) {i : Fin level}
    (hi : t.height ≤ i.val) : t.addr ∉ sl.head :: levelAddrs ts i := by
  intro hm
  have hnd := h.addrs_nodup
  rcases List.mem_cons.mp hm with hm | hm
  · exact (List.nodup_cons.mp hnd).1 (hm ▸ List.mem_map_of_mem ht)
  · obtain ⟨u, hu, hlt, hua⟩ := mem_levelAddrs.mp hm
    have he : u = t := List.inj_on_of_nodup_map (List.nodup_cons.mp hnd).2 hu ht hua
    subst he
    omega

theorem Represents.top_fresh (h : sl.Represents ts) : sl.top ∉ sl.head :: ts.map (·.addr) :=
  fun hm => lt_irrefl _ (h.below _ (h.live _ hm))

theorem next_newNode (sl : Skiplist) (num : Int32) (value : Bytes) (i : Fin level) (c : Addr) :
    (sl.newNode num value).1.heap.next i c =
      if c = sl.top then some none else sl.heap.next i c := by
  by_cases hc : c = sl.top <;> simp [newNode, Heap.next, hc]

theorem data_newNode (sl : Skiplist) (num : Int32) (value : Bytes) (c : Addr) :
    (sl.newNode num value).1.heap.data c =
      if c = sl.top then some (num, CppString.ofBytes value) else sl.heap.data c := by
  by_cases hc : c = sl.top <;> simp [newNode, Heap.data, hc]

theorem newNode_below (h : sl.Represents ts) (num : Int32) (value : Bytes) :
    ∀ a, (sl.newNode num value).1.heap a ≠ none → a < sl.top + 1 := by
  intro a ha
  by_cases hc : a = sl.top
  · subst hc
    exact Nat.lt_succ_self _
  · rw [ne_eq, ← Heap.data_eq_none_iff, data_newNode, if_neg hc, Heap.data_eq_none_iff] at ha
    exact Nat.lt_succ_of_lt (h.below a ha)

theorem Represents.newNode (h : sl.Represents ts) (num : Int32) (value : Bytes) :
    (sl.newNode num value).1.Represents ts := by
  have hne : ∀ c ∈ sl.head :: ts.map (·.addr), c ≠ sl.top := fun c hc he =>
    h.top_fresh (he ▸ hc)
  refine h.frame (sl.newNode num value).1 rfl ?_ ?_ (newNode_below h num value)
  · intro i c hc
    rw [next_newNode, if_neg (hne c hc)]
  · intro c hc
    rw [data_newNode, if_neg (hne c hc)]

/-! ## `search` -/

/-- The value the towers hold for a key, `""` when they hold none. -/
def valueIn (ts : List Tower) (target : Int32) : Bytes :=
  ((ts.find? fun t => t.key = target).map (·.value.data)).getD []

theorem valueIn_of_mem (hs : ts.Pairwise fun t u => t.key < u.key) (ht : t ∈ ts) :
    valueIn ts t.key = t.value.data := by
  unfold valueIn
  induction ts with
  | nil => simp at ht
  | cons u us ih =>
    obtain ⟨hu, hus⟩ := List.pairwise_cons.mp hs
    rcases List.mem_cons.mp ht with rfl | ht
    · simp
    · simp only [List.find?_cons, (hu t ht).ne, decide_false]
      exact ih hus ht

theorem valueIn_of_not_mem (h : ∀ t ∈ ts, t.key ≠ target) : valueIn ts target = [] := by
  unfold valueIn
  rw [List.find?_eq_none.mpr (by simpa using h)]
  rfl

theorem search_eq (h : sl.Represents ts) (target : Int32) :
    sl.search target = some (valueIn ts target) := by
  obtain ⟨l, r, rfl, hl, hr⟩ := exists_split h.sorted target
  unfold search
  rw [find_eq h hl hr]
  simp only [Option.bind_eq_bind, Option.bind_some]
  rw [next_bottom_pred h]
  cases r with
  | nil =>
    rw [valueIn_of_not_mem (by simpa using fun t ht => (hl t ht).ne)]
    rfl
  | cons t r =>
    have hmem : t ∈ l ++ t :: r := List.mem_append_right l List.mem_cons_self
    obtain ⟨n, hn, hk, hv⟩ := h.node hmem
    simp only [List.head?_cons, Option.map_some, Option.bind_some, hn]
    by_cases he : n.key = target
    · rw [if_pos he, hv, ← valueIn_of_mem h.sorted hmem, ← hk, he]
    · rw [if_neg he, valueIn_of_not_mem]
      intro u hu
      rcases List.mem_append.mp hu with hu | hu
      · exact (hl u hu).ne
      · have htr := List.pairwise_cons.mp (List.pairwise_append.mp h.sorted).2.1
        have htk : target < t.key := lt_of_le_of_ne (hr t List.mem_cons_self) fun hc => he (hk.trans hc.symm)
        rcases List.mem_cons.mp hu with rfl | hu
        · exact htk.ne'
        · exact (htk.trans (htr.1 u hu)).ne'

/-! ## `add` -/

theorem sorted_split (h : (l ++ t :: r).Pairwise fun t u => t.key < u.key) :
    (∀ u ∈ l, u.key < t.key) ∧ ∀ u ∈ r, t.key < u.key := by
  obtain ⟨_, htr, hlt⟩ := List.pairwise_append.mp h
  exact ⟨fun u hu => hlt u hu t List.mem_cons_self, (List.pairwise_cons.mp htr).1⟩

theorem Represents.around (h : sl.Represents (l ++ t :: r)) :
    (∀ u ∈ l, u.key < t.key) ∧ ∀ u ∈ t :: r, t.key ≤ u.key := by
  obtain ⟨hl, hr⟩ := sorted_split h.sorted
  refine ⟨hl, ?_⟩
  intro u hu
  rcases List.mem_cons.mp hu with rfl | hu
  · exact le_rfl
  · exact (hr u hu).le

theorem levelAddrs_setValue (l r : List Tower) (t : Tower) (v : CppString) (i : Fin level) :
    levelAddrs (l ++ { t with value := v } :: r) i = levelAddrs (l ++ t :: r) i := by
  by_cases hi : i.val < t.height
  · simp [levelAddrs_append, levelAddrs_cons_pos, hi]
  · simp [levelAddrs_append, levelAddrs_cons_neg, hi]

theorem mem_of_mem_others {u : Tower} (hu : u ∈ l ++ r) : u ∈ l ++ t :: r := by
  rcases List.mem_append.mp hu with hu | hu
  · exact List.mem_append_left _ hu
  · exact List.mem_append_right l (List.mem_cons_of_mem t hu)

theorem Represents.addr_not_mem (h : sl.Represents (l ++ t :: r)) :
    t.addr ∉ sl.head :: (l ++ r).map (·.addr) := by
  have hperm : (sl.head :: (l ++ t :: r).map (·.addr)).Perm
      (t.addr :: sl.head :: (l ++ r).map (·.addr)) := by
    have hp : ((l ++ t :: r).map (·.addr)).Perm ((t :: (l ++ r)).map (·.addr)) := List.perm_middle.map _
    exact (hp.cons _).trans (List.Perm.swap _ _ _)
  exact (List.nodup_cons.mp (hperm.nodup_iff.mp h.addrs_nodup)).1

theorem mem_replaced {u t' : Tower} (hu : u ∈ l ++ t' :: r) : u = t' ∨ u ∈ l ++ r := by
  rcases List.mem_append.mp hu with hu | hu
  · exact Or.inr (List.mem_append_left r hu)
  · rcases List.mem_cons.mp hu with rfl | hu
    · exact Or.inl rfl
    · exact Or.inr (List.mem_append_right l hu)

theorem Represents.setValue (h : sl.Represents (l ++ t :: r)) (v : CppString)
    (hhead : sl'.head = sl.head)
    (hn : ∀ i, ∀ c ∈ sl.head :: (l ++ t :: r).map (·.addr), sl'.heap.next i c = sl.heap.next i c)
    (hd : ∀ c ∈ sl.head :: (l ++ t :: r).map (·.addr),
      sl'.heap.data c = if c = t.addr then some (t.key, v) else sl.heap.data c)
    (hb : ∀ a, sl'.heap a ≠ none → a < sl'.top) :
    sl'.Represents (l ++ { t with value := v } :: r) := by
  have hnd := h.addrs_nodup
  have hmap : (l ++ { t with value := v } :: r).map (·.addr) = (l ++ t :: r).map (·.addr) := by simp
  have hkeys : (l ++ { t with value := v } :: r).map (·.key) = (l ++ t :: r).map (·.key) := by simp
  have ht : t ∈ l ++ t :: r := List.mem_append_right l List.mem_cons_self
  have hother : ∀ u ∈ l ++ r, u.addr ≠ t.addr :=
    fun u hu hc => h.addr_not_mem (hc ▸ List.mem_cons_of_mem _ (List.mem_map_of_mem hu))
  refine ⟨?_, ?_, ?_, ?_, ?_, ?_, hb⟩
  · rw [hhead, hd _ List.mem_cons_self, if_neg, h.head_data]
    intro hc
    exact (List.nodup_cons.mp hnd).1 (by simp [hc])
  · intro i
    rw [hhead, levelAddrs_setValue]
    apply (h.chain i).frame
    intro c hc
    exact hn i c (mem_cells_of_level hc)
  · intro u hu
    rw [hd _ (List.mem_cons_of_mem _ (hmap ▸ List.mem_map_of_mem hu))]
    rcases mem_replaced hu with rfl | hu
    · rw [if_pos rfl]
    · rw [if_neg (hother u hu), h.node_data u (mem_of_mem_others hu)]
  · intro u hu
    rcases mem_replaced hu with rfl | hu
    · exact h.linked t ht
    · exact h.linked u (mem_of_mem_others hu)
  · intro u hu i hi
    rw [hn i _ (List.mem_cons_of_mem _ (hmap ▸ List.mem_map_of_mem hu))]
    rcases mem_replaced hu with rfl | hu
    · exact h.unlinked t ht i hi
    · exact h.unlinked u (mem_of_mem_others hu) i hi
  · have hsorted : ((l ++ t :: r).map (·.key)).Pairwise (· < ·) := List.pairwise_map.mpr h.sorted
    rw [← hkeys] at hsorted
    exact List.pairwise_map.mp hsorted

theorem add_old (h : sl.Represents (l ++ t :: r)) (value : Bytes) (flips : Fin level → Bool) :
    ∃ sl', sl.add t.key value flips = some (sl',
        UInt64.ofNat (CppString.ofBytes value).capacity - UInt64.ofNat t.value.capacity) ∧
      sl'.Represents (l ++ { t with value := t.value.assign (CppString.ofBytes value) } :: r) ∧
      sl'.head = sl.head ∧ ∀ a, sl'.heap a ≠ none → sl.heap a ≠ none := by
  obtain ⟨hl, hr⟩ := h.around
  have h₁ := h.newNode t.key value
  obtain ⟨n, hn, hkey, hval⟩ := h₁.node (List.mem_append_right l List.mem_cons_self)
  obtain ⟨h₂, hs, hn₂, hd₂⟩ := (sl.newNode t.key value).1.heap.setValue_eq (CppString.ofBytes value) hn
  have htop : t.addr ≠ sl.top := by
    intro hc
    exact h.top_fresh (by simp [← hc])
  have hlive : h₂ sl.top ≠ none := by
    rw [ne_eq, ← Heap.data_eq_none_iff, hd₂, if_neg htop.symm, data_newNode, if_pos rfl]
    simp
  have hdata : ∀ c, Heap.data (Function.update h₂ sl.top none) c =
      if c = sl.top then none else
        if c = t.addr then some (t.key, t.value.assign (CppString.ofBytes value)) else sl.heap.data c := by
    intro c
    rw [Heap.data_free, hd₂, data_newNode, hkey, hval]
    by_cases hc : c = sl.top <;> simp [hc]
  have hfresh : ∀ c ∈ sl.head :: (l ++ t :: r).map (·.addr), c ≠ sl.top :=
    fun c hc he => h.top_fresh (he ▸ hc)
  have hback : ∀ a, Function.update h₂ sl.top none a ≠ none → sl.heap a ≠ none := by
    intro a ha
    rw [ne_eq, ← Heap.data_eq_none_iff, hdata] at ha
    by_cases hat : a = t.addr
    · exact h.live a (by simp [hat])
    · rw [if_neg hat] at ha
      intro hc
      rw [(Heap.data_eq_none_iff sl.heap a).mpr hc] at ha
      simp at ha
  refine ⟨⟨sl.head, Function.update h₂ sl.top none, sl.top + 1⟩, ?_, ?_, rfl, hback⟩
  · unfold add
    have hfind := find_eq h₁ hl hr
    have hnext := next_bottom_pred h₁
    simp only [newNode] at hfind hnext hs hn ⊢
    simp only [hfind, hnext, hn, hkey, hs, hval, Option.bind_eq_bind, Option.bind_some, List.head?_cons,
      Option.map_some, if_true, Heap.free_eq h₂ hlive]
  · refine h.setValue _ rfl ?_ ?_ ?_
    · intro i c hc
      have hct := hfresh c hc
      rw [Heap.next_free, if_neg hct, hn₂, next_newNode, if_neg hct]
    · intro c hc
      rw [hdata, if_neg (hfresh c hc)]
    · exact fun a ha => Nat.lt_succ_of_lt (h.below a (hback a ha))

theorem levelAddrs_insert (l r : List Tower) (t : Tower) (i : Fin level) :
    levelAddrs (l ++ t :: r) i =
      if i.val < t.height then levelAddrs l i ++ t.addr :: levelAddrs r i else levelAddrs (l ++ r) i := by
  by_cases hi : i.val < t.height
  · simp [levelAddrs_append, levelAddrs_cons_pos, hi]
  · simp [levelAddrs_append, levelAddrs_cons_neg, hi]

theorem sorted_insert (h : (l ++ r).Pairwise fun t u => t.key < u.key) (hl : ∀ u ∈ l, u.key < t.key)
    (hr : ∀ u ∈ r, t.key < u.key) : (l ++ t :: r).Pairwise fun t u => t.key < u.key := by
  obtain ⟨hls, hrs, hlr⟩ := List.pairwise_append.mp h
  refine List.pairwise_append.mpr ⟨hls, List.pairwise_cons.mpr ⟨hr, hrs⟩, ?_⟩
  intro a ha b hb
  rcases List.mem_cons.mp hb with rfl | hb
  · exact hl a ha
  · exact hlr a ha b hb

theorem lastCell_level_mem (a : Addr) (l r : List Tower) (i : Fin level) :
    lastCell a (levelAddrs l i) ∈ a :: (l ++ r).map (·.addr) := by
  rcases List.mem_cons.mp (lastCell_mem a (levelAddrs l i)) with hm | hm
  · rw [hm]
    exact List.mem_cons_self
  · obtain ⟨u, hu, _, hua⟩ := mem_levelAddrs.mp hm
    rw [← hua]
    exact List.mem_cons_of_mem _ (List.mem_map_of_mem (List.mem_append_left r hu))

theorem Represents.ne_pred {u : Tower} (h : sl.Represents (l ++ r)) (hu : u ∈ l ++ r) {i : Fin level}
    (hi : u.height ≤ i.val) : u.addr ≠ lastCell sl.head (levelAddrs l i) := by
  intro he
  apply h.not_mem_level hu hi
  rw [levelAddrs_append, ← List.cons_append]
  exact List.mem_append_left _ (he ▸ lastCell_mem sl.head (levelAddrs l i))

section Insert

/-- From `sl` to `sl'` the node `t`, which is there already, is put after `l` on the levels
of its height. -/
structure Inserts (sl sl' : Skiplist) (l r : List Tower) (t : Tower) : Prop where
  head : sl'.head = sl.head
  data : sl'.heap.data = sl.heap.data
  next : ∀ i : Fin level, if i.val < t.height then
      sl'.heap.next i t.addr = sl.heap.next i (lastCell sl.head (levelAddrs l i)) ∧
        sl'.heap.next i (lastCell sl.head (levelAddrs l i)) = some (some t.addr) ∧
        ∀ c, c ≠ t.addr → c ≠ lastCell sl.head (levelAddrs l i) → sl'.heap.next i c = sl.heap.next i c
    else sl'.heap.next i = sl.heap.next i
  node : sl.heap.data t.addr = some (t.key, t.value)
  unlinked : ∀ i, sl.heap.next i t.addr = some none
  fresh : t.addr ∉ sl.head :: (l ++ r).map (·.addr)

theorem Inserts.chain (hins : Inserts sl sl' l r t) (h : sl.Represents (l ++ r)) (i : Fin level) :
    Chain (sl'.heap.next i) sl'.head (levelAddrs (l ++ t :: r) i) := by
  have hnext := hins.next i
  have hchain := h.chain i
  rw [hins.head, levelAddrs_insert]
  by_cases hi : i.val < t.height
  · rw [if_pos hi] at hnext
    rw [if_pos hi]
    have hfresh : t.addr ∉ sl.head :: levelAddrs (l ++ r) i := fun hm => hins.fresh (mem_cells_of_level hm)
    rw [levelAddrs_append] at hchain hfresh
    exact hchain.insert hfresh hnext.1 hnext.2.1 hnext.2.2
  · rw [if_neg hi] at hnext
    rw [if_neg hi]
    exact hchain.frame fun c _ => congrFun hnext c

theorem Inserts.old_unlinked (hins : Inserts sl sl' l r t) (h : sl.Represents (l ++ r)) {u : Tower}
    (hu : u ∈ l ++ r) {i : Fin level} (hi : u.height ≤ i.val) : sl'.heap.next i u.addr = some none := by
  have hnext := hins.next i
  have hold := h.unlinked u hu i hi
  have haddr : u.addr ∈ sl.head :: (l ++ r).map (·.addr) := List.mem_cons_of_mem _ (List.mem_map_of_mem hu)
  by_cases hh : i.val < t.height
  · rw [if_pos hh] at hnext
    rw [hnext.2.2 u.addr (fun he => hins.fresh (he ▸ haddr)) (h.ne_pred hu hi), hold]
  · rw [if_neg hh] at hnext
    rw [hnext, hold]

theorem Inserts.represents (hins : Inserts sl sl' l r t) (h : sl.Represents (l ++ r))
    (hl : ∀ u ∈ l, u.key < t.key) (hr : ∀ u ∈ r, t.key < u.key) (hpos : 0 < t.height)
    (hb : ∀ a, sl'.heap a ≠ none → a < sl'.top) : sl'.Represents (l ++ t :: r) where
  head_data := by rw [hins.head, hins.data, h.head_data]
  chain := hins.chain h
  node_data := by
    intro u hu
    rw [hins.data]
    rcases List.mem_append.mp hu with hu | hu
    · exact h.node_data u (List.mem_append_left r hu)
    · rcases List.mem_cons.mp hu with rfl | hu
      · exact hins.node
      · exact h.node_data u (List.mem_append_right l hu)
  linked := by
    intro u hu
    rcases List.mem_append.mp hu with hu | hu
    · exact h.linked u (List.mem_append_left r hu)
    · rcases List.mem_cons.mp hu with rfl | hu
      · exact hpos
      · exact h.linked u (List.mem_append_right l hu)
  unlinked := by
    intro u hu i hi
    rcases List.mem_append.mp hu with hu | hu
    · exact hins.old_unlinked h (List.mem_append_left r hu) hi
    · rcases List.mem_cons.mp hu with rfl | hu
      · have hnext := hins.next i
        rw [if_neg (Nat.not_lt.mpr hi)] at hnext
        rw [hnext, hins.unlinked]
      · exact hins.old_unlinked h (List.mem_append_right l hu) hi
  sorted := sorted_insert h.sorted hl hr
  below := hb

end Insert

theorem add_new (h : sl.Represents (l ++ r)) (hl : ∀ u ∈ l, u.key < num) (hr : ∀ u ∈ r, num < u.key)
    (value : Bytes) (flips : Fin level → Bool) :
    ∃ sl', sl.add num value flips = some (sl', nodeSize (CppString.ofBytes value).capacity) ∧
      sl'.Represents (l ++ ⟨sl.top, num, CppString.ofBytes value, towerHeight flips⟩ :: r) ∧
      sl'.head = sl.head ∧ ∀ a, sl'.heap a ≠ none → a = sl.top ∨ sl.heap a ≠ none := by
  have h₁ := h.newNode num value
  have hfind := find_eq h₁ hl fun u hu => (hr u hu).le
  have hnext := next_bottom_pred h₁
  have hpremem : ∀ i, lastCell sl.head (levelAddrs l i) ∈ sl.head :: (l ++ r).map (·.addr) :=
    lastCell_level_mem sl.head l r
  obtain ⟨h₂, hlink, hd₂, hn₂⟩ := link_eq sl.top
    (fun i => lastCell sl.head (levelAddrs l i)) flips (List.finRange level)
    (sl.newNode num value).1.heap (List.nodup_finRange level) (by simp [newNode])
    (fun i _ => h₁.live _ (hpremem i)) (fun i he => h.top_fresh (he ▸ hpremem i))
  have hback : ∀ a, h₂ a ≠ none → a = sl.top ∨ sl.heap a ≠ none := by
    intro a ha
    rw [ne_eq, ← Heap.data_eq_none_iff, hd₂, data_newNode] at ha
    by_cases hat : a = sl.top
    · exact Or.inl hat
    · rw [if_neg hat, Heap.data_eq_none_iff] at ha
      exact Or.inr ha
  refine ⟨⟨sl.head, h₂, sl.top + 1⟩, ?_, ?_, rfl, hback⟩
  · unfold add
    have hr' : ∀ u ∈ r.head?, ∃ n, (sl.newNode num value).1.heap u.addr = some n ∧ n.key ≠ num := by
      intro u hu
      have hur := List.mem_of_mem_head? hu
      obtain ⟨n, hn, hk, _⟩ := h₁.node (List.mem_append_right l hur)
      exact ⟨n, hn, hk ▸ (hr u hur).ne'⟩
    simp only [newNode] at hfind hnext hlink hr' ⊢
    simp only [hfind, hnext, hlink, Option.bind_eq_bind, Option.bind_some]
    cases r with
    | nil => rfl
    | cons u r =>
      obtain ⟨n, hn, hk⟩ := hr' u rfl
      simp [hn, hk]
  · simp only [mem_linkedLevels] at hn₂
    have hins : Inserts (sl.newNode num value).1 ⟨sl.head, h₂, sl.top + 1⟩ l r
        ⟨sl.top, num, CppString.ofBytes value, towerHeight flips⟩ :=
      ⟨rfl, hd₂, hn₂, by rw [data_newNode, if_pos rfl], fun i => by rw [next_newNode, if_pos rfl],
        h.top_fresh⟩
    apply hins.represents h₁ hl hr (towerHeight_pos flips)
    intro a ha
    rcases hback a ha with rfl | ha
    · exact Nat.lt_succ_self _
    · exact Nat.lt_succ_of_lt (h.below a ha)

/-! ## `erase` -/

/-- The predecessor on a level points to the node exactly on the levels of its tower. -/
theorem Represents.pred_next_iff (h : sl.Represents (l ++ t :: r)) (i : Fin level) :
    sl.heap.next i (lastCell sl.head (levelAddrs l i)) = some (some t.addr) ↔ i.val < t.height := by
  have hc := h.chain i
  rw [levelAddrs_insert] at hc
  constructor
  · intro hp
    by_contra hh
    rw [if_neg hh, levelAddrs_append] at hc
    have hlink := ((chain_append _ _ _ _).mp hc).2.head_link
    rw [hp] at hlink
    have hmem := List.mem_of_mem_head? (Option.some.inj hlink).symm
    obtain ⟨u, hu, _, hua⟩ := mem_levelAddrs.mp hmem
    exact h.addr_not_mem (hua ▸ List.mem_cons_of_mem _ (List.mem_map_of_mem (List.mem_append_right l hu)))
  · intro hh
    rw [if_pos hh] at hc
    exact ((chain_append _ _ _ _).mp hc).2.head_link

section Remove

/-- From `sl` to `sl'` the node `t` is taken out on the levels of its height. -/
structure Removes (sl sl' : Skiplist) (l r : List Tower) (t : Tower) : Prop where
  head : sl'.head = sl.head
  data : ∀ c, c ≠ t.addr → sl'.heap.data c = sl.heap.data c
  next : ∀ i : Fin level, if i.val < t.height then
      sl'.heap.next i (lastCell sl.head (levelAddrs l i)) = sl.heap.next i t.addr ∧
        ∀ c, c ≠ t.addr → c ≠ lastCell sl.head (levelAddrs l i) → sl'.heap.next i c = sl.heap.next i c
    else ∀ c, c ≠ t.addr → sl'.heap.next i c = sl.heap.next i c

theorem Removes.chain (hrem : Removes sl sl' l r t) (h : sl.Represents (l ++ t :: r)) (i : Fin level) :
    Chain (sl'.heap.next i) sl'.head (levelAddrs (l ++ r) i) := by
  have hnext := hrem.next i
  have hc := h.chain i
  rw [levelAddrs_insert] at hc
  rw [hrem.head]
  by_cases hi : i.val < t.height
  · rw [if_pos hi] at hnext hc
    rw [levelAddrs_append]
    exact hc.remove hnext.1 hnext.2
  · rw [if_neg hi] at hnext hc
    apply hc.frame
    intro c hcm
    exact hnext c fun he => h.addr_not_mem (he ▸ mem_cells_of_level hcm)

theorem Removes.represents (hrem : Removes sl sl' l r t) (h : sl.Represents (l ++ t :: r))
    (hb : ∀ a, sl'.heap a ≠ none → a < sl'.top) : sl'.Represents (l ++ r) := by
  have hne : ∀ c ∈ sl.head :: (l ++ r).map (·.addr), c ≠ t.addr := fun c hc he => h.addr_not_mem (he ▸ hc)
  have hother : ∀ u ∈ l ++ r, u.addr ∈ sl.head :: (l ++ r).map (·.addr) :=
    fun u hu => List.mem_cons_of_mem _ (List.mem_map_of_mem hu)
  refine ⟨?_, hrem.chain h, ?_, fun u hu => h.linked u (mem_of_mem_others hu), ?_, ?_, hb⟩
  · rw [hrem.head, hrem.data _ (hne _ List.mem_cons_self), h.head_data]
  · intro u hu
    rw [hrem.data _ (hne _ (hother u hu)), h.node_data u (mem_of_mem_others hu)]
  · intro u hu i hi
    have hnext := hrem.next i
    have hold := h.unlinked u (mem_of_mem_others hu) i hi
    by_cases hh : i.val < t.height
    · rw [if_pos hh] at hnext
      rw [hnext.2 u.addr (hne _ (hother u hu)) (h.ne_pred (mem_of_mem_others hu) hi), hold]
    · rw [if_neg hh] at hnext
      rw [hnext u.addr (hne _ (hother u hu)), hold]
  · obtain ⟨hls, htrs, hlr⟩ := List.pairwise_append.mp h.sorted
    exact List.pairwise_append.mpr ⟨hls, (List.pairwise_cons.mp htrs).2,
      fun a ha b hb => hlr a ha b (List.mem_cons_of_mem t hb)⟩

end Remove

/-- `erase` on a key the list holds unlinks the node on all its levels and frees it. -/
theorem erase_old (h : sl.Represents (l ++ t :: r)) :
    ∃ sl', sl.erase t.key = some (sl', some (nodeSize t.value.capacity)) ∧
      sl'.Represents (l ++ r) ∧ sl'.head = sl.head ∧
      ∀ a, sl'.heap a ≠ none → a ≠ t.addr ∧ sl.heap a ≠ none := by
  obtain ⟨hl, hr⟩ := h.around
  have hfind := find_eq h hl hr
  have hnext := next_bottom_pred h
  obtain ⟨n, hn, hkey, hval⟩ := h.node (List.mem_append_right l List.mem_cons_self)
  have hlive : ∀ i, sl.heap (lastCell sl.head (levelAddrs l i)) ≠ none :=
    fun i => h.live _ (lastCell_level_mem sl.head l (t :: r) i)
  obtain ⟨h₂, hunlink, hd₂, hn₂⟩ := unlink_eq (fun i => lastCell sl.head (levelAddrs l i))
    t.height (List.finRange level) sl.heap (List.nodup_finRange level)
    (by rw [hn]; simp) (fun i _ => hlive i) (fun i _ => h.pred_next_iff i)
  have hfree : h₂ t.addr ≠ none := (Heap.ne_none_of_data_eq hd₂ _).mpr (by rw [hn]; simp)
  have hback : ∀ a, Function.update h₂ t.addr none a ≠ none → a ≠ t.addr ∧ sl.heap a ≠ none := by
    intro a ha
    by_cases hat : a = t.addr
    · simp [hat] at ha
    · rw [Function.update_of_ne hat] at ha
      exact ⟨hat, (Heap.ne_none_of_data_eq hd₂ _).mp ha⟩
  refine ⟨⟨sl.head, Function.update h₂ t.addr none, sl.top⟩, ?_, ?_, rfl, hback⟩
  · unfold erase
    simp only [hfind, hnext, hn, hkey, hval, hunlink, Option.bind_eq_bind, Option.bind_some,
      List.head?_cons, Option.map_some, ne_eq, not_true_eq_false, if_false, Heap.free_eq h₂ hfree]
  · have hrem : Removes sl ⟨sl.head, Function.update h₂ t.addr none, sl.top⟩ l r t := by
      refine ⟨rfl, ?_, ?_⟩
      · intro c hc
        rw [Heap.data_free, if_neg hc, hd₂]
      · intro i
        have hi := hn₂ i
        have hpred : lastCell sl.head (levelAddrs l i) ≠ t.addr :=
          fun he => h.addr_not_mem (he ▸ lastCell_level_mem sl.head l r i)
        simp only [mem_takeWhile_levels] at hi
        by_cases hh : i.val < t.height
        · rw [if_pos hh] at hi ⊢
          refine ⟨?_, ?_⟩
          · rw [Heap.next_free, if_neg hpred, hi.1]
          · intro c hc hcl
            rw [Heap.next_free, if_neg hc, hi.2 c hcl]
        · rw [if_neg hh] at hi ⊢
          intro c hc
          rw [Heap.next_free, if_neg hc, hi]
    exact hrem.represents h fun a ha => h.below a (hback a ha).2

theorem erase_absent (h : sl.Represents ts) (hnum : ∀ t ∈ ts, t.key ≠ num) :
    sl.erase num = some (sl, none) := by
  obtain ⟨l, r, rfl, hl, hr⟩ := exists_split h.sorted num
  have hfind := find_eq h hl hr
  have hnext := next_bottom_pred h
  unfold erase
  simp only [hfind, hnext, Option.bind_eq_bind, Option.bind_some]
  cases r with
  | nil => rfl
  | cons t r =>
    have ht : t ∈ l ++ t :: r := List.mem_append_right l List.mem_cons_self
    obtain ⟨n, hn, hk, _⟩ := h.node ht
    have hne : n.key ≠ num := hk ▸ hnum t ht
    simp [hn, hne]

/-! ## The destructor body -/

theorem clear_eq (h : sl.Represents ts) :
    ∃ sl', sl.clear = some sl' ∧ sl'.Represents [] ∧ sl'.head = sl.head ∧
      (sl.NoLeak ts → sl'.NoLeak []) := by
  have hc := h.chain bottom
  rw [levelAddrs_bottom h.linked] at hc
  have hlen := h.level_length bottom
  rw [levelAddrs_bottom h.linked] at hlen
  have hnd := hc.nodup
  obtain ⟨h₁, hf, heq⟩ := freeFrom_eq (ts.map (·.addr)) sl.heap sl.fuel
    (by unfold fuel; omega) (fun a m he => by rw [he] at hc; exact hc.2)
  have hhead : h₁ sl.head = sl.heap sl.head := by
    rw [heq, if_neg (List.nodup_cons.mp hnd).1]
  obtain ⟨n, hn⟩ := Option.ne_none_iff_exists'.mp (h.live sl.head List.mem_cons_self)
  -- what survives was alive before and is not one of the freed nodes
  have hlive : ∀ a, h₁ a ≠ none → sl.heap a ≠ none ∧ a ∉ ts.map (·.addr) := by
    intro a ha
    rw [heq] at ha
    by_cases hm : a ∈ ts.map (·.addr)
    · simp [hm] at ha
    · rw [if_neg hm] at ha
      exact ⟨ha, hm⟩
  have hdata := h.head_data
  refine ⟨{ sl with heap := Function.update h₁ sl.head (some { n with next := fun _ => none }) },
    ?_, ⟨?_, ?_, by simp, by simp, by simp, by simp, ?_⟩, rfl, ?_⟩
  · unfold clear resetHead
    simp only [hc.head_link, hf, hhead, hn, Option.bind_eq_bind, Option.bind_some, Option.map_some]
  · simp only [Heap.data, hn, Option.map_some] at hdata
    simpa [Heap.data] using hdata
  · intro i
    simp [levelAddrs, Chain, Heap.next]
  · intro a ha
    by_cases hah : a = sl.head
    · rw [hah]
      exact h.below sl.head (h.live sl.head List.mem_cons_self)
    · simp only [Function.update_of_ne hah] at ha
      exact h.below a (hlive a ha).1
  · intro hleak a ha
    by_cases hah : a = sl.head
    · exact Or.inl hah
    · simp only [Function.update_of_ne hah] at ha
      obtain ⟨hold, hm⟩ := hlive a ha
      rcases hleak a hold with he | he
      · exact Or.inl he
      · exact absurd he hm

theorem new_represents : new.Represents [] := by
  refine ⟨by simp [new, Heap.data], ?_, by simp, by simp, by simp, by simp, ?_⟩
  · intro i
    simp [levelAddrs, Chain, Heap.next, new]
  · intro a ha
    by_cases h0 : a = 0
    · subst h0
      exact Nat.one_pos
    · simp [new, h0] at ha

theorem new_noLeak : new.NoLeak [] := by
  intro a ha
  by_cases h0 : a = 0
  · exact Or.inl h0
  · simp [new, h0] at ha

end Skiplist

end KVStorage

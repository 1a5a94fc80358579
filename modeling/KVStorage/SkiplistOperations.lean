import KVStorage.SkiplistInvariant

/-!
# What `add`, `erase`, `search` and the destructor do to the towers

Each loop over levels gets one lemma that says which links it changed; the
operations then act on the list of towers at the place where `find` splits it.
-/

namespace KVStorage

set_option autoImplicit false

open LinkedChain

namespace Heap

theorem setNext_eq (h : Heap) {a : Addr} (i : Fin level) (x : Option Addr) (ha : h a ≠ none) :
    ∃ h', h.setNext a i x = some h' ∧ h'.data = h.data ∧
      ∀ j c, h'.next j c = if j = i ∧ c = a then some x else h.next j c := by
  obtain ⟨n, hn⟩ := Option.ne_none_iff_exists'.mp ha
  refine ⟨_, by rw [setNext, hn]; rfl, ?_, ?_⟩
  · funext c
    by_cases hc : c = a
    · subst c
      simp [data, hn]
    · simp [data, hc]
  · intro j c
    by_cases hc : c = a
    · subst c
      by_cases hj : j = i
      · simp [next, hj]
      · simp [next, hj, hn]
    · simp [next, hc]

theorem setValue_eq (h : Heap) {a : Addr} {n : Node} (v : CppString) (hn : h a = some n) :
    ∃ h', h.setValue a v = some h' ∧ (∀ i, h'.next i = h.next i) ∧
      ∀ c, h'.data c = if c = a then some (n.key, n.value.assign v) else h.data c := by
  refine ⟨_, by rw [setValue, hn]; rfl, ?_, ?_⟩
  · intro i
    funext c
    by_cases hc : c = a
    · subst c
      simp [next, hn]
    · simp [next, hc]
  · intro c
    by_cases hc : c = a
    · subst c
      simp [data]
    · simp [data, hc]

theorem free_eq (h : Heap) {a : Addr} (ha : h a ≠ none) :
    h.free a = some (Function.update h a none) := by
  obtain ⟨n, hn⟩ := Option.ne_none_iff_exists'.mp ha
  simp [free, hn]

theorem next_free (h : Heap) (a c : Addr) (i : Fin level) :
    next (Function.update h a none) i c = if c = a then none else h.next i c := by
  by_cases hc : c = a <;> simp [next, hc]

theorem data_free (h : Heap) (a c : Addr) :
    data (Function.update h a none) c = if c = a then none else h.data c := by
  by_cases hc : c = a <;> simp [data, hc]

theorem ne_none_of_data_eq {h h' : Heap} (hd : h'.data = h.data) (a : Addr) :
    h' a ≠ none ↔ h a ≠ none := by
  rw [ne_eq, ne_eq, ← data_eq_none_iff, ← data_eq_none_iff, hd]

theorem key_eq_of_data_eq {h h' : Heap} (hd : h'.data = h.data) (a : Addr) : h'.key a = h.key a := by
  have hk : ∀ h : Heap, h.key a = (h.data a).map Prod.fst := by
    intro h
    rw [key, data, Option.map_map]
    rfl
  rw [hk, hk, hd]

end Heap

namespace Skiplist

/-- The levels of `is` the insertion loop reaches. -/
def linkedLevels (flips : Fin level → Bool) : List (Fin level) → List (Fin level)
  | [] => []
  | i :: is => i :: if flips i then [] else linkedLevels flips is

/-- The number of levels a new node is linked on. -/
def towerHeight (flips : Fin level → Bool) : Nat :=
  (linkedLevels flips (List.finRange level)).length

theorem linkedLevels_initial (flips : Fin level → Bool) (is : List (Fin level)) :
    (linkedLevels flips is).IsPrefix is := by
  induction is with
  | nil => exact List.prefix_rfl
  | cons i is ih =>
    unfold linkedLevels
    split
    · exact ⟨is, rfl⟩
    · exact (List.cons_prefix_cons).mpr ⟨rfl, ih⟩

theorem mem_linkedLevels (flips : Fin level → Bool) (i : Fin level) :
    i ∈ linkedLevels flips (List.finRange level) ↔ i.val < towerHeight flips := by
  rw [List.prefix_iff_eq_take.mp (linkedLevels_initial flips (List.finRange level)),
    List.mem_take_iff_getElem]
  constructor
  · rintro ⟨j, hj, hji⟩
    rw [List.getElem_finRange] at hji
    have hv : i.val = j := by rw [← hji]; rfl
    unfold towerHeight
    omega
  · intro hi
    refine ⟨i.val, ?_, by simp⟩
    rw [List.length_finRange]
    exact Nat.lt_min.mpr ⟨hi, i.isLt⟩

theorem towerHeight_pos (flips : Fin level → Bool) : 0 < towerHeight flips := by
  have hr : List.finRange level = bottom :: (List.finRange 7).map Fin.succ := List.finRange_succ
  have h : bottom ∈ linkedLevels flips (List.finRange level) := by
    rw [hr]
    exact List.mem_cons_self
  exact (mem_linkedLevels flips bottom).mp h

/-- The two assignments of the insertion loop on level `i` touch that level only. -/
theorem insertAt_eq {node p : Addr} (h : Heap) (i : Fin level) (hnode : h node ≠ none) (hp : h p ≠ none)
    (hne : p ≠ node) :
    ∃ after h₁ h₂, h.next i p = some after ∧ h.setNext node i after = some h₁ ∧
      h₁.setNext p i (some node) = some h₂ ∧ h₂.data = h.data ∧
      (h₂.next i node = h.next i p ∧ h₂.next i p = some (some node) ∧
        ∀ c, c ≠ node → c ≠ p → h₂.next i c = h.next i c) ∧
      ∀ j, j ≠ i → h₂.next j = h.next j := by
  obtain ⟨q, hq⟩ := Option.ne_none_iff_exists'.mp hp
  have hafter : h.next i p = some (q.next i) := by simp [Heap.next, hq]
  obtain ⟨h₁, hs₁, hd₁, hn₁⟩ := h.setNext_eq i (q.next i) hnode
  obtain ⟨h₂, hs₂, hd₂, hn₂⟩ := h₁.setNext_eq i (some node) ((Heap.ne_none_of_data_eq hd₁ _).mpr hp)
  refine ⟨_, h₁, h₂, hafter, hs₁, hs₂, hd₂.trans hd₁, ⟨?_, ?_, ?_⟩, ?_⟩
  · rw [hn₂, if_neg (fun hc => hne hc.2.symm), hn₁, if_pos ⟨rfl, rfl⟩, hafter]
  · rw [hn₂, if_pos ⟨rfl, rfl⟩]
  · intro c hcn hcp
    rw [hn₂, if_neg (fun hc => hcp hc.2), hn₁, if_neg (fun hc => hcn hc.2)]
  · intro j hj
    funext c
    rw [hn₂, if_neg (fun hc => hj hc.1), hn₁, if_neg (fun hc => hj hc.1)]

/-- The insertion loop puts `node` after `pre i` on every level it reaches. -/
theorem link_eq (node : Addr) (pre : Fin level → Addr) (flips : Fin level → Bool)
    (is : List (Fin level)) (h : Heap) (his : is.Nodup) (hnode : h node ≠ none)
    (hpre : ∀ i ∈ is, h (pre i) ≠ none) (hne : ∀ i, pre i ≠ node) :
    ∃ h', link node pre flips is h = some h' ∧ h'.data = h.data ∧
      ∀ i, if i ∈ linkedLevels flips is then
        h'.next i node = h.next i (pre i) ∧ h'.next i (pre i) = some (some node) ∧
          ∀ c, c ≠ node → c ≠ pre i → h'.next i c = h.next i c
      else h'.next i = h.next i := by
  induction is generalizing h with
  | nil => exact ⟨h, rfl, rfl, by simp [linkedLevels]⟩
  | cons i is ih =>
    obtain ⟨hi, his⟩ := List.nodup_cons.mp his
    obtain ⟨after, h₁, h₂, hafter, hs₁, hs₂, hd, hlevel, hother⟩ :=
      insertAt_eq h i hnode (hpre i List.mem_cons_self) (hne i)
    by_cases hf : flips i = true
    · refine ⟨h₂, ?_, hd, ?_⟩
      · simp [link, hafter, hs₁, hs₂, hf]
      · intro j
        by_cases hj : j = i
        · subst j
          rw [if_pos (by simp [linkedLevels])]
          exact hlevel
        · rw [if_neg (by simp [linkedLevels, hf, hj])]
          exact hother j hj
    · obtain ⟨h', hl', hd', hn'⟩ := ih h₂ his ((Heap.ne_none_of_data_eq hd _).mpr hnode)
        (fun j hj => (Heap.ne_none_of_data_eq hd _).mpr (hpre j (List.mem_cons_of_mem i hj)))
      refine ⟨h', ?_, hd'.trans hd, ?_⟩
      · simp [link, hafter, hs₁, hs₂, hf, hl']
      · intro j
        have hj' := hn' j
        by_cases hj : j = i
        · subst j
          rw [if_pos (by simp [linkedLevels])]
          have hnot : i ∉ linkedLevels flips is :=
            fun hm => hi ((linkedLevels_initial flips is).subset hm)
          rw [if_neg hnot] at hj'
          rw [hj']
          exact hlevel
        · rw [hother j hj] at hj'
          by_cases hm : j ∈ linkedLevels flips is
          · rw [if_pos hm] at hj'
            rw [if_pos (by simp [linkedLevels, hf, hm])]
            exact hj'
          · rw [if_neg hm] at hj'
            rw [if_neg (by simp [linkedLevels, hf, hm, hj])]
            exact hj'

/-- The unlinking loop removes `p` from its levels, given that `pre i` points to `p`
exactly below level `k`, and leaves the levels above alone. -/
theorem unlink_eq {p : Addr} (pre : Fin level → Addr) (k : Nat) (is : List (Fin level)) (h : Heap)
    (his : is.Nodup) (hp : h p ≠ none) (hpre : ∀ i ∈ is, h (pre i) ≠ none)
    (hiff : ∀ i ∈ is, h.next i (pre i) = some (some p) ↔ i.val < k) :
    ∃ h', unlink p pre is h = some h' ∧ h'.data = h.data ∧
      ∀ i, if i ∈ is.takeWhile (fun i => i.val < k) then
        h'.next i (pre i) = h.next i p ∧ ∀ c, c ≠ pre i → h'.next i c = h.next i c
      else h'.next i = h.next i := by
  induction is generalizing h with
  | nil => exact ⟨h, rfl, rfl, by simp⟩
  | cons i is ih =>
    obtain ⟨hi, his⟩ := List.nodup_cons.mp his
    obtain ⟨q, hq⟩ := Option.ne_none_iff_exists'.mp (hpre i List.mem_cons_self)
    obtain ⟨n, hn⟩ := Option.ne_none_iff_exists'.mp hp
    have hafter : h.next i p = some (n.next i) := by simp [Heap.next, hn]
    have hnext : h.next i (pre i) = some (q.next i) := by simp [Heap.next, hq]
    by_cases hk : i.val < k
    · have hqp : q.next i = some p := by
        have := (hiff i List.mem_cons_self).mpr hk
        rw [hnext] at this
        exact Option.some.inj this
      obtain ⟨h₁, hs₁, hd₁, hn₁⟩ := h.setNext_eq i (n.next i) (hpre i List.mem_cons_self)
      have hother : ∀ j, j ≠ i → h₁.next j = h.next j := by
        intro j hj
        funext c
        rw [hn₁, if_neg (fun hc => hj hc.1)]
      have hnei : ∀ j ∈ is, j ≠ i := fun j hj hc => hi (hc ▸ hj)
      obtain ⟨h', hu', hd', hn'⟩ := ih h₁ his ((Heap.ne_none_of_data_eq hd₁ _).mpr hp)
        (fun j hj => (Heap.ne_none_of_data_eq hd₁ _).mpr (hpre j (List.mem_cons_of_mem i hj)))
        (fun j hj => by rw [hother j (hnei j hj)]; exact hiff j (List.mem_cons_of_mem i hj))
      refine ⟨h', ?_, hd'.trans hd₁, ?_⟩
      · simp [unlink, hnext, hqp, hafter, hs₁, hu']
      · intro j
        have hj' := hn' j
        have htake : (i :: is).takeWhile (fun i => i.val < k) =
            i :: is.takeWhile (fun i => i.val < k) := by simp [hk]
        rw [htake]
        by_cases hj : j = i
        · subst hj
          have hnot : j ∉ is.takeWhile (fun i => i.val < k) :=
            fun hm => hi ((List.takeWhile_prefix _).subset hm)
          rw [if_neg hnot] at hj'
          rw [if_pos List.mem_cons_self, hj']
          refine ⟨?_, ?_⟩
          · rw [hn₁, if_pos ⟨rfl, rfl⟩, hafter]
          · intro c hc
            rw [hn₁, if_neg (fun hcc => hc hcc.2)]
        · rw [hother j hj] at hj'
          simpa only [List.mem_cons, hj, false_or] using hj'
    · refine ⟨h, ?_, rfl, ?_⟩
      · have hqp : q.next i ≠ some p := by
          intro hc
          exact hk ((hiff i List.mem_cons_self).mp (hnext.trans (congrArg some hc)))
        simp [unlink, hnext, hqp]
      · intro j
        simp [hk]

theorem mem_takeWhile_of_sorted (k : Nat) (is : List (Fin level)) (h : is.Pairwise (· < ·))
    (i : Fin level) : i ∈ is.takeWhile (fun i => i.val < k) ↔ i ∈ is ∧ i.val < k := by
  induction is with
  | nil => simp
  | cons j is ih =>
    obtain ⟨hj, his⟩ := List.pairwise_cons.mp h
    by_cases hk : j.val < k
    · rw [List.takeWhile_cons, if_pos (decide_eq_true hk), List.mem_cons, List.mem_cons, ih his]
      constructor
      · rintro (rfl | ⟨hi, hik⟩)
        · exact ⟨Or.inl rfl, hk⟩
        · exact ⟨Or.inr hi, hik⟩
      · rintro ⟨hi | hi, hik⟩
        · exact Or.inl hi
        · exact Or.inr ⟨hi, hik⟩
    · rw [List.takeWhile_cons, if_neg (by simpa using hk)]
      simp only [List.not_mem_nil, List.mem_cons, false_iff, not_and]
      rintro (rfl | hi) hik
      · exact hk hik
      · have hlt : j.val < i.val := hj i hi
        omega

theorem mem_takeWhile_levels (i : Fin level) (k : Nat) :
    i ∈ (List.finRange level).takeWhile (fun i => i.val < k) ↔ i.val < k := by
  rw [mem_takeWhile_of_sorted k _ (List.pairwise_lt_finRange level)]
  exact and_iff_right (List.mem_finRange i)

theorem chain_free {a : Addr} {l : List Addr} {h : Heap} (hc : Chain (h.next bottom) a l) :
    ∀ b m, l = b :: m → Chain (Heap.next (Function.update h a none) bottom) b m := by
  rintro b m rfl
  apply hc.2.frame
  intro c hcm
  rw [Heap.next_free, if_neg]
  rintro rfl
  exact hc.start_not_mem hcm

theorem freeFrom_eq (l : List Addr) (h : Heap) (fuel : Nat) (hfuel : l.length ≤ fuel)
    (hc : ∀ a m, l = a :: m → Chain (h.next bottom) a m) :
    ∃ h', freeFrom fuel l.head? h = some h' ∧ ∀ c, h' c = if c ∈ l then none else h c := by
  induction l generalizing h fuel with
  | nil => exact ⟨h, by simp [freeFrom], by simp⟩
  | cons a l ih =>
    obtain ⟨n, rfl⟩ : ∃ n, fuel = n + 1 := ⟨fuel - 1, by simp at hfuel; omega⟩
    have hchain := hc a l rfl
    have ha : h a ≠ none := fun hn =>
      hchain.cell List.mem_cons_self ((Heap.next_eq_none_iff _ _ _).mpr hn)
    obtain ⟨h', hf, heq⟩ := ih (Function.update h a none) n (by simpa using hfuel)
      (chain_free hchain)
    refine ⟨h', ?_, ?_⟩
    · simp [freeFrom, hchain.head_link, h.free_eq ha, hf]
    · intro c
      rw [heq]
      by_cases hca : c = a <;> simp [hca]

end Skiplist

end KVStorage

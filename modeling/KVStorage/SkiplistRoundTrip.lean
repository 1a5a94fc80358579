import KVStorage.SkiplistCodec

/-!
# When a list survives the codec

The two loops of `deserialize` get one lemma each. A list whose keys avoid the
two reserved ones comes back with the same towers at new addresses. Key -2 is
read as null, and key -1 makes the head share the links of a node.
-/

namespace KVStorage

set_option autoImplicit false

open LinkedChain

namespace Skiplist

variable {sl : Skiplist} {ts : List Tower} {nm : NodeMap} {head : Addr}

/-! ## The first loop -/

/-- What `createNodes` does to the list and to the node map. -/
structure Created (sl : Skiplist) (rs : List NodeProto) (nm : NodeMap)
    (sl' : Skiplist) (nm' : NodeMap) : Prop where
  head_eq : sl'.head = sl.head
  old : ∀ a, a < sl.top → sl'.heap a = sl.heap a
  fresh : ∀ a, sl.top ≤ a → sl'.heap a ≠ none → ∀ i, sl'.heap.next i a = some none
  below : ∀ a, sl'.heap a ≠ none → a < sl'.top
  absent : ∀ k, k ∉ rs.map (·.key) → nm' k = nm k
  mapped : ∀ k, k ∈ rs.map (·.key) → ∃ a r, nm' k = some a ∧ sl.top ≤ a ∧ r ∈ rs ∧ r.key = k ∧
    sl'.heap.data a = some (k, CppString.ofBytes r.value)

theorem createNodes_created (rs : List NodeProto) (sl : Skiplist) (nm : NodeMap) (size : SizeT)
    (hb : ∀ a, sl.heap a ≠ none → a < sl.top) :
    Created sl rs nm (createNodes rs sl nm size).1 (createNodes rs sl nm size).2.1 := by
  induction rs generalizing sl nm size with
  | nil =>
    refine ⟨rfl, fun _ _ => rfl, ?_, hb, fun _ _ => rfl, by simp⟩
    intro a ha hn
    exact absurd (hb a hn) (not_lt.mpr ha)
  | cons r rs ih =>
    have hb₁ : ∀ a, (sl.newNode r.key r.value).1.heap a ≠ none → a < sl.top + 1 := by
      intro a ha
      by_cases hc : a = sl.top
      · exact hc ▸ Nat.lt_succ_self _
      · simp only [newNode, Function.update_of_ne hc] at ha
        exact Nat.lt_succ_of_lt (hb a ha)
    have h := ih (sl.newNode r.key r.value).1
      (Function.update nm r.key (some (sl.newNode r.key r.value).2))
      (size + nodeSize (CppString.empty.assign (CppString.ofBytes r.value)).capacity) hb₁
    refine ⟨h.head_eq, ?_, ?_, h.below, ?_, ?_⟩
    · intro a ha
      rw [createNodes, h.old a (Nat.lt_succ_of_lt ha)]
      have hne : a ≠ sl.top := ha.ne
      simp [newNode, hne]
    · intro a ha hn i
      rcases Nat.eq_or_lt_of_le ha with rfl | hlt
      · rw [createNodes, Heap.next, h.old sl.top (Nat.lt_succ_self _)]
        simp [newNode]
      · exact h.fresh a hlt hn i
    · intro k hk
      simp only [List.map_cons, List.mem_cons, not_or] at hk
      rw [createNodes, h.absent k hk.2, Function.update_of_ne hk.1]
    · intro k hk
      by_cases hm : k ∈ rs.map (·.key)
      · obtain ⟨a, s, hnm, hle, hs, hkey, hdata⟩ := h.mapped k hm
        exact ⟨a, s, hnm, Nat.le_of_succ_le hle, List.mem_cons_of_mem r hs, hkey, hdata⟩
      · have hkey : k = r.key := by
          rcases List.mem_cons.mp hk with he | hm'
          · exact he
          · exact absurd hm' hm
        subst hkey
        refine ⟨sl.top, r, ?_, le_rfl, List.mem_cons_self, rfl, ?_⟩
        · rw [createNodes, h.absent _ hm, Function.update_self]
          rfl
        · rw [createNodes, Heap.data, h.old sl.top (Nat.lt_succ_self _)]
          simp [newNode]

/-! ## The second loop -/

/-- The key linked on level `j` by the entries from level `i` on. -/
def linkedKey : Nat → List Int32 → Fin level → Option Int32
  | _, [], _ => none
  | i, k :: rest, j =>
    if j.val = i then (if k = -2 then none else some k) else linkedKey (i + 1) rest j

theorem linkedKey_lt {i : Nat} {rest : List Int32} {j : Fin level} (h : j.val < i) :
    linkedKey i rest j = none := by
  induction rest generalizing i with
  | nil => rfl
  | cons k rest ih =>
    have hne : ¬j.val = i := by omega
    rw [linkedKey, if_neg hne, ih (by omega)]

theorem linkedKey_ne_null {i : Nat} {rest : List Int32} {j : Fin level} {k : Int32}
    (h : linkedKey i rest j = some k) : k ≠ -2 := by
  induction rest generalizing i with
  | nil => simp [linkedKey] at h
  | cons k' rest ih =>
    unfold linkedKey at h
    by_cases hj : j.val = i
    · rw [if_pos hj] at h
      split at h
      · simp at h
      · rename_i hk
        simp only [Option.some.injEq] at h
        exact h ▸ hk
    · rw [if_neg hj] at h
      exact ih h

theorem linkedKey_getElem {i : Nat} {rest : List Int32} {j : Fin level} (h : i ≤ j.val) :
    linkedKey i rest j = (rest[j.val - i]?).bind fun k => if k = -2 then none else some k := by
  induction rest generalizing i with
  | nil => rfl
  | cons k rest ih =>
    unfold linkedKey
    by_cases hj : j.val = i
    · simp [hj]
    · have hs : j.val - i = (j.val - (i + 1)) + 1 := by omega
      rw [if_neg hj, ih (by omega), hs, List.getElem?_cons_succ]

theorem linkedKey_map (entry : Fin level → Int32) (j : Fin level) :
    linkedKey 0 ((List.finRange level).map entry) j = if entry j = -2 then none else some (entry j) := by
  rw [linkedKey_getElem (Nat.zero_le _)]
  have hj : ((List.finRange level).map entry)[j.val - 0]? = some (entry j) := by
    simp [j.isLt]
  rw [hj]
  rfl

/-- The cells `setLinks` writes to for a record. -/
def Touches (nm : NodeMap) (head : Addr) (r : NodeProto) (c : Addr) : Prop :=
  nm r.key = some c ∨ (r.key = -1 ∧ c = head)

theorem setHeadLink_eq {h : Heap} (key : Int32) (i : Fin level) (x : Option Addr)
    (hhead : h head ≠ none) :
    ∃ h', setHeadLink head key i x h = some h' ∧ h'.data = h.data ∧
      ∀ j c, h'.next j c = if (key = -1 ∧ c = head) ∧ j = i then some x else h.next j c := by
  unfold setHeadLink
  by_cases hkey : key = -1
  · obtain ⟨h', hset, hdata, hnext⟩ := h.setNext_eq i x hhead
    refine ⟨h', by rw [if_pos hkey, hset], hdata, ?_⟩
    intro j c
    rw [hnext]
    simp only [hkey, true_and, and_comm]
  · exact ⟨h, by rw [if_neg hkey], rfl, fun j c => by simp [hkey]⟩

/-- The entries that fall on no level, from level `i` on and from the next one on. -/
theorem fits_cons {k : Int32} {rest : List Int32} {i : Nat} :
    (∀ k' ∈ (k :: rest).drop (level - i), k' = -2) ↔
      (level ≤ i → k = -2) ∧ ∀ k' ∈ rest.drop (level - (i + 1)), k' = -2 := by
  by_cases hi : i < level
  · have hs : level - i = level - (i + 1) + 1 := by omega
    rw [hs, List.drop_succ_cons]
    exact ⟨fun h => ⟨fun hle => absurd hi (not_lt.mpr hle), h⟩, And.right⟩
  · have hs : level - i = 0 := by omega
    have hs' : level - (i + 1) = 0 := by omega
    rw [hs, hs', List.drop_zero, List.drop_zero, List.forall_mem_cons]
    exact and_congr_left fun _ => ⟨fun hk _ => hk, fun hk => hk (not_lt.mp hi)⟩

theorem setLinks_eq (nm : NodeMap) {node : Addr} (key : Int32) (i : Nat)
    (rest : List Int32) (h : Heap) (hfits : ∀ k ∈ rest.drop (level - i), k = -2) (hnode : h node ≠ none)
    (hhead : h head ≠ none) :
    ∃ h', setLinks nm head key node i rest h = some h' ∧ h'.data = h.data ∧
      ∀ j c, h'.next j c = match linkedKey i rest j with
        | none => h.next j c
        | some k => if c = node ∨ (key = -1 ∧ c = head) then some (nm k) else h.next j c := by
  induction rest generalizing i h with
  | nil => exact ⟨h, rfl, rfl, fun _ _ => rfl⟩
  | cons k rest ih =>
    obtain ⟨hlast, hrest⟩ := fits_cons.mp hfits
    by_cases hk : k = -2
    · obtain ⟨h', hset, hdata, hnext⟩ := ih (i + 1) h hrest hnode hhead
      refine ⟨h', by rw [setLinks, if_pos hk, hset], hdata, ?_⟩
      intro j c
      rw [hnext, linkedKey, if_pos hk]
      by_cases hj : j.val = i
      · rw [if_pos hj, linkedKey_lt (by omega)]
      · rw [if_neg hj]
    · have hi : i < level := not_le.mp fun hle => hk (hlast hle)
      obtain ⟨h₁, hset₁, hdata₁, hnext₁⟩ := setHeadLink_eq key ⟨i, hi⟩ (nm k) hhead
      obtain ⟨h₂, hset₂, hdata₂, hnext₂⟩ := h₁.setNext_eq ⟨i, hi⟩ (nm k)
        ((Heap.ne_none_of_data_eq hdata₁ node).mpr hnode)
      have hdata := hdata₂.trans hdata₁
      obtain ⟨h', hset, hdata', hnext⟩ := ih (i + 1) h₂ hrest
        ((Heap.ne_none_of_data_eq hdata node).mpr hnode)
        ((Heap.ne_none_of_data_eq hdata head).mpr hhead)
      refine ⟨h', ?_, hdata'.trans hdata, ?_⟩
      · rw [setLinks, if_neg hk, dif_pos hi]
        simp only [hset₁, hset₂, Option.bind_eq_bind, Option.bind_some, hset]
      · intro j c
        rw [hnext, linkedKey, if_neg hk]
        by_cases hj : j.val = i
        · have hji : j = ⟨i, hi⟩ := Fin.ext hj
          rw [if_pos hj, linkedKey_lt (by omega)]
          simp only [hnext₂, hnext₁, hji, true_and, and_true]
          by_cases hc : c = node <;> simp [hc]
        · have hji : j ≠ ⟨i, hi⟩ := fun he => hj (congrArg Fin.val he)
          rw [if_neg hj]
          simp only [hnext₂, hnext₁, hji, false_and, and_false, if_false]

/-- The records of a message can be linked: every list of entries fits the vector
and every node exists. -/
structure Linkable (nm : NodeMap) (head : Addr) (rs : List NodeProto) (h : Heap) : Prop where
  fits : ∀ r ∈ rs, r.next.length ≤ level
  node : ∀ r ∈ rs, ∃ a, nm r.key = some a ∧ h a ≠ none
  head_live : h head ≠ none

theorem Linkable.mono {rs rs' : List NodeProto} {h h' : Heap} (hl : Linkable nm head rs h)
    (hsub : ∀ r ∈ rs', r ∈ rs) (hd : h'.data = h.data) : Linkable nm head rs' h' where
  fits r hr := hl.fits r (hsub r hr)
  node r hr := by
    obtain ⟨a, ha, hn⟩ := hl.node r (hsub r hr)
    exact ⟨a, ha, (Heap.ne_none_of_data_eq hd a).mpr hn⟩
  head_live := (Heap.ne_none_of_data_eq hd head).mpr hl.head_live

theorem linkNodes_cons {r : NodeProto} {rs : List NodeProto} {h : Heap}
    (hl : Linkable nm head (r :: rs) h) :
    ∃ h₁, linkNodes nm head (r :: rs) h = linkNodes nm head rs h₁ ∧ h₁.data = h.data ∧
      ∀ j c, (Touches nm head r c → h₁.next j c = match linkedKey 0 r.next j with
          | none => h.next j c
          | some k => some (nm k)) ∧
        (¬Touches nm head r c → h₁.next j c = h.next j c) := by
  obtain ⟨a, ha, hn⟩ := hl.node r List.mem_cons_self
  have hfits : ∀ k ∈ r.next.drop (level - 0), k = -2 := by
    rw [List.drop_eq_nil_of_le (by simpa using hl.fits r List.mem_cons_self)]
    exact nofun
  obtain ⟨h₁, hset, hdata, hnext⟩ := setLinks_eq nm r.key 0 r.next h hfits hn hl.head_live
  have htouch : ∀ c, Touches nm head r c ↔ c = a ∨ (r.key = -1 ∧ c = head) := by
    intro c
    unfold Touches
    rw [ha, Option.some.injEq, eq_comm]
  refine ⟨h₁, ?_, hdata, ?_⟩
  · rw [linkNodes, ha]
    simp only [hset, Option.bind_eq_bind, Option.bind_some]
  · intro j c
    rw [hnext, htouch]
    cases linkedKey 0 r.next j with
    | none => simp
    | some k => exact ⟨fun hc => if_pos hc, fun hc => if_neg hc⟩

theorem linkNodes_eq (rs : List NodeProto) (h : Heap) (hl : Linkable nm head rs h) :
    ∃ h', linkNodes nm head rs h = some h' ∧ h'.data = h.data ∧
      ∀ c, (∀ r ∈ rs, ¬Touches nm head r c) → ∀ j, h'.next j c = h.next j c := by
  induction rs generalizing h with
  | nil => exact ⟨h, rfl, rfl, fun _ _ _ => rfl⟩
  | cons r rs ih =>
    obtain ⟨h₁, hstep, hdata, hnext⟩ := linkNodes_cons hl
    obtain ⟨h', hrest, hdata', hframe⟩ := ih h₁ (hl.mono (fun s hs => List.mem_cons_of_mem r hs) hdata)
    refine ⟨h', hstep.trans hrest, hdata'.trans hdata, ?_⟩
    intro c hc j
    rw [hframe c (fun s hs => hc s (List.mem_cons_of_mem r hs)) j]
    exact (hnext j c).2 (hc r List.mem_cons_self)

theorem linkNodes_append (rs ss : List NodeProto) (h : Heap) :
    linkNodes nm head (rs ++ ss) h = (linkNodes nm head rs h).bind (linkNodes nm head ss) := by
  induction rs generalizing h with
  | nil => rfl
  | cons r rs ih =>
    simp only [List.cons_append, linkNodes, Option.bind_eq_bind, ih, Option.bind_assoc]

/-- The pointer a record's entry becomes. -/
def target (nm : NodeMap) (k : Int32) : Option Addr := if k = -2 then none else nm k

/-- A cell that only one record writes to ends up with that record's links. -/
theorem linkNodes_at {rs : List NodeProto} {h : Heap} (hl : Linkable nm head rs h)
    {x y : List NodeProto} {r : NodeProto} {entry : Fin level → Int32} {c : Addr}
    (hrs : rs = x ++ r :: y) (hr : r.next = (List.finRange level).map entry)
    (hc : Touches nm head r c)
    (hx : ∀ r ∈ x, ¬Touches nm head r c) (hy : ∀ r ∈ y, ¬Touches nm head r c)
    (hnull : ∀ j, h.next j c = some none) {h' : Heap} (hlink : linkNodes nm head rs h = some h') :
    ∀ j, h'.next j c = some (target nm (entry j)) := by
  subst hrs
  obtain ⟨h₁, hrun₁, hdata₁, hframe₁⟩ := linkNodes_eq x h
    (hl.mono (fun r hr => List.mem_append_left _ hr) rfl)
  have hl₁ := hl.mono (fun r hr => List.mem_append_right x hr) hdata₁
  obtain ⟨h₂, hstep, hdata₂, hnext⟩ := linkNodes_cons hl₁
  obtain ⟨h₃, hrun₃, _, hframe₃⟩ := linkNodes_eq y h₂
    (hl₁.mono (fun r hr => List.mem_cons_of_mem _ hr) hdata₂)
  rw [linkNodes_append, hrun₁, Option.bind_some, hstep, hrun₃, Option.some.injEq] at hlink
  subst hlink
  intro j
  rw [hframe₃ c hy j, (hnext j c).1 hc, hr, linkedKey_map, hframe₁ c hx j, hnull j]
  unfold target
  by_cases hk : entry j = -2 <;> simp [hk]

/-! ## Lists without the reserved keys -/

theorem towerProtos_append (l r : List Tower) :
    ∃ x, towerProtos (l ++ r) = x ++ towerProtos r ∧ x.map (·.key) = l.map (·.key) := by
  induction l with
  | nil => exact ⟨[], rfl, rfl⟩
  | cons t l ih =>
    obtain ⟨x, hx, hkeys⟩ := ih
    exact ⟨_ :: x, by rw [List.cons_append, towerProtos, hx]; rfl, by simp [hkeys]⟩

theorem mem_towerProtos {r : NodeProto} (h : r ∈ towerProtos ts) :
    r.next.length = level ∧ ∃ t ∈ ts, r.key = t.key ∧ r.value = t.value.data := by
  induction ts with
  | nil => simp [towerProtos] at h
  | cons t ts ih =>
    rcases List.mem_cons.mp h with rfl | h
    · exact ⟨by simp, t, List.mem_cons_self, rfl, rfl⟩
    · obtain ⟨hlen, u, hu, hr⟩ := ih h
      exact ⟨hlen, u, List.mem_cons_of_mem t hu, hr⟩

theorem mem_protoOf {r : NodeProto} (h : r ∈ protoOf ts) :
    r.next.length = level ∧ (r.key = -1 ∧ r.value = [] ∨
      ∃ t ∈ ts, r.key = t.key ∧ r.value = t.value.data) := by
  rcases List.mem_cons.mp h with rfl | h
  · exact ⟨by simp, Or.inl ⟨rfl, rfl⟩⟩
  · obtain ⟨hlen, ht⟩ := mem_towerProtos h
    exact ⟨hlen, Or.inr ht⟩

theorem keys_towerProtos (ts : List Tower) : (towerProtos ts).map (·.key) = ts.map (·.key) := by
  induction ts with
  | nil => rfl
  | cons t ts ih => rw [towerProtos, List.map_cons, ih, List.map_cons]

/-- Between the two loops: the emptied list, and a fresh node for each key of a record. -/
structure Allotted (sl₁ : Skiplist) (nm : NodeMap) (rs : List NodeProto) : Prop where
  head_data : sl₁.heap.data sl₁.head = some (-1, CppString.empty)
  head_null : ∀ i, sl₁.heap.next i sl₁.head = some none
  below : ∀ a, sl₁.heap a ≠ none → a < sl₁.top
  unmapped : ∀ k, k ∉ rs.map (·.key) → nm k = none
  mapped : ∀ k, k ∈ rs.map (·.key) → ∃ a r, nm k = some a ∧ a ≠ sl₁.head ∧ r ∈ rs ∧ r.key = k ∧
    sl₁.heap.data a = some (k, CppString.ofBytes r.value) ∧ ∀ i, sl₁.heap.next i a = some none

section Allotted

variable {sl₁ : Skiplist} {rs : List NodeProto}

theorem Allotted.mapped_of_some (h : Allotted sl₁ nm rs) {k : Int32} {a : Addr} (ha : nm k = some a) :
    a ≠ sl₁.head ∧ sl₁.heap.key a = some k ∧ ∀ i, sl₁.heap.next i a = some none := by
  have hk : k ∈ rs.map (·.key) := by
    by_contra hk
    rw [h.unmapped k hk] at ha
    cases ha
  obtain ⟨b, r, hb, hne, _, _, hdata, hnull⟩ := h.mapped k hk
  rw [ha, Option.some.injEq] at hb
  subst hb
  exact ⟨hne, Heap.key_of_data hdata, hnull⟩

theorem Allotted.injective (h : Allotted sl₁ nm rs) {k k' : Int32} {a : Addr}
    (ha : nm k = some a) (ha' : nm k' = some a) : k = k' := by
  have hk := (h.mapped_of_some ha).2.1
  rw [(h.mapped_of_some ha').2.1, Option.some.injEq] at hk
  exact hk.symm

theorem Allotted.head_live (h : Allotted sl₁ nm rs) : sl₁.heap sl₁.head ≠ none := by
  rw [ne_eq, ← Heap.data_eq_none_iff, h.head_data]
  exact nofun

theorem Allotted.node (h : Allotted sl₁ nm rs) : ∀ r ∈ rs, ∃ a, nm r.key = some a ∧ sl₁.heap a ≠ none := by
  intro r hr
  obtain ⟨a, s, ha, _, _, _, hdata, _⟩ := h.mapped r.key (List.mem_map_of_mem hr)
  refine ⟨a, ha, ?_⟩
  rw [ne_eq, ← Heap.data_eq_none_iff, hdata]
  exact nofun

end Allotted

theorem rebuild_allotted {us : List Tower} (h : sl.Represents us) (rs : List NodeProto) :
    ∃ sl₁ nm size, Allotted sl₁ nm rs ∧
      sl.rebuild rs = (linkNodes nm sl₁.head rs sl₁.heap).bind fun heap =>
        (Skiplist.slprint { sl₁ with heap := heap }).map fun _ => ({ sl₁ with heap := heap }, size) := by
  obtain ⟨sl₀, hclear, hrep, _, _⟩ := clear_eq h
  have hc := createNodes_created rs sl₀ (fun _ => none) 0 hrep.below
  have hlow : sl₀.head < sl₀.top := hrep.below _ (hrep.live _ List.mem_cons_self)
  have hold := hc.old sl₀.head hlow
  refine ⟨(createNodes rs sl₀ (fun _ => none) 0).1, (createNodes rs sl₀ (fun _ => none) 0).2.1,
    (createNodes rs sl₀ (fun _ => none) 0).2.2, ⟨?_, ?_, hc.below, hc.absent, ?_⟩, ?_⟩
  · rw [hc.head_eq, Heap.data, hold]
    exact hrep.head_data
  · intro i
    rw [hc.head_eq, Heap.next, hold]
    exact (hrep.chain i).head_link
  · intro k hk
    obtain ⟨a, r, ha, hle, hr, hkey, hdata⟩ := hc.mapped k hk
    refine ⟨a, r, ha, ?_, hr, hkey, hdata, ?_⟩
    · rw [hc.head_eq]
      exact (hlow.trans_le hle).ne'
    · apply hc.fresh a hle
      rw [ne_eq, ← Heap.data_eq_none_iff, hdata]
      exact Option.some_ne_none _
  · simp only [rebuild, hclear, Option.bind_eq_bind, Option.bind_some, hc.head_eq, Option.map_eq_bind]
    rfl

/-- The state between the two loops: a fresh node for each key, besides the head. -/
structure Ready (sl₁ : Skiplist) (nm : NodeMap) (ts : List Tower) : Prop where
  head_data : sl₁.heap.data sl₁.head = some (-1, CppString.empty)
  head_null : ∀ i, sl₁.heap.next i sl₁.head = some none
  below : ∀ a, sl₁.heap a ≠ none → a < sl₁.top
  unmapped : ∀ k, k ≠ -1 → k ∉ ts.map (·.key) → nm k = none
  mapped : ∀ k, k = -1 ∨ k ∈ ts.map (·.key) → ∃ a r, nm k = some a ∧ a ≠ sl₁.head ∧
    r ∈ protoOf ts ∧ r.key = k ∧ sl₁.heap.data a = some (k, CppString.ofBytes r.value) ∧
      ∀ i, sl₁.heap.next i a = some none

theorem mem_protoOf_keys {k : Int32} : k ∈ (protoOf ts).map (·.key) ↔ k = -1 ∨ k ∈ ts.map (·.key) := by
  rw [protoOf, List.map_cons, keys_towerProtos, List.mem_cons]

theorem ready_iff_allotted {sl₁ : Skiplist} : Ready sl₁ nm ts ↔ Allotted sl₁ nm (protoOf ts) := by
  constructor
  · intro h
    refine ⟨h.head_data, h.head_null, h.below, ?_, fun k hk => h.mapped k (mem_protoOf_keys.mp hk)⟩
    intro k hk
    rw [mem_protoOf_keys, not_or] at hk
    exact h.unmapped k hk.1 hk.2
  · intro h
    refine ⟨h.head_data, h.head_null, h.below, ?_, fun k hk => h.mapped k (mem_protoOf_keys.mpr hk)⟩
    intro k hhead hk
    exact h.unmapped k fun hm => (mem_protoOf_keys.mp hm).elim hhead hk

theorem Ready.mapped_of_some {sl₁ : Skiplist} (h : Ready sl₁ nm ts) {k : Int32} {a : Addr}
    (ha : nm k = some a) : a ≠ sl₁.head ∧ sl₁.heap.key a = some k ∧
      ∀ i, sl₁.heap.next i a = some none := (ready_iff_allotted.mp h).mapped_of_some ha

theorem Ready.injective {sl₁ : Skiplist} (h : Ready sl₁ nm ts) {k k' : Int32} {a : Addr}
    (ha : nm k = some a) (ha' : nm k' = some a) : k = k' := (ready_iff_allotted.mp h).injective ha ha'

theorem Ready.linkable {sl₁ : Skiplist} (h : Ready sl₁ nm ts) :
    Linkable nm sl₁.head (protoOf ts) sl₁.heap where
  fits _ hr := (mem_protoOf hr).1.le
  node := (ready_iff_allotted.mp h).node
  head_live := (ready_iff_allotted.mp h).head_live

theorem rebuild_ready {us : List Tower} (h : sl.Represents us) (ts : List Tower) :
    ∃ sl₁ nm size, Ready sl₁ nm ts ∧
      sl.rebuild (protoOf ts) = (linkNodes nm sl₁.head (protoOf ts) sl₁.heap).bind fun heap =>
        (Skiplist.slprint { sl₁ with heap := heap }).map fun _ => ({ sl₁ with heap := heap }, size) := by
  obtain ⟨sl₁, nm, size, hallotted, hrebuild⟩ := rebuild_allotted h (protoOf ts)
  exact ⟨sl₁, nm, size, ready_iff_allotted.mpr hallotted, hrebuild⟩

/-- The tower of the rebuilt list that stands for `t`. -/
def rebuiltTower (nm : NodeMap) (t : Tower) : Tower :=
  { t with addr := (nm t.key).getD 0, value := CppString.ofBytes t.value.data }

theorem target_firstKey {us : List Tower} (hnm : ∀ u ∈ us, u.key ≠ -2 ∧ ∃ a, nm u.key = some a)
    (i : Fin level) : target nm (firstKey us i) = (levelAddrs (us.map (rebuiltTower nm)) i).head? := by
  rw [levelAddrs_head?, List.find?_map]
  unfold firstKey target
  have hp : ((fun t : Tower => decide (i.val < t.height)) ∘ rebuiltTower nm) =
      fun t : Tower => decide (i.val < t.height) := rfl
  rw [hp]
  cases hf : us.find? fun t => i.val < t.height with
  | none => rfl
  | some u =>
    obtain ⟨hk, a, ha⟩ := hnm u (List.mem_of_find?_eq_some hf)
    simp [hk, ha, rebuiltTower]

theorem Represents.tower_unique (h : sl.Represents ts) {t u : Tower} (ht : t ∈ ts) (hu : u ∈ ts)
    (hk : t.key = u.key) : t = u := by
  have hnd : (ts.map (·.key)).Nodup := List.pairwise_map.mpr (h.sorted.imp fun htu => htu.ne)
  exact List.inj_on_of_nodup_map hnd ht hu hk

/-- The links of the rebuilt list, read off the towers. -/
structure Relinked (sl₁ : Skiplist) (nm : NodeMap) (ts : List Tower) (heap : Heap) : Prop where
  data_eq : heap.data = sl₁.heap.data
  node : ∀ t ∈ ts, nm t.key = some (rebuiltTower nm t).addr
  head_next : ∀ i, heap.next i sl₁.head = some (levelAddrs (ts.map (rebuiltTower nm)) i).head?
  tower_next : ∀ l t r, ts = l ++ t :: r → ∀ i, heap.next i (rebuiltTower nm t).addr =
    some (if i.val < t.height then (levelAddrs (r.map (rebuiltTower nm)) i).head? else none)

section Relink
variable {sl₁ : Skiplist} {heap : Heap}

theorem Ready.linked_key (h : Ready sl₁ nm ts) (hkeys : ∀ t ∈ ts, t.key ≠ -1 ∧ t.key ≠ -2) :
    ∀ t ∈ ts, t.key ≠ -2 ∧ ∃ a, nm t.key = some a := by
  intro t ht
  obtain ⟨a, _, ha, _⟩ := h.mapped t.key (Or.inr (List.mem_map_of_mem ht))
  exact ⟨(hkeys t ht).2, a, ha⟩

theorem Ready.rebuilt_addr (h : Ready sl₁ nm ts) {t : Tower} (ht : t ∈ ts) :
    nm t.key = some (rebuiltTower nm t).addr := by
  obtain ⟨a, _, ha, _⟩ := h.mapped t.key (Or.inr (List.mem_map_of_mem ht))
  simp [rebuiltTower, ha]

theorem Ready.not_touched (h : Ready sl₁ nm ts) {rs : List NodeProto} {k : Int32} {a : Addr}
    (ha : nm k = some a) (hk : k ∉ rs.map (·.key)) : ∀ r ∈ rs, ¬Touches nm sl₁.head r a := by
  intro r hr htouch
  rcases htouch with hra | ⟨_, hra⟩
  · exact hk (h.injective ha hra ▸ List.mem_map_of_mem hr)
  · exact (h.mapped_of_some ha).1 hra

theorem Ready.head_relinked (h : Ready sl₁ nm ts) (hkeys : ∀ t ∈ ts, t.key ≠ -1 ∧ t.key ≠ -2)
    (hlink : linkNodes nm sl₁.head (protoOf ts) sl₁.heap = some heap) (i : Fin level) :
    heap.next i sl₁.head = some (levelAddrs (ts.map (rebuiltTower nm)) i).head? := by
  have hsplit : protoOf ts = [] ++ ⟨-1, [], (List.finRange level).map (firstKey ts)⟩ ::
      towerProtos ts := rfl
  rw [← target_firstKey (h.linked_key hkeys)]
  refine linkNodes_at h.linkable hsplit rfl (Or.inr ⟨rfl, rfl⟩) (by simp) ?_ h.head_null hlink i
  intro r hr htouch
  rcases htouch with hra | ⟨hk, _⟩
  · exact (h.mapped_of_some hra).1 rfl
  · obtain ⟨_, t, ht, hrt, _⟩ := mem_towerProtos hr
    exact (hkeys t ht).1 (hrt ▸ hk)

theorem Ready.tower_relinked (h : Ready sl₁ nm ts) (hsorted : ts.Pairwise fun t u => t.key < u.key)
    (hkeys : ∀ t ∈ ts, t.key ≠ -1 ∧ t.key ≠ -2)
    (hlink : linkNodes nm sl₁.head (protoOf ts) sl₁.heap = some heap) {l r : List Tower} {t : Tower}
    (hts : ts = l ++ t :: r) (i : Fin level) : heap.next i (rebuiltTower nm t).addr =
      some (if i.val < t.height then (levelAddrs (r.map (rebuiltTower nm)) i).head? else none) := by
  have ht : t ∈ ts := hts ▸ List.mem_append_right l List.mem_cons_self
  have haddr := h.rebuilt_addr ht
  obtain ⟨x, hx, hxk⟩ := towerProtos_append l (t :: r)
  obtain ⟨hlt, hgt⟩ := sorted_split (hts ▸ hsorted)
  have hsplit : protoOf ts = (⟨-1, [], (List.finRange level).map (firstKey ts)⟩ :: x) ++
      ⟨t.key, t.value.data, (List.finRange level).map fun i =>
        if i.val < t.height then firstKey r i else -2⟩ :: towerProtos r := by
    rw [protoOf, hts, hx]
    rfl
  have hat : ∀ j, heap.next j (rebuiltTower nm t).addr =
      some (target nm (if j.val < t.height then firstKey r j else -2)) := by
    refine linkNodes_at h.linkable hsplit rfl (Or.inl haddr) (h.not_touched haddr ?_)
      (h.not_touched haddr ?_) (h.mapped_of_some haddr).2.2 hlink
    · rw [List.map_cons, hxk, List.mem_cons, not_or]
      refine ⟨(hkeys t ht).1, fun hm => ?_⟩
      obtain ⟨u, hu, he⟩ := List.mem_map.mp hm
      exact (hlt u hu).ne he
    · rw [keys_towerProtos]
      intro hm
      obtain ⟨u, hu, he⟩ := List.mem_map.mp hm
      exact (hgt u hu).ne' he
  rw [hat i]
  by_cases hi : i.val < t.height
  · rw [if_pos hi, if_pos hi, target_firstKey fun u hu => h.linked_key hkeys u (by simp [hts, hu])]
  · rw [if_neg hi, if_neg hi]
    rfl

theorem Ready.relinked (h : sl.Represents ts) (hready : Ready sl₁ nm ts)
    (hkeys : ∀ t ∈ ts, t.key ≠ -1 ∧ t.key ≠ -2) :
    ∃ heap, linkNodes nm sl₁.head (protoOf ts) sl₁.heap = some heap ∧ Relinked sl₁ nm ts heap := by
  obtain ⟨heap, hlink, hdata, _⟩ := linkNodes_eq (protoOf ts) sl₁.heap hready.linkable
  exact ⟨heap, hlink, hdata, fun t ht => hready.rebuilt_addr ht, hready.head_relinked hkeys hlink,
    fun l t r hts => hready.tower_relinked h.sorted hkeys hlink hts⟩

end Relink

theorem Relinked.chain {sl₁ : Skiplist} {heap : Heap} (h : Relinked sl₁ nm ts heap) (i : Fin level) :
    Chain (heap.next i) sl₁.head (levelAddrs (ts.map (rebuiltTower nm)) i) := by
  have hfrom : ∀ r l a, ts = l ++ r →
      heap.next i a = some (levelAddrs (r.map (rebuiltTower nm)) i).head? →
      Chain (heap.next i) a (levelAddrs (r.map (rebuiltTower nm)) i) := by
    intro r
    induction r with
    | nil =>
      intro l a _ ha
      exact ha
    | cons t r ih =>
      intro l a hts ha
      have hsplit : ts = (l ++ [t]) ++ r := by simpa using hts
      rw [List.map_cons] at ha ⊢
      by_cases hi : i.val < t.height
      · have hit : i.val < (rebuiltTower nm t).height := hi
        rw [levelAddrs_cons_pos hit] at ha ⊢
        refine ⟨ha, ih (l ++ [t]) _ hsplit ?_⟩
        rw [h.tower_next l t r hts i, if_pos hi]
      · have hit : ¬i.val < (rebuiltTower nm t).height := hi
        rw [levelAddrs_cons_neg hit] at ha ⊢
        exact ih (l ++ [t]) a hsplit ha
  exact hfrom ts [] sl₁.head rfl (h.head_next i)

/-- A list whose keys avoid -1 and -2 is rebuilt with the same keys, values and
heights, whatever intact list it is read into. -/
theorem Represents.rebuild {us : List Tower} (h : sl.Represents ts) {sl₀ : Skiplist}
    (h₀ : sl₀.Represents us) (hkeys : ∀ t ∈ ts, t.key ≠ -1 ∧ t.key ≠ -2) :
    ∃ sl' size nm, sl₀.rebuild (protoOf ts) = some (sl', size) ∧
      sl'.Represents (ts.map (rebuiltTower nm)) := by
  obtain ⟨sl₁, nm, size, hready, hrebuild⟩ := rebuild_ready h₀ ts
  obtain ⟨heap, hlink, hre⟩ := hready.relinked h hkeys
  have hrep : Represents { sl₁ with heap := heap } (ts.map (rebuiltTower nm)) := by
    refine ⟨?_, hre.chain, ?_, ?_, ?_, ?_, ?_⟩
    · simp only [hre.data_eq]
      exact hready.head_data
    · intro t' ht'
      obtain ⟨t, ht, rfl⟩ := List.mem_map.mp ht'
      obtain ⟨a, r, ha, _, hr, hkey, had, _⟩ := hready.mapped t.key (Or.inr (List.mem_map_of_mem ht))
      have hvalue : r.value = t.value.data := by
        rcases (mem_protoOf hr).2 with ⟨hk, _⟩ | ⟨u, hu, hk, hv⟩
        · exact absurd (hkey.symm.trans hk) (hkeys t ht).1
        · rw [hv, h.tower_unique hu ht (hk.symm.trans hkey)]
      rw [hre.node t ht, Option.some.injEq] at ha
      rw [← ha, hvalue] at had
      simp only [hre.data_eq, had]
      rfl
    · intro t' ht'
      obtain ⟨t, ht, rfl⟩ := List.mem_map.mp ht'
      exact h.linked t ht
    · intro t' ht' i hi
      obtain ⟨t, ht, rfl⟩ := List.mem_map.mp ht'
      obtain ⟨l, r, hts⟩ := List.append_of_mem ht
      have hlow : ¬i.val < t.height := not_lt.mpr hi
      rw [hre.tower_next l t r hts i, if_neg hlow]
    · exact List.pairwise_map.mpr h.sorted
    · intro a ha
      exact hready.below a ((Heap.ne_none_of_data_eq hre.data_eq a).mp ha)
  rw [hlink, Option.bind_some, hrep.slprint, Option.map_some] at hrebuild
  exact ⟨_, size, nm, hrebuild, hrep⟩

/-! ## Lists with a reserved key -/

/-- What the second loop can build: links only to nodes of keys other than -2, and
the same links for the head as for the node of key -1. -/
structure Wired (nm : NodeMap) (head : Addr) (h : Heap) : Prop where
  source : ∀ i a b, (a = head ∨ ∃ k, nm k = some a) → h.next i a = some (some b) →
    ∃ k, k ≠ -2 ∧ nm k = some b
  twin : ∀ c, nm (-1) = some c → ∀ i, h.next i c = h.next i head

theorem linkNodes_wired (hhead : ∀ k, nm k ≠ some head)
    (hinj : ∀ k k' a, nm k = some a → nm k' = some a → k = k') {rs : List NodeProto} {h h' : Heap}
    (hl : Linkable nm head rs h) (hw : Wired nm head h) (hlink : linkNodes nm head rs h = some h') :
    Wired nm head h' := by
  induction rs generalizing h with
  | nil =>
    cases hlink
    exact hw
  | cons r rs ih =>
    obtain ⟨h₁, hstep, hdata, hnext⟩ := linkNodes_cons hl
    rw [hstep] at hlink
    apply ih (hl.mono (fun s hs => List.mem_cons_of_mem r hs) hdata) _ hlink
    constructor
    · intro i a b ha hb
      by_cases ht : Touches nm head r a
      · rw [(hnext i a).1 ht] at hb
        cases hk : linkedKey 0 r.next i with
        | none =>
          rw [hk] at hb
          exact hw.source i a b ha hb
        | some k =>
          rw [hk] at hb
          exact ⟨k, linkedKey_ne_null hk, Option.some.inj hb⟩
      · rw [(hnext i a).2 ht] at hb
        exact hw.source i a b ha hb
    · intro c hc i
      have hcell : Touches nm head r c ↔ r.key = -1 := by
        constructor
        · intro ht
          exact ht.elim (fun hr => hinj _ _ c hr hc) And.left
        · intro hr
          exact Or.inl (hr ▸ hc)
      have hhd : Touches nm head r head ↔ r.key = -1 := by
        constructor
        · intro ht
          exact ht.elim (fun hr => absurd hr (hhead _)) And.left
        · intro hr
          exact Or.inr ⟨hr, rfl⟩
      by_cases hr : r.key = -1
      · rw [(hnext i c).1 (hcell.mpr hr), (hnext i head).1 (hhd.mpr hr), hw.twin c hc i]
      · rw [(hnext i c).2 (hr ∘ hcell.mp), (hnext i head).2 (hr ∘ hhd.mp), hw.twin c hc i]

theorem Wired.chain_mem {h : Heap} (hw : Wired nm head h) {i : Fin level} {a : Addr} {l : List Addr}
    (hc : Chain (h.next i) a l) (ha : a = head ∨ ∃ k, nm k = some a) :
    ∀ c ∈ l, ∃ k, k ≠ -2 ∧ nm k = some c := by
  induction l generalizing a with
  | nil => simp
  | cons b l ih =>
    obtain ⟨k, hk, hb⟩ := hw.source i a b ha hc.1
    intro c hcm
    rcases List.mem_cons.mp hcm with rfl | hcm
    · exact ⟨k, hk, hb⟩
    · exact ih hc.2 (Or.inr ⟨k, hb⟩) c hcm

/-- The node of key -1 is not on a chain from the head: its link is the head's, so
the chain would run through it again. -/
theorem Wired.twin_not_mem {h : Heap} (hw : Wired nm head h) {i : Fin level} {l : List Addr}
    (hc : Chain (h.next i) head l) {c : Addr} (hn : nm (-1) = some c) : c ∉ l := by
  intro hm
  obtain ⟨x, y, rfl⟩ := List.append_of_mem hm
  have hy := ((chain_append _ _ (x ++ [c]) y).mp (by simpa using hc)).2
  rw [lastCell_concat] at hy
  have hall : Chain (h.next i) c (x ++ c :: y) := by
    have htwin := hw.twin c hn i
    cases x with
    | nil => exact ⟨htwin.trans hc.1, hc.2⟩
    | cons b x => exact ⟨htwin.trans hc.1, hc.2⟩
  have hlen := congrArg List.length (hall.unique hy)
  simp only [List.length_append, List.length_cons] at hlen
  omega

theorem mem_of_mapM {α β : Type} {f : α → Option β} {l : List α} {r : List β}
    (h : l.mapM f = some r) {b : β} (hb : b ∈ r) : ∃ a ∈ l, f a = some b := by
  induction l generalizing r with
  | nil =>
    cases h
    simp at hb
  | cons a l ih =>
    simp only [List.mapM_cons, Option.bind_eq_bind, Option.bind_eq_some_iff] at h
    obtain ⟨b', hb', r', hr', he⟩ := h
    cases he
    rcases List.mem_cons.mp hb with rfl | hb
    · exact ⟨a, List.mem_cons_self, hb'⟩
    · obtain ⟨a', ha', hf⟩ := ih hr' hb
      exact ⟨a', List.mem_cons_of_mem a ha', hf⟩

theorem rebuild_chainKeys {us : List Tower} (h₀ : sl.Represents us) {sl' : Skiplist} {size : SizeT}
    (hr : sl.rebuild (protoOf ts) = some (sl', size)) {i : Fin level} {ks : List Int32}
    (hks : sl'.chainKeys i = some ks) : -1 ∉ ks ∧ -2 ∉ ks := by
  obtain ⟨sl₁, nm, size', hready, hrebuild⟩ := rebuild_ready h₀ ts
  obtain ⟨heap, hlink, hdata, _⟩ := linkNodes_eq (protoOf ts) sl₁.heap hready.linkable
  rw [hr, hlink, Option.bind_some] at hrebuild
  obtain ⟨_, _, he⟩ := Option.map_eq_some_iff.mp hrebuild.symm
  cases he
  have hhead : ∀ k, nm k ≠ some sl₁.head := fun k hk => (hready.mapped_of_some hk).1 rfl
  have hw : Wired nm sl₁.head heap := by
    refine linkNodes_wired hhead (fun k k' a => hready.injective) hready.linkable ⟨?_, ?_⟩ hlink
    · intro i a b ha hb
      rcases ha with rfl | ⟨k, hk⟩
      · simp [hready.head_null] at hb
      · simp [(hready.mapped_of_some hk).2.2] at hb
    · intro c hc i
      rw [(hready.mapped_of_some hc).2.2, hready.head_null]
  unfold chainKeys at hks
  obtain ⟨as, has, hmap⟩ := Option.bind_eq_some_iff.mp hks
  have hc := chain_of_collect has
  -- a key met on the chain is the key of a node of the map
  have hmet : ∀ k ∈ ks, k ≠ -2 ∧ ∃ c ∈ as, nm k = some c := by
    intro k hk
    obtain ⟨c, hcm, hkey⟩ := mem_of_mapM hmap hk
    obtain ⟨k', hk', hn⟩ := hw.chain_mem hc (Or.inl rfl) c hcm
    have hkey' := (hready.mapped_of_some hn).2.1
    simp only [Heap.key_eq_of_data_eq hdata, hkey', Option.some.injEq] at hkey
    subst hkey
    exact ⟨hk', c, hcm, hn⟩
  constructor
  · intro hm
    obtain ⟨_, c, hcm, hn⟩ := hmet _ hm
    exact hw.twin_not_mem hc hn hcm
  · intro hm
    exact (hmet _ hm).1 rfl

/-! ## The round trip -/

theorem Represents.items (h : sl.Represents ts) :
    sl.items = some (ts.map fun t => (t.key, t.value.data)) := by
  have hlen := h.level_length bottom
  have hc := h.chain bottom
  rw [levelAddrs_bottom h.linked] at hlen hc
  unfold Skiplist.items
  rw [collect_eq hc (by unfold fuel; omega)]
  apply mapM_towers
  intro t ht
  obtain ⟨n, hn, hk, hv⟩ := h.node ht
  simp [hn, hk, hv]

theorem valueIn_rebuilt (nm : NodeMap) (ts : List Tower) (k : Int32) :
    valueIn (ts.map (rebuiltTower nm)) k = valueIn ts k := by
  unfold valueIn
  rw [List.find?_map, Option.map_map]
  rfl

theorem HoldsAs.roundTrips_iff {m : Contents} (h : sl.HoldsAs ts m) :
    sl.RoundTrips ↔ m.lookup (-1) = none ∧ m.lookup (-2) = none := by
  constructor
  · rintro ⟨nodes, sl', size, hproto, hrebuild, _, hchains, _⟩
    rw [h.represents.toProto, Option.some.injEq] at hproto
    subst hproto
    obtain ⟨ks, hks, hks'⟩ := hchains bottom
    rw [h.chainKeys_bottom, Option.some.injEq] at hks
    subst hks
    have hmiss := rebuild_chainKeys new_represents hrebuild hks'
    exact ⟨(m.lookup_eq_none_iff _).mpr hmiss.1, (m.lookup_eq_none_iff _).mpr hmiss.2⟩
  · rintro ⟨h₁, h₂⟩
    obtain ⟨sl', size, nm, hrebuild, hrep⟩ := h.represents.rebuild new_represents (h.unreserved h₁ h₂)
    refine ⟨_, sl', size, h.represents.toProto, hrebuild, ⟨_, h.represents.items, ?_⟩, ?_, ?_⟩
    · rw [hrep.items, List.map_map]
      rfl
    · intro i
      refine ⟨_, h.represents.chainKeys i, ?_⟩
      rw [hrep.chainKeys, List.filter_map, List.map_map]
      rfl
    · intro k
      refine ⟨_, search_eq h.represents k, ?_⟩
      rw [search_eq hrep, valueIn_rebuilt]

/-- The list of any sequence of calls survives the codec exactly when it holds
neither of the keys -1 and -2. -/
theorem roundTrips_iff_no_reserved_key (ops : List ListOp) :
    ∃ sl answers, new.run ops = some (sl, answers) ∧
      (sl.RoundTrips ↔ (mapRun (fun _ => none) ops).1 (-1) = none ∧
        (mapRun (fun _ => none) ops).1 (-2) = none) := by
  obtain ⟨sl, ts, m, hrun, hholds, hplain, _⟩ := run_new ops
  refine ⟨sl, _, hrun, ?_⟩
  rw [hholds.roundTrips_iff, ← hplain]
  simp [plain]

/-- After `add(-1, "a")` the decoder links the head and the node of key -1 to that node,
and then never gets to the end of level 0. -/
theorem reserved_key_lost : ∃ sl answers nodes,
    new.run [.add (-1) [97] fun _ => true] = some (sl, answers) ∧ sl.toProto = some nodes ∧
      new.rebuild nodes = none ∧ ¬sl.RoundTrips := by
  refine ⟨_, _, _, rfl, rfl, rfl, ?_⟩
  rintro ⟨nodes, sl', size, hproto, hrebuild, _⟩
  cases hproto
  cases hrebuild

end Skiplist

end KVStorage

import KVStorage.BlockFile
import Mathlib.Data.List.Sort

/-!
# Lists made of any message

`deserialize` trusts the records it is given. They are read here as a graph of keys; the
message becomes an intact list where that graph has the levels of one.
-/

namespace KVStorage

set_option autoImplicit false

open LinkedChain

namespace NodeProto

/-- The last entry on level `i` among the records of key `k`, the null entries aside. -/
def lastEntry : List NodeProto → Int32 → Fin level → Option Int32
  | [], _, _ => none
  | r :: rs, k, i => (lastEntry rs k i).or (if r.key = k then Skiplist.linkedKey 0 r.next i else none)

/-- The key that follows `k` on level `i`. An entry that names no record is a null pointer. -/
def keyLink (rs : List NodeProto) (k : Int32) (i : Fin level) : Option Int32 :=
  (lastEntry rs k i).filter fun k' => k' ∈ rs.map (·.key)

/-- Past the eight levels there are only null entries. -/
def Fits (rs : List NodeProto) : Prop := ∀ r ∈ rs, ∀ k ∈ r.next.drop level, k = -2

/-- The keys that the levels pass through, from the head's key on. -/
structure Levels (rs : List NodeProto) (ks : Fin level → List Int32) : Prop where
  chain : ∀ i, Chain (fun k => some (keyLink rs k i)) (-1) (ks i)
  ascending : ∀ i, (ks i).Pairwise (· < ·)
  nested : ∀ i j, i ≤ j → ∀ k ∈ ks j, k ∈ ks i
  unlinked : ∀ i, ∀ k ∈ ks Skiplist.bottom, k ∉ ks i → keyLink rs k i = none

def WellFormed (rs : List NodeProto) : Prop := Fits rs ∧ ∃ ks, Levels rs ks

variable {rs : List NodeProto} {k k' : Int32} {i : Fin level}

theorem keyLink_mem (h : keyLink rs k i = some k') : k' ∈ rs.map (·.key) := by
  rw [keyLink, Option.filter_eq_some_iff] at h
  exact of_decide_eq_true h.2

theorem chain_keys {ks : List Int32} (h : Chain (fun k => some (keyLink rs k i)) k ks) :
    ∀ k' ∈ ks, k' ∈ rs.map (·.key) := by
  induction ks generalizing k with
  | nil => exact nofun
  | cons k₁ ks ih =>
    intro k' hk'
    rcases List.mem_cons.mp hk' with rfl | hk'
    · exact keyLink_mem (Option.some.inj h.1)
    · exact ih h.2 k' hk'

end NodeProto

namespace Skiplist

open NodeProto

variable {sl sl₁ : Skiplist} {ts us : List Tower} {nm : NodeMap} {head : Addr} {rs : List NodeProto}

/-! ## The second loop on any records -/

theorem setLinks_fits {key : Int32} {node : Addr} {i : Nat} {rest : List Int32} {h h' : Heap}
    (hset : setLinks nm head key node i rest h = some h') : ∀ k ∈ rest.drop (level - i), k = -2 := by
  induction rest generalizing i h with
  | nil => simp
  | cons k rest ih =>
    rw [setLinks] at hset
    apply fits_cons.mpr
    by_cases hk : k = -2
    · rw [if_pos hk] at hset
      exact ⟨fun _ => hk, ih hset⟩
    · rw [if_neg hk] at hset
      by_cases hi : i < level
      · rw [dif_pos hi] at hset
        obtain ⟨h₁, _, hset⟩ := Option.bind_eq_some_iff.mp hset
        obtain ⟨h₂, _, hset⟩ := Option.bind_eq_some_iff.mp hset
        exact ⟨fun hle => absurd hi (not_lt.mpr hle), ih hset⟩
      · rw [dif_neg hi] at hset
        cases hset

/-- An entry that is a link past the last level is written outside the vector. -/
theorem linkNodes_fits {h h' : Heap} (hlink : linkNodes nm head rs h = some h') : Fits rs := by
  induction rs generalizing h with
  | nil => exact nofun
  | cons r rs ih =>
    simp only [linkNodes, Option.bind_eq_bind, Option.bind_eq_some_iff] at hlink
    obtain ⟨node, _, h₁, hset, hrest⟩ := hlink
    intro r' hr'
    rcases List.mem_cons.mp hr' with rfl | hr'
    · exact setLinks_fits hset
    · exact ih hrest r' hr'

/-- A cell that stands for key `k` ends up with the last entries of that key. -/
theorem linkNodes_lastEntry {h : Heap} (hfits : Fits rs)
    (hnode : ∀ r ∈ rs, ∃ a, nm r.key = some a ∧ h a ≠ none) (hhead : h head ≠ none) :
    ∃ h', linkNodes nm head rs h = some h' ∧ h'.data = h.data ∧
      ∀ c k, (∀ r ∈ rs, Touches nm head r c ↔ r.key = k) → ∀ j,
        h'.next j c = match lastEntry rs k j with
          | none => h.next j c
          | some k' => some (nm k') := by
  induction rs generalizing h with
  | nil => exact ⟨h, rfl, rfl, fun _ _ _ _ => rfl⟩
  | cons r rs ih =>
    obtain ⟨a, ha, hn⟩ := hnode r List.mem_cons_self
    obtain ⟨h₁, hset, hdata₁, hnext₁⟩ := setLinks_eq nm r.key 0 r.next h (hfits r List.mem_cons_self) hn hhead
    obtain ⟨h', hrest, hdata', hnext'⟩ := ih (fun s hs => hfits s (List.mem_cons_of_mem r hs))
      (fun s hs => by
        obtain ⟨b, hb, hlive⟩ := hnode s (List.mem_cons_of_mem r hs)
        exact ⟨b, hb, (Heap.ne_none_of_data_eq hdata₁ b).mpr hlive⟩)
      ((Heap.ne_none_of_data_eq hdata₁ head).mpr hhead)
    refine ⟨h', ?_, hdata'.trans hdata₁, ?_⟩
    · simp only [linkNodes, ha, hset, Option.bind_eq_bind, Option.bind_some, hrest]
    · intro c k hcell j
      have hr : (c = a ∨ (r.key = -1 ∧ c = head)) ↔ r.key = k := by
        rw [← hcell r List.mem_cons_self, Touches, ha, Option.some.injEq, eq_comm]
      rw [hnext' c k (fun s hs => hcell s (List.mem_cons_of_mem r hs)) j, lastEntry]
      cases hlast : lastEntry rs k j with
      | some k' => rfl
      | none =>
        rw [Option.none_or, hnext₁]
        by_cases hk : r.key = k
        · rw [if_pos hk]
          cases linkedKey 0 r.next j with
          | none => rfl
          | some k' => exact if_pos (hr.mpr hk)
        · rw [if_neg hk]
          cases linkedKey 0 r.next j with
          | none => rfl
          | some k' => exact if_neg fun hc => hk (hr.mp hc)

/-- The cell of a key: its node, and the head for the head's key. -/
def CellOf (nm : NodeMap) (head : Addr) (k : Int32) (c : Addr) : Prop := nm k = some c ∨ k = -1 ∧ c = head

/-- After the second loop every cell is linked as its key is. -/
structure KeyLinked (sl₁ : Skiplist) (nm : NodeMap) (rs : List NodeProto) (heap : Heap) : Prop where
  data_eq : heap.data = sl₁.heap.data
  next : ∀ k c, CellOf nm sl₁.head k c → ∀ i, heap.next i c = some ((keyLink rs k i).bind nm)

theorem Allotted.keyLink_isSome (h : Allotted sl₁ nm rs) {k k' : Int32} {i : Fin level}
    (hlink : keyLink rs k i = some k') : ∃ a, nm k' = some a := by
  obtain ⟨a, _, ha, _⟩ := h.mapped k' (keyLink_mem hlink)
  exact ⟨a, ha⟩

theorem Allotted.keyLink_bind (h : Allotted sl₁ nm rs) (k : Int32) (i : Fin level) :
    (lastEntry rs k i).bind nm = (keyLink rs k i).bind nm := by
  rw [keyLink]
  cases lastEntry rs k i with
  | none => rfl
  | some k' =>
    by_cases hk : k' ∈ rs.map (·.key)
    · rw [Option.filter_some, if_pos (decide_eq_true hk)]
    · rw [Option.filter_some, if_neg (by simpa using hk), Option.bind_some, h.unmapped k' hk]
      rfl

theorem Allotted.touches_iff (h : Allotted sl₁ nm rs) {k : Int32} {c : Addr} (hc : CellOf nm sl₁.head k c)
    (r : NodeProto) : Touches nm sl₁.head r c ↔ r.key = k := by
  constructor
  · intro ht
    rcases ht with hr | ⟨hr, hhead⟩
    · rcases hc with hk | ⟨_, rfl⟩
      · exact h.injective hr hk
      · exact absurd rfl (h.mapped_of_some hr).1
    · rcases hc with hk | ⟨hk, _⟩
      · exact absurd hhead (h.mapped_of_some hk).1
      · rw [hr, hk]
  · rintro rfl
    exact hc

theorem Allotted.keyLinked (h : Allotted sl₁ nm rs) (hfits : Fits rs) :
    ∃ heap, linkNodes nm sl₁.head rs sl₁.heap = some heap ∧ KeyLinked sl₁ nm rs heap := by
  obtain ⟨heap, hlink, hdata, hnext⟩ := linkNodes_lastEntry hfits h.node h.head_live
  refine ⟨heap, hlink, hdata, ?_⟩
  intro k c hc i
  have hnull : sl₁.heap.next i c = some none := by
    rcases hc with hk | ⟨_, rfl⟩
    · exact (h.mapped_of_some hk).2.2 i
    · exact h.head_null i
  rw [hnext c k (fun r _ => h.touches_iff hc r) i, ← h.keyLink_bind]
  cases lastEntry rs k i with
  | none => exact hnull
  | some k' => rfl

/-! ## Chains of nodes and chains of keys -/

/-- The node of a key, and the key of a node. -/
def addrOf (nm : NodeMap) (k : Int32) : Addr := (nm k).getD 0

def keyOf (sl₁ : Skiplist) (a : Addr) : Int32 := (sl₁.heap.key a).getD 0

theorem Allotted.addrOf_mem (h : Allotted sl₁ nm rs) {k : Int32} (hk : k ∈ rs.map (·.key)) :
    nm k = some (addrOf nm k) := by
  obtain ⟨a, _, ha, _⟩ := h.mapped k hk
  rw [addrOf, ha, Option.getD_some]

theorem Allotted.keyOf_eq (h : Allotted sl₁ nm rs) {k : Int32} {a : Addr} (ha : nm k = some a) :
    keyOf sl₁ a = k := by rw [keyOf, (h.mapped_of_some ha).2.1, Option.getD_some]

/-- Levels that are nested give every key a height. -/
theorem exists_height (p : Fin level → Prop) (hdown : ∀ i j, i ≤ j → p j → p i) :
    ∃ n : Nat, ∀ i : Fin level, p i ↔ i.val < n := by
  classical
  have hex : ∃ n, ∀ hn : n < level, ¬p ⟨n, hn⟩ := ⟨level, fun hn => absurd hn (lt_irrefl level)⟩
  refine ⟨Nat.find hex, fun i => ⟨fun hi => ?_, fun hi => ?_⟩⟩
  · by_contra hle
    have hlt : Nat.find hex < level := (not_lt.mp hle).trans_lt i.isLt
    exact Nat.find_spec hex hlt (hdown _ i (not_lt.mp hle) hi)
  · have hmin := Nat.find_min hex hi
    rw [not_forall] at hmin
    obtain ⟨_, hp⟩ := hmin
    exact not_not.mp hp

theorem KeyLinked.chain_nodes {heap : Heap} (hl : KeyLinked sl₁ nm rs heap) {i : Fin level} {k : Int32} {c : Addr}
    {as : List Addr} (hstart : CellOf nm sl₁.head k c) (hc : Chain (heap.next i) c as) : ∀ a ∈ as, ∃ k', nm k' = some a := by
  induction as generalizing k c with
  | nil => exact nofun
  | cons b as ih =>
    have hb := hl.next k c hstart i
    rw [hc.1, Option.some.injEq] at hb
    obtain ⟨k', _, hk'⟩ := Option.bind_eq_some_iff.mp hb.symm
    intro a ha
    rcases List.mem_cons.mp ha with rfl | ha
    · exact ⟨k', hk'⟩
    · exact ih (Or.inl hk') hc.2 a ha

section Linked

variable {heap : Heap} (h : Allotted sl₁ nm rs) (hl : KeyLinked sl₁ nm rs heap)
include h hl

theorem next_addrOf {k : Int32} {c : Addr} (hc : CellOf nm sl₁.head k c) (i : Fin level) :
    heap.next i c = (some (keyLink rs k i)).map (Option.map (addrOf nm)) := by
  rw [hl.next k c hc i, Option.map_some]
  cases hlink : keyLink rs k i with
  | none => rfl
  | some k' => rw [Option.bind_some, h.addrOf_mem (keyLink_mem hlink), Option.map_some]

theorem keyLink_keyOf {k : Int32} {c : Addr} (hc : CellOf nm sl₁.head k c) (i : Fin level) :
    some (keyLink rs k i) = (heap.next i c).map (Option.map (keyOf sl₁)) := by
  rw [hl.next k c hc i, Option.map_some]
  cases hlink : keyLink rs k i with
  | none => rfl
  | some k' =>
    obtain ⟨a, ha⟩ := h.keyLink_isSome hlink
    rw [Option.bind_some, ha, Option.map_some, h.keyOf_eq ha]

theorem chain_addrs {i : Fin level} {ks : List Int32} (hc : Chain (fun k => some (keyLink rs k i)) (-1) ks) :
    Chain (heap.next i) sl₁.head (ks.map (addrOf nm)) := by
  apply hc.map (next_addrOf h hl (Or.inr ⟨rfl, rfl⟩) i)
  intro k hk
  exact next_addrOf h hl (Or.inl (h.addrOf_mem (chain_keys hc k hk))) i

theorem chain_keysOf {i : Fin level} {as : List Addr} (hc : Chain (heap.next i) sl₁.head as) :
    Chain (fun k => some (keyLink rs k i)) (-1) (as.map (keyOf sl₁)) := by
  apply hc.map (keyLink_keyOf h hl (Or.inr ⟨rfl, rfl⟩) i)
  intro a ha
  obtain ⟨k, hk⟩ := hl.chain_nodes (Or.inr ⟨rfl, rfl⟩) hc a ha
  rw [h.keyOf_eq hk]
  exact keyLink_keyOf h hl (Or.inl hk) i

/-! ## The levels of the message and the towers of the list -/

theorem levels_of_represents {top : Nat} (hrep : Represents ⟨sl₁.head, heap, top⟩ ts) :
    Levels rs fun i => (ts.filter fun t => i.val < t.height).map (·.key) := by
  have hkey : ∀ t ∈ ts, keyOf sl₁ t.addr = t.key := by
    intro t ht
    rw [keyOf, ← Heap.key_eq_of_data_eq hl.data_eq, Heap.key_of_data (hrep.node_data t ht), Option.getD_some]
  have hkeys : ∀ i, (levelAddrs ts i).map (keyOf sl₁) = (ts.filter fun t => i.val < t.height).map (·.key) := by
    intro i
    rw [levelAddrs, List.map_map]
    exact List.map_congr_left fun t ht => hkey t (List.mem_filter.mp ht).1
  refine ⟨fun i => hkeys i ▸ chain_keysOf h hl (hrep.chain i), fun i => ?_, ?_, ?_⟩
  · exact List.pairwise_map.mpr (hrep.sorted.filter _)
  · intro i j hij k hk
    obtain ⟨t, ht, rfl⟩ := List.mem_map.mp hk
    obtain ⟨ht, hj⟩ := List.mem_filter.mp ht
    have hi : i.val < t.height := lt_of_le_of_lt hij (of_decide_eq_true hj)
    exact List.mem_map_of_mem (List.mem_filter.mpr ⟨ht, decide_eq_true hi⟩)
  · intro i k hk hi
    obtain ⟨t, ht, rfl⟩ := List.mem_map.mp hk
    obtain ⟨ht, _⟩ := List.mem_filter.mp ht
    have hlow : t.height ≤ i.val := by
      by_contra hlow
      exact hi (List.mem_map_of_mem (List.mem_filter.mpr ⟨ht, decide_eq_true (not_le.mp hlow)⟩))
    -- the node is on level 0, so it stands for its key
    have hmem : t.addr ∈ levelAddrs ts bottom := mem_levelAddrs.mpr ⟨t, ht, hrep.linked t ht, rfl⟩
    obtain ⟨k, hk⟩ := hl.chain_nodes (Or.inr ⟨rfl, rfl⟩) (hrep.chain bottom) t.addr hmem
    have hsame : k = t.key := (h.keyOf_eq hk).symm.trans (hkey t ht)
    have hnull := keyLink_keyOf h hl (Or.inl hk) i
    rw [show heap.next i t.addr = some none from hrep.unlinked t ht i hlow, hsame] at hnull
    exact Option.some.inj hnull

theorem represents_of_levels {ks : Fin level → List Int32} (hk : Levels rs ks) :
    ∃ ts, Represents ⟨sl₁.head, heap, sl₁.top⟩ ts := by
  choose height hheight using fun k => exists_height (fun i => k ∈ ks i) fun i j hij => hk.nested i j hij k
  have hmem : ∀ i, ∀ k ∈ ks i, nm k = some (addrOf nm k) := fun i k hki =>
    h.addrOf_mem (chain_keys (hk.chain i) k hki)
  let tower (k : Int32) : Tower :=
    ⟨addrOf nm k, k, ((sl₁.heap.data (addrOf nm k)).map Prod.snd).getD CppString.empty, height k⟩
  -- the keys of a level are those of level 0 that reach it
  have hlevel : ∀ i, (ks bottom).filter (fun k => i.val < height k) = ks i := by
    intro i
    apply List.Pairwise.eq_of_mem_iff ((hk.ascending bottom).filter _) (hk.ascending i)
    intro k
    rw [List.mem_filter, decide_eq_true_eq, ← hheight k i]
    exact ⟨And.right, fun hi => ⟨hk.nested bottom i (Nat.zero_le _) k hi, hi⟩⟩
  have haddrs : ∀ i, levelAddrs ((ks bottom).map tower) i = (ks i).map (addrOf nm) := by
    intro i
    rw [levelAddrs, List.filter_map, List.map_map, ← hlevel i]
    rfl
  refine ⟨(ks bottom).map tower, ⟨?_, ?_, ?_, ?_, ?_, ?_, ?_⟩⟩
  · rw [hl.data_eq]
    exact h.head_data
  · intro i
    rw [haddrs]
    exact chain_addrs h hl (hk.chain i)
  · intro t ht
    obtain ⟨k, hkb, rfl⟩ := List.mem_map.mp ht
    obtain ⟨a, r, ha, _, _, _, hdata, _⟩ := h.mapped k (chain_keys (hk.chain bottom) k hkb)
    rw [hmem bottom k hkb, Option.some.injEq] at ha
    subst ha
    simp only [tower, hl.data_eq, hdata, Option.map_some, Option.getD_some]
  · intro t ht
    obtain ⟨k, hkb, rfl⟩ := List.mem_map.mp ht
    exact (hheight k bottom).mp hkb
  · intro t ht i hi
    obtain ⟨k, hkb, rfl⟩ := List.mem_map.mp ht
    have hlow : k ∉ ks i := fun hm => absurd ((hheight k i).mp hm) (not_lt.mpr hi)
    have hnext := next_addrOf h hl (Or.inl (hmem bottom k hkb)) i
    rw [hk.unlinked i k hkb hlow] at hnext
    exact hnext
  · exact List.pairwise_map.mpr (hk.ascending bottom)
  · intro a ha
    exact h.below a ((Heap.ne_none_of_data_eq hl.data_eq a).mp ha)

end Linked

/-! ## What is made of a message -/

/-- A list that every operation can be called on. -/
structure Serves (sl : Skiplist) : Prop where
  intact : ∃ ts, sl.Represents ts
  search : ∀ k, (sl.search k).isSome
  erase : ∀ k, (sl.erase k).isSome
  serialize : sl.toProto.isSome
  clear : sl.clear.isSome

/-- `deserialize` leaves the list alone and returns 0, or makes an intact list. -/
def SafeRebuild (sl : Skiplist) (rs : List NodeProto) : Prop :=
  ∃ sl' size, sl.rebuild rs = some (sl', size) ∧ (size = 0 ∧ sl' = sl ∨ sl'.Serves)

theorem Represents.serves (h : sl.Represents ts) : sl.Serves where
  intact := ⟨ts, h⟩
  search k := by simp [search_eq h k]
  erase k := by
    rcases key_cases h k with ⟨l, t, r, rfl, rfl⟩ | ⟨_, _, _, _, _, habsent⟩
    · obtain ⟨sl', herase, _⟩ := erase_old h
      simp [herase]
    · simp [erase_absent h habsent]
  serialize := by simp [h.toProto]
  clear := by
    obtain ⟨sl', hclear, _⟩ := clear_eq h
    simp [hclear]

/-- A message becomes an intact list where its records have the levels of one. -/
theorem Represents.safeRebuild_iff (h : sl.Represents us) : sl.SafeRebuild rs ↔ WellFormed rs := by
  obtain ⟨sl₁, nm, size, hallotted, hrebuild⟩ := rebuild_allotted h rs
  unfold SafeRebuild
  rw [hrebuild]
  constructor
  · rintro ⟨sl', size', hlinked, hsafe⟩
    obtain ⟨heap, hlink, hprinted⟩ := Option.bind_eq_some_iff.mp hlinked
    obtain ⟨_, _, he⟩ := Option.map_eq_some_iff.mp hprinted
    cases he
    have hfits := linkNodes_fits hlink
    obtain ⟨heap', hlink', hl⟩ := hallotted.keyLinked hfits
    cases hlink.symm.trans hlink'
    obtain ⟨ts, hrep⟩ : ∃ ts, Represents ⟨sl₁.head, heap, sl₁.top⟩ ts := by
      rcases hsafe with ⟨_, hsame⟩ | hserves
      · exact ⟨us, hsame ▸ h⟩
      · exact hserves.intact
    exact ⟨hfits, _, levels_of_represents hallotted hl hrep⟩
  · rintro ⟨hfits, ks, hlevels⟩
    obtain ⟨heap, hlink, hl⟩ := hallotted.keyLinked hfits
    obtain ⟨ts, hrep⟩ := represents_of_levels hallotted hl hlevels
    refine ⟨{ sl₁ with heap := heap }, size, ?_, Or.inr hrep.serves⟩
    rw [hlink, Option.bind_some, hrep.slprint]
    rfl

/-- What `serialize` writes of a list without the reserved keys. -/
theorem Represents.protoOf_wellFormed (h : sl.Represents ts) (hkeys : ∀ t ∈ ts, t.key ≠ -1 ∧ t.key ≠ -2) :
    WellFormed (protoOf ts) := by
  obtain ⟨sl', size, nm, hrebuild, hrep⟩ := h.rebuild h hkeys
  exact h.safeRebuild_iff.mp ⟨sl', size, hrebuild, Or.inr hrep.serves⟩

end Skiplist

/-- Every intact list, and every message. -/
theorem deserialize_safe_iff (l : ValidList) (nodes : List NodeProto) :
    l.list.SafeRebuild nodes ↔ NodeProto.WellFormed nodes := by
  obtain ⟨ts, h⟩ := l.holds
  exact h.represents.safeRebuild_iff

/-- Where a record is linked to itself, `deserialize` does not return from `slprint`. -/
example : Skiplist.new.rebuild [⟨-1, [], [5]⟩, ⟨5, [97], [5]⟩] = none := rfl

/-- The message of an empty list, as a flush writes it. -/
def emptyMessage : Bytes := NodeProto.serialize [⟨-1, [], List.replicate level (-2)⟩]

/-- The file ends 15 bytes into the message of block 1, in the entries of the head record. The zeros
behind them are read as 80 links to key 0, which are written past the end of the vector. -/
theorem truncated_block_overruns :
    NodeProto.parseNodes (emptyMessage.take 15 ++ List.replicate 80 0) = some [⟨-1, [], List.replicate 80 0⟩] ∧
      ¬Skiplist.new.SafeRebuild [⟨-1, [], List.replicate 80 0⟩] ∧
        Skiplist.new.deserializeFile 0
          (some (List.replicate 67108864 0 ++ (sizeBytes 95 ++ emptyMessage.take 15))) CACHE_SIZE = .undefined := by
  have hparse : NodeProto.parseNodes (emptyMessage.take 15 ++ List.replicate 80 0) =
      some [⟨-1, [], List.replicate 80 0⟩] := rfl
  have hrebuild : Skiplist.new.rebuild [⟨-1, [], List.replicate 80 0⟩] = none := rfl
  refine ⟨hparse, ?_, ?_⟩
  · rintro ⟨sl', size, hsome, _⟩
    rw [hrebuild] at hsome
    cases hsome
  · have hdrop : (List.replicate 67108864 (0 : UInt8) ++ (sizeBytes 95 ++ emptyMessage.take 15)).drop
        CACHE_SIZE.toNat = sizeBytes 95 ++ emptyMessage.take 15 :=
      List.drop_left' List.length_replicate
    have htake : (emptyMessage.take 15).take (95 : SizeT).toNat = emptyMessage.take 15 := rfl
    have hzeros : (95 : SizeT).toNat - (emptyMessage.take 15).length = 80 := rfl
    rw [Skiplist.deserializeFile_eq (by decide) hdrop rfl, htake, hzeros, hparse]
    simp only [hrebuild]
    rfl

end KVStorage

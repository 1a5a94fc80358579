import KVStorage.Cache

/-!
# The bytes of a serialized list

The encoding of a list is longest when every node is linked on level 0 only, and
that length can be read off the keys and the value lengths.
-/

namespace KVStorage

set_option autoImplicit false

namespace NodeProto

def byteSizeLong (r : NodeProto) : Nat :=
  WireSize.packedInt32 r.next +
  (if r.value = [] then 0 else 1 + WireSize.delimited r.value.length) +
  (if r.key = 0 then 0 else 1 + WireSize.int32 r.key)

/-- `Skiplist::ByteSizeLong`. -/
def listByteSize (nodes : List NodeProto) : Nat :=
  (nodes.map fun r => 1 + WireSize.delimited r.byteSizeLong).sum

end NodeProto

/-- The bytes of the record of a node linked on level 0 only; `after` is the key of
the next node. -/
def nodeBytes (key : Int32) (length : Nat) (after : Option Int32) : Nat :=
  let links := WireSize.int32 (after.getD (-2)) + 7 * 10
  let fields := (1 + WireSize.varint links + links) +
    (if length = 0 then 0 else 1 + WireSize.delimited length) +
    (if key = 0 then 0 else 1 + WireSize.int32 key)
  1 + WireSize.delimited fields

def entriesBytes : List (Int32 × CppString) → Nat
  | [] => 0
  | e :: es => nodeBytes e.1 e.2.data.length (es.head?.map Prod.fst) + entriesBytes es

/-- The longest file image of the nodes, over all coin flips: the length prefix, the
record of the head and those of the nodes. -/
def worstBytes (m : Contents) : Nat :=
  8 + nodeBytes (-1) 0 m.keys.head? + entriesBytes m.entries

namespace Skiplist

variable {sl : Skiplist} {ts : List Tower} {m : Contents}

theorem levels_eq : ∃ upper : List (Fin level), List.finRange level = bottom :: upper ∧
    upper.length = 7 ∧ bottom ∉ upper :=
  ⟨(List.finRange level).tail, by decide, by decide, by decide⟩

theorem links_le (entry : Fin level → Int32) :
    (((List.finRange level).map entry).map WireSize.int32).sum ≤ WireSize.int32 (entry bottom) + 7 * 10 := by
  have hupper : ∀ is : List (Fin level), ((is.map entry).map WireSize.int32).sum ≤ is.length * 10 := by
    intro is
    induction is with
    | nil => simp
    | cons i is ih =>
      have := WireSize.int32_le (entry i)
      simp only [List.map_cons, List.sum_cons, List.length_cons]
      omega
  obtain ⟨upper, hlevels, hlength, _⟩ := levels_eq
  have h := hupper upper
  rw [hlevels]
  simp only [List.map_cons, List.sum_cons]
  omega

theorem links_eq (entry : Fin level → Int32) (h : ∀ i, i ≠ bottom → entry i = -2) :
    (((List.finRange level).map entry).map WireSize.int32).sum = WireSize.int32 (entry bottom) + 7 * 10 := by
  have hupper : ∀ is : List (Fin level), bottom ∉ is →
      ((is.map entry).map WireSize.int32).sum = is.length * 10 := by
    intro is hb
    induction is with
    | nil => rfl
    | cons i is ih =>
      rw [List.mem_cons, not_or] at hb
      have hten : WireSize.int32 (-2) = 10 := by decide
      have hrest := ih hb.2
      simp only [List.map_cons, List.sum_cons, List.length_cons, h i (Ne.symm hb.1), hten]
      omega
  obtain ⟨upper, hlevels, hlength, hbot⟩ := levels_eq
  have hall := hupper upper hbot
  rw [hlevels]
  simp only [List.map_cons, List.sum_cons]
  omega

theorem record_bytes (key : Int32) (value : Bytes) (entry : Fin level → Int32) (after : Option Int32)
    (h : entry bottom = after.getD (-2)) :
    1 + WireSize.delimited (NodeProto.byteSizeLong ⟨key, value, (List.finRange level).map entry⟩) ≤
        nodeBytes key value.length after ∧
      ((∀ i, i ≠ bottom → entry i = -2) →
        1 + WireSize.delimited (NodeProto.byteSizeLong ⟨key, value, (List.finRange level).map entry⟩) =
          nodeBytes key value.length after) := by
  have hpos : 0 < WireSize.int32 (after.getD (-2)) + 7 * 10 := by omega
  have hlength : value = [] ↔ value.length = 0 := List.length_eq_zero_iff.symm
  unfold NodeProto.byteSizeLong nodeBytes
  simp only [hlength]
  constructor
  · have hsum := links_le entry
    rw [h] at hsum
    have hvar := WireSize.varint_mono hsum
    have hpacked : WireSize.packedInt32 ((List.finRange level).map entry) ≤
        1 + WireSize.varint (WireSize.int32 (after.getD (-2)) + 7 * 10) +
          (WireSize.int32 (after.getD (-2)) + 7 * 10) := by
      unfold WireSize.packedInt32
      simp only
      split <;> omega
    have hall := WireSize.delimited_mono (Nat.add_le_add_right (Nat.add_le_add_right hpacked
      (if value.length = 0 then 0 else 1 + WireSize.delimited value.length))
      (if key = 0 then 0 else 1 + WireSize.int32 key))
    omega
  · intro hnull
    have hsum := links_eq entry hnull
    rw [h] at hsum
    unfold WireSize.packedInt32
    simp only [hsum, if_pos hpos]

theorem firstKey_bottom (hlinked : ∀ t ∈ ts, 0 < t.height) :
    firstKey ts bottom = (ts.head?.map (·.key)).getD (-2) := by
  cases ts with
  | nil => rfl
  | cons t ts =>
    have ht : decide (bottom.val < t.height) = true := decide_eq_true (hlinked t List.mem_cons_self)
    simp [firstKey, ht]

theorem firstKey_flat (hflat : ∀ t ∈ ts, t.height = 1) {i : Fin level} (hi : i ≠ bottom) :
    firstKey ts i = -2 := by
  have hnone : (ts.find? fun t => i.val < t.height) = none := by
    apply List.find?_eq_none.mpr
    intro t ht
    have hpos : i.val ≠ 0 := fun h0 => hi (Fin.ext h0)
    have := hflat t ht
    simp only [decide_eq_true_eq]
    omega
  simp [firstKey, hnone]

theorem towers_bytes (hlinked : ∀ t ∈ ts, 0 < t.height) :
    NodeProto.listByteSize (towerProtos ts) ≤ entriesBytes (ts.map fun t => (t.key, t.value)) ∧
      ((∀ t ∈ ts, t.height = 1) →
        NodeProto.listByteSize (towerProtos ts) = entriesBytes (ts.map fun t => (t.key, t.value))) := by
  induction ts with
  | nil => exact ⟨le_rfl, fun _ => rfl⟩
  | cons t ts ih =>
    have htail : ∀ u ∈ ts, 0 < u.height := fun u hu => hlinked u (List.mem_cons_of_mem t hu)
    have ht := hlinked t List.mem_cons_self
    obtain ⟨hle, heq⟩ := ih htail
    have hhead : ((ts.map fun t => (t.key, t.value)).head?.map Prod.fst) = ts.head?.map (·.key) := by
      rw [List.head?_map, Option.map_map]
      rfl
    have hbot : (if bottom.val < t.height then firstKey ts bottom else -2) =
        (ts.head?.map (·.key)).getD (-2) := by
      have hb : bottom.val < t.height := ht
      rw [if_pos hb, firstKey_bottom htail]
    obtain ⟨hrle, hreq⟩ := record_bytes t.key t.value.data
      (fun i => if i.val < t.height then firstKey ts i else -2) _ hbot
    unfold NodeProto.listByteSize at hle heq ⊢
    simp only [towerProtos, List.map_cons, List.sum_cons, entriesBytes, hhead]
    constructor
    · omega
    · intro hflat
      rw [heq fun u hu => hflat u (List.mem_cons_of_mem t hu), hreq]
      intro i hi
      rw [firstKey_flat (fun u hu => hflat u (List.mem_cons_of_mem t hu)) hi, ite_self]

/-- The encoding of a list is within the closed form, and reaches it when no node is
linked above level 0. -/
theorem HoldsAs.listByteSize (h : sl.HoldsAs ts m) :
    8 + NodeProto.listByteSize (protoOf ts) ≤ worstBytes m ∧
      ((∀ t ∈ ts, t.height = 1) → 8 + NodeProto.listByteSize (protoOf ts) = worstBytes m) := by
  have hlinked := h.represents.linked
  have hkeys : m.keys.head? = ts.head?.map (·.key) := by
    rw [SortedMap.keys, h.entries, List.map_map, List.head?_map]
    rfl
  obtain ⟨hle, heq⟩ := towers_bytes hlinked
  obtain ⟨hhle, hheq⟩ := record_bytes (-1) [] (firstKey ts) _ (firstKey_bottom hlinked)
  rw [← h.entries] at hle heq
  unfold NodeProto.listByteSize at hle heq ⊢
  unfold worstBytes
  rw [hkeys]
  simp only [protoOf, List.map_cons, List.sum_cons, List.length_nil] at hhle hheq ⊢
  constructor
  · omega
  · intro hflat
    rw [heq hflat, hheq fun i hi => firstKey_flat hflat hi]
    omega

end Skiplist

namespace ValidList

theorem toProto_isSome (l : ValidList) : l.list.toProto.isSome := by
  obtain ⟨ts, h⟩ := l.holds
  simp [h.represents.toProto]

/-- `ByteSizeLong` of the message `serialize` builds. -/
def serializedSize (l : ValidList) : Nat := NodeProto.listByteSize (l.list.toProto.get l.toProto_isSome)

/-- No node is linked above level 0. -/
def Flat (l : ValidList) : Prop := ∃ ts, l.list.HoldsAs ts l.contents ∧ ∀ t ∈ ts, t.height = 1

theorem serializedSize_le (l : ValidList) : 8 + l.serializedSize ≤ worstBytes l.contents := by
  obtain ⟨ts, h⟩ := l.holds
  simpa only [serializedSize, h.represents.toProto, Option.get_some] using h.listByteSize.1

theorem Flat.serializedSize {l : ValidList} (hl : l.Flat) : 8 + l.serializedSize = worstBytes l.contents := by
  obtain ⟨ts, h, hflat⟩ := hl
  simpa only [ValidList.serializedSize, h.represents.toProto, Option.get_some] using
    h.listByteSize.2 hflat

theorem new_flat : new.Flat := ⟨[], Skiplist.new_holdsAs, by simp⟩

theorem Flat.add {l : ValidList} (hl : l.Flat) (key : Int32) (value : Bytes) :
    (l.add key value fun _ => true).1.Flat := by
  obtain ⟨ts, h, hflat⟩ := hl
  obtain ⟨sl', ts', hadd, hholds, hheights, _⟩ := h.add key value fun _ => true
  rw [add_list, Option.some.injEq, Prod.mk.injEq] at hadd
  refine ⟨ts', hadd.1 ▸ hholds, ?_⟩
  intro t ht
  rcases hheights t ht with hnew | ⟨u, hu, hold⟩
  · exact hnew
  · exact hold.trans (hflat u hu)

theorem Flat.erase {l : ValidList} (hl : l.Flat) (key : Int32) : (l.erase key).1.Flat := by
  obtain ⟨ts, h, hflat⟩ := hl
  obtain ⟨sl', ts', herase, hholds, hsub, _⟩ := h.erase key
  refine ⟨ts', ?_, fun t ht => hflat t (hsub t ht)⟩
  simpa only [ValidList.erase, herase, Option.get_some] using hholds

theorem clear_flat (l : ValidList) : l.clear.Flat := by
  obtain ⟨ts, h⟩ := l.holds
  obtain ⟨sl', hclear, hholds, _⟩ := h.clear
  refine ⟨[], ?_, by simp⟩
  simpa only [ValidList.clear, hclear, Option.get_some] using hholds

end ValidList

end KVStorage

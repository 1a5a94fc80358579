import KVStorage.BlockBytes
import KVStorage.InfoCodec

/-!
# The list on the wire

`proto::Skiplist` and its nodes, as the generated code writes and parses them. A node
is parsed into a fresh message, so a message of nodes is the list of its parsed nodes.
-/

namespace KVStorage

set_option autoImplicit false

open Wire

namespace NodeProto

def empty : NodeProto := ⟨0, [], []⟩

def nextBytes (next : List Int32) : Bytes := next.flatMap fun k => varint (encodeInt32 k)

def fields (r : NodeProto) : List Field :=
  varintField 1 (encodeInt32 r.key) ++ bytesField 2 r.value ++ bytesField 3 (nextBytes r.next)

def merge (r : NodeProto) (f : Field) : Option NodeProto :=
  match f.number, f.value with
  | 1, .varint n => some { r with key := decodeInt32 n }
  | 2, .bytes data => if ValidUtf8 data then some { r with value := data } else none
  | 3, .bytes data => (packed data).map fun ns => { r with next := r.next ++ ns.map decodeInt32 }
  | 3, .varint n => some { r with next := r.next ++ [decodeInt32 n] }
  | _, _ => some r

/-- `SerializeToArray` of the message with these nodes. -/
def serialize (nodes : List NodeProto) : Bytes :=
  encode (nodes.map fun r => ⟨1, .bytes (encode r.fields)⟩)

def mergeNode (nodes : List NodeProto) (f : Field) : Option (List NodeProto) :=
  match f.number, f.value with
  | 1, .bytes data => (parse merge (parseDepth - 1) empty data).map fun r => nodes ++ [r]
  | _, _ => some nodes

/-- `ParseFromArray`. -/
def parseNodes (bs : Bytes) : Option (List NodeProto) := parse mergeNode parseDepth [] bs

/-! ## One node -/

theorem nextBytes_length (next : List Int32) :
    (nextBytes next).length = (next.map WireSize.int32).sum := by
  unfold nextBytes
  rw [List.length_flatMap]
  congr 1
  apply List.map_congr_left
  intro k _
  rw [varint_length, uint64_encodeInt32]

theorem readPacked_next (next : List Int32) {fuel : Nat} (h : next.length ≤ fuel) :
    readPacked fuel (nextBytes next) = some (next.map encodeInt32) := by
  induction next generalizing fuel with
  | nil => cases fuel <;> rfl
  | cons k next ih =>
    obtain ⟨fuel, rfl⟩ : ∃ fuel', fuel = fuel' + 1 := ⟨fuel - 1, by simp at h; omega⟩
    have hread := readVarint64_varint (encodeInt32 k) (nextBytes next)
    have hcons : nextBytes (k :: next) = varint (encodeInt32 k) ++ nextBytes next := rfl
    cases hb : nextBytes (k :: next) with
    | nil =>
      rw [hcons, List.append_eq_nil_iff] at hb
      exact absurd hb.1 (varintOf_ne_nil (by omega) _)
    | cons b bs =>
      rw [← hcons, hb] at hread
      rw [readPacked, hread, Option.bind_some, ih (by simpa using h), Option.map_some, List.map_cons]

theorem length_le_nextBytes (next : List Int32) : next.length ≤ (nextBytes next).length := by
  induction next with
  | nil => exact Nat.le_refl 0
  | cons k next ih =>
    have hpos := WireSize.int32_pos k
    rw [nextBytes_length] at ih ⊢
    rw [List.map_cons, List.sum_cons, List.length_cons]
    omega

theorem packed_next (next : List Int32) : packed (nextBytes next) = some (next.map encodeInt32) :=
  readPacked_next next (length_le_nextBytes next)

theorem fields_numbered (r : NodeProto) : Numbered r.fields := by
  have h₁ := numbered_varintField (by omega : 0 < 1) (by omega) (encodeInt32 r.key)
  have h₂ := numbered_bytesField (by omega : 0 < 2) (by omega) r.value
  have h₃ := numbered_bytesField (by omega : 0 < 3) (by omega) (nextBytes r.next)
  exact (h₁.append h₂).append h₃

theorem value_length_le (r : NodeProto) : r.value.length ≤ r.byteSizeLong := by
  unfold byteSizeLong
  split
  · rename_i he
    simp [he]
  · unfold WireSize.delimited
    omega

theorem nextBytes_length_le (r : NodeProto) : (nextBytes r.next).length ≤ r.byteSizeLong := by
  rw [nextBytes_length]
  unfold byteSizeLong WireSize.packedInt32
  simp only
  omega

theorem fields_length {r : NodeProto} (h : r.byteSizeLong < 128 ^ 5) :
    (encode r.fields).length = r.byteSizeLong := by
  have h₁ := varintField_length (by omega : 1 < 16) (encodeInt32 r.key)
  have h₂ := bytesField_length (by omega : 2 < 16) (r.value_length_le.trans_lt h)
  have h₃ := bytesField_length (by omega : 3 < 16) (r.nextBytes_length_le.trans_lt h)
  have hnil : nextBytes r.next = [] ↔ (r.next.map WireSize.int32).sum = 0 := by
    rw [← nextBytes_length, List.length_eq_zero_iff]
  simp only [encodeInt32_eq_zero, uint64_encodeInt32] at h₁
  simp only [hnil, nextBytes_length] at h₃
  simp only [fields, encode_append, List.length_append, h₁, h₂, h₃]
  unfold byteSizeLong WireSize.packedInt32
  by_cases hs : (r.next.map WireSize.int32).sum = 0
  · simp only [hs, lt_irrefl, if_true, if_false]
    omega
  · have hlinks : WireSize.delimited (r.next.map WireSize.int32).sum =
        (r.next.map WireSize.int32).sum + WireSize.varint (r.next.map WireSize.int32).sum := rfl
    simp only [if_neg hs, if_pos (Nat.pos_of_ne_zero hs), hlinks]
    omega

theorem fields_fits {r : NodeProto} (h : r.byteSizeLong ≤ maxSize) : ∀ f ∈ r.fields, f.Fits :=
  r.fields_numbered.fits ((fields_length (lt_of_le_maxSize h)).trans_le h)

theorem parse_fields {r : NodeProto} (h : r.byteSizeLong ≤ maxSize) (depth : Nat) :
    parse merge depth empty (encode r.fields) = if ValidUtf8 r.value then some r else none := by
  rw [parse_encode _ (fields_fits h)]
  have h₁ : (varintField 1 (encodeInt32 r.key)).foldlM merge empty = some ⟨r.key, [], []⟩ :=
    foldlM_varintField (by simp [merge, empty]) fun he => by rw [encodeInt32_eq_zero.mp he]; rfl
  rw [fields, List.append_assoc, foldlM_append h₁]
  by_cases hv : ValidUtf8 r.value
  · have h₂ : (bytesField 2 r.value).foldlM merge ⟨r.key, [], []⟩ = some ⟨r.key, r.value, []⟩ :=
      foldlM_bytesField (by simp [merge, hv]) fun he => by rw [he]
    have h₃ : (bytesField 3 (nextBytes r.next)).foldlM merge ⟨r.key, r.value, []⟩ = some r := by
      have hdecode : (r.next.map encodeInt32).map decodeInt32 = r.next := by
        rw [List.map_map]
        conv => rhs; rw [← List.map_id r.next]
        apply List.map_congr_left
        intro k _
        exact decodeInt32_encodeInt32 k
      apply foldlM_bytesField
      · simp only [merge, packed_next, Option.map_some, hdecode, List.nil_append]
      · intro he
        have hlength := nextBytes_length r.next
        rw [he] at hlength
        cases hr : r.next with
        | nil => rw [← hr]
        | cons k next =>
          have := WireSize.int32_pos k
          rw [hr, List.map_cons, List.sum_cons, List.length_nil] at hlength
          omega
    rw [foldlM_append h₂, h₃, if_pos hv]
  · have hne : r.value ≠ [] := by
      intro he
      rw [he] at hv
      exact hv validUtf8_nil
    rw [bytesField, if_neg hne, List.singleton_append, List.foldlM_cons, if_neg hv]
    simp only [merge, if_neg hv, Option.bind_eq_bind, Option.bind_none]

/-! ## The list of nodes -/

variable {nodes nodes' : List NodeProto}

theorem serialize_cons (r : NodeProto) (nodes : List NodeProto) :
    serialize (r :: nodes) = encodeField ⟨1, .bytes (encode r.fields)⟩ ++ serialize nodes := rfl

theorem node_le_list {r : NodeProto} (h : r ∈ nodes) : r.byteSizeLong ≤ listByteSize nodes := by
  obtain ⟨before, after, rfl⟩ := List.append_of_mem h
  unfold listByteSize WireSize.delimited
  rw [List.map_append, List.map_cons, List.sum_append, List.sum_cons]
  omega

theorem serialize_length (h : ∀ r ∈ nodes, r.byteSizeLong < 128 ^ 5) :
    (serialize nodes).length = listByteSize nodes := by
  have hlength := encode_map_length (by omega : 1 < 16) nodes
    fun r hr => (fields_length (h r hr)).trans_lt (h r hr)
  rw [serialize, hlength, listByteSize]
  congr 1
  apply List.map_congr_left
  intro r hr
  rw [fields_length (h r hr)]

theorem foldlM_nodes (h : ∀ r ∈ nodes, r.byteSizeLong ≤ maxSize) (before : List NodeProto) :
    (nodes.map fun r => (⟨1, .bytes (encode r.fields)⟩ : Field)).foldlM mergeNode before =
      if nodes.all fun r => ValidUtf8 r.value then some (before ++ nodes) else none := by
  induction nodes generalizing before with
  | nil => simp
  | cons r nodes ih =>
    have hparse := parse_fields (h r List.mem_cons_self) (parseDepth - 1)
    have hrest := ih fun s hs => h s (List.mem_cons_of_mem r hs)
    have hnode : mergeNode before ⟨1, .bytes (encode r.fields)⟩ =
        (if ValidUtf8 r.value then some r else none).map fun r => before ++ [r] := by
      rw [← hparse]
      rfl
    rw [List.map_cons, List.foldlM_cons, hnode]
    by_cases hv : ValidUtf8 r.value
    · rw [if_pos hv, Option.map_some, Option.bind_eq_bind, Option.bind_some, hrest]
      simp [hv]
    · rw [if_neg hv, Option.map_none]
      simp [hv]

/-- What was written parses if its strings are UTF-8, and then as it was. -/
theorem parseNodes_serialize (h : ∀ r ∈ nodes, r.byteSizeLong ≤ maxSize) :
    parseNodes (serialize nodes) =
      if nodes.all fun r => ValidUtf8 r.value then some nodes else none := by
  have hfits : ∀ f ∈ nodes.map fun r => (⟨1, .bytes (encode r.fields)⟩ : Field), f.Fits := by
    intro f hf
    obtain ⟨r, hr, rfl⟩ := List.mem_map.mp hf
    refine ⟨Nat.one_pos, (by omega : 1 < 536870912), ?_⟩
    intro data hdata
    cases hdata
    exact (fields_length (lt_of_le_maxSize (h r hr))).trans_le (h r hr)
  rw [parseNodes, serialize, parse_encode _ hfits, foldlM_nodes h, List.nil_append]

theorem readFields_large_node (h : ∀ r ∈ nodes, r.byteSizeLong < 128 ^ 5)
    (hlarge : ∃ r ∈ nodes, maxSize < r.byteSizeLong) (fuel depth : Nat) :
    readFields fuel depth [] (serialize nodes) = none := by
  induction nodes generalizing fuel with
  | nil => simp at hlarge
  | cons r nodes ih =>
    have hr := h r List.mem_cons_self
    rw [serialize_cons]
    by_cases hfits : r.byteSizeLong ≤ maxSize
    · have hlarge' : ∃ s ∈ nodes, maxSize < s.byteSizeLong := by
        obtain ⟨s, hs, hlt⟩ := hlarge
        rcases List.mem_cons.mp hs with rfl | hs
        · exact absurd hlt (not_lt.mpr hfits)
        · exact ⟨s, hs, hlt⟩
      have hfield : Field.Fits ⟨1, .bytes (encode r.fields)⟩ := by
        refine ⟨Nat.one_pos, (by omega : 1 < 536870912), ?_⟩
        intro data hdata
        cases hdata
        exact (fields_length hr).trans_le hfits
      cases fuel with
      | zero =>
        have hpos := encodeField_length_pos ⟨1, .bytes (encode r.fields)⟩
        cases hbs : encodeField ⟨1, .bytes (encode r.fields)⟩ with
        | nil =>
          rw [hbs] at hpos
          exact absurd hpos (by simp)
        | cons b bs => rfl
      | succ fuel =>
        rw [readFields_field hfield, ih (fun s hs => h s (List.mem_cons_of_mem r hs)) hlarge',
          Option.map_none]
    · rw [not_le] at hfits
      apply readFields_too_large Nat.one_pos (by omega)
      · rwa [fields_length hr]
      · rwa [fields_length hr]

/-- A list that was written and parses is the list that was written. -/
theorem parseNodes_written (h : ∀ r ∈ nodes, r.byteSizeLong < 128 ^ 5)
    (hparse : parseNodes (serialize nodes) = some nodes') : nodes' = nodes := by
  by_cases hall : ∀ r ∈ nodes, r.byteSizeLong ≤ maxSize
  · rw [parseNodes_serialize hall] at hparse
    split at hparse
    · exact (Option.some.inj hparse).symm
    · cases hparse
  · simp only [not_forall, not_le, exists_prop] at hall
    rw [parseNodes, parse, Wire.fields, readFields_large_node h hall, Option.bind_none] at hparse
    cases hparse

end NodeProto

end KVStorage

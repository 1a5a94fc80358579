import KVStorage.FileInfo
import KVStorage.Library.Wire

/-!
# The index on the wire

`proto::FileInfo` and the messages inside it, field by field as the generated code
writes and parses them. The entries of the key map are written in the order of its hash
table, which may be any order.
-/

namespace KVStorage

set_option autoImplicit false

open Wire

/-- An `int32` is written as the 64-bit word it extends to. -/
def encodeInt32 (k : Int32) : UInt64 := k.toInt64.toUInt64

def decodeInt32 (n : UInt64) : Int32 := n.toInt64.toInt32

@[simp] theorem decodeInt32_encodeInt32 (k : Int32) : decodeInt32 (encodeInt32 k) = k := by
  simp [decodeInt32, encodeInt32]

theorem encodeInt32_eq_zero {k : Int32} : encodeInt32 k = 0 ↔ k = 0 := by
  constructor
  · intro h
    rw [← decodeInt32_encodeInt32 k, h]
    rfl
  · rintro rfl
    rfl

/-- A negative number takes the upper half of the 64-bit words. -/
theorem encodeInt32_toNat (k : Int32) :
    ((encodeInt32 k).toNat : Int) = if k.toInt < 0 then k.toInt + 18446744073709551616 else k.toInt := by
  have hint : k.toInt64.toBitVec.toInt = k.toInt := Int32.toInt_toInt64 k
  have hcond := BitVec.toInt_eq_toNat_cond k.toInt64.toBitVec
  have hlt := k.toInt64.toBitVec.isLt
  have hnat : (encodeInt32 k).toNat = k.toInt64.toBitVec.toNat := rfl
  rw [hint] at hcond
  rw [hnat]
  split at hcond <;> split <;> omega

theorem uint64_encodeInt32 (k : Int32) : WireSize.uint64 (encodeInt32 k) = WireSize.int32 k := by
  have hnat := encodeInt32_toNat k
  have hneg : k < 0 ↔ k.toInt < 0 := Int32.lt_iff_toInt_lt
  have hge := k.le_toInt
  unfold WireSize.uint64 WireSize.int32
  by_cases hk : k < 0
  · rw [if_pos (hneg.mp hk)] at hnat
    rw [if_pos hk]
    apply le_antisymm
    · exact WireSize.varint_le (by omega) (by have := (encodeInt32 k).toNat_lt; omega)
    · exact WireSize.le_varint (by omega)
  · rw [if_neg fun h => hk (hneg.mpr h)] at hnat
    rw [if_neg hk]
    congr 1
    omega

/-- `ParseContext` allows this many nested messages and groups. -/
def parseDepth : Nat := 100

namespace SuperBlock

/-- The message of which no field was set. -/
def empty : SuperBlock := ⟨[], 0, 0, 0, []⟩

def fields (s : SuperBlock) : List Field :=
  bytesField 1 s.fileName ++ varintField 2 s.fileSize ++ varintField 3 s.blockSize ++
    varintField 4 (encodeInt32 s.blockNum) ++ bytesField 5 s.createTime

def merge (s : SuperBlock) (f : Field) : Option SuperBlock :=
  match f.number, f.value with
  | 1, .bytes data => if ValidUtf8 data then some { s with fileName := data } else none
  | 2, .varint n => some { s with fileSize := n }
  | 3, .varint n => some { s with blockSize := n }
  | 4, .varint n => some { s with blockNum := decodeInt32 n }
  | 5, .bytes data => if ValidUtf8 data then some { s with createTime := data } else none
  | _, _ => some s

theorem fields_numbered (s : SuperBlock) : Numbered s.fields := by
  have h₁ := numbered_bytesField (by omega : 0 < 1) (by omega) s.fileName
  have h₂ := numbered_varintField (by omega : 0 < 2) (by omega) s.fileSize
  have h₃ := numbered_varintField (by omega : 0 < 3) (by omega) s.blockSize
  have h₄ := numbered_varintField (by omega : 0 < 4) (by omega) (encodeInt32 s.blockNum)
  have h₅ := numbered_bytesField (by omega : 0 < 5) (by omega) s.createTime
  exact (((h₁.append h₂).append h₃).append h₄).append h₅

theorem length_le_size {data : Bytes} {n : Nat}
    (h : (if data = [] then 0 else 1 + WireSize.delimited data.length) ≤ n) : data.length ≤ n := by
  split at h
  · rename_i he
    simp [he]
  · unfold WireSize.delimited at h
    omega

theorem fields_length {s : SuperBlock} (h : InfoProto.superBlockSize s ≤ maxSize) :
    (encode s.fields).length = InfoProto.superBlockSize s := by
  unfold InfoProto.superBlockSize at h ⊢
  have hname : s.fileName.length ≤ maxSize := length_le_size (by omega)
  have htime : s.createTime.length ≤ maxSize := length_le_size (by omega)
  have h₁ := bytesField_length (by omega : 1 < 16) (lt_of_le_maxSize hname)
  have h₂ := varintField_length (by omega : 2 < 16) s.fileSize
  have h₃ := varintField_length (by omega : 3 < 16) s.blockSize
  have h₄ := varintField_length (by omega : 4 < 16) (encodeInt32 s.blockNum)
  have h₅ := bytesField_length (by omega : 5 < 16) (lt_of_le_maxSize htime)
  simp only [encodeInt32_eq_zero, uint64_encodeInt32] at h₄
  simp only [fields, encode_append, List.length_append, h₁, h₂, h₃, h₄, h₅]
  omega

theorem parse_fields {s : SuperBlock} (h : InfoProto.superBlockSize s ≤ maxSize)
    (hname : ValidUtf8 s.fileName) (htime : ValidUtf8 s.createTime) (depth : Nat) :
    parse merge depth empty (encode s.fields) = some s := by
  have hfits := s.fields_numbered.fits ((fields_length h).trans_le h)
  rw [parse_encode _ hfits]
  have h₁ : (bytesField 1 s.fileName).foldlM merge empty = some ⟨s.fileName, 0, 0, 0, []⟩ :=
    foldlM_bytesField (by simp [merge, hname, empty]) fun he => by rw [he]; rfl
  have h₂ : (varintField 2 s.fileSize).foldlM merge ⟨s.fileName, 0, 0, 0, []⟩ =
      some ⟨s.fileName, s.fileSize, 0, 0, []⟩ := foldlM_varintField rfl fun he => by rw [he]
  have h₃ : (varintField 3 s.blockSize).foldlM merge ⟨s.fileName, s.fileSize, 0, 0, []⟩ =
      some ⟨s.fileName, s.fileSize, s.blockSize, 0, []⟩ := foldlM_varintField rfl fun he => by rw [he]
  have h₄ : (varintField 4 (encodeInt32 s.blockNum)).foldlM merge ⟨s.fileName, s.fileSize, s.blockSize, 0, []⟩ =
      some ⟨s.fileName, s.fileSize, s.blockSize, s.blockNum, []⟩ :=
    foldlM_varintField (by simp [merge]) fun he => by rw [encodeInt32_eq_zero.mp he]
  have h₅ : (bytesField 5 s.createTime).foldlM merge ⟨s.fileName, s.fileSize, s.blockSize, s.blockNum, []⟩ =
      some s := foldlM_bytesField (by simp [merge, htime]) fun he => by rw [← he]
  rw [fields, List.append_assoc, List.append_assoc, List.append_assoc, foldlM_append h₁, foldlM_append h₂,
    foldlM_append h₃, foldlM_append h₄, h₅]

end SuperBlock

namespace BlockIndexTable

def empty : BlockIndexTable := ⟨0, 0, 0⟩

def fields (b : BlockIndexTable) : List Field :=
  varintField 1 b.blockNumber ++ varintField 2 b.offset ++ varintField 3 b.freeSpace

def merge (b : BlockIndexTable) (f : Field) : Option BlockIndexTable :=
  match f.number, f.value with
  | 1, .varint n => some { b with blockNumber := n }
  | 2, .varint n => some { b with offset := n }
  | 3, .varint n => some { b with freeSpace := n }
  | _, _ => some b

theorem fields_numbered (b : BlockIndexTable) : Numbered b.fields := by
  have h₁ := numbered_varintField (by omega : 0 < 1) (by omega) b.blockNumber
  have h₂ := numbered_varintField (by omega : 0 < 2) (by omega) b.offset
  have h₃ := numbered_varintField (by omega : 0 < 3) (by omega) b.freeSpace
  exact (h₁.append h₂).append h₃

theorem fields_length (b : BlockIndexTable) : (encode b.fields).length = InfoProto.blockIndexSize b := by
  simp only [fields, encode_append, List.length_append, varintField_length (by omega : 1 < 16),
    varintField_length (by omega : 2 < 16), varintField_length (by omega : 3 < 16)]
  rfl

theorem fields_length_le (b : BlockIndexTable) : (encode b.fields).length ≤ maxSize := by
  have := InfoProto.blockIndexSize_le b
  rw [fields_length, maxSize]
  omega

theorem parse_fields (b : BlockIndexTable) (depth : Nat) :
    parse merge depth empty (encode b.fields) = some b := by
  rw [parse_encode _ (b.fields_numbered.fits b.fields_length_le)]
  have h₁ : (varintField 1 b.blockNumber).foldlM merge empty = some ⟨b.blockNumber, 0, 0⟩ :=
    foldlM_varintField rfl fun he => by rw [he]; rfl
  have h₂ : (varintField 2 b.offset).foldlM merge ⟨b.blockNumber, 0, 0⟩ = some ⟨b.blockNumber, b.offset, 0⟩ :=
    foldlM_varintField rfl fun he => by rw [he]
  have h₃ : (varintField 3 b.freeSpace).foldlM merge ⟨b.blockNumber, b.offset, 0⟩ = some b :=
    foldlM_varintField rfl fun he => by rw [← he]
  rw [fields, List.append_assoc, foldlM_append h₁, foldlM_append h₂, h₃]

end BlockIndexTable

namespace InfoProto

/-- An entry of the key map is a message of its own, with both fields always written. -/
def entryFields (e : Int32 × SizeT) : List Field :=
  [⟨1, .varint (encodeInt32 e.1)⟩, ⟨2, .varint e.2⟩]

def mergeEntry (e : Int32 × SizeT) (f : Field) : Option (Int32 × SizeT) :=
  match f.number, f.value with
  | 1, .varint n => some (decodeInt32 n, e.2)
  | 2, .varint n => some (e.1, n)
  | _, _ => some e

def boolByte (b : Bool) : UInt8 := if b then 1 else 0

def usageFields (usage : List Bool) : List Field := bytesField 4 (usage.map boolByte)

/-- The message with its map entries in a given order. -/
def fields (info : InfoProto) (order : List (Int32 × SizeT)) : List Field :=
  [⟨1, .bytes (encode info.superBlock.fields)⟩] ++
    info.blockIndexTables.map (fun b => ⟨2, .bytes (encode b.fields)⟩) ++
    order.map (fun e => ⟨3, .bytes (encode (entryFields e))⟩) ++ usageFields info.blockUsageTable

/-- `SerializeToArray`. -/
def serialize (info : InfoProto) (order : List (Int32 × SizeT)) : Bytes := encode (info.fields order)

def empty : InfoProto := ⟨SuperBlock.empty, [], [], SortedMap.empty⟩

def merge (info : InfoProto) (f : Field) : Option InfoProto :=
  match f.number, f.value with
  | 1, .bytes data =>
    (parse SuperBlock.merge (parseDepth - 1) info.superBlock data).map fun s => { info with superBlock := s }
  | 2, .bytes data =>
    (parse BlockIndexTable.merge (parseDepth - 1) BlockIndexTable.empty data).map fun b =>
      { info with blockIndexTables := info.blockIndexTables ++ [b] }
  | 3, .bytes data =>
    (parse mergeEntry (parseDepth - 1) (0, 0) data).map fun e =>
      { info with keyBlockMap := info.keyBlockMap.insert e.1 e.2 }
  | 4, .bytes data =>
    (packed data).map fun ns =>
      { info with blockUsageTable := info.blockUsageTable ++ ns.map fun n => decide (n ≠ 0) }
  | 4, .varint n => some { info with blockUsageTable := info.blockUsageTable ++ [decide (n ≠ 0)] }
  | _, _ => some info

/-- `ParseFromArray`. -/
def parseFromArray (bs : Bytes) : Option InfoProto := parse merge parseDepth empty bs

theorem entryFields_numbered (e : Int32 × SizeT) : Numbered (entryFields e) :=
  (numbered_singleton (by omega : 0 < 1) (by omega) (.varint (encodeInt32 e.1))).append
    (numbered_singleton (by omega : 0 < 2) (by omega) (.varint e.2))

theorem entryFields_length (e : Int32 × SizeT) :
    (encode (entryFields e)).length = 2 + WireSize.int32 e.1 + WireSize.uint64 e.2 := by
  have h₁ := encodeField_varint_length (by omega : 1 < 16) (encodeInt32 e.1)
  have h₂ := encodeField_varint_length (by omega : 2 < 16) e.2
  rw [uint64_encodeInt32] at h₁
  simp only [entryFields, encode, List.flatMap_cons, List.flatMap_nil, List.append_nil, List.length_append,
    h₁, h₂]
  omega

theorem entryFields_length_le (e : Int32 × SizeT) : (encode (entryFields e)).length ≤ maxSize := by
  have h₁ := WireSize.int32_le e.1
  have h₂ := WireSize.uint64_le e.2
  rw [entryFields_length, maxSize]
  omega

theorem parse_entryFields (e : Int32 × SizeT) (depth : Nat) :
    parse mergeEntry depth (0, 0) (encode (entryFields e)) = some e := by
  rw [parse_encode _ ((entryFields_numbered e).fits (entryFields_length_le e)), entryFields]
  simp [mergeEntry]

theorem readPacked_bools (usage : List Bool) {fuel : Nat} (h : usage.length ≤ fuel) :
    readPacked fuel (usage.map boolByte) = some (usage.map fun b => if b then 1 else 0) := by
  induction usage generalizing fuel with
  | nil => cases fuel <;> rfl
  | cons b usage ih =>
    obtain ⟨fuel, rfl⟩ : ∃ fuel', fuel = fuel' + 1 := ⟨fuel - 1, by simp at h; omega⟩
    have hread : readVarint64 (boolByte b :: usage.map boolByte) =
        some (if b then 1 else 0, usage.map boolByte) := by cases b <;> rfl
    rw [List.map_cons, readPacked, hread, Option.bind_some, ih (by simpa using h), Option.map_some,
      List.map_cons]

theorem merge_usage (info : InfoProto) (usage : List Bool) :
    info.merge ⟨4, .bytes (usage.map boolByte)⟩ =
      some { info with blockUsageTable := info.blockUsageTable ++ usage } := by
  have hpacked : packed (usage.map boolByte) = some (usage.map fun b => if b then 1 else 0) :=
    readPacked_bools usage (by simp)
  have hbools : (usage.map fun b => if b then (1 : UInt64) else 0).map (fun n => decide (n ≠ 0)) = usage := by
    rw [List.map_map]
    conv => rhs; rw [← List.map_id usage]
    apply List.map_congr_left
    intro b _
    cases b <;> rfl
  simp only [merge, hpacked, Option.map_some, hbools]

theorem foldlM_tables (info : InfoProto) (l : List BlockIndexTable) :
    (l.map fun b => (⟨2, .bytes (encode b.fields)⟩ : Field)).foldlM merge info =
      some { info with blockIndexTables := info.blockIndexTables ++ l } := by
  induction l generalizing info with
  | nil => simp
  | cons b l ih =>
    have hb : info.merge ⟨2, .bytes (encode b.fields)⟩ =
        some { info with blockIndexTables := info.blockIndexTables ++ [b] } := by
      simp only [merge, BlockIndexTable.parse_fields, Option.map_some]
    rw [List.map_cons, List.foldlM_cons, hb, Option.bind_eq_bind, Option.bind_some, ih, List.append_assoc,
      List.singleton_append]

theorem foldlM_entries (info : InfoProto) (l : List (Int32 × SizeT)) :
    (l.map fun e => (⟨3, .bytes (encode (entryFields e))⟩ : Field)).foldlM merge info =
      some { info with keyBlockMap := info.keyBlockMap.insertAll l } := by
  induction l generalizing info with
  | nil => simp [SortedMap.insertAll]
  | cons e l ih =>
    have he : info.merge ⟨3, .bytes (encode (entryFields e))⟩ =
        some { info with keyBlockMap := info.keyBlockMap.insert e.1 e.2 } := by
      simp only [merge, parse_entryFields, Option.map_some]
    rw [List.map_cons, List.foldlM_cons, he, Option.bind_eq_bind, Option.bind_some, ih]
    rfl

variable {info : InfoProto} {order : List (Int32 × SizeT)}

theorem superBlockSize_le (info : InfoProto) : superBlockSize info.superBlock ≤ info.byteSizeLong := by
  unfold byteSizeLong WireSize.delimited
  omega

theorem usage_length_le (info : InfoProto) : info.blockUsageTable.length ≤ info.byteSizeLong := by
  unfold byteSizeLong
  by_cases he : info.blockUsageTable = []
  · simp [he]
  · rw [if_neg he]
    unfold WireSize.delimited
    omega

theorem serialize_length (horder : order.Perm info.keyBlockMap.entries)
    (hsize : info.byteSizeLong ≤ maxSize) : (info.serialize order).length = info.byteSizeLong := by
  have hsuper : (encode info.superBlock.fields).length = superBlockSize info.superBlock :=
    SuperBlock.fields_length (info.superBlockSize_le.trans hsize)
  have h₁ := encodeField_bytes_length (by omega : 1 < 16)
    (lt_of_le_maxSize (hsuper.trans_le (info.superBlockSize_le.trans hsize)))
  have h₂ := encode_map_length (by omega : 2 < 16) info.blockIndexTables fun b _ =>
    lt_of_le_maxSize b.fields_length_le
  have h₃ := encode_map_length (by omega : 3 < 16) order fun e _ =>
    lt_of_le_maxSize (entryFields_length_le e)
  have husage : (info.blockUsageTable.map boolByte).length ≤ maxSize := by
    rw [List.length_map]
    exact info.usage_length_le.trans hsize
  have h₄ := bytesField_length (by omega : 4 < 16) (lt_of_le_maxSize husage)
  have hentries : (order.map fun e => 1 + WireSize.delimited (encode (entryFields e)).length).sum =
      (info.keyBlockMap.entries.map fun e => 1 + keyBlockSize e.1 e.2).sum := by
    rw [(horder.map _).sum_nat]
    congr 1
    apply List.map_congr_left
    intro e _
    rw [entryFields_length, keyBlockSize]
  rw [hsuper] at h₁
  rw [hentries] at h₃
  simp only [List.map_eq_nil_iff, List.length_map] at h₄
  simp only [BlockIndexTable.fields_length] at h₂
  rw [serialize, fields, encode_append, encode_append, encode_append, List.length_append, List.length_append,
    List.length_append, h₂, h₃, usageFields, h₄, encode, List.flatMap_singleton, h₁, byteSizeLong]
  omega

theorem fields_numbered (info : InfoProto) (order : List (Int32 × SizeT)) : Numbered (info.fields order) := by
  have h₁ := numbered_singleton (by omega : 0 < 1) (by omega) (.bytes (encode info.superBlock.fields))
  have h₂ := numbered_map (by omega : 0 < 2) (by omega) (fun b : BlockIndexTable => .bytes (encode b.fields))
    info.blockIndexTables
  have h₃ := numbered_map (by omega : 0 < 3) (by omega) (fun e => .bytes (encode (entryFields e))) order
  have h₄ := numbered_bytesField (by omega : 0 < 4) (by omega) (info.blockUsageTable.map boolByte)
  exact ((h₁.append h₂).append h₃).append h₄

/-- Parsing undoes serializing, in whichever order the map was written. -/
theorem parseFromArray_serialize (horder : order.Perm info.keyBlockMap.entries)
    (hsize : info.byteSizeLong ≤ maxSize) (hname : ValidUtf8 info.superBlock.fileName)
    (htime : ValidUtf8 info.superBlock.createTime) :
    parseFromArray (info.serialize order) = some info := by
  have hfits := (info.fields_numbered order).fits ((serialize_length horder hsize).trans_le hsize)
  rw [parseFromArray, serialize, parse_encode _ hfits]
  have h₁ : [(⟨1, .bytes (encode info.superBlock.fields)⟩ : Field)].foldlM merge empty =
      some ⟨info.superBlock, [], [], SortedMap.empty⟩ := by
    have hsuper := SuperBlock.parse_fields (info.superBlockSize_le.trans hsize) hname htime (parseDepth - 1)
    have hmerge : empty.merge ⟨1, .bytes (encode info.superBlock.fields)⟩ =
        some ⟨info.superBlock, [], [], SortedMap.empty⟩ := by
      simp only [merge, empty, hsuper, Option.map_some]
    rw [List.foldlM_cons, hmerge]
    rfl
  have h₂ := foldlM_tables ⟨info.superBlock, [], [], SortedMap.empty⟩ info.blockIndexTables
  have h₃ := foldlM_entries ⟨info.superBlock, [], info.blockIndexTables, SortedMap.empty⟩ order
  have h₄ : (usageFields info.blockUsageTable).foldlM merge
      ⟨info.superBlock, [], info.blockIndexTables, SortedMap.empty.insertAll order⟩ = some info := by
    rw [SortedMap.insertAll_perm _ horder]
    apply foldlM_bytesField
    · rw [merge_usage, List.nil_append]
    · intro he
      rw [List.map_eq_nil_iff] at he
      rw [← he]
  rw [fields, List.append_assoc, List.append_assoc, foldlM_append h₁, foldlM_append h₂, List.nil_append,
    foldlM_append h₃]
  exact h₄

end InfoProto

end KVStorage

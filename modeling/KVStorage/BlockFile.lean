import KVStorage.Block0File
import KVStorage.NodeCodec

/-!
# Data blocks as bytes

`serialize` and `deserialize` on the bytes of the data file: eight bytes with the size of
the message at the offset of the block, and the message after them. The file is there if
the stream opens it.
-/

namespace KVStorage

set_option autoImplicit false

/-- A `size_t` position that is not negative as a `streamoff`. -/
def Seekable (pos : SizeT) : Prop := pos.toNat < 9223372036854775808

instance : DecidablePred Seekable := fun pos => inferInstanceAs (Decidable (pos.toNat < _))

/-- `seekp` and `write`; a gap behind the end of the file is filled with zeros. -/
def writePast (file : Bytes) (pos : Nat) (data : Bytes) : Bytes :=
  writeAt (file ++ List.replicate (pos - file.length) 0) pos data

variable (file : Bytes) (pos : Nat) (data : Bytes)

theorem padded_length : pos ≤ (file ++ List.replicate (pos - file.length) 0).length := by
  simp only [List.length_append, List.length_replicate]
  omega

theorem length_writePast : pos + data.length ≤ (writePast file pos data).length := by
  have hpos := padded_length file pos
  simp only [writePast, writeAt, List.length_append, List.length_take, List.length_drop] at hpos ⊢
  omega

theorem writePast_drop : (writePast file pos data).drop pos = data ++ file.drop (pos + data.length) := by
  have hzeros : pos - file.length - (pos + data.length - file.length) = 0 := by omega
  rw [writePast, writeAt, List.append_assoc, List.drop_left' (List.length_take_of_le (padded_length file pos)),
    List.drop_append, List.drop_replicate, hzeros, List.replicate_zero, List.append_nil]

theorem writePast_writePast {head : Bytes} {n : Nat} (hn : head.length = n) :
    (writePast (writePast file pos head) (pos + n) data).drop pos =
      head ++ (data ++ file.drop (pos + n + data.length)) := by
  subst hn
  have hlength := length_writePast file pos head
  have hhead := writePast_drop file pos head
  generalize writePast file pos head = written at hlength hhead
  have htail : written.drop (pos + head.length + data.length) = file.drop (pos + head.length + data.length) := by
    rw [Nat.add_assoc, ← List.drop_drop, hhead, ← List.drop_drop, List.drop_left, List.drop_drop]
    congr 1
    omega
  have hzeros : pos + head.length - written.length = 0 := by omega
  have hfront : (written.take (pos + head.length)).drop pos = head := by
    rw [List.drop_take, Nat.add_sub_cancel_left, hhead, List.take_left]
  rw [writePast, hzeros, List.replicate_zero, List.append_nil, writeAt, List.append_assoc,
    List.drop_append_of_le_length, hfront, htail]
  rw [List.length_take_of_le hlength]
  omega

/-- What `serializedSize` holds after reading `head` over its old value. -/
def announced (old : SizeT) (head : Bytes) : SizeT := ofSizeBytes (head ++ (sizeBytes old).drop head.length)

namespace NodeProto

/-- The buffer after `SerializeToArray`, which refuses a message of 2 GiB. -/
def buffer (nodes : List NodeProto) : Bytes :=
  if INT_MAX < listByteSize nodes then List.replicate (listByteSize nodes) 0 else serialize nodes

/-- The two writes of `serialize`. -/
def writeNodes (nodes : List NodeProto) (file : Bytes) (offset : SizeT) : Bytes :=
  if Seekable offset then
    writePast (writePast file offset.toNat (sizeBytes (UInt64.ofNat (listByteSize nodes))))
      (offset.toNat + 8) (buffer nodes)
  else file

end NodeProto

/-- `serialize`. -/
def ValidList.serialize (l : ValidList) (file : Option Bytes) (offset : SizeT) : Option Bytes :=
  file.map fun bytes => NodeProto.writeNodes (l.list.toProto.get l.toProto_isSome) bytes offset

inductive Deserialized where
  /-- It returns 0 and leaves the list as it is. -/
  | failed
  | loaded (list : Skiplist) (totalSize : SizeT)
  | threw
  /-- The size does not fit in an `int`, a link is outside its vector, or a level runs in a
  circle. -/
  | undefined

/-- `deserialize`. A read that ends early leaves zeros in the buffer, which is parsed whole. -/
def Skiplist.deserializeFile (sl : Skiplist) (serializedSize : SizeT) (file : Option Bytes) (offset : SizeT) :
    Deserialized :=
  match file with
  | none => .failed
  | some bytes =>
    let head := if Seekable offset then (bytes.drop offset.toNat).take 8 else []
    let size := announced serializedSize head
    if maxVector < size.toNat then .threw
    else
      let data := if head.length < 8 then [] else (bytes.drop (offset.toNat + 8)).take size.toNat
      if data = [] then .failed
      else if INT_MAX < size.toNat then .undefined
      else
        match NodeProto.parseNodes (data ++ List.replicate (size.toNat - data.length) 0) with
        | none => .failed
        | some nodes =>
          match sl.rebuild nodes with
          | none => .undefined
          | some (list, totalSize) => .loaded list totalSize

/-! ## Reading back what was written -/

namespace NodeProto

variable {nodes : List NodeProto}

theorem listByteSize_pos (h : nodes ≠ []) : 0 < listByteSize nodes := by
  cases nodes with
  | nil => exact absurd rfl h
  | cons r nodes =>
    rw [listByteSize, List.map_cons, List.sum_cons]
    omega

theorem node_lt (h : listByteSize nodes ≤ INT_MAX) : ∀ r ∈ nodes, r.byteSizeLong < 128 ^ 5 := by
  intro r hr
  have hle := node_le_list hr
  unfold INT_MAX at h
  omega

theorem parseNodes_zero (bs : Bytes) : parseNodes (0 :: bs) = none := by
  have hread : Wire.readVarint 5 (0 :: bs) = some (0, bs) := rfl
  rw [parseNodes, Wire.parse, Wire.fields, List.length_cons, Wire.readFields, hread]
  simp

end NodeProto

namespace Skiplist

open NodeProto

variable {sl list : Skiplist} {nodes : List NodeProto} {file : Bytes} {offset serializedSize totalSize : SizeT}

theorem written_drop (h : Seekable offset) (nodes : List NodeProto) (file : Bytes) :
    ∃ rest, (writeNodes nodes file offset).drop offset.toNat =
      sizeBytes (UInt64.ofNat (listByteSize nodes)) ++ (buffer nodes ++ rest) := by
  rw [writeNodes, if_pos h]
  exact ⟨_, writePast_writePast file offset.toNat _ (sizeBytes_length _)⟩

theorem deserializeFile_eq (h : Seekable offset) {head rest : Bytes} {n : SizeT}
    (hdrop : file.drop offset.toNat = head ++ rest) (hhead : head = sizeBytes n) :
    sl.deserializeFile serializedSize (some file) offset =
      if maxVector < n.toNat then .threw
      else if rest.take n.toNat = [] then .failed
      else if INT_MAX < n.toNat then .undefined
      else
        match NodeProto.parseNodes
          (rest.take n.toNat ++ List.replicate (n.toNat - (rest.take n.toNat).length) 0) with
        | none => .failed
        | some nodes =>
          match sl.rebuild nodes with
          | none => .undefined
          | some (list, totalSize) => .loaded list totalSize := by
  have hlength : head.length = 8 := by rw [hhead, sizeBytes_length]
  have htake : (head ++ rest).take 8 = head := List.take_left' hlength
  have hdata : file.drop (offset.toNat + 8) = rest := by
    rw [← List.drop_drop, hdrop, List.drop_left' hlength]
  have hold : (sizeBytes serializedSize).drop head.length = [] := by
    apply List.drop_eq_nil_of_le
    rw [hlength, sizeBytes_length]
  have hsize : announced serializedSize head = n := by
    rw [announced, hold, List.append_nil, hhead, ofSizeBytes_sizeBytes]
  have hwhole : ¬head.length < 8 := by omega
  simp only [deserializeFile, if_pos h, hdrop, htake, hsize, if_neg hwhole, hdata]

theorem zeros_not_loaded (h : Seekable offset) {n : SizeT} {k : Nat} {rest : Bytes} (hk : n.toNat ≤ k)
    (hdrop : file.drop offset.toNat = sizeBytes n ++ (List.replicate k 0 ++ rest)) :
    sl.deserializeFile serializedSize (some file) offset ≠ .loaded list totalSize := by
  have htake : (List.replicate k (0 : UInt8) ++ rest).take n.toNat = List.replicate n.toNat 0 := by
    rw [List.take_append_of_le_length (by rwa [List.length_replicate]), List.take_replicate,
      Nat.min_eq_left hk]
  rw [deserializeFile_eq h hdrop rfl, htake]
  cases hn : n.toNat with
  | zero => simp
  | succ m =>
    rw [List.replicate_succ, List.cons_append, parseNodes_zero]
    split
    · exact nofun
    · split
      · exact nofun
      · split <;> exact nofun

/-- What was written is parsed as it is, if it could be written. -/
theorem deserializeFile_written (h : Seekable offset) (hne : nodes ≠ []) (hmax : listByteSize nodes ≤ INT_MAX) :
    sl.deserializeFile serializedSize (some (writeNodes nodes file offset)) offset =
      match NodeProto.parseNodes (NodeProto.serialize nodes) with
      | none => .failed
      | some nodes =>
        match sl.rebuild nodes with
        | none => .undefined
        | some (list, totalSize) => .loaded list totalSize := by
  obtain ⟨rest, hdrop⟩ := written_drop h nodes file
  rw [buffer, if_neg (not_lt.mpr hmax)] at hdrop
  have hpos := listByteSize_pos hne
  have hlength := serialize_length (node_lt hmax)
  have htake : (NodeProto.serialize nodes ++ rest).take (listByteSize nodes) = NodeProto.serialize nodes :=
    List.take_left' hlength
  have hn : (UInt64.ofNat (listByteSize nodes)).toNat = listByteSize nodes := by
    unfold INT_MAX at hmax
    rw [UInt64.toNat_ofNat']
    omega
  have hvector : ¬maxVector < listByteSize nodes := by
    unfold INT_MAX at hmax
    unfold maxVector
    omega
  have hdata : NodeProto.serialize nodes ≠ [] := by
    intro he
    rw [he, List.length_nil] at hlength
    omega
  rw [deserializeFile_eq h hdrop rfl, hn, htake, hlength, Nat.sub_self, List.replicate_zero,
    List.append_nil, if_neg hvector, if_neg hdata, if_neg (not_lt.mpr hmax)]

theorem loaded_fits
    (hload : sl.deserializeFile serializedSize (some (writeNodes nodes file offset)) offset =
      .loaded list totalSize) : Seekable offset ∧ listByteSize nodes ≤ INT_MAX := by
  by_cases h : Seekable offset
  case neg =>
    rw [deserializeFile] at hload
    simp only [if_neg h, List.length_nil, Nat.zero_lt_succ, if_true] at hload
    split at hload <;> cases hload
  refine ⟨h, ?_⟩
  by_contra hmax
  obtain ⟨rest, hdrop⟩ := written_drop h nodes file
  rw [buffer, if_pos (not_le.mp hmax)] at hdrop
  exact zeros_not_loaded h (by rw [UInt64.toNat_ofNat']; omega) hdrop hload

/-- A list loaded from where another was written is rebuilt from the nodes of that one. -/
theorem loaded_written (hne : nodes ≠ [])
    (hload : sl.deserializeFile serializedSize (some (writeNodes nodes file offset)) offset =
      .loaded list totalSize) : sl.rebuild nodes = some (list, totalSize) := by
  obtain ⟨h, hmax⟩ := loaded_fits hload
  rw [deserializeFile_written h hne hmax] at hload
  cases hparse : parseNodes (NodeProto.serialize nodes) with
  | none =>
    rw [hparse] at hload
    cases hload
  | some nodes' =>
    rw [hparse, parseNodes_written (node_lt hmax) hparse] at hload
    cases hrebuild : sl.rebuild nodes with
    | none =>
      simp only [hrebuild] at hload
      cases hload
    | some r =>
      simp only [hrebuild] at hload
      cases hload
      rfl

end Skiplist

end KVStorage

import KVStorage.Library.Regions
import KVStorage.LoadedSize
import KVStorage.ReadableBlocks

/-!
# The regions of the data file

A write changes its own region and nothing else, so a block that was written once is
read back after any writes elsewhere. What was written can be written again without
changing the file, which is how reading it follows from reading a fresh write.
-/

namespace KVStorage

set_option autoImplicit false

open Regions

/-- The first `n` bytes are zeros, as far as the file has them. -/
def Blank (file : Bytes) (n : Nat) : Prop := ∀ i c, i < n → file[i]? = some c → c = 0

section

variable {file : Bytes} {pos : Nat} {data : Bytes}

theorem writePast_length (file : Bytes) (pos : Nat) (data : Bytes) :
    (writePast file pos data).length = max file.length (pos + data.length) := by
  simp only [writePast, writeAt, List.length_append, List.length_take, List.length_drop, List.length_replicate]
  omega

theorem writePast_front {i : Nat} (hi : i < pos) : (writePast file pos data)[i]? =
    (file ++ List.replicate (pos - file.length) 0)[i]? := by
  have hle := padded_length file pos
  rw [writePast, writeAt, List.append_assoc, List.getElem?_append_left, List.getElem?_take_of_lt hi]
  rw [List.length_take_of_le hle]
  exact hi

theorem writePast_changes (file : Bytes) (pos : Nat) (data : Bytes) :
    Changes file (writePast file pos data) pos data.length := by
  intro i hi hlt
  rcases hi with hi | hi
  · rw [writePast_front hi, List.getElem?_append_left hlt]
  · obtain ⟨j, rfl⟩ := Nat.exists_eq_add_of_le hi
    have hdrop := congrArg (fun l => l[data.length + j]?) (writePast_drop file pos data)
    simp only [List.getElem?_drop] at hdrop
    rw [List.getElem?_append_right (by omega), Nat.add_sub_cancel_left, List.getElem?_drop,
      ← Nat.add_assoc] at hdrop
    exact hdrop

theorem writePast_blank {n : Nat} (h : Blank file n) (hn : n ≤ pos) : Blank (writePast file pos data) n := by
  intro i c hi hc
  rw [writePast_front (by omega)] at hc
  by_cases hlt : i < file.length
  · rw [List.getElem?_append_left hlt] at hc
    exact h i c hi hc
  · rw [List.getElem?_append_right (not_lt.mp hlt)] at hc
    exact List.eq_of_mem_replicate (List.mem_of_getElem? hc)

theorem writePast_self (h : HasAt file pos data) (hne : data ≠ []) : writePast file pos data = file := by
  have hle := h.length_le
  have hpos := List.length_pos_of_ne_nil hne
  obtain ⟨rest, hrest⟩ := h.drop_eq
  have htail : file.drop (pos + data.length) = rest := by
    rw [← List.drop_drop, hrest, List.drop_left]
  have hzeros : pos - file.length = 0 := by omega
  rw [writePast, hzeros, List.replicate_zero, List.append_nil, writeAt, htail, List.append_assoc, ← hrest,
    List.take_append_drop]

theorem writeAt_eq (h : pos ≤ file.length) : writeAt file pos data = writePast file pos data := by
  rw [writePast, Nat.sub_eq_zero_of_le h, List.replicate_zero, List.append_nil]

end

/-! ## A message with its size in front -/

/-- Both writers put the size of a message at a position and the message behind it. -/
def messageBytes (size : SizeT) (data : Bytes) : Bytes := sizeBytes size ++ data

def writeMessage (file : Bytes) (pos : Nat) (size : SizeT) (data : Bytes) : Bytes :=
  writePast (writePast file pos (sizeBytes size)) (pos + 8) data

section

variable {file : Bytes} {pos : Nat} {size : SizeT} {data : Bytes}

theorem messageBytes_length (size : SizeT) (data : Bytes) :
    (messageBytes size data).length = 8 + data.length := by
  rw [messageBytes, List.length_append, sizeBytes_length]

theorem writeMessage_hasAt (file : Bytes) (pos : Nat) (size : SizeT) (data : Bytes) :
    HasAt (writeMessage file pos size data) pos (messageBytes size data) := by
  refine ⟨file.drop (pos + 8 + data.length), ?_⟩
  rw [writeMessage, writePast_writePast file pos data (sizeBytes_length size), messageBytes, List.append_assoc]

theorem writeMessage_changes (file : Bytes) (pos : Nat) (size : SizeT) (data : Bytes) :
    Changes file (writeMessage file pos size data) pos (messageBytes size data).length := by
  have hsize := writePast_changes file pos (sizeBytes size)
  have hdata := writePast_changes (writePast file pos (sizeBytes size)) (pos + 8) data
  rw [sizeBytes_length] at hsize
  rw [messageBytes_length]
  apply (hsize.mono le_rfl ?_).trans (hdata.mono ?_ ?_)
  · omega
  · omega
  · omega

theorem writeMessage_self (h : HasAt file pos (messageBytes size data)) (hne : data ≠ []) :
    writeMessage file pos size data = file := by
  have hsize : sizeBytes size ≠ [] := by
    apply List.ne_nil_of_length_pos
    rw [sizeBytes_length]
    omega
  have hdata := h.right
  rw [sizeBytes_length] at hdata
  rw [writeMessage, writePast_self h.left hsize, writePast_self hdata hne]

theorem writeMessage_blank {n : Nat} (h : Blank file n) (hn : n ≤ pos) :
    Blank (writeMessage file pos size data) n :=
  writePast_blank (writePast_blank h hn) (by omega)

theorem writeMessage_length (file : Bytes) (pos : Nat) (size : SizeT) (data : Bytes) :
    (writeMessage file pos size data).length = max file.length (pos + (messageBytes size data).length) := by
  rw [writeMessage, writePast_length, writePast_length, sizeBytes_length, messageBytes_length]
  omega

end

theorem NodeProto.writeNodes_eq {offset : SizeT} (h : Seekable offset) (nodes : List NodeProto) (file : Bytes) :
    writeNodes nodes file offset =
      writeMessage file offset.toNat (UInt64.ofNat (listByteSize nodes)) (buffer nodes) := if_pos h

theorem FileInfo.writeImage_eq (order : List (Int32 × SizeT)) (file : Bytes) (info : InfoProto) :
    writeImage order file (some info) =
      writeMessage file 0 (UInt64.ofNat info.byteSizeLong) (info.serialize order) := by
  have hlength := length_writePast file 0 (sizeBytes (UInt64.ofNat info.byteSizeLong))
  rw [sizeBytes_length] at hlength
  rw [writeImage, writeAt_eq (Nat.zero_le _), writeAt_eq (by omega), writeMessage, Nat.zero_add]

/-! ## Blocks that stay in their place -/

/-- What a flush can write so that the block ends before the next one and is read back. -/
structure Contents.Placeable (m : Contents) : Prop where
  fits : worstBytes m ≤ BLOCK_SIZE.toNat
  readable : m.Readable
  noHead : m.lookup (-1) = none
  noNull : m.lookup (-2) = none

instance decidablePlaceable (m : Contents) : Decidable m.Placeable :=
  decidable_of_iff (worstBytes m ≤ BLOCK_SIZE.toNat ∧ m.Readable ∧ m.lookup (-1) = none ∧ m.lookup (-2) = none)
    ⟨fun h => ⟨h.1, h.2.1, h.2.2.1, h.2.2.2⟩, fun h => ⟨h.fits, h.readable, h.noHead, h.noNull⟩⟩

/-- The offset of a block in the file. -/
def blockStart (block : SizeT) : Nat := block.toNat * BLOCK_SIZE.toNat

theorem blockStart_eq {block : SizeT} (h : block.toNat < NUM_BLOCKS) :
    (block * CACHE_SIZE).toNat = blockStart block ∧ Seekable (block * CACHE_SIZE) := by
  have hlt : block.toNat < 16 := h
  have hstart : (block * CACHE_SIZE).toNat = block.toNat * 67108864 := by
    rw [UInt64.toNat_mul, cacheSize_toNat]
    omega
  refine ⟨hstart.trans (by rw [blockStart, blockSize_toNat]), ?_⟩
  unfold Seekable
  omega

namespace ValidList

/-- The message `serialize` builds. -/
def nodes (l : ValidList) : List NodeProto := l.list.toProto.get l.toProto_isSome

/-- The bytes of a block with the list. -/
def blockBytes (l : ValidList) : Bytes :=
  messageBytes (UInt64.ofNat l.serializedSize) (NodeProto.serialize l.nodes)

variable {l : ValidList} {file : Bytes} {block : SizeT}

theorem nodes_eq (l : ValidList) : l.list.toProto = some l.nodes := (Option.some_get l.toProto_isSome).symm

theorem nodes_ne_nil (l : ValidList) : l.nodes ≠ [] := by
  obtain ⟨ts, h⟩ := l.holds
  have hproto := l.nodes_eq
  rw [h.represents.toProto, Option.some.injEq] at hproto
  rw [← hproto]
  exact List.cons_ne_nil _ _

theorem serializedSize_lt (h : l.contents.Placeable) : l.serializedSize + 8 ≤ 67108864 := by
  have hworst := l.serializedSize_le
  have hfits := h.fits
  rw [blockSize_toNat] at hfits
  omega

theorem serializedSize_pos (l : ValidList) : 0 < l.serializedSize := NodeProto.listByteSize_pos l.nodes_ne_nil

theorem node_le (h : l.contents.Placeable) : ∀ r ∈ l.nodes, r.byteSizeLong ≤ Wire.maxSize := by
  intro r hr
  have hle : r.byteSizeLong ≤ l.serializedSize := NodeProto.node_le_list hr
  have hlt := serializedSize_lt h
  unfold Wire.maxSize
  omega

theorem serialize_nodes_length (h : l.contents.Placeable) :
    (NodeProto.serialize l.nodes).length = l.serializedSize :=
  NodeProto.serialize_length fun r hr => Wire.lt_of_le_maxSize (node_le h r hr)

theorem serialize_nodes_ne_nil (h : l.contents.Placeable) : NodeProto.serialize l.nodes ≠ [] := by
  apply List.ne_nil_of_length_pos
  rw [serialize_nodes_length h]
  exact l.serializedSize_pos

/-- The bytes end before those of the next block. -/
theorem blockBytes_length (h : l.contents.Placeable) : l.blockBytes.length ≤ BLOCK_SIZE.toNat := by
  have hlt := serializedSize_lt h
  rw [blockBytes, messageBytes_length, serialize_nodes_length h, blockSize_toNat]
  omega

theorem fits_int (h : l.contents.Placeable) : NodeProto.listByteSize l.nodes ≤ INT_MAX := by
  have hlt := serializedSize_lt h
  have hsize : l.serializedSize = NodeProto.listByteSize l.nodes := rfl
  unfold INT_MAX
  omega

theorem writeNodes_message (h : l.contents.Placeable) (hblock : block.toNat < NUM_BLOCKS) (file : Bytes) :
    NodeProto.writeNodes l.nodes file (block * CACHE_SIZE) =
      writeMessage file (blockStart block) (UInt64.ofNat l.serializedSize) (NodeProto.serialize l.nodes) := by
  obtain ⟨hstart, hseek⟩ := blockStart_eq hblock
  rw [NodeProto.writeNodes_eq hseek, hstart, NodeProto.buffer, if_neg (not_lt.mpr (fits_int h))]
  rfl

theorem serialize_message (h : l.contents.Placeable) (hblock : block.toNat < NUM_BLOCKS) (file : Bytes) :
    l.serialize (some file) (block * CACHE_SIZE) =
      some (writeMessage file (blockStart block) (UInt64.ofNat l.serializedSize) (NodeProto.serialize l.nodes)) :=
  congrArg some (writeNodes_message h hblock file)

theorem accepted_nodes (h : l.contents.Placeable) : l.nodes.all (fun r => ValidUtf8 r.value) = true := by
  obtain ⟨nodes, hproto, hparse⟩ := l.accepted_iff.mpr h.readable
  rw [l.nodes_eq, Option.some.injEq] at hproto
  subst hproto
  rw [List.all_eq_true]
  intro r hr
  rw [decide_eq_true_iff]
  exact parseFromArray_eq_some_iff.mp hparse r hr

theorem createNodes_total (rs : List NodeProto) (sl : Skiplist) (nm : Skiplist.NodeMap) (size : SizeT) :
    (Skiplist.createNodes rs sl nm size).2.2 = (rs.map (·.value)).foldl (fun size value => size +
      Skiplist.nodeSize (CppString.empty.assign (CppString.ofBytes value)).capacity) size := by
  induction rs generalizing sl nm size with
  | nil => rfl
  | cons r rs ih => rw [Skiplist.createNodes, ih, List.map_cons, List.foldl_cons]

/-- The list is rebuilt with its entries, and with the size of the stored map. -/
theorem rebuild_stored (h : l.contents.Placeable) (target : ValidList) :
    ∃ sl, target.list.rebuild l.nodes = some (sl, Cache.loadedSize l.stored) ∧
      sl.Holds (ValidList.load l.stored).contents := by
  obtain ⟨nodes, sl, size, hproto, hrebuild, hholds⟩ := l.stored_survives h.noHead h.noNull target
  rw [l.nodes_eq, Option.some.injEq] at hproto
  subst hproto
  obtain ⟨ts, hts⟩ := l.holds
  obtain ⟨nodes, hproto, hvalues⟩ := hts.toProto_values
  rw [l.nodes_eq, Option.some.injEq] at hproto
  subst hproto
  have hcontents : (ValidList.load l.stored).contents = l.stored.mapValues CppString.ofBytes := by
    apply SortedMap.ext_lookup
    intro k
    rw [load_contents_lookup, SortedMap.lookup_mapValues]
  have hsize : size = Cache.loadedSize l.stored := by
    simp only [Skiplist.rebuild, Option.bind_eq_bind, Option.bind_eq_some_iff, Option.some.injEq,
      Prod.mk.injEq] at hrebuild
    obtain ⟨cleared, _, heap, _, _, _, _, htotal⟩ := hrebuild
    have hstored : l.stored.entries.map Prod.snd = l.contents.entries.map fun e => e.2.data := List.map_map
    rw [← htotal, createNodes_total, hvalues, Cache.loadedSize, hstored]
  subst hsize
  rw [hcontents]
  exact ⟨sl, hrebuild, hholds⟩

/-- Wherever the bytes of the list are found, `deserialize` reads the list. -/
theorem deserializeFile_block (h : l.contents.Placeable) (hblock : block.toNat < NUM_BLOCKS)
    (hat : HasAt file (blockStart block) l.blockBytes) (target : ValidList) (serializedSize : SizeT) :
    ∃ sl, target.list.deserializeFile serializedSize (some file) (block * CACHE_SIZE) =
        .loaded sl (Cache.loadedSize l.stored) ∧ sl.Holds (ValidList.load l.stored).contents := by
  obtain ⟨sl, hrebuild, hholds⟩ := rebuild_stored h target
  refine ⟨sl, ?_, hholds⟩
  -- the file is what writing the list once more would make of it
  have hself : NodeProto.writeNodes l.nodes file (block * CACHE_SIZE) = file := by
    rw [writeNodes_message h hblock, writeMessage_self hat (serialize_nodes_ne_nil h)]
  have hwritten : target.list.deserializeFile serializedSize (some (NodeProto.writeNodes l.nodes file
      (block * CACHE_SIZE))) (block * CACHE_SIZE) = _ :=
    Skiplist.deserializeFile_written (blockStart_eq hblock).2 l.nodes_ne_nil (fits_int h)
  rw [hself, NodeProto.parseNodes_serialize (node_le h), if_pos (accepted_nodes h)] at hwritten
  simp only [hwritten, hrebuild]

end ValidList

end KVStorage

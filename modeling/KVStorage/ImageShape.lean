import KVStorage.BlockFile

/-!
# Which images of block 0 are taken

`readFromBlock0` parses as many bytes as it could read and fills the tables with as many
entries as it finds: which files it takes, and what becomes of an image that was cut.
-/

namespace KVStorage

set_option autoImplicit false

open Wire

namespace FileInfo

/-- The size of the message, after the read over the old one. -/
def imageSize (serializedSize : SizeT) (file : Bytes) : SizeT := announced serializedSize (file.take 8)

/-- The bytes that are parsed: none where the size could not be read whole. -/
def payload (serializedSize : SizeT) (file : Bytes) : Bytes :=
  if (file.take 8).length < 8 then [] else (file.drop 8).take (imageSize serializedSize file).toNat

/-- `readFromBlock0` where a buffer of more than `available` bytes is a `bad_alloc`. -/
def readWithin (available : Nat) (fi : FileInfo) (serializedSize : SizeT) : Option Bytes → ReadResult
  | none => fi.readFile serializedSize none
  | some file =>
    if available < (imageSize serializedSize file).toNat then .threw
    else fi.readFile serializedSize (some file)

/-- All bytes announced, and an entry for every block in both tables. -/
structure Complete (size : SizeT) (data : Bytes) (info : InfoProto) : Prop where
  whole : data.length = size.toNat
  usage : info.blockUsageTable.length = NUM_BLOCKS
  index : info.blockIndexTables.length = NUM_BLOCKS

/-- Nothing is thrown, a refused file leaves the tables alone, and only a complete image is taken. -/
structure Screened (fi : FileInfo) (size : SizeT) (data : Bytes) (result : ReadResult) : Prop where
  returns : result ≠ .threw ∧ result ≠ .undefined
  refused : ∀ fi', result = .returned fi' false → fi' = fi
  taken : ∀ fi', result = .returned fi' true → ∃ info, InfoProto.parseFromArray data = some info ∧
    Complete size data info ∧ fi.readFromBlock0 info = some fi'

def ScreensFile (available : Nat) (fi : FileInfo) (serializedSize : SizeT) (file : Option Bytes) : Prop :=
  Screened fi (imageSize serializedSize (file.getD [])) (payload serializedSize (file.getD []))
    (fi.readWithin available serializedSize file)

/-- The announced size can be allocated, and what is parsed is empty or no message or complete. -/
structure Screenable (available : Nat) (serializedSize : SizeT) (file : Bytes) : Prop where
  allocated : (imageSize serializedSize file).toNat ≤ min available maxVector
  small : (payload serializedSize file).length ≤ INT_MAX
  complete : payload serializedSize file ≠ [] →
    ∀ info, InfoProto.parseFromArray (payload serializedSize file) = some info →
      Complete (imageSize serializedSize file) (payload serializedSize file) info

variable {fi fi' : FileInfo} {available : Nat} {size serializedSize : SizeT} {file data : Bytes} {info : InfoProto}

/-- `readFromBlock0` once the size is known and the buffer is there. -/
def readPayload (fi : FileInfo) (data : Bytes) : ReadResult :=
  if data = [] then .returned fi false
  else if INT_MAX < data.length then .undefined
  else
    match InfoProto.parseFromArray data with
    | none => .returned fi false
    | some info =>
      match fi.readFromBlock0 info with
      | none => .undefined
      | some fi' => .returned fi' true

theorem readWithin_eq : fi.readWithin available serializedSize (some file) =
    if (imageSize serializedSize file).toNat ≤ min available maxVector then
      fi.readPayload (payload serializedSize file)
    else .threw := by
  rw [readWithin]
  by_cases ha : available < (imageSize serializedSize file).toNat
  · rw [if_pos ha, if_neg fun h => absurd (h.trans (min_le_left _ _)) (not_le.mpr ha)]
  · rw [if_neg ha]
    by_cases hm : maxVector < (imageSize serializedSize file).toNat
    · rw [if_neg fun h => absurd (h.trans (min_le_right _ _)) (not_le.mpr hm)]
      exact if_pos hm
    · rw [if_pos (le_min (not_lt.mp ha) (not_lt.mp hm))]
      exact if_neg hm

theorem readFromBlock0_complete (h : Complete size data info) : ∃ fi', fi.readFromBlock0 info = some fi' := by
  obtain ⟨usage, husage, _⟩ := fillTable_eq info.blockUsageTable 0 fi.blockUsageTable (by rw [h.usage, Nat.zero_add])
  obtain ⟨index, hindex, _⟩ := fillTable_eq info.blockIndexTables 0 fi.blockIndexTable (by rw [h.index, Nat.zero_add])
  exact ⟨_, by rw [readFromBlock0, husage, hindex]; rfl⟩

theorem screened_refused : Screened fi size data (.returned fi false) := by
  refine ⟨⟨nofun, nofun⟩, ?_, fun _ => nofun⟩
  intro fi' h
  cases h
  rfl

theorem screened_taken : Screened fi size data (.returned fi' true) ↔
    ∃ info, InfoProto.parseFromArray data = some info ∧ Complete size data info ∧
      fi.readFromBlock0 info = some fi' := by
  constructor
  · exact fun h => h.taken fi' rfl
  · intro h
    refine ⟨⟨nofun, nofun⟩, fun _ => nofun, ?_⟩
    intro fi₁ he
    cases he
    exact h

theorem screened_readPayload : Screened fi size data (fi.readPayload data) ↔
    data.length ≤ INT_MAX ∧
      (data ≠ [] → ∀ info, InfoProto.parseFromArray data = some info → Complete size data info) := by
  rw [readPayload]
  by_cases hempty : data = []
  · rw [if_pos hempty]
    exact ⟨fun _ => ⟨by rw [hempty]; exact Nat.zero_le _, fun hne => absurd hempty hne⟩, fun _ => screened_refused⟩
  rw [if_neg hempty]
  by_cases hint : INT_MAX < data.length
  · rw [if_pos hint]
    exact ⟨fun h => absurd rfl h.returns.2, fun h => absurd hint (not_lt.mpr h.1)⟩
  rw [if_neg hint]
  cases hparse : InfoProto.parseFromArray data with
  | none => exact ⟨fun _ => ⟨not_lt.mp hint, fun _ => nofun⟩, fun _ => screened_refused⟩
  | some info =>
    constructor
    · intro h
      refine ⟨not_lt.mp hint, fun _ info' hinfo' => ?_⟩
      cases hinfo'
      cases hread : fi.readFromBlock0 info with
      | none =>
        simp only [hread] at h
        exact absurd rfl h.returns.2
      | some fi' =>
        simp only [hread] at h
        obtain ⟨info', hinfo', hcomplete, _⟩ := screened_taken.mp h
        rw [hparse] at hinfo'
        cases hinfo'
        exact hcomplete
    · rintro ⟨_, h⟩
      have hcomplete := h hempty info rfl
      obtain ⟨fi', hread⟩ := fi.readFromBlock0_complete hcomplete
      simp only [hread]
      exact screened_taken.mpr ⟨info, hparse, hcomplete, hread⟩

theorem screensFile_some :
    ScreensFile available fi serializedSize (some file) ↔ Screenable available serializedSize file := by
  rw [ScreensFile, Option.getD_some, readWithin_eq]
  by_cases ha : (imageSize serializedSize file).toNat ≤ min available maxVector
  · rw [if_pos ha, screened_readPayload]
    exact ⟨fun h => ⟨ha, h.1, h.2⟩, fun h => ⟨h.small, h.complete⟩⟩
  · rw [if_neg ha]
    exact ⟨fun h => absurd rfl h.returns.1, fun h => absurd h.allocated ha⟩

/-- Exactly the files that are screened, for every state of the tables and every old size. -/
theorem screensFile_iff (available : Nat) (fi : FileInfo) (serializedSize : SizeT) (file : Option Bytes) :
    ScreensFile available fi serializedSize file ↔
      ∀ bytes, file = some bytes → Screenable available serializedSize bytes := by
  cases file with
  | none => exact ⟨fun _ _ => nofun, fun _ => screened_refused⟩
  | some bytes =>
    rw [screensFile_some]
    constructor
    · intro h file hfile
      cases hfile
      exact h
    · intro h
      exact h bytes rfl

/-! ## Images that were cut -/

theorem imageSize_written (size : SizeT) (data : Bytes) : imageSize serializedSize (sizeBytes size ++ data) = size := by
  have hold : (sizeBytes serializedSize).drop (sizeBytes size).length = [] := by
    apply List.drop_eq_nil_of_le
    rw [sizeBytes_length, sizeBytes_length]
  rw [imageSize, List.take_left' (sizeBytes_length size), announced, hold, List.append_nil, ofSizeBytes_sizeBytes]

theorem payload_written (hlength : data.length ≤ size.toNat) :
    payload serializedSize (sizeBytes size ++ data) = data := by
  have hwhole : ¬(sizeBytes size).length < 8 := by rw [sizeBytes_length]; omega
  rw [payload, imageSize_written, List.take_left' (sizeBytes_length size), if_neg hwhole,
    List.drop_left' (sizeBytes_length size), List.take_of_length_le hlength]

section Cut

variable {order : List (Int32 × SizeT)} (horder : order.Perm info.keyBlockMap.entries)
  (hsize : info.byteSizeLong + 8 ≤ 67108864)
include hsize

theorem announced_written : (UInt64.ofNat info.byteSizeLong).toNat = info.byteSizeLong := by
  rw [UInt64.toNat_ofNat']
  omega

include horder

theorem front_short {front back : List Field} (hcut : info.fields order = front ++ back) (hback : back ≠ []) :
    (encode front).length < info.byteSizeLong := by
  have hmax : info.byteSizeLong ≤ maxSize := by
    unfold maxSize
    omega
  have hlength := InfoProto.serialize_length horder hmax
  rw [InfoProto.serialize, hcut, encode_append, List.length_append] at hlength
  have hpos := (List.length_pos_iff.mpr hback).trans_le (length_le_encode back)
  omega

variable (hname : ValidUtf8 info.superBlock.fileName) (htime : ValidUtf8 info.superBlock.createTime)
include hname htime

/-- The fields up to a cut are merged as in the whole message. -/
theorem parse_front {front back : List Field} (hcut : info.fields order = front ++ back) :
    ∃ cut, InfoProto.parseFromArray (encode front) = some cut := by
  have hmax : info.byteSizeLong ≤ maxSize := by
    unfold maxSize
    omega
  have hfits := (info.fields_numbered order).fits ((InfoProto.serialize_length horder hmax).trans_le hmax)
  have hparse := InfoProto.parseFromArray_serialize horder hmax hname htime
  rw [InfoProto.parseFromArray, InfoProto.serialize, parse_encode _ hfits, hcut, List.foldlM_append,
    Option.bind_eq_bind] at hparse
  obtain ⟨cut, hmerged, _⟩ := Option.bind_eq_some_iff.mp hparse
  refine ⟨cut, ?_⟩
  rw [InfoProto.parseFromArray, parse_encode _ fun f hf => hfits f (by rw [hcut]; exact List.mem_append_left _ hf)]
  exact hmerged

/-- An image that ends behind one of its fields, but not the last, is a message all the same. -/
theorem cut_image_taken {front back : List Field} (hcut : info.fields order = front ++ back) (hfront : front ≠ [])
    (hback : back ≠ []) (available : Nat) (fi : FileInfo) (serializedSize : SizeT) :
    ¬ScreensFile available fi serializedSize
      (some (sizeBytes (UInt64.ofNat info.byteSizeLong) ++ encode front)) := by
  have hnat := announced_written hsize
  have hshort := front_short horder hsize hcut hback
  obtain ⟨cut, hparsed⟩ := parse_front horder hsize hname htime hcut
  have hpayload : payload serializedSize (sizeBytes (UInt64.ofNat info.byteSizeLong) ++ encode front) =
      encode front := by
    apply payload_written
    omega
  have hne : encode front ≠ [] := by
    intro he
    have hpos := (List.length_pos_iff.mpr hfront).trans_le (length_le_encode front)
    rw [he] at hpos
    exact absurd hpos (lt_irrefl 0)
  intro h
  have hcomplete := (screensFile_some.mp h).complete
  rw [hpayload, imageSize_written] at hcomplete
  have hwhole := (hcomplete hne cut hparsed).whole
  omega

/-- Cut behind the key map, it is read back with the usage table of the reader. -/
theorem cut_behind_map {fi₀ : FileInfo} (hinfo : info = fi.toProto) (hempty : fi₀.keyBlockMap = SortedMap.empty)
    (havailable : 67108864 ≤ available) (serializedSize : SizeT) :
    fi₀.readWithin available serializedSize
        (some (sizeBytes (UInt64.ofNat info.byteSizeLong) ++
          InfoProto.serialize { info with blockUsageTable := [] } order)) =
      .returned { fi with blockUsageTable := fi₀.blockUsageTable } true := by
  have hnat := announced_written hsize
  have hle : InfoProto.byteSizeLong { info with blockUsageTable := [] } ≤ info.byteSizeLong := by
    simp only [InfoProto.byteSizeLong, if_true]
    omega
  have hmax : InfoProto.byteSizeLong { info with blockUsageTable := [] } ≤ maxSize := by
    unfold maxSize
    omega
  have hlength : (InfoProto.serialize { info with blockUsageTable := [] } order).length =
      InfoProto.byteSizeLong { info with blockUsageTable := [] } := InfoProto.serialize_length horder hmax
  have hparse : InfoProto.parseFromArray (InfoProto.serialize { info with blockUsageTable := [] } order) =
      some { info with blockUsageTable := [] } := InfoProto.parseFromArray_serialize horder hmax hname htime
  have hread : fi₀.readFromBlock0 { info with blockUsageTable := [] } =
      some { fi with blockUsageTable := fi₀.blockUsageTable } := by
    subst hinfo
    simp only [readFromBlock0, toProto, fillTable, fillTable_table, hempty, SortedMap.insertAll_entries,
      Option.bind_eq_bind, Option.bind_some]
  generalize InfoProto.serialize { info with blockUsageTable := [] } order = data at hlength hparse ⊢
  have hfits : info.byteSizeLong ≤ min available maxVector := by
    unfold maxVector
    omega
  have hpayload : payload serializedSize (sizeBytes (UInt64.ofNat info.byteSizeLong) ++ data) = data := by
    apply payload_written
    omega
  have hdata : data ≠ [] := by
    rintro rfl
    rw [List.length_nil] at hlength
    unfold InfoProto.byteSizeLong at hlength
    omega
  have hint : ¬INT_MAX < data.length := by
    unfold INT_MAX
    omega
  rw [readWithin_eq, imageSize_written, hnat, if_pos hfits, hpayload, readPayload, if_neg hdata, if_neg hint]
  simp only [hparse, hread]

end Cut

/-- Key 5 in block 1. -/
def oneKey : FileInfo := (new WriteSide.epoch).applyAll [.getFreeBlock, .addKeyBlockMapping 5 1]

/-- The image of `oneKey`, with the size of the whole and without its last field. -/
def oneKeyCut : Bytes :=
  sizeBytes (UInt64.ofNat oneKey.writeToBlock0.1.toProto.byteSizeLong) ++
    InfoProto.serialize { oneKey.writeToBlock0.1.toProto with blockUsageTable := [] } [(5, 1)]

/-- It is taken, and block 1 is free again although key 5 is mapped to it. With a stale size the file
that `main` creates is no better. -/
theorem cut_image_frees_block :
    ¬ScreensFile 67108864 (new WriteSide.epoch) 0 (some oneKeyCut) ∧
      (∃ fi', (new WriteSide.epoch).readWithin 67108864 0 (some oneKeyCut) = .returned fi' true ∧
        fi'.keyBlockMap.lookup 5 = some 1 ∧ ¬fi'.Used 1) ∧
      (new WriteSide.epoch).readWithin 67108864 9223372036854775808 (some []) = .threw := by
  have hsome : oneKey.writeToBlock0.2.isSome := by decide +kernel
  obtain ⟨info, hinfo⟩ := Option.isSome_iff_exists.mp hsome
  have hsuper : oneKey.superBlock = (new WriteSide.epoch).superBlock := rfl
  have hsize := writeToBlock0_passes hsuper (by decide) hinfo
  rw [writeToBlock0_image hinfo] at hsize
  have hname : ValidUtf8 oneKey.writeToBlock0.1.toProto.superBlock.fileName := validUtf8_path
  have htime : ValidUtf8 oneKey.writeToBlock0.1.toProto.superBlock.createTime := by decide
  have horder : [((5 : Int32), (1 : SizeT))].Perm oneKey.writeToBlock0.1.toProto.keyBlockMap.entries := by decide
  refine ⟨?_, ⟨_, cut_behind_map horder hsize hname htime rfl rfl le_rfl 0, rfl, by decide⟩, rfl⟩
  exact cut_image_taken horder hsize hname htime rfl (by decide) (by decide) _ _ 0

end FileInfo

end KVStorage

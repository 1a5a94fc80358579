import KVStorage.IndexSize
import KVStorage.InfoCodec

/-!
# Block 0 as bytes

The file as the streams of `writeToBlock0` and `readFromBlock0` see it: eight bytes with
the size of the message, the message, and after it whatever was there before.
-/

namespace KVStorage

set_option autoImplicit false

/-- `seekp` and `write` at a position in the file or at its end. -/
def writeAt (file : Bytes) (pos : Nat) (data : Bytes) : Bytes :=
  file.take pos ++ data ++ file.drop (pos + data.length)

def littleEndian : Nat → Nat → Bytes
  | 0, _ => []
  | k + 1, n => UInt8.ofNat n :: littleEndian k (n / 256)

/-- The bytes of a `size_t` in memory. -/
def sizeBytes (n : SizeT) : Bytes := littleEndian 8 n.toNat

def ofLittleEndian : Bytes → Nat
  | [] => 0
  | b :: bs => b.toNat + 256 * ofLittleEndian bs

def ofSizeBytes (bs : Bytes) : SizeT := UInt64.ofNat (ofLittleEndian bs)

theorem littleEndian_length (k n : Nat) : (littleEndian k n).length = k := by
  induction k generalizing n with
  | zero => rfl
  | succ k ih => rw [littleEndian, List.length_cons, ih]

@[simp] theorem sizeBytes_length (n : SizeT) : (sizeBytes n).length = 8 := littleEndian_length 8 n.toNat

theorem ofLittleEndian_littleEndian {k n : Nat} (h : n < 256 ^ k) :
    ofLittleEndian (littleEndian k n) = n := by
  induction k generalizing n with
  | zero =>
    rw [littleEndian, ofLittleEndian]
    omega
  | succ k ih =>
    have hdiv : n / 256 < 256 ^ k := by
      rw [Nat.pow_succ] at h
      exact Nat.div_lt_of_lt_mul (by omega)
    rw [littleEndian, ofLittleEndian, ih hdiv, UInt8.toNat_ofNat']
    omega

theorem ofSizeBytes_sizeBytes (n : SizeT) : ofSizeBytes (sizeBytes n) = n := by
  have hlt := n.toNat_lt
  rw [ofSizeBytes, sizeBytes, ofLittleEndian_littleEndian (by omega), UInt64.ofNat_toNat]

theorem writeAt_writeAt {file head data : Bytes} {n : Nat} (hn : head.length = n) :
    writeAt (writeAt file 0 head) n data = head ++ (data ++ (file.drop n).drop data.length) := by
  subst hn
  simp [writeAt]

/-- `max_size` of a `vector<char>`; a larger size throws `length_error`. -/
def maxVector : Nat := 9223372036854775807

/-- `ParseFromArray` takes its size as an `int`. -/
def INT_MAX : Nat := 2147483647

inductive ReadResult where
  | returned (fi : FileInfo) (ok : Bool)
  | threw
  /-- The size does not fit in an `int`, or a table is written past its end. -/
  | undefined

namespace FileInfo

/-- The two writes, unless the size check refused the message. The message gives the
entries of the map in `order`. -/
def writeImage (order : List (Int32 × SizeT)) (file : Bytes) : Option InfoProto → Bytes
  | none => file
  | some info =>
    writeAt (writeAt file 0 (sizeBytes (UInt64.ofNat info.byteSizeLong))) 8 (info.serialize order)

/-- `writeToBlock0`; the file is there if the stream opens it. -/
def writeFile (fi : FileInfo) (order : List (Int32 × SizeT)) : Option Bytes → FileInfo × Option Bytes
  | none => (fi, none)
  | some file => (fi.writeToBlock0.1, some (writeImage order file fi.writeToBlock0.2))

/-- `readFromBlock0`. A read that ends early leaves the upper bytes of `serializedSize`
as they were and the stream failed, so that the second read gives nothing. -/
def readFile (fi : FileInfo) (serializedSize : SizeT) : Option Bytes → ReadResult
  | none => .returned fi false
  | some file =>
    let head := file.take 8
    let size := ofSizeBytes (head ++ (sizeBytes serializedSize).drop head.length)
    if maxVector < size.toNat then .threw
    else
      let data := if head.length < 8 then [] else (file.drop 8).take size.toNat
      if data = [] then .returned fi false
      else if INT_MAX < data.length then .undefined
      else
        match InfoProto.parseFromArray data with
        | none => .returned fi false
        | some info =>
          match fi.readFromBlock0 info with
          | none => .undefined
          | some fi' => .returned fi' true

end FileInfo

/-- The calls that change the tables of a running program. -/
inductive InfoOp where
  | getFreeBlock
  | addKeyBlockMapping (key : Int32) (blockNumber : SizeT)
  | delKeyBlockMapping (key : Int32)
  | updateBlockInfo (blockNumber freeSpace : SizeT)

namespace FileInfo

def apply (fi : FileInfo) : InfoOp → FileInfo
  | .getFreeBlock => fi.getFreeBlock.1
  | .addKeyBlockMapping key blockNumber => fi.addKeyBlockMapping key blockNumber
  | .delKeyBlockMapping key => (fi.delKeyBlockMapping key).1
  | .updateBlockInfo blockNumber freeSpace => fi.updateBlockInfo blockNumber freeSpace

def applyAll (fi : FileInfo) (ops : List InfoOp) : FileInfo := ops.foldl apply fi

theorem apply_superBlock (fi : FileInfo) (op : InfoOp) : (fi.apply op).superBlock = fi.superBlock := by
  cases op with
  | getFreeBlock =>
    simp only [apply, getFreeBlock]
    split <;> rfl
  | addKeyBlockMapping key blockNumber =>
    simp only [apply, addKeyBlockMapping]
    split <;> rfl
  | delKeyBlockMapping key =>
    simp only [apply, delKeyBlockMapping]
    split <;> rfl
  | updateBlockInfo blockNumber freeSpace =>
    simp only [apply, updateBlockInfo]
    split <;> rfl

theorem applyAll_superBlock (fi : FileInfo) (ops : List InfoOp) :
    (fi.applyAll ops).superBlock = fi.superBlock := by
  induction ops generalizing fi with
  | nil => rfl
  | cons op ops ih => exact (ih _).trans (fi.apply_superBlock op)

theorem keyBlock_le (e : Int32 × SizeT) : 1 + InfoProto.keyBlockSize e.1 e.2 ≤ 24 := by
  have h₁ := WireSize.int32_le e.1
  have h₂ := WireSize.uint64_le e.2
  rw [InfoProto.keyBlockSize, WireSize.delimited_small (by omega)]
  omega

theorem keyBlocks_le (m : SortedMap Int32 SizeT) :
    (m.entries.map fun e => 1 + InfoProto.keyBlockSize e.1 e.2).sum ≤ 24 * 4294967296 := by
  have hle := List.sum_le_card_nsmul (m.entries.map fun e => 1 + InfoProto.keyBlockSize e.1 e.2) 24 (by
    intro n hn
    obtain ⟨e, _, rfl⟩ := List.mem_map.mp hn
    exact keyBlock_le e)
  have hkeys := keys_length_le m
  have hmul : (m.entries.map fun e => 1 + InfoProto.keyBlockSize e.1 e.2).length • 24 =
      m.entries.length * 24 := by
    rw [List.length_map]
    rfl
  rw [SortedMap.keys, List.length_map] at hkeys
  omega

theorem superBlockSize_lt {time : Bytes} (hlen : time.length < 4611686018427387904) :
    InfoProto.superBlockSize (new time).superBlock ≤ time.length + 34 := by
  have hvarint := WireSize.varint_le (n := time.length) (d := 10) (by omega) (by omega)
  rw [superBlockSize_new]
  unfold WireSize.delimited
  split <;> omega

theorem byteSizeLong_lt {fi : FileInfo} {time : Bytes} (hs : fi.superBlock = (new time).superBlock)
    (hlen : time.length < 4611686018427387904) : fi.toProto.byteSizeLong < 18446744073709551600 := by
  have hindex := fi.indexTables_le
  have hkeys := keyBlocks_le fi.keyBlockMap
  have husage := fi.usageTable_length
  have hsuper := superBlockSize_lt hlen
  rw [← hs] at hsuper
  have hvarint := WireSize.varint_le (n := InfoProto.superBlockSize fi.superBlock) (d := 10) (by omega) (by omega)
  have hmap : fi.toProto.keyBlockMap = fi.keyBlockMap := rfl
  have hsb : fi.toProto.superBlock = fi.superBlock := rfl
  have hflags : WireSize.delimited 16 = 17 := WireSize.delimited_small (by omega)
  rw [InfoProto.byteSizeLong, hmap, hsb, husage, hflags]
  unfold WireSize.delimited at hindex ⊢
  split <;> omega

/-- The image that is written is that of the tables it leaves behind, and fits in block 0. -/
theorem writeToBlock0_passes {fi : FileInfo} {time : Bytes} (hs : fi.superBlock = (new time).superBlock)
    (hlen : time.length < 4611686018427387904) {info : InfoProto} (h : fi.writeToBlock0.2 = some info) :
    info.byteSizeLong + 8 ≤ 67108864 := by
  have hlt : fi.writeToBlock0.1.toProto.byteSizeLong < 18446744073709551600 := byteSizeLong_lt hs hlen
  have hsome : fi.writeToBlock0.2.isSome := by rw [h, Option.isSome_some]
  have hpasses := (writeToBlock0_isSome_iff (by omega)).mp hsome
  rwa [← writeToBlock0_image h, blockSize_toNat] at hpasses

theorem readFile_written {info : InfoProto} {order : List (Int32 × SizeT)} {file : Bytes}
    (horder : order.Perm info.keyBlockMap.entries) (hsize : info.byteSizeLong + 8 ≤ 67108864)
    (hname : ValidUtf8 info.superBlock.fileName) (htime : ValidUtf8 info.superBlock.createTime)
    {fi fi' : FileInfo} (hfi : fi.readFromBlock0 info = some fi') (old : SizeT) :
    fi.readFile old (some (writeImage order file (some info))) = .returned fi' true := by
  have hmax : info.byteSizeLong ≤ Wire.maxSize := by
    unfold Wire.maxSize
    omega
  have hlength := InfoProto.serialize_length horder hmax
  have hparse := InfoProto.parseFromArray_serialize horder hmax hname htime
  have hnat : (UInt64.ofNat info.byteSizeLong).toNat = info.byteSizeLong := by
    rw [UInt64.toNat_ofNat']
    omega
  have hpos : 0 < info.byteSizeLong := by
    unfold InfoProto.byteSizeLong
    omega
  have hdata : info.serialize order ≠ [] := by
    intro he
    rw [he, List.length_nil] at hlength
    omega
  generalize hh : sizeBytes (UInt64.ofNat info.byteSizeLong) = head
  have hhead : head.length = 8 := by rw [← hh, sizeBytes_length]
  have htake : (head ++ (info.serialize order ++ (file.drop 8).drop (info.serialize order).length)).take 8 =
      head := List.take_left' hhead
  have hdrop : (head ++ (info.serialize order ++ (file.drop 8).drop (info.serialize order).length)).drop 8 =
      info.serialize order ++ (file.drop 8).drop (info.serialize order).length := List.drop_left' hhead
  have hread : (sizeBytes old).drop head.length = [] := by
    apply List.drop_eq_nil_of_le
    rw [hhead, sizeBytes_length]
  have hsz : ofSizeBytes head = UInt64.ofNat info.byteSizeLong := by
    rw [← hh, ofSizeBytes_sizeBytes]
  have hread8 : ¬head.length < 8 := by omega
  have hwhole : (info.serialize order ++ (file.drop 8).drop (info.serialize order).length).take
      info.byteSizeLong = info.serialize order := List.take_left' hlength
  have hvector : ¬maxVector < info.byteSizeLong := by
    unfold maxVector
    omega
  have hint : ¬INT_MAX < (info.serialize order).length := by
    unfold INT_MAX
    omega
  rw [writeImage, hh, writeAt_writeAt hhead, readFile]
  simp only [htake, hdrop, hread, List.append_nil, hsz, hnat, if_neg hvector, if_neg hread8, hwhole,
    if_neg hdata, if_neg hint, hparse, hfi]

theorem validUtf8_path : ValidUtf8 FILE_PATH := by decide

/-- Whatever the calls before and whatever the file held, tables that pass the size check
are read back as they were written, with the free space of block 0 brought up to date. -/
theorem image_round_trip (time : Bytes) (hutf : ValidUtf8 time) (hlen : time.length < 4611686018427387904)
    (ops : List InfoOp) {order : List (Int32 × SizeT)}
    (horder : order.Perm ((new time).applyAll ops).keyBlockMap.entries) (file : Bytes)
    (hpass : ((new time).applyAll ops).writeToBlock0.2.isSome) (time' : Bytes) (old : SizeT) :
    (new time').readFile old (((new time).applyAll ops).writeFile order (some file)).2 =
      .returned (((new time).applyAll ops).setFreeSpace block0
        (BLOCK_SIZE - UInt64.ofNat ((new time).applyAll ops).toProto.byteSizeLong)) true := by
  have hs := (new time).applyAll_superBlock ops
  generalize (new time).applyAll ops = fi at hs horder hpass ⊢
  obtain ⟨info, hinfo⟩ := Option.isSome_iff_exists.mp hpass
  have himage := writeToBlock0_image hinfo
  have hsize := writeToBlock0_passes hs hlen hinfo
  have hread : (new time').readFromBlock0 info = some fi.writeToBlock0.1 := by
    rw [himage]
    exact readFromBlock0_toProto fi.writeToBlock0.1 rfl
  have hsuper : info.superBlock = (new time).superBlock := by
    rw [himage]
    exact hs
  have hname : ValidUtf8 info.superBlock.fileName := by
    rw [hsuper]
    exact validUtf8_path
  have htime : ValidUtf8 info.superBlock.createTime := by
    rw [hsuper]
    exact hutf
  have hmap : order.Perm info.keyBlockMap.entries := by
    rw [himage]
    exact horder
  rw [writeFile, hinfo]
  exact readFile_written hmap hsize hname htime hread old

/-- Two keys in block 1. -/
def twoKeys : FileInfo := (new WriteSide.epoch).applyAll
  [.getFreeBlock, .addKeyBlockMapping (-7) 1, .addKeyBlockMapping 8 1, .updateBlockInfo 1 5]

theorem image_round_trip_two_keys :
    (new WriteSide.epoch).readFile 3 (twoKeys.writeFile [(8, 1), (-7, 1)] (some [1, 2, 3])).2 =
      .returned (twoKeys.setFreeSpace block0
        (BLOCK_SIZE - UInt64.ofNat twoKeys.toProto.byteSizeLong)) true :=
  image_round_trip WriteSide.epoch (by decide) (by decide)
    [.getFreeBlock, .addKeyBlockMapping (-7) 1, .addKeyBlockMapping 8 1, .updateBlockInfo 1 5]
    (by decide) [1, 2, 3] (by decide +kernel) WriteSide.epoch 3

end FileInfo

end KVStorage

import KVStorage.Global
import KVStorage.Library.SortedMap
import KVStorage.Library.WireSize
import Mathlib.Data.List.FinRange
import Mathlib.Logic.Function.Basic

/-!
# The block tables and their image in block 0

`FileInfo` hands out blocks, remembers which block holds a key, and is saved as a
message in block 0.
-/

namespace KVStorage

set_option autoImplicit false

structure SuperBlock where
  fileName : Bytes
  fileSize : SizeT
  blockSize : SizeT
  blockNum : Int32
  createTime : Bytes

structure BlockIndexTable where
  blockNumber : SizeT
  offset : SizeT
  freeSpace : SizeT

/-- The vectors have `NUM_BLOCKS` entries from construction on. -/
structure FileInfo where
  superBlock : SuperBlock
  blockUsageTable : Fin NUM_BLOCKS → Bool
  blockIndexTable : Fin NUM_BLOCKS → BlockIndexTable
  keyBlockMap : SortedMap Int32 SizeT

/-- `proto::FileInfo`. -/
structure InfoProto where
  superBlock : SuperBlock
  blockUsageTable : List Bool
  blockIndexTables : List BlockIndexTable
  keyBlockMap : SortedMap Int32 SizeT

namespace InfoProto

def superBlockSize (s : SuperBlock) : Nat :=
  (if s.fileName = [] then 0 else 1 + WireSize.delimited s.fileName.length) +
  (if s.createTime = [] then 0 else 1 + WireSize.delimited s.createTime.length) +
  (if s.fileSize = 0 then 0 else 1 + WireSize.uint64 s.fileSize) +
  (if s.blockSize = 0 then 0 else 1 + WireSize.uint64 s.blockSize) +
  (if s.blockNum = 0 then 0 else 1 + WireSize.int32 s.blockNum)

def blockIndexSize (b : BlockIndexTable) : Nat :=
  (if b.blockNumber = 0 then 0 else 1 + WireSize.uint64 b.blockNumber) +
  (if b.offset = 0 then 0 else 1 + WireSize.uint64 b.offset) +
  (if b.freeSpace = 0 then 0 else 1 + WireSize.uint64 b.freeSpace)

/-- A map entry writes both of its fields, whatever their values. -/
def keyBlockSize (key : Int32) (block : SizeT) : Nat :=
  WireSize.delimited (2 + WireSize.int32 key + WireSize.uint64 block)

def byteSizeLong (info : InfoProto) : Nat :=
  (info.blockIndexTables.map fun b => 1 + WireSize.delimited (blockIndexSize b)).sum +
  (info.keyBlockMap.entries.map fun e => 1 + keyBlockSize e.1 e.2).sum +
  (if info.blockUsageTable = [] then 0 else 1 + WireSize.delimited info.blockUsageTable.length) +
  (1 + WireSize.delimited (superBlockSize info.superBlock))

theorem blockIndexSize_le (b : BlockIndexTable) : blockIndexSize b ≤ 33 := by
  have h₁ := WireSize.uint64_le b.blockNumber
  have h₂ := WireSize.uint64_le b.offset
  have h₃ := WireSize.uint64_le b.freeSpace
  unfold blockIndexSize
  split <;> split <;> split <;> omega

end InfoProto

namespace FileInfo

/-- `FILE_PATH`, "dumpFile". -/
def FILE_PATH : Bytes := [100, 117, 109, 112, 70, 105, 108, 101]

/-- `sizeof(int) + sizeof(size_t)`. -/
def mappingSize : SizeT := 4 + 8

def block0 : Fin NUM_BLOCKS := ⟨0, by decide⟩

def new (createTime : Bytes) : FileInfo where
  superBlock := ⟨FILE_PATH, FILE_SIZE, BLOCK_SIZE, Int32.ofNat NUM_BLOCKS, createTime⟩
  blockUsageTable i := i.val = 0
  blockIndexTable i := ⟨UInt64.ofNat i, UInt64.ofNat i * BLOCK_SIZE, BLOCK_SIZE⟩
  keyBlockMap := SortedMap.empty

def setFreeSpace (fi : FileInfo) (i : Fin NUM_BLOCKS) (freeSpace : SizeT) : FileInfo :=
  { fi with
    blockIndexTable := Function.update fi.blockIndexTable i
      { fi.blockIndexTable i with freeSpace := freeSpace } }

/-- A key that is already mapped keeps its block. -/
def addKeyBlockMapping (fi : FileInfo) (key : Int32) (blockNumber : SizeT) : FileInfo :=
  match fi.keyBlockMap.lookup key with
  | some _ => fi
  | none =>
    { fi with keyBlockMap := fi.keyBlockMap.insert key blockNumber }.setFreeSpace block0
      ((fi.blockIndexTable block0).freeSpace - mappingSize)

def getBlockNumber (fi : FileInfo) (key : Int32) : SizeT :=
  (fi.keyBlockMap.lookup key).getD noBlock

def delKeyBlockMapping (fi : FileInfo) (key : Int32) : FileInfo × SizeT :=
  match fi.keyBlockMap.lookup key with
  | none => (fi, noBlock)
  | some blockNumber =>
    ({ fi with keyBlockMap := fi.keyBlockMap.erase key }.setFreeSpace block0
      ((fi.blockIndexTable block0).freeSpace + mappingSize), blockNumber)

/-- The first unused block, marked used. -/
def getFreeBlock (fi : FileInfo) : FileInfo × SizeT :=
  match (List.finRange NUM_BLOCKS).find? fun i => !fi.blockUsageTable i with
  | some i =>
    ({ fi with blockUsageTable := Function.update fi.blockUsageTable i true }, UInt64.ofNat i)
  | none => (fi, noBlock)

def updateBlockInfo (fi : FileInfo) (blockNumber freeSpace : SizeT) : FileInfo :=
  if h : blockNumber.toNat < NUM_BLOCKS then fi.setFreeSpace ⟨blockNumber.toNat, h⟩ freeSpace
  else fi

def toProto (fi : FileInfo) : InfoProto where
  superBlock := fi.superBlock
  blockUsageTable := (List.finRange NUM_BLOCKS).map fi.blockUsageTable
  blockIndexTables := (List.finRange NUM_BLOCKS).map fi.blockIndexTable
  keyBlockMap := fi.keyBlockMap

/-- `writeToBlock0` on a file that opens: the tables, whose block-0 entry is brought up
to date, and the message written unless it is too large. -/
def writeToBlock0 (fi : FileInfo) : FileInfo × Option InfoProto :=
  let fi := fi.setFreeSpace block0 (BLOCK_SIZE - UInt64.ofNat fi.toProto.byteSizeLong)
  let serializedSize := UInt64.ofNat fi.toProto.byteSizeLong
  (fi, if serializedSize + 8 > BLOCK_SIZE then none else some fi.toProto)

/-- `table[i] = l[i]` for every entry of `l`, from index `i` on; an entry beyond the
table is outside the vector. -/
def fillTable {α : Type} : Nat → List α → (Fin NUM_BLOCKS → α) → Option (Fin NUM_BLOCKS → α)
  | _, [], table => some table
  | i, x :: xs, table =>
    if h : i < NUM_BLOCKS then fillTable (i + 1) xs (Function.update table ⟨i, h⟩ x) else none

/-- `readFromBlock0` from a message that parses. -/
def readFromBlock0 (fi : FileInfo) (info : InfoProto) : Option FileInfo := do
  let usage ← fillTable 0 info.blockUsageTable fi.blockUsageTable
  let index ← fillTable 0 info.blockIndexTables fi.blockIndexTable
  some
    { superBlock := info.superBlock
      blockUsageTable := usage
      blockIndexTable := index
      keyBlockMap := fi.keyBlockMap.insertAll info.keyBlockMap.entries }

/-! ## What the operations do to the tables -/

def Used (fi : FileInfo) (b : SizeT) : Prop :=
  ∃ h : b.toNat < NUM_BLOCKS, fi.blockUsageTable ⟨b.toNat, h⟩ = true

instance (fi : FileInfo) (b : SizeT) : Decidable (fi.Used b) := by
  unfold Used
  infer_instance

variable {fi fi' : FileInfo} {k k' : Int32} {b b' : SizeT}

theorem used_congr (h : fi'.blockUsageTable = fi.blockUsageTable) : fi'.Used b ↔ fi.Used b := by
  unfold Used
  rw [h]

@[simp] theorem setFreeSpace_usage (fi : FileInfo) (i : Fin NUM_BLOCKS) (n : SizeT) :
    (fi.setFreeSpace i n).blockUsageTable = fi.blockUsageTable := rfl

@[simp] theorem setFreeSpace_map (fi : FileInfo) (i : Fin NUM_BLOCKS) (n : SizeT) :
    (fi.setFreeSpace i n).keyBlockMap = fi.keyBlockMap := rfl

@[simp] theorem updateBlockInfo_usage (fi : FileInfo) (b n : SizeT) :
    (fi.updateBlockInfo b n).blockUsageTable = fi.blockUsageTable := by
  unfold updateBlockInfo
  split <;> rfl

@[simp] theorem updateBlockInfo_map (fi : FileInfo) (b n : SizeT) :
    (fi.updateBlockInfo b n).keyBlockMap = fi.keyBlockMap := by
  unfold updateBlockInfo
  split <;> rfl

@[simp] theorem addKeyBlockMapping_usage (fi : FileInfo) (k : Int32) (b : SizeT) :
    (fi.addKeyBlockMapping k b).blockUsageTable = fi.blockUsageTable := by
  unfold addKeyBlockMapping
  split <;> rfl

theorem addKeyBlockMapping_lookup (fi : FileInfo) (k k' : Int32) (b : SizeT) :
    (fi.addKeyBlockMapping k b).keyBlockMap.lookup k' =
      (fi.keyBlockMap.lookup k').or (if k' = k then some b else none) := by
  unfold addKeyBlockMapping
  cases h : fi.keyBlockMap.lookup k with
  | some b' =>
    by_cases hk : k' = k
    · simp [hk, h]
    · simp [hk]
  | none =>
    simp only [setFreeSpace_map, SortedMap.lookup_insert]
    by_cases hk : k' = k
    · simp [hk, h]
    · simp [hk]

/-- The mapping loop of `flushToDisk`. -/
def mapKeys (fi : FileInfo) (ks : List Int32) (b : SizeT) : FileInfo :=
  ks.foldl (fun fi k => fi.addKeyBlockMapping k b) fi

@[simp] theorem mapKeys_usage (fi : FileInfo) (ks : List Int32) (b : SizeT) :
    (fi.mapKeys ks b).blockUsageTable = fi.blockUsageTable := by
  induction ks generalizing fi with
  | nil => rfl
  | cons k ks ih => exact (ih _).trans (addKeyBlockMapping_usage fi k b)

theorem mapKeys_lookup (fi : FileInfo) (ks : List Int32) (b : SizeT) (k : Int32) :
    (fi.mapKeys ks b).keyBlockMap.lookup k =
      (fi.keyBlockMap.lookup k).or (if k ∈ ks then some b else none) := by
  induction ks generalizing fi with
  | nil => simp [mapKeys]
  | cons k' ks ih =>
    have hstep : fi.mapKeys (k' :: ks) b = (fi.addKeyBlockMapping k' b).mapKeys ks b := rfl
    rw [hstep, ih, addKeyBlockMapping_lookup, Option.or_assoc]
    by_cases hk : k = k' <;> simp [hk]

theorem getBlockNumber_of_lookup (h : fi.keyBlockMap.lookup k = some b) : fi.getBlockNumber k = b := by
  rw [getBlockNumber, h, Option.getD_some]

theorem getFreeBlock_map (fi : FileInfo) : fi.getFreeBlock.1.keyBlockMap = fi.keyBlockMap := by
  unfold getFreeBlock
  split <;> rfl

theorem getFreeBlock_spec (h : fi.getFreeBlock.2 ≠ noBlock) :
    fi.getFreeBlock.2.toNat < NUM_BLOCKS ∧ ¬fi.Used fi.getFreeBlock.2 ∧
      ∀ b, fi.getFreeBlock.1.Used b ↔ b = fi.getFreeBlock.2 ∨ fi.Used b := by
  unfold getFreeBlock at h ⊢
  cases hf : (List.finRange NUM_BLOCKS).find? fun i => !fi.blockUsageTable i with
  | none => simp [hf] at h
  | some i =>
    have hfree : fi.blockUsageTable i = false := by simpa using List.find?_some hf
    have hi : (UInt64.ofNat i.val).toNat = i.val := by
      have hlt : i.val < 16 := i.isLt
      rw [UInt64.toNat_ofNat']
      omega
    simp only [hi]
    refine ⟨i.isLt, ?_, ?_⟩
    · rintro ⟨_, hu⟩
      simp [hi, hfree] at hu
    · intro b
      by_cases hb : b = UInt64.ofNat i.val
      · subst hb
        refine ⟨fun _ => Or.inl rfl, fun _ => ⟨hi.trans_lt i.isLt, ?_⟩⟩
        simp [hi]
      · have hne : ∀ hlt : b.toNat < NUM_BLOCKS, (⟨b.toNat, hlt⟩ : Fin NUM_BLOCKS) ≠ i := by
          intro hlt he
          apply hb
          rw [← UInt64.toNat_inj, hi, ← he]
        unfold Used
        simp only [hb, false_or]
        apply exists_congr
        intro hlt
        rw [Function.update_of_ne (hne hlt)]

theorem ofNat_ne_noBlock (i : Fin NUM_BLOCKS) : UInt64.ofNat i ≠ noBlock := by
  intro he
  have hlt : i.val < 16 := i.isLt
  have hval := congrArg UInt64.toNat he
  rw [UInt64.toNat_ofNat', noBlock_toNat] at hval
  omega

theorem getFreeBlock_ne_noBlock : fi.getFreeBlock.2 ≠ noBlock ↔ ∃ i, fi.blockUsageTable i = false := by
  unfold getFreeBlock
  cases hf : (List.finRange NUM_BLOCKS).find? fun i => !fi.blockUsageTable i with
  | none =>
    rw [List.find?_eq_none] at hf
    refine ⟨fun h => absurd rfl h, ?_⟩
    rintro ⟨i, hi⟩
    exact absurd (by simp [hi]) (hf i (List.mem_finRange i))
  | some i =>
    have hfree : fi.blockUsageTable i = false := by simpa using List.find?_some hf
    exact ⟨fun _ => ⟨i, hfree⟩, fun _ => ofNat_ne_noBlock i⟩

theorem getFreeBlock_noBlock (h : fi.getFreeBlock.2 = noBlock) : fi.getFreeBlock.1 = fi := by
  unfold getFreeBlock at h ⊢
  cases hf : (List.finRange NUM_BLOCKS).find? fun i => !fi.blockUsageTable i with
  | none => rfl
  | some i =>
    rw [hf] at h
    exact absurd h (ofNat_ne_noBlock i)

theorem getFreeBlock_used (fi : FileInfo) (h : fi.Used b) : fi.getFreeBlock.1.Used b := by
  by_cases hn : fi.getFreeBlock.2 = noBlock
  · rwa [getFreeBlock_noBlock hn]
  · exact ((getFreeBlock_spec hn).2.2 b).mpr (Or.inr h)

/-! ## The image in block 0 -/

theorem writeToBlock0_map (fi : FileInfo) : fi.writeToBlock0.1.keyBlockMap = fi.keyBlockMap := rfl

theorem writeToBlock0_usage (fi : FileInfo) :
    fi.writeToBlock0.1.blockUsageTable = fi.blockUsageTable := rfl

theorem writeToBlock0_image {info : InfoProto} (h : fi.writeToBlock0.2 = some info) :
    info = fi.writeToBlock0.1.toProto := by
  simp only [writeToBlock0] at h ⊢
  split at h
  · simp at h
  · exact (Option.some.inj h).symm

theorem writeToBlock0_isSome_iff
    (h : fi.writeToBlock0.1.toProto.byteSizeLong < 18446744073709551608) :
    fi.writeToBlock0.2.isSome ↔ fi.writeToBlock0.1.toProto.byteSizeLong + 8 ≤ BLOCK_SIZE.toNat := by
  have hanswer : fi.writeToBlock0.2 =
      if UInt64.ofNat fi.writeToBlock0.1.toProto.byteSizeLong + 8 > BLOCK_SIZE then none
      else some fi.writeToBlock0.1.toProto := rfl
  have h8 : (8 : UInt64).toNat = 8 := rfl
  have hcheck : UInt64.ofNat fi.writeToBlock0.1.toProto.byteSizeLong + 8 > BLOCK_SIZE ↔
      BLOCK_SIZE.toNat < fi.writeToBlock0.1.toProto.byteSizeLong + 8 := by
    rw [gt_iff_lt, UInt64.lt_iff_toNat_lt, UInt64.toNat_add, UInt64.toNat_ofNat', h8,
      Nat.mod_eq_of_lt (by omega), Nat.mod_eq_of_lt (by omega)]
  rw [hanswer, Option.isSome_ite', hcheck, not_lt]

theorem fillTable_eq {α : Type} (l : List α) (i : Nat) (t : Fin NUM_BLOCKS → α)
    (h : i + l.length ≤ NUM_BLOCKS) :
    ∃ t', fillTable i l t = some t' ∧ ∀ j : Fin NUM_BLOCKS, t' j =
      if j.val < i then t j else (l[j.val - i]?).getD (t j) := by
  induction l generalizing i t with
  | nil => exact ⟨t, rfl, fun j => by simp⟩
  | cons x l ih =>
    simp only [List.length_cons] at h
    have hi : i < NUM_BLOCKS := by omega
    obtain ⟨t', ht', heq⟩ := ih (i + 1) (Function.update t ⟨i, hi⟩ x) (by omega)
    refine ⟨t', by rw [fillTable, dif_pos hi, ht'], ?_⟩
    intro j
    rw [heq]
    by_cases hj : j.val = i
    · have hji : j = ⟨i, hi⟩ := Fin.ext hj
      simp [hji]
    · have hji : j ≠ ⟨i, hi⟩ := fun he => hj (congrArg Fin.val he)
      by_cases hlt : j.val < i
      · have hlt' : j.val < i + 1 := by omega
        simp [hlt, hlt', hji]
      · have hlt' : ¬j.val < i + 1 := by omega
        have hs : j.val - i = (j.val - (i + 1)) + 1 := by omega
        simp [hlt, hlt', hji, hs]

theorem fillTable_table {α : Type} (table t : Fin NUM_BLOCKS → α) :
    fillTable 0 ((List.finRange NUM_BLOCKS).map table) t = some table := by
  obtain ⟨t', ht', heq⟩ := fillTable_eq ((List.finRange NUM_BLOCKS).map table) 0 t (by simp)
  rw [ht', Option.some.injEq]
  funext j
  rw [heq]
  simp [j.isLt]

theorem readFromBlock0_toProto (fi : FileInfo) {fi₀ : FileInfo}
    (h : fi₀.keyBlockMap = SortedMap.empty) : fi₀.readFromBlock0 fi.toProto = some fi := by
  unfold readFromBlock0 toProto
  simp only [fillTable_table, h, SortedMap.insertAll_entries, Option.bind_eq_bind, Option.bind_some]

end FileInfo

end KVStorage

import KVStorage.BlockFile

/-!
# Flushes and loads that fail

A flush learns nothing from `serialize`, and a load looks at no failure of `deserialize`:
what is left behind when the data file does not open, cannot be read or does not parse.
-/

namespace KVStorage

set_option autoImplicit false

namespace Cache

/-- `flushToDisk` on the bytes of the data file, which is there if it opens. -/
def flushToFile (c : Cache) (fi : FileInfo) (file : Option Bytes) (freeSpace freeBlock : SizeT) :
    Cache × FileInfo × Option Bytes × Bool :=
  if freeBlock = noBlock then (c, fi, file, false)
  else
    let fi := fi.mapKeys c.RWcache.keys freeBlock
    let file := c.RWcache.serialize file (freeBlock * CACHE_SIZE)
    let fi := fi.updateBlockInfo freeBlock freeSpace
    ({ c with RWcache := c.RWcache.clear, currentSize := 0 }, fi, file, true)

/-- The flush has a block, and the file takes its bytes. -/
def StoresBlock (file : Option Bytes) (freeBlock : SizeT) : Prop :=
  freeBlock ≠ noBlock ∧ file.isSome ∧ Seekable (freeBlock * CACHE_SIZE)

/-- The cache and the tables answer as before. -/
structure Unflushed (c c' : Cache) (fi fi' : FileInfo) : Prop where
  contents : c'.RWcache.contents = c.RWcache.contents
  currentSize : c'.currentSize = c.currentSize
  keyBlockMap : fi'.keyBlockMap = fi.keyBlockMap
  blockIndexTable : fi'.blockIndexTable = fi.blockIndexTable
  readable : ∀ k, c'.getWrite k = c.getWrite k ∧ fi'.getBlockNumber k = fi.getBlockNumber k

/-- A flush that stores no block changes nothing and says so. -/
def FlushAtomic (c : Cache) (fi : FileInfo) (file : Option Bytes) (freeSpace freeBlock : SizeT) : Prop :=
  ¬StoresBlock file freeBlock →
    (c.flushToFile fi file freeSpace freeBlock).2.2.2 = false ∧
      Unflushed c (c.flushToFile fi file freeSpace freeBlock).1 fi
        (c.flushToFile fi file freeSpace freeBlock).2.1

variable (c : Cache) (fi : FileInfo) (file : Option Bytes) (freeSpace freeBlock : SizeT)

@[simp] theorem flushToFile_noBlock :
    c.flushToFile fi file freeSpace noBlock = (c, fi, file, false) := if_pos rfl

variable {file freeBlock}

theorem flushToFile_true (h : freeBlock ≠ noBlock) :
    (c.flushToFile fi file freeSpace freeBlock).2.2.2 = true := by rw [flushToFile, if_neg h]

theorem flushToFile_file (h : ¬StoresBlock file freeBlock) :
    (c.flushToFile fi file freeSpace freeBlock).2.2.1 = file := by
  by_cases hb : freeBlock = noBlock
  · rw [hb, flushToFile_noBlock]
  rw [flushToFile, if_neg hb]
  change c.RWcache.serialize file (freeBlock * CACHE_SIZE) = file
  cases file with
  | none => rfl
  | some bytes =>
    have hseek : ¬Seekable (freeBlock * CACHE_SIZE) := fun hs => h ⟨hb, rfl, hs⟩
    rw [ValidList.serialize, Option.map_some, NodeProto.writeNodes, if_neg hseek]

/-- A key of the cache that no block held is mapped to the block, and gone from the cache. -/
theorem flushToFile_lost (h : freeBlock ≠ noBlock) {k : Int32} (hk : k ∈ c.RWcache.contents.keys)
    (hnew : fi.keyBlockMap.lookup k = none) :
    (c.flushToFile fi file freeSpace freeBlock).1.getWrite k = [] ∧
      (c.flushToFile fi file freeSpace freeBlock).2.1.getBlockNumber k = freeBlock := by
  rw [flushToFile, if_neg h]
  refine ⟨getWrite_eq _ k, ?_⟩
  apply FileInfo.getBlockNumber_of_lookup
  rw [FileInfo.updateBlockInfo_map, FileInfo.mapKeys_lookup, hnew, Option.none_or, ValidList.keys_eq, if_pos hk]

/-- Failures are noticed only where there is no block. -/
theorem flush_atomic_iff : c.FlushAtomic fi file freeSpace freeBlock ↔
    freeBlock = noBlock ∨ file.isSome ∧ Seekable (freeBlock * CACHE_SIZE) := by
  constructor
  · intro h
    by_cases hb : freeBlock = noBlock
    · exact Or.inl hb
    by_cases hs : file.isSome ∧ Seekable (freeBlock * CACHE_SIZE)
    · exact Or.inr hs
    have hanswer := (h fun hstores => hs hstores.2).1
    rw [flushToFile_true c fi freeSpace hb] at hanswer
    cases hanswer
  · intro h hstores
    have hb : freeBlock = noBlock := by
      by_contra hb
      exact hstores ⟨hb, h.resolve_left hb⟩
    rw [hb, flushToFile_noBlock]
    exact ⟨rfl, rfl, rfl, rfl, rfl, fun k => ⟨rfl, rfl⟩⟩

/-- A cache with key 5, to be flushed to block 1 of a file that does not open. -/
theorem unopened_flush_loses_key :
    let c := (new.put (FileInfo.new []) 5 [97] fun _ => true).1
    let r := c.flushToFile (FileInfo.new []) none 0 1
    ¬c.FlushAtomic (FileInfo.new []) none 0 1 ∧ c.getWrite 5 = [97] ∧ r.1.getWrite 5 = [] ∧
      r.2.1.getBlockNumber 5 = 1 ∧ r.2.2 = (none, true) := by
  have hb : (1 : SizeT) ≠ noBlock := by decide
  have hkeys : (5 : Int32) ∈ (new.put (FileInfo.new []) 5 [97] fun _ => true).1.RWcache.contents.keys := by
    rw [put_contents]
    decide
  refine ⟨?_, ?_, (flushToFile_lost _ _ 0 hb hkeys rfl).1, (flushToFile_lost _ _ 0 hb hkeys rfl).2, ?_⟩
  · intro h
    exact absurd ((h fun hs => absurd hs.2.1 (by decide)).1) (by simp [flushToFile_true _ _ _ hb])
  · rw [getWrite_eq, put_contents]
    decide
  · exact Prod.ext (flushToFile_file _ _ _ fun hs => absurd hs.2.1 (by decide)) (flushToFile_true _ _ _ hb)

end Cache

/-! ## Loads -/

/-- The read cache with its list as it lies in memory. -/
structure ReadCache where
  currentSize : SizeT
  RWcache : Skiplist
  currentReadBlock : SizeT

namespace ReadCache

/-- How `loadFromDisk` ends. -/
inductive Ended where
  | returned (c : ReadCache) (answer : Bool)
  | threw
  | undefined

def loadFromDisk (c : ReadCache) (serializedSize : SizeT) (file : Option Bytes) (blockNumber : SizeT) : Ended :=
  if blockNumber = noBlock then .returned c false
  else
    match c.RWcache.clear with
    | none => .undefined
    | some sl =>
      match sl.deserializeFile serializedSize file (blockNumber * CACHE_SIZE) with
      -- the size 0 it returns is taken for the size of the block
      | .failed => .returned { c with RWcache := sl, currentSize := 0 } true
      | .loaded list totalSize => .returned { c with RWcache := list, currentSize := totalSize } true
      | .threw => .threw
      | .undefined => .undefined

/-- `get` with flag 1. -/
def get (c : ReadCache) (fi : FileInfo) (key : Int32) : Option (ReadCache × Cache.ReadAnswer) :=
  let blockNumber := fi.getBlockNumber key
  if blockNumber ≠ noBlock then
    if blockNumber = c.currentReadBlock then (c.RWcache.search key).map fun value => (c, .value value)
    else some ({ c with currentReadBlock := blockNumber }, .load blockNumber)
  else some (c, .value [])

/-- The file does not open, no byte is read, or the bytes do not parse. -/
def LoadFails (serializedSize : SizeT) (file : Option Bytes) (blockNumber : SizeT) : Prop :=
  ∀ sl : Skiplist, sl.deserializeFile serializedSize file (blockNumber * CACHE_SIZE) = .failed

/-- After a load that `get` submitted for `blockNumber`: the answer is `false`, the cache holds the
block it held before and says so, and `get` tries again. -/
def FailureHandled (c : ReadCache) (fi : FileInfo) (key : Int32) (blockNumber : SizeT) (ended : Ended) : Prop :=
  ∃ c', ended = .returned c' false ∧ c'.RWcache.items = c.RWcache.items ∧
    c'.currentSize = c.currentSize ∧ c'.currentReadBlock = c.currentReadBlock ∧
      c'.get fi key = some ({ c' with currentReadBlock := blockNumber }, .load blockNumber)

variable {c : ReadCache} {fi : FileInfo} {key : Int32} {serializedSize blockNumber : SizeT} {file : Option Bytes}

theorem get_load (hkey : fi.getBlockNumber key = blockNumber) (hblock : blockNumber ≠ noBlock)
    (hother : blockNumber ≠ c.currentReadBlock) :
    c.get fi key = some ({ c with currentReadBlock := blockNumber }, .load blockNumber) := by
  subst hkey
  rw [get, if_pos hblock, if_neg hother]

theorem get_loaded (hkey : fi.getBlockNumber key = c.currentReadBlock) (hblock : c.currentReadBlock ≠ noBlock) :
    c.get fi key = (c.RWcache.search key).map fun value => (c, .value value) := by
  rw [get, hkey, if_pos hblock, if_pos rfl]

/-- A failed load answers like one of an empty block. -/
theorem loadFromDisk_failed (hblock : blockNumber ≠ noBlock) (hfails : LoadFails serializedSize file blockNumber)
    {sl : Skiplist} (hclear : c.RWcache.clear = some sl) :
    c.loadFromDisk serializedSize file blockNumber =
      .returned { c with RWcache := sl, currentSize := 0 } true := by
  rw [loadFromDisk, if_neg hblock]
  simp only [hclear, hfails sl]

theorem loadFromDisk_not_false (hblock : blockNumber ≠ noBlock) {c' : ReadCache} :
    c.loadFromDisk serializedSize file blockNumber ≠ .returned c' false := by
  rw [loadFromDisk, if_neg hblock]
  cases c.RWcache.clear with
  | none => exact nofun
  | some sl =>
    dsimp only
    split <;> exact nofun

/-- A cache with an intact list, as it lies in memory. -/
def ofCache (c : Cache) : ReadCache := ⟨c.currentSize, c.RWcache.list, c.currentReadBlock⟩

/-- On an intact list a failed load is the load of a block that was never written. -/
theorem ofCache_loadFromDisk_failed (c : Cache) {disk : Disk} (hblock : blockNumber ≠ noBlock)
    (hfails : LoadFails serializedSize file blockNumber) (hdisk : disk blockNumber = none) :
    (ofCache c).loadFromDisk serializedSize file blockNumber =
      .returned (ofCache (c.loadFromDisk disk blockNumber).1) (c.loadFromDisk disk blockNumber).2 := by
  have hclear : (ofCache c).RWcache.clear = some c.RWcache.clear.list :=
    (Option.some_get c.RWcache.clear_isSome).symm
  rw [loadFromDisk_failed hblock hfails hclear]
  simp only [Cache.loadFromDisk, if_neg hblock, hdisk, ofCache]

/-- No failed load is handled: an intact cache is left empty under the number of the block, and
every key of the block then reads as absent. -/
theorem failed_load_unhandled (hkey : fi.getBlockNumber key = blockNumber) (hblock : blockNumber ≠ noBlock)
    (hother : blockNumber ≠ c.currentReadBlock) (hfails : LoadFails serializedSize file blockNumber) :
    ∃ c₁, c.get fi key = some (c₁, .load blockNumber) ∧
      ¬c.FailureHandled fi key blockNumber (c₁.loadFromDisk serializedSize file blockNumber) ∧
        ∀ m, c.RWcache.Holds m → ∃ c₂,
          c₁.loadFromDisk serializedSize file blockNumber = .returned c₂ true ∧
            c₂.RWcache.items = some [] ∧ c₂.currentSize = 0 ∧ c₂.currentReadBlock = blockNumber ∧
              ∀ k, fi.getBlockNumber k = blockNumber → c₂.get fi k = some (c₂, .value []) := by
  refine ⟨_, get_load hkey hblock hother, ?_, ?_⟩
  · rintro ⟨c', hreturned, _⟩
    exact loadFromDisk_not_false hblock hreturned
  · rintro m ⟨ts, hholds⟩
    obtain ⟨sl, hclear, hempty, _⟩ := hholds.clear
    refine ⟨_, loadFromDisk_failed hblock hfails hclear, hempty.represents.items, rfl, rfl, ?_⟩
    intro k hk
    rw [get_loaded hk hblock, hempty.search k]
    rfl

theorem unopened_loadFails : LoadFails serializedSize none blockNumber := fun _ => rfl

/-- A file that ends before the block: the eight bytes are not there, and nothing is read. -/
theorem short_loadFails {bytes : Bytes} (hsize : serializedSize.toNat ≤ maxVector)
    (hend : bytes.length ≤ (blockNumber * CACHE_SIZE).toNat) :
    LoadFails serializedSize (some bytes) blockNumber := by
  intro sl
  have hhead : (if Seekable (blockNumber * CACHE_SIZE) then (bytes.drop (blockNumber * CACHE_SIZE).toNat).take 8
      else []) = [] := by
    rw [List.drop_eq_nil_of_le hend, List.take_nil, ite_self]
  have hold : announced serializedSize [] = serializedSize := by
    rw [announced, List.length_nil, List.drop_zero, List.nil_append, ofSizeBytes_sizeBytes]
  simp only [Skiplist.deserializeFile, hhead, hold, if_neg (not_lt.mpr hsize), List.length_nil,
    Nat.zero_lt_succ, if_true]

/-- A cache with nothing loaded, and a key of block 1 in a file that does not open. -/
theorem unopened_load_unhandled :
    ∃ c₁, (⟨0, Skiplist.new, noBlock⟩ : ReadCache).get ((FileInfo.new []).addKeyBlockMapping 5 1) 5 =
        some (c₁, .load 1) ∧
      ¬(⟨0, Skiplist.new, noBlock⟩ : ReadCache).FailureHandled ((FileInfo.new []).addKeyBlockMapping 5 1) 5 1
        (c₁.loadFromDisk 0 none 1) ∧
        ∀ m, Skiplist.new.Holds m → ∃ c₂, c₁.loadFromDisk 0 none 1 = .returned c₂ true ∧
          c₂.RWcache.items = some [] ∧ c₂.currentSize = 0 ∧ c₂.currentReadBlock = 1 ∧
            ∀ k, ((FileInfo.new []).addKeyBlockMapping 5 1).getBlockNumber k = 1 →
              c₂.get ((FileInfo.new []).addKeyBlockMapping 5 1) k = some (c₂, .value []) :=
  failed_load_unhandled (by decide) (by decide) (by decide) unopened_loadFails

/-- Block 2 is loaded with key 7. Key 5 is in block 1, before which the file ends: the load empties
the cache, and the next `get` answers from it. -/
theorem short_load_empties_cache :
    let fi := ((FileInfo.new []).addKeyBlockMapping 5 1).addKeyBlockMapping 7 2
    let c : ReadCache := ⟨47, (ValidList.new.add 7 [98] fun _ => true).1.list, 2⟩
    c.get fi 7 = some (c, .value [98]) ∧ ∃ c₁ c₂, c.get fi 5 = some (c₁, .load 1) ∧
      c₁.loadFromDisk 0 (some []) 1 = .returned c₂ true ∧
        ¬c.FailureHandled fi 5 1 (c₁.loadFromDisk 0 (some []) 1) ∧
          c₂.RWcache.items = some [] ∧ c₂.get fi 5 = some (c₂, .value []) := by
  have hone : (1 : SizeT) ≠ noBlock := by decide
  have hkey : (((FileInfo.new []).addKeyBlockMapping 5 1).addKeyBlockMapping 7 2).getBlockNumber 5 = 1 := by
    decide
  have hfails : LoadFails 0 (some []) 1 := short_loadFails (by decide) (Nat.zero_le _)
  obtain ⟨ts, hts⟩ := (ValidList.new.add 7 [98] fun _ => true).1.holds
  obtain ⟨sl, hclear, hempty, _⟩ := hts.clear
  refine ⟨?_, _, _, get_load hkey hone (by decide), loadFromDisk_failed hone hfails hclear, ?_,
    hempty.represents.items, ?_⟩
  · rw [get_loaded (by decide) (by decide), hts.search]
    rfl
  · rintro ⟨c', hreturned, _⟩
    exact loadFromDisk_not_false hone hreturned
  · rw [get_loaded hkey hone, hempty.search]
    rfl

end ReadCache

end KVStorage

import KVStorage.SkiplistRoundTrip
import KVStorage.FileInfo

/-!
# The write and the read cache

A cache owns a skip list that holds its contents. Blocks of the data file are seen
as one stored map each.
-/

namespace KVStorage

set_option autoImplicit false

/-- An intact list with the map it holds. -/
structure ValidList where
  list : Skiplist
  contents : Contents
  holds : list.Holds contents

namespace ValidList

def new : ValidList := ⟨Skiplist.new, SortedMap.empty, [], Skiplist.new_holdsAs⟩

theorem add_isSome (l : ValidList) (key : Int32) (value : Bytes) (flips : Fin level → Bool) :
    (l.list.add key value flips).isSome := by
  obtain ⟨ts, h⟩ := l.holds
  obtain ⟨sl', _, hadd, _⟩ := h.add key value flips
  simp [hadd]

def add (l : ValidList) (key : Int32) (value : Bytes) (flips : Fin level → Bool) :
    ValidList × SizeT :=
  let r := (l.list.add key value flips).get (l.add_isSome key value flips)
  (⟨r.1, l.contents.add key value, by
    obtain ⟨ts, h⟩ := l.holds
    obtain ⟨sl', ts', hadd, hholds, _⟩ := h.add key value flips
    simp only [r, hadd, Option.get_some]
    exact ⟨ts', hholds⟩⟩, r.2)

theorem erase_isSome (l : ValidList) (key : Int32) : (l.list.erase key).isSome := by
  obtain ⟨ts, h⟩ := l.holds
  obtain ⟨sl', _, herase, _⟩ := h.erase key
  simp [herase]

def erase (l : ValidList) (key : Int32) : ValidList × Option SizeT :=
  let r := (l.list.erase key).get (l.erase_isSome key)
  (⟨r.1, l.contents.erase key, by
    obtain ⟨ts, h⟩ := l.holds
    obtain ⟨sl', ts', herase, hholds, _⟩ := h.erase key
    simp only [r, herase, Option.get_some]
    exact ⟨ts', hholds⟩⟩, r.2)

theorem clear_isSome (l : ValidList) : l.list.clear.isSome := by
  obtain ⟨ts, h⟩ := l.holds
  obtain ⟨sl', hclear, _⟩ := h.clear
  simp [hclear]

def clear (l : ValidList) : ValidList where
  list := l.list.clear.get l.clear_isSome
  contents := SortedMap.empty
  holds := by
    obtain ⟨ts, h⟩ := l.holds
    obtain ⟨sl', hclear, hholds, _⟩ := h.clear
    simp only [hclear, Option.get_some]
    exact ⟨[], hholds⟩

theorem search_isSome (l : ValidList) (key : Int32) : (l.list.search key).isSome := by
  obtain ⟨ts, h⟩ := l.holds
  simp [h.search key]

def search (l : ValidList) (key : Int32) : Bytes := (l.list.search key).get (l.search_isSome key)

theorem keys_isSome (l : ValidList) : (l.list.chainKeys Skiplist.bottom).isSome := by
  obtain ⟨ts, h⟩ := l.holds
  simp [h.chainKeys_bottom]

def keys (l : ValidList) : List Int32 := (l.list.chainKeys Skiplist.bottom).get l.keys_isSome

variable (l : ValidList) (key : Int32) (value : Bytes) (flips : Fin level → Bool)

theorem add_list : l.list.add key value flips = some ((l.add key value flips).1.list,
    (l.add key value flips).2) := (Option.some_get (l.add_isSome key value flips)).symm

@[simp] theorem new_contents : new.contents = SortedMap.empty := rfl

@[simp] theorem add_contents : (l.add key value flips).1.contents = l.contents.add key value := rfl

@[simp] theorem add_size : (l.add key value flips).2 = l.contents.addSize key value := by
  obtain ⟨ts, h⟩ := l.holds
  obtain ⟨sl', _, hadd, _⟩ := h.add key value flips
  simp [add, hadd]

@[simp] theorem erase_contents : (l.erase key).1.contents = l.contents.erase key := rfl

@[simp] theorem erase_size : (l.erase key).2 =
    (l.contents.lookup key).map fun s => Skiplist.nodeSize s.capacity := by
  obtain ⟨ts, h⟩ := l.holds
  obtain ⟨sl', _, herase, _⟩ := h.erase key
  simp [erase, herase]

@[simp] theorem clear_contents : l.clear.contents = SortedMap.empty := rfl

@[simp] theorem search_eq : l.search key = l.contents.search key := by
  obtain ⟨ts, h⟩ := l.holds
  simp [search, h.search key]

@[simp] theorem keys_eq : l.keys = l.contents.keys := by
  obtain ⟨ts, h⟩ := l.holds
  simp [keys, h.chainKeys_bottom]

/-! ## Blocks as stored maps -/

/-- The map a block stores after `serialize`. -/
def stored (l : ValidList) : SortedMap Int32 Bytes := l.contents.mapValues (·.data)

/-- A list with the nodes of a stored map. -/
def load (m : SortedMap Int32 Bytes) : ValidList :=
  m.entries.foldl (fun l e => (l.add e.1 e.2 fun _ => true).1) new

theorem load_contents_lookup (m : SortedMap Int32 Bytes) (k : Int32) :
    (load m).contents.lookup k = (m.lookup k).map CppString.ofBytes := by
  have hfold : ∀ (es : List (Int32 × Bytes)) (l : ValidList), (es.map Prod.fst).Nodup →
      (∀ e ∈ es, l.contents.lookup e.1 = none) →
      (es.foldl (fun l e => (l.add e.1 e.2 fun _ => true).1) l).contents =
        l.contents.insertAll (es.map fun e => (e.1, CppString.ofBytes e.2)) := by
    intro es
    induction es with
    | nil => intro l _ _; rfl
    | cons e es ih =>
      intro l hnd habsent
      simp only [List.map_cons, List.nodup_cons] at hnd
      have hnew : l.contents.add e.1 e.2 = l.contents.insert e.1 (CppString.ofBytes e.2) := by
        rw [Contents.add, Contents.stored, habsent e List.mem_cons_self]
      rw [List.foldl_cons, ih _ hnd.2]
      · rw [add_contents, hnew]
        rfl
      · intro e' he'
        have hne : e'.1 ≠ e.1 := fun he => hnd.1 (he ▸ List.mem_map_of_mem he')
        rw [add_contents, hnew, SortedMap.lookup_insert_ne _ _ hne]
        exact habsent e' (List.mem_cons_of_mem e he')
  have hentries : m.entries.map (fun e => (e.1, CppString.ofBytes e.2)) =
      (m.mapValues CppString.ofBytes).entries := rfl
  rw [load, hfold m.entries new m.keys_nodup fun _ _ => rfl, hentries, new_contents,
    SortedMap.insertAll_entries, SortedMap.lookup_mapValues]

@[simp] theorem stored_lookup (l : ValidList) (k : Int32) :
    l.stored.lookup k = (l.contents.lookup k).map (·.data) := SortedMap.lookup_mapValues _ _ _

theorem load_stored (m : SortedMap Int32 Bytes) : (load m).stored = m := by
  apply SortedMap.ext_lookup
  intro k
  rw [stored_lookup, load_contents_lookup, Option.map_map]
  cases m.lookup k <;> rfl

@[simp] theorem stored_keys (l : ValidList) : l.stored.keys = l.contents.keys :=
  SortedMap.keys_mapValues _ _

theorem load_search (m : SortedMap Int32 Bytes) (k : Int32) :
    (load m).search k = (m.lookup k).getD [] := by
  rw [search_eq, Contents.search, load_contents_lookup, Option.map_map]
  cases m.lookup k <;> rfl

/-- Without the reserved keys, the block as a stored map is what `deserialize` makes
of the message `serialize` writes. -/
theorem stored_survives (l : ValidList) (h₁ : l.contents.lookup (-1) = none)
    (h₂ : l.contents.lookup (-2) = none) (target : ValidList) :
    ∃ nodes sl' size, l.list.toProto = some nodes ∧ target.list.rebuild nodes = some (sl', size) ∧
      sl'.Holds (l.stored.mapValues CppString.ofBytes) := by
  obtain ⟨ts, h⟩ := l.holds
  obtain ⟨us, h₀⟩ := target.holds
  obtain ⟨sl', size, nm, hrebuild, hrep⟩ := h.represents.rebuild h₀.represents (h.unreserved h₁ h₂)
  refine ⟨_, sl', size, h.represents.toProto, hrebuild, _, hrep, ?_⟩
  simp only [stored, SortedMap.mapValues, h.entries, List.map_map]
  rfl

end ValidList

/-- The data blocks, each with the map it stores; a block never written has none. -/
abbrev Disk := SizeT → Option (SortedMap Int32 Bytes)

/-- A flush that `put` queues: the block and the free space recorded for it. -/
structure FlushTask where
  freeSpace : SizeT
  freeBlock : SizeT
  deriving DecidableEq

structure Cache where
  currentSize : SizeT
  RWcache : ValidList
  currentReadBlock : SizeT

namespace Cache

def new : Cache := ⟨0, ValidList.new, noBlock⟩

/-- `put`, with the flush it submits when the cache has grown too large. -/
def put (c : Cache) (fi : FileInfo) (key : Int32) (value : Bytes) (flips : Fin level → Bool) :
    Cache × FileInfo × Option FlushTask :=
  let nodesize := (c.RWcache.add key value flips).2
  let c := { c with
    RWcache := (c.RWcache.add key value flips).1
    currentSize := c.currentSize + nodesize }
  if c.currentSize > CACHE_SIZE then
    let freeSpace := CACHE_SIZE - c.currentSize + nodesize
    (c, fi.getFreeBlock.1, some ⟨freeSpace, fi.getFreeBlock.2⟩)
  else (c, fi, none)

/-- `get` with flag 0. -/
def getWrite (c : Cache) (key : Int32) : Bytes := c.RWcache.search key

/-- What `get` with flag 1 does once it has compared the block numbers. -/
inductive ReadAnswer where
  /-- The answer, without a load. -/
  | value (data : Bytes)
  /-- A load of the block is submitted, which then searches. -/
  | load (blockNumber : SizeT)

/-- `get` with flag 1. -/
def getRead (c : Cache) (fi : FileInfo) (key : Int32) : Cache × ReadAnswer :=
  let blockNumber := fi.getBlockNumber key
  if blockNumber ≠ noBlock then
    if blockNumber = c.currentReadBlock then (c, .value (c.RWcache.search key))
    else ({ c with currentReadBlock := blockNumber }, .load blockNumber)
  else (c, .value [])

/-- `delhander`: flag 1 also records the size as the free space of the block. -/
def delhander (c : Cache) (fi : FileInfo) (key : Int32) (block : Option SizeT) : Cache × FileInfo :=
  match (c.RWcache.erase key).2 with
  | none => (c, fi)
  | some nodeSize =>
    ({ c with RWcache := (c.RWcache.erase key).1, currentSize := c.currentSize - nodeSize },
      match block with
      | none => fi
      | some blockNumber => fi.updateBlockInfo blockNumber nodeSize)

/-- `del` with flag 0: the answer is `true`, whether the key was there or not. -/
def delWrite (c : Cache) (fi : FileInfo) (key : Int32) : Cache × FileInfo × Bool :=
  ((c.delhander fi key none).1, (c.delhander fi key none).2, true)

/-- `del` with flag 1, with the load it submits. The load then runs `delhander`
again on the loaded block. -/
def delRead (c : Cache) (fi : FileInfo) (key : Int32) : Cache × FileInfo × Option SizeT × Bool :=
  let blockNumber := fi.getBlockNumber key
  if blockNumber ≠ noBlock then
    let task := if blockNumber ≠ c.currentReadBlock then some blockNumber else none
    let c := { c with currentReadBlock := blockNumber }
    ((c.delhander fi key (some blockNumber)).1, (c.delhander fi key (some blockNumber)).2, task, true)
  else (c, fi, none, false)

def flushToDisk (c : Cache) (fi : FileInfo) (disk : Disk) (freeSpace freeBlock : SizeT) :
    Cache × FileInfo × Disk × Bool :=
  if freeBlock = noBlock then (c, fi, disk, false)
  else
    let fi := fi.mapKeys c.RWcache.keys freeBlock
    let disk := Function.update disk freeBlock (some c.RWcache.stored)
    let fi := fi.updateBlockInfo freeBlock freeSpace
    ({ c with RWcache := c.RWcache.clear, currentSize := 0 }, fi, disk, true)

/-- The size `deserialize` returns: the sizes of all records, the head's included. -/
def loadedSize (m : SortedMap Int32 Bytes) : SizeT :=
  ([] :: m.entries.map Prod.snd).foldl
    (fun size value => size +
      Skiplist.nodeSize (CppString.empty.assign (CppString.ofBytes value)).capacity) 0

/-- `loadFromDisk`: a block that was never written reads as nothing, and the list has
been emptied by then. -/
def loadFromDisk (c : Cache) (disk : Disk) (blockNumber : SizeT) : Cache × Bool :=
  if blockNumber = noBlock then (c, false)
  else
    match disk blockNumber with
    | none => ({ c with RWcache := c.RWcache.clear, currentSize := 0 }, true)
    | some m => ({ c with RWcache := ValidList.load m, currentSize := loadedSize m }, true)

variable (c : Cache) (fi : FileInfo) (disk : Disk) (k : Int32) (v : Bytes) (flips : Fin level → Bool)

theorem loadFromDisk_name (blockNumber : SizeT) :
    (c.loadFromDisk disk blockNumber).1.currentReadBlock = c.currentReadBlock := by
  simp only [loadFromDisk]
  split
  · rfl
  · split <;> rfl

@[simp] theorem put_contents :
    (c.put fi k v flips).1.RWcache.contents = c.RWcache.contents.add k v := by
  simp only [put]
  split <;> rfl

theorem put_size : (c.put fi k v flips).1.currentSize =
    c.currentSize + c.RWcache.contents.addSize k v := by
  simp only [put]
  split <;> simp

theorem put_task : (c.put fi k v flips).2.2 =
    if c.currentSize + c.RWcache.contents.addSize k v > CACHE_SIZE then
      some ⟨CACHE_SIZE - (c.currentSize + c.RWcache.contents.addSize k v) + c.RWcache.contents.addSize k v,
        fi.getFreeBlock.2⟩
    else none := by
  simp only [put, ValidList.add_size]
  split <;> rfl

theorem put_small (h : ¬c.currentSize + c.RWcache.contents.addSize k v > CACHE_SIZE) :
    (c.put fi k v flips).2 = (fi, none) := by simp only [put, ValidList.add_size, if_neg h]

theorem put_some {task : FlushTask} (h : (c.put fi k v flips).2.2 = some task) :
    c.currentSize + c.RWcache.contents.addSize k v > CACHE_SIZE ∧
      task.freeBlock = fi.getFreeBlock.2 := by
  rw [put_task] at h
  split at h
  case isTrue hlarge =>
    cases h
    exact ⟨hlarge, rfl⟩
  case isFalse => cases h

theorem put_cases :
    ((c.put fi k v flips).2.1 = fi ∧ (c.put fi k v flips).2.2 = none) ∨
      (c.put fi k v flips).2.1 = fi.getFreeBlock.1 ∧
        ∃ task, (c.put fi k v flips).2.2 = some task ∧ task.freeBlock = fi.getFreeBlock.2 := by
  simp only [put]
  split
  · exact Or.inr ⟨rfl, _, rfl, rfl⟩
  · exact Or.inl ⟨rfl, rfl⟩

@[simp] theorem getWrite_eq : c.getWrite k = c.RWcache.contents.search k := by simp [getWrite]

theorem delhander_contents_lookup (block : Option SizeT) (k' : Int32) :
    (c.delhander fi k block).1.RWcache.contents.lookup k' =
      if k' = k then none else c.RWcache.contents.lookup k' := by
  unfold delhander
  rw [ValidList.erase_size]
  cases h : c.RWcache.contents.lookup k with
  | none =>
    by_cases hk : k' = k
    · simp [hk, h]
    · simp [hk]
  | some s => simp [SortedMap.lookup_erase]

theorem delhander_write_fi : (c.delhander fi k none).2 = fi := by
  unfold delhander
  split <;> rfl

variable (freeSpace freeBlock : SizeT)

theorem flushToDisk_eq (h : freeBlock ≠ noBlock) : c.flushToDisk fi disk freeSpace freeBlock =
    ({ c with RWcache := c.RWcache.clear, currentSize := 0 },
      (fi.mapKeys c.RWcache.contents.keys freeBlock).updateBlockInfo freeBlock freeSpace,
      Function.update disk freeBlock (some c.RWcache.stored), true) := by
  simp [flushToDisk, h]

end Cache

end KVStorage

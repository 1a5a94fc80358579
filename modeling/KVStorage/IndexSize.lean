import KVStorage.BlockExtent
import KVStorage.BlockIndex
import Mathlib.Algebra.Order.BigOperators.Group.List

/-!
# How large the index gets

The message in block 0 holds an entry for every mapped key. Its size is compared with
the block, key by key, for the tables that flushes leave behind.
-/

namespace KVStorage

set_option autoImplicit false

/-- An entry of the map for a data block: tag and length of the entry, the tagged key,
the tagged block number of one byte. -/
def entryBytes (key : Int32) : Nat := 5 + WireSize.int32 key

namespace InfoProto

/-- Everything but the map. -/
def tableBytes (info : InfoProto) : Nat :=
  (info.blockIndexTables.map fun b => 1 + WireSize.delimited (blockIndexSize b)).sum +
  (if info.blockUsageTable = [] then 0 else 1 + WireSize.delimited info.blockUsageTable.length) +
  (1 + WireSize.delimited (superBlockSize info.superBlock))

theorem keyBlockSize_eq (key : Int32) {block : SizeT} (h : block.toNat < 128) :
    1 + keyBlockSize key block = entryBytes key := by
  have hkey := WireSize.int32_le key
  have hblock : WireSize.uint64 block = 1 := WireSize.varint_small h
  unfold keyBlockSize WireSize.delimited entryBytes
  rw [hblock, WireSize.varint_small (by omega)]
  omega

theorem byteSizeLong_eq {info : InfoProto} (h : ∀ e ∈ info.keyBlockMap.entries, e.2.toNat < 128) :
    info.byteSizeLong = info.tableBytes + (info.keyBlockMap.keys.map entryBytes).sum := by
  have hmap : info.keyBlockMap.entries.map (fun e => 1 + keyBlockSize e.1 e.2) =
      info.keyBlockMap.keys.map entryBytes := by
    rw [SortedMap.keys, List.map_map]
    apply List.map_congr_left
    intro e he
    exact keyBlockSize_eq e.1 (h e he)
  unfold byteSizeLong tableBytes
  rw [hmap]
  omega

/-- The file offset where the message ends. -/
def indexBytes (info : InfoProto) : Nat :=
  8 + info.tableBytes + (info.keyBlockMap.keys.map entryBytes).sum

end InfoProto

namespace FileInfo

/-- The tables of a running program: its own superblock, and keys mapped to data blocks. -/
structure Live (time : Bytes) (fi : FileInfo) : Prop where
  superBlock : fi.superBlock = (new time).superBlock
  mapped : ∀ k b, fi.keyBlockMap.lookup k = some b → b.toNat < NUM_BLOCKS

variable {fi : FileInfo} {time : Bytes}

theorem new_live (time : Bytes) : (new time).Live time :=
  ⟨rfl, fun k b h => by simp [new] at h⟩

theorem Live.congr {fi' : FileInfo} (h : fi.Live time) (hs : fi'.superBlock = fi.superBlock)
    (hm : fi'.keyBlockMap = fi.keyBlockMap) : fi'.Live time :=
  ⟨hs.trans h.superBlock, fun k b hk => h.mapped k b (hm ▸ hk)⟩

theorem Live.getFreeBlock (h : fi.Live time) : fi.getFreeBlock.1.Live time := by
  refine h.congr ?_ (getFreeBlock_map fi)
  unfold FileInfo.getFreeBlock
  split <;> rfl

theorem mapKeys_superBlock (fi : FileInfo) (ks : List Int32) (b : SizeT) :
    (fi.mapKeys ks b).superBlock = fi.superBlock := by
  induction ks generalizing fi with
  | nil => rfl
  | cons k ks ih =>
    have hk : (fi.addKeyBlockMapping k b).superBlock = fi.superBlock := by
      unfold addKeyBlockMapping
      split <;> rfl
    exact (ih _).trans hk

theorem Live.mapKeys (h : fi.Live time) (ks : List Int32) {b : SizeT} (hb : b.toNat < NUM_BLOCKS) :
    (fi.mapKeys ks b).Live time := by
  constructor
  · rw [mapKeys_superBlock, h.superBlock]
  · intro k b' hk
    rw [mapKeys_lookup] at hk
    cases hold : fi.keyBlockMap.lookup k with
    | some c =>
      rw [hold, Option.some_or, Option.some.injEq] at hk
      rw [← hk]
      exact h.mapped k c hold
    | none =>
      rw [hold, Option.none_or] at hk
      split at hk
      · rw [Option.some.injEq] at hk
        rw [← hk]
        exact hb
      · simp at hk

theorem Live.flushed (h : fi.Live time) (ks : List Int32) {b : SizeT} (hb : b.toNat < NUM_BLOCKS)
    (freeSpace : SizeT) : (flushedInfo fi ks b freeSpace).Live time := by
  refine (h.mapKeys ks hb).congr ?_ (updateBlockInfo_map _ _ _)
  unfold flushedInfo updateBlockInfo
  split <;> rfl

/-- `asctime` gives 25 characters. -/
def timeLength : Nat := 25

theorem indexTables_le (fi : FileInfo) :
    (fi.toProto.blockIndexTables.map fun b =>
      1 + WireSize.delimited (InfoProto.blockIndexSize b)).sum ≤ 560 := by
  have hle := List.sum_le_card_nsmul (fi.toProto.blockIndexTables.map fun b =>
    1 + WireSize.delimited (InfoProto.blockIndexSize b)) 35 (by
      intro n hn
      obtain ⟨b, _, rfl⟩ := List.mem_map.mp hn
      have hb := InfoProto.blockIndexSize_le b
      rw [WireSize.delimited_small (by omega)]
      omega)
  rw [List.length_map, toProto, List.length_map, List.length_finRange] at hle
  exact hle

theorem usageTable_length (fi : FileInfo) : fi.toProto.blockUsageTable.length = 16 := by
  rw [toProto, List.length_map, List.length_finRange]
  rfl

theorem superBlockSize_new (time : Bytes) : InfoProto.superBlockSize (new time).superBlock =
    23 + if time = [] then 0 else 1 + WireSize.delimited time.length := by
  have hname : (if FILE_PATH = [] then 0 else 1 + WireSize.delimited FILE_PATH.length) = 10 := by decide
  have hfile : (if FILE_SIZE = 0 then 0 else 1 + WireSize.uint64 FILE_SIZE) = 6 := by decide
  have hblock : (if BLOCK_SIZE = 0 then 0 else 1 + WireSize.uint64 BLOCK_SIZE) = 5 := by decide
  have hnum : (if Int32.ofNat NUM_BLOCKS = 0 then 0 else 1 + WireSize.int32 (Int32.ofNat NUM_BLOCKS)) = 2 := by
    decide
  have hsum : InfoProto.superBlockSize (new time).superBlock =
      (if FILE_PATH = [] then 0 else 1 + WireSize.delimited FILE_PATH.length) +
      (if time = [] then 0 else 1 + WireSize.delimited time.length) +
      (if FILE_SIZE = 0 then 0 else 1 + WireSize.uint64 FILE_SIZE) +
      (if BLOCK_SIZE = 0 then 0 else 1 + WireSize.uint64 BLOCK_SIZE) +
      (if Int32.ofNat NUM_BLOCKS = 0 then 0 else 1 + WireSize.int32 (Int32.ofNat NUM_BLOCKS)) := rfl
  rw [hsum, hname, hfile, hblock, hnum]
  omega

theorem tableBytes_le (h : fi.Live time) (ht : time.length = timeLength) :
    fi.toProto.tableBytes ≤ 630 := by
  have hindex := fi.indexTables_le
  have husage := fi.usageTable_length
  have hne : fi.toProto.blockUsageTable ≠ [] := by
    intro hn
    rw [hn] at husage
    exact absurd husage (by decide)
  have htime : time ≠ [] := by
    rintro rfl
    exact absurd ht (by decide)
  have hsuper : InfoProto.superBlockSize fi.toProto.superBlock = 50 := by
    have hsb : fi.toProto.superBlock = (new time).superBlock := h.superBlock
    rw [hsb, superBlockSize_new, if_neg htime, ht]
    decide
  unfold InfoProto.tableBytes
  rw [if_neg hne, husage, hsuper, WireSize.delimited_small (by omega : 16 < 128),
    WireSize.delimited_small (by omega : 50 < 128)]
  omega

theorem keys_length_le (m : SortedMap Int32 SizeT) : m.keys.length ≤ 2 ^ 32 := by
  have hnodup : (m.keys.map fun k => k.toBitVec.toNat).Nodup := by
    apply m.keys_nodup.map
    intro k k' hk
    exact Int32.toBitVec.inj (BitVec.eq_of_toNat_eq hk)
  have hsub : (m.keys.map fun k => k.toBitVec.toNat).Subperm (List.range (2 ^ 32)) := by
    apply hnodup.subperm
    intro n hn
    obtain ⟨k, _, rfl⟩ := List.mem_map.mp hn
    exact List.mem_range.mpr k.toBitVec.isLt
  have hlen := hsub.length_le
  rwa [List.length_map, List.length_range] at hlen

theorem entries_sum_le (m : SortedMap Int32 SizeT) :
    (m.keys.map entryBytes).sum ≤ 15 * m.keys.length := by
  have hle := List.sum_le_card_nsmul (m.keys.map entryBytes) 15 (by
    intro n hn
    obtain ⟨k, _, rfl⟩ := List.mem_map.mp hn
    have hk := WireSize.int32_le k
    unfold entryBytes
    omega)
  have hmul : (m.keys.map entryBytes).length • 15 = m.keys.length * 15 := by
    rw [List.length_map]
    rfl
  omega

/-- A negative key takes ten bytes. -/
theorem entries_sum_negative {m : SortedMap Int32 SizeT} (h : ∀ k ∈ m.keys, k < 0) :
    (m.keys.map entryBytes).sum = 15 * m.keys.length := by
  have hfifteen : ∀ k ∈ m.keys, entryBytes k = 15 := by
    intro k hk
    unfold entryBytes WireSize.int32
    rw [if_pos (h k hk)]
  rw [List.map_congr_left hfifteen, List.map_const', List.sum_replicate]
  exact Nat.mul_comm _ _

theorem Live.byteSizeLong_eq (h : fi.Live time) :
    fi.toProto.byteSizeLong = fi.toProto.tableBytes + (fi.keyBlockMap.keys.map entryBytes).sum := by
  apply InfoProto.byteSizeLong_eq
  intro e he
  have hlt := h.mapped e.1 e.2 ((SortedMap.lookup_eq_some_iff _ _ _).mpr he)
  have hblocks : NUM_BLOCKS = 16 := by decide
  omega

/-- The size check of `writeToBlock0` on the tables of a running program: nothing wraps,
and the size is the closed form. -/
theorem Live.writeToBlock0_iff (h : fi.Live time) (ht : time.length = timeLength) :
    fi.writeToBlock0.2.isSome ↔ fi.writeToBlock0.1.toProto.indexBytes ≤ BLOCK_SIZE.toNat := by
  have hlive : fi.writeToBlock0.1.Live time := h.congr rfl rfl
  have hsize := hlive.byteSizeLong_eq
  have hmap : fi.writeToBlock0.1.toProto.keyBlockMap = fi.writeToBlock0.1.keyBlockMap := rfl
  have htable := tableBytes_le hlive ht
  have hkeys := keys_length_le fi.writeToBlock0.1.keyBlockMap
  have hsum := entries_sum_le fi.writeToBlock0.1.keyBlockMap
  rw [writeToBlock0_isSome_iff (by omega), InfoProto.indexBytes, hmap]
  omega

end FileInfo

namespace WriteSide

open FileInfo

variable {s : WriteSide} {time : Bytes}

theorem flush_live (h : s.fi.Live time) (freeSpace : SizeT) {freeBlock : SizeT}
    (hb : freeBlock = noBlock ∨ freeBlock.toNat < NUM_BLOCKS) :
    (s.flush freeSpace freeBlock).1.fi.Live time := by
  by_cases hn : freeBlock = noBlock
  · simp only [WriteSide.flush, Cache.flushToDisk, if_pos hn]
    exact h
  · simp only [WriteSide.flush, Cache.flushToDisk_eq _ _ _ _ _ hn]
    exact h.flushed _ (hb.resolve_left hn) freeSpace

theorem step_live (h : s.fi.Live time) (flips : Fin level → Bool) (op : CacheOp) :
    (s.step flips op).1.fi.Live time := by
  have hs := s.step_stepped flips op
  generalize s.step flips op = r at hs ⊢
  cases hs with
  | refused => exact h
  | put => exact h
  | park => exact h.getFreeBlock
  | putFlush => exact flush_live h.getFreeBlock _ (getFreeBlock_range s.fi)
  | del => exact h
  | flush => exact flush_live h.getFreeBlock _ (getFreeBlock_range s.fi)

theorem run_live (h : s.fi.Live time) (coins : Nat → Fin level → Bool) (ops : List CacheOp) :
    (s.run coins ops).1.fi.Live time := by
  induction ops generalizing s coins with
  | nil => exact h
  | cons op ops ih => exact ih (step_live h _ op) _

/-- Whatever was put, deleted and flushed, the size check passes exactly if the closed form
fits in a block, it passes for up to 4473881 keys of any kind, and otherwise block 0
keeps its image. -/
theorem index_fits_iff (time : Bytes) (ht : time.length = timeLength)
    (coins : Nat → Fin level → Bool) (ops : List CacheOp) :
    (((start (new time)).run coins ops).1.fi.writeToBlock0.2.isSome ↔
        ((start (new time)).run coins ops).1.fi.writeToBlock0.1.toProto.indexBytes ≤ BLOCK_SIZE.toNat) ∧
      (((start (new time)).run coins ops).1.fi.keyBlockMap.keys.length ≤ 4473881 →
        ((start (new time)).run coins ops).1.fi.writeToBlock0.2.isSome) ∧
      (BLOCK_SIZE.toNat < ((start (new time)).run coins ops).1.fi.writeToBlock0.1.toProto.indexBytes →
        ∀ image, savedImage ((start (new time)).run coins ops).1.fi image = image) := by
  have hlive := run_live (s := start (new time)) (new_live time) coins ops
  generalize ((start (new time)).run coins ops).1.fi = fi at hlive ⊢
  have hiff := hlive.writeToBlock0_iff ht
  refine ⟨hiff, ?_, ?_⟩
  · intro hkeys
    apply hiff.mpr
    have hlive' : fi.writeToBlock0.1.Live time := hlive.congr rfl rfl
    have htable := tableBytes_le hlive' ht
    have hsum := entries_sum_le fi.keyBlockMap
    have hmap : fi.writeToBlock0.1.toProto.keyBlockMap = fi.keyBlockMap := rfl
    rw [InfoProto.indexBytes, hmap, blockSize_toNat]
    omega
  · intro hlarge image
    unfold savedImage
    cases hw : fi.writeToBlock0.2 with
    | none => rw [Option.none_or]
    | some info =>
      have hfits := hiff.mp (by rw [hw]; rfl)
      omega

/-! ## Six blocks of negative keys -/

/-- The smallest keys, in order. -/
def lowKey (i : Nat) : Int32 := Int32.ofInt (-2147483648 + i)

/-- Puts that fill a block with 808541 nodes of 83 accounted bytes each. -/
def lowOps (m : Nat) : List CacheOp := (List.range m).map fun i => .put (lowKey i) [97]

theorem lowOps_succ (m : Nat) : lowOps (m + 1) = lowOps m ++ [.put (lowKey m) [97]] := by
  simp [lowOps, List.range_succ]

def lowEntries (first n : Nat) : List (Int32 × CppString) :=
  (List.range n).map fun i => (lowKey (first + i), CppString.ofBytes [97])

theorem lowEntries_succ (first n : Nat) :
    lowEntries first (n + 1) = lowEntries first n ++ [(lowKey (first + n), CppString.ofBytes [97])] := by
  simp [lowEntries, List.range_succ]

theorem lowKey_toInt {i : Nat} (h : i < 2147483648) : (lowKey i).toInt = -2147483648 + i :=
  Int32.toInt_ofInt_of_le (by omega) (by omega)

theorem lowKey_lt {i j : Nat} (hij : i < j) (hj : j < 2147483648) : lowKey i < lowKey j := by
  rw [Int32.lt_iff_toInt_lt, lowKey_toInt (by omega), lowKey_toInt hj]
  omega

theorem lowKey_negative {i : Nat} (h : i < 2147483648) : lowKey i < 0 := by
  rw [Int32.lt_iff_toInt_lt, lowKey_toInt h]
  have h0 : (0 : Int32).toInt = 0 := rfl
  omega

/-- `b` blocks are flushed and `n` nodes are in the cache. -/
structure Filled (s : WriteSide) (b n : Nat) : Prop where
  parked : s.parked = false
  size : s.cache.currentSize = UInt64.ofNat (83 * n)
  entries : s.cache.RWcache.contents.entries = lowEntries (b * 808541) n
  usage : s.fi.blockUsageTable = fun i => decide (i.val ≤ b)
  mapped : ∀ k, (s.fi.keyBlockMap.lookup k).isSome ↔ ∃ i, i < b * 808541 ∧ lowKey i = k

variable {b n : Nat}

theorem Filled.add (h : s.Filled b n) (hb : b ≤ 6) (hn : n ≤ 808540) :
    (s.cache.RWcache.contents.add (lowKey (b * 808541 + n)) [97]).entries =
        lowEntries (b * 808541) (n + 1) ∧
      s.cache.currentSize + s.cache.RWcache.contents.addSize (lowKey (b * 808541 + n)) [97] =
        UInt64.ofNat (83 * (n + 1)) := by
  have hlt : ∀ e ∈ lowEntries (b * 808541) n, e.1 < lowKey (b * 808541 + n) := by
    intro e he
    obtain ⟨i, hi, rfl⟩ := List.mem_map.mp he
    have hin := List.mem_range.mp hi
    exact lowKey_lt (by omega) (by omega)
  have habsent : s.cache.RWcache.contents.lookup (lowKey (b * 808541 + n)) = none := by
    rw [SortedMap.lookup_eq_none_iff, SortedMap.keys, h.entries]
    intro hk
    obtain ⟨e, he, hek⟩ := List.mem_map.mp hk
    exact (hlt e he).ne hek
  constructor
  · have hsplit : s.cache.RWcache.contents.entries = lowEntries (b * 808541) n ++ [] := by
      rw [h.entries, List.append_nil]
    rw [Contents.add, SortedMap.insert_entries_new _ hsplit hlt (by simp), Contents.stored, habsent,
      lowEntries_succ]
  · rw [Contents.addSize, habsent, h.size, Nat.mul_add, UInt64.ofNat_add]
    congr 1

theorem Filled.put_small (h : s.Filled b n) (hb : b ≤ 6) (hn : n < 808540) (flips : Fin level → Bool) :
    (s.step flips (.put (lowKey (b * 808541 + n)) [97])).1.Filled b (n + 1) := by
  obtain ⟨hentries, hsize⟩ := h.add hb hn.le
  have hsmall : ¬s.cache.currentSize +
      s.cache.RWcache.contents.addSize (lowKey (b * 808541 + n)) [97] > CACHE_SIZE := by
    rw [hsize, gt_iff_lt, UInt64.lt_iff_toNat_lt, cacheSize_toNat, UInt64.toNat_ofNat',
      Nat.mod_eq_of_lt (by omega)]
    omega
  rw [step_put_small flips h.parked hsmall]
  refine ⟨h.parked, ?_, ?_, h.usage, h.mapped⟩
  · rw [Cache.put_size, hsize]
  · rw [Cache.put_contents, hentries]

theorem getFreeBlock_next (fi : FileInfo) (h : fi.blockUsageTable = fun i => decide (i.val ≤ b))
    (hb : b < 6) :
    fi.getFreeBlock.2 = UInt64.ofNat (b + 1) ∧
      fi.getFreeBlock.1.blockUsageTable = fun i => decide (i.val ≤ b + 1) := by
  have hfind : ∀ b < 6, ∃ j : Fin NUM_BLOCKS, j.val = b + 1 ∧
      ((List.finRange NUM_BLOCKS).find? fun i => !decide (i.val ≤ b)) = some j := by decide
  obtain ⟨j, hj, hfound⟩ := hfind b hb
  unfold FileInfo.getFreeBlock
  simp only [h, hfound]
  refine ⟨by rw [hj], ?_⟩
  funext i
  rw [Function.update_apply]
  by_cases hi : i = j
  · rw [if_pos hi, hi, hj]
    simp
  · have hne : i.val ≠ b + 1 := fun he => hi (Fin.ext (he.trans hj.symm))
    rw [if_neg hi]
    apply decide_eq_decide.mpr
    omega

theorem step_put_flushed {key : Int32} {value : Bytes} (flips : Fin level → Bool)
    (hp : s.parked = false)
    (h : s.cache.currentSize + s.cache.RWcache.contents.addSize key value > CACHE_SIZE)
    (hfree : s.fi.getFreeBlock.2 ≠ noBlock) :
    ∃ freeSpace, (s.step flips (.put key value)).1.parked = false ∧
      (s.step flips (.put key value)).1.cache.currentSize = 0 ∧
      (s.step flips (.put key value)).1.cache.RWcache.contents = SortedMap.empty ∧
      (s.step flips (.put key value)).1.fi = flushedInfo s.fi.getFreeBlock.1
        (s.cache.RWcache.contents.add key value).keys s.fi.getFreeBlock.2 freeSpace := by
  simp only [step, hp, Cache.put, ValidList.add_size, if_pos h, if_neg hfree, flush,
    Cache.flushToDisk_eq _ _ _ _ _ hfree, Bool.false_eq_true, if_false]
  exact ⟨_, trivial, trivial, rfl, rfl⟩

theorem Filled.put_large (h : s.Filled b 808540) (hb : b < 6) (flips : Fin level → Bool) :
    (s.step flips (.put (lowKey (b * 808541 + 808540)) [97])).1.Filled (b + 1) 0 := by
  obtain ⟨hentries, hsize⟩ := h.add hb.le le_rfl
  obtain ⟨hfree, husage⟩ := getFreeBlock_next s.fi h.usage hb
  have hlarge : s.cache.currentSize +
      s.cache.RWcache.contents.addSize (lowKey (b * 808541 + 808540)) [97] > CACHE_SIZE := by
    rw [hsize]
    decide
  have hblocks : ∀ b < 6, UInt64.ofNat (b + 1) ≠ noBlock := by decide
  have hblock : s.fi.getFreeBlock.2 ≠ noBlock := hfree ▸ hblocks b hb
  obtain ⟨freeSpace, hparked, hzero, hempty, hfi⟩ := step_put_flushed flips h.parked hlarge hblock
  refine ⟨hparked, hzero, by rw [hempty]; rfl, ?_, ?_⟩
  · rw [hfi, flushedInfo_usage, husage]
  · intro k
    have hold := h.mapped k
    rw [hfi, flushedInfo_lookup, FileInfo.getFreeBlock_map, SortedMap.keys, hentries, lowEntries,
      List.map_map]
    have hmem : k ∈ (List.range (808540 + 1)).map (Prod.fst ∘ fun i =>
        (lowKey (b * 808541 + i), CppString.ofBytes [97])) ↔
          ∃ i, i < 808540 + 1 ∧ lowKey (b * 808541 + i) = k := by
      simp only [List.mem_map, List.mem_range, Function.comp_apply]
    constructor
    · intro hk
      cases hl : s.fi.keyBlockMap.lookup k with
      | some c =>
        rw [hl] at hold
        obtain ⟨i, hi, hik⟩ := hold.mp rfl
        exact ⟨i, hi.trans_le (Nat.mul_le_mul_right 808541 (Nat.le_succ b)), hik⟩
      | none =>
        rw [hl, Option.none_or] at hk
        split at hk
        · obtain ⟨i, hi, hik⟩ := hmem.mp ‹_›
          exact ⟨b * 808541 + i, by omega, hik⟩
        · simp at hk
    · rintro ⟨i, hi, hik⟩
      by_cases hib : i < b * 808541
      · have hsome := hold.mpr ⟨i, hib, hik⟩
        rw [Option.isSome_or, hsome, Bool.true_or]
      · have hin : k ∈ (List.range (808540 + 1)).map (Prod.fst ∘ fun i =>
            (lowKey (b * 808541 + i), CppString.ofBytes [97])) := by
          apply hmem.mpr
          refine ⟨i - b * 808541, by omega, ?_⟩
          have he : b * 808541 + (i - b * 808541) = i := by omega
          rw [he, hik]
        rw [Option.isSome_or, if_pos hin, Option.isSome_some, Bool.or_true]

theorem run_lowOps (time : Bytes) (m : Nat) : ∀ b n, m = b * 808541 + n → n ≤ 808540 → b ≤ 6 →
    ((start (new time)).run (fun _ _ => true) (lowOps m)).1.Filled b n := by
  induction m with
  | zero =>
    intro b n hm hn hb
    obtain rfl : b = 0 := by omega
    obtain rfl : n = 0 := by omega
    refine ⟨rfl, rfl, rfl, ?_, ?_⟩
    · funext i
      apply decide_eq_decide.mpr
      omega
    · intro k
      constructor
      · intro h
        simp [lowOps, WriteSide.run, start, new] at h
      · rintro ⟨i, hi, _⟩
        omega
  | succ m ih =>
    intro b n hm hn hb
    rw [lowOps_succ, run_append, run_singleton]
    cases n with
    | zero =>
      obtain ⟨b, rfl⟩ : ∃ b', b = b' + 1 := ⟨b - 1, by omega⟩
      have hm' : m = b * 808541 + 808540 := by omega
      have hlast := (ih b 808540 hm' le_rfl (by omega)).put_large (by omega) fun _ => true
      rwa [← hm'] at hlast
    | succ n =>
      have hm' : m = b * 808541 + n := by omega
      have hlast := (ih b n hm' (by omega) hb).put_small hb (by omega) fun _ => true
      rwa [← hm'] at hlast

theorem lowKeys_nodup {N : Nat} (hN : N ≤ 2147483648) : ((List.range N).map lowKey).Nodup := by
  apply List.Nodup.map_on _ List.nodup_range
  intro i hi j hj hij
  have hi' := List.mem_range.mp hi
  have hj' := List.mem_range.mp hj
  have he := congrArg Int32.toInt hij
  rw [lowKey_toInt (by omega), lowKey_toInt (by omega)] at he
  omega

theorem lowKey_count {m : SortedMap Int32 SizeT} {N : Nat} (hN : N ≤ 2147483648)
    (h : ∀ i < N, (m.lookup (lowKey i)).isSome) : N ≤ m.keys.length := by
  have hsub : ((List.range N).map lowKey).Subperm m.keys := by
    apply (lowKeys_nodup hN).subperm
    intro k hk
    obtain ⟨i, hi, rfl⟩ := List.mem_map.mp hk
    exact (m.mem_keys_iff _).mpr (Option.isSome_iff_exists.mp (h i (List.mem_range.mp hi)))
  have hlen := hsub.length_le
  rwa [List.length_map, List.length_range] at hlen

theorem Filled.index_overflows (h : s.Filled b 0) (hb : b = 6) (hl : s.fi.Live time)
    (ht : time.length = timeLength) : s.fi.writeToBlock0.2 = none := by
  have hcount := lowKey_count (N := b * 808541) (by omega) fun i hi => (h.mapped _).mpr ⟨i, hi, rfl⟩
  have hnegative : ∀ k ∈ s.fi.keyBlockMap.keys, k < 0 := by
    intro k hk
    obtain ⟨v, hv⟩ := (s.fi.keyBlockMap.mem_keys_iff k).mp hk
    obtain ⟨i, hi, rfl⟩ := (h.mapped k).mp (by rw [hv]; rfl)
    exact lowKey_negative (by omega)
  have hsum := entries_sum_negative hnegative
  rw [← Option.not_isSome_iff_eq_none, hl.writeToBlock0_iff ht]
  have hmap : s.fi.writeToBlock0.1.toProto.keyBlockMap = s.fi.keyBlockMap := rfl
  rw [InfoProto.indexBytes, hmap, hsum, blockSize_toNat]
  omega

theorem lowOps_overflow (time : Bytes) (ht : time.length = timeLength) {m : Nat} (hm : m = 4851246) :
    ((start (new time)).run (fun _ _ => true) (lowOps m)).1.fi.writeToBlock0.2 = none := by
  have hfilled := run_lowOps time m 6 0 (by omega) (by omega) le_rfl
  exact hfilled.index_overflows rfl (run_live (new_live time) _ _) ht

/-- "Thu Jan  1 00:00:00 1970" and a line feed. -/
def epoch : Bytes :=
  [84, 104, 117, 32, 74, 97, 110, 32, 32, 49, 32, 48, 48, 58, 48, 48, 58, 48, 48, 32, 49, 57, 55, 48, 10]

theorem index_fits_one_key :
    ((start (new epoch)).run (fun _ _ => true) [.put 1 [97], .flush]).1.fi.writeToBlock0.2.isSome :=
  (index_fits_iff epoch (by decide) (fun _ _ => true) [.put 1 [97], .flush]).2.1 (by decide +kernel)

/-- 4851246 puts of negative keys fill six blocks, and the index of their keys is refused. -/
theorem index_of_six_blocks_refused :
    ((start (new epoch)).run (fun _ _ => true) (lowOps 4851246)).1.fi.writeToBlock0.2 = none :=
  lowOps_overflow epoch rfl rfl

end WriteSide

end KVStorage

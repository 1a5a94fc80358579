import KVStorage.BlockBytes

/-!
# Where a flush writes

`put` flushes by its own estimate of the size, while the file holds the protobuf
encoding, and a flush writes at the offset of its block without a bound.
-/

namespace KVStorage

set_option autoImplicit false

/-- A call on the write cache; `flush` is the one of `signalHandler`. -/
inductive CacheOp where
  | put (key : Int32) (value : Bytes)
  | del (key : Int32)
  | flush

/-- A write of a block: the list that `serialize` was given. -/
structure BlockWrite where
  block : SizeT
  list : ValidList

namespace BlockWrite

/-- The file offset of the length prefix. -/
def start (w : BlockWrite) : Nat := (w.block * CACHE_SIZE).toNat

def bytes (w : BlockWrite) : Nat := 8 + w.list.serializedSize

def Inside (w : BlockWrite) : Prop :=
  w.block.toNat * BLOCK_SIZE.toNat ≤ w.start ∧
    w.start + w.bytes ≤ (w.block.toNat + 1) * BLOCK_SIZE.toNat

end BlockWrite

/-- The write cache, its tables, and whether a flush holds the write lock in a queue
that no worker serves. -/
structure WriteSide where
  cache : Cache
  fi : FileInfo
  parked : Bool

namespace WriteSide

def start (fi : FileInfo) : WriteSide := ⟨Cache.new, fi, false⟩

/-- `flushToDisk` with the writes it makes. -/
def flush (s : WriteSide) (freeSpace freeBlock : SizeT) : WriteSide × List BlockWrite :=
  let r := s.cache.flushToDisk s.fi (fun _ => none) freeSpace freeBlock
  ({ s with cache := r.1, fi := r.2.1 },
    if freeBlock = noBlock then [] else [⟨freeBlock, s.cache.RWcache⟩])

/-- One call. The flush a `put` queues is done before the next call gets the write
lock, unless there is no block: then its queue has no worker. -/
def step (s : WriteSide) (flips : Fin level → Bool) : CacheOp → WriteSide × List BlockWrite
  | .put key value =>
    if s.parked then (s, [])
    else
      let r := s.cache.put s.fi key value flips
      let s := { s with cache := r.1, fi := r.2.1 }
      match r.2.2 with
      | none => (s, [])
      | some task =>
        if task.freeBlock = noBlock then ({ s with parked := true }, [])
        else s.flush task.freeSpace task.freeBlock
  | .del key =>
    if s.parked then (s, [])
    else
      let r := s.cache.delWrite s.fi key
      ({ s with cache := r.1, fi := r.2.1 }, [])
  | .flush =>
    let r := s.fi.getFreeBlock
    { s with fi := r.1 }.flush (CACHE_SIZE - s.cache.currentSize) r.2

/-- A run; `coins n` are the coin flips of the n-th call. -/
def run (s : WriteSide) (coins : Nat → Fin level → Bool) : List CacheOp → WriteSide × List BlockWrite
  | [] => (s, [])
  | op :: ops =>
    let r := s.step (coins 0) op
    let r' := r.1.run (fun n => coins (n + 1)) ops
    (r'.1, r.2 ++ r'.2)

/-- The contents of the cache at each flush of a run. Coin flips do not move it. -/
def flushedContents (fi : FileInfo) (ops : List CacheOp) : List Contents :=
  ((start fi).run (fun _ _ => true) ops).2.map fun w => w.list.contents

/-- The states agree in everything but the towers of their lists. -/
structure Same (s s' : WriteSide) : Prop where
  contents : s.cache.RWcache.contents = s'.cache.RWcache.contents
  size : s.cache.currentSize = s'.cache.currentSize
  fi : s.fi = s'.fi
  parked : s.parked = s'.parked

def SameWrites (ws ws' : List BlockWrite) : Prop :=
  ws.map (fun w => (w.block, w.list.contents)) = ws'.map fun w => (w.block, w.list.contents)

variable {s s' : WriteSide}

theorem Same.flush (h : Same s s') (freeSpace freeBlock : SizeT) :
    Same (s.flush freeSpace freeBlock).1 (s'.flush freeSpace freeBlock).1 ∧
      SameWrites (s.flush freeSpace freeBlock).2 (s'.flush freeSpace freeBlock).2 := by
  by_cases hb : freeBlock = noBlock
  · simp only [WriteSide.flush, Cache.flushToDisk, if_pos hb]
    exact ⟨⟨h.contents, h.size, h.fi, h.parked⟩, rfl⟩
  · simp only [WriteSide.flush, Cache.flushToDisk_eq _ _ _ _ _ hb, if_neg hb]
    refine ⟨⟨rfl, rfl, ?_, h.parked⟩, ?_⟩
    · rw [h.contents, h.fi]
    · simp only [SameWrites, List.map_cons, h.contents]

theorem Same.put (h : Same s s') (key : Int32) (value : Bytes) (flips flips' : Fin level → Bool) :
    (s.cache.put s.fi key value flips).1.currentSize = (s'.cache.put s'.fi key value flips').1.currentSize ∧
      (s.cache.put s.fi key value flips).2 = (s'.cache.put s'.fi key value flips').2 := by
  refine ⟨by rw [Cache.put_size, Cache.put_size, h.contents, h.size], ?_⟩
  simp only [Cache.put, ValidList.add_size, h.contents, h.size, h.fi]
  split <;> rfl

theorem Same.step (h : Same s s') (flips flips' : Fin level → Bool) (op : CacheOp) :
    Same (s.step flips op).1 (s'.step flips' op).1 ∧
      SameWrites (s.step flips op).2 (s'.step flips' op).2 := by
  cases op with
  | put key value =>
    obtain ⟨hsize, hrest⟩ := h.put key value flips flips'
    have hsame : Same
        { s with cache := (s.cache.put s.fi key value flips).1, fi := (s.cache.put s.fi key value flips).2.1 }
        { s' with cache := (s'.cache.put s'.fi key value flips').1
                  fi := (s'.cache.put s'.fi key value flips').2.1 } := by
      refine ⟨?_, hsize, by rw [hrest], h.parked⟩
      rw [Cache.put_contents, Cache.put_contents, h.contents]
    simp only [WriteSide.step, h.parked]
    by_cases hp : s'.parked = true
    · simp only [if_pos hp]
      exact ⟨h, rfl⟩
    · simp only [if_neg hp, hrest]
      cases ht : (s'.cache.put s'.fi key value flips').2.2 with
      | none =>
        rw [hrest] at hsame
        exact ⟨⟨hsame.contents, hsame.size, rfl, rfl⟩, rfl⟩
      | some task =>
        by_cases hb : task.freeBlock = noBlock
        · simp only [if_pos hb]
          exact ⟨⟨hsame.contents, hsame.size, rfl, rfl⟩, rfl⟩
        · simp only [if_neg hb]
          apply Same.flush
          exact ⟨hsame.contents, hsame.size, rfl, rfl⟩
  | del key =>
    simp only [WriteSide.step, h.parked]
    by_cases hp : s'.parked = true
    · simp only [if_pos hp]
      exact ⟨h, rfl⟩
    · simp only [if_neg hp]
      refine ⟨⟨?_, ?_, ?_, rfl⟩, rfl⟩
      · apply SortedMap.ext_lookup
        intro k
        simp only [Cache.delWrite, Cache.delhander_contents_lookup, h.contents]
      · simp only [Cache.delWrite, Cache.delhander, ValidList.erase_size, h.contents]
        split <;> simp [h.size]
      · simp only [Cache.delWrite, Cache.delhander_write_fi, h.fi]
  | flush =>
    simp only [WriteSide.step, h.fi, h.size]
    apply Same.flush
    exact ⟨h.contents, h.size, rfl, h.parked⟩

theorem Same.run (h : Same s s') (coins coins' : Nat → Fin level → Bool) (ops : List CacheOp) :
    SameWrites (s.run coins ops).2 (s'.run coins' ops).2 := by
  induction ops generalizing s s' coins coins' with
  | nil => rfl
  | cons op ops ih =>
    obtain ⟨hs, hw⟩ := h.step (coins 0) (coins' 0) op
    have hrest := ih hs (fun n => coins (n + 1)) fun n => coins' (n + 1)
    simp only [SameWrites, WriteSide.run, List.map_append] at hw hrest ⊢
    rw [hw, hrest]

/-- What is flushed under any coin flips is flushed under the fixed ones. -/
theorem contents_mem_flushed (fi : FileInfo) (coins : Nat → Fin level → Bool) (ops : List CacheOp)
    {w : BlockWrite} (hw : w ∈ ((start fi).run coins ops).2) :
    w.list.contents ∈ flushedContents fi ops := by
  have hsame := Same.run (⟨rfl, rfl, rfl, rfl⟩ : Same (start fi) (start fi)) coins
    (fun _ _ => true) ops
  have hm : (w.block, w.list.contents) ∈ ((start fi).run (fun _ _ => true) ops).2.map
      fun w => (w.block, w.list.contents) := hsame ▸ List.mem_map_of_mem hw
  obtain ⟨w', hw', he⟩ := List.mem_map.mp hm
  have hc : w'.list.contents = w.list.contents := congrArg Prod.snd he
  exact hc ▸ List.mem_map_of_mem hw'

theorem flush_block (freeSpace freeBlock : SizeT)
    (hb : freeBlock = noBlock ∨ freeBlock.toNat < NUM_BLOCKS) :
    ∀ w ∈ (s.flush freeSpace freeBlock).2, w.block.toNat < NUM_BLOCKS := by
  intro w hw
  unfold WriteSide.flush at hw
  by_cases hn : freeBlock = noBlock
  · simp [hn] at hw
  · simp only [if_neg hn, List.mem_singleton] at hw
    subst hw
    exact hb.resolve_left hn

theorem getFreeBlock_range (fi : FileInfo) :
    fi.getFreeBlock.2 = noBlock ∨ fi.getFreeBlock.2.toNat < NUM_BLOCKS := by
  by_cases hn : fi.getFreeBlock.2 = noBlock
  · exact Or.inl hn
  · exact Or.inr (FileInfo.getFreeBlock_spec hn).1

/-- What one call does: the state it leaves and the blocks it writes. -/
inductive Stepped (s : WriteSide) (flips : Fin level → Bool) : CacheOp → WriteSide × List BlockWrite → Prop where
  | refused {op : CacheOp} (parked : s.parked = true) : Stepped s flips op (s, [])
  | put {key : Int32} {value : Bytes} (small : (s.cache.put s.fi key value flips).2.2 = none) :
      Stepped s flips (.put key value) ({ s with cache := (s.cache.put s.fi key value flips).1 }, [])
  | park {key : Int32} {value : Bytes} (full : s.fi.getFreeBlock.2 = noBlock) :
      Stepped s flips (.put key value)
        ({ cache := (s.cache.put s.fi key value flips).1, fi := s.fi.getFreeBlock.1, parked := true }, [])
  | putFlush {key : Int32} {value : Bytes} {freeSpace : SizeT} (free : s.fi.getFreeBlock.2 ≠ noBlock) :
      Stepped s flips (.put key value)
        (({ s with cache := (s.cache.put s.fi key value flips).1, fi := s.fi.getFreeBlock.1 } : WriteSide).flush
          freeSpace s.fi.getFreeBlock.2)
  | del {key : Int32} :
      Stepped s flips (.del key) ({ s with cache := (s.cache.delhander s.fi key none).1 }, [])
  | flush : Stepped s flips .flush
      (({ s with fi := s.fi.getFreeBlock.1 } : WriteSide).flush (CACHE_SIZE - s.cache.currentSize)
        s.fi.getFreeBlock.2)

theorem step_stepped (s : WriteSide) (flips : Fin level → Bool) (op : CacheOp) :
    s.Stepped flips op (s.step flips op) := by
  cases op with
  | put key value =>
    by_cases hp : s.parked = true
    · rw [WriteSide.step, if_pos hp]
      exact .refused hp
    · rw [WriteSide.step, if_neg hp]
      rcases s.cache.put_cases s.fi key value flips with ⟨hfi, hnone⟩ | ⟨hfi, task, hsome, hblock⟩
      · simp only [hfi, hnone]
        exact .put hnone
      · simp only [hfi, hsome, hblock]
        by_cases hb : s.fi.getFreeBlock.2 = noBlock
        · rw [if_pos hb]
          exact .park hb
        · rw [if_neg hb]
          exact .putFlush hb
  | del key =>
    by_cases hp : s.parked = true
    · rw [WriteSide.step, if_pos hp]
      exact .refused hp
    · rw [WriteSide.step, if_neg hp]
      simp only [Cache.delWrite, Cache.delhander_write_fi]
      exact .del
  | flush => exact .flush

theorem step_block (flips : Fin level → Bool) (op : CacheOp) :
    ∀ w ∈ (s.step flips op).2, w.block.toNat < NUM_BLOCKS := by
  have hs := s.step_stepped flips op
  generalize s.step flips op = r at hs ⊢
  cases hs with
  | refused => simp
  | put => simp
  | park => simp
  | putFlush => exact flush_block _ _ (getFreeBlock_range s.fi)
  | del => simp
  | flush => exact flush_block _ _ (getFreeBlock_range s.fi)

theorem run_block (coins : Nat → Fin level → Bool) (ops : List CacheOp) :
    ∀ w ∈ (s.run coins ops).2, w.block.toNat < NUM_BLOCKS := by
  induction ops generalizing s coins with
  | nil => simp [WriteSide.run]
  | cons op ops ih =>
    intro w hw
    rcases List.mem_append.mp hw with hw | hw
    · exact step_block _ _ w hw
    · exact ih _ w hw

theorem flush_flat (s : WriteSide) (h : s.cache.RWcache.Flat) (freeSpace freeBlock : SizeT) :
    (s.flush freeSpace freeBlock).1.cache.RWcache.Flat ∧
      ∀ w ∈ (s.flush freeSpace freeBlock).2, w.list.Flat := by
  by_cases hb : freeBlock = noBlock
  · simp only [WriteSide.flush, Cache.flushToDisk, if_pos hb]
    exact ⟨h, by simp⟩
  · simp only [WriteSide.flush, Cache.flushToDisk, if_neg hb]
    exact ⟨ValidList.clear_flat _, by simpa using h⟩

theorem put_flat (h : s.cache.RWcache.Flat) (key : Int32) (value : Bytes) :
    (s.cache.put s.fi key value fun _ => true).1.RWcache.Flat := by
  have hadd := h.add key value
  simp only [Cache.put]
  split <;> exact hadd

theorem step_flat (h : s.cache.RWcache.Flat) (op : CacheOp) :
    (s.step (fun _ => true) op).1.cache.RWcache.Flat ∧
      ∀ w ∈ (s.step (fun _ => true) op).2, w.list.Flat := by
  have hs := s.step_stepped (fun _ => true) op
  generalize s.step (fun _ => true) op = r at hs ⊢
  cases hs with
  | refused => exact ⟨h, by simp⟩
  | put => exact ⟨put_flat h _ _, by simp⟩
  | park => exact ⟨put_flat h _ _, by simp⟩
  | putFlush => exact flush_flat _ (put_flat h _ _) _ _
  | @del key =>
    refine ⟨?_, by simp⟩
    have herase := h.erase key
    simp only [Cache.delhander]
    split
    · exact h
    · exact herase
  | flush => exact flush_flat { s with fi := s.fi.getFreeBlock.1 } h _ _

theorem run_cache_flat (h : s.cache.RWcache.Flat) (ops : List CacheOp) :
    (s.run (fun _ _ => true) ops).1.cache.RWcache.Flat := by
  induction ops generalizing s with
  | nil => exact h
  | cons op ops ih => exact ih (step_flat h op).1

theorem run_flat (h : s.cache.RWcache.Flat) (ops : List CacheOp) :
    ∀ w ∈ (s.run (fun _ _ => true) ops).2, w.list.Flat := by
  induction ops generalizing s with
  | nil => simp [WriteSide.run]
  | cons op ops ih =>
    obtain ⟨hs, hw⟩ := step_flat h op
    intro w hm
    rcases List.mem_append.mp hm with hm | hm
    · exact hw w hm
    · exact ih hs w hm

end WriteSide

theorem BlockWrite.inside_iff {w : BlockWrite} (h : w.block.toNat < NUM_BLOCKS) :
    w.Inside ↔ w.bytes ≤ BLOCK_SIZE.toNat := by
  have hlt : w.block.toNat < 16 := h
  have hstart : w.start = w.block.toNat * 67108864 := by
    unfold BlockWrite.start
    rw [UInt64.toNat_mul, cacheSize_toNat]
    omega
  unfold BlockWrite.Inside
  rw [hstart, blockSize_toNat]
  omega

/-- For every sequence of calls, all writes stay inside their blocks for all coin
flips exactly when the closed form fits in a block at every flush. -/
theorem WriteSide.writes_inside_iff (fi : FileInfo) (ops : List CacheOp) :
    (∀ coins, ∀ w ∈ ((start fi).run coins ops).2, w.Inside) ↔
      ∀ m ∈ flushedContents fi ops, worstBytes m ≤ BLOCK_SIZE.toNat := by
  constructor
  · intro h m hm
    obtain ⟨w, hw, rfl⟩ := List.mem_map.mp hm
    have hfits := (BlockWrite.inside_iff (run_block _ ops w hw)).mp (h _ w hw)
    have hflat := run_flat ValidList.new_flat ops w hw
    rw [← hflat.serializedSize]
    exact hfits
  · intro h coins w hw
    apply (BlockWrite.inside_iff (run_block _ ops w hw)).mpr
    have hworst := h _ (contents_mem_flushed fi coins ops hw)
    exact w.list.serializedSize_le.trans hworst

/-! ## A block that is written too far -/

def longValue : Bytes := List.replicate 1000 97

/-- Puts of long values under the keys 0, 1, ... -/
def fillOps (n : Nat) : List CacheOp := (List.range n).map fun i => .put (Int32.ofNat i) longValue

theorem fillOps_succ (n : Nat) : fillOps (n + 1) = fillOps n ++ [.put (Int32.ofNat n) longValue] := by
  simp [fillOps, List.range_succ]

def filled (n : Nat) : List (Int32 × CppString) :=
  (List.range n).map fun i => (Int32.ofNat i, CppString.ofBytes longValue)

theorem filled_succ (n : Nat) :
    filled (n + 1) = filled n ++ [(Int32.ofNat n, CppString.ofBytes longValue)] := by
  simp [filled, List.range_succ]

theorem filled_lt {n : Nat} (hn : n < 2 ^ 31) : ∀ e ∈ filled n, e.1 < Int32.ofNat n := by
  intro e he
  obtain ⟨i, hi, rfl⟩ := List.mem_map.mp he
  have hin : i < n := List.mem_range.mp hi
  rw [Int32.lt_iff_toInt_lt, Int32.toInt_ofNat_of_lt hn, Int32.toInt_ofNat_of_lt (by omega)]
  omega

theorem filled_add {m : Contents} {n : Nat} (hn : n < 2 ^ 31) (hm : m.entries = filled n) :
    (m.add (Int32.ofNat n) longValue).entries = filled (n + 1) ∧
      m.addSize (Int32.ofNat n) longValue = 1068 := by
  have habsent : m.lookup (Int32.ofNat n) = none := by
    rw [SortedMap.lookup_eq_none_iff, SortedMap.keys, hm]
    intro hk
    obtain ⟨e, he, hek⟩ := List.mem_map.mp hk
    exact (filled_lt hn e he).ne hek
  constructor
  · have hsplit : m.entries = filled n ++ [] := by rw [hm, List.append_nil]
    rw [Contents.add, SortedMap.insert_entries_new _ hsplit (filled_lt hn) (by simp), Contents.stored,
      habsent, filled_succ]
  · rw [Contents.addSize, habsent]
    have hlength : longValue.length = 1000 := List.length_replicate
    simp only [Skiplist.nodeSize, CppString.ofBytes, hlength]
    decide

/-- The cache holds 62836 of the long values. -/
theorem filled_size {n : Nat} (hn : n < 62836) :
    UInt64.ofNat (1068 * n) + 1068 = UInt64.ofNat (1068 * (n + 1)) ∧
      ¬UInt64.ofNat (1068 * (n + 1)) > CACHE_SIZE := by
  constructor
  · rw [Nat.mul_add, UInt64.ofNat_add]
    rfl
  · rw [gt_iff_lt, UInt64.lt_iff_toNat_lt, cacheSize_toNat, UInt64.toNat_ofNat',
      Nat.mod_eq_of_lt (by omega)]
    omega

theorem entriesBytes_filled (es : List (Int32 × CppString)) (h : ∀ e ∈ es, e.2.data.length = 1000) :
    1079 * es.length ≤ entriesBytes es := by
  induction es with
  | nil => simp [entriesBytes]
  | cons e es ih =>
    have hrest := ih fun e' he' => h e' (List.mem_cons_of_mem e he')
    have hlinks := WireSize.int32_pos ((es.head?.map Prod.fst).getD (-2))
    have hvalue : WireSize.varint 1000 = 2 := by decide
    have hfields : ∀ n, 128 ≤ n → 2 ≤ WireSize.varint n := fun n hn => WireSize.le_varint (d := 1) hn
    have hpos := WireSize.varint_pos (WireSize.int32 ((es.head?.map Prod.fst).getD (-2)) + 7 * 10)
    have hnode : 1079 ≤ nodeBytes e.1 1000 (es.head?.map Prod.fst) := by
      unfold nodeBytes
      simp only [WireSize.delimited, hvalue, if_neg (by decide : ¬(1000 : Nat) = 0)]
      refine le_trans ?_ (Nat.add_le_add_left (Nat.add_le_add_left (hfields _ ?_) _) _)
      · omega
      · omega
    simp only [entriesBytes, List.length_cons, h e List.mem_cons_self]
    omega

namespace WriteSide

theorem run_append (s : WriteSide) (coins : Nat → Fin level → Bool) (xs ys : List CacheOp) :
    s.run coins (xs ++ ys) =
      (((s.run coins xs).1.run (fun n => coins (n + xs.length)) ys).1,
        (s.run coins xs).2 ++ ((s.run coins xs).1.run (fun n => coins (n + xs.length)) ys).2) := by
  induction xs generalizing s coins with
  | nil => rfl
  | cons x xs ih =>
    simp only [List.cons_append, WriteSide.run, ih, List.append_assoc, List.length_cons]
    have hshift : (fun n => coins (n + (xs.length + 1))) = fun n => coins (n + xs.length + 1) := rfl
    rw [hshift]

theorem step_put_small {s : WriteSide} {key : Int32} {value : Bytes} (flips : Fin level → Bool)
    (hp : s.parked = false)
    (h : ¬s.cache.currentSize + s.cache.RWcache.contents.addSize key value > CACHE_SIZE) :
    s.step flips (.put key value) =
      ({ s with cache := (s.cache.put s.fi key value flips).1, fi := s.fi }, []) := by
  simp only [step, hp, s.cache.put_small s.fi key value flips h]
  rfl

theorem step_put_large {s : WriteSide} {key : Int32} {value : Bytes} (flips : Fin level → Bool)
    (hp : s.parked = false)
    (h : s.cache.currentSize + s.cache.RWcache.contents.addSize key value > CACHE_SIZE)
    (hfree : s.fi.getFreeBlock.2 ≠ noBlock) :
    (s.step flips (.put key value)).2 =
      [⟨s.fi.getFreeBlock.2, (s.cache.RWcache.add key value flips).1⟩] := by
  simp only [step, hp, Cache.put, ValidList.add_size, if_pos h, if_neg hfree, flush]
  rfl

theorem run_singleton (s : WriteSide) (coins : Nat → Fin level → Bool) (op : CacheOp) :
    s.run coins [op] = ((s.step (coins 0) op).1, (s.step (coins 0) op).2) := by
  simp [WriteSide.run]

theorem run_fillOps (fi : FileInfo) (n : Nat) (hn : n ≤ 62836) :
    ((start fi).run (fun _ _ => true) (fillOps n)).2 = [] ∧
      ((start fi).run (fun _ _ => true) (fillOps n)).1.parked = false ∧
      ((start fi).run (fun _ _ => true) (fillOps n)).1.fi = fi ∧
      ((start fi).run (fun _ _ => true) (fillOps n)).1.cache.currentSize = UInt64.ofNat (1068 * n) ∧
      ((start fi).run (fun _ _ => true) (fillOps n)).1.cache.RWcache.contents.entries = filled n := by
  induction n with
  | zero => exact ⟨rfl, rfl, rfl, rfl, rfl⟩
  | succ n ih =>
    obtain ⟨hw, hp, hfi, hsize, hentries⟩ := ih (by omega)
    obtain ⟨hadd, hsz⟩ := filled_add (by omega) hentries
    obtain ⟨hsum, hsmall⟩ := filled_size (n := n) (by omega)
    rw [fillOps_succ, run_append, hw]
    generalize ((start fi).run (fun _ _ => true) (fillOps n)).1 = s at *
    have hsmall' : ¬s.cache.currentSize + s.cache.RWcache.contents.addSize (Int32.ofNat n) longValue >
        CACHE_SIZE := by rwa [hsz, hsize, hsum]
    rw [run_singleton, step_put_small _ hp hsmall']
    simp only [List.nil_append]
    exact ⟨trivial, hp, hfi, by rw [Cache.put_size, hsz, hsize, hsum], by rw [Cache.put_contents, hadd]⟩

theorem fillOps_overflow {n : Nat} (hn : n = 62836) :
    ∃ w ∈ ((start (FileInfo.new [])).run (fun _ _ => true) (fillOps (n + 1))).2, ¬w.Inside := by
  obtain ⟨hw, hp, hfi, hsize, hentries⟩ := run_fillOps (FileInfo.new []) n hn.le
  obtain ⟨hadd, hsz⟩ := filled_add (by omega) hentries
  have hlist : ((start (FileInfo.new [])).run (fun _ _ => true) (fillOps n)).1.cache.RWcache.Flat :=
    run_cache_flat ValidList.new_flat _
  rw [fillOps_succ, run_append, hw]
  generalize ((start (FileInfo.new [])).run (fun _ _ => true) (fillOps n)).1 = s at *
  have hlarge : s.cache.currentSize + s.cache.RWcache.contents.addSize (Int32.ofNat n) longValue >
      CACHE_SIZE := by
    rw [hsz, hsize, hn]
    decide
  have hfree : s.fi.getFreeBlock.2 = 1 := by
    rw [hfi]
    decide
  have hne : s.fi.getFreeBlock.2 ≠ noBlock := by
    rw [hfree]
    decide
  rw [run_singleton, step_put_large _ hp hlarge hne]
  refine ⟨_, List.mem_singleton_self _, ?_⟩
  have hblock : s.fi.getFreeBlock.2.toNat < NUM_BLOCKS := by
    rw [hfree]
    decide
  rw [BlockWrite.inside_iff hblock]
  have hbytes := (hlist.add (Int32.ofNat n) longValue).serializedSize
  have hlength : ∀ e ∈ filled (n + 1), e.2.data.length = 1000 := by
    intro e he
    obtain ⟨i, _, rfl⟩ := List.mem_map.mp he
    exact List.length_replicate
  have hlow := entriesBytes_filled _ hlength
  have hcount : (filled (n + 1)).length = n + 1 := by rw [filled, List.length_map, List.length_range]
  rw [hcount, ← hadd] at hlow
  unfold BlockWrite.bytes
  rw [hbytes, blockSize_toNat, ValidList.add_contents]
  unfold worstBytes
  omega

/-- 62837 puts of 1000 characters make `put` flush past the end of block 1. -/
theorem filled_block_overflows :
    ∃ w ∈ ((start (FileInfo.new [])).run (fun _ _ => true) (fillOps 62837)).2, ¬w.Inside :=
  fillOps_overflow rfl

end WriteSide

end KVStorage

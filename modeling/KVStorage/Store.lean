import KVStorage.BlockIndex

/-!
# The whole store: tables, caches and file

The steps that every kind of run is made of, each with what it does to the tables
in memory, to the blocks and to the image.
-/

namespace KVStorage

set_option autoImplicit false

structure Store where
  fi : FileInfo
  write : Cache
  read : Cache
  disk : Disk
  image : Option InfoProto

namespace Store

def start (createTime : Bytes) : Store :=
  ⟨FileInfo.new createTime, Cache.new, Cache.new, fun _ => none, none⟩

/-- `flushToDisk` on the write cache. -/
def flush (s : Store) (freeSpace freeBlock : SizeT) : Store :=
  let r := s.write.flushToDisk s.fi s.disk freeSpace freeBlock
  { s with write := r.1, fi := r.2.1, disk := r.2.2.1 }

/-- The flush of `signalHandler`, into a block it asks for itself. -/
def handlerFlush (s : Store) : Store :=
  { s with fi := s.fi.getFreeBlock.1 }.flush (CACHE_SIZE - s.write.currentSize) s.fi.getFreeBlock.2

def writeToBlock0 (s : Store) : Store :=
  { s with fi := s.fi.writeToBlock0.1, image := savedImage s.fi s.image }

/-- All memory is lost and the tables are read back. -/
def reload (s : Store) (createTime : Bytes) : Option Store :=
  (reopen createTime s.image).map fun fi => { s with fi := fi, write := Cache.new, read := Cache.new }

/-- The tables in memory and those of the image are true of the blocks. -/
structure Sound (s : Store) : Prop where
  live : Consistent s.fi s.disk
  saved : Saved s.image s.fi s.disk

/-- The value the block of a mapped key stores for it. -/
def storedValue (s : Store) (k : Int32) : Option Bytes :=
  (s.fi.keyBlockMap.lookup k).bind fun b => (s.disk b).bind fun m => m.lookup k

variable {s s' : Store} {b : SizeT}

theorem start_sound (createTime : Bytes) : (start createTime).Sound :=
  ⟨new_consistent createTime _, new_saved createTime _⟩

theorem flush_eq {freeBlock : SizeT} (freeSpace : SizeT) (hb : freeBlock ≠ noBlock) :
    s.flush freeSpace freeBlock =
      { s with
        write := { s.write with RWcache := s.write.RWcache.clear, currentSize := 0 }
        fi := flushedInfo s.fi s.write.RWcache.contents.keys freeBlock freeSpace
        disk := Function.update s.disk freeBlock (some s.write.RWcache.stored) } := by
  simp only [flush, Cache.flushToDisk_eq _ _ _ _ _ hb, flushedInfo]

theorem flush_noBlock (freeSpace : SizeT) : s.flush freeSpace noBlock = s := by
  simp [flush, Cache.flushToDisk]

theorem Sound.mapped_ne_noBlock (h : s.Sound) {k : Int32} (hk : s.fi.keyBlockMap.lookup k = some b) :
    b ≠ noBlock := by
  obtain ⟨hlt, _⟩ := (h.live.mapped k b hk).2.1
  rintro rfl
  exact absurd hlt (by decide)

theorem Sound.flush (h : s.Sound) {freeBlock : SizeT} (freeSpace : SizeT)
    (hw : freeBlock = noBlock ∨ Writable s.fi freeBlock) : (s.flush freeSpace freeBlock).Sound := by
  by_cases hb : freeBlock = noBlock
  · rwa [hb, flush_noBlock]
  · have hw := hw.resolve_left hb
    rw [flush_eq _ hb]
    exact ⟨h.live.flush hw s.write.RWcache freeSpace,
      (h.saved.write hw.unmapped _).mono (flushedInfo_earlier _ _ _ _)⟩

theorem flush_earlier (s : Store) (freeSpace freeBlock : SizeT) :
    Earlier s.fi (s.flush freeSpace freeBlock).fi := by
  by_cases hb : freeBlock = noBlock
  · rw [hb, flush_noBlock]
    exact Earlier.refl _
  · rw [flush_eq _ hb]
    exact flushedInfo_earlier _ _ _ _

theorem flush_writable {freeBlock : SizeT} (freeSpace : SizeT) (hw : Writable s.fi b)
    (hne : b ≠ freeBlock) : Writable (s.flush freeSpace freeBlock).fi b := by
  have hearlier := s.flush_earlier freeSpace freeBlock
  refine ⟨hw.ne_zero, hearlier.used b hw.used, ?_⟩
  by_cases hb : freeBlock = noBlock
  · rw [hb, flush_noBlock]
    exact hw.unmapped
  · intro k hk
    rw [flush_eq _ hb, flushedInfo_lookup] at hk
    cases hold : s.fi.keyBlockMap.lookup k with
    | some c =>
      rw [hold, Option.some_or] at hk
      exact hw.unmapped k (hold.trans hk)
    | none =>
      rw [hold, Option.none_or] at hk
      by_cases hm : k ∈ s.write.RWcache.contents.keys
      · rw [if_pos hm, Option.some.injEq] at hk
        exact hne hk.symm
      · simp [hm] at hk

theorem flush_disk_other {freeSpace freeBlock : SizeT} (hb : freeBlock = noBlock ∨ b ≠ freeBlock) :
    (s.flush freeSpace freeBlock).disk b = s.disk b := by
  by_cases hn : freeBlock = noBlock
  · rw [hn, flush_noBlock]
  · rw [flush_eq _ hn]
    exact Function.update_of_ne (hb.resolve_left hn) _ _

theorem Sound.alloc (h : s.Sound) : ({ s with fi := s.fi.getFreeBlock.1 } : Store).Sound :=
  ⟨h.live.getFreeBlock, h.saved.mono (getFreeBlock_earlier _)⟩

theorem Sound.alloc_writable (h : s.Sound) :
    s.fi.getFreeBlock.2 = noBlock ∨ Writable s.fi.getFreeBlock.1 s.fi.getFreeBlock.2 := by
  by_cases hb : s.fi.getFreeBlock.2 = noBlock
  · exact Or.inl hb
  · exact Or.inr (h.live.writable hb)

theorem Sound.handlerFlush (h : s.Sound) : s.handlerFlush.Sound := h.alloc.flush _ h.alloc_writable

theorem Sound.writeToBlock0 (h : s.Sound) : s.writeToBlock0.Sound :=
  ⟨h.live.congr rfl rfl, h.saved.writeToBlock0 h.live⟩

theorem Sound.reload (h : s.Sound) (createTime : Bytes) :
    ∃ s', s.reload createTime = some s' ∧ s'.Sound ∧ Earlier s'.fi s.fi ∧ s'.write = Cache.new ∧
      s'.read = Cache.new ∧ s'.disk = s.disk := by
  obtain ⟨old, hopen, hcons, hold⟩ := h.saved createTime
  refine ⟨{ s with fi := old, write := Cache.new, read := Cache.new }, ?_, ⟨hcons, ?_⟩, hold, rfl, rfl, rfl⟩
  · rw [Store.reload, hopen, Option.map_some]
  · intro time
    obtain ⟨old', hopen', hcons', _⟩ := h.saved time
    refine ⟨old', hopen', hcons', ?_⟩
    cases himage : s.image with
    | none =>
      rw [himage] at hopen hopen'
      cases hopen
      cases hopen'
      exact ⟨fun _ hb => hb, fun _ _ hk => by simp [FileInfo.new] at hk⟩
    | some info =>
      rw [himage] at hopen hopen'
      rw [reopen_time createTime time, hopen', Option.some.injEq] at hopen
      rw [hopen]
      exact Earlier.refl _

/-! ## Stored values -/

theorem Sound.storedValue_isSome (h : s.Sound) (k : Int32) :
    (s.storedValue k).isSome ↔ (s.fi.keyBlockMap.lookup k).isSome := by
  unfold storedValue
  cases hk : s.fi.keyBlockMap.lookup k with
  | none => simp
  | some b =>
    obtain ⟨_, _, m, hm, hkm⟩ := h.live.mapped k b hk
    obtain ⟨v, hv⟩ := (m.mem_keys_iff k).mp hkm
    simp [hm, hv]

/-- After a flush a key that was mapped has its old value, any other key the one it had
in the cache. -/
theorem flush_storedValue {freeBlock : SizeT} (freeSpace : SizeT) (hb : freeBlock ≠ noBlock)
    (hu : Unmapped s.fi freeBlock) (k : Int32) :
    (s.flush freeSpace freeBlock).storedValue k =
      match s.fi.keyBlockMap.lookup k with
      | some _ => s.storedValue k
      | none => (s.write.RWcache.contents.lookup k).map (·.data) := by
  unfold storedValue
  rw [flush_eq _ hb]
  simp only [flushedInfo_lookup]
  cases hk : s.fi.keyBlockMap.lookup k with
  | some b =>
    have hne : b ≠ freeBlock := by
      intro he
      exact hu k (he ▸ hk)
    simp only [Option.some_or, Option.bind_some, Function.update_of_ne hne]
  | none =>
    simp only [Option.none_or]
    by_cases hm : k ∈ s.write.RWcache.contents.keys
    · simp [hm]
    · rw [if_neg hm, (SortedMap.lookup_eq_none_iff _ _).mpr hm]
      rfl

theorem alloc_storedValue (s : Store) (k : Int32) :
    ({ s with fi := s.fi.getFreeBlock.1 } : Store).storedValue k = s.storedValue k := by
  simp only [storedValue, FileInfo.getFreeBlock_map]

theorem storedValue_congr (hm : s'.fi.keyBlockMap = s.fi.keyBlockMap) (hd : s'.disk = s.disk)
    (k : Int32) : s'.storedValue k = s.storedValue k := by
  simp only [storedValue, hm, hd]

theorem storedValue_earlier (he : Earlier s'.fi s.fi) (hd : s'.disk = s.disk) (k : Int32) :
    s'.storedValue k = none ∨ s'.storedValue k = s.storedValue k := by
  unfold storedValue
  rw [hd]
  cases hk : s'.fi.keyBlockMap.lookup k with
  | none => exact Or.inl rfl
  | some b =>
    rw [he.mapped k b hk]
    exact Or.inr rfl

end Store

end KVStorage

import KVStorage.Cache

/-!
# The index and the blocks

A mapped key lies in a used data block that stores it. This holds of the tables in
memory and, at the same time, of the tables that block 0 would give back.
-/

namespace KVStorage

set_option autoImplicit false

structure Consistent (fi : FileInfo) (disk : Disk) : Prop where
  block0 : fi.Used 0
  mapped : ∀ k b, fi.keyBlockMap.lookup k = some b →
    b ≠ 0 ∧ fi.Used b ∧ ∃ m, disk b = some m ∧ k ∈ m.keys

/-- The tables `old` are an earlier state of `fi`. -/
structure Earlier (old fi : FileInfo) : Prop where
  used : ∀ b, old.Used b → fi.Used b
  mapped : ∀ k b, old.keyBlockMap.lookup k = some b → fi.keyBlockMap.lookup k = some b

def Unmapped (fi : FileInfo) (b : SizeT) : Prop := ∀ k, fi.keyBlockMap.lookup k ≠ some b

/-- The tables a start of the program finds: `readFromBlock0` on a fresh `FileInfo`, or
the fresh one when block 0 was never written. -/
def reopen (createTime : Bytes) : Option InfoProto → Option FileInfo
  | none => some (FileInfo.new createTime)
  | some info => (FileInfo.new createTime).readFromBlock0 info

/-- The image in block 0 gives back consistent tables, an earlier state of `fi`. -/
def Saved (image : Option InfoProto) (fi : FileInfo) (disk : Disk) : Prop :=
  ∀ createTime, ∃ old, reopen createTime image = some old ∧ Consistent old disk ∧ Earlier old fi

variable {fi fi' : FileInfo} {disk : Disk} {image : Option InfoProto} {b : SizeT} {l : ValidList}

theorem new_consistent (createTime : Bytes) (disk : Disk) :
    Consistent (FileInfo.new createTime) disk where
  block0 := ⟨by decide, rfl⟩
  mapped := by
    intro k b h
    simp [FileInfo.new] at h

theorem new_saved (createTime : Bytes) (disk : Disk) :
    Saved none (FileInfo.new createTime) disk := by
  intro time
  refine ⟨_, rfl, new_consistent time disk, ?_, ?_⟩
  · intro b hb
    exact hb
  · intro k b h
    simp [FileInfo.new] at h

theorem Earlier.refl (fi : FileInfo) : Earlier fi fi := ⟨fun _ h => h, fun _ _ h => h⟩

theorem Earlier.trans {old : FileInfo} (h : Earlier old fi) (h' : Earlier fi fi') : Earlier old fi' :=
  ⟨fun b hb => h'.used b (h.used b hb), fun k b hk => h'.mapped k b (h.mapped k b hk)⟩

theorem Earlier.unmapped {old : FileInfo} (h : Earlier old fi) (hb : Unmapped fi b) :
    Unmapped old b := fun k hk => hb k (h.mapped k b hk)

theorem Consistent.congr (h : Consistent fi disk)
    (hu : fi'.blockUsageTable = fi.blockUsageTable) (hm : fi'.keyBlockMap = fi.keyBlockMap) :
    Consistent fi' disk where
  block0 := (FileInfo.used_congr hu).mpr h.block0
  mapped := by
    intro k b hk
    obtain ⟨h0, hused, hstored⟩ := h.mapped k b (hm ▸ hk)
    exact ⟨h0, (FileInfo.used_congr hu).mpr hused, hstored⟩

theorem earlier_of_eq (hu : fi'.blockUsageTable = fi.blockUsageTable)
    (hm : fi'.keyBlockMap = fi.keyBlockMap) : Earlier fi fi' :=
  ⟨fun _ hb => (FileInfo.used_congr hu).mpr hb, fun _ _ hk => hm ▸ hk⟩

theorem Saved.mono (h : Saved image fi disk) (he : Earlier fi fi') : Saved image fi' disk := by
  intro time
  obtain ⟨old, hopen, hcons, hold⟩ := h time
  exact ⟨old, hopen, hcons, hold.trans he⟩

/-! ## Allocation -/

theorem getFreeBlock_earlier (fi : FileInfo) : Earlier fi fi.getFreeBlock.1 :=
  ⟨fun _ hb => fi.getFreeBlock_used hb, fun _ _ hk => (FileInfo.getFreeBlock_map fi).symm ▸ hk⟩

theorem Consistent.getFreeBlock (h : Consistent fi disk) : Consistent fi.getFreeBlock.1 disk where
  block0 := fi.getFreeBlock_used h.block0
  mapped := by
    intro k b hk
    rw [FileInfo.getFreeBlock_map] at hk
    obtain ⟨h0, hused, hstored⟩ := h.mapped k b hk
    exact ⟨h0, fi.getFreeBlock_used hused, hstored⟩

/-- A block that a flush may write: a used data block no key is mapped to. -/
structure Writable (fi : FileInfo) (b : SizeT) : Prop where
  ne_zero : b ≠ 0
  used : fi.Used b
  unmapped : Unmapped fi b

theorem Consistent.writable (h : Consistent fi disk) (hb : fi.getFreeBlock.2 ≠ noBlock) :
    Writable fi.getFreeBlock.1 fi.getFreeBlock.2 := by
  obtain ⟨_, hfree, hused⟩ := FileInfo.getFreeBlock_spec hb
  refine ⟨?_, (hused _).mpr (Or.inl rfl), ?_⟩
  · intro h0
    exact hfree (h0 ▸ h.block0)
  · intro k hk
    rw [FileInfo.getFreeBlock_map] at hk
    exact hfree (h.mapped k _ hk).2.1

theorem Writable.congr (h : Writable fi b) (hu : fi'.blockUsageTable = fi.blockUsageTable)
    (hm : fi'.keyBlockMap = fi.keyBlockMap) : Writable fi' b where
  ne_zero := h.ne_zero
  used := (FileInfo.used_congr hu).mpr h.used
  unmapped := fun k => by
    rw [hm]
    exact h.unmapped k

theorem Writable.getFreeBlock (h : Writable fi b) : Writable fi.getFreeBlock.1 b where
  ne_zero := h.ne_zero
  used := fi.getFreeBlock_used h.used
  unmapped := fun k => by
    rw [FileInfo.getFreeBlock_map]
    exact h.unmapped k

/-! ## A flush -/

/-- The tables after the mapping loop and `updateBlockInfo`. -/
def flushedInfo (fi : FileInfo) (ks : List Int32) (b freeSpace : SizeT) : FileInfo :=
  (fi.mapKeys ks b).updateBlockInfo b freeSpace

theorem flushedInfo_lookup (fi : FileInfo) (ks : List Int32) (b freeSpace : SizeT) (k : Int32) :
    (flushedInfo fi ks b freeSpace).keyBlockMap.lookup k =
      (fi.keyBlockMap.lookup k).or (if k ∈ ks then some b else none) := by
  rw [flushedInfo, FileInfo.updateBlockInfo_map, FileInfo.mapKeys_lookup]

theorem flushedInfo_usage (fi : FileInfo) (ks : List Int32) (b freeSpace : SizeT) :
    (flushedInfo fi ks b freeSpace).blockUsageTable = fi.blockUsageTable := by
  rw [flushedInfo, FileInfo.updateBlockInfo_usage, FileInfo.mapKeys_usage]

theorem flushedInfo_earlier (fi : FileInfo) (ks : List Int32) (b freeSpace : SizeT) :
    Earlier fi (flushedInfo fi ks b freeSpace) := by
  refine ⟨fun b' hb => (FileInfo.used_congr (flushedInfo_usage fi ks b freeSpace)).mpr hb, ?_⟩
  intro k b' hk
  rw [flushedInfo_lookup, hk, Option.some_or]

theorem Consistent.write (h : Consistent fi disk) (hb : Unmapped fi b) (m : SortedMap Int32 Bytes) :
    Consistent fi (Function.update disk b (some m)) where
  block0 := h.block0
  mapped := by
    intro k b' hk
    obtain ⟨h0, hused, hstored⟩ := h.mapped k b' hk
    refine ⟨h0, hused, ?_⟩
    have hne : b' ≠ b := by
      intro he
      exact hb k (he ▸ hk)
    rwa [Function.update_of_ne hne]

theorem Saved.write (h : Saved image fi disk) (hb : Unmapped fi b) (m : SortedMap Int32 Bytes) :
    Saved image fi (Function.update disk b (some m)) := by
  intro time
  obtain ⟨old, hopen, hcons, hold⟩ := h time
  exact ⟨old, hopen, hcons.write (hold.unmapped hb) m, hold⟩

theorem Consistent.flush (h : Consistent fi disk) (hw : Writable fi b) (l : ValidList)
    (freeSpace : SizeT) :
    Consistent (flushedInfo fi l.contents.keys b freeSpace)
      (Function.update disk b (some l.stored)) where
  block0 := (flushedInfo_earlier _ _ _ _).used 0 h.block0
  mapped := by
    intro k b' hk
    rw [flushedInfo_lookup] at hk
    cases hold : fi.keyBlockMap.lookup k with
    | some c =>
      rw [hold, Option.some_or, Option.some.injEq] at hk
      subst hk
      obtain ⟨h0, hused, hstored⟩ := (h.write hw.unmapped l.stored).mapped k c hold
      exact ⟨h0, (flushedInfo_earlier _ _ _ _).used c hused, hstored⟩
    | none =>
      rw [hold, Option.none_or] at hk
      by_cases hm : k ∈ l.contents.keys
      · rw [if_pos hm, Option.some.injEq] at hk
        subst hk
        refine ⟨hw.ne_zero, (flushedInfo_earlier _ _ _ _).used b hw.used, l.stored, ?_, ?_⟩
        · rw [Function.update_self]
        · rwa [ValidList.stored_keys]
      · simp [hm] at hk

/-! ## The image -/

theorem reopen_toProto (createTime : Bytes) (fi : FileInfo) :
    reopen createTime (some fi.toProto) = some fi := FileInfo.readFromBlock0_toProto fi rfl

theorem reopen_time (time time' : Bytes) (info : InfoProto) :
    reopen time (some info) = reopen time' (some info) := by
  simp only [reopen, FileInfo.readFromBlock0, FileInfo.new]

/-- The image after `writeToBlock0`, which keeps the old one when the new is too large. -/
def savedImage (fi : FileInfo) (image : Option InfoProto) : Option InfoProto :=
  fi.writeToBlock0.2.or image

theorem Saved.writeToBlock0 (h : Saved image fi disk) (hc : Consistent fi disk) :
    Saved (savedImage fi image) fi.writeToBlock0.1 disk := by
  have hu := FileInfo.writeToBlock0_usage fi
  have hm := FileInfo.writeToBlock0_map fi
  unfold savedImage
  cases hw : fi.writeToBlock0.2 with
  | none =>
    rw [Option.none_or]
    exact h.mono (earlier_of_eq hu hm)
  | some info =>
    intro time
    refine ⟨fi.writeToBlock0.1, ?_, hc.congr hu hm, Earlier.refl _⟩
    rw [Option.some_or, FileInfo.writeToBlock0_image hw, reopen_toProto]

end KVStorage

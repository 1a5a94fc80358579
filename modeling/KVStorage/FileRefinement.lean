import KVStorage.FileStore

/-!
# The bytes refine the stored maps

As long as every flush stays inside its block, the file holds the blocks and the image of
the store on stored maps, each at its own place, and both programs give the same answers.
-/

namespace KVStorage

set_option autoImplicit false

open Regions Transducer

/-- Block `b` of the file is one of a list with the stored map. -/
def HoldsBlock (file : Bytes) (b : SizeT) (m : SortedMap Int32 Bytes) : Prop :=
  ∃ l : ValidList, l.contents.Placeable ∧ l.stored = m ∧ HasAt file (blockStart b) l.blockBytes

/-- The superblock was filled in by a start of the program. -/
def Dated (superBlock : SuperBlock) : Prop :=
  ∃ time, ValidUtf8 time ∧ time.length = FileInfo.timeLength ∧ superBlock = (FileInfo.new time).superBlock

/-- The front of the file is a message of the tables, or has never been written. -/
def HoldsImage (file : Bytes) : Option InfoProto → Prop
  | none => Blank file 8
  | some info => info.byteSizeLong + 8 ≤ BLOCK_SIZE.toNat ∧ Dated info.superBlock ∧
      ∃ order : List (Int32 × SizeT), order.Perm info.keyBlockMap.entries ∧
        HasAt file 0 (messageBytes (UInt64.ofNat info.byteSizeLong) (info.serialize order))

/-- Each stored map and the image lie at their places in the file. -/
structure Lies (file : Bytes) (disk : Disk) (image : Option InfoProto) : Prop where
  blocks : ∀ b m, disk b = some m → b ≠ 0 ∧ b.toNat < NUM_BLOCKS ∧ HoldsBlock file b m
  image : HoldsImage file image
  length : file.length ≤ FILE_SIZE.toNat

/-- The list in memory shows what the cache has. -/
structure ReadCache.Shows (c : ReadCache) (cache : Cache) : Prop where
  currentSize : c.currentSize = cache.currentSize
  holds : c.RWcache.Holds cache.RWcache.contents
  currentReadBlock : c.currentReadBlock = cache.currentReadBlock

structure FileStore.Refines (f : FileStore) (s : Store) : Prop where
  fi : f.fi = s.fi
  write : f.write = s.write
  read : f.read.Shows s.read
  dated : Dated s.fi.superBlock
  file : ∃ bytes, f.file = some bytes ∧ Lies bytes s.disk s.image

/-! ## Places in the file -/

theorem blockStart_pos {b : SizeT} (hb : b ≠ 0) : BLOCK_SIZE.toNat ≤ blockStart b := by
  have hpos : 0 < b.toNat := by
    rw [Nat.pos_iff_ne_zero]
    intro h
    exact hb (UInt64.toNat_inj.mp h)
  exact Nat.le_mul_of_pos_left _ hpos

theorem blockStart_clear {b b' : SizeT} (h : b ≠ b') :
    blockStart b + BLOCK_SIZE.toNat ≤ blockStart b' ∨ blockStart b' + BLOCK_SIZE.toNat ≤ blockStart b := by
  have hne : b.toNat ≠ b'.toNat := fun he => h (UInt64.toNat_inj.mp he)
  unfold blockStart
  rw [blockSize_toNat]
  omega

theorem blockStart_end {b : SizeT} (h : b.toNat < NUM_BLOCKS) :
    blockStart b + BLOCK_SIZE.toNat ≤ FILE_SIZE.toNat := by
  have hlt : b.toNat < 16 := h
  have hsize : FILE_SIZE.toNat = 1073741824 := rfl
  unfold blockStart
  rw [blockSize_toNat]
  omega

variable {file : Bytes} {disk : Disk} {image : Option InfoProto} {b : SizeT} {m : SortedMap Int32 Bytes}
  {info : InfoProto}

theorem serialize_length_image {order : List (Int32 × SizeT)} (horder : order.Perm info.keyBlockMap.entries)
    (hfits : info.byteSizeLong + 8 ≤ BLOCK_SIZE.toNat) : (info.serialize order).length = info.byteSizeLong := by
  rw [blockSize_toNat] at hfits
  apply InfoProto.serialize_length horder
  unfold Wire.maxSize
  omega

theorem HoldsBlock.changes {file' : Bytes} {pos len : Nat} (h : HoldsBlock file b m)
    (hchanges : Changes file file' pos len)
    (hclear : blockStart b + BLOCK_SIZE.toNat ≤ pos ∨ pos + len ≤ blockStart b) : HoldsBlock file' b m := by
  obtain ⟨l, hplace, hstored, hat⟩ := h
  have hlength := ValidList.blockBytes_length hplace
  exact ⟨l, hplace, hstored, hchanges.hasAt hat (by omega)⟩

/-- A flush writes its block and leaves the others and the image where they are. -/
theorem Lies.writeBlock (h : Lies file disk image) {l : ValidList} (hplace : l.contents.Placeable) (h0 : b ≠ 0)
    (hb : b.toNat < NUM_BLOCKS) :
    Lies (writeMessage file (blockStart b) (UInt64.ofNat l.serializedSize) (NodeProto.serialize l.nodes))
      (Function.update disk b (some l.stored)) image := by
  have hchanges := writeMessage_changes file (blockStart b) (UInt64.ofNat l.serializedSize)
    (NodeProto.serialize l.nodes)
  have hlength := ValidList.blockBytes_length hplace
  have hpos := blockStart_pos h0
  unfold ValidList.blockBytes at hlength
  constructor
  · intro b' m hm
    by_cases hne : b' = b
    · subst hne
      rw [Function.update_self, Option.some.injEq] at hm
      exact ⟨h0, hb, l, hplace, hm, writeMessage_hasAt _ _ _ _⟩
    · rw [Function.update_of_ne hne] at hm
      obtain ⟨h0', hb', hholds⟩ := h.blocks b' m hm
      have hclear := blockStart_clear hne
      exact ⟨h0', hb', hholds.changes hchanges (by omega)⟩
  · have himage := h.image
    cases image with
    | none =>
      apply writeMessage_blank himage
      rw [blockSize_toNat] at hpos
      omega
    | some info =>
      obtain ⟨hfits, hdated, order, horder, hat⟩ := himage
      refine ⟨hfits, hdated, order, horder, hchanges.hasAt hat (Or.inl ?_)⟩
      rw [messageBytes_length, serialize_length_image horder hfits]
      omega
  · have hend := blockStart_end hb
    have hold := h.length
    rw [writeMessage_length]
    omega

/-- `writeToBlock0` leaves the blocks where they are. -/
theorem Lies.writeImage (h : Lies file disk image) {order : List (Int32 × SizeT)}
    (horder : order.Perm info.keyBlockMap.entries) (hfits : info.byteSizeLong + 8 ≤ BLOCK_SIZE.toNat)
    (hdated : Dated info.superBlock) :
    Lies (FileInfo.writeImage order file (some info)) disk (some info) := by
  have hlength := messageBytes_length (UInt64.ofNat info.byteSizeLong) (info.serialize order)
  rw [serialize_length_image horder hfits] at hlength
  have hchanges := writeMessage_changes file 0 (UInt64.ofNat info.byteSizeLong) (info.serialize order)
  rw [FileInfo.writeImage_eq]
  constructor
  · intro b m hm
    obtain ⟨h0, hb, hholds⟩ := h.blocks b m hm
    have hpos := blockStart_pos h0
    exact ⟨h0, hb, hholds.changes hchanges (Or.inr (by omega))⟩
  · exact ⟨hfits, hdated, order, horder, writeMessage_hasAt _ _ _ _⟩
  · have hold := h.length
    have hend := blockStart_end (b := 0) (by decide)
    rw [writeMessage_length]
    omega

/-! ## Reading the image -/

/-- Zeros over the low bytes of a number do not make it larger. -/
theorem ofLittleEndian_zeros (front back : Bytes) (h : ∀ c ∈ front, c = 0) (old : Bytes)
    (hold : old.drop front.length = back) : ofLittleEndian (front ++ back) ≤ ofLittleEndian old := by
  subst hold
  induction front generalizing old with
  | nil => exact le_rfl
  | cons c front ih =>
    have hc : c = 0 := h c List.mem_cons_self
    have hrest := fun old' => ih (fun c' hc' => h c' (List.mem_cons_of_mem c hc')) old'
    subst hc
    cases old with
    | nil =>
      have hnil := hrest []
      simp only [List.drop_nil, List.append_nil, ofLittleEndian, List.length_cons] at hnil ⊢
      rw [Nat.le_zero.mp hnil]
      rfl
    | cons d old =>
      have hold := hrest old
      simp only [List.length_cons, List.drop_succ_cons, List.cons_append, ofLittleEndian, UInt8.toNat_zero]
      omega

theorem blank_take (h : Blank file 8) : ∀ c ∈ file.take 8, c = 0 := by
  intro c hc
  obtain ⟨i, hi⟩ := List.mem_iff_getElem?.mp hc
  rw [List.getElem?_take] at hi
  split at hi
  · rename_i hlt
    exact h i c hlt hi
  · cases hi

/-- Nothing is read from a front that was never written. -/
theorem readFile_blank (h : Blank file 8) (fi : FileInfo) {old : SizeT} (hold : old.toNat ≤ maxVector) :
    fi.readFile old (some file) = .returned fi false := by
  have hzero := blank_take h
  have hbytes : ofLittleEndian (sizeBytes old) = old.toNat := by
    apply ofLittleEndian_littleEndian
    have := old.toNat_lt
    omega
  have hle := ofLittleEndian_zeros (file.take 8) _ hzero (sizeBytes old) rfl
  have hsize : (ofSizeBytes (file.take 8 ++ (sizeBytes old).drop (file.take 8).length)).toNat ≤ maxVector := by
    rw [ofSizeBytes, UInt64.toNat_ofNat']
    have := Nat.mod_le (ofLittleEndian (file.take 8 ++ (sizeBytes old).drop (file.take 8).length)) (2 ^ 64)
    omega
  simp only [FileInfo.readFile, if_neg (not_lt.mpr hsize)]
  by_cases hshort : (file.take 8).length < 8
  · rw [if_pos hshort, if_pos rfl]
  · have hnone : (sizeBytes old).drop (file.take 8).length = [] := by
      apply List.drop_eq_nil_of_le
      rw [sizeBytes_length]
      omega
    have hnil := ofLittleEndian_zeros (file.take 8) [] hzero [] List.drop_nil
    have hread : (ofSizeBytes (file.take 8 ++ [])).toNat = 0 := by
      rw [ofSizeBytes, Nat.le_zero.mp hnil]
      rfl
    rw [hnone, hread, List.take_zero, ite_self, if_pos rfl]

/-- A start reads the tables of the image. -/
theorem readFile_image (h : HoldsImage file image) {createTime : Bytes} {fi : FileInfo} {old : SizeT}
    (hopen : reopen createTime image = some fi) (hold : old.toNat ≤ maxVector) :
    ∃ answer, (FileInfo.new createTime).readFile old (some file) = .returned fi answer := by
  cases image with
  | none =>
    rw [reopen, Option.some.injEq] at hopen
    rw [readFile_blank h _ hold, hopen]
    exact ⟨false, rfl⟩
  | some info =>
    obtain ⟨hfits, ⟨time, hutf, _, hsuper⟩, order, horder, hat⟩ := h
    have hlength := serialize_length_image horder hfits
    have hpos : 0 < info.byteSizeLong := by
      unfold InfoProto.byteSizeLong
      omega
    have hne : info.serialize order ≠ [] := by
      apply List.ne_nil_of_length_pos
      omega
    have hself : FileInfo.writeImage order file (some info) = file := by
      rw [FileInfo.writeImage_eq, writeMessage_self hat hne]
    have hname : ValidUtf8 info.superBlock.fileName := by
      rw [hsuper]
      exact FileInfo.validUtf8_path
    have htime : ValidUtf8 info.superBlock.createTime := by
      rw [hsuper]
      exact hutf
    refine ⟨true, ?_⟩
    rw [← hself]
    exact FileInfo.readFile_written horder hfits hname htime hopen old

/-- A start takes the superblock of the image, or fills in its own. -/
theorem reopen_dated {b : Boot} {old : FileInfo} (hopen : reopen b.createTime image = some old)
    (hsaved : ∀ info, image = some info → Dated info.superBlock) : Dated old.superBlock := by
  cases image with
  | none =>
    rw [reopen, Option.some.injEq] at hopen
    rw [← hopen]
    exact ⟨b.createTime, b.utf8, b.length, rfl⟩
  | some info =>
    simp only [reopen, FileInfo.readFromBlock0, Option.bind_eq_bind, Option.bind_eq_some_iff,
      Option.some.injEq] at hopen
    obtain ⟨_, _, _, _, hold⟩ := hopen
    rw [← hold]
    exact hsaved info rfl

/-! ## Each request -/

theorem flushedInfo_superBlock (fi : FileInfo) (ks : List Int32) (b freeSpace : SizeT) :
    (flushedInfo fi ks b freeSpace).superBlock = fi.superBlock :=
  (FileInfo.apply_superBlock _ (.updateBlockInfo b freeSpace)).trans (FileInfo.mapKeys_superBlock fi ks b)

namespace FileStore

variable {f : FileStore} {s : Store}

theorem Refines.set (h : f.Refines s) (c : Cache) {fi : FileInfo} (hsuper : fi.superBlock = s.fi.superBlock) :
    ({ f with write := c, fi := fi } : FileStore).Refines { s with write := c, fi := fi } where
  fi := rfl
  write := rfl
  read := h.read
  dated := hsuper ▸ h.dated
  file := h.file

theorem Refines.alloc (h : f.Refines s) (c : Cache) :
    ({ f with write := c, fi := s.fi.getFreeBlock.1 } : FileStore).Refines
      { s with write := c, fi := s.fi.getFreeBlock.1 } :=
  h.set c (FileInfo.apply_superBlock s.fi .getFreeBlock)

/-- A flush has no block, or a data block that its list fits in. -/
def Fits (s : Store) (freeBlock : SizeT) : Prop :=
  freeBlock ≠ noBlock → freeBlock ≠ 0 ∧ freeBlock.toNat < NUM_BLOCKS ∧ s.write.RWcache.contents.Placeable

theorem Refines.flush (h : f.Refines s) (freeSpace : SizeT) {freeBlock : SizeT} (hfits : Fits s freeBlock) :
    (f.flush freeSpace freeBlock).Refines (s.flush freeSpace freeBlock) := by
  by_cases hb : freeBlock = noBlock
  · subst hb
    rw [Store.flush_noBlock, FileStore.flush, Cache.flushToFile_noBlock]
    exact h
  · obtain ⟨h0, hlt, hplace⟩ := hfits hb
    obtain ⟨bytes, hfile, hlies⟩ := h.file
    rw [Store.flush_eq _ hb]
    simp only [FileStore.flush, Cache.flushToFile, if_neg hb, h.write, h.fi, hfile, ValidList.keys_eq,
      ValidList.serialize_message hplace hlt]
    refine ⟨rfl, rfl, h.read, ?_, _, rfl, hlies.writeBlock hplace h0 hlt⟩
    rw [flushedInfo_superBlock]
    exact h.dated

theorem fits_alloc (hsound : s.Sound) (hplace : s.fi.getFreeBlock.2 ≠ noBlock → s.write.RWcache.contents.Placeable)
    {c : Cache} (hc : c.RWcache.contents = s.write.RWcache.contents) :
    Fits { s with write := c, fi := s.fi.getFreeBlock.1 } s.fi.getFreeBlock.2 := by
  intro hb
  have hwritable := hsound.alloc_writable.resolve_left hb
  refine ⟨hwritable.ne_zero, (FileInfo.getFreeBlock_spec hb).1, ?_⟩
  rw [hc]
  exact hplace hb

theorem Refines.put (h : f.Refines s) (hsound : s.Sound) {key : Int32} {value : Bytes} {flips : Fin level → Bool}
    (hp : s.Persists (.put key value flips)) :
    (f.processPutRequests key value flips).Refines (s.processPutRequests key value flips) := by
  simp only [FileStore.processPutRequests, Store.processPutRequests, h.write, h.fi]
  have hcontents := s.write.put_contents s.fi key value flips
  rcases s.write.put_cases s.fi key value flips with ⟨hfi, htask⟩ | ⟨hfi, task, htask, hblock⟩
  · rw [hfi, htask]
    exact h.set _ rfl
  · rw [hfi, htask, FileStore.runTask, Store.runTask]
    apply (h.alloc _).flush
    intro _
    obtain ⟨hb, hplace⟩ := hp task htask
    rw [hblock] at hb ⊢
    have hwritable := hsound.alloc_writable.resolve_left hb
    refine ⟨hwritable.ne_zero, (FileInfo.getFreeBlock_spec hb).1, ?_⟩
    rw [hcontents]
    exact hplace

theorem Refines.load (h : f.Refines s) {b : SizeT} (hb : b ≠ noBlock) {m : SortedMap Int32 Bytes}
    (hm : s.disk b = some m) :
    ∃ f', f.load b = some f' ∧ f'.Refines { s with read := (s.read.loadFromDisk s.disk b).1 } := by
  obtain ⟨bytes, hfile, hlies⟩ := h.file
  obtain ⟨_, hlt, l, hplace, rfl, hat⟩ := hlies.blocks b m hm
  let target : ValidList := ⟨f.read.RWcache, s.read.RWcache.contents, h.read.holds⟩
  have hclear : f.read.RWcache.clear = some target.clear.list := (Option.some_get target.clear_isSome).symm
  obtain ⟨list, hload, hholds⟩ := ValidList.deserializeFile_block hplace hlt hat target.clear f.listSize
  have hread : (s.read.loadFromDisk s.disk b).1 =
      { s.read with RWcache := ValidList.load l.stored, currentSize := Cache.loadedSize l.stored } := by
    simp only [Cache.loadFromDisk, if_neg hb, hm]
  rw [hread]
  simp only [FileStore.load, ReadCache.loadFromDisk, if_neg hb, hclear, hfile, hload]
  exact ⟨_, rfl, h.fi, h.write, ⟨rfl, hholds, h.read.currentReadBlock⟩, h.dated, bytes, rfl, hlies⟩

theorem Refines.search (h : f.Refines s) (key : Int32) :
    f.read.RWcache.search key = some (s.read.RWcache.search key) := by
  obtain ⟨ts, hts⟩ := h.read.holds
  rw [hts.search, ValidList.search_eq]

theorem Refines.get (h : f.Refines s) (hsound : s.Sound) (key : Int32) :
    ∃ f', f.processGetRequests key = some (f', (s.processGetRequests key).2) ∧
      f'.Refines (s.processGetRequests key).1 := by
  obtain ⟨fi, write, read, listSize, file⟩ := f
  obtain rfl : fi = s.fi := h.fi
  obtain rfl : write = s.write := h.write
  have hcurrent : read.currentReadBlock = s.read.currentReadBlock := h.read.currentReadBlock
  have hsearch : read.RWcache.search key = some (s.read.RWcache.search key) := h.search key
  simp only [FileStore.processGetRequests, Store.processGetRequests]
  by_cases hvalue : s.write.getWrite key = []
  case neg =>
    simp only [if_neg hvalue]
    exact ⟨_, rfl, h⟩
  simp only [if_pos hvalue, ReadCache.get, Cache.getRead, hcurrent]
  by_cases hb : s.fi.getBlockNumber key = noBlock
  case pos =>
    simp only [hb, ne_eq, not_true_eq_false, if_false, Option.bind_some]
    exact ⟨_, rfl, h⟩
  simp only [if_pos hb]
  by_cases hread : s.fi.getBlockNumber key = s.read.currentReadBlock
  · simp only [if_pos hread, hsearch, Option.map_some, Option.bind_some]
    exact ⟨_, rfl, h⟩
  · simp only [if_neg hread, Option.bind_some]
    -- the block of a mapped key was written, so it can be loaded
    obtain ⟨b, hk⟩ : ∃ b, s.fi.keyBlockMap.lookup key = some b := by
      cases hk : s.fi.keyBlockMap.lookup key with
      | none =>
        rw [FileInfo.getBlockNumber, hk] at hb
        exact absurd rfl hb
      | some b => exact ⟨b, rfl⟩
    obtain ⟨_, _, m, hm, _⟩ := hsound.live.mapped key b hk
    rw [← FileInfo.getBlockNumber_of_lookup hk] at hm
    have hnamed : (⟨s.fi, s.write, { read with currentReadBlock := s.fi.getBlockNumber key }, listSize, file⟩ :
        FileStore).Refines { s with read := { s.read with currentReadBlock := s.fi.getBlockNumber key } } :=
      ⟨rfl, rfl, ⟨h.read.currentSize, h.read.holds, rfl⟩, h.dated, h.file⟩
    obtain ⟨f', hload, hrefines⟩ := hnamed.load hb hm
    refine ⟨f', ?_, hrefines⟩
    rw [hload, Option.bind_some, hrefines.search]
    rfl

theorem Refines.del (h : f.Refines s) (key : Int32) :
    ∃ f', f.processDelRequests key = some f' ∧ f'.Refines (s.processDelRequests key) := by
  rw [Store.processDelRequests_eq]
  simp only [FileStore.processDelRequests, Cache.delWrite, if_true, h.write, h.fi, Cache.delhander_write_fi]
  exact ⟨_, rfl, h.set _ rfl⟩

/-- The write of the tables, whatever order their keys come in. -/
theorem Refines.writeFile (h : f.Refines s) (iteration : Iteration) :
    ({ f with
      fi := (f.fi.writeFile (iteration.order f.fi.keyBlockMap.entries) f.file).1
      file := (f.fi.writeFile (iteration.order f.fi.keyBlockMap.entries) f.file).2 } : FileStore).Refines
      s.writeToBlock0 := by
  obtain ⟨bytes, hfile, hlies⟩ := h.file
  obtain ⟨time, hutf, hlength, hsuper⟩ := h.dated
  simp only [hfile, h.fi, FileInfo.writeFile]
  refine ⟨rfl, h.write, h.read, ⟨time, hutf, hlength, hsuper⟩, _, rfl, ?_⟩
  have hlt : time.length < 4611686018427387904 := by
    rw [hlength, FileInfo.timeLength]
    omega
  rw [Store.writeToBlock0, savedImage]
  cases hinfo : s.fi.writeToBlock0.2 with
  | none => exact hlies
  | some info =>
    have himage := FileInfo.writeToBlock0_image hinfo
    have hpasses := FileInfo.writeToBlock0_passes hsuper hlt hinfo
    have hdated : Dated info.superBlock := ⟨time, hutf, hlength, by rw [himage]; exact hsuper⟩
    have horder : (iteration.order s.fi.keyBlockMap.entries).Perm info.keyBlockMap.entries := by
      rw [himage]
      exact iteration.perm _
    exact hlies.writeImage horder hpasses hdated

theorem Refines.signalHandler (h : f.Refines s) (hsound : s.Sound)
    (hplace : s.fi.getFreeBlock.2 ≠ noBlock → s.write.RWcache.contents.Placeable) (iteration : Iteration) :
    (f.signalHandler iteration).Refines s.signalHandler := by
  obtain ⟨fi, write, read, listSize, file⟩ := f
  obtain rfl : fi = s.fi := h.fi
  obtain rfl : write = s.write := h.write
  have hfits : Fits { s with write := s.write, fi := s.fi.getFreeBlock.1 } s.fi.getFreeBlock.2 :=
    fits_alloc hsound hplace rfl
  exact ((h.alloc s.write).flush (CACHE_SIZE - s.write.currentSize) hfits).writeFile iteration

/-- A new process finds in the file what it would find in the maps. -/
theorem Refines.boot (h : f.Refines s) (hsound : s.Sound) {b : Boot} (hsize : b.infoSize.toNat ≤ maxVector) :
    ∃ f' s', FileStore.boot f.file b = some f' ∧ s.reload b.createTime = some s' ∧ f'.Refines s' := by
  obtain ⟨bytes, hfile, hlies⟩ := h.file
  obtain ⟨old, hopen, _, _⟩ := hsound.saved b.createTime
  obtain ⟨answer, hread⟩ := readFile_image hlies.image hopen hsize
  refine ⟨⟨old, Cache.new, ⟨0, Skiplist.new, noBlock⟩, b.listSize, f.file⟩,
    { s with fi := old, write := Cache.new, read := Cache.new }, ?_, ?_, ?_⟩
  · rw [hfile, FileStore.boot, hread]
  · rw [Store.reload, hopen, Option.map_some]
  · refine ⟨rfl, rfl, ⟨rfl, ⟨[], Skiplist.new_holdsAs⟩, rfl⟩, ?_, bytes, hfile, hlies⟩
    apply reopen_dated hopen
    intro info hinfo
    have himage := hlies.image
    rw [hinfo] at himage
    exact himage.2.1

end FileStore

theorem Store.serve_restart {s s' : Store} {iteration : Iteration} {b : Boot} {answer : Option Bytes}
    (hs : s.serve (.restart iteration b) = some (s', answer)) :
    s.signalHandler.reload b.createTime = some s' ∧ answer = none := by
  obtain ⟨s₁, hreload, he⟩ := Option.map_eq_some_iff.mp hs
  cases he
  exact ⟨hreload, rfl⟩

theorem Store.serve_crash {s s' : Store} {b : Boot} {answer : Option Bytes}
    (hs : s.serve (.crash b) = some (s', answer)) : s.reload b.createTime = some s' ∧ answer = none := by
  obtain ⟨s₁, hreload, he⟩ := Option.map_eq_some_iff.mp hs
  cases he
  exact ⟨hreload, rfl⟩

theorem Store.Ready.serve {s s' : Store} (h : s.Ready) {r : FileRequest} {answer : Option Bytes}
    (hs : s.serve r = some (s', answer)) : s'.Ready := by
  cases r with
  | put key value flips =>
    cases hs
    exact h.put key value flips
  | get key =>
    cases hs
    exact h.get key
  | del key =>
    cases hs
    exact Store.step_ready h (.del key) rfl
  | restart iteration b =>
    exact Store.step_ready h (.restart b.createTime) (Store.serve_restart hs).1
  | crash b =>
    obtain ⟨s₁, hreload, hsound, _, _, hread, _⟩ := h.sound.reload b.createTime
    obtain rfl : s₁ = s' := Option.some.inj (hreload.symm.trans (Store.serve_crash hs).1)
    refine ⟨hsound, Or.inl ?_⟩
    rw [hread]
    rfl

namespace FileStore

variable {f : FileStore} {s : Store}

theorem Refines.serve (h : f.Refines s) (hready : s.Ready) {r : FileRequest} (hp : s.Persists r) :
    ∃ f' s' answer, f.serve r = some (f', answer) ∧ s.serve r = some (s', answer) ∧ f'.Refines s' := by
  cases r with
  | put key value flips =>
    exact ⟨_, _, none, rfl, rfl, h.put hready.sound hp⟩
  | get key =>
    obtain ⟨f', hget, hrefines⟩ := h.get hready.sound key
    refine ⟨f', _, _, ?_, rfl, hrefines⟩
    rw [FileStore.serve, hget, Option.map_some]
  | del key =>
    obtain ⟨f', hdel, hrefines⟩ := h.del key
    refine ⟨f', _, none, ?_, rfl, hrefines⟩
    rw [FileStore.serve, hdel, Option.map_some]
  | restart iteration b =>
    have hhandled := h.signalHandler hready.sound hp.1 iteration
    have hsound := hready.sound.handlerFlush.writeToBlock0
    obtain ⟨f', s', hboot, hreload, hrefines⟩ := hhandled.boot hsound hp.2
    refine ⟨f', s', none, ?_, ?_, hrefines⟩
    · rw [FileStore.serve, hboot, Option.map_some]
    · rw [Store.serve, hreload, Option.map_some]
  | crash b =>
    obtain ⟨f', s', hboot, hreload, hrefines⟩ := h.boot hready.sound hp
    refine ⟨f', s', none, ?_, ?_, hrefines⟩
    · rw [FileStore.serve, hboot, Option.map_some]
    · rw [Store.serve, hreload, Option.map_some]

/-- The store is ready, and the file program shows it. -/
structure Follows (f : FileStore) (s : Store) : Prop where
  refines : f.Refines s
  ready : s.Ready

/-- Each request is answered alike, and the file program survives it. -/
theorem Follows.serve (h : f.Follows s) {r : FileRequest} (hp : s.Persists r) :
    ∃ f' s' answer, f.serve r = some (f', answer) ∧ s.serve r = some (s', answer) ∧ f'.Follows s' := by
  obtain ⟨f', s', answer, hf, hs, hrefines⟩ := h.refines.serve h.ready hp
  exact ⟨f', s', answer, hf, hs, hrefines, h.ready.serve hs⟩

theorem Follows.run (h : f.Follows s) (rs : List FileRequest) (hp : Along Store.serve Store.Persists s rs) :
    ∃ f' s' answers, Transducer.run FileStore.serve f rs = some (f', answers) ∧
      Transducer.run Store.serve s rs = some (s', answers) ∧ f'.Follows s' := by
  have hstep : ∀ f s r, Follows f s → s.Persists r →
      ∃ f' s' answer, f.serve r = some (f', answer) ∧ s.serve r = some (s', answer) ∧ f'.Follows s' :=
    fun _ _ _ h hp => h.serve hp
  exact run_simulates hstep rs h hp

/-- The first start, on the empty file that `main` creates. -/
theorem boot_follows {b : Boot} (hsize : b.infoSize.toNat ≤ maxVector) :
    ∃ f, FileStore.boot (some []) b = some f ∧ f.Follows (Store.start b.createTime) := by
  have hblank : Blank [] 8 := fun i c _ hc => by simp at hc
  refine ⟨⟨FileInfo.new b.createTime, Cache.new, ⟨0, Skiplist.new, noBlock⟩, b.listSize, some []⟩, ?_, ?_,
    Store.start_ready b.createTime⟩
  · rw [FileStore.boot, readFile_blank hblank _ hsize]
  · exact ⟨rfl, rfl, ⟨rfl, ⟨[], Skiplist.new_holdsAs⟩, rfl⟩, ⟨b.createTime, b.utf8, b.length, rfl⟩, [], rfl,
      nofun, hblank, Nat.zero_le _⟩

/-- From the empty file on, a program that keeps its blocks apart survives every request and
answers as the store on stored maps does, and its file keeps to `FILE_SIZE`. -/
theorem file_refines_store {b : Boot} (hsize : b.infoSize.toNat ≤ maxVector) (rs : List FileRequest)
    (hp : Along Store.serve Store.Persists (Store.start b.createTime) rs) :
    ∃ f f' s' answers, FileStore.boot (some []) b = some f ∧ run FileStore.serve f rs = some (f', answers) ∧
      run Store.serve (Store.start b.createTime) rs = some (s', answers) ∧ f'.Refines s' ∧
        ∀ bytes ∈ f'.file, bytes.length ≤ FILE_SIZE.toNat := by
  obtain ⟨f, hboot, hfollows⟩ := boot_follows hsize
  obtain ⟨f', s', answers, hf, hs, hend⟩ := hfollows.run rs hp
  refine ⟨f, f', s', answers, hboot, hf, hs, hend.refines, ?_⟩
  obtain ⟨bytes, hfile, hlies⟩ := hend.refines.file
  rw [hfile]
  intro bytes' hbytes
  obtain rfl : bytes = bytes' := Option.some.inj hbytes
  exact hlies.length

/-- The clock at the epoch, and what the memory held. -/
def epochBoot (size : SizeT) : Boot :=
  ⟨WriteSide.epoch, by decide, rfl, size, size⟩

/-- Two keys are written to the file, and found there by two later processes. -/
def rebooted : List FileRequest :=
  [.put 1 [97] fun _ => true, .put (-5) [98, 99] fun i => i.val = 2, .restart ⟨List.reverse, List.reverse_perm⟩ (epochBoot 7),
    .get 1, .crash (epochBoot 0), .get (-5), .del (-5), .get 3]

theorem file_refines_store_rebooted :
    Along Store.serve Store.Persists (Store.start WriteSide.epoch) rebooted ∧
      ∃ f f' s' answers, FileStore.boot (some []) (epochBoot 9) = some f ∧
        run FileStore.serve f rebooted = some (f', answers) ∧
          run Store.serve (Store.start WriteSide.epoch) rebooted = some (s', answers) ∧ f'.Refines s' ∧
            ∀ bytes ∈ f'.file, bytes.length ≤ FILE_SIZE.toNat := by
  have hp : Along Store.serve Store.Persists (Store.start WriteSide.epoch) rebooted := by decide +kernel
  exact ⟨hp, file_refines_store (b := epochBoot 9) (by decide) rebooted hp⟩

end FileStore

end KVStorage

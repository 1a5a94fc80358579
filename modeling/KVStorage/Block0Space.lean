import KVStorage.IndexSize
import KVStorage.Library.Runs

/-!
# The free-space field of block 0

Two rules keep it and neither looks at the other: a key that is mapped or unmapped
counts for 12 bytes, and `writeToBlock0` sets the field to what its own measure of the
image leaves, before it checks that the image fits.
-/

namespace KVStorage

set_option autoImplicit false

open Runs

inductive Block0Op where
  | addKeyBlockMapping (key : Int32) (blockNumber : SizeT)
  | delKeyBlockMapping (key : Int32)
  /-- `opens` says whether the stream opens the file. -/
  | writeToBlock0 (opens : Bool)

namespace FileInfo

def call (fi : FileInfo) : Block0Op → FileInfo
  | .addKeyBlockMapping key blockNumber => fi.addKeyBlockMapping key blockNumber
  | .delKeyBlockMapping key => (fi.delKeyBlockMapping key).1
  | .writeToBlock0 opens => if opens then fi.writeToBlock0.1 else fi

def calls (fi : FileInfo) (ops : List Block0Op) : FileInfo := ops.foldl call fi

/-- `blockIndexTable[0].freeSpace`. -/
def block0Space (fi : FileInfo) : SizeT := (fi.blockIndexTable block0).freeSpace

/-- `info.ByteSizeLong()`, with the tables as they are. -/
def measured (fi : FileInfo) : SizeT := UInt64.ofNat fi.toProto.byteSizeLong

/-- The check of `writeToBlock0`, on the message with the free space already set. -/
def TooLarge (fi : FileInfo) : Prop :=
  BLOCK_SIZE < (fi.setFreeSpace block0 (BLOCK_SIZE - fi.measured)).measured + 8

def mapped (fi : FileInfo) : Nat := fi.keyBlockMap.keys.length

/-- The two tables and the key map are the same. -/
structure SameTables (fi fi' : FileInfo) : Prop where
  usage : fi'.blockUsageTable = fi.blockUsageTable
  index : fi'.blockIndexTable = fi.blockIndexTable
  map : fi'.keyBlockMap = fi.keyBlockMap

variable {fi : FileInfo} {key : Int32} {b : SizeT}

/-! ## What each call does to the field and to the number of keys -/

theorem setFreeSpace_space (fi : FileInfo) (n : SizeT) : (fi.setFreeSpace block0 n).block0Space = n := by
  simp [block0Space, setFreeSpace]

theorem addKeyBlockMapping_old (h : fi.keyBlockMap.lookup key = some b) (block : SizeT) :
    fi.addKeyBlockMapping key block = fi := by
  rw [addKeyBlockMapping, h]

theorem addKeyBlockMapping_new (h : fi.keyBlockMap.lookup key = none) (block : SizeT) :
    (fi.addKeyBlockMapping key block).block0Space = fi.block0Space - mappingSize ∧
      (fi.addKeyBlockMapping key block).mapped = fi.mapped + 1 := by
  rw [addKeyBlockMapping, h]
  exact ⟨setFreeSpace_space _ _, SortedMap.length_insert_new h block⟩

theorem delKeyBlockMapping_none (h : fi.keyBlockMap.lookup key = none) :
    (fi.delKeyBlockMapping key).1 = fi := by
  rw [delKeyBlockMapping, h]

theorem delKeyBlockMapping_some (h : fi.keyBlockMap.lookup key = some b) :
    (fi.delKeyBlockMapping key).1.block0Space = fi.block0Space + mappingSize ∧
      (fi.delKeyBlockMapping key).1.mapped + 1 = fi.mapped := by
  rw [delKeyBlockMapping, h]
  exact ⟨setFreeSpace_space _ _, SortedMap.length_erase_old h⟩

theorem writeToBlock0_space (fi : FileInfo) :
    fi.writeToBlock0.1.block0Space = BLOCK_SIZE - fi.measured :=
  setFreeSpace_space _ _

theorem writeToBlock0_refuses (fi : FileInfo) : fi.writeToBlock0.2 = none ↔ fi.TooLarge := by
  have hanswer : fi.writeToBlock0.2 =
      if (fi.setFreeSpace block0 (BLOCK_SIZE - fi.measured)).measured + 8 > BLOCK_SIZE then none
      else some fi.writeToBlock0.1.toProto := rfl
  rw [hanswer, TooLarge]
  simp

theorem writeToBlock0_sameTables (fi : FileInfo) :
    SameTables fi fi.writeToBlock0.1 ↔ fi.writeToBlock0.1.block0Space = fi.block0Space := by
  constructor
  · intro h
    rw [block0Space, h.index]
    rfl
  · intro h
    refine ⟨rfl, ?_, rfl⟩
    rw [writeToBlock0_space] at h
    change Function.update fi.blockIndexTable block0
      { fi.blockIndexTable block0 with freeSpace := BLOCK_SIZE - fi.measured } = fi.blockIndexTable
    rw [h]
    exact Function.update_eq_self _ _

end FileInfo

/-- The tables, with what the last `writeToBlock0` on an open file measured. -/
structure Block0Record where
  fi : FileInfo
  /-- 0 before the first such call. -/
  image : Nat
  /-- The number of keys mapped at that call. -/
  keys : Nat

namespace Block0Record

open FileInfo

def start (createTime : Bytes) : Block0Record := ⟨new createTime, 0, 0⟩

def step (r : Block0Record) (op : Block0Op) : Option Block0Record :=
  match op with
  | .writeToBlock0 true => some ⟨r.fi.call op, r.fi.measured.toNat, r.fi.mapped⟩
  | _ => some { r with fi := r.fi.call op }

/-- What a call has to find. The last image and 12 bytes for every key since then must leave room
for a key that is mapped, and must have taken what a key gives back that is unmapped. An image must
not be measured larger than the block, and one that is refused must measure what the field implies. -/
def Covered (r : Block0Record) : Block0Op → Prop
  | .addKeyBlockMapping key _ => r.fi.keyBlockMap.lookup key = none →
    r.image + 12 * (r.fi.mapped + 1) ≤ BLOCK_SIZE.toNat + 12 * r.keys
  | .delKeyBlockMapping key => r.fi.keyBlockMap.lookup key ≠ none →
    12 * (r.keys + 1) ≤ r.image + 12 * r.fi.mapped
  | .writeToBlock0 opens => opens = true → r.fi.measured ≤ BLOCK_SIZE ∧
    (r.fi.TooLarge → r.image + 12 * r.fi.mapped = r.fi.measured.toNat + 12 * r.keys)

def InBlock (r : Block0Record) : Prop := r.fi.block0Space ≤ BLOCK_SIZE

/-- A refused image leaves the tables as they were. -/
def Keeps (r : Block0Record) (op : Block0Op) : Prop :=
  op = .writeToBlock0 true → r.fi.writeToBlock0.2 = none → SameTables r.fi r.fi.writeToBlock0.1

/-- The field is what the last image and 12 bytes for every key since then leave of the block. -/
structure Balanced (r : Block0Record) : Prop where
  inBlock : r.InBlock
  image_le : r.image ≤ BLOCK_SIZE.toNat
  account : r.fi.block0Space.toNat + r.image + 12 * r.fi.mapped = BLOCK_SIZE.toNat + 12 * r.keys

variable {r r' : Block0Record} {op : Block0Op}

theorem start_balanced (createTime : Bytes) : (start createTime).Balanced :=
  ⟨UInt64.le_refl _, Nat.zero_le _, rfl⟩

theorem step_fi (h : r.step op = some r') : r'.fi = r.fi.call op := by
  unfold step at h
  split at h <;> exact (congrArg fi (Option.some.inj h)).symm

theorem exec_fi (r : Block0Record) (ops : List Block0Op) : (exec step r ops).fi = r.fi.calls ops := by
  induction ops generalizing r with
  | nil => rfl
  | cons op ops ih =>
    obtain ⟨r', hr'⟩ : ∃ r', r.step op = some r' := by
      unfold step
      split <;> exact ⟨_, rfl⟩
    rw [exec, ih, next_eq hr', step_fi hr']
    rfl

/-! ## The two rules in machine arithmetic -/

theorem sub_mappingSize_le {a : SizeT} (h : a ≤ BLOCK_SIZE) :
    a - FileInfo.mappingSize ≤ BLOCK_SIZE ↔ 12 ≤ a.toNat := by
  have hm : mappingSize.toNat = 12 := rfl
  rw [UInt64.le_iff_toNat_le, blockSize_toNat] at h ⊢
  rw [UInt64.toNat_sub, hm]
  omega

theorem sub_mappingSize_toNat {a : SizeT} (h : 12 ≤ a.toNat) :
    (a - FileInfo.mappingSize).toNat + 12 = a.toNat := by
  have hm : mappingSize.toNat = 12 := rfl
  have hlt := a.toNat_lt
  rw [UInt64.toNat_sub, hm]
  omega

theorem add_mappingSize_toNat {a : SizeT} (h : a ≤ BLOCK_SIZE) :
    (a + FileInfo.mappingSize).toNat = a.toNat + 12 := by
  have hm : mappingSize.toNat = 12 := rfl
  rw [UInt64.le_iff_toNat_le, blockSize_toNat] at h
  rw [UInt64.toNat_add, hm]
  omega

theorem sub_le_iff (m : SizeT) : BLOCK_SIZE - m ≤ BLOCK_SIZE ↔ m ≤ BLOCK_SIZE := by
  have hlt := m.toNat_lt
  rw [UInt64.le_iff_toNat_le, UInt64.le_iff_toNat_le, UInt64.toNat_sub, blockSize_toNat]
  omega

/-- The field after a write is not what `c` mapped bytes leave of the block, for a larger measure. -/
theorem sub_add_ne {m : SizeT} {c : Nat} (h : c < m.toNat) :
    BLOCK_SIZE - m + UInt64.ofNat c ≠ BLOCK_SIZE := by
  intro he
  have hlt := m.toNat_lt
  have hval := congrArg UInt64.toNat he
  rw [UInt64.toNat_add, UInt64.toNat_sub, UInt64.toNat_ofNat', blockSize_toNat] at hval
  omega

/-! ## Each call -/

theorem Balanced.add (h : r.Balanced) {key : Int32} {block : SizeT}
    (hs : r.step (.addKeyBlockMapping key block) = some r') :
    (r'.InBlock ↔ r.Covered (.addKeyBlockMapping key block)) ∧
      (r.Covered (.addKeyBlockMapping key block) → r'.Balanced) := by
  obtain rfl : { r with fi := r.fi.addKeyBlockMapping key block } = r' := Option.some.inj hs
  have haccount := h.account
  cases hk : r.fi.keyBlockMap.lookup key with
  | some b =>
    have hcovered : r.Covered (.addKeyBlockMapping key block) := fun hn => by simp [hk] at hn
    rw [addKeyBlockMapping_old hk]
    exact ⟨iff_of_true h.inBlock hcovered, fun _ => h⟩
  | none =>
    obtain ⟨hspace, hcount⟩ := addKeyBlockMapping_new hk block
    have hcovered : r.Covered (.addKeyBlockMapping key block) ↔ 12 ≤ r.fi.block0Space.toNat := by
      rw [Covered, forall_prop_of_true hk]
      omega
    have hle := sub_mappingSize_le h.inBlock
    rw [hcovered, ← hle, ← hspace]
    refine ⟨Iff.rfl, ?_⟩
    intro hnew
    have hval := sub_mappingSize_toNat (hle.mp (hspace ▸ hnew))
    refine ⟨hnew, h.image_le, ?_⟩
    dsimp only
    rw [hspace, hcount]
    omega

theorem Balanced.del (h : r.Balanced) {key : Int32} (hs : r.step (.delKeyBlockMapping key) = some r') :
    (r'.InBlock ↔ r.Covered (.delKeyBlockMapping key)) ∧
      (r.Covered (.delKeyBlockMapping key) → r'.Balanced) := by
  obtain rfl : { r with fi := (r.fi.delKeyBlockMapping key).1 } = r' := Option.some.inj hs
  have haccount := h.account
  cases hk : r.fi.keyBlockMap.lookup key with
  | none =>
    have hcovered : r.Covered (.delKeyBlockMapping key) := fun hn => absurd hk hn
    rw [delKeyBlockMapping_none hk]
    exact ⟨iff_of_true h.inBlock hcovered, fun _ => h⟩
  | some b =>
    obtain ⟨hspace, hcount⟩ := delKeyBlockMapping_some hk
    have hval := add_mappingSize_toNat h.inBlock
    have hcovered : r.Covered (.delKeyBlockMapping key) ↔
        (r.fi.delKeyBlockMapping key).1.block0Space ≤ BLOCK_SIZE := by
      rw [Covered, forall_prop_of_true (by simp [hk]), UInt64.le_iff_toNat_le, hspace, hval]
      omega
    refine ⟨hcovered.symm, ?_⟩
    intro hc
    refine ⟨hcovered.mp hc, h.image_le, ?_⟩
    dsimp only
    rw [hspace, hval]
    omega

theorem Balanced.write (h : r.Balanced) (hs : r.step (.writeToBlock0 true) = some r') :
    (r'.InBlock ∧ r.Keeps (.writeToBlock0 true) ↔ r.Covered (.writeToBlock0 true)) ∧
      (r.Covered (.writeToBlock0 true) → r'.Balanced) := by
  obtain rfl : ⟨r.fi.writeToBlock0.1, r.fi.measured.toNat, r.fi.mapped⟩ = r' := Option.some.inj hs
  have haccount := h.account
  have hspace := r.fi.writeToBlock0_space
  have hval : r.fi.measured ≤ BLOCK_SIZE →
      (BLOCK_SIZE - r.fi.measured).toNat + r.fi.measured.toNat = BLOCK_SIZE.toNat := by
    intro hm
    rw [UInt64.toNat_sub_of_le _ _ hm]
    exact Nat.sub_add_cancel (UInt64.le_iff_toNat_le.mp hm)
  constructor
  · rw [InBlock, Covered, forall_prop_of_true rfl, hspace, sub_le_iff]
    apply and_congr_right
    intro hm
    have hm' := hval hm
    rw [Keeps, forall_prop_of_true rfl, writeToBlock0_refuses]
    apply imp_congr_right
    intro _
    rw [writeToBlock0_sameTables, hspace, ← UInt64.toNat_inj]
    omega
  · intro hc
    obtain ⟨hm, _⟩ := hc rfl
    refine ⟨?_, UInt64.le_iff_toNat_le.mp hm, ?_⟩
    · rw [InBlock, hspace, sub_le_iff]
      exact hm
    · change r.fi.writeToBlock0.1.block0Space.toNat + r.fi.measured.toNat + 12 * r.fi.mapped = _
      rw [hspace, hval hm]

theorem Balanced.step_iff (h : r.Balanced) (hs : r.step op = some r') :
    (r'.InBlock ∧ r.Keeps op ↔ r.Covered op) ∧ (r.Covered op → r'.Balanced) := by
  cases op with
  | addKeyBlockMapping key block =>
    have hkeeps : r.Keeps (.addKeyBlockMapping key block) := fun hop => by simp at hop
    rw [and_iff_left hkeeps]
    exact h.add hs
  | delKeyBlockMapping key =>
    have hkeeps : r.Keeps (.delKeyBlockMapping key) := fun hop => by simp at hop
    rw [and_iff_left hkeeps]
    exact h.del hs
  | writeToBlock0 opens =>
    cases opens with
    | true => exact h.write hs
    | false =>
      obtain rfl : r = r' := Option.some.inj hs
      have hkeeps : r.Keeps (.writeToBlock0 false) := fun hop => by simp at hop
      have hcovered : r.Covered (.writeToBlock0 false) := fun hop => by simp at hop
      exact ⟨iff_of_true ⟨h.inBlock, hkeeps⟩ hcovered, fun _ => h⟩

/-- The field stays within the block and refused images leave the tables alone exactly in the runs
whose calls are covered. -/
theorem block0_space_iff (createTime : Bytes) (ops : List Block0Op) :
    ((∀ bs, bs <+: ops → ((new createTime).calls bs).block0Space ≤ BLOCK_SIZE) ∧
      ∀ bs, bs ++ [.writeToBlock0 true] <+: ops →
        ((new createTime).calls bs).writeToBlock0.2 = none →
          SameTables ((new createTime).calls bs) ((new createTime).calls bs).writeToBlock0.1) ↔
      Along step Covered (start createTime) ops := by
  have hstart := start_balanced createTime
  have hspace : (∀ bs, bs <+: ops → ((new createTime).calls bs).block0Space ≤ BLOCK_SIZE) ↔
      Along step (fun r op => (next step r op).InBlock) (start createTime) ops := by
    rw [← throughout_iff_along hstart.inBlock]
    simp only [InBlock, exec_fi]
    exact Iff.rfl
  have hkeeps : (∀ bs, bs ++ [.writeToBlock0 true] <+: ops →
      ((new createTime).calls bs).writeToBlock0.2 = none →
        SameTables ((new createTime).calls bs) ((new createTime).calls bs).writeToBlock0.1) ↔
      Along step Keeps (start createTime) ops := by
    rw [along_iff_steps]
    simp only [Keeps, exec_fi]
    constructor
    · rintro h bs op hbs _ rfl
      exact h bs hbs
    · intro h bs hbs
      exact h bs _ hbs rfl rfl
  rw [hspace, hkeeps, ← along_and_iff]
  have hstep : ∀ (r : Block0Record) op r', r.Balanced → r.Covered op → r.step op = some r' → r'.Balanced :=
    fun r op r' h hc hs => (h.step_iff hs).2 hc
  apply along_congr hstep ?_ ops hstart
  intro r op r' h hs
  rw [next_eq hs]
  exact (h.step_iff hs).1

/-! ## A run of each kind that is not covered -/

theorem calls_adds (fi : FileInfo) (ks : List Int32) (b : SizeT) :
    fi.calls (ks.map fun k => .addKeyBlockMapping k b) = fi.mapKeys ks b := by
  rw [calls, List.foldl_map]
  rfl

theorem mapKeys_space (fi : FileInfo) {ks : List Int32} (hks : ks.Nodup)
    (h : ∀ k ∈ ks, fi.keyBlockMap.lookup k = none) (b : SizeT) :
    (fi.mapKeys ks b).block0Space + UInt64.ofNat (12 * ks.length) = fi.block0Space := by
  induction ks generalizing fi with
  | nil => exact UInt64.add_zero _
  | cons k ks ih =>
    obtain ⟨hk, hks⟩ := List.nodup_cons.mp hks
    have hnone := h k List.mem_cons_self
    have hrest : ∀ k' ∈ ks, (fi.addKeyBlockMapping k b).keyBlockMap.lookup k' = none := by
      intro k' hk'
      have hne : k' ≠ k := fun he => hk (he ▸ hk')
      rw [addKeyBlockMapping_lookup, h k' (List.mem_cons_of_mem k hk'), if_neg hne]
      rfl
    have hstep : fi.mapKeys (k :: ks) b = (fi.addKeyBlockMapping k b).mapKeys ks b := rfl
    have hm : UInt64.ofNat 12 = mappingSize := rfl
    rw [hstep, List.length_cons, Nat.mul_succ, UInt64.ofNat_add, ← UInt64.add_assoc, ih _ hks hrest,
      (addKeyBlockMapping_new hnone b).1, hm, UInt64.sub_add_cancel]

/-- The `n` smallest keys, in the first data block. -/
def lowAdds (n : Nat) : List Block0Op :=
  ((List.range n).map WriteSide.lowKey).map fun k => .addKeyBlockMapping k 1

/-- With 15 bytes for each key the image of 4473925 keys is larger than the block. The field is
then set to the negative difference, and the image is refused. -/
theorem lowAdds_refused {time : Bytes} (ht : time.length = timeLength) {n : Nat} (hn : 4473925 ≤ n)
    (hmax : n ≤ 2147483648) :
    ((new time).calls (lowAdds n)).writeToBlock0.2 = none ∧
      ¬SameTables ((new time).calls (lowAdds n)) ((new time).calls (lowAdds n)).writeToBlock0.1 := by
  have hlookup : ∀ k, ((new time).mapKeys ((List.range n).map WriteSide.lowKey) 1).keyBlockMap.lookup k =
      if k ∈ (List.range n).map WriteSide.lowKey then some 1 else none := fun k => mapKeys_lookup _ _ _ k
  have hlive := (new_live time).mapKeys ((List.range n).map WriteSide.lowKey) (b := 1) (by decide)
  have hspace := mapKeys_space (new time) (WriteSide.lowKeys_nodup hmax) (fun _ _ => rfl) 1
  rw [List.length_map, List.length_range] at hspace
  rw [lowAdds, calls_adds]
  generalize (new time).mapKeys ((List.range n).map WriteSide.lowKey) 1 = fi at hlookup hlive hspace ⊢
  have hcount : n ≤ fi.keyBlockMap.keys.length := by
    apply WriteSide.lowKey_count hmax
    intro i hi
    rw [hlookup, if_pos (List.mem_map_of_mem (List.mem_range.mpr hi))]
    rfl
  have hnegative : ∀ k ∈ fi.keyBlockMap.keys, k < 0 := by
    intro k hk
    obtain ⟨v, hv⟩ := (fi.keyBlockMap.mem_keys_iff k).mp hk
    rw [hlookup] at hv
    split at hv
    · obtain ⟨i, hi, rfl⟩ := List.mem_map.mp ‹_›
      have hin := List.mem_range.mp hi
      exact WriteSide.lowKey_negative (by omega)
    · simp at hv
  have hsum := entries_sum_negative hnegative
  have hkeys := keys_length_le fi.keyBlockMap
  constructor
  · have hmap : fi.writeToBlock0.1.toProto.keyBlockMap = fi.keyBlockMap := rfl
    rw [← Option.not_isSome_iff_eq_none, hlive.writeToBlock0_iff ht, InfoProto.indexBytes, hmap, hsum,
      blockSize_toNat]
    omega
  · rw [writeToBlock0_sameTables, writeToBlock0_space]
    intro hsame
    have htable := tableBytes_le hlive ht
    have hmeasured : fi.measured.toNat = fi.toProto.tableBytes + 15 * fi.keyBlockMap.keys.length := by
      rw [measured, UInt64.toNat_ofNat', hlive.byteSizeLong_eq, hsum]
      omega
    have hfresh : (new time).block0Space = BLOCK_SIZE := rfl
    rw [← hsame, hfresh] at hspace
    exact Block0Record.sub_add_ne (by omega) hspace

/-- `n` keys are mapped, the image is written, and the keys are unmapped. -/
def addWriteDel (n : Nat) : List Block0Op :=
  (List.range n).map (fun i => .addKeyBlockMapping (Int32.ofNat i) 1) ++ [.writeToBlock0 true] ++
    (List.range n).map fun i => .delKeyBlockMapping (Int32.ofNat i)

/-- 60 keys cost 6 bytes each in the image and give back 12; the write after 4473925 other keys is
refused and has changed the index table. -/
theorem block0_space_exceeds :
    BLOCK_SIZE < ((new WriteSide.epoch).calls (addWriteDel 60)).block0Space ∧
      ((new WriteSide.epoch).calls (lowAdds 4473925)).writeToBlock0.2 = none ∧
      ¬SameTables ((new WriteSide.epoch).calls (lowAdds 4473925))
        ((new WriteSide.epoch).calls (lowAdds 4473925)).writeToBlock0.1 := by
  refine ⟨by decide +kernel, ?_⟩
  exact lowAdds_refused rfl le_rfl (by omega)

end Block0Record

end KVStorage

import KVStorage.FailedIo
import KVStorage.SizeAccounting

/-!
# The size of a loaded block

`deserialize` charges every record of the message, by the capacity of the string that was
parsed; `erase` refunds the nodes of the list, by the capacity of their own copies. The
head's record is charged and never refunded.
-/

namespace KVStorage

set_option autoImplicit false

/-- What the parsed string has beyond its copy in the node. -/
def overcharge (value : Bytes) : Nat :=
  (CppString.empty.assign (CppString.ofBytes value)).capacity - (CppString.ofBytes value).capacity

/-- A parsed string that no longer fits the object gets room for 30 characters at least. -/
theorem parsed_capacity (value : Bytes) : (CppString.empty.assign (CppString.ofBytes value)).capacity =
    if value.length ≤ 15 then 15 else max value.length 30 := rfl

theorem copied_capacity (value : Bytes) : (CppString.ofBytes value).capacity = max 15 value.length := rfl

theorem overcharge_eq (value : Bytes) :
    overcharge value = if 15 < value.length ∧ value.length < 30 then 30 - value.length else 0 := by
  rw [overcharge, parsed_capacity, copied_capacity]
  split <;> split <;> omega

theorem parsed_capacity_eq_add (value : Bytes) : (CppString.empty.assign (CppString.ofBytes value)).capacity =
    (CppString.ofBytes value).capacity + overcharge value := by
  rw [overcharge_eq, parsed_capacity, copied_capacity]
  split <;> split <;> omega

/-- The size of the head's record and the overcharges of the values. -/
def surplus (items : List (Int32 × Bytes)) : Nat :=
  4 + CppString.localCapacity + 8 * level + (items.map fun e => overcharge e.2).sum

theorem surplus_pos (items : List (Int32 × Bytes)) : 0 < surplus items := by
  unfold surplus
  omega

namespace NodeProto

/-- What a record is charged. -/
def charge (r : NodeProto) : Nat := 4 + (CppString.empty.assign (CppString.ofBytes r.value)).capacity + 8 * level

theorem charge_le (r : NodeProto) : r.charge ≤ 84 * (1 + WireSize.delimited r.byteSizeLong) := by
  have hvalue := value_length_le r
  have hlevel : level = 8 := rfl
  rw [charge, parsed_capacity, WireSize.delimited]
  split <;> omega

theorem charges_le (rs : List NodeProto) : (rs.map charge).sum ≤ 84 * listByteSize rs := by
  induction rs with
  | nil => exact Nat.zero_le _
  | cons r rs ih =>
    have hr := charge_le r
    simp only [listByteSize, List.map_cons, List.sum_cons] at ih ⊢
    omega

end NodeProto

namespace Skiplist

open NodeProto

variable {sl sl' : Skiplist} {rs : List NodeProto} {ts : List Tower} {m : Contents}

theorem createNodes_size (rs : List NodeProto) (sl : Skiplist) (nm : NodeMap) (size : SizeT)
    (h : size.toNat + (rs.map charge).sum < 2 ^ 64) :
    (createNodes rs sl nm size).2.2.toNat = size.toNat + (rs.map charge).sum := by
  induction rs generalizing sl nm size with
  | nil => rfl
  | cons r rs ih =>
    rw [List.map_cons, List.sum_cons] at h ⊢
    have hcharge : r.charge = 4 + (CppString.empty.assign (CppString.ofBytes r.value)).capacity + 8 * level := rfl
    have hlevel : level = 8 := rfl
    have hnode : (nodeSize (CppString.empty.assign (CppString.ofBytes r.value)).capacity).toNat = r.charge := by
      rw [Cache.nodeSize_toNat (by omega), hcharge]
    have hsum : (size + nodeSize (CppString.empty.assign (CppString.ofBytes r.value)).capacity).toNat =
        size.toNat + r.charge := by
      rw [UInt64.toNat_add, hnode, Nat.mod_eq_of_lt (by omega)]
    rw [createNodes, ih _ _ _ (by omega), hsum]
    omega

theorem rebuild_size {totalSize : SizeT} (h : (rs.map charge).sum < 2 ^ 64)
    (hrebuild : sl.rebuild rs = some (sl', totalSize)) : totalSize.toNat = (rs.map charge).sum := by
  simp only [rebuild, Option.bind_eq_bind, Option.bind_eq_some_iff, Option.some.injEq, Prod.mk.injEq] at hrebuild
  obtain ⟨cleared, _, heap, _, _, _, _, hsize⟩ := hrebuild
  rw [← hsize, createNodes_size rs cleared _ 0 (by rwa [UInt64.toNat_zero, Nat.zero_add]), UInt64.toNat_zero,
    Nat.zero_add]

/-- The nodes of the loaded list, each with a string of its own. -/
def loadedContents (m : Contents) : Contents := (m.mapValues (·.data)).mapValues CppString.ofBytes

theorem HoldsAs.charges (h : sl.HoldsAs ts m) :
    ((protoOf ts).map charge).sum = accounted (loadedContents m) + surplus (ts.map fun t => (t.key, t.value.data)) := by
  have hhead : charge ⟨-1, [], (List.finRange level).map (firstKey ts)⟩ = 4 + CppString.localCapacity + 8 * level :=
    rfl
  have htowers : ∀ us : List Tower, ((towerProtos us).map charge).sum =
      (us.map fun t => 4 + (CppString.ofBytes t.value.data).capacity + 8 * level).sum +
        (us.map fun t => overcharge t.value.data).sum := by
    intro us
    induction us with
    | nil => rfl
    | cons u us ih =>
      simp only [towerProtos, List.map_cons, List.sum_cons, ih, charge, parsed_capacity_eq_add]
      omega
  have haccounted : accounted (loadedContents m) =
      (ts.map fun t => 4 + (CppString.ofBytes t.value.data).capacity + 8 * level).sum := by
    simp only [accounted, SortedMap.total, loadedContents, SortedMap.mapValues, h.entries, List.map_map]
    rfl
  have hover : ((ts.map fun t => (t.key, t.value.data)).map fun e => overcharge e.2) =
      ts.map fun t => overcharge t.value.data := List.map_map
  rw [protoOf, List.map_cons, List.sum_cons, hhead, htowers, haccounted, surplus, hover]
  omega

end Skiplist

/-! ## Deleting the loaded nodes -/

namespace ReadCache

/-- `delhander` on the list in memory. -/
def delhander (c : ReadCache) (key : Int32) : Option ReadCache :=
  (c.RWcache.erase key).map fun r =>
    match r.2 with
    | none => { c with RWcache := r.1 }
    | some nodeSize => { c with RWcache := r.1, currentSize := c.currentSize - nodeSize }

def deleteAll : ReadCache → List Int32 → Option ReadCache
  | c, [] => some c
  | c, key :: keys => do
    let c ← c.delhander key
    c.deleteAll keys

/-- The size `erase` reports for a key. -/
def refund (c : ReadCache) (key : Int32) : SizeT := ((c.RWcache.erase key).bind (·.2)).getD 0

/-- The size kept is what the erases of the nodes report, and the deletion of them all, in whatever
order, takes it to 0. -/
structure AccountedAsRefunded (c : ReadCache) (items : List (Int32 × Bytes)) : Prop where
  sum : c.currentSize.toNat = (items.map fun e => (c.refund e.1).toNat).sum
  emptied : ∀ keys, keys.Perm (items.map Prod.fst) → ∃ c', c.deleteAll keys = some c' ∧ c'.currentSize = 0

variable {c : ReadCache} {m : Contents} {n : Nat}

theorem erase_eq (l : ValidList) (key : Int32) :
    l.list.erase key =
      some ((l.erase key).1.list, (l.contents.lookup key).map fun s => Skiplist.nodeSize s.capacity) := by
  rw [← ValidList.erase_size]
  exact (Option.some_get (l.erase_isSome key)).symm

theorem delhander_holds (h : c.RWcache.Holds m) (hsize : c.currentSize.toNat = accounted m + n) (key : Int32) :
    ∃ c', c.delhander key = some c' ∧ c'.RWcache.Holds (m.erase key) ∧
      c'.currentSize.toNat = accounted (m.erase key) + n := by
  have herase := erase_eq ⟨c.RWcache, m, h⟩ key
  have hholds := (ValidList.erase ⟨c.RWcache, m, h⟩ key).1.holds
  have hcount := accounted_erase m key
  have hkept := (Cache.delhander_size (c := ⟨c.currentSize, ⟨c.RWcache, m, h⟩, c.currentReadBlock⟩) hsize
    (FileInfo.new []) key none).1
  unfold Cache.delhander at hkept
  rw [ValidList.erase_size] at hkept
  refine ⟨_, congrArg (Option.map _) herase, ?_⟩
  cases hlook : m.lookup key with
  | none =>
    rw [hlook, Option.map_none, Option.getD_none, Nat.add_zero] at hcount
    refine ⟨hholds, ?_⟩
    rw [hcount]
    exact hsize
  | some old =>
    simp only [hlook, Option.map_some] at hkept
    exact ⟨hholds, hkept⟩

theorem deleteAll_holds (keys : List Int32) (h : c.RWcache.Holds m) (hsize : c.currentSize.toNat = accounted m + n) :
    ∃ c', c.deleteAll keys = some c' ∧ c'.RWcache.Holds (keys.foldl SortedMap.erase m) ∧
      c'.currentSize.toNat = accounted (keys.foldl SortedMap.erase m) + n := by
  induction keys generalizing c m with
  | nil => exact ⟨c, rfl, h, hsize⟩
  | cons key keys ih =>
    obtain ⟨c₁, hdel, hholds₁, hsize₁⟩ := delhander_holds h hsize key
    obtain ⟨c', hrest, hholds', hsize'⟩ := ih hholds₁ hsize₁
    refine ⟨c', ?_, hholds', hsize'⟩
    rw [deleteAll, hdel]
    exact hrest

theorem foldl_erase_lookup (keys : List Int32) (m : Contents) (k : Int32) :
    (keys.foldl SortedMap.erase m).lookup k = if k ∈ keys then none else m.lookup k := by
  induction keys generalizing m with
  | nil => rfl
  | cons key keys ih =>
    rw [List.foldl_cons, ih, SortedMap.lookup_erase]
    by_cases hk : k = key
    · simp [hk]
    · simp [hk]

theorem foldl_erase_keys {keys : List Int32} (hkeys : keys.Perm m.keys) :
    keys.foldl SortedMap.erase m = SortedMap.empty := by
  apply SortedMap.ext_lookup
  intro k
  rw [foldl_erase_lookup, SortedMap.lookup_empty]
  split
  · rfl
  · apply (SortedMap.lookup_eq_none_iff m k).mpr
    rwa [← hkeys.mem_iff]

theorem refunds_eq (h : c.RWcache.Holds m) (hlt : accounted m < 2 ^ 64) :
    (m.entries.map fun e => (c.refund e.1).toNat).sum = accounted m := by
  unfold accounted SortedMap.total
  congr 1
  apply List.map_congr_left
  rintro ⟨key, s⟩ he
  have hlook : m.lookup key = some s := (m.lookup_eq_some_iff key s).mpr he
  have hcount := accounted_erase m key
  have hlevel : level = 8 := rfl
  rw [hlook, Option.map_some, Option.getD_some] at hcount
  simp only [refund, erase_eq ⟨c.RWcache, m, h⟩ key, Option.bind_some, hlook, Option.map_some, Option.getD_some]
  exact Cache.nodeSize_toNat (by omega)

theorem loadFromDisk_loaded (c : Cache) {serializedSize block totalSize : SizeT} {file : Option Bytes}
    {list : Skiplist} (hblock : block ≠ noBlock)
    (hload : c.RWcache.clear.list.deserializeFile serializedSize file (block * CACHE_SIZE) =
      .loaded list totalSize) :
    (ofCache c).loadFromDisk serializedSize file block = .returned ⟨totalSize, list, c.currentReadBlock⟩ true := by
  have hclear : (ofCache c).RWcache.clear = some c.RWcache.clear.list :=
    (Option.some_get c.RWcache.clear_isSome).symm
  simp only [loadFromDisk, if_neg hblock, hclear, hload]
  rfl

end ReadCache

namespace Skiplist

variable {sl : Skiplist} {m : Contents}

theorem Holds.items (h : sl.Holds m) : sl.items = some (m.entries.map fun e => (e.1, e.2.data)) := by
  obtain ⟨ts, hts⟩ := h
  rw [hts.represents.items, hts.entries, List.map_map]
  rfl

end Skiplist

/-- The keys that are put are not negative. -/
def ListOp.Nonnegative : ListOp → Prop
  | .add key _ _ => 0 ≤ key
  | _ => True

instance decidableNonnegative : DecidablePred ListOp.Nonnegative
  | .add key _ _ => inferInstanceAs (Decidable (0 ≤ key))
  | .erase _ | .clear | .search _ => isTrue trivial

theorem mapRun_negative {ops : List ListOp} (hops : ∀ op ∈ ops, op.Nonnegative) {k : Int32} (hk : k < 0)
    {m : Int32 → Option Bytes} (hm : m k = none) : (mapRun m ops).1 k = none := by
  induction ops generalizing m with
  | nil => exact hm
  | cons op ops ih =>
    refine ih (fun op' hop' => hops op' (List.mem_cons_of_mem op hop')) ?_
    cases op with
    | add key value flips =>
      have hkey : 0 ≤ key := hops _ List.mem_cons_self
      have hne : k ≠ key := fun he => absurd (he ▸ hk) (not_lt.mpr hkey)
      exact (Function.update_of_ne hne _ _).trans hm
    | erase key =>
      by_cases hne : k = key
      · simp [hne]
      · exact (Function.update_of_ne hne _ _).trans hm
    | clear => rfl
    | search key => exact hm

namespace ReadCache

variable {sl list : Skiplist} {answers : List ListAnswer} {nodes : List NodeProto} {file : Bytes}
  {serializedSize block totalSize : SizeT}

/-- A list that calls with no negative keys have made is loaded with the nodes it had, counted as they
will be refunded, and the surplus. -/
theorem loaded_holds {ops : List ListOp} (hops : ∀ op ∈ ops, op.Nonnegative)
    (hrun : Skiplist.new.run ops = some (sl, answers)) (hnodes : sl.toProto = some nodes) (target : ValidList)
    (hload : target.list.deserializeFile serializedSize (some (NodeProto.writeNodes nodes file (block * CACHE_SIZE)))
      (block * CACHE_SIZE) = .loaded list totalSize) :
    ∃ (m : Contents) (items : List (Int32 × Bytes)), sl.items = some items ∧ list.Holds m ∧
      list.items = some items ∧ m.entries.map (fun e => (e.1, e.2.data)) = items ∧
        totalSize.toNat = accounted m + surplus items := by
  obtain ⟨sl', ts, m, hrun', hholds, hplain, _⟩ := Skiplist.run_new ops
  rw [hrun, Option.some.injEq, Prod.mk.injEq] at hrun'
  obtain ⟨rfl, _⟩ := hrun'
  have habsent : ∀ k : Int32, k < 0 → m.lookup k = none := by
    intro k hk
    have hk' := congrFun hplain k
    rw [mapRun_negative hops hk rfl] at hk'
    exact Option.map_eq_none_iff.mp hk'
  have hproto := hholds.represents.toProto
  obtain ⟨nodes', list', size, hproto', hrebuild, hloaded⟩ :=
    ValidList.stored_survives ⟨sl, m, ts, hholds⟩ (habsent _ (by decide)) (habsent _ (by decide)) target
  obtain rfl : nodes = nodes' := Option.some.inj (hnodes.symm.trans hproto')
  obtain rfl : nodes = Skiplist.protoOf ts := Option.some.inj (hnodes.symm.trans hproto)
  obtain ⟨_, hmax⟩ := Skiplist.loaded_fits hload
  have hne : Skiplist.protoOf ts ≠ [] := List.cons_ne_nil _ _
  have hwritten := Skiplist.loaded_written hne hload
  rw [hrebuild, Option.some.injEq, Prod.mk.injEq] at hwritten
  obtain ⟨rfl, rfl⟩ := hwritten
  have hcharges := NodeProto.charges_le (Skiplist.protoOf ts)
  have hsize := Skiplist.rebuild_size (by unfold INT_MAX at hmax; omega) hrebuild
  have hitems : ((Skiplist.loadedContents m).entries.map fun e => (e.1, e.2.data)) =
      ts.map fun t => (t.key, t.value.data) := by
    simp only [Skiplist.loadedContents, SortedMap.mapValues, hholds.entries, List.map_map]
    rfl
  refine ⟨Skiplist.loadedContents m, _, hholds.represents.items, hloaded, ?_, hitems, ?_⟩
  · rw [← hitems]
    exact Skiplist.Holds.items hloaded
  · rw [hsize, hholds.charges]

/-- No loaded block is accounted as it will be refunded. Whatever list was written, the size is the
refunds of all loaded nodes and the surplus, and the surplus is left when they are deleted, in
whatever order. -/
theorem loaded_size_exceeds (ops : List ListOp) (hops : ∀ op ∈ ops, op.Nonnegative)
    (hrun : Skiplist.new.run ops = some (sl, answers)) (hnodes : sl.toProto = some nodes) (c : Cache)
    (hblock : block ≠ noBlock)
    (hload : c.RWcache.clear.list.deserializeFile serializedSize
      (some (NodeProto.writeNodes nodes file (block * CACHE_SIZE))) (block * CACHE_SIZE) = .loaded list totalSize) :
    ∃ c' items, (ofCache c).loadFromDisk serializedSize
          (some (NodeProto.writeNodes nodes file (block * CACHE_SIZE))) block = .returned c' true ∧
      sl.items = some items ∧ c'.RWcache.items = some items ∧ ¬c'.AccountedAsRefunded items ∧
        c'.currentSize.toNat = (items.map fun e => (c'.refund e.1).toNat).sum + surplus items ∧
          ∀ keys, keys.Perm (items.map Prod.fst) → ∃ c'', c'.deleteAll keys = some c'' ∧
            c''.RWcache.items = some [] ∧ c''.currentSize.toNat = surplus items := by
  obtain ⟨m, items, hitems, hholds, hloaded, hentries, hsize⟩ :=
    loaded_holds hops hrun hnodes c.RWcache.clear hload
  have hpos := surplus_pos items
  have hlt := totalSize.toNat_lt
  have hrefunds : (items.map fun e => ((⟨totalSize, list, c.currentReadBlock⟩ : ReadCache).refund e.1).toNat).sum =
      accounted m := by
    rw [← hentries, List.map_map, ← refunds_eq (c := ⟨totalSize, list, c.currentReadBlock⟩) hholds (by omega)]
    rfl
  have hkeys : items.map Prod.fst = m.keys := by
    rw [← hentries, List.map_map]
    rfl
  refine ⟨_, items, loadFromDisk_loaded c hblock hload, hitems, hloaded, ?_, ?_, ?_⟩
  · intro hright
    have hsum := hright.sum
    rw [hrefunds] at hsum
    have hsum : totalSize.toNat = accounted m := hsum
    omega
  · rw [hrefunds]
    exact hsize
  · intro keys hperm
    rw [hkeys] at hperm
    obtain ⟨c'', hdelete, hempty, hleft⟩ := deleteAll_holds (c := ⟨totalSize, list, c.currentReadBlock⟩) keys hholds hsize
    rw [foldl_erase_keys hperm] at hempty hleft
    refine ⟨c'', hdelete, Skiplist.Holds.items hempty, ?_⟩
    rw [hleft]
    exact Nat.zero_add _

/-- A put of one short value. -/
def oneNode : List ListOp := [.add 5 [97] fun _ => true]

def oneNodeProto : List NodeProto :=
  [⟨-1, [], 5 :: List.replicate 7 (-2)⟩, ⟨5, [97], List.replicate 8 (-2)⟩]

/-- Block 1 of a file in which nothing else was written. -/
def oneNodeFile : Option Bytes := some (NodeProto.writeNodes oneNodeProto [] (1 * CACHE_SIZE))

def oneNodeLoaded : Skiplist × SizeT :=
  (Cache.new.RWcache.clear.list.rebuild oneNodeProto).get (by decide)

theorem oneNode_loaded : Cache.new.RWcache.clear.list.deserializeFile 0 oneNodeFile (1 * CACHE_SIZE) =
    .loaded oneNodeLoaded.1 oneNodeLoaded.2 := by
  have hseek : Seekable (1 * CACHE_SIZE) := by decide
  have hne : oneNodeProto ≠ [] := List.cons_ne_nil _ _
  have hmax : NodeProto.listByteSize oneNodeProto ≤ INT_MAX := by decide
  have hparse : NodeProto.parseNodes (NodeProto.serialize oneNodeProto) = some oneNodeProto := by
    rw [NodeProto.parseNodes_serialize (by decide), if_pos (by decide)]
  have hrebuild : Cache.new.RWcache.clear.list.rebuild oneNodeProto = some oneNodeLoaded := (Option.some_get _).symm
  rw [oneNodeFile, Skiplist.deserializeFile_written hseek hne hmax, hparse]
  simp only [hrebuild]

theorem loaded_size_exceeds_one : ∃ sl answers c' items,
    Skiplist.new.run oneNode = some (sl, answers) ∧ sl.toProto = some oneNodeProto ∧
      (ofCache Cache.new).loadFromDisk 0 oneNodeFile 1 = .returned c' true ∧
      sl.items = some items ∧ c'.RWcache.items = some items ∧ ¬c'.AccountedAsRefunded items ∧
        c'.currentSize.toNat = (items.map fun e => (c'.refund e.1).toNat).sum + surplus items ∧
          ∀ keys, keys.Perm (items.map Prod.fst) → ∃ c'', c'.deleteAll keys = some c'' ∧
            c''.RWcache.items = some [] ∧ c''.currentSize.toNat = surplus items := by
  obtain ⟨⟨sl, answers⟩, hrun⟩ := Option.isSome_iff_exists.mp (by decide : (Skiplist.new.run oneNode).isSome)
  have hproto : (Skiplist.new.run oneNode).bind (fun r => r.1.toProto) = some oneNodeProto := rfl
  rw [hrun, Option.bind_some] at hproto
  obtain ⟨c', items, hresult⟩ :=
    loaded_size_exceeds oneNode (by decide) hrun hproto Cache.new (by decide) oneNode_loaded
  exact ⟨sl, answers, c', items, hrun, hproto, hresult⟩

/-- Key 5 with the value "a" is loaded with a size of 166, of which 83 are refunded. -/
theorem one_node_leaves_head :
    (ofCache Cache.new).loadFromDisk 0 oneNodeFile 1 =
        .returned ⟨oneNodeLoaded.2, oneNodeLoaded.1, noBlock⟩ true ∧
      oneNodeLoaded.1.items = some [(5, [97])] ∧ oneNodeLoaded.2 = 166 ∧
      ((⟨oneNodeLoaded.2, oneNodeLoaded.1, noBlock⟩ : ReadCache).deleteAll [5]).map (·.currentSize) = some 83 ∧
        ¬(⟨oneNodeLoaded.2, oneNodeLoaded.1, noBlock⟩ : ReadCache).AccountedAsRefunded [(5, [97])] := by
  have hone : (1 : SizeT) ≠ noBlock := by decide
  have hdeleted : ((⟨oneNodeLoaded.2, oneNodeLoaded.1, noBlock⟩ : ReadCache).deleteAll [5]).map (·.currentSize) =
      some 83 := by decide
  refine ⟨loadFromDisk_loaded Cache.new hone oneNode_loaded, by decide, by decide, hdeleted, ?_⟩
  intro h
  obtain ⟨c', hdelete, hzero⟩ := h.emptied [5] (List.Perm.refl _)
  rw [hdelete, Option.map_some, hzero] at hdeleted
  exact absurd hdeleted (by decide)

end ReadCache

end KVStorage

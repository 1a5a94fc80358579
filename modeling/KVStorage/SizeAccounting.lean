import KVStorage.BlockExtent
import KVStorage.Library.Runs

/-!
# The accounted size of the write cache

`currentSize` is kept by differences modulo 2^64. It is compared with the sum over
the nodes of the list, whose strings carry the capacity they really have.
-/

namespace KVStorage

set_option autoImplicit false

namespace CppString

theorem ofBytes_capacity (value : Bytes) :
    (ofBytes value).capacity = max localCapacity value.length := rfl

theorem assign_capacity (old : CppString) (value : Bytes) :
    (old.assign (ofBytes value)).capacity =
      if value.length ≤ old.capacity then old.capacity else max value.length (2 * old.capacity) := rfl

end CppString

/-- `sizeof(int) + capacity(value) + sizeof(Node*) * level` over all nodes, as a
natural number. -/
def accounted (m : Contents) : Nat := m.total fun s => 4 + s.capacity + 8 * level

/-- A string holds at most this many characters. -/
def maxSize : Nat := 2 ^ 63 - 1

/-- The values of a call are strings. -/
def CacheOp.Storable : CacheOp → Prop
  | .put _ value => value.length ≤ maxSize
  | _ => True

instance decidableStorable : DecidablePred CacheOp.Storable
  | .put _ value => inferInstanceAs (Decidable (value.length ≤ maxSize))
  | .del _ => isTrue trivial
  | .flush => isTrue trivial

/-- An update is charged by the capacity of the argument, which the stored string
has afterwards only if it had to be reallocated to that size or had it before. -/
def Contents.ChargedRight (m : Contents) (key : Int32) (value : Bytes) : Prop :=
  ∀ old ∈ m.lookup key, (m.stored key value).capacity = (CppString.ofBytes value).capacity

instance decidableChargedRight (m : Contents) (key : Int32) (value : Bytes) :
    Decidable (m.ChargedRight key value) := decidableOptional _

theorem Contents.chargedRight_iff (m : Contents) (key : Int32) (value : Bytes) :
    m.ChargedRight key value ↔ ∀ old ∈ m.lookup key,
      old.capacity = max CppString.localCapacity value.length ∨
        (old.capacity < value.length ∧ CppString.localCapacity ≤ value.length ∧
          2 * old.capacity ≤ value.length) := by
  unfold Contents.ChargedRight Contents.stored
  cases m.lookup key with
  | none => simp
  | some old =>
    simp only [Option.mem_some_iff, forall_eq', CppString.assign_capacity, CppString.ofBytes_capacity]
    have hlocal : CppString.localCapacity = 15 := rfl
    by_cases hfits : value.length ≤ old.capacity
    · rw [if_pos hfits]
      omega
    · rw [if_neg hfits]
      omega

namespace Cache

variable {c : Cache} {fi : FileInfo} {key : Int32} {value : Bytes} {flips : Fin level → Bool}

/-- The size kept is the sum. -/
def Exact (c : Cache) : Prop := c.currentSize.toNat = accounted c.RWcache.contents

instance decidableExact (c : Cache) : Decidable c.Exact := inferInstanceAs (Decidable (_ = _))

theorem new_exact : new.Exact := rfl

theorem ofNat_toNat {n : Nat} (h : n < 2 ^ 64) : (UInt64.ofNat n).toNat = n := by
  rw [UInt64.toNat_ofNat', Nat.mod_eq_of_lt h]

theorem nodeSize_toNat {n : Nat} (h : n < 2 ^ 64 - 68) :
    (Skiplist.nodeSize n).toNat = 4 + n + 8 * level := by
  have hlevel : (8 * UInt64.ofNat level : UInt64).toNat = 64 := by decide
  have hn : (UInt64.ofNat n).toNat = n := ofNat_toNat (by omega)
  rw [Skiplist.nodeSize, UInt64.toNat_add, UInt64.toNat_add, hlevel, hn]
  have h4 : (4 : UInt64).toNat = 4 := rfl
  rw [h4, level]
  omega

end Cache

theorem accounted_add (m : Contents) (key : Int32) (value : Bytes) :
    accounted (m.add key value) +
        ((m.lookup key).map fun s => 4 + s.capacity + 8 * level).getD 0 =
      accounted m + (4 + (m.stored key value).capacity + 8 * level) :=
  SortedMap.total_insert _ m key _

theorem accounted_erase (m : Contents) (key : Int32) :
    accounted (m.erase key) + ((m.lookup key).map fun s => 4 + s.capacity + 8 * level).getD 0 =
      accounted m :=
  SortedMap.total_erase _ m key

theorem Cache.put_exact_iff {c : Cache} (h : c.Exact) (hle : accounted c.RWcache.contents ≤ CACHE_SIZE.toNat)
    (fi : FileInfo) (key : Int32) {value : Bytes} (hv : value.length ≤ maxSize) (flips : Fin level → Bool) :
    (c.put fi key value flips).1.Exact ↔ c.RWcache.contents.ChargedRight key value := by
  have hcache := cacheSize_toNat
  have hlocal : CppString.localCapacity = 15 := rfl
  have hadd := accounted_add c.RWcache.contents key value
  have herase := accounted_erase c.RWcache.contents key
  unfold Cache.Exact at h ⊢
  rw [Cache.put_contents, Cache.put_size, UInt64.toNat_add]
  unfold Contents.ChargedRight Contents.addSize
  unfold Contents.stored at hadd ⊢
  unfold maxSize at hv
  cases hlook : c.RWcache.contents.lookup key with
  | none =>
    simp only [hlook, Option.map_none, Option.getD_none, CppString.ofBytes_capacity, hlocal] at hadd ⊢
    rw [nodeSize_toNat (by omega)]
    simp only [Option.mem_def, reduceCtorEq, implies_true, iff_true]
    rw [level] at hadd ⊢
    omega
  | some old =>
    simp only [hlook, Option.map_some, Option.getD_some, CppString.ofBytes_capacity,
      CppString.assign_capacity, hlocal] at hadd herase ⊢
    have hold : (UInt64.ofNat old.capacity).toNat = old.capacity :=
      ofNat_toNat (by omega)
    have hnew : (UInt64.ofNat (max 15 value.length)).toNat = max 15 value.length :=
      ofNat_toNat (by omega)
    simp only [Option.mem_some_iff, forall_eq', UInt64.toNat_sub, hold, hnew]
    rw [level] at hadd herase
    split at hadd
    · rw [if_pos ‹_›]
      omega
    · rw [if_neg ‹_›]
      omega

theorem Cache.delhander_size {c : Cache} {n : Nat} (h : c.currentSize.toNat = accounted c.RWcache.contents + n)
    (fi : FileInfo) (key : Int32) (block : Option SizeT) :
    (c.delhander fi key block).1.currentSize.toNat =
        accounted (c.delhander fi key block).1.RWcache.contents + n ∧
      accounted (c.delhander fi key block).1.RWcache.contents ≤ accounted c.RWcache.contents := by
  have herase := accounted_erase c.RWcache.contents key
  have hlt := c.currentSize.toNat_lt
  unfold Cache.delhander
  rw [ValidList.erase_size]
  cases hlook : c.RWcache.contents.lookup key with
  | none =>
    simp only [Option.map_none]
    exact ⟨h, le_refl _⟩
  | some old =>
    simp only [hlook, Option.map_some, Option.getD_some, ValidList.erase_contents] at herase ⊢
    rw [h] at hlt
    have hlevel : level = 8 := rfl
    have hsize : (Skiplist.nodeSize old.capacity).toNat = 4 + old.capacity + 8 * level :=
      nodeSize_toNat (by omega)
    rw [UInt64.toNat_sub, hsize]
    omega

theorem Cache.delWrite_exact {c : Cache} (h : c.Exact) (fi : FileInfo) (key : Int32) :
    (c.delWrite fi key).1.Exact ∧
      accounted (c.delWrite fi key).1.RWcache.contents ≤ accounted c.RWcache.contents :=
  c.delhander_size (n := 0) h fi key none

namespace WriteSide

/-- One call with its coin flips, as a step of a run. -/
def call (s : WriteSide) (a : CacheOp × (Fin level → Bool)) : Option WriteSide :=
  some (s.step a.2 a.1).1

/-- `put` gets the write lock and its flush is submitted exactly if the sum, new node
included, passes `CACHE_SIZE`. -/
def FlushesBySum (s : WriteSide) (key : Int32) (value : Bytes) (flips : Fin level → Bool) : Prop :=
  (s.cache.put s.fi key value flips).1.Exact ∧
    ((s.cache.put s.fi key value flips).2.2.isSome ↔
      CACHE_SIZE.toNat < accounted (s.cache.put s.fi key value flips).1.RWcache.contents)

/-- What the accounting promises of a call. -/
def Accounts (s : WriteSide) (a : CacheOp × (Fin level → Bool)) : Prop :=
  s.cache.Exact ∧ (s.step a.2 a.1).1.cache.Exact ∧
    match a.1 with
    | .put key value => s.parked = false → s.FlushesBySum key value a.2
    | _ => True

/-- An update in the call is charged by the capacity the node then has. -/
def Charged (s : WriteSide) (a : CacheOp × (Fin level → Bool)) : Prop :=
  match a.1 with
  | .put key value => s.parked = false → s.cache.RWcache.contents.ChargedRight key value
  | _ => True

/-- What the calls keep: while no flush waits for ever, the sum fits the cache. -/
structure Sized (s : WriteSide) : Prop where
  exact : s.cache.Exact
  bounded : s.parked = false → accounted s.cache.RWcache.contents ≤ CACHE_SIZE.toNat

theorem start_sized (fi : FileInfo) : (start fi).Sized := ⟨Cache.new_exact, fun _ => Nat.zero_le _⟩

variable {s : WriteSide} {key : Int32} {value : Bytes}

theorem Sized.put_exact_iff (h : s.Sized) (hp : s.parked = false) (hv : value.length ≤ maxSize)
    (flips : Fin level → Bool) :
    (s.cache.put s.fi key value flips).1.Exact ↔ s.cache.RWcache.contents.ChargedRight key value :=
  Cache.put_exact_iff h.exact (h.bounded hp) s.fi key hv flips

theorem put_flush_iff (s : WriteSide) (key : Int32) (value : Bytes) (flips : Fin level → Bool)
    (h : (s.cache.put s.fi key value flips).1.Exact) :
    (s.cache.put s.fi key value flips).2.2.isSome ↔
      CACHE_SIZE.toNat < accounted (s.cache.put s.fi key value flips).1.RWcache.contents := by
  unfold Cache.Exact at h
  rw [← h, Cache.put_size, ← UInt64.lt_iff_toNat_lt]
  simp only [Cache.put, ValidList.add_size]
  split
  · exact ⟨fun _ => ‹_›, fun _ => rfl⟩
  · simp only [Option.isSome_none, Bool.false_eq_true, false_iff]
    assumption

theorem Sized.flush (h : s.Sized) (freeSpace freeBlock : SizeT) :
    (s.flush freeSpace freeBlock).1.Sized := by
  by_cases hb : freeBlock = noBlock
  · simp only [WriteSide.flush, Cache.flushToDisk, if_pos hb]
    exact ⟨h.exact, h.bounded⟩
  · simp only [WriteSide.flush, Cache.flushToDisk_eq _ _ _ _ _ hb]
    exact ⟨rfl, fun _ => Nat.zero_le _⟩

/-- After a put charged right, the rest of the call clears the cache or leaves it. -/
theorem Sized.step_put (h : s.Sized) (hp : s.parked = false) (hv : value.length ≤ maxSize)
    (flips : Fin level → Bool) (hc : s.cache.RWcache.contents.ChargedRight key value) :
    (s.step flips (.put key value)).1.Sized := by
  have hexact := (h.put_exact_iff hp hv flips).mpr hc
  have hflush := put_flush_iff s key value flips hexact
  simp only [WriteSide.step, hp]
  cases ht : (s.cache.put s.fi key value flips).2.2 with
  | none =>
    refine ⟨hexact, fun _ => ?_⟩
    rw [ht, Option.isSome_none] at hflush
    apply not_lt.mp
    intro hlt
    exact absurd (hflush.mpr hlt) (by decide)
  | some task =>
    by_cases hb : task.freeBlock = noBlock
    · simp only [hb, if_true]
      exact ⟨hexact, fun hf => by simp at hf⟩
    · simp only [hb, if_false, Bool.false_eq_true, Cache.flushToDisk_eq _ _ _ _ _ hb, WriteSide.flush]
      exact ⟨rfl, fun _ => Nat.zero_le _⟩

theorem Sized.step_del (h : s.Sized) (flips : Fin level → Bool) (key : Int32) :
    (s.step flips (.del key)).1.Sized := by
  obtain ⟨hexact, hle⟩ := Cache.delWrite_exact h.exact s.fi key
  simp only [WriteSide.step]
  split
  · exact h
  · exact ⟨hexact, fun hp => hle.trans (h.bounded hp)⟩

theorem Sized.step (h : s.Sized) {a : CacheOp × (Fin level → Bool)} (hv : a.1.Storable)
    (hc : s.Charged a) : (s.step a.2 a.1).1.Sized := by
  obtain ⟨op, flips⟩ := a
  cases op with
  | put key value =>
    cases hp : s.parked with
    | true =>
      simp only [WriteSide.step, hp, if_true]
      exact h
    | false => exact h.step_put hp hv flips (hc hp)
  | del key => exact h.step_del flips key
  | flush =>
    have hfree : ({ s with fi := s.fi.getFreeBlock.1 } : WriteSide).Sized := ⟨h.exact, h.bounded⟩
    exact hfree.flush _ _

theorem Sized.accounts_iff (h : s.Sized) {a : CacheOp × (Fin level → Bool)} (hv : a.1.Storable) :
    s.Accounts a ↔ s.Charged a := by
  constructor
  · rintro ⟨_, _, hput⟩
    obtain ⟨op, flips⟩ := a
    cases op with
    | put key value => exact fun hp => (h.put_exact_iff hp hv flips).mp (hput hp).1
    | del key => trivial
    | flush => trivial
  · intro hc
    refine ⟨h.exact, (h.step hv hc).exact, ?_⟩
    obtain ⟨op, flips⟩ := a
    cases op with
    | put key value =>
      intro hp
      have hexact := (h.put_exact_iff hp hv flips).mpr (hc hp)
      exact ⟨hexact, put_flush_iff s key value flips hexact⟩
    | del key => trivial
    | flush => trivial

/-- From an empty write cache, whatever the calls and the coin flips, the size kept is
the sum over the nodes at every point, and puts flush by that sum, exactly if every
update is charged by the capacity its node then has. -/
theorem accounts_iff_charged (fi : FileInfo) (as : List (CacheOp × (Fin level → Bool)))
    (hv : ∀ a ∈ as, a.1.Storable) :
    Runs.Along call Accounts (start fi) as ↔ Runs.Along call Charged (start fi) as := by
  have hstart := start_sized fi
  generalize start fi = s at hstart ⊢
  induction as generalizing s with
  | nil => exact Iff.rfl
  | cons a as ih =>
    have ha := hv a List.mem_cons_self
    have hrest := ih fun b hb => hv b (List.mem_cons_of_mem a hb)
    simp only [Runs.Along, hstart.accounts_iff ha]
    constructor
    · rintro ⟨hc, hr⟩
      exact ⟨hc, (hrest _ (hstart.step ha (hc rfl))).mp hr⟩
    · rintro ⟨hc, hr⟩
      exact ⟨hc, (hrest _ (hstart.step ha (hc rfl))).mpr hr⟩

/-- A new value and an update that doubles it. -/
def doubled : List (CacheOp × (Fin level → Bool)) :=
  [(.put 1 (List.replicate 20 97), fun _ => true), (.put 1 (List.replicate 50 97), fun _ => true)]

theorem accounts_doubled : Runs.Along call Accounts (start (FileInfo.new [])) doubled := by
  apply (accounts_iff_charged (FileInfo.new []) doubled (by decide)).mpr
  refine ⟨fun _ _ => by decide +kernel, fun _ _ => by decide +kernel, trivial⟩

/-- A long value, a short one over it, and the deletion of the key. -/
def shrunk : List (CacheOp × (Fin level → Bool)) :=
  [(.put 1 (List.replicate 100 97), fun _ => true), (.put 1 [98], fun _ => true),
    (.del 1, fun _ => true)]

/-- The empty cache is left with a size of 2^64 - 85, and the next put flushes it. -/
theorem shrunk_update_wraps :
    ¬Runs.Along call Accounts (start (FileInfo.new [])) shrunk ∧
      (Runs.exec call (start (FileInfo.new [])) shrunk).cache.RWcache.contents.entries = [] ∧
      (Runs.exec call (start (FileInfo.new [])) shrunk).cache.currentSize.toNat = 2 ^ 64 - 85 ∧
      ((Runs.exec call (start (FileInfo.new [])) shrunk).cache.put (FileInfo.new []) 2 [99]
        fun _ => true).2.2.isSome := by
  refine ⟨?_, by decide +kernel, by decide +kernel, by decide +kernel⟩
  intro h
  have hput : ¬(((start (FileInfo.new [])).step (fun _ => true)
      (.put 1 (List.replicate 100 97))).1.cache.put (FileInfo.new []) 1 [98] fun _ => true).1.Exact := by
    decide +kernel
  exact hput ((h.2.1 rfl).2.2 rfl).1

end WriteSide

end KVStorage

import KVStorage.Server
import KVStorage.SizeAccounting

/-!
# The size that a free space is computed from

`put` computes the free space of a flush from the `currentSize` before its own node, and
the signal handler from the one that it reads. While every request fits and is charged
right, only the signal handler flushes, and what it has computed stays right.
-/

namespace KVStorage

set_option autoImplicit false

namespace Contents

/-- A node of the value fits next to the nodes of the other keys. -/
def Fits (m : Contents) (key : Int32) (value : Bytes) : Prop :=
  accounted (m.erase key) + (4 + (CppString.ofBytes value).capacity + 8 * level) ≤ CACHE_SIZE.toNat

instance decidableFits (m : Contents) (key : Int32) (value : Bytes) : Decidable (m.Fits key value) :=
  inferInstanceAs (Decidable (_ ≤ _))

variable {m : Contents} {key : Int32} {value : Bytes}

theorem ChargedRight.stored_capacity (h : m.ChargedRight key value) :
    (m.stored key value).capacity = (CppString.ofBytes value).capacity := by
  unfold ChargedRight at h
  cases hlook : m.lookup key with
  | none => rw [stored, hlook]
  | some old => exact h old hlook

theorem ChargedRight.accounted_add (h : m.ChargedRight key value) :
    accounted (m.add key value) =
      accounted (m.erase key) + (4 + (CppString.ofBytes value).capacity + 8 * level) := by
  have hadd := KVStorage.accounted_add m key value
  have herase := accounted_erase m key
  rw [h.stored_capacity] at hadd
  omega

theorem Fits.storable (h : m.Fits key value) : value.length ≤ maxSize := by
  have hle : value.length ≤ (CppString.ofBytes value).capacity := Nat.le_max_right _ _
  unfold Fits at h
  rw [cacheSize_toNat] at h
  unfold maxSize
  omega

/-- An update that keeps the capacity of its node keeps the sum. -/
theorem ChargedRight.accounted_same (h : m.ChargedRight key value)
    (hsame : (m.lookup key).map (·.capacity) = some (CppString.ofBytes value).capacity) :
    accounted (m.add key value) = accounted m := by
  obtain ⟨old, hlook, hcap⟩ := Option.map_eq_some_iff.mp hsame
  have hadd := KVStorage.accounted_add m key value
  rw [h.stored_capacity, hlook, Option.map_some, Option.getD_some, hcap] at hadd
  omega

end Contents

/-! ## What `put` computes -/

namespace Cache

variable {c : Cache} {fi : FileInfo} {key : Int32} {value : Bytes} {flips : Fin level → Bool} {task : FlushTask}

/-- The free space that `put` computes leaves the new node out. -/
theorem put_freeSpace (h : (c.put fi key value flips).2.2 = some task) :
    task.freeSpace = CACHE_SIZE - c.currentSize := by
  rw [put_task] at h
  split at h
  · rw [← Option.some.inj h]
    grind
  · cases h

theorem Exact.le_cacheSize (h : c.Exact) (hle : accounted c.RWcache.contents ≤ CACHE_SIZE.toNat) :
    c.currentSize ≤ CACHE_SIZE := by
  rw [UInt64.le_iff_toNat_le, h]
  exact hle

/-- With the size kept exactly, a flush that the put of a new key submits counts that node as free. -/
theorem put_freeSpace_exact (h : c.Exact) (hle : accounted c.RWcache.contents ≤ CACHE_SIZE.toNat)
    (htask : (c.put fi key value flips).2.2 = some task) (hnew : c.RWcache.contents.lookup key = none) :
    task.freeSpace.toNat + accounted (c.RWcache.contents.add key value) =
      BLOCK_SIZE.toNat + (4 + (CppString.ofBytes value).capacity + 8 * level) := by
  have hadd := accounted_add c.RWcache.contents key value
  have hcurrent : c.currentSize.toNat ≤ CACHE_SIZE.toNat := h ▸ hle
  rw [hnew, Contents.stored, hnew, Option.map_none, Option.getD_none, ← h] at hadd
  rw [put_freeSpace htask, UInt64.toNat_sub_of_le _ _ (h.le_cacheSize hle)]
  rw [cacheSize_toNat] at hcurrent ⊢
  rw [blockSize_toNat]
  simp only at hadd
  omega

/-- No put that flushes an exactly accounted cache computes the right free space. -/
theorem put_freeSpace_wrong (h : c.Exact) (hle : accounted c.RWcache.contents ≤ CACHE_SIZE.toNat)
    (hv : value.length ≤ maxSize) (hcharged : c.RWcache.contents.ChargedRight key value)
    (htask : (c.put fi key value flips).2.2 = some task) :
    task.freeSpace.toNat + accounted (c.RWcache.contents.add key value) ≠ BLOCK_SIZE.toNat := by
  have hexact : (c.put fi key value flips).1.Exact := (put_exact_iff h hle fi key hv flips).mpr hcharged
  have hlarge := UInt64.lt_iff_toNat_lt.mp (put_some c fi key value flips htask).1
  rw [← put_size c fi key value flips, hexact, put_contents] at hlarge
  rw [put_freeSpace htask, UInt64.toNat_sub_of_le _ _ (h.le_cacheSize hle), h]
  rw [cacheSize_toNat] at hle hlarge ⊢
  rw [blockSize_toNat]
  omega

/-- A put that fits submits no flush. -/
theorem put_fits (fi : FileInfo) (flips : Fin level → Bool) (h : c.Exact)
    (hle : accounted c.RWcache.contents ≤ CACHE_SIZE.toNat)
    (hcharged : c.RWcache.contents.ChargedRight key value) (hfits : c.RWcache.contents.Fits key value) :
    (c.put fi key value flips).1.Exact ∧
      accounted (c.put fi key value flips).1.RWcache.contents ≤ CACHE_SIZE.toNat ∧
      ¬c.currentSize + c.RWcache.contents.addSize key value > CACHE_SIZE := by
  have hexact : (c.put fi key value flips).1.Exact :=
    (put_exact_iff h hle fi key hfits.storable flips).mpr hcharged
  have hsum : accounted (c.put fi key value flips).1.RWcache.contents ≤ CACHE_SIZE.toNat := by
    rw [put_contents, hcharged.accounted_add]
    exact hfits
  refine ⟨hexact, hsum, ?_⟩
  rw [← put_size c fi key value flips]
  exact UInt64.not_lt.mpr (hexact.le_cacheSize hsum)

theorem put_same (h : c.Exact) (hexact : (c.put fi key value flips).1.Exact)
    (hcharged : c.RWcache.contents.ChargedRight key value)
    (hsame : (c.RWcache.contents.lookup key).map (·.capacity) = some (CppString.ofBytes value).capacity) :
    (c.put fi key value flips).1.currentSize = c.currentSize := by
  rw [← UInt64.toNat_inj, hexact, h, put_contents]
  exact hcharged.accounted_same hsame

theorem delWrite_absent (hnone : c.RWcache.contents.lookup key = none) : (c.delWrite fi key).1 = c := by
  simp only [delWrite, delhander, ValidList.erase_size, hnone, Option.map_none]

end Cache

theorem flushed_right {size : SizeT} {m : Contents} (hle : size ≤ CACHE_SIZE) (hm : accounted m = size.toNat) :
    (CACHE_SIZE - size).toNat + accounted m = BLOCK_SIZE.toNat := by
  have hsize : size.toNat ≤ CACHE_SIZE.toNat := UInt64.le_iff_toNat_le.mp hle
  rw [UInt64.toNat_sub_of_le _ _ hle, hm, blockSize_toNat, cacheSize_toNat] at *
  omega

/-! ## The size that the signal handler reads -/

/-- The signal handler has read `currentSize` and not yet cleared the cache. -/
def Handler.holdsSize : Handler → Bool
  | .flush f => f.phase ≠ .clear
  | _ => false

namespace Server

/-- A request that no flush comes of, with an update charged by what its node grows by. While the
signal handler flushes, it takes no node away and keeps all capacities. -/
def Measured (s : Server) : Op → Prop
  | .put key value =>
    s.store.write.RWcache.contents.ChargedRight key value ∧ s.store.write.RWcache.contents.Fits key value ∧
      (s.handler.holdsSize = true →
        (s.store.write.RWcache.contents.lookup key).map (·.capacity) = some (CppString.ofBytes value).capacity)
  | .get _ => True
  | .del key => s.handler.holdsSize = true → s.store.write.RWcache.contents.lookup key = none

instance decidableMeasured (s : Server) : DecidablePred s.Measured
  | .put _ _ => inferInstanceAs (Decidable (_ ∧ _ ∧ _))
  | .get _ => isTrue trivial
  | .del _ => inferInstanceAs (Decidable (_ → _))

/-- The request that an action runs is measured. -/
def Measures (s : Server) : Act → Prop
  | .run w _ =>
    match s.workers w with
    | .run task => s.Measured task.op
    | _ => True
  | _ => True

instance decidableMeasures (s : Server) (a : Act) : Decidable (s.Measures a) := by
  unfold Measures
  split
  · split <;> infer_instance
  · exact isTrue trivial

/-- The size kept is the sum over the nodes, which fit; nothing but the signal handler flushes them,
with a free space that is still right. -/
structure Metered (s : Server) : Prop where
  exact : s.store.write.Exact
  bounded : accounted s.store.write.RWcache.contents ≤ CACHE_SIZE.toNat
  unlocked : s.lock = none
  handler : ∀ f, s.handler = .flush f → s.handler.holdsSize = true →
    f.task.freeSpace = CACHE_SIZE - s.store.write.currentSize

variable {s s' : Server} {a : Act}

theorem boot_metered {store : Store} (hwrite : store.write = Cache.new) : (boot store).Metered where
  exact := by
    rw [boot, hwrite]
    exact Cache.new_exact
  bounded := by
    rw [boot, hwrite]
    exact Nat.zero_le _
  unlocked := rfl
  handler _ hf := nomatch hf

theorem Metered.congr (h : s.Metered) (hwrite : s'.store.write = s.store.write) (hlock : s'.lock = s.lock)
    (hhandler : s'.handler = s.handler) : s'.Metered := by
  refine ⟨?_, ?_, hlock.trans h.unlocked, ?_⟩
  · rw [hwrite]
    exact h.exact
  · rw [hwrite]
    exact h.bounded
  · rw [hwrite, hhandler]
    exact h.handler

theorem Quiet.metered (hq : Quiet s s') (h : s.Metered) : s'.Metered := h.congr hq.write hq.lock hq.handler

theorem Metered.runPut (h : s.Metered) {key : Int32} {value : Bytes} (hm : s.Measured (.put key value))
    (flips : Fin level → Bool) : (s.runPut key value flips).Metered := by
  obtain ⟨hcharged, hfits, hholds⟩ := hm
  obtain ⟨hexact, hbounded, hsmall⟩ :=
    Cache.put_fits s.store.fi flips h.exact h.bounded hcharged hfits
  rw [runPut_small hsmall]
  refine ⟨hexact, hbounded, h.unlocked, ?_⟩
  intro f hf hphase
  rw [h.handler f hf hphase]
  exact congrArg _ (Cache.put_same h.exact hexact hcharged (hholds hphase)).symm

theorem Metered.runDel (h : s.Metered) {key : Int32} (hm : s.Measured (.del key)) : (s.runDel key).Metered := by
  obtain ⟨hexact, hle⟩ := Cache.delWrite_exact h.exact s.store.fi key
  refine ⟨hexact, hle.trans h.bounded, h.unlocked, ?_⟩
  intro f hf hphase
  have hsame : (s.runDel key).store.write = s.store.write := Cache.delWrite_absent (hm hphase)
  rw [hsame]
  exact h.handler f hf hphase

theorem Metered.handleFlush (h : s.Metered) {f : Flush} (hf : s.handler = .flush f) :
    (s.handleFlush f).Metered := by
  by_cases hp : f.phase = .clear
  · obtain ⟨task, p⟩ := f
    cases hp
    refine ⟨?_, Nat.zero_le _, h.unlocked, nofun⟩
    rw [Cache.Exact]
    rfl
  · have hwrite : (s.handleFlush f).store.write = s.store.write := Store.flushPart_write hp
    refine ⟨?_, ?_, h.unlocked, ?_⟩
    · rw [hwrite]
      exact h.exact
    · rw [hwrite]
      exact h.bounded
    · intro g hg _
      have hsize := h.handler f hf (by rw [hf]; exact decide_eq_true hp)
      rw [hwrite, ← hsize]
      simp only [Server.handleFlush] at hg
      split at hg
      · cases hg
      · rw [← Handler.flush.inj hg]

/-- What measured requests keep, every step of the server keeps. -/
theorem Metered.step (h : s.Metered) (hm : s.Measures a) (hs : s.step a = some s') : s'.Metered := by
  cases step_change hs with
  | quiet hq => exact hq.metered h
  | @put w flips task key value _ hw hop _ hq =>
    simp only [Measures, hw, hop] at hm
    exact hq.metered (Metered.runPut (s := s.record task) (h.congr rfl rfl rfl) hm flips)
  | get _ _ _ hq => exact hq.metered (h.congr rfl rfl rfl)
  | @del w flips task key _ hw hop _ hq =>
    simp only [Measures, hw, hop] at hm
    exact hq.metered (Metered.runDel (s := s.record task) (h.congr rfl rfl rfl) hm)
  | flush _ held => cases held.symm.trans h.unlocked
  | sigint hsig =>
    obtain ⟨_, rfl⟩ := sigint_cases hsig
    exact ⟨h.exact, h.bounded, h.unlocked, nofun⟩
  | handle hhandle =>
    cases handle_cases hhandle with
    | wait | image => exact ⟨h.exact, h.bounded, h.unlocked, nofun⟩
    | alloc =>
      refine ⟨h.exact, h.bounded, h.unlocked, ?_⟩
      intro f hf _
      rw [← Handler.flush.inj hf]
    | flush hf => exact h.handleFlush hf

end Server

end KVStorage

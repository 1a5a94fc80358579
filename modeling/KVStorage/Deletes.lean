import KVStorage.Requests

/-!
# Deletes

The write-cache stage of a DEL always answers `true`, so the stage that would reach
the block of the key never runs. A deleted key stays deleted exactly when no block
stored a value for it.
-/

namespace KVStorage

set_option autoImplicit false

open Runs

namespace Store

/-- However the run goes on without a PUT of the key, a GET of it finds no value. -/
def StaysDeleted (s : Store) (k : Int32) : Prop :=
  ∀ rs, Along step FreeBlock s rs → (∀ value flips, Request.put k value flips ∉ rs) →
    ((exec step s rs).processGetRequests k).2 = []

structure Dead (s : Store) (k : Int32) : Prop where
  write : s.write.RWcache.contents.lookup k = none
  stored : (s.storedValue k).getD [] = []

variable {s s' : Store} {k : Int32}

theorem Dead.current (h : s.Dead k) : s.current k = [] := by
  rw [current_of_lookup_none h.write, h.stored]

theorem Dead.flush (h : s.Dead k) (freeSpace : SizeT) {freeBlock : SizeT}
    (hw : freeBlock = noBlock ∨ Unmapped s.fi freeBlock) : (s.flush freeSpace freeBlock).Dead k := by
  by_cases hb : freeBlock = noBlock
  · rwa [hb, flush_noBlock]
  · have hstored := flush_storedValue freeSpace hb (hw.resolve_left hb) k
    refine ⟨?_, ?_⟩
    · rw [flush_eq _ hb, ValidList.clear_contents, SortedMap.lookup_empty]
    · rw [hstored, h.write]
      cases s.fi.keyBlockMap.lookup k with
      | some b => exact h.stored
      | none => rfl

theorem Sound.alloc_unmapped (h : s.Sound) : s.fi.getFreeBlock.2 = noBlock ∨
    Unmapped s.fi.getFreeBlock.1 s.fi.getFreeBlock.2 := h.alloc_writable.imp_right fun hw => hw.unmapped

theorem Dead.put (h : s.Dead k) (hready : s.Ready) {key : Int32} (hne : k ≠ key) (value : Bytes)
    (flips : Fin level → Bool) : (s.processPutRequests key value flips).Dead k := by
  obtain ⟨c, hc, hput⟩ := s.processPutRequests_cases key value flips
  have hwrite : c.RWcache.contents.lookup k = none := by
    rw [hc, Contents.add, SortedMap.lookup_insert_ne _ _ hne, h.write]
  rcases hput with ⟨_, hput⟩ | ⟨task, _, _, hput⟩
  · rw [hput]
    exact ⟨hwrite, h.stored⟩
  · rw [hput]
    have hdead : ({ s with write := c, fi := s.fi.getFreeBlock.1 } : Store).Dead k :=
      ⟨hwrite, (congrArg (·.getD []) (alloc_storedValue s k)).trans h.stored⟩
    exact hdead.flush _ hready.sound.alloc_unmapped

theorem Dead.step (h : s.Dead k) (hready : s.Ready) (r : Request)
    (hput : ∀ value flips, r ≠ .put k value flips) (hs : s.step r = some s') : s'.Dead k := by
  cases r with
  | put key value flips =>
    cases hs
    have hne : k ≠ key := by
      rintro rfl
      exact hput value flips rfl
    exact h.put hready hne value flips
  | get key =>
    cases hs
    obtain ⟨read, hget⟩ := s.processGetRequests_eq key
    rw [hget]
    exact ⟨h.write, h.stored⟩
  | del key =>
    cases hs
    rw [processDelRequests_eq]
    refine ⟨?_, h.stored⟩
    simp only [Cache.delhander_contents_lookup, h.write, ite_self]
  | restart createTime =>
    obtain ⟨_, hearlier, hwrite, _, hdisk⟩ := hready.sound.restarted hs
    have hflushed : s.handlerFlush.Dead k := by
      apply Dead.flush _ _ hready.sound.alloc_unmapped
      exact ⟨h.write, by rw [alloc_storedValue, h.stored]⟩
    refine ⟨?_, ?_⟩
    · rw [hwrite]
      rfl
    · rcases storedValue_earlier hearlier hdisk k with hnone | hsame
      · rw [hnone]
        rfl
      · rw [hsame]
        exact hflushed.stored

theorem exec_dead (h : s.Dead k) (hready : s.Ready) {rs : List Request}
    (hput : ∀ value flips, Request.put k value flips ∉ rs) :
    (exec step s rs).Ready ∧ (exec step s rs).Dead k := by
  have hstep : ∀ s r s', s.Ready ∧ s.Dead k → (∀ value flips, r ≠ .put k value flips) →
      step s r = some s' → s'.Ready ∧ s'.Dead k :=
    fun s r s' hs hr hstep => ⟨step_ready hs.1 r hstep, hs.2.step hs.1 r hr hstep⟩
  apply exec_invariant hstep rs ⟨hready, h⟩
  apply along_of_forall
  intro r hr _ value flips he
  exact hput value flips (he ▸ hr)

/-- After a DEL the key stays deleted, whatever follows, if and only if the block it is
mapped to stores no value for it. -/
theorem del_effective_iff (createTime : Bytes) (rs : List Request) (k : Int32) :
    ((exec step (start createTime) rs).processDelRequests k).StaysDeleted k ↔
      ((exec step (start createTime) rs).storedValue k).getD [] = [] := by
  have hready := exec_ready createTime rs
  generalize exec step (start createTime) rs = s at hready
  have hready' : (s.processDelRequests k).Ready := step_ready hready (.del k) rfl
  have hdeleted : (s.processDelRequests k).write.RWcache.contents.lookup k = none := by
    rw [processDelRequests_eq, Cache.delhander_contents_lookup, if_pos rfl]
  have hkept : (s.processDelRequests k).storedValue k = s.storedValue k := by
    rw [processDelRequests_eq]
    rfl
  constructor
  · intro h
    have hget := h [] trivial (by simp)
    rwa [exec, hready'.answer, current_of_lookup_none hdeleted, hkept] at hget
  · intro hstored later _ hput
    have hdead : (s.processDelRequests k).Dead k := ⟨hdeleted, by rw [hkept, hstored]⟩
    obtain ⟨hready₁, hdead₁⟩ := exec_dead hdead hready' hput
    rw [hready₁.answer, hdead₁.current]

/-- PUT 1 a, restart, DEL 1: a GET still finds a in its block. -/
theorem del_leaves_block : ¬∀ createTime rs k, Along step FreeBlock (start createTime) rs →
    ((exec step (start createTime) rs).processDelRequests k).StaysDeleted k := by
  intro hclaim
  let rs : List Request := [.put 1 [97] (fun _ => false), .restart []]
  have hget := hclaim [] rs 1 (by decide +kernel) [] trivial (by simp)
  have hfound : ((exec step ((exec step (start []) rs).processDelRequests 1) []).processGetRequests 1).2 =
      [97] := by decide +kernel
  rw [hfound] at hget
  exact absurd hget (by decide)

end Store

end KVStorage

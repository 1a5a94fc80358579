import KVStorage.SavedValues

/-!
# What is put once

A value that is put to a new key goes from the cache to a block and from there into the
image. If the process that takes it comes to its end by SIGINT and has a free block and room
in block 0 left, every GET of the key finds it from the put on, in all later processes too.
-/

namespace KVStorage

set_option autoImplicit false

open Transducer

/-- The request that writes the key, or takes it from the write cache. -/
def FileRequest.touches (k : Int32) : FileRequest → Bool
  | .put key _ _ => key = k
  | .del key => key = k
  | _ => false

namespace Store

variable {s s' : Store} {k : Int32} {v : Bytes}

/-- Neither the cache nor the tables have the key. -/
structure Unseen (s : Store) (k : Int32) : Prop where
  absent : s.write.RWcache.contents.lookup k = none
  unmapped : s.fi.keyBlockMap.lookup k = none

/-- The value waits in the cache, for the key's only block, or is stored in it. -/
inductive Held (s : Store) (k : Int32) (v : Bytes) : Prop where
  | cached {c : CppString} (value : s.write.RWcache.contents.lookup k = some c) (data : c.data = v)
      (unmapped : s.fi.keyBlockMap.lookup k = none)
  | stored (absent : s.write.RWcache.contents.lookup k = none) (value : s.storedValue k = some v)

/-- The end of the process finds a block for the cache and room for the tables. -/
def EndsWell (s : Store) : Prop := s.fi.getFreeBlock.2 ≠ noBlock ∧ s.handlerFlush.fi.writeToBlock0.2.isSome

instance (s : Store) : Decidable s.EndsWell :=
  inferInstanceAs (Decidable (s.fi.getFreeBlock.2 ≠ noBlock ∧ s.handlerFlush.fi.writeToBlock0.2.isSome))

/-! ## Before the put -/

theorem start_unseen (createTime : Bytes) (k : Int32) : (start createTime).Unseen k := ⟨rfl, rfl⟩

theorem Unseen.flush (h : s.Unseen k) (freeSpace freeBlock : SizeT) : (s.flush freeSpace freeBlock).Unseen k := by
  by_cases hb : freeBlock = noBlock
  · rwa [hb, flush_noBlock]
  have hkeys : k ∉ s.write.RWcache.contents.keys := (SortedMap.lookup_eq_none_iff _ _).mp h.absent
  rw [flush_eq _ hb]
  constructor
  · rw [ValidList.clear_contents, SortedMap.lookup_empty]
  · rw [flushedInfo_lookup, h.unmapped, if_neg hkeys, Option.or_none]

theorem Unseen.alloc (h : s.Unseen k) : ({ s with fi := s.fi.getFreeBlock.1 } : Store).Unseen k := by
  refine ⟨h.absent, ?_⟩
  rw [FileInfo.getFreeBlock_map]
  exact h.unmapped

theorem Unseen.reload (h : s.Unseen k) (hsound : s.Sound) {createTime : Bytes}
    (hs : s.reload createTime = some s') : s'.Unseen k := by
  obtain ⟨s₁, hreload, _, hearlier, hwrite, _⟩ := hsound.reload createTime
  obtain rfl : s₁ = s' := Option.some.inj (hreload.symm.trans hs)
  refine ⟨by rw [hwrite]; rfl, ?_⟩
  cases hk : s₁.fi.keyBlockMap.lookup k with
  | none => rfl
  | some b =>
    have hmapped := hearlier.mapped k b hk
    rw [h.unmapped] at hmapped
    cases hmapped

theorem Unseen.serve (h : s.Unseen k) (hready : s.Ready) {r : FileRequest}
    (hput : ∀ value flips, r ≠ .put k value flips) {answer : Option Bytes} (hs : s.serve r = some (s', answer)) :
    s'.Unseen k := by
  cases r with
  | put key value flips =>
    cases hs
    have hne : k ≠ key := by
      intro he
      subst he
      exact hput value flips rfl
    obtain ⟨c, hc, hput⟩ := s.processPutRequests_cases key value flips
    have hwrite : c.RWcache.contents.lookup k = none := by
      rw [hc, Contents.add, SortedMap.lookup_insert_ne _ _ hne, h.absent]
    rcases hput with ⟨_, hput⟩ | ⟨task, _, _, hput⟩
    · rw [hput]
      exact ⟨hwrite, h.unmapped⟩
    · rw [hput]
      have hwaits : ({ s with write := c, fi := s.fi.getFreeBlock.1 } : Store).Unseen k := ⟨hwrite, h.alloc.unmapped⟩
      exact hwaits.flush _ _
  | get key =>
    cases hs
    obtain ⟨read, hget⟩ := s.processGetRequests_eq key
    rw [hget]
    exact ⟨h.absent, h.unmapped⟩
  | del key =>
    cases hs
    rw [processDelRequests_eq]
    refine ⟨?_, h.unmapped⟩
    rw [Cache.delhander_contents_lookup, h.absent, ite_self]
  | restart iteration b =>
    have hflushed : s.handlerFlush.Unseen k := h.alloc.flush _ _
    have hsaved : s.handlerFlush.writeToBlock0.Unseen k := ⟨hflushed.absent, hflushed.unmapped⟩
    exact hsaved.reload hready.sound.handlerFlush.writeToBlock0 (serve_restart hs).1
  | crash b =>
    exact h.reload hready.sound (serve_crash hs).1

theorem Unseen.run (h : s.Unseen k) (hready : s.Ready) {rs : List FileRequest}
    (hput : ∀ value flips, FileRequest.put k value flips ∉ rs) {answers : List (Option Bytes)}
    (hrun : Transducer.run Store.serve s rs = some (s', answers)) : s'.Unseen k := by
  have hstep : ∀ (s : Store) r s' answer, s.Ready ∧ s.Unseen k → (∀ value flips, r ≠ .put k value flips) →
      s.serve r = some (s', answer) → (s'.Ready ∧ s'.Unseen k) ∧ True :=
    fun _ _ _ _ h hr hs => ⟨⟨h.1.serve hs, h.2.serve h.1 hr hs⟩, trivial⟩
  exact (run_answers hstep rs ⟨hready, h⟩ (along_without_put hput) hrun).1.2

/-! ## From the put to the end of its process -/

theorem Held.current (h : s.Held k v) : s.current k = v := by
  cases h with
  | cached value data unmapped =>
    have hsearch : s.write.RWcache.contents.search k = v := by
      rw [Contents.search, value, Option.map_some, Option.getD_some, data]
    rw [Store.current, hsearch, storedValue, unmapped]
    split
    · rename_i hnil
      exact hnil.symm
    · rfl
  | stored absent value => rw [current_of_lookup_none absent, value, Option.getD_some]

theorem Held.alloc (h : s.Held k v) : ({ s with fi := s.fi.getFreeBlock.1 } : Store).Held k v := by
  cases h with
  | cached value data unmapped =>
    refine .cached value data ?_
    rw [FileInfo.getFreeBlock_map]
    exact unmapped
  | stored absent value =>
    refine .stored absent ?_
    rw [alloc_storedValue]
    exact value

/-- A flush that has a block stores what the cache has. -/
theorem Held.flush_stored (h : s.Held k v) (freeSpace : SizeT) {freeBlock : SizeT} (hb : freeBlock ≠ noBlock)
    (hu : Unmapped s.fi freeBlock) : (s.flush freeSpace freeBlock).storedValue k = some v := by
  rw [flush_storedValue freeSpace hb hu]
  cases h with
  | cached value data unmapped => simp only [unmapped, value, Option.map_some, data]
  | stored absent value =>
    cases hk : s.fi.keyBlockMap.lookup k with
    | some b => exact value
    | none =>
      rw [storedValue, hk] at value
      cases value

theorem Held.flush (h : s.Held k v) (freeSpace : SizeT) {freeBlock : SizeT}
    (hu : freeBlock = noBlock ∨ Unmapped s.fi freeBlock) : (s.flush freeSpace freeBlock).Held k v := by
  by_cases hb : freeBlock = noBlock
  · rwa [hb, flush_noBlock]
  · refine .stored ?_ (h.flush_stored freeSpace hb (hu.resolve_left hb))
    rw [flush_eq _ hb, ValidList.clear_contents, SortedMap.lookup_empty]

theorem Held.setWrite (h : s.Held k v) {c : Cache}
    (hc : c.RWcache.contents.lookup k = s.write.RWcache.contents.lookup k) : ({ s with write := c } : Store).Held k v := by
  cases h with
  | cached value data unmapped => exact .cached (hc.trans value) data unmapped
  | stored absent value => exact .stored (hc.trans absent) value

theorem Unseen.put (h : s.Unseen k) (hready : s.Ready) (v : Bytes) (flips : Fin level → Bool) :
    (s.processPutRequests k v flips).Held k v := by
  obtain ⟨c, hc, hput⟩ := s.processPutRequests_cases k v flips
  have hwrite : c.RWcache.contents.lookup k = some (s.write.RWcache.contents.stored k v) := by
    rw [hc, Contents.add, SortedMap.lookup_insert_self]
  have hdata : (s.write.RWcache.contents.stored k v).data = v := Contents.stored_data _ _ _
  rcases hput with ⟨_, hput⟩ | ⟨task, _, _, hput⟩
  · rw [hput]
    exact .cached hwrite hdata h.unmapped
  · rw [hput]
    have hheld : ({ s with write := c, fi := s.fi.getFreeBlock.1 } : Store).Held k v :=
      .cached hwrite hdata h.alloc.unmapped
    exact hheld.flush _ (hready.sound.alloc_writable.imp_right fun hw => hw.unmapped)

theorem Held.serve (h : s.Held k v) (hready : s.Ready) {r : FileRequest} (htouch : r.touches k = false)
    (hstart : r.isStart = false) {answer : Option Bytes} (hs : s.serve r = some (s', answer)) : s'.Held k v := by
  cases r with
  | put key value flips =>
    cases hs
    have hne : k ≠ key := Ne.symm (of_decide_eq_false htouch)
    obtain ⟨c, hc, hput⟩ := s.processPutRequests_cases key value flips
    have hsame : c.RWcache.contents.lookup k = s.write.RWcache.contents.lookup k := by
      rw [hc, Contents.add, SortedMap.lookup_insert_ne _ _ hne]
    rcases hput with ⟨_, hput⟩ | ⟨task, _, _, hput⟩
    · rw [hput]
      exact h.setWrite hsame
    · rw [hput]
      exact (h.alloc.setWrite hsame).flush _ (hready.sound.alloc_writable.imp_right fun hw => hw.unmapped)
  | get key =>
    cases hs
    obtain ⟨read, hget⟩ := s.processGetRequests_eq key
    rw [hget]
    cases h with
    | cached value data unmapped => exact .cached value data unmapped
    | stored absent value => exact .stored absent value
  | del key =>
    cases hs
    have hne : k ≠ key := Ne.symm (of_decide_eq_false htouch)
    rw [processDelRequests_eq]
    apply h.setWrite
    rw [Cache.delhander_contents_lookup, if_neg hne]
  | restart => cases hstart
  | crash => cases hstart

/-- The process that comes to a good end leaves the value in its block and the block in the
image. -/
theorem Held.kept (h : s.Held k v) (hready : s.Ready) (hend : s.EndsWell) : s.signalHandler.Kept k v := by
  obtain ⟨hb, hfits⟩ := hend
  have hu := (hready.sound.alloc_writable.resolve_left hb).unmapped
  have hstored : s.handlerFlush.storedValue k = some v := h.alloc.flush_stored _ hb hu
  have hwrite : s.handlerFlush.write.RWcache.contents = SortedMap.empty := by
    rw [handlerFlush, flush_eq _ hb, ValidList.clear_contents]
  constructor
  · exact (congrArg (·.lookup k) hwrite).trans (SortedMap.lookup_empty k)
  · rw [signalHandler, writeToBlock0_storedValue, hstored, Option.getD_some]
  · intro time old hopen
    obtain ⟨info, hinfo⟩ := Option.isSome_iff_exists.mp hfits
    rw [signalHandler, Store.writeToBlock0, savedImage, hinfo, Option.some_or, FileInfo.writeToBlock0_image hinfo,
      reopen_toProto, Option.some.injEq] at hopen
    rw [signalHandler, writeToBlock0_withTables, ← hopen, storedValue_of_map (FileInfo.writeToBlock0_map _), hstored,
      Option.getD_some]

/-- What the requests of the same process find. -/
theorem Held.run (h : s.Held k v) (hready : s.Ready) {rs : List FileRequest}
    (hrest : ∀ r ∈ rs, r.touches k = false ∧ r.isStart = false) {answers : List (Option Bytes)}
    (hrun : Transducer.run Store.serve s rs = some (s', answers)) :
    (s'.Ready ∧ s'.Held k v) ∧ List.Forall₂ (FileRequest.Finds k v) rs answers := by
  have hstep : ∀ (s : Store) r s' answer, s.Ready ∧ s.Held k v → r.touches k = false ∧ r.isStart = false →
      s.serve r = some (s', answer) → (s'.Ready ∧ s'.Held k v) ∧ r.Finds k v answer :=
    fun _ _ _ _ h hr hs => ⟨⟨h.1.serve hs, h.2.serve h.1 hr.1 hr.2 hs⟩, h.1.finds h.2.current hs⟩
  exact run_answers hstep rs ⟨hready, h⟩ (along_of_forall fun r hr _ => hrest r hr) hrun

end Store

namespace FileStore

/-- A value that is put to a new key is found by every GET of the key from then on, if the process
that takes it is not asked to delete the key and comes to a good end, and the key is not put
again. -/
theorem put_once_found {b : Boot} (hsize : b.infoSize.toNat ≤ maxVector) (rs rs₁ rs₂ : List FileRequest)
    (k : Int32) (v : Bytes) (flips : Fin level → Bool) (iteration : Iteration) (b' : Boot)
    (hnew : ∀ value flips, FileRequest.put k value flips ∉ rs)
    (hsame : ∀ r ∈ rs₁, r.touches k = false ∧ r.isStart = false)
    (hput : ∀ value flips, FileRequest.put k value flips ∉ rs₂)
    (hp : Along Store.serve Store.Persists (Store.start b.createTime)
      (rs ++ .put k v flips :: (rs₁ ++ .restart iteration b' :: rs₂)))
    (hend : ∀ r ∈ run Store.serve (Store.start b.createTime) (rs ++ .put k v flips :: rs₁), r.1.EndsWell) :
    ∃ f f' answers answers', FileStore.boot (some []) b = some f ∧
      run FileStore.serve f (rs ++ .put k v flips :: (rs₁ ++ .restart iteration b' :: rs₂)) =
        some (f', answers ++ none :: answers') ∧ answers.length = rs.length ∧
        List.Forall₂ (FileRequest.Finds k v) (rs₁ ++ .restart iteration b' :: rs₂) answers' := by
  obtain ⟨f, hboot, hfollows⟩ := boot_follows hsize
  obtain ⟨f', s', answers, hf, hs, _⟩ := hfollows.run _ hp
  obtain ⟨s₀, answers₀, rest, hs₀, hfrom, rfl⟩ := run_split hs
  obtain ⟨s₁, answer, rest, hs₁, hafter, rfl⟩ := run_uncons hfrom
  obtain ⟨s₂, answers₁, rest, hs₂, hlast, rfl⟩ := run_split hafter
  obtain ⟨s₃, answer', answers₂, hs₃, hs₄, rfl⟩ := run_uncons hlast
  have hready₀ := hfollows.ready.run hs₀
  have hgood : s₂.EndsWell := by
    apply hend (s₂, answers₀ ++ answer :: answers₁)
    apply run_join hs₀
    rw [run_cons hs₁, hs₂, Option.map_some]
  have hunseen := (Store.start_unseen b.createTime k).run hfollows.ready hnew hs₀
  cases hs₁
  obtain ⟨⟨hready₂, hheld⟩, hfound₁⟩ := (hunseen.put hready₀ v flips).run (hready₀.put k v flips) hsame hs₂
  have hready₃ := hready₂.serve hs₃
  obtain ⟨hreload, rfl⟩ := Store.serve_restart hs₃
  have hfound₂ := ((hheld.kept hready₂ hgood).reload hreload).run hready₃ hput hs₄
  have hrestart : FileRequest.Finds k v (.restart iteration b') none := by simp [FileRequest.Finds]
  refine ⟨f, f', answers₀, answers₁ ++ none :: answers₂, hboot, hf, run_length hs₀, ?_⟩
  exact List.rel_append hfound₁ (.cons hrestart hfound₂)

/-- Key 5 is put by the second process, which ends with SIGINT; the third one is killed. -/
theorem put_once_found_killed :
    let rs : List FileRequest := [.put 1 [97] fun _ => true, .get 5, .restart ⟨List.reverse, List.reverse_perm⟩ (epochBoot 2)]
    let rs₁ : List FileRequest := [.put 6 [98] (fun _ => true), .get 5, .del 1]
    let rs₂ : List FileRequest := [.get 5, .del 5, .crash (epochBoot 3), .get 5]
    ∃ f f' answers answers', FileStore.boot (some []) (epochBoot 0) = some f ∧
      run FileStore.serve f (rs ++ .put 5 [99, 100] (fun _ => true) ::
        (rs₁ ++ .restart ⟨List.reverse, List.reverse_perm⟩ (epochBoot 4) :: rs₂)) =
          some (f', answers ++ none :: answers') ∧ answers.length = rs.length ∧
        List.Forall₂ (FileRequest.Finds 5 [99, 100])
          (rs₁ ++ .restart ⟨List.reverse, List.reverse_perm⟩ (epochBoot 4) :: rs₂) answers' := by
  apply put_once_found (b := epochBoot 0)
  · decide
  · simp
  · decide
  · simp
  · decide +kernel
  · decide +kernel

end FileStore

end KVStorage

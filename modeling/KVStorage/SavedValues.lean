import KVStorage.FileRefinement

/-!
# What a start finds stays

After a start the tables in memory are those of the image, and nothing takes a key out of
either or writes its block again. So every later process, however the ones before it
ended, gives a key the answer that the first one gave, until the key is put.
-/

namespace KVStorage

set_option autoImplicit false

open Transducer

/-- The start of a new process. -/
def FileRequest.isStart : FileRequest → Bool
  | .restart _ _ => true
  | .crash _ => true
  | _ => false

/-- A GET of the key is answered with the value. -/
def FileRequest.Finds (k : Int32) (v : Bytes) (r : FileRequest) (answer : Option Bytes) : Prop :=
  r = .get k → answer = some v

namespace Store

variable {s s' : Store} {k : Int32} {v : Bytes} {old : FileInfo}

/-- The store with the tables that a start would read. -/
def withTables (s : Store) (fi : FileInfo) : Store := { s with fi := fi }

/-- The cache does not have the key, and the tables in memory and those of the image both give
it the value. -/
structure Kept (s : Store) (k : Int32) (v : Bytes) : Prop where
  absent : s.write.RWcache.contents.lookup k = none
  stored : (s.storedValue k).getD [] = v
  saved : ∀ time old, reopen time s.image = some old → ((s.withTables old).storedValue k).getD [] = v

theorem Kept.current (h : s.Kept k v) : s.current k = v := by
  rw [current_of_lookup_none h.absent, h.stored]

theorem Kept.setWrite (h : s.Kept k v) {c : Cache} (hc : c.RWcache.contents.lookup k = none) :
    ({ s with write := c } : Store).Kept k v := ⟨hc, h.stored, h.saved⟩

theorem Kept.alloc (h : s.Kept k v) : ({ s with fi := s.fi.getFreeBlock.1 } : Store).Kept k v :=
  ⟨h.absent, (congrArg (·.getD []) (alloc_storedValue s k)).trans h.stored, h.saved⟩

theorem Kept.flush (h : s.Kept k v) (hsound : s.Sound) (freeSpace : SizeT) {freeBlock : SizeT}
    (hw : freeBlock = noBlock ∨ Unmapped s.fi freeBlock) : (s.flush freeSpace freeBlock).Kept k v := by
  by_cases hb : freeBlock = noBlock
  · rwa [hb, flush_noBlock]
  have hunmapped := hw.resolve_left hb
  constructor
  · rw [flush_eq _ hb, ValidList.clear_contents, SortedMap.lookup_empty]
  · rw [flush_storedValue freeSpace hb hunmapped, h.absent]
    cases hk : s.fi.keyBlockMap.lookup k with
    | some b => exact h.stored
    | none =>
      have hstored := h.stored
      rwa [storedValue, hk] at hstored
  · intro time old hopen
    have himage : (s.flush freeSpace freeBlock).image = s.image := rfl
    rw [himage] at hopen
    have hold := h.saved time old hopen
    obtain ⟨old', hopen', _, hearlier⟩ := hsound.saved time
    obtain rfl : old' = old := Option.some.inj (hopen'.symm.trans hopen)
    rw [flush_eq _ hb]
    simp only [withTables, storedValue] at hold ⊢
    cases hk : old'.keyBlockMap.lookup k with
    | none => rwa [hk] at hold
    | some b =>
      -- the block of a saved key is no block that is still to be written
      have hne : b ≠ freeBlock := by
        intro he
        exact hearlier.unmapped hunmapped k (he ▸ hk)
      rw [hk] at hold
      simpa only [Option.bind_some, Function.update_of_ne hne] using hold

theorem Kept.put (h : s.Kept k v) (hready : s.Ready) {key : Int32} (hne : k ≠ key) (value : Bytes)
    (flips : Fin level → Bool) : (s.processPutRequests key value flips).Kept k v := by
  obtain ⟨c, hc, hput⟩ := s.processPutRequests_cases key value flips
  have hwrite : c.RWcache.contents.lookup k = none := by
    rw [hc, Contents.add, SortedMap.lookup_insert_ne _ _ hne, h.absent]
  rcases hput with ⟨_, hput⟩ | ⟨task, _, _, hput⟩
  · rw [hput]
    exact h.setWrite hwrite
  · rw [hput]
    have hsound : ({ s with write := c, fi := s.fi.getFreeBlock.1 } : Store).Sound :=
      (hready.alloc.setWrite c).sound
    have hunmapped := hready.sound.alloc_writable.imp_right fun hw => hw.unmapped
    exact (h.alloc.setWrite hwrite).flush hsound task.freeSpace hunmapped

theorem storedValue_of_map (hm : old.keyBlockMap = s.fi.keyBlockMap) (k : Int32) :
    (s.withTables old).storedValue k = s.storedValue k := by
  apply storedValue_congr
  · exact hm
  · rfl

theorem writeToBlock0_withTables (s : Store) (old : FileInfo) (k : Int32) :
    (s.writeToBlock0.withTables old).storedValue k = (s.withTables old).storedValue k := by
  apply storedValue_congr
  · rfl
  · rfl

theorem writeToBlock0_storedValue (s : Store) (k : Int32) : s.writeToBlock0.storedValue k = s.storedValue k := by
  apply storedValue_congr
  · exact FileInfo.writeToBlock0_map s.fi
  · rfl

theorem Kept.writeToBlock0 (h : s.Kept k v) : s.writeToBlock0.Kept k v := by
  constructor
  · exact h.absent
  · rw [writeToBlock0_storedValue, h.stored]
  · intro time old hopen
    rw [writeToBlock0_withTables]
    rw [Store.writeToBlock0, savedImage] at hopen
    cases hinfo : s.fi.writeToBlock0.2 with
    | none =>
      rw [hinfo, Option.none_or] at hopen
      exact h.saved time old hopen
    | some info =>
      rw [hinfo, Option.some_or, FileInfo.writeToBlock0_image hinfo, reopen_toProto, Option.some.injEq] at hopen
      rw [← hopen, storedValue_of_map (FileInfo.writeToBlock0_map s.fi), h.stored]

theorem Kept.signalHandler (h : s.Kept k v) (hready : s.Ready) : s.signalHandler.Kept k v := by
  have hunmapped := hready.sound.alloc_writable.imp_right fun hw => hw.unmapped
  exact (h.alloc.flush hready.sound.alloc (CACHE_SIZE - s.write.currentSize) hunmapped).writeToBlock0

theorem reload_eq {createTime : Bytes} (hs : s.reload createTime = some s') :
    ∃ fi, reopen createTime s.image = some fi ∧
      s' = { s with fi := fi, write := Cache.new, read := Cache.new } := by
  obtain ⟨fi, hopen, he⟩ := Option.map_eq_some_iff.mp hs
  exact ⟨fi, hopen, he.symm⟩

theorem Kept.reload (h : s.Kept k v) {createTime : Bytes} (hs : s.reload createTime = some s') : s'.Kept k v := by
  obtain ⟨fi, hopen, rfl⟩ := reload_eq hs
  exact ⟨rfl, h.saved createTime fi hopen, h.saved⟩

/-- A process that has just started keeps what its tables give. -/
theorem kept_of_reload {createTime : Bytes} (hs : s.reload createTime = some s') (k : Int32) :
    s'.Kept k (s'.current k) := by
  obtain ⟨fi, hopen, rfl⟩ := reload_eq hs
  have hcurrent := current_stored (s := { s with fi := fi, write := Cache.new, read := Cache.new }) rfl k
  refine ⟨rfl, hcurrent.symm, ?_⟩
  intro time old hold
  rw [hcurrent]
  cases himage : s.image with
  | none =>
    rw [himage, reopen, Option.some.injEq] at hopen
    have hold : reopen time none = some old := himage ▸ hold
    rw [reopen, Option.some.injEq] at hold
    rw [← hold, ← hopen]
    rfl
  | some info =>
    have hold : reopen time (some info) = some old := himage ▸ hold
    rw [himage] at hopen
    rw [reopen_time time createTime, hopen, Option.some.injEq] at hold
    rw [← hold]
    rfl

theorem Kept.serve (h : s.Kept k v) (hready : s.Ready) {r : FileRequest} (hput : ∀ value flips, r ≠ .put k value flips)
    {answer : Option Bytes} (hs : s.serve r = some (s', answer)) : s'.Kept k v := by
  cases r with
  | put key value flips =>
    cases hs
    have hne : k ≠ key := by
      intro he
      subst he
      exact hput value flips rfl
    exact h.put hready hne value flips
  | get key =>
    cases hs
    obtain ⟨read, hget⟩ := s.processGetRequests_eq key
    rw [hget]
    exact ⟨h.absent, h.stored, h.saved⟩
  | del key =>
    cases hs
    rw [processDelRequests_eq]
    apply h.setWrite
    rw [Cache.delhander_contents_lookup, h.absent, ite_self]
  | restart iteration b =>
    exact (h.signalHandler hready).reload (serve_restart hs).1
  | crash b =>
    exact h.reload (serve_crash hs).1

/-- A process that has just started keeps the answers it gives. -/
theorem kept_of_start {r : FileRequest} (hr : r.isStart) {answer : Option Bytes}
    (hs : s.serve r = some (s', answer)) (k : Int32) : answer = none ∧ s'.Kept k (s'.current k) := by
  cases r with
  | put => cases hr
  | get => cases hr
  | del => cases hr
  | restart iteration b =>
    obtain ⟨hreload, hanswer⟩ := serve_restart hs
    exact ⟨hanswer, kept_of_reload hreload k⟩
  | crash b =>
    obtain ⟨hreload, hanswer⟩ := serve_crash hs
    exact ⟨hanswer, kept_of_reload hreload k⟩

theorem Ready.finds (h : s.Ready) (hv : s.current k = v) {r : FileRequest} {answer : Option Bytes}
    (hs : s.serve r = some (s', answer)) : r.Finds k v answer := by
  intro hr
  subst hr
  cases hs
  rw [h.answer, hv]

theorem Ready.run (h : s.Ready) {rs : List FileRequest} {answers : List (Option Bytes)}
    (hrun : Transducer.run Store.serve s rs = some (s', answers)) : s'.Ready := by
  have hstep : ∀ (s : Store) r s' answer, s.Ready → True → s.serve r = some (s', answer) → s'.Ready ∧ True :=
    fun _ _ _ _ h _ hs => ⟨h.serve hs, trivial⟩
  exact (run_answers hstep rs h (along_of_forall fun _ _ _ => trivial) hrun).1

theorem along_without_put {rs : List FileRequest} (hput : ∀ value flips, FileRequest.put k value flips ∉ rs) :
    Along Store.serve (fun _ r => ∀ value flips, r ≠ .put k value flips) s rs := by
  apply along_of_forall
  intro r hr _ value flips he
  exact hput value flips (he ▸ hr)

/-- Requests without a put of the key do not change what a GET of it finds. -/
theorem Kept.run (h : s.Kept k v) (hready : s.Ready) {rs : List FileRequest}
    (hput : ∀ value flips, FileRequest.put k value flips ∉ rs) {answers : List (Option Bytes)}
    (hrun : Transducer.run Store.serve s rs = some (s', answers)) : List.Forall₂ (FileRequest.Finds k v) rs answers := by
  have hstep : ∀ (s : Store) r s' answer, s.Ready ∧ s.Kept k v → (∀ value flips, r ≠ .put k value flips) →
      s.serve r = some (s', answer) → (s'.Ready ∧ s'.Kept k v) ∧ r.Finds k v answer :=
    fun _ _ _ _ h hr hs => ⟨⟨h.1.serve hs, h.2.serve h.1 hr hs⟩, h.1.finds h.2.current hs⟩
  exact (run_answers hstep rs ⟨hready, h⟩ (along_without_put hput) hrun).2

end Store

namespace FileStore

/-- What a new process has for a key, each GET of it finds from then on, in this process and in
every later one, however they end and whatever they are asked, until the key is put. -/
theorem started_answers_stay {b : Boot} (hsize : b.infoSize.toNat ≤ maxVector) (rs rs' : List FileRequest)
    {r : FileRequest} (hr : r.isStart) (k : Int32) (hput : ∀ value flips, FileRequest.put k value flips ∉ rs')
    (hp : Along Store.serve Store.Persists (Store.start b.createTime) (rs ++ r :: rs')) :
    ∃ f f' answers answers' value, FileStore.boot (some []) b = some f ∧
      run FileStore.serve f (rs ++ r :: rs') = some (f', answers ++ none :: answers') ∧
        answers.length = rs.length ∧ List.Forall₂ (FileRequest.Finds k value) rs' answers' := by
  obtain ⟨f, hboot, hfollows⟩ := boot_follows hsize
  obtain ⟨f', s', answers, hf, hs, _⟩ := hfollows.run _ hp
  obtain ⟨s₀, answers₀, rest, hs₀, hrest, rfl⟩ := run_split hs
  obtain ⟨s₁, answer, answers', hs₁, hs', rfl⟩ := run_uncons hrest
  have hready := hfollows.ready.run hs₀
  obtain ⟨rfl, hkept⟩ := Store.kept_of_start hr hs₁ k
  exact ⟨f, f', answers₀, answers', s₁.current k, hboot, hf, run_length hs₀, hkept.run (hready.serve hs₁) hput hs'⟩

/-- The second process finds the value of key 1, and so does the fourth, although the third was
asked to delete it. -/
theorem started_answers_stay_deleted :
    let rs : List FileRequest := [.put 1 [97] fun _ => true]
    let r : FileRequest := .restart ⟨id, fun _ => List.Perm.refl _⟩ (epochBoot 2)
    let rs' : List FileRequest := [.get 1, .crash (epochBoot 3), .del 1, .put 2 [98] (fun _ => true),
      .restart ⟨id, fun _ => List.Perm.refl _⟩ (epochBoot 4), .get 1]
    ∃ f f' answers answers' value, FileStore.boot (some []) (epochBoot 0) = some f ∧
      run FileStore.serve f (rs ++ r :: rs') = some (f', answers ++ none :: answers') ∧
        answers.length = rs.length ∧ List.Forall₂ (FileRequest.Finds 1 value) rs' answers' :=
  started_answers_stay (b := epochBoot 0) (by decide) _ _ rfl 1 (by simp) (by decide +kernel)

end FileStore

end KVStorage

import KVStorage.Requests

/-!
# The last write

`addKeyBlockMapping` leaves a mapped key with its old block, so a flush of a newer
value of the key is lost. A GET finds the last PUT exactly as long as no flush writes
another value for a key that has a block.
-/

namespace KVStorage

set_option autoImplicit false

open Runs

def Request.valueFor (k : Int32) : Request → Option Bytes
  | .put key value _ => if key = k then some value else none
  | _ => none

def Request.after (r : Request) (last : Int32 → Option Bytes) (k : Int32) : Option Bytes :=
  (r.valueFor k).or (last k)

def lastPut (k : Int32) (rs : List Request) : Option Bytes := (rs.filterMap (Request.valueFor k)).getLast?

namespace Store

/-- After the requests, a GET of any key finds the value of its most recent PUT. -/
def GetsLast (createTime : Bytes) (rs : List Request) : Prop :=
  ∀ k, ((exec step (start createTime) rs).processGetRequests k).2 = (lastPut k rs).getD []

/-- The entries whose key has a block are stored there with the same value. -/
def Agrees (s : Store) (m : Contents) : Prop :=
  ∀ e ∈ m.entries, (s.storedValue e.1).getD e.2.data = e.2.data

instance (s : Store) (m : Contents) : Decidable (s.Agrees m) := List.decidableBAll _ m.entries

/-- The tables fit in block 0, or the ones already there give every key its value. -/
def ImageKeeps (s : Store) (createTime : Bytes) : Prop :=
  s.fi.writeToBlock0.2.isNone → ∀ old ∈ reopen createTime s.image, ∀ k ∈ s.fi.keyBlockMap.keys,
    (({ s with fi := old } : Store).storedValue k).getD [] = (s.storedValue k).getD []

instance (s : Store) (createTime : Bytes) : Decidable (s.ImageKeeps createTime) :=
  @instDecidableForall _ _ inferInstance
    (@decidableOptional _ _ (fun _ => List.decidableBAll _ s.fi.keyBlockMap.keys) _)

/-- What a request must meet so that no value is lost. -/
def Keeps (s : Store) : Request → Prop
  | .put key value flips =>
    if (s.write.put s.fi key value flips).2.2.isSome then
      s.Agrees (s.write.RWcache.contents.add key value)
    else value = [] → (s.storedValue key).getD [] = []
  | .get _ => True
  | .del _ => True
  | .restart createTime => s.Agrees s.write.RWcache.contents ∧ s.handlerFlush.ImageKeeps createTime

instance (s : Store) (r : Request) : Decidable (s.Keeps r) := by
  cases r <;> unfold Keeps <;> infer_instance

/-- What the write cache holds was put last. -/
def Tracks (s : Store) (last : Int32 → Option Bytes) : Prop :=
  ∀ k v, s.write.RWcache.contents.lookup k = some v → last k = some v.data

def Right (s : Store) (last : Int32 → Option Bytes) : Prop := ∀ k, s.current k = (last k).getD []

variable {s s' : Store} {last : Int32 → Option Bytes} {k : Int32}

theorem agrees_iff (m : Contents) :
    s.Agrees m ↔ ∀ k v u, m.lookup k = some v → s.storedValue k = some u → u = v.data := by
  constructor
  · intro h k v u hk hu
    have he := h (k, v) ((m.lookup_eq_some_iff k v).mp hk)
    rwa [hu, Option.getD_some] at he
  · rintro h ⟨k, v⟩ he
    have hk := (m.lookup_eq_some_iff k v).mpr he
    cases hu : s.storedValue k with
    | none => rfl
    | some u => exact h k v u hk hu

/-! ## A flush -/

/-- A flush leaves every key with its last value exactly when no key that had a block
was put again with another value. -/
theorem Sound.flush_right_iff (h : s.Sound) {freeBlock : SizeT} (freeSpace : SizeT)
    (hb : freeBlock ≠ noBlock) (hu : Unmapped s.fi freeBlock) (ht : s.Tracks last)
    (hrest : ∀ k, s.write.RWcache.contents.lookup k = none →
      (s.storedValue k).getD [] = (last k).getD []) :
    (∀ k, ((s.flush freeSpace freeBlock).storedValue k).getD [] = (last k).getD []) ↔
      s.Agrees s.write.RWcache.contents := by
  rw [agrees_iff]
  constructor
  · intro hright k v u hk hstored
    have hvalue := hright k
    obtain ⟨b, hmap⟩ := Option.isSome_iff_exists.mp ((h.storedValue_isSome k).mp (by simp [hstored]))
    rw [flush_storedValue freeSpace hb hu, hmap, ht k v hk] at hvalue
    simpa [hstored] using hvalue
  · intro hagree k
    rw [flush_storedValue freeSpace hb hu]
    cases hk : s.write.RWcache.contents.lookup k with
    | none =>
      have hold := hrest k hk
      cases hmap : s.fi.keyBlockMap.lookup k with
      | some b => exact hold
      | none =>
        have hnone : s.storedValue k = none := by simp [storedValue, hmap]
        rw [hnone] at hold
        exact hold
    | some v =>
      rw [ht k v hk]
      cases hmap : s.fi.keyBlockMap.lookup k with
      | none => rfl
      | some b =>
        obtain ⟨u, hstored⟩ := Option.isSome_iff_exists.mp ((h.storedValue_isSome k).mpr (by simp [hmap]))
        simp [hstored, hagree k v u hk hstored]

theorem flush_write (freeSpace : SizeT) {freeBlock : SizeT} (hb : freeBlock ≠ noBlock) :
    (s.flush freeSpace freeBlock).write.RWcache.contents = SortedMap.empty := by
  rw [flush_eq _ hb, ValidList.clear_contents]

theorem flush_storedValue_empty {freeBlock : SizeT} (freeSpace : SizeT) (hb : freeBlock ≠ noBlock)
    (hu : Unmapped s.fi freeBlock) (hk : s.current k = []) :
    ((s.flush freeSpace freeBlock).storedValue k).getD [] = [] := by
  rw [flush_storedValue freeSpace hb hu]
  unfold current at hk
  split at hk
  · rename_i hsearch
    cases hmap : s.fi.keyBlockMap.lookup k with
    | some b => exact hk
    | none => exact hsearch
  · rename_i hsearch
    exact absurd hk hsearch

/-! ## One request -/

theorem put_after (key : Int32) (value : Bytes) (flips : Fin level → Bool) (k : Int32) :
    (Request.put key value flips).after last k = if k = key then some value else last k := by
  by_cases hk : k = key
  · simp [Request.after, Request.valueFor, hk]
  · have hk' : ¬key = k := fun h => hk h.symm
    simp [Request.after, Request.valueFor, hk, hk']

theorem Tracks.add (h : s.Tracks last) (key : Int32) (value : Bytes) (flips : Fin level → Bool)
    {v : CppString} (hk : (s.write.RWcache.contents.add key value).lookup k = some v) :
    (Request.put key value flips).after last k = some v.data := by
  rw [put_after]
  rw [Contents.add, SortedMap.lookup_insert] at hk
  split at hk
  · rename_i he
    rw [if_pos he, ← Option.some.inj hk, Contents.stored_data]
  · rename_i he
    rw [if_neg he]
    exact h k v hk

theorem put_right_iff (hr : s.Right last) (key : Int32) (value : Bytes) (flips : Fin level → Bool)
    {c : Cache} (hc : c.RWcache.contents = s.write.RWcache.contents.add key value) :
    ({ s with write := c } : Store).Right ((Request.put key value flips).after last) ↔
      (value = [] → (s.storedValue key).getD [] = []) := by
  have hself : ({ s with write := c } : Store).current key =
      if value = [] then (s.storedValue key).getD [] else value := by
    have hsearch : c.RWcache.contents.search key = value := by
      simp [hc, Contents.search, Contents.add]
    simp only [current, hsearch]
    rfl
  constructor
  · intro h hvalue
    have hkey := h key
    rw [hself, put_after, if_pos rfl, if_pos hvalue] at hkey
    exact hkey.trans hvalue
  · intro h k
    rw [put_after]
    by_cases hk : k = key
    · subst hk
      rw [hself, if_pos rfl, Option.getD_some]
      split
      · rename_i hvalue
        rw [h hvalue, hvalue]
      · rfl
    · have hsearch : c.RWcache.contents.search k = s.write.RWcache.contents.search k := by
        simp [hc, Contents.search, Contents.add, SortedMap.lookup_insert_ne _ _ hk]
      rw [if_neg hk, ← hr k]
      simp only [current, hsearch]
      rfl

theorem Ready.put_flush_right_iff (h : s.Ready) (ht : s.Tracks last) (hr : s.Right last)
    (key : Int32) (value : Bytes) (flips : Fin level → Bool) {c : Cache} (freeSpace : SizeT)
    (hc : c.RWcache.contents = s.write.RWcache.contents.add key value)
    (hb : s.fi.getFreeBlock.2 ≠ noBlock) :
    (({ s with write := c, fi := s.fi.getFreeBlock.1 } : Store).flush freeSpace
        s.fi.getFreeBlock.2).Right ((Request.put key value flips).after last) ↔
      s.Agrees (s.write.RWcache.contents.add key value) := by
  let t : Store := { s with write := c, fi := s.fi.getFreeBlock.1 }
  have hready : t.Ready := h.alloc.setWrite c
  have hstored : ∀ k, t.storedValue k = s.storedValue k := s.alloc_storedValue
  have hunmapped : Unmapped t.fi s.fi.getFreeBlock.2 := (h.sound.live.writable hb).unmapped
  have htracks : t.Tracks ((Request.put key value flips).after last) := by
    intro k v hk
    apply ht.add key value flips
    rwa [← hc]
  have hrest : ∀ k, t.write.RWcache.contents.lookup k = none →
      (t.storedValue k).getD [] = ((Request.put key value flips).after last k).getD [] := by
    intro k hk
    have hne : k ≠ key := by
      rintro rfl
      simp [t, hc, Contents.add] at hk
    have hold : s.write.RWcache.contents.lookup k = none := by
      rwa [hc, Contents.add, SortedMap.lookup_insert_ne _ _ hne] at hk
    rw [hstored, put_after, if_neg hne, ← hr k, current_of_lookup_none hold]
  have hagrees : t.Agrees t.write.RWcache.contents ↔
      s.Agrees (s.write.RWcache.contents.add key value) := by
    rw [agrees_iff, agrees_iff]
    simp only [hstored, t, hc]
  rw [← hagrees, ← hready.sound.flush_right_iff freeSpace hb hunmapped htracks hrest]
  apply forall_congr'
  intro k
  rw [current_stored (flush_write freeSpace hb)]

theorem Ready.handlerFlush_right_iff (h : s.Ready) (ht : s.Tracks last) (hr : s.Right last)
    (hb : s.fi.getFreeBlock.2 ≠ noBlock) :
    (∀ k, (s.handlerFlush.storedValue k).getD [] = (last k).getD []) ↔
      s.Agrees s.write.RWcache.contents := by
  have hunmapped := (h.sound.live.writable hb).unmapped
  have hrest : ∀ k, s.write.RWcache.contents.lookup k = none →
      (({ s with fi := s.fi.getFreeBlock.1 } : Store).storedValue k).getD [] = (last k).getD [] := by
    intro k hk
    rw [alloc_storedValue, ← hr k, current_of_lookup_none hk]
  have hflush := h.sound.alloc.flush_right_iff (CACHE_SIZE - s.write.currentSize) hb hunmapped ht hrest
  have hagrees : ({ s with fi := s.fi.getFreeBlock.1 } : Store).Agrees s.write.RWcache.contents ↔
      s.Agrees s.write.RWcache.contents := by
    simp only [agrees_iff, alloc_storedValue]
  exact hflush.trans hagrees

theorem Ready.handlerFlush_empty (h : s.Ready) (hb : s.fi.getFreeBlock.2 ≠ noBlock)
    (hk : s.current k = []) : (s.handlerFlush.storedValue k).getD [] = [] := by
  apply flush_storedValue_empty _ hb (h.sound.live.writable hb).unmapped
  simpa only [current, alloc_storedValue] using hk

theorem reload_storedValue {s : Store} (createTime : Bytes)
    (hs : s.writeToBlock0.reload createTime = some s') :
    (s.fi.writeToBlock0.2.isNone = false → ∀ k, s'.storedValue k = s.storedValue k) ∧
      (s.fi.writeToBlock0.2.isNone → ∃ old, reopen createTime s.image = some old ∧
        ∀ k, s'.storedValue k = ({ s with fi := old } : Store).storedValue k) := by
  obtain ⟨old, hopen, rfl⟩ := Option.map_eq_some_iff.mp hs
  simp only [writeToBlock0, savedImage] at hopen
  cases hw : s.fi.writeToBlock0.2 with
  | none =>
    rw [hw, Option.none_or] at hopen
    exact ⟨by simp, fun _ => ⟨old, hopen, fun k => rfl⟩⟩
  | some info =>
    rw [hw, Option.some_or, FileInfo.writeToBlock0_image hw, reopen_toProto, Option.some.injEq] at hopen
    subst hopen
    exact ⟨fun _ k => storedValue_congr (FileInfo.writeToBlock0_map s.fi) rfl k, by simp⟩

theorem Ready.restart_right_iff (h : s.Ready) (ht : s.Tracks last) (hr : s.Right last)
    (createTime : Bytes) (hb : s.fi.getFreeBlock.2 ≠ noBlock)
    (hs : s.signalHandler.reload createTime = some s') :
    s'.Right last ↔ s.Agrees s.write.RWcache.contents ∧ s.handlerFlush.ImageKeeps createTime := by
  obtain ⟨_, hearlier, hwrite, _, hdisk⟩ := h.sound.restarted hs
  have hcurrent : ∀ k, s'.current k = (s'.storedValue k).getD [] := by
    intro k
    apply current_stored
    rw [hwrite]
    rfl
  have hstored : ∀ k, s'.storedValue k = none ∨ s'.storedValue k = s.handlerFlush.storedValue k :=
    fun k => storedValue_earlier hearlier hdisk k
  obtain ⟨hfits, hold⟩ := reload_storedValue createTime hs
  rw [← h.handlerFlush_right_iff ht hr hb]
  simp only [Right, hcurrent]
  cases hw : s.handlerFlush.fi.writeToBlock0.2.isNone with
  | false =>
    have himage : s.handlerFlush.ImageKeeps createTime := by simp [ImageKeeps, hw]
    simp only [hfits hw, himage, and_true]
  | true =>
    obtain ⟨old, hopen, holdStored⟩ := hold hw
    constructor
    · intro hright
      have hflushed : ∀ k, (s.handlerFlush.storedValue k).getD [] = (last k).getD [] := by
        intro k
        rcases hstored k with hnone | hsame
        · have hempty := hright k
          rw [hnone] at hempty
          rw [← hempty]
          exact h.handlerFlush_empty hb ((hr k).trans hempty.symm)
        · rw [← hsame]
          exact hright k
      refine ⟨hflushed, ?_⟩
      intro _ old' hopen' k _
      rw [Option.mem_def, hopen, Option.some.injEq] at hopen'
      rw [← hopen', ← holdStored, hright, hflushed]
    · rintro ⟨hflushed, himage⟩ k
      rw [← hflushed k]
      by_cases hk : k ∈ s.handlerFlush.fi.keyBlockMap.keys
      · rw [holdStored]
        exact himage hw old hopen k hk
      · have hnone : s.handlerFlush.storedValue k = none := by
          rw [storedValue, (SortedMap.lookup_eq_none_iff _ _).mpr hk, Option.bind_none]
        rcases hstored k with hgone | hsame
        · rw [hgone, hnone]
        · rw [hsame]

/-- Where every key had its last value before a request, every key has it afterwards
exactly when the request keeps all values. -/
theorem Ready.step_right_iff (h : s.Ready) (ht : s.Tracks last) (hr : s.Right last) (r : Request)
    (hdel : ∀ k, r ≠ .del k) (hfree : s.FreeBlock r) (hs : s.step r = some s') :
    s'.Right (r.after last) ↔ s.Keeps r := by
  cases r with
  | put key value flips =>
    cases hs
    simp only [Keeps]
    obtain ⟨c, hc, ⟨htask, hput⟩ | ⟨task, htask, hblock, hput⟩⟩ :=
      s.processPutRequests_cases key value flips
    · rw [hput, htask]
      exact put_right_iff hr key value flips hc
    · have hb : s.fi.getFreeBlock.2 ≠ noBlock := by
        rw [← hblock]
        exact hfree task htask
      rw [hput, htask, Option.isSome_some, if_pos rfl]
      exact h.put_flush_right_iff ht hr key value flips task.freeSpace hc hb
  | get key =>
    cases hs
    obtain ⟨read, hget⟩ := s.processGetRequests_eq key
    rw [hget]
    simp only [Keeps, iff_true]
    exact hr
  | del key => exact absurd rfl (hdel key)
  | restart createTime => exact h.restart_right_iff ht hr createTime hfree hs

theorem Tracks.step (h : s.Tracks last) (hready : s.Ready) (r : Request) (hdel : ∀ k, r ≠ .del k)
    (hs : s.step r = some s') : s'.Tracks (r.after last) := by
  cases r with
  | put key value flips =>
    cases hs
    obtain ⟨c, hc, ⟨_, hput⟩ | ⟨task, _, _, hput⟩⟩ := s.processPutRequests_cases key value flips
    · rw [hput]
      intro k v hk
      exact h.add key value flips (hc ▸ hk)
    · rw [hput]
      intro k v hk
      by_cases hb : s.fi.getFreeBlock.2 = noBlock
      · rw [hb, flush_noBlock] at hk
        exact h.add key value flips (hc ▸ hk)
      · rw [flush_write _ hb, SortedMap.lookup_empty] at hk
        cases hk
  | get key =>
    cases hs
    obtain ⟨read, hget⟩ := s.processGetRequests_eq key
    rw [hget]
    exact h
  | del key => exact absurd rfl (hdel key)
  | restart createTime =>
    obtain ⟨_, _, hwrite, _⟩ := hready.sound.restarted hs
    intro k v hk
    rw [hwrite] at hk
    simp [Cache.new] at hk

/-! ## Runs -/

theorem lastPut_append (k : Int32) (rs : List Request) (r : Request) :
    lastPut k (rs ++ [r]) = r.after (fun k => lastPut k rs) k := by
  unfold lastPut Request.after
  rw [List.filterMap_append, List.getLast?_append]
  cases hv : r.valueFor k <;> simp [hv]

theorem getsLast_iff (createTime : Bytes) (rs : List Request) :
    GetsLast createTime rs ↔ (exec step (start createTime) rs).Right fun k => lastPut k rs := by
  apply forall_congr'
  intro k
  rw [(exec_ready createTime rs).answer]

theorem exec_concat (createTime : Bytes) (rs : List Request) (r : Request) :
    step (exec step (start createTime) rs) r = some (exec step (start createTime) (rs ++ [r])) := by
  obtain ⟨s', hs⟩ := Option.isSome_iff_exists.mp (step_isSome (exec_ready createTime rs) r)
  rw [exec_append, hs, exec, next_eq hs, exec]

theorem exec_tracks (createTime : Bytes) (rs : List Request) (hdel : ∀ k, Request.del k ∉ rs) :
    (exec step (start createTime) rs).Tracks fun k => lastPut k rs := by
  induction rs using List.reverseRecOn with
  | nil =>
    intro k v hk
    simp [exec, start, Cache.new] at hk
  | append_singleton rs r ih =>
    have hlast : (fun k => lastPut k (rs ++ [r])) = r.after fun k => lastPut k rs :=
      funext fun k => lastPut_append k rs r
    rw [hlast]
    apply (ih fun k hk => hdel k (by simp [hk])).step (exec_ready createTime rs) r
    · intro k hr
      exact hdel k (by simp [hr])
    · exact exec_concat createTime rs r

/-- A run without DEL in which every flush finds a free block: a GET of any key, after
any of its requests, finds the last PUT, if and only if no flush and no image of the
run loses a value. -/
theorem gets_last_iff_keeps (createTime : Bytes) (rs : List Request) (hdel : ∀ k, Request.del k ∉ rs)
    (hfree : Along step FreeBlock (start createTime) rs) :
    (∀ ps, ps <+: rs → GetsLast createTime ps) ↔ Along step Keeps (start createTime) rs := by
  induction rs using List.reverseRecOn with
  | nil =>
    simp only [List.prefix_nil, forall_eq, Along, iff_true]
    intro k
    rw [exec, (start_ready createTime).answer]
    rfl
  | append_singleton rs r ih =>
    obtain ⟨hfree, hfreeLast⟩ := (along_append _ _ _).mp hfree
    have hdel' : ∀ k, Request.del k ∉ rs := fun k hk => hdel k (by simp [hk])
    have hr : ∀ k, r ≠ .del k := fun k he => hdel k (by simp [he])
    have hready := exec_ready createTime rs
    have hstep := exec_concat createTime rs r
    have hsome := step_isSome hready r
    have hlast : (fun k => lastPut k (rs ++ [r])) = r.after fun k => lastPut k rs :=
      funext fun k => lastPut_append k rs r
    simp only [List.prefix_concat_iff, forall_eq_or_imp, ih hdel' hfree, along_append, Along,
      forall_const, hsome, and_true]
    rw [and_comm]
    apply and_congr_right
    intro hkeeps
    have hright : (exec step (start createTime) rs).Right fun k => lastPut k rs :=
      (getsLast_iff createTime rs).mp ((ih hdel' hfree).mpr hkeeps rs (List.prefix_refl rs))
    rw [getsLast_iff, hlast]
    exact hready.step_right_iff (exec_tracks createTime rs hdel') hright r hr (hfreeLast.1 hsome) hstep

def lowFlips : Fin level → Bool := fun _ => false

def twoKeys : List Request :=
  [.put 1 [97] lowFlips, .restart [], .get 1, .put 2 [98] lowFlips, .restart [], .get 2]

theorem gets_last_two_keys :
    Along step Keeps (start []) twoKeys ∧ ∀ ps, ps <+: twoKeys → GetsLast [] ps := by
  have hkeeps : Along step Keeps (start []) twoKeys := by decide +kernel
  exact ⟨hkeeps, (gets_last_iff_keeps [] twoKeys (by simp [twoKeys]) (by decide +kernel)).mpr hkeeps⟩

/-- PUT 1 a, restart, PUT 1 b, restart: the index keeps the first block and a GET finds a. -/
theorem second_flush_lost : ¬∀ createTime rs, (∀ k, Request.del k ∉ rs) →
    Along step FreeBlock (start createTime) rs → ∀ ps, ps <+: rs → GetsLast createTime ps := by
  intro hclaim
  let rs : List Request := [.put 1 [97] lowFlips, .restart [], .put 1 [98] lowFlips, .restart []]
  have hget := hclaim [] rs (by simp [rs]) (by decide +kernel) rs (List.prefix_refl rs) 1
  have hfound : ((exec step (start []) rs).processGetRequests 1).2 = [97] := by decide +kernel
  have hlast : (lastPut 1 rs).getD [] = [98] := by decide +kernel
  rw [hfound, hlast] at hget
  exact absurd hget (by decide)

end Store

end KVStorage

import KVStorage.Store
import KVStorage.Library.Runs

/-!
# Requests one after the other

The tasks the pool runs, with every IO task they submit finished before the next
request, and a clean end of the program followed by a start on the file it leaves.
-/

namespace KVStorage

set_option autoImplicit false

open Runs

inductive Request where
  | put (key : Int32) (value : Bytes) (flips : Fin level → Bool)
  | get (key : Int32)
  | del (key : Int32)
  /-- `signalHandler`, then a new process. -/
  | restart (createTime : Bytes)

namespace Store

/-- An IO worker runs the flush that a put submitted. -/
def runTask (s : Store) : Option FlushTask → Store
  | none => s
  | some task => s.flush task.freeSpace task.freeBlock

def processPutRequests (s : Store) (key : Int32) (value : Bytes) (flips : Fin level → Bool) : Store :=
  let r := s.write.put s.fi key value flips
  { s with write := r.1, fi := r.2.1 }.runTask r.2.2

/-- With the value that was found, or "". -/
def processGetRequests (s : Store) (key : Int32) : Store × Bytes :=
  let value := s.write.getWrite key
  if value = [] then
    match s.read.getRead s.fi key with
    | (read, .value data) => ({ s with read := read }, data)
    | (read, .load block) =>
      let read := (read.loadFromDisk s.disk block).1
      ({ s with read := read }, read.RWcache.search key)
  else (s, value)

def processDelRequests (s : Store) (key : Int32) : Store :=
  let r := s.write.delWrite s.fi key
  let s := { s with write := r.1, fi := r.2.1 }
  if r.2.2 then s
  else
    let r := s.read.delRead s.fi key
    match r.2.2.1 with
    | none => { s with read := r.1, fi := r.2.1 }
    | some block =>
      let read := (r.1.loadFromDisk s.disk block).1
      { s with read := (read.delhander r.2.1 key (some block)).1,
               fi := (read.delhander r.2.1 key (some block)).2 }

/-- `signalHandler` once the pool is down. -/
def signalHandler (s : Store) : Store := s.handlerFlush.writeToBlock0

def step (s : Store) : Request → Option Store
  | .put key value flips => some (s.processPutRequests key value flips)
  | .get key => some (s.processGetRequests key).1
  | .del key => some (s.processDelRequests key)
  | .restart createTime => s.signalHandler.reload createTime

/-- A flush that a request makes finds a free block. -/
def FreeBlock (s : Store) : Request → Prop
  | .put key value flips => ∀ task ∈ (s.write.put s.fi key value flips).2.2, task.freeBlock ≠ noBlock
  | .get _ => True
  | .del _ => True
  | .restart _ => s.fi.getFreeBlock.2 ≠ noBlock

instance : ∀ (s : Store) (r : Request), Decidable (s.FreeBlock r)
  | s, .put key value flips => inferInstanceAs
      (Decidable (∀ task ∈ (s.write.put s.fi key value flips).2.2, task.freeBlock ≠ noBlock))
  | _, .get _ => isTrue trivial
  | _, .del _ => isTrue trivial
  | s, .restart _ => inferInstanceAs (Decidable (s.fi.getFreeBlock.2 ≠ noBlock))

/-- The read cache holds the block it names, to which a key is mapped. -/
def ReadHolds (s : Store) : Prop :=
  s.read.currentReadBlock = noBlock ∨
    (∃ k, s.fi.keyBlockMap.lookup k = some s.read.currentReadBlock) ∧
      ∃ m, s.disk s.read.currentReadBlock = some m ∧
        ∀ k, s.read.RWcache.contents.lookup k = (m.lookup k).map CppString.ofBytes

structure Ready (s : Store) : Prop where
  sound : s.Sound
  reads : s.ReadHolds

variable {s s' : Store} {k : Int32}

theorem start_ready (createTime : Bytes) : (start createTime).Ready :=
  ⟨start_sound createTime, Or.inl rfl⟩

/-! ## What a request does to the store -/

/-- A put leaves the new entry in the cache, and where it submits a flush, the cache is
written to the block it asked for. -/
theorem processPutRequests_cases (s : Store) (key : Int32) (value : Bytes) (flips : Fin level → Bool) :
    ∃ c : Cache, c.RWcache.contents = s.write.RWcache.contents.add key value ∧
      ((s.write.put s.fi key value flips).2.2 = none ∧
          s.processPutRequests key value flips = { s with write := c } ∨
        ∃ task, (s.write.put s.fi key value flips).2.2 = some task ∧
          task.freeBlock = s.fi.getFreeBlock.2 ∧
          s.processPutRequests key value flips =
            ({ s with write := c, fi := s.fi.getFreeBlock.1 } : Store).flush task.freeSpace
              s.fi.getFreeBlock.2) := by
  refine ⟨_, s.write.put_contents s.fi key value flips, ?_⟩
  simp only [processPutRequests]
  rcases s.write.put_cases s.fi key value flips with ⟨hfi, htask⟩ | ⟨hfi, task, htask, hblock⟩
  · refine Or.inl ⟨htask, ?_⟩
    rw [hfi, htask, runTask]
  · refine Or.inr ⟨task, htask, hblock, ?_⟩
    rw [hfi, htask, runTask, hblock]

theorem processGetRequests_eq (s : Store) (key : Int32) :
    ∃ read, (s.processGetRequests key).1 = { s with read := read } := by
  simp only [processGetRequests]
  split
  · split
    · exact ⟨_, rfl⟩
    · exact ⟨_, rfl⟩
  · exact ⟨s.read, rfl⟩

theorem processDelRequests_eq (s : Store) (key : Int32) : s.processDelRequests key =
    { s with write := (s.write.delhander s.fi key none).1 } := by
  simp only [processDelRequests, Cache.delWrite, if_true, Cache.delhander_write_fi]

theorem Sound.restarted (h : s.Sound) {createTime : Bytes} (hs : s.step (.restart createTime) = some s') :
    s'.Sound ∧ Earlier s'.fi s.signalHandler.fi ∧ s'.write = Cache.new ∧ s'.read = Cache.new ∧
      s'.disk = s.signalHandler.disk := by
  obtain ⟨s₁, hreload, hspec⟩ := h.handlerFlush.writeToBlock0.reload createTime
  have he : s₁ = s' := Option.some.inj (hreload.symm.trans hs)
  subst he
  exact hspec

/-! ## What a GET answers -/

/-- What the write cache and, after it, the blocks have for a key. -/
def current (s : Store) (k : Int32) : Bytes :=
  if s.write.RWcache.contents.search k = [] then (s.storedValue k).getD []
  else s.write.RWcache.contents.search k

theorem ReadHolds.search (h : s.ReadHolds) {b : SizeT} (hb : b ≠ noBlock)
    (hread : b = s.read.currentReadBlock) (hk : s.fi.keyBlockMap.lookup k = some b) :
    s.read.RWcache.search k = (s.storedValue k).getD [] := by
  subst hread
  obtain ⟨_, m, hm, hlook⟩ := h.resolve_left hb
  rw [ValidList.search_eq, Contents.search, hlook]
  simp only [storedValue, hk, Option.bind_some, hm]
  cases m.lookup k <;> rfl

theorem Sound.loaded (h : s.Sound) (c : Cache) {b : SizeT} (hb : b ≠ noBlock)
    (hk : s.fi.keyBlockMap.lookup k = some b) :
    (c.loadFromDisk s.disk b).1.RWcache.search k = (s.storedValue k).getD [] := by
  obtain ⟨_, _, m, hm, _⟩ := h.live.mapped k b hk
  simp only [Cache.loadFromDisk, if_neg hb, hm, storedValue, hk, Option.bind_some]
  exact ValidList.load_search m k

/-- A GET is answered by the write cache, by nobody, by the block in the read cache, or by the
block it loads. -/
theorem Sound.get_cases (h : s.Sound) (key : Int32) :
    (s.write.RWcache.contents.search key ≠ [] ∧
        s.processGetRequests key = (s, s.write.RWcache.contents.search key)) ∨
      s.write.RWcache.contents.search key = [] ∧
        (s.fi.keyBlockMap.lookup key = none ∧ s.processGetRequests key = (s, []) ∨
          ∃ b, s.fi.keyBlockMap.lookup key = some b ∧ b ≠ noBlock ∧
            (b = s.read.currentReadBlock ∧ s.processGetRequests key = (s, s.read.RWcache.search key) ∨
              ∃ c : Cache, c.currentReadBlock = b ∧ s.processGetRequests key =
                ({ s with read := (c.loadFromDisk s.disk b).1 },
                  (c.loadFromDisk s.disk b).1.RWcache.search key))) := by
  simp only [processGetRequests, Cache.getWrite_eq, Cache.getRead]
  by_cases hw : s.write.RWcache.contents.search key = []
  · refine Or.inr ⟨hw, ?_⟩
    rw [if_pos hw]
    cases hk : s.fi.keyBlockMap.lookup key with
    | none =>
      refine Or.inl ⟨rfl, ?_⟩
      simp [FileInfo.getBlockNumber, hk]
    | some b =>
      have hb := h.mapped_ne_noBlock hk
      refine Or.inr ⟨b, rfl, hb, ?_⟩
      rw [FileInfo.getBlockNumber_of_lookup hk, if_pos hb]
      by_cases hread : b = s.read.currentReadBlock
      · rw [if_pos hread]
        exact Or.inl ⟨hread, rfl⟩
      · rw [if_neg hread]
        exact Or.inr ⟨{ s.read with currentReadBlock := b }, rfl, rfl⟩
  · rw [if_neg hw]
    exact Or.inl ⟨hw, rfl⟩

theorem Ready.answer (h : s.Ready) (k : Int32) : (s.processGetRequests k).2 = s.current k := by
  rcases h.sound.get_cases k with ⟨hw, hget⟩ | ⟨hw, ⟨hk, hget⟩ | ⟨b, hk, hb, ⟨hread, hget⟩ | ⟨c, _, hget⟩⟩⟩
  · rw [hget, current, if_neg hw]
  · rw [hget, current, if_pos hw]
    simp [storedValue, hk]
  · rw [hget, current, if_pos hw]
    exact h.reads.search hb hread hk
  · rw [hget, current, if_pos hw]
    exact h.sound.loaded c hb hk

theorem current_of_lookup_none (h : s.write.RWcache.contents.lookup k = none) :
    s.current k = (s.storedValue k).getD [] := by
  have hsearch : s.write.RWcache.contents.search k = [] := by simp [Contents.search, h]
  rw [current, if_pos hsearch]

theorem current_stored (h : s.write.RWcache.contents = SortedMap.empty) (k : Int32) :
    s.current k = (s.storedValue k).getD [] :=
  current_of_lookup_none (by rw [h, SortedMap.lookup_empty])

/-! ## Each request keeps the store ready -/

theorem ReadHolds.flush (h : s.ReadHolds) (freeSpace : SizeT) {freeBlock : SizeT}
    (hu : freeBlock = noBlock ∨ Unmapped s.fi freeBlock) : (s.flush freeSpace freeBlock).ReadHolds := by
  by_cases hb : freeBlock = noBlock
  · rwa [hb, flush_noBlock]
  · have hu := hu.resolve_left hb
    rcases h with hn | ⟨⟨k, hk⟩, m, hm, hlook⟩
    · refine Or.inl ?_
      rwa [flush_eq _ hb]
    · have hne : s.read.currentReadBlock ≠ freeBlock := by
        intro he
        exact hu k (he ▸ hk)
      have hdisk : (s.flush freeSpace freeBlock).disk s.read.currentReadBlock =
          s.disk s.read.currentReadBlock := flush_disk_other (Or.inr hne)
      have hmap := (s.flush_earlier freeSpace freeBlock).mapped k _ hk
      have hread : (s.flush freeSpace freeBlock).read = s.read := rfl
      refine Or.inr ?_
      rw [hread]
      exact ⟨⟨k, hmap⟩, m, hdisk.trans hm, hlook⟩

theorem Ready.flush (h : s.Ready) (freeSpace : SizeT) {freeBlock : SizeT}
    (hw : freeBlock = noBlock ∨ Writable s.fi freeBlock) : (s.flush freeSpace freeBlock).Ready :=
  ⟨h.sound.flush freeSpace hw, h.reads.flush freeSpace (hw.imp_right fun hw => hw.unmapped)⟩

theorem Ready.alloc (h : s.Ready) : ({ s with fi := s.fi.getFreeBlock.1 } : Store).Ready := by
  refine ⟨h.sound.alloc, ?_⟩
  simp only [ReadHolds, FileInfo.getFreeBlock_map]
  exact h.reads

theorem Ready.setWrite (h : s.Ready) (c : Cache) : ({ s with write := c } : Store).Ready :=
  ⟨⟨h.sound.live, h.sound.saved⟩, h.reads⟩

theorem Ready.put (h : s.Ready) (key : Int32) (value : Bytes) (flips : Fin level → Bool) :
    (s.processPutRequests key value flips).Ready := by
  obtain ⟨c, _, ⟨_, hput⟩ | ⟨task, _, _, hput⟩⟩ := s.processPutRequests_cases key value flips
  · rw [hput]
    exact h.setWrite c
  · rw [hput]
    exact (h.alloc.setWrite c).flush _ h.sound.alloc_writable

theorem Ready.get (h : s.Ready) (key : Int32) : (s.processGetRequests key).1.Ready := by
  rcases h.sound.get_cases key with
    ⟨_, hget⟩ | ⟨_, ⟨_, hget⟩ | ⟨b, hk, hb, ⟨_, hget⟩ | ⟨c, hc, hget⟩⟩⟩
  · rwa [hget]
  · rwa [hget]
  · rwa [hget]
  · rw [hget]
    refine ⟨⟨h.sound.live, h.sound.saved⟩, Or.inr ?_⟩
    obtain ⟨_, _, m, hm, _⟩ := h.sound.live.mapped key b hk
    simp only [Cache.loadFromDisk, if_neg hb, hm, hc]
    exact ⟨⟨key, hk⟩, m, rfl, ValidList.load_contents_lookup m⟩

theorem step_ready (h : s.Ready) (r : Request) (hs : s.step r = some s') : s'.Ready := by
  cases r with
  | put key value flips =>
    cases hs
    exact h.put key value flips
  | get key =>
    cases hs
    exact h.get key
  | del key =>
    cases hs
    rw [processDelRequests_eq]
    exact h.setWrite _
  | restart createTime =>
    obtain ⟨hsound, _, _, hread, _⟩ := h.sound.restarted hs
    refine ⟨hsound, Or.inl ?_⟩
    rw [hread]
    rfl

theorem step_isSome (h : s.Ready) (r : Request) : (s.step r).isSome := by
  cases r with
  | put key value flips => rfl
  | get key => rfl
  | del key => rfl
  | restart createTime =>
    obtain ⟨s₁, hreload, _⟩ := h.sound.handlerFlush.writeToBlock0.reload createTime
    rw [step, signalHandler, hreload, Option.isSome_some]

theorem exec_ready (createTime : Bytes) (rs : List Request) :
    (exec step (start createTime) rs).Ready :=
  exec_always (fun _ r _ h hs => step_ready h r hs) rs (start_ready createTime)

end Store

end KVStorage

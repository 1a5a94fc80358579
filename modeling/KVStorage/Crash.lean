import KVStorage.Store
import KVStorage.Library.Runs

/-!
# The index through flushes, images and crashes

The steps of one process and of its successors on the same file. The write lock
travels with a queued flush, so puts and deletes wait until it has run; the signal
handler takes no lock, and a crash can come at any point.
-/

namespace KVStorage

set_option autoImplicit false

open Runs

/-- A process on the file; `pending` is the flush that holds the write lock. -/
structure CrashState where
  store : Store
  pending : Option FlushTask

inductive CrashAct where
  | put (key : Int32) (value : Bytes) (flips : Fin level → Bool)
  | del (key : Int32)
  /-- An IO worker runs the queued flush. -/
  | runFlush
  | loadFromDisk (block : SizeT)
  | handlerFlush
  | writeToBlock0
  /-- The tables are read back after a clean end or a crash. -/
  | restart (createTime : Bytes)

namespace CrashState

def start (createTime : Bytes) : CrashState := ⟨Store.start createTime, none⟩

def step (s : CrashState) : CrashAct → Option CrashState
  | .put key value flips =>
    match s.pending with
    | some _ => none
    | none =>
      let r := s.store.write.put s.store.fi key value flips
      some ⟨{ s.store with write := r.1, fi := r.2.1 }, r.2.2⟩
  | .del key =>
    match s.pending with
    | some _ => none
    | none =>
      let r := s.store.write.delWrite s.store.fi key
      some ⟨{ s.store with write := r.1, fi := r.2.1 }, none⟩
  | .runFlush =>
    match s.pending with
    | none => none
    | some task =>
      -- the queue of "no block" has no worker
      if task.freeBlock = noBlock then none
      else some ⟨s.store.flush task.freeSpace task.freeBlock, none⟩
  | .loadFromDisk block =>
    some { s with
      store := { s.store with read := (s.store.read.loadFromDisk s.store.disk block).1 } }
  | .handlerFlush => some { s with store := s.store.handlerFlush }
  | .writeToBlock0 => some { s with store := s.store.writeToBlock0 }
  | .restart createTime => (s.store.reload createTime).map fun store => ⟨store, none⟩

def written (s : CrashState) : CrashAct → Option SizeT
  | .runFlush => s.pending.map (·.freeBlock)
  | .handlerFlush =>
    if s.store.fi.getFreeBlock.2 = noBlock then none else some s.store.fi.getFreeBlock.2
  | _ => none

def IndexTrue (s : CrashState) : Prop :=
  ∀ k b, s.store.fi.keyBlockMap.lookup k = some b → 1 ≤ b.toNat ∧ b.toNat < NUM_BLOCKS ∧
    s.store.fi.Used b ∧ ∃ m, s.store.disk b = some m ∧ k ∈ m.keys

/-- No step writes a block to which the tables in memory or the last image map a key,
and only the written block changes. -/
def WritesSafe (s : CrashState) : Prop :=
  ∀ a s', s.step a = some s' →
    (∀ b, s.written a ≠ some b → s'.store.disk b = s.store.disk b) ∧
    ∀ b, s.written a = some b → Unmapped s.store.fi b ∧
      ∀ createTime old, reopen createTime s.store.image = some old → Unmapped old b

structure Sound (s : CrashState) : Prop where
  store : s.store.Sound
  pending : ∀ t, s.pending = some t → t.freeBlock = noBlock ∨ Writable s.store.fi t.freeBlock

variable {s s' : CrashState}

/-- What a step that is taken does. -/
inductive Stepped (s : CrashState) : CrashAct → CrashState → Prop where
  | put {key : Int32} {value : Bytes} {flips : Fin level → Bool} (idle : s.pending = none) :
      Stepped s (.put key value flips)
        ⟨{ s.store with
            write := (s.store.write.put s.store.fi key value flips).1
            fi := (s.store.write.put s.store.fi key value flips).2.1 },
          (s.store.write.put s.store.fi key value flips).2.2⟩
  | del {key : Int32} (idle : s.pending = none) :
      Stepped s (.del key) ⟨{ s.store with write := (s.store.write.delWrite s.store.fi key).1 }, none⟩
  | runFlush {task : FlushTask} (queued : s.pending = some task) (block : task.freeBlock ≠ noBlock) :
      Stepped s .runFlush ⟨s.store.flush task.freeSpace task.freeBlock, none⟩
  | loadFromDisk {block : SizeT} : Stepped s (.loadFromDisk block)
      { s with store := { s.store with read := (s.store.read.loadFromDisk s.store.disk block).1 } }
  | handlerFlush : Stepped s .handlerFlush { s with store := s.store.handlerFlush }
  | writeToBlock0 : Stepped s .writeToBlock0 { s with store := s.store.writeToBlock0 }
  | restart {createTime : Bytes} {store : Store} (reload : s.store.reload createTime = some store) :
      Stepped s (.restart createTime) ⟨store, none⟩

theorem step_cases {a : CrashAct} (hs : s.step a = some s') : s.Stepped a s' := by
  cases a with
  | put key value flips =>
    simp only [step] at hs
    split at hs
    case h_1 => cases hs
    case h_2 hp => exact Option.some.inj hs ▸ .put hp
  | del key =>
    simp only [step, Cache.delWrite, Cache.delhander_write_fi] at hs
    split at hs
    case h_1 => cases hs
    case h_2 hp => exact Option.some.inj hs ▸ .del hp
  | runFlush =>
    simp only [step] at hs
    split at hs
    case h_1 => cases hs
    case h_2 task hp =>
      obtain ⟨hn, hs⟩ := Option.ite_none_left_eq_some.mp hs
      exact Option.some.inj hs ▸ .runFlush hp hn
  | loadFromDisk block => exact Option.some.inj hs ▸ .loadFromDisk
  | handlerFlush => exact Option.some.inj hs ▸ .handlerFlush
  | writeToBlock0 => exact Option.some.inj hs ▸ .writeToBlock0
  | restart createTime =>
    obtain ⟨store, hreload, rfl⟩ := Option.map_eq_some_iff.mp hs
    exact .restart hreload

theorem start_sound (createTime : Bytes) : (start createTime).Sound where
  store := Store.start_sound createTime
  pending := by
    intro t ht
    simp [start] at ht

theorem Sound.alloc_ne (h : s.Sound) (hb : s.store.fi.getFreeBlock.2 ≠ noBlock) {t : FlushTask}
    (ht : s.pending = some t) : t.freeBlock ≠ s.store.fi.getFreeBlock.2 := by
  intro he
  rcases h.pending t ht with hn | hw
  · exact hb (he ▸ hn)
  · exact (FileInfo.getFreeBlock_spec hb).2.1 (he ▸ hw.used)

theorem Sound.put (h : s.Sound) (key : Int32) (value : Bytes) (flips : Fin level → Bool) :
    (⟨{ s.store with
        write := (s.store.write.put s.store.fi key value flips).1
        fi := (s.store.write.put s.store.fi key value flips).2.1 },
      (s.store.write.put s.store.fi key value flips).2.2⟩ : CrashState).Sound := by
  rcases s.store.write.put_cases s.store.fi key value flips with ⟨hfi, htask⟩ | ⟨hfi, t, htask, hblock⟩
  · simp only [hfi, htask]
    exact ⟨⟨h.store.live, h.store.saved⟩, by simp⟩
  · simp only [hfi, htask]
    refine ⟨⟨h.store.alloc.live, h.store.alloc.saved⟩, ?_⟩
    intro t' ht'
    cases ht'
    rw [hblock]
    exact h.store.alloc_writable

/-- The flush of the handler takes another block than the one that is queued. -/
theorem Sound.handlerFlush (h : s.Sound) : ({ s with store := s.store.handlerFlush } : CrashState).Sound := by
  refine ⟨h.store.handlerFlush, ?_⟩
  intro t ht
  rcases h.pending t ht with hn | hw
  · exact Or.inl hn
  · by_cases hb : s.store.fi.getFreeBlock.2 = noBlock
    · refine Or.inr ?_
      rw [Store.handlerFlush, hb, Store.flush_noBlock]
      exact hw.getFreeBlock
    · exact Or.inr (Store.flush_writable _ hw.getFreeBlock (h.alloc_ne hb ht))

theorem step_sound (h : s.Sound) (a : CrashAct) (hs : s.step a = some s') : s'.Sound := by
  cases step_cases hs with
  | put => exact h.put _ _ _
  | del => exact ⟨⟨h.store.live, h.store.saved⟩, by simp⟩
  | runFlush hp _ => exact ⟨h.store.flush _ (h.pending _ hp), by simp⟩
  | loadFromDisk => exact ⟨⟨h.store.live, h.store.saved⟩, h.pending⟩
  | handlerFlush => exact h.handlerFlush
  | writeToBlock0 =>
    exact ⟨h.store.writeToBlock0, fun t ht => (h.pending t ht).imp_right fun hw => hw.congr rfl rfl⟩
  | @restart createTime _ hreload =>
    obtain ⟨store, hreload', hsound, _⟩ := h.store.reload createTime
    cases hreload.symm.trans hreload'
    exact ⟨hsound, by simp⟩

theorem exec_sound (createTime : Bytes) (acts : List CrashAct) :
    (exec step (start createTime) acts).Sound :=
  exec_always (fun _ a _ h hs => step_sound h a hs) acts (start_sound createTime)

theorem Sound.indexTrue (h : s.Sound) : s.IndexTrue := by
  intro k b hk
  obtain ⟨h0, hused, hstored⟩ := h.store.live.mapped k b hk
  refine ⟨?_, hused.1, hused, hstored⟩
  have hne : b.toNat ≠ 0 := fun he => h0 (UInt64.toNat_inj.mp he)
  omega

theorem Sound.unmapped_saved (h : s.Sound) {b : SizeT} (hb : Unmapped s.store.fi b)
    (createTime : Bytes) {old : FileInfo} (hopen : reopen createTime s.store.image = some old) :
    Unmapped old b := by
  obtain ⟨old', hopen', _, hold⟩ := h.store.saved createTime
  rw [hopen, Option.some.injEq] at hopen'
  exact hopen' ▸ hold.unmapped hb

theorem Sound.writesSafe (h : s.Sound) : s.WritesSafe := by
  intro a s' hs
  -- what is written is a block to which no key is mapped
  have hblock : ∀ {b : SizeT} {written : Option SizeT} {store : Store}, written = some b → Unmapped s.store.fi b →
      (∀ c, c ≠ b → store.disk c = s.store.disk c) → (∀ c, written ≠ some c → store.disk c = s.store.disk c) ∧
        ∀ c, written = some c → Unmapped s.store.fi c ∧
          ∀ createTime old, reopen createTime s.store.image = some old → Unmapped old c := by
    intro b written store hwritten hb hdisk
    subst hwritten
    refine ⟨fun c hc => hdisk c fun he => hc (he ▸ rfl), ?_⟩
    intro c hc
    cases hc
    exact ⟨hb, fun time old hopen => h.unmapped_saved hb time hopen⟩
  cases step_cases hs with
  | runFlush hp hn =>
    have hw := (h.pending _ hp).resolve_left hn
    refine hblock (by rw [written, hp]; rfl) hw.unmapped ?_
    exact fun b hb => Store.flush_disk_other (Or.inr hb)
  | handlerFlush =>
    by_cases hn : s.store.fi.getFreeBlock.2 = noBlock
    · simp only [written, if_pos hn]
      exact ⟨fun b _ => Store.flush_disk_other (Or.inl hn), nofun⟩
    · refine hblock (if_neg hn) ?_ fun b hb => Store.flush_disk_other (Or.inr hb)
      intro k hk
      exact (h.store.live.writable hn).unmapped k ((FileInfo.getFreeBlock_map s.store.fi).symm ▸ hk)
  | put | del | loadFromDisk | writeToBlock0 => exact ⟨fun _ _ => rfl, nofun⟩
  | @restart createTime _ hreload =>
    obtain ⟨store, hreload', _, _, _, _, hdisk⟩ := h.store.reload createTime
    cases hreload.symm.trans hreload'
    exact ⟨fun b _ => congrFun hdisk b, nofun⟩

/-- In every state any steps and crashes lead to, the index is true of the disk, and
the next step overwrites no block that the live or the saved index uses. -/
theorem index_consistent_through_crashes (createTime : Bytes) (acts : List CrashAct) :
    (exec step (start createTime) acts).IndexTrue ∧ (exec step (start createTime) acts).WritesSafe :=
  ⟨(exec_sound createTime acts).indexTrue, (exec_sound createTime acts).writesSafe⟩

end CrashState

end KVStorage

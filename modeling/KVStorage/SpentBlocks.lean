import KVStorage.Requests

/-!
# What blocks are spent on

A flush spends a block. It is of use if a key comes to be mapped to it, and keys that are
mapped already stay where they are.
-/

namespace KVStorage

set_option autoImplicit false

open Runs

/-- Every used data block is the block of a key. -/
def FileInfo.SpentOnData (fi : FileInfo) : Prop :=
  ∀ b, b ≠ 0 → fi.Used b → ∃ k, fi.keyBlockMap.lookup k = some b

theorem FileInfo.SpentOnData.congr {fi fi' : FileInfo} (h : fi.SpentOnData)
    (hu : fi'.blockUsageTable = fi.blockUsageTable) (hm : fi'.keyBlockMap = fi.keyBlockMap) : fi'.SpentOnData := by
  intro b hb hused
  rw [hm]
  exact h b hb ((FileInfo.used_congr hu).mp hused)

theorem FileInfo.new_spentOnData (createTime : Bytes) : (FileInfo.new createTime).SpentOnData := by
  rintro b hb ⟨hlt, hused⟩
  refine absurd (UInt64.toNat_inj.mp ?_) hb
  exact of_decide_eq_true hused

namespace Store

/-- The write cache has a key that is mapped nowhere. -/
def NewKey (s : Store) : Prop := ∃ k ∈ s.write.RWcache.contents.keys, s.fi.keyBlockMap.lookup k = none

instance decidableNewKey (s : Store) : Decidable s.NewKey := List.decidableBEx _ _

/-- A flush that gets a block has a new key for it; where the image of a restart is refused, the tables with
that block are lost. -/
def Useful (s : Store) : Request → Prop
  | .put key value flips => ∀ task ∈ (s.write.put s.fi key value flips).2.2, task.freeBlock ≠ noBlock →
      ({ s with write := (s.write.put s.fi key value flips).1 } : Store).NewKey
  | .restart _ => s.fi.getFreeBlock.2 ≠ noBlock → s.handlerFlush.fi.writeToBlock0.2.isSome → s.NewKey
  | .get _ => True
  | .del _ => True

variable {s s' : Store} {b : SizeT}

theorem flushed_used (freeSpace : SizeT) (hb : s.fi.getFreeBlock.2 ≠ noBlock) :
    (({ s with fi := s.fi.getFreeBlock.1 } : Store).flush freeSpace s.fi.getFreeBlock.2).fi.Used b ↔
      b = s.fi.getFreeBlock.2 ∨ s.fi.Used b := by
  rw [flush_eq _ hb, FileInfo.used_congr (flushedInfo_usage _ _ _ _)]
  exact (FileInfo.getFreeBlock_spec hb).2.2 b

theorem flushed_lookup (freeSpace : SizeT) (hb : s.fi.getFreeBlock.2 ≠ noBlock) (k : Int32) :
    (({ s with fi := s.fi.getFreeBlock.1 } : Store).flush freeSpace s.fi.getFreeBlock.2).fi.keyBlockMap.lookup k =
      (s.fi.keyBlockMap.lookup k).or
        (if k ∈ s.write.RWcache.contents.keys then some s.fi.getFreeBlock.2 else none) := by
  rw [flush_eq _ hb, flushedInfo_lookup, FileInfo.getFreeBlock_map]

/-- The block that a flush asks for is spent on data if and only if there is a new key. -/
theorem flushed_spentOnData (h : s.Sound) (hspent : s.fi.SpentOnData) (freeSpace : SizeT)
    (hb : s.fi.getFreeBlock.2 ≠ noBlock) :
    (({ s with fi := s.fi.getFreeBlock.1 } : Store).flush freeSpace s.fi.getFreeBlock.2).fi.SpentOnData ↔
      s.NewKey := by
  obtain ⟨_, hfree, _⟩ := FileInfo.getFreeBlock_spec hb
  constructor
  · intro hafter
    have hzero : s.fi.getFreeBlock.2 ≠ 0 := fun h0 => hfree (h0 ▸ h.live.block0)
    obtain ⟨k, hk⟩ := hafter _ hzero ((flushed_used freeSpace hb).mpr (Or.inl rfl))
    rw [flushed_lookup freeSpace hb] at hk
    cases hold : s.fi.keyBlockMap.lookup k with
    | some b =>
      -- a block that a key was mapped to was in use
      rw [hold, Option.some_or, Option.some.injEq] at hk
      exact absurd (h.live.mapped k b hold).2.1 (hk ▸ hfree)
    | none =>
      rw [hold, Option.none_or, Option.ite_none_right_eq_some] at hk
      exact ⟨k, hk.1, hold⟩
  · rintro ⟨k, hk, hnone⟩ b hzero hused
    rcases (flushed_used freeSpace hb).mp hused with rfl | hused
    · refine ⟨k, ?_⟩
      rw [flushed_lookup freeSpace hb, hnone, Option.none_or, if_pos hk]
    · obtain ⟨k', hk'⟩ := hspent b hzero hused
      refine ⟨k', ?_⟩
      rw [flushed_lookup freeSpace hb, hk', Option.some_or]

theorem flushed_noBlock (freeSpace : SizeT) (hb : s.fi.getFreeBlock.2 = noBlock) :
    (({ s with fi := s.fi.getFreeBlock.1 } : Store).flush freeSpace s.fi.getFreeBlock.2).fi = s.fi := by
  rw [hb, flush_noBlock, FileInfo.getFreeBlock_noBlock hb]

theorem put_spentOnData (h : s.Sound) (hspent : s.fi.SpentOnData) (key : Int32) (value : Bytes)
    (flips : Fin level → Bool) :
    (s.processPutRequests key value flips).fi.SpentOnData ↔ s.Useful (.put key value flips) := by
  rcases s.write.put_cases s.fi key value flips with ⟨hfi, htask⟩ | ⟨hfi, task, htask, hblock⟩
  · refine iff_of_true ?_ ?_
    · simp only [processPutRequests, hfi, htask, runTask]
      exact hspent
    · intro task ht
      rw [htask] at ht
      cases ht
  · have hput : (s.processPutRequests key value flips).fi =
        (({ s with write := (s.write.put s.fi key value flips).1, fi := s.fi.getFreeBlock.1 } : Store).flush
          task.freeSpace s.fi.getFreeBlock.2).fi := by
      simp only [processPutRequests, hfi, htask, runTask, hblock]
    have hsound : ({ s with write := (s.write.put s.fi key value flips).1 } : Store).Sound := ⟨h.live, h.saved⟩
    rw [hput]
    by_cases hb : s.fi.getFreeBlock.2 = noBlock
    · rw [flushed_noBlock (s := { s with write := (s.write.put s.fi key value flips).1 }) _ hb]
      refine iff_of_true hspent ?_
      intro task' ht hne
      rw [htask, Option.mem_some_iff] at ht
      exact absurd (ht ▸ hblock.trans hb) hne
    · rw [flushed_spentOnData hsound hspent task.freeSpace hb]
      constructor
      · exact fun hnew _ _ _ => hnew
      · exact fun huseful => huseful task htask (hblock ▸ hb)

theorem handlerFlush_spentOnData (h : s.Sound) (hspent : s.fi.SpentOnData) :
    s.handlerFlush.fi.SpentOnData ↔ (s.fi.getFreeBlock.2 ≠ noBlock → s.NewKey) := by
  by_cases hb : s.fi.getFreeBlock.2 = noBlock
  · rw [handlerFlush, flushed_noBlock _ hb]
    exact iff_of_true hspent fun hne => absurd hb hne
  · rw [handlerFlush, flushed_spentOnData h hspent _ hb]
    exact (imp_iff_right hb).symm

/-- The tables after a restart: those saved in block 0, or the older ones if the image is refused. -/
theorem restart_fi {createTime : Bytes} (hs : s.step (.restart createTime) = some s') :
    (s.handlerFlush.fi.writeToBlock0.2.isSome ∧ s'.fi = s.handlerFlush.fi.writeToBlock0.1 ∧
        s'.image = some s'.fi.toProto) ∨
      s.handlerFlush.fi.writeToBlock0.2 = none ∧ reopen createTime s.image = some s'.fi ∧ s'.image = s.image := by
  obtain ⟨fi, hopen, rfl⟩ := Option.map_eq_some_iff.mp hs
  have himage : s.signalHandler.image = s.handlerFlush.fi.writeToBlock0.2.or s.image := rfl
  cases hw : s.handlerFlush.fi.writeToBlock0.2 with
  | none =>
    rw [himage, hw, Option.none_or] at hopen
    exact Or.inr ⟨rfl, hopen, by simp only [himage, hw, Option.none_or]⟩
  | some info =>
    have hinfo := FileInfo.writeToBlock0_image hw
    rw [himage, hw, Option.some_or, hinfo, reopen_toProto, Option.some.injEq] at hopen
    refine Or.inl ⟨rfl, hopen.symm, ?_⟩
    simp only [himage, hw, Option.some_or, hinfo, hopen]

/-- The tables in memory and those of the image have spent their blocks on data. -/
structure Spent (s : Store) : Prop where
  live : s.fi.SpentOnData
  saved : ∀ createTime fi, reopen createTime s.image = some fi → fi.SpentOnData

theorem start_spent (createTime : Bytes) : (start createTime).Spent where
  live := FileInfo.new_spentOnData createTime
  saved time fi h := by
    cases h
    exact FileInfo.new_spentOnData time

theorem step_spent (h : s.Ready) (hspent : s.Spent) {r : Request} (hr : s.Useful r) (hs : s.step r = some s') :
    s'.Spent := by
  cases r with
  | put key value flips =>
    cases hs
    refine ⟨(put_spentOnData h.sound hspent.live key value flips).mpr hr, ?_⟩
    obtain ⟨c, _, ⟨_, hput⟩ | ⟨task, _, _, hput⟩⟩ := s.processPutRequests_cases key value flips
    · rw [hput]
      exact hspent.saved
    · rw [hput]
      exact hspent.saved
  | get key =>
    cases hs
    obtain ⟨read, hget⟩ := s.processGetRequests_eq key
    rw [hget]
    exact ⟨hspent.live, hspent.saved⟩
  | del key =>
    cases hs
    rw [processDelRequests_eq]
    exact ⟨hspent.live, hspent.saved⟩
  | restart createTime =>
    rcases restart_fi hs with ⟨hsome, hfi, himage⟩ | ⟨_, hopen, himage⟩
    · have hflushed : s.handlerFlush.fi.SpentOnData :=
        (handlerFlush_spentOnData h.sound hspent.live).mpr fun hb => hr hb hsome
      have hlive : s'.fi.SpentOnData := hfi ▸ hflushed.congr rfl rfl
      refine ⟨hlive, ?_⟩
      intro time fi hopen
      rw [himage, reopen_toProto, Option.some.injEq] at hopen
      exact hopen ▸ hlive
    · refine ⟨hspent.saved createTime _ hopen, ?_⟩
      rw [himage]
      exact hspent.saved

theorem useful_of_spentOnData (h : s.Ready) (hspent : s.fi.SpentOnData) {r : Request} (hs : s.step r = some s')
    (hafter : s'.fi.SpentOnData) : s.Useful r := by
  cases r with
  | put key value flips =>
    cases hs
    exact (put_spentOnData h.sound hspent key value flips).mp hafter
  | get key => trivial
  | del key => trivial
  | restart createTime =>
    intro hb hsome
    rcases restart_fi hs with ⟨_, hfi, _⟩ | ⟨hnone, _⟩
    · rw [hfi] at hafter
      exact (handlerFlush_spentOnData h.sound hspent).mp (hafter.congr rfl rfl) hb
    · rw [hnone] at hsome
      cases hsome

theorem decides_spentOnData :
    Decides step Useful Ready (fun s => s.Ready ∧ s.Spent) (fun s => s.fi.SpentOnData) where
  sure _ r _ h hs := step_ready h r hs
  keeps _ r _ h hr hs := ⟨step_ready h.1 r hs, step_spent h.1 h.2 hr hs⟩
  good _ h := h.2.live
  needs _ _ _ h hspent hs hafter := useful_of_spentOnData h hspent hs hafter

/-- In every run of requests and clean restarts the used data blocks are those of keys, throughout the run,
exactly if every flush that gets a block has a key for it that was mapped nowhere. -/
theorem spent_on_data_iff (createTime : Bytes) (rs : List Request) :
    (∀ qs, qs <+: rs → (exec step (start createTime) qs).fi.SpentOnData) ↔
      Along step Useful (start createTime) rs :=
  decides_spentOnData.throughout_iff (start_ready createTime) ⟨start_ready createTime, start_spent createTime⟩ rs

/-- Restarts with nothing to save. -/
def emptyRestarts : List Request := List.replicate 15 (.restart [])

/-- A restart without a single request spends a block, and fifteen of them spend all. -/
theorem empty_restarts_exhaust :
    ¬(exec step (start []) [.restart []]).fi.SpentOnData ∧
      (exec step (start []) emptyRestarts).fi.keyBlockMap.entries = [] ∧
        (exec step (start []) emptyRestarts).fi.getFreeBlock.2 = noBlock := by
  refine ⟨?_, by decide +kernel, by decide +kernel⟩
  intro h
  obtain ⟨k, hk⟩ := h 1 (by decide) (by decide +kernel)
  have hentries : (exec step (start []) [.restart []]).fi.keyBlockMap.entries = [] := by decide +kernel
  rw [SortedMap.lookup_eq_some_iff, hentries] at hk
  cases hk

end Store

end KVStorage

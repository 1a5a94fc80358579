import KVStorage.FlushAccount

/-!
# The blocks of the flushes

A data block belongs to the flush that asked for it: no key is mapped to it before that
flush has begun. This does not depend on the write lock, and it holds of the image in
block 0 as well.
-/

namespace KVStorage

set_option autoImplicit false

/-- A flush of the block has returned, or has begun and is on its way. -/
def Flushed (returned : SizeT → Prop) (fs : List Flush) (b : SizeT) : Prop :=
  returned b ∨ ∃ f ∈ fs, f.phase.enters = false ∧ f.task.freeBlock = b

structure Allotted (fi : FileInfo) (flushed : SizeT → Prop) : Prop where
  block0 : fi.Used 0
  mapped : ∀ k b, fi.keyBlockMap.lookup k = some b → b ≠ 0 ∧ fi.Used b ∧ flushed b

/-- A flush got no block and will end at its start, or it has a used data block. -/
def Flush.HasBlock (fi : FileInfo) (f : Flush) : Prop :=
  f.task.freeBlock = noBlock ∧ f.phase.enters = true ∨ f.task.freeBlock ≠ 0 ∧ fi.Used f.task.freeBlock

namespace Store

/-- The tables in memory, the image and the flushes on their way agree on the blocks. -/
structure Allots (s : Store) (returned : SizeT → Prop) (fs : List Flush) : Prop where
  live : Allotted s.fi (Flushed returned fs)
  saved : ∀ info, s.image = some info → ∃ fi, info = fi.toProto ∧ Allotted fi (Flushed returned fs)
  blocks : ∀ f ∈ fs, f.HasBlock s.fi
  apart : fs.Pairwise fun f g => f.task.freeBlock ≠ noBlock → f.task.freeBlock ≠ g.task.freeBlock
  enters : ∀ f ∈ fs, f.phase.enters = true → Unmapped s.fi f.task.freeBlock
  written : ∀ f ∈ fs, f.phase.clears = true → (s.disk f.task.freeBlock).isSome

end Store

variable {fi fi' : FileInfo} {R R' P P' : SizeT → Prop} {fs fs' : List Flush} {f : Flush} {b : SizeT}

theorem Flushed.mono (h : Flushed R fs b) (hR : ∀ b, R b → R' b) : Flushed R' fs b := h.imp_left (hR b)

theorem Flushed.cons (h : Flushed R fs b) (f : Flush) : Flushed R (f :: fs) b :=
  h.imp_right fun ⟨g, hg, hb⟩ => ⟨g, List.mem_cons_of_mem f hg, hb⟩

theorem Allotted.mono (h : Allotted fi P) (hP : ∀ b, P b → P' b) : Allotted fi P' where
  block0 := h.block0
  mapped := by
    intro k b hk
    obtain ⟨h0, hu, hf⟩ := h.mapped k b hk
    exact ⟨h0, hu, hP b hf⟩

theorem Allotted.congr (h : Allotted fi P) (hu : fi'.blockUsageTable = fi.blockUsageTable)
    (hm : fi'.keyBlockMap = fi.keyBlockMap) : Allotted fi' P where
  block0 := (FileInfo.used_congr hu).mpr h.block0
  mapped := by
    intro k b hk
    rw [hm] at hk
    obtain ⟨h0, hused, hf⟩ := h.mapped k b hk
    exact ⟨h0, (FileInfo.used_congr hu).mpr hused, hf⟩

theorem used_ne_noBlock (h : fi.Used b) : b ≠ noBlock := by
  rintro rfl
  obtain ⟨hlt, _⟩ := h
  exact absurd hlt (by decide)

theorem Allotted.unmapped_noBlock (h : Allotted fi P) : Unmapped fi noBlock := by
  intro k hk
  exact used_ne_noBlock (h.mapped k noBlock hk).2.1 rfl

theorem Allotted.getFreeBlock (h : Allotted fi P) : Allotted fi.getFreeBlock.1 P where
  block0 := fi.getFreeBlock_used h.block0
  mapped := by
    intro k b hk
    rw [FileInfo.getFreeBlock_map] at hk
    obtain ⟨h0, hused, hf⟩ := h.mapped k b hk
    exact ⟨h0, fi.getFreeBlock_used hused, hf⟩

theorem Allotted.addKeyBlockMapping (h : Allotted fi P) {key : Int32} (h0 : b ≠ 0) (hu : fi.Used b)
    (hP : P b) : Allotted (fi.addKeyBlockMapping key b) P := by
  have hused : ∀ c, (fi.addKeyBlockMapping key b).Used c ↔ fi.Used c :=
    fun c => FileInfo.used_congr (FileInfo.addKeyBlockMapping_usage fi key b)
  constructor
  · exact (hused 0).mpr h.block0
  · intro k c hk
    rcases Store.addKeyBlockMapping_cases hk with hold | ⟨_, rfl, _⟩
    · obtain ⟨hc0, hcu, hcP⟩ := h.mapped k c hold
      exact ⟨hc0, (hused c).mpr hcu, hcP⟩
    · exact ⟨h0, (hused c).mpr hu, hP⟩

theorem new_allotted (createTime : Bytes) (P : SizeT → Prop) : Allotted (FileInfo.new createTime) P where
  block0 := ⟨by decide, rfl⟩
  mapped := by
    intro k b hk
    simp [FileInfo.new] at hk

theorem Flush.HasBlock.mono (h : f.HasBlock fi) (hu : ∀ b, fi.Used b → fi'.Used b) : f.HasBlock fi' :=
  h.imp_right fun ⟨h0, hused⟩ => ⟨h0, hu _ hused⟩

namespace Store

variable {s s' : Store} {t : FlushTask} {p : FlushPhase}

theorem start_allots (createTime : Bytes) (R : SizeT → Prop) : (start createTime).Allots R [] where
  live := new_allotted createTime _
  saved _ h := nomatch h
  blocks _ h := nomatch h
  apart := List.Pairwise.nil
  enters _ h := nomatch h
  written _ h := nomatch h

theorem Allots.mono (h : s.Allots R fs) (hR : ∀ b, R b → R' b) : s.Allots R' fs where
  live := h.live.mono fun _ hb => hb.mono hR
  saved := by
    intro info hinfo
    obtain ⟨fi, hfi, hold⟩ := h.saved info hinfo
    exact ⟨fi, hfi, hold.mono fun _ hb => hb.mono hR⟩
  blocks := h.blocks
  apart := h.apart
  enters := h.enters
  written := h.written

theorem Allots.perm (h : s.Allots R fs) (hp : fs.Perm fs') : s.Allots R fs' := by
  have hflushed : ∀ b, Flushed R fs b → Flushed R fs' b :=
    fun b hb => hb.imp_right fun ⟨f, hf, hbf⟩ => ⟨f, hp.mem_iff.mp hf, hbf⟩
  refine ⟨h.live.mono hflushed, ?_, ?_, ?_, ?_, ?_⟩
  · intro info hinfo
    obtain ⟨fi, hfi, hold⟩ := h.saved info hinfo
    exact ⟨fi, hfi, hold.mono hflushed⟩
  · exact fun f hf => h.blocks f (hp.mem_iff.mpr hf)
  · apply hp.pairwise h.apart
    intro f g hne hg he
    exact hne (he ▸ hg) he.symm
  · exact fun f hf => h.enters f (hp.mem_iff.mpr hf)
  · exact fun f hf => h.written f (hp.mem_iff.mpr hf)

theorem Allots.congr (h : s.Allots R fs) (hu : s'.fi.blockUsageTable = s.fi.blockUsageTable)
    (hm : s'.fi.keyBlockMap = s.fi.keyBlockMap) (hd : s'.disk = s.disk) (hi : s'.image = s.image) :
    s'.Allots R fs where
  live := h.live.congr hu hm
  saved := hi ▸ h.saved
  blocks := fun f hf => (h.blocks f hf).mono fun b => (FileInfo.used_congr hu).mpr
  apart := h.apart
  enters := by
    intro f hf he k
    rw [hm]
    exact h.enters f hf he k
  written := hd ▸ h.written

theorem Allots.alloc (h : s.Allots R fs) (freeSpace : SizeT) :
    ({ s with fi := s.fi.getFreeBlock.1 } : Store).Allots R
      (⟨⟨freeSpace, s.fi.getFreeBlock.2⟩, .enter⟩ :: fs) := by
  have hunmapped : Unmapped s.fi s.fi.getFreeBlock.2 := by
    by_cases hb : s.fi.getFreeBlock.2 = noBlock
    · rw [hb]
      exact h.live.unmapped_noBlock
    · intro k hk
      exact (FileInfo.getFreeBlock_spec hb).2.1 (h.live.mapped k _ hk).2.1
  refine ⟨h.live.getFreeBlock.mono fun b hb => hb.cons _, ?_, ?_, ?_, ?_, ?_⟩
  · intro info hinfo
    obtain ⟨fi, hfi, hold⟩ := h.saved info hinfo
    exact ⟨fi, hfi, hold.mono fun b hb => hb.cons _⟩
  · intro f hf
    rcases List.mem_cons.mp hf with rfl | hf
    · by_cases hb : s.fi.getFreeBlock.2 = noBlock
      · exact Or.inl ⟨hb, rfl⟩
      · obtain ⟨_, hfree, hused⟩ := FileInfo.getFreeBlock_spec hb
        have hzero : s.fi.getFreeBlock.2 ≠ 0 := fun h0 => hfree (h0 ▸ h.live.block0)
        exact Or.inr ⟨hzero, (hused _).mpr (Or.inl rfl)⟩
    · exact (h.blocks f hf).mono fun b hb => s.fi.getFreeBlock_used hb
  · refine List.pairwise_cons.mpr ⟨?_, h.apart⟩
    intro f hf hb he
    rcases h.blocks f hf with ⟨hno, _⟩ | ⟨_, hused⟩
    · exact hb (he.trans hno)
    · have he : s.fi.getFreeBlock.2 = f.task.freeBlock := he
      exact (FileInfo.getFreeBlock_spec hb).2.1 (he ▸ hused)
  · intro f hf henter k
    rw [FileInfo.getFreeBlock_map]
    rcases List.mem_cons.mp hf with rfl | hf
    · exact hunmapped k
    · exact h.enters f hf henter k
  · intro f hf hclear
    rcases List.mem_cons.mp hf with rfl | hf
    · cases hclear
    · exact h.written f hf hclear

theorem Allots.goOn (h : s.Allots R (⟨t, p⟩ :: fs)) {q : FlushPhase} (ht : t.freeBlock ≠ noBlock)
    (hq : q.enters = false) (hwritten : q.clears = true → (s.disk t.freeBlock).isSome) :
    s.Allots R (⟨t, q⟩ :: fs) := by
  have hflushed : ∀ b, Flushed R (⟨t, p⟩ :: fs) b → Flushed R (⟨t, q⟩ :: fs) b := by
    rintro b (hb | ⟨f, hf, hbf⟩)
    · exact Or.inl hb
    · rcases List.mem_cons.mp hf with rfl | hf
      · exact Or.inr ⟨_, List.mem_cons_self, hq, hbf.2⟩
      · exact Or.inr ⟨f, List.mem_cons_of_mem _ hf, hbf⟩
  refine ⟨h.live.mono hflushed, ?_, ?_, List.pairwise_cons.mpr (List.pairwise_cons.mp h.apart), ?_, ?_⟩
  · intro info hinfo
    obtain ⟨fi, hfi, hold⟩ := h.saved info hinfo
    exact ⟨fi, hfi, hold.mono hflushed⟩
  · intro f hf
    rcases List.mem_cons.mp hf with rfl | hf
    · exact Or.inr ((h.blocks _ List.mem_cons_self).resolve_left fun hno => ht hno.1)
    · exact h.blocks f (List.mem_cons_of_mem _ hf)
  · intro f hf henter
    rcases List.mem_cons.mp hf with rfl | hf
    · exact absurd (hq.symm.trans henter) Bool.false_ne_true
    · exact h.enters f (List.mem_cons_of_mem _ hf) henter
  · intro f hf hclear
    rcases List.mem_cons.mp hf with rfl | hf
    · exact hwritten hclear
    · exact h.written f (List.mem_cons_of_mem _ hf) hclear

/-- The loop maps a key: only the block of this flush gets one more. -/
theorem Allots.mapOne {key? : Option Int32} (h : s.Allots R (⟨t, .mapping key?⟩ :: fs)) (key : Int32) :
    ({ s with fi := s.fi.addKeyBlockMapping key t.freeBlock } : Store).Allots R
      (⟨t, .mapping key?⟩ :: fs) := by
  have hused : ∀ b, s.fi.Used b → (s.fi.addKeyBlockMapping key t.freeBlock).Used b :=
    fun b hb => (FileInfo.used_congr (FileInfo.addKeyBlockMapping_usage _ _ _)).mpr hb
  obtain ⟨h0, hu⟩ := (h.blocks _ List.mem_cons_self).resolve_left fun hno => Bool.false_ne_true hno.2
  have hown : Flushed R (⟨t, .mapping key?⟩ :: fs) t.freeBlock :=
    Or.inr ⟨_, List.mem_cons_self, rfl, rfl⟩
  refine ⟨h.live.addKeyBlockMapping h0 hu hown, h.saved, ?_, h.apart, ?_, h.written⟩
  · exact fun f hf => (h.blocks f hf).mono hused
  · intro f hf henter k hk
    rcases addKeyBlockMapping_cases hk with hold | ⟨_, hb, _⟩
    · exact h.enters f hf henter k hold
    · rcases List.mem_cons.mp hf with rfl | hf
      · cases henter
      · exact (List.pairwise_cons.mp h.apart).1 f hf (used_ne_noBlock hu) hb.symm

theorem Allots.serialize (h : s.Allots R (⟨t, .serialize⟩ :: fs)) :
    (s.flushPart t .serialize).1.Allots R (⟨t, .clear⟩ :: fs) := by
  obtain ⟨_, hu⟩ := (h.blocks _ List.mem_cons_self).resolve_left fun hno => Bool.false_ne_true hno.2
  have hdisk : ({ s with disk := Function.update s.disk t.freeBlock (some s.write.RWcache.stored) } : Store).Allots R
      (⟨t, .serialize⟩ :: fs) := by
    refine ⟨h.live, h.saved, h.blocks, h.apart, h.enters, ?_⟩
    intro f hf hclear
    by_cases hb : f.task.freeBlock = t.freeBlock
    · simp [hb]
    · simpa [hb] using h.written f hf hclear
  have hclear := hdisk.goOn (q := .clear) (used_ne_noBlock hu) rfl (by simp)
  exact hclear.congr (FileInfo.updateBlockInfo_usage _ _ _) (FileInfo.updateBlockInfo_map _ _ _) rfl rfl

theorem Allots.finish (h : s.Allots R (f :: fs)) (hR : ∀ b, R b → R' b)
    (hf : f.phase.enters = false → R' f.task.freeBlock) : s.Allots R' fs := by
  have hflushed : ∀ b, Flushed R (f :: fs) b → Flushed R' fs b := by
    rintro b (hb | ⟨g, hg, henter, rfl⟩)
    · exact Or.inl (hR b hb)
    · rcases List.mem_cons.mp hg with rfl | hg
      · exact Or.inl (hf henter)
      · exact Or.inr ⟨g, hg, henter, rfl⟩
  refine ⟨h.live.mono hflushed, ?_, ?_, (List.pairwise_cons.mp h.apart).2, ?_, ?_⟩
  · intro info hinfo
    obtain ⟨fi, hfi, hold⟩ := h.saved info hinfo
    exact ⟨fi, hfi, hold.mono hflushed⟩
  · exact fun g hg => h.blocks g (List.mem_cons_of_mem _ hg)
  · exact fun g hg => h.enters g (List.mem_cons_of_mem _ hg)
  · exact fun g hg => h.written g (List.mem_cons_of_mem _ hg)

theorem Allots.flushPart (h : s.Allots R (⟨t, p⟩ :: fs)) (hR : ∀ b, R b → R' b)
    (hreturn : p.clears = true → R' t.freeBlock) :
    (s.flushPart t p).1.Allots R' (rest t (s.flushPart t p).2 ++ fs) := by
  cases p with
  | enter =>
    simp only [Store.flushPart]
    split
    · exact h.finish hR fun he => by cases he
    · rename_i hb
      exact (h.goOn hb rfl fun hc => by cases hc).mono hR
  | mapping key? =>
    obtain ⟨_, hu⟩ := (h.blocks _ List.mem_cons_self).resolve_left fun hno => Bool.false_ne_true hno.2
    cases hnext : s.write.RWcache.nextKey key? with
    | none =>
      rw [flushPart_last hnext]
      exact (h.goOn (used_ne_noBlock hu) rfl fun hc => by cases hc).mono hR
    | some key =>
      rw [flushPart_next hnext]
      exact ((h.mapOne key).goOn (used_ne_noBlock hu) rfl fun hc => by cases hc).mono hR
  | serialize => exact h.serialize.mono hR
  | clear => exact (h.finish hR fun _ => hreturn rfl).congr rfl rfl rfl rfl

theorem Allots.writeToBlock0 (h : s.Allots R fs) : s.writeToBlock0.Allots R fs := by
  have hlive : Allotted s.writeToBlock0.fi (Flushed R fs) :=
    h.live.congr (FileInfo.writeToBlock0_usage s.fi) (FileInfo.writeToBlock0_map s.fi)
  refine ⟨hlive, ?_, h.blocks, h.apart, h.enters, h.written⟩
  intro info hinfo
  have hsaved : s.fi.writeToBlock0.2.or s.image = some info := hinfo
  cases hw : s.fi.writeToBlock0.2 with
  | none =>
    rw [hw, Option.none_or] at hsaved
    exact h.saved info hsaved
  | some written =>
    rw [hw, Option.some_or, Option.some.injEq] at hsaved
    refine ⟨s.writeToBlock0.fi, ?_, hlive⟩
    rw [← hsaved]
    exact FileInfo.writeToBlock0_image hw

theorem Allots.reload (h : s.Allots R fs) {createTime : Bytes} (hs : s.reload createTime = some s')
    (hR : ∀ b, Flushed R fs b → R' b) : s'.Allots R' [] := by
  have hflushed : ∀ b, Flushed R fs b → Flushed R' [] b := fun b hb => Or.inl (hR b hb)
  have hsaved : ∀ info, s.image = some info →
      ∃ fi, info = fi.toProto ∧ Allotted fi (Flushed R' []) := by
    intro info hinfo
    obtain ⟨fi, hfi, hold⟩ := h.saved info hinfo
    exact ⟨fi, hfi, hold.mono hflushed⟩
  obtain ⟨fi, hopen, rfl⟩ := Option.map_eq_some_iff.mp hs
  refine ⟨?_, hsaved, nofun, List.Pairwise.nil, nofun, nofun⟩
  cases himage : s.image with
  | none =>
    rw [himage] at hopen
    cases hopen
    exact new_allotted createTime _
  | some info =>
    obtain ⟨old, rfl, hold⟩ := hsaved info himage
    rw [himage, reopen_toProto, Option.some.injEq] at hopen
    exact hopen ▸ hold

end Store

end KVStorage

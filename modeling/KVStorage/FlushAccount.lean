import KVStorage.FlushParts

/-!
# Several flushes at once

The flush of an IO worker and that of the signal handler can be on their way at the
same time. Every mapped key is in its block, or in the write cache while a flush has
still to write the block.
-/

namespace KVStorage

set_option autoImplicit false

namespace FlushPhase

/-- The block is written; only the clearing of the list is left. -/
def clears : FlushPhase → Bool
  | .clear => true
  | _ => false

def enters : FlushPhase → Bool
  | .enter => true
  | _ => false

/-- The mapping loop is past the head, on a node that can be deleted. -/
def walks : FlushPhase → Bool
  | .mapping (some _) => true
  | _ => false

end FlushPhase

theorem unmapped_iff {fi : FileInfo} {b : SizeT} :
    (∀ e ∈ fi.keyBlockMap.entries, e.2 ≠ b) ↔ Unmapped fi b := by
  constructor
  · intro h k hk
    exact h (k, b) ((fi.keyBlockMap.lookup_eq_some_iff k b).mp hk) rfl
  · rintro h ⟨k, c⟩ he rfl
    exact h k ((fi.keyBlockMap.lookup_eq_some_iff k c).mpr he)

instance (fi : FileInfo) (b : SizeT) : Decidable (Unmapped fi b) :=
  @decidable_of_iff _ _ unmapped_iff (List.decidableBAll _ fi.keyBlockMap.entries)

namespace Store

def HasKey (s : Store) (b : SizeT) (k : Int32) : Prop := ∃ m, s.disk b = some m ∧ k ∈ m.keys

/-- The node that a mapping loop stands on is in the list. -/
def OnNode (s : Store) : FlushPhase → Prop
  | .mapping (some k) => s.Cached k
  | _ => True

/-- The flush has a block of its own, its loop has not lost its node, and the keys it has
mapped are still in the cache when it comes to write them. -/
structure Fills (s : Store) (f : Flush) : Prop where
  ne_noBlock : f.task.freeBlock ≠ noBlock
  ne_zero : f.task.freeBlock ≠ 0
  used : s.fi.Used f.task.freeBlock
  onNode : s.OnNode f.phase
  cached : f.phase.clears = false → ∀ k, s.fi.keyBlockMap.lookup k = some f.task.freeBlock → s.Cached k

/-- The list may be emptied under the flush: its loop is on no node of it, and it has written
its block or mapped nothing to it. -/
def Settled (s : Store) (f : Flush) : Prop :=
  f.phase.walks = false ∧ (f.phase.clears = false → Unmapped s.fi f.task.freeBlock)

instance (s : Store) (f : Flush) : Decidable (s.Settled f) :=
  inferInstanceAs (Decidable (f.phase.walks = false ∧ (f.phase.clears = false → Unmapped s.fi f.task.freeBlock)))

/-- The flushes on their way account for every mapped key that is not in its block. -/
structure Account (s : Store) (fs : List Flush) : Prop where
  block0 : s.fi.Used 0
  covers : ∀ f ∈ fs, s.Covers f.phase
  fills : ∀ f ∈ fs, s.Fills f
  apart : fs.Pairwise fun f g => f.task.freeBlock ≠ g.task.freeBlock
  mapped : ∀ k b, s.fi.keyBlockMap.lookup k = some b → b ≠ 0 ∧ s.fi.Used b ∧
    (s.HasKey b k ∨ ∃ f ∈ fs, f.phase.clears = false ∧ f.task.freeBlock = b)

variable {s s' : Store} {fs : List Flush} {f g : Flush} {t : FlushTask} {p q : FlushPhase} {k : Int32}
  {b : SizeT}

theorem OnNode.mono (h : s.OnNode p) (hc : ∀ k, s.Cached k → s'.Cached k) : s'.OnNode p := by
  match p, h with
  | .mapping (some k), h => exact hc k h
  | .mapping none, _ | .enter, _ | .serialize, _ | .clear, _ => trivial

theorem onNode_of_walks (h : p.walks = false) : s.OnNode p := by
  match p with
  | .mapping (some k) => cases h
  | .mapping none | .enter | .serialize | .clear => trivial

theorem Account.perm {fs' : List Flush} (h : s.Account fs) (hp : fs.Perm fs') : s.Account fs' where
  block0 := h.block0
  covers := fun f hf => h.covers f (hp.mem_iff.mpr hf)
  fills := fun f hf => h.fills f (hp.mem_iff.mpr hf)
  apart := hp.pairwise h.apart fun hne => hne.symm
  mapped := by
    intro k b hk
    obtain ⟨h0, hused, hkey | ⟨f, hf, hopen⟩⟩ := h.mapped k b hk
    · exact ⟨h0, hused, Or.inl hkey⟩
    · exact ⟨h0, hused, Or.inr ⟨f, hp.mem_iff.mp hf, hopen⟩⟩

theorem Sound.account (h : s.Sound) : s.Account [] where
  block0 := h.live.block0
  covers := by simp
  fills := by simp
  apart := List.Pairwise.nil
  mapped := by
    intro k b hk
    obtain ⟨h0, hused, hkey⟩ := h.live.mapped k b hk
    exact ⟨h0, hused, Or.inl hkey⟩

theorem Account.congr (h : s.Account fs) (hw : s'.write = s.write)
    (hu : s'.fi.blockUsageTable = s.fi.blockUsageTable)
    (hm : s'.fi.keyBlockMap = s.fi.keyBlockMap) (hd : s'.disk = s.disk) : s'.Account fs where
  block0 := (FileInfo.used_congr hu).mpr h.block0
  covers := by
    intro f hf
    have hretains : Retains s s' :=
      ⟨fun k hk => by rwa [Mapped, hm], fun k hk => Or.inl (by rwa [Cached, hw])⟩
    exact hretains.covers (fun k hk => Or.inl (by rwa [Cached, ← hw])) (h.covers f hf)
  fills := by
    intro f hf
    obtain ⟨hne, h0, hused, hstands, hcached⟩ := h.fills f hf
    refine ⟨hne, h0, (FileInfo.used_congr hu).mpr hused, hstands.mono fun k hk => by rwa [Cached, hw], ?_⟩
    intro hp k hk
    rw [hm] at hk
    rw [Cached, hw]
    exact hcached hp k hk
  apart := h.apart
  mapped := by
    intro k b hk
    rw [hm] at hk
    obtain ⟨h0, hused, hkey⟩ := h.mapped k b hk
    refine ⟨h0, (FileInfo.used_congr hu).mpr hused, ?_⟩
    rwa [HasKey, hd]

theorem Account.put (h : s.Account fs) {c : Cache} {key : Int32} {value : Bytes}
    (hc : c.RWcache.contents = s.write.RWcache.contents.add key value)
    (hknown : (∀ f ∈ fs, f.phase.enters = true) ∨ s.Cached key ∨ s.Mapped key) :
    ({ s with write := c } : Store).Account fs where
  block0 := h.block0
  covers := by
    intro f hf
    have hretains : Retains s { s with write := c } := by
      refine ⟨fun k hk => hk, fun k hk => Or.inl ?_⟩
      simp only [Cached, hc, Contents.add, SortedMap.mem_keys_insert]
      exact Or.inr hk
    rcases hknown with henter | hknown
    · have he := henter f hf
      cases hp : f.phase with
      | enter => trivial
      | mapping p => simp [hp, FlushPhase.enters] at he
      | serialize => simp [hp, FlushPhase.enters] at he
      | clear => simp [hp, FlushPhase.enters] at he
    · apply hretains.covers _ (h.covers f hf)
      intro k hk
      simp only [Cached, hc, Contents.add, SortedMap.mem_keys_insert] at hk
      rcases hk with rfl | hk
      · exact hknown
      · exact Or.inl hk
  fills := by
    intro f hf
    obtain ⟨hne, h0, hused, hstands, hcached⟩ := h.fills f hf
    have hkeeps : ∀ k, s.Cached k → ({ s with write := c } : Store).Cached k := by
      intro k hk
      simp only [Cached, hc, Contents.add, SortedMap.mem_keys_insert]
      exact Or.inr hk
    exact ⟨hne, h0, hused, hstands.mono hkeeps, fun hp k hk => hkeeps k (hcached hp k hk)⟩
  apart := h.apart
  mapped := h.mapped

theorem Account.alloc (h : s.Account fs) (hb : s.fi.getFreeBlock.2 ≠ noBlock) (freeSpace : SizeT) :
    ({ s with fi := s.fi.getFreeBlock.1 } : Store).Account
      (⟨⟨freeSpace, s.fi.getFreeBlock.2⟩, .enter⟩ :: fs) := by
  obtain ⟨_, hfree, hused⟩ := FileInfo.getFreeBlock_spec hb
  have hmap := FileInfo.getFreeBlock_map s.fi
  refine ⟨s.fi.getFreeBlock_used h.block0, ?_, ?_, ?_, ?_⟩
  · intro f hf
    rcases List.mem_cons.mp hf with rfl | hf
    · trivial
    · have hretains : Retains s { s with fi := s.fi.getFreeBlock.1 } :=
        ⟨fun k hk => by rwa [Mapped, hmap], fun k hk => Or.inl hk⟩
      exact hretains.covers (fun k hk => Or.inl hk) (h.covers f hf)
  · intro f hf
    rcases List.mem_cons.mp hf with rfl | hf
    · have hzero : s.fi.getFreeBlock.2 ≠ 0 := fun h0 => hfree (h0 ▸ h.block0)
      refine ⟨hb, hzero, (hused _).mpr (Or.inl rfl), trivial, ?_⟩
      intro _ k hk
      rw [hmap] at hk
      exact absurd (h.mapped k _ hk).2.1 hfree
    · obtain ⟨hne, h0, hu, hstands, hcached⟩ := h.fills f hf
      refine ⟨hne, h0, s.fi.getFreeBlock_used hu, hstands.mono fun k hk => hk, ?_⟩
      intro hp k hk
      rw [hmap] at hk
      exact hcached hp k hk
  · refine List.pairwise_cons.mpr ⟨?_, h.apart⟩
    intro f hf he
    have he : s.fi.getFreeBlock.2 = f.task.freeBlock := he
    exact hfree (he ▸ (h.fills f hf).used)
  · intro k b hk
    rw [hmap] at hk
    obtain ⟨h0, hu, hkey⟩ := h.mapped k b hk
    refine ⟨h0, s.fi.getFreeBlock_used hu, hkey.imp_right ?_⟩
    rintro ⟨f, hf, hopen⟩
    exact ⟨f, List.mem_cons_of_mem _ hf, hopen⟩

/-! ## A part of a flush -/

theorem addKeyBlockMapping_cases {fi : FileInfo} {key : Int32} {b c : SizeT}
    (h : (fi.addKeyBlockMapping key b).keyBlockMap.lookup k = some c) :
    fi.keyBlockMap.lookup k = some c ∨ k = key ∧ c = b ∧ fi.keyBlockMap.lookup k = none := by
  rw [FileInfo.addKeyBlockMapping_lookup] at h
  cases hold : fi.keyBlockMap.lookup k with
  | some d =>
    rw [hold, Option.some_or] at h
    exact Or.inl h
  | none =>
    rw [hold, Option.none_or] at h
    split at h
    · rename_i hk
      exact Or.inr ⟨hk, (Option.some.inj h).symm, rfl⟩
    · cases h

theorem Account.mapOne {key : Int32} {key? : Option Int32} (hnext : s.write.RWcache.nextKey key? = some key)
    (h : s.Account (⟨t, .mapping key?⟩ :: fs)) :
    ({ s with fi := s.fi.addKeyBlockMapping key t.freeBlock } : Store).Account
      (⟨t, .mapping (some key)⟩ :: fs) := by
  have hpart := flushPart_next (t := t) hnext
  have hfills := h.fills _ List.mem_cons_self
  have hcovers := h.covers _ List.mem_cons_self
  have hused : ∀ b, s.fi.Used b → (s.fi.addKeyBlockMapping key t.freeBlock).Used b :=
    fun b hb => (FileInfo.used_congr (FileInfo.addKeyBlockMapping_usage _ _ _)).mpr hb
  refine ⟨hused 0 h.block0, ?_, ?_, ?_, ?_⟩
  · intro f hf
    rcases List.mem_cons.mp hf with rfl | hf
    · have hnow := flushPart_covers (t := t) hcovers (congrArg Prod.snd hpart)
      rwa [hpart] at hnow
    · have hretains := flushPart_retains (t := t) hcovers
      rw [hpart] at hretains
      exact hretains.covers (fun k hk => Or.inl hk) (h.covers f (List.mem_cons_of_mem _ hf))
  · intro f hf
    rcases List.mem_cons.mp hf with rfl | hf
    · refine ⟨hfills.ne_noBlock, hfills.ne_zero, hused _ hfills.used, ValidList.nextKey_mem hnext, ?_⟩
      intro _ k hk
      rcases addKeyBlockMapping_cases hk with hold | ⟨rfl, _, _⟩
      · exact hfills.cached rfl k hold
      · exact ValidList.nextKey_mem hnext
    · have hother := h.fills f (List.mem_cons_of_mem _ hf)
      refine ⟨hother.ne_noBlock, hother.ne_zero, hused _ hother.used, hother.onNode.mono fun k hk => hk, ?_⟩
      intro hp k hk
      rcases addKeyBlockMapping_cases hk with hold | ⟨_, hb, _⟩
      · exact hother.cached hp k hold
      · exact absurd hb.symm ((List.pairwise_cons.mp h.apart).1 f hf)
  · exact List.pairwise_cons.mpr (List.pairwise_cons.mp h.apart)
  · intro k b hk
    rcases addKeyBlockMapping_cases hk with hold | ⟨_, rfl, _⟩
    · obtain ⟨h0, hu, hkey⟩ := h.mapped k b hold
      refine ⟨h0, hused b hu, hkey.imp_right ?_⟩
      rintro ⟨f, hf, hopen⟩
      rcases List.mem_cons.mp hf with rfl | hf
      · exact ⟨_, List.mem_cons_self, hopen⟩
      · exact ⟨f, List.mem_cons_of_mem _ hf, hopen⟩
    · exact ⟨hfills.ne_zero, hused _ hfills.used, Or.inr ⟨_, List.mem_cons_self, rfl, rfl⟩⟩

theorem Account.goOn (h : s.Account (⟨t, p⟩ :: fs)) (hq : s.Covers q) (hp : p.clears = false)
    (hclears : q.clears = false) (hwalks : q.walks = false) : s.Account (⟨t, q⟩ :: fs) where
  block0 := h.block0
  covers := by
    intro f hf
    rcases List.mem_cons.mp hf with rfl | hf
    · exact hq
    · exact h.covers f (List.mem_cons_of_mem _ hf)
  fills := by
    intro f hf
    rcases List.mem_cons.mp hf with rfl | hf
    · obtain ⟨hne, h0, hused, _, hcached⟩ := h.fills _ List.mem_cons_self
      exact ⟨hne, h0, hused, onNode_of_walks hwalks, fun _ => hcached hp⟩
    · exact h.fills f (List.mem_cons_of_mem _ hf)
  apart := List.pairwise_cons.mpr (List.pairwise_cons.mp h.apart)
  mapped := by
    intro k b hk
    obtain ⟨h0, hu, hkey⟩ := h.mapped k b hk
    refine ⟨h0, hu, hkey.imp_right ?_⟩
    rintro ⟨f, hf, hopen⟩
    rcases List.mem_cons.mp hf with rfl | hf
    · exact ⟨_, List.mem_cons_self, hclears, hopen.2⟩
    · exact ⟨f, List.mem_cons_of_mem _ hf, hopen⟩

theorem Account.serialize (h : s.Account (⟨t, .serialize⟩ :: fs)) :
    (s.flushPart t .serialize).1.Account (⟨t, .clear⟩ :: fs) := by
  have hfills := h.fills _ List.mem_cons_self
  have hcovers := h.covers _ List.mem_cons_self
  have hmap : (s.flushPart t .serialize).1.fi.keyBlockMap = s.fi.keyBlockMap :=
    FileInfo.updateBlockInfo_map _ _ _
  have hused : ∀ b, s.fi.Used b → (s.flushPart t .serialize).1.fi.Used b :=
    fun b hb => (FileInfo.used_congr (FileInfo.updateBlockInfo_usage _ _ _)).mpr hb
  refine ⟨hused 0 h.block0, ?_, ?_, ?_, ?_⟩
  · intro f hf
    rcases List.mem_cons.mp hf with rfl | hf
    · exact flushPart_covers hcovers rfl
    · exact (flushPart_retains hcovers).covers (fun k hk => Or.inl hk)
        (h.covers f (List.mem_cons_of_mem _ hf))
  · intro f hf
    rcases List.mem_cons.mp hf with rfl | hf
    · exact ⟨hfills.ne_noBlock, hfills.ne_zero, hused _ hfills.used, trivial, fun hp => by cases hp⟩
    · obtain ⟨hne, h0, hu, hstands, hcached⟩ := h.fills f (List.mem_cons_of_mem _ hf)
      refine ⟨hne, h0, hused _ hu, hstands.mono fun k hk => hk, ?_⟩
      rw [hmap]
      exact hcached
  · exact List.pairwise_cons.mpr (List.pairwise_cons.mp h.apart)
  · intro k b hk
    rw [hmap] at hk
    obtain ⟨h0, hu, hkey⟩ := h.mapped k b hk
    refine ⟨h0, hused b hu, ?_⟩
    by_cases hb : b = t.freeBlock
    · subst hb
      have hcached : s.Cached k := hfills.cached rfl k hk
      refine Or.inl ⟨s.write.RWcache.stored, ?_, ?_⟩
      · simp only [flushPart, Function.update_self]
      · rwa [ValidList.stored_keys]
    · rcases hkey with ⟨m, hm, hkm⟩ | ⟨f, hf, hopen⟩
      · refine Or.inl ⟨m, ?_, hkm⟩
        simpa only [flushPart, Function.update_of_ne hb] using hm
      · rcases List.mem_cons.mp hf with rfl | hf
        · exact absurd hopen.2.symm hb
        · exact Or.inr ⟨f, List.mem_cons_of_mem _ hf, hopen⟩

/-- The list is emptied once no other flush stands on it or has mapped keys it has still to write. -/
theorem Account.clear (h : s.Account (⟨t, .clear⟩ :: fs)) (hsettled : ∀ g ∈ fs, s.Settled g) :
    (s.flushPart t .clear).1.Account fs := by
  have hcovers := h.covers _ List.mem_cons_self
  refine ⟨h.block0, ?_, ?_, (List.pairwise_cons.mp h.apart).2, ?_⟩
  · intro f hf
    exact (flushPart_retains (t := t) hcovers).covers (fun k hk => Or.inl (flushPart_cached hk))
      (h.covers f (List.mem_cons_of_mem _ hf))
  · intro f hf
    obtain ⟨hne, h0, hu, _, _⟩ := h.fills f (List.mem_cons_of_mem _ hf)
    obtain ⟨hwalks, hunmapped⟩ := hsettled f hf
    exact ⟨hne, h0, hu, onNode_of_walks hwalks, fun hp k hk => absurd hk (hunmapped hp k)⟩
  · intro k b hk
    obtain ⟨h0, hu, hkey⟩ := h.mapped k b hk
    refine ⟨h0, hu, hkey.imp_right ?_⟩
    rintro ⟨f, hf, hopen⟩
    rcases List.mem_cons.mp hf with rfl | hf
    · cases hopen.1
    · exact ⟨f, hf, hopen⟩

theorem Account.flushPart (h : s.Account (f :: fs)) (hclear : f.phase.clears = true → ∀ g ∈ fs, s.Settled g) :
    (s.flushPart f.task f.phase).1.Account (rest f.task (s.flushPart f.task f.phase).2 ++ fs) := by
  obtain ⟨t, p⟩ := f
  have hb := (h.fills _ List.mem_cons_self).ne_noBlock
  have hcovers := h.covers _ List.mem_cons_self
  cases p with
  | enter =>
    have hpart : s.flushPart t .enter = (s, some (.mapping none)) := if_neg hb
    have hmapping := flushPart_covers (t := t) hcovers (congrArg Prod.snd hpart)
    rw [hpart] at hmapping ⊢
    exact h.goOn hmapping rfl rfl rfl
  | mapping key? =>
    cases hnext : s.write.RWcache.nextKey key? with
    | none =>
      have hpart := flushPart_last (t := t) hnext
      have hserialize := flushPart_covers (t := t) hcovers (congrArg Prod.snd hpart)
      rw [hpart] at hserialize ⊢
      exact h.goOn hserialize rfl rfl rfl
    | some key =>
      rw [flushPart_next hnext]
      exact h.mapOne hnext
  | serialize => exact h.serialize
  | clear => exact h.clear (hclear rfl)

end Store

end KVStorage

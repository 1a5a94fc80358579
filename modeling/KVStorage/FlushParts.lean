import KVStorage.Store
import KVStorage.Library.Runs

/-!
# `flushToDisk` part by part

The mapping loop, the write of the block and the clearing of the list as steps of
their own, between which other threads may run.
-/

namespace KVStorage

set_option autoImplicit false

open Runs

inductive FlushPhase where
  | enter
  /-- The loop stands on the node of this key, or still on the head. -/
  | mapping (p : Option Int32)
  | serialize
  | clear
  deriving DecidableEq

structure Flush where
  task : FlushTask
  phase : FlushPhase
  deriving DecidableEq

namespace ValidList

/-- The key of `p->next[0]`, where `p` is the node of a key or the head. -/
def nextKey (l : ValidList) (p : Option Int32) : Option Int32 := l.keys.find? fun k => p.all (· < k)

variable {l : ValidList} {p : Option Int32} {k k' : Int32}

theorem nextKey_none (h : l.nextKey p = none) (hk : k ∈ l.contents.keys) : p.all (· < k) = false := by
  rw [← keys_eq] at hk
  exact Bool.eq_false_iff.mpr (List.find?_eq_none.mp h k hk)

theorem nextKey_mem (h : l.nextKey p = some k) : k ∈ l.contents.keys := by
  rw [← keys_eq]
  exact List.mem_of_find?_eq_some h

/-- No key comes between a node and the next one. -/
theorem nextKey_least (h : l.nextKey p = some k) (hk' : k' ∈ l.contents.keys) (hp : p.all (· < k') = true) :
    k' = k ∨ k < k' := by
  rw [← keys_eq] at hk'
  have hsorted : l.keys.Pairwise (· < ·) := l.keys_eq ▸ l.contents.keys_sorted
  obtain ⟨_, as, bs, hkeys, has⟩ := List.find?_eq_some_iff_append.mp h
  rw [hkeys] at hk' hsorted
  obtain ⟨_, hbs, _⟩ := List.pairwise_append.mp hsorted
  rcases List.mem_append.mp hk' with hk' | hk'
  · have hpast := has k' hk'
    rw [hp] at hpast
    cases hpast
  · exact (List.mem_cons.mp hk').imp_right fun hk' => (List.pairwise_cons.mp hbs).1 k' hk'

theorem nextKey_split {as bs : List Int32} (h : l.contents.keys = as ++ bs) :
    l.nextKey as.getLast? = bs.head? := by
  have hsorted := l.contents.keys_sorted
  rw [h] at hsorted
  obtain ⟨has, _, hlt⟩ := List.pairwise_append.mp hsorted
  have hpast : as.find? (fun k => as.getLast?.all (· < k)) = none := by
    apply List.find?_eq_none.mpr
    intro k hk
    obtain ⟨as, last, rfl⟩ := List.eq_nil_or_concat as |>.resolve_left (List.ne_nil_of_mem hk)
    rw [List.concat_eq_append] at has hk ⊢
    simp only [List.getLast?_append, List.getLast?_singleton, Option.some_or, Option.all_some, decide_eq_true_eq]
    rcases List.mem_append.mp hk with hk | hk
    · exact ((List.pairwise_append.mp has).2.2 k hk last List.mem_cons_self).not_gt
    · rw [List.mem_singleton.mp hk]
      exact lt_irrefl last
  rw [nextKey, keys_eq, h, List.find?_append, hpast, Option.none_or]
  cases bs with
  | nil => rfl
  | cons k bs =>
    apply List.find?_cons_of_pos
    simp only [Option.all_eq_true, decide_eq_true_eq]
    intro q hq
    exact hlt q (List.mem_of_getLast? hq) k List.mem_cons_self

end ValidList

namespace Store

/-- The next part; after the last one no phase is left. The loop follows the list as it
is now, so a list that is changed without the lock changes what it maps. If the node it
stands on is deleted, the code goes on in freed memory. -/
def flushPart (s : Store) (t : FlushTask) : FlushPhase → Store × Option FlushPhase
  | .enter => if t.freeBlock = noBlock then (s, none) else (s, some (.mapping none))
  | .mapping p =>
    match s.write.RWcache.nextKey p with
    | none => (s, some .serialize)
    | some k => ({ s with fi := s.fi.addKeyBlockMapping k t.freeBlock }, some (.mapping (some k)))
  | .serialize =>
    ({ s with
      disk := Function.update s.disk t.freeBlock (some s.write.RWcache.stored)
      fi := s.fi.updateBlockInfo t.freeBlock t.freeSpace }, some .clear)
  | .clear => ({ s with write := { s.write with RWcache := s.write.RWcache.clear, currentSize := 0 } }, none)

/-- The flush that is left after a part, if it is not the last one. -/
def rest (t : FlushTask) (q : Option FlushPhase) : List Flush := (q.map fun phase => (⟨t, phase⟩ : Flush)).toList

/-- A flush that nothing comes between. -/
def partStep (t : FlushTask) : Store × Option FlushPhase → Unit → Option (Store × Option FlushPhase)
  | (_, none), () => none
  | (s, some p), () => some (s.flushPart t p)

variable {s s' : Store} {t : FlushTask} {p : FlushPhase} {k? : Option Int32} {k : Int32}

theorem flushPart_last (h : s.write.RWcache.nextKey k? = none) :
    s.flushPart t (.mapping k?) = (s, some .serialize) := by
  simp only [flushPart, h]

theorem flushPart_next (h : s.write.RWcache.nextKey k? = some k) :
    s.flushPart t (.mapping k?) =
      ({ s with fi := s.fi.addKeyBlockMapping k t.freeBlock }, some (.mapping (some k))) := by
  simp only [flushPart, h]

theorem exec_mapping (s : Store) (t : FlushTask) {as bs : List Int32}
    (h : s.write.RWcache.contents.keys = as ++ bs) :
    exec (partStep t) (s, some (.mapping as.getLast?)) (List.replicate (bs.length + 1) ()) =
      ({ s with fi := s.fi.mapKeys bs t.freeBlock }, some .serialize) := by
  induction bs generalizing s as with
  | nil =>
    have hlast : next (partStep t) (s, some (.mapping as.getLast?)) () = (s, some .serialize) :=
      next_eq (congrArg some (flushPart_last (ValidList.nextKey_split h)))
    rw [List.length_nil, List.replicate_one, exec, hlast]
    rfl
  | cons k bs ih =>
    have hnext : next (partStep t) (s, some (.mapping as.getLast?)) () =
        ({ s with fi := s.fi.addKeyBlockMapping k t.freeBlock }, some (.mapping (as ++ [k]).getLast?)) := by
      rw [List.getLast?_concat]
      exact next_eq (congrArg some (flushPart_next (ValidList.nextKey_split h)))
    rw [List.length_cons, List.replicate_succ, exec, hnext,
      ih { s with fi := s.fi.addKeyBlockMapping k t.freeBlock } (by simpa using h)]
    rfl

/-- The parts in a row are `flushToDisk`. -/
theorem exec_flushPart (s : Store) (t : FlushTask) (hb : t.freeBlock ≠ noBlock) :
    exec (partStep t) (s, some .enter)
        (() :: (List.replicate (s.write.RWcache.keys.length + 1) () ++ [(), ()])) =
      (s.flush t.freeSpace t.freeBlock, none) := by
  have henter : next (partStep t) (s, some .enter) () = (s, some (.mapping ([] : List Int32).getLast?)) := by
    simp [next, partStep, flushPart, hb]
  rw [exec, henter, exec_append, ValidList.keys_eq, exec_mapping s t rfl, flush_eq _ hb]
  rfl

/-! ## What a flush has to have mapped -/

def Cached (s : Store) (k : Int32) : Prop := k ∈ s.write.RWcache.contents.keys

def Mapped (s : Store) (k : Int32) : Prop := (s.fi.keyBlockMap.lookup k).isSome

/-- How far a flush has mapped the keys of the write cache. -/
def Covers (s : Store) : FlushPhase → Prop
  | .enter => True
  | .mapping p => ∀ k, s.Cached k → p.all (· < k) = true ∨ s.Mapped k
  | .serialize => ∀ k, s.Cached k → s.Mapped k
  | .clear => ∀ k, s.Cached k → s.Mapped k

/-- The index of `s'` knows every key of `s` that it knew, and any key that left the cache. -/
structure Retains (s s' : Store) : Prop where
  mapped : ∀ k, s.Mapped k → s'.Mapped k
  cached : ∀ k, s.Cached k → s'.Cached k ∨ s'.Mapped k

theorem Retains.known (h : Retains s s') (hk : s.Cached k ∨ s.Mapped k) : s'.Cached k ∨ s'.Mapped k :=
  hk.elim (h.cached k) fun hm => Or.inr (h.mapped k hm)

theorem Retains.allMapped (h : Retains s s') (hnew : ∀ k, s'.Cached k → s.Cached k ∨ s.Mapped k)
    (hc : ∀ k, s.Cached k → s.Mapped k) : ∀ k, s'.Cached k → s'.Mapped k := by
  intro k hk
  rcases hnew k hk with hcached | hmapped
  · exact h.mapped k (hc k hcached)
  · exact h.mapped k hmapped

theorem Retains.covers (h : Retains s s') (hnew : ∀ k, s'.Cached k → s.Cached k ∨ s.Mapped k)
    (hc : s.Covers p) : s'.Covers p := by
  cases p with
  | enter => trivial
  | mapping p =>
    intro k hk
    rcases hnew k hk with hcached | hmapped
    · exact (hc k hcached).imp_right (h.mapped k)
    · exact Or.inr (h.mapped k hmapped)
  | serialize => exact h.allMapped hnew hc
  | clear => exact h.allMapped hnew hc

theorem addKeyBlockMapping_mapped (s : Store) (key : Int32) (b : SizeT) (k : Int32) :
    ({ s with fi := s.fi.addKeyBlockMapping key b } : Store).Mapped k ↔ k = key ∨ s.Mapped k := by
  simp only [Mapped, FileInfo.addKeyBlockMapping_lookup, Option.isSome_or]
  by_cases hk : k = key <;> simp [hk]

theorem flushPart_lookup {b : SizeT} (h : s.fi.keyBlockMap.lookup k = some b) :
    (s.flushPart t p).1.fi.keyBlockMap.lookup k = some b := by
  cases p with
  | enter =>
    simp only [flushPart]
    split <;> exact h
  | mapping p =>
    cases hp : s.write.RWcache.nextKey p with
    | none => rwa [flushPart_last hp]
    | some key => rw [flushPart_next hp, FileInfo.addKeyBlockMapping_lookup, h, Option.some_or]
  | serialize => simpa only [flushPart, FileInfo.updateBlockInfo_map] using h
  | clear => exact h

/-- No mapping and no block is lost. -/
structure Grows (s s' : Store) : Prop where
  mapped : ∀ k b, s.fi.keyBlockMap.lookup k = some b → s'.fi.keyBlockMap.lookup k = some b
  disk : ∀ b, (s.disk b).isSome → (s'.disk b).isSome

theorem Grows.of_congr (hm : s'.fi.keyBlockMap = s.fi.keyBlockMap) (hd : s'.disk = s.disk) : s.Grows s' where
  mapped _ _ hk := hm ▸ hk
  disk _ hb := hd ▸ hb

theorem Grows.isMapped (h : s.Grows s') (hk : s.Mapped k) : s'.Mapped k := by
  obtain ⟨b, hb⟩ := Option.isSome_iff_exists.mp hk
  exact Option.isSome_iff_exists.mpr ⟨b, h.mapped k b hb⟩

theorem flushPart_grows (s : Store) (t : FlushTask) (p : FlushPhase) : s.Grows (s.flushPart t p).1 where
  mapped _ _ hk := flushPart_lookup hk
  disk := by
    intro b hb
    cases p with
    | enter =>
      simp only [flushPart]
      split <;> exact hb
    | mapping p =>
      simp only [flushPart]
      split <;> exact hb
    | serialize =>
      simp only [flushPart, Function.update_apply]
      split
      · rfl
      · exact hb
    | clear => exact hb

theorem flushPart_mapped (h : s.Mapped k) : (s.flushPart t p).1.Mapped k :=
  (s.flushPart_grows t p).isMapped h

theorem flushPart_image : (s.flushPart t p).1.image = s.image := by
  cases p with
  | enter =>
    simp only [flushPart]
    split <;> rfl
  | mapping p =>
    simp only [flushPart]
    split <;> rfl
  | serialize => rfl
  | clear => rfl

theorem flushPart_write (hp : p ≠ .clear) : (s.flushPart t p).1.write = s.write := by
  cases p with
  | enter =>
    simp only [flushPart]
    split <;> rfl
  | mapping p =>
    simp only [flushPart]
    split <;> rfl
  | serialize => rfl
  | clear => exact absurd rfl hp

theorem flushPart_retains (hc : s.Covers p) : Retains s (s.flushPart t p).1 := by
  refine ⟨fun k hk => flushPart_mapped hk, ?_⟩
  intro k hk
  cases p with
  | enter =>
    simp only [flushPart]
    split <;> exact Or.inl hk
  | mapping p =>
    simp only [flushPart]
    split <;> exact Or.inl hk
  | serialize => exact Or.inl hk
  | clear => exact Or.inr (hc k hk)

theorem flushPart_covers (hc : s.Covers p) {q : FlushPhase} (hq : (s.flushPart t p).2 = some q) :
    (s.flushPart t p).1.Covers q := by
  cases p with
  | enter =>
    simp only [flushPart] at hq ⊢
    split at hq
    · cases hq
    · rename_i hb
      cases hq
      exact fun k _ => Or.inl rfl
  | mapping p =>
    cases hp : s.write.RWcache.nextKey p with
    | none =>
      rw [flushPart_last hp] at hq ⊢
      cases hq
      intro k hk
      refine (hc k hk).resolve_left ?_
      rw [ValidList.nextKey_none hp hk]
      exact Bool.false_ne_true
    | some key =>
      rw [flushPart_next hp] at hq ⊢
      cases hq
      intro k hk
      rw [addKeyBlockMapping_mapped]
      rcases hc k hk with hpast | hmapped
      · rcases ValidList.nextKey_least hp hk hpast with rfl | hlt
        · exact Or.inr (Or.inl rfl)
        · exact Or.inl (decide_eq_true hlt)
      · exact Or.inr (Or.inr hmapped)
  | serialize =>
    cases hq
    intro k hk
    simpa only [Mapped, flushPart, FileInfo.updateBlockInfo_map] using hc k hk
  | clear => cases hq

theorem flushPart_done (hb : t.freeBlock ≠ noBlock) (hq : (s.flushPart t p).2 = none) :
    ¬(s.flushPart t p).1.Cached k := by
  cases p with
  | enter => simp [flushPart, hb] at hq
  | mapping p => cases hp : s.write.RWcache.nextKey p <;> simp [flushPart, hp] at hq
  | serialize => cases hq
  | clear => simp [Cached, flushPart]

theorem flushPart_cached (h : (s.flushPart t p).1.Cached k) : s.Cached k := by
  cases p with
  | enter =>
    simp only [flushPart] at h
    split at h <;> exact h
  | mapping p =>
    simp only [flushPart] at h
    split at h <;> exact h
  | serialize => exact h
  | clear =>
    simp only [Cached, flushPart, ValidList.clear_contents, SortedMap.keys_empty] at h
    exact absurd h List.not_mem_nil

end Store

end KVStorage

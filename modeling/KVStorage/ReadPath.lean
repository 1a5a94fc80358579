import KVStorage.Cache
import KVStorage.Library.Runs

/-!
# Concurrent GETs on the read cache

`currentReadBlock` names the block that was asked for last, which need not be the
block the list holds: the name is set when a load is submitted, and loads of different
blocks wait in different queues.
-/

namespace KVStorage

set_option autoImplicit false

open Runs

/-- A call of `Cache::get` with flag 1, by what it does next. -/
inductive Getter where
  /-- The block is the named one: search. -/
  | hit (key : Int32) (block : SizeT)
  /-- It is another one: set `currentReadBlock`. -/
  | miss (key : Int32) (block : SizeT)
  | submit (key : Int32) (block : SizeT)
  | returned
  deriving DecidableEq

/-- An IO worker with the task it has taken from its queue. -/
inductive Loader where
  | idle
  | load (key : Int32) (block : SizeT)
  | search (key : Int32) (block : SizeT)
  deriving DecidableEq

namespace Getter

/-- The key a call works for, with the block it was found in. -/
def task : Getter → Option (Int32 × SizeT)
  | .hit key block | .miss key block | .submit key block => some (key, block)
  | .returned => none

def searches : Getter → Option SizeT
  | .hit _ block => some block
  | _ => none

/-- The block that the call has named and not yet asked the IO pool for. -/
def loading : Getter → Option SizeT
  | .submit _ block => some block
  | _ => none

end Getter

namespace Loader

def task : Loader → Option (Int32 × SizeT)
  | .idle => none
  | .load key block | .search key block => some (key, block)

def searches : Loader → Option SizeT
  | .search _ block => some block
  | _ => none

def loading : Loader → Option SizeT
  | .load _ block => some block
  | _ => none

end Loader

/-- `IOThreadPool ioPool(15)`. -/
abbrev IO_THREADS : Nat := 15

instance : NeZero IO_THREADS := ⟨by decide⟩

/-- The read cache, the calls made so far and the IO pool. -/
structure ReadPath where
  cache : Cache
  getters : List Getter
  tasks : SizeT → List (Int32 × SizeT)
  workers : Fin IO_THREADS → Loader

inductive ReadAct where
  /-- A GET reads the block of its key and compares it with `currentReadBlock`. -/
  | compare (key : Int32)
  | searchHit (call : Nat)
  | setReadBlock (call : Nat)
  | submit (call : Nat)
  | pop (worker : Fin IO_THREADS)
  | loadFromDisk (worker : Fin IO_THREADS)
  | searchLoaded (worker : Fin IO_THREADS)

namespace ReadPath

def start : ReadPath := ⟨Cache.new, [], fun _ => [], fun _ => .idle⟩

def setGetter (s : ReadPath) (i : Nat) (g : Getter) : ReadPath := { s with getters := s.getters.set i g }

def setLoader (s : ReadPath) (w : Fin IO_THREADS) (l : Loader) : ReadPath :=
  { s with workers := Function.update s.workers w l }

variable (fi : FileInfo) (disk : Disk)

def step (s : ReadPath) : ReadAct → Option ReadPath
  | .compare key =>
    let block := fi.getBlockNumber key
    if block ≠ noBlock then
      if block = s.cache.currentReadBlock then some { s with getters := s.getters ++ [.hit key block] }
      else some { s with getters := s.getters ++ [.miss key block] }
    else some { s with getters := s.getters ++ [.returned] }
  | .searchHit i =>
    match s.getters[i]? with
    | some (.hit _ _) => some (s.setGetter i .returned)
    | _ => none
  | .setReadBlock i =>
    match s.getters[i]? with
    | some (.miss key block) =>
      some ({ s with cache := { s.cache with currentReadBlock := block } }.setGetter i (.submit key block))
    | _ => none
  | .submit i =>
    match s.getters[i]? with
    | some (.submit key block) =>
      some ({ s with
        tasks := Function.update s.tasks (block - 1) (s.tasks (block - 1) ++ [(key, block)]) }.setGetter i
          .returned)
    | _ => none
  | .pop w =>
    match s.workers w, s.tasks (UInt64.ofNat w) with
    | .idle, (key, block) :: rest =>
      some ({ s with tasks := Function.update s.tasks (UInt64.ofNat w) rest }.setLoader w
        (.load key block))
    | _, _ => none
  | .loadFromDisk w =>
    match s.workers w with
    | .load key block =>
      some ({ s with cache := (s.cache.loadFromDisk disk block).1 }.setLoader w (.search key block))
    | _ => none
  | .searchLoaded w =>
    match s.workers w with
    | .search _ _ => some (s.setLoader w .idle)
    | _ => none

def HoldsBlock (s : ReadPath) (block : SizeT) : Prop :=
  s.cache.RWcache.stored = (disk block).getD SortedMap.empty

instance (s : ReadPath) (block : SizeT) : Decidable (s.HoldsBlock disk block) :=
  inferInstanceAs (Decidable (s.cache.RWcache.stored = (disk block).getD SortedMap.empty))

/-- A search for a key is made on the block of the key. -/
def OnItsBlock (s : ReadPath) : ReadAct → Prop
  | .searchHit i => ∀ key block, s.getters[i]? = some (.hit key block) →
      fi.getBlockNumber key = block ∧ s.HoldsBlock disk block
  | .searchLoaded w => ∀ key block, s.workers w = .search key block →
      fi.getBlockNumber key = block ∧ s.HoldsBlock disk block
  | _ => True

/-- No search comes next that is for another block. -/
def NoOtherSearch (s : ReadPath) (block : SizeT) : Prop :=
  (∀ g ∈ s.getters, ∀ other ∈ g.searches, other = block) ∧
    ∀ w, ∀ other ∈ (s.workers w).searches, other = block

instance (s : ReadPath) (block : SizeT) : Decidable (s.NoOtherSearch block) :=
  instDecidableAnd

/-- The block has been named for a load that has not run yet. -/
def Pending (s : ReadPath) (block : SizeT) : Prop :=
  (∃ g ∈ s.getters, g.loading = some block) ∨ (∃ q, ∃ e ∈ s.tasks q, e.2 = block) ∨
    ∃ w, (s.workers w).loading = some block

/-- A GET takes its block for loaded only when no load is on its way, a block is named only when
no load of another one is, and no load replaces the list while a search of another block is
still to come. -/
def Orderly (s : ReadPath) : ReadAct → Prop
  | .compare key => fi.getBlockNumber key ≠ noBlock → fi.getBlockNumber key = s.cache.currentReadBlock →
      ∀ block, ¬s.Pending block
  | .setReadBlock i => ∀ key block, s.getters[i]? = some (.miss key block) →
      ∀ other, s.Pending other → other = block
  | .loadFromDisk w => ∀ e ∈ (s.workers w).task, s.NoOtherSearch e.2
  | _ => True

def Sends (e : Int32 × SizeT) : Prop := fi.getBlockNumber e.1 = e.2 ∧ e.2 ≠ noBlock

/-- Everyone works for the block of the key asked for, and a search that comes next
finds its block. -/
structure Inv (s : ReadPath) : Prop where
  getters : ∀ g ∈ s.getters, ∀ e ∈ g.task, Sends fi e
  tasks : ∀ q, ∀ e ∈ s.tasks q, Sends fi e
  workers : ∀ w, ∀ e ∈ (s.workers w).task, Sends fi e
  hits : ∀ g ∈ s.getters, ∀ block ∈ g.searches, s.HoldsBlock disk block
  loaded : ∀ w, ∀ block ∈ (s.workers w).searches, s.HoldsBlock disk block

/-- The loads on their way are of the block that is named, and it is the one in the list when
there are none. -/
structure Named (s : ReadPath) : Prop where
  pending : ∀ block, s.Pending block → block = s.cache.currentReadBlock
  loaded : (∀ block, ¬s.Pending block) → s.cache.currentReadBlock ≠ noBlock →
    s.HoldsBlock disk s.cache.currentReadBlock

variable {fi disk} {s s' : ReadPath} {i : Nat} {g old : Getter} {w : Fin IO_THREADS} {l : Loader}
  {key : Int32} {block : SizeT}

theorem start_inv : Inv fi disk start where
  getters := by simp [start]
  tasks := by simp [start]
  workers := by simp [start, Loader.task]
  hits := by simp [start]
  loaded := by simp [start, Loader.searches]

theorem Inv.call (h : Inv fi disk s) (htask : ∀ e ∈ g.task, Sends fi e)
    (hsearch : ∀ block ∈ g.searches, s.HoldsBlock disk block) :
    Inv fi disk { s with getters := s.getters ++ [g] } where
  getters := by
    intro g' hg'
    rcases List.mem_append.mp hg' with hg' | hg'
    · exact h.getters g' hg'
    · rw [List.mem_singleton.mp hg']
      exact htask
  tasks := h.tasks
  workers := h.workers
  hits := by
    intro g' hg'
    rcases List.mem_append.mp hg' with hg' | hg'
    · exact h.hits g' hg'
    · rw [List.mem_singleton.mp hg']
      exact hsearch
  loaded := h.loaded

theorem Inv.setGetter (h : Inv fi disk s) (htask : ∀ e ∈ g.task, Sends fi e)
    (hsearch : g.searches = none) : Inv fi disk (s.setGetter i g) where
  getters := by
    intro g' hg'
    rcases List.mem_or_eq_of_mem_set hg' with hg' | rfl
    · exact h.getters g' hg'
    · exact htask
  tasks := h.tasks
  workers := h.workers
  hits := by
    intro g' hg'
    rcases List.mem_or_eq_of_mem_set hg' with hg' | rfl
    · exact h.hits g' hg'
    · simp [hsearch]
  loaded := h.loaded

theorem Inv.setLoader (h : Inv fi disk s) (htask : ∀ e ∈ l.task, Sends fi e)
    (hsearch : ∀ block ∈ l.searches, s.HoldsBlock disk block) : Inv fi disk (s.setLoader w l) where
  getters := h.getters
  tasks := h.tasks
  workers := by
    intro v
    by_cases hvw : v = w
    · simpa [ReadPath.setLoader, hvw] using htask
    · simpa [ReadPath.setLoader, hvw] using h.workers v
  hits := h.hits
  loaded := by
    intro v block hb
    by_cases hvw : v = w
    · have hself : (s.setLoader w l).workers v = l := by simp [ReadPath.setLoader, hvw]
      exact hsearch block (hself ▸ hb)
    · have hother : (s.setLoader w l).workers v = s.workers v := by simp [ReadPath.setLoader, hvw]
      exact h.loaded v block (hother ▸ hb)

theorem Inv.named (h : Inv fi disk s) (block : SizeT) :
    Inv fi disk { s with cache := { s.cache with currentReadBlock := block } } :=
  ⟨h.getters, h.tasks, h.workers, h.hits, h.loaded⟩

theorem Inv.setTasks (h : Inv fi disk s) (q : SizeT) {tasks : List (Int32 × SizeT)}
    (htasks : ∀ e ∈ tasks, Sends fi e) :
    Inv fi disk { s with tasks := Function.update s.tasks q tasks } where
  getters := h.getters
  tasks := by
    intro q'
    by_cases hq : q' = q
    · simpa [hq] using htasks
    · simpa [hq] using h.tasks q'
  workers := h.workers
  hits := h.hits
  loaded := h.loaded

theorem holdsBlock_load (disk : Disk) (hb : block ≠ noBlock) :
    ({ s with cache := (s.cache.loadFromDisk disk block).1 } : ReadPath).HoldsBlock disk block := by
  simp only [HoldsBlock, Cache.loadFromDisk, if_neg hb]
  cases hm : disk block with
  | none => rfl
  | some m => exact ValidList.load_stored m

theorem Inv.load (h : Inv fi disk s) (hb : block ≠ noBlock) (ho : s.NoOtherSearch block) :
    Inv fi disk { s with cache := (s.cache.loadFromDisk disk block).1 } where
  getters := h.getters
  tasks := h.tasks
  workers := h.workers
  hits := by
    intro g hg other hother
    rw [ho.1 g hg other hother]
    exact holdsBlock_load disk hb
  loaded := by
    intro w other hother
    rw [ho.2 w other hother]
    exact holdsBlock_load disk hb

theorem compare_inv (h : Inv fi disk s) (hn : s.Named disk) (ho : Orderly fi s (.compare key))
    (hs : step fi disk s (.compare key) = some s') : Inv fi disk s' := by
  simp only [step] at hs
  split at hs
  case isTrue hb =>
    have hsends : Sends fi (key, fi.getBlockNumber key) := ⟨rfl, hb⟩
    split at hs
    case isTrue hread =>
      cases hs
      -- nothing is on its way, so the named block is in the list
      have hheld := hn.loaded (ho hb hread) (hread ▸ hb)
      apply h.call
      · simpa [Getter.task] using hsends
      · simpa [Getter.searches, hread] using hheld
    case isFalse =>
      cases hs
      apply h.call
      · simpa [Getter.task] using hsends
      · simp [Getter.searches]
  case isFalse =>
    cases hs
    exact h.call (by simp [Getter.task]) (by simp [Getter.searches])

theorem submit_inv (h : Inv fi disk s) (hs : step fi disk s (.submit i) = some s') : Inv fi disk s' := by
  simp only [step] at hs
  split at hs
  case h_1 key block hg =>
    cases hs
    have hsends := h.getters _ (List.mem_of_getElem? hg) (key, block) rfl
    refine (h.setTasks (block - 1) ?_).setGetter (by simp [Getter.task]) rfl
    intro e he
    rcases List.mem_append.mp he with he | he
    · exact h.tasks _ e he
    · rw [List.mem_singleton.mp he]
      exact hsends
  case h_2 => cases hs

theorem pop_inv (h : Inv fi disk s) (hs : step fi disk s (.pop w) = some s') : Inv fi disk s' := by
  simp only [step] at hs
  split at hs
  case h_1 key block rest _ hq =>
    cases hs
    have htasks := h.tasks (UInt64.ofNat w)
    rw [hq] at htasks
    apply (h.setTasks _ fun e he => htasks e (List.mem_cons_of_mem _ he)).setLoader
    · simpa [Loader.task] using htasks (key, block) List.mem_cons_self
    · simp [Loader.searches]
  case h_2 => cases hs

theorem loadFromDisk_inv (h : Inv fi disk s) (ho : Orderly fi s (.loadFromDisk w))
    (hs : step fi disk s (.loadFromDisk w) = some s') : Inv fi disk s' := by
  simp only [step] at hs
  split at hs
  case h_1 key block hl =>
    cases hs
    have htask : (key, block) ∈ (s.workers w).task := by simp [hl, Loader.task]
    have hsends := h.workers w (key, block) htask
    apply (h.load hsends.2 (ho (key, block) htask)).setLoader
    · simpa [Loader.task] using hsends
    · simpa [Loader.searches] using holdsBlock_load disk hsends.2
  case h_2 => cases hs

theorem step_inv (h : Inv fi disk s) (hn : s.Named disk) (a : ReadAct) (ho : Orderly fi s a)
    (hs : step fi disk s a = some s') : Inv fi disk s' := by
  cases a with
  | compare key => exact compare_inv h hn ho hs
  | searchHit i =>
    simp only [step] at hs
    split at hs
    · cases hs
      exact h.setGetter (by simp [Getter.task]) rfl
    · cases hs
  | setReadBlock i =>
    simp only [step] at hs
    split at hs
    · rename_i key block hg
      cases hs
      apply (h.named block).setGetter _ rfl
      simpa [Getter.task] using h.getters _ (List.mem_of_getElem? hg) (key, block) rfl
    · cases hs
  | submit i => exact submit_inv h hs
  | pop w => exact pop_inv h hs
  | loadFromDisk w => exact loadFromDisk_inv h ho hs
  | searchLoaded w =>
    simp only [step] at hs
    split at hs
    · cases hs
      exact h.setLoader (by simp [Loader.task]) (by simp [Loader.searches])
    · cases hs

theorem Inv.onItsBlock (h : Inv fi disk s) (a : ReadAct) : OnItsBlock fi disk s a := by
  cases a with
  | searchHit i =>
    intro key block hg
    have hmem := List.mem_of_getElem? hg
    exact ⟨(h.getters _ hmem (key, block) rfl).1, h.hits _ hmem block rfl⟩
  | searchLoaded w =>
    intro key block hl
    exact ⟨(h.workers w (key, block) (by simp [hl, Loader.task])).1,
      h.loaded w block (by simp [hl, Loader.searches])⟩
  | compare key => trivial
  | setReadBlock i => trivial
  | submit i => trivial
  | pop w => trivial
  | loadFromDisk w => trivial

/-! ## The loads on their way -/

theorem exists_mem_iff {P : Getter → Prop} {l : List Getter} (hold : l[i]? = some old) :
    (∃ g ∈ l, P g) ↔ P old ∨ ∃ j ≠ i, ∃ g, l[j]? = some g ∧ P g := by
  constructor
  · rintro ⟨g, hg, hP⟩
    obtain ⟨j, hj⟩ := List.mem_iff_getElem?.mp hg
    by_cases hji : j = i
    · rw [hji, hold, Option.some.injEq] at hj
      exact Or.inl (hj ▸ hP)
    · exact Or.inr ⟨j, hji, g, hj, hP⟩
  · rintro (hP | ⟨j, _, g, hj, hP⟩)
    · exact ⟨old, List.mem_of_getElem? hold, hP⟩
    · exact ⟨g, List.mem_of_getElem? hj, hP⟩

theorem exists_mem_set_iff {P : Getter → Prop} {l : List Getter} (hold : l[i]? = some old) :
    (∃ g' ∈ l.set i g, P g') ↔ P g ∨ ∃ j ≠ i, ∃ g', l[j]? = some g' ∧ P g' := by
  obtain ⟨hi, _⟩ := List.getElem?_eq_some_iff.mp hold
  rw [exists_mem_iff (List.getElem?_set_self hi)]
  apply or_congr_right
  apply exists_congr
  intro j
  apply and_congr_right
  intro hj
  rw [List.getElem?_set_ne hj.symm]

theorem exists_iff_or_ne {α : Type} {P : α → Prop} (a : α) : (∃ x, P x) ↔ P a ∨ ∃ x ≠ a, P x := by
  constructor
  · rintro ⟨x, hx⟩
    by_cases hxa : x = a
    · exact Or.inl (hxa ▸ hx)
    · exact Or.inr ⟨x, hxa, hx⟩
  · rintro (ha | ⟨x, _, hx⟩)
    · exact ⟨a, ha⟩
    · exact ⟨x, hx⟩

theorem pending_call (hg : g.loading = none) :
    ({ s with getters := s.getters ++ [g] } : ReadPath).Pending block ↔ s.Pending block := by
  simp [Pending, or_and_right, exists_or, hg]

theorem start_named : start.Named disk where
  pending := by simp [Pending, start, Loader.loading]
  loaded _ hnone := absurd rfl hnone

theorem Named.same (h : s.Named disk) (hcache : s'.cache = s.cache)
    (hpending : ∀ block, s'.Pending block ↔ s.Pending block) : s'.Named disk where
  pending block hp := hcache ▸ h.pending block ((hpending block).mp hp)
  loaded hnone := by
    rw [HoldsBlock, hcache]
    exact h.loaded fun block hp => hnone block ((hpending block).mpr hp)

theorem step_named (hn : s.Named disk) (a : ReadAct) (ho : Orderly fi s a)
    (hs : step fi disk s a = some s') : s'.Named disk := by
  cases a with
  | compare key =>
    simp only [step] at hs
    split at hs
    · split at hs <;> (cases hs; exact hn.same rfl fun _ => pending_call rfl)
    · cases hs
      exact hn.same rfl fun _ => pending_call rfl
  | searchHit i =>
    simp only [step] at hs
    split at hs
    · rename_i key block hg
      cases hs
      refine hn.same rfl fun other => ?_
      simp only [Pending, ReadPath.setGetter, exists_mem_set_iff hg, exists_mem_iff hg]
      simp [Getter.loading]
    · cases hs
  | setReadBlock i =>
    simp only [step] at hs
    split at hs
    · rename_i key block hg
      cases hs
      constructor
      · rintro other (hp | hp)
        · simp only [ReadPath.setGetter, exists_mem_set_iff hg] at hp
          rcases hp with hp | hp
          · exact (Option.some.inj hp).symm
          · exact ho key block hg other (Or.inl ((exists_mem_iff hg).mpr (Or.inr hp)))
        · exact ho key block hg other (Or.inr hp)
      · intro hnone
        have hnamed : ∃ g ∈ s.getters.set i (.submit key block), g.loading = some block :=
          (exists_mem_set_iff hg).mpr (Or.inl rfl)
        exact absurd (Or.inl hnamed) (hnone block)
    · cases hs
  | submit i =>
    simp only [step] at hs
    split at hs
    · rename_i key block hg
      cases hs
      refine hn.same rfl fun other => ?_
      -- the load moves from the caller to the queue
      simp only [Pending, ReadPath.setGetter, exists_mem_set_iff hg, exists_mem_iff hg,
        Function.exists_update_iff s.tasks fun _ l => ∃ e ∈ l, e.2 = other]
      rw [exists_iff_or_ne (P := fun q => ∃ e ∈ s.tasks q, e.2 = other) (block - 1)]
      have hcaller : (Getter.submit key block).loading = some other ↔ block = other := Option.some_inj
      have hreturned : Getter.returned.loading = some other ↔ False := iff_of_false nofun id
      have hqueue : (∃ e ∈ s.tasks (block - 1) ++ [(key, block)], e.2 = other) ↔
          (∃ e ∈ s.tasks (block - 1), e.2 = other) ∨ block = other := by simp
      rw [hcaller, hreturned, hqueue, false_or]
      exact iff_of_eq (by ac_rfl)
    · cases hs
  | pop w =>
    simp only [step] at hs
    split at hs
    · rename_i key block rest hl hq
      cases hs
      refine hn.same rfl fun other => ?_
      -- and from the queue to the worker
      simp only [Pending, ReadPath.setLoader,
        Function.exists_update_iff s.tasks fun _ l => ∃ e ∈ l, e.2 = other,
        Function.exists_update_iff s.workers fun _ l => l.loading = some other]
      rw [exists_iff_or_ne (P := fun q => ∃ e ∈ s.tasks q, e.2 = other) (UInt64.ofNat w),
        exists_iff_or_ne (P := fun v => (s.workers v).loading = some other) w, hl, hq]
      have hworker : (Loader.load key block).loading = some other ↔ block = other := Option.some_inj
      have hidle : Loader.idle.loading = some other ↔ False := iff_of_false nofun id
      have hqueue : (∃ e ∈ (key, block) :: rest, e.2 = other) ↔ block = other ∨ ∃ e ∈ rest, e.2 = other := by simp
      rw [hworker, hidle, hqueue, false_or]
      exact iff_of_eq (by ac_rfl)
    · cases hs
  | loadFromDisk w =>
    simp only [step] at hs
    split at hs
    · rename_i key block hl
      cases hs
      have hname : block = s.cache.currentReadBlock := hn.pending block (Or.inr (Or.inr ⟨w, by rw [hl]; rfl⟩))
      have hcurrent : (s.cache.loadFromDisk disk block).1.currentReadBlock = s.cache.currentReadBlock :=
        s.cache.loadFromDisk_name disk block
      constructor
      · rintro other (hp | hp | ⟨v, hv⟩)
        · exact (hn.pending other (Or.inl hp)).trans hcurrent.symm
        · exact (hn.pending other (Or.inr (Or.inl hp))).trans hcurrent.symm
        · rcases (Function.exists_update_iff s.workers fun _ l => l.loading = some other).mp ⟨v, hv⟩ with
            hv | ⟨v, _, hv⟩
          · cases hv
          · exact (hn.pending other (Or.inr (Or.inr ⟨v, hv⟩))).trans hcurrent.symm
      · intro _ hb
        change (s.cache.loadFromDisk disk block).1.currentReadBlock ≠ noBlock at hb
        change HoldsBlock disk _ (s.cache.loadFromDisk disk block).1.currentReadBlock
        rw [hcurrent, ← hname] at hb ⊢
        exact holdsBlock_load disk hb
    · cases hs
  | searchLoaded w =>
    simp only [step] at hs
    split at hs
    · rename_i key block hl
      cases hs
      refine hn.same rfl fun other => ?_
      simp only [Pending, ReadPath.setLoader, Function.exists_update_iff s.workers fun _ l => l.loading = some other]
      rw [exists_iff_or_ne (P := fun v => (s.workers v).loading = some other) w, hl]
      simp [Loader.loading]
    · cases hs

/-- In an orderly run every search for a key is made on the contents of its block. -/
theorem searches_on_their_block (fi : FileInfo) (disk : Disk) (acts : List ReadAct)
    (h : Along (step fi disk) (Orderly fi) start acts) :
    Along (step fi disk) (OnItsBlock fi disk) start acts := by
  have hstep : ∀ s a s', Inv fi disk s ∧ s.Named disk → Orderly fi s a → step fi disk s a = some s' →
      Inv fi disk s' ∧ s'.Named disk :=
    fun _ a _ hi ho hs => ⟨step_inv hi.1 hi.2 a ho hs, step_named hi.2 a ho hs⟩
  exact along_invariant hstep (fun _ a hi _ => hi.1.onItsBlock a) acts ⟨start_inv, start_named⟩ h

def twoBlocks : FileInfo := ((FileInfo.new []).addKeyBlockMapping 1 1).addKeyBlockMapping 2 2

def twoBlocksDisk : Disk := fun block =>
  if block = 1 then some (SortedMap.empty.insert 1 [97])
  else if block = 2 then some (SortedMap.empty.insert 2 [98])
  else none

def loadThenHit : List ReadAct :=
  [.compare 1, .setReadBlock 0, .submit 0, .pop 0, .loadFromDisk 0, .searchLoaded 0, .compare 1, .searchHit 1]

/-- When the second GET finds its block named, the load of the first one is over. -/
theorem loadThenHit_orderly : Along (step twoBlocks twoBlocksDisk) (Orderly twoBlocks) start loadThenHit := by
  refine ⟨fun _ _ hread => ?_, fun _ => ?_, fun _ => trivial, fun _ => trivial, fun _ => ?_, fun _ => trivial,
    fun _ _ _ => ?_, fun _ => trivial, trivial⟩
  · exact absurd hread (by decide +kernel)
  · rintro key block _ other (⟨g, hg, hload⟩ | ⟨q, e, he, _⟩ | ⟨w, hw⟩)
    · rw [List.mem_singleton.mp hg] at hload
      cases hload
    · cases he
    · cases hw
  · rintro e he
    cases he
    decide +kernel
  · rintro block (⟨g, hg, hload⟩ | ⟨q, e, he, _⟩ | ⟨w, hload⟩)
    · rw [List.mem_singleton.mp hg] at hload
      cases hload
    · change e ∈ Function.update (Function.update start.tasks 0 [(1, 1)]) 0 [] q at he
      rw [Function.update_idem] at he
      have hnone : Function.update start.tasks 0 [] q = [] := by by_cases hq : q = 0 <;> simp [hq, start]
      rw [hnone] at he
      cases he
    · have hidle : ∀ w, ((exec (step twoBlocks twoBlocksDisk) start (loadThenHit.take 6)).workers w).loading = none := by
        decide +kernel
      cases (hidle w).symm.trans hload

theorem loadThenHit_on_block :
    Along (step twoBlocks twoBlocksDisk) (OnItsBlock twoBlocks twoBlocksDisk) start loadThenHit :=
  searches_on_their_block twoBlocks twoBlocksDisk loadThenHit loadThenHit_orderly

/-- Two GETs whose loads run in the other order: the list is left with block 1 under the
name of block 2, and the next GET of key 2 searches it. -/
def swappedLoads : List ReadAct :=
  [.compare 1, .setReadBlock 0, .submit 0, .compare 2, .setReadBlock 1, .submit 1,
    .pop 1, .loadFromDisk 1, .searchLoaded 1, .pop 0, .loadFromDisk 0, .searchLoaded 0, .compare 2]

theorem swapped_loads_wrong_block :
    ¬∀ fi disk acts, Along (step fi disk) (OnItsBlock fi disk) start acts := by
  intro hclaim
  have hrun := hclaim twoBlocks twoBlocksDisk (swappedLoads ++ [.searchHit 2])
  have hlast := ((along_append _ _ _).mp hrun).2.1 (by decide +kernel) 2 2 (by decide +kernel)
  exact absurd hlast.2 (by decide +kernel)

end ReadPath

end KVStorage

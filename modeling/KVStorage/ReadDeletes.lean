import KVStorage.Cache
import KVStorage.Library.Runs

/-!
# Deletes in the read cache

`get` and `del` with flag 1, each IO task completed before the next call. A delete takes
the key out of the list that is loaded, which need not be a copy of its block, and the
block keeps it. Its second `delhander` runs next to the load without a lock.
-/

namespace KVStorage

set_option autoImplicit false

open Runs

/-- Where the thread that calls `del` runs `delhander`, next to the IO task it has submitted. -/
inductive Timing where
  | beforeLoad
  /-- `~Skiplist` has emptied the list and no node is linked yet. -/
  | emptied
  /-- While the IO thread frees, links or erases nodes. -/
  | inside
  | afterLoad
  deriving DecidableEq

/-- The read cache and the tables, with what was done to the list. -/
structure ReadSide where
  cache : Cache
  fi : FileInfo
  /-- The block that the list was loaded from. -/
  loaded : SizeT
  /-- The nodes erased, each with the block whose contents it was erased from. -/
  erased : List (SizeT × Int32)
  /-- How often two threads have been in the list at once. -/
  races : Nat

inductive ReadCall where
  | get (key : Int32)
  | del (key : Int32) (timing : Timing)
  deriving DecidableEq

def ReadCall.key : ReadCall → Int32
  | .get key | .del key _ => key

namespace ReadSide

def setReadBlock (s : ReadSide) (blockNumber : SizeT) : ReadSide :=
  { s with cache := { s.cache with currentReadBlock := blockNumber } }

/-- `loadFromDisk`. A block of the disk is the map that a load of it gives. -/
def load (s : ReadSide) (disk : Disk) (blockNumber : SizeT) : ReadSide :=
  { s with
    cache := (s.cache.loadFromDisk disk blockNumber).1
    loaded := if blockNumber = noBlock then s.loaded else blockNumber }

/-- `~Skiplist`, with which `loadFromDisk` begins. -/
def clearList (s : ReadSide) : ReadSide :=
  { s with cache := { s.cache with RWcache := s.cache.RWcache.clear } }

def delhander (s : ReadSide) (key : Int32) (blockNumber : SizeT) : ReadSide :=
  { s with
    cache := (s.cache.delhander s.fi key (some blockNumber)).1
    fi := (s.cache.delhander s.fi key (some blockNumber)).2
    erased := match (s.cache.RWcache.erase key).2 with
      | none => s.erased
      | some _ => s.erased ++ [(s.loaded, key)] }

/-- What `get` and the search in its IO task find. -/
def get (s : ReadSide) (disk : Disk) (key : Int32) : ReadSide × Bytes :=
  match s.cache.getRead s.fi key with
  | (c, .value data) => ({ s with cache := c }, data)
  | (c, .load blockNumber) =>
    (({ s with cache := c } : ReadSide).load disk blockNumber,
      (({ s with cache := c } : ReadSide).load disk blockNumber).cache.RWcache.search key)

/-- The IO task of `del`, and `delhander` once more in the calling thread. What a race leaves of
the list is undefined; here the calling thread leaves no trace but the race itself. -/
def loadAndDelete (s : ReadSide) (disk : Disk) (key : Int32) (blockNumber : SizeT) : Timing → ReadSide
  | .beforeLoad => ((s.delhander key blockNumber).load disk blockNumber).delhander key blockNumber
  | .emptied => ((s.clearList.delhander key blockNumber).load disk blockNumber).delhander key blockNumber
  | .inside => { (s.load disk blockNumber).delhander key blockNumber with races := s.races + 1 }
  | .afterLoad => ((s.load disk blockNumber).delhander key blockNumber).delhander key blockNumber

def del (s : ReadSide) (disk : Disk) (key : Int32) (timing : Timing) : ReadSide × Bool :=
  let blockNumber := s.fi.getBlockNumber key
  let named := s.setReadBlock blockNumber
  if blockNumber = noBlock then (s, false)
  else if blockNumber = s.cache.currentReadBlock then (named.delhander key blockNumber, true)
  else (named.loadAndDelete disk key blockNumber timing, true)

def step (disk : Disk) (s : ReadSide) : ReadCall → Option ReadSide
  | .get key => some (s.get disk key).1
  | .del key timing => some (s.del disk key timing).1

/-- The value of a key in the block it is mapped to. -/
def blockValue (disk : Disk) (s : ReadSide) (k : Int32) : Bytes :=
  ((disk (s.fi.getBlockNumber k)).bind (·.lookup k)).getD []

/-- `del` takes the key away for good, whatever is called next, takes it from no block but its
own, and no two threads meet in the list. -/
structure Sticks (disk : Disk) (s : ReadSide) (k : Int32) (timing : Timing) (calls : List ReadCall) : Prop where
  gone : ∀ bs, bs <+: calls → ((exec (step disk) (s.del disk k timing).1 bs).get disk k).2 = []
  own : ∃ new, (s.del disk k timing).1.erased = s.erased ++ new ∧ ∀ e ∈ new, e.1 = s.fi.getBlockNumber k
  unraced : (exec (step disk) (s.del disk k timing).1 calls).races = s.races

/-- No later call switches to another block, or the block of the key shows no value for it. -/
def StaysAway (disk : Disk) (s : ReadSide) (k : Int32) (calls : List ReadCall) : Prop :=
  blockValue disk s k = [] ∨ ∀ call ∈ calls, s.fi.getBlockNumber call.key = noBlock ∨
    s.fi.getBlockNumber call.key = s.fi.getBlockNumber k

/-- The list that the calling thread's `delhander` meets is the one of the block, or lacks the key. -/
def MeetsOwn (s : ReadSide) (k : Int32) (timing : Timing) : Prop :=
  s.fi.getBlockNumber k = s.cache.currentReadBlock ∨ timing = .beforeLoad →
    s.loaded = s.fi.getBlockNumber k ∨ s.cache.RWcache.contents.lookup k = none

/-- `delhander` does not run inside the load that its `del` has submitted. -/
def Apart (s : ReadSide) : ReadCall → Prop
  | .get _ => True
  | .del key timing => timing = .inside →
      s.fi.getBlockNumber key = noBlock ∨ s.fi.getBlockNumber key = s.cache.currentReadBlock

variable {disk : Disk} {s s' : ReadSide} {k key : Int32} {b : SizeT}

/-! ## What the calls do -/

@[simp] theorem load_fi : (s.load disk b).fi = s.fi := rfl

@[simp] theorem load_currentReadBlock : (s.load disk b).cache.currentReadBlock = s.cache.currentReadBlock := by
  simp only [load, Cache.loadFromDisk]
  split
  · rfl
  · split <;> rfl

theorem load_search (hb : b ≠ noBlock) (k : Int32) :
    (s.load disk b).cache.RWcache.search k = ((disk b).bind (·.lookup k)).getD [] := by
  rw [load, Cache.loadFromDisk, if_neg hb]
  cases disk b with
  | none =>
    rw [ValidList.search_eq, ValidList.clear_contents]
    rfl
  | some m => exact ValidList.load_search m k

@[simp] theorem delhander_map : (s.delhander key b).fi.keyBlockMap = s.fi.keyBlockMap := by
  simp only [delhander, Cache.delhander]
  split
  · rfl
  · exact FileInfo.updateBlockInfo_map _ _ _

@[simp] theorem delhander_currentReadBlock :
    (s.delhander key b).cache.currentReadBlock = s.cache.currentReadBlock := by
  simp only [delhander, Cache.delhander]
  split <;> rfl

theorem delhander_search : (s.delhander key b).cache.RWcache.search k =
    if k = key then [] else s.cache.RWcache.search k := by
  simp only [ValidList.search_eq, Contents.search, delhander, Cache.delhander_contents_lookup]
  split <;> rfl

theorem getBlockNumber_congr {fi fi' : FileInfo} (h : fi'.keyBlockMap = fi.keyBlockMap) (k : Int32) :
    fi'.getBlockNumber k = fi.getBlockNumber k := by rw [FileInfo.getBlockNumber, h, FileInfo.getBlockNumber]

theorem get_cases (s : ReadSide) (disk : Disk) (key : Int32) :
    s.fi.getBlockNumber key = noBlock ∧ s.get disk key = (s, []) ∨
      s.fi.getBlockNumber key ≠ noBlock ∧ s.fi.getBlockNumber key = s.cache.currentReadBlock ∧
        s.get disk key = (s, s.cache.RWcache.search key) ∨
      s.fi.getBlockNumber key ≠ noBlock ∧ s.fi.getBlockNumber key ≠ s.cache.currentReadBlock ∧
        s.get disk key = ((s.setReadBlock (s.fi.getBlockNumber key)).load disk (s.fi.getBlockNumber key),
          ((s.setReadBlock (s.fi.getBlockNumber key)).load disk (s.fi.getBlockNumber key)).cache.RWcache.search
            key) := by
  by_cases hb : s.fi.getBlockNumber key = noBlock
  · exact Or.inl ⟨hb, by simp only [get, Cache.getRead, hb, ne_eq, not_true_eq_false, if_false]⟩
  · by_cases hc : s.fi.getBlockNumber key = s.cache.currentReadBlock
    · refine Or.inr (Or.inl ⟨hb, hc, ?_⟩)
      rw [get, Cache.getRead, if_pos hb, if_pos hc]
    · refine Or.inr (Or.inr ⟨hb, hc, ?_⟩)
      rw [get, Cache.getRead, if_pos hb, if_neg hc]
      rfl

/-- The calling thread's `delhander`, where it comes first, is what `Cache::del` does itself. -/
theorem delRead_eq (hb : s.fi.getBlockNumber k ≠ noBlock) :
    (s.cache.delRead s.fi k).1 =
        ((s.setReadBlock (s.fi.getBlockNumber k)).delhander k (s.fi.getBlockNumber k)).cache ∧
      (s.cache.delRead s.fi k).2.1 =
        ((s.setReadBlock (s.fi.getBlockNumber k)).delhander k (s.fi.getBlockNumber k)).fi := by
  rw [Cache.delRead, if_pos hb]
  exact ⟨rfl, rfl⟩

@[simp] theorem clearList_fi : s.clearList.fi = s.fi := rfl

@[simp] theorem clearList_currentReadBlock : s.clearList.cache.currentReadBlock = s.cache.currentReadBlock := rfl

@[simp] theorem loadAndDelete_map (timing : Timing) :
    (s.loadAndDelete disk key b timing).fi.keyBlockMap = s.fi.keyBlockMap := by
  cases timing <;> simp only [loadAndDelete, delhander_map, load_fi, clearList_fi]

@[simp] theorem loadAndDelete_currentReadBlock (timing : Timing) :
    (s.loadAndDelete disk key b timing).cache.currentReadBlock = s.cache.currentReadBlock := by
  cases timing <;>
    simp only [loadAndDelete, delhander_currentReadBlock, load_currentReadBlock, clearList_currentReadBlock]

/-- Whichever thread comes first, the key is gone from the loaded block. -/
theorem loadAndDelete_search (timing : Timing) (hb : b ≠ noBlock) (k : Int32) :
    (s.loadAndDelete disk key b timing).cache.RWcache.search k =
      if k = key then [] else ((disk b).bind (·.lookup k)).getD [] := by
  cases timing with
  | beforeLoad | emptied => rw [loadAndDelete, delhander_search, load_search hb]
  | inside =>
    rw [← load_search (s := s) hb k]
    exact delhander_search
  | afterLoad =>
    rw [loadAndDelete, delhander_search, delhander_search, load_search hb]
    split <;> rfl

@[simp] theorem get_map (s : ReadSide) (disk : Disk) (key : Int32) :
    (s.get disk key).1.fi.keyBlockMap = s.fi.keyBlockMap := by
  rcases s.get_cases disk key with ⟨_, h⟩ | ⟨_, _, h⟩ | ⟨_, _, h⟩
  · rw [h]
  · rw [h]
  · rw [h, load_fi]
    rfl

theorem get_currentReadBlock (hb : s.fi.getBlockNumber key ≠ noBlock) :
    (s.get disk key).1.cache.currentReadBlock = s.fi.getBlockNumber key := by
  rcases s.get_cases disk key with ⟨hn, _⟩ | ⟨_, hc, h⟩ | ⟨_, _, h⟩
  · exact absurd hn hb
  · rw [h, hc]
  · rw [h, load_currentReadBlock]
    rfl

theorem get_reloads (hb : s.fi.getBlockNumber key ≠ noBlock)
    (hc : s.fi.getBlockNumber key ≠ s.cache.currentReadBlock) : (s.get disk key).2 = blockValue disk s key := by
  rcases s.get_cases disk key with ⟨hn, _⟩ | ⟨_, he, _⟩ | ⟨_, _, h⟩
  · exact absurd hn hb
  · exact absurd he hc
  · rw [h, load_search hb, blockValue]

@[simp] theorem del_map (s : ReadSide) (disk : Disk) (key : Int32) (timing : Timing) :
    (s.del disk key timing).1.fi.keyBlockMap = s.fi.keyBlockMap := by
  rw [del]
  split
  · rfl
  · split
    · exact delhander_map
    · exact loadAndDelete_map timing

theorem del_currentReadBlock (timing : Timing) (hb : s.fi.getBlockNumber key ≠ noBlock) :
    (s.del disk key timing).1.cache.currentReadBlock = s.fi.getBlockNumber key := by
  rw [del, if_neg hb]
  split
  · exact delhander_currentReadBlock
  · exact loadAndDelete_currentReadBlock timing

theorem del_search (timing : Timing) (hb : s.fi.getBlockNumber key ≠ noBlock) (k : Int32) :
    (s.del disk key timing).1.cache.RWcache.search k =
      if k = key then []
      else if s.fi.getBlockNumber key = s.cache.currentReadBlock then s.cache.RWcache.search k
      else ((disk (s.fi.getBlockNumber key)).bind (·.lookup k)).getD [] := by
  rw [del, if_neg hb]
  by_cases hc : s.fi.getBlockNumber key = s.cache.currentReadBlock
  · rw [if_pos hc, if_pos hc]
    exact delhander_search
  · rw [if_neg hc, if_neg hc]
    exact loadAndDelete_search timing hb k

/-! ## What is erased, and the races -/

theorem delhander_erased : (s.delhander key b).erased =
    s.erased ++ if (s.cache.RWcache.contents.lookup key).isSome then [(s.loaded, key)] else [] := by
  simp only [delhander, ValidList.erase_size]
  cases s.cache.RWcache.contents.lookup key with
  | none => exact (List.append_nil _).symm
  | some v => rfl

@[simp] theorem delhander_loaded : (s.delhander key b).loaded = s.loaded := rfl

theorem load_loaded (hb : b ≠ noBlock) : (s.load disk b).loaded = b := if_neg hb

/-- After the load only nodes of the block are erased. -/
theorem delhander_erases (hloaded : s.loaded = b) :
    ∃ new, (s.delhander key b).erased = s.erased ++ new ∧ ∀ e ∈ new, e.1 = b := by
  refine ⟨_, delhander_erased, ?_⟩
  intro e he
  split at he
  · rw [List.mem_singleton.mp he]
    exact hloaded
  · cases he

theorem erases_trans {s₁ s₂ s₃ : ReadSide} (h : ∃ new, s₂.erased = s₁.erased ++ new ∧ ∀ e ∈ new, e.1 = b)
    (h' : ∃ new, s₃.erased = s₂.erased ++ new ∧ ∀ e ∈ new, e.1 = b) :
    ∃ new, s₃.erased = s₁.erased ++ new ∧ ∀ e ∈ new, e.1 = b := by
  obtain ⟨new, he, hnew⟩ := h
  obtain ⟨new', he', hnew'⟩ := h'
  refine ⟨new ++ new', by rw [he', he, List.append_assoc], ?_⟩
  intro e hmem
  exact (List.mem_append.mp hmem).elim (hnew e) (hnew' e)

/-- The first `delhander` erases from the list that it meets. -/
theorem first_erases_iff {s₁ s₂ : ReadSide} (h₁ : s₁ = s.delhander k b)
    (h₂ : ∃ new, s₂.erased = s₁.erased ++ new ∧ ∀ e ∈ new, e.1 = b) :
    (∃ new, s₂.erased = s.erased ++ new ∧ ∀ e ∈ new, e.1 = b) ↔
      s.loaded = b ∨ s.cache.RWcache.contents.lookup k = none := by
  constructor
  · rintro ⟨new, he, hnew⟩
    obtain ⟨new', he', _⟩ := h₂
    rw [or_iff_not_imp_right]
    intro hsome
    rw [he', h₁, delhander_erased, if_pos (Option.isSome_iff_ne_none.mpr hsome), List.append_assoc,
      List.append_cancel_left_eq] at he
    exact hnew (s.loaded, k) (he ▸ List.mem_cons_self)
  · rintro (hloaded | hnone)
    · exact erases_trans (h₁ ▸ delhander_erases hloaded) h₂
    · refine erases_trans ⟨[], ?_, nofun⟩ h₂
      rw [h₁, delhander_erased, hnone]
      rfl

theorem own_iff (timing : Timing) (hb : s.fi.getBlockNumber k ≠ noBlock) :
    (∃ new, (s.del disk k timing).1.erased = s.erased ++ new ∧ ∀ e ∈ new, e.1 = s.fi.getBlockNumber k) ↔
      s.MeetsOwn k timing := by
  have hfirst : ∀ s₂ : ReadSide,
      (∃ new, s₂.erased = ((s.setReadBlock (s.fi.getBlockNumber k)).delhander k (s.fi.getBlockNumber k)).erased ++ new ∧
        ∀ e ∈ new, e.1 = s.fi.getBlockNumber k) →
      ((∃ new, s₂.erased = s.erased ++ new ∧ ∀ e ∈ new, e.1 = s.fi.getBlockNumber k) ↔
        s.loaded = s.fi.getBlockNumber k ∨ s.cache.RWcache.contents.lookup k = none) :=
    fun s₂ h₂ => first_erases_iff (s := s.setReadBlock (s.fi.getBlockNumber k)) rfl h₂
  rw [del, if_neg hb]
  by_cases hc : s.fi.getBlockNumber k = s.cache.currentReadBlock
  · rw [if_pos hc, hfirst _ ⟨[], (List.append_nil _).symm, nofun⟩]
    exact ⟨fun h _ => h, fun h => h (Or.inl hc)⟩
  · rw [if_neg hc]
    have hloaded : ∀ t : ReadSide, ∃ new, ((t.load disk (s.fi.getBlockNumber k)).delhander k
        (s.fi.getBlockNumber k)).erased = t.erased ++ new ∧ ∀ e ∈ new, e.1 = s.fi.getBlockNumber k :=
      fun t => delhander_erases (s := t.load disk (s.fi.getBlockNumber k)) (load_loaded hb)
    have hlater : timing ≠ .beforeLoad → s.MeetsOwn k timing := fun hne h => absurd h (not_or.mpr ⟨hc, hne⟩)
    cases timing with
    | beforeLoad =>
      rw [loadAndDelete, hfirst _ (hloaded _)]
      exact ⟨fun h _ => h, fun h => h (Or.inr rfl)⟩
    | emptied =>
      refine iff_of_true ?_ (hlater nofun)
      have hempty : ((s.setReadBlock (s.fi.getBlockNumber k)).clearList.delhander k (s.fi.getBlockNumber k)).erased =
          s.erased := by
        rw [delhander_erased, clearList, ValidList.clear_contents, SortedMap.lookup_empty]
        exact List.append_nil _
      obtain ⟨new, he, hnew⟩ := hloaded ((s.setReadBlock (s.fi.getBlockNumber k)).clearList.delhander k _)
      exact ⟨new, by rw [loadAndDelete, he, hempty], hnew⟩
    | inside => exact iff_of_true (hloaded _) (hlater nofun)
    | afterLoad =>
      refine iff_of_true ?_ (hlater nofun)
      refine erases_trans (hloaded (s.setReadBlock (s.fi.getBlockNumber k))) (delhander_erases ?_)
      rw [delhander_loaded, load_loaded hb]

theorem del_races (s : ReadSide) (disk : Disk) (key : Int32) (timing : Timing) :
    s.Apart (.del key timing) ∧ (s.del disk key timing).1.races = s.races ∨
      ¬s.Apart (.del key timing) ∧ (s.del disk key timing).1.races = s.races + 1 := by
  unfold del Apart
  by_cases hb : s.fi.getBlockNumber key = noBlock
  · simp only [if_pos hb]
    exact Or.inl ⟨fun _ => Or.inl hb, trivial⟩
  · by_cases hc : s.fi.getBlockNumber key = s.cache.currentReadBlock
    · simp only [if_neg hb, if_pos hc]
      exact Or.inl ⟨fun _ => Or.inr hc, rfl⟩
    · simp only [if_neg hb, if_neg hc]
      cases timing with
      | inside => exact Or.inr ⟨fun h => (h rfl).elim hb hc, rfl⟩
      | beforeLoad | emptied | afterLoad => exact Or.inl ⟨nofun, rfl⟩

theorem get_races (s : ReadSide) (disk : Disk) (key : Int32) : (s.get disk key).1.races = s.races := by
  rcases s.get_cases disk key with ⟨_, h⟩ | ⟨_, _, h⟩ | ⟨_, _, h⟩
  · rw [h]
  · rw [h]
  · rw [h]
    rfl

theorem step_races {call : ReadCall} (hs : step disk s call = some s') :
    s.Apart call ∧ s'.races = s.races ∨ ¬s.Apart call ∧ s'.races = s.races + 1 := by
  cases call with
  | get key =>
    cases hs
    exact Or.inl ⟨trivial, get_races s disk key⟩
  | del key timing =>
    cases hs
    exact del_races s disk key timing

theorem exec_races (disk : Disk) (s : ReadSide) (calls : List ReadCall) :
    s.races ≤ (exec (step disk) s calls).races ∧
      ((exec (step disk) s calls).races = s.races ↔ Along (step disk) Apart s calls) := by
  induction calls generalizing s with
  | nil => exact ⟨le_refl _, iff_of_true rfl trivial⟩
  | cons call calls ih =>
    obtain ⟨s', hs⟩ : ∃ s', step disk s call = some s' := by cases call <;> exact ⟨_, rfl⟩
    obtain ⟨hle, hiff⟩ := ih s'
    rw [exec, Along, next_eq hs, ← hiff]
    rcases step_races hs with ⟨hapart, hraces⟩ | ⟨hnot, hraces⟩
    · rw [hraces] at hle
      refine ⟨hle, ?_⟩
      rw [hraces]
      exact ⟨fun h => ⟨fun _ => hapart, h⟩, And.right⟩
    · refine ⟨by omega, iff_of_false (by omega) fun h => hnot (h.1 ?_)⟩
      rw [hs]
      rfl

/-! ## Runs after a delete -/

/-- The named block does not show the key, and where the disk would, it stays the named one. -/
structure Deleted (disk : Disk) (m : SortedMap Int32 SizeT) (k : Int32) (b : SizeT) (s : ReadSide) : Prop where
  map : s.fi.keyBlockMap = m
  absent : s.cache.currentReadBlock = b → s.cache.RWcache.search k = []
  kept : ((disk b).bind (·.lookup k)).getD [] ≠ [] → s.cache.currentReadBlock = b

section Run

variable {m : SortedMap Int32 SizeT}

/-- After a call that names the block of its key, loading it if it was not the named one. -/
theorem Deleted.named (h : Deleted disk m k b s)
    (haway : ((disk b).bind (·.lookup k)).getD [] = [] ∨ s.fi.getBlockNumber key = b)
    (hmap : s'.fi.keyBlockMap = s.fi.keyBlockMap) (hblock : s'.cache.currentReadBlock = s.fi.getBlockNumber key)
    (hfound : s'.cache.RWcache.search k ≠ [] → s'.cache.RWcache.search k =
      if s.fi.getBlockNumber key = s.cache.currentReadBlock then s.cache.RWcache.search k
      else ((disk (s.fi.getBlockNumber key)).bind (·.lookup k)).getD []) : Deleted disk m k b s' := by
  refine ⟨hmap.trans h.map, ?_, fun hstored => hblock.trans (haway.resolve_left hstored)⟩
  intro hb
  rw [hblock] at hb
  by_contra hsome
  have hvalue := hfound hsome
  by_cases hc : s.fi.getBlockNumber key = s.cache.currentReadBlock
  · rw [if_pos hc] at hvalue
    exact hsome (hvalue.trans (h.absent (hc.symm.trans hb)))
  · rw [if_neg hc, hb] at hvalue
    exact hc (hb.trans (h.kept (hvalue ▸ hsome)).symm)

theorem Deleted.step (h : Deleted disk m k b s) {call : ReadCall}
    (haway : ((disk b).bind (·.lookup k)).getD [] = [] ∨ s.fi.getBlockNumber call.key = noBlock ∨
      s.fi.getBlockNumber call.key = b) (hs : step disk s call = some s') : Deleted disk m k b s' := by
  cases call with
  | get key =>
    cases hs
    rcases s.get_cases disk key with ⟨_, he⟩ | ⟨_, _, he⟩ | ⟨hb, hc, he⟩
    · rwa [he]
    · rwa [he]
    · rw [he]
      refine h.named (haway.imp_right fun h => h.resolve_left hb) rfl load_currentReadBlock fun _ => ?_
      rw [load_search hb, if_neg hc]
  | del key timing =>
    cases hs
    by_cases hb : s.fi.getBlockNumber key = noBlock
    · rw [del, if_pos hb]
      exact h
    · refine h.named (haway.imp_right fun h => h.resolve_left hb) (del_map s disk key timing)
        (del_currentReadBlock timing hb) ?_
      rw [del_search timing hb]
      intro hsome
      by_cases hk : k = key
      · rw [if_pos hk] at hsome
        exact absurd rfl hsome
      · rw [if_neg hk]

theorem Deleted.get (h : Deleted disk m k b s) (hb : s.fi.getBlockNumber k = b) : (s.get disk k).2 = [] := by
  rcases s.get_cases disk k with ⟨_, he⟩ | ⟨_, hc, he⟩ | ⟨hn, hc, he⟩
  · rw [he]
  · rw [he]
    exact h.absent (hc.symm.trans hb)
  · rw [he, load_search hn, hb]
    by_contra hstored
    exact hc (hb.trans (h.kept hstored).symm)

theorem step_map {call : ReadCall} (hs : step disk s call = some s') : s'.fi.keyBlockMap = s.fi.keyBlockMap := by
  cases call with
  | get key =>
    cases hs
    exact get_map s disk key
  | del key timing =>
    cases hs
    exact del_map s disk key timing

theorem step_currentReadBlock {call : ReadCall} (hs : step disk s call = some s') :
    s'.cache.currentReadBlock =
      if s.fi.getBlockNumber call.key = noBlock then s.cache.currentReadBlock else s.fi.getBlockNumber call.key := by
  by_cases hb : s.fi.getBlockNumber call.key = noBlock
  · rw [if_pos hb]
    cases call with
    | get key =>
      cases hs
      rcases s.get_cases disk key with ⟨_, h⟩ | ⟨hn, _⟩ | ⟨hn, _⟩
      · rw [h]
      · exact absurd hb hn
      · exact absurd hb hn
    | del key timing =>
      cases hs
      rw [del, if_pos (show s.fi.getBlockNumber key = noBlock from hb)]
  · rw [if_neg hb]
    cases call with
    | get key =>
      cases hs
      exact get_currentReadBlock hb
    | del key timing =>
      cases hs
      exact del_currentReadBlock timing hb

/-- A key whose block shows a value comes back once another block is named. -/
theorem named_while_gone (hb : s.fi.getBlockNumber k ≠ noBlock) (hvalue : blockValue disk s k ≠ [])
    (hnamed : s.cache.currentReadBlock = s.fi.getBlockNumber k) {calls : List ReadCall}
    (hgone : ∀ bs, bs <+: calls → ((exec (step disk) s bs).get disk k).2 = []) :
    ∀ call ∈ calls, s.fi.getBlockNumber call.key = noBlock ∨ s.fi.getBlockNumber call.key = s.fi.getBlockNumber k := by
  induction calls generalizing s with
  | nil => exact nofun
  | cons call calls ih =>
    obtain ⟨s', hs⟩ : ∃ s', step disk s call = some s' := by cases call <;> exact ⟨_, rfl⟩
    have hnumber : ∀ key, s'.fi.getBlockNumber key = s.fi.getBlockNumber key :=
      fun key => getBlockNumber_congr (step_map hs) key
    have hafter : ∀ bs, bs <+: calls → ((exec (step disk) s' bs).get disk k).2 = [] := by
      intro bs hbs
      have hrun := hgone (call :: bs) (List.cons_prefix_cons.mpr ⟨rfl, hbs⟩)
      rwa [exec, next_eq hs] at hrun
    have hon : s.fi.getBlockNumber call.key = noBlock ∨ s.fi.getBlockNumber call.key = s.fi.getBlockNumber k := by
      by_contra hother
      rw [not_or] at hother
      have hmoved := step_currentReadBlock hs
      rw [if_neg hother.1] at hmoved
      have hreload : (s'.get disk k).2 = blockValue disk s' k :=
        get_reloads (by rwa [hnumber]) (by rw [hnumber, hmoved]; exact Ne.symm hother.2)
      rw [blockValue, hnumber, ← blockValue] at hreload
      exact hvalue (hreload.symm.trans (hafter [] List.nil_prefix))
    have hstays : s'.cache.currentReadBlock = s'.fi.getBlockNumber k := by
      rw [step_currentReadBlock hs, hnumber]
      split
      · exact hnamed
      · rename_i hn
        exact hon.resolve_left hn
    intro call' hcall
    rcases List.mem_cons.mp hcall with rfl | hcall
    · exact hon
    · have hrest := ih (by rwa [hnumber]) (by rwa [blockValue, hnumber, ← blockValue]) hstays hafter call' hcall
      simpa only [hnumber] using hrest

theorem gone_iff (timing : Timing) (hb : s.fi.getBlockNumber k ≠ noBlock) (calls : List ReadCall) :
    (∀ bs, bs <+: calls → ((exec (step disk) (s.del disk k timing).1 bs).get disk k).2 = []) ↔
      StaysAway disk s k calls := by
  have hnumber : ∀ key, (s.del disk k timing).1.fi.getBlockNumber key = s.fi.getBlockNumber key :=
    fun key => getBlockNumber_congr (del_map s disk k timing) key
  constructor
  · intro hgone
    rw [StaysAway, or_iff_not_imp_left]
    intro hvalue
    have hon := named_while_gone (by rwa [hnumber]) (by rwa [blockValue, hnumber, ← blockValue])
      (by rw [hnumber, del_currentReadBlock timing hb]) hgone
    simpa only [hnumber] using hon
  · rintro haway bs ⟨cs, rfl⟩
    have hdeleted : Deleted disk s.fi.keyBlockMap k (s.fi.getBlockNumber k) (s.del disk k timing).1 := by
      refine ⟨del_map s disk k timing, fun _ => ?_, fun _ => del_currentReadBlock timing hb⟩
      rw [del_search timing hb, if_pos rfl]
    have hstep : ∀ t call t', Deleted disk s.fi.keyBlockMap k (s.fi.getBlockNumber k) t → call ∈ bs →
        step disk t call = some t' → Deleted disk s.fi.keyBlockMap k (s.fi.getBlockNumber k) t' := by
      intro t call t' ht hcall hs
      refine ht.step ?_ hs
      rw [getBlockNumber_congr ht.map call.key]
      exact haway.imp_right fun h => h call (List.mem_append_left _ hcall)
    have hrun : Along (step disk) (fun _ call => call ∈ bs) (s.del disk k timing).1 bs :=
      along_of_forall (fun _ ha _ => ha) _
    have hend := exec_invariant hstep bs hdeleted hrun
    exact hend.get (getBlockNumber_congr hend.map k)

end Run

/-- A delete sticks, for any state, any order of the two threads and any later calls, if and only if no
later call switches to another block or the block shows no value for the key, the list that the
calling thread's `delhander` meets is the one of the block or lacks the key, and no `delhander` of a
calling thread runs inside the load it has submitted. -/
theorem sticks_iff (disk : Disk) (s : ReadSide) (k : Int32) (timing : Timing) (calls : List ReadCall)
    (hb : s.fi.getBlockNumber k ≠ noBlock) :
    Sticks disk s k timing calls ↔
      StaysAway disk s k calls ∧ s.MeetsOwn k timing ∧
        s.Apart (.del k timing) ∧ Along (step disk) Apart (s.del disk k timing).1 calls := by
  obtain ⟨hle, hraces⟩ := exec_races disk (s.del disk k timing).1 calls
  have hunraced : (exec (step disk) (s.del disk k timing).1 calls).races = s.races ↔
      s.Apart (.del k timing) ∧ Along (step disk) Apart (s.del disk k timing).1 calls := by
    rw [← hraces]
    rcases del_races s disk k timing with ⟨hapart, he⟩ | ⟨hnot, he⟩
    · rw [he]
      exact ⟨fun h => ⟨hapart, h⟩, And.right⟩
    · exact iff_of_false (by omega) fun h => hnot h.1
  rw [← gone_iff timing hb, ← own_iff timing hb, ← hunraced]
  exact ⟨fun h => ⟨h.gone, h.own, h.unraced⟩, fun h => ⟨h.1, h.2.1, h.2.2⟩⟩

/-- Blocks 1 and 2, with a key each. -/
def twoBlocks : Disk := fun b =>
  if b = 1 then some (SortedMap.empty.insert 5 [97])
  else if b = 2 then some (SortedMap.empty.insert 7 [98])
  else none

/-- Nothing is loaded yet. -/
def unread : ReadSide := ⟨Cache.new, ((FileInfo.new []).addKeyBlockMapping 5 1).addKeyBlockMapping 7 2, noBlock, [], 0⟩

theorem sticks_iff_unread : Sticks twoBlocks unread 5 .afterLoad [.get 7] ↔
    StaysAway twoBlocks unread 5 [.get 7] ∧ unread.MeetsOwn 5 .afterLoad ∧
      unread.Apart (.del 5 .afterLoad) ∧ Along (step twoBlocks) Apart (unread.del twoBlocks 5 .afterLoad).1 [.get 7] :=
  sticks_iff twoBlocks unread 5 .afterLoad [.get 7] (by decide)

/-- DEL 5 answers `true`; then GET 7 loads block 2, and GET 5 finds the value in block 1 again. -/
theorem deleted_value_returns : ¬Sticks twoBlocks unread 5 .afterLoad [.get 7] ∧
    (unread.del twoBlocks 5 .afterLoad).2 = true ∧
      ((exec (step twoBlocks) (unread.del twoBlocks 5 .afterLoad).1 [.get 7]).get twoBlocks 5).2 = [97] := by
  have hfound : ((exec (step twoBlocks) (unread.del twoBlocks 5 .afterLoad).1 [.get 7]).get twoBlocks 5).2 =
      [97] := by decide +kernel
  refine ⟨?_, by decide +kernel, hfound⟩
  intro h
  have hgone := h.gone [.get 7] (List.prefix_refl _)
  rw [hfound] at hgone
  cases hgone

end ReadSide

end KVStorage

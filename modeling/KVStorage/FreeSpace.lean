import KVStorage.Metering

/-!
# The free space of the data blocks

Two writers set it: a flush, to what `put` or the signal handler computed from
`currentSize`, and `delhander` with flag 1, to the size of the node it erased. It is
compared with the nodes that each block stores and that no such delete has erased.
`put` leaves out the node that it has just added, so of the flushes only the one of the
signal handler records the right size.
-/

namespace KVStorage

set_option autoImplicit false

open Runs

namespace FileInfo

variable {i : Fin NUM_BLOCKS}

theorem setFreeSpace_index (fi : FileInfo) (j : Fin NUM_BLOCKS) (freeSpace : SizeT) (i : Fin NUM_BLOCKS) :
    (fi.setFreeSpace j freeSpace).blockIndexTable i =
      if i = j then { fi.blockIndexTable i with freeSpace := freeSpace } else fi.blockIndexTable i := by
  by_cases hi : i = j
  · subst hi
    rw [if_pos rfl]
    exact Function.update_self _ _ _
  · rw [if_neg hi]
    exact Function.update_of_ne hi _ _

theorem updateBlockInfo_index (fi : FileInfo) (b freeSpace : SizeT) (i : Fin NUM_BLOCKS) :
    (fi.updateBlockInfo b freeSpace).blockIndexTable i =
      if i.val = b.toNat then { fi.blockIndexTable i with freeSpace := freeSpace } else fi.blockIndexTable i := by
  unfold updateBlockInfo
  split
  case isTrue h => simp only [setFreeSpace_index, Fin.ext_iff]
  case isFalse h =>
    have hval : i.val ≠ b.toNat := fun he => h (he ▸ i.isLt)
    rw [if_neg hval]

theorem addKeyBlockMapping_index (fi : FileInfo) (key : Int32) (b : SizeT) (hi : i ≠ block0) :
    (fi.addKeyBlockMapping key b).blockIndexTable i = fi.blockIndexTable i := by
  unfold addKeyBlockMapping
  split
  · rfl
  · exact Function.update_of_ne hi _ _

theorem getFreeBlock_index (fi : FileInfo) : fi.getFreeBlock.1.blockIndexTable = fi.blockIndexTable := by
  unfold getFreeBlock
  split <;> rfl

theorem writeToBlock0_index (fi : FileInfo) (hi : i ≠ block0) :
    fi.writeToBlock0.1.blockIndexTable i = fi.blockIndexTable i :=
  Function.update_of_ne hi _ _

theorem getFreeBlock_usage (fi : FileInfo) (hi : fi.blockUsageTable i = true) :
    fi.getFreeBlock.1.blockUsageTable i = true := by
  unfold getFreeBlock
  split
  case h_1 j _ =>
    by_cases hij : i = j
    · rw [hij]
      exact Function.update_self _ _ _
    · rw [← hi]
      exact Function.update_of_ne hij _ _
  case h_2 => exact hi

theorem getFreeBlock_fresh (fi : FileInfo) (hi : i.val = fi.getFreeBlock.2.toNat) :
    fi.blockUsageTable i = false := by
  have hlt : i.val < 16 := i.isLt
  by_cases hb : fi.getFreeBlock.2 = noBlock
  · rw [hb, noBlock_toNat] at hi
    omega
  · obtain ⟨hblock, hfree, _⟩ := getFreeBlock_spec hb
    rw [← Bool.not_eq_true]
    intro hused
    refine hfree ⟨hblock, ?_⟩
    rwa [← show i = ⟨_, hblock⟩ from Fin.ext hi]

end FileInfo

/-- A part of a flush sets the entry of its block when it writes it. -/
theorem Store.flushPart_index (s : Store) (f : Flush) {i : Fin NUM_BLOCKS} (hi : i ≠ FileInfo.block0) :
    (s.flushPart f.task f.phase).1.fi.blockIndexTable i =
      if f.phase = .serialize ∧ i.val = f.task.freeBlock.toNat then
        { s.fi.blockIndexTable i with freeSpace := f.task.freeSpace }
      else s.fi.blockIndexTable i := by
  obtain ⟨t, p⟩ := f
  cases p with
  | enter =>
    simp only [flushPart]
    split <;> rfl
  | mapping key? =>
    cases hnext : s.write.RWcache.nextKey key? with
    | none => simp only [flushPart_last hnext, reduceCtorEq, false_and, if_false]
    | some key =>
      rw [flushPart_next hnext]
      exact FileInfo.addKeyBlockMapping_index _ _ _ hi
  | serialize =>
    simp only [true_and]
    exact FileInfo.updateBlockInfo_index _ _ _ _
  | clear => rfl

theorem Store.flushPart_usage (s : Store) (t : FlushTask) (p : FlushPhase) :
    (s.flushPart t p).1.fi.blockUsageTable = s.fi.blockUsageTable := by
  cases p with
  | enter =>
    simp only [flushPart]
    split <;> rfl
  | mapping p =>
    simp only [flushPart]
    split
    · rfl
    · exact FileInfo.addKeyBlockMapping_usage _ _ _
  | serialize => exact FileInfo.updateBlockInfo_usage _ _ _
  | clear => rfl

theorem Server.run_index {s s' : Server} {w : Fin POOL_THREADS} {flips : Fin level → Bool}
    (hs : s.run w flips = some s') : s'.store.fi.blockIndexTable = s.store.fi.blockIndexTable := by
  obtain ⟨task, _, _, ⟨key, value, _, rfl⟩ | ⟨key, _, rfl⟩ | ⟨key, _, rfl⟩⟩ := Server.run_cases hs
  · change ((s.record task).runPut key value flips).store.fi.blockIndexTable = _
    rcases (s.record task).runPut_cases key value flips with ⟨hfi, _⟩ | ⟨hfi, _⟩
    · rw [hfi]
      rfl
    · rw [hfi, FileInfo.getFreeBlock_index]
      rfl
  · rfl
  · change ((s.record task).runDel key).store.fi.blockIndexTable = _
    rw [Server.runDel_fi]
    rfl

/-! ## The tables of the image -/

namespace Server

variable {s s' : Server} {a : Act}

/-- No block is given back. -/
theorem step_usage (hs : s.step a = some s') {i : Fin NUM_BLOCKS} (hi : s.store.fi.blockUsageTable i = true) :
    s'.store.fi.blockUsageTable i = true := by
  cases step_change hs with
  | quiet hq => rwa [hq.fi]
  | put _ _ _ hq =>
    rw [hq.fi]
    rcases runPut_cases _ _ _ _ with ⟨hfi, _⟩ | ⟨hfi, _⟩
    · rwa [hfi]
    · rw [hfi]
      exact FileInfo.getFreeBlock_usage _ hi
  | get _ _ _ hq => rwa [hq.fi]
  | del _ _ _ hq => rwa [hq.fi, runDel_fi]
  | flush _ _ hq =>
    rw [hq.fi]
    exact (congrFun (Store.flushPart_usage _ _ _) i).trans hi
  | sigint hsig =>
    obtain ⟨_, rfl⟩ := sigint_cases hsig
    exact hi
  | handle hhandle =>
    cases handle_cases hhandle with
    | wait => exact hi
    | alloc => exact FileInfo.getFreeBlock_usage _ hi
    | flush => exact (congrFun (Store.flushPart_usage _ _ _) i).trans hi
    | image => exact hi

/-- Only the last step of the signal handler writes block 0. -/
theorem step_image (hs : s.step a = some s') :
    s'.store.image = s.store.image ∨
      a = .handle ∧ s.handler = .image ∧ s' = { s with store := s.store.writeToBlock0, handler := .done } := by
  cases step_change hs with
  | quiet hq => exact Or.inl hq.image
  | put _ _ _ hq | get _ _ _ hq | del _ _ _ hq => exact Or.inl hq.image
  | flush _ _ hq => exact Or.inl (hq.image.trans Store.flushPart_image)
  | sigint hsig =>
    obtain ⟨_, rfl⟩ := sigint_cases hsig
    exact Or.inl rfl
  | handle hhandle =>
    cases handle_cases hhandle with
    | wait | alloc => exact Or.inl rfl
    | flush => exact Or.inl Store.flushPart_image
    | image hh => exact Or.inr ⟨rfl, hh, rfl⟩

end Server

/-! ## The ledger -/

/-- A `delhander` with flag 1 that is still to come, of `del` itself or of the load it submitted. -/
structure PendingDelete where
  key : Int32
  block : SizeT
  loaded : Bool

/-- The server, with what its data blocks store. -/
structure Ledger where
  server : Server
  deletes : List PendingDelete
  /-- The nodes that the last flush wrote and that `del` with flag 1 has not erased. -/
  kept : Fin NUM_BLOCKS → Option Contents
  /-- The blocks that have lost nodes since block 0 was last written. -/
  unsaved : Fin NUM_BLOCKS → Bool

inductive LedgerAct where
  | server (a : Act)
  /-- `Cache::del` with flag 1, up to its `delhander`. -/
  | delRead (key : Int32)
  /-- An IO worker runs the load of a delete. -/
  | load (i : Nat)
  | erase (i : Nat)
  /-- A new process starts on the file. -/
  | restart (createTime : Bytes)

namespace Ledger

def start (createTime : Bytes) : Ledger where
  server := Server.boot (Store.start createTime)
  deletes := []
  kept _ := none
  unsaved _ := false

def setStore (l : Ledger) (store : Store) : Ledger := { l with server := { l.server with store := store } }

/-- The flush whose `serialize` an action runs. -/
def serializes (l : Ledger) : LedgerAct → Option FlushTask
  | .server (.runIo w) =>
    match l.server.ioWorkers w, l.server.lock with
    | .flush, some ⟨task, .serialize⟩ => some task
    | _, _ => none
  | .server .handle =>
    match l.server.handler with
    | .flush ⟨task, .serialize⟩ => some task
    | _ => none
  | _ => none

/-- The action writes an image to block 0. -/
def saves (l : Ledger) : Act → Bool
  | .handle => l.server.handler = .image ∧ l.server.store.fi.writeToBlock0.2.isSome
  | _ => false

/-- The ledger of a step of the server: a flush stores the nodes of the write cache. -/
def record (l : Ledger) (server : Server) (a : Act) : Ledger where
  server := server
  deletes := l.deletes
  kept i :=
    match l.serializes (.server a) with
    | some task => if i.val = task.freeBlock.toNat then some l.server.store.write.RWcache.contents else l.kept i
    | none => l.kept i
  unsaved i := l.unsaved i && !l.saves a

/-- `del` with flag 1; where the block is another, the load that it submits deletes once more. -/
def delRead (l : Ledger) (key : Int32) : Option Ledger :=
  let store := l.server.store
  let blockNumber := store.fi.getBlockNumber key
  if blockNumber ≠ noBlock then
    let load := if blockNumber ≠ store.read.currentReadBlock then [⟨key, blockNumber, false⟩] else []
    let l := l.setStore { store with read := { store.read with currentReadBlock := blockNumber } }
    some { l with deletes := l.deletes ++ ⟨key, blockNumber, true⟩ :: load }
  else none

def delhander (l : Ledger) (key : Int32) (block : SizeT) : Ledger :=
  let store := l.server.store
  let r := store.read.delhander store.fi key (some block)
  let erased (i : Fin NUM_BLOCKS) : Bool :=
    i.val = block.toNat ∧ (store.read.RWcache.contents.lookup key).isSome
  { l.setStore { store with read := r.1, fi := r.2 } with
    kept := fun i => if erased i then (l.kept i).map fun m => m.erase key else l.kept i
    unsaved := fun i => l.unsaved i || erased i && ((l.kept i).bind (·.lookup key)).isSome }

def step (l : Ledger) : LedgerAct → Option Ledger
  | .server a => (l.server.step a).map fun server => l.record server a
  | .delRead key => l.delRead key
  | .load i =>
    match l.deletes[i]? with
    | some ⟨key, block, false⟩ =>
      let store := l.server.store
      let l := l.setStore { store with read := (store.read.loadFromDisk store.disk block).1 }
      some { l with deletes := l.deletes.set i ⟨key, block, true⟩ }
    | _ => none
  | .erase i =>
    match l.deletes[i]? with
    | some ⟨key, block, true⟩ => some ({ l with deletes := l.deletes.eraseIdx i }.delhander key block)
    | _ => none
  | .restart createTime =>
    (l.server.store.reload createTime).map fun store =>
      { start createTime with
        server := Server.boot store
        kept := fun i => if store.fi.blockUsageTable i then l.kept i else none }

def freeSpace (l : Ledger) (i : Fin NUM_BLOCKS) : SizeT := (l.server.store.fi.blockIndexTable i).freeSpace

/-- The free space and the nodes of every used data block that was flushed make up the block. -/
def FreeSpaceRight (l : Ledger) : Prop :=
  ∀ i, i ≠ FileInfo.block0 → l.server.store.fi.blockUsageTable i = true →
    ∀ m ∈ l.kept i, (l.freeSpace i).toNat + accounted m = BLOCK_SIZE.toNat

instance decidableFreeSpaceRight (l : Ledger) : Decidable l.FreeSpaceRight :=
  inferInstanceAs (Decidable (∀ _, _ → _ → ∀ m ∈ _, _))

/-- No IO task is pending. -/
def IoIdle (l : Ledger) : Prop :=
  l.server.lock = none ∧ l.deletes.isEmpty = true ∧
    ∀ w : Fin IO_THREADS, l.server.ioWorkers w = .idle ∧ (l.server.ioTasks (UInt64.ofNat w)).isEmpty = true

instance decidableIoIdle (l : Ledger) : Decidable l.IoIdle := inferInstanceAs (Decidable (_ ∧ _ ∧ ∀ _, _))

/-- The block whose entry an action sets. -/
def target (l : Ledger) (a : LedgerAct) : Option SizeT :=
  match a with
  | .erase i => l.deletes[i]?.map (·.block)
  | _ => (l.serializes a).map (·.freeBlock)

/-- The entries of all other data blocks are as before, unless the tables are read back. -/
def OthersUntouched (l : Ledger) (a : LedgerAct) : Prop :=
  match a with
  | .restart _ => True
  | _ => ∀ l' ∈ l.step a, ∀ i, i ≠ FileInfo.block0 → (∀ b ∈ l.target a, i.val ≠ b.toNat) →
      l'.server.store.fi.blockIndexTable i = l.server.store.fi.blockIndexTable i

/-- Where `delhander` finds the key, the block is full and has the node with the same capacity; or the block
has lost the key before, and its entry is the size that it gets again. -/
def Erasable (l : Ledger) (key : Int32) (block : SizeT) : Prop :=
  ∀ old ∈ l.server.store.read.RWcache.contents.lookup key, ∀ j : Fin NUM_BLOCKS, j.val = block.toNat →
    ∀ m ∈ l.kept j,
      match m.lookup key with
      | some node => l.freeSpace j = 0 ∧ old.capacity = node.capacity
      | none => l.freeSpace j = Skiplist.nodeSize old.capacity

/-- What an action has to meet: requests are measured, nodes are deleted from full blocks only, and no
process starts on an image that is older than such a delete. -/
def Sparing (l : Ledger) : LedgerAct → Prop
  | .server a => l.server.Measures a
  | .erase i => ∀ d ∈ l.deletes[i]?, l.Erasable d.key d.block
  | .restart createTime => ∀ fi ∈ reopen createTime l.server.store.image, ∀ i, fi.blockUsageTable i = true →
      (l.kept i).isSome → l.unsaved i = false
  | .delRead _ | .load _ => True

instance decidableErasable (l : Ledger) (key : Int32) (block : SizeT) : Decidable (l.Erasable key block) := by
  have (old : CppString) (j : Fin NUM_BLOCKS) (m : Contents) : Decidable (match m.lookup key with
      | some node => l.freeSpace j = 0 ∧ old.capacity = node.capacity
      | none => l.freeSpace j = Skiplist.nodeSize old.capacity) := by
    split <;> infer_instance
  unfold Erasable
  infer_instance

instance decidableSparing (l : Ledger) : DecidablePred l.Sparing
  | .server a => l.server.decidableMeasures a
  | .erase _ | .restart _ => decidableOptional _
  | .delRead _ | .load _ => isTrue trivial

/-! ## What is kept -/

/-- The tables `fi` agree with those in memory on every block they mark used, unless a delete came
since, and the block that the signal handler is about to write is none of them. -/
structure Backed (l : Ledger) (fi : FileInfo) : Prop where
  used : ∀ i, fi.blockUsageTable i = true → l.server.store.fi.blockUsageTable i = true
  entries : ∀ i, i ≠ FileInfo.block0 → fi.blockUsageTable i = true → (l.kept i).isSome → l.unsaved i = false →
    (fi.blockIndexTable i).freeSpace = l.freeSpace i
  fresh : ∀ f, l.server.handler = .flush f → l.server.handler.holdsSize = true →
    ∀ i : Fin NUM_BLOCKS, i.val = f.task.freeBlock.toNat → fi.blockUsageTable i = false

/-- The entries agree with the nodes, in memory and in what a restart finds. -/
structure Balanced (l : Ledger) : Prop where
  entries : ∀ i, i ≠ FileInfo.block0 → ∀ m ∈ l.kept i, (l.freeSpace i).toNat + accounted m = BLOCK_SIZE.toNat
  metered : l.server.Metered
  backed : ∀ createTime fi, reopen createTime l.server.store.image = some fi → l.Backed fi

variable {l l' : Ledger} {server : Server} {a : Act} {fi : FileInfo}

theorem start_balanced (createTime : Bytes) : (start createTime).Balanced where
  entries _ _ _ hm := nomatch hm
  metered := Server.boot_metered rfl
  backed _ _ hopen := by
    rw [← Option.some.inj hopen]
    exact ⟨fun _ hi => hi, nofun, nofun⟩

/-! ## Steps of the server -/

theorem serializes_flush {task : FlushTask} {p : FlushPhase} {w : Fin IO_THREADS}
    (hw : l.server.ioWorkers w = .flush) (hlock : l.server.lock = some ⟨task, p⟩) :
    l.serializes (.server (.runIo w)) = if p = .serialize then some task else none := by
  simp only [serializes, hw, hlock]
  cases p <;> rfl

theorem serializes_handle {task : FlushTask} {p : FlushPhase} (hh : l.server.handler = .flush ⟨task, p⟩) :
    l.serializes (.server .handle) = if p = .serialize then some task else none := by
  simp only [serializes, hh]
  cases p <;> rfl

/-- The entry of a block when a flush is serialized, or none is. -/
def entryAfter (l : Ledger) (task : Option FlushTask) (i : Fin NUM_BLOCKS) : BlockIndexTable :=
  match task with
  | some task =>
    if i.val = task.freeBlock.toNat then
      { l.server.store.fi.blockIndexTable i with freeSpace := task.freeSpace }
    else l.server.store.fi.blockIndexTable i
  | none => l.server.store.fi.blockIndexTable i

theorem flushPart_entry (l : Ledger) (f : Flush) {i : Fin NUM_BLOCKS} (hi : i ≠ FileInfo.block0) :
    (l.server.store.flushPart f.task f.phase).1.fi.blockIndexTable i =
      l.entryAfter (if f.phase = .serialize then some f.task else none) i := by
  rw [Store.flushPart_index _ f hi]
  by_cases hp : f.phase = .serialize
  · simp only [hp, true_and, if_true, entryAfter]
  · simp only [hp, false_and, if_false, entryAfter]

theorem server_index (hs : l.server.step a = some server) {i : Fin NUM_BLOCKS} (hi : i ≠ FileInfo.block0) :
    server.store.fi.blockIndexTable i = l.entryAfter (l.serializes (.server a)) i := by
  cases a with
  | submit client op =>
    obtain ⟨task, _, _, _, rfl⟩ := Server.submit_cases hs
    rfl
  | pop w =>
    obtain ⟨task, rest, _, _, rfl⟩ := Server.pop_cases hs
    rfl
  | run w flips => exact congrFun (Server.run_index hs) i
  | lookup w =>
    rw [(Server.lookup_quiet hs).fi]
    rfl
  | read w =>
    rw [(Server.read_quiet hs).fi]
    rfl
  | popIo w =>
    obtain ⟨task, rest, _, _, rfl⟩ := Server.popIo_cases hs
    rfl
  | runIo w =>
    rcases Server.runIo_cases hs with
      ⟨f, hw, hlock, ⟨_, rfl⟩ | ⟨_, rfl⟩⟩ | ⟨key, block, hw, rfl⟩ | ⟨key, block, hw, rfl⟩
    · rw [serializes_flush hw hlock]
      exact l.flushPart_entry f hi
    · rw [serializes_flush hw hlock]
      exact l.flushPart_entry f hi
    · simp [serializes, hw, Server.setIoWorker, entryAfter]
    · simp [serializes, hw, Server.setIoWorker, entryAfter]
  | sigint =>
    obtain ⟨_, rfl⟩ := Server.sigint_cases hs
    rfl
  | handle =>
    cases Server.handle_cases hs with
    | wait hh _ => simp only [serializes, hh, entryAfter]
    | alloc hh =>
      simp only [serializes, hh]
      exact congrFun (FileInfo.getFreeBlock_index _) i
    | flush hh =>
      rw [serializes_handle hh]
      exact l.flushPart_entry _ hi
    | image hh =>
      simp only [serializes, hh]
      exact FileInfo.writeToBlock0_index _ hi

/-- While no put flushes, only the signal handler serializes. -/
theorem serializes_handler (hlock : l.server.lock = none) {task : FlushTask}
    (hf : l.serializes (.server a) = some task) : l.server.handler = .flush ⟨task, .serialize⟩ := by
  cases a with
  | runIo w =>
    simp only [serializes, hlock] at hf
    split at hf
    case h_1 heq => cases heq
    case h_2 => cases hf
  | handle =>
    simp only [serializes] at hf
    split at hf
    case h_1 hh =>
      cases hf
      exact hh
    case h_2 => cases hf
  | submit | pop | run | lookup | read | popIo | sigint => cases hf

/-- A step of the server leaves a block alone or writes the nodes of the write cache to it. -/
theorem record_kept (hs : l.server.step a = some server) {i : Fin NUM_BLOCKS} (hi : i ≠ FileInfo.block0) :
    (l.record server a).kept i = l.kept i ∧ (l.record server a).freeSpace i = l.freeSpace i ∨
      ∃ task, l.serializes (.server a) = some task ∧ i.val = task.freeBlock.toNat ∧
        (l.record server a).kept i = some l.server.store.write.RWcache.contents ∧
        (l.record server a).freeSpace i = task.freeSpace := by
  simp only [record, freeSpace, server_index hs hi, entryAfter]
  cases hf : l.serializes (.server a) with
  | none => exact Or.inl ⟨rfl, rfl⟩
  | some task =>
    by_cases hb : i.val = task.freeBlock.toNat
    · exact Or.inr ⟨task, rfl, hb, if_pos hb, congrArg BlockIndexTable.freeSpace (if_pos hb)⟩
    · exact Or.inl ⟨if_neg hb, congrArg BlockIndexTable.freeSpace (if_neg hb)⟩

theorem Balanced.server_entries (h : l.Balanced) (hs : l.server.step a = some server) (i : Fin NUM_BLOCKS)
    (hi : i ≠ FileInfo.block0) :
    ∀ m ∈ (l.record server a).kept i,
      ((l.record server a).freeSpace i).toNat + accounted m = BLOCK_SIZE.toNat := by
  intro m hm
  rcases record_kept hs hi with ⟨hkept, hfree⟩ | ⟨task, hf, _, hkept, hfree⟩
  · rw [hkept] at hm
    rw [hfree]
    exact h.entries i hi m hm
  · rw [hkept] at hm
    cases hm
    have hh := serializes_handler h.metered.unlocked hf
    rw [hfree, h.metered.handler _ hh (by rw [hh]; rfl)]
    exact flushed_right (h.metered.exact.le_cacheSize h.metered.bounded) h.metered.exact.symm

/-- The block of the signal handler is free until it is handed out. -/
theorem Backed.server_fresh (h : l.Backed fi) (hs : l.server.step a = some server) {f : Flush}
    (hf : server.handler = .flush f) (hholds : server.handler.holdsSize = true) {i : Fin NUM_BLOCKS}
    (hi : i.val = f.task.freeBlock.toNat) : fi.blockUsageTable i = false := by
  have hsame : server.handler = l.server.handler → fi.blockUsageTable i = false := by
    intro hhandler
    rw [hhandler] at hf hholds
    exact h.fresh f hf hholds i hi
  cases Server.step_change hs with
  | quiet hq => exact hsame hq.handler
  | put _ _ _ hq | get _ _ _ hq | del _ _ _ hq | flush _ _ hq => exact hsame hq.handler
  | sigint hsig =>
    obtain ⟨_, rfl⟩ := Server.sigint_cases hsig
    cases hf
  | handle hhandle =>
    cases Server.handle_cases hhandle with
    | wait | image => cases hf
    | alloc =>
      rw [← Handler.flush.inj hf] at hi
      rw [← Bool.not_eq_true]
      intro hused
      have hfree := FileInfo.getFreeBlock_fresh l.server.store.fi hi
      rw [h.used i hused] at hfree
      cases hfree
    | @flush g hh =>
      have hlast : g.phase ≠ .clear := by
        intro hp
        simp only [Server.handleFlush, hp, Store.flushPart] at hf
        cases hf
      simp only [Server.handleFlush] at hf
      split at hf
      · cases hf
      · rw [← Handler.flush.inj hf] at hi
        exact h.fresh g hh (by rw [hh]; exact decide_eq_true hlast) i hi

theorem Backed.server_step (h : l.Backed fi) (hlock : l.server.lock = none) (hs : l.server.step a = some server)
    (hsaves : l.saves a = false) : (l.record server a).Backed fi where
  used i hi := Server.step_usage hs (h.used i hi)
  entries i hi hused hkept hunsaved := by
    rcases record_kept hs hi with ⟨hsame, hfree⟩ | ⟨task, hf, hb, _⟩
    · rw [hsame] at hkept
      rw [hfree]
      simp only [record, hsaves, Bool.not_false, Bool.and_true] at hunsaved
      exact h.entries i hi hused hkept hunsaved
    · have hh := serializes_handler hlock hf
      have hfree := h.fresh _ hh (by rw [hh]; rfl) i hb
      rw [hused] at hfree
      cases hfree
  fresh f hf hholds i hi := h.server_fresh hs hf hholds hi

theorem Balanced.server_backed (h : l.Balanced) (hs : l.server.step a = some server) (createTime : Bytes)
    {fi : FileInfo} (hopen : reopen createTime server.store.image = some fi) : (l.record server a).Backed fi := by
  have hsame : server.store.image = l.server.store.image → l.saves a = false → (l.record server a).Backed fi := by
    intro himage hsaves
    rw [himage] at hopen
    exact (h.backed createTime fi hopen).server_step h.metered.unlocked hs hsaves
  cases hsaves : l.saves a with
  | false =>
    rcases Server.step_image hs with himage | ⟨rfl, hh, rfl⟩
    · exact hsame himage hsaves
    · refine hsame ?_ hsaves
      simp only [saves, hh, true_and, decide_eq_false_iff_not, Bool.not_eq_true, Option.isSome_eq_false_iff,
        Option.isNone_iff_eq_none] at hsaves
      rw [Store.writeToBlock0, savedImage, hsaves, Option.none_or]
  | true =>
    cases a with
    | handle =>
      simp only [saves, decide_eq_true_eq] at hsaves
      obtain ⟨hh, hsome⟩ := hsaves
      obtain ⟨info, hinfo⟩ := Option.isSome_iff_exists.mp hsome
      obtain rfl : { l.server with store := l.server.store.writeToBlock0, handler := .done } = server := by
        simpa only [Server.step, Server.handle, hh, Option.some.injEq] using hs
      rw [Store.writeToBlock0, savedImage, hinfo, Option.some_or, FileInfo.writeToBlock0_image hinfo,
        reopen_toProto, Option.some.injEq] at hopen
      rw [← hopen]
      exact ⟨fun _ hi => hi, fun _ _ _ _ _ => rfl, fun _ hf => nomatch hf⟩
    | submit | pop | run | lookup | read | popIo | runIo | sigint => cases hsaves

theorem Balanced.server_step (h : l.Balanced) (hm : l.server.Measures a) (hs : l.server.step a = some server) :
    (l.record server a).Balanced where
  entries := h.server_entries hs
  metered := h.metered.step hm hs
  backed createTime _ hopen := h.server_backed hs createTime hopen

/-! ## Deletes and restarts -/

theorem Balanced.setRead (h : l.Balanced) (read : Cache) :
    (l.setStore { l.server.store with read := read }).Balanced where
  entries := h.entries
  metered := h.metered.congr rfl rfl rfl
  backed createTime fi hopen :=
    have hfi := h.backed createTime fi hopen
    ⟨hfi.used, hfi.entries, hfi.fresh⟩

theorem Balanced.setDeletes (h : l.Balanced) (deletes : List PendingDelete) :
    ({ l with deletes := deletes } : Ledger).Balanced where
  entries := h.entries
  metered := h.metered
  backed createTime fi hopen :=
    have hfi := h.backed createTime fi hopen
    ⟨hfi.used, hfi.entries, hfi.fresh⟩

theorem delhander_index (l : Ledger) (key : Int32) (block : SizeT) (i : Fin NUM_BLOCKS) :
    (l.delhander key block).server.store.fi.blockIndexTable i =
      match l.server.store.read.RWcache.contents.lookup key with
      | some old =>
        if i.val = block.toNat then
          { l.server.store.fi.blockIndexTable i with freeSpace := Skiplist.nodeSize old.capacity }
        else l.server.store.fi.blockIndexTable i
      | none => l.server.store.fi.blockIndexTable i := by
  simp only [delhander, setStore, Cache.delhander, ValidList.erase_size]
  cases l.server.store.read.RWcache.contents.lookup key with
  | none => rfl
  | some old => exact FileInfo.updateBlockInfo_index _ _ _ _

theorem delhander_usage (l : Ledger) (key : Int32) (block : SizeT) :
    (l.delhander key block).server.store.fi.blockUsageTable = l.server.store.fi.blockUsageTable := by
  simp only [delhander, setStore, Cache.delhander]
  split
  · rfl
  · exact FileInfo.updateBlockInfo_usage _ _ _

/-- `delhander` leaves a block alone, or it takes the key from the block and overwrites its entry. -/
theorem delhander_cases (l : Ledger) (key : Int32) (block : SizeT) (i : Fin NUM_BLOCKS) :
    (l.delhander key block).kept i = l.kept i ∧ (l.delhander key block).freeSpace i = l.freeSpace i ∧
        (l.delhander key block).unsaved i = l.unsaved i ∨
      ∃ old, l.server.store.read.RWcache.contents.lookup key = some old ∧ i.val = block.toNat ∧
        (l.delhander key block).kept i = (l.kept i).map (fun m => m.erase key) ∧
        (l.delhander key block).freeSpace i = Skiplist.nodeSize old.capacity ∧
        (l.delhander key block).unsaved i = (l.unsaved i || ((l.kept i).bind (·.lookup key)).isSome) := by
  rw [freeSpace, delhander_index]
  cases hold : l.server.store.read.RWcache.contents.lookup key with
  | none => exact Or.inl ⟨by simp [delhander, hold], rfl, by simp [delhander, hold]⟩
  | some old =>
    by_cases hb : i.val = block.toNat
    · exact Or.inr ⟨old, rfl, hb, by simp [delhander, hold, hb], by simp only [if_pos hb],
        by simp [delhander, hold, hb]⟩
    · exact Or.inl ⟨by simp [delhander, hb], by simp only [if_neg hb]; rfl, by simp [delhander, hb]⟩

/-- A full block that loses a node has the size of the node free. -/
theorem erased_right {m : Contents} {key : Int32} {node : CppString} (hlook : m.lookup key = some node)
    (hm : accounted m = BLOCK_SIZE.toNat) :
    (Skiplist.nodeSize node.capacity).toNat + accounted (m.erase key) = BLOCK_SIZE.toNat := by
  have herase := accounted_erase m key
  rw [hlook, Option.map_some, Option.getD_some] at herase
  rw [blockSize_toNat] at hm ⊢
  rw [Cache.nodeSize_toNat (by omega)]
  omega

theorem accounted_erase_absent {m : Contents} {key : Int32} (hlook : m.lookup key = none) :
    accounted (m.erase key) = accounted m := by
  have herase := accounted_erase m key
  rwa [hlook, Option.map_none, Option.getD_none, Nat.add_zero] at herase

theorem Balanced.delhander (h : l.Balanced) {key : Int32} {block : SizeT} (he : l.Erasable key block) :
    (l.delhander key block).Balanced where
  entries i hi m hm := by
    rcases l.delhander_cases key block i with ⟨hkept, hfree, _⟩ | ⟨old, hold, hb, hkept, hfree, _⟩
    · rw [hkept] at hm
      rw [hfree]
      exact h.entries i hi m hm
    · rw [hkept] at hm
      obtain ⟨m, hmem, rfl⟩ := Option.map_eq_some_iff.mp hm
      have hentry := h.entries i hi m hmem
      have herasable := he old hold i hb m hmem
      rw [hfree]
      cases hlook : m.lookup key with
      | some node =>
        rw [hlook] at herasable
        obtain ⟨hfull, hcap⟩ := herasable
        rw [hfull, UInt64.toNat_zero, Nat.zero_add] at hentry
        rw [hcap]
        exact erased_right hlook hentry
      | none =>
        rw [hlook] at herasable
        rwa [accounted_erase_absent hlook, ← show l.freeSpace i = _ from herasable]
  metered := h.metered.congr rfl rfl rfl
  backed createTime fi hopen := by
    have hfi := h.backed createTime fi hopen
    refine ⟨?_, ?_, hfi.fresh⟩
    · rw [delhander_usage]
      exact hfi.used
    · intro i hi hused hkept' hunsaved'
      rcases l.delhander_cases key block i with ⟨hkept, hfree, hunsaved⟩ | ⟨old, hold, hb, hkept, hfree, hunsaved⟩
      · rw [hkept] at hkept'
        rw [hunsaved] at hunsaved'
        rw [hfree]
        exact hfi.entries i hi hused hkept' hunsaved'
      · -- The block has lost the key before, so the entry stays as it was.
        rw [hkept, Option.isSome_map] at hkept'
        rw [hunsaved, Bool.or_eq_false_iff] at hunsaved'
        obtain ⟨m, hm⟩ := Option.isSome_iff_exists.mp hkept'
        have hlook : m.lookup key = none := by simpa [hm] using hunsaved'.2
        have herasable := he old hold i hb m hm
        rw [hlook] at herasable
        rw [hfree, ← show l.freeSpace i = _ from herasable]
        exact hfi.entries i hi hused hkept' hunsaved'.1

theorem reopen_agree {image : Option InfoProto} {time time' : Bytes} {fi fi' : FileInfo}
    (hopen : reopen time image = some fi) (hopen' : reopen time' image = some fi') :
    fi'.blockUsageTable = fi.blockUsageTable ∧ fi'.blockIndexTable = fi.blockIndexTable := by
  cases image with
  | none =>
    cases hopen
    cases hopen'
    exact ⟨rfl, rfl⟩
  | some info =>
    rw [reopen_time time time', hopen', Option.some.injEq] at hopen
    rw [hopen]
    exact ⟨rfl, rfl⟩

theorem Balanced.restart (h : l.Balanced) {createTime : Bytes} {store : Store}
    (hr : l.Sparing (.restart createTime)) (hs : l.server.store.reload createTime = some store) :
    Balanced { start createTime with
      server := Server.boot store
      kept := fun i => if store.fi.blockUsageTable i then l.kept i else none } := by
  obtain ⟨fi, hopen, rfl⟩ := Option.map_eq_some_iff.mp hs
  have hfi := h.backed createTime fi hopen
  refine ⟨?_, Server.boot_metered rfl, ?_⟩
  · intro i hi m hm
    simp only at hm
    split at hm
    case isTrue hused =>
      have hold := h.entries i hi m hm
      have hkept : (l.kept i).isSome := Option.isSome_of_mem hm
      rw [← hfi.entries i hi hused hkept (hr fi hopen i hused hkept)] at hold
      exact hold
    case isFalse => cases hm
  · intro time fi' hopen'
    obtain ⟨husage, hindex⟩ := reopen_agree hopen hopen'
    refine ⟨?_, ?_, fun _ hf => nomatch hf⟩
    · rw [husage]
      exact fun _ hi => hi
    · rw [hindex]
      exact fun _ _ _ _ _ => rfl

theorem step_balanced {a : LedgerAct} (h : l.Balanced) (hr : l.Sparing a) (hs : l.step a = some l') :
    l'.Balanced := by
  cases a with
  | server a =>
    obtain ⟨server, hserver, rfl⟩ := Option.map_eq_some_iff.mp hs
    exact h.server_step hr hserver
  | delRead key =>
    simp only [step, delRead] at hs
    split at hs
    · rw [← Option.some.inj hs]
      exact (h.setRead _).setDeletes _
    · cases hs
  | load i =>
    simp only [step] at hs
    split at hs
    · rw [← Option.some.inj hs]
      exact (h.setRead _).setDeletes _
    · cases hs
  | erase i =>
    simp only [step] at hs
    split at hs
    case h_1 key block hi =>
      rw [← Option.some.inj hs]
      exact (h.setDeletes _).delhander (hr _ hi)
    case h_2 => cases hs
  | restart createTime =>
    obtain ⟨store, hstore, rfl⟩ := Option.map_eq_some_iff.mp hs
    exact h.restart hr hstore

theorem others_untouched (l : Ledger) (a : LedgerAct) : l.OthersUntouched a := by
  cases a with
  | server a =>
    intro l' hs i hi hother
    obtain ⟨server, hserver, rfl⟩ := Option.map_eq_some_iff.mp hs
    refine (server_index hserver hi).trans ?_
    simp only [target] at hother
    cases hf : l.serializes (.server a) with
    | none => rfl
    | some task => exact if_neg (hother task.freeBlock (by rw [hf]; rfl))
  | delRead key =>
    intro l' hs i hi hother
    simp only [step, delRead, Option.mem_def] at hs
    split at hs
    · rw [← Option.some.inj hs]
      rfl
    · cases hs
  | load j =>
    intro l' hs i hi hother
    simp only [step, Option.mem_def] at hs
    split at hs
    · rw [← Option.some.inj hs]
      rfl
    · cases hs
  | erase j =>
    intro l' hs i hi hother
    simp only [step, Option.mem_def] at hs
    split at hs
    case h_1 key block hj =>
      have hne : i.val ≠ block.toNat := hother block (by simp [target, hj])
      rw [← Option.some.inj hs, delhander_index]
      split
      · exact if_neg hne
      · rfl
    case h_2 => cases hs
  | restart createTime => trivial

/-- In every run, whatever the interleaving, the restarts and the deletes: where requests are measured, nodes
are deleted from full blocks only and no process starts on an image older than such a delete, every flushed
block has the free space that its nodes leave. No step of any run touches the entry of another data block. -/
theorem free_space_right (createTime : Bytes) (as : List LedgerAct) (h : Along step Sparing (start createTime) as) :
    (exec step (start createTime) as).FreeSpaceRight ∧ Along step OthersUntouched (start createTime) as := by
  have hbalanced : (exec step (start createTime) as).Balanced :=
    exec_invariant (fun _ _ _ => step_balanced) as (start_balanced createTime) h
  exact ⟨fun i hi _ => hbalanced.entries i hi, along_of_forall (fun a _ l => others_untouched l a) _⟩

/-- One client sends the requests and the first worker runs each before the next is sent. -/
def requests (ops : List Op) : List LedgerAct :=
  ops.flatMap fun op => [.server (.submit 0 op), .server (.pop 0), .server (.run 0 fun _ => true)]

/-- A key, a clean end and a restart, and a `del` of the key with flag 1 that has yet to erase it. -/
def savedKey : List LedgerAct :=
  requests [.put 1 [97]] ++ .server .sigint :: List.replicate 8 (.server .handle) ++
    [.restart [], .delRead 1, .erase 0, .load 0]

theorem free_space_right_saved :
    Along step Sparing (start []) savedKey ∧ (exec step (start []) savedKey).FreeSpaceRight ∧
      Along step OthersUntouched (start []) savedKey :=
  ⟨by decide +kernel, free_space_right [] savedKey (by decide +kernel)⟩

/-- An update that shrinks a value and the deletion of its key let `currentSize` wrap, so that the next put
flushes a single node. -/
def flushOfOne : List LedgerAct :=
  requests [.put 1 (List.replicate 100 97), .put 1 [98], .del 1, .put 2 [99]] ++
    .server (.popIo 0) :: List.replicate 5 (.server (.runIo 0))

/-- The flush of the put records more free space than the block has, and the delete the size of the node
it erased. -/
theorem free_space_wrong :
    ((exec step (start []) flushOfOne).IoIdle ∧ ¬(exec step (start []) flushOfOne).FreeSpaceRight ∧
        (exec step (start []) flushOfOne).freeSpace ⟨1, by decide⟩ = BLOCK_SIZE + 85) ∧
      (exec step (start []) (savedKey ++ [.erase 0])).IoIdle ∧
        ¬(exec step (start []) (savedKey ++ [.erase 0])).FreeSpaceRight ∧
        (exec step (start []) (savedKey ++ [.erase 0])).freeSpace ⟨1, by decide⟩ = 83 := by
  refine ⟨⟨?_, ?_, ?_⟩, ?_, ?_, ?_⟩ <;> decide +kernel

end Ledger

end KVStorage

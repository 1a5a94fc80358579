import KVStorage.Allotment
import KVStorage.Shutdown

/-!
# Lifetimes of the program

One start of the server after another on the same file. A clean restart comes after the
handler is done and the IO workers have nothing left to do; a crash may come at any time.
-/

namespace KVStorage

set_option autoImplicit false

open Runs

/-- The block a GET has found for its key and not yet submitted a load of. -/
def Worker.Found (fi : FileInfo) : Worker → Prop
  | .read (.miss key block) | .read (.submit key block) => fi.keyBlockMap.lookup key = some block
  | _ => True

/-- A load waits in the queue of the block its key is mapped to. -/
def IoTask.Found (fi : FileInfo) (queue : SizeT) : IoTask → Prop
  | .flush => True
  | .load key block => queue = block - 1 ∧ fi.keyBlockMap.lookup key = some block

def IoWorker.Found (fi : FileInfo) (queue : SizeT) : IoWorker → Prop
  | .load key block => queue = block - 1 ∧ fi.keyBlockMap.lookup key = some block
  | _ => True

namespace Server

/-- No IO worker has anything left to do. -/
def IoIdle (s : Server) : Prop :=
  ∀ w : Fin IO_THREADS, s.ioWorkers w = .idle ∧ (s.ioTasks (UInt64.ofNat w)).isEmpty

instance decidableIoIdle (s : Server) : Decidable s.IoIdle :=
  inferInstanceAs (Decidable (∀ _ : Fin IO_THREADS, _ ∧ _))

/-- The blocks whose flush returns in a step. -/
def returns (s : Server) : Act → List SizeT
  | .runIo w =>
    match s.ioWorkers w, s.lock with
    | .flush, some ⟨t, .clear⟩ => [t.freeBlock]
    | _, _ => []
  | .handle =>
    match s.handler with
    | .flush ⟨t, .clear⟩ => [t.freeBlock]
    | _ => []
  | _ => []

/-- Every load, wherever it is on its way, is of the block its key is mapped to. -/
structure Loads (s : Server) : Prop where
  workers : ∀ w, (s.workers w).Found s.store.fi
  ioTasks : ∀ q, ∀ task ∈ s.ioTasks q, task.Found s.store.fi q
  ioWorkers : ∀ w : Fin IO_THREADS, (s.ioWorkers w).Found s.store.fi (UInt64.ofNat w)

end Server

/-- The program that runs now, and the blocks whose flush has returned so far. -/
structure Life where
  server : Server
  returned : List SizeT

inductive LifeAct where
  | act (a : Act)
  | restart (createTime : Bytes)
  | crash (createTime : Bytes)

namespace Life

def start (createTime : Bytes) : Life := ⟨Server.boot (Store.start createTime), []⟩

def reboot (l : Life) (createTime : Bytes) : Option Life :=
  (l.server.store.reload createTime).map fun store => { l with server := Server.boot store }

def step (l : Life) : LifeAct → Option Life
  | .act a => (l.server.step a).map fun s => ⟨s, l.returned ++ l.server.returns a⟩
  | .restart createTime =>
    if l.server.handler = .done ∧ l.server.IoIdle then l.reboot createTime else none
  | .crash createTime => l.reboot createTime

end Life

section Found

variable {fi fi' : FileInfo} {q : SizeT}

theorem Worker.Found.mono {worker : Worker} (h : worker.Found fi)
    (hm : ∀ k b, fi.keyBlockMap.lookup k = some b → fi'.keyBlockMap.lookup k = some b) :
    worker.Found fi' := by
  cases worker with
  | read getter =>
    cases getter with
    | miss key block => exact hm key block h
    | submit key block => exact hm key block h
    | hit key block => trivial
    | returned => trivial
  | idle => trivial
  | run task => trivial
  | lookup key => trivial

theorem IoTask.Found.mono {task : IoTask} (h : task.Found fi q)
    (hm : ∀ k b, fi.keyBlockMap.lookup k = some b → fi'.keyBlockMap.lookup k = some b) :
    task.Found fi' q := by
  cases task with
  | flush => trivial
  | load key block => exact ⟨h.1, hm key block h.2⟩

theorem IoWorker.Found.mono {worker : IoWorker} (h : worker.Found fi q)
    (hm : ∀ k b, fi.keyBlockMap.lookup k = some b → fi'.keyBlockMap.lookup k = some b) :
    worker.Found fi' q := by
  cases worker with
  | load key block => exact ⟨h.1, hm key block h.2⟩
  | idle => trivial
  | flush => trivial
  | search key block => trivial

end Found

theorem FlushPhase.eq_clear {p : FlushPhase} (h : p.clears = true) : p = .clear := by
  cases p with
  | clear => rfl
  | enter => cases h
  | mapping p => cases h
  | serialize => cases h

namespace Server

variable {s s' : Server} {a : Act} {R R' : SizeT → Prop}

/-! ## The blocks through a step -/

theorem Quiet.allots (h : Quiet s s') (ha : s.store.Allots R s.flushes) : s'.store.Allots R s'.flushes := by
  rw [h.flushes]
  exact ha.congr (congrArg _ h.fi) (congrArg _ h.fi) h.disk h.image

theorem runPut_allots (h : s.store.Allots R s.flushes) (free : s.lock = none) (key : Int32) (value : Bytes)
    (flips : Fin level → Bool) :
    (s.runPut key value flips).store.Allots R (s.runPut key value flips).flushes := by
  rcases runPut_flushes free key value flips with ⟨hfi, hflushes⟩ | ⟨hfi, freeSpace, hflushes⟩
  · rw [hflushes]
    exact h.congr (congrArg _ hfi) (congrArg _ hfi) rfl rfl
  · rw [hflushes]
    exact (h.alloc freeSpace).congr (congrArg _ hfi) (congrArg _ hfi) rfl rfl

theorem runFlush_allots {f : Flush} (h : s.store.Allots R s.flushes) (held : s.lock = some f)
    (hR : ∀ b, R b → R' b) (hreturn : f.phase.clears = true → R' f.task.freeBlock) :
    (s.runFlush f).store.Allots R' (s.runFlush f).flushes := by
  rw [flushes_locked held] at h
  exact h.flushPart hR hreturn

theorem handleFlush_allots {f : Flush} (h : s.store.Allots R s.flushes) (hf : s.handler = .flush f)
    (hR : ∀ b, R b → R' b) (hreturn : f.phase.clears = true → R' f.task.freeBlock) :
    (s.handleFlush f).store.Allots R' (s.handleFlush f).flushes := by
  have hpart := (h.perm (flushes_handled hf)).flushPart hR hreturn
  exact hpart.perm (s.handleFlush_flushes f)

theorem handle_allots (h : s.store.Allots R s.flushes) (hs : s.handle = some s') (hR : ∀ b, R b → R' b)
    (hreturn : ∀ b ∈ s.returns .handle, (s.store.disk b).isSome → R' b) :
    s'.store.Allots R' s'.flushes := by
  cases handle_cases hs with
  | wait hh _ =>
    rw [flushes_idle (by rw [hh]; rfl)] at h
    rw [flushes_idle rfl]
    exact h.mono hR
  | alloc hh =>
    rw [flushes_idle (by rw [hh]; rfl)] at h
    have halloc := h.alloc (CACHE_SIZE - s.store.write.currentSize)
    exact (halloc.mono hR).perm (List.perm_append_singleton _ _).symm
  | @flush f hh =>
    apply handleFlush_allots h hh hR
    intro hclears
    have hmem : f ∈ s.flushes := by simp [flushes, hh, Handler.flushing]
    have hreturns : s.returns .handle = [f.task.freeBlock] := by
      obtain ⟨t, p⟩ := f
      simp [returns, hh, p.eq_clear hclears]
    exact hreturn _ (by simp [hreturns]) (h.written f hmem hclears)
  | image hh =>
    rw [flushes_idle (by rw [hh]; rfl)] at h
    rw [flushes_idle rfl]
    exact (h.mono hR).writeToBlock0

/-- The blocks of the flushes stay apart through a step, and a returned one is on the disk. -/
theorem step_allots (h : s.store.Allots R s.flushes) (hs : s.step a = some s') (hR : ∀ b, R b → R' b)
    (hreturn : ∀ b ∈ s.returns a, (s.store.disk b).isSome → R' b) : s'.store.Allots R' s'.flushes := by
  cases step_change hs with
  | quiet hq => exact hq.allots (h.mono hR)
  | put worker op free hq =>
    apply hq.allots
    exact runPut_allots (s := s.record _) (h.mono hR) free _ _ _
  | get worker op free hq => exact hq.allots (h.mono hR)
  | del worker op free hq =>
    apply hq.allots
    rename_i task key
    have hfi := (s.record task).runDel_fi key
    exact (h.mono hR).congr (congrArg _ hfi) (congrArg _ hfi) rfl rfl
  | flush worker held hq =>
    apply hq.allots
    apply runFlush_allots h held hR
    rename_i w f
    intro hclears
    have hmem : f ∈ s.flushes := by simp [flushes, held]
    have hreturns : s.returns (.runIo w) = [f.task.freeBlock] := by
      obtain ⟨t, p⟩ := f
      simp [returns, worker, held, p.eq_clear hclears]
    exact hreturn _ (by simp [hreturns]) (h.written f hmem hclears)
  | sigint hh =>
    obtain ⟨hserving, rfl⟩ := sigint_cases hh
    rw [flushes_idle (by rw [hserving]; rfl)] at h
    rw [flushes_idle rfl]
    exact h.mono hR
  | handle hh => exact handle_allots h hh hR hreturn

/-! ## The blocks of the loads -/

theorem Loads.congr (h : s.Loads) (hf : s.store.Grows s'.store) (hw : s'.workers = s.workers)
    (ht : s'.ioTasks = s.ioTasks) (hi : s'.ioWorkers = s.ioWorkers) : s'.Loads where
  workers w := hw ▸ (h.workers w).mono hf.mapped
  ioTasks q task hmem := (h.ioTasks q task (ht ▸ hmem)).mono hf.mapped
  ioWorkers w := hi ▸ (h.ioWorkers w).mono hf.mapped

theorem Loads.setWorker (h : s.Loads) (w : Fin POOL_THREADS) {worker : Worker}
    (hw : worker.Found s.store.fi) : (s.setWorker w worker).Loads where
  workers := by
    intro v
    by_cases hv : v = w
    · rw [hv, setWorker_self]
      exact hw
    · rw [setWorker_ne s hv]
      exact h.workers v
  ioTasks := h.ioTasks
  ioWorkers := h.ioWorkers

theorem Loads.setIoWorker (h : s.Loads) (w : Fin IO_THREADS) {worker : IoWorker}
    (hw : worker.Found s.store.fi (UInt64.ofNat w)) : (s.setIoWorker w worker).Loads where
  workers := h.workers
  ioTasks := h.ioTasks
  ioWorkers := by
    intro v
    by_cases hv : v = w
    · subst hv
      simpa [Server.setIoWorker] using hw
    · simpa [Server.setIoWorker, hv] using h.ioWorkers v

theorem Loads.push (h : s.Loads) {q : SizeT} {task : IoTask} (ht : task.Found s.store.fi q) :
    ({ s with ioTasks := pushIo s.ioTasks q task } : Server).Loads where
  workers := h.workers
  ioTasks := by
    intro q' task' hmem
    rcases mem_pushIo.mp hmem with hold | ⟨rfl, rfl⟩
    · exact h.ioTasks q' task' hold
    · exact ht
  ioWorkers := h.ioWorkers

theorem runPut_loads (h : s.Loads) (key : Int32) (value : Bytes) (flips : Fin level → Bool) :
    (s.runPut key value flips).Loads := by
  have hfi := s.runPut_map key value flips
  have hframe : ({ s with store := (s.runPut key value flips).store } : Server).Loads :=
    h.congr (.of_congr hfi rfl) rfl rfl rfl
  constructor
  · exact hframe.workers
  · intro q task hmem
    cases hput : (s.store.write.put s.store.fi key value flips).2.2 with
    | none =>
      simp only [runPut, hput] at hmem
      exact hframe.ioTasks q task hmem
    | some t =>
      simp only [runPut, hput] at hmem
      rcases mem_pushIo.mp hmem with hold | ⟨_, rfl⟩
      · exact hframe.ioTasks q task hold
      · trivial
  · exact hframe.ioWorkers

theorem run_loads (h : s.Loads) {w : Fin POOL_THREADS} {flips : Fin level → Bool}
    (hs : s.run w flips = some s') : s'.Loads := by
  have hrecord : ∀ task, (s.record task).Loads := fun task => h.congr (.of_congr rfl rfl) rfl rfl rfl
  obtain ⟨task, _, _, ⟨key, value, _, rfl⟩ | ⟨key, _, rfl⟩ | ⟨key, _, rfl⟩⟩ := run_cases hs
  · exact (runPut_loads (hrecord task) key value flips).setWorker w trivial
  · apply (hrecord task).setWorker
    split <;> trivial
  · have hfi := (s.record task).runDel_fi key
    have hdel : ((s.record task).runDel key).Loads :=
      (hrecord task).congr (.of_congr (congrArg _ hfi) rfl) rfl rfl rfl
    exact hdel.setWorker w trivial

theorem popIo_loads (h : s.Loads) {w : Fin IO_THREADS} (hs : s.popIo w = some s') : s'.Loads := by
  obtain ⟨task, rest, _, hqueue, rfl⟩ := popIo_cases hs
  have hpopped : ({ s with ioTasks := Function.update s.ioTasks (UInt64.ofNat w) rest } : Server).Loads := by
    refine ⟨h.workers, ?_, h.ioWorkers⟩
    intro q task' hmem
    by_cases hq : q = UInt64.ofNat w
    · subst hq
      simp only [Function.update_self] at hmem
      exact h.ioTasks _ task' (hqueue ▸ List.mem_cons_of_mem task hmem)
    · simp only [Function.update_of_ne hq] at hmem
      exact h.ioTasks q task' hmem
  have htask := h.ioTasks _ task (hqueue ▸ List.mem_cons_self)
  apply hpopped.setIoWorker
  cases task with
  | flush => trivial
  | load key block => exact htask

theorem runIo_loads (h : s.Loads) {w : Fin IO_THREADS} (hs : s.runIo w = some s') : s'.Loads := by
  have hgrows := step_grows (a := .runIo w) hs
  rcases runIo_cases hs with ⟨f, _, _, ⟨_, rfl⟩ | ⟨_, rfl⟩⟩ | ⟨key, block, _, rfl⟩ | ⟨key, block, _, rfl⟩
  · have hflush : (s.runFlush f).Loads := h.congr hgrows rfl rfl rfl
    exact hflush.setIoWorker w trivial
  · exact h.congr hgrows rfl rfl rfl
  · have hload : (s.setIoWorker w (.search key block)).Loads := h.setIoWorker w trivial
    exact hload.congr (.of_congr rfl rfl) rfl rfl rfl
  · exact h.setIoWorker w trivial

/-- A block is asked for only once a key is mapped to it, and it stays mapped. -/
theorem step_loads (h : s.Loads) (hs : s.step a = some s') : s'.Loads := by
  cases a with
  | submit client op =>
    obtain ⟨task, _, _, _, rfl⟩ := submit_cases hs
    exact h.congr (.of_congr rfl rfl) rfl rfl rfl
  | pop w =>
    obtain ⟨task, rest, _, _, rfl⟩ := pop_cases hs
    have hpopped : (s.setWorker w (.run task)).Loads := h.setWorker w trivial
    exact hpopped.congr (.of_congr rfl rfl) rfl rfl rfl
  | run w flips => exact run_loads h hs
  | lookup w =>
    obtain ⟨key, _, ⟨block, hk, rfl | rfl⟩ | rfl⟩ := lookup_cases hs
    · exact h.setWorker w trivial
    · exact h.setWorker w hk
    · exact h.setWorker w trivial
  | read w =>
    have hfound := h.workers w
    rcases read_cases hs with ⟨key, block, _, rfl⟩ | ⟨key, block, hw, rfl⟩ | ⟨key, block, hw, rfl⟩
    · exact h.setWorker w trivial
    · rw [hw] at hfound
      have hsubmit : (s.setWorker w (.read (.submit key block))).Loads := h.setWorker w hfound
      exact hsubmit.congr (.of_congr rfl rfl) rfl rfl rfl
    · rw [hw] at hfound
      have hload : (IoTask.load key block).Found s.store.fi (block - 1) := ⟨rfl, hfound⟩
      exact (h.push hload).setWorker w trivial
  | popIo w => exact popIo_loads h hs
  | runIo w => exact runIo_loads h hs
  | sigint =>
    obtain ⟨_, rfl⟩ := sigint_cases hs
    exact h.congr (.of_congr rfl rfl) rfl rfl rfl
  | handle =>
    have hgrows := handle_grows hs
    cases handle_cases hs with
    | wait _ _ => exact h.congr hgrows rfl rfl rfl
    | alloc _ => exact h.congr hgrows rfl rfl rfl
    | flush _ => exact h.congr hgrows rfl rfl rfl
    | image _ => exact h.congr hgrows rfl rfl rfl

theorem boot_loads (store : Store) : (boot store).Loads :=
  ⟨fun _ => trivial, fun _ _ hmem => absurd hmem List.not_mem_nil, fun _ => trivial⟩

end Server

namespace Life

variable {l l' : Life} {a : LifeAct}

theorem step_cases (hs : l.step a = some l') :
    (∃ act s', a = .act act ∧ l.server.step act = some s' ∧
        l' = ⟨s', l.returned ++ l.server.returns act⟩) ∨
      ∃ createTime store, l.server.store.reload createTime = some store ∧
        l' = { l with server := Server.boot store } ∧
        (a = .crash createTime ∨ a = .restart createTime ∧ l.server.handler = .done ∧ l.server.IoIdle) := by
  have hreboot : ∀ {createTime}, l.reboot createTime = some l' →
      ∃ store, l.server.store.reload createTime = some store ∧ l' = { l with server := Server.boot store } := by
    intro createTime hboot
    obtain ⟨store, hreload, rfl⟩ := Option.map_eq_some_iff.mp hboot
    exact ⟨store, hreload, rfl⟩
  cases a with
  | act act =>
    obtain ⟨s', hact, rfl⟩ := Option.map_eq_some_iff.mp hs
    exact Or.inl ⟨act, s', rfl, hact, rfl⟩
  | restart createTime =>
    simp only [step] at hs
    split at hs
    case isTrue hend =>
      obtain ⟨store, hreload, hnext⟩ := hreboot hs
      exact Or.inr ⟨createTime, store, hreload, hnext, Or.inr ⟨rfl, hend⟩⟩
    case isFalse => cases hs
  | crash createTime =>
    obtain ⟨store, hreload, hnext⟩ := hreboot hs
    exact Or.inr ⟨createTime, store, hreload, hnext, Or.inl rfl⟩

theorem exec_acts (l : Life) (acts : List Act) :
    (exec step l (acts.map .act)).server = exec Server.step l.server acts := by
  induction acts generalizing l with
  | nil => rfl
  | cons a acts ih =>
    rw [List.map_cons, exec, exec, ih]
    congr 1
    simp only [next, step]
    cases l.server.step a <;> rfl

theorem restart_boot {createTime : Bytes} (hs : l.step (.restart createTime) = some l') :
    l'.server = Server.boot l'.server.store ∧ l'.server.store.write = Cache.new := by
  rcases step_cases hs with ⟨act, s', ha, _, _⟩ | ⟨time, store, hreload, rfl, _⟩
  · cases ha
  · obtain ⟨fi, _, rfl⟩ := Option.map_eq_some_iff.mp hreload
    exact ⟨rfl, rfl⟩

end Life

end KVStorage

import KVStorage.BlockExtent
import KVStorage.Lifetimes

/-!
# The queues of the IO pool

The pool has a worker for the queue of every data block. A put whose flush gets no
block submits it all the same, to the queue of "no block".
-/

namespace KVStorage

set_option autoImplicit false

open Runs

namespace Server

/-- Every task that is queued, waits in a flush or can be asked for has a worker. -/
structure Served (s : Server) : Prop where
  tasks : ∀ q, ∀ task ∈ s.ioTasks q, q.toNat < IO_THREADS
  /-- The flush that owns the write lock. -/
  lock : ∀ f ∈ s.lock, (f.task.freeBlock - 1).toNat < IO_THREADS
  loads : ∀ k b, s.store.fi.keyBlockMap.lookup k = some b → (b - 1).toNat < IO_THREADS

/-- Where a put makes the cache too large, some data block is unused. -/
def RoomToFlush (s : Server) : Act → Prop
  | .run w _ =>
    match s.workers w with
    | .run ⟨_, _, .put key value⟩ =>
      s.store.write.currentSize + s.store.write.RWcache.contents.addSize key value > CACHE_SIZE →
        ∃ i, s.store.fi.blockUsageTable i = false
    | _ => True
  | _ => True

/-- The blocks of the flushes and of the loads on their way. -/
structure Kept (s : Server) : Prop where
  allots : s.store.Allots (fun _ => True) s.flushes
  loads : s.Loads

end Server

def Life.RoomToFlush (l : Life) : LifeAct → Prop
  | .act a => l.server.RoomToFlush a
  | _ => True

theorem queue_served {fi : FileInfo} {b : SizeT} (h0 : b ≠ 0) (hu : fi.Used b) :
    (b - 1).toNat < IO_THREADS := by
  obtain ⟨hlt, _⟩ := hu
  have hlt : b.toNat < 16 := hlt
  have hpos : b.toNat ≠ 0 := fun he => h0 (UInt64.toNat_inj.mp he)
  rw [UInt64.toNat_sub]
  have hone : (1 : UInt64).toNat = 1 := by decide
  have hthreads : IO_THREADS = 15 := rfl
  rw [hone, hthreads]
  omega

theorem noBlock_unserved : ¬(noBlock - 1).toNat < IO_THREADS := by decide

namespace Server

variable {s s' : Server} {a : Act}

theorem step_kept (h : s.Kept) (hs : s.step a = some s') : s'.Kept where
  allots := step_allots h.allots hs (fun _ hb => hb) fun _ _ _ => trivial
  loads := step_loads h.loads hs

theorem Kept.load_served (h : s.Kept) {k : Int32} {b : SizeT}
    (hk : s.store.fi.keyBlockMap.lookup k = some b) : (b - 1).toNat < IO_THREADS := by
  obtain ⟨h0, hu, _⟩ := h.allots.live.mapped k b hk
  exact queue_served h0 hu

theorem Kept.getFreeBlock_served (h : s.Kept) (hroom : ∃ i, s.store.fi.blockUsageTable i = false) :
    (s.store.fi.getFreeBlock.2 - 1).toNat < IO_THREADS := by
  have hb := FileInfo.getFreeBlock_ne_noBlock.mpr hroom
  obtain ⟨_, hfree, hused⟩ := FileInfo.getFreeBlock_spec hb
  have h0 : s.store.fi.getFreeBlock.2 ≠ 0 := fun he => hfree (he ▸ h.allots.live.block0)
  exact queue_served h0 ((hused _).mpr (Or.inl rfl))

theorem RoomToFlush.served {w : Fin POOL_THREADS} {flips : Fin level → Bool} {task : Task} {key : Int32}
    {value : Bytes} (hroom : s.RoomToFlush (.run w flips)) (hk : s.Kept) (worker : s.workers w = .run task)
    (op : task.op = .put key value)
    (large : s.store.write.currentSize + s.store.write.RWcache.contents.addSize key value > CACHE_SIZE) :
    (s.store.fi.getFreeBlock.2 - 1).toNat < IO_THREADS := by
  obtain ⟨client, num, _⟩ := task
  subst op
  simp only [RoomToFlush, worker] at hroom
  exact hk.getFreeBlock_served (hroom large)

theorem step_served (h : s.Served) (hk : s.Kept) (hroom : s.RoomToFlush a) (hs : s.step a = some s') :
    s'.Served where
  tasks := by
    intro q task hmem
    cases step_ioChange hs with
    | same lock ioTasks ioWorkers => exact h.tasks q task (ioTasks ▸ hmem)
    | flush worker op large free block lock ioTasks ioWorkers =>
      rw [ioTasks] at hmem
      rcases mem_pushIo.mp hmem with hold | ⟨rfl, _⟩
      · exact h.tasks q task hold
      · rw [block]
        exact hroom.served hk worker op large
    | @load w key block worker lock ioTasks ioWorkers =>
      rw [ioTasks] at hmem
      rcases mem_pushIo.mp hmem with hold | ⟨rfl, _⟩
      · exact h.tasks q task hold
      · have hfound := hk.loads.workers w
        rw [worker] at hfound
        exact hk.load_served hfound
    | @pop w front rest idle queue lock ioTasks ioWorkers =>
      rw [ioTasks, Function.update_apply] at hmem
      split at hmem
      case isTrue hq =>
        subst hq
        exact h.tasks _ task (queue ▸ List.mem_cons_of_mem front hmem)
      case isFalse => exact h.tasks q task hmem
    | goOn worker held lock ioTasks ioWorkers => exact h.tasks q task (ioTasks ▸ hmem)
    | finish worker lock ioTasks ioWorkers => exact h.tasks q task (ioTasks ▸ hmem)
    | read old new lock ioTasks ioWorkers => exact h.tasks q task (ioTasks ▸ hmem)
  lock := by
    intro f hf
    cases step_ioChange hs with
    | same lock ioTasks ioWorkers => exact h.lock f (lock ▸ hf)
    | flush worker op large free block lock ioTasks ioWorkers =>
      rw [lock, Option.mem_some_iff] at hf
      subst hf
      rw [block]
      exact hroom.served hk worker op large
    | load worker lock ioTasks ioWorkers => exact h.lock f (lock ▸ hf)
    | pop idle queue lock ioTasks ioWorkers => exact h.lock f (lock ▸ hf)
    | @goOn w t p q worker held lock ioTasks ioWorkers =>
      rw [lock, Option.mem_some_iff] at hf
      subst hf
      exact h.lock ⟨t, p⟩ held
    | finish worker lock ioTasks ioWorkers =>
      rw [lock] at hf
      cases hf
    | read old new lock ioTasks ioWorkers => exact h.lock f (lock ▸ hf)
  loads _ _ hk' := (step_kept hk hs).load_served hk'

/-- The flush of a put that finds all blocks used is in the queue of "no block". -/
theorem run_unserved {w : Fin POOL_THREADS} {flips : Fin level → Bool} {task : Task} {key : Int32}
    {value : Bytes} (worker : s.workers w = .run task) (op : task.op = .put key value)
    (large : s.store.write.currentSize + s.store.write.RWcache.contents.addSize key value > CACHE_SIZE)
    (full : s.store.fi.getFreeBlock.2 = noBlock) (hs : s.run w flips = some s') : ¬s'.Served := by
  obtain ⟨task', hw, _, hrun⟩ := run_cases hs
  rw [worker, Worker.run.injEq] at hw
  subst hw
  rw [op] at hrun
  rcases hrun with ⟨key', value', hop, rfl⟩ | ⟨_, hop, _⟩ | ⟨_, hop, _⟩
  · cases hop
    have hput := s.store.write.put_task s.store.fi key value flips
    rw [if_pos large, full] at hput
    intro h
    apply noBlock_unserved
    apply h.lock ⟨⟨_, noBlock⟩, .enter⟩
    simp only [setWorker, runPut, record, hput, Option.mem_some_iff]
    rfl
  · cases hop
  · cases hop

end Server

namespace Life

variable {l l' : Life} {a : LifeAct}

theorem start_kept (createTime : Bytes) : (start createTime).server.Kept :=
  ⟨Store.start_allots createTime _, Server.boot_loads _⟩

theorem step_kept (h : l.server.Kept) (hs : l.step a = some l') : l'.server.Kept := by
  rcases step_cases hs with ⟨act, s', rfl, hact, rfl⟩ | ⟨time, store, hreload, rfl, _⟩
  · exact Server.step_kept h hact
  · exact ⟨h.allots.reload hreload fun _ _ => trivial, Server.boot_loads store⟩

theorem boot_served {store : Store} (h : (Server.boot store).Kept) : (Server.boot store).Served where
  tasks _ _ hmem := absurd hmem List.not_mem_nil
  lock _ hf := by cases hf
  loads _ _ hk := h.load_served hk

theorem step_served (h : l.server.Served ∧ l.server.Kept) (hroom : l.RoomToFlush a) (hs : l.step a = some l') :
    l'.server.Served ∧ l'.server.Kept := by
  have hkept := step_kept h.2 hs
  refine ⟨?_, hkept⟩
  rcases step_cases hs with ⟨act, s', rfl, hact, rfl⟩ | ⟨time, store, _, rfl, _⟩
  · exact Server.step_served h.1 h.2 hroom hact
  · exact boot_served hkept

/-- A task that a full pool of blocks left without a worker is not served. -/
theorem room_of_served (hs : l.step a = some l') (hserved : l'.server.Served) : l.RoomToFlush a := by
  rcases step_cases hs with ⟨act, s', rfl, hact, rfl⟩ | ⟨time, store, _, _, rfl | ⟨rfl, _⟩⟩
  · cases act with
    | run w flips =>
      simp only [RoomToFlush, Server.RoomToFlush]
      split
      case h_1 client num key value hw =>
        intro hlarge
        by_contra hroom
        have hfull := not_not.mp (mt FileInfo.getFreeBlock_ne_noBlock.mp hroom)
        exact Server.run_unserved hw rfl hlarge hfull hact hserved
      case h_2 => trivial
    | _ => trivial
  · trivial
  · trivial

theorem decides_served : Decides step RoomToFlush (fun _ => True) (fun l => l.server.Served ∧ l.server.Kept)
    (fun l => l.server.Served) where
  sure _ _ _ _ _ := trivial
  keeps _ _ _ h hroom hs := step_served h hroom hs
  good _ h := h.1
  needs _ _ _ _ _ hs hserved := room_of_served hs hserved

/-- In every state of a run all IO tasks have a worker exactly when, at every step of it
that makes the cache too large, some data block is unused. -/
theorem tasks_served_iff (createTime : Bytes) (acts : List LifeAct) :
    (∀ before, before <+: acts → (exec step (start createTime) before).server.Served) ↔
      Along step RoomToFlush (start createTime) acts :=
  decides_served.throughout_iff trivial ⟨boot_served (start_kept createTime), start_kept createTime⟩ acts

end Life

/-! ## A lock that stays in a queue without a worker -/

/-- SIGINT, the steps of the handler, and the next start. -/
def shutdownActs : List LifeAct := .act .sigint :: List.replicate 7 (.act .handle)

def restarts : Nat → List LifeAct
  | 0 => []
  | n + 1 => restarts n ++ shutdownActs ++ [.restart []]

def putActs (i : Nat) : List Act :=
  [.submit 0 (.put (Int32.ofNat i) longValue), .pop 0, .run 0 fun _ => true]

/-- Puts of long values under the keys 0, 1, ... by one worker. -/
def fillActs : Nat → List Act
  | 0 => []
  | n + 1 => fillActs n ++ putActs n

namespace Server

/-- No block is unused, and the cache holds the first long values. -/
structure Filled (s : Server) (n : Nat) : Prop where
  full : s.store.fi.getFreeBlock.2 = noBlock
  lock : s.lock = none
  running : s.running = true
  queue : s.queue = []
  worker : s.workers 0 = .idle
  size : s.store.write.currentSize = UInt64.ofNat (1068 * n)
  entries : s.store.write.RWcache.contents.entries = filled n

variable {s s' : Server} {n : Nat}

theorem boot_filled {store : Store} (hw : store.write = Cache.new) (hfull : store.fi.getFreeBlock.2 = noBlock) :
    (boot store).Filled 0 :=
  ⟨hfull, rfl, rfl, rfl, rfl, by rw [boot, hw]; rfl, by rw [boot, hw]; rfl⟩

/-- The request is taken up at once; its step on the cache is left. -/
theorem Filled.taken (h : s.Filled n) (op : Op) :
    ∃ m task, exec step s [.submit 0 op, .pop 0] = m ∧ m.workers 0 = .run task ∧ task.op = op ∧
      m.lock = none ∧ m.running = true ∧ m.queue = [] ∧ m.store = s.store := by
  have hmax : (0 : Nat) < MAX_TASK_COUNT := by decide
  refine ⟨_, ⟨0, (s.sent.filter fun t => t.client = 0).length, op⟩, rfl, ?_⟩
  simp [exec, next, step, submit, pop, setWorker, h.running, h.queue, h.worker, h.lock, hmax]

theorem run_put {w : Fin POOL_THREADS} {flips : Fin level → Bool} {task : Task} {key : Int32} {value : Bytes}
    (worker : s.workers w = .run task) (op : task.op = .put key value) (free : s.lock = none) :
    s.run w flips = some (((s.record task).runPut key value flips).setWorker w .idle) := by
  simp only [run, worker, free, op]

theorem Filled.put (h : s.Filled n) (hn : n < 62836) : (exec step s (putActs n)).Filled (n + 1) := by
  obtain ⟨m, task, hm, hw, hop, hlock, hrunning, hqueue, hstore⟩ :=
    h.taken (.put (Int32.ofNat n) longValue)
  obtain ⟨hadd, hsz⟩ := filled_add (by omega) h.entries
  obtain ⟨hsum, hsmall⟩ := filled_size hn
  rw [← hsum, ← hsz, ← h.size, ← hstore] at hsmall
  have hnext : exec step s (putActs n) =
      ((m.record task).runPut (Int32.ofNat n) longValue fun _ => true).setWorker 0 .idle := by
    have hsplit : putActs n = [.submit 0 (.put (Int32.ofNat n) longValue), .pop 0] ++
      [.run 0 fun _ => true] := rfl
    rw [hsplit, exec_append, hm]
    exact next_eq (run_put hw hop hlock)
  rw [hnext, runPut_small (s := m.record task) hsmall]
  constructor
  · exact hstore ▸ h.full
  · exact hlock
  · exact hrunning
  · exact hqueue
  · exact setWorker_self _ _ _
  · simp only [setWorker, record, hstore, Cache.put_size, hsz, h.size, hsum]
  · simp only [setWorker, record, hstore, Cache.put_contents, hadd]

theorem Filled.fill {n : Nat} (h : s.Filled 0) (hn : n ≤ 62836) : (exec step s (fillActs n)).Filled n := by
  induction n with
  | zero => exact h
  | succ n ih =>
    rw [fillActs, exec_append]
    exact (ih (by omega)).put (by omega)

theorem Filled.overflow (h : s.Filled n) (hn : n = 62836) : ¬(exec step s (putActs n)).Served := by
  obtain ⟨m, task, hm, hw, hop, hlock, _, _, hstore⟩ := h.taken (.put (Int32.ofNat n) longValue)
  obtain ⟨_, hsz⟩ := filled_add (by omega) h.entries
  have hlarge : m.store.write.currentSize +
      m.store.write.RWcache.contents.addSize (Int32.ofNat n) longValue > CACHE_SIZE := by
    rw [hstore, hsz, h.size, hn]
    decide
  have hsplit : putActs n = [.submit 0 (.put (Int32.ofNat n) longValue), .pop 0] ++
    [.run 0 fun _ => true] := rfl
  have hrun : m.run 0 (fun _ => true) =
      some (((m.record task).runPut (Int32.ofNat n) longValue fun _ => true).setWorker 0 .idle) :=
    run_put hw hop hlock
  rw [hsplit, exec_append, hm, exec, exec, next_eq hrun]
  exact run_unserved hw hop hlarge (hstore ▸ h.full) hrun

end Server

theorem restarts_full : (exec Life.step (Life.start []) (restarts 15)).server.store.fi.getFreeBlock.2 = noBlock := by
  decide +kernel

theorem restarts_boot : (exec Life.step (Life.start []) (restarts 14 ++ shutdownActs)).step (.restart []) |>.isSome := by
  decide +kernel

theorem fill_unserved {n : Nat} (hn : n = 62836) :
    ¬(exec Life.step (Life.start []) (restarts 15 ++ (fillActs (n + 1)).map .act)).server.Served := by
  obtain ⟨l, hl⟩ := Option.isSome_iff_exists.mp restarts_boot
  have hend : exec Life.step (Life.start []) (restarts 15) = l := by
    have hsplit : restarts 15 = restarts 14 ++ shutdownActs ++ [.restart []] := rfl
    rw [hsplit, exec_append, exec, exec, next_eq hl]
  obtain ⟨hboot, hwrite⟩ := Life.restart_boot hl
  have hfull := restarts_full
  rw [hend] at hfull
  rw [exec_append, Life.exec_acts, hend, hboot, fillActs, exec_append]
  exact ((Server.boot_filled hwrite hfull).fill hn.le).overflow hn

/-- 15 ends with Ctrl-C and next starts use up the blocks, and 62837 puts of 1000
characters leave the write lock in a queue without a worker. -/
theorem full_file_parks_lock :
    ¬(exec Life.step (Life.start []) (restarts 15 ++ (fillActs 62837).map .act)).server.Served :=
  fill_unserved rfl

end KVStorage

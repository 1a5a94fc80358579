import KVStorage.FlushParts
import KVStorage.ReadPath

/-!
# The running server

Clients submit requests to a pool of 8 workers, the caches hand loads and flushes to
the IO workers, and the signal handler ends the program. The write lock is free
between two steps, or held by a queued flush; puts, gets and deletes hold it only
within a step.
-/

namespace KVStorage

set_option autoImplicit false

open Runs

inductive Op where
  | put (key : Int32) (value : Bytes)
  | get (key : Int32)
  | del (key : Int32)
  deriving DecidableEq

def Op.key : Op → Int32
  | .put key _ | .get key | .del key => key

/-- An accepted request, with its number among those of its client. -/
structure Task where
  client : Nat
  num : Nat
  op : Op
  deriving DecidableEq

/-- A worker of the pool, by what it does next. -/
inductive Worker where
  | idle
  /-- The task is taken; its step on the write cache comes next. -/
  | run (task : Task)
  /-- A GET that found nothing in the write cache looks for the block. -/
  | lookup (key : Int32)
  | read (getter : Getter)

/-- The task a worker has taken and not yet run. -/
def Worker.held : Worker → Option Task
  | .run task => some task
  | _ => none

inductive IoTask where
  | flush
  | load (key : Int32) (block : SizeT)

inductive IoWorker where
  | idle
  | flush
  | load (key : Int32) (block : SizeT)
  | search (key : Int32) (block : SizeT)
  deriving DecidableEq

def IoTask.worker : IoTask → IoWorker
  | .flush => .flush
  | .load key block => .load key block

inductive Handler where
  /-- No signal yet. -/
  | serving
  /-- `shutdown` waits for the queue. -/
  | waiting
  | terminated
  | flush (flush : Flush)
  | image
  | done
  deriving DecidableEq

/-- What the write cache has seen. -/
inductive Event where
  | ran (task : Task)
  | cleared
  deriving DecidableEq

def Event.task : Event → Option Task
  | .ran task => some task
  | .cleared => none

def ran (log : List Event) : List Task := log.filterMap Event.task

/-- `thread_pool pool(8,100000)`. -/
abbrev POOL_THREADS : Nat := 8

instance : NeZero POOL_THREADS := ⟨by decide⟩

def MAX_TASK_COUNT : Nat := 100000

structure Server where
  store : Store
  /-- `WRmutex`, when the flush that owns it is on its way. -/
  lock : Option Flush
  /-- The pool is `RUNNING`. -/
  running : Bool
  queue : List Task
  workers : Fin POOL_THREADS → Worker
  ioTasks : SizeT → List IoTask
  ioWorkers : Fin IO_THREADS → IoWorker
  handler : Handler
  /-- All accepted requests, in order. -/
  sent : List Task
  log : List Event

inductive Act where
  | submit (client : Nat) (op : Op)
  | pop (worker : Fin POOL_THREADS)
  | run (worker : Fin POOL_THREADS) (flips : Fin level → Bool)
  | lookup (worker : Fin POOL_THREADS)
  | read (worker : Fin POOL_THREADS)
  | popIo (worker : Fin IO_THREADS)
  | runIo (worker : Fin IO_THREADS)
  | sigint
  | handle

/-- What a part of a flush adds to the log. -/
def FlushPhase.events : FlushPhase → List Event
  | .clear => [.cleared]
  | _ => []

/-- What a start of the program finds: tables that are true of the file. -/
structure Opened where
  store : Store
  sound : store.Sound
  write : store.write = Cache.new
  read : store.read = Cache.new

namespace Opened

def new (createTime : Bytes) : Opened := ⟨Store.start createTime, Store.start_sound createTime, rfl, rfl⟩

theorem reload {s : Store} (h : s.Sound) (createTime : Bytes) :
    ∃ o : Opened, s.reload createTime = some o.store := by
  obtain ⟨s', hreload, hsound, _, hwrite, hread, _⟩ := h.reload createTime
  exact ⟨⟨s', hsound, hwrite, hread⟩, hreload⟩

end Opened

namespace Server

/-- `main`, once the tables are read. -/
def boot (store : Store) : Server where
  store := store
  lock := none
  running := true
  queue := []
  workers _ := .idle
  ioTasks _ := []
  ioWorkers _ := .idle
  handler := .serving
  sent := []
  log := []

def start (o : Opened) : Server := boot o.store

def setWorker (s : Server) (w : Fin POOL_THREADS) (worker : Worker) : Server :=
  { s with workers := Function.update s.workers w worker }

def setIoWorker (s : Server) (w : Fin IO_THREADS) (worker : IoWorker) : Server :=
  { s with ioWorkers := Function.update s.ioWorkers w worker }

/-- `ioPool.submit`. -/
def pushIo (ioTasks : SizeT → List IoTask) (queue : SizeT) (task : IoTask) : SizeT → List IoTask :=
  Function.update ioTasks queue (ioTasks queue ++ [task])

/-- `handleClient`: a request that the pool refuses is answered with PAUSE. -/
def submit (s : Server) (client : Nat) (op : Op) : Option Server :=
  if s.running = true ∧ s.queue.length < MAX_TASK_COUNT then
    let task : Task := ⟨client, (s.sent.filter fun t => t.client = client).length, op⟩
    some { s with queue := s.queue ++ [task], sent := s.sent ++ [task] }
  else none

/-- `worker_thread` takes the front of the queue. -/
def pop (s : Server) (w : Fin POOL_THREADS) : Option Server :=
  match s.workers w, s.queue with
  | .idle, task :: rest => some ({ s with queue := rest }.setWorker w (.run task))
  | _, _ => none

/-- `Cache::put`; the lock of a put that flushes stays with the flush. -/
def runPut (s : Server) (key : Int32) (value : Bytes) (flips : Fin level → Bool) : Server :=
  let r := s.store.write.put s.store.fi key value flips
  { s with
    store := { s.store with write := r.1, fi := r.2.1 }
    lock := match r.2.2 with
      | none => s.lock
      | some task => some ⟨task, .enter⟩
    ioTasks := match r.2.2 with
      | none => s.ioTasks
      | some task => pushIo s.ioTasks (task.freeBlock - 1) .flush }

/-- `Cache::del` with flag 0, which answers `true`: nothing more is done for a DEL. -/
def runDel (s : Server) (key : Int32) : Server :=
  let r := s.store.write.delWrite s.store.fi key
  { s with store := { s.store with write := r.1, fi := r.2.1 } }

def record (s : Server) (task : Task) : Server := { s with log := s.log ++ [.ran task] }

/-- The step of a task on the write cache, which waits for the lock. -/
def run (s : Server) (w : Fin POOL_THREADS) (flips : Fin level → Bool) : Option Server :=
  match s.workers w, s.lock with
  | .run task, none =>
    match task.op with
    | .put key value => some (((s.record task).runPut key value flips).setWorker w .idle)
    | .get key =>
      some ((s.record task).setWorker w (if s.store.write.getWrite key = [] then .lookup key else .idle))
    | .del key => some (((s.record task).runDel key).setWorker w .idle)
  | _, _ => none

/-- `Cache::get` with flag 1, up to the comparison. -/
def lookup (s : Server) (w : Fin POOL_THREADS) : Option Server :=
  match s.workers w with
  | .lookup key =>
    let block := s.store.fi.getBlockNumber key
    if block ≠ noBlock then
      if block = s.store.read.currentReadBlock then some (s.setWorker w (.read (.hit key block)))
      else some (s.setWorker w (.read (.miss key block)))
    else some (s.setWorker w .idle)
  | _ => none

/-- The rest of `Cache::get` with flag 1. -/
def read (s : Server) (w : Fin POOL_THREADS) : Option Server :=
  match s.workers w with
  | .read (.hit _ _) => some (s.setWorker w .idle)
  | .read (.miss key block) =>
    let read := { s.store.read with currentReadBlock := block }
    some ({ s with store := { s.store with read := read } }.setWorker w (.read (.submit key block)))
  | .read (.submit key block) =>
    some ({ s with ioTasks := pushIo s.ioTasks (block - 1) (.load key block) }.setWorker w .idle)
  | _ => none

/-- `workerThread` takes the front of its queue. -/
def popIo (s : Server) (w : Fin IO_THREADS) : Option Server :=
  match s.ioWorkers w, s.ioTasks (UInt64.ofNat w) with
  | .idle, task :: rest =>
    let worker := match task with
      | .flush => .flush
      | .load key block => .load key block
    some ({ s with ioTasks := Function.update s.ioTasks (UInt64.ofNat w) rest }.setIoWorker w worker)
  | _, _ => none

/-- The next part of the flush that holds the lock, which is free after the last part. -/
def runFlush (s : Server) (f : Flush) : Server :=
  let r := s.store.flushPart f.task f.phase
  { s with store := r.1, lock := r.2.map fun phase => ⟨f.task, phase⟩, log := s.log ++ f.phase.events }

def runIo (s : Server) (w : Fin IO_THREADS) : Option Server :=
  match s.ioWorkers w with
  | .idle => none
  | .flush =>
    match s.lock with
    | none => none
    | some f =>
      let s := s.runFlush f
      some (if s.lock.isNone then s.setIoWorker w .idle else s)
  | .load key block =>
    let read := (s.store.read.loadFromDisk s.store.disk block).1
    some ({ s with store := { s.store with read := read } }.setIoWorker w (.search key block))
  | .search _ _ => some (s.setIoWorker w .idle)

/-- The next part of the flush of the handler, which takes no lock. -/
def handleFlush (s : Server) (f : Flush) : Server :=
  let r := s.store.flushPart f.task f.phase
  { s with
    store := r.1
    log := s.log ++ f.phase.events
    handler := match r.2 with
      | none => .image
      | some phase => .flush ⟨f.task, phase⟩ }

/-- `signalHandler`, step by step. -/
def handle (s : Server) : Option Server :=
  match s.handler with
  | .serving => none
  | .waiting =>
    match s.queue with
    | [] => some { s with handler := .terminated }
    | _ :: _ => none
  | .terminated =>
    let task : FlushTask := ⟨CACHE_SIZE - s.store.write.currentSize, s.store.fi.getFreeBlock.2⟩
    some { s with
      store := { s.store with fi := s.store.fi.getFreeBlock.1 }
      handler := .flush ⟨task, .enter⟩ }
  | .flush f => some (s.handleFlush f)
  | .image => some { s with store := s.store.writeToBlock0, handler := .done }
  | .done => none

def sigint (s : Server) : Option Server :=
  match s.handler with
  | .serving => some { s with running := false, handler := .waiting }
  | _ => none

def step (s : Server) : Act → Option Server
  | .submit client op => s.submit client op
  | .pop w => s.pop w
  | .run w flips => s.run w flips
  | .lookup w => s.lookup w
  | .read w => s.read w
  | .popIo w => s.popIo w
  | .runIo w => s.runIo w
  | .sigint => s.sigint
  | .handle => s.handle

/-! ## What a step can do -/

/-- What the steps that leave the write cache and the tables alone have in common. -/
structure Quiet (s s' : Server) : Prop where
  write : s'.store.write = s.store.write
  fi : s'.store.fi = s.store.fi
  disk : s'.store.disk = s.store.disk
  image : s'.store.image = s.store.image
  lock : s'.lock = s.lock
  handler : s'.handler = s.handler
  running : s'.running = s.running
  log : s'.log = s.log

/-- The kinds of steps, each up to quiet changes. -/
inductive Change (s : Server) : Act → Server → Prop where
  | quiet {a : Act} {s' : Server} (h : Quiet s s') : Change s a s'
  | put {w : Fin POOL_THREADS} {flips : Fin level → Bool} {task : Task} {key : Int32} {value : Bytes}
      {s' : Server} (worker : s.workers w = .run task) (op : task.op = .put key value)
      (free : s.lock = none) (h : Quiet ((s.record task).runPut key value flips) s') :
      Change s (.run w flips) s'
  | get {w : Fin POOL_THREADS} {flips : Fin level → Bool} {task : Task} {key : Int32} {s' : Server}
      (worker : s.workers w = .run task) (op : task.op = .get key) (free : s.lock = none)
      (h : Quiet (s.record task) s') : Change s (.run w flips) s'
  | del {w : Fin POOL_THREADS} {flips : Fin level → Bool} {task : Task} {key : Int32} {s' : Server}
      (worker : s.workers w = .run task) (op : task.op = .del key) (free : s.lock = none)
      (h : Quiet ((s.record task).runDel key) s') : Change s (.run w flips) s'
  | flush {w : Fin IO_THREADS} {f : Flush} {s' : Server} (worker : s.ioWorkers w = .flush)
      (held : s.lock = some f) (h : Quiet (s.runFlush f) s') : Change s (.runIo w) s'
  | sigint {s' : Server} (h : s.sigint = some s') : Change s .sigint s'
  | handle {s' : Server} (h : s.handle = some s') : Change s .handle s'

variable {s s' : Server} {a : Act}

theorem record_store (s : Server) (task : Task) : (s.record task).store = s.store := rfl

theorem Quiet.refl (s : Server) : Quiet s s := ⟨rfl, rfl, rfl, rfl, rfl, rfl, rfl, rfl⟩

theorem setWorker_quiet (s : Server) (w : Fin POOL_THREADS) (worker : Worker) :
    Quiet s (s.setWorker w worker) := ⟨rfl, rfl, rfl, rfl, rfl, rfl, rfl, rfl⟩

/-! ## What each call does when it goes through -/

theorem submit_cases {client : Nat} {op : Op} (hs : s.submit client op = some s') :
    ∃ task : Task, task.client = client ∧ task.op = op ∧ s.running = true ∧
      s' = { s with queue := s.queue ++ [task], sent := s.sent ++ [task] } := by
  unfold submit at hs
  split at hs
  case isTrue hok => exact ⟨_, rfl, rfl, hok.1, (Option.some.inj hs).symm⟩
  case isFalse => cases hs

theorem pop_cases {w : Fin POOL_THREADS} (hs : s.pop w = some s') :
    ∃ task rest, s.workers w = .idle ∧ s.queue = task :: rest ∧
      s' = { s with queue := rest }.setWorker w (.run task) := by
  unfold pop at hs
  split at hs
  case h_1 task rest hidle hqueue => exact ⟨task, rest, hidle, hqueue, (Option.some.inj hs).symm⟩
  case h_2 => cases hs

theorem run_cases {w : Fin POOL_THREADS} {flips : Fin level → Bool} (hs : s.run w flips = some s') :
    ∃ task, s.workers w = .run task ∧ s.lock = none ∧
      ((∃ key value, task.op = .put key value ∧
          s' = ((s.record task).runPut key value flips).setWorker w .idle) ∨
        (∃ key, task.op = .get key ∧ s' = (s.record task).setWorker w
          (if s.store.write.getWrite key = [] then .lookup key else .idle)) ∨
        ∃ key, task.op = .del key ∧ s' = ((s.record task).runDel key).setWorker w .idle) := by
  unfold run at hs
  split at hs
  case h_2 => cases hs
  case h_1 task hw hfree =>
    refine ⟨task, hw, hfree, ?_⟩
    split at hs
    case h_1 key value hop => exact Or.inl ⟨key, value, hop, (Option.some.inj hs).symm⟩
    case h_2 key hop => exact Or.inr (Or.inl ⟨key, hop, (Option.some.inj hs).symm⟩)
    case h_3 key hop => exact Or.inr (Or.inr ⟨key, hop, (Option.some.inj hs).symm⟩)

theorem lookup_cases {w : Fin POOL_THREADS} (hs : s.lookup w = some s') :
    ∃ key, s.workers w = .lookup key ∧
      ((∃ block, s.store.fi.keyBlockMap.lookup key = some block ∧
          (s' = s.setWorker w (.read (.hit key block)) ∨ s' = s.setWorker w (.read (.miss key block)))) ∨
        s' = s.setWorker w .idle) := by
  unfold lookup at hs
  split at hs
  case h_2 => cases hs
  case h_1 key hw =>
    refine ⟨key, hw, ?_⟩
    simp only at hs
    split at hs
    case isFalse => exact Or.inr (Option.some.inj hs).symm
    case isTrue hblock =>
      left
      have hlookup : s.store.fi.keyBlockMap.lookup key = some (s.store.fi.getBlockNumber key) := by
        unfold FileInfo.getBlockNumber at hblock ⊢
        cases hk : s.store.fi.keyBlockMap.lookup key with
        | none => simp [hk] at hblock
        | some b => rfl
      split at hs
      · exact ⟨_, hlookup, Or.inl (Option.some.inj hs).symm⟩
      · exact ⟨_, hlookup, Or.inr (Option.some.inj hs).symm⟩

theorem read_cases {w : Fin POOL_THREADS} (hs : s.read w = some s') :
    (∃ key block, s.workers w = .read (.hit key block) ∧ s' = s.setWorker w .idle) ∨
      (∃ key block, s.workers w = .read (.miss key block) ∧
        s' = { s with store := { s.store with
          read := { s.store.read with currentReadBlock := block } } }.setWorker w (.read (.submit key block))) ∨
      ∃ key block, s.workers w = .read (.submit key block) ∧
        s' = { s with ioTasks := pushIo s.ioTasks (block - 1) (.load key block) }.setWorker w .idle := by
  unfold read at hs
  split at hs
  case h_1 key block hw => exact Or.inl ⟨key, block, hw, (Option.some.inj hs).symm⟩
  case h_2 key block hw => exact Or.inr (Or.inl ⟨key, block, hw, (Option.some.inj hs).symm⟩)
  case h_3 key block hw => exact Or.inr (Or.inr ⟨key, block, hw, (Option.some.inj hs).symm⟩)
  case h_4 => cases hs

theorem popIo_cases {w : Fin IO_THREADS} (hs : s.popIo w = some s') :
    ∃ task rest, s.ioWorkers w = .idle ∧ s.ioTasks (UInt64.ofNat w) = task :: rest ∧
      s' = { s with ioTasks := Function.update s.ioTasks (UInt64.ofNat w) rest }.setIoWorker w task.worker := by
  unfold popIo at hs
  split at hs
  case h_1 task rest hidle hqueue => exact ⟨task, rest, hidle, hqueue, (Option.some.inj hs).symm⟩
  case h_2 => cases hs

theorem runIo_cases {w : Fin IO_THREADS} (hs : s.runIo w = some s') :
    (∃ f, s.ioWorkers w = .flush ∧ s.lock = some f ∧
        ((s.runFlush f).lock = none ∧ s' = (s.runFlush f).setIoWorker w .idle ∨
          (s.runFlush f).lock.isSome ∧ s' = s.runFlush f)) ∨
      (∃ key block, s.ioWorkers w = .load key block ∧
        s' = { s with store := { s.store with
          read := (s.store.read.loadFromDisk s.store.disk block).1 } }.setIoWorker w (.search key block)) ∨
      (∃ key block, s.ioWorkers w = .search key block ∧ s' = s.setIoWorker w .idle) := by
  unfold runIo at hs
  split at hs
  case h_1 => cases hs
  case h_2 hw =>
    split at hs
    case h_1 => cases hs
    case h_2 f hlock =>
      left
      refine ⟨f, hw, hlock, ?_⟩
      have hs' := (Option.some.inj hs).symm
      cases hnext : (s.runFlush f).lock with
      | none =>
        rw [hnext] at hs'
        exact Or.inl ⟨rfl, hs'⟩
      | some g =>
        rw [hnext] at hs'
        exact Or.inr ⟨rfl, hs'⟩
  case h_3 key block hw => exact Or.inr (Or.inl ⟨key, block, hw, (Option.some.inj hs).symm⟩)
  case h_4 key block hw => exact Or.inr (Or.inr ⟨key, block, hw, (Option.some.inj hs).symm⟩)

/-- The steps of the handler. -/
inductive Handled (s : Server) : Server → Prop where
  | wait (handler : s.handler = .waiting) (queue : s.queue = []) :
      Handled s { s with handler := .terminated }
  | alloc (handler : s.handler = .terminated) :
      Handled s { s with
        store := { s.store with fi := s.store.fi.getFreeBlock.1 }
        handler := .flush
          ⟨⟨CACHE_SIZE - s.store.write.currentSize, s.store.fi.getFreeBlock.2⟩, .enter⟩ }
  | flush {f : Flush} (handler : s.handler = .flush f) : Handled s (s.handleFlush f)
  | image (handler : s.handler = .image) :
      Handled s { s with store := s.store.writeToBlock0, handler := .done }

theorem handle_cases (hs : s.handle = some s') : Handled s s' := by
  unfold handle at hs
  split at hs
  case h_1 => cases hs
  case h_2 hh =>
    split at hs
    case h_1 hqueue =>
      cases hs
      exact .wait hh hqueue
    case h_2 => cases hs
  case h_3 hh =>
    cases hs
    exact .alloc hh
  case h_4 f hh =>
    cases hs
    exact .flush hh
  case h_5 hh =>
    cases hs
    exact .image hh
  case h_6 => cases hs

theorem sigint_cases (hs : s.sigint = some s') :
    s.handler = .serving ∧ s' = { s with running := false, handler := .waiting } := by
  unfold sigint at hs
  split at hs
  case h_1 hserving => exact ⟨hserving, (Option.some.inj hs).symm⟩
  case h_2 => cases hs

/-! ## What a step does to the pool -/

/-- The kinds of steps as the pool sees them. -/
inductive PoolChange (s s' : Server) : Act → Prop where
  | same {a : Act} (queue : s'.queue = s.queue) (sent : s'.sent = s.sent)
      (ran : ran s'.log = ran s.log) (held : ∀ w, (s'.workers w).held = (s.workers w).held) :
      PoolChange s s' a
  | submit {client : Nat} {op : Op} {task : Task} (client_eq : task.client = client) (op_eq : task.op = op)
      (running : s.running = true) (queue : s'.queue = s.queue ++ [task])
      (sent : s'.sent = s.sent ++ [task]) (log : s'.log = s.log) (workers : s'.workers = s.workers) :
      PoolChange s s' (.submit client op)
  | pop {w : Fin POOL_THREADS} {task : Task} (idle : (s.workers w).held = none)
      (queue : s.queue = task :: s'.queue) (sent : s'.sent = s.sent) (log : s'.log = s.log)
      (self : (s'.workers w).held = some task)
      (others : ∀ v, v ≠ w → (s'.workers v).held = (s.workers v).held) : PoolChange s s' (.pop w)
  | run {w : Fin POOL_THREADS} {flips : Fin level → Bool} {task : Task}
      (worker : (s.workers w).held = some task) (queue : s'.queue = s.queue) (sent : s'.sent = s.sent)
      (ran : ran s'.log = ran s.log ++ [task]) (self : (s'.workers w).held = none)
      (others : ∀ v, v ≠ w → (s'.workers v).held = (s.workers v).held) : PoolChange s s' (.run w flips)

theorem ran_append (log : List Event) (e : Event) : ran (log ++ [e]) = ran log ++ e.task.toList := by
  unfold ran
  rw [List.filterMap_append]
  cases e <;> rfl

theorem ran_events (log : List Event) (p : FlushPhase) : ran (log ++ p.events) = ran log := by
  cases p <;> simp [FlushPhase.events, ran_append, Event.task]

theorem setWorker_self (s : Server) (w : Fin POOL_THREADS) (worker : Worker) :
    (s.setWorker w worker).workers w = worker := by simp [setWorker]

theorem setWorker_ne (s : Server) {v w : Fin POOL_THREADS} (h : v ≠ w) (worker : Worker) :
    (s.setWorker w worker).workers v = s.workers v := by simp [setWorker, h]

theorem setWorker_held (s : Server) {w : Fin POOL_THREADS} {worker : Worker}
    (h : (s.workers w).held = none) (h' : worker.held = none) (v : Fin POOL_THREADS) :
    ((s.setWorker w worker).workers v).held = (s.workers v).held := by
  by_cases hv : v = w
  · rw [hv, setWorker_self, h, h']
  · rw [setWorker_ne s hv]

theorem run_poolChange {w : Fin POOL_THREADS} {flips : Fin level → Bool} (hs : s.run w flips = some s') :
    PoolChange s s' (.run w flips) := by
  obtain ⟨task, hw, _, hrun⟩ := run_cases hs
  have hheld : (s.workers w).held = some task := by simp [hw, Worker.held]
  have hran : ran (s.log ++ [.ran task]) = ran s.log ++ [task] := ran_append _ _
  rcases hrun with ⟨key, value, _, rfl⟩ | ⟨key, _, rfl⟩ | ⟨key, _, rfl⟩
  · refine .run hheld rfl rfl hran ?_ ?_
    · rw [setWorker_self]
      rfl
    · intro v hv
      rw [setWorker_ne _ hv]
      rfl
  · refine .run hheld rfl rfl hran ?_ ?_
    · rw [setWorker_self]
      split <;> rfl
    · intro v hv
      rw [setWorker_ne _ hv]
      rfl
  · refine .run hheld rfl rfl hran ?_ ?_
    · rw [setWorker_self]
      rfl
    · intro v hv
      rw [setWorker_ne _ hv]
      rfl

theorem lookup_poolChange {w : Fin POOL_THREADS} (hs : s.lookup w = some s') :
    PoolChange s s' (.lookup w) := by
  obtain ⟨key, hw, hlookup⟩ := lookup_cases hs
  have hheld : (s.workers w).held = none := by simp [hw, Worker.held]
  rcases hlookup with ⟨block, _, rfl | rfl⟩ | rfl
  · exact .same rfl rfl rfl (setWorker_held s hheld rfl)
  · exact .same rfl rfl rfl (setWorker_held s hheld rfl)
  · exact .same rfl rfl rfl (setWorker_held s hheld rfl)

theorem read_poolChange {w : Fin POOL_THREADS} (hs : s.read w = some s') :
    PoolChange s s' (.read w) := by
  rcases read_cases hs with ⟨key, block, hw, rfl⟩ | ⟨key, block, hw, rfl⟩ | ⟨key, block, hw, rfl⟩
  · have hheld : (s.workers w).held = none := by simp [hw, Worker.held]
    exact .same rfl rfl rfl (setWorker_held s hheld rfl)
  · have hheld : (s.workers w).held = none := by simp [hw, Worker.held]
    exact .same rfl rfl rfl (setWorker_held _ hheld rfl)
  · have hheld : (s.workers w).held = none := by simp [hw, Worker.held]
    exact .same rfl rfl rfl (setWorker_held _ hheld rfl)

theorem runIo_poolChange {w : Fin IO_THREADS} (hs : s.runIo w = some s') :
    PoolChange s s' (.runIo w) := by
  rcases runIo_cases hs with ⟨f, _, _, ⟨_, rfl⟩ | ⟨_, rfl⟩⟩ | ⟨key, block, _, rfl⟩ | ⟨key, block, _, rfl⟩
  · exact .same rfl rfl (ran_events s.log f.phase) fun v => rfl
  · exact .same rfl rfl (ran_events s.log f.phase) fun v => rfl
  · exact .same rfl rfl rfl fun v => rfl
  · exact .same rfl rfl rfl fun v => rfl

theorem handle_poolChange (hs : s.handle = some s') : PoolChange s s' .handle := by
  cases handle_cases hs with
  | wait _ _ => exact .same rfl rfl rfl fun v => rfl
  | alloc _ => exact .same rfl rfl rfl fun v => rfl
  | flush _ => exact .same rfl rfl (ran_events s.log _) fun v => rfl
  | image _ => exact .same rfl rfl rfl fun v => rfl

theorem step_poolChange (hs : s.step a = some s') : PoolChange s s' a := by
  cases a with
  | submit client op =>
    obtain ⟨task, hclient, hop, hrunning, rfl⟩ := submit_cases hs
    exact .submit hclient hop hrunning rfl rfl rfl rfl
  | pop w =>
    obtain ⟨task, rest, hw, hq, rfl⟩ := pop_cases hs
    refine .pop (by simp [hw, Worker.held]) hq rfl rfl ?_ ?_
    · rw [setWorker_self]
      rfl
    · intro v hv
      rw [setWorker_ne _ hv]
  | run w flips => exact run_poolChange hs
  | lookup w => exact lookup_poolChange hs
  | read w => exact read_poolChange hs
  | popIo w =>
    obtain ⟨task, rest, _, _, rfl⟩ := popIo_cases hs
    exact .same rfl rfl rfl fun v => rfl
  | runIo w => exact runIo_poolChange hs
  | sigint =>
    obtain ⟨_, rfl⟩ := sigint_cases hs
    exact .same rfl rfl rfl fun v => rfl
  | handle => exact handle_poolChange hs

/-! ## Puts, deletes and flushes -/

theorem runPut_contents (s : Server) (key : Int32) (value : Bytes) (flips : Fin level → Bool) :
    (s.runPut key value flips).store.write.RWcache.contents =
      s.store.write.RWcache.contents.add key value :=
  Cache.put_contents s.store.write s.store.fi key value flips

/-- A put asks for no block and keeps the lock free, or it allocates one and leaves the
lock to a flush of it. -/
theorem runPut_cases (s : Server) (key : Int32) (value : Bytes) (flips : Fin level → Bool) :
    ((s.runPut key value flips).store.fi = s.store.fi ∧ (s.runPut key value flips).lock = s.lock) ∨
      (s.runPut key value flips).store.fi = s.store.fi.getFreeBlock.1 ∧
        ∃ t, (s.runPut key value flips).lock = some ⟨t, .enter⟩ ∧ t.freeBlock = s.store.fi.getFreeBlock.2 := by
  rcases s.store.write.put_cases s.store.fi key value flips with ⟨hfi, htask⟩ | ⟨hfi, t, htask, hblock⟩
  · exact Or.inl ⟨hfi, by simp [runPut, htask]⟩
  · exact Or.inr ⟨hfi, t, by simp [runPut, htask], hblock⟩

theorem runPut_small {key : Int32} {value : Bytes} {flips : Fin level → Bool}
    (h : ¬s.store.write.currentSize + s.store.write.RWcache.contents.addSize key value > CACHE_SIZE) :
    s.runPut key value flips =
      { s with store := { s.store with write := (s.store.write.put s.store.fi key value flips).1 } } := by
  simp only [runPut, s.store.write.put_small s.store.fi key value flips h]

theorem runPut_map (s : Server) (key : Int32) (value : Bytes) (flips : Fin level → Bool) :
    (s.runPut key value flips).store.fi.keyBlockMap = s.store.fi.keyBlockMap := by
  rcases s.runPut_cases key value flips with ⟨hfi, _⟩ | ⟨hfi, _⟩
  · rw [hfi]
  · rw [hfi, FileInfo.getFreeBlock_map]

theorem runDel_fi (s : Server) (key : Int32) : (s.runDel key).store.fi = s.store.fi :=
  Cache.delhander_write_fi _ _ _

theorem runDel_lookup (s : Server) (key k : Int32) :
    (s.runDel key).store.write.RWcache.contents.lookup k =
      if k = key then none else s.store.write.RWcache.contents.lookup k :=
  Cache.delhander_contents_lookup _ _ _ _ _

theorem run_change {w : Fin POOL_THREADS} {flips : Fin level → Bool} (hs : s.run w flips = some s') :
    Change s (.run w flips) s' := by
  obtain ⟨task, hw, hfree, ⟨key, value, hop, rfl⟩ | ⟨key, hop, rfl⟩ | ⟨key, hop, rfl⟩⟩ := run_cases hs
  · exact .put hw hop hfree (setWorker_quiet _ _ _)
  · exact .get hw hop hfree (setWorker_quiet _ _ _)
  · exact .del hw hop hfree (setWorker_quiet _ _ _)

theorem lookup_quiet {w : Fin POOL_THREADS} (hs : s.lookup w = some s') : Quiet s s' := by
  obtain ⟨key, _, ⟨block, _, rfl | rfl⟩ | rfl⟩ := lookup_cases hs
  · exact setWorker_quiet _ _ _
  · exact setWorker_quiet _ _ _
  · exact setWorker_quiet _ _ _

theorem read_quiet {w : Fin POOL_THREADS} (hs : s.read w = some s') : Quiet s s' := by
  rcases read_cases hs with ⟨key, block, _, rfl⟩ | ⟨key, block, _, rfl⟩ | ⟨key, block, _, rfl⟩
  · exact setWorker_quiet _ _ _
  · exact ⟨rfl, rfl, rfl, rfl, rfl, rfl, rfl, rfl⟩
  · exact ⟨rfl, rfl, rfl, rfl, rfl, rfl, rfl, rfl⟩

theorem runIo_change {w : Fin IO_THREADS} (hs : s.runIo w = some s') : Change s (.runIo w) s' := by
  rcases runIo_cases hs with ⟨f, hw, hlock, ⟨_, rfl⟩ | ⟨_, rfl⟩⟩ | ⟨key, block, _, rfl⟩ | ⟨key, block, _, rfl⟩
  · exact .flush hw hlock ⟨rfl, rfl, rfl, rfl, rfl, rfl, rfl, rfl⟩
  · exact .flush hw hlock (Quiet.refl _)
  · exact .quiet ⟨rfl, rfl, rfl, rfl, rfl, rfl, rfl, rfl⟩
  · exact .quiet ⟨rfl, rfl, rfl, rfl, rfl, rfl, rfl, rfl⟩

theorem step_change (hs : s.step a = some s') : Change s a s' := by
  cases a with
  | submit client op =>
    obtain ⟨task, _, _, _, rfl⟩ := submit_cases hs
    exact .quiet ⟨rfl, rfl, rfl, rfl, rfl, rfl, rfl, rfl⟩
  | pop w =>
    obtain ⟨task, rest, _, _, rfl⟩ := pop_cases hs
    exact .quiet ⟨rfl, rfl, rfl, rfl, rfl, rfl, rfl, rfl⟩
  | run w flips => exact run_change hs
  | lookup w => exact .quiet (lookup_quiet hs)
  | read w => exact .quiet (read_quiet hs)
  | popIo w =>
    obtain ⟨task, rest, _, _, rfl⟩ := popIo_cases hs
    exact .quiet ⟨rfl, rfl, rfl, rfl, rfl, rfl, rfl, rfl⟩
  | runIo w => exact runIo_change hs
  | sigint => exact .sigint hs
  | handle => exact .handle hs

/-! ## What a step does to the IO pool -/

/-- The kinds of steps as the IO pool sees them. -/
inductive IoChange (s s' : Server) : Act → Prop where
  | same {a : Act} (lock : s'.lock = s.lock) (ioTasks : s'.ioTasks = s.ioTasks)
      (ioWorkers : s'.ioWorkers = s.ioWorkers) : IoChange s s' a
  | flush {w : Fin POOL_THREADS} {flips : Fin level → Bool} {task : Task} {key : Int32} {value : Bytes}
      {flush : FlushTask} (worker : s.workers w = .run task) (op : task.op = .put key value)
      (large : s.store.write.currentSize + s.store.write.RWcache.contents.addSize key value > CACHE_SIZE)
      (free : s.lock = none) (block : flush.freeBlock = s.store.fi.getFreeBlock.2)
      (lock : s'.lock = some ⟨flush, .enter⟩)
      (ioTasks : s'.ioTasks = pushIo s.ioTasks (flush.freeBlock - 1) .flush)
      (ioWorkers : s'.ioWorkers = s.ioWorkers) : IoChange s s' (.run w flips)
  | load {w : Fin POOL_THREADS} {key : Int32} {block : SizeT}
      (worker : s.workers w = .read (.submit key block)) (lock : s'.lock = s.lock)
      (ioTasks : s'.ioTasks = pushIo s.ioTasks (block - 1) (.load key block))
      (ioWorkers : s'.ioWorkers = s.ioWorkers) : IoChange s s' (.read w)
  | pop {w : Fin IO_THREADS} {task : IoTask} {rest : List IoTask} (idle : s.ioWorkers w = .idle)
      (queue : s.ioTasks (UInt64.ofNat w) = task :: rest) (lock : s'.lock = s.lock)
      (ioTasks : s'.ioTasks = Function.update s.ioTasks (UInt64.ofNat w) rest)
      (ioWorkers : s'.ioWorkers = Function.update s.ioWorkers w task.worker) : IoChange s s' (.popIo w)
  /-- A part of the flush that holds the lock, which keeps its worker. -/
  | goOn {w : Fin IO_THREADS} {task : FlushTask} {p q : FlushPhase} (worker : s.ioWorkers w = .flush)
      (held : s.lock = some ⟨task, p⟩) (lock : s'.lock = some ⟨task, q⟩) (ioTasks : s'.ioTasks = s.ioTasks)
      (ioWorkers : s'.ioWorkers = s.ioWorkers) : IoChange s s' (.runIo w)
  | finish {w : Fin IO_THREADS} (worker : s.ioWorkers w = .flush) (lock : s'.lock = none)
      (ioTasks : s'.ioTasks = s.ioTasks) (ioWorkers : s'.ioWorkers = Function.update s.ioWorkers w .idle) :
      IoChange s s' (.runIo w)
  | read {w : Fin IO_THREADS} {worker : IoWorker} (old : s.ioWorkers w ≠ .flush) (new : worker ≠ .flush)
      (lock : s'.lock = s.lock) (ioTasks : s'.ioTasks = s.ioTasks)
      (ioWorkers : s'.ioWorkers = Function.update s.ioWorkers w worker) : IoChange s s' (.runIo w)

theorem run_ioChange {w : Fin POOL_THREADS} {flips : Fin level → Bool} (hs : s.run w flips = some s') :
    IoChange s s' (.run w flips) := by
  obtain ⟨task, hw, hfree, ⟨key, value, hop, rfl⟩ | ⟨key, _, rfl⟩ | ⟨key, _, rfl⟩⟩ := run_cases hs
  · cases htask : (s.store.write.put s.store.fi key value flips).2.2 with
    | none =>
      apply IoChange.same
      · simp only [setWorker, runPut, record, htask]
      · simp only [setWorker, runPut, record, htask]
      · rfl
    | some t =>
      obtain ⟨hlarge, hblock⟩ := s.store.write.put_some s.store.fi key value flips htask
      have hlock : ((s.record task).runPut key value flips).lock = some ⟨t, .enter⟩ := by
        simp only [runPut, record, htask]
      refine .flush hw hop hlarge hfree hblock hlock ?_ rfl
      simp only [setWorker, runPut, record, htask]
  · exact .same rfl rfl rfl
  · exact .same rfl rfl rfl

theorem runIo_ioChange {w : Fin IO_THREADS} (hs : s.runIo w = some s') : IoChange s s' (.runIo w) := by
  rcases runIo_cases hs with
    ⟨f, hw, hlock, ⟨hnone, rfl⟩ | ⟨hsome, rfl⟩⟩ | ⟨key, block, hw, rfl⟩ | ⟨key, block, hw, rfl⟩
  · exact .finish hw hnone rfl rfl
  · obtain ⟨q, hq⟩ : ∃ q, (s.store.flushPart f.task f.phase).2 = some q :=
      Option.isSome_iff_exists.mp (by simpa [runFlush] using hsome)
    refine .goOn (q := q) hw hlock ?_ rfl rfl
    simp [runFlush, hq]
  · exact .read (by simp [hw]) (by simp) rfl rfl rfl
  · exact .read (by simp [hw]) (by simp) rfl rfl rfl

theorem handle_ioChange (hs : s.handle = some s') : IoChange s s' .handle := by
  cases handle_cases hs with
  | wait _ _ => exact .same rfl rfl rfl
  | alloc _ => exact .same rfl rfl rfl
  | flush _ => exact .same rfl rfl rfl
  | image _ => exact .same rfl rfl rfl

theorem step_ioChange (hs : s.step a = some s') : IoChange s s' a := by
  cases a with
  | submit client op =>
    obtain ⟨task, _, _, _, rfl⟩ := submit_cases hs
    exact .same rfl rfl rfl
  | pop w =>
    obtain ⟨task, rest, _, _, rfl⟩ := pop_cases hs
    exact .same rfl rfl rfl
  | run w flips => exact run_ioChange hs
  | lookup w =>
    obtain ⟨key, _, ⟨block, _, rfl | rfl⟩ | rfl⟩ := lookup_cases hs
    · exact .same rfl rfl rfl
    · exact .same rfl rfl rfl
    · exact .same rfl rfl rfl
  | read w =>
    rcases read_cases hs with ⟨key, block, _, rfl⟩ | ⟨key, block, _, rfl⟩ | ⟨key, block, hw, rfl⟩
    · exact .same rfl rfl rfl
    · exact .same rfl rfl rfl
    · exact .load hw rfl rfl rfl
  | popIo w =>
    obtain ⟨task, rest, hidle, hqueue, rfl⟩ := popIo_cases hs
    exact .pop hidle hqueue rfl rfl rfl
  | runIo w => exact runIo_ioChange hs
  | sigint =>
    obtain ⟨_, rfl⟩ := sigint_cases hs
    exact .same rfl rfl rfl
  | handle => exact handle_ioChange hs

theorem mem_pushIo {ioTasks : SizeT → List IoTask} {q q' : SizeT} {task task' : IoTask} :
    task' ∈ pushIo ioTasks q task q' ↔ task' ∈ ioTasks q' ∨ q' = q ∧ task' = task := by
  by_cases hq : q' = q
  · subst hq
    simp [pushIo]
  · simp [pushIo, hq]

/-! ## The index and the disk only grow -/

theorem handle_grows (hs : s.handle = some s') : s.store.Grows s'.store := by
  cases handle_cases hs with
  | wait _ _ => exact .of_congr rfl rfl
  | alloc _ => exact .of_congr (FileInfo.getFreeBlock_map _) rfl
  | flush _ => exact s.store.flushPart_grows _ _
  | image _ => exact .of_congr (FileInfo.writeToBlock0_map _) rfl

theorem Quiet.grows {m : Server} (hq : Quiet m s') (h : s.store.Grows m.store) : s.store.Grows s'.store :=
  ⟨hq.fi ▸ h.mapped, hq.disk ▸ h.disk⟩

theorem step_grows (hs : s.step a = some s') : s.store.Grows s'.store := by
  cases step_change hs with
  | quiet hq => exact hq.grows (.of_congr rfl rfl)
  | put worker op free hq => exact hq.grows (.of_congr (runPut_map _ _ _ _) rfl)
  | get worker op free hq => exact hq.grows (.of_congr rfl rfl)
  | del worker op free hq => exact hq.grows (.of_congr (congrArg _ (runDel_fi _ _)) rfl)
  | flush worker held hq => exact hq.grows (s.store.flushPart_grows _ _)
  | sigint hh =>
    obtain ⟨_, rfl⟩ := sigint_cases hh
    exact .of_congr rfl rfl
  | handle hh => exact handle_grows hh

end Server

end KVStorage

import KVStorage.WorkerThread

/-!
# The request pool

`thread_utils::thread_pool` with any number of threads that call it. A step is one
critical section, or one thing that happens on a condition variable. `status_mutex` is
seen as the threads inside it: any number that share it, or one that owns it. A thread
that would have to wait for it has not begun its call.
-/

namespace KVStorage

set_option autoImplicit false

open Runs

universe u

/-- `thread_pool::status_t`. -/
inductive PoolStatus where
  | terminated
  | terminating
  | running
  | paused
  | shutdown
  deriving DecidableEq

/-- The calls; `shutdown_now` is `terminate`, and `destroy` is the destructor. -/
inductive PoolCall (τ : Type u) where
  | submit (task : τ)
  | pause
  | resume
  | shutdown
  | terminate
  | wait
  | addThread (count : Nat)
  | removeThread (count : Nat)
  | destroy

/-- What goes through `worker_list` with the status locked. -/
inductive Sweep where
  | pause
  | resume
  /-- `shutdown` of a paused pool resumes it first. -/
  | resumeToShutdown
  | terminate
  /-- The end of `shutdown`, which still shares `task_queue_mutex`. -/
  | shutdown
  | destroy
  deriving DecidableEq

/-- The signal for each worker. -/
def Sweep.signal {τ : Type u} : Sweep → WorkerThread τ → WorkerThread τ
  | .pause => WorkerThread.pause
  | .resume | .resumeToShutdown => WorkerThread.resume
  | .terminate | .shutdown | .destroy => WorkerThread.terminate

/-- The thread that owns `status_mutex`, with the workers it has still to see. -/
inductive Writer where
  | signalling (sweep : Sweep) (left : List Nat)
  /-- `shutdown` waits for the queue to be empty. -/
  | draining (asleep : Bool)
  /-- `~thread_pool` destroys `worker_list`, when nobody else may call any more:
  `~worker_thread` first terminates the worker and then joins it. -/
  | ending (left : List Nat)
  | joining (left : List Nat)
  | destroyed
  deriving DecidableEq

/-- A thread that shares `status_mutex`, or is not in a call. -/
inductive Reader (τ : Type u) where
  | idle
  /-- `submit` reads the length of the queue, pushes, and notifies. -/
  | counting (task : τ)
  | pushing (task : τ)
  | notifying
  /-- `wait` waits for the queue to be empty. -/
  | waiting (asleep : Bool)
  | removing

/-- `remove_thread`, which owns `worker_list_mutex`. -/
inductive Removal where
  | signalling (left : List Nat)
  | ending (left : List Nat)
  | joining (left : List Nat)
  deriving DecidableEq

/-- The threads inside `status_mutex`. -/
inductive Users (m : Nat) (τ : Type u) where
  | shared (readers : Fin m → Reader τ) (removal : Option (Fin m × Nat × Removal))
  | exclusive (caller : Fin m) (writer : Writer)

structure ThreadPool (m : Nat) (τ : Type u) where
  status : PoolStatus
  maxTaskCount : Nat
  taskQueue : List τ
  workers : Nat → WorkerThread τ
  /-- `worker_list.size()`; the workers are numbered by their place. -/
  size : Nat
  users : Users m τ
  /-- The tasks that were pushed, taken and finished so far, in this order. -/
  accepted : List τ
  started : List τ
  finished : List τ

inductive ThreadPoolAct (m : Nat) (τ : Type u) where
  | check (worker : Nat)
  | acquire (worker : Nat)
  | lock (worker : Nat)
  | test (worker : Nat)
  | sleep (worker : Nat)
  | wakeSpurious (worker : Nat)
  | finish (worker : Nat)
  | call (caller : Fin m) (call : PoolCall τ)
  | count (caller : Fin m)
  | push (caller : Fin m)
  /-- `notify_one`, with the sleeper it wakes, if there is one. -/
  | notifyOne (caller : Fin m) (sleeper : Option Nat)
  /-- `wait` looks at the queue. -/
  | drain (caller : Fin m)
  | drainSpurious (caller : Fin m)
  /-- The owner of `status_mutex` goes on. -/
  | write
  | writeSpurious
  /-- `remove_thread` goes on. -/
  | remove

namespace Reader

variable {τ : Type u}

instance decidableIdle : DecidablePred fun r : Reader τ => r = idle
  | .idle => isTrue rfl
  | .counting _ | .pushing _ | .notifying | .waiting _ | .removing => isFalse nofun

/-- `task_queue_empty_cv.notify_all`, for one thread. -/
def wake : Reader τ → Reader τ
  | waiting _ => waiting false
  | r => r

end Reader

def Writer.wake : Writer → Writer
  | draining _ => draining false
  | w => w

/-- `task_queue_empty_cv.notify_all`. -/
def Users.wake {m : Nat} {τ : Type u} : Users m τ → Users m τ
  | shared readers removal => shared (fun c => (readers c).wake) removal
  | exclusive c w => exclusive c w.wake

/-- Whether the pool refuses tasks in this status, and how. -/
def submitError : PoolStatus → Option String
  | .terminated => some "[thread_pool::submit][error]: thread pool is terminated"
  | .terminating => some "[thread_pool::submit][error]: thread pool is terminating"
  | .paused => some "[thread_pool::submit][error]: thread pool is paused"
  | .shutdown =>
    some "[thread_pool::submit][error]: thread pool is waiting for tasks to complete, but not accepting new tasks"
  | .running => none

/-- The switch of `add_thread` and `remove_thread`. -/
def resizable : PoolStatus → Bool
  | .terminated | .terminating | .paused => false
  | .running | .shutdown => true

/-- The switch of a call that owns `status_mutex`: the status it sets and what it then
does, unless it returns at once. -/
def PoolCall.entry {τ : Type u} (size : Nat) : PoolCall τ → PoolStatus → Option (PoolStatus × Writer)
  | .pause, .running => some (.paused, .signalling .pause (List.range size))
  | .resume, .paused => some (.running, .signalling .resume (List.range size))
  | .resume, .shutdown => some (.shutdown, .signalling .resume (List.range size))
  | .shutdown, .paused => some (.running, .signalling .resumeToShutdown (List.range size))
  | .shutdown, .running => some (.shutdown, .draining false)
  | .terminate, .terminated => none
  | .terminate, _ => some (.terminating, .signalling .terminate (List.range size))
  | .destroy, .terminated => some (.terminated, .ending (List.range size))
  | .destroy, _ => some (.terminating, .signalling .destroy (List.range size))
  | _, _ => none

namespace ThreadPool

variable {m : Nat} {τ : Type u}

/-- `thread_pool(initial_thread_count, max_task_count)`. -/
def start (m : Nat) (τ : Type u) (initialThreadCount maxTaskCount : Nat) : ThreadPool m τ where
  status := .running
  maxTaskCount := maxTaskCount
  taskQueue := []
  workers _ := .start
  size := initialThreadCount
  users := .shared (fun _ => .idle) none
  accepted := []
  started := []
  finished := []

def setWorker (s : ThreadPool m τ) (i : Nat) (w : WorkerThread τ) : ThreadPool m τ :=
  { s with workers := Function.update s.workers i w }

/-- `task_queue_cv.notify_all`. -/
def wakeAll (s : ThreadPool m τ) : ThreadPool m τ := { s with workers := fun i => (s.workers i).wake }

/-- Nobody has locked `task_queue_mutex`, or some only share it. -/
def QueueShared (s : ThreadPool m τ) : Prop := ∀ i < s.size, ¬(s.workers i).point.Locks

def QueueFree (s : ThreadPool m τ) : Prop :=
  s.QueueShared ∧ ∀ c left, s.users ≠ .exclusive c (.signalling .shutdown left)

/-- The caller may own `status_mutex`. -/
def Alone (readers : Fin m → Reader τ) (removal : Option (Fin m × Nat × Removal)) : Prop :=
  (∀ c, readers c = .idle) ∧ removal = none

/-- What `notify_one` may wake: any sleeper, and nobody only when nobody sleeps. -/
def Wakes (s : ThreadPool m τ) : Option Nat → Prop
  | some i => i < s.size ∧ (s.workers i).point = .asleep
  | none => ∀ i < s.size, (s.workers i).point ≠ .asleep

def wake (s : ThreadPool m τ) : Option Nat → ThreadPool m τ
  | some i => s.setWorker i (s.workers i).wake
  | none => s

instance decidableQueueShared (s : ThreadPool m τ) : Decidable s.QueueShared :=
  inferInstanceAs (Decidable (∀ i < s.size, _))

instance decidableQueueFree (s : ThreadPool m τ) : Decidable s.QueueFree :=
  match h : s.users with
  | .exclusive c (.signalling .shutdown left) => isFalse fun hf => hf.2 c left h
  | .shared _ _ | .exclusive _ (.draining _) | .exclusive _ (.ending _) | .exclusive _ (.joining _)
  | .exclusive _ .destroyed | .exclusive _ (.signalling .pause _) | .exclusive _ (.signalling .resume _)
  | .exclusive _ (.signalling .resumeToShutdown _) | .exclusive _ (.signalling .terminate _)
  | .exclusive _ (.signalling .destroy _) =>
    decidable_of_iff s.QueueShared ⟨fun hq => ⟨hq, by simp [h]⟩, And.left⟩

instance decidableAlone (readers : Fin m → Reader τ) (removal : Option (Fin m × Nat × Removal)) :
    Decidable (Alone readers removal) :=
  match removal with
  | none => decidable_of_iff (∀ c, readers c = .idle) ⟨fun h => ⟨h, rfl⟩, And.left⟩
  | some _ => isFalse fun h => nomatch h.2

instance decidableWakes (s : ThreadPool m τ) : DecidablePred s.Wakes
  | some _ => inferInstanceAs (Decidable (_ ∧ _))
  | none => inferInstanceAs (Decidable (∀ i < s.size, (s.workers i).point ≠ .asleep))

/-! ## The steps -/

def setReader (s : ThreadPool m τ) (readers : Fin m → Reader τ) (removal : Option (Fin m × Nat × Removal))
    (c : Fin m) (r : Reader τ) : ThreadPool m τ :=
  { s with users := .shared (Function.update readers c r) removal }

/-- A worker with the queue locked takes the first task, or goes on to its wait. -/
def testQueue (s : ThreadPool m τ) (i : Nat) : ThreadPool m τ :=
  match s.taskQueue with
  | [] => s.setWorker i { s.workers i with point := .check .before }
  | task :: rest =>
    { s.setWorker i { s.workers i with point := .running task } with
      taskQueue := rest
      users := if rest.isEmpty then s.users.wake else s.users
      started := s.started ++ [task] }

/-- A call begins with its switch over the status. -/
def enter (s : ThreadPool m τ) (c : Fin m) (readers : Fin m → Reader τ)
    (removal : Option (Fin m × Nat × Removal)) : PoolCall τ → Option (ThreadPool m τ)
  | .submit task =>
    match submitError s.status with
    | some _ => some s
    | none => some (s.setReader readers removal c (.counting task))
  | .wait => if s.status = .terminated then some s else some (s.setReader readers removal c (.waiting false))
  | .addThread count =>
    if removal = none then
      if resizable s.status then
        some { s with
          workers := fun i => if s.size ≤ i then .start else s.workers i
          size := s.size + count }
      else some s
    else none
  | .removeThread count =>
    if removal = none then
      if resizable s.status then
        let keep := s.size - min count s.size
        some (s.setReader readers
          (some (c, keep, .signalling (List.range' keep (s.size - keep)).reverse)) c .removing)
      else some s
    else none
  | call =>
    if Alone readers removal then
      match call.entry s.size s.status with
      | none => some s
      | some (status, writer) => some { s with status := status, users := .exclusive c writer }
    else none

/-- The end of a sweep. -/
def close (s : ThreadPool m τ) (c : Fin m) : Sweep → ThreadPool m τ
  | .pause | .resume => { s with users := .shared (fun _ => .idle) none }
  | .resumeToShutdown => { s with status := .shutdown, users := .exclusive c (.draining false) }
  | .terminate | .shutdown => { s.wakeAll with status := .terminated, users := .shared (fun _ => .idle) none }
  | .destroy => { s.wakeAll with status := .terminated, users := .exclusive c (.ending (List.range s.size)) }

/-- The first half of `~worker_thread`. -/
def endWorker (s : ThreadPool m τ) (i : Nat) : ThreadPool m τ :=
  let ended := s.setWorker i (s.workers i).terminate
  if (s.workers i).status = .blocked then ended.wakeAll else ended

def write (s : ThreadPool m τ) (c : Fin m) : Writer → Option (ThreadPool m τ)
  | .signalling sweep (i :: left) =>
    some { s.setWorker i (sweep.signal (s.workers i)) with users := .exclusive c (.signalling sweep left) }
  | .signalling sweep [] => some (s.close c sweep)
  | .draining true => none
  | .draining false =>
    if s.QueueShared then
      match s.taskQueue with
      | [] =>
        some { s with status := .terminating, users := .exclusive c (.signalling .shutdown (List.range s.size)) }
      | _ :: _ => some { s with users := .exclusive c (.draining true) }
    else none
  | .ending (i :: left) => some { s.endWorker i with users := .exclusive c (.joining (i :: left)) }
  | .ending [] => some { s with users := .exclusive c .destroyed }
  | .joining (i :: left) =>
    if (s.workers i).point = .returned then some { s with users := .exclusive c (.ending left) } else none
  | .joining [] => none
  | .destroyed => none

def removeNext (s : ThreadPool m τ) (readers : Fin m → Reader τ) (c : Fin m) (keep : Nat) :
    Removal → Option (ThreadPool m τ)
  | .signalling (i :: left) =>
    some { s.setWorker i (s.workers i).terminate with
      users := .shared readers (some (c, keep, .signalling left)) }
  | .signalling [] =>
    some { s.wakeAll with
      users := .shared readers (some (c, keep, .ending (List.range' keep (s.size - keep)))) }
  | .ending (i :: left) => some { s.endWorker i with users := .shared readers (some (c, keep, .joining (i :: left))) }
  | .ending [] => some { s with size := keep, users := .shared (Function.update readers c .idle) none }
  | .joining (i :: left) =>
    if (s.workers i).point = .returned then
      some { s with users := .shared readers (some (c, keep, .ending left)) }
    else none
  | .joining [] => none

/-- The next thing a thread does that shares `status_mutex`. -/
def read (s : ThreadPool m τ) (c : Fin m) (readers : Fin m → Reader τ)
    (removal : Option (Fin m × Nat × Removal)) : ThreadPoolAct m τ → Option (ThreadPool m τ)
  | .call _ call => if readers c = .idle then s.enter c readers removal call else none
  | .count _ =>
    match readers c with
    | .counting task =>
      if 0 < s.maxTaskCount then
        if s.QueueShared then
          if s.maxTaskCount ≤ s.taskQueue.length then some (s.setReader readers removal c .idle)
          else some (s.setReader readers removal c (.pushing task))
        else none
      else some (s.setReader readers removal c (.pushing task))
    | _ => none
  | .push _ =>
    match readers c with
    | .pushing task =>
      if s.QueueFree then
        some { s.setReader readers removal c .notifying with
          taskQueue := s.taskQueue ++ [task]
          accepted := s.accepted ++ [task] }
      else none
    | _ => none
  | .notifyOne _ sleeper =>
    match readers c with
    | .notifying => if s.Wakes sleeper then some ((s.wake sleeper).setReader readers removal c .idle) else none
    | _ => none
  | .drain _ =>
    match readers c with
    | .waiting false =>
      if s.QueueShared then
        match s.taskQueue with
        | [] => some (s.setReader readers removal c .idle)
        | _ :: _ => some (s.setReader readers removal c (.waiting true))
      else none
    | _ => none
  | .drainSpurious _ =>
    match readers c with
    | .waiting true => some (s.setReader readers removal c (.waiting false))
    | _ => none
  | _ => none

def step (s : ThreadPool m τ) (a : ThreadPoolAct m τ) : Option (ThreadPool m τ) :=
  match a with
  | .check i =>
    if i < s.size then
      match (s.workers i).point with
      | .check c => some (s.setWorker i ((s.workers i).check c))
      | _ => none
    else none
  | .acquire i =>
    if i < s.size ∧ 0 < (s.workers i).pauseSem then
      match (s.workers i).point with
      | .acquire c => some (s.setWorker i ((s.workers i).acquired c))
      | _ => none
    else none
  | .lock i =>
    if i < s.size ∧ s.QueueFree then
      match (s.workers i).point with
      | .lock c => some (s.setWorker i ((s.workers i).locked c))
      | _ => none
    else none
  | .test i =>
    if i < s.size then
      match (s.workers i).point with
      | .test => some (s.testQueue i)
      | _ => none
    else none
  | .sleep i =>
    if i < s.size then
      match (s.workers i).point with
      | .waiting => some (s.setWorker i { s.workers i with point := .asleep })
      | _ => none
    else none
  | .wakeSpurious i =>
    if i < s.size ∧ (s.workers i).point = .asleep then some (s.setWorker i (s.workers i).wake) else none
  | .finish i =>
    if i < s.size then
      match (s.workers i).point with
      | .running task =>
        some { s.setWorker i { s.workers i with point := .check .outer } with finished := s.finished ++ [task] }
      | _ => none
    else none
  | .write =>
    match s.users with
    | .exclusive c w => s.write c w
    | .shared _ _ => none
  | .writeSpurious =>
    match s.users with
    | .exclusive c (.draining true) => some { s with users := .exclusive c (.draining false) }
    | _ => none
  | .remove =>
    match s.users with
    | .shared readers (some (c, keep, removal)) => s.removeNext readers c keep removal
    | _ => none
  | .call c _ | .count c | .push c | .notifyOne c _ | .drain c | .drainSpurious c =>
    match s.users with
    | .shared readers removal => s.read c readers removal a
    | .exclusive _ _ => none

/-! ## What a step can do -/

variable {s s' : ThreadPool m τ} {a : ThreadPoolAct m τ}

/-- What worker `i` does, but for taking and finishing a task. -/
inductive WorkerStep (s : ThreadPool m τ) (i : Nat) : ThreadPoolAct m τ → WorkerThread τ → Prop where
  | check {c : Checkpoint} (point : (s.workers i).point = .check c) :
      WorkerStep s i (.check i) ((s.workers i).check c)
  | acquire {c : Checkpoint} (point : (s.workers i).point = .acquire c) (permit : 0 < (s.workers i).pauseSem) :
      WorkerStep s i (.acquire i) ((s.workers i).acquired c)
  | lock {c : Checkpoint} (point : (s.workers i).point = .lock c) (free : s.QueueFree) :
      WorkerStep s i (.lock i) ((s.workers i).locked c)
  | empty (point : (s.workers i).point = .test) (queue : s.taskQueue = []) :
      WorkerStep s i (.test i) { s.workers i with point := .check .before }
  | sleep (point : (s.workers i).point = .waiting) :
      WorkerStep s i (.sleep i) { s.workers i with point := .asleep }
  | wake (point : (s.workers i).point = .asleep) :
      WorkerStep s i (.wakeSpurious i) { s.workers i with point := .lock .after }

/-- What a thread does that shares `status_mutex`, but for pushing and notifying. -/
inductive ReaderStep (s : ThreadPool m τ) : ThreadPoolAct m τ → Reader τ → Reader τ → Prop where
  | submit {c : Fin m} {task : τ} (running : s.status = .running) :
      ReaderStep s (.call c (.submit task)) .idle (.counting task)
  | wait {c : Fin m} (status : s.status ≠ .terminated) : ReaderStep s (.call c .wait) .idle (.waiting false)
  | full {c : Fin m} {task : τ} (bounded : 0 < s.maxTaskCount) (full : s.maxTaskCount ≤ s.taskQueue.length) :
      ReaderStep s (.count c) (.counting task) .idle
  | count {c : Fin m} {task : τ} (room : 0 < s.maxTaskCount → s.taskQueue.length < s.maxTaskCount) :
      ReaderStep s (.count c) (.counting task) (.pushing task)
  | drained {c : Fin m} (queue : s.taskQueue = []) : ReaderStep s (.drain c) (.waiting false) .idle
  | drain {c : Fin m} (queue : s.taskQueue ≠ []) : ReaderStep s (.drain c) (.waiting false) (.waiting true)
  | spurious {c : Fin m} : ReaderStep s (.drainSpurious c) (.waiting true) (.waiting false)

/-- What the owner of `status_mutex` does without touching the workers. -/
inductive WriterStep (s : ThreadPool m τ) : ThreadPoolAct m τ → Writer → Writer → Prop where
  | drain (queue : s.taskQueue ≠ []) : WriterStep s .write (.draining false) (.draining true)
  | spurious : WriterStep s .writeSpurious (.draining true) (.draining false)
  | ended : WriterStep s .write (.ending []) .destroyed
  | join {i : Nat} {left : List Nat} (returned : (s.workers i).point = .returned) :
      WriterStep s .write (.joining (i :: left)) (.ending left)

inductive Stepped (s : ThreadPool m τ) : ThreadPoolAct m τ → ThreadPool m τ → Prop where
  | worker {a : ThreadPoolAct m τ} {i : Nat} {w : WorkerThread τ} (lt : i < s.size) (h : WorkerStep s i a w) :
      Stepped s a (s.setWorker i w)
  | take {i : Nat} {task : τ} {rest : List τ} (lt : i < s.size) (point : (s.workers i).point = .test)
      (queue : s.taskQueue = task :: rest) :
      Stepped s (.test i)
        { s.setWorker i { s.workers i with point := .running task } with
          taskQueue := rest
          users := if rest.isEmpty then s.users.wake else s.users
          started := s.started ++ [task] }
  | finish {i : Nat} {task : τ} (lt : i < s.size) (point : (s.workers i).point = .running task) :
      Stepped s (.finish i)
        { s.setWorker i { s.workers i with point := .check .outer } with finished := s.finished ++ [task] }
  | refuse {c : Fin m} {call : PoolCall τ} : Stepped s (.call c call) s
  | read {a : ThreadPoolAct m τ} {c : Fin m} {readers : Fin m → Reader τ}
      {removal : Option (Fin m × Nat × Removal)} {old new : Reader τ} (users : s.users = .shared readers removal)
      (old_eq : readers c = old) (h : ReaderStep s a old new) : Stepped s a (s.setReader readers removal c new)
  | push {c : Fin m} {readers : Fin m → Reader τ} {removal : Option (Fin m × Nat × Removal)} {task : τ}
      (users : s.users = .shared readers removal) (old : readers c = .pushing task) (free : s.QueueFree) :
      Stepped s (.push c)
        { s.setReader readers removal c .notifying with
          taskQueue := s.taskQueue ++ [task]
          accepted := s.accepted ++ [task] }
  | notify {c : Fin m} {sleeper : Option Nat} {readers : Fin m → Reader τ}
      {removal : Option (Fin m × Nat × Removal)} (users : s.users = .shared readers removal)
      (old : readers c = .notifying) (wakes : s.Wakes sleeper) :
      Stepped s (.notifyOne c sleeper) ((s.wake sleeper).setReader readers removal c .idle)
  | addThread {c : Fin m} {count : Nat} {readers : Fin m → Reader τ} (users : s.users = .shared readers none)
      (status : resizable s.status) :
      Stepped s (.call c (.addThread count))
        { s with workers := fun i => if s.size ≤ i then .start else s.workers i, size := s.size + count }
  | removeThread {c : Fin m} {count keep : Nat} {readers : Fin m → Reader τ}
      (users : s.users = .shared readers none) (old : readers c = .idle) (status : resizable s.status)
      (rest : keep = s.size - min count s.size) :
      Stepped s (.call c (.removeThread count))
        (s.setReader readers (some (c, keep, .signalling (List.range' keep (s.size - keep)).reverse)) c .removing)
  | enter {c : Fin m} {call : PoolCall τ} {status : PoolStatus} {writer : Writer} {readers : Fin m → Reader τ}
      (users : s.users = .shared readers none) (alone : ∀ d, readers d = .idle)
      (entry : call.entry s.size s.status = some (status, writer)) :
      Stepped s (.call c call) { s with status := status, users := .exclusive c writer }
  | write {a : ThreadPoolAct m τ} {c : Fin m} {old new : Writer} (users : s.users = .exclusive c old)
      (h : WriterStep s a old new) : Stepped s a { s with users := .exclusive c new }
  | drained {c : Fin m} (users : s.users = .exclusive c (.draining false)) (unlocked : s.QueueShared)
      (queue : s.taskQueue = []) :
      Stepped s .write
        { s with status := .terminating, users := .exclusive c (.signalling .shutdown (List.range s.size)) }
  | signal {c : Fin m} {sweep : Sweep} {i : Nat} {left : List Nat}
      (users : s.users = .exclusive c (.signalling sweep (i :: left))) :
      Stepped s .write
        { s.setWorker i (sweep.signal (s.workers i)) with users := .exclusive c (.signalling sweep left) }
  | close {c : Fin m} {sweep : Sweep} (users : s.users = .exclusive c (.signalling sweep [])) :
      Stepped s .write (s.close c sweep)
  | endWorker {c : Fin m} {i : Nat} {left : List Nat} (users : s.users = .exclusive c (.ending (i :: left))) :
      Stepped s .write { s.endWorker i with users := .exclusive c (.joining (i :: left)) }
  | remove {readers : Fin m → Reader τ} {c : Fin m} {keep : Nat} {removal : Removal} {s' : ThreadPool m τ}
      (users : s.users = .shared readers (some (c, keep, removal)))
      (next : s.removeNext readers c keep removal = some s') : Stepped s .remove s'

theorem worker_stepped {i : Nat} (hs : s.step a = some s')
    (ha : a = .check i ∨ a = .acquire i ∨ a = .lock i ∨ a = .test i ∨ a = .sleep i ∨ a = .wakeSpurious i ∨
      a = .finish i) : Stepped s a s' := by
  rcases ha with rfl | rfl | rfl | rfl | rfl | rfl | rfl <;> simp only [step] at hs <;>
    obtain ⟨hlt, hs⟩ := Option.ite_none_right_eq_some.mp hs
  · split at hs
    case h_1 c hp => exact Option.some.inj hs ▸ .worker hlt (.check hp)
    case h_2 => cases hs
  · split at hs
    case h_1 c hp => exact Option.some.inj hs ▸ .worker hlt.1 (.acquire hp hlt.2)
    case h_2 => cases hs
  · split at hs
    case h_1 c hp => exact Option.some.inj hs ▸ .worker hlt.1 (.lock hp hlt.2)
    case h_2 => cases hs
  · split at hs
    case h_1 hp =>
      cases hq : s.taskQueue with
      | nil =>
        simp only [testQueue, hq, Option.some.injEq] at hs
        exact hs ▸ .worker hlt (.empty hp hq)
      | cons task rest =>
        simp only [testQueue, hq, Option.some.injEq] at hs
        exact hs ▸ .take hlt hp hq
    case h_2 => cases hs
  · split at hs
    case h_1 hp => exact Option.some.inj hs ▸ .worker hlt (.sleep hp)
    case h_2 => cases hs
  · simp only [WorkerThread.wake, hlt.2, if_true, Option.some.injEq] at hs
    exact hs ▸ .worker hlt.1 (.wake hlt.2)
  · split at hs
    case h_1 task hp => exact Option.some.inj hs ▸ .finish hlt hp
    case h_2 => cases hs

theorem enter_stepped {c : Fin m} {readers : Fin m → Reader τ} {removal : Option (Fin m × Nat × Removal)}
    {call : PoolCall τ} (users : s.users = .shared readers removal) (old : readers c = .idle)
    (hs : s.enter c readers removal call = some s') : Stepped s (.call c call) s' := by
  -- the calls that own the mutex go by their entry
  have hexclusive : (if Alone readers removal then
      match call.entry s.size s.status with
      | none => some s
      | some (status, writer) => some { s with status := status, users := .exclusive c writer }
    else none) = some s' → Stepped s (.call c call) s' := by
    intro hs
    obtain ⟨⟨hidle, hnone⟩, henter⟩ := Option.ite_none_right_eq_some.mp hs
    subst hnone
    split at henter
    case h_1 => exact Option.some.inj henter ▸ .refuse
    case h_2 he => exact Option.some.inj henter ▸ .enter users hidle he
  cases call with
  | submit task =>
    simp only [enter] at hs
    split at hs
    case h_1 => exact Option.some.inj hs ▸ .refuse
    case h_2 hnone =>
      have hrunning : s.status = .running := by
        cases hst : s.status <;> simp [hst, submitError] at hnone
        rfl
      exact Option.some.inj hs ▸ .read users old (.submit hrunning)
  | wait =>
    simp only [enter] at hs
    split at hs
    case isTrue => exact Option.some.inj hs ▸ .refuse
    case isFalse hst => exact Option.some.inj hs ▸ .read users old (.wait hst)
  | addThread count =>
    obtain ⟨hnone, henter⟩ := Option.ite_none_right_eq_some.mp hs
    subst hnone
    split at henter
    case isTrue hst => exact Option.some.inj henter ▸ .addThread users hst
    case isFalse => exact Option.some.inj henter ▸ .refuse
  | removeThread count =>
    obtain ⟨hnone, henter⟩ := Option.ite_none_right_eq_some.mp hs
    subst hnone
    split at henter
    case isTrue hst => exact Option.some.inj henter ▸ .removeThread users old hst rfl
    case isFalse => exact Option.some.inj henter ▸ .refuse
  | pause | resume | shutdown | terminate | destroy => exact hexclusive hs

theorem read_stepped {c : Fin m} {readers : Fin m → Reader τ} {removal : Option (Fin m × Nat × Removal)}
    (users : s.users = .shared readers removal) (hs : s.read c readers removal a = some s')
    (ha : (∃ call, a = .call c call) ∨ a = .count c ∨ a = .push c ∨ (∃ sleeper, a = .notifyOne c sleeper) ∨
      a = .drain c ∨ a = .drainSpurious c) : Stepped s a s' := by
  rcases ha with ⟨call, rfl⟩ | rfl | rfl | ⟨sleeper, rfl⟩ | rfl | rfl <;> simp only [read] at hs
  · obtain ⟨hidle, hs⟩ := Option.ite_none_right_eq_some.mp hs
    exact enter_stepped users hidle hs
  · split at hs
    case h_1 task hc =>
      split at hs
      case isTrue hmax =>
        obtain ⟨_, hs⟩ := Option.ite_none_right_eq_some.mp hs
        split at hs
        case isTrue hfull => exact Option.some.inj hs ▸ .read users hc (.full hmax hfull)
        case isFalse hroom => exact Option.some.inj hs ▸ .read users hc (.count fun _ => Nat.lt_of_not_le hroom)
      case isFalse hmax => exact Option.some.inj hs ▸ .read users hc (.count fun h => absurd h hmax)
    case h_2 => cases hs
  · split at hs
    case h_1 task hc =>
      obtain ⟨hfree, hs⟩ := Option.ite_none_right_eq_some.mp hs
      exact Option.some.inj hs ▸ .push users hc hfree
    case h_2 => cases hs
  · split at hs
    case h_1 hc =>
      obtain ⟨hwakes, hs⟩ := Option.ite_none_right_eq_some.mp hs
      exact Option.some.inj hs ▸ .notify users hc hwakes
    case h_2 => cases hs
  · split at hs
    case h_1 hc =>
      obtain ⟨_, hs⟩ := Option.ite_none_right_eq_some.mp hs
      split at hs
      case h_1 hq => exact Option.some.inj hs ▸ .read users hc (.drained hq)
      case h_2 hq => exact Option.some.inj hs ▸ .read users hc (.drain (by simp [hq]))
    case h_2 => cases hs
  · split at hs
    case h_1 hc => exact Option.some.inj hs ▸ .read users hc .spurious
    case h_2 => cases hs

theorem write_stepped {c : Fin m} {w : Writer} (users : s.users = .exclusive c w) (hs : s.write c w = some s') :
    Stepped s .write s' := by
  unfold write at hs
  split at hs
  case h_1 => exact Option.some.inj hs ▸ .signal users
  case h_2 => exact Option.some.inj hs ▸ .close users
  case h_3 => cases hs
  case h_4 =>
    obtain ⟨hunlocked, hs⟩ := Option.ite_none_right_eq_some.mp hs
    split at hs
    case h_1 hq => exact Option.some.inj hs ▸ .drained users hunlocked hq
    case h_2 hq => exact Option.some.inj hs ▸ .write users (.drain (by simp [hq]))
  case h_5 => exact Option.some.inj hs ▸ .endWorker users
  case h_6 => exact Option.some.inj hs ▸ .write users .ended
  case h_7 =>
    obtain ⟨hreturned, hs⟩ := Option.ite_none_right_eq_some.mp hs
    exact Option.some.inj hs ▸ .write users (.join hreturned)
  case h_8 => cases hs
  case h_9 => cases hs

theorem step_stepped (hs : s.step a = some s') : Stepped s a s' := by
  cases a with
  | check i | acquire i | lock i | test i | sleep i | wakeSpurious i | finish i =>
    exact worker_stepped (i := i) hs (by simp)
  | write =>
    simp only [step] at hs
    split at hs
    case h_1 hu => exact write_stepped hu hs
    case h_2 => cases hs
  | writeSpurious =>
    simp only [step] at hs
    split at hs
    case h_1 hu => exact Option.some.inj hs ▸ .write hu .spurious
    case h_2 => cases hs
  | remove =>
    simp only [step] at hs
    split at hs
    case h_1 hu => exact .remove hu hs
    case h_2 => cases hs
  | call c call | count c | push c | notifyOne c sleeper | drain c | drainSpurious c =>
    simp only [step] at hs
    split at hs
    case h_1 hu => exact read_stepped hu hs (by simp)
    case h_2 => cases hs

end ThreadPool

end KVStorage

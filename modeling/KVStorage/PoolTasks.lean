import KVStorage.PoolInvariant

/-!
# The tasks of the request pool

Where a task is that was submitted: in the queue, with a worker, or finished.
-/

namespace KVStorage

set_option autoImplicit false

open Runs

universe u v

/-- A sum over a family of which one member is replaced. -/
theorem sum_update {ι : Type u} {α : Type v} {M : Type*} [DecidableEq ι] [AddCommMonoid M] {t : Finset ι} {i : ι}
    (hi : i ∈ t) (g : ι → α) (x : α) (f : α → M) :
    ∑ j ∈ t, f (Function.update g i x j) + f (g i) = ∑ j ∈ t, f (g j) + f x := by
  have hothers : ∑ j ∈ t.erase i, f (Function.update g i x j) = ∑ j ∈ t.erase i, f (g j) := by
    apply Finset.sum_congr rfl
    intro j hj
    rw [Function.update_of_ne (Finset.ne_of_mem_erase hj)]
  rw [← Finset.add_sum_erase t _ hi, ← Finset.add_sum_erase t (fun j => f (g j)) hi, hothers, Function.update_self]
  ac_rfl

namespace ThreadPool

variable {m : Nat} {τ : Type u} {M : Type v} [AddCommMonoid M]

def total (s : ThreadPool m τ) (f : WorkerThread τ → M) : M := ∑ i ∈ Finset.range s.size, f (s.workers i)

variable {s s' : ThreadPool m τ} {a : ThreadPoolAct m τ}

theorem total_setWorker (f : WorkerThread τ → M) {i : Nat} (hi : i < s.size) (w : WorkerThread τ) :
    (s.setWorker i w).total f + f (s.workers i) = s.total f + f w :=
  sum_update (Finset.mem_range.mpr hi) s.workers w f

/-- The value of a worker counts for nothing where there is no worker. -/
theorem total_congr {f : WorkerThread τ → M}
    (h : ∀ i, (if i < s'.size then f (s'.workers i) else 0) = if i < s.size then f (s.workers i) else 0) :
    s'.total f = s.total f := by
  have hwide : ∀ (t : ThreadPool m τ) n, t.size ≤ n →
      t.total f = ∑ i ∈ Finset.range n, if i < t.size then f (t.workers i) else 0 := by
    intro t n hn
    have hfilter : (Finset.range n).filter (fun i => i < t.size) = Finset.range t.size := by
      ext i
      simp only [Finset.mem_filter, Finset.mem_range]
      omega
    rw [← Finset.sum_filter, hfilter, total]
  rw [hwide s' (max s.size s'.size) (le_max_right _ _), hwide s (max s.size s'.size) (le_max_left _ _)]
  exact Finset.sum_congr rfl fun i _ => h i

theorem total_same {f : WorkerThread τ → M} (hsize : s'.size = s.size)
    (h : ∀ i < s.size, f (s'.workers i) = f (s.workers i)) : s'.total f = s.total f := by
  rw [total, hsize]
  exact Finset.sum_congr rfl fun i hi => h i (Finset.mem_range.mp hi)

/-! ## Every task once -/

/-- Tasks are taken in the order of their submission, and what was taken is finished or with a worker. -/
structure Account (s : ThreadPool m τ) : Prop where
  queue : s.accepted = s.started ++ s.taskQueue
  running : (s.started : Multiset τ) = s.finished + s.total fun w => (w.point.task : Multiset τ)

theorem start_account (n max : Nat) : (start m τ n max).Account where
  queue := rfl
  running := by simp [start, total, WorkerThread.start, WorkerPoint.task]

/-- The step moves no task. -/
theorem Account.same (h : s.Account) (haccepted : s'.accepted = s.accepted) (hstarted : s'.started = s.started)
    (hfinished : s'.finished = s.finished) (hqueue : s'.taskQueue = s.taskQueue)
    (htasks : ∀ i, (if i < s'.size then ((s'.workers i).point.task : Multiset τ) else 0) =
      if i < s.size then ((s.workers i).point.task : Multiset τ) else 0) : s'.Account where
  queue := by rw [haccepted, hstarted, hqueue, h.queue]
  running := by rw [hstarted, hfinished, total_congr htasks, h.running]

theorem Account.points (h : s.Account) (haccepted : s'.accepted = s.accepted) (hstarted : s'.started = s.started)
    (hfinished : s'.finished = s.finished) (hqueue : s'.taskQueue = s.taskQueue) (hsize : s'.size = s.size)
    (htasks : ∀ i, (s'.workers i).point.task = (s.workers i).point.task) : s'.Account :=
  h.same haccepted hstarted hfinished hqueue fun i => by rw [hsize, htasks i]

theorem WorkerStep.task {i : Nat} {w : WorkerThread τ} (h : WorkerStep s i a w) :
    (s.workers i).point.task = [] ∧ w.point.task = [] := by
  cases h with
  | @check c point =>
    refine ⟨by rw [point]; rfl, ?_⟩
    cases c <;> cases hs : (s.workers i).status <;>
      simp [WorkerThread.check, WorkerThread.checkOuter, WorkerThread.checkBefore, WorkerThread.checkAfter, hs,
        WorkerPoint.task]
  | @acquire c point =>
    refine ⟨by rw [point]; rfl, ?_⟩
    cases c <;> rfl
  | @lock c point =>
    refine ⟨by rw [point]; rfl, ?_⟩
    cases c <;> rfl
  | empty point | sleep point | wake point => exact ⟨by rw [point]; rfl, rfl⟩

theorem wakeAll_task (s : ThreadPool m τ) (i : Nat) :
    (s.wakeAll.workers i).point.task = (s.workers i).point.task := by
  rcases (s.workers i).wake_cases with hw | ⟨hp, hw⟩ <;> simp only [wakeAll, hw]
  rw [hp]
  rfl

theorem setWorker_task {i : Nat} {w : WorkerThread τ} (h : w.point.task = (s.workers i).point.task) (j : Nat) :
    ((s.setWorker i w).workers j).point.task = (s.workers j).point.task :=
  forall_setWorker (p := fun j w => w.point.task = (s.workers j).point.task) h (fun _ _ => rfl) j

theorem Account.take (h : s.Account) {i : Nat} {task : τ} {rest : List τ} (lt : i < s.size)
    (point : (s.workers i).point = .test) (queue : s.taskQueue = task :: rest) (users : Users m τ) :
    Account { s.setWorker i { s.workers i with point := .running task } with
      taskQueue := rest
      users := users
      started := s.started ++ [task] } where
  queue := by
    change s.accepted = s.started ++ [task] ++ rest
    rw [h.queue, queue, List.append_assoc, List.singleton_append]
  running := by
    have htotal := total_setWorker (fun w => (w.point.task : Multiset τ)) lt
      { s.workers i with point := .running task }
    rw [point] at htotal
    have hsame : ((s.started ++ [task] : List τ) : Multiset τ) =
        s.finished + (s.setWorker i { s.workers i with point := .running task }).total
          fun w => (w.point.task : Multiset τ) := by
      rw [← Multiset.coe_add, h.running, add_assoc]
      exact congrArg _ (htotal.symm.trans (add_zero _))
    exact hsame

theorem Account.finish (h : s.Account) {i : Nat} {task : τ} (lt : i < s.size)
    (point : (s.workers i).point = .running task) :
    Account { s.setWorker i { s.workers i with point := .check .outer } with
      finished := s.finished ++ [task] } where
  queue := h.queue
  running := by
    have htotal := total_setWorker (fun w => (w.point.task : Multiset τ)) lt
      { s.workers i with point := .check .outer }
    rw [point] at htotal
    have hsame : (s.started : Multiset τ) = ((s.finished ++ [task] : List τ) : Multiset τ) +
        (s.setWorker i { s.workers i with point := .check .outer }).total fun w => (w.point.task : Multiset τ) := by
      rw [h.running, ← Multiset.coe_add, add_assoc, add_comm ([task] : Multiset τ)]
      exact congrArg _ ((add_zero _).symm.trans htotal.symm)
    exact hsame

theorem Account.close (h : s.Account) (c : Fin m) (sweep : Sweep) : (s.close c sweep).Account := by
  cases sweep with
  | pause | resume | resumeToShutdown => exact h.points rfl rfl rfl rfl rfl fun _ => rfl
  | terminate | shutdown | destroy => exact h.points rfl rfl rfl rfl rfl s.wakeAll_task

theorem Account.removeNext (h : s.Account) (hi : s.Inv) {readers : Fin m → Reader τ} {c : Fin m} {keep : Nat}
    {r : Removal} (hu : s.users = .shared readers (some (c, keep, r)))
    (hs : s.removeNext readers c keep r = some s') : s'.Account := by
  have hphase := hi.phase
  rw [hu] at hphase
  cases hphase with
  | removing running one keep_le within nodup kept told joined =>
    match r with
    | .signalling (i :: left) =>
      cases hs
      have hpoint := (s.workers i).terminate_signalled.point
      exact h.points rfl rfl rfl rfl rfl (setWorker_task (congrArg _ hpoint))
    | .signalling [] =>
      cases hs
      exact h.points rfl rfl rfl rfl rfl s.wakeAll_task
    | .ending (i :: left) =>
      cases hs
      obtain ⟨hk, hlt⟩ := within i List.mem_cons_self
      rw [endWorker_of_ended (told i hk hlt trivial)]
      exact h.points rfl rfl rfl rfl rfl fun _ => rfl
    | .ending [] =>
      cases hs
      refine h.same rfl rfl rfl rfl fun i => ?_
      dsimp only
      -- the workers that go have returned
      by_cases hk : i < keep
      · rw [if_pos hk, if_pos (Nat.lt_of_lt_of_le hk keep_le)]
      · by_cases hlt : i < s.size
        · rw [if_neg hk, if_pos hlt, joined i (Nat.le_of_not_lt hk) hlt List.not_mem_nil]
          rfl
        · rw [if_neg hk, if_neg hlt]
    | .joining (i :: left) =>
      obtain ⟨_, hs⟩ := Option.ite_none_right_eq_some.mp hs
      cases hs
      exact h.points rfl rfl rfl rfl rfl fun _ => rfl
    | .joining [] => cases hs

theorem Account.step (h : s.Account) (hi : s.Inv) (hs : s.step a = some s') : s'.Account := by
  cases step_stepped hs with
  | worker lt hw =>
    exact h.points rfl rfl rfl rfl rfl (setWorker_task (hw.task.2.trans hw.task.1.symm))
  | take lt point queue => exact h.take lt point queue _
  | finish lt point => exact h.finish lt point
  | refuse => exact h
  | read | removeThread | enter | write | drained => exact h.points rfl rfl rfl rfl rfl fun _ => rfl
  | @push c readers removal task =>
    refine ⟨?_, h.running⟩
    change s.accepted ++ [task] = s.started ++ (s.taskQueue ++ [task])
    rw [h.queue, List.append_assoc]
  | @notify c sleeper readers removal users old wakes =>
    cases sleeper with
    | none => exact h.points rfl rfl rfl rfl rfl fun _ => rfl
    | some i =>
      refine h.points rfl rfl rfl rfl rfl (setWorker_task ?_)
      rcases (s.workers i).wake_cases with hw | ⟨hp, hw⟩ <;> rw [hw]
      rw [hp]
      rfl
  | @addThread c count readers users status =>
    refine h.same rfl rfl rfl rfl fun i => ?_
    dsimp only
    by_cases hlt : i < s.size
    · rw [if_pos (by omega), if_neg (by omega), if_pos hlt]
    · rw [if_neg hlt, if_pos (by omega : s.size ≤ i)]
      split <;> rfl
  | @signal c sweep i left users =>
    have hpoint := (WorkerThread.signal_signalled sweep (s.workers i)).point
    exact h.points rfl rfl rfl rfl rfl (setWorker_task (congrArg _ hpoint))
  | close users => exact h.close _ _
  | endWorker users =>
    rw [(hi.endWorker users).1]
    exact h.points rfl rfl rfl rfl rfl fun _ => rfl
  | remove users next => exact h.removeNext hi users next

theorem exec_account (n max : Nat) (as : List (ThreadPoolAct m τ)) : (exec step (start m τ n max) as).Account := by
  have hboth : ∀ s a s', (s.Inv ∧ s.Account) → step s a = some s' → s'.Inv ∧ s'.Account :=
    fun (s : ThreadPool m τ) a s' h hs => ⟨h.1.step hs, h.2.step h.1 hs⟩
  exact (exec_always hboth as ⟨start_inv n max, start_account n max⟩).2

/-- When no worker has a task, all that were taken are finished. -/
theorem Account.finished_perm (h : s.Account) (hnone : ∀ i < s.size, (s.workers i).point.task = []) :
    s.finished.Perm s.started := by
  have htotal : s.total (fun w => (w.point.task : Multiset τ)) = 0 := by
    apply Finset.sum_eq_zero
    intro i hi
    change ((s.workers i).point.task : Multiset τ) = 0
    rw [hnone i (Finset.mem_range.mp hi)]
    rfl
  have hrunning := h.running
  rw [htotal, add_zero] at hrunning
  exact (Multiset.coe_eq_coe.mp hrunning).symm

/-- The pool is the same but for the workers and the threads inside `status_mutex`. -/
structure Same (s s' : ThreadPool m τ) : Prop where
  status : s'.status = s.status
  maxTaskCount : s'.maxTaskCount = s.maxTaskCount
  taskQueue : s'.taskQueue = s.taskQueue
  accepted : s'.accepted = s.accepted
  started : s'.started = s.started

theorem removeNext_same {readers : Fin m → Reader τ} {c : Fin m} {keep : Nat} {r : Removal}
    (hs : s.removeNext readers c keep r = some s') : Same s s' := by
  match r with
  | .signalling (i :: left) | .signalling [] | .ending [] =>
    cases hs
    exact ⟨rfl, rfl, rfl, rfl, rfl⟩
  | .ending (i :: left) =>
    cases hs
    unfold endWorker
    dsimp only
    split <;> exact ⟨rfl, rfl, rfl, rfl, rfl⟩
  | .joining (i :: left) =>
    obtain ⟨_, hs⟩ := Option.ite_none_right_eq_some.mp hs
    cases hs
    exact ⟨rfl, rfl, rfl, rfl, rfl⟩
  | .joining [] => cases hs

/-- Nobody terminates or destroys the pool before it has shut down. -/
def Graceful (s : ThreadPool m τ) : ThreadPoolAct m τ → Prop
  | .call _ .terminate | .call _ .destroy => s.status = .terminated
  | _ => True

def Emptied (s : ThreadPool m τ) : Prop := s.status = .terminating ∨ s.status = .terminated → s.taskQueue = []

theorem Emptied.same (h : s.Emptied) (hstatus : s'.status = s.status) (hqueue : s'.taskQueue = s.taskQueue) :
    s'.Emptied := fun hs => hqueue.trans (h (hstatus ▸ hs))

theorem Emptied.close (h : s.Emptied) (hi : s.Inv) {c : Fin m} {sweep : Sweep}
    (hu : s.users = .exclusive c (.signalling sweep [])) : (s.close c sweep).Emptied := by
  have hphase := hi.phase
  rw [hu] at hphase
  cases hphase with
  | closing toJoin => cases toJoin
  | signalling status =>
    cases sweep with
    | pause | resume => exact h
    | resumeToShutdown => exact fun hs => by rcases hs with hs | hs <;> cases hs
    | terminate | shutdown | destroy => exact fun _ => h (Or.inl status)

theorem Emptied.enter (h : s.Emptied) {c : Fin m} {call : PoolCall τ} {status : PoolStatus} {writer : Writer}
    (he : call.entry s.size s.status = some (status, writer)) (hg : s.Graceful (.call c call)) :
    Emptied { s with status := status, users := .exclusive c writer } := by
  intro hs
  cases call <;> cases hst : s.status <;> simp only [hst, PoolCall.entry, reduceCtorEq, Option.some.injEq,
    Prod.mk.injEq] at he <;> obtain ⟨rfl, -⟩ := he
  case destroy.terminated => exact h (Or.inr hst)
  case terminate.terminating | terminate.running | terminate.paused | terminate.shutdown |
    destroy.terminating | destroy.running | destroy.paused | destroy.shutdown => cases hst.symm.trans hg
  all_goals exact absurd hs (by simp)

theorem Emptied.step (h : s.Emptied) (hi : s.Inv) (hg : s.Graceful a) (hs : s.step a = some s') : s'.Emptied := by
  cases step_stepped hs with
  | worker | finish | refuse | read | addThread | removeThread | write | signal => exact h.same rfl rfl
  | @notify c sleeper => cases sleeper <;> exact h.same rfl rfl
  | @take i task rest lt point queue => exact fun hs => absurd (h hs) (by simp [queue])
  | @push c readers removal task users old =>
    have hphase := hi.phase
    rw [users] at hphase
    have hrunning := hphase.fits c
    rw [old] at hrunning
    intro hs
    rcases hs with hs | hs <;> cases hs.symm.trans hrunning
  | enter users alone entry => exact h.enter entry hg
  | drained users unlocked queue => exact fun _ => queue
  | close users => exact h.close hi users
  | endWorker users =>
    rw [(hi.endWorker users).1]
    exact h.same rfl rfl
  | remove users next => exact h.same (removeNext_same next).status (removeNext_same next).taskQueue

/-- The pool loses no task and runs none twice: in any run the tasks are taken in the order of their submission,
and those that were taken are finished or with a worker. When the pool is destroyed each of them is finished, and
no task is left in the queue unless the pool was terminated instead of shut down. -/
theorem tasks_once (n max : Nat) (as : List (ThreadPoolAct m τ)) :
    let s := exec step (start m τ n max) as
    s.accepted = s.started ++ s.taskQueue ∧
      (s.started : Multiset τ) =
        s.finished + ∑ i ∈ Finset.range s.size, ((s.workers i).point.task : Multiset τ) ∧
      ∀ c, s.users = .exclusive c .destroyed → s.finished.Perm s.started ∧
        (Along step Graceful (start m τ n max) as → s.finished.Perm s.accepted) := by
  intro s
  have hinv : s.Inv := exec_inv n max as
  have haccount : s.Account := exec_account n max as
  refine ⟨haccount.queue, haccount.running, fun c hu => ?_⟩
  have hphase := hinv.phase
  rw [hu] at hphase
  cases hphase with
  | closing toJoin status within workers joined =>
    cases toJoin
    have hperm : s.finished.Perm s.started :=
      haccount.finished_perm fun i hi => by rw [joined i hi List.not_mem_nil]; rfl
    refine ⟨hperm, fun hgraceful => ?_⟩
    have hempty : s.Emptied := by
      have hboth : ∀ s a s', (s.Inv ∧ s.Emptied) → s.Graceful a → step s a = some s' → s'.Inv ∧ s'.Emptied :=
        fun (s : ThreadPool m τ) a s' h hg hs => ⟨h.1.step hs, h.2.step h.1 hg hs⟩
      exact (exec_invariant hboth as ⟨start_inv n max, fun _ => rfl⟩ hgraceful).2
    rw [haccount.queue, hempty (Or.inr status), List.append_nil]
    exact hperm

/-- The only thread that calls the pool in a run. -/
def caller : Fin 1 := ⟨0, Nat.one_pos⟩

/-- One task on one worker, then `shutdown` and the destructor. -/
def oneTask : List (ThreadPoolAct 1 Nat) :=
  [.call caller (.submit 7), .count caller, .push caller, .notifyOne caller none, .check 0, .lock 0, .test 0,
    .finish 0, .check 0, .lock 0, .test 0, .check 0, .sleep 0, .call caller .shutdown, .write, .write, .write,
    .lock 0, .check 0, .call caller .destroy, .write, .write, .write]

instance decidableGraceful (s : ThreadPool m τ) : DecidablePred s.Graceful
  | .call _ call => match call with
    | .terminate | .destroy => inferInstanceAs (Decidable (s.status = _))
    | .submit _ | .pause | .resume | .shutdown | .wait | .addThread _ | .removeThread _ => isTrue trivial
  | .check _ | .acquire _ | .lock _ | .test _ | .sleep _ | .wakeSpurious _ | .finish _ | .count _ | .push _
  | .notifyOne _ _ | .drain _ | .drainSpurious _ | .write | .writeSpurious | .remove => isTrue trivial

theorem tasks_once_oneTask :
    let s := exec step (start 1 Nat 1 0) oneTask
    s.users = .exclusive caller .destroyed ∧ s.accepted = [7] ∧ s.finished.Perm s.accepted :=
  have hdestroyed : (exec step (start 1 Nat 1 0) oneTask).users = .exclusive caller .destroyed := rfl
  ⟨hdestroyed, rfl, ((tasks_once 1 0 oneTask).2.2 caller hdestroyed).2 (by decide)⟩

/-! ## The limit on the queue -/

/-- The tasks that found room in the queue and are not in it yet. -/
def Reader.pending : Reader τ → Nat
  | .pushing _ => 1
  | .idle | .counting _ | .notifying | .waiting _ | .removing => 0

def Users.pending : Users m τ → Nat
  | .shared readers _ => ∑ c, Reader.pending (readers c)
  | .exclusive _ _ => 0

/-- `submit` looks at the length of the queue before it locks it to push. -/
structure Bounded (max : Nat) (s : ThreadPool m τ) : Prop where
  limit : s.maxTaskCount = max
  length : 0 < max → s.taskQueue.length + Users.pending s.users < max + m

theorem pending_update (readers : Fin m → Reader τ) (removal removal' : Option (Fin m × Nat × Removal)) (c : Fin m)
    (r : Reader τ) :
    Users.pending (.shared (Function.update readers c r) removal) + Reader.pending (readers c) =
      Users.pending (.shared readers removal') + Reader.pending r :=
  sum_update (Finset.mem_univ c) readers r Reader.pending

theorem pending_idle (removal : Option (Fin m × Nat × Removal)) :
    Users.pending (.shared (fun _ => .idle) removal : Users m τ) = 0 :=
  Finset.sum_eq_zero fun _ _ => rfl

theorem pending_le (users : Users m τ) : Users.pending users ≤ m := by
  cases users with
  | exclusive => exact Nat.zero_le m
  | shared readers removal =>
    have hone : ∀ c ∈ (Finset.univ : Finset (Fin m)), Reader.pending (readers c) ≤ 1 := by
      intro c _
      cases readers c <;> simp [Reader.pending]
    calc
      Users.pending (.shared readers removal) ≤ ∑ _c : Fin m, 1 := Finset.sum_le_sum hone
      _ = m := by rw [← Finset.card_eq_sum_ones, Finset.card_univ, Fintype.card_fin]

theorem pending_wake (users : Users m τ) : Users.pending users.wake = Users.pending users := by
  cases users with
  | exclusive => rfl
  | shared readers removal =>
    apply Finset.sum_congr rfl
    intro c _
    cases hc : readers c <;> simp [hc, Reader.wake, Reader.pending]

variable {max : Nat}

theorem Bounded.fewer (h : s.Bounded max) (hlimit : s'.maxTaskCount = s.maxTaskCount)
    (hlength : s'.taskQueue.length + Users.pending s'.users ≤ s.taskQueue.length + Users.pending s.users) :
    s'.Bounded max where
  limit := hlimit.trans h.limit
  length hmax := Nat.lt_of_le_of_lt hlength (h.length hmax)

theorem Bounded.read (h : s.Bounded max) {c : Fin m} {readers : Fin m → Reader τ}
    {removal : Option (Fin m × Nat × Removal)} {old new : Reader τ} (hu : s.users = .shared readers removal)
    (old_eq : readers c = old) (hr : ReaderStep s a old new) : (s.setReader readers removal c new).Bounded max := by
  have hpending := pending_update readers removal removal c new
  rw [old_eq, ← hu] at hpending
  cases hr with
  | submit | wait | full | drained | drain | spurious =>
    refine h.fewer ?_ ?_
    · rfl
    exact Nat.add_le_add_left (Nat.le_of_eq hpending) _
  | @count _ task room =>
    refine ⟨h.limit, fun hmax => ?_⟩
    have hroom := room (h.limit ▸ hmax)
    rw [h.limit] at hroom
    have hle := pending_le (s.setReader readers removal c (.pushing task)).users
    exact Nat.add_lt_add_of_lt_of_le hroom hle

theorem Bounded.push (h : s.Bounded max) {c : Fin m} {readers : Fin m → Reader τ}
    {removal : Option (Fin m × Nat × Removal)} {task : τ} (hu : s.users = .shared readers removal)
    (old : readers c = .pushing task) :
    Bounded max { s.setReader readers removal c .notifying with
      taskQueue := s.taskQueue ++ [task]
      accepted := s.accepted ++ [task] } := by
  have hpending := pending_update readers removal removal c .notifying
  rw [old, ← hu] at hpending
  refine h.fewer ?_ ?_
  · rfl
  change (s.taskQueue ++ [task]).length + _ ≤ _
  rw [List.length_append]
  change _ + 1 = Users.pending s.users + 0 at hpending
  change s.taskQueue.length + 1 + Users.pending (.shared (Function.update readers c .notifying) removal) ≤ _
  omega

theorem Bounded.remove (h : s.Bounded max) {c : Fin m} {keep : Nat} {readers : Fin m → Reader τ} {r : Removal}
    (hu : s.users = .shared readers (some (c, keep, r))) (hs : s.removeNext readers c keep r = some s') :
    s'.Bounded max := by
  have hsame := removeNext_same hs
  apply h.fewer hsame.maxTaskCount
  rw [hsame.taskQueue, hu]
  apply Nat.add_le_add_left
  match r with
  | .signalling (i :: left) | .signalling [] | .ending (i :: left) =>
    cases hs
    exact Nat.le_refl _
  | .ending [] =>
    cases hs
    have hpending := pending_update readers none (some (c, keep, .ending [])) c .idle
    change _ + _ = _ + 0 at hpending
    change Users.pending (.shared (Function.update readers c .idle) none) ≤ _
    omega
  | .joining (i :: left) =>
    obtain ⟨_, hs⟩ := Option.ite_none_right_eq_some.mp hs
    cases hs
    exact Nat.le_refl _
  | .joining [] => cases hs

theorem Bounded.step (h : s.Bounded max) (hs : s.step a = some s') : s'.Bounded max := by
  cases step_stepped hs with
  | worker | finish | refuse | addThread => exact h.fewer rfl (Nat.le_refl _)
  | @take i task rest lt point queue =>
    refine h.fewer ?_ ?_
    · rfl
    dsimp only
    rw [queue, List.length_cons]
    split
    · rw [pending_wake]
      omega
    · omega
  | read users old_eq hr => exact h.read users old_eq hr
  | push users old => exact h.push users old
  | @notify c sleeper readers removal users old =>
    have hpending := pending_update readers removal removal c .idle
    rw [old, ← users] at hpending
    cases sleeper <;> exact h.fewer rfl (Nat.add_le_add_left (Nat.le_of_eq hpending) _)
  | @removeThread c count keep readers users old =>
    have hpending := pending_update readers (some (c, keep, .signalling (List.range' keep (s.size - keep)).reverse))
      none c .removing
    rw [old, ← users] at hpending
    exact h.fewer rfl (Nat.add_le_add_left (Nat.le_of_eq hpending) _)
  | enter | write | drained | signal => exact h.fewer rfl (Nat.add_le_add_left (Nat.zero_le _) _)
  | @close c sweep =>
    cases sweep with
    | pause | resume | terminate | shutdown =>
      refine h.fewer ?_ ?_
      · rfl
      exact Nat.add_le_add_left ((Nat.le_of_eq (pending_idle none)).trans (Nat.zero_le _)) _
    | resumeToShutdown | destroy => exact h.fewer rfl (Nat.add_le_add_left (Nat.zero_le _) _)
  | @endWorker c i =>
    apply h.fewer
    · unfold endWorker
      dsimp only
      split <;> rfl
    · unfold endWorker
      dsimp only
      split <;> exact Nat.add_le_add_left (Nat.zero_le _) _
  | remove users next => exact h.remove users next

theorem exec_bounded (n max : Nat) (hm : 0 < m) (as : List (ThreadPoolAct m τ)) :
    (exec step (start m τ n max) as).Bounded max := by
  have hstart : (start m τ n max).Bounded max := by
    refine ⟨rfl, fun _ => ?_⟩
    change 0 + Users.pending (.shared (fun _ => .idle) none : Users m τ) < max + m
    rw [pending_idle]
    omega
  exact exec_always (fun _ _ _ h hs => Bounded.step h hs) as hstart

/-! ## Steps that a caller can take -/

section Enabled

variable {c : Fin m} {readers : Fin m → Reader τ} {removal : Option (Fin m × Nat × Removal)} {task : τ}

theorem step_count (hu : s.users = .shared readers removal) (hc : readers c = .counting task)
    (hshared : s.QueueShared) (hroom : ¬s.maxTaskCount ≤ s.taskQueue.length) :
    s.step (.count c) = some (s.setReader readers removal c (.pushing task)) := by
  simp [step, read, hu, hc, hshared, hroom]

theorem step_push (hu : s.users = .shared readers removal) (hc : readers c = .pushing task) (hfree : s.QueueFree) :
    s.step (.push c) =
      some { s.setReader readers removal c .notifying with
        taskQueue := s.taskQueue ++ [task]
        accepted := s.accepted ++ [task] } := by
  simp [step, read, hu, hc, hfree]

theorem step_notify {sleeper : Option Nat} (hu : s.users = .shared readers removal) (hc : readers c = .notifying)
    (hwakes : s.Wakes sleeper) :
    s.step (.notifyOne c sleeper) = some ((s.wake sleeper).setReader readers removal c .idle) := by
  simp [step, read, hu, hc, hwakes]

end Enabled

section Overshoot

variable {n : Nat} {q : List τ} {readers : Fin m → Reader τ} {c : Fin m} {task : τ}

/-- The workers of a new pool have not begun, and there are tasks in the queue. -/
def loaded (n max : Nat) (q : List τ) (readers : Fin m → Reader τ) : ThreadPool m τ :=
  { start m τ n max with taskQueue := q, users := .shared readers none, accepted := q }

theorem loaded_free : (loaded n max q readers).QueueFree := ⟨fun _ _ => id, fun _ _ => nofun⟩

theorem loaded_submit (hc : readers c = .idle) :
    (loaded n max q readers).step (.call c (.submit task)) =
      some (loaded n max q (Function.update readers c (.counting task))) := by
  simp [step, read, loaded, hc, enter, start, submitError, setReader]

theorem loaded_count (hc : readers c = .counting task) (hroom : q.length < max) :
    (loaded n max q readers).step (.count c) =
      some (loaded n max q (Function.update readers c (.pushing task))) :=
  step_count rfl hc loaded_free.1 (Nat.not_le_of_lt hroom)

theorem loaded_push (hc : readers c = .pushing task) :
    (loaded n max q readers).step (.push c) =
      some (loaded n max (q ++ [task]) (Function.update readers c .notifying)) :=
  step_push rfl hc loaded_free

theorem loaded_notify (hc : readers c = .notifying) :
    (loaded n max q readers).step (.notifyOne c none) =
      some (loaded n max q (Function.update readers c .idle)) :=
  step_notify rfl hc fun _ _ => nofun

/-- One caller fills the queue up to the limit. -/
theorem loaded_fill (n max : Nat) (c : Fin m) (task : τ) (k : Nat) (hk : k ≤ max) :
    ∃ as, exec step (start m τ n max) as = loaded n max (List.replicate k task) fun _ => .idle := by
  induction k with
  | zero => exact ⟨[], rfl⟩
  | succ k ih =>
    obtain ⟨as, has⟩ := ih (Nat.le_of_succ_le hk)
    refine ⟨as ++ [.call c (.submit task), .count c, .push c, .notifyOne c none], ?_⟩
    have hroom : (List.replicate k task).length < max := List.length_replicate.trans_lt hk
    rw [exec_append, has]
    simp only [exec]
    rw [next_eq (loaded_submit  rfl), next_eq (loaded_count (Function.update_self _ _ _) hroom),
      next_eq (loaded_push (Function.update_self _ _ _)), next_eq (loaded_notify (Function.update_self _ _ _))]
    have hidle : Function.update (fun _ => .idle : Fin m → Reader τ) c .idle = fun _ => .idle :=
      Function.update_eq_self c _
    rw [Function.update_idem, Function.update_idem, Function.update_idem, hidle, List.replicate_succ']

/-- All callers find room before any of them pushes. -/
theorem loaded_pass (task : τ) (hroom : q.length < max) (cs : List (Fin m)) :
    ∀ readers : Fin m → Reader τ, cs.Nodup → (∀ c ∈ cs, readers c = .idle) →
      ∃ as readers', exec step (loaded n max q readers) as = loaded n max q readers' ∧
        (∀ c ∈ cs, readers' c = .pushing task) ∧ ∀ c, c ∉ cs → readers' c = readers c := by
  induction cs with
  | nil => exact fun readers _ _ => ⟨[], readers, rfl, nofun, fun _ _ => rfl⟩
  | cons c cs ih =>
    intro readers hnodup hidle
    obtain ⟨hc, hnodup⟩ := List.nodup_cons.mp hnodup
    have hothers : ∀ d ∈ cs, Function.update readers c (.pushing task) d = .idle := by
      intro d hd
      rw [Function.update_of_ne (ne_of_mem_of_not_mem hd hc)]
      exact hidle d (List.mem_cons_of_mem c hd)
    obtain ⟨as, readers', has, hpushing, hsame⟩ := ih _ hnodup hothers
    refine ⟨.call c (.submit task) :: .count c :: as, readers', ?_, ?_, ?_⟩
    · rw [exec, exec, next_eq (loaded_submit  (hidle c List.mem_cons_self)),
        next_eq (loaded_count (Function.update_self _ _ _) hroom), Function.update_idem]
      exact has
    · intro d hd
      rcases List.mem_cons.mp hd with rfl | hd
      · rw [hsame d hc, Function.update_self]
      · exact hpushing d hd
    · intro d hd
      rw [hsame d (List.not_mem_of_not_mem_cons hd), Function.update_of_ne (List.ne_of_not_mem_cons hd)]

theorem loaded_push_all (task : τ) (cs : List (Fin m)) :
    ∀ (q : List τ) (readers : Fin m → Reader τ), cs.Nodup → (∀ c ∈ cs, readers c = .pushing task) →
      ∃ as, (exec step (loaded n max q readers) as).taskQueue.length = q.length + cs.length := by
  induction cs with
  | nil => exact fun q readers _ _ => ⟨[], rfl⟩
  | cons c cs ih =>
    intro q readers hnodup hpushing
    obtain ⟨hc, hnodup⟩ := List.nodup_cons.mp hnodup
    have hothers : ∀ d ∈ cs, Function.update readers c .notifying d = .pushing task := by
      intro d hd
      rw [Function.update_of_ne (ne_of_mem_of_not_mem hd hc)]
      exact hpushing d (List.mem_cons_of_mem c hd)
    obtain ⟨as, has⟩ := ih (q ++ [task]) _ hnodup hothers
    refine ⟨.push c :: as, ?_⟩
    rw [exec, next_eq (loaded_push (hpushing c List.mem_cons_self)), has, List.length_append, List.length_singleton,
      List.length_cons]
    omega

end Overshoot

/-- The limit is not kept, as the length is read before the queue is locked to push: with `m` callers the longest
queue has `m - 1` tasks more than that, whatever the number of workers. -/
theorem longest_queue (n max : Nat) (hm : 0 < m) (hmax : 0 < max) (task : τ) :
    IsGreatest {k | ∃ as, (exec step (start m τ n max) as).taskQueue.length = k} (max + m - 1) := by
  constructor
  · have hroom : (List.replicate (max - 1) task).length < max := by
      rw [List.length_replicate]
      omega
    obtain ⟨as, has⟩ := loaded_fill n max ⟨0, hm⟩ task (max - 1) (Nat.sub_le max 1)
    obtain ⟨bs, readers, hbs, hpushing, -⟩ :=
      loaded_pass task hroom (List.finRange m) (fun _ => .idle) (List.nodup_finRange m) fun _ _ => rfl
    obtain ⟨cs, hcs⟩ := loaded_push_all task (List.finRange m)
      (List.replicate (max - 1) task) readers (List.nodup_finRange m) hpushing
    refine ⟨as ++ (bs ++ cs), ?_⟩
    rw [exec_append, has, exec_append, hbs, hcs, List.length_replicate, List.length_finRange]
    omega
  · rintro k ⟨as, rfl⟩
    have hlength := (exec_bounded n max hm as).length hmax
    omega

theorem longest_queue_two : IsGreatest {k | ∃ as, (exec step (start 2 Nat 1 3) as).taskQueue.length = k} 4 :=
  longest_queue 1 3 (by decide) (by decide) 0

end ThreadPool

end KVStorage

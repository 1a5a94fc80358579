import KVStorage.IoPool

/-!
# The tasks of the IO pool

Every task that is submitted while the pool is up runs once, in the order of its queue,
whatever the interleaving and whoever is woken.
-/

namespace KVStorage

set_option autoImplicit false

open Runs

universe u

/-- The task a worker is running. -/
def IOThread.current {τ : Type u} : IOThread τ → List τ
  | .running task => [task]
  | _ => []

theorem IOThread.wake_cases {τ : Type u} (t : IOThread τ) : t.wake = t ∨ t = .asleep ∧ t.wake = .woken := by
  cases t with
  | asleep => exact Or.inr ⟨rfl, rfl⟩
  | ready | waiting | woken | passed | running | exited => exact Or.inl rfl

/-- The pool with the tasks that each queue was given, and that each worker has started and
finished. -/
structure TaskLog (n : Nat) (τ : Type u) where
  pool : IOThreadPool n τ
  submitted : Nat → List τ
  started : Nat → List τ
  finished : Nat → List τ

namespace TaskLog

variable {n : Nat} {τ : Type u}

def start (n : Nat) (τ : Type u) : TaskLog n τ := ⟨.start n τ, fun _ => [], fun _ => [], fun _ => []⟩

/-- What a step adds to the lists. -/
def record (r : TaskLog n τ) (pool : IOThreadPool n τ) : PoolAct n τ → TaskLog n τ
  | .submit block task =>
    { r with pool := pool, submitted := Function.update r.submitted block (r.submitted block ++ [task]) }
  | .take i =>
    { r with pool := pool, started := Function.update r.started i (r.started i ++ (pool.workers i).current) }
  | .finish i =>
    { r with
      pool := pool
      finished := Function.update r.finished i (r.finished i ++ (r.pool.workers i).current) }
  | _ => { r with pool := pool }

def step (r : TaskLog n τ) (a : PoolAct n τ) : Option (TaskLog n τ) :=
  (r.pool.step a).map fun pool => r.record pool a

/-- Submits are to queues that have a worker, and come before the destructor. -/
def Submits (r : TaskLog n τ) : PoolAct n τ → Prop
  | .submit block _ => block < n ∧ r.pool.destructor = .uncalled
  | _ => True

instance decidableSubmits (r : TaskLog n τ) : DecidablePred r.Submits
  | .submit _ _ => inferInstanceAs (Decidable (_ ∧ _))
  | .notifyOne _ _ | .test _ | .sleep _ | .spurious _ | .take _ | .finish _ | .setStop | .notifyAll | .join =>
    isTrue trivial

theorem record_pool (r : TaskLog n τ) (pool : IOThreadPool n τ) (a : PoolAct n τ) : (r.record pool a).pool = pool := by
  cases a <;> rfl

/-- The lists do not meddle with the pool. -/
theorem exec_pool (r : TaskLog n τ) (as : List (PoolAct n τ)) :
    (exec step r as).pool = exec IOThreadPool.step r.pool as := by
  induction as generalizing r with
  | nil => rfl
  | cons a as ih =>
    have hnext : (next step r a).pool = next IOThreadPool.step r.pool a := by
      cases hs : r.pool.step a with
      | none => simp only [next, step, hs, Option.map_none, Option.getD_none]
      | some pool => simp only [next, step, hs, Option.map_some, Option.getD_some, record_pool]
    rw [exec, exec, ih, hnext]

/-- A worker has started the tasks of its queue in their order, one after the other; it takes from no
empty queue and leaves no work behind. -/
structure WorkerInOrder (r : TaskLog n τ) (i : Fin n) : Prop where
  queue : r.submitted i = r.started i ++ r.pool.tasks i
  running : r.started i = r.finished i ++ (r.pool.workers i).current
  passed : r.pool.workers i = .passed → r.pool.tasks i = [] → r.pool.stop = true
  exited : r.pool.workers i = .exited → r.pool.stop = true ∧ r.pool.tasks i = []

structure InOrder (r : TaskLog n τ) : Prop where
  workers : ∀ i, r.WorkerInOrder i
  stopped : r.pool.stop = true → r.pool.destructor ≠ .uncalled
  joined : r.pool.destructor = .returned → ∀ i, r.pool.workers i = .exited
  within : ∀ b, n ≤ b → r.submitted b = []

theorem inOrder_start : (start n τ).InOrder where
  workers _ := ⟨rfl, rfl, nofun, nofun⟩
  stopped h := nomatch h
  joined h := nomatch h
  within _ _ := rfl

variable {r r' : TaskLog n τ} {i : Fin n}

/-- Nothing of the worker changes but perhaps that `stop` gets set. -/
structure SameAt (r r' : TaskLog n τ) (i : Fin n) : Prop where
  worker : r'.pool.workers i = r.pool.workers i
  tasks : r'.pool.tasks i = r.pool.tasks i
  submitted : r'.submitted i = r.submitted i
  started : r'.started i = r.started i
  finished : r'.finished i = r.finished i

theorem WorkerInOrder.same (h : r.WorkerInOrder i) (hsame : SameAt r r' i)
    (hstop : r.pool.stop = true → r'.pool.stop = true) : r'.WorkerInOrder i where
  queue := by rw [hsame.submitted, hsame.started, hsame.tasks, h.queue]
  running := by rw [hsame.started, hsame.finished, hsame.worker, h.running]
  passed hw ht := hstop (h.passed (hsame.worker.symm.trans hw) (hsame.tasks.symm.trans ht))
  exited hw := by
    obtain ⟨hs, ht⟩ := h.exited (hsame.worker.symm.trans hw)
    exact ⟨hstop hs, hsame.tasks.trans ht⟩

theorem InOrder.moved (h : r.InOrder) (hi : r.pool.workers i ≠ .exited) (hworker : r'.WorkerInOrder i)
    (hsame : ∀ j, j ≠ i → SameAt r r' j) (hstop : r'.pool.stop = r.pool.stop)
    (hdestructor : r'.pool.destructor = r.pool.destructor) (hsubmitted : r'.submitted = r.submitted) :
    r'.InOrder where
  workers j := by
    by_cases hj : j = i
    · exact hj ▸ hworker
    · exact (h.workers j).same (hsame j hj) hstop.trans
  stopped hs := by
    rw [hdestructor]
    exact h.stopped (hstop.symm.trans hs)
  joined hd := absurd (h.joined (hdestructor.symm.trans hd) i) hi
  within b hb := by rw [hsubmitted, h.within b hb]

theorem sameAt_setWorker {j : Fin n} (t : IOThread τ) (hj : j ≠ i) :
    SameAt r { r with pool := r.pool.setWorker i t } j :=
  ⟨IOThreadPool.setWorker_of_ne _ _ hj, rfl, rfl, rfl, rfl⟩

/-- A worker moves on, without a task before and after. -/
theorem InOrder.setWorker (h : r.InOrder) {t : IOThread τ} (hi : r.pool.workers i ≠ .exited)
    (hidle : (r.pool.workers i).current = []) (ht : t.current = [])
    (hpassed : t = .passed → r.pool.tasks i = [] → r.pool.stop = true)
    (hexited : t = .exited → r.pool.stop = true ∧ r.pool.tasks i = []) :
    InOrder { r with pool := r.pool.setWorker i t } := by
  refine h.moved hi ⟨(h.workers i).queue, ?_, ?_, ?_⟩ (fun j => sameAt_setWorker t) rfl rfl rfl
  · rw [IOThreadPool.setWorker_self, ht, ← hidle]
    exact (h.workers i).running
  · rw [IOThreadPool.setWorker_self]
    exact hpassed
  · rw [IOThreadPool.setWorker_self]
    exact hexited

theorem InOrder.pop (h : r.InOrder) {task : τ} {rest : List τ} (hi : r.pool.workers i = .passed)
    (ht : r.pool.tasks i = task :: rest) :
    InOrder { r with
      pool := { r.pool.setWorker i (.running task) with tasks := Function.update r.pool.tasks i rest }
      started := Function.update r.started i (r.started i ++ [task]) } := by
  have hidle := (h.workers i).running
  rw [hi] at hidle
  refine h.moved (by rw [hi]; exact nofun) ⟨?_, ?_, ?_, ?_⟩ ?_ rfl rfl rfl
  · simp only [Function.update_self, List.append_assoc, List.singleton_append, ← ht, (h.workers i).queue]
  · simp only [Function.update_self, IOThreadPool.setWorker_self, IOThread.current, hidle, List.append_nil]
  · simp only [IOThreadPool.setWorker_self]
    exact nofun
  · simp only [IOThreadPool.setWorker_self]
    exact nofun
  · intro j hj
    have hne : (j : Nat) ≠ i := fun he => hj (Fin.ext he)
    exact ⟨IOThreadPool.setWorker_of_ne _ _ hj, Function.update_of_ne hne _ _, rfl,
      Function.update_of_ne hne _ _, rfl⟩

theorem InOrder.finish (h : r.InOrder) {task : τ} (hi : r.pool.workers i = .running task) :
    InOrder { r with
      pool := r.pool.setWorker i .ready
      finished := Function.update r.finished i (r.finished i ++ [task]) } := by
  have hrunning := (h.workers i).running
  rw [hi] at hrunning
  refine h.moved (by rw [hi]; exact nofun) ⟨(h.workers i).queue, ?_, ?_, ?_⟩ ?_ rfl rfl rfl
  · simp only [Function.update_self, IOThreadPool.setWorker_self, IOThread.current, List.append_nil, hrunning]
  · rw [IOThreadPool.setWorker_self]
    exact nofun
  · rw [IOThreadPool.setWorker_self]
    exact nofun
  · intro j hj
    have hne : (j : Nat) ≠ i := fun he => hj (Fin.ext he)
    exact ⟨IOThreadPool.setWorker_of_ne _ _ hj, rfl, rfl, rfl, Function.update_of_ne hne _ _⟩

theorem InOrder.submit (h : r.InOrder) {block : Nat} (task : τ) (hlt : block < n)
    (hd : r.pool.destructor = .uncalled) (hfree : r.pool.Free block) :
    InOrder { r with
      pool := { r.pool with
        tasks := Function.update r.pool.tasks block (r.pool.tasks block ++ [task])
        notifies := block :: r.pool.notifies }
      submitted := Function.update r.submitted block (r.submitted block ++ [task]) } where
  workers i := by
    by_cases hi : (i : Nat) = block
    · subst hi
      refine ⟨?_, (h.workers i).running, ?_, fun hw => absurd hd (h.stopped ((h.workers i).exited hw).1)⟩
      · simp only [Function.update_self, (h.workers i).queue, List.append_assoc]
      -- its mutex is free, so it is not about to take
      · intro hw
        have hlocks := hfree i rfl
        rw [show r.pool.workers i = .passed from hw] at hlocks
        exact absurd trivial hlocks
    · refine (h.workers i).same ⟨rfl, ?_, ?_, rfl, rfl⟩ id
      · exact Function.update_of_ne hi _ _
      · exact Function.update_of_ne hi _ _
  stopped := h.stopped
  joined := h.joined
  within b hb := by
    have hne : b ≠ block := by omega
    exact (Function.update_of_ne hne _ _).trans (h.within b hb)

theorem InOrder.woken (h : r.InOrder) {pool : IOThreadPool n τ} (htasks : pool.tasks = r.pool.tasks)
    (hstop : r.pool.stop = true → pool.stop = true)
    (hworkers : ∀ i, pool.workers i = r.pool.workers i ∨
      r.pool.workers i = .asleep ∧ pool.workers i = .woken)
    (hstopped : pool.stop = true → pool.destructor ≠ .uncalled)
    (hjoined : pool.destructor = .returned → ∀ i, pool.workers i = .exited) :
    InOrder { r with pool := pool } where
  workers i := by
    rcases hworkers i with hsame | ⟨hasleep, hwoken⟩
    · exact (h.workers i).same ⟨hsame, congrFun htasks i, rfl, rfl, rfl⟩ hstop
    · have hidle := (h.workers i).running
      rw [hasleep] at hidle
      refine ⟨?_, ?_, ?_, ?_⟩
      · simp only [htasks, (h.workers i).queue]
      · simp only [hwoken]
        exact hidle
      · simp only [hwoken]
        exact nofun
      · simp only [hwoken]
        exact nofun
  stopped := hstopped
  joined := hjoined
  within := h.within

theorem InOrder.notifyOne (h : r.InOrder) {sleeper : Option (Fin n)} (hw : r.pool.Wakes sleeper)
    (notifies : List Nat) : InOrder { r with pool := { r.pool.wake sleeper with notifies := notifies } } := by
  cases sleeper with
  | none => exact h.woken rfl id (fun _ => Or.inl rfl) h.stopped h.joined
  | some j =>
    refine h.woken rfl id ?_ h.stopped ?_
    · intro i
      by_cases hi : i = j
      · subst hi
        exact Or.inr ⟨hw, IOThreadPool.setWorker_self _ _ _⟩
      · exact Or.inl (IOThreadPool.setWorker_of_ne _ _ hi)
    · intro hd
      have hexited := h.joined hd j
      rw [show r.pool.workers j = .asleep from hw] at hexited
      cases hexited

theorem InOrder.test (h : r.InOrder) (hi : r.pool.workers i = .ready ∨ r.pool.workers i = .woken) :
    InOrder { r with pool := r.pool.setWorker i (if r.pool.predicate i then .passed else .waiting) } := by
  have hpred : r.pool.predicate i = true → r.pool.tasks i = [] → r.pool.stop = true := by
    intro hp ht
    rw [IOThreadPool.predicate, ht, List.isEmpty_nil, Bool.not_true, Bool.or_false] at hp
    exact hp
  have hexited : r.pool.workers i ≠ .exited := by
    rcases hi with hi | hi <;> simp [hi]
  have hidle : (r.pool.workers i).current = [] := by
    rcases hi with hi | hi <;> rw [hi] <;> rfl
  cases hp : r.pool.predicate i with
  | true => exact h.setWorker hexited hidle rfl (fun _ => hpred hp) (by simp)
  | false => exact h.setWorker hexited hidle rfl (by simp) (by simp)

theorem InOrder.exit (h : r.InOrder) (hi : r.pool.workers i = .passed) (hstop : r.pool.stop = true)
    (ht : r.pool.tasks i = []) : (r.record (r.pool.setWorker i .exited) (.take i)).InOrder := by
  have hexits := h.setWorker (t := .exited) (by rw [hi]; exact nofun) (by rw [hi]; rfl) rfl nofun
    fun _ => ⟨hstop, ht⟩
  have hcurrent : ((r.pool.setWorker i .exited).workers i).current = [] := by
    rw [IOThreadPool.setWorker_self]
    rfl
  rw [record, hcurrent, List.append_nil, Function.update_eq_self]
  exact hexits

theorem InOrder.take (h : r.InOrder) {task : τ} {rest : List τ} (hi : r.pool.workers i = .passed)
    (ht : r.pool.tasks i = task :: rest) :
    (r.record { r.pool.setWorker i (.running task) with tasks := Function.update r.pool.tasks i rest }
      (.take i)).InOrder := by
  have hcurrent : ((r.pool.setWorker i (.running task)).workers i).current = [task] := by
    rw [IOThreadPool.setWorker_self]
    rfl
  rw [record, hcurrent]
  exact h.pop hi ht

theorem step_inOrder {a : PoolAct n τ} (h : r.InOrder) (ha : r.Submits a) (hs : r.step a = some r') : r'.InOrder := by
  obtain ⟨pool, hpool, rfl⟩ := Option.map_eq_some_iff.mp hs
  cases IOThreadPool.step_cases hpool with
  | submit hfree => exact h.submit _ ha.1 ha.2 hfree
  | notifyOne hw => exact h.notifyOne hw _
  | test hi => exact h.test hi
  | sleep hi => exact h.setWorker (by rw [hi]; exact nofun) (by rw [hi]; rfl) rfl nofun nofun
  | spurious hi => exact h.setWorker (by rw [hi]; exact nofun) (by rw [hi]; rfl) rfl nofun nofun
  | exit hi hstop ht => exact h.exit hi hstop ht
  | pop hi ht => exact h.take hi ht
  | finish hi =>
    rw [record, hi]
    exact h.finish hi
  | setStop => exact h.woken rfl (fun _ => rfl) (fun _ => Or.inl rfl) (fun _ => nofun) nofun
  | notifyAll =>
    refine h.woken rfl id ?_ (fun _ => nofun) nofun
    exact fun i => (r.pool.workers i).wake_cases
  | join _ hexited => exact h.woken rfl id (fun _ => Or.inl rfl) (fun _ => nofun) fun _ => hexited

/-- In every run that submits as it should: what a worker starts is the beginning of what its queue was
given, one task at a time and never from an empty queue, and once the destructor has returned all of
it is finished. -/
theorem tasks_run_once (as : List (PoolAct n τ)) (h : Along step Submits (start n τ) as) :
    let r := exec step (start n τ) as
    (∀ i : Fin n, r.started i <+: r.submitted i ∧
        r.started i = r.finished i ++ (r.pool.workers i).current ∧
        (r.pool.workers i = .passed → (r.pool.step (.take i)).isSome)) ∧
      (r.pool.destructor = .returned →
        ∀ b, r.submitted b = [] ∨ b < n ∧ r.finished b = r.submitted b) := by
  intro r
  have hend : r.InOrder := exec_invariant (fun _ _ _ hr ha hs => step_inOrder hr ha hs) as inOrder_start h
  constructor
  · intro i
    have hi := hend.workers i
    refine ⟨⟨r.pool.tasks i, hi.queue.symm⟩, hi.running, ?_⟩
    intro hw
    rw [IOThreadPool.step, hw]
    cases ht : r.pool.tasks i with
    | nil => simp [hi.passed hw ht]
    | cons task rest => simp
  · intro hd b
    by_cases hb : b < n
    · have hi := hend.workers ⟨b, hb⟩
      have hexited := hend.joined hd ⟨b, hb⟩
      have hrunning := hi.running
      have hqueue := hi.queue
      rw [hexited] at hrunning
      rw [(hi.exited hexited).2, List.append_nil, hrunning] at hqueue
      refine Or.inr ⟨hb, ?_⟩
      rw [hqueue]
      exact (List.append_nil _).symm
    · exact Or.inl (hend.within b (Nat.le_of_not_lt hb))

/-- Two tasks for worker `j`, and the destructor after them. -/
def twoTasks (i j : Fin n) : List (PoolAct n Nat) :=
  [.submit j.val 7, .submit j.val 8, .notifyOne j.val none, .test j, .take j, .notifyOne j.val none, .setStop,
    .notifyAll, .finish j, .test j, .take j, .test i, .take i, .finish j, .test j, .take j, .join]

theorem tasks_run_once_two :
    (exec step (start 2 Nat) (twoTasks 0 1)).pool.destructor = .returned ∧
      let r := exec step (start 2 Nat) (twoTasks 0 1)
      (∀ i : Fin 2, r.started i <+: r.submitted i ∧
          r.started i = r.finished i ++ (r.pool.workers i).current ∧
          (r.pool.workers i = .passed → (r.pool.step (.take i)).isSome)) ∧
        (r.pool.destructor = .returned →
          ∀ b, r.submitted b = [] ∨ b < 2 ∧ r.finished b = r.submitted b) :=
  ⟨by decide, tasks_run_once (twoTasks 0 1) (by decide)⟩

end TaskLog

end KVStorage

import KVStorage.PoolTasks
import KVStorage.Library.Settling

/-!
# The request pool comes to rest

When nobody calls the pool and no thread wakes by itself, every step lowers a rank. What
a pool at rest looks like says which threads may be left waiting.
-/

namespace KVStorage

set_option autoImplicit false

open Runs

universe u

/-- How many steps a worker may still do without a new task, a permit or a wake-up. -/
def WorkerPoint.rank {τ : Type u} : WorkerPoint τ → Nat
  | check .outer => 5
  | check .before => 2
  | check .after => 4
  | lock .outer => 4
  | lock .before => 3
  | lock .after => 5
  | test => 3
  | waiting => 1
  | running _ => 6
  | acquire _ | asleep | returned | threw => 0

namespace WorkerThread

variable {τ : Type u}

/-- A permit brings a paused thread back to one of its switches. -/
def rank (w : WorkerThread τ) : Nat := w.point.rank + 6 * w.pauseSem

theorem check_rank (w : WorkerThread τ) {c : Checkpoint} (h : w.point = .check c) : (w.check c).rank < w.rank := by
  simp only [rank, h]
  cases c <;> cases hs : w.status <;> simp [check, checkOuter, checkBefore, checkAfter, hs, WorkerPoint.rank]

theorem Signalled.rank {w w' : WorkerThread τ} (h : Signalled w w') : w'.rank ≤ w.rank + 6 := by
  cases h <;> simp only [WorkerThread.rank] <;> omega

theorem wake_rank (w : WorkerThread τ) : w.wake.rank ≤ w.rank + 5 := by
  rcases w.wake_cases with hw | ⟨hp, hw⟩ <;> rw [hw]
  · omega
  · simp only [rank, hp, WorkerPoint.rank]
    omega

end WorkerThread

def Reader.rank {τ : Type u} (m : Nat) : Reader τ → Nat
  | .idle | .removing | .waiting true => 0
  | .counting _ => m + 13
  | .pushing _ => m + 12
  | .notifying => 6
  | .waiting false => 1

def Removal.rank (size : Nat) : Removal → Nat
  | .signalling left => 7 * left.length + 7 * size + 3
  | .ending left => 2 * left.length + 1
  | .joining left => 2 * left.length

def Writer.rank (size : Nat) : Writer → Nat
  | .signalling .resumeToShutdown left => 7 * left.length + 14 * size + 6
  | .signalling _ left => 7 * left.length + 7 * size + 3
  | .draining asleep => 14 * size + 4 + if asleep then 0 else 1
  | .ending left => 2 * left.length + 1
  | .joining left => 2 * left.length
  | .destroyed => 0

def Users.rank {m : Nat} {τ : Type u} (size : Nat) : Users m τ → Nat
  | .shared readers removal =>
    ∑ c, (readers c).rank m + match removal with
      | none => 0
      | some (_, _, r) => r.rank size
  | .exclusive _ w => w.rank size

namespace ThreadPool

variable {m : Nat} {τ : Type u} {s s' : ThreadPool m τ} {a : ThreadPoolAct m τ}

/-- What the threads do by themselves, once they are in a call. -/
def Internal : ThreadPoolAct m τ → Prop
  | .call _ _ | .wakeSpurious _ | .drainSpurious _ | .writeSpurious => False
  | _ => True

/-- A task is worth what its worker does with it and whom it wakes when it was the last one. -/
def rank (s : ThreadPool m τ) : Nat :=
  (m + 5) * s.taskQueue.length + s.total WorkerThread.rank + s.users.rank s.size

theorem WorkerStep.rank {i : Nat} {w : WorkerThread τ} (h : WorkerStep s i a w) (ha : Internal a) :
    w.rank < (s.workers i).rank := by
  cases h with
  | check point => exact (s.workers i).check_rank point
  | @acquire c point permit =>
    cases c <;> simp only [WorkerThread.rank, WorkerThread.acquired, point, WorkerPoint.rank] <;> omega
  | @lock c point =>
    cases c <;> simp only [WorkerThread.rank, WorkerThread.locked, point, WorkerPoint.rank] <;> omega
  | empty point | sleep point =>
    simp only [WorkerThread.rank, point, WorkerPoint.rank]
    omega
  | wake => exact ha.elim

theorem rank_update (size : Nat) (readers : Fin m → Reader τ) (removal : Option (Fin m × Nat × Removal)) (c : Fin m)
    (r : Reader τ) :
    Users.rank size (.shared (Function.update readers c r) removal) + (readers c).rank m =
      Users.rank size (.shared readers removal) + r.rank m := by
  have hsum := sum_update (Finset.mem_univ c) readers r (Reader.rank m)
  simp only [Users.rank]
  omega

theorem ReaderStep.rank {old new : Reader τ} (h : ReaderStep s a old new) (ha : Internal a) :
    new.rank m < old.rank m := by
  cases h with
  | submit | wait | spurious => exact ha.elim
  | full | count | drained | drain => simp [Reader.rank]

theorem WriterStep.rank {old new : Writer} (h : WriterStep s a old new) (ha : Internal a) :
    new.rank s.size < old.rank s.size := by
  cases h with
  | spurious => exact ha.elim
  | drain | ended => simp [Writer.rank]
  | join =>
    simp only [Writer.rank, List.length_cons]
    omega

/-- When the last task is taken, each thread that waits for that may look at the queue once more. -/
theorem wake_rank (size : Nat) (users : Users m τ) : users.wake.rank size ≤ users.rank size + m + 1 := by
  cases users with
  | shared readers removal =>
    have hone : ∀ c ∈ (Finset.univ : Finset (Fin m)), (readers c).wake.rank m ≤ (readers c).rank m + 1 := by
      intro c _
      cases readers c with
      | waiting asleep => cases asleep <;> simp [Reader.wake, Reader.rank]
      | idle | counting | pushing | notifying | removing => exact Nat.le_succ _
    have hsum := Finset.sum_le_sum hone
    rw [Finset.sum_add_distrib, ← Finset.card_eq_sum_ones, Finset.card_univ, Fintype.card_fin] at hsum
    simp only [Users.wake, Users.rank]
    omega
  | exclusive c w =>
    cases w with
    | draining asleep => 
      simp only [Users.wake, Writer.wake, Users.rank, Writer.rank]
      cases asleep <;> simp only [if_true, if_false, Bool.false_eq_true] <;> omega
    | signalling | ending | joining | destroyed => exact Nat.le_add_right _ (m + 1)

theorem total_wakeAll (s : ThreadPool m τ) :
    s.wakeAll.total WorkerThread.rank ≤ s.total WorkerThread.rank + 5 * s.size := by
  have hone : ∀ i ∈ Finset.range s.size, (s.workers i).wake.rank ≤ (s.workers i).rank + 5 :=
    fun i _ => (s.workers i).wake_rank
  have hsum := Finset.sum_le_sum hone
  rw [Finset.sum_add_distrib, Finset.sum_const_nat (fun _ _ => rfl), Finset.card_range, Nat.mul_comm] at hsum
  exact hsum

theorem rank_setWorker {i : Nat} (hi : i < s.size) (w : WorkerThread τ) :
    (s.setWorker i w).total WorkerThread.rank + (s.workers i).rank = s.total WorkerThread.rank + w.rank :=
  total_setWorker WorkerThread.rank hi w

/-- What a step does to the tasks, the workers and the threads inside `status_mutex` is weighed separately. -/
theorem rank_lt_of {queue workers users : Nat} (hqueue : s'.taskQueue.length = queue)
    (hworkers : s'.total WorkerThread.rank ≤ workers) (husers : s'.users.rank s'.size ≤ users)
    (h : (m + 5) * queue + workers + users <
      (m + 5) * s.taskQueue.length + s.total WorkerThread.rank + s.users.rank s.size) : s'.rank < s.rank := by
  subst hqueue
  unfold rank
  omega

theorem rank_lt_same {workers users : Nat} (hqueue : s'.taskQueue = s.taskQueue)
    (hworkers : s'.total WorkerThread.rank ≤ workers) (husers : s'.users.rank s'.size ≤ users)
    (h : workers + users < s.total WorkerThread.rank + s.users.rank s.size) : s'.rank < s.rank := by
  refine rank_lt_of (congrArg _ hqueue) hworkers husers ?_
  omega

theorem idle_rank (size : Nat) : Users.rank size (.shared (fun _ => .idle) none : Users m τ) = 0 := by
  simp [Users.rank, Reader.rank]

theorem close_rank (c : Fin m) (sweep : Sweep) (hu : s.users = .exclusive c (.signalling sweep [])) :
    (s.close c sweep).rank < s.rank := by
  cases sweep with
  | pause | resume =>
    refine rank_lt_same rfl (Nat.le_refl (s.total _)) (Nat.le_of_eq (idle_rank _)) ?_
    simp only [hu, Users.rank, Writer.rank, List.length_nil]
    omega
  | resumeToShutdown =>
    refine rank_lt_same rfl (Nat.le_refl (s.total _)) (Nat.le_refl ((Writer.draining false).rank s.size)) ?_
    simp only [hu, Users.rank, Writer.rank, List.length_nil, Bool.false_eq_true, if_false]
    omega
  | terminate | shutdown =>
    refine rank_lt_same rfl s.total_wakeAll (Nat.le_of_eq (idle_rank _)) ?_
    simp only [hu, Users.rank, Writer.rank, List.length_nil]
    omega
  | destroy =>
    refine rank_lt_same rfl s.total_wakeAll (Nat.le_refl ((Writer.ending (List.range s.size)).rank s.size)) ?_
    simp only [hu, Users.rank, Writer.rank, List.length_nil, List.length_range]
    omega

theorem removal_rank (readers : Fin m → Reader τ) (c : Fin m) (keep size : Nat) (r : Removal) :
    Users.rank size (.shared readers (some (c, keep, r))) = Users.rank size (.shared readers none) + r.rank size := rfl

theorem removeNext_rank (hi : s.Inv) {readers : Fin m → Reader τ} {c : Fin m} {keep : Nat} {r : Removal}
    (hu : s.users = .shared readers (some (c, keep, r))) (hs : s.removeNext readers c keep r = some s') :
    s'.rank < s.rank := by
  have hphase := hi.phase
  rw [hu] at hphase
  cases hphase with
  | removing running one keep_le within nodup kept told =>
    match r with
    | .signalling (i :: left) =>
      cases hs
      have htotal := rank_setWorker (within i List.mem_cons_self).2 (s.workers i).terminate
      have hle := (s.workers i).terminate_signalled.rank
      refine rank_lt_same rfl (Nat.le_refl ((s.setWorker i (s.workers i).terminate).total _))
        (Nat.le_of_eq (removal_rank readers c keep s.size _)) ?_
      rw [hu, removal_rank]
      simp only [Removal.rank, List.length_cons]
      omega
    | .signalling [] =>
      cases hs
      refine rank_lt_same rfl s.total_wakeAll (Nat.le_of_eq (removal_rank readers c keep s.size _)) ?_
      rw [hu, removal_rank]
      simp only [Removal.rank, List.length_nil, List.length_range']
      omega
    | .ending (i :: left) =>
      cases hs
      obtain ⟨hk, hlt⟩ := within i List.mem_cons_self
      rw [endWorker_of_ended (told i hk hlt trivial)]
      refine rank_lt_same rfl (Nat.le_refl (s.total _)) (Nat.le_of_eq (removal_rank readers c keep s.size _)) ?_
      rw [hu, removal_rank]
      simp only [Removal.rank, List.length_cons]
      omega
    | .ending [] =>
      cases hs
      have hremoving : readers c = .removing := (one c).mpr rfl
      have hreaders := rank_update keep readers none c .idle
      have hworkers : ∑ i ∈ Finset.range keep, (s.workers i).rank ≤ s.total WorkerThread.rank :=
        Finset.sum_le_sum_of_subset (Finset.range_mono keep_le)
      have hsame : Users.rank keep (.shared readers none) = Users.rank s.size (.shared readers none) := rfl
      rw [hremoving] at hreaders
      simp only [Reader.rank, Nat.add_zero] at hreaders
      refine rank_lt_same rfl hworkers (Nat.le_of_eq (hreaders.trans hsame)) ?_
      rw [hu, removal_rank]
      simp only [Removal.rank, List.length_nil]
      omega
    | .joining (i :: left) =>
      obtain ⟨_, hs⟩ := Option.ite_none_right_eq_some.mp hs
      cases hs
      refine rank_lt_same rfl (Nat.le_refl (s.total _)) (Nat.le_of_eq (removal_rank readers c keep s.size _)) ?_
      rw [hu, removal_rank]
      simp only [Removal.rank, List.length_cons]
      omega
    | .joining [] => cases hs

theorem take_rank {i : Nat} {task : τ} {rest : List τ} (lt : i < s.size) (point : (s.workers i).point = .test)
    (queue : s.taskQueue = task :: rest) :
    rank { s.setWorker i { s.workers i with point := .running task } with
      taskQueue := rest
      users := if rest.isEmpty then s.users.wake else s.users
      started := s.started ++ [task] } < s.rank := by
  have htotal := rank_setWorker lt { s.workers i with point := .running task }
  have hwake : (if rest.isEmpty then s.users.wake else s.users).rank s.size ≤ s.users.rank s.size + m + 1 := by
    split
    · exact wake_rank _ _
    · omega
  refine rank_lt_of (show _ = rest.length from rfl)
    (Nat.le_refl (total (s.setWorker i { s.workers i with point := .running task }) _)) hwake ?_
  have hworker : WorkerThread.rank { s.workers i with point := .running task } = (s.workers i).rank + 3 := by
    simp only [WorkerThread.rank, point, WorkerPoint.rank]
    omega
  rw [queue, List.length_cons, Nat.mul_succ]
  omega

theorem push_rank {c : Fin m} {readers : Fin m → Reader τ} {removal : Option (Fin m × Nat × Removal)} {task : τ}
    (users : s.users = .shared readers removal) (old : readers c = .pushing task) :
    rank { s.setReader readers removal c .notifying with
      taskQueue := s.taskQueue ++ [task]
      accepted := s.accepted ++ [task] } < s.rank := by
  have hreaders := rank_update s.size readers removal c .notifying
  refine rank_lt_of List.length_append (Nat.le_refl (s.total _))
    (Nat.le_refl (Users.rank s.size (.shared (Function.update readers c .notifying) removal))) ?_
  simp only [old, Reader.rank] at hreaders
  rw [users, List.length_singleton, Nat.mul_succ]
  omega

theorem notify_rank {c : Fin m} {sleeper : Option Nat} {readers : Fin m → Reader τ}
    {removal : Option (Fin m × Nat × Removal)} (users : s.users = .shared readers removal)
    (old : readers c = .notifying) (wakes : s.Wakes sleeper) :
    ((s.wake sleeper).setReader readers removal c .idle).rank < s.rank := by
  have hreaders := rank_update s.size readers removal c .idle
  have htotal : (s.wake sleeper).total WorkerThread.rank ≤ s.total WorkerThread.rank + 5 := by
    cases sleeper with
    | none => exact Nat.le_add_right _ 5
    | some i =>
      have hset := rank_setWorker wakes.1 (s.workers i).wake
      have hle := (s.workers i).wake_rank
      change (s.setWorker i (s.workers i).wake).total _ ≤ _
      omega
  have hsame : (s.wake sleeper).size = s.size ∧ (s.wake sleeper).taskQueue = s.taskQueue := by
    cases sleeper <;> exact ⟨rfl, rfl⟩
  refine rank_lt_same hsame.2 htotal
    (Nat.le_of_eq (congrArg (fun size => Users.rank size (.shared (Function.update readers c .idle) removal)) hsame.1))
    ?_
  simp only [old, Reader.rank] at hreaders
  rw [users]
  omega

theorem signal_rank (hi : s.Inv) {c : Fin m} {sweep : Sweep} {i : Nat} {left : List Nat}
    (users : s.users = .exclusive c (.signalling sweep (i :: left))) :
    rank { s.setWorker i (sweep.signal (s.workers i)) with users := .exclusive c (.signalling sweep left) } <
      s.rank := by
  have hphase := hi.phase
  rw [users] at hphase
  cases hphase with
  | closing toJoin => cases toJoin
  | signalling status within =>
    have htotal := rank_setWorker (within i List.mem_cons_self) (sweep.signal (s.workers i))
    have hle := (WorkerThread.signal_signalled sweep (s.workers i)).rank
    refine rank_lt_same rfl (Nat.le_refl ((s.setWorker i (sweep.signal (s.workers i))).total _))
      (Nat.le_refl ((Writer.signalling sweep left).rank s.size)) ?_
    rw [users]
    cases sweep <;> simp only [Users.rank, Writer.rank, List.length_cons] <;> omega

theorem Inv.rank_lt (hi : s.Inv) (ha : Internal a) (hs : s.step a = some s') : s'.rank < s.rank := by
  cases step_stepped hs with
  | @worker a i w lt hw =>
    have htotal := rank_setWorker lt w
    have hlt := hw.rank ha
    refine rank_lt_same rfl (Nat.le_refl ((s.setWorker i w).total _)) (Nat.le_refl (s.users.rank s.size)) ?_
    omega
  | take lt point queue => exact take_rank lt point queue
  | @finish i task lt point =>
    have htotal := rank_setWorker lt { s.workers i with point := .check .outer }
    have hworker : ({ s.workers i with point := .check .outer } : WorkerThread τ).rank + 1 = (s.workers i).rank := by
      simp only [WorkerThread.rank, point, WorkerPoint.rank]
      omega
    refine rank_lt_same rfl (Nat.le_refl (total (s.setWorker i { s.workers i with point := .check .outer }) _))
      (Nat.le_refl (s.users.rank s.size)) ?_
    omega
  | refuse | addThread | removeThread | enter => exact ha.elim
  | @read a c readers removal old new users old_eq hr =>
    have hlt := hr.rank ha
    have hreaders := rank_update s.size readers removal c new
    refine rank_lt_same rfl (Nat.le_refl (s.total _))
      (Nat.le_refl (Users.rank s.size (.shared (Function.update readers c new) removal))) ?_
    rw [old_eq] at hreaders
    rw [users]
    omega
  | push users old => exact push_rank users old
  | notify users old wakes => exact notify_rank users old wakes
  | @write a c old new users hw =>
    have hlt := hw.rank ha
    refine rank_lt_same rfl (Nat.le_refl (s.total _)) (Nat.le_refl (new.rank s.size)) ?_
    rw [users]
    exact Nat.add_lt_add_left hlt _
  | @drained c users =>
    refine rank_lt_same rfl (Nat.le_refl (s.total _))
      (Nat.le_refl ((Writer.signalling .shutdown (List.range s.size)).rank s.size)) ?_
    simp only [users, Users.rank, Writer.rank, List.length_range, Bool.false_eq_true, if_false]
    omega
  | signal users => exact signal_rank hi users
  | close users => exact close_rank _ _ users
  | @endWorker c i left users =>
    rw [(hi.endWorker users).1]
    refine rank_lt_same rfl (Nat.le_refl (s.total _)) (Nat.le_refl ((Writer.joining (i :: left)).rank s.size)) ?_
    simp only [users, Users.rank, Writer.rank, List.length_cons]
    omega
  | remove users next => exact removeNext_rank hi users next

/-! ## At rest -/

/-- Somebody sleeps on `task_queue_empty_cv`. -/
def Users.Asleep : Users m τ → Prop
  | .shared readers _ => ∃ c, readers c = .waiting true
  | .exclusive _ w => w = .draining true

/-- Nobody sleeps through the last task. -/
def Heard (s : ThreadPool m τ) : Prop := Users.Asleep s.users → s.taskQueue ≠ []

theorem wake_awake (users : Users m τ) : ¬Users.Asleep users.wake := by
  cases users with
  | shared readers removal =>
    rintro ⟨c, hc⟩
    dsimp only at hc
    cases hr : readers c <;> rw [hr] at hc <;> cases hc
  | exclusive c w =>
    intro hw
    cases w <;> cases hw

theorem asleep_update {readers : Fin m → Reader τ} {removal removal' : Option (Fin m × Nat × Removal)} {c : Fin m}
    {r : Reader τ} (h : Users.Asleep (.shared (Function.update readers c r) removal)) :
    r = .waiting true ∨ Users.Asleep (.shared readers removal' : Users m τ) := by
  obtain ⟨d, hd⟩ := h
  by_cases hdc : d = c
  · subst hdc
    rw [Function.update_self] at hd
    exact Or.inl hd
  · rw [Function.update_of_ne hdc] at hd
    exact Or.inr ⟨d, hd⟩

theorem Heard.same (h : s.Heard) (hqueue : s'.taskQueue = s.taskQueue)
    (husers : Users.Asleep s'.users → Users.Asleep s.users) : s'.Heard :=
  fun ha => hqueue ▸ h (husers ha)

/-- Nobody begins to sleep. -/
theorem Heard.reader (h : s.Heard) {readers : Fin m → Reader τ} {removal removal' : Option (Fin m × Nat × Removal)}
    {c : Fin m} {r : Reader τ} (hu : s.users = .shared readers removal') (hr : r ≠ .waiting true) :
    (s.setReader readers removal c r).Heard := by
  refine h.same rfl fun ha => ?_
  rw [hu]
  exact (asleep_update ha).resolve_left hr

theorem Heard.removeNext (h : s.Heard) {readers : Fin m → Reader τ} {c : Fin m} {keep : Nat} {r : Removal}
    (hu : s.users = .shared readers (some (c, keep, r))) (hs : s.removeNext readers c keep r = some s') :
    s'.Heard := by
  refine h.same (removeNext_same hs).taskQueue fun ha => ?_
  rw [hu]
  match r with
  | .signalling (i :: left) | .signalling [] | .ending (i :: left) =>
    cases hs
    exact ha
  | .ending [] =>
    cases hs
    exact (asleep_update ha).resolve_left nofun
  | .joining (i :: left) =>
    obtain ⟨_, hs⟩ := Option.ite_none_right_eq_some.mp hs
    cases hs
    exact ha
  | .joining [] => cases hs

theorem Heard.step (h : s.Heard) (hi : s.Inv) (hs : s.step a = some s') : s'.Heard := by
  cases step_stepped hs with
  | worker | finish | refuse | addThread => exact h.same rfl id
  | @take i task rest lt point queue =>
    intro ha
    dsimp only at ha ⊢
    split at ha
    case isTrue => exact absurd ha (wake_awake _)
    case isFalse hrest => exact fun hq => hrest (by rw [hq]; rfl)
  | @read a c readers removal old new users old_eq hr =>
    cases hr with
    | submit | wait | full | count | drained | spurious => exact h.reader users nofun
    | drain queue => exact fun _ => queue
  | push => exact fun _ => by simp
  | @notify c sleeper readers removal users =>
    cases sleeper with
    | none => exact h.reader users nofun
    | some i => exact Heard.reader (s := s.setWorker i (s.workers i).wake) (h.same rfl id) users nofun
  | removeThread users => exact h.reader users nofun
  | enter users alone entry =>
    have hphase := hi.phase
    rw [users] at hphase
    cases hphase with
    | serving stable =>
      rcases entry_cases entry stable with ⟨sweep, rfl, -⟩ | ⟨rfl, -⟩ | ⟨rfl, -⟩ <;> exact fun ha => nomatch ha
  | write users hw =>
    cases hw with
    | drain queue => exact fun _ => queue
    | spurious | ended | join => exact fun ha => nomatch ha
  | drained | signal | endWorker => exact fun ha => nomatch ha
  | @close c sweep =>
    cases sweep with
    | pause | resume | terminate | shutdown => exact fun ⟨_, ha⟩ => nomatch ha
    | resumeToShutdown | destroy => exact fun ha => nomatch ha
  | remove users next => exact h.removeNext users next

/-- What a pool looks like that has come to rest. A worker has returned, waits for a task, or waits to be resumed.
A thread in a call waits for tasks that no worker takes, or for a worker that sleeps on. -/
structure Quiet (s : ThreadPool m τ) : Prop where
  worker : ∀ i < s.size, (s.workers i).point = .returned ∨ (s.workers i).point = .asleep ∨
    (∃ c, (s.workers i).point = .acquire c) ∧ (s.workers i).status = .paused
  reader : ∀ readers removal, s.users = .shared readers removal → ∀ c,
    readers c = .idle ∨ readers c = .waiting true ∧ s.taskQueue ≠ [] ∨ readers c = .removing
  removal : ∀ readers c keep r, s.users = .shared readers (some (c, keep, r)) →
    ∃ i left, r = .joining (i :: left) ∧ i < s.size ∧ (s.workers i).point = .asleep
  writer : ∀ c w, s.users = .exclusive c w → w = .draining true ∧ s.taskQueue ≠ [] ∨
    (∃ i left, w = .joining (i :: left) ∧ i < s.size ∧ (s.workers i).point = .asleep) ∨ w = .destroyed

section Stuck

variable (hstuck : Stuck step Internal s)

include hstuck

theorem stuck_write {c : Fin m} {w : Writer} (hu : s.users = .exclusive c w) : s.write c w = none := by
  have hnone := hstuck .write trivial
  simpa only [ThreadPool.step, hu] using hnone

theorem stuck_unlocked {i : Nat} (hi : i < s.size) : ¬(s.workers i).point.Locks := by
  intro hl
  cases hp : (s.workers i).point with
  | check c =>
    have hnone := hstuck (.check i) trivial
    simp [ThreadPool.step, hi, hp] at hnone
  | test =>
    have hnone := hstuck (.test i) trivial
    simp [ThreadPool.step, hi, hp] at hnone
  | waiting =>
    have hnone := hstuck (.sleep i) trivial
    simp [ThreadPool.step, hi, hp] at hnone
  | acquire | lock | asleep | running | returned | threw =>
    rw [hp] at hl
    exact hl

theorem stuck_free : s.QueueFree := by
  refine ⟨fun i hi => stuck_unlocked hstuck hi, fun c left hu => ?_⟩
  have hnone := stuck_write hstuck hu
  cases left <;> simp [write] at hnone

theorem stuck_worker (hinv : s.Inv) {i : Nat} (hi : i < s.size) :
    (s.workers i).point = .returned ∨ (s.workers i).point = .asleep ∨
      (∃ c, (s.workers i).point = .acquire c) ∧ (s.workers i).status = .paused := by
  have hfree := stuck_free hstuck
  cases hp : (s.workers i).point with
  | check c =>
    have hnone := hstuck (.check i) trivial
    simp [ThreadPool.step, hi, hp] at hnone
  | acquire c =>
    refine Or.inr (Or.inr ⟨⟨c, rfl⟩, ((hinv.sound i).acquire c hp).resolve_right fun hpermit => ?_⟩)
    have hnone := hstuck (.acquire i) trivial
    simp [ThreadPool.step, hi, hp, hpermit] at hnone
  | lock c =>
    have hnone := hstuck (.lock i) trivial
    simp [ThreadPool.step, hi, hp, hfree] at hnone
  | test | waiting => exact absurd (by rw [hp]; trivial) (stuck_unlocked hstuck hi)
  | asleep => exact Or.inr (Or.inl rfl)
  | running task =>
    have hnone := hstuck (.finish i) trivial
    simp [ThreadPool.step, hi, hp] at hnone
  | returned => exact Or.inl rfl
  | threw => exact absurd hp (hinv.sound i).threw

/-- A worker that was told to end and has not returned sleeps. -/
theorem stuck_ended (hinv : s.Inv) {i : Nat} (hi : i < s.size) (hended : (s.workers i).status.Ended)
    (hp : (s.workers i).point ≠ .returned) : (s.workers i).point = .asleep := by
  rcases stuck_worker hstuck hinv hi with hr | ha | ⟨_, hpaused⟩
  · exact absurd hr hp
  · exact ha
  · rcases hended with he | he <;> cases he.symm.trans hpaused

theorem stuck_reader (hheard : s.Heard) {readers : Fin m → Reader τ}
    {removal : Option (Fin m × Nat × Removal)} (hu : s.users = .shared readers removal) (c : Fin m) :
    readers c = .idle ∨ readers c = .waiting true ∧ s.taskQueue ≠ [] ∨ readers c = .removing := by
  have hfree := stuck_free hstuck
  cases hc : readers c with
  | idle => exact Or.inl rfl
  | counting task =>
    have hnone := hstuck (.count c) trivial
    by_cases hmax : 0 < s.maxTaskCount <;> by_cases hfull : s.maxTaskCount ≤ s.taskQueue.length <;>
      simp [ThreadPool.step, hu, read, hc, hmax, hfree.1, hfull] at hnone
  | pushing task => exact absurd (hstuck (.push c) trivial) (by simp [step_push hu hc hfree])
  | notifying =>
    by_cases hsleeper : ∃ i < s.size, (s.workers i).point = .asleep
    · obtain ⟨i, hi⟩ := hsleeper
      have hone : s.Wakes (some i) := hi
      exact absurd (hstuck (.notifyOne c (some i)) trivial) (by simp [step_notify hu hc hone])
    · have hnobody : s.Wakes none := fun i hi hp => hsleeper ⟨i, hi, hp⟩
      exact absurd (hstuck (.notifyOne c none) trivial) (by simp [step_notify hu hc hnobody])
  | waiting asleep =>
    cases asleep with
    | true => exact Or.inr (Or.inl ⟨rfl, hheard (by rw [hu]; exact ⟨c, hc⟩)⟩)
    | false =>
      have hnone := hstuck (.drain c) trivial
      cases hq : s.taskQueue <;> simp [ThreadPool.step, hu, read, hc, hfree.1, hq] at hnone
  | removing => exact Or.inr (Or.inr rfl)

theorem stuck_removal (hinv : s.Inv) {readers : Fin m → Reader τ} {c : Fin m} {keep : Nat} {r : Removal}
    (hu : s.users = .shared readers (some (c, keep, r))) :
    ∃ i left, r = .joining (i :: left) ∧ i < s.size ∧ (s.workers i).point = .asleep := by
  have hphase := hinv.phase
  rw [hu] at hphase
  have hnone : s.removeNext readers c keep r = none := by
    have hnone := hstuck .remove trivial
    simpa only [ThreadPool.step, hu] using hnone
  cases hphase with
  | removing running one keep_le within nodup kept told joined ongoing =>
    cases r with
    | signalling left => cases left <;> cases hnone
    | ending left => cases left <;> cases hnone
    | joining left =>
      cases left with
      | nil => exact absurd rfl ongoing
      | cons i left =>
        obtain ⟨hk, hlt⟩ := within i List.mem_cons_self
        refine ⟨i, left, rfl, hlt, stuck_ended hstuck hinv hlt (told i hk hlt trivial) fun hp => ?_⟩
        simp [removeNext, hp] at hnone

theorem stuck_writer (hinv : s.Inv) (hheard : s.Heard) {c : Fin m} {w : Writer} (hu : s.users = .exclusive c w) :
    w = .draining true ∧ s.taskQueue ≠ [] ∨
      (∃ i left, w = .joining (i :: left) ∧ i < s.size ∧ (s.workers i).point = .asleep) ∨ w = .destroyed := by
  have hfree := stuck_free hstuck
  have hnone := stuck_write hstuck hu
  have hphase := hinv.phase
  rw [hu] at hphase
  match w with
  | .signalling sweep (i :: left) | .signalling sweep [] | .ending (i :: left) | .ending [] => cases hnone
  | .draining true => exact Or.inl ⟨rfl, hheard (by rw [hu]; rfl)⟩
  | .draining false => cases hq : s.taskQueue <;> simp [write, hfree.1, hq] at hnone
  | .destroyed => exact Or.inr (Or.inr rfl)
  | .joining [] =>
    cases hphase with
    | closing toJoin => cases toJoin
  | .joining (i :: left) =>
    cases hphase with
    | closing toJoin status within workers =>
      cases toJoin
      have hlt := within i List.mem_cons_self
      refine Or.inr (Or.inl ⟨i, left, rfl, hlt, stuck_ended hstuck hinv hlt (workers i hlt) fun hp => ?_⟩)
      simp [write, hp] at hnone

theorem stuck_quiet (hinv : s.Inv) (hheard : s.Heard) : s.Quiet where
  worker _ hi := stuck_worker hstuck hinv hi
  reader _ _ hu := stuck_reader hstuck hheard hu
  removal _ _ _ _ hu := stuck_removal hstuck hinv hu
  writer _ _ hu := stuck_writer hstuck hinv hheard hu

end Stuck

/-- What the steps of the pool itself keep holds when the pool comes to rest. -/
theorem settles {J Good : ThreadPool m τ → Prop}
    (hstep : ∀ (s : ThreadPool m τ) a s', s.Inv → J s → Internal a → s.step a = some s' → J s')
    (hgood : ∀ s : ThreadPool m τ, s.Inv → s.Quiet → J s → Good s) (hi : s.Inv) (hh : s.Heard) (hj : J s) :
    Settles step Internal Good s := by
  have hall : ∀ (s : ThreadPool m τ) a s', (s.Inv ∧ s.Heard ∧ J s) → Internal a → s.step a = some s' →
      (s'.Inv ∧ s'.Heard ∧ J s') ∧ s'.rank < s.rank := by
    rintro s a s' ⟨hi, hh, hj⟩ ha hs
    exact ⟨⟨hi.step hs, hh.step hi hs, hstep s a s' hi hj ha hs⟩, hi.rank_lt ha hs⟩
  refine Settles.of_rank rank hall ?_ ⟨hi, hh, hj⟩
  rintro s ⟨hi, hh, hj⟩ hstuck
  exact hgood s hi (stuck_quiet hstuck hi hh) hj

theorem exec_heard (n max : Nat) (as : List (ThreadPoolAct m τ)) : (exec step (start m τ n max) as).Heard := by
  have hboth : ∀ s a s', (s.Inv ∧ s.Heard) → step s a = some s' → s'.Inv ∧ s'.Heard :=
    fun (s : ThreadPool m τ) a s' h hs => ⟨h.1.step hs, h.2.step h.1 hs⟩
  exact (exec_always hboth as ⟨start_inv n max, fun ⟨_, ha⟩ => nomatch ha⟩).2

/-- Whatever was called and however the threads were interleaved, the pool comes to rest when nothing more is
called. A thread that is then still in a call waits for the tasks in the queue, with all workers asleep, paused or
gone, or for a worker that sleeps although it was told to end. -/
theorem comes_to_rest (n max : Nat) (as : List (ThreadPoolAct m τ)) :
    Settles step Internal Quiet (exec step (start m τ n max) as) :=
  settles (J := fun _ => True) (fun _ _ _ _ _ _ _ => trivial) (fun _ _ hq _ => hq) (exec_inv n max as)
    (exec_heard n max as) trivial

end ThreadPool

end KVStorage

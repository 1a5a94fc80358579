import KVStorage.PoolProgress

/-!
# How the request pool is shut down

`shutdown` returns unless tasks are left that no worker comes back for. The threads of a
pool that was told to end are all joined unless one of them was about to sleep when the
others were woken.
-/

namespace KVStorage

set_option autoImplicit false

open Runs

universe u

/-- The thread looks at the queue before it sleeps, if it is not told to stop. A thread that was paused between an
empty queue and its wait does not. -/
def WorkerPoint.Helps {τ : Type u} : WorkerPoint τ → Prop
  | check .before | acquire .before | lock .before | waiting | asleep | returned | threw => False
  | _ => True

namespace WorkerThread

variable {τ : Type u}

theorem wake_ne_asleep (w : WorkerThread τ) : w.wake.point ≠ .asleep := by
  unfold wake
  split
  · exact nofun
  · assumption

theorem wake_waiting (w : WorkerThread τ) : w.wake.point = .waiting ↔ w.point = .waiting := by
  rcases w.wake_cases with hw | ⟨hp, hw⟩ <;> rw [hw]
  rw [hp]
  exact ⟨nofun, nofun⟩

end WorkerThread

namespace ThreadPool

variable {m : Nat} {τ : Type u} {s s' : ThreadPool m τ} {a : ThreadPoolAct m τ}

/-! ## After the workers were told to end -/

/-- The owner of `status_mutex` has let it go, or destroys the workers. -/
def Users.Ends : Users m τ → Prop
  | .shared readers removal => readers = (fun _ => .idle) ∧ removal = none
  | .exclusive _ w => ∃ left, w.toJoin = some left

theorem Users.Ends.wake {users : Users m τ} (h : Users.Ends users) : Users.Ends users.wake := by
  cases users with
  | shared readers removal =>
    obtain ⟨rfl, rfl⟩ := h
    exact ⟨rfl, rfl⟩
  | exclusive c w =>
    obtain ⟨left, hw⟩ := h
    cases w with
    | signalling | draining => cases hw
    | ending | joining | destroyed => exact ⟨left, hw⟩

/-- The steps of a pool that has ended, by itself. -/
inductive EndStep (s : ThreadPool m τ) : ThreadPool m τ → Prop where
  | worker {a : ThreadPoolAct m τ} {i : Nat} {w : WorkerThread τ} (lt : i < s.size) (h : WorkerStep s i a w)
      (own : Internal a) : EndStep s (s.setWorker i w)
  | take {i : Nat} {task : τ} {rest : List τ} {users : Users m τ} (lt : i < s.size)
      (point : (s.workers i).point = .test) (queue : s.taskQueue = task :: rest)
      (users_eq : users = s.users ∨ users = s.users.wake) :
      EndStep s
        { s.setWorker i { s.workers i with point := .running task } with
          taskQueue := rest
          users := users
          started := s.started ++ [task] }
  | finish {i : Nat} {task : τ} (lt : i < s.size) (point : (s.workers i).point = .running task) :
      EndStep s
        { s.setWorker i { s.workers i with point := .check .outer } with finished := s.finished ++ [task] }
  | join {c : Fin m} {w : Writer} (ends : Users.Ends (.exclusive c w : Users m τ)) (old : ∃ w, s.users = .exclusive c w) :
      EndStep s { s with users := .exclusive c w }

theorem Users.Ends.step (h : Users.Ends s.users) (hi : s.Inv) (ha : Internal a) (hs : s.step a = some s') :
    EndStep s s' := by
  have hshared : ∀ {readers removal}, s.users = .shared readers removal → readers = (fun _ => .idle) ∧ removal = none := by
    intro readers removal hu
    rwa [hu] at h
  have hexclusive : ∀ {c w}, s.users = .exclusive c w → ∃ left, w.toJoin = some left := by
    intro c w hu
    rwa [hu] at h
  cases step_stepped hs with
  | worker lt hw => exact .worker lt hw ha
  | @take i task rest lt point queue =>
    refine .take lt point queue ?_
    split
    · exact Or.inr rfl
    · exact Or.inl rfl
  | finish lt point => exact .finish lt point
  | refuse | addThread | removeThread | enter => exact ha.elim
  | read users old_eq hr =>
    obtain ⟨rfl, rfl⟩ := hshared users
    subst old_eq
    cases hr <;> exact ha.elim
  | push users old | notify users old =>
    obtain ⟨rfl, rfl⟩ := hshared users
    cases old
  | @write a c old new users hw =>
    refine .join ?_ ⟨old, users⟩
    obtain ⟨left, hleft⟩ := hexclusive users
    cases hw with
    | drain | spurious => cases hleft
    | ended => exact ⟨[], rfl⟩
    | join => exact ⟨_, rfl⟩
  | drained users | signal users | close users =>
    obtain ⟨left, hleft⟩ := hexclusive users
    cases hleft
  | @endWorker c i left users =>
    rw [(hi.endWorker users).1]
    exact .join ⟨i :: left, rfl⟩ ⟨_, users⟩
  | remove users =>
    obtain ⟨-, hnone⟩ := hshared users
    cases hnone

/-- All workers were told to end, and none of them sleeps or is about to. -/
structure Over (s : ThreadPool m τ) : Prop where
  ends : Users.Ends s.users
  ended : ∀ i < s.size, (s.workers i).status.Ended
  awake : ∀ i < s.size, (s.workers i).point ≠ .waiting ∧ (s.workers i).point ≠ .asleep

theorem EndStep.ends (h : EndStep s s') (hends : Users.Ends s.users) : Users.Ends s'.users := by
  cases h with
  | worker | finish => exact hends
  | take lt point queue users_eq =>
    rcases users_eq with rfl | rfl
    · exact hends
    · exact hends.wake
  | join ends => exact ends

/-- A worker that was told to end does not go to sleep any more. -/
theorem WorkerStep.awake {i : Nat} {w : WorkerThread τ} (h : WorkerStep s i a w) (hended : (s.workers i).status.Ended)
    (hp : (s.workers i).point ≠ .waiting) : w.point ≠ .waiting ∧ w.point ≠ .asleep := by
  cases h with
  | check =>
    rw [WorkerThread.check_ended hended]
    exact ⟨nofun, nofun⟩
  | @acquire c => cases c <;> exact ⟨nofun, nofun⟩
  | @lock c => cases c <;> exact ⟨nofun, nofun⟩
  | empty | wake => exact ⟨nofun, nofun⟩
  | sleep point => exact absurd point hp

theorem Over.step (h : s.Over) (hs : EndStep s s') : s'.Over := by
  refine ⟨hs.ends h.ends, ?_, ?_⟩
  · cases hs with
    | @worker a i w lt hw =>
      exact forall_setWorker (p := fun j w => j < s.size → w.status.Ended)
        (fun hi => hw.moved.keeps.ended (h.ended i hi)) fun j _ => h.ended j
    | @take i | @finish i =>
      exact forall_setWorker (p := fun j w => j < s.size → w.status.Ended) (h.ended i) fun j _ => h.ended j
    | join => exact h.ended
  · cases hs with
    | @worker a i w lt hw =>
      exact forall_setWorker (p := fun j w => j < s.size → w.point ≠ .waiting ∧ w.point ≠ .asleep)
        (fun hi => hw.awake (h.ended i hi) (h.awake i hi).1) fun j _ => h.awake j
    | @take i | @finish i =>
      exact forall_setWorker (p := fun j w => j < s.size → w.point ≠ .waiting ∧ w.point ≠ .asleep)
        (fun _ => ⟨nofun, nofun⟩) fun j _ => h.awake j
    | join => exact h.awake

/-- All threads of the pool have returned, and the call that ended it as well. -/
def Gone (s : ThreadPool m τ) : Prop :=
  (∀ i < s.size, (s.workers i).point = .returned) ∧
    (s.users = .shared (fun _ => .idle) none ∨ ∃ c, s.users = .exclusive c .destroyed)

theorem Over.gone (h : s.Over) (hq : s.Quiet) : s.Gone := by
  refine ⟨fun i hi => ?_, ?_⟩
  · rcases hq.worker i hi with hr | ha | ⟨_, hp⟩
    · exact hr
    · exact absurd ha (h.awake i hi).2
    · rcases h.ended i hi with he | he <;> cases he.symm.trans hp
  · have hends := h.ends
    cases hu : s.users with
    | shared readers removal =>
      rw [hu] at hends
      obtain ⟨rfl, rfl⟩ := hends
      exact Or.inl rfl
    | exclusive c w =>
      rw [hu] at hends
      obtain ⟨left, hleft⟩ := hends
      rcases hq.writer c w hu with ⟨rfl, _⟩ | ⟨i, rest, _, hi, ha⟩ | rfl
      · cases hleft
      · exact absurd ha (h.awake i hi).2
      · exact Or.inr ⟨c, rfl⟩

/-- A worker sleeps, or is about to, and nobody will wake it. -/
def Lost (i : Nat) (s : ThreadPool m τ) : Prop :=
  Users.Ends s.users ∧ i < s.size ∧ ((s.workers i).point = .waiting ∨ (s.workers i).point = .asleep)

theorem Lost.step {i : Nat} (h : Lost i s) (hs : EndStep s s') : Lost i s' := by
  obtain ⟨hends, hi, hp⟩ := h
  refine ⟨hs.ends hends, ?_⟩
  cases hs with
  | @worker a j w lt hw own =>
    refine ⟨hi, ?_⟩
    refine forall_setWorker (p := fun k w => k = i → w.point = .waiting ∨ w.point = .asleep) ?_ ?_ i rfl
    · rintro rfl
      cases hw with
      | sleep => exact Or.inr rfl
      | wake => exact own.elim
      | check point | acquire point | lock point | empty point =>
        rcases hp with hp | hp <;> cases hp.symm.trans point
    · rintro k _ rfl
      exact hp
  | @take j task rest users lt point | @finish j task lt point =>
    have hij : i ≠ j := by
      rintro rfl
      rcases hp with hp | hp <;> cases hp.symm.trans point
    refine ⟨hi, ?_⟩
    rwa [show _ = s.workers i from setWorker_of_ne s _ hij]
  | join => exact ⟨hi, hp⟩

theorem Lost.not_settles {i : Nat} (h : Lost i s) (hi : s.Inv) : ¬Settles ThreadPool.step Internal Gone s := by
  refine Settles.not_of_invariant (fun s => s.Inv ∧ Lost i s) ?_ ?_ ⟨hi, h⟩
  · rintro s a s' ⟨hi, hj⟩ ha hs
    exact ⟨hi.step hs, hj.step (hj.1.step hi ha hs)⟩
  · rintro s ⟨_, _, hlt, hp⟩ hgone
    rcases hp with hp | hp <;> cases hp.symm.trans (hgone.1 i hlt)

/-- The last step of `terminate`, of the destructor and of `shutdown` wakes the workers that sleep. -/
theorem close_ended (hi : s.Inv) {c : Fin m} {sweep : Sweep} (hsweep : sweep.status = .terminating)
    (hu : s.users = .exclusive c (.signalling sweep [])) :
    Users.Ends (s.close c sweep).users ∧ (s.close c sweep).size = s.size ∧
      ∀ i < s.size, ((s.close c sweep).workers i).status.Ended ∧
        ((s.close c sweep).workers i).point ≠ .asleep ∧
        (((s.close c sweep).workers i).point = .waiting ↔ (s.workers i).point = .waiting) := by
  have hphase := hi.phase
  rw [hu] at hphase
  cases hphase with
  | closing toJoin => cases toJoin
  | signalling status within nodup before after =>
    have hwoken : sweep.After = WorkerStatus.Ended → ∀ i < s.size, (s.wakeAll.workers i).status.Ended ∧
        (s.wakeAll.workers i).point ≠ .asleep ∧
        ((s.wakeAll.workers i).point = .waiting ↔ (s.workers i).point = .waiting) := by
      intro hafter i hlt
      have hended : (s.workers i).status.Ended := hafter ▸ after i hlt List.not_mem_nil
      exact ⟨(s.workers i).wake_status.symm ▸ hended, (s.workers i).wake_ne_asleep, (s.workers i).wake_waiting⟩
    cases sweep with
    | pause | resume | resumeToShutdown => cases hsweep
    | terminate | shutdown => exact ⟨⟨rfl, rfl⟩, rfl, hwoken rfl⟩
    | destroy => exact ⟨⟨_, rfl⟩, rfl, hwoken rfl⟩

/-- `notify_all` is to come, and it will find the workers that sleep. -/
structure Closing (sweep : Sweep) (c : Fin m) (s : ThreadPool m τ) : Prop where
  users : s.users = .exclusive c (.signalling sweep [])
  ended : ∀ i < s.size, (s.workers i).status.Ended
  settled : ∀ i < s.size, (s.workers i).point ≠ .waiting

theorem Closing.step {sweep : Sweep} {c : Fin m} (h : s.Closing sweep c) (hsweep : sweep.status = .terminating)
    (hi : s.Inv) (hs : s.step a = some s') : s'.Closing sweep c ∨ s'.Over := by
  have hu := h.users
  cases step_stepped hs with
  | @worker a i w lt hw =>
    refine Or.inl ⟨hu, ?_, ?_⟩
    · exact forall_setWorker (p := fun j w => j < s.size → w.status.Ended)
        (fun hi => hw.moved.keeps.ended (h.ended i hi)) fun j _ => h.ended j
    · exact forall_setWorker (p := fun j w => j < s.size → w.point ≠ .waiting)
        (fun hi => (hw.awake (h.ended i hi) (h.settled i hi)).1) fun j _ => h.settled j
  | @take i task rest lt point queue =>
    refine Or.inl ⟨?_, ?_, ?_⟩
    · dsimp only
      rw [hu]
      split <;> rfl
    · exact forall_setWorker (p := fun j w => j < s.size → w.status.Ended) (h.ended i) fun j _ => h.ended j
    · exact forall_setWorker (p := fun j w => j < s.size → w.point ≠ .waiting) (fun _ => nofun) fun j _ => h.settled j
  | @finish i =>
    refine Or.inl ⟨hu, ?_, ?_⟩
    · exact forall_setWorker (p := fun j w => j < s.size → w.status.Ended) (h.ended i) fun j _ => h.ended j
    · exact forall_setWorker (p := fun j w => j < s.size → w.point ≠ .waiting) (fun _ => nofun) fun j _ => h.settled j
  | refuse => exact Or.inl h
  | read users | push users | notify users | addThread users | removeThread users | enter users | remove users =>
    cases hu.symm.trans users
  | write users hw =>
    cases hu.symm.trans users
    cases hw
  | drained users | signal users | endWorker users => cases hu.symm.trans users
  | close users =>
    cases hu.symm.trans users
    obtain ⟨hends, hsize, hworkers⟩ := close_ended hi hsweep hu
    refine Or.inr ⟨hends, ?_, ?_⟩
    · rw [hsize]
      exact fun i hlt => (hworkers i hlt).1
    · rw [hsize]
      exact fun i hlt => ⟨fun hp => h.settled i hlt ((hworkers i hlt).2.2.mp hp), (hworkers i hlt).2.1⟩

/-- `terminate` and the destructor wake the sleepers without the lock on the queue: a worker that is between its
switch and its wait at this time sleeps for good, and the destructor waits for it. If there is none, all workers
return, and the destructor as well. -/
theorem terminate_iff (n max : Nat) (as : List (ThreadPoolAct m τ)) {c : Fin m} {sweep : Sweep}
    (hsweep : sweep.status = .terminating)
    (hu : (exec step (start m τ n max) as).users = .exclusive c (.signalling sweep [])) :
    Settles step Internal Gone (exec step (start m τ n max) as) ↔
      ∀ i < (exec step (start m τ n max) as).size,
        ((exec step (start m τ n max) as).workers i).point ≠ .waiting := by
  have hi := exec_inv (m := m) (τ := τ) n max as
  have hh := exec_heard (m := m) (τ := τ) n max as
  generalize exec step (start m τ n max) as = s at hu hi hh ⊢
  have hclose : s.step .write = some (s.close c sweep) := by simp [step, hu, write]
  obtain ⟨hends, hsize, hworkers⟩ := close_ended hi hsweep hu
  constructor
  · rintro ⟨-, hnext⟩ i hlt hp
    have hlost : Lost i (s.close c sweep) := ⟨hends, hsize ▸ hlt, Or.inl ((hworkers i hlt).2.2.mpr hp)⟩
    exact hlost.not_settles (hi.step hclose) (hnext .write _ trivial hclose)
  · intro hnone
    have hphase := hi.phase
    rw [hu] at hphase
    have hended : ∀ i < s.size, (s.workers i).status.Ended := by
      cases hphase with
      | closing toJoin => cases toJoin
      | signalling status within nodup before after =>
        intro i hlt
        have hafter := after i hlt List.not_mem_nil
        cases sweep with
        | pause | resume | resumeToShutdown => cases hsweep
        | terminate | shutdown | destroy => exact hafter
    refine settles (J := fun s => s.Closing sweep c ∨ s.Over) ?_ ?_ hi hh (Or.inl ⟨hu, hended, hnone⟩)
    · rintro s a s' hi (hj | hj) ha hs
      · exact hj.step hsweep hi hs
      · exact Or.inr (hj.step (hj.ends.step hi ha hs))
    · rintro s hi hq (hj | hj)
      · rcases hq.writer c _ hj.users with ⟨hw, _⟩ | ⟨_, _, hw, _⟩ | hw <;> cases hw
      · exact hj.gone hq

/-- A worker has found the queue empty and passed its switch when the destructor begins. -/
def aboutToSleep : List (ThreadPoolAct 1 Nat) :=
  [.check 0, .lock 0, .test 0, .check 0, .call caller .destroy, .write]

theorem terminate_iff_aboutToSleep : ¬Settles step Internal Gone (exec step (start 1 Nat 1 0) aboutToSleep) :=
  fun h => (terminate_iff 1 0 aboutToSleep rfl rfl).mp h 0 (by decide) rfl

/-! ## While `shutdown` waits for the queue -/

theorem WorkerStep.helps {i : Nat} {w : WorkerThread τ} (h : WorkerStep s i a w) (hw : (s.workers i).Sound)
    (hl : (s.workers i).status.Live) (hp : (s.workers i).point.Helps) : w.point.Helps ∨ s.taskQueue = [] := by
  cases h with
  | @check c point =>
    rw [point] at hp
    cases c with
    | outer =>
      rw [WorkerThread.check_running (hw.outer_running point hl)]
      exact Or.inl trivial
    | before => exact hp.elim
    | after =>
      rw [WorkerThread.check_after hl]
      exact Or.inl trivial
  | @acquire c point | @lock c point =>
    rw [point] at hp
    cases c with
    | outer | after => exact Or.inl trivial
    | before => exact hp.elim
  | empty point queue => exact Or.inr queue
  | sleep point =>
    rw [point] at hp
    exact hp.elim
  | wake => exact Or.inl trivial

/-- A worker that does not come back to the queue goes to sleep. -/
theorem WorkerStep.idles {i : Nat} {w : WorkerThread τ} (h : WorkerStep s i a w) (ha : Internal a)
    (hl : (s.workers i).status.Live) (hp : ¬(s.workers i).point.Helps) : ¬w.point.Helps := by
  cases h with
  | @check c point =>
    rw [point] at hp
    cases c with
    | outer | after => exact absurd trivial hp
    | before =>
      rw [WorkerThread.check_before hl]
      exact id
  | @acquire c point | @lock c point =>
    rw [point] at hp
    cases c with
    | outer | after => exact absurd trivial hp
    | before => exact id
  | empty => exact id
  | sleep => exact id
  | wake => exact ha.elim

def Helped (s : ThreadPool m τ) : Prop := ∃ i < s.size, (s.workers i).point.Helps

theorem helped_setWorker {i : Nat} {w : WorkerThread τ} (h : s.Helped)
    (hw : (s.workers i).point.Helps → w.point.Helps ∨ s.taskQueue = []) : (s.setWorker i w).Helped ∨ s.taskQueue = [] := by
  obtain ⟨j, hj, hp⟩ := h
  by_cases hji : j = i
  · subst hji
    exact (hw hp).imp_left fun hw => ⟨j, hj, by rwa [setWorker_self]⟩
  · exact Or.inl ⟨j, hj, by rwa [setWorker_of_ne s w hji]⟩

theorem Inv.draining_live (hi : s.Inv) {c : Fin m} {asleep : Bool} (hu : s.users = .exclusive c (.draining asleep)) :
    ∀ i < s.size, (s.workers i).status.Live := by
  have hphase := hi.phase
  rw [hu] at hphase
  cases hphase with
  | draining status workers => exact workers
  | closing toJoin => cases toJoin

/-- `shutdown` waits for the queue. -/
structure Draining (c : Fin m) (s : ThreadPool m τ) : Prop where
  users : ∃ asleep, s.users = .exclusive c (.draining asleep)
  helped : s.taskQueue = [] ∨ s.Helped

/-- `shutdown` tells the workers to end. -/
structure Telling (c : Fin m) (s : ThreadPool m τ) : Prop where
  users : ∃ left, s.users = .exclusive c (.signalling .shutdown left)
  queue : s.taskQueue = []

/-- `shutdown` has returned. -/
structure Closed (s : ThreadPool m τ) : Prop where
  ended : s.Over
  users : s.users = .shared (fun _ => .idle) none
  status : s.status = .terminated
  queue : s.taskQueue = []

theorem Draining.step {c : Fin m} (h : s.Draining c) (hi : s.Inv) (ha : Internal a) (hs : s.step a = some s') :
    s'.Draining c ∨ s'.Telling c := by
  obtain ⟨asleep, hu⟩ := h.users
  have hlive := hi.draining_live hu
  cases step_stepped hs with
  | @worker a i w lt hw =>
    refine Or.inl ⟨⟨asleep, hu⟩, ?_⟩
    rcases h.helped with hq | hhelped
    · exact Or.inl hq
    · exact (helped_setWorker hhelped (hw.helps (hi.sound i) (hlive i lt))).symm
  | @take i task rest lt point queue =>
    refine Or.inl ⟨?_, Or.inr ⟨i, lt, ?_⟩⟩
    · dsimp only
      rw [hu]
      split
      · exact ⟨false, rfl⟩
      · exact ⟨asleep, rfl⟩
    · dsimp only
      rw [setWorker_self]
      trivial
  | @finish i task lt =>
    refine Or.inl ⟨⟨asleep, hu⟩, Or.inr ⟨i, lt, ?_⟩⟩
    dsimp only
    rw [setWorker_self]
    trivial
  | refuse | addThread | removeThread | enter => exact ha.elim
  | read users | push users | notify users | remove users => cases hu.symm.trans users
  | write users hw =>
    cases hu.symm.trans users
    cases hw with
    | drain => exact Or.inl ⟨⟨true, rfl⟩, h.helped⟩
    | spurious => exact ha.elim
  | drained users unlocked queue =>
    cases hu.symm.trans users
    exact Or.inr ⟨⟨_, rfl⟩, queue⟩
  | signal users | close users | endWorker users => cases hu.symm.trans users

/-- A worker that comes back to the queue does not rest before it has looked at it. -/
theorem Draining.not_quiet {c : Fin m} (h : s.Draining c) (hi : s.Inv) (hq : s.Quiet) : False := by
  obtain ⟨asleep, hu⟩ := h.users
  rcases hq.writer c _ hu with ⟨_, hne⟩ | ⟨_, _, hw, _⟩ | hw
  · obtain ⟨i, hlt, hp⟩ := h.helped.resolve_left hne
    rcases hq.worker i hlt with hr | ha | ⟨_, hpaused⟩
    · rw [hr] at hp
      exact hp
    · rw [ha] at hp
      exact hp
    · exact (hi.draining_live hu i hlt).ne_paused hpaused
  · cases hw
  · cases hw

theorem Telling.step {c : Fin m} (h : s.Telling c) (hi : s.Inv) (ha : Internal a) (hs : s.step a = some s') :
    s'.Telling c ∨ s'.Closed := by
  obtain ⟨left, hu⟩ := h.users
  cases step_stepped hs with
  | worker | finish => exact Or.inl ⟨⟨left, hu⟩, h.queue⟩
  | take lt point queue => cases queue.symm.trans h.queue
  | refuse | addThread | removeThread | enter => exact ha.elim
  | read users | push users | notify users | remove users => cases hu.symm.trans users
  | write users hw =>
    cases hu.symm.trans users
    cases hw
  | drained users | endWorker users => cases hu.symm.trans users
  | signal users =>
    cases hu.symm.trans users
    exact Or.inl ⟨⟨_, rfl⟩, h.queue⟩
  | close users =>
    cases hu.symm.trans users
    -- `shutdown` still shares the lock on the queue
    have hnone : ∀ i < s.size, (s.workers i).point ≠ .waiting := by
      intro i hlt hp
      refine hi.unlocked c [] hu i hlt ?_
      rw [hp]
      trivial
    obtain ⟨hends, hsize, hworkers⟩ := close_ended hi rfl hu
    refine Or.inr ⟨⟨hends, ?_, ?_⟩, rfl, rfl, h.queue⟩
    · rw [hsize]
      exact fun i hlt => (hworkers i hlt).1
    · rw [hsize]
      exact fun i hlt => ⟨fun hp => hnone i hlt ((hworkers i hlt).2.2.mp hp), (hworkers i hlt).2.1⟩

theorem Closed.step (h : s.Closed) (hi : s.Inv) (ha : Internal a) (hs : s.step a = some s') : s'.Closed := by
  have hstep := h.ended.ends.step hi ha hs
  have hended := h.ended.step hstep
  cases hstep with
  | worker | finish => exact ⟨hended, h.users, h.status, h.queue⟩
  | take lt point queue => cases queue.symm.trans h.queue
  | join ends old =>
    obtain ⟨w, hw⟩ := old
    cases h.users.symm.trans hw

/-- All tasks are finished, and all threads have returned. -/
structure Completed (s : ThreadPool m τ) : Prop where
  status : s.status = .terminated
  users : s.users = .shared (fun _ => .idle) none
  queue : s.taskQueue = []
  workers : ∀ i < s.size, (s.workers i).point = .returned
  finished : s.finished.Perm s.accepted

theorem Closed.completed (h : s.Closed) (hq : s.Quiet) (haccount : s.Account) : s.Completed := by
  have hgone := h.ended.gone hq
  refine ⟨h.status, h.users, h.queue, hgone.1, ?_⟩
  rw [haccount.queue, h.queue, List.append_nil]
  exact haccount.finished_perm fun i hi => by rw [hgone.1 i hi]; rfl

/-- No worker comes back to the queue, which is not empty. -/
structure Stranded (c : Fin m) (s : ThreadPool m τ) : Prop where
  users : ∃ asleep, s.users = .exclusive c (.draining asleep)
  queue : s.taskQueue ≠ []
  idle : ∀ i < s.size, ¬(s.workers i).point.Helps

theorem Stranded.step {c : Fin m} (h : s.Stranded c) (hi : s.Inv) (ha : Internal a) (hs : s.step a = some s') :
    s'.Stranded c := by
  obtain ⟨asleep, hu⟩ := h.users
  have hlive := hi.draining_live hu
  cases step_stepped hs with
  | @worker a i w lt hw =>
    refine ⟨⟨asleep, hu⟩, h.queue, ?_⟩
    exact forall_setWorker (p := fun j w => j < s.size → ¬w.point.Helps)
      (fun hlt => hw.idles ha (hlive i hlt) (h.idle i hlt)) fun j _ => h.idle j
  | @take i task rest lt point => exact absurd (by rw [point]; trivial) (h.idle i lt)
  | @finish i task lt point => exact absurd (by rw [point]; trivial) (h.idle i lt)
  | refuse | addThread | removeThread | enter => exact ha.elim
  | read users | push users | notify users | remove users => cases hu.symm.trans users
  | write users hw =>
    cases hu.symm.trans users
    cases hw with
    | drain => exact ⟨⟨true, rfl⟩, h.queue, h.idle⟩
    | spurious => exact ha.elim
  | drained users unlocked queue => exact absurd queue h.queue
  | signal users | close users | endWorker users => cases hu.symm.trans users

/-- `shutdown` returns, with all tasks finished and all threads gone, if a worker will come back to the queue or
nothing is in it. If all workers sleep, or were paused between an empty queue and their wait, then it hangs with
the tasks in the queue, whatever the order in which the threads go on. -/
theorem shutdown_iff (n max : Nat) (as : List (ThreadPoolAct m τ)) {c : Fin m} {asleep : Bool}
    (hu : (exec step (start m τ n max) as).users = .exclusive c (.draining asleep)) :
    Settles step Internal Completed (exec step (start m τ n max) as) ↔
      (exec step (start m τ n max) as).taskQueue = [] ∨
        ∃ i < (exec step (start m τ n max) as).size, ((exec step (start m τ n max) as).workers i).point.Helps := by
  have hi := exec_inv (m := m) (τ := τ) n max as
  have hh := exec_heard (m := m) (τ := τ) n max as
  have haccount := exec_account (m := m) (τ := τ) n max as
  generalize exec step (start m τ n max) as = s at hu hi hh haccount ⊢
  constructor
  · intro hs
    by_contra hnot
    obtain ⟨hqueue, hidle⟩ := not_or.mp hnot
    have hstranded : s.Stranded c := ⟨⟨asleep, hu⟩, hqueue, fun i hlt hp => hidle ⟨i, hlt, hp⟩⟩
    refine Settles.not_of_invariant (fun s => s.Inv ∧ s.Stranded c) ?_ ?_ ⟨hi, hstranded⟩ hs
    · exact fun s a s' h ha hs => ⟨h.1.step hs, h.2.step h.1 ha hs⟩
    · exact fun s h hdone => h.2.queue hdone.queue
  · intro hhelped
    refine settles (J := fun s => s.Account ∧ (s.Draining c ∨ s.Telling c ∨ s.Closed)) ?_ ?_ hi hh
      ⟨haccount, Or.inl ⟨⟨asleep, hu⟩, hhelped⟩⟩
    · rintro s a s' hi ⟨haccount, hj⟩ ha hs
      refine ⟨haccount.step hi hs, ?_⟩
      rcases hj with hj | hj | hj
      · exact (hj.step hi ha hs).imp_right Or.inl
      · exact Or.inr (hj.step hi ha hs)
      · exact Or.inr (Or.inr (hj.step hi ha hs))
    · rintro s hi hq ⟨haccount, hj | hj | hj⟩
      · exact (hj.not_quiet hi hq).elim
      · obtain ⟨left, hu⟩ := hj.users
        rcases hq.writer c _ hu with ⟨hw, _⟩ | ⟨_, _, hw, _⟩ | hw <;> cases hw
      · exact hj.completed hq haccount

/-- The only worker is paused after it has found the queue empty, and resumed. Then comes a task. -/
def pausedBeforeWait : List (ThreadPoolAct 1 Nat) :=
  [.check 0, .lock 0, .test 0, .call caller .pause, .write, .write, .check 0, .call caller .resume, .write, .write,
    .call caller (.submit 7), .count caller, .push caller, .notifyOne caller none, .call caller .shutdown]

theorem shutdown_iff_pausedBeforeWait :
    let s := exec step (start 1 Nat 1 0) pausedBeforeWait
    s.taskQueue = [7] ∧ ¬Settles step Internal Completed s := by
  refine ⟨rfl, fun h => ?_⟩
  rcases (shutdown_iff 1 0 pausedBeforeWait rfl).mp h with hqueue | ⟨i, hi, hp⟩
  · exact absurd hqueue (by decide)
  · have hone : i < 1 := hi
    obtain rfl : i = 0 := by omega
    exact hp

end ThreadPool

end KVStorage

import KVStorage.PoolPause
import KVStorage.PoolShutdown

/-!
# Whether the tasks of the request pool are served

A pool that is never paused and never loses a worker finishes every task. A thread that
waits for the tasks of a paused pool gets them only as far as workers still take some.
-/

namespace KVStorage

set_option autoImplicit false

open Runs

universe u

namespace ThreadPool

variable {m : Nat} {τ : Type u} {s s' s₀ : ThreadPool m τ} {a : ThreadPoolAct m τ}

/-! ## Waiting for a paused pool -/

theorem Quiet.about (h : s.Quiet) : s.about = 0 := by
  have hnone : ∀ i ∈ Finset.range s.size, (s.workers i).point.about = 0 := by
    intro i hi
    rcases h.worker i (Finset.mem_range.mp hi) with hp | hp | ⟨⟨c, hp⟩, _⟩ <;> rw [hp] <;> rfl
  exact Finset.sum_eq_zero hnone

/-- The pool is paused, and nobody but callers that wait is inside it. -/
structure Pausing (s₀ s : ThreadPool m τ) : Prop where
  halted : s.Halted
  since : ∃ taken, Since s₀ s taken
  users : ∃ readers, s.users = .shared readers none

theorem Pausing.step (h : Pausing s₀ s) (hi : s.Inv) (ha : Internal a) (hs : s.step a = some s') : Pausing s₀ s' := by
  obtain ⟨taken, hsince⟩ := h.since
  obtain ⟨readers, hu⟩ := h.users
  have hheld : s.Held a := by
    cases a with
    | call | wakeSpurious | drainSpurious | writeSpurious => exact ha.elim
    | check | acquire | lock | test | sleep | finish | count | push | notifyOne | drain | write | remove => trivial
  obtain ⟨hhalted, hstep⟩ := h.halted.step hi hheld hs
  refine ⟨hhalted, hsince.step hstep, ?_⟩
  cases step_stepped hs with
  | worker | finish | refuse => exact ⟨readers, hu⟩
  | @take i task rest =>
    dsimp only
    rw [hu]
    split
    · exact ⟨_, rfl⟩
    · exact ⟨readers, rfl⟩
  | read users | push users | notify users =>
    cases hu.symm.trans users
    exact ⟨_, rfl⟩
  | addThread | removeThread | enter => exact ha.elim
  | write users | drained users | signal users | close users | endWorker users | remove users =>
    cases hu.symm.trans users

/-- `wait` on a paused pool returns if each task in the queue has a worker that is about to look for one. If there
are more tasks, it never returns, and as it shares `status_mutex` the pool stays paused for good, whoever calls
whatever. -/
theorem wait_paused (n max : Nat) (as : List (ThreadPoolAct m τ)) {readers : Fin m → Reader τ}
    {removal : Option (Fin m × Nat × Removal)} {c : Fin m} {asleep : Bool}
    (hu : (exec step (start m τ n max) as).users = .shared readers removal) (hc : readers c = .waiting asleep)
    (hs : (exec step (start m τ n max) as).status = .paused) :
    let s := exec step (start m τ n max) as
    (s.taskQueue.length ≤ s.about →
        Settles step Internal (fun s => ∃ readers, s.users = .shared readers none ∧ readers c = .idle) s) ∧
      (s.about < s.taskQueue.length → ∀ bs, (exec step s bs).Waits c ∧ (exec step s bs).status = .paused) := by
  intro s
  have hi : s.Inv := exec_inv n max as
  have hwaits : s.Waits c := ⟨readers, removal, asleep, hu, hc⟩
  have hblocked := Blocked.start hi hwaits hs
  constructor
  · intro hle
    have hnone : removal = none := by
      have hphase := hi.phase
      rw [hu] at hphase
      cases hphase with
      | serving => rfl
      | removing running => cases running.symm.trans hs
    have hpausing : Pausing s s := ⟨hblocked.halted, hblocked.since, readers, hnone ▸ hu⟩
    refine settles (J := Pausing s) (fun _ _ _ hi hj ha hs => hj.step hi ha hs) ?_ hi (exec_heard n max as) hpausing
    intro t hi hq hj
    obtain ⟨taken, hsince⟩ := hj.since
    obtain ⟨readers, hu⟩ := hj.users
    have hempty : t.taskQueue = [] := by
      by_contra hne
      have heq := hsince.eq hne
      have hlength := congrArg List.length hsince.queue
      rw [List.length_append] at hlength
      have hpos := List.length_pos_iff.mpr hne
      rw [hq.about] at heq
      omega
    refine ⟨readers, hu, ?_⟩
    rcases hq.reader readers none hu c with hidle | ⟨_, hne⟩ | hremoving
    · exact hidle
    · exact absurd hempty hne
    · have hphase := hi.phase
      rw [hu] at hphase
      cases hphase with
      | serving stable fits free => exact absurd hremoving (free c)
  · intro hlt bs
    have hend : Blocked s c (exec step s bs) := exec_always (fun _ _ _ h hs => Blocked.step h hlt hs) bs hblocked
    exact ⟨hend.waits, hend.status⟩

/-- A pool is paused with one task, and its caller waits. -/
def pausedWait : List (ThreadPoolAct 1 Nat) :=
  [.call caller (.submit 7), .count caller, .push caller, .notifyOne caller none, .call caller .pause, .write,
    .write, .call caller .wait]

theorem wait_paused_pausedWait :
    let s := exec step (start 1 Nat 1 0) pausedWait
    ∀ bs, (exec step s bs).Waits caller ∧ (exec step s bs).status = .paused :=
  (wait_paused 1 0 pausedWait (c := caller) rfl rfl rfl).2 (by decide)

/-! ## Without a pause -/

/-- The pool is not paused, and no worker is removed. -/
def Steady (_ : ThreadPool m τ) : ThreadPoolAct m τ → Prop
  | .call _ .pause | .call _ (.removeThread _) => False
  | _ => True

/-- A worker that was never paused looks at the queue under the lock with which it goes to sleep. -/
def WorkerPoint.Alert (queue : List τ) : WorkerPoint τ → Prop
  | .lock .before | .acquire _ => False
  | .check .before | .waiting => queue = []
  | _ => True

structure Alert (queue : List τ) (w : WorkerThread τ) : Prop where
  status : w.status ≠ .paused
  point : WorkerPoint.Alert queue w.point

theorem Alert.keeps {queue : List τ} {w w' : WorkerThread τ} (h : Alert queue w) (hk : w.status.Keeps w'.status)
    (hp : WorkerPoint.Alert queue w'.point) : Alert queue w' := by
  refine ⟨fun hs => ?_, hp⟩
  rcases WorkerThread.status_cases w.status with hl | hpaused | he
  · exact (hk.live hl).ne_paused hs
  · exact h.status hpaused
  · rcases hk.ended he with he | he <;> cases he.symm.trans hs

theorem Alert.step {i : Nat} {w : WorkerThread τ} (h : Alert s.taskQueue (s.workers i)) (hw : WorkerStep s i a w) :
    Alert s.taskQueue w := by
  have hpoint := h.point
  refine h.keeps hw.moved.keeps ?_
  cases hw with
  | @check c point =>
    rw [point] at hpoint
    rcases WorkerThread.status_cases (s.workers i).status with hl | hs | he
    · cases c with
      | outer =>
        rcases hl with hl | hl <;> simp only [WorkerThread.check, WorkerThread.checkOuter, hl] <;> trivial
      | before =>
        rw [WorkerThread.check_before hl]
        exact hpoint
      | after =>
        rw [WorkerThread.check_after hl]
        trivial
    · exact absurd hs h.status
    · rw [WorkerThread.check_ended he]
      trivial
  | @acquire c point =>
    rw [point] at hpoint
    exact hpoint.elim
  | @lock c point =>
    rw [point] at hpoint
    cases c with
    | outer | after => trivial
    | before => exact hpoint.elim
  | empty point queue => exact queue
  | sleep | wake => trivial

/-- A worker that is not asleep comes back to the queue by itself when there is something in it. -/
theorem Alert.helps {w : WorkerThread τ} {queue : List τ} (h : Alert queue w) (hw : w.Sound) (hl : w.status.Live)
    (hqueue : queue ≠ []) (hp : w.point ≠ .asleep) : w.point.Helps := by
  have hpoint := h.point
  cases hw' : w.point with
  | check c =>
    rw [hw'] at hpoint
    cases c with
    | outer | after => trivial
    | before => exact absurd hpoint hqueue
  | acquire c =>
    rw [hw'] at hpoint
    exact hpoint.elim
  | lock c =>
    rw [hw'] at hpoint
    cases c with
    | outer | after => trivial
    | before => exact hpoint.elim
  | test | running => trivial
  | waiting =>
    rw [hw'] at hpoint
    exact absurd hpoint hqueue
  | asleep => exact absurd hw' hp
  | returned => exact absurd (Or.inr (hw.returned.mpr hw')) hl.not_ended
  | threw => exact absurd hw' hw.threw

/-- A worker without the lock is not on its way to the wait, and none is when the queue is not empty. -/
theorem Alert.queue {queue queue' : List τ} {w : WorkerThread τ} (h : Alert queue w)
    (hfar : queue ≠ [] ∨ ¬w.point.Locks) : Alert queue' w := by
  have hpoint := h.point
  have hnot : (WorkerPoint.Alert queue w.point → queue = []) → ¬w.point.Locks := fun hempty =>
    hfar.resolve_left fun hqueue => hqueue (hempty hpoint)
  refine ⟨h.status, ?_⟩
  cases hw : w.point with
  | check c =>
    rw [hw] at hnot
    cases c with
    | outer | after => trivial
    | before => exact absurd trivial (hnot id)
  | waiting =>
    rw [hw] at hnot
    exact absurd trivial (hnot id)
  | lock c =>
    rw [hw] at hpoint
    cases c with
    | outer | after => trivial
    | before => exact hpoint.elim
  | acquire c =>
    rw [hw] at hpoint
    exact hpoint.elim
  | test | asleep | running | returned | threw => trivial

theorem Alert.wake {queue : List τ} {w : WorkerThread τ} (h : Alert queue w) : Alert queue w.wake := by
  rcases w.wake_cases with hw | ⟨_, hw⟩ <;> rw [hw]
  · exact h
  · exact ⟨h.status, trivial⟩

/-- A caller has pushed a task and is about to wake a worker. -/
def Notifying (s : ThreadPool m τ) : Prop :=
  ∃ readers removal c, s.users = .shared readers removal ∧ readers c = .notifying

/-- While the pool serves its tasks, some worker comes back to the queue by itself, or is woken next. -/
structure Served (s : ThreadPool m τ) : Prop where
  staffed : 0 < s.size
  status : s.status ≠ .paused
  alone : ∀ readers removal, s.users = .shared readers removal → removal = none
  sweep : ∀ c sweep left, s.users = .exclusive c (.signalling sweep left) → sweep.status = .terminating
  alert : ∀ i < s.size, Alert s.taskQueue (s.workers i)
  helped : s.taskQueue ≠ [] → s.status = .running ∨ s.status = .shutdown → s.Helped ∨ s.Notifying

theorem start_served {n : Nat} (hn : 0 < n) (max : Nat) : (start m τ n max).Served where
  staffed := hn
  status := nofun
  alone _ _ hu := by cases hu; rfl
  sweep _ _ _ hu := nomatch hu
  alert _ _ := ⟨nofun, trivial⟩
  helped hq := absurd rfl hq

theorem Served.live (h : s.Served) (hi : s.Inv) (hs : s.status = .running ∨ s.status = .shutdown) :
    ∀ i < s.size, (s.workers i).status.Live := by
  have hphase := hi.phase
  cases hu : s.users with
  | shared readers removal =>
    obtain rfl := h.alone readers removal hu
    rw [hu] at hphase
    cases hphase with
    | serving stable fits free workers =>
      rcases hs with hs | hs <;> simpa [hs, PoolStatus.Suits] using workers
  | exclusive c w =>
    rw [hu] at hphase
    cases hphase with
    | @signalling _ sweep left status =>
      have hsweep := h.sweep c sweep left hu
      rcases hs with hs | hs <;> cases (hs.symm.trans status).trans hsweep
    | draining status workers => exact workers
    | closing toJoin status => rcases hs with hs | hs <;> cases hs.symm.trans status

/-- Only the threads inside `status_mutex` and the status change. -/
theorem Served.inside (h : s.Served) (hworkers : s'.workers = s.workers) (hsize : s'.size = s.size)
    (hqueue : s'.taskQueue = s.taskQueue) (status : s'.status ≠ .paused)
    (alone : ∀ readers removal, s'.users = .shared readers removal → removal = none)
    (sweep : ∀ c sweep left, s'.users = .exclusive c (.signalling sweep left) → sweep.status = .terminating)
    (helped : s.taskQueue ≠ [] → s'.status = .running ∨ s'.status = .shutdown → s.Helped ∨ s'.Notifying) :
    s'.Served where
  staffed := hsize ▸ h.staffed
  status := status
  alone := alone
  sweep := sweep
  alert i hlt := by
    rw [hqueue, hworkers]
    exact h.alert i (hsize ▸ hlt)
  helped hq hs := by
    refine (helped (hqueue ▸ hq) hs).imp_left ?_
    rintro ⟨i, hlt, hp⟩
    exact ⟨i, hsize ▸ hlt, hworkers ▸ hp⟩

theorem Served.worker (h : s.Served) (hi : s.Inv) {i : Nat} {w : WorkerThread τ} (lt : i < s.size)
    (hw : WorkerStep s i a w) : (s.setWorker i w).Served where
  staffed := h.staffed
  status := h.status
  alone := h.alone
  sweep := h.sweep
  alert := forall_setWorker (p := fun j w => j < s.size → Alert s.taskQueue w) (fun hlt => (h.alert i hlt).step hw)
    fun j _ => h.alert j
  helped hq hs := by
    rcases h.helped hq hs with hhelped | hnotifying
    · have hnext := helped_setWorker hhelped (hw.helps (hi.sound i) (h.live hi hs i lt))
      exact Or.inl (hnext.resolve_right hq)
    · exact Or.inr hnotifying

theorem Served.take (h : s.Served) {i : Nat} {task : τ} {rest : List τ} (lt : i < s.size)
    (queue : s.taskQueue = task :: rest) :
    Served { s.setWorker i { s.workers i with point := .running task } with
      taskQueue := rest
      users := if rest.isEmpty then s.users.wake else s.users
      started := s.started ++ [task] } where
  staffed := h.staffed
  status := h.status
  alone readers removal hu := by
    dsimp only at hu
    split at hu
    · cases hold : s.users with
      | shared readers' removal' =>
        rw [hold] at hu
        cases hu
        exact h.alone _ _ hold
      | exclusive c w =>
        rw [hold] at hu
        cases hu
    · exact h.alone _ _ hu
  sweep c sweep left hu := by
    dsimp only at hu
    split at hu
    · exact h.sweep c sweep left (Users.wake_signalling hu)
    · exact h.sweep c sweep left hu
  alert := by
    refine forall_setWorker (p := fun j w => j < s.size → Alert rest w) ?_ ?_
    · exact fun hlt => ⟨(h.alert i hlt).status, trivial⟩
    · exact fun j _ hlt => (h.alert j hlt).queue (Or.inl (by simp [queue]))
  helped _ _ := by
    refine Or.inl ⟨i, lt, ?_⟩
    dsimp only
    rw [setWorker_self]
    trivial

theorem Served.finish (h : s.Served) {i : Nat} {task : τ} (lt : i < s.size) :
    Served { s.setWorker i { s.workers i with point := .check .outer } with finished := s.finished ++ [task] } where
  staffed := h.staffed
  status := h.status
  alone := h.alone
  sweep := h.sweep
  alert := by
    refine forall_setWorker (p := fun j w => j < s.size → Alert s.taskQueue w) ?_ fun j _ => h.alert j
    exact fun hlt => ⟨(h.alert i hlt).status, trivial⟩
  helped _ _ := by
    refine Or.inl ⟨i, lt, ?_⟩
    dsimp only
    rw [setWorker_self]
    trivial

theorem Served.read (h : s.Served) {c : Fin m} {readers : Fin m → Reader τ}
    {removal : Option (Fin m × Nat × Removal)} {old new : Reader τ} (hu : s.users = .shared readers removal)
    (old_eq : readers c = old) (hr : ReaderStep s a old new) : (s.setReader readers removal c new).Served := by
  refine h.inside rfl rfl rfl h.status ?_ (fun _ _ _ he => nomatch he) ?_
  · intro readers' removal' he
    cases he
    exact h.alone _ _ hu
  · intro hq hs
    rcases h.helped hq hs with hhelped | ⟨readers', removal', d, hu', hd⟩
    · exact Or.inl hhelped
    · cases hu.symm.trans hu'
      have hne : d ≠ c := by
        rintro rfl
        rw [hd] at old_eq
        subst old_eq
        cases hr
      exact Or.inr ⟨_, removal, d, rfl, by rw [Function.update_of_ne hne, hd]⟩

theorem Served.push (h : s.Served) {c : Fin m} {readers : Fin m → Reader τ}
    {removal : Option (Fin m × Nat × Removal)} {task : τ} (hu : s.users = .shared readers removal)
    (free : s.QueueFree) :
    Served { s.setReader readers removal c .notifying with
      taskQueue := s.taskQueue ++ [task]
      accepted := s.accepted ++ [task] } where
  staffed := h.staffed
  status := h.status
  alone readers' removal' he := by
    cases he
    exact h.alone _ _ hu
  sweep _ _ _ he := nomatch he
  alert i hlt := (h.alert i hlt).queue (Or.inr (free.1 i hlt))
  helped _ _ := Or.inr ⟨_, removal, c, rfl, Function.update_self _ _ _⟩

theorem Served.notify (h : s.Served) (hi : s.Inv) {c : Fin m} {sleeper : Option Nat} {readers : Fin m → Reader τ}
    {removal : Option (Fin m × Nat × Removal)} (hu : s.users = .shared readers removal) (wakes : s.Wakes sleeper) :
    ((s.wake sleeper).setReader readers removal c .idle).Served := by
  have halone : ∀ readers' removal', Users.shared (Function.update readers c .idle) removal = .shared readers' removal' →
      removal' = none := by
    intro readers' removal' he
    cases he
    exact h.alone _ _ hu
  cases sleeper with
  | none =>
    refine h.inside rfl rfl rfl h.status halone (fun _ _ _ he => nomatch he) fun hq hs => Or.inl ?_
    -- nobody sleeps, so that each worker comes back
    exact ⟨0, h.staffed, (h.alert 0 h.staffed).helps (hi.sound 0) (h.live hi hs 0 h.staffed) hq (wakes 0 h.staffed)⟩
  | some i =>
    refine ⟨h.staffed, h.status, halone, (fun _ _ _ he => nomatch he), ?_, fun _ _ => Or.inl ⟨i, wakes.1, ?_⟩⟩
    · exact forall_setWorker (p := fun j w => j < s.size → Alert s.taskQueue w) (fun hlt => (h.alert i hlt).wake)
        fun j _ => h.alert j
    · change ((s.setWorker i (s.workers i).wake).workers i).point.Helps
      rw [setWorker_self, WorkerThread.wake, if_pos wakes.2]
      trivial

theorem Served.addThread (h : s.Served) (count : Nat) :
    Served { s with workers := fun i => if s.size ≤ i then .start else s.workers i, size := s.size + count } where
  staffed := Nat.add_pos_left h.staffed count
  status := h.status
  alone := h.alone
  sweep := h.sweep
  alert i hlt := by
    dsimp only at hlt ⊢
    split
    · exact ⟨nofun, trivial⟩
    · exact h.alert i (by omega)
  helped hq hs := by
    refine (h.helped hq hs).imp_left ?_
    rintro ⟨i, hlt, hp⟩
    refine ⟨i, Nat.lt_of_lt_of_le hlt (Nat.le_add_right _ _), ?_⟩
    dsimp only
    rwa [if_neg (Nat.not_le_of_lt hlt)]

/-- What a call goes on with that owns the mutex, when the pool is not paused and will not be. -/
theorem steady_entry {call : PoolCall τ} {size : Nat} {status st : PoolStatus} {w : Writer}
    (he : call.entry size status = some (st, w)) (hstatus : status = .running ∨ status = .terminated)
    (hcall : call ≠ .pause) :
    (∃ sweep, w = .signalling sweep (List.range size) ∧ sweep.status = .terminating ∧ st = .terminating) ∨
      w = .draining false ∧ st = .shutdown ∧ status = .running ∨ w = .ending (List.range size) ∧ st = .terminated := by
  rcases hstatus with rfl | rfl <;> cases call <;>
    simp only [PoolCall.entry, reduceCtorEq, Option.some.injEq, Prod.mk.injEq] at he <;> obtain ⟨rfl, rfl⟩ := he
  case inl.pause => exact absurd rfl hcall
  case inl.shutdown => exact Or.inr (Or.inl ⟨rfl, rfl, rfl⟩)
  case inl.terminate => exact Or.inl ⟨.terminate, rfl, rfl, rfl⟩
  case inl.destroy => exact Or.inl ⟨.destroy, rfl, rfl, rfl⟩
  case inr.destroy => exact Or.inr (Or.inr ⟨rfl, rfl⟩)

theorem Served.enter (h : s.Served) (hi : s.Inv) {c : Fin m} {call : PoolCall τ} {status : PoolStatus}
    {writer : Writer} {readers : Fin m → Reader τ} (hu : s.users = .shared readers none)
    (alone : ∀ d, readers d = .idle) (entry : call.entry s.size s.status = some (status, writer))
    (ha : s.Steady (.call c call)) : Served { s with status := status, users := .exclusive c writer } := by
  have hstatus : s.status = .running ∨ s.status = .terminated := by
    have hphase := hi.phase
    rw [hu] at hphase
    cases hphase with
    | serving stable =>
      rcases stable with hs | hs | hs
      · exact Or.inl hs
      · exact absurd hs h.status
      · exact Or.inr hs
  have hcall : call ≠ .pause := by
    rintro rfl
    exact ha
  rcases steady_entry entry hstatus hcall with ⟨sweep, rfl, hsweep, rfl⟩ | ⟨rfl, rfl, hrunning⟩ | ⟨rfl, rfl⟩
  · refine h.inside rfl rfl rfl nofun (fun _ _ he => nomatch he) ?_ (fun _ hs => by rcases hs with hs | hs <;> cases hs)
    intro c sweep left he
    cases he
    exact hsweep
  · refine h.inside rfl rfl rfl nofun (fun _ _ he => nomatch he) (fun _ _ _ he => nomatch he) fun hq _ => Or.inl ?_
    refine (h.helped hq (Or.inl hrunning)).resolve_right ?_
    rintro ⟨readers', removal, d, hu', hd⟩
    cases hu.symm.trans hu'
    cases hd.symm.trans (alone d)
  · exact h.inside rfl rfl rfl nofun (fun _ _ he => nomatch he) (fun _ _ _ he => nomatch he)
      (fun _ hs => by rcases hs with hs | hs <;> cases hs)

theorem Served.signal (h : s.Served) (hi : s.Inv) {c : Fin m} {sweep : Sweep} {i : Nat} {left : List Nat}
    (hu : s.users = .exclusive c (.signalling sweep (i :: left))) :
    Served { s.setWorker i (sweep.signal (s.workers i)) with users := .exclusive c (.signalling sweep left) } := by
  have hsweep := h.sweep c sweep _ hu
  have hphase := hi.phase
  rw [hu] at hphase
  cases hphase with
  | closing toJoin => cases toJoin
  | signalling status within nodup before =>
    refine ⟨h.staffed, h.status, (fun _ _ he => nomatch he), ?_, ?_, ?_⟩
    · intro c sweep left he
      cases he
      exact hsweep
    · refine forall_setWorker (p := fun j w => j < s.size → Alert s.taskQueue w) (fun hlt => ?_) fun j _ => h.alert j
      have hpoint := (WorkerThread.signal_signalled sweep (s.workers i)).point
      refine ⟨fun hp => ?_, hpoint.symm ▸ (h.alert i hlt).point⟩
      have hafter := WorkerThread.signal_after (before i List.mem_cons_self)
      cases sweep with
      | pause | resume | resumeToShutdown => cases hsweep
      | terminate | shutdown | destroy => rcases hafter with he | he <;> cases he.symm.trans hp
    · rintro _ (hs | hs) <;> cases (hs.symm.trans status).trans hsweep

theorem Served.close (h : s.Served) {c : Fin m} {sweep : Sweep}
    (hu : s.users = .exclusive c (.signalling sweep [])) : (s.close c sweep).Served := by
  have hsweep := h.sweep c sweep _ hu
  have halert : ∀ i < s.size, Alert s.taskQueue (s.wakeAll.workers i) := fun i hlt => (h.alert i hlt).wake
  cases sweep with
  | pause | resume | resumeToShutdown => cases hsweep
  | terminate | shutdown =>
    refine ⟨h.staffed, nofun, ?_, (fun _ _ _ he => nomatch he), halert, ?_⟩
    · intro readers removal he
      cases he
      rfl
    · rintro _ (hs | hs) <;> cases hs
  | destroy =>
    refine ⟨h.staffed, nofun, (fun _ _ he => nomatch he), (fun _ _ _ he => nomatch he), halert, ?_⟩
    rintro _ (hs | hs) <;> cases hs

theorem Served.write (h : s.Served) {c : Fin m} {old new : Writer} (hu : s.users = .exclusive c old)
    (hw : WriterStep s a old new) : Served { s with users := .exclusive c new } := by
  refine h.inside rfl rfl rfl h.status (fun _ _ he => nomatch he) ?_ fun hq hs => Or.inl ?_
  · intro d sweep left he
    cases he
    cases hw
  · refine (h.helped hq hs).resolve_right ?_
    rintro ⟨readers, removal, d, hu', _⟩
    cases hu.symm.trans hu'

theorem Served.step (h : s.Served) (hi : s.Inv) (ha : s.Steady a) (hs : s.step a = some s') : s'.Served := by
  cases step_stepped hs with
  | worker lt hw => exact h.worker hi lt hw
  | take lt point queue => exact h.take lt queue
  | finish lt => exact h.finish lt
  | refuse => exact h
  | read users old_eq hr => exact h.read users old_eq hr
  | push users old free => exact h.push users free
  | notify users old wakes => exact h.notify hi users wakes
  | addThread => exact h.addThread _
  | removeThread => exact ha.elim
  | enter users alone entry => exact h.enter hi users alone entry ha
  | write users hw => exact h.write users hw
  | drained users =>
    refine h.inside rfl rfl rfl nofun (fun _ _ he => nomatch he) ?_ (fun _ hs => by rcases hs with hs | hs <;> cases hs)
    intro c sweep left he
    cases he
    rfl
  | signal users => exact h.signal hi users
  | close users => exact h.close users
  | endWorker users =>
    rw [(hi.endWorker users).1]
    refine h.inside rfl rfl rfl h.status (fun _ _ he => nomatch he) (fun _ _ _ he => nomatch he) fun hq hs => Or.inl ?_
    refine (h.helped hq hs).resolve_right ?_
    rintro ⟨readers, removal, d, hu', _⟩
    cases users.symm.trans hu'
  | remove users => cases h.alone _ _ users

theorem exec_served {n : Nat} (hn : 0 < n) (max : Nat) (as : List (ThreadPoolAct m τ))
    (has : Along step Steady (start m τ n max) as) : (exec step (start m τ n max) as).Served := by
  have hboth : ∀ s a s', (s.Inv ∧ s.Served) → s.Steady a → step s a = some s' → s'.Inv ∧ s'.Served :=
    fun (s : ThreadPool m τ) a s' h ha hs => ⟨h.1.step hs, h.2.step h.1 ha hs⟩
  exact (exec_invariant hboth as ⟨start_inv n max, start_served hn max⟩ has).2

theorem Internal.steady (ha : Internal a) : s.Steady a := by
  cases a with
  | call => exact ha.elim
  | check | acquire | lock | test | sleep | finish | count | push | notifyOne | drain | write | remove | wakeSpurious
  | drainSpurious | writeSpurious => trivial

/-- The pool takes tasks, and no call owns it. -/
structure Serving (s : ThreadPool m τ) : Prop where
  served : s.Served
  account : s.Account
  users : ∃ readers, s.users = .shared readers none
  status : s.status = .running

theorem Serving.step (h : s.Serving) (hi : s.Inv) (ha : Internal a) (hs : s.step a = some s') : s'.Serving := by
  obtain ⟨readers, hu⟩ := h.users
  have hserved := h.served.step hi ha.steady hs
  have haccount := h.account.step hi hs
  cases step_stepped hs with
  | worker | finish | refuse => exact ⟨hserved, haccount, ⟨readers, hu⟩, h.status⟩
  | @take i task rest =>
    refine ⟨hserved, haccount, ?_, h.status⟩
    dsimp only
    rw [hu]
    split
    · exact ⟨_, rfl⟩
    · exact ⟨readers, rfl⟩
  | read users | push users =>
    cases hu.symm.trans users
    exact ⟨hserved, haccount, ⟨_, rfl⟩, h.status⟩
  | @notify c sleeper readers removal users =>
    cases hu.symm.trans users
    exact ⟨hserved, haccount, ⟨_, rfl⟩, by cases sleeper <;> exact h.status⟩
  | addThread | removeThread | enter => exact ha.elim
  | write users | drained users | signal users | close users | endWorker users | remove users =>
    cases hu.symm.trans users

/-- All tasks are finished, and all callers have returned. -/
structure Idle (s : ThreadPool m τ) : Prop where
  queue : s.taskQueue = []
  finished : s.finished.Perm s.accepted
  users : s.users = .shared (fun _ => .idle) none

theorem Serving.idle (h : s.Serving) (hi : s.Inv) (hq : s.Quiet) : s.Idle := by
  obtain ⟨readers, hu⟩ := h.users
  have hready : ∀ c, readers c = .idle ∨ readers c = .waiting true ∧ s.taskQueue ≠ [] := by
    intro c
    have hphase := hi.phase
    rw [hu] at hphase
    cases hphase with
    | serving stable fits free =>
      rcases hq.reader readers none hu c with hidle | hwaiting | hremoving
      · exact Or.inl hidle
      · exact Or.inr hwaiting
      · exact absurd hremoving (free c)
  have hempty : s.taskQueue = [] := by
    by_contra hne
    rcases h.served.helped hne (Or.inl h.status) with ⟨i, hlt, hp⟩ | ⟨readers', removal, c, hu', hc⟩
    · rcases hq.worker i hlt with hr | ha | ⟨⟨c, hacquire⟩, _⟩
      · rw [hr] at hp
        exact hp
      · rw [ha] at hp
        exact hp
      · have hpoint := (h.served.alert i hlt).point
        rw [hacquire] at hpoint
        exact hpoint
    · cases hu.symm.trans hu'
      rcases hready c with hidle | ⟨hwaiting, _⟩
      · cases hc.symm.trans hidle
      · cases hc.symm.trans hwaiting
  refine ⟨hempty, ?_, ?_⟩
  · rw [h.account.queue, hempty, List.append_nil]
    apply h.account.finished_perm
    intro i hlt
    rcases hq.worker i hlt with hp | hp | ⟨⟨c, hp⟩, _⟩ <;> rw [hp] <;> rfl
  · rw [hu, show readers = fun _ => .idle from funext fun c => (hready c).resolve_right fun hw => hw.2 hempty]

/-- In a pool with a worker that is never paused and from which no worker is removed, every task that was accepted
is finished, whatever the interleaving: the pool comes to rest with all tasks finished and all calls returned, and
when `shutdown` has been called it returns, with all tasks finished and all threads gone. -/
theorem no_task_stranded (n max : Nat) (hn : 0 < n) (as : List (ThreadPoolAct m τ))
    (has : Along step Steady (start m τ n max) as) :
    let s := exec step (start m τ n max) as
    (∀ readers removal, s.users = .shared readers removal → s.status = .running → Settles step Internal Idle s) ∧
      ∀ c asleep, s.users = .exclusive c (.draining asleep) → Settles step Internal Completed s := by
  intro s
  have hi : s.Inv := exec_inv n max as
  have hserved : s.Served := exec_served hn max as has
  constructor
  · intro readers removal hu hs
    obtain rfl := hserved.alone readers removal hu
    exact settles (J := Serving) (fun _ _ _ hi hj ha hs => hj.step hi ha hs) (fun _ hi hq hj => hj.idle hi hq) hi
      (exec_heard n max as) ⟨hserved, exec_account n max as, ⟨readers, hu⟩, hs⟩
  · intro c asleep hu
    refine (shutdown_iff n max as hu).mpr ?_
    by_cases hq : s.taskQueue = []
    · exact Or.inl hq
    · have hstatus : s.status = .shutdown := by
        have hphase := hi.phase
        rw [hu] at hphase
        cases hphase with
        | draining status => exact status
        | closing toJoin => cases toJoin
      refine Or.inr ((hserved.helped hq (Or.inr hstatus)).resolve_right ?_)
      rintro ⟨readers, removal, d, hu', _⟩
      cases hu.symm.trans hu'

instance decidableSteady (s : ThreadPool m τ) : DecidablePred s.Steady
  | .call _ call => match call with
    | .pause | .removeThread _ => isFalse id
    | .submit _ | .resume | .shutdown | .terminate | .destroy | .wait | .addThread _ => isTrue trivial
  | .check _ | .acquire _ | .lock _ | .test _ | .sleep _ | .wakeSpurious _ | .finish _ | .count _ | .push _
  | .notifyOne _ _ | .drain _ | .drainSpurious _ | .write | .writeSpurious | .remove => isTrue trivial

/-- Two workers that sleep, and two tasks of which the second wakes nobody yet. -/
def twoTasks (c d : Fin 2) : List (ThreadPoolAct 2 Nat) :=
  [.check 0, .lock 0, .test 0, .check 0, .sleep 0, .check 1, .lock 1, .test 1, .check 1, .sleep 1,
    .call c (.submit 7), .count c, .push c, .notifyOne c (some 1), .call d (.submit 8), .count d, .push d]

theorem no_task_stranded_twoTasks : Settles step Internal Idle (exec step (start 2 Nat 2 0) (twoTasks 0 1)) :=
  (no_task_stranded 2 0 (by decide) (twoTasks 0 1) (by decide)).1 _ _ rfl rfl

end ThreadPool

end KVStorage

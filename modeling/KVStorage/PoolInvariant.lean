import KVStorage.ThreadPool

/-!
# What holds of the request pool at any time

The threads inside `status_mutex` determine the status of the pool and what the statuses
of the workers may be. At most one worker has the queue locked.
-/

namespace KVStorage

set_option autoImplicit false

open Runs

universe u

/-- Statuses of the same kind: live, paused or ended. -/
structure WorkerStatus.Keeps (old new : WorkerStatus) : Prop where
  live : old.Live → new.Live
  paused : old = .paused → new = .paused
  ended : old.Ended → new.Ended

theorem WorkerStatus.Keeps.refl (st : WorkerStatus) : st.Keeps st := ⟨id, id, id⟩

theorem WorkerStatus.Live.not_ended {st : WorkerStatus} (h : st.Live) : ¬st.Ended := by
  rcases h with rfl | rfl <;> decide

theorem WorkerStatus.Live.ne_paused {st : WorkerStatus} (h : st.Live) : st ≠ .paused := by
  rcases h with rfl | rfl <;> decide

theorem WorkerThread.Moved.keeps {τ : Type u} {w w' : WorkerThread τ} (h : w.Moved w') : w.status.Keeps w'.status :=
  ⟨h.status.1, h.status.2.1, h.status.2.2⟩

/-- The status of the workers in a status of the pool that other threads see. -/
def PoolStatus.Suits : PoolStatus → WorkerStatus → Prop
  | .running, st | .shutdown, st => st.Live
  | .paused, st => st = .paused
  | .terminated, st => st.Ended
  | .terminating, _ => True

theorem PoolStatus.Suits.keeps {st : PoolStatus} {old new : WorkerStatus} (h : st.Suits old) (hk : old.Keeps new) :
    st.Suits new := by
  cases st with
  | running | shutdown => exact hk.live h
  | paused => exact hk.paused h
  | terminated => exact hk.ended h
  | terminating => trivial

def Reader.Fits {τ : Type u} (status : PoolStatus) : Reader τ → Prop
  | .idle => True
  | .counting _ | .pushing _ | .notifying | .removing => status = .running
  | .waiting _ => status ≠ .terminated

namespace Reader

variable {τ : Type u}

theorem wake_fits {r : Reader τ} {status : PoolStatus} (h : r.Fits status) : r.wake.Fits status := by
  cases r <;> exact h

theorem wake_eq_removing (r : Reader τ) : r.wake = removing ↔ r = removing := by
  cases r <;> simp [wake]

end Reader

namespace Sweep

/-- The status of the pool during the sweep. -/
def status : Sweep → PoolStatus
  | .pause => .paused
  | .resume | .resumeToShutdown => .running
  | .terminate | .shutdown | .destroy => .terminating

def Before : Sweep → WorkerStatus → Prop
  | .pause, st | .shutdown, st => st.Live
  | .resume, st | .resumeToShutdown, st => st = .paused
  | .terminate, _ | .destroy, _ => True

def After : Sweep → WorkerStatus → Prop
  | .pause, st => st = .paused
  | .resume, st | .resumeToShutdown, st => st.Live
  | .terminate, st | .shutdown, st | .destroy, st => st.Ended

theorem Before.keeps {sweep : Sweep} {old new : WorkerStatus} (h : sweep.Before old) (hk : old.Keeps new) :
    sweep.Before new := by
  cases sweep with
  | pause | shutdown => exact hk.live h
  | resume | resumeToShutdown => exact hk.paused h
  | terminate | destroy => trivial

theorem After.keeps {sweep : Sweep} {old new : WorkerStatus} (h : sweep.After old) (hk : old.Keeps new) :
    sweep.After new := by
  cases sweep with
  | pause => exact hk.paused h
  | resume | resumeToShutdown => exact hk.live h
  | terminate | shutdown | destroy => exact hk.ended h

end Sweep

namespace WorkerThread

variable {τ : Type u}

theorem terminate_ended (w : WorkerThread τ) : w.terminate.status.Ended := by
  unfold terminate
  cases h : w.status <;> simp [WorkerStatus.Ended, h]

theorem signal_after {sweep : Sweep} {w : WorkerThread τ} (h : sweep.Before w.status) :
    sweep.After (sweep.signal w).status := by
  cases sweep with
  | pause =>
    rcases h with h | h <;> simp [Sweep.After, Sweep.signal, pause, h]
  | resume | resumeToShutdown =>
    simp only [Sweep.Before] at h
    simp [Sweep.After, Sweep.signal, resume, h, WorkerStatus.Live]
  | terminate | shutdown | destroy => exact w.terminate_ended

theorem signal_signalled (sweep : Sweep) (w : WorkerThread τ) : w.Signalled (sweep.signal w) := by
  cases sweep with
  | pause => exact w.pause_signalled
  | resume | resumeToShutdown => exact w.resume_signalled
  | terminate | shutdown | destroy => exact w.terminate_signalled

theorem wake_status (w : WorkerThread τ) : w.wake.status = w.status := by
  unfold wake
  split <;> rfl

theorem wake_cases (w : WorkerThread τ) :
    w.wake = w ∨ w.point = .asleep ∧ w.wake = { w with point := .lock .after } := by
  by_cases h : w.point = .asleep
  · exact Or.inr ⟨h, if_pos h⟩
  · exact Or.inl (if_neg h)

end WorkerThread

theorem Users.wake_signalling {m : Nat} {τ : Type u} {users : Users m τ} {c : Fin m} {sweep : Sweep} {left : List Nat}
    (h : users.wake = .exclusive c (.signalling sweep left)) : users = .exclusive c (.signalling sweep left) := by
  cases users with
  | shared => cases h
  | exclusive d w =>
    cases w with
    | draining => cases h
    | signalling | ending | joining | destroyed => exact h

/-- The workers still to be joined by the destructor. -/
def Writer.toJoin : Writer → Option (List Nat)
  | .ending left => some left
  | .joining (i :: left) => some (i :: left)
  | .destroyed => some []
  | .signalling _ _ | .draining _ | .joining [] => none

namespace Removal

/-- The workers still to be seen in this part of `remove_thread`. -/
def left : Removal → List Nat
  | .signalling left | .ending left | .joining left => left

/-- The worker has been told to terminate. -/
def Told : Removal → Nat → Prop
  | .signalling left, i => i ∉ left
  | .ending _, _ | .joining _, _ => True

/-- The worker has been joined. -/
def Joined : Removal → Nat → Prop
  | .signalling _, _ => False
  | .ending left, i | .joining left, i => i ∉ left

end Removal

namespace ThreadPool

variable {m : Nat} {τ : Type u}

/-- The statuses that go with the threads inside `status_mutex`. -/
inductive InPhase (s : ThreadPool m τ) : Users m τ → Prop where
  | serving {readers : Fin m → Reader τ}
      (stable : s.status = .running ∨ s.status = .paused ∨ s.status = .terminated)
      (fits : ∀ c, (readers c).Fits s.status) (free : ∀ c, readers c ≠ .removing)
      (workers : ∀ i < s.size, s.status.Suits (s.workers i).status) : InPhase s (.shared readers none)
  | removing {readers : Fin m → Reader τ} {c : Fin m} {keep : Nat} {removal : Removal}
      (running : s.status = .running) (one : ∀ d, readers d = .removing ↔ d = c) (keep_le : keep ≤ s.size)
      (within : ∀ i ∈ removal.left, keep ≤ i ∧ i < s.size) (nodup : removal.left.Nodup)
      (kept : ∀ i < keep, (s.workers i).status.Live)
      (told : ∀ i, keep ≤ i → i < s.size → removal.Told i → (s.workers i).status.Ended)
      (joined : ∀ i, keep ≤ i → i < s.size → removal.Joined i → (s.workers i).point = .returned)
      (ongoing : removal ≠ .joining []) :
      InPhase s (.shared readers (some (c, keep, removal)))
  | signalling {c : Fin m} {sweep : Sweep} {left : List Nat} (status : s.status = sweep.status)
      (within : ∀ i ∈ left, i < s.size) (nodup : left.Nodup)
      (before : ∀ i ∈ left, sweep.Before (s.workers i).status)
      (after : ∀ i < s.size, i ∉ left → sweep.After (s.workers i).status) :
      InPhase s (.exclusive c (.signalling sweep left))
  | draining {c : Fin m} {asleep : Bool} (status : s.status = .shutdown)
      (workers : ∀ i < s.size, (s.workers i).status.Live) : InPhase s (.exclusive c (.draining asleep))
  | closing {c : Fin m} {w : Writer} {left : List Nat} (toJoin : w.toJoin = some left)
      (status : s.status = .terminated) (within : ∀ i ∈ left, i < s.size)
      (workers : ∀ i < s.size, (s.workers i).status.Ended)
      (joined : ∀ i < s.size, i ∉ left → (s.workers i).point = .returned) : InPhase s (.exclusive c w)

structure Inv (s : ThreadPool m τ) : Prop where
  sound : ∀ i, (s.workers i).Sound
  phase : s.InPhase s.users
  /-- At most one worker has the queue locked, and none while `shutdown` shares it. -/
  locks : ∀ i < s.size, ∀ j < s.size, (s.workers i).point.Locks → (s.workers j).point.Locks → i = j
  unlocked : ∀ c left, s.users = .exclusive c (.signalling .shutdown left) → s.QueueShared

theorem start_inv (n max : Nat) : (start m τ n max).Inv where
  sound _ := WorkerThread.start_sound
  phase := .serving (Or.inl rfl) (fun _ => trivial) (fun _ => nofun) fun _ _ => Or.inl rfl
  locks _ _ _ _ h := h.elim
  unlocked _ _ h := nomatch h

variable {s s' : ThreadPool m τ} {a : ThreadPoolAct m τ}

@[simp] theorem setWorker_self (s : ThreadPool m τ) (i : Nat) (w : WorkerThread τ) : (s.setWorker i w).workers i = w :=
  Function.update_self _ _ _

theorem setWorker_of_ne (s : ThreadPool m τ) {i j : Nat} (w : WorkerThread τ) (h : j ≠ i) :
    (s.setWorker i w).workers j = s.workers j := Function.update_of_ne h _ _

/-- What is true of the worker that is set and of the others is true of all. -/
theorem forall_setWorker {p : Nat → WorkerThread τ → Prop} {i : Nat} {w : WorkerThread τ} (hi : p i w)
    (hothers : ∀ j, j ≠ i → p j (s.workers j)) (j : Nat) : p j ((s.setWorker i w).workers j) := by
  by_cases hj : j = i
  · subst hj
    rwa [setWorker_self]
  · rw [setWorker_of_ne s w hj]
    exact hothers j hj

/-- The workers move but keep the kind of their statuses. -/
theorem InPhase.keeps {users : Users m τ} (h : s.InPhase users) (hstatus : s'.status = s.status)
    (hsize : s'.size = s.size) (hkeeps : ∀ i, (s.workers i).status.Keeps (s'.workers i).status)
    (hreturned : ∀ i, (s.workers i).point = .returned → (s'.workers i).point = .returned) : s'.InPhase users := by
  cases h with
  | serving stable fits free workers =>
    refine .serving (hstatus ▸ stable) (hstatus ▸ fits) free ?_
    rw [hsize, hstatus]
    exact fun i hi => (workers i hi).keeps (hkeeps i)
  | removing running one keep_le within nodup kept told joined ongoing =>
    refine .removing (hstatus.trans running) one (hsize ▸ keep_le) (hsize ▸ within) nodup
      (fun i hi => (hkeeps i).live (kept i hi)) ?_ ?_ ongoing
    · rw [hsize]
      exact fun i hk hi ht => (hkeeps i).ended (told i hk hi ht)
    · rw [hsize]
      exact fun i hk hi hj => hreturned i (joined i hk hi hj)
  | signalling status within nodup before after =>
    refine .signalling (hstatus.trans status) (hsize ▸ within) nodup (fun i hi => (before i hi).keeps (hkeeps i)) ?_
    rw [hsize]
    exact fun i hi hl => (after i hi hl).keeps (hkeeps i)
  | draining status workers =>
    refine .draining (hstatus.trans status) ?_
    rw [hsize]
    exact fun i hi => (hkeeps i).live (workers i hi)
  | closing toJoin status within workers joined =>
    refine .closing toJoin (hstatus.trans status) (hsize ▸ within) ?_ ?_
    · rw [hsize]
      exact fun i hi => (hkeeps i).ended (workers i hi)
    · rw [hsize]
      exact fun i hi hl => hreturned i (joined i hi hl)

theorem InPhase.wake {users : Users m τ} (h : s.InPhase users) : s.InPhase users.wake := by
  cases h with
  | serving stable fits free workers =>
    exact .serving stable (fun c => Reader.wake_fits (fits c))
      (fun c hc => free c ((Reader.wake_eq_removing _).mp hc)) workers
  | removing running one keep_le within nodup kept told joined ongoing =>
    exact .removing running (fun d => (Reader.wake_eq_removing _).trans (one d)) keep_le within nodup kept told joined
      ongoing
  | signalling status within nodup before after => exact .signalling status within nodup before after
  | draining status workers => exact .draining status workers
  | @closing c w _ toJoin status within workers joined =>
    cases w with
    | ending | joining | destroyed => exact .closing toJoin status within workers joined
    | signalling | draining => cases toJoin

/-! ## Every step -/

/-- The workers are where they were, as far as the lock on the queue goes. -/
theorem Inv.next (h : s.Inv) (sound : ∀ i, (s'.workers i).Sound) (phase : s'.InPhase s'.users)
    (points : ∀ i < s'.size, (s'.workers i).point.Locks → i < s.size ∧ (s.workers i).point.Locks)
    (unlocked : ∀ c left, s'.users = .exclusive c (.signalling .shutdown left) → s.QueueShared) : s'.Inv where
  sound := sound
  phase := phase
  locks i hi j hj hli hlj := by
    obtain ⟨hi', hli'⟩ := points i hi hli
    obtain ⟨hj', hlj'⟩ := points j hj hlj
    exact h.locks i hi' j hj' hli' hlj'
  unlocked c left hu i hi hl := by
    obtain ⟨hi', hl'⟩ := points i hi hl
    exact unlocked c left hu i hi' hl'

/-- Only the threads inside `status_mutex` change. -/
theorem Inv.inside (h : s.Inv) (hworkers : s'.workers = s.workers) (hsize : s'.size = s.size)
    (phase : s'.InPhase s'.users)
    (unlocked : ∀ c left, s'.users = .exclusive c (.signalling .shutdown left) → s.QueueShared) : s'.Inv := by
  refine h.next (fun i => hworkers ▸ h.sound i) phase ?_ unlocked
  intro i hi hl
  rw [hworkers] at hl
  exact ⟨hsize ▸ hi, hl⟩

theorem Inv.setWorker (h : s.Inv) {i : Nat} {w : WorkerThread τ} (hm : (s.workers i).Moved w)
    (hlock : w.point.Locks → (s.workers i).point.Locks ∨ s.QueueFree) : (s.setWorker i w).Inv where
  sound := forall_setWorker ((h.sound i).moved hm) fun j _ => h.sound j
  phase := by
    refine h.phase.keeps rfl rfl ?_ ?_
    · exact forall_setWorker (p := fun j w => (s.workers j).status.Keeps w.status) hm.keeps fun j _ => .refl _
    · refine forall_setWorker (p := fun j w => (s.workers j).point = .returned → w.point = .returned) ?_
        fun j _ => id
      intro hp
      cases hm with
      | check old | acquire old | lock old | empty old | take old | sleep old | wake old | finish old =>
        cases hp.symm.trans old
  locks j hj k hk hlj hlk := by
    have hboth : ∀ j < s.size, ((s.setWorker i w).workers j).point.Locks →
        (s.workers j).point.Locks ∨ j = i ∧ s.QueueFree := by
      intro j _ hl
      by_cases hji : j = i
      · subst hji
        rw [setWorker_self] at hl
        exact (hlock hl).imp_right fun hf => ⟨rfl, hf⟩
      · rw [setWorker_of_ne s w hji] at hl
        exact Or.inl hl
    rcases hboth j hj hlj with hoj | ⟨rfl, hf⟩
    · rcases hboth k hk hlk with hok | ⟨rfl, hf⟩
      · exact h.locks j hj k hk hoj hok
      · exact absurd hoj (hf.1 j hj)
    · rcases hboth k hk hlk with hok | ⟨rfl, _⟩
      · exact absurd hok (hf.1 k hk)
      · rfl
  unlocked c left hu j hj hl := by
    by_cases hji : j = i
    · subst hji
      rw [setWorker_self] at hl
      rcases hlock hl with hold | hf
      · exact h.unlocked c left hu j hj hold
      · exact hf.2 c left hu
    · rw [setWorker_of_ne s w hji] at hl
      exact h.unlocked c left hu j hj hl

theorem WorkerStep.moved {i : Nat} {w : WorkerThread τ} (h : WorkerStep s i a w) : (s.workers i).Moved w := by
  cases h with
  | check point => exact .check point
  | acquire point => exact .acquire point
  | lock point => exact .lock point
  | empty point => exact .empty point
  | sleep point => exact .sleep point
  | wake point => exact .wake point

theorem WorkerStep.locks {i : Nat} {w : WorkerThread τ} (hw : (s.workers i).Sound) (h : WorkerStep s i a w) :
    w.point.Locks → (s.workers i).point.Locks ∨ s.QueueFree := by
  cases h with
  | @check c point =>
    cases c with
    | before | after => exact fun _ => Or.inl (point ▸ trivial)
    | outer =>
      intro hl
      rcases WorkerThread.status_cases (s.workers i).status with hs | hs | hs
      · rw [WorkerThread.check_running (hw.outer_running point hs)] at hl
        exact hl.elim
      · rw [WorkerThread.check_paused hs] at hl
        exact hl.elim
      · rw [WorkerThread.check_ended hs] at hl
        exact hl.elim
  | @acquire c point => cases c <;> exact fun hl => hl.elim
  | lock point free => exact fun _ => Or.inr free
  | empty point => exact fun _ => Or.inl (point ▸ trivial)
  | sleep | wake => exact fun hl => hl.elim

theorem InPhase.setReader {readers : Fin m → Reader τ} {removal : Option (Fin m × Nat × Removal)}
    (h : s.InPhase (.shared readers removal)) {c : Fin m} {r : Reader τ} (hold : readers c ≠ .removing)
    (hnew : r ≠ .removing) (hfits : r.Fits s.status) :
    s.InPhase (.shared (Function.update readers c r) removal) := by
  have hremoving : ∀ d, Function.update readers c r d = .removing ↔ readers d = .removing := by
    intro d
    by_cases hd : d = c
    · subst hd
      simp [hnew, hold]
    · rw [Function.update_of_ne hd]
  cases h with
  | serving stable fits free workers =>
    refine .serving stable (fun d => ?_) (fun d hd => free d ((hremoving d).mp hd)) workers
    by_cases hd : d = c
    · subst hd
      rwa [Function.update_self]
    · rw [Function.update_of_ne hd]
      exact fits d
  | removing running one keep_le within nodup kept told joined ongoing =>
    exact .removing running (fun d => (hremoving d).trans (one d)) keep_le within nodup kept told joined ongoing

theorem ReaderStep.fits {old new : Reader τ} (h : ReaderStep s a old new) (hold : old.Fits s.status) :
    old ≠ .removing ∧ new ≠ .removing ∧ new.Fits s.status := by
  cases h with
  | submit running => exact ⟨nofun, nofun, running⟩
  | wait status => exact ⟨nofun, nofun, status⟩
  | full | drained => exact ⟨nofun, nofun, trivial⟩
  | count => exact ⟨nofun, nofun, hold⟩
  | drain | spurious => exact ⟨nofun, nofun, hold⟩

/-- A thread that shares the mutex fits the status. -/
theorem InPhase.fits {readers : Fin m → Reader τ} {removal : Option (Fin m × Nat × Removal)}
    (h : s.InPhase (.shared readers removal)) (c : Fin m) : (readers c).Fits s.status := by
  cases h with
  | serving _ fits => exact fits c
  | removing running one =>
    cases readers c with
    | idle => trivial
    | counting | pushing | notifying | removing => exact running
    | waiting asleep => exact fun hs => nomatch running.symm.trans hs

/-- What a call that owns the mutex goes on with. -/
theorem entry_cases {call : PoolCall τ} {size : Nat} {status st : PoolStatus} {w : Writer}
    (he : call.entry size status = some (st, w))
    (hstable : status = .running ∨ status = .paused ∨ status = .terminated) :
    (∃ sweep, w = .signalling sweep (List.range size) ∧ st = sweep.status ∧ sweep ≠ .shutdown ∧
        ∀ ws, status.Suits ws → sweep.Before ws) ∨
      w = .draining false ∧ st = .shutdown ∧ status = .running ∨
      w = .ending (List.range size) ∧ st = .terminated ∧ status = .terminated := by
  rcases hstable with rfl | rfl | rfl <;> cases call <;>
    simp only [PoolCall.entry, reduceCtorEq, Option.some.injEq, Prod.mk.injEq] at he <;>
    obtain ⟨rfl, rfl⟩ := he
  case inl.pause => exact Or.inl ⟨.pause, rfl, rfl, nofun, fun _ => id⟩
  case inl.shutdown => exact Or.inr (Or.inl ⟨rfl, rfl, rfl⟩)
  case inl.terminate | inr.inl.terminate => exact Or.inl ⟨.terminate, rfl, rfl, nofun, fun _ _ => trivial⟩
  case inl.destroy | inr.inl.destroy => exact Or.inl ⟨.destroy, rfl, rfl, nofun, fun _ _ => trivial⟩
  case inr.inl.resume => exact Or.inl ⟨.resume, rfl, rfl, nofun, fun _ => id⟩
  case inr.inl.shutdown => exact Or.inl ⟨.resumeToShutdown, rfl, rfl, nofun, fun _ => id⟩
  case inr.inr.destroy => exact Or.inr (Or.inr ⟨rfl, rfl, rfl⟩)

theorem endWorker_of_ended {i : Nat} (h : (s.workers i).status.Ended) : s.endWorker i = s := by
  have hsame : (s.workers i).terminate = s.workers i := by
    unfold WorkerThread.terminate
    rcases h with h | h <;> simp [h]
  have hblocked : (s.workers i).status ≠ .blocked := by
    rcases h with h | h <;> simp [h]
  rw [endWorker, if_neg hblocked, hsame, ThreadPool.setWorker, Function.update_eq_self]

theorem wakeAll_locks {i : Nat} (hl : (s.wakeAll.workers i).point.Locks) : (s.workers i).point.Locks := by
  rcases (s.workers i).wake_cases with hw | ⟨_, hw⟩ <;> simp only [wakeAll, hw] at hl
  · exact hl
  · exact hl.elim

theorem wakeAll_sound (h : ∀ i, (s.workers i).Sound) (i : Nat) : (s.wakeAll.workers i).Sound := by
  rcases (s.workers i).wake_cases with hw | ⟨hp, hw⟩ <;> simp only [wakeAll, hw]
  · exact h i
  · exact (h i).moved (.wake hp)

theorem Inv.take (h : s.Inv) {i : Nat} {task : τ} {rest : List τ} (hp : (s.workers i).point = .test) :
    Inv { s.setWorker i { s.workers i with point := .running task } with
      taskQueue := rest
      users := if rest.isEmpty then s.users.wake else s.users
      started := s.started ++ [task] } := by
  have hmoved := h.setWorker (w := { s.workers i with point := .running task }) (.take hp) fun hl => hl.elim
  refine hmoved.inside rfl rfl ?_ ?_
  · have hphase : InPhase (s.setWorker i { s.workers i with point := .running task })
        (if rest.isEmpty then s.users.wake else s.users) := by
      split
      · exact hmoved.phase.wake
      · exact hmoved.phase
    exact hphase.keeps rfl rfl (fun _ => .refl _) fun _ => id
  · intro c left hu
    dsimp only at hu
    split at hu
    · exact hmoved.unlocked c left (Users.wake_signalling hu)
    · exact hmoved.unlocked c left hu

theorem Inv.finish (h : s.Inv) {i : Nat} {task : τ} (hp : (s.workers i).point = .running task) :
    Inv { s.setWorker i { s.workers i with point := .check .outer } with finished := s.finished ++ [task] } := by
  have hmoved := h.setWorker (.finish hp) fun hl => hl.elim
  exact hmoved.inside rfl rfl (hmoved.phase.keeps rfl rfl (fun _ => .refl _) fun _ => id) hmoved.unlocked

theorem Inv.setReader (h : s.Inv) {readers : Fin m → Reader τ} {removal : Option (Fin m × Nat × Removal)}
    (hu : s.users = .shared readers removal) {c : Fin m} {r : Reader τ} (hold : readers c ≠ .removing)
    (hnew : r ≠ .removing) (hfits : r.Fits s.status) : (s.setReader readers removal c r).Inv := by
  have hphase := h.phase
  rw [hu] at hphase
  refine h.inside rfl rfl ?_ (fun _ _ he => nomatch he)
  exact (hphase.setReader hold hnew hfits).keeps rfl rfl (fun _ => .refl _) fun _ => id

theorem Inv.push (h : s.Inv) {readers : Fin m → Reader τ} {removal : Option (Fin m × Nat × Removal)} {c : Fin m}
    {task : τ} (hu : s.users = .shared readers removal) (hold : readers c = .pushing task) :
    Inv { s.setReader readers removal c .notifying with
      taskQueue := s.taskQueue ++ [task]
      accepted := s.accepted ++ [task] } := by
  have hphase := h.phase
  rw [hu] at hphase
  have hrunning := hphase.fits c
  rw [hold] at hrunning
  have hset := h.setReader (c := c) (r := .notifying) hu (by simp [hold]) nofun hrunning
  exact hset.inside rfl rfl (hset.phase.keeps rfl rfl (fun _ => .refl _) fun _ => id) hset.unlocked

theorem Inv.notify (h : s.Inv) {readers : Fin m → Reader τ} {removal : Option (Fin m × Nat × Removal)} {c : Fin m}
    {sleeper : Option Nat} (hu : s.users = .shared readers removal) (hold : readers c = .notifying)
    (hw : s.Wakes sleeper) : ((s.wake sleeper).setReader readers removal c .idle).Inv := by
  have hwoken : (s.wake sleeper).Inv ∧ (s.wake sleeper).users = s.users := by
    cases sleeper with
    | none => exact ⟨h, rfl⟩
    | some i =>
      refine ⟨?_, rfl⟩
      rw [wake, WorkerThread.wake, if_pos hw.2]
      exact h.setWorker (.wake hw.2) fun hl => hl.elim
  exact hwoken.1.setReader (hwoken.2.trans hu) (by simp [hold]) (by simp) trivial

theorem Inv.addThread (h : s.Inv) {readers : Fin m → Reader τ} (hu : s.users = .shared readers none)
    (hstatus : resizable s.status) (count : Nat) :
    Inv { s with workers := fun i => if s.size ≤ i then .start else s.workers i, size := s.size + count } := by
  have hphase := h.phase
  rw [hu] at hphase
  refine h.next ?_ ?_ ?_ ?_
  · intro i
    dsimp only
    split
    · exact WorkerThread.start_sound
    · exact h.sound i
  · dsimp only
    rw [hu]
    cases hphase with
    | serving stable fits free workers =>
      refine .serving stable fits free fun i _ => ?_
      have hlive : s.status = .running := by
        rcases stable with hs | hs | hs <;> simp [hs, resizable] at hstatus ⊢
      dsimp only
      split
      · rw [hlive]
        exact Or.inl rfl
      · exact workers i (by omega)
  · intro i _ hl
    dsimp only at hl
    split at hl
    · exact hl.elim
    · exact ⟨by omega, hl⟩
  · intro c left he
    cases hu.symm.trans he

theorem Inv.removeThread (h : s.Inv) {readers : Fin m → Reader τ} (hu : s.users = .shared readers none)
    (hstatus : resizable s.status) {c : Fin m} {keep : Nat} (hkeep : keep ≤ s.size) :
    (s.setReader readers (some (c, keep, .signalling (List.range' keep (s.size - keep)).reverse)) c .removing).Inv := by
  have hphase := h.phase
  rw [hu] at hphase
  have hmem : ∀ i, i ∈ (List.range' keep (s.size - keep)).reverse ↔ keep ≤ i ∧ i < s.size := by
    intro i
    rw [List.mem_reverse, List.mem_range'_1]
    omega
  refine h.inside rfl rfl ?_ (fun _ _ he => nomatch he)
  cases hphase with
  | serving stable fits free workers =>
    have hrunning : s.status = .running := by
      rcases stable with hs | hs | hs <;> simp [hs, resizable] at hstatus ⊢
    refine .removing hrunning (fun d => ?_) hkeep (fun i hi => (hmem i).mp hi)
      (List.nodup_reverse.mpr List.nodup_range') ?_ ?_ (fun _ _ _ hj => hj.elim) nofun
    · by_cases hd : d = c
      · subst hd
        simp
      · rw [Function.update_of_ne hd]
        exact ⟨fun hr => absurd hr (free d), fun he => absurd he hd⟩
    · intro i hi
      have hlive := workers i (by omega)
      rwa [hrunning] at hlive
    · intro i hk hi ht
      exact absurd ((hmem i).mpr ⟨hk, hi⟩) ht

theorem Inv.enter (h : s.Inv) {readers : Fin m → Reader τ} (hu : s.users = .shared readers none) {c : Fin m}
    {call : PoolCall τ} {status : PoolStatus} {writer : Writer}
    (he : call.entry s.size s.status = some (status, writer)) :
    Inv { s with status := status, users := .exclusive c writer } := by
  have hphase := h.phase
  rw [hu] at hphase
  cases hphase with
  | serving stable fits free workers =>
    rcases entry_cases he stable with ⟨sweep, rfl, rfl, hne, hbefore⟩ | ⟨rfl, rfl, hs⟩ | ⟨rfl, rfl, hs⟩
    · refine h.inside rfl rfl (.signalling rfl (fun i => List.mem_range.mp) List.nodup_range ?_ ?_) ?_
      · exact fun i hi => hbefore _ (workers i (List.mem_range.mp hi))
      · exact fun i hi hl => absurd (List.mem_range.mpr hi) hl
      · intro d left hd
        cases hd
        exact absurd rfl hne
    · rw [hs] at workers
      exact h.inside rfl rfl (.draining rfl workers) (fun _ _ hd => nomatch hd)
    · rw [hs] at workers
      refine h.inside rfl rfl (.closing rfl rfl (fun i => List.mem_range.mp) workers ?_) (fun _ _ hd => nomatch hd)
      exact fun i hi hl => absurd (List.mem_range.mpr hi) hl

theorem Inv.write (h : s.Inv) {c : Fin m} {old new : Writer} (hu : s.users = .exclusive c old)
    (hw : WriterStep s a old new) : Inv { s with users := .exclusive c new } := by
  have hphase := h.phase
  rw [hu] at hphase
  cases hw with
  | drain | spurious =>
    cases hphase with
    | draining status workers => exact h.inside rfl rfl (.draining status workers) (fun _ _ hd => nomatch hd)
    | closing toJoin => cases toJoin
  | ended =>
    cases hphase with
    | closing toJoin status within workers joined =>
      cases toJoin
      exact h.inside rfl rfl (.closing rfl status within workers joined) (fun _ _ hd => nomatch hd)
  | @join i left returned =>
    cases hphase with
    | closing toJoin status within workers joined =>
      cases toJoin
      refine h.inside rfl rfl (.closing rfl status (fun j hj => within j (List.mem_cons_of_mem i hj)) workers ?_)
        (fun _ _ hd => nomatch hd)
      intro j hj hl
      by_cases hji : j = i
      · exact hji ▸ returned
      · exact joined j hj (by simp [hji, hl])

theorem Inv.drained (h : s.Inv) {c : Fin m} (hu : s.users = .exclusive c (.draining false)) (hq : s.QueueShared) :
    Inv { s with status := .terminating, users := .exclusive c (.signalling .shutdown (List.range s.size)) } := by
  have hphase := h.phase
  rw [hu] at hphase
  cases hphase with
  | draining status workers =>
    refine h.inside rfl rfl (.signalling rfl (fun i => List.mem_range.mp) List.nodup_range ?_ ?_) (fun _ _ _ => hq)
    · exact fun i hi => workers i (List.mem_range.mp hi)
    · exact fun i hi hl => absurd (List.mem_range.mpr hi) hl
  | closing toJoin => cases toJoin

theorem Inv.signal (h : s.Inv) {c : Fin m} {sweep : Sweep} {i : Nat} {left : List Nat}
    (hu : s.users = .exclusive c (.signalling sweep (i :: left))) :
    Inv { s.setWorker i (sweep.signal (s.workers i)) with users := .exclusive c (.signalling sweep left) } := by
  have hphase := h.phase
  rw [hu] at hphase
  have hsignalled := WorkerThread.signal_signalled sweep (s.workers i)
  cases hphase with
  | closing toJoin => cases toJoin
  | signalling status within nodup before after =>
    obtain ⟨hi, hnodup⟩ := List.nodup_cons.mp nodup
    refine h.next (forall_setWorker ((h.sound i).signalled hsignalled) fun j _ => h.sound j)
      (.signalling status (fun j hj => within j (List.mem_cons_of_mem i hj)) hnodup ?_ ?_) ?_ ?_
    · intro j hj
      have hji : j ≠ i := fun he => hi (he ▸ hj)
      rw [show _ = s.workers j from setWorker_of_ne s _ hji]
      exact before j (List.mem_cons_of_mem i hj)
    · refine fun j => forall_setWorker (p := fun j w => j < s.size → j ∉ left → sweep.After w.status) ?_ ?_ j
      · exact fun _ _ => WorkerThread.signal_after (before i List.mem_cons_self)
      · exact fun j hji hj hl => after j hj (by simp [hji, hl])
    · intro j hj hl
      refine ⟨hj, ?_⟩
      exact forall_setWorker (p := fun j w => w.point.Locks → (s.workers j).point.Locks)
        (fun hl => hsignalled.point ▸ hl) (fun _ _ => id) j hl
    · intro d rest hd
      cases hd
      exact h.unlocked c _ hu

theorem Inv.close (h : s.Inv) {c : Fin m} {sweep : Sweep} (hu : s.users = .exclusive c (.signalling sweep [])) :
    (s.close c sweep).Inv := by
  have hphase := h.phase
  rw [hu] at hphase
  cases hphase with
  | closing toJoin => cases toJoin
  | signalling status within nodup before after =>
    have hafter : ∀ i < s.size, sweep.After (s.workers i).status := fun i hi => after i hi List.not_mem_nil
    have hwoken : ∀ i < s.size, sweep.After (s.workers i).wake.status := fun i hi =>
      (WorkerThread.wake_status _).symm ▸ hafter i hi
    cases sweep with
    | pause =>
      have hpaused : (s.close c .pause).status = .paused := status
      refine h.inside rfl rfl (.serving (Or.inr (Or.inl hpaused)) (fun _ => trivial) (fun _ => nofun) ?_)
        (fun _ _ hd => nomatch hd)
      rw [hpaused]
      exact hafter
    | resume =>
      have hrunning : (s.close c .resume).status = .running := status
      refine h.inside rfl rfl (.serving (Or.inl hrunning) (fun _ => trivial) (fun _ => nofun) ?_)
        (fun _ _ hd => nomatch hd)
      rw [hrunning]
      exact hafter
    | resumeToShutdown => exact h.inside rfl rfl (.draining rfl hafter) (fun _ _ hd => nomatch hd)
    | terminate | shutdown =>
      exact h.next (wakeAll_sound h.sound)
        (.serving (Or.inr (Or.inr rfl)) (fun _ => trivial) (fun _ => nofun) hwoken)
        (fun i hi hl => ⟨hi, wakeAll_locks hl⟩) (fun _ _ hd => nomatch hd)
    | destroy =>
      refine h.next (wakeAll_sound h.sound)
        (.closing rfl rfl (fun i => List.mem_range.mp) hwoken ?_)
        (fun i hi hl => ⟨hi, wakeAll_locks hl⟩) (fun _ _ hd => nomatch hd)
      exact fun i hi hl => absurd (List.mem_range.mpr hi) hl

theorem Inv.endWorker (h : s.Inv) {c : Fin m} {i : Nat} {left : List Nat}
    (hu : s.users = .exclusive c (.ending (i :: left))) :
    s.endWorker i = s ∧ Inv { s with users := .exclusive c (.joining (i :: left)) } := by
  have hphase := h.phase
  rw [hu] at hphase
  cases hphase with
  | closing toJoin status within workers joined =>
    cases toJoin
    exact ⟨endWorker_of_ended (workers i (within i List.mem_cons_self)),
      h.inside rfl rfl (.closing rfl status within workers joined) (fun _ _ hd => nomatch hd)⟩

/-- `remove_thread` goes on to its next part, which has the workers `r.left` to see. -/
theorem Inv.removal (h : s.Inv) {readers : Fin m → Reader τ} {c : Fin m} {keep : Nat} {r r' : Removal}
    (hu : s.users = .shared readers (some (c, keep, r))) (hworkers : ∀ i, (s'.workers i).Sound)
    (hpoints : ∀ i, (s'.workers i).point.Locks → (s.workers i).point.Locks) (hsize : s'.size = s.size)
    (hstatus : s'.status = s.status) (hu' : s'.users = .shared readers (some (c, keep, r')))
    (hleft : ∀ i ∈ r'.left, keep ≤ i ∧ i < s.size) (hnodup : r'.left.Nodup)
    (hkept : ∀ i < keep, (s.workers i).status.Live → (s'.workers i).status.Live)
    (htold : ∀ i, keep ≤ i → i < s.size → r'.Told i →
      (r.Told i → (s.workers i).status.Ended) → (s'.workers i).status.Ended)
    (hjoined : ∀ i, keep ≤ i → i < s.size → r'.Joined i →
      (r.Joined i → (s.workers i).point = .returned) → (s'.workers i).point = .returned)
    (hongoing : r' ≠ .joining []) : s'.Inv := by
  have hphase := h.phase
  rw [hu] at hphase
  cases hphase with
  | removing running one keep_le within nodup kept told joined =>
    refine h.next hworkers ?_ (fun i hi hl => ⟨hsize ▸ hi, hpoints i hl⟩) (fun d left hd => nomatch hu'.symm.trans hd)
    rw [hu']
    refine .removing (hstatus.trans running) one (hsize ▸ keep_le) (hsize ▸ hleft) hnodup
      (fun i hi => hkept i hi (kept i hi)) ?_ ?_ hongoing
    · intro i hk hi ht
      rw [hsize] at hi
      exact htold i hk hi ht (told i hk hi)
    · intro i hk hi hj
      rw [hsize] at hi
      exact hjoined i hk hi hj (joined i hk hi)

theorem Inv.removeNext (h : s.Inv) {readers : Fin m → Reader τ} {c : Fin m} {keep : Nat} {r : Removal}
    (hu : s.users = .shared readers (some (c, keep, r))) (hs : s.removeNext readers c keep r = some s') : s'.Inv := by
  have hphase := h.phase
  rw [hu] at hphase
  cases hphase with
  | removing running one keep_le within nodup kept told =>
    match r with
    | .signalling (i :: left) =>
      cases hs
      obtain ⟨hi, hnodup⟩ := List.nodup_cons.mp nodup
      have hsignalled := (s.workers i).terminate_signalled
      refine h.removal hu (forall_setWorker ((h.sound i).signalled hsignalled) fun j _ => h.sound j) ?_ rfl rfl rfl
        (fun j hj => within j (List.mem_cons_of_mem i hj)) hnodup ?_ ?_ (fun _ _ _ hj => hj.elim) nofun
      · exact forall_setWorker (p := fun j w => w.point.Locks → (s.workers j).point.Locks)
          (fun hl => hsignalled.point ▸ hl) fun _ _ => id
      · intro j hj hl
        have hji : j ≠ i := by
          have hk := (within i List.mem_cons_self).1
          omega
        rwa [show _ = s.workers j from setWorker_of_ne s _ hji]
      · refine forall_setWorker (p := fun j w => keep ≤ j → j < s.size → Removal.Told (.signalling left) j →
          (Removal.Told (.signalling (i :: left)) j → (s.workers j).status.Ended) → w.status.Ended) ?_ ?_
        · exact fun _ _ _ _ => (s.workers i).terminate_ended
        · exact fun j hji _ _ ht hold => hold (by simpa [Removal.Told, hji] using ht)
    | .signalling [] =>
      cases hs
      have hmem : ∀ i ∈ List.range' keep (s.size - keep), keep ≤ i ∧ i < s.size := by
        intro i hi
        rw [List.mem_range'_1] at hi
        omega
      refine h.removal hu (wakeAll_sound h.sound) (fun i => wakeAll_locks) rfl rfl rfl hmem List.nodup_range' ?_ ?_ ?_
        nofun
      · exact fun i _ hl => (WorkerThread.wake_status _).symm ▸ hl
      · exact fun i _ _ _ hold => (WorkerThread.wake_status _).symm ▸ hold List.not_mem_nil
      · exact fun i hk hi hj => absurd (List.mem_range'_1.mpr ⟨hk, by omega⟩) hj
    | .ending (i :: left) =>
      cases hs
      obtain ⟨hk, hi⟩ := within i List.mem_cons_self
      rw [endWorker_of_ended (told i hk hi trivial)]
      exact h.removal hu h.sound (fun _ => id) rfl rfl rfl within nodup (fun _ _ => id)
        (fun i _ _ _ hold => hold trivial) (fun i _ _ hj hold => hold hj) nofun
    | .ending [] =>
      cases hs
      refine h.next h.sound ?_ (fun i hi hl => ⟨Nat.lt_of_lt_of_le hi keep_le, hl⟩) (fun _ _ hd => nomatch hd)
      have hfree : ∀ d, Function.update readers c .idle d ≠ .removing := by
        intro d
        by_cases hd : d = c
        · subst hd
          simp
        · rw [Function.update_of_ne hd]
          exact fun hr => hd ((one d).mp hr)
      refine .serving (Or.inl running) (fun d => ?_) hfree fun i hi => ?_
      · by_cases hd : d = c
        · subst hd
          rw [Function.update_self]
          trivial
        · rw [Function.update_of_ne hd]
          have hphase := h.phase
          rw [hu] at hphase
          exact hphase.fits d
      · rw [show _ = s.status from rfl, running]
        exact kept i hi
    | .joining (i :: left) =>
      obtain ⟨hreturned, hs⟩ := Option.ite_none_right_eq_some.mp hs
      cases hs
      refine h.removal hu h.sound (fun _ => id) rfl rfl rfl (fun j hj => within j (List.mem_cons_of_mem i hj))
        (List.nodup_cons.mp nodup).2 (fun _ _ => id) (fun i _ _ _ hold => hold trivial) ?_ nofun
      intro j _ _ hj hold
      by_cases hji : j = i
      · exact hji ▸ hreturned
      · exact hold (by simpa [Removal.Joined, hji] using hj)
    | .joining [] => cases hs

theorem Inv.step (h : s.Inv) (hs : s.step a = some s') : s'.Inv := by
  cases step_stepped hs with
  | worker lt hw => exact h.setWorker hw.moved (hw.locks (h.sound _))
  | take lt point => exact h.take point
  | finish lt point => exact h.finish point
  | refuse => exact h
  | @read a c readers removal old new users old_eq hr =>
    have hphase := h.phase
    rw [users] at hphase
    obtain ⟨hold, hnew, hfits⟩ := hr.fits (old_eq ▸ hphase.fits c)
    exact h.setReader users (old_eq ▸ hold) hnew hfits
  | push users old => exact h.push users old
  | notify users old wakes => exact h.notify users old wakes
  | addThread users status => exact h.addThread users status _
  | removeThread users _ status rest => exact h.removeThread users status (by omega)
  | enter users _ entry => exact h.enter users entry
  | write users hw => exact h.write users hw
  | drained users unlocked => exact h.drained users unlocked
  | signal users => exact h.signal users
  | close users => exact h.close users
  | endWorker users =>
    obtain ⟨hsame, hinv⟩ := h.endWorker users
    rwa [hsame]
  | remove users next => exact h.removeNext users next

theorem exec_inv (n max : Nat) (as : List (ThreadPoolAct m τ)) : (exec step (start m τ n max) as).Inv :=
  exec_always (fun _ _ _ h hs => h.step hs) as (start_inv n max)

/-- Whatever is called and however it is interleaved: no worker leaves its thread by an exception, and no call
finds the pool terminating or shutting down. A task is refused by a paused or a terminated pool or by a full
queue, and the workers have the status that the call sees, unless some are being removed. -/
theorem statuses_seen (n max : Nat) (as : List (ThreadPoolAct m τ)) :
    let s := exec step (start m τ n max) as
    (∀ i < s.size, (s.workers i).point ≠ .threw ∧
        ((s.workers i).status = .terminated ↔ (s.workers i).point = .returned)) ∧
      ∀ readers removal, s.users = .shared readers removal →
        (submitError s.status = none ∧ s.status = .running ∨
          submitError s.status = some "[thread_pool::submit][error]: thread pool is paused" ∧ s.status = .paused ∨
          submitError s.status = some "[thread_pool::submit][error]: thread pool is terminated" ∧
            s.status = .terminated) ∧
          (removal.isSome → s.status = .running) ∧ ∀ i < s.size, removal = none → s.status.Suits (s.workers i).status := by
  intro s
  have h : s.Inv := exec_inv n max as
  refine ⟨fun i _ => ⟨(h.sound i).threw, (h.sound i).returned⟩, ?_⟩
  intro readers removal hu
  have hphase := h.phase
  rw [hu] at hphase
  cases hphase with
  | serving stable fits free workers =>
    refine ⟨?_, fun hsome => by simp at hsome, fun i hi _ => workers i hi⟩
    rcases stable with hs | hs | hs <;> simp [hs, submitError]
  | removing running => exact ⟨Or.inl ⟨by rw [running]; rfl, running⟩, fun _ => running, fun _ _ hnone => by simp at hnone⟩

end ThreadPool

end KVStorage

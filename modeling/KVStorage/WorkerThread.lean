import KVStorage.Library.Runs
import Mathlib

/-!
# A worker of the request pool

`thread_pool::worker_thread`: the thread passes a switch over its status before it takes
a task, and two more around its wait for one. `pause`, `resume` and `terminate` change
the status under `status_mutex` and wake the thread through a semaphore.
-/

namespace KVStorage

set_option autoImplicit false

universe u

/-- `worker_thread::status_t`. -/
inductive WorkerStatus where
  | terminated
  | terminating
  | running
  | paused
  | blocked
  deriving DecidableEq

namespace WorkerStatus

/-- The thread goes on by itself. -/
def Live (st : WorkerStatus) : Prop := st = running ∨ st = blocked

/-- The thread has returned, or returns at its next switch. -/
def Ended (st : WorkerStatus) : Prop := st = terminating ∨ st = terminated

instance decidableLive : DecidablePred Live := fun _ => inferInstanceAs (Decidable (_ ∨ _))

instance decidableEnded : DecidablePred Ended := fun _ => inferInstanceAs (Decidable (_ ∨ _))

end WorkerStatus

/-- The three switches over the status. -/
inductive Checkpoint where
  /-- At the head of the outer loop, with no lock on the queue. -/
  | outer
  /-- With the queue empty, before the wait. -/
  | before
  | after
  deriving DecidableEq

/-- What the thread does next. -/
inductive WorkerPoint (τ : Type u) where
  | check (c : Checkpoint)
  /-- `pause_sem.acquire()`, in the `PAUSED` case of a switch. -/
  | acquire (c : Checkpoint)
  /-- It locks `task_queue_mutex`: to look for a task, or to come back to a switch. The
  wait locks it again as well, when it is over. -/
  | lock (c : Checkpoint)
  /-- `while (task_queue.empty())`, with the mutex locked. -/
  | test
  /-- It is about to wait, with the mutex still locked. -/
  | waiting
  | asleep
  | running (task : τ)
  | returned
  /-- An exception has left the thread function. -/
  | threw
  deriving DecidableEq

namespace WorkerPoint

variable {τ : Type u}

/-- The thread holds `task_queue_mutex`. -/
def Locks : WorkerPoint τ → Prop
  | check .before | check .after | test | waiting => True
  | _ => False

instance decidableLocks : DecidablePred (Locks (τ := τ))
  | .check .before | .check .after | .test | .waiting => isTrue trivial
  | .check .outer | .acquire _ | .lock _ | .asleep | .running _ | .returned | .threw => isFalse id

instance decidableAsleep : DecidablePred fun p : WorkerPoint τ => p = asleep
  | .asleep => isTrue rfl
  | .check _ | .acquire _ | .lock _ | .test | .waiting | .running _ | .returned | .threw => isFalse nofun

instance decidableReturned : DecidablePred fun p : WorkerPoint τ => p = returned
  | .returned => isTrue rfl
  | .check _ | .acquire _ | .lock _ | .test | .waiting | .asleep | .running _ | .threw => isFalse nofun

def task : WorkerPoint τ → List τ
  | running t => [t]
  | _ => []

end WorkerPoint

/-- `worker_thread`, with the permits of `pause_sem`. -/
structure WorkerThread (τ : Type u) where
  status : WorkerStatus
  pauseSem : Nat
  point : WorkerPoint τ

namespace WorkerThread

variable {τ : Type u}

def start : WorkerThread τ := ⟨.running, 0, .check .outer⟩

/-- `pause_with_status_lock`. -/
def pause (w : WorkerThread τ) : WorkerThread τ :=
  match w.status with
  | .terminated | .terminating | .paused => w
  | .blocked | .running => { w with status := .paused }

/-- `resume_with_status_lock`. -/
def resume (w : WorkerThread τ) : WorkerThread τ :=
  match w.status with
  | .terminated | .terminating | .running | .blocked => w
  | .paused => { w with status := .running, pauseSem := w.pauseSem + 1 }

/-- `terminate_with_status_lock`; it returns the status it found. -/
def terminate (w : WorkerThread τ) : WorkerThread τ :=
  match w.status with
  | .terminated | .terminating => w
  | .running | .blocked => { w with status := .terminating }
  | .paused => { w with status := .terminating, pauseSem := w.pauseSem + 1 }

/-- The switch at the head of the outer loop. -/
def checkOuter (w : WorkerThread τ) : WorkerThread τ :=
  match w.status with
  | .terminating | .terminated => { w with status := .terminated, point := .returned }
  | .running => { w with point := .lock .outer }
  | .paused => { w with point := .acquire .outer }
  | .blocked => { w with point := .threw }

/-- The switch before the wait. The queue is not looked at again after a pause here. -/
def checkBefore (w : WorkerThread τ) : WorkerThread τ :=
  match w.status with
  | .terminating | .terminated => { w with status := .terminated, point := .returned }
  | .paused => { w with point := .acquire .before }
  | .running | .blocked => { w with status := .blocked, point := .waiting }

/-- The switch after the wait. -/
def checkAfter (w : WorkerThread τ) : WorkerThread τ :=
  match w.status with
  | .terminating | .terminated => { w with status := .terminated, point := .returned }
  | .paused => { w with point := .acquire .after }
  | .blocked | .running => { w with status := .running, point := .test }

def check (w : WorkerThread τ) : Checkpoint → WorkerThread τ
  | .outer => w.checkOuter
  | .before => w.checkBefore
  | .after => w.checkAfter

/-- After `pause_sem.acquire()`. -/
def acquired (w : WorkerThread τ) (c : Checkpoint) : WorkerThread τ :=
  { w with
    pauseSem := w.pauseSem - 1
    point := match c with
      | .outer => .check .outer
      | .before => .lock .before
      | .after => .lock .after }

/-- With `task_queue_mutex` locked. -/
def locked (w : WorkerThread τ) : Checkpoint → WorkerThread τ
  | .outer => { w with point := .test }
  | .before => { w with point := .check .before }
  | .after => { w with point := .check .after }

/-- `task_queue_cv.wait` is over, but for the mutex. -/
def wake (w : WorkerThread τ) : WorkerThread τ :=
  if w.point = .asleep then { w with point := .lock .after } else w

/-- What holds of a worker at any time, whatever is done to it. -/
structure Sound (w : WorkerThread τ) : Prop where
  returned : w.status = .terminated ↔ w.point = .returned
  /-- A thread that waits to be resumed is paused, or has its permit already. -/
  acquire : ∀ c, w.point = .acquire c → w.status = .paused ∨ 0 < w.pauseSem
  blocked : w.status = .blocked →
    w.point = .waiting ∨ w.point = .asleep ∨ w.point = .lock .after ∨ w.point = .check .after
  threw : w.point ≠ .threw

variable {w : WorkerThread τ}

theorem start_sound : (start : WorkerThread τ).Sound where
  returned := ⟨nofun, nofun⟩
  acquire _ h := nomatch h
  blocked h := nomatch h
  threw := nofun

/-- What a signal does: it leaves the thread where it is and gives a permit to one that was paused. -/
inductive Signalled (w : WorkerThread τ) : WorkerThread τ → Prop where
  | same : Signalled w w
  | pause (old : w.status.Live) : Signalled w { w with status := .paused }
  | resume (old : w.status = .paused) :
      Signalled w { w with status := .running, pauseSem := w.pauseSem + 1 }
  | stop (old : w.status.Live) : Signalled w { w with status := .terminating }
  | release (old : w.status = .paused) :
      Signalled w { w with status := .terminating, pauseSem := w.pauseSem + 1 }

theorem pause_signalled (w : WorkerThread τ) : Signalled w w.pause := by
  unfold pause
  cases h : w.status with
  | terminated | terminating | paused => exact .same
  | running => exact .pause (Or.inl h)
  | blocked => exact .pause (Or.inr h)

theorem resume_signalled (w : WorkerThread τ) : Signalled w w.resume := by
  unfold resume
  cases h : w.status with
  | terminated | terminating | running | blocked => exact .same
  | paused => exact .resume h

theorem terminate_signalled (w : WorkerThread τ) : Signalled w w.terminate := by
  unfold terminate
  cases h : w.status with
  | terminated | terminating => exact .same
  | running => exact .stop (Or.inl h)
  | blocked => exact .stop (Or.inr h)
  | paused => exact .release h

theorem Signalled.point {w' : WorkerThread τ} (h : Signalled w w') : w'.point = w.point := by
  cases h <;> rfl

theorem Sound.signalled {w' : WorkerThread τ} (h : w.Sound) (hs : Signalled w w') : w'.Sound := by
  cases hs with
  | same => exact h
  | pause old =>
    refine ⟨⟨nofun, fun hp => ?_⟩, fun _ _ => Or.inl rfl, nofun, h.threw⟩
    have hold := h.returned.mpr hp
    rcases old with old | old <;> cases hold.symm.trans old
  | resume old =>
    refine ⟨⟨nofun, fun hp => ?_⟩, fun _ _ => Or.inr (Nat.succ_pos _), nofun, h.threw⟩
    cases (h.returned.mpr hp).symm.trans old
  | stop old =>
    refine ⟨⟨nofun, fun hp => ?_⟩, fun c hp => ?_, nofun, h.threw⟩
    · have hold := h.returned.mpr hp
      rcases old with old | old <;> cases hold.symm.trans old
    · refine Or.inr ((h.acquire c hp).resolve_left ?_)
      intro hpaused
      rcases old with old | old <;> cases hpaused.symm.trans old
  | release old =>
    refine ⟨⟨nofun, fun hp => ?_⟩, fun _ _ => Or.inr (Nat.succ_pos _), nofun, h.threw⟩
    cases (h.returned.mpr hp).symm.trans old

/-- A step of the thread itself, at the point where it is. -/
inductive Moved (w : WorkerThread τ) : WorkerThread τ → Prop where
  | check {c : Checkpoint} (old : w.point = .check c) : Moved w (w.check c)
  | acquire {c : Checkpoint} (old : w.point = .acquire c) : Moved w (w.acquired c)
  | lock {c : Checkpoint} (old : w.point = .lock c) : Moved w (w.locked c)
  | empty (old : w.point = .test) : Moved w { w with point := .check .before }
  | take {task : τ} (old : w.point = .test) : Moved w { w with point := .running task }
  | sleep (old : w.point = .waiting) : Moved w { w with point := .asleep }
  | wake (old : w.point = .asleep) : Moved w { w with point := .lock .after }
  | finish {task : τ} (old : w.point = .running task) : Moved w { w with point := .check .outer }

theorem check_ended (h : w.status.Ended) (c : Checkpoint) :
    w.check c = { w with status := .terminated, point := .returned } := by
  rcases h with h | h <;> cases c <;> simp [check, checkOuter, checkBefore, checkAfter, h]

theorem check_paused (h : w.status = .paused) (c : Checkpoint) : w.check c = { w with point := .acquire c } := by
  cases c <;> simp [check, checkOuter, checkBefore, checkAfter, h]

theorem check_running (h : w.status = .running) : w.check .outer = { w with point := .lock .outer } := by
  simp [check, checkOuter, h]

theorem check_before (h : w.status.Live) : w.check .before = { w with status := .blocked, point := .waiting } := by
  rcases h with h | h <;> simp [check, checkBefore, h]

theorem check_after (h : w.status.Live) : w.check .after = { w with status := .running, point := .test } := by
  rcases h with h | h <;> simp [check, checkAfter, h]

theorem status_cases (st : WorkerStatus) : st.Live ∨ st = .paused ∨ st.Ended := by
  cases st <;> simp [WorkerStatus.Live, WorkerStatus.Ended]

/-- At the head of the outer loop the thread does not find itself blocked. -/
theorem Sound.outer_running (h : w.Sound) (hp : w.point = .check .outer) (hl : w.status.Live) :
    w.status = .running := by
  refine hl.resolve_right fun hs => ?_
  rcases h.blocked hs with hw | hw | hw | hw <;> cases hw.symm.trans hp

theorem Sound.check (h : w.Sound) {c : Checkpoint} (hp : w.point = .check c) : (w.check c).Sound := by
  have hstill : w.status ≠ .terminated := by
    intro hs
    cases (h.returned.mp hs).symm.trans hp
  rcases status_cases w.status with hl | hs | he
  · cases c with
    | outer =>
      have hs := h.outer_running hp hl
      rw [check_running hs]
      exact ⟨⟨by simp [hs], nofun⟩, nofun, by simp [hs], nofun⟩
    | before =>
      rw [check_before hl]
      exact ⟨⟨nofun, nofun⟩, nofun, fun _ => Or.inl rfl, nofun⟩
    | after =>
      rw [check_after hl]
      exact ⟨⟨nofun, nofun⟩, nofun, nofun, nofun⟩
  · rw [check_paused hs]
    exact ⟨⟨by simp [hs], nofun⟩, fun _ _ => Or.inl hs, by simp [hs], nofun⟩
  · rw [check_ended he]
    exact ⟨⟨fun _ => rfl, fun _ => rfl⟩, nofun, nofun, nofun⟩

/-- A step that is not a switch and leaves the status as it is. -/
theorem Sound.go (h : w.Sound) (p : WorkerPoint τ) (permits : Nat) (hp : w.point ≠ .returned)
    (hreturned : p ≠ .returned) (hthrew : p ≠ .threw) (hacquire : ∀ c, p ≠ .acquire c)
    (hblocked : w.status = .blocked →
      p = .waiting ∨ p = .asleep ∨ p = .lock .after ∨ p = .check .after) :
    Sound { w with point := p, pauseSem := permits } where
  returned := ⟨fun hs => absurd (h.returned.mp hs) hp, fun hr => absurd hr hreturned⟩
  acquire c hc := absurd hc (hacquire c)
  blocked := hblocked
  threw := hthrew

theorem Sound.moved {w' : WorkerThread τ} (h : w.Sound) (hm : Moved w w') : w'.Sound := by
  -- where the status is `blocked`, the thread is around its wait
  have hblocked : ∀ {p}, w.point = p → w.status = .blocked →
      p = .waiting ∨ p = .asleep ∨ p = .lock .after ∨ p = .check .after := by
    rintro p rfl hs
    exact h.blocked hs
  cases hm with
  | check old => exact h.check old
  | @acquire c old =>
    have hne : w.status ≠ .blocked := fun hs => by simpa using hblocked old hs
    cases c with
    | outer => exact h.go (.check .outer) _ (by simp [old]) nofun nofun nofun fun hs => absurd hs hne
    | before => exact h.go (.lock .before) _ (by simp [old]) nofun nofun nofun fun hs => absurd hs hne
    | after => exact h.go (.lock .after) _ (by simp [old]) nofun nofun nofun fun hs => absurd hs hne
  | @lock c old =>
    have hlock := hblocked old
    cases c with
    | outer => exact h.go .test _ (by simp [old]) nofun nofun nofun (by simpa using hlock)
    | before => exact h.go (.check .before) _ (by simp [old]) nofun nofun nofun (by simpa using hlock)
    | after => exact h.go (.check .after) _ (by simp [old]) nofun nofun nofun (by simp)
  | empty old => exact h.go (.check .before) _ (by simp [old]) nofun nofun nofun (by simpa using hblocked old)
  | @take task old =>
    exact h.go (.running task) _ (by simp [old]) nofun nofun nofun (by simpa using hblocked old)
  | finish old => exact h.go (.check .outer) _ (by simp [old]) nofun nofun nofun (by simpa using hblocked old)
  | sleep old => exact h.go .asleep _ (by simp [old]) nofun nofun nofun (by simp)
  | wake old => exact h.go (.lock .after) _ (by simp [old]) nofun nofun nofun (by simp)

/-- The thread keeps its status but for `blocked` and `running`, and for what ends it. -/
theorem Moved.status {w' : WorkerThread τ} (hm : Moved w w') :
    (w.status.Live → w'.status.Live) ∧ (w.status = .paused → w'.status = .paused) ∧
      (w.status.Ended → w'.status.Ended) := by
  cases hm with
  | @check c old =>
    rcases status_cases w.status with hl | hs | he
    · rw [WorkerStatus.Live] at hl
      cases c <;> rcases hl with hl | hl <;>
        simp [WorkerThread.check, checkOuter, checkBefore, checkAfter, WorkerStatus.Live, WorkerStatus.Ended, hl]
    · rw [check_paused hs]
      exact ⟨id, id, id⟩
    · rw [check_ended he]
      rcases he with he | he <;> simp [WorkerStatus.Live, WorkerStatus.Ended, he]
  | @acquire c old => cases c <;> exact ⟨id, id, id⟩
  | @lock c old => cases c <;> exact ⟨id, id, id⟩
  | empty | take | sleep | wake | finish => exact ⟨id, id, id⟩

end WorkerThread

end KVStorage

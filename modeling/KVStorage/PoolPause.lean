import KVStorage.PoolTasks

/-!
# What a pause of the request pool stops

A worker that has passed its switch when the pool is paused still takes a task. It takes
one at most, and nobody else takes any.
-/

namespace KVStorage

set_option autoImplicit false

open Runs

universe u

/-- The thread has passed the switch at the head of its loop, and looks for a task. -/
def WorkerPoint.about {τ : Type u} : WorkerPoint τ → Nat
  | lock .outer | test => 1
  | _ => 0

/-- The workers stop, or have stopped, whether there are tasks or not. -/
def PoolStatus.Halts : PoolStatus → Prop
  | terminated | terminating | paused => True
  | running | shutdown => False

theorem WorkerStatus.not_live {st : WorkerStatus} : ¬st.Live ↔ st = .paused ∨ st.Ended := by
  cases st <;> simp [Live, Ended]

theorem WorkerStatus.Keeps.not_live {old new : WorkerStatus} (h : old.Keeps new) (hold : ¬old.Live) : ¬new.Live :=
  WorkerStatus.not_live.mpr ((WorkerStatus.not_live.mp hold).imp h.paused h.ended)

namespace ThreadPool

variable {m : Nat} {τ : Type u} {s s' s₀ : ThreadPool m τ} {a : ThreadPoolAct m τ}

/-- How many workers are about to look for a task. -/
def about (s : ThreadPool m τ) : Nat := s.total fun w => w.point.about

/-- The pool is paused, or ends or has ended without waiting for its tasks. -/
structure Halted (s : ThreadPool m τ) : Prop where
  status : s.status.Halts
  workers : ∀ i < s.size, ¬(s.workers i).status.Live

theorem Halted.running (h : s.Halted) : s.status ≠ .running := by
  intro hs
  have hstatus := h.status
  rw [hs] at hstatus
  exact hstatus

theorem Halted.shutdown (h : s.Halted) : s.status ≠ .shutdown := by
  intro hs
  have hstatus := h.status
  rw [hs] at hstatus
  exact hstatus

theorem Inv.halted (h : s.Inv) {readers : Fin m → Reader τ} {removal : Option (Fin m × Nat × Removal)}
    (hu : s.users = .shared readers removal) (hs : s.status ≠ .running) : s.Halted := by
  have hphase := h.phase
  rw [hu] at hphase
  cases hphase with
  | serving stable fits free workers =>
    refine ⟨?_, fun i hi => WorkerStatus.not_live.mpr ?_⟩
    · rcases stable with hst | hst | hst
      · exact absurd hst hs
      · rw [hst]
        trivial
      · rw [hst]
        trivial
    · rcases stable with hst | hst | hst
      · exact absurd hst hs
      · exact Or.inl (by simpa [hst, PoolStatus.Suits] using workers i hi)
      · exact Or.inr (by simpa [hst, PoolStatus.Suits] using workers i hi)
  | removing running => exact absurd running hs

/-- Nobody resumes the pool; `shutdown` resumes it as well. -/
def Held (_ : ThreadPool m τ) : ThreadPoolAct m τ → Prop
  | .call _ .resume | .call _ .shutdown => False
  | _ => True

/-- A worker gives up looking for a task only when there is none. -/
def Looks (s : ThreadPool m τ) (old new : WorkerPoint τ) : Prop :=
  new.about = old.about ∨ s.taskQueue = [] ∧ new.about = 0

theorem Looks.refl (p : WorkerPoint τ) : s.Looks p p := Or.inl rfl

/-- What a step does to a pool that is halted, as far as tasks are concerned. -/
inductive HaltedStep (s : ThreadPool m τ) : ThreadPool m τ → Prop where
  | rest {s' : ThreadPool m τ} (size : s'.size = s.size) (queue : s'.taskQueue = s.taskQueue)
      (started : s'.started = s.started)
      (points : ∀ i < s.size, s.Looks (s.workers i).point (s'.workers i).point) : HaltedStep s s'
  | take {i : Nat} {task : τ} {rest : List τ} {users : Users m τ} (lt : i < s.size)
      (point : (s.workers i).point = .test) (queue : s.taskQueue = task :: rest) :
      HaltedStep s
        { s.setWorker i { s.workers i with point := .running task } with
          taskQueue := rest
          users := users
          started := s.started ++ [task] }

theorem WorkerStep.looks {i : Nat} {w : WorkerThread τ} (h : WorkerStep s i a w)
    (hl : ¬(s.workers i).status.Live) : s.Looks (s.workers i).point w.point := by
  cases h with
  | @check c point =>
    rw [point]
    rcases WorkerStatus.not_live.mp hl with hs | hs
    · rw [WorkerThread.check_paused hs]
      exact Or.inl rfl
    · rw [WorkerThread.check_ended hs]
      exact Or.inl rfl
  | @acquire c point =>
    rw [point]
    cases c <;> exact Or.inl rfl
  | @lock c point =>
    rw [point]
    cases c <;> exact Or.inl rfl
  | empty point queue => exact Or.inr ⟨queue, rfl⟩
  | sleep point | wake point =>
    rw [point]
    exact Or.inl rfl

theorem setWorker_looks {i : Nat} {w : WorkerThread τ} (h : s.Looks (s.workers i).point w.point) (j : Nat) :
    s.Looks (s.workers j).point ((s.setWorker i w).workers j).point :=
  forall_setWorker (p := fun j w => s.Looks (s.workers j).point w.point) h (fun _ _ => .refl _) j

theorem wakeAll_looks (s : ThreadPool m τ) (i : Nat) : s.Looks (s.workers i).point (s.wakeAll.workers i).point := by
  rcases (s.workers i).wake_cases with hw | ⟨hp, hw⟩ <;> simp only [wakeAll, hw]
  · exact .refl _
  · rw [hp]
    exact Or.inl rfl

theorem setWorker_not_live {i : Nat} {w : WorkerThread τ} (h : s.Halted) (hw : ¬w.status.Live) :
    ∀ j < s.size, ¬((s.setWorker i w).workers j).status.Live :=
  forall_setWorker (p := fun j w => j < s.size → ¬w.status.Live) (fun _ => hw) fun j _ => h.workers j

/-- Only a sweep that halts the workers goes through a halted pool. -/
theorem Sweep.not_live {sweep : Sweep} {w : WorkerThread τ} (h : sweep.status ≠ .running)
    (hb : sweep.Before w.status) : ¬(sweep.signal w).status.Live := by
  have hafter := WorkerThread.signal_after hb
  rw [WorkerStatus.not_live]
  cases sweep with
  | pause => exact Or.inl hafter
  | resume | resumeToShutdown => exact absurd rfl h
  | terminate | shutdown | destroy => exact Or.inr hafter

theorem Halted.close (h : s.Halted) (hi : s.Inv) {c : Fin m} {sweep : Sweep}
    (hu : s.users = .exclusive c (.signalling sweep [])) : (s.close c sweep).Halted ∧ HaltedStep s (s.close c sweep) := by
  have hphase := hi.phase
  rw [hu] at hphase
  cases hphase with
  | closing toJoin => cases toJoin
  | signalling status =>
    have hwoken : ∀ i < s.size, ¬(s.wakeAll.workers i).status.Live := by
      intro i hlt
      rw [wakeAll, WorkerThread.wake_status]
      exact h.workers i hlt
    cases sweep with
    | pause => exact ⟨⟨h.status, h.workers⟩, .rest rfl rfl rfl fun _ _ => .refl _⟩
    | resume | resumeToShutdown => exact absurd status h.running
    | terminate | shutdown | destroy =>
      exact ⟨⟨trivial, hwoken⟩, .rest rfl rfl rfl fun i _ => s.wakeAll_looks i⟩

/-- The pool stays halted. -/
theorem Halted.step (h : s.Halted) (hi : s.Inv) (ha : s.Held a) (hs : s.step a = some s') :
    s'.Halted ∧ HaltedStep s s' := by
  have hphase := hi.phase
  -- only `wait` is inside a halted pool
  have hfits : ∀ {readers removal}, s.users = .shared readers removal → ∀ c, (readers c).Fits s.status := by
    intro readers removal hu c
    rw [hu] at hphase
    exact hphase.fits c
  cases step_stepped hs with
  | @worker a i w lt hw =>
    have hkeeps := hw.moved.keeps.not_live (h.workers i lt)
    exact ⟨⟨h.status, setWorker_not_live h hkeeps⟩,
      .rest rfl rfl rfl fun j _ => setWorker_looks (hw.looks (h.workers i lt)) j⟩
  | @take i task rest lt point queue =>
    have hworkers := setWorker_not_live (i := i) (w := { s.workers i with point := .running task }) h (h.workers i lt)
    exact ⟨⟨h.status, hworkers⟩, .take lt point queue⟩
  | @finish i task lt point =>
    have hworkers := setWorker_not_live (i := i) (w := { s.workers i with point := .check .outer }) h (h.workers i lt)
    refine ⟨⟨h.status, hworkers⟩, .rest rfl rfl rfl fun j _ => ?_⟩
    refine setWorker_looks (w := { s.workers i with point := .check .outer }) ?_ j
    rw [point]
    exact Or.inl rfl
  | refuse | read | write =>
    exact ⟨⟨h.status, h.workers⟩, .rest rfl rfl rfl fun _ _ => .refl _⟩
  | @push c readers removal task users old =>
    have hrunning := hfits users c
    rw [old] at hrunning
    exact absurd hrunning h.running
  | @notify c sleeper readers removal users old =>
    have hrunning := hfits users c
    rw [old] at hrunning
    exact absurd hrunning h.running
  | addThread users status | removeThread users old status =>
    have hnot : ¬resizable s.status := by
      cases hst : s.status
      · decide
      · decide
      · exact absurd hst h.running
      · decide
      · exact absurd hst h.shutdown
    exact absurd status hnot
  | @enter c call status writer readers users alone entry =>
    rw [users] at hphase
    have hhalted : status.Halts := by
      cases hphase with
      | serving stable =>
        rcases stable with hst | hst | hst
        · exact absurd hst h.running
        · cases call <;> simp only [hst, PoolCall.entry, reduceCtorEq, Option.some.injEq, Prod.mk.injEq] at entry
          case resume | shutdown => exact ha.elim
          case terminate | destroy =>
            obtain ⟨rfl, -⟩ := entry
            trivial
        · cases call <;> simp only [hst, PoolCall.entry, reduceCtorEq, Option.some.injEq, Prod.mk.injEq] at entry
          case destroy =>
            obtain ⟨rfl, -⟩ := entry
            trivial
    exact ⟨⟨hhalted, h.workers⟩, .rest rfl rfl rfl fun _ _ => .refl _⟩
  | drained users =>
    rw [users] at hphase
    cases hphase with
    | draining status => exact absurd status h.shutdown
    | closing toJoin => cases toJoin
  | @signal c sweep i left users =>
    rw [users] at hphase
    cases hphase with
    | closing toJoin => cases toJoin
    | signalling status within nodup before =>
      have hlive := Sweep.not_live (status ▸ h.running) (before i List.mem_cons_self)
      have hpoint := (WorkerThread.signal_signalled sweep (s.workers i)).point
      exact ⟨⟨h.status, setWorker_not_live h hlive⟩,
        .rest rfl rfl rfl fun j _ => setWorker_looks (Or.inl (congrArg _ hpoint)) j⟩
  | close users => exact h.close hi users
  | endWorker users =>
    rw [(hi.endWorker users).1]
    exact ⟨⟨h.status, h.workers⟩, .rest rfl rfl rfl fun _ _ => .refl _⟩
  | remove users =>
    rw [users] at hphase
    cases hphase with
    | removing running => exact absurd running h.running

/-- What happened since the pool was in the state `s₀`: as long as there are tasks, each worker that no longer looks
for one has taken one. -/
structure Since (s₀ s : ThreadPool m τ) (taken : List τ) : Prop where
  started : s.started = s₀.started ++ taken
  queue : s₀.taskQueue = taken ++ s.taskQueue
  le : taken.length + s.about ≤ s₀.about
  eq : s.taskQueue ≠ [] → taken.length + s.about = s₀.about

theorem Since.refl (s : ThreadPool m τ) : Since s s [] :=
  ⟨(List.append_nil _).symm, rfl, by simp, fun _ => by simp⟩

theorem Since.step {taken : List τ} (h : Since s₀ s taken) (hs : HaltedStep s s') : ∃ taken', Since s₀ s' taken' := by
  cases hs with
  | rest size queue started points =>
    refine ⟨taken, started.trans h.started, queue ▸ h.queue, ?_, fun hne => ?_⟩
    · have hle : s'.about ≤ s.about := by
        rw [about, total, size]
        refine Finset.sum_le_sum fun i hi => ?_
        rcases points i (Finset.mem_range.mp hi) with he | ⟨_, he⟩ <;> rw [he]
        exact Nat.zero_le _
      exact (Nat.add_le_add_left hle _).trans h.le
    · rw [queue] at hne
      have hsame : s'.about = s.about :=
        total_same size fun i hi => (points i hi).resolve_right fun hq => hne hq.1
      rw [hsame]
      exact h.eq hne
  | @take i task rest users lt point queue =>
    have htotal := total_setWorker (fun w => w.point.about) lt { s.workers i with point := .running task }
    rw [point] at htotal
    change (s.setWorker i _).about + 1 = s.about + 0 at htotal
    have hnext : taken.length + 1 + (s.setWorker i { s.workers i with point := .running task }).about = s₀.about := by
      have heq := h.eq (by simp [queue])
      omega
    refine ⟨taken ++ [task], ?_, ?_, ?_, fun _ => ?_⟩
    · rw [h.started, List.append_assoc]
    · rw [h.queue, queue, List.append_assoc, List.singleton_append]
    · rw [List.length_append, List.length_singleton]
      exact Nat.le_of_eq hnext
    · rw [List.length_append, List.length_singleton]
      exact hnext

theorem exec_since (hi : s.Inv) (h : s.Halted) (bs : List (ThreadPoolAct m τ)) (hbs : Along step Held s bs) :
    ∃ taken, Since s (exec step s bs) taken := by
  have hall : ∀ t a t', (t.Inv ∧ t.Halted ∧ ∃ taken, Since s t taken) → t.Held a → step t a = some t' →
      t'.Inv ∧ t'.Halted ∧ ∃ taken, Since s t' taken := by
    rintro t a t' ⟨hinv, hhalted, taken, hsince⟩ ha hs
    obtain ⟨hhalted', hstep⟩ := hhalted.step hinv ha hs
    exact ⟨Inv.step hinv hs, hhalted', hsince.step hstep⟩
  exact (exec_invariant hall bs ⟨hi, h, [], .refl s⟩ hbs).2.2

/-- A worker that is about to look for a task when the pool is paused or terminated takes one if there is one, and
no other worker starts any until the pool is resumed: once no worker looks any more, the first tasks of the queue
have been started, one for each of these workers, and the others are still there. -/
theorem started_after_halt (n max : Nat) (as bs : List (ThreadPoolAct m τ)) {readers : Fin m → Reader τ}
    {removal : Option (Fin m × Nat × Removal)} (hu : (exec step (start m τ n max) as).users = .shared readers removal)
    (hs : (exec step (start m τ n max) as).status ≠ .running)
    (hbs : Along step Held (exec step (start m τ n max) as) bs) :
    let s := exec step (start m τ n max) as
    let s' := exec step s bs
    s'.accepted = s.accepted ∧ ∃ taken, s'.started = s.started ++ taken ∧ s.taskQueue = taken ++ s'.taskQueue ∧
      taken.length ≤ s.about ∧ (s'.about = 0 → taken.length = min s.about s.taskQueue.length) := by
  intro s s'
  have hinv : s.Inv := exec_inv n max as
  obtain ⟨taken, hsince⟩ := exec_since hinv (hinv.halted hu hs) bs hbs
  refine ⟨?_, taken, hsince.started, hsince.queue, Nat.le_of_add_right_le hsince.le, fun hnone => ?_⟩
  · have hqueue' : s'.accepted = s'.started ++ s'.taskQueue := by
      rw [show s' = exec step (start m τ n max) (as ++ bs) from (exec_append _ as bs).symm]
      exact (exec_account n max (as ++ bs)).queue
    rw [hqueue', hsince.started, List.append_assoc, ← hsince.queue]
    exact (exec_account n max as).queue.symm
  · have hlength := congrArg List.length hsince.queue
    rw [List.length_append] at hlength
    have hle : taken.length + s'.about ≤ s.about := hsince.le
    rcases List.eq_nil_or_concat s'.taskQueue with hq | ⟨rest, task, hq⟩
    · rw [hq, List.length_nil] at hlength
      omega
    · have heq : taken.length + s'.about = s.about := hsince.eq (by rw [show _ = s'.taskQueue from rfl, hq]; simp)
      omega

/-- `pause` finds a worker between its switch and the queue, and one that has a task. -/
def pauseBusy : List (ThreadPoolAct 1 Nat) :=
  [.call caller (.submit 7), .count caller, .push caller, .notifyOne caller none, .call caller (.submit 8),
    .count caller, .push caller, .notifyOne caller none, .call caller (.submit 9), .count caller, .push caller,
    .notifyOne caller none, .check 0, .lock 0, .test 0, .check 1, .call caller .pause, .write, .write, .write]

def afterPause : List (ThreadPoolAct 1 Nat) := [.lock 1, .test 1, .finish 0, .check 0]

instance decidableHeld (s : ThreadPool m τ) : DecidablePred s.Held
  | .call _ call => match call with
    | .resume | .shutdown => isFalse id
    | .submit _ | .pause | .terminate | .destroy | .wait | .addThread _ | .removeThread _ => isTrue trivial
  | .check _ | .acquire _ | .lock _ | .test _ | .sleep _ | .wakeSpurious _ | .finish _ | .count _ | .push _
  | .notifyOne _ _ | .drain _ | .drainSpurious _ | .write | .writeSpurious | .remove => isTrue trivial

theorem started_after_pauseBusy :
    let s := exec step (start 1 Nat 2 0) pauseBusy
    let s' := exec step s afterPause
    s.about = 1 ∧ s.taskQueue = [8, 9] ∧ s'.about = 0 ∧
      ∃ taken, s'.started = s.started ++ taken ∧ s.taskQueue = taken ++ s'.taskQueue ∧
        taken.length = min s.about s.taskQueue.length := by
  obtain ⟨-, taken, hstarted, hqueue, -, hlength⟩ :=
    started_after_halt 2 0 pauseBusy afterPause rfl (by decide) (by decide)
  exact ⟨rfl, rfl, rfl, taken, hstarted, hqueue, hlength rfl⟩

/-- Thread `c` is in `wait`. -/
def Waits (s : ThreadPool m τ) (c : Fin m) : Prop :=
  ∃ readers removal asleep, s.users = .shared readers removal ∧ readers c = .waiting asleep

theorem Waits.setReader {readers : Fin m → Reader τ} {removal : Option (Fin m × Nat × Removal)}
    {c d : Fin m} {r : Reader τ} {asleep : Bool} (hc : readers c = .waiting asleep)
    (hr : d = c → ∃ asleep, r = .waiting asleep) : (s.setReader readers removal d r).Waits c := by
  by_cases hd : c = d
  · obtain ⟨asleep', rfl⟩ := hr hd.symm
    exact ⟨_, _, asleep', rfl, by rw [hd, Function.update_self]⟩
  · exact ⟨_, _, asleep, rfl, by rw [Function.update_of_ne hd, hc]⟩

/-- While there are tasks, a thread in `wait` stays there, and nobody owns `status_mutex`. -/
theorem Waits.step {c : Fin m} (h : s.Waits c) (hi : s.Inv) (hqueue : s.taskQueue ≠ [])
    (hstatus : s.status = .paused) (hs : s.step a = some s') : s'.Waits c ∧ s'.status = .paused := by
  obtain ⟨readers, removal, asleep, hu, hc⟩ := h
  cases step_stepped hs with
  | worker | finish | refuse | addThread => exact ⟨⟨readers, removal, asleep, hu, hc⟩, hstatus⟩
  | @take i task rest =>
    refine ⟨?_, hstatus⟩
    by_cases hr : rest.isEmpty
    · refine ⟨fun d => (readers d).wake, removal, false, ?_, congrArg Reader.wake hc⟩
      dsimp only
      rw [if_pos hr, hu]
      rfl
    · refine ⟨readers, removal, asleep, ?_, hc⟩
      dsimp only
      rw [if_neg hr, hu]
  | @read a d readers' removal' old new users old_eq hr =>
    cases hu.symm.trans users
    refine ⟨Waits.setReader hc fun hd => ?_, hstatus⟩
    have hold := old_eq.symm.trans (hd ▸ hc)
    cases hr with
    | drained queue => exact absurd queue hqueue
    | drain => exact ⟨true, rfl⟩
    | spurious => exact ⟨false, rfl⟩
    | submit | wait | full | count => cases hold
  | @push d readers' removal' task users old =>
    cases hu.symm.trans users
    refine ⟨Waits.setReader (s := s) hc fun hd => ?_, hstatus⟩
    cases old.symm.trans (hd ▸ hc)
  | @notify d sleeper readers' removal' users old =>
    cases hu.symm.trans users
    refine ⟨Waits.setReader hc fun hd => ?_, by cases sleeper <;> exact hstatus⟩
    cases old.symm.trans (hd ▸ hc)
  | @removeThread d count keep readers' users old =>
    cases hu.symm.trans users
    refine ⟨Waits.setReader hc fun hd => ?_, hstatus⟩
    cases old.symm.trans (hd ▸ hc)
  | enter users alone =>
    cases hu.symm.trans users
    cases hc.symm.trans (alone c)
  | write users | drained users | signal users | close users | endWorker users => cases hu.symm.trans users
  | remove users =>
    have hphase := hi.phase
    rw [users] at hphase
    cases hphase with
    | removing running => cases hstatus.symm.trans running

theorem Waits.held {c : Fin m} (h : s.Waits c) (hs : s.step a = some s') : s.Held a := by
  obtain ⟨readers, removal, asleep, hu, hc⟩ := h
  have halone : ¬Alone readers removal := fun hidle => nomatch hc.symm.trans (hidle.1 c)
  cases a with
  | call d call =>
    cases call with
    | resume | shutdown => simp [ThreadPool.step, hu, read, enter, halone] at hs
    | submit | pause | terminate | wait | addThread | removeThread | destroy => trivial
  | check | acquire | lock | test | sleep | wakeSpurious | finish | count | push | notifyOne | drain | drainSpurious
  | write | writeSpurious | remove => trivial

/-- A thread waits for a paused pool with more tasks than workers that still take one. -/
structure Blocked (s₀ : ThreadPool m τ) (c : Fin m) (s : ThreadPool m τ) : Prop where
  inv : s.Inv
  halted : s.Halted
  since : ∃ taken, Since s₀ s taken
  waits : s.Waits c
  status : s.status = .paused

theorem Blocked.start (hi : s.Inv) {c : Fin m} (h : s.Waits c) (hstatus : s.status = .paused) : Blocked s c s := by
  refine ⟨hi, ?_, ⟨[], .refl s⟩, h, hstatus⟩
  obtain ⟨readers, removal, asleep, hu, hc⟩ := h
  exact hi.halted hu (by simp [hstatus])

theorem Blocked.step {c : Fin m} (h : Blocked s₀ c s) (hqueue : s₀.about < s₀.taskQueue.length)
    (hs : s.step a = some s') : Blocked s₀ c s' := by
  obtain ⟨taken, hsince⟩ := h.since
  have hne : s.taskQueue ≠ [] := by
    intro hq
    have hlength := congrArg List.length hsince.queue
    rw [hq, List.append_nil] at hlength
    have hle := hsince.le
    omega
  obtain ⟨hhalted, hstep⟩ := h.halted.step h.inv (h.waits.held hs) hs
  obtain ⟨hwaits, hstatus⟩ := h.waits.step h.inv hne h.status hs
  exact ⟨h.inv.step hs, hhalted, hsince.step hstep, hwaits, hstatus⟩

end ThreadPool

end KVStorage

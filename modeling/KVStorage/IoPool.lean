import KVStorage.Library.Runs
import Mathlib.Logic.Function.Basic

/-!
# The IO thread pool

`IOThreadPool` with any number of workers: worker `i` serves queue `i` under
`queueMutexes[i]`, and all of them sleep on one condition variable. A step is one
critical section, or one thing that happens on the condition variable. A worker holds
its mutex from the test of its predicate until it sleeps or has taken its task.
-/

namespace KVStorage

set_option autoImplicit false

open Runs

universe u

/-- A thread of the pool, by what it does next. -/
inductive IOThread (τ : Type u) where
  /-- It locks its mutex and tests the predicate. -/
  | ready
  /-- The predicate was false: it goes to sleep. -/
  | waiting
  | asleep
  /-- A wake-up is on its way. -/
  | woken
  /-- The predicate was true: it exits or takes a task. -/
  | passed
  | running (task : τ)
  | exited

/-- `~IOThreadPool`, by what it has done. -/
inductive Destructor where
  | uncalled
  | stopped
  | notified
  | returned
  deriving DecidableEq

structure IOThreadPool (n : Nat) (τ : Type u) where
  workers : Fin n → IOThread τ
  tasks : Nat → List τ
  stop : Bool
  /-- The queues of the submits that have pushed and not yet called `notify_one`. -/
  notifies : List Nat
  destructor : Destructor

inductive PoolAct (n : Nat) (τ : Type u) where
  | submit (block : Nat) (task : τ)
  /-- The `notify_one` of a submit, with the sleeper it wakes, if there is one. -/
  | notifyOne (block : Nat) (sleeper : Option (Fin n))
  | test (worker : Fin n)
  | sleep (worker : Fin n)
  | spurious (worker : Fin n)
  | take (worker : Fin n)
  | finish (worker : Fin n)
  | setStop
  | notifyAll
  | join

namespace IOThread

variable {τ : Type u}

/-- The thread holds its mutex. -/
def Locks : IOThread τ → Prop
  | waiting | passed => True
  | _ => False

instance decidableLocks : DecidablePred (Locks (τ := τ))
  | .ready | .asleep | .woken | .running _ | .exited => isFalse id
  | .waiting | .passed => isTrue trivial

instance decidableAsleep : DecidablePred fun t : IOThread τ => t = asleep
  | .asleep => isTrue rfl
  | .ready | .waiting | .woken | .passed | .running _ | .exited => isFalse nofun

instance decidableExited : DecidablePred fun t : IOThread τ => t = exited
  | .exited => isTrue rfl
  | .ready | .waiting | .asleep | .woken | .passed | .running _ => isFalse nofun

def wake : IOThread τ → IOThread τ
  | asleep => woken
  | t => t

@[simp] theorem wake_eq_asleep (t : IOThread τ) : t.wake ≠ asleep := by
  cases t <;> simp [wake]

theorem wake_eq_waiting (t : IOThread τ) : t.wake = waiting ↔ t = waiting := by
  cases t <;> simp [wake]

end IOThread

namespace IOThreadPool

variable {n : Nat} {τ : Type u}

/-- `IOThreadPool(numThreads)`. -/
def start (n : Nat) (τ : Type u) : IOThreadPool n τ :=
  ⟨fun _ => .ready, fun _ => [], false, [], .uncalled⟩

def setWorker (s : IOThreadPool n τ) (i : Fin n) (t : IOThread τ) : IOThreadPool n τ :=
  { s with workers := Function.update s.workers i t }

@[simp] theorem setWorker_tasks (s : IOThreadPool n τ) (i : Fin n) (t : IOThread τ) :
    (s.setWorker i t).tasks = s.tasks := rfl

@[simp] theorem setWorker_stop (s : IOThreadPool n τ) (i : Fin n) (t : IOThread τ) :
    (s.setWorker i t).stop = s.stop := rfl

@[simp] theorem setWorker_notifies (s : IOThreadPool n τ) (i : Fin n) (t : IOThread τ) :
    (s.setWorker i t).notifies = s.notifies := rfl

@[simp] theorem setWorker_destructor (s : IOThreadPool n τ) (i : Fin n) (t : IOThread τ) :
    (s.setWorker i t).destructor = s.destructor := rfl

theorem setWorker_self (s : IOThreadPool n τ) (i : Fin n) (t : IOThread τ) :
    (s.setWorker i t).workers i = t := by
  simp [setWorker]

theorem setWorker_of_ne (s : IOThreadPool n τ) {i j : Fin n} (t : IOThread τ) (h : j ≠ i) :
    (s.setWorker i t).workers j = s.workers j := by
  simp [setWorker, h]

/-- `queueMutexes[block]` is free; beside its worker only whole steps hold it. -/
def Free (s : IOThreadPool n τ) (block : Nat) : Prop := ∀ i : Fin n, i = block → ¬ (s.workers i).Locks

instance decidableFree (s : IOThreadPool n τ) (block : Nat) : Decidable (s.Free block) :=
  inferInstanceAs (Decidable (∀ _ : Fin n, _ → _))

/-- What `notify_one` may wake: any sleeper, and nobody only when nobody sleeps. -/
def Wakes (s : IOThreadPool n τ) : Option (Fin n) → Prop
  | some i => s.workers i = .asleep
  | none => ∀ i, s.workers i ≠ .asleep

instance decidableWakes (s : IOThreadPool n τ) : DecidablePred s.Wakes
  | some i => inferInstanceAs (Decidable (s.workers i = .asleep))
  | none => inferInstanceAs (Decidable (∀ i, s.workers i ≠ .asleep))

def wake (s : IOThreadPool n τ) : Option (Fin n) → IOThreadPool n τ
  | some i => s.setWorker i .woken
  | none => s

/-- `stop || !tasks[blockNumber].empty()`. -/
def predicate (s : IOThreadPool n τ) (i : Fin n) : Bool := s.stop || !(s.tasks i).isEmpty

def step (s : IOThreadPool n τ) : PoolAct n τ → Option (IOThreadPool n τ)
  | .submit block task =>
    if s.Free block then
      some { s with tasks := Function.update s.tasks block (s.tasks block ++ [task]),
                    notifies := block :: s.notifies }
    else none
  | .notifyOne block sleeper =>
    if block ∈ s.notifies ∧ s.Wakes sleeper then
      some { s.wake sleeper with notifies := s.notifies.erase block }
    else none
  | .test i =>
    match s.workers i with
    | .ready | .woken => some (s.setWorker i (if s.predicate i then .passed else .waiting))
    | _ => none
  | .sleep i =>
    match s.workers i with
    | .waiting => some (s.setWorker i .asleep)
    | _ => none
  | .spurious i =>
    match s.workers i with
    | .asleep => some (s.setWorker i .woken)
    | _ => none
  | .take i =>
    match s.workers i with
    | .passed =>
      if s.stop && (s.tasks i).isEmpty then some (s.setWorker i .exited)
      else
        match s.tasks i with
        | task :: rest =>
          some { s.setWorker i (.running task) with tasks := Function.update s.tasks i rest }
        -- `front()` of an empty queue
        | [] => none
    | _ => none
  | .finish i =>
    match s.workers i with
    | .running _ => some (s.setWorker i .ready)
    | _ => none
  | .setStop =>
    if s.destructor = .uncalled ∧ s.Free 0 then some { s with stop := true, destructor := .stopped }
    else none
  | .notifyAll =>
    if s.destructor = .stopped then
      some { s with workers := fun i => (s.workers i).wake, destructor := .notified }
    else none
  | .join =>
    if s.destructor = .notified ∧ ∀ i, s.workers i = .exited then some { s with destructor := .returned }
    else none

/-- A notify call is still to come. -/
def Pending (s : IOThreadPool n τ) : Prop := s.notifies ≠ [] ∨ s.destructor = .stopped

instance decidablePending (s : IOThreadPool n τ) : Decidable s.Pending :=
  inferInstanceAs (Decidable (_ ∨ _))

/-- A worker asleep with no notify call to come has nothing to do. -/
def NoLostWakeup (s : IOThreadPool n τ) : Prop :=
  ¬ s.Pending → ∀ i, s.workers i = .asleep → s.stop = false ∧ s.tasks i = []

/-- The last notify call to come reaches all it must: the sleepers it does not wake
have nothing to do, and with `stop` set no worker is on its way to sleep. -/
def Reaches (s : IOThreadPool n τ) : PoolAct n τ → Prop
  | .notifyOne block sleeper =>
    s.notifies.erase block = [] → s.destructor ≠ .stopped →
      (∀ i, s.workers i = .asleep → sleeper ≠ some i → s.stop = false ∧ s.tasks i = []) ∧
      (s.stop = true → ∀ i, s.workers i ≠ .waiting)
  | .notifyAll => s.notifies = [] → ∀ i : Fin n, (i : Nat) ≠ 0 → s.workers i ≠ .waiting
  | _ => True

variable {s s' : IOThreadPool n τ}

/-- What a step that is taken does. -/
inductive Stepped (s : IOThreadPool n τ) : PoolAct n τ → IOThreadPool n τ → Prop where
  | submit {block : Nat} {task : τ} (free : s.Free block) :
      Stepped s (.submit block task)
        { s with tasks := Function.update s.tasks block (s.tasks block ++ [task]),
                 notifies := block :: s.notifies }
  | notifyOne {block : Nat} {sleeper : Option (Fin n)} (wakes : s.Wakes sleeper) :
      Stepped s (.notifyOne block sleeper) { s.wake sleeper with notifies := s.notifies.erase block }
  | test {i : Fin n} (worker : s.workers i = .ready ∨ s.workers i = .woken) :
      Stepped s (.test i) (s.setWorker i (if s.predicate i then .passed else .waiting))
  | sleep {i : Fin n} (worker : s.workers i = .waiting) : Stepped s (.sleep i) (s.setWorker i .asleep)
  | spurious {i : Fin n} (worker : s.workers i = .asleep) : Stepped s (.spurious i) (s.setWorker i .woken)
  | exit {i : Fin n} (worker : s.workers i = .passed) (stop : s.stop = true) (tasks : s.tasks i = []) :
      Stepped s (.take i) (s.setWorker i .exited)
  | pop {i : Fin n} {task : τ} {rest : List τ} (worker : s.workers i = .passed) (tasks : s.tasks i = task :: rest) :
      Stepped s (.take i) { s.setWorker i (.running task) with tasks := Function.update s.tasks i rest }
  | finish {i : Fin n} {task : τ} (worker : s.workers i = .running task) :
      Stepped s (.finish i) (s.setWorker i .ready)
  | setStop (free : s.Free 0) : Stepped s .setStop { s with stop := true, destructor := .stopped }
  | notifyAll (stopped : s.destructor = .stopped) :
      Stepped s .notifyAll { s with workers := fun i => (s.workers i).wake, destructor := .notified }
  | join (notified : s.destructor = .notified) (exited : ∀ i, s.workers i = .exited) :
      Stepped s .join { s with destructor := .returned }

theorem step_take {i : Fin n} (h : s.step (.take i) = some s') : s.Stepped (.take i) s' := by
  rw [step] at h
  split at h
  case h_2 => cases h
  case h_1 hi =>
    split at h
    case isTrue he =>
      rw [Bool.and_eq_true, List.isEmpty_iff] at he
      exact Option.some.inj h ▸ .exit hi he.1 he.2
    case isFalse =>
      split at h
      case h_1 task rest ht => exact Option.some.inj h ▸ .pop hi ht
      case h_2 => cases h

theorem step_cases {a : PoolAct n τ} (h : s.step a = some s') : s.Stepped a s' := by
  cases a with
  | submit block task =>
    obtain ⟨hf, hs'⟩ := Option.ite_none_right_eq_some.mp h
    exact Option.some.inj hs' ▸ .submit hf
  | notifyOne block sleeper =>
    obtain ⟨⟨_, hw⟩, hs'⟩ := Option.ite_none_right_eq_some.mp h
    exact Option.some.inj hs' ▸ .notifyOne hw
  | test i =>
    rw [step] at h
    split at h
    case h_1 hi => exact Option.some.inj h ▸ .test (Or.inl hi)
    case h_2 hi => exact Option.some.inj h ▸ .test (Or.inr hi)
    case h_3 => cases h
  | sleep i =>
    rw [step] at h
    split at h
    case h_1 hi => exact Option.some.inj h ▸ .sleep hi
    case h_2 => cases h
  | spurious i =>
    rw [step] at h
    split at h
    case h_1 hi => exact Option.some.inj h ▸ .spurious hi
    case h_2 => cases h
  | take i => exact step_take h
  | finish i =>
    rw [step] at h
    split at h
    case h_1 task hi => exact Option.some.inj h ▸ .finish hi
    case h_2 => cases h
  | setStop =>
    obtain ⟨⟨_, hf⟩, hs'⟩ := Option.ite_none_right_eq_some.mp h
    exact Option.some.inj hs' ▸ .setStop hf
  | notifyAll =>
    obtain ⟨hd, hs'⟩ := Option.ite_none_right_eq_some.mp h
    exact Option.some.inj hs' ▸ .notifyAll hd
  | join =>
    obtain ⟨⟨hd, hexit⟩, hs'⟩ := Option.ite_none_right_eq_some.mp h
    exact Option.some.inj hs' ▸ .join hd hexit

/-- What keeps wake-ups from getting lost, as long as the last notify call reaches all. -/
structure Inv (s : IOThreadPool n τ) : Prop where
  empty : ∀ i, s.workers i = .waiting → s.tasks i = []
  /-- The destructor sets `stop` under the mutex of worker 0. -/
  first : s.stop = true → ∀ i : Fin n, (i : Nat) = 0 → s.workers i ≠ .waiting
  heard : s.NoLostWakeup
  awake : ¬ s.Pending → s.stop = true → ∀ i, s.workers i ≠ .waiting

theorem inv_start : (start n τ).Inv where
  empty _ h := nomatch h
  first h := nomatch h
  heard _ _ h := nomatch h
  awake _ h := nomatch h

theorem not_locks_iff (t : IOThread τ) : ¬ t.Locks → t ≠ .waiting := by
  rintro h rfl
  exact h trivial

/-- A worker moves on, to its sleep only when it has nothing to do. -/
theorem Inv.setWorker (h : s.Inv) (i : Fin n) {t : IOThread τ}
    (hw : t = .waiting → s.stop = false ∧ s.tasks i = [])
    (ha : t = .asleep → ¬ s.Pending → s.stop = false ∧ s.tasks i = []) : (s.setWorker i t).Inv where
  empty j hj := by
    by_cases he : j = i
    · subst he
      rw [setWorker_self] at hj
      exact (hw hj).2
    · rw [setWorker_of_ne s t he] at hj
      exact h.empty j hj
  first hs j h0 hj := by
    by_cases he : j = i
    · subst he
      rw [setWorker_self] at hj
      exact Bool.false_ne_true ((hw hj).1.symm.trans hs)
    · rw [setWorker_of_ne s t he] at hj
      exact h.first hs j h0 hj
  heard hp j hj := by
    by_cases he : j = i
    · subst he
      rw [setWorker_self] at hj
      exact ha hj hp
    · rw [setWorker_of_ne s t he] at hj
      exact h.heard hp j hj
  awake hp hs j hj := by
    by_cases he : j = i
    · subst he
      rw [setWorker_self] at hj
      exact Bool.false_ne_true ((hw hj).1.symm.trans hs)
    · rw [setWorker_of_ne s t he] at hj
      exact h.awake hp hs j hj

theorem predicate_false {i : Fin n} (h : s.predicate i = false) : s.stop = false ∧ s.tasks i = [] := by
  rw [predicate, Bool.or_eq_false_iff, Bool.not_eq_false', List.isEmpty_iff] at h
  exact h

theorem Inv.test (h : s.Inv) (i : Fin n) :
    (s.setWorker i (if s.predicate i then .passed else .waiting)).Inv := by
  cases hp : s.predicate i with
  | true => exact h.setWorker i nofun nofun
  | false => exact h.setWorker i (fun _ => predicate_false hp) nofun

theorem Inv.sleep (h : s.Inv) {i : Fin n} (hi : s.workers i = .waiting) : (s.setWorker i .asleep).Inv := by
  apply h.setWorker i (t := .asleep) nofun
  intro _ hp
  refine ⟨?_, h.empty i hi⟩
  cases hs : s.stop with
  | false => rfl
  | true => exact absurd hi (h.awake hp hs i)

theorem Inv.pop (h : s.Inv) {i : Fin n} {task : τ} {rest : List τ} (ht : s.tasks i = task :: rest) :
    Inv { s.setWorker i (.running task) with tasks := Function.update s.tasks i rest } := by
  have hrun : (s.setWorker i (.running task)).Inv := h.setWorker i nofun nofun
  -- a worker with nothing to do serves another queue
  have hne : ∀ j : Fin n, s.tasks j = [] → (Function.update s.tasks i rest) j = [] := by
    intro j hj
    rw [Function.update_of_ne _, hj]
    intro he
    rw [he, ht] at hj
    exact List.cons_ne_nil _ _ hj
  exact
    { empty := fun j hj => hne j (hrun.empty j hj)
      first := hrun.first
      heard := fun hp j hj => ⟨(hrun.heard hp j hj).1, hne j (hrun.heard hp j hj).2⟩
      awake := hrun.awake }

theorem Inv.submit (h : s.Inv) {block : Nat} (task : τ) (hf : s.Free block) :
    Inv { s with tasks := Function.update s.tasks block (s.tasks block ++ [task]),
                 notifies := block :: s.notifies } where
  empty i hi := by
    have hne : (i : Nat) ≠ block := fun he => not_locks_iff _ (hf i he) hi
    exact (Function.update_of_ne hne _ s.tasks).trans (h.empty i hi)
  first := h.first
  heard hp := absurd (Or.inl (List.cons_ne_nil _ _)) hp
  awake hp := absurd (Or.inl (List.cons_ne_nil _ _)) hp

theorem Inv.notifyOne (h : s.Inv) {block : Nat} {sleeper : Option (Fin n)} (hw : s.Wakes sleeper)
    (hr : s.Reaches (.notifyOne block sleeper)) :
    Inv { s.wake sleeper with notifies := s.notifies.erase block } := by
  have hlast : ¬ Pending { s.wake sleeper with notifies := s.notifies.erase block } →
      s.notifies.erase block = [] ∧ s.destructor ≠ .stopped := by
    intro hp
    rw [Pending, not_or, not_not] at hp
    cases sleeper <;> exact hp
  cases sleeper with
  | none =>
    exact
      { empty := h.empty
        first := h.first
        heard := fun _ i hi => absurd hi (hw i)
        awake := fun hp => (hr (hlast hp).1 (hlast hp).2).2 }
  | some j =>
    have hj : (s.setWorker j .woken).Inv := h.setWorker j nofun nofun
    refine { empty := hj.empty, first := hj.first, heard := ?_, awake := ?_ }
    · intro hp i hi
      have hne : i ≠ j := by
        rintro rfl
        rw [show (s.wake (some i)).workers i = .woken from setWorker_self s i _] at hi
        cases hi
      rw [show (s.wake (some j)).workers i = s.workers i from setWorker_of_ne s _ hne] at hi
      exact (hr (hlast hp).1 (hlast hp).2).1 i hi fun he => hne (Option.some.inj he).symm
    · intro hp hs i hi
      by_cases he : i = j
      · subst he
        rw [show (s.wake (some i)).workers i = .woken from setWorker_self s i _] at hi
        cases hi
      · rw [show (s.wake (some j)).workers i = s.workers i from setWorker_of_ne s _ he] at hi
        exact (hr (hlast hp).1 (hlast hp).2).2 hs i hi

theorem Inv.setStop (h : s.Inv) (hf : s.Free 0) :
    Inv { s with stop := true, destructor := .stopped } where
  empty := h.empty
  first _ i h0 := not_locks_iff _ (hf i h0)
  heard hp := absurd (Or.inr rfl) hp
  awake hp := absurd (Or.inr rfl) hp

theorem Inv.notifyAll (h : s.Inv) (hr : s.Reaches .notifyAll) :
    Inv { s with workers := fun i => (s.workers i).wake, destructor := .notified } where
  empty i hi := h.empty i ((IOThread.wake_eq_waiting _).mp hi)
  first hs i h0 hi := h.first hs i h0 ((IOThread.wake_eq_waiting _).mp hi)
  heard _ i hi := absurd hi (IOThread.wake_eq_asleep _)
  awake hp hs i hi := by
    have hi' := (IOThread.wake_eq_waiting _).mp hi
    rw [Pending, not_or, not_not] at hp
    by_cases h0 : (i : Nat) = 0
    · exact h.first hs i h0 hi'
    · exact hr hp.1 i h0 hi'

theorem Inv.step (h : s.Inv) {a : PoolAct n τ} (hr : s.Reaches a) (hs : s.step a = some s') : s'.Inv := by
  cases step_cases hs with
  | submit hf => exact h.submit _ hf
  | notifyOne hw => exact h.notifyOne hw hr
  | test => exact h.test _
  | sleep hi => exact h.sleep hi
  | spurious | exit | finish => exact h.setWorker _ nofun nofun
  | pop _ ht => exact h.pop ht
  | setStop hf => exact h.setStop hf
  | notifyAll => exact h.notifyAll hr
  | join _ hexit =>
    exact
      { empty := h.empty
        first := h.first
        heard := fun _ i hi => nomatch (hexit i).symm.trans hi
        awake := fun _ _ i hi => nomatch (hexit i).symm.trans hi }

/-- A worker that goes to sleep when `stop` is set and no notify call is to come stays there. -/
theorem lost_of_sleep {i : Fin n} (hi : s.workers i = .waiting) (hs : s.stop = true) (hp : ¬ s.Pending) :
    ¬ (next IOThreadPool.step s (.sleep i)).NoLostWakeup := by
  have hstep : s.step (.sleep i) = some (s.setWorker i .asleep) := by
    rw [IOThreadPool.step, hi]
  rw [next_eq hstep]
  intro h
  exact Bool.false_ne_true ((h hp i (setWorker_self s i _)).1.symm.trans hs)

theorem wake_of_ne {sleeper : Option (Fin n)} {i : Fin n} (h : sleeper ≠ some i) :
    (s.wake sleeper).workers i = s.workers i := by
  cases sleeper with
  | none => rfl
  | some j => exact setWorker_of_ne s _ fun he => h (congrArg some he.symm)

theorem wake_stop (sleeper : Option (Fin n)) : (s.wake sleeper).stop = s.stop := by
  cases sleeper <;> rfl

theorem wake_tasks (sleeper : Option (Fin n)) : (s.wake sleeper).tasks = s.tasks := by
  cases sleeper <;> rfl

theorem wake_destructor (sleeper : Option (Fin n)) : (s.wake sleeper).destructor = s.destructor := by
  cases sleeper <;> rfl

theorem wake_waiting {sleeper : Option (Fin n)} {i : Fin n} (hw : s.Wakes sleeper)
    (hi : s.workers i = .waiting) : (s.wake sleeper).workers i = .waiting := by
  rw [wake_of_ne, hi]
  rintro rfl
  cases hi.symm.trans hw

/-- The destructor has been called only if `stop` is set. -/
def Stopped (s : IOThreadPool n τ) : Prop := s.destructor ≠ .uncalled → s.stop = true

theorem Stopped.step {a : PoolAct n τ} (h : s.Stopped) (hs : s.step a = some s') : s'.Stopped := by
  cases step_cases hs with
  | submit | test | sleep | spurious | exit | pop | finish => exact h
  | @notifyOne _ sleeper =>
    intro hd
    exact (wake_stop sleeper).trans (h ((wake_destructor sleeper).symm ▸ hd))
  | setStop => exact fun _ => rfl
  | notifyAll hd => exact fun _ => h (by simp [hd])
  | join hd => exact fun _ => h (by simp [hd])

/-- A last notify call that leaves somebody behind loses a wake-up, at once or when a
worker that was on its way to sleep is there. -/
theorem not_reaches {a : PoolAct n τ} (h : s.Stopped) (hr : ¬ s.Reaches a) (hs : s.step a = some s') :
    ¬ s'.NoLostWakeup ∨ ∃ i, ¬ (next IOThreadPool.step s' (.sleep i)).NoLostWakeup := by
  cases step_cases hs with
  | @notifyOne block sleeper hw =>
    simp only [Reaches, Classical.not_imp, not_and_or, not_forall, not_not] at hr
    obtain ⟨hn, hd, hr⟩ := hr
    have hp : ¬ Pending { s.wake sleeper with notifies := s.notifies.erase block } := by
      rw [Pending, not_or, not_not]
      exact ⟨hn, (wake_destructor sleeper).symm ▸ hd⟩
    rcases hr with ⟨i, hi, hne, hbusy⟩ | ⟨hstop, i, hi⟩
    · left
      intro hl
      obtain ⟨hstop, htasks⟩ := hl hp i ((wake_of_ne hne).trans hi)
      rcases hbusy with hb | hb
      · exact hb ((wake_stop sleeper).symm.trans hstop)
      · exact hb ((congrFun (wake_tasks sleeper) i).symm.trans htasks)
    · right
      exact ⟨i, lost_of_sleep (wake_waiting hw hi) ((wake_stop sleeper).trans hstop) hp⟩
  | notifyAll hd =>
    simp only [Reaches, Classical.not_imp, not_forall, not_not] at hr
    obtain ⟨hn, i, _, hi⟩ := hr
    right
    refine ⟨i, lost_of_sleep ?_ (h (by simp [hd])) ?_⟩
    · exact (IOThread.wake_eq_waiting _).mpr hi
    · rw [Pending, not_or, not_not]
      exact ⟨hn, nofun⟩
  | submit | test | sleep | spurious | exit | pop | finish | setStop | join => exact absurd trivial hr

theorem decides_lost : Decides step Reaches (Stopped : IOThreadPool n τ → Prop) Inv
    (fun s => s.NoLostWakeup ∧ ∀ i, (next step s (.sleep i)).NoLostWakeup) where
  sure _ _ _ h hs := h.step hs
  keeps _ _ _ h hr hs := h.step hr hs
  good _ h := ⟨h.heard, fun _ => (next_invariant (fun _ _ _ h hr hs => h.step hr hs) h fun _ => trivial).heard⟩
  needs _ _ _ h _ hs hgood := by
    by_contra hr
    rcases not_reaches h hr hs with hl | ⟨i, hl⟩
    · exact hl hgood.1
    · exact hl (hgood.2 i)

/-- No wake-up is lost in a run, or by a worker of it that goes to sleep next, exactly when
every last notify call of the run reaches all it must. -/
theorem no_lost_wakeup_iff (as : List (PoolAct n τ)) :
    (∀ bs, bs <+: as → (exec step (start n τ) bs).NoLostWakeup ∧
        ∀ i, (exec step (start n τ) (bs ++ [.sleep i])).NoLostWakeup) ↔
      Along step Reaches (start n τ) as := by
  simp only [exec_append]
  exact decides_lost.throughout_iff (fun hd => absurd rfl hd) inv_start as

/-- A `notify_one` wakes the worker of its own queue if that one sleeps; the pool is not destroyed. -/
def WakesOwn (s : IOThreadPool n τ) : PoolAct n τ → Prop
  | .notifyOne block sleeper => ∀ i : Fin n, (i : Nat) = block → s.workers i = .asleep → sleeper = some i
  | .setStop | .notifyAll => False
  | _ => True

/-- A sleeping worker with tasks is still to be notified. -/
structure Owed (s : IOThreadPool n τ) : Prop where
  stop : s.stop = false
  asleep : ∀ i, s.workers i = .asleep → s.tasks i ≠ [] → (i : Nat) ∈ s.notifies

theorem Owed.reaches (h : s.Owed) {a : PoolAct n τ} (ha : s.WakesOwn a) : s.Reaches a := by
  cases a with
  | notifyOne block sleeper =>
    intro hlast _
    refine ⟨?_, fun hstop => absurd (hstop.symm.trans h.stop) Bool.true_eq_false.mp⟩
    intro i hi hne
    refine ⟨h.stop, ?_⟩
    by_contra htasks
    have hmem := h.asleep i hi htasks
    have hblock : (i : Nat) ≠ block := fun he => hne (ha i he hi)
    rw [← List.mem_erase_of_ne hblock, hlast] at hmem
    cases hmem
  | notifyAll => exact ha.elim
  | submit | test | sleep | spurious | take | finish | setStop | join => trivial

theorem Owed.setWorker (h : s.Owed) (i : Fin n) {t : IOThread τ} (ht : t = .asleep → s.tasks i = []) :
    (s.setWorker i t).Owed where
  stop := h.stop
  asleep j hj htasks := by
    by_cases he : j = i
    · subst he
      rw [setWorker_self] at hj
      exact absurd (ht hj) htasks
    · rw [setWorker_of_ne s t he] at hj
      exact h.asleep j hj htasks

theorem Owed.step (h : s.Owed) (hi : s.Inv) {a : PoolAct n τ} (ha : s.WakesOwn a) (hs : s.step a = some s') :
    s'.Owed := by
  cases step_cases hs with
  | @submit block task _ =>
    refine ⟨h.stop, ?_⟩
    intro i hasleep htasks
    by_cases he : (i : Nat) = block
    · exact List.mem_cons.mpr (Or.inl he)
    · exact List.mem_cons_of_mem block (h.asleep i hasleep (Function.update_of_ne he _ s.tasks ▸ htasks))
  | @notifyOne block sleeper hw =>
    refine ⟨(wake_stop sleeper).trans h.stop, ?_⟩
    intro i hasleep htasks
    have hne : sleeper ≠ some i := by
      rintro rfl
      rw [show (s.wake (some i)).workers i = .woken from setWorker_self s i _] at hasleep
      cases hasleep
    rw [show (s.wake sleeper).workers i = s.workers i from wake_of_ne hne] at hasleep
    have hmem := h.asleep i hasleep (congrFun (wake_tasks sleeper) i ▸ htasks)
    exact (List.mem_erase_of_ne fun he => hne (ha i he hasleep)).mpr hmem
  | test =>
    apply h.setWorker
    split <;> exact nofun
  | sleep hw => exact h.setWorker _ fun _ => hi.empty _ hw
  | spurious | exit | finish => exact h.setWorker _ nofun
  | @pop i task rest _ _ =>
    have hrun : (s.setWorker i (.running task)).Owed := h.setWorker i nofun
    refine ⟨h.stop, ?_⟩
    intro j hj htasks
    have hne : (j : Nat) ≠ i := by
      intro he
      rw [Fin.ext he, show (s.setWorker i (.running task)).workers i = _ from setWorker_self s i _] at hj
      cases hj
    exact hrun.asleep j hj (Function.update_of_ne hne _ s.tasks ▸ htasks)
  | setStop | notifyAll => exact ha.elim
  | join => exact ⟨h.stop, h.asleep⟩

/-- So no wake-up is lost while every `notify_one` wakes the worker that its submit was for. -/
theorem reaches_of_wakesOwn {as : List (PoolAct n τ)} (has : Along step WakesOwn (start n τ) as) :
    Along step Reaches (start n τ) as := by
  have hstep : ∀ (s : IOThreadPool n τ) a s', (s.Inv ∧ s.Owed) → s.WakesOwn a → step s a = some s' →
      s'.Inv ∧ s'.Owed :=
    fun _ _ _ h ha hs => ⟨h.1.step (h.2.reaches ha) hs, h.2.step h.1 ha hs⟩
  exact along_invariant hstep (fun _ _ h ha => h.2.reaches ha) as ⟨inv_start, rfl, nofun⟩ has

/-- Workers 0 and 1 sleep; the `notify_one` of a task for worker 1 wakes worker 0. -/
def wrongSleeper : List (PoolAct 2 Nat) :=
  [.test 0, .sleep 0, .test 1, .sleep 1, .submit 1 7, .notifyOne 1 (some 0), .test 0, .sleep 0]

/-- The destructor runs between worker 1's test and its sleep. -/
def stoppedInBetween : List (PoolAct 2 Nat) := [.test 1, .setStop, .notifyAll, .sleep 1]

theorem two_workers_lose_wakeups :
    ¬ (exec step (start 2 Nat) wrongSleeper).NoLostWakeup ∧
      ¬ (exec step (start 2 Nat) stoppedInBetween).NoLostWakeup := by
  constructor
  · intro h
    exact absurd (h (by decide) 1 (by decide)).2 (by decide)
  · intro h
    exact absurd (h (by decide) 1 (by decide)).1 (by decide)

end IOThreadPool

end KVStorage

import KVStorage.Lifetimes

/-!
# Loads after flushes

A flush maps its keys before it writes the block, so a GET can ask for a block that is
not there yet. The load then waits: the flush and every load of a block go through
the queue of the block, which one worker serves.
-/

namespace KVStorage

set_option autoImplicit false

open Runs

namespace Server

/-- The flush that holds the write lock travels as one task: it waits in the queue of its
block, or the worker of that queue runs it. -/
structure Travels (s : Server) : Prop where
  queued : ∀ q, IoTask.flush ∈ s.ioTasks q →
    (∃ f, s.lock = some f ∧ f.task.freeBlock - 1 = q ∧ f.phase.enters = true) ∧
      ∀ w, s.ioWorkers w ≠ .flush
  once : ∀ q, (s.ioTasks q).Pairwise fun task task' => task = .flush → task' ≠ .flush
  runs : ∀ w : Fin IO_THREADS, s.ioWorkers w = .flush →
    ∃ f, s.lock = some f ∧ f.task.freeBlock - 1 = UInt64.ofNat w
  /-- A flush that has begun is with a worker. -/
  begun : ∀ f, s.lock = some f → f.phase.enters = false → ∃ w, s.ioWorkers w = .flush

variable {s s' : Server} {a : Act}

theorem ofNat_inj {v w : Fin IO_THREADS} (h : UInt64.ofNat v = UInt64.ofNat w) : v = w := by
  have hv : v.val < 15 := v.isLt
  have hw : w.val < 15 := w.isLt
  have hval := congrArg UInt64.toNat h
  rw [UInt64.toNat_ofNat', UInt64.toNat_ofNat'] at hval
  apply Fin.ext
  omega

theorem boot_travels (store : Store) : (boot store).Travels where
  queued _ hmem := absurd hmem List.not_mem_nil
  once _ := List.Pairwise.nil
  runs _ hw := by cases hw
  begun _ hf := by cases hf

theorem Travels.free (h : s.Travels) (hlock : s.lock = none) :
    (∀ q, IoTask.flush ∉ s.ioTasks q) ∧ ∀ w, s.ioWorkers w ≠ .flush := by
  constructor
  · intro q hmem
    obtain ⟨⟨f, hf, _⟩, _⟩ := h.queued q hmem
    rw [hlock] at hf
    cases hf
  · intro w hw
    obtain ⟨f, hf, _⟩ := h.runs w hw
    rw [hlock] at hf
    cases hf

theorem Travels.runs_unique (h : s.Travels) {v w : Fin IO_THREADS} (hv : s.ioWorkers v = .flush)
    (hw : s.ioWorkers w = .flush) : v = w := by
  obtain ⟨f, hf, hbv⟩ := h.runs v hv
  obtain ⟨g, hg, hbw⟩ := h.runs w hw
  rw [hf, Option.some.injEq] at hg
  subst hg
  exact ofNat_inj (hbv.symm.trans hbw)

/-! ## The steps of the IO pool -/

theorem pushIo_once {ioTasks : SizeT → List IoTask} {q : SizeT} {task : IoTask}
    (h : ∀ q, (ioTasks q).Pairwise fun task task' => task = .flush → task' ≠ .flush)
    (hfree : IoTask.flush ∈ ioTasks q → task ≠ .flush) (q' : SizeT) :
    (pushIo ioTasks q task q').Pairwise fun task task' => task = .flush → task' ≠ .flush := by
  by_cases hq : q' = q
  · subst hq
    simp only [pushIo, Function.update_self]
    apply List.pairwise_append.mpr
    refine ⟨h q', List.pairwise_singleton _ _, ?_⟩
    intro x hx y hy hflush
    subst hflush
    rw [List.mem_singleton.mp hy]
    exact hfree hx
  · simp only [pushIo, Function.update_of_ne hq]
    exact h q'

theorem Travels.submit (h : s.Travels) {task : FlushTask} (free : s.lock = none)
    (lock : s'.lock = some ⟨task, .enter⟩)
    (ioTasks : s'.ioTasks = pushIo s.ioTasks (task.freeBlock - 1) .flush)
    (ioWorkers : s'.ioWorkers = s.ioWorkers) : s'.Travels := by
  obtain ⟨hqueues, hworkers⟩ := h.free free
  refine ⟨?_, ?_, ?_, ?_⟩
  · intro q hmem
    rw [ioTasks] at hmem
    rcases mem_pushIo.mp hmem with hold | ⟨rfl, _⟩
    · exact absurd hold (hqueues q)
    · rw [lock, ioWorkers]
      exact ⟨⟨_, rfl, rfl, rfl⟩, hworkers⟩
  · rw [ioTasks]
    exact pushIo_once h.once fun hmem => absurd hmem (hqueues _)
  · intro w hw
    rw [ioWorkers] at hw
    exact absurd hw (hworkers w)
  · intro f hf he
    rw [lock, Option.some.injEq] at hf
    subst hf
    cases he

theorem Travels.take (h : s.Travels) {w : Fin IO_THREADS} {rest : List IoTask}
    (queue : s.ioTasks (UInt64.ofNat w) = .flush :: rest) (lock : s'.lock = s.lock)
    (ioTasks : s'.ioTasks = Function.update s.ioTasks (UInt64.ofNat w) rest)
    (ioWorkers : s'.ioWorkers = Function.update s.ioWorkers w .flush) : s'.Travels := by
  have hfront : IoTask.flush ∈ s.ioTasks (UInt64.ofNat w) := queue ▸ List.mem_cons_self
  obtain ⟨⟨f, hf, hblock, _⟩, hnone⟩ := h.queued _ hfront
  have honce := h.once (UInt64.ofNat w)
  rw [queue, List.pairwise_cons] at honce
  have hgone : ∀ q, IoTask.flush ∉ s'.ioTasks q := by
    intro q hmem
    rw [ioTasks, Function.update_apply] at hmem
    split at hmem
    case isTrue => exact honce.1 _ hmem rfl rfl
    case isFalse hq =>
      obtain ⟨⟨g, hg, hblock', _⟩, _⟩ := h.queued q hmem
      rw [hf, Option.some.injEq] at hg
      subst hg
      exact hq (hblock'.symm.trans hblock)
  refine ⟨fun q hmem => absurd hmem (hgone q), ?_, ?_, ?_⟩
  · intro q
    rw [ioTasks, Function.update_apply]
    split
    · exact honce.2
    · exact h.once q
  · intro v hv
    rw [lock]
    by_cases hvw : v = w
    · exact ⟨f, hf, hvw ▸ hblock⟩
    · rw [ioWorkers, Function.update_of_ne hvw] at hv
      exact h.runs v hv
  · intro _ _ _
    exact ⟨w, by rw [ioWorkers, Function.update_self]⟩

theorem Travels.other (h : s.Travels) {w : Fin IO_THREADS} {worker : IoWorker} (old : s.ioWorkers w ≠ .flush)
    (new : worker ≠ .flush) (lock : s'.lock = s.lock)
    (ioTasks : ∀ q, (s'.ioTasks q).Sublist (s.ioTasks q))
    (ioWorkers : s'.ioWorkers = Function.update s.ioWorkers w worker) : s'.Travels := by
  have hworkers : ∀ v, s'.ioWorkers v = .flush ↔ s.ioWorkers v = .flush := by
    intro v
    rw [ioWorkers]
    by_cases hvw : v = w
    · subst hvw
      rw [Function.update_self]
      exact ⟨fun hv => absurd hv new, fun hv => absurd hv old⟩
    · rw [Function.update_of_ne hvw]
  refine ⟨?_, ?_, ?_, ?_⟩
  · intro q hmem
    rw [lock]
    obtain ⟨hf, hnone⟩ := h.queued q ((ioTasks q).subset hmem)
    exact ⟨hf, fun v hv => hnone v ((hworkers v).mp hv)⟩
  · exact fun q => (h.once q).sublist (ioTasks q)
  · intro v hv
    rw [lock]
    exact h.runs v ((hworkers v).mp hv)
  · intro f hf he
    rw [lock] at hf
    obtain ⟨v, hv⟩ := h.begun f hf he
    exact ⟨v, (hworkers v).mpr hv⟩

theorem Travels.not_queued (h : s.Travels) {w : Fin IO_THREADS} (worker : s.ioWorkers w = .flush)
    (ioTasks : s'.ioTasks = s.ioTasks) (q : SizeT) : IoTask.flush ∉ s'.ioTasks q := by
  intro hmem
  rw [ioTasks] at hmem
  exact (h.queued q hmem).2 w worker

theorem Travels.goOn (h : s.Travels) {w : Fin IO_THREADS} {task : FlushTask} {p q : FlushPhase}
    (worker : s.ioWorkers w = .flush) (held : s.lock = some ⟨task, p⟩) (lock : s'.lock = some ⟨task, q⟩)
    (ioTasks : s'.ioTasks = s.ioTasks) (ioWorkers : s'.ioWorkers = s.ioWorkers) : s'.Travels := by
  refine ⟨?_, ?_, ?_, ?_⟩
  · exact fun q hmem => absurd hmem (h.not_queued worker ioTasks q)
  · exact ioTasks ▸ h.once
  · intro v hv
    rw [ioWorkers] at hv
    obtain ⟨f, hf, hblock⟩ := h.runs v hv
    rw [held, Option.some.injEq] at hf
    subst hf
    exact ⟨_, lock, hblock⟩
  · intro _ _ _
    exact ⟨w, ioWorkers ▸ worker⟩

theorem Travels.finish (h : s.Travels) {w : Fin IO_THREADS} (worker : s.ioWorkers w = .flush)
    (lock : s'.lock = none) (ioTasks : s'.ioTasks = s.ioTasks)
    (ioWorkers : s'.ioWorkers = Function.update s.ioWorkers w .idle) : s'.Travels := by
  refine ⟨?_, ?_, ?_, ?_⟩
  · exact fun q hmem => absurd hmem (h.not_queued worker ioTasks q)
  · exact ioTasks ▸ h.once
  · intro v hv
    rw [ioWorkers, Function.update_apply] at hv
    split at hv
    case isTrue => cases hv
    case isFalse hvw => exact absurd (h.runs_unique hv worker) hvw
  · intro f hf
    rw [lock] at hf
    cases hf

theorem step_travels (h : s.Travels) (hs : s.step a = some s') : s'.Travels := by
  cases step_ioChange hs with
  | same lock ioTasks ioWorkers =>
    refine ⟨?_, ioTasks ▸ h.once, ?_, ?_⟩
    · rw [ioTasks, ioWorkers, lock]
      exact h.queued
    · rw [ioWorkers, lock]
      exact h.runs
    · rw [ioWorkers, lock]
      exact h.begun
  | flush worker op large free block lock ioTasks ioWorkers => exact h.submit free lock ioTasks ioWorkers
  | load worker lock ioTasks ioWorkers =>
    refine ⟨?_, ?_, ?_, ?_⟩
    · intro q hmem
      rw [ioTasks] at hmem
      rw [lock, ioWorkers]
      rcases mem_pushIo.mp hmem with hold | ⟨_, hload⟩
      · exact h.queued q hold
      · cases hload
    · rw [ioTasks]
      exact pushIo_once h.once fun _ hload => by cases hload
    · rw [ioWorkers, lock]
      exact h.runs
    · rw [ioWorkers, lock]
      exact h.begun
  | @pop w task rest idle queue lock ioTasks ioWorkers =>
    cases task with
    | flush => exact h.take queue lock ioTasks ioWorkers
    | load key block =>
      apply h.other (by simp [idle]) (by simp [IoTask.worker]) lock _ ioWorkers
      intro q
      rw [ioTasks, Function.update_apply]
      split
      case isTrue hq =>
        rw [hq, queue]
        exact List.sublist_cons_self _ _
      case isFalse => exact List.Sublist.refl _
  | goOn worker held lock ioTasks ioWorkers => exact h.goOn worker held lock ioTasks ioWorkers
  | finish worker lock ioTasks ioWorkers => exact h.finish worker lock ioTasks ioWorkers
  | read old new lock ioTasks ioWorkers =>
    apply h.other old new lock _ ioWorkers
    intro q
    rw [ioTasks]

end Server

namespace Life

/-- A flush of the block has returned, and the block is in the file. -/
def Written (l : Life) (b : SizeT) : Prop := b ∈ l.returned ∧ (l.server.store.disk b).isSome

/-- Every load that a worker is about to run is of a written block that no flush is on
its way to, and the worker is the one of the block's queue. -/
def LoadsWritten (l : Life) : Prop :=
  ∀ (w : Fin IO_THREADS) (key : Int32) (b : SizeT), l.server.ioWorkers w = .load key b →
    l.Written b ∧ (∀ f ∈ l.server.lock, f.task.freeBlock ≠ b) ∧ UInt64.ofNat w = b - 1

/-- The worker that runs the flush of a block is the one of the block's queue. -/
def FlushesInQueue (l : Life) : Prop :=
  ∀ (w : Fin IO_THREADS) (f : Flush), l.server.ioWorkers w = .flush → f ∈ l.server.lock →
    UInt64.ofNat w = f.task.freeBlock - 1

structure Ordered (l : Life) : Prop where
  allots : l.server.store.Allots l.Written l.server.flushes
  loads : l.server.Loads
  travels : l.server.Travels

variable {l l' : Life} {a : LifeAct}

theorem start_ordered (createTime : Bytes) : (start createTime).Ordered :=
  ⟨Store.start_allots createTime _, Server.boot_loads _, Server.boot_travels _⟩

theorem act_ordered (h : l.Ordered) {act : Act} {s' : Server} (hs : l.server.step act = some s') :
    (⟨s', l.returned ++ l.server.returns act⟩ : Life).Ordered where
  allots := by
    have hgrows := Server.step_grows hs
    apply Server.step_allots h.allots hs
    · rintro b ⟨hb, hdisk⟩
      exact ⟨List.mem_append_left _ hb, hgrows.disk b hdisk⟩
    · intro b hb hdisk
      exact ⟨List.mem_append_right _ hb, hgrows.disk b hdisk⟩
  loads := Server.step_loads h.loads hs
  travels := Server.step_travels h.travels hs

theorem Ordered.ended (h : l.Ordered) (hdone : l.server.handler = .done) (hidle : l.server.IoIdle) {b : SizeT}
    (hb : Flushed l.Written l.server.flushes b) : l.Written b := by
  rcases hb with hwritten | ⟨f, hf, hbegun, _⟩
  · exact hwritten
  · rw [Server.flushes, hdone] at hf
    have hlock : l.server.lock = some f := by simpa [Handler.flushing] using hf
    obtain ⟨w, hw⟩ := h.travels.begun f hlock hbegun
    rw [(hidle w).1] at hw
    cases hw

theorem step_ordered (h : l.Ordered) (ha : ∀ createTime, a ≠ .crash createTime) (hs : l.step a = some l') :
    l'.Ordered := by
  rcases step_cases hs with ⟨act, s', rfl, hact, rfl⟩ | ⟨time, store, hreload, rfl, hcrash | ⟨_, hdone, hidle⟩⟩
  · exact act_ordered h hact
  · exact absurd hcrash (ha time)
  · have hdisk : store.disk = l.server.store.disk := by
      obtain ⟨fi, _, rfl⟩ := Option.map_eq_some_iff.mp hreload
      rfl
    refine ⟨?_, Server.boot_loads store, Server.boot_travels store⟩
    apply h.allots.reload hreload
    intro b hb
    obtain ⟨hreturned, hwritten⟩ := h.ended hdone hidle hb
    exact ⟨hreturned, hdisk ▸ hwritten⟩

theorem Ordered.flushesInQueue (h : l.Ordered) : l.FlushesInQueue := by
  intro w f hw hf
  obtain ⟨g, hg, hblock⟩ := h.travels.runs w hw
  rw [Option.mem_def.mp hf, Option.some.injEq] at hg
  rw [hg]
  exact hblock.symm

/-- While the program serves, only the flush that holds the lock is on its way: a worker
that has a load of its block cannot be the one that runs it. -/
theorem Ordered.loadsWritten (h : l.Ordered) (hserving : l.server.handler = .serving) : l.LoadsWritten := by
  intro w key b hload
  have hfound := h.loads.ioWorkers w
  rw [hload] at hfound
  obtain ⟨hqueue, hmapped⟩ := hfound
  have hflushes : l.server.flushes = l.server.lock.toList := Server.flushes_idle (by rw [hserving]; rfl)
  have halone : ∀ f ∈ l.server.lock, f.task.freeBlock ≠ b := by
    intro f hf hb
    have hmem : f ∈ l.server.flushes := by simpa [hflushes] using hf
    cases he : f.phase.enters with
    | true => exact h.allots.enters f hmem he key (hb ▸ hmapped)
    | false =>
      obtain ⟨v, hv⟩ := h.travels.begun f hf he
      have hvw : v = w := Server.ofNat_inj ((h.flushesInQueue v f hv hf).trans (hb ▸ hqueue.symm))
      rw [hvw, hload] at hv
      cases hv
  refine ⟨?_, halone, hqueue⟩
  rcases (h.allots.live.mapped key b hmapped).2.2 with hwritten | ⟨f, hf, _, hb⟩
  · exact hwritten
  · rw [hflushes, Option.mem_toList] at hf
    exact absurd hb (halone f hf)

/-- In every state before SIGINT, of the first start or after any clean restarts, a load
that is about to run comes after the return of the flush that wrote its block, and the
flushes of the block have the same worker. -/
theorem loads_after_flush (createTime : Bytes) (acts : List LifeAct)
    (hclean : ∀ time, LifeAct.crash time ∉ acts)
    (hserving : (exec step (start createTime) acts).server.handler = .serving) :
    (exec step (start createTime) acts).LoadsWritten ∧
      (exec step (start createTime) acts).FlushesInQueue := by
  have halong : Along step (fun _ a => ∀ time, a ≠ .crash time) (start createTime) acts := by
    apply along_of_forall
    intro a ha _ time he
    exact hclean time (he ▸ ha)
  have hordered : (exec step (start createTime) acts).Ordered :=
    exec_invariant (fun _ _ _ h ha hs => step_ordered h ha hs) acts (start_ordered createTime) halong
  exact ⟨hordered.loadsWritten hserving, hordered.flushesInQueue⟩

/-- Key 1 is put; after a clean restart a GET of it is with the worker of block 1. -/
def putThenLoad : List LifeAct :=
  [.act (.submit 0 (.put 1 [97])), .act (.pop 0), .act (.run 0 fun _ => false), .act .sigint] ++
    List.replicate 8 (.act .handle) ++ [.restart [], .act (.submit 0 (.get 1)), .act (.pop 0),
      .act (.run 0 fun _ => false), .act (.lookup 0), .act (.read 0), .act (.read 0), .act (.popIo 0)]

theorem putThenLoad_written :
    (exec step (start []) putThenLoad).server.ioWorkers 0 = .load 1 1 ∧
      (exec step (start []) putThenLoad).Written 1 := by
  have hload : (exec step (start []) putThenLoad).server.ioWorkers 0 = .load 1 1 := by decide +kernel
  have hserving : (exec step (start []) putThenLoad).server.handler = .serving := by decide +kernel
  have hclean : ∀ time, LifeAct.crash time ∉ putThenLoad := by simp [putThenLoad]
  exact ⟨hload, ((loads_after_flush [] putThenLoad hclean hserving).1 0 1 1 hload).1⟩

end Life

end KVStorage

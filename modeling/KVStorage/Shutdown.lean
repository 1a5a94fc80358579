import KVStorage.FlushAccount
import KVStorage.RequestOrder

/-!
# The end of the program

`shutdown` waits until the queue is empty, not until the tasks taken from it have run,
and the handler flushes without the write lock. Every accepted PUT is in the image when
the handler finds all of them in the cache or mapped, and no list is cleared under the
loop of another flush, or between its mapping and its write.
-/

namespace KVStorage

set_option autoImplicit false

open Runs

def Op.putKey : Op → Option Int32
  | .put key _ => some key
  | _ => none

def Handler.flushing : Handler → Option Flush
  | .flush f => some f
  | _ => none

namespace Server

def flushes (s : Server) : List Flush := s.lock.toList ++ s.handler.flushing.toList

/-- A flush that a step begins has got a block. -/
def FreeBlock (s : Server) (a : Act) : Prop :=
  ∀ s' ∈ s.step a, ∀ f ∈ s'.flushes, f.task.freeBlock ≠ noBlock

instance (s : Server) (a : Act) : Decidable (s.FreeBlock a) :=
  inferInstanceAs (Decidable (∀ s' ∈ s.step a, ∀ f ∈ s'.flushes, f.task.freeBlock ≠ noBlock))

def Known (s : Server) (k : Int32) : Prop := s.store.Cached k ∨ s.store.Mapped k

instance (s : Server) (k : Int32) : Decidable (s.Known k) :=
  inferInstanceAs (Decidable (k ∈ s.store.write.RWcache.contents.keys ∨
    (s.store.fi.keyBlockMap.lookup k).isSome = true))

/-- What the signal handler relies on. -/
def Clean (s : Server) : Act → Prop
  | .handle =>
    match s.handler with
    | .flush f =>
      -- the keys are listed: every PUT that a worker still holds is of a known key
      (f.phase.enters = true → ∀ w, ∀ t ∈ (s.workers w).held, ∀ k ∈ t.op.putKey, s.Known k) ∧
      -- the list is cleared: the queued flush is not in it and has written what it has mapped
      (f.phase.clears = true → ∀ g ∈ s.lock, s.store.Settled g)
    | .image => s.store.fi.writeToBlock0.2.isSome
    | _ => True
  | .runIo w => s.ioWorkers w = .flush → ∀ f ∈ s.lock, f.phase.clears = true →
      ∀ g ∈ s.handler.flushing, s.store.Settled g
  | _ => True

instance : ∀ (s : Server) (a : Act), Decidable (s.Clean a)
  | ⟨_, _, _, _, _, _, _, handler, _, _⟩, .handle => by
    cases handler <;> (dsimp only [Clean]; infer_instance)
  | _, .runIo _ => by
    dsimp only [Clean]
    infer_instance
  | _, .submit _ _ | _, .pop _ | _, .run _ _ | _, .lookup _ | _, .read _ | _, .popIo _ | _, .sigint =>
    isTrue trivial

/-- No IO task is queued or running. -/
def Drained (s : Server) : Prop := (∀ q, s.ioTasks q = []) ∧ ∀ w, s.ioWorkers w = .idle

/-- How far the handler has come. -/
def Stage (s : Server) : Prop :=
  match s.handler with
  | .serving => True
  | .waiting => s.running = false
  | .terminated => s.running = false ∧ s.queue = []
  | .flush f => s.running = false ∧ s.queue = [] ∧
      (f.phase.enters = false → ∀ t ∈ s.sent, ∀ k ∈ t.op.putKey, s.Known k)
  | .image => s.running = false ∧ s.queue = [] ∧ ∀ t ∈ s.sent, ∀ k ∈ t.op.putKey, s.store.Mapped k
  | .done => s.running = false ∧ s.queue = [] ∧ ∃ info, s.store.image = some info ∧
      ∀ t ∈ s.sent, ∀ k ∈ t.op.putKey, ∃ b, info.keyBlockMap.lookup k = some b ∧
        s.store.fi.keyBlockMap.lookup k = some b

structure Inv (s : Server) : Prop where
  account : s.store.Account s.flushes
  taken : s.TakenInOrder
  noDel : ∀ t ∈ s.sent, ∀ k, t.op ≠ .del k
  ran : ∀ t ∈ ran s.log, ∀ k ∈ t.op.putKey, s.Known k
  stage : s.Stage

variable {s s' : Server} {a : Act} {k : Int32}

/-! ## The flushes on their way -/

theorem flushes_idle (h : s.handler.flushing = none) : s.flushes = s.lock.toList := by
  rw [flushes, h]
  exact List.append_nil _

theorem flushes_locked {f : Flush} (held : s.lock = some f) :
    s.flushes = f :: s.handler.flushing.toList := by
  rw [flushes, held]
  rfl

theorem flushes_handled {f : Flush} (hf : s.handler = .flush f) : s.flushes.Perm (f :: s.lock.toList) := by
  rw [flushes, hf]
  exact List.perm_append_singleton f s.lock.toList

theorem handleFlush_flushes (s : Server) (f : Flush) :
    (Store.rest f.task (s.store.flushPart f.task f.phase).2 ++ s.lock.toList).Perm (s.handleFlush f).flushes := by
  have hflushing : (s.handleFlush f).handler.flushing.toList =
      Store.rest f.task (s.store.flushPart f.task f.phase).2 := by
    simp only [Server.handleFlush]
    cases (s.store.flushPart f.task f.phase).2 <;> rfl
  rw [flushes, hflushing]
  exact List.perm_append_comm

/-- With the lock free a put leaves the flushes as they are, or begins one of a new block. -/
theorem runPut_flushes (free : s.lock = none) (key : Int32) (value : Bytes) (flips : Fin level → Bool) :
    ((s.runPut key value flips).store.fi = s.store.fi ∧ (s.runPut key value flips).flushes = s.flushes) ∨
      (s.runPut key value flips).store.fi = s.store.fi.getFreeBlock.1 ∧
        ∃ freeSpace, (s.runPut key value flips).flushes =
          ⟨⟨freeSpace, s.store.fi.getFreeBlock.2⟩, .enter⟩ :: s.flushes := by
  rcases s.runPut_cases key value flips with ⟨hfi, hlock⟩ | ⟨hfi, t, hlock, hblock⟩
  · refine Or.inl ⟨hfi, ?_⟩
    rw [flushes, hlock]
    rfl
  · refine Or.inr ⟨hfi, t.freeSpace, ?_⟩
    rw [flushes_locked hlock, flushes, free, ← hblock]
    rfl

theorem Quiet.flushes (h : Quiet s s') : s'.flushes = s.flushes := by
  simp only [Server.flushes, h.lock, h.handler]

theorem start_inv (o : Opened) : (start o).Inv where
  account := o.sound.account
  taken := ⟨[], rfl, by simp [start, boot, KVStorage.ran, Worker.held]⟩
  noDel := by simp [start, boot]
  ran := by simp [start, boot, KVStorage.ran]
  stage := trivial

theorem TakenInOrder.held_sent (h : s.TakenInOrder) {w : Fin POOL_THREADS} {t : Task}
    (hw : (s.workers w).held = some t) : t ∈ s.sent := by
  obtain ⟨taken, hsent, hmem⟩ := h
  rw [hsent]
  exact List.mem_append_left _ ((hmem t).mpr (Or.inr ⟨w, hw⟩))

theorem TakenInOrder.sent_cases (h : s.TakenInOrder) {t : Task} (ht : t ∈ s.sent) :
    t ∈ s.queue ∨ t ∈ KVStorage.ran s.log ∨ ∃ w, (s.workers w).held = some t := by
  obtain ⟨taken, hsent, hmem⟩ := h
  rw [hsent] at ht
  rcases List.mem_append.mp ht with ht | ht
  · exact Or.inr ((hmem t).mp ht)
  · exact Or.inl ht

/-! ## Steps of the workers and of the IO pool -/

def KeepsBlocks (s s' : Server) : Prop :=
  ∀ k b, s.store.fi.keyBlockMap.lookup k = some b → s'.store.fi.keyBlockMap.lookup k = some b

theorem Stage.frame (h : s.Stage) (handler : s'.handler = s.handler) (running : s'.running = s.running)
    (pool : s.running = false → s'.sent = s.sent ∧ (s.queue = [] → s'.queue = []))
    (image : s'.store.image = s.store.image) (known : ∀ k, s.Known k → s'.Known k)
    (blocks : KeepsBlocks s s') : s'.Stage := by
  unfold Stage at h ⊢
  rw [handler]
  cases hh : s.handler with
  | serving => trivial
  | waiting =>
    rw [hh] at h
    exact running.trans h
  | terminated =>
    rw [hh] at h
    exact ⟨running.trans h.1, (pool h.1).2 h.2⟩
  | flush f =>
    rw [hh] at h
    obtain ⟨hrun, hqueue, hknown⟩ := h
    refine ⟨running.trans hrun, (pool hrun).2 hqueue, ?_⟩
    intro he t ht k hk
    rw [(pool hrun).1] at ht
    exact known k (hknown he t ht k hk)
  | image =>
    rw [hh] at h
    obtain ⟨hrun, hqueue, hmapped⟩ := h
    refine ⟨running.trans hrun, (pool hrun).2 hqueue, ?_⟩
    intro t ht k hk
    rw [(pool hrun).1] at ht
    obtain ⟨b, hb⟩ := Option.isSome_iff_exists.mp (hmapped t ht k hk)
    exact Option.isSome_iff_exists.mpr ⟨b, blocks k b hb⟩
  | done =>
    rw [hh] at h
    obtain ⟨hrun, hqueue, info, himage, hsaved⟩ := h
    refine ⟨running.trans hrun, (pool hrun).2 hqueue, info, image.trans himage, ?_⟩
    intro t ht k hk
    rw [(pool hrun).1] at ht
    obtain ⟨b, hinfo, hb⟩ := hsaved t ht k hk
    exact ⟨b, hinfo, blocks k b hb⟩

theorem step_pool_closed (hs : s.step a = some s') (hrun : s.running = false) :
    s'.sent = s.sent ∧ (s.queue = [] → s'.queue = []) := by
  cases step_poolChange hs with
  | same queue sent _ _ => exact ⟨sent, fun hq => queue.trans hq⟩
  | submit _ _ running _ _ _ _ => exact absurd (running.symm.trans hrun) (by simp)
  | pop _ queue sent _ _ _ => exact ⟨sent, fun hq => absurd (queue.symm.trans hq) (by simp)⟩
  | run _ queue sent _ _ _ => exact ⟨sent, fun hq => queue.trans hq⟩

theorem step_noDel (h : ∀ t ∈ s.sent, ∀ k, t.op ≠ .del k) (ha : ∀ c k, a ≠ .submit c (.del k))
    (hs : s.step a = some s') : ∀ t ∈ s'.sent, ∀ k, t.op ≠ .del k := by
  cases step_poolChange hs with
  | same _ sent _ _ => exact sent ▸ h
  | submit client_eq op_eq _ _ sent _ _ =>
    intro t ht k hk
    rw [sent] at ht
    rcases List.mem_append.mp ht with ht | ht
    · exact h t ht k hk
    · rw [List.mem_singleton.mp ht, op_eq] at hk
      subst hk
      exact ha _ k rfl
  | pop _ _ sent _ _ _ => exact sent ▸ h
  | run _ _ sent _ _ _ => exact sent ▸ h

/-- Up to quiet changes: what a step does to the cache, the index, the flushes and the
log decides, and the pool follows from the step. -/
theorem Inv.of_quiet (h : s.Inv) {m : Server} (hs : s.step a = some s') (ha : ∀ c k, a ≠ .submit c (.del k))
    (hq : Quiet m s') (account : m.store.Account m.flushes) (handler : m.handler = s.handler)
    (running : m.running = s.running) (image : m.store.image = s.store.image)
    (known : ∀ k, s.Known k → m.Known k) (blocks : KeepsBlocks s m)
    (hran : ∀ t ∈ KVStorage.ran m.log, ∀ k ∈ t.op.putKey, m.Known k) : s'.Inv where
  account := by
    rw [hq.flushes]
    exact account.congr hq.write (congrArg _ hq.fi) (congrArg _ hq.fi) hq.disk
  taken := step_takenInOrder h.taken hs
  noDel := step_noDel h.noDel ha hs
  ran := by
    intro t ht k hk
    rw [hq.log] at ht
    simpa only [Known, Store.Cached, Store.Mapped, hq.write, hq.fi] using hran t ht k hk
  stage := by
    refine h.stage.frame (hq.handler.trans handler) (hq.running.trans running)
      (step_pool_closed hs) (hq.image.trans image) ?_ ?_
    · intro k hk
      simpa only [Known, Store.Cached, Store.Mapped, hq.write, hq.fi] using known k hk
    · intro k b hk
      rw [hq.fi]
      exact blocks k b hk

theorem Stage.put_known (h : s.Stage) {t : Task} (ht : t ∈ s.sent) (hk : t.op.putKey = some k) :
    (∀ f ∈ s.handler.flushing, f.phase.enters = true) ∨ s.Known k := by
  cases hh : s.handler with
  | flush f =>
    unfold Stage at h
    rw [hh] at h
    cases he : f.phase.enters with
    | true =>
      left
      intro g hg
      rw [Handler.flushing, Option.mem_some_iff] at hg
      rwa [← hg]
    | false => exact Or.inr (h.2.2 he t ht k hk)
  | serving => exact Or.inl (by simp [Handler.flushing])
  | waiting => exact Or.inl (by simp [Handler.flushing])
  | terminated => exact Or.inl (by simp [Handler.flushing])
  | image => exact Or.inl (by simp [Handler.flushing])
  | done => exact Or.inl (by simp [Handler.flushing])

theorem Inv.put (h : s.Inv) {w : Fin POOL_THREADS} {flips : Fin level → Bool} {task : Task} {key : Int32}
    {value : Bytes} (worker : s.workers w = .run task) (op : task.op = .put key value)
    (free : s.lock = none) (hq : Quiet ((s.record task).runPut key value flips) s')
    (hs : s.step (.run w flips) = some s') (hfree : s.FreeBlock (.run w flips)) : s'.Inv := by
  have hkey : task.op.putKey = some key := by simp [op, Op.putKey]
  have hsent : task ∈ s.sent := h.taken.held_sent (w := w) (by simp [worker, Worker.held])
  have hcontents : ((s.record task).runPut key value flips).store.write.RWcache.contents =
      s.store.write.RWcache.contents.add key value := runPut_contents _ _ _ _
  have hmap : ((s.record task).runPut key value flips).store.fi.keyBlockMap = s.store.fi.keyBlockMap :=
    runPut_map _ _ _ _
  have hknown : ∀ k, s.Known k → ((s.record task).runPut key value flips).Known k := by
    intro k hk
    simp only [Known, Store.Cached, Store.Mapped, hcontents, hmap, Contents.add, SortedMap.mem_keys_insert]
    exact hk.imp_left Or.inr
  have haccount : (({ s.store with write := ((s.record task).runPut key value flips).store.write }) : Store).Account
      s.flushes := by
    apply h.account.put hcontents
    simp only [flushes, free, Option.toList_none, List.nil_append, Option.mem_toList]
    exact h.stage.put_known hsent hkey
  refine h.of_quiet hs (by simp) hq ?_ rfl rfl rfl hknown (fun k b hk => hmap ▸ hk) ?_
  · have hlock : (s.record task).lock = none := free
    rcases runPut_flushes hlock key value flips with ⟨hfi, hflushes⟩ | ⟨hfi, freeSpace, hflushes⟩
    · rw [hflushes]
      exact haccount.congr rfl (congrArg _ hfi) (congrArg _ hfi) rfl
    · have hb : s.store.fi.getFreeBlock.2 ≠ noBlock := by
        apply hfree s' hs ⟨⟨freeSpace, s.store.fi.getFreeBlock.2⟩, .enter⟩
        rw [hq.flushes, hflushes]
        exact List.mem_cons_self
      rw [hflushes]
      exact (haccount.alloc hb freeSpace).congr rfl (congrArg _ hfi) (congrArg _ hfi) rfl
  · intro t ht k hk
    have hlog : ((s.record task).runPut key value flips).log = s.log ++ [.ran task] := rfl
    rw [hlog, ran_append] at ht
    rcases List.mem_append.mp ht with ht | ht
    · exact hknown k (h.ran t ht k hk)
    · rw [Event.task, Option.toList_some, List.mem_singleton] at ht
      rw [ht, hkey, Option.mem_some_iff] at hk
      subst hk
      simp only [Known, Store.Cached, hcontents, Contents.add, SortedMap.mem_keys_insert, true_or]

theorem Inv.flush (h : s.Inv) {w : Fin IO_THREADS} {f : Flush} (worker : s.ioWorkers w = .flush)
    (held : s.lock = some f) (hq : Quiet (s.runFlush f) s') (hs : s.step (.runIo w) = some s')
    (hclean : s.Clean (.runIo w)) : s'.Inv := by
  have haccount := flushes_locked held ▸ h.account
  have hcovers := haccount.covers f List.mem_cons_self
  have hknown : ∀ k, s.Known k → (s.runFlush f).Known k :=
    fun k hk => (Store.flushPart_retains hcovers).known hk
  refine h.of_quiet hs (by simp) hq ?_ rfl rfl Store.flushPart_image hknown
    (fun k b hk => Store.flushPart_lookup hk) ?_
  · apply haccount.flushPart
    intro hclears g hg
    exact hclean worker f held hclears g (Option.mem_toList.mp hg)
  · intro t ht k hk
    have hran : KVStorage.ran (s.runFlush f).log = KVStorage.ran s.log := ran_events s.log f.phase
    rw [hran] at ht
    exact hknown k (h.ran t ht k hk)

/-! ## Steps of the handler -/

theorem Inv.sigint (h : s.Inv) (hh : s.sigint = some s') : s'.Inv := by
  have htaken := step_takenInOrder h.taken (a := .sigint) hh
  have haccount := h.account
  obtain ⟨hserving, rfl⟩ := sigint_cases hh
  rw [flushes, hserving] at haccount
  exact ⟨haccount, htaken, h.noDel, h.ran, rfl⟩

theorem Inv.all_known (h : s.Inv) (hqueue : s.queue = [])
    (hheld : ∀ w, ∀ t ∈ (s.workers w).held, ∀ k ∈ t.op.putKey, s.Known k) :
    ∀ t ∈ s.sent, ∀ k ∈ t.op.putKey, s.Known k := by
  intro t ht k hk
  rcases h.taken.sent_cases ht with hq | hran | ⟨w, hw⟩
  · rw [hqueue] at hq
    exact absurd hq List.not_mem_nil
  · exact h.ran t hran k hk
  · exact hheld w t hw k hk

theorem Inv.handleFlush (h : s.Inv) {f : Flush} (hf : s.handler = .flush f) (hclean : s.Clean .handle) :
    (s.handleFlush f).Inv := by
  have hstage := h.stage
  unfold Stage at hstage
  rw [hf] at hstage
  obtain ⟨hrun, hqueue, hafter⟩ := hstage
  simp only [Clean, hf] at hclean
  have haccount : s.store.Account (f :: s.lock.toList) := h.account.perm (flushes_handled hf)
  have hcovers := haccount.covers f List.mem_cons_self
  have hfills := haccount.fills f List.mem_cons_self
  have hretains := Store.flushPart_retains (t := f.task) hcovers
  have hpart : (s.store.flushPart f.task f.phase).1.Account
      (Store.rest f.task (s.store.flushPart f.task f.phase).2 ++ s.lock.toList) := by
    apply haccount.flushPart
    intro hclears g hg
    exact hclean.2 hclears g (Option.mem_toList.mp hg)
  have hall : ∀ t ∈ s.sent, ∀ k ∈ t.op.putKey, s.Known k := by
    cases he : f.phase.enters with
    | true => exact h.all_known hqueue (hclean.1 he)
    | false => exact hafter he
  have hran : KVStorage.ran (s.handleFlush f).log = KVStorage.ran s.log := ran_events s.log f.phase
  have hstep : s.step .handle = some (s.handleFlush f) := by simp [step, handle, hf]
  refine ⟨hpart.perm (s.handleFlush_flushes f), step_takenInOrder h.taken hstep, h.noDel, ?_, ?_⟩
  · intro t ht k hk
    rw [hran] at ht
    exact hretains.known (h.ran t ht k hk)
  · cases hq : (s.store.flushPart f.task f.phase).2 with
    | none =>
      have himage : (s.handleFlush f).handler = .image := by simp only [Server.handleFlush, hq]
      unfold Stage
      rw [himage]
      refine ⟨hrun, hqueue, ?_⟩
      intro t ht k hk
      rcases hretains.known (hall t ht k hk) with hcached | hmapped
      · exact absurd hcached (Store.flushPart_done hfills.ne_noBlock hq)
      · exact hmapped
    | some q =>
      have hnext : (s.handleFlush f).handler = .flush ⟨f.task, q⟩ := by
        simp only [Server.handleFlush, hq]
      unfold Stage
      rw [hnext]
      exact ⟨hrun, hqueue, fun _ t ht k hk => hretains.known (hall t ht k hk)⟩

theorem Inv.handle (h : s.Inv) (hh : s.handle = some s') (hfree : s.FreeBlock .handle)
    (hclean : s.Clean .handle) : s'.Inv := by
  have htaken := step_takenInOrder h.taken (a := .handle) hh
  have hstage := h.stage
  have haccount := h.account
  unfold Stage at hstage
  unfold flushes at haccount
  cases handle_cases hh with
  | wait handler queue =>
    rw [handler] at hstage haccount
    exact ⟨haccount, htaken, h.noDel, h.ran, hstage, queue⟩
  | alloc handler =>
    rw [handler] at hstage haccount
    have hb : s.store.fi.getFreeBlock.2 ≠ noBlock := by
      apply hfree _ hh ⟨⟨CACHE_SIZE - s.store.write.currentSize, s.store.fi.getFreeBlock.2⟩, .enter⟩
      simp [flushes, Handler.flushing]
    refine ⟨?_, htaken, h.noDel, ?_, hstage.1, hstage.2, fun he => by cases he⟩
    · have halloc := haccount.alloc hb (CACHE_SIZE - s.store.write.currentSize)
      apply halloc.perm
      simp only [flushes, Handler.flushing, Option.toList_none, List.append_nil, Option.toList_some]
      exact (List.perm_append_singleton _ _).symm
    · intro t ht k hk
      simpa only [Known, Store.Cached, Store.Mapped, FileInfo.getFreeBlock_map] using h.ran t ht k hk
  | flush handler => exact h.handleFlush handler hclean
  | image handler =>
    rw [handler] at hstage haccount
    simp only [Clean, handler] at hclean
    refine ⟨haccount.congr rfl rfl rfl rfl, htaken, h.noDel, h.ran, hstage.1, hstage.2.1, ?_⟩
    obtain ⟨info, hinfo⟩ := Option.isSome_iff_exists.mp hclean
    refine ⟨info, by simp only [Store.writeToBlock0, savedImage, hinfo, Option.some_or], ?_⟩
    intro t ht k hk
    obtain ⟨b, hb⟩ := Option.isSome_iff_exists.mp (hstage.2.2 t ht k hk)
    refine ⟨b, ?_, hb⟩
    rw [FileInfo.writeToBlock0_image hinfo]
    exact hb

theorem step_inv (h : s.Inv) (ha : ∀ c k, a ≠ .submit c (.del k)) (hfree : s.FreeBlock a)
    (hclean : s.Clean a) (hs : s.step a = some s') : s'.Inv := by
  cases step_change hs with
  | quiet hq =>
    exact h.of_quiet hs ha hq h.account rfl rfl rfl (fun k hk => hk) (fun k b hk => hk) h.ran
  | put worker op free hq => exact h.put worker op free hq hs hfree
  | get worker op free hq =>
    rename_i w flips task key
    refine h.of_quiet hs ha hq h.account rfl rfl rfl (fun k hk => hk) (fun k b hk => hk) ?_
    intro t ht k hk
    rw [record, ran_append] at ht
    rcases List.mem_append.mp ht with ht | ht
    · exact h.ran t ht k hk
    · rw [Event.task, Option.toList_some, List.mem_singleton] at ht
      rw [ht, op] at hk
      cases hk
  | del worker op free hq =>
    rename_i w flips task key
    have hsent : task ∈ s.sent := h.taken.held_sent (w := w) (by simp [worker, Worker.held])
    exact absurd op (h.noDel task hsent key)
  | flush worker held hq => exact h.flush worker held hq hs hclean
  | sigint hh => exact h.sigint hh
  | handle hh => exact h.handle hh hfree hclean

/-! ## The IO pool -/

/-- The flush that holds the lock is in a queue of the IO pool or with one of its workers. -/
def FlushQueued (s : Server) : Prop :=
  s.lock.isSome → (∃ q, IoTask.flush ∈ s.ioTasks q) ∨ ∃ w, s.ioWorkers w = .flush

theorem FlushQueued.drained (h : s.FlushQueued) (hd : s.Drained) : s.lock = none := by
  cases hlock : s.lock with
  | none => rfl
  | some f =>
    rcases h (by simp [hlock]) with ⟨q, hq⟩ | ⟨w, hw⟩
    · rw [hd.1 q] at hq
      exact absurd hq List.not_mem_nil
    · rw [hd.2 w] at hw
      cases hw

section Clean
variable (o : Opened) (acts : List Act) (hdel : ∀ c k, Act.submit c (.del k) ∉ acts)
variable (hfree : Along step FreeBlock (start o) acts) (hclean : Along step Clean (start o) acts)
include hdel hfree hclean

theorem clean_inv : (exec step (start o) acts).Inv := by
  have hstep : ∀ (s : Server) (a : Act) (s' : Server), s.Inv →
      ((∀ c k, a ≠ .submit c (.del k)) ∧ s.FreeBlock a ∧ s.Clean a) → step s a = some s' → s'.Inv :=
    fun _ _ _ h hc hs => step_inv h hc.1 hc.2.1 hc.2.2 hs
  have hnodel : Along step (fun _ a => ∀ c k, a ≠ .submit c (.del k)) (start o) acts := by
    apply along_of_forall
    intro a ha _ c k he
    exact hdel c k (he ▸ ha)
  have hall := (along_and_iff _ _).mpr ⟨hnodel, (along_and_iff _ _).mpr ⟨hfree, hclean⟩⟩
  exact exec_invariant hstep acts (start_inv o) hall

/-- No mapping loop loses the node it stands on. -/
theorem loops_on_nodes : ∀ f ∈ (exec step (start o) acts).flushes, (exec step (start o) acts).store.OnNode f.phase :=
  fun f hf => ((clean_inv o acts hdel hfree hclean).account.fills f hf).onNode

end Clean

end Server

end KVStorage

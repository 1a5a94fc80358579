import KVStorage.Server

/-!
# The order of a client's requests

Requests leave the queue in the order in which they were sent, but they run on
different workers. A client's requests on one key keep their order as long as no two of
them are held by workers at the same time.
-/

namespace KVStorage

set_option autoImplicit false

open Runs

def Task.isOf (client : Nat) (key : Int32) (t : Task) : Bool := t.client = client ∧ t.op.key = key

theorem Task.isOf_iff {client : Nat} {key : Int32} {t : Task} :
    t.isOf client key = true ↔ t.client = client ∧ t.op.key = key := by
  simp [Task.isOf]

/-- What an event makes of the entry of a key in the write cache. -/
def Event.replay (k : Int32) (value : Option Bytes) : Event → Option Bytes
  | .cleared => none
  | .ran task =>
    match task.op with
    | .put key v => if k = key then some v else value
    | .get _ => value
    | .del key => if k = key then none else value

/-- The entry of a key after the operations seen since the last flush. -/
def replay (k : Int32) (log : List Event) : Option Bytes := log.foldl (Event.replay k) none

namespace Server

/-- A request is taken up only when no worker still has one of the same client and key. -/
def TakesInTurn (s : Server) : Act → Prop
  | .pop _ => ∀ task ∈ s.queue.head?, ∀ v, ∀ t ∈ (s.workers v).held, ¬t.isOf task.client task.op.key
  | _ => True

instance (s : Server) : ∀ a, Decidable (s.TakesInTurn a)
  | .pop _ => by
    unfold TakesInTurn
    infer_instance
  | .submit _ _ | .run _ _ | .lookup _ | .read _ | .popIo _ | .runIo _ | .sigint | .handle => isTrue trivial

/-- Of the requests that `p` selects at most one is held, and those that ran, it and those
in the queue are the ones sent, in this order. -/
inductive Lane (p : Task → Bool) (s : Server) : Prop where
  | free (others : ∀ v, ∀ t ∈ (s.workers v).held, p t = false)
      (order : s.sent.filter p = (ran s.log).filter p ++ s.queue.filter p) : Lane p s
  | held {w : Fin POOL_THREADS} {task : Task} (self : (s.workers w).held = some task)
      (mine : p task = true) (others : ∀ v, v ≠ w → ∀ t ∈ (s.workers v).held, p t = false)
      (order : s.sent.filter p = (ran s.log).filter p ++ task :: s.queue.filter p) : Lane p s

variable {s s' : Server} {a : Act} {client : Nat} {key : Int32} {p : Task → Bool}

theorem start_lane (o : Opened) : Lane p (start o) :=
  .free (by simp [start, boot, Worker.held]) rfl

theorem holds_others {P : Task → Prop} {v w : Fin POOL_THREADS}
    (self : ∀ t ∈ (s'.workers w).held, P t)
    (others : ∀ v, v ≠ w → (s'.workers v).held = (s.workers v).held)
    (h : v ≠ w → ∀ t ∈ (s.workers v).held, P t) : ∀ t ∈ (s'.workers v).held, P t := by
  by_cases hv : v = w
  · subst hv
    exact self
  · rw [others v hv]
    exact h hv

theorem exists_held_iff {w : Fin POOL_THREADS} {t : Task}
    (others : ∀ v, v ≠ w → (s'.workers v).held = (s.workers v).held) :
    (∃ v, (s'.workers v).held = some t) ↔
      (s'.workers w).held = some t ∨ ∃ v, v ≠ w ∧ (s.workers v).held = some t := by
  constructor
  · rintro ⟨v, hv⟩
    by_cases hvw : v = w
    · subst hvw
      exact Or.inl hv
    · exact Or.inr ⟨v, hvw, (others v hvw).symm.trans hv⟩
  · rintro (hw | ⟨v, hvw, hv⟩)
    · exact ⟨w, hw⟩
    · exact ⟨v, (others v hvw).trans hv⟩

theorem Lane.pop_mine (h : Lane p s) {w : Fin POOL_THREADS} {task : Task} (hp : p task = true)
    (hturn : ∀ v, ∀ t ∈ (s.workers v).held, p t = false) (queue : s.queue = task :: s'.queue)
    (sent : s'.sent = s.sent) (log : s'.log = s.log) (self : (s'.workers w).held = some task)
    (others : ∀ v, v ≠ w → (s'.workers v).held = (s.workers v).held) : Lane p s' := by
  cases h with
  | free _ order =>
    refine .held self hp ?_ ?_
    · intro v hv
      rw [others v hv]
      exact hturn v
    · rw [sent, log, order, queue, List.filter_cons_of_pos hp]
  | held hself hmine _ _ =>
    rw [hturn _ _ hself] at hmine
    cases hmine

theorem Lane.pop_other (h : Lane p s) {w : Fin POOL_THREADS} {task : Task} (hp : ¬p task = true)
    (idle : (s.workers w).held = none) (queue : s.queue = task :: s'.queue)
    (sent : s'.sent = s.sent) (log : s'.log = s.log) (self : (s'.workers w).held = some task)
    (others : ∀ v, v ≠ w → (s'.workers v).held = (s.workers v).held) : Lane p s' := by
  have hqueue : s.queue.filter p = s'.queue.filter p := by rw [queue, List.filter_cons_of_neg hp]
  have hw : ∀ t ∈ (s'.workers w).held, p t = false := by
    intro t ht
    rw [self, Option.mem_some_iff] at ht
    subst ht
    exact Bool.eq_false_of_not_eq_true hp
  cases h with
  | free hothers order =>
    refine .free (fun v => holds_others hw others fun _ => hothers v) ?_
    rw [sent, log, order, hqueue]
  | held hself hmine hothers order =>
    rename_i u task'
    have hne : u ≠ w := by
      rintro rfl
      rw [idle] at hself
      cases hself
    refine .held ((others u hne).trans hself) hmine ?_ ?_
    · intro v hv
      exact holds_others hw others fun _ => hothers v hv
    · rw [sent, log, order, hqueue]

theorem Lane.run_mine (h : Lane p s) {w : Fin POOL_THREADS} {task : Task} (hp : p task = true)
    (worker : (s.workers w).held = some task) (queue : s'.queue = s.queue) (sent : s'.sent = s.sent)
    (hran : ran s'.log = ran s.log ++ [task]) (self : (s'.workers w).held = none)
    (others : ∀ v, v ≠ w → (s'.workers v).held = (s.workers v).held) : Lane p s' := by
  have hw : ∀ t ∈ (s'.workers w).held, p t = false := by simp [self]
  cases h with
  | free hothers _ =>
    rw [hothers w task worker] at hp
    cases hp
  | held hself hmine hothers order =>
    rename_i u task'
    have hu : w = u := by
      by_contra hne
      rw [hothers w hne task worker] at hp
      cases hp
    subst hu
    have htask : task' = task := Option.some.inj (hself.symm.trans worker)
    subst htask
    refine .free (fun v => holds_others hw others fun hv => hothers v hv) ?_
    rw [sent, queue, order, hran, List.filter_append, List.append_assoc]
    simp [hmine]

theorem Lane.run_other (h : Lane p s) {w : Fin POOL_THREADS} {task : Task} (hp : ¬p task = true)
    (worker : (s.workers w).held = some task) (queue : s'.queue = s.queue) (sent : s'.sent = s.sent)
    (hran : ran s'.log = ran s.log ++ [task]) (self : (s'.workers w).held = none)
    (others : ∀ v, v ≠ w → (s'.workers v).held = (s.workers v).held) : Lane p s' := by
  have hw : ∀ t ∈ (s'.workers w).held, p t = false := by simp [self]
  have hlog : (ran s'.log).filter p = (ran s.log).filter p := by
    rw [hran, List.filter_append, List.filter_cons_of_neg hp, List.filter_nil, List.append_nil]
  cases h with
  | free hothers order =>
    refine .free (fun v => holds_others hw others fun _ => hothers v) ?_
    rw [sent, queue, hlog, order]
  | held hself hmine hothers order =>
    rename_i u task'
    have hne : u ≠ w := by
      rintro rfl
      have htask : task' = task := Option.some.inj (hself.symm.trans worker)
      exact hp (htask ▸ hmine)
    refine .held ((others u hne).trans hself) hmine ?_ ?_
    · intro v hv
      exact holds_others hw others fun _ => hothers v hv
    · rw [sent, queue, hlog, order]

theorem step_lane (h : Lane (Task.isOf client key) s) (hturn : s.TakesInTurn a)
    (hs : s.step a = some s') : Lane (Task.isOf client key) s' := by
  cases step_poolChange hs with
  | same queue sent hran held =>
    cases h with
    | free others order => exact .free (fun v => held v ▸ others v) (by rw [sent, queue, hran, order])
    | held self mine others order =>
      exact .held ((held _).trans self) mine (fun v hv => held v ▸ others v hv)
        (by rw [sent, queue, hran, order])
  | submit client_eq op_eq running queue sent log workers =>
    cases h with
    | free others order =>
      refine .free (workers ▸ others) ?_
      rw [sent, queue, log, List.filter_append, List.filter_append, order, List.append_assoc]
    | held self mine others order =>
      refine .held (workers ▸ self) mine (workers ▸ others) ?_
      rw [sent, queue, log, List.filter_append, List.filter_append, order, List.append_assoc,
        List.cons_append]
  | pop idle queue sent log self others =>
    rename_i w task
    by_cases hp : task.isOf client key = true
    · apply h.pop_mine hp _ queue sent log self others
      intro v t ht
      obtain ⟨hclient, hkey⟩ := Task.isOf_iff.mp hp
      have hnot := hturn task (by simp [queue]) v t ht
      rw [hclient, hkey] at hnot
      exact Bool.eq_false_of_not_eq_true hnot
    · exact h.pop_other hp idle queue sent log self others
  | run worker queue sent hran self others =>
    rename_i w flips task
    by_cases hp : task.isOf client key = true
    · exact h.run_mine hp worker queue sent hran self others
    · exact h.run_other hp worker queue sent hran self others

theorem Lane.inOrder (h : Lane p s) : (ran s.log).filter p <+: s.sent.filter p := by
  cases h with
  | free _ order => exact ⟨_, order.symm⟩
  | held _ _ _ order => exact ⟨_, order.symm⟩

/-! ## What holds in every run -/

/-- The requests taken up are those sent before the ones in the queue: each has run or is
held by a worker. -/
def TakenInOrder (s : Server) : Prop :=
  ∃ taken, s.sent = taken ++ s.queue ∧
    ∀ t, t ∈ taken ↔ t ∈ ran s.log ∨ ∃ w, (s.workers w).held = some t

theorem step_takenInOrder (h : s.TakenInOrder) (hs : s.step a = some s') : s'.TakenInOrder := by
  obtain ⟨taken, hsent, hmem⟩ := h
  cases step_poolChange hs with
  | same queue sent hran held =>
    refine ⟨taken, by rw [sent, hsent, queue], ?_⟩
    intro t
    simp only [hmem, hran, held]
  | submit client_eq op_eq running queue sent log workers =>
    refine ⟨taken, by rw [sent, hsent, queue, List.append_assoc], ?_⟩
    intro t
    rw [hmem, log, workers]
  | pop idle queue sent log self others =>
    rename_i w task
    refine ⟨taken ++ [task], by rw [sent, hsent, queue, List.append_assoc]; rfl, ?_⟩
    intro t
    have htask : some task = some t ↔ t = task := by rw [Option.some.injEq, eq_comm]
    rw [List.mem_append, List.mem_singleton, hmem, log, exists_held_iff (s := s) (w := w) fun _ _ => rfl,
      exists_held_iff others, idle, self, htask, or_assoc, or_comm (b := t = task)]
    simp only [reduceCtorEq, false_or]
  | run worker queue sent hran self others =>
    rename_i w flips task
    refine ⟨taken, by rw [sent, hsent, queue], ?_⟩
    intro t
    have htask : some task = some t ↔ t = task := by rw [Option.some.injEq, eq_comm]
    rw [hmem, hran, List.mem_append, List.mem_singleton, exists_held_iff (s := s) (w := w) fun _ _ => rfl,
      exists_held_iff others, worker, self, htask, or_assoc]
    simp only [reduceCtorEq, false_or]

def Replays (s : Server) : Prop :=
  ∀ k, (s.store.write.RWcache.contents.lookup k).map (·.data) = replay k s.log

theorem replay_append (k : Int32) (log : List Event) (e : Event) :
    replay k (log ++ [e]) = e.replay k (replay k log) := by
  rw [replay, List.foldl_append]
  rfl

theorem Replays.quiet (h : s.Replays) (hq : Quiet s s') : s'.Replays := by
  intro k
  rw [hq.write, hq.log]
  exact h k

theorem Replays.flushPart (h : s.Replays) (f : Flush) (hwrite : s'.store = (s.store.flushPart f.task f.phase).1)
    (hlog : s'.log = s.log ++ f.phase.events) : s'.Replays := by
  intro k
  rw [hwrite, hlog]
  cases hp : f.phase with
  | enter =>
    simp only [Store.flushPart, FlushPhase.events, List.append_nil]
    split <;> exact h k
  | mapping p =>
    simp only [Store.flushPart, FlushPhase.events, List.append_nil]
    split <;> exact h k
  | serialize =>
    rw [FlushPhase.events, List.append_nil]
    · exact h k
    · simp
  | clear =>
    simp only [Store.flushPart, FlushPhase.events, ValidList.clear_contents, SortedMap.lookup_empty,
      replay_append, Event.replay, Option.map_none]

theorem handle_replays (h : s.Replays) (hs : s.handle = some s') : s'.Replays := by
  cases handle_cases hs with
  | wait _ _ => exact h
  | alloc _ => exact h
  | flush _ => exact h.flushPart _ rfl rfl
  | image _ => exact h

theorem step_replays (h : s.Replays) (hs : s.step a = some s') : s'.Replays := by
  cases step_change hs with
  | quiet hq => exact h.quiet hq
  | put worker op free hq =>
    rename_i w flips task key value
    refine Replays.quiet ?_ hq
    intro k
    have hlog : ((s.record task).runPut key value flips).log = s.log ++ [.ran task] := rfl
    rw [hlog, replay_append, runPut_contents, record_store, Contents.add, SortedMap.lookup_insert]
    simp only [Event.replay, op, ← h k]
    split
    · rw [Option.map_some, Contents.stored_data]
    · rfl
  | get worker op free hq =>
    rename_i w flips task key
    refine Replays.quiet ?_ hq
    intro k
    rw [record, replay_append]
    simp only [Event.replay, op]
    exact h k
  | del worker op free hq =>
    rename_i w flips task key
    refine Replays.quiet ?_ hq
    intro k
    have hlog : ((s.record task).runDel key).log = s.log ++ [.ran task] := rfl
    rw [hlog, replay_append, runDel_lookup, record_store]
    simp only [Event.replay, op, ← h k]
    split <;> rfl
  | flush worker held hq =>
    refine Replays.quiet ?_ hq
    exact h.flushPart _ rfl rfl
  | sigint hh =>
    obtain ⟨_, rfl⟩ := sigint_cases hh
    exact h
  | handle hh => exact handle_replays h hh

/-- Requests are taken up in the order in which they were sent, and what has run decides
what the write cache answers. Where a request is taken up only while no worker still has
one of the same client and key, those of each client on each key run in the order sent. -/
theorem requests_in_order (o : Opened) (acts : List Act) :
    (exec step (start o) acts).TakenInOrder ∧ (exec step (start o) acts).Replays ∧
      (Along step TakesInTurn (start o) acts → ∀ client key,
        (ran (exec step (start o) acts).log).filter (Task.isOf client key) <+:
          (exec step (start o) acts).sent.filter (Task.isOf client key)) := by
  refine ⟨?_, ?_, ?_⟩
  · apply exec_always (fun _ _ _ h hs => step_takenInOrder h hs) acts
    exact ⟨[], rfl, by simp [start, boot, ran, Worker.held]⟩
  · apply exec_always (fun _ _ _ h hs => step_replays h hs) acts
    intro k
    simp [start, boot, o.write, Cache.new, replay]
  · intro hturn client key
    exact (exec_invariant (fun _ _ _ h ht hs => step_lane h ht hs) acts (start_lane o) hturn).inOrder

def inTurn : List Act :=
  [.submit 0 (.put 1 [97]), .submit 0 (.put 1 [98]), .pop 0, .run 0 fun _ => false, .pop 1,
    .run 1 fun _ => false]

theorem inTurn_in_order : (ran (exec step (start (Opened.new [])) inTurn).log).filter (Task.isOf 0 1) <+:
    (exec step (start (Opened.new [])) inTurn).sent.filter (Task.isOf 0 1) :=
  (requests_in_order (Opened.new []) inTurn).2.2 (by decide +kernel) 0 1

/-- Two workers hold the two PUTs, and the second runs first. -/
def overtaking : List Act :=
  [.submit 0 (.put 1 [97]), .submit 0 (.put 1 [98]), .pop 0, .pop 1, .run 1 fun _ => false,
    .run 0 fun _ => false]

theorem requests_overtake : ¬∀ o acts client key,
    (ran (exec step (start o) acts).log).filter (Task.isOf client key) <+:
      (exec step (start o) acts).sent.filter (Task.isOf client key) := by
  intro hclaim
  exact absurd (hclaim (Opened.new []) overtaking 0 1) (by decide +kernel)

end Server

end KVStorage

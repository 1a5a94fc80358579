import KVStorage.Server

/-!
# No stored key becomes invisible

Before the signal a key leaves the write cache only by a DEL or at the end of a flush
that has mapped it, and no key is ever unmapped. A GET takes the empty value for a miss,
though, and then finds the key nowhere until a flush has mapped it.
-/

namespace KVStorage

set_option autoImplicit false

open Runs

/-- What a PUT puts. -/
def Op.entry : Op → Option (Int32 × Bytes)
  | .put key value => some (key, value)
  | .get _ | .del _ => none

/-- Whether a request stores the key or deletes it. -/
def Op.stores (k : Int32) : Op → Option Bool
  | .put key _ => if key = k then some true else none
  | .get _ => none
  | .del key => if key = k then some false else none

def Event.stores (k : Int32) : Event → Option Bool
  | .ran task => task.op.stores k
  | .cleared => none

/-- A PUT has inserted the key, and no DEL has come since. -/
def Live (k : Int32) (log : List Event) : Prop := (log.filterMap (Event.stores k)).getLast? = some true

instance (k : Int32) (log : List Event) : Decidable (Live k log) :=
  inferInstanceAs (Decidable (_ = some true))

namespace Server

structure Visible (s : Server) : Prop where
  flush : ∀ f, s.lock = some f → s.store.Covers f.phase
  live : ∀ k, Live k s.log → s.store.Cached k ∨ s.store.Mapped k

variable {s s' : Server} {a : Act} {k : Int32}

theorem live_append (k : Int32) (log : List Event) (e : Event) :
    Live k (log ++ [e]) ↔ e.stores k = some true ∨ e.stores k = none ∧ Live k log := by
  unfold Live
  rw [List.filterMap_append, List.getLast?_append]
  cases he : e.stores k with
  | none => simp [he]
  | some b => simp [he]

theorem live_events (k : Int32) (log : List Event) (p : FlushPhase) :
    Live k (log ++ p.events) ↔ Live k log := by
  cases p <;> simp [FlushPhase.events, live_append, Event.stores]

theorem Quiet.retains (h : Quiet s s') : s.store.Retains s'.store ∧
    ∀ k, s'.store.Cached k → s.store.Cached k := by
  refine ⟨⟨fun k hk => ?_, fun k hk => Or.inl ?_⟩, fun k hk => ?_⟩
  · rwa [Store.Mapped, h.fi]
  · rwa [Store.Cached, h.write]
  · rwa [Store.Cached, ← h.write]

theorem Visible.quiet (h : s.Visible) (hq : Quiet s s') : s'.Visible where
  flush := by
    intro f hf
    exact hq.retains.1.covers (fun k hk => Or.inl (hq.retains.2 k hk)) (h.flush f (hq.lock ▸ hf))
  live := by
    intro k hk
    exact hq.retains.1.known (h.live k (hq.log ▸ hk))

theorem Visible.put (h : s.Visible) {task : Task} {key : Int32} {value : Bytes}
    (hop : task.op = .put key value) (hfree : s.lock = none) (flips : Fin level → Bool) :
    ((s.record task).runPut key value flips).Visible where
  flush := by
    intro f hf
    rcases (s.record task).runPut_cases key value flips with ⟨_, hlock⟩ | ⟨_, t, hlock, _⟩
    · rw [hlock] at hf
      exact absurd (hfree.symm.trans hf) (by simp)
    · rw [hlock, Option.some.injEq] at hf
      subst hf
      trivial
  live := by
    intro k hk
    have hlog : ((s.record task).runPut key value flips).log = s.log ++ [.ran task] := rfl
    rw [hlog, live_append] at hk
    simp only [Store.Cached, Store.Mapped, runPut_contents, runPut_map, Contents.add,
      SortedMap.mem_keys_insert]
    rcases hk with hk | ⟨_, hk⟩
    · have hkey : key = k := by
        by_contra hne
        simp [Event.stores, hop, Op.stores, hne] at hk
      exact Or.inl (Or.inl hkey.symm)
    · exact (h.live k hk).imp_left Or.inr

theorem Visible.get (h : s.Visible) {task : Task} {key : Int32} (hop : task.op = .get key) :
    (s.record task).Visible where
  flush := h.flush
  live := by
    intro k hk
    rw [record, live_append] at hk
    rcases hk with hk | ⟨_, hk⟩
    · simp [Event.stores, hop, Op.stores] at hk
    · exact h.live k hk

theorem Visible.del (h : s.Visible) {task : Task} {key : Int32} (hop : task.op = .del key)
    (hfree : s.lock = none) : ((s.record task).runDel key).Visible where
  flush := by
    intro f hf
    exact absurd (hfree.symm.trans hf) (by simp)
  live := by
    intro k hk
    have hlog : ((s.record task).runDel key).log = s.log ++ [.ran task] := rfl
    rw [hlog, live_append] at hk
    rcases hk with hk | ⟨hk, hlive⟩
    · by_cases hkey : key = k <;> simp [Event.stores, hop, Op.stores, hkey] at hk
    · have hne : k ≠ key := by
        rintro rfl
        simp [Event.stores, hop, Op.stores] at hk
      have hknown := h.live k hlive
      simp only [Store.Cached, Store.Mapped, SortedMap.mem_keys_iff] at hknown
      simpa only [Store.Cached, Store.Mapped, SortedMap.mem_keys_iff, runDel_lookup, runDel_fi,
        record_store, if_neg hne] using hknown

theorem Visible.flushPart (h : s.Visible) {f : Flush} (hf : s.lock = some f) :
    (s.runFlush f).Visible where
  flush := by
    intro g hg
    obtain ⟨q, hq, rfl⟩ := Option.map_eq_some_iff.mp hg
    exact Store.flushPart_covers (h.flush f hf) hq
  live := by
    intro k hk
    have hlog : (s.runFlush f).log = s.log ++ f.phase.events := rfl
    rw [hlog, live_events] at hk
    exact (Store.flushPart_retains (h.flush f hf)).known (h.live k hk)

theorem step_visible (h : s.Visible) (hserving : s.handler = .serving) (hsig : a ≠ .sigint)
    (hs : s.step a = some s') : s'.Visible ∧ s'.handler = .serving := by
  cases step_change hs with
  | quiet hq => exact ⟨h.quiet hq, hq.handler.trans hserving⟩
  | put worker op free hq => exact ⟨(h.put op free _).quiet hq, hq.handler.trans hserving⟩
  | get worker op free hq => exact ⟨(h.get op).quiet hq, hq.handler.trans hserving⟩
  | del worker op free hq => exact ⟨(h.del op free).quiet hq, hq.handler.trans hserving⟩
  | flush worker held hq => exact ⟨(h.flushPart held).quiet hq, hq.handler.trans hserving⟩
  | sigint _ => exact absurd rfl hsig
  | handle hh => simp [handle, hserving] at hh

theorem start_visible (o : Opened) : (start o).Visible where
  flush := by simp [start, boot]
  live := by simp [start, boot, Live]

/-- In every state before the signal a key that was put and not deleted since is in the
write cache or in the index, whatever its value. -/
theorem stored_keys_known (o : Opened) (acts : List Act) (hsig : Act.sigint ∉ acts) (k : Int32)
    (hlive : Live k (exec step (start o) acts).log) :
    (exec step (start o) acts).store.Cached k ∨ (exec step (start o) acts).store.Mapped k := by
  have hstep : ∀ (s : Server) (a : Act) (s' : Server), s.Visible ∧ s.handler = .serving →
      a ≠ .sigint → step s a = some s' → s'.Visible ∧ s'.handler = .serving :=
    fun _ _ _ h ha hs => step_visible h.1 h.2 ha hs
  have hserving : Along step (fun _ a => a ≠ .sigint) (start o) acts := by
    apply along_of_forall
    rintro a ha _ rfl
    exact hsig ha
  exact (exec_invariant hstep acts ⟨start_visible o, rfl⟩ hserving).1.live k hlive

/-- A GET that looks in the write cache now finds a value there, or finds the key in the
index whenever it looks there. -/
def NotMissed (s : Server) (k : Int32) : Prop :=
  ∀ later, s.store.write.getWrite k ≠ [] ∨ (exec step s later).store.Mapped k

/-- The keys that a GET has to find are known, and no GET misses them. -/
def NoneMissed (s : Server) : Prop :=
  ∀ k, Live k s.log → (s.store.Cached k ∨ s.store.Mapped k) ∧ s.NotMissed k

/-- A PUT stores a value other than the empty one, or its key has a block already. -/
def Valued (s : Server) : Act → Prop
  | .run w _ => ∀ task ∈ (s.workers w).held, ∀ e ∈ task.op.entry, e.2 ≠ [] ∨ s.store.Mapped e.1
  | _ => True

instance : ∀ (s : Server) (a : Act), Decidable (s.Valued a)
  | s, .run w _ => inferInstanceAs (Decidable (∀ task ∈ (s.workers w).held, ∀ e ∈ task.op.entry,
      e.2 ≠ [] ∨ (s.store.fi.keyBlockMap.lookup e.1).isSome = true))
  | _, .submit _ _ | _, .pop _ | _, .lookup _ | _, .read _ | _, .popIo _ | _, .runIo _ | _, .sigint | _, .handle =>
    isTrue trivial

/-- What a GET needs to find a key: a value in the write cache, or a block. -/
def Findable (s : Server) (k : Int32) : Prop := s.store.write.getWrite k ≠ [] ∨ s.store.Mapped k

theorem notMissed_iff : s.NotMissed k ↔ s.Findable k := by
  constructor
  · intro h
    exact h []
  · intro h later
    exact h.imp_right (exec_always (fun _ _ _ hk hs => (step_grows hs).isMapped hk) later)

theorem runPut_getWrite (s : Server) (key : Int32) (value : Bytes) (flips : Fin level → Bool) (k : Int32) :
    (s.runPut key value flips).store.write.getWrite k = if k = key then value else s.store.write.getWrite k := by
  rw [Cache.getWrite_eq, Cache.getWrite_eq, Contents.search, runPut_contents, Contents.add,
    SortedMap.lookup_insert]
  split
  · rw [Option.map_some, Contents.stored_data, Option.getD_some]
  · rfl

/-- What a step in front of the signal keeps, if it stores no empty value. -/
structure Found (s : Server) : Prop where
  serving : s.handler = .serving
  visible : s.Visible
  findable : ∀ k, Live k s.log → s.Findable k

theorem Found.quiet (h : s.Found) (hq : Quiet s s') : s'.Found where
  serving := hq.handler.trans h.serving
  visible := h.visible.quiet hq
  findable := by
    intro k hk
    rw [Findable, Store.Mapped, hq.write, hq.fi]
    exact h.findable k (hq.log ▸ hk)

theorem Found.put (h : s.Found) {task : Task} {key : Int32} {value : Bytes} (hop : task.op = .put key value)
    (hfree : s.lock = none) (hvalue : value ≠ [] ∨ s.store.Mapped key) (flips : Fin level → Bool) :
    ((s.record task).runPut key value flips).Found where
  serving := h.serving
  visible := h.visible.put hop hfree flips
  findable := by
    intro k hk
    have hlog : ((s.record task).runPut key value flips).log = s.log ++ [.ran task] := rfl
    rw [hlog, live_append] at hk
    rw [Findable, Store.Mapped, runPut_getWrite, runPut_map]
    by_cases hkey : k = key
    · rw [if_pos hkey, hkey]
      exact hvalue
    · rw [if_neg hkey]
      have hother : (Event.ran task).stores k = none := by
        simp [Event.stores, hop, Op.stores, Ne.symm hkey]
      rw [hother] at hk
      exact h.findable k (hk.resolve_left (by simp)).2

theorem Found.get (h : s.Found) {task : Task} {key : Int32} (hop : task.op = .get key) :
    (s.record task).Found where
  serving := h.serving
  visible := h.visible.get hop
  findable := by
    intro k hk
    rw [record, live_append] at hk
    have hother : (Event.ran task).stores k = none := by simp [Event.stores, hop, Op.stores]
    rw [hother] at hk
    exact h.findable k (hk.resolve_left (by simp)).2

theorem Found.del (h : s.Found) {task : Task} {key : Int32} (hop : task.op = .del key)
    (hfree : s.lock = none) : ((s.record task).runDel key).Found where
  serving := h.serving
  visible := h.visible.del hop hfree
  findable := by
    intro k hk
    have hlog : ((s.record task).runDel key).log = s.log ++ [.ran task] := rfl
    rw [hlog, live_append] at hk
    have hne : k ≠ key := by
      rintro rfl
      simp [Event.stores, hop, Op.stores] at hk
    have hother : (Event.ran task).stores k = none := by
      simp [Event.stores, hop, Op.stores, Ne.symm hne] at hk ⊢
    rw [hother] at hk
    have hfound := h.findable k (hk.resolve_left (by simp)).2
    simpa only [Findable, Store.Mapped, Cache.getWrite_eq, Contents.search, runDel_lookup, runDel_fi,
      record_store, if_neg hne] using hfound

theorem Found.flush (h : s.Found) {f : Flush} (hf : s.lock = some f) : (s.runFlush f).Found where
  serving := h.serving
  visible := h.visible.flushPart hf
  findable := by
    intro k hk
    have hlog : (s.runFlush f).log = s.log ++ f.phase.events := rfl
    rw [hlog, live_events] at hk
    have hcovers := h.visible.flush f hf
    by_cases hclear : f.phase = .clear
    · -- the cache is emptied, but all its keys are mapped
      have hmapped : s.store.Mapped k := by
        rw [hclear] at hcovers
        exact (h.visible.live k hk).elim (hcovers k) id
      exact Or.inr (Store.flushPart_mapped hmapped)
    · refine (h.findable k hk).imp ?_ Store.flushPart_mapped
      have hwrite : (s.runFlush f).store.write = s.store.write := Store.flushPart_write hclear
      rw [hwrite]
      exact id

theorem step_found (h : s.Found) (ha : s.Valued a) (hsig : a ≠ .sigint) (hs : s.step a = some s') : s'.Found := by
  cases step_change hs with
  | quiet hq => exact h.quiet hq
  | @put w flips task key value _ worker op free hq =>
    have hvalue := ha task (by rw [worker, Worker.held]; rfl) (key, value) (by rw [op, Op.entry]; rfl)
    exact (h.put op free hvalue _).quiet hq
  | get worker op free hq => exact (h.get op).quiet hq
  | del worker op free hq => exact (h.del op free).quiet hq
  | flush worker held hq => exact (h.flush held).quiet hq
  | sigint _ => exact absurd rfl hsig
  | handle hh => simp [handle, h.serving] at hh

theorem start_found (o : Opened) : (start o).Found where
  serving := rfl
  visible := start_visible o
  findable := by simp [start, boot, Live]

theorem Found.noneMissed (h : s.Found) : s.NoneMissed :=
  fun k hk => ⟨h.visible.live k hk, notMissed_iff.mpr (h.findable k hk)⟩

/-- A PUT of the empty value under a new key can be missed at once. -/
theorem valued_of_noneMissed (h : s'.NoneMissed) (hs : s.step a = some s') : s.Valued a := by
  cases a with
  | run w flips =>
    obtain ⟨task, hw, _, ⟨key, value, hop, rfl⟩ | ⟨_, hop, _⟩ | ⟨_, hop, _⟩⟩ := run_cases hs
    all_goals
      simp only [Valued, hw, Worker.held, Option.mem_some_iff, forall_eq', hop, Op.entry, Option.not_mem_none,
        false_implies, implies_true]
    have hlive : Live key (s.log ++ [.ran task]) :=
      (live_append key s.log _).mpr (Or.inl (by simp [Event.stores, hop, Op.stores]))
    have hfound := notMissed_iff.mp (h key hlive).2
    change ((s.record task).runPut key value flips).Findable key at hfound
    rwa [Findable, Store.Mapped, runPut_getWrite, runPut_map, if_pos rfl] at hfound
  | _ => trivial

/-- In every run in front of the signal: the keys that were put and not deleted since are always in the
write cache or in the index, and no GET misses one in both, if and only if no PUT stores the
empty value under a key without a block. -/
theorem stored_keys_visible_iff (o : Opened) (acts : List Act) (hsig : Act.sigint ∉ acts) :
    (∀ bs, bs <+: acts → (exec step (start o) bs).NoneMissed) ↔ Along step Valued (start o) acts := by
  constructor
  · intro h
    rw [along_iff_steps]
    intro bs a hbs hs
    obtain ⟨s', hs⟩ := Option.isSome_iff_exists.mp hs
    have hafter := h (bs ++ [a]) hbs
    rw [exec_append, exec, next_eq hs] at hafter
    exact valued_of_noneMissed hafter hs
  · rintro h bs ⟨cs, rfl⟩
    have hserving : Along step (fun _ a => a ≠ .sigint) (start o) bs := by
      apply along_of_forall
      rintro a ha _ rfl
      exact hsig (List.mem_append_left _ ha)
    have hall := (along_and_iff _ _).mpr ⟨((along_append _ bs cs).mp h).1, hserving⟩
    exact (exec_invariant (fun _ _ _ h hc hs => step_found h hc.1 hc.2 hs) bs (start_found o) hall).noneMissed

/-- A PUT that has run. -/
def onePut (key : Int32) (value : Bytes) : List Act :=
  [.submit 0 (.put key value), .pop 0, .run 0 fun _ => false]

theorem onePut_visible : (exec step (start (Opened.new [])) (onePut 1 [97])).NoneMissed :=
  (stored_keys_visible_iff (Opened.new []) (onePut 1 [97]) (by simp [onePut])).mpr (by decide +kernel) _
    (List.prefix_refl _)

/-- A GET that runs up to its second lookup. -/
def oneGet (key : Int32) : List Act := [.submit 0 (.get key), .pop 0, .run 0 fun _ => false]

/-- The key of the empty value is live, and a GET finds nothing in the write cache and nothing in
the index. -/
theorem empty_value_missed :
    Live 5 (exec step (start (Opened.new [])) (onePut 5 [])).log ∧
      (exec step (start (Opened.new [])) (onePut 5 [] ++ oneGet 5)).workers 0 = .lookup 5 ∧
        (exec step (start (Opened.new [])) (onePut 5 [] ++ oneGet 5 ++ [.lookup 0])).workers 0 = .idle ∧
          ¬(exec step (start (Opened.new [])) (onePut 5 [])).NoneMissed := by
  have hlive : Live 5 (exec step (start (Opened.new [])) (onePut 5 [])).log := by decide +kernel
  refine ⟨hlive, rfl, rfl, ?_⟩
  intro h
  rcases notMissed_iff.mp (h 5 hlive).2 with hvalue | hmapped
  · exact hvalue rfl
  · cases hmapped

end Server

end KVStorage

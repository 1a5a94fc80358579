import KVStorage.SavedValues
import KVStorage.Segments

/-!
# The traffic of the client

What `client.cpp` sends, drawn from `rand`, and what it does to the server: its keys and
values keep every block inside its place, whatever is sent by however many clients.
-/

namespace KVStorage

set_option autoImplicit false

open Extraction HandleClient Transducer

namespace Client

/-- The letters and digits of `charset`, without the terminator. -/
def charset : Bytes :=
  (List.range 26).map (fun i => UInt8.ofNat (97 + i)) ++ (List.range 26).map (fun i => UInt8.ofNat (65 + i)) ++
    (List.range 10).map fun i => UInt8.ofNat (48 + i)

/-- `rand n` is what the n-th call of `rand` gives. -/
def generateRandomString (length : Nat) (rand : Nat → Nat) : Bytes :=
  (List.range length).map fun i => charset.getD (rand i % charset.length) 0

/-- What one round of `connectAndSendRequests` sends, and how often it calls `rand`. -/
def connectAndSendRequest (rand : Nat → Nat) : Bytes × Nat :=
  let requestType := rand 0 % 3
  let key := decimal (Int32.ofNat (rand 1 % 100000))
  let valueLength := rand 2 % 100 + 1
  let value := generateRandomString valueLength fun n => rand (3 + n)
  (match requestType with
    | 0 => PUT ++ [32] ++ key ++ [32] ++ value
    | 1 => GET ++ [32] ++ key
    | 2 => DEL ++ [32] ++ key
    | _ => [],
    3 + valueLength)

/-- The requests of the first rounds. -/
def connectAndSendRequests : Nat → (Nat → Nat) → List Bytes
  | 0, _ => []
  | rounds + 1, rand =>
    (connectAndSendRequest rand).1 ::
      connectAndSendRequests rounds fun n => rand (n + (connectAndSendRequest rand).2)

/-- A key that the client draws. -/
def Key (key : Int32) : Prop := 0 ≤ key.toInt ∧ key.toInt < 100000

instance (key : Int32) : Decidable (Key key) := inferInstanceAs (Decidable (0 ≤ key.toInt ∧ key.toInt < 100000))

/-- A value that the client draws. -/
structure Value (value : Bytes) : Prop where
  ne_nil : value ≠ []
  length : value.length ≤ 100
  chars : ∀ c ∈ value, c ∈ charset

/-- An operation that the client asks for. -/
def Asks : Op → Prop
  | .put key value => Key key ∧ Value value
  | .get key => Key key
  | .del key => Key key

/-! ## The requests are those that were drawn -/

theorem charset_facts : ∀ c ∈ charset, isSpace c = false ∧ c ≠ 0 ∧ ValidUtf8 [c] := by decide +kernel

theorem drawn_char (n : Nat) : charset.getD (n % charset.length) 0 ∈ charset := by
  have hlt : n % charset.length < charset.length := Nat.mod_lt _ (by decide)
  rw [List.getD_eq_getElem?_getD, List.getElem?_eq_getElem hlt, Option.getD_some]
  exact List.getElem_mem hlt

theorem generateRandomString_value {length : Nat} (h : 0 < length ∧ length ≤ 100) (rand : Nat → Nat) :
    Value (generateRandomString length rand) := by
  have hlength : (generateRandomString length rand).length = length := by
    rw [generateRandomString, List.length_map, List.length_range]
  refine ⟨List.ne_nil_of_length_pos (by omega), by omega, ?_⟩
  intro c hc
  obtain ⟨i, _, rfl⟩ := List.mem_map.mp hc
  exact drawn_char (rand i)

theorem drawn_key (n : Nat) : Key (Int32.ofNat (n % 100000)) := by
  have hlt : n % 100000 < 100000 := Nat.mod_lt _ (by omega)
  unfold Key
  rw [Int32.toInt_ofNat_of_lt (by omega)]
  omega

/-- Each request is the text of an operation that the client can ask for. -/
theorem request_text (rand : Nat → Nat) :
    ∃ op, Asks op ∧ (connectAndSendRequest rand).1 = text op := by
  have hkey := drawn_key (rand 1)
  have hlength : 0 < rand 2 % 100 + 1 ∧ rand 2 % 100 + 1 ≤ 100 := by omega
  have hvalue := generateRandomString_value hlength fun n => rand (3 + n)
  have htype : rand 0 % 3 = 0 ∨ rand 0 % 3 = 1 ∨ rand 0 % 3 = 2 := by omega
  unfold connectAndSendRequest
  rcases htype with htype | htype | htype
  · exact ⟨.put _ _, ⟨hkey, hvalue⟩, by simp [htype, text]⟩
  · exact ⟨.get _, hkey, by simp [htype, text]⟩
  · exact ⟨.del _, hkey, by simp [htype, text]⟩

theorem Asks.sendable {op : Op} (h : Asks op) : Sendable op := by
  cases op with
  | put key value =>
    refine ⟨h.2.ne_nil, fun c hc => ?_⟩
    obtain ⟨hspace, hnul, _⟩ := charset_facts c (h.2.chars c hc)
    exact ⟨hspace, hnul⟩
  | get key => trivial
  | del key => trivial

/-- The server makes of the requests what was asked for, whatever its variables held. -/
theorem requests_asked (rounds : Nat) (rand : Nat → Nat) (key₀ : Nat → Int32) :
    ∃ ops : List Op, (∀ op ∈ ops, Asks op) ∧ connectAndSendRequests rounds rand = ops.map text ∧
      tasks key₀ (connectAndSendRequests rounds rand) = ops := by
  induction rounds generalizing rand key₀ with
  | zero => exact ⟨[], nofun, rfl, rfl⟩
  | succ rounds ih =>
    obtain ⟨op, hasks, htext⟩ := request_text rand
    obtain ⟨ops, hops, hrequests, htasks⟩ := ih (fun n => rand (n + (connectAndSendRequest rand).2)) fun n => key₀ (n + 1)
    refine ⟨op :: ops, ?_, ?_, ?_⟩
    · exact List.forall_mem_cons.mpr ⟨hasks, hops⟩
    · rw [connectAndSendRequests, hrequests, htext, List.map_cons]
    · rw [connectAndSendRequests, tasks, htasks, htext, parse_text _ hasks.sendable]
      rfl

/-! ## What a block of them takes -/

/-- A cache with nothing but what the client sends. -/
def Drawn (m : Contents) : Prop := ∀ k v, m.lookup k = some v → Key k ∧ Value v.data

variable {m : Contents} {k : Int32} {value : Bytes}

theorem validUtf8_append {front back : Bytes} (hfront : ValidUtf8 front) (hback : ValidUtf8 back) :
    ValidUtf8 (front ++ back) := by
  unfold ValidUtf8 at hfront hback ⊢
  rw [List.toByteArray_append]
  exact hfront.append hback

theorem validUtf8_of_chars (h : ∀ c ∈ value, c ∈ charset) : ValidUtf8 value := by
  induction value with
  | nil => exact validUtf8_nil
  | cons c value ih =>
    have hc := (charset_facts c (h c List.mem_cons_self)).2.2
    have hrest := ih fun c' hc' => h c' (List.mem_cons_of_mem c hc')
    exact validUtf8_append hc hrest

/-- There are a hundred thousand keys to draw. -/
theorem keys_length_le {β : Type} (m : SortedMap Int32 β) (h : ∀ k ∈ m.keys, Key k) : m.keys.length ≤ 100000 := by
  have hnodup : (m.keys.map fun k => k.toInt.toNat).Nodup := by
    apply List.Nodup.map_on _ m.keys_nodup
    intro k hk k' hk' he
    have hkey := h k hk
    have hkey' := h k' hk'
    unfold Key at hkey hkey'
    apply Int32.toInt_inj.mp
    omega
  have hsub : (m.keys.map fun k => k.toInt.toNat).Subperm (List.range 100000) := by
    apply hnodup.subperm
    intro n hn
    obtain ⟨k, hk, rfl⟩ := List.mem_map.mp hn
    have hkey := h k hk
    unfold Key at hkey
    rw [List.mem_range]
    omega
  have hlength := hsub.length_le
  rwa [List.length_map, List.length_range] at hlength

theorem nodeBytes_le (key : Int32) {length : Nat} (h : length ≤ 100) (after : Option Int32) :
    nodeBytes key length after ≤ 198 := by
  have hafter := WireSize.int32_le (after.getD (-2))
  have hkey := WireSize.int32_le key
  have hlinks : WireSize.varint (WireSize.int32 (after.getD (-2)) + 7 * 10) = 1 :=
    WireSize.varint_small (by omega)
  have hvalue : (if length = 0 then 0 else 1 + WireSize.delimited length) ≤ 102 := by
    have hlength : WireSize.varint length = 1 := WireSize.varint_small (by omega)
    unfold WireSize.delimited
    split <;> omega
  have hfield : (if key = 0 then 0 else 1 + WireSize.int32 key) ≤ 11 := by split <;> omega
  simp only [nodeBytes, hlinks]
  generalize hfields : (1 + 1 + (WireSize.int32 (after.getD (-2)) + 7 * 10)) +
    (if length = 0 then 0 else 1 + WireSize.delimited length) +
    (if key = 0 then 0 else 1 + WireSize.int32 key) = fields
  have hlt : fields < 2 ^ (7 * 2) := by omega
  have htwo := WireSize.varint_le Nat.two_pos hlt
  unfold WireSize.delimited
  omega

theorem entriesBytes_le (es : List (Int32 × CppString)) (h : ∀ e ∈ es, e.2.data.length ≤ 100) :
    entriesBytes es ≤ 198 * es.length := by
  induction es with
  | nil => exact Nat.zero_le _
  | cons e es ih =>
    have hnode := nodeBytes_le e.1 (h e List.mem_cons_self) (es.head?.map Prod.fst)
    have hrest := ih fun e' he' => h e' (List.mem_cons_of_mem e he')
    rw [entriesBytes, List.length_cons]
    omega

theorem Drawn.entry (h : Drawn m) {e : Int32 × CppString} (he : e ∈ m.entries) : Key e.1 ∧ Value e.2.data :=
  h e.1 e.2 ((m.lookup_eq_some_iff e.1 e.2).mpr he)

theorem Drawn.key (h : Drawn m) (hk : k ∈ m.keys) : Key k := by
  obtain ⟨v, hv⟩ := (m.mem_keys_iff k).mp hk
  exact (h k v hv).1

theorem Drawn.lookup_of_not_key (h : Drawn m) (hk : ¬Key k) : m.lookup k = none := by
  rw [m.lookup_eq_none_iff]
  intro hmem
  exact hk (h.key hmem)

/-- Every key at once, each with the longest value, still fits in a block. -/
theorem Drawn.placeable (h : Drawn m) : m.Placeable := by
  constructor
  · have hkeys := keys_length_le m fun k hk => h.key hk
    have hhead := nodeBytes_le (-1) (Nat.zero_le 100) m.keys.head?
    have hentries := entriesBytes_le m.entries fun e he => (h.entry he).2.length
    rw [SortedMap.keys, List.length_map] at hkeys
    rw [worstBytes, blockSize_toNat]
    omega
  · intro e he
    exact validUtf8_of_chars (h.entry he).2.chars
  · exact h.lookup_of_not_key (by decide)
  · exact h.lookup_of_not_key (by decide)

theorem Drawn.add (h : Drawn m) (hkey : Key k) (hvalue : Value value) : Drawn (m.add k value) := by
  intro k' v hk'
  rw [Contents.add, SortedMap.lookup_insert] at hk'
  split at hk'
  · rename_i he
    rw [Option.some.injEq] at hk'
    rw [he, ← hk', Contents.stored_data]
    exact ⟨hkey, hvalue⟩
  · exact h k' v hk'

end Client

/-! ## What the server does with it -/

/-- The task that the pool gets. -/
def FileRequest.task : FileRequest → Option Op
  | .put key value _ => some (.put key value)
  | .get key => some (.get key)
  | .del key => some (.del key)
  | .restart _ _ => none
  | .crash _ => none

/-- The process that a start makes. -/
def FileRequest.process : FileRequest → Option Boot
  | .restart _ b => some b
  | .crash b => some b
  | _ => none

namespace Store

/-- A flush that a put submits has got a block. -/
def FindsBlock (s : Store) : FileRequest → Prop
  | .put key value flips => ∀ task ∈ (s.write.put s.fi key value flips).2.2, task.freeBlock ≠ noBlock
  | _ => True

instance : ∀ (s : Store) (r : FileRequest), Decidable (s.FindsBlock r)
  | s, .put key value flips => inferInstanceAs
      (Decidable (∀ task ∈ (s.write.put s.fi key value flips).2.2, task.freeBlock ≠ noBlock))
  | _, .get _ => isTrue trivial
  | _, .del _ => isTrue trivial
  | _, .restart _ _ => isTrue trivial
  | _, .crash _ => isTrue trivial

/-- The handler writes the tables into block 0. -/
def Saves (s : Store) : FileRequest → Prop
  | .restart _ _ => s.handlerFlush.fi.writeToBlock0.2.isSome
  | _ => True

end Store

namespace Client

/-- The server has the request from a client, or it starts with a size in memory that does not
make the constructor of a vector throw. -/
structure Comes (r : FileRequest) : Prop where
  sent : ∀ op ∈ r.task, ∃ rand key₀, parse key₀ (connectAndSendRequest rand).1 = some op
  size : ∀ b ∈ r.process, b.infoSize.toNat ≤ maxVector

/-- A store that nothing but clients put to. -/
structure Tame (s : Store) : Prop where
  written : Drawn s.write.RWcache.contents
  mapped : ∀ k b, s.fi.keyBlockMap.lookup k = some b → Key k
  dated : Dated s.fi.superBlock
  saved : ∀ info, s.image = some info → Dated info.superBlock

variable {s s' : Store} {r : FileRequest}

theorem Comes.asks (h : Comes r) {op : Op} (hop : r.task = some op) : Asks op := by
  obtain ⟨rand, key₀, hparse⟩ := h.sent op hop
  obtain ⟨op', hasks, htext⟩ := request_text rand
  rw [htext, parse_text key₀ hasks.sendable, Option.some.injEq] at hparse
  rw [← hparse]
  exact hasks

theorem start_tame (b : Boot) : Tame (Store.start b.createTime) where
  written := by simp [Drawn, Store.start, Cache.new]
  mapped := by simp [Store.start, FileInfo.new]
  dated := ⟨b.createTime, b.utf8, b.length, rfl⟩
  saved := by simp [Store.start]

theorem Tame.setWrite (h : Tame s) {c : Cache} (hc : Drawn c.RWcache.contents) : Tame { s with write := c } :=
  ⟨hc, h.mapped, h.dated, h.saved⟩

theorem Tame.alloc (h : Tame s) : Tame { s with fi := s.fi.getFreeBlock.1 } := by
  refine ⟨h.written, ?_, ?_, h.saved⟩
  · rw [FileInfo.getFreeBlock_map]
    exact h.mapped
  · have hsuper : s.fi.getFreeBlock.1.superBlock = s.fi.superBlock := FileInfo.apply_superBlock s.fi .getFreeBlock
    rw [hsuper]
    exact h.dated

/-- A flush maps keys that the client has sent. -/
theorem Tame.flush (h : Tame s) (freeSpace freeBlock : SizeT) : Tame (s.flush freeSpace freeBlock) := by
  by_cases hb : freeBlock = noBlock
  · rwa [hb, Store.flush_noBlock]
  rw [Store.flush_eq _ hb]
  constructor
  · simp [Drawn]
  · intro k b hk
    rw [flushedInfo_lookup] at hk
    cases hold : s.fi.keyBlockMap.lookup k with
    | some c => exact h.mapped k c hold
    | none =>
      rw [hold, Option.none_or] at hk
      split at hk
      · rename_i hmem
        exact h.written.key hmem
      · cases hk
  · rw [flushedInfo_superBlock]
    exact h.dated
  · exact h.saved

theorem Tame.writeToBlock0 (h : Tame s) : Tame s.writeToBlock0 := by
  refine ⟨h.written, h.mapped, h.dated, ?_⟩
  intro info himage
  rw [Store.writeToBlock0, savedImage] at himage
  cases hinfo : s.fi.writeToBlock0.2 with
  | none =>
    rw [hinfo, Option.none_or] at himage
    exact h.saved info himage
  | some written =>
    rw [hinfo, Option.some_or, Option.some.injEq] at himage
    rw [← himage, FileInfo.writeToBlock0_image hinfo]
    exact h.dated

theorem Tame.signalHandler (h : Tame s) : Tame s.signalHandler := (h.alloc.flush _ _).writeToBlock0

theorem Tame.reload (h : Tame s) (hsound : s.Sound) {b : Boot} (hs : s.reload b.createTime = some s') : Tame s' := by
  obtain ⟨old, hopen, rfl⟩ := Store.reload_eq hs
  obtain ⟨old', hopen', _, hearlier⟩ := hsound.saved b.createTime
  obtain rfl : old' = old := Option.some.inj (hopen'.symm.trans hopen)
  constructor
  · simp [Drawn, Cache.new]
  · intro k b hk
    exact h.mapped k b (hearlier.mapped k b hk)
  · exact reopen_dated hopen h.saved
  · exact h.saved

theorem Tame.serve (h : Tame s) (hready : s.Ready) (hr : Comes r) {answer : Option Bytes}
    (hs : s.serve r = some (s', answer)) : Tame s' := by
  cases r with
  | put key value flips =>
    cases hs
    obtain ⟨hkey, hvalue⟩ := hr.asks rfl
    obtain ⟨c, hc, hput⟩ := s.processPutRequests_cases key value flips
    have hdrawn : Drawn c.RWcache.contents := by
      rw [hc]
      exact h.written.add hkey hvalue
    rcases hput with ⟨_, hput⟩ | ⟨task, _, _, hput⟩
    · rw [hput]
      exact h.setWrite hdrawn
    · rw [hput]
      exact (h.alloc.setWrite hdrawn).flush _ _
  | get key =>
    cases hs
    obtain ⟨read, hget⟩ := s.processGetRequests_eq key
    rw [hget]
    exact ⟨h.written, h.mapped, h.dated, h.saved⟩
  | del key =>
    cases hs
    rw [Store.processDelRequests_eq]
    apply h.setWrite
    intro k v hk
    rw [Cache.delhander_contents_lookup] at hk
    split at hk
    · cases hk
    · exact h.written k v hk
  | restart iteration b =>
    exact h.signalHandler.reload hready.sound.handlerFlush.writeToBlock0 (Store.serve_restart hs).1
  | crash b =>
    exact h.reload hready.sound (Store.serve_crash hs).1

/-- All the keys that the client can draw fit in block 0. -/
theorem Tame.image_fits (h : Tame s) (hsound : s.Sound) : s.fi.writeToBlock0.2.isSome := by
  obtain ⟨time, _, hlength, hsuper⟩ := h.dated
  have hlive : s.fi.Live time := by
    refine ⟨hsuper, fun k b hk => ?_⟩
    obtain ⟨_, ⟨hlt, _⟩, _⟩ := hsound.live.mapped k b hk
    exact hlt
  have hlive' : s.fi.writeToBlock0.1.Live time := hlive.congr rfl rfl
  have htables := FileInfo.tableBytes_le hlive' hlength
  have hsum := FileInfo.entries_sum_le s.fi.keyBlockMap
  have hkeys := keys_length_le s.fi.keyBlockMap fun k hk => by
    obtain ⟨b, hb⟩ := (s.fi.keyBlockMap.mem_keys_iff k).mp hk
    exact h.mapped k b hb
  have hmap : s.fi.writeToBlock0.1.toProto.keyBlockMap = s.fi.keyBlockMap := rfl
  apply (hlive.writeToBlock0_iff hlength).mpr
  rw [InfoProto.indexBytes, hmap, blockSize_toNat]
  omega

theorem Tame.persists (h : Tame s) (hr : Comes r) (hfree : s.FindsBlock r) : s.Persists r := by
  cases r with
  | put key value flips =>
    obtain ⟨hkey, hvalue⟩ := hr.asks rfl
    intro task htask
    exact ⟨hfree task htask, (h.written.add hkey hvalue).placeable⟩
  | get key => trivial
  | del key => trivial
  | restart iteration b => exact ⟨fun _ => h.written.placeable, hr.size b rfl⟩
  | crash b => exact hr.size b rfl

theorem Tame.saves (h : Tame s) (hsound : s.Sound) : s.Saves r := by
  cases r with
  | restart iteration b => exact (h.alloc.flush _ _).image_fits hsound.handlerFlush
  | put => trivial
  | get => trivial
  | del => trivial
  | crash => trivial

/-- Whatever is sent by however many clients, and however the processes end, the program on the
file survives and answers as the store on stored maps does, as long as the puts find free
blocks; no process fails to write its tables into block 0. -/
theorem requests_served {b : Boot} (hsize : b.infoSize.toNat ≤ maxVector) (rs : List FileRequest)
    (hcome : ∀ r ∈ rs, Comes r) (hfree : Along Store.serve Store.FindsBlock (Store.start b.createTime) rs) :
    ∃ f f' s' answers, FileStore.boot (some []) b = some f ∧ run FileStore.serve f rs = some (f', answers) ∧
      run Store.serve (Store.start b.createTime) rs = some (s', answers) ∧ f'.Refines s' ∧
        Along Store.serve Store.Saves (Store.start b.createTime) rs := by
  have hstep : ∀ s r s' answer, s.Ready ∧ Tame s → s.FindsBlock r ∧ Comes r → s.serve r = some (s', answer) →
      s'.Ready ∧ Tame s' :=
    fun _ _ _ _ h hr hs => ⟨h.1.serve hs, h.2.serve h.1 hr.2 hs⟩
  have hstart := And.intro (Store.start_ready b.createTime) (start_tame b)
  have hcond := along_and hfree (along_of_forall fun r hr _ => hcome r hr)
  have hpersists : Along Store.serve Store.Persists (Store.start b.createTime) rs :=
    along_of_invariant hstep (fun _ _ h hr => h.2.persists hr.2 hr.1) rs hstart hcond
  have hsaves : Along Store.serve Store.Saves (Store.start b.createTime) rs :=
    along_of_invariant hstep (fun _ _ h _ => h.2.saves h.1.sound) rs hstart hcond
  obtain ⟨f, hboot, hfollows⟩ := FileStore.boot_follows hsize
  obtain ⟨f', s', answers, hf, hs, hend⟩ := hfollows.run rs hpersists
  exact ⟨f, f', s', answers, hboot, hf, hs, hend.refines, hsaves⟩

/-- A value is sent, asked for, saved, deleted and asked for again. -/
def lettersSent : List FileRequest :=
  [.put 7 [97, 98] fun _ => true, .get 7, .restart ⟨id, List.Perm.refl⟩ (FileStore.epochBoot 3), .del 7,
    .crash (FileStore.epochBoot 0), .get 7]

theorem lettersSent_comes : ∀ r ∈ lettersSent, Comes r := by
  have hput : ∃ rand key₀, parse key₀ (connectAndSendRequest rand).1 = some (.put 7 [97, 98]) :=
    ⟨fun n => [0, 7, 1, 0, 1].getD n 0, 0, by decide +kernel⟩
  have hget : ∃ rand key₀, parse key₀ (connectAndSendRequest rand).1 = some (.get 7) :=
    ⟨fun n => [1, 7].getD n 0, 0, by decide +kernel⟩
  have hdel : ∃ rand key₀, parse key₀ (connectAndSendRequest rand).1 = some (.del 7) :=
    ⟨fun n => [2, 7].getD n 0, 0, by decide +kernel⟩
  have hgets : Comes (.get 7) := ⟨by simpa [FileRequest.task] using hget, by simp [FileRequest.process]⟩
  simp only [lettersSent, List.forall_mem_cons]
  refine ⟨⟨?_, ?_⟩, hgets, ⟨?_, ?_⟩, ⟨?_, ?_⟩, ⟨?_, ?_⟩, hgets, by simp⟩
  · simpa [FileRequest.task] using hput
  · simp [FileRequest.process]
  · simp [FileRequest.task]
  · simp only [FileRequest.process, Option.mem_some, forall_eq']
    decide
  · simpa [FileRequest.task] using hdel
  · simp [FileRequest.process]
  · simp [FileRequest.task]
  · simp only [FileRequest.process, Option.mem_some, forall_eq']
    decide

theorem requests_served_letters :
    ∃ f f' s' answers, FileStore.boot (some []) (FileStore.epochBoot 1) = some f ∧
      run FileStore.serve f lettersSent = some (f', answers) ∧
      run Store.serve (Store.start WriteSide.epoch) lettersSent = some (s', answers) ∧ f'.Refines s' ∧
        Along Store.serve Store.Saves (Store.start WriteSide.epoch) lettersSent :=
  requests_served (b := FileStore.epochBoot 1) (by decide) lettersSent lettersSent_comes (by decide +kernel)

end Client

end KVStorage

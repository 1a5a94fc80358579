import Mathlib.Algebra.BigOperators.Fin
import KVStorage.HandleClient
import KVStorage.Library.Runs

/-!
# Flow control

`submit` refuses a task when the queue is full, and the client is told to pause. The
length is read in one critical section of the queue and the task pushed in another; the
status lock that is held meanwhile is a shared one.
-/

namespace KVStorage

set_option autoImplicit false

open Runs

/-- What one `read` of a connection returned, with its number among the reads. -/
structure Message where
  number : Nat
  key₀ : Int32
  buffer : Bytes
  deriving DecidableEq

namespace Message

def task (m : Message) (client : Nat) : Option Task :=
  (HandleClient.parse m.key₀ m.buffer).map fun op => ⟨client, m.number, op⟩

theorem task_eq {m : Message} {client : Nat} {t : Task} (h : m.task client = some t) :
    t.client = client ∧ t.num = m.number := by
  obtain ⟨op, _, rfl⟩ := Option.map_eq_some_iff.mp h
  exact ⟨rfl, rfl⟩

end Message

/-- A thread in `handleClient`, by what it does next. -/
inductive ClientThread where
  /-- It is at the head of the loop, where it looks at `producing`. -/
  | looping
  | reading
  /-- `submit` takes the shared status lock and looks at the status. -/
  | submitting (message : Message) (task : Task)
  /-- It reads the length of the queue. -/
  | checking (message : Message) (task : Task)
  | pushing (message : Message) (task : Task)
  /-- It writes to the socket; `submit` has returned, or has thrown. -/
  | answering (message : Message) (accepted : Bool)
  | closed
  deriving DecidableEq

/-- Whether the thread holds the status lock. -/
def ClientThread.sharesStatus : ClientThread → Bool
  | .checking _ _ | .pushing _ _ => true
  | .looping | .reading | .submitting _ _ | .answering _ _ | .closed => false

/-- Whether the thread has read a length that lets it push. -/
def ClientThread.pushes : ClientThread → Bool
  | .pushing _ _ => true
  | .looping | .reading | .submitting _ _ | .checking _ _ | .answering _ _ | .closed => false

/-- A request and the reply to it, with the counters around them. -/
structure Answer (n : Nat) where
  client : Fin n
  message : Message
  reply : String
  before : HandleClient.Counts
  after : HandleClient.Counts

/-- The `n` connections and the queue of the pool. -/
structure Flow (n : Nat) where
  threads : Fin n → ClientThread
  counts : Fin n → HandleClient.Counts
  reads : Fin n → Nat
  queue : List Task
  popped : List Task
  answers : List (Answer n)
  running : Bool
  producing : Bool

inductive FlowAct (n : Nat) where
  | loop (c : Fin n)
  /-- The client's next request arrives. -/
  | request (c : Fin n) (key₀ : Int32) (buffer : Bytes)
  /-- `read` fails, or finds that the client has gone. -/
  | disconnect (c : Fin n)
  | status (c : Fin n)
  | check (c : Fin n)
  | push (c : Fin n)
  | reply (c : Fin n)
  /-- A worker takes the first task. -/
  | pop
  /-- Another thread changes the status of the pool, under the exclusive lock. -/
  | setStatus (running : Bool)
  | stopProducing

namespace Flow

variable {n : Nat}

def start (n : Nat) : Flow n :=
  { threads := fun _ => .looping
    counts := fun _ => ⟨0, 0, 0⟩
    reads := fun _ => 0
    queue := []
    popped := []
    answers := []
    running := true
    producing := true }

def setThread (s : Flow n) (c : Fin n) (t : ClientThread) : Flow n :=
  { s with threads := Function.update s.threads c t }

/-- Every task that was enqueued. -/
def pushed (s : Flow n) : List Task := s.popped ++ s.queue

/-- One round of `handleClient` ends with the reply. -/
def answer (s : Flow n) (c : Fin n) (message : Message) (accepted : Bool) : Answer n :=
  let handled := HandleClient.handleRequest (s.counts c) accepted message.key₀ message.buffer
  { client := c
    message := message
    reply := handled.reply
    before := s.counts c
    after := handled.counts }

def step (maxTaskCount : Nat) (s : Flow n) : FlowAct n → Option (Flow n)
  | .loop c =>
    match s.threads c with
    | .looping => some (s.setThread c (if s.producing then .reading else .closed))
    | _ => none
  | .request c key₀ buffer =>
    if s.threads c = .reading then
      let message : Message := ⟨s.reads c, key₀, buffer⟩
      let s := { s with reads := Function.update s.reads c (s.reads c + 1) }
      match message.task c with
      | none => some (s.setThread c (.answering message false))
      | some task => some (s.setThread c (.submitting message task))
    else none
  | .disconnect c => if s.threads c = .reading then some (s.setThread c .closed) else none
  | .status c =>
    match s.threads c with
    | .submitting message task =>
      if s.running then some (s.setThread c (.checking message task))
      else some (s.setThread c (.answering message false))
    | _ => none
  | .check c =>
    match s.threads c with
    | .checking message task =>
      if 0 < maxTaskCount ∧ maxTaskCount ≤ s.queue.length then
        some (s.setThread c (.answering message false))
      else some (s.setThread c (.pushing message task))
    | _ => none
  | .push c =>
    match s.threads c with
    | .pushing message task =>
      let s := { s with queue := s.queue ++ [task] }
      some (s.setThread c (.answering message true))
    | _ => none
  | .reply c =>
    match s.threads c with
    | .answering message accepted =>
      let a := s.answer c message accepted
      let s := { s with counts := Function.update s.counts c a.after, answers := s.answers ++ [a] }
      some (s.setThread c .looping)
    | _ => none
  | .pop =>
    match s.queue with
    | [] => none
    | task :: rest => some { s with queue := rest, popped := s.popped ++ [task] }
  | .setStatus running =>
    if ∀ c, (s.threads c).sharesStatus = false then some { s with running := running } else none
  | .stopProducing => some { s with producing := false }

end Flow

/-- The reply to a well-formed request is `PAUSE` if and only if its task is not among the
enqueued ones, and then the counters are as they were. -/
def Answer.Truthful {n : Nat} (a : Answer n) (pushed : List Task) : Prop :=
  0 ∉ a.message.buffer → ∀ op, HandleClient.grammar (Extraction.tokens a.message.buffer) = some op →
    (a.reply = "PAUSE" ↔ ⟨a.client, a.message.number, op⟩ ∉ pushed) ∧
      (a.reply = "PAUSE" → a.after = a.before)

/-- The number of the client's requests of which it is settled whether the task is enqueued. -/
def ClientThread.settled (reads : Nat) : ClientThread → Nat
  | .submitting message _ | .checking message _ | .pushing message _ => message.number
  | .looping | .reading | .answering _ _ | .closed => reads

/-- What a thread carries is the last request it read. -/
def ClientThread.Carries (client reads : Nat) (pushed : List Task) : ClientThread → Prop
  | .looping | .reading | .closed => True
  | .submitting message task | .checking message task | .pushing message task =>
    reads = message.number + 1 ∧ message.task client = some task
  | .answering message accepted =>
    message.number < reads ∧ ∀ task, message.task client = some task → (accepted = true ↔ task ∈ pushed)

namespace Flow

variable {n : Nat}

structure Controlled (maxTaskCount : Nat) (s : Flow n) : Prop where
  bound : s.queue.length ≤ maxTaskCount
  answers : ∀ a ∈ s.answers, a.Truthful s.pushed

/-- The clients that have read the length and not pushed yet. -/
def pushers (s : Flow n) : Nat := ∑ c, (s.threads c).pushes.toNat

/-- A length is read that makes `submit` throw, or one that leaves room for the tasks of the
clients that are about to push as well. -/
def Spare (maxTaskCount : Nat) (s : Flow n) : FlowAct n → Prop
  | .check _ => 0 < maxTaskCount ∧ maxTaskCount ≤ s.queue.length ∨ s.queue.length + s.pushers < maxTaskCount
  | _ => True

def settled (s : Flow n) (c : Fin n) : Nat := (s.threads c).settled (s.reads c)

/-- The replies given stay right, since what is pushed later has a number that is not settled yet. -/
structure Tracked (s : Flow n) : Prop where
  threads : ∀ c, (s.threads c).Carries c (s.reads c) s.pushed
  pushed : ∀ c : Fin n, ∀ t ∈ s.pushed, t.client = c → t.num < s.settled c
  answers : ∀ a ∈ s.answers, a.message.number < s.settled a.client ∧ a.Truthful s.pushed

theorem tracked_start : (start n).Tracked where
  threads _ := trivial
  pushed _ _ ht := nomatch ht
  answers _ ha := nomatch ha

variable {s s' : Flow n} {c : Fin n}

@[simp] theorem setThread_self (s : Flow n) (c : Fin n) (t : ClientThread) : (s.setThread c t).threads c = t :=
  Function.update_self _ _ _

theorem setThread_of_ne (s : Flow n) (t : ClientThread) {d : Fin n} (hd : d ≠ c) :
    (s.setThread c t).threads d = s.threads d :=
  Function.update_of_ne hd _ _

/-- The kinds of steps. -/
inductive Moved (maxTaskCount : Nat) (s : Flow n) : FlowAct n → Flow n → Prop where
  | turn {a : FlowAct n} {c : Fin n} {t : ClientThread} (action : ∀ d, a ≠ .push d)
      (old : s.threads c = .looping ∨ s.threads c = .reading) (new : t = .reading ∨ t = .closed) :
      Moved maxTaskCount s a (s.setThread c t)
  | drop {c : Fin n} {key₀ : Int32} {buffer : Bytes} (old : s.threads c = .reading)
      (parsed : Message.task ⟨s.reads c, key₀, buffer⟩ c = none) :
      Moved maxTaskCount s (.request c key₀ buffer)
        ({ s with reads := Function.update s.reads c (s.reads c + 1) }.setThread c
          (.answering ⟨s.reads c, key₀, buffer⟩ false))
  | submit {c : Fin n} {key₀ : Int32} {buffer : Bytes} {task : Task} (old : s.threads c = .reading)
      (parsed : Message.task ⟨s.reads c, key₀, buffer⟩ c = some task) :
      Moved maxTaskCount s (.request c key₀ buffer)
        ({ s with reads := Function.update s.reads c (s.reads c + 1) }.setThread c
          (.submitting ⟨s.reads c, key₀, buffer⟩ task))
  | proceed {c : Fin n} {message : Message} {task : Task} (old : s.threads c = .submitting message task) :
      Moved maxTaskCount s (.status c) (s.setThread c (.checking message task))
  | refuse {a : FlowAct n} {c : Fin n} {message : Message} {task : Task} (action : ∀ d, a ≠ .push d)
      (old : s.threads c = .submitting message task ∨ s.threads c = .checking message task) :
      Moved maxTaskCount s a (s.setThread c (.answering message false))
  | accept {c : Fin n} {message : Message} {task : Task} (old : s.threads c = .checking message task)
      (room : maxTaskCount = 0 ∨ s.queue.length < maxTaskCount) :
      Moved maxTaskCount s (.check c) (s.setThread c (.pushing message task))
  | push {c : Fin n} {message : Message} {task : Task} (old : s.threads c = .pushing message task) :
      Moved maxTaskCount s (.push c)
        ({ s with queue := s.queue ++ [task] }.setThread c (.answering message true))
  | reply {c : Fin n} {message : Message} {accepted : Bool} (old : s.threads c = .answering message accepted)
      (counts : Fin n → HandleClient.Counts) :
      Moved maxTaskCount s (.reply c)
        ({ s with counts := counts, answers := s.answers ++ [s.answer c message accepted] }.setThread c .looping)
  | pop {task : Task} {rest : List Task} (queue : s.queue = task :: rest) :
      Moved maxTaskCount s .pop { s with queue := rest, popped := s.popped ++ [task] }
  | setStatus (running : Bool) : Moved maxTaskCount s (.setStatus running) { s with running := running }
  | stopProducing : Moved maxTaskCount s .stopProducing { s with producing := false }

theorem step_moved {maxTaskCount : Nat} {a : FlowAct n} (hs : step maxTaskCount s a = some s') :
    Moved maxTaskCount s a s' := by
  cases a with
  | loop c =>
    simp only [step] at hs
    split at hs
    case h_1 hc =>
      refine Option.some.inj hs ▸ .turn (by simp) (Or.inl hc) ?_
      split
      · exact Or.inl rfl
      · exact Or.inr rfl
    case h_2 => cases hs
  | disconnect c =>
    obtain ⟨hc, hs⟩ := Option.ite_none_right_eq_some.mp hs
    exact Option.some.inj hs ▸ .turn (by simp) (Or.inr hc) (Or.inr rfl)
  | request c key₀ buffer =>
    obtain ⟨hc, hs⟩ := Option.ite_none_right_eq_some.mp hs
    cases htask : Message.task ⟨s.reads c, key₀, buffer⟩ c with
    | none =>
      simp only [htask, Option.some.injEq] at hs
      exact hs ▸ .drop hc htask
    | some task =>
      simp only [htask, Option.some.injEq] at hs
      exact hs ▸ .submit hc htask
  | status c =>
    simp only [step] at hs
    split at hs
    case h_1 message task hc =>
      split at hs
      · exact Option.some.inj hs ▸ .proceed hc
      · exact Option.some.inj hs ▸ .refuse (by simp) (Or.inl hc)
    case h_2 => cases hs
  | check c =>
    simp only [step] at hs
    split at hs
    case h_1 message task hc =>
      split at hs
      case isTrue hfull => exact Option.some.inj hs ▸ .refuse (by simp) (Or.inr hc)
      case isFalse hroom => exact Option.some.inj hs ▸ .accept hc (by omega)
    case h_2 => cases hs
  | push c =>
    simp only [step] at hs
    split at hs
    case h_1 message task hc => exact Option.some.inj hs ▸ .push hc
    case h_2 => cases hs
  | reply c =>
    simp only [step] at hs
    split at hs
    case h_1 message accepted hc => exact Option.some.inj hs ▸ .reply hc _
    case h_2 => cases hs
  | pop =>
    simp only [step] at hs
    split at hs
    case h_1 => cases hs
    case h_2 task rest hq => exact Option.some.inj hs ▸ .pop hq
  | setStatus running =>
    obtain ⟨_, hs⟩ := Option.ite_none_right_eq_some.mp hs
    exact Option.some.inj hs ▸ .setStatus running
  | stopProducing => exact Option.some.inj hs ▸ .stopProducing

/-- What a step of one thread may do: it enqueues tasks of its own whose numbers get settled. -/
structure MovesAt (s s' : Flow n) (c : Fin n) (new : List Task) : Prop where
  threads : ∀ d, d ≠ c → s'.threads d = s.threads d
  reads : ∀ d, d ≠ c → s'.reads d = s.reads d
  pushed : s'.pushed = s.pushed ++ new
  new : ∀ t ∈ new, t.client = c ∧ s.settled c ≤ t.num ∧ t.num < s'.settled c
  settled : s.settled c ≤ s'.settled c

theorem MovesAt.settled_le {new : List Task} (h : MovesAt s s' c new) (d : Fin n) : s.settled d ≤ s'.settled d := by
  by_cases hd : d = c
  · exact hd ▸ h.settled
  · exact le_of_eq (by rw [Flow.settled, Flow.settled, h.threads d hd, h.reads d hd])

theorem MovesAt.mem_pushed_iff {new : List Task} (h : MovesAt s s' c new) {t : Task} {d : Fin n} (ht : t.client = d)
    (hnum : t.num < s.settled d) : t ∈ s'.pushed ↔ t ∈ s.pushed := by
  rw [h.pushed, List.mem_append]
  refine or_iff_left ?_
  intro hnew
  obtain ⟨hc, hle, _⟩ := h.new t hnew
  have hd : d = c := Fin.ext (ht.symm.trans hc)
  subst hd
  omega

theorem MovesAt.truthful {new : List Task} (h : MovesAt s s' c new) {a : Answer n} (ha : a.Truthful s.pushed)
    (hnum : a.message.number < s.settled a.client) : a.Truthful s'.pushed := by
  intro h0 op hop
  rw [h.mem_pushed_iff (t := ⟨a.client, a.message.number, op⟩) rfl hnum]
  exact ha h0 op hop

theorem Tracked.moved (h : s.Tracked) (new : List Task) (hm : MovesAt s s' c new)
    (hcarries : (s'.threads c).Carries c (s'.reads c) s'.pushed)
    (hanswers : ∀ a ∈ s'.answers, a ∈ s.answers ∨ a.message.number < s'.settled a.client ∧ a.Truthful s'.pushed) :
    s'.Tracked where
  threads d := by
    by_cases hd : d = c
    · exact hd ▸ hcarries
    · have hold := h.threads d
      rw [hm.threads d hd, hm.reads d hd]
      cases ht : s.threads d with
      | answering message accepted =>
        rw [ht] at hold
        refine ⟨hold.1, fun task htask => ?_⟩
        obtain ⟨hclient, hnum⟩ := Message.task_eq htask
        rw [hm.mem_pushed_iff hclient (by rw [hnum, settled, ht]; exact hold.1)]
        exact hold.2 task htask
      | looping | reading | submitting | checking | pushing | closed => rwa [ht] at hold
  pushed d t ht hclient := by
    rw [hm.pushed, List.mem_append] at ht
    rcases ht with ht | ht
    · exact (h.pushed d t ht hclient).trans_le (hm.settled_le d)
    · obtain ⟨hc, _, hlt⟩ := hm.new t ht
      have hd : d = c := Fin.ext (hclient.symm.trans hc)
      exact hd ▸ hlt
  answers a ha := by
    rcases hanswers a ha with ha | ha
    · obtain ⟨hnum, htruthful⟩ := h.answers a ha
      exact ⟨hnum.trans_le (hm.settled_le _), hm.truthful htruthful hnum⟩
    · exact ha

/-- What a step does to its own thread, from the state `s'` in which the rest is done. -/
theorem Tracked.setThread (h : s.Tracked) (new : List Task) {t : ClientThread} (hthreads : s'.threads = s.threads)
    (hreads : ∀ d, d ≠ c → s'.reads d = s.reads d) (hpushed : s'.pushed = s.pushed ++ new)
    (hnew : ∀ t' ∈ new, t'.client = c ∧ s.settled c ≤ t'.num ∧ t'.num < t.settled (s'.reads c))
    (hsettled : s.settled c ≤ t.settled (s'.reads c)) (hcarries : t.Carries c (s'.reads c) s'.pushed)
    (hanswers : ∀ a ∈ s'.answers, a ∈ s.answers ∨
      a.message.number < (s'.setThread c t).settled a.client ∧ a.Truthful s'.pushed) :
    (s'.setThread c t).Tracked := by
  have hnow : (s'.setThread c t).settled c = t.settled (s'.reads c) := by
    rw [Flow.settled, setThread_self]
    rfl
  refine h.moved (c := c) new ⟨?_, hreads, hpushed, ?_, ?_⟩ ?_ hanswers
  · intro d hd
    rw [setThread_of_ne s' t hd, hthreads]
  · rwa [hnow]
  · rwa [hnow]
  · rwa [setThread_self]

theorem Tracked.goesOn (h : s.Tracked) {t : ClientThread} (hsettled : s.settled c ≤ t.settled (s.reads c))
    (hcarries : t.Carries c (s.reads c) s.pushed) : (s.setThread c t).Tracked :=
  h.setThread [] rfl (fun _ _ => rfl) (List.append_nil _).symm nofun hsettled hcarries fun _ ha => Or.inl ha

theorem Tracked.refuse (h : s.Tracked) {message : Message} (hsettled : s.settled c = message.number)
    (hreads : s.reads c = message.number + 1) : (s.setThread c (.answering message false)).Tracked := by
  refine h.goesOn ?_ ⟨by omega, ?_⟩
  · rw [hsettled, ClientThread.settled]
    omega
  · intro t ht
    refine iff_of_false Bool.false_ne_true fun hmem => ?_
    obtain ⟨hclient, hnum⟩ := Message.task_eq ht
    have hlt := h.pushed c t hmem hclient
    omega

theorem Tracked.turn (h : s.Tracked) (hc : s.threads c = .looping ∨ s.threads c = .reading) {t : ClientThread}
    (ht : t = .reading ∨ t = .closed) : (s.setThread c t).Tracked := by
  have hold : s.settled c = s.reads c := by
    rcases hc with hc | hc <;> (rw [Flow.settled, hc]; rfl)
  rcases ht with rfl | rfl
  · exact h.goesOn hold.le trivial
  · exact h.goesOn hold.le trivial

theorem Tracked.push (h : s.Tracked) {message : Message} {task : Task} (hc : s.threads c = .pushing message task) :
    ({ s with queue := s.queue ++ [task] }.setThread c (.answering message true)).Tracked := by
  have hcarries := h.threads c
  rw [hc] at hcarries
  obtain ⟨hreads, htask⟩ := hcarries
  obtain ⟨hclient, hnum⟩ := Message.task_eq htask
  have hold : s.settled c = message.number := by
    rw [Flow.settled, hc]
    rfl
  refine h.setThread [task] rfl (fun _ _ => rfl) (List.append_assoc _ _ _).symm ?_ ?_ ⟨?_, ?_⟩
    fun _ ha => Or.inl ha
  · intro t ht
    change t.client = c ∧ s.settled c ≤ t.num ∧ t.num < s.reads c
    rw [List.mem_singleton.mp ht]
    omega
  · change s.settled c ≤ s.reads c
    omega
  · exact hreads ▸ Nat.lt_succ_self _
  · intro t ht
    rw [htask, Option.some.injEq] at ht
    refine iff_of_true rfl (List.mem_append_right _ ?_)
    exact List.mem_append_right _ (List.mem_singleton.mpr ht.symm)

theorem reply_ne_pause (counts : HandleClient.Counts) : counts.reply "OK" ≠ "PAUSE" := by
  unfold HandleClient.Counts.reply
  split
  · obtain ⟨l, hl⟩ := HandleClient.statistics_toList counts
    intro h
    have hp : "PAUSE".toList = 'P' :: "AUSE".toList := rfl
    rw [h, hp] at hl
    exact absurd (List.cons.inj hl).1 (by decide)
  · decide

theorem Tracked.truthful (h : s.Tracked) {message : Message} {accepted : Bool}
    (hc : s.threads c = .answering message accepted) : (s.answer c message accepted).Truthful s.pushed := by
  have hcarries := h.threads c
  rw [hc] at hcarries
  intro h0 op hop
  have hparse : HandleClient.parse message.key₀ message.buffer = some op :=
    HandleClient.parse_of_grammar message.key₀ h0 hop
  have hiff := hcarries.2 ⟨c, message.number, op⟩ (by rw [Message.task, hparse, Option.map_some])
  cases accepted with
  | true =>
    have hreply := reply_ne_pause ((s.counts c).add op)
    have hpushed := hiff.mp rfl
    simp [answer, HandleClient.handleRequest, hparse, hreply, hpushed]
  | false =>
    have hpushed : ⟨c, message.number, op⟩ ∉ s.pushed := fun hmem => Bool.false_ne_true (hiff.mpr hmem)
    simpa [answer, HandleClient.handleRequest, hparse] using hpushed

theorem Tracked.reply (h : s.Tracked) {message : Message} {accepted : Bool}
    (hc : s.threads c = .answering message accepted) (counts : Fin n → HandleClient.Counts) :
    ({ s with counts := counts, answers := s.answers ++ [s.answer c message accepted] }.setThread c
      .looping).Tracked := by
  have hcarries := h.threads c
  have htruthful := h.truthful hc
  have hold : s.settled c = s.reads c := by
    rw [Flow.settled, hc]
    rfl
  rw [hc] at hcarries
  refine h.setThread [] rfl (fun _ _ => rfl) (List.append_nil _).symm nofun hold.le trivial ?_
  intro a ha
  rcases List.mem_append.mp ha with ha | ha
  · exact Or.inl ha
  · rw [List.mem_singleton.mp ha]
    refine Or.inr ⟨?_, htruthful⟩
    have hnow : ({ s with counts := counts, answers := s.answers ++ [s.answer c message accepted] }.setThread c
        .looping).settled c = s.reads c := by
      rw [Flow.settled, setThread_self]
      rfl
    exact hnow ▸ hcarries.1

/-- Only the queue is passed on, or nothing that replies depend on. -/
theorem Tracked.same (h : s.Tracked) (hthreads : s'.threads = s.threads) (hreads : s'.reads = s.reads)
    (hpushed : s'.pushed = s.pushed) (hanswers : s'.answers = s.answers) : s'.Tracked := by
  have hsettled : ∀ c, s'.settled c = s.settled c := fun c => by
    rw [Flow.settled, Flow.settled, hthreads, hreads]
  constructor
  · rw [hthreads, hreads, hpushed]
    exact h.threads
  · intro c
    rw [hpushed, hsettled]
    exact h.pushed c
  · intro a
    rw [hanswers, hpushed, hsettled]
    exact h.answers a

theorem Tracked.request (h : s.Tracked) (hc : s.threads c = .reading) {t : ClientThread}
    (hsettled : s.reads c ≤ t.settled (s.reads c + 1)) (hcarries : t.Carries c (s.reads c + 1) s.pushed) :
    ({ s with reads := Function.update s.reads c (s.reads c + 1) }.setThread c t).Tracked := by
  have hnow : Function.update s.reads c (s.reads c + 1) c = s.reads c + 1 := Function.update_self _ _ _
  have hold : s.settled c = s.reads c := by
    rw [Flow.settled, hc]
    rfl
  refine h.setThread [] rfl (fun d hd => Function.update_of_ne hd _ _) (List.append_nil _).symm nofun ?_ ?_
    fun _ ha => Or.inl ha
  · simp only [hold, hnow]
    exact hsettled
  · simp only [hnow]
    exact hcarries

/-- While its request is not settled, a thread carries the task. -/
theorem Tracked.unsettled (h : s.Tracked) {message : Message} {task : Task}
    (hc : s.threads c = .submitting message task ∨ s.threads c = .checking message task) :
    s.settled c = message.number ∧ s.reads c = message.number + 1 ∧ message.task c = some task := by
  have hcarries := h.threads c
  rcases hc with hc | hc <;> (rw [Flow.settled, hc]; rw [hc] at hcarries; exact ⟨rfl, hcarries⟩)

theorem step_tracked {maxTaskCount : Nat} {a : FlowAct n} (h : s.Tracked) (hs : step maxTaskCount s a = some s') :
    s'.Tracked := by
  cases step_moved hs with
  | turn _ hc ht => exact h.turn hc ht
  | drop hc htask => exact h.request hc (Nat.le_succ _) ⟨Nat.lt_succ_self _, fun t ht => by simp [htask] at ht⟩
  | submit hc htask => exact h.request hc (le_refl _) ⟨rfl, htask⟩
  | proceed hc =>
    obtain ⟨hsettled, hreads, htask⟩ := h.unsettled (Or.inl hc)
    exact h.goesOn hsettled.le ⟨hreads, htask⟩
  | refuse _ hc =>
    obtain ⟨hsettled, hreads, _⟩ := h.unsettled hc
    exact h.refuse hsettled hreads
  | accept hc _ =>
    obtain ⟨hsettled, hreads, htask⟩ := h.unsettled (Or.inr hc)
    exact h.goesOn hsettled.le ⟨hreads, htask⟩
  | push hc => exact h.push hc
  | reply hc _ => exact h.reply hc _
  | pop hq => exact h.same rfl rfl (by simp [pushed, hq]) rfl
  | setStatus | stopProducing => exact h.same rfl rfl rfl rfl

theorem pushers_setThread {r : Flow n} (hthreads : r.threads = s.threads) (c : Fin n) (t : ClientThread) :
    (r.setThread c t).pushers + (s.threads c).pushes.toNat = s.pushers + t.pushes.toNat := by
  have hother : ∑ d ∈ Finset.univ.erase c, ((r.setThread c t).threads d).pushes.toNat =
      ∑ d ∈ Finset.univ.erase c, (s.threads d).pushes.toNat := by
    apply Finset.sum_congr rfl
    intro d hd
    rw [setThread_of_ne r t (Finset.ne_of_mem_erase hd), hthreads]
  rw [pushers, pushers, ← Finset.add_sum_erase _ _ (Finset.mem_univ c), setThread_self, hother,
    ← Finset.add_sum_erase _ (fun d => (s.threads d).pushes.toNat) (Finset.mem_univ c)]
  omega

theorem pushers_idle {r : Flow n} {t : ClientThread} (hthreads : r.threads = s.threads)
    (hold : (s.threads c).pushes = false) (hnew : t.pushes = false) :
    (r.setThread c t).pushers = s.pushers := by
  have hpushers := pushers_setThread hthreads c t
  rwa [hold, hnew] at hpushers

theorem push_places {message : Message} {task : Task} (hc : s.threads c = .pushing message task) :
    ({ s with queue := s.queue ++ [task] }.setThread c (.answering message true)).queue.length +
      ({ s with queue := s.queue ++ [task] }.setThread c (.answering message true)).pushers =
        s.queue.length + s.pushers := by
  have hpushers := pushers_setThread (r := { s with queue := s.queue ++ [task] }) rfl c (.answering message true)
  have hlength : (s.queue ++ [task]).length = s.queue.length + 1 := List.length_append
  rw [hc] at hpushers
  change (s.queue ++ [task]).length + _ = _
  change _ + 1 = s.pushers + 0 at hpushers
  omega

/-- A check that is passed takes a place in the queue in advance, and nothing else does. -/
theorem step_places {maxTaskCount : Nat} {a : FlowAct n} (hs : step maxTaskCount s a = some s') :
    s'.queue.length + s'.pushers ≤ s.queue.length + s.pushers ∨
      (∃ c, a = .check c) ∧ (maxTaskCount = 0 ∨ s.queue.length < maxTaskCount) ∧
        s'.queue.length + s'.pushers = s.queue.length + s.pushers + 1 := by
  cases step_moved hs with
  | @turn _ c t _ hc ht =>
    have hold : (s.threads c).pushes = false := by rcases hc with hc | hc <;> (rw [hc]; rfl)
    have hnew : t.pushes = false := by rcases ht with rfl | rfl <;> rfl
    exact Or.inl (Nat.add_le_add_left (pushers_idle rfl hold hnew).le _)
  | drop hc _ | submit hc _ | proceed hc | reply hc _ =>
    exact Or.inl (Nat.add_le_add_left (pushers_idle (s := s) rfl (by rw [hc]; rfl) rfl).le _)
  | @refuse _ c _ _ _ hc =>
    have hold : (s.threads c).pushes = false := by rcases hc with hc | hc <;> (rw [hc]; rfl)
    exact Or.inl (Nat.add_le_add_left (pushers_idle rfl hold rfl).le _)
  | @accept c message task hc hroom =>
    have hpushers := pushers_setThread (r := s) rfl c (.pushing message task)
    rw [hc] at hpushers
    exact Or.inr ⟨⟨c, rfl⟩, hroom, congrArg (s.queue.length + ·) hpushers⟩
  | push hc => exact Or.inl (push_places hc).le
  | @pop task rest hq =>
    refine Or.inl (Nat.add_le_add_right ?_ s.pushers)
    simp [hq]
  | setStatus | stopProducing => exact Or.inl (le_refl _)

/-- The clients that have passed the check can all push before a worker takes a task. -/
theorem push_all (maxTaskCount : Nat) (s : Flow n) :
    ∃ ds : List (Fin n), (exec (step maxTaskCount) s (ds.map .push)).queue.length = s.queue.length + s.pushers := by
  induction hk : s.pushers generalizing s with
  | zero => exact ⟨[], rfl⟩
  | succ k ih =>
    obtain ⟨c, _, hc⟩ := Finset.exists_ne_zero_of_sum_ne_zero (hk ▸ Nat.succ_ne_zero k : s.pushers ≠ 0)
    obtain ⟨message, task, hc⟩ : ∃ message task, s.threads c = .pushing message task := by
      cases ht : s.threads c with
      | pushing message task => exact ⟨message, task, rfl⟩
      | looping | reading | submitting | checking | answering | closed => simp [ht, ClientThread.pushes] at hc
    have hplaces := push_places hc
    have hlength : (s.queue ++ [task]).length = s.queue.length + 1 := List.length_append
    obtain ⟨ds, hds⟩ := ih ({ s with queue := s.queue ++ [task] }.setThread c (.answering message true)) (by
      change (s.queue ++ [task]).length + _ = _ at hplaces
      omega)
    refine ⟨c :: ds, ?_⟩
    have hnext : next (step maxTaskCount) s (.push c) =
        { s with queue := s.queue ++ [task] }.setThread c (.answering message true) := by
      apply next_eq
      simp only [step, hc]
    rw [List.map_cons, exec, hnext, hds]
    change (s.queue ++ [task]).length + k = _
    omega

/-- The queue stays within its bound also when all the clients push that are about to. -/
def Bounded (maxTaskCount : Nat) (s : Flow n) : Prop := s.Tracked ∧ s.queue.length + s.pushers ≤ maxTaskCount

theorem step_bounded {maxTaskCount : Nat} {a : FlowAct n} (h : s.Bounded maxTaskCount) (ha : s.Spare maxTaskCount a)
    (hs : step maxTaskCount s a = some s') : s'.Bounded maxTaskCount := by
  refine ⟨step_tracked h.1 hs, ?_⟩
  have hle := h.2
  rcases step_places hs with hplaces | ⟨⟨c, rfl⟩, hroom, hplaces⟩
  · omega
  · rcases ha with ha | ha <;> omega

theorem bounded_start (maxTaskCount : Nat) : (start n).Bounded maxTaskCount := by
  refine ⟨tracked_start, ?_⟩
  have hnone : (start n).pushers = 0 := Finset.sum_eq_zero fun _ _ => rfl
  rw [hnone]
  exact Nat.zero_le _

/-- The queue and the replies are right, also after any pushes that come next. -/
def HoldsOut (maxTaskCount : Nat) (s : Flow n) : Prop :=
  ∀ ds : List (Fin n), (exec (step maxTaskCount) s (ds.map .push)).Controlled maxTaskCount

theorem Bounded.holdsOut {maxTaskCount : Nat} (h : s.Bounded maxTaskCount) : s.HoldsOut maxTaskCount := by
  intro ds
  have hpushes : Along (step maxTaskCount) (Spare maxTaskCount) s (ds.map FlowAct.push) := by
    refine along_of_forall ?_ s
    intro a ha s
    obtain ⟨c, _, rfl⟩ := List.mem_map.mp ha
    trivial
  have hafter : (exec (step maxTaskCount) s (ds.map .push)).Bounded maxTaskCount :=
    exec_invariant (fun s a s' => step_bounded) _ h hpushes
  exact ⟨(Nat.le_add_right _ _).trans hafter.2, fun a ha => (hafter.1.answers a ha).2⟩

theorem spare_of_holdsOut {maxTaskCount : Nat} {a : FlowAct n} (hs : step maxTaskCount s a = some s')
    (h : s'.HoldsOut maxTaskCount) : s.Spare maxTaskCount a := by
  obtain ⟨ds, hds⟩ := push_all maxTaskCount s'
  have hbound := (h ds).bound
  rw [hds] at hbound
  cases a with
  | check c =>
    by_cases hfull : 0 < maxTaskCount ∧ maxTaskCount ≤ s.queue.length
    · exact Or.inl hfull
    · right
      cases hc : s.threads c with
      | checking message task =>
        simp only [step, hc, if_neg hfull, Option.some.injEq] at hs
        subst hs
        have hpushers := pushers_setThread (r := s) rfl c (.pushing message task)
        rw [hc] at hpushers
        change s.queue.length + _ ≤ _ at hbound
        change _ + 0 = s.pushers + 1 at hpushers
        omega
      | _ => simp [step, hc] at hs
  | _ => trivial

theorem decides_holdsOut (maxTaskCount : Nat) :
    Decides (step maxTaskCount) (Spare maxTaskCount) (fun _ : Flow n => True) (Bounded maxTaskCount)
      (HoldsOut maxTaskCount) where
  sure _ _ _ _ _ := trivial
  keeps _ _ _ h ha hs := step_bounded h ha hs
  good _ h := h.holdsOut
  needs _ _ _ _ _ hs hafter := spare_of_holdsOut hs hafter

/-- For any number of connections and every run: the queue stays within its bound and the replies are
right, in every state of the run and after any pushes that follow there, if and only if every length
that is read leaves room for the clients that are about to push. -/
theorem controlled_iff (maxTaskCount : Nat) (as : List (FlowAct n)) :
    (∀ bs, bs <+: as → ∀ ds : List (Fin n),
      (exec (step maxTaskCount) (start n) (bs ++ ds.map .push)).Controlled maxTaskCount) ↔
        Along (step maxTaskCount) (Spare maxTaskCount) (start n) as := by
  rw [← (decides_holdsOut maxTaskCount).throughout_iff trivial (bounded_start maxTaskCount) as]
  simp only [HoldsOut, exec_append]

/-- Both clients see the empty queue before either pushes. -/
def overlappingSubmits (c d : Fin n) : List (FlowAct n) :=
  [.loop c, .loop d, .request c 0 (HandleClient.GET ++ [32, 49]), .request d 0 (HandleClient.GET ++ [32, 50]),
    .status c, .status d, .check c, .check d, .push c, .push d]

theorem overlapping_submits_overflow :
    (exec (step 1) (start 2) (overlappingSubmits 0 1)).queue = [⟨0, 0, .get 1⟩, ⟨1, 0, .get 2⟩] ∧
      ¬(exec (step 1) (start 2) (overlappingSubmits 0 1)).Controlled 1 := by
  have hqueue : (exec (step 1) (start 2) (overlappingSubmits 0 1)).queue = [⟨0, 0, .get 1⟩, ⟨1, 0, .get 2⟩] := by
    decide
  refine ⟨hqueue, fun h => ?_⟩
  have hbound := h.bound
  rw [hqueue] at hbound
  exact absurd hbound (by decide)

/-- No length is read while another client is about to push. -/
def Alone (s : Flow n) : FlowAct n → Prop
  | .check _ => ∀ d message task, s.threads d ≠ .pushing message task
  | _ => True

theorem spare_of_alone {maxTaskCount : Nat} (hm : 0 < maxTaskCount) {a : FlowAct n} (ha : s.Alone a) :
    s.Spare maxTaskCount a := by
  cases a with
  | check c =>
    have hnone : s.pushers = 0 := by
      refine Finset.sum_eq_zero fun d _ => ?_
      cases hd : s.threads d with
      | pushing message task => exact absurd hd (ha d message task)
      | _ => rfl
    change 0 < maxTaskCount ∧ maxTaskCount ≤ s.queue.length ∨ s.queue.length + s.pushers < maxTaskCount
    omega
  | _ => trivial

/-- Submits that do not overlap are enough. -/
theorem alone_controlled {maxTaskCount : Nat} (hm : 0 < maxTaskCount) (as : List (FlowAct n))
    (h : Along (step maxTaskCount) Alone (start n) as) :
    (exec (step maxTaskCount) (start n) as).Controlled maxTaskCount := by
  have hbounded : (exec (step maxTaskCount) (start n) as).Bounded maxTaskCount :=
    exec_invariant (fun s a s' hs ha => step_bounded hs (spare_of_alone hm ha)) as
      (bounded_start maxTaskCount) h
  exact hbounded.holdsOut []

/-- One client never overlaps with itself. -/
theorem one_client_controlled {maxTaskCount : Nat} (hm : 0 < maxTaskCount) (as : List (FlowAct 1)) :
    (exec (step maxTaskCount) (start 1) as).Controlled maxTaskCount := by
  apply alone_controlled hm as
  rw [along_iff_steps]
  intro bs a _ hs
  cases a with
  | check c =>
    intro d message task hd
    rw [Subsingleton.elim d c] at hd
    simp [step, hd] at hs
  | _ => trivial

end Flow

end KVStorage

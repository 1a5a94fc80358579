import KVStorage.Server
import KVStorage.Library.Extraction

/-!
# The request parser

`handleClient` takes every `read` for one whole request, extracts its words without
looking at the state of the stream, and answers with a text.
-/

namespace KVStorage

set_option autoImplicit false

open Extraction

namespace HandleClient

def PUT : Bytes := [80, 85, 84]

def GET : Bytes := [71, 69, 84]

def DEL : Bytes := [68, 69, 76]

@[simp] theorem GET_ne_PUT : GET ≠ PUT := by decide

@[simp] theorem DEL_ne_PUT : DEL ≠ PUT := by decide

@[simp] theorem DEL_ne_GET : DEL ≠ GET := by decide

/-- The characters of `buffer` up to the terminator. -/
def cString (buffer : Bytes) : Bytes := buffer.takeWhile fun c => c ≠ 0

/-- The task the request is turned into. `key₀` is what the uninitialized `int key`
happens to hold. -/
def parse (key₀ : Int32) (buffer : Bytes) : Option Op :=
  let iss := Stream.ofBytes (cString buffer)
  let (iss, command) := iss.readString []
  if command = PUT then
    let (iss, key) := iss.readInt key₀
    let (_, value) := iss.readString []
    some (.put key value)
  else if command = GET then
    let (_, key) := iss.readInt key₀
    some (.get key)
  else if command = DEL then
    let (_, key) := iss.readInt key₀
    some (.del key)
  else none

/-- The accepted requests of a connection. -/
structure Counts where
  getCount : Nat
  putCount : Nat
  delCount : Nat

namespace Counts

def total (c : Counts) : Nat := c.getCount + c.putCount + c.delCount

def add (c : Counts) : Op → Counts
  | .put _ _ => { c with putCount := c.putCount + 1 }
  | .get _ => { c with getCount := c.getCount + 1 }
  | .del _ => { c with delCount := c.delCount + 1 }

def statistics (c : Counts) : String :=
  "submit task: " ++ toString c.getCount ++ " GET, " ++ toString c.putCount ++ " PUT, " ++
    toString c.delCount ++ " DEL"

/-- What is written to the client, unless every ten thousandth time. -/
def reply (c : Counts) (result : String) : String :=
  if c.total % 10000 = 0 then c.statistics else result

end Counts

/-- What a request does: the counters, the task passed to `submit`, and the reply. -/
structure Handled where
  counts : Counts
  call : Option Op
  reply : String

/-- One round of the loop; `accepts` says whether `submit` takes the task or throws. -/
def handleRequest (c : Counts) (accepts : Bool) (key₀ : Int32) (buffer : Bytes) : Handled :=
  match parse key₀ buffer with
  | none => ⟨c, none, c.reply "Invalid command!"⟩
  | some op =>
    if accepts then ⟨c.add op, some op, (c.add op).reply "OK"⟩
    else ⟨c, some op, "PAUSE"⟩

/-- The requests a client is meant to send. -/
def grammar : List Bytes → Option Op
  | [command, n] =>
    if command = GET then (wholeInt n).map .get
    else if command = DEL then (wholeInt n).map .del
    else none
  | [command, n, value] => if command = PUT then (wholeInt n).map fun key => .put key value else none
  | _ => none

def firstWord (buffer : Bytes) : Bytes := (tokens buffer).headD []

/-- A request is turned into the task its words spell, and into none if they spell
none, which the reply says. -/
def Handles (c : Counts) (accepts : Bool) (key₀ : Int32) (buffer : Bytes) : Prop :=
  (handleRequest c accepts key₀ buffer).call = grammar (tokens buffer) ∧
    (grammar (tokens buffer) = none →
      (handleRequest c accepts key₀ buffer).reply = "Invalid command!")

theorem cString_eq {buffer : Bytes} (h : 0 ∉ buffer) : cString buffer = buffer := by
  unfold cString
  apply List.takeWhile_eq_self_iff.mpr
  intro c hc
  apply decide_eq_true
  intro h0
  exact h (h0 ▸ hc)

variable {c : Counts} {accepts : Bool} {key₀ : Int32} {buffer : Bytes}

theorem call_eq (c : Counts) (accepts : Bool) (key₀ : Int32) (buffer : Bytes) :
    (handleRequest c accepts key₀ buffer).call = parse key₀ buffer := by
  unfold handleRequest
  split
  · exact (‹parse key₀ buffer = none›).symm
  · split <;> exact (‹parse key₀ buffer = some _›).symm

theorem parse_eq (key₀ : Int32) (h : 0 ∉ buffer) :
    parse key₀ buffer =
      if ((Stream.upTo buffer).readString []).2 = PUT then
        some (.put (((Stream.upTo buffer).readString []).1.readInt key₀).2
          ((((Stream.upTo buffer).readString []).1.readInt key₀).1.readString []).2)
      else if ((Stream.upTo buffer).readString []).2 = GET then
        some (.get (((Stream.upTo buffer).readString []).1.readInt key₀).2)
      else if ((Stream.upTo buffer).readString []).2 = DEL then
        some (.del (((Stream.upTo buffer).readString []).1.readInt key₀).2)
      else none := by
  simp only [parse, cString_eq h, Stream.readString_ofBytes]

/-- The first word decides whether there is a task. -/
theorem parse_isSome_iff (key₀ : Int32) (h : 0 ∉ buffer) :
    (parse key₀ buffer).isSome ↔ firstWord buffer ∈ [PUT, GET, DEL] := by
  have hcommand : ((Stream.upTo buffer).readString []).2 = firstWord buffer := by
    rcases tokens_cases buffer with ⟨ht, hd⟩ | ⟨w, r, ht, hd, hw⟩
    · rw [Stream.readString_done hd, firstWord, ht]
      rfl
    · rw [Stream.readString_word hd hw, firstWord, ht]
      rfl
  rw [parse_eq key₀ h, hcommand]
  by_cases hp : firstWord buffer = PUT
  · simp [hp]
  · by_cases hg : firstWord buffer = GET
    · simp [hg]
    · by_cases hd : firstWord buffer = DEL <;> simp [hp, hg, hd]

/-- A request in the grammar is turned into the task it spells. -/
theorem parse_of_grammar (key₀ : Int32) (h : 0 ∉ buffer) {op : Op}
    (hop : grammar (tokens buffer) = some op) : parse key₀ buffer = some op := by
  rw [parse_eq key₀ h]
  rcases tokens_cases buffer with ⟨ht, _⟩ | ⟨command, r, ht, hd, hw⟩
  · rw [ht] at hop
    simp [grammar] at hop
  · rw [Stream.readString_word hd hw]
    rw [ht] at hop
    rcases tokens_cases r with ⟨ht', _⟩ | ⟨n, r', ht', hd', hw'⟩
    · rw [ht'] at hop
      simp [grammar] at hop
    · rw [ht'] at hop
      rcases tokens_cases r' with ⟨ht'', _⟩ | ⟨value, r'', ht'', hd'', hw''⟩
      · rw [ht''] at hop
        simp only [grammar] at hop
        by_cases hg : command = GET
        · rw [if_pos hg, Option.map_eq_some_iff] at hop
          obtain ⟨key, hn, rfl⟩ := hop
          simp [Stream.readInt_word hd' hw' hn, hg]
        · rw [if_neg hg] at hop
          by_cases hdel : command = DEL
          · rw [if_pos hdel, Option.map_eq_some_iff] at hop
            obtain ⟨key, hn, rfl⟩ := hop
            simp [Stream.readInt_word hd' hw' hn, hdel]
          · simp [hdel] at hop
      · rw [ht''] at hop
        cases ht₃ : tokens r'' with
        | nil =>
          rw [ht₃] at hop
          simp only [grammar] at hop
          by_cases hp : command = PUT
          · rw [if_pos hp, Option.map_eq_some_iff] at hop
            obtain ⟨key, hn, rfl⟩ := hop
            simp [Stream.readInt_word hd' hw' hn, Stream.readString_word hd'' hw'', hp]
          · simp [hp] at hop
        | cons w ws => simp [ht₃, grammar] at hop

theorem statistics_toList (c : Counts) : ∃ l, c.statistics.toList = 's' :: l := by
  have hs : "submit task: ".toList = 's' :: "ubmit task: ".toList := rfl
  unfold Counts.statistics
  rw [String.toList_append, String.toList_append, String.toList_append, String.toList_append,
    String.toList_append, String.toList_append, hs]
  simp only [List.cons_append]
  exact ⟨_, rfl⟩

theorem statistics_ne (c : Counts) : c.statistics ≠ "Invalid command!" := by
  obtain ⟨l, hl⟩ := statistics_toList c
  intro h
  have hi : "Invalid command!".toList = 'I' :: "nvalid command!".toList := rfl
  rw [h, hi] at hl
  exact absurd (List.cons.inj hl).1 (by decide)

/-- For every request the parser does what the grammar says exactly if the request is in
the grammar, or its first word is no command and the counters are not at a multiple of
ten thousand. -/
theorem handles_iff (c : Counts) (accepts : Bool) (key₀ : Int32) (buffer : Bytes) (h : 0 ∉ buffer) :
    Handles c accepts key₀ buffer ↔ (grammar (tokens buffer)).isSome ∨
      (firstWord buffer ∉ [PUT, GET, DEL] ∧ c.total % 10000 ≠ 0) := by
  unfold Handles
  rw [call_eq]
  have hcommand := parse_isSome_iff key₀ h
  cases hg : grammar (tokens buffer) with
  | some op => simp [parse_of_grammar key₀ h hg]
  | none =>
    by_cases hc : firstWord buffer ∈ [PUT, GET, DEL]
    · obtain ⟨op, hop⟩ := Option.isSome_iff_exists.mp (hcommand.mpr hc)
      simp [hop, hc]
    · have hnone : parse key₀ buffer = none := by
        rw [← Option.not_isSome_iff_eq_none]
        exact fun hs => hc (hcommand.mp hs)
      simp only [hnone, handleRequest, hc, Counts.reply]
      by_cases hm : c.total % 10000 = 0
      · simp [hm, statistics_ne c]
      · simp [hm]

theorem handles_put : Handles ⟨0, 0, 9999⟩ true 7 (PUT ++ [32, 45, 53, 32, 97]) :=
  (handles_iff ⟨0, 0, 9999⟩ true 7 (PUT ++ [32, 45, 53, 32, 97]) (by decide)).mpr
    (Or.inl (by decide))

/-- `PUT 5` overwrites key 5 with nothing, `DEL x` deletes key 0 and `DEL` the key that
happens to be in the variable; the first request `x` is answered by the statistics. -/
theorem misread_requests :
    ¬Handles ⟨0, 0, 1⟩ true 7 (PUT ++ [32, 53]) ∧
      (handleRequest ⟨0, 0, 1⟩ true 7 (PUT ++ [32, 53])).call = some (.put 5 []) ∧
      (handleRequest ⟨0, 0, 1⟩ true 7 (DEL ++ [32, 120])).call = some (.del 0) ∧
      (handleRequest ⟨0, 0, 1⟩ true 7 DEL).call = some (.del 7) ∧
      (handleRequest ⟨0, 0, 0⟩ true 7 [120]).reply = "submit task: 0 GET, 0 PUT, 0 DEL" := by
  refine ⟨fun h => absurd h.1 (by decide), by decide, by decide, by decide, by decide⟩

end HandleClient

end KVStorage

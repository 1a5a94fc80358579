import KVStorage.HandleClient

/-!
# Requests that arrive in pieces

A client writes one request and waits for a reply. TCP may hand the bytes of a request
to the server in several reads, each of which the server takes for a request.
-/

namespace KVStorage

set_option autoImplicit false

open Extraction

namespace HandleClient

/-! ## The loop over reads -/

/-- The rounds of the loop; `accepts n` and `key₀ n` belong to the n-th read. -/
def serve (c : Counts) (accepts : Nat → Bool) (key₀ : Nat → Int32) : List Bytes → List Handled
  | [] => []
  | buffer :: reads =>
    let r := handleRequest c (accepts 0) (key₀ 0) buffer
    r :: serve r.counts (fun n => accepts (n + 1)) (fun n => key₀ (n + 1)) reads

/-- The tasks submitted. -/
def calls (rounds : List Handled) : List Op := rounds.filterMap (·.call)

/-- The tasks the reads are parsed into. -/
def tasks (key₀ : Nat → Int32) : List Bytes → List Op
  | [] => []
  | buffer :: reads => (parse (key₀ 0) buffer).toList ++ tasks (fun n => key₀ (n + 1)) reads

theorem calls_serve (c : Counts) (accepts : Nat → Bool) (key₀ : Nat → Int32) (reads : List Bytes) :
    calls (serve c accepts key₀ reads) = tasks key₀ reads := by
  induction reads generalizing c accepts key₀ with
  | nil => rfl
  | cons buffer reads ih =>
    have hrest := ih (handleRequest c (accepts 0) (key₀ 0) buffer).counts (fun n => accepts (n + 1))
      fun n => key₀ (n + 1)
    unfold calls at hrest
    simp only [calls, serve, tasks, List.filterMap_cons, call_eq, hrest]
    cases parse (key₀ 0) buffer <;> rfl

theorem tasks_append (key₀ : Nat → Int32) (xs ys : List Bytes) :
    tasks key₀ (xs ++ ys) = tasks key₀ xs ++ tasks (fun n => key₀ (n + xs.length)) ys := by
  induction xs generalizing key₀ with
  | nil => rfl
  | cons x xs ih =>
    have hshift : (fun n => key₀ (n + (xs.length + 1))) = fun n => key₀ (n + xs.length + 1) := rfl
    rw [List.cons_append, tasks, tasks, ih, List.append_assoc, List.length_cons, hshift]

/-! ## What the client writes -/

/-- The request text of `connectAndSendRequests`. -/
def text : Op → Bytes
  | .put key value => PUT ++ 32 :: (decimal key ++ 32 :: value)
  | .get key => GET ++ 32 :: decimal key
  | .del key => DEL ++ 32 :: decimal key

def value : Op → Bytes
  | .put _ value => value
  | _ => []

/-- A value is a word. -/
def Sendable : Op → Prop
  | .put _ value => value ≠ [] ∧ ∀ c ∈ value, isSpace c = false ∧ c ≠ 0
  | _ => True

/-- The reads that bring one request. -/
structure Delivers (op : Op) (reads : List Bytes) : Prop where
  bytes : reads.flatten = text op
  ne_nil : ∀ read ∈ reads, read ≠ []

theorem decimal_word (key : Int32) {r : Bytes} (h : ∀ c ∈ r.head?, isSpace c = true) :
    Word (decimal key) r := ⟨decimal_ne_nil key, fun _ => decimal_no_space, h⟩

theorem decimal_ne_zero {key : Int32} {c : UInt8} (h : c ∈ decimal key) : c ≠ 0 := by
  rintro rfl
  rcases mem_decimal h with h | h
  · exact absurd h (by decide)
  · exact absurd h (by decide)

theorem text_no_nul {op : Op} (h : Sendable op) : 0 ∉ text op := by
  intro h0
  cases op with
  | put key value =>
    simp only [text, List.mem_append, List.mem_cons] at h0
    rcases h0 with h0 | h0 | h0 | h0 | h0
    · exact absurd h0 (by decide)
    · exact absurd h0 (by decide)
    · exact decimal_ne_zero h0 rfl
    · exact absurd h0 (by decide)
    · exact (h.2 0 h0).2 rfl
  | get key =>
    simp only [text, List.mem_append, List.mem_cons] at h0
    rcases h0 with h0 | h0 | h0
    · exact absurd h0 (by decide)
    · exact absurd h0 (by decide)
    · exact decimal_ne_zero h0 rfl
  | del key =>
    simp only [text, List.mem_append, List.mem_cons] at h0
    rcases h0 with h0 | h0 | h0
    · exact absurd h0 (by decide)
    · exact absurd h0 (by decide)
    · exact decimal_ne_zero h0 rfl

theorem command_facts {w : Bytes} (h : w ∈ [PUT, GET, DEL]) :
    w.length = 3 ∧ w.all (fun c => !isSpace c) = true ∧
      w.countP (fun c => c = 80 || c = 71 || c = 68) = 1 := by
  simp only [List.mem_cons, List.not_mem_nil, or_false] at h
  rcases h with rfl | rfl | rfl
  · decide
  · decide
  · decide

theorem command_length {w : Bytes} (h : w ∈ [PUT, GET, DEL]) : w.length = 3 := (command_facts h).1

theorem command_word {w : Bytes} (h : w ∈ [PUT, GET, DEL]) (r : Bytes) : Word w (32 :: r) := by
  refine ⟨?_, ?_, fun c hc => ?_⟩
  · intro hn
    have hlen := command_length h
    rw [hn] at hlen
    exact absurd hlen (by decide)
  · intro c hc
    have hall := List.all_eq_true.mp (command_facts h).2.1 c hc
    simpa using hall
  · rw [List.head?_cons, Option.mem_some_iff] at hc
    rw [← hc]
    rfl

theorem tokens_command {w : Bytes} (h : w ∈ [PUT, GET, DEL]) (r : Bytes) :
    tokens (w ++ 32 :: r) = w :: tokens r := by
  rw [(command_word h r).tokens, tokens_space rfl]

theorem tokens_decimal (key : Int32) : tokens (decimal key) = [decimal key] := by
  have hw : Word (decimal key) [] := decimal_word key (by simp)
  have := hw.tokens
  rwa [List.append_nil, tokens_nil] at this

theorem grammar_text {op : Op} (h : Sendable op) : grammar (tokens (text op)) = some op := by
  cases op with
  | put key value =>
    have hv : Word value [] := ⟨h.1, fun c hc => (h.2 c hc).1, by simp⟩
    have hvalue : tokens value = [value] := by
      have := hv.tokens
      rwa [List.append_nil, tokens_nil] at this
    have hkey : Word (decimal key) (32 :: value) := decimal_word key (by simp [isSpace])
    rw [text, tokens_command (by simp), hkey.tokens, tokens_space rfl, hvalue]
    simp [grammar, wholeInt_decimal]
  | get key =>
    rw [text, tokens_command (by simp), tokens_decimal]
    simp [grammar, wholeInt_decimal]
  | del key =>
    rw [text, tokens_command (by simp), tokens_decimal]
    simp [grammar, wholeInt_decimal]

theorem parse_text (key₀ : Int32) {op : Op} (h : Sendable op) : parse key₀ (text op) = some op :=
  parse_of_grammar key₀ (text_no_nul h) (grammar_text h)

/-! ## Pieces of a request -/

variable {key₀ : Int32} {s w r : Bytes} {op : Op}

/-- Key and value are what the extractions after the first word find. -/
theorem parse_after (hs : 0 ∉ s) (h : s.dropWhile isSpace = w ++ r) (hw : Word w r)
    (hop : parse key₀ s = some op) :
    op.key = ((Stream.upTo r).readInt key₀).2 ∧
      (value op = [] ∨ value op = (((Stream.upTo r).readInt key₀).1.readString []).2) := by
  rw [parse_eq key₀ hs, Stream.readString_word h hw] at hop
  dsimp only at hop
  split at hop
  · cases hop
    exact ⟨rfl, Or.inr rfl⟩
  · split at hop
    · cases hop
      exact ⟨rfl, Or.inl rfl⟩
    · split at hop
      · cases hop
        exact ⟨rfl, Or.inl rfl⟩
      · simp at hop

theorem parse_end (hs : 0 ∉ s) (h : s.dropWhile isSpace = w ++ r) (hw : Word w r)
    (hr : r.dropWhile isSpace = []) (hop : parse key₀ s = some op) :
    op.key = key₀ ∧ value op = [] := by
  obtain ⟨hkey, hvalue⟩ := parse_after hs h hw hop
  rw [Stream.readInt_done hr] at hkey hvalue
  refine ⟨hkey, ?_⟩
  rcases hvalue with hvalue | hvalue
  · exact hvalue
  · rw [hvalue, Stream.readString_end (by rfl)]

theorem parse_number_end {p r' : Bytes} (hs : 0 ∉ s) (h : s.dropWhile isSpace = w ++ r)
    (hw : Word w r) (hr : r.dropWhile isSpace = p ++ r') (hp : Word p r')
    (hd : ∀ c ∈ (sign p).2, isDigit c = true) (hr' : r'.dropWhile isSpace = [])
    (hop : parse key₀ s = some op) : value op = [] := by
  obtain ⟨_, hvalue⟩ := parse_after hs h hw hop
  have hrest := (Stream.readInt_digits hr hp hd key₀).1
  rcases hvalue with hvalue | hvalue
  · exact hvalue
  · rw [hvalue, Stream.readString_end]
    rw [hrest, hr']

/-- The first letters of the commands. They occur in no other part of a request but the
value. -/
def letters (s : Bytes) : Nat := s.countP fun c => c = 80 || c = 71 || c = 68

theorem letters_append (s t : Bytes) : letters (s ++ t) = letters s + letters t :=
  List.countP_append

theorem letters_le (s : Bytes) : letters s ≤ s.length := List.countP_le_length

theorem letters_command (h : w ∈ [PUT, GET, DEL]) : letters w = 1 := (command_facts h).2.2

theorem letters_decimal (key : Int32) : letters (decimal key) = 0 := by
  apply List.countP_eq_zero.mpr
  intro c hc
  rcases mem_decimal hc with rfl | hd
  · decide
  · intro hl
    simp only [Bool.or_eq_true, decide_eq_true_eq] at hl
    rcases hl with (rfl | rfl) | rfl
    · exact absurd hd (by decide)
    · exact absurd hd (by decide)
    · exact absurd hd (by decide)

theorem exists_command (hs : 0 ∉ s) (hop : parse key₀ s = some op) :
    ∃ w r, s.dropWhile isSpace = w ++ r ∧ Word w r ∧ w ∈ [PUT, GET, DEL] := by
  have hcommand := (parse_isSome_iff key₀ hs).mp (by rw [hop]; rfl)
  rcases tokens_cases s with ⟨ht, _⟩ | ⟨w, r, ht, hd, hw⟩
  · rw [firstWord, ht] at hcommand
    exact absurd hcommand (by decide)
  · rw [firstWord, ht] at hcommand
    exact ⟨w, r, hd, hw, hcommand⟩

theorem letters_of_parse (hs : 0 ∉ s) (hop : parse key₀ s = some op) : 1 ≤ letters s := by
  obtain ⟨w, r, hd, _, hw⟩ := exists_command hs hop
  have hsub : letters (s.dropWhile isSpace) ≤ letters s := (List.dropWhile_sublist isSpace).countP_le
  rw [hd, letters_append, letters_command hw] at hsub
  omega

/-- A task that comes from the end of a request has no value: a command can only stand in
the value, which is one word. -/
theorem value_of_tail {a v : Bytes} (hs : 0 ∉ a ++ v) (ha : letters a = 0)
    (hv : ∀ c ∈ v, isSpace c = false) (hop : parse key₀ (a ++ v) = some op) : value op = [] := by
  obtain ⟨w, r, hd, hw, hcommand⟩ := exists_command hs hop
  cases r with
  | nil => exact (parse_end hs hd hw rfl hop).2
  | cons c r =>
    have hc : isSpace c = true := hw.ends c rfl
    have hsplit : a ++ v = ((a ++ v).takeWhile isSpace ++ w) ++ c :: r := by
      rw [List.append_assoc, ← hd, List.takeWhile_append_dropWhile]
    rcases List.append_eq_append_iff.mp hsplit with ⟨x, _, hx⟩ | ⟨x, hx, _⟩
    · have hcv : c ∈ v := by
        rw [hx]
        exact List.mem_append_right x List.mem_cons_self
      rw [hv c hcv] at hc
      exact absurd hc (by decide)
    · rw [hx, letters_append, letters_append, letters_command hcommand] at ha
      omega

/-! ## What the pieces weigh -/

def weight (op : Op) : Nat := 1 + 2 * (value op).length

def total (ops : List Op) : Nat := (ops.map weight).sum

theorem total_append (xs ys : List Op) : total (xs ++ ys) = total xs + total ys := by
  simp [total]

/-- The tasks from the end of a request weigh no more than the letters in its value. -/
theorem total_tail {a v : Bytes} {reads : List Bytes} (key₀ : Nat → Int32)
    (hreads : reads.flatten = a ++ v) (hs : 0 ∉ a ++ v) (ha : letters a = 0)
    (hv : ∀ c ∈ v, isSpace c = false) : total (tasks key₀ reads) ≤ letters v := by
  induction reads generalizing a v key₀ with
  | nil => exact Nat.zero_le _
  | cons read reads ih =>
    rw [List.flatten_cons] at hreads
    rw [tasks, total_append]
    -- the weight of one piece that reaches from `b` into the value
    have hpiece : ∀ b u : Bytes, read = b ++ u → 0 ∉ read → letters b = 0 →
        (∀ c ∈ u, isSpace c = false) → total (parse (key₀ 0) read).toList ≤ letters u := by
      intro b u hread hs hb hu
      cases hop : parse (key₀ 0) read with
      | none => exact Nat.zero_le _
      | some op =>
        have hl := letters_of_parse hs hop
        subst hread
        have hval := value_of_tail hs hb hu hop
        rw [letters_append, hb] at hl
        simp only [Option.toList_some, total, List.map_cons, List.map_nil, List.sum_cons,
          List.sum_nil, weight, hval, List.length_nil]
        omega
    rcases List.append_eq_append_iff.mp hreads with ⟨x, hx, hrest⟩ | ⟨x, hx, hrest⟩
    · have hsub : ∀ c ∈ read, c ∈ a ++ v := by
        intro c hc
        rw [hx]
        exact List.mem_append_left v (List.mem_append_left x hc)
      rw [hx, letters_append] at ha
      have hhead := hpiece read [] (List.append_nil read).symm (fun h0 => hs (hsub 0 h0)) (by omega)
        (by simp)
      have htail := ih (fun n => key₀ (n + 1)) hrest
        (fun h0 => hs (by rw [hx, List.append_assoc]; exact List.mem_append_right read h0)) (by omega) hv
      have h0 : letters [] = 0 := rfl
      omega
    · have hs' : 0 ∉ read ++ reads.flatten := hreads ▸ hs
      rw [hrest, List.forall_mem_append] at hv
      have hhead := hpiece a x hx (fun h0 => hs' (List.mem_append_left _ h0)) ha hv.1
      have htail := ih (a := []) (fun n => key₀ (n + 1)) rfl
        (fun h0 => hs' (List.mem_append_right read h0)) rfl hv.2
      rw [hrest, letters_append]
      omega

/-! ## The first piece -/

/-- A first piece that becomes a task reaches to the end of the command at least. -/
theorem first_piece {rest t : Bytes} (hw : w ∈ [PUT, GET, DEL]) (h : w ++ 32 :: rest = s ++ t)
    (hs : 0 ∉ s) (hop : parse key₀ s = some op) :
    s = w ∨ ∃ y, s = w ++ 32 :: y ∧ rest = y ++ t := by
  rcases List.append_eq_append_iff.mp h with ⟨x, hx, hrest⟩ | ⟨x, hx, _⟩
  · cases x with
    | nil => exact Or.inl (by rw [hx, List.append_nil])
    | cons c y =>
      rw [List.cons_append, List.cons.injEq] at hrest
      exact Or.inr ⟨y, by rw [hx, hrest.1], hrest.2⟩
  · obtain ⟨w', r', hd, _, hw'⟩ := exists_command hs hop
    have hlen := (List.dropWhile_sublist isSpace (l := s)).length_le
    have hx' := congrArg List.length hx
    rw [hd, List.length_append, command_length hw'] at hlen
    rw [List.length_append, command_length hw] at hx'
    have hnil : x = [] := List.length_eq_zero_iff.mp (by omega)
    exact Or.inl (by rw [hx, hnil, List.append_nil])

theorem dropWhile_command (hw : w ∈ [PUT, GET, DEL]) (r : Bytes) :
    (w ++ r).dropWhile isSpace = w ++ r := by
  obtain ⟨c, w, rfl⟩ := List.exists_cons_of_ne_nil (command_word hw []).ne_nil
  have hc := (command_word hw []).no_space c List.mem_cons_self
  rw [List.cons_append, List.dropWhile_cons_of_neg (by simp [hc])]

theorem dropWhile_decimal_cut {key : Int32} {y t : Bytes} (h : decimal key = y ++ t) (r : Bytes)
    (hy : y ≠ []) : (32 :: (y ++ r)).dropWhile isSpace = y ++ r := by
  obtain ⟨c, y, rfl⟩ := List.exists_cons_of_ne_nil hy
  have hc : isSpace c = false := decimal_no_space (h ▸ List.mem_append_left t List.mem_cons_self)
  rw [List.dropWhile_cons_of_pos (by rfl), List.cons_append,
    List.dropWhile_cons_of_neg (by simp [hc])]

/-- A command on its own leaves the uninitialized key and no value. -/
theorem parse_command_alone (hw : w ∈ [PUT, GET, DEL]) (hs : 0 ∉ w) (hop : parse key₀ w = some op) :
    op.key = key₀ ∧ value op = [] := by
  have hd := dropWhile_command hw []
  rw [List.append_nil] at hd
  have hword : Word w [] := ⟨(command_word hw []).ne_nil, (command_word hw []).no_space, by simp⟩
  exact parse_end hs (by rw [hd, List.append_nil]) hword rfl hop

/-- A first piece without any of the value makes a task without value. -/
theorem value_of_first {key : Int32} {e t : Bytes} (hw : w ∈ [PUT, GET, DEL])
    (he : e = [] ∨ e = [32]) (h : w ++ 32 :: (decimal key ++ e) = s ++ t) (hs : 0 ∉ s)
    (hop : parse key₀ s = some op) : value op = [] := by
  rcases first_piece hw h hs hop with rfl | ⟨y, rfl, hy⟩
  · exact (parse_command_alone hw hs hop).2
  · have hword := command_word hw y
    have hd := dropWhile_command hw (32 :: y)
    rcases List.append_eq_append_iff.mp hy with ⟨x, rfl, hx⟩ | ⟨x, hx, _⟩
    · have hspaces : x = [] ∨ x = [32] := by
        rcases he with rfl | rfl
        · exact Or.inl (List.append_eq_nil_iff.mp hx.symm).1
        · cases x with
          | nil => exact Or.inl rfl
          | cons c x =>
            rw [List.cons_append, List.cons.injEq] at hx
            have hnil := (List.append_eq_nil_iff.mp hx.2.symm).1
            exact Or.inr (by rw [hnil, ← hx.1])
      have hnumber : Word (decimal key) x := decimal_word key (by
        rcases hspaces with rfl | rfl
        · simp
        · simp [isSpace])
      have hend : x.dropWhile isSpace = [] := by rcases hspaces with rfl | rfl <;> rfl
      have hdecimal : decimal key = decimal key ++ [] := (List.append_nil _).symm
      exact parse_number_end hs hd hword (dropWhile_decimal_cut hdecimal x (decimal_ne_nil key))
        hnumber (decimal_cut_digits hdecimal (decimal_ne_nil key)) hend hop
    · by_cases hyn : y = []
      · rw [hyn] at hd hs hop hword
        exact (parse_end hs hd hword rfl hop).2
      · have hnumber : Word y [] :=
          ⟨hyn, fun c hc => decimal_no_space (hx ▸ List.mem_append_left x hc), by simp⟩
        have hdrop := dropWhile_decimal_cut hx [] hyn
        rw [List.append_nil] at hdrop
        exact parse_number_end hs hd hword (by rw [hdrop, List.append_nil]) hnumber
          (decimal_cut_digits hx hyn) rfl hop

/-- A first piece that does not reach the end of the key makes a task for another key, if
the uninitialized variable holds another one. -/
theorem key_of_first {key : Int32} {t : Bytes} (hw : w ∈ [PUT, GET, DEL])
    (h : w ++ 32 :: decimal key = s ++ t) (ht : t ≠ []) (hs : 0 ∉ s) (hkey : key₀ ≠ key)
    (hop : parse key₀ s = some op) : op.key ≠ key := by
  rcases first_piece hw h hs hop with rfl | ⟨y, rfl, hy⟩
  · rw [(parse_command_alone hw hs hop).1]
    exact hkey
  · have hword := command_word hw y
    have hd := dropWhile_command hw (32 :: y)
    by_cases hyn : y = []
    · rw [hyn] at hd hs hop hword
      rw [(parse_end hs hd hword rfl hop).1]
      exact hkey
    · have hdrop := dropWhile_decimal_cut hy [] hyn
      rw [List.append_nil] at hdrop
      rw [(parse_after hs hd hword hop).1]
      exact Stream.readInt_decimal_cut hdrop hy hyn ht key₀

/-! ## One request -/

variable {reads : List Bytes} {key : Int32} {v : Bytes}

theorem total_singleton_le {o : Option Op} (h : ∀ op ∈ o, value op = []) : total o.toList ≤ 1 := by
  cases o with
  | none => exact Nat.zero_le _
  | some op => simp [total, weight, h op rfl]

theorem letters_pos (hw : w ∈ [PUT, GET, DEL]) {rest t : Bytes} (h : w ++ rest = s ++ t)
    (hs : s ≠ []) : 1 ≤ letters s := by
  obtain ⟨c, s, rfl⟩ := List.exists_cons_of_ne_nil hs
  obtain ⟨d, w, rfl⟩ := List.exists_cons_of_ne_nil (command_word hw []).ne_nil
  rw [List.cons_append, List.cons_append, List.cons.injEq] at h
  have hd : letters [d] = 1 := by
    simp only [List.mem_cons, List.not_mem_nil, or_false, PUT, GET, DEL, List.cons.injEq] at hw
    rcases hw with ⟨rfl, _⟩ | ⟨rfl, _⟩ | ⟨rfl, _⟩ <;> rfl
  rw [← h.1]
  have hsplit : letters (d :: s) = letters [d] + letters s := letters_append [d] s
  omega

theorem split_short (key₀s : Nat → Int32) (hw : w ∈ [PUT, GET, DEL]) (hs : s ≠ []) (hq : reads.flatten ≠ [])
    (h : s ++ reads.flatten = w ++ 32 :: decimal key) (h0 : 0 ∉ w ++ 32 :: decimal key) :
    total (tasks key₀s (s :: reads)) ≤ 1 ∧
      (key₀s 0 ≠ key → ∀ op ∈ tasks key₀s (s :: reads), op.key ≠ key) := by
  have hs0 : 0 ∉ s := fun hm => h0 (h ▸ List.mem_append_left _ hm)
  have hq0 : 0 ∉ reads.flatten := fun hm => h0 (h ▸ List.mem_append_right s hm)
  have hfirst := letters_pos hw h.symm hs
  have hcount := congrArg letters h
  have hspace : letters (32 :: decimal key) = 0 := by
    have := letters_append [32] (decimal key)
    rw [letters_decimal] at this
    exact this
  rw [letters_append, letters_append, letters_command hw, hspace] at hcount
  -- no letter is left for the other pieces
  have htail := total_tail (fun n => key₀s (n + 1)) (List.append_nil reads.flatten).symm
    (by rwa [List.append_nil]) (by omega) (by simp)
  have hnil : letters [] = 0 := rfl
  have htasks : tasks (fun n => key₀s (n + 1)) reads = [] := by
    cases ht : tasks (fun n => key₀s (n + 1)) reads with
    | nil => rfl
    | cons op ops =>
      rw [ht] at htail
      simp only [total, List.map_cons, List.sum_cons, weight] at htail
      omega
  have hvalue : ∀ op ∈ parse (key₀s 0) s, value op = [] := fun op hop =>
    value_of_first hw (Or.inl rfl) (by rw [List.append_nil, h]) hs0 hop
  rw [tasks, htasks, List.append_nil]
  refine ⟨total_singleton_le hvalue, ?_⟩
  intro hkey op hop
  exact key_of_first hw h.symm hq hs0 hkey (Option.mem_toList.mp hop)

theorem split_put (key₀s : Nat → Int32) (hv : Sendable (.put key v)) (hs : s ≠ []) (hq : reads.flatten ≠ [])
    (h : s ++ reads.flatten = text (.put key v)) :
    total (tasks key₀s (s :: reads)) < weight (.put key v) := by
  have h0 := text_no_nul hv
  have hs0 : 0 ∉ s := fun hm => h0 (h ▸ List.mem_append_left _ hm)
  have hq0 : 0 ∉ reads.flatten := fun hm => h0 (h ▸ List.mem_append_right s hm)
  have hword : ∀ c ∈ v, isSpace c = false := fun c hc => (hv.2 c hc).1
  have hpos : 0 < v.length := List.length_pos_iff.mpr hv.1
  have htext : text (.put key v) = (PUT ++ 32 :: (decimal key ++ [32])) ++ v := by simp [text]
  have hcount : letters (PUT ++ 32 :: (decimal key ++ [32])) = 1 := by
    have hspace : letters (32 :: (decimal key ++ [32])) = 0 := by
      have hsplit := letters_append [32] (decimal key ++ [32])
      rw [letters_append (decimal key) [32], letters_decimal] at hsplit
      exact hsplit
    rw [letters_append, letters_command (by simp), hspace]
  have hweight : weight (.put key v) = 1 + 2 * v.length := rfl
  rw [htext] at h
  rw [tasks, total_append, hweight]
  rcases List.append_eq_append_iff.mp h with ⟨x, hx, hrest⟩ | ⟨x, hx, hrest⟩
  · -- the first piece ends before the value
    have hfirst := letters_pos (by simp : PUT ∈ [PUT, GET, DEL]) hx hs
    rw [hx, letters_append] at hcount
    have htail := total_tail (fun n => key₀s (n + 1)) hrest (hrest ▸ hq0) (by omega) hword
    have hle := letters_le v
    have hone : total (parse (key₀s 0) s).toList ≤ 1 := total_singleton_le fun op hop =>
      value_of_first (by simp : PUT ∈ [PUT, GET, DEL]) (Or.inr rfl) hx hs0 hop
    omega
  · -- the first piece ends in the value
    have hlen := congrArg List.length hrest
    have hqlen := List.length_pos_iff.mpr hq
    rw [List.length_append] at hlen
    rw [hrest, List.forall_mem_append] at hword
    have htail := total_tail (a := []) (fun n => key₀s (n + 1)) rfl hq0 rfl hword.2
    have hle := letters_le reads.flatten
    by_cases hxn : x = []
    · rw [hxn, List.append_nil] at hx
      have hone : total (parse (key₀s 0) s).toList ≤ 1 := total_singleton_le fun op hop =>
        value_of_first (by simp : PUT ∈ [PUT, GET, DEL]) (Or.inr rfl)
          (by rw [hx, List.append_nil]) hs0 hop
      omega
    · have hsend : Sendable (.put key x) :=
        ⟨hxn, fun c hc => hv.2 c (hrest ▸ List.mem_append_left _ hc)⟩
      have hparse : parse (key₀s 0) s = some (.put key x) := by
        rw [← parse_text (key₀s 0) hsend, hx]
        simp [text]
      have hone : total (parse (key₀s 0) s).toList = 1 + 2 * x.length := by
        simp [hparse, total, weight, value]
      omega

theorem weight_pos (op : Op) : 1 ≤ weight op := Nat.le_add_right 1 _

theorem tasks_whole (key₀s : Nat → Int32) (hsend : Sendable op) (h : Delivers op reads) (hlen : reads.length = 1) :
    tasks key₀s reads = [op] := by
  obtain ⟨read, rfl⟩ := List.length_eq_one_iff.mp hlen
  have hbytes := h.bytes
  rw [List.flatten_singleton] at hbytes
  rw [hbytes, tasks, parse_text (key₀s 0) hsend]
  rfl

theorem text_ne_nil (op : Op) : text op ≠ [] := by
  cases op <;> simp [text]

/-- What several reads of one request amount to. -/
theorem split_cases (key₀s : Nat → Int32) (hsend : Sendable op) (h : Delivers op reads) (hlen : reads.length ≠ 1) :
    total (tasks key₀s reads) < weight op ∨
      (total (tasks key₀s reads) ≤ 1 ∧ weight op = 1 ∧ (key₀s 0 ≠ op.key → op ∉ tasks key₀s reads)) := by
  obtain ⟨s, r, rest, rfl⟩ : ∃ s r rest, reads = s :: r :: rest := by
    cases reads with
    | nil => exact absurd h.bytes.symm (text_ne_nil op)
    | cons s reads =>
      cases reads with
      | nil => exact absurd rfl hlen
      | cons r rest => exact ⟨s, r, rest, rfl⟩
  have hs : s ≠ [] := h.ne_nil s List.mem_cons_self
  have hq : (r :: rest).flatten ≠ [] := by
    have hr := h.ne_nil r (List.mem_cons_of_mem s List.mem_cons_self)
    simp [hr]
  have hbytes := h.bytes
  rw [List.flatten_cons] at hbytes
  cases op with
  | put key v => exact Or.inl (split_put key₀s hsend hs hq hbytes)
  | get key =>
    obtain ⟨hle, hkey⟩ := split_short (w := GET) key₀s (by simp) hs hq hbytes (text_no_nul hsend)
    exact Or.inr ⟨hle, rfl, fun hne hm => hkey hne _ hm rfl⟩
  | del key =>
    obtain ⟨hle, hkey⟩ := split_short (w := DEL) key₀s (by simp) hs hq hbytes (text_no_nul hsend)
    exact Or.inr ⟨hle, rfl, fun hne hm => hkey hne _ hm rfl⟩

theorem total_delivered (key₀s : Nat → Int32) (hsend : Sendable op) (h : Delivers op reads) :
    total (tasks key₀s reads) ≤ weight op := by
  by_cases hlen : reads.length = 1
  · rw [tasks_whole key₀s hsend h hlen]
    simp [total]
  · rcases split_cases key₀s hsend h hlen with hlt | ⟨hle, hw, _⟩
    · exact hlt.le
    · omega

/-! ## A connection -/

theorem total_stream {ops : List Op} {segments : List (List Bytes)} (key₀s : Nat → Int32)
    (hsend : ∀ op ∈ ops, Sendable op) (h : List.Forall₂ Delivers ops segments) :
    total (tasks key₀s segments.flatten) ≤ total ops := by
  induction h generalizing key₀s with
  | nil => exact Nat.le_refl _
  | @cons op reads ops segments hop _ ih =>
    have hfirst := total_delivered key₀s (hsend op List.mem_cons_self) hop
    have hrest := ih (fun n => key₀s (n + reads.length)) fun o ho => hsend o (List.mem_cons_of_mem op ho)
    rw [List.flatten_cons, tasks_append, total_append]
    have htotal : total (op :: ops) = weight op + total ops := by simp [total]
    omega

theorem exists_other (key : Int32) : ∃ g : Int32, g ≠ key := by
  by_cases h : key = 0
  · exact ⟨1, by rw [h]; decide⟩
  · exact ⟨0, fun h0 => h h0.symm⟩

/-- A request that is split shows, if the uninitialized variable holds another key. -/
theorem whole_of_tasks {ops : List Op} {segments : List (List Bytes)}
    (hsend : ∀ o ∈ op :: ops, Sendable o) (hop : Delivers op reads)
    (h : List.Forall₂ Delivers ops segments)
    (htasks : ∀ key₀s, tasks key₀s (reads :: segments).flatten = op :: ops) : reads.length = 1 := by
  by_contra hlen
  obtain ⟨g, hg⟩ := exists_other op.key
  have hg' := htasks fun _ => g
  rw [List.flatten_cons, tasks_append] at hg'
  have htotal := congrArg total hg'
  have hcons : total (op :: ops) = weight op + total ops := by simp [total]
  have hrest := total_stream (fun _ => g) (fun o ho => hsend o (List.mem_cons_of_mem op ho)) h
  rw [total_append, hcons] at htotal
  have hpos := weight_pos op
  rcases split_cases (fun _ => g) (hsend op List.mem_cons_self) hop hlen with hlt | ⟨hle, _, hkey⟩
  · omega
  · apply hkey hg
    cases hfirst : tasks (fun _ => g) reads with
    | nil =>
      rw [hfirst] at htotal
      have hnil : total [] = 0 := rfl
      omega
    | cons o os =>
      rw [hfirst, List.cons_append, List.cons.injEq] at hg'
      rw [hg'.1]
      exact List.mem_cons_self

/-- For all requests and all ways to deliver them, the tasks submitted are the requests
sent, whatever the counters, the pool and the uninitialized variable, exactly if every
request arrives in one read. -/
theorem stream_iff (ops : List Op) (hsend : ∀ op ∈ ops, Sendable op) (segments : List (List Bytes))
    (h : List.Forall₂ Delivers ops segments) (c : Counts) (accepts : Nat → Bool) :
    (∀ key₀s, calls (serve c accepts key₀s segments.flatten) = ops) ↔
      ∀ reads ∈ segments, reads.length = 1 := by
  simp only [calls_serve]
  induction h with
  | nil => simp [tasks]
  | @cons op reads ops segments hop hrest ih =>
    have hsend' : ∀ o ∈ ops, Sendable o := fun o ho => hsend o (List.mem_cons_of_mem op ho)
    rw [List.forall_mem_cons]
    constructor
    · intro htasks
      have hlen := whole_of_tasks hsend hop hrest htasks
      refine ⟨hlen, (ih hsend').mp ?_⟩
      intro key₀s
      have htask := htasks fun n => key₀s (n - 1)
      rw [List.flatten_cons, tasks_append, tasks_whole _ (hsend op List.mem_cons_self) hop hlen, hlen,
        List.singleton_append, List.cons.injEq] at htask
      exact htask.2
    · rintro ⟨hlen, hlens⟩ key₀s
      rw [List.flatten_cons, tasks_append, tasks_whole _ (hsend op List.mem_cons_self) hop hlen,
        (ih hsend').mpr hlens]
      rfl

/-- `PUT 1 ab` and `GET -12`, each in one read. -/
theorem two_requests_whole :
    calls (serve ⟨0, 0, 0⟩ (fun _ => true) (fun _ => 7) [text (.put 1 [97, 98]), text (.get (-12))]) =
      [.put 1 [97, 98], .get (-12)] :=
  (stream_iff [.put 1 [97, 98], .get (-12)] (by simp [Sendable, isSpace])
    [[text (.put 1 [97, 98])], [text (.get (-12))]]
    (.cons ⟨by simp, by simp [text_ne_nil]⟩ (.cons ⟨by simp, by simp [text_ne_nil]⟩ .nil))
    ⟨0, 0, 0⟩ fun _ => true).mpr (by simp) fun _ => 7

/-- `PUT 1 ab` in two reads stores the first letter of the value. -/
theorem split_value_cut :
    Delivers (.put 1 [97, 98]) [PUT ++ [32, 49, 32, 97], [98]] ∧
      calls (serve ⟨0, 0, 0⟩ (fun _ => true) (fun _ => 0) [PUT ++ [32, 49, 32, 97], [98]]) =
        [.put 1 [97]] :=
  ⟨⟨by decide, by decide⟩, by decide⟩

end HandleClient

end KVStorage

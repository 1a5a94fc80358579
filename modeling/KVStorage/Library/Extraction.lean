import Mathlib.Tactic.Common
import Mathlib.Data.List.TakeWhile
import Mathlib.Data.Int.Order.Basic

/-!
# Formatted extraction from a stream of characters

`operator>>` for strings and for `int` on an `istringstream`, in the classic locale
and in base 10, and the words of a text, which say what a chain of extractions finds.
-/

namespace Extraction

set_option autoImplicit false

/-- `isspace`. -/
def isSpace (c : UInt8) : Bool := c = 32 || (9 ≤ c && c ≤ 13)

def isDigit (c : UInt8) : Bool := 48 ≤ c && c ≤ 57

theorem not_digit_of_space {c : UInt8} (h : isSpace c) : isDigit c = false := by
  simp only [isSpace, Bool.or_eq_true, decide_eq_true_eq, Bool.and_eq_true] at h
  simp only [isDigit, Bool.and_eq_false_iff, decide_eq_false_iff_not, UInt8.not_le]
  refine Or.inl ?_
  rcases h with rfl | ⟨_, h⟩
  · decide
  · exact UInt8.lt_of_le_of_lt h (by decide)

/-! ## Words -/

/-- The words between white space. -/
def tokens (s : List UInt8) : List (List UInt8) := (s.splitOnP isSpace).filter fun w => w ≠ []

/-- `w` is a word and ends where `r` begins. -/
structure Word (w r : List UInt8) : Prop where
  ne_nil : w ≠ []
  no_space : ∀ c ∈ w, isSpace c = false
  ends : ∀ c ∈ r.head?, isSpace c = true

theorem tokens_nil : tokens [] = [] := rfl

theorem tokens_space {c : UInt8} (h : isSpace c) (s : List UInt8) : tokens (c :: s) = tokens s := by
  simp [tokens, List.splitOnP_cons_eq_if_modifyHead, h]

theorem tokens_skip (s : List UInt8) : tokens (s.dropWhile isSpace) = tokens s := by
  induction s with
  | nil => rfl
  | cons c s ih =>
    cases h : isSpace c with
    | true => rw [List.dropWhile_cons_of_pos h, ih, tokens_space h]
    | false => rw [List.dropWhile_cons_of_neg (by simp [h])]

theorem splitOnP_word {w r : List UInt8} (h : ∀ c ∈ w, isSpace c = false) :
    (w ++ r).splitOnP isSpace = (r.splitOnP isSpace).modifyHead (w ++ ·) := by
  induction w with
  | nil =>
    rw [List.nil_append]
    cases r.splitOnP isSpace <;> rfl
  | cons c w ih =>
    have hc := h c List.mem_cons_self
    rw [List.cons_append, List.splitOnP_cons_eq_if_modifyHead, hc,
      ih fun d hd => h d (List.mem_cons_of_mem c hd)]
    cases r.splitOnP isSpace <;> rfl

theorem Word.tokens {w r : List UInt8} (h : Word w r) : tokens (w ++ r) = w :: tokens r := by
  cases r with
  | nil =>
    have hw := h.ne_nil
    simp [Extraction.tokens, List.splitOnP_eq_singleton h.no_space, hw]
  | cons c r =>
    have hc : isSpace c = true := h.ends c rfl
    have hw := h.ne_nil
    rw [tokens_space hc]
    simp [Extraction.tokens, splitOnP_word h.no_space, List.splitOnP_cons_eq_if_modifyHead, hc, hw]

theorem exists_word {s : List UInt8} (h : s.dropWhile isSpace ≠ []) :
    ∃ w r, s.dropWhile isSpace = w ++ r ∧ Word w r := by
  refine ⟨(s.dropWhile isSpace).takeWhile fun c => !isSpace c,
    (s.dropWhile isSpace).dropWhile fun c => !isSpace c, (List.takeWhile_append_dropWhile).symm, ?_, ?_, ?_⟩
  · cases hd : s.dropWhile isSpace with
    | nil => exact absurd hd h
    | cons c r =>
      have hc : isSpace c = false := by
        have := List.head?_dropWhile_not isSpace s
        rw [hd] at this
        simpa using this
      simp [hc]
  · intro c hc
    simpa using List.mem_takeWhile_imp hc
  · intro c hc
    have := List.head?_dropWhile_not (fun c => !isSpace c) (s.dropWhile isSpace)
    rw [Option.mem_def.mp hc] at this
    simpa using this

theorem tokens_cases (s : List UInt8) :
    (tokens s = [] ∧ s.dropWhile isSpace = []) ∨
      ∃ w r, tokens s = w :: tokens r ∧ s.dropWhile isSpace = w ++ r ∧ Word w r := by
  by_cases h : s.dropWhile isSpace = []
  · refine Or.inl ⟨?_, h⟩
    rw [← tokens_skip, h, tokens_nil]
  · obtain ⟨w, r, hs, hw⟩ := exists_word h
    refine Or.inr ⟨w, r, ?_, hs, hw⟩
    rw [← tokens_skip, hs, hw.tokens]

/-! ## Streams -/

/-- What is left to read, and the state bits. -/
structure Stream where
  rest : List UInt8
  eof : Bool
  fail : Bool

namespace Stream

def ofBytes (s : List UInt8) : Stream := ⟨s, false, false⟩

/-- A stream that has been read up to `r` without a failure. -/
def upTo (r : List UInt8) : Stream := ⟨r, r.isEmpty, false⟩

/-- The sentry of an extraction skips white space. It fails on a stream that is not
good, and on one that has nothing more. -/
def sentry (s : Stream) : Stream × Bool :=
  if s.eof || s.fail then ({ s with fail := true }, false)
  else
    match s.rest.dropWhile isSpace with
    | [] => (⟨[], true, true⟩, false)
    | c :: r => (⟨c :: r, false, false⟩, true)

/-- `>> v` into a string: without the sentry the variable is left untouched. -/
def readString (s : Stream) (v : List UInt8) : Stream × List UInt8 :=
  match s.sentry with
  | (s, false) => (s, v)
  | (s, true) =>
    (upTo (s.rest.dropWhile fun c => !isSpace c), s.rest.takeWhile fun c => !isSpace c)

end Stream

/-! ## Numerals -/

/-- The value of a string of digits. -/
def digitsVal (ds : List UInt8) : Nat := ds.foldl (fun n c => 10 * n + (c.toNat - 48)) 0

/-- A leading sign, and what comes after it. -/
def sign : List UInt8 → Bool × List UInt8
  | [] => (false, [])
  | c :: r => if c = 45 then (true, r) else if c = 43 then (false, r) else (false, c :: r)

def signed (negative : Bool) (n : Nat) : Int := if negative then -n else n

/-- The nearest `int`, and whether it is another number. -/
def clamp (z : Int) : Int32 × Bool :=
  if z < Int32.minValue.toInt then (Int32.minValue, true)
  else if Int32.maxValue.toInt < z then (Int32.maxValue, true)
  else (Int32.ofInt z, false)

/-- `>> v` into an `int`: a text without digits stores 0, one out of range the limit, and
both fail; the first character that is no digit ends the number. -/
def Stream.readInt (s : Stream) (v : Int32) : Stream × Int32 :=
  match s.sentry with
  | (s, false) => (s, v)
  | (s, true) =>
    let ds := (sign s.rest).2.takeWhile isDigit
    let rest := (sign s.rest).2.dropWhile isDigit
    if ds = [] then (⟨rest, rest.isEmpty, true⟩, 0)
    else
      let r := clamp (signed (sign s.rest).1 (digitsVal ds))
      (⟨rest, rest.isEmpty, r.2⟩, r.1)

/-- A word that is a decimal number in the range of `int`. -/
def wholeInt (w : List UInt8) : Option Int32 :=
  if (sign w).2 ≠ [] ∧ (sign w).2.all isDigit then
    let r := clamp (signed (sign w).1 (digitsVal (sign w).2))
    if r.2 then none else some r.1
  else none

/-! ## Extractions find the words -/

namespace Stream

theorem sentry_ofBytes (s : List UInt8) : (ofBytes s).sentry = (upTo s).sentry := by
  cases s <;> rfl

theorem readString_ofBytes (s v : List UInt8) : (ofBytes s).readString v = (upTo s).readString v := by
  rw [readString, readString, sentry_ofBytes]

theorem sentry_done {s : List UInt8} (h : s.dropWhile isSpace = []) :
    (upTo s).sentry = (⟨[], true, true⟩, false) := by
  cases s with
  | nil => rfl
  | cons c s => simp [sentry, upTo, h]

theorem sentry_word {s w r : List UInt8} (h : s.dropWhile isSpace = w ++ r) (hw : Word w r) :
    (upTo s).sentry = (⟨w ++ r, false, false⟩, true) := by
  obtain ⟨c, w, rfl⟩ := List.exists_cons_of_ne_nil hw.ne_nil
  cases s with
  | nil => simp at h
  | cons d s => simp [sentry, upTo, h]

theorem readString_done {s : List UInt8} (h : s.dropWhile isSpace = []) (v : List UInt8) :
    ((upTo s).readString v).2 = v := by
  rw [readString, sentry_done h]

theorem readInt_done {s : List UInt8} (h : s.dropWhile isSpace = []) (v : Int32) :
    (upTo s).readInt v = (⟨[], true, true⟩, v) := by
  rw [readInt, sentry_done h]

theorem takeWhile_append_stop {p : UInt8 → Bool} {w r : List UInt8} (hw : ∀ c ∈ w, p c = true)
    (hr : ∀ c ∈ r.head?, p c = false) : (w ++ r).takeWhile p = w ∧ (w ++ r).dropWhile p = r := by
  induction w with
  | nil =>
    cases r with
    | nil => exact ⟨rfl, rfl⟩
    | cons c r =>
      have hc := hr c rfl
      simp [hc]
  | cons c w ih =>
    obtain ⟨ht, hd⟩ := ih fun d hd => hw d (List.mem_cons_of_mem c hd)
    simp [hw c List.mem_cons_self, ht, hd]

theorem readString_word {s w r : List UInt8} (h : s.dropWhile isSpace = w ++ r) (hw : Word w r)
    (v : List UInt8) : (upTo s).readString v = (upTo r, w) := by
  have hstop := takeWhile_append_stop (p := fun c => !isSpace c) (w := w) (r := r)
    (fun c hc => by simp [hw.no_space c hc]) (fun c hc => by simp [hw.ends c hc])
  rw [readString, sentry_word h hw]
  simp only [hstop.1, hstop.2]

theorem sign_append {w : List UInt8} (h : w ≠ []) (r : List UInt8) :
    sign (w ++ r) = ((sign w).1, (sign w).2 ++ r) := by
  obtain ⟨c, w, rfl⟩ := List.exists_cons_of_ne_nil h
  simp only [List.cons_append, sign]
  split
  · rfl
  · split <;> rfl

theorem readInt_word {s w r : List UInt8} (h : s.dropWhile isSpace = w ++ r) (hw : Word w r)
    {n : Int32} (hn : wholeInt w = some n) (v : Int32) : (upTo s).readInt v = (upTo r, n) := by
  unfold wholeInt at hn
  split at hn
  · rename_i hd
    have hstop := takeWhile_append_stop (List.all_eq_true.mp hd.2) fun c hc => not_digit_of_space (hw.ends c hc)
    rw [readInt, sentry_word h hw]
    simp only [sign_append hw.ne_nil, hstop.1, hstop.2, if_neg hd.1]
    dsimp only at hn
    split at hn
    · simp at hn
    · rename_i hr
      simp only [Option.some.injEq] at hn
      simp only [Bool.not_eq_true] at hr
      rw [hr, hn]
      rfl
  · simp at hn

end Stream

/-! ## Printed numbers -/

def natDecimal (n : Nat) : List UInt8 := (Nat.toDigits 10 n).map fun c => UInt8.ofNat c.toNat

/-- `to_string`. -/
def decimal (z : Int32) : List UInt8 :=
  if z.toInt < 0 then 45 :: natDecimal z.toInt.natAbs else natDecimal z.toInt.natAbs

theorem natDecimal_lt {n : Nat} (h : n < 10) : natDecimal n = [UInt8.ofNat (48 + n)] := by
  rw [natDecimal, Nat.toDigits_of_lt_base h, List.map_singleton, Nat.toNat_digitChar_of_lt_ten h]

theorem natDecimal_ge {n : Nat} (h : 10 ≤ n) :
    natDecimal n = natDecimal (n / 10) ++ [UInt8.ofNat (48 + n % 10)] := by
  have hd : n % 10 < 10 := Nat.mod_lt _ (by omega)
  rw [natDecimal, Nat.toDigits_of_base_le (by omega) h, List.map_append, List.map_singleton,
    Nat.toNat_digitChar_of_lt_ten hd]
  rfl

theorem digit_toNat {d : Nat} (h : d < 10) : (UInt8.ofNat (48 + d)).toNat = 48 + d := by
  rw [UInt8.toNat_ofNat']
  omega

theorem isDigit_digit {d : Nat} (h : d < 10) : isDigit (UInt8.ofNat (48 + d)) = true := by
  have hd := digit_toNat h
  simp only [isDigit, Bool.and_eq_true, decide_eq_true_eq, UInt8.le_iff_toNat_le, hd]
  constructor
  · exact Nat.le_add_right 48 d
  · have h57 : (57 : UInt8).toNat = 57 := rfl
    omega

theorem digitsVal_concat (ds : List UInt8) (c : UInt8) :
    digitsVal (ds ++ [c]) = 10 * digitsVal ds + (c.toNat - 48) := by
  simp [digitsVal, List.foldl_append]

theorem natDecimal_digits (n : Nat) : ∀ c ∈ natDecimal n, isDigit c = true := by
  induction n using Nat.strong_induction_on with
  | _ n ih =>
    intro c hc
    by_cases h : n < 10
    · rw [natDecimal_lt h, List.mem_singleton] at hc
      rw [hc]
      exact isDigit_digit h
    · rw [natDecimal_ge (by omega)] at hc
      rcases List.mem_append.mp hc with hc | hc
      · exact ih (n / 10) (by omega) c hc
      · rw [List.mem_singleton] at hc
        rw [hc]
        exact isDigit_digit (Nat.mod_lt _ (by omega))

theorem natDecimal_ne_nil (n : Nat) : natDecimal n ≠ [] := by
  by_cases h : n < 10
  · simp [natDecimal_lt h]
  · simp [natDecimal_ge (not_lt.mp h)]

theorem digitsVal_natDecimal (n : Nat) : digitsVal (natDecimal n) = n := by
  induction n using Nat.strong_induction_on with
  | _ n ih =>
    by_cases h : n < 10
    · rw [natDecimal_lt h]
      simp only [digitsVal, List.foldl_cons, List.foldl_nil, digit_toNat h]
      omega
    · have hd : n % 10 < 10 := Nat.mod_lt _ (by omega)
      rw [natDecimal_ge (by omega), digitsVal_concat, ih (n / 10) (by omega), digit_toNat hd]
      omega

theorem digitsVal_cut_lt {n : Nat} {ds es : List UInt8} (h : natDecimal n = ds ++ es)
    (hds : ds ≠ []) (hes : es ≠ []) : digitsVal ds < n := by
  induction n using Nat.strong_induction_on generalizing es with
  | _ n ih =>
    by_cases hn : n < 10
    · have hlen := congrArg List.length h
      have h₁ := List.length_pos_iff.mpr hds
      have h₂ := List.length_pos_iff.mpr hes
      rw [natDecimal_lt hn, List.length_singleton, List.length_append] at hlen
      omega
    · obtain ⟨es, c, rfl⟩ := List.eq_nil_or_concat es |>.resolve_left hes
      rw [natDecimal_ge (by omega), List.concat_eq_append, ← List.append_assoc] at h
      obtain ⟨h, _⟩ := List.append_inj' h rfl
      by_cases he : es = []
      · rw [he, List.append_nil] at h
        rw [← h, digitsVal_natDecimal]
        omega
      · have hlt := ih (n / 10) (by omega) h he
        omega

theorem sign_of_digits {ds : List UInt8} (h : ∀ c ∈ ds, isDigit c = true) : sign ds = (false, ds) := by
  cases ds with
  | nil => rfl
  | cons c ds =>
    have hc := h c List.mem_cons_self
    have hminus : c ≠ 45 := by
      rintro rfl
      exact absurd hc (by decide)
    have hplus : c ≠ 43 := by
      rintro rfl
      exact absurd hc (by decide)
    rw [sign, if_neg hminus, if_neg hplus]

theorem sign_decimal (z : Int32) :
    sign (decimal z) = (decide (z.toInt < 0), natDecimal z.toInt.natAbs) := by
  unfold decimal
  by_cases h : z.toInt < 0
  · simp [sign, h]
  · rw [if_neg h, sign_of_digits (natDecimal_digits _)]
    simp [h]

theorem signed_natAbs (z : Int) : signed (decide (z < 0)) z.natAbs = z := by
  unfold signed
  by_cases h : z < 0
  · simp only [h, decide_true, if_true]
    omega
  · simp only [h, decide_false, Bool.false_eq_true, if_false]
    omega

theorem clamp_of_range {z : Int} (h₁ : Int32.minValue.toInt ≤ z) (h₂ : z ≤ Int32.maxValue.toInt) :
    clamp z = (Int32.ofInt z, false) := by
  unfold clamp
  rw [if_neg (not_lt.mpr h₁), if_neg (not_lt.mpr h₂)]

theorem wholeInt_decimal (z : Int32) : wholeInt (decimal z) = some z := by
  unfold wholeInt
  rw [sign_decimal]
  simp only [digitsVal_natDecimal, signed_natAbs]
  rw [clamp_of_range z.minValue_le_toInt z.toInt_le, Int32.ofInt_toInt, if_pos]
  · rfl
  · exact ⟨natDecimal_ne_nil _, List.all_eq_true.mpr (natDecimal_digits _)⟩

theorem decimal_ne_nil (z : Int32) : decimal z ≠ [] := by
  unfold decimal
  split
  · simp
  · exact natDecimal_ne_nil _

theorem mem_decimal {z : Int32} {c : UInt8} (h : c ∈ decimal z) : c = 45 ∨ isDigit c = true := by
  unfold decimal at h
  split at h
  · rcases List.mem_cons.mp h with rfl | h
    · exact Or.inl rfl
    · exact Or.inr (natDecimal_digits _ c h)
  · exact Or.inr (natDecimal_digits _ c h)

theorem decimal_no_space {z : Int32} {c : UInt8} (h : c ∈ decimal z) : isSpace c = false := by
  rcases mem_decimal h with rfl | h
  · rfl
  · cases hs : isSpace c with
    | false => rfl
    | true =>
      rw [not_digit_of_space hs] at h
      exact absurd h (by decide)

/-- A printed number cut off somewhere is a sign and digits that spell another number. -/
theorem decimal_cut {z : Int32} {p q : List UInt8} (h : decimal z = p ++ q) (hp : p ≠ [])
    (hq : q ≠ []) :
    (∀ c ∈ (sign p).2, isDigit c = true) ∧
      signed (sign p).1 (digitsVal (sign p).2) ≠ z.toInt ∧
        (signed (sign p).1 (digitsVal (sign p).2)).natAbs ≤ z.toInt.natAbs := by
  unfold decimal at h
  by_cases hz : z.toInt < 0
  · rw [if_pos hz] at h
    obtain ⟨c, ds, rfl⟩ := List.exists_cons_of_ne_nil hp
    rw [List.cons_append, List.cons.injEq] at h
    obtain ⟨rfl, h⟩ := h
    have hsign : sign (45 :: ds) = (true, ds) := rfl
    rw [hsign]
    have hdigits : ∀ c ∈ ds, isDigit c = true := fun c hc =>
      natDecimal_digits _ c (h ▸ List.mem_append_left q hc)
    have hlt : digitsVal ds < z.toInt.natAbs := by
      by_cases hds : ds = []
      · rw [hds]
        have h0 : digitsVal [] = 0 := rfl
        omega
      · exact digitsVal_cut_lt h hds hq
    refine ⟨hdigits, ?_, ?_⟩
    · simp only [signed, if_true]
      omega
    · simp only [signed, if_true]
      omega
  · rw [if_neg hz] at h
    have hdigits : ∀ c ∈ p, isDigit c = true := fun c hc =>
      natDecimal_digits _ c (h ▸ List.mem_append_left q hc)
    have hlt := digitsVal_cut_lt h hp hq
    rw [sign_of_digits hdigits]
    refine ⟨hdigits, ?_, ?_⟩
    · simp only [signed, Bool.false_eq_true, if_false]
      omega
    · simp only [signed, Bool.false_eq_true, if_false]
      omega

theorem decimal_cut_digits {z : Int32} {p q : List UInt8} (h : decimal z = p ++ q) (hp : p ≠ []) :
    ∀ c ∈ (sign p).2, isDigit c = true := by
  by_cases hq : q = []
  · rw [hq, List.append_nil] at h
    rw [← h, sign_decimal]
    exact natDecimal_digits _
  · exact (decimal_cut h hp hq).1

namespace Stream

theorem readInt_digits {s w r : List UInt8} (h : s.dropWhile isSpace = w ++ r) (hw : Word w r)
    (hd : ∀ c ∈ (sign w).2, isDigit c = true) (v : Int32) :
    ((upTo s).readInt v).1.rest = r ∧ ((upTo s).readInt v).1.eof = r.isEmpty ∧
      ((upTo s).readInt v).2 = if (sign w).2 = [] then 0
        else (clamp (signed (sign w).1 (digitsVal (sign w).2))).1 := by
  have hstop := takeWhile_append_stop hd fun c hc => not_digit_of_space (hw.ends c hc)
  rw [readInt, sentry_word h hw]
  simp only [sign_append hw.ne_nil, hstop.1, hstop.2]
  by_cases he : (sign w).2 = []
  · simp [he]
  · simp [he]

theorem readInt_decimal_cut {s p : List UInt8} {z : Int32} {q : List UInt8}
    (h : s.dropWhile isSpace = p) (hz : decimal z = p ++ q) (hp : p ≠ []) (hq : q ≠ [])
    (v : Int32) : ((upTo s).readInt v).2 ≠ z := by
  obtain ⟨hd, hne, hle⟩ := decimal_cut hz hp hq
  have hw : Word p [] :=
    ⟨hp, fun c hc => decimal_no_space (hz ▸ List.mem_append_left q hc), by simp⟩
  have hs : s.dropWhile isSpace = p ++ [] := by rw [h, List.append_nil]
  rw [(readInt_digits hs hw hd v).2.2]
  have hmin := z.le_toInt
  have hmax := z.toInt_lt
  by_cases he : (sign p).2 = []
  · rw [if_pos he]
    rintro rfl
    rw [he] at hne
    cases hsign : (sign p).1 <;> simp [hsign, signed, digitsVal] at hne
  · rw [if_neg he]
    generalize signed (sign p).1 (digitsVal (sign p).2) = n at hne hle ⊢
    -- a negative number cut off is no larger, and 2^31 itself has no digits to spare
    by_cases hn : n = 2 ^ 31
    · rw [hn, clamp, Int32.toInt_minValue, Int32.toInt_maxValue, if_neg (by omega), if_pos (by omega)]
      intro hz'
      have := congrArg Int32.toInt hz'
      rw [Int32.toInt_maxValue] at this
      omega
    · have h₁ : Int32.minValue.toInt ≤ n := by
        rw [Int32.toInt_minValue]
        omega
      have h₂ : n ≤ Int32.maxValue.toInt := by
        rw [Int32.toInt_maxValue]
        omega
      rw [clamp_of_range h₁ h₂]
      intro hz'
      apply hne
      rw [← hz', Int32.toInt_ofInt_of_le (by omega) (by omega)]

/-- Nothing is read where there is no word left, or where an extraction has failed. -/
theorem readString_end {s : Stream} (h : s.rest.dropWhile isSpace = []) (v : List UInt8) :
    (s.readString v).2 = v := by
  rw [readString, sentry, h]
  cases s.eof || s.fail <;> rfl

end Stream

end Extraction

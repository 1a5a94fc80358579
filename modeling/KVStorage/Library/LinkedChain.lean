import Mathlib.Data.List.Nodup
import Mathlib.Data.Fintype.Card
import Mathlib.Logic.Function.Basic

/-!
# Null-terminated linked chains

A memory of cells is seen through one link field: `nxt a = none` says that `a`
is not a cell, `nxt a = some none` that its link is null. A chain is the list of
cells a loop along the link meets, without the cell it starts from.
-/

namespace LinkedChain

set_option autoImplicit false

universe u v

variable {α : Type u}

/-- The last cell met when the cells `l` are passed from `a`. -/
def lastCell : α → List α → α
  | a, [] => a
  | _, b :: l => lastCell b l

/-- The links from `a` pass through exactly `l`; nothing is said of the last link. -/
def Segment (nxt : α → Option (Option α)) : α → List α → Prop
  | _, [] => True
  | a, b :: l => nxt a = some (some b) ∧ Segment nxt b l

/-- The links from `a` pass through exactly `l` and then end in null. -/
def Chain (nxt : α → Option (Option α)) : α → List α → Prop
  | a, [] => nxt a = some none
  | a, b :: l => nxt a = some (some b) ∧ Chain nxt b l

@[simp] theorem lastCell_nil (a : α) : lastCell a [] = a := rfl

@[simp] theorem lastCell_cons (a b : α) (l : List α) : lastCell a (b :: l) = lastCell b l := rfl

theorem lastCell_append (a : α) (l m : List α) :
    lastCell a (l ++ m) = lastCell (lastCell a l) m := by
  induction l generalizing a with
  | nil => rfl
  | cons b l ih => exact ih b

@[simp] theorem lastCell_concat (a b : α) (l : List α) : lastCell a (l ++ [b]) = b := by
  rw [lastCell_append]
  rfl

theorem lastCell_mem (a : α) (l : List α) : lastCell a l ∈ a :: l := by
  induction l generalizing a with
  | nil => exact List.mem_cons_self
  | cons b l ih => exact List.mem_cons_of_mem a (ih b)

theorem lastCell_cases (a : α) (l : List α) :
    (l = [] ∧ lastCell a l = a) ∨ ∃ x, l = x ++ [lastCell a l] := by
  rcases List.eq_nil_or_concat l with rfl | ⟨x, b, rfl⟩
  · exact Or.inl ⟨rfl, rfl⟩
  · exact Or.inr ⟨x, by simp⟩

theorem chain_append (nxt : α → Option (Option α)) (a : α) (l m : List α) :
    Chain nxt a (l ++ m) ↔ Segment nxt a l ∧ Chain nxt (lastCell a l) m := by
  induction l generalizing a with
  | nil => simp [Segment]
  | cons b l ih => simp only [List.cons_append, Chain, Segment, lastCell_cons, ih, and_assoc]

theorem Chain.head_link {nxt : α → Option (Option α)} {a : α} {l : List α} (h : Chain nxt a l) :
    nxt a = some l.head? := by
  cases l with
  | nil => exact h
  | cons b l => exact h.1

theorem Chain.unique {nxt : α → Option (Option α)} {a : α} {l m : List α}
    (hl : Chain nxt a l) (hm : Chain nxt a m) : l = m := by
  induction l generalizing a m with
  | nil =>
    have he := hl.head_link.symm.trans hm.head_link
    cases m with
    | nil => rfl
    | cons b m => simp at he
  | cons b l ih =>
    have he := hl.head_link.symm.trans hm.head_link
    cases m with
    | nil => simp at he
    | cons c m =>
      simp only [List.head?_cons, Option.some.injEq] at he
      subst c
      rw [ih hl.2 hm.2]

theorem Chain.start_not_mem {nxt : α → Option (Option α)} {a : α} {l : List α}
    (h : Chain nxt a l) : a ∉ l := by
  intro ha
  obtain ⟨x, y, rfl⟩ := List.append_of_mem ha
  have hy := ((chain_append nxt a (x ++ [a]) y).mp (by simpa using h)).2
  rw [lastCell_concat] at hy
  have he := congrArg List.length (h.unique hy)
  simp only [List.length_append, List.length_cons] at he
  omega

/-- A chain that ends never meets a cell twice: a second meeting would repeat for ever. -/
theorem Chain.nodup {nxt : α → Option (Option α)} {a : α} {l : List α}
    (h : Chain nxt a l) : (a :: l).Nodup := by
  induction l generalizing a with
  | nil => simp
  | cons b l ih => exact List.nodup_cons.mpr ⟨Chain.start_not_mem h, ih h.2⟩

theorem Chain.cell {nxt : α → Option (Option α)} {a c : α} {l : List α}
    (h : Chain nxt a l) (hc : c ∈ a :: l) : nxt c ≠ none := by
  induction l generalizing a with
  | nil =>
    rw [List.mem_singleton.mp hc, h.head_link]
    simp
  | cons b l ih =>
    rcases List.mem_cons.mp hc with rfl | hc
    · simp [h.head_link]
    · exact ih h.2 hc

theorem Chain.next_mem {nxt : α → Option (Option α)} {a b c : α} {l : List α}
    (h : Chain nxt a l) (hc : c ∈ a :: l) (hb : nxt c = some (some b)) : b ∈ l := by
  induction l generalizing a with
  | nil =>
    rw [List.mem_singleton.mp hc, h.head_link] at hb
    simp at hb
  | cons d l ih =>
    rcases List.mem_cons.mp hc with rfl | hc
    · rw [h.head_link] at hb
      simp only [List.head?_cons, Option.some.injEq] at hb
      rw [hb]
      exact List.mem_cons_self
    · exact List.mem_cons_of_mem d (ih h.2 hc)

theorem Chain.frame {nxt nxt' : α → Option (Option α)} {a : α} {l : List α}
    (h : Chain nxt a l) (hf : ∀ c ∈ a :: l, nxt' c = nxt c) : Chain nxt' a l := by
  induction l generalizing a with
  | nil => exact (hf a List.mem_cons_self).trans h
  | cons b l ih =>
    exact ⟨(hf a List.mem_cons_self).trans h.1, ih h.2 fun c hc => hf c (List.mem_cons_of_mem a hc)⟩

theorem Chain.map {β : Type v} {nxt : α → Option (Option α)} {nxt' : β → Option (Option β)} {f : α → β}
    {a : α} {b : β} {l : List α} (h : Chain nxt a l) (hstart : nxt' b = (nxt a).map (Option.map f))
    (hlinks : ∀ c ∈ l, nxt' (f c) = (nxt c).map (Option.map f)) : Chain nxt' b (l.map f) := by
  induction l generalizing a b with
  | nil =>
    rw [h.head_link] at hstart
    exact hstart
  | cons c l ih =>
    rw [h.head_link] at hstart
    exact ⟨hstart, ih h.2 (hlinks c List.mem_cons_self) fun d hd => hlinks d (List.mem_cons_of_mem c hd)⟩

theorem Segment.frame {nxt nxt' : α → Option (Option α)} {a : α} {l : List α}
    (h : Segment nxt a l) (hf : ∀ c ∈ (a :: l).dropLast, nxt' c = nxt c) : Segment nxt' a l := by
  induction l generalizing a with
  | nil => trivial
  | cons b l ih =>
    simp only [List.dropLast_cons_cons] at hf
    exact ⟨(hf a List.mem_cons_self).trans h.1, ih h.2 fun c hc => hf c (List.mem_cons_of_mem a hc)⟩

theorem lastCell_not_mem_dropLast {a : α} {l : List α} (h : (a :: l).Nodup) :
    lastCell a l ∉ (a :: l).dropLast := by
  rcases lastCell_cases a l with ⟨rfl, _⟩ | ⟨x, hx⟩
  · simp
  · rw [hx] at h ⊢
    rw [← List.cons_append, List.dropLast_concat, lastCell_concat]
    rw [← List.cons_append, List.nodup_append] at h
    intro hm
    exact h.2.2 _ hm _ (List.mem_singleton_self _) rfl

/-- The two assignments of a list insertion: the new cell takes over the link of
the last cell before it, and that cell is linked to the new one. -/
theorem Chain.insert {nxt nxt' : α → Option (Option α)} {a new : α} {l m : List α}
    (h : Chain nxt a (l ++ m)) (hnew : new ∉ a :: (l ++ m))
    (hn : nxt' new = nxt (lastCell a l)) (hl : nxt' (lastCell a l) = some (some new))
    (hf : ∀ c, c ≠ new → c ≠ lastCell a l → nxt' c = nxt c) :
    Chain nxt' a (l ++ new :: m) := by
  have hnd := h.nodup
  rw [← List.cons_append] at hnd hnew
  obtain ⟨hseg, hrest⟩ := (chain_append nxt a l m).mp h
  apply (chain_append nxt' a l (new :: m)).mpr
  have hsub : ∀ c ∈ (a :: l).dropLast, c ∈ a :: l := fun c hc => List.mem_of_mem_dropLast hc
  refine ⟨hseg.frame fun c hc => hf c ?_ ?_, hl, ?_⟩
  · rintro rfl
    exact hnew (List.mem_append_left m (hsub _ hc))
  · rintro rfl
    exact lastCell_not_mem_dropLast (List.nodup_append.mp hnd).1 hc
  · have htail : ∀ c ∈ m, nxt' c = nxt c := by
      intro c hc
      apply hf c
      · rintro rfl
        exact hnew (List.mem_append_right _ hc)
      · rintro rfl
        exact (List.nodup_append.mp hnd).2.2 _ (lastCell_mem a l) _ hc rfl
    cases m with
    | nil => exact hn.trans hrest
    | cons b m => exact ⟨hn.trans hrest.1, hrest.2.frame htail⟩

theorem Chain.remove {nxt nxt' : α → Option (Option α)} {a d : α} {l m : List α}
    (h : Chain nxt a (l ++ d :: m)) (hl : nxt' (lastCell a l) = nxt d)
    (hf : ∀ c, c ≠ d → c ≠ lastCell a l → nxt' c = nxt c) : Chain nxt' a (l ++ m) := by
  have hnd := h.nodup
  rw [← List.cons_append] at hnd
  obtain ⟨hnl, hnm, hdisj⟩ := List.nodup_append.mp hnd
  obtain ⟨hseg, _, hrest⟩ := (chain_append nxt a l (d :: m)).mp h
  apply (chain_append nxt' a l m).mpr
  refine ⟨hseg.frame fun c hc => hf c ?_ ?_, ?_⟩
  · rintro rfl
    exact hdisj _ (List.mem_of_mem_dropLast hc) _ List.mem_cons_self rfl
  · rintro rfl
    exact lastCell_not_mem_dropLast hnl hc
  · have htail : ∀ c ∈ m, nxt' c = nxt c := by
      intro c hc
      apply hf c
      · rintro rfl
        exact (List.nodup_cons.mp hnm).1 hc
      · rintro rfl
        exact hdisj _ (lastCell_mem a l) _ (List.mem_cons_of_mem d hc) rfl
    cases m with
    | nil => exact hl.trans hrest
    | cons b m => exact ⟨hl.trans hrest.1, hrest.2.frame htail⟩

/-! ## Loops along a chain -/

/-- `while (a->next && test(a->next)) a = a->next`, stopped after `fuel` rounds.
`none` means that a cell was missing or that the loop was still running. -/
def walkWhile (nxt : α → Option (Option α)) (test : α → Option Bool) : Nat → α → Option α
  | 0, _ => none
  | fuel + 1, a =>
    match nxt a with
    | none => none
    | some none => some a
    | some (some b) =>
      match test b with
      | none => none
      | some false => some a
      | some true => walkWhile nxt test fuel b

/-- The loop stops on the last cell of the longest passing prefix. -/
theorem walkWhile_eq {nxt : α → Option (Option α)} {test : α → Option Bool} {a : α}
    {l m : List α} {fuel : Nat} (h : Chain nxt a (l ++ m)) (hl : ∀ c ∈ l, test c = some true)
    (hm : ∀ c ∈ m.head?, test c = some false) (hfuel : l.length < fuel) :
    walkWhile nxt test fuel a = some (lastCell a l) := by
  induction l generalizing a fuel with
  | nil =>
    obtain ⟨n, rfl⟩ : ∃ n, fuel = n + 1 := ⟨fuel - 1, by simp at hfuel; omega⟩
    cases m with
    | nil => simp [walkWhile, h.head_link]
    | cons b m => simp [walkWhile, h.head_link, hm b (by simp)]
  | cons b l ih =>
    obtain ⟨n, rfl⟩ : ∃ n, fuel = n + 1 := ⟨fuel - 1, by simp at hfuel; omega⟩
    have ht := hl b List.mem_cons_self
    have hr := ih h.2 (fun c hc => hl c (List.mem_cons_of_mem b hc)) (by simpa using hfuel)
    simp [walkWhile, h.head_link, ht, hr]

/-- `while (a->next) { visit a->next; a = a->next; }`, with the cells visited. -/
def collect (nxt : α → Option (Option α)) : Nat → α → Option (List α)
  | 0, _ => none
  | fuel + 1, a => do
    let next ← nxt a
    match next with
    | none => some []
    | some b =>
      let rest ← collect nxt fuel b
      some (b :: rest)

theorem collect_eq {nxt : α → Option (Option α)} {a : α} {l : List α} {fuel : Nat}
    (h : Chain nxt a l) (hfuel : l.length < fuel) : collect nxt fuel a = some l := by
  induction l generalizing a fuel with
  | nil =>
    obtain ⟨n, rfl⟩ : ∃ n, fuel = n + 1 := ⟨fuel - 1, by simp at hfuel; omega⟩
    simp [collect, h.head_link]
  | cons b l ih =>
    obtain ⟨n, rfl⟩ : ∃ n, fuel = n + 1 := ⟨fuel - 1, by simp at hfuel; omega⟩
    simp [collect, h.head_link, ih h.2 (by simpa using hfuel)]

theorem chain_of_collect {nxt : α → Option (Option α)} {a : α} {l : List α} {fuel : Nat}
    (h : collect nxt fuel a = some l) : Chain nxt a l := by
  induction fuel generalizing a l with
  | zero => simp [collect] at h
  | succ n ih =>
    simp only [collect, Option.bind_eq_bind, Option.bind_eq_some_iff] at h
    obtain ⟨o, hn, ho⟩ := h
    cases o with
    | none =>
      cases ho
      exact hn
    | some b =>
      obtain ⟨m, hm, hb⟩ := Option.bind_eq_some_iff.mp ho
      cases hb
      exact ⟨hn, ih hm⟩

theorem Chain.length_lt {nxt : Nat → Option (Option Nat)} {a n : Nat} {l : List Nat}
    (h : Chain nxt a l) (hn : ∀ c ∈ a :: l, c < n) : l.length < n := by
  have hs : (a :: l).Subperm (List.range n) :=
    h.nodup.subperm fun c hc => List.mem_range.mpr (hn c hc)
  have hlen := hs.length_le
  simp only [List.length_cons, List.length_range] at hlen
  omega

end LinkedChain

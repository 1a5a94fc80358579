import Mathlib.Data.List.Forall2

/-!
# Programs that answer

A step takes an input and gives an answer, or the program dies of it. A run gives the
answers to all inputs, and a program that matches the steps of another gives the same.
-/

namespace Transducer

set_option autoImplicit false

universe u v w x

variable {σ : Type u} {τ : Type v} {α : Type w} {β : Type x}

/-- The answers to the inputs, if the program survives them all. -/
def run (step : σ → α → Option (σ × β)) : σ → List α → Option (σ × List β)
  | s, [] => some (s, [])
  | s, a :: as => (step s a).bind fun r => (run step r.1 as).map fun rest => (rest.1, r.2 :: rest.2)

/-- Every step of the run meets a condition on its state and input. -/
def Along (step : σ → α → Option (σ × β)) (cond : σ → α → Prop) : σ → List α → Prop
  | _, [] => True
  | s, a :: as => cond s a ∧ ∀ r ∈ step s a, Along step cond r.1 as

instance decidableAlong (step : σ → α → Option (σ × β)) (cond : σ → α → Prop) [∀ s a, Decidable (cond s a)] :
    ∀ s as, Decidable (Along step cond s as)
  | _, [] => isTrue trivial
  | s, a :: as =>
    have (r : σ × β) : Decidable (Along step cond r.1 as) := decidableAlong step cond r.1 as
    have : Decidable (∀ r ∈ step s a, Along step cond r.1 as) := (step s a).decidableForallMem
    inferInstanceAs (Decidable (cond s a ∧ ∀ r ∈ step s a, Along step cond r.1 as))

variable {step : σ → α → Option (σ × β)} {cond : σ → α → Prop} {Inv : σ → Prop} {s s' : σ} {a : α} {b : β}

theorem run_cons (h : step s a = some (s', b)) (as : List α) :
    run step s (a :: as) = (run step s' as).map fun rest => (rest.1, b :: rest.2) := by
  rw [run, h, Option.bind_some]

theorem along_cons (h : step s a = some (s', b)) (as : List α) :
    Along step cond s (a :: as) ↔ cond s a ∧ Along step cond s' as := by
  rw [Along, h]
  simp only [Option.mem_def, Option.some.injEq, forall_eq']

theorem run_uncons {as : List α} {bs : List β} (h : run step s (a :: as) = some (s', bs)) :
    ∃ s₁ b bs', step s a = some (s₁, b) ∧ run step s₁ as = some (s', bs') ∧ bs = b :: bs' := by
  rw [run, Option.bind_eq_some_iff] at h
  obtain ⟨⟨s₁, b⟩, hstep, h⟩ := h
  obtain ⟨⟨s₂, bs'⟩, hrest, he⟩ := Option.map_eq_some_iff.mp h
  cases he
  exact ⟨s₁, b, bs', hstep, hrest, rfl⟩

theorem run_split {as as' : List α} {bs : List β} (h : run step s (as ++ as') = some (s', bs)) :
    ∃ s₁ bs₁ bs₂, run step s as = some (s₁, bs₁) ∧ run step s₁ as' = some (s', bs₂) ∧ bs = bs₁ ++ bs₂ := by
  induction as generalizing s bs with
  | nil => exact ⟨s, [], bs, rfl, h, rfl⟩
  | cons a as ih =>
    obtain ⟨s₁, b, bs', hstep, hrest, rfl⟩ := run_uncons h
    obtain ⟨s₂, bs₁, bs₂, hfront, hback, rfl⟩ := ih hrest
    refine ⟨s₂, b :: bs₁, bs₂, ?_, hback, rfl⟩
    rw [run_cons hstep, hfront, Option.map_some]

theorem run_join {s₁ : σ} {as as' : List α} {bs bs' : List β} (h : run step s as = some (s₁, bs))
    (h' : run step s₁ as' = some (s', bs')) : run step s (as ++ as') = some (s', bs ++ bs') := by
  induction as generalizing s bs with
  | nil =>
    cases h
    exact h'
  | cons a as ih =>
    obtain ⟨s₂, b, bs'', hstep, hrest, rfl⟩ := run_uncons h
    rw [List.cons_append, run_cons hstep, ih hrest, Option.map_some, List.cons_append]

theorem run_length {bs : List β} {as : List α} (h : run step s as = some (s', bs)) : bs.length = as.length := by
  induction as generalizing s bs with
  | nil =>
    cases h
    rfl
  | cons a as ih =>
    obtain ⟨s₁, b, bs', _, hrest, rfl⟩ := run_uncons h
    rw [List.length_cons, List.length_cons, ih hrest]

theorem along_of_forall {as : List α} (h : ∀ a ∈ as, ∀ s, cond s a) : Along step cond s as := by
  induction as generalizing s with
  | nil => trivial
  | cons a as ih =>
    refine ⟨h a List.mem_cons_self s, fun r _ => ?_⟩
    exact ih fun a' ha' => h a' (List.mem_cons_of_mem a ha')

theorem along_and {cond' : σ → α → Prop} {as : List α} (h : Along step cond s as) (h' : Along step cond' s as) :
    Along step (fun s a => cond s a ∧ cond' s a) s as := by
  induction as generalizing s with
  | nil => trivial
  | cons a as ih => exact ⟨⟨h.1, h'.1⟩, fun r hr => ih (h.2 r hr) (h'.2 r hr)⟩

/-- What each step under the condition preserves, each run under it preserves, and what each step
gives of its answer, the run gives of all of them. -/
theorem run_answers {Good : α → β → Prop}
    (hstep : ∀ s a s' b, Inv s → cond s a → step s a = some (s', b) → Inv s' ∧ Good a b)
    (as : List α) {bs : List β} (h : Inv s) (hc : Along step cond s as) (hrun : run step s as = some (s', bs)) :
    Inv s' ∧ List.Forall₂ Good as bs := by
  induction as generalizing s bs with
  | nil =>
    cases hrun
    exact ⟨h, .nil⟩
  | cons a as ih =>
    obtain ⟨s₁, b, bs', hs, hrest, rfl⟩ := run_uncons hrun
    rw [along_cons hs] at hc
    obtain ⟨hinv, hgood⟩ := hstep s a s₁ b h hc.1 hs
    obtain ⟨hend, hall⟩ := ih hinv hc.2 hrest
    exact ⟨hend, .cons hgood hall⟩

/-- A condition that follows from another one in the states of an invariant holds all along. -/
theorem along_of_invariant {cond' : σ → α → Prop}
    (hstep : ∀ s a s' b, Inv s → cond s a → step s a = some (s', b) → Inv s')
    (hcond : ∀ s a, Inv s → cond s a → cond' s a) (as : List α) (h : Inv s) (hc : Along step cond s as) :
    Along step cond' s as := by
  induction as generalizing s with
  | nil => trivial
  | cons a as ih =>
    refine ⟨hcond s a h hc.1, fun r hr => ?_⟩
    exact ih (hstep s a r.1 r.2 h hc.1 hr) (hc.2 r hr)

/-- A program whose steps match those of another gives the same answers. -/
theorem run_simulates {step' : τ → α → Option (τ × β)} {cond : τ → α → Prop} {Rel : σ → τ → Prop}
    (hstep : ∀ s t a, Rel s t → cond t a →
      ∃ s' t' b, step s a = some (s', b) ∧ step' t a = some (t', b) ∧ Rel s' t')
    (as : List α) {t : τ} (h : Rel s t) (hc : Along step' cond t as) :
    ∃ s' t' bs, run step s as = some (s', bs) ∧ run step' t as = some (t', bs) ∧ Rel s' t' := by
  induction as generalizing s t with
  | nil => exact ⟨s, t, [], rfl, rfl, h⟩
  | cons a as ih =>
    obtain ⟨s₁, t₁, b, hs, ht, hrel⟩ := hstep s t a h hc.1
    rw [along_cons ht] at hc
    obtain ⟨s', t', bs, hs', ht', hrel'⟩ := ih hrel hc.2
    refine ⟨s', t', b :: bs, ?_, ?_, hrel'⟩
    · rw [run_cons hs, hs', Option.map_some]
    · rw [run_cons ht, ht', Option.map_some]

end Transducer

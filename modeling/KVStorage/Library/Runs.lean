import Mathlib.Tactic.TypeStar

/-!
# Runs of a transition function

A run is a list of actions. An action that is not enabled in a state is skipped, so
that every list of actions is a run; a condition on steps is asked only of the
actions that are taken.
-/

namespace Runs

set_option autoImplicit false

universe u v

variable {σ : Type u} {α : Type v}

/-- The state after an action, where a disabled action changes nothing. -/
def next (step : σ → α → Option σ) (s : σ) (a : α) : σ := (step s a).getD s

def exec (step : σ → α → Option σ) : σ → List α → σ
  | s, [] => s
  | s, a :: as => exec step (next step s a) as

/-- Every step taken meets a condition on its state and action. -/
def Along (step : σ → α → Option σ) (cond : σ → α → Prop) : σ → List α → Prop
  | _, [] => True
  | s, a :: as => ((step s a).isSome → cond s a) ∧ Along step cond (next step s a) as

instance decidableAlong (step : σ → α → Option σ) (cond : σ → α → Prop)
    [∀ s a, Decidable (cond s a)] : ∀ s as, Decidable (Along step cond s as)
  | _, [] => isTrue trivial
  | s, a :: as =>
    have := decidableAlong step cond (next step s a) as
    inferInstanceAs (Decidable (((step s a).isSome → cond s a) ∧ Along step cond (next step s a) as))

variable {step : σ → α → Option σ} {cond : σ → α → Prop} {Inv : σ → Prop} {s s' : σ} {a : α}

theorem next_eq (h : step s a = some s') : next step s a = s' := by
  rw [next, h, Option.getD_some]

theorem exec_append (s : σ) (as bs : List α) :
    exec step s (as ++ bs) = exec step (exec step s as) bs := by
  induction as generalizing s with
  | nil => rfl
  | cons a as ih => exact ih _

theorem along_append (s : σ) (as bs : List α) :
    Along step cond s (as ++ bs) ↔ Along step cond s as ∧ Along step cond (exec step s as) bs := by
  induction as generalizing s with
  | nil => simp [Along, exec]
  | cons a as ih => simp only [List.cons_append, Along, exec, ih, and_assoc]

theorem along_and_iff {cond' : σ → α → Prop} (s : σ) (as : List α) :
    Along step (fun s a => cond s a ∧ cond' s a) s as ↔ Along step cond s as ∧ Along step cond' s as := by
  induction as generalizing s with
  | nil => simp [Along]
  | cons a as ih => simp only [Along, ih, imp_and, and_and_and_comm]

theorem along_of_forall {as : List α} (h : ∀ a ∈ as, ∀ s, cond s a) (s : σ) : Along step cond s as := by
  induction as generalizing s with
  | nil => trivial
  | cons a as ih =>
    exact ⟨fun _ => h a List.mem_cons_self s, ih (fun b hb => h b (List.mem_cons_of_mem a hb)) _⟩

theorem next_invariant (hstep : ∀ s a s', Inv s → cond s a → step s a = some s' → Inv s')
    (h : Inv s) (hc : (step s a).isSome → cond s a) : Inv (next step s a) := by
  cases hs : step s a with
  | none => rwa [next, hs, Option.getD_none]
  | some s' =>
    rw [next_eq hs]
    exact hstep s a s' h (hc (by simp [hs])) hs

/-- What every step preserves under the condition, every run under it preserves. -/
theorem exec_invariant (hstep : ∀ s a s', Inv s → cond s a → step s a = some s' → Inv s')
    (as : List α) (h : Inv s) (hc : Along step cond s as) : Inv (exec step s as) := by
  induction as generalizing s with
  | nil => exact h
  | cons a as ih => exact ih (next_invariant hstep h hc.1) hc.2

/-- A run under one condition meets another that the invariant gives. -/
theorem along_invariant {cond' : σ → α → Prop}
    (hstep : ∀ s a s', Inv s → cond s a → step s a = some s' → Inv s')
    (hcond : ∀ s a, Inv s → cond s a → cond' s a) (as : List α) (h : Inv s) (hc : Along step cond s as) :
    Along step cond' s as := by
  induction as generalizing s with
  | nil => trivial
  | cons a as ih => exact ⟨fun hs => hcond s a h (hc.1 hs), ih (next_invariant hstep h hc.1) hc.2⟩

theorem exec_always (hstep : ∀ s a s', Inv s → step s a = some s' → Inv s')
    (as : List α) (h : Inv s) : Inv (exec step s as) := by
  have hrun : Along step (fun _ _ => True) s as := along_of_forall (fun _ _ _ => trivial) s
  exact exec_invariant (fun s a s' hi _ hs => hstep s a s' hi hs) as h hrun

/-- A condition is met along a run when it is met at each of its steps. -/
theorem along_iff_steps (s : σ) (as : List α) :
    Along step cond s as ↔
      ∀ bs a, bs ++ [a] <+: as → (step (exec step s bs) a).isSome → cond (exec step s bs) a := by
  constructor
  · rintro h bs a ⟨cs, rfl⟩ hs
    rw [along_append, along_append] at h
    exact h.1.2.1 hs
  · intro h
    induction as generalizing s with
    | nil => trivial
    | cons a as ih =>
      refine ⟨h [] a (by simp), ih _ ?_⟩
      intro bs b hb hs
      exact h (a :: bs) b (by simpa using hb) hs

/-- Two conditions agree along a run if they agree wherever an invariant holds that one of them keeps. -/
theorem along_congr {cond' : σ → α → Prop}
    (hkeeps : ∀ s a s', Inv s → cond s a → step s a = some s' → Inv s')
    (hiff : ∀ s a s', Inv s → step s a = some s' → (cond' s a ↔ cond s a)) (as : List α) (h : Inv s) :
    Along step cond' s as ↔ Along step cond s as := by
  induction as generalizing s with
  | nil => exact Iff.rfl
  | cons a as ih =>
    have hhead : ((step s a).isSome → cond' s a) ↔ ((step s a).isSome → cond s a) := by
      apply imp_congr_right
      intro hs
      obtain ⟨s', hs'⟩ := Option.isSome_iff_exists.mp hs
      exact hiff s a s' h hs'
    rw [Along, Along, hhead]
    apply and_congr_right
    intro hc
    exact ih (next_invariant hkeeps h hc)

/-- All states of a run are good if the first one is and every step leads to a good one. -/
theorem throughout_iff_along {Good : σ → Prop} (h : Good s) (as : List α) :
    (∀ bs, bs <+: as → Good (exec step s bs)) ↔ Along step (fun s a => Good (next step s a)) s as := by
  constructor
  · intro hgood
    rw [along_iff_steps]
    intro bs a hbs _
    have hafter := hgood (bs ++ [a]) hbs
    rwa [exec_append] at hafter
  · rintro halong bs ⟨cs, rfl⟩
    have hkeeps : ∀ s a s', Good s → Good (next step s a) → step s a = some s' → Good s' := by
      intro s a s' _ hnext hs
      rwa [next_eq hs] at hnext
    exact exec_invariant hkeeps bs h ((along_append s bs cs).mp halong).1

/-- A condition on steps that decides whether all states of a run are good: under it an invariant is
kept that makes them so, and a step from one good state to another meets it. What every step
keeps anyway is sure. -/
structure Decides (step : σ → α → Option σ) (cond : σ → α → Prop) (Sure Inv Good : σ → Prop) : Prop where
  sure : ∀ s a s', Sure s → step s a = some s' → Sure s'
  keeps : ∀ s a s', Inv s → cond s a → step s a = some s' → Inv s'
  good : ∀ s, Inv s → Good s
  needs : ∀ s a s', Sure s → Good s → step s a = some s' → Good s' → cond s a

theorem Decides.throughout_iff {Sure Good : σ → Prop} (h : Decides step cond Sure Inv Good) (hsure : Sure s)
    (hinv : Inv s) (as : List α) : (∀ bs, bs <+: as → Good (exec step s bs)) ↔ Along step cond s as := by
  rw [throughout_iff_along (h.good s hinv)]
  have hkeeps : ∀ s a s', (Sure s ∧ Inv s) → cond s a → step s a = some s' → Sure s' ∧ Inv s' := by
    rintro s a s' ⟨hsure, hinv⟩ hc hs
    exact ⟨h.sure s a s' hsure hs, h.keeps s a s' hinv hc hs⟩
  apply along_congr hkeeps ?_ as ⟨hsure, hinv⟩
  rintro s a s' ⟨hsure, hinv⟩ hs
  rw [next_eq hs]
  exact ⟨h.needs s a s' hsure (h.good s hinv) hs, fun hc => h.good s' (h.keeps s a s' hinv hc hs)⟩

end Runs

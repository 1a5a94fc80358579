import KVStorage.Library.Runs
import Mathlib.Order.Basic

/-!
# Runs that come to an end

Some actions are those of the system itself, the others come from outside. From a state
that settles, the system comes to rest whatever it does first.
-/

namespace Runs

set_option autoImplicit false

universe u v

variable {σ : Type u} {α : Type v} {step : σ → α → Option σ} {own : α → Prop}

/-- The system can do nothing by itself. -/
def Stuck (step : σ → α → Option σ) (own : α → Prop) (s : σ) : Prop := ∀ a, own a → step s a = none

/-- Every run of the system by itself ends, and in a good state. -/
inductive Settles (step : σ → α → Option σ) (own : α → Prop) (Good : σ → Prop) : σ → Prop where
  | intro {s : σ} (stuck : Stuck step own s → Good s)
      (next : ∀ a s', own a → step s a = some s' → Settles step own Good s') : Settles step own Good s

variable {Inv Good : σ → Prop} {s : σ}

/-- Under an invariant each step lowers the rank, and only good states are stuck. -/
theorem Settles.of_rank (rank : σ → Nat)
    (hstep : ∀ s a s', Inv s → own a → step s a = some s' → Inv s' ∧ rank s' < rank s)
    (hgood : ∀ s, Inv s → Stuck step own s → Good s) (h : Inv s) : Settles step own Good s := by
  induction hr : rank s using Nat.strongRecOn generalizing s with
  | ind r ih =>
    refine .intro (hgood s h) fun a s' ha hs => ?_
    obtain ⟨hinv, hlt⟩ := hstep s a s' h ha hs
    exact ih (rank s') (hr ▸ hlt) hinv rfl

/-- A system that keeps an invariant of bad states does not settle in a good one. -/
theorem Settles.not_of_invariant (Inv : σ → Prop) (hstep : ∀ s a s', Inv s → own a → step s a = some s' → Inv s')
    (hbad : ∀ s, Inv s → ¬Good s) (h : Inv s) : ¬Settles step own Good s := by
  intro hs
  induction hs with
  | @intro s hstuck hnext ih =>
    by_cases hs : Stuck step own s
    · exact hbad s h (hstuck hs)
    · simp only [Stuck, not_forall] at hs
      obtain ⟨a, ha, hne⟩ := hs
      obtain ⟨s', hs'⟩ := Option.ne_none_iff_exists'.mp hne
      exact ih a s' ha hs' (hstep s a s' h ha hs')

end Runs

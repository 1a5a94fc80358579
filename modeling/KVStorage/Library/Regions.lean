import Mathlib.Data.List.Basic
import Mathlib.Tactic.Common

/-!
# Data at a place of a list

A list seen as the contents of a file: what lies at a position, what a change of one
region leaves alone, and that data outside the region stays where it is.
-/

namespace Regions

set_option autoImplicit false

universe u

variable {α : Type u}

/-- `data` lies in the list from position `pos` on. -/
def HasAt (file : List α) (pos : Nat) (data : List α) : Prop := data <+: file.drop pos

/-- Outside the `len` positions from `pos` on, what was there is there still. -/
def Changes (file file' : List α) (pos len : Nat) : Prop :=
  ∀ i, i < pos ∨ pos + len ≤ i → i < file.length → file'[i]? = file[i]?

variable {file file' file'' data data' : List α} {pos pos' len len' : Nat}

theorem hasAt_iff : HasAt file pos data ↔ ∀ i (h : i < data.length), file[pos + i]? = some data[i] := by
  simp only [HasAt, List.prefix_iff_getElem?, List.getElem?_drop]

theorem HasAt.length_le (h : HasAt file pos data) : data.length ≤ file.length - pos := by
  have hle := List.IsPrefix.length_le h
  rwa [List.length_drop] at hle

theorem HasAt.drop_eq (h : HasAt file pos data) : ∃ rest, file.drop pos = data ++ rest := by
  obtain ⟨rest, hrest⟩ := h
  exact ⟨rest, hrest.symm⟩

theorem HasAt.left (h : HasAt file pos (data ++ data')) : HasAt file pos data :=
  (List.prefix_append data data').trans h

theorem HasAt.right (h : HasAt file pos (data ++ data')) : HasAt file (pos + data.length) data' := by
  obtain ⟨rest, hrest⟩ := h.drop_eq
  refine ⟨rest, ?_⟩
  rw [← List.drop_drop, hrest, List.append_assoc, List.drop_left]

theorem Changes.length_ge (h : Changes file file' pos len) (i : Nat) (hi : i < pos ∨ pos + len ≤ i)
    (hlt : i < file.length) : i < file'.length := by
  have hsame := h i hi hlt
  rw [List.getElem?_eq_getElem hlt] at hsame
  exact (List.getElem?_eq_some_iff.mp hsame).1

theorem Changes.trans (h : Changes file file' pos len) (h' : Changes file' file'' pos len) :
    Changes file file'' pos len := by
  intro i hi hlt
  rw [h' i hi (h.length_ge i hi hlt), h i hi hlt]

theorem Changes.mono (h : Changes file file' pos len) (hpos : pos' ≤ pos) (hend : pos + len ≤ pos' + len') :
    Changes file file' pos' len' := by
  intro i hi
  apply h i
  omega

/-- Data that lies clear of the changed region stays. -/
theorem Changes.hasAt (h : Changes file file' pos len) (hdata : HasAt file pos' data)
    (hclear : pos' + data.length ≤ pos ∨ pos + len ≤ pos') : HasAt file' pos' data := by
  rw [hasAt_iff] at hdata ⊢
  intro i hi
  have hold := hdata i hi
  have hlt : pos' + i < file.length := (List.getElem?_eq_some_iff.mp hold).1
  rw [h (pos' + i) (by omega) hlt, hold]

end Regions

import Mathlib.Order.Lattice
import Mathlib.Data.List.Basic
import Mathlib.Data.List.Pairwise
import Mathlib.Data.List.Nodup
import Mathlib.Algebra.Order.Ring.Nat

/-!
# Finite maps as strictly ascending association lists

The order of the entries is part of the value: it is the order in which an
ordered container is walked. Equality of maps is equality of lookups.
-/

set_option autoImplicit false

universe u v w

/-- A finite map from a linear order, listed in ascending key order. -/
structure SortedMap (κ : Type u) (β : Type v) [LinearOrder κ] where
  entries : List (κ × β)
  sorted : entries.Pairwise fun a b => a.1 < b.1

namespace SortedMap

variable {κ : Type u} {β : Type v} {γ : Type w} [LinearOrder κ]

instance [DecidableEq β] : DecidableEq (SortedMap κ β) := fun m n =>
  decidable_of_iff (m.entries = n.entries) ⟨fun h => by cases m; cases n; simp_all, fun h => h ▸ rfl⟩

def empty : SortedMap κ β := ⟨[], .nil⟩

def keys (m : SortedMap κ β) : List κ := m.entries.map Prod.fst

def lookup (m : SortedMap κ β) (k : κ) : Option β :=
  (m.entries.find? fun e => e.1 = k).map Prod.snd

def insert (m : SortedMap κ β) (k : κ) (v : β) : SortedMap κ β where
  entries := m.entries.filter (fun e => e.1 < k) ++ (k, v) :: m.entries.filter (fun e => k < e.1)
  sorted := by
    refine List.pairwise_append.mpr ⟨m.sorted.filter _, ?_, ?_⟩
    · refine List.pairwise_cons.mpr ⟨fun e he => ?_, m.sorted.filter _⟩
      simpa using (List.mem_filter.mp he).2
    · intro a ha b hb
      have hak : a.1 < k := by simpa using (List.mem_filter.mp ha).2
      rcases List.mem_cons.mp hb with rfl | hb
      · exact hak
      · exact hak.trans (by simpa using (List.mem_filter.mp hb).2)

def erase (m : SortedMap κ β) (k : κ) : SortedMap κ β :=
  ⟨m.entries.filter (fun e => e.1 ≠ k), m.sorted.filter _⟩

/-- `for (e : l) m[e.first] = e.second`. -/
def insertAll (m : SortedMap κ β) (l : List (κ × β)) : SortedMap κ β :=
  l.foldl (fun m e => m.insert e.1 e.2) m

def mapValues (f : β → γ) (m : SortedMap κ β) : SortedMap κ γ :=
  ⟨m.entries.map fun e => (e.1, f e.2), List.pairwise_map.mpr m.sorted⟩

theorem keys_sorted (m : SortedMap κ β) : m.keys.Pairwise (· < ·) :=
  List.pairwise_map.mpr m.sorted

theorem keys_nodup (m : SortedMap κ β) : m.keys.Nodup := m.keys_sorted.imp fun h => h.ne

theorem key_unique (m : SortedMap κ β) {e e' : κ × β} (he : e ∈ m.entries) (he' : e' ∈ m.entries)
    (hk : e.1 = e'.1) : e = e' :=
  List.inj_on_of_nodup_map m.keys_nodup he he' hk

theorem lookup_eq_some_iff (m : SortedMap κ β) (k : κ) (v : β) :
    m.lookup k = some v ↔ (k, v) ∈ m.entries := by
  constructor
  · intro h
    obtain ⟨e, he, rfl⟩ := Option.map_eq_some_iff.mp h
    have hk : e.1 = k := by simpa using List.find?_some he
    subst k
    exact List.mem_of_find?_eq_some he
  · intro h
    cases hf : m.entries.find? fun e => e.1 = k with
    | none => simpa using List.find?_eq_none.mp hf _ h
    | some e =>
      have hk : e.1 = k := by simpa using List.find?_some hf
      have he := m.key_unique (List.mem_of_find?_eq_some hf) h hk
      subst e
      simp only [lookup, hf, Option.map_some]

theorem lookup_eq_none_iff (m : SortedMap κ β) (k : κ) : m.lookup k = none ↔ k ∉ m.keys := by
  rw [Option.eq_none_iff_forall_ne_some]
  simp only [ne_eq, lookup_eq_some_iff, keys, List.mem_map, Prod.exists, exists_and_right,
    exists_eq_right, not_exists]

theorem mem_keys_iff (m : SortedMap κ β) (k : κ) : k ∈ m.keys ↔ ∃ v, m.lookup k = some v := by
  rw [← Option.ne_none_iff_exists', ne_eq, lookup_eq_none_iff, not_not]

theorem ext_lookup {m n : SortedMap κ β} (h : ∀ k, m.lookup k = n.lookup k) : m = n := by
  have hmem : ∀ e, e ∈ m.entries ↔ e ∈ n.entries := by
    rintro ⟨k, v⟩
    rw [← lookup_eq_some_iff, ← lookup_eq_some_iff, h]
  have hirr : ∀ {l : List (κ × β)}, l.Pairwise (fun a b => a.1 < b.1) → l.Nodup :=
    fun hl => hl.imp fun hab heq => absurd (congrArg Prod.fst heq) hab.ne
  have hperm := (List.perm_ext_iff_of_nodup (hirr m.sorted) (hirr n.sorted)).mpr hmem
  have he : m.entries = n.entries :=
    hperm.eq_of_pairwise (fun a b _ _ hab hba => absurd (hab.trans hba) (lt_irrefl _)) m.sorted n.sorted
  cases m
  cases n
  simp_all

@[simp] theorem keys_empty : (empty : SortedMap κ β).keys = [] := rfl

@[simp] theorem lookup_empty (k : κ) : (empty : SortedMap κ β).lookup k = none := rfl

theorem lookup_insert (m : SortedMap κ β) (k k' : κ) (v : β) :
    (m.insert k v).lookup k' = if k' = k then some v else m.lookup k' := by
  refine Option.ext fun w => ?_
  rw [lookup_eq_some_iff]
  simp only [insert, List.mem_append, List.mem_cons, List.mem_filter, decide_eq_true_eq,
    Prod.mk.injEq]
  split
  · rename_i hk
    subst k'
    simp [eq_comm]
  · rename_i hk
    rw [lookup_eq_some_iff]
    constructor
    · rintro (⟨h, _⟩ | ⟨rfl, _⟩ | ⟨h, _⟩)
      · exact h
      · exact absurd rfl hk
      · exact h
    · intro h
      rcases lt_or_gt_of_ne hk with hlt | hgt
      · exact Or.inl ⟨h, hlt⟩
      · exact Or.inr (Or.inr ⟨h, hgt⟩)

@[simp] theorem lookup_insert_self (m : SortedMap κ β) (k : κ) (v : β) :
    (m.insert k v).lookup k = some v := by simp [lookup_insert]

theorem lookup_insert_ne (m : SortedMap κ β) {k k' : κ} (v : β) (h : k' ≠ k) :
    (m.insert k v).lookup k' = m.lookup k' := by simp [lookup_insert, h]

theorem lookup_erase (m : SortedMap κ β) (k k' : κ) :
    (m.erase k).lookup k' = if k' = k then none else m.lookup k' := by
  refine Option.ext fun w => ?_
  rw [lookup_eq_some_iff]
  simp only [erase, List.mem_filter, ne_eq, decide_not, Bool.not_eq_eq_eq_not, Bool.not_true,
    decide_eq_false_iff_not]
  split
  · rename_i hk
    simp [hk]
  · rename_i hk
    rw [lookup_eq_some_iff]
    exact and_iff_left hk

theorem lookup_mapValues (f : β → γ) (m : SortedMap κ β) (k : κ) :
    (m.mapValues f).lookup k = (m.lookup k).map f := by
  simp only [lookup, mapValues, List.find?_map, Option.map_map]
  rfl

@[simp] theorem keys_mapValues (f : β → γ) (m : SortedMap κ β) : (m.mapValues f).keys = m.keys := by
  simp [keys, mapValues, List.map_map, Function.comp_def]

theorem mem_keys_insert (m : SortedMap κ β) (k k' : κ) (v : β) :
    k' ∈ (m.insert k v).keys ↔ k' = k ∨ k' ∈ m.keys := by
  rw [mem_keys_iff, mem_keys_iff, lookup_insert]
  by_cases h : k' = k <;> simp [h]

theorem lookup_insertAll (m : SortedMap κ β) {l : List (κ × β)} (hl : (l.map Prod.fst).Nodup) (k : κ) :
    (m.insertAll l).lookup k = ((l.find? fun e => e.1 = k).map Prod.snd).or (m.lookup k) := by
  induction l generalizing m with
  | nil => rfl
  | cons e l ih =>
    simp only [List.map_cons, List.nodup_cons] at hl
    have hstep : m.insertAll (e :: l) = (m.insert e.1 e.2).insertAll l := rfl
    rw [hstep, ih _ hl.2, lookup_insert]
    by_cases hk : e.1 = k
    · have hnone : (l.find? fun e => e.1 = k) = none := by
        apply List.find?_eq_none.mpr
        intro e' he' hk'
        apply hl.1
        rw [hk, ← of_decide_eq_true hk']
        exact List.mem_map_of_mem he'
      simp [hk, hnone]
    · have hk' : ¬k = e.1 := fun h => hk h.symm
      simp [hk, hk']

theorem insertAll_entries (m : SortedMap κ β) : empty.insertAll m.entries = m := by
  apply ext_lookup
  intro k
  rw [lookup_insertAll _ m.keys_nodup, lookup_empty, Option.or_none]
  rfl

theorem insertAll_mem (m : SortedMap κ β) {l : List (κ × β)} (hl : (l.map Prod.fst).Nodup) (k : κ) (v : β) :
    (m.insertAll l).lookup k = some v ↔ (k, v) ∈ l ∨ k ∉ l.map Prod.fst ∧ m.lookup k = some v := by
  induction l generalizing m with
  | nil => simp [insertAll]
  | cons e l ih =>
    simp only [List.map_cons, List.nodup_cons] at hl
    have hstep : m.insertAll (e :: l) = (m.insert e.1 e.2).insertAll l := rfl
    rw [hstep, ih _ hl.2, lookup_insert]
    by_cases hk : k = e.1
    · have hnot : ∀ w, (e.1, w) ∉ l := fun w hw => hl.1 (List.mem_map.mpr ⟨_, hw, rfl⟩)
      subst hk
      simp [hnot, hl.1, Prod.ext_iff, eq_comm]
    · have hne : ¬(k, v) = e := fun he => hk (congrArg Prod.fst he)
      simp [hk, hne]

theorem insertAll_perm (m : SortedMap κ β) {l : List (κ × β)} (hl : l.Perm m.entries) :
    empty.insertAll l = m := by
  have hnodup : (l.map Prod.fst).Nodup := (hl.map Prod.fst).nodup_iff.mpr m.keys_nodup
  apply ext_lookup
  intro k
  apply Option.ext
  intro v
  have hmem := empty.insertAll_mem hnodup k v
  rw [lookup_empty] at hmem
  rw [lookup_eq_some_iff m, ← hl.mem_iff]
  simpa using hmem

/-! ## Insertion and removal at a known place -/

theorem filter_lt_append {l m : List (κ × β)} {k : κ} (hl : ∀ e ∈ l, e.1 < k)
    (hm : ∀ e ∈ m, k ≤ e.1) : (l ++ m).filter (fun e => e.1 < k) = l := by
  have hls : l.filter (fun e => e.1 < k) = l :=
    List.filter_eq_self.mpr fun e he => decide_eq_true (hl e he)
  have hms : m.filter (fun e => e.1 < k) = [] :=
    List.filter_eq_nil_iff.mpr fun e he => by simpa using hm e he
  rw [List.filter_append, hls, hms, List.append_nil]

theorem filter_gt_append {l m : List (κ × β)} {k : κ} (hl : ∀ e ∈ l, e.1 ≤ k)
    (hm : ∀ e ∈ m, k < e.1) : (l ++ m).filter (fun e => k < e.1) = m := by
  have hms : m.filter (fun e => k < e.1) = m :=
    List.filter_eq_self.mpr fun e he => decide_eq_true (hm e he)
  have hls : l.filter (fun e => k < e.1) = [] :=
    List.filter_eq_nil_iff.mpr fun e he => by simpa using hl e he
  rw [List.filter_append, hls, hms, List.nil_append]

theorem insert_entries (m : SortedMap κ β) (k : κ) (v : β) : (m.insert k v).entries =
    m.entries.filter (fun e => e.1 < k) ++ (k, v) :: m.entries.filter (fun e => k < e.1) := rfl

theorem insert_entries_new {m : SortedMap κ β} {l r : List (κ × β)} {k : κ} (v : β)
    (h : m.entries = l ++ r) (hl : ∀ e ∈ l, e.1 < k) (hr : ∀ e ∈ r, k < e.1) :
    (m.insert k v).entries = l ++ (k, v) :: r := by
  rw [insert_entries, h, filter_lt_append hl fun e he => (hr e he).le,
    filter_gt_append (fun e he => (hl e he).le) hr]

theorem insert_entries_old {m : SortedMap κ β} {l r : List (κ × β)} {k : κ} (v w : β)
    (h : m.entries = l ++ (k, w) :: r) (hl : ∀ e ∈ l, e.1 < k) (hr : ∀ e ∈ r, k < e.1) :
    (m.insert k v).entries = l ++ (k, v) :: r := by
  have hr' : ∀ e ∈ (k, w) :: r, k ≤ e.1 := by
    intro e he
    rcases List.mem_cons.mp he with rfl | he
    · exact le_rfl
    · exact (hr e he).le
  have hl' : ∀ e ∈ l ++ [(k, w)], e.1 ≤ k := by
    intro e he
    rcases List.mem_append.mp he with he | he
    · exact (hl e he).le
    · rw [List.mem_singleton.mp he]
  have hgt := filter_gt_append hl' hr
  rw [List.append_assoc, List.singleton_append] at hgt
  rw [insert_entries, h, filter_lt_append hl hr', hgt]

theorem erase_entries {m : SortedMap κ β} {l r : List (κ × β)} {k : κ} (w : β)
    (h : m.entries = l ++ (k, w) :: r) : (m.erase k).entries = l ++ r := by
  have hs := m.sorted
  rw [h, List.pairwise_append, List.pairwise_cons] at hs
  obtain ⟨_, ⟨hr, _⟩, hl⟩ := hs
  have hl' : ∀ e ∈ l, e.1 ≠ k := fun e he => (hl e he (k, w) List.mem_cons_self).ne
  have hr' : ∀ e ∈ r, e.1 ≠ k := fun e he => (hr e he).ne'
  change m.entries.filter (fun e => e.1 ≠ k) = l ++ r
  rw [h]
  simp only [List.filter_append, List.filter_cons, ne_eq, decide_not, decide_true, Bool.not_true,
    Bool.false_eq_true, if_false]
  rw [List.filter_eq_self.mpr (by simpa using hl'), List.filter_eq_self.mpr (by simpa using hr')]

/-! ## Totals -/

/-- The sum of a measure over the values. -/
def total (f : β → Nat) (m : SortedMap κ β) : Nat := (m.entries.map fun e => f e.2).sum

@[simp] theorem total_empty (f : β → Nat) : (empty : SortedMap κ β).total f = 0 := rfl

theorem sum_split (f : β → Nat) (es : List (κ × β)) (k : κ) :
    (es.map fun e => f e.2).sum =
      ((es.filter fun e => e.1 < k).map fun e => f e.2).sum +
        ((es.filter fun e => e.1 = k).map fun e => f e.2).sum +
          ((es.filter fun e => k < e.1).map fun e => f e.2).sum := by
  induction es with
  | nil => rfl
  | cons e es ih =>
    rcases lt_trichotomy e.1 k with h | h | h
    · simp [h, h.ne, h.not_gt, ih]
      omega
    · simp [h, ih]
      omega
    · simp [h, h.ne', h.not_gt, ih]
      omega

theorem filter_key (m : SortedMap κ β) (k : κ) :
    m.entries.filter (fun e => e.1 = k) = ((m.lookup k).map fun v => (k, v)).toList := by
  cases h : m.lookup k with
  | none =>
    apply List.filter_eq_nil_iff.mpr
    intro e he hk
    rw [lookup_eq_none_iff] at h
    exact h (List.mem_map.mpr ⟨e, he, of_decide_eq_true hk⟩)
  | some v =>
    obtain ⟨l, r, hs⟩ := List.append_of_mem ((m.lookup_eq_some_iff k v).mp h)
    have hp := m.sorted
    rw [hs, List.pairwise_append, List.pairwise_cons] at hp
    have hl : l.filter (fun e => e.1 = k) = [] := by
      apply List.filter_eq_nil_iff.mpr
      intro e he hk
      exact (hp.2.2 e he (k, v) List.mem_cons_self).ne (of_decide_eq_true hk)
    have hr : r.filter (fun e => e.1 = k) = [] := by
      apply List.filter_eq_nil_iff.mpr
      intro e he hk
      exact (hp.2.1.1 e he).ne' (of_decide_eq_true hk)
    simp [hs, hl, hr]

theorem total_insert (f : β → Nat) (m : SortedMap κ β) (k : κ) (v : β) :
    (m.insert k v).total f + ((m.lookup k).map f).getD 0 = m.total f + f v := by
  have h := sum_split f m.entries k
  rw [filter_key] at h
  unfold total
  rw [h, insert_entries, List.map_append, List.map_cons, List.sum_append, List.sum_cons]
  cases m.lookup k with
  | none =>
    simp only [Option.map_none, Option.toList_none, List.map_nil, List.sum_nil, Option.getD_none]
    omega
  | some w =>
    simp only [Option.map_some, Option.toList_some, List.map_cons, List.map_nil, List.sum_cons,
      List.sum_nil, Option.getD_some]
    omega

theorem filter_ne_split (es : List (κ × β)) (k : κ) (f : β → Nat) :
    ((es.filter fun e => e.1 ≠ k).map fun e => f e.2).sum +
      ((es.filter fun e => e.1 = k).map fun e => f e.2).sum = (es.map fun e => f e.2).sum := by
  induction es with
  | nil => rfl
  | cons e es ih =>
    by_cases h : e.1 = k
    · simp [h] at ih ⊢
      omega
    · simp [h] at ih ⊢
      omega

theorem total_erase (f : β → Nat) (m : SortedMap κ β) (k : κ) :
    (m.erase k).total f + ((m.lookup k).map f).getD 0 = m.total f := by
  have h := filter_ne_split m.entries k f
  rw [filter_key] at h
  unfold total
  rw [← h]
  cases m.lookup k with
  | none => rfl
  | some w => simp [erase]

theorem total_one (m : SortedMap κ β) : m.total (fun _ => 1) = m.keys.length := by
  rw [total, List.map_const', List.sum_replicate_nat, keys, List.length_map, Nat.mul_one]

theorem length_insert_new {m : SortedMap κ β} {k : κ} (h : m.lookup k = none) (v : β) :
    (m.insert k v).keys.length = m.keys.length + 1 := by
  have htotal := m.total_insert (fun _ => 1) k v
  rwa [h, total_one, total_one] at htotal

theorem length_erase_old {m : SortedMap κ β} {k : κ} {v : β} (h : m.lookup k = some v) :
    (m.erase k).keys.length + 1 = m.keys.length := by
  have htotal := m.total_erase (fun _ => 1) k
  rwa [h, total_one, total_one] at htotal

end SortedMap

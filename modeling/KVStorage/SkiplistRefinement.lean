import KVStorage.SkiplistSpec
import KVStorage.Library.SortedMap

/-!
# The skip list implements a finite map

`Holds` ties a list to the ordered map of its nodes. Every operation keeps the
tie, whatever the coin flips; forgetting capacities leaves a plain map from keys
to character strings.
-/

namespace KVStorage

set_option autoImplicit false

open LinkedChain

/-- The nodes of a list, in key order. -/
abbrev Contents := SortedMap Int32 CppString

namespace Contents

/-- The string a node holds after `add`, which assigns to an existing node. -/
def stored (m : Contents) (key : Int32) (value : Bytes) : CppString :=
  match m.lookup key with
  | none => CppString.ofBytes value
  | some old => old.assign (CppString.ofBytes value)

def add (m : Contents) (key : Int32) (value : Bytes) : Contents := m.insert key (m.stored key value)

/-- The change of accounted size `add` returns. -/
def addSize (m : Contents) (key : Int32) (value : Bytes) : SizeT :=
  match m.lookup key with
  | none => Skiplist.nodeSize (CppString.ofBytes value).capacity
  | some old => UInt64.ofNat (CppString.ofBytes value).capacity - UInt64.ofNat old.capacity

/-- The answer of `search`. -/
def search (m : Contents) (key : Int32) : Bytes := ((m.lookup key).map (·.data)).getD []

@[simp] theorem stored_data (m : Contents) (key : Int32) (value : Bytes) :
    (m.stored key value).data = value := by
  unfold stored
  split <;> simp

end Contents

namespace Skiplist

variable {sl : Skiplist} {ts : List Tower} {m : Contents}

/-- The list is intact and the nodes of its towers are the entries of the map. -/
structure HoldsAs (sl : Skiplist) (ts : List Tower) (m : Contents) : Prop where
  represents : sl.Represents ts
  entries : m.entries = ts.map fun t => (t.key, t.value)

def Holds (sl : Skiplist) (m : Contents) : Prop := ∃ ts, sl.HoldsAs ts m

theorem HoldsAs.lookup_mem (h : sl.HoldsAs ts m) {t : Tower} (ht : t ∈ ts) :
    m.lookup t.key = some t.value := by
  rw [SortedMap.lookup_eq_some_iff, h.entries]
  exact List.mem_map_of_mem (f := fun t : Tower => (t.key, t.value)) ht

theorem HoldsAs.lookup_absent (h : sl.HoldsAs ts m) {k : Int32} (hk : ∀ t ∈ ts, t.key ≠ k) :
    m.lookup k = none := by
  rw [SortedMap.lookup_eq_none_iff, SortedMap.keys, h.entries, List.map_map, List.mem_map]
  rintro ⟨t, ht, rfl⟩
  exact hk t ht rfl

theorem HoldsAs.unreserved (h : sl.HoldsAs ts m) (h₁ : m.lookup (-1) = none) (h₂ : m.lookup (-2) = none) :
    ∀ t ∈ ts, t.key ≠ -1 ∧ t.key ≠ -2 := by
  intro t ht
  have hlook := h.lookup_mem ht
  constructor
  · intro hk
    simp [hk, h₁] at hlook
  · intro hk
    simp [hk, h₂] at hlook

theorem key_cases (h : sl.Represents ts) (k : Int32) :
    (∃ l t r, ts = l ++ t :: r ∧ t.key = k) ∨
      ∃ l r, ts = l ++ r ∧ (∀ u ∈ l, u.key < k) ∧ (∀ u ∈ r, k < u.key) ∧ ∀ u ∈ ts, u.key ≠ k := by
  by_cases hk : ∃ t ∈ ts, t.key = k
  · obtain ⟨t, ht, hkey⟩ := hk
    obtain ⟨l, r, rfl⟩ := List.append_of_mem ht
    exact Or.inl ⟨l, t, r, rfl, hkey⟩
  · obtain ⟨l, r, rfl, hl, hr⟩ := exists_split h.sorted k
    have hne : ∀ u ∈ l ++ r, u.key ≠ k := fun u hu he => hk ⟨u, hu, he⟩
    exact Or.inr ⟨l, r, rfl, hl, fun u hu =>
      lt_of_le_of_ne (hr u hu) (hne u (List.mem_append_right l hu)).symm, hne⟩

theorem new_holdsAs : new.HoldsAs [] SortedMap.empty := ⟨new_represents, rfl⟩

theorem HoldsAs.search (h : sl.HoldsAs ts m) (k : Int32) : sl.search k = some (m.search k) := by
  rw [search_eq h.represents]
  unfold Contents.search
  rcases key_cases h.represents k with ⟨l, t, r, rfl, rfl⟩ | ⟨l, r, rfl, _, _, hne⟩
  · have ht : t ∈ l ++ t :: r := List.mem_append_right l List.mem_cons_self
    rw [h.lookup_mem ht, valueIn_of_mem h.represents.sorted ht]
    rfl
  · rw [h.lookup_absent hne, valueIn_of_not_mem hne]
    rfl

theorem forall_entries {P : Int32 → Prop} (h : ∀ u ∈ ts, P u.key) :
    ∀ e ∈ ts.map fun t => (t.key, t.value), P e.1 := by
  intro e he
  obtain ⟨u, hu, rfl⟩ := List.mem_map.mp he
  exact h u hu

variable {l r : List Tower} {t : Tower}

theorem HoldsAs.update (h : sl.HoldsAs (l ++ t :: r) m) (value : Bytes) (flips : Fin level → Bool) :
    ∃ sl' ts', sl.add t.key value flips = some (sl', m.addSize t.key value) ∧
      sl'.HoldsAs ts' (m.add t.key value) ∧ (∀ u ∈ ts', ∃ v ∈ l ++ t :: r, u.height = v.height) ∧
      (sl.NoLeak (l ++ t :: r) → sl'.NoLeak ts') := by
  have he := h.entries
  have hlook := h.lookup_mem (List.mem_append_right l List.mem_cons_self)
  obtain ⟨hlt, hgt⟩ := sorted_split h.represents.sorted
  obtain ⟨sl', hadd, hrep', hhead, hlive⟩ := add_old h.represents value flips
  refine ⟨sl', _, ?_, ⟨hrep', ?_⟩, ?_, ?_⟩
  · rw [hadd, Contents.addSize, hlook]
  · rw [List.map_append, List.map_cons] at he ⊢
    have hbefore := forall_entries (P := fun key => key < t.key) hlt
    have hafter := forall_entries (P := fun key => t.key < key) hgt
    rw [Contents.add, Contents.stored, hlook, SortedMap.insert_entries_old _ _ he hbefore hafter]
  · intro u hu
    rcases List.mem_append.mp hu with hu | hu
    · exact ⟨u, List.mem_append_left _ hu, rfl⟩
    · rcases List.mem_cons.mp hu with rfl | hu
      · exact ⟨t, List.mem_append_right l List.mem_cons_self, rfl⟩
      · exact ⟨u, List.mem_append_right l (List.mem_cons_of_mem t hu), rfl⟩
  · intro hleak a ha
    rcases hleak a (hlive a ha) with hah | hat
    · exact Or.inl (hah.trans hhead.symm)
    · exact Or.inr (by simpa using hat)

theorem HoldsAs.insert (h : sl.HoldsAs (l ++ r) m) {k : Int32} (hl : ∀ u ∈ l, u.key < k)
    (hr : ∀ u ∈ r, k < u.key) (hne : ∀ u ∈ l ++ r, u.key ≠ k) (value : Bytes) (flips : Fin level → Bool) :
    ∃ sl' ts', sl.add k value flips = some (sl', m.addSize k value) ∧
      sl'.HoldsAs ts' (m.add k value) ∧
      (∀ u ∈ ts', u.height = towerHeight flips ∨ ∃ v ∈ l ++ r, u.height = v.height) ∧
      (sl.NoLeak (l ++ r) → sl'.NoLeak ts') := by
  have he := h.entries
  have hlook := h.lookup_absent hne
  obtain ⟨sl', hadd, hrep', hhead, hlive⟩ := add_new h.represents hl hr value flips
  refine ⟨sl', _, ?_, ⟨hrep', ?_⟩, ?_, ?_⟩
  · rw [hadd, Contents.addSize, hlook]
  · rw [List.map_append] at he
    have hbefore := forall_entries (P := fun key => key < k) hl
    have hafter := forall_entries (P := fun key => k < key) hr
    rw [List.map_append, List.map_cons, Contents.add, Contents.stored, hlook,
      SortedMap.insert_entries_new _ he hbefore hafter]
  · intro u hu
    rcases List.mem_append.mp hu with hu | hu
    · exact Or.inr ⟨u, List.mem_append_left r hu, rfl⟩
    · rcases List.mem_cons.mp hu with rfl | hu
      · exact Or.inl rfl
      · exact Or.inr ⟨u, List.mem_append_right l hu, rfl⟩
  · intro hleak a ha
    rcases hlive a ha with hat | ha
    · exact Or.inr (by simp [hat])
    · rcases hleak a ha with hah | hat
      · exact Or.inl (hah.trans hhead.symm)
      · refine Or.inr ?_
        rw [List.map_append, List.map_cons, List.mem_append, List.mem_cons]
        rw [List.map_append, List.mem_append] at hat
        exact hat.imp_right Or.inr

/-- `add` acts on the map, gives a new node the height the coin flips say, changes
no other height, and leaks nothing. -/
theorem HoldsAs.add (h : sl.HoldsAs ts m) (k : Int32) (value : Bytes) (flips : Fin level → Bool) :
    ∃ sl' ts', sl.add k value flips = some (sl', m.addSize k value) ∧
      sl'.HoldsAs ts' (m.add k value) ∧
      (∀ t ∈ ts', t.height = towerHeight flips ∨ ∃ u ∈ ts, t.height = u.height) ∧
      (sl.NoLeak ts → sl'.NoLeak ts') := by
  rcases key_cases h.represents k with ⟨l, t, r, rfl, rfl⟩ | ⟨l, r, rfl, hl, hr, hne⟩
  · obtain ⟨sl', ts', hadd, hholds, hheights, hleak⟩ := h.update value flips
    exact ⟨sl', ts', hadd, hholds, fun u hu => Or.inr (hheights u hu), hleak⟩
  · exact h.insert hl hr hne value flips

theorem HoldsAs.erase (h : sl.HoldsAs ts m) (k : Int32) :
    ∃ sl' ts', sl.erase k = some (sl', (m.lookup k).map fun s => nodeSize s.capacity) ∧
      sl'.HoldsAs ts' (m.erase k) ∧ (∀ t ∈ ts', t ∈ ts) ∧ (sl.NoLeak ts → sl'.NoLeak ts') := by
  have he := h.entries
  rcases key_cases h.represents k with ⟨l, t, r, rfl, rfl⟩ | ⟨l, r, rfl, hl, hr, hne⟩
  · have hlook := h.lookup_mem (List.mem_append_right l List.mem_cons_self)
    obtain ⟨sl', herase, hrep', hhead, hlive⟩ := erase_old h.represents
    refine ⟨sl', _, ?_, ⟨hrep', ?_⟩, ?_, ?_⟩
    · rw [herase, hlook]
      rfl
    · rw [List.map_append, List.map_cons] at he
      rw [SortedMap.erase_entries _ he, List.map_append]
    · exact fun u hu => mem_of_mem_others hu
    · intro hleak a ha
      obtain ⟨hat, ha⟩ := hlive a ha
      rcases hleak a ha with hah | hm
      · exact Or.inl (hah.trans hhead.symm)
      · refine Or.inr ?_
        rw [List.map_append, List.map_cons, List.mem_append, List.mem_cons] at hm
        rw [List.map_append, List.mem_append]
        exact hm.imp_right fun hm => hm.resolve_left hat
  · have hlook := h.lookup_absent hne
    refine ⟨sl, l ++ r, ?_, ⟨h.represents, ?_⟩, fun t ht => ht, fun hleak => hleak⟩
    · rw [erase_absent h.represents hne, hlook]
      rfl
    · have hsame : m.erase k = m := by
        apply SortedMap.ext_lookup
        intro k'
        rw [SortedMap.lookup_erase]
        split
        · rename_i hk
          rw [hk, hlook]
        · rfl
      rw [hsame, he]

theorem HoldsAs.clear (h : sl.HoldsAs ts m) :
    ∃ sl', sl.clear = some sl' ∧ sl'.HoldsAs [] SortedMap.empty ∧ (sl.NoLeak ts → sl'.NoLeak []) := by
  obtain ⟨sl', hclear, hrep', _, hleak⟩ := clear_eq h.represents
  exact ⟨sl', hclear, ⟨hrep', rfl⟩, hleak⟩

/-- The keys met on level `i`, from the head to null. -/
def chainKeys (sl : Skiplist) (i : Fin level) : Option (List Int32) := do
  let as ← collect (sl.heap.next i) sl.fuel sl.head
  as.mapM sl.heap.key

theorem mapM_total {α β : Type} {f : α → Option β} {g : α → β} {l : List α}
    (h : ∀ a ∈ l, f a = some (g a)) : l.mapM f = some (l.map g) := by
  induction l with
  | nil => rfl
  | cons a l ih =>
    have hl := ih fun b hb => h b (List.mem_cons_of_mem a hb)
    simp only [List.mapM_cons, h a List.mem_cons_self, hl]
    rfl

theorem mapM_towers {γ : Type} {f : Addr → Option γ} {g : Tower → γ} {us : List Tower}
    (h : ∀ u ∈ us, f u.addr = some (g u)) : (us.map (·.addr)).mapM f = some (us.map g) := by
  rw [List.mapM_map]
  exact mapM_total h

theorem Represents.chainKeys (h : sl.Represents ts) (i : Fin level) :
    sl.chainKeys i = some ((ts.filter fun t => i.val < t.height).map (·.key)) := by
  have hlen := h.level_length i
  unfold Skiplist.chainKeys
  rw [collect_eq (h.chain i) (by unfold fuel; omega)]
  exact mapM_towers fun u hu => Heap.key_of_data (h.node_data u (List.mem_filter.mp hu).1)

theorem HoldsAs.chainKeys_bottom (h : sl.HoldsAs ts m) : sl.chainKeys bottom = some m.keys := by
  rw [h.represents.chainKeys, SortedMap.keys, h.entries, List.map_map, List.filter_eq_self.mpr]
  · rfl
  · intro t ht
    exact decide_eq_true (h.represents.linked t ht)

end Skiplist

/-! ## Runs against a plain map -/

/-- A call on the list, with the coin flips an `add` meets. -/
inductive ListOp where
  | add (key : Int32) (value : Bytes) (flips : Fin level → Bool)
  | erase (key : Int32)
  | clear
  | search (key : Int32)

/-- What the caller sees of a call. -/
inductive ListAnswer where
  | done
  | erased (found : Bool)
  | value (data : Bytes)

namespace Skiplist

def apply (sl : Skiplist) : ListOp → Option (Skiplist × ListAnswer)
  | .add key value flips => do
    let (sl, _) ← sl.add key value flips
    some (sl, .done)
  | .erase key => do
    let (sl, size) ← sl.erase key
    some (sl, .erased size.isSome)
  | .clear => do
    let sl ← sl.clear
    some (sl, .done)
  | .search key => do
    let data ← sl.search key
    some (sl, .value data)

def run (sl : Skiplist) : List ListOp → Option (Skiplist × List ListAnswer)
  | [] => some (sl, [])
  | op :: ops => do
    let (sl, answer) ← sl.apply op
    let (sl, answers) ← sl.run ops
    some (sl, answer :: answers)

end Skiplist

/-- The purpose of the list: a map that knows nothing of coin flips. -/
def mapApply (m : Int32 → Option Bytes) : ListOp → (Int32 → Option Bytes) × ListAnswer
  | .add key value _ => (Function.update m key (some value), .done)
  | .erase key => (Function.update m key none, .erased (m key).isSome)
  | .clear => (fun _ => none, .done)
  | .search key => (m, .value ((m key).getD []))

def mapRun (m : Int32 → Option Bytes) : List ListOp → (Int32 → Option Bytes) × List ListAnswer
  | [] => (m, [])
  | op :: ops =>
    let (m, answer) := mapApply m op
    let (m, answers) := mapRun m ops
    (m, answer :: answers)

/-- The same call without its coin flips. -/
def ListOp.forgetFlips : ListOp → ListOp
  | .add key value _ => .add key value fun _ => false
  | op => op

namespace Skiplist

/-- The characters an ordered map of strings holds for a key. -/
def plain (m : Contents) (k : Int32) : Option Bytes := (m.lookup k).map (·.data)

theorem plain_add (m : Contents) (k : Int32) (value : Bytes) :
    plain (m.add k value) = Function.update (plain m) k (some value) := by
  funext k'
  unfold plain Contents.add
  rw [SortedMap.lookup_insert, Function.update_apply]
  split <;> simp

theorem plain_erase (m : Contents) (k : Int32) :
    plain (m.erase k) = Function.update (plain m) k none := by
  funext k'
  unfold plain
  rw [SortedMap.lookup_erase, Function.update_apply]
  split <;> simp

theorem apply_refines {sl : Skiplist} {ts : List Tower} {m : Contents} (h : sl.HoldsAs ts m)
    (op : ListOp) :
    ∃ sl' ts' m', sl.apply op = some (sl', (mapApply (plain m) op).2) ∧ sl'.HoldsAs ts' m' ∧
      plain m' = (mapApply (plain m) op).1 ∧ (sl.NoLeak ts → sl'.NoLeak ts') := by
  cases op with
  | add key value flips =>
    obtain ⟨sl', ts', hadd, hholds, _, hleak⟩ := h.add key value flips
    exact ⟨sl', ts', _, by simp [apply, hadd, mapApply], hholds, plain_add m key value, hleak⟩
  | erase key =>
    obtain ⟨sl', ts', herase, hholds, _, hleak⟩ := h.erase key
    refine ⟨sl', ts', _, ?_, hholds, plain_erase m key, hleak⟩
    simp [apply, herase, mapApply, plain]
  | clear =>
    obtain ⟨sl', hclear, hholds, hleak⟩ := h.clear
    refine ⟨sl', [], _, by simp [apply, hclear, mapApply], hholds, ?_, hleak⟩
    funext k
    rfl
  | search key =>
    refine ⟨sl, ts, m, ?_, h, rfl, fun hleak => hleak⟩
    simp [apply, h.search key, mapApply, plain, Contents.search]

theorem run_refines {sl : Skiplist} {ts : List Tower} {m : Contents} (h : sl.HoldsAs ts m)
    (ops : List ListOp) :
    ∃ sl' ts' m', sl.run ops = some (sl', (mapRun (plain m) ops).2) ∧ sl'.HoldsAs ts' m' ∧
      plain m' = (mapRun (plain m) ops).1 ∧ (sl.NoLeak ts → sl'.NoLeak ts') := by
  induction ops generalizing sl ts m with
  | nil => exact ⟨sl, ts, m, rfl, h, rfl, fun hleak => hleak⟩
  | cons op ops ih =>
    obtain ⟨sl₁, ts₁, m₁, happly, hholds, hplain, hleak⟩ := apply_refines h op
    obtain ⟨sl', ts', m', hrun, hholds', hplain', hleak'⟩ := ih hholds
    refine ⟨sl', ts', m', ?_, hholds', ?_, fun hl => hleak' (hleak hl)⟩
    · simp [run, happly, hrun, mapRun, hplain]
    · simp [mapRun, hplain', hplain]

theorem plain_empty : plain SortedMap.empty = fun _ => none := by
  funext k
  rfl

theorem run_new (ops : List ListOp) :
    ∃ sl ts m, new.run ops = some (sl, (mapRun (fun _ => none) ops).2) ∧ sl.HoldsAs ts m ∧
      plain m = (mapRun (fun _ => none) ops).1 ∧ sl.NoLeak ts := by
  obtain ⟨sl, ts, m, hrun, hholds, hplain, hleak⟩ := run_refines new_holdsAs ops
  rw [plain_empty] at hrun hplain
  exact ⟨sl, ts, m, hrun, hholds, hplain, hleak new_noLeak⟩

theorem mapRun_forgetFlips (m : Int32 → Option Bytes) (ops : List ListOp) :
    mapRun m (ops.map ListOp.forgetFlips) = mapRun m ops := by
  induction ops generalizing m with
  | nil => rfl
  | cons op ops ih =>
    have hop : mapApply m op.forgetFlips = mapApply m op := by cases op <;> rfl
    simp only [List.map_cons, mapRun, hop, ih]

/-- From the empty list, every sequence of calls is answered as by a plain map,
each key of the map has exactly one node, and the answers do not depend on the
coin flips. -/
theorem run_new_refines_map (ops : List ListOp) :
    (∃ sl ks, new.run ops = some (sl, (mapRun (fun _ => none) ops).2) ∧
      sl.chainKeys bottom = some ks ∧ ks.Pairwise (· < ·) ∧
      ∀ k, k ∈ ks ↔ ((mapRun (fun _ => none) ops).1 k).isSome) ∧
    ∀ ops', ops'.map ListOp.forgetFlips = ops.map ListOp.forgetFlips →
      (new.run ops').map Prod.snd = (new.run ops).map Prod.snd := by
  refine ⟨?_, ?_⟩
  · obtain ⟨sl, ts, m, hrun, hholds, hplain, _⟩ := run_new ops
    refine ⟨sl, m.keys, hrun, hholds.chainKeys_bottom, m.keys_sorted, ?_⟩
    intro k
    rw [← hplain, SortedMap.mem_keys_iff, plain, Option.isSome_map, Option.isSome_iff_exists]
  · intro ops' hops
    obtain ⟨sl, ts, m, hrun, _⟩ := run_new ops
    obtain ⟨sl', ts', m', hrun', _⟩ := run_new ops'
    rw [hrun, hrun', ← mapRun_forgetFlips _ ops, ← mapRun_forgetFlips _ ops', hops]
    rfl

end Skiplist

end KVStorage

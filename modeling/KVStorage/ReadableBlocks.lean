import KVStorage.BlockExtent

/-!
# Which written blocks parse

The generated code only logs a string that is not UTF-8 when it serializes it, but
refuses the whole message when it parses it.
-/

namespace KVStorage

set_option autoImplicit false

/-- `ParseFromArray` on the bytes of a serialized message: the strings are checked, and
a message that passes is the one that was serialized. -/
def parseFromArray (written : List NodeProto) : Option (List NodeProto) :=
  if written.all fun r => ValidUtf8 r.value then some written else none

theorem parseFromArray_eq_some_iff {written : List NodeProto} :
    parseFromArray written = some written ↔ ∀ r ∈ written, ValidUtf8 r.value := by
  simp [parseFromArray]

namespace Skiplist

variable {sl : Skiplist} {ts : List Tower} {m : Contents}

/-- `deserialize` of a block: a message that does not parse leaves the list as it is. -/
def deserialize (sl : Skiplist) (written : List NodeProto) : Option (Skiplist × SizeT) :=
  match parseFromArray written with
  | none => some (sl, 0)
  | some nodes => sl.rebuild nodes

theorem towerProtos_values (ts : List Tower) :
    (towerProtos ts).map (·.value) = ts.map fun t => t.value.data := by
  induction ts with
  | nil => rfl
  | cons t ts ih => rw [towerProtos, List.map_cons, ih, List.map_cons]

theorem HoldsAs.toProto_values (h : sl.HoldsAs ts m) :
    ∃ nodes, sl.toProto = some nodes ∧
      nodes.map (·.value) = [] :: m.entries.map fun e => e.2.data := by
  refine ⟨_, h.represents.toProto, ?_⟩
  rw [protoOf, List.map_cons, towerProtos_values, h.entries, List.map_map]
  rfl

end Skiplist

/-- Every value is UTF-8. -/
def Contents.Readable (m : Contents) : Prop := ∀ e ∈ m.entries, ValidUtf8 e.2.data

instance decidableReadable (m : Contents) : Decidable m.Readable :=
  List.decidableBAll _ m.entries

namespace ValidList

/-- The message written for the list is accepted. -/
def Accepted (l : ValidList) : Prop :=
  ∃ nodes, l.list.toProto = some nodes ∧ parseFromArray nodes = some nodes

theorem parse_iff (l : ValidList) :
    ∃ nodes, l.list.toProto = some nodes ∧
      (parseFromArray nodes = some nodes ↔ l.contents.Readable) := by
  obtain ⟨ts, h⟩ := l.holds
  obtain ⟨nodes, hproto, hvalues⟩ := h.toProto_values
  refine ⟨nodes, hproto, ?_⟩
  rw [parseFromArray_eq_some_iff, ← List.forall_mem_map (P := ValidUtf8), hvalues,
    List.forall_mem_cons, List.forall_mem_map]
  exact and_iff_right validUtf8_nil

theorem accepted_iff (l : ValidList) : l.Accepted ↔ l.contents.Readable := by
  obtain ⟨nodes, hproto, hparse⟩ := l.parse_iff
  constructor
  · rintro ⟨nodes', hproto', hparse'⟩
    rw [hproto, Option.some.injEq] at hproto'
    rw [← hproto'] at hparse'
    exact hparse.mp hparse'
  · intro h
    exact ⟨nodes, hproto, hparse.mpr h⟩

/-- A single value that is not UTF-8 loses the whole block. -/
theorem not_readable_lost (l : ValidList) (h : ¬l.contents.Readable) :
    ∃ nodes, l.list.toProto = some nodes ∧
      ∀ target : Skiplist, target.deserialize nodes = some (target, 0) := by
  obtain ⟨nodes, hproto, hparse⟩ := l.parse_iff
  refine ⟨nodes, hproto, ?_⟩
  intro target
  have hrejected : parseFromArray nodes = none := by
    unfold parseFromArray
    apply if_neg
    intro hall
    apply h
    apply hparse.mp
    rw [parseFromArray, if_pos hall]
  rw [Skiplist.deserialize, hrejected]

end ValidList

namespace WriteSide

/-- For every sequence of calls, all blocks written parse for all coin flips exactly
when every value in the cache is UTF-8 at every flush. -/
theorem writes_accepted_iff (fi : FileInfo) (ops : List CacheOp) :
    (∀ coins, ∀ w ∈ ((start fi).run coins ops).2, w.list.Accepted) ↔
      ∀ m ∈ flushedContents fi ops, m.Readable := by
  constructor
  · intro h m hm
    obtain ⟨w, hw, rfl⟩ := List.mem_map.mp hm
    exact w.list.accepted_iff.mp (h _ w hw)
  · intro h coins w hw
    apply w.list.accepted_iff.mpr
    exact h _ (contents_mem_flushed fi coins ops hw)

/-- A value of one byte that starts no character, another key, and the flush. -/
def oneBadByte : List CacheOp := [.put 1 [255], .put 2 [97], .flush]

theorem oneBadByte_flushes :
    ((start (FileInfo.new [])).run (fun _ _ => true) oneBadByte).2 ≠ [] := by
  intro h
  exact absurd (congrArg List.isEmpty h) (by decide +kernel)

/-- The block that holds them does not parse, and loading it finds neither key. -/
theorem bad_byte_loses_block :
    ∃ w ∈ ((start (FileInfo.new [])).run (fun _ _ => true) oneBadByte).2, ¬w.list.Accepted ∧
      (w.list.contents.lookup 2).map (·.data) = some [97] ∧
      ∃ nodes sl size, w.list.list.toProto = some nodes ∧
        Skiplist.new.deserialize nodes = some (sl, size) ∧ sl.search 2 = some [] := by
  have hbad : ¬(((start (FileInfo.new [])).run (fun _ _ => true) oneBadByte).2.head
      oneBadByte_flushes).list.contents.Readable := by decide +kernel
  obtain ⟨nodes, hproto, hlost⟩ := ValidList.not_readable_lost _ hbad
  refine ⟨_, List.head_mem oneBadByte_flushes, fun h => hbad ((ValidList.accepted_iff _).mp h), ?_, nodes,
    Skiplist.new, 0, hproto, hlost Skiplist.new, ?_⟩
  · decide +kernel
  · decide +kernel

end WriteSide

end KVStorage

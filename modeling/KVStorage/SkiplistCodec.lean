import KVStorage.SkiplistRefinement

/-!
# The block codec: list to message and back

`serialize` writes one record per node of level 0, the head first, with the key
of each next node in place of its pointer. `deserialize` allocates the nodes of
the records and turns the keys back into pointers through `nodeMap`.
-/

namespace KVStorage

set_option autoImplicit false

open LinkedChain

/-- `proto::Node`. -/
structure NodeProto where
  key : Int32
  value : Bytes
  next : List Int32

namespace Skiplist

/-- The entry `add_next` gets for one level; -2 stands for null. -/
def nextEntry (h : Heap) (p : Addr) (i : Fin level) : Option Int32 := do
  let next ← h.next i p
  match next with
  | none => some (-2)
  | some q => h.key q

def nodeProto (h : Heap) (p : Addr) : Option NodeProto := do
  let n ← h p
  let next ← (List.finRange level).mapM (nextEntry h p)
  some ⟨n.key, n.value.data, next⟩

/-- `while (p) { ...; p = p->next[0]; }`. -/
def nodeProtos : Nat → Option Addr → Heap → Option (List NodeProto)
  | _, none, _ => some []
  | 0, some _, _ => none
  | fuel + 1, some p, h => do
    let record ← nodeProto h p
    let next ← h.next bottom p
    let rest ← nodeProtos fuel next h
    some (record :: rest)

/-- The `proto::Skiplist` message `serialize` builds. -/
def toProto (sl : Skiplist) : Option (List NodeProto) := nodeProtos sl.fuel (some sl.head) sl.heap

/-- `map<int, Node*>`; an absent key and a null pointer read alike. -/
abbrev NodeMap := Int32 → Option Addr

/-- The first loop of `deserialize`. -/
def createNodes : List NodeProto → Skiplist → NodeMap → SizeT → Skiplist × NodeMap × SizeT
  | [], sl, nodeMap, totalSize => (sl, nodeMap, totalSize)
  | r :: rs, sl, nodeMap, totalSize =>
    -- the parsed string is assigned to an empty one, which fixes its capacity
    let parsed := CppString.empty.assign (CppString.ofBytes r.value)
    createNodes rs (sl.newNode r.key r.value).1
      (Function.update nodeMap r.key (some (sl.newNode r.key r.value).2))
      (totalSize + nodeSize parsed.capacity)

/-- The links of records that carry the head's key are also given to the head. -/
def setHeadLink (head : Addr) (key : Int32) (i : Fin level) (next : Option Addr) (h : Heap) :
    Option Heap :=
  if key = -1 then h.setNext head i next else some h

/-- The inner loop of the second loop, from level `i`; `next[i]` at or beyond
`level` is outside the vector. -/
def setLinks (nodeMap : NodeMap) (head : Addr) (key : Int32) (node : Addr) :
    Nat → List Int32 → Heap → Option Heap
  | _, [], h => some h
  | i, nextKey :: rest, h =>
    if nextKey = -2 then setLinks nodeMap head key node (i + 1) rest h
    else if hi : i < level then do
      let h ← setHeadLink head key ⟨i, hi⟩ (nodeMap nextKey) h
      let h ← h.setNext node ⟨i, hi⟩ (nodeMap nextKey)
      setLinks nodeMap head key node (i + 1) rest h
    else none

/-- The second loop of `deserialize`. -/
def linkNodes (nodeMap : NodeMap) (head : Addr) : List NodeProto → Heap → Option Heap
  | [], h => some h
  | r :: rs, h => do
    let node ← nodeMap r.key
    let h ← setLinks nodeMap head r.key node 0 r.next h
    linkNodes nodeMap head rs h

/-- `slprint`: nothing is printed, but every level is walked to its end. -/
def slprint (sl : Skiplist) : Option Unit :=
  (List.finRange level).forM fun i => (collect (sl.heap.next i) sl.fuel sl.head).map fun _ => ()

/-- `deserialize` from a parsed message, with the size it returns. It writes outside a
vector, or never returns, where this is none. -/
def rebuild (sl : Skiplist) (nodes : List NodeProto) : Option (Skiplist × SizeT) := do
  let sl ← sl.clear
  let created := createNodes nodes sl (fun _ => none) 0
  let h ← linkNodes created.2.1 sl.head nodes created.1.heap
  let sl := { created.1 with heap := h }
  sl.slprint
  some (sl, created.2.2)

def items (sl : Skiplist) : Option (List (Int32 × Bytes)) := do
  let ps ← collect (sl.heap.next bottom) sl.fuel sl.head
  ps.mapM fun p => (sl.heap p).map fun n => (n.key, n.value.data)

/-- The list rebuilt into an empty one has the same nodes, on every level the same
chain of keys, and answers every search alike. -/
def RoundTrips (sl : Skiplist) : Prop :=
  ∃ nodes sl' size, sl.toProto = some nodes ∧ new.rebuild nodes = some (sl', size) ∧
    (∃ kvs, sl.items = some kvs ∧ sl'.items = some kvs) ∧
    (∀ i, ∃ ks, sl.chainKeys i = some ks ∧ sl'.chainKeys i = some ks) ∧
    ∀ target, ∃ value, sl.search target = some value ∧ sl'.search target = some value

/-! ## The message of a list of towers -/

/-- The entry written on level `i` in front of the towers `ts`. -/
def firstKey (ts : List Tower) (i : Fin level) : Int32 :=
  ((ts.find? fun t => i.val < t.height).map (·.key)).getD (-2)

def towerProtos : List Tower → List NodeProto
  | [] => []
  | t :: ts =>
    ⟨t.key, t.value.data,
      (List.finRange level).map fun i => if i.val < t.height then firstKey ts i else -2⟩ ::
        towerProtos ts

def protoOf (ts : List Tower) : List NodeProto :=
  ⟨-1, [], (List.finRange level).map (firstKey ts)⟩ :: towerProtos ts

theorem levelAddrs_head? (ts : List Tower) (i : Fin level) :
    (levelAddrs ts i).head? = (ts.find? fun t => i.val < t.height).map (·.addr) := by
  rw [levelAddrs, List.head?_map, List.head?_filter]

variable {sl : Skiplist} {ts : List Tower}

theorem forM_eq_some_iff {α : Type} {f : α → Option Unit} {l : List α} :
    l.forM f = some () ↔ ∀ a ∈ l, f a = some () := by
  induction l with
  | nil => simp
  | cons a l ih =>
    rw [List.forM_eq_forM] at ih
    rw [List.forM_eq_forM, List.forM_cons, Option.bind_eq_bind, Option.bind_eq_some_iff,
      List.forall_mem_cons, ← ih]
    exact ⟨fun ⟨(), ha, hl⟩ => ⟨ha, hl⟩, fun ⟨ha, hl⟩ => ⟨(), ha, hl⟩⟩

/-- The walks end exactly where no level runs in a circle. -/
theorem slprint_iff (hbelow : ∀ a, sl.heap a ≠ none → a < sl.top) :
    sl.slprint = some () ↔ ∀ i, ∃ as, Chain (sl.heap.next i) sl.head as := by
  unfold slprint
  rw [forM_eq_some_iff]
  constructor
  · intro h i
    obtain ⟨as, has, _⟩ := Option.map_eq_some_iff.mp (h i (List.mem_finRange i))
    exact ⟨as, chain_of_collect has⟩
  · intro h i _
    obtain ⟨as, hc⟩ := h i
    have hlen : as.length < sl.top := hc.length_lt fun a ha =>
      hbelow a fun hn => hc.cell ha ((Heap.next_eq_none_iff _ _ _).mpr hn)
    rw [collect_eq hc (by unfold fuel; omega), Option.map_some]

theorem Represents.slprint (h : sl.Represents ts) : sl.slprint = some () :=
  (slprint_iff h.below).mpr fun i => ⟨_, h.chain i⟩

theorem nextEntry_eq (h : sl.Represents ts) {us : List Tower} (hu : ∀ u ∈ us, u ∈ ts) {p : Addr}
    {i : Fin level} (hp : sl.heap.next i p = some (levelAddrs us i).head?) :
    nextEntry sl.heap p i = some (firstKey us i) := by
  unfold nextEntry firstKey
  rw [hp, levelAddrs_head?]
  cases hf : us.find? fun t => i.val < t.height with
  | none => rfl
  | some u =>
    have hm := hu u (List.mem_of_find?_eq_some hf)
    simp [Heap.key_of_data (h.node_data u hm)]

theorem nodeProto_eq {p : Addr} {key : Int32} {value : CppString} {entry : Fin level → Int32}
    (hd : sl.heap.data p = some (key, value))
    (hn : ∀ i, nextEntry sl.heap p i = some (entry i)) :
    nodeProto sl.heap p = some ⟨key, value.data, (List.finRange level).map entry⟩ := by
  obtain ⟨n, hp, he⟩ := Option.map_eq_some_iff.mp hd
  simp only [Prod.mk.injEq] at he
  unfold nodeProto
  simp [hp, mapM_total (fun i _ => hn i), he.1, he.2]

theorem nodeProtos_eq (h : sl.Represents ts) (us : List Tower) (fuel : Nat)
    (hu : ∃ l, ts = l ++ us) (hfuel : us.length ≤ fuel) :
    nodeProtos fuel (us.head?.map (·.addr)) sl.heap = some (towerProtos us) := by
  induction us generalizing fuel with
  | nil => cases fuel <;> rfl
  | cons u us ih =>
    obtain ⟨l, rfl⟩ := hu
    obtain ⟨n, rfl⟩ : ∃ n, fuel = n + 1 := ⟨fuel - 1, by simp at hfuel; omega⟩
    have hm : u ∈ l ++ u :: us := List.mem_append_right l List.mem_cons_self
    have hsub : ∀ v ∈ us, v ∈ l ++ u :: us := fun v hv =>
      List.mem_append_right l (List.mem_cons_of_mem u hv)
    -- the link of a tower on each of its levels
    have hlink : ∀ i : Fin level, i.val < u.height →
        sl.heap.next i u.addr = some (levelAddrs us i).head? := by
      intro i hi
      have hc := h.chain i
      rw [levelAddrs_append, levelAddrs_cons_pos hi] at hc
      exact (((chain_append _ _ _ _).mp hc).2.2).head_link
    have hentry : ∀ i : Fin level, nextEntry sl.heap u.addr i =
        some (if i.val < u.height then firstKey us i else -2) := by
      intro i
      by_cases hi : i.val < u.height
      · rw [if_pos hi, nextEntry_eq h hsub (hlink i hi)]
      · rw [if_neg hi, nextEntry, h.unlinked u hm i (not_lt.mp hi)]
        rfl
    have hnext : sl.heap.next bottom u.addr = some (us.head?.map (·.addr)) := by
      rw [hlink bottom (h.linked u hm), levelAddrs_bottom fun v hv => h.linked v (hsub v hv),
        List.head?_map]
    have hrest := ih n ⟨l ++ [u], by simp⟩ (by simpa using hfuel)
    simp only [List.head?_cons, Option.map_some, nodeProtos, nodeProto_eq (h.node_data u hm) hentry,
      hnext, hrest, Option.bind_eq_bind, Option.bind_some, towerProtos]

theorem Represents.toProto (h : sl.Represents ts) : sl.toProto = some (protoOf ts) := by
  have hlen := h.level_length bottom
  rw [levelAddrs_bottom h.linked, List.length_map] at hlen
  have hentry : ∀ i, nextEntry sl.heap sl.head i = some (firstKey ts i) := fun i =>
    nextEntry_eq h (fun u hu => hu) (h.chain i).head_link
  have hnext : sl.heap.next bottom sl.head = some (ts.head?.map (·.addr)) := by
    rw [(h.chain bottom).head_link, levelAddrs_bottom h.linked, List.head?_map]
  have hrest := nodeProtos_eq h ts sl.top ⟨[], rfl⟩ (by omega)
  unfold Skiplist.toProto fuel
  simp only [nodeProtos, nodeProto_eq h.head_data hentry, hnext, hrest, Option.bind_eq_bind,
    Option.bind_some, protoOf]
  rfl

end Skiplist

end KVStorage

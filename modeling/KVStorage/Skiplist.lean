import KVStorage.Global
import KVStorage.Library.LinkedChain
import Mathlib.Data.List.FinRange

/-!
# The skip list on its heap of nodes

Pointers are addresses, `nullptr` is `none`, and an operation answers `none` when
it dereferences a pointer to no node or when one of its loops does not end.
-/

namespace KVStorage

set_option autoImplicit false

open LinkedChain

def level : Nat := 8

abbrev Addr := Nat

structure Node where
  key : Int32
  value : CppString
  next : Fin level → Option Addr

abbrev Heap := Addr → Option Node

namespace Heap

/-- `a->next[i]`, for every node `a`. -/
def next (h : Heap) (i : Fin level) (a : Addr) : Option (Option Addr) := (h a).map (·.next i)

/-- The part of a node that no loop over levels touches. -/
def data (h : Heap) (a : Addr) : Option (Int32 × CppString) := (h a).map fun n => (n.key, n.value)

def key (h : Heap) (a : Addr) : Option Int32 := (h a).map (·.key)

/-- `a->next[i] = x`. -/
def setNext (h : Heap) (a : Addr) (i : Fin level) (x : Option Addr) : Option Heap :=
  (h a).map fun n => Function.update h a (some { n with next := Function.update n.next i x })

/-- `a->value = v`, by copy assignment. -/
def setValue (h : Heap) (a : Addr) (v : CppString) : Option Heap :=
  (h a).map fun n => Function.update h a (some { n with value := n.value.assign v })

/-- `delete a`. -/
def free (h : Heap) (a : Addr) : Option Heap := (h a).map fun _ => Function.update h a none

end Heap

/-- A skip list with the heap its nodes live in; `top` is the address the next
`new` returns, so that addresses are never handed out twice. -/
structure Skiplist where
  head : Addr
  heap : Heap
  top : Addr

namespace Skiplist

/-- `new Node(key, value)`. -/
def newNode (sl : Skiplist) (key : Int32) (value : Bytes) : Skiplist × Addr :=
  ({ sl with
      heap := Function.update sl.heap sl.top (some ⟨key, CppString.ofBytes value, fun _ => none⟩)
      top := sl.top + 1 }, sl.top)

/-- The constructor: the head node carries key -1. -/
def new : Skiplist where
  head := 0
  heap := Function.update (fun _ => none) 0 (some ⟨-1, CppString.empty, fun _ => none⟩)
  top := 1

/-- More rounds than any chain through allocated nodes can take. -/
def fuel (sl : Skiplist) : Nat := sl.top + 1

/-- The inner loop of `find` on level `i`, started from `p`. -/
def walk (sl : Skiplist) (i : Fin level) (target : Int32) (p : Addr) : Option Addr :=
  walkWhile (sl.heap.next i) (fun q => (sl.heap.key q).map fun k => k < target) sl.fuel p

/-- The levels below `n` of the descent in `find`, continued from `p`. -/
def findBelow (sl : Skiplist) (target : Int32) :
    (n : Nat) → n ≤ level → Addr → (Fin level → Addr) → Option (Fin level → Addr)
  | 0, _, _, pre => some pre
  | n + 1, hn, p, pre => do
    let q ← sl.walk ⟨n, hn⟩ target p
    findBelow sl target n (Nat.le_of_succ_le hn) q (Function.update pre ⟨n, hn⟩ q)

/-- `find`: the last node before `target` on every level. -/
def find (sl : Skiplist) (target : Int32) : Option (Fin level → Addr) :=
  sl.findBelow target level le_rfl sl.head fun _ => sl.head

def bottom : Fin level := ⟨0, by decide⟩

def search (sl : Skiplist) (target : Int32) : Option Bytes := do
  let pre ← sl.find target
  let next ← sl.heap.next bottom (pre bottom)
  match next with
  | none => some []
  | some p => do
    let n ← sl.heap p
    some (if n.key = target then n.value.data else [])

/-- `sizeof(int) + capacity + sizeof(Node*) * level`. -/
def nodeSize (capacity : Nat) : SizeT := 4 + UInt64.ofNat capacity + 8 * UInt64.ofNat level

/-- The insertion loop of `add`, from level 0 upwards; `flips i` is `rand() % 2`
on level `i` and stops the loop after that level. -/
def link (node : Addr) (pre : Fin level → Addr) (flips : Fin level → Bool) :
    List (Fin level) → Heap → Option Heap
  | [], h => some h
  | i :: is, h => do
    let after ← h.next i (pre i)
    let h ← h.setNext node i after
    let h ← h.setNext (pre i) i (some node)
    if flips i then some h else link node pre flips is h

/-- `add`, with the change of accounted size it returns. -/
def add (sl : Skiplist) (num : Int32) (value : Bytes) (flips : Fin level → Bool) :
    Option (Skiplist × SizeT) := do
  let argument := CppString.ofBytes value
  let (sl, node) := sl.newNode num value
  let pre ← sl.find num
  let next ← sl.heap.next bottom (pre bottom)
  let insertNew : Option (Skiplist × SizeT) := do
    let h ← link node pre flips (List.finRange level) sl.heap
    some ({ sl with heap := h }, nodeSize argument.capacity)
  match next with
  | none => insertNew
  | some p => do
    let n ← sl.heap p
    if n.key = num then
      let h ← sl.heap.setValue p argument
      let h ← h.free node
      some ({ sl with heap := h },
        UInt64.ofNat argument.capacity - UInt64.ofNat n.value.capacity)
    else insertNew

/-- The unlinking loop of `erase`: it stops at the first level not holding `p`. -/
def unlink (p : Addr) (pre : Fin level → Addr) : List (Fin level) → Heap → Option Heap
  | [], h => some h
  | i :: is, h => do
    let next ← h.next i (pre i)
    if next = some p then
      let after ← h.next i p
      let h ← h.setNext (pre i) i after
      unlink p pre is h
    else some h

/-- `erase`: the answer `none` inside stands for `false`, and the size is the
`nodeSize` reported with `true`. -/
def erase (sl : Skiplist) (num : Int32) : Option (Skiplist × Option SizeT) := do
  let pre ← sl.find num
  let next ← sl.heap.next bottom (pre bottom)
  match next with
  | none => some (sl, none)
  | some p => do
    let n ← sl.heap p
    if n.key ≠ num then some (sl, none)
    else
      let h ← unlink p pre (List.finRange level) sl.heap
      let h ← h.free p
      some ({ sl with heap := h }, some (nodeSize n.value.capacity))

/-- `while (p) { nextNode = p->next[0]; delete p; p = nextNode; }`. -/
def freeFrom : Nat → Option Addr → Heap → Option Heap
  | _, none, h => some h
  | 0, some _, _ => none
  | fuel + 1, some p, h => do
    let nextNode ← h.next bottom p
    let h ← h.free p
    freeFrom fuel nextNode h

/-- `head->next.assign(level, nullptr)`. -/
def resetHead (head : Addr) (h : Heap) : Option Heap :=
  (h head).map fun n => Function.update h head (some { n with next := fun _ => none })

/-- The body of the destructor, which keeps the head node. -/
def clear (sl : Skiplist) : Option Skiplist := do
  let first ← sl.heap.next bottom sl.head
  let h ← freeFrom sl.fuel first sl.heap
  let h ← resetHead sl.head h
  some { sl with heap := h }

end Skiplist

end KVStorage

import Mathlib.Order.Defs.LinearOrder
import Mathlib.Order.Lattice

/-!
# Configuration constants, `int` keys and C++ strings

`size_t` is a 64-bit word and `int` a 32-bit word. A string carries the capacity
of its buffer, since the size accounting charges capacities and not lengths.
-/

namespace KVStorage

set_option autoImplicit false

/-- `size_t`, with its arithmetic modulo 2^64. -/
abbrev SizeT := UInt64

/-- `static_cast<size_t>(-1)`: the "no block" answer of the block tables. -/
def noBlock : SizeT := -1

def FILE_SIZE : SizeT := 1 * 1024 * 1024 * 1024

def BLOCK_SIZE : SizeT := 64 * 1024 * 1024

def CACHE_SIZE : SizeT := 64 * 1024 * 1024

def NUM_BLOCKS : Nat := (FILE_SIZE / BLOCK_SIZE).toNat

theorem noBlock_toNat : noBlock.toNat = 18446744073709551615 := rfl

theorem blockSize_toNat : BLOCK_SIZE.toNat = 67108864 := rfl

theorem cacheSize_toNat : CACHE_SIZE.toNat = 67108864 := rfl

/-- `int` keys are ordered as signed numbers. -/
instance int32Order : LinearOrder Int32 where
  le_refl a := Int32.le_refl a
  le_trans _ _ _ hab hbc := Int32.le_trans hab hbc
  lt_iff_le_not_ge a b := by
    simp only [Int32.lt_iff_toInt_lt, Int32.le_iff_toInt_le]
    omega
  le_antisymm _ _ hab hba := Int32.le_antisymm hab hba
  le_total a b := Int32.le_total a b
  toDecidableLE := inferInstance
  toDecidableEq := inferInstance
  toDecidableLT := inferInstance

-- A condition on an optional word is decided on its value, not by trying every word.
instance (priority := 2000) decidableOptional {α : Type} {p : α → Prop} [DecidablePred p] (o : Option α) :
    Decidable (∀ a ∈ o, p a) := o.decidableForallMem

abbrev Bytes := List UInt8

/-- `VerifyUTF8`. -/
def ValidUtf8 (value : Bytes) : Prop := value.toByteArray.IsValidUTF8

instance decidableValidUtf8 : DecidablePred ValidUtf8 := fun value =>
  inferInstanceAs (Decidable value.toByteArray.IsValidUTF8)

theorem validUtf8_nil : ValidUtf8 [] := ⟨[], rfl⟩

/-- `std::string`: the characters and the capacity of the buffer that holds them. -/
structure CppString where
  data : Bytes
  capacity : Nat
  fits : data.length ≤ capacity

namespace CppString

/-- The capacity of the buffer inside the string object itself. -/
def localCapacity : Nat := 15

def empty : CppString := ⟨[], localCapacity, Nat.zero_le _⟩

/-- Copy construction allocates exactly what the local buffer cannot hold. -/
def ofBytes (data : Bytes) : CppString :=
  ⟨data, max localCapacity data.length, Nat.le_max_right _ _⟩

/-- Copy assignment keeps a buffer that is large enough and otherwise grows it to
at least twice its capacity. -/
def assign (old new : CppString) : CppString where
  data := new.data
  capacity := if new.data.length ≤ old.capacity then old.capacity
    else max new.data.length (2 * old.capacity)
  fits := by split <;> omega

@[simp] theorem empty_data : empty.data = [] := rfl

@[simp] theorem ofBytes_data (data : Bytes) : (ofBytes data).data = data := rfl

@[simp] theorem assign_data (old new : CppString) : (old.assign new).data = new.data := rfl

instance : DecidableEq CppString := fun a b =>
  decidable_of_iff (a.data = b.data ∧ a.capacity = b.capacity) (by cases a; cases b; simp)

end CppString

end KVStorage

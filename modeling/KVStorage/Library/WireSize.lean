import Mathlib.Algebra.Order.Ring.Nat
import Mathlib.Data.Nat.Log

/-!
# Sizes on the protobuf wire

Base-128 varints, sign-extended `int32` fields, and length-delimited fields.
-/

namespace WireSize

set_option autoImplicit false

/-- The bytes of a base-128 varint. -/
def varint (n : Nat) : Nat := Nat.log2 n / 7 + 1

/-- A negative `int32` is written as a 64-bit varint. -/
def int32 (k : Int32) : Nat := if k < 0 then 10 else varint k.toInt.toNat

def uint64 (n : UInt64) : Nat := varint n.toNat

/-- A string, bytes or embedded message field without its tag. -/
def delimited (length : Nat) : Nat := length + varint length

/-- A packed `repeated int32` field with its one-byte tag; the empty field is left out. -/
def packedInt32 (ks : List Int32) : Nat :=
  let data := (ks.map int32).sum
  (if 0 < data then 1 + varint data else 0) + data

theorem varint_mono {m n : Nat} (h : m ≤ n) : varint m ≤ varint n := by
  have hlog : Nat.log2 m ≤ Nat.log2 n := by
    rw [Nat.log2_eq_log_two, Nat.log2_eq_log_two]
    exact Nat.log_mono_right h
  unfold varint
  omega

theorem varint_pos (n : Nat) : 0 < varint n := Nat.succ_pos _

theorem varint_le {n d : Nat} (hd : 0 < d) (h : n < 2 ^ (7 * d)) : varint n ≤ d := by
  unfold varint
  by_cases hn : n = 0
  · subst n
    simp only [Nat.log2_zero]
    omega
  · have hlog := (Nat.log2_lt hn).mpr h
    omega

theorem le_varint {n d : Nat} (h : 2 ^ (7 * d) ≤ n) : d < varint n := by
  have hn : n ≠ 0 := by
    have := Nat.two_pow_pos (7 * d)
    omega
  have hlog := (Nat.le_log2 hn).mpr h
  unfold varint
  omega

theorem varint_small {n : Nat} (h : n < 128) : varint n = 1 := by
  have hle := varint_le (d := 1) Nat.one_pos (by omega : n < 2 ^ (7 * 1))
  have hpos := varint_pos n
  omega

theorem varint_div {n : Nat} (h : 128 ≤ n) : varint (n / 128) + 1 = varint n := by
  have hlog : Nat.log2 (n / 2 ^ 7) = Nat.log2 n - 7 := by
    rw [Nat.log2_eq_log_two, Nat.log2_eq_log_two, Nat.log_div_base_pow]
  have hseven : 7 ≤ Nat.log2 n := (Nat.le_log2 (by omega)).mpr h
  rw [show (2 : Nat) ^ 7 = 128 from rfl] at hlog
  unfold varint
  omega

theorem int32_pos (k : Int32) : 0 < int32 k := by
  unfold int32
  split
  · omega
  · exact varint_pos _

theorem int32_le (k : Int32) : int32 k ≤ 10 := by
  unfold int32
  split
  · omega
  · apply varint_le (by omega)
    have := k.toInt_lt
    omega

theorem uint64_le (n : UInt64) : uint64 n ≤ 10 := by
  apply varint_le (by omega)
  have := n.toNat_lt
  omega

theorem delimited_small {n : Nat} (h : n < 128) : delimited n = n + 1 := by
  rw [delimited, varint_small h]

theorem delimited_mono {m n : Nat} (h : m ≤ n) : delimited m ≤ delimited n := by
  have := varint_mono h
  unfold delimited
  omega

end WireSize

import Mathlib.Algebra.Group.Nat.Defs
import Mathlib.Data.List.Range
import Mathlib.Tactic.Common

/-! Buffers of bytes, the integers and the bits stored in them.

A buffer is a function on its positions; everything that is written into one is a
list of bytes at an offset (`write`), and everything that is read is a list of bytes
too (`slice`), so that one pair of lemmas says when a read sees a write: at the same
place it does, apart from it it does not. Integers are stored with the low byte
first, and bit `k` is bit `k % 8` of byte `k / 8`. -/
namespace Yfs.Base

abbrev Byte := BitVec 8

/-! ### Integers as lists of bytes -/

/-- The integer whose bytes, low byte first, these are. -/
def leNat : List Byte → Nat
  | [] => 0
  | x :: rest => x.toNat + 256 * leNat rest

/-- The low `k` bytes of an integer, low byte first. -/
def leBytes : Nat → Nat → List Byte
  | 0, _ => []
  | k + 1, v => BitVec.ofNat 8 v :: leBytes k (v / 256)

@[simp] theorem length_leBytes (k v : Nat) : (leBytes k v).length = k := by
  induction k generalizing v with
  | zero => rfl
  | succ k ih => rw [leBytes, List.length_cons, ih]

/-- What is stored in `k` bytes is read back modulo `256 ^ k`. -/
theorem leNat_leBytes (k v : Nat) : leNat (leBytes k v) = v % 256 ^ k := by
  induction k generalizing v with
  | zero => rw [leBytes, leNat, Nat.pow_zero, Nat.mod_one]
  | succ k ih =>
    rw [leBytes, leNat, ih, BitVec.toNat_ofNat, Nat.pow_succ 256, Nat.mul_comm (256 ^ k), Nat.mod_mul]

theorem leBytes_leNat (l : List Byte) : leBytes l.length (leNat l) = l := by
  induction l with
  | nil => rfl
  | cons x rest ih =>
    have hx := x.isLt
    have hlow : BitVec.ofNat 8 (x.toNat + 256 * leNat rest) = x := by
      apply BitVec.eq_of_toNat_eq
      rw [BitVec.toNat_ofNat]
      omega
    have hhigh : (x.toNat + 256 * leNat rest) / 256 = leNat rest := by omega
    rw [leNat, List.length_cons, leBytes, hlow, hhigh, ih]

/-- An integer that needs fewer bytes than it has leaves one of them zero. -/
theorem zero_mem_leBytes {k v : Nat} (h : v < 256 ^ k) : (0 : Byte) ∈ leBytes (k + 1) v := by
  induction k generalizing v with
  | zero =>
    have hv : v = 0 := by omega
    rw [hv]
    exact List.mem_singleton_self _
  | succ k ih =>
    rw [leBytes]
    exact List.mem_cons_of_mem _ (ih (Nat.div_lt_of_lt_mul (by rwa [Nat.pow_succ, Nat.mul_comm] at h)))

theorem leNat_lt (l : List Byte) : leNat l < 256 ^ l.length := by
  induction l with
  | nil => exact Nat.one_pos
  | cons x rest ih =>
    have hx := x.isLt
    rw [leNat, List.length_cons, Nat.pow_succ]
    omega

/-! ### Buffers -/

/-- A buffer of `n` bytes. -/
def Bytes (n : Nat) : Type := Fin n → Byte

namespace Bytes
variable {n : Nat}

def zero : Bytes n := fun _ => 0

/-- The byte at a position, zero outside of the buffer. -/
def byte (b : Bytes n) (i : Nat) : Byte := if h : i < n then b ⟨i, h⟩ else 0

/-- The bytes `l` written from offset `o` on. -/
def write (b : Bytes n) (o : Nat) (l : List Byte) : Bytes n := fun j =>
  if o ≤ j then l[j - o]?.getD (b j) else b j

/-- The `k` bytes at offset `o`. -/
def slice (b : Bytes n) (o k : Nat) : List Byte := (List.range k).map fun i => b.byte (o + i)

@[simp] theorem length_slice (b : Bytes n) (o k : Nat) : (b.slice o k).length = k := by
  rw [slice, List.length_map, List.length_range]

theorem byte_zero (i : Nat) : (zero : Bytes n).byte i = 0 := by
  unfold byte zero
  split <;> rfl

theorem byte_write_apart (b : Bytes n) {o i : Nat} {l : List Byte} (h : i < o ∨ o + l.length ≤ i) :
    (b.write o l).byte i = b.byte i := by
  unfold byte write
  dsimp only
  split
  · split
    · rw [List.getElem?_eq_none (by omega), Option.getD_none]
    · rfl
  · rfl

theorem byte_write_at (b : Bytes n) {o k : Nat} {l : List Byte} (h : o + k < n) (hk : k < l.length) :
    (b.write o l).byte (o + k) = l[k] := by
  unfold byte write
  rw [dif_pos h, if_pos (Nat.le_add_right o k), Nat.add_sub_cancel_left, List.getElem?_eq_getElem hk,
    Option.getD_some]

@[simp] theorem write_nil (b : Bytes n) (o : Nat) : b.write o [] = b := by
  funext j
  simp [write]

/-- What was written is read back from the same place. -/
theorem slice_write_self (b : Bytes n) {o : Nat} {l : List Byte} (h : o + l.length ≤ n) :
    (b.write o l).slice o l.length = l := by
  apply List.ext_getElem
  · rw [length_slice]
  · intro k hk hl
    have hr : ((b.write o l).slice o l.length)[k] = (b.write o l).byte (o + k) := by simp [slice]
    rw [hr, byte_write_at b (by omega) hl]

theorem slice_write_take (b : Bytes n) {o k : Nat} {l : List Byte} (hk : k ≤ l.length) (h : o + k ≤ n) :
    (b.write o l).slice o k = l.take k := by
  apply List.ext_getElem
  · rw [length_slice, List.length_take, Nat.min_eq_left hk]
  · intro i hi hl
    rw [length_slice] at hi
    have hr : ((b.write o l).slice o k)[i] = (b.write o l).byte (o + i) := by simp [slice]
    rw [hr, byte_write_at b (by omega) (by omega), List.getElem_take]

/-- A write changes nothing apart from its own place. -/
theorem slice_write_apart (b : Bytes n) {o o' k : Nat} {l : List Byte}
    (h : o' + k ≤ o ∨ o + l.length ≤ o') : (b.write o l).slice o' k = b.slice o' k := by
  apply List.map_congr_left
  intro i hi
  have hi := List.mem_range.mp hi
  exact byte_write_apart b (by omega)

/-- Two buffers that agree on a range agree on every slice within it. -/
theorem slice_congr {b b' : Bytes n} {o k : Nat} (h : ∀ i, o ≤ i → i < o + k → b.byte i = b'.byte i) :
    b.slice o k = b'.slice o k := by
  apply List.map_congr_left
  intro i hi
  have hi := List.mem_range.mp hi
  exact h (o + i) (by omega) (by omega)

theorem byte_of_slice_eq {b : Bytes n} {o k : Nat} {l : List Byte} (h : b.slice o k = l) {i : Nat}
    (hi : i < k) : l[i]? = some (b.byte (o + i)) := by
  rw [← h, slice, List.getElem?_map, List.getElem?_range hi, Option.map_some]

theorem slice_succ (b : Bytes n) (o k : Nat) : b.slice o (k + 1) = b.byte o :: b.slice (o + 1) k := by
  rw [slice, List.range_succ_eq_map, List.map_cons, List.map_map, Nat.add_zero, slice]
  congr 1
  apply List.map_congr_left
  intro i _
  exact congrArg b.byte (by simp only [Nat.succ_eq_add_one]; omega)

theorem slice_add (b : Bytes n) (o k m : Nat) : b.slice o (k + m) = b.slice o k ++ b.slice (o + k) m := by
  induction k generalizing o with
  | zero => rw [Nat.zero_add, Nat.add_zero]; rfl
  | succ k ih =>
    rw [show k + 1 + m = k + m + 1 by omega, slice_succ, slice_succ, ih, show o + 1 + k = o + (k + 1) by omega]
    rfl

/-! ### Words of 64 bits -/

/-- The 64-bit word at offset `o`. -/
def u64 (b : Bytes n) (o : Nat) : Nat := leNat (b.slice o 8)

def setU64 (b : Bytes n) (o v : Nat) : Bytes n := b.write o (leBytes 8 v)

theorem u64_lt (b : Bytes n) (o : Nat) : b.u64 o < 2 ^ 64 := by
  have h := leNat_lt (b.slice o 8)
  rw [length_slice] at h
  exact h

theorem u64_zero (o : Nat) : (zero : Bytes n).u64 o = 0 := by
  simp [u64, slice, List.range_succ, byte_zero, leNat]

theorem u64_write_apart (b : Bytes n) {o o' : Nat} {l : List Byte} (h : o' + 8 ≤ o ∨ o + l.length ≤ o') :
    (b.write o l).u64 o' = b.u64 o' := by
  rw [u64, slice_write_apart b h, u64]

theorem u64_setU64_apart (b : Bytes n) {o o' v : Nat} (h : o' + 8 ≤ o ∨ o + 8 ≤ o') :
    (b.setU64 o v).u64 o' = b.u64 o' :=
  u64_write_apart b (by rwa [length_leBytes])

theorem u64_setU64 (b : Bytes n) {o v : Nat} (h : o + 8 ≤ n) (hv : v < 2 ^ 64) :
    (b.setU64 o v).u64 o = v := by
  have hs := slice_write_self b (o := o) (l := leBytes 8 v) (by rwa [length_leBytes])
  rw [length_leBytes] at hs
  rw [u64, setU64, hs, leNat_leBytes]
  exact Nat.mod_eq_of_lt hv

/-! ### Bits -/

/-- Bit `k` of the buffer. -/
def bit (b : Bytes n) (k : Nat) : Bool := (b.byte (k / 8)).getLsbD (k % 8)

def setBit (b : Bytes n) (k : Nat) : Bytes n :=
  b.write (k / 8) [b.byte (k / 8) ||| ((1 : Byte) <<< (k % 8))]

def clearBit (b : Bytes n) (k : Nat) : Bytes n :=
  b.write (k / 8) [b.byte (k / 8) &&& ~~~((1 : Byte) <<< (k % 8))]

theorem bit_zero (k : Nat) : (zero : Bytes n).bit k = false := by
  rw [bit, byte_zero]
  exact BitVec.getLsbD_zero

theorem getLsbD_one_shiftLeft {i j : Nat} (hi : i < 8) :
    ((1 : Byte) <<< j).getLsbD i = decide (i = j) := by
  rw [BitVec.getLsbD_shiftLeft]
  by_cases h : i = j
  · subst h
    simp [hi]
  · by_cases hlt : i < j
    · simp [hlt, h]
    · have : i - j ≠ 0 := by omega
      simp [h, BitVec.getLsbD_one, this]

theorem bit_write_byte (b : Bytes n) {k j : Nat} {x : Byte} (hk : k / 8 < n) :
    (b.write (k / 8) [x]).bit j = if j / 8 = k / 8 then x.getLsbD (j % 8) else b.bit j := by
  unfold bit
  split
  · next h =>
    rw [h]
    have := byte_write_at b (o := k / 8) (k := 0) (l := [x]) hk (by simp)
    rw [Nat.add_zero] at this
    rw [this]
    rfl
  · next h => rw [byte_write_apart b (by simp only [List.length_singleton]; omega)]

theorem bit_setBit (b : Bytes n) {k j : Nat} (hk : k / 8 < n) :
    (b.setBit k).bit j = (decide (j = k) || b.bit j) := by
  rw [setBit, bit_write_byte b hk]
  split
  · next h =>
    rw [BitVec.getLsbD_or, getLsbD_one_shiftLeft (Nat.mod_lt _ (by decide)), ← h, Bool.or_comm, bit]
    congr 1
    exact decide_eq_decide.mpr (by omega)
  · next h =>
    have : j ≠ k := fun e => h (by rw [e])
    rw [decide_eq_false this, Bool.false_or]

theorem bit_clearBit (b : Bytes n) {k j : Nat} (hk : k / 8 < n) :
    (b.clearBit k).bit j = (!decide (j = k) && b.bit j) := by
  rw [clearBit, bit_write_byte b hk]
  split
  · next h =>
    have h8 : j % 8 < 8 := Nat.mod_lt _ (by decide)
    rw [BitVec.getLsbD_and, BitVec.getLsbD_not, getLsbD_one_shiftLeft h8, ← h, decide_eq_true h8,
      Bool.true_and, Bool.and_comm, bit]
    congr 2
    exact decide_eq_decide.mpr (by omega)
  · next h =>
    have : j ≠ k := fun e => h (by rw [e])
    rw [decide_eq_false this, Bool.not_false, Bool.true_and]

end Bytes
end Yfs.Base

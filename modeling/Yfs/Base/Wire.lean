import Mathlib.Data.List.GetD
import Yfs.Base.Bytes

/-! Memory that is written and read byte by byte.

Memory is a function of the address. What is written is a list of bytes at an address
(`blit`), and `StoredAt` says that such a list is there. Lists written one behind the
other are one list written (`blit_append`), and a list stays where it is when another is
written beside it (`StoredAt.blit`). A word is the bytes it is cut into, most significant
first (`word_of_bytes`, `half_of_bytes`, `double_of_words`). -/
namespace Yfs.Base

/-! ### Bytes in memory -/

/-- The bytes `p` written from address `k` on. -/
def blit (mem : Nat → Byte) (k : Nat) (p : List Byte) : Nat → Byte :=
  fun i => if k ≤ i then p.getD (i - k) (mem i) else mem i

/-- The bytes `p` are in memory from address `k` on. -/
def StoredAt (mem : Nat → Byte) (k : Nat) (p : List Byte) : Prop :=
  ∀ i b, p[i]? = some b → mem (k + i) = b

theorem blit_append (mem : Nat → Byte) (k : Nat) (p q : List Byte) :
    blit (blit mem k p) (k + p.length) q = blit mem k (p ++ q) := by
  funext i
  unfold blit
  by_cases hi : k ≤ i
  · by_cases hp : i - k < p.length
    · have hlow : ¬ k + p.length ≤ i := by omega
      rw [if_neg hlow, if_pos hi, if_pos hi, List.getD_append _ _ _ _ hp]
    · have hhigh : k + p.length ≤ i := by omega
      have hsub : i - (k + p.length) = i - k - p.length := by omega
      rw [if_pos hhigh, if_pos hi, if_pos hi, List.getD_append_right _ _ _ _ (by omega), hsub,
        List.getD_eq_default p _ (by omega)]
  · have hlow : ¬ k + p.length ≤ i := by omega
    rw [if_neg hlow, if_neg hi, if_neg hi]

theorem blit_congr {mem mem' : Nat → Byte} {k i : Nat} {p : List Byte}
    (h : i < k ∨ k + p.length ≤ i → mem i = mem' i) : blit mem k p i = blit mem' k p i := by
  unfold blit
  split
  · by_cases hp : i - k < p.length
    · rw [List.getD_eq_getElem p _ hp, List.getD_eq_getElem p _ hp]
    · rw [List.getD_eq_default p _ (by omega), List.getD_eq_default p _ (by omega), h (.inr (by omega))]
  · exact h (.inl (by omega))

theorem blit_apart {mem : Nat → Byte} {k i : Nat} {p : List Byte} (h : i < k ∨ k + p.length ≤ i) :
    blit mem k p i = mem i := by
  unfold blit
  split
  · rw [List.getD_eq_default p _ (by omega)]
  · rfl

theorem storedAt_blit (mem : Nat → Byte) (k : Nat) (p : List Byte) : StoredAt (blit mem k p) k p := by
  intro i b hb
  rw [blit, if_pos (by omega), Nat.add_sub_cancel_left, List.getD_eq_getElem?_getD, hb]
  rfl

theorem storedAt_append {mem : Nat → Byte} {k : Nat} {p q : List Byte} :
    StoredAt mem k (p ++ q) ↔ StoredAt mem k p ∧ StoredAt mem (k + p.length) q := by
  constructor
  · intro h
    refine ⟨fun i b hb => ?_, fun i b hb => ?_⟩
    · have hi : i < p.length := (List.getElem?_eq_some_iff.mp hb).1
      exact h i b (by rw [List.getElem?_append_left hi, hb])
    · rw [Nat.add_assoc]
      refine h _ b ?_
      rw [List.getElem?_append_right (Nat.le_add_right ..), Nat.add_sub_cancel_left, hb]
  · intro ⟨hp, hq⟩ i b hb
    by_cases hi : i < p.length
    · rw [List.getElem?_append_left hi] at hb
      exact hp i b hb
    · rw [List.getElem?_append_right (by omega)] at hb
      have := hq _ b hb
      rwa [show k + p.length + (i - p.length) = k + i by omega] at this

theorem StoredAt.head {mem : Nat → Byte} {k : Nat} {b : Byte} {p : List Byte} (h : StoredAt mem k (b :: p)) :
    mem k = b := h 0 b rfl

theorem StoredAt.blit {mem : Nat → Byte} {k k' : Nat} {p q : List Byte} (h : StoredAt mem k p)
    (hd : k' + q.length ≤ k ∨ k + p.length ≤ k') : StoredAt (blit mem k' q) k p := by
  intro i b hb
  have hi : i < p.length := (List.getElem?_eq_some_iff.mp hb).1
  rw [Base.blit]
  split
  · rw [List.getD_eq_default q _ (by omega), h i b hb]
  · exact h i b hb

/-- The `n` bytes from address `k` on. -/
def bytesFrom (mem : Nat → Byte) (k n : Nat) : List Byte := (List.range n).map fun i => mem (k + i)

theorem StoredAt.bytesFrom {mem : Nat → Byte} {k : Nat} {p : List Byte} (h : StoredAt mem k p) :
    bytesFrom mem k p.length = p := by
  apply List.ext_getElem
  · rw [Base.bytesFrom, List.length_map, List.length_range]
  · intro i _ hi
    have hb : p[i]? = some p[i] := List.getElem?_eq_getElem hi
    simp only [Base.bytesFrom, List.getElem_map, List.getElem_range]
    exact h i _ hb

/-! ### Words -/

theorem low_getLsbD {w : Nat} (hw : 8 ≤ w) (i : Nat) : (255#w).getLsbD i = decide (i < 8) := by
  rw [BitVec.getLsbD_ofNat, show (255 : Nat) = 2 ^ 8 - 1 from rfl, Nat.testBit_two_pow_sub_one]
  by_cases h : i < 8
  · simp [h, show i < w by omega]
  · simp [h]

/-- A byte read as a signed character and masked is the byte. -/
@[simp] theorem signExtend_and_low (b : Byte) : b.signExtend 32 &&& 255#32 = b.setWidth 32 := by
  apply BitVec.eq_of_getLsbD_eq
  intro i hi
  rw [BitVec.getLsbD_and, BitVec.getLsbD_signExtend, BitVec.getLsbD_setWidth, low_getLsbD (by decide)]
  by_cases h8 : i < 8
  · simp [hi, h8]
  · simp [h8, BitVec.getLsbD_of_ge b i (by omega)]

@[simp] theorem setWidth_and_low {w : Nat} (hw : 8 ≤ w) (x : BitVec w) :
    (x &&& 255#w).setWidth 8 = x.setWidth 8 := by
  apply BitVec.eq_of_getLsbD_eq
  intro i hi
  rw [BitVec.getLsbD_setWidth, BitVec.getLsbD_and, low_getLsbD hw, BitVec.getLsbD_setWidth]
  simp [hi]

theorem word_of_bytes (x : BitVec 32) :
    ((x >>> 24).setWidth 8).setWidth 32 <<< 24 ||| ((x >>> 16).setWidth 8).setWidth 32 <<< 16 |||
      ((x >>> 8).setWidth 8).setWidth 32 <<< 8 ||| (x.setWidth 8).setWidth 32 = x := by
  apply BitVec.eq_of_getLsbD_eq
  intro i hi
  simp only [BitVec.getLsbD_or, BitVec.getLsbD_shiftLeft, BitVec.getLsbD_setWidth,
    BitVec.getLsbD_ushiftRight, hi, decide_true, Bool.true_and]
  -- which of the four bytes bit `i` is in
  by_cases h8 : i < 8
  · simp [h8, show i < 16 by omega, show i < 24 by omega]
  by_cases h16 : i < 16
  · have heq : 8 + (i - 8) = i := by omega
    simp [h8, h16, heq, show i < 24 by omega, show i - 8 < 8 by omega, show i - 8 < 32 by omega]
  by_cases h24 : i < 24
  · have heq : 16 + (i - 16) = i := by omega
    simp [h8, h16, h24, heq, show ¬ i - 8 < 8 by omega, show i - 16 < 8 by omega,
      show i - 16 < 32 by omega]
  · have heq : 24 + (i - 24) = i := by omega
    simp [h8, h16, h24, heq, show ¬ i - 8 < 8 by omega, show ¬ i - 16 < 8 by omega,
      show i - 24 < 8 by omega, show i - 24 < 32 by omega]

theorem half_of_bytes (x : BitVec 16) :
    (((x >>> 8).setWidth 8).setWidth 32 <<< 8 ||| (x.setWidth 8).setWidth 32).setWidth 16 = x := by
  apply BitVec.eq_of_getLsbD_eq
  intro i hi
  simp only [BitVec.getLsbD_or, BitVec.getLsbD_shiftLeft, BitVec.getLsbD_setWidth,
    BitVec.getLsbD_ushiftRight, hi, decide_true, Bool.true_and]
  by_cases h8 : i < 8
  · simp [h8, show i < 32 by omega]
  · have heq : 8 + (i - 8) = i := by omega
    simp [h8, heq, show i < 32 by omega, show i - 8 < 8 by omega, show i - 8 < 32 by omega]

theorem double_of_words (x : BitVec 64) :
    (x.setWidth 32).setWidth 64 ||| ((x >>> 32).setWidth 32).setWidth 64 <<< 32 = x := by
  apply BitVec.eq_of_getLsbD_eq
  intro i hi
  simp only [BitVec.getLsbD_or, BitVec.getLsbD_shiftLeft, BitVec.getLsbD_setWidth,
    BitVec.getLsbD_ushiftRight, hi, decide_true, Bool.true_and]
  by_cases h : i < 32
  · simp [h]
  · have heq : 32 + (i - 32) = i := by omega
    simp [h, heq, show i - 32 < 32 by omega, show i - 32 < 64 by omega]

end Yfs.Base

import Mathlib.Algebra.Notation.Defs
import Mathlib.Data.List.Range
import Mathlib.Tactic.Common

/-! Sequences with holes.

A list put at an offset covers what was there before (`overlay`). A `Sparse` sequence has
a size, and past its size there are zeros, so that a write behind the end leaves zeros in
between and a sequence that was cut shows zeros when it grows again. -/
namespace Yfs.Base

section
variable {α : Type*} {g : Nat → α} {o k : Nat} {l l' : List α}

/-- The list `l` from position `o` on, and elsewhere what was there. -/
def overlay (g : Nat → α) (o : Nat) (l : List α) (k : Nat) : α :=
  if o ≤ k then l[k - o]?.getD (g k) else g k

theorem overlay_apart (h : k < o ∨ o + l.length ≤ k) : overlay g o l k = g k := by
  unfold overlay
  split
  · rw [List.getElem?_eq_none (by omega), Option.getD_none]
  · rfl

theorem overlay_at (h : k < l.length) : overlay g o l (o + k) = l[k] := by
  rw [overlay, if_pos (Nat.le_add_right o k), Nat.add_sub_cancel_left, List.getElem?_eq_getElem h, Option.getD_some]

@[simp] theorem overlay_nil : overlay g o ([] : List α) = g := by
  funext k
  exact overlay_apart (by rw [List.length_nil]; omega)

theorem overlay_append : overlay (overlay g o l) (o + l.length) l' = overlay g o (l ++ l') := by
  funext k
  by_cases hk : o ≤ k
  · obtain ⟨j, rfl⟩ := Nat.exists_eq_add_of_le hk
    by_cases hj : j < l.length
    · rw [overlay_apart (.inl (by omega)), overlay_at hj, overlay_at (by rw [List.length_append]; omega),
        List.getElem_append_left hj]
    · obtain ⟨j, rfl⟩ := Nat.exists_eq_add_of_le (Nat.le_of_not_lt hj)
      by_cases hj' : j < l'.length
      · rw [← Nat.add_assoc, overlay_at hj', Nat.add_assoc, overlay_at (by rw [List.length_append]; omega),
          List.getElem_append_right (Nat.le_add_right ..)]
        simp
      · rw [overlay_apart (.inr (by omega)), overlay_apart (.inr (by omega)),
          overlay_apart (.inr (by rw [List.length_append]; omega))]
  · rw [overlay_apart (.inl (by omega)), overlay_apart (.inl (by omega)), overlay_apart (.inl (by omega))]

end

/-- A sequence of `size` elements with zeros behind them. -/
@[ext] structure Sparse (α : Type*) [Zero α] where
  size : Nat
  get : Nat → α
  zero_past : ∀ k, size ≤ k → get k = 0

namespace Sparse
variable {α : Type*} [Zero α] (c : Sparse α)

def empty : Sparse α := ⟨0, fun _ => 0, fun _ _ => rfl⟩

def toList : List α := (List.range c.size).map c.get

/-- The list `l` is written at `o`; what lies between the end and `o` is zero. -/
def write (o : Nat) (l : List α) : Sparse α where
  size := max c.size (o + l.length)
  get := overlay c.get o l
  zero_past k hk := by
    rw [overlay_apart (.inr (by omega))]
    exact c.zero_past k (by omega)

/-- The sequence is cut at `s`, or extended to it with zeros. -/
def resize (s : Nat) : Sparse α where
  size := s
  get k := if k < s then c.get k else 0
  zero_past _ hk := if_neg (Nat.not_lt_of_le hk)

@[simp] theorem length_toList : c.toList.length = c.size := by
  rw [toList, List.length_map, List.length_range]

theorem toList_write_empty (l : List α) : ((empty : Sparse α).write 0 l).toList = l := by
  have hsize : ((empty : Sparse α).write 0 l).size = l.length := (Nat.max_eq_right (Nat.zero_le _)).trans
    (Nat.zero_add _)
  apply List.ext_getElem
  · rw [length_toList, hsize]
  · intro k _ hk
    have hget : overlay (empty : Sparse α).get 0 l (0 + k) = l[k] := overlay_at hk
    rw [Nat.zero_add] at hget
    simpa [toList, write] using hget

theorem toList_resize (s : Nat) : (c.resize s).toList = c.toList.take s ++ List.replicate (s - c.size) 0 := by
  apply List.ext_getElem
  · rw [length_toList, List.length_append, List.length_take, length_toList, List.length_replicate]
    change s = _
    omega
  · intro k hk _
    have hk : k < s := by rwa [length_toList] at hk
    have hget : (c.resize s).toList[k] = c.get k := by simp [toList, resize, hk]
    rw [hget, List.getElem_append]
    split
    · simp [toList]
    · next hlen =>
      rw [List.length_take, length_toList] at hlen
      rw [List.getElem_replicate, c.zero_past k (by omega)]

end Sparse
end Yfs.Base

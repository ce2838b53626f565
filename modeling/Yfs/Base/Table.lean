import Mathlib.Data.List.AList

/-! Finite tables, and how many of their entries point somewhere.

A reference count is right when it is the number of holders that point to the counted
object. A `Table` says what each holder holds, `Table.count t p` is how many of them
hold `p`, and setting or removing one holder's entry moves the count by the entry that
goes and the entry that comes (`count_insert`, `count_erase`). -/
namespace Yfs.Base

/-- What each of finitely many holders holds. -/
abbrev Table (K P : Type) := AList fun _ : K => P

namespace Table
variable {K P : Type} [DecidableEq K]

theorem lookup_insert_eq (t : Table K P) (k k' : K) (p : P) :
    (t.insert k p).lookup k' = if k' = k then some p else t.lookup k' := by
  split
  · rename_i h
    subst h
    exact AList.lookup_insert t
  · rename_i h
    exact AList.lookup_insert_ne h

theorem lookup_erase_eq (t : Table K P) (k k' : K) :
    (t.erase k).lookup k' = if k' = k then none else t.lookup k' := by
  split
  · rename_i h
    subst h
    exact AList.lookup_erase k' t
  · rename_i h
    exact AList.lookup_erase_ne h

variable [DecidableEq P]

/-- How many holders hold `p`. -/
def count (t : Table K P) (p : P) : Nat := t.entries.countP fun e => e.2 = p

theorem countP_kerase (k : K) (p : P) (l : List (Sigma fun _ : K => P)) :
    (l.kerase k).countP (fun e => e.2 = p) + (if l.dlookup k = some p then 1 else 0) =
      l.countP fun e => e.2 = p := by
  induction l with
  | nil => simp
  | cons e rest ih =>
    obtain ⟨k', p'⟩ := e
    by_cases hk : k = k'
    · subst hk
      simp [List.countP_cons]
    · rw [List.kerase_cons_ne (by exact hk), List.dlookup_cons_ne _ _ (by exact hk), List.countP_cons,
        List.countP_cons, ← ih]
      omega

theorem count_erase (t : Table K P) (k : K) (p : P) :
    count (t.erase k) p + (if t.lookup k = some p then 1 else 0) = count t p :=
  countP_kerase k p t.entries

theorem count_insert (t : Table K P) (k : K) (q p : P) :
    count (t.insert k q) p + (if t.lookup k = some p then 1 else 0) =
      count t p + (if q = p then 1 else 0) := by
  have herase := countP_kerase k p t.entries
  have hcons : count (t.insert k q) p =
      (t.entries.kerase k).countP (fun e => e.2 = p) + (if q = p then 1 else 0) := by
    simp [count, AList.entries_insert, List.countP_cons]
  have hlook : t.lookup k = t.entries.dlookup k := rfl
  rw [hcons, hlook, count]
  omega

/-- `count_erase`, solved for the new count. -/
theorem count_erase_eq (t : Table K P) (k : K) (p : P) :
    (count (t.erase k) p : Int) = count t p - if t.lookup k = some p then 1 else 0 := by
  have h := count_erase t k p
  split_ifs at h ⊢ <;> omega

/-- `count_insert`, solved for the new count. -/
theorem count_insert_eq (t : Table K P) (k : K) (q p : P) :
    (count (t.insert k q) p : Int) =
      count t p - (if t.lookup k = some p then 1 else 0) + if q = p then 1 else 0 := by
  have h := count_insert t k q p
  split_ifs at h ⊢ <;> omega

theorem count_pos {t : Table K P} {k : K} {p : P} (h : t.lookup k = some p) : 0 < count t p := by
  have := count_erase t k p
  rw [if_pos h] at this
  omega

end Table

end Yfs.Base

import Mathlib.Data.List.Sort

/-! Ordered sets as strictly increasing lists.

An `OrderedSet` keeps its elements in increasing order without repetition, and
is walked in that order. Insertion and removal keep the order, so the list of
elements is a function of which elements are in the set. -/
namespace Yfs.Base

/-- A finite set, walked in increasing order. -/
structure OrderedSet (α : Type*) [LinearOrder α] where
  elems : List α
  increasing : elems.Pairwise (· < ·)
  deriving DecidableEq

namespace OrderedSet
variable {α : Type*} [LinearOrder α]

instance : EmptyCollection (OrderedSet α) := ⟨⟨[], .nil⟩⟩

instance : Membership α (OrderedSet α) := ⟨fun s a => a ∈ s.elems⟩

instance (a : α) (s : OrderedSet α) : Decidable (a ∈ s) := inferInstanceAs (Decidable (a ∈ s.elems))

theorem mem_def {a : α} {s : OrderedSet α} : a ∈ s ↔ a ∈ s.elems := Iff.rfl

@[simp] theorem not_mem_empty (a : α) : a ∉ (∅ : OrderedSet α) := List.not_mem_nil

/-- Put `a` at its place, once. -/
def insertList (a : α) : List α → List α
  | [] => [a]
  | b :: rest => if a < b then a :: b :: rest else if a = b then b :: rest else b :: insertList a rest

theorem mem_insertList {a b : α} {l : List α} : b ∈ insertList a l ↔ b = a ∨ b ∈ l := by
  induction l with
  | nil => simp [insertList]
  | cons c rest ih =>
    unfold insertList
    split
    · simp
    · split
      · rename_i h
        subst h
        simp
      · simp [ih, or_left_comm]

theorem insertList_increasing {a : α} {l : List α} (h : l.Pairwise (· < ·)) :
    (insertList a l).Pairwise (· < ·) := by
  induction l with
  | nil => simp [insertList]
  | cons b rest ih =>
    obtain ⟨hb, hrest⟩ := List.pairwise_cons.mp h
    unfold insertList
    split
    · rename_i hab
      refine List.pairwise_cons.mpr ⟨fun x hx => ?_, h⟩
      rcases List.mem_cons.mp hx with rfl | hx
      · exact hab
      · exact hab.trans (hb x hx)
    · split
      · exact h
      · rename_i hlt hne
        refine List.pairwise_cons.mpr ⟨fun x hx => ?_, ih hrest⟩
        rcases mem_insertList.mp hx with rfl | hx
        · exact lt_of_le_of_ne (not_lt.mp hlt) (Ne.symm hne)
        · exact hb x hx

def insert (s : OrderedSet α) (a : α) : OrderedSet α :=
  ⟨insertList a s.elems, insertList_increasing s.increasing⟩

def erase (s : OrderedSet α) (a : α) : OrderedSet α :=
  ⟨s.elems.filter (· ≠ a), s.increasing.filter _⟩

@[simp] theorem mem_insert {a b : α} {s : OrderedSet α} : b ∈ s.insert a ↔ b = a ∨ b ∈ s :=
  mem_insertList

@[simp] theorem mem_erase {a b : α} {s : OrderedSet α} : b ∈ s.erase a ↔ b ≠ a ∧ b ∈ s := by
  simp [erase, mem_def, and_comm]

end OrderedSet

end Yfs.Base

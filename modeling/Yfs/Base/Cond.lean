import Mathlib.Algebra.BigOperators.Group.Finset.Basic
import Mathlib.Algebra.BigOperators.Group.Finset.Piecewise

/-! Condition variables.

A thread waits on a condition until somebody signals it, or until it wakes up for no
reason; a signal wakes one of the waiting threads, if there is one. What has to hold for
no wake-up to be lost is that, as long as a thread sleeps, the things it could go on with
are no more than the threads that are awake and on their way to them (`Covered`): a
signal for each new thing keeps that, a thread that takes one keeps it, and a thread goes
to sleep only when there are none. -/
namespace Yfs.Base

/-! ### Sums over threads -/

theorem sum_update {ι κ M : Type*} [Fintype ι] [DecidableEq ι] [AddCommMonoid M] (g : κ → M) (f : ι → κ)
    (i : ι) (x : κ) : ∑ j, g (Function.update f i x j) + g (f i) = ∑ j, g (f j) + g x := by
  have hcomp : (fun j => g (Function.update f i x j)) = Function.update (fun j => g (f j)) i (g x) := by
    funext j
    exact Function.apply_update (fun _ => g) f i x j
  have hsplit : g (f i) + ∑ j ∈ Finset.univ \ {i}, g (f j) = ∑ j, g (f j) := by
    have := Finset.sum_update_of_mem (Finset.mem_univ i) (fun j => g (f j)) (g (f i))
    rw [Function.update_eq_self] at this
    exact this.symm
  rw [hcomp, Finset.sum_update_of_mem (Finset.mem_univ i), ← hsplit, add_assoc, add_comm (g (f i)),
    add_comm (g x)]

/-! ### Waiting -/

section Waiting
variable {ι : Type} [Fintype ι] [DecidableEq ι]

/-- How many threads were woken and have not gone on yet: `some false` is a thread that
sleeps, `some true` one that was woken. -/
def woken (f : ι → Option Bool) : Nat := ∑ i, if f i = some true then 1 else 0

def Picks (f : ι → Option Bool) : Option ι → Prop
  | some i => f i = some false
  | none => ∀ i, f i ≠ some false

instance (f : ι → Option Bool) : (sig : Option ι) → Decidable (Picks f sig)
  | some _ => inferInstanceAs (Decidable (_ = _))
  | none => inferInstanceAs (Decidable (∀ _, _))

omit [Fintype ι] [DecidableEq ι] in
/-- There is always a thread to pick, or nobody to wake. -/
theorem exists_picks (f : ι → Option Bool) : ∃ sig, Picks f sig := by
  by_cases h : ∃ i, f i = some false
  · obtain ⟨i, hi⟩ := h
    exact ⟨some i, hi⟩
  · exact ⟨none, fun i hi => h ⟨i, hi⟩⟩

def wakeAt (f : ι → Option Bool) : Option ι → ι → Option Bool
  | some i => Function.update f i (some true)
  | none => f

/-- While a thread sleeps, no more than the woken ones have something to go on with. -/
def Covered (f : ι → Option Bool) (things : Nat) : Prop :=
  (∃ i, f i = some false) → things ≤ woken f

omit [DecidableEq ι] in
theorem woken_eq_zero {f : ι → Option Bool} (h : ∀ i, f i ≠ some true) : woken f = 0 :=
  Finset.sum_eq_zero fun i _ => if_neg (h i)

theorem woken_update (f : ι → Option Bool) (i : ι) (x : Option Bool) :
    woken (Function.update f i x) + (if f i = some true then 1 else 0) =
      woken f + (if x = some true then 1 else 0) :=
  sum_update (fun y : Option Bool => if y = some true then 1 else 0) f i x

omit [DecidableEq ι] in
theorem Covered.mono {f : ι → Option Bool} {x y : Nat} (h : Covered f x) (hy : y ≤ x) : Covered f y :=
  fun hs => hy.trans (h hs)

/-- One thing more, and a signal for it. -/
theorem Covered.signal {f : ι → Option Bool} {x : Nat} (h : Covered f x) {sig : Option ι}
    (hsig : Picks f sig) : Covered (wakeAt f sig) (x + 1) := by
  cases sig with
  | none =>
    rintro ⟨i, hi⟩
    exact absurd hi (hsig i)
  | some i =>
    intro _
    have hcount := woken_update f i (some true)
    have hi : f i = some false := hsig
    have hx := h ⟨i, hi⟩
    rw [hi, if_neg (by decide), if_pos rfl] at hcount
    change x + 1 ≤ woken (Function.update f i (some true))
    omega

theorem Covered.wake {f : ι → Option Bool} {x : Nat} (h : Covered f x) {i : ι} (hi : f i = some false) :
    Covered (Function.update f i (some true)) x := by
  have hsignal : Covered (wakeAt f (some i)) (x + 1) := h.signal hi
  exact hsignal.mono (Nat.le_succ x)

omit [DecidableEq ι] in
theorem covered_zero (f : ι → Option Bool) : Covered f 0 := fun _ => Nat.zero_le _

theorem Covered.leave {f : ι → Option Bool} {x : Nat} (h : Covered f (x + 1)) {i : ι}
    (hi : f i ≠ some false) : Covered (Function.update f i none) x := by
  rintro ⟨j, hj⟩
  have hji : j ≠ i := by
    rintro rfl
    rw [Function.update_self] at hj
    cases hj
  rw [Function.update_of_ne hji] at hj
  have hx := h ⟨j, hj⟩
  have hcount := woken_update f i none
  split at hcount <;> simp at hcount <;> omega

end Waiting

end Yfs.Base

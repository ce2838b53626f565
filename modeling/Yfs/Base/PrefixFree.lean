import Mathlib.Data.List.Basic

/-! Words that tell their own end.

Words of a prefix-free set can be sent one after the other without marks between them. A
receiver who has cut the beginning of such a stream into words of the set has cut it where
the sender joined it (`PrefixFree.prefix_of_flatten`). -/
namespace Yfs.Base

variable {α : Type*} {P : List α → Prop}

/-- No word is the beginning of another one, and none is empty. -/
structure PrefixFree (P : List α → Prop) : Prop where
  eq_of_prefix : ∀ {p q : List α}, P p → P q → p <+: q → p = q
  ne_nil : ∀ {p : List α}, P p → p ≠ []

/-- Two words at the beginning of one stream are the same. -/
theorem PrefixFree.eq (h : PrefixFree P) {p q l : List α} (hp : P p) (hq : P q) (hpl : p <+: l) (hql : q <+: l) :
    p = q := by
  rcases List.prefix_or_prefix_of_prefix hpl hql with hpq | hqp
  · exact h.eq_of_prefix hp hq hpq
  · exact (h.eq_of_prefix hq hp hqp).symm

/-- Words that begin a stream of words are the first of them. -/
theorem PrefixFree.prefix_of_flatten (h : PrefixFree P) {a b : List (List α)} (ha : ∀ p ∈ a, P p)
    (hb : ∀ p ∈ b, P p) (hab : a.flatten <+: b.flatten) : a <+: b := by
  induction a generalizing b with
  | nil => exact List.nil_prefix
  | cons p a ih =>
    have hp : P p := ha p List.mem_cons_self
    rw [List.flatten_cons] at hab
    cases b with
    | nil =>
      have hnil : p ++ a.flatten = [] := List.prefix_nil.mp hab
      exact absurd (List.append_eq_nil_iff.mp hnil).1 (h.ne_nil hp)
    | cons q b =>
      have hq : P q := hb q List.mem_cons_self
      rw [List.flatten_cons] at hab
      have hpq : p = q := h.eq hp hq ((List.prefix_append p _).trans hab) (List.prefix_append q _)
      subst hpq
      rw [List.prefix_append_right_inj] at hab
      rw [List.prefix_cons_inj]
      exact ih (fun r hr => ha r (List.mem_cons_of_mem _ hr)) (fun r hr => hb r (List.mem_cons_of_mem _ hr)) hab

end Yfs.Base

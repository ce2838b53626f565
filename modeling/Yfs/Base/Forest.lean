import Mathlib.Data.List.Perm.Basic

/-! Trees given by lists of children.

`kids p` lists the children of `p`; the nodes that are there are those that `has` holds
of. In a tree the root is there and is nobody's child, every child is there and is
listed once and under one parent, and every node is below the root. A leaf can be added
under a node and taken away again; what is known of the list of children it joins or
leaves is only that it is a permutation. -/
namespace Yfs.Base

variable {α : Type*}

/-- Reached from the root by going to children. -/
inductive Below (root : α) (kids : α → List α) : α → Prop where
  | root : Below root kids root
  | kid {p c : α} : Below root kids p → c ∈ kids p → Below root kids c

structure IsTree (root : α) (has : α → Prop) (kids : α → List α) : Prop where
  has_root : has root
  has_kid : ∀ p c, c ∈ kids p → has c
  kid_ne_root : ∀ p c, c ∈ kids p → c ≠ root
  nodup : ∀ p, (kids p).Nodup
  once : ∀ p q c, c ∈ kids p → c ∈ kids q → p = q
  below : ∀ c, has c → Below root kids c

namespace IsTree
variable {root p c : α} {has has' : α → Prop} {kids kids' : α → List α}

theorem has_of_below (h : IsTree root has kids) (hc : Below root kids c) : has c := by
  cases hc with
  | root => exact h.has_root
  | kid _ hk => exact h.has_kid _ _ hk

theorem congr (h : IsTree root has kids) (hhas : ∀ c, has' c ↔ has c) (hkids : ∀ p, kids' p = kids p) :
    IsTree root has' kids' := by
  obtain rfl : kids' = kids := funext hkids
  obtain rfl : has' = has := funext fun c => propext (hhas c)
  exact h

/-- A leaf is added under `p`. -/
theorem add (h : IsTree root has kids) (hasp : has p) (hc : ¬ has c) (hp : (kids' p).Perm (c :: kids p))
    (hkc : kids' c = []) (hother : ∀ q, q ≠ p → q ≠ c → kids' q = kids q)
    (hhas : ∀ x, has' x ↔ has x ∨ x = c) : IsTree root has' kids' := by
  have hcases : ∀ q x, x ∈ kids' q → x ∈ kids q ∨ q = p ∧ x = c := by
    intro q x hx
    by_cases hqp : q = p
    · rw [hqp, hp.mem_iff, List.mem_cons] at hx
      cases hx with
      | inl hx => exact .inr ⟨hqp, hx⟩
      | inr hx => rw [hqp]; exact .inl hx
    · by_cases hqc : q = c
      · rw [hqc, hkc] at hx
        cases hx
      · rw [hother q hqp hqc] at hx
        exact .inl hx
  have hkeep : ∀ q x, q ≠ c → x ∈ kids q → x ∈ kids' q := by
    intro q x hqc hx
    by_cases hqp : q = p
    · rw [hqp] at hx ⊢
      exact hp.mem_iff.mpr (List.mem_cons_of_mem _ hx)
    · rwa [hother q hqp hqc]
  have hne : ∀ x, has x → x ≠ c := fun x hx e => hc (e ▸ hx)
  have hbelow : ∀ x, Below root kids x → Below root kids' x := by
    intro x hx
    induction hx with
    | root => exact .root
    | kid hq hk ih => exact .kid ih (hkeep _ _ (hne _ (h.has_of_below hq)) hk)
  constructor
  · exact (hhas root).mpr (.inl h.has_root)
  · intro q x hx
    cases hcases q x hx with
    | inl hx => exact (hhas x).mpr (.inl (h.has_kid q x hx))
    | inr hx => exact (hhas x).mpr (.inr hx.2)
  · intro q x hx
    cases hcases q x hx with
    | inl hx => exact h.kid_ne_root q x hx
    | inr hx => rw [hx.2]; exact (hne root h.has_root).symm
  · intro q
    by_cases hqp : q = p
    · rw [hqp, hp.nodup_iff, List.nodup_cons]
      exact ⟨fun hm => hc (h.has_kid p c hm), h.nodup p⟩
    · by_cases hqc : q = c
      · rw [hqc, hkc]
        exact List.nodup_nil
      · rw [hother q hqp hqc]
        exact h.nodup q
  · intro q q' x hx hx'
    rcases hcases q x hx with hx | ⟨hq, hxc⟩ <;> rcases hcases q' x hx' with hx' | ⟨hq', hxc'⟩
    · exact h.once q q' x hx hx'
    · exact absurd (h.has_kid q x hx) (hxc' ▸ hc)
    · exact absurd (h.has_kid q' x hx') (hxc ▸ hc)
    · rw [hq, hq']
  · intro x hx
    cases (hhas x).mp hx with
    | inl hx => exact hbelow x (h.below x hx)
    | inr hx =>
      rw [hx]
      exact .kid (hbelow p (h.below p hasp)) (hp.mem_iff.mpr List.mem_cons_self)

/-- A leaf is taken away from under `p`. -/
theorem remove (h : IsTree root has kids) (hp : (kids p).Perm (c :: kids' p)) (hkc : kids c = [])
    (hkc' : kids' c = []) (hother : ∀ q, q ≠ p → q ≠ c → kids' q = kids q)
    (hhas : ∀ x, has' x ↔ has x ∧ x ≠ c) : IsTree root has' kids' := by
  have hmem : c ∈ kids p := hp.mem_iff.mpr List.mem_cons_self
  have hcp : c ≠ p := by
    intro e
    rw [← e, hkc] at hmem
    cases hmem
  have hnodup := hp.nodup_iff.mp (h.nodup p)
  have hcases : ∀ q x, x ∈ kids' q ↔ x ∈ kids q ∧ x ≠ c := by
    intro q x
    by_cases hqp : q = p
    · rw [hqp, hp.mem_iff, List.mem_cons]
      constructor
      · intro hx
        exact ⟨.inr hx, fun e => (List.nodup_cons.mp hnodup).1 (e ▸ hx)⟩
      · rintro ⟨hx | hx, hne⟩
        · exact absurd hx hne
        · exact hx
    · by_cases hqc : q = c
      · rw [hqc, hkc, hkc']
        simp
      · rw [hother q hqp hqc]
        constructor
        · exact fun hx => ⟨hx, fun e => hqp (h.once q p c (e ▸ hx) hmem)⟩
        · exact fun hx => hx.1
  have hbelow : ∀ x, Below root kids x → x ≠ c → Below root kids' x := by
    intro x hx
    induction hx with
    | root => exact fun _ => .root
    | @kid q x hq hk ih =>
      intro hx
      have hqc : q ≠ c := by
        intro e
        rw [e, hkc] at hk
        cases hk
      exact .kid (ih hqc) ((hcases _ _).mpr ⟨hk, hx⟩)
  constructor
  · exact (hhas root).mpr ⟨h.has_root, (h.kid_ne_root p c hmem).symm⟩
  · intro q x hx
    have hx := (hcases q x).mp hx
    exact (hhas x).mpr ⟨h.has_kid q x hx.1, hx.2⟩
  · exact fun q x hx => h.kid_ne_root q x ((hcases q x).mp hx).1
  · intro q
    by_cases hqp : q = p
    · rw [hqp]
      exact (List.nodup_cons.mp hnodup).2
    · by_cases hqc : q = c
      · rw [hqc, hkc']
        exact List.nodup_nil
      · rw [hother q hqp hqc]
        exact h.nodup q
  · exact fun q q' x hx hx' => h.once q q' x ((hcases q x).mp hx).1 ((hcases q' x).mp hx').1
  · intro x hx
    have hx := (hhas x).mp hx
    exact hbelow x (h.below x hx.1) hx.2

end IsTree
end Yfs.Base

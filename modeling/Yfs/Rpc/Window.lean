import Mathlib.Algebra.Group.Nat.Defs
import Mathlib.Data.List.Pairwise
import Mathlib.Data.List.TakeWhile
import Mathlib.Order.Bounds.Basic
import Yfs.Rpc.Client

/-! What the acknowledgement window holds, exactly.

`Yfs.Rpc.compress` walks over the window with the entries before the iterator in one list
and so cannot lose the iterator's own. The `std::list` of `update_xid_rep` can: every
`pop_front` takes whatever is in front, and `front() + 1` is an `unsigned int`. Here the
loop is run on the whole list, with no result where it would erase the entry its iterator
points to; on numbers below the largest `unsigned int` the two agree (`updateWindow_eq`).
Over any sequence of calls the front is then the last number up to which all have been
passed, and above it the window has what was passed and nothing else (`Window`). -/
namespace Yfs.Rpc

/-! ### The loops on the list itself -/

/-- `x + 1` on an `unsigned int`. -/
def succ32 (x : Nat) : Nat := (x + 1) % 2 ^ 32

/-- `while (xid_rep_window_.front() + 1 == *it) xid_rep_window_.pop_front()`, on the entries
before the iterator. With none left the front is the iterator's own entry, and to pop it
leaves the iterator pointing at nothing. -/
def popFronts (it : Nat) : List Nat → Option (List Nat)
  | [] => if succ32 it = it then none else some []
  | f :: q => if succ32 f = it then popFronts it q else some (f :: q)

/-- The `for` loop at `compress`, the iterator at the head of the second list. -/
def compressWindow (q : List Nat) : List Nat → Option (List Nat)
  | [] => some q
  | it :: rest => (popFronts it q).bind fun q => compressWindow (q ++ [it]) rest

/-- `update_xid_rep` on the list. An empty list has no `front()`. -/
def updateWindow (xid : Nat) : List Nat → Option (List Nat)
  | [] => none
  | f :: w =>
    if xid ≤ f then some (f :: w)
    else
      match insertXid xid (f :: w) with
      | [] => none
      | it :: rest => compressWindow [it] rest

/-- Calls of `update_xid_rep`, one after the other. -/
def updateAll (xids w : List Nat) : Option (List Nat) :=
  xids.foldlM (fun w xid => updateWindow xid w) w

/-! ### The loops never erase the iterator's entry -/

/-- Numbers to which one can be added without a wrap. -/
def Small (w : List Nat) : Prop := ∀ y ∈ w, y < 2 ^ 32 - 1

theorem succ32_of_lt {x : Nat} (h : x < 2 ^ 32 - 1) : succ32 x = x + 1 :=
  Nat.mod_eq_of_lt (by omega)

/-- A number is never its own successor, so the loop stops at the iterator. -/
theorem succ32_ne (x : Nat) : succ32 x ≠ x := by
  unfold succ32
  omega

theorem popFronts_eq {q : List Nat} (it : Nat) (h : Small q) :
    popFronts it q = some (q.dropWhile (· + 1 = it)) := by
  induction q with
  | nil => simp [popFronts, succ32_ne]
  | cons f q ih =>
    have hq : Small q := fun y hy => h y (List.mem_cons_of_mem f hy)
    rw [popFronts, succ32_of_lt (h f List.mem_cons_self), List.dropWhile_cons, ih hq]
    by_cases hf : f + 1 = it <;> simp [hf]

theorem compressWindow_eq {q rest : List Nat} (h : Small (q ++ rest)) :
    compressWindow q rest = some (compress q rest) := by
  induction rest generalizing q with
  | nil => rfl
  | cons it rest ih =>
    have hq : Small q := fun y hy => h y (List.mem_append_left _ hy)
    rw [compressWindow, popFronts_eq it hq, Option.bind_some, compress]
    apply ih
    intro y hy
    apply h y
    simp only [List.mem_append, List.mem_cons, List.not_mem_nil, or_false] at hy ⊢
    rcases hy with (hy | hy) | hy
    · exact .inl ((List.dropWhile_sublist _).subset hy)
    · exact .inr (.inl hy)
    · exact .inr (.inr hy)

/-- Where no number is the largest `unsigned int`, the list ends as the model of the client
has it. -/
theorem updateWindow_eq {xid : Nat} {w : List Nat} (hw : w ≠ []) (h : Small w)
    (hx : xid < 2 ^ 32 - 1) : updateWindow xid w = some (updateXidRep xid w) := by
  cases w with
  | nil => exact absurd rfl hw
  | cons f w =>
    have hins : Small (insertXid xid (f :: w)) := by
      intro y hy
      rcases mem_insertXid.mp hy with rfl | hy
      · exact hx
      · exact h y hy
    by_cases hle : xid ≤ f
    · simp [updateWindow, updateXidRep, front, hle]
    · cases hq : insertXid xid (f :: w) with
      | nil =>
        have hmem : xid ∈ insertXid xid (f :: w) := mem_insertXid.mpr (.inl rfl)
        rw [hq] at hmem
        exact absurd hmem List.not_mem_nil
      | cons it rest =>
        rw [hq] at hins
        simp only [updateWindow, updateXidRep, front, List.headD_cons, hle, if_false, hq]
        exact compressWindow_eq hins

/-! ### What compression leaves -/

/-- In order, and no entry follows the front directly. -/
structure Tight (w : List Nat) : Prop where
  nonempty : w ≠ []
  sorted : w.Pairwise (· ≤ ·)
  gap : front w + 1 ∉ w

theorem tight_singleton (x : Nat) : Tight [x] :=
  ⟨by simp, by simp, by simp [front]⟩

theorem front_le {w : List Nat} (h : w.Pairwise (· ≤ ·)) {y : Nat} (hy : y ∈ w) : front w ≤ y := by
  cases w with
  | nil => exact absurd hy List.not_mem_nil
  | cons f w =>
    rcases List.mem_cons.mp hy with rfl | hy
    · exact Nat.le_refl _
    · exact (List.pairwise_cons.mp h).1 y hy

theorem front_append {q : List Nat} (hq : q ≠ []) (rest : List Nat) :
    front (q ++ rest) = front q := by
  cases q with
  | nil => exact absurd rfl hq
  | cons f q => rfl

/-- One turn of the loop: an entry that follows the front empties the list before it, any
other leaves it as it is. -/
theorem Tight.turn {q : List Nat} {it : Nat} (h : Tight q) (hit : ∀ y ∈ q, y ≤ it) :
    (it = front q + 1 ∧ q.dropWhile (· + 1 = it) = []) ∨
      (it ≠ front q + 1 ∧ q.dropWhile (· + 1 = it) = q) := by
  by_cases hf : it = front q + 1
  · left
    refine ⟨hf, List.dropWhile_eq_nil_iff.mpr fun y hy => ?_⟩
    have hle := front_le h.sorted hy
    have hne : y ≠ front q + 1 := fun heq => h.gap (heq ▸ hy)
    have := hit y hy
    simp only [decide_eq_true_eq]
    omega
  · right
    refine ⟨hf, ?_⟩
    cases q with
    | nil => rfl
    | cons f q =>
      have : ¬ f + 1 = it := fun heq => hf heq.symm
      simp [this]

/-- The loop does not move the front down, leaves no entry right above it and loses none
further up. -/
theorem Tight.compress {q rest : List Nat} (h : Tight q) (hs : (q ++ rest).Pairwise (· ≤ ·)) :
    Tight (compress q rest) ∧ front q ≤ front (Rpc.compress q rest) ∧
      ∀ y ∈ q ++ rest, front (Rpc.compress q rest) < y → y ∈ Rpc.compress q rest := by
  induction rest generalizing q with
  | nil => exact ⟨h, Nat.le_refl _, fun y hy _ => by simpa [Rpc.compress] using hy⟩
  | cons it rest ih =>
    have hit : ∀ y ∈ q, y ≤ it := fun y hy =>
      (List.pairwise_append.mp hs).2.2 y hy it List.mem_cons_self
    rw [Rpc.compress]
    rcases h.turn hit with ⟨hf, hq⟩ | ⟨hf, hq⟩ <;> rw [hq]
    · -- The list before the iterator is gone: its entries lie below the new front.
      have hs' : ([it] ++ rest).Pairwise (· ≤ ·) := (List.pairwise_append.mp hs).2.1
      obtain ⟨ht, hle, hmem⟩ := ih (tight_singleton it) hs'
      have hle : it ≤ front (Rpc.compress [it] rest) := hle
      refine ⟨ht, by simp only [List.nil_append]; omega, fun y hy hlt => ?_⟩
      rcases List.mem_append.mp hy with hy | hy
      · have := hit y hy
        simp only [List.nil_append] at hlt
        omega
      · exact hmem y hy hlt
    · have hq' : Tight (q ++ [it]) := by
        refine ⟨by simp, ?_, ?_⟩
        · exact hs.sublist (by simp)
        · rw [front_append h.nonempty]
          simp only [List.mem_append, List.mem_singleton, not_or]
          exact ⟨h.gap, fun heq => hf heq.symm⟩
      obtain ⟨ht, hle, hmem⟩ := ih hq' (by simpa using hs)
      rw [front_append h.nonempty] at hle
      exact ⟨ht, hle, fun y hy => hmem y (by simpa using hy)⟩

/-! ### The window over any sequence of calls -/

/-- The window after the numbers with `P` were passed. Its front is the last number up to
which all of them were, and above the front it has those that were and no others. -/
structure Window (P : Nat → Prop) (w : List Nat) : Prop extends Acked P w where
  gap : front w + 1 ∉ w
  above : ∀ y, front w < y → P y → y ∈ w

theorem window_init : Window (fun _ => False) [0] where
  toAcked := acked_init _
  gap := by simp [front]
  above := fun _ _ h => h.elim

theorem front_insertXid {xid : Nat} {w : List Nat} (hw : w ≠ []) (hx : front w ≤ xid) :
    ∃ rest, insertXid xid w = front w :: rest := by
  cases w with
  | nil => exact absurd rfl hw
  | cons f w =>
    have : ¬ f > xid := Nat.not_lt.mpr hx
    exact ⟨insertXid xid w, by simp [insertXid, this, front]⟩

/-- One call. -/
theorem Window.update {P : Nat → Prop} {w : List Nat} {xid : Nat} (h : Window P w) (h0 : 0 < xid) :
    Window (fun y => P y ∨ y = xid) (updateXidRep xid w) := by
  have hacked : Acked (fun y => P y ∨ y = xid) (updateXidRep xid w) :=
    (h.toAcked.mono fun _ => Or.inl).update (Or.inr rfl)
  by_cases hle : xid ≤ front w
  · -- The number is below the front already, where all have been passed.
    have hup : updateXidRep xid w = w := by simp [updateXidRep, hle]
    rw [hup] at hacked ⊢
    refine ⟨hacked, h.gap, fun y hy hP => ?_⟩
    rcases hP with hP | rfl
    · exact h.above y hy hP
    · omega
  · obtain ⟨rest, hins⟩ := front_insertXid h.nonempty (by omega : front w ≤ xid)
    have hup : updateXidRep xid w = compress [front w] rest := by
      simp [updateXidRep, hle, hins]
    rw [hup] at hacked ⊢
    have hs : ([front w] ++ rest).Pairwise (· ≤ ·) := by
      rw [List.singleton_append, ← hins]
      exact insertXid_sorted h.sorted
    obtain ⟨ht, hfront, hmem⟩ := (tight_singleton (front w)).compress hs
    refine ⟨hacked, ht.gap, fun y hy hP => hmem y ?_ hy⟩
    have hfront : front w ≤ front (compress [front w] rest) := hfront
    have hyw : y = xid ∨ y ∈ w := by
      rcases hP with hP | rfl
      · exact .inr (h.above y (by omega) hP)
      · exact .inl rfl
    simpa [hins] using mem_insertXid.mpr hyw

theorem Window.small {P : Nat → Prop} {w : List Nat} (h : Window P w)
    (hP : ∀ y, P y → y < 2 ^ 32 - 1) : Small w := by
  intro y hy
  cases y with
  | zero => decide
  | succ y => exact hP _ (h.mem _ hy (Nat.succ_pos y))

/-- Any sequence of calls runs to its end. -/
theorem Window.updateAll {P : Nat → Prop} {w xids : List Nat} (h : Window P w)
    (hP : ∀ y, P y → y < 2 ^ 32 - 1) (hx : ∀ x ∈ xids, 1 ≤ x ∧ x ≤ 2 ^ 32 - 2) :
    ∃ w', updateAll xids w = some w' ∧ Window (fun y => P y ∨ y ∈ xids) w' := by
  induction xids generalizing w P with
  | nil => exact ⟨w, rfl, by simpa using h⟩
  | cons x xids ih =>
    have hx1 := hx x List.mem_cons_self
    have hstep := updateWindow_eq h.nonempty (h.small hP) (by omega : x < 2 ^ 32 - 1)
    have hP' : ∀ y, P y ∨ y = x → y < 2 ^ 32 - 1 := by
      intro y hy
      rcases hy with hy | rfl
      · exact hP y hy
      · omega
    obtain ⟨w', hrun, hw'⟩ := ih (h.update hx1.1) hP' fun y hy => hx y (List.mem_cons_of_mem x hy)
    refine ⟨w', ?_, ?_⟩
    · rw [Rpc.updateAll, List.foldlM_cons, hstep]
      exact hrun
    · simpa [or_assoc] using hw'

/-- For every sequence of calls of `update_xid_rep`, in any order and with repetitions, the
loops run to their end without erasing the entry the iterator points to; the window is in
order and not empty, its front is the largest `n` with all of `1..n` passed, and the
entries above the front are the numbers passed above `n`. -/
theorem window_exact (xids : List Nat) (hx : ∀ x ∈ xids, 1 ≤ x ∧ x ≤ 2 ^ 32 - 2) :
    ∃ w, updateAll xids [0] = some w ∧ w ≠ [] ∧ w.Pairwise (· ≤ ·) ∧
      IsGreatest {n | ∀ x, 1 ≤ x → x ≤ n → x ∈ xids} (front w) ∧
      ∀ y, front w < y → (y ∈ w ↔ y ∈ xids) := by
  obtain ⟨w, hrun, hw⟩ := window_init.updateAll (fun _ h => h.elim) hx
  refine ⟨w, hrun, hw.nonempty, hw.sorted, ⟨?_, ?_⟩, fun y hy => ⟨fun hmem => ?_, fun hp => ?_⟩⟩
  · intro x h1 hxn
    simpa using hw.below x h1 hxn
  · -- A larger `n` would have the number after the front among those passed.
    intro n hn
    by_contra hlt
    have hnext : front w + 1 ∈ xids := hn _ (by omega) (by omega)
    exact hw.gap (hw.above _ (by omega) (.inr hnext))
  · simpa using hw.mem y hmem (by omega)
  · exact hw.above y hy (.inr hp)

theorem window_exact_repeated :
    updateAll [2, 2, 4, 1, 3, 2, 6] [0] = some [4, 6] ∧
      ∃ w, updateAll [2, 2, 4, 1, 3, 2, 6] [0] = some w ∧ w ≠ [] ∧ w.Pairwise (· ≤ ·) ∧
        IsGreatest {n | ∀ x, 1 ≤ x → x ≤ n → x ∈ [2, 2, 4, 1, 3, 2, 6]} (front w) ∧
        ∀ y, front w < y → (y ∈ w ↔ y ∈ [2, 2, 4, 1, 3, 2, 6]) :=
  ⟨by decide, window_exact [2, 2, 4, 1, 3, 2, 6] (by decide)⟩

end Yfs.Rpc

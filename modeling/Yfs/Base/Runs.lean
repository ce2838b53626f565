import Mathlib.Logic.Function.Basic

/-! Runs of a machine whose moves are a partial function.

A machine is `step : σ → α → Option σ`: in state `s` the move `a` is either not
possible or leads to one state. A *run* is a list of moves (`run`), so a run on
concrete moves can be evaluated. `Steps step ok s s'` says that some run leads
from `s` to `s'` and that every move of it met `ok` in the state it was made in;
with `ok` always true these are all the runs. One rule carries every invariant
over a run (`Steps.invariant`), and one carries a run over to another machine
that follows it, by a function of the state or by a relation (`Steps.simulate`,
`Steps.simulates`). -/
namespace Yfs.Base

variable {σ τ α β : Type*}

/-- The state a list of moves leads to, if all of them are possible. -/
def run (step : σ → α → Option σ) (s : σ) : List α → Option σ
  | [] => some s
  | a :: rest => (step s a).bind fun s' => run step s' rest

/-- What a run leads to can be evaluated. -/
instance decidableExistsSome {P : σ → Prop} [DecidablePred P] (o : Option σ) : Decidable (∃ s, o = some s ∧ P s) :=
  o.decidableExistsMem

/-- Some run whose moves all met `ok`. -/
inductive Steps (step : σ → α → Option σ) (ok : σ → α → Prop) (s : σ) : σ → Prop where
  | refl : Steps step ok s s
  | tail {s' s'' : σ} {a : α} : Steps step ok s s' → ok s' a → step s' a = some s'' →
      Steps step ok s s''

def anyMove : σ → α → Prop := fun _ _ => True

instance (s : σ) (a : α) : Decidable (anyMove s a) := isTrue trivial

/-- The machine that refuses a move not meeting `ok`. -/
def guarded (step : σ → α → Option σ) (ok : σ → α → Prop) [∀ s a, Decidable (ok s a)] (s : σ) (a : α) :
    Option σ :=
  if ok s a then step s a else none

namespace Steps
variable {step : σ → α → Option σ} {ok ok' : σ → α → Prop} {s s' s'' : σ}

/-- What holds at the start and survives every move holds at the end. -/
theorem invariant {I : σ → Prop} (h : Steps step ok s s') (h₀ : I s)
    (hstep : ∀ s a s', I s → ok s a → step s a = some s' → I s') : I s' := by
  induction h with
  | refl => exact h₀
  | tail _ ha hs ih => exact hstep _ _ _ ih ha hs

theorem mono (h : Steps step ok s s') (hok : ∀ s a, ok s a → ok' s a) : Steps step ok' s s' := by
  induction h with
  | refl => exact .refl
  | tail _ ha hs ih => exact ih.tail (hok _ _ ha) hs

/-- An invariant of the run may be used to show the condition on its moves. -/
theorem mono_of_invariant {I : σ → Prop} (h : Steps step ok s s') (h₀ : I s)
    (hstep : ∀ s a s', I s → ok s a → step s a = some s' → I s')
    (hok : ∀ s a, I s → ok s a → ok' s a) : Steps step ok' s s' ∧ I s' := by
  induction h with
  | refl => exact ⟨.refl, h₀⟩
  | tail _ ha hs ih => exact ⟨ih.1.tail (hok _ _ ih.2 ha) hs, hstep _ _ _ ih.2 ha hs⟩

theorem trans (h : Steps step ok s s') (h' : Steps step ok s' s'') : Steps step ok s s'' := by
  induction h' with
  | refl => exact h
  | tail _ ha hs ih => exact ih.tail ha hs

theorem head {a : α} (ha : ok s a) (hs : step s a = some s') (h : Steps step ok s' s'') :
    Steps step ok s s'' :=
  (Steps.refl.tail ha hs).trans h

/-- A list of possible moves is a run. -/
theorem of_run [∀ s a, Decidable (ok s a)] {moves : List α}
    (h : run (guarded step ok) s moves = some s') : Steps step ok s s' := by
  induction moves generalizing s with
  | nil =>
    cases h
    exact .refl
  | cons a rest ih =>
    rw [run, Option.bind_eq_some_iff] at h
    obtain ⟨s₁, hs, hrest⟩ := h
    rw [guarded, Option.ite_none_right_eq_some] at hs
    exact .head hs.1 hs.2 (ih hrest)

/-- What a list of moves can be seen to lead to is reached. -/
theorem exists_of_run [∀ s a, Decidable (ok s a)] {P : σ → Prop} [DecidablePred P] (moves : List α)
    (h : (run (guarded step ok) s moves).any (fun s' => decide (P s')) = true) :
    ∃ s', Steps step ok s s' ∧ P s' := by
  rw [Option.any_eq_true] at h
  obtain ⟨s', hs, hP⟩ := h
  exact ⟨s', of_run hs, of_decide_eq_true hP⟩

/-- A machine that answers every move with at most one of its own follows the run. -/
theorem simulate {step' : τ → β → Option τ} {okt : τ → β → Prop} {f : σ → τ}
    (h : Steps step ok s s')
    (hsim : ∀ s a s', ok s a → step s a = some s' →
      f s' = f s ∨ ∃ b, okt (f s) b ∧ step' (f s) b = some (f s')) :
    Steps step' okt (f s) (f s') := by
  induction h with
  | refl => exact .refl
  | tail _ ha hs ih =>
    rcases hsim _ _ _ ha hs with heq | ⟨b, hb, hs'⟩
    · rwa [heq]
    · exact ih.tail hb hs'

/-- A machine that answers every move with at most one of its own follows the run, where
`R` relates the states and is kept. -/
theorem simulates {step' : τ → β → Option τ} {okt : τ → β → Prop} {R : σ → τ → Prop} {t : τ}
    (h : Steps step ok s s') (h₀ : R s t)
    (hsim : ∀ s a s' t, R s t → ok s a → step s a = some s' →
      ∃ t', R s' t' ∧ (t' = t ∨ ∃ b, okt t b ∧ step' t b = some t')) :
    ∃ t', R s' t' ∧ Steps step' okt t t' := by
  induction h with
  | refl => exact ⟨t, h₀, .refl⟩
  | tail _ ha hs ih =>
    obtain ⟨t₁, hR, hsteps⟩ := ih
    obtain ⟨t', hR', heq | ⟨b, hb, hs'⟩⟩ := hsim _ _ _ t₁ hR ha hs
    · exact ⟨t', hR', heq ▸ hsteps⟩
    · exact ⟨t', hR', hsteps.tail hb hs'⟩

end Steps

end Yfs.Base

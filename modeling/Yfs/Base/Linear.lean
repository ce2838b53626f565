import Yfs.Base.Procs

/-! Histories of calls that overlap and yet take effect one at a time.

A history is a log of requests given and values returned. It is *linear* over an object if
every request that returned took effect at one moment between the two marks, as the object
prescribes, and every other one that was given took effect at one later moment or not at
all. `Linear` builds such histories mark by mark, with the state of the object and what
each process waits for at their ends; a commit leaves no mark. An implementation of the
object may stand in its place (`Linear.refines`). -/
namespace Yfs.Base

variable {T Q α S S' : Type}

/-- What the history says of a process: it is idle, it has a request that took no effect
so far, or one that did and has not returned. -/
inductive Pending (Q α : Type) where
  | idle
  | called (q : Q)
  | done (q : Q) (a : α)

/-- A linear history, the last mark first, over an object that is in state `x₀` at the
start and takes the request `q` from `x` to `x'` with the value `a` where `spec x q a x'`
holds. -/
inductive Linear [DecidableEq T] (spec : S → Q → α → S → Prop) (x₀ : S) :
    List (Mark T Q α) → (T → Pending Q α) → S → Prop where
  | start : Linear spec x₀ [] (fun _ => .idle) x₀
  | call {log : List (Mark T Q α)} {pend : T → Pending Q α} {x : S} (t : T) (q : Q) :
      Linear spec x₀ log pend x → pend t = .idle →
      Linear spec x₀ (.called t q :: log) (Function.update pend t (.called q)) x
  | commit {log : List (Mark T Q α)} {pend : T → Pending Q α} {x x' : S} {t : T} {q : Q} {a : α} :
      Linear spec x₀ log pend x → pend t = .called q → spec x q a x' →
      Linear spec x₀ log (Function.update pend t (.done q a)) x'
  | answer {log : List (Mark T Q α)} {pend : T → Pending Q α} {x : S} {t : T} {q : Q} {a : α} :
      Linear spec x₀ log pend x → pend t = .done q a →
      Linear spec x₀ (.returned t q a :: log) (Function.update pend t .idle) x

namespace Linear
variable [DecidableEq T] {spec : S → Q → α → S → Prop} {x₀ x : S} {log : List (Mark T Q α)} {pend : T → Pending Q α}

/-- A request that is waiting was given. -/
theorem called_mem (h : Linear spec x₀ log pend x) {t : T} {q : Q} (ht : pend t = .called q) :
    Mark.called t q ∈ log := by
  induction h with
  | start => cases ht
  | call t' q' _ _ ih =>
    by_cases htt : t = t'
    · rw [htt, Function.update_self] at ht
      cases ht
      rw [htt]
      exact List.mem_cons_self
    · rw [Function.update_of_ne htt] at ht
      exact List.mem_cons_of_mem _ (ih ht)
  | @commit _ _ _ _ t' _ _ _ _ _ ih =>
    by_cases htt : t = t'
    · rw [htt, Function.update_self] at ht
      cases ht
    · rw [Function.update_of_ne htt] at ht
      exact ih ht
  | @answer _ _ _ t' _ _ _ _ ih =>
    by_cases htt : t = t'
    · rw [htt, Function.update_self] at ht
      cases ht
    · rw [Function.update_of_ne htt] at ht
      exact List.mem_cons_of_mem _ (ih ht)

/-- **An object that is refined by another has the other's histories,** where the
refinement need hold for the requests of the history only. -/
theorem refines {spec' : S' → Q → α → S' → Prop} {P : Q → Prop} {R : S → S' → Prop} {y₀ : S'}
    (h : Linear spec x₀ log pend x) (hP : ∀ t q, Mark.called t q ∈ log → P q) (h₀ : R x₀ y₀)
    (hstep : ∀ x y q a x', P q → R x y → spec x q a x' → ∃ y', spec' y q a y' ∧ R x' y') :
    ∃ y, Linear spec' y₀ log pend y ∧ R x y := by
  induction h with
  | start => exact ⟨y₀, .start, h₀⟩
  | call t q _ ht ih =>
    obtain ⟨y, hlin, hR⟩ := ih fun t' q' hm => hP t' q' (List.mem_cons_of_mem _ hm)
    exact ⟨y, hlin.call t q ht, hR⟩
  | commit hlog ht hspec ih =>
    obtain ⟨y, hlin, hR⟩ := ih hP
    obtain ⟨y', hspec', hR'⟩ := hstep _ y _ _ _ (hP _ _ (hlog.called_mem ht)) hR hspec
    exact ⟨y', hlin.commit ht hspec', hR'⟩
  | answer _ ht ih =>
    obtain ⟨y, hlin, hR⟩ := ih fun t' q' hm => hP t' q' (List.mem_cons_of_mem _ hm)
    exact ⟨y, hlin.answer ht, hR⟩

end Linear

end Yfs.Base

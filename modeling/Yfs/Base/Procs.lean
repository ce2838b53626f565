import Mathlib.Logic.Function.Basic
import Yfs.Base.Prog
import Yfs.Base.Runs

/-! Processes that run programs over one shared state.

Each process is idle or runs the program of a request. In a turn an idle process is given
a request, or a process makes the next call of its program, which the shared state
answers, or it returns. A call that the state does not answer is not made, and its
process waits. Requests given and values returned are logged.

A proof about all interleavings gives each running process a *view*, what it may know of
the shared state, and an invariant that ties the views to the state. Where every call
that a view allows leads from views to views, each program can be followed on its own,
with `Prog.Paths` over its view (`Steps.views`). A single schedule is given by a script,
which can be evaluated (`play`). -/
namespace Yfs.Base
open Function (update update_of_ne update_self)

variable {E : Type} {R : E → Type} {α γ Q T O V σ : Type}

inductive Mark (T Q α : Type) where
  | called (t : T) (q : Q)
  | returned (t : T) (q : Q) (a : α)

inductive Turn (T Q O : Type) where
  | call (t : T) (q : Q)
  /-- The next call is made; `o` is what the state does not determine of its answer. -/
  | go (t : T) (o : O)

def Turn.proc : Turn T Q O → T
  | .call t _ | .go t _ => t

structure Procs (R : E → Type) (α Q T σ : Type) where
  shared : σ
  running : T → Option (Q × Prog R α)
  /-- The last one first. -/
  log : List (Mark T Q α)

namespace Procs
variable [DecidableEq T]

/-- Every process is idle. -/
def start (x : σ) : Procs R α Q T σ := ⟨x, fun _ => none, []⟩

def begin (s : Procs R α Q T σ) (t : T) (q : Q) (p : Prog R α) : Procs R α Q T σ :=
  { s with running := update s.running t (some (q, p)), log := .called t q :: s.log }

def finish (s : Procs R α Q T σ) (t : T) (q : Q) (a : α) : Procs R α Q T σ :=
  { s with running := update s.running t none, log := .returned t q a :: s.log }

def advance (s : Procs R α Q T σ) (t : T) (q : Q) (p : Prog R α) (x : σ) : Procs R α Q T σ :=
  { s with shared := x, running := update s.running t (some (q, p)) }

variable (code : Q → Prog R α) (answer : T → O → (e : E) → σ → Option (R e × σ))

def step (s : Procs R α Q T σ) : Turn T Q O → Option (Procs R α Q T σ)
  | .call t q =>
    match s.running t with
    | none => some (s.begin t q (code q))
    | some _ => none
  | .go t o =>
    match s.running t with
    | none => none
    | some (q, .pure a) => some (s.finish t q a)
    | some (q, .op e k) => (answer t o e s.shared).map fun x => s.advance t q (k x.1) x.2

variable {code answer} {s s' : Procs R α Q T σ} {m : Turn T Q O}

theorem step_cases (h : s.step code answer m = some s') :
    (∃ t q, m = .call t q ∧ s.running t = none ∧ s' = s.begin t q (code q)) ∨
      (∃ t o q a, m = .go t o ∧ s.running t = some (q, .pure a) ∧ s' = s.finish t q a) ∨
      ∃ t o q e k r x, m = .go t o ∧ s.running t = some (q, .op e k) ∧
        answer t o e s.shared = some (r, x) ∧ s' = s.advance t q (k r) x := by
  cases m with
  | call t q =>
    rw [step] at h
    split at h
    next hidle =>
      cases h
      exact .inl ⟨t, q, rfl, hidle, rfl⟩
    next => cases h
  | go t o =>
    rw [step] at h
    split at h
    next => cases h
    next q a hrun =>
      cases h
      exact .inr (.inl ⟨t, o, q, a, rfl, hrun, rfl⟩)
    next q e k hrun =>
      obtain ⟨x, hx, rfl⟩ := Option.map_eq_some_iff.mp h
      exact .inr (.inr ⟨t, o, q, e, k, x.1, x.2, rfl, hrun, hx, rfl⟩)

theorem step_call {t : T} {q : Q} (h : s.running t = none) :
    s.step code answer (.call t q) = some (s.begin t q (code q)) := by
  simp only [step, h]

theorem step_return {t : T} {o : O} {q : Q} {a : α} (h : s.running t = some (q, .pure a)) :
    s.step code answer (.go t o) = some (s.finish t q a) := by
  simp only [step, h]

theorem step_op {t : T} {o : O} {q : Q} {e : E} {k : R e → Prog R α} {r : R e} {x : σ}
    (h : s.running t = some (q, .op e k)) (hans : answer t o e s.shared = some (r, x)) :
    s.step code answer (.go t o) = some (s.advance t q (k r) x) := by
  simp only [step, h, hans, Option.map_some]

/-! ### Scripts -/

/-- What one process does next: it is given a request, or it goes on until it is idle or
`stop` holds of its next call. -/
inductive Scene (E T Q : Type) where
  | call (t : T) (q : Q)
  | go (t : T) (stop : E → Bool)

/-- Process `t` goes on, with the answers `o`. -/
def goUntil (next : Procs R α Q T σ → Turn T Q O → Option (Procs R α Q T σ)) (t : T) (o : O) (stop : E → Bool) :
    Nat → Procs R α Q T σ → Option (Procs R α Q T σ)
  | 0, _ => none
  | fuel + 1, s =>
    match s.running t with
    | none => some s
    | some (_, .pure _) => (next s (.go t o)).bind (goUntil next t o stop fuel)
    | some (_, .op e _) => if stop e then some s else (next s (.go t o)).bind (goUntil next t o stop fuel)

/-- A schedule that can be evaluated. -/
def play (next : Procs R α Q T σ → Turn T Q O → Option (Procs R α Q T σ)) (o : O) (fuel : Nat) :
    List (Scene E T Q) → Procs R α Q T σ → Option (Procs R α Q T σ)
  | [], s => some s
  | .call t q :: rest, s => (next s (.call t q)).bind (play next o fuel rest)
  | .go t stop :: rest, s => (goUntil next t o stop fuel s).bind (play next o fuel rest)

section
variable {next : Procs R α Q T σ → Turn T Q O → Option (Procs R α Q T σ)}
  {cond : Procs R α Q T σ → Turn T Q O → Prop} [∀ s m, Decidable (cond s m)] {o : O}

omit [DecidableEq T] in
theorem goUntil_steps {t : T} {stop : E → Bool} {fuel : Nat} {s s' : Procs R α Q T σ}
    (h : goUntil (guarded next cond) t o stop fuel s = some s') : Steps next cond s s' := by
  induction fuel generalizing s with
  | zero => cases h
  | succ fuel ih =>
    have hgo : (guarded next cond s (.go t o)).bind (goUntil (guarded next cond) t o stop fuel) = some s' →
        Steps next cond s s' := by
      intro h
      obtain ⟨s₁, hs, hrest⟩ := Option.bind_eq_some_iff.mp h
      rw [guarded, Option.ite_none_right_eq_some] at hs
      exact .head hs.1 hs.2 (ih hrest)
    rw [goUntil] at h
    split at h
    · cases h
      exact .refl
    · exact hgo h
    · split at h
      · cases h
        exact .refl
      · exact hgo h

omit [DecidableEq T] in
theorem play_steps {fuel : Nat} {scenes : List (Scene E T Q)} {s s' : Procs R α Q T σ}
    (h : play (guarded next cond) o fuel scenes s = some s') : Steps next cond s s' := by
  induction scenes generalizing s with
  | nil =>
    cases h
    exact .refl
  | cons scene rest ih =>
    cases scene with
    | call t q =>
      obtain ⟨s₁, hs, hrest⟩ := Option.bind_eq_some_iff.mp h
      rw [guarded, Option.ite_none_right_eq_some] at hs
      exact .head hs.1 hs.2 (ih hrest)
    | go t stop =>
      obtain ⟨s₁, hs, hrest⟩ := Option.bind_eq_some_iff.mp h
      exact (goUntil_steps hs).trans (ih hrest)

end

/-! ### Views -/

variable {ok : Q → E → γ → V → Prop} {next : Q → (e : E) → γ → V → R e → V → Prop} {Post : Q → α → V → Prop}
  {vs : T → Option V}

/-- An idle process has no view, and a running one follows its program from its view. -/
inductive Follows (ok : Q → E → γ → V → Prop) (next : Q → (e : E) → γ → V → R e → V → Prop) (Post : Q → α → V → Prop) :
    Option (Q × Prog R α) → Option V → Prop where
  | idle : Follows ok next Post none none
  | running {q : Q} {p : Prog R α} {v : V} : Prog.Paths (ok q) (next q) p v (Post q) →
      Follows ok next Post (some (q, p)) (some v)

def Tracked (ok : Q → E → γ → V → Prop) (next : Q → (e : E) → γ → V → R e → V → Prop) (Post : Q → α → V → Prop)
    (s : Procs R α Q T σ) (vs : T → Option V) : Prop :=
  ∀ t, Follows ok next Post (s.running t) (vs t)

namespace Tracked

omit [DecidableEq T] in
theorem idle {t : T} (h : Tracked ok next Post s vs) (ht : s.running t = none) : vs t = none := by
  have := h t
  rw [ht] at this
  generalize vs t = v at this ⊢
  cases this
  rfl

omit [DecidableEq T] in
theorem path {t : T} {q : Q} {p : Prog R α} (h : Tracked ok next Post s vs) (ht : s.running t = some (q, p)) :
    ∃ v, vs t = some v ∧ Prog.Paths (ok q) (next q) p v (Post q) := by
  have := h t
  rw [ht] at this
  generalize vs t = v at this ⊢
  cases this with
  | running hp => exact ⟨_, rfl, hp⟩

theorem update {t : T} {r : Option (Q × Prog R α)} {v : Option V} (h : Tracked ok next Post s vs)
    (hrun : s'.running = Function.update s.running t r) (hr : Follows ok next Post r v) :
    Tracked ok next Post s' (Function.update vs t v) := by
  intro t'
  rw [hrun]
  by_cases heq : t' = t
  · rw [heq, update_self, update_self]
    exact hr
  · rw [update_of_ne heq, update_of_ne heq]
    exact h t'

end Tracked
end Procs

/-- **Each program is followed on its own.** -/
theorem Steps.views [DecidableEq T] {code : Q → Prog R α} {answer : T → O → (e : E) → σ → Option (R e × σ)}
    {cond : Procs R α Q T σ → Turn T Q O → Prop} {ok : Q → E → γ → V → Prop}
    {next : Q → (e : E) → γ → V → R e → V → Prop} {Post : Q → α → V → Prop}
    {I : Procs R α Q T σ → (T → Option V) → Prop} {x : σ} {s : Procs R α Q T σ}
    (h : Steps (Procs.step code answer) cond (Procs.start x) s) (hstart : I (.start x) fun _ => none)
    (hcall : ∀ s vs t q, I s vs → cond s (.call t q) → vs t = none →
      ∃ v, Prog.Paths (ok q) (next q) (code q) v (Post q) ∧ I (s.begin t q (code q)) (update vs t (some v)))
    (hreturn : ∀ s vs t o q a v, I s vs → cond s (.go t o) → vs t = some v → s.running t = some (q, .pure a) →
      Post q a v → I (s.finish t q a) (update vs t none))
    (hop : ∀ s vs t o q e k v g r y, I s vs → cond s (.go t o) → vs t = some v →
      s.running t = some (q, .op e k) → ok q e g v → answer t o e s.shared = some (r, y) →
      ∃ v', next q e g v r v' ∧ I (s.advance t q (k r) y) (update vs t (some v'))) :
    ∃ vs, I s vs ∧ Procs.Tracked ok next Post s vs := by
  induction h with
  | refl => exact ⟨_, hstart, fun _ => .idle⟩
  | tail _ hcond hstep ih =>
    obtain ⟨vs, hI, htrack⟩ := ih
    obtain ⟨t, q, rfl, hidle, rfl⟩ | ⟨t, o, q, a, rfl, hrun, rfl⟩ | ⟨t, o, q, e, k, r, y, rfl, hrun, hans, rfl⟩ :=
      Procs.step_cases hstep
    · obtain ⟨v, hp, hI'⟩ := hcall _ vs t q hI hcond (htrack.idle hidle)
      exact ⟨_, hI', htrack.update rfl (.running hp)⟩
    · obtain ⟨v, hv, hpost⟩ := htrack.path hrun
      exact ⟨_, hreturn _ vs t o q a v hI hcond hv hrun hpost, htrack.update rfl .idle⟩
    · obtain ⟨v, hv, g, hok, hk⟩ := htrack.path hrun
      obtain ⟨v', hnext, hI'⟩ := hop _ vs t o q e k v g r y hI hcond hv hrun hok hans
      exact ⟨_, hI', htrack.update rfl (.running (hk r v' hnext))⟩

end Yfs.Base

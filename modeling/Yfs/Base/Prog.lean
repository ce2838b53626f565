import Mathlib.Init

/-! Programs that call on their surroundings.

A program of type `Prog R α` returns an `α`, or makes a call `e : E` and goes on with
the answer, a value of `R e`. What the calls do is left open: a *handler* over a state
`σ` answers each call and changes the state, or lets the program go no further, and
`Prog.run` runs a program with one. `Ends h p s Q` is the statement of total
correctness: started in `s`, the program returns, and `Q` holds of the value it returns
and of the state it leaves. Its rules follow the shape of the program. `Yields` says the
same of a program that need not return, for the case that it does. `Paths` looks at
every path through a program instead, whatever the calls answer; what it tracks along a
path need not be the state, and may take choices of its own. One such path, with its
calls and answers, is `Goes`. -/
namespace Yfs.Base

/-- Returns a value, or makes a call and goes on with its answer. -/
inductive Prog {E : Type} (R : E → Type) (α : Type) : Type where
  | pure (a : α) : Prog R α
  | op (e : E) (k : R e → Prog R α) : Prog R α

namespace Prog
variable {E : Type} {R : E → Type} {α β γ σ : Type}

def bind : Prog R α → (α → Prog R β) → Prog R β
  | pure a, f => f a
  | op e k, f => op e fun r => (k r).bind f

instance : Monad (Prog R) where
  pure := .pure
  bind := .bind

/-- The program that makes one call and returns its answer. -/
def call (e : E) : Prog R (R e) := .op e .pure

/-- The value a program returns and the state it leaves, if it returns. -/
def run (h : (e : E) → σ → Option (R e × σ)) : Prog R α → σ → Option (α × σ)
  | pure a, s => some (a, s)
  | op e k, s => (h e s).bind fun x => run h (k x.1) x.2

variable {h : (e : E) → σ → Option (R e × σ)} {s : σ}

theorem run_bind (p : Prog R α) (f : α → Prog R β) (s : σ) :
    run h (p >>= f) s = (run h p s).bind fun x => run h (f x.1) x.2 := by
  change run h (p.bind f) s = _
  induction p generalizing s with
  | pure a => rfl
  | op e k ih =>
    simp only [bind, run, ih, Option.bind_assoc]

theorem run_call_bind {e : E} {f : R e → Prog R α} {r : R e} {s' : σ} (hc : h e s = some (r, s')) :
    run h (call e >>= f) s = run h (f r) s' := by
  rw [run_bind, call, run, hc]
  rfl

/-- Two handlers that answer alike, from states that are related, run a program alike. -/
theorem run_simulates {τ : Type} {h' : (e : E) → τ → Option (R e × τ)} {S : σ → τ → Prop}
    (hans : ∀ e s t r s', S s t → h e s = some (r, s') → ∃ t', h' e t = some (r, t') ∧ S s' t') {p : Prog R α}
    {t : τ} {a : α} {s' : σ} (hs : S s t) (hr : run h p s = some (a, s')) :
    ∃ t', run h' p t = some (a, t') ∧ S s' t' := by
  induction p generalizing s t with
  | pure b =>
    cases hr
    exact ⟨t, rfl, hs⟩
  | op e k ih =>
    obtain ⟨x, hx, hrest⟩ := Option.bind_eq_some_iff.mp hr
    obtain ⟨t', ht, hs'⟩ := hans e s t x.1 x.2 hs hx
    obtain ⟨t'', hrun, hend⟩ := ih x.1 hs' hrest
    refine ⟨t'', ?_, hend⟩
    rw [run, ht]
    exact hrun

theorem pure_bind (a : α) (f : α → Prog R β) : Pure.pure a >>= f = f a := rfl

theorem bind_assoc (p : Prog R α) (f : α → Prog R β) (g : β → Prog R γ) :
    p >>= f >>= g = p >>= fun a => f a >>= g := by
  change (p.bind f).bind g = p.bind fun a => (f a).bind g
  induction p with
  | pure a => rfl
  | op e k ih =>
    simp only [bind, ih]

/-! ### Total correctness -/

/-- Started in `s` the program returns, with a value and a state that satisfy `Q`. -/
def Ends (h : (e : E) → σ → Option (R e × σ)) (p : Prog R α) (s : σ) (Q : α → σ → Prop) : Prop :=
  ∃ a s', run h p s = some (a, s') ∧ Q a s'

namespace Ends
variable {Q Q' : α → σ → Prop}

protected theorem pure {a : α} (hQ : Q a s) : Ends h (Pure.pure a) s Q := ⟨a, s, rfl, hQ⟩

protected theorem call {e : E} {Q : R e → σ → Prop} {r : R e} {s' : σ} (hc : h e s = some (r, s'))
    (hQ : Q r s') : Ends h (call e) s Q := by
  refine ⟨r, s', ?_, hQ⟩
  rw [Prog.call, run, hc]
  rfl

theorem mono {p : Prog R α} (hp : Ends h p s Q) (hQ : ∀ a s', Q a s' → Q' a s') : Ends h p s Q' := by
  obtain ⟨a, s', hr, hq⟩ := hp
  exact ⟨a, s', hr, hQ a s' hq⟩

protected theorem bind {p : Prog R α} {f : α → Prog R β} {Q : β → σ → Prop}
    (hp : Ends h p s fun a s' => Ends h (f a) s' Q) : Ends h (p >>= f) s Q := by
  obtain ⟨a, s', hr, b, s'', hf, hq⟩ := hp
  refine ⟨b, s'', ?_, hq⟩
  rw [run_bind, hr]
  exact hf

end Ends

/-! ### Partial correctness -/

/-- Where the program, started in `s`, returns, its value and the state satisfy `Q`. -/
def Yields (h : (e : E) → σ → Option (R e × σ)) (p : Prog R α) (s : σ) (Q : α → σ → Prop) : Prop :=
  ∀ a s', run h p s = some (a, s') → Q a s'

namespace Yields
variable {Q Q' : α → σ → Prop}

protected theorem pure {a : α} (hQ : Q a s) : Yields h (Pure.pure a) s Q := by
  intro b s' hr
  cases hr
  exact hQ

protected theorem call {e : E} {Q : R e → σ → Prop} (hQ : ∀ r s', h e s = some (r, s') → Q r s') :
    Yields h (call e) s Q := by
  intro r s' hr
  obtain ⟨x, hx, hx'⟩ := Option.bind_eq_some_iff.mp hr
  cases hx'
  exact hQ _ _ hx

theorem of_ends {p : Prog R α} (hp : Ends h p s Q) : Yields h p s Q := by
  obtain ⟨a, s', hr, hq⟩ := hp
  intro b s'' hr'
  rw [hr] at hr'
  cases hr'
  exact hq

theorem mono {p : Prog R α} (hp : Yields h p s Q) (hQ : ∀ a s', Q a s' → Q' a s') : Yields h p s Q' :=
  fun a s' hr => hQ a s' (hp a s' hr)

protected theorem bind {p : Prog R α} {f : α → Prog R β} {Q : β → σ → Prop}
    (hp : Yields h p s fun a s' => Yields h (f a) s' Q) : Yields h (p >>= f) s Q := by
  intro b s' hr
  rw [run_bind] at hr
  obtain ⟨x, hx, hf⟩ := Option.bind_eq_some_iff.mp hr
  exact hp x.1 x.2 hx b s' hf

/-- A program that returns does what is shown of it for the case that it returns. -/
theorem and_ends {p : Prog R α} (hp : Yields h p s Q) (he : Ends h p s Q') : ∃ a s', Q a s' ∧ Q' a s' := by
  obtain ⟨a, s', hr, hq⟩ := he
  exact ⟨a, s', hp a s' hr, hq⟩

/-- What is returned last does not depend on what was done before. -/
theorem last {p : Prog R α} {f : α → Prog R β} {Q : β → σ → Prop} (hf : ∀ a s', Yields h (f a) s' Q) :
    Yields h (p >>= f) s Q :=
  .bind fun a s' _ => hf a s'

end Yields

/-! ### Every path -/

/-- On every path through the program from `s`, each call `e` is made in a state that is
`ok` for it, and `Q` holds where the program returns. A call in `s` answered by `r` leads
to any state `s'` with `next e g s r s'`, where `g` can be chosen for each call. -/
def Paths (ok : E → γ → σ → Prop) (next : (e : E) → γ → σ → R e → σ → Prop) :
    Prog R α → σ → (α → σ → Prop) → Prop
  | pure a, s, Q => Q a s
  | op e k, s, Q => ∃ g, ok e g s ∧ ∀ r s', next e g s r s' → Paths ok next (k r) s' Q

namespace Paths
variable {ok : E → γ → σ → Prop} {next : (e : E) → γ → σ → R e → σ → Prop} {Q Q' : α → σ → Prop}

protected theorem pure {a : α} (hQ : Q a s) : Paths ok next (Pure.pure a) s Q := hQ

protected theorem call {e : E} {Q : R e → σ → Prop} (g : γ) (hok : ok e g s)
    (hQ : ∀ r s', next e g s r s' → Q r s') : Paths ok next (call e) s Q := ⟨g, hok, hQ⟩

theorem mono {p : Prog R α} (hp : Paths ok next p s Q) (hQ : ∀ a s', Q a s' → Q' a s') :
    Paths ok next p s Q' := by
  induction p generalizing s with
  | pure a => exact hQ a s hp
  | op e k ih =>
    obtain ⟨g, hok, hk⟩ := hp
    exact ⟨g, hok, fun r s' hs => ih r (hk r s' hs)⟩

protected theorem bind {p : Prog R α} {f : α → Prog R β} {Q : β → σ → Prop}
    (hp : Paths ok next p s fun a s' => Paths ok next (f a) s' Q) : Paths ok next (p >>= f) s Q := by
  change Paths ok next (p.bind f) s Q
  induction p generalizing s with
  | pure a => exact hp
  | op e k ih =>
    obtain ⟨g, hok, hk⟩ := hp
    exact ⟨g, hok, fun r s' hs => ih r (hk r s' hs)⟩

end Paths

/-! ### One path -/

/-- The program makes these calls and gets these answers, and what is left of it is `p'`. -/
inductive Goes : Prog R α → List ((e : E) × R e) → Prog R α → Prop where
  | nil {p : Prog R α} : Goes p [] p
  | cons {e : E} {k : R e → Prog R α} {r : R e} {π : List ((e : E) × R e)} {p' : Prog R α} :
      Goes (k r) π p' → Goes (op e k) (⟨e, r⟩ :: π) p'

/-- A run goes along a path. -/
theorem exists_goes {p : Prog R α} {a : α} {s' : σ} (hr : run h p s = some (a, s')) : ∃ π, Goes p π (pure a) := by
  induction p generalizing s with
  | pure b =>
    cases hr
    exact ⟨[], .nil⟩
  | op e k ih =>
    obtain ⟨x, -, hrest⟩ := Option.bind_eq_some_iff.mp hr
    obtain ⟨π, hπ⟩ := ih x.1 hrest
    exact ⟨⟨e, x.1⟩ :: π, .cons hπ⟩

namespace Goes
variable {π π' : List ((e : E) × R e)} {p p' q : Prog R α}

theorem bind (hp : Goes p π p') (f : α → Prog R β) : Goes (p >>= f) π (p' >>= f) := by
  induction hp with
  | nil => exact .nil
  | cons _ ih => exact .cons ih

/-- The answers decide where a program goes. -/
theorem rest (hp : Goes p π p') (hq : Goes p (π ++ π') q) : Goes p' π' q := by
  induction hp with
  | nil => exact hq
  | cons _ ih =>
    cases hq with
    | cons hq => exact ih hq

theorem bind_cases {f : α → Prog R β} {q : Prog R β} (hq : Goes (p >>= f) π q) :
    (∃ p', Goes p π p') ∨ ∃ π₁ π₂ a, π = π₁ ++ π₂ ∧ Goes p π₁ (.pure a) ∧ Goes (f a) π₂ q := by
  induction p generalizing π with
  | pure a => exact .inr ⟨[], π, a, rfl, .nil, hq⟩
  | op e k ih =>
    cases hq with
    | nil => exact .inl ⟨_, .nil⟩
    | @cons _ _ r π _ hq =>
      obtain ⟨p', hp⟩ | ⟨π₁, π₂, a, rfl, hp, hf⟩ := ih r hq
      · exact .inl ⟨p', .cons hp⟩
      · exact .inr ⟨_, π₂, a, rfl, .cons hp, hf⟩

theorem call_cases {e : E} {f : R e → Prog R α} (hq : Goes (call e >>= f) π q) :
    (π = [] ∧ q = call e >>= f) ∨ ∃ r π', π = ⟨e, r⟩ :: π' ∧ Goes (f r) π' q := by
  cases hq with
  | nil => exact .inl ⟨rfl, rfl⟩
  | cons hq => exact .inr ⟨_, _, rfl, hq⟩

theorem call_end {e : E} {f : R e → Prog R α} {a : α} (hq : Goes (call e >>= f) π (.pure a)) :
    ∃ r π', π = ⟨e, r⟩ :: π' ∧ Goes (f r) π' (.pure a) := by
  obtain ⟨-, h⟩ | h := hq.call_cases
  · cases h
  · exact h

end Goes
end Prog
end Yfs.Base

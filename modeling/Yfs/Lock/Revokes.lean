import Yfs.Lock.Waiters

/-! The server asks for a lock once.

From the acquire that finds the lock taken until the release it asks for is executed,
the asking is in one place: a handler about to read the owner, the revoke on its way to
it, the owner's revoked flag, or its release on the way back (`Pending`). So the owner
that is read outside the server's mutex is the right one, a client's revoked flag is
never left over, and no two revokes for one lock are ever out at once (`Asked`). -/
namespace Yfs.Lock
open Base

variable {Id T : Type} [LinearOrder Id]

/-- What a move does to the server's asking, in its client's entries and its thread's
stack. -/
inductive AskMove (c a : Id) (v : ServerLock Id) (k : ClientLock) (q : Pc Id) (v' : ServerLock Id)
    (k' : ClientLock) (q' : Pc Id) : Prop where
  | quiet : v'.revoked = v.revoked → v'.lock = v.lock → v'.owner = v.owner →
      (k'.revoked = true → k.revoked = true) →
      (∀ x, q'.stage c = some x → q.stage c = some x) → AskMove c a v k q v' k' q'
  | demand : v.revoked = false → v'.lock = true → v'.owner = v.owner → v'.revoked = true → k' = k →
      q'.stage c = some .reading → AskMove c a v k q v' k' q'
  | read (dst : Id) : v' = v → v.owner = some dst → k' = k → q.stage c = some .reading →
      q'.stage c = some (.asking dst) → AskMove c a v k q v' k' q'
  | give : v' = v → k'.revoked = k.revoked → q.stage c = some (.asking a) →
      q'.stage c = some (.giving a) → AskMove c a v k q v' k' q'
  | note : v' = v → q.stage c = some (.asking a) → q'.stage c = none → AskMove c a v k q v' k' q'
  | giveBack : v' = v → k.revoked = true → k'.revoked = false → q'.stage c = some (.giving a) →
      AskMove c a v k q v' k' q'
  | serve (b : Id) : q.stage c = some (.giving b) → q'.stage c = none → v'.revoked = false → k' = k →
      AskMove c a v k q v' k' q'
  | grant : v.lock = false → v'.revoked = false → k' = k → q'.stage c = none →
      AskMove c a v k q v' k' q'

/-- A move that leaves the server's entries alone, with no asking in the mover's stack. -/
theorem AskMove.none {c a : Id} {v v' : ServerLock Id} {k k' : ClientLock} {q q' : Pc Id} (hv : v' = v)
    (hk : k'.revoked = k.revoked) (hq : q'.stage c = none) : AskMove c a v k q v' k' q' := by
  subst hv
  refine .quiet rfl rfl rfl (by rw [hk]; exact id) fun x hx => ?_
  rw [hq] at hx
  cases hx

theorem Local.ask {c a : Id} {v v' : ServerLock Id} {k k' : ClientLock} {q q' : Pc Id} {w : Wakes}
    (h : Local c a v k q w v' k' q') : AskMove c a v k q v' k' q' := by
  cases h with
  | send _ _ he | take _ _ he | block _ _ he | keep _ _ he | relBlock _ _ he =>
    subst_vars
    exact .none rfl he.revoked rfl
  | grant hq _ hl _ hv hk hq' => subst hv hk hq'; exact .grant hl rfl rfl rfl
  | already | join => subst_vars; exact .quiet rfl rfl rfl id nofun
  | demand hq _ hl _ hr _ hv hk hq' => subst hv hk hq'; exact .demand hr hl rfl rfl rfl rfl
  | readOwner dst hq ho _ hv hk hq' => subst hq hq'; exact .read dst hv ho hk rfl rfl
  | revokeFree hq _ _ _ hv hk hq' => subst hk hq hq'; exact .give hv rfl rfl rfl
  | revokeNote hq _ _ _ hv hk hq' => subst hk hq hq'; exact .note hv rfl rfl
  | revokeReply | released | revoked => subst_vars; exact .none rfl rfl rfl
  | giveBack k₀ ha he _ _ hg _ hv hk hq =>
    subst ha hk hq
    have hrev : k₀.revoked = true := (Bool.and_eq_true _ _ ▸ hg).1
    exact .giveBack hv (he.revoked ▸ hrev) rfl rfl
  | flushed | flushedRevoke => subst_vars; exact .quiet rfl rfl rfl id fun _ => id
  | serveRelease b p hr _ hp _ hv hk hq =>
    subst hv hk hq hp
    refine .serve b ?_ ?_ rfl rfl
    · rw [Pc.stage_release hr]
      rfl
    · rw [Pc.stage_release (Pc.release?_setRelease hr), retryLoop_served]
      rfl
  | retryHandler b cnt rest hr _ _ hv hk hq =>
    subst hk hq
    exact .none hv rfl (by rw [Pc.stage_release (Pc.release?_setRelease hr)]; rfl)
  | retryReply b cnt rest p hr hp _ hv hk hq =>
    subst hv hk hq hp
    refine .quiet rfl rfl rfl id fun x hx => ?_
    rw [Pc.stage_release (Pc.release?_setRelease hr), retryLoop_served] at hx
    cases hx
  | wake _ _ hv hk hq =>
    subst hv hk hq
    refine .quiet rfl rfl rfl id fun x hx => ?_
    rwa [Pc.stage_wake] at hx

inductive Asking (Id T : Type) where
  | stack (c : Id) (t : T)
  | flag (b : Id)

def Pending (s : St Id T) : Asking Id T → Prop
  | .stack c t => ∃ x, (s.pc c t).stage c = some x
  | .flag b => (s.client b).revoked = true

/-- The asking is in one place, while the server's flag is set, and it is the owner who
is asked. -/
structure Asked (s : St Id T) : Prop where
  single : ∀ x y, Pending s x → Pending s y → x = y
  revoked : ∀ x, Pending s x → s.server.revoked = true
  held : s.server.revoked = true → s.server.lock = true
  asking : ∀ c t b, (s.pc c t).stage c = some (.asking b) → s.server.owner = some b
  flag : ∀ b, (s.client b).revoked = true → s.server.owner = some b

theorem asked_init : Asked ({} : St Id T) where
  single x _ h := by cases x <;> simp [Pending, Pc.stage] at h
  revoked x h := by cases x <;> simp [Pending, Pc.stage] at h
  held := nofun
  asking := nofun
  flag := nofun

section Move
variable {s s' : St Id T} {c a : Id} {t : T} {w : Wakes}

theorem Move.stage_other (hm : Move s s' c t a w) {c' : Id} {t' : T} (hne : ¬ (c' = c ∧ t' = t)) :
    (s'.pc c' t').stage c' = (s.pc c' t').stage c' :=
  hm.threads.frame.obs (Pc.stage c') (Pc.stage_wake c') hne

/-- An asking after a move was there before it, or is where the move happened. -/
theorem Move.pending_cases (hm : Move s s' c t a w) {x : Asking Id T} (hx : Pending s' x) :
    x = .stack c t ∨ x = .flag a ∨ x ≠ .stack c t ∧ x ≠ .flag a ∧ Pending s x := by
  cases x with
  | stack c' t' =>
    by_cases hne : c' = c ∧ t' = t
    · exact .inl (by rw [hne.1, hne.2])
    · refine .inr (.inr ⟨fun he => hne ?_, nofun, ?_⟩)
      · cases he
        exact ⟨rfl, rfl⟩
      · obtain ⟨y, hy⟩ := hx
        exact ⟨y, hm.stage_other hne ▸ hy⟩
  | flag b =>
    by_cases hb : b = a
    · exact .inr (.inl (by rw [hb]))
    · refine .inr (.inr ⟨nofun, fun he => hb (Asking.flag.inj he), ?_⟩)
      exact (congrArg ClientLock.revoked (hm.clients b hb)).symm.trans hx

/-- The asking moves to `x₁`, where the recorded owner is asked. -/
theorem Asked.moved (x₁ : Asking Id T) (only : ∀ x, Pending s' x → x = x₁)
    (hr : s'.server.revoked = true) (hl : s'.server.lock = true)
    (hask : ∀ c t b, x₁ = .stack c t → (s'.pc c t).stage c = some (.asking b) → s'.server.owner = some b)
    (hflag : ∀ b, x₁ = .flag b → s'.server.owner = some b) : Asked s' where
  single x y hx hy := (only x hx).trans (only y hy).symm
  revoked _ _ := hr
  held _ := hl
  asking c t b hb := hask c t b (only (.stack c t) ⟨_, hb⟩).symm hb
  flag b hb := hflag b (only (.flag b) hb).symm

theorem Asked.nobody (none : ∀ x, ¬ Pending s' x) (hr : s'.server.revoked = false) : Asked s' where
  single x _ hx _ := absurd hx (none x)
  revoked x hx := absurd hx (none x)
  held h := by cases hr.symm.trans h
  asking c t b hb := absurd ⟨_, hb⟩ (none (.stack c t))
  flag b hb := absurd hb (none (.flag b))

/-- **Every move keeps the asking in one place.** -/
theorem Asked.move (h : Asked s) (hm : Move s s' c t a w) : Asked s' := by
  -- with the asking at `x₀` before the move, only `x₀`, the stack and the flag remain to be looked at
  have only (x₀ x₁ : Asking Id T) (h₀ : Pending s x₀) (hx₀ : x₀ = .stack c t ∨ x₀ = .flag a)
      (hstack : Pending s' (.stack c t) → .stack c t = x₁) (hflag : Pending s' (.flag a) → .flag a = x₁)
      (x : Asking Id T) (hx : Pending s' x) : x = x₁ := by
    rcases hm.pending_cases hx with rfl | rfl | ⟨hs, hf, hold⟩
    · exact hstack hx
    · exact hflag hx
    · obtain rfl := h.single _ _ hold h₀
      rcases hx₀ with he | he
      · exact absurd he hs
      · exact absurd he hf
  have held (x₀ : Asking Id T) (h₀ : Pending s x₀) : s.server.revoked = true ∧ s.server.lock = true :=
    ⟨h.revoked x₀ h₀, h.held (h.revoked x₀ h₀)⟩
  cases hm.what.ask with
  | quiet hr hl ho hk hq =>
    have old : ∀ x, Pending s' x → Pending s x := by
      intro x hx
      rcases hm.pending_cases hx with rfl | rfl | ⟨-, -, hold⟩
      · obtain ⟨y, hy⟩ := hx
        exact ⟨y, hq y hy⟩
      · exact hk hx
      · exact hold
    refine ⟨fun x y hx hy => h.single x y (old x hx) (old y hy), fun x hx => ?_, fun hx => ?_,
      fun c' t' b hb => ?_, fun b hb => ?_⟩
    · rw [hr]
      exact h.revoked x (old x hx)
    · rw [hl]
      exact h.held (hr ▸ hx)
    · rw [ho]
      by_cases hne : c' = c ∧ t' = t
      · obtain ⟨rfl, rfl⟩ := hne
        exact h.asking c' t' b (hq _ hb)
      · exact h.asking c' t' b (hm.stage_other hne ▸ hb)
    · rw [ho]
      exact h.flag b (old (.flag b) hb)
  | demand hr hl ho hr' hk hq' =>
    have fresh : ∀ x, ¬ Pending s x := fun x hx => by cases hr.symm.trans (h.revoked x hx)
    refine .moved (.stack c t) (fun x hx => ?_) hr' hl (fun c' t' b he hb => ?_) nofun
    · rcases hm.pending_cases hx with rfl | rfl | ⟨-, -, hold⟩
      · rfl
      · exact absurd ((congrArg ClientLock.revoked hk).symm.trans hx) (fresh (.flag a))
      · exact absurd hold (fresh x)
    · cases he
      cases hq'.symm.trans hb
  | read dst hv ho hk hq hq' =>
    have here : Pending s (.stack c t) := ⟨_, hq⟩
    obtain ⟨hr, hl⟩ := held _ here
    rw [← hv] at hr hl ho
    refine .moved (.stack c t) (only _ _ here (.inl rfl) (fun _ => rfl) fun hf => ?_) hr hl
      (fun c' t' b he hb => ?_) nofun
    · exact h.single (.flag a) _ ((congrArg ClientLock.revoked hk).symm.trans hf) here
    · cases he
      cases hq'.symm.trans hb
      exact ho
  | give hv hk hq hq' =>
    have here : Pending s (.stack c t) := ⟨_, hq⟩
    obtain ⟨hr, hl⟩ := held _ here
    rw [← hv] at hr hl
    refine .moved (.stack c t) (only _ _ here (.inl rfl) (fun _ => rfl) fun hf => ?_) hr hl
      (fun c' t' b he hb => ?_) nofun
    · exact h.single (.flag a) _ (hk.symm.trans hf) here
    · cases he
      cases hq'.symm.trans hb
  | note hv hq hq' =>
    have here : Pending s (.stack c t) := ⟨_, hq⟩
    have ho := h.asking c t a hq
    obtain ⟨hr, hl⟩ := held _ here
    rw [← hv] at hr hl ho
    refine .moved (.flag a) (only _ _ here (.inl rfl) (fun hs => ?_) fun _ => rfl) hr hl nofun ?_
    · obtain ⟨x, hx⟩ := hs
      cases hq'.symm.trans hx
    · intro b he
      rw [ho, Asking.flag.inj he]
  | giveBack hv hk hk' hq' =>
    have here : Pending s (.flag a) := hk
    obtain ⟨hr, hl⟩ := held _ here
    rw [← hv] at hr hl
    refine .moved (.stack c t) (only _ _ here (.inr rfl) (fun _ => rfl) fun hf => ?_) hr hl
      (fun c' t' b he hb => ?_) nofun
    · cases hk'.symm.trans hf
    · cases he
      cases hq'.symm.trans hb
  | serve b hq hq' hr' hk =>
    have here : Pending s (.stack c t) := ⟨_, hq⟩
    refine .nobody (fun x hx => ?_) hr'
    rcases hm.pending_cases hx with rfl | rfl | ⟨hs, -, hold⟩
    · obtain ⟨y, hy⟩ := hx
      cases hq'.symm.trans hy
    · cases h.single (.flag a) _ ((congrArg ClientLock.revoked hk).symm.trans hx) here
    · exact hs (h.single _ _ hold here)
  | grant hl hr' hk hq' =>
    have fresh : ∀ x, ¬ Pending s x := by
      intro x hx
      cases hl.symm.trans (held x hx).2
    refine .nobody (fun x hx => ?_) hr'
    rcases hm.pending_cases hx with rfl | rfl | ⟨-, -, hold⟩
    · obtain ⟨y, hy⟩ := hx
      cases hq'.symm.trans hy
    · exact fresh (.flag a) ((congrArg ClientLock.revoked hk).symm.trans hx)
    · exact fresh x hold

end Move

theorem asked_of_steps [DecidableEq T] [Fintype T] {ok : St Id T → Act Id T → Prop} {s : St Id T}
    (h : Steps Lock.step ok {} s) : Asked s :=
  h.invariant asked_init fun s x s' hs _ hstep => by
    obtain ⟨a, w, hm⟩ := step_move hstep
    exact hs.move hm

end Yfs.Lock

import Yfs.Lock.Moves

/-! Ownership of a lock is in one place.

A granted lock is somewhere: the grant is on its way back to the client, the client
caches it (FREE or LOCKED), or the client's release is on its way to the server.
`Owned` says that it is in at most one of these places and belongs to the client the
server records, `Owned.move` that every move keeps it so: a move leaves it where it
is, carries it to the next place, creates it at a server that had none, or destroys
it there (`Local.token`). At most one, not exactly one: a client can drop a grant. -/
namespace Yfs.Lock
open Base

variable {Id T : Type} {c a : Id} {k k' k₀ : ClientLock} {q q' : Pc Id} {w : Wakes}

def RelPhase.unserved : RelPhase Id → Bool
  | .dorelease | .request => true
  | _ => false

def Status.caches : Status → Bool
  | .free | .locked => true
  | _ => false

/-- The client whose ownership a thread's stack carries: a grant on its way back, or a
release the server has not executed. -/
def Pc.token (c : Id) : Pc Id → Option Id
  | .acqRpc (.reply .ok) => some c
  | .acqRpc (.revoking dst p) => if p.unserved then some dst else none
  | .relRpc p => if p.unserved then some c else none
  | _ => none

theorem Pc.token_wake (c : Id) (p : Pc Id) : p.wake.token c = p.token c := by
  cases p <;> rfl

theorem Pc.token_release {p : Pc Id} {q : RelPhase Id}
    (h : p.release? c = some (a, q)) : p.token c = if q.unserved then some a else none := by
  rcases Pc.release?_eq_some.mp h with ⟨rfl, rfl⟩ | rfl <;> rfl

theorem Pc.token_setRelease {p : Pc Id} {q q' : RelPhase Id}
    (h : p.release? c = some (a, q)) :
    (p.setRelease q').token c = if q'.unserved then some a else none := by
  rcases Pc.release?_eq_some.mp h with ⟨rfl, rfl⟩ | rfl <;> rfl

theorem retryLoop_served (cnt : Nat) (l : List Id) : (retryLoop cnt l).unserved = false := by
  unfold retryLoop
  split
  · rfl
  · split <;> rfl

section Tokens
variable [LinearOrder Id] {v v' : ServerLock Id}

/-- What a move does to ownership at its client's entries and in its thread's stack. -/
inductive TokenMove (c a : Id) (v : ServerLock Id) (k : ClientLock) (q : Pc Id)
    (v' : ServerLock Id) (k' : ClientLock) (q' : Pc Id) : Prop where
  | stay : v'.lock = v.lock → v'.owner = v.owner → (k'.status.caches = true → k.status.caches = true) →
      (∀ b, q'.token c = some b → q.token c = some b) → TokenMove c a v k q v' k' q'
  | toCache : v'.lock = v.lock → v'.owner = v.owner → q.token c = some a → q'.token c = none →
      TokenMove c a v k q v' k' q'
  | toRpc : v'.lock = v.lock → v'.owner = v.owner → k.status.caches = true →
      k'.status.caches = false → q'.token c = some a → TokenMove c a v k q v' k' q'
  | create : v.lock = false → v'.lock = true → v'.owner = some c → q'.token c = some c → k' = k →
      TokenMove c a v k q v' k' q'
  | destroy (b : Id) : q.token c = some b → q'.token c = none → v'.lock = false →
      v'.owner = none → k' = k → TokenMove c a v k q v' k' q'

theorem TokenMove.quiet (hl : v'.lock = v.lock) (ho : v'.owner = v.owner) (hk : k'.status = k.status)
    (hq : ∀ b, q'.token c = some b → q.token c = some b) : TokenMove c a v k q v' k' q' :=
  .stay hl ho (by rw [hk]; exact id) hq

theorem Local.token (h : Local c a v k q w v' k' q') : TokenMove c a v k q v' k' q' := by
  cases h with
  | send | released => subst_vars; exact .stay rfl rfl nofun nofun
  | take k₀ ha he _ hs _ hv hk hq =>
    subst ha hv hk hq
    cases he with
    | call _ hk => subst hk; exact .stay rfl rfl (fun _ => by rw [hs]; rfl) nofun
    | woken _ hk => subst hk; exact .stay rfl rfl (fun _ => by rw [show k.status = .free from hs]; rfl) nofun
    | reply r hq hk =>
      subst hk
      by_cases hr : r = .ok ∧ k.status = .acquiring
      · rw [hq, hr.1]
        exact .toCache rfl rfl rfl rfl
      · rw [granted, if_neg hr] at hs
        exact .stay rfl rfl (fun _ => by rw [hs]; rfl) nofun
  | block k₀ _ he _ hs _ hv hk hq =>
    subst hv hk hq
    refine .stay rfl rfl (fun h => ?_) nofun
    cases he with
    | call _ hk => subst hk; exact h
    | woken _ hk => subst hk; exact h
    | reply r _ hk =>
      subst hk
      unfold granted at h hs
      split at h
      · rename_i hr
        rw [if_pos hr] at hs
        rcases hs with hs | hs | hs
        · cases hs
        · cases hs
        · cases hs.1
      · exact h
  | grant hq hm hl _ hv hk hq' => subst hv hk hq'; exact .create hl rfl rfl rfl rfl
  | already | join | demand | readOwner | revokeNote | revokeReply | revoked =>
    subst_vars
    exact .quiet rfl rfl rfl nofun
  | revokeFree hq _ hs _ hv hk hq' =>
    subst hv hk hq'
    exact .toRpc rfl rfl (by rw [hs]; rfl) rfl rfl
  | giveBack k₀ ha he _ hs _ _ hv hk hq =>
    subst ha hv hk hq
    have hs : k.status = .locked := by cases he <;> simp_all
    exact .toRpc rfl rfl (by rw [hs]; rfl) rfl rfl
  | keep k₀ _ he _ hs _ _ hv hk hq =>
    subst hv hk hq
    have hs : k.status = .locked := by cases he <;> simp_all
    exact .stay rfl rfl (fun _ => by rw [hs]; rfl) nofun
  | relBlock k₀ _ he _ hs _ hv hk hq =>
    subst hv hk hq
    exact .quiet rfl rfl (by cases he <;> simp_all) nofun
  | flushed | flushedRevoke => subst_vars; exact .quiet rfl rfl rfl fun _ h => h
  | serveRelease b p hq _ hp _ hv hk hq' =>
    subst hv hk hq' hp
    refine .destroy b ?_ ?_ rfl rfl rfl
    · rw [Pc.token_release hq]
      rfl
    · rw [Pc.token_setRelease hq, retryLoop_served]
      rfl
  | retryHandler b cnt rest hq _ _ hv hk hq' =>
    subst hv hk hq'
    exact .quiet rfl rfl rfl (by rw [Pc.token_setRelease hq]; exact nofun)
  | retryReply b cnt rest p hq hp _ hv hk hq' =>
    subst hv hk hq' hp
    exact .quiet rfl rfl rfl (by rw [Pc.token_setRelease hq, retryLoop_served]; exact nofun)
  | wake hb _ hv hk hq =>
    subst hv hk hq
    exact .quiet rfl rfl rfl (by rw [Pc.token_wake]; exact fun _ h => h)

/-- Where ownership can be: cached at a client, or carried by a thread's stack. -/
inductive Place (Id T : Type) where
  | cache (a : Id)
  | rpc (c : Id) (t : T)

/-- The client whose ownership is at `x`. -/
def St.at (s : St Id T) : Place Id T → Option Id
  | .cache a => if (s.client a).status.caches then some a else none
  | .rpc c t => (s.pc c t).token c

/-- Ownership is in at most one place, and it is the recorded owner's. -/
structure Owned (s : St Id T) : Prop where
  lock : s.server.lock = s.server.owner.isSome
  owner : ∀ x a, s.at x = some a → s.server.owner = some a
  single : ∀ x x' a a', s.at x = some a → s.at x' = some a' → x = x'

theorem at_cache {s : St Id T} (h : (s.client a).status.caches = true) :
    s.at (.cache a) = some a := if_pos h

theorem Owned.of_only {s : St Id T} {x : Place Id T}
    (hl : s.server.lock = s.server.owner.isSome) (ho : s.server.owner = some a)
    (only : ∀ y b, s.at y = some b → y = x ∧ b = a) : Owned s := by
  refine ⟨hl, fun y b hy => ?_, fun y y' b b' hy hy' => ?_⟩
  · rw [ho, (only y b hy).2]
  · rw [(only y b hy).1, (only y' b' hy').1]

theorem Move.at_other {s s' : St Id T} {t : T} (h : Move s s' c t a w)
    {x : Place Id T} (hr : x ≠ .rpc c t) (hc : x ≠ .cache a) : s'.at x = s.at x := by
  cases x with
  | cache b =>
    have hb : b ≠ a := fun he => hc (by rw [he])
    simp only [St.at, h.clients b hb]
  | rpc c' t' =>
    have hne : ¬ (c' = c ∧ t' = t) := fun he => hr (by rw [he.1, he.2])
    exact h.threads.frame.obs (Pc.token c') (Pc.token_wake c') hne

/-- What is somewhere after a move was there before it, or is where the move happened. -/
theorem Move.at_cases {s s' : St Id T} {t : T} (h : Move s s' c t a w)
    {x : Place Id T} {b : Id} (hx : s'.at x = some b) :
    (x = .rpc c t ∧ (s'.pc c t).token c = some b) ∨
      (x = .cache a ∧ (s'.client a).status.caches = true ∧ b = a) ∨
      (x ≠ .rpc c t ∧ x ≠ .cache a ∧ s.at x = some b) := by
  by_cases hr : x = .rpc c t
  · subst hr
    exact .inl ⟨rfl, hx⟩
  by_cases hc : x = .cache a
  · subst hc
    obtain ⟨hs, hb⟩ := Option.ite_none_right_eq_some.mp hx
    exact .inr (.inl ⟨rfl, hs, (Option.some.inj hb).symm⟩)
  · exact .inr (.inr ⟨hr, hc, h.at_other hr hc ▸ hx⟩)

/-- **Every move keeps ownership in at most one place.** -/
theorem Owned.move {s s' : St Id T} {t : T} (h : Owned s)
    (hm : Move s s' c t a w) : Owned s' := by
  cases hm.what.token with
  | stay hl ho hk hq =>
    have old : ∀ x b, s'.at x = some b → s.at x = some b := by
      intro x b hx
      rcases hm.at_cases hx with ⟨rfl, hx⟩ | ⟨rfl, hs, rfl⟩ | ⟨-, -, hx⟩
      · exact hq b hx
      · exact at_cache (hk hs)
      · exact hx
    refine ⟨by rw [hl, ho, h.lock], fun x b hx => ?_, fun x x' b b' hx hx' => ?_⟩
    · rw [ho]
      exact h.owner x b (old x b hx)
    · exact h.single x x' b b' (old x b hx) (old x' b' hx')
  | toCache hl ho hq hq' =>
    have here : s.at (.rpc c t) = some a := hq
    have new : ∀ x b, s'.at x = some b → x = .cache a ∧ b = a := by
      intro x b hx
      rcases hm.at_cases hx with ⟨-, hx⟩ | ⟨hx, -, hb⟩ | ⟨hne, -, hx⟩
      · rw [hq'] at hx
        cases hx
      · exact ⟨hx, hb⟩
      · exact absurd (h.single x _ b a hx here) hne
    exact .of_only (by rw [hl, ho, h.lock]) (ho.trans (h.owner _ a here)) new
  | toRpc hl ho hk hk' hq' =>
    have here : s.at (.cache a) = some a := at_cache hk
    have new : ∀ x b, s'.at x = some b → x = .rpc c t ∧ b = a := by
      intro x b hx
      rcases hm.at_cases hx with ⟨he, hb⟩ | ⟨-, hs, -⟩ | ⟨-, hne, hx⟩
      · rw [hq'] at hb
        exact ⟨he, (Option.some.inj hb).symm⟩
      · rw [hk'] at hs
        cases hs
      · exact absurd (h.single x _ b a hx here) hne
    exact .of_only (by rw [hl, ho, h.lock]) (ho.trans (h.owner _ a here)) new
  | create hl hl' ho' hq' hk =>
    have nowhere : ∀ x b, s.at x ≠ some b := by
      intro x b hx
      rw [h.lock, h.owner x b hx] at hl
      cases hl
    have new : ∀ x b, s'.at x = some b → x = .rpc c t ∧ b = c := by
      intro x b hx
      rcases hm.at_cases hx with ⟨he, hb⟩ | ⟨-, hs, -⟩ | ⟨-, -, hx⟩
      · rw [hq'] at hb
        exact ⟨he, (Option.some.inj hb).symm⟩
      · rw [hk] at hs
        exact absurd (at_cache hs) (nowhere _ _)
      · exact absurd hx (nowhere x b)
    exact .of_only (by rw [hl', ho']; rfl) ho' new
  | destroy b hq hq' hl' ho' hk =>
    have here : s.at (.rpc c t) = some b := hq
    have nowhere : ∀ x d, s'.at x ≠ some d := by
      intro x d hx
      rcases hm.at_cases hx with ⟨-, hx⟩ | ⟨-, hs, -⟩ | ⟨hne, -, hx⟩
      · rw [hq'] at hx
        cases hx
      · rw [hk] at hs
        cases h.single _ _ _ _ (at_cache hs) here
      · exact absurd (h.single x _ d b hx here) hne
    exact ⟨by rw [hl', ho']; rfl, fun x d hx => absurd hx (nowhere x d),
      fun x _ d _ hx _ => absurd hx (nowhere x d)⟩

end Tokens

/-! ### Releases the server has not executed -/

/-- The client whose release a thread's stack carries while the server has not executed
it, and whether the request was sent. -/
def Pc.giving (c : Id) (q : Pc Id) : Option (Id × Bool) :=
  match q.release? c with
  | some (a, .dorelease) => some (a, false)
  | some (a, .request) => some (a, true)
  | _ => none

theorem Pc.giving_wake (c : Id) (q : Pc Id) : q.wake.giving c = q.giving c := by
  cases q <;> rfl

theorem Pc.release_of_giving {sent : Bool} (h : q.giving c = some (a, sent)) :
    ∃ p, q.release? c = some (a, p) := by
  unfold Pc.giving at h
  split at h
  · rename_i hq
    cases h
    exact ⟨_, hq⟩
  · rename_i hq
    cases h
    exact ⟨_, hq⟩
  · cases h

theorem Pc.giving_served {p : RelPhase Id} (h : q.release? c = some (a, p))
    (hp : p.unserved = false) : q.giving c = none := by
  unfold Pc.giving
  rw [h]
  cases p <;> first | rfl | cases hp

theorem Pc.release?_setRelease {p p' : RelPhase Id}
    (h : q.release? c = some (a, p)) : (q.setRelease p').release? c = some (a, p') := by
  rcases Pc.release?_eq_some.mp h with ⟨rfl, rfl⟩ | rfl <;> rfl

/-- What a move does to the releases the server has not executed: it starts one from a
client that has the lock cached, sends its request, executes it, or none of these. -/
inductive GivingMove [LinearOrder Id] (c a : Id) (v : ServerLock Id) (k : ClientLock) (q : Pc Id)
    (v' : ServerLock Id) (q' : Pc Id) : Prop where
  | quiet : v'.lock = v.lock → v'.owner = v.owner → q'.giving c = q.giving c →
      GivingMove c a v k q v' q'
  | start : v'.lock = v.lock → v'.owner = v.owner → k.status.caches = true → q.giving c = none →
      q'.giving c = some (a, false) → GivingMove c a v k q v' q'
  | send (d : Id) : v'.lock = v.lock → v'.owner = v.owner → q.giving c = some (d, false) →
      q'.giving c = some (d, true) → GivingMove c a v k q v' q'
  | serve (d : Id) : v'.lock = false → v'.owner = none → q.giving c = some (d, true) →
      q'.giving c = none → GivingMove c a v k q v' q'
  | grant : v.lock = false → v'.lock = true → v'.owner = some c → q.giving c = none →
      q'.giving c = none → GivingMove c a v k q v' q'

theorem Entry.giving (h : Entry k q k₀) (c : Id) : q.giving c = none := by
  cases h with
  | call hq _ => rw [hq]; rfl
  | woken hq _ => rw [hq]; rfl
  | reply r hq _ => rw [hq]; rfl

theorem Exit.giving (h : Exit k q k₀) (c : Id) : q.giving c = none := by
  cases h with
  | call hq _ => rw [hq]; rfl
  | woken hq _ => rw [hq]; rfl

theorem Exit.status (h : Exit k q k₀) : k₀.status = k.status := by
  cases h with
  | call _ hk => rw [hk]
  | woken _ hk => rw [hk]

variable [LinearOrder Id] {v v' : ServerLock Id}

theorem Local.giving (h : Local c a v k q w v' k' q') : GivingMove c a v k q v' q' := by
  cases h with
  | send _ _ he | take _ _ he | block _ _ he | keep _ _ he | relBlock _ _ he =>
    subst_vars
    exact .quiet rfl rfl (he.giving _).symm
  | grant hq _ hl _ hv _ hq' => subst hv hq hq'; exact .grant hl rfl rfl rfl rfl
  | already | join | demand | readOwner | revokeNote | revokeReply | released | revoked =>
    subst_vars
    exact .quiet rfl rfl rfl
  | revokeFree hq _ hs _ hv _ hq' =>
    subst hv hq hq'
    exact .start rfl rfl (by rw [hs]; rfl) rfl rfl
  | giveBack k₀ ha he _ hs _ _ hv _ hq =>
    subst ha hv hq
    exact .start rfl rfl (by rw [← he.status, hs]; rfl) (he.giving _) rfl
  | flushed | flushedRevoke => subst_vars; exact .send a rfl rfl rfl rfl
  | serveRelease b p hr _ hp _ hv _ hq =>
    subst hv hq hp
    refine .serve b rfl rfl ?_ ?_
    · rw [Pc.giving, hr]
    · exact Pc.giving_served (Pc.release?_setRelease hr) (retryLoop_served _ _)
  | retryHandler b cnt rest hr _ _ hv _ hq =>
    subst hv hq
    refine .quiet rfl rfl ?_
    rw [Pc.giving_served hr rfl, Pc.giving_served (Pc.release?_setRelease hr) rfl]
  | retryReply b cnt rest p hr hp _ hv _ hq =>
    subst hv hq hp
    refine .quiet rfl rfl ?_
    rw [Pc.giving_served hr rfl, Pc.giving_served (Pc.release?_setRelease hr) (retryLoop_served _ _)]
  | wake _ _ hv _ hq =>
    subst hv hq
    exact .quiet rfl rfl (q.giving_wake c)

end Yfs.Lock

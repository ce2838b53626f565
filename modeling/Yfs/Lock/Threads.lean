import Yfs.Lock.Ownership

/-! Where the threads are, and what their client's entries say.

A thread between `acquire` and `release` is the only one and the status is LOCKED; a
thread in the RPC of `release` is the only one and the status is RELEASING
(`Threads`). A client's mutex that is held across a call is held by one stack: a flush
in `release`, or a revoke handler, and under the latter the status stays NONE
(`Mutexes`). Neither looks at the server, so both are kept by a move of any lock id
that uses the client's entries (`Touch`). With `Owned` they make a state `Safe`. -/
namespace Yfs.Lock
open Base

variable {Id T : Type} {c a : Id} {k k' k₀ : ClientLock} {q q' : Pc Id} {w : Wakes}

/-! ### Threads and the status of their client -/

/-- The status a thread keeps its client's entry at. -/
def Pc.pins : Pc Id → Option Status
  | .holding => some .locked
  | .relRpc _ => some .releasing
  | _ => none

def Status.pinned : Status → Bool
  | .locked | .releasing => true
  | _ => false

theorem Pc.pins_wake (p : Pc Id) : p.wake.pins = p.pins := by
  cases p <;> rfl

theorem Pc.pins_pinned {p : Pc Id} {st : Status} (h : p.pins = some st) : st.pinned = true := by
  cases p <;> cases h <;> rfl

theorem Pc.pins_setRelease (p : RelPhase Id) (q : Pc Id) : (q.setRelease p).pins = q.pins := by
  cases q with
  | acqRpc r => cases r <;> rfl
  | _ => rfl

/-- In `pthread_cond_wait` of `release`. -/
def Pc.inRelWait : Pc Id → Bool
  | .relWait _ => true
  | _ => false

theorem Pc.inRelWait_wake (p : Pc Id) : p.wake.inRelWait = p.inRelWait := by
  cases p <;> rfl

/-- A thread that holds the lock or is releasing it is the only one, and the status of
its client is LOCKED or RELEASING; so `release` never waits. -/
structure Threads [LinearOrder Id] (s : St Id T) : Prop where
  pinned : ∀ c t st, (s.pc c t).pins = some st → (s.client c).status = st
  single : ∀ c t t' st st', (s.pc c t).pins = some st → (s.pc c t').pins = some st' → t = t'
  noWait : ∀ c t, (s.pc c t).inRelWait = false

/-- What a move does to a status and to the thread that pins it. -/
inductive PinMove (c a : Id) (k : ClientLock) (q : Pc Id) (k' : ClientLock) (q' : Pc Id) : Prop where
  | same : k'.status = k.status → q'.pins = q.pins → PinMove c a k q k' q'
  | change : k.status.pinned = false ∨ a = c ∧ q.pins ≠ none →
      q'.pins = none ∨ a = c ∧ q'.pins = some k'.status → PinMove c a k q k' q'

theorem Entry.pins (h : Entry k q k₀) : q.pins = none := by
  cases h with
  | call hq _ => rw [hq]; rfl
  | woken hq _ => rw [hq]; rfl
  | reply r hq _ => rw [hq]; rfl

/-- Only a grant changes the status on the way to `CHECK_AGAIN`. -/
theorem Entry.status (h : Entry k q k₀) :
    k₀.status = k.status ∨ q = .acqRpc (.reply .ok) ∧ k.status = .acquiring ∧ k₀.status = .free := by
  cases h with
  | call _ hk => rw [hk]; exact .inl rfl
  | woken _ hk => rw [hk]; exact .inl rfl
  | reply r hq hk =>
    subst hk
    unfold granted
    split
    · rename_i hr
      exact .inr ⟨by rw [hq, hr.1], hr.2, rfl⟩
    · exact .inl rfl

theorem Exit.call_of_not_wait (h : Exit k q k₀)
    (hw : q.inRelWait = false) : q = .holding ∧ k₀ = k := by
  cases h with
  | call hq hk => exact ⟨hq, hk⟩
  | woken hq _ =>
    subst hq
    cases hw

section Pins
variable [LinearOrder Id] {v v' : ServerLock Id}

/-- `release` is called with the status LOCKED, so it does not wait. -/
theorem Local.pins (h : Local c a v k q w v' k' q') (hw : q.inRelWait = false)
    (hl : a = c → q = .holding → k.status = .locked) :
    PinMove c a k q k' q' ∧ q'.inRelWait = false := by
  cases h with
  | send k₀ _ he _ hs _ _ hk hq' =>
    subst hk hq'
    refine ⟨.change (.inl ?_) (.inl rfl), rfl⟩
    rcases he.status with h | ⟨-, -, h⟩
    · rw [← h]
      rcases hs with hs | ⟨hs, -⟩ <;> rw [hs] <;> rfl
    · rw [h] at hs
      rcases hs with hs | ⟨hs, -⟩ <;> cases hs
  | take k₀ ha he _ hs _ _ hk hq' =>
    subst hk hq'
    refine ⟨.change (.inl ?_) (.inr ⟨ha, rfl⟩), rfl⟩
    rcases he.status with h | ⟨-, h, -⟩
    · rw [← h, hs]
      rfl
    · rw [h]
      rfl
  | block k₀ _ he _ hs _ _ hk hq' =>
    subst hk hq'
    refine ⟨.same ?_ he.pins.symm, rfl⟩
    rcases he.status with h | ⟨-, -, h⟩
    · exact h
    · rw [h] at hs
      rcases hs with hs | hs | ⟨hs, -⟩ <;> cases hs
  | grant | already | join | demand | readOwner | revokeNote | revokeReply | flushed | flushedRevoke
  | revoked => subst_vars; exact ⟨.same rfl rfl, rfl⟩
  | revokeFree hq _ hs _ _ hk hq' =>
    subst hk hq'
    exact ⟨.change (.inl (by rw [hs]; rfl)) (.inl rfl), rfl⟩
  | giveBack k₀ ha he _ _ _ _ _ hk hq' =>
    obtain ⟨rfl, rfl⟩ := he.call_of_not_wait hw
    subst hk hq'
    exact ⟨.change (.inr ⟨ha, nofun⟩) (.inr ⟨ha, rfl⟩), rfl⟩
  | keep k₀ ha he _ _ _ _ _ hk hq' =>
    obtain ⟨rfl, rfl⟩ := he.call_of_not_wait hw
    subst hk hq'
    exact ⟨.change (.inr ⟨ha, nofun⟩) (.inl rfl), rfl⟩
  | relBlock k₀ ha he _ hs _ _ hk hq' =>
    obtain ⟨rfl, rfl⟩ := he.call_of_not_wait hw
    rw [hl ha rfl] at hs
    cases hs
  | serveRelease b p hr _ _ _ _ hk hq' =>
    subst hk hq'
    refine ⟨.same rfl (q.pins_setRelease p), ?_⟩
    rcases Pc.release?_eq_some.mp hr with ⟨rfl, -⟩ | rfl <;> rfl
  | retryHandler b cnt rest hr _ _ _ hk hq' =>
    subst hk hq'
    refine ⟨.same rfl (q.pins_setRelease _), ?_⟩
    rcases Pc.release?_eq_some.mp hr with ⟨rfl, -⟩ | rfl <;> rfl
  | retryReply b cnt rest p hr _ _ _ hk hq' =>
    subst hk hq'
    refine ⟨.same rfl (q.pins_setRelease p), ?_⟩
    rcases Pc.release?_eq_some.mp hr with ⟨rfl, -⟩ | rfl <;> rfl
  | released ha hq _ _ _ hk hq' =>
    subst hk hq hq'
    exact ⟨.change (.inr ⟨ha, nofun⟩) (.inl rfl), rfl⟩
  | wake _ _ _ hk hq' =>
    subst hk hq'
    exact ⟨.same rfl q.pins_wake, by rw [q.inRelWait_wake, hw]⟩

/-- A pinning thread after a move pinned before it, or made the move. -/
theorem Touch.pins_cases {s s' : St Id T} {c' : Id} {t t' : T} {st : Status}
    (hm : Touch s s' c t a) (h : (s'.pc c' t').pins = some st) :
    (c' = c ∧ t' = t) ∨ (s.pc c' t').pins = some st := by
  by_cases hne : c' = c ∧ t' = t
  · exact .inl hne
  · exact .inr (hm.threads.obs Pc.pins Pc.pins_wake hne ▸ h)

/-- **Every move keeps threads and statuses in agreement.** -/
theorem Threads.touch {s s' : St Id T} {t : T} (h : Threads s)
    (hm : Touch s s' c t a) : Threads s' := by
  obtain ⟨v, w, v', hl⟩ := hm.what
  obtain ⟨hp, hw⟩ := hl.pins (h.noWait c t)
    fun ha hq => by subst ha; exact h.pinned _ t _ (by rw [hq]; rfl)
  have noWait : ∀ c' t', (s'.pc c' t').inRelWait = false := by
    intro c' t'
    by_cases hne : c' = c ∧ t' = t
    · rw [hne.1, hne.2, hw]
    · rw [hm.threads.obs Pc.inRelWait Pc.inRelWait_wake hne, h.noWait]
  cases hp with
  | same hk hq =>
    have old : ∀ c' t' st, (s'.pc c' t').pins = some st → (s.pc c' t').pins = some st := by
      intro c' t' st hs
      rcases hm.pins_cases hs with ⟨rfl, rfl⟩ | hs
      · rw [← hq, hs]
      · exact hs
    refine ⟨fun c' t' st hs => ?_, fun c' t₁ t₂ st st' h₁ h₂ => ?_, noWait⟩
    · by_cases hb : c' = a
      · rw [hb, hk, ← hb]
        exact h.pinned c' t' st (old c' t' st hs)
      · rw [hm.clients c' hb]
        exact h.pinned c' t' st (old c' t' st hs)
    · exact h.single c' t₁ t₂ st st' (old _ _ _ h₁) (old _ _ _ h₂)
  | change hk hq' =>
    have others : ∀ t' st, ¬ (a = c ∧ t' = t) → (s.pc a t').pins ≠ some st := by
      intro t' st hne hs
      rcases hk with hk | ⟨rfl, hk⟩
      · rw [h.pinned a t' st hs, Pc.pins_pinned hs] at hk
        cases hk
      · obtain ⟨st', hst⟩ := Option.ne_none_iff_exists'.mp hk
        exact hne ⟨rfl, h.single a t' t st st' hs hst⟩
    have only : ∀ t' st, (s'.pc a t').pins = some st → a = c ∧ t' = t := by
      intro t' st hs
      by_contra hne
      rcases hm.pins_cases hs with he | hs
      · exact hne he
      · exact others t' st hne hs
    have old : ∀ c' t' st, c' ≠ a → (s'.pc c' t').pins = some st → (s.pc c' t').pins = some st := by
      intro c' t' st hb hs
      rcases hm.pins_cases hs with ⟨rfl, rfl⟩ | hs
      · rcases hq' with hq' | ⟨ha, -⟩
        · rw [hq'] at hs
          cases hs
        · exact absurd ha.symm hb
      · exact hs
    refine ⟨fun c' t' st hs => ?_, fun c' t₁ t₂ st st' h₁ h₂ => ?_, noWait⟩
    · by_cases hb : c' = a
      · subst hb
        obtain ⟨rfl, rfl⟩ := only t' st hs
        rcases hq' with hq' | ⟨-, hq'⟩
        · rw [hq'] at hs
          cases hs
        · exact Option.some.inj (hq'.symm.trans hs)
      · rw [hm.clients c' hb]
        exact h.pinned c' t' st (old c' t' st hb hs)
    · by_cases hb : c' = a
      · subst hb
        rw [(only t₁ st h₁).2, (only t₂ st' h₂).2]
      · exact h.single c' t₁ t₂ st st' (old _ _ _ hb h₁) (old _ _ _ hb h₂)

end Pins

/-! ### The client's mutex -/

/-- The client whose `status_mutex_map` entry a thread's stack holds across a call: the
flush of `release`, or the whole of a revoke handler that gives the lock back. -/
def Pc.locks (c : Id) : Pc Id → Option Id
  | .relRpc .dorelease => some c
  | .acqRpc (.revoking dst _) => some dst
  | _ => none

theorem Pc.locks_wake (c : Id) (p : Pc Id) : p.wake.locks c = p.locks c := by
  cases p <;> rfl

theorem Entry.locks (h : Entry k q k₀) (c : Id) : q.locks c = none := by
  cases h with
  | call hq _ => rw [hq]; rfl
  | woken hq _ => rw [hq]; rfl
  | reply r hq _ => rw [hq]; rfl

theorem Entry.mutex (h : Entry k q k₀) : k₀.mutex = k.mutex := by
  cases h with
  | call _ hk => rw [hk]
  | woken _ hk => rw [hk]
  | reply r _ hk =>
    rw [hk, granted]
    split <;> rfl

theorem Exit.locks (h : Exit k q k₀) (c : Id) : q.locks c = none := by
  cases h with
  | call hq _ => rw [hq]; rfl
  | woken hq _ => rw [hq]; rfl

theorem Exit.mutex (h : Exit k q k₀) : k₀.mutex = k.mutex := by
  cases h with
  | call _ hk => rw [hk]
  | woken _ hk => rw [hk]

/-- The mutex of a client is held by the one stack that says so, and the status stays
NONE under a revoke handler. -/
structure Mutexes [LinearOrder Id] (s : St Id T) : Prop where
  held : ∀ c t a, (s.pc c t).locks c = some a → (s.client a).mutex = true
  single : ∀ c t c' t' a, (s.pc c t).locks c = some a → (s.pc c' t').locks c' = some a →
    c' = c ∧ t' = t
  holder : ∀ a, (s.client a).mutex = true → ∃ c t, (s.pc c t).locks c = some a
  revoking : ∀ c t a p, s.pc c t = .acqRpc (.revoking a p) → (s.client a).status = .none

/-- What a move does to the mutex of the client it happens at. -/
inductive MutexMove (c a : Id) (k : ClientLock) (q : Pc Id) (k' : ClientLock) (q' : Pc Id) : Prop where
  | same : k'.mutex = k.mutex → (k.mutex = true → k'.status = k.status) → q'.locks c = q.locks c →
      (∀ b p, q' = .acqRpc (.revoking b p) → ∃ p', q = .acqRpc (.revoking b p')) →
      MutexMove c a k q k' q'
  | lock : k.mutex = false → k'.mutex = true → q.locks c = none → q'.locks c = some a →
      (∀ b p, q' = .acqRpc (.revoking b p) → b = a ∧ k'.status = .none) → MutexMove c a k q k' q'
  | unlock : q.locks c = some a → q'.locks c = none → k'.mutex = false → k'.status = k.status →
      MutexMove c a k q k' q'

theorem MutexMove.free (hm : k.mutex = false)
    (hm' : k'.mutex = false) (hq : q.locks c = none) (hq' : q'.locks c = none) :
    MutexMove c a k q k' q' :=
  .same (by rw [hm, hm']) (fun h => by rw [hm] at h; cases h) (by rw [hq, hq'])
    fun b p h => by rw [h] at hq'; cases hq'

/-- A move that does not use the client's entries, with a release RPC in the stack. -/
theorem MutexMove.setRelease {b : Id} {p p' : RelPhase Id}
    (hq : q.release? c = some (b, p)) (hp : p ≠ .dorelease) (hp' : p' ≠ .dorelease)
    (hm : k'.mutex = k.mutex) (hs : k'.status = k.status) : MutexMove c a k q k' (q.setRelease p') := by
  refine .same hm (fun _ => hs) ?_ fun b' r h => ?_
  · rcases Pc.release?_eq_some.mp hq with ⟨rfl, rfl⟩ | rfl
    · cases p <;> cases p' <;> first | rfl | contradiction
    · rfl
  · rcases Pc.release?_eq_some.mp hq with ⟨rfl, rfl⟩ | rfl
    · cases h
    · cases h
      exact ⟨_, rfl⟩

theorem retryLoop_ne_dorelease (cnt : Nat) (l : List Id) : retryLoop cnt l ≠ .dorelease := by
  intro h
  have := retryLoop_served cnt l
  rw [h] at this
  cases this

variable [LinearOrder Id] {v v' : ServerLock Id}

theorem Local.mutexes (h : Local c a v k q w v' k' q') : MutexMove c a k q k' q' := by
  cases h with
  | send k₀ _ he hm _ _ _ hk hq =>
    subst hk hq
    exact .free hm (he.mutex.trans hm) (he.locks c) rfl
  | take k₀ _ he hm _ _ _ hk hq =>
    subst hk hq
    exact .free hm (he.mutex.trans hm) (he.locks c) rfl
  | block k₀ _ he hm _ _ _ hk hq =>
    subst hk hq
    exact .free hm (he.mutex.trans hm) (he.locks c) rfl
  | grant | already | join | demand | readOwner | revokeReply => subst_vars; exact .same rfl (fun _ => rfl) rfl nofun
  | revokeFree hq hm _ _ _ hk hq' =>
    subst hk hq hq'
    refine .lock hm rfl rfl rfl fun b p h => ?_
    cases h
    exact ⟨rfl, rfl⟩
  | revokeNote _ hm | released _ _ hm => subst_vars; exact .free hm hm rfl rfl
  | giveBack k₀ ha he hm _ _ _ _ hk hq =>
    subst ha hk hq
    exact .lock hm rfl (he.locks _) rfl nofun
  | keep k₀ _ he hm _ _ _ _ hk hq =>
    subst hk hq
    exact .free hm (he.mutex.trans hm) (he.locks c) rfl
  | relBlock k₀ _ he hm _ _ _ hk hq =>
    subst hk hq
    exact .free hm (he.mutex.trans hm) (he.locks c) rfl
  | flushed | revoked => subst_vars; exact .unlock rfl rfl rfl rfl
  | flushedRevoke hq _ _ hk hq' =>
    subst hk hq hq'
    refine .same rfl (fun _ => rfl) rfl fun b p h => ?_
    cases h
    exact ⟨_, rfl⟩
  | serveRelease b p hr _ hp _ _ hk hq =>
    subst hk hq hp
    exact .setRelease hr nofun (retryLoop_ne_dorelease _ _) rfl rfl
  | retryHandler b cnt rest hr _ _ _ hk hq =>
    subst hk hq
    exact .setRelease hr nofun nofun rfl rfl
  | retryReply b cnt rest p hr hp _ _ hk hq =>
    subst hk hq hp
    exact .setRelease hr nofun (retryLoop_ne_dorelease _ _) rfl rfl
  | wake hb _ _ hk hq =>
    subst hk hq
    refine .same rfl (fun _ => rfl) (q.locks_wake c) fun b p h => ?_
    exact ⟨p, (Pc.wake_eq_acqRpc _ q).mp h⟩

/-- **Every move keeps each mutex with the stack that holds it.** -/
theorem Mutexes.touch {s s' : St Id T} {t : T} (h : Mutexes s)
    (hm : Touch s s' c t a) : Mutexes s' := by
  obtain ⟨v, w, v', hl⟩ := hm.what
  have other : ∀ c' t', ¬ (c' = c ∧ t' = t) → (s'.pc c' t').locks c' = (s.pc c' t').locks c' :=
    fun c' t' hne => hm.threads.obs (Pc.locks c') (Pc.locks_wake c') hne
  have still : ∀ c' t' b p, ¬ (c' = c ∧ t' = t) → s'.pc c' t' = .acqRpc (.revoking b p) →
      s.pc c' t' = .acqRpc (.revoking b p) :=
    fun c' t' b p hne hp => (hm.threads.still hne (Pc.wake_eq_acqRpc _)).mp hp
  cases hl.mutexes with
  | same hk hst hq hrev =>
    have same : ∀ c' t', (s'.pc c' t').locks c' = (s.pc c' t').locks c' := by
      intro c' t'
      by_cases hne : c' = c ∧ t' = t
      · rw [hne.1, hne.2, hq]
      · exact other c' t' hne
    have mutex : ∀ b, (s'.client b).mutex = (s.client b).mutex := by
      intro b
      by_cases hb : b = a
      · rw [hb, hk]
      · rw [hm.clients b hb]
    refine ⟨fun c' t' b hb => ?_, fun c₁ t₁ c₂ t₂ b h₁ h₂ => ?_, fun b hb => ?_, fun c' t' b p hp => ?_⟩
    · rw [mutex]
      exact h.held c' t' b (same c' t' ▸ hb)
    · exact h.single c₁ t₁ c₂ t₂ b (same c₁ t₁ ▸ h₁) (same c₂ t₂ ▸ h₂)
    · obtain ⟨c', t', hp⟩ := h.holder b (mutex b ▸ hb)
      exact ⟨c', t', (same c' t').trans hp⟩
    · obtain ⟨p', hp'⟩ : ∃ p', s.pc c' t' = .acqRpc (.revoking b p') := by
        by_cases hne : c' = c ∧ t' = t
        · obtain ⟨rfl, rfl⟩ := hne
          exact hrev b p hp
        · exact ⟨p, still c' t' b p hne hp⟩
      have hb : (s'.client b).status = (s.client b).status := by
        by_cases hba : b = a
        · subst hba
          exact hst (h.held c' t' b (by rw [hp']; rfl))
        · rw [hm.clients b hba]
      rw [hb]
      exact h.revoking c' t' b p' hp'
  | lock hk hk' hq hq' hrev =>
    have free : ∀ c' t', (s.pc c' t').locks c' ≠ some a := by
      intro c' t' hp
      rw [h.held c' t' a hp] at hk
      cases hk
    have old : ∀ c' t' b, b ≠ a → (s'.pc c' t').locks c' = some b → (s.pc c' t').locks c' = some b := by
      intro c' t' b hb hp
      by_cases hne : c' = c ∧ t' = t
      · rw [hne.1, hne.2, hq'] at hp
        exact absurd (Option.some.inj hp).symm hb
      · rw [← other c' t' hne, hp]
    have here : ∀ c' t', (s'.pc c' t').locks c' = some a → c' = c ∧ t' = t := by
      intro c' t' hp
      by_contra hne
      exact free c' t' (other c' t' hne ▸ hp)
    refine ⟨fun c' t' b hb => ?_, fun c₁ t₁ c₂ t₂ b h₁ h₂ => ?_, fun b hb => ?_, fun c' t' b p hp => ?_⟩
    · by_cases hba : b = a
      · rw [hba, hk']
      · rw [hm.clients b hba]
        exact h.held c' t' b (old c' t' b hba hb)
    · by_cases hba : b = a
      · subst hba
        rw [(here c₁ t₁ h₁).1, (here c₁ t₁ h₁).2]
        exact here c₂ t₂ h₂
      · exact h.single c₁ t₁ c₂ t₂ b (old c₁ t₁ b hba h₁) (old c₂ t₂ b hba h₂)
    · by_cases hba : b = a
      · exact ⟨c, t, hba ▸ hq'⟩
      · rw [hm.clients b hba] at hb
        obtain ⟨c', t', hp⟩ := h.holder b hb
        have hne : ¬ (c' = c ∧ t' = t) := by
          rintro ⟨rfl, rfl⟩
          rw [hq] at hp
          cases hp
        exact ⟨c', t', (other c' t' hne).trans hp⟩
    · by_cases hne : c' = c ∧ t' = t
      · obtain ⟨rfl, rfl⟩ := hne
        obtain ⟨rfl, hs⟩ := hrev b p hp
        exact hs
      · have hp' := still c' t' b p hne hp
        have hba : b ≠ a := by
          rintro rfl
          exact free c' t' (by rw [hp']; rfl)
        rw [hm.clients b hba]
        exact h.revoking c' t' b p hp'
  | unlock hq hq' hk' hst =>
    have old : ∀ c' t' b, (s'.pc c' t').locks c' = some b → b ≠ a ∧ (s.pc c' t').locks c' = some b := by
      intro c' t' b hp
      have hne : ¬ (c' = c ∧ t' = t) := by
        rintro ⟨rfl, rfl⟩
        rw [hq'] at hp
        cases hp
      have hp := other c' t' hne ▸ hp
      refine ⟨?_, hp⟩
      rintro rfl
      exact hne (h.single c t c' t' b hq hp)
    refine ⟨fun c' t' b hb => ?_, fun c₁ t₁ c₂ t₂ b h₁ h₂ => ?_, fun b hb => ?_, fun c' t' b p hp => ?_⟩
    · obtain ⟨hba, hb⟩ := old c' t' b hb
      rw [hm.clients b hba]
      exact h.held c' t' b hb
    · exact h.single c₁ t₁ c₂ t₂ b (old c₁ t₁ b h₁).2 (old c₂ t₂ b h₂).2
    · have hba : b ≠ a := by
        rintro rfl
        rw [hk'] at hb
        cases hb
      rw [hm.clients b hba] at hb
      obtain ⟨c', t', hp⟩ := h.holder b hb
      have hne : ¬ (c' = c ∧ t' = t) := by
        rintro ⟨rfl, rfl⟩
        rw [hq] at hp
        exact hba (Option.some.inj hp).symm
      exact ⟨c', t', (other c' t' hne).trans hp⟩
    · have hb := old c' t' b (by rw [hp]; rfl)
      have hne : ¬ (c' = c ∧ t' = t) := by
        rintro ⟨rfl, rfl⟩
        rw [hp] at hq'
        cases hq'
      rw [hm.clients b hb.1]
      exact h.revoking c' t' b p (still c' t' b p hne hp)

/-! ### Safety -/

/-- Ownership is in one place, and threads agree with their client's entries. -/
structure Safe (s : St Id T) : Prop where
  owned : Owned s
  threads : Threads s
  mutexes : Mutexes s

theorem safe_init : Safe ({} : St Id T) where
  owned := by
    have nowhere : ∀ (x : Place Id T) a, ({} : St Id T).at x ≠ some a := by
      intro x a
      cases x <;> exact nofun
    exact ⟨rfl, fun x a hx => absurd hx (nowhere x a), fun x _ a _ hx _ => absurd hx (nowhere x a)⟩
  threads := ⟨nofun, nofun, fun _ _ => rfl⟩
  mutexes := ⟨nofun, nofun, nofun, nofun⟩

theorem Safe.move {s s' : St Id T} {t : T} (h : Safe s)
    (hm : Move s s' c t a w) : Safe s' :=
  ⟨h.owned.move hm, h.threads.touch hm.touch, h.mutexes.touch hm.touch⟩

theorem Safe.holding_unique {s : St Id T} (h : Safe s) {c' : Id} {t t' : T}
    (hp : s.pc c t = .holding) (hp' : s.pc c' t' = .holding) : c' = c ∧ t' = t := by
  have hl : (s.client c).status = .locked := h.threads.pinned c t _ (by rw [hp]; rfl)
  have hl' : (s.client c').status = .locked := h.threads.pinned c' t' _ (by rw [hp']; rfl)
  have hc : s.at (.cache c) = some c := at_cache (by rw [hl]; rfl)
  have hc' : s.at (.cache c') = some c' := at_cache (by rw [hl']; rfl)
  obtain rfl : c = c' := Place.cache.inj (h.owned.single _ _ _ _ hc hc')
  exact ⟨rfl, h.threads.single c t' t _ _ (by rw [hp']; rfl) (by rw [hp]; rfl)⟩

end Yfs.Lock

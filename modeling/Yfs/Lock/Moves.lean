import Yfs.Lock.Protocol

/-! What one move of the lock protocol can do, said once.

A move is made by one thread (or by a handler it waits for), changes the entries of
at most one client and the server's, and may wake threads of that client. `Local`
lists every way it can go, with what it found and what it leaves; `Move s s'` adds
that everything else is as it was. `step_move` says that every step is such a move.
The invariants are proved from `Move` and never look at `step`. -/
namespace Yfs.Lock
open Base

variable {Id T : Type}

/-- Which blocked threads of the client a move wakes. -/
inductive Wakes where
  | nobody | one | everybody
  deriving DecidableEq

/-- How a thread gets to `CHECK_AGAIN`, and its client's entries there: it calls
`acquire`, it is back from `pthread_cond_wait`, or the server's answer has come. -/
inductive Entry (k : ClientLock) (q : Pc Id) (k₀ : ClientLock) : Prop where
  | call : q = .idle → k₀ = k → Entry k q k₀
  | woken : q = .acqWait true → k₀ = {k with waitersNum := k.waitersNum - 1} → Entry k q k₀
  | reply (r : Ret) : q = .acqRpc (.reply r) → k₀ = granted r k → Entry k q k₀

/-- How a thread gets to `CHECK_POINT`. -/
inductive Exit (k : ClientLock) (q : Pc Id) (k₀ : ClientLock) : Prop where
  | call : q = .holding → k₀ = k → Exit k q k₀
  | woken : q = .relWait true → k₀ = {k with waitersNum := k.waitersNum - 1} → Exit k q k₀

variable [LinearOrder Id]

/-- Every way a stretch of code can go: `c` is the client of the thread, `a` the client
whose entries are used, `v`, `k`, `q` the server's entries, those of `a` and where the
thread is before, `v'`, `k'`, `q'` the same after. -/
inductive Local (c a : Id) (v : ServerLock Id) (k : ClientLock) (q : Pc Id) (w : Wakes)
    (v' : ServerLock Id) (k' : ClientLock) (q' : Pc Id) : Prop where
  | send (k₀ : ClientLock) : a = c → Entry k q k₀ → k.mutex = false →
      k₀.status = .none ∨ k₀.status = .acquiring ∧ k₀.retried = true → w = .nobody → v' = v →
      k' = {k₀ with status := .acquiring, retried := k₀.retried && decide (k₀.status = .none)} →
      q' = .acqRpc .request → Local c a v k q w v' k' q'
  | take (k₀ : ClientLock) : a = c → Entry k q k₀ → k.mutex = false → k₀.status = .free →
      w = .nobody → v' = v → k' = {k₀ with status := .locked} → q' = .holding →
      Local c a v k q w v' k' q'
  | block (k₀ : ClientLock) : a = c → Entry k q k₀ → k.mutex = false →
      k₀.status = .locked ∨ k₀.status = .releasing ∨ k₀.status = .acquiring ∧ k₀.retried = false →
      w = .nobody → v' = v → k' = {k₀ with waitersNum := k₀.waitersNum + 1} →
      q' = .acqWait false → Local c a v k q w v' k' q'
  | grant : q = .acqRpc .request → v.mutex = false → v.lock = false → w = .nobody →
      v' = {v with lock := true, owner := some c, waiters := v.waiters.erase c, revoked := false} →
      k' = k → q' = .acqRpc (.reply .ok) → Local c a v k q w v' k' q'
  | already : q = .acqRpc .request → v.mutex = false → v.lock = true → v.owner = some c →
      w = .nobody → v' = {v with waiters := v.waiters.insert c} → k' = k →
      q' = .acqRpc (.reply .retry) → Local c a v k q w v' k' q'
  | join : q = .acqRpc .request → v.mutex = false → v.lock = true → v.owner ≠ some c →
      v.revoked = true → w = .nobody → v' = {v with waiters := v.waiters.insert c} → k' = k →
      q' = .acqRpc (.reply .retry) → Local c a v k q w v' k' q'
  | demand : q = .acqRpc .request → v.mutex = false → v.lock = true → v.owner ≠ some c →
      v.revoked = false → w = .nobody →
      v' = {v with waiters := v.waiters.insert c, revoked := true} → k' = k →
      q' = .acqRpc .readOwner → Local c a v k q w v' k' q'
  | readOwner (dst : Id) : q = .acqRpc .readOwner → v.owner = some dst → w = .nobody → v' = v →
      k' = k → q' = .acqRpc (.revoke dst) → Local c a v k q w v' k' q'
  | revokeFree : q = .acqRpc (.revoke a) → k.mutex = false → k.status = .free → w = .nobody →
      v' = v → k' = {k with status := .none, mutex := true} →
      q' = .acqRpc (.revoking a .dorelease) → Local c a v k q w v' k' q'
  | revokeNote : q = .acqRpc (.revoke a) → k.mutex = false → k.status ≠ .free → w = .everybody →
      v' = v → k' = {k with revoked := true} → q' = .acqRpc .revokeReply →
      Local c a v k q w v' k' q'
  | revokeReply : q = .acqRpc .revokeReply → w = .nobody → v' = v → k' = k →
      q' = .acqRpc (.reply .retry) → Local c a v k q w v' k' q'
  | giveBack (k₀ : ClientLock) : a = c → Exit k q k₀ → k.mutex = false → k₀.status = .locked →
      givesBack k₀ = true → w = .nobody → v' = v →
      k' = {k₀ with status := .releasing, revoked := false, mutex := true} →
      q' = .relRpc .dorelease → Local c a v k q w v' k' q'
  | keep (k₀ : ClientLock) : a = c → Exit k q k₀ → k.mutex = false → k₀.status = .locked →
      givesBack k₀ = false → w = .one → v' = v → k' = {k₀ with status := .free} → q' = .idle →
      Local c a v k q w v' k' q'
  | relBlock (k₀ : ClientLock) : a = c → Exit k q k₀ → k.mutex = false →
      k₀.status = .releasing → w = .nobody → v' = v →
      k' = {k₀ with waitersNum := k₀.waitersNum + 1} → q' = .relWait false →
      Local c a v k q w v' k' q'
  | flushed : a = c → q = .relRpc .dorelease → w = .nobody → v' = v →
      k' = {k with mutex := false} → q' = .relRpc .request → Local c a v k q w v' k' q'
  | flushedRevoke : q = .acqRpc (.revoking a .dorelease) → w = .nobody → v' = v → k' = k →
      q' = .acqRpc (.revoking a .request) → Local c a v k q w v' k' q'
  | serveRelease (b : Id) (p : RelPhase Id) : q.release? c = some (b, .request) →
      v.mutex = false → p = retryLoop 2 v.waiters.elems → w = .nobody →
      v' = {v with lock := false, owner := none, revoked := false, mutex := p ≠ .reply} → k' = k →
      q' = q.setRelease p → Local c a v k q w v' k' q'
  | retryHandler (b : Id) (cnt : Nat) (rest : List Id) : q.release? c = some (b, .retry cnt a rest) →
      k.mutex = false → w = .everybody → v' = v → k' = {k with retried := true} →
      q' = q.setRelease (.retryReply cnt rest) → Local c a v k q w v' k' q'
  | retryReply (b : Id) (cnt : Nat) (rest : List Id) (p : RelPhase Id) :
      q.release? c = some (b, .retryReply cnt rest) → p = retryLoop cnt rest → w = .nobody →
      v' = {v with mutex := p ≠ .reply} → k' = k → q' = q.setRelease p →
      Local c a v k q w v' k' q'
  | released : a = c → q = .relRpc .reply → k.mutex = false → w = .one → v' = v →
      k' = {k with status := .none} → q' = .idle → Local c a v k q w v' k' q'
  | revoked : q = .acqRpc (.revoking a .reply) → w = .everybody → v' = v →
      k' = {k with mutex := false} → q' = .acqRpc .revokeReply → Local c a v k q w v' k' q'
  | wake : q.blocked = true → w = .nobody → v' = v → k' = k → q' = q.wake →
      Local c a v k q w v' k' q'

/-- What waking does to the threads other than `t` of `c`. -/
structure Woken (w : Wakes) (pc pc' : Id → T → Pc Id) (c : Id) (t : T) (a : Id) : Prop where
  same : ∀ c' t', ¬ (c' = c ∧ t' = t) → pc' c' t' = pc c' t' ∨
    c' = a ∧ w ≠ .nobody ∧ (pc c' t').blocked = true ∧ pc' c' t' = (pc c' t').wake
  one : w = .one → (∃ t', ¬ (a = c ∧ t' = t) ∧ (pc a t').blocked = true) →
    ∃ t', ¬ (a = c ∧ t' = t) ∧ (pc a t').blocked = true ∧ pc' a t' = (pc a t').wake
  everybody : w = .everybody → ∀ t', ¬ (a = c ∧ t' = t) → pc' a t' = (pc a t').wake

/-- A move: what it does where it happens, and nothing elsewhere. -/
structure Move (s s' : St Id T) (c : Id) (t : T) (a : Id) (w : Wakes) : Prop where
  what : Local c a s.server (s.client a) (s.pc c t) w s'.server (s'.client a) (s'.pc c t)
  clients : ∀ b, b ≠ a → s'.client b = s.client b
  threads : Woken w s.pc s'.pc c t a

/-- Everybody but thread `t` of `c` is where it was, or was woken. -/
def Frame (pc pc' : Id → T → Pc Id) (c : Id) (t : T) : Prop :=
  ∀ c' t', ¬ (c' = c ∧ t' = t) → pc' c' t' = pc c' t' ∨
    (pc c' t').blocked = true ∧ pc' c' t' = (pc c' t').wake

/-- A move without the server's side: what it does to one client's entries and one
thread, and that the others are as they were or were woken. -/
structure Touch (s s' : St Id T) (c : Id) (t : T) (a : Id) : Prop where
  what : ∃ v w v', Local c a v (s.client a) (s.pc c t) w v' (s'.client a) (s'.pc c t)
  clients : ∀ b, b ≠ a → s'.client b = s.client b
  threads : Frame s.pc s'.pc c t

omit [LinearOrder Id] in
theorem Woken.frame {w : Wakes} {pc pc' : Id → T → Pc Id} {c a : Id} {t : T}
    (h : Woken w pc pc' c t a) : Frame pc pc' c t := by
  intro c' t' hne
  rcases h.same c' t' hne with he | ⟨-, -, hb, he⟩
  · exact .inl he
  · exact .inr ⟨hb, he⟩

theorem Move.touch {s s' : St Id T} {c a : Id} {t : T} {w : Wakes} (h : Move s s' c t a w) :
    Touch s s' c t a :=
  ⟨⟨_, _, _, h.what⟩, h.clients, h.threads.frame⟩

section
omit [LinearOrder Id]

/-- What waking does not change is unchanged for every other thread. -/
theorem Frame.obs {β : Type} {pc pc' : Id → T → Pc Id} {c c' : Id} {t t' : T}
    (h : Frame pc pc' c t) (f : Pc Id → β) (hf : ∀ p, f p.wake = f p)
    (hne : ¬ (c' = c ∧ t' = t)) : f (pc' c' t') = f (pc c' t') := by
  rcases h c' t' hne with he | ⟨-, he⟩
  · rw [he]
  · rw [he, hf]

/-- A thread other than `t` of `c` that does not wait is where it was. -/
theorem Frame.still {pc pc' : Id → T → Pc Id} {c c' : Id} {t t' : T} {p : Pc Id}
    (h : Frame pc pc' c t) (hne : ¬ (c' = c ∧ t' = t)) (hp : ∀ q : Pc Id, q.wake = p ↔ q = p) :
    pc' c' t' = p ↔ pc c' t' = p := by
  rcases h c' t' hne with he | ⟨-, he⟩
  · rw [he]
  · rw [he, hp]

theorem Pc.wake_eq_holding (p : Pc Id) : p.wake = .holding ↔ p = .holding := by
  cases p <;> simp [Pc.wake]

theorem Pc.wake_eq_acqRpc (r : AcqPhase Id) (p : Pc Id) : p.wake = .acqRpc r ↔ p = .acqRpc r := by
  cases p <;> simp [Pc.wake]

theorem Pc.release?_eq_some {c a : Id} {p : Pc Id} {q : RelPhase Id} :
    p.release? c = some (a, q) ↔ p = .relRpc q ∧ a = c ∨ p = .acqRpc (.revoking a q) := by
  cases p with
  | acqRpc r => cases r <;> simp [Pc.release?, eq_comm]
  | _ => simp [Pc.release?, and_comm, eq_comm]

theorem Pc.wake_of_not_blocked {p : Pc Id} (h : p.blocked = false) : p.wake = p := by
  cases p with
  | acqWait b =>
    cases b with
    | true => rfl
    | false => cases h
  | relWait b =>
    cases b with
    | true => rfl
    | false => cases h
  | _ => rfl

end

/-! ### Every step is a move -/

variable [DecidableEq T] {s : St Id T} {c a : Id} {t : T} {p : Pc Id} {pc : Id → T → Pc Id}

omit [LinearOrder Id] [DecidableEq T] in
@[simp] theorem setClient_self [DecidableEq Id] (k : Id → ClientLock) (c : Id) (v : ClientLock) :
    setClient k c v c = v := if_pos rfl

omit [LinearOrder Id] [DecidableEq T] in
theorem setClient_ne [DecidableEq Id] {k : Id → ClientLock} {c' : Id} {v : ClientLock}
    (h : c' ≠ c) : setClient k c v c' = k c' := if_neg h

omit [LinearOrder Id] in
@[simp] theorem setPc_self [DecidableEq Id] (pc : Id → T → Pc Id) (c : Id) (t : T) (p : Pc Id) :
    setPc pc c t p c t = p := if_pos ⟨rfl, rfl⟩

omit [LinearOrder Id] in
theorem setPc_ne [DecidableEq Id] {c' : Id} {t' : T}
    (h : ¬ (c' = c ∧ t' = t)) : setPc pc c t p c' t' = pc c' t' := if_neg h

theorem woken_nobody (pc : Id → T → Pc Id) (c : Id) (t : T) (p : Pc Id) (a : Id) :
    Woken .nobody pc (setPc pc c t p) c t a :=
  ⟨fun _ _ h => .inl (setPc_ne h), nofun, nofun⟩

theorem woken_everybody (pc : Id → T → Pc Id) (c : Id) (t : T) (p : Pc Id) (a : Id) :
    Woken .everybody pc (setPc (broadcast pc a) c t p) c t a := by
  refine ⟨fun c' t' h => ?_, nofun, fun _ t' h => ?_⟩
  · rw [setPc_ne h]
    unfold broadcast
    split
    · rename_i ha
      cases hb : (pc c' t').blocked with
      | true => exact .inr ⟨ha, nofun, rfl, rfl⟩
      | false => exact .inl (Pc.wake_of_not_blocked hb)
    · exact .inl rfl
  · rw [setPc_ne h]
    exact if_pos rfl

theorem woken_signal [Fintype T] {pc' : Id → T → Pc Id} {sig : Option T}
    (h : signal (setPc pc c t .idle) c sig = some pc') : Woken .one pc pc' c t c ∧ pc' c t = .idle := by
  unfold signal at h
  split at h
  · split at h
    · cases h
      rename_i t₁ hb
      have ht : t₁ ≠ t := by
        rintro rfl
        rw [setPc_self] at hb
        cases hb
      have hne : ¬ (c = c ∧ t₁ = t) := fun h => ht h.2
      rw [setPc_ne hne] at hb ⊢
      refine ⟨⟨fun c' t' h => ?_, fun _ _ => ⟨t₁, hne, hb, setPc_self ..⟩, nofun⟩, ?_⟩
      · by_cases h₁ : c' = c ∧ t' = t₁
        · obtain ⟨rfl, rfl⟩ := h₁
          exact .inr ⟨rfl, nofun, hb, setPc_self ..⟩
        · exact .inl (by rw [setPc_ne h₁, setPc_ne h])
      · rw [setPc_ne (fun h => ht h.2.symm), setPc_self]
    · cases h
  · split at h
    · cases h
      rename_i hno
      refine ⟨⟨fun _ _ h => .inl (setPc_ne h), ?_, nofun⟩, setPc_self ..⟩
      rintro - ⟨t', hne, hb⟩
      exact absurd hb (by simpa [setPc_ne hne] using hno t')
    · cases h

/-- A move that changes the entries of `a` and wakes nobody. -/
theorem move_nobody {v : ServerLock Id} {k : ClientLock}
    (h : Local c a s.server (s.client a) (s.pc c t) .nobody v k p) :
    Move s ⟨v, setClient s.client a k, setPc s.pc c t p⟩ c t a .nobody :=
  ⟨by simpa using h, fun _ hb => setClient_ne hb, woken_nobody ..⟩

theorem move_still {v : ServerLock Id}
    (h : Local c a s.server (s.client a) (s.pc c t) .nobody v (s.client a) p) :
    Move s ⟨v, s.client, setPc s.pc c t p⟩ c t a .nobody :=
  ⟨by simpa using h, fun _ _ => rfl, woken_nobody ..⟩

/-- A move that changes the entries of `a` and wakes all its threads. -/
theorem move_everybody {v : ServerLock Id} {k : ClientLock}
    (h : Local c a s.server (s.client a) (s.pc c t) .everybody v k p) :
    Move s ⟨v, setClient s.client a k, setPc (broadcast s.pc a) c t p⟩ c t a .everybody :=
  ⟨by simpa using h, fun _ hb => setClient_ne hb, woken_everybody ..⟩

theorem enter_move {s' : St Id T} {k₀ : ClientLock}
    (hk : Entry (s.client c) (s.pc c t) k₀) (hm : (s.client c).mutex = false)
    (h : enter s c t k₀ = some s') : Move s s' c t c .nobody := by
  obtain ⟨status, waitersNum, revoked, retried, mutex⟩ := k₀
  unfold enter checkAgain at h
  cases status with
  | none =>
    cases h
    exact move_nobody (.send _ rfl hk hm (.inl rfl) rfl rfl (by simp [callAcquire]) rfl)
  | free =>
    cases h
    exact move_nobody (.take _ rfl hk hm rfl rfl rfl rfl rfl)
  | acquiring =>
    cases retried with
    | true =>
      cases h
      exact move_nobody (.send _ rfl hk hm (.inr ⟨rfl, rfl⟩) rfl rfl (by simp [callAcquire]) rfl)
    | false =>
      cases h
      exact move_nobody (.block _ rfl hk hm (.inr (.inr ⟨rfl, rfl⟩)) rfl rfl rfl rfl)
  | locked =>
    cases h
    exact move_nobody (.block _ rfl hk hm (.inl rfl) rfl rfl rfl rfl)
  | releasing =>
    cases h
    exact move_nobody (.block _ rfl hk hm (.inr (.inl rfl)) rfl rfl rfl rfl)
  | earlyRevoked => cases h

theorem leave_move [Fintype T] {s' : St Id T} {sig : Option T} {k₀ : ClientLock}
    (hk : Exit (s.client c) (s.pc c t) k₀) (hm : (s.client c).mutex = false)
    (h : leave s c t sig k₀ = some s') : ∃ w, Move s s' c t c w := by
  obtain ⟨status, waitersNum, revoked, retried, mutex⟩ := k₀
  unfold leave checkPoint at h
  cases status with
  | locked =>
    cases hg : givesBack ⟨.locked, waitersNum, revoked, retried, mutex⟩ with
    | true =>
      rw [hg] at h
      cases h
      exact ⟨_, move_nobody (.giveBack _ rfl hk hm rfl hg rfl rfl rfl rfl)⟩
    | false =>
      simp only [hg, Bool.false_eq_true, if_false, Option.bind_some, if_true,
        Option.map_eq_some_iff] at h
      obtain ⟨pc', hsig, rfl⟩ := h
      obtain ⟨hw, hidle⟩ := woken_signal hsig
      exact ⟨.one, .keep _ rfl hk hm rfl hg rfl rfl (by simp) hidle, fun _ hb => setClient_ne hb, hw⟩
  | releasing =>
    cases h
    exact ⟨_, move_nobody (.relBlock _ rfl hk hm rfl rfl rfl rfl rfl)⟩
  | none => cases h
  | free => cases h
  | acquiring => cases h
  | earlyRevoked => cases h

theorem serveAcquire_local {v : ServerLock Id} {k : ClientLock} (hm : v.mutex = false) :
    Local c c v k (.acqRpc .request) .nobody (serverAcquire v c).1 k
      (.acqRpc (serverAcquire v c).2) := by
  unfold serverAcquire
  cases hl : v.lock with
  | false => exact .grant rfl hm hl rfl rfl rfl rfl
  | true =>
    by_cases ho : v.owner = some c
    · simp only [ho, Bool.true_eq_false, if_false, if_true]
      exact .already rfl hm hl ho rfl (by simp [hl, ho]) rfl rfl
    · cases hr : v.revoked with
      | true =>
        simp only [ho, Bool.true_eq_false, if_false, if_true]
        exact .join rfl hm hl ho hr rfl (by simp [hl, hr]) rfl rfl
      | false =>
        simp only [ho, Bool.true_eq_false, Bool.false_eq_true, if_false]
        exact .demand rfl hm hl ho hr rfl (by simp [hl]) rfl rfl

/-- **Every step is a move.** -/
theorem step_move [Fintype T] {s' : St Id T} {x : Act Id T} (h : step s x = some s') :
    ∃ a w, Move s s' x.thread.1 x.thread.2 a w := by
  cases x with
  | acquire c t =>
    simp only [step] at h
    split at h
    · rename_i hg
      exact ⟨c, _, enter_move (.call hg.1 rfl) hg.2 h⟩
    · cases h
  | serveAcquire c t =>
    simp only [step] at h
    split at h
    · rename_i hg
      cases h
      exact ⟨c, _, move_still (hg.1 ▸ serveAcquire_local hg.2)⟩
    · cases h
  | readOwner c t =>
    simp only [step] at h
    split at h
    · rename_i hg
      rw [Option.map_eq_some_iff] at h
      obtain ⟨dst, ho, rfl⟩ := h
      exact ⟨c, _, move_still (.readOwner dst hg ho rfl rfl rfl rfl)⟩
    · cases h
  | revokeHandler c t =>
    simp only [step] at h
    split at h
    · rename_i dst hp
      split at h
      · cases h
      · rename_i hm
        cases h
        have hm : (s.client dst).mutex = false := by simpa using hm
        unfold revokeHandler
        by_cases hf : (s.client dst).status = .free
        · rw [if_pos hf]
          exact ⟨dst, _, move_nobody (.revokeFree hp hm hf rfl rfl rfl rfl)⟩
        · rw [if_neg hf]
          exact ⟨dst, _, move_everybody (.revokeNote hp hm hf rfl rfl rfl rfl)⟩
    · cases h
  | revokeReply c t =>
    simp only [step] at h
    split at h
    · rename_i hp
      cases h
      exact ⟨c, _, move_still (.revokeReply hp rfl rfl rfl rfl)⟩
    · cases h
  | acquireReply c t =>
    simp only [step] at h
    split at h
    · rename_i r hp
      split at h
      · cases h
      · rename_i hm
        have hm : (s.client c).mutex = false := by simpa using hm
        exact ⟨c, _, enter_move (.reply r hp rfl) hm h⟩
    · cases h
  | release c t sig =>
    simp only [step] at h
    split at h
    · rename_i hg
      exact ⟨c, leave_move (.call hg.1 rfl) hg.2 h⟩
    · cases h
  | dorelease c t =>
    simp only [step, doreleaseDone] at h
    split at h
    · rename_i hp
      cases h
      exact ⟨c, _, move_nobody (.flushed rfl hp rfl rfl rfl rfl)⟩
    · rename_i dst hp
      cases h
      exact ⟨dst, _, move_still (.flushedRevoke hp rfl rfl rfl rfl)⟩
    · cases h
  | serveRelease c t =>
    simp only [step] at h
    split at h
    · rename_i b hp
      split at h
      · cases h
      · rename_i hm
        cases h
        exact ⟨c, _, move_still (.serveRelease b _ hp (by simpa using hm) rfl rfl rfl rfl rfl)⟩
    · cases h
  | retryHandler c t =>
    simp only [step] at h
    split at h
    · rename_i b cnt w rest hp
      split at h
      · cases h
      · rename_i hm
        cases h
        exact ⟨w, _, move_everybody (.retryHandler b cnt rest hp (by simpa using hm) rfl rfl rfl rfl)⟩
    · cases h
  | retryReply c t =>
    simp only [step] at h
    split at h
    · rename_i b cnt rest hp
      cases h
      exact ⟨c, _, move_still (.retryReply b cnt rest _ hp rfl rfl rfl rfl rfl)⟩
    · cases h
  | releaseReply c t sig =>
    simp only [step, releaseReply] at h
    split at h
    · rename_i hp
      split at h
      · cases h
      · rename_i hm
        rw [Option.map_eq_some_iff] at h
        obtain ⟨pc', hsig, rfl⟩ := h
        obtain ⟨hw, hidle⟩ := woken_signal hsig
        exact ⟨c, .one, .released rfl hp (by simpa using hm) rfl rfl (by simp) hidle,
          fun _ hb => setClient_ne hb, hw⟩
    · rename_i dst hp
      cases h
      exact ⟨dst, _, move_everybody (.revoked hp rfl rfl rfl rfl)⟩
    · cases h
  | wake c t =>
    simp only [step] at h
    split at h
    · rename_i hb
      cases h
      exact ⟨c, _, move_still (.wake hb rfl rfl rfl rfl)⟩
    · cases h
  | resume c t sig =>
    simp only [step] at h
    split at h
    · cases h
    · rename_i hm
      have hm : (s.client c).mutex = false := by simpa using hm
      split at h
      · rename_i hp
        exact ⟨c, _, enter_move (.woken hp rfl) hm h⟩
      · rename_i hp
        exact ⟨c, leave_move (.woken hp rfl) hm h⟩
      · cases h

end Yfs.Lock

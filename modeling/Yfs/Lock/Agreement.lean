import Yfs.Lock.System

/-! Server and client agree on who has the lock.

`Owned` says that ownership is in at most one place. Here it is in exactly one as long
as no client throws a grant away. `acquire` honours an OK only while the status is
ACQUIRING, and a client can have two acquire RPCs out at once: a retry that arrives
while one is under way lets a second thread send another. If the first answer makes
the client take the lock and give it back, the second may be granted after that and
find the status NONE or RELEASING (`grant_dropped`). In runs where a client that gives
the lock back has no acquire RPC out, a grant always finds ACQUIRING, and what the
server records is what the client has (`ownership_agrees`). -/
namespace Yfs.Lock
open Base

variable {Id T : Type} {c a : Id} {k k' k₀ : ClientLock} {q q' : Pc Id} {w : Wakes}

/-- In the RPC of `acquire`. -/
def Pc.inAcquire : Pc Id → Bool
  | .acqRpc _ => true
  | _ => false

/-- In the RPC of `acquire` or `release`. -/
def Pc.inRpc : Pc Id → Bool
  | .acqRpc _ | .relRpc _ => true
  | _ => false

/-- Waiting for a revoke handler of `a` that is in its release RPC. -/
def Pc.revokes [DecidableEq Id] (a : Id) : Pc Id → Bool
  | .acqRpc (.revoking dst _) => dst = a
  | _ => false

theorem Pc.inAcquire_wake (p : Pc Id) : p.wake.inAcquire = p.inAcquire := by
  cases p <;> rfl

theorem Pc.inAcquire_release {p : RelPhase Id}
    (h : q.release? c = some (a, p)) (p' : RelPhase Id) :
    (q.setRelease p').inAcquire = q.inAcquire := by
  rcases Pc.release?_eq_some.mp h with ⟨rfl, -⟩ | rfl <;> rfl

theorem Exit.token (h : Exit k q k₀) (c : Id) : q.token c = none := by
  cases h with
  | call hq _ => rw [hq]; rfl
  | woken hq _ => rw [hq]; rfl

def Status.wants : Status → Bool
  | .acquiring | .free | .locked => true
  | _ => false

variable [LinearOrder Id] {v v' : ServerLock Id}

/-- No acquire or release RPC of `a` is under way. -/
def Quiet (s : St Id T) (a : Id) : Prop :=
  (∀ t, (s.pc a t).inRpc = false) ∧ ∀ c t, (s.pc c t).revokes a = false

instance [Fintype Id] [Fintype T] (s : St Id T) (a : Id) : Decidable (Quiet s a) :=
  inferInstanceAs (Decidable (_ ∧ _))

/-- No acquire RPC of `a` is under way. -/
def NoCall (s : St Id T) (a : Id) : Prop := ∀ t, (s.pc a t).inAcquire = false

instance [Fintype T] (s : St Id T) (a : Id) : Decidable (NoCall s a) :=
  inferInstanceAs (Decidable (∀ _, _))

/-! ### Grants that are not thrown away -/

/-- The server's record is backed: the lock is where the client it names can find it. A
client with an acquire RPC under way waits for it or has the lock. -/
structure Agreed (s : St Id T) : Prop where
  backed : ∀ a, s.server.owner = some a → ∃ x, s.at x = some a
  wants : ∀ c t, (s.pc c t).inAcquire = true → (s.client c).status.wants = true

/-- What a move does to a status while acquire RPCs of its client may be under way. -/
inductive WantMove (c a : Id) (k : ClientLock) (q : Pc Id) (k' : ClientLock) (q' : Pc Id) : Prop where
  | wants : k'.status.wants = true → (q'.inAcquire = true → q.inAcquire = true ∨ a = c) →
      WantMove c a k q k' q'
  | same : k'.status = k.status → (q'.inAcquire = true → q.inAcquire = true) → WantMove c a k q k' q'
  | giveUp : k.status.caches = true → k'.status.caches = false →
      (q'.inAcquire = true → q.inAcquire = true) → WantMove c a k q k' q'
  | released : a = c → q.pins = some .releasing → q'.inAcquire = false → WantMove c a k q k' q'

theorem Local.wants (h : Local c a v k q w v' k' q') : WantMove c a k q k' q' := by
  cases h with
  | send k₀ ha _ _ _ _ _ hk hq => subst hk hq; exact .wants rfl fun _ => .inr ha
  | take | keep => subst_vars; exact .wants rfl nofun
  | block k₀ _ he _ hs _ _ hk hq =>
    subst hk hq
    refine .same ?_ nofun
    rcases he.status with h | ⟨-, -, h⟩
    · exact h
    · rw [h] at hs
      rcases hs with hs | hs | ⟨hs, -⟩ <;> cases hs
  | grant | already | join | demand | readOwner | revokeNote | revokeReply | flushed | flushedRevoke
  | revoked => subst_vars; exact .same rfl id
  | revokeFree hq _ hs _ _ hk hq' =>
    subst hk hq hq'
    exact .giveUp (by rw [hs]; rfl) rfl id
  | giveBack k₀ _ he _ hs _ _ _ hk hq =>
    subst hk hq
    exact .giveUp (by rw [← he.status, hs]; rfl) rfl nofun
  | relBlock k₀ _ he _ _ _ _ hk hq => subst hk hq; exact .same he.status nofun
  | serveRelease b p hr _ _ _ _ hk hq =>
    subst hk hq
    exact .same rfl (Pc.inAcquire_release hr p ▸ id)
  | retryHandler b cnt rest hr _ _ _ hk hq =>
    subst hk hq
    exact .same rfl (Pc.inAcquire_release hr _ ▸ id)
  | retryReply b cnt rest p hr _ _ _ hk hq =>
    subst hk hq
    exact .same rfl (Pc.inAcquire_release hr p ▸ id)
  | released ha hq _ _ _ hk hq' => subst hk hq hq'; exact .released ha rfl rfl
  | wake _ _ _ hk hq =>
    subst hk hq
    exact .same rfl (q.inAcquire_wake ▸ id)

/-- Ownership of `b`, in the entries of `a` or in a stack of `c`. -/
def Here (c a : Id) (k : ClientLock) (q : Pc Id) (b : Id) : Prop :=
  k.status.caches = true ∧ a = b ∨ q.token c = some b

omit [LinearOrder Id] in
theorem Here.of_same {b : Id} (h : Here c a k q b)
    (hk : k'.status = k.status) (hq : q'.token c = q.token c) : Here c a k' q' b := by
  unfold Here
  rwa [hk, hq]

omit [LinearOrder Id] in
theorem Here.cached {b : Id} (h : Here c a k q b)
    (hq : q.token c = none) : k.status.caches = true ∧ a = b := by
  rcases h with h | h
  · exact h
  · rw [hq] at h
    cases h

omit [LinearOrder Id] in
/-- On the way to `CHECK_AGAIN` ownership is in the entries, if a grant finds ACQUIRING. -/
theorem Here.entry {b : Id} (h : Here c c k q b) (he : Entry k q k₀)
    (hok : q = .acqRpc (.reply .ok) → k.status = .acquiring) : k₀.status.caches = true ∧ c = b := by
  cases he with
  | call hq hk =>
    subst hq hk
    exact h.cached rfl
  | woken hq hk =>
    subst hq hk
    exact h.cached rfl
  | reply r hq hk =>
    subst hq hk
    cases r with
    | ok =>
      rw [granted, if_pos ⟨rfl, hok rfl⟩]
      rcases h with ⟨hc, -⟩ | hb
      · rw [hok rfl] at hc
        cases hc
      · exact ⟨rfl, Option.some.inj hb⟩
    | retry =>
      rw [granted, if_neg fun hr => by cases hr.1]
      exact h.cached rfl

/-- Where a move happens ownership is kept, or the server executes a release. -/
theorem Local.kept {b : Id}
    (h : Local c a v k q w v' k' q') (hok : a = c → q = .acqRpc (.reply .ok) → k.status = .acquiring)
    (hpin : ∀ st, a = c → q.pins = some st → k.status = st) (hb : Here c a k q b) :
    v'.owner = none ∨ Here c a k' q' b := by
  cases h with
  | send k₀ ha he _ hs _ _ hk hq =>
    subst ha
    have hc := (hb.entry he (hok rfl)).1
    rcases hs with hs | ⟨hs, -⟩ <;> rw [hs] at hc <;> cases hc
  | take k₀ ha he _ hs _ _ hk hq =>
    subst ha hk
    exact .inr (.inl ⟨rfl, (hb.entry he (hok rfl)).2⟩)
  | block k₀ ha he _ _ _ _ hk hq =>
    subst ha hk
    have hh := hb.entry he (hok rfl)
    exact .inr (.inl hh)
  | grant | already | join | demand | readOwner | revokeNote | revokeReply | revoked =>
    subst_vars
    exact .inr (.inl (hb.cached rfl))
  | revokeFree hq _ _ _ _ hk hq' =>
    subst hk hq hq'
    rw [← (hb.cached rfl).2]
    exact .inr (.inr rfl)
  | giveBack k₀ ha he _ _ _ _ _ hk hq =>
    subst ha hk hq
    rw [← (hb.cached (he.token a)).2]
    exact .inr (.inr rfl)
  | keep k₀ ha he _ _ _ _ _ hk hq =>
    subst ha hk hq
    exact .inr (.inl ⟨rfl, (hb.cached (he.token a)).2⟩)
  | relBlock k₀ ha he _ _ _ _ hk hq =>
    subst ha hk hq
    exact .inr (.inl ⟨he.status ▸ (hb.cached (he.token a)).1, (hb.cached (he.token a)).2⟩)
  | flushed | flushedRevoke => subst_vars; exact .inr (hb.of_same rfl rfl)
  | serveRelease d p hr _ _ _ hv hk hq => subst hv; exact .inl rfl
  | retryHandler d cnt rest hr _ _ _ hk hq =>
    subst hk hq
    exact .inr (hb.of_same rfl (by rw [Pc.token_setRelease hr, Pc.token_release hr]; rfl))
  | retryReply d cnt rest p hr hp _ _ hk hq =>
    subst hk hq hp
    exact .inr (hb.of_same rfl (by rw [Pc.token_setRelease hr, Pc.token_release hr, retryLoop_served]; rfl))
  | released ha hq _ _ _ hk hq' =>
    subst ha hk hq
    have hc := (hb.cached rfl).1
    rw [hpin _ rfl rfl] at hc
    cases hc
  | wake _ _ _ hk hq =>
    subst hk hq
    exact .inr (hb.of_same rfl (q.token_wake c))

/-- The owner after a move is the one before it, or the lock was just granted to it. -/
theorem TokenMove.owner_cases {b : Id}
    (h : TokenMove c a v k q v' k' q') (ho : v'.owner = some b) :
    v.owner = some b ∨ q'.token c = some b := by
  cases h with
  | stay _ he _ _ => exact .inl (he ▸ ho)
  | toCache _ he _ _ => exact .inl (he ▸ ho)
  | toRpc _ he _ _ _ => exact .inl (he ▸ ho)
  | create _ _ he hq _ => exact .inr (he.symm.trans ho ▸ hq)
  | destroy d _ _ _ he _ =>
    rw [he] at ho
    cases ho

theorem Move.at_of_here {s s' : St Id T} {b : Id} {t : T} (_ : Move s s' c t a w)
    (h : Here c a (s'.client a) (s'.pc c t) b) : ∃ x, s'.at x = some b := by
  rcases h with ⟨hc, rfl⟩ | hq
  · exact ⟨.cache a, at_cache hc⟩
  · exact ⟨.rpc c t, hq⟩

/-- **A move that gives the lock back with no acquire RPC out keeps the agreement**, and so
does every other. -/
theorem Agreed.move {s s' : St Id T} {t : T} (h : Agreed s) (hs : Safe s)
    (hm : Move s s' c t a w)
    (hcalm : (s.client a).status.caches = true → (s'.client a).status.caches = false → NoCall s a) :
    Agreed s' := by
  have other : ∀ c' t', ¬ (c' = c ∧ t' = t) → (s'.pc c' t').inAcquire = (s.pc c' t').inAcquire :=
    fun c' t' hne => hm.threads.frame.obs Pc.inAcquire Pc.inAcquire_wake hne
  have grant : a = c → s.pc c t = .acqRpc (.reply .ok) → (s.client a).status = .acquiring := by
    rintro rfl hp
    have hwants := h.wants a t (by rw [hp]; rfl)
    have hat : s.at (.rpc a t) = some a := by rw [St.at, hp]; rfl
    have hcold : (s.client a).status.caches = false := by
      by_contra hc
      cases hs.owned.single _ _ _ _ hat (at_cache (Bool.eq_true_of_not_eq_false hc))
    revert hwants hcold
    cases (s.client a).status <;> simp [Status.wants, Status.caches]
  refine ⟨fun b hb => ?_, fun c' t' hp => ?_⟩
  · rcases hm.what.token.owner_cases hb with ho | hq
    · obtain ⟨x, hx⟩ := h.backed b ho
      have hhere : x = .rpc c t ∨ x = .cache a → Here c a (s.client a) (s.pc c t) b := by
        rintro (rfl | rfl)
        · exact .inr hx
        · obtain ⟨hc, he⟩ := Option.ite_none_right_eq_some.mp hx
          exact .inl ⟨hc, Option.some.inj he⟩
      by_cases hat : x = .rpc c t ∨ x = .cache a
      · have hpin : ∀ st, a = c → (s.pc c t).pins = some st → (s.client a).status = st := by
          rintro st rfl hp
          exact hs.threads.pinned a t st hp
        rcases hm.what.kept grant hpin (hhere hat) with hn | hh
        · rw [hn] at hb
          cases hb
        · exact hm.at_of_here hh
      · exact ⟨x, (hm.at_other (fun he => hat (.inl he)) fun he => hat (.inr he)).trans hx⟩
    · exact ⟨.rpc c t, hq⟩
  · have old : ((s'.pc c t).inAcquire = true → (s.pc c t).inAcquire = true) →
        (s.pc c' t').inAcquire = true := by
      intro hq
      by_cases hne : c' = c ∧ t' = t
      · obtain ⟨rfl, rfl⟩ := hne
        exact hq hp
      · rw [← other c' t' hne, hp]
    by_cases hca : c' = a
    · subst hca
      cases hm.what.wants with
      | wants hw _ => exact hw
      | same hk hq =>
        rw [hk]
        exact h.wants c' t' (old hq)
      | giveUp hc hc' hq =>
        rw [hcalm hc hc' t'] at old
        cases old hq
      | released ha hpin hq =>
        subst ha
        have hrel := hs.threads.pinned _ _ _ hpin
        have hw := h.wants c' t' (old fun hq' => by rw [hq] at hq'; cases hq')
        rw [hrel] at hw
        cases hw
    · rw [hm.clients c' hca]
      cases hm.what.wants with
      | wants _ hq =>
        by_cases hne : c' = c ∧ t' = t
        · obtain ⟨rfl, rfl⟩ := hne
          rcases hq hp with hq | hq
          · exact h.wants _ _ hq
          · exact absurd hq.symm hca
        · exact h.wants c' t' (other c' t' hne ▸ hp)
      | same _ hq => exact h.wants c' t' (old hq)
      | giveUp _ _ hq => exact h.wants c' t' (old hq)
      | released ha _ hq => exact h.wants c' t' (old fun hq' => by rw [hq] at hq'; cases hq')

/-! ### Runs -/

theorem agreed_init : Agreed ({} : St Id T) := ⟨nofun, nofun⟩

variable [DecidableEq T] [Fintype T]

/-- The move makes `a` give its cached lock back. -/
def Act.givesUp (s : St Id T) (x : Act Id T) (a : Id) : Bool :=
  (s.client a).status.caches && (step s x).any fun s' => !(s'.client a).status.caches

/-- A client that starts to give the lock back has no acquire RPC under way. -/
def calm : St Id T → Act Id T → Prop := fun s x => ∀ a, x.givesUp s a = true → NoCall s a

theorem Agreed.step {s s' : St Id T} {x : Act Id T} (h : Agreed s) (hs : Safe s) (hx : calm s x)
    (hstep : Lock.step s x = some s') : Agreed s' := by
  obtain ⟨a, w, hm⟩ := step_move hstep
  refine h.move hs hm fun hc hc' => hx a ?_
  simp [Act.givesUp, hstep, hc, hc']

theorem agreed_of_steps {s : St Id T} (h : Steps Lock.step calm {} s) : Agreed s :=
  (h.invariant (I := fun s => Safe s ∧ Agreed s) ⟨safe_init, agreed_init⟩
    fun _ _ _ hs hx hstep => ⟨hs.1.step hstep, hs.2.step hs.1 hx hstep⟩).2

omit [DecidableEq T] [Fintype T] in
/-- With no RPC of the owner under way, its lock is cached. -/
theorem Agreed.cached {s : St Id T} (h : Agreed s) (ho : s.server.owner = some a)
    (hq : Quiet s a) : (s.client a).status = .free ∨ (s.client a).status = .locked := by
  obtain ⟨x, hx⟩ := h.backed a ho
  cases x with
  | cache b =>
    obtain ⟨hc, he⟩ := Option.ite_none_right_eq_some.mp hx
    obtain rfl := Option.some.inj he
    revert hc
    cases (s.client b).status <;> simp [Status.caches]
  | rpc c t =>
    exfalso
    have hrpc := hq.1 t
    have hrev := hq.2 c t
    change (s.pc c t).token c = some a at hx
    unfold Pc.token at hx
    split at hx
    · rename_i hp
      cases hx
      rw [hp] at hrpc
      cases hrpc
    · rename_i dst p hp
      obtain ⟨-, he⟩ := Option.ite_none_right_eq_some.mp hx
      rw [hp, Option.some.inj he] at hrev
      simp [Pc.revokes] at hrev
    · rename_i p hp
      obtain ⟨-, he⟩ := Option.ite_none_right_eq_some.mp hx
      obtain rfl := Option.some.inj he
      rw [hp] at hrpc
      cases hrpc
    · cases hx

/-- The lock ids fit in a C `int`, and a client that starts to give a lock back has no
acquire RPC for it under way. -/
def calmly : Sys Id T → Lid × Act Id T → Prop := fun s m => Fits m.1 ∧ calm (s.view m.1) m.2

instance [Fintype Id] (s : Sys Id T) (m : Lid × Act Id T) : Decidable (calmly s m) :=
  inferInstanceAs (Decidable (_ ∧ ∀ _, _ → _))

/-- **Server and client agree on ownership** in every run of calm moves: the client the
server records, with none of its RPCs under way, has the lock FREE or LOCKED. -/
theorem ownership_agrees {s : Sys Id T} (h : Steps Sys.step calmly {} s) {l : Lid} (hl : Fits l)
    {a : Id} (ho : (s.server l).owner = some a) (hq : Quiet (s.view l) a) :
    (s.client a (key l)).status = .free ∨ (s.client a (key l)).status = .locked := by
  have hrun : Steps Lock.step calm {} (s.view l) :=
    Sys.steps_view h (fun _ _ hm hk => eq_of_key_eq hm.1 hl hk) fun _ _ hm he => he ▸ hm.2
  exact (agreed_of_steps hrun).cached ho hq

/-- Client 1 is asked for the lock and gives it back, client 2 gets it: the server and
client 2 agree. -/
theorem ownership_agrees_handover :
    ∃ s : Sys (Fin 3) (Fin 1), Steps Sys.step calmly {} s ∧ (s.server 5).owner = some 2 ∧
      ((s.client 2 (key 5)).status = .free ∨ (s.client 2 (key 5)).status = .locked) := by
  obtain ⟨s, hs, ho, hq⟩ : ∃ s : Sys (Fin 3) (Fin 1), Steps Sys.step calmly {} s ∧
      (s.server 5).owner = some 2 ∧ Quiet (s.view 5) 2 :=
    Steps.exists_of_run (handover 1 2 0 ++
      [(5, .releaseReply 1 0 none), (5, .resume 2 0 none), (5, .serveAcquire 2 0), (5, .acquireReply 2 0)]) (by decide)
  exact ⟨s, hs, ho, ownership_agrees hs (by decide) ho hq⟩

/-- Two acquire RPCs of one client. Thread `t` of client 0 is told to retry and asks again;
before its request is executed client 1 takes the lock once more and gives it back for
client 2, so that client 0 is told to retry again, and its thread `u` asks as well. Thread
`u` is granted the lock while the request of thread `t` is still on its way. -/
def overlappingCalls {T : Type} (t u : T) : List (Lid × Act (Fin 3) T) :=
  handover 1 0 t ++ (5, .releaseReply 1 t none) :: (5, .resume 0 t none) :: handover 1 2 t ++
    [(5, .retryHandler 1 t), (5, .retryReply 1 t), (5, .releaseReply 1 t none), (5, .acquire 0 u),
      (5, .serveAcquire 0 u), (5, .acquireReply 0 u)]

/-- A grant is thrown away. After `overlappingCalls` client 2 asks for the lock, thread 1
gives it back, and then the request of thread 0 is granted: the answer finds the client
RELEASING. The server records client 0, and nobody has the lock. -/
theorem grant_dropped :
    ∃ s : Sys (Fin 3) (Fin 2), Steps Sys.step fitting {} s ∧ (s.server 5).owner = some 0 ∧
      Quiet (s.view 5) 0 ∧ (s.client 0 (key 5)).status = .none :=
  Steps.exists_of_run (overlappingCalls 0 1 ++
    [(5, .resume 2 0 none), (5, .serveAcquire 2 0), (5, .readOwner 2 0), (5, .revokeHandler 2 0),
      (5, .release 0 1 none), (5, .dorelease 0 1), (5, .serveRelease 0 1), (5, .retryHandler 0 1),
      (5, .retryReply 0 1), (5, .serveAcquire 0 0), (5, .acquireReply 0 0),
      (5, .releaseReply 0 1 (some 0))])
    (by decide +kernel)

end Yfs.Lock

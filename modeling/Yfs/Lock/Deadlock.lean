import Mathlib.Logic.Relation
import Yfs.Lock.Waiters

/-! No cycle of waits between the handlers, unless the owner waits for itself.

Both sides hold a mutex of the lock across a call to the other: the revoke handler holds
its client's across the release RPC, the server's release handler holds the server's
across the retry calls. `Waits` is who waits for whom. A release handler that tells a
client to retry can only be kept waiting by that client's revoke handler, and that one
is waiting for nobody: its own release would have to be the one the handler is serving.
So every wait goes down in rank (`Waits.rank`), as long as the client that releases is
not itself told to retry. It is told when it is in its own waiter set, and then the two
handlers wait for each other (`handlers_deadlock`). -/
namespace Yfs.Lock
open Base

variable {Id T : Type} {c a : Id} {k k' k₀ : ClientLock} {q q' : Pc Id} {w : Wakes}

/-! ### The server's mutex -/

/-- The release handler is in its retry loop. -/
def RelPhase.serving : RelPhase Id → Bool
  | .retry .. | .retryReply .. => true
  | _ => false

/-- The thread's stack carries a release handler in its retry loop, which holds the
server's mutex. -/
def Pc.serving (c : Id) (q : Pc Id) : Bool :=
  match q.release? c with
  | some (_, p) => p.serving
  | none => false

theorem Pc.serving_wake (c : Id) (q : Pc Id) : q.wake.serving c = q.serving c := by
  cases q <;> rfl

theorem Pc.serving_release {b : Id} {p : RelPhase Id} (h : q.release? c = some (b, p)) :
    q.serving c = p.serving := by
  rw [Pc.serving, h]

theorem Pc.release?_wake (c : Id) (q : Pc Id) : q.wake.release? c = q.release? c := by
  cases q <;> rfl

theorem Entry.release? (h : Entry k q k₀) (c : Id) :
    q.release? c = none := by
  cases h with
  | call hq _ => rw [hq]; rfl
  | woken hq _ => rw [hq]; rfl
  | reply r hq _ => rw [hq]; rfl

theorem Exit.release? (h : Exit k q k₀) (c : Id) :
    q.release? c = none := by
  cases h with
  | call hq _ => rw [hq]; rfl
  | woken hq _ => rw [hq]; rfl

theorem retryLoop_serving (cnt : Nat) (l : List Id) :
    (retryLoop cnt l).serving = true ↔ retryLoop cnt l ≠ .reply := by
  cases l with
  | nil => simp [retryLoop, RelPhase.serving]
  | cons w rest => cases cnt <;> simp [retryLoop, RelPhase.serving]

variable [LinearOrder Id] {v v' : ServerLock Id}

/-- What a move does to the server's mutex and to the release in the mover's stack. -/
inductive ServeMove (c : Id) (v : ServerLock Id) (q : Pc Id) (v' : ServerLock Id) (q' : Pc Id) : Prop where
  | quiet : v'.mutex = v.mutex → v'.lock = v.lock ∨ v.mutex = false → q'.serving c = q.serving c →
      (∀ b p, q'.release? c = some (b, p) → p.calls = [] ∨
        ∃ p', q.release? c = some (b, p') ∧ ∀ x ∈ p.calls, x ∈ p'.calls) →
      ServeMove c v q v' q'
  | start (b : Id) (p : RelPhase Id) : q.release? c = some (b, .request) → v.mutex = false →
      v'.lock = false → v'.mutex = p.serving → q'.release? c = some (b, p) →
      p.calls = v.waiters.elems.take 2 → ServeMove c v q v' q'
  | next (b : Id) (p p' : RelPhase Id) : q.release? c = some (b, p) → p.serving = true →
      v'.lock = v.lock → v'.mutex = p'.serving → q'.release? c = some (b, p') →
      p'.calls = p.calls → ServeMove c v q v' q'

theorem ServeMove.none (hv : v'.mutex = v.mutex)
    (hl : v'.lock = v.lock ∨ v.mutex = false) (hq : q.serving c = false)
    (hq' : ∀ b p, q'.release? c = some (b, p) → p = .dorelease ∨ p = .request) :
    ServeMove c v q v' q' := by
  have hserving : q'.serving c = false := by
    cases hr : q'.release? c with
    | none => rw [Pc.serving, hr]
    | some r => rcases hq' r.1 r.2 hr with h | h <;> rw [Pc.serving_release hr, h] <;> rfl
  refine .quiet hv hl (hserving.trans hq.symm) fun b p hr => .inl ?_
  rcases hq' b p hr with rfl | rfl <;> rfl

theorem decide_ne_reply (cnt : Nat) (l : List Id) :
    decide (retryLoop cnt l ≠ .reply) = (retryLoop cnt l).serving := by
  rw [Bool.eq_iff_iff, decide_eq_true_iff, retryLoop_serving]

theorem Local.serve (h : Local c a v k q w v' k' q') : ServeMove c v q v' q' := by
  have idle : ∀ {q : Pc Id}, q.release? c = none → q.serving c = false := by
    intro q hr
    rw [Pc.serving, hr]
  cases h with
  | send _ _ he | take _ _ he | block _ _ he | keep _ _ he | relBlock _ _ he =>
    subst_vars
    exact .none rfl (.inl rfl) (idle (he.release? _)) nofun
  | grant hq hm _ _ hv _ hq' => subst hv hq hq'; exact .none rfl (.inr hm) rfl nofun
  | already | join | demand | readOwner | revokeNote | revokeReply | released | revoked =>
    subst_vars
    exact .none rfl (.inl rfl) rfl nofun
  | revokeFree hq _ _ _ hv _ hq' =>
    subst hv hq hq'
    refine .none rfl (.inl rfl) rfl fun b p hr => .inl ?_
    cases hr
    rfl
  | giveBack k₀ _ he _ _ _ _ hv _ hq =>
    subst hv hq
    refine .none rfl (.inl rfl) (idle (he.release? c)) fun b p hr => .inl ?_
    cases hr
    rfl
  | flushed _ hq _ hv _ hq' =>
    subst hv hq hq'
    refine .none rfl (.inl rfl) rfl fun b p hr => .inr ?_
    cases hr
    rfl
  | flushedRevoke hq _ hv _ hq' =>
    subst hv hq hq'
    refine .none rfl (.inl rfl) rfl fun b p hr => .inr ?_
    cases hr
    rfl
  | serveRelease b p hr hm hp _ hv _ hq =>
    subst hv hq hp
    exact .start b _ hr hm rfl (decide_ne_reply _ _) (Pc.release?_setRelease hr) (retryLoop_calls _ _)
  | retryHandler b cnt rest hr _ _ hv _ hq =>
    subst hv hq
    have hr' : (q.setRelease (.retryReply cnt rest)).release? c = some (b, .retryReply cnt rest) :=
      Pc.release?_setRelease hr
    refine .quiet rfl (.inl rfl) (by rw [Pc.serving_release hr, Pc.serving_release hr']; rfl) ?_
    intro d p hd
    cases hr'.symm.trans hd
    exact .inr ⟨_, hr, fun x hx => List.mem_cons_of_mem _ hx⟩
  | retryReply b cnt rest p hr hp _ hv _ hq =>
    subst hv hq hp
    exact .next b _ _ hr rfl rfl (decide_ne_reply _ _) (Pc.release?_setRelease hr) (retryLoop_calls _ _)
  | wake _ _ hv _ hq =>
    subst hv hq
    refine .quiet rfl (.inl rfl) (q.serving_wake c) fun b p hr => ?_
    exact .inr ⟨p, by rwa [Pc.release?_wake] at hr, fun _ => id⟩

/-- The server's mutex is held by the one release handler that is in its retry loop, and
the lock is free meanwhile. -/
structure Served (s : St Id T) : Prop where
  held : ∀ c t, (s.pc c t).serving c = true → s.server.mutex = true
  single : ∀ c t c' t', (s.pc c t).serving c = true → (s.pc c' t').serving c' = true → c' = c ∧ t' = t
  free : s.server.mutex = true → s.server.lock = false

theorem served_init : Served ({} : St Id T) := ⟨nofun, nofun, nofun⟩

section Move
variable {s s' : St Id T} {c a : Id} {t : T} {w : Wakes}

theorem Move.served (hm : Move s s' c t a w)
    (alone : ∀ c' t', ¬ (c' = c ∧ t' = t) → (s.pc c' t').serving c' = false) {b : Id} {p : RelPhase Id}
    (hr : (s'.pc c t).release? c = some (b, p)) (hmutex : s'.server.mutex = p.serving)
    (hlock : s'.server.lock = false) : Served s' := by
  have only : ∀ c' t', (s'.pc c' t').serving c' = true → c' = c ∧ t' = t := by
    intro c' t' hx
    by_contra hne
    rw [hm.threads.frame.obs (Pc.serving c') (Pc.serving_wake c') hne, alone c' t' hne] at hx
    cases hx
  refine ⟨fun c' t' hx => ?_, fun c₁ t₁ c₂ t₂ h₁ h₂ => ?_, fun _ => hlock⟩
  · obtain ⟨rfl, rfl⟩ := only c' t' hx
    rw [hmutex, ← Pc.serving_release hr, hx]
  · obtain ⟨rfl, rfl⟩ := only c₁ t₁ h₁
    exact only c₂ t₂ h₂

/-- **Every move keeps the server's mutex with the handler that holds it.** -/
theorem Served.move (h : Served s) (hm : Move s s' c t a w) : Served s' := by
  cases hm.what.serve with
  | quiet hmutex hlock hq _ =>
    have same : ∀ c' t', (s'.pc c' t').serving c' = (s.pc c' t').serving c' := by
      intro c' t'
      by_cases hne : c' = c ∧ t' = t
      · rw [hne.1, hne.2, hq]
      · exact hm.threads.frame.obs (Pc.serving c') (Pc.serving_wake c') hne
    refine ⟨fun c' t' hx => ?_, fun c₁ t₁ c₂ t₂ h₁ h₂ => ?_, fun hx => ?_⟩
    · rw [hmutex]
      exact h.held c' t' (same c' t' ▸ hx)
    · exact h.single c₁ t₁ c₂ t₂ (same c₁ t₁ ▸ h₁) (same c₂ t₂ ▸ h₂)
    · rw [hmutex] at hx
      rcases hlock with hlock | hlock
      · rw [hlock]
        exact h.free hx
      · cases hlock.symm.trans hx
  | start b p _ hmutex hlock hmutex' hr' _ =>
    refine hm.served (fun c' t' _ => ?_) hr' hmutex' hlock
    by_contra hx
    rw [h.held c' t' (Bool.eq_true_of_not_eq_false hx)] at hmutex
    cases hmutex
  | next b p p' hr hp hlock hmutex' hr' _ =>
    have hserving : (s.pc c t).serving c = true := (Pc.serving_release hr).trans hp
    refine hm.served (fun c' t' hne => ?_) hr' hmutex' ?_
    · by_contra hx
      exact hne (h.single c t c' t' hserving (Bool.eq_true_of_not_eq_false hx))
    · rw [hlock]
      exact h.free (h.held c t hserving)

/-- No release handler tells the client it serves to retry. -/
def TellsOthers (s : St Id T) : Prop :=
  ∀ c t b p, (s.pc c t).release? c = some (b, p) → b ∉ p.calls

theorem TellsOthers.move (h : TellsOthers s) (hs : Safe s) (hw : Waiters s)
    (hm : Move s s' c t a w) : TellsOthers s' := by
  intro c' t' b p hr
  by_cases hne : c' = c ∧ t' = t
  · obtain ⟨rfl, rfl⟩ := hne
    cases hm.what.serve with
    | quiet _ _ _ hcalls =>
      rcases hcalls b p hr with hn | ⟨p', hr', hsub⟩
      · rw [hn]
        exact List.not_mem_nil
      · exact fun hb => h c' t' b p' hr' (hsub b hb)
    | start d p' hd _ _ _ hr' hcalls =>
      cases hr'.symm.trans hr
      rw [hcalls]
      exact fun hb => hw.notOwner b (hs.release_owner hd) (List.mem_of_mem_take hb)
    | next d p₀ p' hd _ _ _ hr' hcalls =>
      cases hr'.symm.trans hr
      rw [hcalls]
      exact h c' t' b p₀ hd
  · rw [hm.threads.frame.obs (Pc.release? c') (Pc.release?_wake c') hne] at hr
    exact h c' t' b p hr

end Move

/-! ### Who waits for whom -/

/-- A client thread, or a handler that runs on its behalf: the server's acquire handler,
the revoke handler that one has called, the server's release handler, the retry handler
that one has called. -/
inductive Actor (Id T : Type) where
  | thread (c : Id) (t : T)
  | acquire (c : Id) (t : T)
  | revoke (c : Id) (t : T)
  | release (c : Id) (t : T)
  | retry (c : Id) (t : T)

/-- The server has the request of a release RPC and has not answered it. -/
def RelPhase.pending : RelPhase Id → Bool
  | .request | .retry .. | .retryReply .. => true
  | _ => false

/-- `x` waits for the answer of `y`. -/
inductive Calls (s : St Id T) : Actor Id T → Actor Id T → Prop where
  | acquire {c : Id} {t : T} {p : AcqPhase Id} : s.pc c t = .acqRpc p → (∀ r, p ≠ .reply r) →
      Calls s (.thread c t) (.acquire c t)
  | revoke {c dst : Id} {t : T} : s.pc c t = .acqRpc (.revoke dst) → Calls s (.acquire c t) (.revoke c t)
  | revoking {c dst : Id} {t : T} {p : RelPhase Id} : s.pc c t = .acqRpc (.revoking dst p) →
      Calls s (.acquire c t) (.revoke c t)
  | release {c : Id} {t : T} {p : RelPhase Id} : s.pc c t = .relRpc p → p.pending = true →
      Calls s (.thread c t) (.release c t)
  | giveBack {c dst : Id} {t : T} {p : RelPhase Id} : s.pc c t = .acqRpc (.revoking dst p) →
      p.pending = true → Calls s (.revoke c t) (.release c t)
  | retry {c b x : Id} {t : T} {cnt : Nat} {rest : List Id} :
      (s.pc c t).release? c = some (b, .retry cnt x rest) → Calls s (.release c t) (.retry c t)

/-- The actor holds `status_mutex_map` of client `b` across a call. -/
inductive HoldsClient (s : St Id T) : Actor Id T → Id → Prop where
  | flush {c : Id} {t : T} : s.pc c t = .relRpc .dorelease → HoldsClient s (.thread c t) c
  | revoke {c b : Id} {t : T} {p : RelPhase Id} : s.pc c t = .acqRpc (.revoking b p) →
      HoldsClient s (.revoke c t) b

/-- The actor's next step locks `status_mutex_map` of client `b`. -/
inductive NeedsClient (s : St Id T) : Actor Id T → Id → Prop where
  | acquired {c : Id} {t : T} {r : Ret} : s.pc c t = .acqRpc (.reply r) → NeedsClient s (.thread c t) c
  | released {c : Id} {t : T} : s.pc c t = .relRpc .reply → NeedsClient s (.thread c t) c
  | outside {c : Id} {t : T} : (s.pc c t).inRpc = false → NeedsClient s (.thread c t) c
  | revoke {c b : Id} {t : T} : s.pc c t = .acqRpc (.revoke b) → NeedsClient s (.revoke c t) b
  | retry {c b x : Id} {t : T} {cnt : Nat} {rest : List Id} :
      (s.pc c t).release? c = some (b, .retry cnt x rest) → NeedsClient s (.retry c t) x

/-- The actor's next step locks the server's `lock_mutex_map`. -/
inductive NeedsServer (s : St Id T) : Actor Id T → Prop where
  | acquire {c : Id} {t : T} : s.pc c t = .acqRpc .request → NeedsServer s (.acquire c t)
  | release {c b : Id} {t : T} : (s.pc c t).release? c = some (b, .request) →
      NeedsServer s (.release c t)

/-- `x` waits for `y`: for its answer, or for a mutex it holds. -/
inductive Waits (s : St Id T) (x : Actor Id T) : Actor Id T → Prop where
  | call {y : Actor Id T} : Calls s x y → Waits s x y
  | client {y : Actor Id T} {b : Id} : NeedsClient s x b → HoldsClient s y b → Waits s x y
  | server {c : Id} {t : T} : NeedsServer s x → (s.pc c t).serving c = true →
      Waits s x (.release c t)

/-- How far a thread is from one that waits for nobody: the flush is. -/
def Pc.threadRank : Pc Id → Nat
  | .relRpc .dorelease => 0
  | _ => 8

def Pc.revokeRank : Pc Id → Nat
  | .acqRpc (.revoking _ p) => if p.pending then 5 else 0
  | _ => 6

def Pc.releaseRank (c : Id) (q : Pc Id) : Nat :=
  match q.release? c with
  | some (_, .request) => 4
  | _ => 3

def rank (s : St Id T) : Actor Id T → Nat
  | .thread c t => (s.pc c t).threadRank
  | .acquire _ _ => 7
  | .revoke c t => (s.pc c t).revokeRank
  | .release c t => (s.pc c t).releaseRank c
  | .retry _ _ => 2

theorem rank_revoking {s : St Id T} {b : Id} {t : T} {p : RelPhase Id}
    (hp : s.pc c t = .acqRpc (.revoking b p)) : rank s (.revoke c t) = if p.pending then 5 else 0 := by
  rw [rank, hp, Pc.revokeRank]

theorem rank_thread {s : St Id T} {t : T} (hp : s.pc c t = q)
    (hq : q ≠ .relRpc .dorelease) : rank s (.thread c t) = 8 := by
  rw [rank, hp]
  unfold Pc.threadRank
  split
  · contradiction
  · rfl

omit [LinearOrder Id] in
theorem Pc.revokeRank_lt (q : Pc Id) : q.revokeRank < 7 := by
  unfold Pc.revokeRank
  split
  · split <;> omega
  · omega

omit [LinearOrder Id] in
theorem Pc.releaseRank_lt (c : Id) (q : Pc Id) : q.releaseRank c < 5 := by
  unfold Pc.releaseRank
  split <;> omega

omit [LinearOrder Id] in
theorem Pc.releaseRank_serving (h : q.serving c = true) : q.releaseRank c = 3 := by
  unfold Pc.releaseRank
  split
  · rename_i hr
    rw [Pc.serving_release hr] at h
    cases h
  · rfl

section Rank
variable {s : St Id T}

theorem HoldsClient.rank_lt {y : Actor Id T} {b : Id} (h : HoldsClient s y b) : rank s y < 6 := by
  cases h with
  | flush hp =>
    rw [rank, hp]
    exact Nat.zero_lt_succ 5
  | revoke hp =>
    rw [rank_revoking hp]
    split <;> omega

/-- A client that is told to retry, and whose revoke handler holds its mutex, is waiting
for no release. -/
theorem TellsOthers.not_pending (ho : TellsOthers s) (h : Served s) (hs : Safe s) {c' b x : Id}
    {t t' : T} {cnt : Nat} {rest : List Id} {p : RelPhase Id} (hr : (s.pc c t).release? c = some (b, .retry cnt x rest))
    (hp : s.pc c' t' = .acqRpc (.revoking x p)) : p.pending = false := by
  have hserving : (s.pc c t).serving c = true := Pc.serving_release hr
  have hr' : (s.pc c' t').release? c' = some (x, p) := Pc.release?_eq_some.mpr (.inr hp)
  cases p with
  | dorelease => rfl
  | reply => rfl
  | request =>
    have hlock := h.free (h.held c t hserving)
    rw [hs.owned.lock, hs.release_owner hr'] at hlock
    cases hlock
  | retry cnt' y rest' =>
    obtain ⟨rfl, rfl⟩ := h.single c t c' t' hserving (Pc.serving_release hr')
    cases hr.symm.trans hr'
    exact absurd (List.mem_cons_self ..) (ho _ _ _ _ hr')
  | retryReply cnt' rest' =>
    obtain ⟨rfl, rfl⟩ := h.single c t c' t' hserving (Pc.serving_release hr')
    cases hr.symm.trans hr'

/-- **Every wait goes down in rank.** -/
theorem Waits.rank_lt {x y : Actor Id T} (h : Waits s x y) (ho : TellsOthers s) (hv : Served s)
    (hs : Safe s) :
    rank s y < rank s x := by
  cases h with
  | call hc =>
    cases hc with
    | acquire hp _ =>
      rw [rank_thread hp nofun]
      exact Nat.lt_succ_self 7
    | revoke _ => exact Pc.revokeRank_lt _
    | revoking _ => exact Pc.revokeRank_lt _
    | release hp hpend =>
      rw [rank_thread hp (by rintro ⟨⟩; cases hpend)]
      exact (Pc.releaseRank_lt _ _).trans (by omega)
    | giveBack hp hpend =>
      rw [rank_revoking hp, if_pos hpend]
      exact Pc.releaseRank_lt _ _
    | retry hr =>
      rw [rank, rank, Pc.releaseRank_serving (Pc.serving_release hr)]
      exact Nat.lt_succ_self 2
  | client hn hh =>
    cases hn with
    | acquired hp =>
      rw [rank_thread hp nofun]
      exact hh.rank_lt.trans (by omega)
    | released hp =>
      rw [rank_thread hp nofun]
      exact hh.rank_lt.trans (by omega)
    | outside hp =>
      rw [rank_thread rfl fun he => by rw [he] at hp; cases hp]
      exact hh.rank_lt.trans (by omega)
    | revoke hp => exact hh.rank_lt.trans_eq (by rw [rank, hp]; rfl)
    | retry hr =>
      cases hh with
      | flush hp =>
        rw [rank, hp]
        exact Nat.zero_lt_two
      | revoke hp =>
        rw [rank_revoking hp, ho.not_pending hv hs hr hp]
        exact Nat.zero_lt_two
  | server hn hserving =>
    rw [rank, Pc.releaseRank_serving hserving]
    cases hn with
    | acquire _ => exact Nat.lt_add_of_pos_right (Nat.succ_pos 3)
    | release hr =>
      rw [rank, Pc.releaseRank, hr]
      exact Nat.lt_succ_self 3

/-- No cycle of waits. -/
theorem TellsOthers.acyclic (ho : TellsOthers s) (h : Served s) (hs : Safe s) (x : Actor Id T) :
    ¬ Relation.TransGen (Waits s) x x := by
  have down : ∀ y, Relation.TransGen (Waits s) x y → rank s y < rank s x := by
    intro y hxy
    induction hxy with
    | single hw => exact hw.rank_lt ho h hs
    | tail _ hw ih => exact (hw.rank_lt ho h hs).trans ih
  exact fun hx => Nat.lt_irrefl _ (down x hx)

/-- A revoke handler whose release is served by a handler that tells its own client to
retry: revoke, release and retry handler wait for each other. -/
theorem cycle_of_self_retry {b : Id} {t : T} {cnt : Nat} {rest : List Id}
    (h : s.pc c t = .acqRpc (.revoking b (.retry cnt b rest))) :
    Relation.TransGen (Waits s) (.revoke c t) (.revoke c t) := by
  have hr : (s.pc c t).release? c = some (b, .retry cnt b rest) := Pc.release?_eq_some.mpr (.inr h)
  have hrelease : Waits s (.revoke c t) (.release c t) := .call (.giveBack h rfl)
  have hretry : Waits s (.release c t) (.retry c t) := .call (.retry hr)
  have hmutex : Waits s (.retry c t) (.revoke c t) := .client (.retry hr) (.revoke h)
  exact ((Relation.TransGen.single hrelease).tail hretry).tail hmutex

end Rank

/-! ### Runs -/

section Runs
variable [DecidableEq T] [Fintype T]

theorem served_of_steps {ok : St Id T → Act Id T → Prop} {s : St Id T} (h : Steps Lock.step ok {} s) :
    Served s :=
  h.invariant served_init fun s x s' hs _ hstep => by
    obtain ⟨a, w, hm⟩ := step_move hstep
    exact hs.move hm

theorem tellsOthers_of_steps {s : St Id T} (h : Steps Lock.step fresh {} s) : TellsOthers s :=
  (h.invariant (I := fun s => (Safe s ∧ Waiters s) ∧ TellsOthers s)
    ⟨⟨safe_init, waiters_init⟩, nofun⟩ fun s x s' hs hx hstep => by
      obtain ⟨a, w, hm⟩ := step_move hstep
      exact ⟨⟨hs.1.1.move hm, hs.1.2.move hs.1.1 hm hx⟩, hs.2.move hs.1.1 hs.1.2 hm⟩).2

/-- **No cyclic wait** in a run in which the server never executes an acquire of the owner:
threads and handlers of a lock never wait for each other in a circle, and the server
never tells a client to retry whose revoke handler waits for that same release. -/
theorem no_cyclic_wait {s : Sys Id T} (h : Steps Sys.step freshly {} s) {l : Lid} (hl : Fits l) :
    (∀ x, ¬ Relation.TransGen (Waits (s.view l)) x x) ∧
      ∀ c t b cnt rest, s.pc c t l ≠ .acqRpc (.revoking b (.retry cnt b rest)) := by
  have hrun := Sys.steps_fresh h hl
  have hacyclic := (tellsOthers_of_steps hrun).acyclic (served_of_steps hrun) (safe_of_steps hrun)
  exact ⟨hacyclic, fun c t b cnt rest hp => hacyclic _ (cycle_of_self_retry hp)⟩

/-- Client 1 has the lock cached, client 2 asks for it, and the revoke handler of client 1
gives it back to the server, which tells client 2 to retry: client 2's thread waits for
client 1's revoke handler and that one for the server, in no circle. -/
theorem no_cyclic_wait_handover :
    ∃ s : Sys (Fin 3) (Fin 1), Steps Sys.step freshly {} s ∧
      s.pc 2 0 5 = .acqRpc (.revoking 1 (.retry 1 2 [])) ∧
      ∀ x, ¬ Relation.TransGen (Waits (s.view 5)) x x := by
  obtain ⟨s, hs, hp⟩ : ∃ s : Sys (Fin 3) (Fin 1), Steps Sys.step freshly {} s ∧
      s.pc 2 0 5 = .acqRpc (.revoking 1 (.retry 1 2 [])) :=
    Steps.exists_of_run
      [(5, .acquire 1 0), (5, .serveAcquire 1 0), (5, .acquireReply 1 0), (5, .release 1 0 none),
        (5, .acquire 2 0), (5, .serveAcquire 2 0), (5, .readOwner 2 0), (5, .revokeHandler 2 0),
        (5, .dorelease 2 0), (5, .serveRelease 2 0)]
      (by decide)
  exact ⟨s, hs, hp, (no_cyclic_wait hs (by decide)).1⟩

/-- The handlers deadlock. After `overlappingCalls` the request of thread 0 is executed
while client 0 owns the lock, so that client 0 is in the waiter set. Its threads leave the
lock cached, client 1 asks for it, and the revoke handler of client 0 holds its mutex and
releases; the server tells client 0 to retry, and the retry handler waits for that mutex. -/
theorem handlers_deadlock :
    ∃ s : Sys (Fin 3) (Fin 2), Steps Sys.step fitting {} s ∧
      s.pc 1 0 5 = .acqRpc (.revoking 0 (.retry 1 0 [1, 2])) ∧
      Relation.TransGen (Waits (s.view 5)) (.revoke 1 0) (.revoke 1 0) := by
  obtain ⟨s, hs, hp⟩ : ∃ s : Sys (Fin 3) (Fin 2), Steps Sys.step fitting {} s ∧
      s.pc 1 0 5 = .acqRpc (.revoking 0 (.retry 1 0 [1, 2])) :=
    Steps.exists_of_run (overlappingCalls 0 1 ++
      [(5, .serveAcquire 0 0), (5, .acquireReply 0 0), (5, .release 0 1 (some 0)), (5, .resume 0 0 none),
        (5, .release 0 0 none), (5, .acquire 1 0), (5, .serveAcquire 1 0), (5, .readOwner 1 0),
        (5, .revokeHandler 1 0), (5, .dorelease 1 0), (5, .serveRelease 1 0)])
      (by decide +kernel)
  exact ⟨s, hs, hp, cycle_of_self_retry hp⟩

end Runs

end Yfs.Lock

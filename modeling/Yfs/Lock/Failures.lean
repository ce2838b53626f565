import Mathlib.Data.Fintype.Sum
import Yfs.Lock.Waiters

/-! Acquire RPCs that fail.

`acquire` tells one result of its RPC apart from all others: OK. Any other, the server's
RETRY or a failure of the RPC itself, leads back to `CHECK_AGAIN` with the status still
ACQUIRING, and the thread waits for a retry. After RETRY the server has the client among
its waiters and will send one. After a failure it may never have heard of the client.

`Sys.event` is the system in which an acquire RPC may fail without the lock having been
granted. While every failure is *covered* a client that is ACQUIRING has been heard or
will be (`Pursued`); a failure that is not leaves it wedged, and no later run of the
system gets it out (`wedged_forever`). -/
namespace Yfs.Lock
open Base

variable {Id T H U : Type}

/-! ### Events -/

/-- A move, or the failure of an RPC. A thread whose acquire RPC fails goes on, and what
is left of the RPC may go on as well, as one of `H`: its request may still reach the
server, and a handler that has begun does not stop. `drop` is the answer of such an RPC,
which nobody waits for. -/
inductive Event (Id T H : Type) where
  | move (x : Act Id (T ⊕ H))
  | fail (c : Id) (t : T) (left : Option H)
  | drop (c : Id) (h : H)
  deriving DecidableEq

def Event.thread : Event Id T H → Id × (T ⊕ H)
  | .move x => x.thread
  | .fail c t _ => (c, .inl t)
  | .drop c h => (c, .inr h)

section Step
variable [LinearOrder Id]

/-- The moves of an RPC that has failed: those of the server's handler and of the calls
it makes. The lock is not granted to it. -/
def Act.leftBehind (v : ServerLock Id) : Act Id U → Bool
  | .serveAcquire _ _ => v.lock
  | .readOwner _ _ | .revokeHandler _ _ | .revokeReply _ _ | .dorelease _ _ | .serveRelease _ _
  | .retryHandler _ _ | .retryReply _ _ | .releaseReply _ _ _ => true
  | .acquire _ _ | .acquireReply _ _ | .release _ _ _ | .wake _ _ | .resume _ _ _ => false

variable [DecidableEq T] [DecidableEq H]

/-- The acquire RPC of `t` fails, without having been granted the lock: `ret` is not OK,
and `acquire` goes to `CHECK_AGAIN` with the entries as they are. With nothing `left`, the
request or the answer is lost. -/
def failAcquire (s : St Id (T ⊕ H)) (c : Id) (t : T) (left : Option H) : Option (St Id (T ⊕ H)) :=
  match s.pc c (.inl t), left with
  | .acqRpc p, none =>
    if (p = .request ∨ p = .reply .retry) ∧ (s.client c).mutex = false then
      enter s c (.inl t) (s.client c)
    else none
  | .acqRpc p, some h =>
    if (p ≠ .reply .ok ∧ s.pc c (.inr h) = .idle) ∧ (s.client c).mutex = false then
      enter {s with pc := setPc s.pc c (.inr h) (.acqRpc p)} c (.inl t) (s.client c)
    else none
  | _, _ => none

def event [Fintype T] [Fintype H] (s : St Id (T ⊕ H)) : Event Id T H → Option (St Id (T ⊕ H))
  | .move x => if x.thread.2.isLeft || x.leftBehind s.server then step s x else none
  | .fail c t left => failAcquire s c t left
  | .drop c h =>
    match s.pc c (.inr h) with
    | .acqRpc (.reply _) => some {s with pc := setPc s.pc c (.inr h) .idle}
    | _ => none

/-- Everything a failure does: the thread is at `CHECK_AGAIN` with the entries as they are,
and what is left of its RPC may have a place among `H`. -/
structure Failed (s s' : St Id (T ⊕ H)) (c : Id) (t : T) (left : Option H) (p : AcqPhase Id) : Prop where
  calling : s.pc c (.inl t) = .acqRpc p
  notGranted : p ≠ .reply .ok
  checks : checkAgain (s.client c) = some (s'.client c, s'.pc c (.inl t))
  server : s'.server = s.server
  clients : ∀ b, b ≠ c → s'.client b = s.client b
  threads : ∀ c' t', ¬ (c' = c ∧ t' = t) → s'.pc c' (.inl t') = s.pc c' (.inl t')
  others : ∀ c' h, ¬ (c' = c ∧ left = some h) → s'.pc c' (.inr h) = s.pc c' (.inr h)
  goesOn : ∀ h, left = some h → s.pc c (.inr h) = .idle ∧ s'.pc c (.inr h) = .acqRpc p

/-- A thread at `CHECK_AGAIN` in a state that has the rest of its RPC elsewhere. -/
theorem failed_of_enter {s s' : St Id (T ⊕ H)} {c : Id} {t : T} {left : Option H} {p : AcqPhase Id}
    {pc : Id → T ⊕ H → Pc Id} (hp : s.pc c (.inl t) = .acqRpc p) (hok : p ≠ .reply .ok)
    (hthreads : ∀ c' t', pc c' (.inl t') = s.pc c' (.inl t'))
    (hothers : ∀ c' h, ¬ (c' = c ∧ left = some h) → pc c' (.inr h) = s.pc c' (.inr h))
    (hgoes : ∀ h, left = some h → s.pc c (.inr h) = .idle ∧ pc c (.inr h) = .acqRpc p)
    (h : enter {s with pc := pc} c (.inl t) (s.client c) = some s') : Failed s s' c t left p := by
  rw [enter, Option.map_eq_some_iff] at h
  obtain ⟨r, hr, rfl⟩ := h
  have hrest (c' : Id) (g : H) : setPc pc c (.inl t) r.2 c' (.inr g) = pc c' (.inr g) := setPc_ne (by simp)
  refine ⟨hp, hok, by simp [hr], rfl, fun b hb => setClient_ne hb, fun c' t' hne => ?_,
    fun c' g hne => (hrest c' g).trans (hothers c' g hne),
    fun g hg => ⟨(hgoes g hg).1, (hrest c g).trans (hgoes g hg).2⟩⟩
  exact (setPc_ne fun he => hne ⟨he.1, Sum.inl.inj he.2⟩).trans (hthreads c' t')

theorem failAcquire_failed {s s' : St Id (T ⊕ H)} {c : Id} {t : T} {left : Option H}
    (h : failAcquire s c t left = some s') : ∃ p, Failed s s' c t left p := by
  unfold failAcquire at h
  split at h
  · rename_i p hp
    rw [Option.ite_none_right_eq_some] at h
    obtain ⟨⟨hlost, -⟩, h⟩ := h
    refine ⟨p, failed_of_enter hp ?_ (fun _ _ => rfl) (fun _ _ _ => rfl) nofun h⟩
    rintro rfl
    simp at hlost
  · rename_i p g hp
    rw [Option.ite_none_right_eq_some] at h
    obtain ⟨⟨⟨hok, hidle⟩, -⟩, h⟩ := h
    refine ⟨p, failed_of_enter hp hok (fun c' t' => setPc_ne (by simp)) (fun c' g' hne => ?_) (fun g' hg => ?_) h⟩
    · exact setPc_ne fun he => hne ⟨he.1, congrArg some (Sum.inr.inj he.2).symm⟩
    · cases hg
      exact ⟨hidle, setPc_self ..⟩
  · cases h

structure Dropped (s s' : St Id (T ⊕ H)) : Prop where
  server : s'.server = s.server
  clients : s'.client = s.client
  threads : ∀ c t, s'.pc c (.inl t) = s.pc c (.inl t)
  left : ∀ c h, s'.pc c (.inr h) = s.pc c (.inr h) ∨
    (∃ r, s.pc c (.inr h) = .acqRpc (.reply r)) ∧ s'.pc c (.inr h) = .idle

theorem event_drop [Fintype T] [Fintype H] {s s' : St Id (T ⊕ H)} {c : Id} {g : H}
    (h : event s (.drop c g) = some s') : Dropped s s' := by
  simp only [event] at h
  split at h
  · rename_i r hr
    cases h
    refine ⟨rfl, rfl, fun _ _ => setPc_ne (by simp), fun c' g' => ?_⟩
    by_cases he : c' = c ∧ (.inr g' : T ⊕ H) = .inr g
    · obtain ⟨rfl, he⟩ := he
      rw [he]
      exact .inr ⟨⟨r, hr⟩, setPc_self ..⟩
    · exact .inl (setPc_ne he)
  · cases h

end Step

/-! ### Asking for the lock -/

/-- In an acquire RPC that the server has not executed, or that it has granted. -/
def Pc.pending : Pc Id → Bool
  | .acqRpc .request | .acqRpc (.reply .ok) => true
  | _ => false

theorem Pc.pending_eq_true {q : Pc Id} :
    q.pending = true ↔ q = .acqRpc .request ∨ q = .acqRpc (.reply .ok) := by
  constructor
  · intro h
    unfold Pc.pending at h
    split at h
    · exact .inl rfl
    · exact .inr rfl
    · cases h
  · rintro (rfl | rfl) <;> rfl

theorem Pc.pending_wake (q : Pc Id) : q.wake.pending = q.pending := by
  cases q <;> rfl

theorem Pc.pending_of_release {c : Id} {r : Id × RelPhase Id} {q : Pc Id} (h : q.release? c = some r) :
    q.pending = false := by
  rcases Pc.release?_eq_some.mp h with ⟨rfl, -⟩ | rfl <;> rfl

theorem Pc.pending_setRelease {c : Id} {r : Id × RelPhase Id} {q : Pc Id} (h : q.release? c = some r)
    (p : RelPhase Id) : (q.setRelease p).pending = false := by
  rcases Pc.release?_eq_some.mp h with ⟨rfl, -⟩ | rfl <;> rfl

/-- A thread at `CHECK_AGAIN` has no RPC open, or has come with the server's OK, which
turns ACQUIRING into FREE. -/
theorem Entry.pending {k k₀ : ClientLock} {q : Pc Id} (h : Entry k q k₀) :
    q.pending = false ∨ q = .acqRpc (.reply .ok) ∧ (k.status = .acquiring → k₀.status = .free) := by
  cases h with
  | call hq | woken hq => exact .inl (by rw [hq]; rfl)
  | reply r hq hk =>
    cases r with
    | retry => exact .inl (by rw [hq]; rfl)
    | ok => exact .inr ⟨hq, fun hs => by rw [hk, granted, if_pos ⟨rfl, hs⟩]⟩

theorem Exit.pending {k k₀ : ClientLock} {q : Pc Id} (h : Exit k q k₀) : q.pending = false := by
  cases h with
  | call hq | woken hq => rw [hq]; rfl

variable [LinearOrder Id] {s s' : St Id (T ⊕ H)} {c : Id} {q : Pc Id} {k : ClientLock} {late : Bool}

/-- What a move does to the asking for the lock: nothing, the server grants it, the server
takes the client down as a waiter, the client takes the server's OK. -/
inductive PursuitMove (c a : Id) (v : ServerLock Id) (k : ClientLock) (q : Pc Id) (v' : ServerLock Id)
    (k' : ClientLock) (q' : Pc Id) : Prop where
  | quiet : q.pending = false → v'.waiters = v.waiters → PursuitMove c a v k q v' k' q'
  | grant : q = .acqRpc .request → v'.waiters = v.waiters.erase c → q' = .acqRpc (.reply .ok) →
      PursuitMove c a v k q v' k' q'
  | wait : q = .acqRpc .request → v'.waiters = v.waiters.insert c → PursuitMove c a v k q v' k' q'
  | taken : q = .acqRpc (.reply .ok) → a = c → v'.waiters = v.waiters →
      (k.status = .acquiring → k'.status ≠ .acquiring) → PursuitMove c a v k q v' k' q'

section Local
variable {c a : Id} {v v' : ServerLock Id} {k k' : ClientLock} {q q' : Pc Id} {w : Wakes}

/-- A thread that comes to `CHECK_AGAIN` and leaves with a status it did not have if the
lock was its client's. -/
theorem PursuitMove.entry {k₀ : ClientLock} (he : Entry k q k₀) (ha : a = c) (hv : v' = v)
    (hk : k₀.status = .free → k'.status ≠ .acquiring) : PursuitMove c a v k q v' k' q' := by
  subst hv
  rcases he.pending with hq | ⟨hq, hs⟩
  · exact .quiet hq rfl
  · exact .taken hq ha rfl fun h => hk (hs h)

theorem Local.pursuit (h : Local c a v k q w v' k' q') : PursuitMove c a v k q v' k' q' := by
  cases h with
  | send k₀ ha he _ hs _ hv _ _ =>
    refine .entry he ha hv fun hf => ?_
    rw [hf] at hs
    simp at hs
  | take k₀ ha he _ _ _ hv hk _ =>
    subst hk
    exact .entry he ha hv fun _ => nofun
  | block k₀ ha he _ hs _ hv _ _ =>
    refine .entry he ha hv fun hf => ?_
    rw [hf] at hs
    simp at hs
  | grant hq _ _ _ hv _ hq' => subst hv; exact .grant hq rfl hq'
  | already | join | demand => subst_vars; exact .wait rfl rfl
  | readOwner | revokeFree | revokeNote | revokeReply | flushed | flushedRevoke | released | revoked =>
    subst_vars
    exact .quiet rfl rfl
  | giveBack _ _ he | keep _ _ he | relBlock _ _ he => subst_vars; exact .quiet he.pending rfl
  | serveRelease _ _ hr | retryHandler _ _ _ hr | retryReply _ _ _ _ hr =>
    subst_vars
    exact .quiet (Pc.pending_of_release hr) rfl
  | wake hb _ hv _ _ =>
    subst hv
    refine .quiet ?_ rfl
    cases q with
    | acqWait b => rfl
    | relWait b => rfl
    | _ => cases hb

end Local

/-- Whose RPCs count: those of the threads, and where `late` is set also those that have
failed and are still under way. -/
def counted (late : Bool) : T ⊕ H → Bool
  | .inl _ => true
  | .inr _ => late

/-- A client that is ACQUIRING is a waiter at the server, or has an acquire RPC that counts
and that the server has still to execute or has granted. -/
structure Pursued (late : Bool) (s : St Id (T ⊕ H)) : Prop where
  asks : ∀ c, (s.client c).status = .acquiring →
    c ∈ s.server.waiters ∨ ∃ u, counted late u = true ∧ (s.pc c u).pending = true
  notGranted : ∀ c h, s.pc c (.inr h) ≠ .acqRpc (.reply .ok)

/-- **A move keeps up the pursuit**, if it is not the send or the grant of an RPC that has
failed. -/
theorem Pursued.move {a : Id} {u : T ⊕ H} {w : Wakes} (h : Pursued late s)
    (hm : Move s s' c u a w) (hu : u.isLeft = true ∨ (s'.pc c u).pending = false) : Pursued late s' := by
  -- an RPC that the move leaves open is one of the client's threads
  have mine : (s'.pc c u).pending = true → ∃ u, counted late u = true ∧ (s'.pc c u).pending = true := by
    intro hp
    rcases hu with hu | hu
    · obtain ⟨t, rfl⟩ := Sum.isLeft_iff.mp hu
      exact ⟨.inl t, rfl, hp⟩
    · rw [hu] at hp
      cases hp
  have kept : ∀ x, (s.client x).status = .acquiring → (s'.client x).status = .acquiring →
      x ∈ s'.server.waiters ∨ ∃ u, counted late u = true ∧ (s'.pc x u).pending = true := by
    intro x hold hx
    rcases h.asks x hold with hw | ⟨u', hcounted, hp⟩
    · cases hm.what.pursuit with
      | quiet _ hv => exact .inl (by rwa [hv])
      | grant _ hv hq' =>
        by_cases hxc : x = c
        · subst hxc
          exact .inr (mine (by rw [hq']; rfl))
        · exact .inl (by rw [hv]; exact OrderedSet.mem_erase.mpr ⟨hxc, hw⟩)
      | wait _ hv => exact .inl (by rw [hv]; exact OrderedSet.mem_insert.mpr (.inr hw))
      | taken _ _ hv _ => exact .inl (by rwa [hv])
    · by_cases hxt : x = c ∧ u' = u
      · obtain ⟨rfl, rfl⟩ := hxt
        cases hm.what.pursuit with
        | quiet hq _ =>
          rw [hq] at hp
          cases hp
        | grant _ _ hq' => exact .inr (mine (by rw [hq']; rfl))
        | wait _ hv => exact .inl (by rw [hv]; exact OrderedSet.mem_insert.mpr (.inl rfl))
        | taken _ ha _ hk =>
          subst ha
          exact absurd hx (hk hold)
      · exact .inr ⟨u', hcounted, (hm.threads.frame.obs Pc.pending Pc.pending_wake hxt).trans hp⟩
  refine ⟨fun x hx => ?_, fun x g hok => ?_⟩
  · by_cases hxa : x = a
    · subst hxa
      rcases hm.what.acquiring hx with hold | ⟨rfl, hq⟩
      · exact kept x hold hx
      · exact .inr (mine (by rw [hq]; rfl))
    · exact kept x (by rwa [hm.clients x hxa] at hx) hx
  · by_cases hxg : x = c ∧ .inr g = u
    · obtain ⟨rfl, rfl⟩ := hxg
      rw [hok] at hu
      rcases hu with hu | hu <;> cases hu
    · rcases hm.threads.frame x (.inr g) hxg with he | ⟨hb, he⟩
      · exact h.notGranted x g (he.symm.trans hok)
      · rw [he] at hok
        cases hq : s.pc x (.inr g) <;> rw [hq] at hb hok <;> first | cases hb | cases hok

/-- An RPC that has failed is neither sent again nor granted. -/
theorem leftBehind_pending [DecidableEq U] [Fintype U] {s s' : St Id U} {x : Act Id U}
    (hx : x.leftBehind s.server = true) (h : step s x = some s') :
    (s'.pc x.thread.1 x.thread.2).pending = false := by
  cases x with
  | serveAcquire c u =>
    have hl : s.server.lock = true := hx
    simp only [step] at h
    split at h
    · cases h
      simp only [Act.thread, setPc_self, serverAcquire, hl, Bool.true_eq_false, if_false]
      split
      · rfl
      · split <;> rfl
    · cases h
  | readOwner c u =>
    simp only [step] at h
    split at h
    · rw [Option.map_eq_some_iff] at h
      obtain ⟨dst, -, rfl⟩ := h
      simp [Act.thread, Pc.pending]
    · cases h
  | revokeHandler c u =>
    simp only [step] at h
    split at h
    · split at h
      · cases h
      · cases h
        unfold revokeHandler
        dsimp only
        split <;> simp [Act.thread, Pc.pending]
    · cases h
  | revokeReply c u =>
    simp only [step] at h
    split at h
    · cases h
      simp [Act.thread, Pc.pending]
    · cases h
  | dorelease c u =>
    simp only [step, doreleaseDone] at h
    split at h
    · cases h
      simp [Act.thread, Pc.pending]
    · cases h
      simp [Act.thread, Pc.pending]
    · cases h
  | serveRelease c u =>
    simp only [step] at h
    split at h
    · rename_i hr
      split at h
      · cases h
      · cases h
        simp [Act.thread, Pc.pending_setRelease hr]
    · cases h
  | retryHandler c u =>
    simp only [step] at h
    split at h
    · rename_i hr
      split at h
      · cases h
      · cases h
        simp [Act.thread, retryHandler, Pc.pending_setRelease hr]
    · cases h
  | retryReply c u =>
    simp only [step] at h
    split at h
    · rename_i hr
      cases h
      simp [Act.thread, retryNext, Pc.pending_setRelease hr]
    · cases h
  | releaseReply c u sig =>
    simp only [step, releaseReply] at h
    split at h
    · split at h
      · cases h
      · rw [Option.map_eq_some_iff] at h
        obtain ⟨pc', hsig, rfl⟩ := h
        simp [Act.thread, (woken_signal hsig).2, Pc.pending]
    · cases h
      simp [Act.thread, Pc.pending]
    · cases h
  | acquire | acquireReply | release | wake | resume => cases hx

section Fail

omit [LinearOrder Id] in
/-- From `CHECK_AGAIN` a client stays ACQUIRING with a new request, or because nobody told
it to retry. -/
theorem checkAgain_acquiring {k' : ClientLock} (h : checkAgain k = some (k', q))
    (hk : k'.status = .acquiring) :
    q = .acqRpc .request ∨ k.status = .acquiring ∧ k.retried = false := by
  unfold checkAgain at h
  split at h
  · cases h
    exact .inl rfl
  · cases h
    cases hk
  · rename_i hs
    split at h
    · cases h
      exact .inl rfl
    · rename_i hr
      exact .inr ⟨hs, by simpa using hr⟩
  · rename_i hs
    cases h
    cases hs.symm.trans hk
  · rename_i hs
    cases h
    cases hs.symm.trans hk
  · cases h

variable [DecidableEq T] [DecidableEq H]

/-- If a failure finds the request not executed and the client ACQUIRING, the client has
been told to retry, is a waiter at the server, or has another acquire RPC that counts; or
the request goes on to the server, and that counts. -/
def Covered (late : Bool) (s : St Id (T ⊕ H)) : Event Id T H → Prop
  | .fail c t left => s.pc c (.inl t) = .acqRpc .request → (s.client c).status = .acquiring →
      (s.client c).retried = true ∨ c ∈ s.server.waiters ∨ (late = true ∧ left ≠ none) ∨
        ∃ u, u ≠ .inl t ∧ counted late u = true ∧ (s.pc c u).pending = true
  | _ => True

instance [Fintype T] [Fintype H] (late : Bool) (s : St Id (T ⊕ H)) : ∀ e : Event Id T H, Decidable (Covered late s e)
  | .fail _ _ _ => inferInstanceAs (Decidable (_ → _ → _ ∨ _ ∨ _ ∨ _))
  | .move _ => isTrue trivial
  | .drop _ _ => isTrue trivial

/-- **A covered failure keeps up the pursuit.** -/
theorem Pursued.fail {t : T} {left : Option H} (h : Pursued late s)
    (hc : Covered late s (.fail c t left)) (hs : failAcquire s c t left = some s') : Pursued late s' := by
  obtain ⟨p, hf⟩ := failAcquire_failed hs
  -- the other RPCs are as they were
  have kept : ∀ x u, ¬ (x = c ∧ u = .inl t) → (s.pc x u).pending = true → (s'.pc x u).pending = true := by
    intro x u hne hpend
    cases u with
    | inl t' => rwa [hf.threads x t' fun he => hne ⟨he.1, congrArg Sum.inl he.2⟩]
    | inr g =>
      by_cases hg : x = c ∧ left = some g
      · rw [hg.1, (hf.goesOn g hg.2).1] at hpend
        cases hpend
      · rwa [hf.others x g hg]
  refine ⟨fun x hx => ?_, fun x g hok => ?_⟩
  · rw [hf.server]
    by_cases hxc : x = c
    · subst hxc
      rcases checkAgain_acquiring hf.checks hx with hq | ⟨hst, hret⟩
      · exact .inr ⟨.inl t, rfl, by rw [hq]; rfl⟩
      -- it waits: what it counts on is not the RPC of this thread
      · by_cases hreq : p = .request
        · rcases hc (by rw [hf.calling, hreq]) hst with hr | hw | ⟨hlate, hleft⟩ | ⟨u, hne, hcounted, hpend⟩
          · cases hret.symm.trans hr
          · exact .inl hw
          · obtain ⟨g, hg⟩ := Option.ne_none_iff_exists'.mp hleft
            exact .inr ⟨.inr g, hlate, by rw [(hf.goesOn g hg).2, hreq]; rfl⟩
          · exact .inr ⟨u, hcounted, kept x u (fun he => hne he.2) hpend⟩
        · rcases h.asks x hst with hw | ⟨u, hcounted, hpend⟩
          · exact .inl hw
          · refine .inr ⟨u, hcounted, kept x u (fun he => ?_) hpend⟩
            rw [he.2, hf.calling, Pc.pending_eq_true] at hpend
            simp [hreq, hf.notGranted] at hpend
    · rw [hf.clients x hxc] at hx
      exact (h.asks x hx).imp_right fun ⟨u, hcounted, hpend⟩ => ⟨u, hcounted, kept x u (fun he => hxc he.1) hpend⟩
  · by_cases hg : x = c ∧ left = some g
    · rw [hg.1, (hf.goesOn g hg.2).2] at hok
      cases hok
      exact hf.notGranted rfl
    · exact h.notGranted x g ((hf.others x g hg).symm.trans hok)

variable [Fintype T] [Fintype H]

/-- A move that is an event: of a thread, or left to an RPC that has failed. -/
theorem event_move {x : Act Id (T ⊕ H)} (h : event s (.move x) = some s') :
    ∃ a w, Move s s' x.thread.1 x.thread.2 a w ∧
      (x.thread.2.isLeft = true ∨ (s'.pc x.thread.1 x.thread.2).pending = false) := by
  rw [event, Option.ite_none_right_eq_some, Bool.or_eq_true] at h
  obtain ⟨hx, h⟩ := h
  obtain ⟨a, w, hm⟩ := step_move h
  exact ⟨a, w, hm, hx.imp_right fun hx => leftBehind_pending hx h⟩

theorem Pursued.event {e : Event Id T H} (h : Pursued late s)
    (hc : Covered late s e) (hs : event s e = some s') : Pursued late s' := by
  cases e with
  | move x =>
    obtain ⟨a, w, hm, hu⟩ := event_move hs
    exact h.move hm hu
  | fail c t left => exact h.fail hc hs
  | drop c g =>
    have hd := event_drop hs
    refine ⟨fun x hx => ?_, fun x g' hok => ?_⟩
    · rw [hd.clients] at hx
      rw [hd.server]
      refine (h.asks x hx).imp_right fun ⟨u, hcounted, hp⟩ => ⟨u, hcounted, ?_⟩
      cases u with
      | inl t => rwa [hd.threads]
      | inr g' =>
        rcases hd.left x g' with he | ⟨⟨r, hr⟩, -⟩
        · rwa [he]
        -- an answer that nobody waits for is not OK
        · cases r with
          | ok => exact absurd hr (h.notGranted x g')
          | retry =>
            rw [hr] at hp
            cases hp
    · rcases hd.left x g' with he | ⟨-, he⟩
      · exact h.notGranted x g' (he.symm.trans hok)
      · cases he.symm.trans hok

end Fail

/-! ### What a failure leaves behind -/

/-- A client with a thread that waits inside `acquire` and the status ACQUIRING has an
acquire RPC in flight, one that counts, or is a waiter at the server. -/
def Heard (late : Bool) (s : St Id (T ⊕ H)) : Prop :=
  ∀ c t woken, s.pc c (.inl t) = .acqWait woken → (s.client c).status = .acquiring →
    (∃ u, counted late u = true ∧ (s.pc c u).role = .calling) ∨ c ∈ s.server.waiters

instance [Fintype Id] [Fintype T] [Fintype H] (late : Bool) (s : St Id (T ⊕ H)) : Decidable (Heard late s) :=
  inferInstanceAs (Decidable (∀ _ _ _, _ → _ → _ ∨ _))

theorem Pursued.heard (h : Pursued late s) : Heard late s := by
  intro c t woken _ hst
  rcases h.asks c hst with hw | ⟨u, hcounted, hp⟩
  · exact .inr hw
  · refine .inl ⟨u, hcounted, ?_⟩
    rcases Pc.pending_eq_true.mp hp with hp | hp <;> rw [hp] <;> rfl

/-- The request of `t` has not been executed, its client is ACQUIRING and was not told to
retry, the server does not know of it, and nothing else of the client is on its way. -/
structure Forsaken (s : St Id (T ⊕ H)) (c : Id) (t : T) : Prop where
  request : s.pc c (.inl t) = .acqRpc .request
  status : (s.client c).status = .acquiring
  retried : (s.client c).retried = false
  waiting : c ∉ s.server.waiters
  alone : ∀ u, u ≠ .inl t → (s.pc c u).role ≠ .calling

/-- If the request is lost then, the thread waits for a retry that nobody will send. -/
theorem Forsaken.lost [DecidableEq T] [DecidableEq H] {t : T}
    (h : Forsaken s c t) (hs : failAcquire s c t none = some s') (late : Bool) : ¬ Heard late s' := by
  obtain ⟨p, hf⟩ := failAcquire_failed hs
  have hwait : condWait (s.client c) = (s'.client c, s'.pc c (.inl t)) := by
    have hcheck := hf.checks
    simp only [checkAgain, h.status, h.retried, Bool.false_eq_true, if_false] at hcheck
    exact Option.some.inj hcheck
  have hpc : s'.pc c (.inl t) = .acqWait false := (congrArg Prod.snd hwait).symm
  have hst : (s'.client c).status = .acquiring :=
    (congrArg (fun r => r.1.status) hwait).symm.trans h.status
  intro hheard
  rcases hheard c t false hpc hst with ⟨u, -, hrole⟩ | hw
  · by_cases hu : u = .inl t
    · rw [hu, hpc] at hrole
      cases hrole
    · have hsame : s'.pc c u = s.pc c u := by
        cases u with
        | inl t' => exact hf.threads c t' fun he => hu (congrArg Sum.inl he.2)
        | inr g => exact hf.others c g fun he => by cases he.2
      exact h.alone u hu (hsame ▸ hrole)
  · rw [hf.server] at hw
    exact h.waiting hw

/-! ### A wedged client -/

/-- Not in an RPC, and without the lock. -/
def Pc.rests : Pc Id → Bool
  | .idle | .acqWait _ | .relWait _ => true
  | _ => false

/-- A client that waits for a retry nobody will send: its threads are outside or wait, it
is not a waiter at the server, and no release handler is about to tell it to retry. -/
structure Wedged (s : St Id U) (c : Id) : Prop where
  status : (s.client c).status = .acquiring
  retried : (s.client c).retried = false
  waiting : c ∉ s.server.waiters
  threads : ∀ u, (s.pc c u).rests = true
  calls : ∀ c' u, c ∉ (s.pc c' u).calls c'

instance [Fintype Id] [Fintype U] (s : St Id U) (c : Id) : Decidable (Wedged s c) :=
  decidable_of_iff
    ((s.client c).status = .acquiring ∧ (s.client c).retried = false ∧ c ∉ s.server.waiters ∧
      (∀ u, (s.pc c u).rests = true) ∧ ∀ c' u, c ∉ (s.pc c' u).calls c')
    ⟨fun ⟨hs, hr, hw, ht, hc⟩ => ⟨hs, hr, hw, ht, hc⟩, fun h => ⟨h.1, h.2, h.3, h.4, h.5⟩⟩

omit [LinearOrder Id] in
theorem Pc.rests_wake (q : Pc Id) : q.wake.rests = q.rests := by
  cases q <;> rfl

omit [LinearOrder Id] in
theorem Pc.not_rests_of_release {r : Id × RelPhase Id} (h : q.release? c = some r) :
    q.rests = false := by
  rcases Pc.release?_eq_some.mp h with ⟨rfl, -⟩ | rfl <;> rfl

omit [LinearOrder Id] in
/-- A thread that was resting finds the status at `CHECK_AGAIN` as it is. -/
theorem Entry.status_of_rests {k₀ : ClientLock} (h : Entry k q k₀)
    (hq : q.rests = true) : k₀.status = k.status := by
  rcases h.status with hs | ⟨rfl, -, -⟩
  · exact hs
  · cases hq

section Local
variable {c a x : Id} {v v' : ServerLock Id} {k k' : ClientLock} {q q' : Pc Id} {w : Wakes}

/-- While its own threads rest and nobody tells it to retry, a client stays ACQUIRING. -/
theorem Local.still_acquiring (h : Local c a v k q w v' k' q') (hs : k.status = .acquiring)
    (hr : k.retried = false) (hc : a ∉ q.calls c) (hq : a = c → q.rests = true) :
    k'.status = .acquiring ∧ k'.retried = false := by
  cases h with
  | send k₀ ha he _ hs₀ _ _ _ _ =>
    rw [he.status_of_rests (hq ha), he.retried, hs, hr] at hs₀
    simp at hs₀
  | take k₀ ha he _ hs₀ _ _ _ _ =>
    rw [he.status_of_rests (hq ha), hs] at hs₀
    cases hs₀
  | block k₀ ha he _ _ _ _ hk _ =>
    subst hk
    exact ⟨(he.status_of_rests (hq ha)).trans hs, he.retried.trans hr⟩
  | grant | already | join | demand | readOwner | revokeNote | revokeReply | flushed | flushedRevoke
  | serveRelease | retryReply | revoked | wake => subst_vars; exact ⟨hs, hr⟩
  | revokeFree _ _ hs₀ _ _ _ _ => cases hs.symm.trans hs₀
  | giveBack _ _ he _ hs₀ | keep _ _ he _ hs₀ | relBlock _ _ he _ hs₀ =>
    cases (he.status.trans hs).symm.trans hs₀
  | retryHandler b cnt rest hrel _ _ _ _ _ =>
    rw [Pc.calls_release hrel] at hc
    exact absurd (List.mem_cons_self ..) hc
  | released ha hq₀ _ _ _ _ _ =>
    subst hq₀
    cases hq ha

/-- A thread that rests does not get further than `pthread_cond_wait` while its client is
ACQUIRING and not told to retry. -/
theorem Local.still_rests (h : Local c a v k q w v' k' q') (hq : q.rests = true)
    (hk : a = c → k.status = .acquiring ∧ k.retried = false) : q'.rests = true := by
  cases h with
  | send k₀ ha he _ hs₀ _ _ _ _ =>
    rw [he.status_of_rests hq, he.retried, (hk ha).1, (hk ha).2] at hs₀
    simp at hs₀
  | take k₀ ha he _ hs₀ _ _ _ _ =>
    rw [he.status_of_rests hq, (hk ha).1] at hs₀
    cases hs₀
  | block | keep | relBlock => subst_vars; rfl
  | grant | already | join | demand | readOwner | revokeFree | revokeNote | revokeReply | flushed
  | flushedRevoke | released | revoked => subst_vars; cases hq
  | giveBack k₀ ha he _ hs₀ _ _ _ _ _ => cases (he.status.trans (hk ha).1).symm.trans hs₀
  | serveRelease _ _ hr | retryHandler _ _ _ hr | retryReply _ _ _ _ hr =>
    cases hq.symm.trans (Pc.not_rests_of_release hr)
  | wake _ _ _ _ hq' => subst hq'; rwa [Pc.rests_wake]

theorem Local.calls_from (h : Local c a v k q w v' k' q') (hx : x ∈ q'.calls c) :
    x ∈ q.calls c ∨ x ∈ v.waiters := by
  cases h with
  | send | take | block | grant | already | join | demand | readOwner | revokeFree | revokeNote | revokeReply
  | giveBack | keep | relBlock | flushed | flushedRevoke | released | revoked => subst_vars; cases hx
  | serveRelease b p hr _ hp _ _ _ hq' =>
    subst hq' hp
    rw [Pc.calls_release (Pc.release?_setRelease hr), retryLoop_calls] at hx
    exact .inr (List.mem_of_mem_take hx)
  | retryHandler b cnt rest hr _ _ _ _ hq' =>
    subst hq'
    rw [Pc.calls_release (Pc.release?_setRelease hr)] at hx
    rw [Pc.calls_release hr]
    exact .inl (List.mem_cons_of_mem _ hx)
  | retryReply b cnt rest p hr hp _ _ _ hq' =>
    subst hq' hp
    rw [Pc.calls_release (Pc.release?_setRelease hr), retryLoop_calls] at hx
    rw [Pc.calls_release hr]
    exact .inl hx
  | wake _ _ _ _ hq' =>
    subst hq'
    rw [Pc.calls_wake] at hx
    exact .inl hx

end Local

/-- **No move gets a wedged client going again.** -/
theorem Wedged.move {s s' : St Id U} {a x : Id} {u : U} {w : Wakes} (h : Wedged s x)
    (hm : Move s s' c u a w) : Wedged s' x := by
  have hentries : (s'.client x).status = .acquiring ∧ (s'.client x).retried = false := by
    by_cases hxa : x = a
    · subst hxa
      exact hm.what.still_acquiring h.status h.retried (h.calls c u) fun hc => hc ▸ h.threads u
    · rw [hm.clients x hxa]
      exact ⟨h.status, h.retried⟩
  refine ⟨hentries.1, hentries.2, ?_, fun u' => ?_, fun c' u' hx => ?_⟩
  · intro hx
    cases hm.what.pursuit with
    | quiet _ hv | taken _ _ hv => exact h.waiting (hv ▸ hx)
    | grant _ hv _ =>
      rw [hv, OrderedSet.mem_erase] at hx
      exact h.waiting hx.2
    | wait hq hv =>
      rw [hv, OrderedSet.mem_insert] at hx
      rcases hx with rfl | hx
      · have := h.threads u
        rw [hq] at this
        cases this
      · exact h.waiting hx
  · by_cases hu : x = c ∧ u' = u
    · obtain ⟨rfl, rfl⟩ := hu
      exact hm.what.still_rests (h.threads u') fun ha => ha ▸ ⟨h.status, h.retried⟩
    · exact (hm.threads.frame.obs Pc.rests Pc.rests_wake hu).trans (h.threads u')
  · by_cases hu : c' = c ∧ u' = u
    · obtain ⟨rfl, rfl⟩ := hu
      rcases hm.what.calls_from hx with hx | hx
      · exact h.calls c' u' hx
      · exact h.waiting hx
    · rw [hm.threads.frame.obs (Pc.calls c') (Pc.calls_wake c') hu] at hx
      exact h.calls c' u' hx

omit [LinearOrder Id] in
theorem checkAgain_calls {k' : ClientLock} (h : checkAgain k = some (k', q)) (c : Id) :
    q.calls c = [] := by
  unfold checkAgain at h
  split at h
  · cases h
    rfl
  · cases h
    rfl
  · split at h <;> cases h <;> rfl
  · cases h
    rfl
  · cases h
    rfl
  · cases h

section Wedge
variable [DecidableEq T] [DecidableEq H] [Fintype T] [Fintype H]

theorem Wedged.event {e : Event Id T H} {x : Id} (h : Wedged s x)
    (hs : event s e = some s') : Wedged s' x := by
  cases e with
  | move y =>
    obtain ⟨a, w, hm, -⟩ := event_move hs
    exact h.move hm
  | fail c t left =>
    obtain ⟨p, hf⟩ := failAcquire_failed hs
    have hxc : x ≠ c := by
      rintro rfl
      have := h.threads (.inl t)
      rw [hf.calling] at this
      cases this
    refine ⟨by rw [hf.clients x hxc, h.status], by rw [hf.clients x hxc, h.retried],
      by rw [hf.server]; exact h.waiting, fun u => ?_, fun c' u hx => ?_⟩
    · cases u with
      | inl t' => rw [hf.threads x t' fun he => hxc he.1, h.threads]
      | inr g => rw [hf.others x g fun he => hxc he.1, h.threads]
    · cases u with
      | inl t' =>
        by_cases ht : c' = c ∧ t' = t
        · obtain ⟨rfl, rfl⟩ := ht
          rw [checkAgain_calls hf.checks] at hx
          cases hx
        · exact h.calls c' (.inl t') (hf.threads c' t' ht ▸ hx)
      | inr g =>
        by_cases hg : c' = c ∧ left = some g
        · obtain ⟨rfl, hg⟩ := hg
          rw [(hf.goesOn g hg).2, ← hf.calling] at hx
          exact h.calls c' (.inl t) hx
        · exact h.calls c' (.inr g) (hf.others c' g hg ▸ hx)
  | drop c g =>
    have hd := event_drop hs
    refine ⟨by rw [hd.clients, h.status], by rw [hd.clients, h.retried],
      by rw [hd.server]; exact h.waiting, fun u => ?_, fun c' u hx => ?_⟩
    · cases u with
      | inl t => rw [hd.threads, h.threads]
      | inr g' =>
        rcases hd.left x g' with hg | ⟨-, hg⟩
        · rw [hg, h.threads]
        · rw [hg]
          rfl
    · cases u with
      | inl t => exact h.calls c' (.inl t) (hd.threads c' t ▸ hx)
      | inr g' =>
        rcases hd.left c' g' with hg | ⟨-, hg⟩
        · exact h.calls c' (.inr g') (hg ▸ hx)
        · rw [hg] at hx
          cases hx

end Wedge

/-! ### All locks -/

section System
variable [DecidableEq T] [DecidableEq H] [Fintype T] [Fintype H]

/-- An event of the system: one for the lock `m.1`, of a thread that is not inside a call
for another lock, or of an RPC that has failed. -/
def Sys.event (s : Sys Id (T ⊕ H)) (m : Lid × Event Id T H) : Option (Sys Id (T ⊕ H)) :=
  let (c, u) := m.2.thread
  if u.isRight = true ∨ s.inside c u = none ∨ s.inside c u = some m.1 then
    (Lock.event (s.view m.1) m.2).map fun v =>
      {s.put m.1 v with
        inside := fun c' u' =>
          if c' = c ∧ u' = u then if (v.pc c u).outside then none else some m.1 else s.inside c' u'}
  else none

/-- No other lock of the run shares the key of `l`. -/
def sharesNoKey (l : Lid) : Sys Id (T ⊕ H) → Lid × Event Id T H → Prop := fun _ m =>
  key m.1 = key l → m.1 = l

/-- No other lock of the run shares the key of `l`, and the failures for `l` are covered. -/
def covered (late : Bool) (l : Lid) : Sys Id (T ⊕ H) → Lid × Event Id T H → Prop := fun s m =>
  sharesNoKey l s m ∧ (m.1 = l → Covered late (s.view l) m.2)

instance (l : Lid) (s : Sys Id (T ⊕ H)) (m : Lid × Event Id T H) : Decidable (sharesNoKey l s m) :=
  inferInstanceAs (Decidable (_ → _))

instance (late : Bool) (l : Lid) (s : Sys Id (T ⊕ H)) (m : Lid × Event Id T H) : Decidable (covered late l s m) :=
  inferInstanceAs (Decidable (_ ∧ (_ → _)))

/-- Seen from a lock whose key the event's lock does not share, an event is one of that
lock or nothing. -/
theorem Sys.event_view {s s' : Sys Id (T ⊕ H)} {m : Lid × Event Id T H} {l : Lid}
    (h : s.event m = some s') (hk : sharesNoKey l s m) :
    s'.view l = s.view l ∨ m.1 = l ∧ Lock.event (s.view l) m.2 = some (s'.view l) := by
  unfold Sys.event at h
  rw [Option.ite_none_right_eq_some, Option.map_eq_some_iff] at h
  obtain ⟨-, v, hv, rfl⟩ := h
  rcases Sys.view_put (s := s) (v := v) hk with he | ⟨rfl, he⟩
  · exact .inl he
  · exact .inr ⟨rfl, hv.trans (congrArg some he.symm)⟩

theorem pursued_of_steps {s : Sys Id (T ⊕ H)} {l : Lid} (h : Steps Sys.event (covered late l) {} s) :
    Pursued late (s.view l) := by
  refine h.invariant (I := fun s => Pursued late (s.view l)) ⟨nofun, nofun⟩ fun s m s' hs hm hstep => ?_
  rcases Sys.event_view hstep hm.1 with he | ⟨hl, hev⟩
  · rw [he]
    exact hs
  · exact hs.event (hm.2 hl) hev

/-- **Once wedged, always wedged**: whatever happens, no thread of the client gets the
lock. -/
theorem wedged_forever {s s' : Sys Id (T ⊕ H)} {l : Lid}
    (h : Steps Sys.event (sharesNoKey l) s s') (hw : Wedged (s.view l) c) : Wedged (s'.view l) c := by
  refine h.invariant (I := fun s => Wedged (s.view l) c) hw fun s m s' hs hm hstep => ?_
  rcases Sys.event_view hstep hm with he | ⟨-, hev⟩
  · rw [he]
    exact hs
  · exact hs.event hev

/-- **A covered failure wedges nothing.** In a run whose failures of acquire RPCs for `l`
are all covered, a client with a thread waiting inside `acquire` and the status ACQUIRING
has an acquire RPC in flight or is a waiter at the server, both with and without the RPCs
counted that have timed out and are still under way. A request that is lost with nothing
to cover it leaves a state in which this is false. -/
theorem acquire_failure_covered {late : Bool} {s : Sys Id (T ⊕ H)} {l : Lid}
    (h : Steps Sys.event (covered late l) {} s) :
    Heard late (s.view l) ∧ ∀ c t s', Forsaken (s.view l) c t → s.event (l, .fail c t none) = some s' →
      ¬ Heard late (s'.view l) := by
  refine ⟨(pursued_of_steps h).heard, fun c t s' hf hs => ?_⟩
  unfold Sys.event at hs
  rw [Option.ite_none_right_eq_some, Option.map_eq_some_iff] at hs
  obtain ⟨-, v, hv, rfl⟩ := hs
  have hview : ∀ inside, ({s.put l v with inside := inside} : Sys Id (T ⊕ H)).view l = v :=
    fun _ => s.view_put_self l v
  rw [hview]
  exact hf.lost hv late

end System

/-- Client 1 has lock 5 and client 2 asks for it; its RPC fails while the handler is at
work for it. Client 2 waits, and the server knows. Where the request of client 2 is still
under way when it times out, that counts. -/
theorem acquire_failure_covered_handler :
    (∃ s : Sys (Fin 3) (Fin 1 ⊕ Fin 1), Steps Sys.event (covered false 5) {} s ∧
      s.pc 2 (.inl 0) 5 = .acqWait false ∧ s.pc 2 (.inr 0) 5 = .acqRpc (.revoke 1) ∧ Heard false (s.view 5)) ∧
    ∃ s : Sys (Fin 3) (Fin 1 ⊕ Fin 1), Steps Sys.event (covered true 5) {} s ∧
      s.pc 2 (.inl 0) 5 = .acqWait false ∧ s.pc 2 (.inr 0) 5 = .acqRpc .request ∧ Heard true (s.view 5) := by
  constructor
  · obtain ⟨s, hs, hp, hleft⟩ : ∃ s : Sys (Fin 3) (Fin 1 ⊕ Fin 1), Steps Sys.event (covered false 5) {} s ∧
        s.pc 2 (.inl 0) 5 = .acqWait false ∧ s.pc 2 (.inr 0) 5 = .acqRpc (.revoke 1) :=
      Steps.exists_of_run
        [(5, .move (.acquire 1 (.inl 0))), (5, .move (.serveAcquire 1 (.inl 0))),
          (5, .move (.acquireReply 1 (.inl 0))), (5, .move (.acquire 2 (.inl 0))),
          (5, .move (.serveAcquire 2 (.inl 0))), (5, .fail 2 0 (some 0)), (5, .move (.readOwner 2 (.inr 0)))]
        (by decide)
    exact ⟨s, hs, hp, hleft, (acquire_failure_covered hs).1⟩
  · obtain ⟨s, hs, hp, hleft⟩ : ∃ s : Sys (Fin 3) (Fin 1 ⊕ Fin 1), Steps Sys.event (covered true 5) {} s ∧
        s.pc 2 (.inl 0) 5 = .acqWait false ∧ s.pc 2 (.inr 0) 5 = .acqRpc .request :=
      Steps.exists_of_run
        [(5, .move (.acquire 1 (.inl 0))), (5, .move (.serveAcquire 1 (.inl 0))),
          (5, .move (.acquireReply 1 (.inl 0))), (5, .move (.acquire 2 (.inl 0))), (5, .fail 2 0 (some 0))]
        (by decide)
    exact ⟨s, hs, hp, hleft, (acquire_failure_covered hs).1⟩

/-- The lock is free and one thread of one client asks for it. The request is lost, and
the thread waits for a retry. The server has never heard of the client, and the client
never gets the lock. -/
theorem acquire_failure_wedges :
    ∃ s : Sys (Fin 2) (Fin 1 ⊕ Fin 1), Steps Sys.event anyMove {} s ∧ (∀ late, ¬ Heard late (s.view 5)) ∧
      s.pc 1 (.inl 0) 5 = .acqWait false ∧
      ∀ s', Steps Sys.event (sharesNoKey 5) s s' → ∀ u, s'.pc 1 u 5 ≠ .holding := by
  obtain ⟨s, hs, hheard, hp, hw⟩ : ∃ s : Sys (Fin 2) (Fin 1 ⊕ Fin 1), Steps Sys.event anyMove {} s ∧
      (∀ late, ¬ Heard late (s.view 5)) ∧ s.pc 1 (.inl 0) 5 = .acqWait false ∧ Wedged (s.view 5) 1 :=
    Steps.exists_of_run [(5, .move (.acquire 1 (.inl 0))), (5, .fail 1 0 none)] (by decide)
  refine ⟨s, hs, hheard, hp, fun s' hs' u hu => ?_⟩
  have hrests : (s'.pc 1 u 5).rests = true := (wedged_forever hs' hw).threads u
  rw [hu] at hrests
  cases hrests

end Yfs.Lock

import Mathlib.Data.Finset.Card
import Yfs.Lock.Deadlock
import Yfs.Lock.Revokes

/-! The lock server's dispatch pool.

`rpcs` hands every request to a pool of six threads, in the order they arrive; a thread
runs the handler to its end. An acquire handler can need a second handler to end: it
calls revoke at the owner, and the owner answers only after its own release RPC, a
request to the same pool. With six such handlers running nobody is left to take the
releases out of the queue (`pool_starves`). The pool never starves in runs where a handler
comes to call revoke only while at most four others wait for theirs (`pool_never_starves`).
For each lock at most one handler waits like that, so fewer than six locks are such a case
(`spares_of_within`). -/
namespace Yfs.Lock
open Base

/-- `new ThrPool(6, false)`. -/
def poolSize : Nat := 6

/-- The capacity of the pool's queue, `jobq_(100*sz)`. -/
def queueSize : Nat := 100 * poolSize

inductive Proc where
  | acquire | release
  deriving DecidableEq

/-- A request at the server: the lock, the thread whose stack carries the RPC, and which
handler it is for. -/
structure Job (Id T : Type) where
  lid : Lid
  c : Id
  t : T
  proc : Proc
  deriving DecidableEq

/-- All locks, with the pool's queue and what its threads are running. -/
structure Pool (Id T : Type) [LinearOrder Id] where
  sys : Sys Id T := {}
  queue : List (Job Id T) := []
  running : List (Job Id T) := []

section Phases
variable {Id : Type}

/-- The request of an acquire RPC has been sent and not been executed. -/
def Pc.acquireSent : Pc Id → Bool
  | .acqRpc .request => true
  | _ => false

/-- The request of a release RPC has been sent and not been executed. -/
def Pc.releaseSent (c : Id) (q : Pc Id) : Bool :=
  match q.release? c with
  | some (_, .request) => true
  | _ => false

def Pc.sent (c : Id) : Proc → Pc Id → Bool
  | .acquire, q => q.acquireSent
  | .release, q => q.releaseSent c

/-- The request for this handler has been sent, and not been answered. -/
def Pc.unanswered (c : Id) : Proc → Pc Id → Bool
  | .acquire, .acqRpc (.reply _) => false
  | .acquire, .acqRpc _ => true
  | .acquire, _ => false
  | .release, q =>
    match q.release? c with
    | some (_, p) => p.pending
    | none => false

theorem Pc.sent_acquire {c : Id} {q : Pc Id} : q.sent c .acquire = true ↔ q = .acqRpc .request := by
  change q.acquireSent = true ↔ _
  unfold Pc.acquireSent
  split
  · exact ⟨fun _ => rfl, fun _ => rfl⟩
  · rename_i hq
    exact ⟨nofun, fun h => absurd h hq⟩

theorem Pc.sent_release {c : Id} {q : Pc Id} :
    q.sent c .release = true ↔ ∃ b, q.release? c = some (b, .request) := by
  change q.releaseSent c = true ↔ _
  unfold Pc.releaseSent
  split
  · rename_i b hr
    exact ⟨fun _ => ⟨b, hr⟩, fun _ => rfl⟩
  · rename_i hr
    exact ⟨nofun, fun ⟨b, hb⟩ => absurd hb (hr b)⟩

end Phases

section Step
variable {Id T : Type} [LinearOrder Id]

def Act.job? (l : Lid) : Act Id T → Option (Job Id T)
  | .serveAcquire c t => some ⟨l, c, t, .acquire⟩
  | .serveRelease c t => some ⟨l, c, t, .release⟩
  | _ => none

def Job.pc (s : Sys Id T) (j : Job Id T) : Pc Id := s.pc j.c j.t j.lid

/-- A move of the pool: `got_pdu` queues a request that has arrived, an idle thread takes
the first one, or the protocol makes a move. A handler starts only on a thread of the
pool, and its thread is idle again once it has answered. -/
inductive PoolAct (Id T : Type) where
  | gotPdu (j : Job Id T)
  | takeJob
  | move (m : Lid × Act Id T)

section
variable [DecidableEq T] [Fintype T]

def Pool.step (p : Pool Id T) : PoolAct Id T → Option (Pool Id T)
  | .gotPdu j =>
    if (j.pc p.sys).sent j.c j.proc = true ∧ j ∉ p.queue ∧ j ∉ p.running ∧ p.queue.length < queueSize then
      some {p with queue := p.queue ++ [j]}
    else none
  | .takeJob =>
    match p.queue with
    | [] => none
    | j :: rest =>
      if p.running.length < poolSize then some {p with queue := rest, running := j :: p.running} else none
  | .move m =>
    if (m.2.job? m.1).all fun j => decide (j ∈ p.running) then
      (p.sys.step m).map fun s =>
        {p with sys := s, running := p.running.filter fun j => (j.pc s).unanswered j.c j.proc}
    else none

/-! ### The queue holds requests that have not been executed -/

theorem Sys.step_self {s s' : Sys Id T} {m : Lid × Act Id T} (h : s.step m = some s') :
    Lock.step (s.view m.1) m.2 = some (s'.view m.1) := by
  unfold Sys.step at h
  rw [Option.ite_none_right_eq_some, Option.map_eq_some_iff] at h
  obtain ⟨-, v, hv, rfl⟩ := h
  rw [hv]
  exact congrArg some (s.view_put_self m.1 v).symm

theorem Sys.step_pc_other {s s' : Sys Id T} {m : Lid × Act Id T} (h : s.step m = some s') {l : Lid}
    (hl : l ≠ m.1) (c : Id) (t : T) : s'.pc c t l = s.pc c t l := by
  unfold Sys.step at h
  rw [Option.ite_none_right_eq_some, Option.map_eq_some_iff] at h
  obtain ⟨-, v, -, rfl⟩ := h
  exact if_neg hl

/-- A thread whose request has not been executed moves only by its execution. -/
theorem job_of_sent {s s' : St Id T} {x : Act Id T} {f : Proc} (h : Lock.step s x = some s')
    (hf : (s.pc x.thread.1 x.thread.2).sent x.thread.1 f = true) (l : Lid) :
    x.job? l = some ⟨l, x.thread.1, x.thread.2, f⟩ := by
  cases f with
  | acquire =>
    have hp := Pc.sent_acquire.mp hf
    cases x <;> simp_all [Act.thread, Act.job?, Lock.step, doreleaseDone, releaseReply, Pc.release?,
      Pc.blocked]
  | release =>
    obtain ⟨b, hr⟩ := Pc.sent_release.mp hf
    rcases Pc.release?_eq_some.mp hr with ⟨hp, -⟩ | hp
    · cases x <;> simp_all [Act.thread, Act.job?, Lock.step, doreleaseDone, releaseReply, Pc.blocked]
    · cases x <;> simp_all [Act.thread, Act.job?, Lock.step, doreleaseDone, releaseReply, Pc.blocked]

/-- What the queue and the threads of the pool have is not in both, and what is in the
queue has not been executed. -/
structure PoolOk (p : Pool Id T) : Prop where
  nodup : (p.queue ++ p.running).Nodup
  sent : ∀ j ∈ p.queue, (j.pc p.sys).sent j.c j.proc = true

omit [DecidableEq T] [Fintype T] in
theorem poolOk_init : PoolOk ({} : Pool Id T) := ⟨List.nodup_nil, nofun⟩

omit [DecidableEq T] [Fintype T] [LinearOrder Id] in
theorem Pc.not_blocked_of_sent {c : Id} {f : Proc} {q : Pc Id} (h : q.sent c f = true) :
    q.blocked = false := by
  cases f with
  | acquire => rw [Pc.sent_acquire.mp h]; rfl
  | release =>
    obtain ⟨b, hr⟩ := Pc.sent_release.mp h
    rcases Pc.release?_eq_some.mp hr with ⟨rfl, -⟩ | rfl <;> rfl

/-- A stack that carries a request stays where it is until that request is executed. -/
theorem pc_of_step {s s' : Sys Id T} {m : Lid × Act Id T} {j : Job Id T} (h : s.step m = some s')
    (hj : m.2.job? m.1 ≠ some j) (hs : (j.pc s).sent j.c j.proc = true) : j.pc s' = j.pc s := by
  obtain ⟨l, c, t, f⟩ := j
  by_cases hl : l = m.1
  · subst hl
    have hstep := Sys.step_self h
    by_cases ht : c = m.2.thread.1 ∧ t = m.2.thread.2
    · obtain ⟨rfl, rfl⟩ := ht
      exact absurd (job_of_sent hstep hs m.1) hj
    · obtain ⟨a, w, hm⟩ := step_move hstep
      rcases hm.threads.frame c t ht with he | ⟨hb, -⟩
      · exact he
      · cases (Pc.not_blocked_of_sent hs).symm.trans hb
  · exact Sys.step_pc_other h hl c t

theorem PoolOk.step {p p' : Pool Id T} {x : PoolAct Id T} (h : PoolOk p) (hs : p.step x = some p') :
    PoolOk p' := by
  cases x with
  | gotPdu j =>
    obtain ⟨hj, hs⟩ := Option.ite_none_right_eq_some.mp hs
    obtain rfl := Option.some.inj hs
    constructor
    · have hperm : (p.queue ++ [j] ++ p.running).Perm (j :: (p.queue ++ p.running)) := by
        rw [List.append_assoc]
        exact List.perm_middle
      refine hperm.nodup_iff.mpr (List.nodup_cons.mpr ⟨?_, h.nodup⟩)
      rw [List.mem_append]
      rintro (hq | hr)
      · exact hj.2.1 hq
      · exact hj.2.2.1 hr
    · intro i hi
      rcases List.mem_append.mp hi with hi | hi
      · exact h.sent i hi
      · rw [List.mem_singleton.mp hi]
        exact hj.1
  | takeJob =>
    cases hq : p.queue with
    | nil => simp [Pool.step, hq] at hs
    | cons j rest =>
      simp only [Pool.step, hq] at hs
      obtain ⟨-, hs⟩ := Option.ite_none_right_eq_some.mp hs
      obtain rfl := Option.some.inj hs
      constructor
      · have := h.nodup
        rw [hq] at this
        exact List.perm_middle.nodup_iff.mpr this
      · exact fun i hi => h.sent i (by rw [hq]; exact List.mem_cons_of_mem _ hi)
  | move m =>
    obtain ⟨hrun, hs⟩ := Option.ite_none_right_eq_some.mp hs
    obtain ⟨s', hstep, rfl⟩ := Option.map_eq_some_iff.mp hs
    constructor
    · exact h.nodup.sublist (List.Sublist.append_left List.filter_sublist _)
    · intro j hj
      have hpc : j.pc s' = j.pc p.sys := by
        refine pc_of_step hstep (fun he => ?_) (h.sent j hj)
        rw [he, Option.all_some, decide_eq_true_iff] at hrun
        exact List.disjoint_of_nodup_append h.nodup hj hrun
      rw [hpc]
      exact h.sent j hj

end

/-! ### Starvation -/

/-- The acquire handler of `j` waits, directly or through others, for a release handler
whose request is in the queue. -/
def Blocked (p : Pool Id T) (j : Job Id T) : Prop :=
  ∃ c t, Relation.TransGen (Waits (p.sys.view j.lid)) (.acquire j.c j.t) (.release c t) ∧
    ⟨j.lid, c, t, .release⟩ ∈ p.queue

/-- All threads of the pool are in acquire handlers that wait for releases in the queue. -/
def Starved (p : Pool Id T) : Prop :=
  p.running.length = poolSize ∧ ∀ j ∈ p.running, j.proc = .acquire ∧ Blocked p j

section Paths
variable {s : St Id T} {c c' b : Id} {t t' : T}

/-- Somebody waits for a thread only during its flush. -/
theorem Waits.flushing {y : Actor Id T} (h : Waits s y (.thread c t)) : s.pc c t = .relRpc .dorelease := by
  cases h with
  | call hc => cases hc
  | client _ hh =>
    cases hh with
    | flush hp => exact hp

theorem not_transGen_thread {x : Actor Id T} (hp : s.pc c t ≠ .relRpc .dorelease) :
    ¬ Relation.TransGen (Waits s) x (.thread c t) := by
  intro h
  cases h with
  | single hw => exact hp hw.flushing
  | tail _ hw => exact hp hw.flushing

/-- For a release handler whose request has not been executed waits its own caller. -/
theorem Waits.caller {y : Actor Id T} (h : Waits s y (.release c t))
    (hr : (s.pc c t).release? c = some (b, .request)) :
    y = .thread c t ∧ s.pc c t = .relRpc .request ∨
      y = .revoke c t ∧ s.pc c t = .acqRpc (.revoking b .request) := by
  cases h with
  | call hc =>
    cases hc with
    | release hp _ =>
      rcases Pc.release?_eq_some.mp hr with ⟨hp', -⟩ | hp'
      · exact .inl ⟨rfl, hp'⟩
      · cases hp.symm.trans hp'
    | giveBack hp _ =>
      rcases Pc.release?_eq_some.mp hr with ⟨hp', -⟩ | hp'
      · cases hp.symm.trans hp'
      · exact .inr ⟨rfl, hp'⟩
  | client _ hh => cases hh
  | server _ hserving =>
    rw [Pc.serving_release hr] at hserving
    cases hserving

/-- For a revoke handler whose release has not been executed wait its own caller, and
threads of its client. -/
theorem Waits.revoker {y : Actor Id T} (h : Waits s y (.revoke c t)) (hs : Safe s) (hv : Served s)
    (ha : Asked s) (hp : s.pc c t = .acqRpc (.revoking b .request)) :
    y = .acquire c t ∨ ∃ t', y = .thread b t' ∧ s.pc b t' ≠ .relRpc .dorelease := by
  have hr : (s.pc c t).release? c = some (b, .request) := Pc.release?_eq_some.mpr (.inr hp)
  cases h with
  | call hc =>
    cases hc with
    | revoke _ => exact .inl rfl
    | revoking _ => exact .inl rfl
  | client hn hh =>
    cases hh with
    | revoke hp' =>
      cases hp.symm.trans hp'
      cases hn with
      | acquired hq => exact .inr ⟨_, rfl, by rw [hq]; exact nofun⟩
      | released hq => exact .inr ⟨_, rfl, by rw [hq]; exact nofun⟩
      | outside hq => exact .inr ⟨_, rfl, fun he => by rw [he] at hq; cases hq⟩
      | revoke hq =>
        rename_i c₁ t₁
        have here : Pending s (.stack c t) := ⟨.giving b, by rw [hp]; rfl⟩
        have there : Pending s (.stack c₁ t₁) := ⟨.asking b, by rw [hq]; rfl⟩
        cases ha.single _ _ here there
        cases hp.symm.trans hq
      | retry hq =>
        have hlock := hv.free (hv.held _ _ (Pc.serving_release hq))
        rw [hs.owned.lock, hs.release_owner hr] at hlock
        cases hlock

/-- An acquire handler that waits for a release which has not been executed has caused it. -/
theorem blocked_revoking (hs : Safe s) (hv : Served s) (ha : Asked s)
    (h : Relation.TransGen (Waits s) (.acquire c t) (.release c' t'))
    (hr : (s.pc c' t').release? c' = some (b, .request)) :
    (c' = c ∧ t' = t) ∧ s.pc c t = .acqRpc (.revoking b .request) := by
  -- the last wait of the path is of the revoke handler, the one before it of the acquire handler
  cases h with
  | single hw => rcases hw.caller hr with ⟨he, -⟩ | ⟨he, -⟩ <;> cases he
  | tail hpath hw =>
    rcases hw.caller hr with ⟨rfl, hp⟩ | ⟨rfl, hp⟩
    · exact absurd hpath (not_transGen_thread (by rw [hp]; exact nofun))
    · have callers : ∀ {y : Actor Id T}, Waits s y (.revoke c' t') →
          y = .acquire c' t' ∨ ∃ t'', y = .thread b t'' ∧ s.pc b t'' ≠ .relRpc .dorelease :=
        fun hw => hw.revoker hs hv ha hp
      cases hpath with
      | single hw' =>
        rcases callers hw' with he | ⟨t'', he, -⟩
        · cases he
          exact ⟨⟨rfl, rfl⟩, hp⟩
        · cases he
      | tail hpath' hw' =>
        rcases callers hw' with rfl | ⟨t'', rfl, hne⟩
        · -- an acquire handler is waited for only by its thread, which nobody waits for
          exfalso
          have last : ∀ {y : Actor Id T}, Waits s y (.acquire c' t') → y = .thread c' t' := by
            intro y hy
            cases hy with
            | call hc =>
              cases hc
              rfl
            | client _ hh => cases hh
          cases hpath' with
          | single hy => cases last hy
          | tail hpath'' hy =>
            cases last hy
            exact not_transGen_thread (by rw [hp]; exact nofun) hpath''
        · exact absurd hpath' (not_transGen_thread hne)

end Paths

/-! ### Runs that leave a thread to the releases -/

/-- The acquire handler is about to call revoke, or waits for its reply, and the release
that this takes has not been executed. -/
def Pc.awaits : Pc Id → Bool
  | .acqRpc .readOwner | .acqRpc (.revoke _) => true
  | .acqRpc (.revoking _ p) => p.unserved
  | _ => false

def Job.awaits (s : Sys Id T) (j : Job Id T) : Bool := j.proc = .acquire && (j.pc s).awaits

/-- The acquire handlers on threads of the pool that wait for a revoke. -/
def Pool.awaiting (p : Pool Id T) : List (Job Id T) := p.running.filter fun j => j.awaits p.sys

/-- To execute the request is to call revoke at the owner of the lock. -/
def Job.asks (s : Sys Id T) (j : Job Id T) : Prop :=
  j.proc = .acquire ∧ (serverAcquire (s.view j.lid).server j.c).2 = .readOwner

/-- The condition on a move: the lock id fits in a C `int`, and an acquire handler comes to
call revoke only while at most four others of the pool's six wait for theirs. -/
def spares (p : Pool Id T) : PoolAct Id T → Prop
  | .move m => Fits m.1 ∧ ∀ j ∈ m.2.job? m.1, j.asks p.sys → p.awaiting.length + 1 < poolSize
  | .gotPdu _ | .takeJob => True

/-- The locks in use are among `L`. -/
def within (L : Finset Lid) : Pool Id T → PoolAct Id T → Prop := fun _ x =>
  match x with
  | .move m => m.1 ∈ L
  | _ => True

instance (s : Sys Id T) (j : Job Id T) : Decidable (j.asks s) := inferInstanceAs (Decidable (_ ∧ _))

instance (p : Pool Id T) : (x : PoolAct Id T) → Decidable (spares p x)
  | .move _ => inferInstanceAs (Decidable (_ ∧ _))
  | .gotPdu _ | .takeJob => isTrue trivial

instance (L : Finset Lid) (p : Pool Id T) (x : PoolAct Id T) : Decidable (within L p x) :=
  match x with
  | .move m => inferInstanceAs (Decidable (m.1 ∈ L))
  | .gotPdu _ | .takeJob => isTrue trivial

omit [LinearOrder Id] in
theorem Pc.awaits_wake {q : Pc Id} (h : q.blocked = true) : q.wake.awaits = false := by
  cases q with
  | acqWait _ | relWait _ => rfl
  | _ => cases h

omit [LinearOrder Id] in
theorem Pc.stage_of_awaits {q : Pc Id} (h : q.awaits = true) (c : Id) : ∃ x, q.stage c = some x := by
  unfold Pc.awaits at h
  split at h
  · exact ⟨.reading, rfl⟩
  · exact ⟨.asking _, rfl⟩
  · exact ⟨.giving _, if_pos h⟩
  · cases h

theorem Job.awaits_iff {s : Sys Id T} {j : Job Id T} :
    j.awaits s = true ↔ j.proc = .acquire ∧ (j.pc s).awaits = true := by
  rw [Job.awaits, Bool.and_eq_true, decide_eq_true_iff]

theorem Pool.mem_awaiting {p : Pool Id T} {j : Job Id T} :
    j ∈ p.awaiting ↔ j ∈ p.running ∧ j.proc = .acquire ∧ (j.pc p.sys).awaits = true :=
  List.mem_filter.trans (and_congr_right' Job.awaits_iff)

theorem pending_of_awaiting {p : Pool Id T} {j : Job Id T} (hj : j ∈ p.awaiting) :
    Pending (p.sys.view j.lid) (.stack j.c j.t) :=
  Pc.stage_of_awaits (Pool.mem_awaiting.mp hj).2.2 j.c

/-- The handler of `acquire` answers at once, or goes on to call revoke. -/
theorem serverAcquire_cases (v : ServerLock Id) (c : Id) :
    (∃ r, (serverAcquire v c).2 = .reply r) ∨ (serverAcquire v c).2 = .readOwner ∧ v.revoked = false := by
  unfold serverAcquire
  split_ifs with _ _ hr
  · exact .inl ⟨_, rfl⟩
  · exact .inl ⟨_, rfl⟩
  · exact .inl ⟨_, rfl⟩
  · exact .inr ⟨rfl, Bool.eq_false_iff.mpr hr⟩

theorem Local.awaits {c a : Id} {v v' : ServerLock Id} {k k' : ClientLock} {q q' : Pc Id} {w : Wakes}
    (h : Local c a v k q w v' k' q') (haw : q'.awaits = true) : q.awaits = true ∨ q = .acqRpc .request := by
  cases h with
  | demand hq => exact .inr hq
  | readOwner _ hq | revokeFree hq | flushedRevoke hq => rw [hq]; exact .inl rfl
  | serveRelease b p hr _ hp _ _ _ hq' =>
    rcases Pc.release?_eq_some.mp hr with ⟨rfl, -⟩ | rfl
    · cases hq' ▸ haw
    · subst hp hq'
      cases (retryLoop_served 2 _).symm.trans haw
  | retryHandler b cnt rest hr _ _ _ _ hq' =>
    subst hq'
    rcases Pc.release?_eq_some.mp hr with ⟨rfl, -⟩ | rfl <;> cases haw
  | retryReply b cnt rest p hr hp _ _ _ hq' =>
    rcases Pc.release?_eq_some.mp hr with ⟨rfl, -⟩ | rfl
    · cases hq' ▸ haw
    · subst hp hq'
      cases (retryLoop_served cnt rest).symm.trans haw
  | wake hb _ _ _ hq' => cases (Pc.awaits_wake hb).symm.trans (hq' ▸ haw)
  | _ => subst_vars; cases haw

variable [DecidableEq T] [Fintype T]

/-- A handler that waits for a revoke did before the move, or its request was executed. -/
theorem awaits_of_step {s s' : Sys Id T} {m : Lid × Act Id T} {j : Job Id T} (h : s.step m = some s')
    (hacq : j.proc = .acquire) (haw : (j.pc s').awaits = true) :
    (j.pc s).awaits = true ∨ m.2.job? m.1 = some j ∧ j.asks s := by
  obtain ⟨l, c, t, f⟩ := j
  cases hacq
  by_cases hl : l = m.1
  · subst hl
    have hstep := Sys.step_self h
    obtain ⟨a, w, hm⟩ := step_move hstep
    by_cases ht : c = m.2.thread.1 ∧ t = m.2.thread.2
    · obtain ⟨rfl, rfl⟩ := ht
      refine (hm.what.awaits haw).imp_right fun hq => ?_
      have hjob := job_of_sent hstep (Pc.sent_acquire (c := m.2.thread.1).mpr hq) m.1
      refine ⟨hjob, rfl, ?_⟩
      obtain ⟨l, x⟩ := m
      cases x with
      | serveAcquire c t =>
        obtain ⟨-, hs'⟩ := Option.ite_none_right_eq_some.mp hstep
        have hpc : (s'.view l).pc c t = .acqRpc (serverAcquire (s.view l).server c).2 := by
          rw [← Option.some.inj hs']
          exact setPc_self ..
        have haw : ((s'.view l).pc c t).awaits = true := haw
        rcases serverAcquire_cases (s.view l).server c with ⟨r, hr⟩ | ⟨hr, -⟩
        · rw [hpc, hr] at haw
          cases haw
        · exact hr
      | _ => cases hjob
    · left
      rcases hm.threads.frame c t ht with he | ⟨hb, he⟩
      · exact (congrArg Pc.awaits he).symm.trans haw
      · cases (Pc.awaits_wake hb).symm.trans ((congrArg Pc.awaits he).symm.trans haw)
  · exact .inl ((congrArg Pc.awaits (Sys.step_pc_other h hl c t)).symm.trans haw)

section Runs
variable {L : Finset Lid} {p : Pool Id T} {i j : Job Id T} {ok : Pool Id T → PoolAct Id T → Prop}

theorem Pool.step_sys {p p' : Pool Id T} {x : PoolAct Id T} (h : p.step x = some p') :
    p'.sys = p.sys ∨ ∃ m, x = .move m ∧ p.sys.step m = some p'.sys := by
  cases x with
  | gotPdu j =>
    obtain ⟨-, h⟩ := Option.ite_none_right_eq_some.mp h
    obtain rfl := Option.some.inj h
    exact .inl rfl
  | takeJob =>
    simp only [Pool.step] at h
    split at h
    · cases h
    · obtain ⟨-, h⟩ := Option.ite_none_right_eq_some.mp h
      obtain rfl := Option.some.inj h
      exact .inl rfl
  | move m =>
    obtain ⟨-, h⟩ := Option.ite_none_right_eq_some.mp h
    obtain ⟨s', hs, rfl⟩ := Option.map_eq_some_iff.mp h
    exact .inr ⟨m, rfl, hs⟩

theorem Pool.steps_sys (hok : ∀ p m, ok p (.move m) → Fits m.1) (h : Steps Pool.step ok {} p) :
    Steps Sys.step fitting {} p.sys := by
  refine Steps.simulate (f := Pool.sys) h fun p x p' hx hs => ?_
  rcases Pool.step_sys hs with he | ⟨m, rfl, hm⟩
  · exact .inl he
  · exact .inr ⟨m, hok p m hx, hm⟩

/-- A thread is somewhere only for locks in use. -/
theorem used_of_steps {P : Lid → Prop} (hok : ∀ p m, ok p (.move m) → P m.1) (h : Steps Pool.step ok {} p)
    {c : Id} {t : T} {l : Lid} (hp : p.sys.pc c t l ≠ .idle) : P l := by
  have used : ∀ c t l, p.sys.pc c t l ≠ .idle → P l := by
    refine h.invariant (I := fun p => ∀ c t l, p.sys.pc c t l ≠ .idle → P l)
      (fun _ _ _ hn => absurd rfl hn) fun p x p' hI hx hs c t l hn => ?_
    rcases Pool.step_sys hs with he | ⟨m, rfl, hm⟩
    · exact hI c t l (he ▸ hn)
    · by_cases hl : l = m.1
      · rw [hl]
        exact hok p m hx
      · exact hI c t l (Sys.step_pc_other hm hl c t ▸ hn)
  exact used c t l hp

theorem poolOk_of_steps (h : Steps Pool.step ok {} p) : PoolOk p :=
  h.invariant poolOk_init fun _ _ _ hp _ hs => hp.step hs

/-- A handler that waits for a release in the queue is the one that asked for it. -/
theorem Blocked.revoking (hok : ∀ p m, ok p (.move m) → Fits m.1) (h : Steps Pool.step ok {} p)
    (hj : Blocked p j) : ∃ b, j.pc p.sys = .acqRpc (.revoking b .request) := by
  obtain ⟨c, t, hpath, hq⟩ := hj
  obtain ⟨b, hr⟩ := Pc.sent_release.mp ((poolOk_of_steps h).sent _ hq)
  have hfits : Fits j.lid := used_of_steps hok h (c := c) (t := t) fun hp => by
    have hr : (p.sys.pc c t j.lid).release? c = some (b, .request) := hr
    rw [hp] at hr
    cases hr
  have hrun := Sys.steps_fitting (Pool.steps_sys hok h) hfits
  exact ⟨b, (blocked_revoking (safe_of_steps hrun) (served_of_steps hrun) (asked_of_steps hrun) hpath hr).2⟩

/-- At no time do all threads of the pool wait for revokes. -/
theorem awaiting_lt (h : Steps Pool.step spares {} p) : p.awaiting.length < poolSize := by
  refine (h.invariant (I := fun p => PoolOk p ∧ p.awaiting.length < poolSize) ⟨poolOk_init, Nat.zero_lt_succ 5⟩
    fun p x p' hI hx hs => ⟨hI.1.step hs, ?_⟩).2
  cases x with
  | gotPdu j =>
    obtain ⟨-, hs⟩ := Option.ite_none_right_eq_some.mp hs
    obtain rfl := Option.some.inj hs
    exact hI.2
  | takeJob =>
    cases hq : p.queue with
    | nil => simp [Pool.step, hq] at hs
    | cons j rest =>
      simp only [Pool.step, hq] at hs
      obtain ⟨-, hs⟩ := Option.ite_none_right_eq_some.mp hs
      obtain rfl := Option.some.inj hs
      have hnew : ¬ j.awaits p.sys = true := by
        intro haw
        obtain ⟨hacq, haw⟩ := Job.awaits_iff.mp haw
        have hsent := hI.1.sent j (by rw [hq]; exact List.mem_cons_self)
        rw [hacq] at hsent
        rw [Pc.sent_acquire.mp hsent] at haw
        cases haw
      have hsame : Pool.awaiting ⟨p.sys, rest, j :: p.running⟩ = p.awaiting := List.filter_cons_of_neg hnew
      rw [hsame]
      exact hI.2
  | move m =>
    obtain ⟨-, hs⟩ := Option.ite_none_right_eq_some.mp hs
    obtain ⟨s', hstep, rfl⟩ := Option.map_eq_some_iff.mp hs
    set p' : Pool Id T := {p with sys := s', running := p.running.filter fun j => (j.pc s').unanswered j.c j.proc}
    have hnodup : p'.awaiting.Nodup := ((List.nodup_append.mp hI.1.nodup).2.1.filter _).filter _
    have hold : ∀ j ∈ p'.awaiting, j ∈ p.awaiting ∨ m.2.job? m.1 = some j ∧ j.asks p.sys := by
      intro j hj
      obtain ⟨hrun, hacq, haw⟩ := Pool.mem_awaiting.mp hj
      exact (awaits_of_step hstep hacq haw).imp_left fun haw =>
        Pool.mem_awaiting.mpr ⟨List.mem_of_mem_filter hrun, hacq, haw⟩
    by_cases hnew : ∃ j, m.2.job? m.1 = some j ∧ j.asks p.sys
    · obtain ⟨j, hj, hasks⟩ := hnew
      have hsub : p'.awaiting ⊆ j :: p.awaiting := fun i hi => by
        rcases hold i hi with hi | ⟨hi, -⟩
        · exact List.mem_cons_of_mem _ hi
        · cases hj.symm.trans hi
          exact List.mem_cons_self
      exact Nat.lt_of_le_of_lt (hnodup.subperm hsub).length_le (hx.2 j hj hasks)
    · have hsub : p'.awaiting ⊆ p.awaiting := fun i hi => (hold i hi).resolve_right fun h => hnew ⟨i, h⟩
      exact Nat.lt_of_le_of_lt (hnodup.subperm hsub).length_le hI.2

theorem lid_mem_of_awaiting (h : Steps Pool.step (within L) {} p) (hj : j ∈ p.awaiting) : j.lid ∈ L := by
  refine used_of_steps (fun _ _ hm => hm) h (c := j.c) (t := j.t) fun hidle => ?_
  obtain ⟨x, hx⟩ : ∃ x, (p.sys.pc j.c j.t j.lid).stage j.c = some x := pending_of_awaiting hj
  rw [hidle] at hx
  cases hx

theorem asked_of_within (hL : ∀ l ∈ L, Fits l) (h : Steps Pool.step (within L) {} p) {l : Lid} (hl : l ∈ L) :
    Asked (p.sys.view l) :=
  asked_of_steps (Sys.steps_fitting (Pool.steps_sys (fun _ m hm => hL m.1 hm) h) (hL l hl))

/-- For one lock at most one handler waits for a revoke. -/
theorem awaiting_lid_inj (hL : ∀ l ∈ L, Fits l) (h : Steps Pool.step (within L) {} p) (hi : i ∈ p.awaiting)
    (hj : j ∈ p.awaiting) (he : i.lid = j.lid) : i = j := by
  have hasked := asked_of_within hL h (lid_mem_of_awaiting h hi)
  have hpi := pending_of_awaiting hi
  have hpj := pending_of_awaiting hj
  have hfi := (Pool.mem_awaiting.mp hi).2.1
  have hfj := (Pool.mem_awaiting.mp hj).2.1
  cases i
  cases j
  cases he
  cases hfi
  cases hfj
  cases hasked.single _ _ hpi hpj
  rfl

/-- For the lock that a handler comes to call revoke for, no other waits. -/
theorem awaiting_lid_ne (hL : ∀ l ∈ L, Fits l) (h : Steps Pool.step (within L) {} p) (hi : i ∈ p.awaiting)
    (hj : j.asks p.sys) : i.lid ≠ j.lid := by
  intro he
  have hrevoked := (asked_of_within hL h (lid_mem_of_awaiting h hi)).revoked _ (pending_of_awaiting hi)
  rcases serverAcquire_cases (p.sys.view j.lid).server j.c with ⟨r, hr⟩ | ⟨-, hr⟩
  · cases hr.symm.trans hj.2
  · rw [he, hr] at hrevoked
    cases hrevoked

/-- With fewer locks in use than there are threads, a thread is spared. -/
theorem spares_of_within (hL : ∀ l ∈ L, Fits l) (hfew : L.card < poolSize) (h : Steps Pool.step (within L) {} p) :
    Steps Pool.step spares {} p := by
  refine (h.mono_of_invariant (I := Steps Pool.step (within L) {}) .refl (fun _ _ _ => .tail) ?_).1
  intro p x h hx
  cases x with
  | gotPdu j => trivial
  | takeJob => trivial
  | move m =>
    refine ⟨hL _ hx, fun j hj hasks => ?_⟩
    have hjm : j.lid = m.1 := by
      obtain ⟨l, x⟩ := m
      cases x <;> cases hj <;> rfl
    have hnodup : (p.awaiting.map Job.lid).Nodup :=
      ((List.nodup_append.mp (poolOk_of_steps h).nodup).2.1.filter _).map_on
        fun _ hi _ hj => awaiting_lid_inj hL h hi hj
    have hsub : (p.awaiting.map Job.lid).toFinset ⊆ L.erase m.1 := by
      intro l hl
      obtain ⟨i, hi, rfl⟩ := List.mem_map.mp (List.mem_toFinset.mp hl)
      exact Finset.mem_erase.mpr ⟨hjm ▸ awaiting_lid_ne hL h hi hasks, lid_mem_of_awaiting h hi⟩
    have hcard := Finset.card_le_card hsub
    rw [List.toFinset_card_of_nodup hnodup, List.length_map, Finset.card_erase_of_mem hx] at hcard
    have hpos := Finset.card_pos.mpr ⟨_, hx⟩
    omega

/-- **The dispatch pool does not starve** when a handler comes to call revoke only while a
thread more than its own is left, and when fewer locks are in use than there are threads. -/
theorem pool_never_starves :
    (Steps Pool.step spares {} p → ¬ Starved p) ∧
      ∀ L : Finset Lid, (∀ l ∈ L, Fits l) → L.card < poolSize → Steps Pool.step (within L) {} p → ¬ Starved p := by
  have spared : Steps Pool.step spares {} p → ¬ Starved p := by
    rintro h ⟨hlen, hall⟩
    have hawait : p.awaiting = p.running := List.filter_eq_self.mpr fun j hj => by
      obtain ⟨b, hb⟩ := (hall j hj).2.revoking (fun _ _ hm => hm.1) h
      exact Job.awaits_iff.mpr ⟨(hall j hj).1, by rw [hb]; rfl⟩
    exact absurd (hawait ▸ hlen) (Nat.ne_of_lt (awaiting_lt h))
  exact ⟨spared, fun L hL hfew h => spared (spares_of_within hL hfew h)⟩

end Runs

def cacheLock (l : Lid) : List (PoolAct (Fin 2) (Fin 6)) :=
  [.move (l, .acquire 0 0), .gotPdu ⟨l, 0, 0, .acquire⟩, .takeJob, .move (l, .serveAcquire 0 0),
    .move (l, .acquireReply 0 0), .move (l, .release 0 0 none)]

/-- Thread `t` of client 1 asks for the lock. -/
def askFor (l : Lid) (t : Fin 6) : List (PoolAct (Fin 2) (Fin 6)) :=
  [.move (l, .acquire 1 t), .gotPdu ⟨l, 1, t, .acquire⟩, .takeJob, .move (l, .serveAcquire 1 t)]

def giveBack (l : Lid) (t : Fin 6) : List (PoolAct (Fin 2) (Fin 6)) :=
  [.move (l, .readOwner 1 t), .move (l, .revokeHandler 1 t), .move (l, .dorelease 1 t),
    .gotPdu ⟨l, 1, t, .release⟩]

/-- Client 0 has six locks cached, and five threads of client 1 ask for one each: five
acquire handlers wait for revokes, and a thread of the pool is left to the releases. -/
theorem pool_never_starves_five_asked :
    ∃ p : Pool (Fin 2) (Fin 6), Steps Pool.step spares {} p ∧ p.awaiting.length = 5 ∧ p.running.length = 5 ∧
      p.queue.length = 5 ∧ ¬ Starved p := by
  obtain ⟨p, hp, ha, hr, hq⟩ : ∃ p : Pool (Fin 2) (Fin 6),
      Steps Pool.step spares {} p ∧ p.awaiting.length = 5 ∧ p.running.length = 5 ∧ p.queue.length = 5 :=
    Steps.exists_of_run
      ([1, 2, 3, 4, 5, 6].flatMap cacheLock ++
        [(1, 0), (2, 1), (3, 2), (4, 3), (5, 4)].flatMap (fun r => askFor r.1 r.2) ++
        [(1, 0), (2, 1), (3, 2), (4, 3), (5, 4)].flatMap fun r => giveBack r.1 r.2)
      (by decide +kernel)
  exact ⟨p, hp, ha, hr, hq, pool_never_starves.1 hp⟩

/-! ### Six locks -/

/-- Every thread of the pool runs an acquire handler whose own release has not been
executed. -/
def Stuck (p : Pool Id T) : Prop :=
  p.running.length = poolSize ∧
    ∀ j ∈ p.running, j.proc = .acquire ∧ ∃ b, j.pc p.sys = .acqRpc (.revoking b .request)

theorem Stuck.step {p p' : Pool Id T} {x : PoolAct Id T} (h : Stuck p) (hs : p.step x = some p') :
    Stuck p' ∧ p'.running = p.running := by
  cases x with
  | gotPdu j =>
    obtain ⟨-, hs⟩ := Option.ite_none_right_eq_some.mp hs
    obtain rfl := Option.some.inj hs
    exact ⟨h, rfl⟩
  | takeJob =>
    simp only [Pool.step] at hs
    split at hs
    · cases hs
    · obtain ⟨hlt, -⟩ := Option.ite_none_right_eq_some.mp hs
      exact absurd h.1 (Nat.ne_of_lt hlt)
  | move m =>
    obtain ⟨hrun, hs⟩ := Option.ite_none_right_eq_some.mp hs
    obtain ⟨s', hstep, rfl⟩ := Option.map_eq_some_iff.mp hs
    have still : ∀ j ∈ p.running, j.pc s' = j.pc p.sys := by
      intro j hj
      obtain ⟨hacq, b, hb⟩ := h.2 j hj
      refine pc_of_step (j := {j with proc := .release}) hstep (fun he => ?_) ?_
      · -- no thread of the pool runs a release handler
        rw [he, Option.all_some, decide_eq_true_iff] at hrun
        cases (h.2 _ hrun).1
      · exact Pc.sent_release.mpr ⟨b, (congrArg (Pc.release? j.c) hb).trans rfl⟩
    have same : p.running.filter (fun j => (j.pc s').unanswered j.c j.proc) = p.running := by
      refine List.filter_eq_self.mpr fun j hj => ?_
      obtain ⟨hacq, b, hb⟩ := h.2 j hj
      rw [still j hj, hb, hacq]
      rfl
    refine ⟨⟨by rw [same]; exact h.1, fun j hj => ?_⟩, same⟩
    rw [same] at hj
    rw [still j hj]
    exact h.2 j hj

/-- A stuck pool stays stuck, with the same handlers. -/
theorem Stuck.forever {ok : Pool Id T → PoolAct Id T → Prop} {p p' : Pool Id T} (h : Stuck p)
    (hs : Steps Pool.step ok p p') : p'.running = p.running :=
  (hs.invariant (I := fun p' => Stuck p' ∧ p'.running = p.running) ⟨h, rfl⟩ fun _ _ _ hp _ hstep =>
    ⟨(hp.1.step hstep).1, (hp.1.step hstep).2.trans hp.2⟩).2

/-- The pool starves. Client 0 has six locks cached, and six threads of client 1 ask for
one each: six acquire handlers wait for revokes, and the six releases these wait for are
in the queue, for ever. -/
theorem pool_starves :
    ∃ p : Pool (Fin 2) (Fin 6), Steps Pool.step (within {1, 2, 3, 4, 5, 6}) {} p ∧ Starved p ∧
      ∀ p', Steps Pool.step (within {1, 2, 3, 4, 5, 6}) p p' → p'.running = p.running := by
  obtain ⟨p, hp, hlen, hall⟩ : ∃ p : Pool (Fin 2) (Fin 6),
      Steps Pool.step (within {1, 2, 3, 4, 5, 6}) {} p ∧ p.running.length = poolSize ∧
      ∀ j ∈ p.running, j.proc = .acquire ∧ j.pc p.sys = .acqRpc (.revoking 0 .request) ∧
        {j with proc := .release} ∈ p.queue :=
    Steps.exists_of_run
      ([1, 2, 3, 4, 5, 6].flatMap cacheLock ++
        [(1, 0), (2, 1), (3, 2), (4, 3), (5, 4), (6, 5)].flatMap (fun r => askFor r.1 r.2) ++
        [(1, 0), (2, 1), (3, 2), (4, 3), (5, 4), (6, 5)].flatMap fun r => giveBack r.1 r.2)
      (by decide +kernel)
  refine ⟨p, hp, ⟨hlen, fun j hj => ?_⟩, fun p' hp' => ?_⟩
  · obtain ⟨hacq, hpc, hq⟩ := hall j hj
    have hpc : (p.sys.view j.lid).pc j.c j.t = .acqRpc (.revoking 0 .request) := hpc
    have hrevoke : Waits (p.sys.view j.lid) (.acquire j.c j.t) (.revoke j.c j.t) := .call (.revoking hpc)
    have hrelease : Waits (p.sys.view j.lid) (.revoke j.c j.t) (.release j.c j.t) :=
      .call (.giveBack hpc rfl)
    exact ⟨hacq, j.c, j.t, (Relation.TransGen.single hrevoke).tail hrelease, hq⟩
  · exact Stuck.forever ⟨hlen, fun j hj => ⟨(hall j hj).1, 0, (hall j hj).2.1⟩⟩ hp'

end Step

end Yfs.Lock

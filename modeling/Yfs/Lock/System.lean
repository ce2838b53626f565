import Mathlib.Algebra.Group.Nat.Defs
import Mathlib.Data.BitVec
import Mathlib.Data.String.Basic
import Yfs.Lock.Threads

/-! All locks at once.

The server keys its maps by the 64-bit lock id, a client keys its own by a C `int`,
so two ids with the same low 32 bits share a client's entries. `Sys` has both maps;
`Sys.view l` is what the protocol for `l` sees of it, and a move for `l` is a move of
that view. A run of the system in which no other id falls on the key of `l` is, seen
from `l`, a run of the protocol for one lock (`Sys.steps_view`). Ids that fit in an
`int` have keys of their own (`eq_of_key_eq`). Locks whose ids have keys of their own
are independent (`locks_independent`); locks that share a key are not. -/
namespace Yfs.Lock
open Base

/-- `lock_protocol::lockid_t`. -/
abbrev Lid := BitVec 64

/-- The `int` a client's maps are keyed by. -/
abbrev Key := BitVec 32

/-- The conversion of a lock id to `int`. -/
def key (l : Lid) : Key := l.setWidth 32

/-- The lock id is a non-negative C `int`. -/
def Fits (l : Lid) : Prop := l.toNat < 2 ^ 31

instance (l : Lid) : Decidable (Fits l) := inferInstanceAs (Decidable (_ < _))

theorem eq_of_key_eq {l l' : Lid} (h : Fits l) (h' : Fits l') (hk : key l = key l') : l = l' := by
  have := congrArg BitVec.toNat hk
  simp only [key, BitVec.toNat_setWidth] at this
  unfold Fits at h h'
  apply BitVec.eq_of_toNat_eq
  omega

/-- The server's maps, the clients' maps, and where each thread is for each lock.
`inside` is the lock whose `acquire` or `release` a thread is in. -/
structure Sys (Id T : Type) [LinearOrder Id] where
  server : Lid → ServerLock Id := fun _ => {}
  client : Id → Key → ClientLock := fun _ _ => {}
  pc : Id → T → Lid → Pc Id := fun _ _ _ => .idle
  inside : Id → T → Option Lid := fun _ _ => none

/-- Outside `acquire` and `release`. -/
def Pc.outside {Id : Type} : Pc Id → Bool
  | .idle | .holding => true
  | _ => false

section System
variable {Id T : Type} [LinearOrder Id]

/-- The entries under `l`. -/
def Sys.view (s : Sys Id T) (l : Lid) : St Id T where
  server := s.server l
  client c := s.client c (key l)
  pc c t := s.pc c t l

/-- The entries under `l` replaced. -/
def Sys.put (s : Sys Id T) (l : Lid) (v : St Id T) : Sys Id T where
  server l' := if l' = l then v.server else s.server l'
  client c k := if k = key l then v.client c else s.client c k
  pc c t l' := if l' = l then v.pc c t else s.pc c t l'
  inside := s.inside

@[simp] theorem Sys.view_put_self (s : Sys Id T) (l : Lid) (v : St Id T) : (s.put l v).view l = v := by
  simp [Sys.view, Sys.put]

theorem Sys.view_put_ne {s : Sys Id T} {l l' : Lid} {v : St Id T} (h : key l ≠ key l') :
    (s.put l v).view l' = s.view l' := by
  have hl : l' ≠ l := fun he => h (by rw [he])
  simp [Sys.view, Sys.put, hl, h.symm]

/-- What is seen from `l'` of a change of the entries under `l`, if the two do not share a
key. -/
theorem Sys.view_put {s : Sys Id T} {l l' : Lid} {v : St Id T} (hk : key l = key l' → l = l') :
    (s.put l v).view l' = s.view l' ∨ l = l' ∧ (s.put l v).view l' = v := by
  by_cases he : l = l'
  · subst he
    exact .inr ⟨rfl, s.view_put_self l v⟩
  · exact .inl (Sys.view_put_ne fun hkey => he (hk hkey))

variable [DecidableEq T] [Fintype T]

/-- A move of the system: a move for the lock `m.1`, by a thread that is not inside a
call for another lock. -/
def Sys.step (s : Sys Id T) (m : Lid × Act Id T) : Option (Sys Id T) :=
  let (c, t) := m.2.thread
  if s.inside c t = none ∨ s.inside c t = some m.1 then
    (Lock.step (s.view m.1) m.2).map fun v =>
      {s.put m.1 v with
        inside := fun c' t' =>
          if c' = c ∧ t' = t then if (v.pc c t).outside then none else some m.1 else s.inside c' t'}
  else none

/-- Seen from a lock whose key the move's lock does not share, a move is a move of the
protocol for that lock or nothing. -/
theorem Sys.step_view {s s' : Sys Id T} {m : Lid × Act Id T} {l : Lid} (h : s.step m = some s')
    (hk : key m.1 = key l → m.1 = l) :
    s'.view l = s.view l ∨ m.1 = l ∧ Lock.step (s.view l) m.2 = some (s'.view l) := by
  unfold Sys.step at h
  rw [Option.ite_none_right_eq_some, Option.map_eq_some_iff] at h
  obtain ⟨-, v, hv, rfl⟩ := h
  rcases Sys.view_put (s := s) (v := v) hk with he | ⟨rfl, he⟩
  · exact .inl he
  · exact .inr ⟨rfl, hv.trans (congrArg some he.symm)⟩

/-- A run of the system, seen from a lock whose key no other lock of the run shares. -/
theorem Sys.steps_view {ok : Sys Id T → Lid × Act Id T → Prop} {okl : St Id T → Act Id T → Prop}
    {s s' : Sys Id T} {l : Lid} (h : Steps Sys.step ok s s')
    (hk : ∀ s m, ok s m → key m.1 = key l → m.1 = l)
    (hok : ∀ s m, ok s m → m.1 = l → okl (s.view l) m.2) :
    Steps Lock.step okl (s.view l) (s'.view l) := by
  refine Steps.simulate (f := fun s => s.view l) h fun s m s' hm hs => ?_
  rcases Sys.step_view hs (hk s m hm) with he | ⟨hl, hs⟩
  · exact .inl he
  · exact .inr ⟨m.2, hok s m hm hl, hs⟩

/-- The moves are for lock ids that fit in a C `int`. -/
def fitting : Sys Id T → Lid × Act Id T → Prop := fun _ m => Fits m.1

instance (s : Sys Id T) (m : Lid × Act Id T) : Decidable (fitting s m) :=
  inferInstanceAs (Decidable (Fits m.1))

theorem Sys.steps_fitting {s : Sys Id T} {l : Lid} (h : Steps Sys.step fitting {} s) (hl : Fits l) :
    Steps Lock.step anyMove {} (s.view l) :=
  Sys.steps_view h (fun _ _ hm hk => eq_of_key_eq hm hl hk) fun _ _ _ _ => trivial

/-! ### Clients whose lock ids share a key

What `Threads` and `Mutexes` say of a client's entries holds of all the lock ids that
use them together, whatever ids are in use. -/

omit [DecidableEq T] [Fintype T] in
/-- The entries under `k` with the threads of every lock id that uses them. -/
def Sys.keyView (s : Sys Id T) (k : Key) : St Id (T × Lid) where
  client c := s.client c k
  pc c u := if key u.2 = k then s.pc c u.1 u.2 else .idle

omit [DecidableEq T] [Fintype T] in
theorem Sys.keyView_pc (s : Sys Id T) (c : Id) (t : T) (l : Lid) :
    (s.keyView (key l)).pc c (t, l) = s.pc c t l := if_pos rfl

/-- A move for `m.1`, seen from a key. -/
theorem Sys.step_keyView {s s' : Sys Id T} {m : Lid × Act Id T} (h : s.step m = some s') (k : Key) :
    s'.keyView k = s.keyView k ∨
      ∃ a, Touch (s.keyView k) (s'.keyView k) m.2.thread.1 (m.2.thread.2, m.1) a := by
  unfold Sys.step at h
  rw [Option.ite_none_right_eq_some, Option.map_eq_some_iff] at h
  obtain ⟨-, v, hv, rfl⟩ := h
  by_cases hk : key m.1 = k
  · subst hk
    obtain ⟨a, w, hm⟩ := step_move hv
    refine .inr ⟨a, ⟨s.server m.1, w, v.server, ?_⟩, fun b hb => ?_, fun c' u hne => ?_⟩
    · simpa [Sys.keyView, Sys.put, Sys.view] using hm.what
    · simpa [Sys.keyView, Sys.put, Sys.view] using hm.clients b hb
    · by_cases hu : u.2 = m.1
      · obtain ⟨t', l⟩ := u
        subst hu
        simpa [Sys.keyView, Sys.put, Sys.view] using
          hm.threads.frame c' t' fun he => hne ⟨he.1, Prod.ext he.2 rfl⟩
      · exact .inl (by simp [Sys.keyView, Sys.put, hu])
  · refine .inl ?_
    have hne : ∀ l : Lid, key l = k → l ≠ m.1 := fun l hl he => hk (he ▸ hl)
    simp only [Sys.keyView, Sys.put, St.mk.injEq, true_and]
    constructor
    · funext c
      exact if_neg fun he => hk he.symm
    · funext c u
      split
      · rename_i hu
        exact if_neg (hne u.2 hu)
      · rfl

/-- Under every key, threads and mutexes agree with the client's entries. -/
structure Keyed (s : Sys Id T) : Prop where
  threads : ∀ k, Threads (s.keyView k)
  mutexes : ∀ k, Mutexes (s.keyView k)

omit [DecidableEq T] [Fintype T] in
theorem keyed_init : Keyed ({} : Sys Id T) := by
  have idle : ∀ (k : Key) c u, (({} : Sys Id T).keyView k).pc c u = .idle := fun k c u => ite_self _
  refine ⟨fun k => ⟨fun c u st h => ?_, fun c u u' st st' h _ => ?_, fun c u => ?_⟩,
    fun k => ⟨fun c u a h => ?_, fun c u c' u' a h _ => ?_, fun a h => ?_, fun c u a p h => ?_⟩⟩
  all_goals first | cases h | (rw [idle] at h; cases h) | (rw [idle]; rfl)

theorem Keyed.step {s s' : Sys Id T} {m : Lid × Act Id T} (h : Keyed s) (hs : s.step m = some s') :
    Keyed s' := by
  constructor
  · intro k
    rcases Sys.step_keyView hs k with he | ⟨a, ht⟩
    · rw [he]
      exact h.threads k
    · exact (h.threads k).touch ht
  · intro k
    rcases Sys.step_keyView hs k with he | ⟨a, ht⟩
    · rw [he]
      exact h.mutexes k
    · exact (h.mutexes k).touch ht

omit [DecidableEq T] [Fintype T] in
theorem Keyed.holding {s : Sys Id T} (h : Keyed s) {c : Id} {t : T} {l : Lid}
    (hp : s.pc c t l = .holding) : (s.client c (key l)).status = .locked :=
  (h.threads (key l)).pinned c (t, l) _ (by rw [Sys.keyView_pc, hp]; rfl)

omit [DecidableEq T] [Fintype T] in
/-- While a release of `a` is under way, in `release` or in the revoke handler, the lock
is not cached at `a`. -/
theorem Keyed.release {s : Sys Id T} (h : Keyed s) {c a : Id} {t : T} {l : Lid} {p : RelPhase Id}
    (hp : (s.pc c t l).release? c = some (a, p)) : (s.client a (key l)).status.caches = false := by
  rcases Pc.release?_eq_some.mp hp with ⟨hp, rfl⟩ | hp
  · have hs : (s.client a (key l)).status = .releasing :=
      (h.threads (key l)).pinned a (t, l) _ (by rw [Sys.keyView_pc, hp]; rfl)
    rw [hs]
    rfl
  · have hs : (s.client a (key l)).status = .none :=
      (h.mutexes (key l)).revoking c (t, l) a p (by rw [Sys.keyView_pc, hp])
    rw [hs]
    rfl

/-! ### Mutual exclusion -/

theorem Safe.step {s s' : St Id T} {x : Act Id T} (h : Safe s) (hs : Lock.step s x = some s') :
    Safe s' := by
  obtain ⟨a, w, hm⟩ := step_move hs
  exact h.move hm

/-- Every state of every run of the protocol is safe. -/
theorem safe_of_steps {ok : St Id T → Act Id T → Prop} {s : St Id T} (h : Steps Lock.step ok {} s) :
    Safe s :=
  h.invariant safe_init fun _ _ _ hs _ hx => hs.step hx

/-- At most one thread is between `acquire` and `release`, and a client that has the lock
cached, FREE or LOCKED, is the one the server records. -/
def Exclusive (s : Sys Id T) (l : Lid) : Prop :=
  (∀ c t c' t', s.pc c t l = .holding → s.pc c' t' l = .holding → c' = c ∧ t' = t) ∧
    ∀ c, (s.client c (key l)).status = .free ∨ (s.client c (key l)).status = .locked →
      (s.server l).owner = some c

instance [Fintype Id] (s : Sys Id T) (l : Lid) : Decidable (Exclusive s l) :=
  inferInstanceAs (Decidable (_ ∧ _))

omit [DecidableEq T] [Fintype T] in
theorem Safe.exclusive {s : Sys Id T} {l : Lid} (h : Safe (s.view l)) : Exclusive s l := by
  refine ⟨fun c t c' t' hp hp' => h.holding_unique hp hp', fun c hc => ?_⟩
  have hat : (s.view l).at (.cache c) = some c := at_cache <| by
    rcases hc with hc | hc <;> exact hc ▸ rfl
  exact h.owned.owner _ c hat

/-- **Mutual exclusion**, whatever the clients and their threads do, for lock ids that
fit in a C `int`. -/
theorem mutual_exclusion {s : Sys Id T} (h : Steps Sys.step fitting {} s) {l : Lid} (hl : Fits l) :
    Exclusive s l :=
  (safe_of_steps (Sys.steps_fitting h hl)).exclusive

/-- Client `a` takes lock 5, client `b` asks for it and `a` is told, `a` gives it back and `b`
is told to ask again. -/
def handover {T : Type} (a b : Fin 3) (t : T) : List (Lid × Act (Fin 3) T) :=
  [(5, .acquire a t), (5, .serveAcquire a t), (5, .acquireReply a t), (5, .acquire b t), (5, .serveAcquire b t),
    (5, .readOwner b t), (5, .revokeHandler b t), (5, .revokeReply b t), (5, .acquireReply b t),
    (5, .release a t none), (5, .dorelease a t), (5, .serveRelease a t), (5, .retryHandler a t), (5, .retryReply a t)]

/-- Client 2 gets the lock that client 1 has given back. -/
theorem mutual_exclusion_handover :
    ∃ s : Sys (Fin 3) (Fin 1), Steps Sys.step fitting {} s ∧ s.pc 2 0 5 = .holding ∧
      ∀ c t, s.pc c t 5 = .holding → c = 2 ∧ t = 0 := by
  obtain ⟨s, hs, hp⟩ : ∃ s : Sys (Fin 3) (Fin 1), Steps Sys.step fitting {} s ∧ s.pc 2 0 5 = .holding :=
    Steps.exists_of_run (handover 1 2 0 ++
      [(5, .releaseReply 1 0 none), (5, .resume 2 0 none), (5, .serveAcquire 2 0), (5, .acquireReply 2 0)]) (by decide)
  exact ⟨s, hs, hp, fun c t => (mutual_exclusion hs (by decide)).1 2 0 c t hp⟩

/-! ### Two locks -/

/-- No two of the ids share a client's entries. -/
def Separate (ids : Lid → Prop) : Prop :=
  ∀ a b, ids a → ids b → key a = key b → a = b

/-- The moves are for locks of `ids`. -/
def among (ids : Lid → Prop) : Sys Id T → Lid × Act Id T → Prop := fun _ m => ids m.1

instance (ids : Lid → Prop) [DecidablePred ids] (s : Sys Id T) (m : Lid × Act Id T) :
    Decidable (among ids s m) :=
  inferInstanceAs (Decidable (ids m.1))

omit [DecidableEq T] [Fintype T] in
/-- Between `acquire` and `release` the lock is the client's at the server. -/
theorem Safe.granted {s : Sys Id T} {l : Lid} (h : Safe (s.view l)) {c : Id} {t : T}
    (hp : s.pc c t l = .holding) : (s.server l).lock = true ∧ (s.server l).owner = some c := by
  have hstatus : (s.client c (key l)).status = .locked := h.threads.pinned c t .locked (congrArg Pc.pins hp)
  have howner : (s.server l).owner = some c := h.exclusive.2 c (.inr hstatus)
  refine ⟨?_, howner⟩
  rw [show (s.server l).lock = (s.server l).owner.isSome from h.owned.lock, howner]
  rfl

/-- **Locks are independent** in every run whose lock ids have keys of their own: a move
for one lock changes no client's entries for another, and a thread that has acquired a
lock has it from the server. -/
theorem locks_independent {ids : Lid → Prop} (hids : Separate ids) {s : Sys Id T}
    (h : Steps Sys.step (among ids) {} s) {b : Lid} (hb : ids b) :
    (∀ m s', ids m.1 → m.1 ≠ b → s.step m = some s' → ∀ c, s'.client c (key b) = s.client c (key b)) ∧
      ∀ c t, s.pc c t b = .holding → (s.server b).lock = true ∧ (s.server b).owner = some c := by
  constructor
  · intro m s' hm hne hs c
    rcases Sys.step_view hs fun hk => hids m.1 b hm hb hk with he | ⟨he, -⟩
    · exact congrFun (congrArg St.client he) c
    · exact absurd he hne
  · intro c t hp
    have hrun : Steps Lock.step anyMove {} (s.view b) :=
      Sys.steps_view h (fun _ m hm hk => hids m.1 b hm hb hk) fun _ _ _ _ => trivial
    exact (safe_of_steps hrun).granted hp

/-- Client 1 takes lock 5 and keeps it, then takes lock 6. -/
theorem locks_independent_two :
    ∃ s : Sys (Fin 2) (Fin 1), Steps Sys.step (among fun l => l = 5 ∨ l = 6) {} s ∧
      s.pc 1 0 6 = .holding ∧ (s.server 6).owner = some 1 := by
  have hids : Separate fun l => l = 5 ∨ l = 6 := by
    intro a b ha hb
    rcases ha with rfl | rfl <;> rcases hb with rfl | rfl <;> decide
  obtain ⟨s, hs, hp⟩ : ∃ s : Sys (Fin 2) (Fin 1),
      Steps Sys.step (among fun l => l = 5 ∨ l = 6) {} s ∧ s.pc 1 0 6 = .holding :=
    Steps.exists_of_run
      [(5, .acquire 1 0), (5, .serveAcquire 1 0), (5, .acquireReply 1 0), (5, .release 1 0 none),
        (6, .acquire 1 0), (6, .serveAcquire 1 0), (6, .acquireReply 1 0)]
      (by decide)
  exact ⟨s, hs, hp, ((locks_independent hids hs (.inr rfl)).2 1 0 hp).2⟩

/-- Ids 5 and 5 + 2^32 share the entries of a client. Its release of 5 leaves the other
lock FREE there, and its `acquire` of that one returns without a word to the server. -/
theorem acquire_by_shared_key :
    ∃ s : Sys (Fin 2) (Fin 1), Steps Sys.step anyMove {} s ∧
      ∃ s', s.step (5, .release 1 0 none) = some s' ∧
        s'.client 1 (key (5 + 2 ^ 32)) ≠ s.client 1 (key (5 + 2 ^ 32)) ∧
        ∃ s'', s'.step (5 + 2 ^ 32, .acquire 1 0) = some s'' ∧ s''.pc 1 0 (5 + 2 ^ 32) = .holding ∧
          (s''.server (5 + 2 ^ 32)).lock = false ∧ (s''.server (5 + 2 ^ 32)).owner = none := by
  obtain ⟨s, hs, h⟩ : ∃ s : Sys (Fin 2) (Fin 1), Steps Sys.step anyMove {} s ∧
      (s.step (5, .release 1 0 none)).any (fun s' =>
        s'.client 1 (key (5 + 2 ^ 32)) ≠ s.client 1 (key (5 + 2 ^ 32)) ∧
        (s'.step (5 + 2 ^ 32, .acquire 1 0)).any fun s'' => s''.pc 1 0 (5 + 2 ^ 32) = .holding ∧
          (s''.server (5 + 2 ^ 32)).lock = false ∧ (s''.server (5 + 2 ^ 32)).owner = none) = true :=
    Steps.exists_of_run [(5, .acquire 1 0), (5, .serveAcquire 1 0), (5, .acquireReply 1 0)] (by decide)
  simp only [Option.any_eq_true, decide_eq_true_eq] at h
  obtain ⟨s', hs', hne, s'', hs'', hp⟩ := h
  exact ⟨s, hs, s', hs', hne, s'', hs'', hp⟩

end System

end Yfs.Lock

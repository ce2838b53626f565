import Mathlib.Data.Fintype.Prod
import Yfs.Extent.Cache
import Yfs.Lock.Pool

/-! The block caches of all clients stay coherent under the lock protocol.

`World` puts the block caches, the extent server and the lock protocol together. A
thread calls `get` and `put` on a block while it holds the lock of that number; the
flush of `dorelease` runs where the lock protocol waits for it, on both ways to give a
lock back, and its end lets the release request go. Every call on a cache runs under
`cache_map_mutex`, so a client has at most one extent RPC out (`call`).

`coherent` says that every `get` returns the block of the latest `put`, by whatever
client, given that the locks exclude each other. The reason is that a block cached at a
client means that the server records it as the owner and has no release of it to
execute: the flush erases the entry before the release request goes. -/
namespace Yfs.Extent
open Base Lock
open Function (update update_of_ne update_self)

/-- An extent RPC made with `cache_map_mutex` held: of `get` by thread `t`, or of the
flush that thread `t` of `c` is in or waits for. -/
inductive Call (Id T D : Type) where
  | get (t : T) (b : Eid) (reply : Option D)
  | put (c : Id) (t : T) (b : Eid) (buf : D) (served : Bool)

/-- What the users of the caches see: `get` returned a block, `put` stored one. -/
inductive Event (D : Type) where
  | get (b : Eid) (buf : D)
  | put (b : Eid) (buf : D)
  deriving DecidableEq

/-- The locks, the clients' block caches and the extent server's blocks. `flushed` says
that the flush of a thread in `dorelease` has returned. -/
structure World (Id T D : Type) [LinearOrder Id] where
  locks : Sys Id T := {}
  cache : Id → CacheMap D := fun _ _ => none
  call : Id → Option (Call Id T D) := fun _ => none
  flushed : Id → T → Lid → Bool := fun _ _ _ => false
  disk : Eid → D
  log : List (Event D) := []

/-- A move: of the lock protocol, or of a call on a block cache or the server's part of
it. `junk` is what memory holds where `Cache()` sets nothing. -/
inductive Op (Id T D : Type) where
  | lock (m : Lid × Lock.Act Id T)
  | get (c : Id) (t : T) (b : Eid) (junk : D)
  | serveGet (c : Id)
  | getReply (c : Id)
  | put (c : Id) (t : T) (b : Eid) (buf : D)
  | flush (c : Id) (t : T) (b : Eid) (junk : D)
  | servePut (c : Id)
  | putReply (c : Id)

section Machine
variable {Id T D : Type} [LinearOrder Id] [DecidableEq T]

/-- Thread `t` of `c` waits for an extent RPC of `get`. -/
def World.inGet (s : World Id T D) (c : Id) (t : T) : Bool :=
  match s.call c with
  | some (.get t' _ _) => decide (t' = t)
  | _ => false

/-- The thread of a lock move is not in `get`, and if it is in `dorelease` the flush has
returned. -/
def World.ready (s : World Id T D) (m : Lid × Lock.Act Id T) : Bool :=
  !s.inGet m.2.thread.1 m.2.thread.2 &&
    match (s.locks.pc m.2.thread.1 m.2.thread.2 m.1).giving m.2.thread.1 with
    | some (_, false) => s.flushed m.2.thread.1 m.2.thread.2 m.1
    | _ => true

/-- Thread `t` of `c` holds lock `b`, is in no call, and gets `cache_map_mutex`. -/
def World.mayUse (s : World Id T D) (c : Id) (t : T) (b : Eid) : Bool :=
  decide (s.locks.pc c t b = .holding) && (s.locks.inside c t).isNone && (s.call c).isNone

def World.setCache (s : World Id T D) (c : Id) (m : CacheMap D) : World Id T D :=
  {s with cache := update s.cache c m}

def World.setCall (s : World Id T D) (c : Id) (x : Option (Call Id T D)) : World Id T D :=
  {s with call := update s.call c x}

def World.setFlushed (s : World Id T D) (c : Id) (t : T) (b : Lid) (v : Bool) : World Id T D :=
  {s with flushed := fun c' t' b' => if c' = c ∧ t' = t ∧ b' = b then v else s.flushed c' t' b'}

def World.say (s : World Id T D) (e : Event D) : World Id T D := {s with log := e :: s.log}

/-- `lock_flush_cache::dorelease` of lock `b`, whose flush runs at client `a`. -/
def World.startFlush (s : World Id T D) (c : Id) (t : T) (a : Id) (b : Eid) (junk : D) : World Id T D :=
  let r := (s.cache a).flush b (.new junk false)
  match r.2 with
  | none => (s.setCache a (r.1.erase b)).setFlushed c t b true
  | some buf => (s.setCache a r.1).setCall a (some (.put c t b buf false))

/-- `extent_client_cache::get` at client `c`, up to its RPC if there is one. -/
def World.get (s : World Id T D) (c : Id) (t : T) (b : Eid) (junk : D) : World Id T D × Option D :=
  let r := (s.cache c).get b (.new junk false)
  match r.2 with
  | some buf => ((s.setCache c r.1).say (.get b buf), some buf)
  | none => ((s.setCache c r.1).setCall c (some (.get t b none)), none)

/-- `extent_client_cache::put`. -/
def World.put (s : World Id T D) (c : Id) (b : Eid) (buf : D) : World Id T D :=
  (s.setCache c ((s.cache c).put b buf)).say (.put b buf)

def step [Fintype T] (s : World Id T D) : Op Id T D → Option (World Id T D)
  | .lock m =>
    if s.ready m then
      (s.locks.step m).map fun l =>
        {s with locks := l}.setFlushed m.2.thread.1 m.2.thread.2 m.1 false
    else none
  | .get c t b junk => if s.mayUse c t b then some (s.get c t b junk).1 else none
  | .serveGet c =>
    match s.call c with
    | some (.get t b none) => some (s.setCall c (some (.get t b (some (s.disk b)))))
    | _ => none
  | .getReply c =>
    match s.call c with
    | some (.get _ b (some buf)) =>
      some (((s.setCache c ((s.cache c).fill b buf)).setCall c none).say (.get b buf))
    | _ => none
  | .put c t b buf => if s.mayUse c t b then some (s.put c b buf) else none
  | .flush c t b junk =>
    match (s.locks.pc c t b).giving c with
    | some (a, false) =>
      if s.flushed c t b = false ∧ (s.call a).isNone then some (s.startFlush c t a b junk) else none
    | _ => none
  | .servePut a =>
    match s.call a with
    | some (.put c t b buf false) =>
      some {s.setCall a (some (.put c t b buf true)) with disk := update s.disk b buf}
    | _ => none
  | .putReply a =>
    match s.call a with
    | some (.put c t b _ true) =>
      some (((s.setCache a ((s.cache a).erase b)).setCall a none).setFlushed c t b true)
    | _ => none

end Machine

/-- The block of the latest `put` of `b`, or the block the server had at first. -/
def lastPut {D : Type} (disk₀ : Eid → D) (b : Eid) : List (Event D) → D
  | [] => disk₀ b
  | .put b' buf :: rest => if b' = b then buf else lastPut disk₀ b rest
  | .get _ _ :: rest => lastPut disk₀ b rest

/-- Every `get` of `b` returned the block of the latest `put` before it. -/
def ReadsLast {D : Type} (disk₀ : Eid → D) (b : Eid) (log : List (Event D)) : Prop :=
  ∀ before buf after, log = after ++ .get b buf :: before → buf = lastPut disk₀ b before

/-! ### What the caches use of the lock protocol -/

section Locks
variable {Id T : Type} [LinearOrder Id]

/-- A release of `b` that the server has not executed is the recorded owner's, and the
only one. -/
structure Handed (s : Sys Id T) (b : Lid) : Prop where
  lock : (s.server b).lock = (s.server b).owner.isSome
  giver : ∀ c t a sent, (s.pc c t b).giving c = some (a, sent) → (s.server b).owner = some a
  single : ∀ c t a sent c' t' a' sent', (s.pc c t b).giving c = some (a, sent) →
    (s.pc c' t' b).giving c' = some (a', sent') → c' = c ∧ t' = t

theorem owner_of_caches {s : Sys Id T} {b : Lid} (hx : Exclusive s b) {a : Id}
    (h : (s.client a (key b)).status.caches = true) : (s.server b).owner = some a := by
  apply hx.2
  cases hs : (s.client a (key b)).status <;> rw [hs] at h <;> simp [Status.caches] at h ⊢

theorem owner_of_holding {s : Sys Id T} {b : Lid} (hk : Keyed s) (hx : Exclusive s b) {c : Id} {t : T}
    (h : s.pc c t b = .holding) : (s.server b).owner = some c :=
  hx.2 c (.inr (hk.holding h))

theorem not_giving_of_caches {s : Sys Id T} {b : Lid} (hk : Keyed s) {a : Id}
    (h : (s.client a (key b)).status.caches = true) (c : Id) (t : T) (sent : Bool) :
    (s.pc c t b).giving c ≠ some (a, sent) := by
  intro hg
  obtain ⟨p, hp⟩ := Pc.release_of_giving hg
  rw [hk.release hp] at h
  cases h

theorem not_giving_of_holding {s : Sys Id T} {b : Lid} (hk : Keyed s) {c : Id} {t : T}
    (h : s.pc c t b = .holding) (c' : Id) (t' : T) (sent : Bool) :
    (s.pc c' t' b).giving c' ≠ some (c, sent) :=
  not_giving_of_caches hk (by rw [hk.holding h]; rfl) c' t' sent

variable [DecidableEq T] [Fintype T]

/-- A move for another lock id does not touch the server's entries and the threads of `b`. -/
theorem step_other {s s' : Sys Id T} {m : Lid × Lock.Act Id T} {b : Lid} (h : s.step m = some s')
    (hb : m.1 ≠ b) : s'.server b = s.server b ∧ ∀ c t, s'.pc c t b = s.pc c t b := by
  unfold Sys.step at h
  rw [Option.ite_none_right_eq_some, Option.map_eq_some_iff] at h
  obtain ⟨-, v, -, rfl⟩ := h
  exact ⟨if_neg hb.symm, fun c t => if_neg hb.symm⟩

/-- What a move for `b` does to the releases the server has not executed. -/
theorem step_giving {s s' : Sys Id T} {m : Lid × Lock.Act Id T} (h : s.step m = some s') :
    (∃ a, GivingMove m.2.thread.1 a (s.server m.1) (s.client a (key m.1))
        (s.pc m.2.thread.1 m.2.thread.2 m.1) (s'.server m.1) (s'.pc m.2.thread.1 m.2.thread.2 m.1)) ∧
      Frame (fun c t => s.pc c t m.1) (fun c t => s'.pc c t m.1) m.2.thread.1 m.2.thread.2 := by
  rcases Sys.step_view h fun _ => rfl with he | ⟨-, hs⟩
  · have hserver : s'.server m.1 = s.server m.1 := congrArg St.server he
    have hpc : ∀ c t, s'.pc c t m.1 = s.pc c t m.1 := fun c t => congrFun (congrFun (congrArg St.pc he) c) t
    refine ⟨⟨m.2.thread.1, .quiet ?_ ?_ ?_⟩, fun c t _ => .inl (hpc c t)⟩
    · rw [hserver]
    · rw [hserver]
    · rw [hpc]
  · obtain ⟨a, w, hm⟩ := step_move hs
    exact ⟨⟨a, hm.what.giving⟩, hm.threads.frame⟩

theorem Handed.step {s s' : Sys Id T} {m : Lid × Lock.Act Id T} {b : Lid} (h : Handed s b)
    (hk : Keyed s) (hx : Exclusive s b) (hs : s.step m = some s') : Handed s' b := by
  by_cases hb : m.1 = b
  swap
  · obtain ⟨hv, hpc⟩ := step_other hs hb
    constructor
    · rw [hv, h.lock]
    · simpa only [hv, hpc] using h.giver
    · simpa only [hpc] using h.single
  subst hb
  obtain ⟨⟨a, hg⟩, hf⟩ := step_giving hs
  have other : ∀ c t, ¬ (c = m.2.thread.1 ∧ t = m.2.thread.2) →
      (s'.pc c t m.1).giving c = (s.pc c t m.1).giving c :=
    fun c t hne => hf.obs (Pc.giving c) (Pc.giving_wake c) hne
  cases hg with
  | quiet hl ho hq =>
    have same : ∀ c t, (s'.pc c t m.1).giving c = (s.pc c t m.1).giving c := by
      intro c t
      by_cases hne : c = m.2.thread.1 ∧ t = m.2.thread.2
      · rw [hne.1, hne.2, hq]
      · exact other c t hne
    exact ⟨by rw [hl, ho, h.lock], by simpa only [ho, same] using h.giver,
      by simpa only [same] using h.single⟩
  | start hl ho hc hq hq' =>
    have none : ∀ c t d sent, (s.pc c t m.1).giving c ≠ some (d, sent) := by
      intro c t d sent hg
      have := (h.giver c t d sent hg).symm.trans (owner_of_caches hx hc)
      cases this
      exact not_giving_of_caches hk hc c t sent hg
    have new : ∀ c t d sent, (s'.pc c t m.1).giving c = some (d, sent) →
        c = m.2.thread.1 ∧ t = m.2.thread.2 := by
      intro c t d sent hg
      by_contra hne
      exact none c t d sent (other c t hne ▸ hg)
    refine ⟨by rw [hl, ho, h.lock], fun c t d sent hg => ?_, fun c t d sent c' t' d' sent' hg hg' => ?_⟩
    · obtain ⟨rfl, rfl⟩ := new c t d sent hg
      rw [hq'] at hg
      cases hg
      rw [ho]
      exact owner_of_caches hx hc
    · rw [(new c t d sent hg).1, (new c t d sent hg).2]
      exact new c' t' d' sent' hg'
  | send d hl ho hq hq' =>
    have old : ∀ c t d' sent, (s'.pc c t m.1).giving c = some (d', sent) →
        ∃ sent, (s.pc c t m.1).giving c = some (d', sent) := by
      intro c t d' sent hg
      by_cases hne : c = m.2.thread.1 ∧ t = m.2.thread.2
      · rw [hne.1, hne.2] at hg ⊢
        rw [hq'] at hg
        cases hg
        exact ⟨_, hq⟩
      · exact ⟨sent, other c t hne ▸ hg⟩
    refine ⟨by rw [hl, ho, h.lock], fun c t d sent hg => ?_, fun c t d sent c' t' d' sent' hg hg' => ?_⟩
    · obtain ⟨sent, hg⟩ := old c t d sent hg
      rw [ho]
      exact h.giver c t d sent hg
    · obtain ⟨sent, hg⟩ := old c t d sent hg
      obtain ⟨sent', hg'⟩ := old c' t' d' sent' hg'
      exact h.single c t d sent c' t' d' sent' hg hg'
  | serve d hl ho hq hq' =>
    have none : ∀ c t d' sent, (s'.pc c t m.1).giving c ≠ some (d', sent) := by
      intro c t d' sent hg
      by_cases hne : c = m.2.thread.1 ∧ t = m.2.thread.2
      · rw [hne.1, hne.2, hq'] at hg
        cases hg
      · exact hne (h.single _ _ d true c t d' sent hq (other c t hne ▸ hg))
    exact ⟨by rw [hl, ho]; rfl, fun c t d sent hg => absurd hg (none c t d sent),
      fun c t d sent _ _ _ _ hg _ => absurd hg (none c t d sent)⟩
  | grant hl hl' ho hq hq' =>
    have none : ∀ c t d sent, (s'.pc c t m.1).giving c ≠ some (d, sent) := by
      intro c t d sent hg
      by_cases hne : c = m.2.thread.1 ∧ t = m.2.thread.2
      · rw [hne.1, hne.2, hq'] at hg
        cases hg
      · rw [h.lock, h.giver c t d sent (other c t hne ▸ hg)] at hl
        cases hl
    exact ⟨by rw [hl', ho]; rfl, fun c t d sent hg => absurd hg (none c t d sent),
      fun c t d sent _ _ _ _ hg _ => absurd hg (none c t d sent)⟩

end Locks

/-! ### The invariant -/

section Coherence
variable {Id T D : Type} [LinearOrder Id] {disk₀ : Eid → D} {b : Eid}
variable {s : World Id T D} {c a : Id} {t : T} {b' : Eid} {buf : D}

/-- A cached block is the latest, at the recorded owner, and no release request of that
client is out; without a dirty entry the server has the latest block. A `get` that waits
for the server found nothing cached, a flush that does found a dirty entry, and after a
flush there is no entry. -/
structure Coherent (disk₀ : Eid → D) (b : Eid) (s : World Id T D) : Prop where
  keyed : Keyed s.locks
  handed : Handed s.locks b
  owner : ∀ a e, s.cache a b = some e → e.isDataCached = true → (s.locks.server b).owner = some a
  unsent : ∀ a e, s.cache a b = some e → e.isDataCached = true →
    ∀ c t, (s.locks.pc c t b).giving c ≠ some (a, true)
  latest : ∀ a e, s.cache a b = some e → e.isDataCached = true → e.dataCache = lastPut disk₀ b s.log
  dirty : ∀ a e, s.cache a b = some e → e.isDataDirty = true → e.isDataCached = true
  disk : s.disk b = lastPut disk₀ b s.log ∨ ∃ a e, s.cache a b = some e ∧ e.isDataDirty = true
  getting : ∀ c t r, s.call c = some (.get t b r) → s.locks.pc c t b = .holding ∧
    (∀ e, s.cache c b = some e → e.isDataCached = false) ∧
    ∀ buf, r = some buf → buf = lastPut disk₀ b s.log
  flushing : ∀ a c t buf served, s.call a = some (.put c t b buf served) →
    (s.locks.pc c t b).giving c = some (a, false) ∧ s.cache a b = some ⟨buf, true, true⟩ ∧
      (served = true → s.disk b = buf)
  flushed : ∀ c t, s.flushed c t b = true →
    ∃ a, (s.locks.pc c t b).giving c = some (a, false) ∧ s.cache a b = none
  reads : ReadsLast disk₀ b s.log

/-- What the invariant for `b` says does not change when nothing of `b` changes. -/
theorem Coherent.congr {s' : World Id T D} (h : Coherent disk₀ b s) (hl : s'.locks = s.locks)
    (hc : ∀ a, s'.cache a b = s.cache a b)
    (hg : ∀ c t r, s'.call c = some (.get t b r) → s.call c = some (.get t b r))
    (hp : ∀ a c t buf served, s'.call a = some (.put c t b buf served) →
      s.call a = some (.put c t b buf served))
    (hf : ∀ c t, s'.flushed c t b = s.flushed c t b) (hd : s'.disk b = s.disk b)
    (hlast : lastPut disk₀ b s'.log = lastPut disk₀ b s.log) (hr : ReadsLast disk₀ b s'.log) :
    Coherent disk₀ b s' := by
  constructor
  · rw [hl]
    exact h.keyed
  · rw [hl]
    exact h.handed
  · simpa only [hl, hc] using h.owner
  · simpa only [hl, hc] using h.unsent
  · simpa only [hlast, hc] using h.latest
  · simpa only [hc] using h.dirty
  · simpa only [hd, hlast, hc] using h.disk
  · intro c t r hcall
    simpa only [hl, hc, hlast] using h.getting c t r (hg c t r hcall)
  · intro a c t buf served hcall
    simpa only [hl, hc, hd] using h.flushing a c t buf served (hp a c t buf served hcall)
  · simpa only [hl, hc, hf] using h.flushed
  · exact hr

theorem ReadsLast.cons {log : List (Event D)} {e : Event D} (h : ReadsLast disk₀ b log)
    (he : ∀ buf, e = .get b buf → buf = lastPut disk₀ b log) : ReadsLast disk₀ b (e :: log) := by
  intro before buf after heq
  rcases List.cons_eq_append_iff.mp heq with ⟨-, heq⟩ | ⟨after', -, heq⟩
  · cases heq
    exact he buf rfl
  · exact h before buf after' heq

/-- Without a cached entry anywhere, the server has the latest block. -/
theorem Coherent.disk_latest (h : Coherent disk₀ b s)
    (hn : ∀ a e, s.cache a b = some e → e.isDataCached = false) :
    s.disk b = lastPut disk₀ b s.log := by
  rcases h.disk with hd | ⟨a, e, he, hdirty⟩
  · exact hd
  · have := h.dirty a e he hdirty
    rw [hn a e he] at this
    cases this

/-- While a thread of `c` holds the lock, only `c` can have the block cached. -/
theorem Coherent.cached_at (h : Coherent disk₀ b s) (hx : Exclusive s.locks b)
    (hp : s.locks.pc c t b = .holding) {e : Cache D}
    (he : s.cache a b = some e) (hc : e.isDataCached = true) : a = c := by
  have := (h.owner a e he hc).symm.trans (owner_of_holding h.keyed hx hp)
  exact Option.some.inj this

/-- While a thread of `c` holds the lock and `c` has not the block cached, the disk has
its latest data. -/
theorem Coherent.disk_uncached (h : Coherent disk₀ b s) (hx : Exclusive s.locks b) (hp : s.locks.pc c t b = .holding)
    (hn : ∀ e, s.cache c b = some e → e.isDataCached = false) : s.disk b = lastPut disk₀ b s.log := by
  refine h.disk_latest fun a e he => Bool.eq_false_iff.mpr fun hcached => ?_
  obtain rfl := h.cached_at hx hp he hcached
  rw [hn e he] at hcached
  cases hcached

/-- While a thread holds the lock no flush is under way or done. -/
theorem Coherent.not_giving (h : Coherent disk₀ b s) (hx : Exclusive s.locks b) (hp : s.locks.pc c t b = .holding)
    (c' : Id) (t' : T) (a : Id) (sent : Bool) :
    (s.locks.pc c' t' b).giving c' ≠ some (a, sent) := by
  intro hg
  have := (h.handed.giver c' t' a sent hg).symm.trans (owner_of_holding h.keyed hx hp)
  cases this
  exact not_giving_of_holding h.keyed hp c' t' sent hg

/-! ### The parts of a move keep the invariant -/

theorem setCache_self (s : World Id T D) (c : Id) (m : CacheMap D) : (s.setCache c m).cache c = m :=
  update_self ..

theorem setCache_ne {m : CacheMap D} (h : a ≠ c) :
    (s.setCache c m).cache a = s.cache a := update_of_ne h ..

theorem setCall_self (s : World Id T D) (c : Id) (x : Option (Call Id T D)) :
    (s.setCall c x).call c = x := update_self ..

theorem setCall_ne {x : Option (Call Id T D)} (h : a ≠ c) :
    (s.setCall c x).call a = s.call a := update_of_ne h ..

theorem Coherent.setCache_same (h : Coherent disk₀ b s) {m : CacheMap D}
    (hm : m b = s.cache c b) : Coherent disk₀ b (s.setCache c m) := by
  refine h.congr rfl (fun a => ?_) (fun _ _ _ hg => hg) (fun _ _ _ _ _ hp => hp) (fun _ _ => rfl)
    rfl rfl h.reads
  by_cases ha : a = c
  · rw [ha, setCache_self, hm]
  · rw [setCache_ne ha]

/-- Replacing the entry of `c`. -/
theorem Coherent.setCache (h : Coherent disk₀ b s) {m : CacheMap D}
    (hcached : ∀ e, m b = some e → e.isDataCached = true → (s.locks.server b).owner = some c ∧
      (∀ c' t', (s.locks.pc c' t' b).giving c' ≠ some (c, true)) ∧
      e.dataCache = lastPut disk₀ b s.log)
    (hdirty : ∀ e, m b = some e → e.isDataDirty = true → e.isDataCached = true)
    (hdisk : s.disk b = lastPut disk₀ b s.log ∨ ∃ e, m b = some e ∧ e.isDataDirty = true)
    (hget : ∀ t r, s.call c = some (.get t b r) → ∀ e, m b = some e → e.isDataCached = false)
    (hput : ∀ c' t' buf served, s.call c ≠ some (.put c' t' b buf served))
    (hflushed : ∀ c' t', (s.locks.pc c' t' b).giving c' = some (c, false) → m b = none) :
    Coherent disk₀ b (s.setCache c m) := by
  have cases : ∀ a e, (s.setCache c m).cache a b = some e →
      a = c ∧ m b = some e ∨ a ≠ c ∧ s.cache a b = some e := by
    intro a e he
    by_cases ha : a = c
    · subst ha
      rw [setCache_self] at he
      exact .inl ⟨rfl, he⟩
    · rw [setCache_ne ha] at he
      exact .inr ⟨ha, he⟩
  refine ⟨h.keyed, h.handed, fun a e he hc => ?_, fun a e he hc => ?_, fun a e he hc => ?_,
    fun a e he hd => ?_, ?_, fun c' t r hg => ?_, fun a c' t buf served hp => ?_, fun c' t hf => ?_,
    h.reads⟩
  · rcases cases a e he with ⟨rfl, hm⟩ | ⟨-, he⟩
    · exact (hcached e hm hc).1
    · exact h.owner a e he hc
  · rcases cases a e he with ⟨rfl, hm⟩ | ⟨-, he⟩
    · exact (hcached e hm hc).2.1
    · exact h.unsent a e he hc
  · rcases cases a e he with ⟨rfl, hm⟩ | ⟨-, he⟩
    · exact (hcached e hm hc).2.2
    · exact h.latest a e he hc
  · rcases cases a e he with ⟨rfl, hm⟩ | ⟨-, he⟩
    · exact hdirty e hm hd
    · exact h.dirty a e he hd
  · rcases hdisk with hd | ⟨e, he, hd⟩
    · exact .inl hd
    · exact .inr ⟨c, e, by rw [setCache_self, he], hd⟩
  · obtain ⟨hp, hn, hr⟩ := h.getting c' t r hg
    refine ⟨hp, fun e he => ?_, hr⟩
    rcases cases c' e he with ⟨rfl, hm⟩ | ⟨-, he⟩
    · exact hget t r hg e hm
    · exact hn e he
  · obtain ⟨hg, he, hd⟩ := h.flushing a c' t buf served hp
    have ha : a ≠ c := by
      rintro rfl
      exact hput c' t buf served hp
    exact ⟨hg, by rw [setCache_ne ha, he], hd⟩
  · obtain ⟨a, hg, he⟩ := h.flushed c' t hf
    refine ⟨a, hg, ?_⟩
    by_cases ha : a = c
    · subst ha
      rw [setCache_self]
      exact hflushed c' t hg
    · rw [setCache_ne ha, he]

/-- An extent RPC that is not about `b`, or none. -/
theorem Coherent.setCall_other (h : Coherent disk₀ b s)
    {x : Option (Call Id T D)} (hg : ∀ t r, x ≠ some (.get t b r))
    (hp : ∀ c' t buf served, x ≠ some (.put c' t b buf served)) : Coherent disk₀ b (s.setCall c x) := by
  refine h.congr rfl (fun _ => rfl) (fun c' t r hcall => ?_) (fun a c' t buf served hcall => ?_)
    (fun _ _ => rfl) rfl rfl h.reads
  · by_cases hc : c' = c
    · subst hc
      rw [setCall_self] at hcall
      exact absurd hcall (hg t r)
    · rwa [setCall_ne hc] at hcall
  · by_cases hc : a = c
    · subst hc
      rw [setCall_self] at hcall
      exact absurd hcall (hp c' t buf served)
    · rwa [setCall_ne hc] at hcall

theorem Coherent.setCall_get (h : Coherent disk₀ b s) {r : Option D}
    (hp : s.locks.pc c t b = .holding) (hn : ∀ e, s.cache c b = some e → e.isDataCached = false)
    (hr : ∀ buf, r = some buf → buf = lastPut disk₀ b s.log) :
    Coherent disk₀ b (s.setCall c (some (.get t b r))) := by
  refine {h with getting := fun c' t' r' hcall => ?_, flushing := fun a c' t' buf served hcall => ?_}
  · by_cases hc : c' = c
    · subst hc
      rw [setCall_self] at hcall
      cases hcall
      exact ⟨hp, hn, hr⟩
    · rw [setCall_ne hc] at hcall
      exact h.getting c' t' r' hcall
  · by_cases hc : a = c
    · subst hc
      rw [setCall_self] at hcall
      cases hcall
    · rw [setCall_ne hc] at hcall
      exact h.flushing a c' t' buf served hcall

theorem Coherent.setCall_put (h : Coherent disk₀ b s)
    {served : Bool} (hg : (s.locks.pc c t b).giving c = some (a, false))
    (he : s.cache a b = some ⟨buf, true, true⟩) (hd : served = true → s.disk b = buf) :
    Coherent disk₀ b (s.setCall a (some (.put c t b buf served))) := by
  refine {h with getting := fun c' t' r' hcall => ?_, flushing := fun a' c' t' buf' served' hcall => ?_}
  · by_cases hc : c' = a
    · subst hc
      rw [setCall_self] at hcall
      cases hcall
    · rw [setCall_ne hc] at hcall
      exact h.getting c' t' r' hcall
  · by_cases hc : a' = a
    · subst hc
      rw [setCall_self] at hcall
      cases hcall
      exact ⟨hg, he, hd⟩
    · rw [setCall_ne hc] at hcall
      exact h.flushing a' c' t' buf' served' hcall

theorem Coherent.say_get (h : Coherent disk₀ b s)
    (hb : b' = b → buf = lastPut disk₀ b s.log) : Coherent disk₀ b (s.say (.get b' buf)) :=
  h.congr rfl (fun _ => rfl) (fun _ _ _ hg => hg) (fun _ _ _ _ _ hp => hp) (fun _ _ => rfl) rfl rfl
    (h.reads.cons fun _ he => by cases he; exact hb rfl)

theorem Coherent.say_put_other (h : Coherent disk₀ b s)
    (hb : b' ≠ b) : Coherent disk₀ b (s.say (.put b' buf)) :=
  h.congr rfl (fun _ => rfl) (fun _ _ _ hg => hg) (fun _ _ _ _ _ hp => hp) (fun _ _ => rfl) rfl
    (if_neg hb) (h.reads.cons nofun)

section Flags
variable [DecidableEq T]

theorem of_setFlushed_false {c' : Id} {t' : T} {b b' : Lid}
    (h : (s.setFlushed c t b false).flushed c' t' b' = true) :
    ¬ (c' = c ∧ t' = t ∧ b' = b) ∧ s.flushed c' t' b' = true := by
  unfold World.setFlushed at h
  dsimp only at h
  split at h
  · cases h
  · exact ⟨‹_›, h⟩

theorem Coherent.setFlushed (h : Coherent disk₀ b s) {b' : Lid}
    {v : Bool} (hv : b' = b → v = true →
      ∃ a, (s.locks.pc c t b).giving c = some (a, false) ∧ s.cache a b = none) :
    Coherent disk₀ b (s.setFlushed c t b' v) := by
  refine {h with flushed := fun c' t' hf => ?_}
  unfold World.setFlushed at hf
  dsimp only at hf
  split at hf
  · rename_i he
    obtain ⟨rfl, rfl, rfl⟩ := he
    exact hv rfl hf
  · exact h.flushed c' t' hf

end Flags

/-! ### Every move keeps the invariant -/

section Moves

theorem mayUse_iff {b : Eid} :
    s.mayUse c t b = true ↔
      s.locks.pc c t b = .holding ∧ s.locks.inside c t = none ∧ s.call c = none := by
  simp [World.mayUse, and_assoc]

/-- An entry found without a cached block, or a new one, has nothing to write back. -/
theorem Coherent.entry_clean (h : Coherent disk₀ b s) {junk : D}
    (hc : ((s.cache a).entry b (.new junk false)).isDataCached = false) :
    ((s.cache a).entry b (.new junk false)).isDataDirty = false ∧
      ∀ e, s.cache a b = some e → e.isDataCached = false := by
  unfold CacheMap.entry at hc ⊢
  cases he : s.cache a b with
  | none => exact ⟨rfl, nofun⟩
  | some e =>
    rw [he] at hc
    refine ⟨?_, fun e' he' => by cases he'; exact hc⟩
    by_contra hd
    have := h.dirty a e he (by simpa using hd)
    rw [show e.isDataCached = false from hc] at this
    cases this

/-- `get` that finds the block. -/
theorem Coherent.get_hit (h : Coherent disk₀ b s) {junk : D}
    (hr : ((s.cache c).get b' (.new junk false)).2 = some buf) :
    Coherent disk₀ b ((s.setCache c ((s.cache c).get b' (.new junk false)).1).say (.get b' buf)) := by
  obtain ⟨hc, hbuf⟩ := Option.ite_none_right_eq_some.mp hr
  by_cases hb : b' = b
  swap
  · exact (h.setCache_same (CacheMap.set_ne (Ne.symm hb))).say_get fun he => absurd he hb
  subst hb
  obtain ⟨e, he⟩ : ∃ e, s.cache c b' = some e := by
    cases he : s.cache c b' with
    | none =>
      rw [CacheMap.entry, he] at hc
      cases hc
    | some e => exact ⟨e, rfl⟩
  have hm : ((s.cache c).get b' (.new junk false)).1 b' = s.cache c b' := by
    simp [CacheMap.get, CacheMap.entry, he]
  refine (h.setCache_same hm).say_get fun _ => ?_
  rw [CacheMap.entry, he] at hc hbuf
  exact (Option.some.inj hbuf).symm.trans (h.latest c e he hc)

/-- `get` that does not. -/
theorem Coherent.get_miss (h : Coherent disk₀ b s) (hx : Exclusive s.locks b) {junk : D}
    (hp : s.locks.pc c t b' = .holding) (hcall : s.call c = none)
    (hr : ((s.cache c).get b' (.new junk false)).2 = none) :
    Coherent disk₀ b ((s.setCache c ((s.cache c).get b' (.new junk false)).1).setCall c
      (some (.get t b' none))) := by
  by_cases hb : b' = b
  swap
  · refine (h.setCache_same (CacheMap.set_ne (Ne.symm hb))).setCall_other (fun _ _ he => ?_) nofun
    cases he
    exact hb rfl
  subst hb
  have hc : ((s.cache c).entry b' (.new junk false)).isDataCached = false := by
    simpa [CacheMap.get] using hr
  obtain ⟨hclean, hn⟩ := h.entry_clean hc
  have hm : ((s.cache c).get b' (.new junk false)).1 b' =
      some ((s.cache c).entry b' (.new junk false)) := CacheMap.set_self ..
  have step : Coherent disk₀ b' (s.setCache c ((s.cache c).get b' (.new junk false)).1) := by
    refine h.setCache (fun e he hcached => ?_) (fun e he hd => ?_) (.inl (h.disk_uncached hx hp hn))
      (fun _ _ hg => by rw [hcall] at hg; cases hg) (fun _ _ _ _ hg => by rw [hcall] at hg; cases hg)
      (fun c' t' hg => absurd hg (h.not_giving hx hp c' t' c false))
    · rw [hm] at he
      cases he
      rw [hc] at hcached
      cases hcached
    · rw [hm] at he
      cases he
      rw [hclean] at hd
      cases hd
  refine step.setCall_get hp (fun e he => ?_) nofun
  rw [setCache_self, hm] at he
  cases he
  exact hc

/-- The server's block comes back to `get`. -/
theorem Coherent.fill (h : Coherent disk₀ b s) (hx : Exclusive s.locks b)
    (hcall : s.call c = some (.get t b' (some buf))) :
    Coherent disk₀ b (((s.setCache c ((s.cache c).fill b' buf)).setCall c none).say (.get b' buf)) := by
  have h' : Coherent disk₀ b (s.setCall c none) := h.setCall_other nofun nofun
  show Coherent disk₀ b (((s.setCall c none).setCache c ((s.cache c).fill b' buf)).say (.get b' buf))
  by_cases hb : b' = b
  swap
  · exact (h'.setCache_same (CacheMap.set_ne (Ne.symm hb))).say_get fun he => absurd he hb
  subst hb
  obtain ⟨hp, hn, hlast⟩ := h.getting c t _ hcall
  have hbuf : buf = lastPut disk₀ b' s.log := hlast buf rfl
  have hm : (s.cache c).fill b' buf b' = some ⟨buf, true, false⟩ := CacheMap.set_self ..
  refine (h'.setCache (fun e he _ => ?_) (fun e he _ => ?_) (.inl (h.disk_uncached hx hp hn))
    (fun t r hg => ?_) (fun _ _ _ _ hg => ?_)
    (fun c' t' hg => absurd hg (h.not_giving hx hp c' t' c false))).say_get fun _ => hbuf
  · rw [hm] at he
    cases he
    exact ⟨owner_of_holding h.keyed hx hp, fun c' t' => h.not_giving hx hp c' t' c true, hbuf⟩
  · rw [hm] at he
    cases he
    rfl
  · rw [setCall_self] at hg
    cases hg
  · rw [setCall_self] at hg
    cases hg

theorem Coherent.put (h : Coherent disk₀ b s) (hx : Exclusive s.locks b) (hp : s.locks.pc c t b' = .holding)
    (hcall : s.call c = none) :
    Coherent disk₀ b ((s.setCache c ((s.cache c).put b' buf)).say (.put b' buf)) := by
  by_cases hb : b' = b
  swap
  · exact (h.setCache_same (CacheMap.set_ne (Ne.symm hb))).say_put_other hb
  subst hb
  have hm : (s.cache c).put b' buf b' = some ⟨buf, true, true⟩ := CacheMap.set_self ..
  have hlast : lastPut disk₀ b' (.put b' buf :: s.log) = buf := if_pos rfl
  have here : ∀ a e, (s.setCache c ((s.cache c).put b' buf)).cache a b' = some e →
      e.isDataCached = true → a = c ∧ e = ⟨buf, true, true⟩ := by
    intro a e he hcached
    by_cases ha : a = c
    · subst ha
      rw [setCache_self, hm] at he
      cases he
      exact ⟨rfl, rfl⟩
    · rw [setCache_ne ha] at he
      exact absurd (h.cached_at hx hp he hcached) ha
  refine ⟨h.keyed, h.handed, fun a e he hc => ?_, fun a e he hc => ?_, fun a e he hc => ?_,
    fun a e he hd => ?_, .inr ⟨c, ⟨buf, true, true⟩, ?_, rfl⟩, fun c' t' r hg => ?_, fun a c' t' buf served hg => ?_,
    fun c' t' hf => ?_, h.reads.cons nofun⟩
  · rw [(here a e he hc).1]
    exact owner_of_holding h.keyed hx hp
  · exact fun c' t' => h.not_giving hx hp c' t' a true
  · rw [(here a e he hc).2]
    exact hlast.symm
  · by_cases ha : a = c
    · subst ha
      rw [World.say, setCache_self, hm] at he
      cases he
      rfl
    · rw [World.say, setCache_ne ha] at he
      exact h.dirty a e he hd
  · rw [World.say, setCache_self, hm]
  · have hp' := (h.getting c' t' r hg).1
    obtain rfl := (hx.1 c t c' t' hp hp').1
    rw [show s.call c' = _ from hg] at hcall
    cases hcall
  · exact absurd (h.flushing a c' t' buf served hg).1 (h.not_giving hx hp c' t' a false)
  · obtain ⟨a, hg, -⟩ := h.flushed c' t' hf
    exact absurd hg (h.not_giving hx hp c' t' a false)

/-- The server answers `get`. -/
theorem Coherent.serveGet (h : Coherent disk₀ b s) (hx : Exclusive s.locks b)
    (hcall : s.call c = some (.get t b' none)) :
    Coherent disk₀ b (s.setCall c (some (.get t b' (some (s.disk b'))))) := by
  by_cases hb : b' = b
  swap
  · refine h.setCall_other (fun _ _ he => ?_) nofun
    cases he
    exact hb rfl
  subst hb
  obtain ⟨hp, hn, -⟩ := h.getting c t _ hcall
  refine h.setCall_get hp hn fun buf he => ?_
  cases he
  exact h.disk_uncached hx hp hn

/-- The only dirty entry is that of the client that gives the lock back. -/
theorem Coherent.disk_of_clean (h : Coherent disk₀ b s) {sent : Bool}
    (hg : (s.locks.pc c t b).giving c = some (a, sent))
    (hn : ∀ e, s.cache a b = some e → e.isDataDirty = false) : s.disk b = lastPut disk₀ b s.log := by
  rcases h.disk with hd | ⟨a', e, he, hdirty⟩
  · exact hd
  · have ho := h.owner a' e he (h.dirty a' e he hdirty)
    rw [h.handed.giver c t a sent hg] at ho
    cases ho
    rw [hn e he] at hdirty
    cases hdirty

/-- The entry of `b` is erased at the client whose flush is under way. -/
theorem Coherent.erase (h : Coherent disk₀ b s) {m : CacheMap D}
    (hm : m b = none) (hdisk : s.disk b = lastPut disk₀ b s.log)
    (hput : ∀ c t buf served, s.call a ≠ some (.put c t b buf served)) :
    Coherent disk₀ b (s.setCache a m) :=
  h.setCache (fun e he => by rw [hm] at he; cases he) (fun e he => by rw [hm] at he; cases he)
    (.inl hdisk) (fun _ _ _ e he => by rw [hm] at he; cases he) hput fun _ _ _ => hm

variable [DecidableEq T]

theorem Coherent.startFlush (h : Coherent disk₀ b s)
    {junk : D} (hg : (s.locks.pc c t b').giving c = some (a, false)) (hcall : s.call a = none) :
    Coherent disk₀ b (s.startFlush c t a b' junk) := by
  unfold World.startFlush
  dsimp only
  by_cases hb : b' = b
  swap
  · split
    · refine (h.setCache_same ?_).setFlushed fun he => absurd he hb
      rw [CacheMap.erase, CacheMap.set_ne (Ne.symm hb)]
      exact CacheMap.set_ne (Ne.symm hb)
    · refine (h.setCache_same (CacheMap.set_ne (Ne.symm hb))).setCall_other nofun fun _ _ _ _ he => ?_
      cases he
      exact hb rfl
  subst hb
  split
  · rename_i hr
    have hclean : ∀ e, s.cache a b' = some e → e.isDataDirty = false := by
      intro e he
      simpa [CacheMap.flush, CacheMap.entry, he] using hr
    have hm : ((s.cache a).flush b' (.new junk false)).1.erase b' b' = none := CacheMap.set_self ..
    refine (h.erase hm (h.disk_of_clean hg hclean) fun _ _ _ _ hp => ?_).setFlushed fun _ _ => ?_
    · rw [hcall] at hp
      cases hp
    · exact ⟨a, hg, by rw [setCache_self, hm]⟩
  · rename_i buf hr
    obtain ⟨hdirty, hbuf⟩ := Option.ite_none_right_eq_some.mp hr
    cases he : s.cache a b' with
    | none =>
      rw [CacheMap.entry, he] at hdirty
      cases hdirty
    | some e =>
      have hm : ((s.cache a).flush b' (.new junk false)).1 b' = s.cache a b' := by
        simp [CacheMap.flush, CacheMap.entry, he]
      rw [CacheMap.entry, he] at hdirty hbuf
      have hcached := h.dirty a e he hdirty
      refine (h.setCache_same hm).setCall_put hg ?_ nofun
      obtain ⟨data, isCached, isDirty⟩ := e
      cases hdirty
      cases hcached
      cases hbuf
      rw [setCache_self, hm, he]
      rfl

omit [DecidableEq T] in
theorem Coherent.servePut (h : Coherent disk₀ b s) (hcall : s.call a = some (.put c t b' buf false)) :
    Coherent disk₀ b {s.setCall a (some (.put c t b' buf true)) with
      disk := update s.disk b' buf} := by
  by_cases hb : b' = b
  swap
  · have h' : Coherent disk₀ b (s.setCall a (some (.put c t b' buf true))) := by
      refine h.setCall_other nofun fun _ _ _ _ he => ?_
      cases he
      exact hb rfl
    exact h'.congr rfl (fun _ => rfl) (fun _ _ _ hg => hg) (fun _ _ _ _ _ hp => hp) (fun _ _ => rfl)
      (update_of_ne (Ne.symm hb) ..) rfl h.reads
  subst hb
  obtain ⟨hg, he, -⟩ := h.flushing a c t buf false hcall
  have hlast : buf = lastPut disk₀ b' s.log := h.latest a _ he rfl
  have hd : update s.disk b' buf b' = buf := update_self ..
  refine {h with
    disk := .inl (hd.trans hlast)
    getting := fun c' t' r hg' => ?_
    flushing := fun a' c' t' buf' served' hp' => ?_}
  · by_cases hc : c' = a
    · subst hc
      rw [setCall_self] at hg'
      cases hg'
    · rw [setCall_ne hc] at hg'
      exact h.getting c' t' r hg'
  · by_cases hc : a' = a
    · subst hc
      rw [setCall_self] at hp'
      cases hp'
      exact ⟨hg, he, fun _ => hd⟩
    · rw [setCall_ne hc] at hp'
      obtain ⟨hg', -, -⟩ := h.flushing a' c' t' buf' served' hp'
      have ho := h.handed.giver c' t' a' false hg'
      rw [h.handed.giver c t a false hg] at ho
      exact absurd (Option.some.inj ho).symm hc

theorem Coherent.putReply (h : Coherent disk₀ b s) (hcall : s.call a = some (.put c t b' buf true)) :
    Coherent disk₀ b
      (((s.setCache a ((s.cache a).erase b')).setCall a none).setFlushed c t b' true) := by
  have h' : Coherent disk₀ b (s.setCall a none) := h.setCall_other nofun nofun
  show Coherent disk₀ b (((s.setCall a none).setCache a ((s.cache a).erase b')).setFlushed c t b' true)
  by_cases hb : b' = b
  swap
  · exact (h'.setCache_same (CacheMap.set_ne (Ne.symm hb))).setFlushed fun he => absurd he hb
  subst hb
  obtain ⟨hg, he, hd⟩ := h.flushing a c t buf true hcall
  have hm : (s.cache a).erase b' b' = none := CacheMap.set_self ..
  have hdisk : s.disk b' = lastPut disk₀ b' s.log := (hd rfl).trans (h.latest a _ he rfl)
  refine (h'.erase hm hdisk fun _ _ _ _ hp => ?_).setFlushed fun _ _ => ?_
  · rw [setCall_self] at hp
    cases hp
  · exact ⟨a, hg, by rw [setCache_self, hm]⟩

theorem ready_flushed {m : Lid × Lock.Act Id T} (h : s.ready m = true) {d : Id}
    (hd : (s.locks.pc m.2.thread.1 m.2.thread.2 m.1).giving m.2.thread.1 = some (d, false)) :
    s.flushed m.2.thread.1 m.2.thread.2 m.1 = true := by
  unfold World.ready at h
  rw [hd] at h
  exact (Bool.and_eq_true_iff.mp h).2

theorem ready_not_inGet {m : Lid × Lock.Act Id T} (h : s.ready m = true) {b : Eid}
    {r : Option D} : s.call m.2.thread.1 ≠ some (.get m.2.thread.2 b r) := by
  intro hcall
  have := (Bool.and_eq_true_iff.mp h).1
  simp [World.inGet, hcall] at this

variable [Fintype T]

/-- A lock move: an entry survives it only with the client that stays the owner, and the
release request goes only after the flush. -/
theorem Coherent.lock {l : Sys Id T} {m : Lid × Lock.Act Id T}
    (h : Coherent disk₀ b s) (hx : Exclusive s.locks b) (hready : s.ready m = true)
    (hs : s.locks.step m = some l) :
    Coherent disk₀ b ({s with locks := l}.setFlushed m.2.thread.1 m.2.thread.2 m.1 false) := by
  have keyed := h.keyed.step hs
  have handed := h.handed.step h.keyed hx hs
  by_cases hb : m.1 = b
  swap
  · obtain ⟨hv, hpc⟩ := step_other hs hb
    have h' : Coherent disk₀ b {s with locks := l} := by
      refine {h with
        keyed := keyed
        handed := handed
        owner := ?_
        unsent := ?_
        getting := ?_
        flushing := ?_
        flushed := ?_}
      · simpa only [hv] using h.owner
      · simpa only [hpc] using h.unsent
      · simpa only [hpc] using h.getting
      · simpa only [hpc] using h.flushing
      · simpa only [hpc] using h.flushed
    exact h'.setFlushed nofun
  subst hb
  obtain ⟨⟨a, hg⟩, hf⟩ := step_giving hs
  have other : ∀ c t, ¬ (c = m.2.thread.1 ∧ t = m.2.thread.2) →
      (l.pc c t m.1).giving c = (s.locks.pc c t m.1).giving c :=
    fun c t hne => hf.obs (Pc.giving c) (Pc.giving_wake c) hne
  have flushedFirst : ∀ d, (s.locks.pc m.2.thread.1 m.2.thread.2 m.1).giving m.2.thread.1 =
      some (d, false) → s.cache d m.1 = none := by
    intro d hd
    obtain ⟨a, ha, hnone⟩ := h.flushed _ _ (ready_flushed hready hd)
    rw [hd] at ha
    cases ha
    exact hnone
  have kept : ∀ a' e, s.cache a' m.1 = some e → e.isDataCached = true →
      (l.server m.1).owner = some a' ∧ ∀ c t, (l.pc c t m.1).giving c ≠ some (a', true) := by
    intro a' e he hc
    have ho := h.owner a' e he hc
    have hu := h.unsent a' e he hc
    have unsent : (l.pc m.2.thread.1 m.2.thread.2 m.1).giving m.2.thread.1 ≠ some (a', true) →
        ∀ c t, (l.pc c t m.1).giving c ≠ some (a', true) := by
      intro hq c t
      by_cases hne : c = m.2.thread.1 ∧ t = m.2.thread.2
      · rw [hne.1, hne.2]
        exact hq
      · rw [other c t hne]
        exact hu c t
    cases hg with
    | quiet hl ho' hq => exact ⟨ho'.trans ho, unsent (by rw [hq]; exact hu _ _)⟩
    | start hl ho' _ _ hq' => exact ⟨ho'.trans ho, unsent (by rw [hq']; simp)⟩
    | send d hl ho' hq hq' =>
      refine ⟨ho'.trans ho, unsent ?_⟩
      rw [hq']
      rintro heq
      cases heq
      rw [flushedFirst a' hq] at he
      cases he
    | serve d _ _ hq _ =>
      have := h.handed.giver _ _ d true hq
      rw [ho] at this
      cases this
      exact absurd hq (hu _ _)
    | grant hl _ _ _ _ =>
      rw [h.handed.lock, ho] at hl
      cases hl
  refine {h with
    keyed := keyed
    handed := handed
    owner := fun a' e he hc => (kept a' e he hc).1
    unsent := fun a' e he hc => (kept a' e he hc).2
    getting := fun c t r hcall => ?_
    flushing := fun a' c t buf served hcall => ?_
    flushed := fun c t hflag => ?_}
  · obtain ⟨hp, hn, hr⟩ := h.getting c t r hcall
    refine ⟨?_, hn, hr⟩
    have hne : ¬ (c = m.2.thread.1 ∧ t = m.2.thread.2) := by
      rintro ⟨rfl, rfl⟩
      exact ready_not_inGet hready hcall
    exact (hf.still hne Pc.wake_eq_holding).mpr hp
  · obtain ⟨hq, he, hd⟩ := h.flushing a' c t buf served hcall
    refine ⟨?_, he, hd⟩
    have hne : ¬ (c = m.2.thread.1 ∧ t = m.2.thread.2) := by
      rintro ⟨rfl, rfl⟩
      rw [flushedFirst a' hq] at he
      cases he
    exact (other c t hne).trans hq
  · obtain ⟨hne, hflag⟩ := of_setFlushed_false hflag
    obtain ⟨a', hq, he⟩ := h.flushed c t hflag
    exact ⟨a', (other c t fun he => hne ⟨he.1, he.2, rfl⟩).trans hq, he⟩

/-- **Every move keeps the caches coherent**, made where lock `b` excludes. -/
theorem Coherent.step {s' : World Id T D} {x : Op Id T D} (h : Coherent disk₀ b s)
    (hx : Exclusive s.locks b) (hs : step s x = some s') : Coherent disk₀ b s' := by
  cases x with
  | lock m =>
    simp only [Extent.step] at hs
    split at hs
    · rename_i hready
      rw [Option.map_eq_some_iff] at hs
      obtain ⟨l, hl, rfl⟩ := hs
      exact h.lock hx hready hl
    · cases hs
  | get c t b' junk =>
    simp only [Extent.step] at hs
    split at hs
    · rename_i hmay
      obtain ⟨hp, -, hcall⟩ := mayUse_iff.mp hmay
      cases hs
      unfold World.get
      dsimp only
      split
      · rename_i buf hr
        exact h.get_hit hr
      · rename_i hr
        exact h.get_miss hx hp hcall hr
    · cases hs
  | serveGet c =>
    simp only [Extent.step] at hs
    split at hs
    · rename_i t b' hcall
      cases hs
      exact h.serveGet hx hcall
    · cases hs
  | getReply c =>
    simp only [Extent.step] at hs
    split at hs
    · rename_i t b' buf hcall
      cases hs
      exact h.fill hx hcall
    · cases hs
  | put c t b' buf =>
    simp only [Extent.step] at hs
    split at hs
    · rename_i hmay
      obtain ⟨hp, -, hcall⟩ := mayUse_iff.mp hmay
      cases hs
      exact h.put hx hp hcall
    · cases hs
  | flush c t b' junk =>
    simp only [Extent.step] at hs
    split at hs
    · rename_i a hg
      split at hs
      · rename_i hcond
        cases hs
        exact h.startFlush hg (Option.isNone_iff_eq_none.mp hcond.2)
      · cases hs
    · cases hs
  | servePut a =>
    simp only [Extent.step] at hs
    split at hs
    · rename_i c t b' buf hcall
      cases hs
      exact h.servePut hcall
    · cases hs
  | putReply a =>
    simp only [Extent.step] at hs
    split at hs
    · rename_i c t b' buf hcall
      cases hs
      exact h.putReply hcall
    · cases hs

omit [DecidableEq T] [Fintype T] in
theorem coherent_init (disk₀ : Eid → D) (b : Eid) :
    Coherent disk₀ b ({disk := disk₀} : World Id T D) where
  keyed := keyed_init
  handed := ⟨rfl, nofun, nofun⟩
  owner := nofun
  unsent := nofun
  latest := nofun
  dirty := nofun
  disk := .inl rfl
  getting := nofun
  flushing := nofun
  flushed := nofun
  reads := fun before buf after h => by simp at h

/-- Lock `b` excludes where the move is made. -/
def excluding (b : Lid) : World Id T D → Op Id T D → Prop := fun s _ => Exclusive s.locks b

instance [Fintype Id] (b : Lid) (s : World Id T D) (x : Op Id T D) : Decidable (excluding b s x) :=
  inferInstanceAs (Decidable (Exclusive s.locks b))

/-- **Cache coherence.** Where lock `b` excludes, every `get` of block `b` returned the
block of the latest `put` before it by any client, or the block the server had at first. -/
theorem coherent {s : World Id T D} (h : Steps step (excluding b) {disk := disk₀} s) :
    ReadsLast disk₀ b s.log :=
  (h.invariant (coherent_init disk₀ b) fun _ _ _ hc hx hs => hc.step hx hs).reads

/-- Client 1 puts 42 in block 7, client 2 asks for lock 7, client 1 flushes and gives the
lock back, client 2 gets the lock and reads 42 from the server. -/
theorem coherent_handover :
    ∃ s : World (Fin 3) (Fin 1) Nat, Steps step (excluding 7) {disk := fun _ => 0} s ∧
      s.log = [.get 7 42, .put 7 42] ∧ ReadsLast (fun _ => 0) 7 s.log := by
  obtain ⟨s, hs, hlog⟩ : ∃ s : World (Fin 3) (Fin 1) Nat,
      Steps step (excluding 7) {disk := fun _ => 0} s ∧ s.log = [.get 7 42, .put 7 42] :=
    Steps.exists_of_run
      [.lock (7, .acquire 1 0), .lock (7, .serveAcquire 1 0), .lock (7, .acquireReply 1 0), .put 1 0 7 42,
        .lock (7, .acquire 2 0), .lock (7, .serveAcquire 2 0), .lock (7, .readOwner 2 0),
        .lock (7, .revokeHandler 2 0), .lock (7, .revokeReply 2 0), .lock (7, .acquireReply 2 0),
        .lock (7, .release 1 0 none), .flush 1 0 7 9, .servePut 1, .putReply 1, .lock (7, .dorelease 1 0),
        .lock (7, .serveRelease 1 0), .lock (7, .retryHandler 1 0), .lock (7, .retryReply 1 0),
        .lock (7, .releaseReply 1 0 none), .lock (7, .resume 2 0 none), .lock (7, .serveAcquire 2 0),
        .lock (7, .acquireReply 2 0), .get 2 0 7 9, .serveGet 2, .getReply 2]
      (by decide +kernel)
  exact ⟨s, hs, hlog, coherent hs⟩

theorem step_locks {s' : World Id T D} {x : Op Id T D} (hs : step s x = some s') :
    s'.locks = s.locks ∨ ∃ m, x = .lock m ∧ s.locks.step m = some s'.locks := by
  cases x with
  | lock m =>
    simp only [Extent.step] at hs
    split at hs
    · rw [Option.map_eq_some_iff] at hs
      obtain ⟨l, hl, rfl⟩ := hs
      exact .inr ⟨m, rfl, hl⟩
    · cases hs
  | get c t b junk =>
    simp only [Extent.step] at hs
    split at hs
    · cases hs
      unfold World.get
      dsimp only
      split <;> exact .inl rfl
    · cases hs
  | flush c t b junk =>
    simp only [Extent.step] at hs
    split at hs
    · split at hs
      · cases hs
        unfold World.startFlush
        dsimp only
        split <;> exact .inl rfl
      · cases hs
    · cases hs
  | _ =>
    simp only [Extent.step] at hs
    split at hs <;> cases hs
    exact .inl rfl

end Moves

end Coherence

end Yfs.Extent

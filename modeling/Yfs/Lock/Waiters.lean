import Yfs.Lock.Agreement
import Yfs.Lock.Wakeups

/-! No waiter is forgotten, unless the owner waits for itself.

The server tells at most two waiters to retry when the lock is released and leaves the
rest to those two: whoever of them asks next finds the lock taken, becomes the one that
asks for it back, and the next release tells the next two. The chain holds as long as
those who are told still want the lock. A waiter stays in the set until it is granted
the lock, and it wants the lock until then, with one exception: a client that owns the
lock and is entered as a waiter all the same (`owner == id` in `acquire`). It takes up
one of the two places, and nobody is left to ask for the others (`waiter_forgotten`).

`Waiters` is what holds in the runs in which the server never executes an acquire of
the client it records as the owner. -/
namespace Yfs.Lock
open Base

variable {Id T : Type} {c a : Id} {k k' k₀ : ClientLock} {q q' : Pc Id} {w : Wakes}

/-! ### Who will ask again -/

/-- The clients a release handler has still to tell to retry. -/
def RelPhase.calls : RelPhase Id → List Id
  | .retry cnt w rest => w :: rest.take cnt
  | .retryReply cnt rest => rest.take cnt
  | _ => []

def Pc.calls (c : Id) (q : Pc Id) : List Id :=
  match q.release? c with
  | some (_, p) => p.calls
  | none => []

theorem retryLoop_calls (cnt : Nat) (l : List Id) : (retryLoop cnt l).calls = l.take cnt := by
  cases l with
  | nil => simp [retryLoop, RelPhase.calls]
  | cons w rest =>
    cases cnt with
    | zero => rfl
    | succ cnt => simp [retryLoop, RelPhase.calls]

theorem Pc.calls_wake (c : Id) (q : Pc Id) : q.wake.calls c = q.calls c := by
  cases q <;> rfl

theorem Pc.calls_release {b : Id} {p : RelPhase Id} (h : q.release? c = some (b, p)) :
    q.calls c = p.calls := by
  rw [Pc.calls, h]

theorem Entry.calls (h : Entry k q k₀) (c : Id) : q.calls c = [] := by
  cases h with
  | call hq | woken hq | reply _ hq => rw [hq]; rfl

theorem Entry.retried (h : Entry k q k₀) : k₀.retried = k.retried := by
  cases h with
  | call _ hk => rw [hk]
  | woken _ hk => rw [hk]
  | reply r _ hk =>
    rw [hk, granted]
    split <;> rfl

theorem Entry.revoked (h : Entry k q k₀) : k₀.revoked = k.revoked := by
  cases h with
  | call _ hk => rw [hk]
  | woken _ hk => rw [hk]
  | reply r _ hk =>
    rw [hk, granted]
    split <;> rfl

theorem Exit.calls (h : Exit k q k₀) (c : Id) : q.calls c = [] := by
  cases h with
  | call hq | woken hq => rw [hq]; rfl

theorem Exit.retried (h : Exit k q k₀) : k₀.retried = k.retried := by
  cases h with
  | call _ hk => rw [hk]
  | woken _ hk => rw [hk]

theorem Exit.revoked (h : Exit k q k₀) : k₀.revoked = k.revoked := by
  cases h with
  | call _ hk => rw [hk]
  | woken _ hk => rw [hk]

variable [LinearOrder Id] {v v' : ServerLock Id}

/-- A retried flag stays until it is used to ask again. -/
theorem Local.retried (h : Local c a v k q w v' k' q') (hr : k.retried = true) :
    k'.retried = true ∨ a = c ∧ q' = .acqRpc .request := by
  cases h with
  | send k₀ ha _ _ _ _ _ _ hq => exact .inr ⟨ha, hq⟩
  | take _ _ he | block _ _ he | giveBack _ _ he | keep _ _ he | relBlock _ _ he =>
    subst_vars
    exact .inl (he.retried.trans hr)
  | grant | already | join | demand | readOwner | revokeFree | revokeNote | revokeReply | flushed
  | flushedRevoke | serveRelease | retryReply | released | revoked | wake => subst_vars; exact .inl hr
  | retryHandler _ _ _ _ _ _ _ hk _ => subst hk; exact .inl rfl

/-- A client that is to be told is still to be told, or has its flag set. -/
theorem Local.calls {x : Id}
    (h : Local c a v k q w v' k' q') (hx : x ∈ q.calls c) :
    x ∈ q'.calls c ∨ x = a ∧ k'.retried = true := by
  cases h with
  | send _ _ he | take _ _ he | block _ _ he | giveBack _ _ he | keep _ _ he | relBlock _ _ he =>
    rw [he.calls] at hx; cases hx
  | grant | already | join | demand | readOwner | revokeFree | revokeNote | revokeReply | flushed
  | flushedRevoke | released | revoked => subst_vars; cases hx
  | serveRelease b p hr _ _ _ _ _ _ => rw [Pc.calls_release hr] at hx; cases hx
  | retryHandler b cnt rest hr _ _ _ hk hq =>
    subst hk hq
    rw [Pc.calls_release hr] at hx
    rcases List.mem_cons.mp hx with rfl | hx
    · exact .inr ⟨rfl, rfl⟩
    · exact .inl (by rwa [Pc.calls_release (Pc.release?_setRelease hr)])
  | retryReply b cnt rest p hr hp _ _ _ hq =>
    subst hq hp
    rw [Pc.calls_release hr] at hx
    exact .inl (by rwa [Pc.calls_release (Pc.release?_setRelease hr), retryLoop_calls])
  | wake _ _ _ _ hq => subst hq; exact .inl (by rwa [Pc.calls_wake])

/-- Client `x` will ask again: its request is on the way, it has been told to retry, or a
release handler is about to tell it. -/
def Active (s : St Id T) (x : Id) : Prop :=
  (∃ t, s.pc x t = .acqRpc .request) ∨ (s.client x).retried = true ∨ ∃ c t, x ∈ (s.pc c t).calls c

/-- Who will ask again does so after a move, unless the move is the server's answer. -/
theorem Active.move {s s' : St Id T} {x : Id} {t : T} (h : Active s x)
    (hm : Move s s' c t a w) (hx : ¬ (x = c ∧ s.pc c t = .acqRpc .request)) : Active s' x := by
  rcases h with ⟨t', hp⟩ | hr | ⟨c', t', hc⟩
  · have hne : ¬ (x = c ∧ t' = t) := by
      rintro ⟨rfl, rfl⟩
      exact hx ⟨rfl, hp⟩
    exact .inl ⟨t', (hm.threads.frame.still hne (Pc.wake_eq_acqRpc _)).mpr hp⟩
  · by_cases hxa : x = a
    · subst hxa
      rcases hm.what.retried hr with hr | ⟨rfl, hq⟩
      · exact .inr (.inl hr)
      · exact .inl ⟨t, hq⟩
    · exact .inr (.inl (by rwa [hm.clients x hxa]))
  · by_cases hne : c' = c ∧ t' = t
    · obtain ⟨rfl, rfl⟩ := hne
      rcases hm.what.calls hc with hc | ⟨rfl, hr⟩
      · exact .inr (.inr ⟨c', t', hc⟩)
      · exact .inr (.inl hr)
    · have he := hm.threads.frame.obs (Pc.calls c') (Pc.calls_wake c') hne
      exact .inr (.inr ⟨c', t', he ▸ hc⟩)

/-! ### The server's record -/

inductive ServerMove (c : Id) (v : ServerLock Id) (q : Pc Id) (v' : ServerLock Id) (q' : Pc Id) : Prop where
  | quiet : q ≠ .acqRpc .request → v'.lock = v.lock → v'.owner = v.owner → v'.waiters = v.waiters →
      v'.revoked = v.revoked → ServerMove c v q v' q'
  | grant : q = .acqRpc .request → v.lock = false → v'.lock = true → v'.owner = some c →
      v'.waiters = v.waiters.erase c → v'.revoked = false → ServerMove c v q v' q'
  | already : q = .acqRpc .request → v.owner = some c → ServerMove c v q v' q'
  | wait : q = .acqRpc .request → v.owner ≠ some c → v'.lock = true → v'.owner = v.owner →
      v'.waiters = v.waiters.insert c → v'.revoked = true → q'.role = .calling →
      v.revoked = true ∨ q' = .acqRpc .readOwner → ServerMove c v q v' q'
  | release (b : Id) : q.release? c = some (b, .request) → v'.lock = false → v'.owner = none →
      v'.waiters = v.waiters → v'.revoked = false → q'.calls c = v.waiters.elems.take 2 →
      ServerMove c v q v' q'

theorem ServerMove.same (hq : q ≠ .acqRpc .request)
    (hv : v' = v) : ServerMove c v q v' q' := by
  subst hv
  exact .quiet hq rfl rfl rfl rfl

omit [LinearOrder Id] in
theorem Entry.ne_request (h : Entry k q k₀) : q ≠ .acqRpc .request := by
  cases h with
  | call hq | woken hq | reply _ hq => rw [hq]; exact nofun

omit [LinearOrder Id] in
theorem Exit.ne_request (h : Exit k q k₀) : q ≠ .acqRpc .request := by
  cases h with
  | call hq | woken hq => rw [hq]; exact nofun

omit [LinearOrder Id] in
theorem Pc.ne_request_of_release {b : Id} {p : RelPhase Id}
    (h : q.release? c = some (b, p)) : q ≠ .acqRpc .request := by
  rintro rfl
  cases h

theorem Local.server (h : Local c a v k q w v' k' q') : ServerMove c v q v' q' := by
  cases h with
  | send _ _ he _ _ _ hv | take _ _ he _ _ _ hv | block _ _ he _ _ _ hv | giveBack _ _ he _ _ _ _ hv
  | keep _ _ he _ _ _ _ hv | relBlock _ _ he _ _ _ hv => exact .same he.ne_request hv
  | grant hq _ hl _ hv _ _ => subst hv; exact .grant hq hl rfl rfl rfl rfl
  | already hq _ _ ho _ _ _ _ => exact .already hq ho
  | join hq _ hl ho hr _ hv _ hq' =>
    subst hv hq'
    exact .wait hq ho hl rfl rfl hr rfl (.inl hr)
  | demand hq _ hl ho _ _ hv _ hq' =>
    subst hv hq'
    exact .wait hq ho hl rfl rfl rfl rfl (.inr rfl)
  | readOwner | revokeFree | revokeNote | revokeReply | flushed | flushedRevoke | released | revoked =>
    subst_vars
    exact .same nofun rfl
  | serveRelease b p hr _ hp _ hv _ hq' =>
    subst hv hq' hp
    refine .release b hr rfl rfl rfl rfl ?_
    rw [Pc.calls_release (Pc.release?_setRelease hr), retryLoop_calls]
  | retryHandler b cnt rest hr _ _ hv _ _ => exact .same (Pc.ne_request_of_release hr) hv
  | retryReply b cnt rest p hr _ _ hv _ _ =>
    subst hv
    exact .quiet (Pc.ne_request_of_release hr) rfl rfl rfl rfl
  | wake hb _ hv _ _ =>
    refine .same ?_ hv
    rintro rfl
    cases hb

/-! ### The owner has been asked -/

/-- How far the server's asking for the lock has got in a thread's stack: the owner is
about to be read, the revoke is on its way, the release it caused is on its way. -/
inductive Stage (Id : Type) where
  | reading
  | asking (dst : Id)
  | giving (dst : Id)

def Pc.stage (c : Id) : Pc Id → Option (Stage Id)
  | .acqRpc .readOwner => some .reading
  | .acqRpc (.revoke dst) => some (.asking dst)
  | .acqRpc (.revoking dst p) => if p.unserved then some (.giving dst) else none
  | .relRpc p => if p.unserved then some (.giving c) else none
  | _ => none

omit [LinearOrder Id] in
theorem Pc.stage_wake (c : Id) (q : Pc Id) : q.wake.stage c = q.stage c := by
  cases q <;> rfl

omit [LinearOrder Id] in
theorem Pc.stage_release {b : Id} {p : RelPhase Id} (h : q.release? c = some (b, p)) :
    q.stage c = if p.unserved then some (.giving b) else none := by
  rcases Pc.release?_eq_some.mp h with ⟨rfl, rfl⟩ | rfl <;> rfl

omit [LinearOrder Id] in
theorem Entry.stage (h : Entry k q k₀) (c : Id) : q.stage c = none := by
  cases h with
  | call hq | woken hq | reply _ hq => rw [hq]; rfl

omit [LinearOrder Id] in
theorem Exit.stage (h : Exit k q k₀) (c : Id) : q.stage c = none := by
  cases h with
  | call hq | woken hq => rw [hq]; rfl

/-- What becomes of a stage: the owner is read, the revoke arrives, the release is executed. -/
def Stage.next (c a : Id) (v v' : ServerLock Id) (k' : ClientLock) (q' : Pc Id) : Stage Id → Prop
  | .reading => ∃ dst, v.owner = some dst ∧ q'.stage c = some (.asking dst)
  | .asking dst => dst = a ∧ (k'.revoked = true ∨ q'.stage c = some (.giving dst))
  | .giving dst => v'.owner = none ∨ q'.stage c = some (.giving dst)

theorem Local.stage (h : Local c a v k q w v' k' q') {x : Stage Id} (hx : q.stage c = some x) :
    x.next c a v v' k' q' ∨ q'.stage c = some x := by
  cases h with
  | send _ _ he | take _ _ he | block _ _ he | giveBack _ _ he | keep _ _ he | relBlock _ _ he =>
    rw [he.stage] at hx; cases hx
  | grant | already | join | demand | revokeReply | released | revoked => subst_vars; cases hx
  | readOwner dst hq ho _ _ _ hq' =>
    subst hq hq'
    cases hx
    exact .inl ⟨dst, ho, rfl⟩
  | revokeFree hq _ _ _ _ _ hq' =>
    subst hq hq'
    cases hx
    exact .inl ⟨rfl, .inr rfl⟩
  | revokeNote hq _ _ _ _ hk _ =>
    subst hq hk
    cases hx
    exact .inl ⟨rfl, .inl rfl⟩
  | flushed | flushedRevoke => subst_vars; exact .inr hx
  | serveRelease b p hr _ _ _ hv _ _ =>
    subst hv
    rw [Pc.stage_release hr] at hx
    cases hx
    exact .inl (.inl rfl)
  | retryHandler _ _ _ hr | retryReply _ _ _ _ hr => rw [Pc.stage_release hr] at hx; cases hx
  | wake _ _ _ _ hq => subst hq; exact .inr (by rwa [Pc.stage_wake])

/-- A revoked flag stays until the client gives the lock back. -/
theorem Local.revokedFlag (h : Local c a v k q w v' k' q') (hr : k.revoked = true) :
    k'.revoked = true ∨ q'.stage c = some (.giving a) := by
  cases h with
  | send _ _ he | take _ _ he | block _ _ he | keep _ _ he | relBlock _ _ he =>
    subst_vars
    exact .inl (he.revoked.trans hr)
  | giveBack k₀ ha _ _ _ _ _ _ _ hq => subst ha hq; exact .inr rfl
  | grant | already | join | demand | readOwner | revokeFree | revokeReply | flushed | flushedRevoke
  | serveRelease | retryHandler | retryReply | released | revoked | wake => subst_vars; exact .inl hr
  | revokeNote _ _ _ _ _ hk _ => subst hk; exact .inl rfl

/-- The server's asking for the lock is under way: somebody is about to read the owner, or
the owner is being asked, has its flag set, or is giving the lock back. -/
def Demand (s : St Id T) : Prop :=
  (∃ c t, (s.pc c t).stage c = some .reading) ∨
    ∃ b, s.server.owner = some b ∧ ((s.client b).revoked = true ∨
      ∃ c t, (s.pc c t).stage c = some (.asking b) ∨ (s.pc c t).stage c = some (.giving b))

theorem Demand.move {s s' : St Id T} {t : T} (h : Demand s)
    (hm : Move s s' c t a w) (ho : s'.server.owner = s.server.owner) : Demand s' := by
  have other : ∀ c' t', ¬ (c' = c ∧ t' = t) → (s'.pc c' t').stage c' = (s.pc c' t').stage c' :=
    fun c' t' hne => hm.threads.frame.obs (Pc.stage c') (Pc.stage_wake c') hne
  rcases h with ⟨c', t', hx⟩ | ⟨b, hb, hr | ⟨c', t', hx⟩⟩
  · by_cases hne : c' = c ∧ t' = t
    · obtain ⟨rfl, rfl⟩ := hne
      rcases hm.what.stage hx with ⟨dst, hdst, hx⟩ | hx
      · exact .inr ⟨dst, ho.trans hdst, .inr ⟨c', t', .inl hx⟩⟩
      · exact .inl ⟨c', t', hx⟩
    · exact .inl ⟨c', t', (other c' t' hne).trans hx⟩
  · refine .inr ⟨b, ho.trans hb, ?_⟩
    by_cases hba : b = a
    · subst hba
      rcases hm.what.revokedFlag hr with hr | hx
      · exact .inl hr
      · exact .inr ⟨c, t, .inr hx⟩
    · exact .inl (by rwa [hm.clients b hba])
  · refine .inr ⟨b, ho.trans hb, ?_⟩
    by_cases hne : c' = c ∧ t' = t
    · obtain ⟨rfl, rfl⟩ := hne
      rcases hx with hx | hx
      · rcases hm.what.stage hx with ⟨rfl, hr | hx⟩ | hx
        · exact .inl hr
        · exact .inr ⟨c', t', .inr hx⟩
        · exact .inr ⟨c', t', .inl hx⟩
      · rcases hm.what.stage hx with (hn | hx) | hx
        · rw [ho, hb] at hn
          cases hn
        · exact .inr ⟨c', t', .inr hx⟩
        · exact .inr ⟨c', t', .inr hx⟩
    · exact .inr ⟨c', t', by rwa [other c' t' hne]⟩

/-! ### Waiters that are not the owner -/

/-- A thread leaves `acquire` only with the lock. -/
theorem Local.asks (h : Local c a v k q w v' k' q') (hw : q.inRelWait = false) (hq : q.role.asks = true) :
    q'.role.asks = true ∨ a = c ∧ k'.status = .locked := by
  cases h with
  | send | block | relBlock | grant | already | join | demand | readOwner | revokeFree | revokeNote
  | revokeReply | flushedRevoke | revoked => subst_vars; exact .inl rfl
  | take k₀ ha _ _ _ _ _ hk _ => subst hk; exact .inr ⟨ha, rfl⟩
  | giveBack k₀ _ he _ _ _ _ _ _ _ =>
    obtain ⟨rfl, -⟩ := he.call_of_not_wait hw
    cases hq
  | keep k₀ _ he _ _ _ _ _ _ _ =>
    obtain ⟨rfl, -⟩ := he.call_of_not_wait hw
    cases hq
  | flushed | released => subst_vars; cases hq
  | serveRelease | retryHandler | retryReply => subst_vars; exact .inl (by rwa [Pc.role_setRelease])
  | wake _ _ _ _ hq' => subst hq'; exact .inl (by rwa [Pc.role_wake, Role.asks_wake])

theorem Local.acquiring (h : Local c a v k q w v' k' q') (hs' : k'.status = .acquiring) :
    k.status = .acquiring ∨ a = c ∧ q' = .acqRpc .request := by
  cases h with
  | send k₀ ha _ _ _ _ _ _ hq => exact .inr ⟨ha, hq⟩
  | take | giveBack | keep | revokeFree | released => subst_vars; cases hs'
  | block k₀ _ he _ _ _ _ hk _ =>
    subst hk
    rcases he.status with h | ⟨-, -, h⟩
    · exact .inl (h.symm.trans hs')
    · cases h.symm.trans hs'
  | relBlock k₀ _ he _ _ _ _ hk _ => subst hk; exact .inl (he.status.symm.trans hs')
  | grant | already | join | demand | readOwner | revokeNote | revokeReply | flushed | flushedRevoke
  | serveRelease | retryHandler | retryReply | revoked | wake => subst_vars; exact .inl hs'

/-- While a release of `b` is under way `b` is not ACQUIRING. -/
theorem Safe.release_status {s : St Id T} (h : Safe s) {b : Id} {t : T} {p : RelPhase Id}
    (hp : (s.pc c t).release? c = some (b, p)) : (s.client b).status ≠ .acquiring := by
  rcases Pc.release?_eq_some.mp hp with ⟨hq, rfl⟩ | hq
  · rw [h.threads.pinned b t .releasing (by rw [hq]; rfl)]
    exact nofun
  · rw [h.mutexes.revoking c t b p hq]
    exact nofun

/-- A release that the server has not executed is the owner's. -/
theorem Safe.release_owner {s : St Id T} (h : Safe s) {b : Id} {t : T}
    (hp : (s.pc c t).release? c = some (b, .request)) : s.server.owner = some b :=
  h.owned.owner (.rpc c t) b (Pc.token_release hp)

/-- Two of the waiters will ask again, or this one will. -/
def Followed (s : St Id T) (x : Id) : Prop :=
  Active s x ∨ ∃ y z, y ≠ z ∧ y ∈ s.server.waiters ∧ z ∈ s.server.waiters ∧ Active s y ∧ Active s z

/-- What the waiter set is worth while the owner is not in it. -/
structure Waiters (s : St Id T) : Prop where
  notOwner : ∀ b, s.server.owner = some b → b ∉ s.server.waiters
  asks : ∀ x ∈ s.server.waiters, ∃ t, (s.pc x t).role.asks = true
  listed : ∀ x, (s.client x).status = .acquiring →
    (∃ t, s.pc x t = .acqRpc .request) ∨ x ∈ s.server.waiters ∨ s.server.owner = some x
  demand : s.server.revoked = true → Demand s
  free : s.server.lock = false → ∀ x ∈ s.server.waiters, Followed s x
  held : s.server.lock = true → s.server.revoked = false → ∀ x ∈ s.server.waiters,
    ∃ y ∈ s.server.waiters, Active s y

theorem waiters_init : Waiters ({} : St Id T) where
  notOwner := nofun
  asks _ h := absurd h (OrderedSet.not_mem_empty _)
  listed := nofun
  demand := nofun
  free _ _ h := absurd h (OrderedSet.not_mem_empty _)
  held := nofun

omit [LinearOrder Id] in
/-- Of a list without repetition, every element is among the first two or two others are. -/
theorem mem_take_two {l : List Id} (hl : l.Nodup) {x : Id} (hx : x ∈ l) :
    x ∈ l.take 2 ∨ ∃ y z, y ≠ z ∧ y ∈ l.take 2 ∧ z ∈ l.take 2 := by
  match l, hl, hx with
  | [y], _, hx => exact .inl hx
  | y :: z :: rest, hl, _ =>
    refine .inr ⟨y, z, ?_, by simp, by simp⟩
    rintro rfl
    simp at hl

section Move
variable {s s' : St Id T} {c a : Id} {t : T} {w : Wakes}

theorem Move.asks (hm : Move s s' c t a w) (hs : Safe s) {x : Id}
    (h : ∃ t, (s.pc x t).role.asks = true) :
    (∃ t, (s'.pc x t).role.asks = true) ∨ s'.server.owner = some x := by
  obtain ⟨t', hq⟩ := h
  by_cases hne : x = c ∧ t' = t
  · obtain ⟨rfl, rfl⟩ := hne
    rcases hm.what.asks (hs.threads.noWait x t') hq with hq | ⟨rfl, hk⟩
    · exact .inl ⟨t', hq⟩
    · exact .inr ((hs.move hm).owned.owner (.cache a) a (at_cache (by rw [hk]; rfl)))
  · refine .inl ⟨t', ?_⟩
    have he := hm.threads.frame.obs (fun p => p.role.asks)
      (fun p => by rw [Pc.role_wake, Role.asks_wake]) hne
    exact he.trans hq

/-- ACQUIRING after a move: it was before, or the request has just been sent. -/
theorem Move.acquiring (hm : Move s s' c t a w) {x : Id} (h : (s'.client x).status = .acquiring) :
    (s.client x).status = .acquiring ∨ s'.pc x t = .acqRpc .request := by
  by_cases hx : x = a
  · subst hx
    rcases hm.what.acquiring h with h | ⟨rfl, hq⟩
    · exact .inl h
    · exact .inr hq
  · exact .inl (by rwa [hm.clients x hx] at h)

/-- A request that has not been executed is still on its way, unless the move executes it. -/
theorem Move.request (hm : Move s s' c t a w) {x : Id} (h : ∃ t, s.pc x t = .acqRpc .request) :
    (∃ t, s'.pc x t = .acqRpc .request) ∨ x = c ∧ s.pc c t = .acqRpc .request := by
  obtain ⟨t', hp⟩ := h
  by_cases hne : x = c ∧ t' = t
  · obtain ⟨rfl, rfl⟩ := hne
    exact .inr ⟨rfl, hp⟩
  · exact .inl ⟨t', (hm.threads.frame.still hne (Pc.wake_eq_acqRpc _)).mpr hp⟩

/-- **A move keeps the waiters in order**, if it is not the execution of an acquire of the
recorded owner. -/
theorem Waiters.move (h : Waiters s) (hs : Safe s) (hm : Move s s' c t a w)
    (hf : s.pc c t = .acqRpc .request → s.server.owner ≠ some c) : Waiters s' := by
  cases hm.what.server with
  | quiet hq hl ho hw hr =>
    have active : ∀ x, Active s x → Active s' x := fun x hx => hx.move hm fun he => hq he.2
    constructor
    · rw [ho, hw]
      exact h.notOwner
    · intro x hx
      rw [hw] at hx
      rcases hm.asks hs (h.asks x hx) with ha | ho'
      · exact ha
      · exact absurd hx (h.notOwner x (ho ▸ ho'))
    · intro x hx
      rw [ho, hw]
      rcases hm.acquiring hx with hx | hp
      · rcases h.listed x hx with hreq | hx
        · exact .inl ((hm.request hreq).resolve_right fun he => hq he.2)
        · exact .inr hx
      · exact .inl ⟨t, hp⟩
    · intro hd
      exact (h.demand (hr ▸ hd)).move hm ho
    · intro hfree x hx
      unfold Followed
      rw [hw] at hx ⊢
      rcases h.free (hl ▸ hfree) x hx with hx | ⟨y, z, hne, hy, hz, hay, haz⟩
      · exact .inl (active x hx)
      · exact .inr ⟨y, z, hne, hy, hz, active y hay, active z haz⟩
    · intro hheld hnot x hx
      rw [hw] at hx ⊢
      obtain ⟨y, hy, hay⟩ := h.held (hl ▸ hheld) (hr ▸ hnot) x hx
      exact ⟨y, hy, active y hay⟩
  | grant hq hl hl' ho hw hr =>
    have active : ∀ x, x ≠ c → Active s x → Active s' x :=
      fun x hne hx => hx.move hm fun he => hne he.1
    have hnone : s.server.owner = none := by
      have := hs.owned.lock
      rwa [hl, eq_comm, Option.isSome_eq_false_iff, Option.isNone_iff_eq_none] at this
    constructor
    · intro b hb
      rw [ho] at hb
      rw [hw, ← Option.some.inj hb]
      simp
    · intro x hx
      rw [hw, OrderedSet.mem_erase] at hx
      rcases hm.asks hs (h.asks x hx.2) with ha | ho'
      · exact ha
      · exact absurd (Option.some.inj (ho'.symm.trans ho)) hx.1
    · intro x hx
      rw [ho, hw]
      by_cases hxc : x = c
      · exact .inr (.inr (by rw [hxc]))
      rcases hm.acquiring hx with hx | hp
      · rcases h.listed x hx with hreq | hx | hx
        · exact .inl ((hm.request hreq).resolve_right fun he => hxc he.1)
        · exact .inr (.inl (OrderedSet.mem_erase.mpr ⟨hxc, hx⟩))
        · rw [hnone] at hx
          cases hx
      · exact .inl ⟨t, hp⟩
    · intro hd
      rw [hr] at hd
      cases hd
    · intro hfree
      rw [hl'] at hfree
      cases hfree
    · intro _ _ x hx
      rw [hw] at hx ⊢
      obtain ⟨hxc, hx⟩ := OrderedSet.mem_erase.mp hx
      have pick : ∀ y, y ≠ c → y ∈ s.server.waiters → Active s y →
          ∃ y ∈ s.server.waiters.erase c, Active s' y :=
        fun y hne hy hay => ⟨y, OrderedSet.mem_erase.mpr ⟨hne, hy⟩, active y hne hay⟩
      rcases h.free hl x hx with hax | ⟨y, z, hne, hy, hz, hay, haz⟩
      · exact pick x hxc hx hax
      · by_cases hyc : y = c
        · exact pick z (fun hzc => hne (hyc.trans hzc.symm)) hz haz
        · exact pick y hyc hy hay
  | already hq ho => exact absurd ho (hf hq)
  | wait hq ho hl' ho' hw hr' hrole hd =>
    constructor
    · intro b hb
      rw [ho'] at hb
      rw [hw, OrderedSet.mem_insert]
      rintro (rfl | hbw)
      · exact ho hb
      · exact h.notOwner b hb hbw
    · intro x hx
      rw [hw, OrderedSet.mem_insert] at hx
      rcases hx with rfl | hx
      · exact ⟨t, by rw [hrole]; rfl⟩
      · rcases hm.asks hs (h.asks x hx) with ha | hox
        · exact ha
        · exact absurd hx (h.notOwner x (ho' ▸ hox))
    · intro x hx
      rw [ho', hw]
      rcases hm.acquiring hx with hx | hp
      · rcases h.listed x hx with hreq | hx | hx
        · rcases hm.request hreq with hreq | ⟨rfl, -⟩
          · exact .inl hreq
          · exact .inr (.inl (OrderedSet.mem_insert.mpr (.inl rfl)))
        · exact .inr (.inl (OrderedSet.mem_insert.mpr (.inr hx)))
        · exact .inr (.inr hx)
      · exact .inl ⟨t, hp⟩
    · intro _
      rcases hd with hd | hq'
      · exact (h.demand hd).move hm ho'
      · exact .inl ⟨c, t, by rw [hq']; rfl⟩
    · intro hfree
      rw [hl'] at hfree
      cases hfree
    · intro _ hnot
      rw [hr'] at hnot
      cases hnot
  | release b hb hl' ho' hw hr' hcalls =>
    have hq : s.pc c t ≠ .acqRpc .request := Pc.ne_request_of_release hb
    constructor
    · intro b' hb'
      rw [ho'] at hb'
      cases hb'
    · intro x hx
      rw [hw] at hx
      rcases hm.asks hs (h.asks x hx) with ha | hox
      · exact ha
      · rw [ho'] at hox
        cases hox
    · intro x hx
      rw [hw]
      rcases hm.acquiring hx with hx | hp
      · rcases h.listed x hx with hreq | hxw | hxo
        · exact .inl ((hm.request hreq).resolve_right fun he => hq he.2)
        · exact .inr (.inl hxw)
        · have hbx : b = x := Option.some.inj ((hs.release_owner hb).symm.trans hxo)
          exact absurd hx (hbx ▸ hs.release_status hb)
      · exact .inl ⟨t, hp⟩
    · intro hd
      rw [hr'] at hd
      cases hd
    · intro _ x hx
      unfold Followed
      rw [hw] at hx ⊢
      have active : ∀ y ∈ s.server.waiters.elems.take 2, Active s' y :=
        fun y hy => .inr (.inr ⟨c, t, hcalls ▸ hy⟩)
      have mem : ∀ y ∈ s.server.waiters.elems.take 2, y ∈ s.server.waiters :=
        fun y hy => List.mem_of_mem_take hy
      rcases mem_take_two s.server.waiters.increasing.nodup hx with hx | ⟨y, z, hne, hy, hz⟩
      · exact .inl (active x hx)
      · exact .inr ⟨y, z, hne, mem y hy, mem z hz, active y hy, active z hz⟩
    · intro hheld
      rw [hl'] at hheld
      cases hheld

end Move

/-! ### A state at rest -/

/-- No message is in flight, every thread that was woken has run, and nobody holds the
lock. -/
def AtRest (s : St Id T) : Prop := ∀ c t, (s.pc c t).role = .outside ∨ (s.pc c t).role = .waiting false

/-- The lock is free at the server, or cached FREE by the client the server records. -/
def Available (s : St Id T) : Prop :=
  s.server.lock = false ∨ ∃ b, s.server.owner = some b ∧ (s.client b).status = .free

instance [Fintype Id] [Fintype T] (s : St Id T) : Decidable (AtRest s) :=
  inferInstanceAs (Decidable (∀ _ _, _ ∨ _))

instance [Fintype Id] (s : St Id T) : Decidable (Available s) := inferInstanceAs (Decidable (_ ∨ _))

omit [LinearOrder Id] in
theorem Pc.role_of_locks {b : Id} (h : q.locks c = some b) :
    q.role = .calling ∨ q.role = .releasing := by
  unfold Pc.locks at h
  split at h
  · exact .inr rfl
  · exact .inl rfl
  · cases h

omit [LinearOrder Id] in
theorem Pc.role_of_calls {x : Id} (h : x ∈ q.calls c) :
    q.role = .calling ∨ q.role = .releasing := by
  unfold Pc.calls at h
  split at h
  · rename_i hr
    rcases Pc.release?_eq_some.mp hr with ⟨rfl, -⟩ | rfl
    · exact .inr rfl
    · exact .inl rfl
  · cases h

omit [LinearOrder Id] in
theorem Pc.role_of_stage {x : Stage Id} (h : q.stage c = some x) :
    q.role = .calling ∨ q.role = .releasing := by
  cases q with
  | acqRpc p => exact .inl rfl
  | relRpc p => exact .inr rfl
  | _ => cases h

section Rest
variable {s : St Id T}

theorem AtRest.not_busy (h : AtRest s) {t : T} :
    ¬ ((s.pc c t).role = .calling ∨ (s.pc c t).role = .releasing) := by
  rintro (hp | hp) <;> rcases h c t with h | h <;> cases hp.symm.trans h

theorem AtRest.mutex (h : AtRest s) (hs : Safe s) (b : Id) : (s.client b).mutex = false := by
  by_contra hm
  obtain ⟨c, t, hp⟩ := hs.mutexes.holder b (Bool.eq_true_of_not_eq_false hm)
  exact h.not_busy (Pc.role_of_locks hp)

theorem AtRest.not_woken (h : AtRest s) {t : T} : s.roles c t ≠ .waiting true := by
  intro hp
  rcases h c t with h | h <;> cases hp.symm.trans h

/-- At rest, a client with a thread inside `acquire` waits for the server. -/
theorem AtRest.acquiring [Fintype T] (h : AtRest s) (hs : Safe s) (ha : AllAwake s) {x : Id}
    (hx : ∃ t, (s.pc x t).role.asks = true) :
    (s.client x).status = .acquiring ∧ (s.client x).retried = false := by
  obtain ⟨t, hq⟩ := hx
  have hblocked : s.roles x t = .waiting false := by
    rcases h x t with hr | hr
    · rw [hr] at hq
      cases hq
    · exact hr
  have awake : ∀ {P : Prop}, (∃ t, s.roles x t = .waiting true) → P := by
    rintro P ⟨t', ht'⟩
    exact absurd ht' h.not_woken
  cases hst : (s.client x).status with
  | none => exact awake ((ha x).ready (.inl hst) (h.mutex hs x) ⟨t, hblocked⟩)
  | free => exact awake ((ha x).ready (.inr hst) (h.mutex hs x) ⟨t, hblocked⟩)
  | locked =>
    obtain ⟨t', ht'⟩ := (ha x).locked hst
    rcases h x t' with hr | hr <;> cases ht'.symm.trans hr
  | releasing =>
    obtain ⟨t', ht'⟩ := (ha x).releasing hst
    exact absurd (.inr ht') h.not_busy
  | acquiring =>
    refine ⟨rfl, ?_⟩
    by_contra hr
    obtain ⟨t', ht'⟩ := (ha x).retried hst (Bool.eq_true_of_not_eq_false hr)
    unfold St.roles at ht'
    rcases h x t' with hr | hr <;> rw [hr] at ht' <;> cases ht'
  | earlyRevoked => exact absurd hst (ha x).notEarly

/-- **At rest with the lock to be had, nobody is blocked.** -/
theorem Waiters.nobody_blocked [Fintype T] (h : Waiters s) (hs : Safe s) (ha : AllAwake s)
    (hrest : AtRest s) (hav : Available s) (c : Id) (t : T) : (s.pc c t).blocked = false := by
  by_contra hb
  have hasks : ∃ t, (s.pc c t).role.asks = true :=
    ⟨t, by rw [Pc.role_blocked.mp (Bool.eq_true_of_not_eq_false hb)]; rfl⟩
  have idle : ∀ x ∈ s.server.waiters, ¬ Active s x := by
    rintro x hx (⟨t', hp⟩ | hr | ⟨c', t', hc⟩)
    · exact hrest.not_busy (.inl (by rw [hp]; rfl))
    · rw [(hrest.acquiring hs ha (h.asks x hx)).2] at hr
      cases hr
    · exact hrest.not_busy (Pc.role_of_calls hc)
  have hst := (hrest.acquiring hs ha hasks).1
  rcases h.listed c hst with ⟨t', hp⟩ | hcw | hco
  · exact hrest.not_busy (.inl (by rw [hp]; rfl))
  · cases hl : s.server.lock with
    | false =>
      rcases h.free hl c hcw with hac | ⟨y, -, -, hy, -, hay, -⟩
      · exact idle c hcw hac
      · exact idle y hy hay
    | true =>
      obtain ⟨b, hbo, hbf⟩ := hav.resolve_left (by rw [hl]; exact nofun)
      cases hr : s.server.revoked with
      | true =>
        rcases h.demand hr with ⟨c', t', hx⟩ | ⟨b', hbo', hrev | ⟨c', t', hx⟩⟩
        · exact hrest.not_busy (Pc.role_of_stage hx)
        · obtain rfl : b = b' := Option.some.inj (hbo.symm.trans hbo')
          obtain ⟨t', ht'⟩ := (ha b).asked hbf hrev
          exact hrest.not_woken ht'
        · rcases hx with hx | hx <;> exact hrest.not_busy (Pc.role_of_stage hx)
      | false =>
        obtain ⟨y, hy, hay⟩ := h.held hl hr c hcw
        exact idle y hy hay
  · rcases hav with hfree | ⟨b, hbo, hbf⟩
    · rw [hs.owned.lock, hco] at hfree
      cases hfree
    · obtain rfl : b = c := Option.some.inj (hbo.symm.trans hco)
      cases hbf.symm.trans hst

end Rest

/-! ### Runs -/

section Runs
variable [DecidableEq T] [Fintype T]

/-- The server does not execute an acquire of the client it records as the owner. -/
def fresh : St Id T → Act Id T → Prop := fun s x =>
  s.pc x.thread.1 x.thread.2 = .acqRpc .request → s.server.owner ≠ some x.thread.1

/-- The lock ids fit in a C `int`, and the server does not execute an acquire of the
client it records as the owner of the lock. -/
def freshly : Sys Id T → Lid × Act Id T → Prop := fun s m => Fits m.1 ∧ fresh (s.view m.1) m.2

instance (s : Sys Id T) (m : Lid × Act Id T) : Decidable (freshly s m) :=
  inferInstanceAs (Decidable (_ ∧ (_ → _)))

theorem waiters_of_steps {s : St Id T} (h : Steps Lock.step fresh {} s) : Waiters s :=
  (h.invariant (I := fun s => Safe s ∧ Waiters s) ⟨safe_init, waiters_init⟩ fun s x s' hs hx hstep => by
    obtain ⟨a, w, hm⟩ := step_move hstep
    exact ⟨hs.1.move hm, hs.2.move hs.1 hm hx⟩).2

theorem allAwake_of_steps {ok : St Id T → Act Id T → Prop} {s : St Id T} (h : Steps Lock.step ok {} s) :
    AllAwake s :=
  (h.invariant (I := fun s => Safe s ∧ AllAwake s) ⟨safe_init, fun _ => awake_init⟩
    fun s x s' hs _ hstep => by
      obtain ⟨a, w, hm⟩ := step_move hstep
      exact ⟨hs.1.move hm, hs.2.move hs.1.threads hm⟩).2

theorem Sys.steps_fresh {s : Sys Id T} {l : Lid} (h : Steps Sys.step freshly {} s) (hl : Fits l) :
    Steps Lock.step fresh {} (s.view l) :=
  Sys.steps_view h (fun _ _ hm hk => eq_of_key_eq hm.1 hl hk) fun _ _ hm he => he ▸ hm.2

/-- **No waiter is forgotten** in a run in which the server never executes an acquire of
the owner: with nothing under way and the lock to be had, no thread is blocked. -/
theorem no_waiter_forgotten {s : Sys Id T} (h : Steps Sys.step freshly {} s) {l : Lid} (hl : Fits l)
    (hrest : AtRest (s.view l)) (hav : Available (s.view l)) (c : Id) (t : T) :
    (s.pc c t l).blocked = false := by
  have hrun := Sys.steps_fresh h hl
  exact (waiters_of_steps hrun).nobody_blocked (safe_of_steps hrun) (allAwake_of_steps hrun) hrest hav c t

/-- Client 1 gives the lock back to client 2, which keeps it cached: nobody is blocked. -/
theorem no_waiter_forgotten_handover :
    ∃ s : Sys (Fin 3) (Fin 1), Steps Sys.step freshly {} s ∧ AtRest (s.view 5) ∧ Available (s.view 5) ∧
      ∀ c t, (s.pc c t 5).blocked = false := by
  obtain ⟨s, hs, hrest, hav⟩ : ∃ s : Sys (Fin 3) (Fin 1), Steps Sys.step freshly {} s ∧
      AtRest (s.view 5) ∧ Available (s.view 5) :=
    Steps.exists_of_run (handover 1 2 0 ++
      [(5, .releaseReply 1 0 none), (5, .resume 2 0 none), (5, .serveAcquire 2 0), (5, .acquireReply 2 0),
        (5, .release 2 0 none)]) (by decide)
  exact ⟨s, hs, hrest, hav, no_waiter_forgotten hs (by decide) hrest hav⟩

/-- A waiter is forgotten. After `overlappingCalls` the request of thread 0 is executed
while client 0 owns the lock: client 0 waits for itself. Clients 1 and 2 ask, client 0
gives the lock back, and the server tells clients 0 and 1, the first two of three.
Client 0 does not want the lock any more; client 1 takes it and keeps it cached, never
asked to give it back, and client 2 is blocked. -/
theorem waiter_forgotten :
    ∃ s : Sys (Fin 3) (Fin 2), Steps Sys.step fitting {} s ∧ AtRest (s.view 5) ∧
      Available (s.view 5) ∧ (s.pc 2 0 5).blocked = true :=
  Steps.exists_of_run (overlappingCalls 0 1 ++
    [(5, .serveAcquire 0 0), (5, .acquireReply 0 0), (5, .release 0 1 (some 0)), (5, .resume 0 0 none),
      (5, .acquire 1 0), (5, .serveAcquire 1 0), (5, .readOwner 1 0), (5, .revokeHandler 1 0),
      (5, .revokeReply 1 0), (5, .acquireReply 1 0), (5, .resume 2 0 none), (5, .serveAcquire 2 0),
      (5, .acquireReply 2 0), (5, .release 0 0 none), (5, .dorelease 0 0), (5, .serveRelease 0 0),
      (5, .retryHandler 0 0), (5, .retryReply 0 0), (5, .retryHandler 0 0), (5, .retryReply 0 0),
      (5, .releaseReply 0 0 none), (5, .resume 1 0 none), (5, .serveAcquire 1 0),
      (5, .acquireReply 1 0), (5, .release 1 0 none)])
    (by decide +kernel)

end Runs

end Yfs.Lock

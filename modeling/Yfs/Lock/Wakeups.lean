import Mathlib.Data.Fintype.Card
import Yfs.Lock.Threads

/-! One client alone: no wakeup is lost.

What a client's entries and the roles of its threads do is a small machine of its own
(`ClientMove`), whatever the server and the other clients are doing (`Move.alone`). In
it `waiters_num_map` counts the threads in `pthread_cond_wait`, a status that says
somebody is at work has a thread at work, and a thread that waits while the lock could
be had is not the only one: another has been woken (`Awake`). -/
namespace Yfs.Lock
open Function (update update_of_ne update_self)

variable {Id T : Type}

/-- What a thread is doing, without where its RPC has got to. -/
inductive Role where
  | outside | calling | waiting (woken : Bool) | holding | releasing
  deriving DecidableEq

def Pc.role : Pc Id → Role
  | .idle => .outside
  | .acqRpc _ => .calling
  | .acqWait woken | .relWait woken => .waiting woken
  | .holding => .holding
  | .relRpc _ => .releasing

namespace Role

def wake : Role → Role
  | .waiting _ => .waiting true
  | r => r

/-- In `pthread_cond_wait`. -/
def waits : Role → Bool
  | .waiting _ => true
  | _ => false

/-- Inside `acquire`. -/
def asks : Role → Bool
  | .calling | .waiting _ => true
  | _ => false

/-- Inside `acquire` and not blocked: it will come to `CHECK_AGAIN`. -/
def runs : Role → Bool
  | .calling | .waiting true => true
  | _ => false

@[simp] theorem waits_wake (r : Role) : r.wake.waits = r.waits := by
  cases r <;> rfl

@[simp] theorem asks_wake (r : Role) : r.wake.asks = r.asks := by
  cases r <;> rfl

theorem runs_wake {r : Role} (h : r.asks = true) : r.wake.runs = true := by
  cases r <;> first | rfl | cases h

theorem wake_ne_blocked (r : Role) : r.wake ≠ .waiting false := by
  cases r <;> exact nofun

end Role

theorem Pc.role_wake (p : Pc Id) : p.wake.role = p.role.wake := by
  cases p <;> rfl

theorem Pc.role_blocked {p : Pc Id} : p.blocked = true ↔ p.role = .waiting false := by
  cases p <;> simp [Pc.blocked, Pc.role]

theorem Pc.role_setRelease (p : RelPhase Id) (q : Pc Id) : (q.setRelease p).role = q.role := by
  cases q with
  | acqRpc r => cases r <;> rfl
  | _ => rfl

/-! ### The machine -/

/-- How a thread gets to `CHECK_AGAIN`. -/
inductive Arrival (k : ClientLock) (r : Role) (k₀ : ClientLock) : Prop where
  | call : r = .outside → k₀ = k → Arrival k r k₀
  | woken : r = .waiting true → k₀ = {k with waitersNum := k.waitersNum - 1} → Arrival k r k₀
  | reply (x : Ret) : r = .calling → k₀ = granted x k → Arrival k r k₀

theorem Entry.arrival {k k₀ : ClientLock} {q : Pc Id} (h : Entry k q k₀) : Arrival k q.role k₀ := by
  cases h with
  | call hq hk => exact .call (by rw [hq]; rfl) hk
  | woken hq hk => exact .woken (by rw [hq]; rfl) hk
  | reply r hq hk => exact .reply r (by rw [hq]; rfl) hk

/-- `pthread_cond_signal`: one blocked thread is woken, if there is one. -/
structure WakesOne (ρ ρ' : T → Role) : Prop where
  same : ∀ t, ρ' t = ρ t ∨ ρ t = .waiting false ∧ ρ' t = .waiting true
  one : (∃ t, ρ t = .waiting false) → ∃ t, ρ' t = .waiting true

/-- What can happen to a client's entries and the roles of its threads. -/
inductive ClientMove [DecidableEq T] (k : ClientLock) (ρ : T → Role) (k' : ClientLock) (ρ' : T → Role) :
    Prop where
  | send (t : T) (k₀ : ClientLock) : Arrival k (ρ t) k₀ →
      k' = {k₀ with status := .acquiring, retried := k₀.retried && decide (k₀.status = .none)} →
      ρ' = update ρ t .calling → ClientMove k ρ k' ρ'
  | take (t : T) (k₀ : ClientLock) : Arrival k (ρ t) k₀ → k' = {k₀ with status := .locked} →
      ρ' = update ρ t .holding → ClientMove k ρ k' ρ'
  | block (t : T) (k₀ : ClientLock) : Arrival k (ρ t) k₀ →
      k₀.status = .locked ∨ k₀.status = .releasing ∨ k₀.status = .acquiring ∧ k₀.retried = false →
      k' = {k₀ with waitersNum := k₀.waitersNum + 1} →
      ρ' = update ρ t (.waiting false) → ClientMove k ρ k' ρ'
  | keep (t : T) : ρ t = .holding → givesBack k = false → k' = {k with status := .free} →
      WakesOne (update ρ t .outside) ρ' → ClientMove k ρ k' ρ'
  | giveBack (t : T) : ρ t = .holding →
      k' = {k with status := .releasing, revoked := false, mutex := true} →
      ρ' = update ρ t .releasing → ClientMove k ρ k' ρ'
  | released (t : T) : ρ t = .releasing → k' = {k with status := .none} →
      WakesOne (update ρ t .outside) ρ' → ClientMove k ρ k' ρ'
  | revokeNote : k.status ≠ .free → k' = {k with revoked := true} → ρ' = Role.wake ∘ ρ →
      ClientMove k ρ k' ρ'
  | retryHandler : k' = {k with retried := true} → ρ' = Role.wake ∘ ρ → ClientMove k ρ k' ρ'
  | revokeFree : k' = {k with status := .none, mutex := true} → ρ' = ρ → ClientMove k ρ k' ρ'
  | revoked : k' = {k with mutex := false} → ρ' = Role.wake ∘ ρ → ClientMove k ρ k' ρ'
  | flushed : k.status = .releasing → k' = {k with mutex := false} → ρ' = ρ → ClientMove k ρ k' ρ'
  | wake (t : T) : ρ t = .waiting false → k' = k → ρ' = update ρ t (.waiting true) →
      ClientMove k ρ k' ρ'

def St.roles [LinearOrder Id] (s : St Id T) (c : Id) : T → Role := fun t => (s.pc c t).role

section Alone
variable [LinearOrder Id] [DecidableEq T] {s s' : St Id T} {c a : Id} {t : T} {w : Wakes}

omit [LinearOrder Id] in
theorem Woken.roles_nobody {pc pc' : Id → T → Pc Id} (h : Woken .nobody pc pc' c t a) :
    (fun t' => (pc' c t').role) = update (fun t' => (pc c t').role) t (pc' c t).role := by
  funext t'
  by_cases ht : t' = t
  · subst ht
    simp
  · rw [update_of_ne ht]
    rcases h.same c t' fun he => ht he.2 with he | ⟨-, hn, -⟩
    · rw [he]
    · cases hn rfl

omit [LinearOrder Id] [DecidableEq T] in
theorem Woken.roles_still {pc pc' : Id → T → Pc Id} (h : Woken w pc pc' c t a) {b : Id}
    (hb : b = a → w = .nobody) (hrole : (pc' c t).role = (pc c t).role) :
    (fun t' => (pc' b t').role) = fun t' => (pc b t').role := by
  funext t'
  by_cases hne : b = c ∧ t' = t
  · rw [hne.1, hne.2, hrole]
  · rcases h.same b t' hne with he | ⟨ha, hn, -⟩
    · rw [he]
    · cases hn (hb ha)

omit [LinearOrder Id] [DecidableEq T] in
theorem Woken.roles_everybody {pc pc' : Id → T → Pc Id} (h : Woken .everybody pc pc' c t a)
    (hrole : (pc' c t).role = (pc c t).role) (hq : (pc c t).role.waits = false) :
    (fun t' => (pc' a t').role) = Role.wake ∘ fun t' => (pc a t').role := by
  funext t'
  by_cases hne : a = c ∧ t' = t
  · obtain ⟨rfl, rfl⟩ := hne
    rw [hrole, Function.comp]
    revert hq
    cases (pc a t').role <;> simp [Role.waits, Role.wake]
  · rw [h.everybody rfl t' hne, Pc.role_wake, Function.comp]

omit [LinearOrder Id] in
theorem Woken.roles_one {pc pc' : Id → T → Pc Id} (h : Woken .one pc pc' c t c)
    (hq : pc' c t = .idle) :
    WakesOne (update (fun t' => (pc c t').role) t .outside) fun t' => (pc' c t').role := by
  constructor
  · intro t'
    by_cases ht : t' = t
    · subst ht
      exact .inl (by rw [update_self, hq]; rfl)
    · rw [update_of_ne ht]
      rcases h.same c t' fun he => ht he.2 with he | ⟨-, -, hb, he⟩
      · exact .inl (by rw [he])
      · exact .inr ⟨Pc.role_blocked.mp hb, by rw [he, Pc.role_wake, Pc.role_blocked.mp hb]; rfl⟩
  · rintro ⟨t', hb⟩
    have ht : t' ≠ t := by
      rintro rfl
      rw [update_self] at hb
      cases hb
    rw [update_of_ne ht] at hb
    obtain ⟨t₁, -, hb₁, he⟩ := h.one rfl ⟨t', fun he => ht he.2, Pc.role_blocked.mpr hb⟩
    exact ⟨t₁, by rw [he, Pc.role_wake, Pc.role_blocked.mp hb₁]; rfl⟩

/-- Client `b` is as it was. -/
def SameAt (s s' : St Id T) (b : Id) : Prop := s'.client b = s.client b ∧ s'.roles b = s.roles b

omit [DecidableEq T] in
/-- A client whose entries the move does not use, when the mover keeps its role or is
somebody else's. -/
theorem Move.same_of_ne (hm : Move s s' c t a w) {b : Id} (hb : b ≠ a)
    (hrole : (s'.pc c t).role = (s.pc c t).role ∨ a = c) : SameAt s s' b := by
  refine ⟨hm.clients b hb, ?_⟩
  rcases hrole with hrole | rfl
  · exact hm.threads.roles_still (fun he => absurd he hb) hrole
  · funext t'
    rcases hm.threads.same b t' fun he => hb he.1 with he | ⟨he, -⟩
    · exact congrArg Pc.role he
    · exact absurd he hb

omit [DecidableEq T] in
theorem Move.same (hm : Move s s' c t a .nobody) (hk : s'.client a = s.client a)
    (hrole : (s'.pc c t).role = (s.pc c t).role) (b : Id) : SameAt s s' b := by
  by_cases hb : b = a
  · subst hb
    exact ⟨hk, hm.threads.roles_still (fun _ => rfl) hrole⟩
  · exact hm.same_of_ne hb (.inl hrole)

/-- **Seen from one client, a move is a move of its machine or nothing.** -/
theorem Move.alone (hm : Move s s' c t a w) (ht : Threads s) (b : Id) :
    SameAt s s' b ∨ ClientMove (s.client b) (s.roles b) (s'.client b) (s'.roles b) := by
  have nowait : (s.pc c t).inRelWait = false := ht.noWait c t
  -- a move of the client's own thread, and one of a handler it is host to
  have own (ha : a = c) (h : ClientMove (s.client a) (s.roles a) (s'.client a) (s'.roles a)) :
      SameAt s s' b ∨ ClientMove (s.client b) (s.roles b) (s'.client b) (s'.roles b) := by
    by_cases hb : b = a
    · exact .inr (hb ▸ h)
    · exact .inl (hm.same_of_ne hb (.inr ha))
  have host (hrole : (s'.pc c t).role = (s.pc c t).role)
      (h : ClientMove (s.client a) (s.roles a) (s'.client a) (s'.roles a)) :
      SameAt s s' b ∨ ClientMove (s.client b) (s.roles b) (s'.client b) (s'.roles b) := by
    by_cases hb : b = a
    · exact .inr (hb ▸ h)
    · exact .inl (hm.same_of_ne hb (.inl hrole))
  have hw := hm.threads
  cases hm.what with
  | send k₀ ha he _ _ hn _ hk hq =>
    subst hn ha
    exact own rfl (.send t k₀ he.arrival hk (hw.roles_nobody.trans (by rw [hq]; rfl)))
  | take k₀ ha he _ _ hn _ hk hq =>
    subst hn ha
    exact own rfl (.take t k₀ he.arrival hk (hw.roles_nobody.trans (by rw [hq]; rfl)))
  | block k₀ ha he _ hs hn _ hk hq =>
    subst hn ha
    exact own rfl (.block t k₀ he.arrival hs hk (hw.roles_nobody.trans (by rw [hq]; rfl)))
  | grant hq _ _ _ _ hk hq' | already hq _ _ _ _ _ hk hq' | join hq _ _ _ _ _ _ hk hq'
  | demand hq _ _ _ _ _ _ hk hq' | readOwner _ hq _ _ _ hk hq' | revokeReply hq _ _ hk hq'
  | flushedRevoke hq _ _ hk hq' => subst_vars; exact .inl (hm.same hk (by rw [hq, hq']; rfl) b)
  | revokeFree hq _ _ hn _ hk hq' =>
    subst hn
    have hrole : (s'.pc c t).role = (s.pc c t).role := by rw [hq, hq']; rfl
    exact host hrole (.revokeFree hk (hw.roles_still (fun _ => rfl) hrole))
  | revokeNote hq _ hs hn _ hk hq' =>
    subst hn
    have hrole : (s'.pc c t).role = (s.pc c t).role := by rw [hq, hq']; rfl
    exact host hrole (.revokeNote hs hk (hw.roles_everybody hrole (by rw [hq]; rfl)))
  | giveBack k₀ ha he _ _ _ hn _ hk hq =>
    obtain ⟨hp, rfl⟩ := he.call_of_not_wait nowait
    subst hn ha
    exact own rfl (.giveBack t (congrArg Pc.role hp) hk (hw.roles_nobody.trans (by rw [hq]; rfl)))
  | keep k₀ ha he _ _ hg hn _ hk hq =>
    obtain ⟨hp, rfl⟩ := he.call_of_not_wait nowait
    subst hn ha
    exact own rfl (.keep t (congrArg Pc.role hp) hg hk (hw.roles_one hq))
  | relBlock k₀ ha he _ hs _ _ _ _ =>
    obtain ⟨hp, rfl⟩ := he.call_of_not_wait nowait
    subst ha
    rw [ht.pinned a t .locked (by rw [hp]; rfl)] at hs
    cases hs
  | flushed ha hq hn _ hk hq' =>
    subst hn ha
    have hrole : (s'.pc a t).role = (s.pc a t).role := by rw [hq, hq']; rfl
    have hs : (s.client a).status = .releasing := ht.pinned a t _ (by rw [hq]; rfl)
    exact host hrole (.flushed hs hk (hw.roles_still (fun _ => rfl) hrole))
  | serveRelease d p _ _ _ hn _ hk hq =>
    subst hn
    exact .inl (hm.same hk (by rw [hq, Pc.role_setRelease]) b)
  | retryHandler d cnt rest hr _ hn _ hk hq =>
    subst hn
    have hrole : (s'.pc c t).role = (s.pc c t).role := by rw [hq, Pc.role_setRelease]
    refine host hrole (.retryHandler hk (hw.roles_everybody hrole ?_))
    rcases Pc.release?_eq_some.mp hr with ⟨hq, -⟩ | hq <;> rw [hq] <;> rfl
  | retryReply d cnt rest p _ _ hn _ hk hq =>
    subst hn
    exact .inl (hm.same hk (by rw [hq, Pc.role_setRelease]) b)
  | released ha hq _ hn _ hk hq' =>
    subst hn ha
    exact own rfl (.released t (by rw [St.roles, hq]; rfl) hk (hw.roles_one hq'))
  | revoked hq hn _ hk hq' =>
    subst hn
    have hrole : (s'.pc c t).role = (s.pc c t).role := by rw [hq, hq']; rfl
    exact host hrole (.revoked hk (hw.roles_everybody hrole (by rw [hq]; rfl)))
  | wake hb hn _ hk hq =>
    subst hn
    have hb := Pc.role_blocked.mp hb
    by_cases hbc : b = c
    · subst hbc
      have hcl : s'.client b = s.client b := by
        by_cases hba : b = a
        · rw [hba, hk]
        · exact hm.clients b hba
      exact .inr (.wake t hb hcl (hw.roles_nobody.trans (by rw [hq, Pc.role_wake, hb]; rfl)))
    · refine .inl ⟨?_, ?_⟩
      · by_cases hba : b = a
        · rw [hba, hk]
        · exact hm.clients b hba
      · funext t'
        rcases hw.same b t' fun he => hbc he.1 with he | ⟨-, hn, -⟩
        · exact congrArg Pc.role he
        · cases hn rfl

end Alone

/-! ### Nobody sleeps for ever while the lock could be had -/

section Awake
variable [DecidableEq T] [Fintype T] {k k' k₀ : ClientLock} {ρ ρ' : T → Role} {t : T}

/-- The threads in `pthread_cond_wait`. -/
def waiting (ρ : T → Role) : Finset T := {t | (ρ t).waits = true}

omit [DecidableEq T] in
theorem mem_waiting : t ∈ waiting ρ ↔ (ρ t).waits = true := by
  simp [waiting]

omit [DecidableEq T] in
theorem waiting_congr (h : ∀ t, (ρ' t).waits = (ρ t).waits) : waiting ρ' = waiting ρ := by
  ext t
  rw [mem_waiting, mem_waiting, h]

theorem waiting_update_true {r : Role} (hr : r.waits = true) :
    waiting (update ρ t r) = insert t ((waiting ρ).erase t) := by
  ext t'
  by_cases ht : t' = t
  · simp [mem_waiting, ht, hr]
  · simp [mem_waiting, ht]

theorem waiting_update_false {r : Role} (hr : r.waits = false) :
    waiting (update ρ t r) = (waiting ρ).erase t := by
  ext t'
  by_cases ht : t' = t
  · simp [mem_waiting, ht, hr]
  · simp [mem_waiting, ht]

omit [DecidableEq T] [Fintype T] in
theorem WakesOne.waits (h : WakesOne ρ ρ') (t : T) : (ρ' t).waits = (ρ t).waits := by
  rcases h.same t with he | ⟨hb, he⟩
  · rw [he]
  · rw [he, hb]
    rfl

/-- `waiters_num_map` is right, a status that stands for work has a thread that does it,
and where a blocked thread could go on another has been woken. -/
structure Awake (k : ClientLock) (ρ : T → Role) : Prop where
  count : k.waitersNum = (waiting ρ).card
  locked : k.status = .locked → ∃ t, ρ t = .holding
  releasing : k.status = .releasing → ∃ t, ρ t = .releasing
  acquiring : k.status = .acquiring → ∃ t, (ρ t).asks = true
  retried : k.status = .acquiring → k.retried = true → ∃ t, (ρ t).runs = true
  ready : k.status = .none ∨ k.status = .free → k.mutex = false → (∃ t, ρ t = .waiting false) →
    ∃ t, ρ t = .waiting true
  asked : k.status = .free → k.revoked = true → ∃ t, ρ t = .waiting true
  notEarly : k.status ≠ .earlyRevoked

omit [DecidableEq T] in
theorem awake_init : Awake {} fun _ : T => .outside where
  count := by simp [waiting, Role.waits]
  locked := nofun
  releasing := nofun
  acquiring := nofun
  retried := nofun
  ready := fun _ _ ⟨_, h⟩ => nomatch h
  asked := nofun
  notEarly := nofun

omit [DecidableEq T] [Fintype T] in
theorem granted_waitersNum (x : Ret) (k : ClientLock) : (granted x k).waitersNum = k.waitersNum := by
  unfold granted
  split <;> rfl

/-- At `CHECK_AGAIN` the counter counts the other threads. -/
theorem Awake.arrival (h : Awake k ρ) (ha : Arrival k (ρ t) k₀) :
    k₀.waitersNum = ((waiting ρ).erase t).card := by
  cases ha with
  | call hr hk =>
    rw [hk, h.count, Finset.erase_eq_of_notMem]
    rw [mem_waiting, hr]
    exact nofun
  | woken hr hk =>
    rw [hk, Finset.card_erase_of_mem (mem_waiting.mpr (by rw [hr]; rfl)), h.count]
  | reply x hr hk =>
    rw [hk, granted_waitersNum, h.count, Finset.erase_eq_of_notMem]
    rw [mem_waiting, hr]
    exact nofun

omit [DecidableEq T] [Fintype T] in
/-- A thread on its way to `CHECK_AGAIN` neither holds the lock nor is giving it back. -/
theorem Arrival.asks_or_outside (ha : Arrival k (ρ t) k₀) : ρ t ≠ .holding ∧ ρ t ≠ .releasing := by
  cases ha with
  | call hr | woken hr | reply _ hr => rw [hr]; exact ⟨nofun, nofun⟩

omit [DecidableEq T] [Fintype T] in
theorem Arrival.status (ha : Arrival k (ρ t) k₀) : k₀.status = k.status ∨ k₀.status = .free := by
  cases ha with
  | call _ hk | woken _ hk => exact .inl (by rw [hk])
  | reply x _ hk =>
    rw [hk, granted]
    split
    · exact .inr rfl
    · exact .inl rfl

omit [Fintype T] in
theorem ready_of_wakesOne (h : WakesOne (update ρ t .outside) ρ')
    (hb : ∃ t, ρ' t = .waiting false) : ∃ t, ρ' t = .waiting true := by
  obtain ⟨t', hb⟩ := hb
  refine h.one ⟨t', ?_⟩
  rcases h.same t' with he | ⟨he, -⟩
  · rw [← he, hb]
  · exact he

omit [Fintype T] in
/-- A thread other than `t` that waits is woken or sees another woken. -/
theorem woken_of_wakesOne (h : WakesOne (update ρ t .outside) ρ') {t' : T} (ht : t' ≠ t)
    (hw : (ρ t').waits = true) : ∃ t, ρ' t = .waiting true := by
  cases hr : ρ t' with
  | waiting woken =>
    cases woken with
    | true =>
      refine ⟨t', ?_⟩
      rcases h.same t' with he | ⟨he, -⟩
      · rw [he, update_of_ne ht, hr]
      · rw [update_of_ne ht, hr] at he
        cases he
    | false => exact h.one ⟨t', by rw [update_of_ne ht, hr]⟩
  | outside | calling | holding | releasing => rw [hr] at hw; cases hw

theorem Awake.wakesOne (h : Awake k ρ) (hw : WakesOne (update ρ t .outside) ρ')
    (hr : (ρ t).waits = false) : k.waitersNum = (waiting ρ').card := by
  rw [waiting_congr hw.waits, waiting_update_false rfl, h.count, Finset.erase_eq_of_notMem]
  rw [mem_waiting, hr]
  exact nofun

theorem Awake.send (h : Awake k ρ) (ha : Arrival k (ρ t) k₀) (retried : Bool) :
    Awake {k₀ with status := .acquiring, retried := retried} (update ρ t .calling) where
  count := by
    rw [waiting_update_false rfl, ← h.arrival ha]
  locked := nofun
  releasing := nofun
  acquiring _ := ⟨t, by rw [update_self]; rfl⟩
  retried _ _ := ⟨t, by rw [update_self]; rfl⟩
  ready hs := by rcases hs with hs | hs <;> cases hs
  asked := nofun
  notEarly := nofun

theorem Awake.take (h : Awake k ρ) (ha : Arrival k (ρ t) k₀) :
    Awake {k₀ with status := .locked} (update ρ t .holding) where
  count := by
    rw [waiting_update_false rfl, ← h.arrival ha]
  locked _ := ⟨t, update_self ..⟩
  releasing := nofun
  acquiring := nofun
  retried := nofun
  ready hs := by rcases hs with hs | hs <;> cases hs
  asked := nofun
  notEarly := nofun

theorem Awake.block (h : Awake k ρ) (ha : Arrival k (ρ t) k₀)
    (hs : k₀.status = .locked ∨ k₀.status = .releasing ∨ k₀.status = .acquiring ∧ k₀.retried = false) :
    Awake {k₀ with waitersNum := k₀.waitersNum + 1} (update ρ t (.waiting false)) where
  count := by
    rw [waiting_update_true rfl, Finset.card_insert_of_notMem (Finset.notMem_erase _ _),
      ← h.arrival ha]
  locked hl := by
    have hk : k.status = .locked := by
      rcases ha.status with he | he
      · exact he.symm.trans hl
      · cases he.symm.trans hl
    obtain ⟨t', ht'⟩ := h.locked hk
    refine ⟨t', ?_⟩
    rwa [update_of_ne]
    rintro rfl
    exact ha.asks_or_outside.1 ht'
  releasing hl := by
    have hk : k.status = .releasing := by
      rcases ha.status with he | he
      · exact he.symm.trans hl
      · cases he.symm.trans hl
    obtain ⟨t', ht'⟩ := h.releasing hk
    refine ⟨t', ?_⟩
    rwa [update_of_ne]
    rintro rfl
    exact ha.asks_or_outside.2 ht'
  acquiring _ := ⟨t, by rw [update_self]; rfl⟩
  retried hl hr := by
    have hl : k₀.status = .acquiring := hl
    rw [hl] at hs
    rcases hs with hs | hs | ⟨-, hs⟩
    · cases hs
    · cases hs
    · cases hs.symm.trans hr
  ready hl := by
    rcases hs with hs | hs | ⟨hs, -⟩ <;> rcases hl with hl | hl <;> cases hs.symm.trans hl
  asked hl := by
    rcases hs with hs | hs | ⟨hs, -⟩ <;> cases hs.symm.trans hl
  notEarly hl := by
    rcases hs with hs | hs | ⟨hs, -⟩ <;> cases hs.symm.trans hl

theorem Awake.keep (h : Awake k ρ) (hr : ρ t = .holding) (hg : givesBack k = false)
    (hw : WakesOne (update ρ t .outside) ρ') : Awake {k with status := .free} ρ' where
  count := h.wakesOne hw (by rw [hr]; rfl)
  locked := nofun
  releasing := nofun
  acquiring := nofun
  retried := nofun
  ready _ _ := ready_of_wakesOne hw
  asked _ hrev := by
    have hrev : k.revoked = true := hrev
    have hpos : 0 < (waiting ρ).card := by
      rw [← h.count]
      simp [givesBack, hrev] at hg
      omega
    obtain ⟨t', ht'⟩ := Finset.card_pos.mp hpos
    have hwaits := mem_waiting.mp ht'
    refine woken_of_wakesOne hw ?_ hwaits
    rintro rfl
    rw [hr] at hwaits
    cases hwaits
  notEarly := nofun

theorem Awake.giveBack (h : Awake k ρ) (hr : ρ t = .holding) :
    Awake {k with status := .releasing, revoked := false, mutex := true}
      (update ρ t .releasing) where
  count := by
    rw [waiting_update_false rfl, h.count, Finset.erase_eq_of_notMem]
    rw [mem_waiting, hr]
    exact nofun
  locked := nofun
  releasing _ := ⟨t, update_self ..⟩
  acquiring := nofun
  retried := nofun
  ready hs := by rcases hs with hs | hs <;> cases hs
  asked := nofun
  notEarly := nofun

theorem Awake.released (h : Awake k ρ) (hr : ρ t = .releasing)
    (hw : WakesOne (update ρ t .outside) ρ') : Awake {k with status := .none} ρ' where
  count := h.wakesOne hw (by rw [hr]; rfl)
  locked := nofun
  releasing := nofun
  acquiring := nofun
  retried := nofun
  ready _ _ := ready_of_wakesOne hw
  asked := nofun
  notEarly := nofun

omit [DecidableEq T] in
theorem Awake.everybody (h : Awake k ρ) (hst : k'.status = k.status)
    (hn : k'.waitersNum = k.waitersNum)
    (hrev : k.status = .free → k'.revoked = true → k.revoked = true) : Awake k' (Role.wake ∘ ρ) where
  count := by
    have hsame : waiting (Role.wake ∘ ρ) = waiting ρ := waiting_congr fun t => (ρ t).waits_wake
    rw [hn, h.count, hsame]
  locked hl := by
    obtain ⟨t, ht⟩ := h.locked (hst ▸ hl)
    exact ⟨t, by rw [Function.comp, ht]; rfl⟩
  releasing hl := by
    obtain ⟨t, ht⟩ := h.releasing (hst ▸ hl)
    exact ⟨t, by rw [Function.comp, ht]; rfl⟩
  acquiring hl := by
    obtain ⟨t, ht⟩ := h.acquiring (hst ▸ hl)
    exact ⟨t, by rw [Function.comp, Role.asks_wake, ht]⟩
  retried hl _ := by
    obtain ⟨t, ht⟩ := h.acquiring (hst ▸ hl)
    exact ⟨t, Role.runs_wake ht⟩
  ready _ _ hb := by
    obtain ⟨t, ht⟩ := hb
    exact absurd ht (Role.wake_ne_blocked _)
  asked hl hr := by
    rw [hst] at hl
    obtain ⟨t, ht⟩ := h.asked hl (hrev hl hr)
    exact ⟨t, by rw [Function.comp, ht]; rfl⟩
  notEarly := hst ▸ h.notEarly

omit [DecidableEq T] in
theorem Awake.revokeFree (h : Awake k ρ) : Awake {k with status := .none, mutex := true} ρ where
  count := h.count
  locked := nofun
  releasing := nofun
  acquiring := nofun
  retried := nofun
  ready := nofun
  asked := nofun
  notEarly := nofun

omit [DecidableEq T] in
theorem Awake.flushed (h : Awake k ρ) (hs : k.status = .releasing) : Awake {k with mutex := false} ρ :=
  {h with ready := fun hl => by rcases hl with hl | hl <;> cases hs.symm.trans hl}

theorem Awake.wake (h : Awake k ρ) (hr : ρ t = .waiting false) :
    Awake k (update ρ t (.waiting true)) := by
  have other : ∀ {t' : T} {r : Role}, r ≠ .waiting false → ρ t' = r →
      update ρ t (.waiting true) t' = r := by
    rintro t' r hne rfl
    rw [update_of_ne]
    rintro rfl
    exact hne hr
  have self : update ρ t (.waiting true) t = .waiting true := update_self ..
  refine ⟨?_, fun hl => ?_, fun hl => ?_, fun _ => ⟨t, by rw [self]; rfl⟩,
    fun _ _ => ⟨t, by rw [self]; rfl⟩, fun _ _ _ => ⟨t, self⟩, fun _ _ => ⟨t, self⟩, h.notEarly⟩
  · rw [waiting_update_true rfl, Finset.insert_erase (mem_waiting.mpr (by rw [hr]; rfl)), h.count]
  · obtain ⟨t', ht'⟩ := h.locked hl
    exact ⟨t', other nofun ht'⟩
  · obtain ⟨t', ht'⟩ := h.releasing hl
    exact ⟨t', other nofun ht'⟩

/-- **Every move of a client loses no wakeup.** -/
theorem Awake.move (h : Awake k ρ) (hm : ClientMove k ρ k' ρ') : Awake k' ρ' := by
  cases hm with
  | send t k₀ ha hk hρ => subst hk hρ; exact h.send ha _
  | take t k₀ ha hk hρ => subst hk hρ; exact h.take ha
  | block t k₀ ha hs hk hρ => subst hk hρ; exact h.block ha hs
  | keep t hr hg hk hw => subst hk; exact h.keep hr hg hw
  | giveBack t hr hk hρ => subst hk hρ; exact h.giveBack hr
  | released t hr hk hw => subst hk; exact h.released hr hw
  | revokeNote hs hk hρ => subst hk hρ; exact h.everybody rfl rfl fun hf => absurd hf hs
  | retryHandler | revoked => subst_vars; exact h.everybody rfl rfl fun _ => id
  | revokeFree hk hρ => subst hk hρ; exact h.revokeFree
  | flushed hs hk hρ => subst hk hρ; exact h.flushed hs
  | wake t hr hk hρ => subst hk hρ; exact h.wake hr

end Awake

def AllAwake [LinearOrder Id] [Fintype T] (s : St Id T) : Prop :=
  ∀ b, Awake (s.client b) (s.roles b)

theorem AllAwake.move [LinearOrder Id] [DecidableEq T] [Fintype T] {s s' : St Id T} {c a : Id} {t : T}
    {w : Wakes} (h : AllAwake s) (ht : Threads s) (hm : Move s s' c t a w) : AllAwake s' := by
  intro b
  rcases hm.alone ht b with ⟨hk, hρ⟩ | hmove
  · rw [hk, hρ]
    exact h b
  · exact (h b).move hmove

end Yfs.Lock

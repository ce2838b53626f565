import Yfs.Lock.System

/-! How a thread uses a lock, as its program sees it.

Whatever the protocol does behind `acquire` and `release`, a thread is outside, in
`acquire`, past it or in `release`. A move takes the thread it is made for to the next of
these or leaves it where it is, and no other thread is taken anywhere (`Sys.step_usage`);
from outside and from past `acquire` a thread is only taken by its own calls. -/
namespace Yfs.Lock
open Base

inductive Usage where
  | idle | acquiring | holding | releasing
  deriving DecidableEq

variable {Id T : Type}

def Pc.usage : Pc Id → Usage
  | .idle => .idle
  | .acqRpc _ | .acqWait _ => .acquiring
  | .holding => .holding
  | .relRpc _ | .relWait _ => .releasing

theorem Pc.usage_wake (p : Pc Id) : p.wake.usage = p.usage := by
  cases p <;> rfl

theorem Pc.usage_eq_holding {p : Pc Id} : p.usage = .holding ↔ p = .holding := by
  cases p <;> simp [Pc.usage]

theorem Pc.usage_eq_idle {p : Pc Id} : p.usage = .idle ↔ p = .idle := by
  cases p <;> simp [Pc.usage]

theorem Pc.outside_eq (p : Pc Id) : p.outside = decide (p.usage = .idle ∨ p.usage = .holding) := by
  cases p <;> rfl

theorem Pc.usage_setRelease {c : Id} {p : Pc Id} {x : Id × RelPhase Id} (h : p.release? c = some x) (r : RelPhase Id) :
    (p.setRelease r).usage = p.usage := by
  cases p with
  | acqRpc q => cases q <;> rfl
  | relRpc q => rfl
  | _ => cases h

/-- Where one move can take its thread. -/
inductive Usage.Goes : Usage → Usage → Prop where
  | acquire : Goes .idle .acquiring
  | taken : Goes .idle .holding
  | waits : Goes .acquiring .acquiring
  | granted : Goes .acquiring .holding
  | release : Goes .holding .releasing
  | kept : Goes .holding .idle
  | gives : Goes .releasing .releasing
  | released : Goes .releasing .idle

/-- A call that begins: `acquire` from outside, `release` from past `acquire`. -/
def Act.starts : Act Id T → Option Usage
  | .acquire _ _ => some .idle
  | .release _ _ _ => some .holding
  | _ => none

theorem Entry.goes {k k₀ : ClientLock} {q : Pc Id} (h : Entry k q k₀) {q' : Pc Id} :
    (q'.usage = .acquiring → q.usage.Goes q'.usage) ∧ (q'.usage = .holding → q.usage.Goes q'.usage) := by
  constructor
  · intro hq
    rw [hq]
    cases h with
    | call h => rw [h]; exact .acquire
    | woken h | reply _ h => rw [h]; exact .waits
  · intro hq
    rw [hq]
    cases h with
    | call h => rw [h]; exact .taken
    | woken h | reply _ h => rw [h]; exact .granted

theorem Exit.goes {k k₀ : ClientLock} {q : Pc Id} (h : Exit k q k₀) {q' : Pc Id} :
    (q'.usage = .releasing → q.usage.Goes q'.usage) ∧ (q'.usage = .idle → q.usage.Goes q'.usage) := by
  constructor
  · intro hq
    rw [hq]
    cases h with
    | call h => rw [h]; exact .release
    | woken h => rw [h]; exact .gives
  · intro hq
    rw [hq]
    cases h with
    | call h => rw [h]; exact .kept
    | woken h => rw [h]; exact .released

theorem Usage.Goes.stay {x : Usage} (h : x = .acquiring ∨ x = .releasing) : x.Goes x := by
  rcases h with rfl | rfl
  · exact .waits
  · exact .gives

theorem Pc.usage_of_release {c : Id} {p : Pc Id} {x : Id × RelPhase Id} (h : p.release? c = some x) :
    p.usage = .acquiring ∨ p.usage = .releasing := by
  cases p with
  | acqRpc q => exact .inl rfl
  | relRpc q => exact .inr rfl
  | _ => cases h

section
variable [LinearOrder Id]

theorem Local.usage {c a : Id} {v v' : ServerLock Id} {k k' : ClientLock} {q q' : Pc Id} {w : Wakes}
    (h : Local c a v k q w v' k' q') : q.usage.Goes q'.usage := by
  cases h with
  | send _ _ he _ _ _ _ _ hq | block _ _ he _ _ _ _ _ hq | giveBack _ _ he _ _ _ _ _ _ hq
  | relBlock _ _ he _ _ _ _ _ hq => exact he.goes.1 (by rw [hq]; rfl)
  | take _ _ he _ _ _ _ _ hq | keep _ _ he _ _ _ _ _ _ hq => exact he.goes.2 (by rw [hq]; rfl)
  | grant hq _ _ _ _ _ hq' | already hq _ _ _ _ _ _ hq' | join hq _ _ _ _ _ _ _ hq'
  | demand hq _ _ _ _ _ _ _ hq' | readOwner _ hq _ _ _ _ hq' | revokeFree hq _ _ _ _ _ hq'
  | revokeNote hq _ _ _ _ _ hq' | revokeReply hq _ _ _ hq' | flushedRevoke hq _ _ _ hq'
  | revoked hq _ _ _ hq' => rw [hq, hq']; exact .waits
  | flushed _ hq _ _ _ hq' => rw [hq, hq']; exact .gives
  | serveRelease b p hr _ _ _ _ _ hq' =>
    rw [hq', Pc.usage_setRelease hr]
    exact .stay (Pc.usage_of_release hr)
  | retryHandler b cnt rest hr _ _ _ _ hq' =>
    rw [hq', Pc.usage_setRelease hr]
    exact .stay (Pc.usage_of_release hr)
  | retryReply b cnt rest p hr _ _ _ _ hq' =>
    rw [hq', Pc.usage_setRelease hr]
    exact .stay (Pc.usage_of_release hr)
  | released _ hq _ _ _ _ hq' => rw [hq, hq']; exact .released
  | wake hb _ _ _ hq' =>
    rw [hq', Pc.usage_wake]
    refine .stay ?_
    cases q <;> simp [Pc.blocked, Pc.usage] at hb ⊢

variable [DecidableEq T] [Fintype T]

theorem step_starts {s s' : St Id T} {x : Act Id T} (h : step s x = some s')
    (hx : (s.pc x.thread.1 x.thread.2).usage = .idle ∨ (s.pc x.thread.1 x.thread.2).usage = .holding) :
    x.starts = some (s.pc x.thread.1 x.thread.2).usage := by
  have hcases : s.pc x.thread.1 x.thread.2 = .idle ∨ s.pc x.thread.1 x.thread.2 = .holding :=
    hx.imp Pc.usage_eq_idle.mp Pc.usage_eq_holding.mp
  rcases hcases with hp | hp <;> rw [hp] <;>
    cases x <;> simp_all [step, Act.thread, Act.starts, Pc.usage, Pc.release?, doreleaseDone, releaseReply, Pc.blocked]

/-- **Where a move takes the threads.** -/
theorem Sys.step_usage {s s' : Sys Id T} {m : Lid × Act Id T} (h : s.step m = some s') :
    (s.pc m.2.thread.1 m.2.thread.2 m.1).usage.Goes (s'.pc m.2.thread.1 m.2.thread.2 m.1).usage ∧
      ∀ c t l, ¬ (c = m.2.thread.1 ∧ t = m.2.thread.2 ∧ l = m.1) → (s'.pc c t l).usage = (s.pc c t l).usage := by
  unfold Sys.step at h
  rw [Option.ite_none_right_eq_some, Option.map_eq_some_iff] at h
  obtain ⟨-, v, hv, rfl⟩ := h
  obtain ⟨a, w, hm⟩ := step_move hv
  constructor
  · simpa [Sys.put, Sys.view] using hm.what.usage
  · intro c t l hne
    by_cases hl : l = m.1
    · subst hl
      have := hm.threads.frame.obs Pc.usage Pc.usage_wake
        fun he : c = m.2.thread.1 ∧ t = m.2.thread.2 => hne ⟨he.1, he.2, rfl⟩
      simpa [Sys.put, Sys.view] using this
    · simp [Sys.put, hl]

theorem Sys.step_starts {s s' : Sys Id T} {m : Lid × Act Id T} (h : s.step m = some s')
    (hx : (s.pc m.2.thread.1 m.2.thread.2 m.1).usage = .idle ∨
      (s.pc m.2.thread.1 m.2.thread.2 m.1).usage = .holding) :
    m.2.starts = some (s.pc m.2.thread.1 m.2.thread.2 m.1).usage := by
  unfold Sys.step at h
  rw [Option.ite_none_right_eq_some, Option.map_eq_some_iff] at h
  obtain ⟨-, v, hv, -⟩ := h
  exact Lock.step_starts hv hx

/-- A thread is inside a call for the lock it is said to be inside of. -/
def Inside (s : Sys Id T) : Prop := ∀ c t l, s.inside c t = some l → (s.pc c t l).outside = false

theorem Inside.step {s s' : Sys Id T} {m : Lid × Act Id T} (h : Inside s) (hs : s.step m = some s') : Inside s' := by
  have husage := (Sys.step_usage hs).2
  unfold Sys.step at hs
  rw [Option.ite_none_right_eq_some, Option.map_eq_some_iff] at hs
  obtain ⟨-, v, -, rfl⟩ := hs
  intro c t l hin
  dsimp only at hin
  split at hin
  · next he =>
    split at hin
    · cases hin
    · next hout =>
      obtain ⟨rfl, rfl⟩ := he
      cases hin
      simpa [Sys.put] using hout
  · next hne =>
    rw [Pc.outside_eq, husage c t l fun he => hne ⟨he.1, he.2.1⟩, ← Pc.outside_eq]
    exact h c t l hin

omit [DecidableEq T] [Fintype T] in
theorem Inside.none {s : Sys Id T} {c : Id} {t : T} (h : Inside s)
    (hs : ∀ l, (s.pc c t l).usage ≠ .acquiring ∧ (s.pc c t l).usage ≠ .releasing) : s.inside c t = Option.none := by
  cases hin : s.inside c t with
  | none => rfl
  | some l =>
    have hout := h c t l hin
    rw [Pc.outside_eq, decide_eq_false_iff_not, not_or] at hout
    have hboth := hs l
    cases hp : (s.pc c t l).usage <;> simp_all

end
end Yfs.Lock

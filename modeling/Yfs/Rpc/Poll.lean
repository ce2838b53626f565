import Mathlib.Data.List.Basic
import Yfs.Base.Runs

/-! The poll manager (`PollMgr` with `SelectAIO`).

One thread runs `wait_loop`: it copies the watched descriptors, waits in `select`, and calls
the callbacks of those that are ready, readable ones first, all without the mutex.
Other threads register and remove callbacks. `block_remove_fd` stops watching a descriptor,
asks the loop for a sign with `pending_change_`, and waits for the broadcast that the loop
makes at its top. The loop then has no copy left from before.

A registration of a descriptor is numbered by the removals before it, so that removal `n`
ends the registrations below `n`. The numbers are not in the program; they say which
registration a callback belongs to. What `block_remove_fd` promises holds when it is the
broadcast that wakes it (`block_remove_fd_ends_callbacks`). It waits without a loop, so a
wake-up for no reason ends it early. -/
namespace Yfs.Rpc.Poll
open Base
open Function (update update_of_ne update_self)

/-- `MAX_POLL_FDS`. -/
abbrev maxPollFds : Nat := 128

/-- A descriptor, as `add_callback` verifies it. -/
abbrev Fd := Fin maxPollFds

/-- The two callbacks, and the two sets of descriptors that go with them. -/
inductive Cb where
  | read
  | write
  deriving DecidableEq

/-- `poll_flag`. -/
inductive PollFlag where
  | none
  | rdonly
  | wronly
  | rdwr
  | mask
  deriving DecidableEq

/-- The sets of `SelectAIO` that a flag stands for: both, if it is not one of the directions. -/
def PollFlag.has : PollFlag → Cb → Bool
  | .rdonly, .write | .wronly, .read => false
  | _, _ => true

/-- A descriptor that is ready, with the registration it was watched for. -/
structure Ready where
  fd : Fd
  reg : Nat
  deriving DecidableEq

/-- Where `wait_loop` is: at its top, before `wait_ready`, in `select` with the copies of
the watched descriptors, between callbacks with what is left to call, in a callback. -/
inductive Loop where
  | top
  | wait
  | select (fds : Cb → Fd → Option Nat)
  | dispatch (readable writable : List Ready)
  | running (cb : Cb) (now : Ready) (readable writable : List Ready)

/-- A thread in `block_remove_fd`: the descriptor, the number of the removal, and whether
`pthread_cond_wait` is about to return. -/
structure Waiter where
  fd : Fd
  removal : Nat
  woken : Bool
  deriving DecidableEq

/-- The poll manager with callback objects `Ch` and threads `T`. `fds` is `rfds_` and
`wfds_`, less the pipe that only wakes `select`. -/
structure PollMgr (Ch T : Type) where
  fds : Cb → Fd → Option Nat := fun _ _ => none
  callbacks : Fd → Option Ch := fun _ => none
  pendingChange : Bool := false
  loop : Loop := .top
  removals : Fd → Nat := fun _ => 0
  waiting : T → Option Waiter := fun _ => none
  returned : List (Fd × Nat) := []

/-- A step: a call; the return from `pthread_cond_wait`, with or without a broadcast; one
part of the loop. `ready` gives what `select` finds ready, in the order of the scan. -/
inductive Act (Ch T : Type) where
  | addCallback (fd : Fd) (flag : PollFlag) (ch : Ch)
  | delCallback (fd : Fd) (flag : PollFlag)
  | blockRemoveFd (t : T) (fd : Fd)
  | spurious (t : T)
  | resume (t : T)
  | top
  | waitReady
  | ready (r w : List Fd)
  | call
  | done

section Poll
variable {Ch T : Type} {s s' : PollMgr Ch T} {fd : Fd} {t : T} {cb : Cb}

namespace PollMgr

/-- `SelectAIO::watch_fd`. -/
def watchFd (s : PollMgr Ch T) (fd : Fd) (flag : PollFlag) : PollMgr Ch T :=
  {s with fds := fun cb x => if x = fd ∧ flag.has cb then some (s.removals fd) else s.fds cb x}

/-- `SelectAIO::unwatch_fd`. -/
def unwatchFd (s : PollMgr Ch T) (fd : Fd) (flag : PollFlag) : PollMgr Ch T :=
  {s with fds := fun cb x => if x = fd ∧ flag.has cb then none else s.fds cb x}

/-- What `unwatch_fd` returns. -/
def unwatched (s : PollMgr Ch T) (fd : Fd) : Bool := (s.fds .read fd).isNone && (s.fds .write fd).isNone

/-- `add_callback`; a descriptor with another callback object is a failed `VERIFY`. -/
def addCallback [DecidableEq Ch] (s : PollMgr Ch T) (fd : Fd) (flag : PollFlag) (ch : Ch) :
    Option (PollMgr Ch T) :=
  if s.callbacks fd = none ∨ s.callbacks fd = some ch then
    some {s.watchFd fd flag with callbacks := update s.callbacks fd (some ch)}
  else none

/-- `del_callback`. -/
def delCallback (s : PollMgr Ch T) (fd : Fd) (flag : PollFlag) : PollMgr Ch T :=
  {s.unwatchFd fd flag with
    callbacks := if (s.unwatchFd fd flag).unwatched fd then update s.callbacks fd none
      else s.callbacks}

variable [DecidableEq T]

/-- `block_remove_fd` up to the wait. -/
def blockRemoveFd (s : PollMgr Ch T) (t : T) (fd : Fd) : PollMgr Ch T :=
  {s.unwatchFd fd .rdwr with
    pendingChange := true
    removals := update s.removals fd (s.removals fd + 1)
    waiting := update s.waiting t (some ⟨fd, s.removals fd + 1, false⟩)}

/-- `block_remove_fd` after the wait. -/
def resume (s : PollMgr Ch T) (t : T) (w : Waiter) : PollMgr Ch T :=
  {s with
    callbacks := update s.callbacks w.fd none
    waiting := update s.waiting t none
    returned := (w.fd, w.removal) :: s.returned}

def top (s : PollMgr Ch T) : PollMgr Ch T :=
  {s with
    pendingChange := false
    waiting := fun t => (s.waiting t).map fun w => {w with woken := w.woken || s.pendingChange}
    loop := .wait}

def ready (fds : Fd → Option Nat) (l : List Fd) : List Ready := l.filterMap fun fd => (fds fd).map (Ready.mk fd)

def enter (s : PollMgr Ch T) (cb : Cb) (now : Ready) (readable writable : List Ready) : PollMgr Ch T :=
  {s with
    loop := if (s.callbacks now.fd).isSome then .running cb now readable writable
      else .dispatch readable writable}

def step [DecidableEq Ch] (s : PollMgr Ch T) : Act Ch T → Option (PollMgr Ch T)
  | .addCallback fd flag ch => s.addCallback fd flag ch
  | .delCallback fd flag => some (s.delCallback fd flag)
  | .blockRemoveFd t fd => if s.waiting t = none then some (s.blockRemoveFd t fd) else none
  | .spurious t =>
    (s.waiting t).map fun w => {s with waiting := update s.waiting t (some {w with woken := true})}
  | .resume t => (s.waiting t).bind fun w => if w.woken then some (s.resume t w) else none
  | .top =>
    match s.loop with
    | .top => some s.top
    | _ => none
  | .waitReady =>
    match s.loop with
    | .wait => some {s with loop := .select s.fds}
    | _ => none
  | .ready r w =>
    match s.loop with
    | .select fds =>
      if r.Pairwise (· < ·) ∧ w.Pairwise (· < ·) then
        some {s with loop := .dispatch (ready (fds .read) r) (ready (fds .write) w)}
      else none
    | _ => none
  | .call =>
    match s.loop with
    | .dispatch (now :: readable) writable => some (s.enter .read now readable writable)
    | .dispatch [] (now :: writable) => some (s.enter .write now [] writable)
    | .dispatch [] [] => some {s with loop := .top}
    | _ => none
  | .done =>
    match s.loop with
    | .running _ _ readable writable => some {s with loop := .dispatch readable writable}
    | _ => none

end PollMgr

/-! ### What the loop may still call -/

def Left (readable writable : List Ready) (e : Ready) : Cb → Prop
  | .read => e ∈ readable
  | .write => e ∈ writable

/-- A callback is running, or may be called before the loop is at its top again. -/
def Loop.Due (cb : Cb) (e : Ready) : Loop → Prop
  | .top | .wait => False
  | .select fds => fds cb e.fd = some e.reg
  | .dispatch readable writable => Left readable writable e cb
  | .running k now readable writable => k = cb ∧ now = e ∨ Left readable writable e cb

def Loop.current : Loop → Option (Cb × Ready)
  | .running cb now _ _ => some (cb, now)
  | _ => none

theorem Loop.due_current {l : Loop} {e : Ready} (h : l.current = some (cb, e)) : l.Due cb e := by
  cases l with
  | running k now readable writable =>
    cases h
    exact .inl ⟨rfl, rfl⟩
  | _ => cases h

theorem mem_ready {fds : Fd → Option Nat} {l : List Fd} {e : Ready} (h : e ∈ PollMgr.ready fds l) :
    fds e.fd = some e.reg := by
  obtain ⟨fd, -, hfd⟩ := List.mem_filterMap.mp h
  obtain ⟨reg, hreg, rfl⟩ := Option.map_eq_some_iff.mp hfd
  exact hreg

/-- Where the loop goes on to between its tops: nothing new is due, and a callback that runs
has its callback object. -/
structure GoesOn (s : PollMgr Ch T) (loop : Loop) : Prop where
  due : ∀ cb e, loop.Due cb e → s.loop.Due cb e
  object : ∀ cb e, loop.current = some (cb, e) → (s.callbacks e.fd).isSome

theorem goesOn_enter {k : Cb} {now : Ready} {readable writable : List Ready}
    (hnow : s.loop.Due k now) (hleft : ∀ cb e, Left readable writable e cb → s.loop.Due cb e) :
    GoesOn s (s.enter k now readable writable).loop := by
  unfold PollMgr.enter
  dsimp only
  split
  · rename_i hsome
    refine ⟨fun cb e hdue => ?_, fun cb e hcur => ?_⟩
    · rcases hdue with ⟨rfl, rfl⟩ | hrest
      · exact hnow
      · exact hleft cb e hrest
    · cases hcur
      exact hsome
  · exact ⟨hleft, fun _ _ hcur => by cases hcur⟩

section Steps
variable [DecidableEq Ch] [DecidableEq T]

def Act.ofLoop : Act Ch T → Bool
  | .ready .. | .call | .done => true
  | _ => false

theorem step_ofLoop {a : Act Ch T} (ha : a.ofLoop = true) (hs : s.step a = some s') :
    ∃ loop, GoesOn s loop ∧ s' = {s with loop := loop} := by
  cases a with
  | ready r w =>
    simp only [PollMgr.step] at hs
    split at hs
    · rename_i fds hloop
      obtain ⟨-, hs⟩ := Option.ite_none_right_eq_some.mp hs
      refine ⟨_, ⟨fun cb e hdue => ?_, fun _ _ hcur => by cases hcur⟩, (Option.some.inj hs).symm⟩
      rw [hloop]
      cases cb with
      | read => exact mem_ready hdue
      | write => exact mem_ready hdue
    · cases hs
  | call =>
    simp only [PollMgr.step] at hs
    split at hs
    · rename_i now readable writable hloop
      refine ⟨_, goesOn_enter ?_ fun cb e hrest => ?_, (Option.some.inj hs).symm⟩
      · rw [hloop]
        exact List.mem_cons_self
      · rw [hloop]
        cases cb with
        | read => exact List.mem_cons_of_mem _ hrest
        | write => exact hrest
    · rename_i now writable hloop
      refine ⟨_, goesOn_enter ?_ fun cb e hrest => ?_, (Option.some.inj hs).symm⟩
      · rw [hloop]
        exact List.mem_cons_self
      · rw [hloop]
        cases cb with
        | read => exact hrest
        | write => exact List.mem_cons_of_mem _ hrest
    · exact ⟨.top, ⟨fun _ _ hdue => hdue.elim, fun _ _ hcur => by cases hcur⟩, (Option.some.inj hs).symm⟩
    · cases hs
  | done =>
    simp only [PollMgr.step] at hs
    split at hs
    · rename_i k now readable writable hloop
      refine ⟨_, ⟨fun cb e hdue => ?_, fun _ _ hcur => by cases hcur⟩, (Option.some.inj hs).symm⟩
      rw [hloop]
      exact .inr hdue
    · cases hs
  | _ => cases ha

inductive Does (s : PollMgr Ch T) : Act Ch T → PollMgr Ch T → Prop where
  | add (fd : Fd) (flag : PollFlag) (ch : Ch) : Does s (.addCallback fd flag ch)
      {s.watchFd fd flag with callbacks := update s.callbacks fd (some ch)}
  | del (fd : Fd) (flag : PollFlag) : Does s (.delCallback fd flag) (s.delCallback fd flag)
  | block (t : T) (fd : Fd) : Does s (.blockRemoveFd t fd) (s.blockRemoveFd t fd)
  | spurious (t : T) (w : Waiter) : Does s (.spurious t)
      {s with waiting := update s.waiting t (some {w with woken := true})}
  | resume (t : T) (w : Waiter) (ht : s.waiting t = some w) (hw : w.woken = true) :
      Does s (.resume t) (s.resume t w)
  | top : Does s .top s.top
  | waitReady : Does s .waitReady {s with loop := .select s.fds}
  | goOn (a : Act Ch T) (loop : Loop) (ha : a.ofLoop = true) (hloop : GoesOn s loop) :
      Does s a {s with loop := loop}

theorem step_does {a : Act Ch T} (hs : s.step a = some s') : Does s a s' := by
  by_cases ha : a.ofLoop = true
  · obtain ⟨loop, hloop, rfl⟩ := step_ofLoop ha hs
    exact .goOn a loop ha hloop
  · cases a with
    | addCallback fd flag ch =>
      obtain ⟨-, hs⟩ := Option.ite_none_right_eq_some.mp hs
      cases hs
      exact .add fd flag ch
    | delCallback fd flag =>
      cases hs
      exact .del fd flag
    | blockRemoveFd t fd =>
      obtain ⟨-, hs⟩ := Option.ite_none_right_eq_some.mp hs
      cases hs
      exact .block t fd
    | spurious t =>
      obtain ⟨w, -, rfl⟩ := Option.map_eq_some_iff.mp hs
      exact .spurious t w
    | resume t =>
      obtain ⟨w, ht, hs⟩ := Option.bind_eq_some_iff.mp hs
      obtain ⟨hw, hs⟩ := Option.ite_none_right_eq_some.mp hs
      cases hs
      exact .resume t w ht hw
    | top =>
      simp only [PollMgr.step] at hs
      split at hs
      · cases hs
        exact .top
      · cases hs
    | waitReady =>
      simp only [PollMgr.step] at hs
      split at hs
      · cases hs
        exact .waitReady
      · cases hs
    | ready r w => exact absurd rfl ha
    | call => exact absurd rfl ha
    | done => exact absurd rfl ha

end Steps

/-! ### Removals -/

/-- The removal is over, or the thread that made it is about to return. -/
def Gone (s : PollMgr Ch T) (fd : Fd) (n : Nat) : Prop :=
  (∃ t, s.waiting t = some ⟨fd, n, true⟩) ∨ (fd, n) ∈ s.returned

/-- A descriptor is watched for its current registration, removals are numbered up to it,
and no callback is due of a registration whose removal is over. -/
structure Ended (s : PollMgr Ch T) : Prop where
  current : ∀ cb fd reg, s.fds cb fd = some reg → reg = s.removals fd
  waiting : ∀ t w, s.waiting t = some w → w.removal ≤ s.removals w.fd
  returned : ∀ fd n, (fd, n) ∈ s.returned → n ≤ s.removals fd
  ended : ∀ fd n, Gone s fd n → ∀ cb reg, s.loop.Due cb ⟨fd, reg⟩ → n ≤ reg

theorem ended_init : Ended ({} : PollMgr Ch T) where
  current := nofun
  waiting := nofun
  returned := nofun
  ended _ _ _ _ _ h := h.elim

theorem Ended.gone_le (h : Ended s) {n : Nat} (hg : Gone s fd n) :
    n ≤ s.removals fd := by
  rcases hg with ⟨t, ht⟩ | hr
  · exact h.waiting t _ ht
  · exact h.returned fd n hr

/-- Only the watched descriptors change, to none or to the current registration. -/
theorem Ended.rewatch (h : Ended s) {fds : Cb → Fd → Option Nat} {callbacks : Fd → Option Ch}
    (hfds : ∀ cb fd reg, fds cb fd = some reg → reg = s.removals fd) :
    Ended {s with fds := fds, callbacks := callbacks} where
  current := hfds
  waiting := h.waiting
  returned := h.returned
  ended := h.ended

theorem watched_of_unwatchFd {flag : PollFlag} {x : Fd} {reg : Nat}
    (hreg : (s.unwatchFd fd flag).fds cb x = some reg) : s.fds cb x = some reg := by
  change (if x = fd ∧ flag.has cb then none else s.fds cb x) = some reg at hreg
  split at hreg
  · cases hreg
  · exact hreg

theorem watched_of_watchFd {flag : PollFlag} {x : Fd} {reg : Nat}
    (hreg : (s.watchFd fd flag).fds cb x = some reg) : s.fds cb x = some reg ∨ reg = s.removals x := by
  change (if x = fd ∧ flag.has cb then some (s.removals fd) else s.fds cb x) = some reg at hreg
  split at hreg
  · rename_i hx
    cases hreg
    exact .inr (by rw [hx.1])
  · exact .inl hreg

theorem Ended.blockRemoveFd [DecidableEq T] (h : Ended s) (t : T) (fd : Fd) :
    Ended (s.blockRemoveFd t fd) := by
  have hgrow : ∀ x, s.removals x ≤ update s.removals fd (s.removals fd + 1) x := by
    intro x
    by_cases hx : x = fd
    · subst hx
      rw [update_self]
      exact Nat.le_succ _
    · exact Nat.le_of_eq (update_of_ne hx ..).symm
  refine ⟨fun cb x reg hreg => ?_, fun u w hw => ?_, fun x n hn => ?_, fun x n hg => ?_⟩
  · change (if x = fd ∧ PollFlag.rdwr.has cb then none else s.fds cb x) = some reg at hreg
    change reg = update s.removals fd (s.removals fd + 1) x
    split at hreg
    · cases hreg
    · rename_i hx
      have hne : x ≠ fd := fun he => hx ⟨he, by cases cb <;> rfl⟩
      rw [update_of_ne hne]
      exact h.current cb x reg hreg
  · change update s.waiting t _ u = some w at hw
    change w.removal ≤ update s.removals fd (s.removals fd + 1) w.fd
    by_cases hu : u = t
    · subst hu
      rw [update_self] at hw
      cases hw
      exact Nat.le_of_eq (update_self fd (s.removals fd + 1) s.removals).symm
    · rw [update_of_ne hu] at hw
      exact Nat.le_trans (h.waiting u w hw) (hgrow _)
  · exact Nat.le_trans (h.returned x n hn) (hgrow x)
  · refine h.ended x n (hg.imp_left fun ⟨u, hu⟩ => ⟨u, ?_⟩)
    change update s.waiting t _ u = _ at hu
    by_cases hut : u = t
    · subst hut
      rw [update_self] at hu
      cases hu
    · rwa [update_of_ne hut] at hu

theorem Ended.resume [DecidableEq T] (h : Ended s) {w : Waiter} (ht : s.waiting t = some w)
    (hw : w.woken = true) : Ended (s.resume t w) := by
  have hgone : Gone s w.fd w.removal := by
    obtain ⟨fd, n, woken⟩ := w
    cases hw
    exact .inl ⟨t, ht⟩
  refine ⟨h.current, fun u v hv => ?_, fun x n hn => ?_, fun x n hg => ?_⟩
  · change update s.waiting t none u = some v at hv
    by_cases hu : u = t
    · subst hu
      rw [update_self] at hv
      cases hv
    · rw [update_of_ne hu] at hv
      exact h.waiting u v hv
  · rcases List.mem_cons.mp hn with he | hn
    · cases he
      exact h.gone_le hgone
    · exact h.returned x n hn
  · rcases hg with ⟨u, hu⟩ | hr
    · change update s.waiting t none u = _ at hu
      by_cases hut : u = t
      · subst hut
        rw [update_self] at hu
        cases hu
      · rw [update_of_ne hut] at hu
        exact h.ended x n (.inl ⟨u, hu⟩)
    · rcases List.mem_cons.mp hr with he | hr
      · cases he
        exact h.ended _ _ hgone
      · exact h.ended x n (.inr hr)

theorem Ended.top (h : Ended s) : Ended s.top where
  current := h.current
  waiting t w hw := by
    obtain ⟨v, hv, rfl⟩ := Option.map_eq_some_iff.mp hw
    exact h.waiting t v hv
  returned := h.returned
  ended _ _ _ _ _ hdue := hdue.elim

theorem Ended.waitReady (h : Ended s) : Ended {s with loop := .select s.fds} where
  current := h.current
  waiting := h.waiting
  returned := h.returned
  ended fd n hg cb reg hdue := by
    have hreg : reg = s.removals fd := h.current cb fd reg hdue
    rw [hreg]
    exact h.gone_le hg

theorem Ended.goOn (h : Ended s) {loop : Loop} (hloop : GoesOn s loop) :
    Ended {s with loop := loop} where
  current := h.current
  waiting := h.waiting
  returned := h.returned
  ended fd n hg cb reg hdue := h.ended fd n hg cb reg (hloop.due cb _ hdue)

/-- The condition on a step: `pthread_cond_wait` does not return for no reason. -/
def noSpurious (_ : PollMgr Ch T) : Act Ch T → Prop
  | .spurious _ => False
  | _ => True

instance (s : PollMgr Ch T) : (a : Act Ch T) → Decidable (noSpurious s a)
  | .spurious _ => isFalse id
  | .addCallback .. | .delCallback .. | .blockRemoveFd .. | .resume _ | .top | .waitReady | .ready .. | .call
  | .done => isTrue trivial

variable [DecidableEq Ch] [DecidableEq T]

/-- **Every step but a spurious wake-up keeps the promise.** -/
theorem Ended.step {a : Act Ch T} (h : Ended s) (ha : noSpurious s a)
    (hs : s.step a = some s') : Ended s' := by
  cases step_does hs with
  | add fd flag ch =>
    exact h.rewatch fun cb x reg hreg => (watched_of_watchFd hreg).elim (h.current cb x reg) id
  | del fd flag => exact h.rewatch fun cb x reg hreg => h.current cb x reg (watched_of_unwatchFd hreg)
  | block t fd => exact h.blockRemoveFd t fd
  | spurious t w => exact ha.elim
  | resume t w ht hw => exact h.resume ht hw
  | top => exact h.top
  | waitReady => exact h.waitReady
  | goOn a loop _ hloop => exact h.goOn hloop

theorem ended_of_steps (h : Steps PollMgr.step noSpurious {} s) : Ended s :=
  h.invariant ended_init fun _ _ _ hi ha hs => hi.step ha hs

/-- What has returned stays returned. -/
theorem returned_step {a : Act Ch T} (hs : s.step a = some s') {x : Fd × Nat}
    (h : x ∈ s.returned) : x ∈ s'.returned := by
  cases step_does hs with
  | resume t w => exact List.mem_cons_of_mem _ h
  | _ => exact h

/-- **`block_remove_fd` keeps its promise** in every run without spurious wake-ups: once
removal `n` of a descriptor has returned, no callback of a registration it ended is running
then or later. -/
theorem block_remove_fd_ends_callbacks {s s' : PollMgr Ch T} (h : Steps PollMgr.step noSpurious {} s)
    {fd : Fd} {n : Nat} (hret : (fd, n) ∈ s.returned) (h' : Steps PollMgr.step noSpurious s s')
    {cb : Cb} {reg : Nat} (hrun : s'.loop.current = some (cb, ⟨fd, reg⟩)) : n ≤ reg := by
  have hret' : (fd, n) ∈ s'.returned := h'.invariant hret fun _ _ _ hi _ hs => returned_step hs hi
  have hend : Ended s' := ended_of_steps (h.trans h')
  exact hend.ended fd n (.inr hret') cb reg (Loop.due_current hrun)

end Poll

/-- Descriptor 3 is removed while the loop waits for it. Its last callback is over when
the removal returns, and what runs later is for its next registration. -/
theorem block_remove_fd_ends_callbacks_reuse :
    ∃ s s' : PollMgr Nat Nat, Steps PollMgr.step noSpurious {} s ∧ (3, 1) ∈ s.returned ∧
      Steps PollMgr.step noSpurious s s' ∧ ∃ reg, s'.loop.current = some (.read, ⟨3, reg⟩) ∧ 1 ≤ reg := by
  obtain ⟨s, hs, hret, hlater⟩ : ∃ s : PollMgr Nat Nat, Steps PollMgr.step noSpurious {} s ∧
      ((3, 1) ∈ s.returned ∧
        (run (guarded PollMgr.step noSpurious) s
          [.addCallback 3 .rdonly 8, .waitReady, .ready [3] [], .call]).any
            (fun s' => decide (s'.loop.current = some (.read, ⟨3, 1⟩))) = true) :=
    Steps.exists_of_run
      [.addCallback 3 .rdonly 7, .top, .waitReady, .blockRemoveFd 0 3, .ready [3] [], .call, .done, .call,
        .top, .resume 0]
      (by decide)
  rw [Option.any_eq_true] at hlater
  obtain ⟨s', hrun, hcur⟩ := hlater
  have hs' : Steps PollMgr.step noSpurious s s' := .of_run hrun
  exact ⟨s, s', hs, hret, hs', 1, of_decide_eq_true hcur,
    block_remove_fd_ends_callbacks hs hret hs' (of_decide_eq_true hcur)⟩

/-- The callback of descriptor 3 is running when a thread removes the descriptor. The
thread wakes up for no reason, and the removal returns with the callback still running. -/
theorem spurious_wakeup_returns_early :
    ∃ s : PollMgr Nat Nat, Steps PollMgr.step anyMove {} s ∧ (3, 1) ∈ s.returned ∧
      s.loop.current = some (.read, ⟨3, 0⟩) :=
  Steps.exists_of_run
    [.addCallback 3 .rdonly 7, .top, .waitReady, .ready [3] [], .call, .blockRemoveFd 0 3, .spurious 0,
      .resume 0]
    (by decide)

end Yfs.Rpc.Poll

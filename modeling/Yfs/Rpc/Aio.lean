import Mathlib.Data.BitVec
import Mathlib.Logic.Function.Basic
import Mathlib.Order.Bounds.Basic
import Yfs.Rpc.Poll

/-! The two managers of watched descriptors, `SelectAIO` and `EPollAIO`.

The poll manager is written against the class `aio_mgr`. `Interest` says what it is for: a
set of descriptors for each callback, with `unwatch_fd` telling whether a descriptor is in
none of them. Over any calls that unwatch only what is watched both managers keep these
sets and give the reference's answers to `unwatch_fd` (`selectAio_simulates`,
`epollAio_simulates`); `is_watched` of `EPollAIO` masks the two directions out of what it
compares and never says yes.

`SelectAIO` also keeps the largest descriptor of its sets for `select`, over all calls
(`Bounded.call`). -/
namespace Yfs.Rpc.Poll.PollFlag

/-- The value of a flag as an `int`. -/
def bits : PollFlag → BitVec 32
  | .none => 0x0#32
  | .rdonly => 0x1#32
  | .wronly => 0x10#32
  | .rdwr => 0x11#32
  | .mask => ~~~0x11#32

def Direction : PollFlag → Prop
  | .rdonly | .wronly | .rdwr => True
  | .none | .mask => False

end Yfs.Rpc.Poll.PollFlag

namespace Yfs.Rpc.Aio
open Poll (Cb PollFlag maxPollFds)
open Function (update update_apply update_of_ne)

/-- `aio_mgr`, with states `S`. No result is a failed `VERIFY`. -/
structure AioMgr (S : Type) where
  watchFd : S → Nat → PollFlag → Option S
  unwatchFd : S → Nat → PollFlag → Option (S × Bool)
  isWatched : S → Nat → PollFlag → Option Bool

inductive Call where
  | watch (fd : Nat) (flag : PollFlag)
  | unwatch (fd : Nat) (flag : PollFlag)
  deriving DecidableEq

def Call.fd : Call → Nat
  | .watch fd _ | .unwatch fd _ => fd

section Mgr
variable {S S' : Type}

/-- One call, with what `unwatch_fd` returns. -/
def AioMgr.call (m : AioMgr S) (s : S) : Call → Option (S × List Bool)
  | .watch fd flag => (m.watchFd s fd flag).map fun s => (s, [])
  | .unwatch fd flag => (m.unwatchFd s fd flag).map fun r => (r.1, [r.2])

/-- A sequence of calls, with what every `unwatch_fd` returns. -/
def AioMgr.run (m : AioMgr S) (s : S) : List Call → Option (S × List Bool)
  | [] => some (s, [])
  | c :: calls => (m.call s c).bind fun r => (m.run r.1 calls).map fun r' => (r'.1, r.2 ++ r'.2)

end Mgr

/-! ### `SelectAIO` -/

/-- `SelectAIO`: the sets `rfds_` and `wfds_`, and the reading end of its pipe, `pipefd_[0]`. -/
structure SelectAio where
  pipefd : Nat
  rfds : Nat → Bool
  wfds : Nat → Bool
  highfds : Nat

namespace SelectAio

/-- The constructor, where `pipe` gives `pipefd` to read from. -/
def new (pipefd : Nat) : SelectAio :=
  { pipefd, rfds := fun fd => fd == pipefd, wfds := fun _ => false, highfds := pipefd }

/-- `watch_fd`, without the byte it writes to the pipe. -/
def watchFd (s : SelectAio) (fd : Nat) (flag : PollFlag) : SelectAio :=
  let s := if s.highfds ≤ fd then { s with highfds := fd } else s
  match flag with
  | .rdonly => { s with rfds := update s.rfds fd true }
  | .wronly => { s with wfds := update s.wfds fd true }
  | _ => { s with rfds := update s.rfds fd true, wfds := update s.wfds fd true }

/-- `is_watched`. -/
def isWatched (s : SelectAio) (fd : Nat) (flag : PollFlag) : Bool :=
  match flag with
  | .rdonly => s.rfds fd
  | .wronly => s.wfds fd
  | _ => s.rfds fd && s.wfds fd

/-- The loop over `i <= highfds_` in `unwatch_fd`. -/
def newHigh (s : SelectAio) : Nat :=
  (List.range (s.highfds + 1)).foldl
    (fun newh i => if s.rfds i then i else if s.wfds i then i else newh) s.pipefd

/-- The `FD_CLR`s of `unwatch_fd`. -/
def clear (s : SelectAio) (fd : Nat) : PollFlag → Option SelectAio
  | .rdonly => some { s with rfds := update s.rfds fd false }
  | .wronly => some { s with wfds := update s.wfds fd false }
  | .rdwr =>
    some { s with wfds := update s.wfds fd false, rfds := update s.rfds fd false }
  | _ => none

/-- `unwatch_fd`. -/
def unwatchFd (s : SelectAio) (fd : Nat) (flag : PollFlag) : Option (SelectAio × Bool) :=
  (s.clear fd flag).map fun s =>
    let idle := !s.rfds fd && !s.wfds fd
    (if idle ∧ fd = s.highfds then { s with highfds := s.newHigh } else s, idle)

/-- `select`: the descriptors of a set below `nfds` that are ready. -/
def select (nfds : Nat) (fds ready : Nat → Bool) (fd : Nat) : Bool :=
  decide (fd < nfds) && fds fd && ready fd

/-- `wait_ready` with what is ready to be read and to be written: the lists `readable` and
`writable`. The pipe is emptied and in neither. -/
def waitReady (s : SelectAio) (toRead toWrite : Nat → Bool) : List Nat × List Nat :=
  let trfds := select (s.highfds + 1) s.rfds toRead
  let twfds := select (s.highfds + 1) s.wfds toWrite
  let scanned := (List.range (s.highfds + 1)).filter fun fd => !(fd == s.pipefd && trfds fd)
  (scanned.filter trfds, scanned.filter twfds)

end SelectAio

/-- `SelectAIO` as an `aio_mgr`. -/
def selectAio : AioMgr SelectAio where
  watchFd := fun s fd flag => some (s.watchFd fd flag)
  unwatchFd := SelectAio.unwatchFd
  isWatched := fun s fd flag => some (s.isWatched fd flag)

/-! ### `EPollAIO` -/

/-- `EPollAIO`: `fdstatus_`, and the descriptors the kernel has with their events. -/
structure EPollAio where
  fdstatus : Nat → BitVec 32
  kernel : Nat → Option (BitVec 32)

inductive CtlOp where
  | add
  | mod
  | del
  deriving DecidableEq

namespace EPollAio

def epollIn : BitVec 32 := 0x1#32
def epollOut : BitVec 32 := 0x4#32
def epollEt : BitVec 32 := 0x80000000#32

def new : EPollAio := { fdstatus := fun _ => 0#32, kernel := fun _ => none }

/-- `epoll_ctl`: a descriptor is added once, and changed or deleted while it is there. -/
def epollCtl (s : EPollAio) (op : CtlOp) (fd : Nat) (events : BitVec 32) : Option EPollAio :=
  match op, s.kernel fd with
  | .add, none | .mod, some _ => some { s with kernel := update s.kernel fd (some events) }
  | .del, some _ => some { s with kernel := update s.kernel fd none }
  | _, _ => none

/-- The events for the bits of `fdstatus_[fd]`. -/
def events (status : BitVec 32) : BitVec 32 :=
  let ev := epollEt
  let ev := if status &&& PollFlag.rdonly.bits ≠ 0#32 then ev ||| epollIn else ev
  if status &&& PollFlag.wronly.bits ≠ 0#32 then ev ||| epollOut else ev

/-- `watch_fd`. -/
def watchFd (s : EPollAio) (fd : Nat) (flag : PollFlag) : Option EPollAio :=
  if fd < maxPollFds then
    let op := if s.fdstatus fd ≠ 0#32 then CtlOp.mod else CtlOp.add
    let status := s.fdstatus fd ||| flag.bits
    let ev := events status
    if flag = .rdwr → ev = epollEt ||| epollIn ||| epollOut then
      epollCtl { s with fdstatus := update s.fdstatus fd status } op fd ev
    else none
  else none

/-- `unwatch_fd`. -/
def unwatchFd (s : EPollAio) (fd : Nat) (flag : PollFlag) : Option (EPollAio × Bool) :=
  if fd < maxPollFds then
    let status := s.fdstatus fd &&& ~~~flag.bits
    let op := if status ≠ 0#32 then CtlOp.mod else CtlOp.del
    if flag = .rdwr → op = .del then
      (epollCtl { s with fdstatus := update s.fdstatus fd status } op fd (events status)).map
        fun s => (s, decide (op = .del))
    else none
  else none

/-- `is_watched`. -/
def isWatched (s : EPollAio) (fd : Nat) (flag : PollFlag) : Option Bool :=
  if fd < maxPollFds then some (s.fdstatus fd &&& PollFlag.mask.bits == flag.bits) else none

end EPollAio

/-- `EPollAIO` as an `aio_mgr`. -/
def epollAio : AioMgr EPollAio where
  watchFd := EPollAio.watchFd
  unwatchFd := EPollAio.unwatchFd
  isWatched := EPollAio.isWatched

/-! ### What a manager of watched descriptors is for -/

/-- The callbacks each descriptor is watched for. -/
abbrev Interest := Nat → Cb → Bool

namespace Interest

def none : Interest := fun _ _ => false

def watch (w : Interest) (fd : Nat) (flag : PollFlag) : Interest :=
  fun x cb => if x = fd ∧ flag.has cb then true else w x cb

def unwatch (w : Interest) (fd : Nat) (flag : PollFlag) : Interest :=
  fun x cb => if x = fd ∧ flag.has cb then false else w x cb

def active (w : Interest) (fd : Nat) : Bool := w fd .read || w fd .write

def covers (w : Interest) (fd : Nat) (flag : PollFlag) : Bool :=
  (!flag.has .read || w fd .read) && (!flag.has .write || w fd .write)

/-- One call, and what `unwatch_fd` says: whether nothing is left. -/
def call (w : Interest) : Call → Interest × List Bool
  | .watch fd flag => (w.watch fd flag, [])
  | .unwatch fd flag => (w.unwatch fd flag, [!(w.unwatch fd flag).active fd])

def run (w : Interest) : List Call → Interest × List Bool
  | [] => (w, [])
  | c :: calls => (((w.call c).1.run calls).1, (w.call c).2 ++ ((w.call c).1.run calls).2)

theorem watch_of_ne (w : Interest) {fd x : Nat} (flag : PollFlag) (h : x ≠ fd) :
    w.watch fd flag x = w x := by
  funext cb
  simp [watch, h]

theorem unwatch_of_ne (w : Interest) {fd x : Nat} (flag : PollFlag) (h : x ≠ fd) :
    w.unwatch fd flag x = w x := by
  funext cb
  simp [unwatch, h]

theorem watch_self (w : Interest) (fd : Nat) (flag : PollFlag) (cb : Cb) :
    w.watch fd flag fd cb = (w fd cb || flag.has cb) := by
  by_cases h : flag.has cb <;> simp [watch, h]

theorem unwatch_self (w : Interest) (fd : Nat) (flag : PollFlag) (cb : Cb) :
    w.unwatch fd flag fd cb = (w fd cb && !flag.has cb) := by
  by_cases h : flag.has cb <;> simp [unwatch, h]

theorem covers_watch (w : Interest) (fd : Nat) (flag : PollFlag) :
    (w.watch fd flag).covers fd flag = true := by
  cases flag <;> simp [covers, watch, PollFlag.has]

end Interest

/-- A call with a flag of callbacks, on a descriptor below `MAX_POLL_FDS` that is not the
pipe's, that unwatches only where something is watched. -/
def ProperCall (pipefd : Nat) (w : Interest) : Call → Prop
  | .watch fd flag => fd < maxPollFds ∧ fd ≠ pipefd ∧ flag.Direction
  | .unwatch fd flag => fd < maxPollFds ∧ fd ≠ pipefd ∧ flag.Direction ∧ w.active fd

def Proper (pipefd : Nat) (w : Interest) : List Call → Prop
  | [] => True
  | c :: calls => ProperCall pipefd w c ∧ Proper pipefd (w.call c).1 calls

section Simulation
variable {S : Type} {m : AioMgr S} {R : S → Interest → Prop} {pipefd : Nat}

/-- A manager that keeps to the watched sets over calls on them. -/
def Simulates (m : AioMgr S) (R : S → Interest → Prop) (pipefd : Nat) : Prop :=
  ∀ s w c, R s w → ProperCall pipefd w c →
    ∃ s', m.call s c = some (s', (w.call c).2) ∧ R s' (w.call c).1

theorem Simulates.run (hm : Simulates m R pipefd) {s : S} {w : Interest} {calls : List Call}
    (h : R s w) (hp : Proper pipefd w calls) :
    ∃ s', m.run s calls = some (s', (w.run calls).2) ∧ R s' (w.run calls).1 := by
  induction calls generalizing s w with
  | nil => exact ⟨s, rfl, h⟩
  | cons c calls ih =>
    obtain ⟨s₁, hcall, h₁⟩ := hm s w c h hp.1
    obtain ⟨s₂, hrun, h₂⟩ := ih h₁ hp.2
    refine ⟨s₂, ?_, h₂⟩
    rw [AioMgr.run, hcall, Option.bind_some, hrun]
    rfl

end Simulation

/-! ### The sets of `SelectAIO` -/

namespace SelectAio
variable (s : SelectAio) (fd : Nat) (flag : PollFlag)

@[simp] theorem watchFd_pipefd : (s.watchFd fd flag).pipefd = s.pipefd := by
  cases flag <;> unfold watchFd <;> split <;> rfl

@[simp] theorem watchFd_highfds : (s.watchFd fd flag).highfds = max s.highfds fd := by
  by_cases h : s.highfds ≤ fd <;> cases flag <;> simp [watchFd, h] <;> omega

@[simp] theorem watchFd_rfds (x : Nat) :
    (s.watchFd fd flag).rfds x = if x = fd ∧ flag.has .read then true else s.rfds x := by
  by_cases h : s.highfds ≤ fd <;> cases flag <;>
    simp [watchFd, h, PollFlag.has, update_apply]

@[simp] theorem watchFd_wfds (x : Nat) :
    (s.watchFd fd flag).wfds x = if x = fd ∧ flag.has .write then true else s.wfds x := by
  by_cases h : s.highfds ≤ fd <;> cases flag <;>
    simp [watchFd, h, PollFlag.has, update_apply]

variable {s fd flag}

/-- What `FD_CLR` leaves. -/
theorem clear_eq_some {s' : SelectAio} (h : s.clear fd flag = some s') :
    flag.Direction ∧ s'.pipefd = s.pipefd ∧ s'.highfds = s.highfds ∧
      (∀ x, s'.rfds x = if x = fd ∧ flag.has .read then false else s.rfds x) ∧
      ∀ x, s'.wfds x = if x = fd ∧ flag.has .write then false else s.wfds x := by
  cases flag <;> simp only [clear, Option.some.injEq, reduceCtorEq] at h <;> subst h <;>
    simp [PollFlag.Direction, PollFlag.has, update_apply]

theorem clear_of_direction (h : flag.Direction) : ∃ s', s.clear fd flag = some s' := by
  cases flag with
  | none | mask => exact h.elim
  | rdonly | wronly | rdwr => exact ⟨_, rfl⟩

/-- What `unwatch_fd` does: the sets lose the descriptor, and the largest one is sought anew
where it was this one and is in neither set. -/
theorem unwatchFd_eq_some {r : SelectAio × Bool} (h : s.unwatchFd fd flag = some r) :
    ∃ s', s.clear fd flag = some s' ∧ r.1.pipefd = s.pipefd ∧ r.1.rfds = s'.rfds ∧
      r.1.wfds = s'.wfds ∧ r.2 = (!s'.rfds fd && !s'.wfds fd) ∧
      r.1.highfds = if r.2 ∧ fd = s.highfds then s'.newHigh else s.highfds := by
  obtain ⟨s', hs', rfl⟩ := Option.map_eq_some_iff.mp h
  obtain ⟨-, hpipe, hhigh, -⟩ := clear_eq_some hs'
  refine ⟨s', hs', ?_⟩
  dsimp only
  rw [← hhigh]
  split
  · exact ⟨hpipe, rfl, rfl, rfl, rfl⟩
  · exact ⟨hpipe, rfl, rfl, rfl, rfl⟩

/-- The sets are those of the reference, but for the pipe. -/
def Has (pipefd : Nat) (s : SelectAio) (w : Interest) : Prop :=
  ∀ fd, fd ≠ pipefd → s.rfds fd = w fd .read ∧ s.wfds fd = w fd .write

theorem has_new (pipefd : Nat) : Has pipefd (new pipefd) .none := by
  intro fd hne
  simp [new, Interest.none, hne]

theorem Has.isWatched {pipefd : Nat} {w : Interest} (h : Has pipefd s w) (hne : fd ≠ pipefd) :
    s.isWatched fd flag = w.covers fd flag := by
  obtain ⟨hr, hw⟩ := h fd hne
  cases flag <;> simp [SelectAio.isWatched, Interest.covers, PollFlag.has, hr, hw]

end SelectAio

theorem selectAio_simulates (pipefd : Nat) : Simulates selectAio (SelectAio.Has pipefd) pipefd := by
  intro s w c h hp
  cases c with
  | watch fd flag =>
    refine ⟨s.watchFd fd flag, rfl, fun x hx => ?_⟩
    obtain ⟨hr, hw⟩ := h x hx
    simp [Interest.call, Interest.watch, hr, hw]
  | unwatch fd flag =>
    obtain ⟨-, hne, hdir, -⟩ := hp
    obtain ⟨s', hclear⟩ := SelectAio.clear_of_direction hdir
    obtain ⟨r, hr⟩ : ∃ r, s.unwatchFd fd flag = some r := ⟨_, by rw [SelectAio.unwatchFd, hclear]; rfl⟩
    obtain ⟨s'', hclear', -, hrfds, hwfds, hret, -⟩ := SelectAio.unwatchFd_eq_some hr
    obtain rfl := Option.some.inj (hclear.symm.trans hclear')
    obtain ⟨-, -, -, hr', hw'⟩ := SelectAio.clear_eq_some hclear
    have hsets : SelectAio.Has pipefd r.1 (w.unwatch fd flag) := by
      intro x hx
      obtain ⟨hxr, hxw⟩ := h x hx
      rw [hrfds, hwfds, hr', hw', hxr, hxw]
      exact ⟨rfl, rfl⟩
    refine ⟨r.1, ?_, hsets⟩
    obtain ⟨hfr, hfw⟩ := hsets fd hne
    rw [hrfds] at hfr
    rw [hwfds] at hfw
    simp only [AioMgr.call, selectAio, hr, Option.map_some, Interest.call, Interest.active, hret, hfr,
      hfw, Bool.not_or]

/-! ### The status words of `EPollAIO` -/

namespace EPollAio

/-- `fdstatus_[fd]` for a descriptor watched to read and to write. -/
def statusOf (r w : Bool) : BitVec 32 :=
  (if r then PollFlag.rdonly.bits else 0#32) ||| (if w then PollFlag.wronly.bits else 0#32)

theorem statusOf_eq_zero (r w : Bool) : statusOf r w = 0#32 ↔ (r || w) = false := by
  cases r <;> cases w <;> decide

theorem statusOf_or (r w : Bool) {flag : PollFlag} (h : flag.Direction) :
    statusOf r w ||| flag.bits = statusOf (r || flag.has .read) (w || flag.has .write) := by
  cases flag with
  | none | mask => exact h.elim
  | rdonly | wronly | rdwr => cases r <;> cases w <;> decide

theorem statusOf_and_not (r w : Bool) {flag : PollFlag} (h : flag.Direction) :
    statusOf r w &&& ~~~flag.bits = statusOf (r && !flag.has .read) (w && !flag.has .write) := by
  cases flag with
  | none | mask => exact h.elim
  | rdonly | wronly | rdwr => cases r <;> cases w <;> decide

/-- `CB_MASK` is the other bits. -/
theorem statusOf_and_mask (r w : Bool) : statusOf r w &&& PollFlag.mask.bits = 0#32 := by
  cases r <;> cases w <;> decide

theorem events_both : events (statusOf true true) = epollEt ||| epollIn ||| epollOut := by decide

/-- The status words and the kernel's descriptors are those of the reference. -/
def Has (s : EPollAio) (w : Interest) : Prop :=
  ∀ fd, s.fdstatus fd = statusOf (w fd .read) (w fd .write) ∧ (s.kernel fd).isSome = w.active fd

theorem has_new : Has new .none := fun _ => ⟨(by decide : 0#32 = statusOf false false), rfl⟩

theorem Has.status_eq_zero {s : EPollAio} {w : Interest} (h : s.Has w) (fd : Nat) :
    s.fdstatus fd = 0#32 ↔ w.active fd = false := by
  rw [(h fd).1, statusOf_eq_zero]
  rfl

/-- `is_watched` says no to every flag of a callback. -/
theorem Has.isWatched {s : EPollAio} {w : Interest} {fd : Nat} {flag : PollFlag} (h : s.Has w)
    (hfd : fd < maxPollFds) (hdir : flag.Direction) : s.isWatched fd flag = some false := by
  rw [EPollAio.isWatched, if_pos hfd, (h fd).1, statusOf_and_mask]
  cases flag with
  | none | mask => exact hdir.elim
  | rdonly | wronly | rdwr => decide

/-- Adding a new descriptor and changing one that is there both succeed. -/
theorem epollCtl_put {s : EPollAio} {fd : Nat} {op : CtlOp} (ev : BitVec 32)
    (h : op = if (s.kernel fd).isSome then .mod else .add) :
    s.epollCtl op fd ev = some { s with kernel := update s.kernel fd (some ev) } := by
  subst h
  cases hk : s.kernel fd <;> simp [epollCtl, hk]

theorem epollCtl_del {s : EPollAio} {fd : Nat} (ev : BitVec 32) (h : (s.kernel fd).isSome) :
    s.epollCtl .del fd ev = some { s with kernel := update s.kernel fd none } := by
  obtain ⟨e, he⟩ := Option.isSome_iff_exists.mp h
  simp [epollCtl, he]

/-- Status word and kernel of one descriptor set as the reference has them. -/
theorem Has.update {s : EPollAio} {w w' : Interest} {fd : Nat} {status : BitVec 32}
    (ev : Option (BitVec 32)) (h : s.Has w) (hsame : ∀ x, x ≠ fd → w' x = w x)
    (hstatus : status = statusOf (w' fd .read) (w' fd .write)) (hev : ev.isSome = w'.active fd) :
    Has ⟨update s.fdstatus fd status, update s.kernel fd ev⟩ w' := by
  intro x
  by_cases hx : x = fd
  · subst hx
    simp [hstatus, hev]
  · simp only [update_of_ne hx]
    rw [Interest.active, hsame x hx]
    exact h x

variable {s : EPollAio} {w : Interest} {fd : Nat} {flag : PollFlag}

theorem Has.watchFd (h : s.Has w) (hfd : fd < maxPollFds) (hdir : flag.Direction) :
    ∃ s', s.watchFd fd flag = some s' ∧ s'.Has (w.watch fd flag) := by
  have hnew : s.fdstatus fd ||| flag.bits =
      statusOf (w.watch fd flag fd .read) (w.watch fd flag fd .write) := by
    rw [(h fd).1, statusOf_or _ _ hdir, Interest.watch_self, Interest.watch_self]
  have hactive : (w.watch fd flag).active fd = true := by
    cases flag <;> simp [Interest.active, Interest.watch, PollFlag.has]
  have hverify : flag = .rdwr →
      events (s.fdstatus fd ||| flag.bits) = epollEt ||| epollIn ||| epollOut := by
    intro hf
    subst hf
    rw [hnew, Interest.watch_self, Interest.watch_self]
    simpa [PollFlag.has] using events_both
  have hop : (if s.fdstatus fd ≠ 0#32 then CtlOp.mod else CtlOp.add) =
      if (s.kernel fd).isSome then CtlOp.mod else CtlOp.add := by
    cases ha : w.active fd <;> simp [h.status_eq_zero, (h fd).2, ha]
  refine ⟨_, ?_, h.update (some (events (s.fdstatus fd ||| flag.bits)))
    (fun x hx => w.watch_of_ne flag hx) hnew hactive.symm⟩
  rw [EPollAio.watchFd, if_pos hfd]
  exact (if_pos hverify).trans (epollCtl_put _ hop)

theorem Has.unwatchFd (h : s.Has w) (hfd : fd < maxPollFds) (hdir : flag.Direction)
    (hactive : w.active fd = true) :
    ∃ s', s.unwatchFd fd flag = some (s', !(w.unwatch fd flag).active fd) ∧
      s'.Has (w.unwatch fd flag) := by
  have hpresent : (s.kernel fd).isSome := (h fd).2.trans hactive
  have hsame : ∀ x, x ≠ fd → w.unwatch fd flag x = w x := fun x hx => w.unwatch_of_ne flag hx
  have hnew : s.fdstatus fd &&& ~~~flag.bits =
      statusOf (w.unwatch fd flag fd .read) (w.unwatch fd flag fd .write) := by
    rw [(h fd).1, statusOf_and_not _ _ hdir, Interest.unwatch_self, Interest.unwatch_self]
  have hzero : s.fdstatus fd &&& ~~~flag.bits = 0#32 ↔ (w.unwatch fd flag).active fd = false := by
    rw [hnew, statusOf_eq_zero]
    rfl
  rw [EPollAio.unwatchFd, if_pos hfd]
  cases ha : (w.unwatch fd flag).active fd with
  | false =>
    refine ⟨_, ?_, h.update none hsame hnew ha.symm⟩
    have hop : ¬ (s.fdstatus fd &&& ~~~flag.bits ≠ 0#32) := not_not_intro (hzero.mpr ha)
    simp only [hop, if_false, implies_true, if_true]
    rw [epollCtl_del]
    · rfl
    · exact hpresent
  | true =>
    have hflag : flag ≠ .rdwr := by
      intro hf
      simp [hf, Interest.active, Interest.unwatch_self, PollFlag.has] at ha
    have hop : s.fdstatus fd &&& ~~~flag.bits ≠ 0#32 := fun h0 => by simp [hzero.mp h0] at ha
    refine ⟨_, ?_, h.update (some (events (s.fdstatus fd &&& ~~~flag.bits))) hsame hnew ha.symm⟩
    simp only [hop, hflag, ne_eq, not_false_eq_true, if_true, false_implies]
    rw [epollCtl_put _ (by simp [hpresent])]
    rfl

end EPollAio

theorem epollAio_simulates (pipefd : Nat) : Simulates epollAio EPollAio.Has pipefd := by
  intro s w c h hp
  cases c with
  | watch fd flag =>
    obtain ⟨hfd, -, hdir⟩ := hp
    obtain ⟨s', hs', h'⟩ := h.watchFd hfd hdir
    exact ⟨s', by simp [AioMgr.call, epollAio, hs', Interest.call], h'⟩
  | unwatch fd flag =>
    obtain ⟨hfd, -, hdir, hactive⟩ := hp
    obtain ⟨s', hs', h'⟩ := h.unwatchFd hfd hdir hactive
    exact ⟨s', by simp [AioMgr.call, epollAio, hs', Interest.call], h'⟩

/-! ### The sets the poll manager is modelled with -/

section PollMgr
variable {Ch T : Type} (s : Poll.PollMgr Ch T) (fd : Poll.Fd)

/-- What a poll manager watches, without the numbers of the registrations. -/
def interestOf : Interest := fun fd cb =>
  if h : fd < maxPollFds then (s.fds cb ⟨fd, h⟩).isSome else false

theorem interestOf_watchFd (flag : PollFlag) : interestOf (s.watchFd fd flag) = (interestOf s).watch fd flag := by
  funext x cb
  by_cases hx : x < maxPollFds
  · by_cases hxf : x = fd <;> by_cases hcb : flag.has cb <;>
      simp [interestOf, Poll.PollMgr.watchFd, Interest.watch, Fin.ext_iff, hx, hxf, hcb]
  · have hxf : x ≠ fd := fun heq => hx (heq ▸ fd.isLt)
    simp [interestOf, Interest.watch, hx, hxf]

theorem interestOf_unwatchFd (flag : PollFlag) : interestOf (s.unwatchFd fd flag) = (interestOf s).unwatch fd flag := by
  funext x cb
  by_cases hx : x < maxPollFds
  · by_cases hxf : x = fd <;> by_cases hcb : flag.has cb <;>
      simp [interestOf, Poll.PollMgr.unwatchFd, Interest.unwatch, Fin.ext_iff, hx, hxf, hcb]
  · have hxf : x ≠ fd := fun heq => hx (heq ▸ fd.isLt)
    simp [interestOf, Interest.unwatch, hx, hxf]

/-- `del_callback` asks what the reference answers. -/
theorem unwatched_eq : s.unwatched fd = !(interestOf s).active fd := by
  simp [Poll.PollMgr.unwatched, interestOf, Interest.active]

end PollMgr

/-! ### Where the two agree -/

/-- After every part of the calls, both managers have given the same answers to
`unwatch_fd` and give the same to `is_watched`, on any descriptor and flag. -/
def Agree (pipefd : Nat) (calls : List Call) : Prop :=
  ∀ k s e rs rs', selectAio.run (.new pipefd) (calls.take k) = some (s, rs) →
    epollAio.run .new (calls.take k) = some (e, rs') →
    rs = rs' ∧ ∀ fd flag, fd < maxPollFds → fd ≠ pipefd → PollFlag.Direction flag →
      selectAio.isWatched s fd flag = epollAio.isWatched e fd flag

/-- Both managers after the same calls: the answers to `unwatch_fd` are the same, those to
`is_watched` where the reference says no. -/
theorem run_both {pipefd : Nat} {calls : List Call} (h : Proper pipefd .none calls) :
    ∃ s e rs, selectAio.run (.new pipefd) calls = some (s, rs) ∧
      epollAio.run .new calls = some (e, rs) ∧
      ∀ fd flag, fd < maxPollFds → fd ≠ pipefd → PollFlag.Direction flag →
        (selectAio.isWatched s fd flag = epollAio.isWatched e fd flag ↔
          (Interest.none.run calls).1.covers fd flag = false) := by
  obtain ⟨s, hs, hsw⟩ := (selectAio_simulates pipefd).run (SelectAio.has_new pipefd) h
  obtain ⟨e, he, hew⟩ := (epollAio_simulates pipefd).run EPollAio.has_new h
  refine ⟨s, e, _, hs, he, fun fd flag hfd hne hdir => ?_⟩
  have hse : selectAio.isWatched s fd flag = some ((Interest.none.run calls).1.covers fd flag) :=
    congrArg some (hsw.isWatched hne)
  have hee : epollAio.isWatched e fd flag = some false := hew.isWatched hfd hdir
  rw [hse, hee, Option.some.injEq]

theorem covers_none (fd : Nat) {flag : PollFlag} (h : flag.Direction) :
    Interest.none.covers fd flag = false := by
  cases flag with
  | none | mask => exact h.elim
  | rdonly | wronly | rdwr => rfl

theorem Proper.first {pipefd : Nat} {calls : List Call} (h : Proper pipefd .none calls) :
    calls = [] ∨ ∃ fd flag rest, calls = .watch fd flag :: rest ∧ fd < maxPollFds ∧ fd ≠ pipefd ∧
      flag.Direction := by
  cases calls with
  | nil => exact .inl rfl
  | cons c rest =>
    cases c with
    | watch fd flag => exact .inr ⟨fd, flag, rest, rfl, h.1⟩
    | unwatch fd flag => exact absurd h.1.2.2.2 (by simp [Interest.active, Interest.none])

/-- For all calls that unwatch only what is watched, `unwatch_fd` answers alike, and
`is_watched` where a descriptor is not watched for all of the flag; so the managers agree
over a sequence of calls if and only if it never watches a descriptor. -/
theorem aio_agree_iff (pipefd : Nat) (calls : List Call) (h : Proper pipefd .none calls) :
    (∃ s e rs, selectAio.run (.new pipefd) calls = some (s, rs) ∧
      epollAio.run .new calls = some (e, rs) ∧
      ∀ fd flag, fd < maxPollFds → fd ≠ pipefd → PollFlag.Direction flag →
        (selectAio.isWatched s fd flag = epollAio.isWatched e fd flag ↔
          (Interest.none.run calls).1.covers fd flag = false)) ∧
      (Agree pipefd calls ↔ ∀ fd flag, Call.watch fd flag ∉ calls) := by
  refine ⟨run_both h, ?_⟩
  rcases h.first with rfl | ⟨fd, flag, rest, rfl, hfd, hne, hdir⟩
  · simp only [List.not_mem_nil, not_false_eq_true, implies_true, iff_true]
    intro k s e rs rs' hs he
    obtain ⟨s₀, e₀, rs₀, hs₀, he₀, hw⟩ := run_both h
    rw [List.take_nil, hs₀] at hs
    rw [List.take_nil, he₀] at he
    cases hs
    cases he
    exact ⟨rfl, fun fd flag hfd hne hdir => (hw fd flag hfd hne hdir).mpr (covers_none fd hdir)⟩
  · refine iff_of_false (fun hagree => ?_) fun hno => hno fd flag List.mem_cons_self
    have hone : Proper pipefd .none [.watch fd flag] := ⟨⟨hfd, hne, hdir⟩, trivial⟩
    obtain ⟨s, e, rs, hs, he, hw⟩ := run_both hone
    have := (hw fd flag hfd hne hdir).mp ((hagree 1 s e rs rs hs he).2 fd flag hfd hne hdir)
    simp only [Interest.run, Interest.call, Interest.covers_watch, reduceCtorEq] at this

theorem aio_agree_nothing :
    Proper 3 .none [.watch 5 .rdwr, .unwatch 5 .rdonly] ∧ Agree 3 [] ∧
      ∃ s e, selectAio.run (.new 3) [.watch 5 .rdwr, .unwatch 5 .rdonly] = some (s, [false]) ∧
        epollAio.run .new [.watch 5 .rdwr, .unwatch 5 .rdonly] = some (e, [false]) := by
  have hp : Proper 3 .none [.watch 5 .rdwr, .unwatch 5 .rdonly] := by
    simp [Proper, ProperCall, PollFlag.Direction, maxPollFds, Interest.call, Interest.active,
      Interest.watch, PollFlag.has]
  obtain ⟨⟨s, e, rs, hs, he, -⟩, -⟩ := aio_agree_iff 3 _ hp
  have hrs : rs = [false] := by
    have := congrArg (Option.map Prod.snd) hs
    simpa using this.symm.trans (by rfl : _ = some [false])
  exact ⟨hp, (aio_agree_iff 3 [] trivial).2.mpr (by simp), s, e, hrs ▸ hs, hrs ▸ he⟩

/-- A descriptor watched for reading, in the one manager and not in the other. -/
theorem aio_disagree :
    Proper 3 .none [.watch 5 .rdonly] ∧
      ((selectAio.run (.new 3) [.watch 5 .rdonly]).bind fun r => selectAio.isWatched r.1 5 .rdonly) =
        some true ∧
      ((epollAio.run .new [.watch 5 .rdonly]).bind fun r => epollAio.isWatched r.1 5 .rdonly) =
        some false := by
  refine ⟨?_, rfl, rfl⟩
  simp [Proper, ProperCall, PollFlag.Direction, maxPollFds]

/-! ### The largest descriptor -/

/-- The reading end of the pipe is set, and `highfds_` is the largest descriptor in either
set. -/
structure Bounded (pipefd : Nat) (s : SelectAio) : Prop where
  pipefd_eq : s.pipefd = pipefd
  pipe : s.rfds pipefd = true
  greatest : IsGreatest {fd | s.rfds fd = true ∨ s.wfds fd = true} s.highfds

theorem bounded_new (pipefd : Nat) : Bounded pipefd (.new pipefd) where
  pipefd_eq := rfl
  pipe := by simp [SelectAio.new]
  greatest := by
    refine ⟨.inl (by simp [SelectAio.new]), fun fd hfd => ?_⟩
    rcases hfd with hfd | hfd
    · exact Nat.le_of_eq (by simpa [SelectAio.new] using hfd)
    · exact absurd hfd (by simp [SelectAio.new])

/-- The loop finds the last descriptor set, or stays at the pipe's. -/
theorem scan_spec (r w : Nat → Bool) (d n : Nat) :
    let newh := (List.range n).foldl (fun newh i => if r i then i else if w i then i else newh) d
    (newh = d ∨ r newh = true ∨ w newh = true) ∧ ∀ i < n, r i = true ∨ w i = true → i ≤ newh := by
  induction n with
  | zero => exact ⟨.inl rfl, fun i hi => absurd hi (Nat.not_lt_zero i)⟩
  | succ n ih =>
    simp only [List.range_succ, List.foldl_append, List.foldl_cons, List.foldl_nil]
    obtain ⟨hset, hlast⟩ := ih
    by_cases hn : r n = true ∨ w n = true
    · have hstep : ∀ newh, (if r n then n else if w n then n else newh) = n := by
        intro newh
        rcases hn with hn | hn <;> simp [hn]
      rw [hstep]
      exact ⟨.inr hn, fun i hi _ => Nat.le_of_lt_succ hi⟩
    · have hstep : ∀ newh, (if r n then n else if w n then n else newh) = newh := by
        intro newh
        rw [not_or] at hn
        simp [hn.1, hn.2]
      rw [hstep]
      refine ⟨hset, fun i hi hs => hlast i ?_ hs⟩
      exact Nat.lt_of_le_of_ne (Nat.le_of_lt_succ hi) fun heq => hn (heq ▸ hs)

namespace Bounded
variable {pipefd fd : Nat} {flag : PollFlag} {s : SelectAio}

theorem le (h : Bounded pipefd s) (hfd : s.rfds fd = true ∨ s.wfds fd = true) : fd ≤ s.highfds :=
  h.greatest.2 hfd

theorem watchFd (h : Bounded pipefd s) (fd : Nat) (flag : PollFlag) :
    Bounded pipefd (s.watchFd fd flag) := by
  refine ⟨by simp [h.pipefd_eq], by simp [h.pipe], ?_, fun x hx => ?_⟩
  · -- The larger of the two is in a set: the new descriptor, or the old largest one.
    have hold := h.greatest.1
    have hnew : flag.has .read = true ∨ flag.has .write = true := by cases flag <;> decide
    show (s.watchFd fd flag).rfds _ = true ∨ (s.watchFd fd flag).wfds _ = true
    rw [SelectAio.watchFd_highfds]
    rcases Nat.le_total s.highfds fd with hle | hle
    · rw [Nat.max_eq_right hle]
      rcases hnew with hnew | hnew
      · simp [hnew]
      · simp [hnew]
    · rw [Nat.max_eq_left hle]
      rcases hold with hold | hold
      · simp [hold]
      · simp [hold]
  · rw [SelectAio.watchFd_highfds]
    by_cases hxfd : x = fd
    · exact hxfd ▸ Nat.le_max_right _ _
    · have : s.rfds x = true ∨ s.wfds x = true := by simpa [hxfd] using hx
      exact Nat.le_trans (h.le this) (Nat.le_max_left _ _)

theorem unwatchFd {r : SelectAio × Bool} (h : Bounded pipefd s) (hne : fd ≠ pipefd)
    (hr : s.unwatchFd fd flag = some r) : Bounded pipefd r.1 := by
  obtain ⟨s', hclear, hpipefd, hrfds, hwfds, hret, hhigh⟩ := SelectAio.unwatchFd_eq_some hr
  obtain ⟨-, hpipefd', hhigh', hr', hw'⟩ := SelectAio.clear_eq_some hclear
  have hpipe : s'.rfds pipefd = true := by rw [hr', if_neg (fun hp => hne hp.1.symm), h.pipe]
  have hsub : ∀ x, s'.rfds x = true ∨ s'.wfds x = true → s.rfds x = true ∨ s.wfds x = true := by
    intro x hx
    rw [hr', hw'] at hx
    rcases hx with hx | hx <;> split at hx
    · exact absurd hx (by decide)
    · exact .inl hx
    · exact absurd hx (by decide)
    · exact .inr hx
  refine ⟨hpipefd.trans h.pipefd_eq, by rw [hrfds, hpipe], ?_⟩
  rw [hrfds, hwfds, hhigh]
  split
  · -- The loop ran, up to the old largest descriptor, which bounds the sets.
    obtain ⟨hset, hlast⟩ := scan_spec s'.rfds s'.wfds s'.pipefd (s'.highfds + 1)
    refine ⟨?_, fun x hx => hlast x (by rw [hhigh']; exact Nat.lt_succ_of_le (h.le (hsub x hx))) hx⟩
    rcases hset with hset | hset
    · rw [hpipefd', h.pipefd_eq] at hset
      exact .inl (by rw [SelectAio.newHigh, hpipefd', h.pipefd_eq, hset, hpipe])
    · exact hset
  · rename_i hkeep
    refine ⟨?_, fun x hx => h.le (hsub x hx)⟩
    show s'.rfds s.highfds = true ∨ s'.wfds s.highfds = true
    by_cases hx : fd = s.highfds
    · -- The largest one was unwatched and is in a set all the same.
      rw [← hx]
      by_contra hneither
      rw [not_or, Bool.not_eq_true, Bool.not_eq_true] at hneither
      exact hkeep ⟨by rw [hret, hneither.1, hneither.2]; rfl, hx⟩
    · rw [hr', hw']
      have hx' : ¬ s.highfds = fd := fun heq => hx heq.symm
      simpa [hx'] using h.greatest.1

theorem call {c : Call} {r : SelectAio × List Bool} (h : Bounded pipefd s) (hc : c.fd ≠ pipefd)
    (hr : selectAio.call s c = some r) : Bounded pipefd r.1 := by
  cases c with
  | watch fd flag =>
    obtain rfl := Option.some.inj hr
    exact h.watchFd fd flag
  | unwatch fd flag =>
    obtain ⟨r', hr', rfl⟩ := Option.map_eq_some_iff.mp hr
    exact h.unwatchFd hc hr'

theorem run {calls : List Call} {r : SelectAio × List Bool} (h : Bounded pipefd s)
    (hc : ∀ c ∈ calls, c.fd ≠ pipefd) (hr : selectAio.run s calls = some r) : Bounded pipefd r.1 := by
  induction calls generalizing s r with
  | nil =>
    obtain rfl := Option.some.inj hr
    exact h
  | cons c calls ih =>
    obtain ⟨r₁, h₁, hr⟩ := Option.bind_eq_some_iff.mp hr
    obtain ⟨r₂, h₂, rfl⟩ := Option.map_eq_some_iff.mp hr
    have hrest : ∀ d ∈ calls, d.fd ≠ pipefd := fun d hd => hc d (List.mem_cons_of_mem c hd)
    exact @ih _ r₂ (h.call (hc c List.mem_cons_self) h₁) hrest h₂

/-- `wait_ready` reports the descriptors that are watched and ready, and no others. -/
theorem mem_waitReady (h : Bounded pipefd s) (toRead toWrite : Nat → Bool) (hne : fd ≠ pipefd) :
    (fd ∈ (s.waitReady toRead toWrite).1 ↔ s.rfds fd = true ∧ toRead fd = true) ∧
      (fd ∈ (s.waitReady toRead toWrite).2 ↔ s.wfds fd = true ∧ toWrite fd = true) := by
  have hpipe : (fd == s.pipefd) = false := by simpa [h.pipefd_eq] using hne
  have hr : s.rfds fd = true → fd < s.highfds + 1 := fun hs => Nat.lt_succ_of_le (h.le (.inl hs))
  have hw : s.wfds fd = true → fd < s.highfds + 1 := fun hs => Nat.lt_succ_of_le (h.le (.inr hs))
  constructor
  · simp only [SelectAio.waitReady, SelectAio.select, List.mem_filter, List.mem_range, hpipe,
      Bool.false_and, Bool.not_false, and_true, Bool.and_eq_true, decide_eq_true_eq]
    exact ⟨fun hx => ⟨hx.2.1.2, hx.2.2⟩, fun hx => ⟨hr hx.1, ⟨hr hx.1, hx.1⟩, hx.2⟩⟩
  · simp only [SelectAio.waitReady, SelectAio.select, List.mem_filter, List.mem_range, hpipe,
      Bool.false_and, Bool.not_false, and_true, Bool.and_eq_true, decide_eq_true_eq]
    exact ⟨fun hx => ⟨hx.2.1.2, hx.2.2⟩, fun hx => ⟨hw hx.1, ⟨hw hx.1, hx.1⟩, hx.2⟩⟩

end Bounded

/-- Over any calls of `watch_fd` and `unwatch_fd` on descriptors other than the pipe's,
`highfds_` is the largest descriptor of the two sets, and `wait_ready` reports exactly the
watched descriptors that are ready. -/
theorem highfds_greatest (pipefd : Nat) (calls : List Call) (s : SelectAio) (rs : List Bool)
    (hc : ∀ c ∈ calls, c.fd ≠ pipefd) (hr : selectAio.run (.new pipefd) calls = some (s, rs)) :
    IsGreatest {fd | s.rfds fd = true ∨ s.wfds fd = true} s.highfds ∧ s.rfds pipefd = true ∧
      ∀ toRead toWrite fd, fd ≠ pipefd →
        (fd ∈ (s.waitReady toRead toWrite).1 ↔ s.rfds fd = true ∧ toRead fd = true) ∧
        (fd ∈ (s.waitReady toRead toWrite).2 ↔ s.wfds fd = true ∧ toWrite fd = true) := by
  have h : Bounded pipefd s := (bounded_new pipefd).run hc hr
  exact ⟨h.greatest, h.pipe, fun toRead toWrite fd hne => h.mem_waitReady toRead toWrite hne⟩

theorem highfds_greatest_unwatched :
    ∃ s rs, selectAio.run (.new 3) [.watch 9 .rdwr, .watch 7 .wronly, .unwatch 9 .rdwr] = some (s, rs) ∧
      s.highfds = 7 ∧ IsGreatest {fd | s.rfds fd = true ∨ s.wfds fd = true} s.highfds :=
  ⟨_, _, rfl, rfl, (highfds_greatest 3 [.watch 9 .rdwr, .watch 7 .wronly, .unwatch 9 .rdwr] _ _
    (by decide) rfl).1⟩

end Yfs.Rpc.Aio

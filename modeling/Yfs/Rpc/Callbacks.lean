import Yfs.Rpc.Connection
import Yfs.Rpc.Poll

/-! One connection and the poll manager.

The connection of descriptor `fd` registers itself for reading when it is made, and for
writing when a PDU did not go out at once; the loop of the poll manager runs its callbacks.
Other descriptors come and go meanwhile. A callback is entered when it gets the connection's
mutex: with `write_cb` running and `dead_` true, its `VERIFY(!dead_)` fails.

A callback that fails takes the descriptor out of the poll manager before it sets `dead_`,
and the rest of the loop's turn finds no callback object. `closeconn` and a failing `send`
set `dead_` first and call `block_remove_fd` after that. They are safe only if nothing is
registered or due for writing (`quietDeath`, `write_cb_alive`). -/
namespace Yfs.Rpc.Callbacks
open Base Poll

structure Sys (Ch T : Type) where
  poll : PollMgr Ch T
  conn : Conn T

inductive Act (Ch T : Type) where
  | poll (a : Poll.Act Ch T)
  | conn (a : ConnAct T)

section Sys
variable {Ch T : Type} {fd : Fd} {p p' : PollMgr Ch T} {c c' : Conn T}

def running (fd : Fd) (cb : Cb) (p : PollMgr Ch T) : Bool :=
  p.loop.current.any fun (k, e) => k = cb && e.fd = fd

/-- What others do with the poll manager: they leave `fd` to its connection, whose
callbacks end as its own code says. -/
def ofOthers (fd : Fd) (p : PollMgr Ch T) : Poll.Act Ch T → Bool
  | .addCallback x _ _ | .delCallback x _ | .blockRemoveFd _ x => x ≠ fd
  | .done => !running fd .read p && !running fd .write p
  | _ => true

/-- Callbacks run in the loop, and `block_remove_fd` is waited for. -/
def enabled (fd : Fd) (p : PollMgr Ch T) : ConnAct T → Bool
  | .writeCb _ => running fd .write p
  | .readCb .. => running fd .read p
  | .removed t => (p.waiting t).isNone
  | _ => true

variable [DecidableEq Ch] [DecidableEq T]

/-- The call of the poll manager that a step of the connection makes. -/
def makeCall (fd : Fd) (me : Ch) (p : PollMgr Ch T) (a : ConnAct T) : Option PollCall → Option (PollMgr Ch T)
  | none => some p
  | some .addWrite => p.addCallback fd .wronly me
  | some .delWrite => some (p.delCallback fd .wronly)
  | some .delAll => some (p.delCallback fd .rdwr)
  | some .blockRemove =>
    match a with
    | .remove t => p.step (.blockRemoveFd t fd)
    | _ => none

def leave (p : PollMgr Ch T) : ConnAct T → Option (PollMgr Ch T)
  | .writeCb _ | .readCb .. => p.step .done
  | _ => some p

def step (fd : Fd) (me : Ch) (s : Sys Ch T) : Act Ch T → Option (Sys Ch T)
  | .poll a => if ofOthers fd s.poll a then (s.poll.step a).map fun p => {s with poll := p} else none
  | .conn a =>
    if enabled fd s.poll a then
      (s.conn.step a).bind fun out =>
        (makeCall fd me s.poll a out.2).bind fun p => (leave p a).map fun p => ⟨p, out.1⟩
    else none

def init (fd : Fd) (me : Ch) : Sys Ch T where
  poll := {({} : PollMgr Ch T).watchFd fd .rdonly with callbacks := Function.update (fun _ => none) fd (some me)}
  conn := {}

/-! ### Nothing to write -/

/-- `write_cb` of the descriptor will not be called from here on. -/
structure Calm (fd : Fd) (p : PollMgr Ch T) : Prop where
  unwatched : p.fds .write fd = none
  undue : (∀ reg, ¬ p.loop.Due .write ⟨fd, reg⟩) ∨
    p.callbacks fd = none ∧ ∀ reg, p.loop.current ≠ some (.write, ⟨fd, reg⟩)

omit [DecidableEq Ch] [DecidableEq T] in
theorem Calm.not_running (h : Calm fd p) (reg : Nat) :
    p.loop.current ≠ some (.write, ⟨fd, reg⟩) := by
  rcases h.undue with hdue | ⟨-, hcur⟩
  · exact fun hc => hdue reg (Loop.due_current hc)
  · exact hcur reg

omit [DecidableEq Ch] [DecidableEq T] in
theorem Calm.congr (h : Calm fd p) (hfds : p'.fds .write fd = none)
    (hcallbacks : p.callbacks fd = none → p'.callbacks fd = none) (hloop : p'.loop = p.loop) : Calm fd p' where
  unwatched := hfds
  undue := by
    rw [hloop]
    exact h.undue.imp_right fun ⟨hc, hcur⟩ => ⟨hcallbacks hc, hcur⟩

omit [DecidableEq Ch] [DecidableEq T] in
theorem Calm.goOn (h : Calm fd p) {loop : Loop} (hloop : GoesOn p loop) :
    Calm fd {p with loop := loop} := by
  refine ⟨h.unwatched, ?_⟩
  rcases h.undue with hdue | ⟨hc, -⟩
  · exact .inl fun reg hd => hdue reg (hloop.due _ _ hd)
  · refine .inr ⟨hc, fun reg hcur => ?_⟩
    have hsome := hloop.object _ _ hcur
    rw [hc] at hsome
    cases hsome

/-- **The loop and the others leave a calm descriptor calm.** -/
theorem Calm.step (h : Calm fd p) {a : Poll.Act Ch T}
    (ha : ofOthers fd p a = true) (hs : p.step a = some p') : Calm fd p' := by
  have hne {x : Fd} (hx : decide (x ≠ fd) = true) : fd ≠ x := Ne.symm (of_decide_eq_true hx)
  cases Poll.step_does hs with
  | add x flag ch =>
    refine h.congr ?_ (fun hc => ?_) rfl
    · exact (if_neg fun hx => hne ha hx.1).trans h.unwatched
    · exact (Function.update_of_ne (hne ha) ..).trans hc
  | del x flag =>
    refine h.congr ?_ (fun hc => ?_) rfl
    · exact (if_neg fun hx => hne ha hx.1).trans h.unwatched
    · change (if _ then Function.update p.callbacks x none else p.callbacks) fd = none
      split
      · exact (Function.update_of_ne (hne ha) ..).trans hc
      · exact hc
  | block t x => exact h.congr ((if_neg fun hx => hne ha hx.1).trans h.unwatched) id rfl
  | spurious t w => exact h.congr h.unwatched id rfl
  | resume t w =>
    refine h.congr h.unwatched (fun hc => ?_) rfl
    change Function.update p.callbacks w.fd none fd = none
    by_cases hw : fd = w.fd
    · rw [hw, Function.update_self]
    · rw [Function.update_of_ne hw, hc]
  | top => exact ⟨h.unwatched, .inl fun _ hd => hd.elim⟩
  | waitReady =>
    refine ⟨h.unwatched, .inl fun reg hd => ?_⟩
    change p.fds .write fd = some reg at hd
    rw [h.unwatched] at hd
    cases hd
  | goOn a loop _ hloop => exact h.goOn hloop

theorem calm_delAll (hs : (p.delCallback fd .rdwr).step .done = some p') :
    Calm fd p' := by
  obtain ⟨loop, hloop, rfl⟩ := step_ofLoop rfl hs
  have hgone (cb : Cb) : (p.unwatchFd fd .rdwr).fds cb fd = none := if_pos ⟨rfl, by cases cb <;> rfl⟩
  have hun : (p.unwatchFd fd .rdwr).unwatched fd = true := by
    rw [PollMgr.unwatched, hgone, hgone]
    rfl
  have hcallbacks : (p.delCallback fd .rdwr).callbacks fd = none := by
    change (if (p.unwatchFd fd .rdwr).unwatched fd then Function.update p.callbacks fd none else p.callbacks) fd = none
    rw [if_pos hun, Function.update_self]
  refine ⟨hgone .write, .inr ⟨hcallbacks, fun reg hcur => ?_⟩⟩
  have hsome := hloop.object _ _ hcur
  rw [hcallbacks] at hsome
  cases hsome

/-! ### How a connection dies -/

def isCallback : ConnAct T → Bool
  | .writeCb _ | .readCb .. => true
  | _ => false

theorem writepdu_failed {w : CharBuf} {r : WriteRes} {m : Moved} (h : w.writepdu r = some m)
    (hfail : m.succ = false) : r = .failed := by
  unfold CharBuf.writepdu at h
  obtain ⟨-, h⟩ := Option.ite_none_left_eq_some.mp h
  split at h
  · cases h
    cases hfail
  · obtain ⟨b, -, h⟩ := Option.bind_eq_some_iff.mp h
    cases r with
    | wrote n =>
      obtain ⟨-, h⟩ := Option.ite_none_right_eq_some.mp h
      cases h
      cases hfail
    | again =>
      cases h
      cases hfail
    | failed => rfl

/-- A connection is killed by `closeconn`, by the first write of a `send`, or by a callback
that takes its descriptor out of the poll manager. -/
theorem dies_cases {a : ConnAct T} {out : Conn T × Option PollCall} (hs : c.step a = some out)
    (halive : c.dead = false) (hdead : out.1.dead = true) :
    (∃ t, a = .closeconn t ∧ out.2 = none) ∨
      (∃ t, a = .channel t .failed ∧ c.wpdu.buf = none ∧ out.2 = none) ∨
      isCallback a = true ∧ out.2 = some .delAll := by
  have hsame {d : Bool} (hd : d = c.dead) (ht : d = true) : False := by
    rw [hd, halive] at ht
    cases ht
  cases a with
  | send t p =>
    simp only [Conn.step] at hs
    split at hs
    · cases hs
      exact (hsame rfl hdead).elim
    · cases hs
  | channel t r =>
    simp only [Conn.step] at hs
    split at hs
    · split at hs
      · cases hs
        exact (hsame rfl hdead).elim
      · obtain ⟨hfree, hs⟩ := Option.ite_none_right_eq_some.mp hs
        obtain ⟨m, hm, rfl⟩ := Option.map_eq_some_iff.mp hs
        dsimp only at hdead ⊢
        split at hdead
        · rename_i hfail
          have hr : r = .failed := writepdu_failed hm hfail
          subst hr
          rw [if_pos hfail]
          exact .inr (.inl ⟨t, rfl, hfree, rfl⟩)
        · split at hdead
          · exact (hsame rfl hdead).elim
          · exact (hsame rfl hdead).elim
    · cases hs
  | complete t =>
    simp only [Conn.step] at hs
    split at hs
    · obtain ⟨-, hs⟩ := Option.ite_none_right_eq_some.mp hs
      cases hs
      exact (hsame rfl hdead).elim
    · cases hs
  | remove t =>
    simp only [Conn.step] at hs
    split at hs
    · cases hs
      exact (hsame rfl hdead).elim
    · cases hs
  | removed t =>
    simp only [Conn.step] at hs
    split at hs
    · cases hs
      exact (hsame rfl hdead).elim
    · cases hs
      exact (hsame rfl hdead).elim
    · cases hs
  | closeconn t =>
    simp only [Conn.step] at hs
    split at hs
    · cases hs
      exact .inl ⟨t, rfl, rfl⟩
    · cases hs
  | writeCb r =>
    refine .inr (.inr ⟨rfl, ?_⟩)
    obtain ⟨-, hs⟩ := Option.ite_none_left_eq_some.mp hs
    split at hs
    · cases hs
      exact (hsame rfl hdead).elim
    · obtain ⟨m, -, rfl⟩ := Option.map_eq_some_iff.mp hs
      split at hdead
      · exact (hsame rfl hdead).elim
      · rename_i hfail
        rw [if_neg hfail]
  | readCb size body stale accept =>
    refine .inr (.inr ⟨rfl, ?_⟩)
    simp only [Conn.step, Conn.readCb] at hs
    split at hs
    · cases hs
      exact (hsame rfl hdead).elim
    · split at hs
      · obtain ⟨m, -, rfl⟩ := Option.map_eq_some_iff.mp hs
        split at hdead
        · obtain ⟨_, _, he⟩ := offer_frame {c with rpdu := m.pdu, taken := c.taken ++ m.bytes} accept
          rw [he] at hdead
          exact (hsame rfl hdead).elim
        · rename_i hfail
          rw [if_neg hfail]
      · cases hs
        obtain ⟨_, _, he⟩ := offer_frame c accept
        rw [he] at hdead
        exact (hsame rfl hdead).elim

/-- A dead connection makes no call but `block_remove_fd`. -/
theorem call_of_dead {call : Option PollCall} (h : Does c c' call) (hdead : c.dead = true) :
    call = none ∨ call = some .blockRemove := by
  have hnot : c.dead ≠ false := by
    rw [hdead]
    decide
  cases h with
  | put t p call hp hcall => exact hcall
  | same => exact .inl rfl
  | clear t hout => exact .inl rfl
  | close t halive => exact .inl rfl
  | first t p r out halive hfree hfirst => exact absurd halive hnot
  | write r out hwrite =>
    obtain ⟨halive, -⟩ := Option.ite_none_left_eq_some.mp hwrite
    exact absurd hdead halive
  | read size body stale accept out hread =>
    unfold Conn.readCb at hread
    rw [if_pos hdead] at hread
    cases hread
    exact .inl rfl

/-! ### The condition -/

/-- `write_cb` of the descriptor may be called before the loop is at its top again. -/
def due (fd : Fd) : Loop → Bool
  | .top | .wait => false
  | .select fds => (fds .write fd).isSome
  | .dispatch _ writable => writable.any (·.fd == fd)
  | .running cb now _ writable => (cb == .write && now.fd == fd) || writable.any (·.fd == fd)

/-- Nothing is registered for writing, and nothing due. -/
def quiet (fd : Fd) (p : PollMgr Ch T) : Bool := (p.fds .write fd).isNone && !due fd p.loop

/-- The condition on a step: `closeconn` and a failing `send` kill a connection only when
it is quiet. -/
def quietDeath (fd : Fd) (s : Sys Ch T) : Act Ch T → Bool
  | .conn (.closeconn _) => s.conn.dead || quiet fd s.poll
  | .conn (.channel _ .failed) => s.conn.dead || s.conn.wpdu.buf.isSome || quiet fd s.poll
  | _ => true

omit [DecidableEq Ch] [DecidableEq T] in
theorem calm_of_quiet (h : quiet fd p = true) : Calm fd p := by
  rw [quiet, Bool.and_eq_true, Option.isNone_iff_eq_none, Bool.not_eq_true'] at h
  refine ⟨h.1, .inl fun reg hd => ?_⟩
  have hmem {l : List Ready} (hl : ⟨fd, reg⟩ ∈ l) : l.any (·.fd == fd) = true :=
    List.any_eq_true.mpr ⟨_, hl, beq_self_eq_true fd⟩
  have hdue : due fd p.loop = true := by
    cases hloop : p.loop with
    | top =>
      rw [hloop] at hd
      exact hd.elim
    | wait =>
      rw [hloop] at hd
      exact hd.elim
    | select fds =>
      rw [hloop] at hd
      exact Option.isSome_of_eq_some hd
    | dispatch readable writable =>
      rw [hloop] at hd
      exact hmem hd
    | running cb now readable writable =>
      rw [hloop] at hd
      rcases hd with ⟨rfl, rfl⟩ | hl
      · simp [due]
      · rw [due, hmem hl, Bool.or_true]
  rw [h.2] at hdue
  cases hdue

/-- A dead connection has a calm descriptor. -/
structure Quiet (fd : Fd) (s : Sys Ch T) : Prop where
  first : DeadFirst s.conn
  calm : s.conn.dead = true → Calm fd s.poll

omit [DecidableEq Ch] [DecidableEq T] in
theorem quiet_init (fd : Fd) (me : Ch) : Quiet fd (init fd me : Sys Ch T) := ⟨nofun, nofun⟩

theorem Calm.leave (h : Calm fd p) {a : ConnAct T} (hs : leave p a = some p') :
    Calm fd p' := by
  have hdone (hs : p.step .done = some p') : Calm fd p' := by
    obtain ⟨loop, hloop, rfl⟩ := step_ofLoop rfl hs
    exact h.goOn hloop
  cases a with
  | writeCb r => exact hdone hs
  | readCb size body stale accept => exact hdone hs
  | _ =>
    cases hs
    exact h

theorem Calm.makeCall {me : Ch} (h : Calm fd p) {a : ConnAct T}
    {call : Option PollCall} (hcall : call = none ∨ call = some .blockRemove)
    (hs : makeCall fd me p a call = some p') : Calm fd p' := by
  rcases hcall with rfl | rfl
  · cases hs
    exact h
  · cases a with
    | remove t =>
      obtain ⟨-, hs⟩ := Option.ite_none_right_eq_some.mp hs
      cases hs
      exact h.congr (if_pos ⟨rfl, rfl⟩) id rfl
    | _ => cases hs

theorem Quiet.conn {me : Ch} {s : Sys Ch T} (h : Quiet fd s) {a : ConnAct T}
    (ha : quietDeath fd s (.conn a) = true) {out : Conn T × Option PollCall} (hout : s.conn.step a = some out)
    (hp : makeCall fd me s.poll a out.2 = some p) (hp' : leave p a = some p') :
    Quiet fd ⟨p', out.1⟩ := by
  have hdoes : Does s.conn out.1 out.2 := step_does h.first hout
  refine ⟨h.first.does hdoes, fun hdead => ?_⟩
  change out.1.dead = true at hdead
  cases hc : s.conn.dead with
  | true => exact ((h.calm hc).makeCall (call_of_dead hdoes hc) hp).leave hp'
  | false =>
    rcases dies_cases hout hc hdead with ⟨t, rfl, hnone⟩ | ⟨t, rfl, hfree, hnone⟩ | ⟨hcb, hall⟩
    · have hquiet : quiet fd s.poll = true := by simpa [quietDeath, hc] using ha
      exact ((calm_of_quiet hquiet).makeCall (.inl hnone) hp).leave hp'
    · have hquiet : quiet fd s.poll = true := by simpa [quietDeath, hc, hfree] using ha
      exact ((calm_of_quiet hquiet).makeCall (.inl hnone) hp).leave hp'
    · rw [hall] at hp
      cases hp
      cases a with
      | writeCb r => exact calm_delAll hp'
      | readCb size body stale accept => exact calm_delAll hp'
      | _ => cases hcb

/-- **Every step that meets the condition leaves the descriptors of the dead calm.** -/
theorem Quiet.step {me : Ch} {s s' : Sys Ch T} (h : Quiet fd s) {a : Act Ch T}
    (ha : quietDeath fd s a = true) (hs : step fd me s a = some s') : Quiet fd s' := by
  cases a with
  | poll a =>
    obtain ⟨hothers, hs⟩ := Option.ite_none_right_eq_some.mp hs
    obtain ⟨p, hp, rfl⟩ := Option.map_eq_some_iff.mp hs
    exact ⟨h.first, fun hdead => (h.calm hdead).step hothers hp⟩
  | conn a =>
    obtain ⟨-, hs⟩ := Option.ite_none_right_eq_some.mp hs
    obtain ⟨out, hout, hs⟩ := Option.bind_eq_some_iff.mp hs
    obtain ⟨p, hp, hs⟩ := Option.bind_eq_some_iff.mp hs
    obtain ⟨p', hp', rfl⟩ := Option.map_eq_some_iff.mp hs
    exact h.conn ha hout hp hp'

/-- **`write_cb` is never entered with `dead_` true** in a run where `closeconn` and a
failing `send` find nothing registered or due for writing. -/
theorem write_cb_alive {fd : Fd} {me : Ch} {s : Sys Ch T}
    (h : Steps (step fd me) (fun s a => quietDeath fd s a = true) (init fd me) s) {reg : Nat}
    (hrun : s.poll.loop.current = some (.write, ⟨fd, reg⟩)) : s.conn.dead = false := by
  have hquiet : Quiet fd s := h.invariant (quiet_init fd me) fun _ _ _ hi ha hs => hi.step ha hs
  cases hdead : s.conn.dead with
  | false => rfl
  | true => exact absurd hrun ((hquiet.calm hdead).not_running reg)

end Sys

/-- A PDU goes out in two parts, and `write_cb` is entered for the second. -/
theorem write_cb_alive_partial :
    ∃ s : Sys Nat Nat, Steps (step 3 7) (fun s a => quietDeath 3 s a = true) (init 3 7) s ∧
      s.poll.loop.current = some (.write, ⟨3, 0⟩) ∧ s.conn.dead = false := by
  obtain ⟨s, hs, hcur⟩ : ∃ s : Sys Nat Nat,
      Steps (step 3 7) (fun s a => quietDeath 3 s a = true) (init 3 7) s ∧
        s.poll.loop.current = some (.write, ⟨3, 0⟩) :=
    Steps.exists_of_run
      [.conn (.send 0 (.small 1)), .conn (.channel 0 (.wrote 10)), .poll .top, .poll .waitReady,
        .poll (.ready [] [3]), .poll .call]
      (by decide +kernel)
  exact ⟨s, hs, hcur, write_cb_alive hs hcur⟩

/-- A PDU is out in part and the loop has found the socket writable. `closeconn` sets
`dead_`, and before it comes to `block_remove_fd` the loop calls `write_cb`. The same
happens when the PDU went out since, for its registration stays until the next `write_cb`,
and a later `send` fails. -/
theorem write_cb_enters_dead :
    (∃ s : Sys Nat Nat, Steps (step 3 7) anyMove (init 3 7) s ∧
      s.poll.loop.current = some (.write, ⟨3, 0⟩) ∧ s.conn.dead = true) ∧
    ∃ s : Sys Nat Nat, Steps (step 3 7) anyMove (init 3 7) s ∧
      s.poll.loop.current = some (.write, ⟨3, 0⟩) ∧ s.conn.dead = true := by
  constructor
  · exact Steps.exists_of_run
      [.conn (.send 0 (.small 1)), .conn (.channel 0 (.wrote 10)), .poll .top, .poll .waitReady,
        .poll (.ready [] [3]), .conn (.closeconn 1), .poll .call]
      (by decide +kernel)
  · exact Steps.exists_of_run
      [.conn (.send 0 (.small 1)), .conn (.channel 0 (.wrote 10)), .poll .top, .poll .waitReady,
        .poll (.ready [] [3]), .poll .call, .conn (.writeCb (.wrote 14)), .conn (.complete 0), .poll .call,
        .poll .top, .poll .waitReady, .poll (.ready [] [3]), .conn (.send 0 (.small 1)),
        .conn (.channel 0 .failed), .poll .call]
      (by decide +kernel)

end Yfs.Rpc.Callbacks

import Yfs.Base.Runs
import Yfs.Base.Table
import Yfs.Rpc.Server
import Yfs.Rpc.Untrusted

/-! Connection references of the server (`rpcs::got_pdu`, `rpcs::dispatch`).

A `connection` counts its references in `refno_`. Three kinds of holders have one: the
listener that accepted it, each job from `got_pdu` to the end of `dispatch`, and each
entry of `conns_`, the latest connection of every client. A job may exchange its
connection for the latest one on its way.

`Balanced` says that `refno_` is the number of holders of each connection, and that no
pointer which a job will follow is null or dangling. Every exit of `dispatch` keeps it but
the one for requests to an old server, which returns without `decref`
(`references_balanced`). -/
namespace Yfs.Rpc.Dispatch
open Base
open Function (update update_of_ne update_self)

/-- What `connection` has to do with references: `refno_`, `dead_`, `create_time_`. -/
structure Conn where
  refno : Int := 1
  dead : Bool := false
  sec : Int
  usec : Int
  deriving DecidableEq

/-- `connection::compare`. -/
def Conn.compare (a b : Conn) : Int :=
  if a.sec > b.sec then 1
  else if a.sec < b.sec then -1
  else if a.usec > b.usec then 1
  else if a.usec < b.usec then -1
  else 0

/-- Where a job is: in the pool's queue with its buffer, or deleted there; in `dispatch`
before `conns_` is looked at, before the duplicate check, before the handler, before the
latest connection is taken, before `send`, before the last `decref`. -/
inductive Pc where
  | queued (buf : Nat → Byte) (sz : Nat)
  | deleted
  | saveConn (h : ReqHeader)
  | check (h : ReqHeader)
  | fn (h : ReqHeader)
  | latestConn (h : ReqHeader)
  | send
  | last

/-- The request a job has found to be good, from the duplicate check to its reply. -/
def Pc.request : Pc → Option ReqHeader
  | .check h | .fn h | .latestConn h => some h
  | _ => none

/-- The connections that exist, those the listener holds, `conns_` (`none` is NULL), and
the jobs with the connection and the place of each. `fault` is set when a pointer to
nothing is followed or a count falls below 0, `aborted` by another `VERIFY`. -/
structure Refs (C K : Type) where
  heap : C → Option Conn := fun _ => none
  owned : C → Bool := fun _ => false
  conns : Table (BitVec 32) (Option C) := ∅
  jobs : Table K C := ∅
  pc : K → Pc := fun _ => .deleted
  fault : Bool := false
  aborted : Bool := false

/-- One step: the listener accepts a connection; a connection dies; the listener drops
one; `got_pdu` on a reachable server, with the answer of `addObjJob` and whether
`reachable_` was false when it was read again; the next part of a job. -/
inductive Act (C K : Type) where
  | accept (c : C) (sec usec : Int)
  | die (c : C)
  | disown (c : C)
  | gotPdu (c : C) (j : K) (buf : Nat → Byte) (sz : Nat) (succ late : Bool)
  | dispatch (j : K)
  | saveConn (j : K)
  | check (j : K) (stat : RpcState Unit)
  | fn (j : K) (good : Bool)
  | latestConn (j : K)
  | send (j : K)
  | last (j : K)

/-- `refno_ --`, and `delete this` for the last reference to a dead connection. -/
def Conn.drop (o : Conn) : Option Conn :=
  if o.refno - 1 = 0 ∧ o.dead then none else some {o with refno := o.refno - 1}

section Refs
variable {C K : Type} [DecidableEq C]

namespace Refs

def use (s : Refs C K) (c : C) : Refs C K := {s with fault := s.fault || (s.heap c).isNone}

/-- `connection::incref`. -/
def incref (s : Refs C K) (c : C) : Refs C K :=
  {s with
    heap := update s.heap c ((s.heap c).map fun o => {o with refno := o.refno + 1})
    fault := s.fault || (s.heap c).isNone}

/-- `connection::decref`. -/
def decref (s : Refs C K) (c : C) : Refs C K :=
  {s with
    heap := update s.heap c ((s.heap c).bind Conn.drop)
    fault := s.fault || (s.heap c).all fun o => o.refno - 1 < 0}

variable [DecidableEq K]

def goto (s : Refs C K) (j : K) (pc : Pc) : Refs C K := {s with pc := update s.pc j pc}

def finish (s : Refs C K) (j : K) (c : C) : Refs C K := {s.decref c with jobs := s.jobs.erase j}

def enqueue (s : Refs C K) (j : K) (c : C) (pc : Pc) : Refs C K :=
  {s.goto j pc with jobs := s.jobs.insert j c}

/-- `rpcs::got_pdu`. -/
def gotPdu (s : Refs C K) (c : C) (j : K) (buf : Nat → Byte) (sz : Nat) (succ late : Bool) : Refs C K :=
  match succ, late with
  | true, false => (s.incref c).enqueue j c (.queued buf sz)
  | true, true => ((s.incref c).enqueue j c .deleted).decref c
  | false, _ => (s.incref c).decref c

/-- `rpcs::dispatch` up to the handler's lookup. -/
def dispatch (nonce : BitVec 32) (procs : BitVec 32 → Bool) (s : Refs C K) (j : K) (c : C)
    (buf : Nat → Byte) (sz : Nat) : Refs C K :=
  match Unmarshall.unpackReqHeader (Unmarshall.new buf sz) with
  | none => {s with fault := true}
  | some (h, req) =>
    if req.ok = false then s.finish j c
    else if h.srvNonce ≠ 0 ∧ h.srvNonce ≠ nonce then
      -- the failure is sent, and the function returns
      {s.use c with jobs := s.jobs.erase j}
    else if procs h.proc = false then {s.finish j c with aborted := true}
    else s.goto j (if h.cltNonce = 0 then .fn h else .saveConn h)

def saveConn (s : Refs C K) (c : C) (n : BitVec 32) : Refs C K :=
  match s.conns.lookup n with
  | none => {s.incref c with conns := s.conns.insert n (some c)}
  | some none => {s with fault := true}
  | some (some d) =>
    match s.heap d, s.heap c with
    | some old, some new =>
      if old.compare new < 0 then {(s.decref d).incref c with conns := s.conns.insert n (some c)} else s
    | _, _ => {s with fault := true}

/-- The latest connection to the client is taken if the job's own is dead. A missing entry
is NULL, for `operator[]` makes one. -/
def latestConn (s : Refs C K) (j : K) (c : C) (n : BitVec 32) : Refs C K :=
  match s.heap c with
  | none => {s with fault := true}
  | some o =>
    if o.dead then
      match s.conns.lookup n with
      | some (some d) => if c = d then s else {(s.decref c).incref d with jobs := s.jobs.insert j d}
      | _ => {s.decref c with conns := s.conns.insert n none, fault := true}
    else s

def pcOf (h : ReqHeader) : RpcState Unit → Pc
  | .new => .fn h
  | .inprogress => .last
  | .done _ | .forgotten => .send

/-- One step. A process that has failed takes none. -/
def step (nonce : BitVec 32) (procs : BitVec 32 → Bool) (s : Refs C K) (a : Act C K) :
    Option (Refs C K) :=
  if s.fault || s.aborted then none
  else match a with
  | .accept c sec usec =>
    if s.heap c = none then
      some {s with
        heap := update s.heap c (some {sec, usec})
        owned := update s.owned c true}
    else none
  | .die c =>
    (s.heap c).map fun o => {s with heap := update s.heap c (some {o with dead := true})}
  | .disown c =>
    if s.owned c then some {s.decref c with owned := update s.owned c false} else none
  | .gotPdu c j buf sz succ late =>
    if s.heap c = none ∨ s.jobs.lookup j ≠ none then none else some (s.gotPdu c j buf sz succ late)
  | .dispatch j =>
    (s.jobs.lookup j).bind fun c =>
      match s.pc j with
      | .queued buf sz => some (s.dispatch nonce procs j c buf sz)
      | .deleted => some {s with fault := true}
      | _ => none
  | .saveConn j =>
    (s.jobs.lookup j).bind fun c =>
      match s.pc j with
      | .saveConn h => some ((s.saveConn c h.cltNonce).goto j (.check h))
      | _ => none
  | .check j stat =>
    (s.jobs.lookup j).bind fun _ =>
      match s.pc j with
      | .check h => some (s.goto j (pcOf h stat))
      | _ => none
  | .fn j good =>
    (s.jobs.lookup j).bind fun _ =>
      match s.pc j with
      | .fn h => some (if good then s.goto j (.latestConn h) else {s with aborted := true})
      | _ => none
  | .latestConn j =>
    (s.jobs.lookup j).bind fun c =>
      match s.pc j with
      | .latestConn h => some ((s.latestConn j c h.cltNonce).goto j .send)
      | _ => none
  | .send j =>
    (s.jobs.lookup j).bind fun c =>
      match s.pc j with
      | .send => some ((s.use c).goto j .last)
      | _ => none
  | .last j =>
    (s.jobs.lookup j).bind fun c =>
      match s.pc j with
      | .last => some (s.finish j c)
      | _ => none

/-- `refno_`, nothing if there is no connection. -/
def refno (s : Refs C K) (c : C) : Int := (s.heap c).elim 0 Conn.refno

/-- How many hold a connection: the listener, the jobs, the entries of `conns_`. -/
def refs (s : Refs C K) (c : C) : Int :=
  (if s.owned c then 1 else 0) + s.jobs.count c + s.conns.count (some c)

end Refs

/-! ### Counting up and down -/

section Count
variable {s : Refs C K} {c : C} {o : Conn}

omit [DecidableEq C] in
theorem refno_eq (h : s.heap c = some o) : s.refno c = o.refno := by
  rw [Refs.refno, h]
  rfl

omit [DecidableEq C] in
theorem use_fault (h : s.heap c = some o) : (s.use c).fault = s.fault := by
  simp [Refs.use, h]

theorem incref_fault (h : s.heap c = some o) : (s.incref c).fault = s.fault := by
  simp [Refs.incref, h]

theorem decref_fault (h : s.heap c = some o) (hpos : 1 ≤ o.refno) : (s.decref c).fault = s.fault := by
  have hle : ¬ o.refno - 1 < 0 := by omega
  change (s.fault || (s.heap c).all fun o => decide (o.refno - 1 < 0)) = s.fault
  rw [h, Option.all_some, decide_eq_false hle, Bool.or_false]

theorem incref_refno (h : s.heap c = some o) (d : C) :
    (s.incref c).refno d = s.refno d + if d = c then 1 else 0 := by
  by_cases hd : d = c
  · subst hd
    simp [Refs.refno, Refs.incref, h]
  · simp [Refs.refno, Refs.incref, hd]

theorem drop_refno (o : Conn) : o.drop.elim 0 Conn.refno = o.refno - 1 := by
  unfold Conn.drop
  split
  · rename_i h
    exact h.1.symm
  · rfl

theorem decref_refno (h : s.heap c = some o) (d : C) :
    (s.decref c).refno d = s.refno d - if d = c then 1 else 0 := by
  by_cases hd : d = c
  · subst hd
    simp [Refs.refno, Refs.decref, h, drop_refno]
  · simp [Refs.refno, Refs.decref, hd]

theorem decref_heap_ne {d : C} (h : d ≠ c) : (s.decref c).heap d = s.heap d := update_of_ne h ..

end Count

/-! ### Balance -/

/-- Every count is the number of holders, and no null or deleted pointer will be followed. -/
structure Balanced (s : Refs C K) [DecidableEq K] : Prop where
  sound : s.fault = false
  counted : ∀ c, s.refno c = s.refs c
  stored : ∀ n, s.conns.lookup n ≠ some none
  saved : ∀ j h, (s.pc j).request = some h → h.cltNonce ≠ 0 → s.conns.lookup h.cltNonce ≠ none
  queued : ∀ j c, s.jobs.lookup j = some c → s.pc j ≠ .deleted

variable [DecidableEq K]

theorem balanced_init : Balanced ({} : Refs C K) where
  sound := rfl
  counted _ := rfl
  stored := nofun
  saved := nofun
  queued := nofun

theorem refs_of_job {s : Refs C K} {j : K} {c : C} (h : s.jobs.lookup j = some c) : 1 ≤ s.refs c := by
  have := Table.count_pos h
  unfold Refs.refs
  split <;> omega

omit [DecidableEq K] in
theorem refs_of_conns {s : Refs C K} {n : BitVec 32} {c : C} (h : s.conns.lookup n = some (some c)) :
    1 ≤ s.refs c := by
  have := Table.count_pos h
  unfold Refs.refs
  split <;> omega

/-- Who is held exists. -/
theorem Balanced.alive {s : Refs C K} (h : Balanced s) {c : C} (hc : 1 ≤ s.refs c) :
    ∃ o, s.heap c = some o ∧ 1 ≤ o.refno := by
  have hcount := h.counted c
  cases ho : s.heap c with
  | none =>
    rw [Refs.refno, ho, Option.elim_none] at hcount
    omega
  | some o =>
    rw [refno_eq ho] at hcount
    exact ⟨o, rfl, by omega⟩

/-- A job goes on to a place where it needs no entry of `conns_` that is not there. -/
theorem Balanced.goto {s : Refs C K} (h : Balanced s) (j : K) {pc : Pc} (hpc : pc ≠ .deleted)
    (hsaved : ∀ r, pc.request = some r → r.cltNonce ≠ 0 → s.conns.lookup r.cltNonce ≠ none) :
    Balanced (s.goto j pc) where
  sound := h.sound
  counted := h.counted
  stored := h.stored
  saved k r hr := by
    change (update s.pc j pc k).request = some r at hr
    by_cases hk : k = j
    · subst hk
      rw [update_self] at hr
      exact hsaved r hr
    · rw [update_of_ne hk] at hr
      exact h.saved k r hr
  queued k c hc := by
    change update s.pc j pc k ≠ .deleted
    by_cases hk : k = j
    · subst hk
      rwa [update_self]
    · rw [update_of_ne hk]
      exact h.queued k c hc

theorem Balanced.finish {s : Refs C K} (h : Balanced s) {j : K} {c : C} (hj : s.jobs.lookup j = some c) :
    Balanced (s.finish j c) := by
  obtain ⟨o, ho, hpos⟩ := h.alive (refs_of_job hj)
  refine ⟨(decref_fault ho hpos).trans h.sound, fun d => ?_, h.stored, h.saved, fun k e hk => ?_⟩
  · have hrefno : (s.finish j c).refno d = s.refno d - if d = c then 1 else 0 := decref_refno ho d
    have hrefs : (s.finish j c).refs d =
        (if s.owned d then 1 else 0) + (Table.count (s.jobs.erase j) d : Int) + s.conns.count (some d) := rfl
    rw [hrefno, hrefs, h.counted d, Refs.refs, Table.count_erase_eq, hj]
    simp only [Option.some.injEq, eq_comm (a := d)]
    omega
  · change (s.jobs.erase j).lookup k = some e at hk
    rw [Table.lookup_erase_eq] at hk
    split at hk
    · cases hk
    · exact h.queued k e hk

theorem Balanced.enqueue {s : Refs C K} (h : Balanced s) {c : C} {o : Conn} (ho : s.heap c = some o)
    {j : K} (hj : s.jobs.lookup j = none) (buf : Nat → Byte) (sz : Nat) :
    Balanced ((s.incref c).enqueue j c (.queued buf sz)) := by
  have hgoto : Balanced (s.goto j (.queued buf sz)) := h.goto j nofun nofun
  refine ⟨(incref_fault ho).trans h.sound, fun d => ?_, h.stored, hgoto.saved, fun k e hk => ?_⟩
  · have hrefno : ((s.incref c).enqueue j c (.queued buf sz)).refno d = s.refno d + if d = c then 1 else 0 :=
      incref_refno ho d
    have hrefs : ((s.incref c).enqueue j c (.queued buf sz)).refs d =
        (if s.owned d then 1 else 0) + (Table.count (s.jobs.insert j c) d : Int) + s.conns.count (some d) := rfl
    rw [hrefno, hrefs, h.counted d, Refs.refs, Table.count_insert_eq, hj]
    simp only [reduceCtorEq, if_false, eq_comm (a := d)]
    omega
  · change update s.pc j (.queued buf sz) k ≠ .deleted
    change (s.jobs.insert j c).lookup k = some e at hk
    rw [Table.lookup_insert_eq] at hk
    by_cases hkj : k = j
    · subst hkj
      rw [update_self]
      exact nofun
    · rw [if_neg hkj] at hk
      rw [update_of_ne hkj]
      exact h.queued k e hk

theorem Balanced.incref_decref {s : Refs C K} (h : Balanced s) {c : C} {o : Conn} (ho : s.heap c = some o) :
    Balanced ((s.incref c).decref c) := by
  have ho' : (s.incref c).heap c = some {o with refno := o.refno + 1} := by simp [Refs.incref, ho]
  have hpos : 1 ≤ o.refno + 1 := by
    have hcount := h.counted c
    rw [refno_eq ho, Refs.refs] at hcount
    split at hcount <;> omega
  refine ⟨(decref_fault ho' hpos).trans ((incref_fault ho).trans h.sound), fun d => ?_, h.stored, h.saved,
    h.queued⟩
  rw [decref_refno ho' d, incref_refno ho d, Int.add_sub_cancel]
  exact h.counted d

/-! ### The parts of a job -/

/-- The condition on a step: no request is for an old server, the server stays reachable
through `got_pdu`, and no request without at-most-once finds its connection dead when it
is about to reply. -/
def sane (nonce : BitVec 32) (s : Refs C K) : Act C K → Bool
  | .gotPdu _ _ _ _ succ late => !(succ && late)
  | .dispatch j =>
    match s.pc j with
    | .queued buf sz =>
      (Unmarshall.unpackReqHeader (Unmarshall.new buf sz)).all fun (h, req) =>
        !req.ok || h.srvNonce == 0 || h.srvNonce == nonce
    | _ => true
  | .latestConn j =>
    match s.pc j with
    | .latestConn h => h.cltNonce != 0 || !((s.jobs.lookup j).bind s.heap).any Conn.dead
    | _ => true
  | _ => true

section Steps
variable {nonce : BitVec 32} {procs : BitVec 32 → Bool} {s : Refs C K} {j : K} {c : C}

theorem Balanced.gotPdu (h : Balanced s) {o : Conn} (ho : s.heap c = some o) (hj : s.jobs.lookup j = none)
    {buf : Nat → Byte} {sz : Nat} {succ late : Bool} (hsane : sane nonce s (.gotPdu c j buf sz succ late) = true) :
    Balanced (s.gotPdu c j buf sz succ late) := by
  cases succ with
  | true =>
    cases late with
    | true => cases hsane
    | false => exact h.enqueue ho hj buf sz
  | false => exact h.incref_decref ho

theorem Balanced.dispatch (h : Balanced s) (hj : s.jobs.lookup j = some c) {buf : Nat → Byte} {sz : Nat}
    (hpc : s.pc j = .queued buf sz) (hsane : sane nonce s (.dispatch j) = true) :
    Balanced (s.dispatch nonce procs j c buf sz) := by
  obtain ⟨_, hrun, -⟩ := Untrusted.header_run (x := .reqHeader) (by decide) (Unmarshall.new buf sz)
  obtain ⟨⟨r, req⟩, hread, -⟩ := Option.map_eq_some_iff.mp hrun
  simp only [sane, hpc, hread, Option.all_some, Bool.or_eq_true, Bool.not_eq_true', beq_iff_eq] at hsane
  unfold Refs.dispatch
  rw [hread]
  dsimp only
  split
  · exact h.finish hj
  · rename_i hok
    split
    · rename_i hold
      rcases hsane with (hbad | hzero) | hsame
      · exact absurd hbad hok
      · exact absurd hzero hold.1
      · exact absurd hsame hold.2
    · split
      · have hdone := h.finish hj
        exact ⟨hdone.sound, hdone.counted, hdone.stored, hdone.saved, hdone.queued⟩
      · split
        · rename_i hclt
          refine h.goto j nofun fun r' hr hne => ?_
          cases hr
          exact absurd hclt hne
        · exact h.goto j nofun nofun

omit [DecidableEq C] in
/-- An entry of `conns_` is written. -/
theorem lookup_stored {conns : Table (BitVec 32) (Option C)} {n : BitVec 32} (c : C)
    (h : ∀ n, conns.lookup n ≠ some none) (m : BitVec 32) :
    (conns.insert n (some c)).lookup m ≠ some none := by
  rw [Table.lookup_insert_eq]
  split
  · exact nofun
  · exact h m

omit [DecidableEq C] in
theorem lookup_saved {conns : Table (BitVec 32) (Option C)} {n m : BitVec 32} (c : C)
    (h : conns.lookup m ≠ none) : (conns.insert n (some c)).lookup m ≠ none := by
  rw [Table.lookup_insert_eq]
  split
  · exact nofun
  · exact h

theorem Balanced.saveConn (h : Balanced s) (hj : s.jobs.lookup j = some c) (n : BitVec 32) :
    Balanced (s.saveConn c n) ∧ (s.saveConn c n).conns.lookup n ≠ none := by
  obtain ⟨o, ho, hpos⟩ := h.alive (refs_of_job hj)
  have hself : (s.conns.insert n (some c)).lookup n ≠ none := by
    rw [Table.lookup_insert_eq, if_pos rfl]
    exact nofun
  unfold Refs.saveConn
  cases hn : s.conns.lookup n with
  | none =>
    refine ⟨⟨(incref_fault ho).trans h.sound, fun d => ?_, lookup_stored c h.stored,
      fun k r hr hne => lookup_saved c (h.saved k r hr hne), h.queued⟩, hself⟩
    have hrefno : ({s.incref c with conns := s.conns.insert n (some c)} : Refs C K).refno d =
      s.refno d + if d = c then 1 else 0 := incref_refno ho d
    have hrefs : ({s.incref c with conns := s.conns.insert n (some c)} : Refs C K).refs d =
        (if s.owned d then 1 else 0) + (s.jobs.count d : Int) +
          Table.count (s.conns.insert n (some c)) (some d) := rfl
    rw [hrefno, hrefs, h.counted d, Refs.refs, Table.count_insert_eq, hn]
    simp only [reduceCtorEq, if_false, Option.some.injEq, eq_comm (a := d)]
    omega
  | some p =>
    cases p with
    | none => exact absurd hn (h.stored n)
    | some d =>
      obtain ⟨old, hold, hdpos⟩ := h.alive (refs_of_conns hn)
      dsimp only
      rw [hold, ho]
      dsimp only
      split
      · rename_i hlt
        -- a connection is not older than itself, so the two are different
        have hne : c ≠ d := by
          intro he
          subst he
          cases ho.symm.trans hold
          simp [Conn.compare] at hlt
        have hc : (s.decref d).heap c = some o := (decref_heap_ne hne).trans ho
        refine ⟨⟨(incref_fault hc).trans ((decref_fault hold hdpos).trans h.sound), fun e => ?_,
          lookup_stored c h.stored, fun k r hr hz => lookup_saved c (h.saved k r hr hz), h.queued⟩, hself⟩
        have hrefno : ({(s.decref d).incref c with conns := s.conns.insert n (some c)} : Refs C K).refno e =
            (s.refno e - if e = d then 1 else 0) + if e = c then 1 else 0 :=
          (incref_refno hc e).trans (by rw [decref_refno hold])
        have hrefs : ({(s.decref d).incref c with conns := s.conns.insert n (some c)} : Refs C K).refs e =
            (if s.owned e then 1 else 0) + (s.jobs.count e : Int) +
              Table.count (s.conns.insert n (some c)) (some e) := rfl
        rw [hrefno, hrefs, h.counted e, Refs.refs, Table.count_insert_eq, hn]
        simp only [Option.some.injEq, eq_comm (a := e)]
        omega
      · exact ⟨h, by rw [hn]; exact nofun⟩

theorem Balanced.latestConn (h : Balanced s) (hj : s.jobs.lookup j = some c) {r : ReqHeader}
    (hpc : s.pc j = .latestConn r) (hsane : sane nonce s (.latestConn j) = true) :
    Balanced (s.latestConn j c r.cltNonce) := by
  obtain ⟨o, ho, hpos⟩ := h.alive (refs_of_job hj)
  simp only [sane, hpc, hj, Option.bind_some, ho, Option.any_some, Bool.or_eq_true, bne_iff_ne,
    Bool.not_eq_true'] at hsane
  unfold Refs.latestConn
  rw [ho]
  dsimp only
  split
  · rename_i hdead
    have hclt : r.cltNonce ≠ 0 := by
      rcases hsane with hclt | halive
      · exact hclt
      · rw [hdead] at halive
        cases halive
    have hsaved := h.saved j r (by rw [hpc]; rfl) hclt
    cases hn : s.conns.lookup r.cltNonce with
    | none => exact absurd hn hsaved
    | some p =>
      cases p with
      | none => exact absurd hn (h.stored _)
      | some d =>
        dsimp only
        split
        · exact h
        · rename_i hne
          obtain ⟨o', ho', -⟩ := h.alive (refs_of_conns hn)
          have hd : (s.decref c).heap d = some o' := (decref_heap_ne (Ne.symm hne)).trans ho'
          refine ⟨(incref_fault hd).trans ((decref_fault ho hpos).trans h.sound), fun e => ?_, h.stored,
            h.saved, fun k e hk => ?_⟩
          · have hrefno : ({(s.decref c).incref d with jobs := s.jobs.insert j d} : Refs C K).refno e =
                (s.refno e - if e = c then 1 else 0) + if e = d then 1 else 0 :=
              (incref_refno hd e).trans (by rw [decref_refno ho])
            have hrefs : ({(s.decref c).incref d with jobs := s.jobs.insert j d} : Refs C K).refs e =
                (if s.owned e then 1 else 0) + (Table.count (s.jobs.insert j d) e : Int) +
                  s.conns.count (some e) := rfl
            rw [hrefno, hrefs, h.counted e, Refs.refs, Table.count_insert_eq, hj]
            simp only [Option.some.injEq, eq_comm (a := e)]
            omega
          · change (s.jobs.insert j d).lookup k = some e at hk
            rw [Table.lookup_insert_eq] at hk
            split at hk
            · rename_i hkj
              rw [hkj]
              exact h.queued j c hj
            · exact h.queued k e hk
  · exact h

theorem Balanced.accept (h : Balanced s) (hc : s.heap c = none) (sec usec : Int) :
    Balanced {s with
      heap := update s.heap c (some {sec, usec})
      owned := update s.owned c true} where
  sound := h.sound
  counted d := by
    have hcount := h.counted d
    simp only [Refs.refno, Refs.refs] at hcount ⊢
    by_cases hd : d = c
    · subst hd
      rw [hc, Option.elim_none] at hcount
      simp only [update_self, Option.elim_some, if_true]
      split at hcount <;> omega
    · simpa [hd] using hcount
  stored := h.stored
  saved := h.saved
  queued := h.queued

theorem Balanced.die (h : Balanced s) {o : Conn} (ho : s.heap c = some o) :
    Balanced {s with heap := update s.heap c (some {o with dead := true})} where
  sound := h.sound
  counted d := by
    have hcount := h.counted d
    simp only [Refs.refno] at hcount ⊢
    by_cases hd : d = c
    · subst hd
      rw [ho] at hcount
      rw [update_self]
      exact hcount
    · rw [update_of_ne hd]
      exact hcount
  stored := h.stored
  saved := h.saved
  queued := h.queued

theorem Balanced.disown (h : Balanced s) (hown : s.owned c = true) :
    Balanced {s.decref c with owned := update s.owned c false} := by
  obtain ⟨o, ho, hpos⟩ : ∃ o, s.heap c = some o ∧ 1 ≤ o.refno := h.alive (by
    rw [Refs.refs, if_pos hown]
    omega)
  refine ⟨(decref_fault ho hpos).trans h.sound, fun d => ?_, h.stored, h.saved, h.queued⟩
  have hrefno : ({s.decref c with owned := update s.owned c false} : Refs C K).refno d =
    s.refno d - if d = c then 1 else 0 := decref_refno ho d
  have hrefs : ({s.decref c with owned := update s.owned c false} : Refs C K).refs d =
    (if update s.owned c false d then 1 else 0) + (s.jobs.count d : Int) +
      s.conns.count (some d) := rfl
  rw [hrefno, hrefs, h.counted d, Refs.refs]
  by_cases hd : d = c
  · subst hd
    simp only [hown, update_self, if_true, Bool.false_eq_true, if_false]
    omega
  · simp [hd]

/-- **Every step that meets the condition keeps the balance.** -/
theorem Balanced.step {s' : Refs C K} (h : Balanced s) {a : Act C K} (ha : sane nonce s a = true)
    (hs : s.step nonce procs a = some s') : Balanced s' := by
  unfold Refs.step at hs
  split at hs
  · cases hs
  · cases a with
    | accept c sec usec =>
      obtain ⟨hc, hs⟩ := Option.ite_none_right_eq_some.mp hs
      exact Option.some.inj hs ▸ h.accept hc sec usec
    | die c =>
      obtain ⟨o, ho, rfl⟩ := Option.map_eq_some_iff.mp hs
      exact h.die ho
    | disown c =>
      obtain ⟨hown, hs⟩ := Option.ite_none_right_eq_some.mp hs
      exact Option.some.inj hs ▸ h.disown hown
    | gotPdu c j buf sz succ late =>
      obtain ⟨hguard, hs⟩ := Option.ite_none_left_eq_some.mp hs
      obtain ⟨hc, hj⟩ := not_or.mp hguard
      obtain ⟨o, ho⟩ := Option.ne_none_iff_exists'.mp hc
      exact Option.some.inj hs ▸ h.gotPdu ho (not_not.mp hj) ha
    | dispatch j =>
      obtain ⟨c, hj, hs⟩ := Option.bind_eq_some_iff.mp hs
      split at hs
      · rename_i hpc
        exact Option.some.inj hs ▸ h.dispatch hj hpc ha
      · rename_i hpc
        exact absurd hpc (h.queued j c hj)
      · cases hs
    | saveConn j =>
      obtain ⟨c, hj, hs⟩ := Option.bind_eq_some_iff.mp hs
      split at hs
      · rename_i r hpc
        obtain ⟨hsave, hlook⟩ := h.saveConn hj r.cltNonce
        refine Option.some.inj hs ▸ hsave.goto j nofun fun r' hr _ => ?_
        cases hr
        exact hlook
      · cases hs
    | check j stat =>
      obtain ⟨c, hj, hs⟩ := Option.bind_eq_some_iff.mp hs
      split at hs
      · rename_i r hpc
        have hsaved := h.saved j r (by rw [hpc]; rfl)
        refine Option.some.inj hs ▸ h.goto j ?_ fun r' hr => ?_
        · cases stat <;> exact nofun
        · cases stat with
          | new =>
            cases hr
            exact hsaved
          | inprogress => cases hr
          | done buf => cases hr
          | forgotten => cases hr
      · cases hs
    | fn j good =>
      obtain ⟨c, hj, hs⟩ := Option.bind_eq_some_iff.mp hs
      split at hs
      · rename_i r hpc
        cases good with
        | false =>
          exact Option.some.inj hs ▸ ⟨h.sound, h.counted, h.stored, h.saved, h.queued⟩
        | true =>
          refine Option.some.inj hs ▸ h.goto j nofun fun r' hr => ?_
          cases hr
          exact h.saved j r (by rw [hpc]; rfl)
      · cases hs
    | latestConn j =>
      obtain ⟨c, hj, hs⟩ := Option.bind_eq_some_iff.mp hs
      split at hs
      · rename_i r hpc
        exact Option.some.inj hs ▸ (h.latestConn hj hpc ha).goto j nofun nofun
      · cases hs
    | send j =>
      obtain ⟨c, hj, hs⟩ := Option.bind_eq_some_iff.mp hs
      split at hs
      · obtain ⟨o, ho, -⟩ := h.alive (refs_of_job hj)
        have huse : Balanced (s.use c) :=
          ⟨(use_fault ho).trans h.sound, h.counted, h.stored, h.saved, h.queued⟩
        exact Option.some.inj hs ▸ huse.goto j nofun nofun
      · cases hs
    | last j =>
      obtain ⟨c, hj, hs⟩ := Option.bind_eq_some_iff.mp hs
      split at hs
      · exact Option.some.inj hs ▸ h.finish hj
      · cases hs

end Steps

/-- **Dispatch balances connection references** in every run whose steps meet the
condition: no null or deleted connection is ever used, and `refno_` is the listener's
reference, one for each queued or running job, and one for each entry of `conns_`. -/
theorem references_balanced {nonce : BitVec 32} {procs : BitVec 32 → Bool} {s : Refs C K}
    (h : Steps (Refs.step nonce procs) (fun s a => sane nonce s a = true) {} s) :
    s.fault = false ∧
      (∀ c o, s.heap c = some o →
        o.refno = (if s.owned c then 1 else 0) + s.jobs.count c + s.conns.count (some c)) ∧
      (∀ j c, s.jobs.lookup j = some c → s.heap c ≠ none) ∧
      ∀ n p, s.conns.lookup n = some p → ∃ c, p = some c ∧ s.heap c ≠ none := by
  have hbal : Balanced s := h.invariant (I := fun s => Balanced s) balanced_init
    fun _ _ _ hi ha hs => hi.step ha hs
  have hheld : ∀ c, 1 ≤ s.refs c → s.heap c ≠ none := fun c hc he => by
    obtain ⟨o, ho, -⟩ := hbal.alive hc
    cases ho.symm.trans he
  refine ⟨hbal.sound, fun c o ho => ?_, fun j c hj => hheld c (refs_of_job hj), fun n p hn => ?_⟩
  · rw [← refno_eq ho]
    exact hbal.counted c
  · cases p with
    | none => exact absurd hn (hbal.stored n)
    | some c => exact ⟨c, rfl, hheld c (refs_of_conns hn)⟩

end Refs

/-- A request of procedure 9 with these nonces, as bytes. -/
def requestBuf (cltNonce srvNonce : Byte) (i : Nat) : Byte :=
  [0, 0, 0, 24, 0, 0, 0, 1, 0, 0, 0, 9, 0, 0, 0, cltNonce, 0, 0, 0, srvNonce, 0, 0, 0, 0].getD i 0

/-- Client 7 is served on its second connection while its first one dies. The request
that came over the first is answered over the second, and then the second is held by the
listener and by `conns_`. -/
theorem references_balanced_reconnect :
    ∃ s : Refs Nat Nat, Steps (Refs.step 5 (· == 9)) (fun s a => sane 5 s a = true) {} s ∧
      s.fault = false ∧ s.heap 1 = none ∧
      ∃ o, s.heap 2 = some o ∧ o.refno = 2 := by
  obtain ⟨s, hs, hgone, hsome, howned, hjobs, hconns⟩ : ∃ s : Refs Nat Nat,
      Steps (Refs.step 5 (· == 9)) (fun s a => sane 5 s a = true) {} s ∧
        (s.heap 1 = none ∧ (s.heap 2).isSome ∧ s.owned 2 = true ∧ s.jobs.count 2 = 0 ∧
          s.conns.count (some 2) = 1) :=
    Steps.exists_of_run
      [.accept 1 10 0, .accept 2 10 1, .gotPdu 1 0 (requestBuf 7 5) 24 true false, .dispatch 0,
        .saveConn 0, .gotPdu 2 1 (requestBuf 7 5) 24 true false, .dispatch 1, .saveConn 1, .die 1,
        .check 0 .new, .check 1 .inprogress, .last 1, .fn 0 true, .latestConn 0, .disown 1, .send 0, .last 0]
      (by decide)
  obtain ⟨o, ho⟩ := Option.isSome_iff_exists.mp hsome
  obtain ⟨hfault, hcount, -, -⟩ := references_balanced hs
  have hrefno := hcount 2 o ho
  rw [howned, hjobs, hconns] at hrefno
  exact ⟨s, hs, hfault, hgone, o, ho, hrefno⟩

/-- A request for an old server leaves its reference behind: the job is over and `refno_`
is 2, with the listener the only holder. A request with client nonce 0 whose connection is
dead when the handler returns takes NULL from `conns_` and calls `incref` on it. -/
theorem old_server_keeps_reference :
    (∃ s : Refs Nat Nat, Steps (Refs.step 5 (· == 9)) anyMove {} s ∧
      s.refno 1 = 2 ∧ s.owned 1 = true ∧ s.jobs.count 1 = 0 ∧ s.conns.count (some 1) = 0) ∧
    ∃ s : Refs Nat Nat, Steps (Refs.step 5 (· == 9)) anyMove {} s ∧
      s.fault = true ∧ s.conns.lookup 0 = some none := by
  constructor
  · exact Steps.exists_of_run
      [.accept 1 10 0, .gotPdu 1 0 (requestBuf 7 3) 24 true false, .dispatch 0] (by decide)
  · exact Steps.exists_of_run
      [.accept 1 10 0, .gotPdu 1 0 (requestBuf 0 5) 24 true false, .dispatch 0, .die 1, .fn 0 true,
        .latestConn 0] (by decide)

end Yfs.Rpc.Dispatch

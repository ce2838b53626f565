import Yfs.Base.Runs

/-! The RPC server, `rpcs`, and at-most-once execution.

A request is served by a dispatch job: it checks whether the request is a duplicate
(`checkduplicate_and_update`, under `reply_window_m_`), runs the handler if it is not,
remembers the reply (`add_reply`, under the same mutex) and sends it. Jobs run in any
order with one another and any number at once. Requests are whatever arrives: the same
one any number of times, late, with any acknowledgement field.

The server forgets a reply once the client has acknowledged it. Forgetting does not let
a request run again: what was started is in the window or at or below the largest
acknowledgement seen, which never falls (`Once`). -/
namespace Yfs.Rpc
open Base
open Function (update update_of_ne update_self)

/-- `rpc_const::bind`, the procedure number of `rpcbind`. -/
def bind : Nat := 1

def timeoutFailure : Int := -1
def atmostonceFailure : Int := -4
def oldsrvFailure : Int := -5
def cancelFailure : Int := -7

/-- What a reply holds after its header: nothing, the nonce `rpcbind` returns, or the
result of another procedure. -/
inductive Body (B : Type) where
  | empty
  | nonce (n : Nat)
  | value (b : B)
  deriving DecidableEq

/-- A request: `req_header` and the arguments. -/
structure Request (B : Type) where
  xid : Nat
  proc : Nat
  cltNonce : Nat
  srvNonce : Nat
  xidRep : Nat
  args : B
  deriving DecidableEq

/-- A reply: `reply_header` and the result. -/
structure Reply (B : Type) where
  xid : Nat
  ret : Int
  body : Body B
  deriving DecidableEq

/-- `rpcs::reply_t`; no buffer is the null pointer. -/
structure ReplyT (B : Type) where
  xid : Nat
  cbPresent : Bool := false
  buf : Option (Reply B) := none
  deriving DecidableEq

/-- `rpcs::rpcstate_t`, with the buffer that is returned for DONE. -/
inductive RpcState (B : Type) where
  | new
  | inprogress
  | done (buf : Option (Reply B))
  | forgotten
  deriving DecidableEq

section Window
variable {B : Type}

/-- The loop of `checkduplicate_and_update`: it erases what is acknowledged up to the
entry of `xid`, where it returns. -/
def scan (xidRep xid : Nat) : List (ReplyT B) → List (ReplyT B) × Option (ReplyT B)
  | [] => ([], none)
  | it :: rest =>
    if it.xid ≤ xidRep then scan xidRep xid rest
    else if it.xid = xid then (it :: rest, some it)
    else (it :: (scan xidRep xid rest).1, (scan xidRep xid rest).2)

/-- `checkduplicate_and_update` on the replies and the acknowledgement remembered for
one client. -/
def checkduplicateAndUpdate (replys : List (ReplyT B)) (window xid xidRep : Nat) :
    List (ReplyT B) × Nat × RpcState B :=
  let window := if xidRep > window then xidRep else window
  if xid ≤ window then (replys, window, .forgotten)
  else
    match scan window xid replys with
    | (replys, some it) => (replys, window, if it.cbPresent then .done it.buf else .inprogress)
    | (replys, none) => (replys ++ [{xid := xid}], window, .new)

/-- `add_reply`. -/
def addReply (xid : Nat) (b : Reply B) : List (ReplyT B) → List (ReplyT B)
  | [] => []
  | it :: rest =>
    if it.xid = xid then {it with buf := some b, cbPresent := true} :: rest
    else it :: addReply xid b rest

end Window

/-! ### Dispatch -/

/-- Where a dispatch job is: before the duplicate check, about to run the handler, about
to remember the reply, about to send it, returned. -/
inductive Phase (B : Type) where
  | arrived
  | new
  | ran (rep : Reply B)
  | send (rep : Reply B)
  | finished
  deriving DecidableEq

structure Job (B : Type) where
  req : Request B
  phase : Phase B
  deriving DecidableEq

/-- One run of a handler, for a client and with the reply it gave. -/
structure Exec (B : Type) where
  cltNonce : Nat
  rep : Reply B
  deriving DecidableEq

/-- The server: its nonce, the registered procedures, the remembered replies and
acknowledgements by client nonce, the dispatch jobs, the handler runs so far, and the
replies sent, each with the client it answers. -/
structure Server (B : Type) where
  nonce : Nat
  procs : Nat → Bool
  replyWindow : Nat → List (ReplyT B) := fun _ => []
  xidRepWindow : Nat → Nat := fun _ => 0
  jobs : Nat → Option (Job B) := fun _ => none
  runs : List (Exec B) := []
  sent : List (Nat × Reply B) := []

/-- A step of a dispatch job. `ret` and `result` are what the handler returns. -/
inductive Act (B : Type) where
  | arrive (i : Nat) (req : Request B)
  | check (i : Nat)
  | run (i : Nat) (ret : Nat) (result : B)
  | addReply (i : Nat)
  | send (i : Nat)

namespace Server
variable {B : Type}

def setJob (s : Server B) (i : Nat) (job : Job B) : Server B :=
  {s with jobs := update s.jobs i (some job)}

/-- The duplicate check of a request, as it would be made now. -/
def check (s : Server B) (req : Request B) : List (ReplyT B) × Nat × RpcState B :=
  checkduplicateAndUpdate (s.replyWindow req.cltNonce) (s.xidRepWindow req.cltNonce) req.xid req.xidRep

def checked (s : Server B) (req : Request B) : Server B :=
  {s with
    replyWindow := update s.replyWindow req.cltNonce (s.check req).1
    xidRepWindow := update s.xidRepWindow req.cltNonce (s.check req).2.1}

/-- What a job does after the duplicate check. -/
def phaseOf (req : Request B) : RpcState B → Option (Phase B)
  | .new => some .new
  | .inprogress => some .finished
  | .done buf => buf.map .send
  | .forgotten => some (.send ⟨req.xid, atmostonceFailure, .empty⟩)

/-- `dispatch` up to the end of the duplicate check. An unregistered procedure is a failed
`VERIFY`. -/
def checkJob (s : Server B) (i : Nat) (req : Request B) : Option (Server B) :=
  if req.srvNonce ≠ 0 ∧ req.srvNonce ≠ s.nonce then
    some (s.setJob i ⟨req, .send ⟨req.xid, oldsrvFailure, .empty⟩⟩)
  else if s.procs req.proc = false then none
  else if req.cltNonce = 0 then some (s.setJob i ⟨req, .new⟩)
  else (phaseOf req (s.check req).2.2).map fun phase => (s.checked req).setJob i ⟨req, phase⟩

/-- The reply of a handler run; a result code below 0 is a failed `VERIFY`. -/
def reply (s : Server B) (req : Request B) (ret : Nat) (result : B) : Reply B :=
  if req.proc = bind then ⟨req.xid, 0, .nonce s.nonce⟩ else ⟨req.xid, ret, .value result⟩

def step (s : Server B) : Act B → Option (Server B)
  | .arrive i req => if (s.jobs i).isNone then some (s.setJob i ⟨req, .arrived⟩) else none
  | .check i =>
    match s.jobs i with
    | some ⟨req, .arrived⟩ => s.checkJob i req
    | _ => none
  | .run i ret result =>
    match s.jobs i with
    | some ⟨req, .new⟩ =>
      some ({s with runs := ⟨req.cltNonce, s.reply req ret result⟩ :: s.runs}.setJob i
        ⟨req, .ran (s.reply req ret result)⟩)
    | _ => none
  | .addReply i =>
    match s.jobs i with
    | some ⟨req, .ran rep⟩ =>
      if req.cltNonce = 0 then some (s.setJob i ⟨req, .send rep⟩)
      else
        some ({s with
          replyWindow := update s.replyWindow req.cltNonce
            (Rpc.addReply req.xid rep (s.replyWindow req.cltNonce))}.setJob i ⟨req, .send rep⟩)
    | _ => none
  | .send i =>
    match s.jobs i with
    | some ⟨req, .send rep⟩ =>
      some ({s with sent := (req.cltNonce, rep) :: s.sent}.setJob i ⟨req, .finished⟩)
    | _ => none

def executions (s : Server B) (cltNonce xid : Nat) : List (Exec B) :=
  s.runs.filter fun e => e.cltNonce = cltNonce ∧ e.rep.xid = xid

end Server

/-! ### The duplicate check -/

section Check
variable {B : Type} {replys : List (ReplyT B)} {window xid xidRep : Nat}

theorem scan_kept (xidRep xid : Nat) {it : ReplyT B} (h : it ∈ replys) :
    it ∈ (scan xidRep xid replys).1 ∨ it.xid ≤ xidRep := by
  induction replys with
  | nil => cases h
  | cons e rest ih =>
    unfold scan
    split
    · rename_i he
      rcases List.mem_cons.mp h with rfl | h
      · exact .inr he
      · exact ih h
    · split
      · exact .inl h
      · rcases List.mem_cons.mp h with rfl | h
        · exact .inl List.mem_cons_self
        · exact (ih h).imp_left (List.mem_cons_of_mem _)

theorem scan_subset {it : ReplyT B} (h : it ∈ (scan xidRep xid replys).1) : it ∈ replys := by
  induction replys with
  | nil => exact h
  | cons e rest ih =>
    unfold scan at h
    split at h
    · exact List.mem_cons_of_mem _ (ih h)
    · split at h
      · exact h
      · rcases List.mem_cons.mp h with rfl | h
        · exact List.mem_cons_self
        · exact List.mem_cons_of_mem _ (ih h)

theorem scan_found {it : ReplyT B} (h : (scan xidRep xid replys).2 = some it) :
    it ∈ replys ∧ it.xid = xid := by
  induction replys with
  | nil => cases h
  | cons e rest ih =>
    unfold scan at h
    split at h
    · exact (ih h).imp_left (List.mem_cons_of_mem _)
    · split at h
      · cases h
        exact ⟨List.mem_cons_self, ‹_›⟩
      · exact (ih h).imp_left (List.mem_cons_of_mem _)

theorem scan_absent (h : (scan xidRep xid replys).2 = none) :
    ∀ it ∈ replys, it.xid = xid → it.xid ≤ xidRep := by
  induction replys with
  | nil => exact nofun
  | cons e rest ih =>
    intro it hit hx
    unfold scan at h
    split at h
    · rename_i he
      rcases List.mem_cons.mp hit with rfl | hit
      · exact he
      · exact ih h it hit hx
    · split at h
      · cases h
      · rename_i hne
        rcases List.mem_cons.mp hit with rfl | hit
        · exact absurd hx hne
        · exact ih h it hit hx

/-- What the duplicate check does, said once: the acknowledgement rises to the request's,
entries go only at or below it, one comes only for a new request, and the answer says
which case it was. -/
structure Checked (replys : List (ReplyT B)) (window xid xidRep : Nat)
    (r : List (ReplyT B) × Nat × RpcState B) : Prop where
  window : r.2.1 = max window xidRep
  kept : ∀ it ∈ replys, it ∈ r.1 ∨ it.xid ≤ r.2.1
  added : ∀ it ∈ r.1, it ∈ replys ∨ r.2.2 = .new ∧ it = {xid := xid}
  forgotten : r.2.2 = .forgotten ↔ xid ≤ r.2.1
  new : r.2.2 = .new → (∀ it ∈ replys, it.xid ≠ xid) ∧ ∃ it ∈ r.1, it.xid = xid
  done : ∀ buf, r.2.2 = .done buf → ∃ it ∈ replys, it.xid = xid ∧ it.cbPresent = true ∧ it.buf = buf

theorem checked (replys : List (ReplyT B)) (window xid xidRep : Nat) :
    Checked replys window xid xidRep (checkduplicateAndUpdate replys window xid xidRep) := by
  have hmax : (if xidRep > window then xidRep else window) = max window xidRep := by
    split <;> omega
  unfold checkduplicateAndUpdate
  simp only [hmax]
  split
  · rename_i hle
    exact ⟨rfl, fun _ h => .inl h, fun _ h => .inl h, ⟨fun _ => hle, fun _ => rfl⟩, nofun, nofun⟩
  · rename_i hlt
    split
    · rename_i replys' it heq
      have hkept : ∀ e ∈ replys, e ∈ replys' ∨ e.xid ≤ max window xidRep := fun e he => by
        simpa [heq] using scan_kept (max window xidRep) xid he
      have hsub : ∀ e ∈ replys', e ∈ replys := fun e he =>
        scan_subset (show e ∈ (scan (max window xidRep) xid replys).1 by rw [heq]; exact he)
      obtain ⟨hmem, hx⟩ := scan_found (show (scan (max window xidRep) xid replys).2 = some it by rw [heq])
      refine ⟨rfl, hkept, fun e he => .inl (hsub e he), ?_, ?_, ?_⟩
      · split <;> simp [hlt]
      · split <;> exact nofun
      · intro buf hbuf
        split at hbuf
        · cases hbuf
          exact ⟨it, hmem, hx, ‹_›, rfl⟩
        · cases hbuf
    · rename_i replys' heq
      have hnone : (scan (max window xidRep) xid replys).2 = none := by rw [heq]
      refine ⟨rfl, fun e he => ?_, fun e he => ?_, by simp [hlt], fun _ => ⟨fun e he hx => ?_, ?_⟩, nofun⟩
      · rcases scan_kept (max window xidRep) xid he with h | h
        · rw [heq] at h
          exact .inl (List.mem_append_left _ h)
        · exact .inr h
      · rcases List.mem_append.mp he with he | he
        · exact .inl (scan_subset (show e ∈ (scan (max window xidRep) xid replys).1 by rw [heq]; exact he))
        · exact .inr ⟨rfl, by simpa using he⟩
      · exact hlt (hx ▸ scan_absent hnone e he hx)
      · exact ⟨{xid := xid}, by simp, rfl⟩

theorem addReply_mem {b : Reply B} {it : ReplyT B} (h : it ∈ addReply xid b replys) :
    it ∈ replys ∨ it.xid = xid ∧ it.buf = some b := by
  induction replys with
  | nil => cases h
  | cons e rest ih =>
    unfold addReply at h
    split at h
    · rename_i hx
      rcases List.mem_cons.mp h with rfl | h
      · exact .inr ⟨hx, rfl⟩
      · exact .inl (List.mem_cons_of_mem _ h)
    · rcases List.mem_cons.mp h with rfl | h
      · exact .inl List.mem_cons_self
      · exact (ih h).imp_left (List.mem_cons_of_mem _)

theorem addReply_xids (b : Reply B) (replys : List (ReplyT B)) :
    (addReply xid b replys).map ReplyT.xid = replys.map ReplyT.xid := by
  induction replys with
  | nil => rfl
  | cons e rest ih =>
    unfold addReply
    split
    · rfl
    · rw [List.map_cons, List.map_cons, ih]

end Check

/-! ### At most once -/

section Once
variable {B : Type} {s s' : Server B} {i : Nat} {req : Request B}

/-- A request of this client with this number was started: it is in the window, or
acknowledged. -/
def Known (s : Server B) (cltNonce xid : Nat) : Prop :=
  (∃ it ∈ s.replyWindow cltNonce, it.xid = xid) ∨ xid ≤ s.xidRepWindow cltNonce

/-- What was started is known, and started once: it has one job about to run the handler
or one handler run. -/
structure Once (s : Server B) : Prop where
  known : ∀ i req, s.jobs i = some ⟨req, .new⟩ → req.cltNonce ≠ 0 → Known s req.cltNonce req.xid
  fresh : ∀ i req, s.jobs i = some ⟨req, .new⟩ → req.cltNonce ≠ 0 →
    s.executions req.cltNonce req.xid = []
  single : ∀ i j req req', s.jobs i = some ⟨req, .new⟩ → s.jobs j = some ⟨req', .new⟩ →
    req.cltNonce ≠ 0 → req'.cltNonce = req.cltNonce → req'.xid = req.xid → j = i
  run : ∀ n x, n ≠ 0 → s.executions n x ≠ [] → Known s n x
  once : ∀ n x, n ≠ 0 → (s.executions n x).length ≤ 1

theorem setJob_self (s : Server B) (i : Nat) (job : Job B) : (s.setJob i job).jobs i = some job :=
  update_self ..

theorem setJob_ne {j : Nat} {job : Job B} (h : j ≠ i) :
    (s.setJob i job).jobs j = s.jobs j := update_of_ne h ..

/-- A job whose next step is not the handler, in a state that knows no less and has run
the same handlers. -/
theorem Once.setJob (h : Once s) {job : Job B} (hjobs : s'.jobs = s.jobs)
    (hruns : s'.runs = s.runs) (hknown : ∀ n x, Known s n x → Known s' n x) (hp : job.phase ≠ .new) :
    Once (s'.setJob i job) := by
  have old : ∀ j req, (s'.setJob i job).jobs j = some ⟨req, .new⟩ → s.jobs j = some ⟨req, .new⟩ := by
    intro j req hj
    by_cases hji : j = i
    · subst hji
      rw [setJob_self] at hj
      cases hj
      exact absurd rfl hp
    · rwa [setJob_ne hji, hjobs] at hj
  have runs : ∀ n x, (s'.setJob i job).executions n x = s.executions n x := by
    intro n x
    show s'.runs.filter _ = s.runs.filter _
    rw [hruns]
  refine ⟨fun j req hj hn => ?_, fun j req hj hn => ?_, fun j k req req' hj hk => ?_,
    fun n x hn he => ?_, fun n x hn => ?_⟩
  · exact hknown _ _ (h.known j req (old j req hj) hn)
  · rw [runs]
    exact h.fresh j req (old j req hj) hn
  · exact h.single j k req req' (old j req hj) (old k req' hk)
  · rw [runs] at he
    exact hknown n x (h.run n x hn he)
  · rw [runs]
    exact h.once n x hn

/-- A job about to run the handler of a request that was not started before. -/
theorem Once.setNew (h : Once s)
    (hjobs : s'.jobs = s.jobs) (hruns : s'.runs = s.runs) (hknown : ∀ n x, Known s n x → Known s' n x)
    (hnew : req.cltNonce ≠ 0 → ¬ Known s req.cltNonce req.xid ∧ Known s' req.cltNonce req.xid) :
    Once (s'.setJob i ⟨req, .new⟩) := by
  have cases : ∀ j r, (s'.setJob i ⟨req, .new⟩).jobs j = some ⟨r, .new⟩ →
      j = i ∧ r = req ∨ j ≠ i ∧ s.jobs j = some ⟨r, .new⟩ := by
    intro j r hj
    by_cases hji : j = i
    · subst hji
      rw [setJob_self] at hj
      cases hj
      exact .inl ⟨rfl, rfl⟩
    · rw [setJob_ne hji, hjobs] at hj
      exact .inr ⟨hji, hj⟩
  have runs : ∀ n x, (s'.setJob i ⟨req, .new⟩).executions n x = s.executions n x := by
    intro n x
    show s'.runs.filter _ = s.runs.filter _
    rw [hruns]
  refine ⟨fun j r hj hn => ?_, fun j r hj hn => ?_, fun j k r r' hj hk hn hcn hx => ?_,
    fun n x hn he => ?_, fun n x hn => ?_⟩
  · rcases cases j r hj with ⟨-, rfl⟩ | ⟨-, hj⟩
    · exact (hnew hn).2
    · exact hknown _ _ (h.known j r hj hn)
  · rw [runs]
    rcases cases j r hj with ⟨-, rfl⟩ | ⟨-, hj⟩
    · by_contra he
      exact (hnew hn).1 (h.run _ _ hn he)
    · exact h.fresh j r hj hn
  · rcases cases j r hj with ⟨rfl, rfl⟩ | ⟨-, hj'⟩
    · rcases cases k r' hk with ⟨rfl, -⟩ | ⟨-, hk⟩
      · rfl
      · have := h.known k r' hk (by rwa [hcn])
        rw [hcn, hx] at this
        exact absurd this (hnew hn).1
    · rcases cases k r' hk with ⟨-, rfl⟩ | ⟨-, hk⟩
      · have := h.known j r hj' hn
        rw [← hcn, ← hx] at this
        exact absurd this (hnew (by rwa [hcn])).1
      · exact h.single j k r r' hj' hk hn hcn hx
  · rw [runs] at he
    exact hknown n x (h.run n x hn he)
  · rw [runs]
    exact h.once n x hn

/-- The handler runs: the job that was about to run it becomes its one run. -/
theorem Once.run_handler (h : Once s) {rep : Reply B}
    (hi : s.jobs i = some ⟨req, .new⟩) (hx : rep.xid = req.xid) :
    Once ({s with runs := ⟨req.cltNonce, rep⟩ :: s.runs}.setJob i ⟨req, .ran rep⟩) := by
  have old : ∀ j r, ({s with runs := ⟨req.cltNonce, rep⟩ :: s.runs}.setJob i ⟨req, .ran rep⟩).jobs j =
      some ⟨r, .new⟩ → j ≠ i ∧ s.jobs j = some ⟨r, .new⟩ := by
    intro j r hj
    by_cases hji : j = i
    · subst hji
      rw [setJob_self] at hj
      cases hj
    · rw [setJob_ne hji] at hj
      exact ⟨hji, hj⟩
  have runs : ∀ n x, ({s with runs := ⟨req.cltNonce, rep⟩ :: s.runs}.setJob i ⟨req, .ran rep⟩).executions
      n x = if req.cltNonce = n ∧ req.xid = x then ⟨req.cltNonce, rep⟩ :: s.executions n x
        else s.executions n x := by
    intro n x
    show List.filter _ (_ :: s.runs) = _
    rw [List.filter_cons, hx]
    simp [Server.executions]
  refine ⟨fun j r hj hn => h.known j r (old j r hj).2 hn, fun j r hj hn => ?_,
    fun j k r r' hj hk => h.single j k r r' (old j r hj).2 (old k r' hk).2, fun n x hn he => ?_,
    fun n x hn => ?_⟩
  · obtain ⟨hji, hj⟩ := old j r hj
    rw [runs, if_neg]
    · exact h.fresh j r hj hn
    · rintro ⟨hc, hx⟩
      exact hji (h.single i j req r hi hj (by rwa [hc]) hc.symm hx.symm)
  · rw [runs] at he
    split at he
    · rename_i heq
      obtain ⟨rfl, rfl⟩ := heq
      exact h.known i req hi hn
    · exact h.run n x hn he
  · rw [runs]
    split
    · rename_i heq
      obtain ⟨rfl, rfl⟩ := heq
      rw [h.fresh i req hi hn]
      exact Nat.le_refl 1
    · exact h.once n x hn

theorem known_checked (req : Request B) {n x : Nat} (h : Known s n x) :
    Known (s.checked req) n x := by
  have hc := checked (s.replyWindow req.cltNonce) (s.xidRepWindow req.cltNonce) req.xid req.xidRep
  by_cases hn : n = req.cltNonce
  · subst hn
    unfold Known Server.checked
    simp only [update_self]
    rcases h with ⟨it, hit, rfl⟩ | h
    · exact (hc.kept it hit).imp_left fun hit' => ⟨it, hit', rfl⟩
    · refine .inr (Nat.le_trans h ?_)
      rw [show (s.check req).2.1 = _ from hc.window]
      exact Nat.le_max_left ..
  · simpa [Known, Server.checked, hn] using h

theorem known_addReply {c xid : Nat} {rep : Reply B} {n x : Nat} (h : Known s n x) :
    Known {s with replyWindow := update s.replyWindow c (addReply xid rep (s.replyWindow c))}
      n x := by
  by_cases hn : n = c
  · subst hn
    unfold Known
    simp only [update_self]
    refine h.imp_left fun ⟨it, hit, hx⟩ => ?_
    have : x ∈ (addReply xid rep (s.replyWindow n)).map ReplyT.xid := by
      rw [addReply_xids, ← hx]
      exact List.mem_map_of_mem hit
    exact List.mem_map.mp this
  · simpa [Known, hn] using h

theorem checkJob_cases (h : s.checkJob i req = some s') :
    (req.srvNonce ≠ 0 ∧ req.srvNonce ≠ s.nonce ∧
        s' = s.setJob i ⟨req, .send ⟨req.xid, oldsrvFailure, .empty⟩⟩) ∨
      (req.cltNonce = 0 ∧ s' = s.setJob i ⟨req, .new⟩) ∨
      req.cltNonce ≠ 0 ∧ ∃ phase, Server.phaseOf req (s.check req).2.2 = some phase ∧
        s' = (s.checked req).setJob i ⟨req, phase⟩ := by
  unfold Server.checkJob at h
  split at h
  · cases h
    exact .inl ⟨‹_ ∧ _›.1, ‹_ ∧ _›.2, rfl⟩
  · split at h
    · cases h
    · split at h
      · cases h
        exact .inr (.inl ⟨‹_›, rfl⟩)
      · rw [Option.map_eq_some_iff] at h
        obtain ⟨phase, hp, rfl⟩ := h
        exact .inr (.inr ⟨‹_›, phase, hp, rfl⟩)

theorem phaseOf_new {st : RpcState B} (h : Server.phaseOf req st = some .new) :
    st = .new := by
  cases st with
  | new => rfl
  | done buf => cases buf <;> cases h
  | _ => cases h

/-- A request the duplicate check calls new was not started before. -/
theorem not_known_of_new (h : (s.check req).2.2 = .new) :
    ¬ Known s req.cltNonce req.xid ∧ Known (s.checked req) req.cltNonce req.xid := by
  have hc := checked (s.replyWindow req.cltNonce) (s.xidRepWindow req.cltNonce) req.xid req.xidRep
  obtain ⟨habsent, it, hit, hx⟩ := hc.new h
  have hlt : ¬ req.xid ≤ (s.check req).2.1 := by
    intro hle
    have := hc.forgotten.mpr hle
    rw [show (checkduplicateAndUpdate _ _ _ _).2.2 = _ from h] at this
    cases this
  constructor
  · rintro (⟨it, hit, hx⟩ | hle)
    · exact habsent it hit hx
    · rw [show (s.check req).2.1 = _ from hc.window] at hlt
      exact hlt (Nat.le_trans hle (Nat.le_max_left ..))
  · exact .inl ⟨it, by simpa [Server.checked, Server.check] using hit, hx⟩

theorem Once.check (h : Once s)
    (hs : s.checkJob i req = some s') : Once s' := by
  rcases checkJob_cases hs with ⟨-, -, rfl⟩ | ⟨hn, rfl⟩ | ⟨hn, phase, hp, rfl⟩
  · exact h.setJob rfl rfl (fun _ _ hk => hk) nofun
  · exact h.setNew rfl rfl (fun _ _ hk => hk) fun hne => absurd hn hne
  · by_cases hph : phase = .new
    · subst hph
      exact h.setNew rfl rfl (fun _ _ => known_checked req) fun _ => not_known_of_new (phaseOf_new hp)
    · exact h.setJob rfl rfl (fun _ _ => known_checked req) hph

theorem Server.reply_xid (s : Server B) (req : Request B) (ret : Nat) (result : B) :
    (s.reply req ret result).xid = req.xid := by
  unfold Server.reply
  split <;> rfl

inductive Server.Does (s : Server B) : Act B → Server B → Prop where
  | arrive {i : Nat} {req : Request B} (hi : s.jobs i = none) :
    Does s (.arrive i req) (s.setJob i ⟨req, .arrived⟩)
  | check {i : Nat} {req : Request B} {s' : Server B} (hi : s.jobs i = some ⟨req, .arrived⟩)
    (hs : s.checkJob i req = some s') : Does s (.check i) s'
  | run {i ret : Nat} {result : B} {req : Request B} (hi : s.jobs i = some ⟨req, .new⟩) :
    Does s (.run i ret result)
      ({s with runs := ⟨req.cltNonce, s.reply req ret result⟩ :: s.runs}.setJob i
        ⟨req, .ran (s.reply req ret result)⟩)
  | pass {i : Nat} {req : Request B} {rep : Reply B} (hi : s.jobs i = some ⟨req, .ran rep⟩)
    (hn : req.cltNonce = 0) : Does s (.addReply i) (s.setJob i ⟨req, .send rep⟩)
  | addReply {i : Nat} {req : Request B} {rep : Reply B} (hi : s.jobs i = some ⟨req, .ran rep⟩)
    (hn : req.cltNonce ≠ 0) :
    Does s (.addReply i) ({s with
      replyWindow := update s.replyWindow req.cltNonce
        (Rpc.addReply req.xid rep (s.replyWindow req.cltNonce))}.setJob i ⟨req, .send rep⟩)
  | send {i : Nat} {req : Request B} {rep : Reply B} (hi : s.jobs i = some ⟨req, .send rep⟩) :
    Does s (.send i) ({s with sent := (req.cltNonce, rep) :: s.sent}.setJob i ⟨req, .finished⟩)

theorem Server.step_does {a : Act B} (hs : s.step a = some s') : s.Does a s' := by
  cases a with
  | arrive i req =>
    simp only [Server.step] at hs
    split at hs <;> cases hs
    rename_i hi
    exact .arrive (Option.isNone_iff_eq_none.mp hi)
  | check i =>
    simp only [Server.step] at hs
    split at hs
    · rename_i req hi
      exact .check hi hs
    · cases hs
  | run i ret result =>
    simp only [Server.step] at hs
    split at hs <;> cases hs
    rename_i req hi
    exact .run hi
  | addReply i =>
    simp only [Server.step] at hs
    split at hs
    · rename_i req rep hi
      split at hs <;> cases hs
      · exact .pass hi ‹_›
      · exact .addReply hi ‹_›
    · cases hs
  | send i =>
    simp only [Server.step] at hs
    split at hs <;> cases hs
    rename_i req rep hi
    exact .send hi

/-- **Every step of every job keeps the bookkeeping.** -/
theorem Once.step {x : Act B} (h : Once s) (hs : s.step x = some s') : Once s' := by
  cases Server.step_does hs with
  | check _ hs => exact h.check hs
  | run hi => exact h.run_handler hi (s.reply_xid ..)
  | addReply => exact h.setJob rfl rfl (fun _ _ => known_addReply) nofun
  | arrive | pass | send => exact h.setJob rfl rfl (fun _ _ hk => hk) nofun

theorem once_init (nonce : Nat) (procs : Nat → Bool) : Once ({nonce, procs} : Server B) :=
  ⟨nofun, nofun, nofun, fun _ _ _ he => absurd rfl he, fun _ _ _ => Nat.zero_le 1⟩

theorem once_of_steps {nonce : Nat} {procs : Nat → Bool}
    (h : Steps Server.step anyMove {nonce, procs} s) : Once s :=
  h.invariant (once_init nonce procs) fun _ _ _ hi _ hs => hi.step hs

/-- What was started stays known. -/
theorem known_step {a : Act B} (hs : s.step a = some s') {n x : Nat} (h : Known s n x) :
    Known s' n x := by
  cases Server.step_does hs with
  | check _ hs =>
    rcases checkJob_cases hs with ⟨-, -, rfl⟩ | ⟨-, rfl⟩ | ⟨-, phase, -, rfl⟩
    · exact h
    · exact h
    · exact known_checked _ h
  | addReply => exact known_addReply h
  | arrive | run | pass | send => exact h

theorem xidRepWindow_step {a : Act B} (hs : s.step a = some s') (n : Nat) :
    s.xidRepWindow n ≤ s'.xidRepWindow n := by
  cases Server.step_does hs with
  | @check _ req _ _ hs =>
    rcases checkJob_cases hs with ⟨-, -, rfl⟩ | ⟨-, rfl⟩ | ⟨-, phase, -, rfl⟩
    · exact Nat.le_refl _
    · exact Nat.le_refl _
    · have hc := checked (s.replyWindow req.cltNonce) (s.xidRepWindow req.cltNonce) req.xid req.xidRep
      show s.xidRepWindow n ≤ update s.xidRepWindow req.cltNonce (s.check req).2.1 n
      by_cases hn : n = req.cltNonce
      · rw [hn, update_self, show (s.check req).2.1 = _ from hc.window]
        exact Nat.le_max_left ..
      · exact Nat.le_of_eq (update_of_ne hn ..).symm
  | arrive | run | pass | addReply | send => exact Nat.le_refl _

theorem forgotten_of_le (h : req.xid ≤ s.xidRepWindow req.cltNonce) :
    (s.check req).2.2 = .forgotten := by
  have hc := checked (s.replyWindow req.cltNonce) (s.xidRepWindow req.cltNonce) req.xid req.xidRep
  refine hc.forgotten.mpr (Nat.le_trans h ?_)
  rw [hc.window]
  exact Nat.le_max_left ..

/-- **At-most-once execution.** The handler runs at most once for a request of a client,
and once the server has dropped its entry, every later request with that number is
answered FORGOTTEN. -/
theorem at_most_once {nonce : Nat} {procs : Nat → Bool} {s : Server B}
    (h : Steps Server.step anyMove {nonce, procs} s) :
    (∀ n x, n ≠ 0 → (s.executions n x).length ≤ 1) ∧
      ∀ n x a s' s'', s.step a = some s' → (∃ it ∈ s.replyWindow n, it.xid = x) →
        (∀ it ∈ s'.replyWindow n, it.xid ≠ x) → Steps Server.step anyMove s' s'' →
        ∀ req : Request B, req.cltNonce = n → req.xid = x → (s''.check req).2.2 = .forgotten := by
  refine ⟨(once_of_steps h).once, fun n x a s' s'' hs hit hgone hrun req hn hx => ?_⟩
  have hle : x ≤ s'.xidRepWindow n := by
    rcases known_step hs (.inl hit) with ⟨it, hmem, heq⟩ | hle
    · exact absurd heq (hgone it hmem)
    · exact hle
  have hle : x ≤ s''.xidRepWindow n :=
    hrun.invariant hle fun _ _ _ hi _ hstep => Nat.le_trans hi (xidRepWindow_step hstep n)
  exact forgotten_of_le (by rwa [hn, hx])

/-- Client 7 sends request 1 twice; it runs once. Its request 2 acknowledges the reply, the
entry goes, and a third copy of request 1 is answered FORGOTTEN. -/
theorem at_most_once_duplicate :
    ∃ s s' : Server Nat, Steps Server.step anyMove {nonce := 3, procs := fun _ => true} s ∧
      s.step (.check 2) = some s' ∧ (s.executions 7 1).length ≤ 1 ∧
      (s'.check ⟨1, 5, 7, 3, 0, 0⟩).2.2 = .forgotten := by
  obtain ⟨s, hs, hit, hstep⟩ : ∃ s : Server Nat,
      Steps Server.step anyMove {nonce := 3, procs := fun _ => true} s ∧
        (∃ it ∈ s.replyWindow 7, it.xid = 1) ∧
        (s.step (.check 2)).any (fun s' => decide (∀ it ∈ s'.replyWindow 7, it.xid ≠ 1)) = true :=
    Steps.exists_of_run
      [.arrive 0 ⟨1, 5, 7, 3, 0, 0⟩, .arrive 1 ⟨1, 5, 7, 3, 0, 0⟩, .check 0, .check 1, .run 0 0 9,
        .addReply 0, .send 0, .arrive 2 ⟨2, 5, 7, 3, 1, 0⟩]
      (by decide)
  rw [Option.any_eq_true] at hstep
  obtain ⟨s', hs', hgone⟩ := hstep
  have hmost := at_most_once hs
  exact ⟨s, s', hs, hs', hmost.1 7 1 (by decide),
    hmost.2 7 1 _ s' s' hs' hit (of_decide_eq_true hgone) .refl _ rfl rfl⟩

end Once

end Yfs.Rpc

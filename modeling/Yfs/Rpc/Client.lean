import Mathlib.Algebra.Group.Nat.Defs
import Mathlib.Data.List.Pairwise
import Yfs.Rpc.Server

/-! The RPC client, `rpcc`: many calls at once over one connection at a time.

A call takes the next number, is entered in `calls_`, and sends its request, as often as
the connection breaks; it leaves its loop when a reply has come, when it was cancelled
or when its time is over, and then takes itself out of `calls_`. Every request carries
an acknowledgement, the front of `xid_rep_window_`: the client takes `n` in when a reply
to call `n` comes or when call `n` ends, and the front is only moved over numbers taken
in (`Acked.update`). Sections under `m_` are one step. -/
namespace Yfs.Rpc
open Base

/-! ### The acknowledgement window -/

/-- `xid_rep_window_.front()`. -/
def front (w : List Nat) : Nat := w.headD 0

/-- The first loop of `update_xid_rep`: `xid` before the first larger entry, or at the end. -/
def insertXid (xid : Nat) : List Nat → List Nat
  | [] => [xid]
  | it :: rest => if it > xid then xid :: it :: rest else it :: insertXid xid rest

/-- The loop at `compress`: `q` is the list up to the iterator, which runs over the rest.
`while (front() + 1 == *it) pop_front()` stops at the iterator, if not before. -/
def compress (q : List Nat) : List Nat → List Nat
  | [] => q
  | it :: rest => compress (q.dropWhile (· + 1 = it) ++ [it]) rest

/-- `update_xid_rep`. The numbers stay below the largest `unsigned int`, so that `+ 1` does
not wrap. -/
def updateXidRep (xid : Nat) (w : List Nat) : List Nat :=
  if xid ≤ front w then w
  else
    match insertXid xid w with
    | [] => []
    | it :: rest => compress [it] rest

/-- A window over numbers with `P`: it is in order, what it holds has `P`, and so has
everything up to its front. -/
structure Acked (P : Nat → Prop) (w : List Nat) : Prop where
  nonempty : w ≠ []
  sorted : w.Pairwise (· ≤ ·)
  mem : ∀ y ∈ w, 0 < y → P y
  below : ∀ y, 0 < y → y ≤ front w → P y

section Window
variable {P Q : Nat → Prop}

theorem acked_init (P : Nat → Prop) : Acked P [0] :=
  ⟨by simp, by simp, by simp, fun _ h0 hy => absurd (Nat.lt_of_lt_of_le h0 hy) (Nat.lt_irrefl 0)⟩

theorem Acked.mono {w : List Nat} (h : Acked P w) (hPQ : ∀ y, P y → Q y) : Acked Q w :=
  ⟨h.nonempty, h.sorted, fun y hy h0 => hPQ y (h.mem y hy h0), fun y h0 hy => hPQ y (h.below y h0 hy)⟩

theorem mem_insertXid {xid y : Nat} {w : List Nat} : y ∈ insertXid xid w ↔ y = xid ∨ y ∈ w := by
  induction w with
  | nil => simp [insertXid]
  | cons it rest ih =>
    unfold insertXid
    split
    · simp
    · rw [List.mem_cons, ih, List.mem_cons]
      exact or_left_comm

theorem insertXid_sorted {xid : Nat} {w : List Nat} (h : w.Pairwise (· ≤ ·)) :
    (insertXid xid w).Pairwise (· ≤ ·) := by
  induction w with
  | nil => simp [insertXid]
  | cons it rest ih =>
    rw [List.pairwise_cons] at h
    unfold insertXid
    split
    · rename_i hlt
      refine List.pairwise_cons.mpr ⟨fun y hy => ?_, List.pairwise_cons.mpr h⟩
      rcases List.mem_cons.mp hy with rfl | hy
      · omega
      · have := h.1 y hy
        omega
    · rename_i hle
      refine List.pairwise_cons.mpr ⟨fun y hy => ?_, ih h.2⟩
      rcases mem_insertXid.mp hy with rfl | hy
      · omega
      · exact h.1 y hy

/-- Taking the front away where the iterator's number follows it. -/
theorem Acked.drop {q rest : List Nat} {it : Nat} (h : Acked P (q ++ it :: rest)) :
    Acked P (q.dropWhile (· + 1 = it) ++ it :: rest) := by
  induction q with
  | nil => exact h
  | cons f q ih =>
    rw [List.dropWhile_cons]
    split
    · rename_i hf
      have hf : f + 1 = it := by simpa using hf
      apply ih
      have hs := List.pairwise_cons.mp h.sorted
      refine ⟨by simp, hs.2, fun y hy => h.mem y (List.mem_cons_of_mem _ hy), fun y h0 hy => ?_⟩
      have hfront : front (q ++ it :: rest) ∈ q ++ it :: rest := by
        cases q <;> simp [front]
      have hle : front (q ++ it :: rest) ≤ it := by
        cases q with
        | nil => exact Nat.le_refl it
        | cons g q =>
          have := (List.pairwise_cons.mp hs.2).1 it (by simp)
          simpa [front] using this
      by_cases hyf : y ≤ f
      · exact h.below y h0 (by simpa [front] using hyf)
      · have : y = front (q ++ it :: rest) := by omega
        rw [this] at h0 ⊢
        exact h.mem _ (List.mem_cons_of_mem _ hfront) h0
    · exact h

theorem Acked.compress {q rest : List Nat} (h : Acked P (q ++ rest)) : Acked P (compress q rest) := by
  induction rest generalizing q with
  | nil => simpa [Rpc.compress] using h
  | cons it rest ih =>
    apply ih
    simpa using h.drop

/-- The front of the window moves only over numbers with `P`. -/
theorem Acked.update {w : List Nat} {xid : Nat} (h : Acked P w) (hx : P xid) :
    Acked P (updateXidRep xid w) := by
  unfold updateXidRep
  split
  · exact h
  · rename_i hlt
    have hins : Acked P (insertXid xid w) := by
      cases w with
      | nil => exact absurd rfl h.nonempty
      | cons f rest =>
        refine ⟨?_, insertXid_sorted h.sorted, fun y hy h0 => ?_, fun y h0 hy => ?_⟩
        · unfold insertXid
          split <;> simp
        · rcases mem_insertXid.mp hy with rfl | hy
          · exact hx
          · exact h.mem y hy h0
        · refine h.below y h0 ?_
          have : ¬ f > xid := by simpa [front, Nat.le_of_lt] using fun hf => hlt (Nat.le_of_lt hf)
          simpa [insertXid, this, front] using hy
    split
    · rename_i heq
      exact absurd heq hins.nonempty
    · rename_i it rest heq
      rw [heq] at hins
      exact Acked.compress hins

end Window

/-! ### Calls -/

/-- Where `call1` is: in its loop, out of it, out of `calls_`, returned. -/
inductive CallPhase where
  | waiting
  | left
  | erased
  | returned (ret : Int)
  deriving DecidableEq

/-- In `calls_`. -/
def CallPhase.registered : CallPhase → Bool
  | .waiting | .left => true
  | _ => false

/-- One call of `call1`: its marshalled request, its `caller`, and where it is. `intret` is
not set before `done`. -/
structure Caller (B : Type) where
  req : Request B
  done : Bool := false
  intret : Int := 0
  un : Body B := .empty
  phase : CallPhase := .waiting
  deriving DecidableEq

/-- The client: `calls` has every call made so far under its number, `calls_` those that
are registered; no `dupReq` is the number -1; `out` is what it has sent. -/
structure Client (B : Type) where
  cltNonce : Nat
  lossytest : Bool
  srvNonce : Nat := 0
  bindDone : Bool := false
  xid : Nat := 1
  destroyWait : Bool := false
  calls : Nat → Option (Caller B) := fun _ => none
  xidRepWindow : List Nat := [0]
  dupReq : Option (Request B) := none
  xidRepDone : Int := -1
  out : List (Request B) := []

/-- A step of a call, or of `bind`, `cancel` and `got_pdu`. -/
inductive CAct (B : Type) where
  | call (proc : Nat) (args : B)
  | transmit (x : Nat)
  | leave (x : Nat)
  | erase (x : Nat)
  | finish (x : Nat)
  | bound (x : Nat)
  | cancel
  | gotPdu (rep : Reply B)

namespace Client
variable {B : Type}

def setCall (c : Client B) (x : Nat) (ca : Caller B) : Client B :=
  {c with calls := Function.update c.calls x (some ca)}

/-- `call1` up to its loop; a call before `bind`, a second `bind` and a call after `cancel`
return a failure at once. -/
def call (c : Client B) (proc : Nat) (args : B) : Client B :=
  if (proc ≠ bind ∧ c.bindDone = false) ∨ (proc = bind ∧ c.bindDone = true) then c
  else if c.destroyWait then c
  else
    {c with xid := (c.xid + 1) % 2 ^ 32}.setCall c.xid
      {req := ⟨c.xid, proc, c.cltNonce, c.srvNonce, front c.xidRepWindow, args⟩}

/-- The resend of an old request, when all replies up to it were acknowledged. -/
def sendForgot (c : Client B) : Client B :=
  match c.dupReq with
  | some forgot =>
    if c.xidRepDone > forgot.xid then {c with dupReq := none, out := forgot :: c.out} else c
  | none => c

/-- `got_pdu`. -/
def gotPdu (c : Client B) (rep : Reply B) : Client B :=
  let c := {c with xidRepWindow := updateXidRep rep.xid c.xidRepWindow}
  match c.calls rep.xid with
  | some ca =>
    if ca.phase.registered ∧ ca.done = false then
      c.setCall rep.xid {ca with un := rep.body, intret := rep.ret, done := true}
    else c
  | none => c

/-- `cancel`, up to its wait. -/
def cancel (c : Client B) : Client B :=
  {c with
    calls := fun x => (c.calls x).map fun ca =>
      if ca.phase.registered then {ca with done := true, intret := cancelFailure} else ca
    destroyWait := c.destroyWait ||
      (List.range c.xid).any fun x => (c.calls x).any fun ca => ca.phase.registered}

/-- The end of `call1`: with `RPC_LOSSY`, an answered request is kept to be sent again. -/
def finish (c : Client B) (x : Nat) (ca : Caller B) : Client B :=
  let c := if ca.done ∧ c.lossytest then
      {c with
        dupReq := c.dupReq.or (some ca.req)
        xidRepDone := max c.xidRepDone ca.req.xidRep}
    else c
  c.setCall x {ca with phase := .returned (if ca.done then ca.intret else timeoutFailure)}

def step (c : Client B) : CAct B → Option (Client B)
  | .call proc args => some (c.call proc args)
  | .transmit x =>
    match c.calls x with
    | some ca =>
      if ca.phase = .waiting then some {c.sendForgot with out := ca.req :: c.sendForgot.out} else none
    | none => none
  | .leave x =>
    match c.calls x with
    | some ca => if ca.phase = .waiting then some (c.setCall x {ca with phase := .left}) else none
    | none => none
  | .erase x =>
    match c.calls x with
    | some ca =>
      if ca.phase = .left then
        some ({c with xidRepWindow := updateXidRep x c.xidRepWindow}.setCall x {ca with phase := .erased})
      else none
    | none => none
  | .finish x =>
    match c.calls x with
    | some ca => if ca.phase = .erased then some (c.finish x ca) else none
    | none => none
  | .bound x =>
    match c.calls x with
    | some ca =>
      match ca.un with
      | .nonce r =>
        if ca.req.proc = bind ∧ ca.phase = .returned 0 then
          some {c with bindDone := true, srvNonce := r}
        else none
      | _ => none
    | none => none
  | .cancel => some c.cancel
  | .gotPdu rep => some (c.gotPdu rep)

/-- The call is pending: no reply has come, its time is not over, it is not cancelled. -/
def Pending (c : Client B) (x : Nat) : Prop :=
  ∃ ca, c.calls x = some ca ∧ ca.phase = .waiting ∧ ca.done = false

/-- A reply has come or the call is out of `calls_`. -/
def Settled (c : Client B) (x : Nat) : Prop :=
  ∃ ca, c.calls x = some ca ∧ (ca.done = true ∨ ca.phase.registered = false)

end Client

/-! ### What a call keeps -/

section Extends
variable {B : Type}

/-- Every call is still there, with its request, and settled if it was. -/
def Extends (c c' : Client B) : Prop :=
  ∀ x ca, c.calls x = some ca → ∃ ca', c'.calls x = some ca' ∧ ca'.req = ca.req ∧
    (ca.done = true ∨ ca.phase.registered = false → ca'.done = true ∨ ca'.phase.registered = false)

theorem Extends.refl (c : Client B) : Extends c c := fun _ ca h => ⟨ca, h, rfl, id⟩

theorem Extends.settled {c c' : Client B} (h : Extends c c') {x : Nat} (hx : c.Settled x) :
    c'.Settled x := by
  obtain ⟨ca, hca, hs⟩ := hx
  obtain ⟨ca', hca', -, hs'⟩ := h x ca hca
  exact ⟨ca', hca', hs' hs⟩

/-- A call is replaced by one with its request that is settled if it was. -/
theorem extends_setCall {c : Client B} {x : Nat} {ca ca' : Caller B} (h : c.calls x = some ca)
    (hreq : ca'.req = ca.req)
    (hs : ca.done = true ∨ ca.phase.registered = false → ca'.done = true ∨ ca'.phase.registered = false) :
    Extends c (c.setCall x ca') := by
  intro y cb hy
  by_cases hyx : y = x
  · subst hyx
    rw [h] at hy
    cases hy
    exact ⟨ca', Function.update_self .., hreq, hs⟩
  · exact ⟨cb, (Function.update_of_ne hyx ..).trans hy, rfl, id⟩

theorem setCall_settled {c : Client B} {x : Nat} {ca : Caller B}
    (hs : ca.done = true ∨ ca.phase.registered = false) : (c.setCall x ca).Settled x :=
  ⟨ca, Function.update_self .., hs⟩

theorem not_pending_of_settled {c : Client B} {x : Nat} (h : c.Settled x) : ¬ c.Pending x := by
  rintro ⟨ca, hca, hp, hd⟩
  obtain ⟨ca', hca', hs⟩ := h
  rw [hca] at hca'
  cases hca'
  rcases hs with hs | hs
  · rw [hd] at hs
    cases hs
  · rw [hp] at hs
    cases hs

end Extends

end Yfs.Rpc

import Yfs.Rpc.Client

/-! One RPC client and one server over a network that loses, repeats, delays and reorders.

What was sent stays available, so that any message can be delivered late or again, or
never. Requests of other clients arrive at the server as they like, under other nonces.

Two facts carry the argument. An acknowledgement that reached the server was once the
front of the client's window, so every call it covers is settled, and settled calls stay
settled: the server forgets nothing of a call that still waits. And a reply on the wire
to this client is either FORGOTTEN for a settled call or the reply of a handler run; runs
are unique, so the reply that a call takes is that of its run. -/
namespace Yfs.Rpc
open Base

structure Net (B : Type) where
  client : Client B
  server : Server B

/-- A step of the client, a request of the client or of another one that arrives at the
server, a step of a dispatch job, a reply that arrives at the client. -/
inductive NAct (B : Type) where
  | client (a : CAct B)
  | request (i k : Nat)
  | foreign (i : Nat) (req : Request B)
  | server (a : Act B)
  | reply (k : Nat)

section Machine
variable {B : Type}

/-- Not an arrival, which has moves of its own. -/
def CAct.internal : CAct B → Bool
  | .gotPdu _ => false
  | _ => true

def Act.internal : Act B → Bool
  | .arrive _ _ => false
  | _ => true

namespace Net

def step (s : Net B) : NAct B → Option (Net B)
  | .client a => if a.internal then (s.client.step a).map fun c => {s with client := c} else none
  | .request i k =>
    s.client.out[k]?.bind fun req => (s.server.step (.arrive i req)).map fun v => {s with server := v}
  | .foreign i req =>
    if req.cltNonce = s.client.cltNonce then none
    else (s.server.step (.arrive i req)).map fun v => {s with server := v}
  | .server a => if a.internal then (s.server.step a).map fun v => {s with server := v} else none
  | .reply k =>
    s.server.sent[k]?.bind fun (n, rep) =>
      if n = s.client.cltNonce then (s.client.step (.gotPdu rep)).map fun c => {s with client := c}
      else none

def init (cltNonce : Nat) (lossytest : Bool) (nonce : Nat) (procs : Nat → Bool) : Net B where
  client := {cltNonce, lossytest}
  server := {nonce, procs}

end Net

def few : Net B → NAct B → Prop
  | s, .client (.call _ _) => s.client.xid < 2 ^ 31
  | _, _ => True

instance (s : Net B) (a : NAct B) : Decidable (few s a) := by
  unfold few
  split <;> infer_instance

end Machine

/-! ### The invariant -/

section Invariant
variable {B : Type} {n₀ srv : Nat} {i : Nat} {req : Request B} {rep : Reply B}

/-- A request of the client as some call made it, whose acknowledgement covers settled
calls only. -/
structure Good (srv : Nat) (c : Client B) (req : Request B) : Prop where
  call : ∃ ca, c.calls req.xid = some ca ∧ ca.req = req
  acked : ∀ y, 0 < y → y ≤ req.xidRep → c.Settled y
  instance_ : req.srvNonce = 0 ∨ req.srvNonce = srv

/-- The client's side, given the server's nonce and the handler runs so far. -/
structure ClientOk (n₀ srv : Nat) (runs : List (Exec B)) (c : Client B) : Prop where
  nonce : c.cltNonce = n₀
  srvNonce : c.srvNonce = 0 ∨ c.srvNonce = srv
  xid : 0 < c.xid ∧ c.xid ≤ 2 ^ 31
  issued : ∀ x ca, c.calls x = some ca → 0 < x ∧ x < c.xid ∧ ca.req.xid = x ∧ ca.req.cltNonce = n₀
  window : Acked c.Settled c.xidRepWindow
  good : ∀ x ca, c.calls x = some ca → Good srv c ca.req
  out : ∀ req ∈ c.out, Good srv c req
  dup : ∀ req, c.dupReq = some req → Good srv c req
  done : ∀ x ca, c.calls x = some ca → ca.done = true →
    ca.intret = cancelFailure ∨ ⟨n₀, ⟨x, ca.intret, ca.un⟩⟩ ∈ runs
  returned : ∀ x ca ret, c.calls x = some ca → ca.phase = .returned ret →
    ret = if ca.done then ca.intret else timeoutFailure
  ran : ∀ e ∈ runs, e.cltNonce = n₀ → ∃ ca, c.calls e.rep.xid = some ca ∧
    (ca.req.proc = bind → e.rep.body = .nonce srv)

/-- A reply to the client: FORGOTTEN for a settled call, or that of a handler run. -/
def RepOk (n₀ : Nat) (c : Client B) (runs : List (Exec B)) (rep : Reply B) : Prop :=
  (rep.ret = atmostonceFailure ∧ c.Settled rep.xid) ∨ ⟨n₀, rep⟩ ∈ runs

structure ServerOk (n₀ : Nat) (c : Client B) (s : Server B) : Prop where
  once : Once s
  good : ∀ i job, s.jobs i = some job → job.req.cltNonce = n₀ → Good s.nonce c job.req
  ran : ∀ i req rep, s.jobs i = some ⟨req, .ran rep⟩ → req.cltNonce = n₀ → ⟨n₀, rep⟩ ∈ s.runs
  sending : ∀ i req rep, s.jobs i = some ⟨req, .send rep⟩ → req.cltNonce = n₀ →
    RepOk n₀ c s.runs rep
  acked : ∀ y, 0 < y → y ≤ s.xidRepWindow n₀ → c.Settled y
  slots : ∀ it ∈ s.replyWindow n₀, ∀ rep, it.buf = some rep → ⟨n₀, rep⟩ ∈ s.runs
  sent : ∀ rep, (n₀, rep) ∈ s.sent → RepOk n₀ c s.runs rep

theorem Good.extends {c c' : Client B} (h : Good srv c req) (he : Extends c c') :
    Good srv c' req := by
  obtain ⟨ca, hca, hreq⟩ := h.call
  obtain ⟨ca', hca', hreq', -⟩ := he _ ca hca
  exact ⟨⟨ca', hca', hreq'.trans hreq⟩, fun y h0 hy => he.settled (h.acked y h0 hy), h.instance_⟩

theorem RepOk.mono {c c' : Client B} {runs runs' : List (Exec B)}
    (h : RepOk n₀ c runs rep) (he : Extends c c') (hr : ∀ e ∈ runs, e ∈ runs') :
    RepOk n₀ c' runs' rep :=
  h.imp (fun ⟨hret, hs⟩ => ⟨hret, he.settled hs⟩) (hr _)

theorem ServerOk.extends {c c' : Client B} {s : Server B} (h : ServerOk n₀ c s) (he : Extends c c') :
    ServerOk n₀ c' s where
  once := h.once
  good i job hj hn := (h.good i job hj hn).extends he
  ran := h.ran
  sending i req rep hj hn := (h.sending i req rep hj hn).mono he fun _ h => h
  acked y h0 hy := he.settled (h.acked y h0 hy)
  slots := h.slots
  sent rep hr := (h.sent rep hr).mono he fun _ h => h

/-! ### The client's steps -/

variable {runs : List (Exec B)} {c c' : Client B}

/-- A step that makes no call: the calls keep their requests, and what is new is shown. -/
theorem ClientOk.update (h : ClientOk n₀ srv runs c) (he : Extends c c')
    (hnonce : c'.cltNonce = c.cltNonce) (hsrv : c'.srvNonce = 0 ∨ c'.srvNonce = srv)
    (hxid : c'.xid = c.xid)
    (hback : ∀ x ca', c'.calls x = some ca' → ∃ ca, c.calls x = some ca ∧ ca'.req = ca.req)
    (hwindow : Acked c'.Settled c'.xidRepWindow) (hout : ∀ req ∈ c'.out, Good srv c req)
    (hdup : ∀ req, c'.dupReq = some req → Good srv c req)
    (hdone : ∀ x ca, c'.calls x = some ca → ca.done = true →
      ca.intret = cancelFailure ∨ ⟨n₀, ⟨x, ca.intret, ca.un⟩⟩ ∈ runs)
    (hret : ∀ x ca ret, c'.calls x = some ca → ca.phase = .returned ret →
      ret = if ca.done then ca.intret else timeoutFailure) : ClientOk n₀ srv runs c' where
  nonce := hnonce.trans h.nonce
  srvNonce := hsrv
  xid := by rw [hxid]; exact h.xid
  issued x ca' hx := by
    obtain ⟨ca, hca, hreq⟩ := hback x ca' hx
    rw [hreq, hxid]
    exact h.issued x ca hca
  window := hwindow
  good x ca' hx := by
    obtain ⟨ca, hca, hreq⟩ := hback x ca' hx
    rw [hreq]
    exact (h.good x ca hca).extends he
  out req hr := (hout req hr).extends he
  dup req hr := (hdup req hr).extends he
  done := hdone
  returned := hret
  ran e hmem hn := by
    obtain ⟨ca, hca, hb⟩ := h.ran e hmem hn
    obtain ⟨ca', hca', hreq, -⟩ := he _ ca hca
    exact ⟨ca', hca', by rwa [hreq]⟩

theorem setCall_cases {c : Client B} {x y : Nat} {ca cb : Caller B}
    (h : (c.setCall x ca).calls y = some cb) : y = x ∧ cb = ca ∨ y ≠ x ∧ c.calls y = some cb := by
  have h : Function.update c.calls x (some ca) y = some cb := h
  by_cases hy : y = x
  · subst hy
    rw [Function.update_self] at h
    exact .inl ⟨rfl, (Option.some.inj h).symm⟩
  · rw [Function.update_of_ne hy] at h
    exact .inr ⟨hy, h⟩

/-- A step of call `x` that keeps its request. -/
theorem ClientOk.setCall (h : ClientOk n₀ srv runs c) {x : Nat} {ca ca' : Caller B} {w : List Nat}
    (hca : c.calls x = some ca) (hreq : ca'.req = ca.req)
    (hs : ca.done = true ∨ ca.phase.registered = false → ca'.done = true ∨ ca'.phase.registered = false)
    (hw : Acked (c.setCall x ca').Settled w)
    (hdone : ca'.done = true → ca'.intret = cancelFailure ∨ ⟨n₀, ⟨x, ca'.intret, ca'.un⟩⟩ ∈ runs)
    (hret : ∀ ret, ca'.phase = .returned ret → ret = if ca'.done then ca'.intret else timeoutFailure) :
    ClientOk n₀ srv runs {c.setCall x ca' with xidRepWindow := w} := by
  refine h.update (extends_setCall hca hreq hs) rfl h.srvNonce rfl (fun y cb hy => ?_) hw h.out h.dup
    (fun y cb hy => ?_) (fun y cb ret hy => ?_)
  · rcases setCall_cases hy with ⟨rfl, rfl⟩ | ⟨-, hy⟩
    · exact ⟨ca, hca, hreq⟩
    · exact ⟨cb, hy, rfl⟩
  · rcases setCall_cases hy with ⟨rfl, rfl⟩ | ⟨-, hy⟩
    · exact hdone
    · exact h.done y cb hy
  · rcases setCall_cases hy with ⟨rfl, rfl⟩ | ⟨-, hy⟩
    · exact hret ret
    · exact h.returned y cb ret hy

theorem ClientOk.call (h : ClientOk n₀ srv runs c) (hfew : c.xid < 2 ^ 31) (proc : Nat) (args : B) :
    ClientOk n₀ srv runs (c.call proc args) ∧ Extends c (c.call proc args) := by
  unfold Client.call
  split
  · exact ⟨h, .refl c⟩
  split
  · exact ⟨h, .refl c⟩
  have hfresh : ∀ y ca, c.calls y = some ca → y ≠ c.xid := fun y ca hy he => by
    have := (h.issued y ca hy).2.1
    omega
  have hxid : (c.xid + 1) % 2 ^ 32 = c.xid + 1 := by omega
  rw [hxid]
  have he : Extends c ({c with xid := c.xid + 1}.setCall c.xid
      {req := ⟨c.xid, proc, c.cltNonce, c.srvNonce, front c.xidRepWindow, args⟩}) := by
    intro y ca hy
    exact ⟨ca, (Function.update_of_ne (hfresh y ca hy) ..).trans hy, rfl, id⟩
  refine ⟨?_, he⟩
  have hnew : Good srv ({c with xid := c.xid + 1}.setCall c.xid
      {req := ⟨c.xid, proc, c.cltNonce, c.srvNonce, front c.xidRepWindow, args⟩})
      ⟨c.xid, proc, c.cltNonce, c.srvNonce, front c.xidRepWindow, args⟩ :=
    ⟨⟨_, Function.update_self .., rfl⟩, fun y h0 hy => he.settled (h.window.below y h0 hy), h.srvNonce⟩
  refine ⟨h.nonce, h.srvNonce, ⟨Nat.succ_pos _, hfew⟩, fun y cb hy => ?_,
    h.window.mono fun _ hs => he.settled hs, fun y cb hy => ?_, fun r hr => (h.out r hr).extends he,
    fun r hr => (h.dup r hr).extends he, fun y cb hy hd => ?_, fun y cb ret hy hp => ?_,
    fun e hmem hn => ?_⟩
  · rcases setCall_cases hy with ⟨rfl, rfl⟩ | ⟨-, hy⟩
    · exact ⟨h.xid.1, Nat.lt_succ_self _, rfl, h.nonce⟩
    · obtain ⟨h0, hlt, hr⟩ := h.issued y cb hy
      exact ⟨h0, Nat.lt_succ_of_lt hlt, hr⟩
  · rcases setCall_cases hy with ⟨rfl, rfl⟩ | ⟨-, hy⟩
    · exact hnew
    · exact (h.good y cb hy).extends he
  · rcases setCall_cases hy with ⟨rfl, rfl⟩ | ⟨-, hy⟩
    · cases hd
    · exact h.done y cb hy hd
  · rcases setCall_cases hy with ⟨rfl, rfl⟩ | ⟨-, hy⟩
    · cases hp
    · exact h.returned y cb ret hy hp
  · obtain ⟨ca, hca, hb⟩ := h.ran e hmem hn
    exact ⟨ca, (Function.update_of_ne (hfresh _ ca hca) ..).trans hca, hb⟩

theorem sendForgot_calls (c : Client B) : c.sendForgot.calls = c.calls := by
  unfold Client.sendForgot
  split
  · split <;> rfl
  · rfl

theorem ClientOk.sendForgot (h : ClientOk n₀ srv runs c) : ClientOk n₀ srv runs c.sendForgot := by
  unfold Client.sendForgot
  split
  · rename_i forgot hdup
    split
    · refine h.update (.refl c) rfl h.srvNonce rfl (fun x ca hx => ⟨ca, hx, rfl⟩) h.window
        (fun req hr => ?_) nofun h.done h.returned
      rcases List.mem_cons.mp hr with rfl | hr
      · exact h.dup _ hdup
      · exact h.out req hr
    · exact h
  · exact h

theorem ClientOk.cancel (h : ClientOk n₀ srv runs c) :
    ClientOk n₀ srv runs c.cancel ∧ Extends c c.cancel := by
  have he : Extends c c.cancel := by
    intro x ca hx
    refine ⟨_, by simp only [Client.cancel, hx]; rfl, ?_, fun hs => ?_⟩
    · dsimp only
      split <;> rfl
    · dsimp only
      split
      · exact .inl rfl
      · exact hs
  have back : ∀ x cb, c.cancel.calls x = some cb → ∃ ca, c.calls x = some ca ∧
      cb = if ca.phase.registered then {ca with done := true, intret := cancelFailure} else ca := by
    intro x cb hx
    simp only [Client.cancel, Option.map_eq_some_iff] at hx
    obtain ⟨ca, hca, rfl⟩ := hx
    exact ⟨ca, hca, rfl⟩
  refine ⟨h.update he rfl h.srvNonce rfl (fun x cb hx => ?_) (h.window.mono fun _ hs => he.settled hs)
    h.out h.dup (fun x cb hx hd => ?_) (fun x cb ret hx hp => ?_), he⟩
  · obtain ⟨ca, hca, rfl⟩ := back x cb hx
    refine ⟨ca, hca, ?_⟩
    split <;> rfl
  · obtain ⟨ca, hca, rfl⟩ := back x cb hx
    split
    · exact .inl rfl
    · rename_i hreg
      rw [if_neg hreg] at hd
      exact h.done x ca hca hd
  · obtain ⟨ca, hca, rfl⟩ := back x cb hx
    split at hp
    · rename_i hreg
      rw [show ca.phase = .returned ret from hp] at hreg
      cases hreg
    · rename_i hreg
      rw [if_neg hreg]
      exact h.returned x ca ret hca hp

/-- A reply arrives: its call is settled now, if it was not, by the reply of its run. -/
theorem ClientOk.gotPdu (h : ClientOk n₀ srv runs c) (hrep : RepOk n₀ c runs rep) :
    ClientOk n₀ srv runs (c.gotPdu rep) ∧ Extends c (c.gotPdu rep) := by
  obtain ⟨ca, hca⟩ : ∃ ca, c.calls rep.xid = some ca := by
    rcases hrep with ⟨-, ca, hca, -⟩ | hrun
    · exact ⟨ca, hca⟩
    · obtain ⟨ca, hca, -⟩ := h.ran _ hrun rfl
      exact ⟨ca, hca⟩
  unfold Client.gotPdu
  simp only [hca]
  split
  · rename_i hopen
    have hrun : ⟨n₀, rep⟩ ∈ runs := by
      rcases hrep with ⟨-, cb, hcb, hs⟩ | hrun
      · rw [hca] at hcb
        cases hcb
        rcases hs with hs | hs
        · rw [hopen.2] at hs
          cases hs
        · rw [hopen.1] at hs
          cases hs
      · exact hrun
    have hext : Extends c (c.setCall rep.xid {ca with un := rep.body, intret := rep.ret, done := true}) :=
      extends_setCall hca rfl fun _ => .inl rfl
    refine ⟨h.setCall hca rfl (fun _ => .inl rfl) ?_ (fun _ => .inr hrun) fun ret hp => ?_, hext⟩
    · exact (h.window.mono fun _ hs => hext.settled hs).update (setCall_settled (.inl rfl))
    · rw [show ca.phase = .returned ret from hp] at hopen
      cases hopen.1
  · rename_i hclosed
    have hs : c.Settled rep.xid := by
      refine ⟨ca, hca, ?_⟩
      by_contra hno
      simp only [not_or, Bool.not_eq_true, Bool.not_eq_false] at hno
      exact hclosed ⟨hno.2, hno.1⟩
    refine ⟨h.update (.refl c) rfl h.srvNonce rfl (fun x ca hx => ⟨ca, hx, rfl⟩) (h.window.update hs) h.out
      h.dup h.done h.returned, .refl c⟩

theorem ClientOk.finish (h : ClientOk n₀ srv runs c) {x : Nat} {ca : Caller B}
    (hca : c.calls x = some ca) :
    ClientOk n₀ srv runs (c.finish x ca) ∧ Extends c (c.finish x ca) := by
  have he : Extends c (c.setCall x
      {ca with phase := .returned (if ca.done then ca.intret else timeoutFailure)}) :=
    extends_setCall hca rfl fun _ => .inr rfl
  have h' : ClientOk n₀ srv runs (c.setCall x
      {ca with phase := .returned (if ca.done then ca.intret else timeoutFailure)}) :=
    h.setCall (w := c.xidRepWindow) hca rfl (fun _ => .inr rfl) (h.window.mono fun _ hs => he.settled hs)
      (h.done x ca hca) fun ret hp => (CallPhase.returned.inj hp).symm
  unfold Client.finish
  dsimp only
  split
  · refine ⟨h'.update (.refl _) rfl h.srvNonce rfl (fun y cb hy => ⟨cb, hy, rfl⟩) h'.window h'.out
      (fun req hr => ?_) h'.done h'.returned, he⟩
    have hr : c.dupReq.or (some ca.req) = some req := hr
    rw [Option.or_eq_some_iff] at hr
    rcases hr with hr | ⟨-, hr⟩
    · exact h'.dup req hr
    · cases hr
      exact (h.good x ca hca).extends he
  · exact ⟨h', he⟩

/-- **Every step of the client keeps its side**, and the calls go on. -/
theorem ClientOk.step (h : ClientOk n₀ srv runs c) {a : CAct B} (hs : c.step a = some c')
    (ha : a.internal = true) (hfew : ∀ proc args, a = .call proc args → c.xid < 2 ^ 31) :
    ClientOk n₀ srv runs c' ∧ Extends c c' := by
  cases a with
  | call proc args =>
    cases hs
    exact h.call (hfew proc args rfl) proc args
  | transmit x =>
    simp only [Client.step] at hs
    split at hs
    · rename_i ca hca
      split at hs <;> cases hs
      have h' := h.sendForgot
      have hca' : c.sendForgot.calls x = some ca := by rw [sendForgot_calls, hca]
      have he : Extends c c.sendForgot := fun y cb hy => ⟨cb, by rw [sendForgot_calls, hy], rfl, id⟩
      refine ⟨h'.update (.refl _) rfl h'.srvNonce rfl (fun y cb hy => ⟨cb, hy, rfl⟩) h'.window
        (fun req hr => ?_) h'.dup h'.done h'.returned, he⟩
      rcases List.mem_cons.mp hr with rfl | hr
      · exact h'.good x ca hca'
      · exact h'.out req hr
    · cases hs
  | leave x =>
    simp only [Client.step] at hs
    split at hs
    · rename_i ca hca
      split at hs <;> cases hs
      rename_i hp
      have hkeep : ca.done = true ∨ ca.phase.registered = false →
          ca.done = true ∨ CallPhase.left.registered = false := by
        rw [hp]
        exact fun hs => hs
      have he : Extends c (c.setCall x {ca with phase := .left}) := extends_setCall hca rfl hkeep
      exact ⟨h.setCall hca rfl hkeep (h.window.mono fun _ hs => he.settled hs) (h.done x ca hca) nofun, he⟩
    · cases hs
  | erase x =>
    simp only [Client.step] at hs
    split at hs
    · rename_i ca hca
      split at hs <;> cases hs
      have he : Extends c (c.setCall x {ca with phase := .erased}) :=
        extends_setCall hca rfl fun _ => .inr rfl
      exact ⟨h.setCall hca rfl (fun _ => .inr rfl)
        ((h.window.mono fun _ hs => he.settled hs).update (setCall_settled (.inr rfl)))
        (h.done x ca hca) nofun, he⟩
    · cases hs
  | finish x =>
    simp only [Client.step] at hs
    split at hs
    · rename_i ca hca
      split at hs <;> cases hs
      exact h.finish hca
    · cases hs
  | bound x =>
    simp only [Client.step] at hs
    split at hs
    · rename_i ca hca
      split at hs
      · rename_i r hun
        split at hs <;> cases hs
        rename_i hret
        have hval := h.returned x ca 0 hca hret.2
        have hdone : ca.done = true := by
          by_contra hd
          rw [if_neg hd] at hval
          cases hval
        rw [if_pos hdone] at hval
        have hr : r = srv := by
          rcases h.done x ca hca hdone with hc | hrun
          · rw [← hval] at hc
            cases hc
          · obtain ⟨cb, hcb, hbody⟩ := h.ran _ hrun rfl
            rw [show c.calls x = some cb from hcb] at hca
            cases hca
            have := hbody hret.1
            rw [show ca.un = _ from this] at hun
            cases hun
            rfl
        exact ⟨h.update (.refl c) rfl (.inr hr) rfl (fun y cb hy => ⟨cb, hy, rfl⟩) h.window h.out h.dup
          h.done h.returned, .refl c⟩
      · cases hs
    · cases hs
  | cancel =>
    cases hs
    exact h.cancel
  | gotPdu rep => cases ha

/-! ### The server's steps -/

variable {s s' : Server B}

theorem ServerOk.setJob (h : ServerOk n₀ c s) {job : Job B} (honce : Once (s'.setJob i job))
    (hnonce : s'.nonce = s.nonce) (hjobs : s'.jobs = s.jobs) (hruns : ∀ e ∈ s.runs, e ∈ s'.runs)
    (hacked : ∀ y, 0 < y → y ≤ s'.xidRepWindow n₀ → c.Settled y)
    (hslots : ∀ it ∈ s'.replyWindow n₀, ∀ rep, it.buf = some rep → ⟨n₀, rep⟩ ∈ s'.runs)
    (hsent : ∀ rep, (n₀, rep) ∈ s'.sent → RepOk n₀ c s'.runs rep)
    (hgood : job.req.cltNonce = n₀ → Good s.nonce c job.req)
    (hran : ∀ rep, job.phase = .ran rep → job.req.cltNonce = n₀ → ⟨n₀, rep⟩ ∈ s'.runs)
    (hsend : ∀ rep, job.phase = .send rep → job.req.cltNonce = n₀ → RepOk n₀ c s'.runs rep) :
    ServerOk n₀ c (s'.setJob i job) := by
  have cases : ∀ j jb, (s'.setJob i job).jobs j = some jb → jb = job ∨ s.jobs j = some jb := by
    intro j jb hj
    by_cases hji : j = i
    · subst hji
      rw [setJob_self] at hj
      exact .inl (Option.some.inj hj).symm
    · rw [setJob_ne hji, hjobs] at hj
      exact .inr hj
  refine ⟨honce, fun j jb hj hn => ?_, fun j req rep hj hn => ?_, fun j req rep hj hn => ?_, hacked,
    hslots, hsent⟩
  · show Good s'.nonce c jb.req
    rw [hnonce]
    rcases cases j jb hj with rfl | hj
    · exact hgood hn
    · exact h.good j jb hj hn
  · rcases cases j _ hj with rfl | hj
    · exact hran rep rfl hn
    · exact hruns _ (h.ran j req rep hj hn)
  · rcases cases j _ hj with rfl | hj
    · exact hsend rep rfl hn
    · exact (h.sending j req rep hj hn).mono (.refl c) hruns

theorem ServerOk.arrive (h : ServerOk n₀ c s)
    (hs : s.step (.arrive i req) = some s') (hgood : req.cltNonce = n₀ → Good s.nonce c req) :
    ServerOk n₀ c s' := by
  have honce := h.once.step hs
  cases Server.step_does hs
  exact h.setJob honce rfl rfl (fun _ he => he) h.acked h.slots h.sent hgood (fun _ hp => by cases hp)
    (fun _ hp => by cases hp)

/-- The check of a request of this client: what it acknowledges is settled, so what is
forgotten is; and what is sent again is the reply of a run. -/
theorem ServerOk.checked (h : ServerOk n₀ c s) (hn : req.cltNonce = n₀)
    (hgood : Good s.nonce c req) :
    (∀ y, 0 < y → y ≤ (s.check req).2.1 → c.Settled y) ∧
      (∀ it ∈ (s.check req).1, ∀ rep, it.buf = some rep → ⟨n₀, rep⟩ ∈ s.runs) ∧
      ∀ rep, (s.check req).2.2 = .done (some rep) → ⟨n₀, rep⟩ ∈ s.runs := by
  subst hn
  have hc := Rpc.checked (s.replyWindow req.cltNonce) (s.xidRepWindow req.cltNonce) req.xid req.xidRep
  refine ⟨fun y h0 hy => ?_, fun it hit rep hrep => ?_, fun rep hrep => ?_⟩
  · rw [show (s.check req).2.1 = _ from hc.window] at hy
    rcases (by omega : y ≤ s.xidRepWindow req.cltNonce ∨ y ≤ req.xidRep) with hy | hy
    · exact h.acked y h0 hy
    · exact hgood.acked y h0 hy
  · rcases hc.added it hit with hit | ⟨-, rfl⟩
    · exact h.slots it hit rep hrep
    · cases hrep
  · obtain ⟨it, hit, -, -, hbuf⟩ := hc.done _ hrep
    exact h.slots it hit rep hbuf

theorem ServerOk.check (h : ServerOk n₀ c s)
    (hpos : req.cltNonce = n₀ → 0 < req.xid) (hi : s.jobs i = some ⟨req, .arrived⟩)
    (hs : s.checkJob i req = some s') : ServerOk n₀ c s' := by
  have honce := h.once.check hs
  have hgood : req.cltNonce = n₀ → Good s.nonce c req := h.good i _ hi
  rcases checkJob_cases hs with ⟨h0, hne, rfl⟩ | ⟨hzero, rfl⟩ | ⟨hnz, phase, hp, rfl⟩
  · refine h.setJob honce rfl rfl (fun _ he => he) h.acked h.slots h.sent hgood nofun fun rep _ hn => ?_
    rcases (hgood hn).instance_ with hv | hv
    · exact absurd hv h0
    · exact absurd hv hne
  · refine h.setJob honce rfl rfl (fun _ he => he) h.acked h.slots h.sent hgood nofun nofun
  · by_cases hn : req.cltNonce = n₀
    · obtain ⟨hacked, hslots, hdone⟩ := h.checked hn (hgood hn)
      refine h.setJob honce rfl rfl (fun _ he => he) ?_ ?_ h.sent hgood (fun rep hph _ => ?_)
        (fun rep hph _ => ?_)
      · simpa [Server.checked, hn] using hacked
      · simpa [Server.checked, hn] using hslots
      · rw [show phase = .ran rep from hph] at hp
        cases hst : (s.check req).2.2 with
        | done buf =>
          rw [hst] at hp
          cases buf <;> cases hp
        | _ => rw [hst] at hp; cases hp
      · rw [show phase = .send rep from hph] at hp
        cases hst : (s.check req).2.2 with
        | new => rw [hst] at hp; cases hp
        | inprogress => rw [hst] at hp; cases hp
        | done buf =>
          rw [hst] at hp
          cases buf <;> cases hp
          exact .inr (hdone rep hst)
        | forgotten =>
          rw [hst] at hp
          cases hp
          have hc := Rpc.checked (s.replyWindow req.cltNonce) (s.xidRepWindow req.cltNonce) req.xid
            req.xidRep
          exact .inl ⟨rfl, hacked _ (hpos hn) (hc.forgotten.mp hst)⟩
    · refine h.setJob honce rfl rfl (fun _ he => he) ?_ ?_ h.sent hgood
        (fun rep _ hn' => absurd hn' hn) (fun rep _ hn' => absurd hn' hn)
      · simpa [Server.checked, Ne.symm hn] using h.acked
      · simpa [Server.checked, Ne.symm hn] using h.slots

theorem ServerOk.addReply (h : ServerOk n₀ c s)
    (hi : s.jobs i = some ⟨req, .ran rep⟩)
    (hs : s.step (.addReply i) = some s') : ServerOk n₀ c s' := by
  have honce := h.once.step hs
  have hgood : req.cltNonce = n₀ → Good s.nonce c req := h.good i _ hi
  have hsend : ∀ rep', Phase.send rep = .send rep' → req.cltNonce = n₀ → RepOk n₀ c s.runs rep' := by
    intro rep' heq hn
    cases heq
    exact .inr (h.ran i req rep hi hn)
  have hran : ∀ rep', Phase.send rep = .ran rep' → req.cltNonce = n₀ → ⟨n₀, rep'⟩ ∈ s.runs := by
    intro rep' heq
    cases heq
  simp only [Server.step, hi] at hs
  split at hs <;> cases hs
  · exact h.setJob honce rfl rfl (fun _ he => he) h.acked h.slots h.sent hgood hran hsend
  · refine h.setJob honce rfl rfl (fun _ he => he) h.acked (fun it hit rep' hbuf => ?_) h.sent hgood hran
      hsend
    dsimp only at hit
    by_cases hn : req.cltNonce = n₀
    · subst hn
      rw [Function.update_self] at hit
      rcases addReply_mem hit with hit | ⟨-, hb⟩
      · exact h.slots it hit rep' hbuf
      · rw [hb] at hbuf
        cases hbuf
        exact h.ran i req rep hi rfl
    · rw [Function.update_of_ne (Ne.symm hn)] at hit
      exact h.slots it hit rep' hbuf

theorem ServerOk.send (h : ServerOk n₀ c s)
    (hi : s.jobs i = some ⟨req, .send rep⟩) (hs : s.step (.send i) = some s') : ServerOk n₀ c s' := by
  have honce := h.once.step hs
  simp only [Server.step, hi] at hs
  cases hs
  refine h.setJob honce rfl rfl (fun _ he => he) h.acked h.slots (fun rep' hsent => ?_)
    (h.good i ⟨req, .send rep⟩ hi) (fun _ hp => by cases hp) (fun _ hp => by cases hp)
  rcases List.mem_cons.mp hsent with heq | hsent
  · cases heq
    exact h.sending i req rep hi rfl
  · exact h.sent rep' hsent

/-- The handler runs for a job: the reply is that of a run from now on. -/
theorem ServerOk.run (h : ServerOk n₀ c s) {ret : Nat} {result : B}
    (hi : s.jobs i = some ⟨req, .new⟩) (hs : s.step (.run i ret result) = some s') :
    ServerOk n₀ c s' := by
  have honce := h.once.step hs
  simp only [Server.step, hi] at hs
  cases hs
  have hruns : ∀ e ∈ s.runs, e ∈ (⟨req.cltNonce, s.reply req ret result⟩ :: s.runs) :=
    fun e he => List.mem_cons_of_mem _ he
  refine h.setJob honce rfl rfl hruns h.acked (fun it hit rep hb => hruns _ (h.slots it hit rep hb))
    (fun rep hr => (h.sent rep hr).mono (.refl c) hruns) (h.good i ⟨req, .new⟩ hi)
    (fun rep hp hn => ?_) (fun _ hp => by cases hp)
  cases hp
  rw [← hn]
  exact List.mem_cons_self

/-- A new run of a request of this client is one of a call, and `rpcbind` returns the
server's nonce. -/
theorem ClientOk.ran_cons (h : ClientOk n₀ s.nonce runs c) {ret : Nat} {result : B}
    (hgood : req.cltNonce = n₀ → Good s.nonce c req) :
    ClientOk n₀ s.nonce (⟨req.cltNonce, s.reply req ret result⟩ :: runs) c := by
  refine {h with
    done := fun x ca hx hd => (h.done x ca hx hd).imp_right (List.mem_cons_of_mem _)
    ran := fun e he hn => ?_}
  rcases List.mem_cons.mp he with rfl | he
  · obtain ⟨ca, hca, hreq⟩ := (hgood hn).call
    refine ⟨ca, by rw [s.reply_xid, hca], fun hp => ?_⟩
    rw [hreq] at hp
    rw [Server.reply, if_pos hp]
  · exact h.ran e he hn

structure NetOk (n₀ : Nat) (s : Net B) : Prop where
  client : ClientOk n₀ s.server.nonce s.server.runs s.client
  server : ServerOk n₀ s.client s.server

theorem step_nonce {a : Act B} (hs : s.step a = some s') : s'.nonce = s.nonce := by
  cases Server.step_does hs with
  | check _ hs => rcases checkJob_cases hs with ⟨-, -, rfl⟩ | ⟨-, rfl⟩ | ⟨-, phase, -, rfl⟩ <;> rfl
  | arrive | run | pass | addReply | send => rfl

theorem NetOk.arrive {s : Net B} (h : NetOk n₀ s) {v : Server B}
    (hs : s.server.step (.arrive i req) = some v) (hgood : req.cltNonce = n₀ → Good s.server.nonce s.client req) :
    NetOk n₀ {s with server := v} := by
  have hv := h.server.arrive hs hgood
  cases Server.step_does hs
  exact ⟨h.client, hv⟩

theorem NetOk.serverStep {s : Net B} (h : NetOk n₀ s) {v : Server B} {a : Act B} (ha : a.internal = true)
    (hs : s.server.step a = some v) : NetOk n₀ {s with server := v} := by
  have hnonce := step_nonce hs
  suffices hv : ServerOk n₀ s.client v ∧ ClientOk n₀ s.server.nonce v.runs s.client by
    refine ⟨?_, hv.1⟩
    show ClientOk n₀ v.nonce v.runs s.client
    rw [hnonce]
    exact hv.2
  cases Server.step_does hs with
  | arrive => cases ha
  | @check i req _ hi hs =>
    have hpos : req.cltNonce = n₀ → 0 < req.xid := by
      intro hn
      obtain ⟨ca, hca, -⟩ := (h.server.good i _ hi hn).call
      exact (h.client.issued _ ca hca).1
    refine ⟨h.server.check hpos hi hs, ?_⟩
    have hruns : v.runs = s.server.runs := by
      rcases checkJob_cases hs with ⟨-, -, rfl⟩ | ⟨-, rfl⟩ | ⟨-, phase, -, rfl⟩ <;> rfl
    rw [hruns]
    exact h.client
  | run hi => exact ⟨h.server.run hi hs, h.client.ran_cons (h.server.good _ _ hi)⟩
  | pass hi => exact ⟨h.server.addReply hi hs, h.client⟩
  | addReply hi => exact ⟨h.server.addReply hi hs, h.client⟩
  | send hi => exact ⟨h.server.send hi hs, h.client⟩

/-- **Every step of the network keeps both sides.** -/
theorem NetOk.step {s s' : Net B} {a : NAct B} (h : NetOk n₀ s) (hfew : few s a)
    (hs : s.step a = some s') : NetOk n₀ s' := by
  cases a with
  | client a =>
    simp only [Net.step] at hs
    split at hs
    · rename_i ha
      rw [Option.map_eq_some_iff] at hs
      obtain ⟨c, hc, rfl⟩ := hs
      obtain ⟨hclient, he⟩ := h.client.step hc ha fun proc args heq => by subst heq; exact hfew
      exact ⟨hclient, h.server.extends he⟩
    · cases hs
  | request i k =>
    simp only [Net.step, Option.bind_eq_some_iff, Option.map_eq_some_iff] at hs
    obtain ⟨req, hreq, v, hv, rfl⟩ := hs
    exact h.arrive hv fun _ => h.client.out req (List.mem_of_getElem? hreq)
  | foreign i req =>
    simp only [Net.step] at hs
    split at hs
    · cases hs
    · rename_i hne
      rw [Option.map_eq_some_iff] at hs
      obtain ⟨v, hv, rfl⟩ := hs
      exact h.arrive hv fun hn => absurd (hn.trans h.client.nonce.symm) hne
  | server a =>
    simp only [Net.step] at hs
    split at hs
    · rename_i ha
      rw [Option.map_eq_some_iff] at hs
      obtain ⟨v, hv, rfl⟩ := hs
      exact h.serverStep ha hv
    · cases hs
  | reply k =>
    simp only [Net.step, Option.bind_eq_some_iff] at hs
    obtain ⟨⟨n, rep⟩, hk, hs⟩ := hs
    split at hs
    · rename_i hn
      cases hs
      obtain rfl : n = n₀ := Eq.trans hn h.client.nonce
      obtain ⟨hclient, he⟩ := h.client.gotPdu (h.server.sent rep (List.mem_of_getElem? hk))
      exact ⟨hclient, h.server.extends he⟩
    · cases hs

theorem netOk_init (n₀ : Nat) (lossytest : Bool) (nonce : Nat) (procs : Nat → Bool) :
    NetOk n₀ (.init n₀ lossytest nonce procs : Net B) where
  client := ⟨rfl, .inl rfl, ⟨Nat.one_pos, Nat.one_le_two_pow⟩, nofun, acked_init _, nofun, nofun, nofun,
    nofun, nofun, nofun⟩
  server := ⟨once_init nonce procs, nofun, nofun, nofun, fun _ h0 hy =>
    absurd (Nat.lt_of_lt_of_le h0 hy) (Nat.lt_irrefl 0), nofun, nofun⟩

end Invariant

section EndToEnd
variable {B : Type}

theorem Server.mem_executions {s : Server B} {n x : Nat} {e : Exec B} :
    e ∈ s.executions n x ↔ e ∈ s.runs ∧ e.cltNonce = n ∧ e.rep.xid = x := by
  simp [Server.executions]

/-- **End-to-end RPC correctness.** The server does not answer FORGOTTEN to a request of a
pending call, and a call that returns a server's reply returns the result of the one
handler run for its number. -/
theorem end_to_end {n₀ : Nat} {lossytest : Bool} {nonce : Nat} {procs : Nat → Bool} (hn₀ : n₀ ≠ 0)
    {s : Net B} (h : Steps Net.step few (.init n₀ lossytest nonce procs) s) :
    (∀ i req, s.server.jobs i = some ⟨req, .arrived⟩ → req.cltNonce = n₀ →
        (s.server.check req).2.2 = .forgotten → ¬ s.client.Pending req.xid) ∧
      ∀ x ca ret, s.client.calls x = some ca → ca.phase = .returned ret → ca.done = true →
        ret ≠ cancelFailure → s.server.executions n₀ x = [⟨n₀, ⟨x, ret, ca.un⟩⟩] := by
  have hok : NetOk n₀ s := h.invariant (netOk_init n₀ lossytest nonce procs)
    fun _ _ _ hi hf hs => hi.step hf hs
  constructor
  · intro i req hi hn hforgot
    have hgood := hok.server.good i _ hi hn
    obtain ⟨ca, hca, -⟩ := hgood.call
    have hc := checked (s.server.replyWindow req.cltNonce) (s.server.xidRepWindow req.cltNonce) req.xid
      req.xidRep
    exact not_pending_of_settled
      ((hok.server.checked hn hgood).1 _ (hok.client.issued _ ca hca).1 (hc.forgotten.mp hforgot))
  · intro x ca ret hca hp hd hne
    have hret : ret = ca.intret := by
      rw [hok.client.returned x ca ret hca hp, if_pos hd]
    rcases hok.client.done x ca hca hd with hcancel | hrun
    · exact absurd (hret.trans hcancel) hne
    · rw [← hret] at hrun
      have hmem : ⟨n₀, ⟨x, ret, ca.un⟩⟩ ∈ s.server.executions n₀ x :=
        Server.mem_executions.mpr ⟨hrun, rfl, rfl⟩
      have hlen := hok.server.once.once n₀ x hn₀
      match hl : s.server.executions n₀ x, hlen with
      | [], _ =>
        rw [hl] at hmem
        cases hmem
      | [e], _ =>
        rw [hl] at hmem
        rw [List.mem_singleton.mp hmem]

/-- A client binds and makes a call whose request arrives three times; the reply it gets
is a resend, and the handler ran once. -/
theorem end_to_end_resend :
    ∃ s : Net Nat, Steps Net.step few (.init 7 false 3 fun _ => true) s ∧
      s.server.executions 7 2 = [⟨7, ⟨2, 0, .value 99⟩⟩] := by
  obtain ⟨s, hs, hcall⟩ : ∃ s : Net Nat, Steps Net.step few (.init 7 false 3 fun _ => true) s ∧
      (s.client.calls 2).any (fun ca =>
        decide (ca.phase = .returned 0 ∧ ca.done = true ∧ ca.un = .value 99)) = true :=
    Steps.exists_of_run
      [.client (.call 1 0), .client (.transmit 1), .request 0 0, .server (.check 0), .server (.run 0 0 0),
        .server (.addReply 0), .server (.send 0), .reply 0, .client (.leave 1), .client (.erase 1),
        .client (.finish 1), .client (.bound 1), .client (.call 5 11), .client (.transmit 2),
        .request 1 0, .request 2 0, .server (.check 1), .server (.check 2), .server (.run 1 0 99),
        .server (.addReply 1), .request 3 0, .server (.check 3), .server (.send 3), .reply 0,
        .client (.leave 2), .client (.erase 2), .client (.finish 2)]
      (by decide)
  rw [Option.any_eq_true] at hcall
  obtain ⟨ca, hca, hret⟩ := hcall
  obtain ⟨hp, hd, hun⟩ := of_decide_eq_true hret
  have := (end_to_end (by decide) hs).2 2 ca 0 hca hp hd (by decide)
  exact ⟨s, hs, by rw [this, hun]⟩

end EndToEnd

end Yfs.Rpc

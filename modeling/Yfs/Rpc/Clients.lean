import Yfs.Base.Linear
import Yfs.Rpc.EndToEnd

/-! Any number of RPC clients and one server whose handlers work on one object.

Each client has a nonce of its own, and the network between them and the server loses,
repeats, delays and reorders as it does for one client. A handler runs at one moment: it
reads and changes the object and returns. What the callers see are the calls they make
and the results they get.

For each client the system is the network of `EndToEnd`, where the other clients are the
foreign ones. So a reply that a call takes is that of its one handler run, which lies
between the call and its return, and the handler runs in their order are an order in
which the calls took effect (`calls_linearize`). A call that fails, by its time or by
`cancel`, may have taken effect, once, before or after it failed. -/
namespace Yfs.Rpc
open Base
open Function (update update_of_ne update_self)

abbrev Op (B : Type) := Nat × B

abbrev Outcome (B : Type) := Int × Body B

/-- The clients by their nonces, the server, the object of its handlers, and what the
callers saw, the last first; a call is known by its client and its number. -/
structure Service (B S : Type) where
  client : Nat → Client B
  server : Server B
  object : S
  log : List (Mark (Nat × Nat) (Op B) (Outcome B)) := []

/-- A step of a client, a request of a client that arrives, a step of a dispatch job, the
handler of a job, a reply that arrives at its client. -/
inductive SAct (B : Type) where
  | client (n : Nat) (a : CAct B)
  | request (n i k : Nat)
  | server (a : Act B)
  | run (i : Nat)
  | reply (k : Nat)

section Machine
variable {B S : Type}

def Caller.op (ca : Caller B) : Op B := (ca.req.proc, ca.req.args)

/-- What a step of client `n` from `c` to `c'` shows: a call that was made, a result that
was returned. -/
def CAct.shows (n : Nat) (c c' : Client B) : CAct B → List (Mark (Nat × Nat) (Op B) (Outcome B))
  | .call proc args => if (c'.calls c.xid).isSome then [.called (n, c.xid) (proc, args)] else []
  | .finish x =>
    match c'.calls x with
    | some ca =>
      match ca.phase with
      | .returned ret => if 0 ≤ ret then [.returned (n, x) ca.op (ret, ca.un)] else []
      | _ => []
    | none => []
  | _ => []

/-- Not the handler, which has a move of its own. -/
def Act.quiet : Act B → Bool
  | .arrive _ _ | .run _ _ _ => false
  | _ => true

/-- What a handler does to the object. The result of `rpcbind` is the server's nonce. -/
def method (handle : Nat → B → S → Option (Nat × B × S)) (op : Op B) (x : S) : Option (Nat × B × S) :=
  if op.1 = bind then some (0, op.2, x) else handle op.1 op.2 x

/-- What a handler of a server with this nonce returns. -/
def outcome (nonce : Nat) (op : Op B) (ret : Nat) (result : B) : Outcome B :=
  if op.1 = bind then (0, .nonce nonce) else (ret, .value result)

/-- The object as its callers know it. -/
def Effect (handle : Nat → B → S → Option (Nat × B × S)) (nonce : Nat) (x : S) (op : Op B) (o : Outcome B) (x' : S) :
    Prop :=
  ∃ ret result, method handle op x = some (ret, result, x') ∧ o = outcome nonce op ret result

namespace Service

/-- The handler of job `i` runs. -/
def handler (handle : Nat → B → S → Option (Nat × B × S)) (s : Service B S) (i : Nat) : Option (Service B S) :=
  (s.server.jobs i).bind fun job =>
    (method handle (job.req.proc, job.req.args) s.object).bind fun (ret, result, x) =>
      (s.server.step (.run i ret result)).map fun v => {s with server := v, object := x}

def step (handle : Nat → B → S → Option (Nat × B × S)) (s : Service B S) : SAct B → Option (Service B S)
  | .client n a =>
    if n ≠ 0 ∧ a.internal then
      ((s.client n).step a).map fun c =>
        {s with client := update s.client n c, log := a.shows n (s.client n) c ++ s.log}
    else none
  | .request n i k =>
    if n ≠ 0 then
      (s.client n).out[k]?.bind fun req => (s.server.step (.arrive i req)).map fun v => {s with server := v}
    else none
  | .server a => if a.quiet then (s.server.step a).map fun v => {s with server := v} else none
  | .run i => s.handler handle i
  | .reply k =>
    s.server.sent[k]?.bind fun (n, rep) =>
      ((s.client n).step (.gotPdu rep)).map fun c => {s with client := update s.client n c}

def init (lossytest : Nat → Bool) (nonce : Nat) (procs : Nat → Bool) (x₀ : S) : Service B S where
  client n := {cltNonce := n, lossytest := lossytest n}
  server := {nonce, procs}
  object := x₀

def few : Service B S → SAct B → Prop
  | s, .client n (.call _ _) => (s.client n).xid < 2 ^ 31
  | _, _ => True

instance (s : Service B S) (a : SAct B) : Decidable (few s a) := by
  unfold few
  split <;> infer_instance

def net (s : Service B S) (n : Nat) : Net B := ⟨s.client n, s.server⟩

end Service
end Machine

/-! ### What a client's step does to its calls -/

section Calls
variable {B : Type} {c c' : Client B}

/-- The same call, and it has returned if it had. -/
def Caller.Keeps (ca ca' : Caller B) : Prop :=
  ca'.req = ca.req ∧ ∀ ret, ca'.phase = .returned ret ↔ ca.phase = .returned ret

theorem Caller.Keeps.refl (ca : Caller B) : ca.Keeps ca := ⟨rfl, fun _ => .rfl⟩

/-- Every call is kept and none is made. -/
def Client.Keeps (c c' : Client B) : Prop := ∀ x, Option.Rel Caller.Keeps (c.calls x) (c'.calls x)

theorem Client.Keeps.of_eq (h : c'.calls = c.calls) : c.Keeps c' := by
  intro x
  rw [h]
  cases c.calls x with
  | none => exact .none
  | some ca => exact .some (.refl ca)

theorem Client.Keeps.setCall {x : Nat} {ca ca' : Caller B} (h : c.calls x = some ca)
    (hc : c'.calls = update c.calls x (some ca')) (hk : ca.Keeps ca') : c.Keeps c' := by
  intro y
  rw [hc]
  by_cases hy : y = x
  · rw [hy, h, update_self]
    exact .some hk
  · rw [update_of_ne hy]
    exact Client.Keeps.of_eq rfl y

/-- A call of `call1` is refused or makes call `c.xid`. -/
theorem call_keeps (proc : Nat) (args : B) :
    c.call proc args = c ∨
      ∃ ca : Caller B, ca.op = (proc, args) ∧ ca.phase = .waiting ∧
        (c.call proc args).calls = update c.calls c.xid (some ca) := by
  unfold Client.call
  split
  · exact .inl rfl
  split
  · exact .inl rfl
  · exact .inr ⟨_, rfl, rfl, rfl⟩

theorem cancel_keeps (c : Client B) : c.Keeps c.cancel := by
  intro x
  have hx : c.cancel.calls x = (c.calls x).map fun ca =>
      if ca.phase.registered then {ca with done := true, intret := cancelFailure} else ca := rfl
  rw [hx]
  cases c.calls x with
  | none => exact .none
  | some ca =>
    refine .some ?_
    dsimp only
    split
    · exact ⟨rfl, fun _ => .rfl⟩
    · exact .refl ca

theorem gotPdu_keeps (c : Client B) (rep : Reply B) : c.Keeps (c.gotPdu rep) := by
  unfold Client.gotPdu
  dsimp only
  split
  · rename_i ca hca
    split
    · exact .setCall hca rfl ⟨rfl, fun _ => .rfl⟩
    · exact .of_eq rfl
  · exact .of_eq rfl

/-- The end of `call1` changes that call. -/
theorem finish_calls (x : Nat) (ca : Caller B) :
    (c.finish x ca).calls = update c.calls x
      (some {ca with phase := .returned (if ca.done then ca.intret else timeoutFailure)}) := by
  unfold Client.finish
  dsimp only
  split <;> rfl

/-- What a step does to the calls: one more is made, one that was erased returns, or all
are kept. -/
inductive Client.Moves (c : Client B) : CAct B → Client B → Prop where
  | made {proc : Nat} {args : B} {c' : Client B} {ca : Caller B} (hop : ca.op = (proc, args))
    (hp : ca.phase = .waiting) (hc : c'.calls = update c.calls c.xid (some ca)) :
    Moves c (.call proc args) c'
  | returned {x : Nat} {ca : Caller B} {c' : Client B} (hca : c.calls x = some ca) (hp : ca.phase = .erased)
    (hc : c'.calls = update c.calls x
      (some {ca with phase := .returned (if ca.done then ca.intret else timeoutFailure)})) :
    Moves c (.finish x) c'
  | refused {proc : Nat} {args : B} : Moves c (.call proc args) c
  | kept {a : CAct B} {c' : Client B} (ha : ∀ n, a.shows n c c' = []) (hk : c.Keeps c') : Moves c a c'

theorem step_moves {a : CAct B} (hs : c.step a = some c') : c.Moves a c' := by
  cases a with
  | call proc args =>
    cases hs
    obtain heq | ⟨ca, hop, hp, hc⟩ := call_keeps (c := c) proc args
    · rw [heq]
      exact .refused
    · exact .made hop hp hc
  | transmit x =>
    simp only [Client.step] at hs
    split at hs
    · split at hs <;> cases hs
      exact .kept (fun _ => rfl) (.of_eq (sendForgot_calls c))
    · cases hs
  | leave x =>
    simp only [Client.step] at hs
    split at hs
    · rename_i ca hca
      split at hs <;> cases hs
      rename_i hp
      exact .kept (fun _ => rfl) (.setCall hca rfl ⟨rfl, fun _ => by simp [hp]⟩)
    · cases hs
  | erase x =>
    simp only [Client.step] at hs
    split at hs
    · rename_i ca hca
      split at hs <;> cases hs
      rename_i hp
      exact .kept (fun _ => rfl) (.setCall hca rfl ⟨rfl, fun _ => by simp [hp]⟩)
    · cases hs
  | finish x =>
    simp only [Client.step] at hs
    split at hs
    · rename_i ca hca
      split at hs <;> cases hs
      rename_i hp
      exact .returned hca hp (finish_calls x ca)
    · cases hs
  | bound x =>
    simp only [Client.step] at hs
    split at hs
    · split at hs
      · split at hs <;> cases hs
        exact .kept (fun _ => rfl) (.of_eq rfl)
      · cases hs
    · cases hs
  | cancel =>
    cases hs
    exact .kept (fun _ => rfl) (cancel_keeps c)
  | gotPdu rep =>
    cases hs
    exact .kept (fun _ => rfl) (gotPdu_keeps c rep)

end Calls

/-! ### The calls and the history -/

section Linked
variable {B S : Type} {n x : Nat} {runs : List (Exec B)}

def Ran (runs : List (Exec B)) (n x : Nat) : Prop := ∃ rep : Reply B, ⟨n, rep⟩ ∈ runs ∧ rep.xid = x

def Caller.Open (ca : Caller B) : Prop := ∀ ret, ca.phase = .returned ret → ret < 0

/-- What the history says of call `x` of client `n`: nothing before it is made and after
it returned a result, and in between whether its handler has run. -/
inductive Told (runs : List (Exec B)) (n x : Nat) : Option (Caller B) → Pending (Op B) (Outcome B) → Prop where
  | unmade : Told runs n x none .idle
  | called {ca : Caller B} : ca.Open → ¬ Ran runs n x → Told runs n x (some ca) (.called ca.op)
  | done {ca : Caller B} {ret : Int} {body : Body B} : ca.Open → ⟨n, ⟨x, ret, body⟩⟩ ∈ runs →
      Told runs n x (some ca) (.done ca.op (ret, body))
  | returned {ca : Caller B} {ret : Int} : ca.phase = .returned ret → 0 ≤ ret → Ran runs n x →
      Told runs n x (some ca) .idle

theorem Caller.Keeps.op_eq {ca ca' : Caller B} (h : ca.Keeps ca') : ca'.op = ca.op := by
  unfold Caller.op
  rw [h.1]

theorem Told.keeps {r r' : Option (Caller B)} {p : Pending (Op B) (Outcome B)} (h : Told runs n x r p)
    (hk : Option.Rel Caller.Keeps r r') : Told runs n x r' p := by
  cases hk with
  | none => exact h
  | some hk =>
    have hopen : ∀ ca ca' : Caller B, ca.Keeps ca' → ca.Open → ca'.Open :=
      fun _ _ hk ho ret hp => ho ret ((hk.2 ret).mp hp)
    cases h with
    | called ho hr =>
      rw [← hk.op_eq]
      exact .called (hopen _ _ hk ho) hr
    | done ho hr =>
      rw [← hk.op_eq]
      exact .done (hopen _ _ hk ho) hr
    | returned hp hret hr => exact .returned ((hk.2 _).mpr hp) hret hr

theorem Told.cons {r : Option (Caller B)} {p : Pending (Op B) (Outcome B)} {e : Exec B}
    (h : Told runs n x r p) (he : ¬ (e.cltNonce = n ∧ e.rep.xid = x)) : Told (e :: runs) n x r p := by
  have hran : Ran (e :: runs) n x → Ran runs n x := by
    intro ⟨rep, hmem, hx⟩
    cases List.mem_cons.mp hmem with
    | inl heq => exact absurd (heq ▸ ⟨rfl, hx⟩) he
    | inr hmem => exact ⟨rep, hmem, hx⟩
  cases h with
  | unmade => exact .unmade
  | called ho hr => exact .called ho fun hran' => hr (hran hran')
  | done ho hr => exact .done ho (List.mem_cons_of_mem _ hr)
  | returned hp hret hr =>
    obtain ⟨rep, hmem, hx⟩ := hr
    exact .returned hp hret ⟨rep, List.mem_cons_of_mem _ hmem, hx⟩

theorem ran_iff {s : Server B} : Ran s.runs n x ↔ s.executions n x ≠ [] := by
  constructor
  · intro ⟨rep, hmem, hx⟩ hnil
    have hmem' : ⟨n, rep⟩ ∈ s.executions n x := Server.mem_executions.mpr ⟨hmem, rfl, hx⟩
    rw [hnil] at hmem'
    cases hmem'
  · intro hne
    obtain ⟨e, he⟩ := List.exists_mem_of_ne_nil _ hne
    obtain ⟨hmem, hn, hx⟩ := Server.mem_executions.mp he
    exact ⟨e.rep, hn ▸ hmem, hx⟩

theorem Once.run_unique {s : Server B} (h : Once s) (hn : n ≠ 0) {rep rep' : Reply B}
    (hr : ⟨n, rep⟩ ∈ s.runs) (hr' : ⟨n, rep'⟩ ∈ s.runs) (hx : rep.xid = rep'.xid) : rep = rep' := by
  have hmem : ⟨n, rep⟩ ∈ s.executions n rep'.xid := Server.mem_executions.mpr ⟨hr, rfl, hx⟩
  have hmem' : ⟨n, rep'⟩ ∈ s.executions n rep'.xid := Server.mem_executions.mpr ⟨hr', rfl, rfl⟩
  have hlen := h.once n rep'.xid hn
  match hl : s.executions n rep'.xid, hlen with
  | [], _ =>
    rw [hl] at hmem
    cases hmem
  | [e], _ =>
    rw [hl] at hmem hmem'
    have heq := (List.mem_singleton.mp hmem).trans (List.mem_singleton.mp hmem').symm
    exact (Exec.mk.inj heq).2

end Linked

/-! ### The invariant -/

section Invariant
variable {B S : Type} {handle : Nat → B → S → Option (Nat × B × S)} {nonce : Nat} {x₀ : S}
  {s s' : Service B S}

/-- Every client is one end of a network, no request is of nonce 0, and the history is
that of the handler runs. -/
structure Linked (handle : Nat → B → S → Option (Nat × B × S)) (nonce : Nat) (x₀ : S) (s : Service B S) : Prop where
  same : s.server.nonce = nonce
  net : ∀ n, n ≠ 0 → NetOk n (s.net n)
  nonces : ∀ i job, s.server.jobs i = some job → job.req.cltNonce ≠ 0
  history : ∃ pend, Linear (Effect handle nonce) x₀ s.log pend s.object ∧
    ∀ n x, n ≠ 0 → Told s.server.runs n x ((s.client n).calls x) (pend (n, x))

/-- What the history says after a step of client `n`. -/
theorem told_update {runs : List (Exec B)} {client : Nat → Client B} {n : Nat} {c : Client B}
    {pend pend' : Nat × Nat → Pending (Op B) (Outcome B)}
    (h : ∀ m x, m ≠ 0 → Told runs m x ((client m).calls x) (pend (m, x)))
    (hn : ∀ x, Told runs n x (c.calls x) (pend' (n, x))) (hpend : ∀ m x, m ≠ n → pend' (m, x) = pend (m, x)) :
    ∀ m x, m ≠ 0 → Told runs m x ((update client n c m).calls x) (pend' (m, x)) := by
  intro m x hm
  by_cases hmn : m = n
  · rw [hmn, update_self]
    exact hn x
  · rw [update_of_ne hmn, hpend m x hmn]
    exact h m x hm

theorem net_update {n m : Nat} {c : Client B} (h : ∀ m, m ≠ 0 → NetOk m (s.net m))
    (hn : n ≠ 0 → NetOk n ⟨c, s.server⟩) (hm : m ≠ 0) :
    NetOk m ⟨update s.client n c m, s.server⟩ := by
  by_cases hmn : m = n
  · rw [hmn, update_self]
    exact hn (hmn ▸ hm)
  · rw [update_of_ne hmn]
    exact h m hm

theorem Linked.made {n : Nat} (h : Linked handle nonce x₀ s) (hn : n ≠ 0) {c : Client B} {ca : Caller B}
    (hp : ca.phase = .waiting) (hc : c.calls = update (s.client n).calls (s.client n).xid (some ca)) :
    ∃ pend, Linear (Effect handle nonce) x₀ (.called (n, (s.client n).xid) ca.op :: s.log) pend s.object ∧
      ∀ m x, m ≠ 0 → Told s.server.runs m x ((update s.client n c m).calls x) (pend (m, x)) := by
  obtain ⟨pend, hlin, htold⟩ := h.history
  have hclient : ClientOk n s.server.nonce s.server.runs (s.client n) := (h.net n hn).client
  have hnone : (s.client n).calls (s.client n).xid = none := by
    rw [Option.eq_none_iff_forall_ne_some]
    intro cb hcb
    exact Nat.lt_irrefl _ (hclient.issued _ cb hcb).2.1
  have hidle : pend (n, (s.client n).xid) = .idle := by
    have := htold n (s.client n).xid hn
    rw [hnone] at this
    generalize pend (n, (s.client n).xid) = p at this
    cases this
    rfl
  refine ⟨_, hlin.call _ ca.op hidle, told_update htold (fun x => ?_) fun m x hmn => ?_⟩
  · rw [hc]
    by_cases hx : x = (s.client n).xid
    · rw [hx, update_self, update_self]
      refine .called (fun ret hret => ?_) fun ⟨rep, hmem, hrep⟩ => ?_
      · rw [hp] at hret
        cases hret
      · obtain ⟨cb, hcb, -⟩ := hclient.ran _ hmem rfl
        rw [hrep, hnone] at hcb
        cases hcb
    · rw [update_of_ne hx, update_of_ne fun heq => hx (Prod.mk.inj heq).2]
      exact htold n x hn
  · rw [update_of_ne fun heq => hmn (Prod.mk.inj heq).1]

theorem Linked.returned {n x : Nat} (h : Linked handle nonce x₀ s) (hn : n ≠ 0) {c : Client B} {ca : Caller B}
    (hca : (s.client n).calls x = some ca) (hp : ca.phase = .erased)
    (hc : c.calls = update (s.client n).calls x
      (some {ca with phase := .returned (if ca.done then ca.intret else timeoutFailure)})) :
    ∃ pend, Linear (Effect handle nonce) x₀ ((CAct.finish x).shows n (s.client n) c ++ s.log) pend s.object ∧
      ∀ m x, m ≠ 0 → Told s.server.runs m x ((update s.client n c m).calls x) (pend (m, x)) := by
  obtain ⟨pend, hlin, htold⟩ := h.history
  have hok := h.net n hn
  have hx := htold n x hn
  rw [hca] at hx
  have hsame : ∀ y, y ≠ x → c.calls y = (s.client n).calls y := by
    intro y hy
    rw [hc, update_of_ne hy]
  simp only [CAct.shows, hc, update_self]
  by_cases hret : 0 ≤ (if ca.done then ca.intret else timeoutFailure)
  · -- Only a reply of the server is not below 0.
    have hdone : ca.done = true := by
      by_contra hd
      rw [if_neg hd] at hret
      exact absurd hret (by decide)
    simp only [hdone, if_true] at hret ⊢
    have hrun : ⟨n, ⟨x, ca.intret, ca.un⟩⟩ ∈ s.server.runs := by
      cases hok.client.done x ca hca hdone with
      | inl hcancel =>
        rw [hcancel] at hret
        exact absurd hret (by decide)
      | inr hrun => exact hrun
    have hpend : pend (n, x) = .done ca.op (ca.intret, ca.un) := by
      generalize pend (n, x) = p at hx
      cases hx with
      | called _ hnot => exact absurd ⟨_, hrun, rfl⟩ hnot
      | done _ hrun' =>
        have heq := hok.server.once.run_unique hn hrun hrun' rfl
        cases heq
        rfl
      | returned hp' =>
        rw [hp] at hp'
        cases hp'
    rw [if_pos hret]
    refine ⟨_, hlin.answer hpend, told_update htold (fun y => ?_) fun m y hmn => ?_⟩
    · by_cases hy : y = x
      · rw [hy, hc, update_self, update_self]
        exact .returned rfl (by rw [if_pos hdone]; exact hret) ⟨_, hrun, rfl⟩
      · rw [hsame y hy, update_of_ne fun heq => hy (Prod.mk.inj heq).2]
        exact htold n y hn
    · rw [update_of_ne fun heq => hmn (Prod.mk.inj heq).1]
  · rw [if_neg hret]
    refine ⟨pend, hlin, told_update htold (fun y => ?_) fun _ _ _ => rfl⟩
    by_cases hy : y = x
    · have hopen : Caller.Open {ca with phase := .returned (if ca.done then ca.intret else timeoutFailure)} := by
        intro ret hret'
        cases hret'
        exact Int.lt_of_not_ge hret
      rw [hy, hc, update_self]
      generalize pend (n, x) = p at hx
      cases hx with
      | called _ hnot => exact .called hopen hnot
      | done _ hrun => exact .done hopen hrun
      | returned hp' =>
        rw [hp] at hp'
        cases hp'
    · rw [hsame y hy]
      exact htold n y hn

theorem Linked.client {n : Nat} (h : Linked handle nonce x₀ s) (hn : n ≠ 0) {a : CAct B} {c : Client B}
    (ha : a.internal = true) (hfew : Service.few s (.client n a)) (hs : (s.client n).step a = some c) :
    Linked handle nonce x₀
      {s with client := update s.client n c, log := a.shows n (s.client n) c ++ s.log} := by
  have hok : NetOk n ⟨c, s.server⟩ := by
    refine NetOk.step (a := .client a) (h.net n hn) ?_ ?_
    · cases a <;> exact hfew
    · show (if a.internal then ((s.client n).step a).map _ else none) = _
      rw [if_pos ha, hs]
      rfl
  refine ⟨h.same, fun m hm => net_update h.net (fun _ => hok) hm, h.nonces, ?_⟩
  obtain ⟨pend, hlin, htold⟩ := h.history
  cases step_moves hs with
  | made hop hp hc =>
    have hshow : (c.calls (s.client n).xid).isSome = true := by
      rw [hc, update_self]
      rfl
    simp only [CAct.shows, hshow, if_true, ← hop]
    exact h.made hn hp hc
  | returned hca hp hc => exact h.returned hn hca hp hc
  | refused =>
    have hshow : ¬ ((s.client n).calls (s.client n).xid).isSome = true := by
      intro hsome
      obtain ⟨ca, hca⟩ := Option.isSome_iff_exists.mp hsome
      exact Nat.lt_irrefl _ ((h.net n hn).client.issued _ ca hca).2.1
    simp only [CAct.shows, if_neg hshow]
    exact ⟨pend, hlin, told_update htold (fun x => htold n x hn) fun _ _ _ => rfl⟩
  | kept hshow hk =>
    rw [hshow]
    exact ⟨pend, hlin, told_update htold (fun x => (htold n x hn).keeps (hk x)) fun _ _ _ => rfl⟩

/-- A step of the server that runs no handler keeps the runs and brings no request in. -/
theorem quiet_step {v v' : Server B} {a : Act B} (ha : a.quiet = true) (hs : v.step a = some v') :
    v'.runs = v.runs ∧ ∀ i job, v'.jobs i = some job → ∃ i job', v.jobs i = some job' ∧ job'.req = job.req := by
  have hjob : ∀ {w : Server B} {i : Nat} {req : Request B} {p p' : Phase B}, w.jobs = v.jobs →
      v.jobs i = some ⟨req, p⟩ → ∀ j job, (w.setJob i ⟨req, p'⟩).jobs j = some job →
      ∃ j job', v.jobs j = some job' ∧ job'.req = job.req := by
    intro w i req p p' hw hi j job hj
    by_cases hji : j = i
    · rw [hji, setJob_self] at hj
      cases hj
      exact ⟨i, _, hi, rfl⟩
    · rw [setJob_ne hji, hw] at hj
      exact ⟨j, job, hj, rfl⟩
  cases Server.step_does hs with
  | arrive => cases ha
  | check hi hs =>
    rcases checkJob_cases hs with ⟨-, -, rfl⟩ | ⟨-, rfl⟩ | ⟨-, phase, -, rfl⟩
    · exact ⟨rfl, hjob rfl hi⟩
    · exact ⟨rfl, hjob rfl hi⟩
    · exact ⟨rfl, hjob rfl hi⟩
  | run => cases ha
  | pass hi => exact ⟨rfl, hjob rfl hi⟩
  | addReply hi => exact ⟨rfl, hjob rfl hi⟩
  | send hi => exact ⟨rfl, hjob rfl hi⟩

/-- A request that arrives is of its client, or of another one to every other client. -/
theorem Linked.request {n i k : Nat} (h : Linked handle nonce x₀ s) (hn : n ≠ 0) {req : Request B} {v : Server B}
    (hreq : (s.client n).out[k]? = some req) (hs : s.server.step (.arrive i req) = some v) :
    Linked handle nonce x₀ {s with server := v} := by
  have hgood := (h.net n hn).client.out req (List.mem_of_getElem? hreq)
  have hnonce : req.cltNonce = n := by
    obtain ⟨ca, hca, heq⟩ := hgood.call
    rw [← heq]
    exact ((h.net n hn).client.issued _ ca hca).2.2.2
  refine ⟨(step_nonce hs).trans h.same, fun m hm => (h.net m hm).arrive hs fun heq => ?_, fun j job hj => ?_, ?_⟩
  · obtain rfl : n = m := hnonce.symm.trans heq
    exact hgood
  · cases Server.step_does hs
    by_cases hji : j = i
    · rw [hji, setJob_self] at hj
      cases hj
      exact hnonce ▸ hn
    · rw [setJob_ne hji] at hj
      exact h.nonces j job hj
  · cases Server.step_does hs
    exact h.history

/-- The handler runs: the call takes effect. -/
theorem Linked.run {i : Nat} (h : Linked handle nonce x₀ s) {req : Request B} {ret : Nat} {result : B} {x : S}
    {v : Server B} (hi : s.server.jobs i = some ⟨req, .new⟩)
    (hx : method handle (req.proc, req.args) s.object = some (ret, result, x))
    (hs : s.server.step (.run i ret result) = some v) :
    Linked handle nonce x₀ {s with server := v, object := x} := by
  have hn := h.nonces i _ hi
  have hok := h.net req.cltNonce hn
  obtain ⟨ca, hca, hreq⟩ : ∃ ca, (s.client req.cltNonce).calls req.xid = some ca ∧ ca.req = req :=
    (hok.server.good i _ hi rfl).call
  have hruns : v.runs = ⟨req.cltNonce, s.server.reply req ret result⟩ :: s.server.runs := by
    cases Server.step_does hs with
    | run hi' =>
      rw [hi] at hi'
      cases hi'
      rfl
  have hreply : s.server.reply req ret result = ⟨req.xid, (outcome nonce ca.op ret result).1,
      (outcome nonce ca.op ret result).2⟩ := by
    unfold Server.reply outcome Caller.op
    rw [hreq, h.same]
    split <;> rfl
  refine ⟨(step_nonce hs).trans h.same, fun m hm => (h.net m hm).serverStep rfl hs, fun j job hj => ?_, ?_⟩
  · cases Server.step_does hs with
    | run hi' =>
      by_cases hji : j = i
      · rw [hji, setJob_self] at hj
        cases hj
        rw [hi] at hi'
        cases hi'
        exact hn
      · rw [setJob_ne hji] at hj
        exact h.nonces j job hj
  · obtain ⟨pend, hlin, htold⟩ := h.history
    -- It has not run before, so the call has not taken effect.
    have hfresh : ¬ Ran s.server.runs req.cltNonce req.xid := by
      rw [ran_iff, not_not]
      exact hok.server.once.fresh i req hi hn
    have hcall := htold req.cltNonce req.xid hn
    rw [hca] at hcall
    have hpend : ca.Open ∧ pend (req.cltNonce, req.xid) = .called ca.op := by
      generalize pend (req.cltNonce, req.xid) = p at hcall
      cases hcall with
      | called ho _ => exact ⟨ho, rfl⟩
      | done _ hrun => exact absurd ⟨_, hrun, rfl⟩ hfresh
      | returned _ _ hran => exact absurd hran hfresh
    have heffect : Effect handle nonce s.object ca.op (outcome nonce ca.op ret result) x :=
      ⟨ret, result, by rw [Caller.op, hreq]; exact hx, rfl⟩
    refine ⟨_, hlin.commit hpend.2 heffect, fun m y hm => ?_⟩
    show Told v.runs m y ((s.client m).calls y) _
    rw [hruns]
    by_cases hmy : (m, y) = (req.cltNonce, req.xid)
    · obtain ⟨rfl, rfl⟩ := Prod.mk.inj hmy
      rw [update_self, hca]
      refine .done hpend.1 ?_
      rw [hreply]
      exact List.mem_cons_self
    · rw [update_of_ne hmy]
      refine (htold m y hm).cons fun ⟨hm, hy⟩ => hmy ?_
      rw [s.server.reply_xid] at hy
      exact Prod.ext hm.symm hy.symm

theorem Linked.reply {n k : Nat} (h : Linked handle nonce x₀ s) {rep : Reply B} {c : Client B}
    (hk : s.server.sent[k]? = some (n, rep)) (hs : (s.client n).step (.gotPdu rep) = some c) :
    Linked handle nonce x₀ {s with client := update s.client n c} := by
  refine ⟨h.same, fun m hm => net_update h.net (fun hn => ?_) hm, h.nonces, ?_⟩
  · refine NetOk.step (a := .reply k) (h.net n hn) trivial ?_
    have hnonce : (s.client n).cltNonce = n := (h.net n hn).client.nonce
    simp only [Net.step, Service.net, hk, Option.bind_some, hnonce, if_true, hs, Option.map_some]
  · obtain ⟨pend, hlin, htold⟩ := h.history
    cases hs
    by_cases hn : n = 0
    · refine ⟨pend, hlin, fun m x hm => ?_⟩
      have hmn : m ≠ n := fun heq => hm (heq.trans hn)
      show Told _ _ _ ((update s.client n _ m).calls x) _
      rw [update_of_ne hmn]
      exact htold m x hm
    · exact ⟨pend, hlin, told_update htold
        (fun x => (htold n x hn).keeps (gotPdu_keeps (s.client n) rep x)) fun _ _ _ => rfl⟩

/-- **Every step keeps the history linear.** -/
theorem Linked.step {a : SAct B} (h : Linked handle nonce x₀ s) (hfew : Service.few s a)
    (hs : s.step handle a = some s') : Linked handle nonce x₀ s' := by
  cases a with
  | client n a =>
    simp only [Service.step] at hs
    split at hs
    · rename_i hcond
      obtain ⟨c, hc, rfl⟩ := Option.map_eq_some_iff.mp hs
      exact h.client hcond.1 hcond.2 hfew hc
    · cases hs
  | request n i k =>
    simp only [Service.step] at hs
    split at hs
    · rename_i hn
      obtain ⟨req, hreq, hs⟩ := Option.bind_eq_some_iff.mp hs
      obtain ⟨v, hv, rfl⟩ := Option.map_eq_some_iff.mp hs
      exact h.request hn hreq hv
    · cases hs
  | server a =>
    simp only [Service.step] at hs
    split at hs
    · rename_i ha
      obtain ⟨v, hv, rfl⟩ := Option.map_eq_some_iff.mp hs
      obtain ⟨hruns, hjobs⟩ := quiet_step ha hv
      have hint : a.internal = true := by cases a <;> first | rfl | cases ha
      refine ⟨(step_nonce hv).trans h.same, fun m hm => (h.net m hm).serverStep hint hv, fun j job hj => ?_, ?_⟩
      · obtain ⟨j', job', hj', hreq⟩ := hjobs j job hj
        rw [← hreq]
        exact h.nonces j' job' hj'
      · dsimp only
        rw [hruns]
        exact h.history
    · cases hs
  | run i =>
    simp only [Service.step, Service.handler] at hs
    obtain ⟨job, hjob, hs⟩ := Option.bind_eq_some_iff.mp hs
    obtain ⟨⟨ret, result, x⟩, hx, hs⟩ := Option.bind_eq_some_iff.mp hs
    obtain ⟨v, hv, rfl⟩ := Option.map_eq_some_iff.mp hs
    cases Server.step_does hv with
    | run hi =>
      rw [hi] at hjob
      cases hjob
      exact h.run hi hx hv
  | reply k =>
    simp only [Service.step] at hs
    obtain ⟨⟨n, rep⟩, hk, hs⟩ := Option.bind_eq_some_iff.mp hs
    obtain ⟨c, hc, rfl⟩ := Option.map_eq_some_iff.mp hs
    exact h.reply hk hc

theorem CAct.shows_called {n : Nat} {c c' : Client B} {a : CAct B} {t : Nat × Nat} {q : Op B}
    (h : Mark.called t q ∈ a.shows n c c') : a = .call q.1 q.2 := by
  unfold CAct.shows at h
  split at h
  · split at h
    · cases List.mem_singleton.mp h
      rfl
    · cases h
  · split at h
    · split at h
      · split at h
        · cases List.mem_singleton.mp h
        · cases h
      · cases h
    · cases h
  · cases h

theorem called_cases {a : SAct B} (hs : s.step handle a = some s') {t : Nat × Nat} {q : Op B}
    (hq : Mark.called t q ∈ s'.log) : Mark.called t q ∈ s.log ∨ ∃ n, a = .client n (.call q.1 q.2) := by
  cases a with
  | client n a =>
    simp only [Service.step] at hs
    split at hs
    · obtain ⟨c, hc, rfl⟩ := Option.map_eq_some_iff.mp hs
      cases List.mem_append.mp hq with
      | inr hq => exact .inl hq
      | inl hq => exact .inr ⟨n, congrArg _ (CAct.shows_called hq)⟩
    · cases hs
  | request n i k =>
    simp only [Service.step] at hs
    split at hs
    · obtain ⟨req, -, hs⟩ := Option.bind_eq_some_iff.mp hs
      obtain ⟨v, -, rfl⟩ := Option.map_eq_some_iff.mp hs
      exact .inl hq
    · cases hs
  | server a =>
    simp only [Service.step] at hs
    split at hs
    · obtain ⟨v, -, rfl⟩ := Option.map_eq_some_iff.mp hs
      exact .inl hq
    · cases hs
  | run i =>
    simp only [Service.step, Service.handler] at hs
    obtain ⟨job, -, hs⟩ := Option.bind_eq_some_iff.mp hs
    obtain ⟨x, -, hs⟩ := Option.bind_eq_some_iff.mp hs
    obtain ⟨v, -, rfl⟩ := Option.map_eq_some_iff.mp hs
    exact .inl hq
  | reply k =>
    simp only [Service.step] at hs
    obtain ⟨x, -, hs⟩ := Option.bind_eq_some_iff.mp hs
    obtain ⟨c, -, rfl⟩ := Option.map_eq_some_iff.mp hs
    exact .inl hq

theorem linked_init (lossytest : Nat → Bool) (procs : Nat → Bool) :
    Linked handle nonce x₀ (.init lossytest nonce procs x₀ : Service B S) where
  same := rfl
  net n _ := netOk_init n (lossytest n) nonce procs
  nonces := nofun
  history := ⟨_, .start, fun _ _ _ => .unmade⟩

theorem linked_of_steps {lossytest : Nat → Bool} {procs : Nat → Bool}
    (h : Steps (Service.step handle) Service.few (.init lossytest nonce procs x₀) s) : Linked handle nonce x₀ s :=
  h.invariant (linked_init lossytest procs) fun _ _ _ hi hf hs => hi.step hf hs

/-- **Calls take effect one at a time.** Whatever the network does with the messages of
any number of clients, and while each makes fewer than `2 ^ 31` calls, the calls and their
results are a linear history of the handlers' object: a call that returned a result took
effect once between its two marks and returned what it then gave, and one that failed took
effect once or never. -/
theorem calls_linearize {lossytest : Nat → Bool} {procs : Nat → Bool}
    (h : Steps (Service.step handle) Service.few (.init lossytest nonce procs x₀) s) :
    ∃ pend, Linear (Effect handle nonce) x₀ s.log pend s.object := by
  obtain ⟨pend, hlin, -⟩ := (linked_of_steps h).history
  exact ⟨pend, hlin⟩

/-- Client `n` binds, with job `i`. -/
def binding (args : B) (n i : Nat) : List (SAct B) :=
  [.client n (.call 1 args), .client n (.transmit 1), .request n i 0, .server (.check i), .run i,
    .server (.addReply i), .server (.send i), .reply 0, .client n (.leave 1), .client n (.erase 1),
    .client n (.finish 1), .client n (.bound 1)]

/-- A register with a procedure that sets it and one that returns it. -/
def register (proc args x : Nat) : Option (Nat × Nat × Nat) :=
  if proc = 5 then some (0, args, args) else if proc = 6 then some (0, x, x) else none

/-- One client sets a register while another reads it. The request of the first arrives
twice and is run once, the other's is run after it. -/
theorem calls_linearize_register :
    ∃ s : Service Nat Nat,
      Steps (Service.step register) Service.few (.init (fun _ => false) 3 (fun _ => true) 0) s ∧
      (s.object = 11 ∧ s.log.length = 8) ∧ ∃ pend, Linear (Effect register 3) 0 s.log pend s.object := by
  obtain ⟨s, hs, hend⟩ : ∃ s : Service Nat Nat,
      Steps (Service.step register) Service.few (.init (fun _ => false) 3 (fun _ => true) 0) s ∧
        (s.object = 11 ∧ s.log.length = 8) :=
    Steps.exists_of_run
      (binding 0 7 0 ++ binding 0 9 1 ++
        [.client 7 (.call 5 11), .client 9 (.call 6 0), .client 7 (.transmit 2), .client 9 (.transmit 2),
          .request 7 2 0, .request 7 3 0, .request 9 4 0, .server (.check 3), .server (.check 2),
          .server (.check 4), .run 3, .run 4, .server (.addReply 4), .server (.send 4), .reply 0,
          .server (.addReply 3), .server (.send 3), .reply 0, .client 9 (.leave 2), .client 9 (.erase 2),
          .client 9 (.finish 2), .client 7 (.leave 2), .client 7 (.erase 2), .client 7 (.finish 2)])
      (by decide +kernel)
  exact ⟨s, hs, hend, calls_linearize hs⟩

end Invariant

end Yfs.Rpc

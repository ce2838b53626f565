import Yfs.Rpc.Marshall

/-! The stubs of the program and the handlers they reach.

A stub marshals the arguments whose types its call site has, a handler unmarshals the
arguments whose types its registration has, and nothing compares the two lists. Where
they are the same, the handler's method sees the stub's arguments and the stub sees the
method's result. The stubs of the base class `lock_client` send the client's number first
and were written for another server, and they are the ones that do not agree with the
handlers that are registered (`stub_agrees`): the lock server aborts on `stat`
(`stat_refused`), and reads the lower half of the lock id of `acquire` and `release` as the
length of a name. -/
namespace Yfs.Rpc
open Base

/-- `rpc_const::unmarshal_args_failure`. -/
def unmarshalArgsFailure : BitVec 32 := -2

/-- The types `reg` deduces from a method. -/
structure Handler where
  args : List Ty
  ret : Ty
  deriving DecidableEq

/-! ### Call sites and registrations -/

/-- The servers of the program: the lock server, the lock client's own server, the extent
server. -/
inductive Endpoint where
  | lockServer | lockClient | extentServer
  deriving DecidableEq

/-- `procs_`: `rpcbind`, and what `lock_smain`, `lock_client_cache` and `extent_smain`
register. -/
def procs : Endpoint → List (BitVec 32 × Handler)
  | .lockServer =>
    [(1, ⟨[.int], .int⟩), (0x7003, ⟨[.ull], .int⟩), (0x7001, ⟨[.ull, .string], .int⟩),
      (0x7002, ⟨[.ull, .string], .int⟩)]
  | .lockClient => [(1, ⟨[.int], .int⟩), (0x8001, ⟨[.ull], .int⟩), (0x8002, ⟨[.ull], .int⟩)]
  | .extentServer =>
    [(1, ⟨[.int], .int⟩), (0x6002, ⟨[.ull], .string⟩), (0x6003, ⟨[.ull], .attr⟩),
      (0x6001, ⟨[.ull, .string], .int⟩), (0x6004, ⟨[.ull], .int⟩)]

/-- A call of a stub, with what it marshals: those of `lock_client`, those of
`lock_client_cache`, the lock server's calls of a client, those of the extent clients,
and `rpcc::bind`. -/
inductive Stub where
  | stat (id : BitVec 32) (lid : BitVec 64)
  | acquire (id : BitVec 32) (lid : BitVec 64)
  | release (id : BitVec 32) (lid : BitVec 64)
  | cacheAcquire (lid : BitVec 64) (id : List Byte)
  | cacheRelease (lid : BitVec 64) (id : List Byte)
  | revoke (lid : BitVec 64)
  | retry (lid : BitVec 64)
  | get (eid : BitVec 64)
  | put (eid : BitVec 64) (b : List Byte)
  | getattr (eid : BitVec 64)
  | remove (eid : BitVec 64)
  | bind (e : Endpoint)

namespace Stub

def endpoint : Stub → Endpoint
  | .stat .. | .acquire .. | .release .. | .cacheAcquire .. | .cacheRelease .. => .lockServer
  | .revoke _ | .retry _ => .lockClient
  | .get _ | .put .. | .getattr _ | .remove _ => .extentServer
  | .bind e => e

def proc : Stub → BitVec 32
  | .stat .. => 0x7003
  | .acquire .. | .cacheAcquire .. => 0x7001
  | .release .. | .cacheRelease .. => 0x7002
  | .revoke _ => 0x8001
  | .retry _ => 0x8002
  | .get _ => 0x6002
  | .put .. => 0x6001
  | .getattr _ => 0x6003
  | .remove _ => 0x6004
  | .bind _ => 1

def args : Stub → List Value
  | .stat id lid | .acquire id lid | .release id lid => [⟨.uint, id⟩, ⟨.ull, lid⟩]
  | .cacheAcquire lid id | .cacheRelease lid id => [⟨.ull, lid⟩, ⟨.string, id⟩]
  | .revoke lid | .retry lid => [⟨.ull, lid⟩]
  | .get eid | .getattr eid | .remove eid => [⟨.ull, eid⟩]
  | .put eid b => [⟨.ull, eid⟩, ⟨.string, b⟩]
  | .bind _ => [⟨.int, (0 : BitVec 32)⟩]

def ret : Stub → Ty
  | .get _ => .string
  | .getattr _ => .attr
  | _ => .int

def handler (s : Stub) : Handler := ⟨s.args.map Sigma.fst, s.ret⟩

/-- A stub of `lock_client` itself. -/
def base : Stub → Bool
  | .stat .. | .acquire .. | .release .. => true
  | _ => false

/-- `rpcc::call` and the header `call1` packs behind it. -/
def call (s : Stub) (h : ReqHeader) : Writing := message (.req {h with proc := s.proc}) false s.args

end Stub

/-! ### Serving a call -/

/-- `handler::fn` around the method `meth`. -/
def Handler.fn (f : Handler) (meth : List Value → f.ret.Val × BitVec 32) (args : Unmarshall)
    (rep : Marshall) : Option (BitVec 32 × Marshall) := do
  let (vs, args) ← readAll f.args args
  if args.okdone then
    let (r, b) := meth vs
    let (_, rep) ← f.ret.write r rep
    return (b, rep)
  else return (unmarshalArgsFailure, rep)

/-- What `dispatch` does with a new request that is in `b`: no result is a failed
`VERIFY`. -/
def Handler.serve (f : Handler) (meth : List Value → f.ret.Val × BitVec 32) (junk : Nat → Byte)
    (b : Marshall) : Option Marshall := do
  let (h, req) ← Unmarshall.unpackReqHeader (Unmarshall.new b.buf b.ind)
  let (ret, rep) ← f.fn meth req (Marshall.new junk)
  if ret = unmarshalArgsFailure ∨ ret.toInt < 0 then none
  else
    let (_, rep) ← Marshall.packReplyHeader ⟨h.xid, ret⟩ rep
    return rep

/-- What `got_pdu` and `call_m` do with the reply that is in `b`. -/
def Stub.receive (s : Stub) (b : Marshall) : Option (BitVec 32 × s.ret.Val) := do
  let (h, rep) ← Unmarshall.unpackReplyHeader (Unmarshall.new b.buf b.ind)
  let (r, u) ← s.ret.read rep.takeIn
  if u.okdone then some (h.ret, r) else none

theorem Handler.fn_of_read {f : Handler} {meth : List Value → f.ret.Val × BitVec 32} {args args' : Unmarshall}
    {vs : List Value} (hread : readAll f.args args = some (vs, args')) (rep : Marshall) :
    f.fn meth args rep = if args'.okdone then
        (f.ret.write (meth vs).1 rep).bind fun x => some ((meth vs).2, x.2)
      else some (unmarshalArgsFailure, rep) := by
  change (readAll f.args args).bind _ = _
  rw [hread]
  rfl

/-- The rest of `dispatch` once the header is read. -/
theorem Handler.serve_of_header {f : Handler} {meth : List Value → f.ret.Val × BitVec 32} {b : Marshall}
    {h : ReqHeader} {req : Unmarshall}
    (hreq : Unmarshall.unpackReqHeader (Unmarshall.new b.buf b.ind) = some (h, req)) (junk : Nat → Byte) :
    f.serve meth junk b = (f.fn meth req (Marshall.new junk)).bind fun x =>
      if x.1 = unmarshalArgsFailure ∨ x.1.toInt < 0 then none
      else (Marshall.packReplyHeader ⟨h.xid, x.1⟩ x.2).bind fun y => some y.2 := by
  change (Unmarshall.unpackReqHeader _).bind _ = _
  rw [hreq]
  rfl

/-- The rest of `call_m` once the header is read. -/
theorem Stub.receive_of_header {s : Stub} {b : Marshall} {h : ReplyHeader} {rep : Unmarshall}
    (hrep : Unmarshall.unpackReplyHeader (Unmarshall.new b.buf b.ind) = some (h, rep)) :
    s.receive b = (s.ret.read rep.takeIn).bind fun x => if x.2.okdone then some (h.ret, x.1) else none := by
  change (Unmarshall.unpackReplyHeader _).bind _ = _
  rw [hrep]
  rfl

/-! ### Agreement -/

theorem Stub.call_written (s : Stub) (h : ReqHeader) (junk : Nat → Byte)
    (hsize : rpcHeaderSz + (wireAll s.args).length < 2 ^ 30) :
    ∃ b, s.call h (Marshall.new junk) = some ((), b) ∧
      Written (.req {h with proc := s.proc}) s.args b := message_written junk _ false s.args hsize

theorem Written.header_le {h : Header} {vs : List Value} {m : Marshall} (hm : Written h vs m) :
    rpcHeaderSz ≤ m.ind := by
  rw [hm.size]
  omega

theorem Written.unpackReq {h : ReqHeader} {vs : List Value} {m : Marshall} (hm : Written (.req h) vs m)
    (hsize : m.ind < 2 ^ 31) :
    Unmarshall.unpackReqHeader (Unmarshall.new m.buf m.ind) = some (h, ⟨m.buf, m.ind, rpcHeaderSz, true⟩) :=
  unpackReqHeader_spec h rfl hsize hm.header_le hm.header

theorem Written.unpackReply {h : ReplyHeader} {vs : List Value} {m : Marshall} (hm : Written (.reply h) vs m)
    (hsize : m.ind < 2 ^ 31) :
    Unmarshall.unpackReplyHeader (Unmarshall.new m.buf m.ind) = some (h, ⟨m.buf, m.ind, rpcHeaderSz, true⟩) :=
  unpackReplyHeader_spec h rfl hsize hm.header_le hm.header

theorem message_single (h : Header) (t : Ty) (r : t.Val) (m : Marshall) :
    message h false [⟨t, r⟩] m = (t.write r m).bind fun x => h.pack x.2 := by
  have hone : writeAll [⟨t, r⟩] = t.write r := bind_pure_unit
  rw [message, if_neg Bool.false_ne_true, hone]
  rfl

/-- A method whose types are those of the stub is called with the stub's arguments, and
its result is marshalled. -/
theorem Stub.serve_written {s : Stub} {h : ReqHeader} {b : Marshall}
    (hb : Written (.req {h with proc := s.proc}) s.args b) (hsize : b.ind < 2 ^ 31)
    (meth : List Value → s.ret.Val × BitVec 32) (junk : Nat → Byte) (hret : 0 ≤ (meth s.args).2.toInt)
    (hrep : rpcHeaderSz + (s.ret.wire (meth s.args).1).length < 2 ^ 30) :
    ∃ rep, s.handler.serve meth junk b = some rep ∧
      Written (.reply ⟨h.xid, (meth s.args).2⟩) [⟨s.ret, (meth s.args).1⟩] rep := by
  have hall : wireAll [⟨s.ret, (meth s.args).1⟩] = s.ret.wire (meth s.args).1 := List.append_nil _
  have hread := takes_readAll s.args ⟨b.buf, b.ind, rpcHeaderSz, true⟩ rfl hsize (Nat.le_of_eq hb.size.symm)
    hb.values
  have hdone : Unmarshall.okdone ⟨b.buf, b.ind, rpcHeaderSz + (wireAll s.args).length, true⟩ = true := by
    simp [Unmarshall.okdone, hb.size]
  obtain ⟨rep, hmsg, hrep⟩ := message_written junk (.reply ⟨h.xid, (meth s.args).2⟩) false
    [⟨s.ret, (meth s.args).1⟩] (by rw [hall]; exact hrep)
  refine ⟨rep, ?_, hrep⟩
  rw [message_single, Option.bind_eq_some_iff] at hmsg
  obtain ⟨⟨⟨⟩, body⟩, hbody, hpack⟩ := hmsg
  have hfn : s.handler.fn meth ⟨b.buf, b.ind, rpcHeaderSz, true⟩ (Marshall.new junk) =
      some ((meth s.args).2, body) := by
    refine (Handler.fn_of_read (f := s.handler) hread _).trans ?_
    rw [if_pos hdone]
    change (s.ret.write (meth s.args).1 (Marshall.new junk)).bind _ = _
    rw [hbody]
    rfl
  have hok : ¬ ((meth s.args).2 = unmarshalArgsFailure ∨ (meth s.args).2.toInt < 0) := by
    rintro (he | hneg)
    · rw [he] at hret
      exact absurd hret (by decide)
    · omega
  refine (Handler.serve_of_header (f := s.handler) (hb.unpackReq hsize) junk).trans ?_
  rw [hfn, Option.bind_some, if_neg hok]
  change ((Header.reply ⟨h.xid, (meth s.args).2⟩).pack body).bind _ = _
  rw [hpack]
  rfl

theorem Stub.receive_written {s : Stub} {xid ret : BitVec 32} {r : s.ret.Val} {rep : Marshall}
    (hrep : Written (.reply ⟨xid, ret⟩) [⟨s.ret, r⟩] rep) (hsize : rep.ind < 2 ^ 31) :
    s.receive rep = some (ret, r) := by
  have hall : wireAll [⟨s.ret, r⟩] = s.ret.wire r := List.append_nil _
  have hlen : rep.ind = rpcHeaderSz + (s.ret.wire r).length := by rw [hrep.size, hall]
  have htake : Unmarshall.takeIn ⟨rep.buf, rep.ind, rpcHeaderSz, true⟩ =
      ⟨rep.buf, rep.ind, rpcHeaderSz, true⟩ := by
    simp [Unmarshall.takeIn, hrep.header_le]
  have hread := takes_read s.ret r ⟨rep.buf, rep.ind, rpcHeaderSz, true⟩ rfl hsize (Nat.le_of_eq hlen.symm)
    (hall ▸ hrep.values)
  have hdone : Unmarshall.okdone ⟨rep.buf, rep.ind, rpcHeaderSz + (s.ret.wire r).length, true⟩ = true := by
    simp [Unmarshall.okdone, hlen]
  rw [Stub.receive_of_header (hrep.unpackReply hsize), htake, hread]
  exact if_pos hdone

/-- The types of the call site are those of the registration. -/
theorem Stub.registered {s : Stub} (h : s.base = false) :
    (procs s.endpoint).lookup s.proc = some s.handler := by
  cases s with
  | stat id lid => cases h
  | acquire id lid => cases h
  | release id lid => cases h
  | bind e => cases e <;> rfl
  | _ => rfl

theorem readAll_types {ts : List Ty} {u u' : Unmarshall} {vs : List Value} (h : readAll ts u = some (vs, u')) :
    vs.map Sigma.fst = ts := by
  induction ts generalizing u u' vs with
  | nil =>
    cases h
    rfl
  | cons t ts ih =>
    obtain ⟨⟨v, u₁⟩, -, h⟩ := Option.bind_eq_some_iff.mp h
    obtain ⟨⟨rest, u₂⟩, hrest, h⟩ := Option.bind_eq_some_iff.mp h
    cases h
    exact congrArg (t :: ·) (ih hrest)

/-- The handler registered for the call reads the stub's arguments with `okdone()` true, the
method is called with them, and what it returns is what the stub returns. -/
def Stub.Agrees (s : Stub) (h : ReqHeader) (junk junk' : Nat → Byte) : Prop :=
  ∃ f req, (procs s.endpoint).lookup s.proc = some f ∧ s.call h (Marshall.new junk) = some ((), req) ∧
    (∃ u u', Unmarshall.unpackReqHeader (Unmarshall.new req.buf req.ind) = some ({h with proc := s.proc}, u) ∧
      readAll f.args u = some (s.args, u') ∧ u'.okdone = true) ∧
    ∀ meth : List Value → f.ret.Val × BitVec 32, 0 ≤ (meth s.args).2.toInt →
      rpcHeaderSz + (f.ret.wire (meth s.args).1).length < 2 ^ 30 →
      ∃ rep r, f.serve meth junk' req = some rep ∧ s.receive rep = some ((meth s.args).2, r) ∧
        (⟨s.ret, r⟩ : Value) = ⟨f.ret, (meth s.args).1⟩

/-- **Stubs and handlers agree**, all but those of `lock_client` itself. -/
theorem stub_agrees (s : Stub) (h : ReqHeader) (junk junk' : Nat → Byte)
    (hsize : rpcHeaderSz + (wireAll s.args).length < 2 ^ 30) : s.Agrees h junk junk' ↔ s.base = false := by
  constructor
  · rintro ⟨f, req, hf, -, ⟨u, u', -, hread, -⟩, -⟩
    have htypes := readAll_types hread
    cases s with
    | stat id lid => cases hf; cases htypes
    | acquire id lid => cases hf; cases htypes
    | release id lid => cases hf; cases htypes
    | _ => rfl
  · intro hs
    obtain ⟨req, hcall, hreq⟩ := s.call_written h junk hsize
    have hint : req.ind < 2 ^ 31 := by
      rw [hreq.size]
      omega
    refine ⟨s.handler, req, Stub.registered hs, hcall, ⟨_, _, hreq.unpackReq hint, takes_readAll s.args _ rfl hint
      (Nat.le_of_eq hreq.size.symm) hreq.values, ?_⟩, fun meth hret hrep => ?_⟩
    · simp [Unmarshall.okdone, hreq.size]
    · obtain ⟨rep, hserve, hwritten⟩ := Stub.serve_written hreq hint meth junk' hret hrep
      have hall : wireAll [⟨s.ret, (meth s.args).1⟩] = s.ret.wire (meth s.args).1 := List.append_nil _
      have hfits : rpcHeaderSz + (s.ret.wire (meth s.args).1).length < 2 ^ 30 := hrep
      refine ⟨rep, (meth s.args).1, hserve, Stub.receive_written hwritten ?_, rfl⟩
      rw [hwritten.size, hall]
      omega

/-- A RETRY for an `acquire` of `lock_client_cache`. -/
theorem stub_agrees_acquire :
    ∃ req, (Stub.cacheAcquire 1 [97]).call ⟨9, 0, 5, 6, 8⟩ (Marshall.new fun _ => 0) = some ((), req) ∧
      ∃ rep, (Stub.cacheAcquire 1 [97]).handler.serve (fun _ => ((0 : BitVec 32), 1)) (fun _ => 0) req = some rep ∧
        (Stub.cacheAcquire 1 [97]).receive rep = some ((1 : BitVec 32), (0 : BitVec 32)) := by
  obtain ⟨f, req, hf, hreq, -, hmeth⟩ :=
    (stub_agrees (.cacheAcquire 1 [97]) ⟨9, 0, 5, 6, 8⟩ (fun _ => 0) (fun _ => 0) (by decide)).mpr rfl
  cases hf
  obtain ⟨rep, r, hserve, hrecv, hr⟩ := hmeth (fun _ => ((0 : BitVec 32), 1)) (by decide) (by decide)
  cases hr
  exact ⟨req, hreq, rep, hserve, hrecv⟩

/-! ### The stubs of `lock_client` -/

/-- The handler of `stat` reads its lock id out of the client's number and half of the
stub's lock id, and the other half is left. -/
theorem stat_refused (id : BitVec 32) (lid : BitVec 64) (h : ReqHeader) (junk junk' : Nat → Byte) :
    ∃ req, (Stub.stat id lid).call h (Marshall.new junk) = some ((), req) ∧
      ∀ f, (procs .lockServer).lookup (Stub.stat id lid).proc = some f →
        ∀ meth, f.serve meth junk' req = none := by
  have hsize : rpcHeaderSz + (wireAll (Stub.stat id lid).args).length < 2 ^ 30 := by
    change 36 < 2 ^ 30
    decide
  obtain ⟨req, hcall, hreq⟩ := (Stub.stat id lid).call_written h junk hsize
  have hlen : req.ind = 36 := hreq.size
  have hint : req.ind < 2 ^ 31 := by
    rw [hlen]
    decide
  have hroom : rpcHeaderSz + 8 ≤ req.ind := by
    rw [hlen]
    decide
  have hat : StoredAt req.buf rpcHeaderSz
      ((wordBytes id ++ wordBytes ((lid >>> 32).setWidth 32)) ++ wordBytes (lid.setWidth 32)) := hreq.values
  refine ⟨req, hcall, fun f hf meth => ?_⟩
  cases hf
  have hread : ∃ v : Ty.ull.Val, readAll [.ull] ⟨req.buf, req.ind, rpcHeaderSz, true⟩ =
      some ([⟨.ull, v⟩], ⟨req.buf, req.ind, 32, true⟩) := by
    have htake : ∃ v, Takes Unmarshall.readDouble (wordBytes id ++ wordBytes ((lid >>> 32).setWidth 32)) v :=
      ⟨_, (takes_readWord _).bind ((takes_readWord _).map rfl)⟩
    obtain ⟨v, hv⟩ := htake
    refine ⟨v, ?_⟩
    have := hv ⟨req.buf, req.ind, rpcHeaderSz, true⟩ rfl hint hroom (storedAt_append.mp hat).1
    change ((Unmarshall.readDouble _).bind fun x => _) = _
    rw [this]
    rfl
  obtain ⟨v, hread⟩ := hread
  have hfn : Handler.fn ⟨[.ull], .int⟩ meth ⟨req.buf, req.ind, rpcHeaderSz, true⟩ (Marshall.new junk') =
      some (unmarshalArgsFailure, Marshall.new junk') := by
    rw [Handler.fn_of_read hread, hlen]
    rfl
  rw [Handler.serve_of_header (hreq.unpackReq hint), hfn]
  rfl

/-- `lock_demo`: `stat(1)` of a `lock_client` aborts the lock server. -/
theorem stat_aborts_lock_server :
    ∃ req, (Stub.stat 7 1).call ⟨1, 0, 7, 9, 0⟩ (Marshall.new fun _ => 0) = some ((), req) ∧
      ∀ f, (procs .lockServer).lookup (Stub.stat 7 1).proc = some f →
        ∀ meth, f.serve meth (fun _ => 0) req = none :=
  stat_refused 7 1 ⟨1, 0, 7, 9, 0⟩ (fun _ => 0) (fun _ => 0)

end Yfs.Rpc

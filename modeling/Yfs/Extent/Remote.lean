import Yfs.Extent.Server
import Yfs.Rpc.Clients
import Yfs.Rpc.Stubs

/-! The extent server behind its stubs: clients, RPC, handlers and the disk file.

The handlers of the extent server work on the file `disk`, and the stubs of the extent
clients reach them through an RPC client each. The calls take effect one at a time
(`Rpc.Linked`), and on numbers below `2 ^ 54` the file is a map of blocks. So the clients,
whatever the network does, see one array of blocks that is read and written a block at a
time (`blocks_linearize`). -/
namespace Yfs.Extent
open Base Rpc

/-- `std::string(b, BSIZE)`. -/
def Block.string (b : Block) : List Byte := b.slice 0 512

/-- The `BSIZE` bytes from `buf.data()` on, for a string that has as many. -/
def Block.ofString (buf : List Byte) : Block := Bytes.zero.write 0 buf

def Status.code : Status → Nat
  | .ok => 0
  | .rpcerr => 1
  | .noent => 2
  | .ioerr => 3

/-- The handlers `extent_smain` registers, on the unmarshalled arguments. `put` and
`remove` leave the `int` they return as it is, `r`. A round of `get` that does not read a
whole block leads to the next one, so the handler has no result yet. -/
def handlers (r : BitVec 32) (proc : Nat) (args : List Value) (f : DiskFile) : Option (Nat × List Value × DiskFile) :=
  match args with
  | [⟨.ull, id⟩, ⟨.string, buf⟩] =>
    if proc = 0x6001 then
      let (ret, f') := put f id (.ofString buf)
      some (ret.code, [⟨.int, r⟩], f')
    else none
  | [⟨.ull, id⟩] =>
    if proc = 0x6002 then
      (getLoop f id 1 0).map fun (ret, b) => (ret.code, [⟨.string, Block.string b⟩], f)
    else if proc = 0x6003 then some (0, [⟨.attr, Attr.zero⟩], f)
    else if proc = 0x6004 then some (0, [⟨.int, r⟩], f)
    else none
  | _ => none

/-! ### The array of blocks -/

abbrev StubCall := Rpc.Op (List Value)

def StubCall.of (s : Stub) : StubCall := (s.proc.toNat, s.args)

/-- What the clients see. -/
inductive Blocks (nonce : Nat) (r : BitVec 32) (m : Eid → Block) : StubCall → Outcome (List Value) →
    (Eid → Block) → Prop
    where
  | bind : Blocks nonce r m (StubCall.of (.bind .extentServer)) (0, .nonce nonce) m
  | put (id : Eid) (b : Block) :
    Blocks nonce r m (StubCall.of (.put id b.string)) (0, .value [⟨.int, r⟩]) (Function.update m id b)
  | get (id : Eid) : Blocks nonce r m (StubCall.of (.get id)) (0, .value [⟨.string, (m id).string⟩]) m
  | getattr (id : Eid) : Blocks nonce r m (StubCall.of (.getattr id)) (0, .value [⟨.attr, Attr.zero⟩]) m
  | remove (id : Eid) : Blocks nonce r m (StubCall.of (.remove id)) (0, .value [⟨.int, r⟩]) m

/-- A call of a stub for the extent server, where `put` and `get` are of a block whose
number times `BSIZE` is an offset. -/
def StubCall.used (q : StubCall) : Bool :=
  match q.2 with
  | [⟨.ull, id⟩, ⟨.string, buf⟩] => q.1 = 0x6001 ∧ id.toNat < 2 ^ 54 ∧ buf.length = 512
  | [⟨.ull, id⟩] => q.1 = 0x6002 ∧ id.toNat < 2 ^ 54 ∨ q.1 = 0x6003 ∨ q.1 = 0x6004
  | [⟨.int, x⟩] => q.1 = 1 ∧ x.toNat = 0
  | _ => false

inductive Used : StubCall → Prop where
  | bind : Used (StubCall.of (.bind .extentServer))
  | put {id : Eid} (b : Block) (h : id.toNat < 2 ^ 54) : Used (StubCall.of (.put id b.string))
  | get {id : Eid} (h : id.toNat < 2 ^ 54) : Used (StubCall.of (.get id))
  | getattr (id : Eid) : Used (StubCall.of (.getattr id))
  | remove (id : Eid) : Used (StubCall.of (.remove id))

/-- The file holds the blocks. -/
def Stored (f : DiskFile) (m : Eid → Block) : Prop := ∀ id : Eid, id.toNat < 2 ^ 54 → f.block (512 * slot id) = m id

theorem slot_of_lt {id : Eid} (h : id.toNat < 2 ^ 54) : slot id = id.toNat := by
  unfold slot
  rw [Nat.mod_eq_of_lt (by omega), if_pos h]

theorem Block.ofString_string (b : Block) : Block.ofString b.string = b := by
  funext j
  have hj := j.isLt
  have hlen : j.val < b.string.length := by
    rw [Block.string, Bytes.length_slice]
    exact hj
  unfold Block.ofString Bytes.write
  simp only [Nat.zero_le, if_true, Nat.sub_zero]
  rw [List.getElem?_eq_getElem hlen, Option.getD_some]
  simp [Block.string, Bytes.slice, Bytes.byte, hj]

theorem StubCall.used_cases {q : StubCall} (h : q.used = true) : Used q := by
  obtain ⟨proc, args⟩ := q
  unfold StubCall.used at h
  dsimp only at h
  split at h
  next id buf =>
    obtain ⟨rfl, hid, hlen⟩ := of_decide_eq_true h
    have hbuf : buf = Block.string (Block.ofString buf) := by
      have := Bytes.slice_write_self (n := 512) Bytes.zero (o := 0) (l := buf) (by rw [hlen])
      rw [hlen] at this
      exact this.symm
    rw [hbuf]
    exact .put _ hid
  next id =>
    obtain ⟨rfl, hid⟩ | rfl | rfl := of_decide_eq_true h
    · exact .get hid
    · exact .getattr id
    · exact .remove id
  next x =>
    obtain ⟨rfl, hx⟩ := of_decide_eq_true h
    obtain rfl : x = (0 : BitVec 32) := BitVec.eq_of_toNat_eq hx
    exact .bind
  next => cases h

theorem Stored.put {f : DiskFile} {m : Eid → Block} {id : Eid} (h : Stored f m) (hid : id.toNat < 2 ^ 54) (b : Block) :
    Stored (Extent.put f id b).2 (Function.update m id b) := by
  intro id' hid'
  rw [put_eq]
  by_cases heq : id' = id
  · rw [heq, Function.update_self, DiskFile.block_write_self]
  · have hne : id'.toNat ≠ id.toNat := fun h => heq (BitVec.eq_of_toNat_eq h)
    rw [Function.update_of_ne heq, slot_of_lt hid, slot_of_lt hid',
      DiskFile.block_write_apart _ _ (by omega), ← slot_of_lt hid']
    exact h id' hid'

/-- A `get` that returns reads the block of its number. -/
theorem getLoop_one {f : DiskFile} {id : Eid} {ret : Status} {b : Block} (h : getLoop f id 1 0 = some (ret, b)) :
    ret = .ok ∧ b = f.block (512 * slot id) := by
  simp only [getLoop, lseek_offset id (.inl rfl)] at h
  split at h
  · cases h
    exact ⟨rfl, rfl⟩
  · cases h

/-- **The handlers on the file are the array of blocks,** for the calls that are used. -/
theorem handlers_refine {nonce : Nat} {r : BitVec 32} {f f' : DiskFile} {m : Eid → Block} {q : StubCall}
    {a : Outcome (List Value)} (hq : Used q) (hf : Stored f m) (h : Effect (handlers r) nonce f q a f') :
    ∃ m', Blocks nonce r m q a m' ∧ Stored f' m' := by
  obtain ⟨ret, result, hmeth, rfl⟩ := h
  cases hq with
  | bind =>
    cases hmeth
    exact ⟨m, .bind, hf⟩
  | @put id b hid =>
    have hmeth : some ((Extent.put f id (.ofString b.string)).1.code, [⟨.int, r⟩],
        (Extent.put f id (.ofString b.string)).2) = some (ret, result, f') := hmeth
    rw [Block.ofString_string] at hmeth
    cases hmeth
    exact ⟨_, .put id b, hf.put hid b⟩
  | @get id hid =>
    have hmeth : ((getLoop f id 1 0).map fun x => (x.1.code, [(⟨.string, Block.string x.2⟩ : Value)], f)) =
        some (ret, result, f') := hmeth
    obtain ⟨⟨st, b⟩, hget, heq⟩ := Option.map_eq_some_iff.mp hmeth
    obtain ⟨rfl, rfl⟩ := getLoop_one hget
    cases heq
    rw [hf id hid]
    exact ⟨m, .get id, hf⟩
  | getattr id =>
    cases hmeth
    exact ⟨m, .getattr id, hf⟩
  | remove id =>
    cases hmeth
    exact ⟨m, .remove id, hf⟩

/-- The clients make fewer than 2^31 calls each, of these only. -/
def blockCalls : Service (List Value) DiskFile → SAct (List Value) → Prop
  | s, .client n (.call proc args) => (s.client n).xid < 2 ^ 31 ∧ StubCall.used (proc, args) = true
  | _, _ => True

instance (s : Service (List Value) DiskFile) (a : SAct (List Value)) : Decidable (blockCalls s a) := by
  unfold blockCalls
  split <;> infer_instance

/-- **The extent server is an array of blocks to all its clients.** The calls that they
make through their stubs, fewer than `2 ^ 31` each, over a network that loses, repeats,
delays and reorders, are a linear history of an array of blocks that is all zeros at the
start, and the disk file holds the array. -/
theorem blocks_linearize {r : BitVec 32} {lossytest : Nat → Bool} {nonce : Nat} {procs : Nat → Bool}
    {s : Service (List Value) DiskFile}
    (h : Steps (Service.step (handlers r)) blockCalls (.init lossytest nonce procs .empty) s) :
    ∃ pend m, Linear (Blocks nonce r) (fun _ => Bytes.zero) s.log pend m ∧ Stored s.object m := by
  have hfew : Steps (Service.step (handlers r)) Service.few (.init lossytest nonce procs .empty) s := by
    refine h.mono fun s a ha => ?_
    unfold Service.few
    split
    · exact ha.1
    · trivial
  have hused : ∀ t q, Mark.called t q ∈ s.log → Used q := by
    refine h.invariant (I := fun s => ∀ t q, Mark.called t q ∈ s.log → Used q) (fun t q hq => by cases hq)
      fun s a s' hi ha hs t q hq => ?_
    cases called_cases hs hq with
    | inl hq => exact hi t q hq
    | inr hcall =>
      obtain ⟨n, rfl⟩ := hcall
      exact StubCall.used_cases ha.2
  obtain ⟨pend, hlin, -⟩ := (linked_of_steps hfew).history
  obtain ⟨m, hblocks, hm⟩ := hlin.refines hused (fun _ _ => rfl) fun _ _ _ _ _ hq hf he => handlers_refine hq hf he
  exact ⟨pend, m, hblocks, hm⟩

/-- One client puts a block of ones while another gets it: `get` reads again until the
file has the block. -/
theorem blocks_linearize_put_get :
    ∃ s : Service (List Value) DiskFile,
      Steps (Service.step (handlers 0)) blockCalls (.init (fun _ => false) 3 (fun _ => true) .empty) s ∧
      (s.log.length = 8 ∧ s.object.byte 511 = 1) ∧
      ∃ pend m, Linear (Blocks 3 0) (fun _ => Bytes.zero) s.log pend m ∧ Stored s.object m := by
  obtain ⟨s, hs, hend⟩ : ∃ s : Service (List Value) DiskFile,
      Steps (Service.step (handlers 0)) blockCalls (.init (fun _ => false) 3 (fun _ => true) .empty) s ∧
        (s.log.length = 8 ∧ s.object.byte 511 = 1) :=
    Steps.exists_of_run
      (binding [⟨.int, (0 : BitVec 32)⟩] 7 0 ++ binding [⟨.int, (0 : BitVec 32)⟩] 9 1 ++
        [.client 9 (.call 0x6002 (Stub.get 0).args), .client 7 (.call 0x6001 (Stub.put 0 (Block.string ones)).args),
          .client 9 (.transmit 2), .client 7 (.transmit 2), .request 9 2 0, .server (.check 2), .request 7 3 0,
          .server (.check 3), .run 3, .run 2, .server (.addReply 2), .server (.send 2), .reply 0,
          .client 9 (.leave 2), .client 9 (.erase 2), .client 9 (.finish 2), .server (.addReply 3),
          .server (.send 3), .reply 0, .client 7 (.leave 2), .client 7 (.erase 2), .client 7 (.finish 2)])
      (by decide +kernel)
  exact ⟨s, hs, hend, blocks_linearize hs⟩

end Yfs.Extent

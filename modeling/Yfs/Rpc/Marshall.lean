import Yfs.Base.SortedMap
import Yfs.Base.Wire
import Yfs.Extent.WriteBack

/-! Marshalling (`marshall.h` and the operators of `rpc.cc`).

A `marshall` is a buffer that grows as values are written behind its header, and an
`unmarshall` reads such a buffer from the front. What `operator<<` writes for a value of
each type is a list of bytes (`Ty.wire`): the writer puts those bytes at its head
(`emits_write`) and the reader that finds them at its own takes them and returns the value
(`takes_read`). A message is therefore read back as it was written, header and values, up
to every prefix of its values (`marshall_round_trip`).

An access outside of the buffer and a size beyond a C `int` are undefined, and have no
result here. -/
namespace Yfs.Rpc
open Base

/-- `DEFAULT_RPC_SZ`. -/
def defaultRpcSz : Nat := 1024

/-- `RPC_HEADER_SZ`: the size of the PDU and the larger header, without a checksum. -/
def rpcHeaderSz : Nat := 24

/-- `req_header`. -/
structure ReqHeader where
  xid : BitVec 32
  proc : BitVec 32
  cltNonce : BitVec 32
  srvNonce : BitVec 32
  xidRep : BitVec 32
  deriving DecidableEq

/-- `reply_header`. -/
structure ReplyHeader where
  xid : BitVec 32
  ret : BitVec 32
  deriving DecidableEq

/-! ### Types -/

inductive Ty where
  | bool | char | uchar | short | ushort | int | uint | ull | string | attr
  | vector (t : Ty)
  | map (k v : Ty)
  deriving DecidableEq

/-- The values of a type, and the order in which they are the keys of a map. -/
structure Sem where
  Val : Type
  order : Order Val

/-- Characters are signed, strings compare by unsigned characters. An `attr` has no `<`,
so no program has a map keyed by one. -/
def Ty.sem : Ty → Sem
  | .bool => ⟨Bool, .numbered fun x => x.toNat⟩
  | .char => ⟨BitVec 8, .numbered BitVec.toInt⟩
  | .uchar => ⟨BitVec 8, .numbered fun x => x.toNat⟩
  | .short => ⟨BitVec 16, .numbered BitVec.toInt⟩
  | .ushort => ⟨BitVec 16, .numbered fun x => x.toNat⟩
  | .int => ⟨BitVec 32, .numbered BitVec.toInt⟩
  | .uint => ⟨BitVec 32, .numbered fun x => x.toNat⟩
  | .ull => ⟨BitVec 64, .numbered fun x => x.toNat⟩
  | .string => ⟨List Byte, (Order.numbered fun x : Byte => x.toNat).lex⟩
  | .attr => ⟨Extent.Attr, .numbered fun _ => 0⟩
  | .vector t => ⟨List t.sem.Val, t.sem.order.lex⟩
  | .map k v => ⟨SortedMap k.sem.order v.sem.Val, (k.sem.order.pair v.sem.order).lex.comap (·.entries)⟩

abbrev Ty.Val (t : Ty) : Type := t.sem.Val

abbrev Value := (t : Ty) × t.Val

/-! ### Writing -/

/-- `marshall`: `_buf`, `_capa` and `_ind`. Bytes nobody has written are whatever the
memory holds. -/
structure Marshall where
  buf : Nat → Byte
  capa : Nat
  ind : Nat

abbrev Writing := StateT Marshall Option Unit

namespace Marshall

/-- `marshall()`, in memory that holds `junk`. -/
def new (junk : Nat → Byte) : Marshall := ⟨junk, defaultRpcSz, rpcHeaderSz⟩

/-- `realloc` of a full buffer, to a capacity that is an `int`. -/
def reserve (full : Bool) (capa : Nat) : Writing := fun m =>
  if full then if capa < 2 ^ 31 then some ((), {m with capa := capa}) else none
  else some ((), m)

def store (p : List Byte) : Writing := fun m =>
  if m.ind + p.length ≤ m.capa then
    some ((), {m with buf := blit m.buf m.ind p, ind := m.ind + p.length})
  else none

/-- `marshall::rawbyte`. -/
def rawbyte (x : Byte) : Writing := do
  let m ← get
  reserve (m.capa ≤ m.ind) (2 * m.capa)
  store [x]

/-- `marshall::rawbytes`. -/
def rawbytes (p : List Byte) : Writing := do
  let m ← get
  reserve (m.capa < m.ind + p.length) (if p.length < m.capa then 2 * m.capa else m.capa + p.length)
  store p

/-- `operator<<` of `unsigned int`. -/
def writeWord (x : BitVec 32) : Writing := do
  rawbyte ((x >>> 24 &&& 255#32).setWidth 8)
  rawbyte ((x >>> 16 &&& 255#32).setWidth 8)
  rawbyte ((x >>> 8 &&& 255#32).setWidth 8)
  rawbyte ((x &&& 255#32).setWidth 8)

/-- `operator<<` of `unsigned short`. -/
def writeHalf (x : BitVec 16) : Writing := do
  rawbyte ((x >>> 8 &&& 255#16).setWidth 8)
  rawbyte ((x &&& 255#16).setWidth 8)

/-- `operator<<` of `bool`. -/
def writeBool (x : Bool) : Writing := rawbyte (if x then 1 else 0)

/-- `operator<<` of `unsigned long long`. -/
def writeDouble (x : BitVec 64) : Writing := do
  writeWord ((x >>> 32).setWidth 32)
  writeWord (x.setWidth 32)

/-- `operator<<` of `std::string`. -/
def writeString (x : List Byte) : Writing := do
  writeWord (BitVec.ofNat 32 x.length)
  rawbytes x

/-- `operator<<` of `extent_protocol::attr`. -/
def writeAttr (x : Extent.Attr) : Writing := do
  writeWord x.atime
  writeWord x.mtime
  writeWord x.ctime
  writeWord x.size

/-- `marshall::pack`. -/
def pack (x : BitVec 32) : Writing := do
  rawbyte ((x.sshiftRight 24 &&& 255#32).setWidth 8)
  rawbyte ((x.sshiftRight 16 &&& 255#32).setWidth 8)
  rawbyte ((x.sshiftRight 8 &&& 255#32).setWidth 8)
  rawbyte ((x &&& 255#32).setWidth 8)

/-- The head put at the header, and back again after `w`. -/
def inHeader (w : Writing) : Writing := do
  let m ← get
  set {m with ind := 4}
  w
  modify fun m' => {m' with ind := m.ind}

/-- `marshall::pack_req_header`. -/
def packReqHeader (h : ReqHeader) : Writing := inHeader do
  pack h.xid
  pack h.proc
  pack h.cltNonce
  pack h.srvNonce
  pack h.xidRep

/-- `marshall::pack_reply_header`. -/
def packReplyHeader (h : ReplyHeader) : Writing := inHeader do
  pack h.xid
  pack h.ret

def writeEach {α : Type} (w : α → Writing) : List α → Writing
  | [] => pure ()
  | a :: rest => do
    w a
    writeEach w rest

end Marshall

open Marshall in
/-- `operator<<`. -/
def Ty.write : (t : Ty) → t.Val → Writing
  | .bool, x => writeBool x
  | .char, x => rawbyte x
  | .uchar, x => rawbyte x
  | .short, x => writeHalf x
  | .ushort, x => writeHalf x
  | .int, x => writeWord x
  | .uint, x => writeWord x
  | .ull, x => writeDouble x
  | .string, x => writeString x
  | .attr, x => writeAttr x
  | .vector t, x => do
    writeWord (BitVec.ofNat 32 x.length)
    writeEach t.write x
  | .map k v, x => do
    writeWord (BitVec.ofNat 32 x.entries.length)
    writeEach (fun e => do k.write e.1; v.write e.2) x.entries

def writeAll (vs : List Value) : Writing := Marshall.writeEach (fun v => v.1.write v.2) vs

/-! ### Reading -/

/-- `unmarshall`: `_buf`, `_sz`, `_ind` and `_ok`. -/
structure Unmarshall where
  buf : Nat → Byte
  sz : Nat
  ind : Nat
  ok : Bool

abbrev Reading := StateT Unmarshall Option

namespace Unmarshall

/-- `unmarshall(b, sz)`. -/
def new (buf : Nat → Byte) (sz : Nat) : Unmarshall := ⟨buf, sz, 0, true⟩

/-- `unmarshall::okdone`. -/
def okdone (u : Unmarshall) : Bool := u.ok && u.ind == u.sz

/-- `unmarshall::take_in`, from an `unmarshall` of that buffer and size. -/
def takeIn (u : Unmarshall) : Unmarshall := ⟨u.buf, u.sz, rpcHeaderSz, decide (rpcHeaderSz ≤ u.sz)⟩

/-- `unmarshall::rawbyte`: a signed `char`, as an `unsigned int`. -/
def rawbyte : Reading (BitVec 32) := fun u =>
  if u.sz ≤ u.ind then some (0, {u with ok := false})
  else some ((u.buf u.ind).signExtend 32, {u with ind := u.ind + 1})

/-- `unmarshall::rawbytes` into a fresh string. The size is checked in `unsigned`. -/
def rawbytes (n : BitVec 32) : Reading (List Byte) := fun u =>
  if BitVec.ofNat 32 u.sz < BitVec.ofNat 32 u.ind + n then some ([], {u with ok := false})
  else if u.ind + n.toNat ≤ u.sz then
    some (bytesFrom u.buf u.ind n.toNat, {u with ind := u.ind + n.toNat})
  else none

/-- `operator>>` of `unsigned int` and of `int`, and `unmarshall::unpack`. -/
def readWord : Reading (BitVec 32) := do
  let a ← rawbyte
  let b ← rawbyte
  let c ← rawbyte
  let d ← rawbyte
  return (a &&& 255#32) <<< 24 ||| (b &&& 255#32) <<< 16 ||| (c &&& 255#32) <<< 8 ||| (d &&& 255#32)

/-- `operator>>` of `unsigned short` and of `short`. -/
def readHalf : Reading (BitVec 16) := do
  let a ← rawbyte
  let b ← rawbyte
  return ((a &&& 255#32) <<< 8 ||| (b &&& 255#32)).setWidth 16

/-- `operator>>` of `bool`. -/
def readBool : Reading Bool := do
  let a ← rawbyte
  return a != 0

/-- `operator>>` of `unsigned char` and of `char`. -/
def readChar : Reading (BitVec 8) := do
  let a ← rawbyte
  return a.setWidth 8

/-- `operator>>` of `unsigned long long`. -/
def readDouble : Reading (BitVec 64) := do
  let h ← readWord
  let l ← readWord
  return l.setWidth 64 ||| h.setWidth 64 <<< 32

/-- `operator>>` of `std::string`. -/
def readString : Reading (List Byte) := do
  let n ← readWord
  let u ← get
  if u.ok then rawbytes n else return []

/-- `operator>>` of `extent_protocol::attr`. -/
def readAttr : Reading Extent.Attr := do
  let atime ← readWord
  let mtime ← readWord
  let ctime ← readWord
  let size ← readWord
  return ⟨atime, mtime, ctime, size⟩

/-- The head put at the header, and behind it after `r`. -/
def inHeader {α : Type} (r : Reading α) : Reading α := do
  modify fun u => {u with ind := 4}
  let a ← r
  modify fun u => {u with ind := rpcHeaderSz}
  return a

/-- `unmarshall::unpack_req_header`. -/
def unpackReqHeader : Reading ReqHeader := inHeader do
  let xid ← readWord
  let proc ← readWord
  let cltNonce ← readWord
  let srvNonce ← readWord
  let xidRep ← readWord
  return ⟨xid, proc, cltNonce, srvNonce, xidRep⟩

/-- `unmarshall::unpack_reply_header`. -/
def unpackReplyHeader : Reading ReplyHeader := inHeader do
  let xid ← readWord
  let ret ← readWord
  return ⟨xid, ret⟩

def readEach {α : Type} (r : Reading α) : Nat → Reading (List α)
  | 0 => return []
  | n + 1 => do
    let a ← r
    let rest ← readEach r n
    return a :: rest

end Unmarshall

open Unmarshall in
/-- `operator>>` into a fresh variable. -/
def Ty.read : (t : Ty) → Reading t.Val
  | .bool => readBool
  | .char => readChar
  | .uchar => readChar
  | .short => readHalf
  | .ushort => readHalf
  | .int => readWord
  | .uint => readWord
  | .ull => readDouble
  | .string => readString
  | .attr => readAttr
  | .vector t => do
    let n ← readWord
    readEach t.read n.toNat
  | .map k v => do
    let n ← readWord
    let entries ← readEach (do let a ← k.read; let b ← v.read; return (a, b)) n.toNat
    return SortedMap.empty.setAll entries

def readAll : List Ty → Reading (List Value)
  | [] => return []
  | t :: ts => do
    let v ← t.read
    let vs ← readAll ts
    return ⟨t, v⟩ :: vs

/-! ### What is written -/

/-- The capacity is an `int` and the head is within it. -/
structure Marshall.Sized (m : Marshall) : Prop where
  ind : m.ind ≤ m.capa
  room : defaultRpcSz ≤ m.capa
  capa : m.capa < 2 ^ 31

/-- The bytes `p` were put at the head. -/
structure Wrote (m : Marshall) (p : List Byte) (m' : Marshall) : Prop where
  buf : m'.buf = blit m.buf m.ind p
  ind : m'.ind = m.ind + p.length
  capa : m.capa ≤ m'.capa
  sized : m'.Sized

/-- Below 2^30 bytes the writer puts `p` at the head. -/
def Emits (w : Writing) (p : List Byte) : Prop :=
  ∀ m : Marshall, m.Sized → m.ind + p.length ≤ 2 ^ 30 → ∃ m', w m = some ((), m') ∧ Wrote m p m'

theorem emits_pure : Emits (pure ()) [] := fun m hm _ =>
  ⟨m, rfl, by funext i; simp [blit], rfl, Nat.le_refl _, hm⟩

theorem Emits.seq {w w' : Writing} {p q : List Byte} (h : Emits w p) (h' : Emits w' q) :
    Emits (do w; w') (p ++ q) := by
  intro m hm hlen
  rw [List.length_append] at hlen
  obtain ⟨m₁, hw, hm₁⟩ := h m hm (by omega)
  obtain ⟨m₂, hw', hm₂⟩ := h' m₁ hm₁.sized (by rw [hm₁.ind]; omega)
  refine ⟨m₂, ?_, ?_, ?_, hm₁.capa.trans hm₂.capa, hm₂.sized⟩
  · change (w m).bind (fun r => w' r.2) = _
    rw [hw]
    exact hw'
  · rw [hm₂.buf, hm₁.buf, hm₁.ind, blit_append]
  · rw [hm₂.ind, hm₁.ind, List.length_append, Nat.add_assoc]

theorem emits_store {p : List Byte} {full : Marshall → Bool} {capa : Marshall → Nat}
    (hfull : ∀ m : Marshall, m.Sized → m.ind + p.length ≤ 2 ^ 30 → full m = true →
      m.capa ≤ capa m ∧ m.ind + p.length ≤ capa m ∧ capa m < 2 ^ 31)
    (hfits : ∀ m : Marshall, m.Sized → full m = false → m.ind + p.length ≤ m.capa) :
    Emits (do let m ← get; Marshall.reserve (full m) (capa m); Marshall.store p) p := by
  intro m hm hlen
  have hdo : (do let m ← get; Marshall.reserve (full m) (capa m); Marshall.store p : Writing) m =
      (Marshall.reserve (full m) (capa m) m).bind fun r => Marshall.store p r.2 := rfl
  rw [hdo]
  cases hf : full m with
  | true =>
    obtain ⟨hcapa, hroom, hint⟩ := hfull m hm hlen hf
    refine ⟨{buf := blit m.buf m.ind p, ind := m.ind + p.length, capa := capa m}, ?_, rfl, rfl, hcapa,
      hroom, hm.room.trans hcapa, hint⟩
    rw [Marshall.reserve, if_pos rfl, if_pos hint]
    exact if_pos hroom
  | false =>
    have hroom := hfits m hm hf
    refine ⟨{m with buf := blit m.buf m.ind p, ind := m.ind + p.length}, ?_, rfl, rfl, Nat.le_refl _,
      hroom, hm.room, hm.capa⟩
    exact if_pos hroom

theorem emits_rawbyte (x : Byte) : Emits (Marshall.rawbyte x) [x] := by
  refine emits_store (fun m hm hlen hfull => ?_) fun m _ hfull => ?_
  · have hind := hm.ind
    have hroom : 1024 ≤ m.capa := hm.room
    simp only [decide_eq_true_eq, List.length_singleton] at hfull hlen ⊢
    omega
  · exact Nat.lt_of_not_le (of_decide_eq_false hfull)

theorem emits_rawbytes (p : List Byte) : Emits (Marshall.rawbytes p) p := by
  refine emits_store (fun m hm hlen hfull => ?_) fun m _ hfull => ?_
  · have hind := hm.ind
    simp only [decide_eq_true_eq] at hfull ⊢
    split <;> omega
  · exact Nat.le_of_not_lt (of_decide_eq_false hfull)

def wordBytes (x : BitVec 32) : List Byte :=
  [(x >>> 24).setWidth 8, (x >>> 16).setWidth 8, (x >>> 8).setWidth 8, x.setWidth 8]

def halfBytes (x : BitVec 16) : List Byte := [(x >>> 8).setWidth 8, x.setWidth 8]

theorem emits_writeWord (x : BitVec 32) : Emits (Marshall.writeWord x) (wordBytes x) := by
  simp only [Marshall.writeWord, setWidth_and_low (w := 32) (by decide)]
  exact (emits_rawbyte _).seq ((emits_rawbyte _).seq ((emits_rawbyte _).seq (emits_rawbyte _)))

theorem emits_writeHalf (x : BitVec 16) : Emits (Marshall.writeHalf x) (halfBytes x) := by
  simp only [Marshall.writeHalf, setWidth_and_low (w := 16) (by decide)]
  exact (emits_rawbyte _).seq (emits_rawbyte _)

/-- The sign that an arithmetic shift brings in is above the byte. -/
theorem setWidth_sshiftRight (x : BitVec 32) {k : Nat} (hk : k ≤ 24) :
    (x.sshiftRight k).setWidth 8 = (x >>> k).setWidth 8 := by
  apply BitVec.eq_of_getLsbD_eq
  intro i hi
  have hlow : k + i < 32 := by omega
  simp only [BitVec.getLsbD_setWidth, BitVec.getLsbD_sshiftRight, BitVec.getLsbD_ushiftRight, hlow, if_true,
    hi, decide_true, show ¬ 32 ≤ i by omega, decide_false, Bool.not_false, Bool.true_and]

theorem emits_pack (x : BitVec 32) : Emits (Marshall.pack x) (wordBytes x) := by
  simp only [Marshall.pack, setWidth_and_low (w := 32) (by decide)]
  rw [setWidth_sshiftRight x (by decide), setWidth_sshiftRight x (by decide),
    setWidth_sshiftRight x (by decide)]
  exact (emits_rawbyte _).seq ((emits_rawbyte _).seq ((emits_rawbyte _).seq (emits_rawbyte _)))

theorem emits_writeEach {α : Type} {w : α → Writing} {f : α → List Byte} (h : ∀ a, Emits (w a) (f a))
    (l : List α) : Emits (Marshall.writeEach w l) (l.flatMap f) := by
  induction l with
  | nil => exact emits_pure
  | cons a rest ih => exact (h a).seq ih

/-- The bytes `operator<<` writes. -/
def Ty.wire : (t : Ty) → t.Val → List Byte
  | .bool, x => [(Bool.toNat x : Byte)]
  | .char, x => [x]
  | .uchar, x => [x]
  | .short, x => halfBytes x
  | .ushort, x => halfBytes x
  | .int, x => wordBytes x
  | .uint, x => wordBytes x
  | .ull, (x : BitVec 64) => wordBytes ((x >>> 32).setWidth 32) ++ wordBytes (x.setWidth 32)
  | .string, (x : List Byte) => wordBytes (BitVec.ofNat 32 x.length) ++ x
  | .attr, (x : Extent.Attr) =>
    wordBytes x.atime ++ (wordBytes x.mtime ++ (wordBytes x.ctime ++ wordBytes x.size))
  | .vector t, (x : List t.Val) => wordBytes (BitVec.ofNat 32 x.length) ++ x.flatMap t.wire
  | .map k v, (x : SortedMap k.sem.order v.Val) =>
    wordBytes (BitVec.ofNat 32 x.entries.length) ++
      x.entries.flatMap fun e : k.Val × v.Val => k.wire e.1 ++ v.wire e.2

theorem emits_write (t : Ty) (x : t.Val) : Emits (t.write x) (t.wire x) := by
  induction t with
  | bool => cases x <;> exact emits_rawbyte _
  | char => exact emits_rawbyte x
  | uchar => exact emits_rawbyte x
  | short => exact emits_writeHalf x
  | ushort => exact emits_writeHalf x
  | int => exact emits_writeWord x
  | uint => exact emits_writeWord x
  | ull => exact (emits_writeWord _).seq (emits_writeWord _)
  | string => exact (emits_writeWord _).seq (emits_rawbytes _)
  | attr =>
    exact (emits_writeWord _).seq ((emits_writeWord _).seq ((emits_writeWord _).seq (emits_writeWord _)))
  | vector t ih => exact (emits_writeWord _).seq (emits_writeEach ih _)
  | map k v ihk ihv =>
    exact (emits_writeWord _).seq (emits_writeEach (fun e : k.Val × v.Val => (ihk e.1).seq (ihv e.2)) _)

def wireAll (vs : List Value) : List Byte := vs.flatMap fun v => v.1.wire v.2

theorem emits_writeAll (vs : List Value) : Emits (writeAll vs) (wireAll vs) :=
  emits_writeEach (fun v : Value => emits_write v.1 v.2) vs

/-! ### What is read -/

/-- The reader that finds `p` at its head takes it, and returns `a`. -/
def Takes {α : Type} (r : Reading α) (p : List Byte) (a : α) : Prop :=
  ∀ u : Unmarshall, u.ok = true → u.sz < 2 ^ 31 → u.ind + p.length ≤ u.sz → StoredAt u.buf u.ind p →
    r u = some (a, {u with ind := u.ind + p.length})

section Readers
variable {α β : Type}

theorem takes_pure (a : α) : Takes (pure a) [] a := fun _ _ _ _ _ => rfl

theorem Takes.bind {r : Reading α} {f : α → Reading β} {p q : List Byte} {a : α} {b : β}
    (h : Takes r p a) (h' : Takes (f a) q b) : Takes (r >>= f) (p ++ q) b := by
  intro u hok hsz hlen hat
  rw [List.length_append] at hlen
  obtain ⟨hp, hq⟩ := storedAt_append.mp hat
  change (r u).bind (fun s => f s.1 s.2) = _
  rw [h u hok hsz (by omega) hp, List.length_append, ← Nat.add_assoc]
  exact h' {u with ind := u.ind + p.length} hok hsz (by dsimp only; omega) hq

theorem Takes.map {r : Reading α} {f : α → β} {p : List Byte} {a : α} {b : β} (h : Takes r p a)
    (hb : f a = b) : Takes (do let a ← r; return f a) p b := by
  have := h.bind (f := fun a => pure (f a)) (takes_pure (f a))
  rwa [List.append_nil, hb] at this

theorem Takes.of_bound {r : Reading α} {p : List Byte} {a : α} (h : p.length < 2 ^ 31 → Takes r p a) :
    Takes r p a := fun u hok hsz hlen => h (by omega) u hok hsz hlen

theorem takes_rawbyte (b : Byte) : Takes Unmarshall.rawbyte [b] (b.signExtend 32) := by
  intro u _ _ hlen hat
  rw [Unmarshall.rawbyte, if_neg (by rw [List.length_singleton] at hlen; omega), hat.head]
  rfl

theorem takes_rawbytes {p : List Byte} (hp : p.length < 2 ^ 31) :
    Takes (Unmarshall.rawbytes (BitVec.ofNat 32 p.length)) p p := by
  intro u _ hsz hlen hat
  have hn : (BitVec.ofNat 32 p.length).toNat = p.length := Nat.mod_eq_of_lt (by omega)
  have hin : ¬ BitVec.ofNat 32 u.sz < BitVec.ofNat 32 u.ind + BitVec.ofNat 32 p.length := by
    rw [BitVec.lt_def, BitVec.toNat_add, hn, BitVec.toNat_ofNat, BitVec.toNat_ofNat]
    omega
  rw [Unmarshall.rawbytes, if_neg hin, hn, if_pos hlen, hat.bytesFrom]

theorem takes_readWord (x : BitVec 32) : Takes Unmarshall.readWord (wordBytes x) x := by
  refine (takes_rawbyte _).bind ((takes_rawbyte _).bind ((takes_rawbyte _).bind ((takes_rawbyte _).map ?_)))
  simp only [signExtend_and_low]
  exact word_of_bytes x

theorem takes_readHalf (x : BitVec 16) : Takes Unmarshall.readHalf (halfBytes x) x := by
  refine (takes_rawbyte _).bind ((takes_rawbyte _).map ?_)
  simp only [signExtend_and_low]
  exact half_of_bytes x

theorem takes_readBool (x : Bool) : Takes Unmarshall.readBool [(x.toNat : Byte)] x := by
  refine (takes_rawbyte _).map ?_
  cases x <;> rfl

theorem takes_readChar (x : BitVec 8) : Takes Unmarshall.readChar [x] x := by
  refine (takes_rawbyte x).map ?_
  apply BitVec.eq_of_getLsbD_eq
  intro i hi
  simp only [BitVec.getLsbD_setWidth, BitVec.getLsbD_signExtend, hi, show i < 32 by omega, decide_true,
    Bool.true_and, if_true]

theorem takes_readString (x : List Byte) :
    Takes Unmarshall.readString (wordBytes (BitVec.ofNat 32 x.length) ++ x) x := by
  refine Takes.of_bound fun hlen => (takes_readWord _).bind ?_
  rw [List.length_append] at hlen
  intro u hok hsz hin hat
  change (if u.ok then Unmarshall.rawbytes (BitVec.ofNat 32 x.length) else pure [] : Reading (List Byte)) u = _
  rw [if_pos hok]
  exact takes_rawbytes (by omega) u hok hsz hin hat

theorem takes_readEach {r : Reading α} {f : α → List Byte} (h : ∀ a, Takes r (f a) a) (l : List α) :
    Takes (Unmarshall.readEach r l.length) (l.flatMap f) l := by
  induction l with
  | nil => exact takes_pure []
  | cons a rest ih => exact (h a).bind (ih.map rfl)

theorem takes_counted {r : Reading α} {f : α → List Byte} (h : ∀ a, Takes r (f a) a)
    (hpos : ∀ a, 0 < (f a).length) (l : List α) :
    Takes (do let n ← Unmarshall.readWord; Unmarshall.readEach r n.toNat)
      (wordBytes (BitVec.ofNat 32 l.length) ++ l.flatMap f) l := by
  refine Takes.of_bound fun hlen => (takes_readWord _).bind ?_
  have hle : l.length ≤ (l.flatMap f).length := by
    clear hlen
    induction l with
    | nil => exact Nat.zero_le _
    | cons a rest ih =>
      have := hpos a
      rw [List.flatMap_cons, List.length_append, List.length_cons]
      omega
  rw [List.length_append] at hlen
  have hn : (BitVec.ofNat 32 l.length).toNat = l.length := Nat.mod_eq_of_lt (by omega)
  rw [hn]
  exact takes_readEach h l

end Readers

theorem Ty.wire_pos (t : Ty) (x : t.Val) : 0 < (t.wire x).length := by
  cases t <;> exact Nat.succ_pos _

/-- What `operator<<` writes, `operator>>` reads. -/
theorem takes_read (t : Ty) (x : t.Val) : Takes t.read (t.wire x) x := by
  induction t with
  | bool => exact takes_readBool x
  | char => exact takes_readChar x
  | uchar => exact takes_readChar x
  | short => exact takes_readHalf x
  | ushort => exact takes_readHalf x
  | int => exact takes_readWord x
  | uint => exact takes_readWord x
  | ull => exact (takes_readWord _).bind ((takes_readWord _).map (double_of_words x))
  | string => exact takes_readString x
  | attr =>
    exact (takes_readWord _).bind ((takes_readWord _).bind ((takes_readWord _).bind
      ((takes_readWord _).map rfl)))
  | vector t ih => exact takes_counted ih t.wire_pos x
  | map k v ihk ihv =>
    have hentry (e : k.Val × v.Val) :
        Takes (do let a ← k.read; let b ← v.read; return (a, b)) (k.wire e.1 ++ v.wire e.2) e :=
      (ihk e.1).bind ((ihv e.2).map rfl)
    have hpos (e : k.Val × v.Val) : 0 < (k.wire e.1 ++ v.wire e.2).length := by
      have := k.wire_pos e.1
      rw [List.length_append]
      omega
    have := (takes_counted hentry hpos x.entries).map (SortedMap.setAll_entries x)
    rw [bind_assoc] at this
    exact this

theorem takes_readAll (vs : List Value) : Takes (readAll (vs.map Sigma.fst)) (wireAll vs) vs := by
  induction vs with
  | nil => exact takes_pure []
  | cons v rest ih => exact (takes_read v.1 v.2).bind (ih.map rfl)

/-! ### Headers -/

inductive Header where
  | req (h : ReqHeader)
  | reply (h : ReplyHeader)
  deriving DecidableEq

/-- `pack_req_header` or `pack_reply_header`. -/
def Header.pack : Header → Writing
  | .req h => Marshall.packReqHeader h
  | .reply h => Marshall.packReplyHeader h

def Header.unpack : Header → Reading Header
  | .req _ => do return .req (← Unmarshall.unpackReqHeader)
  | .reply _ => do return .reply (← Unmarshall.unpackReplyHeader)

/-- The bytes of the header, behind those of the size. -/
def Header.wire : Header → List Byte
  | .req h =>
    wordBytes h.xid ++ (wordBytes h.proc ++ (wordBytes h.cltNonce ++ (wordBytes h.srvNonce ++ wordBytes h.xidRep)))
  | .reply h => wordBytes h.xid ++ wordBytes h.ret

theorem Header.length_wire (h : Header) : h.wire.length ≤ 20 := by
  cases h with
  | req h => exact Nat.le_refl 20
  | reply h => exact Nat.le_of_ble_eq_true rfl

/-- A header is written at its place, whatever has been written behind it. -/
theorem inHeader_spec {w : Writing} {p : List Byte} (h : Emits w p) (hp : p.length ≤ 20) {m : Marshall}
    (hm : m.Sized) :
    ∃ m', Marshall.inHeader w m = some ((), m') ∧ m'.buf = blit m.buf 4 p ∧ m'.ind = m.ind ∧ m'.Sized := by
  have hroom : 1024 ≤ m.capa := hm.room
  have hsized : Marshall.Sized {m with ind := 4} := ⟨by dsimp only; omega, hm.room, hm.capa⟩
  obtain ⟨m₁, hw, hm₁⟩ := h {m with ind := 4} hsized (by dsimp only; omega)
  refine ⟨{m₁ with ind := m.ind}, ?_, hm₁.buf, rfl, hm.ind.trans hm₁.capa, hm₁.sized.room, hm₁.sized.capa⟩
  change (w {m with ind := 4}).bind (fun r => some ((), {r.2 with ind := m.ind})) = _
  rw [hw]
  rfl

theorem Header.pack_spec (h : Header) {m : Marshall} (hm : m.Sized) :
    ∃ m', h.pack m = some ((), m') ∧ m'.buf = blit m.buf 4 h.wire ∧ m'.ind = m.ind ∧ m'.Sized := by
  refine match h with
    | .req r => inHeader_spec ?_ (Header.req r).length_wire hm
    | .reply r => inHeader_spec ?_ (Header.reply r).length_wire hm
  · exact (emits_pack _).seq ((emits_pack _).seq ((emits_pack _).seq ((emits_pack _).seq (emits_pack _))))
  · exact (emits_pack _).seq (emits_pack _)

/-- A header is read from its place, and the head is then behind it. -/
theorem inHeader_takes {α : Type} {r : Reading α} {p : List Byte} {a : α} (h : Takes r p a) {u : Unmarshall}
    (hok : u.ok = true) (hsz : u.sz < 2 ^ 31) (hlen : 4 + p.length ≤ u.sz) (hat : StoredAt u.buf 4 p) :
    Unmarshall.inHeader r u = some (a, {u with ind := rpcHeaderSz}) := by
  change (r {u with ind := 4}).bind (fun s => some (s.1, {s.2 with ind := rpcHeaderSz})) = _
  rw [h {u with ind := 4} hok hsz hlen hat]
  rfl

section Unpack
variable {u : Unmarshall}

theorem unpackReqHeader_spec (h : ReqHeader) (hok : u.ok = true) (hsz : u.sz < 2 ^ 31)
    (hlen : rpcHeaderSz ≤ u.sz) (hat : StoredAt u.buf 4 (Header.req h).wire) :
    Unmarshall.unpackReqHeader u = some (h, {u with ind := rpcHeaderSz}) := by
  have hin : 4 + (Header.req h).wire.length ≤ u.sz := hlen
  refine inHeader_takes ?_ hok hsz hin hat
  exact (takes_readWord _).bind ((takes_readWord _).bind ((takes_readWord _).bind
    ((takes_readWord _).bind ((takes_readWord _).map rfl))))

theorem unpackReplyHeader_spec (h : ReplyHeader) (hok : u.ok = true) (hsz : u.sz < 2 ^ 31)
    (hlen : rpcHeaderSz ≤ u.sz) (hat : StoredAt u.buf 4 (Header.reply h).wire) :
    Unmarshall.unpackReplyHeader u = some (h, {u with ind := rpcHeaderSz}) := by
  have hin : 4 + (Header.reply h).wire.length ≤ u.sz := Nat.le_trans (by decide : 12 ≤ rpcHeaderSz) hlen
  refine inHeader_takes ?_ hok hsz hin hat
  exact (takes_readWord _).bind ((takes_readWord _).map rfl)

theorem Header.unpack_spec (h : Header) (hok : u.ok = true) (hsz : u.sz < 2 ^ 31)
    (hlen : rpcHeaderSz ≤ u.sz) (hat : StoredAt u.buf 4 h.wire) :
    h.unpack u = some (h, {u with ind := rpcHeaderSz}) := by
  cases h with
  | req h =>
    change (Unmarshall.unpackReqHeader u).bind (fun s => some (Header.req s.1, s.2)) = _
    rw [unpackReqHeader_spec h hok hsz hlen hat]
    rfl
  | reply h =>
    change (Unmarshall.unpackReplyHeader u).bind (fun s => some (Header.reply s.1, s.2)) = _
    rw [unpackReplyHeader_spec h hok hsz hlen hat]
    rfl

end Unpack

/-! ### Messages -/

/-- A message: the header is packed before the values or after them. -/
def message (h : Header) (first : Bool) (vs : List Value) : Writing :=
  if first then do h.pack; writeAll vs else do writeAll vs; h.pack

/-- The header and the values of a message are in its buffer. -/
structure Written (h : Header) (vs : List Value) (m : Marshall) : Prop where
  header : StoredAt m.buf 4 h.wire
  values : StoredAt m.buf rpcHeaderSz (wireAll vs)
  size : m.ind = rpcHeaderSz + (wireAll vs).length

theorem new_sized (junk : Nat → Byte) : (Marshall.new junk).Sized where
  ind := Nat.le_of_ble_eq_true rfl
  room := Nat.le_refl _
  capa := by
    change defaultRpcSz < 2 ^ 31
    decide

theorem message_written (junk : Nat → Byte) (h : Header) (first : Bool) (vs : List Value)
    (hsize : rpcHeaderSz + (wireAll vs).length < 2 ^ 30) :
    ∃ m, message h first vs (Marshall.new junk) = some ((), m) ∧ Written h vs m := by
  have hle := h.length_wire
  have hbehind : 4 + h.wire.length ≤ rpcHeaderSz := by
    unfold rpcHeaderSz
    omega
  cases first with
  | true =>
    obtain ⟨m₁, hpack, hbuf, hind, hsized⟩ := h.pack_spec (new_sized junk)
    have hind : m₁.ind = rpcHeaderSz := hind
    obtain ⟨m, hwrite, hm⟩ := emits_writeAll vs m₁ hsized (by rw [hind]; omega)
    refine ⟨m, ?_, ?_, ?_, ?_⟩
    · change (h.pack (Marshall.new junk)).bind (fun r => writeAll vs r.2) = _
      rw [hpack]
      exact hwrite
    · rw [hm.buf, hbuf, hind]
      exact (storedAt_blit _ _ _).blit (.inr hbehind)
    · rw [hm.buf, hind]
      exact storedAt_blit _ _ _
    · rw [hm.ind, hind]
  | false =>
    obtain ⟨m₁, hwrite, hm⟩ := emits_writeAll vs (Marshall.new junk) (new_sized junk) (Nat.le_of_lt hsize)
    obtain ⟨m, hpack, hbuf, hind, -⟩ := h.pack_spec hm.sized
    refine ⟨m, ?_, ?_, ?_, ?_⟩
    · change (writeAll vs (Marshall.new junk)).bind (fun r => h.pack r.2) = _
      rw [hwrite]
      exact hpack
    · rw [hbuf]
      exact storedAt_blit _ _ _
    · rw [hbuf, hm.buf]
      exact (storedAt_blit _ _ _).blit (.inl hbehind)
    · rw [hind, hm.ind]
      rfl

theorem wireAll_append (vs ws : List Value) : wireAll (vs ++ ws) = wireAll vs ++ wireAll ws :=
  List.flatMap_append

theorem wireAll_eq_nil {vs : List Value} : wireAll vs = [] ↔ vs = [] := by
  cases vs with
  | nil => simp [wireAll]
  | cons v rest =>
    have hpos := v.1.wire_pos v.2
    have hne : wireAll (v :: rest) ≠ [] := fun he => by
      have : (v.1.wire v.2 ++ wireAll rest).length = 0 := congrArg List.length he
      rw [List.length_append] at this
      omega
    exact ⟨fun he => absurd he hne, fun he => absurd he (List.cons_ne_nil v rest)⟩

/-- A buffer with a message in it is read up to any of its values. -/
theorem Written.read {h : Header} {vs : List Value} {m : Marshall} (hm : Written h vs m)
    (hsize : m.ind < 2 ^ 31) :
    ∃ u, h.unpack (Unmarshall.new m.buf m.ind) = some (h, u) ∧ u.ok = true ∧
      ∀ pre post, vs = pre ++ post → ∃ u', readAll (pre.map Sigma.fst) u = some (pre, u') ∧
        u'.ok = true ∧ (u'.okdone = true ↔ post = []) := by
  have hlen := hm.size
  have hbehind : rpcHeaderSz ≤ m.ind := by omega
  refine ⟨_, h.unpack_spec rfl hsize hbehind hm.header, rfl, fun pre post hvs => ?_⟩
  have hat := hm.values
  rw [hvs, wireAll_append] at hat hlen
  rw [List.length_append] at hlen
  refine ⟨_, takes_readAll pre _ rfl hsize ?_ (storedAt_append.mp hat).1, rfl, ?_⟩
  · change rpcHeaderSz + _ ≤ m.ind
    omega
  · rw [← wireAll_eq_nil, ← List.length_eq_zero_iff]
    change (true && rpcHeaderSz + (wireAll pre).length == m.ind) = true ↔ _
    rw [Bool.true_and, beq_iff_eq]
    omega

/-- **Messages are read as they were written**: the header packed before or after the
values, and each of the values; `ok()` is true all along, and `okdone()` after the last
value and not before. -/
theorem marshall_round_trip (junk : Nat → Byte) (h : Header) (first : Bool) (vs : List Value)
    (hsize : rpcHeaderSz + (wireAll vs).length < 2 ^ 30) :
    ∃ m, message h first vs (Marshall.new junk) = some ((), m) ∧
      ∃ u, h.unpack (Unmarshall.new m.buf m.ind) = some (h, u) ∧ u.ok = true ∧
        ∀ pre post, vs = pre ++ post → ∃ u', readAll (pre.map Sigma.fst) u = some (pre, u') ∧
          u'.ok = true ∧ (u'.okdone = true ↔ post = []) := by
  obtain ⟨m, hwrite, hm⟩ := message_written junk h first vs hsize
  exact ⟨m, hwrite, hm.read (by rw [hm.size]; omega)⟩

/-- A negative `char`, a string and a map of vectors, in a request. -/
theorem marshall_round_trip_map :
    ∃ m, message (.req ⟨7, 0x6001, 1, 2, 3⟩) false
        [⟨.char, (0xff : BitVec 8)⟩, ⟨.string, [104, 105]⟩,
          ⟨.map .int (.vector .bool), ⟨[((-1 : BitVec 32), [true, false]), ((3 : BitVec 32), [])], by decide⟩⟩]
        (Marshall.new fun _ => 0xcd) = some ((), m) ∧
      ∃ u, (Header.req ⟨7, 0x6001, 1, 2, 3⟩).unpack (Unmarshall.new m.buf m.ind) =
        some (.req ⟨7, 0x6001, 1, 2, 3⟩, u) := by
  obtain ⟨m, hm, u, hu, -⟩ := marshall_round_trip (fun _ => 0xcd) (.req ⟨7, 0x6001, 1, 2, 3⟩) false
    [⟨.char, (0xff : BitVec 8)⟩, ⟨.string, [104, 105]⟩,
      ⟨.map .int (.vector .bool), ⟨[((-1 : BitVec 32), [true, false]), ((3 : BitVec 32), [])], by decide⟩⟩]
    (by decide)
  exact ⟨m, hm, u, hu⟩

end Yfs.Rpc

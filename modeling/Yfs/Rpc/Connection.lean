import Yfs.Base.PrefixFree
import Yfs.Rpc.Marshall

/-! A TCP connection (`connection.cc`).

Threads send PDUs over a connection one at a time: a thread obtains the channel by putting
its PDU into `wpdu_`, and what the socket does not take at once is written by `write_cb`
while the thread waits. `read_cb` collects a PDU in `rpdu_`, size first, and offers it to
`got_pdu` until that accepts it. A failing read or write, or `closeconn`, sets `dead_`.

Each part of the code between taking and releasing `m_` is one step. The condition
variables and `waiters_` decide when a waiting thread looks again, which it may do at any
time. `obtained`, `written`, `taken` and `accepted` record what went through the connection.

The bytes written are those of the obtained PDUs, framed, up to where a failure cut them
(`Sending`). The bytes taken are cut into accepted PDUs by their own sizes (`Receiving`). -/
namespace Yfs.Rpc
open Base

/-- `MAX_PDU`. -/
def maxPdu : Nat := 10 * 2 ^ 20

/-- What is sent: a buffer with room for the header, no larger than the receiver takes. -/
structure Pdu where
  bytes : List Byte
  header : rpcHeaderSz ≤ bytes.length
  size : bytes.length ≤ maxPdu

/-- The smallest PDU, all of one byte. -/
def Pdu.small (b : Byte) : Pdu where
  bytes := List.replicate rpcHeaderSz b
  header := Nat.le_of_eq List.length_replicate.symm
  size := by rw [List.length_replicate]; decide

/-- The bytes of `htonl(sz)` in memory. -/
def htonl (sz : Int) : List Byte := wordBytes (BitVec.ofInt 32 sz)

/-- `ntohl` of four bytes in memory, as an `int`. -/
def ntohl : List Byte → Int
  | [a, b, c, d] =>
    (a.setWidth 32 <<< 24 ||| b.setWidth 32 <<< 16 ||| c.setWidth 32 <<< 8 ||| d.setWidth 32).toInt
  | _ => 0

/-- `connection::charbuf`, with the bytes of the buffer that were filled. -/
structure CharBuf where
  buf : Option (List Byte) := none
  sz : Int := 0
  solong : Int := 0
  deriving DecidableEq

/-- What `write` does: it takes some bytes, or fails with EAGAIN or another error. -/
inductive WriteRes where
  | wrote (n : Nat)
  | again
  | failed

/-- What `read` does. -/
inductive ReadRes where
  | got (bytes : List Byte)
  | eof
  | again
  | failed

/-- What a call of `writepdu` or `readpdu` comes to: its result, the buffer afterwards, and
the bytes that went through the socket. -/
structure Moved where
  succ : Bool
  pdu : CharBuf
  bytes : List Byte

/-- `connection::writepdu`. -/
def CharBuf.writepdu (w : CharBuf) (r : WriteRes) : Option Moved :=
  if w.solong < 0 then none
  else if w.solong = w.sz then some ⟨true, w, []⟩
  else w.buf.bind fun b =>
    let b := if w.solong = 0 then htonl w.sz ++ b.drop 4 else b
    match r with
    | .wrote n =>
      if n ≤ w.sz - w.solong then
        some ⟨true, ⟨some b, w.sz, w.solong + n⟩, (b.drop w.solong.toNat).take n⟩
      else none
    | .again => some ⟨true, ⟨some b, w.sz, w.solong⟩, []⟩
    | .failed => some ⟨false, ⟨some b, 0, -1⟩, []⟩

/-- `connection::readpdu` once the size is known. At the end of the stream `errno` is what
an earlier call left there. -/
def CharBuf.readBody (c : CharBuf) (body : ReadRes) (stale : Bool) : Option Moved :=
  c.buf.bind fun b =>
    match body with
    | .got bs =>
      if bs ≠ [] ∧ bs.length ≤ c.sz - c.solong then
        some ⟨true, ⟨some (b ++ bs), c.sz, c.solong + bs.length⟩, bs⟩
      else none
    | .again => some ⟨true, c, []⟩
    | .eof => if stale then some ⟨true, c, []⟩ else some ⟨false, {}, []⟩
    | .failed => some ⟨false, {}, []⟩

/-- `connection::readpdu`. A size below 4 would make the second `read` overrun the buffer. -/
def CharBuf.readpdu (c : CharBuf) (size body : ReadRes) (stale : Bool) : Option Moved :=
  if c.sz = 0 then
    match size with
    | .eof | .failed => some ⟨false, c, []⟩
    | .again => none
    | .got bs =>
      if bs = [] ∨ 4 < bs.length then none
      else if bs.length ≠ 4 then some ⟨false, c, bs⟩
      else if ntohl bs > maxPdu then some ⟨false, c, bs⟩
      else if c.buf ≠ none ∨ ntohl bs < 4 then none
      else (CharBuf.readBody ⟨some bs, ntohl bs, 4⟩ body stale).map fun m => {m with bytes := bs ++ m.bytes}
  else c.readBody body stale

/-- Where a thread is: outside, in `send` before it has the channel, in `send` with the
channel waiting for the rest to be written; with `dead_` set by itself about to call
`block_remove_fd`, and in that call, both in `send` or in `closeconn`. -/
inductive Place where
  | idle
  | waiting (p : Pdu)
  | completing
  | dying (inSend : Bool)
  | removing (inSend : Bool)

/-- A connection with threads `T`. -/
structure Conn (T : Type) where
  dead : Bool := false
  wpdu : CharBuf := {}
  rpdu : CharBuf := {}
  places : T → Place := fun _ => .idle
  obtained : List Pdu := []
  written : List Byte := []
  taken : List Byte := []
  accepted : List (List Byte) := []

inductive PollCall where
  | addWrite
  | delWrite
  | delAll
  | blockRemove
  deriving DecidableEq

/-- A step of a thread: `send` is called; it looks whether the channel is free, and then
writes; it looks whether its PDU is out; `block_remove_fd` is called, and has returned;
`closeconn` is called. Or a callback, with what the socket and `got_pdu` answer. -/
inductive ConnAct (T : Type) where
  | send (t : T) (p : Pdu)
  | channel (t : T) (r : WriteRes)
  | complete (t : T)
  | remove (t : T)
  | removed (t : T)
  | closeconn (t : T)
  | writeCb (r : WriteRes)
  | readCb (size body : ReadRes) (stale accept : Bool)

namespace Conn
variable {T : Type} [DecidableEq T]

def put (c : Conn T) (t : T) (p : Place) : Conn T := {c with places := Function.update c.places t p}

/-- The thread has the channel and makes its first write. -/
def first (c : Conn T) (t : T) (p : Pdu) (r : WriteRes) : Option (Conn T × Option PollCall) :=
  (CharBuf.writepdu ⟨some p.bytes, p.bytes.length, 0⟩ r).map fun m =>
    let c := {c with obtained := c.obtained ++ [p], written := c.written ++ m.bytes}
    if m.succ = false then ({c with dead := true, wpdu := m.pdu}.put t (.dying true), none)
    else if m.pdu.solong = m.pdu.sz then ({c with wpdu := {}}.put t .idle, none)
    else ({c with wpdu := m.pdu}.put t .completing, some .addWrite)

/-- `connection::write_cb`. -/
def writeCb (c : Conn T) (r : WriteRes) : Option (Conn T × Option PollCall) :=
  if c.dead then none
  else if c.wpdu.sz = 0 then some (c, some .delWrite)
  else (c.wpdu.writepdu r).map fun m =>
    if m.succ then ({c with wpdu := m.pdu, written := c.written ++ m.bytes}, none)
    else ({c with wpdu := m.pdu, written := c.written ++ m.bytes, dead := true}, some .delAll)

/-- The end of `read_cb`: a whole PDU is offered to `got_pdu`. -/
def offer (c : Conn T) (accept : Bool) : Conn T :=
  match c.rpdu.buf with
  | some b =>
    if c.rpdu.sz = c.rpdu.solong ∧ accept then {c with rpdu := {}, accepted := c.accepted ++ [b]} else c
  | none => c

/-- `connection::read_cb`. -/
def readCb (c : Conn T) (size body : ReadRes) (stale accept : Bool) : Option (Conn T × Option PollCall) :=
  if c.dead then some (c, none)
  else if c.rpdu.buf = none ∨ c.rpdu.solong < c.rpdu.sz then
    (c.rpdu.readpdu size body stale).map fun m =>
      if m.succ then ({c with rpdu := m.pdu, taken := c.taken ++ m.bytes}.offer accept, none)
      else ({c with rpdu := m.pdu, taken := c.taken ++ m.bytes, dead := true}.offer accept, some .delAll)
  else some (c.offer accept, none)

def step (c : Conn T) : ConnAct T → Option (Conn T × Option PollCall)
  | .send t p =>
    match c.places t with
    | .idle => some (c.put t (.waiting p), none)
    | _ => none
  | .channel t r =>
    match c.places t with
    | .waiting p =>
      if c.dead then some (c.put t .idle, none)
      else if c.wpdu.buf = none then c.first t p r
      else none
    | _ => none
  | .complete t =>
    match c.places t with
    | .completing =>
      if c.dead ∨ c.wpdu.solong < 0 ∨ c.wpdu.sz ≤ c.wpdu.solong then
        some ({c with wpdu := {}}.put t .idle, none)
      else none
    | _ => none
  | .remove t =>
    match c.places t with
    | .dying inSend => some (c.put t (.removing inSend), some .blockRemove)
    | _ => none
  | .removed t =>
    match c.places t with
    | .removing true => some ({c with wpdu := {}}.put t .idle, none)
    | .removing false => some (c.put t .idle, none)
    | _ => none
  | .closeconn t =>
    match c.places t with
    | .idle => some (if c.dead then c else {c with dead := true}.put t (.dying false), none)
    | _ => none
  | .writeCb r => c.writeCb r
  | .readCb size body stale accept => c.readCb size body stale accept

end Conn

/-! ### Frames -/

/-- What goes over the wire for a PDU: its size in place of the first four bytes. -/
def frame (p : Pdu) : List Byte := htonl p.bytes.length ++ p.bytes.drop 4

/-- A buffer that begins with its own size. -/
def Framed (b : List Byte) : Prop := 4 ≤ b.length ∧ ntohl (b.take 4) = b.length

@[simp] theorem length_htonl (sz : Int) : (htonl sz).length = 4 := rfl

theorem ntohl_htonl {n : Nat} (h : n < 2 ^ 31) : ntohl (htonl n) = n := by
  have hword : ntohl (htonl n) = (BitVec.ofInt 32 n).toInt := by
    unfold htonl wordBytes ntohl
    dsimp only
    rw [word_of_bytes]
  rw [hword, BitVec.toInt_ofInt]
  exact Int.bmod_eq_of_le (by omega) (by omega)

@[simp] theorem length_frame (p : Pdu) : (frame p).length = p.bytes.length := by
  have h : 24 ≤ p.bytes.length := p.header
  rw [frame, List.length_append, length_htonl, List.length_drop]
  omega

theorem take_frame (p : Pdu) : (frame p).take 4 = htonl p.bytes.length := List.take_left' rfl

theorem drop_frame (p : Pdu) : (frame p).drop 4 = p.bytes.drop 4 := List.drop_left' rfl

theorem framed_frame (p : Pdu) : Framed (frame p) := by
  have hheader : 24 ≤ p.bytes.length := p.header
  have hsize : p.bytes.length ≤ 10 * 2 ^ 20 := p.size
  rw [Framed, take_frame, length_frame]
  exact ⟨by omega, ntohl_htonl (by omega)⟩

/-- A size is all that is needed to find the end. -/
theorem framed_prefixFree : PrefixFree Framed where
  eq_of_prefix := by
    intro p q hp hq hpq
    have htake : p.take 4 = q.take 4 := by
      obtain ⟨r, rfl⟩ := hpq
      rw [List.take_append_of_le_length hp.1]
    have hlen : (p.length : Int) = q.length := by
      rw [← hp.2, ← hq.2, htake]
    exact hpq.eq_of_length (Int.ofNat.inj hlen)
  ne_nil := by
    intro p hp hnil
    rw [hnil] at hp
    exact absurd hp.1 (by decide)

/-! ### Sending -/

/-- `wpdu_` holds a PDU: the first four bytes are its size once something was written. -/
structure Holds (p : Pdu) (w : CharBuf) (b : List Byte) : Prop where
  buf : w.buf = some b
  sz : w.sz = p.bytes.length
  low : 0 ≤ w.solong
  high : w.solong ≤ w.sz
  body : b.drop 4 = p.bytes.drop 4
  head : w.solong ≠ 0 → b = frame p

/-- One call of `writepdu` writes the next bytes of the frame, or fails having written
nothing. -/
theorem Holds.writepdu {p : Pdu} {w : CharBuf} {b : List Byte} (h : Holds p w b) {r : WriteRes} {m : Moved}
    (hm : w.writepdu r = some m) :
    (m.succ = true ∧ Holds p m.pdu (frame p) ∧
        (frame p).take w.solong.toNat ++ m.bytes = (frame p).take m.pdu.solong.toNat) ∨
      m.succ = false ∧ m.bytes = [] := by
  have hheader : 24 ≤ p.bytes.length := p.header
  have hlow := h.low
  have hhigh := h.high
  have hsz := h.sz
  unfold CharBuf.writepdu at hm
  rw [if_neg (by omega)] at hm
  split at hm
  · -- everything is out already
    rename_i heq
    cases hm
    have hb : b = frame p := h.head (by omega)
    exact .inl ⟨rfl, hb ▸ h, List.append_nil _⟩
  · have hput : (if w.solong = 0 then htonl w.sz ++ b.drop 4 else b) = frame p := by
      split
      · rw [h.body, hsz]
        rfl
      · rename_i hne
        exact h.head hne
    rw [h.buf, Option.bind_some] at hm
    dsimp only at hm
    rw [hput] at hm
    cases r with
    | wrote n =>
      obtain ⟨hn, hm⟩ := Option.ite_none_right_eq_some.mp hm
      cases hm
      refine .inl ⟨rfl, ⟨rfl, hsz, ?_, ?_, drop_frame p, fun _ => rfl⟩, ?_⟩
      · exact Int.add_nonneg hlow (Int.natCast_nonneg n)
      · change w.solong + n ≤ w.sz
        omega
      · change (frame p).take w.solong.toNat ++ ((frame p).drop w.solong.toNat).take n =
          (frame p).take (w.solong + n).toNat
        rw [← List.take_add, Int.toNat_add hlow (Int.natCast_nonneg n), Int.toNat_natCast]
    | again =>
      cases hm
      exact .inl ⟨rfl, ⟨rfl, hsz, hlow, hhigh, drop_frame p, fun _ => rfl⟩, List.append_nil _⟩
    | failed =>
      cases hm
      exact .inr ⟨rfl, rfl⟩

section Conn
variable {T : Type} {c c' : Conn T} {out : Conn T × Option PollCall}

def Conn.stream (c : Conn T) : List Byte := (c.obtained.map frame).flatten

/-- What was written begins the stream of the obtained PDUs. While the connection is alive
it ends with the last of them, or where `wpdu_` is. -/
structure Sending (c : Conn T) : Prop where
  written : c.written <+: c.stream
  free : c.dead = false → c.wpdu.buf = none → c.wpdu.sz = 0 ∧ c.written = c.stream
  busy : c.dead = false → ∀ b, c.wpdu.buf = some b → ∃ done p, c.obtained = done ++ [p] ∧ Holds p c.wpdu b ∧
    c.written = (done.map frame).flatten ++ (frame p).take c.wpdu.solong.toNat

theorem sending_init : Sending ({} : Conn T) where
  written := List.prefix_refl _
  free _ _ := ⟨rfl, rfl⟩
  busy _ := nofun

theorem sending_dead (hdead : c.dead = true) (h : c.written <+: c.stream) : Sending c where
  written := h
  free ha := by
    rw [hdead] at ha
    cases ha
  busy ha := by
    rw [hdead] at ha
    cases ha

theorem alive_before (hdead : c.dead = true → c'.dead = true) (halive : c'.dead = false) :
    c.dead = false := by
  refine Bool.eq_false_iff.mpr fun hd => ?_
  rw [hdead hd] at halive
  cases halive

/-- Steps of the other direction, and of threads that do not write. -/
theorem Sending.congr (h : Sending c) (hw : c'.wpdu = c.wpdu) (hwritten : c'.written = c.written)
    (hobtained : c'.obtained = c.obtained) (hdead : c.dead = true → c'.dead = true) : Sending c' where
  written := by
    rw [Conn.stream, hwritten, hobtained]
    exact h.written
  free ha hb := by
    rw [hw] at hb ⊢
    rw [Conn.stream, hwritten, hobtained]
    exact h.free (alive_before hdead ha) hb
  busy ha b hb := by
    rw [hw] at hb ⊢
    rw [hwritten, hobtained]
    exact h.busy (alive_before hdead ha) b hb

theorem flatten_snoc (done : List Pdu) (p : Pdu) :
    ((done ++ [p]).map frame).flatten = (done.map frame).flatten ++ frame p := by
  simp

theorem sending_busy {done : List Pdu} {p : Pdu} (hobtained : c.obtained = done ++ [p])
    (hholds : Holds p c.wpdu (frame p))
    (hwritten : c.written = (done.map frame).flatten ++ (frame p).take c.wpdu.solong.toNat) : Sending c where
  written := by
    rw [Conn.stream, hobtained, flatten_snoc, hwritten, List.prefix_append_right_inj]
    exact List.take_prefix _ _
  free _ hb := by
    rw [hholds.buf] at hb
    cases hb
  busy _ b hb := by
    have he : frame p = b := Option.some.inj (hholds.buf.symm.trans hb)
    exact ⟨done, p, hobtained, he ▸ hholds, hwritten⟩

theorem sending_free (hw : c.wpdu = {}) (hwritten : c.written = c.stream) : Sending c where
  written := hwritten ▸ List.prefix_refl _
  free _ _ := ⟨by rw [hw], hwritten⟩
  busy _ b hb := by
    rw [hw] at hb
    cases hb

theorem Holds.take_all {p : Pdu} {w : CharBuf} {b : List Byte} (h : Holds p w b) (hout : w.sz ≤ w.solong) :
    (frame p).take w.solong.toNat = frame p := by
  apply List.take_of_length_le
  have := h.sz
  rw [length_frame]
  omega

theorem Sending.writeCb (h : Sending c) {r : WriteRes}
    (hs : c.writeCb r = some out) : Sending out.1 := by
  obtain ⟨halive, hs⟩ := Option.ite_none_left_eq_some.mp hs
  have halive : c.dead = false := Bool.eq_false_iff.mpr halive
  split at hs
  · cases hs
    exact h
  · rename_i hsz
    obtain ⟨m, hm, rfl⟩ := Option.map_eq_some_iff.mp hs
    cases hb : c.wpdu.buf with
    | none => exact absurd (h.free halive hb).1 hsz
    | some b =>
      obtain ⟨done, p, hobtained, hholds, hwritten⟩ := h.busy halive b hb
      rcases hholds.writepdu hm with ⟨hsucc, hholds', htake⟩ | ⟨hfail, hnone⟩
      · rw [if_pos hsucc]
        refine sending_busy hobtained hholds' ?_
        change c.written ++ m.bytes = _
        rw [hwritten, List.append_assoc, htake]
      · rw [if_neg (by rw [hfail]; decide)]
        refine sending_dead rfl ?_
        change c.written ++ m.bytes <+: c.stream
        rw [hnone, List.append_nil]
        exact h.written

/-- `wpdu_` is cleared when its PDU is out or the connection is dead. -/
theorem Sending.clear (h : Sending c)
    (hout : c.dead = true ∨ c.wpdu.solong < 0 ∨ c.wpdu.sz ≤ c.wpdu.solong) (hw : c'.wpdu = {})
    (hwritten : c'.written = c.written) (hobtained : c'.obtained = c.obtained) (hdead : c'.dead = c.dead) :
    Sending c' := by
  have hstream : c'.stream = c.stream := by
    rw [Conn.stream, hobtained]
    rfl
  cases ha : c.dead with
  | true =>
    refine sending_dead (hdead.trans ha) ?_
    rw [hwritten, hstream]
    exact h.written
  | false =>
    refine sending_free hw ?_
    rw [hwritten, hstream]
    cases hb : c.wpdu.buf with
    | none => exact (h.free ha hb).2
    | some b =>
      obtain ⟨done, p, hpdu, hholds, hwr⟩ := h.busy ha b hb
      have hall : c.wpdu.sz ≤ c.wpdu.solong := by
        rcases hout with hd | hneg | hall
        · rw [ha] at hd
          cases hd
        · exact absurd hholds.low (by omega)
        · exact hall
      rw [hwr, hholds.take_all hall, Conn.stream, hpdu, flatten_snoc]

/-! ### Receiving -/

/-- A buffer that was filled as far as `solong` says, with its size in front. -/
structure Filling (r : CharBuf) (b : List Byte) : Prop where
  buf : r.buf = some b
  head : 4 ≤ b.length
  sz : r.sz = ntohl (b.take 4)
  solong : r.solong = b.length
  high : r.solong ≤ r.sz

/-- What was taken from the socket is the accepted PDUs and then `rpdu_`. Behind a failure
there may be bytes that are in neither. -/
structure Receiving (c : Conn T) : Prop where
  framed : ∀ b ∈ c.accepted, Framed b
  taken : c.accepted.flatten <+: c.taken
  empty : c.rpdu.buf = none → c.rpdu.sz = 0 ∧ (c.dead = false → c.taken = c.accepted.flatten)
  filling : ∀ b, c.rpdu.buf = some b → Filling c.rpdu b ∧ c.taken = c.accepted.flatten ++ b

theorem receiving_init : Receiving ({} : Conn T) where
  framed := nofun
  taken := List.prefix_refl _
  empty _ := ⟨rfl, fun _ => rfl⟩
  filling := nofun

/-- What a call of `readpdu` comes to, said once: a failure leaves no buffer, and a success
one that is filled further. -/
theorem Filling.readBody {r : CharBuf} {b : List Byte} (h : Filling r b) {body : ReadRes} {stale : Bool}
    {m : Moved} (hm : r.readBody body stale = some m) :
    (m.succ = true ∧ Filling m.pdu (b ++ m.bytes)) ∨ m.succ = false ∧ m.pdu = {} := by
  unfold CharBuf.readBody at hm
  rw [h.buf, Option.bind_some] at hm
  have hnone : b ++ [] = b := List.append_nil b
  cases body with
  | got bs =>
    obtain ⟨hbs, hm⟩ := Option.ite_none_right_eq_some.mp hm
    cases hm
    have hsolong := h.solong
    refine .inl ⟨rfl, rfl, ?_, ?_, ?_, ?_⟩
    · exact Nat.le_trans h.head (by simp)
    · change r.sz = ntohl ((b ++ bs).take 4)
      rw [List.take_append_of_le_length h.head]
      exact h.sz
    · change r.solong + bs.length = ((b ++ bs).length : Int)
      rw [List.length_append]
      omega
    · change r.solong + bs.length ≤ r.sz
      omega
  | again =>
    cases hm
    exact .inl ⟨rfl, hnone.symm ▸ h⟩
  | eof =>
    dsimp only at hm
    split at hm
    · cases hm
      exact .inl ⟨rfl, hnone.symm ▸ h⟩
    · cases hm
      exact .inr ⟨rfl, rfl⟩
  | failed =>
    cases hm
    exact .inr ⟨rfl, rfl⟩

/-- One call of `readpdu` fills the buffer with what it reads, or leaves none. -/
theorem readpdu_spec {r : CharBuf} (hempty : r.buf = none → r.sz = 0) (hfilling : ∀ b, r.buf = some b → Filling r b)
    {size body : ReadRes} {stale : Bool} {m : Moved} (hm : r.readpdu size body stale = some m) :
    (m.succ = true ∧ Filling m.pdu (r.buf.getD [] ++ m.bytes)) ∨
      m.succ = false ∧ m.pdu.buf = none ∧ m.pdu.sz = 0 := by
  unfold CharBuf.readpdu at hm
  cases hb : r.buf with
  | none =>
    have hfail : r.buf = none ∧ r.sz = 0 := ⟨hb, hempty hb⟩
    rw [if_pos (hempty hb)] at hm
    cases size with
    | got bs =>
      obtain ⟨-, hm⟩ := Option.ite_none_left_eq_some.mp hm
      split at hm
      · cases hm
        exact .inr ⟨rfl, hfail⟩
      · rename_i hlen
        split at hm
        · cases hm
          exact .inr ⟨rfl, hfail⟩
        · obtain ⟨hsize, hm⟩ := Option.ite_none_left_eq_some.mp hm
          obtain ⟨m', hbody, rfl⟩ := Option.map_eq_some_iff.mp hm
          have hlen : bs.length = 4 := not_not.mp hlen
          have hstart : Filling ⟨some bs, ntohl bs, 4⟩ bs := by
            refine ⟨rfl, Nat.le_of_eq hlen.symm, ?_, ?_, ?_⟩
            · rw [List.take_of_length_le (Nat.le_of_eq hlen)]
            · rw [hlen]
              rfl
            · exact Int.not_lt.mp fun hlt => hsize (.inr hlt)
          rcases hstart.readBody hbody with ⟨hsucc, hfill⟩ | ⟨hsucc, hpdu⟩
          · exact .inl ⟨hsucc, hfill⟩
          · exact .inr ⟨hsucc, by rw [hpdu], by rw [hpdu]⟩
    | eof =>
      cases hm
      exact .inr ⟨rfl, hfail⟩
    | again => cases hm
    | failed =>
      cases hm
      exact .inr ⟨rfl, hfail⟩
  | some b =>
    have hfill := hfilling b hb
    have hsz : r.sz ≠ 0 := by
      have hhead := hfill.head
      have hsolong := hfill.solong
      have hhigh := hfill.high
      omega
    rw [if_neg hsz] at hm
    rcases hfill.readBody hm with hsucc | ⟨hfail, hpdu⟩
    · exact .inl hsucc
    · exact .inr ⟨hfail, by rw [hpdu], by rw [hpdu]⟩

theorem Receiving.offer (h : Receiving c) (accept : Bool) : Receiving (c.offer accept) := by
  unfold Conn.offer
  split
  · rename_i b hb
    split
    · rename_i hwhole
      obtain ⟨hfill, htaken⟩ := h.filling b hb
      have hflat : c.taken = (c.accepted ++ [b]).flatten := by
        rw [htaken, List.flatten_append, List.flatten_singleton]
      refine ⟨fun b' hb' => ?_, ?_, fun _ => ⟨rfl, fun _ => hflat⟩, nofun⟩
      · rcases List.mem_append.mp hb' with hold | hnew
        · exact h.framed b' hold
        · rw [List.mem_singleton.mp hnew]
          refine ⟨hfill.head, ?_⟩
          rw [← hfill.sz, hwhole.1, hfill.solong]
      · exact hflat ▸ List.prefix_refl _
    · exact h
  · exact h

theorem Receiving.readCb (h : Receiving c) {size body : ReadRes} {stale accept : Bool}
    (hs : c.readCb size body stale accept = some out) : Receiving out.1 := by
  unfold Conn.readCb at hs
  split at hs
  · cases hs
    exact h
  · rename_i halive
    have halive : c.dead = false := Bool.eq_false_iff.mpr halive
    split at hs
    · obtain ⟨m, hm, rfl⟩ := Option.map_eq_some_iff.mp hs
      -- all that was taken so far is in the accepted PDUs and in `rpdu_`
      have hbase : c.taken = c.accepted.flatten ++ c.rpdu.buf.getD [] := by
        cases hb : c.rpdu.buf with
        | none => rw [(h.empty hb).2 halive, Option.getD_none, List.append_nil]
        | some b => rw [(h.filling b hb).2, Option.getD_some]
      have hmore : c.accepted.flatten <+: c.taken ++ m.bytes := h.taken.trans (List.prefix_append _ _)
      rcases readpdu_spec (fun hb => (h.empty hb).1) (fun b hb => (h.filling b hb).1) hm with
        ⟨hsucc, hfill⟩ | ⟨hfail, hbuf, hsz⟩
      · rw [if_pos hsucc]
        have hnext : Receiving {c with rpdu := m.pdu, taken := c.taken ++ m.bytes} := by
          refine ⟨h.framed, hmore, fun hnone => ?_, fun b hb => ?_⟩
          · cases hfill.buf.symm.trans hnone
          · have he : c.rpdu.buf.getD [] ++ m.bytes = b := Option.some.inj (hfill.buf.symm.trans hb)
            refine ⟨he ▸ hfill, ?_⟩
            change c.taken ++ m.bytes = c.accepted.flatten ++ b
            rw [hbase, List.append_assoc, he]
        exact hnext.offer accept
      · rw [if_neg (by rw [hfail]; decide)]
        have hnext : Receiving {c with rpdu := m.pdu, taken := c.taken ++ m.bytes, dead := true} :=
          ⟨h.framed, hmore, fun _ => ⟨hsz, nofun⟩, fun b hb => by cases hbuf.symm.trans hb⟩
        exact hnext.offer accept
    · cases hs
      exact h.offer accept

theorem Receiving.congr (h : Receiving c) (hr : c'.rpdu = c.rpdu) (htaken : c'.taken = c.taken)
    (haccepted : c'.accepted = c.accepted) (hdead : c.dead = true → c'.dead = true) : Receiving c' where
  framed := by
    rw [haccepted]
    exact h.framed
  taken := by
    rw [haccepted, htaken]
    exact h.taken
  empty hb := by
    rw [hr] at hb ⊢
    rw [haccepted, htaken]
    exact ⟨(h.empty hb).1, fun ha => (h.empty hb).2 (alive_before hdead ha)⟩
  filling b hb := by
    rw [hr] at hb ⊢
    rw [haccepted, htaken]
    exact h.filling b hb

/-! ### What a step does -/

/-- What `read_cb` may change at its end. -/
theorem offer_frame (c : Conn T) (accept : Bool) :
    ∃ rpdu accepted, c.offer accept = {c with rpdu := rpdu, accepted := accepted} := by
  unfold Conn.offer
  split
  · split
    · exact ⟨_, _, rfl⟩
    · exact ⟨c.rpdu, c.accepted, rfl⟩
  · exact ⟨c.rpdu, c.accepted, rfl⟩

/-- `read_cb` does not write and moves no thread, and a dead connection stays dead. -/
theorem readCb_frame {size body : ReadRes} {stale accept : Bool}
    (hs : c.readCb size body stale accept = some out) :
    ∃ rpdu taken accepted dead, (c.dead = true → dead = true) ∧
      out.1 = {c with rpdu := rpdu, taken := taken, accepted := accepted, dead := dead} := by
  unfold Conn.readCb at hs
  split at hs
  · cases hs
    exact ⟨c.rpdu, c.taken, c.accepted, c.dead, id, rfl⟩
  · split at hs
    · obtain ⟨m, -, rfl⟩ := Option.map_eq_some_iff.mp hs
      split
      · obtain ⟨rpdu, accepted, he⟩ := offer_frame {c with rpdu := m.pdu, taken := c.taken ++ m.bytes} accept
        exact ⟨rpdu, _, accepted, c.dead, id, he⟩
      · obtain ⟨rpdu, accepted, he⟩ :=
          offer_frame {c with rpdu := m.pdu, taken := c.taken ++ m.bytes, dead := true} accept
        exact ⟨rpdu, _, accepted, true, fun _ => rfl, he⟩
    · cases hs
      obtain ⟨rpdu, accepted, he⟩ := offer_frame c accept
      exact ⟨rpdu, c.taken, accepted, c.dead, id, he⟩

/-- `write_cb` does not read and moves no thread, and a dead connection stays dead. -/
theorem writeCb_frame {r : WriteRes} (hs : c.writeCb r = some out) :
    ∃ wpdu written dead, (c.dead = true → dead = true) ∧
      out.1 = {c with wpdu := wpdu, written := written, dead := dead} := by
  obtain ⟨-, hs⟩ := Option.ite_none_left_eq_some.mp hs
  split at hs
  · cases hs
    exact ⟨c.wpdu, c.written, c.dead, id, rfl⟩
  · obtain ⟨m, -, rfl⟩ := Option.map_eq_some_iff.mp hs
    split
    · exact ⟨m.pdu, _, c.dead, id, rfl⟩
    · exact ⟨m.pdu, _, true, fun _ => rfl, rfl⟩

variable [DecidableEq T]

/-- A thread that has set `dead_` itself. -/
def Place.dies : Place → Bool
  | .dying _ | .removing _ => true
  | _ => false

/-- Threads remove the descriptor of dead connections only. -/
def DeadFirst (c : Conn T) : Prop := ∀ t, (c.places t).dies = true → c.dead = true

theorem DeadFirst.put (h : DeadFirst c) (c' : Conn T) (hplaces : c'.places = c.places)
    (hdead : c.dead = true → c'.dead = true) {t : T} {p : Place} (hp : p.dies = true → c'.dead = true) :
    DeadFirst (c'.put t p) := by
  intro u hu
  change (Function.update c'.places t p u).dies = true at hu
  change c'.dead = true
  by_cases hut : u = t
  · subst hut
    rw [Function.update_self] at hu
    exact hp hu
  · rw [Function.update_of_ne hut, hplaces] at hu
    exact hdead (h u hu)

/-- What a step does, said once: a thread moves on; nothing happens; `wpdu_` is cleared by a
thread whose connection is dead or whose PDU is out; the connection is closed; a thread
obtains the channel; a callback runs. -/
inductive Does (c : Conn T) : Conn T → Option PollCall → Prop where
  | put (t : T) (p : Place) (call : Option PollCall) (hp : p.dies = true → c.dead = true)
      (hcall : call = none ∨ call = some .blockRemove) : Does c (c.put t p) call
  | same : Does c c none
  | clear (t : T) (hout : (c.places t).dies = true ∨ c.dead = true ∨ c.wpdu.solong < 0 ∨
      c.wpdu.sz ≤ c.wpdu.solong) : Does c ({c with wpdu := {}}.put t .idle) none
  | close (t : T) (halive : c.dead = false) : Does c ({c with dead := true}.put t (.dying false)) none
  | first (t : T) (p : Pdu) (r : WriteRes) (out : Conn T × Option PollCall) (halive : c.dead = false)
      (hfree : c.wpdu.buf = none) (hfirst : c.first t p r = some out) : Does c out.1 out.2
  | write (r : WriteRes) (out : Conn T × Option PollCall) (hwrite : c.writeCb r = some out) : Does c out.1 out.2
  | read (size body : ReadRes) (stale accept : Bool) (out : Conn T × Option PollCall)
      (hread : c.readCb size body stale accept = some out) : Does c out.1 out.2

theorem step_does {a : ConnAct T} (h : DeadFirst c)
    (hs : c.step a = some out) : Does c out.1 out.2 := by
  cases a with
  | send t p =>
    simp only [Conn.step] at hs
    split at hs
    · cases hs
      exact .put t _ none nofun (.inl rfl)
    · cases hs
  | channel t r =>
    simp only [Conn.step] at hs
    split at hs
    · split at hs
      · cases hs
        exact .put t _ none nofun (.inl rfl)
      · rename_i halive
        obtain ⟨hfree, hs⟩ := Option.ite_none_right_eq_some.mp hs
        exact .first t _ r out (Bool.eq_false_iff.mpr halive) hfree hs
    · cases hs
  | complete t =>
    simp only [Conn.step] at hs
    split at hs
    · obtain ⟨hout, hs⟩ := Option.ite_none_right_eq_some.mp hs
      cases hs
      exact .clear t (.inr hout)
    · cases hs
  | remove t =>
    simp only [Conn.step] at hs
    split at hs
    · rename_i hplace
      cases hs
      exact .put t _ _ (fun _ => h t (by rw [hplace]; rfl)) (.inr rfl)
    · cases hs
  | removed t =>
    simp only [Conn.step] at hs
    split at hs
    · rename_i hplace
      cases hs
      exact .clear t (.inl (by rw [hplace]; rfl))
    · cases hs
      exact .put t _ none nofun (.inl rfl)
    · cases hs
  | closeconn t =>
    simp only [Conn.step] at hs
    split at hs
    · cases hs
      dsimp only
      split
      · exact .same
      · rename_i halive
        exact .close t (Bool.eq_false_iff.mpr halive)
    · cases hs
  | writeCb r => exact .write r out hs
  | readCb size body stale accept => exact .read size body stale accept out hs

theorem DeadFirst.does {call : Option PollCall} (h : DeadFirst c) (hs : Does c c' call) :
    DeadFirst c' := by
  cases hs with
  | put t p call hp => exact h.put c rfl id hp
  | same => exact h
  | clear t hout => exact h.put _ rfl id nofun
  | close t halive => exact h.put {c with dead := true} rfl (fun _ => rfl) fun _ => rfl
  | first t p r out halive hfree hfirst =>
    obtain ⟨m, -, rfl⟩ := Option.map_eq_some_iff.mp hfirst
    dsimp only
    split
    · exact h.put {c with obtained := _, written := _, dead := true, wpdu := _} rfl (fun _ => rfl) fun _ => rfl
    · split
      · exact h.put _ rfl id nofun
      · exact h.put _ rfl id nofun
  | write r out hwrite =>
    obtain ⟨_, _, _, hdead, he⟩ := writeCb_frame hwrite
    rw [he]
    exact fun t ht => hdead (h t ht)
  | read size body stale accept out hread =>
    obtain ⟨_, _, _, _, hdead, he⟩ := readCb_frame hread
    rw [he]
    exact fun t ht => hdead (h t ht)

theorem Sending.first (h : Sending c) (halive : c.dead = false) (hfree : c.wpdu.buf = none) {t : T}
    {p : Pdu} {r : WriteRes} (hs : c.first t p r = some out) : Sending out.1 := by
  obtain ⟨m, hm, rfl⟩ := Option.map_eq_some_iff.mp hs
  have hwritten : c.written = (c.obtained.map frame).flatten := (h.free halive hfree).2
  have hstart : Holds p ⟨some p.bytes, p.bytes.length, 0⟩ p.bytes :=
    ⟨rfl, rfl, Int.le_refl 0, Int.natCast_nonneg _, rfl, fun hne => absurd rfl hne⟩
  rcases hstart.writepdu hm with ⟨hsucc, hholds, htake⟩ | ⟨hfail, hnone⟩
  · have htake : m.bytes = (frame p).take m.pdu.solong.toNat := htake
    dsimp only
    rw [hsucc, if_neg (by decide)]
    split
    · rename_i hout
      have hall : m.bytes = frame p := htake.trans (hholds.take_all (Int.le_of_eq hout.symm))
      refine sending_free rfl ?_
      change c.written ++ m.bytes = ((c.obtained ++ [p]).map frame).flatten
      rw [flatten_snoc, hwritten, hall]
    · refine sending_busy rfl hholds ?_
      change c.written ++ m.bytes = _
      rw [hwritten, htake]
      rfl
  · dsimp only
    rw [hfail, if_pos rfl]
    refine sending_dead rfl ?_
    change c.written ++ m.bytes <+: ((c.obtained ++ [p]).map frame).flatten
    rw [flatten_snoc, hnone, List.append_nil, hwritten]
    exact List.prefix_append _ _

/-- **Every step keeps the sending side.** -/
theorem Sending.does {call : Option PollCall} (h : Sending c) (hfirst : DeadFirst c)
    (hs : Does c c' call) : Sending c' := by
  cases hs with
  | put t p call hp => exact h.congr rfl rfl rfl id
  | same => exact h
  | clear t hout =>
    refine h.clear ?_ rfl rfl rfl rfl
    rcases hout with hdies | hout
    · exact .inl (hfirst t hdies)
    · exact hout
  | close t halive => exact sending_dead rfl h.written
  | first t p r out halive hfree hwrite => exact h.first halive hfree hwrite
  | write r out hwrite => exact h.writeCb hwrite
  | read size body stale accept out hread =>
    obtain ⟨_, _, _, _, hdead, he⟩ := readCb_frame hread
    rw [he]
    exact h.congr rfl rfl rfl hdead

/-- **Every step keeps the receiving side.** -/
theorem Receiving.does {call : Option PollCall} (h : Receiving c) (hs : Does c c' call) :
    Receiving c' := by
  cases hs with
  | put t p call hp => exact h.congr rfl rfl rfl id
  | same => exact h
  | clear t hout => exact h.congr rfl rfl rfl id
  | close t halive => exact h.congr rfl rfl rfl fun _ => rfl
  | first t p r out halive hfree hfirst =>
    obtain ⟨m, -, rfl⟩ := Option.map_eq_some_iff.mp hfirst
    dsimp only
    split
    · exact h.congr rfl rfl rfl fun _ => rfl
    · split
      · exact h.congr rfl rfl rfl id
      · exact h.congr rfl rfl rfl id
  | write r out hwrite =>
    obtain ⟨_, _, _, hdead, he⟩ := writeCb_frame hwrite
    rw [he]
    exact h.congr rfl rfl rfl hdead
  | read size body stale accept out hread => exact h.readCb hread

end Conn

end Yfs.Rpc

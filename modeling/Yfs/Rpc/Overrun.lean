import Mathlib.Algebra.Group.Int.Defs
import Yfs.Rpc.Connection

/-! What `readpdu` asks of the socket.

`Yfs.Rpc.CharBuf.readpdu` has no result where a size word from the other side is below
four. Here the same function is followed into that case: the size word is an `int`, only
sizes above `MAX_PDU` are refused, and the buffer is `malloc`ed for it with four bytes more;
the count handed to the second `read` is `sz - solong`, which `read` takes as a `size_t`.
For sizes from -4 to 3 the buffer is there and the count is negative, so more than any
buffer has (`start_count`). On all other sizes the two models are one (`readpdu_eq`). -/
namespace Yfs.Rpc.Overrun
open Base

/-- An `int` as a `size_t`. -/
def asSizeT (x : Int) : Nat := (x % 2 ^ 64).toNat

/-- `malloc`: no block is larger than the largest `ptrdiff_t`. -/
def malloc (n : Nat) : Option Nat := if n < 2 ^ 63 then some n else none

/-- `rpdu_`, with the number of bytes allocated for its buffer in place of the buffer. -/
structure Rpdu where
  alloc : Option Nat := none
  sz : Int := 0
  solong : Int := 0
  deriving DecidableEq

/-- The count of the second `read` in `readpdu`, into the buffer at `solong`. -/
def Rpdu.count (r : Rpdu) : Nat := asSizeT (r.sz - r.solong)

/-- `readpdu` up to the second `read`: nothing where it returns false, else the buffer that
`read` is called on. No result is a failed `VERIFY`, or a `read` that there is not. -/
def Rpdu.start (r : Rpdu) (size : ReadRes) : Option (Option Rpdu) :=
  if r.sz = 0 then
    match size with
    | .eof | .failed => some none
    | .again => none
    | .got bs =>
      if bs = [] ∨ 4 < bs.length then none
      else if bs.length ≠ 4 then some none
      else if ntohl bs > maxPdu then some none
      else if r.alloc ≠ none then none
      else (malloc (asSizeT (ntohl bs + 4))).map fun n => some ⟨some n, ntohl bs, 4⟩
  else some (some r)

/-- `readpdu` from the second `read` on. What is read beyond the allocated bytes has no
result. -/
def Rpdu.fill (r : Rpdu) (body : ReadRes) (stale : Bool) : Option (Bool × Rpdu) :=
  r.alloc.bind fun n =>
    match body with
    | .got bs =>
      if bs = [] ∨ r.count < bs.length ∨ n < r.solong + bs.length then none
      else some (true, {r with solong := r.solong + bs.length})
    | .again => some (true, r)
    | .eof => if stale then some (true, r) else some (false, {})
    | .failed => some (false, {})

/-- `connection::readpdu`. -/
def Rpdu.readpdu (r : Rpdu) (size body : ReadRes) (stale : Bool) : Option (Bool × Rpdu) :=
  (r.start size).bind fun
    | none => some (false, r)
    | some r => r.fill body stale

/-- The receiving part of a connection. -/
structure Reader where
  dead : Bool := false
  rpdu : Rpdu := {}
  deriving DecidableEq

/-- A call of `read_cb`: what the two `read`s give, whether `errno` is EAGAIN at the end of
the stream, and whether `got_pdu` accepts a PDU. -/
structure Event where
  size : ReadRes
  body : ReadRes
  stale : Bool
  accept : Bool

/-- `read_cb` calls `readpdu`. -/
def Reader.reads (s : Reader) : Bool :=
  !s.dead && (s.rpdu.alloc == none || decide (s.rpdu.solong < s.rpdu.sz))

/-- The buffer, size and position with which `read_cb` comes to the second `read`. -/
def Reader.asks (s : Reader) (e : Event) : Option Rpdu :=
  if s.reads then (s.rpdu.start e.size).join else none

/-- The end of `read_cb`. -/
def Reader.offer (s : Reader) (accept : Bool) : Reader :=
  if s.rpdu.alloc ≠ none ∧ s.rpdu.sz = s.rpdu.solong ∧ accept then {s with rpdu := {}} else s

/-- `connection::read_cb`. -/
def Reader.step (s : Reader) (e : Event) : Option Reader :=
  if s.dead then some s
  else if s.reads then
    (s.rpdu.readpdu e.size e.body e.stale).map fun r => Reader.offer ⟨!r.1, r.2⟩ e.accept
  else some (s.offer e.accept)

/-! ### The property, and the words for which it holds -/

/-- The second `read` asks for no more than the buffer has left, and what is pending
afterwards is filled up to its size at most. -/
def Safe (s : Reader) (e : Event) : Prop :=
  (∀ r n, s.asks e = some r → r.alloc = some n → (r.count : Int) ≤ n - r.solong) ∧
    ∀ s', s.step e = some s' → s'.rpdu.alloc ≠ none →
      0 ≤ s'.rpdu.solong ∧ s'.rpdu.solong ≤ s'.rpdu.sz

/-- The size word that is read, if one is, is not from -4 to 3. -/
def Honest (s : Reader) (e : Event) : Prop :=
  s.dead = false → s.rpdu.alloc = none →
    ∀ bs, e.size = .got bs → bs.length = 4 → ntohl bs < -4 ∨ 4 ≤ ntohl bs

def AllSafe : List Event → Reader → Prop
  | [], _ => True
  | e :: es, s => Safe s e ∧ ∀ s', s.step e = some s' → AllSafe es s'

def AllHonest : List Event → Reader → Prop
  | [], _ => True
  | e :: es, s => Honest s e ∧ ∀ s', s.step e = some s' → AllHonest es s'

/-- No buffer and nothing of one; or a buffer of the size and four bytes, filled behind the
size word and up to the size. -/
structure Rpdu.Inv (r : Rpdu) : Prop where
  empty : r.alloc = none → r.sz = 0 ∧ r.solong = 0
  filled : ∀ n, r.alloc = some n → (n : Int) = r.sz + 4 ∧ 4 ≤ r.solong ∧ r.solong ≤ r.sz ∧ r.sz ≤ maxPdu

theorem inv_empty : Rpdu.Inv {} := ⟨fun _ => ⟨rfl, rfl⟩, fun _ h => absurd h (by simp)⟩

theorem asSizeT_of_nonneg {x : Int} (h0 : 0 ≤ x) (h : x < 2 ^ 64) : (asSizeT x : Int) = x := by
  unfold asSizeT
  omega

theorem asSizeT_of_neg {x : Int} (h0 : x < 0) (h : -2 ^ 64 ≤ x) : (asSizeT x : Int) = 2 ^ 64 + x := by
  unfold asSizeT
  omega

/-- An `int` from four bytes. -/
theorem ntohl_ge (bs : List Byte) : -2 ^ 31 ≤ ntohl bs := by
  unfold ntohl
  split
  · exact BitVec.le_toInt _
  · decide

/-- There is a block for a size word from -4 on. -/
theorem malloc_eq {x : Int} (h0 : -2 ^ 31 ≤ x) (h : x ≤ maxPdu) :
    malloc (asSizeT (x + 4)) = if -4 ≤ x then some (x + 4).toNat else none := by
  have hmax : (maxPdu : Int) = 10485760 := rfl
  unfold malloc asSizeT
  by_cases hx : -4 ≤ x
  · rw [if_pos hx, if_pos (by omega)]
    congr 1
    omega
  · rw [if_neg hx, if_neg (by omega)]

/-- A size word that is taken: the buffer, and where the second `read` begins. -/
theorem Rpdu.start_got {r : Rpdu} {bs : List Byte} (hr : r.Inv) (hnone : r.alloc = none)
    (hlen : bs.length = 4) (h0 : -4 ≤ ntohl bs) (h : ntohl bs ≤ maxPdu) :
    r.start (.got bs) = some (some ⟨some (ntohl bs + 4).toNat, ntohl bs, 4⟩) := by
  have hbs : ¬ (bs = [] ∨ 4 < bs.length) := by
    rintro (rfl | hlt)
    · exact absurd hlen (by decide)
    · omega
  unfold start
  rw [if_pos (hr.empty hnone).1]
  dsimp only
  rw [if_neg hbs, if_neg (not_not_intro hlen), if_neg (Int.not_lt.mpr h : ¬ ntohl bs > maxPdu),
    if_neg (not_not_intro hnone), malloc_eq (ntohl_ge bs) h, if_pos h0]
  rfl

/-- What the second `read` may be called on: the buffer that was there, or one for the size
word that was read. -/
theorem Rpdu.start_cases {r r' : Rpdu} {size : ReadRes} (hr : r.Inv) (h : r.start size = some (some r')) :
    (r' = r ∧ r.alloc ≠ none) ∨
      ∃ bs, r.alloc = none ∧ size = .got bs ∧ bs.length = 4 ∧ ntohl bs ≤ maxPdu ∧ -4 ≤ ntohl bs ∧
        r' = ⟨some (ntohl bs + 4).toNat, ntohl bs, 4⟩ := by
  unfold start at h
  split at h
  · cases size with
    | got bs =>
      simp only at h
      split_ifs at h with _ hlen hmax hnone
      · exact absurd h (by simp)
      · exact absurd h (by simp)
      · right
        have hmax : ntohl bs ≤ maxPdu := Int.not_lt.mp hmax
        rw [malloc_eq (ntohl_ge bs) hmax] at h
        split at h
        · rename_i h0
          exact ⟨bs, not_not.mp hnone, rfl, not_not.mp hlen, hmax, h0,
            (Option.some.inj (Option.some.inj h)).symm⟩
        · exact absurd h (by simp)
    | eof => exact absurd h (by simp)
    | again => exact absurd h (by simp)
    | failed => exact absurd h (by simp)
  · rename_i hz
    exact .inl ⟨(Option.some.inj (Option.some.inj h)).symm, fun hnone => hz (hr.empty hnone).1⟩

theorem Rpdu.Inv.count {r : Rpdu} {n : Nat} (hr : r.Inv) (h : r.alloc = some n) :
    (r.count : Int) = r.sz - r.solong := by
  obtain ⟨-, hlo, hhi, hmax⟩ := hr.filled n h
  have hmax' : (maxPdu : Int) = 10485760 := rfl
  exact asSizeT_of_nonneg (by omega) (by omega)

theorem inv_fresh {x : Int} (h0 : 4 ≤ x) (h : x ≤ maxPdu) : Rpdu.Inv ⟨some (x + 4).toNat, x, 4⟩ where
  empty := fun hnone => absurd hnone (by simp)
  filled := by
    intro n hn
    obtain rfl := Option.some.inj hn
    exact ⟨by simp only; omega, Int.le_refl 4, h0, h⟩

theorem Rpdu.Inv.fill {r r' : Rpdu} {body : ReadRes} {stale b : Bool} (hr : r.Inv)
    (h : r.fill body stale = some (b, r')) : r'.Inv := by
  obtain ⟨n, hn, h⟩ := Option.bind_eq_some_iff.mp h
  cases body with
  | got bs =>
    simp only at h
    split at h
    · exact absurd h (by simp)
    · rename_i hfits
      obtain ⟨-, rfl⟩ := Prod.mk.inj (Option.some.inj h)
      have hcount := hr.count hn
      refine ⟨fun hnone => absurd hn (by simp [show r.alloc = none from hnone]), fun k hk => ?_⟩
      obtain ⟨hk, hlo, hhi, hmax⟩ := hr.filled k hk
      exact ⟨hk, by simp only; omega, by simp only; omega, hmax⟩
  | again =>
    obtain ⟨-, rfl⟩ := Prod.mk.inj (Option.some.inj h)
    exact hr
  | eof =>
    simp only at h
    split at h <;> obtain ⟨-, rfl⟩ := Prod.mk.inj (Option.some.inj h)
    · exact hr
    · exact inv_empty
  | failed =>
    obtain ⟨-, rfl⟩ := Prod.mk.inj (Option.some.inj h)
    exact inv_empty

theorem Reader.offer_inv {s : Reader} (hs : s.rpdu.Inv) (accept : Bool) : (s.offer accept).rpdu.Inv := by
  unfold offer
  split
  · exact inv_empty
  · exact hs

section
variable {s s' : Reader} {e : Event}

theorem Reader.reads_of_empty (hdead : s.dead = false) (hnone : s.rpdu.alloc = none) : s.reads = true := by
  simp [reads, hdead, hnone]

theorem Reader.not_dead_of_reads (h : s.reads = true) : s.dead = false := by
  cases hd : s.dead with
  | false => rfl
  | true => simp [reads, hd] at h

/-- Where the second `read` is called, after an honest size word, the buffer is right. -/
theorem Honest.start {r : Rpdu} (h : Honest s e) (hs : s.rpdu.Inv) (hdead : s.dead = false)
    (hstart : s.rpdu.start e.size = some (some r)) : r.Inv := by
  rcases Rpdu.start_cases hs hstart with ⟨rfl, -⟩ | ⟨bs, hnone, hsize, hlen, hmax, h0, rfl⟩
  · exact hs
  · rcases h hdead hnone bs hsize hlen with hlow | hhigh
    · omega
    · exact inv_fresh hhigh hmax

theorem Honest.step (h : Honest s e) (hs : s.rpdu.Inv) (hstep : s.step e = some s') : s'.rpdu.Inv := by
  unfold Reader.step at hstep
  split at hstep
  · obtain rfl := Option.some.inj hstep
    exact hs
  · rename_i hdead
    have hdead : s.dead = false := by simpa using hdead
    split at hstep
    · obtain ⟨⟨b, r⟩, hread, rfl⟩ := Option.map_eq_some_iff.mp hstep
      apply Reader.offer_inv
      obtain ⟨o, hstart, hfill⟩ := Option.bind_eq_some_iff.mp hread
      cases o with
      | none =>
        obtain ⟨-, rfl⟩ := Prod.mk.inj (Option.some.inj hfill)
        exact hs
      | some r₁ => exact (h.start hs hdead hstart).fill hfill
    · obtain rfl := Option.some.inj hstep
      exact Reader.offer_inv hs e.accept

/-- A size word from -4 to 3 makes the second `read` ask for almost 2^64 bytes. -/
theorem start_count {x : Int} (h0 : -4 ≤ x) (h : x ≤ 3) :
    ((Rpdu.count ⟨some (x + 4).toNat, x, 4⟩ : Nat) : Int) = 2 ^ 64 + (x - 4) :=
  asSizeT_of_neg (show x - 4 < 0 by omega) (show -2 ^ 64 ≤ x - 4 by omega)

theorem safe_iff (hs : s.rpdu.Inv) : Safe s e ↔ Honest s e := by
  constructor
  · intro hsafe hdead hnone bs hsize hlen
    by_contra hbad
    have h0 : -4 ≤ ntohl bs := by omega
    have h3 : ntohl bs ≤ 3 := by omega
    have hmax : (maxPdu : Int) = 10485760 := rfl
    have hstart := Rpdu.start_got hs hnone hlen h0 (by omega)
    have hasks : s.asks e = some ⟨some (ntohl bs + 4).toNat, ntohl bs, 4⟩ := by
      rw [Reader.asks, if_pos (Reader.reads_of_empty hdead hnone), hsize, hstart]
      rfl
    have hle := hsafe.1 _ _ hasks rfl
    rw [start_count h0 h3] at hle
    simp only at hle
    omega
  · intro h
    refine ⟨fun r n hasks hn => ?_, fun s' hstep hpending => ?_⟩
    · unfold Reader.asks at hasks
      split at hasks
      · rename_i hreads
        have hstart : s.rpdu.start e.size = some (some r) := by
          cases hst : s.rpdu.start e.size with
          | none => simp [hst] at hasks
          | some o => simpa [hst] using hasks
        have hr := h.start hs (Reader.not_dead_of_reads hreads) hstart
        rw [hr.count hn, (hr.filled n hn).1]
        omega
      · exact absurd hasks (by simp)
    · have hr := h.step hs hstep
      cases hn : s'.rpdu.alloc with
      | none => exact absurd hn hpending
      | some n =>
        obtain ⟨-, hlo, hhi, -⟩ := hr.filled n hn
        exact ⟨by omega, hhi⟩

theorem allSafe_iff {es : List Event} (hs : s.rpdu.Inv) : AllSafe es s ↔ AllHonest es s := by
  induction es generalizing s with
  | nil => exact Iff.rfl
  | cons e es ih =>
    simp only [AllSafe, AllHonest, safe_iff hs]
    exact and_congr_right fun h => forall₂_congr fun s' hstep => ih (h.step hs hstep)

end

/-! ### On the words that are not refused here -/

/-- The buffer of the model of the connection, which has room for four bytes more than its
size. -/
def ofCharBuf (c : CharBuf) : Rpdu := ⟨c.buf.map fun _ => (c.sz + 4).toNat, c.sz, c.solong⟩

def ofConn {T : Type} (c : Conn T) : Reader := ⟨c.dead, ofCharBuf c.rpdu⟩

section
variable {c : CharBuf} {size body : ReadRes} {stale : Bool}

theorem fill_eq (hc : (ofCharBuf c).Inv) :
    (ofCharBuf c).fill body stale = (c.readBody body stale).map fun m => (m.succ, ofCharBuf m.pdu) := by
  cases hb : c.buf with
  | none => simp [Rpdu.fill, CharBuf.readBody, ofCharBuf, hb]
  | some b =>
    have halloc : (ofCharBuf c).alloc = some (c.sz + 4).toNat := by simp [ofCharBuf, hb]
    have hcount : ((ofCharBuf c).count : Int) = c.sz - c.solong := hc.count halloc
    obtain ⟨hn, -⟩ := hc.filled _ halloc
    have hn : ((c.sz + 4).toNat : Int) = c.sz + 4 := hn
    unfold Rpdu.fill CharBuf.readBody
    rw [halloc, hb, Option.bind_some, Option.bind_some]
    cases body with
    | got bs =>
      have hsolong : (ofCharBuf c).solong = c.solong := rfl
      have hiff : (bs = [] ∨ (ofCharBuf c).count < bs.length ∨
          ((c.sz + 4).toNat : Int) < (ofCharBuf c).solong + bs.length) ↔
          ¬ (bs ≠ [] ∧ bs.length ≤ c.sz - c.solong) := by
        rw [hsolong]
        by_cases hnil : bs = []
        · simp [hnil]
        · simp only [hnil, false_or, ne_eq, not_false_eq_true, true_and]
          omega
      dsimp only
      by_cases hfits : bs ≠ [] ∧ bs.length ≤ c.sz - c.solong
      · rw [if_neg fun h => hiff.mp h hfits, if_pos hfits]
        simp [ofCharBuf, hb]
      · rw [if_pos (hiff.mpr hfits), if_neg hfits]
        rfl
    | again => rfl
    | eof => cases stale <;> rfl
    | failed => rfl

theorem readpdu_eq (hc : (ofCharBuf c).Inv)
    (hsize : c.buf = none → ∀ bs, size = .got bs → bs.length = 4 → ntohl bs < -4 ∨ 4 ≤ ntohl bs) :
    (ofCharBuf c).readpdu size body stale =
      (c.readpdu size body stale).map fun m => (m.succ, ofCharBuf m.pdu) := by
  by_cases hz : c.sz = 0
  · have hnone : c.buf = none := by
      cases hb : c.buf with
      | none => rfl
      | some b =>
        obtain ⟨-, hlo, hhi, -⟩ := hc.filled (c.sz + 4).toNat (by simp [ofCharBuf, hb])
        simp only [ofCharBuf] at hlo hhi
        omega
    have halloc : (ofCharBuf c).alloc = none := by simp [ofCharBuf, hnone]
    unfold Rpdu.readpdu Rpdu.start CharBuf.readpdu
    rw [if_pos (show (ofCharBuf c).sz = 0 from hz), if_pos hz]
    cases size with
    | eof | failed => rfl
    | again => rfl
    | got bs =>
      dsimp only
      by_cases h1 : bs = [] ∨ 4 < bs.length
      · rw [if_pos h1, if_pos h1]
        rfl
      rw [if_neg h1, if_neg h1]
      by_cases h2 : bs.length ≠ 4
      · rw [if_pos h2, if_pos h2]
        rfl
      rw [if_neg h2, if_neg h2]
      by_cases h3 : ntohl bs > maxPdu
      · rw [if_pos h3, if_pos h3]
        rfl
      have h3' := Int.not_lt.mp h3
      rw [if_neg h3, if_neg h3, if_neg (not_not_intro halloc), malloc_eq (ntohl_ge bs) h3']
      rcases hsize hnone bs rfl (not_not.mp h2) with hlow | hhigh
      · rw [if_neg (by omega : ¬ -4 ≤ ntohl bs), if_pos (.inr (by omega : ntohl bs < 4))]
        rfl
      · have hbuf : ¬ (c.buf ≠ none ∨ ntohl bs < 4) := by
          rintro (hne | hlt)
          · exact hne hnone
          · omega
        have hfill := @fill_eq ⟨some bs, ntohl bs, 4⟩ body stale (inv_fresh hhigh h3')
        rw [if_pos (by omega : -4 ≤ ntohl bs), if_neg hbuf, Option.map_map]
        exact hfill
  · have hz' : (ofCharBuf c).sz ≠ 0 := hz
    simp only [Rpdu.readpdu, Rpdu.start, hz', if_false, Option.bind_some, CharBuf.readpdu, hz]
    exact fill_eq hc

end

section
variable {T : Type}

theorem offer_eq (c : Conn T) (accept : Bool) : (ofConn c).offer accept = ofConn (c.offer accept) := by
  unfold Reader.offer Conn.offer
  cases hb : c.rpdu.buf with
  | none => simp [ofConn, ofCharBuf, hb]
  | some b =>
    by_cases hfull : c.rpdu.sz = c.rpdu.solong ∧ accept = true
    · simp [ofConn, ofCharBuf, hb, hfull]
    · have hfull' : ¬ ((ofConn c).rpdu.alloc ≠ none ∧ (ofConn c).rpdu.sz = (ofConn c).rpdu.solong ∧
          accept = true) := fun h => hfull h.2
      rw [if_neg hfull']
      dsimp only
      rw [if_neg hfull]

/-- On an honest size word `read_cb` is that of the model of the connection. -/
theorem readCb_eq [DecidableEq T] {c : Conn T} {e : Event} (hc : (ofCharBuf c.rpdu).Inv) (h : Honest (ofConn c) e) :
    (ofConn c).step e = (c.readCb e.size e.body e.stale e.accept).map fun out => ofConn out.1 := by
  cases hd : c.dead with
  | true => simp [Reader.step, Conn.readCb, ofConn, hd]
  | false =>
    have hreads : (ofConn c).reads = true ↔ c.rpdu.buf = none ∨ c.rpdu.solong < c.rpdu.sz := by
      simp [Reader.reads, ofConn, ofCharBuf, hd]
    have hdead : (ofConn c).dead = false := hd
    unfold Reader.step Conn.readCb
    rw [hdead, hd]
    simp only [Bool.false_eq_true, if_false]
    by_cases hr : c.rpdu.buf = none ∨ c.rpdu.solong < c.rpdu.sz
    · have hsize : c.rpdu.buf = none →
          ∀ bs, e.size = .got bs → bs.length = 4 → ntohl bs < -4 ∨ 4 ≤ ntohl bs :=
        fun hnone => h hd (by simp [ofConn, ofCharBuf, hnone])
      rw [if_pos (hreads.mpr hr), if_pos hr]
      have hpdu : (ofConn c).rpdu.readpdu e.size e.body e.stale =
          (c.rpdu.readpdu e.size e.body e.stale).map fun m => (m.succ, ofCharBuf m.pdu) :=
        readpdu_eq hc hsize
      rw [hpdu, Option.map_map, Option.map_map]
      apply congrArg (Option.map · _)
      funext m
      simp only [Function.comp_apply]
      cases hs : m.succ
      · exact offer_eq {c with rpdu := m.pdu, taken := c.taken ++ m.bytes, dead := true} e.accept
      · have := offer_eq {c with rpdu := m.pdu, taken := c.taken ++ m.bytes} e.accept
        simpa [ofConn, hd] using this
    · rw [if_neg (fun hx => hr (hreads.mp hx)), if_neg hr]
      exact congrArg some (offer_eq c e.accept)

end

/-- For all that a socket may give to any number of calls of `read_cb`: every second `read`
asks for at most what its buffer has left, and what is pending is filled up to its size at
most, if and only if no size word that is read is from -4 to 3. -/
theorem readpdu_safe_iff (es : List Event) : AllSafe es {} ↔ AllHonest es {} := allSafe_iff inv_empty

/-- A size word of zero: the buffer has the four bytes of the word, and `read` is called for
2^64 - 4 more. -/
theorem readpdu_overruns :
    (Reader.asks {} ⟨.got [0, 0, 0, 0], .again, false, false⟩) = some ⟨some 4, 0, 4⟩ ∧
      Rpdu.count ⟨some 4, 0, 4⟩ = 2 ^ 64 - 4 ∧
      Reader.step {} ⟨.got [0, 0, 0, 0], .again, false, false⟩ = some ⟨false, ⟨some 4, 0, 4⟩⟩ ∧
      ¬ AllSafe [⟨.got [0, 0, 0, 0], .again, false, false⟩] {} := by
  have hasks : (Reader.asks {} ⟨.got [0, 0, 0, 0], .again, false, false⟩) = some ⟨some 4, 0, 4⟩ := by decide
  refine ⟨hasks, by decide, by decide, fun h => ?_⟩
  have := h.1.1 _ _ hasks rfl
  exact absurd this (by decide)

end Yfs.Rpc.Overrun

import Mathlib.Algebra.GroupWithZero.Nat
import Yfs.Rpc.Marshall

/-! The memory behind a `marshall` as it grows.

In `Yfs.Rpc.Marshall` a buffer is all of its positions at once and growing it is a larger
`_capa`. Here it is a block of so many bytes: `realloc` gives one of the new size that
agrees with the old one as far as both go and holds anything behind that, and to store a
byte outside of the block is undefined, whatever `_capa` says. The two run side by side
(`Mirrors`), so that a `marshall` below 2^30 bytes stores within its block, which is of
size `_capa`, and what was written before stays when the block moves. -/
namespace Yfs.Rpc.Growth
open Base

/-- `_buf` with the size it was allocated with, `_capa`, `_ind`, and how often it moved. -/
structure Block where
  mem : Nat → Byte
  len : Nat
  capa : Nat
  ind : Nat
  moves : Nat

abbrev Building := StateT Block Option Unit

namespace Block

/-- `marshall()`. Fresh memory holds `junk`, for each allocation its own. -/
def new (junk : Nat → Nat → Byte) : Block := ⟨junk 0, defaultRpcSz, defaultRpcSz, rpcHeaderSz, 0⟩

/-- `_buf = realloc(_buf, _capa)`. -/
def realloc (junk : Nat → Nat → Byte) (b : Block) : Block :=
  {b with
    mem := fun i => if i < min b.len b.capa then b.mem i else junk (b.moves + 1) i
    len := b.capa
    moves := b.moves + 1}

/-- A full buffer moved to a new capacity, which is an `int`. -/
def reserve (junk : Nat → Nat → Byte) (full : Bool) (capa : Nat) : Building := fun b =>
  if full then if capa < 2 ^ 31 then some ((), realloc junk {b with capa := capa}) else none
  else some ((), b)

def store (p : List Byte) : Building := fun b =>
  if b.ind + p.length ≤ b.len then
    some ((), {b with mem := blit b.mem b.ind p, ind := b.ind + p.length})
  else none

section
variable (junk : Nat → Nat → Byte)

/-- `marshall::rawbyte`. -/
def rawbyte (x : Byte) : Building := do
  let b ← get
  reserve junk (b.capa ≤ b.ind) (2 * b.capa)
  store [x]

/-- `marshall::rawbytes`. -/
def rawbytes (p : List Byte) : Building := do
  let b ← get
  reserve junk (b.capa < b.ind + p.length)
    (if p.length < b.capa then 2 * b.capa else b.capa + p.length)
  store p

/-- `marshall::pack`. -/
def pack (x : BitVec 32) : Building := do
  rawbyte junk ((x.sshiftRight 24 &&& 255#32).setWidth 8)
  rawbyte junk ((x.sshiftRight 16 &&& 255#32).setWidth 8)
  rawbyte junk ((x.sshiftRight 8 &&& 255#32).setWidth 8)
  rawbyte junk ((x &&& 255#32).setWidth 8)

end

/-- The head put at the header, and back again after `w`. -/
def inHeader (w : Building) : Building := do
  let b ← get
  set {b with ind := 4}
  w
  modify fun b' => {b' with ind := b.ind}

/-- `marshall::pack_req_header` and `marshall::pack_reply_header`. -/
def packHeader (junk : Nat → Nat → Byte) : Header → Building
  | .req h => inHeader do
    pack junk h.xid
    pack junk h.proc
    pack junk h.cltNonce
    pack junk h.srvNonce
    pack junk h.xidRep
  | .reply h => inHeader do
    pack junk h.xid
    pack junk h.ret

end Block

/-! ### The block and the buffer side by side -/

/-- The block is of size `_capa` and has the buffer's first `n` bytes, up to the head at
least. -/
structure Holds (n : Nat) (b : Block) (m : Marshall) : Prop where
  ind : b.ind = m.ind
  capa : b.capa = m.capa
  len : b.len = b.capa
  head : b.ind ≤ n
  room : n ≤ b.capa
  mem : ∀ i < n, b.mem i = m.buf i

theorem Holds.mono {n k : Nat} {b : Block} {m : Marshall} (h : Holds n b m) (hk : k ≤ n)
    (hind : b.ind ≤ k) : Holds k b m :=
  ⟨h.ind, h.capa, h.len, hind, hk.trans h.room, fun i hi => h.mem i (by omega)⟩

/-- Where the writer has a result, the block gets the same bytes. -/
def Mirrors (w : Building) (w' : Writing) : Prop :=
  ∀ n b m m', Holds n b m → w' m = some ((), m') →
    ∃ b', w b = some ((), b') ∧ Holds (max n m'.ind) b' m'

theorem Mirrors.seq {v w : Building} {v' w' : Writing} (h : Mirrors v v') (h' : Mirrors w w') :
    Mirrors (do v; w) (do v'; w') := by
  intro n b m m' hb hm
  obtain ⟨⟨⟨⟩, m₁⟩, hv, hw⟩ := Option.bind_eq_some_iff.mp hm
  obtain ⟨b₁, hb₁, hold₁⟩ := h n b m m₁ hb hv
  obtain ⟨b₂, hb₂, hold₂⟩ := h' _ b₁ m₁ m' hold₁ hw
  refine ⟨b₂, ?_, hold₂.mono (by omega) (by rw [hold₂.ind]; omega)⟩
  change (v b).bind (fun r => w r.2) = _
  rw [hb₁]
  exact hb₂

section
variable {n : Nat} {b : Block} {m m' : Marshall} (junk : Nat → Nat → Byte)

/-- Whether it moves or not, the block keeps its first `n` bytes. -/
theorem Holds.reserve {full : Bool} {capa : Nat} (h : Holds n b m) (hcapa : m.capa ≤ capa)
    (hm : Marshall.reserve full capa m = some ((), m')) :
    ∃ b', Block.reserve junk full capa b = some ((), b') ∧ Holds n b' m' := by
  unfold Marshall.reserve at hm
  unfold Block.reserve
  split at hm
  · rename_i hfull
    rw [if_pos hfull]
    split at hm
    · rename_i hint
      rw [if_pos hint]
      obtain rfl : _ = m' := (Prod.mk.inj (Option.some.inj hm)).2
      have hroom : n ≤ m.capa := h.capa ▸ h.room
      have hlen : b.len = m.capa := h.len.trans h.capa
      refine ⟨_, rfl, h.ind, rfl, rfl, h.head, hroom.trans hcapa, fun i hi => ?_⟩
      have hkeep : i < min b.len capa := by omega
      exact (if_pos hkeep).trans (h.mem i hi)
    · exact absurd hm (by simp)
  · rename_i hfull
    rw [if_neg hfull]
    obtain rfl : m = m' := (Prod.mk.inj (Option.some.inj hm)).2
    exact ⟨b, rfl, h⟩

theorem Holds.store {p : List Byte} (h : Holds n b m) (hm : Marshall.store p m = some ((), m')) :
    ∃ b', Block.store p b = some ((), b') ∧ Holds (max n m'.ind) b' m' := by
  unfold Marshall.store at hm
  split at hm
  · rename_i hfits
    obtain rfl : _ = m' := (Prod.mk.inj (Option.some.inj hm)).2
    have hhead : m.ind ≤ n := h.ind ▸ h.head
    have hroom : n ≤ m.capa := h.capa ▸ h.room
    have hfits' : b.ind + p.length ≤ b.len := by
      rw [h.len, h.capa, h.ind]
      exact hfits
    refine ⟨_, if_pos hfits', congrArg (· + p.length) h.ind, h.capa, h.len, ?_, ?_, fun i hi => ?_⟩
    · rw [h.ind]
      exact Nat.le_max_right _ _
    · rw [h.capa]
      exact Nat.max_le.mpr ⟨hroom, hfits⟩
    · dsimp only at hi ⊢
      rw [h.ind]
      exact blit_congr fun hout => h.mem i (by omega)
  · exact absurd hm (by simp)

/-- Room made and bytes stored, as long as the new capacity is not smaller. -/
theorem mirrors_store {p : List Byte} {full : Nat → Nat → Bool} {capa : Nat → Nat}
    (hcapa : ∀ c, c ≤ capa c) :
    Mirrors (do let b ← get; Block.reserve junk (full b.capa b.ind) (capa b.capa); Block.store p)
      (do let m ← get; Marshall.reserve (full m.capa m.ind) (capa m.capa); Marshall.store p) := by
  intro n b m m' hb hm
  obtain ⟨⟨⟨⟩, m₁⟩, hres, hstore⟩ :
      ∃ r, Marshall.reserve (full m.capa m.ind) (capa m.capa) m = some r ∧
        Marshall.store p r.2 = some ((), m') := Option.bind_eq_some_iff.mp hm
  obtain ⟨b₁, hb₁, hold₁⟩ := hb.reserve junk (hcapa m.capa) hres
  obtain ⟨b₂, hb₂, hold₂⟩ := hold₁.store hstore
  refine ⟨b₂, ?_, hold₂⟩
  change (Block.reserve junk (full b.capa b.ind) (capa b.capa) b).bind (fun r => Block.store p r.2) = _
  rw [hb.capa, hb.ind, hb₁]
  exact hb₂

theorem mirrors_rawbyte (x : Byte) : Mirrors (Block.rawbyte junk x) (Marshall.rawbyte x) :=
  @mirrors_store junk [x] (fun c i => decide (c ≤ i)) (fun c => 2 * c) fun c => by omega

theorem mirrors_rawbytes (p : List Byte) : Mirrors (Block.rawbytes junk p) (Marshall.rawbytes p) := by
  apply @mirrors_store junk p (fun c i => decide (c < i + p.length))
    (fun c => if p.length < c then 2 * c else c + p.length)
  intro c
  split <;> omega

theorem mirrors_pack (x : BitVec 32) : Mirrors (Block.pack junk x) (Marshall.pack x) :=
  (mirrors_rawbyte junk _).seq ((mirrors_rawbyte junk _).seq
    ((mirrors_rawbyte junk _).seq (mirrors_rawbyte junk _)))

/-- The head is at the header for a while, which is within what the block has. -/
theorem Holds.inHeader {w : Building} {w' : Writing} (hw : Mirrors w w') (h : Holds n b m)
    (hn : 4 ≤ n) (hm : Marshall.inHeader w' m = some ((), m')) :
    ∃ b', Block.inHeader w b = some ((), b') ∧ Holds n b' m' := by
  obtain ⟨⟨⟨⟩, m₁⟩, hm₁, hset⟩ : ∃ r, w' {m with ind := 4} = some r ∧
      some ((), {r.2 with ind := m.ind}) = some ((), m') := Option.bind_eq_some_iff.mp hm
  obtain rfl : _ = m' := (Prod.mk.inj (Option.some.inj hset)).2
  obtain ⟨b₁, hb₁, hold⟩ := hw n {b with ind := 4} {m with ind := 4} m₁
    ⟨rfl, h.capa, h.len, hn, h.room, h.mem⟩ hm₁
  refine ⟨{b₁ with ind := b.ind}, ?_, h.ind, hold.capa, hold.len, h.head,
    (Nat.le_max_left _ _).trans hold.room, fun i hi => hold.mem i (by omega)⟩
  change (w {b with ind := 4}).bind (fun r => some ((), {r.2 with ind := b.ind})) = _
  rw [hb₁]
  rfl

end

/-! ### Sequences of operations -/

/-- The operations that write a `marshall`, behind the ones that are made of them. -/
inductive Op where
  | rawbyte (x : Byte)
  | rawbytes (p : List Byte)
  | pack (x : BitVec 32)
  | header (h : Header)

namespace Op

def build (junk : Nat → Nat → Byte) : Op → Building
  | .rawbyte x => Block.rawbyte junk x
  | .rawbytes p => Block.rawbytes junk p
  | .pack x => Block.pack junk x
  | .header h => Block.packHeader junk h

def write : Op → Writing
  | .rawbyte x => Marshall.rawbyte x
  | .rawbytes p => Marshall.rawbytes p
  | .pack x => Marshall.pack x
  | .header h => h.pack

def bytes : Op → List Byte
  | .rawbyte x => [x]
  | .rawbytes p => p
  | .pack x => wordBytes x
  | .header h => h.wire

/-- Where they are written, with the head at `ind`. -/
def place (ind : Nat) : Op → Nat
  | .header _ => 4
  | _ => ind

def size : Op → Nat
  | .header _ => 0
  | op => op.bytes.length

def builds (junk : Nat → Nat → Byte) (b : Block) : List Op → Option Block
  | [] => some b
  | op :: ops => (op.build junk b).bind fun r => builds junk r.2 ops

def writes (m : Marshall) : List Op → Option Marshall
  | [] => some m
  | op :: ops => (op.write m).bind fun r => writes r.2 ops

def sizes (ops : List Op) : Nat := (ops.map size).sum

theorem sizes_append (ops ops' : List Op) : sizes (ops ++ ops') = sizes ops + sizes ops' := by
  simp [sizes]

theorem write_spec (op : Op) {m : Marshall} (hm : m.Sized) (hlen : m.ind + op.size ≤ 2 ^ 30) :
    ∃ m', op.write m = some ((), m') ∧ m'.buf = blit m.buf (op.place m.ind) op.bytes ∧
      m'.ind = m.ind + op.size ∧ m'.Sized := by
  cases op with
  | rawbyte x =>
    obtain ⟨m', hw, h⟩ := emits_rawbyte x m hm hlen
    exact ⟨m', hw, h.buf, h.ind, h.sized⟩
  | rawbytes p =>
    obtain ⟨m', hw, h⟩ := emits_rawbytes p m hm hlen
    exact ⟨m', hw, h.buf, h.ind, h.sized⟩
  | pack x =>
    obtain ⟨m', hw, h⟩ := emits_pack x m hm hlen
    exact ⟨m', hw, h.buf, h.ind, h.sized⟩
  | header h => exact h.pack_spec hm

theorem build_spec (junk : Nat → Nat → Byte) (op : Op) {n : Nat} {b : Block} {m m' : Marshall}
    (h : Holds n b m) (hn : 4 ≤ n) (hm : op.write m = some ((), m')) :
    ∃ b', op.build junk b = some ((), b') ∧ Holds (max n m'.ind) b' m' := by
  cases op with
  | rawbyte x => exact mirrors_rawbyte junk x n b m m' h hm
  | rawbytes p => exact mirrors_rawbytes junk p n b m m' h hm
  | pack x => exact mirrors_pack junk x n b m m' h hm
  | header hd =>
    obtain ⟨b', hb', hold⟩ : ∃ b', Block.packHeader junk hd b = some ((), b') ∧ Holds n b' m' := by
      cases hd with
      | req r =>
        have hpack := mirrors_pack junk
        exact h.inHeader ((hpack r.xid).seq ((hpack r.proc).seq ((hpack r.cltNonce).seq
          ((hpack r.srvNonce).seq (hpack r.xidRep))))) hn hm
      | reply r => exact h.inHeader ((mirrors_pack junk r.xid).seq (mirrors_pack junk r.ret)) hn hm
    have hhead : m'.ind ≤ n := hold.ind ▸ hold.head
    exact ⟨b', hb', by rwa [Nat.max_eq_left hhead]⟩

/-- Over any operations the block is built as the buffer is written. -/
theorem builds_spec (junk : Nat → Nat → Byte) (ops : List Op) {n : Nat} {b : Block} {m : Marshall}
    (h : Holds n b m) (hn : 4 ≤ n) (hm : m.Sized) (hlen : m.ind + sizes ops ≤ 2 ^ 30) :
    ∃ k b' m', builds junk b ops = some b' ∧ writes m ops = some m' ∧ Holds k b' m' ∧ 4 ≤ k ∧
      m'.Sized ∧ m'.ind = m.ind + sizes ops := by
  induction ops generalizing n b m with
  | nil => exact ⟨n, b, m, rfl, rfl, h, hn, hm, rfl⟩
  | cons op ops ih =>
    have hsum : sizes (op :: ops) = op.size + sizes ops := by simp [sizes]
    rw [hsum] at hlen
    obtain ⟨m₁, hw, -, hind, hm₁⟩ := op.write_spec hm (by omega)
    obtain ⟨b₁, hb₁, h₁⟩ := op.build_spec junk h hn hw
    obtain ⟨k, b', m', hb', hm', hold, hk, hsized, hend⟩ :=
      ih h₁ (hn.trans (Nat.le_max_left _ _)) hm₁ (by omega)
    refine ⟨k, b', m', ?_, ?_, hold, hk, hsized, by omega⟩
    · rw [builds, hb₁]
      exact hb'
    · rw [writes, hw]
      exact hm'

end Op

theorem holds_new (junk : Nat → Nat → Byte) : Holds rpcHeaderSz (.new junk) (.new (junk 0)) :=
  ⟨rfl, rfl, rfl, Nat.le_refl _, (by decide : rpcHeaderSz ≤ defaultRpcSz), fun _ _ => rfl⟩

/-- For all operations on a fresh `marshall` of less than 2^30 bytes in the end, and one
more: they store within the block, which is of size `_capa`; the head is not beyond
`_capa` before and after; and the bytes written before, other than those the operation is
for, are as they were, whether it moved the block or not. -/
theorem growth_keeps (junk : Nat → Nat → Byte) (ops : List Op) (op : Op)
    (hlen : rpcHeaderSz + Op.sizes (ops ++ [op]) < 2 ^ 30) :
    ∃ b b', Op.builds junk (.new junk) ops = some b ∧ op.build junk b = some ((), b') ∧
      b.ind = rpcHeaderSz + Op.sizes ops ∧ b.ind ≤ b.capa ∧ b.len = b.capa ∧
      b'.ind = b.ind + op.size ∧ b'.ind ≤ b'.capa ∧ b'.len = b'.capa ∧
      ∀ i < b.ind, i < op.place b.ind ∨ op.place b.ind + op.bytes.length ≤ i → b'.mem i = b.mem i := by
  have hsum : Op.sizes (ops ++ [op]) = Op.sizes ops + op.size := Op.sizes_append ops [op]
  have hstart : (Marshall.new (junk 0)).ind = rpcHeaderSz := rfl
  rw [hsum] at hlen
  obtain ⟨k, b, m, hb, -, hold, hk, hm, hind⟩ :=
    Op.builds_spec junk ops (holds_new junk) (by decide) (new_sized (junk 0)) (by omega)
  obtain ⟨m', hw, hbuf, hind', hm'⟩ := op.write_spec hm (by omega)
  obtain ⟨b', hb', hold'⟩ := op.build_spec junk hold hk hw
  refine ⟨b, b', hb, hb', hold.ind.trans hind, ?_, hold.len, ?_, ?_, hold'.len, fun i hi hout => ?_⟩
  · rw [hold.ind, hold.capa]
    exact hm.ind
  · rw [hold'.ind, hold.ind, hind']
  · rw [hold'.ind, hold'.capa]
    exact hm'.ind
  · have hik : i < k := Nat.lt_of_lt_of_le hi hold.head
    rw [hold.ind] at hout
    rw [hold'.mem i (Nat.lt_of_lt_of_le hik (Nat.le_max_left _ _)), hbuf, blit_apart hout, hold.mem i hik]

theorem growth_keeps_moved :
    ∃ b b', Op.builds (fun _ _ => 7) (.new fun _ _ => 7) [.rawbyte 1, .rawbytes (List.replicate 2000 2)] =
        some b ∧
      (Op.header (.reply ⟨3, 0⟩)).build (fun _ _ => 7) b = some ((), b') ∧ b'.mem 24 = b.mem 24 := by
  have hsizes : Op.sizes [.rawbyte 1, .rawbytes (List.replicate 2000 2)] = 2001 := by
    simp only [Op.sizes, Op.size, Op.bytes, List.map_cons, List.map_nil, List.sum_cons, List.sum_nil,
      List.length_replicate, List.length_singleton, Nat.add_zero, Nat.reduceAdd]
  have hlen : rpcHeaderSz + Op.sizes ([.rawbyte 1, .rawbytes (List.replicate 2000 2)] ++
      [.header (.reply ⟨3, 0⟩)]) < 2 ^ 30 := by
    rw [Op.sizes_append, hsizes]
    decide
  obtain ⟨b, b', hb, hb', hind, -, -, -, -, -, hmem⟩ := growth_keeps (fun _ _ => 7) _ _ hlen
  refine ⟨b, b', hb, hb', hmem 24 ?_ (.inr (by decide : 4 + 8 ≤ 24))⟩
  rw [hind, hsizes, rpcHeaderSz]
  decide

end Yfs.Rpc.Growth

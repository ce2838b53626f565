import Mathlib.Data.List.Induction
import Yfs.Base.Bytes
import Yfs.Extent.Cache

/-! The extent server on its disk file.

`put` and `get` open the file, go to `id * BSIZE` and write or read one block. The product
is one of 64-bit words and is handed to `lseek` as a signed `off_t`; `lseek` fails on a
negative offset and leaves the position of the new descriptor where it is, at the start.
`get` reads again until it gets a whole block, and past the end of the file it never does.

So a block number has a *slot* in the file, and the server is a map of slots: where the
file reaches to the slot, `get` returns the last block put there, or zeros, and where it
does not, nothing (`gets_iff`). This is the block last put to the number itself where the
slots do not come between (`get_last_put`). -/
namespace Yfs.Extent
open Base

/-- `extent_protocol::xxstatus`. -/
inductive Status where
  | ok | rpcerr | noent | ioerr
  deriving DecidableEq

/-- `BSIZE` bytes. -/
abbrev Block := Bytes 512

/-! ### The disk file -/

/-- The file `disk`: its length, and its bytes, which are zero where none was written. -/
structure DiskFile where
  size : Nat
  byte : Nat → Byte

namespace DiskFile

/-- The constructor of the server truncates the file. -/
def empty : DiskFile := ⟨0, fun _ => 0⟩

/-- The position after `lseek(fd, off, SEEK_SET)`. -/
def lseek (pos : Nat) (off : Int) : Nat := if 0 ≤ off then off.toNat else pos

/-- `write` of a block at a position: how many bytes are written, all of them, and the
file then. -/
def write (f : DiskFile) (pos : Nat) (buf : Block) : Nat × DiskFile :=
  (512, ⟨max f.size (pos + 512), fun i => if pos ≤ i ∧ i < pos + 512 then buf.byte (i - pos) else f.byte i⟩)

def block (f : DiskFile) (pos : Nat) : Block := fun j => f.byte (pos + j)

/-- How many bytes `read` gets at a position. -/
def count (f : DiskFile) (pos : Nat) : Nat := min 512 (f.size - pos)

theorem block_write_self (f : DiskFile) (pos : Nat) (buf : Block) : (f.write pos buf).2.block pos = buf := by
  funext j
  have hj := j.isLt
  unfold block write
  dsimp only
  rw [if_pos ⟨Nat.le_add_right .., Nat.add_lt_add_left hj pos⟩, Nat.add_sub_cancel_left, Bytes.byte, dif_pos hj]

theorem block_write_apart (f : DiskFile) {pos pos' : Nat} (buf : Block) (h : pos' + 512 ≤ pos ∨ pos + 512 ≤ pos') :
    (f.write pos buf).2.block pos' = f.block pos' := by
  funext j
  have hj := j.isLt
  unfold block write
  dsimp only
  rw [if_neg (by omega)]

end DiskFile

/-! ### `put` and `get` -/

/-- `id * BSIZE` as an `off_t`. -/
def offset (id : Eid) : Int := (id * 512#64).toInt

def put (f : DiskFile) (id : Eid) (buf : Block) : Status × DiskFile :=
  let r := f.write (DiskFile.lseek 0 (offset id)) buf
  let ret := if r.1 ≠ 512 then Status.ioerr else .ok
  (if r.1 = 0 then .noent else ret, r.2)

/-- The loop of `get` for some rounds, with the descriptor at `pos`. -/
def getLoop (f : DiskFile) (id : Eid) : Nat → Nat → Option (Status × Block)
  | 0, _ => none
  | fuel + 1, pos =>
    let pos := DiskFile.lseek pos (offset id)
    if f.count pos = 512 then some (.ok, f.block pos) else getLoop f id fuel (pos + f.count pos)

/-- `get` returns `OK` and this block. -/
def Gets (f : DiskFile) (id : Eid) (buf : Block) : Prop := ∃ rounds, getLoop f id rounds 0 = some (.ok, buf)

/-- The file after these calls of `put`. -/
def putAll (puts : List (Eid × Block)) : DiskFile := puts.foldl (fun f p => (put f p.1 p.2).2) .empty

/-- The block of the last `put` to this number. -/
def latest (puts : List (Eid × Block)) (id : Eid) : Option Block :=
  puts.foldl (fun last p => if p.1 = id then some p.2 else last) none

/-! ### Slots -/

/-- Where the block of a number is in the file, in blocks. -/
def slot (id : Eid) : Nat := if id.toNat % 2 ^ 55 < 2 ^ 54 then id.toNat % 2 ^ 55 else 0

/-- The block of the last `put` to this slot. -/
def latestAt (puts : List (Eid × Block)) (k : Nat) : Option Block :=
  puts.foldl (fun last p => if slot p.1 = k then some p.2 else last) none

/-- `lseek` goes to the slot from the start, and from there stays. -/
theorem lseek_offset (id : Eid) {pos : Nat} (hpos : pos = 0 ∨ pos = 512 * slot id) :
    DiskFile.lseek pos (offset id) = 512 * slot id := by
  have hnat : (id * 512#64).toNat = 512 * (id.toNat % 2 ^ 55) := by
    rw [BitVec.toNat_mul, BitVec.toNat_ofNat]
    omega
  have hlt := Nat.mod_lt id.toNat (show 0 < 2 ^ 55 by decide)
  unfold DiskFile.lseek offset
  unfold slot at hpos ⊢
  rw [BitVec.toInt_eq_toNat_cond, hnat]
  split at hpos <;> split <;> split <;> omega

theorem put_eq (f : DiskFile) (id : Eid) (buf : Block) : put f id buf = (.ok, (f.write (512 * slot id) buf).2) := by
  unfold put
  rw [lseek_offset id (.inl rfl)]
  rfl

/-- One more `put`. -/
theorem putAll_append (puts : List (Eid × Block)) (p : Eid × Block) :
    putAll (puts ++ [p]) = ((putAll puts).write (512 * slot p.1) p.2).2 := by
  unfold putAll
  rw [List.foldl_append, List.foldl_cons, List.foldl_nil, put_eq]

/-- The file reaches to the last slot that was put to. -/
theorem lt_size_putAll (puts : List (Eid × Block)) (k : Nat) :
    512 * k < (putAll puts).size ↔ ∃ p ∈ puts, k ≤ slot p.1 := by
  induction puts using List.reverseRecOn with
  | nil => simp [putAll, DiskFile.empty]
  | append_singleton puts q ih =>
    have hsize : 512 * k < ((putAll puts).write (512 * slot q.1) q.2).2.size ↔
        512 * k < (putAll puts).size ∨ k ≤ slot q.1 := by
      change 512 * k < max (putAll puts).size (512 * slot q.1 + 512) ↔ _
      omega
    rw [putAll_append, hsize, ih]
    simp [or_and_right, exists_or]

/-- It ends at the end of a slot. -/
theorem size_putAll (puts : List (Eid × Block)) : 512 ∣ (putAll puts).size := by
  induction puts using List.reverseRecOn with
  | nil => exact ⟨0, rfl⟩
  | append_singleton puts q ih =>
    rw [putAll_append]
    change 512 ∣ max (putAll puts).size (512 * slot q.1 + 512)
    omega

/-- A slot holds the block last put there. -/
theorem block_putAll (puts : List (Eid × Block)) (k : Nat) :
    (putAll puts).block (512 * k) = (latestAt puts k).getD Bytes.zero := by
  induction puts using List.reverseRecOn with
  | nil => rfl
  | append_singleton puts p ih =>
    have hlast : latestAt (puts ++ [p]) k = if slot p.1 = k then some p.2 else latestAt puts k := by
      rw [latestAt, List.foldl_append, List.foldl_cons, List.foldl_nil]
      rfl
    rw [putAll_append, hlast]
    by_cases hk : slot p.1 = k
    · rw [if_pos hk, hk, DiskFile.block_write_self, Option.getD_some]
    · rw [if_neg hk, DiskFile.block_write_apart _ _ (by omega), ih]

/-- Past the end of the file `get` reads for ever. -/
theorem getLoop_past_end {f : DiskFile} {id : Eid} (hsize : f.size ≤ 512 * slot id) (rounds : Nat) {pos : Nat}
    (hpos : pos = 0 ∨ pos = 512 * slot id) : getLoop f id rounds pos = none := by
  induction rounds generalizing pos with
  | zero => rfl
  | succ rounds ih =>
    have hcount : f.count (512 * slot id) = 0 := by
      unfold DiskFile.count
      omega
    rw [getLoop, lseek_offset id hpos, hcount, if_neg (by decide)]
    exact ih (.inr rfl)

/-! ### The server as a map -/

/-- `get` returns what is in the slot, where the file reaches to it. -/
theorem gets_iff (puts : List (Eid × Block)) (id : Eid) (buf : Block) : Gets (putAll puts) id buf ↔
    (∃ p ∈ puts, slot id ≤ slot p.1) ∧ (latestAt puts (slot id)).getD Bytes.zero = buf := by
  rw [← lt_size_putAll, ← block_putAll]
  by_cases hlt : 512 * slot id < (putAll puts).size
  · have hcount : (putAll puts).count (512 * slot id) = 512 := by
      have hdvd := size_putAll puts
      unfold DiskFile.count
      omega
    have hloop : ∀ n, getLoop (putAll puts) id (n + 1) 0 = some (.ok, (putAll puts).block (512 * slot id)) := by
      intro n
      rw [getLoop, lseek_offset id (.inl rfl), if_pos hcount]
    constructor
    · rintro ⟨rounds, hget⟩
      cases rounds with
      | zero => cases hget
      | succ n =>
        rw [hloop] at hget
        cases hget
        exact ⟨hlt, rfl⟩
    · rintro ⟨-, rfl⟩
      exact ⟨1, hloop 0⟩
  · constructor
    · rintro ⟨rounds, hget⟩
      rw [getLoop_past_end (Nat.le_of_not_lt hlt) rounds (.inl rfl)] at hget
      cases hget
    · exact fun h => absurd h.1 hlt

/-- **`get` returns the block of the last `put` to its number, or zeros,** exactly where some
`put` went to the slot of the number or beyond, and the last block put to the slot is that
last put to the number. -/
theorem get_last_put (puts : List (Eid × Block)) (id : Eid) :
    Gets (putAll puts) id ((latest puts id).getD Bytes.zero) ↔
      (∃ p ∈ puts, slot id ≤ slot p.1) ∧
        (latestAt puts (slot id)).getD Bytes.zero = (latest puts id).getD Bytes.zero :=
  gets_iff puts id _

def ones : Block := fun _ => 1

/-- A block between two that were put is all zeros, and a block is what was last put to it
also where the slot was put to under another number before. -/
theorem get_last_put_hole :
    Gets (putAll [(0, ones), (2, ones)]) 1 Bytes.zero ∧
      Gets (putAll [(36028797018963968, ones), (0, Bytes.zero)]) 0 Bytes.zero :=
  ⟨(get_last_put [(0, ones), (2, ones)] 1).mpr ⟨⟨(2, ones), by simp, by decide⟩, rfl⟩,
    (get_last_put [(36028797018963968, ones), (0, Bytes.zero)] 0).mpr ⟨⟨(0, Bytes.zero), by simp, by decide⟩, rfl⟩⟩

/-- `get` of a block past the last one that was put does not return, and a `put` to block
`2 ^ 55` goes to block 0. -/
theorem not_a_total_map :
    (∀ buf, ¬ Gets (putAll []) 0 buf) ∧ (∀ buf, ¬ Gets (putAll [(0, ones)]) 1 buf) ∧
      Gets (putAll [(0, Bytes.zero), (36028797018963968, ones)]) 0 ones ∧ ones ≠ Bytes.zero := by
  refine ⟨fun buf h => ?_, fun buf h => ?_, ?_, fun h => ?_⟩
  · obtain ⟨⟨p, hp, -⟩, -⟩ := (gets_iff _ _ _).mp h
    cases hp
  · obtain ⟨⟨p, hp, hle⟩, -⟩ := (gets_iff _ _ _).mp h
    rw [List.mem_singleton.mp hp] at hle
    exact absurd hle (by decide)
  · exact (gets_iff _ _ _).mpr ⟨⟨(0, Bytes.zero), by simp, by decide⟩, rfl⟩
  · exact absurd (congrFun h 0) (by decide)

end Yfs.Extent

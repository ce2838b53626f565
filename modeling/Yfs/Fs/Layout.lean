import Mathlib.Data.List.TakeWhile
import Mathlib.Data.List.InsertIdx
import Yfs.Base.Bytes

/-! The blocks of the file system: inodes, directory entries and the bitmap.

A block is 512 bytes. `struct inode` is read and written in place, at the offsets the
compiler gives its fields on a 64-bit machine: `mode` at 0, `size` at 8, the times at
16, 24 and 32, at 40 the union of sixteen `direct_blocks` and of five `dir_entries` of
64 bytes of name and an inode number, and `next_inode` at 400. Names are C strings. -/
namespace Yfs.Fs
open Yfs.Base

/-- `BSIZE` bytes. -/
abbrev Block := Bytes 512

/-- `INODE_DIRECT_BLOCK_NUM`. -/
def directBlockNum : Nat := 16
/-- `INODE_DIR_ENTRY_NUM`. -/
def dirEntryNum : Nat := 5
/-- `INODE_FILE_NAME_LEN`. -/
def fileNameLen : Nat := 64
/-- `BLOCK_BITMAP_BEGIN_BLOCK`. -/
def bitmapBegin : Nat := 10
/-- `BLOCK_BITMAP_END_BLOCK`. -/
def bitmapEnd : Nat := 200
/-- `BITMAP_PER_BLOCK`. -/
def bitmapPerBlock : Nat := 4096

/-- The bitmap block that holds the bit of block `ino`. -/
def bitmapBlock (ino : Nat) : Nat := bitmapBegin + ino / bitmapPerBlock

/-! ### The fields of an inode -/

/-- The offset of `dir_entries[i]`. -/
def entryOffset (i : Nat) : Nat := 40 + 72 * i

namespace Block

def mode (b : Block) : Nat := (b.byte 0).toNat
def size (b : Block) : Nat := b.u64 8
def atime (b : Block) : Nat := b.u64 16
def mtime (b : Block) : Nat := b.u64 24
def ctime (b : Block) : Nat := b.u64 32
/-- `direct_blocks[i]`. -/
def direct (b : Block) (i : Nat) : Nat := b.u64 (40 + 8 * i)
/-- `dir_entries[i].inum`. -/
def inum (b : Block) (i : Nat) : Nat := b.u64 (entryOffset i + 64)
/-- `dir_entries[i].name`, up to its terminator. -/
def name (b : Block) (i : Nat) : List Byte := (b.slice (entryOffset i) fileNameLen).takeWhile (· ≠ 0)
/-- `next_inode`. -/
def next (b : Block) : Nat := b.u64 400

def setMode (b : Block) (m : Byte) : Block := b.write 0 [m]
def setSize (b : Block) (v : Nat) : Block := b.setU64 8 v
def setAtime (b : Block) (v : Nat) : Block := b.setU64 16 v
def setMtime (b : Block) (v : Nat) : Block := b.setU64 24 v
def setCtime (b : Block) (v : Nat) : Block := b.setU64 32 v
def setDirect (b : Block) (i v : Nat) : Block := b.setU64 (40 + 8 * i) v
def setInum (b : Block) (i v : Nat) : Block := b.setU64 (entryOffset i + 64) v
def setNext (b : Block) (v : Nat) : Block := b.setU64 400 v

/-- `dir_entries[i]` as one value. -/
def entryBytes (b : Block) (i : Nat) : List Byte := b.slice (entryOffset i) 72

/-- `dir_entries[i] = ...`. -/
def setEntry (b : Block) (i : Nat) (e : List Byte) : Block := b.write (entryOffset i) e

/-- `!strcmp` of the string at offset `o` with `name`, none where it reads past the block. -/
def streq (b : Block) (o : Nat) : List Byte → Option Bool
  | [] => if o < 512 then some (decide (b.byte o = 0)) else none
  | c :: rest =>
    if o < 512 then if b.byte o = c then streq b (o + 1) rest else some false else none

/-- `strcpy` of `name` to offset `o`, none where it writes past the block. -/
def strcpy (b : Block) (o : Nat) (name : List Byte) : Option Block :=
  if o + name.length + 1 ≤ 512 then some (b.write o (name ++ [0])) else none

/-- `std::string` of the characters at offset `o`, none where it reads past the block. -/
def stringAt (b : Block) (o : Nat) : Option (List Byte) :=
  if 0 ∈ b.slice o (512 - o) then some ((b.slice o (512 - o)).takeWhile (· ≠ 0)) else none

end Block

/-- `name.c_str()`, as the string functions see it. -/
def cStr (name : List Byte) : List Byte := name.takeWhile (· ≠ 0)

abbrev Entry := List Byte × Nat

/-- The name of an entry as the string functions read it. A name of 64 bytes has no
terminator, and what follows it is the inode number. -/
def asRead (e : Entry) : List Byte :=
  if e.1.length < 64 then e.1 else e.1 ++ (leBytes 8 e.2).takeWhile (· ≠ 0)

theorem asRead_short {e : Entry} {s : List Byte} (hs : s.length < 64) : asRead e = s ↔ e.1 = s := by
  unfold asRead
  split
  · rfl
  · next he =>
    constructor
    · rintro rfl
      rw [List.length_append] at hs
      omega
    · rintro rfl
      exact absurd hs he

namespace Block

def entry (b : Block) (i : Nat) : Entry := (b.name i, b.inum i)

/-- The first `size` directory entries. -/
def entries (b : Block) : List Entry := (List.range b.size).map b.entry

/-- The union and `next_inode`: all that links a block to others. -/
def links (b : Block) : List Byte := b.slice 40 368

/-! ### The fields read from the same bytes -/

variable {b b' : Block}

theorem slice_of_links (h : b.links = b'.links) {o k : Nat} (ho : 40 ≤ o) (hk : o + k ≤ 408) :
    b.slice o k = b'.slice o k := by
  refine Bytes.slice_congr fun i hi hi' => ?_
  have hb := Bytes.byte_of_slice_eq (l := b.links) rfl (i := i - 40) (by omega)
  have hb' := Bytes.byte_of_slice_eq (l := b'.links) rfl (i := i - 40) (by omega)
  rw [h, hb', show 40 + (i - 40) = i by omega] at hb
  exact (Option.some.inj hb).symm

theorem next_of_links (h : b.links = b'.links) : b.next = b'.next := by
  rw [next, Bytes.u64, slice_of_links h (by omega) (by omega)]
  rfl

theorem direct_of_links (h : b.links = b'.links) {i : Nat} (hi : i < 16) : b.direct i = b'.direct i := by
  rw [direct, Bytes.u64, slice_of_links h (by omega) (by omega)]
  rfl

theorem entry_of_entryBytes {i j : Nat} (h : b.entryBytes i = b'.entryBytes j) : b.entry i = b'.entry j := by
  have hbyte : ∀ k < 72, b.byte (entryOffset i + k) = b'.byte (entryOffset j + k) := by
    intro k hk
    have hb := Bytes.byte_of_slice_eq (l := b.entryBytes i) rfl hk
    have hb' := Bytes.byte_of_slice_eq (l := b'.entryBytes j) rfl hk
    rw [h, hb'] at hb
    exact (Option.some.inj hb).symm
  have hname : b.slice (entryOffset i) fileNameLen = b'.slice (entryOffset j) fileNameLen := by
    apply List.map_congr_left
    intro k hk
    have hk : k < 64 := List.mem_range.mp hk
    exact hbyte k (by omega)
  have hinum : b.slice (entryOffset i + 64) 8 = b'.slice (entryOffset j + 64) 8 := by
    apply List.map_congr_left
    intro k hk
    have hk : k < 8 := List.mem_range.mp hk
    rw [Nat.add_assoc, Nat.add_assoc]
    exact hbyte (64 + k) (by omega)
  rw [entry, entry, name, name, inum, inum, Bytes.u64, Bytes.u64, hname, hinum]

theorem entry_of_links (h : b.links = b'.links) {i : Nat} (hi : i < 5) : b.entry i = b'.entry i :=
  entry_of_entryBytes (slice_of_links h (by unfold entryOffset; omega) (by unfold entryOffset; omega))

theorem entries_of_links (h : b.links = b'.links) (hsize : b.size = b'.size) (h5 : b.size ≤ 5) :
    b.entries = b'.entries := by
  rw [entries, entries, ← hsize]
  apply List.map_congr_left
  intro i hi
  have hi := List.mem_range.mp hi
  exact entry_of_links h (by omega)

/-! ### Fields after a write -/

theorem links_write_header (b : Block) {o : Nat} {l : List Byte} (h : o + l.length ≤ 40) :
    links (b.write o l) = b.links :=
  Bytes.slice_write_apart b (.inr h)

variable (b) (v : Nat) (m : Byte)

@[simp] theorem links_setMode : (b.setMode m).links = b.links := links_write_header b (by simp)
@[simp] theorem links_setSize : (b.setSize v).links = b.links := links_write_header b (by simp)
@[simp] theorem links_setAtime : (b.setAtime v).links = b.links := links_write_header b (by simp)
@[simp] theorem links_setMtime : (b.setMtime v).links = b.links := links_write_header b (by simp)
@[simp] theorem links_setCtime : (b.setCtime v).links = b.links := links_write_header b (by simp)

theorem mode_write {o : Nat} {l : List Byte} (h : 0 < o) : mode (b.write o l) = b.mode := by
  rw [mode, Bytes.byte_write_apart b (.inl h), mode]

@[simp] theorem mode_setMode : (b.setMode m).mode = m.toNat := by
  have := Bytes.byte_write_at b (o := 0) (k := 0) (l := [m]) (by decide) (by simp)
  rw [mode, setMode]
  exact congrArg BitVec.toNat this

@[simp] theorem mode_setSize : (b.setSize v).mode = b.mode := mode_write b (by decide)
@[simp] theorem mode_setAtime : (b.setAtime v).mode = b.mode := mode_write b (by decide)
@[simp] theorem mode_setMtime : (b.setMtime v).mode = b.mode := mode_write b (by decide)
@[simp] theorem mode_setCtime : (b.setCtime v).mode = b.mode := mode_write b (by decide)
@[simp] theorem mode_setNext : (b.setNext v).mode = b.mode := mode_write b (by decide)
@[simp] theorem mode_setDirect (i : Nat) : (b.setDirect i v).mode = b.mode := mode_write b (by omega)

@[simp] theorem size_setMode : (b.setMode m).size = b.size := Bytes.u64_write_apart b (.inr (by simp))
@[simp] theorem size_setAtime : (b.setAtime v).size = b.size := Bytes.u64_setU64_apart b (by decide)
@[simp] theorem size_setMtime : (b.setMtime v).size = b.size := Bytes.u64_setU64_apart b (by decide)
@[simp] theorem size_setCtime : (b.setCtime v).size = b.size := Bytes.u64_setU64_apart b (by decide)
@[simp] theorem size_setNext : (b.setNext v).size = b.size := Bytes.u64_setU64_apart b (by decide)
@[simp] theorem size_setDirect (i : Nat) : (b.setDirect i v).size = b.size :=
  Bytes.u64_setU64_apart b (.inl (by omega))

theorem size_setSize (hv : v < 2 ^ 64) : (b.setSize v).size = v := Bytes.u64_setU64 b (by decide) hv

theorem next_setNext (hv : v < 2 ^ 64) : (b.setNext v).next = v := Bytes.u64_setU64 b (by decide) hv

theorem direct_setNext {i : Nat} (hi : i < 16) : (b.setNext v).direct i = b.direct i :=
  Bytes.u64_setU64_apart b (.inl (by omega))

theorem entries_setNext (h : b.size ≤ 5) : (b.setNext v).entries = b.entries := by
  rw [entries, entries, size_setNext]
  apply List.map_congr_left
  intro i hi
  have hi := List.mem_range.mp hi
  apply entry_of_entryBytes
  exact Bytes.slice_write_apart b (.inl (by unfold entryOffset; omega))

theorem next_setDirect {i : Nat} (hi : i < 16) : (b.setDirect i v).next = b.next :=
  Bytes.u64_setU64_apart b (.inr (by omega))

theorem direct_setDirect {i : Nat} (hi : i < 16) (hv : v < 2 ^ 64) (j : Nat) :
    (b.setDirect i v).direct j = if j = i then v else b.direct j := by
  split
  · next h =>
    rw [h]
    exact Bytes.u64_setU64 b (by omega) hv
  · exact Bytes.u64_setU64_apart b (by omega)

/-! ### Names -/

theorem zero_mem_of_name {i : Nat} (h : (b.name i).length < 64) : (0 : Byte) ∈ b.slice (entryOffset i) 64 := by
  by_contra hno
  have hall : b.name i = b.slice (entryOffset i) 64 := by
    refine List.takeWhile_eq_self_iff.mpr fun x hx => decide_eq_true fun e => ?_
    exact hno (e ▸ hx)
  rw [hall, Bytes.length_slice] at h
  exact Nat.lt_irrefl _ h

/-- Comparing with a string tells whether it is the string stored there, where one of the
two ends within the `k` bytes. -/
theorem streq_eq_decide {o k : Nat} {s : List Byte} (hs : s.length < k ∨ 0 ∈ b.slice o k) (ho : o + k ≤ 512)
    (h0 : (0 : Byte) ∉ s) :
    b.streq o s = some (decide ((b.slice o k).takeWhile (· ≠ 0) = s)) := by
  induction s generalizing o k with
  | nil =>
    cases k with
    | zero => exact absurd hs (not_or.mpr ⟨Nat.lt_irrefl 0, List.not_mem_nil⟩)
    | succ k =>
      rw [streq, if_pos (by omega), Bytes.slice_succ, List.takeWhile_cons]
      by_cases h : b.byte o = 0 <;> simp [h]
  | cons c rest ih =>
    cases k with
    | zero => exact absurd hs (not_or.mpr ⟨Nat.not_lt_zero _, List.not_mem_nil⟩)
    | succ k =>
      have hc : c ≠ 0 := fun e => h0 (by rw [e]; exact List.mem_cons_self)
      have hrest : (0 : Byte) ∉ rest := fun h => h0 (List.mem_cons_of_mem _ h)
      rw [streq, if_pos (by omega), Bytes.slice_succ, List.takeWhile_cons]
      rw [Bytes.slice_succ, List.length_cons] at hs
      by_cases h : b.byte o = c
      · have hends : rest.length < k ∨ 0 ∈ b.slice (o + 1) k := by
          refine hs.imp Nat.lt_of_succ_lt_succ fun hmem => ?_
          exact (List.mem_cons.mp hmem).resolve_left fun e => hc (h.symm.trans e.symm)
        rw [if_pos h, ih hends (by omega) hrest, h, if_pos (decide_eq_true hc)]
        simp
      · rw [if_neg h]
        split <;> simp [h]

/-- Where a comparison finds a string equal, that string is stored there. -/
theorem stringAt_of_streq {o : Nat} {s : List Byte} (h0 : (0 : Byte) ∉ s) (h : b.streq o s = some true) :
    b.stringAt o = some s := by
  have hstored : (0 : Byte) ∈ b.slice o (512 - o) ∧ (b.slice o (512 - o)).takeWhile (· ≠ 0) = s := by
    induction s generalizing o with
    | nil =>
      rw [streq] at h
      split at h
      · next ho =>
        have hbyte : b.byte o = 0 := of_decide_eq_true (Option.some.inj h)
        rw [show 512 - o = 512 - (o + 1) + 1 by omega, Bytes.slice_succ, hbyte]
        simp
      · cases h
    | cons c rest ih =>
      have hc : c ≠ 0 := fun e => h0 (by rw [e]; exact List.mem_cons_self)
      rw [streq] at h
      split at h
      · next ho =>
        split at h
        · next hbyte =>
          obtain ⟨hmem, heq⟩ := ih (fun hr => h0 (List.mem_cons_of_mem _ hr)) h
          rw [show 512 - o = 512 - (o + 1) + 1 by omega, Bytes.slice_succ, hbyte]
          exact ⟨List.mem_cons_of_mem _ hmem, by rw [List.takeWhile_cons, if_pos (decide_eq_true hc), heq]⟩
        · cases h
      · cases h
  rw [stringAt, if_pos hstored.1, hstored.2]

theorem takeWhile_entry (i : Nat) : (b.slice (entryOffset i) 72).takeWhile (· ≠ 0) = asRead (b.entry i) := by
  have hinum : b.slice (entryOffset i + 64) 8 = leBytes 8 (b.inum i) := by
    have h := leBytes_leNat (b.slice (entryOffset i + 64) 8)
    rw [Bytes.length_slice] at h
    exact h.symm
  have hname : b.name i = (b.slice (entryOffset i) 64).takeWhile (· ≠ 0) := rfl
  rw [show (72 : Nat) = 64 + 8 from rfl, Bytes.slice_add, List.takeWhile_append, Bytes.length_slice, hinum, ← hname]
  change _ = if (b.name i).length < 64 then b.name i else b.name i ++ _
  have hle : (b.name i).length ≤ 64 := by
    rw [hname, ← Bytes.length_slice b (entryOffset i) 64]
    exact (List.takeWhile_prefix _).length_le
  by_cases h : (b.name i).length = 64
  · have hall : b.name i = b.slice (entryOffset i) 64 := by
      refine (List.takeWhile_prefix _).eq_of_length ?_
      rw [Bytes.length_slice]
      exact h
    rw [if_pos h, if_neg (by omega), hall]
    rfl
  · rw [if_neg h, if_pos (by omega)]

/-- The name of an entry compared with a string; the string ends within the entry, or the
entry does. -/
theorem streq_entry {i : Nat} {s : List Byte} (hi : i < 5)
    (h : s.length < 72 ∨ (b.name i).length < 64 ∨ b.inum i < 256 ^ 7) (h0 : (0 : Byte) ∉ s) :
    b.streq (entryOffset i) s = some (decide (asRead (b.entry i) = s)) := by
  rw [← takeWhile_entry]
  refine streq_eq_decide b (h.imp_right fun hends => ?_) (by unfold entryOffset; omega) h0
  rw [show (72 : Nat) = 64 + 8 from rfl, Bytes.slice_add]
  cases hends with
  | inl hname => exact List.mem_append_left _ (zero_mem_of_name b hname)
  | inr hinum =>
    have hbytes := leBytes_leNat (b.slice (entryOffset i + 64) 8)
    rw [Bytes.length_slice] at hbytes
    rw [← hbytes]
    exact List.mem_append_right _ (zero_mem_leBytes hinum)

/-- A string copied to the `k` bytes of a name is what is stored there, as far as it fits. -/
theorem takeWhile_write {o k : Nat} {s : List Byte} (ho : o + k ≤ 512) (h0 : (0 : Byte) ∉ s) :
    ((b.write o (s ++ [0])).slice o k).takeWhile (· ≠ 0) = s.take k := by
  have hne : ∀ x ∈ s, decide (x ≠ (0 : Byte)) = true := by
    intro x hx
    exact decide_eq_true fun e => h0 (e ▸ hx)
  by_cases hs : s.length < k
  · have hlen : (s ++ [(0 : Byte)]).length = s.length + 1 := by simp
    have hk : k = (s ++ [(0 : Byte)]).length + (k - (s.length + 1)) := by omega
    rw [List.take_of_length_le (Nat.le_of_lt hs), hk, Bytes.slice_add, Bytes.slice_write_self b (by omega),
      List.append_assoc, List.takeWhile_append_of_pos hne]
    simp
  · rw [Bytes.slice_write_take b (by rw [List.length_append]; omega) ho, List.take_append_of_le_length (by omega)]
    exact List.takeWhile_eq_self_iff.mpr fun x hx => hne x (List.mem_of_mem_take hx)

/-! ### One entry more -/

/-- `dir_entries[i]` gets a name and a number. -/
def putEntry (i : Nat) (s : List Byte) : Block := setInum (b.write (entryOffset i) (s ++ [0])) i v

/-- `dir_entries[size]` gets a name and a number, and `size` goes up by one; none where
the name runs past the block. -/
def addEntry (s : List Byte) : Option Block :=
  (b.strcpy (entryOffset b.size) s).map fun b' => (b'.setInum b'.size v).setSize (b'.size + 1)

section
variable {i : Nat} {s : List Byte}

theorem mode_putEntry : (b.putEntry v i s).mode = b.mode := by
  rw [putEntry, setInum, Bytes.setU64, mode_write _ (by omega), mode_write _ (by unfold entryOffset; omega)]

theorem next_putEntry (hi : i < 5) (hs : s.length < 72) : (b.putEntry v i s).next = b.next := by
  have hlen : (s ++ [(0 : Byte)]).length = s.length + 1 := by simp
  rw [putEntry, setInum, next, Bytes.u64_setU64_apart _ (by unfold entryOffset; omega),
    Bytes.u64_write_apart _ (by unfold entryOffset; omega), next]

theorem entry_putEntry_lt {j : Nat} (hj : j < i) : (b.putEntry v i s).entry j = b.entry j := by
  apply entry_of_entryBytes
  rw [putEntry, setInum, Bytes.setU64, entryBytes,
    Bytes.slice_write_apart _ (.inl (by unfold entryOffset; omega)),
    Bytes.slice_write_apart _ (.inl (by unfold entryOffset; omega)), entryBytes]

/-- Whatever runs past the name, the entry has the first 64 bytes of the string. -/
theorem entry_putEntry (hi : i < 5) (h0 : (0 : Byte) ∉ s) (hv : v < 2 ^ 64) :
    (b.putEntry v i s).entry i = (s.take 64, v) := by
  have hname : (b.putEntry v i s).name i = s.take 64 := by
    rw [putEntry, setInum, Bytes.setU64, name, Bytes.slice_write_apart _ (.inl (by unfold fileNameLen; omega))]
    exact takeWhile_write b (by unfold entryOffset fileNameLen; omega) h0
  have hinum : (b.putEntry v i s).inum i = v := by
    rw [putEntry, setInum, inum, Bytes.u64_setU64 _ (by unfold entryOffset; omega) hv]
  rw [entry, hname, hinum]

/-- An entry is added behind the others, where its name does not leave the block. -/
theorem addEntry_eq : b.addEntry v s = if entryOffset b.size + s.length + 1 ≤ 512
    then some ((b.putEntry v b.size s).setSize (b.size + 1)) else none := by
  have hsize : size (b.write (entryOffset b.size) (s ++ [0])) = b.size :=
    Bytes.u64_write_apart _ (by unfold entryOffset; omega)
  rw [addEntry, strcpy]
  split
  · rw [Option.map_some, hsize, putEntry]
  · rfl

/-- A name of up to 183 bytes does not leave the block. -/
theorem addEntry_some (h5 : b.size < 5) (hs : s.length ≤ 183) :
    b.addEntry v s = some ((b.putEntry v b.size s).setSize (b.size + 1)) := by
  rw [addEntry_eq, if_pos (by unfold entryOffset; omega)]

theorem entries_addEntry (h5 : b.size < 5) (h0 : (0 : Byte) ∉ s) (hv : v < 2 ^ 64) :
    ((b.putEntry v b.size s).setSize (b.size + 1)).entries = b.entries ++ [(s.take 64, v)] := by
  have hlinks := links_setSize (b.putEntry v b.size s) (b.size + 1)
  have hsize := size_setSize (b.putEntry v b.size s) (b.size + 1) (by omega)
  rw [entries, hsize, List.range_succ, List.map_append, List.map_singleton, entry_of_links hlinks h5,
    entry_putEntry b v h5 h0 hv, entries]
  refine congrArg (· ++ [(s.take 64, v)]) (List.map_congr_left ?_)
  intro i hi
  have hi := List.mem_range.mp hi
  rw [entry_of_links hlinks (by omega), entry_putEntry_lt b v hi]

end

/-! ### One entry less -/

/-- The loop of `unlink` that copies the entries of `b` from `i` on, but for `index`,
behind those of `new`; none where an entry lies past the block. -/
def copyEntries (b : Block) (index : Nat) : Nat → Nat → Block → Option Block
  | 0, _, new => some new
  | r + 1, i, new =>
    if i = index then copyEntries b index r (i + 1) new
    else if entryOffset i + 72 ≤ 512 then
      copyEntries b index r (i + 1) ((new.setEntry new.size (b.entryBytes i)).setSize (new.size + 1))
    else none

/-- The node `unlink` writes back, without the entry at `index`. -/
def dropEntry (index : Nat) : Option Block :=
  let new : Block := setMode Bytes.zero (BitVec.ofNat 8 b.mode)
  let new := ((new.setAtime b.atime).setMtime b.mtime).setCtime b.ctime
  copyEntries b index b.size 0 ((new.setNext b.next).setSize 0)

section
variable {new : Block} {i : Nat} {e : List Byte}

theorem mode_setEntry : (new.setEntry i e).mode = new.mode :=
  mode_write new (by unfold entryOffset; omega)

theorem next_setEntry (hi : i < 5) (he : e.length = 72) : (new.setEntry i e).next = new.next :=
  Bytes.u64_write_apart new (by unfold entryOffset; omega)

theorem entry_setEntry_lt {j : Nat} (hj : j < i) : (new.setEntry i e).entry j = new.entry j := by
  apply entry_of_entryBytes
  exact Bytes.slice_write_apart new (.inl (by unfold entryOffset; omega))

theorem entry_setEntry {j : Nat} (hi : i < 5) : (new.setEntry i (b.entryBytes j)).entry i = b.entry j := by
  apply entry_of_entryBytes
  have h := Bytes.slice_write_self new (o := entryOffset i) (l := b.entryBytes j)
    (by rw [entryBytes, Bytes.length_slice]; unfold entryOffset; omega)
  rw [show (b.entryBytes j).length = 72 from Bytes.length_slice ..] at h
  exact h

theorem entries_copy {j : Nat} (h5 : new.size < 5) :
    ((new.setEntry new.size (b.entryBytes j)).setSize (new.size + 1)).entries =
      new.entries ++ [b.entry j] := by
  have hlinks := links_setSize (new.setEntry new.size (b.entryBytes j)) (new.size + 1)
  have hsize := size_setSize (new.setEntry new.size (b.entryBytes j)) (new.size + 1) (by omega)
  rw [entries, hsize, List.range_succ, List.map_append, List.map_singleton, entry_of_links hlinks h5,
    entry_setEntry b h5, entries]
  refine congrArg (· ++ [b.entry j]) (List.map_congr_left ?_)
  intro i hi
  have hi := List.mem_range.mp hi
  rw [entry_of_links hlinks (by omega), entry_setEntry_lt hi]

/-- The loop copies every entry but one. -/
theorem copyEntries_spec (new : Block) (index i r : Nat) (hr : i + r ≤ 5) (hnew : new.size ≤ i) :
    ∃ b', copyEntries b index r i new = some b' ∧
      b'.entries = new.entries ++ ((List.range' i r).filter (· ≠ index)).map b.entry ∧
      b'.next = new.next ∧ b'.mode = new.mode := by
  induction r generalizing i new with
  | zero => exact ⟨new, rfl, by simp, rfl, rfl⟩
  | succ r ih =>
    rw [copyEntries, List.range'_succ, List.filter_cons]
    by_cases h : i = index
    · rw [if_pos h, if_neg (by simp [h])]
      exact ih new (i + 1) (by omega) (by omega)
    · rw [if_neg h, if_pos (by unfold entryOffset; omega), if_pos (decide_eq_true h)]
      have hsize := size_setSize (new.setEntry new.size (b.entryBytes i)) (new.size + 1) (by omega)
      obtain ⟨b', hb', hentries, hnext, hmode⟩ :=
        ih ((new.setEntry new.size (b.entryBytes i)).setSize (new.size + 1)) (i + 1) (by omega) (by omega)
      refine ⟨b', hb', ?_, ?_, ?_⟩
      · rw [hentries, entries_copy b (by omega), List.append_assoc]
        rfl
      · have hlen : (b.entryBytes i).length = 72 := Bytes.length_slice ..
        rw [hnext, next_of_links (links_setSize ..), next_setEntry (by omega) hlen]
      · rw [hmode, mode_setSize, mode_setEntry]

theorem filter_range'_ne {index r : Nat} (h : i ≤ index) :
    (List.range' i r).filter (· ≠ index) = (List.range' i r).eraseIdx (index - i) := by
  induction r generalizing i with
  | zero => rfl
  | succ r ih =>
    rw [List.range'_succ, List.filter_cons]
    by_cases heq : i = index
    · rw [if_neg (by simp [heq]), heq, Nat.sub_self, List.eraseIdx_cons_zero, List.filter_eq_self]
      intro j hj
      have := (List.mem_range'_1.mp hj).1
      exact decide_eq_true (by omega)
    · rw [if_pos (decide_eq_true heq), ih (by omega), show index - i = index - (i + 1) + 1 by omega,
        List.eraseIdx_cons_succ]

/-- The node is written back with one entry less and its other fields as they were. -/
theorem dropEntry_spec {index : Nat} (h5 : b.size ≤ 5) :
    ∃ b', b.dropEntry index = some b' ∧ b'.entries = b.entries.eraseIdx index ∧ b'.next = b.next ∧
      b'.mode = b.mode := by
  let new₁ : Block := setMode Bytes.zero (BitVec.ofNat 8 b.mode)
  let new₂ : Block := ((new₁.setAtime b.atime).setMtime b.mtime).setCtime b.ctime
  let new : Block := (new₂.setNext b.next).setSize 0
  have hsize : new.size = 0 := size_setSize _ _ (by decide)
  have hmode : new.mode = b.mode := by
    have hlt : b.mode < 256 := (b.byte 0).isLt
    simp only [new, new₂, new₁, mode_setSize, mode_setNext, mode_setCtime, mode_setMtime, mode_setAtime,
      mode_setMode, BitVec.toNat_ofNat]
    omega
  have hnext : new.next = b.next := by
    rw [next_of_links (links_setSize ..)]
    exact next_setNext _ _ (Bytes.u64_lt ..)
  obtain ⟨b', hb', hentries, hnext', hmode'⟩ :=
    copyEntries_spec b new index 0 b.size (by omega) (by omega)
  refine ⟨b', hb', ?_, hnext'.trans hnext, hmode'.trans hmode⟩
  rw [hentries, show new.entries = [] by rw [entries, hsize]; rfl, List.nil_append,
    filter_range'_ne (Nat.zero_le _), Nat.sub_zero, ← List.eraseIdx_map, ← List.range_eq_range', entries]

end

end Block
end Yfs.Fs

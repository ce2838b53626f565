import Yfs.Fs.Listing

/-! Operations on an inode that is not there.

`safe_get` of a block whose bit is clear leaves the buffer as it was and returns `NOENT`,
and `safe_put` returns `NOENT` and writes nothing. Whether an operation fails then depends
on which of the two it asks: `create`, `symlink`, `readdir`, `setattr`, `read`, `write` and
`readlink` look at a status before they use the buffer, so that they end without effect,
whatever the buffer holds. `mkdir` and `unlink` look at neither and go on with the buffer
as a directory, and `lookup` looks at the status of `safe_put` but returns `IOERR` where a
caller expects an inode number. -/
namespace Yfs.Fs
open Yfs.Base

/-- Block `b` is neither in use nor a bitmap block. -/
structure Vol.Lacks (v : Vol) (b : Nat) : Prop where
  unused : v.used b = false
  data : outsideBitmap b = true
  lt : b < volSize

variable {v : Vol} {ino : Nat} {name : List Byte}

/-! ### The operations -/

section
variable {H : List Nat} {b : Nat} {d buf : Block}

theorem Gives.get_lacking (hH : OffBitmap H) (hb : v.Lacks b) : Gives H v (Fs.get b buf) (.noent, buf) v := by
  rw [Fs.get, if_pos hb.data]
  refine (Gives.bitOf hH hb.lt).bind ?_
  rw [hb.unused, if_neg Bool.false_ne_true]
  exact Gives.pure _

theorem Gives.put_lacking (hH : OffBitmap H) (hb : v.Lacks b) :
    Gives H v (Fs.put b d false) (.noent, b) v := by
  rw [Fs.put, if_neg Bool.false_ne_true, if_pos hb.data]
  refine (Gives.bitOf hH hb.lt).bind ?_
  rw [hb.unused, if_neg Bool.false_ne_true]
  exact Gives.pure _

end

namespace Vol.Lacks
variable {d buf : Block} (h : v.Lacks ino)
include h

theorem offBitmap : OffBitmap [ino] := offBitmap_singleton h.data

theorem safeGet : Gives [ino] v (safeGet ino buf ino) (.noent, buf) v := by
  rw [Fs.safeGet, if_pos rfl]
  exact Gives.get_lacking h.offBitmap h

theorem safePut : Gives [ino] v (safePut ino d false ino) (.noent, ino) v := by
  rw [Fs.safePut, if_pos (.inr rfl)]
  exact Gives.put_lacking h.offBitmap h

theorem innerCreate {out : Nat} : Gives [ino] v (innerCreate ino name out) (.ioerr, out) v := by
  refine Does.bind (Does.uninit fun buf => h.safeGet.bind ?_)
  refine Does.bind (Does.time fun now => h.safePut.bind ?_)
  rw [if_pos (by simp)]
  exact Gives.pure _

theorem innerRead {size : Nat} {off : Int} (hsize : 0 < size) :
    Gives [ino] v (innerRead ino size off) (.noent, []) v := by
  rw [Fs.innerRead, if_neg (by omega)]
  refine Does.bind (Does.uninit fun buf => h.safeGet.bind ?_)
  rw [if_pos rfl]
  exact Gives.pure _

theorem innerWrite {data : List Byte} {size : Nat} {off : Int} :
    Gives [ino] v (innerWrite ino data size off) (.noent, size) v := by
  refine Does.bind (Does.uninit fun inode => Does.bind (Does.uninit fun data => h.safeGet.bind ?_))
  rw [if_pos rfl]
  exact Gives.pure _

theorem create {out : Nat} : Gives [] v (create ino name out) (.ioerr, out) v :=
  Does.withLock List.not_mem_nil h.innerCreate

theorem symlink {link : List Byte} {out : Nat} : Gives [] v (symlink ino name link out) (.ioerr, out) v := by
  refine Does.withLock List.not_mem_nil (Does.bind (Does.uninit fun junk => h.innerCreate.bind ?_))
  rw [if_pos (by simp)]
  exact Gives.pure _

theorem readdir : Gives [] v (readdir ino) (.ioerr, .empty) v := by
  refine Does.withLock List.not_mem_nil (Does.bind (Does.uninit fun buf => h.safeGet.bind ?_))
  refine Does.bind (Does.time fun now => h.safePut.bind ?_)
  rw [if_pos (by simp)]
  exact Gives.pure _

theorem setattr {toSet : Bool} {info : FileInfo} : Gives [] v (setattr ino toSet info) .ioerr v := by
  refine Does.withLock List.not_mem_nil (Does.bind (Does.uninit fun buf => h.safeGet.bind (Does.bind ?_)))
  have hput (d : Block) : Gives [ino] v
      (do let ret ← Fs.safePut ino d false ino; pure (if ret.1 ≠ .ok then Status.ioerr else .ok)) .ioerr v :=
    h.safePut.bind (Gives.pure _)
  cases toSet with
  | false => exact Does.pure (hput _)
  | true => exact h.innerWrite.bind (Does.pure (hput _))

theorem read {size : Nat} {off : Int} (hsize : 0 < size) : Gives [] v (read ino size off) (.noent, []) v :=
  Does.withLock List.not_mem_nil (h.innerRead hsize)

theorem write {data : List Byte} {size : Nat} {off : Int} : Gives [] v (Fs.write ino data size off) (.noent, size) v :=
  Does.withLock List.not_mem_nil h.innerWrite

theorem readlink : Gives [] v (readlink ino) (.noent, []) v := by
  refine Does.withLock List.not_mem_nil (Does.bind (Does.uninit fun buf => h.safeGet.bind ?_))
  rw [if_pos rfl]
  exact Gives.pure _

/-- `IOERR` is 3, and that is returned as an inode number. -/
theorem lookup : Gives [] v (lookup ino name) 3 v := by
  refine Does.withLock List.not_mem_nil (Does.bind (Does.uninit fun buf => h.safeGet.bind ?_))
  refine Does.bind (Does.time fun now => h.safePut.bind ?_)
  rw [if_pos (by simp)]
  exact Gives.pure _

end Vol.Lacks

inductive Access where
  | create (name : List Byte) (out : Nat)
  | mkdir (name : List Byte) (out : Nat)
  | symlink (name link : List Byte) (out : Nat)
  | unlink (name : List Byte)
  | readdir
  | setattr (toSet : Bool) (info : FileInfo)
  /-- A read of `size + 1` bytes. -/
  | read (size : Nat) (off : Int)
  | write (data : List Byte) (size : Nat) (off : Int)
  | readlink
  | lookup (name : List Byte)

namespace Access

/-- The operation on `ino`: its status, or the number that `lookup` returns. -/
def code (ino : Nat) : Access → Code (Status ⊕ Nat)
  | create name out => do let r ← Fs.create ino name out; pure (.inl r.1)
  | mkdir name out => do let r ← Fs.mkdir ino name out; pure (.inl r.1)
  | symlink name link out => do let r ← Fs.symlink ino name link out; pure (.inl r.1)
  | unlink name => do let r ← Fs.unlink ino name; pure (.inl r)
  | readdir => do let r ← Fs.readdir ino; pure (.inl r.1)
  | setattr toSet info => do let r ← Fs.setattr ino toSet info; pure (.inl r)
  | read size off => do let r ← Fs.read ino (size + 1) off; pure (.inl r.1)
  | write data size off => do let r ← Fs.write ino data size off; pure (.inl r.1)
  | readlink => do let r ← Fs.readlink ino; pure (.inl r.1)
  | lookup name => do let r ← Fs.lookup ino name; pure (.inr r)

/-- What the operation is to return where the inode is missing. -/
def Refused : Access → Status ⊕ Nat → Prop
  | read .., x | write .., x | readlink, x => x = .inl .noent
  | lookup _, x => x = .inr 0
  | _, x => ∃ s, x = .inl s ∧ s ≠ .ok

/-- The operations that look at a status before they use the buffer, and return it. -/
def Checks : Access → Prop
  | mkdir .. | unlink _ | lookup _ => False
  | _ => True

/-- The operation fails without effect on every client that has this disk. -/
def FailsOn (op : Access) (disk : Nat → Block) (ino : Nat) : Prop :=
  ∀ w : World, w.disk = disk → w.held = [] →
    Prog.Ends World.answer (op.code ino) w fun x w' => op.Refused x ∧ w'.vol = w.vol

end Access

section
variable {disk : Nat → Block} {op : Access}

theorem Vol.Lacks.does (h : v.Lacks ino) (hop : op.Checks) :
    Does [] v (op.code ino) fun x v' => op.Refused x ∧ v' = v := by
  cases op with
  | create name out => exact h.create.bind (Does.pure ⟨⟨_, rfl, by simp⟩, rfl⟩)
  | mkdir name out => exact hop.elim
  | symlink name link out => exact h.symlink.bind (Does.pure ⟨⟨_, rfl, by simp⟩, rfl⟩)
  | unlink name => exact hop.elim
  | readdir => exact h.readdir.bind (Does.pure ⟨⟨_, rfl, by simp⟩, rfl⟩)
  | setattr toSet info => exact h.setattr.bind (Does.pure ⟨⟨_, rfl, by simp⟩, rfl⟩)
  | read size off => exact (h.read size.succ_pos).bind (Does.pure ⟨rfl, rfl⟩)
  | write data size off => exact h.write.bind (Does.pure ⟨rfl, rfl⟩)
  | readlink => exact h.readlink.bind (Does.pure ⟨rfl, rfl⟩)
  | lookup name => exact hop.elim

theorem Vol.Lacks.failsOn (h : (volOf disk).Lacks ino) (hop : op.Checks) : op.FailsOn disk ino := by
  intro w hd hw
  have hv : w.vol = volOf disk := congrArg volOf hd
  exact (h.does hop w hw hv).mono fun x w' hq => ⟨hq.2.1, hq.2.2.trans hv.symm⟩

/-! ### What the other three do -/

theorem yields_undefined {α : Type} {w : World} {Q : α → World → Prop} :
    Prog.Yields World.answer undefinedAccess w Q := fun _ _ hr => nomatch hr

theorem yields_hang {α : Type} {w : World} {Q : α → World → Prop} : Prog.Yields World.answer hang w Q :=
  fun _ _ hr => nomatch hr

/-- Every byte behind the times is `c`, and so many entries are counted that they leave
the block. -/
structure Block.Filled (b : Block) (c : Byte) : Prop where
  byte : ∀ j, 40 ≤ j → j < 512 → b.byte j = c
  size : 7 < b.size

def filled (c : Byte) : Block := fun _ => c

theorem Block.Filled.times {b : Block} {c : Byte} (h : b.Filled c) {t t' : Nat} :
    ((b.setMtime t).setCtime t').Filled c where
  byte j hj hj' := by
    rw [setCtime, Bytes.setU64, Bytes.byte_write_apart _ (.inr (by simp; omega)), setMtime, Bytes.setU64,
      Bytes.byte_write_apart _ (.inr (by simp; omega)), h.byte j hj hj']
  size := by simpa using h.size

/-- Some byte fills a buffer without the name in it. -/
theorem exists_filled (s : List Byte) : ∃ c, c ≠ 0 ∧ s.head? ≠ some c ∧ (filled c).Filled c := by
  have hbyte (c : Byte) (j : Nat) (hj : j < 512) : (filled c).byte j = c := by
    rw [Bytes.byte, dif_pos hj, filled]
  by_cases h : s.head? = some 1
  · refine ⟨2, by decide, by rw [h]; decide, fun j _ hj => hbyte 2 j hj, by decide⟩
  · exact ⟨1, by decide, h, fun j _ hj => hbyte 1 j hj, by decide⟩

theorem Block.Filled.streq {b : Block} {c : Byte} (h : b.Filled c) (hc : c ≠ 0) {s : List Byte}
    (hs : s.head? ≠ some c) {o : Nat} (ho : 40 ≤ o) (ho' : o < 512) : b.streq o s = some false := by
  cases s with
  | nil => simpa [Block.streq, ho', h.byte o ho ho'] using hc
  | cons x rest =>
    have hx : c ≠ x := fun e => hs (by rw [e]; rfl)
    simp [Block.streq, ho', h.byte o ho ho', hx]

theorem Block.Filled.findEntry {b : Block} {c : Byte} (h : b.Filled c) (hc : c ≠ 0) {s : List Byte}
    (hs : s.head? ≠ some c) {fuel i : Nat} (hi : i ≤ 7) {w : World} :
    Prog.Yields World.answer (findEntry b s fuel i) w fun _ _ => False := by
  induction fuel generalizing i with
  | zero => exact yields_hang
  | succ fuel ih =>
    have hsize := h.size
    rw [Fs.findEntry, if_pos (by omega)]
    by_cases h7 : i = 7
    · have hnone : b.streq (entryOffset i) s = none := by
        cases s <;> simp [Block.streq, entryOffset, h7]
      rw [hnone]
      exact yields_undefined
    · rw [h.streq hc hs (by unfold entryOffset; omega) (by unfold entryOffset; omega)]
      exact ih (by omega)

/-- A client with this disk whose buffers start as `junk`. -/
def World.fresh (disk : Nat → Block) (junk : Block) : World := ⟨disk, [], fun _ => 0, fun _ => junk, 0⟩

/-- Where the buffer of `unlink` starts out filled, the search leaves it. -/
theorem Vol.Lacks.unlink_overruns (h : (volOf disk).Lacks ino) {c : Byte} (hc : c ≠ 0)
    (hs : (cStr name).head? ≠ some c) (hfill : (filled c).Filled c) :
    Prog.Yields World.answer (unlink ino name) (.fresh disk (filled c)) fun _ _ => False := by
  have hacq : World.answer (.acquire ino) (.fresh disk (filled c)) =
      some ((), { World.fresh disk (filled c) with held := [ino] }) := rfl
  refine .bind (.of_ends (.call hacq (.bind (Prog.Yields.mono (Q := fun _ _ => False) ?_ ?_))))
  · refine .bind (.of_ends (.call rfl (.bind (.of_ends ?_))))
    refine (h.safeGet _ rfl rfl).mono fun r w' hr => ?_
    rw [hr.2.1]
    refine .last fun _ _ => .last fun _ _ => .last fun _ _ => .bind ?_
    generalize loopFuel = fuel
    cases fuel with
    | zero => exact yields_hang
    | succ fuel => exact .bind ((hfill.times.findEntry hc hs (by decide)).mono fun _ _ => False.elim)
  · exact fun _ _ => False.elim

theorem Access.checks_of_failsOn (h : (volOf disk).Lacks ino) (hf : op.FailsOn disk ino) : op.Checks := by
  cases op with
  | mkdir name out =>
    have hy : Prog.Yields World.answer (code ino (mkdir name out)) (.fresh disk Bytes.zero) fun x _ => x = .inl .ok :=
      .bind (mkdir_ok.mono fun r _ hr => .pure (by rw [hr]))
    obtain ⟨x, w', rfl, ⟨s, hs, hne⟩, -⟩ := hy.and_ends (hf _ rfl rfl)
    exact hne (Sum.inl.inj hs).symm
  | unlink name =>
    obtain ⟨c, hc, hs, hfill⟩ := exists_filled (cStr name)
    have hy : Prog.Yields World.answer (code ino (unlink name)) (.fresh disk (filled c)) fun _ _ => False :=
      .bind ((h.unlink_overruns hc hs hfill).mono fun _ _ => False.elim)
    obtain ⟨_, _, hfalse, -⟩ := hy.and_ends (hf _ rfl rfl)
    exact hfalse
  | lookup name =>
    have hd : Does [] (volOf disk) (code ino (lookup name)) fun x _ => x = .inr 3 := h.lookup.bind (Does.pure rfl)
    obtain ⟨x, w', ⟨-, rfl⟩, hx, -⟩ :=
      (Prog.Yields.of_ends (hd (.fresh disk Bytes.zero) rfl rfl)).and_ends (hf _ rfl rfl)
    cases hx
  | create | symlink | readdir | setattr | read | write | readlink => trivial

end

/-! ### What `lookup` returns -/

section
variable {α β : Type} {disk : Nat → Block}

/-- Whatever is locked, where the program returns from this disk, `Q` holds of its value
and of the disk then. -/
def OnDisk (disk : Nat → Block) (p : Code α) (Q : α → (Nat → Block) → Prop) : Prop :=
  ∀ w : World, w.disk = disk → Prog.Yields World.answer p w fun a w' => Q a w'.disk

namespace OnDisk
variable {Q Q' : α → (Nat → Block) → Prop}

protected theorem pure {a : α} (h : Q a disk) : OnDisk disk (pure a) Q := by
  intro w hw
  subst hw
  exact .pure h

theorem mono {p : Code α} (hp : OnDisk disk p Q) (h : ∀ a d, Q a d → Q' a d) : OnDisk disk p Q' :=
  fun w hw => (hp w hw).mono fun a w' => h a w'.disk

protected theorem bind {p : Code α} {f : α → Code β} {Q : β → (Nat → Block) → Prop}
    (hp : OnDisk disk p fun a d => OnDisk d (f a) Q) : OnDisk disk (p >>= f) Q :=
  fun w hw => .bind ((hp w hw).mono fun _ w' hq => hq w' rfl)

theorem time {Q : Nat → (Nat → Block) → Prop} (h : ∀ t, Q t disk) : OnDisk disk time Q := by
  intro w hw
  subst hw
  exact .of_ends (.call rfl (h _))

theorem uninit {Q : Block → (Nat → Block) → Prop} (h : ∀ b, Q b disk) : OnDisk disk uninit Q := by
  intro w hw
  subst hw
  exact .of_ends (.call rfl (h _))

theorem ecGet {b : Nat} : OnDisk disk (ecGet b) fun r d => r = (.ok, disk b) ∧ d = disk := by
  intro w hw
  subst hw
  exact .of_ends (.call rfl ⟨rfl, rfl⟩)

theorem ecPut {b : Nat} {c : Block} : OnDisk disk (ecPut b c) fun _ d => d = Function.update disk b c := by
  intro w hw
  subst hw
  exact .of_ends (.call rfl rfl)

theorem withLock {l : Nat} {p : Code α} (hp : OnDisk disk p Q) : OnDisk disk (withLock l p) Q := by
  intro w hw
  refine .bind (.call fun _ w₁ hacq => .bind ?_)
  refine (hp w₁ ((disk_acquire hacq).trans hw)).mono fun a w₂ hq => .bind (.call fun _ w₃ hrel => .pure ?_)
  rw [disk_release hrel]
  exact hq

end OnDisk

variable {b : Nat} {buf : Block}

theorem bitOf_onDisk : OnDisk disk (bitOf b) fun set d =>
    set = (disk (bitmapBlock b)).bit (b % bitmapPerBlock) ∧ d = disk := by
  refine .bind (OnDisk.withLock (OnDisk.ecGet.mono ?_))
  rintro _ _ ⟨rfl, rfl⟩
  exact .pure ⟨rfl, rfl⟩

theorem get_onDisk : OnDisk disk (get b buf) fun r d => (r.2 = disk b ∨ r.2 = buf) ∧ d = disk := by
  have hread : OnDisk disk (ecGet b) fun r d => (r.2 = disk b ∨ r.2 = buf) ∧ d = disk :=
    OnDisk.ecGet.mono fun r d h => ⟨.inl (by rw [h.1]), h.2⟩
  rw [get]
  split
  · refine .bind (bitOf_onDisk.mono ?_)
    rintro set _ ⟨-, rfl⟩
    cases set with
    | true => exact hread
    | false => exact .pure ⟨.inr rfl, rfl⟩
  · exact hread

theorem safeGet_onDisk {g : Nat} :
    OnDisk disk (safeGet b buf g) fun r d => (r.2 = disk b ∨ r.2 = buf) ∧ d = disk := by
  rw [safeGet]
  split
  · exact get_onDisk
  · exact .withLock get_onDisk

/-- Block `n` is reached from `p` along `next_inode`. -/
inductive Along (disk : Nat → Block) (p : Nat) : Nat → Prop where
  | self : Along disk p p
  | next {n : Nat} : Along disk p n → (disk n).next ≠ 0 → Along disk p (disk n).next

theorem Along.eq_of_last {p n : Nat} (h : Along disk p n) (hnext : (disk p).next = 0) : n = p := by
  induction h with
  | self => rfl
  | next _ hne ih => exact absurd (ih ▸ hnext) hne

/-- The chain of an inode holds an entry with this name and number. -/
def HoldsEntry (disk : Nat → Block) (p : Nat) (name : List Byte) (inum : Nat) : Prop :=
  ∃ n i, Along disk p n ∧ i < (disk n).size ∧
    (disk n).stringAt (entryOffset i) = some (cStr name) ∧ (disk n).inum i = inum

theorem not_holdsEntry_of_empty {p inum : Nat} (hnext : (disk p).next = 0) (hsize : (disk p).size = 0) :
    ¬ HoldsEntry disk p name inum := by
  rintro ⟨n, i, hn, hi, -⟩
  cases hn.eq_of_last hnext
  omega

def Block.SameButAtime (b b' : Block) : Prop := ∀ j, j < 16 ∨ 24 ≤ j → b'.byte j = b.byte j

namespace Block.SameButAtime
variable {b b' : Block} (h : b.SameButAtime b')

theorem setAtime (b : Block) (t : Nat) : b.SameButAtime (b.setAtime t) := fun j hj =>
  Bytes.byte_write_apart b (by simpa using hj)

include h

theorem slice {o k : Nat} (ho : o + k ≤ 16 ∨ 24 ≤ o) : Bytes.slice b' o k = Bytes.slice b o k :=
  Bytes.slice_congr fun j hj hj' => h j (by omega)

theorem size : b'.size = b.size := congrArg leNat (h.slice (.inl (by decide)))

theorem next : b'.next = b.next := congrArg leNat (h.slice (.inr (by decide)))

theorem inum (i : Nat) : b'.inum i = b.inum i :=
  congrArg leNat (h.slice (.inr (by unfold entryOffset; omega)))

theorem stringAt (i : Nat) : b'.stringAt (entryOffset i) = b.stringAt (entryOffset i) := by
  unfold Block.stringAt
  rw [h.slice (.inr (by unfold entryOffset; omega))]

end Block.SameButAtime

theorem findEntry_onDisk {s : List Byte} {fuel i : Nat} : OnDisk disk (findEntry buf s fuel i) fun r d =>
    (∀ k, r = some k → k < buf.size ∧ buf.streq (entryOffset k) s = some true) ∧ d = disk := by
  induction fuel generalizing i with
  | zero => exact fun _ _ => yields_hang
  | succ fuel ih =>
    rw [findEntry]
    split
    · next hi =>
      split
      · exact fun _ _ => yields_undefined
      · next heq =>
        refine .pure ⟨fun k hk => ?_, rfl⟩
        cases hk
        exact ⟨hi, heq⟩
      · exact ih
    · exact .pure ⟨(fun k hk => by cases hk), rfl⟩

theorem entryInum_onDisk {i : Nat} : OnDisk disk (entryInum buf i) fun r _ => r = buf.inum i := by
  rw [entryInum]
  split
  · exact .pure rfl
  · exact fun _ _ => yields_undefined

/-- `disk₀` is the disk before the time of the last access was written. -/
theorem lookupLoop_onDisk {disk₀ : Nat → Block} {p n fuel : Nat} (hdisk : ∀ n, (disk₀ n).SameButAtime (disk n))
    (hn : Along disk₀ p n) (hbuf : (disk₀ n).SameButAtime buf) :
    OnDisk disk (lookupLoop p (cStr name) fuel buf) fun r _ => r ≠ 0 → HoldsEntry disk₀ p name r := by
  induction fuel generalizing n buf with
  | zero => exact fun _ _ => yields_hang
  | succ fuel ih =>
    refine .bind (findEntry_onDisk.mono ?_)
    rintro found _ ⟨hfound, rfl⟩
    cases found with
    | some i =>
      obtain ⟨hi, heq⟩ := hfound i rfl
      refine entryInum_onDisk.mono fun r _ hr _ => ⟨n, i, hn, hbuf.size ▸ hi, ?_, ?_⟩
      · rw [← hbuf.stringAt]
        exact Block.stringAt_of_streq buf (zero_notMem_cStr name) heq
      · rw [← hbuf.inum, hr]
    | none =>
      by_cases hnext : buf.next = 0
      · rw [if_pos hnext]
        exact .pure fun h => absurd rfl h
      · rw [if_neg hnext]
        refine .bind (safeGet_onDisk.mono ?_)
        rintro r _ ⟨hr | hr, rfl⟩
        · rw [hr, hbuf.next]
          rw [hbuf.next] at hnext
          exact ih (Along.next hn hnext) (hdisk _)
        · rw [hr]
          exact ih hn hbuf

section
variable {p : Nat} (hused : usedIn disk p = true)
include hused

theorem bit_of_used : (disk (bitmapBlock p)).bit (p % bitmapPerBlock) = true :=
  (Bool.and_eq_true_iff.mp hused).2

theorem get_used_onDisk : OnDisk disk (get p buf) fun r d => r = (.ok, disk p) ∧ d = disk := by
  rw [get]
  split
  · refine .bind (bitOf_onDisk.mono ?_)
    rintro _ _ ⟨rfl, rfl⟩
    rw [bit_of_used hused, if_pos rfl]
    exact .ecGet
  · exact .ecGet

theorem put_used_onDisk : OnDisk disk (put p buf false) fun r d => r.1 = .ok ∧ d = Function.update disk p buf := by
  have hwrite : OnDisk disk (do let _ ← ecPut p buf; pure (Status.ok, p)) fun r d =>
      r.1 = .ok ∧ d = Function.update disk p buf := by
    refine .bind (OnDisk.ecPut.mono ?_)
    rintro _ _ rfl
    exact .pure ⟨rfl, rfl⟩
  rw [put, if_neg Bool.false_ne_true]
  split
  · refine .bind (bitOf_onDisk.mono ?_)
    rintro _ _ ⟨rfl, rfl⟩
    rw [bit_of_used hused, if_pos rfl]
    exact hwrite
  · exact hwrite

theorem lookup_onDisk : OnDisk disk (lookup p name) fun r _ => r ≠ 0 → HoldsEntry disk p name r := by
  refine .withLock (.bind (.uninit fun junk => .bind ?_))
  rw [safeGet, if_pos rfl]
  refine (get_used_onDisk hused).mono ?_
  rintro _ _ ⟨rfl, rfl⟩
  refine .bind (.time fun now => .bind ?_)
  rw [safePut, if_pos (.inr rfl)]
  refine (put_used_onDisk hused).mono ?_
  rintro ret _ ⟨hret, rfl⟩
  rw [hret, if_neg (by simp)]
  refine lookupLoop_onDisk (fun n => ?_) .self (.setAtime _ now)
  by_cases hn : n = p
  · rw [hn, Function.update_self]
    exact .setAtime _ now
  · rw [Function.update_of_ne hn]
    exact fun _ _ => rfl

end
end

/-! ### A missing inode -/

/-- What `lookup` returns, if not zero, is an entry of the parent, on every client that has
this disk. -/
def LookupFinds (disk : Nat → Block) (p : Nat) (name : List Byte) : Prop :=
  ∀ w : World, w.disk = disk → w.held = [] →
    Prog.Yields World.answer (lookup p name) w fun r _ => r ≠ 0 → HoldsEntry disk p name r

/-- Of a missing parent `lookup` returns 3, and what was left in the parent's block may by
chance hold an entry with that number. -/
theorem lookupFinds_iff {disk : Nat → Block} {p : Nat} (hp : p < volSize) (hout : outsideBitmap p = true) :
    LookupFinds disk p name ↔ usedIn disk p = true ∨ HoldsEntry disk p name 3 := by
  by_cases hused : usedIn disk p = true
  · exact iff_of_true (fun w hw _ => lookup_onDisk hused w hw) (.inl hused)
  · have hl : (volOf disk).Lacks p := ⟨Bool.eq_false_iff.mpr hused, hout, hp⟩
    rw [or_iff_right hused]
    constructor
    · intro hfinds
      obtain ⟨r, w', hfind, -, rfl, -⟩ := (hfinds (.fresh disk Bytes.zero) rfl rfl).and_ends (hl.lookup _ rfl rfl)
      exact hfind (by decide)
    · intro hholds w hw hheld
      exact .of_ends ((hl.lookup w hheld (congrArg volOf hw)).mono fun r _ hr _ => hr.2.1 ▸ hholds)

/-- On a disk of any content, whatever the buffers start as, an operation on a missing
inode fails without effect exactly if it is not `mkdir`, `unlink` or `lookup`, and `lookup`
returns nothing but numbers of entries exactly for the parents that are there, or have an
entry with the number 3. -/
theorem missing_refused (disk : Nat → Block) :
    (∀ ino < volSize, outsideBitmap ino = true → usedIn disk ino = false →
      ∀ op : Access, op.FailsOn disk ino ↔ op.Checks) ∧
    ∀ p < volSize, outsideBitmap p = true → ∀ name,
      LookupFinds disk p name ↔ usedIn disk p = true ∨ HoldsEntry disk p name 3 := by
  refine ⟨fun ino hino hout hunused op => ?_, fun p hp hout name => lookupFinds_iff hp hout⟩
  have hl : (volOf disk).Lacks ino := ⟨hunused, hout, hino⟩
  exact ⟨Access.checks_of_failsOn hl, hl.failsOn⟩

/-- A file system with one file, at block 2, in which block 5 is free: a write to 5 fails,
`lookup` in the root finds what is there, and `lookup` in 5 finds what is not. -/
theorem missing_refused_one_file : ∃ w₀ w, mount still = some w₀ ∧ (Op.create 1 [102]).step w₀ = some w ∧
    usedIn w.disk 2 = true ∧ usedIn w.disk 5 = false ∧ (Access.write [1] 1 0).FailsOn w.disk 5 ∧
      LookupFinds w.disk 1 [102] ∧ ¬ LookupFinds w.disk 5 [97] := by
  obtain ⟨w₀, hw₀, w, hw, h1, h2, h5, hnext, hsize⟩ : ∃ w₀, mount still = some w₀ ∧
      ∃ w, Op.step w₀ (.create 1 [102]) = some w ∧ usedIn w.disk 1 = true ∧ usedIn w.disk 2 = true ∧
      usedIn w.disk 5 = false ∧ (w.disk 5).next = 0 ∧ (w.disk 5).size = 0 := by decide +kernel
  obtain ⟨hops, hfinds⟩ := missing_refused w.disk
  refine ⟨w₀, w, hw₀, hw, h2, h5, (hops 5 (by decide) (by decide) h5 _).mpr trivial,
    (hfinds 1 (by decide) (by decide) [102]).mpr (.inl h1), fun h => ?_⟩
  rcases (hfinds 5 (by decide) (by decide) [97]).mp h with h | h
  · exact absurd h (by simp [h5])
  · exact not_holdsEntry_of_empty hnext hsize h

/-- A file system with one file, at block 2; block 5 is free. As a directory, it answers
3 to `lookup`, `mkdir` in it takes a block, and where the buffer holds an entry left over
from somewhere, `unlink` frees the file. -/
theorem missing_answered : ∃ w₀ w, mount still = some w₀ ∧ (Op.create 1 [102]).step w₀ = some w ∧
    usedIn w.disk 5 = false ∧ (w.disk 1).entries = [([102], 2)] ∧ usedIn w.disk 2 = true ∧ usedIn w.disk 3 = false ∧
    (∃ w', Prog.run World.answer (lookup 5 [97]) w = some (3, w')) ∧
    (∃ w', Prog.run World.answer (mkdir 5 [97] 0) w = some ((.ok, 3), w') ∧ usedIn w'.disk 3 = true) ∧
    ∃ w', Prog.run World.answer (unlink 5 [97])
        { w with junk := fun _ => (Block.setSize Bytes.zero 1).putEntry 2 0 [97] } = some (.ok, w') ∧
      (w'.disk 1).entries = [([102], 2)] ∧ usedIn w'.disk 2 = false := by
  obtain ⟨w₀, hw₀, w, hw, h5, hroot, h2, h3, ⟨⟨_, w₁⟩, hlookup, rfl⟩, ⟨⟨_, w₂⟩, hmkdir, rfl, hused⟩, ⟨_, w₃⟩, hunlink,
    rfl, hroot', hfree⟩ : ∃ w₀, mount still = some w₀ ∧ ∃ w, Op.step w₀ (.create 1 [102]) = some w ∧
      usedIn w.disk 5 = false ∧ (w.disk 1).entries = [([102], 2)] ∧ usedIn w.disk 2 = true ∧ usedIn w.disk 3 = false ∧
      (∃ x, Prog.run World.answer (lookup 5 [97]) w = some x ∧ x.1 = 3) ∧
      (∃ x, Prog.run World.answer (mkdir 5 [97] 0) w = some x ∧ x.1 = (.ok, 3) ∧ usedIn x.2.disk 3 = true) ∧
      ∃ x, Prog.run World.answer (unlink 5 [97])
          { w with junk := fun _ => (Block.setSize Bytes.zero 1).putEntry 2 0 [97] } = some x ∧
        x.1 = .ok ∧ (x.2.disk 1).entries = [([102], 2)] ∧ usedIn x.2.disk 2 = false := by
    decide +kernel
  exact ⟨w₀, w, hw₀, hw, h5, hroot, h2, h3, ⟨w₁, hlookup⟩, ⟨w₂, hmkdir, hused⟩, w₃, hunlink, hroot', hfree⟩

end Yfs.Fs

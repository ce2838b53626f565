import Yfs.Fs.Session

/-! The locks that an operation takes.

Below the operation itself, everything is made of few pieces: a block is read or written
back under its own lock (`safe_get` and `safe_put`), a block is taken or given back
under the locks of the bitmap (`put` with `add`, and `remove`), and the block that
`ignore` names is accessed with no lock of its own, since the caller is to hold it
already. `Built G` is the class of programs made of these pieces, where `G` says which
blocks are accessed in the last way. What holds of every such program is proved once, by
induction on how it is built.

On every path through an operation, whatever its calls answer, a block is accessed with
its lock held and the locks held at the end are those held at the start. `symlink` is the
exception to the one, where it goes on to the inode that it has made (`lock_discipline`),
and `issym` to the other, where it does not find its inode (`lock_balance`). -/
namespace Yfs.Fs
open Yfs.Base

/-! ### The operations -/

inductive Request where
  | construct
  | isfile (ino : Nat)
  | isdir (ino : Nat)
  | issym (ino : Nat)
  | getfile (ino : Nat)
  | getdir (ino : Nat)
  | create (parent : Nat) (name : List Byte)
  | lookup (parent : Nat) (name : List Byte)
  | readdir (ino : Nat)
  | setattr (ino : Nat) (toSet : Bool) (info : FileInfo)
  | read (ino size : Nat) (off : Int)
  | write (ino : Nat) (buf : List Byte) (size : Nat) (off : Int)
  | mkdir (parent : Nat) (name : List Byte)
  | unlink (parent : Nat) (name : List Byte)
  | symlink (parent : Nat) (name link : List Byte)
  | readlink (ino : Nat)

variable {α β : Type} {p : Code α} {π : List Event} {b : Nat}

def discard (p : Code α) : Code Unit := p >>= fun _ => pure ()

def Request.code : Request → Code Unit
  | .construct => yfsClient
  | .isfile ino => discard (Fs.isfile ino)
  | .isdir ino => discard (Fs.isdir ino)
  | .issym ino => discard (Fs.issym ino)
  | .getfile ino => discard (Fs.getfile ino)
  | .getdir ino => discard (Fs.getdir ino)
  | .create parent name => discard (Fs.create parent name 0)
  | .lookup parent name => discard (Fs.lookup parent name)
  | .readdir ino => discard (Fs.readdir ino)
  | .setattr ino toSet info => discard (Fs.setattr ino toSet info)
  | .read ino size off => discard (Fs.read ino size off)
  | .write ino buf size off => discard (Fs.write ino buf size off)
  | .mkdir parent name => discard (Fs.mkdir parent name 0)
  | .unlink parent name => discard (Fs.unlink parent name)
  | .symlink parent name link => discard (Fs.symlink parent name link 0)
  | .readlink ino => discard (Fs.readlink ino)

/-! ### What the operations are made of -/

/-- A program made of accesses under locks; `G` are the blocks it accesses without taking
their locks. -/
inductive Built (G : Nat → Prop) : {α : Type} → Code α → Prop where
  | pure {α : Type} (a : α) : Built G (pure a : Code α)
  | bind {α β : Type} {p : Code α} {f : α → Code β} : Built G p → (∀ a, Built G (f a)) → Built G (p >>= f)
  | time : Built G time
  | uninit : Built G uninit
  | hang {α : Type} : Built G (hang : Code α)
  | undefinedAccess {α : Type} : Built G (undefinedAccess : Code α)
  | ownGet {b : Nat} (buf : Block) : G b → Built G (get b buf)
  | ownPut {b : Nat} (buf : Block) : G b → Built G (put b buf false)
  | lockGet (b : Nat) (buf : Block) : Built G (withLock b (get b buf))
  | lockPut (b : Nat) (buf : Block) : Built G (withLock b (put b buf false))
  | add (b : Nat) (buf : Block) : Built G (put b buf true)
  | remove (b : Nat) : Built G (remove b)

namespace Built
variable {G : Nat → Prop} {g : Nat}

theorem safeGet (hg : G g) (b : Nat) (buf : Block) : Built G (safeGet b buf g) := by
  unfold Fs.safeGet
  split
  next h => exact .ownGet buf (h ▸ hg)
  next => exact .lockGet b buf

theorem safePut (hg : G g) (b : Nat) (buf : Block) (add : Bool) : Built G (safePut b buf add g) := by
  unfold Fs.safePut
  cases add with
  | true => exact .add b buf
  | false =>
    split
    next h => exact .ownPut buf (h.resolve_left Bool.false_ne_true ▸ hg)
    next => exact .lockPut b buf

/-! ### Directories -/

theorem findEntry (buf : Block) (name : List Byte) (fuel i : Nat) : Built G (findEntry buf name fuel i) := by
  induction fuel generalizing i with
  | zero => exact .hang
  | succ fuel ih =>
    unfold Fs.findEntry
    split
    · split
      · exact .undefinedAccess
      · exact .pure _
      · exact ih (i + 1)
    · exact .pure _

theorem findDup (buf : Block) (name : Option (List Byte)) : Built G (findDup buf name) := by
  cases name with
  | none => exact .pure _
  | some name => exact .findEntry buf name _ _

theorem entryInum (buf : Block) (i : Nat) : Built G (entryInum buf i) := by
  unfold Fs.entryInum
  split
  · exact .pure _
  · exact .undefinedAccess

theorem roomLoop (hg : G g) (name : Option (List Byte)) (check : Bool) (fuel tmp target : Nat) (buf : Block) :
    Built G (roomLoop g name check fuel tmp target buf) := by
  induction fuel generalizing tmp target buf with
  | zero => exact .hang
  | succ fuel ih =>
    unfold Fs.roomLoop
    split
    · refine .bind (.findDup buf name) fun found => ?_
      cases found with
      | some i => exact .bind (.entryInum buf i) fun inum => .pure _
      | none =>
        dsimp only
        split
        · exact .bind (.safeGet hg _ buf) fun r => ih _ _ _
        · refine .bind (.safePut hg tmp _ true) fun r => ?_
          split
          · exact .pure _
          · refine .bind (.safePut hg target _ false) fun ret => ?_
            split
            · exact .pure _
            · exact ih _ _ _
    · exact .pure _

theorem fillEntry (hg : G g) (name : List Byte) (check : Bool) (new : Block) (tmp target : Nat) (buf : Block) :
    Built G (fillEntry g name check new tmp target buf) := by
  refine .bind (.safePut hg tmp new true) fun r => ?_
  split
  · exact .pure _
  · split
    · exact .undefinedAccess
    · refine .bind (.safePut hg target _ false) fun ret => ?_
      split
      · exact .pure _
      · exact .pure _

theorem innerCreate (hg : G g) (name : List Byte) (ino : Nat) : Built G (innerCreate g name ino) := by
  refine .bind .uninit fun buf => .bind (.safeGet hg g buf) fun r => .bind .time fun now => ?_
  refine .bind (.safePut hg g _ false) fun ret => ?_
  split
  · exact .pure _
  · refine .bind (.roomLoop hg _ _ _ _ _ _) fun room => ?_
    cases room with
    | error => exact .pure _
    | dup inum => exact .pure _
    | blank tmp target buf =>
      refine .bind (.findDup buf _) fun found => ?_
      cases found with
      | some i => exact .bind (.entryInum buf i) fun inum => .pure _
      | none =>
        refine .bind .time fun mtime => .bind .time fun ctime => ?_
        refine .bind (.fillEntry hg _ _ _ _ _ _) fun inum => ?_
        cases inum with
        | none => exact .pure _
        | some inum => exact .pure _

theorem lookupLoop (hg : G g) (name : List Byte) (fuel : Nat) (buf : Block) :
    Built G (lookupLoop g name fuel buf) := by
  induction fuel generalizing buf with
  | zero => exact .hang
  | succ fuel ih =>
    refine .bind (.findEntry buf name _ _) fun found => ?_
    cases found with
    | some i => exact .entryInum buf i
    | none =>
      dsimp only
      split
      · exact .pure _
      · exact .bind (.safeGet hg _ buf) fun r => ih r.2

theorem readEntries (buf : Block) (fuel i : Nat) (items : Items) : Built G (readEntries buf fuel i items) := by
  induction fuel generalizing i items with
  | zero => exact .hang
  | succ fuel ih =>
    unfold Fs.readEntries
    split
    · refine .bind (.entryInum buf i) fun inum => ?_
      split
      · exact .undefinedAccess
      · exact ih _ _
    · exact .pure _

theorem readdirLoop (hg : G g) (fuel : Nat) (buf : Block) (items : Items) :
    Built G (readdirLoop g fuel buf items) := by
  induction fuel generalizing buf items with
  | zero => exact .hang
  | succ fuel ih =>
    refine .bind (.readEntries buf _ _ items) fun items => ?_
    split
    · exact .pure _
    · exact .bind (.safeGet hg _ buf) fun r => ih r.2 items

theorem unlinkLoop (hg : G g) (name : List Byte) (fuel bufInum : Nat) (buf : Block) :
    Built G (unlinkLoop g name fuel bufInum buf) := by
  induction fuel generalizing bufInum buf with
  | zero => exact .hang
  | succ fuel ih =>
    refine .bind (.findEntry buf name _ _) fun found => ?_
    cases found with
    | some i => exact .pure _
    | none =>
      dsimp only
      split
      · exact .pure _
      · exact .bind (.safeGet hg _ buf) fun r => ih _ _

theorem removeDirect (buf : Block) (is : List Nat) : Built G (removeDirect buf is) := by
  induction is with
  | nil => exact .pure _
  | cons i is ih =>
    unfold Fs.removeDirect
    split
    · exact .bind (.remove _) fun _ => ih
    · exact .pure _

/-- `ignore` is 0 here, and the inode is another one. -/
theorem recursiveUnlink (fuel ino : Nat) : Built G (recursiveUnlink fuel ino) := by
  induction fuel generalizing ino with
  | zero => exact .hang
  | succ fuel ih =>
    unfold Fs.recursiveUnlink
    split
    · exact .pure _
    next hne =>
      refine .bind .uninit fun buf => .bind ?_ fun r => .bind (.removeDirect r.2 _) fun _ => ?_
      · rw [Fs.safeGet, if_neg hne]
        exact .lockGet ino buf
      · refine .bind ?_ fun _ => .bind (.remove ino) fun _ => .pure _
        split
        · exact ih _
        · exact .pure _

/-! ### Files -/

theorem readTouch (hg : G g) (index : Nat) (inode : Block) : Built G (readTouch g index inode) := by
  unfold Fs.readTouch
  split
  · split
    · exact .bind (.safeGet hg _ inode) fun r => .pure _
    · exact .pure _
  · exact .pure _

theorem readSeek (hg : G g) (fuel : Nat) (off : Int) (filesize index : Nat) (inode : Block) :
    Built G (readSeek g fuel off filesize index inode) := by
  induction fuel generalizing off filesize index inode with
  | zero => exact .hang
  | succ fuel ih =>
    refine .bind (.readTouch hg index inode) fun at? => ?_
    cases at? with
    | none => exact .pure _
    | some at? =>
      dsimp only
      split
      · split
        · exact ih _ _ _ _
        · exact .pure _
      · exact .pure _

theorem append (buf : List Byte) (data : Block) (off : Int) (n : Nat) : Built G (append buf data off n) := by
  unfold Fs.append
  split
  · exact .pure _
  · split
    · exact .pure _
    · exact .undefinedAccess

theorem readLoop (hg : G g) (fuel size : Nat) (off : Int) (filesize index : Nat) (inode data : Block)
    (buf : List Byte) : Built G (readLoop g fuel size off filesize index inode data buf) := by
  induction fuel generalizing size off filesize index inode data buf with
  | zero => exact .hang
  | succ fuel ih =>
    refine .bind (.readTouch hg index inode) fun at? => ?_
    cases at? with
    | none => exact .pure _
    | some at? =>
      refine .bind (.safeGet hg _ data) fun r => ?_
      have hmore : ∀ room, Built G (Fs.append buf r.2 off room >>= fun buf =>
          Fs.readLoop g fuel (size - room) 0 (filesize - room) (at?.1 + 1) at?.2 r.2 buf) :=
        fun room => .bind (.append buf r.2 off room) fun buf => ih _ _ _ _ _ _ _
      split
      · split
        · exact .append buf r.2 off _
        · exact hmore _
      · split
        · exact .append buf r.2 off _
        · exact hmore _

theorem innerRead (hg : G g) (size : Nat) (off : Int) : Built G (innerRead g size off) := by
  unfold Fs.innerRead
  split
  · exact .pure _
  · refine .bind .uninit fun buf => .bind (.safeGet hg g buf) fun r => ?_
    split
    · exact .pure _
    · refine .bind .time fun now => .bind (.safePut hg g _ false) fun ret => ?_
      split
      · exact .pure _
      · refine .bind (.readSeek hg _ _ _ _ _) fun at? => ?_
        cases at? with
        | none => exact .pure _
        | some at? => exact .bind .uninit fun data => .bind (.readLoop hg _ _ _ _ _ _ _ _) fun buf => .pure _

theorem nextNode (hg : G g) (check : Bool) (c : Cursor) : Built G (nextNode g check c) := by
  unfold Fs.nextNode
  split
  · split
    · refine .bind (.safePut hg 0 _ true) fun tmp => ?_
      split
      · exact .pure _
      · refine .bind (.safePut hg c.target _ false) fun ret => ?_
        split
        · exact .pure _
        · exact .bind (.safeGet hg _ _) fun r => .pure _
    · exact .bind (.safeGet hg _ _) fun r => .pure _
  · exact .pure _

theorem touch (hg : G g) (check : Bool) (filesize : Int) (c : Cursor) : Built G (touch g check filesize c) := by
  refine .bind (.nextNode hg check c) fun c => ?_
  cases c with
  | none => exact .pure _
  | some c =>
    refine .bind ?_ fun c => .bind ?_ fun _ => .pure _
    · unfold Fs.newDirect
      split
      · exact .bind (.safePut hg 0 _ true) fun tmp => .bind (.safePut hg c.target _ false) fun _ => .pure _
      · exact .pure _
    · unfold Fs.zeroDirect
      split
      · exact .bind (.safePut hg _ _ false) fun _ => .pure _
      · exact .pure _

theorem writeSeek (hg : G g) (fuel : Nat) (off filesize : Int) (c : Cursor) :
    Built G (writeSeek g fuel off filesize c) := by
  induction fuel generalizing off filesize c with
  | zero => exact .hang
  | succ fuel ih =>
    refine .bind (.touch hg true filesize c) fun c => ?_
    cases c with
    | none => exact .pure _
    | some c =>
      dsimp only
      split
      · exact ih _ _ _
      · exact .pure _

theorem writeLoop (hg : G g) (fuel : Nat) (buf : List Byte) (size : Nat) (off filesize : Int) (data : Block)
    (c : Cursor) : Built G (writeLoop g fuel buf size off filesize data c) := by
  induction fuel generalizing buf size off filesize data c with
  | zero => exact .hang
  | succ fuel ih =>
    refine .bind (.touch hg false filesize c) fun c => ?_
    cases c with
    | none => exact .pure _
    | some c =>
      refine .bind (.safeGet hg _ data) fun r => ?_
      split
      · exact .undefinedAccess
      · refine .bind (.safePut hg _ _ false) fun _ => ?_
        split
        · exact .pure _
        · exact ih _ _ _ _ _ _

theorem innerWrite (hg : G g) (buf : List Byte) (size : Nat) (off : Int) :
    Built G (innerWrite g buf size off) := by
  refine .bind .uninit fun inode => .bind .uninit fun data => .bind (.safeGet hg g inode) fun r => ?_
  split
  · exact .pure _
  · refine .bind .time fun atime => .bind .time fun mtime => .bind (.safePut hg g _ false) fun ret => ?_
    split
    · exact .pure _
    · refine .bind (.writeSeek hg _ _ _ _) fun at? => ?_
      cases at? with
      | none => exact .pure _
      | some at? =>
        refine .bind (.writeLoop hg _ _ _ _ _ _ _) fun c => ?_
        exact .bind (.safeGet hg g _) fun r => .bind (.safePut hg g _ false) fun _ => .pure _

end Built

/-! ### Locks along a path -/

def Call.held : Call → List Nat → List Nat
  | .acquire l, H => l :: H
  | .release l, H => H.erase l
  | _, H => H

def Call.block : Call → Option Nat
  | .get b | .put b _ => some b
  | _ => none

/-- On every path from the locks `H`, whatever the calls answer, a block `b` is accessed
with locks for which `P` holds, and `Q` holds where the program returns. -/
def OnPaths (P : List Nat → Nat → Prop) (H : List Nat) (p : Code α) (Q : α → List Nat → Prop) : Prop :=
  Prog.Paths (fun c (_ : Unit) H => ∀ b, c.block = some b → P H b) (fun c _ H _ H' => H' = c.held H) p H Q

/-- The program accesses no block without its lock. -/
def Disciplined (p : Code α) : Prop := ∀ H, OnPaths (fun H b => b ∈ H) H p fun _ _ => True

namespace OnPaths
variable {P : List Nat → Nat → Prop} {H : List Nat} {Q Q' : α → List Nat → Prop}

theorem mono (hp : OnPaths P H p Q) (h : ∀ a H', Q a H' → Q' a H') : OnPaths P H p Q' :=
  Prog.Paths.mono hp h

theorem bind {f : α → Code β} {Q : β → List Nat → Prop}
    (hp : OnPaths P H p fun a H' => OnPaths P H' (f a) Q) : OnPaths P H (p >>= f) Q :=
  Prog.Paths.bind hp

theorem acquire {l : Nat} {Q : Unit → List Nat → Prop} (h : Q () (l :: H)) : OnPaths P H (acquire l) Q := by
  refine .call () nofun ?_
  rintro r _ rfl
  exact h

theorem release {l : Nat} {Q : Unit → List Nat → Prop} (h : Q () (H.erase l)) : OnPaths P H (release l) Q := by
  refine .call () nofun ?_
  rintro r _ rfl
  exact h

end OnPaths

abbrev Event := (c : Call) × c.Answer

def heldAfter (H : List Nat) (π : List Event) : List Nat := π.foldl (fun H e => e.1.held H) H

/-- A block `b` is accessed with locks for which `P` holds, all along. -/
def Guarded (P : List Nat → Nat → Prop) : List Nat → List Event → Prop
  | _, [] => True
  | H, e :: π => (∀ b, e.1.block = some b → P H b) ∧ Guarded P (e.1.held H) π

theorem guarded_append {P : List Nat → Nat → Prop} {H : List Nat} {π' : List Event} :
    Guarded P H (π ++ π') ↔ Guarded P H π ∧ Guarded P (heldAfter H π) π' := by
  induction π generalizing H with
  | nil => simp [Guarded, heldAfter]
  | cons e π ih =>
    rw [List.cons_append, Guarded, Guarded, ih, and_assoc]
    rfl

theorem Guarded.imp {P P' : List Nat → Nat → Prop} {H : List Nat} (h : Guarded P H π)
    (himp : ∀ H b, (∃ e ∈ π, e.1.block = some b) → P H b → P' H b) : Guarded P' H π := by
  induction π generalizing H with
  | nil => trivial
  | cons e π ih =>
    refine ⟨fun b hb => himp H b ⟨e, List.mem_cons_self, hb⟩ (h.1 b hb), ih h.2 fun H b hb => himp H b ?_⟩
    obtain ⟨e', he', hb⟩ := hb
    exact ⟨e', List.mem_cons_of_mem _ he', hb⟩

theorem OnPaths.goes {P : List Nat → Nat → Prop} {H : List Nat} {p' : Code α} {Q : α → List Nat → Prop}
    (h : OnPaths P H p Q) (hgo : Prog.Goes p π p') :
    Guarded P H π ∧ OnPaths P (heldAfter H π) p' Q := by
  induction hgo generalizing H with
  | nil => exact ⟨trivial, h⟩
  | cons _ ih =>
    obtain ⟨_, hok, hk⟩ := h
    obtain ⟨hguard, hrest⟩ := ih (hk _ _ rfl)
    exact ⟨⟨hok, hguard⟩, hrest⟩

/-- On every path the locks at the end are those at the start, in their order. -/
def Keeps (P : List Nat → Nat → Prop) (H : List Nat) (p : Code α) : Prop := OnPaths P H p fun _ H' => H' = H

namespace Keeps
variable {P : List Nat → Nat → Prop} {H : List Nat}

theorem pure (a : α) : Keeps P H (pure a) := rfl

theorem seq {f : α → Code β} {Q : β → List Nat → Prop} (hp : Keeps P H p)
    (hf : ∀ a, OnPaths P H (f a) Q) : OnPaths P H (p >>= f) Q := by
  refine .bind (OnPaths.mono hp ?_)
  rintro a _ rfl
  exact hf a

theorem bind {f : α → Code β} (hp : Keeps P H p) (hf : ∀ a, Keeps P H (f a)) :
    Keeps P H (p >>= f) := hp.seq hf

theorem withLock {l : Nat} (hp : Keeps P (l :: H) p) : Keeps P H (withLock l p) := by
  refine OnPaths.bind (.acquire (hp.seq fun a => .bind (.release ?_)))
  exact List.erase_cons_head ..

theorem call {c : Call} (hheld : c.held H = H) (h : ∀ b, c.block = some b → P H b) :
    Keeps P H (Prog.call c) := ⟨(), h, fun _ _ hs => hs.trans hheld⟩

theorem ecGet (h : P H b) : Keeps P H (ecGet b) :=
  .call rfl fun _ hb => Option.some.inj hb ▸ h

theorem ecPut {d : Block} (h : P H b) : Keeps P H (ecPut b d) :=
  .call rfl fun _ hb => Option.some.inj hb ▸ h

section
variable (hP : ∀ {H b}, b ∈ H → P H b)
include hP

theorem bitOf (b : Nat) : Keeps P H (bitOf b) :=
  .bind (.withLock (.ecGet (hP List.mem_cons_self))) fun _ => .pure _

theorem get (buf : Block) (h : P H b) : Keeps P H (get b buf) := by
  unfold Fs.get
  split
  · refine .bind (.bitOf hP b) fun set => ?_
    split
    · exact .ecGet h
    · exact .pure _
  · exact .ecGet h

theorem put (buf : Block) (h : P H b) : Keeps P H (put b buf false) := by
  rw [Fs.put, if_neg Bool.false_ne_true]
  split
  · refine .bind (.bitOf hP b) fun set => ?_
    split
    · exact .bind (.ecPut h) fun _ => .pure _
    · exact .pure _
  · exact .bind (.ecPut h) fun _ => .pure _

theorem remove (b : Nat) : Keeps P H (remove b) :=
  .withLock (.bind (.ecGet (hP List.mem_cons_self)) fun _ =>
    .bind (.ecPut (hP List.mem_cons_self)) fun _ => .pure _)

theorem putLoop {i last : Nat} {H' : List Nat} (ino : Nat) (buf : Block) (fuel : Nat) (hs : Scanned H i last H') :
    OnPaths P H' (putLoop ino buf fuel i last) fun r H'' => H'' = lockedDown r.2.2 ++ H := by
  induction fuel generalizing i last H' with
  | zero => exact ⟨(), nofun, nofun⟩
  | succ fuel ih =>
    have hacq : OnPaths P H' (if bitmapBlock i ≠ last then Fs.acquire (bitmapBlock i) else Pure.pure ())
        fun _ H'' => H'' = lockedDown (bitmapBlock i) ++ H := by
      split
      next hne => exact .acquire (hs.cross hne).1.symm
      next heq => exact .pure (hs.same (Classical.not_not.mp heq))
    have hmem : bitmapBlock i ∈ lockedDown (bitmapBlock i) ++ H :=
      List.mem_append_left _ (bitmapBlock_mem_lockedDown i)
    unfold Fs.putLoop
    refine .bind (hacq.mono ?_)
    rintro _ _ rfl
    refine Keeps.seq (.ecGet (hP hmem)) fun bits => ?_
    split
    · exact ih Scanned.next
    · refine Keeps.seq (.withLock (.ecPut (hP List.mem_cons_self))) fun ret => ?_
      split
      · exact .pure rfl
      · refine Keeps.seq (.ecPut (hP hmem)) fun ret => ?_
        split
        · exact .pure rfl
        · exact .pure rfl

omit hP in
theorem releaseDown (last : Nat) :
    OnPaths P (lockedDown last ++ H) (releaseDown last) fun _ H' => H' = H := by
  induction last with
  | zero => exact .pure rfl
  | succ last ih =>
    unfold Fs.releaseDown lockedDown
    split
    · refine .bind (.release ?_)
      rw [List.cons_append, List.erase_cons_head]
      exact ih
    · exact .pure rfl

theorem add (b : Nat) (buf : Block) : Keeps P H (Fs.put b buf true) := by
  refine OnPaths.bind (OnPaths.mono (Keeps.putLoop hP b buf _ (.inl ⟨rfl, rfl, rfl⟩)) ?_)
  rintro r _ rfl
  exact .bind ((Keeps.releaseDown r.2.2).mono fun _ _ h => h)

/-- What is built from accesses under locks keeps the locks. -/
theorem of_built {G : Nat → Prop} (h : Built G p) (hG : ∀ b, G b → P H b) : Keeps P H p := by
  induction h with
  | pure a => exact .pure a
  | bind _ _ ihp ihf => exact .bind ihp ihf
  | time => exact .call rfl nofun
  | uninit => exact .call rfl nofun
  | hang => exact ⟨(), nofun, nofun⟩
  | undefinedAccess => exact ⟨(), nofun, nofun⟩
  | ownGet buf hb => exact .get hP buf (hG _ hb)
  | ownPut buf hb => exact .put hP buf (hG _ hb)
  | lockGet b buf => exact .withLock (.get hP buf (hP List.mem_cons_self))
  | lockPut b buf => exact .withLock (.put hP buf (hP List.mem_cons_self))
  | add b buf => exact .add hP b buf
  | remove b => exact .remove hP b

end
end Keeps

/-! ### Every operation -/

/-- The inode that the operation locks first. -/
def Request.ino : Request → Nat
  | .construct => 0
  | .isfile ino | .isdir ino | .issym ino | .getfile ino | .getdir ino | .readdir ino | .setattr ino _ _
  | .read ino _ _ | .write ino _ _ _ | .readlink ino => ino
  | .create parent _ | .lookup parent _ | .mkdir parent _ | .unlink parent _ | .symlink parent _ _ => parent

/-- The blocks that the operation accesses without taking their locks: its own inode, and
for `symlink` also that of the link. -/
def Request.own : Request → Nat → Prop
  | .symlink _ _ _ => fun _ => True
  | req => fun b => b = req.ino

theorem Request.own_ino (req : Request) : req.own req.ino := by
  cases req with
  | symlink parent name link => trivial
  | _ => rfl

section
variable {G : Nat → Prop} {g : Nat}

theorem built_hasMode (hg : G g) (mode : Nat) : ∃ p, hasMode g mode = withLock g p ∧ Built G p :=
  ⟨_, rfl, .bind .uninit fun buf => .bind (.safeGet hg g buf) fun _ => .pure _⟩

theorem built_getattr (hg : G g) (read : Block → α) : ∃ p, getattr g read = withLock g p ∧ Built G p := by
  refine ⟨_, rfl, .bind .uninit fun buf => .bind (.safeGet hg g buf) fun r => ?_⟩
  split
  · exact .pure _
  · split
    · exact .pure _
    · exact .pure _

theorem built_mkdir (hg : G g) (name : List Byte) : ∃ p, mkdir g name 0 = withLock g p ∧ Built G p := by
  refine ⟨_, rfl, .bind .uninit fun buf => .bind (.safeGet hg g buf) fun r => ?_⟩
  refine .bind .time fun ctime => .bind .time fun mtime => .bind (.safePut hg g _ false) fun _ => ?_
  refine .bind (.roomLoop hg _ _ _ _ _ _) fun room => ?_
  cases room with
  | error => exact .pure _
  | dup inum => exact .pure _
  | blank tmp target buf =>
    exact .bind .time fun mtime => .bind .time fun ctime => .bind (.fillEntry hg _ _ _ _ _ _) fun _ => .pure _

theorem built_lookup (hg : G g) (name : List Byte) : ∃ p, lookup g name = withLock g p ∧ Built G p := by
  refine ⟨_, rfl, .bind .uninit fun buf => .bind (.safeGet hg g buf) fun r => ?_⟩
  refine .bind .time fun now => .bind (.safePut hg g _ false) fun ret => ?_
  split
  · exact .pure _
  · exact .lookupLoop hg _ _ _

theorem built_readdir (hg : G g) : ∃ p, readdir g = withLock g p ∧ Built G p := by
  refine ⟨_, rfl, .bind .uninit fun buf => .bind (.safeGet hg g buf) fun r => ?_⟩
  refine .bind .time fun now => .bind (.safePut hg g _ false) fun ret => ?_
  split
  · exact .pure _
  · exact .bind (.readdirLoop hg _ _ _) fun _ => .pure _

theorem built_unlink (hg : G g) (name : List Byte) : ∃ p, unlink g name = withLock g p ∧ Built G p := by
  refine ⟨_, rfl, .bind .uninit fun buf => .bind (.safeGet hg g buf) fun r => ?_⟩
  refine .bind .time fun mtime => .bind .time fun ctime => .bind (.safePut hg g _ false) fun _ => ?_
  refine .bind (.unlinkLoop hg _ _ _ _) fun found => ?_
  split
  · exact .pure _
  · refine .bind (.entryInum _ _) fun unlinkInum => ?_
    split
    · exact .undefinedAccess
    · exact .bind (.safePut hg _ _ false) fun _ => .bind (.recursiveUnlink _ _) fun _ => .pure _

theorem built_readlink (hg : G g) : ∃ p, readlink g = withLock g p ∧ Built G p := by
  refine ⟨_, rfl, .bind .uninit fun buf => .bind (.safeGet hg g buf) fun r => ?_⟩
  split
  · exact .pure _
  · split
    · exact .pure _
    · exact .innerRead hg _ _

theorem built_setattr (hg : G g) (toSet : Bool) (info : FileInfo) :
    ∃ p, setattr g toSet info = withLock g p ∧ Built G p := by
  refine ⟨_, rfl, .bind .uninit fun buf => .bind (.safeGet hg g buf) fun r => .bind ?_ fun buf => ?_⟩
  · split
    · exact .bind (.innerWrite hg _ _ _) fun _ => .pure _
    · exact .pure _
  · exact .bind (.safePut hg g buf false) fun ret => .pure _

/-- `symlink` once `inner_create` has returned: `inner_write` is called for the inode of the
link, and `ignore` is this inode. -/
def linkRest (parent : Nat) (link : List Byte) (r : Status × Nat) : Code (Status × Nat) :=
  if r.1 ≠ .ok then pure (r.1, 0)
  else do
    let ret ← innerWrite r.2 link link.length 0
    if ret.1 ≠ .ok then pure (ret.1, 0)
    else do
      let buf ← uninit
      let got ← safeGet r.2 buf parent
      if got.1 ≠ .ok then pure (ret.1, 0)
      else do
        let put ← safePut r.2 (got.2.setMode 2) false parent
        if put.1 ≠ .ok then pure (ret.1, 0) else pure (ret.1, r.2)

theorem symlink_eq (parent : Nat) (name link : List Byte) : symlink parent name link 0 =
    withLock parent (uninit >>= fun junk => innerCreate parent name (junk.u64 0) >>= linkRest parent link) := rfl

theorem built_linkRest {r : Status × Nat} (hg : G g) (hr : G r.2) (link : List Byte) :
    Built G (linkRest g link r) := by
  unfold linkRest
  split
  · exact .pure _
  · refine .bind (.innerWrite hr _ _ _) fun ret => ?_
    split
    · exact .pure _
    · refine .bind .uninit fun buf => .bind (.safeGet hg r.2 buf) fun got => ?_
      split
      · exact .pure _
      · refine .bind (.safePut hg r.2 _ false) fun put => ?_
        split
        · exact .pure _
        · exact .pure _

end

/-- The constructor and `issym` apart, an operation is one lock around a program made of
accesses under locks. -/
theorem Request.built (req : Request) (hc : req ≠ .construct) (hs : ∀ ino, req ≠ .issym ino) :
    ∃ (α : Type) (p : Code α), req.code = discard (withLock req.ino p) ∧ Built req.own p := by
  have hdone : ∀ {α : Type} {q : Code α}, req.code = discard q →
      (∃ p, q = withLock req.ino p ∧ Built req.own p) →
      ∃ (α : Type) (p : Code α), req.code = discard (withLock req.ino p) ∧ Built req.own p := by
    rintro α _ hcode ⟨p, rfl, hp⟩
    exact ⟨α, p, hcode, hp⟩
  have hino := req.own_ino
  cases req with
  | construct => exact absurd rfl hc
  | issym ino => exact absurd rfl (hs ino)
  | isfile ino => exact hdone rfl (built_hasMode hino 1)
  | isdir ino => exact hdone rfl (built_hasMode hino 0)
  | getfile ino => exact hdone rfl (built_getattr hino _)
  | getdir ino => exact hdone rfl (built_getattr hino _)
  | create parent name => exact hdone rfl ⟨_, rfl, .innerCreate hino _ _⟩
  | lookup parent name => exact hdone rfl (built_lookup hino name)
  | readdir ino => exact hdone rfl (built_readdir hino)
  | setattr ino toSet info => exact hdone rfl (built_setattr hino toSet info)
  | read ino size off => exact hdone rfl ⟨_, rfl, .innerRead hino _ _⟩
  | write ino buf size off => exact hdone rfl ⟨_, rfl, .innerWrite hino _ _ _⟩
  | mkdir parent name => exact hdone rfl (built_mkdir hino name)
  | unlink parent name => exact hdone rfl (built_unlink hino name)
  | symlink parent name link =>
    exact hdone rfl ⟨_, symlink_eq parent name link, .bind .uninit fun junk =>
      .bind (.innerCreate hino _ _) fun r => built_linkRest hino trivial link⟩
  | readlink ino => exact hdone rfl (built_readlink hino)

/-- Where the blocks accessed under no lock of their own satisfy `P`, the operation keeps
its locks. -/
theorem Request.keeps {P : List Nat → Nat → Prop} (hP : ∀ {H b}, b ∈ H → P H b) {H : List Nat} (req : Request)
    (hs : ∀ ino, req ≠ .issym ino) (hown : ∀ b, req.own b → P (req.ino :: H) b) : Keeps P H req.code := by
  by_cases hc : req = .construct
  · have hput : ∀ b d, Keeps P H (withLock b (ecPut b d)) := fun b d => .withLock (.ecPut (hP List.mem_cons_self))
    rw [hc]
    exact .bind (hput _ _) fun _ => .bind (hput _ _) fun _ => .bind (hput _ _) fun _ =>
      .bind (hput _ _) fun _ => .pure _
  · obtain ⟨α, p, hcode, hp⟩ := req.built hc hs
    rw [hcode]
    exact .bind (.withLock (.of_built hP hp hown)) fun _ => .pure _

theorem issym_disciplined (ino : Nat) : Disciplined (Request.issym ino).code := by
  intro H
  have hmem : ∀ {H : List Nat} {b : Nat}, b ∈ H → b ∈ H := fun h => h
  refine .bind (Keeps.seq (.call rfl nofun) fun buf => .bind (.acquire ?_))
  refine Keeps.seq (.get hmem buf List.mem_cons_self) fun r => ?_
  split
  · exact .pure (.pure trivial)
  · exact .bind (.release (.pure (.pure trivial)))

/-- An operation other than `symlink` accesses no block without its lock. -/
theorem Request.disciplined (req : Request) (h : ∀ parent name link, req ≠ .symlink parent name link) :
    Disciplined req.code := by
  by_cases hs : ∃ ino, req = .issym ino
  · obtain ⟨ino, rfl⟩ := hs
    exact issym_disciplined ino
  · intro H
    refine OnPaths.mono (req.keeps (fun h => h) (fun ino hino => hs ⟨ino, hino⟩) fun b hb => ?_) fun _ _ _ => trivial
    have hino : b = req.ino := by
      cases req with
      | symlink parent name link => exact absurd rfl (h parent name link)
      | _ => exact hb
    rw [hino]
    exact List.mem_cons_self

/-! ### Where `symlink` goes without a lock -/

/-- `symlink` has made the inode `tmp`, of which neither it nor its caller has the lock, and
then accesses it. -/
def Request.Exposed (H : List Nat) : Request → List Event → Prop
  | .symlink parent name _, π => ∃ (junk : Block) (tmp : Nat) (π₁ π₂ : List Event),
      π = ⟨.acquire parent, ()⟩ :: ⟨.junk, junk⟩ :: (π₁ ++ π₂) ∧
      Prog.Goes (innerCreate parent name (junk.u64 0)) π₁ (.pure (.ok, tmp)) ∧ tmp ∉ parent :: H ∧
      ∃ e ∈ π₂, e.1.block = some tmp
  | _, _ => False

theorem bitmapBlock_self_ne (hb : outsideBitmap b = true) : bitmapBlock b ≠ b := by
  have := outsideBitmap_iff.mp hb
  unfold bitmapBlock bitmapBegin bitmapPerBlock
  omega

theorem goes_bitOf {tmp : Nat} {f : Bool → Code α} {q : Code α}
    (hgo : Prog.Goes (bitOf tmp >>= f) π q) (hout : outsideBitmap tmp = true) :
    ((∀ e ∈ π, e.1.block ≠ some tmp) ∧ ∀ a, q ≠ .pure a) ∨
      ∃ r π', π = ⟨.acquire (bitmapBlock tmp), ()⟩ :: ⟨.get (bitmapBlock tmp), r⟩ ::
      ⟨.release (bitmapBlock tmp), ()⟩ :: π' ∧ Prog.Goes (f (r.2.bit (tmp % bitmapPerBlock))) π' q := by
  have hne := bitmapBlock_self_ne hout
  cases hgo with
  | nil => exact .inl ⟨by simp, fun _ h => by cases h⟩
  | cons hgo =>
    cases hgo with
    | nil => exact .inl ⟨by simp [Call.block], fun _ h => by cases h⟩
    | cons hgo =>
      cases hgo with
      | nil => exact .inl ⟨by simp [Call.block, hne], fun _ h => by cases h⟩
      | cons hgo => exact .inr ⟨_, _, rfl, hgo⟩

/-- A block that is read with `get` is read without its lock where this is not held. -/
theorem unguarded_of_get {tmp : Nat} {H : List Nat} {buf : Block} {f : Status × Block → Code α} {q : Code α}
    (hgo : Prog.Goes (get tmp buf >>= f) π q) (htmp : tmp ∉ H)
    (hnone : ∀ π', Prog.Goes (f (.noent, buf)) π' q → ∀ e ∈ π', e.1.block ≠ some tmp)
    (hacc : ∃ e ∈ π, e.1.block = some tmp) : ¬ Guarded (fun H b => b ∈ H) H π := by
  have hcall : ∀ {π : List Event}, Prog.Goes (ecGet tmp >>= f) π q → (∃ e ∈ π, e.1.block = some tmp) →
      ¬ Guarded (fun H b => b ∈ H) H π := by
    intro π hgo hacc hguard
    obtain ⟨rfl, -⟩ | ⟨r, π', rfl, -⟩ := hgo.call_cases
    · simp at hacc
    · exact htmp (hguard.1 tmp rfl)
  obtain ⟨e, he, hblock⟩ := hacc
  unfold get at hgo
  split at hgo
  next hout =>
    rw [Prog.bind_assoc] at hgo
    obtain ⟨hbits, -⟩ | ⟨r, π', rfl, hgo'⟩ := goes_bitOf hgo hout
    · exact absurd hblock (hbits e he)
    · have he : e ∈ π' := by
        have hne := bitmapBlock_self_ne hout
        simp only [List.mem_cons] at he
        obtain rfl | rfl | rfl | he := he
        · cases hblock
        · exact absurd (Option.some.inj hblock) hne
        · cases hblock
        · exact he
      rintro ⟨-, -, -, hguard⟩
      split at hgo'
      · have hguard : Guarded (fun H b => b ∈ H) ((bitmapBlock tmp :: H).erase (bitmapBlock tmp)) π' := hguard
        rw [List.erase_cons_head] at hguard
        exact hcall hgo' ⟨e, he, hblock⟩ hguard
      · exact hnone π' hgo' e he hblock
  next => exact hcall hgo ⟨e, he, hblock⟩

section
variable {parent tmp : Nat} {name link : List Byte} {H : List Nat} {π : List Event} {p : Code Unit}

/-- `symlink` from the return of `inner_create` to its end. -/
def linkEnd (parent : Nat) (link : List Byte) (r : Status × Nat) : Code Unit :=
  linkRest parent link r >>= fun _ => release parent >>= fun _ => pure ()

theorem code_symlink : (Request.symlink parent name link).code = acquire parent >>= fun _ => uninit >>= fun junk =>
    innerCreate parent name (junk.u64 0) >>= linkEnd parent link := by
  change discard (symlink parent name link 0) = _
  rw [symlink_eq]
  simp only [discard, withLock, Prog.bind_assoc, Prog.pure_bind]
  rfl

/-- From then on no block is accessed without its lock, but for the new inode. -/
theorem linkEnd_onPaths {P : List Nat → Nat → Prop} (hP : ∀ {H b}, b ∈ H → P H b) {r : Status × Nat}
    (hr : r.1 = .ok → P (parent :: H) r.2) : OnPaths P (parent :: H) (linkEnd parent link r) fun _ _ => True := by
  have hbuilt : Built (fun b => P (parent :: H) b) (linkRest parent link r) := by
    by_cases hok : r.1 = .ok
    · exact built_linkRest (hP List.mem_cons_self) (hr hok) link
    · rw [linkRest, if_pos hok]
      exact .pure _
  exact Keeps.seq (.of_built hP hbuilt fun _ hb => hb) fun _ => .bind (.release (.pure trivial))

/-- `inner_write` starts with `get` of the new inode. -/
theorem linkEnd_unguarded (hgo : Prog.Goes (linkEnd parent link (.ok, tmp)) π p) (htmp : tmp ∉ H)
    (hacc : ∃ e ∈ π, e.1.block = some tmp) : ¬ Guarded (fun H b => b ∈ H) H π := by
  have hself : ∀ buf, safeGet tmp buf tmp = get tmp buf := fun _ => if_pos rfl
  rw [linkEnd, linkRest, if_neg fun hne => hne rfl, innerWrite] at hgo
  simp only [Prog.bind_assoc, hself] at hgo
  obtain ⟨rfl, -⟩ | ⟨_, π₁, rfl, hgo₁⟩ := hgo.call_cases
  · simp at hacc
  obtain ⟨rfl, -⟩ | ⟨_, π₂, rfl, hgo₂⟩ := hgo₁.call_cases
  · simp [Call.block] at hacc
  rintro ⟨-, -, hguard⟩
  refine unguarded_of_get hgo₂ htmp (fun π' hgo' => ?_) (by simpa [Call.block] using hacc) hguard
  -- The bit is clear, and what is left is the release of the parent.
  rw [if_pos rfl] at hgo'
  cases hgo' with
  | nil => simp
  | cons hgo' =>
    cases hgo'
    simp [Call.block]

end

/-- **An operation accesses every block with its lock held**, on every path, but where
`symlink` accesses the inode it has made without having its lock. -/
theorem lock_discipline (req : Request) (H : List Nat) {π : List Event} {p : Code Unit}
    (hgo : Prog.Goes req.code π p) : Guarded (fun H b => b ∈ H) H π ↔ ¬ req.Exposed H π := by
  by_cases hs : ∃ parent name link, req = .symlink parent name link
  · obtain ⟨parent, name, link, rfl⟩ := hs
    rw [code_symlink] at hgo
    obtain ⟨rfl, -⟩ | ⟨_, π', rfl, hgo'⟩ := hgo.call_cases
    · exact iff_of_true trivial (by simp [Request.Exposed])
    clear hgo
    obtain ⟨rfl, -⟩ | ⟨junk, π, rfl, hgo⟩ := hgo'.call_cases
    · exact iff_of_true ⟨nofun, trivial⟩ (by simp [Request.Exposed])
    have hcreate : Keeps (fun H b => b ∈ H) (parent :: H) (innerCreate parent name (junk.u64 0)) :=
      .of_built (fun h => h) (Built.innerCreate (G := fun b => b = parent) rfl _ _) fun b hb => hb ▸ List.mem_cons_self
    constructor
    · rintro ⟨-, -, hguard⟩ ⟨junk', tmp, π₁, π₂, heq, hic, htmp, hacc⟩
      cases heq
      have hrest := (hic.bind (linkEnd parent link)).rest hgo
      have hheld : heldAfter (parent :: H) π₁ = parent :: H := (hcreate.goes hic).2
      refine linkEnd_unguarded hrest htmp hacc ?_
      rw [← hheld]
      exact (guarded_append.mp hguard).2
    · refine fun hex => ⟨nofun, nofun, ?_⟩
      change Guarded _ (parent :: H) π
      obtain ⟨p', hic⟩ | ⟨π₁, π₂, r, rfl, hic, hend⟩ := hgo.bind_cases
      · exact (hcreate.goes hic).1
      · have hheld : heldAfter (parent :: H) π₁ = parent :: H := (hcreate.goes hic).2
        refine guarded_append.mpr ⟨(hcreate.goes hic).1, ?_⟩
        rw [hheld]
        have hpaths : OnPaths (fun H' b => b ∈ H' ∨ (r.1 = .ok ∧ r.2 ∉ parent :: H) ∧ b = r.2) (parent :: H)
            (linkEnd parent link r) fun _ _ => True := by
          refine linkEnd_onPaths .inl fun hok => ?_
          by_cases htmp : r.2 ∈ parent :: H
          · exact .inl htmp
          · exact .inr ⟨⟨hok, htmp⟩, rfl⟩
        refine (hpaths.goes hend).1.imp fun H' b hacc hb => hb.resolve_right ?_
        rintro ⟨⟨hok, htmp⟩, rfl⟩
        refine hex ⟨junk, r.2, π₁, π₂, rfl, ?_, htmp, hacc⟩
        rwa [← hok]
  · have hnot : ¬ req.Exposed H π := by
      intro hex
      cases req with
      | symlink parent name link => exact hs ⟨parent, name, link, rfl⟩
      | _ => exact hex
    refine iff_of_true ?_ hnot
    exact (((req.disciplined fun parent name link h => hs ⟨parent, name, link, h⟩) H).goes hgo).1

/-- A file is created on the mounted disk. -/
theorem lock_discipline_create :
    ∃ w w' π, mount still = some w ∧ Prog.run World.answer (Request.create 1 [120]).code w = some ((), w') ∧
      Prog.Goes (Request.create 1 [120]).code π (.pure ()) ∧ Guarded (fun H b => b ∈ H) [] π := by
  have hrun : (mount still).any (fun w => (Prog.run World.answer (Request.create 1 [120]).code w).isSome) = true := by
    decide +kernel
  simp only [Option.any_eq_true, Option.isSome_iff_exists] at hrun
  obtain ⟨w, hw, x, hx⟩ := hrun
  obtain ⟨π, hπ⟩ := Prog.exists_goes hx
  exact ⟨w, x.2, π, hw, hx, hπ, (lock_discipline _ [] hπ).mpr fun h => h⟩

/-- The world in which an access without its lock gets no answer. -/
def World.strict (c : Call) (w : World) : Option (c.Answer × World) :=
  if ∀ b, c.block = some b → b ∈ w.held then World.answer c w else none

theorem World.answer_held {c : Call} {w w' : World} {r : c.Answer} (h : World.answer c w = some (r, w')) :
    w'.held = c.held w.held := by
  cases c with
  | acquire l =>
    rw [World.answer] at h
    split at h
    · cases h
    · cases h
      rfl
  | release l =>
    rw [World.answer] at h
    split at h
    · cases h
      rfl
    · cases h
  | hang => cases h
  | undefined => cases h
  | _ =>
    cases h
    rfl

/-- A disciplined program does not notice the difference. -/
theorem Disciplined.strict (hp : Disciplined p) (w : World) :
    Prog.run World.strict p w = Prog.run World.answer p w := by
  have hpath := hp w.held
  unfold OnPaths at hpath
  clear hp
  induction p generalizing w with
  | pure a => rfl
  | op c k ih =>
    obtain ⟨_, hok, hk⟩ := hpath
    have hans : World.strict c w = World.answer c w := if_pos hok
    rw [Prog.run, Prog.run, hans]
    cases h : World.answer c w with
    | none => rfl
    | some x => exact ih x.1 x.2 (hk x.1 _ (World.answer_held h))

/-- `symlink` returns on the mounted disk, and on the way it accesses the inode of the
link without its lock. -/
theorem symlink_unlocked :
    ∃ w, mount still = some w ∧
      (Prog.run World.answer (Request.symlink 1 [108] [116]).code w).isSome ∧
      Prog.run World.strict (Request.symlink 1 [108] [116]).code w = none ∧
      ¬ Disciplined (Request.symlink 1 [108] [116]).code := by
  have hrun : (mount still).any (fun w =>
      (Prog.run World.answer (Request.symlink 1 [108] [116]).code w).isSome &&
        (Prog.run World.strict (Request.symlink 1 [108] [116]).code w).isNone) = true := by
    decide +kernel
  simp only [Option.any_eq_true, Bool.and_eq_true, Option.isNone_iff_eq_none] at hrun
  obtain ⟨w, hw, hsome, hnone⟩ := hrun
  refine ⟨w, hw, hsome, hnone, fun hd => ?_⟩
  rw [← hd.strict, hnone] at hsome
  cases hsome

/-! ### The locks at the end -/

/-- What `ec->get` has answered, and for which blocks. -/
def reads (π : List Event) : List (Nat × Status × Block) :=
  π.filterMap fun
    | ⟨.get b, r⟩ => some (b, r)
    | _ => none

/-- `issym` does not find its inode: its bit is clear, or `ec->get` fails. -/
def Request.Missed : Request → List Event → Prop
  | .issym ino, π => ∃ x ∈ reads π,
      (outsideBitmap ino = true ∧ x.1 = bitmapBlock ino ∧ x.2.2.bit (ino % bitmapPerBlock) = false) ∨
        (x.1 = ino ∧ x.2.1 ≠ .ok)
  | _, _ => False

theorem missed_iff {ino : Nat} {l : List (Nat × Status × Block)} (h : reads π = l) :
    (Request.issym ino).Missed π ↔ ∃ x ∈ l,
      (outsideBitmap ino = true ∧ x.1 = bitmapBlock ino ∧ x.2.2.bit (ino % bitmapPerBlock) = false) ∨
        (x.1 = ino ∧ x.2.1 ≠ .ok) := by
  rw [← h]
  rfl

/-- `issym` from the return of `get` to its end. -/
def symEnd (ino : Nat) (r : Status × Block) : Code Unit :=
  discard (if r.1 ≠ .ok then pure false else do
    release ino
    pure (decide (r.2.mode = 2)))

theorem code_issym (ino : Nat) : (Request.issym ino).code =
    uninit >>= fun buf => acquire ino >>= fun _ => get ino buf >>= symEnd ino := by
  change discard (issym ino) = _
  simp only [discard, issym, Prog.bind_assoc]
  rfl

theorem goes_symEnd {ino : Nat} {H : List Nat} {r : Status × Block}
    (hgo : Prog.Goes (symEnd ino r) π (.pure ())) :
    ((heldAfter (ino :: H) π).Perm H ↔ r.1 = .ok) ∧ reads π = [] := by
  unfold symEnd at hgo
  split at hgo
  next hne =>
    cases hgo
    refine ⟨iff_of_false (fun h => ?_) hne, rfl⟩
    have hlen := h.length_eq
    simp [heldAfter] at hlen
  next heq =>
    cases hgo with
    | cons hgo =>
      cases hgo
      refine ⟨iff_of_true ?_ (Classical.not_not.mp heq), rfl⟩
      simp [heldAfter, Call.held]

/-- `issym` keeps its lock exactly where it does not find its inode. -/
theorem issym_balance {ino : Nat} {H : List Nat}
    (hgo : Prog.Goes (Request.issym ino).code π (.pure ())) :
    (heldAfter H π).Perm H ↔ ¬ (Request.issym ino).Missed π := by
  rw [code_issym] at hgo
  obtain ⟨buf, π₁, rfl, h₁⟩ := hgo.call_end
  obtain ⟨_, π₂, rfl, h₂⟩ := h₁.call_end
  unfold get at h₂
  split at h₂
  next hout =>
    have hne := bitmapBlock_self_ne hout
    rw [Prog.bind_assoc] at h₂
    obtain ⟨-, h⟩ | ⟨bits, π₃, rfl, h₃⟩ := goes_bitOf h₂ hout
    · exact absurd rfl (h ())
    change (heldAfter ((bitmapBlock ino :: ino :: H).erase (bitmapBlock ino)) π₃).Perm H ↔ _
    rw [List.erase_cons_head]
    split at h₃
    next hbit =>
      obtain ⟨r, π₄, rfl, h₄⟩ := Prog.Goes.call_end h₃
      obtain ⟨hend, hreads⟩ := goes_symEnd (H := H) h₄
      refine Iff.trans hend (Iff.trans ?_ (not_congr (missed_iff (l := [(bitmapBlock ino, bits), (ino, r)]) ?_).symm))
      · simp [hbit, hne, hne.symm]
      · exact congrArg (fun l => (bitmapBlock ino, bits) :: (ino, r) :: l) hreads
    next hbit =>
      obtain ⟨hend, hreads⟩ := goes_symEnd (H := H) h₃
      refine Iff.trans hend (Iff.trans ?_ (not_congr (missed_iff (l := [(bitmapBlock ino, bits)]) ?_).symm))
      · simp [hout, hbit]
      · exact congrArg (fun l => (bitmapBlock ino, bits) :: l) hreads
  next hin =>
    obtain ⟨r, π₃, rfl, h₃⟩ := Prog.Goes.call_end h₂
    obtain ⟨hend, hreads⟩ := goes_symEnd (H := H) h₃
    refine Iff.trans hend (Iff.trans ?_ (not_congr (missed_iff (l := [(ino, r)]) ?_).symm))
    · simp [hin]
    · exact congrArg (fun l => (ino, r) :: l) hreads

/-- **An operation returns with the locks it was called with**, on every path, but where
`issym` does not find its inode; and so does `put` with `add`, however far it has to look
for a clear bit. -/
theorem lock_balance (H : List Nat) :
    (∀ (req : Request) (π : List Event), Prog.Goes req.code π (.pure ()) →
      ((heldAfter H π).Perm H ↔ ¬ req.Missed π)) ∧
    ∀ ino buf π r, Prog.Goes (put ino buf true) π (.pure r) → (heldAfter H π).Perm H := by
  refine ⟨fun req π hgo => ?_, fun ino buf π r hgo => ?_⟩
  · by_cases hs : ∃ ino, req = .issym ino
    · obtain ⟨ino, rfl⟩ := hs
      exact issym_balance hgo
    · have hnot : ¬ req.Missed π := by
        intro hmiss
        cases req with
        | issym ino => exact hs ⟨ino, rfl⟩
        | _ => exact hmiss
      have hkeeps : Keeps (fun _ _ => True) H req.code :=
        req.keeps (fun _ => trivial) (fun ino h => hs ⟨ino, h⟩) fun _ _ => trivial
      exact iff_of_true (.of_eq (hkeeps.goes hgo).2) hnot
  · have hkeeps : Keeps (fun _ _ => True) H (put ino buf true) := Keeps.add (fun _ => trivial) ino buf
    exact .of_eq (hkeeps.goes hgo).2

/-- An `unlink` that does not find its name. -/
theorem lock_balance_unlink :
    ∃ w w' π, mount still = some w ∧ Prog.run World.answer (Request.unlink 1 [120]).code w = some ((), w') ∧
      Prog.Goes (Request.unlink 1 [120]).code π (.pure ()) ∧ (heldAfter [5] π).Perm [5] := by
  have hrun : (mount still).any (fun w => (Prog.run World.answer (Request.unlink 1 [120]).code w).isSome) = true := by
    decide +kernel
  simp only [Option.any_eq_true, Option.isSome_iff_exists] at hrun
  obtain ⟨w, hw, x, hx⟩ := hrun
  obtain ⟨π, hπ⟩ := Prog.exists_goes hx
  exact ⟨w, x.2, π, hw, hx, hπ, ((lock_balance [5]).1 _ π hπ).mpr fun h => h⟩

/-- `issym` of a block that is not in use returns with its lock held. -/
theorem issym_keeps_lock :
    ∃ w w', mount still = some w ∧ w.held = [] ∧
      Prog.run World.answer (Request.issym 2).code w = some ((), w') ∧ w'.held = [2] := by
  obtain ⟨w, hw, hheld, x, hx, hheld'⟩ : ∃ w, mount still = some w ∧ w.held = [] ∧
      ∃ x, Prog.run World.answer (Request.issym 2).code w = some x ∧ x.2.held = [2] := by decide +kernel
  exact ⟨w, x.2, hw, hheld, hx, hheld'⟩

end Yfs.Fs

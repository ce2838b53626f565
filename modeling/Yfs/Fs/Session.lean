import Mathlib.Algebra.GroupWithZero.Nat
import Mathlib.Order.Interval.Finset.Nat
import Yfs.Base.Runs
import Yfs.Fs.Disk

/-! Sessions of one client, from the disk that the constructor leaves.

A session is a run of `create`, `mkdir`, `symlink`, `write`, `setattr` and `unlink`, one
call after the other. What a caller owes is `Op.ok`, a condition on the disk before the
call: the parent is a directory, the inode is a file, the name is a new one, what is
unlinked is no directory, and as many blocks are free as the call takes. Every call then
returns and leaves a sound disk (`disk_sound`). No block is leaked where `setattr` is not
called to write a size past the blocks of the first node (`no_leak`). -/
namespace Yfs.Fs
open Yfs.Base
open Function (update update_of_ne update_self)

/-! ### The calls -/

inductive Op where
  | create (parent : Nat) (name : List Byte)
  | mkdir (parent : Nat) (name : List Byte)
  | symlink (parent : Nat) (name link : List Byte)
  | write (ino : Nat) (buf : List Byte) (size : Nat) (off : Int)
  | setattr (ino : Nat) (toSet : Bool) (info : FileInfo)
  | unlink (parent : Nat) (name : List Byte)

/-- The status, and the inode number where the function has one to return. -/
def Op.code : Op → Code (Status × Nat)
  | .create parent name => Fs.create parent name 0
  | .mkdir parent name => Fs.mkdir parent name 0
  | .symlink parent name link => Fs.symlink parent name link 0
  | .write ino buf size off => do
    let r ← Fs.write ino buf size off
    pure (r.1, ino)
  | .setattr ino toSet info => do
    let r ← Fs.setattr ino toSet info
    pure (r, ino)
  | .unlink parent name => do
    let r ← Fs.unlink parent name
    pure (r, 0)

def Op.step (w : World) (op : Op) : Option World := (Prog.run World.answer op.code w).map Prod.snd

/-- A client on blocks that were never written. -/
def blank (clock : Nat → Nat) (junk : Nat → Block) : World := ⟨fun _ => Bytes.zero, [], clock, junk, 0⟩

def mount (w : World) : Option World := (Prog.run World.answer yfsClient w).map Prod.snd

/-! ### What a caller owes -/

def IsDir (disk : Nat → Block) (ino : Nat) : Prop := Node disk ino ino ∧ (disk ino).mode = 0

def IsFile (disk : Nat → Block) (ino : Nat) : Prop := Node disk ino ino ∧ (disk ino).mode ≠ 0

/-- Node `n` of the directory has an entry with this name at `i`. -/
def HasName (disk : Nat → Block) (parent : Nat) (name : List Byte) (n i : Nat) : Prop :=
  Node disk parent n ∧ i < (disk n).size ∧ (disk n).name i = cStr name

/-- The name is one of 1 to 63 bytes that the directory has not. -/
def NewName (disk : Nat → Block) (parent : Nat) (name : List Byte) : Prop :=
  0 < name.length ∧ name.length ≤ 63 ∧ ∀ n i, ¬ HasName disk parent name n i

/-- The blocks that a new entry takes in a directory with these nodes: one for the new
inode, and a node where all of them are full. -/
def entryNeed (disk : Nat → Block) (nodes : List Nat) : Nat :=
  if ∀ n ∈ nodes, dirEntryNum ≤ (disk n).size then 2 else 1

/-- How many of `direct_blocks` are not zero. -/
def Block.directCount (b : Block) : Nat := (List.range directBlockNum).countP fun i => decide (b.direct i ≠ 0)

def blockCount (disk : Nat → Block) (nodes : List Nat) : Nat := (nodes.map fun n => (disk n).directCount).sum

/-- The blocks that writing up to block `p` takes in a file with these nodes. -/
def writeNeed (disk : Nat → Block) (nodes : List Nat) (p : Nat) : Nat :=
  taken nodes.length (blockCount disk nodes) p

/-- The condition under which a client makes the call. -/
def Op.ok (w : World) : Op → Prop
  | .create parent name | .mkdir parent name =>
    IsDir w.disk parent ∧ NewName w.disk parent name ∧
      ∀ nodes, Chain w.disk parent nodes → entryNeed w.disk nodes ≤ w.vol.free
  | .symlink parent name link =>
    IsDir w.disk parent ∧ NewName w.disk parent name ∧
      ∀ nodes, Chain w.disk parent nodes →
        entryNeed w.disk nodes + taken 1 0 (lastBlock 0 link.length) ≤ w.vol.free
  | .write ino buf size off =>
    IsFile w.disk ino ∧ size ≤ buf.length ∧ (size = 0 ∨ 0 ≤ off) ∧
      ∀ nodes, Chain w.disk ino nodes → writeNeed w.disk nodes (lastBlock off size) ≤ w.vol.free
  | .setattr ino toSet info =>
    IsFile w.disk ino ∧ (toSet = true →
      ∀ nodes, Chain w.disk ino nodes → writeNeed w.disk nodes (lastBlock (toSigned info.size) 0) ≤ w.vol.free)
  | .unlink parent name =>
    IsDir w.disk parent ∧ 0 < name.length ∧ name.length ≤ 63 ∧
      ∀ n i, HasName w.disk parent name n i → (w.disk ((w.disk n).inum i)).mode ≠ 0

/-- What `setattr` is asked to write is there already, or not in the first node: block `p`
of the file is one the first node has, or another node follows. -/
def Op.keeps (w : World) : Op → Prop
  | .setattr ino true info =>
    (w.disk ino).next ≠ 0 ∨
      lastBlock (toSigned info.size) 0 < directBlockNum ∧
        (w.disk ino).direct (lastBlock (toSigned info.size) 0) ≠ 0
  | _ => True

/-! ### What a caller owes, in the tree -/

section
variable {disk : Nat → Block} {fs : Tree} {p ino : Nat} {name : List Byte}

namespace Rep

theorem isDir (hr : Rep (volOf disk) fs) (h : IsDir disk p) : ∃ ns, fs p = some (.dir ns) := by
  obtain ⟨o, ho, -⟩ := hr.of_node h.1
  obtain ⟨ns, rfl⟩ := hr.dir_of_mode ho h.2
  exact ⟨ns, ho⟩

theorem isFile (hr : Rep (volOf disk) fs) (h : IsFile disk ino) : ∃ ns, fs ino = some (.file ns) := by
  obtain ⟨o, ho, -⟩ := hr.of_node h.1
  obtain ⟨ns, rfl⟩ := hr.file_of_mode ho h.2
  exact ⟨ns, ho⟩

variable {ns : Nodes Entry} {nsf : Nodes Nat}

theorem hasName_of_mem (hr : Rep (volOf disk) fs) (ho : fs p = some (.dir ns)) {e : Entry} (he : e ∈ itemsOf ns)
    (hname : e.1 = cStr name) : ∃ n i, HasName disk p name n i ∧ (disk n).inum i = e.2 := by
  obtain ⟨n, i, hat⟩ := exists_at he
  obtain ⟨hn, hi, rfl⟩ := (hr.entry_at ho).mp hat
  exact ⟨n, i, ⟨hr.node_of_mem ho (hr.node_self ho) hn, hi, hname⟩, rfl⟩

theorem newName (hr : Rep (volOf disk) fs) (ho : fs p = some (.dir ns)) (h : NewName disk p name) :
    ∀ e ∈ itemsOf ns, e.1 ≠ cStr name := by
  intro e he hname
  obtain ⟨n, i, hn, -⟩ := hr.hasName_of_mem ho he hname
  exact h.2.2 n i hn

theorem entryNeed_eq (hr : Rep (volOf disk) fs) (ho : fs p = some (.dir ns)) :
    entryNeed disk (nodesOf ns) = roomCost ns + 1 := by
  have hiff : (∀ n ∈ nodesOf ns, dirEntryNum ≤ (disk n).size) ↔ AllFull ns := by
    constructor
    · intro h x hx
      have hsize := (hr.dirShows_of_mem ho hx).size
      rw [← hsize]
      exact h x.1 (List.mem_map.mpr ⟨x, hx, rfl⟩)
    · intro h n hn
      obtain ⟨es, hes⟩ := mem_nodesOf hn
      rw [(hr.dirShows_of_mem ho hes).size]
      exact h (n, es) hes
  unfold entryNeed roomCost
  by_cases hfull : AllFull ns
  · rw [if_pos hfull, if_pos (hiff.mpr hfull)]
  · rw [if_neg hfull, if_neg fun h => hfull (hiff.mp h)]

theorem directCount_eq {b : Block} {ds : List Nat} (h : FileShows b ds) (hds : ∀ d ∈ ds, d ≠ 0) :
    b.directCount = ds.length := by
  have hfits := h.fits
  have hsplit : List.range directBlockNum =
      List.range ds.length ++ (List.range (16 - ds.length)).map (ds.length + ·) := by
    rw [← List.range_add]
    congr 1
    unfold directBlockNum
    omega
  have hfirst : (List.range ds.length).countP (fun i => decide (b.direct i ≠ 0)) = ds.length := by
    conv_rhs => rw [← List.length_range (n := ds.length)]
    rw [List.countP_eq_length]
    intro i hi
    rw [List.mem_range] at hi
    rw [decide_eq_true_eq, h.direct i (by omega), List.getD_eq_getElem _ _ hi]
    exact hds _ (List.getElem_mem hi)
  have hrest : ((List.range (16 - ds.length)).map (ds.length + ·)).countP (fun i => decide (b.direct i ≠ 0)) = 0 := by
    rw [List.countP_eq_zero]
    intro i hi
    obtain ⟨j, hj, rfl⟩ := List.mem_map.mp hi
    rw [List.mem_range] at hj
    rw [decide_eq_true_eq, h.direct _ (by omega), List.getD_eq_default _ _ (by omega)]
    exact fun hne => hne rfl
  rw [Block.directCount, hsplit, List.countP_append, hfirst, hrest, Nat.add_zero]

theorem blockCount_eq (hr : Rep (volOf disk) fs) (ho : fs ino = some (.file nsf)) :
    blockCount disk (nodesOf nsf) = (itemsOf nsf).length := by
  have hcount : ∀ x ∈ nsf, (disk x.1).directCount = x.2.length := by
    intro x hx
    refine directCount_eq (hr.fileShows_of_mem ho hx) fun d hd => hr.laid.ne_zero ho (List.mem_append_right _ ?_)
    exact List.mem_flatMap.mpr ⟨x, hx, hd⟩
  have hmap : nsf.map (fun x => (disk x.1).directCount) = nsf.map fun x => x.2.length := List.map_congr_left hcount
  have hnodes : (nodesOf nsf).map (fun n => (disk n).directCount) = nsf.map fun x => (disk x.1).directCount := by
    simp only [nodesOf, List.map_map, Function.comp_def]
  rw [blockCount, hnodes, hmap, itemsOf, List.length_flatMap]

theorem writeNeed_eq (hr : Rep (volOf disk) fs) (ho : fs ino = some (.file nsf)) (q : Nat) :
    writeNeed disk (nodesOf nsf) q = taken nsf.length (itemsOf nsf).length q := by
  rw [writeNeed, hr.blockCount_eq ho, nodesOf, List.length_map]

/-- The first node of the file is followed by another, or it has block `q`. -/
theorem keepsBlocks (hr : Rep (volOf disk) fs) (ho : fs ino = some (.file nsf)) {q : Nat}
    (h : (disk ino).next ≠ 0 ∨ q < directBlockNum ∧ (disk ino).direct q ≠ 0) : KeepsBlocks nsf q := by
  have hhead := (hr.laid.shows ho).head
  cases nsf with
  | nil => cases hhead
  | cons x rest =>
    obtain ⟨n, ds⟩ := x
    obtain rfl : n = ino := Option.some.inj hhead
    cases h with
    | inl hnext =>
      refine .inl ?_
      have hrest : rest ≠ [] := by
        rintro rfl
        exact hnext (hr.next_at ho (Nat.zero_lt_succ 0))
      rw [List.length_cons]
      have := List.length_pos_iff.mpr hrest
      omega
    | inr hq =>
      refine .inr ?_
      have hdirect := (hr.fileShows_of_mem ho List.mem_cons_self).direct q hq.1
      rw [itemsOf_cons, List.length_append]
      by_contra hge
      rw [List.getD_eq_default _ _ (by omega)] at hdirect
      exact hq.2 hdirect

end Rep
end

/-! ### Names -/

section
variable {ns ns' : Nodes Entry} {s : List Byte} {i : Nat}

theorem nodup_names_insert (h : ((itemsOf ns).map Prod.fst).Nodup) (hno : ∀ e ∈ itemsOf ns, e.1 ≠ s)
    (hperm : (itemsOf ns').Perm ((s, i) :: itemsOf ns)) : ((itemsOf ns').map Prod.fst).Nodup := by
  rw [(hperm.map Prod.fst).nodup_iff, List.map_cons, List.nodup_cons]
  refine ⟨fun hm => ?_, h⟩
  obtain ⟨e, he, hes⟩ := List.mem_map.mp hm
  exact hno e he hes

/-- An entry less keeps the names distinct, and none of the others has its name. -/
theorem nodup_names_erase (h : ((itemsOf ns).map Prod.fst).Nodup)
    (hperm : (itemsOf ns).Perm ((s, i) :: itemsOf ns')) :
    s ∉ (itemsOf ns').map Prod.fst ∧ ((itemsOf ns').map Prod.fst).Nodup := by
  rw [(hperm.map Prod.fst).nodup_iff, List.map_cons, List.nodup_cons] at h
  exact h

end

def DistinctNames (fs : Tree) : Prop := ∀ p ns, fs p = some (.dir ns) → ((itemsOf ns).map Prod.fst).Nodup

namespace DistinctNames
variable {fs : Tree} {p : Nat} {ns ns' : Nodes Entry}

theorem update {o : Option Obj} (h : DistinctNames fs) (i : Nat)
    (ho : ∀ ns, o = some (.dir ns) → ((itemsOf ns).map Prod.fst).Nodup) : DistinctNames (Function.update fs i o) := by
  intro q ns hq
  by_cases hqi : q = i
  · rw [hqi, update_self] at hq
    exact ho ns hq
  · rw [update_of_ne hqi] at hq
    exact h q ns hq

theorem erase (h : DistinctNames fs) (i : Nat) : DistinctNames (Function.update fs i none) := h.update i nofun

theorem file (h : DistinctNames fs) (i : Nat) (nsf : Nodes Nat) :
    DistinctNames (Function.update fs i (some (.file nsf))) := by
  refine h.update i ?_
  rintro _ ⟨⟩

theorem dir (h : DistinctNames fs) (i : Nat) (hns : ((itemsOf ns).map Prod.fst).Nodup) :
    DistinctNames (Function.update fs i (some (.dir ns))) := by
  refine h.update i ?_
  rintro _ ⟨⟩
  exact hns

theorem insert {fs₀ : Tree} {s : List Byte} {i : Nat} (h : DistinctNames fs) (ho : fs₀ p = some (.dir ns))
    (hno : ∀ e ∈ itemsOf ns, e.1 ≠ s) (h₀ : DistinctNames fs₀) (hperm : (itemsOf ns').Perm ((s, i) :: itemsOf ns)) :
    DistinctNames (Function.update fs p (some (.dir ns'))) :=
  h.dir p (nodup_names_insert (h₀ p ns ho) hno hperm)

end DistinctNames

/-! ### One call -/

section
variable {w : World} {fs : Tree}

/-- The call returns, and the world after it holds a tree again, with no more leaked than
before where the call keeps what it takes. -/
def Op.Serves (w : World) (fs : Tree) (op : Op) : Prop :=
  ∃ w', op.step w = some w' ∧ w'.held = [] ∧ ∃ fs', Rep w'.vol fs' ∧
    (op.keeps w → ∀ b, Leaked w'.vol fs' b → Leaked w.vol fs b)

theorem Op.serves_of_does {op : Op} (hw : w.held = []) (h : Does [] w.vol op.code fun _ v' => ∃ fs', Rep v' fs' ∧
    (op.keeps w → ∀ b, Leaked v' fs' b → Leaked w.vol fs b)) : op.Serves w fs := by
  obtain ⟨r, w', hrun, hheld, hq⟩ := h w hw rfl
  exact ⟨w', by rw [Op.step, hrun]; rfl, hheld, hq⟩

/-- A directory that may get an entry is in the tree, and there is room for the entry. -/
theorem Rep.entry_room {p : Nat} (hr : Rep w.vol fs) (hdir : IsDir w.disk p) (more : Nat)
    (hfree : ∀ nodes, Chain w.disk p nodes → entryNeed w.disk nodes + more ≤ w.vol.free) :
    ∃ ns, fs p = some (.dir ns) ∧ roomCost ns + 1 + more ≤ w.vol.free := by
  obtain ⟨ns, ho⟩ := hr.isDir hdir
  have hneed := hfree _ (hr.chain_self ho)
  rw [Obj.nodes, hr.entryNeed_eq ho] at hneed
  exact ⟨ns, ho, hneed⟩

/-- What a call that a caller may make does to the tree: no more is leaked where the call
keeps what it takes, and no directory gets one name twice. -/
theorem Op.does {op : Op} (hr : Rep w.vol fs) (hok : op.ok w) :
    Does [] w.vol op.code fun _ v' => ∃ fs', Rep v' fs' ∧
      (op.keeps w → ∀ b, Leaked v' fs' b → Leaked w.vol fs b) ∧ (DistinctNames fs → DistinctNames fs') := by
  cases op with
  | create parent name =>
    obtain ⟨hdir, hname, hfree⟩ := hok
    obtain ⟨ns, ho, hneed⟩ := hr.entry_room hdir 0 hfree
    refine (create_does hr ho hname.2.1 (hr.newName ho hname) hneed).mono ?_
    rintro r v' ⟨i, ns', -, hm⟩
    exact ⟨_, hm.rep, fun _ => hm.leak, fun hd => (hd.file i _).insert ho (hr.newName ho hname) hd hm.entries⟩
  | mkdir parent name =>
    obtain ⟨hdir, hname, hfree⟩ := hok
    obtain ⟨ns, ho, hneed⟩ := hr.entry_room hdir 0 hfree
    refine (mkdir_does hr ho hname.2.1 hneed).mono ?_
    rintro r v' ⟨i, ns', -, hm⟩
    refine ⟨_, hm.rep, fun _ => hm.leak, fun hd => ?_⟩
    have hnew : ((itemsOf [(i, ([] : List Entry))]).map Prod.fst).Nodup := List.nodup_nil
    exact (hd.dir i hnew).insert ho (hr.newName ho hname) hd hm.entries
  | symlink parent name link =>
    obtain ⟨hdir, hname, hfree⟩ := hok
    obtain ⟨ns, ho, hneed⟩ := hr.entry_room hdir _ hfree
    refine (symlink_does hr ho hname.2.1 (hr.newName ho hname) hneed).mono ?_
    rintro r v' ⟨i, nsf, ns', -, -, hrep, hperm, hleak⟩
    exact ⟨_, hrep, fun _ => hleak, fun hd => (hd.file i _).insert ho (hr.newName ho hname) hd hperm⟩
  | write ino buf size off =>
    obtain ⟨hfile, hbuf, hoff, hfree⟩ := hok
    obtain ⟨ns, ho⟩ := hr.isFile hfile
    have hneed := hfree _ (hr.chain_self ho)
    rw [Obj.nodes, hr.writeNeed_eq ho] at hneed
    refine Does.bind ((write_does hr ho hoff hbuf hneed).mono ?_)
    rintro r v' ⟨-, ns', hg⟩
    exact Does.pure ⟨_, hg.rep, fun _ => hg.leak, fun hd => hd.file ino ns'⟩
  | setattr ino toSet info =>
    obtain ⟨hfile, hfree⟩ := hok
    obtain ⟨ns, ho⟩ := hr.isFile hfile
    have hneed : toSet = true → taken ns.length (itemsOf ns).length (lastBlock (toSigned info.size) 0)
      ≤ w.vol.free := by
      intro hset
      have hneed := hfree hset _ (hr.chain_self ho)
      rwa [Obj.nodes, hr.writeNeed_eq ho] at hneed
    refine Does.bind ((setattr_does hr ho hneed).mono ?_)
    rintro r v' ⟨-, ns', hrep, hleak⟩
    refine Does.pure ⟨_, hrep, fun hkeeps => hleak fun hset => ?_, fun hd => hd.file ino ns'⟩
    subst hset
    exact hr.keepsBlocks ho hkeeps
  | unlink parent name =>
    obtain ⟨hdir, -, hlen, hfile⟩ := hok
    obtain ⟨ns, ho⟩ := hr.isDir hdir
    refine Does.bind ((unlink_does hr ho (validName_cStr hlen).comparable ?_).mono ?_)
    · intro e he hname
      obtain ⟨n, i, hn, heq⟩ := hr.hasName_of_mem ho he hname
      have hmode := hfile n i hn
      rw [heq] at hmode
      obtain ⟨o, hkid⟩ := hr.kid_some (show e.2 ∈ kids fs parent by
        rw [kids_of_some ho]
        exact List.mem_map.mpr ⟨e, he, rfl⟩)
      obtain ⟨nsf, rfl⟩ := hr.file_of_mode hkid hmode
      exact ⟨nsf, hkid⟩
    · rintro r v' ⟨-, ⟨-, -, hrep, hused⟩ | ⟨-, i, ns', hperm, hrep, hleak⟩⟩
      · refine Does.pure ⟨_, hrep, fun _ b hb => ⟨?_, hb.notReserved, hb.notOwned⟩, fun hd => hd⟩
        rw [← hused]
        exact hb.used
      · refine Does.pure ⟨_, hrep, fun _ => hleak, fun hd => (hd.dir parent ?_).erase i⟩
        exact (nodup_names_erase (hd parent ns ho) hperm).2

/-- **Every call that a caller may make returns and leaves a tree.** -/
theorem Op.serves {op : Op} (hw : w.held = []) (hr : Rep w.vol fs) (hok : op.ok w) : op.Serves w fs := by
  refine op.serves_of_does hw ((op.does hr hok).mono ?_)
  rintro _ v' ⟨fs', hr', hleak, -⟩
  exact ⟨fs', hr', hleak⟩

end

/-! ### The constructor -/

def format (disk : Nat → Block) : Nat → Block :=
  let disk := update disk 0 superBlock
  let disk := update disk bitmapEnd Bytes.zero
  let disk := update disk bitmapBegin firstBitmap
  update disk 1 rootBlock

theorem format_root (disk : Nat → Block) : format disk 1 = rootBlock := by
  unfold format
  rw [update_self]

theorem format_bitmap (disk : Nat → Block) : format disk 10 = firstBitmap := by
  unfold format bitmapBegin
  rw [update_of_ne (by decide), update_self]

theorem mount_eq {w : World} (hw : w.held = []) : mount w = some { w with disk := format w.disk } := by
  obtain ⟨disk, held, clock, junk, answers⟩ := w
  obtain rfl : held = [] := hw
  rfl

theorem bit_foldl_setBit {l : List Nat} (b : Block) (hl : ∀ i ∈ l, i < 4096) (k : Nat) :
    (l.foldl (fun buf i => buf.setBit i) b).bit k = (decide (k ∈ l) || b.bit k) := by
  induction l generalizing b with
  | nil => rfl
  | cons i rest ih =>
    rw [List.foldl_cons, ih _ fun j hj => hl j (List.mem_cons_of_mem _ hj),
      Bytes.bit_setBit _ (by have := hl i List.mem_cons_self; omega)]
    by_cases hk : k = i
    · simp [hk]
    · simp [hk]

theorem firstBitmap_eq : firstBitmap =
    (List.range' bitmapBegin (bitmapEnd + 1 - bitmapBegin)).foldl (fun buf i => buf.setBit i)
      ((Bytes.zero.setBit 0).setBit 1) := rfl

/-- The bits that the constructor sets are those of the reserved blocks. -/
theorem firstBitmap_bit (k : Nat) : firstBitmap.bit k = decide (Reserved k) := by
  have hmem : k ∈ List.range' bitmapBegin (bitmapEnd + 1 - bitmapBegin) ↔ 10 ≤ k ∧ k ≤ 200 := by
    rw [List.mem_range'_1]
    unfold bitmapBegin bitmapEnd
    omega
  rw [firstBitmap_eq, bit_foldl_setBit, Bytes.bit_setBit _ (by decide), Bytes.bit_setBit _ (by decide), Bytes.bit_zero,
    Bool.eq_iff_iff]
  · rw [decide_eq_true_eq, Reserved]
    simp only [Bool.or_eq_true, decide_eq_true_eq, hmem, Bool.false_eq_true]
    tauto
  · intro i hi
    rw [List.mem_range'_1] at hi
    unfold bitmapBegin bitmapEnd at hi
    omega

/-- The bits of the first bitmap block are as the constructor puts them. -/
theorem format_used_low {disk : Nat → Block} {i : Nat} (hi : i < 4096) :
    usedIn (format disk) i = decide (Reserved i) := by
  have hblock : bitmapBlock i = 10 := by rw [bitmapBlock_eq]; omega
  have hvol : volSize = 782336 := rfl
  rw [usedIn, hblock, format_bitmap, firstBitmap_bit, bitmapPerBlock, Nat.mod_eq_of_lt hi, decide_eq_true (by omega),
    Bool.true_and]

theorem formatted_format (disk : Nat → Block) : (volOf (format disk)).Formatted := by
  intro b hb
  have hlt : b < 4096 := by
    unfold Reserved at hb
    omega
  exact (format_used_low hlt).trans (decide_eq_true hb)

section
variable {clock : Nat → Nat} {junk : Nat → Block}

theorem format_blank_bitmap {n : Nat} (hn : 10 < n) : format (blank clock junk).disk n = Bytes.zero := by
  unfold format bitmapBegin bitmapEnd
  rw [update_of_ne (by omega), update_of_ne (by omega)]
  by_cases h : n = 200
  · rw [h, update_self]
  · rw [update_of_ne h, update_of_ne (by omega)]
    rfl

/-- What is in use after the constructor is what is reserved. -/
theorem format_blank_used (i : Nat) : usedIn (format (blank clock junk).disk) i = decide (Reserved i) := by
  by_cases hi : i < 4096
  · exact format_used_low hi
  · have hblock : 10 < bitmapBlock i := by rw [bitmapBlock_eq]; omega
    rw [usedIn, format_blank_bitmap hblock, Bytes.bit_zero, Bool.and_false]
    refine (decide_eq_false ?_).symm
    unfold Reserved
    omega

theorem format_blank_free : 100 ≤ (volOf (format (blank clock junk).disk)).free := by
  have hsub : Finset.Ico 201 301 ⊆ (Finset.range volSize).filter fun i =>
      (volOf (format (blank clock junk).disk)).used i = false := by
    intro i hi
    obtain ⟨hlow, hhigh⟩ := Finset.mem_Ico.mp hi
    have hvol : volSize = 782336 := rfl
    refine Finset.mem_filter.mpr ⟨Finset.mem_range.mpr (by omega), ?_⟩
    refine (format_blank_used i).trans (decide_eq_false ?_)
    unfold Reserved
    omega
  exact Finset.card_le_card hsub

def rootOnly : Tree := update (fun _ => none) 1 (some (.dir [(1, [])]))

theorem rootOnly_eq {i : Nat} {o : Obj} (h : rootOnly i = some o) : i = 1 ∧ o = .dir [(1, [])] := by
  unfold rootOnly at h
  by_cases hi : i = 1
  · rw [hi, update_self] at h
    exact ⟨hi, (Option.some.inj h).symm⟩
  · rw [update_of_ne hi] at h
    cases h

theorem kids_rootOnly (p : Nat) : kids rootOnly p = [] := by
  unfold rootOnly
  rw [kids_update]
  split <;> rfl

/-- The constructor leaves an empty root, where it leaves no block in use. -/
theorem rep_of_format {disk : Nat → Block} (hused : ∀ i, usedIn (format disk) i = decide (Reserved i)) :
    Rep (volOf (format disk)) rootOnly := by
  have hused : ∀ i, (volOf (format disk)).used i = decide (Reserved i) := hused
  have hblock : (volOf (format disk)).block 1 = rootBlock := by
    change dataOf (format disk) 1 = _
    rw [dataOf, if_pos (by decide), format_root]
  refine ⟨⟨?_, ?_, ?_, ?_, ?_⟩, ?_, ⟨[(1, [])], update_self ..⟩, ?_⟩
  · intro i o ho
    obtain ⟨rfl, rfl⟩ := rootOnly_eq ho
    refine ⟨rfl, ?_, ⟨dirShows_new ?_, ?_, trivial⟩⟩ <;> rw [hblock] <;> decide +kernel
  · intro i o b ho hb
    obtain ⟨rfl, rfl⟩ := rootOnly_eq ho
    obtain rfl : b = 1 := List.mem_singleton.mp hb
    exact ⟨by rw [hused]; decide, by decide, by decide⟩
  · intro i o b ho hb
    obtain ⟨rfl, rfl⟩ := rootOnly_eq ho
    obtain rfl : b = 1 := List.mem_singleton.mp hb
    exact Nat.one_ne_zero
  · intro i o ho
    obtain ⟨rfl, rfl⟩ := rootOnly_eq ho
    exact List.nodup_singleton 1
  · intro i j o o' b ho ho' _ _
    rw [(rootOnly_eq ho).1, (rootOnly_eq ho').1]
  · have hno : ∀ {p c}, c ∉ kids rootOnly p := by
      intro p c hc
      rw [kids_rootOnly] at hc
      cases hc
    refine ⟨by rw [rootOnly, update_self]; exact Option.some_ne_none _, fun p c hc => absurd hc hno,
      fun p c hc => absurd hc hno,
      fun p => by rw [kids_rootOnly]; exact List.nodup_nil, fun p q c hc => absurd hc hno, fun c hc => ?_⟩
    obtain ⟨o, ho⟩ := Option.ne_none_iff_exists'.mp hc
    rw [(rootOnly_eq ho).1]
    exact .root
  · intro b hb
    rw [hused]
    exact decide_eq_true hb

theorem rep_format : Rep (volOf (format (blank clock junk).disk)) rootOnly := rep_of_format format_blank_used

theorem not_leaked_format (b : Nat) : ¬ Leaked (volOf (format (blank clock junk).disk)) rootOnly b := by
  intro hb
  have hused : usedIn (format (blank clock junk).disk) b = true := hb.used
  rw [format_blank_used] at hused
  exact hb.notReserved (of_decide_eq_true hused)

end

/-! ### Sessions -/

/-- A world between two calls, which holds a tree. -/
def Ready (w : World) : Prop := w.held = [] ∧ ∃ fs, Rep w.vol fs

/-- A world between two calls with nothing leaked. -/
def Tight (w : World) : Prop := w.held = [] ∧ ∃ fs, Rep w.vol fs ∧ ∀ b, ¬ Leaked w.vol fs b

theorem Tight.ready {w : World} (h : Tight w) : Ready w := ⟨h.1, h.2.imp fun _ h => h.1⟩

theorem tight_mount (clock : Nat → Nat) (junk : Nat → Block) :
    ∃ w₀, mount (blank clock junk) = some w₀ ∧ Tight w₀ :=
  ⟨_, mount_eq rfl, rfl, rootOnly, rep_format, not_leaked_format⟩

theorem Ready.step {w w' : World} {op : Op} (h : Ready w) (hok : op.ok w) (hs : op.step w = some w') : Ready w' := by
  obtain ⟨hw, fs, hr⟩ := h
  obtain ⟨w'', hs', hheld, fs', hr', -⟩ := op.serves hw hr hok
  rw [hs] at hs'
  cases hs'
  exact ⟨hheld, fs', hr'⟩

theorem Tight.step {w w' : World} {op : Op} (h : Tight w) (hok : op.ok w) (hk : op.keeps w)
    (hs : op.step w = some w') : Tight w' := by
  obtain ⟨hw, fs, hr, hleak⟩ := h
  obtain ⟨w'', hs', hheld, fs', hr', hleak'⟩ := op.serves hw hr hok
  rw [hs] at hs'
  cases hs'
  exact ⟨hheld, fs', hr', fun b hb => hleak b (hleak' hk b hb)⟩

/-- **The disk of a session is sound**, and every call that a caller may make returns. -/
theorem disk_sound (clock : Nat → Nat) (junk : Nat → Block) :
    ∃ w₀, mount (blank clock junk) = some w₀ ∧ ∀ w, Steps Op.step Op.ok w₀ w →
      Sound w.disk ∧ ∀ op : Op, op.ok w → ∃ w', op.step w = some w' := by
  obtain ⟨w₀, hw₀, htight⟩ := tight_mount clock junk
  refine ⟨w₀, hw₀, fun w hrun => ?_⟩
  obtain ⟨hw, fs, hr⟩ : Ready w := hrun.invariant htight.ready fun _ _ _ h hok hs => h.step hok hs
  refine ⟨hr.sound, fun op hok => ?_⟩
  obtain ⟨w', hs, -⟩ := op.serves hw hr hok
  exact ⟨w', hs⟩

/-- A client whose clock stands still and whose buffers start as zeros. -/
def still : World := blank (fun _ => 0) fun _ => Bytes.zero

/-- On this disk the root is a node without a next one, and further blocks are free. -/
def PlainRoot (w : World) : Prop := (w.disk 1).mode = 0 ∧ (w.disk 1).next = 0 ∧ w.vol.used 9 = false

def Bare (w : World) : Prop := PlainRoot w ∧ (w.disk 1).size = 0

/-- The root has one entry, for a file at block 2, which has one node and `blocks` direct blocks. -/
def OneFile (w : World) (blocks : Nat) : Prop :=
  PlainRoot w ∧ (w.disk 1).size = 1 ∧ (w.disk 1).inum 0 = 2 ∧ (w.disk 2).mode ≠ 0 ∧ (w.disk 2).next = 0 ∧
    (w.disk 2).directCount = blocks

instance (w : World) : Decidable (PlainRoot w) := inferInstanceAs (Decidable (_ ∧ _))
instance (w : World) : Decidable (Bare w) := inferInstanceAs (Decidable (_ ∧ _))
instance (w : World) (blocks : Nat) : Decidable (OneFile w blocks) := inferInstanceAs (Decidable (_ ∧ _))

section
variable {w : World} {blocks : Nat}

theorem PlainRoot.isDir (h : PlainRoot w) : IsDir w.disk 1 := ⟨.root, h.1⟩

theorem PlainRoot.free (h : PlainRoot w) : 1 ≤ w.vol.free := Vol.free_pos (by decide) h.2.2

theorem OneFile.isFile (h : OneFile w blocks) : IsFile w.disk 2 := by
  have hnode : Node w.disk ((w.disk 1).inum 0) ((w.disk 1).inum 0) := .entry .root h.1.1 (by rw [h.2.1]; decide)
  rw [h.2.2.1] at hnode
  exact ⟨hnode, h.2.2.2.1⟩

theorem OneFile.node (h : OneFile w blocks) {i n : Nat} (hn : Node w.disk i n) : i = 1 ∧ n = 1 ∨ i = 2 ∧ n = 2 := by
  obtain ⟨hroot, hsize, hinum, hmode, hnext, -⟩ := h
  induction hn with
  | root => exact .inl ⟨rfl, rfl⟩
  | next _ hne ih =>
    obtain ⟨rfl, rfl⟩ | ⟨rfl, rfl⟩ := ih
    · exact absurd hroot.2.1 hne
    · exact absurd hnext hne
  | entry _ hm hi ih =>
    obtain ⟨rfl, rfl⟩ | ⟨rfl, rfl⟩ := ih
    · rw [hsize, Nat.lt_one_iff] at hi
      rw [hi, hinum]
      exact .inr ⟨rfl, rfl⟩
    · exact absurd hm hmode

theorem Bare.node (h : Bare w) {i n : Nat} (hn : Node w.disk i n) : i = 1 ∧ n = 1 := by
  induction hn with
  | root => exact ⟨rfl, rfl⟩
  | next _ hne ih =>
    obtain ⟨rfl, rfl⟩ := ih
    exact absurd h.1.2.1 hne
  | entry _ _ hi ih =>
    obtain ⟨rfl, rfl⟩ := ih
    rw [h.2] at hi
    exact absurd hi (Nat.not_lt_zero _)

theorem Bare.ok_create (h : Bare w) {name : List Byte} (h0 : 0 < name.length) (hlen : name.length ≤ 63) :
    (Op.create 1 name).ok w := by
  refine ⟨h.1.isDir, ⟨h0, hlen, ?_⟩, fun nodes hc => ?_⟩
  · rintro n i ⟨hn, hi, -⟩
    rw [(h.node hn).2, h.2] at hi
    exact absurd hi (Nat.not_lt_zero _)
  · rw [hc.unique (.last h.1.2.1), entryNeed, if_neg]
    · exact h.1.free
    · intro hall
      have := hall 1 (List.mem_singleton_self 1)
      rw [h.2] at this
      exact absurd this (by decide)

theorem OneFile.need (h : OneFile w blocks) {p : Nat} (hp : taken 1 blocks p ≤ 1) (nodes : List Nat)
    (hc : Chain w.disk 2 nodes) : writeNeed w.disk nodes p ≤ w.vol.free := by
  rw [hc.unique (.last h.2.2.2.2.1), writeNeed, blockCount, List.map_singleton, List.sum_singleton, h.2.2.2.2.2]
  exact Nat.le_trans hp h.1.free

theorem OneFile.ok_setattr (h : OneFile w blocks) {toSet : Bool} {info : FileInfo}
    (hp : taken 1 blocks (lastBlock (toSigned info.size) 0) ≤ 1) : (Op.setattr 2 toSet info).ok w :=
  ⟨h.isFile, fun _ => h.need hp⟩

theorem OneFile.ok_write (h : OneFile w blocks) {buf : List Byte} {size : Nat} {off : Int} (hbuf : size ≤ buf.length)
    (hoff : 0 ≤ off) (hp : taken 1 blocks (lastBlock off size) ≤ 1) : (Op.write 2 buf size off).ok w :=
  ⟨h.isFile, hbuf, .inr hoff, h.need hp⟩

end

/-- A session of `disk_sound`: a file is made and a byte is written to it. -/
theorem disk_sound_one_file : ∃ w₀ w, mount still = some w₀ ∧ Steps Op.step Op.ok w₀ w ∧ OneFile w 1 ∧
    Sound w.disk := by
  obtain ⟨w₀, hw₀, hbare, w₁, hs₁, hone, w₂, hs₂, htwo⟩ : ∃ w₀, mount still = some w₀ ∧ Bare w₀ ∧
      ∃ w₁, Op.step w₀ (.create 1 [97]) = some w₁ ∧ OneFile w₁ 0 ∧ ∃ w₂, Op.step w₁ (.write 2 [98] 1 0) = some w₂ ∧
      OneFile w₂ 1 := by decide +kernel
  have hsteps : Steps Op.step Op.ok w₀ w₂ :=
    (Steps.refl.tail (hbare.ok_create (by decide) (by decide)) hs₁).tail
      (hone.ok_write (by decide) (by decide) (by decide)) hs₂
  obtain ⟨w₀', hw₀', hall⟩ := disk_sound (fun _ => 0) fun _ => Bytes.zero
  obtain rfl : w₀' = w₀ := Option.some.inj (hw₀'.symm.trans hw₀)
  exact ⟨w₀', w₂, hw₀, hsteps, htwo, (hall w₂ hsteps).1⟩

/-- What is in use is reserved, or found from the root. -/
def NoLeak (disk : Nat → Block) : Prop := ∀ b, usedIn disk b = true → Reserved b ∨ Reachable disk b

theorem Tight.noLeak {w : World} (h : Tight w) : NoLeak w.disk := by
  obtain ⟨-, fs, hr, hleak⟩ := h
  intro b hb
  by_contra hnot
  rw [not_or, hr.reachable_iff] at hnot
  exact hleak b ⟨hb, hnot.1, hnot.2⟩

/-- Where there are no files left, what is in use is reserved or a node of a directory. -/
theorem Tight.dirs_only {w : World} (h : Tight w) (hno : ∀ ino, ¬ IsFile w.disk ino) {b : Nat}
    (hb : usedIn w.disk b = true) : Reserved b ∨ ∃ p, IsDir w.disk p ∧ Node w.disk p b := by
  obtain ⟨-, fs, hr, hleak⟩ := h
  by_contra hnot
  rw [not_or] at hnot
  refine hleak b ⟨hb, hnot.1, ?_⟩
  rintro ⟨p, o, ho, hmem⟩
  cases o with
  | file ns => exact hno p ⟨hr.node_self ho, hr.mode_file ho⟩
  | dir ns =>
    refine hnot.2 ⟨p, ⟨hr.node_self ho, hr.mode_dir ho⟩, hr.node_of_mem ho (hr.node_self ho) ?_⟩
    exact (List.mem_append.mp hmem).resolve_right List.not_mem_nil

/-- **A session whose `setattr` calls keep what they take leaks nothing.** -/
theorem no_leak (clock : Nat → Nat) (junk : Nat → Block) :
    ∃ w₀, mount (blank clock junk) = some w₀ ∧
      ∀ w, Steps Op.step (fun w op => op.ok w ∧ op.keeps w) w₀ w →
        NoLeak w.disk ∧ ((∀ ino, ¬ IsFile w.disk ino) →
          ∀ b, usedIn w.disk b = true → Reserved b ∨ ∃ p, IsDir w.disk p ∧ Node w.disk p b) := by
  obtain ⟨w₀, hw₀, htight⟩ := tight_mount clock junk
  refine ⟨w₀, hw₀, fun w hrun => ?_⟩
  have h : Tight w := hrun.invariant htight fun _ _ _ h hok hs => h.step hok.1 hok.2 hs
  exact ⟨h.noLeak, fun hno b hb => h.dirs_only hno hb⟩

/-- A session of `no_leak`, in which `setattr` is asked for a size within the first block. -/
theorem no_leak_one_file : ∃ w₀ w₂ w₃, mount still = some w₀ ∧
    Steps Op.step (fun w op => op.ok w ∧ op.keeps w) w₀ w₂ ∧
    Op.step w₂ (.setattr 2 true ⟨1, 0, 0, 0⟩) = some w₃ ∧ OneFile w₃ 1 ∧ NoLeak w₃.disk := by
  obtain ⟨w₀, hw₀, hbare, w₁, hs₁, hone, w₂, hs₂, ⟨htwo, hdirect⟩, w₃, hs₃, hthree⟩ :
      ∃ w₀, mount still = some w₀ ∧ Bare w₀ ∧ ∃ w₁, Op.step w₀ (.create 1 [97]) = some w₁ ∧ OneFile w₁ 0 ∧
      ∃ w₂, Op.step w₁ (.write 2 [98] 1 0) = some w₂ ∧ (OneFile w₂ 1 ∧ (w₂.disk 2).direct 0 ≠ 0) ∧
      ∃ w₃, Op.step w₂ (.setattr 2 true ⟨1, 0, 0, 0⟩) = some w₃ ∧ OneFile w₃ 1 := by decide +kernel
  have hsteps : Steps Op.step (fun w op => op.ok w ∧ op.keeps w) w₀ w₂ :=
    (Steps.refl.tail ⟨hbare.ok_create (by decide) (by decide), trivial⟩ hs₁).tail
      ⟨hone.ok_write (by decide) (by decide) (by decide), trivial⟩ hs₂
  have hkeeps : (Op.setattr 2 true ⟨1, 0, 0, 0⟩).keeps w₂ := Or.inr ⟨by decide, hdirect⟩
  have hlast : Steps Op.step (fun w op => op.ok w ∧ op.keeps w) w₀ w₃ :=
    hsteps.tail ⟨htwo.ok_setattr (by decide), hkeeps⟩ hs₃
  obtain ⟨w₀', hw₀', hall⟩ := no_leak (fun _ => 0) fun _ => Bytes.zero
  obtain rfl : w₀' = w₀ := Option.some.inj (hw₀'.symm.trans hw₀)
  exact ⟨w₀', w₂, w₃, hw₀, hsteps, hs₃, hthree, (hall w₃ hlast).1⟩

/-- **`setattr` leaks a block.** Asked for a size on a file without blocks it has block 3
taken for it, and writes back the inode that does not name it. -/
theorem setattr_leaks : ∃ w₀ w, mount still = some w₀ ∧ Steps Op.step Op.ok w₀ w ∧ usedIn w.disk 3 = true ∧
    ¬ Reserved 3 ∧ ¬ Reachable w.disk 3 := by
  obtain ⟨w₀, hw₀, hbare, w₁, hs₁, hone, w₂, hs₂, htwo, hused⟩ : ∃ w₀, mount still = some w₀ ∧ Bare w₀ ∧
      ∃ w₁, Op.step w₀ (.create 1 [97]) = some w₁ ∧ OneFile w₁ 0 ∧
      ∃ w₂, Op.step w₁ (.setattr 2 true ⟨0, 0, 0, 0⟩) = some w₂ ∧ OneFile w₂ 0 ∧ usedIn w₂.disk 3 = true := by
    decide +kernel
  refine ⟨w₀, w₂, hw₀, ?_, hused, by decide, ?_⟩
  · exact (Steps.refl.tail (hbare.ok_create (by decide) (by decide)) hs₁).tail (hone.ok_setattr (by decide)) hs₂
  · rintro ⟨s, hs⟩
    obtain ⟨b, hb⟩ : ∃ b, b = 3 := ⟨3, rfl⟩
    rw [← hb] at hs
    cases hs with
    | root => exact absurd hb (by decide)
    | next hn hne =>
      obtain ⟨-, rfl⟩ | ⟨-, rfl⟩ := htwo.node hn
      · exact hne htwo.1.2.1
      · exact hne htwo.2.2.2.2.1
    | entry hn hm hi =>
      obtain ⟨rfl, rfl⟩ | ⟨rfl, rfl⟩ := htwo.node hn
      · rw [htwo.2.1, Nat.lt_one_iff] at hi
        rw [hi, htwo.2.2.1] at hb
        exact absurd hb (by decide)
      · exact htwo.2.2.2.1 hm
    | direct hn hm hi hne =>
      obtain ⟨rfl, rfl⟩ | ⟨rfl, rfl⟩ := htwo.node hn
      · exact hm htwo.1.1
      · have hcount := List.countP_eq_zero.mp htwo.2.2.2.2.2 _ (List.mem_range.mpr hi)
        exact hcount (decide_eq_true hne)

end Yfs.Fs

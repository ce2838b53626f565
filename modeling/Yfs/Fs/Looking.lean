import Yfs.Fs.Keeping

/-! The operations that only look keep to their region.

They enter the file or directory of their inode with its lock, put the inode with a new
access time, and follow the chain of the nodes. -/
namespace Yfs.Fs
open Yfs.Base

namespace Walks
variable {q : Request} {x : Region} {h k fuel : Nat} {o : Obj} {buf : Block}

/-! ### Attributes -/

theorem hasMode {ino mode : Nat} (hq : q.ino = ino) (hino : outsideBitmap ino = true) :
    Walks q (hasMode ino mode) .idle fun _ x' => x'.base = none ∧ x'.below = none := by
  refine locked hq hino fun x o _ hx => .bind (uninit fun buf => .bind ((safeGet hx hx.head_mem).mono ?_))
  rintro _ _ ⟨rfl, rfl⟩
  exact .pure ⟨hx.base, hx.below⟩

theorem getattr {α : Type} {ino : Nat} {read : Block → α} (hq : q.ino = ino) (hino : outsideBitmap ino = true) :
    Walks q (getattr ino read) .idle fun _ x' => x'.base = none ∧ x'.below = none := by
  refine locked hq hino fun x o _ hx => .bind (uninit fun buf => .bind ((safeGet hx hx.head_mem).mono ?_))
  rintro _ _ ⟨rfl, rfl⟩
  rw [if_neg (fun he => by cases he), if_neg fun hne => hne rfl]
  exact .pure ⟨hx.base, hx.below⟩

/-- What `issym` reads is an inode, and so it releases the lock. -/
theorem issym {ino : Nat} (hino : outsideBitmap ino = true) :
    Walks (.issym ino) (Fs.issym ino) .idle fun _ x' => x'.base = none ∧ x'.below = none := by
  refine .bind (uninit fun buf => .bind (acquire .enter hino (.enter rfl rfl) ?_))
  rintro x₁ ⟨o, files, mem, -, rfl⟩ hfine
  have hx₁ : Region.With _ ino ino o [] := ⟨hfine, rfl, rfl, rfl, rfl, rfl⟩
  refine .bind ((get hfine hx₁.ready hx₁.head_mem).mono ?_)
  rintro _ _ ⟨rfl, rfl⟩
  rw [if_neg fun hne => hne rfl]
  refine .bind (release .leave hino (.leave rfl rfl) ?_)
  rintro _ rfl -
  exact .pure ⟨rfl, rfl⟩

/-! ### Directories -/

section
variable {ns pre post : Nodes Entry} {n : Nat} {es : List Entry}

theorem lookupLoop {s : List Byte} (hx : x.With k h (.dir (pre ++ (n, es) :: post)) []) :
    Walks q (lookupLoop h s fuel (x.mem.block n)) x fun _ x' => x' = x := by
  induction fuel generalizing pre n es post with
  | zero => exact hang
  | succ fuel ih =>
    rw [Fs.lookupLoop]
    refine .bind (findEntry.mono ?_)
    rintro found x rfl
    cases found with
    | some i => exact entryInum
    | none => exact nextDir (g := fun _ => Fs.lookupLoop h s fuel) hx (.pure rfl) fun he => ih (he ▸ hx)

theorem lookup {parent : Nat} {name : List Byte} (hparent : outsideBitmap parent = true) :
    Walks (.lookup parent name) (Fs.lookup parent name) .idle fun _ x' => x'.base = none ∧ x'.below = none := by
  refine locked rfl hparent fun x o ⟨ns, ho⟩ hx => ?_
  subst ho
  refine .bind (uninit fun buf => .bind ((safeGet hx hx.head_mem).mono ?_))
  rintro _ x ⟨rfl, rfl⟩
  refine .bind (time fun now => .bind ((safePut_times hx (by simp) (by simp) (by simp)).mono ?_))
  rintro _ x₁ ⟨rfl, hblock, -, hx₁⟩
  rw [if_neg fun hne => hne rfl, ← hblock]
  obtain ⟨es, post, rfl⟩ := dir_head hx₁
  refine (lookupLoop hx₁).mono ?_
  rintro _ _ rfl
  exact ⟨hx₁.base, hx₁.below⟩

theorem readEntries {i : Nat} {items : Items} : Walks q (readEntries buf fuel i items) x fun _ x' => x' = x := by
  induction fuel generalizing i items with
  | zero => exact hang
  | succ fuel ih =>
    rw [Fs.readEntries]
    split
    · refine .bind (entryInum.mono ?_)
      rintro inum _ rfl
      split
      · exact undefinedAccess
      · exact ih
    · exact .pure rfl

theorem readdirLoop {items : Items} (hx : x.With k h (.dir (pre ++ (n, es) :: post)) []) :
    Walks q (readdirLoop h fuel (x.mem.block n) items) x fun _ x' => x' = x := by
  induction fuel generalizing pre n es post items with
  | zero => exact hang
  | succ fuel ih =>
    rw [Fs.readdirLoop]
    refine .bind (readEntries.mono ?_)
    rintro items x rfl
    exact nextDir (g := fun _ buf => Fs.readdirLoop h fuel buf items) hx (.pure rfl) fun he => ih (he ▸ hx)

theorem readdir {ino : Nat} (hino : outsideBitmap ino = true) :
    Walks (.readdir ino) (Fs.readdir ino) .idle fun _ x' => x'.base = none ∧ x'.below = none := by
  refine locked rfl hino fun x o ⟨ns, ho⟩ hx => ?_
  subst ho
  refine .bind (uninit fun buf => .bind ((safeGet hx hx.head_mem).mono ?_))
  rintro _ x ⟨rfl, rfl⟩
  refine .bind (time fun now => .bind ((safePut_times hx (by simp) (by simp) (by simp)).mono ?_))
  rintro _ x₁ ⟨rfl, hblock, -, hx₁⟩
  rw [if_neg fun hne => hne rfl, ← hblock]
  obtain ⟨es, post, rfl⟩ := dir_head hx₁
  refine .bind ((readdirLoop hx₁).mono ?_)
  rintro items _ rfl
  exact .pure ⟨hx₁.base, hx₁.below⟩

end

/-! ### Reading a file -/

section
variable {ns : Nodes Nat} {n index : Nat} {inode : Block}

def OnNode (x : Region) (ns : Nodes Nat) (inode : Block) : Prop :=
  ∃ pre n ds post, ns = pre ++ (n, ds) :: post ∧ inode = x.mem.block n

theorem OnNode.direct_mem (hi : OnNode x ns inode) (hx : x.With k h (.file ns) []) (hidx : index < 16)
    (hne : inode.direct index ≠ 0) : inode.direct index ∈ x.blocks := by
  obtain ⟨pre, n, ds, post, rfl, rfl⟩ := hi
  rw [hx.shown.file_node.1.direct index hidx] at hne ⊢
  have hlt : index < ds.length := by
    by_contra hge
    exact hne (List.getD_eq_default _ _ (Nat.le_of_not_lt hge))
  rw [List.getD_eq_getElem _ _ hlt]
  refine hx.mem_blocks (List.mem_append_right _ ?_)
  simp [Obj.datas]

theorem readTouch (hx : x.With k h (.file ns) []) (hi : OnNode x ns inode) :
    Walks q (readTouch h index inode) x fun r x' => x' = x ∧ ∀ index' inode', r = some (index', inode') →
      OnNode x ns inode' ∧ inode'.direct index' ∈ x.blocks := by
  rw [Fs.readTouch]
  split
  next =>
    split
    next hnext =>
      obtain ⟨pre, n, ds, post, rfl, rfl⟩ := hi
      rw [hx.shown.file_node.2] at hnext ⊢
      cases post with
      | nil => exact absurd rfl hnext
      | cons y rest =>
        obtain ⟨m, ds'⟩ := y
        have hm : m ∈ x.blocks := hx.mem_blocks (Obj.mem_blocks_of_node (by simp [Obj.nodes]))
        refine .bind ((safeGet hx hm).mono ?_)
        rintro _ x ⟨rfl, rfl⟩
        have hon : OnNode x (pre ++ (n, ds) :: (m, ds') :: rest) (x.mem.block m) :=
          ⟨pre ++ [(n, ds)], m, ds', rest, by simp, rfl⟩
        refine .pure ⟨rfl, ?_⟩
        dsimp only
        split
        next => exact fun _ _ hr => by cases hr
        next hne =>
          rintro _ _ ⟨⟩
          exact ⟨hon, hon.direct_mem hx (by decide) hne⟩
    next => exact .pure ⟨rfl, fun _ _ hr => by cases hr⟩
  next hidx =>
    refine .pure ⟨rfl, ?_⟩
    split
    next => exact fun _ _ hr => by cases hr
    next hne =>
      rintro _ _ ⟨⟩
      exact ⟨hi, hi.direct_mem hx (Nat.lt_of_not_le hidx) hne⟩

theorem readSeek {off : Int} {filesize : Nat} (hx : x.With k h (.file ns) []) (hi : OnNode x ns inode) :
    Walks q (readSeek h fuel off filesize index inode) x fun r x' => x' = x ∧
      ∀ off' filesize' index' inode', r = some (off', filesize', index', inode') → OnNode x ns inode' := by
  induction fuel generalizing off filesize index inode with
  | zero => exact hang
  | succ fuel ih =>
    rw [Fs.readSeek]
    refine .bind ((readTouch hx hi).mono ?_)
    rintro r x ⟨rfl, hr⟩
    match r, hr with
    | none, _ => exact .pure ⟨rfl, fun _ _ _ _ hr => by cases hr⟩
    | some (index₁, inode₁), hr =>
      have hi₁ := (hr index₁ inode₁ rfl).1
      dsimp only
      split
      · split
        · exact ih hi₁
        · exact .pure ⟨rfl, fun _ _ _ _ hr => by cases hr⟩
      · refine .pure ⟨rfl, ?_⟩
        rintro _ _ _ _ ⟨⟩
        exact hi₁

theorem append {out : List Byte} {off : Int} {n : Nat} : Walks q (append out buf off n) x fun _ x' => x' = x := by
  rw [Fs.append]
  split
  · exact .pure rfl
  · split
    · exact .pure rfl
    · exact undefinedAccess

theorem readLoop {size filesize : Nat} {off : Int} {data : Block} {out : List Byte} (hx : x.With k h (.file ns) [])
    (hi : OnNode x ns inode) :
    Walks q (readLoop h fuel size off filesize index inode data out) x fun _ x' => x' = x := by
  induction fuel generalizing size off filesize index inode data out with
  | zero => exact hang
  | succ fuel ih =>
    rw [Fs.readLoop]
    refine .bind ((readTouch hx hi).mono ?_)
    rintro r x ⟨rfl, hr⟩
    match r, hr with
    | none, _ => exact .pure rfl
    | some (index₁, inode₁), hr =>
      obtain ⟨hi₁, hmem⟩ := hr index₁ inode₁ rfl
      refine .bind ((safeGet hx hmem).mono ?_)
      rintro _ x ⟨rfl, rfl⟩
      dsimp only
      split
      · split
        · exact append
        · refine .bind (append.mono ?_)
          rintro out _ rfl
          exact ih hi₁
      · split
        · exact append
        · refine .bind (append.mono ?_)
          rintro out _ rfl
          exact ih hi₁

theorem innerRead {size : Nat} {off : Int} (hx : x.With k h (.file ns) []) :
    Walks q (innerRead h size off) x fun _ x' => x'.base = some k ∧ x'.below = none := by
  rw [Fs.innerRead]
  split
  · exact .pure ⟨hx.base, hx.below⟩
  · refine .bind (uninit fun buf => .bind ((safeGet hx hx.head_mem).mono ?_))
    rintro _ x ⟨rfl, rfl⟩
    rw [if_neg fun he => by cases he]
    refine .bind (time fun now => .bind ((safePut_inode hx (by simp) (by simpa using hx.shown.2.1)).mono ?_))
    rintro _ x₁ ⟨rfl, hmem₁, hx₁⟩
    rw [if_neg fun hne => hne rfl]
    obtain ⟨ds, rest, rfl⟩ := file_head hx₁
    have hi : OnNode x₁ ((h, ds) :: rest) ((x.mem.block h).setAtime now) :=
      ⟨[], h, ds, rest, rfl, by rw [hmem₁, Vol.write_block_self]⟩
    refine .bind ((readSeek hx₁ hi).mono ?_)
    rintro r x₁ ⟨rfl, hr⟩
    match r, hr with
    | none, _ => exact .pure ⟨hx₁.base, hx₁.below⟩
    | some (off', filesize, index, inode), hr =>
      refine .bind (uninit fun data => .bind ((readLoop hx₁ (hr _ _ _ _ rfl)).mono ?_))
      rintro out _ rfl
      exact .pure ⟨hx₁.base, hx₁.below⟩

theorem read {ino size : Nat} {off : Int} (hino : outsideBitmap ino = true) :
    Walks (.read ino size off) (Fs.read ino size off) .idle fun _ x' => x'.base = none ∧ x'.below = none := by
  refine locked rfl hino fun x o ⟨ns, ho⟩ hx => ?_
  subst ho
  exact innerRead hx

theorem readlink {ino : Nat} (hino : outsideBitmap ino = true) :
    Walks (.readlink ino) (Fs.readlink ino) .idle fun _ x' => x'.base = none ∧ x'.below = none := by
  refine locked rfl hino fun x o ⟨ns, ho⟩ hx => ?_
  subst ho
  refine .bind (uninit fun buf => .bind ((safeGet hx hx.head_mem).mono ?_))
  rintro _ x ⟨rfl, rfl⟩
  rw [if_neg (fun he => by cases he), if_neg fun hne => hne rfl]
  exact innerRead hx

end
end Walks

/-- The operations of a client that is there already. Their inode is no bitmap block, and new
names fit into an entry. -/
def Request.Shares : Request → Prop
  | .construct => False
  | .isfile ino | .isdir ino | .issym ino | .getfile ino | .getdir ino | .readdir ino | .setattr ino _ _ | .read ino _ _
  | .write ino _ _ _ | .lookup ino _ | .readlink ino => outsideBitmap ino = true
  | .create parent name | .mkdir parent name | .unlink parent name | .symlink parent name _ =>
    outsideBitmap parent = true ∧ name.length ≤ 63

/-- **Every operation keeps to its region**, and ends without a lock. -/
theorem Request.walks {q : Request} (hq : q.Shares) :
    Walks q q.code .idle fun _ x' => x'.base = none ∧ x'.below = none := by
  have hdiscard : ∀ {α : Type} {p : Code α}, Walks q p .idle (fun _ x' => x'.base = none ∧ x'.below = none) →
      Walks q (discard p) .idle fun _ x' => x'.base = none ∧ x'.below = none :=
    fun hp => .bind (hp.mono fun _ _ hx => .pure hx)
  cases q with
  | construct => exact hq.elim
  | isfile ino => exact hdiscard (.hasMode rfl hq)
  | isdir ino => exact hdiscard (.hasMode rfl hq)
  | issym ino => exact hdiscard (.issym hq)
  | getfile ino => exact hdiscard (.getattr rfl hq)
  | getdir ino => exact hdiscard (.getattr rfl hq)
  | create parent name => exact hdiscard (.create hq.1 hq.2)
  | lookup parent name => exact hdiscard (.lookup hq)
  | readdir ino => exact hdiscard (.readdir hq)
  | setattr ino toSet info => exact hdiscard (.setattr hq)
  | read ino size off => exact hdiscard (.read hq)
  | write ino buf size off => exact hdiscard (.write hq)
  | mkdir parent name => exact hdiscard (.mkdir hq.1 hq.2)
  | unlink parent name => exact hdiscard (.unlink hq.1 hq.2)
  | symlink parent name link => exact hdiscard (.symlink hq.1 hq.2)
  | readlink ino => exact hdiscard (.readlink hq)

end Yfs.Fs

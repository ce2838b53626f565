import Yfs.Fs.Links
import Yfs.Fuse.Spec

/-! The FUSE server refines the file system of `Spec`.

`Holds v fs σ` says that a volume with the tree `fs` holds the file system `σ`: a file has
the blocks for its bytes and the mode of what it is, and the entries of a directory are its
names. Every handler that is asked what it may be asked (`Request.ok`) returns, answers as
the file system would and leaves a volume that holds what there is then
(`Request.does`). So a session of requests from the mounted disk on is one of the file
system (`session_refines`). What may not be asked is what the functions get wrong: a name
that is there already, `unlink` of a directory, an inode that is not there, a `setattr`
that cuts off bytes or makes the first node gain a block, a `read` from inside a block that
goes past the end of the file, and more than the disk has. -/
namespace Yfs.Fuse
open Base
open Fs (Block Code Contains Does Gives IsDir IsFile Nodes Obj Op Rep Tree Vol WellNamed World cStr itemsOf nodesOf)
open Function (update_of_ne update_self)

/-! ### What a volume holds -/

/-- The object at `i` is what the file system has there. -/
inductive Matches (v : Vol) (i : Nat) : Option Obj → Option Node → Prop where
  | none : Matches v i none none
  | file {ns : Nodes Nat} {link : Bool} {c : Sparse Byte} : Contains v i ns c →
      (v.block i).mode = (if link then 2 else 1) → Matches v i (some (.file ns)) (some (.file link c))
  | dir {ns : Nodes Fs.Entry} {names : List Byte → Option Nat} : WellNamed ns →
      (∀ s j, names s = some j ↔ (s, j) ∈ itemsOf ns) → Matches v i (some (.dir ns)) (some (.dir names))

structure Holds (v : Vol) (fs : Tree) (σ : FileSystem) : Prop where
  rep : Rep v fs
  at_ : ∀ i, Matches v i (fs i) (σ i)

section
variable {lib : Libfuse} {v v' : Vol} {fs : Tree} {σ : FileSystem} {i p : Nat}

theorem Matches.congr {o : Option Obj} {n : Option Node} (h : Matches v i o n)
    (hblocks : ∀ ns, o = some (.file ns) → i ∈ nodesOf ns ∧ ∀ b ∈ (Obj.file ns).blocks, v'.block b = v.block b) :
    Matches v' i o n := by
  cases h with
  | none => exact .none
  | file hc hmode =>
    obtain ⟨hhead, hv⟩ := hblocks _ rfl
    refine .file (hc.congr hhead hv) ?_
    rw [hv i (Obj.mem_blocks_of_node hhead), hmode]
  | dir hw hnames => exact .dir hw hnames

namespace Holds

theorem file {link : Bool} {c : Sparse Byte} (h : Holds v fs σ) (hi : σ i = some (.file link c)) :
    ∃ ns, fs i = some (.file ns) ∧ Contains v i ns c ∧ (v.block i).mode = if link then 2 else 1 := by
  have hat := h.at_ i
  rw [hi] at hat
  generalize ho : fs i = o at hat
  cases hat with
  | file hc hmode => exact ⟨_, rfl, hc, hmode⟩

theorem dir {names : List Byte → Option Nat} (h : Holds v fs σ) (hp : σ p = some (.dir names)) :
    ∃ ns, fs p = some (.dir ns) ∧ WellNamed ns ∧ ∀ s j, names s = some j ↔ (s, j) ∈ itemsOf ns := by
  have hat := h.at_ p
  rw [hp] at hat
  generalize ho : fs p = o at hat
  cases hat with
  | dir hw hnames => exact ⟨_, rfl, hw, hnames⟩

theorem of_file {ns : Nodes Nat} (h : Holds v fs σ) (ho : fs i = some (.file ns)) :
    ∃ link c, σ i = some (.file link c) ∧ Contains v i ns c ∧ (v.block i).mode = if link then 2 else 1 := by
  have hat := h.at_ i
  rw [ho] at hat
  generalize hn : σ i = n at hat
  cases hat with
  | file hc hmode => exact ⟨_, _, rfl, hc, hmode⟩

theorem of_dir {ns : Nodes Fs.Entry} (h : Holds v fs σ) (ho : fs p = some (.dir ns)) :
    ∃ names, σ p = some (.dir names) ∧ WellNamed ns ∧ ∀ s j, names s = some j ↔ (s, j) ∈ itemsOf ns := by
  have hat := h.at_ p
  rw [ho] at hat
  generalize hn : σ p = n at hat
  cases hat with
  | dir hw hnames => exact ⟨_, rfl, hw, hnames⟩

theorem of_some {o : Obj} (h : Holds v fs σ) (ho : fs i = some o) : ∃ n, σ i = some n := by
  cases o with
  | file ns =>
    obtain ⟨link, c, hσ, -⟩ := h.of_file ho
    exact ⟨_, hσ⟩
  | dir ns =>
    obtain ⟨names, hσ, -⟩ := h.of_dir ho
    exact ⟨_, hσ⟩

theorem of_none (h : Holds v fs σ) (ho : fs i = none) : σ i = none := by
  have hat := h.at_ i
  rw [ho] at hat
  generalize hn : σ i = n at hat
  cases hat
  rfl

/-- What is elsewhere is what it was, where the blocks of the files there are left alone. -/
theorem elsewhere (h : Holds v fs σ)
    (hframe : ∀ ns, fs i = some (.file ns) → ∀ b ∈ (Obj.file ns).blocks, v'.block b = v.block b) :
    Matches v' i (fs i) (σ i) :=
  (h.at_ i).congr fun _ ho => ⟨(h.rep.laid.shows ho).head_mem, hframe _ ho⟩

/-- The inode at `i` is written with its links, its size and its mode as they were. -/
theorem retouch {d : Block} {o : Obj} (h : Holds v fs σ) (ho : fs i = some o) (hl : d.links = (v.block i).links)
    (hs : d.size = (v.block i).size) (hm : d.mode = (v.block i).mode) : Holds (v.write i d) fs σ := by
  have hother : ∀ j, j ≠ i → Matches (v.write i d) j (fs j) (σ j) := by
    refine fun j hj => h.elsewhere fun ns hns b hb => Vol.write_block_ne ?_
    rintro rfl
    exact hj (h.rep.laid.apart hns ho hb (h.rep.laid.head_mem ho))
  cases o with
  | file ns =>
    obtain ⟨link, c, hσ, hc, hmode⟩ := h.of_file ho
    have hne : d.mode ≠ 0 := hm ▸ (h.rep.laid.shows ho).2.1
    refine ⟨h.rep.retouch_file ho hl hne, fun j => ?_⟩
    by_cases hj : j = i
    · rw [hj, ho, hσ]
      refine .file (hc.retouch h.rep ho hs) ?_
      rw [Vol.write_block_self, hm, hmode]
    · exact hother j hj
  | dir ns =>
    refine ⟨h.rep.retouch_head ho hl hs hm, fun j => ?_⟩
    by_cases hj : j = i
    · rw [hj]
      refine h.elsewhere fun ns' hns' => ?_
      rw [ho] at hns'
      cases hns'
    · exact hother j hj

/-- The file at `i` is another one. -/
theorem update {ns ns' : Nodes Nat} {link : Bool} {c : Sparse Byte} (h : Holds v fs σ)
    (ho : fs i = some (.file ns)) (hrep : Rep v' (Function.update fs i (some (.file ns')))) (hc : Contains v' i ns' c)
    (hmode : (v'.block i).mode = if link then 2 else 1)
    (hframe : ∀ b, v.used b = true → b ∉ (Obj.file ns).blocks → v'.block b = v.block b) :
    Holds v' (Function.update fs i (some (.file ns'))) (Function.update σ i (some (.file link c))) := by
  refine ⟨hrep, fun j => ?_⟩
  by_cases hj : j = i
  · rw [hj, update_self, update_self]
    exact .file hc hmode
  · rw [update_of_ne hj, update_of_ne hj]
    refine h.elsewhere fun nsj hnsj b hb => hframe b (h.rep.laid.has hnsj hb).used fun hm => ?_
    exact hj (h.rep.laid.apart hnsj ho hb hm)

/-- A new object with a name in directory `p`. -/
theorem make {ns ns' : Nodes Fs.Entry} {s : List Byte} {o : Obj} {n : Node} (h : Holds v fs σ)
    (ho : fs p = some (.dir ns)) (hs : Fs.ValidName s) (hno : ∀ e ∈ itemsOf ns, e.1 ≠ s) (hfresh : fs i = none)
    (hrep : Rep v' (Function.update (Function.update fs i (some o)) p (some (.dir ns'))))
    (hperm : (itemsOf ns').Perm ((s, i) :: itemsOf ns)) (hnew : Matches v' i (some o) (some n))
    (hframe : ∀ b, v.used b = true → b ∉ nodesOf ns → v'.block b = v.block b) :
    ∃ σ', Holds v' (Function.update (Function.update fs i (some o)) p (some (.dir ns'))) σ' ∧
      Makes σ p s i n σ' ∧ σ' i = some n := by
  obtain ⟨names, hσ, hw, hnames⟩ := h.of_dir ho
  have hip : i ≠ p := by
    rintro rfl
    rw [ho] at hfresh
    cases hfresh
  have hself : Function.update (Function.update fs i (some o)) p (some (.dir ns')) i = some o := by
    rw [update_of_ne hip, update_self]
  have hnone : names s = none := by
    by_contra hsome
    obtain ⟨j, hj⟩ := Option.ne_none_iff_exists'.mp hsome
    exact hno _ ((hnames s j).mp hj) rfl
  have hi0 : i ≠ 0 := hrep.laid.ne_zero hself (hrep.laid.head_mem hself)
  refine ⟨_, ⟨hrep, fun j => ?_⟩, ⟨names, hσ, hnone, h.of_none hfresh, hi0, rfl⟩, ?_⟩
  · by_cases hjp : j = p
    · rw [hjp, update_self, update_self]
      refine .dir (hw.insert hs hno hperm) fun t k => ?_
      rw [hperm.mem_iff, List.mem_cons, Prod.mk.injEq, ← hnames]
      by_cases ht : t = s
      · rw [ht, update_self, hnone]
        simp [eq_comm]
      · rw [update_of_ne ht]
        simp [ht]
    · rw [update_of_ne hjp, update_of_ne hjp]
      by_cases hji : j = i
      · rw [hji, update_self, update_self]
        exact hnew
      · rw [update_of_ne hji, update_of_ne hji]
        refine h.elsewhere fun nsj hnsj b hb => hframe b (h.rep.laid.has hnsj hb).used fun hm => ?_
        exact hjp (h.rep.laid.apart hnsj ho hb (Obj.mem_blocks_of_node hm))
  · rw [update_of_ne hip, update_self]

/-- A name of directory `p` and the file behind it are gone. -/
theorem drop {ns ns' : Nodes Fs.Entry} {names : List Byte → Option Nat} {s : List Byte}
    (h : Holds v fs σ) (ho : fs p = some (.dir ns)) (hw : WellNamed ns)
    (hnames : ∀ s j, names s = some j ↔ (s, j) ∈ itemsOf ns)
    (hrep : Rep v' (Function.update (Function.update fs p (some (.dir ns'))) i none))
    (hperm : (itemsOf ns).Perm ((s, i) :: itemsOf ns')) (hframe : ∀ b ∉ nodesOf ns, v'.block b = v.block b) :
    Holds v' (Function.update (Function.update fs p (some (.dir ns'))) i none)
      (Function.update (Function.update σ p (some (.dir (Function.update names s none)))) i none) := by
  refine ⟨hrep, fun j => ?_⟩
  by_cases hji : j = i
  · rw [hji, update_self, update_self]
    exact .none
  · rw [update_of_ne hji, update_of_ne hji]
    by_cases hjp : j = p
    · rw [hjp, update_self, update_self]
      refine .dir (hw.erase hperm) fun t k => ?_
      have hnot := (Fs.nodup_names_erase hw.distinct hperm).1
      by_cases ht : t = s
      · rw [ht, update_self]
        refine iff_of_false nofun fun hmem => hnot (List.mem_map.mpr ⟨_, hmem, rfl⟩)
      · rw [update_of_ne ht, hnames, hperm.mem_iff, List.mem_cons, Prod.mk.injEq]
        simp [ht]
    · rw [update_of_ne hjp, update_of_ne hjp]
      refine h.elsewhere fun nsj hnsj b hb => hframe b fun hm => ?_
      exact hjp (h.rep.laid.apart hnsj ho hb (Obj.mem_blocks_of_node hm))

end Holds

/-! ### Attributes -/

theorem fsGetattr_gives {α : Type} (read : Block → α) (hi : v.Has i) :
    Gives [] v (Fs.getattr i read) (.ok, some (read (v.block i))) v := by
  refine Does.withLock List.not_mem_nil (Does.bind (Does.uninit fun buf => ?_))
  refine (Gives.safeGet (Fs.offBitmap_singleton hi.data) hi (.inl rfl)).bind ?_
  rw [if_neg (fun he => by cases he), if_neg fun hne => hne rfl]
  exact Gives.pure _

theorem getattr_does {n : Node} (h : Holds v fs σ) (hn : σ i = some n) :
    Does [] v (getattr i) fun r v' => v' = v ∧ r.1 = .ok ∧ IsStat i n r.2 := by
  rw [getattr]
  cases n with
  | file link c =>
    obtain ⟨ns, ho, hc, hmode⟩ := h.file hn
    have hhas := h.rep.laid.has ho (h.rep.laid.head_mem ho)
    refine (Gives.hasMode 1 hhas).bind ((Gives.issym hhas).bind ?_)
    rw [hmode]
    cases link with
    | true =>
      refine (fsGetattr_gives _ hhas).bind (Does.pure ⟨rfl, rfl, rfl, rfl, rfl, ?_⟩)
      exact hc.size
    | false =>
      refine (Gives.hasMode 1 hhas).bind ?_
      rw [hmode]
      refine (fsGetattr_gives _ hhas).bind (Does.pure ⟨rfl, rfl, rfl, rfl, rfl, ?_⟩)
      exact hc.size
  | dir names =>
    obtain ⟨ns, ho, -, -⟩ := h.dir hn
    have hhas := h.rep.laid.has ho (h.rep.laid.head_mem ho)
    have hmode : (v.block i).mode = 0 := (h.rep.laid.shows ho).2.1
    refine (Gives.hasMode 1 hhas).bind ((Gives.issym hhas).bind ?_)
    rw [hmode]
    refine (Gives.hasMode 1 hhas).bind ?_
    rw [hmode]
    exact (fsGetattr_gives _ hhas).bind (Does.pure ⟨rfl, rfl, rfl, rfl, rfl, rfl⟩)

theorem entryOf_does {n : Node} (h : Holds v fs σ) (hn : σ i = some n) :
    Does [] v (entryOf i) fun e v' => v' = v ∧ ∃ st, e = ⟨i, st⟩ ∧ IsStat i n st := by
  refine Does.bind ((getattr_does h hn).mono ?_)
  rintro r _ ⟨rfl, -, hst⟩
  exact Does.pure ⟨rfl, r.2, rfl, hst⟩

/-! ### One request -/

def Right (lib : Libfuse) (σ : FileSystem) (req : Request) (reply : Reply) (v : Vol) : Prop :=
  ∃ fs' σ', Holds v fs' σ' ∧ Answers lib σ req reply σ'

theorem fuseserverGetattr_does {n : Node} (h : Holds v fs σ) (hn : σ i = some n) :
    Does [] v (fuseserverGetattr i) (Right lib σ (.getattr i)) := by
  refine Does.bind ((getattr_does h hn).mono ?_)
  rintro r _ ⟨rfl, hok, hst⟩
  rw [if_neg fun hne => hne hok]
  exact Does.pure ⟨fs, σ, h, .getattr hn hst⟩

/-- `setattr` with a size for which there is room, where the first node need not gain a block
and only zeros are cut off. -/
theorem fuseserverSetattr_does {toSet : Nat} {attr : Fs.FileInfo} {ns : Nodes Nat} {link : Bool}
    {c : Sparse Byte} (h : Holds v fs σ) (ho : fs i = some (.file ns)) (hσ : σ i = some (.file link c))
    (hset : setAttrSize &&& toSet ≠ 0)
    (hfree : Fs.taken ns.length (itemsOf ns).length (attr.size / 512) ≤ v.free)
    (hkeep : 1 < ns.length ∨ attr.size ≤ 512 * (itemsOf ns).length) (hcut : ∀ k, attr.size ≤ k → c.get k = 0) :
    Does [] v (fuseserverSetattr i toSet attr) (Right lib σ (.setattr i toSet attr)) := by
  obtain ⟨ns', ho', hc, hmode⟩ := h.file hσ
  obtain rfl : ns = ns' := by
    rw [ho] at ho'
    cases ho'
    rfl
  have hsize := h.rep.size_lt_of_taken ho hfree
  rw [fuseserverSetattr, if_pos hset]
  refine Does.bind ((hc.resize h.rep ho hsize hfree).mono ?_)
  rintro _ v' ⟨rfl, ns', hrep, -, -, hc', hsame, hframe⟩
  have hholds := h.update ho hrep (hc' hkeep hcut) (Eq.trans hsame hmode) hframe
  rw [if_pos rfl]
  refine Does.bind ((getattr_does hholds (update_self ..)).mono ?_)
  rintro r _ ⟨rfl, -, hst⟩
  exact Does.pure ⟨_, _, hholds, .resize hσ hset hst⟩

theorem drop_take_bytesOf {ns : Nodes Nat} {c : Sparse Byte} (hc : Contains v i ns c) (o n : Nat) :
    ((Fs.bytesOf v (itemsOf ns)).drop o).take n =
      (List.range (min n (512 * (itemsOf ns).length - o))).map fun k => c.get (o + k) := by
  have hbytes : Fs.bytesOf v (itemsOf ns) = (List.range (512 * (itemsOf ns).length)).map c.get := by
    rw [← hc.bytes]
    exact Fs.flatMap_slice v (itemsOf ns)
  rw [hbytes]
  apply List.ext_getElem
  · simp
  · intro k _ _
    simp

/-- Where `inner_read` does not read on past the end of the file. -/
theorem fuseserverRead_does {size o : Nat} {ns : Nodes Nat} (h : Holds v fs σ) (ho : fs i = some (.file ns))
    (hend : o % 512 = 0 ∨ o + size ≤ (v.block i).size ∨ (v.block i).size ≤ 512 * (o / 512) ∨
      (v.block i).size = 512 * (itemsOf ns).length) :
    Does [] v (fuseserverRead i size o) (Right lib σ (.read i size o)) := by
  obtain ⟨link, c, hσ, hc, -⟩ := h.of_file ho
  have hfilled := hc.filled
  by_cases hsize : size = 0
  · have hnil : Fs.read i size o = Fs.withLock i (pure (.ok, [])) := by
      rw [hsize]
      rfl
    rw [fuseserverRead, hnil]
    refine Gives.bind (Does.withLock List.not_mem_nil (Gives.pure _)) ?_
    rw [if_pos rfl]
    refine Does.pure ⟨fs, σ, h, ?_⟩
    rw [hsize]
    exact .read hσ
  · have hread := (h.rep.laid.fileAt ho).innerRead (o := o) (h.rep.laid.shows ho).2.2.2
      (Fs.locks_self h.rep ho) (Nat.pos_of_ne_zero hsize)
    refine Does.bind ((Does.withLock List.not_mem_nil hread).mono ?_)
    rintro _ _ ⟨rfl, now, rfl⟩
    rw [if_pos rfl]
    refine Does.pure ⟨fs, σ, h.retouch ho (by simp) (by simp) (by simp), ?_⟩
    rw [hc.size] at hend
    have hcount := (Fs.read_count_iff hfilled (Nat.pos_of_ne_zero hsize)).mpr hend
    have hexact : min (min size (c.size - o)) (512 * (itemsOf ns).length - o) = min size (c.size - o) := by omega
    rw [drop_take_bytesOf hc, hc.size, hcount, hexact]
    exact .read hσ

theorem fuseserverWrite_does {size : Nat} {buf : List Byte} {off : Int} {ns : Nodes Nat} (h : Holds v fs σ)
    (ho : fs i = some (.file ns)) (hoff : 0 ≤ off) (hbuf : size ≤ buf.length)
    (hfree : Fs.taken ns.length (itemsOf ns).length (Fs.lastBlock off size) ≤ v.free) :
    Does [] v (fuseserverWrite i buf size off) (Right lib σ (.write i buf size off)) := by
  obtain ⟨link, c, hσ, hc, hmode⟩ := h.of_file ho
  have hl := Fs.locks_self h.rep ho
  refine Does.bind ((Does.withLock List.not_mem_nil (hc.write h.rep ho hl hoff hbuf hfree)).mono ?_)
  rintro _ v' ⟨rfl, ns', sz, g, hst, hc', -⟩
  have hholds := h.update ho hst.rep hc' (Eq.trans hst.mode hmode) fun b hb hnot => hst.block_eq hb hnot
  rw [if_pos rfl]
  exact Does.pure ⟨_, _, hholds, .write hσ⟩

/-! ### Names -/

section
variable {ns : Nodes Fs.Entry} {name : List Byte}

theorem Holds.unused (h : Holds v fs σ) (hi : v.used i = false) : fs i = none := by
  by_contra hne
  obtain ⟨o, ho⟩ := Option.ne_none_iff_exists'.mp hne
  rw [h.rep.used_dir ho] at hi
  cases hi

/-- The reply of `create` and `mknod`. -/
theorem createReply_does (reply : Entry → Reply) (h : Holds v fs σ) (ho : fs p = some (.dir ns))
    (hlen : name.length ≤ 63) (hno : ∀ e ∈ itemsOf ns, e.1 ≠ cStr name) (hfree : Fs.roomCost ns + 1 ≤ v.free) :
    Does [] v (createReply reply p name) fun r v' => ∃ i st fs' σ', r = reply ⟨i, st⟩ ∧ Holds v' fs' σ' ∧
      Makes σ p (cStr name) i (.file false .empty) σ' ∧ IsStat i (.file false .empty) st := by
  refine Does.bind (Does.bind (Does.uninit fun junk => Does.bind
    ((Fs.create_does h.rep ho hlen hno hfree).mono ?_)))
  rintro _ v' ⟨i, ns', rfl, hm⟩
  have hnew : Matches v' i (some (.file [(i, [])])) (some (.file false .empty)) :=
    .file (.new hm.blank.size) hm.blank.mode
  obtain ⟨σ', hholds, hmakes, hi⟩ :=
    h.make ho (Fs.validName_cStr hlen) hno (h.unused hm.fresh) hm.rep hm.entries hnew
      fun b hb hn => (hm.frame b hb hn).1
  rw [if_pos rfl]
  refine Does.bind ((entryOf_does hholds hi).mono ?_)
  rintro _ _ ⟨rfl, st, rfl, hst⟩
  exact Does.pure (Does.pure ⟨i, st, _, σ', rfl, hholds, hmakes, hst⟩)

theorem replyNew_does {n : Node} (h : Holds v fs σ) (hi : σ i = some n) :
    Does [] v (replyNew (.ok, i)) fun r v' => v' = v ∧ ∃ st, r = .entry ⟨i, st⟩ ∧ IsStat i n st := by
  rw [replyNew, if_pos rfl]
  refine Does.bind ((entryOf_does h hi).mono ?_)
  rintro _ _ ⟨rfl, st, rfl, hst⟩
  exact Does.pure ⟨rfl, st, rfl, hst⟩

theorem fuseserverMkdir_does (h : Holds v fs σ) (ho : fs p = some (.dir ns)) (hlen : name.length ≤ 63)
    (hno : ∀ e ∈ itemsOf ns, e.1 ≠ cStr name) (hfree : Fs.roomCost ns + 1 ≤ v.free) :
    Does [] v (fuseserverMkdir p name) (Right lib σ (.mkdir p name)) := by
  refine Does.bind (Does.uninit fun junk => Does.bind ((Fs.mkdir_does h.rep ho hlen hfree).mono ?_))
  rintro _ v' ⟨i, ns', rfl, hm⟩
  have hnew : Matches v' i (some (.dir [(i, [])])) (some (.dir fun _ => none)) :=
    .dir ⟨List.nodup_nil, nofun⟩ fun s j => iff_of_false nofun List.not_mem_nil
  obtain ⟨σ', hholds, hmakes, hi⟩ :=
    h.make ho (Fs.validName_cStr hlen) hno (h.unused hm.fresh) hm.rep hm.entries hnew
      fun b hb hn => (hm.frame b hb hn).1
  refine (replyNew_does hholds hi).mono ?_
  rintro _ _ ⟨rfl, st, rfl, hst⟩
  exact ⟨_, σ', hholds, .mkdir hmakes hst⟩

theorem fuseserverSymlink_does {link : List Byte} (h : Holds v fs σ) (ho : fs p = some (.dir ns))
    (hlen : name.length ≤ 63) (hno : ∀ e ∈ itemsOf ns, e.1 ≠ cStr name)
    (hfree : Fs.roomCost ns + 1 + Fs.taken 1 0 (Fs.lastBlock 0 (cStr link).length) ≤ v.free) :
    Does [] v (fuseserverSymlink link p name) (Right lib σ (.symlink link p name)) := by
  refine Does.bind (Does.uninit fun junk => Does.bind ((Fs.symlink_links h.rep ho hlen hno hfree).mono ?_))
  rintro _ v' ⟨i, nsf, ns', rfl, -, hnone, hrep, hperm, hc, hmode, hframe⟩
  have hlink : Matches v' i (some (.file nsf)) (some (.file true _)) := .file hc hmode
  obtain ⟨σ', hholds, hmakes, hi⟩ := h.make ho (Fs.validName_cStr hlen) hno hnone hrep hperm hlink hframe
  refine (replyNew_does hholds hi).mono ?_
  rintro _ _ ⟨rfl, st, rfl, hst⟩
  exact ⟨_, σ', hholds, .symlink hmakes hst⟩

theorem Holds.entry {s : List Byte} (h : Holds v fs σ) (ho : fs p = some (.dir ns)) (hi : (s, i) ∈ itemsOf ns) :
    (∃ n, σ i = some n) ∧ 0 < i := by
  have hkid : i ∈ Fs.kids fs p := by
    rw [Fs.kids_of_some ho]
    exact List.mem_map.mpr ⟨_, hi, rfl⟩
  obtain ⟨o, hio⟩ := h.rep.kid_some hkid
  exact ⟨h.of_some hio, Nat.pos_of_ne_zero (h.rep.laid.ne_zero hio (h.rep.laid.head_mem hio))⟩

theorem fuseserverLookup_does (h : Holds v fs σ) (ho : fs p = some (.dir ns)) :
    Does [] v (fuseserverLookup p name) (Right lib σ (.lookup p name)) := by
  obtain ⟨names, hσ, hw, hnames⟩ := h.of_dir ho
  have hs : Fs.Comparable (cStr name) (itemsOf ns) := ⟨Fs.zero_notMem_cStr name, .inr hw.fits⟩
  refine Does.bind ((Fs.lookup_does h.rep ho hs).mono ?_)
  rintro i _ ⟨⟨now, rfl⟩, hfound⟩
  have h' : Holds (v.write p ((v.block p).setAtime now)) fs σ := h.retouch ho (by simp) (by simp) (by simp)
  rcases hfound with ⟨rfl, hno⟩ | hmem
  · rw [if_neg (Nat.lt_irrefl 0)]
    refine Does.pure ⟨fs, σ, h', .noent hσ ?_⟩
    by_contra hsome
    obtain ⟨j, hj⟩ := Option.ne_none_iff_exists'.mp hsome
    exact hno _ ((hnames _ j).mp hj) rfl
  · obtain ⟨⟨n, hn⟩, hpos⟩ := h.entry ho hmem
    rw [if_pos hpos]
    refine Does.bind ((entryOf_does h' hn).mono ?_)
    rintro _ _ ⟨rfl, st, rfl, hst⟩
    exact Does.pure ⟨fs, σ, h', .lookup hσ ((hnames _ i).mpr hmem) hn hst⟩

/-- On a directory. -/
theorem fuseserverReaddir_does {size : Nat} {off : Int} (h : Holds v fs σ) (ho : fs p = some (.dir ns)) :
    Does [] v (fuseserverReaddir lib p size off) (Right lib σ (.readdir p size off)) := by
  obtain ⟨names, hσ, hw, hnames⟩ := h.of_dir ho
  have hhas := h.rep.dir_has_head ho
  refine (Gives.hasMode 0 hhas).bind ?_
  rw [if_pos (decide_eq_true (h.rep.laid.shows ho).2.1)]
  refine Does.bind ((Fs.readdir_does h.rep ho hw.fits).mono ?_)
  rintro r _ ⟨hok, hmem, now, rfl⟩
  rw [if_pos hok]
  refine Does.pure ⟨fs, σ, h.retouch ho (by simp) (by simp) (by simp), .readdir hσ ⟨?_, fun i s => ?_⟩⟩
  · exact r.2.sorted.imp fun hlt => Int.ofNat_lt.mp (of_decide_eq_true hlt)
  · rw [← SortedMap.get_eq_some, hmem, hnames]

/-- On a file or a link. -/
theorem fuseserverReaddir_notdir {size : Nat} {off : Int} {link : Bool} {c : Sparse Byte} (h : Holds v fs σ)
    (hσ : σ p = some (.file link c)) :
    Does [] v (fuseserverReaddir lib p size off) (Right lib σ (.readdir p size off)) := by
  obtain ⟨nsf, ho, -, -⟩ := h.file hσ
  have hhas := h.rep.laid.has ho (h.rep.laid.head_mem ho)
  refine (Gives.hasMode 0 hhas).bind ?_
  rw [if_neg fun hdir => (h.rep.laid.shows ho).2.1 (of_decide_eq_true hdir)]
  exact Does.pure ⟨fs, σ, h, .notdir hσ⟩

theorem fuseserverUnlink_does (h : Holds v fs σ) (ho : fs p = some (.dir ns))
    (hfile : ∀ e ∈ itemsOf ns, e.1 = cStr name → ∃ nsf, fs e.2 = some (.file nsf)) :
    Does [] v (fuseserverUnlink p name) (Right lib σ (.unlink p name)) := by
  obtain ⟨names, hσ, hw, hnames⟩ := h.of_dir ho
  have hs : Fs.Comparable (cStr name) (itemsOf ns) := ⟨Fs.zero_notMem_cStr name, .inr hw.fits⟩
  refine Does.bind ((Fs.unlink_does h.rep ho hs hfile).mono ?_)
  rintro _ v' ⟨hframe, ⟨rfl, hno, hrep, -⟩ | ⟨rfl, i, ns', hperm, hrep, -⟩⟩
  · refine Does.pure ⟨fs, σ, ⟨hrep, fun j => ?_⟩, .unlinked hσ ?_⟩
    · refine h.elsewhere fun nsj hnsj b hb => hframe b fun hm => ?_
      obtain rfl := h.rep.laid.apart hnsj ho hb (Obj.mem_blocks_of_node hm)
      rw [ho] at hnsj
      cases hnsj
    · by_contra hsome
      obtain ⟨j, hj⟩ := Option.ne_none_iff_exists'.mp hsome
      exact hno _ ((hnames _ j).mp hj) rfl
  · have hmem : (cStr name, i) ∈ itemsOf ns := hperm.mem_iff.mpr List.mem_cons_self
    obtain ⟨nsf, hi⟩ := hfile _ hmem rfl
    obtain ⟨link, c, hσi, -, -⟩ := h.of_file hi
    exact Does.pure ⟨_, _, h.drop ho hw hnames hrep hperm hframe, .unlink hσ ((hnames _ i).mpr hmem) hσi⟩

end

theorem fuseserverReadlink_does {link : Bool} {c : Sparse Byte} (h : Holds v fs σ) (hσ : σ i = some (.file link c)) :
    Does [] v (fuseserverReadlink i) (Right lib σ (.readlink i)) := by
  obtain ⟨ns, ho, hc, -⟩ := h.file hσ
  refine Does.bind ((hc.readlink h.rep ho).mono ?_)
  rintro _ v' ⟨rfl, hv⟩
  rw [if_pos rfl]
  have h' : Holds v' fs σ := by
    rcases hv with rfl | ⟨now, rfl⟩
    · exact h
    · exact h.retouch ho (by simp) (by simp) (by simp)
  exact Does.pure ⟨fs, σ, h', .readlink hσ⟩

end

/-! ### Sessions -/

/-- What may be asked of the disk. -/
def Request.ok (w : World) : Request → Prop
  | .getattr ino | .readdir ino _ _ => Fs.Node w.disk ino ino
  | .setattr ino toSet attr => setAttrSize &&& toSet ≠ 0 → (Op.setattr ino true attr).resizes w
  | .read ino size off => IsFile w.disk ino ∧ 0 ≤ off ∧ (off.toNat % 512 = 0 ∨
      off.toNat + size ≤ (w.disk ino).size ∨ (w.disk ino).size ≤ 512 * (off.toNat / 512) ∨
      ∀ nodes, Fs.Chain w.disk ino nodes → (w.disk ino).size = 512 * Fs.blockCount w.disk nodes)
  | .write ino buf size off => (Op.write ino buf size off).resizes w
  | .create parent name | .mknod parent name => (Op.create parent name).ok w
  | .mkdir parent name => (Op.mkdir parent name).ok w
  | .symlink link parent name => (Op.symlink parent name (cStr link)).ok w
  | .lookup parent _ => IsDir w.disk parent
  | .unlink parent name => (Op.unlink parent name).ok w
  | .readlink ino => IsFile w.disk ino
  | .open _ | .statfs => True

/-- The handler runs, and the request and the reply are recorded. -/
def Request.step (lib : Libfuse) (s : World × List (Request × Reply)) (req : Request) :
    Option (World × List (Request × Reply)) :=
  (Prog.run World.answer (req.code lib) s.1).map fun x => (x.2, (req, x.1) :: s.2)

/-- **One request.** -/
theorem Request.does (lib : Libfuse) {w : World} {fs : Tree} {σ : FileSystem} {req : Request} (h : Holds w.vol fs σ)
    (hok : req.ok w) : Does [] w.vol (req.code lib) (Right lib σ req) := by
  have hr := h.rep
  cases req with
  | getattr ino =>
    obtain ⟨o, ho, -⟩ := hr.of_node hok
    obtain ⟨n, hn⟩ := h.of_some ho
    exact fuseserverGetattr_does h hn
  | setattr ino toSet attr =>
    by_cases hset : setAttrSize &&& toSet = 0
    · show Does [] w.vol (fuseserverSetattr ino toSet attr) _
      rw [fuseserverSetattr, if_neg fun hne => hne hset]
      exact Does.pure ⟨fs, σ, h, .setattr hset⟩
    · obtain ⟨hfile, hcond⟩ := hok hset
      obtain ⟨ns, ho⟩ := hr.isFile hfile
      obtain ⟨link, c, hσ, hc, -⟩ := h.of_file ho
      obtain ⟨hneed, hkeep, hcut⟩ := hcond _ (hr.chain_self ho)
      rw [Obj.nodes, hr.writeNeed_eq ho] at hneed
      rw [Obj.nodes, hr.blockCount_eq ho, nodesOf, List.length_map] at hkeep
      exact fuseserverSetattr_does h ho hσ hset hneed hkeep (hc.zero_cut hr ho hcut)
  | read ino size off =>
    obtain ⟨hfile, hoff, hend⟩ := hok
    obtain ⟨ns, ho⟩ := hr.isFile hfile
    obtain ⟨o, rfl⟩ := Int.eq_ofNat_of_zero_le hoff
    rw [Int.toNat_natCast] at hend
    refine fuseserverRead_does h ho ?_
    rw [(show w.vol.block ino = w.disk ino from if_pos (hr.laid.has ho (hr.laid.head_mem ho)).data),
      ← hr.blockCount_eq ho]
    exact hend.imp_right (.imp_right (.imp_right fun hfull => hfull _ (hr.chain_self ho)))
  | write ino buf size off =>
    obtain ⟨hoff, hfile, hbuf, -, hfree⟩ := hok
    obtain ⟨ns, ho⟩ := hr.isFile hfile
    have hneed := hfree _ (hr.chain_self ho)
    rw [Obj.nodes, hr.writeNeed_eq ho] at hneed
    exact fuseserverWrite_does h ho hoff hbuf hneed
  | create parent name =>
    obtain ⟨hdir, hname, hfree⟩ := hok
    obtain ⟨ns, ho, hneed⟩ := hr.entry_room hdir 0 hfree
    refine (createReply_does .create h ho hname.2.1 (hr.newName ho hname) hneed).mono ?_
    rintro _ v' ⟨i, st, fs', σ', rfl, hholds, hmakes, hst⟩
    exact ⟨fs', σ', hholds, .create hmakes hst⟩
  | mknod parent name =>
    obtain ⟨hdir, hname, hfree⟩ := hok
    obtain ⟨ns, ho, hneed⟩ := hr.entry_room hdir 0 hfree
    refine (createReply_does .entry h ho hname.2.1 (hr.newName ho hname) hneed).mono ?_
    rintro _ v' ⟨i, st, fs', σ', rfl, hholds, hmakes, hst⟩
    exact ⟨fs', σ', hholds, .mknod hmakes hst⟩
  | lookup parent name =>
    obtain ⟨ns, ho⟩ := hr.isDir hok
    exact fuseserverLookup_does h ho
  | readdir ino size off =>
    obtain ⟨o, ho, -⟩ := hr.of_node hok
    cases o with
    | dir ns => exact fuseserverReaddir_does h ho
    | file ns =>
      obtain ⟨link, c, hσ, -, -⟩ := h.of_file ho
      exact fuseserverReaddir_notdir h hσ
  | «open» ino => exact Does.pure ⟨fs, σ, h, .open⟩
  | mkdir parent name =>
    obtain ⟨hdir, hname, hfree⟩ := hok
    obtain ⟨ns, ho, hneed⟩ := hr.entry_room hdir 0 hfree
    exact fuseserverMkdir_does h ho hname.2.1 (hr.newName ho hname) hneed
  | unlink parent name =>
    obtain ⟨hdir, -, -, hmode⟩ := hok
    obtain ⟨ns, ho⟩ := hr.isDir hdir
    refine fuseserverUnlink_does h ho fun e he hname => ?_
    obtain ⟨n, j, hn, hinum⟩ := hr.hasName_of_mem ho he hname
    obtain ⟨o, hkid⟩ := hr.kid_some (show e.2 ∈ Fs.kids fs parent by
      rw [Fs.kids_of_some ho]
      exact List.mem_map.mpr ⟨e, he, rfl⟩)
    obtain ⟨nsf, rfl⟩ := hr.file_of_mode hkid (hinum ▸ hmode n j hn)
    exact ⟨nsf, hkid⟩
  | symlink link parent name =>
    obtain ⟨hdir, hname, hfree⟩ := hok
    obtain ⟨ns, ho, hneed⟩ := hr.entry_room hdir _ hfree
    exact fuseserverSymlink_does h ho hname.2.1 (hr.newName ho hname) hneed
  | readlink ino =>
    obtain ⟨ns, ho⟩ := hr.isFile hok
    obtain ⟨link, c, hσ, -, -⟩ := h.of_file ho
    exact fuseserverReadlink_does h hσ
  | statfs => exact Does.pure ⟨fs, σ, h, .statfs⟩

/-- What the constructor leaves holds an empty root. -/
theorem holds_format {clock : Nat → Nat} {junk : Nat → Block} :
    Holds (Fs.volOf (Fs.format (Fs.blank clock junk).disk)) Fs.rootOnly .new := by
  refine ⟨Fs.rep_format, fun i => ?_⟩
  unfold Fs.rootOnly FileSystem.new
  by_cases hi : i = 1
  · rw [hi, update_self, update_self]
    exact .dir ⟨List.nodup_nil, nofun⟩ fun s j => iff_of_false nofun List.not_mem_nil
  · rw [update_of_ne hi, update_of_ne hi]
    exact .none

/-- Between two requests the disk holds what the session has led to. -/
def Serving (lib : Libfuse) (s : World × List (Request × Reply)) : Prop :=
  s.1.held = [] ∧ ∃ fs σ, Holds s.1.vol fs σ ∧ Session lib .new s.2 σ

theorem Serving.step {lib : Libfuse} {s : World × List (Request × Reply)} {req : Request} (h : Serving lib s)
    (hok : req.ok s.1) :
    ∃ w reply, req.step lib s = some (w, (req, reply) :: s.2) ∧ Serving lib (w, (req, reply) :: s.2) := by
  obtain ⟨hw, fs, σ, hholds, hsession⟩ := h
  obtain ⟨reply, w, hrun, hheld, fs', σ', hholds', hanswers⟩ := Request.does lib hholds hok s.1 hw rfl
  refine ⟨w, reply, ?_, hheld, fs', σ', hholds', hsession.step hanswers⟩
  rw [Request.step, hrun]
  rfl

theorem Serving.of_steps {lib : Libfuse} {clock : Nat → Nat} {junk : Nat → Block} {w₀ : World}
    {s : World × List (Request × Reply)} (hmount : Fs.mount (Fs.blank clock junk) = some w₀)
    (hrun : Steps (Request.step lib) (fun s req => req.ok s.1) (w₀, []) s) : Serving lib s := by
  rw [Fs.mount_eq rfl] at hmount
  cases hmount
  refine hrun.invariant ⟨rfl, Fs.rootOnly, .new, holds_format, .start⟩ ?_
  intro s req s' h hok hs
  obtain ⟨w', reply, hs', h'⟩ := h.step hok
  rw [hs] at hs'
  cases hs'
  exact h'

/-- **A session of FUSE requests is one of the file system.** From the mounted disk on, while
it is asked what it may be asked (`Request.ok`), the server answers every request, and the
replies are right for the file system that the requests make, with any FUSE library. -/
theorem session_refines (lib : Libfuse) (clock : Nat → Nat) (junk : Nat → Block) :
    ∃ w₀, Fs.mount (Fs.blank clock junk) = some w₀ ∧ ∀ w log,
      Steps (Request.step lib) (fun s req => req.ok s.1) (w₀, []) (w, log) →
        (∃ fs σ, Holds w.vol fs σ ∧ Session lib .new log σ) ∧
        ∀ req : Request, req.ok w → ∃ w' reply, req.step lib (w, log) = some (w', (req, reply) :: log) := by
  refine ⟨_, Fs.mount_eq rfl, fun w log hrun => ?_⟩
  have hserving := Serving.of_steps (Fs.mount_eq rfl) hrun
  refine ⟨hserving.2, fun req hok => ?_⟩
  obtain ⟨w', reply, hs, -⟩ := hserving.step hok
  exact ⟨w', reply, hs⟩

/-- A file is made, written to, found, read and listed; the name it is given second is not
there. -/
theorem session_refines_one_file : ∃ w₀ w log, Fs.mount Fs.still = some w₀ ∧
    Steps (Request.step .namesOnly) (fun s req => req.ok s.1) (w₀, []) (w, log) ∧
    log.map Prod.snd = [.err .enoent, .buf [97], .buf [98, 99], .entry ⟨2, ⟨2, modeFile, 1, 2, 0, 0, 0⟩⟩, .write 2,
      .create ⟨2, ⟨2, modeFile, 1, 0, 0, 0, 0⟩⟩] ∧
    ∃ fs σ, Holds w.vol fs σ ∧ Session .namesOnly .new log σ := by
  obtain ⟨w₀, hw₀, hbare, s₁, hs₁, hone, s₂, hs₂, htwo, s₃, hs₃, hthree, s₄, hs₄, -, s₅, hs₅, hfive, s₆, hs₆, hlog⟩ :
      ∃ w₀, Fs.mount Fs.still = some w₀ ∧ Fs.Bare w₀ ∧
      ∃ s₁, Request.step .namesOnly (w₀, []) (.create 1 [97]) = some s₁ ∧ Fs.OneFile s₁.1 0 ∧
      ∃ s₂, Request.step .namesOnly s₁ (.write 2 [98, 99] 2 0) = some s₂ ∧ Fs.OneFile s₂.1 1 ∧
      ∃ s₃, Request.step .namesOnly s₂ (.lookup 1 [97]) = some s₃ ∧ Fs.OneFile s₃.1 1 ∧
      ∃ s₄, Request.step .namesOnly s₃ (.read 2 10 0) = some s₄ ∧ Fs.OneFile s₄.1 1 ∧
      ∃ s₅, Request.step .namesOnly s₄ (.readdir 1 10 0) = some s₅ ∧ Fs.OneFile s₅.1 1 ∧
      ∃ s₆, Request.step .namesOnly s₅ (.lookup 1 [98]) = some s₆ ∧
      s₆.2.map Prod.snd = [.err .enoent, .buf [97], .buf [98, 99], .entry ⟨2, ⟨2, modeFile, 1, 2, 0, 0, 0⟩⟩, .write 2,
        .create ⟨2, ⟨2, modeFile, 1, 0, 0, 0, 0⟩⟩] := by
    decide +kernel
  have hcreate : (Request.create 1 [97]).ok w₀ := hbare.ok_create (by decide) (by decide)
  have hwrite : (Request.write 2 [98, 99] 2 0).ok s₁.1 :=
    ⟨by decide, hone.ok_write (by decide) (by decide) (by decide)⟩
  have hread : (Request.read 2 10 0).ok s₃.1 := ⟨hthree.isFile, by decide, .inl rfl⟩
  have hfound : (Request.lookup 1 [97]).ok s₂.1 := htwo.1.isDir
  have hlist : (Request.readdir 1 10 0).ok s₄.1 := .root
  have hmissed : (Request.lookup 1 [98]).ok s₅.1 := hfive.1.isDir
  have hfirst : Steps (Request.step .namesOnly) (fun s req => req.ok s.1) (w₀, []) s₁ := Steps.refl.tail hcreate hs₁
  have hsteps : Steps (Request.step .namesOnly) (fun s req => req.ok s.1) (w₀, []) s₆ :=
    ((((hfirst.tail hwrite hs₂).tail hfound hs₃).tail hread hs₄).tail hlist hs₅).tail hmissed hs₆
  obtain ⟨w₀', hw₀', hall⟩ := session_refines .namesOnly (fun _ => 0) fun _ => Bytes.zero
  obtain rfl : w₀' = w₀ := Option.some.inj (hw₀'.symm.trans hw₀)
  exact ⟨w₀', s₆.1, s₆.2, hw₀, hsteps, hlog, (hall s₆.1 s₆.2 hsteps).1⟩

end Yfs.Fuse

import Yfs.Fs.Regions

/-! The operations that change the file system keep to their region.

Each of them enters the file or directory of its inode with the lock, and follows the
chain of its nodes. What it reads is what it has: so the next node is one of the chain,
a direct block is one of the file, and a block that it takes is linked by the next node
that it puts. `setattr` puts back the inode that it has read, and what was linked to it
since is lost. `symlink` goes on with the file that it has made. `unlink` cuts a file off
when it puts the node without the entry, takes it with its lock, and frees every block of
it once. -/
namespace Yfs.Fs
open Yfs.Base

namespace Walks
variable {q : Request} {x : Region} {b h k : Nat} {o : Obj} {L : List Nat} {buf d : Block}

/-! ### Writing a file -/

section
variable {ns : Nodes Nat} {c : Cursor} {p : Nat} {check : Bool}

/-- Past the last direct block of a node the function goes on to the next node. -/
theorem nextNode (hx : x.With k h (.file ns) []) (hc : Pos x.mem ns c p) :
    Walks q (nextNode h check c) x fun r x' => ∃ c' ns', r = some c' ∧ KeepsHead ns ns' ∧ x'.With k h (.file ns') [] ∧
      Pos x'.mem ns' c' p ∧ c'.index < 16 := by
  obtain ⟨pre, n, ds, post, rfl, htarget, hinode, hidx, hp⟩ := hc
  obtain ⟨hshow, hnext⟩ := hx.shown.file_node
  have hfits := hshow.fits
  have hn : n ∈ (Obj.file (pre ++ (n, ds) :: post)).blocks := Obj.mem_blocks_of_node (by simp [Obj.nodes])
  have hpos : 16 ≤ c.index → 16 * pre.length + c.index = 16 * (pre ++ [(n, ds)]).length + 0 := by
    intro hfull
    rw [List.length_append, List.length_singleton]
    omega
  rw [Fs.nextNode]
  by_cases hfull : directBlockNum ≤ c.index
  · have hfull' : 16 ≤ c.index := hfull
    rw [if_pos hfull, hinode, hnext]
    cases post with
    | nil =>
      rw [if_pos (show firstOf [] = 0 from rfl)]
      refine .bind ((alloc hx).mono ?_)
      rintro _ x₁ ⟨i, rfl, hi, hmem₁, hx₁⟩
      have hi' : i < 2 ^ 64 := Nat.lt_trans hi (by decide)
      have hni : n ≠ i := fun e => hx₁.not_mem (e ▸ hn)
      have hblock : x.mem.block n = x₁.mem.block n := by rw [hmem₁, Vol.write_block_ne hni]
      have hnew : (x₁.mem.block i).links = Block.links Bytes.zero := by
        rw [hmem₁, Vol.write_block_self]
        exact Block.links_setMode ..
      have hshows := hx₁.shown.add_node hx₁.nodup_nodes (by omega) hi' hni hnew
      dsimp only
      rw [if_neg (fun hbad => hbad.2 rfl), htarget, hblock]
      refine .bind ((safePut_grow hx₁ hn .file hshows ?_).mono ?_)
      · exact blocks_add_node.trans (List.perm_append_singleton ..).symm
      · rintro _ x₂ ⟨rfl, hmem₂, -, hx₂⟩
        rw [if_neg (fun hbad => hbad.2 rfl), Block.next_setNext _ _ hi']
        refine .bind ((safeGet hx₂ (hx₂.mem_blocks (Obj.mem_blocks_of_node (by simp [Obj.nodes])))).mono ?_)
        rintro _ _ ⟨rfl, rfl⟩
        refine .pure ⟨_, _, rfl, .node, hx₂, ⟨pre ++ [(n, ds)], i, [], [], by simp, rfl, rfl, Nat.le_refl _, ?_⟩, ?_⟩
        · exact hp.trans (hpos hfull')
        · exact Nat.zero_lt_succ _
    | cons y rest =>
      obtain ⟨m, ds'⟩ := y
      have hm : m ∈ x.blocks := hx.mem_blocks (Obj.mem_blocks_of_node (by simp [Obj.nodes]))
      rw [firstOf_cons, if_neg (hx.ne_zero m hm)]
      refine .bind ((safeGet hx hm).mono ?_)
      rintro _ _ ⟨rfl, rfl⟩
      refine .pure ⟨_, _, rfl, .self, hx, ⟨pre ++ [(n, ds)], m, ds', rest, by simp, rfl, rfl, Nat.zero_le _, ?_⟩, ?_⟩
      · exact hp.trans (hpos hfull')
      · exact Nat.zero_lt_succ _
  · rw [if_neg hfull]
    exact .pure ⟨c, _, rfl, .self, hx, ⟨pre, n, ds, post, rfl, htarget, hinode, hidx, hp⟩, Nat.lt_of_not_le hfull⟩

theorem newDirect (hx : x.With k h (.file ns) []) (hc : Pos x.mem ns c p) (hidx16 : c.index < 16) :
    Walks q (newDirect h c) x fun c' x' => ∃ ns', KeepsHead ns ns' ∧ x'.With k h (.file ns') [] ∧
      On x'.mem ns' c' p := by
  obtain ⟨pre, n, ds, post, rfl, htarget, hinode, hidx, hp⟩ := hc
  obtain ⟨hshow, -⟩ := hx.shown.file_node
  have hn : n ∈ (Obj.file (pre ++ (n, ds) :: post)).blocks := Obj.mem_blocks_of_node (by simp [Obj.nodes])
  rw [Fs.newDirect]
  by_cases hlt : c.index < ds.length
  · have hon : On x.mem (pre ++ (n, ds) :: post) c p := ⟨pre, n, ds, post, rfl, htarget, hinode, hlt, hp⟩
    have hmem : c.inode.direct c.index ∈ x.blocks := hx.mem_blocks (List.mem_append_right _ (hon.direct hx.shown))
    rw [if_neg (hx.ne_zero _ hmem)]
    exact .pure ⟨_, .self, hx, hon⟩
  · have hend : c.index = ds.length := by omega
    -- Only the last node has room.
    obtain rfl : post = [] := by
      by_contra hpost
      have := hx.shown.2.2.2.full hpost
      omega
    rw [hinode, hshow.direct _ hidx16, List.getD_eq_default _ _ (Nat.le_of_not_lt hlt), if_pos rfl]
    refine .bind ((alloc hx).mono ?_)
    rintro _ x₁ ⟨i, rfl, hi, hmem₁, hx₁⟩
    have hni : n ≠ i := fun e => hx₁.not_mem (e ▸ hn)
    have hblock : x.mem.block n = x₁.mem.block n := by rw [hmem₁, Vol.write_block_ne hni]
    have hshows := hx₁.shown.add_direct hx₁.nodup_nodes (by omega) (Nat.lt_trans hi (by decide))
    dsimp only
    rw [htarget, hblock, hend]
    refine .bind ((safePut_grow hx₁ hn .file hshows (by rw [blocks_add_direct])).mono ?_)
    rintro _ x₂ ⟨rfl, hmem₂, -, hx₂⟩
    refine .pure ⟨_, .direct, hx₂, pre, n, ds ++ [i], [], rfl, rfl, ?_, ?_, hend ▸ hp⟩
    · rw [hmem₂, Vol.write_block_self]
    · change ds.length < _
      rw [List.length_append, List.length_singleton]
      omega

theorem safePut_data (hx : x.With k h (.file ns) []) (hc : On x.mem ns c p) (hb : b ∈ itemsOf ns) :
    Walks q (Fs.safePut b d false h) x fun _ x' => x'.With k h (.file ns) [] ∧ On x'.mem ns c p := by
  have hnodup := hx.nodup
  rw [hx.blocks_eq, List.append_nil] at hnodup
  have hnot : b ∉ nodesOf ns := fun hn => (List.nodup_append.mp hnodup).2.2 b hn b hb rfl
  have hshows : Shows (x.mem.write b d) h (.file ns) :=
    hx.shown.congr fun n hn => Vol.write_block_ne fun e => hnot (e ▸ hn)
  refine (safePut_same hx (List.mem_append_right _ hb) hshows).mono ?_
  rintro _ x' ⟨-, hmem, -, hx'⟩
  rw [hmem]
  exact ⟨hx', hc.write hnot⟩

theorem touch {filesize : Int} (hx : x.With k h (.file ns) []) (hc : Pos x.mem ns c p) :
    Walks q (touch h check filesize c) x fun r x' => ∃ c' ns', r = some c' ∧ KeepsHead ns ns' ∧
      x'.With k h (.file ns') [] ∧ On x'.mem ns' c' p := by
  rw [Fs.touch]
  refine .bind ((nextNode hx hc).mono ?_)
  rintro _ x₁ ⟨c₁, ns₁, rfl, hk₁, hx₁, hc₁, hidx⟩
  refine .bind ((newDirect hx₁ hc₁ hidx).mono ?_)
  rintro c₂ x₂ ⟨ns₂, hk₂, hx₂, hc₂⟩
  rw [zeroDirect]
  split
  · refine .bind (.bind ((safePut_data hx₂ hc₂ (hc₂.direct hx₂.shown)).mono ?_))
    rintro _ x₃ ⟨hx₃, hc₃⟩
    exact .pure (.pure ⟨c₂, ns₂, rfl, hk₁.trans hk₂, hx₃, hc₃⟩)
  · exact .bind (.pure (.pure ⟨c₂, ns₂, rfl, hk₁.trans hk₂, hx₂, hc₂⟩))

theorem writeSeek {fuel : Nat} {off filesize : Int} (hx : x.With k h (.file ns) []) (hc : Pos x.mem ns c p) :
    Walks q (writeSeek h fuel off filesize c) x fun r x' => ∃ off' filesize' c' ns' p',
      r = some (off', filesize', c') ∧ KeepsHead ns ns' ∧ x'.With k h (.file ns') [] ∧ On x'.mem ns' c' p' := by
  induction fuel generalizing off filesize c x ns p with
  | zero => exact hang
  | succ fuel ih =>
    rw [Fs.writeSeek]
    refine .bind ((touch hx hc).mono ?_)
    rintro _ x₁ ⟨c₁, ns₁, rfl, hk₁, hx₁, hc₁⟩
    dsimp only
    split
    · refine (ih hx₁ hc₁.next).mono ?_
      rintro _ x₂ ⟨off', filesize', c₂, ns₂, p₂, rfl, hk₂, hx₂, hc₂⟩
      exact ⟨off', filesize', c₂, ns₂, p₂, rfl, hk₁.trans hk₂, hx₂, hc₂⟩
    · exact .pure ⟨_, _, c₁, ns₁, _, rfl, hk₁, hx₁, hc₁⟩

theorem writeLoop {fuel size : Nat} {buf : List Byte} {off filesize : Int} {data : Block}
    (hx : x.With k h (.file ns) []) (hc : Pos x.mem ns c p) :
    Walks q (writeLoop h fuel buf size off filesize data c) x fun _ x' => ∃ ns', KeepsHead ns ns' ∧
      x'.With k h (.file ns') [] := by
  induction fuel generalizing buf size off filesize data c x ns p with
  | zero => exact hang
  | succ fuel ih =>
    rw [Fs.writeLoop]
    refine .bind ((touch hx hc).mono ?_)
    rintro _ x₁ ⟨c₁, ns₁, rfl, hk₁, hx₁, hc₁⟩
    have hb := hc₁.direct hx₁.shown
    refine .bind ((safeGet hx₁ (hx₁.mem_blocks (List.mem_append_right _ hb))).mono ?_)
    rintro _ _ ⟨rfl, rfl⟩
    split
    · exact undefinedAccess
    · refine .bind ((safePut_data hx₁ hc₁ hb).mono ?_)
      rintro _ x₂ ⟨hx₂, hc₂⟩
      split
      · exact .pure ⟨ns₁, hk₁, hx₂⟩
      · refine (ih hx₂ hc₂.next).mono ?_
        rintro _ x₃ ⟨ns₃, hk₃, hx₃⟩
        exact ⟨ns₃, hk₁.trans hk₃, hx₃⟩

theorem file_head (hx : x.With k h (.file ns) L) : ∃ ds rest, ns = (h, ds) :: rest := by
  have hhead := hx.shown.head
  cases ns with
  | nil => cases hhead
  | cons y rest =>
    obtain ⟨n, ds⟩ := y
    obtain rfl : n = h := Option.some.inj hhead
    exact ⟨ds, rest, rfl⟩

theorem safePut_inode (hx : x.With k h (.file ns) []) (hl : d.links = (x.mem.block h).links)
    (hm : d.mode ≠ 0) :
    Walks q (Fs.safePut h d false h) x fun r x' =>
      r = (.ok, h) ∧ x'.mem = x.mem.write h d ∧ x'.With k h (.file ns) [] := by
  obtain ⟨ds, rest, rfl⟩ := file_head hx
  have hshow : Shows x.mem h (.file ([] ++ (h, ds) :: rest)) := hx.shown
  refine (safePut_same hx (Obj.mem_blocks_of_node hx.shown.head_mem)
    (hshow.retouch hx.nodup_nodes hl fun _ => hm)).mono ?_
  rintro _ x' ⟨rfl, hmem, -, hx'⟩
  exact ⟨rfl, hmem, hx'⟩

theorem innerWrite {size : Nat} {buf : List Byte} {off : Int} (hx : x.With k h (.file ns) []) :
    Walks q (innerWrite h buf size off) x fun r x' => r = (.ok, size) ∧ ∃ ns', KeepsHead ns ns' ∧
      x'.With k h (.file ns') [] := by
  have hino := hx.head_mem
  have hmode := hx.shown.2.1
  rw [Fs.innerWrite]
  refine .bind (uninit fun inode => .bind (uninit fun data => .bind ((safeGet hx hino).mono ?_)))
  rintro _ x ⟨rfl, rfl⟩
  rw [if_neg fun he => by cases he]
  refine .bind (time fun atime => .bind (time fun mtime => .bind ((safePut_inode hx ?_ ?_).mono ?_)))
  · simp
  · simpa using hmode
  · rintro _ x₁ ⟨rfl, hmem₁, hx₁⟩
    rw [if_neg (fun hne => hne rfl)]
    obtain ⟨ds, rest, rfl⟩ := file_head hx₁
    have hpos : Pos x₁.mem ((h, ds) :: rest) ⟨h, 0, ((x.mem.block h).setAtime atime).setMtime mtime⟩ 0 :=
      ⟨[], h, ds, rest, rfl, rfl, by rw [hmem₁, Vol.write_block_self], Nat.zero_le _, rfl⟩
    refine .bind ((writeSeek hx₁ hpos).mono ?_)
    rintro _ x₂ ⟨off', filesize', c₂, ns₂, p₂, rfl, hk₂, hx₂, hc₂⟩
    refine .bind ((writeLoop hx₂ hc₂.pos).mono ?_)
    rintro c₃ x₃ ⟨ns₃, hk₃, hx₃⟩
    refine .bind ((safeGet hx₃ hx₃.head_mem).mono ?_)
    rintro _ _ ⟨rfl, rfl⟩
    refine .bind ((safePut_inode hx₃ ?_ ?_).mono ?_)
    · simp
    · simpa using hx₃.shown.2.1
    · rintro _ x₄ ⟨-, -, hx₄⟩
      exact .pure ⟨rfl, ns₃, hk₂.trans hk₃, hx₄⟩

theorem write {ino size : Nat} {buf : List Byte} {off : Int} (hino : outsideBitmap ino = true) :
    Walks (.write ino buf size off) (Fs.write ino buf size off) .idle fun _ x' => x'.base = none ∧ x'.below = none := by
  refine locked rfl hino fun x o ⟨ns, ho⟩ hx => ?_
  subst ho
  refine (innerWrite hx).mono ?_
  rintro _ x' ⟨-, ns', -, hx'⟩
  exact ⟨hx'.base, hx'.below⟩

/-- The inode is put back as it was before the file grew. Where it is the only node, what it
had gained is lost. -/
theorem safePut_back {ns₁ : Nodes Nat} (hx : x.With k h (.file ns₁) [])
    (hkeep : KeepsHead ns ns₁) (hold : ∀ ds rest, ns = (h, ds) :: rest → FileShows d ds ∧ d.next = firstOf rest)
    (hm : d.mode ≠ 0) :
    Walks q (Fs.safePut h d false h) x fun r x' => r = (.ok, h) ∧ x'.base = some k ∧ x'.below = none := by
  obtain ⟨n, ds, rest, ds₁, rest₁, rfl, rfl, ⟨more, rfl⟩, hrest⟩ := hkeep
  obtain rfl : n = h := Option.some.inj hx.shown.head
  obtain ⟨hshow, hnext⟩ := hold ds rest rfl
  have hn : n ∈ nodesOf ((n, ds ++ more) :: rest₁) := List.mem_cons_self
  by_cases hone : rest = []
  · subst hone
    have hshows : Shows (x.mem.write n d) n (.file [(n, ds)]) := by
      refine ⟨rfl, ?_, ⟨?_, ?_, trivial⟩, nofun⟩ <;> rwa [Vol.write_block_self]
    refine (safePut (.shed n [(n, ds)] (nodesOf rest₁ ++ more ++ itemsOf rest₁)) hx (Obj.mem_blocks_of_node hn)
      (.shed hx.obj hn hshows ?_)).mono ?_
    · simp only [Obj.blocks, Obj.nodes, Obj.datas, nodesOf_cons, itemsOf_cons, nodesOf_nil, itemsOf_nil,
        List.cons_append, List.nil_append, List.append_assoc, List.append_nil]
      exact .cons n (List.perm_append_comm_assoc ..)
    · rintro _ _ ⟨rfl, -, rfl, -⟩
      exact ⟨rfl, hx.base, hx.below⟩
  · obtain ⟨hds, -, hfirst⟩ := hrest hone
    obtain rfl : more = [] := by simpa using hds
    rw [List.append_nil] at hx
    have hshow' : Shows x.mem n (.file ([] ++ (n, ds) :: rest₁)) := hx.shown
    refine (safePut_same hx (Obj.mem_blocks_of_node hx.shown.head_mem)
      (hshow'.rewrite hx.nodup_nodes hshow (hnext.trans hfirst.symm) fun _ => hm)).mono ?_
    rintro _ x' ⟨rfl, -, -, hx'⟩
    exact ⟨rfl, hx'.base, hx'.below⟩

theorem setattr {ino : Nat} {toSet : Bool} {info : FileInfo} (hino : outsideBitmap ino = true) :
    Walks (.setattr ino toSet info) (Fs.setattr ino toSet info) .idle fun _ x' => x'.base = none ∧ x'.below = none := by
  refine locked rfl hino fun x o ⟨ns, ho⟩ hx => ?_
  subst ho
  obtain ⟨ds, rest, rfl⟩ := file_head hx
  have hshow : Shows x.mem ino (.file ([] ++ (ino, ds) :: rest)) := hx.shown
  have hmode := hx.shown.2.1
  refine .bind (uninit fun buf => .bind ((safeGet hx hx.head_mem).mono ?_))
  rintro _ x ⟨rfl, rfl⟩
  -- The links of the inode are those that were read.
  have hback : ∀ {x₁ ns₁ d}, Region.With x₁ ino ino (.file ns₁) [] → KeepsHead ((ino, ds) :: rest) ns₁ →
      Block.links d = (x.mem.block ino).links → d.mode = (x.mem.block ino).mode →
      Walks (.setattr ino toSet info) (Fs.safePut ino d false ino) x₁ fun _ x' => x'.base = some ino ∧
        x'.below = none := by
    intro x₁ ns₁ d hx₁ hkeep hl hm
    refine (safePut_back hx₁ hkeep ?_ (by rw [hm]; exact hmode)).mono fun _ _ h => h.2
    rintro _ _ ⟨⟩
    exact ⟨hshow.file_node.1.of_links hl, (Block.next_of_links hl).trans hshow.file_node.2⟩
  dsimp only
  split
  · refine .bind (.bind ((innerWrite hx).mono ?_))
    rintro _ x₁ ⟨-, ns₁, hkeep, hx₁⟩
    refine .pure (.bind ((hback hx₁ hkeep (by simp) (by simp)).mono fun _ _ h => .pure h))
  · exact .bind (.pure (.bind ((hback hx .refl (by simp) (by simp)).mono fun _ _ h => .pure h)))

end

/-! ### Making an entry -/

section
variable {ns pre post : Nodes Entry} {n fuel i : Nat} {es : List Entry} {check : Bool} {s name : List Byte}

theorem findEntry : Walks q (findEntry buf s fuel i) x fun _ x' => x' = x := by
  induction fuel generalizing i with
  | zero => exact hang
  | succ fuel ih =>
    rw [Fs.findEntry]
    split
    · split
      · exact undefinedAccess
      · exact .pure rfl
      · exact ih
    · exact .pure rfl

theorem findDup {name : Option (List Byte)} (hshow : DirShows buf es) (hname : ∀ s ∈ name, ValidName s) :
    Walks q (findDup buf name) x fun r x' => x' = x ∧ ∀ i, r = some i → ∃ s ∈ name, ∃ e ∈ es, e.1 = s := by
  cases name with
  | none => exact .pure ⟨rfl, fun _ hr => by cases hr⟩
  | some s =>
    have hs := hname s rfl
    obtain ⟨found, hfound, hspec⟩ := findEntry_eq (b := buf) (hshow.size.trans_le hshow.fits) hs.comparable.readable
    rw [Fs.findDup, hfound]
    refine .pure ⟨rfl, fun i hi => ⟨s, rfl, ?_⟩⟩
    obtain ⟨rfl, -⟩ | ⟨j, hj, rfl, hread⟩ := hspec
    · cases hi
    · obtain ⟨es₁, es₂, rfl, rfl⟩ := hshow.split hj
      exact ⟨_, List.mem_append_right _ List.mem_cons_self, (asRead_short hs.fits).mp hread⟩

theorem entryInum : Walks q (entryInum buf i) x fun _ x' => x' = x := by
  rw [Fs.entryInum]
  split
  · exact .pure rfl
  · exact undefinedAccess

theorem dir_head (hx : x.With k h (.dir ns) L) : ∃ es post, ns = [] ++ (h, es) :: post := by
  have hhead := hx.shown.head
  cases ns with
  | nil => cases hhead
  | cons y rest =>
    obtain ⟨n, es⟩ := y
    obtain rfl : n = h := Option.some.inj hhead
    exact ⟨es, rest, rfl⟩

theorem safePut_times (hx : x.With k h (.dir ns) []) (hl : d.links = (x.mem.block h).links)
    (hs : d.size = (x.mem.block h).size) (hm : d.mode = (x.mem.block h).mode) :
    Walks q (Fs.safePut h d false h) x fun r x' =>
      r = (.ok, h) ∧ x'.mem.block h = d ∧ x'.files = x.files ∧ x'.With k h (.dir ns) [] := by
  obtain ⟨es, post, rfl⟩ := dir_head hx
  refine (safePut_same hx (Obj.mem_blocks_of_node hx.shown.head_mem)
    (hx.shown.retouch_dir hx.nodup_nodes hl hs hm)).mono ?_
  rintro _ x' ⟨rfl, hmem, hfiles, hx'⟩
  exact ⟨rfl, by rw [hmem, Vol.write_block_self], hfiles, hx'⟩

/-- A loop over the nodes ends after the last one, and goes on with the next one of any other. -/
theorem nextDir {α : Type} {p : Code α} {g : Nat → Block → Code α} {Q : α → Region → Prop}
    (hx : x.With k h (.dir (pre ++ (n, es) :: post)) []) (hlast : Walks q p x Q)
    (hgo : ∀ {m es' rest}, pre ++ (n, es) :: post = pre ++ [(n, es)] ++ (m, es') :: rest →
      Walks q (g m (x.mem.block m)) x Q) :
    Walks q (if (x.mem.block n).next = 0 then p else do
      let r ← Fs.safeGet (x.mem.block n).next (x.mem.block n) h
      g (x.mem.block n).next r.2) x Q := by
  rw [hx.shown.dir_node.2]
  cases post with
  | nil =>
    rw [if_pos (show firstOf [] = 0 from rfl)]
    exact hlast
  | cons y rest =>
    obtain ⟨m, es'⟩ := y
    have hm : m ∈ x.blocks := hx.mem_blocks (Obj.mem_blocks_of_node (by simp [Obj.nodes]))
    rw [firstOf_cons, if_neg (hx.ne_zero m hm)]
    refine .bind ((safeGet hx hm).mono ?_)
    rintro _ x ⟨rfl, rfl⟩
    exact hgo (List.append_cons ..)

/-- The search for room ends at a node with room, or at an entry with the name. -/
theorem roomLoop {name : Option (List Byte)} {tmp : Nat} (hx : x.With k h (.dir (pre ++ (n, es) :: post)) [])
    (hname : ∀ s ∈ name, ValidName s) :
    Walks q (roomLoop h name check fuel tmp n (x.mem.block n)) x fun r x' => ∃ ns',
      x'.With k h (.dir ns') [] ∧ itemsOf ns' = itemsOf (pre ++ (n, es) :: post) ∧
      ((∃ inum, r = .dup inum ∧ ∃ s ∈ name, ∃ e ∈ itemsOf ns', e.1 = s) ∨ ∃ tmp' n' pre' es' post',
        r = .blank tmp' n' (x'.mem.block n') ∧ ns' = pre' ++ (n', es') :: post' ∧ es'.length < 5) := by
  induction fuel generalizing x pre n es post tmp with
  | zero => exact hang
  | succ fuel ih =>
    obtain ⟨hshow, hnext⟩ := hx.shown.dir_node
    have hn : n ∈ (Obj.dir (pre ++ (n, es) :: post)).blocks := Obj.mem_blocks_of_node (by simp [Obj.nodes])
    rw [Fs.roomLoop]
    split
    next =>
      refine .bind ((findDup hshow hname).mono ?_)
      rintro found x ⟨rfl, hfound⟩
      cases found with
      | some i =>
        obtain ⟨s, hs, e, he, hes⟩ := hfound i rfl
        refine .bind (entryInum.mono ?_)
        rintro inum x rfl
        exact .pure ⟨_, hx, rfl, .inl ⟨inum, rfl, s, hs, e, by simp [he], hes⟩⟩
      | none =>
        dsimp only
        rw [hnext]
        cases post with
        | cons y rest =>
          obtain ⟨m, es'⟩ := y
          have hm : m ∈ x.blocks := hx.mem_blocks (Obj.mem_blocks_of_node (by simp [Obj.nodes]))
          rw [firstOf_cons, if_pos (hx.ne_zero m hm)]
          refine .bind ((safeGet hx hm).mono ?_)
          rintro _ x ⟨rfl, rfl⟩
          rw [List.append_cons] at hx ⊢
          exact ih hx
        | nil =>
          rw [if_neg fun hne => hne rfl]
          refine .bind ((alloc hx).mono ?_)
          rintro _ x₁ ⟨i, rfl, hi, hmem₁, hx₁⟩
          have hni : n ≠ i := fun e => hx₁.not_mem (e ▸ hn)
          have hblock : x.mem.block n = x₁.mem.block n := by rw [hmem₁, Vol.write_block_ne hni]
          have hnew : x₁.mem.block i = Bytes.zero := by rw [hmem₁, Vol.write_block_self]
          have hshows := hx₁.shown.add_dir_node hx₁.nodup_nodes (Nat.lt_trans hi (by decide)) hni hnew
          rw [if_neg fun hbad => hbad.2 rfl, hblock]
          refine .bind ((safePut_grow hx₁ hn (.dir (by simp)) hshows ?_).mono ?_)
          · simp [Obj.blocks, Obj.nodes, Obj.datas]
          · rintro _ x₂ ⟨rfl, hmem₂, -, hx₂⟩
            rw [if_neg fun hbad => hbad.2 rfl]
            have hbuf : (x₁.mem.block n).setNext i = x₂.mem.block n := by rw [hmem₂, Vol.write_block_self]
            have hitems : itemsOf (pre ++ (n, es) :: [(i, [])]) = itemsOf (pre ++ [(n, es)]) := by simp
            rw [hbuf, ← hitems]
            exact ih hx₂
    next hroom =>
      have hes : es.length < 5 := by rw [← hshow.size]; exact Nat.lt_of_not_le hroom
      exact .pure ⟨_, hx, rfl, .inr ⟨tmp, n, pre, es, post, rfl, rfl, hes⟩⟩

/-- The act that goes with an entry for a new object `obj`. -/
def Enters (q : Request) (k h : Nat) (obj : Nat → Obj) (act : Nat → Nodes Entry → Act) : Prop :=
  ∀ {x : Region} {i n : Nat} {ns ns' : Nodes Entry} {d : Block}, x.With k h (.dir ns) [i] → n ∈ nodesOf ns →
    Shows x.mem i (obj i) → Shows (x.mem.write n d) h (.dir ns') → nodesOf ns' = nodesOf ns →
    (Obj.dir ns').children.Perm (i :: (Obj.dir ns).children) → Allowed q .empty x (.put n d) (act i ns')

theorem enters_link {new : Block} {obj : Nat → Obj} (hnew : ShowsNew new obj) :
    Enters q k h obj fun _ ns => .link h ns := by
  intro x i n ns ns' d hx hn hobj hshows hnodes hkids
  exact .link hx.obj hn hx.loose hobj (hnew.blocks i) (hnew.children i) hshows hnodes hkids

/-- What there is after an entry was put: the act for it was taken from a directory that had
one loose block. -/
structure Entered (k h : Nat) (act : Nat → Nodes Entry → Act) (i : Nat) (x' : Region) : Prop extends
    Region.Fine x' where
  eq : ∃ (x : Region) (n : Nat) (d : Block) (ns ns' : Nodes Entry),
    x.With k h (.dir ns) [i] ∧ x' = (act i ns').apply n d x

theorem Entered.link {x' : Region} (h' : Entered k h (fun _ ns => .link h ns) i x') :
    ∃ ns, x'.With k h (.dir ns) [] := by
  obtain ⟨x, n, d, ns, ns', hx, rfl⟩ := h'.eq
  exact ⟨ns', h'.toFine, rfl, rfl, hx.fresh, hx.base, hx.below⟩

theorem fillEntry {new : Block} {obj : Nat → Obj} {act : Nat → Nodes Entry → Act} {tmp : Nat}
    (hx : x.With k h (.dir (pre ++ (n, es) :: post)) []) (hes : es.length < 5) (hs : ValidName s)
    (hnew : ShowsNew new obj) (hact : Enters q k h obj act) :
    Walks q (fillEntry h s check new tmp n (x.mem.block n)) x fun r x' => ∃ i, r = some i ∧ Entered k h act i x' := by
  have hn : n ∈ nodesOf (pre ++ (n, es) :: post) := by simp
  obtain ⟨hshow, -⟩ := hx.shown.dir_node
  rw [Fs.fillEntry]
  refine .bind ((alloc hx).mono ?_)
  rintro _ x₁ ⟨i, rfl, hi, hmem₁, hx₁⟩
  have hni : n ≠ i := fun e => hx₁.not_mem (e ▸ Obj.mem_blocks_of_node hn)
  have hblock : x.mem.block n = x₁.mem.block n := by rw [hmem₁, Vol.write_block_ne hni]
  have hsize : (x₁.mem.block n).size < 5 := by rw [← hblock, hshow.size]; exact hes
  have hobj : Shows x₁.mem i (obj i) := hnew.shows (by rw [hmem₁, Vol.write_block_self])
  have hshows := hx₁.shown.add_entry hx₁.nodup_nodes hes hs.terminated (hs.next_putEntry hsize i)
    (Nat.lt_trans hi (by decide))
  rw [if_neg fun hbad => hbad.2 rfl, hblock, Block.addEntry_some _ _ hsize (Nat.le_of_not_lt hs.not_overrun)]
  refine .bind ((safePut _ hx₁ (Obj.mem_blocks_of_node hn)
    (hact hx₁ hn hobj hshows (by simp) (itemsOf_add_perm.map Prod.snd))).mono ?_)
  rintro _ _ ⟨rfl, -, rfl, hfine⟩
  rw [if_neg fun hbad => hbad.2 rfl]
  exact .pure ⟨i, rfl, hfine, x₁, n, _, _, _, hx₁, rfl⟩

theorem innerCreate {act : Nat → Nodes Entry → Act} {ino : Nat} (hx : x.With k h (.dir ns) [])
    (hname : name.length ≤ 63) (hact : Enters q k h (fun i => .file [(i, [])]) act) :
    Walks q (innerCreate h name ino) x fun r x' =>
      ((∃ e ∈ itemsOf ns, e.1 = cStr name) ∧ ∃ ns', x'.With k h (.dir ns') []) ∨
        ∃ i, r = (.ok, i) ∧ Entered k h act i x' := by
  have hs := validName_cStr hname
  have hsome : ∀ s ∈ some (cStr name), ValidName s := by
    rintro _ ⟨⟩
    exact hs
  rw [Fs.innerCreate]
  refine .bind (uninit fun buf => .bind ((safeGet hx hx.head_mem).mono ?_))
  rintro _ x ⟨rfl, rfl⟩
  refine .bind (time fun now => .bind ((safePut_times hx (by simp) (by simp) (by simp)).mono ?_))
  rintro _ x₁ ⟨rfl, hblock, -, hx₁⟩
  rw [if_neg fun hne => hne rfl, ← hblock]
  obtain ⟨es, post, rfl⟩ := dir_head hx₁
  refine .bind ((roomLoop hx₁ hsome).mono ?_)
  rintro room x₂ ⟨ns₂, hx₂, hitems, hroom⟩
  rw [← hitems]
  obtain ⟨inum, rfl, _, ⟨⟩, hdup⟩ | ⟨tmp, n, pre, es', post', rfl, rfl, hes⟩ := hroom
  · exact .pure (.inl ⟨hdup, ns₂, hx₂⟩)
  · dsimp only
    refine .bind ((findDup hx₂.shown.dir_node.1 hsome).mono ?_)
    rintro found x₂ ⟨rfl, hfound⟩
    cases found with
    | some i =>
      obtain ⟨_, ⟨⟩, e, he, hname⟩ := hfound i rfl
      refine .bind (entryInum.mono ?_)
      rintro inum x₂ rfl
      exact .pure (.inl ⟨⟨e, by simp [he], hname⟩, _, hx₂⟩)
    | none =>
      refine .bind (time fun mtime => .bind (time fun ctime => ?_))
      refine .bind ((fillEntry hx₂ hes hs (showsNew_file ?_ ?_) hact).mono ?_)
      · simp
      · simp
      · rintro _ x₃ ⟨i, rfl, hx₃⟩
        exact .pure (.inr ⟨i, rfl, hx₃⟩)

theorem create {parent ino : Nat} (hparent : outsideBitmap parent = true) (hname : name.length ≤ 63) :
    Walks (.create parent name) (Fs.create parent name ino) .idle fun _ x' => x'.base = none ∧ x'.below = none := by
  refine locked rfl hparent fun x o ⟨ns, ho⟩ hx => ?_
  subst ho
  have hnew : ShowsNew (Block.setMode Bytes.zero 1) fun i => .file [(i, [])] := showsNew_file (by simp) (by simp)
  refine (innerCreate hx hname (enters_link hnew)).mono ?_
  rintro _ x' (⟨-, ns', hx'⟩ | ⟨i, -, hx'⟩)
  · exact ⟨hx'.base, hx'.below⟩
  · obtain ⟨ns', hx'⟩ := hx'.link
    exact ⟨hx'.base, hx'.below⟩

theorem mkdir {parent ino : Nat} (hparent : outsideBitmap parent = true) (hname : name.length ≤ 63) :
    Walks (.mkdir parent name) (Fs.mkdir parent name ino) .idle fun _ x' => x'.base = none ∧ x'.below = none := by
  refine locked rfl hparent fun x o ⟨ns, ho⟩ hx => ?_
  subst ho
  refine .bind (uninit fun buf => .bind ((safeGet hx hx.head_mem).mono ?_))
  rintro _ x ⟨rfl, rfl⟩
  refine .bind (time fun ctime => .bind (time fun mtime => .bind ?_))
  refine (safePut_times hx (by simp) (by simp) (by simp)).mono ?_
  rintro _ x₁ ⟨-, hblock, -, hx₁⟩
  obtain ⟨es, post, rfl⟩ := dir_head hx₁
  rw [← hblock]
  refine .bind ((roomLoop hx₁ fun _ hs => by cases hs).mono ?_)
  rintro _ x₂ ⟨ns₂, hx₂, -, ⟨_, -, _, ⟨⟩, -⟩ | ⟨tmp, n, pre, es', post', rfl, rfl, hes⟩⟩
  refine .bind (time fun mtime => .bind (time fun ctime => .bind ?_))
  have hnew : ShowsNew (((Block.setAtime Bytes.zero 0).setMtime mtime).setCtime ctime) fun i => .dir [(i, [])] :=
    showsNew_dir (by simp) (by simp; decide) (by simp; decide)
  refine (fillEntry hx₂ hes (validName_cStr hname) hnew (enters_link hnew)).mono ?_
  rintro _ x₃ ⟨i, rfl, hx₃⟩
  obtain ⟨ns₃, hx₃⟩ := hx₃.link
  exact .pure ⟨hx₃.base, hx₃.below⟩

/-- From here on the client works on the file that it has made. -/
theorem enters_make {link : List Byte} : Enters (.symlink k name link) k k (fun i => .file [(i, [])]) fun i
    _ => .make i := by
  intro x i n ns ns' d hx hn hobj hshows hnodes hkids
  exact .make rfl hx.obj hx.base hn hx.loose hobj hshows hnodes hkids

theorem Entered.make {x' : Region} (h' : Entered k k (fun i _ => .make i) i x') :
    x'.With k i (.file [(i, [])]) [] ∧ i ≠ k := by
  obtain ⟨x, n, d, ns, ns', hx, rfl⟩ := h'.eq
  refine ⟨⟨h'.toFine, rfl, rfl, hx.fresh, hx.base, hx.below⟩, ?_⟩
  rintro rfl
  exact hx.not_mem (Obj.mem_blocks_of_node hx.shown.head_mem)

theorem symlink {parent ino : Nat} {link : List Byte} (hparent : outsideBitmap parent = true)
    (hname : name.length ≤ 63) :
    Walks (.symlink parent name link) (Fs.symlink parent name link ino) .idle fun _ x' =>
      x'.base = none ∧ x'.below = none := by
  refine locked rfl hparent fun x o ⟨ns, ho, hfree⟩ hx => ?_
  subst ho
  refine .bind (uninit fun junk => .bind ((innerCreate hx hname enters_make).mono ?_))
  rintro _ x₁ (⟨⟨e, he, hdup⟩, -⟩ | ⟨i, rfl, hx₁⟩)
  · exact absurd hdup (hfree e he)
  obtain ⟨hx₁, hne⟩ := hx₁.make
  rw [if_neg fun hbad => hbad rfl]
  refine .bind ((innerWrite hx₁).mono ?_)
  rintro _ x₂ ⟨rfl, ns₂, -, hx₂⟩
  have hother : ∀ {x : Region} {o}, x.With parent i o [] → i ≠ parent → x.base ≠ some i := by
    intro x o hx _ hbase
    exact hne (Option.some.inj (hbase.symm.trans hx.base))
  rw [if_neg fun hbad => hbad rfl]
  refine .bind
    (uninit fun buf => .bind ((safeGet_other hx₂.toFine hx₂.fresh hx₂.below hx₂.head_mem (hother hx₂)).mono ?_))
  rintro _ x₂ ⟨rfl, rfl⟩
  rw [if_neg fun hbad => hbad rfl]
  obtain ⟨ds, rest, rfl⟩ := file_head hx₂
  have hshow : Shows x₂.mem i (.file ([] ++ (i, ds) :: rest)) := hx₂.shown
  have hshows := hshow.retouch (d := (x₂.mem.block i).setMode 2) hx₂.nodup_nodes (by simp) (by simp)
  refine .bind ((safePut_other (.grow i _) hx₂ hx₂.head_mem (hother hx₂)
    (.grow hx₂.obj (Obj.mem_blocks_of_node hx₂.shown.head_mem) .file hshows ?_)).mono ?_)
  · rw [hx₂.loose, List.append_nil]
    exact .refl _
  · rintro _ _ ⟨rfl, -, rfl, -⟩
    rw [if_neg fun hbad => hbad rfl]
    exact .pure ⟨hx₂.base, hx₂.below⟩

end

/-! ### Freeing a file -/

section
variable {n fuel : Nat} {ds rest : List Nat} {nsf : Nodes Nat}

/-- Loose blocks are freed; `rest` is left. -/
structure Frees (x : Region) (rest : List Nat) (x' : Region) : Prop extends Region.Fine x' where
  eq : x' = { x with loose := x'.loose }
  loose : x'.loose.Perm rest

namespace Frees
variable {x' x'' : Region} {rest' : List Nat}

theorem refl (hx : x.Fine) (hloose : x.loose.Perm rest) : Frees x rest x := ⟨hx, rfl, hloose⟩

theorem trans (hf : Frees x rest x') (hf' : Frees x' rest' x'') : Frees x rest' x'' :=
  ⟨hf'.toFine, by rw [hf'.eq, hf.eq], hf'.loose⟩

theorem idle (hf : Frees x rest x') (hx : x.fresh = none ∧ x.below = none) : x'.fresh = none ∧ x'.below = none := by
  rw [hf.eq]
  exact hx

theorem obj (hf : Frees x rest x') : x'.obj = x.obj := by rw [hf.eq]

theorem base (hf : Frees x rest x') : x'.base = x.base := by rw [hf.eq]

theorem mem (hf : Frees x rest x') : x'.mem = x.mem := by rw [hf.eq]

end Frees

theorem remove_loose (hx : x.Fine) (hidle : x.fresh = none ∧ x.below = none) (hloose : x.loose.Perm (b :: rest)) :
    Walks q (Fs.remove b) x fun _ x' => Frees x rest x' := by
  refine (remove hx hidle.1 hidle.2 (hloose.mem_iff.mpr List.mem_cons_self)).mono ?_
  rintro _ _ ⟨rfl, hfine⟩
  refine ⟨hfine, rfl, ?_⟩
  have := hloose.erase b
  rwa [List.erase_cons_head] at this

/-- The direct blocks of a node are freed from the `k`-th on. -/
theorem removeDirect {k m : Nat} (hx : x.Fine) (hidle : x.fresh = none ∧ x.below = none) (hshow : FileShows buf ds)
    (hk : k + m = 16)
    (hloose : x.loose.Perm (ds.drop k ++ rest)) :
    Walks q (removeDirect buf (List.range' k m)) x fun _ x' => Frees x rest x' := by
  have hfits := hshow.fits
  induction m generalizing k x with
  | zero =>
    rw [List.drop_eq_nil_of_le (by omega), List.nil_append] at hloose
    exact .pure (.refl hx hloose)
  | succ m ih =>
    rw [List.range'_succ, Fs.removeDirect, hshow.direct k (by omega)]
    by_cases hlt : k < ds.length
    · rw [← List.cons_getElem_drop_succ (h := hlt), List.cons_append] at hloose
      have hmem : ds[k] ∈ x.blocks := List.mem_append_right _ (hloose.mem_iff.mpr List.mem_cons_self)
      rw [List.getD_eq_getElem _ _ hlt, if_pos (hx.ne_zero _ hmem)]
      refine .bind ((remove_loose hx hidle hloose).mono fun _ x₁ hf₁ => ?_)
      exact (ih hf₁.toFine (hf₁.idle hidle) (by omega) hf₁.loose).mono fun _ x₂ hf₂ => hf₁.trans hf₂
    · have hge := Nat.le_of_not_lt hlt
      rw [List.drop_eq_nil_of_le hge, List.nil_append] at hloose
      rw [List.getD_eq_default _ _ hge, if_neg fun hne => hne rfl]
      exact .pure (.refl hx hloose)

end

end Walks

/-- What `recursive_unlink` does with a node that it has read. -/
def freeNode (fuel ino : Nat) (buf : Block) : Code Unit := do
  removeDirect buf (List.range directBlockNum)
  (if buf.next ≠ 0 then recursiveUnlink fuel buf.next else pure ())
  let _ ← remove ino
  pure ()

theorem recursiveUnlink_eq {fuel ino : Nat} (hino : ino ≠ 0) :
    recursiveUnlink (fuel + 1) ino = uninit >>= fun buf => safeGet ino buf 0 >>= fun r => freeNode fuel ino r.2 := by
  rw [recursiveUnlink, if_neg hino]
  rfl

namespace Walks
variable {q : Request} {x : Region} {h k n fuel : Nat} {o : Obj} {ds rest : List Nat}
  {nsf : Nodes Nat}

/-- The rest of the chain is freed between the direct blocks of a node and the node itself. -/
theorem freeNode (hx : x.Fine) (hidle : x.fresh = none ∧ x.below = none) (hobj : x.obj = some (h, o))
    (hc : Chained x.mem FileShows ((n, ds) :: nsf))
    (hloose : x.loose.Perm ((Obj.file ((n, ds) :: nsf)).blocks ++ rest))
    (hrest : ∀ {x : Region} {n ds nsf rest}, x.Fine → x.fresh = none ∧ x.below = none → x.obj = some (h, o) →
      Chained x.mem FileShows ((n, ds) :: nsf) → x.loose.Perm ((Obj.file ((n, ds) :: nsf)).blocks ++ rest) →
      Walks q (recursiveUnlink fuel n) x fun _ x' => Frees x rest x') :
    Walks q (freeNode fuel n (x.mem.block n)) x fun _ x' => Frees x rest x' := by
  obtain ⟨hshow, hnext, hchain⟩ := hc
  have hperm : x.loose.Perm (ds.drop 0 ++ (n :: ((Obj.file nsf).blocks ++ rest))) := by
    refine (hloose.trans (blocks_cons_perm.append_right rest)).trans ?_
    rw [List.drop_zero, List.cons_append, List.append_assoc]
    exact List.perm_middle.symm
  rw [Fs.freeNode, List.range_eq_range']
  refine .bind ((removeDirect hx hidle hshow rfl hperm).mono fun _ x₁ hf₁ => ?_)
  have hidle₁ := hf₁.idle hidle
  rw [hnext]
  refine .bind (Walks.mono (Q := fun _ x₂ => Frees x₁ (n :: rest) x₂) ?_ fun _ x₂ hf₂ => ?_)
  · cases nsf with
    | nil =>
      rw [if_neg fun hne => hne rfl]
      exact .pure (.refl hf₁.toFine hf₁.loose)
    | cons y nsf =>
      obtain ⟨m, ds'⟩ := y
      have hm : m ∈ x₁.blocks := by
        refine List.mem_append_right _ (hf₁.loose.mem_iff.mpr ?_)
        exact List.mem_cons_of_mem _ (List.mem_append_left _ List.mem_cons_self)
      rw [firstOf_cons, if_pos (hf₁.ne_zero m hm)]
      refine hrest hf₁.toFine hidle₁ (hf₁.obj.trans hobj) ?_ (hf₁.loose.trans List.perm_middle.symm)
      rw [hf₁.mem]
      exact hchain
  · refine .bind ((remove_loose hf₂.toFine (hf₂.idle hidle₁) hf₂.loose).mono fun _ x₃ hf₃ => ?_)
    exact .pure ((hf₁.trans hf₂).trans hf₃)

/-- A chain of nodes, loose with its direct blocks, is freed. -/
theorem recursiveUnlink (hx : x.Fine) (hidle : x.fresh = none ∧ x.below = none) (hobj : x.obj = some (h, o))
    (hc : Chained x.mem FileShows ((n, ds) :: nsf))
    (hloose : x.loose.Perm ((Obj.file ((n, ds) :: nsf)).blocks ++ rest)) :
    Walks q (recursiveUnlink fuel n) x fun _ x' => Frees x rest x' := by
  induction fuel generalizing x n ds nsf rest with
  | zero => exact hang
  | succ fuel ih =>
    have hn : n ∈ x.loose := hloose.mem_iff.mpr (List.mem_append_left _ List.mem_cons_self)
    have hmem : n ∈ x.blocks := List.mem_append_right _ hn
    -- The lock of the inode is that of the directory.
    have hne : x.base ≠ some n := by
      intro hbase
      obtain ⟨o', ho'⟩ := hx.only hbase hmem
      have hnodup := hx.nodup
      rw [Region.blocks, ho', List.nodup_append] at hnodup
      exact hnodup.2.2 n (Obj.mem_blocks_of_node (hx.shows ho').head_mem) n hn rfl
    rw [recursiveUnlink_eq (hx.ne_zero n hmem)]
    refine .bind (uninit fun buf => .bind ((safeGet_other hx hidle.1 hidle.2 hmem fun _ => hne).mono ?_))
    rintro _ x ⟨rfl, rfl⟩
    exact freeNode hx hidle hobj hc hloose ih

/-- A file that was cut off is freed, from when its lock is taken. -/
theorem recursiveUnlink_victim (hx : x.With k h o []) (hvictim : x.victim = some n) (hout : outsideBitmap n = true)
    (h0 : n ≠ 0) :
    Walks q (Fs.recursiveUnlink fuel n) x fun _ x' => x'.base = some k ∧ x'.below = none := by
  cases fuel with
  | zero => exact hang
  | succ fuel =>
    rw [recursiveUnlink_eq h0]
    refine .bind (uninit fun buf => .bind ?_)
    rw [Fs.safeGet, if_neg h0]
    refine lock .take .nest hout (.take hvictim hx.loose hx.below rfl) ?_
    rintro _ ⟨nsf, mem, hshows, rfl⟩ hfine
    have hmem : n ∈ (Obj.file nsf).blocks := Obj.mem_blocks_of_node hshows.head_mem
    refine (get hfine ⟨hx.fresh, ?_⟩ (List.mem_append_right _ hmem)).mono ?_
    · rintro _ ⟨⟩
      exact List.mem_append_right _ hmem
    rintro _ _ ⟨rfl, rfl⟩
    refine ⟨.release rfl, ?_⟩
    rintro _ rfl hfine'
    obtain ⟨hhead, -, hc, -⟩ := hshows
    cases nsf with
    | nil => cases hhead
    | cons y nsf =>
      obtain ⟨m, ds⟩ := y
      obtain rfl : m = n := Option.some.inj hhead
      have hloose : (Obj.file ((m, ds) :: nsf)).blocks.Perm ((Obj.file ((m, ds) :: nsf)).blocks ++ []) := by
        rw [List.append_nil]
      refine (freeNode hfine' ⟨hx.fresh, rfl⟩ hx.obj hc hloose recursiveUnlink).mono fun _ x' hf => ?_
      exact ⟨hf.base.trans hx.base, (hf.idle ⟨hx.fresh, rfl⟩).2⟩

/-! ### Removing an entry -/

variable {pre post : Nodes Entry} {es : List Entry} {s : List Byte}

theorem unlinkLoop (hx : x.With k h (.dir (pre ++ (n, es) :: post)) []) (hs : ValidName s) :
    Walks q (unlinkLoop h s fuel n (x.mem.block n)) x fun r x' => x' = x ∧ ∀ n' buf k,
      r = some (n', buf, k) → ∃ pre' es₁ i es₂ post', buf = x.mem.block n' ∧ k = es₁.length ∧
        pre ++ (n, es) :: post = pre' ++ (n', es₁ ++ (s, i) :: es₂) :: post' := by
  induction fuel generalizing pre n es post with
  | zero => exact hang
  | succ fuel ih =>
    obtain ⟨hshow, -⟩ := hx.shown.dir_node
    obtain ⟨found, hfound, hspec⟩ := findEntry_eq (b := x.mem.block n) (hshow.size.trans_le hshow.fits)
      hs.comparable.readable
    rw [Fs.unlinkLoop, hfound]
    refine .bind (.pure ?_)
    obtain ⟨rfl, -⟩ | ⟨k, hk, rfl, hread⟩ := hspec
    · refine nextDir (g := Fs.unlinkLoop h s fuel) hx (.pure ⟨rfl, fun _ _ _ hr => by cases hr⟩) fun he => ?_
      rw [he] at hx ⊢
      exact ih hx
    · have hname : (x.mem.block n).name k = s := (asRead_short hs.fits).mp hread
      obtain ⟨es₁, es₂, rfl, rfl⟩ := hshow.split hk
      refine .pure ⟨rfl, ?_⟩
      rintro _ _ _ ⟨⟩
      exact ⟨pre, es₁, _, es₂, post, rfl, rfl, by rw [hname]⟩

theorem unlink {parent : Nat} {name : List Byte} (hparent : outsideBitmap parent = true) (hname : name.length ≤ 63) :
    Walks (.unlink parent name) (Fs.unlink parent name) .idle fun _ x' => x'.base = none ∧ x'.below = none := by
  refine locked rfl hparent fun x o ⟨ns, ho, hfiles⟩ hx => ?_
  subst ho
  refine .bind (uninit fun buf => .bind ((safeGet hx hx.head_mem).mono ?_))
  rintro _ x ⟨rfl, rfl⟩
  refine .bind (time fun mtime => .bind (time fun ctime => .bind ?_))
  refine (safePut_times hx (by simp) (by simp) (by simp)).mono ?_
  rintro _ x₁ ⟨-, hblock, hsame, hx₁⟩
  obtain ⟨es, post, rfl⟩ := dir_head hx₁
  rw [← hblock]
  refine .bind ((unlinkLoop hx₁ (validName_cStr hname)).mono ?_)
  rintro found x₁ ⟨rfl, hfound⟩
  cases found with
  | none => exact .pure ⟨hx₁.base, hx₁.below⟩
  | some found =>
    obtain ⟨n, buf, k⟩ := found
    obtain ⟨pre, es₁, i, es₂, post', rfl, rfl, hns⟩ := hfound _ _ _ rfl
    rw [hns] at hx₁ hfiles
    have hn : n ∈ nodesOf (pre ++ (n, es₁ ++ (cStr name, i) :: es₂) :: post') := by simp
    have hi : i ∈ x₁.files := hsame ▸ hfiles (cStr name, i) (by simp) rfl
    obtain ⟨d, hdrop, hshows⟩ := hx₁.shown.drop_entry hx₁.nodup_nodes
    dsimp only
    rw [hx₁.shown.dir_node.1.entryInum, hdrop]
    refine .bind (.pure (.bind ?_))
    refine (safePut (.cut parent i _) hx₁ (Obj.mem_blocks_of_node hn)
      (.cut hx₁.obj hn hx₁.loose hi hshows (by simp) (itemsOf_perm.map Prod.snd))).mono ?_
    rintro _ _ ⟨-, ⟨hout, h0, -⟩, rfl, hfine₂⟩
    refine .bind ((recursiveUnlink_victim (h := parent) (k := parent)
      ⟨hfine₂, rfl, hx₁.loose, hx₁.fresh, hx₁.base, hx₁.below⟩ rfl hout h0).mono fun _ x₃ hx₃ => ?_)
    exact .pure hx₃

end Walks

end Yfs.Fs

import Yfs.Fs.Session

/-! What `unlink` does on a sound disk.

A sound disk need not hold a tree in the sense of `Rep`, but the inodes found on it are laid
out as `unlink` needs them. The nodes of an inode are a finite chain without repetition, no
node is one of two inodes (`Sound.node_unique`), and so a directory and a file are at blocks
of their own (`Sound.dirOn`, `Sound.fileAt`). Where a name leads to a file, `unlink` frees
the blocks of the file and no others (`unlink_frees_file`). It does not look at the mode of
what the name leads to: a directory is freed like a file, with the bytes of its names and
numbers taken for direct blocks, and it is never refused (`unlink_accepts_dir`). -/
namespace Yfs.Fs
open Yfs.Base
open Function (update update_of_ne update_self)

/-! ### Chains -/

section
variable {disk : Nat → Block} {h h' n m b p t : Nat} {ns : List Nat}

namespace Chain

theorem head (hc : Chain disk n ns) : ns.head? = some n := by
  cases hc with
  | last _ => rfl
  | next _ _ => rfl

theorem next_mem (hc : Chain disk n ns) (hm : m ∈ ns) (hne : (disk m).next ≠ 0) : (disk m).next ∈ ns := by
  induction hc with
  | last h0 =>
    obtain rfl := List.mem_singleton.mp hm
    exact absurd h0 hne
  | next _ hrest ih =>
    cases List.mem_cons.mp hm with
    | inl heq =>
      subst heq
      exact List.mem_cons_of_mem _ (List.mem_of_mem_head? (by rw [hrest.head]; rfl))
    | inr hm => exact List.mem_cons_of_mem _ (ih hm)

/-- From a node of a chain on there is a chain, which is no longer. -/
theorem of_mem (hc : Chain disk n ns) (hm : m ∈ ns) : ∃ ns', Chain disk m ns' ∧ ns'.length ≤ ns.length := by
  induction hc with
  | last h0 =>
    obtain rfl := List.mem_singleton.mp hm
    exact ⟨_, .last h0, Nat.le_refl _⟩
  | next hne hrest ih =>
    cases List.mem_cons.mp hm with
    | inl heq =>
      subst heq
      exact ⟨_, .next hne hrest, Nat.le_refl _⟩
    | inr hm =>
      obtain ⟨ns', hc', hlen⟩ := ih hm
      exact ⟨ns', hc', Nat.le_succ_of_le hlen⟩

/-- A chain that ends does not come back to a node. -/
theorem nodup (hc : Chain disk n ns) : ns.Nodup := by
  induction hc with
  | last _ => exact List.nodup_singleton _
  | next hne hrest ih =>
    refine List.nodup_cons.mpr ⟨fun hm => ?_, ih⟩
    obtain ⟨ns', hc', hlen⟩ := hrest.of_mem hm
    have heq := (Chain.next hne hrest).unique hc'
    rw [← heq, List.length_cons] at hlen
    exact absurd hlen (Nat.not_succ_le_self _)

theorem node (hc : Chain disk n ns) (hn : Node disk h n) (hm : m ∈ ns) : Node disk h m := by
  induction hc with
  | last _ =>
    obtain rfl := List.mem_singleton.mp hm
    exact hn
  | next hne _ ih =>
    cases List.mem_cons.mp hm with
    | inl heq => rwa [heq]
    | inr hm => exact ih (.next hn hne) hm

theorem chained {α : Type} {shows : Block → List α → Prop} {f : Nat → List α} (hc : Chain disk n ns)
    (hshow : ∀ m ∈ ns, (volOf disk).block m = disk m ∧ shows (disk m) (f m)) :
    Chained (volOf disk) shows (ns.map fun m => (m, f m)) := by
  induction hc with
  | @last n h0 =>
    obtain ⟨hblock, hn⟩ := hshow n (List.mem_singleton_self n)
    exact ⟨hblock ▸ hn, by rw [hblock, h0]; rfl, trivial⟩
  | @next n ns _ hrest ih =>
    rw [List.forall_mem_cons] at hshow
    obtain ⟨⟨hblock, hn⟩, hshow⟩ := hshow
    refine ⟨hblock ▸ hn, ?_, ih hshow⟩
    have hhead := hrest.head
    cases ns with
    | nil => cases hhead
    | cons m ms => rw [hblock, ← Option.some.inj hhead]; rfl

end Chain

theorem Node.mem_chain (hn : Node disk h n) (hc : Chain disk h ns) : n ∈ ns := by
  have hmem : ∀ {k ks}, Chain disk k ks → k ∈ ks := fun hc => List.mem_of_mem_head? (by rw [hc.head]; rfl)
  induction hn with
  | root => exact hmem hc
  | next _ hne ih => exact hc.next_mem (ih hc) hne
  | entry _ _ _ _ => exact hmem hc

/-! ### Inodes of a sound disk -/

/-- The inode that block `n` is a node of, by the place that names it. A direct block is no
node. -/
def Slot.InodeOf (disk : Nat → Block) (n h : Nat) : Slot → Prop
  | .root => h = 1
  | .next m => Node disk h m
  | .entry _ _ => h = n
  | .direct _ _ => False

theorem Node.ref (hn : Node disk h n) : ∃ s, Ref disk s n ∧ s.InodeOf disk n h := by
  cases hn with
  | root => exact ⟨_, .root, rfl⟩
  | next hn hne => exact ⟨_, .next hn hne, hn⟩
  | entry hn hm hi => exact ⟨_, .entry hn hm hi, rfl⟩

/-- The blocks of the file `t`: its nodes and what they list. -/
def BlocksOf (disk : Nat → Block) (t b : Nat) : Prop :=
  Node disk t b ∨ ∃ n i, Node disk t n ∧ i < directBlockNum ∧ (disk n).direct i ≠ 0 ∧ (disk n).direct i = b

/-- The direct blocks of the node are its first `k`. -/
structure Block.Lists (d : Block) (k : Nat) : Prop where
  le : k ≤ directBlockNum
  nonzero : ∀ i < k, d.direct i ≠ 0
  all : ∀ i < directBlockNum, d.direct i ≠ 0 → i < k

theorem Block.Lists.fileShows {d : Block} {k : Nat} (h : d.Lists k) : FileShows d ((List.range k).map d.direct) where
  direct i hi := by
    by_cases hik : i < k
    · simp [List.getD_eq_getElem?_getD, hik]
    · rw [List.getD_eq_default _ _ (by simpa using hik)]
      by_contra hne
      exact hik (h.all i hi hne)
  fits := by
    rw [List.length_map, List.length_range]
    exact h.le

/-- Where no zero comes before a direct block the first of them are all. -/
theorem Block.exists_lists {d : Block} (h : ∀ i j, i < j → j < directBlockNum → d.direct j ≠ 0 → d.direct i ≠ 0) :
    ∃ k, d.Lists k := by
  have hex : ∃ k, k = directBlockNum ∨ d.direct k = 0 := ⟨directBlockNum, .inl rfl⟩
  refine ⟨Nat.find hex, Nat.find_min' hex (.inl rfl), fun i hi h0 => Nat.find_min hex hi (.inr h0), fun i hi hne => ?_⟩
  by_contra hge
  cases Nat.find_spec hex with
  | inl hend => omega
  | inr hzero =>
    by_cases heq : i = Nat.find hex
    · exact hne (heq ▸ hzero)
    · exact h _ i (by omega) hi hne hzero

/-- The nodes `ns` are those of the directory `p` on the disk, with their entries. -/
structure DirOn (disk : Nat → Block) (p : Nat) (ns : Nodes Entry) : Prop where
  dirAt : DirAt (volOf disk) p ns
  nodes : ∀ n, n ∈ nodesOf ns ↔ Node disk p n
  entries : ∀ n es, (n, es) ∈ ns → es = (disk n).entries

namespace DirOn
variable {ns : Nodes Entry} {e : Entry} {d : Block}

theorem mem_items (h : DirOn disk p ns) :
    e ∈ itemsOf ns ↔ ∃ n i, Node disk p n ∧ i < (disk n).size ∧ (disk n).entry i = e := by
  rw [itemsOf, List.mem_flatMap]
  constructor
  · rintro ⟨⟨n, es⟩, hmem, he⟩
    change e ∈ es at he
    rw [h.entries n es hmem, Block.entries, List.mem_map] at he
    obtain ⟨i, hi, heq⟩ := he
    exact ⟨n, i, (h.nodes n).mp (List.mem_map.mpr ⟨_, hmem, rfl⟩), List.mem_range.mp hi, heq⟩
  · rintro ⟨n, i, hn, hi, rfl⟩
    obtain ⟨es, hmem⟩ := mem_nodesOf ((h.nodes n).mpr hn)
    refine ⟨(n, es), hmem, ?_⟩
    change (disk n).entry i ∈ es
    rw [h.entries n es hmem]
    exact Block.mem_entries hi

theorem entries_retimed (h : DirOn disk p ns) (hd : Retimed ((volOf disk).block p) d) (hn : Node disk p n) :
    (((volOf disk).write p d).block n).entries = (disk n).entries := by
  obtain ⟨es, hes⟩ := mem_nodesOf ((h.nodes n).mpr hn)
  rw [((h.dirAt.retime hd).chained.mem hes).entries, h.entries n es hes]

theorem entries_dropped {d' : Block} {k : Nat} (h : DirOn disk p ns) (hd : Retimed ((volOf disk).block p) d)
    (hn : Node disk p n) (hdrop : (((volOf disk).write p d).block n).dropEntry k = some d') :
    d'.entries = (disk n).entries.eraseIdx k := by
  obtain ⟨es, hes⟩ := mem_nodesOf ((h.nodes n).mpr hn)
  have hshow := (h.dirAt.retime hd).chained.mem hes
  obtain ⟨d'', hdrop', hspec, -⟩ := @Block.dropEntry_spec _ k (hshow.size.trans_le hshow.fits)
  obtain rfl : d' = d'' := Option.some.inj (hdrop.symm.trans hdrop')
  rw [hspec, h.entries_retimed hd hn]

end DirOn

namespace Sound

theorem has {s : Slot} (hs : Sound disk) (hb : Ref disk s b) : (volOf disk).Has b := by
  have hused := hs.used hb
  refine ⟨hused, ?_, ?_⟩
  · have hnot := (hs.apart hb).2
    rw [outsideBitmap_iff]
    unfold bitmapBegin bitmapEnd at hnot
    omega
  · rw [usedIn, Bool.and_eq_true, decide_eq_true_eq] at hused
    exact hused.1

theorem node_has (hs : Sound disk) (hn : Node disk h n) : (volOf disk).Has n ∧ n ≠ 0 := by
  obtain ⟨s, hr, -⟩ := hn.ref
  exact ⟨hs.has hr, (hs.apart hr).1⟩

theorem node_block (hs : Sound disk) (hn : Node disk h n) : (volOf disk).block n = disk n :=
  if_pos (hs.node_has hn).1.data

theorem direct_not_node {i : Nat} (hs : Sound disk) (hn : Node disk h n) (hm : (disk h).mode ≠ 0)
    (hi : i < directBlockNum)
    (hne : (disk n).direct i ≠ 0) : ¬ Node disk h' ((disk n).direct i) := by
  intro hnode
  obtain ⟨s, hr, hinode⟩ := hnode.ref
  obtain rfl := hs.once (.direct hn hm hi hne) hr
  exact hinode

/-- **A node is one of one inode.** The place that names it is the last step of both paths. -/
theorem node_unique (hs : Sound disk) (hn : Node disk h n) (hn' : Node disk h' n) : h = h' := by
  obtain ⟨s, hr, hinode⟩ := hn'.ref
  induction hn generalizing h' s with
  | root =>
    obtain rfl := hs.once .root hr
    exact hinode.symm
  | next hn hne ih =>
    obtain rfl := hs.once (.next hn hne) hr
    obtain ⟨s, hr, hinode'⟩ := Node.ref hinode
    exact ih hinode s hr hinode'
  | entry hn hm hi _ =>
    obtain rfl := hs.once (.entry hn hm hi) hr
    exact hinode.symm

/-- A directory of a sound disk. -/
theorem dirOn (hs : Sound disk) (hdir : IsDir disk p) : ∃ ns, DirOn disk p ns := by
  obtain ⟨nodes, hc⟩ := hs.finite hdir.1
  have hnodes : nodesOf (nodes.map fun m => (m, (disk m).entries)) = nodes := by
    rw [nodesOf, List.map_map]
    exact List.map_id nodes
  have hmem : ∀ n, n ∈ nodes ↔ Node disk p n := fun n => ⟨hc.node hdir.1, fun hn => hn.mem_chain hc⟩
  refine ⟨nodes.map fun m => (m, (disk m).entries), ⟨?_, hc.chained fun m hm => ⟨?_, rfl, ?_⟩, ?_, ?_, ?_⟩, ?_, ?_⟩
  · rw [hnodes, hc.head]
  · exact hs.node_block ((hmem m).mp hm)
  · rw [Block.length_entries]
    exact hs.entries ((hmem m).mp hm) hdir.2
  · rw [hnodes]
    exact fun n hn => (hs.node_has ((hmem n).mp hn)).1
  · rw [hnodes]
    exact fun n hn => (hs.node_has ((hmem n).mp hn)).2
  · rw [hnodes]
    exact hc.nodup
  · rw [hnodes]
    exact hmem
  · intro n es hes
    obtain ⟨m, -, heq⟩ := List.mem_map.mp hes
    cases heq
    rfl

/-- Any string can be compared with the entries of a directory, as they hold the numbers of
blocks. -/
theorem readable {ns : Nodes Entry} (hs : Sound disk) (hdir : IsDir disk p) (h : DirOn disk p ns)
    (name : List Byte) : Readable (cStr name) (itemsOf ns) where
  terminated := zero_notMem_cStr name
  ends e he := by
    obtain ⟨n, i, hn, hi, rfl⟩ := h.mem_items.mp he
    have hlt := (hs.has (.entry hn hdir.2 hi)).lt
    exact .inr (.inr (Nat.lt_trans hlt (by decide)))

section
variable {k : Nat → Nat}

theorem mem_directs (hc : Chain disk t ns) (ht : Node disk t t) (hk : ∀ m ∈ ns, (disk m).Lists (k m)) :
    b ∈ (ns.flatMap fun m => (List.range (k m)).map (disk m).direct) ↔
      ∃ n i, Node disk t n ∧ i < directBlockNum ∧ (disk n).direct i ≠ 0 ∧ (disk n).direct i = b := by
  rw [List.mem_flatMap]
  constructor
  · rintro ⟨n, hn, hb⟩
    obtain ⟨i, hi, rfl⟩ := List.mem_map.mp hb
    have hi := List.mem_range.mp hi
    exact ⟨n, i, hc.node ht hn, Nat.lt_of_lt_of_le hi (hk n hn).le, (hk n hn).nonzero i hi, rfl⟩
  · rintro ⟨n, i, hn, hi, hne, rfl⟩
    have hn := hn.mem_chain hc
    exact ⟨n, hn, List.mem_map.mpr ⟨i, List.mem_range.mpr ((hk n hn).all i hi hne), rfl⟩⟩

theorem nodup_directs (hs : Sound disk) (hfile : IsFile disk t) (hc : Chain disk t ns)
    (hk : ∀ m ∈ ns, (disk m).Lists (k m)) : (ns.flatMap fun m => (List.range (k m)).map (disk m).direct).Nodup := by
  have honce : ∀ n ∈ ns, ∀ i < k n, ∀ n' ∈ ns, ∀ i' < k n', (disk n).direct i = (disk n').direct i' →
      n = n' ∧ i = i' := by
    intro n hn i hi n' hn' i' hi' heq
    have hr : Ref disk (.direct n i) ((disk n).direct i) :=
      .direct (hc.node hfile.1 hn) hfile.2 (Nat.lt_of_lt_of_le hi (hk n hn).le) ((hk n hn).nonzero i hi)
    have hr' : Ref disk (.direct n' i') ((disk n').direct i') :=
      .direct (hc.node hfile.1 hn') hfile.2 (Nat.lt_of_lt_of_le hi' (hk n' hn').le) ((hk n' hn').nonzero i' hi')
    rw [heq] at hr
    cases hs.once hr hr'
    exact ⟨rfl, rfl⟩
  rw [List.nodup_flatMap]
  constructor
  · intro n hn
    refine List.Nodup.map_on (fun i hi i' hi' heq => ?_) List.nodup_range
    exact (honce n hn i (List.mem_range.mp hi) n hn i' (List.mem_range.mp hi') heq).2
  · refine List.Pairwise.imp_of_mem (fun {n n'} hn hn' hne => ?_) hc.nodup
    intro b hb hb'
    obtain ⟨i, hi, rfl⟩ := List.mem_map.mp hb
    obtain ⟨i', hi', heq⟩ := List.mem_map.mp hb'
    exact hne (honce n hn i (List.mem_range.mp hi) n' hn' i' (List.mem_range.mp hi') heq.symm).1

end

theorem blocksOf_has (hs : Sound disk) (hfile : IsFile disk t) (hb : BlocksOf disk t b) :
    (volOf disk).Has b ∧ b ≠ 0 := by
  obtain hn | ⟨n, i, hn, hi, hne, rfl⟩ := hb
  · exact hs.node_has hn
  · exact ⟨hs.has (.direct hn hfile.2 hi hne), hne⟩

/-- A file of a sound disk. -/
theorem fileAt (hs : Sound disk) (hfile : IsFile disk t) :
    ∃ ns, FileAt (volOf disk) t ns ∧ ∀ b, b ∈ (Obj.file ns).blocks ↔ BlocksOf disk t b := by
  obtain ⟨nodes, hc⟩ := hs.finite hfile.1
  have hlists : ∀ m ∈ nodes, ∃ k, (disk m).Lists k := fun m hm =>
    Block.exists_lists (hs.directs (hc.node hfile.1 hm) hfile.2)
  choose! k hk using hlists
  have hnodes : nodesOf (nodes.map fun m => (m, (List.range (k m)).map (disk m).direct)) = nodes := by
    rw [nodesOf, List.map_map]
    exact List.map_id nodes
  have hblocks : ∀ b, b ∈ (Obj.file (nodes.map fun m => (m, (List.range (k m)).map (disk m).direct))).blocks ↔
      BlocksOf disk t b := by
    intro b
    change b ∈ nodesOf _ ++ itemsOf _ ↔ _
    rw [List.mem_append, hnodes, itemsOf, List.flatMap_map, mem_directs hc hfile.1 hk]
    exact or_congr_left ⟨hc.node hfile.1, fun hn => hn.mem_chain hc⟩
  refine ⟨_, ⟨?_, hc.chained fun m hm => ?_, fun b hb => ?_, fun b hb => ?_, ?_⟩, hblocks⟩
  · rw [hnodes, hc.head]
  · exact ⟨hs.node_block (hc.node hfile.1 hm), (hk m hm).fileShows⟩
  · exact (hs.blocksOf_has hfile ((hblocks b).mp hb)).1
  · exact (hs.blocksOf_has hfile ((hblocks b).mp hb)).2
  · change (nodesOf _ ++ itemsOf _).Nodup
    rw [List.nodup_append, hnodes, itemsOf, List.flatMap_map]
    refine ⟨hc.nodup, hs.nodup_directs hfile hc hk, fun n hn b hb hnb => ?_⟩
    obtain ⟨n', i, hn', hi, hne, rfl⟩ := (mem_directs hc hfile.1 hk).mp hb
    exact hs.direct_not_node hn' hfile.2 hi hne (hnb ▸ hc.node hfile.1 hn)

theorem blocksOf_not_node (hs : Sound disk) (hdir : IsDir disk p) (hfile : IsFile disk t) (hb : BlocksOf disk t b) :
    ¬ Node disk p b := by
  intro hp
  obtain hn | ⟨n, i, hn, hi, hne, rfl⟩ := hb
  · have heq := hs.node_unique hn hp
    exact hfile.2 (heq ▸ hdir.2)
  · exact hs.direct_not_node hn hfile.2 hi hne hp

/-- The nodes of all files, which are apart from those of a directory. -/
theorem exists_files {ns : Nodes Entry} (hs : Sound disk) (hdir : IsDir disk p) (h : DirOn disk p ns) :
    ∃ file : Nat → Nodes Nat, ∀ t, IsFile disk t → FileAt (volOf disk) t (file t) ∧
      (∀ b, b ∈ (Obj.file (file t)).blocks ↔ BlocksOf disk t b) ∧ ∀ b ∈ (Obj.file (file t)).blocks, b ∉ nodesOf ns := by
  have hfiles : ∀ t, IsFile disk t → ∃ nsf, FileAt (volOf disk) t nsf ∧
      ∀ b, b ∈ (Obj.file nsf).blocks ↔ BlocksOf disk t b := fun t ht => hs.fileAt ht
  choose! file hat hblocks using hfiles
  refine ⟨file, fun t ht => ⟨hat t ht, hblocks t ht, fun b hb hn => ?_⟩⟩
  exact hs.blocksOf_not_node hdir ht ((hblocks t ht b).mp hb) ((h.nodes b).mp hn)

end Sound
end

/-! ### A name of a file -/

/-- Entry `i` of node `n` of the directory has the name, as it is read. -/
def Names (disk : Nat → Block) (p : Nat) (name : List Byte) (n i : Nat) : Prop :=
  Node disk p n ∧ i < (disk n).size ∧ asRead ((disk n).entry i) = cStr name

theorem names_iff {disk : Nat → Block} {p n i : Nat} {name : List Byte} (h : (cStr name).length < 64) :
    Names disk p name n i ↔ HasName disk p name n i :=
  and_congr_right fun _ => and_congr_right fun _ => asRead_short h

/-- **`unlink` frees the blocks of the file and no others.** On a sound disk, where the name
leads to a file, `unlink` returns `OK`; the bits that are cleared are those of the file's
nodes and direct blocks, and the only blocks written, besides those of the bitmap, are nodes
of the directory, which have all their entries but the one of the name. -/
theorem unlink_frees_file {w : World} {p : Nat} {name : List Byte} (hs : Sound w.disk) (hw : w.held = [])
    (hdir : IsDir w.disk p) (hname : ∃ n i, Names w.disk p name n i)
    (hfile : ∀ n i, Names w.disk p name n i → (w.disk ((w.disk n).inum i)).mode ≠ 0) :
    ∃ n i w', Names w.disk p name n i ∧ Prog.run World.answer (unlink p name) w = some (.ok, w') ∧ w'.held = [] ∧
      (∀ b, usedIn w'.disk b = true ↔ usedIn w.disk b = true ∧ ¬ BlocksOf w.disk ((w.disk n).inum i) b) ∧
      (∀ b, outsideBitmap b = true → ¬ Node w.disk p b → w'.disk b = w.disk b) ∧
      ∀ m, Node w.disk p m →
        (w'.disk m).entries = if m = n then (w.disk m).entries.eraseIdx i else (w.disk m).entries := by
  obtain ⟨ns, hon⟩ := hs.dirOn hdir
  have hat : DirAt w.vol p ns := hon.dirAt
  have htarget : ∀ e ∈ itemsOf ns, asRead e = cStr name → IsFile w.disk e.2 := by
    intro e he hread
    obtain ⟨n, i, hn, hi, rfl⟩ := hon.mem_items.mp he
    exact ⟨.entry hn hdir.2 hi, hfile n i ⟨hn, hi, hread⟩⟩
  obtain ⟨file, hfiles⟩ := hs.exists_files hdir hon
  have happart : ∀ e ∈ itemsOf ns, asRead e = cStr name →
      FileAt w.vol e.2 (file e.2) ∧ ∀ b ∈ (Obj.file (file e.2)).blocks, b ∉ nodesOf ns := by
    intro e he hread
    obtain ⟨hat, -, hapart⟩ := hfiles e.2 (htarget e he hread)
    exact ⟨hat, hapart⟩
  obtain ⟨r, w', hrun, hheld, d, hd, hend⟩ := hat.unlink (hs.readable hdir hon name) happart w hw rfl
  obtain ⟨-, hno, -⟩ | ⟨rfl, pre, n, es₁, e, es₂, post, b, hns, hread, hdrop, hvol⟩ := hend
  · obtain ⟨n, i, hn, hi, hread⟩ := hname
    exact absurd hread (hno _ (hon.mem_items.mpr ⟨n, i, hn, hi, rfl⟩))
  · have hmem : (n, es₁ ++ e :: es₂) ∈ ns := by simp [hns]
    have hn : Node w.disk p n := (hon.nodes n).mp (List.mem_map.mpr ⟨_, hmem, rfl⟩)
    obtain ⟨hlt, hentry⟩ := Block.entry_of_entries (hon.entries n _ hmem).symm
    obtain rfl : (w.disk n).entry es₁.length = e := hentry
    have ht := htarget _ (hon.mem_items.mpr ⟨n, _, hn, hlt, rfl⟩) hread
    have hdisk : ∀ c, outsideBitmap c = true → w'.disk c = ((w.vol.write p d).write n b).block c := by
      intro c hc
      have hc' : w'.vol.block c = w'.disk c := if_pos hc
      rw [← hc', hvol]
      rfl
    refine ⟨n, es₁.length, w', ⟨hn, hlt, hread⟩, hrun, hheld, fun c => ?_, fun c hc hnot => ?_, fun m hm => ?_⟩
    · change w'.vol.used c = true ↔ _
      rw [hvol, Vol.drop_used_iff]
      exact and_congr_right fun _ => not_congr ((hfiles _ ht).2.1 c)
    · have hcn : c ≠ n := fun e => hnot (e ▸ hn)
      have hcp : c ≠ p := fun e => hnot (e ▸ hdir.1)
      rw [hdisk c hc, Vol.write_block_ne hcn, Vol.write_block_ne hcp]
      exact if_pos hc
    · rw [hdisk m (hs.node_has hm).1.data]
      split
      · next heq =>
        rw [heq, Vol.write_block_self]
        exact hon.entries_dropped hd hn hdrop
      · next hne =>
        rw [Vol.write_block_ne hne]
        exact hon.entries_retimed hd hm

/-- Where the name is that of the only entry of a directory, it leads to the inode of that entry. -/
theorem Rep.names_only {disk : Nat → Block} {fs : Tree} {p t : Nat} {name : List Byte} {ns : Nodes Entry}
    (hr : Rep (volOf disk) fs) (ho : fs p = some (.dir ns)) (hitems : itemsOf ns = [(cStr name, t)])
    (hlen : (cStr name).length < 64) :
    (∃ n i, Names disk p name n i) ∧ ∀ n i, Names disk p name n i → (disk n).inum i = t := by
  constructor
  · obtain ⟨n, i, hat⟩ : ∃ n i, At ns n i (cStr name, t) := exists_at (by simp [hitems])
    obtain ⟨hn, hi, hentry⟩ := (hr.entry_at ho).mp hat
    exact ⟨n, i, (names_iff hlen).mpr ⟨hr.node_of_mem ho (hr.node_self ho) hn, hi, (Prod.mk.inj hentry).1.symm⟩⟩
  · intro n i hi
    obtain ⟨o, ho', hn⟩ := hr.of_node hi.1
    obtain rfl : o = .dir ns := Option.some.inj (ho'.symm.trans ho)
    have hmem := ((hr.entry_at ho).mpr ⟨hn, hi.2.1, rfl⟩).mem
    rw [hitems, List.mem_singleton] at hmem
    exact (Prod.mk.inj hmem).2

/-- A file with a byte written behind its first 16 blocks has two nodes. -/
theorem exists_two_nodes : ∃ (w : World) (fs : Tree) (t n : Nat) (x y : List Nat) (ns : Nodes Entry),
    w.held = [] ∧ Rep (volOf w.disk) fs ∧ fs 1 = some (.dir ns) ∧ itemsOf ns = [(cStr [97], t)] ∧
    fs t = some (.file [(t, x), (n, y)]) := by
  have hrep : Rep (volOf (format still.disk)) rootOnly := rep_format
  have hfree : 100 ≤ (volOf (format still.disk)).free := format_blank_free
  have hroot : rootOnly 1 = some (.dir [(1, [])]) := update_self ..
  have hcost : roomCost [(1, [])] = 0 := if_neg (by decide)
  generalize format still.disk = disk at hrep hfree
  obtain ⟨_, w₁, -, hheld₁, t, ns, -, hmade⟩ := @create_does _ _ _ _ [97] 0 hrep hroot (by decide) nofun (by omega)
    { still with disk := disk } rfl rfl
  have ht : t ≠ 1 := hmade.ne (hrep.used_dir hroot)
  have hnew : update (update rootOnly t (some (.file [(t, [])]))) 1 (some (.dir ns)) t =
      some (.file [(t, [])]) := by rw [update_of_ne ht, update_self]
  have hroom : taken 1 0 (lastBlock 8192 1) ≤ w₁.vol.free := by
    have hlen := hmade.length
    have hspent := hmade.cost
    rw [List.length_singleton] at hlen hspent
    generalize w₁.vol.free = free, (volOf disk).free = free₀ at hfree hspent ⊢
    change 18 ≤ free
    omega
  have hwrite := innerWrite_stores hmade.rep hnew (locks_self hmade.rep hnew) (.inr (by decide))
    (show 1 ≤ [98].length by decide) hroom
  obtain ⟨_, w₂, -, hheld, -, nsf, g, hstores, -, hnodes, -⟩ := Does.withLock List.not_mem_nil hwrite w₁ hheld₁ rfl
  have hlen : nsf.length = 2 := hnodes
  obtain ⟨⟨a, x⟩, ⟨n, y⟩, rfl⟩ := List.length_eq_two.mp hlen
  have hfile : update (update (update rootOnly t (some (.file [(t, [])]))) 1
      (some (.dir ns))) t (some (.file [(a, x), (n, y)])) t = some (.file [(a, x), (n, y)]) := update_self ..
  have ha : a = t := Option.some.inj (hstores.rep.laid.shows hfile).head
  rw [ha] at hstores
  exact ⟨w₂, _, t, n, x, y, ns, hheld, hstores.rep, by rw [update_of_ne ht.symm, update_self],
    List.perm_singleton.mp hmade.entries, update_self ..⟩

/-- The two nodes of a file are free when it is unlinked. -/
theorem unlink_frees_two_nodes : ∃ w w' t n, Node w.disk t n ∧ n ≠ t ∧
    Prog.run World.answer (unlink 1 [97]) w = some (.ok, w') ∧
    ∀ b, usedIn w'.disk b = true ↔ usedIn w.disk b = true ∧ ¬ BlocksOf w.disk t b := by
  obtain ⟨w, fs, t, n, x, y, ns, hheld, hrep, hdir, hitems, hfile⟩ := exists_two_nodes
  have hnode : Node w.disk t n := hrep.node_of_mem hfile (hrep.node_self hfile) (by simp [Obj.nodes])
  have hne : t ≠ n := by simpa [Obj.nodes] using hrep.laid.nodup_nodes hfile
  obtain ⟨hnames, hentry⟩ := hrep.names_only hdir hitems (by decide)
  obtain ⟨m, i, w', hi, hrun, -, hused, -⟩ := unlink_frees_file hrep.sound hheld ⟨.root, hrep.mode_dir hdir⟩ hnames
    fun m i hi => by rw [hentry m i hi]; exact hrep.mode_file hfile
  rw [hentry m i hi] at hused
  exact ⟨w, w', t, n, hnode, hne.symm, hrun, hused⟩

/-! ### A name of a directory -/

/-- `unlink` returns an error, and leaves the blocks found from the root and the bitmap as they
were. -/
def Refused (w : World) (p : Nat) (name : List Byte) : Prop :=
  ∃ r w', Prog.run World.answer (unlink p name) w = some (r, w') ∧ r ≠ .ok ∧
    (∀ b, usedIn w'.disk b = usedIn w.disk b) ∧ ∀ b, Reachable w.disk b → w'.disk b = w.disk b

/-- **`unlink` refuses nothing.** On a sound disk no name that a directory has is refused,
whether it leads to a file or to a directory. -/
theorem unlink_accepts_dir {w : World} {p n i : Nat} {name : List Byte} (hs : Sound w.disk) (hw : w.held = [])
    (hdir : IsDir w.disk p) (hname : Names w.disk p name n i) : ¬ Refused w p name := by
  obtain ⟨ns, hon⟩ := hs.dirOn hdir
  have hat : DirAt w.vol p ns := hon.dirAt
  have hmem : (w.disk n).entry i ∈ itemsOf ns := hon.mem_items.mpr ⟨n, i, hname.1, hname.2.1, rfl⟩
  rintro ⟨r, w', hrun, hr, -⟩
  exact hr (hat.unlink_ok (hs.readable hdir hon name) hmem hname.2.2 w hw rfl r w' hrun)

/-- The directory has one node, with room for an entry and without this name, and blocks are
free. -/
def Roomy (w : World) (p : Nat) (name : List Byte) : Prop :=
  (w.disk p).mode = 0 ∧ (w.disk p).next = 0 ∧ (w.disk p).size < 5 ∧
    (∀ i < (w.disk p).size, (w.disk p).name i ≠ cStr name) ∧ w.vol.used 9 = false

instance (w : World) (p : Nat) (name : List Byte) : Decidable (Roomy w p name) := inferInstanceAs (Decidable (_ ∧ _))

theorem Roomy.ok {w : World} {p : Nat} {name : List Byte} (h : Roomy w p name) (hp : Node w.disk p p)
    (h0 : 0 < name.length) (hlen : name.length ≤ 63) : (Op.create p name).ok w ∧ (Op.mkdir p name).ok w := by
  obtain ⟨hmode, hnext, hsize, hnames, hfree⟩ := h
  have hnew : NewName w.disk p name := by
    refine ⟨h0, hlen, ?_⟩
    rintro n i ⟨hn, hi, heq⟩
    obtain rfl := List.mem_singleton.mp (hn.mem_chain (.last hnext))
    exact hnames i hi heq
  have hneed : ∀ nodes, Chain w.disk p nodes → entryNeed w.disk nodes ≤ w.vol.free := by
    intro nodes hc
    rw [hc.unique (.last hnext), entryNeed, if_neg]
    · exact Vol.free_pos (by decide) hfree
    · exact fun hall => absurd (hall p (List.mem_singleton_self p)) (Nat.not_le_of_lt hsize)
  exact ⟨⟨⟨hp, hmode⟩, hnew, hneed⟩, ⟨hp, hmode⟩, hnew, hneed⟩

/-- A new directory is not refused. -/
theorem unlink_accepts_new_dir : ∃ w, HasName w.disk 1 [100] 1 0 ∧ IsDir w.disk ((w.disk 1).inum 0) ∧
    ¬ Refused w 1 [100] := by
  obtain ⟨w₀, hw₀, hroom, w₁, hs₁, hheld, hmode, hsize, hname, hdmode⟩ :
      ∃ w₀, mount still = some w₀ ∧ Roomy w₀ 1 [100] ∧ ∃ w₁, Op.step w₀ (.mkdir 1 [100]) = some w₁ ∧ w₁.held = [] ∧
      (w₁.disk 1).mode = 0 ∧ 0 < (w₁.disk 1).size ∧ (w₁.disk 1).name 0 = cStr [100] ∧
      (w₁.disk ((w₁.disk 1).inum 0)).mode = 0 := by decide +kernel
  obtain ⟨w₀', hw₀', hall⟩ := disk_sound (fun _ => 0) fun _ => Bytes.zero
  obtain rfl : w₀' = w₀ := Option.some.inj (hw₀'.symm.trans hw₀)
  have hsound := (hall w₁ (Steps.refl.tail (hroom.ok .root (by decide) (by decide)).2 hs₁)).1
  have hhas : HasName w₁.disk 1 [100] 1 0 := ⟨.root, hsize, hname⟩
  exact ⟨w₁, hhas, ⟨.entry .root hmode hsize, hdmode⟩,
    unlink_accepts_dir hsound hheld ⟨.root, hmode⟩ ((names_iff (by decide)).mpr hhas)⟩

/-- **`unlink` frees what the names of a directory spell.** The directory `d` has one entry,
whose name is the byte 2, and block 2 is the inode of the file `f`: when `d` is unlinked, the
bit of `f` is cleared. -/
theorem unlink_dir_frees_file : ∃ w w', Sound w.disk ∧ w.held = [] ∧ HasName w.disk 1 [100] 1 1 ∧
    IsDir w.disk ((w.disk 1).inum 1) ∧ HasName w.disk 1 [102] 1 0 ∧ IsFile w.disk ((w.disk 1).inum 0) ∧
    Prog.run World.answer (unlink 1 [100]) w = some (.ok, w') ∧ HasName w'.disk 1 [102] 1 0 ∧
    (w'.disk 1).inum 0 = (w.disk 1).inum 0 ∧
    usedIn w.disk ((w.disk 1).inum 0) = true ∧ usedIn w'.disk ((w.disk 1).inum 0) = false := by
  obtain ⟨w₀, hw₀, hroom₀, w₁, hs₁, hroom₁, w₂, hs₂, ⟨hroom₂, hmode₂, hsize₂, hinum₂⟩, w₃, hs₃, ⟨hheld, hmode, hsize,
    hd, hdmode, hf, hfmode, hused⟩, ⟨r, w₄⟩, hrun, rfl, hsize₄, hf₄, hinum₄, hused₄⟩ : ∃ w₀, mount still = some w₀ ∧
      Roomy w₀ 1 [102] ∧ ∃ w₁, Op.step w₀ (.create 1 [102]) = some w₁ ∧ Roomy w₁ 1 [100] ∧
      ∃ w₂, Op.step w₁ (.mkdir 1 [100]) = some w₂ ∧ (Roomy w₂ 3 [2] ∧ (w₂.disk 1).mode = 0 ∧ 1 < (w₂.disk 1).size ∧
      (w₂.disk 1).inum 1 = 3) ∧ ∃ w₃, Op.step w₂ (.create 3 [2]) = some w₃ ∧ (w₃.held = [] ∧ (w₃.disk 1).mode = 0 ∧
      (w₃.disk 1).size = 2 ∧ (w₃.disk 1).name 1 = cStr [100] ∧ (w₃.disk ((w₃.disk 1).inum 1)).mode = 0 ∧
      (w₃.disk 1).name 0 = cStr [102] ∧ (w₃.disk ((w₃.disk 1).inum 0)).mode ≠ 0 ∧
      usedIn w₃.disk ((w₃.disk 1).inum 0) = true) ∧ ∃ x, Prog.run World.answer (unlink 1 [100]) w₃ = some x ∧
      x.1 = .ok ∧ 0 < (x.2.disk 1).size ∧ (x.2.disk 1).name 0 = cStr [102] ∧
      (x.2.disk 1).inum 0 = (w₃.disk 1).inum 0 ∧ usedIn x.2.disk ((w₃.disk 1).inum 0) = false := by decide +kernel
  obtain ⟨w₀', hw₀', hall⟩ := disk_sound (fun _ => 0) fun _ => Bytes.zero
  obtain rfl : w₀' = w₀ := Option.some.inj (hw₀'.symm.trans hw₀)
  have hnode₂ : Node w₂.disk 3 3 := hinum₂ ▸ .entry .root hmode₂ hsize₂
  have hsound := (hall w₃ (((Steps.refl.tail (hroom₀.ok .root (by decide) (by decide)).1 hs₁).tail
    (hroom₁.ok .root (by decide) (by decide)).2 hs₂).tail (hroom₂.ok hnode₂ (by decide) (by decide)).1 hs₃)).1
  have h0 : 0 < (w₃.disk 1).size := by omega
  have h1 : 1 < (w₃.disk 1).size := by omega
  exact ⟨w₃, w₄, hsound, hheld, ⟨.root, h1, hd⟩, ⟨.entry .root hmode h1, hdmode⟩, ⟨.root, h0, hf⟩,
    ⟨.entry .root hmode h0, hfmode⟩, hrun, ⟨.root, hsize₄, hf₄⟩, hinum₄, hused, hused₄⟩

end Yfs.Fs

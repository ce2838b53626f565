import Yfs.Fs.Dirs

/-! What the blocks of a disk refer to.

From the root inode, block 1, the blocks of a file system are found through the entries
of its directories, the `next_inode` of its nodes and the `direct_blocks` of its files.
`Node disk h n` says that block `n` is a node of the inode `h` found so, and `Ref disk s b`
that the place `s` on the disk names block `b`. They are read off the disk alone: a disk
may refer to a block twice, to a block that is not in use, or in circles. `Sound` says
that it does not, and a disk that holds a tree (`Rep`) is sound and refers to the blocks
of the tree and to no others. -/
namespace Yfs.Fs
open Yfs.Base

/-- A place on the disk that names a block. -/
inductive Slot where
  | root
  | next (n : Nat)
  | entry (n i : Nat)
  | direct (n i : Nat)
  deriving DecidableEq

section
variable (disk : Nat → Block)

/-- Block `n` is a node of the inode `h`, found from the root. -/
inductive Node : Nat → Nat → Prop where
  | root : Node 1 1
  | next {h n : Nat} : Node h n → (disk n).next ≠ 0 → Node h (disk n).next
  | entry {h n i : Nat} : Node h n → (disk h).mode = 0 → i < (disk n).size →
      Node ((disk n).inum i) ((disk n).inum i)

/-- The place names block `b`. -/
inductive Ref : Slot → Nat → Prop where
  | root : Ref .root 1
  | next {h n : Nat} : Node disk h n → (disk n).next ≠ 0 → Ref (.next n) (disk n).next
  | entry {h n i : Nat} : Node disk h n → (disk h).mode = 0 → i < (disk n).size →
      Ref (.entry n i) ((disk n).inum i)
  | direct {h n i : Nat} : Node disk h n → (disk h).mode ≠ 0 → i < directBlockNum → (disk n).direct i ≠ 0 →
      Ref (.direct n i) ((disk n).direct i)

/-- Block `b` is found from the root. -/
def Reachable (b : Nat) : Prop := ∃ s, Ref disk s b

/-- The nodes from `n` on along `next_inode`, up to one without a next node. -/
inductive Chain : Nat → List Nat → Prop where
  | last {n : Nat} : (disk n).next = 0 → Chain n [n]
  | next {n : Nat} {ns : List Nat} : (disk n).next ≠ 0 → Chain (disk n).next ns → Chain n (n :: ns)

/-- What the disk refers to is in use, apart and laid out as the client lays it out. -/
structure Sound : Prop where
  used : ∀ {s b}, Ref disk s b → usedIn disk b = true
  apart : ∀ {s b}, Ref disk s b → b ≠ 0 ∧ ¬ (bitmapBegin ≤ b ∧ b ≤ bitmapEnd)
  once : ∀ {s s' b}, Ref disk s b → Ref disk s' b → s = s'
  finite : ∀ {h n}, Node disk h n → ∃ ns, Chain disk n ns
  entries : ∀ {h n}, Node disk h n → (disk h).mode = 0 → (disk n).size ≤ dirEntryNum
  directs : ∀ {h n}, Node disk h n → (disk h).mode ≠ 0 → ∀ i j, i < j → j < directBlockNum →
    (disk n).direct j ≠ 0 → (disk n).direct i ≠ 0

end

theorem Chain.unique {disk : Nat → Block} {n : Nat} {ns ns' : List Nat} (h : Chain disk n ns)
    (h' : Chain disk n ns') : ns = ns' := by
  induction h generalizing ns' with
  | last h0 =>
    cases h' with
    | last => rfl
    | next hne => exact absurd h0 hne
  | next hne _ ih =>
    cases h' with
    | last h0 => exact absurd h0 hne
    | next _ hrest => rw [ih hrest]

/-! ### Items of nodes -/

section
variable {α : Type} {v : Vol} {shows : Block → List α → Prop} {ns : Nodes α} {n n' i i' : Nat} {x : α}

/-- The node `n` lists `x` at `i`. -/
def At (ns : Nodes α) (n i : Nat) (x : α) : Prop := ∃ xs, (n, xs) ∈ ns ∧ xs[i]? = some x

theorem At.mem (h : At ns n i x) : x ∈ itemsOf ns := by
  obtain ⟨xs, hmem, hx⟩ := h
  exact List.mem_flatMap.mpr ⟨(n, xs), hmem, List.mem_of_getElem? hx⟩

theorem exists_at (h : x ∈ itemsOf ns) : ∃ n i, At ns n i x := by
  obtain ⟨⟨n, xs⟩, hmem, hx⟩ := List.mem_flatMap.mp h
  obtain ⟨i, hi⟩ := List.mem_iff_getElem?.mp hx
  exact ⟨n, i, xs, hmem, hi⟩

theorem At.unique (hnodup : (itemsOf ns).Nodup) (h : At ns n i x) (h' : At ns n' i' x) : n = n' ∧ i = i' := by
  induction ns with
  | nil =>
    obtain ⟨_, hmem, _⟩ := h
    cases hmem
  | cons y rest ih =>
    obtain ⟨m, ys⟩ := y
    rw [itemsOf_cons, List.nodup_append] at hnodup
    obtain ⟨xs, hmem, hx⟩ := h
    obtain ⟨xs', hmem', hx'⟩ := h'
    have hrest : ∀ {k zs j}, (k, zs) ∈ rest → zs[j]? = some x → x ∈ itemsOf rest :=
      fun hk hj => At.mem ⟨_, hk, hj⟩
    cases List.mem_cons.mp hmem with
    | inl heq =>
      cases heq
      cases List.mem_cons.mp hmem' with
      | inl heq' =>
        cases heq'
        exact ⟨rfl, (List.getElem?_inj (List.getElem?_eq_some_iff.mp hx).1 hnodup.1).mp (hx.trans hx'.symm)⟩
      | inr hin' => exact absurd rfl (hnodup.2.2 x (List.mem_of_getElem? hx) x (hrest hin' hx'))
    | inr hin =>
      cases List.mem_cons.mp hmem' with
      | inl heq' =>
        cases heq'
        exact absurd rfl (hnodup.2.2 x (List.mem_of_getElem? hx') x (hrest hin hx))
      | inr hin' => exact ih hnodup.2.1 ⟨xs, hin, hx⟩ ⟨xs', hin', hx'⟩

theorem Chained.mem {xs : List α} (h : Chained v shows ns) (hmem : (n, xs) ∈ ns) : shows (v.block n) xs := by
  induction ns with
  | nil => cases hmem
  | cons y rest ih =>
    cases List.mem_cons.mp hmem with
    | inl heq =>
      cases heq
      exact h.1
    | inr hmem => exact ih h.2.2 hmem

theorem mem_nodesOf (h : n ∈ nodesOf ns) : ∃ xs, (n, xs) ∈ ns := by
  obtain ⟨⟨m, xs⟩, hmem, rfl⟩ := List.mem_map.mp h
  exact ⟨xs, hmem⟩

theorem Chained.next_at (h : Chained v shows ns) {k : Nat} (hk : k < (nodesOf ns).length) :
    (v.block (nodesOf ns)[k]).next = (nodesOf ns).getD (k + 1) 0 := by
  induction ns generalizing k with
  | nil => cases hk
  | cons y rest ih =>
    obtain ⟨hy, hnext, hrest⟩ := h
    cases k with
    | zero =>
      change (v.block y.1).next = _
      rw [hnext]
      cases rest <;> rfl
    | succ k => exact ih hrest (Nat.lt_of_succ_lt_succ hk)

end

/-! ### A disk that holds a tree -/

section
variable {disk : Nat → Block} {fs : Tree} {h n i b : Nat} {o : Obj}

namespace Rep

theorem disk_block (hr : Rep (volOf disk) fs) (ho : fs h = some o) (hb : b ∈ o.blocks) :
    (volOf disk).block b = disk b := by
  change dataOf disk b = disk b
  rw [dataOf, if_pos (hr.laid.has ho hb).data]

theorem disk_node (hr : Rep (volOf disk) fs) (ho : fs h = some o) (hn : n ∈ o.nodes) :
    (volOf disk).block n = disk n := hr.disk_block ho (Obj.mem_blocks_of_node hn)

theorem next_at (hr : Rep (volOf disk) fs) (ho : fs h = some o) {k : Nat} (hk : k < o.nodes.length) :
    (disk o.nodes[k]).next = o.nodes.getD (k + 1) 0 := by
  rw [← hr.disk_node ho (List.getElem_mem hk)]
  cases o with
  | file ns => exact (hr.laid.shows ho).2.2.1.next_at hk
  | dir ns => exact (hr.laid.shows ho).2.2.next_at hk

theorem mode_file (hr : Rep (volOf disk) fs) {ns : Nodes Nat} (ho : fs h = some (.file ns)) :
    (disk h).mode ≠ 0 := by
  rw [← hr.disk_block ho (hr.laid.head_mem ho)]
  exact (hr.laid.shows ho).2.1

theorem mode_dir (hr : Rep (volOf disk) fs) {ns : Nodes Entry} (ho : fs h = some (.dir ns)) :
    (disk h).mode = 0 := by
  rw [← hr.disk_block ho (hr.laid.head_mem ho)]
  exact (hr.laid.shows ho).2.1

theorem dir_of_mode (hr : Rep (volOf disk) fs) (ho : fs h = some o) (hm : (disk h).mode = 0) :
    ∃ ns, o = .dir ns := by
  cases o with
  | file ns => exact absurd hm (hr.mode_file ho)
  | dir ns => exact ⟨ns, rfl⟩

theorem file_of_mode (hr : Rep (volOf disk) fs) (ho : fs h = some o) (hm : (disk h).mode ≠ 0) :
    ∃ ns, o = .file ns := by
  cases o with
  | file ns => exact ⟨ns, rfl⟩
  | dir ns => exact absurd (hr.mode_dir ho) hm

theorem dirShows_of_mem (hr : Rep (volOf disk) fs) {ns : Nodes Entry} (ho : fs h = some (.dir ns))
    {es : List Entry} (hmem : (n, es) ∈ ns) : DirShows (disk n) es := by
  rw [← hr.disk_node ho (List.mem_map.mpr ⟨(n, es), hmem, rfl⟩)]
  exact (hr.laid.shows ho).2.2.mem hmem

theorem fileShows_of_mem (hr : Rep (volOf disk) fs) {ns : Nodes Nat} (ho : fs h = some (.file ns))
    {ds : List Nat} (hmem : (n, ds) ∈ ns) : FileShows (disk n) ds := by
  rw [← hr.disk_node ho (List.mem_map.mpr ⟨(n, ds), hmem, rfl⟩)]
  exact (hr.laid.shows ho).2.2.1.mem hmem

theorem entry_at (hr : Rep (volOf disk) fs) {ns : Nodes Entry} (ho : fs h = some (.dir ns)) {e : Entry} :
    At ns n i e ↔ n ∈ nodesOf ns ∧ i < (disk n).size ∧ e = ((disk n).name i, (disk n).inum i) := by
  have hget : ∀ {es}, (n, es) ∈ ns → es[i]? = if i < (disk n).size then some ((disk n).name i, (disk n).inum i)
    else none := by
    intro es hmem
    have hshow := hr.dirShows_of_mem ho hmem
    rw [← hshow.entries, Block.entries, List.getElem?_map]
    split
    · next hlt => rw [List.getElem?_range hlt]; rfl
    · next hge => rw [List.getElem?_eq_none (by simpa using hge)]; rfl
  constructor
  · rintro ⟨es, hmem, he⟩
    rw [hget hmem, Option.ite_none_right_eq_some] at he
    exact ⟨List.mem_map.mpr ⟨(n, es), hmem, rfl⟩, he.1, (Option.some.inj he.2).symm⟩
  · rintro ⟨hn, hi, rfl⟩
    obtain ⟨es, hmem⟩ := mem_nodesOf hn
    exact ⟨es, hmem, by rw [hget hmem, if_pos hi]⟩

theorem direct_at (hr : Rep (volOf disk) fs) {ns : Nodes Nat} (ho : fs h = some (.file ns)) (hi : i < 16) :
    At ns n i b ↔ n ∈ nodesOf ns ∧ (disk n).direct i ≠ 0 ∧ b = (disk n).direct i := by
  have hget : ∀ {ds}, (n, ds) ∈ ns → (disk n).direct i = ds.getD i 0 :=
    fun hmem => (hr.fileShows_of_mem ho hmem).direct i hi
  constructor
  · intro hat
    have hb := hr.laid.ne_zero ho (List.mem_append_right _ hat.mem)
    obtain ⟨ds, hmem, hx⟩ := hat
    have heq : (disk n).direct i = b := by rw [hget hmem, List.getD_eq_getElem?_getD, hx]; rfl
    exact ⟨List.mem_map.mpr ⟨(n, ds), hmem, rfl⟩, heq ▸ hb, heq.symm⟩
  · rintro ⟨hn, hne, hb⟩
    obtain ⟨ds, hmem⟩ := mem_nodesOf hn
    refine ⟨ds, hmem, ?_⟩
    rw [hget hmem, List.getD_eq_getElem?_getD] at hne hb
    cases hd : ds[i]? with
    | none => rw [hd] at hne; exact absurd rfl hne
    | some d => rw [hb, hd]; rfl

theorem mem_kids_of_at {p : Nat} {ns : Nodes Entry} {e : Entry} (ho : fs p = some (.dir ns))
    (hat : At ns n i e) : e.2 ∈ kids fs p := by
  rw [kids_of_some ho]
  exact List.mem_map.mpr ⟨e, hat.mem, rfl⟩

theorem kid_some {v : Vol} {p c : Nat} (hr : Rep v fs) (hc : c ∈ kids fs p) : ∃ o, fs c = some o :=
  Option.ne_none_iff_exists'.mp (hr.tree.has_kid p c hc)

/-- Where a place on the disk stands in the tree. -/
def InTree (fs : Tree) : Slot → Nat → Prop
  | .root, b => b = 1
  | .next n, b => ∃ h o k, fs h = some o ∧ o.nodes[k]? = some n ∧ o.nodes[k + 1]? = some b
  | .entry n i, b => ∃ p ns e, fs p = some (.dir ns) ∧ At ns n i e ∧ e.2 = b
  | .direct n i, b => ∃ h ns, fs h = some (.file ns) ∧ At ns n i b

/-- The nodes found from the root are those of the tree. -/
theorem of_node (hr : Rep (volOf disk) fs) (hn : Node disk h n) : ∃ o, fs h = some o ∧ n ∈ o.nodes := by
  induction hn with
  | root =>
    obtain ⟨ns, ho⟩ := hr.root
    exact ⟨_, ho, (hr.laid.shows ho).head_mem⟩
  | next _ hne ih =>
    obtain ⟨o, ho, hn⟩ := ih
    obtain ⟨k, hk, rfl⟩ := List.mem_iff_getElem.mp hn
    rw [hr.next_at ho hk] at hne ⊢
    refine ⟨o, ho, ?_⟩
    by_cases hlt : k + 1 < o.nodes.length
    · rw [List.getD_eq_getElem _ _ hlt]
      exact List.getElem_mem hlt
    · rw [List.getD_eq_default _ _ (Nat.le_of_not_lt hlt)] at hne
      exact absurd rfl hne
  | entry _ hm hi ih =>
    obtain ⟨o, ho, hn⟩ := ih
    obtain ⟨ns, rfl⟩ := hr.dir_of_mode ho hm
    obtain ⟨o', ho'⟩ := hr.kid_some (mem_kids_of_at ho ((hr.entry_at ho).mpr ⟨hn, hi, rfl⟩))
    exact ⟨o', ho', (hr.laid.shows ho').head_mem⟩

/-- What a place names, it names in the tree. -/
theorem of_ref (hr : Rep (volOf disk) fs) {s : Slot} (hs : Ref disk s b) : InTree fs s b := by
  cases hs with
  | root => rfl
  | @next h n hn hne =>
    obtain ⟨o, ho, hmem⟩ := hr.of_node hn
    obtain ⟨k, hk, rfl⟩ := List.mem_iff_getElem.mp hmem
    refine ⟨h, o, k, ho, List.getElem?_eq_getElem hk, ?_⟩
    rw [hr.next_at ho hk] at hne ⊢
    by_cases hlt : k + 1 < o.nodes.length
    · rw [List.getD_eq_getElem _ _ hlt, List.getElem?_eq_getElem hlt]
    · rw [List.getD_eq_default _ _ (Nat.le_of_not_lt hlt)] at hne
      exact absurd rfl hne
  | entry hn hm hi =>
    obtain ⟨o, ho, hmem⟩ := hr.of_node hn
    obtain ⟨ns, rfl⟩ := hr.dir_of_mode ho hm
    exact ⟨_, ns, _, ho, (hr.entry_at ho).mpr ⟨hmem, hi, rfl⟩, rfl⟩
  | direct hn hm hi hne =>
    obtain ⟨o, ho, hmem⟩ := hr.of_node hn
    obtain ⟨ns, rfl⟩ := hr.file_of_mode ho hm
    exact ⟨_, ns, ho, (hr.direct_at ho hi).mpr ⟨hmem, hne, rfl⟩⟩

/-! ### No block is named twice -/

section
variable {v : Vol} {ns : Nodes Nat} {k : Nat}

theorem not_head (hr : Rep v fs) (ho : fs h = some o) (hb : o.nodes[k + 1]? = some b) : fs b = none := by
  by_contra hne
  obtain ⟨o', ho'⟩ := Option.ne_none_iff_exists'.mp hne
  have hmem : b ∈ o.nodes := List.mem_of_getElem? hb
  obtain rfl : b = h := hr.laid.apart ho' ho (hr.laid.head_mem ho') (Obj.mem_blocks_of_node hmem)
  have hhead := (hr.laid.shows ho).head
  rw [List.head?_eq_getElem?] at hhead
  have hinj := (List.getElem?_inj (List.getElem?_eq_some_iff.mp hhead).1 (hr.laid.nodup_nodes ho)).mp
    (hhead.trans hb.symm)
  omega

theorem not_node (hr : Rep v fs) (ho : fs h = some (.file ns)) (hb : b ∈ itemsOf ns) {i : Nat} (ho' : fs i = some o) :
    b ∉ o.nodes := by
  intro hmem
  obtain rfl : h = i := hr.laid.apart ho ho' (List.mem_append_right _ hb) (Obj.mem_blocks_of_node hmem)
  rw [ho] at ho'
  cases ho'
  exact (List.nodup_append.mp (hr.laid.nodup ho)).2.2 b hmem b hb rfl

end

/-! Roots and entries name inodes; the other places name blocks that are none. -/

theorem inTree_next (hr : Rep (volOf disk) fs) {n : Nat} (hs : InTree fs (.next n) b) : fs b = none := by
  obtain ⟨h, o, k, ho, -, hk⟩ := hs
  exact hr.not_head ho hk

theorem inTree_direct (hr : Rep (volOf disk) fs) {n i : Nat} (hs : InTree fs (.direct n i) b) : fs b = none := by
  obtain ⟨h, ns, ho, hat⟩ := hs
  by_contra hb
  obtain ⟨o, ho'⟩ := Option.ne_none_iff_exists'.mp hb
  exact hr.not_node ho hat.mem ho' (hr.laid.shows ho').head_mem

theorem inTree_root (hr : Rep (volOf disk) fs) (hs : InTree fs .root b) : fs b ≠ none := by
  obtain rfl : b = 1 := hs
  obtain ⟨ns, hroot⟩ := hr.root
  rw [hroot]
  exact Option.some_ne_none _

theorem inTree_entry (hr : Rep (volOf disk) fs) {n i : Nat} (hs : InTree fs (.entry n i) b) : fs b ≠ none := by
  obtain ⟨p, ns, e, ho, hat, rfl⟩ := hs
  exact hr.tree.has_kid _ _ (mem_kids_of_at ho hat)

theorem inTree_entry_ne_root (hr : Rep (volOf disk) fs) {n i : Nat} (hs : InTree fs (.entry n i) b) : b ≠ 1 := by
  obtain ⟨p, ns, e, ho, hat, rfl⟩ := hs
  exact hr.tree.kid_ne_root p _ (mem_kids_of_at ho hat)

/-- **Every block of the tree is named once.** -/
theorem inTree_once (hr : Rep (volOf disk) fs) {s s' : Slot} (hs : InTree fs s b) (hs' : InTree fs s' b) : s = s' := by
  cases s with
  | root =>
    cases s' with
    | root => rfl
    | entry n' i' => exact absurd hs (hr.inTree_entry_ne_root hs')
    | next n' => exact absurd (hr.inTree_next hs') (hr.inTree_root hs)
    | direct n' i' => exact absurd (hr.inTree_direct hs') (hr.inTree_root hs)
  | entry n i =>
    cases s' with
    | root => exact absurd hs' (hr.inTree_entry_ne_root hs)
    | next n' => exact absurd (hr.inTree_next hs') (hr.inTree_entry hs)
    | direct n' i' => exact absurd (hr.inTree_direct hs') (hr.inTree_entry hs)
    | entry n' i' =>
      obtain ⟨p, ns, e, ho, hat, rfl⟩ := hs
      have hkid := mem_kids_of_at ho hat
      obtain ⟨q, ns', e', ho', hat', he⟩ := hs'
      have hkid' := mem_kids_of_at ho' hat'
      rw [he] at hkid'
      obtain rfl := hr.tree.once p q _ hkid hkid'
      rw [ho] at ho'
      cases ho'
      have hnodup := hr.tree.nodup p
      rw [kids_of_some ho] at hnodup
      obtain rfl : e' = e := List.inj_on_of_nodup_map hnodup hat'.mem hat.mem he
      obtain ⟨rfl, rfl⟩ := hat.unique (List.Nodup.of_map _ hnodup) hat'
      rfl
  | next n =>
    cases s' with
    | root => exact absurd (hr.inTree_next hs) (hr.inTree_root hs')
    | entry n' i' => exact absurd (hr.inTree_next hs) (hr.inTree_entry hs')
    | next n' =>
      obtain ⟨h, o, k, ho, hk, hb⟩ := hs
      obtain ⟨h', o', k', ho', hk', hb'⟩ := hs'
      obtain rfl : h = h' := hr.laid.apart ho ho' (Obj.mem_blocks_of_node (List.mem_of_getElem? hb))
        (Obj.mem_blocks_of_node (List.mem_of_getElem? hb'))
      rw [ho] at ho'
      cases ho'
      have hinj := (List.getElem?_inj (List.getElem?_eq_some_iff.mp hb).1 (hr.laid.nodup_nodes ho)).mp
        (hb.trans hb'.symm)
      obtain rfl : k = k' := by omega
      rw [hk] at hk'
      rw [Option.some.inj hk']
    | direct n' i' =>
      obtain ⟨h, o, k, ho, hk, hb⟩ := hs
      obtain ⟨h', ns, ho', hat⟩ := hs'
      exact absurd (List.mem_of_getElem? hb) (hr.not_node ho' hat.mem ho)
  | direct n i =>
    cases s' with
    | root => exact absurd (hr.inTree_direct hs) (hr.inTree_root hs')
    | entry n' i' => exact absurd (hr.inTree_direct hs) (hr.inTree_entry hs')
    | next n' =>
      obtain ⟨h, ns, ho, hat⟩ := hs
      obtain ⟨h', o', k', ho', hk', hb'⟩ := hs'
      exact absurd (List.mem_of_getElem? hb') (hr.not_node ho hat.mem ho')
    | direct n' i' =>
      obtain ⟨h, ns, ho, hat⟩ := hs
      obtain ⟨h', ns', ho', hat'⟩ := hs'
      obtain rfl := hr.laid.apart ho ho' (List.mem_append_right _ hat.mem) (List.mem_append_right _ hat'.mem)
      rw [ho] at ho'
      cases ho'
      obtain ⟨rfl, rfl⟩ := hat.unique (List.nodup_append.mp (hr.laid.nodup ho)).2.1 hat'
      rfl

/-! ### Every block of the tree is found, and no other -/

theorem inTree_owned (hr : Rep (volOf disk) fs) {s : Slot} (hs : InTree fs s b) : Owned fs b := by
  cases s with
  | root =>
    obtain rfl : b = 1 := hs
    obtain ⟨ns, hroot⟩ := hr.root
    exact ⟨1, _, hroot, hr.laid.head_mem hroot⟩
  | next n =>
    obtain ⟨h, o, k, ho, -, hb⟩ := hs
    exact ⟨h, o, ho, Obj.mem_blocks_of_node (List.mem_of_getElem? hb)⟩
  | entry n i =>
    obtain ⟨p, ns, e, ho, hat, rfl⟩ := hs
    obtain ⟨o, hkid⟩ := hr.kid_some (mem_kids_of_at ho hat)
    exact ⟨e.2, o, hkid, hr.laid.head_mem hkid⟩
  | direct n i =>
    obtain ⟨h, ns, ho, hat⟩ := hs
    exact ⟨h, _, ho, List.mem_append_right _ hat.mem⟩

theorem node_at (hr : Rep (volOf disk) fs) (ho : fs h = some o) (hh : Node disk h h) {k : Nat}
    (hk : k < o.nodes.length) :
    Node disk h o.nodes[k] := by
  induction k with
  | zero =>
    have hhead := (hr.laid.shows ho).head
    rw [List.head?_eq_getElem?, List.getElem?_eq_getElem hk] at hhead
    rw [Option.some.inj hhead]
    exact hh
  | succ k ih =>
    have hnext := hr.next_at ho (Nat.lt_of_succ_lt hk)
    rw [List.getD_eq_getElem _ _ hk] at hnext
    have hne : o.nodes[k + 1] ≠ 0 := hr.laid.ne_zero ho (Obj.mem_blocks_of_node (List.getElem_mem hk))
    rw [← hnext] at hne ⊢
    exact .next (ih (Nat.lt_of_succ_lt hk)) hne

theorem node_of_mem (hr : Rep (volOf disk) fs) (ho : fs h = some o) (hh : Node disk h h) (hn : n ∈ o.nodes) :
    Node disk h n := by
  obtain ⟨k, hk, rfl⟩ := List.mem_iff_getElem.mp hn
  exact hr.node_at ho hh hk

theorem node_self (hr : Rep (volOf disk) fs) (ho : fs h = some o) : Node disk h h := by
  have hbelow := hr.tree.below h (by rw [ho]; nofun)
  clear ho
  induction hbelow with
  | root => exact .root
  | @kid p c hp hc ih =>
    obtain ⟨o', ho'⟩ := Option.ne_none_iff_exists'.mp (hr.tree.has_of_below hp)
    rw [kids_of_some ho'] at hc
    cases o' with
    | file ns => cases hc
    | dir ns =>
      obtain ⟨e, he, rfl⟩ := List.mem_map.mp hc
      obtain ⟨n, i, hat⟩ := exists_at he
      obtain ⟨hn, hi, heq⟩ := (hr.entry_at ho').mp hat
      rw [heq]
      exact .entry (hr.node_of_mem ho' ih hn) (hr.mode_dir ho') hi

/-- **The blocks found from the root are those of the tree.** -/
theorem reachable_iff (hr : Rep (volOf disk) fs) : Reachable disk b ↔ Owned fs b := by
  constructor
  · rintro ⟨s, hs⟩
    exact hr.inTree_owned (hr.of_ref hs)
  · rintro ⟨h, o, ho, hb⟩
    have hnode : ∀ n ∈ o.nodes, Node disk h n := fun n hn => hr.node_of_mem ho (hr.node_self ho) hn
    cases List.mem_append.mp hb with
    | inl hb =>
      have hself := hnode b hb
      cases hself with
      | root => exact ⟨_, .root⟩
      | next hn hne => exact ⟨_, .next hn hne⟩
      | entry hn hm hi => exact ⟨_, .entry hn hm hi⟩
    | inr hb =>
      cases o with
      | dir ns => cases hb
      | file ns =>
        obtain ⟨n, i, hat⟩ := exists_at hb
        have hi : i < 16 := by
          obtain ⟨ds, hmem, hx⟩ := hat
          have hfits := (hr.fileShows_of_mem ho hmem).fits
          have hlt := (List.getElem?_eq_some_iff.mp hx).1
          omega
        obtain ⟨hn, hne, heq⟩ := (hr.direct_at ho hi).mp hat
        rw [heq]
        exact ⟨_, .direct (hnode n hn) (hr.mode_file ho) hi hne⟩

theorem chain_drop (hr : Rep (volOf disk) fs) (ho : fs h = some o) {k : Nat} (hk : k < o.nodes.length) :
    Chain disk o.nodes[k] (o.nodes.drop k) := by
  have hnext := hr.next_at ho hk
  induction hm : o.nodes.length - k generalizing k with
  | zero => omega
  | succ m ih =>
    rw [List.drop_eq_getElem_cons hk]
    by_cases hlt : k + 1 < o.nodes.length
    · rw [List.getD_eq_getElem _ _ hlt] at hnext
      have hne : o.nodes[k + 1] ≠ 0 := hr.laid.ne_zero ho (Obj.mem_blocks_of_node (List.getElem_mem hlt))
      have hrest := ih hlt (hr.next_at ho hlt) (by omega)
      rw [← hnext] at hne hrest
      exact .next hne hrest
    · rw [List.getD_eq_default _ _ (Nat.le_of_not_lt hlt)] at hnext
      rw [List.drop_eq_nil_of_le (Nat.le_of_not_lt hlt)]
      exact .last hnext

theorem chain_self (hr : Rep (volOf disk) fs) (ho : fs h = some o) : Chain disk h o.nodes := by
  have hhead := (hr.laid.shows ho).head
  rw [List.head?_eq_getElem?] at hhead
  obtain ⟨h0, hh⟩ := List.getElem?_eq_some_iff.mp hhead
  have hchain := hr.chain_drop ho h0
  rwa [hh, List.drop_zero] at hchain

/-- **A disk that holds a tree is sound.** -/
theorem sound (hr : Rep (volOf disk) fs) : Sound disk where
  used {s b} hs := (hr.laid.owned_has (hr.inTree_owned (hr.of_ref hs))).used
  apart {s b} hs := by
    have hown := hr.inTree_owned (hr.of_ref hs)
    have hdata := outsideBitmap_iff.mp (hr.laid.owned_has hown).data
    obtain ⟨h, o, ho, hb⟩ := hown
    refine ⟨hr.laid.ne_zero ho hb, ?_⟩
    unfold bitmapBegin bitmapEnd
    omega
  once hs hs' := hr.inTree_once (hr.of_ref hs) (hr.of_ref hs')
  finite hn := by
    obtain ⟨o, ho, hmem⟩ := hr.of_node hn
    obtain ⟨k, hk, rfl⟩ := List.mem_iff_getElem.mp hmem
    exact ⟨_, hr.chain_drop ho hk⟩
  entries hn hm := by
    obtain ⟨o, ho, hmem⟩ := hr.of_node hn
    obtain ⟨ns, rfl⟩ := hr.dir_of_mode ho hm
    obtain ⟨es, hes⟩ := mem_nodesOf hmem
    have hshow := hr.dirShows_of_mem ho hes
    exact hshow.size.trans_le hshow.fits
  directs hn hm i j hij hj hne := by
    obtain ⟨o, ho, hmem⟩ := hr.of_node hn
    obtain ⟨ns, rfl⟩ := hr.file_of_mode ho hm
    obtain ⟨ds, hds⟩ := mem_nodesOf hmem
    have hshow := hr.fileShows_of_mem ho hds
    rw [hshow.direct i (Nat.lt_trans hij hj)]
    rw [hshow.direct j hj] at hne
    have hlt : j < ds.length := by
      by_contra hge
      exact hne (List.getD_eq_default _ _ (Nat.le_of_not_lt hge))
    rw [List.getD_eq_getElem _ _ (Nat.lt_trans hij hlt)]
    refine hr.laid.ne_zero ho (List.mem_append_right _ ?_)
    exact List.mem_flatMap.mpr ⟨_, hds, List.getElem_mem _⟩

end Rep
end

end Yfs.Fs

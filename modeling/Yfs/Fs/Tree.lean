import Yfs.Base.Forest
import Yfs.Fs.Volume

/-! The file system as a tree of files and directories, and how a volume lays it out.

A file is a chain of nodes along `next_inode`, each with the blocks it lists, and a
directory is a chain of nodes, each with its entries; a symbolic link is a file. A tree
names the files and directories by their first node. `Laid v fs` says that the volume
shows every one of them at its blocks and that no two blocks of it, in one object or in
two, are the same; `Rep v fs` adds that the entries make a tree with root 1 and that the
reserved blocks are in use. What a volume has in use beyond the tree is *leaked*: no
lemma here needs that there is none, and each says what it does to them. -/
namespace Yfs.Fs
open Yfs.Base
open Function (update update_eq_self_iff update_of_ne update_self)

/-! ### Chains of nodes -/

/-- The nodes of a chain, each with what it lists. -/
abbrev Nodes (α : Type) := List (Nat × List α)

section
variable {α : Type}

def nodesOf (ns : Nodes α) : List Nat := ns.map Prod.fst

def itemsOf (ns : Nodes α) : List α := ns.flatMap Prod.snd

/-- What `next_inode` is in front of these nodes. -/
def firstOf (ns : Nodes α) : Nat := (nodesOf ns).headD 0

@[simp] theorem nodesOf_nil : nodesOf ([] : Nodes α) = [] := rfl

@[simp] theorem nodesOf_cons (n : Nat) (xs : List α) (ns : Nodes α) :
    nodesOf ((n, xs) :: ns) = n :: nodesOf ns := rfl

@[simp] theorem nodesOf_append (ns ns' : Nodes α) :
    nodesOf (ns ++ ns') = nodesOf ns ++ nodesOf ns' := List.map_append

@[simp] theorem itemsOf_nil : itemsOf ([] : Nodes α) = [] := rfl

@[simp] theorem itemsOf_cons (n : Nat) (xs : List α) (ns : Nodes α) :
    itemsOf ((n, xs) :: ns) = xs ++ itemsOf ns := rfl

@[simp] theorem itemsOf_append (ns ns' : Nodes α) :
    itemsOf (ns ++ ns') = itemsOf ns ++ itemsOf ns' := List.flatMap_append

@[simp] theorem firstOf_cons (n : Nat) (xs : List α) (ns : Nodes α) :
    firstOf ((n, xs) :: ns) = n := rfl

theorem itemsOf_perm {pre post : Nodes α} {n : Nat} {x : α} {xs ys : List α} :
    (itemsOf (pre ++ (n, xs ++ x :: ys) :: post)).Perm (x :: itemsOf (pre ++ (n, xs ++ ys) :: post)) := by
  simp only [itemsOf_append, itemsOf_cons, List.append_assoc, List.cons_append]
  rw [← List.append_assoc, ← List.append_assoc]
  exact List.perm_middle

theorem ne_of_nodup_nodesOf {pre post : Nodes α} {n m : Nat} {xs : List α}
    (h : (nodesOf (pre ++ (n, xs) :: post)).Nodup) (hm : m ∈ nodesOf pre ∨ m ∈ nodesOf post) : m ≠ n := by
  rw [nodesOf_append, nodesOf_cons, List.nodup_middle, List.nodup_cons] at h
  rintro rfl
  exact h.1 (List.mem_append.mpr hm)

/-- The volume shows the nodes, each as `shows` says and linked to the next. -/
def Chained (v : Vol) (shows : Block → List α → Prop) : Nodes α → Prop
  | [] => True
  | (n, xs) :: rest => shows (v.block n) xs ∧ (v.block n).next = firstOf rest ∧ Chained v shows rest

namespace Chained
variable {v v' : Vol} {shows : Block → List α → Prop} {pre post post' : Nodes α} {n : Nat}
  {xs xs' : List α}

theorem congr {ns : Nodes α} (h : Chained v shows ns)
    (hv : ∀ n ∈ nodesOf ns, v'.block n = v.block n) : Chained v' shows ns := by
  induction ns with
  | nil => trivial
  | cons x rest ih =>
    obtain ⟨hx, hnext, hrest⟩ := h
    have hn := hv x.1 List.mem_cons_self
    refine ⟨?_, ?_, ih hrest fun n hn => hv n (List.mem_cons_of_mem _ hn)⟩
    · rw [hn]; exact hx
    · rw [hn]; exact hnext

theorem split (h : Chained v shows (pre ++ (n, xs) :: post)) : Chained v shows ((n, xs) :: post) := by
  induction pre with
  | nil => exact h
  | cons x rest ih => exact ih h.2.2

/-- The chain from a node on is exchanged, and the nodes before it are left alone. -/
theorem splice (h : Chained v shows (pre ++ (n, xs) :: post))
    (hpre : ∀ m ∈ nodesOf pre, v'.block m = v.block m) (hn : Chained v' shows ((n, xs') :: post')) :
    Chained v' shows (pre ++ (n, xs') :: post') := by
  induction pre with
  | nil => exact hn
  | cons x rest ih =>
    obtain ⟨hx, hnext, hrest⟩ := h
    have hx' := hpre x.1 List.mem_cons_self
    refine ⟨?_, ?_, ih hrest fun m hm => hpre m (List.mem_cons_of_mem _ hm)⟩
    · rw [hx']; exact hx
    · rw [hx', hnext]
      cases rest <;> rfl

end Chained
end

/-! ### Files and directories -/

/-- The node is one of a directory with these entries. -/
structure DirShows (b : Block) (es : List Entry) : Prop where
  entries : b.entries = es
  fits : es.length ≤ 5

/-- The node is one of a file with these blocks, which come before all zeros. -/
structure FileShows (b : Block) (ds : List Nat) : Prop where
  direct : ∀ i < 16, b.direct i = ds.getD i 0
  fits : ds.length ≤ 16

inductive Obj where
  | file (ns : Nodes Nat)
  | dir (ns : Nodes Entry)

namespace Obj

def nodes : Obj → List Nat
  | file ns => nodesOf ns
  | dir ns => nodesOf ns

def datas : Obj → List Nat
  | file ns => itemsOf ns
  | dir _ => []

def blocks (o : Obj) : List Nat := o.nodes ++ o.datas

def entries : Obj → List Entry
  | file _ => []
  | dir ns => itemsOf ns

def children (o : Obj) : List Nat := o.entries.map Prod.snd

end Obj

/-- Every node but the last lists as many blocks as it can. -/
def Filled (ns : Nodes Nat) : Prop := ∀ x ∈ ns.dropLast, x.2.length = 16

/-- The volume shows the object with first node `ino`. -/
def Shows (v : Vol) (ino : Nat) : Obj → Prop
  | .file ns => (nodesOf ns).head? = some ino ∧ (v.block ino).mode ≠ 0 ∧ Chained v FileShows ns ∧ Filled ns
  | .dir ns => (nodesOf ns).head? = some ino ∧ (v.block ino).mode = 0 ∧ Chained v DirShows ns

theorem Shows.head {v : Vol} {ino : Nat} {o : Obj} (h : Shows v ino o) : o.nodes.head? = some ino := by
  cases o with
  | file ns => exact h.1
  | dir ns => exact h.1

theorem Shows.head_mem {v : Vol} {ino : Nat} {o : Obj} (h : Shows v ino o) : ino ∈ o.nodes :=
  List.mem_of_mem_head? (by rw [h.head]; rfl)

theorem Shows.congr {v v' : Vol} {ino : Nat} {o : Obj} (h : Shows v ino o)
    (hv : ∀ n ∈ o.nodes, v'.block n = v.block n) : Shows v' ino o := by
  have hhead := hv ino h.head_mem
  cases o with
  | file ns =>
    obtain ⟨hh, hm, hc, hf⟩ := h
    exact ⟨hh, by rw [hhead]; exact hm, hc.congr hv, hf⟩
  | dir ns =>
    obtain ⟨hh, hm, hc⟩ := h
    exact ⟨hh, by rw [hhead]; exact hm, hc.congr hv⟩

/-! ### The tree on a volume -/

/-- The files and directories by their first nodes. -/
abbrev Tree := Nat → Option Obj

/-- The inode numbers in the entries of `p`. -/
def kids (fs : Tree) (p : Nat) : List Nat := ((fs p).map Obj.children).getD []

/-- Block `b` is one of some file or directory. -/
def Owned (fs : Tree) (b : Nat) : Prop := ∃ i o, fs i = some o ∧ b ∈ o.blocks

/-- Block `b` is in use and nothing of the tree is there. -/
structure Leaked (v : Vol) (fs : Tree) (b : Nat) : Prop where
  used : v.used b = true
  notReserved : ¬ Reserved b
  notOwned : ¬ Owned fs b

/-- Every file and directory is at its own blocks. -/
structure Laid (v : Vol) (fs : Tree) : Prop where
  shows : ∀ {i o}, fs i = some o → Shows v i o
  has : ∀ {i o b}, fs i = some o → b ∈ o.blocks → v.Has b
  ne_zero : ∀ {i o b}, fs i = some o → b ∈ o.blocks → b ≠ 0
  nodup : ∀ {i o}, fs i = some o → o.blocks.Nodup
  apart : ∀ {i j o o' b}, fs i = some o → fs j = some o' → b ∈ o.blocks → b ∈ o'.blocks → i = j

/-- The volume holds the tree. -/
structure Rep (v : Vol) (fs : Tree) : Prop where
  laid : Laid v fs
  tree : IsTree 1 (fun i => fs i ≠ none) (kids fs)
  root : ∃ ns, fs 1 = some (.dir ns)
  formatted : v.Formatted

/-- The file with first node `ino` is at blocks of its own, whatever else the volume holds. -/
structure FileAt (v : Vol) (ino : Nat) (ns : Nodes Nat) : Prop where
  head : (nodesOf ns).head? = some ino
  chained : Chained v FileShows ns
  has : ∀ b ∈ (Obj.file ns).blocks, v.Has b
  ne_zero : ∀ b ∈ (Obj.file ns).blocks, b ≠ 0
  nodup : (Obj.file ns).blocks.Nodup

/-- The directory with first node `p` is at blocks of its own. -/
structure DirAt (v : Vol) (p : Nat) (ns : Nodes Entry) : Prop where
  head : (nodesOf ns).head? = some p
  chained : Chained v DirShows ns
  has : ∀ n ∈ nodesOf ns, v.Has n
  ne_zero : ∀ n ∈ nodesOf ns, n ≠ 0
  nodup : (nodesOf ns).Nodup

theorem FileAt.head_mem {v : Vol} {ino : Nat} {ns : Nodes Nat} (h : FileAt v ino ns) : ino ∈ nodesOf ns :=
  List.mem_of_mem_head? (by rw [h.head]; rfl)

theorem DirAt.head_mem {v : Vol} {p : Nat} {ns : Nodes Entry} (h : DirAt v p ns) : p ∈ nodesOf ns :=
  List.mem_of_mem_head? (by rw [h.head]; rfl)

/-! ### Blocks of the tree -/

section
variable {v : Vol} {fs : Tree} {ino i b : Nat} {o o' : Obj} {d : Block}

theorem Obj.mem_blocks_of_node (h : b ∈ o.nodes) : b ∈ o.blocks := List.mem_append_left _ h

theorem kids_of_some (h : fs ino = some o) : kids fs ino = o.children := by rw [kids, h]; rfl

theorem kids_of_none (h : fs ino = none) : kids fs ino = [] := by rw [kids, h]; rfl

theorem update_eq_some {j : Nat} {x : Option Obj} :
    update fs i x j = some o ↔ j = i ∧ x = some o ∨ j ≠ i ∧ fs j = some o := by
  by_cases hj : j = i
  · simp [hj]
  · simp [hj]

namespace Laid

theorem head_mem (h : Laid v fs) (ho : fs ino = some o) : ino ∈ o.blocks :=
  Obj.mem_blocks_of_node (h.shows ho).head_mem

theorem nodup_nodes (h : Laid v fs) (ho : fs ino = some o) : o.nodes.Nodup :=
  (List.nodup_append.mp (h.nodup ho)).1

theorem fileAt {ns : Nodes Nat} (h : Laid v fs) (ho : fs ino = some (.file ns)) : FileAt v ino ns where
  head := (h.shows ho).1
  chained := (h.shows ho).2.2.1
  has _ := h.has ho
  ne_zero _ := h.ne_zero ho
  nodup := h.nodup ho

theorem dirAt {ns : Nodes Entry} (h : Laid v fs) (ho : fs ino = some (.dir ns)) : DirAt v ino ns where
  head := (h.shows ho).1
  chained := (h.shows ho).2.2
  has _ hn := h.has ho (Obj.mem_blocks_of_node hn)
  ne_zero _ hn := h.ne_zero ho (Obj.mem_blocks_of_node hn)
  nodup := h.nodup_nodes ho

theorem owned_has (h : Laid v fs) (hb : Owned fs b) : v.Has b := by
  obtain ⟨i, o, ho, hb⟩ := hb
  exact h.has ho hb

theorem fresh_not_owned (h : Laid v fs) (hi : v.Fresh i) : ¬ Owned fs i := by
  intro hown
  have hused := (h.owned_has hown).used
  rw [hi.unused] at hused
  exact Bool.noConfusion hused

theorem none_of_not_owned (h : Laid v fs) (hi : ¬ Owned fs i) : fs i = none := by
  by_contra hne
  obtain ⟨o, ho⟩ := Option.ne_none_iff_exists'.mp hne
  exact hi ⟨i, o, ho, h.head_mem ho⟩

theorem write_outside (h : Laid v fs) (hb : ¬ Owned fs b) : Laid (v.write b d) fs where
  shows {j o} ho := by
    refine (h.shows ho).congr fun n hn => Vol.write_block_ne ?_
    intro e
    exact hb ⟨j, o, ho, e ▸ Obj.mem_blocks_of_node hn⟩
  has ho hb := ⟨(h.has ho hb).used, (h.has ho hb).data, (h.has ho hb).lt⟩
  ne_zero := h.ne_zero
  nodup := h.nodup
  apart := h.apart

theorem use (h : Laid v fs) : Laid (v.setUsed i true) fs where
  shows ho := (h.shows ho).congr fun _ _ => rfl
  has {j o b} ho hb := by
    have hhas := h.has ho hb
    refine ⟨?_, hhas.data, hhas.lt⟩
    by_cases hbi : b = i
    · rw [hbi]
      exact update_self ..
    · rw [Vol.setUsed_used_ne hbi, hhas.used]
  ne_zero := h.ne_zero
  nodup := h.nodup
  apart := h.apart

theorem alloc (h : Laid v fs) (hi : v.Fresh i) : Laid (v.alloc i d) fs :=
  (h.write_outside (h.fresh_not_owned hi)).use

/-- One object is exchanged for one that the volume shows after a write to a block of the
first; its further blocks were in use and outside of the tree. -/
theorem write (h : Laid v fs) (ho : fs ino = some o) (hb : b ∈ o.blocks)
    (hshows : Shows (v.write b d) ino o')
    (hblocks : ∀ c ∈ o'.blocks, c ∈ o.blocks ∨ v.Has c ∧ c ≠ 0 ∧ ¬ Owned fs c) (hnodup : o'.blocks.Nodup) :
    Laid (v.write b d) (update fs ino (some o')) := by
  have hown : ∀ {j o'' c}, j ≠ ino → fs j = some o'' → c ∈ o''.blocks → c ∉ o'.blocks := by
    intro j o'' c hj hj' hc hc'
    cases hblocks c hc' with
    | inl hc' => exact hj (h.apart hj' ho hc hc')
    | inr hc' => exact hc'.2.2 ⟨j, o'', hj', hc⟩
  constructor
  · intro j o'' hj
    obtain ⟨rfl, ⟨⟩⟩ | ⟨hji, hj⟩ := update_eq_some.mp hj
    · exact hshows
    · refine (h.shows hj).congr fun n hn => Vol.write_block_ne ?_
      intro e
      exact hji (h.apart hj ho (Obj.mem_blocks_of_node hn) (e ▸ hb))
  · intro j o'' c hj hc
    obtain ⟨rfl, ⟨⟩⟩ | ⟨hji, hj⟩ := update_eq_some.mp hj
    · have hhas : v.Has c := (hblocks c hc).elim (h.has ho) And.left
      exact ⟨hhas.used, hhas.data, hhas.lt⟩
    · have hhas := h.has hj hc
      exact ⟨hhas.used, hhas.data, hhas.lt⟩
  · intro j o'' c hj hc
    obtain ⟨rfl, ⟨⟩⟩ | ⟨hji, hj⟩ := update_eq_some.mp hj
    · exact (hblocks c hc).elim (h.ne_zero ho) fun hc => hc.2.1
    · exact h.ne_zero hj hc
  · intro j o'' hj
    obtain ⟨rfl, ⟨⟩⟩ | ⟨hji, hj⟩ := update_eq_some.mp hj
    · exact hnodup
    · exact h.nodup hj
  · intro j k oj ok c hj hk hcj hck
    obtain ⟨rfl, ⟨⟩⟩ | ⟨hji, hj'⟩ := update_eq_some.mp hj <;> obtain ⟨rfl, ⟨⟩⟩ | ⟨hki, hk'⟩ := update_eq_some.mp hk
    · rfl
    · exact absurd hcj (hown hki hk' hck)
    · exact absurd hck (hown hji hj' hcj)
    · exact h.apart hj' hk' hcj hck

theorem write_same (h : Laid v fs) (ho : fs ino = some o) (hb : b ∈ o.blocks)
    (hshows : Shows (v.write b d) ino o) : Laid (v.write b d) fs := by
  have := h.write ho hb hshows (fun c hc => .inl hc) (h.nodup ho)
  rwa [update_eq_self_iff.mpr ho.symm] at this

theorem write_data (h : Laid v fs) (ho : fs ino = some o) (hb : b ∈ o.datas) : Laid (v.write b d) fs := by
  refine h.write_same ho (List.mem_append_right _ hb) ((h.shows ho).congr fun n hn => Vol.write_block_ne ?_)
  intro e
  exact (List.nodup_append.mp (h.nodup ho)).2.2 n hn b hb e

/-- An object is added at blocks that were in use and outside of the tree. -/
theorem insert (h : Laid v fs) (hshows : Shows v i o)
    (hblocks : ∀ c ∈ o.blocks, v.Has c ∧ c ≠ 0 ∧ ¬ Owned fs c) (hnodup : o.blocks.Nodup) :
    Laid v (update fs i (some o)) := by
  constructor
  · intro j o' hj
    obtain ⟨rfl, ⟨⟩⟩ | ⟨-, hj⟩ := update_eq_some.mp hj
    · exact hshows
    · exact h.shows hj
  · intro j o' c hj hc
    obtain ⟨rfl, ⟨⟩⟩ | ⟨-, hj⟩ := update_eq_some.mp hj
    · exact (hblocks c hc).1
    · exact h.has hj hc
  · intro j o' c hj hc
    obtain ⟨rfl, ⟨⟩⟩ | ⟨-, hj⟩ := update_eq_some.mp hj
    · exact (hblocks c hc).2.1
    · exact h.ne_zero hj hc
  · intro j o' hj
    obtain ⟨rfl, ⟨⟩⟩ | ⟨-, hj⟩ := update_eq_some.mp hj
    · exact hnodup
    · exact h.nodup hj
  · intro j k oj ok c hj hk hcj hck
    obtain ⟨rfl, ⟨⟩⟩ | ⟨-, hj'⟩ := update_eq_some.mp hj <;> obtain ⟨rfl, ⟨⟩⟩ | ⟨-, hk'⟩ := update_eq_some.mp hk
    · rfl
    · exact absurd ⟨k, ok, hk', hck⟩ (hblocks c hcj).2.2
    · exact absurd ⟨j, oj, hj', hcj⟩ (hblocks c hck).2.2
    · exact h.apart hj' hk' hcj hck

theorem sub {fs' : Tree} (h : Laid v fs) (hsub : ∀ i o, fs' i = some o → fs i = some o) : Laid v fs' where
  shows hj := h.shows (hsub _ _ hj)
  has hj := h.has (hsub _ _ hj)
  ne_zero hj := h.ne_zero (hsub _ _ hj)
  nodup hj := h.nodup (hsub _ _ hj)
  apart hj hk := h.apart (hsub _ _ hj) (hsub _ _ hk)

theorem erase (h : Laid v fs) : Laid v (update fs i none) := by
  refine h.sub fun j o hj => ?_
  obtain ⟨-, ⟨⟩⟩ | ⟨-, hj⟩ := update_eq_some.mp hj
  exact hj

theorem drop {bs : List Nat} (h : Laid v fs) (hbs : ∀ b ∈ bs, ¬ Owned fs b) : Laid (v.drop bs) fs where
  shows ho := (h.shows ho).congr fun _ _ => rfl
  has {j o c} ho hc := by
    have hhas := h.has ho hc
    exact ⟨Vol.drop_used_iff.mpr ⟨hhas.used, fun hm => hbs c hm ⟨j, o, ho, hc⟩⟩, hhas.data, hhas.lt⟩
  ne_zero := h.ne_zero
  nodup := h.nodup
  apart := h.apart

end Laid
end

/-! ### Steps of the tree -/

section
variable {v v' : Vol} {fs fs' : Tree} {ino p i b : Nat} {o o' : Obj} {d : Block}

theorem kids_update (fs : Tree) (i : Nat) (o : Option Obj) (p : Nat) :
    kids (update fs i o) p = if p = i then (o.map Obj.children).getD [] else kids fs p := by
  unfold kids
  split
  · next h => rw [h, update_self]
  · next h => rw [update_of_ne h]

/-- What is in use after a step and was not before is in the tree, and nothing left it. -/
theorem Leaked.of_step (hused : ∀ c, v'.used c = true → v.used c = true ∨ Owned fs' c)
    (hown : ∀ c, Owned fs c → Owned fs' c) (h : Leaked v' fs' b) : Leaked v fs b where
  used := (hused b h.used).resolve_right h.notOwned
  notReserved := h.notReserved
  notOwned hb := h.notOwned (hown b hb)

theorem Leaked.of_write {c : Nat} (h : Leaked (v.write b d) fs c) : Leaked v fs c :=
  ⟨h.used, h.notReserved, h.notOwned⟩

theorem owned_update (ho : fs ino = some o) (hsub : ∀ c ∈ o.blocks, c ∈ o'.blocks) {c : Nat}
    (hc : Owned fs c) : Owned (update fs ino (some o')) c := by
  obtain ⟨j, oj, hj, hc⟩ := hc
  by_cases hji : j = ino
  · rw [hji, ho] at hj
    cases hj
    exact ⟨ino, o', update_self .., hsub c hc⟩
  · exact ⟨j, oj, by rwa [update_of_ne hji], hc⟩

theorem tree_link {has has' : Nat → Prop} {ns ns' : Nodes Entry} (h : IsTree 1 has (kids fs))
    (ho : fs p = some (.dir ns)) (hp : has p) (hi : ¬ has i) (hip : i ≠ p) (hchildren : o'.children = [])
    (hkids : (Obj.children (.dir ns')).Perm (i :: Obj.children (.dir ns))) (hhas : ∀ x, has' x ↔ has x ∨ x = i) :
    IsTree 1 has' (kids (update (update fs i (some o')) p (some (.dir ns')))) := by
  refine h.add hp hi ?_ ?_ ?_ hhas
  · rw [kids_update, if_pos rfl, kids_of_some ho]
    exact hkids
  · rw [kids_update, if_neg hip, kids_update, if_pos rfl, Option.map_some, hchildren]
    rfl
  · intro q hqp hqi
    rw [kids_update, if_neg hqp, kids_update, if_neg hqi]

theorem tree_unlink {has has' : Nat → Prop} {ns ns' : Nodes Entry} (h : IsTree 1 has (kids fs))
    (ho : fs p = some (.dir ns)) (hip : i ≠ p) (hi : kids fs i = [])
    (hkids : (Obj.children (.dir ns)).Perm (i :: Obj.children (.dir ns'))) (hhas : ∀ x, has' x ↔ has x ∧ x ≠ i) :
    IsTree 1 has' (kids (update fs p (some (.dir ns')))) := by
  refine h.remove (p := p) (c := i) ?_ hi ?_ ?_ hhas
  · rw [kids_of_some ho, kids_update, if_pos rfl]
    exact hkids
  · rw [kids_update, if_neg hip, hi]
  · intro q hqp _
    rw [kids_update, if_neg hqp]

namespace Rep

theorem has_iff (ho : fs ino = some o) (c : Nat) :
    update fs ino (some o') c ≠ none ↔ fs c ≠ none := by
  by_cases hc : c = ino
  · rw [hc, update_self, ho]
    simp
  · rw [update_of_ne hc]

theorem alloc (h : Rep v fs) (hi : v.Fresh i) : Rep (v.alloc i d) fs :=
  ⟨h.laid.alloc hi, h.tree, h.root, h.formatted.alloc⟩

theorem write_same (h : Rep v fs) (ho : fs ino = some o) (hb : b ∈ o.blocks)
    (hshows : Shows (v.write b d) ino o) : Rep (v.write b d) fs :=
  ⟨h.laid.write_same ho hb hshows, h.tree, h.root, h.formatted⟩

theorem write_data (h : Rep v fs) (ho : fs ino = some o) (hb : b ∈ o.datas) : Rep (v.write b d) fs :=
  ⟨h.laid.write_data ho hb, h.tree, h.root, h.formatted⟩

theorem exchange_file {ns ns' : Nodes Nat} (h : Rep v fs) (ho : fs ino = some (.file ns))
    (hb : b ∈ nodesOf ns) (hshows : Shows (v.write b d) ino (.file ns'))
    (hblocks : ∀ c ∈ (Obj.file ns').blocks, c ∈ (Obj.file ns).blocks ∨ v.Has c ∧ c ≠ 0 ∧ ¬ Owned fs c)
    (hnodup : (Obj.file ns').blocks.Nodup) :
    Rep (v.write b d) (update fs ino (some (.file ns'))) where
  laid := h.laid.write ho (Obj.mem_blocks_of_node hb) hshows hblocks hnodup
  tree := by
    refine h.tree.congr (has_iff ho) fun p => ?_
    rw [kids_update]
    split
    · next hp => rw [hp, kids_of_some ho]; rfl
    · rfl
  root := by
    obtain ⟨ns, hns⟩ := h.root
    refine ⟨ns, ?_⟩
    rw [update_of_ne, hns]
    rintro rfl
    rw [ho] at hns
    cases hns
  formatted := h.formatted

theorem exchange_dir {ns ns' : Nodes Entry} (h : Rep v fs) (ho : fs ino = some (.dir ns))
    (hb : b ∈ nodesOf ns) (hshows : Shows (v.write b d) ino (.dir ns'))
    (hblocks : ∀ c ∈ nodesOf ns', c ∈ nodesOf ns ∨ v.Has c ∧ c ≠ 0 ∧ ¬ Owned fs c)
    (hnodup : (nodesOf ns').Nodup) (hitems : itemsOf ns' = itemsOf ns) :
    Rep (v.write b d) (update fs ino (some (.dir ns'))) where
  laid := by
    refine h.laid.write ho (Obj.mem_blocks_of_node hb) hshows ?_ ?_
    · simpa [Obj.blocks, Obj.nodes, Obj.datas] using hblocks
    · simpa [Obj.blocks, Obj.nodes, Obj.datas] using hnodup
  tree := by
    refine h.tree.congr (has_iff ho) fun p => ?_
    rw [kids_update]
    split
    · next hp =>
      rw [hp, kids_of_some ho, Obj.children, Obj.entries, ← hitems]
      rfl
    · rfl
  root := by
    obtain ⟨ns₁, hns⟩ := h.root
    by_cases h1 : ino = 1
    · exact ⟨ns', by rw [h1, update_self]⟩
    · exact ⟨ns₁, by rw [update_of_ne (Ne.symm h1), hns]⟩
  formatted := h.formatted

/-- A directory gets an entry for a new object without children, which the volume shows at
one block that was in use and outside of the tree. -/
theorem link {ns ns' : Nodes Entry} (h : Rep v fs) (ho : fs p = some (.dir ns))
    (hb : b ∈ nodesOf ns) (hi : v.Has i ∧ i ≠ 0 ∧ ¬ Owned fs i) (hnew : Shows v i o')
    (hblocks : o'.blocks = [i]) (hchildren : o'.children = []) (hshows : Shows (v.write b d) p (.dir ns'))
    (hnodes : nodesOf ns' = nodesOf ns)
    (hkids : (Obj.children (.dir ns')).Perm (i :: Obj.children (.dir ns))) :
    Rep (v.write b d) (update (update fs i (some o')) p (some (.dir ns'))) := by
  have hnone : fs i = none := h.laid.none_of_not_owned hi.2.2
  have hip : i ≠ p := by
    rintro rfl
    rw [ho] at hnone
    cases hnone
  have ho' : update fs i (some o') p = some (.dir ns) := by rw [update_of_ne hip.symm, ho]
  have hlaid : Laid v (update fs i (some o')) := by
    refine h.laid.insert hnew ?_ ?_
    · intro c hc
      rw [hblocks, List.mem_singleton] at hc
      rw [hc]
      exact hi
    · rw [hblocks]
      exact List.nodup_singleton i
  have heq : (Obj.dir ns').blocks = (Obj.dir ns).blocks := by
    rw [Obj.blocks, Obj.blocks, Obj.nodes, Obj.nodes, hnodes]
    rfl
  refine ⟨?_, ?_, ?_, h.formatted⟩
  · refine hlaid.write ho' (Obj.mem_blocks_of_node hb) hshows ?_ ?_
    · intro c hc
      rw [heq] at hc
      exact .inl hc
    · rw [heq]
      exact h.laid.nodup ho
  · refine tree_link h.tree ho (by rw [ho]; simp) (fun hne => hne hnone) hip hchildren hkids ?_
    intro x
    by_cases hxp : x = p
    · rw [hxp, update_self, ho]
      simp
    · rw [update_of_ne hxp]
      by_cases hxi : x = i
      · rw [hxi, update_self]
        simp
      · rw [update_of_ne hxi]
        simp [hxi]
  · obtain ⟨ns₁, hns⟩ := h.root
    by_cases h1 : p = 1
    · exact ⟨ns', by rw [h1, update_self]⟩
    · refine ⟨ns₁, ?_⟩
      rw [update_of_ne (Ne.symm h1), update_of_ne, hns]
      rintro rfl
      rw [hnone] at hns
      cases hns

theorem unlink {ns ns' : Nodes Entry} (h : Rep v fs) (ho : fs p = some (.dir ns))
    (hb : b ∈ nodesOf ns) (hi : fs i = some o') (hchildren : o'.children = [])
    (hshows : Shows (v.write b d) p (.dir ns')) (hnodes : nodesOf ns' = nodesOf ns)
    (hkids : (Obj.children (.dir ns)).Perm (i :: Obj.children (.dir ns'))) :
    Rep (v.write b d) (update (update fs p (some (.dir ns'))) i none) := by
  have hmem : i ∈ kids fs p := by
    rw [kids_of_some ho]
    exact hkids.mem_iff.mpr List.mem_cons_self
  have hip : i ≠ p := by
    rintro rfl
    rw [hi] at ho
    cases ho
    rw [kids_of_some hi, hchildren] at hmem
    cases hmem
  have hi1 : i ≠ 1 := h.tree.kid_ne_root p i hmem
  have heq : (Obj.dir ns').blocks = (Obj.dir ns).blocks := by
    rw [Obj.blocks, Obj.blocks, Obj.nodes, Obj.nodes, hnodes]
    rfl
  refine ⟨Laid.erase ?_, ?_, ?_, h.formatted⟩
  · refine h.laid.write ho (Obj.mem_blocks_of_node hb) hshows ?_ ?_
    · intro c hc
      rw [heq] at hc
      exact .inl hc
    · rw [heq]
      exact h.laid.nodup ho
  · have hki : kids fs i = [] := by rw [kids_of_some hi, hchildren]
    refine (tree_unlink h.tree ho hip hki hkids fun x => ?_).congr (fun _ => Iff.rfl) fun q => ?_
    · by_cases hxi : x = i
      · rw [hxi, update_self]
        simp
      · rw [update_of_ne hxi]
        by_cases hxp : x = p
        · rw [hxp, update_self, ho]
          simp [hip.symm]
        · rw [update_of_ne hxp]
          simp [hxi]
    · rw [kids_update]
      split
      next hqi => rw [hqi, kids_update, if_neg hip, hki]; rfl
      next => rfl
  · obtain ⟨ns₁, hns⟩ := h.root
    by_cases h1 : p = 1
    · exact ⟨ns', by rw [update_of_ne hi1.symm, h1, update_self]⟩
    · exact ⟨ns₁, by rw [update_of_ne hi1.symm, update_of_ne (Ne.symm h1), hns]⟩

/-- Blocks outside of the tree, none of them a reserved one, are no longer in use. -/
theorem drop {bs : List Nat} (h : Rep v fs) (hbs : ∀ b ∈ bs, ¬ Owned fs b ∧ ¬ Reserved b) : Rep (v.drop bs) fs where
  laid := h.laid.drop fun b hb => (hbs b hb).1
  tree := h.tree
  root := h.root
  formatted c hc := Vol.drop_used_iff.mpr ⟨h.formatted c hc, fun hm => (hbs c hm).2 hc⟩

end Rep
end

end Yfs.Fs

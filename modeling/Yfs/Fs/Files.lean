import Mathlib.Data.List.GetD
import Yfs.Base.Sparse
import Yfs.Fs.Tree

/-! Writing to a file keeps the volume laid out.

`inner_write` walks along the chain of a file's nodes and takes blocks where the chain
ends: a direct block, or a node and then its first direct block. Between its calls the
inode buffer is what the volume holds for the node it is at, and the chain has grown from
what it was at the start by blocks that were not in use (`Grows`). At the end every block
up to the last one touched is there, and nothing was taken beyond that, so the blocks it
takes can be counted beforehand. `setattr` writes an older copy of the first node back
over this: it is laid out as before, but what the first node had gained is lost. -/
namespace Yfs.Fs
open Yfs.Base
open Function (update update_eq_self_iff update_idem update_self)

/-! ### The nodes of a file -/

section
variable {ns pre post : Nodes Nat} {n : Nat} {ds : List Nat}

theorem Filled.before (h : Filled (pre ++ (n, ds) :: post)) : ∀ x ∈ pre, x.2.length = 16 := by
  intro x hx
  refine h x ?_
  rw [List.dropLast_append_cons]
  exact List.mem_append_left _ hx

theorem Filled.full (h : Filled (pre ++ (n, ds) :: post)) (hpost : post ≠ []) : ds.length = 16 := by
  refine h (n, ds) ?_
  rw [List.dropLast_append_cons, List.dropLast_cons_of_ne_nil hpost]
  exact List.mem_append_right _ List.mem_cons_self

theorem filled_last (h : ∀ x ∈ pre, x.2.length = 16) : Filled (pre ++ [(n, ds)]) := by
  intro x hx
  rw [List.dropLast_concat] at hx
  exact h x hx

theorem length_itemsOf (h : ∀ x ∈ pre, x.2.length = 16) : (itemsOf pre).length = 16 * pre.length := by
  induction pre with
  | nil => rfl
  | cons x rest ih =>
    have hrest := ih fun y hy => h y (List.mem_cons_of_mem _ hy)
    have hx := h x List.mem_cons_self
    change (x.2 ++ itemsOf rest).length = _
    rw [List.length_append, hx, hrest, List.length_cons]
    omega

end

/-! ### Growing a file -/

section
variable {v : Vol} {fs : Tree} {ino n i : Nat} {pre post : Nodes Nat} {ds : List Nat} {d : Block}

theorem mode_write_block {b : Nat} (h : d.mode = (v.block b).mode) :
    ((v.write b d).block ino).mode = (v.block ino).mode := by
  by_cases hb : ino = b
  · rw [hb, Vol.write_block_self, h]
  · rw [Vol.write_block_ne hb]

theorem FileShows.of_links {b b' : Block} (h : FileShows b ds) (hl : b'.links = b.links) : FileShows b' ds where
  direct i hi := (Block.direct_of_links hl hi).trans (h.direct i hi)
  fits := h.fits

theorem fileShows_new {b : Block} (h : b.links = Block.links Bytes.zero) : FileShows b [] where
  direct i hi := by
    rw [Block.direct_of_links h hi]
    exact Bytes.u64_zero _
  fits := Nat.zero_le _

theorem next_new {b : Block} (h : b.links = Block.links Bytes.zero) : b.next = 0 := by
  rw [Block.next_of_links h]
  exact Bytes.u64_zero _

theorem Vol.Fresh.lt_word (h : v.Fresh i) : i < 2 ^ 64 := Nat.lt_trans h.lt (by decide)

theorem Vol.Fresh.has (h : v.Fresh i) (hv : v.Formatted) : (v.alloc i d).Has i :=
  ⟨Vol.alloc_used_self, h.data hv, h.lt⟩

theorem Vol.Fresh.ne_zero (h : v.Fresh i) (hv : v.Formatted) : i ≠ 0 :=
  fun e => h.not_reserved hv (.inl e)

theorem file_first (ho : fs ino = some (.file ((n, ds) :: post))) :
    fs ino = some (.file ([] ++ (n, ds) :: post)) := ho

/-! #### One file on the volume -/

theorem blocks_add_direct :
    (Obj.file (pre ++ [(n, ds ++ [i])])).blocks = (Obj.file (pre ++ [(n, ds)])).blocks ++ [i] := by
  simp [Obj.blocks, Obj.nodes, Obj.datas, itemsOf, nodesOf]

theorem blocks_add_node :
    (Obj.file (pre ++ [(n, ds), (i, [])])).blocks.Perm (i :: (Obj.file (pre ++ [(n, ds)])).blocks) := by
  have hnodes : nodesOf (pre ++ [(n, ds), (i, [])]) = nodesOf (pre ++ [(n, ds)]) ++ [i] := by simp [nodesOf]
  have hitems : itemsOf (pre ++ [(n, ds), (i, [])]) = itemsOf (pre ++ [(n, ds)]) := by simp [itemsOf]
  rw [Obj.blocks, Obj.blocks, Obj.nodes, Obj.nodes, Obj.datas, Obj.datas, hnodes, hitems, List.append_assoc]
  exact List.perm_middle

namespace Shows

theorem file_node (h : Shows v ino (.file (pre ++ (n, ds) :: post))) :
    FileShows (v.block n) ds ∧ (v.block n).next = firstOf post := by
  obtain ⟨_, _, hc, _⟩ := h
  exact ⟨hc.split.1, hc.split.2.1⟩

/-- A node of a file is written and shows the same blocks and the same next node. -/
theorem rewrite (h : Shows v ino (.file (pre ++ (n, ds) :: post)))
    (hnodup : (nodesOf (pre ++ (n, ds) :: post)).Nodup) (hd : FileShows d ds) (hnext : d.next = firstOf post)
    (hm : ino = n → d.mode ≠ 0) : Shows (v.write n d) ino (.file (pre ++ (n, ds) :: post)) := by
  have hne := fun m hm => ne_of_nodup_nodesOf (m := m) hnodup hm
  obtain ⟨hhead, hmode, hc, hf⟩ := h
  obtain ⟨-, -, hpost⟩ := hc.split
  refine ⟨hhead, ?_, hc.splice (fun m hm => Vol.write_block_ne (hne m (.inl hm))) ⟨?_, ?_, ?_⟩, hf⟩
  · by_cases hino : ino = n
    · rw [hino, Vol.write_block_self]
      exact hm hino
    · rw [Vol.write_block_ne hino]
      exact hmode
  · rw [Vol.write_block_self]
    exact hd
  · rw [Vol.write_block_self, hnext]
  · exact hpost.congr fun m hm => Vol.write_block_ne (hne m (.inr hm))

theorem retouch (h : Shows v ino (.file (pre ++ (n, ds) :: post)))
    (hnodup : (nodesOf (pre ++ (n, ds) :: post)).Nodup) (hl : d.links = (v.block n).links)
    (hm : ino = n → d.mode ≠ 0) : Shows (v.write n d) ino (.file (pre ++ (n, ds) :: post)) := by
  obtain ⟨hshow, hnext⟩ := h.file_node
  exact h.rewrite hnodup (hshow.of_links hl) ((Block.next_of_links hl).trans hnext) hm

theorem add_direct (h : Shows v ino (.file (pre ++ [(n, ds)]))) (hnodup : (nodesOf (pre ++ [(n, ds)])).Nodup)
    (hds : ds.length < 16) (hi : i < 2 ^ 64) :
    Shows (v.write n ((v.block n).setDirect ds.length i)) ino (.file (pre ++ [(n, ds ++ [i])])) := by
  have hne := fun m hm => ne_of_nodup_nodesOf (m := m) hnodup hm
  obtain ⟨hhead, hmode, hc, hf⟩ := h
  obtain ⟨hshow, hnext, -⟩ := hc.split
  refine ⟨?_, ?_, ?_, filled_last hf.before⟩
  · rw [← hhead]
    simp
  · rw [mode_write_block (Block.mode_setDirect ..)]
    exact hmode
  · refine hc.splice (fun m hm => Vol.write_block_ne (hne m (.inl hm))) ⟨⟨?_, ?_⟩, ?_, trivial⟩
    · intro j hj
      rw [Vol.write_block_self, Block.direct_setDirect _ _ hds hi]
      by_cases hjl : j = ds.length
      · rw [if_pos hjl, hjl, List.getD_append_right _ _ _ _ (Nat.le_refl _), Nat.sub_self]
        rfl
      · rw [if_neg hjl, hshow.direct j hj]
        by_cases hlt : j < ds.length
        · rw [List.getD_append _ _ _ _ hlt]
        · rw [List.getD_eq_default _ _ (by omega),
            List.getD_eq_default _ _ (by rw [List.length_append, List.length_singleton]; omega)]
    · rw [List.length_append, List.length_singleton]
      omega
    · rw [Vol.write_block_self, Block.next_setDirect _ _ hds, hnext]

theorem add_node (h : Shows v ino (.file (pre ++ [(n, ds)]))) (hnodup : (nodesOf (pre ++ [(n, ds)])).Nodup)
    (hds : ds.length = 16) (hi : i < 2 ^ 64) (hni : n ≠ i) (hnew : (v.block i).links = Block.links Bytes.zero) :
    Shows (v.write n ((v.block n).setNext i)) ino (.file (pre ++ [(n, ds), (i, [])])) := by
  have hne := fun m hm => ne_of_nodup_nodesOf (m := m) hnodup hm
  obtain ⟨hhead, hmode, hc, hf⟩ := h
  obtain ⟨hshow, hnext, -⟩ := hc.split
  refine ⟨?_, ?_, ?_, ?_⟩
  · rw [← hhead]
    cases pre <;> rfl
  · rw [mode_write_block (Block.mode_setNext ..)]
    exact hmode
  · refine hc.splice (fun m hm => Vol.write_block_ne (hne m (.inl hm))) ⟨⟨?_, hshow.fits⟩, ?_, ?_, ?_, trivial⟩
    · intro j hj
      rw [Vol.write_block_self, Block.direct_setNext _ _ hj, hshow.direct j hj]
    · rw [Vol.write_block_self, Block.next_setNext _ _ hi]
      rfl
    · rw [Vol.write_block_ne hni.symm]
      exact fileShows_new hnew
    · rw [Vol.write_block_ne hni.symm, next_new hnew]
      rfl
  · intro x hx
    have hdrop : (pre ++ [(n, ds), (i, [])]).dropLast = pre ++ [(n, ds)] := by
      rw [List.dropLast_append_cons]
      rfl
    rw [hdrop, List.mem_append, List.mem_singleton] at hx
    cases hx with
    | inl hx => exact hf.before x hx
    | inr hx => rw [hx]; exact hds

end Shows

/-! #### One file of the tree -/

namespace Rep

theorem file_node (h : Rep v fs) (ho : fs ino = some (.file (pre ++ (n, ds) :: post))) :
    FileShows (v.block n) ds ∧ (v.block n).next = firstOf post :=
  (h.laid.shows ho).file_node

theorem file_filled (h : Rep v fs) {ns : Nodes Nat} (ho : fs ino = some (.file ns)) : Filled ns :=
  (h.laid.shows ho).2.2.2

/-- A node of a file is written and shows the same blocks and the same next node. -/
theorem rewrite (h : Rep v fs) (ho : fs ino = some (.file (pre ++ (n, ds) :: post))) (hd : FileShows d ds)
    (hnext : d.next = firstOf post) (hm : ino = n → d.mode ≠ 0) : Rep (v.write n d) fs :=
  h.write_same ho (Obj.mem_blocks_of_node (by simp [Obj.nodes]))
    ((h.laid.shows ho).rewrite (h.laid.nodup_nodes ho) hd hnext hm)

theorem retouch (h : Rep v fs) (ho : fs ino = some (.file (pre ++ (n, ds) :: post)))
    (hl : d.links = (v.block n).links) (hm : ino = n → d.mode ≠ 0) : Rep (v.write n d) fs :=
  h.write_same ho (Obj.mem_blocks_of_node (by simp [Obj.nodes]))
    ((h.laid.shows ho).retouch (h.laid.nodup_nodes ho) hl hm)

theorem add_direct (h : Rep v fs) (ho : fs ino = some (.file (pre ++ [(n, ds)]))) (hds : ds.length < 16)
    (hi : v.Fresh i) :
    Rep ((v.alloc i d).write n ((v.block n).setDirect ds.length i))
      (update fs ino (some (.file (pre ++ [(n, ds ++ [i])])))) := by
  have hmem : n ∈ nodesOf (pre ++ [(n, ds)]) := by simp
  have hown := h.laid.fresh_not_owned hi
  have hni : n ≠ i := fun e => hown ⟨ino, _, ho, e ▸ Obj.mem_blocks_of_node hmem⟩
  have halloc : Rep (v.alloc i d) fs := h.alloc hi
  have hshows := (halloc.laid.shows ho).add_direct (halloc.laid.nodup_nodes ho) hds hi.lt_word
  rw [Vol.alloc_block_ne hni] at hshows
  refine halloc.exchange_file ho hmem hshows ?_ ?_
  · intro c hc
    rw [blocks_add_direct, List.mem_append, List.mem_singleton] at hc
    refine hc.imp_right fun e => ?_
    rw [e]
    exact ⟨hi.has h.formatted, hi.ne_zero h.formatted, hown⟩
  · rw [blocks_add_direct, List.nodup_append]
    refine ⟨h.laid.nodup ho, List.nodup_singleton i, ?_⟩
    intro c hc c' hc' e
    rw [List.mem_singleton.mp hc'] at e
    exact hown ⟨ino, _, ho, e ▸ hc⟩

theorem add_node (h : Rep v fs) (ho : fs ino = some (.file (pre ++ [(n, ds)]))) (hds : ds.length = 16)
    (hi : v.Fresh i) (hd : d.links = Block.links Bytes.zero) :
    Rep ((v.alloc i d).write n ((v.block n).setNext i))
      (update fs ino (some (.file (pre ++ [(n, ds), (i, [])])))) := by
  have hmem : n ∈ nodesOf (pre ++ [(n, ds)]) := by simp
  have hown := h.laid.fresh_not_owned hi
  have hni : n ≠ i := fun e => hown ⟨ino, _, ho, e ▸ Obj.mem_blocks_of_node hmem⟩
  have halloc : Rep (v.alloc i d) fs := h.alloc hi
  have hnew : ((v.alloc i d).block i).links = Block.links Bytes.zero := by rw [Vol.alloc_block_self, hd]
  have hshows := (halloc.laid.shows ho).add_node (halloc.laid.nodup_nodes ho) hds hi.lt_word hni hnew
  rw [Vol.alloc_block_ne hni] at hshows
  refine halloc.exchange_file ho hmem hshows ?_ ?_
  · intro c hc
    rw [blocks_add_node.mem_iff, List.mem_cons] at hc
    refine hc.symm.imp_right fun e => ?_
    rw [e]
    exact ⟨hi.has h.formatted, hi.ne_zero h.formatted, hown⟩
  · rw [blocks_add_node.nodup_iff, List.nodup_cons]
    exact ⟨fun hm => hown ⟨ino, _, ho, hm⟩, h.laid.nodup ho⟩

end Rep
end

/-- The first node stays, its blocks are kept, and where another node followed it the
node is as it was. -/
def KeepsHead (ns ns' : Nodes Nat) : Prop :=
  ∃ h ds rest ds' rest', ns = (h, ds) :: rest ∧ ns' = (h, ds') :: rest' ∧ ds <+: ds' ∧
    (rest ≠ [] → ds' = ds ∧ rest' ≠ [] ∧ firstOf rest' = firstOf rest)

namespace KeepsHead
variable {ns ns' ns'' pre : Nodes Nat} {n i : Nat} {ds : List Nat}

theorem refl {h : Nat} {rest : Nodes Nat} : KeepsHead ((h, ds) :: rest) ((h, ds) :: rest) :=
  ⟨h, ds, rest, ds, rest, rfl, rfl, List.prefix_rfl, fun hr => ⟨rfl, hr, rfl⟩⟩

theorem self {post : Nodes Nat} : KeepsHead (pre ++ (n, ds) :: post) (pre ++ (n, ds) :: post) := by
  cases pre with
  | nil => exact .refl
  | cons x rest => exact .refl

theorem trans (h : KeepsHead ns ns') (h' : KeepsHead ns' ns'') : KeepsHead ns ns'' := by
  obtain ⟨n, ds, rest, ds₁, rest₁, rfl, rfl, hpre, hrest⟩ := h
  obtain ⟨n', ds', rest', ds₂, rest₂, heq, rfl, hpre', hrest'⟩ := h'
  cases heq
  refine ⟨n, ds, rest, ds₂, rest₂, rfl, rfl, hpre.trans hpre', fun hr => ?_⟩
  obtain ⟨hds, hne, hfirst⟩ := hrest hr
  obtain ⟨hds', hne', hfirst'⟩ := hrest' hne
  exact ⟨hds'.trans hds, hne', hfirst'.trans hfirst⟩

theorem direct : KeepsHead (pre ++ [(n, ds)]) (pre ++ [(n, ds ++ [i])]) := by
  cases pre with
  | nil => exact ⟨n, ds, [], ds ++ [i], [], rfl, rfl, List.prefix_append .., fun h => absurd rfl h⟩
  | cons x rest =>
    refine ⟨x.1, x.2, rest ++ [(n, ds)], x.2, rest ++ [(n, ds ++ [i])], rfl, rfl, List.prefix_rfl, ?_⟩
    intro _
    refine ⟨rfl, by simp, ?_⟩
    cases rest <;> rfl

theorem node : KeepsHead (pre ++ [(n, ds)]) (pre ++ [(n, ds), (i, [])]) := by
  cases pre with
  | nil => exact ⟨n, ds, [], ds, [(i, [])], rfl, rfl, List.prefix_rfl, fun h => absurd rfl h⟩
  | cons x rest =>
    refine ⟨x.1, x.2, rest ++ [(n, ds)], x.2, rest ++ [(n, ds), (i, [])], rfl, rfl, List.prefix_rfl, ?_⟩
    intro _
    refine ⟨rfl, by simp, ?_⟩
    cases rest <;> rfl

end KeepsHead

/-- From the volume `v₀`, with the nodes `ns₀`, the file `ino` of the tree has grown to
the nodes `ns` on the volume `v`. -/
structure Grows (fs : Tree) (ino : Nat) (v₀ : Vol) (ns₀ : Nodes Nat) (v : Vol)
    (ns : Nodes Nat) : Prop where
  rep : Rep v (update fs ino (some (.file ns)))
  head : KeepsHead ns₀ ns
  used : ∀ b, v₀.used b = true → v.used b = true
  leak : ∀ b, Leaked v (update fs ino (some (.file ns))) b → Leaked v₀ fs b
  new : ∀ b ∈ (Obj.file ns).blocks, b ∈ (Obj.file ns₀).blocks ∨ v₀.used b = false
  /-- As many blocks were taken as the file has more. -/
  cost : v.free + ns.length + (itemsOf ns).length = v₀.free + ns₀.length + (itemsOf ns₀).length

namespace Grows
variable {fs : Tree} {ino n i b : Nat} {v₀ v : Vol} {ns₀ ns pre post : Nodes Nat} {ds : List Nat}
  {d : Block} {H : List Nat}

theorem refl (h : Rep v fs) (ho : fs ino = some (.file ns)) : Grows fs ino v ns v ns := by
  have heq : update fs ino (some (Obj.file ns)) = fs := update_eq_self_iff.mpr ho.symm
  have hhead := (h.laid.shows ho).head
  refine ⟨by rwa [heq], ?_, fun _ hb => hb, fun b hb => by rwa [heq] at hb, fun b hb => .inl hb, rfl⟩
  cases ns with
  | nil => cases hhead
  | cons x rest => exact .refl

theorem write (h : Grows fs ino v₀ ns₀ v ns)
    (hrep : Rep (v.write b d) (update fs ino (some (.file ns)))) :
    Grows fs ino v₀ ns₀ (v.write b d) ns :=
  ⟨hrep, h.head, h.used, fun c hc => h.leak c hc.of_write, h.new, h.cost⟩

/-- The file gets a block that was not in use. -/
theorem take {ns' : Nodes Nat} {b' : Block} (h : Grows fs ino v₀ ns₀ v ns) (hi : v.Fresh i)
    (hrep : Rep ((v.alloc i d).write n b') (update fs ino (some (.file ns'))))
    (hhead : KeepsHead ns ns') (hblocks : ∀ c, c ∈ (Obj.file ns').blocks ↔ c ∈ (Obj.file ns).blocks ∨ c = i)
    (hcount : ns'.length + (itemsOf ns').length = ns.length + (itemsOf ns).length + 1) :
    Grows fs ino v₀ ns₀ ((v.alloc i d).write n b') ns' where
  rep := hrep
  head := h.head.trans hhead
  used c hc := Vol.alloc_used_of_used (h.used c hc)
  leak c hc := by
    refine h.leak c (hc.of_step (fun x hx => ?_) fun x hx => ?_)
    · by_cases hxi : x = i
      · exact .inr ⟨ino, _, update_self .., (hblocks x).mpr (.inr hxi)⟩
      · exact .inl ((Vol.alloc_used_ne hxi).symm.trans hx)
    · have hown : Owned (update (update fs ino (some (Obj.file ns))) ino
          (some (.file ns'))) x :=
        owned_update (update_self ..) (fun c hc => (hblocks c).mpr (.inl hc)) hx
      rwa [update_idem] at hown
  new c hc := by
    cases (hblocks c).mp hc with
    | inl hc => exact h.new c hc
    | inr hc =>
      refine .inr (Bool.eq_false_iff.mpr fun hu => ?_)
      have := h.used c hu
      rw [hc, hi.unused] at this
      exact Bool.noConfusion this
  cost := by
    have hfree : ((v.alloc i d).write n b').free + 1 = v.free := Vol.free_alloc hi
    have := h.cost
    omega

theorem add_direct (h : Grows fs ino v₀ ns₀ v (pre ++ [(n, ds)])) (hds : ds.length < 16) (hi : v.Fresh i) :
    Grows fs ino v₀ ns₀ ((v.alloc i d).write n ((v.block n).setDirect ds.length i))
      (pre ++ [(n, ds ++ [i])]) := by
  refine h.take hi ?_ .direct ?_ ?_
  · have := h.rep.add_direct (d := d) (update_self ..) hds hi
    rwa [update_idem] at this
  · intro c
    simp only [Obj.blocks, Obj.nodes, Obj.datas, nodesOf_append, nodesOf_cons, itemsOf_append, itemsOf_cons,
      List.mem_append, List.mem_singleton]
    tauto
  · simp only [List.length_append, List.length_singleton, itemsOf_append, itemsOf_cons]
    omega

theorem add_node (h : Grows fs ino v₀ ns₀ v (pre ++ [(n, ds)])) (hds : ds.length = 16) (hi : v.Fresh i)
    (hd : d.links = Block.links Bytes.zero) :
    Grows fs ino v₀ ns₀ ((v.alloc i d).write n ((v.block n).setNext i)) (pre ++ [(n, ds), (i, [])]) := by
  refine h.take hi ?_ .node ?_ ?_
  · have := h.rep.add_node (d := d) (update_self ..) hds hi hd
    rwa [update_idem] at this
  · intro c
    simp only [Obj.blocks, Obj.nodes, Obj.datas, nodesOf_append, nodesOf_cons, itemsOf_append, itemsOf_cons,
      List.mem_append, List.mem_cons]
    tauto
  · simp only [List.length_append, List.length_cons, List.length_nil, itemsOf_append, itemsOf_cons]
    omega

theorem trans {v₁ : Vol} {ns₁ : Nodes Nat} (h : Grows fs ino v₀ ns₀ v₁ ns₁)
    (h' : Grows (update fs ino (some (.file ns₁))) ino v₁ ns₁ v ns) : Grows fs ino v₀ ns₀ v ns := by
  have hrep := h'.rep
  have hleak := h'.leak
  rw [update_idem] at hrep hleak
  refine ⟨hrep, h.head.trans h'.head, fun b hb => h'.used b (h.used b hb), fun b hb => h.leak b (hleak b hb), ?_, ?_⟩
  · intro b hb
    cases h'.new b hb with
    | inl hb => exact h.new b hb
    | inr hb =>
      refine .inr (Bool.eq_false_iff.mpr fun hu => ?_)
      rw [h.used b hu] at hb
      exact Bool.noConfusion hb
  · have hcost := h.cost
    have hcost' := h'.cost
    omega

/-- The locks held are of blocks in use, and none but the first node's is of the file. -/
theorem heldUsed (h : Grows fs ino v₀ ns₀ v ns) (hH : HeldUsed H v₀) : HeldUsed H v := fun l hl =>
  ⟨(hH l hl).1, h.used l (hH l hl).2⟩

theorem not_held (h : Grows fs ino v₀ ns₀ v ns) (hH : HeldUsed H v₀)
    (hino : ∀ l ∈ H, l = ino ∨ l ∉ (Obj.file ns₀).blocks) (hb : b ∈ (Obj.file ns).blocks) : b = ino ∨ b ∉ H := by
  by_cases hbH : b ∈ H
  · refine .inl ((hino b hbH).resolve_right fun hnot => ?_)
    have hunused := (h.new b hb).resolve_left hnot
    rw [(hH b hbH).2] at hunused
    exact Bool.noConfusion hunused
  · exact .inr hbH

end Grows

/-! ### The bytes of a file -/

/-- Byte `k` of the blocks `bs`, one behind the other; zero where there is no block. -/
def byteAt (v : Vol) (bs : List Nat) (k : Nat) : Byte :=
  (bs[k / 512]?.map fun b => (v.block b).byte (k % 512)).getD 0

section
variable {v v' : Vol} {bs : List Nat} {p b i : Nat} {d : Block}

theorem byteAt_congr (h : ∀ b ∈ bs, v'.block b = v.block b) : byteAt v' bs = byteAt v bs := by
  funext k
  unfold byteAt
  congr 1
  apply Option.map_congr
  intro b hb
  rw [h b (List.mem_of_getElem? hb)]

theorem byteAt_concat_zero (h : v.block i = Bytes.zero) : byteAt v (bs ++ [i]) = byteAt v bs := by
  funext k
  unfold byteAt
  rw [List.getElem?_append]
  split
  · rfl
  · next hk =>
    rw [List.getElem?_eq_none (Nat.le_of_not_lt hk)]
    cases hj : [i][k / 512 - bs.length]? with
    | none => rfl
    | some b =>
      obtain rfl : b = i := List.mem_singleton.mp (List.mem_of_getElem? hj)
      change (v.block b).byte _ = 0
      rw [h, Bytes.byte_zero]

theorem byteAt_write (hbs : bs.Nodup) (hp : bs[p]? = some b) (k : Nat) :
    byteAt (v.write b d) bs k = if k / 512 = p then d.byte (k % 512) else byteAt v bs k := by
  unfold byteAt
  split
  · next hk =>
    rw [hk, hp]
    change ((v.write b d).block b).byte _ = _
    rw [Vol.write_block_self]
  · next hk =>
    congr 1
    apply Option.map_congr
    intro c hc
    rw [Vol.write_block_ne]
    intro hcb
    obtain ⟨hlt, -⟩ := List.getElem?_eq_some_iff.mp hc
    exact hk ((List.getElem?_inj hlt hbs).mp (by rw [hc, hp, hcb]))

theorem byteAt_write_bytes {o : Nat} {l : List Byte} (hbs : bs.Nodup) (hp : bs[p]? = some b)
    (hl : o + l.length ≤ 512) :
    byteAt (v.write b ((v.block b).write o l)) bs = overlay (byteAt v bs) (512 * p + o) l := by
  funext k
  rw [byteAt_write hbs hp]
  split
  · next hk =>
    have hold : byteAt v bs k = (v.block b).byte (k % 512) := by rw [byteAt, hk, hp]; rfl
    by_cases hin : o ≤ k % 512 ∧ k % 512 < o + l.length
    · obtain ⟨j, hj⟩ := Nat.exists_eq_add_of_le hin.1
      have hjl : j < l.length := by omega
      obtain rfl : k = 512 * p + o + j := by omega
      rw [hj, Bytes.byte_write_at _ (by omega) hjl, overlay_at hjl]
    · rw [Bytes.byte_write_apart _ (by omega), overlay_apart (by omega), hold]
  · rw [overlay_apart (by omega)]

end

/-- The file has grown, has its mode, is of size `sz` and holds the bytes `g`, and the volume is
as it was apart from the blocks of the file. -/
structure Stores (fs : Tree) (ino : Nat) (v₀ : Vol) (ns₀ : Nodes Nat) (v : Vol)
    (ns : Nodes Nat) (sz : Nat) (g : Nat → Byte) : Prop extends Grows fs ino v₀ ns₀ v ns where
  mode : (v.block ino).mode = (v₀.block ino).mode
  size : (v.block ino).size = sz
  bytes : byteAt v (itemsOf ns) = g
  keeps : ∀ b ∈ (Obj.file ns₀).blocks, b ∈ (Obj.file ns).blocks
  frame : ∀ b ∉ (Obj.file ns).blocks, v.block b = v₀.block b ∧ v.used b = v₀.used b

namespace Stores
variable {fs : Tree} {ino n i b sz sz' : Nat} {v₀ v : Vol} {ns₀ ns pre : Nodes Nat} {ds : List Nat}
  {d : Block} {g : Nat → Byte}

theorem refl (h : Rep v fs) (ho : fs ino = some (.file ns)) :
    Stores fs ino v ns v ns (v.block ino).size (byteAt v (itemsOf ns)) :=
  ⟨.refl h ho, rfl, rfl, rfl, fun _ hb => hb, fun _ _ => ⟨rfl, rfl⟩⟩

theorem block_eq (h : Stores fs ino v₀ ns₀ v ns sz g) (hused : v₀.used b = true) (hnot : b ∉ (Obj.file ns₀).blocks) :
    v.block b = v₀.block b := by
  refine (h.frame b fun hb => ?_).1
  exact (h.new b hb).elim hnot fun hunused => Vol.ne_of_used hused hunused rfl

theorem nodup (h : Stores fs ino v₀ ns₀ v ns sz g) : (nodesOf ns ++ itemsOf ns).Nodup :=
  h.rep.laid.nodup (update_self ..)

theorem items_nodup (h : Stores fs ino v₀ ns₀ v ns sz g) : (itemsOf ns).Nodup :=
  (List.nodup_append.mp h.nodup).2.1

theorem head_mem (h : Stores fs ino v₀ ns₀ v ns sz g) : ino ∈ nodesOf ns :=
  (h.rep.laid.shows (update_self ..)).head_mem

theorem write_head (h : Stores fs ino v₀ ns₀ v ns sz g)
    (hrep : Rep (v.write ino d) (update fs ino (some (.file ns)))) (hmode : d.mode = (v.block ino).mode)
    (hsize : d.size = sz') : Stores fs ino v₀ ns₀ (v.write ino d) ns sz' g where
  toGrows := h.write hrep
  mode := by rw [Vol.write_block_self, hmode, h.mode]
  size := by rw [Vol.write_block_self, hsize]
  bytes := by
    rw [← h.bytes]
    apply byteAt_congr
    intro c hc
    exact Vol.write_block_ne fun e => (List.nodup_append.mp h.nodup).2.2 ino h.head_mem c hc e.symm
  keeps := h.keeps
  frame c hc := by
    have hcb : c ≠ ino := fun e => hc (e ▸ Obj.mem_blocks_of_node h.head_mem)
    rw [Vol.write_block_ne hcb]
    exact h.frame c hc

/-- The file gets a block that was not in use. -/
theorem take {ns' : Nodes Nat} {b' : Block} (h : Stores fs ino v₀ ns₀ v ns sz g) (hi : v.Fresh i)
    (hn : n ∈ nodesOf ns) (hgrow : Grows fs ino v₀ ns₀ ((v.alloc i d).write n b') ns')
    (hblocks : ∀ c, c ∈ (Obj.file ns).blocks ∨ c = i → c ∈ (Obj.file ns').blocks)
    (hsize : b'.size = (v.block n).size) (hmode : b'.mode = (v.block n).mode)
    (hitems : itemsOf ns' = itemsOf ns ∨ itemsOf ns' = itemsOf ns ++ [i] ∧ d = Bytes.zero) :
    Stores fs ino v₀ ns₀ ((v.alloc i d).write n b') ns' sz g := by
  have hnot : ∀ c ∈ (Obj.file ns).blocks, c ≠ i := fun c hc e =>
    h.rep.laid.fresh_not_owned hi ⟨ino, _, update_self .., e ▸ hc⟩
  have hold : ∀ c ∈ itemsOf ns, ((v.alloc i d).write n b').block c = v.block c := by
    intro c hc
    have hcn : c ≠ n := fun e => (List.nodup_append.mp h.nodup).2.2 n hn c hc e.symm
    rw [Vol.write_block_ne hcn, Vol.alloc_block_ne (hnot c (List.mem_append_right _ hc))]
  have hhead : (((v.alloc i d).write n b').block ino).mode = (v.block ino).mode ∧
      (((v.alloc i d).write n b').block ino).size = (v.block ino).size := by
    by_cases hin : ino = n
    · rw [hin, Vol.write_block_self]
      exact ⟨hmode, hsize⟩
    · rw [Vol.write_block_ne hin, Vol.alloc_block_ne (hnot ino (Obj.mem_blocks_of_node h.head_mem))]
      exact ⟨rfl, rfl⟩
  refine ⟨hgrow, hhead.1.trans h.mode, hhead.2.trans h.size, ?_, fun c hc => hblocks c (.inl (h.keeps c hc)), ?_⟩
  · rw [← h.bytes, ← byteAt_congr hold]
    cases hitems with
    | inl hitems => rw [hitems]
    | inr hitems =>
      rw [hitems.1]
      apply byteAt_concat_zero
      have hin : i ≠ n := fun e => hnot n (Obj.mem_blocks_of_node hn) e.symm
      rw [Vol.write_block_ne hin, Vol.alloc_block_self, hitems.2]
  · intro c hc
    have hc' : c ∉ (Obj.file ns).blocks := fun hm => hc (hblocks c (.inl hm))
    have hci : c ≠ i := fun e => hc (hblocks c (.inr e))
    have hcn : c ≠ n := fun e => hc' (e ▸ Obj.mem_blocks_of_node hn)
    rw [Vol.write_block_ne hcn, Vol.alloc_block_ne hci]
    refine ⟨(h.frame c hc').1, ?_⟩
    exact (Vol.alloc_used_ne hci).trans (h.frame c hc').2

theorem trans {v₁ : Vol} {ns₁ : Nodes Nat} {g₁ : Nat → Byte} (h : Stores fs ino v₀ ns₀ v₁ ns₁ sz g₁)
    (h' : Stores (update fs ino (some (.file ns₁))) ino v₁ ns₁ v ns sz' g) :
    Stores fs ino v₀ ns₀ v ns sz' g where
  toGrows := h.toGrows.trans h'.toGrows
  mode := h'.mode.trans h.mode
  size := h'.size
  bytes := h'.bytes
  keeps b hb := h'.keeps b (h.keeps b hb)
  frame b hb := by
    have hold := h.frame b fun hm => hb (h'.keeps b hm)
    have hnew := h'.frame b hb
    exact ⟨hnew.1.trans hold.1, hnew.2.trans hold.2⟩

theorem add_direct (h : Stores fs ino v₀ ns₀ v (pre ++ [(n, ds)]) sz g) (hds : ds.length < 16) (hi : v.Fresh i) :
    Stores fs ino v₀ ns₀ ((v.alloc i Bytes.zero).write n ((v.block n).setDirect ds.length i))
      (pre ++ [(n, ds ++ [i])]) sz g := by
  refine h.take hi (by simp) (h.toGrows.add_direct hds hi) ?_ (Block.size_setDirect ..) (Block.mode_setDirect ..)
    (.inr ⟨by simp, rfl⟩)
  intro c hc
  rw [blocks_add_direct, List.mem_append, List.mem_singleton]
  exact hc

theorem add_node (h : Stores fs ino v₀ ns₀ v (pre ++ [(n, ds)]) sz g) (hds : ds.length = 16) (hi : v.Fresh i)
    (hd : d.links = Block.links Bytes.zero) :
    Stores fs ino v₀ ns₀ ((v.alloc i d).write n ((v.block n).setNext i)) (pre ++ [(n, ds), (i, [])]) sz g := by
  refine h.take hi (by simp) (h.toGrows.add_node hds hi hd) ?_ (Block.size_setNext ..) (Block.mode_setNext ..)
    (.inl (by simp))
  intro c hc
  rw [blocks_add_node.mem_iff, List.mem_cons]
  exact hc.symm

end Stores

/-! ### Touching a block -/

/-- The blocks a file of these many nodes and direct blocks takes to have block `p`. -/
def taken (nodes blocks p : Nat) : Nat := (p + 1 - blocks) + (p / 16 + 1 - nodes)

theorem taken_le {nodes blocks p q : Nat} (h : p ≤ q) : taken nodes blocks p ≤ taken nodes blocks q := by
  have := Nat.div_le_div_right (c := 16) h
  unfold taken
  omega

/-- The data blocks of a file that was extended to block `p` and then to block `q`. -/
theorem items_trans {k k₁ k₂ p q : Nat} (hpq : p ≤ q) (h₁ : k₁ = max k (p + 1)) (h₂ : k₂ = max k₁ (q + 1)) :
    k₂ = max k (q + 1) := by
  omega

theorem nodes_trans {k k₁ k₂ p q : Nat} (hpq : p ≤ q) (h₁ : k₁ = max k (p / 16 + 1))
    (h₂ : k₂ = max k₁ (q / 16 + 1)) : k₂ = max k (q / 16 + 1) := by
  have hdiv : p / 16 ≤ q / 16 := Nat.div_le_div_right hpq
  omega

/-- Once block `p` is there, what it took is not taken again on the way to block `q`. -/
theorem taken_after {n b n' b' p q free free' : Nat} (h : p ≤ q) (hb : b' = max b (p + 1))
    (hn : n' = max n (p / 16 + 1)) (hcost : free' + n' + b' = free + n + b) (hfree : taken n b q ≤ free) :
    taken n' b' q ≤ free' := by
  have hdiv := Nat.div_le_div_right (c := 16) h
  unfold taken at *
  generalize p / 16 = p' at *
  generalize q / 16 = q' at *
  omega

/-- The locks that are held while the file `ino` is written. -/
structure Locks (H : List Nat) (ino : Nat) (v : Vol) (ns : Nodes Nat) : Prop where
  held : HeldUsed H v
  own : ∀ l ∈ H, l = ino ∨ l ∉ (Obj.file ns).blocks

/-- The cursor is at block `p` of the file, which may be the one after the last. -/
def Pos (v : Vol) (ns : Nodes Nat) (c : Cursor) (p : Nat) : Prop :=
  ∃ pre n ds post, ns = pre ++ (n, ds) :: post ∧ c.target = n ∧ c.inode = v.block n ∧ c.index ≤ ds.length ∧
    p = 16 * pre.length + c.index

/-- The cursor is at block `p` of the file, which is there. -/
def On (v : Vol) (ns : Nodes Nat) (c : Cursor) (p : Nat) : Prop :=
  ∃ pre n ds post, ns = pre ++ (n, ds) :: post ∧ c.target = n ∧ c.inode = v.block n ∧ c.index < ds.length ∧
    p = 16 * pre.length + c.index

theorem On.pos {v : Vol} {ns : Nodes Nat} {c : Cursor} {p : Nat} (h : On v ns c p) : Pos v ns c p := by
  obtain ⟨pre, n, ds, post, hns, htarget, hinode, hidx, hp⟩ := h
  exact ⟨pre, n, ds, post, hns, htarget, hinode, Nat.le_of_lt hidx, hp⟩

theorem pos_next {v : Vol} {pre post : Nodes Nat} {n m p : Nat} {ds ds' : List Nat}
    (hp : p = 16 * pre.length + 16) : Pos v (pre ++ (n, ds) :: (m, ds') :: post) ⟨m, 0, v.block m⟩ p := by
  refine ⟨pre ++ [(n, ds)], m, ds', post, by simp, rfl, rfl, Nat.zero_le _, ?_⟩
  rw [hp, List.length_append, List.length_singleton]
  rfl

theorem On.next {v : Vol} {ns : Nodes Nat} {c : Cursor} {p : Nat} (h : On v ns c p) :
    Pos v ns { c with index := c.index + 1 } (p + 1) := by
  obtain ⟨pre, n, ds, post, hns, htarget, hinode, hidx, hp⟩ := h
  exact ⟨pre, n, ds, post, hns, htarget, hinode, hidx, by rw [hp]; rfl⟩

theorem On.direct {v : Vol} {ino p : Nat} {ns : Nodes Nat} {c : Cursor} (hc : On v ns c p)
    (h : Shows v ino (.file ns)) : c.inode.direct c.index ∈ itemsOf ns := by
  obtain ⟨pre, n, ds, post, rfl, htarget, hinode, hidx, hp⟩ := hc
  obtain ⟨hshow, -⟩ := h.file_node
  have hfits := hshow.fits
  rw [hinode, hshow.direct c.index (by omega), List.getD_eq_getElem _ _ hidx, itemsOf_append, itemsOf_cons]
  exact List.mem_append_right _ (List.mem_append_left _ (List.getElem_mem hidx))

theorem On.item {v : Vol} {p : Nat} {ns : Nodes Nat} {c : Cursor} (hc : On v ns c p)
    (hchain : Chained v FileShows ns) (hfilled : Filled ns) : (itemsOf ns)[p]? = some (c.inode.direct c.index) := by
  obtain ⟨pre, n, ds, post, rfl, htarget, hinode, hidx, rfl⟩ := hc
  have hshow := hchain.split.1
  have hfits := hshow.fits
  have hpre := length_itemsOf hfilled.before
  rw [hinode, hshow.direct c.index (by omega), List.getD_eq_getElem _ _ hidx, itemsOf_append, itemsOf_cons,
    List.getElem?_append_right (by omega), hpre, Nat.add_sub_cancel_left, List.getElem?_append_left hidx,
    List.getElem?_eq_getElem hidx]

theorem On.write {v : Vol} {p b : Nat} {ns : Nodes Nat} {c : Cursor} {d : Block} (hc : On v ns c p)
    (hb : b ∉ nodesOf ns) : On (v.write b d) ns c p := by
  obtain ⟨pre, n, ds, post, rfl, htarget, hinode, hidx, hp⟩ := hc
  refine ⟨pre, n, ds, post, rfl, htarget, ?_, hidx, hp⟩
  rw [Vol.write_block_ne, hinode]
  rintro rfl
  exact hb (by simp)

section
variable {fs : Tree} {ino p : Nat} {v₀ v : Vol} {ns₀ ns : Nodes Nat} {H : List Nat} {c : Cursor}

namespace Grows

theorem has (h : Grows fs ino v₀ ns₀ v ns) {b : Nat} (hb : b ∈ (Obj.file ns).blocks) : v.Has b :=
  h.rep.laid.has (update_self ..) hb

theorem ne_zero (h : Grows fs ino v₀ ns₀ v ns) {b : Nat} (hb : b ∈ (Obj.file ns).blocks) : b ≠ 0 :=
  h.rep.laid.ne_zero (update_self ..) hb

theorem filled (h : Grows fs ino v₀ ns₀ v ns) : Filled ns := h.rep.file_filled (update_self ..)

theorem safeGet (h : Grows fs ino v₀ ns₀ v ns) (hl : Locks H ino v₀ ns₀) {b : Nat} {buf : Block}
    (hb : b ∈ (Obj.file ns).blocks) : Gives H v (safeGet b buf ino) (.ok, v.block b) v :=
  .safeGet hl.held.offBitmap (h.has hb) (h.not_held hl.held hl.own hb)

theorem safePut (h : Grows fs ino v₀ ns₀ v ns) (hl : Locks H ino v₀ ns₀) {b : Nat} {d : Block}
    (hb : b ∈ (Obj.file ns).blocks) : Gives H v (safePut b d false ino) (.ok, b) (v.write b d) :=
  .safePut hl.held.offBitmap (h.has hb) (h.not_held hl.held hl.own hb)

theorem alloc (h : Grows fs ino v₀ ns₀ v ns) (hl : Locks H ino v₀ ns₀) {x : Nat} {d : Block}
    (hfree : 0 < v.free) :
    Does H v (Fs.safePut x d true ino) fun r v' => ∃ i, v.Fresh i ∧ r = (.ok, i) ∧ v' = v.alloc i d :=
  .alloc hfree h.rep.formatted (h.heldUsed hl.held)

theorem safePut_alloc (h : Grows fs ino v₀ ns₀ v ns) (hl : Locks H ino v₀ ns₀) {b i : Nat} {d d' : Block}
    (hb : b ∈ (Obj.file ns).blocks) :
    Gives H (v.alloc i d') (Fs.safePut b d false ino) (.ok, b) ((v.alloc i d').write b d) := by
  have hhas := h.has hb
  exact .safePut hl.held.offBitmap ⟨Vol.alloc_used_of_used hhas.used, hhas.data, hhas.lt⟩
    (h.not_held hl.held hl.own hb)

theorem on_direct (h : Grows fs ino v₀ ns₀ v ns) (hc : On v ns c p) : c.inode.direct c.index ∈ itemsOf ns :=
  hc.direct (h.rep.laid.shows (update_self ..))

end Grows

/-- From block `p` on there are zeros behind `filesize` bytes. -/
def ZeroFrom (g : Nat → Byte) (p : Nat) (filesize : Int) : Prop :=
  ∀ k, 512 * p ≤ k → 512 * p + filesize ≤ (k : Int) → g k = 0

theorem ZeroFrom.later {g : Nat → Byte} {p p' : Nat} {filesize filesize' : Int} (h : ZeroFrom g p filesize)
    (hp : p ≤ p') (hsize : 512 * p + filesize ≤ 512 * p' + filesize') : ZeroFrom g p' filesize' :=
  fun k hk hk' => h k (by omega) (by omega)

namespace Stores
variable {sz : Nat} {g : Nat → Byte}

/-- Past the last direct block of a node the function goes on to the next node. -/
theorem nextNode {check : Bool} (h : Stores fs ino v₀ ns₀ v ns sz g) (hl : Locks H ino v₀ ns₀) (hc : Pos v ns c p)
    (hfree : p / 16 + 1 ≤ ns.length + v.free) :
    Does H v (nextNode ino check c) fun r v' => ∃ c' ns', r = some c' ∧ Stores fs ino v₀ ns₀ v' ns' sz g ∧
      Pos v' ns' c' p ∧ c'.index < 16 ∧ (itemsOf ns').length = (itemsOf ns).length ∧
      ns'.length = max ns.length (p / 16 + 1) := by
  obtain ⟨pre, n, ds, post, rfl, htarget, hinode, hidx, hp⟩ := hc
  obtain ⟨hshow, hnext⟩ := h.rep.file_node (update_self ..)
  have hfits := hshow.fits
  have hlen : (pre ++ (n, ds) :: post).length = pre.length + post.length + 1 := by simp [Nat.add_assoc]
  have hn : n ∈ (Obj.file (pre ++ (n, ds) :: post)).blocks :=
    Obj.mem_blocks_of_node (by simp [Obj.nodes])
  rw [Fs.nextNode]
  by_cases hfull : directBlockNum ≤ c.index
  · have hfull' : 16 ≤ c.index := hfull
    have hds : ds.length = 16 := by omega
    rw [if_pos hfull, hinode, hnext]
    cases post with
    | nil =>
      rw [if_pos (show firstOf [] = 0 from rfl)]
      refine Does.bind ((h.alloc hl (by simp only [List.length_nil] at hlen; omega)).mono ?_)
      rintro _ _ ⟨i, hi, rfl, rfl⟩
      dsimp only
      rw [if_neg (fun hbad => hbad.2 rfl), htarget]
      refine (h.safePut_alloc hl hn).bind ?_
      rw [if_neg (fun hbad => hbad.2 rfl), Block.next_setNext _ _ hi.lt_word]
      have hgrow := h.add_node (d := Block.setMode Bytes.zero 1) hds hi (Block.links_setMode ..)
      refine (hgrow.safeGet hl (Obj.mem_blocks_of_node (by simp [Obj.nodes]))).bind (Does.pure ?_)
      refine ⟨_, _, rfl, hgrow, pos_next (by omega), ?_, ?_, ?_⟩
      · exact Nat.zero_lt_succ _
      · simp
      · simp only [List.length_append, List.length_cons, List.length_nil]
        omega
    | cons x rest =>
      obtain ⟨m, ds'⟩ := x
      have hm : m ∈ (Obj.file (pre ++ (n, ds) :: (m, ds') :: rest)).blocks :=
        Obj.mem_blocks_of_node (by simp [Obj.nodes])
      rw [firstOf_cons, if_neg (h.ne_zero hm)]
      refine (h.safeGet hl hm).bind (Does.pure ?_)
      refine ⟨_, _, rfl, h, pos_next (by omega), ?_, rfl, ?_⟩
      · exact Nat.zero_lt_succ _
      · simp only [List.length_cons] at hlen
        omega
  · have hlt : c.index < 16 := Nat.lt_of_not_le hfull
    rw [if_neg hfull]
    refine Does.pure ⟨c, _, rfl, h, ⟨pre, n, ds, post, rfl, htarget, hinode, hidx, hp⟩, hlt, rfl, ?_⟩
    omega

/-- Where the node has no direct block at the cursor it gets one. -/
theorem newDirect (h : Stores fs ino v₀ ns₀ v ns sz g) (hl : Locks H ino v₀ ns₀) (hc : Pos v ns c p)
    (hidx16 : c.index < 16) (hfree : p + 1 ≤ (itemsOf ns).length + v.free) :
    Does H v (newDirect ino c) fun c' v' => ∃ ns', Stores fs ino v₀ ns₀ v' ns' sz g ∧ On v' ns' c' p ∧
      (itemsOf ns').length = max (itemsOf ns).length (p + 1) ∧ ns'.length = ns.length := by
  obtain ⟨pre, n, ds, post, rfl, htarget, hinode, hidx, hp⟩ := hc
  obtain ⟨hshow, -⟩ := h.rep.file_node (update_self ..)
  have hitems : (itemsOf (pre ++ (n, ds) :: post)).length =
      16 * pre.length + (ds.length + (itemsOf post).length) := by
    rw [itemsOf_append, itemsOf_cons, List.length_append, List.length_append, length_itemsOf h.filled.before]
  have hn : n ∈ (Obj.file (pre ++ (n, ds) :: post)).blocks :=
    Obj.mem_blocks_of_node (by simp [Obj.nodes])
  rw [Fs.newDirect]
  by_cases hlt : c.index < ds.length
  · have hon : On v (pre ++ (n, ds) :: post) c p := ⟨pre, n, ds, post, rfl, htarget, hinode, hlt, hp⟩
    rw [if_neg (h.ne_zero (List.mem_append_right _ (h.on_direct hon)))]
    exact Does.pure ⟨_, h, hon, by omega, rfl⟩
  · have hend : c.index = ds.length := by omega
    -- Only the last node has room.
    obtain rfl : post = [] := by
      by_contra hpost
      have := h.filled.full hpost
      omega
    rw [hinode, hshow.direct _ hidx16, List.getD_eq_default _ _ (Nat.le_of_not_lt hlt), if_pos rfl]
    simp only [itemsOf_nil, List.length_nil] at hitems
    refine Does.bind ((h.alloc hl (by omega)).mono ?_)
    rintro _ _ ⟨i, hi, rfl, rfl⟩
    dsimp only
    rw [htarget]
    refine (h.safePut_alloc hl hn).bind (Does.pure ?_)
    rw [hend]
    have hgrow := h.add_direct (by omega) hi
    refine ⟨_, hgrow, ⟨pre, n, ds ++ [i], [], rfl, rfl, ?_, ?_, hend ▸ hp⟩, ?_, by simp⟩
    · exact Vol.write_block_self.symm
    · change ds.length < _
      rw [List.length_append, List.length_singleton]
      omega
    · rw [itemsOf_append, itemsOf_cons, List.length_append, List.length_append, List.length_append,
        length_itemsOf h.filled.before, itemsOf_nil, List.length_nil, List.length_singleton, hitems]
      omega

theorem on_at (h : Stores fs ino v₀ ns₀ v ns sz g) (hc : On v ns c p) :
    (itemsOf ns)[p]? = some (c.inode.direct c.index) :=
  hc.item (h.rep.laid.shows (update_self ..)).2.2.1 h.filled

theorem write_on (h : Stores fs ino v₀ ns₀ v ns sz g) (hc : On v ns c p) {b : Nat} {d : Block}
    (hb : b = c.inode.direct c.index) :
    Stores fs ino v₀ ns₀ (v.write b d) ns sz (byteAt (v.write b d) (itemsOf ns)) ∧ On (v.write b d) ns c p := by
  have hself : update fs ino (some (Obj.file ns)) ino = some (.file ns) := update_self ..
  have hitem : b ∈ itemsOf ns := hb ▸ h.on_direct hc
  have hnode : ∀ n ∈ nodesOf ns, n ≠ b := fun n hn => (List.nodup_append.mp h.nodup).2.2 n hn b hitem
  refine ⟨⟨h.write (h.rep.write_data hself hitem), ?_, ?_, rfl, h.keeps, ?_⟩, hc.write fun hn => hnode b hn rfl⟩
  · rw [Vol.write_block_ne (hnode ino h.head_mem), h.mode]
  · rw [Vol.write_block_ne (hnode ino h.head_mem), h.size]
  · intro c hc
    have hcb : c ≠ b := fun e => hc (e ▸ List.mem_append_right _ hitem)
    rw [Vol.write_block_ne hcb]
    exact h.frame c hc

/-- The block at the cursor is filled with zeros. Past the size of the file they are there
already. -/
theorem zeroDirect {filesize : Int} (h : Stores fs ino v₀ ns₀ v ns sz g) (hl : Locks H ino v₀ ns₀)
    (hc : On v ns c p) :
    Does H v (zeroDirect ino filesize c) fun _ v' => ∃ g', Stores fs ino v₀ ns₀ v' ns sz g' ∧ On v' ns c p ∧
      (ZeroFrom g p filesize → g' = g) := by
  rw [Fs.zeroDirect]
  split
  · next hneg =>
    obtain ⟨hwrite, hon⟩ := h.write_on (d := Bytes.zero) hc rfl
    refine (h.safePut hl (List.mem_append_right _ (h.on_direct hc))).bind (Does.pure ⟨_, hwrite, hon, fun hzero => ?_⟩)
    funext k
    rw [byteAt_write h.items_nodup (h.on_at hc), h.bytes]
    split
    · next hk => rw [Bytes.byte_zero, hzero k (by omega) (by omega)]
    · rfl
  · exact Does.pure ⟨g, h, hc, fun _ => rfl⟩

/-- **Touching block `p`.** Where all blocks before it are there it is there afterwards,
and the file has grown by no more than that. -/
theorem touch {check : Bool} {filesize : Int} (h : Stores fs ino v₀ ns₀ v ns sz g) (hl : Locks H ino v₀ ns₀)
    (hc : Pos v ns c p)
    (hfree : taken ns.length (itemsOf ns).length p ≤ v.free) :
    Does H v (touch ino check filesize c) fun r v' => ∃ c' ns' g', r = some c' ∧ Stores fs ino v₀ ns₀ v' ns' sz g' ∧
      On v' ns' c' p ∧ (itemsOf ns').length = max (itemsOf ns).length (p + 1) ∧
      ns'.length = max ns.length (p / 16 + 1) ∧ (ZeroFrom g p filesize → g' = g) := by
  unfold taken at hfree
  rw [Fs.touch]
  refine Does.bind ((h.nextNode hl hc (by omega)).mono ?_)
  rintro _ v₁ ⟨c₁, ns₁, rfl, h₁, hc₁, hidx, hitems₁, hlen₁⟩
  have hcost := h.cost
  have hcost₁ := h₁.cost
  refine Does.bind ((h₁.newDirect hl hc₁ hidx (by omega)).mono ?_)
  rintro c₂ v₂ ⟨ns₂, h₂, hc₂, hitems₂, hlen₂⟩
  rw [hitems₁] at hitems₂
  rw [hlen₁] at hlen₂
  refine Does.bind ((h₂.zeroDirect hl hc₂).mono ?_)
  rintro _ v₃ ⟨g', h₃, hc₃, hzero⟩
  exact Does.pure ⟨c₂, ns₂, g', rfl, h₃, hc₃, hitems₂, hlen₂, hzero⟩

/-! ### The two loops -/

/-- The offsetting loop touches every block up to the one at the offset. -/
theorem writeSeek {q fuel : Nat} {off filesize : Int} (h : Stores fs ino v₀ ns₀ v ns sz g) (hl : Locks H ino v₀ ns₀)
    (hc : Pos v ns c p) (hq : off.toNat / 512 = q) (hfuel : q < fuel)
    (hfree : taken ns.length (itemsOf ns).length (p + q) ≤ v.free) :
    Does H v (writeSeek ino fuel off filesize c) fun r v' => ∃ c' ns' g',
      r = some (off - 512 * q, filesize - 512 * q, c') ∧ Stores fs ino v₀ ns₀ v' ns' sz g' ∧ On v' ns' c' (p + q) ∧
      (itemsOf ns').length = max (itemsOf ns).length (p + q + 1) ∧
      ns'.length = max ns.length ((p + q) / 16 + 1) ∧ (ZeroFrom g p filesize → g' = g) := by
  induction fuel generalizing q off filesize c v ns p g with
  | zero => exact absurd hfuel (Nat.not_lt_zero q)
  | succ fuel ih =>
    rw [Fs.writeSeek]
    refine Does.bind ((h.touch hl hc (Nat.le_trans (taken_le (Nat.le_add_right ..)) hfree)).mono ?_)
    rintro _ v₁ ⟨c₁, ns₁, g₁, rfl, h₁, hc₁, hitems, hlen, hzero⟩
    dsimp only
    cases q with
    | zero =>
      rw [if_neg (by omega)]
      exact Does.pure ⟨c₁, ns₁, g₁, by simp, h₁, hc₁, hitems, hlen, hzero⟩
    | succ q =>
      rw [if_pos (by omega)]
      have hcost := h₁.cost.trans h.cost.symm
      have hpq : p + 1 + q = p + (q + 1) := by omega
      have hfree₁ := taken_after (Nat.le_add_right p (q + 1)) hitems hlen hcost hfree
      refine (ih (q := q) h₁ hc₁.next (by omega) (by omega) (by rwa [hpq])).mono ?_
      rintro _ v₂ ⟨c₂, ns₂, g₂, rfl, h₂, hc₂, hitems₂, hlen₂, hzero₂⟩
      rw [hpq] at hc₂ hitems₂ hlen₂
      have hle : p ≤ p + (q + 1) := Nat.le_add_right ..
      have hstep (x : Int) : x - 512 - 512 * (q : Nat) = x - 512 * (q + 1 : Nat) := by omega
      refine ⟨c₂, ns₂, g₂, ?_, h₂, hc₂, items_trans hle hitems hitems₂, nodes_trans hle hlen hlen₂, fun hz => ?_⟩
      · rw [hstep off, hstep filesize]
      · have hz₁ : ZeroFrom g₁ (p + 1) (filesize - 512) := by
          rw [hzero hz]
          exact hz.later (Nat.le_succ p) (by omega)
        rw [hzero₂ hz₁, hzero hz]

/-- Copying within the bounds of the block and of the caller's buffer. -/
theorem memcpy_eq {data : Block} {off : Int} {buf : List Byte} {k : Nat}
    (h : k = 0 ∨ 0 ≤ off ∧ off + k ≤ 512 ∧ k ≤ buf.length) :
    memcpy data off buf k = some (data.write off.toNat (buf.take k)) := by
  rw [memcpy]
  by_cases hk : k = 0
  · rw [if_pos hk, hk, List.take_zero, Bytes.write_nil]
  · rw [if_neg hk, if_pos (h.resolve_left hk)]

/-- The writing loop touches every block up to the one of the last byte. -/
theorem writeLoop {r fuel size : Nat} {buf : List Byte} {off filesize : Int} {data : Block}
    (h : Stores fs ino v₀ ns₀ v ns sz g) (hl : Locks H ino v₀ ns₀) (hc : Pos v ns c p)
    (hoff : size = 0 ∨ 0 ≤ off) (hoff' : off < 512) (hbuf : size ≤ buf.length)
    (hr : (off.toNat + size - 1) / 512 = r) (hfuel : r < fuel)
    (hfree : taken ns.length (itemsOf ns).length (p + r) ≤ v.free) :
    Does H v (writeLoop ino fuel buf size off filesize data c) fun _ v' => ∃ ns' g',
      Stores fs ino v₀ ns₀ v' ns' sz g' ∧
      (itemsOf ns').length = max (itemsOf ns).length (p + r + 1) ∧
      ns'.length = max ns.length ((p + r) / 16 + 1) ∧
      (ZeroFrom g p filesize → g' = overlay g (512 * p + off.toNat) (buf.take size)) := by
  induction fuel generalizing r size buf off filesize data c v ns p g with
  | zero => exact absurd hfuel (Nat.not_lt_zero r)
  | succ fuel ih =>
    rw [Fs.writeLoop]
    refine Does.bind ((h.touch hl hc (Nat.le_trans (taken_le (Nat.le_add_right ..)) hfree)).mono ?_)
    rintro _ v₁ ⟨c₁, ns₁, g₁, rfl, h₁, hc₁, hitems, hlen, hzero⟩
    have hb := h₁.on_direct hc₁
    refine (h₁.safeGet hl (List.mem_append_right _ hb)).bind ?_
    dsimp only
    rw [memcpy_eq (by omega)]
    refine (h₁.safePut hl (List.mem_append_right _ hb)).bind ?_
    obtain ⟨h₂, hc₂⟩ := h₁.write_on (d := (v₁.block (c₁.inode.direct c₁.index)).write off.toNat
      (buf.take (min size (512 - off).toNat))) hc₁ rfl
    have hchunk : off.toNat + (buf.take (min size (512 - off).toNat)).length ≤ 512 := by
      rw [List.length_take]
      omega
    rw [byteAt_write_bytes h₁.items_nodup (h₁.on_at hc₁) hchunk, h₁.bytes] at h₂
    cases r with
    | zero =>
      rw [if_pos (by omega)]
      refine Does.pure ⟨ns₁, _, h₂, hitems, hlen, fun hz => ?_⟩
      rw [hzero hz, Nat.min_eq_left (by omega)]
    | succ r =>
      rw [if_neg (by omega)]
      have hroom : min size (512 - off).toNat = (512 - off).toNat := Nat.min_eq_right (by omega)
      rw [hroom] at h₂ hc₂ hchunk ⊢
      have hcost := h₂.cost.trans h.cost.symm
      have hpr : p + 1 + r = p + (r + 1) := by omega
      have hfree₂ := taken_after (Nat.le_add_right p (r + 1)) hitems hlen hcost hfree
      refine (ih (r := r) h₂ hc₂.next (.inr (Int.le_refl 0)) (by omega) ?_ (by omega) (by omega) (by rwa [hpr])).mono ?_
      · rw [List.length_drop]
        omega
      · rintro _ v₃ ⟨ns₃, g₃, h₃, hitems₃, hlen₃, hzero₃⟩
        rw [hpr] at hitems₃ hlen₃
        have hle : p ≤ p + (r + 1) := Nat.le_add_right ..
        refine ⟨ns₃, g₃, h₃, items_trans hle hitems hitems₃, nodes_trans hle hlen hlen₃, fun hz => ?_⟩
        have htake : (buf.take (512 - off).toNat).length = (512 - off).toNat := by
          rw [List.length_take]
          omega
        have hz₂ : ZeroFrom (overlay g₁ (512 * p + off.toNat) (buf.take (512 - off).toNat)) (p + 1)
            (filesize - (512 - off).toNat) := by
          intro k hk hk'
          rw [overlay_apart (.inr (by omega)), hzero hz]
          exact hz.later (Nat.le_succ p) (by omega) k hk hk'
        -- The block was filled to its end, so the next bytes go right behind these.
        have hnext : 512 * (p + 1) + (0 : Int).toNat = 512 * p + off.toNat + (buf.take (512 - off).toNat).length := by
          omega
        have hsize : (512 - off).toNat + (size - (512 - off).toNat) = size := by omega
        rw [hzero₃ hz₂, hzero hz, hnext, overlay_append, ← List.take_add, hsize]

end Stores
end

/-! ### `inner_write` and `write` -/

/-- The last block of a file that writing `size` bytes at `off` touches. -/
def lastBlock (off : Int) (size : Nat) : Nat := off.toNat / 512 + (off.toNat % 512 + size - 1) / 512

section
variable {fs : Tree} {ino : Nat} {v v₀ : Vol} {ns ns₀ : Nodes Nat} {H : List Nat} {size : Nat}
  {buf : List Byte} {off : Int}

theorem Vol.free_le (v : Vol) : v.free ≤ volSize := by
  refine (Finset.card_filter_le ..).trans ?_
  rw [Finset.card_range]

theorem length_le_volSize {bs : List Nat} (hnodup : bs.Nodup) (hlt : ∀ b ∈ bs, b < volSize) : bs.length ≤ volSize := by
  rw [← List.toFinset_card_of_nodup hnodup, ← Finset.card_range volSize]
  refine Finset.card_le_card fun b hb => ?_
  exact Finset.mem_range.mpr (hlt b (List.mem_toFinset.mp hb))

theorem Laid.length_le (h : Laid v fs) {o : Obj} (ho : fs ino = some o) : o.blocks.length ≤ volSize :=
  length_le_volSize (h.nodup ho) fun _ hb => (h.has ho hb).lt

theorem FileAt.length_le (h : FileAt v ino ns) : (nodesOf ns).length + (itemsOf ns).length ≤ volSize := by
  rw [← List.length_append]
  exact length_le_volSize h.nodup fun b hb => (h.has b hb).lt

theorem FileAt.lt_of_taken {p : Nat} (h : FileAt v ino ns)
    (hfree : taken ns.length (itemsOf ns).length p ≤ v.free) : p < 2 * volSize := by
  have hlen := h.length_le
  have hv := v.free_le
  unfold taken at hfree
  omega

/-- The first node of a file is written with its links as they were. -/
theorem Rep.retouch_file {d : Block} (h : Rep v fs) (ho : fs ino = some (.file ns))
    (hl : d.links = (v.block ino).links) (hm : d.mode ≠ 0) : Rep (v.write ino d) fs := by
  have hhead := (h.laid.shows ho).head
  cases ns with
  | nil => cases hhead
  | cons x rest =>
    obtain ⟨n, ds⟩ := x
    obtain rfl : n = ino := Option.some.inj hhead
    exact h.retouch (file_first ho) hl fun _ => hm

theorem Grows.retouch (h : Grows fs ino v₀ ns₀ v ns) {d : Block} (hl : d.links = (v.block ino).links)
    (hm : d.mode = (v.block ino).mode) : Grows fs ino v₀ ns₀ (v.write ino d) ns := by
  have hself : update fs ino (some (Obj.file ns)) ino = some (.file ns) := update_self ..
  have hmode := (h.rep.laid.shows hself).2.1
  exact h.write (h.rep.retouch_file hself hl (hm ▸ hmode))

theorem locks_self (h : Rep v fs) (ho : fs ino = some (.file ns)) : Locks [ino] ino v ns where
  held l hl := by
    have hhas := h.laid.has ho (h.laid.head_mem ho)
    rw [List.mem_singleton.mp hl]
    exact ⟨hhas.data, hhas.used⟩
  own l hl := .inl (List.mem_singleton.mp hl)

theorem Grows.head_mem (h : Grows fs ino v₀ ns₀ v ns) : ino ∈ (Obj.file ns).blocks :=
  h.rep.laid.head_mem (update_self ..)

theorem Grows.start (h : Grows fs ino v₀ ns₀ v ns) : Pos v ns ⟨ino, 0, v.block ino⟩ 0 := by
  have hhead := (h.rep.laid.shows (i := ino) (update_self ..)).head
  cases ns with
  | nil => cases hhead
  | cons x rest =>
    obtain ⟨n, ds⟩ := x
    obtain rfl : n = ino := Option.some.inj hhead
    exact ⟨[], n, ds, rest, rfl, rfl, rfl, Nat.zero_le _, rfl⟩

theorem Stores.start {sz : Nat} {g : Nat → Byte} (h : Stores fs ino v₀ ns₀ v ns sz g) (times : Block → Block)
    (hl : ∀ b, (times b).links = b.links) (hm : ∀ b, (times b).mode = b.mode) (hs : ∀ b, (times b).size = b.size) :
    Stores fs ino v₀ ns₀ (v.write ino (times (v.block ino))) ns sz g :=
  h.write_head (h.toGrows.retouch (hl _) (hm _)).rep (hm _) ((hs _).trans h.size)

/-- **Writing to a file.** Every block up to the last one touched is there afterwards, and
the file has grown by no more than that. Where its blocks held zeros past its size, it
holds what it held with the bytes laid over. -/
theorem innerWrite_stores (h : Rep v fs) (ho : fs ino = some (.file ns)) (hl : Locks H ino v ns)
    (hoff : size = 0 ∨ 0 ≤ off) (hbuf : size ≤ buf.length)
    (hfree : taken ns.length (itemsOf ns).length (lastBlock off size) ≤ v.free) :
    Does H v (innerWrite ino buf size off) fun r v' => r = (.ok, size) ∧ ∃ ns' g',
      Stores fs ino v ns v' ns' (newFilesize (v.block ino).size size off) g' ∧
      (itemsOf ns').length = max (itemsOf ns).length (lastBlock off size + 1) ∧
      ns'.length = max ns.length (lastBlock off size / 16 + 1) ∧
      (ZeroFrom (byteAt v (itemsOf ns)) 0 (toSigned (v.block ino).size) →
        g' = overlay (byteAt v (itemsOf ns)) off.toNat (buf.take size)) := by
  obtain ⟨q, hq⟩ : ∃ q, off.toNat / 512 = q := ⟨_, rfl⟩
  obtain ⟨r, hr⟩ : ∃ r, (off.toNat % 512 + size - 1) / 512 = r := ⟨_, rfl⟩
  have hlast : lastBlock off size = q + r := by rw [lastBlock, hq, hr]
  have hbound : q + r < loopFuel := by
    rw [← hlast]
    exact Nat.lt_trans ((h.laid.fileAt ho).lt_of_taken hfree) (by decide)
  rw [hlast] at hfree ⊢
  have hgrow := Stores.refl h ho
  rw [innerWrite]
  refine Does.bind (Does.uninit fun inode => Does.bind (Does.uninit fun data => ?_))
  refine (hgrow.safeGet hl hgrow.toGrows.head_mem).bind ?_
  rw [if_neg fun he => by cases he]
  refine Does.bind (Does.time fun atime => Does.bind (Does.time fun mtime => ?_))
  refine (hgrow.safePut hl hgrow.toGrows.head_mem).bind ?_
  rw [if_neg fun hne => hne rfl]
  have hgrow₁ := hgrow.start (fun b => (b.setAtime atime).setMtime mtime) (by simp) (by simp) (by simp)
  have hstart := hgrow₁.toGrows.start
  rw [Vol.write_block_self] at hstart
  have hfree₁ : taken ns.length (itemsOf ns).length (0 + q) ≤ v.free := by
    rw [Nat.zero_add]
    exact Nat.le_trans (taken_le (Nat.le_add_right q r)) hfree
  have hsize : (((v.block ino).setAtime atime).setMtime mtime).size = (v.block ino).size := by simp
  rw [hsize]
  refine Does.bind ((hgrow₁.writeSeek hl hstart hq (by omega) hfree₁).mono ?_)
  rintro _ v₂ ⟨c₂, ns₂, g₂, rfl, h₂, hc₂, hitems₂, hlen₂, hzero₂⟩
  rw [Nat.zero_add] at hc₂ hitems₂ hlen₂
  have hfree₂ := taken_after (Nat.le_add_right q r) hitems₂ hlen₂ h₂.cost hfree
  have hrest : (off - 512 * (q : Nat)).toNat = off.toNat % 512 := by omega
  have hr' : ((off - 512 * (q : Nat)).toNat + size - 1) / 512 = r := by rw [hrest, hr]
  refine Does.bind ((h₂.writeLoop hl hc₂.pos (by omega) (by omega) hbuf hr' (by omega) hfree₂).mono ?_)
  rintro c₃ v₃ ⟨ns₃, g₃, h₃, hitems₃, hlen₃, hzero₃⟩
  refine (h₃.safeGet hl h₃.toGrows.head_mem).bind ((h₃.safePut hl h₃.toGrows.head_mem).bind (Does.pure ?_))
  have hle : q ≤ q + r := Nat.le_add_right q r
  have hnew : newFilesize (v.block ino).size size off < 2 ^ 64 := by
    have hword : (v.block ino).size < 2 ^ 64 := Bytes.u64_lt ..
    unfold newFilesize
    omega
  refine ⟨rfl, ns₃, g₃, ?_, items_trans hle hitems₂ hitems₃, nodes_trans hle hlen₂ hlen₃, fun hz => ?_⟩
  · exact h₃.write_head (h₃.toGrows.retouch (by simp) (by simp)).rep (by simp) (Block.size_setSize _ _ hnew)
  · have hat : 512 * q + (off - 512 * (q : Nat)).toNat = off.toNat := by omega
    have hz₂ : ZeroFrom g₂ q (toSigned (v.block ino).size - 512 * (q : Nat)) := by
      rw [hzero₂ hz]
      exact hz.later (Nat.zero_le q) (by omega)
    rw [hzero₃ hz₂, hzero₂ hz, hat]

theorem write_does (h : Rep v fs) (ho : fs ino = some (.file ns)) (hoff : size = 0 ∨ 0 ≤ off)
    (hbuf : size ≤ buf.length) (hfree : taken ns.length (itemsOf ns).length (lastBlock off size) ≤ v.free) :
    Does [] v (write ino buf size off) fun r v' => r = (.ok, size) ∧ ∃ ns', Grows fs ino v ns v' ns' := by
  refine Does.withLock List.not_mem_nil ((innerWrite_stores h ho (locks_self h ho) hoff hbuf hfree).mono ?_)
  rintro r v' ⟨hr, ns', g', hstores, -⟩
  exact ⟨hr, ns', hstores.toGrows⟩

end

/-! ### `setattr` -/

section
variable {fs : Tree} {ino : Nat} {v v₁ : Vol} {ns ns₁ : Nodes Nat} {d : Block}

/-- What `setattr` leaks: nothing, where the first node is followed by another or has the
block already that `inner_write` is to touch. -/
def KeepsBlocks (ns : Nodes Nat) (p : Nat) : Prop := 1 < ns.length ∨ p < (itemsOf ns).length

/-- The first node of a grown file is written back as it was before it grew: where it is the
only node, what it had gained is lost. -/
theorem Grows.write_back (h : Rep v fs) (ho : fs ino = some (.file ns)) (hg : Grows fs ino v ns v₁ ns₁)
    (hl : d.links = (v.block ino).links) (hm : d.mode = (v.block ino).mode) :
    Rep (v₁.write ino d) (update fs ino (some (.file (if 1 < ns.length then ns₁ else ns)))) := by
  obtain ⟨n, ds, rest, ds₁, rest₁, rfl, rfl, hpre, hrest⟩ := hg.head
  have hshows := h.laid.shows ho
  obtain rfl : n = ino := Option.some.inj hshows.head
  have hmode : d.mode ≠ 0 := hm ▸ hshows.2.1
  obtain ⟨hshow, hnext⟩ := h.file_node (file_first ho)
  have hshow' : FileShows d ds := hshow.of_links hl
  have hnext' : d.next = firstOf rest := (Block.next_of_links hl).trans hnext
  by_cases hone : rest = []
  · subst hone
    rw [if_neg (by simp)]
    have hshows' : Shows (v₁.write n d) n (.file [(n, ds)]) := by
      refine ⟨rfl, ?_, ⟨?_, ?_, trivial⟩, nofun⟩ <;> rwa [Vol.write_block_self]
    have hrep := hg.rep.exchange_file (update_self ..) (by simp) hshows' ?_ (h.laid.nodup ho)
    · rwa [update_idem] at hrep
    · intro c hc
      refine .inl ?_
      simp only [Obj.blocks, Obj.nodes, Obj.datas, nodesOf_cons, itemsOf_cons, List.mem_append, List.mem_cons,
        nodesOf_nil, itemsOf_nil, List.not_mem_nil, or_false] at hc ⊢
      cases hc with
      | inl hc => exact .inl (.inl hc)
      | inr hc => exact .inr (.inl (hpre.subset hc))
  · obtain ⟨rfl, -, hfirst⟩ := hrest hone
    rw [if_pos (by rw [List.length_cons]; have := List.length_pos_iff.mpr hone; omega)]
    exact hg.rep.rewrite (file_first (update_self ..)) hshow' (hnext'.trans hfirst.symm) fun _ => hmode

theorem KeepsHead.eq_of_length (h : KeepsHead ns ns₁) (hns : ns.length = 1) (hlen : ns₁.length = 1)
    (hitems : (itemsOf ns₁).length = (itemsOf ns).length) : ns₁ = ns := by
  obtain ⟨n, ds, rest, ds₁, rest₁, rfl, rfl, hpre, -⟩ := h
  obtain rfl : rest = [] := List.eq_nil_of_length_eq_zero (by simpa using hns)
  obtain rfl : rest₁ = [] := List.eq_nil_of_length_eq_zero (by simpa using hlen)
  simp only [itemsOf_cons, itemsOf_nil, List.append_nil] at hitems
  rw [hpre.eq_of_length hitems.symm]

/-- The inode that `setattr` writes when it is asked for a size. -/
def Block.setInfo (b : Block) (info : FileInfo) : Block :=
  (((b.setAtime info.atime).setMtime info.mtime).setCtime info.ctime).setSize info.size

/-- **`setattr` without a size** writes the times. -/
theorem setattr_times {info : FileInfo} (h : Rep v fs) (ho : fs ino = some (.file ns)) :
    Gives [] v (setattr ino false info) .ok
      (v.write ino ((((v.block ino).setAtime info.atime).setMtime info.mtime).setCtime info.ctime)) := by
  have hgrow := Grows.refl h ho
  have hl := locks_self h ho
  rw [setattr]
  refine Does.withLock List.not_mem_nil (Does.bind (Does.uninit fun buf => ?_))
  refine (hgrow.safeGet hl hgrow.head_mem).bind ?_
  dsimp only
  rw [if_neg Bool.false_ne_true]
  exact (Gives.pure _).bind ((hgrow.safePut hl hgrow.head_mem).bind (Gives.pure _))

/-- **`setattr` with a size.** The file grows to have the block at the size, and then its
first node is written as it was before, with the attributes. -/
theorem setattr_size {info : FileInfo} (h : Rep v fs) (ho : fs ino = some (.file ns))
    (hfree : taken ns.length (itemsOf ns).length (lastBlock (toSigned info.size) 0) ≤ v.free) :
    Does [] v (setattr ino true info) fun r v' => r = .ok ∧ ∃ v₁ ns₁ sz g,
    v' = v₁.write ino ((v.block ino).setInfo info) ∧
      Stores fs ino v ns v₁ ns₁ sz g ∧
      (itemsOf ns₁).length = max (itemsOf ns).length (lastBlock (toSigned info.size) 0 + 1) ∧
      ns₁.length = max ns.length (lastBlock (toSigned info.size) 0 / 16 + 1) ∧
      (ZeroFrom (byteAt v (itemsOf ns)) 0 (toSigned (v.block ino).size) → g = byteAt v (itemsOf ns)) := by
  have hgrow := Grows.refl h ho
  have hl := locks_self h ho
  rw [setattr]
  refine Does.withLock List.not_mem_nil (Does.bind (Does.uninit fun buf => ?_))
  refine (hgrow.safeGet hl hgrow.head_mem).bind ?_
  dsimp only
  rw [if_pos rfl]
  refine Does.bind (Does.bind ((innerWrite_stores h ho hl (.inl rfl) (Nat.zero_le _) hfree).mono ?_))
  rintro r v₁ ⟨-, ns₁, g, hs, hitems, hlen, hzero⟩
  refine Does.pure
    ((hs.safePut hl hs.toGrows.head_mem).bind (Does.pure ⟨rfl, v₁, ns₁, _, g, rfl, hs, hitems, hlen, ?_⟩))
  intro hz
  rw [hzero hz, List.take_zero, overlay_nil]

/-- **`setattr`** leaves the file laid out. It leaks nothing where it writes no size, or where
the first node keeps the blocks that `inner_write` takes. -/
theorem setattr_does {toSet : Bool} {info : FileInfo} (h : Rep v fs) (ho : fs ino = some (.file ns))
    (hfree : toSet = true →
      taken ns.length (itemsOf ns).length (lastBlock (toSigned info.size) 0) ≤ v.free) :
    Does [] v (setattr ino toSet info) fun r v' => r = .ok ∧ ∃ ns',
      Rep v' (update fs ino (some (.file ns'))) ∧
      ((toSet = true → KeepsBlocks ns (lastBlock (toSigned info.size) 0)) →
        ∀ b, Leaked v' (update fs ino (some (.file ns'))) b → Leaked v fs b) := by
  cases toSet with
  | false =>
    refine (setattr_times h ho).mono ?_
    rintro _ _ ⟨rfl, rfl⟩
    have hgrow := (Grows.refl h ho).retouch (d := (((v.block ino).setAtime info.atime).setMtime info.mtime).setCtime
      info.ctime) (by simp) (by simp)
    exact ⟨rfl, ns, hgrow.rep, fun _ => hgrow.leak⟩
  | true =>
    refine (setattr_size h ho (hfree rfl)).mono ?_
    rintro r _ ⟨hr, v₁, ns₁, sz, g, rfl, hs, hitems, hlen, -⟩
    have hrep := hs.toGrows.write_back h ho (d := (v.block ino).setInfo info) (by simp [Block.setInfo])
      (by simp [Block.setInfo])
    refine ⟨hr, _, hrep, fun hkeep => ?_⟩
    have hsame : (if 1 < ns.length then ns₁ else ns) = ns₁ := by
      split
      · rfl
      · next hone =>
        have hblock := (hkeep rfl).resolve_left hone
        have hns : ns.length = 1 ∧ (itemsOf ns).length ≤ 16 := by
          obtain ⟨n, ds, rest, -, -, rfl, -⟩ := hs.head
          rw [List.length_cons] at hone
          obtain rfl : rest = [] := List.eq_nil_of_length_eq_zero (by omega)
          have hfits := (h.file_node (file_first ho)).1.fits
          exact ⟨rfl, by simpa using hfits⟩
        exact (hs.head.eq_of_length hns.1 (by omega) (by omega)).symm
    rw [hsame] at hrep ⊢
    exact (hs.write hrep).leak

end

end Yfs.Fs

import Yfs.Fs.Files

/-! Making and removing entries keeps the volume laid out.

`create` and `mkdir` walk along the nodes of a directory to the first that has room, and
append a node where all of them are full; then a block is taken for the new file or
directory and an entry for it is written. `symlink` is a `create` and a write to the new
file. `unlink` writes the node that has the name back without that entry, and then walks
along the nodes of the file and frees every block of it. -/
namespace Yfs.Fs
open Yfs.Base
open Function (update update_comm update_eq_self_iff update_idem update_of_ne update_self)

/-! ### The nodes of a directory -/

section
variable {v : Vol} {fs : Tree} {p n i : Nat} {pre post : Nodes Entry} {es : List Entry} {d : Block}

theorem Block.length_entries (b : Block) : b.entries.length = b.size := by
  rw [Block.entries, List.length_map, List.length_range]

theorem DirShows.size {b : Block} (h : DirShows b es) : b.size = es.length := by
  rw [← h.entries, Block.length_entries]

theorem DirShows.of_links {b b' : Block} (h : DirShows b es) (hl : b'.links = b.links) (hs : b'.size = b.size) :
    DirShows b' es where
  entries := by
    have hsize := h.size
    have hfits := h.fits
    rw [Block.entries_of_links hl hs (by omega), h.entries]
  fits := h.fits

theorem dirShows_new {b : Block} (h : b.size = 0) : DirShows b [] where
  entries := by rw [Block.entries, h]; rfl
  fits := Nat.zero_le _

namespace Shows

theorem dir_node (h : Shows v p (.dir (pre ++ (n, es) :: post))) :
    DirShows (v.block n) es ∧ (v.block n).next = firstOf post := by
  obtain ⟨_, _, hc⟩ := h
  exact ⟨hc.split.1, hc.split.2.1⟩

/-- A directory with one node written, and from there on other nodes. -/
theorem write_dir {es' : List Entry} {post' : Nodes Entry} (h : Shows v p (.dir (pre ++ (n, es) :: post)))
    (hnodup : (nodesOf (pre ++ (n, es) :: post)).Nodup) (hd : DirShows d es') (hnext : d.next = firstOf post')
    (hm : d.mode = (v.block n).mode) (hpost : Chained (v.write n d) DirShows post') :
    Shows (v.write n d) p (.dir (pre ++ (n, es') :: post')) := by
  obtain ⟨hhead, hmode, hc⟩ := h
  have hne := fun m hm => ne_of_nodup_nodesOf (m := m) hnodup (.inl hm)
  refine ⟨?_, ?_, hc.splice (fun m hm => Vol.write_block_ne (hne m hm)) ⟨?_, ?_, hpost⟩⟩
  · rw [← hhead]
    cases pre <;> rfl
  · rw [mode_write_block hm]
    exact hmode
  · rw [Vol.write_block_self]
    exact hd
  · rw [Vol.write_block_self]
    exact hnext

theorem rewrite_dir {es' : List Entry} (h : Shows v p (.dir (pre ++ (n, es) :: post)))
    (hnodup : (nodesOf (pre ++ (n, es) :: post)).Nodup) (hd : DirShows d es') (hnext : d.next = (v.block n).next)
    (hm : d.mode = (v.block n).mode) : Shows (v.write n d) p (.dir (pre ++ (n, es') :: post)) := by
  refine h.write_dir hnodup hd (hnext.trans h.dir_node.2) hm ?_
  obtain ⟨_, _, hc⟩ := h
  exact hc.split.2.2.congr fun m hm => Vol.write_block_ne (ne_of_nodup_nodesOf hnodup (.inr hm))

/-- A node of a directory is written with its links, its size and its mode as they were. -/
theorem retouch_dir (h : Shows v p (.dir (pre ++ (n, es) :: post)))
    (hnodup : (nodesOf (pre ++ (n, es) :: post)).Nodup) (hl : d.links = (v.block n).links)
    (hs : d.size = (v.block n).size) (hm : d.mode = (v.block n).mode) :
    Shows (v.write n d) p (.dir (pre ++ (n, es) :: post)) :=
  h.rewrite_dir hnodup (h.dir_node.1.of_links hl hs) (Block.next_of_links hl) hm

/-- The last node of a directory gets a next node, a block of zeros. -/
theorem add_dir_node (h : Shows v p (.dir (pre ++ [(n, es)]))) (hnodup : (nodesOf (pre ++ [(n, es)])).Nodup)
    (hi : i < 2 ^ 64) (hni : n ≠ i) (hnew : v.block i = Bytes.zero) :
    Shows (v.write n ((v.block n).setNext i)) p (.dir (pre ++ [(n, es), (i, [])])) := by
  obtain ⟨hshow, -⟩ := h.dir_node
  refine h.write_dir hnodup ⟨?_, hshow.fits⟩ ?_ (Block.mode_setNext ..) ⟨?_, ?_, trivial⟩
  · rw [Block.entries_setNext _ _ (by rw [hshow.size]; exact hshow.fits), hshow.entries]
  · rw [Block.next_setNext _ _ hi]
    rfl
  · rw [Vol.write_block_ne hni.symm, hnew]
    exact dirShows_new (Bytes.u64_zero _)
  · rw [Vol.write_block_ne hni.symm, hnew]
    exact Bytes.u64_zero _

end Shows

namespace Rep

theorem dir_node (h : Rep v fs) (ho : fs p = some (.dir (pre ++ (n, es) :: post))) :
    DirShows (v.block n) es ∧ (v.block n).next = firstOf post :=
  (h.laid.shows ho).dir_node

theorem dir_has (h : Rep v fs) (ho : fs p = some (.dir (pre ++ (n, es) :: post))) : v.Has n :=
  h.laid.has ho (Obj.mem_blocks_of_node (by simp [Obj.nodes]))

/-- A node of a directory is written with its links, its size and its mode as they were. -/
theorem retouch_dir (h : Rep v fs) (ho : fs p = some (.dir (pre ++ (n, es) :: post)))
    (hl : d.links = (v.block n).links) (hs : d.size = (v.block n).size) (hm : d.mode = (v.block n).mode) :
    Rep (v.write n d) fs :=
  h.write_same ho (Obj.mem_blocks_of_node (by simp [Obj.nodes]))
    ((h.laid.shows ho).retouch_dir (h.laid.nodup_nodes ho) hl hs hm)

theorem add_dir_node (h : Rep v fs) (ho : fs p = some (.dir (pre ++ [(n, es)]))) (hi : v.Fresh i) :
    Rep ((v.alloc i Bytes.zero).write n ((v.block n).setNext i))
      (update fs p (some (.dir (pre ++ [(n, es), (i, [])])))) := by
  have hmem : n ∈ nodesOf (pre ++ [(n, es)]) := by simp
  have hown := h.laid.fresh_not_owned hi
  have hni : n ≠ i := fun e => hown ⟨p, _, ho, e ▸ Obj.mem_blocks_of_node hmem⟩
  have halloc : Rep (v.alloc i Bytes.zero) fs := h.alloc hi
  have hnodes : nodesOf (pre ++ [(n, es), (i, [])]) = nodesOf (pre ++ [(n, es)]) ++ [i] := by simp
  have hshows := (halloc.laid.shows ho).add_dir_node (halloc.laid.nodup_nodes ho) hi.lt_word hni Vol.alloc_block_self
  rw [Vol.alloc_block_ne hni] at hshows
  refine halloc.exchange_dir ho hmem hshows ?_ ?_ (by simp)
  · intro c hc
    rw [hnodes, List.mem_append, List.mem_singleton] at hc
    refine hc.imp_right fun e => ?_
    rw [e]
    exact ⟨hi.has h.formatted, hi.ne_zero h.formatted, hown⟩
  · rw [hnodes, List.nodup_append]
    refine ⟨h.laid.nodup_nodes ho, List.nodup_singleton i, ?_⟩
    intro c hc c' hc' e
    rw [List.mem_singleton.mp hc'] at e
    exact hown ⟨p, _, ho, e ▸ Obj.mem_blocks_of_node hc⟩

end Rep
end
/-! ### Looking for a name -/

/-- A C string that fits a directory entry. -/
structure ValidName (s : List Byte) : Prop where
  fits : s.length < 64
  terminated : (0 : Byte) ∉ s

theorem zero_notMem_cStr (name : List Byte) : (0 : Byte) ∉ cStr name := by
  intro h0
  have := List.mem_takeWhile_imp h0
  simp at this

theorem validName_cStr {name : List Byte} (h : name.length ≤ 63) : ValidName (cStr name) where
  fits := Nat.lt_succ_of_le (Nat.le_trans (List.takeWhile_prefix _).length_le h)
  terminated := zero_notMem_cStr name

theorem ValidName.not_overrun {s : List Byte} (hs : ValidName s) : ¬ 183 < s.length := by
  have := hs.fits
  omega

theorem ValidName.next_putEntry {s : List Byte} {b : Block} (hs : ValidName s) (hb : b.size < 5) (i : Nat) :
    (b.putEntry i b.size s).next = b.next :=
  Block.next_putEntry b i hb (Nat.lt_trans hs.fits (by decide))

section
variable {v : Vol} {H : List Nat} {b : Block} {s : List Byte}

theorem Block.mem_entries {j : Nat} (hj : j < b.size) : (b.name j, b.inum j) ∈ b.entries :=
  List.mem_map.mpr ⟨j, List.mem_range.mpr hj, rfl⟩

/-- `s` can be compared with the names of these entries: it ends, or they do, within the
bytes of a name. -/
structure Comparable (s : List Byte) (es : List Entry) : Prop where
  terminated : (0 : Byte) ∉ s
  fits : s.length < 64 ∨ ∀ e ∈ es, e.1.length < 64

theorem ValidName.comparable {es : List Entry} (hs : ValidName s) : Comparable s es := ⟨hs.terminated, .inl hs.fits⟩

/-- `s` can be compared with these entries as they are read: it ends, or they do, within the
bytes of an entry. -/
structure Readable (s : List Byte) (es : List Entry) : Prop where
  terminated : (0 : Byte) ∉ s
  ends : ∀ e ∈ es, s.length < 72 ∨ e.1.length < 64 ∨ e.2 < 256 ^ 7

theorem Readable.subset {es es' : List Entry} (hs : Readable s es) (h : ∀ e ∈ es', e ∈ es) : Readable s es' :=
  ⟨hs.terminated, fun e he => hs.ends e (h e he)⟩

theorem Comparable.readable {es : List Entry} (hs : Comparable s es) : Readable s es where
  terminated := hs.terminated
  ends e he := by
    cases hs.fits with
    | inl hlen => exact .inl (Nat.lt_trans hlen (by decide))
    | inr hes => exact .inr (.inl (hes e he))

theorem Comparable.asRead_iff {es : List Entry} {e : Entry} (hs : Comparable s es) (he : e ∈ es) :
    asRead e = s ↔ e.1 = s := by
  cases hs.fits with
  | inl hlen => exact asRead_short hlen
  | inr hes => rw [asRead, if_pos (hes e he)]

/-- The loop over the entries of a node, where each of them can be compared. -/
theorem findEntry_from {P : Nat → Bool} {fuel i : Nat}
    (hP : ∀ j < b.size, b.streq (entryOffset j) s = some (P j)) (hfuel : b.size < fuel + i) (hi : i ≤ b.size) :
    findEntry b s fuel i = pure ((List.range' i (b.size - i)).find? P) := by
  induction fuel generalizing i with
  | zero => omega
  | succ fuel ih =>
    rw [findEntry]
    split
    · next hlt =>
      rw [hP i hlt, show b.size - i = b.size - (i + 1) + 1 by omega, List.range'_succ, List.find?_cons]
      cases P i with
      | true => rfl
      | false => exact ih (by omega) hlt
    · next hge =>
      rw [show b.size - i = 0 by omega]
      rfl

theorem findEntry_find {P : Nat → Bool} (hb : b.size ≤ 5)
    (hP : ∀ j < b.size, b.streq (entryOffset j) s = some (P j)) :
    findEntry b s loopFuel 0 = pure ((List.range b.size).find? P) := by
  rw [findEntry_from hP (Nat.lt_of_le_of_lt hb (by decide)) (Nat.zero_le _), Nat.sub_zero, List.range_eq_range']

theorem findEntry_eq (hb : b.size ≤ 5) (hs : Readable s b.entries) :
    ∃ r, findEntry b s loopFuel 0 = pure r ∧
      ((r = none ∧ ∀ j < b.size, asRead (b.entry j) ≠ s) ∨ ∃ k < b.size, r = some k ∧ asRead (b.entry k) = s) := by
  have hP : ∀ j < b.size, b.streq (entryOffset j) s = some (decide (asRead (b.entry j) = s)) := by
    intro j hj
    exact Block.streq_entry b (by omega) (hs.ends _ (Block.mem_entries hj)) hs.terminated
  refine ⟨_, findEntry_find hb hP, ?_⟩
  cases hfind : (List.range b.size).find? fun j => decide (asRead (b.entry j) = s) with
  | none =>
    refine .inl ⟨rfl, fun j hj heq => ?_⟩
    exact List.find?_eq_none.mp hfind j (List.mem_range.mpr hj) (decide_eq_true heq)
  | some k =>
    have hk := List.find?_some hfind
    simp only [decide_eq_true_eq] at hk
    exact .inr ⟨k, List.mem_range.mp (List.mem_of_find?_eq_some hfind), rfl, hk⟩

theorem findEntry_does (hb : b.size ≤ 5) (hs : Readable s b.entries) :
    Does H v (findEntry b s loopFuel 0) fun r v' => v' = v ∧
      ((r = none ∧ ∀ j < b.size, asRead (b.entry j) ≠ s) ∨ ∃ k < b.size, r = some k ∧ asRead (b.entry k) = s) := by
  obtain ⟨r, hr, hspec⟩ := findEntry_eq hb hs
  rw [hr]
  exact Does.pure ⟨rfl, hspec⟩

/-- No entry is found for a name that no entry has. -/
theorem findDup_none {name : Option (List Byte)} (hb : b.size ≤ 5)
    (hname : ∀ s, name = some s → ∀ j < b.size, b.streq (entryOffset j) s = some false) :
    Gives H v (findDup b name) none v := by
  cases name with
  | none => exact Gives.pure none
  | some s =>
    have hno : (List.range b.size).find? (fun _ => false) = none := List.find?_eq_none.mpr fun _ _ => Bool.false_ne_true
    rw [findDup, findEntry_find hb (hname s rfl), hno]
    exact Gives.pure none

end

theorem Rep.inum_lt {v : Vol} {fs : Tree} {p : Nat} {ns : Nodes Entry} {e : Entry} (h : Rep v fs)
    (ho : fs p = some (.dir ns)) (he : e ∈ itemsOf ns) : e.2 ≠ 0 ∧ e.2 < volSize := by
  have hkid : e.2 ∈ kids fs p := by
    rw [kids_of_some ho]
    exact List.mem_map_of_mem he
  obtain ⟨o, hchild⟩ := Option.ne_none_iff_exists'.mp (h.tree.has_kid p e.2 hkid)
  have hmem := h.laid.head_mem hchild
  exact ⟨h.laid.ne_zero hchild hmem, (h.laid.has hchild hmem).lt⟩

theorem Rep.streq {v : Vol} {fs : Tree} {p n j : Nat} {s : List Byte} {pre post : Nodes Entry}
    {es : List Entry} (h : Rep v fs) (ho : fs p = some (.dir (pre ++ (n, es) :: post))) (h0 : (0 : Byte) ∉ s)
    (hj : j < (v.block n).size) :
    (v.block n).streq (entryOffset j) s = some (decide (asRead ((v.block n).entry j) = s)) := by
  obtain ⟨hshow, -⟩ := h.dir_node ho
  have hmem : (v.block n).entry j ∈ itemsOf (pre ++ (n, es) :: post) := by
    have hes := Block.mem_entries hj
    rw [hshow.entries] at hes
    simp only [itemsOf_append, itemsOf_cons, List.mem_append]
    exact .inr (.inl hes)
  have hsize := hshow.size.trans_le hshow.fits
  exact Block.streq_entry _ (by omega) (.inr (.inr (Nat.lt_trans (h.inum_lt ho hmem).2 (by decide)))) h0

/-! ### Finding room -/

/-- From the volume `v₀`, with the nodes `ns₀`, the directory `p` of the tree has got more
nodes and no other entries. -/
structure Widens (fs : Tree) (p : Nat) (v₀ : Vol) (ns₀ : Nodes Entry) (v : Vol)
    (ns : Nodes Entry) : Prop where
  rep : Rep v (update fs p (some (.dir ns)))
  items : itemsOf ns = itemsOf ns₀
  used : ∀ b, v₀.used b = true → v.used b = true
  leak : ∀ b, Leaked v (update fs p (some (.dir ns))) b → Leaked v₀ fs b
  cost : v.free + ns.length = v₀.free + ns₀.length

namespace Widens
variable {fs : Tree} {p n i : Nat} {v₀ v : Vol} {ns₀ ns pre post : Nodes Entry} {es : List Entry}

theorem refl (h : Rep v fs) (ho : fs p = some (.dir ns)) : Widens fs p v ns v ns := by
  have heq : update fs p (some (Obj.dir ns)) = fs := update_eq_self_iff.mpr ho.symm
  exact ⟨by rwa [heq], rfl, fun _ hb => hb, fun b hb => by rwa [heq] at hb, rfl⟩

theorem add_node (h : Rep v fs) (ho : fs p = some (.dir (pre ++ [(n, es)]))) (hi : v.Fresh i) :
    Widens fs p v (pre ++ [(n, es)]) ((v.alloc i Bytes.zero).write n ((v.block n).setNext i))
      (pre ++ [(n, es), (i, [])]) where
  rep := h.add_dir_node ho hi
  items := by simp
  used b hb := Vol.alloc_used_of_used hb
  leak b hb := by
    refine hb.of_step (fun x hx => ?_) fun x hx => owned_update ho (fun c hc => ?_) hx
    · by_cases hxi : x = i
      · exact .inr ⟨p, _, update_self .., by simp [hxi, Obj.blocks, Obj.nodes]⟩
      · exact .inl ((Vol.alloc_used_ne hxi).symm.trans hx)
    · simp only [Obj.blocks, Obj.nodes, Obj.datas, nodesOf_append, nodesOf_cons, List.append_nil,
        List.mem_append, List.mem_cons] at hc ⊢
      tauto
  cost := by
    have hfree : ((v.alloc i Bytes.zero).write n ((v.block n).setNext i)).free + 1 = v.free := Vol.free_alloc hi
    simp only [List.length_append, List.length_cons, List.length_nil]
    omega

end Widens

section
variable {fs : Tree} {p n : Nat} {v : Vol} {ns pre post : Nodes Entry} {es : List Entry}
  {name : Option (List Byte)} {check : Bool}

/-- No entry is read as the name, where a name is looked for. -/
def Absent (name : Option (List Byte)) (ns : Nodes Entry) : Prop :=
  ∀ s, name = some s → (0 : Byte) ∉ s ∧ ∀ e ∈ itemsOf ns, asRead e ≠ s

theorem ValidName.absent {s : List Byte} (hs : ValidName s) (hno : ∀ e ∈ itemsOf ns, e.1 ≠ s) :
    Absent (some s) ns := by
  rintro _ ⟨⟩
  exact ⟨hs.terminated, fun e he heq => hno e he ((asRead_short hs.fits).mp heq)⟩

theorem lock_self {b : Nat} : b = p ∨ b ∉ [p] := by
  by_cases h : b = p
  · exact .inl h
  · exact .inr fun hm => h (List.mem_singleton.mp hm)

theorem Rep.heldUsed (h : Rep v fs) {o : Obj} (ho : fs p = some o) : HeldUsed [p] v := fun l hl => by
  have hhas := h.laid.has ho (h.laid.head_mem ho)
  rw [List.mem_singleton.mp hl]
  exact ⟨hhas.data, hhas.used⟩

theorem Rep.findDup_none (h : Rep v fs) (ho : fs p = some (.dir (pre ++ (n, es) :: post)))
    (hname : Absent name (pre ++ (n, es) :: post)) {H : List Nat} :
    Gives H v (findDup (v.block n) name) none v := by
  obtain ⟨hshow, -⟩ := h.dir_node ho
  refine Fs.findDup_none (hshow.size.trans_le hshow.fits) fun s hs j hj => ?_
  obtain ⟨h0, hno⟩ := hname s hs
  rw [h.streq ho h0 hj, decide_eq_false (hno _ ?_)]
  have hes := Block.mem_entries hj
  rw [hshow.entries] at hes
  simp only [itemsOf_append, itemsOf_cons, List.mem_append]
  exact .inr (.inl hes)

theorem roomLoop_next {fuel tmp m : Nat} {es' : List Entry} {rest : Nodes Entry} {Q : Room → Vol → Prop}
    (h : Rep v fs) (ho : fs p = some (.dir (pre ++ (n, es) :: (m, es') :: rest)))
    (hname : Absent name (pre ++ (n, es) :: (m, es') :: rest)) (hfull : 5 ≤ es.length)
    (hloop : Does [p] v (roomLoop p name check fuel tmp m (v.block m)) Q) :
    Does [p] v (roomLoop p name check (fuel + 1) tmp n (v.block n)) Q := by
  obtain ⟨hshow, hnext⟩ := h.dir_node ho
  rw [roomLoop, if_pos (by rw [hshow.size]; exact hfull)]
  refine (h.findDup_none ho hname).bind ?_
  rw [List.append_cons] at ho
  have hm0 : m ≠ 0 := h.laid.ne_zero ho (Obj.mem_blocks_of_node (by simp [Obj.nodes]))
  dsimp only
  rw [hnext, firstOf_cons, if_pos hm0]
  exact (Gives.safeGet (h.heldUsed ho).offBitmap (h.dir_has ho) lock_self).bind hloop

/-- Where a node has room the loop ends at the first one. -/
theorem roomLoop_room {fuel tmp : Nat} (h : Rep v fs) (ho : fs p = some (.dir (pre ++ (n, es) :: post)))
    (hname : Absent name (pre ++ (n, es) :: post)) (hroom : ∃ x ∈ (n, es) :: post, x.2.length < 5)
    (hfuel : post.length < fuel) :
    Does [p] v (roomLoop p name check fuel tmp n (v.block n)) fun r v' => v' = v ∧ ∃ pre' n' es' post',
      r = .blank tmp n' (v.block n') ∧ pre ++ (n, es) :: post = pre' ++ (n', es') :: post' ∧ es'.length < 5 := by
  induction post generalizing pre n es fuel with
  | nil =>
    obtain ⟨fuel, rfl⟩ : ∃ f, fuel = f + 1 := ⟨fuel - 1, by omega⟩
    obtain ⟨x, hx, hlt⟩ := hroom
    rw [List.mem_singleton.mp hx] at hlt
    obtain ⟨hshow, -⟩ := h.dir_node ho
    rw [roomLoop, if_neg (by rw [hshow.size]; exact Nat.not_le.mpr hlt)]
    exact Does.pure ⟨rfl, pre, n, es, [], rfl, rfl, hlt⟩
  | cons x rest ih =>
    obtain ⟨m, es'⟩ := x
    obtain ⟨fuel, rfl⟩ : ∃ f, fuel = f + 1 := ⟨fuel - 1, by omega⟩
    by_cases hlt : es.length < 5
    · obtain ⟨hshow, -⟩ := h.dir_node ho
      rw [roomLoop, if_neg (by rw [hshow.size]; exact Nat.not_le.mpr hlt)]
      exact Does.pure ⟨rfl, pre, n, es, (m, es') :: rest, rfl, rfl, hlt⟩
    · refine roomLoop_next h ho hname (Nat.not_lt.mp hlt) ?_
      rw [List.append_cons] at ho hname ⊢
      refine ih ho hname ?_ (by simp only [List.length_cons] at hfuel; omega)
      obtain ⟨x, hx, hxlt⟩ := hroom
      refine ⟨x, (List.mem_cons.mp hx).resolve_left fun e => hlt ?_, hxlt⟩
      rwa [e] at hxlt

def AllFull (ns : Nodes Entry) : Prop := ∀ x ∈ ns, 5 ≤ x.2.length

instance (ns : Nodes Entry) : Decidable (AllFull ns) := inferInstanceAs (Decidable (∀ x ∈ ns, _))

/-- The blocks that are taken to have room for an entry. -/
def roomCost (ns : Nodes Entry) : Nat := if AllFull ns then 1 else 0

def Found (v : Vol) (ns : Nodes Entry) (r : Room) : Prop :=
  ∃ tmp pre n es post, r = .blank tmp n (v.block n) ∧ ns = pre ++ (n, es) :: post ∧ es.length < 5

/-- What is done to have room for an entry: nothing, or where all nodes are full a new one
is put behind the last. -/
inductive MakesRoom (v : Vol) : Nodes Entry → Vol → Nodes Entry → Prop where
  | enough {ns : Nodes Entry} (h : ¬ AllFull ns) : MakesRoom v ns v ns
  | node {pre : Nodes Entry} {n i : Nat} {es : List Entry} (h : AllFull (pre ++ [(n, es)]))
      (hi : v.Fresh i) :
      MakesRoom v (pre ++ [(n, es)]) ((v.alloc i Bytes.zero).write n ((v.block n).setNext i))
        (pre ++ [(n, es), (i, [])])

namespace MakesRoom
variable {v' : Vol} {ns' : Nodes Entry}

theorem widens (hr : MakesRoom v ns v' ns') (h : Rep v fs) (ho : fs p = some (.dir ns)) :
    Widens fs p v ns v' ns' := by
  cases hr with
  | enough => exact .refl h ho
  | node _ hi => exact .add_node h ho hi

/-- The nodes of the directory were its nodes, or blocks not in use. -/
theorem nodes (hr : MakesRoom v ns v' ns') {b : Nat} (hb : b ∈ nodesOf ns') : b ∈ nodesOf ns ∨ v.used b = false := by
  cases hr with
  | enough => exact .inl hb
  | node _ hi =>
    simp only [nodesOf_append, nodesOf_cons, nodesOf_nil, List.mem_append, List.mem_cons, List.not_mem_nil,
      or_false] at hb ⊢
    obtain hb | hb | rfl := hb
    · exact .inl (.inl hb)
    · exact .inl (.inr hb)
    · exact .inr hi.unused

/-- What is in use apart from the nodes of the directory is left alone. -/
theorem frame (hr : MakesRoom v ns v' ns') {b : Nat} (hb : v.used b = true) (hn : b ∉ nodesOf ns) :
    v'.block b = v.block b ∧ v'.used b = true := by
  cases hr with
  | enough => exact ⟨rfl, hb⟩
  | @node _ n i _ _ hi =>
    have hbn : b ≠ n := by
      rintro rfl
      simp at hn
    rw [Vol.write_block_ne hbn, Vol.alloc_block_ne (Vol.ne_of_used hb hi.unused)]
    exact ⟨rfl, Vol.alloc_used_of_used hb⟩

theorem length (hr : MakesRoom v ns v' ns') : ns'.length = ns.length + roomCost ns := by
  cases hr with
  | enough hfull => rw [roomCost, if_neg hfull, Nat.add_zero]
  | node hfull _ =>
    rw [roomCost, if_pos hfull]
    simp

end MakesRoom

/-- Where all nodes are full a new one is put behind the last, and the loop ends there. -/
theorem roomLoop_full {fuel tmp : Nat} (h : Rep v fs) (ho : fs p = some (.dir (pre ++ (n, es) :: post)))
    (hname : Absent name (pre ++ (n, es) :: post)) (hfull : AllFull (pre ++ (n, es) :: post))
    (hfuel : post.length + 2 < fuel) (hfree : 0 < v.free) :
    Does [p] v (roomLoop p name check fuel tmp n (v.block n)) fun r v' => ∃ ns',
      MakesRoom v (pre ++ (n, es) :: post) v' ns' ∧ Found v' ns' r := by
  obtain ⟨fuel, rfl⟩ : ∃ f, fuel = f + 1 := ⟨fuel - 1, by omega⟩
  induction post generalizing pre n es fuel with
  | nil =>
    obtain ⟨hshow, hnext⟩ := h.dir_node ho
    have hn := h.dir_has ho
    rw [roomLoop, if_pos (by rw [hshow.size]; exact hfull (n, es) (by simp))]
    refine (h.findDup_none ho hname).bind ?_
    dsimp only
    rw [hnext, if_neg fun hne => hne rfl]
    refine Does.bind ((Does.alloc hfree h.formatted (h.heldUsed ho)).mono ?_)
    rintro _ _ ⟨i, hi, rfl, rfl⟩
    rw [if_neg fun hbad => hbad.2 rfl]
    have hn' : (v.alloc i Bytes.zero).Has n := ⟨Vol.alloc_used_of_used hn.used, hn.data, hn.lt⟩
    refine (Gives.safePut (h.heldUsed ho).offBitmap hn' lock_self).bind ?_
    rw [if_neg fun hbad => hbad.2 rfl]
    have hw := Widens.add_node h ho hi
    have hname' : Absent name (pre ++ [(n, es), (i, [])]) := by
      intro s hs
      rw [hw.items]
      exact hname s hs
    have hloop : Does [p] _ (roomLoop p name check fuel i n _) _ :=
      roomLoop_room hw.rep (update_self ..) hname' ⟨(i, []), by simp, by simp⟩
        (by rw [List.length_nil] at hfuel; rw [List.length_singleton]; omega)
    rw [Vol.write_block_self] at hloop
    refine hloop.mono ?_
    rintro r _ ⟨rfl, pre', n', es', post', hr, hns, hlt⟩
    exact ⟨_, .node hfull hi, i, pre', n', es', post', hr, hns, hlt⟩
  | cons x rest ih =>
    obtain ⟨m, es'⟩ := x
    refine roomLoop_next h ho hname (hfull (n, es) (by simp)) ?_
    rw [List.append_cons] at ho hname hfull ⊢
    obtain ⟨fuel, rfl⟩ : ∃ f, fuel = f + 1 := ⟨fuel - 1, by omega⟩
    refine ih ho hname hfull fuel ?_
    rw [List.length_cons] at hfuel
    omega

theorem Rep.dir_head (h : Rep v fs) (ho : fs p = some (.dir ns)) : ∃ es post, ns = (p, es) :: post := by
  have hhead := (h.laid.shows ho).head
  cases ns with
  | nil => cases hhead
  | cons x rest =>
    obtain ⟨n, es⟩ := x
    obtain rfl : n = p := Option.some.inj hhead
    exact ⟨es, rest, rfl⟩

theorem Rep.dir_length_lt (h : Rep v fs) (ho : fs p = some (.dir ns)) : ns.length + 2 < loopFuel := by
  have hlen := h.laid.length_le ho
  rw [Obj.blocks, List.length_append, Obj.nodes, nodesOf, List.length_map] at hlen
  have hvol : volSize = 782336 := rfl
  have hfuel : loopFuel = 18446744073709551616 := rfl
  omega

/-- **Finding room for an entry.** The directory has a node with room, and a further node
where it had none. -/
theorem roomLoop_does (h : Rep v fs) (ho : fs p = some (.dir ns)) (hname : Absent name ns)
    (hfree : roomCost ns ≤ v.free) :
    Does [p] v (roomLoop p name check loopFuel 0 p (v.block p)) fun r v' => ∃ ns', MakesRoom v ns v' ns' ∧
      Found v' ns' r := by
  have hfuel := h.dir_length_lt ho
  obtain ⟨es, post, rfl⟩ := h.dir_head ho
  rw [List.length_cons] at hfuel
  have ho' : fs p = some (.dir ([] ++ (p, es) :: post)) := ho
  unfold roomCost at hfree
  by_cases hfull : AllFull ((p, es) :: post)
  · rw [if_pos hfull] at hfree
    exact roomLoop_full h ho' hname hfull (by omega) hfree
  · have hroom : ∃ x ∈ (p, es) :: post, x.2.length < 5 := by
      unfold AllFull at hfull
      push Not at hfull
      exact hfull
    refine (roomLoop_room h ho' hname hroom (by omega)).mono ?_
    rintro r _ ⟨rfl, pre, n, es', post', hr, hns, hlt⟩
    exact ⟨_, .enough hfull, 0, pre, n, es', post', hr, hns, hlt⟩

end

/-! ### Making an entry -/

/-- From the volume `v₀`, where the directory `p` has the nodes `ns₀`, the object `o` was
made at block `i` with the name `s`, and the directory has the nodes `ns` on the volume `v`. -/
structure Makes (fs : Tree) (p : Nat) (s : List Byte) (v₀ : Vol) (ns₀ : Nodes Entry) (i : Nat) (o : Obj)
    (v : Vol) (ns : Nodes Entry) : Prop where
  rep : Rep v (update (update fs i (some o)) p (some (.dir ns)))
  fresh : v₀.used i = false
  entries : (itemsOf ns).Perm ((s, i) :: itemsOf ns₀)
  used : ∀ b, v₀.used b = true → v.used b = true
  leak : ∀ b, Leaked v (update (update fs i (some o)) p (some (.dir ns))) b → Leaked v₀ fs b
  cost : v.free + ns.length + 1 = v₀.free + ns₀.length

section
variable {fs : Tree} {p i : Nat} {s : List Byte} {v₀ v v' : Vol} {ns₀ ns ns' : Nodes Entry} {o : Obj}

theorem Rep.used_dir (h : Rep v fs) (ho : fs p = some o) : v.used p = true :=
  (h.laid.has ho (h.laid.head_mem ho)).used

theorem Makes.ne (h : Makes fs p s v₀ ns₀ i o v ns) (hp : v₀.used p = true) : i ≠ p := by
  intro e
  have hfresh := h.fresh
  rw [e, hp] at hfresh
  exact Bool.noConfusion hfresh

theorem Widens.makes (hw : Widens fs p v₀ ns₀ v ns) (hp : v₀.used p = true)
    (hm : Makes (update fs p (some (.dir ns))) p s v ns i o v' ns') : Makes fs p s v₀ ns₀ i o v' ns' := by
  have hi : v₀.used i = false := by
    rw [Bool.eq_false_iff]
    intro hu
    have := hm.fresh
    rw [hw.used i hu] at this
    exact Bool.noConfusion this
  have hip := hm.ne (hw.used p hp)
  have heq : update (update (update fs p (some (Obj.dir ns))) i (some o)) p
      (some (.dir ns')) = update (update fs i (some o)) p (some (.dir ns')) := by
    rw [update_comm hip, update_idem, update_comm hip]
  constructor
  · rw [← heq]
    exact hm.rep
  · exact hi
  · rw [← hw.items]
    exact hm.entries
  · exact fun b hb => hm.used b (hw.used b hb)
  · intro b hb
    rw [← heq] at hb
    exact hw.leak b (hm.leak b hb)
  · have hcost := hm.cost
    have hcost' := hw.cost
    omega

theorem Makes.of_write {b : Nat} {d : Block} (h : Makes fs p s (v₀.write b d) ns₀ i o v ns) :
    Makes fs p s v₀ ns₀ i o v ns where
  rep := h.rep
  fresh := h.fresh
  entries := h.entries
  used := h.used
  leak c hc := (h.leak c hc).of_write
  cost := h.cost

/-- The object that a block of zeros but for its attributes shows. -/
structure ShowsNew (new : Block) (obj : Nat → Obj) : Prop where
  shows : ∀ {v : Vol} {i : Nat}, v.block i = new → Shows v i (obj i)
  blocks : ∀ i, (obj i).blocks = [i]
  children : ∀ i, (obj i).children = []

theorem showsNew_file {new : Block} (hl : new.links = Block.links Bytes.zero) (hm : new.mode ≠ 0) :
    ShowsNew new fun i => .file [(i, [])] where
  shows {v i} h := by
    refine ⟨rfl, by rw [h]; exact hm, ⟨?_, ?_, trivial⟩, nofun⟩
    · rw [h]
      exact fileShows_new hl
    · rw [h]
      exact next_new hl
  blocks _ := rfl
  children _ := rfl

theorem showsNew_dir {new : Block} (hl : new.links = Block.links Bytes.zero) (hm : new.mode = 0)
    (hs : new.size = 0) : ShowsNew new fun i => .dir [(i, [])] where
  shows {v i} h := by
    refine ⟨rfl, by rw [h]; exact hm, ⟨?_, ?_, trivial⟩⟩
    · rw [h]
      exact dirShows_new hs
    · rw [h]
      exact next_new hl
  blocks _ := rfl
  children _ := rfl

/-- A number is put behind the entries of a node with room, and the link to the next node
stays. -/
theorem Shows.add_entry {n : Nat} {es : List Entry} {pre post : Nodes Entry}
    (h : Shows v p (.dir (pre ++ (n, es) :: post))) (hnodup : (nodesOf (pre ++ (n, es) :: post)).Nodup)
    (hes : es.length < 5) (h0 : (0 : Byte) ∉ s)
    (hnext : ((v.block n).putEntry i (v.block n).size s).next = (v.block n).next) (hi : i < 2 ^ 64) :
    Shows (v.write n (((v.block n).putEntry i (v.block n).size s).setSize ((v.block n).size + 1))) p
      (.dir (pre ++ (n, es ++ [(s.take 64, i)]) :: post)) := by
  obtain ⟨hshow, -⟩ := h.dir_node
  have hsize : (v.block n).size < 5 := by rw [hshow.size]; exact hes
  refine h.rewrite_dir hnodup ⟨?_, by rw [List.length_append, List.length_singleton]; omega⟩ ?_ ?_
  · rw [Block.entries_addEntry _ _ hsize h0 hi, hshow.entries]
  · rw [Block.next_of_links (Block.links_setSize ..), hnext]
  · rw [Block.mode_setSize, Block.mode_putEntry]

theorem itemsOf_add_perm {n : Nat} {es : List Entry} {e : Entry} {pre post : Nodes Entry} :
    (itemsOf (pre ++ (n, es ++ [e]) :: post)).Perm (e :: itemsOf (pre ++ (n, es) :: post)) := by
  have hperm : (itemsOf (pre ++ (n, es ++ [e]) :: post)).Perm (e :: itemsOf (pre ++ (n, es ++ []) :: post)) :=
    itemsOf_perm
  rwa [List.append_nil] at hperm

/-- An object is made at a new block, and its number stands behind the entries of a node. -/
theorem Rep.makes {n : Nat} {es : List Entry} {pre post : Nodes Entry} {new : Block} {obj : Nat → Obj}
    (h : Rep v fs) (ho : fs p = some (.dir (pre ++ (n, es) :: post))) (hes : es.length < 5) (h0 : (0 : Byte) ∉ s)
    (hnext : ((v.block n).putEntry i (v.block n).size s).next = (v.block n).next) (hnew : ShowsNew new obj)
    (hi : v.Fresh i) :
    Makes fs p (s.take 64) v (pre ++ (n, es) :: post) i (obj i)
      ((v.alloc i new).write n (((v.block n).putEntry i (v.block n).size s).setSize ((v.block n).size + 1)))
      (pre ++ (n, es ++ [(s.take 64, i)]) :: post) := by
  have hown := h.laid.fresh_not_owned hi
  have hni : n ≠ i := fun e => hown ⟨p, _, ho, e ▸ Obj.mem_blocks_of_node (by simp [Obj.nodes])⟩
  have hip : i ≠ p := fun e => hown ⟨p, _, ho, e ▸ h.laid.head_mem ho⟩
  have halloc : Rep (v.alloc i new) fs := h.alloc hi
  have hnext' : (((v.alloc i new).block n).putEntry i ((v.alloc i new).block n).size s).next =
      ((v.alloc i new).block n).next := by
    rw [Vol.alloc_block_ne hni]
    exact hnext
  have hshows := (halloc.laid.shows ho).add_entry (halloc.laid.nodup_nodes ho) hes h0 hnext' hi.lt_word
  rw [Vol.alloc_block_ne hni] at hshows
  constructor
  · exact halloc.link ho (by simp) ⟨hi.has h.formatted, hi.ne_zero h.formatted, hown⟩
      (hnew.shows Vol.alloc_block_self) (hnew.blocks i) (hnew.children i) hshows (by simp)
      (itemsOf_add_perm.map Prod.snd)
  · exact hi.unused
  · exact itemsOf_add_perm
  · exact fun b hb => Vol.alloc_used_of_used hb
  · intro b hb
    refine hb.of_step (fun c hc => ?_) fun c hc => ?_
    · by_cases hci : c = i
      · refine .inr ⟨i, obj i, ?_, by rw [hnew.blocks, hci]; exact List.mem_singleton_self i⟩
        rw [update_of_ne hip, update_self]
      · exact .inl ((Vol.alloc_used_ne hci).symm.trans hc)
    · have hnone := h.laid.none_of_not_owned hown
      obtain ⟨j, oj, hj, hc⟩ := hc
      have hji : j ≠ i := by
        rintro rfl
        rw [hnone] at hj
        cases hj
      have ho' : update fs i (some (obj i)) p = some (.dir (pre ++ (n, es) :: post)) := by
        rw [update_of_ne hip.symm, ho]
      refine owned_update ho' (fun c hc => ?_) ⟨j, oj, by rwa [update_of_ne hji], hc⟩
      simpa [Obj.blocks, Obj.nodes, Obj.datas] using hc
  · have hfree : ((v.alloc i new).write n
        (((v.block n).putEntry i (v.block n).size s).setSize ((v.block n).size + 1))).free + 1 = v.free :=
      Vol.free_alloc hi
    simp only [List.length_append, List.length_cons]
    omega

/-- **Filling in an entry.** A block is taken, and its number is put behind the entries;
only a name of more than 183 bytes can leave the block. -/
theorem fillEntry_does {n tmp : Nat} {check : Bool} {new : Block} {ns : Nodes Entry} (h : Rep v fs)
    (ho : fs p = some (.dir ns)) (hn : n ∈ nodesOf ns) (hsize : (v.block n).size < 5) (hfree : 0 < v.free) :
    DoesOr (183 < s.length) [p] v (fillEntry p s check new tmp n (v.block n)) fun r v' => ∃ i b, v.Fresh i ∧
      (v.block n).addEntry i s = some b ∧ r = some i ∧ v' = (v.alloc i new).write n b := by
  rw [fillEntry]
  refine .bind (Does.or ((Does.alloc hfree h.formatted (h.heldUsed ho)).mono ?_))
  rintro _ _ ⟨i, hi, rfl, rfl⟩
  rw [if_neg fun hbad => hbad.2 rfl]
  cases hb : (v.block n).addEntry i s with
  | none =>
    refine .undefined (Nat.lt_of_not_le fun hle => ?_)
    rw [Block.addEntry_some _ _ hsize hle] at hb
    cases hb
  | some b =>
    have hhas : v.Has n := h.laid.has ho (Obj.mem_blocks_of_node hn)
    have hhas' : (v.alloc i new).Has n := ⟨Vol.alloc_used_of_used hhas.used, hhas.data, hhas.lt⟩
    refine Does.or ((Gives.safePut (h.heldUsed ho).offBitmap hhas' lock_self).bind ?_)
    rw [if_neg fun hbad => hbad.2 rfl]
    exact Does.pure ⟨i, b, hi, hb, rfl, rfl⟩

/-! ### `create` and `mkdir` -/

theorem Rep.retouch_head {d : Block} (h : Rep v fs) (ho : fs p = some (.dir ns)) (hl : d.links = (v.block p).links)
    (hs : d.size = (v.block p).size) (hm : d.mode = (v.block p).mode) : Rep (v.write p d) fs := by
  obtain ⟨es, post, rfl⟩ := h.dir_head ho
  have ho' : fs p = some (.dir ([] ++ (p, es) :: post)) := ho
  exact h.retouch_dir ho' hl hs hm

theorem Rep.dir_has_head (h : Rep v fs) (ho : fs p = some (.dir ns)) : v.Has p :=
  h.laid.has ho (h.laid.head_mem ho)

/-- The two blocks differ at most in `mtime` and `ctime`. -/
def Retimed (b d : Block) : Prop := ∀ j, j < 24 ∨ 40 ≤ j → d.byte j = b.byte j

namespace Retimed
variable {b d : Block}

theorem links (h : Retimed b d) : d.links = b.links :=
  Bytes.slice_congr fun j hj _ => h j (.inr hj)

theorem size (h : Retimed b d) : d.size = b.size :=
  congrArg leNat (Bytes.slice_congr fun j _ hj => h j (.inl (by omega)))

theorem mode (h : Retimed b d) : d.mode = b.mode := congrArg BitVec.toNat (h 0 (.inl (by decide)))

theorem mtime_ctime (b : Block) (m c : Nat) : Retimed b ((b.setMtime m).setCtime c) := by
  intro j hj
  rw [Block.setCtime, Bytes.setU64, Bytes.byte_write_apart _ (by rw [length_leBytes]; omega), Block.setMtime,
    Bytes.setU64, Bytes.byte_write_apart _ (by rw [length_leBytes]; omega)]

theorem ctime_mtime (b : Block) (c m : Nat) : Retimed b ((b.setCtime c).setMtime m) := by
  intro j hj
  rw [Block.setMtime, Bytes.setU64, Bytes.byte_write_apart _ (by rw [length_leBytes]; omega), Block.setCtime,
    Bytes.setU64, Bytes.byte_write_apart _ (by rw [length_leBytes]; omega)]

theorem rep (hd : Retimed (v.block p) d) (h : Rep v fs) (ho : fs p = some (.dir ns)) : Rep (v.write p d) fs :=
  h.retouch_head ho hd.links hd.size hd.mode

end Retimed

structure Blank (mode : Nat) (new : Block) : Prop where
  links : new.links = Block.links Bytes.zero
  mode : new.mode = mode
  size : new.size = 0

/-- **What `create` and `mkdir` do.** The times of the directory are written, room is made
for an entry, a block is taken for the new object, and the name and the number of the block
are put behind the entries of a node with room. -/
inductive AddsEntry (p : Nat) (s : List Byte) (new : Block) (v : Vol) (ns : Nodes Entry) :
    Nat → Vol → Prop where
  | mk {d b : Block} {v₁ : Vol} {pre post : Nodes Entry} {n i : Nat} {es : List Entry}
      (hd : Retimed (v.block p) d) (hroom : MakesRoom (v.write p d) ns v₁ (pre ++ (n, es) :: post))
      (hes : es.length < 5) (hi : v₁.Fresh i) (hb : (v₁.block n).addEntry i s = some b) :
      AddsEntry p s new v ns i ((v₁.alloc i new).write n b)

/-- With a name that fits an entry, the new object has a blank inode, and of what was in use
only nodes of the directory were written. -/
structure Made (fs : Tree) (p : Nat) (s : List Byte) (v : Vol) (ns : Nodes Entry) (mode i : Nat) (o : Obj)
    (v' : Vol) (ns' : Nodes Entry) : Prop extends Makes fs p s v ns i o v' ns' where
  length : ns'.length = ns.length + roomCost ns
  blank : Blank mode (v'.block i)
  frame : ∀ b, v.used b = true → b ∉ nodesOf ns → v'.block b = v.block b ∧ v'.used b = true

theorem AddsEntry.made {new : Block} {mode : Nat} {obj : Nat → Obj} (h : Rep v fs) (ho : fs p = some (.dir ns))
    (hs : ValidName s) (hnew : ShowsNew new obj) (hblank : Blank mode new) (hin : AddsEntry p s new v ns i v') :
    ∃ ns', Made fs p s v ns mode i (obj i) v' ns' := by
  cases hin with
  | @mk d _ v₁ pre post n _ es hd hroom hes hi hb =>
    have hw := hroom.widens (hd.rep h ho) ho
    have hself := update_self p (some (Obj.dir (pre ++ (n, es) :: post))) fs
    have hsize : (v₁.block n).size < 5 := by
      rw [(hw.rep.dir_node hself).1.size]
      exact hes
    rw [Block.addEntry_some _ _ hsize (Nat.le_of_not_lt hs.not_overrun)] at hb
    cases hb
    have hm := hw.rep.makes hself hes hs.terminated (hs.next_putEntry hsize i) hnew hi
    rw [List.take_of_length_le (Nat.le_of_lt hs.fits)] at hm
    have hmakes := (hw.makes (h.used_dir ho) hm).of_write
    refine ⟨_, hmakes, ?_, ?_, fun b hb hn => ?_⟩
    · rw [← hroom.length]
      simp
    · have hni : n ≠ i := Vol.ne_of_used (hw.rep.dir_has hself).used hi.unused
      rwa [Vol.write_block_ne hni.symm, Vol.alloc_block_self]
    · have hbp : b ≠ p := fun e => hn (e ▸ (h.laid.shows ho).head_mem)
      have hbn : b ≠ n := by
        rintro rfl
        cases hroom.nodes (b := b) (by simp) with
        | inl hmem => exact hn hmem
        | inr hfree => exact Vol.ne_of_used hb hfree rfl
      obtain ⟨hblock, hused⟩ := hroom.frame (b := b) hb hn
      rw [Vol.write_block_ne hbn, Vol.alloc_block_ne (Vol.ne_of_used hb hmakes.fresh), hblock, Vol.write_block_ne hbp]
      exact ⟨rfl, Vol.alloc_used_of_used hused⟩

theorem MakesRoom.fillEntry {d new : Block} {v₂ : Vol} {pre post : Nodes Entry} {n tmp : Nat}
    {es : List Entry} {check : Bool} (h : Rep v fs) (ho : fs p = some (.dir ns)) (hd : Retimed (v.block p) d)
    (hfree : roomCost ns + 1 ≤ v.free) (hroom : MakesRoom (v.write p d) ns v₂ (pre ++ (n, es) :: post))
    (hes : es.length < 5) :
    DoesOr (183 < s.length) [p] v₂ (fillEntry p s check new tmp n (v₂.block n)) fun r v' => ∃ i, r = some i ∧
      AddsEntry p s new v ns i v' := by
  have hw := hroom.widens (hd.rep h ho) ho
  have hself := update_self p (some (Obj.dir (pre ++ (n, es) :: post))) fs
  have hsize : (v₂.block n).size < 5 := by
    rw [(hw.rep.dir_node hself).1.size]
    exact hes
  have hpos : 0 < v₂.free := by
    have hlen := hroom.length
    have hcost : v₂.free + _ = v.free + _ := hw.cost
    omega
  refine (fillEntry_does hw.rep hself (by simp) hsize hpos).mono ?_
  rintro _ _ ⟨i, b, hi, hb, rfl, rfl⟩
  exact ⟨i, rfl, hd, hroom, hes, hi, hb⟩

/-- The search for room and then the entry, as both functions have it. -/
theorem innerCreate_adds {name : List Byte} {ino : Nat} (h : Rep v fs) (ho : fs p = some (.dir ns))
    (habsent : Absent (some (cStr name)) ns) (hfree : roomCost ns + 1 ≤ v.free) :
    DoesOr (183 < (cStr name).length) [p] v (innerCreate p name ino) fun r v' => ∃ i new, r = (.ok, i) ∧ Blank 1 new ∧
      AddsEntry p (cStr name) new v ns i v' := by
  have hH := (h.heldUsed ho).offBitmap
  rw [innerCreate]
  refine .bind (Does.or (Does.uninit fun buf => ?_))
  refine (Gives.safeGet hH (h.dir_has_head ho) lock_self).bindOr (.bind (Does.or (Does.time fun now => ?_)))
  refine (Gives.safePut hH (h.dir_has_head ho) lock_self).bindOr ?_
  rw [if_neg fun hne => hne rfl]
  have hd := Retimed.mtime_ctime (v.block p) now now
  have h₁ := hd.rep h ho
  have hroom : Does [p] _ (roomLoop p (some (cStr name)) true loopFuel 0 p _) _ :=
    roomLoop_does h₁ ho habsent (Nat.le_of_succ_le hfree)
  rw [Vol.write_block_self] at hroom
  refine .bind (Does.or (hroom.mono ?_))
  rintro _ v₂ ⟨ns₂, hmakes, tmp, pre, n, es, post, rfl, rfl, hes⟩
  have hw := hmakes.widens h₁ ho
  refine (hw.rep.findDup_none (update_self ..) (by unfold Absent; rwa [hw.items])).bindOr ?_
  refine .bind (Does.or (Does.time fun mtime => .bind (Does.or (Does.time fun ctime => ?_))))
  refine .bind ((hmakes.fillEntry h ho hd hfree hes).mono ?_)
  rintro _ _ ⟨i, rfl, hadds⟩
  refine Does.or (Does.pure ⟨i, _, rfl, ⟨?_, ?_, ?_⟩, hadds⟩)
  · simp
  · simp
  · simp only [Block.size_setCtime, Block.size_setMtime, Block.size_setAtime, Block.size_setMode]
    exact Bytes.u64_zero _

theorem mkdir_adds {name : List Byte} {ino : Nat} (h : Rep v fs) (ho : fs p = some (.dir ns))
    (hfree : roomCost ns + 1 ≤ v.free) :
    DoesOr (183 < (cStr name).length) [] v (mkdir p name ino) fun r v' => ∃ i new, r = (.ok, i) ∧ Blank 0 new ∧
      AddsEntry p (cStr name) new v ns i v' := by
  have hH := (h.heldUsed ho).offBitmap
  rw [mkdir]
  refine .withLock List.not_mem_nil (.bind (Does.or (Does.uninit fun buf => ?_)))
  refine (Gives.safeGet hH (h.dir_has_head ho) lock_self).bindOr ?_
  refine .bind (Does.or (Does.time fun ctime => .bind (Does.or (Does.time fun mtime => ?_))))
  refine (Gives.safePut hH (h.dir_has_head ho) lock_self).bindOr ?_
  have hd := Retimed.ctime_mtime (v.block p) ctime mtime
  have h₁ := hd.rep h ho
  have hroom : Does [p] _ (roomLoop p none false loopFuel 0 p _) _ :=
    roomLoop_does h₁ ho nofun (Nat.le_of_succ_le hfree)
  rw [Vol.write_block_self] at hroom
  refine .bind (Does.or (hroom.mono ?_))
  rintro _ v₂ ⟨ns₂, hmakes, tmp, pre, n, es, post, rfl, rfl, hes⟩
  refine .bind (Does.or (Does.time fun mtime' => .bind (Does.or (Does.time fun ctime' => ?_))))
  refine .bind ((hmakes.fillEntry h ho hd hfree hes).mono ?_)
  rintro _ _ ⟨i, rfl, hadds⟩
  refine Does.or (Does.pure ⟨i, _, rfl, ⟨?_, ?_, ?_⟩, hadds⟩)
  · simp
  · simp only [Block.mode_setCtime, Block.mode_setMtime, Block.mode_setAtime]
    rfl
  · simp only [Block.size_setCtime, Block.size_setMtime, Block.size_setAtime]
    exact Bytes.u64_zero _

theorem Blank.file {new : Block} (h : Blank 1 new) : ShowsNew new fun i => .file [(i, [])] :=
  showsNew_file h.links (by rw [h.mode]; decide)

theorem Blank.dir {new : Block} (h : Blank 0 new) : ShowsNew new fun i => .dir [(i, [])] :=
  showsNew_dir h.links h.mode h.size

theorem innerCreate_does {name : List Byte} {ino : Nat} (h : Rep v fs) (ho : fs p = some (.dir ns))
    (hlen : name.length ≤ 63) (hno : ∀ e ∈ itemsOf ns, e.1 ≠ cStr name) (hfree : roomCost ns + 1 ≤ v.free) :
    Does [p] v (innerCreate p name ino) fun r v' => ∃ i ns', r = (.ok, i) ∧
      Made fs p (cStr name) v ns 1 i (.file [(i, [])]) v' ns' := by
  have hs := validName_cStr hlen
  refine ((innerCreate_adds h ho (hs.absent hno) hfree).does hs.not_overrun).mono ?_
  rintro r v' ⟨i, new, hr, hnew, hin⟩
  obtain ⟨ns', hm⟩ := hin.made h ho hs hnew.file hnew
  exact ⟨i, ns', hr, hm⟩

theorem create_does {name : List Byte} {ino : Nat} (h : Rep v fs) (ho : fs p = some (.dir ns))
    (hlen : name.length ≤ 63) (hno : ∀ e ∈ itemsOf ns, e.1 ≠ cStr name) (hfree : roomCost ns + 1 ≤ v.free) :
    Does [] v (create p name ino) fun r v' => ∃ i ns', r = (.ok, i) ∧
      Made fs p (cStr name) v ns 1 i (.file [(i, [])]) v' ns' :=
  Does.withLock List.not_mem_nil (innerCreate_does h ho hlen hno hfree)

theorem mkdir_does {name : List Byte} {ino : Nat} (h : Rep v fs) (ho : fs p = some (.dir ns))
    (hlen : name.length ≤ 63) (hfree : roomCost ns + 1 ≤ v.free) :
    Does [] v (mkdir p name ino) fun r v' => ∃ i ns', r = (.ok, i) ∧
      Made fs p (cStr name) v ns 0 i (.dir [(i, [])]) v' ns' := by
  have hs := validName_cStr hlen
  refine ((mkdir_adds h ho hfree).does hs.not_overrun).mono ?_
  rintro r v' ⟨i, new, hr, hnew, hin⟩
  obtain ⟨ns', hm⟩ := hin.made h ho hs hnew.dir hnew
  exact ⟨i, ns', hr, hm⟩

/-! ### `symlink` -/

theorem Makes.locks (h : Makes fs p s v₀ ns₀ i (.file [(i, [])]) v ns) (hp : v₀.used p = true) :
    Locks [p] i v [(i, [])] where
  held := h.rep.heldUsed (update_self ..)
  own l hl := by
    rw [List.mem_singleton.mp hl]
    exact .inr fun hm => h.ne hp (List.mem_singleton.mp hm).symm

/-- **A symbolic link** is a new file, written to, with the mode of a link. -/
theorem symlink_stores {name link : List Byte} {ino : Nat} (h : Rep v fs) (ho : fs p = some (.dir ns))
    (hlen : name.length ≤ 63) (hno : ∀ e ∈ itemsOf ns, e.1 ≠ cStr name)
    (hfree : roomCost ns + 1 + taken 1 0 (lastBlock 0 link.length) ≤ v.free) :
    Does [] v (symlink p name link ino) fun r v' => ∃ i v₁ ns₁ v₂ nsf g, r = (.ok, i) ∧
      Made fs p (cStr name) v ns 1 i (.file [(i, [])]) v₁ ns₁ ∧ taken 1 0 (lastBlock 0 link.length) ≤ v₁.free ∧
      Stores (update (update fs i (some (.file [(i, [])]))) p (some (.dir ns₁))) i v₁ [(i, [])] v₂ nsf
        (newFilesize (v₁.block i).size link.length 0) g ∧
      (itemsOf nsf).length = lastBlock 0 link.length + 1 ∧
      (ZeroFrom (byteAt v₁ []) 0 (toSigned (v₁.block i).size) → g = overlay (byteAt v₁ []) 0 (link.take link.length)) ∧
      v' = v₂.write i ((v₂.block i).setMode 2) := by
  have hp := h.used_dir ho
  rw [symlink]
  refine Does.withLock List.not_mem_nil (Does.bind (Does.uninit fun junk => ?_))
  have hroom : roomCost ns + 1 ≤ v.free := Nat.le_of_add_right_le hfree
  refine Does.bind ((innerCreate_does h ho hlen hno hroom).mono ?_)
  rintro _ v₁ ⟨i, ns₁, rfl, hm⟩
  rw [if_neg fun hne => hne rfl]
  have hl := hm.toMakes.locks hp
  have hip := hm.ne hp
  have ho₁ : update (update fs i (some (Obj.file [(i, [])]))) p (some (.dir ns₁)) i =
      some (.file [(i, [])]) := by
    rw [update_of_ne hip, update_self]
  have hfree₁ : taken 1 0 (lastBlock 0 link.length) ≤ v₁.free := by
    have hcost := hm.cost
    have hlen₁ := hm.length
    omega
  refine Does.bind ((innerWrite_stores hm.rep ho₁ hl (.inr (Int.le_refl 0)) (Nat.le_refl _) hfree₁).mono ?_)
  rintro _ v₂ ⟨rfl, nsf, g, hst, hitems, -, hzero⟩
  rw [if_neg fun hne => hne rfl]
  refine Does.bind (Does.uninit fun buf => ?_)
  have hi : v₂.Has i := hst.has hst.toGrows.head_mem
  have hH := (hst.heldUsed hl.held).offBitmap
  have hnot : i ∉ [p] := fun hm => hip (List.mem_singleton.mp hm)
  refine (Gives.safeGet hH hi (.inr hnot)).bind ?_
  rw [if_neg fun hne => hne rfl]
  refine (Gives.safePut hH hi (.inr hnot)).bind ?_
  rw [if_neg fun hne => hne rfl]
  exact Does.pure ⟨i, v₁, ns₁, v₂, nsf, g, rfl, hm, hfree₁, hst,
    hitems.trans (Nat.max_eq_right (Nat.zero_le _)), hzero, rfl⟩

/-- The tree with the file at `i` as it was written, in which `p` has its entry. -/
theorem Makes.stored {v₁ v₂ : Vol} {nsf : Nodes Nat} {sz : Nat} {g : Nat → Byte}
    (hm : Makes fs p s v ns i (.file [(i, [])]) v₁ ns') (hp : v.used p = true)
    (hst : Stores (update (update fs i (some (.file [(i, [])]))) p (some (.dir ns'))) i v₁ [(i, [])] v₂
      nsf sz g) :
    Rep (v₂.write i ((v₂.block i).setMode 2))
      (update (update fs i (some (.file nsf))) p (some (.dir ns'))) ∧
    ∀ b, Leaked (v₂.write i ((v₂.block i).setMode 2))
      (update (update fs i (some (.file nsf))) p (some (.dir ns'))) b → Leaked v fs b := by
  have hip := hm.ne hp
  have heq : update (update (update fs i (some (Obj.file [(i, [])]))) p
      (some (.dir ns'))) i (some (.file nsf)) =
      update (update fs i (some (.file nsf))) p (some (.dir ns')) := by
    rw [update_comm hip.symm, update_idem]
  have hself := update_self i (some (Obj.file nsf))
    (update (update fs i (some (Obj.file [(i, [])]))) p (some (.dir ns')))
  have hrep := hst.rep.retouch_file hself (Block.links_setMode (v₂.block i) 2) (by simp)
  rw [heq] at hrep
  refine ⟨hrep, fun b hb => ?_⟩
  rw [← heq] at hb
  exact hm.leak b (hst.leak b hb.of_write)

theorem symlink_does {name link : List Byte} {ino : Nat} (h : Rep v fs) (ho : fs p = some (.dir ns))
    (hlen : name.length ≤ 63) (hno : ∀ e ∈ itemsOf ns, e.1 ≠ cStr name)
    (hfree : roomCost ns + 1 + taken 1 0 (lastBlock 0 link.length) ≤ v.free) :
    Does [] v (symlink p name link ino) fun r v' => ∃ i nsf ns', r = (.ok, i) ∧ v.used i = false ∧
      Rep v' (update (update fs i (some (.file nsf))) p (some (.dir ns'))) ∧
      (itemsOf ns').Perm ((cStr name, i) :: itemsOf ns) ∧
      ∀ b, Leaked v' (update (update fs i (some (.file nsf))) p (some (.dir ns'))) b →
        Leaked v fs b := by
  refine (symlink_stores h ho hlen hno hfree).mono ?_
  rintro _ _ ⟨i, v₁, ns₁, v₂, nsf, g, rfl, hm, -, hst, -, -, rfl⟩
  obtain ⟨hrep, hleak⟩ := hm.stored (h.used_dir ho) hst
  exact ⟨i, nsf, ns₁, rfl, hm.fresh, hrep, hm.entries, hleak⟩

end

/-! ### Removing an entry -/

section
variable {fs : Tree} {p n i : Nat} {s : List Byte} {v : Vol} {pre post : Nodes Entry}
  {es es₁ es₂ : List Entry} {nsf : Nodes Nat} {ds : List Nat} {d : Block}

theorem Rep.file_not_reserved (h : Rep v fs) (hi : fs i = some (.file nsf)) {b : Nat}
    (hb : b ∈ (Obj.file nsf).blocks) : ¬ Reserved b := by
  have hdata := outsideBitmap_iff.mp (h.laid.has hi hb).data
  have h0 := h.laid.ne_zero hi hb
  obtain ⟨ns, hroot⟩ := h.root
  have h1 : b ≠ 1 := by
    rintro rfl
    obtain rfl := h.laid.apart hi hroot hb (h.laid.head_mem hroot)
    rw [hi] at hroot
    cases hroot
  unfold Reserved
  omega

/-- A node of the directory is written without the entry of a file, and the blocks of the
file are no longer in use: the volume holds the tree without the file, and nothing else of
it was lost. -/
theorem Rep.removes (h : Rep v fs) (ho : fs p = some (.dir (pre ++ (n, es₁ ++ (s, i) :: es₂) :: post)))
    (hi : fs i = some (.file nsf)) (hd : Shows (v.write n d) p (.dir (pre ++ (n, es₁ ++ es₂) :: post))) :
    Rep ((v.write n d).drop (Obj.file nsf).blocks)
        (update (update fs p (some (.dir (pre ++ (n, es₁ ++ es₂) :: post)))) i none) ∧
      ∀ b, Leaked ((v.write n d).drop (Obj.file nsf).blocks)
        (update (update fs p (some (.dir (pre ++ (n, es₁ ++ es₂) :: post)))) i none) b →
        Leaked v fs b := by
  have hip : i ≠ p := by
    rintro rfl
    rw [hi] at ho
    cases ho
  have hnodes : nodesOf (pre ++ (n, es₁ ++ es₂) :: post) = nodesOf (pre ++ (n, es₁ ++ (s, i) :: es₂) :: post) := by
    simp
  constructor
  · refine Rep.drop ?_ fun b hb => ⟨?_, h.file_not_reserved hi hb⟩
    · exact h.unlink ho (by simp) hi rfl hd hnodes (itemsOf_perm.map Prod.snd)
    · rintro ⟨j, oj, hj, hbj⟩
      by_cases hji : j = i
      · rw [hji, update_self] at hj
        cases hj
      · rw [update_of_ne hji] at hj
        by_cases hjp : j = p
        · rw [hjp, update_self] at hj
          cases hj
          refine hip (h.laid.apart hi ho hb ?_)
          rw [Obj.blocks, Obj.nodes, hnodes] at hbj
          exact hbj
        · rw [update_of_ne hjp] at hj
          exact hji (h.laid.apart hi hj hb hbj).symm
  · intro b hb
    obtain ⟨hused, hnot⟩ := Vol.drop_used_iff.mp hb.used
    refine ⟨hused, hb.notReserved, ?_⟩
    rintro ⟨j, oj, hj, hbj⟩
    have hji : j ≠ i := by
      rintro rfl
      rw [hi] at hj
      cases hj
      exact hnot hbj
    refine hb.notOwned ?_
    by_cases hjp : j = p
    · refine ⟨p, _, by rw [update_of_ne hip.symm, update_self], ?_⟩
      rw [hjp, ho] at hj
      cases hj
      rw [Obj.blocks, Obj.nodes, hnodes]
      exact hbj
    · exact ⟨j, oj, by rw [update_of_ne hji, update_of_ne hjp, hj], hbj⟩

theorem Block.getElem_entries {b : Block} {k : Nat} (hk : k < b.entries.length) :
    b.entries[k] = (b.name k, b.inum k) := by
  simp only [Block.entries, List.getElem_map, List.getElem_range]
  rfl

theorem DirShows.split {b : Block} {k : Nat} (h : DirShows b es) (hk : k < b.size) :
    ∃ es₁ es₂, es = es₁ ++ (b.name k, b.inum k) :: es₂ ∧ es₁.length = k := by
  have hlen : k < b.entries.length := by rw [Block.length_entries]; exact hk
  refine ⟨b.entries.take k, b.entries.drop (k + 1), ?_, List.length_take_of_le (Nat.le_of_lt hlen)⟩
  rw [← Block.getElem_entries hlen, List.cons_getElem_drop_succ, List.take_append_drop, h.entries]

theorem Block.entry_of_entries {b : Block} {e : Entry} (h : b.entries = es₁ ++ e :: es₂) :
    es₁.length < b.size ∧ b.entry es₁.length = e := by
  have hlen : es₁.length < b.entries.length := by
    rw [h, List.length_append, List.length_cons]
    omega
  have hget := Block.getElem_entries hlen
  simp only [h, List.getElem_append_right (Nat.le_refl _), Nat.sub_self, List.getElem_cons_zero] at hget
  rw [Block.length_entries] at hlen
  exact ⟨hlen, hget.symm⟩

theorem DirShows.entry_at {b : Block} {e : Entry} (h : DirShows b (es₁ ++ e :: es₂)) : b.entry es₁.length = e :=
  (Block.entry_of_entries h.entries).2

theorem DirShows.no_name {b : Block} (h : DirShows b es) (hno : ∀ j < b.size, asRead (b.entry j) ≠ s) :
    ∀ e ∈ es, asRead e ≠ s := by
  intro e he
  rw [← h.entries, Block.entries, List.mem_map] at he
  obtain ⟨j, hj, rfl⟩ := he
  exact hno j (List.mem_range.mp hj)

theorem Shows.drop_entry {e : Entry} (h : Shows v p (.dir (pre ++ (n, es₁ ++ e :: es₂) :: post)))
    (hnodup : (nodesOf (pre ++ (n, es₁ ++ e :: es₂) :: post)).Nodup) :
    ∃ b, (v.block n).dropEntry es₁.length = some b ∧ Shows (v.write n b) p (.dir (pre ++ (n, es₁ ++ es₂) :: post)) := by
  obtain ⟨hshow, -⟩ := h.dir_node
  have hfits := hshow.fits
  rw [List.length_append, List.length_cons] at hfits
  obtain ⟨b, hdrop, hentries, hnext, hmode⟩ := @Block.dropEntry_spec _ es₁.length (hshow.size.trans_le hshow.fits)
  refine ⟨b, hdrop, h.rewrite_dir hnodup ⟨?_, by rw [List.length_append]; omega⟩ hnext hmode⟩
  rw [hentries, hshow.entries, List.eraseIdx_append_of_length_le (Nat.le_refl _), Nat.sub_self]
  rfl

theorem DirShows.entryInum {b : Block} {e : Entry} (h : DirShows b (es₁ ++ e :: es₂)) :
    entryInum b es₁.length = pure e.2 := by
  have hfits := h.fits
  rw [List.length_append, List.length_cons] at hfits
  rw [Fs.entryInum, if_pos (by unfold entryOffset; omega), ← h.entry_at]
  rfl

namespace DirAt
variable {ns : Nodes Entry}

theorem offBitmap (h : DirAt v p ns) : OffBitmap [p] := offBitmap_singleton (h.has p h.head_mem).data

theorem retime (h : DirAt v p ns) (hd : Retimed (v.block p) d) : DirAt (v.write p d) p ns := by
  have hhead := h.head
  cases ns with
  | nil => cases hhead
  | cons x rest =>
    obtain ⟨m, es⟩ := x
    obtain rfl : m = p := Option.some.inj hhead
    obtain ⟨hshow, hnext, hrest⟩ := h.chained
    refine ⟨rfl, ⟨?_, ?_, hrest.congr fun k hk => Vol.write_block_ne ?_⟩, fun n hn => ?_, h.ne_zero, h.nodup⟩
    · rw [Vol.write_block_self]
      exact hshow.of_links hd.links hd.size
    · rw [Vol.write_block_self, Block.next_of_links hd.links, hnext]
    · rintro rfl
      exact (List.nodup_cons.mp h.nodup).1 hk
    · have hhas := h.has n hn
      exact ⟨hhas.used, hhas.data, hhas.lt⟩

/-- The loop over the nodes ends at one that has the name. -/
theorem unlinkLoop {fuel : Nat} (h : DirAt v p ns) (hns : ns = pre ++ (n, es) :: post)
    (hs : Readable s (itemsOf ((n, es) :: post))) (hfuel : post.length < fuel) :
    Does [p] v (unlinkLoop p s fuel n (v.block n)) fun r v' => v' = v ∧
      (r = none ∧ (∀ e ∈ itemsOf ((n, es) :: post), asRead e ≠ s) ∨
        ∃ pre' n' es₁ e es₂ post', r = some (n', v.block n', es₁.length) ∧ asRead e = s ∧
          ns = pre' ++ (n', es₁ ++ e :: es₂) :: post') := by
  induction fuel generalizing pre n es post with
  | zero => exact absurd hfuel (Nat.not_lt_zero _)
  | succ fuel ih =>
    have hsplit := h.chained
    rw [hns] at hsplit
    obtain ⟨hshow, hnext, -⟩ := hsplit.split
    have hs' : Readable s (v.block n).entries := by
      rw [hshow.entries]
      exact hs.subset fun e he => List.mem_append_left _ he
    rw [Fs.unlinkLoop]
    refine Does.bind ((findEntry_does (hshow.size.trans_le hshow.fits) hs').mono ?_)
    rintro _ _ ⟨rfl, ⟨rfl, hno⟩ | ⟨k, hk, rfl, hname⟩⟩
    · dsimp only
      rw [hnext]
      cases post with
      | nil =>
        rw [if_pos (show firstOf [] = 0 from rfl)]
        refine Does.pure ⟨rfl, .inl ⟨rfl, ?_⟩⟩
        rw [itemsOf_cons, itemsOf_nil, List.append_nil]
        exact hshow.no_name hno
      | cons x rest =>
        obtain ⟨m, es'⟩ := x
        have hcons : ns = pre ++ [(n, es)] ++ (m, es') :: rest := by rw [hns]; simp
        have hm : m ∈ nodesOf ns := by rw [hcons]; simp
        rw [firstOf_cons, if_neg (h.ne_zero m hm)]
        refine (Gives.safeGet h.offBitmap (h.has m hm) lock_self).bind ((ih hcons ?_ ?_).mono ?_)
        · exact hs.subset fun e he => List.mem_append_right _ he
        · rw [List.length_cons] at hfuel
          omega
        · rintro r _ ⟨rfl, ⟨rfl, hno'⟩ | hsome⟩
          · refine ⟨rfl, .inl ⟨rfl, fun e he => ?_⟩⟩
            rw [itemsOf_cons, List.mem_append] at he
            exact he.elim (hshow.no_name hno e) (hno' e)
          · exact ⟨rfl, .inr hsome⟩
    · obtain ⟨es₁, es₂, rfl, rfl⟩ := hshow.split hk
      exact Does.pure ⟨rfl, .inr ⟨pre, n, es₁, _, es₂, post, rfl, hname, hns⟩⟩

/-- The loop from the inode of a directory, which was written before. -/
theorem unlinkLoop_head (h : DirAt (v.write p d) p ns) (hs : Readable s (itemsOf ns)) :
    Does [p] (v.write p d) (Fs.unlinkLoop p s loopFuel p d) fun r v' => v' = v.write p d ∧
      (r = none ∧ (∀ e ∈ itemsOf ns, asRead e ≠ s) ∨
        ∃ pre n es₁ e es₂ post, r = some (n, (v.write p d).block n, es₁.length) ∧ asRead e = s ∧
          ns = pre ++ (n, es₁ ++ e :: es₂) :: post) := by
  have hhead := h.head
  have hlen := length_le_volSize h.nodup fun n hn => (h.has n hn).lt
  cases ns with
  | nil => cases hhead
  | cons x rest =>
    obtain ⟨m, es⟩ := x
    obtain rfl : m = p := Option.some.inj hhead
    have hfuel : rest.length < loopFuel := by
      have hvol : volSize = 782336 := rfl
      have hfuel : loopFuel = 18446744073709551616 := rfl
      rw [nodesOf, List.length_map, List.length_cons] at hlen
      omega
    have hloop : Does [m] _ (Fs.unlinkLoop m s loopFuel m _) _ := h.unlinkLoop (List.nil_append _).symm hs hfuel
    rwa [Vol.write_block_self] at hloop

end DirAt

/-! ### Freeing a file -/

/-- The direct blocks of a node are removed from the `k`-th on. -/
theorem removeDirect_gives {H : List Nat} {buf : Block} {ds : List Nat} {k m : Nat} (hH : OffBitmap H)
    (hshow : FileShows buf ds) (hds : ∀ b ∈ ds, b ≠ 0 ∧ b < volSize) (hk : k + m = 16) :
    Gives H v (removeDirect buf (List.range' k m)) () (v.drop (ds.drop k)) := by
  induction m generalizing k v with
  | zero =>
    have hfits := hshow.fits
    rw [List.drop_eq_nil_of_le (by omega), Vol.drop_nil]
    exact Gives.pure ()
  | succ m ih =>
    rw [List.range'_succ, removeDirect, hshow.direct k (by omega)]
    by_cases hlt : k < ds.length
    · have hmem := hds _ (List.getElem_mem hlt)
      rw [List.getD_eq_getElem _ _ hlt, if_pos hmem.1]
      refine (Gives.remove hH hmem.2).bind ?_
      have heq : (v.setUsed ds[k] false).drop (ds.drop (k + 1)) = v.drop (ds.drop k) := by
        rw [Vol.setUsed_false, Vol.drop_drop, List.singleton_append, List.cons_getElem_drop_succ]
      rw [← heq]
      exact ih (by omega)
    · rw [List.getD_eq_default _ _ (Nat.le_of_not_lt hlt), if_neg fun hne => hne rfl,
        List.drop_eq_nil_of_le (Nat.le_of_not_lt hlt), Vol.drop_nil]
      exact Gives.pure ()

/-- The blocks of a file in the order in which they are freed, but for the first node. -/
theorem blocks_cons_perm :
    (Obj.file ((n, ds) :: nsf)).blocks.Perm (n :: (ds ++ (Obj.file nsf).blocks)) := by
  change (n :: nodesOf nsf ++ (ds ++ itemsOf nsf)).Perm (n :: (ds ++ (nodesOf nsf ++ itemsOf nsf)))
  rw [List.cons_append, ← List.append_assoc, ← List.append_assoc]
  exact (List.perm_append_comm.append_right _).cons n

/-- A node and its direct blocks are freed, and in between the rest of the chain. -/
theorem recursiveUnlink_node {H bs : List Nat} {fuel : Nat} (hH : OffBitmap H) (hshow : FileShows (v.block n) ds)
    (hn : v.Has n ∧ n ≠ 0 ∧ n ∉ H) (hds : ∀ b ∈ ds, b ≠ 0 ∧ b < volSize)
    (hrest : Gives H (v.drop ds)
      (if (v.block n).next ≠ 0 then recursiveUnlink fuel (v.block n).next else pure ()) () (v.drop (ds ++ bs))) :
    Gives H v (recursiveUnlink (fuel + 1) n) () (v.drop (n :: (ds ++ bs))) := by
  rw [recursiveUnlink, if_neg hn.2.1]
  refine Does.bind (Does.uninit fun buf => ?_)
  refine (Gives.safeGet hH hn.1 (.inr hn.2.2)).bind ?_
  have hdirect := removeDirect_gives (v := v) (k := 0) (m := 16) hH hshow hds rfl
  rw [← List.range_eq_range', List.drop_zero] at hdirect
  refine hdirect.bind (hrest.bind ((Gives.remove hH hn.1.lt).bind ?_))
  have heq : (v.drop (ds ++ bs)).setUsed n false = v.drop (n :: (ds ++ bs)) := by
    rw [Vol.setUsed_false, Vol.drop_drop]
    exact Vol.drop_perm List.perm_append_comm
  rw [heq]
  exact Gives.pure ()

/-- **Freeing a file.** Every node and every direct block is no longer in use. -/
theorem recursiveUnlink_gives {H : List Nat} {fuel : Nat} (hH : OffBitmap H) (hc : Chained v FileShows ((n, ds) :: nsf))
    (hhas : ∀ b ∈ (Obj.file ((n, ds) :: nsf)).blocks, v.Has b ∧ b ≠ 0 ∧ b ∉ H)
    (hnodup : (Obj.file ((n, ds) :: nsf)).blocks.Nodup) (hfuel : nsf.length < fuel) :
    Gives H v (recursiveUnlink fuel n) () (v.drop (Obj.file ((n, ds) :: nsf)).blocks) := by
  induction nsf generalizing n ds v fuel with
  | nil =>
    obtain ⟨fuel, rfl⟩ : ∃ f, fuel = f + 1 := ⟨fuel - 1, by omega⟩
    obtain ⟨hshow, hnext, -⟩ := hc
    simp only [blocks_cons_perm.mem_iff] at hhas
    rw [Vol.drop_perm blocks_cons_perm]
    refine recursiveUnlink_node hH hshow (hhas n List.mem_cons_self) (fun b hb => ?_) ?_
    · have hb' := hhas b (List.mem_cons_of_mem _ (List.mem_append_left _ hb))
      exact ⟨hb'.2.1, hb'.1.lt⟩
    · rw [hnext, if_neg fun hne => hne rfl]
      change Gives H (v.drop ds) (pure ()) () (v.drop (ds ++ []))
      rw [List.append_nil]
      exact Gives.pure ()
  | cons x rest ih =>
    obtain ⟨m, ds'⟩ := x
    obtain ⟨fuel, rfl⟩ : ∃ f, fuel = f + 1 := ⟨fuel - 1, by omega⟩
    obtain ⟨hshow, hnext, hchain⟩ := hc
    simp only [blocks_cons_perm.mem_iff] at hhas
    rw [blocks_cons_perm.nodup_iff, List.nodup_cons, List.nodup_append] at hnodup
    rw [Vol.drop_perm blocks_cons_perm]
    have hrest : ∀ b ∈ (Obj.file ((m, ds') :: rest)).blocks, v.Has b ∧ b ≠ 0 ∧ b ∉ H :=
      fun b hb => hhas b (List.mem_cons_of_mem _ (List.mem_append_right _ hb))
    refine recursiveUnlink_node hH hshow (hhas n List.mem_cons_self) (fun b hb => ?_) ?_
    · have hb' := hhas b (List.mem_cons_of_mem _ (List.mem_append_left _ hb))
      exact ⟨hb'.2.1, hb'.1.lt⟩
    · rw [hnext, firstOf_cons, if_pos (hrest m List.mem_cons_self).2.1, ← Vol.drop_drop]
      refine ih (hchain.congr fun _ _ => rfl) (fun b hb => ?_) hnodup.2.2.1 ?_
      · have hb' := hrest b hb
        refine ⟨⟨Vol.drop_used_iff.mpr ⟨hb'.1.used, fun hm => ?_⟩, hb'.1.data, hb'.1.lt⟩, hb'.2⟩
        exact hnodup.2.2.2 b hm b hb rfl
      · rw [List.length_cons] at hfuel
        omega

/-! ### `unlink` -/

/-- The blocks of a file are freed under locks that are none of theirs. -/
theorem FileAt.recursiveUnlink {H : List Nat} (h : FileAt v i nsf) (hH : OffBitmap H)
    (hnot : ∀ b ∈ (Obj.file nsf).blocks, b ∉ H) :
    Gives H v (recursiveUnlink loopFuel i) () (v.drop (Obj.file nsf).blocks) := by
  have hhead := h.head
  have hlen := h.length_le
  rw [nodesOf, List.length_map] at hlen
  cases nsf with
  | nil => cases hhead
  | cons x rest =>
    obtain ⟨m, ds⟩ := x
    obtain rfl : m = i := Option.some.inj hhead
    refine recursiveUnlink_gives hH h.chained (fun b hb => ⟨h.has b hb, h.ne_zero b hb, hnot b hb⟩) h.nodup ?_
    have hvol : volSize = 782336 := rfl
    have hfuel : loopFuel = 18446744073709551616 := rfl
    rw [List.length_cons] at hlen
    omega

theorem FileAt.congr {v' : Vol} (h : FileAt v i nsf) (hblock : ∀ n ∈ nodesOf nsf, v'.block n = v.block n)
    (hused : v'.used = v.used) : FileAt v' i nsf where
  head := h.head
  chained := h.chained.congr hblock
  has b hb := ⟨by rw [hused]; exact (h.has b hb).used, (h.has b hb).data, (h.has b hb).lt⟩
  ne_zero := h.ne_zero
  nodup := h.nodup

/-- `unlink` up to the entry of the name: its node, the bytes of that and its index there. -/
def unlinkFind (p : Nat) (name : List Byte) : Code (Option (Nat × Block × Nat)) := do
  let buf ← uninit
  let r ← safeGet p buf p
  let mtime ← time
  let ctime ← time
  let buf : Block := (r.2.setMtime mtime).setCtime ctime
  let _ ← safePut p buf false p
  unlinkLoop p (cStr name) loopFuel p buf

/-- `unlink` from there on. -/
def unlinkRest (p : Nat) : Option (Nat × Block × Nat) → Code Status
  | none => pure .noent
  | some (bufInum, buf, index) => do
    let unlinkInum ← entryInum buf index
    match buf.dropEntry index with
    | none => undefinedAccess
    | some newBuf => do
      let _ ← safePut bufInum newBuf false p
      recursiveUnlink loopFuel unlinkInum
      pure .ok

theorem unlink_eq (p : Nat) (name : List Byte) : unlink p name = withLock p (unlinkFind p name >>= unlinkRest p) := by
  rw [unlink, unlinkFind]
  refine congrArg (withLock p) ?_
  simp only [Prog.bind_assoc]
  refine bind_congr fun buf => bind_congr fun r => bind_congr fun mtime => bind_congr fun ctime => ?_
  refine bind_congr fun _ => bind_congr fun found => ?_
  cases found with
  | none => rfl
  | some x =>
    obtain ⟨bufInum, buf, index⟩ := x
    refine bind_congr fun unlinkInum => ?_
    cases buf.dropEntry index with
    | none => rfl
    | some newBuf => rfl

/-- The name is found at an entry that has it, and only the times of the directory are
written. -/
theorem DirAt.unlinkFind {name : List Byte} {ns : Nodes Entry} (h : DirAt v p ns)
    (hs : Readable (cStr name) (itemsOf ns)) :
    Does [p] v (unlinkFind p name) fun r v' => ∃ d, Retimed (v.block p) d ∧ v' = v.write p d ∧
      (r = none ∧ (∀ e ∈ itemsOf ns, asRead e ≠ cStr name) ∨
        ∃ pre n es₁ e es₂ post, r = some (n, (v.write p d).block n, es₁.length) ∧ asRead e = cStr name ∧
          ns = pre ++ (n, es₁ ++ e :: es₂) :: post) := by
  have hp := h.has p h.head_mem
  refine Does.bind (Does.uninit fun buf => (Gives.safeGet h.offBitmap hp lock_self).bind ?_)
  refine Does.bind (Does.time fun mtime => Does.bind (Does.time fun ctime => ?_))
  refine (Gives.safePut h.offBitmap hp lock_self).bind ?_
  have hd := Retimed.mtime_ctime (v.block p) mtime ctime
  refine ((h.retime hd).unlinkLoop_head hs).mono ?_
  rintro r _ ⟨rfl, hr⟩
  exact ⟨_, hd, rfl, hr⟩

/-- **Unlinking a name.** Where a file has it, the node is written without the entry and the
blocks of the file are free; otherwise only the times of the directory are written. -/
theorem DirAt.unlink {name : List Byte} {ns : Nodes Entry} {file : Nat → Nodes Nat}
    (h : DirAt v p ns) (hs : Readable (cStr name) (itemsOf ns))
    (hfile : ∀ e ∈ itemsOf ns, asRead e = cStr name →
      FileAt v e.2 (file e.2) ∧ ∀ b ∈ (Obj.file (file e.2)).blocks, b ∉ nodesOf ns) :
    Does [] v (unlink p name) fun r v' => ∃ d, Retimed (v.block p) d ∧
      (r = .noent ∧ (∀ e ∈ itemsOf ns, asRead e ≠ cStr name) ∧ v' = v.write p d ∨
      r = .ok ∧ ∃ pre n es₁ e es₂ post b, ns = pre ++ (n, es₁ ++ e :: es₂) :: post ∧ asRead e = cStr name ∧
        ((v.write p d).block n).dropEntry es₁.length = some b ∧
        v' = ((v.write p d).write n b).drop (Obj.file (file e.2)).blocks) := by
  rw [unlink_eq]
  refine Does.withLock List.not_mem_nil (Does.bind ((h.unlinkFind hs).mono ?_))
  rintro _ _ ⟨d, hd, rfl, ⟨rfl, hno⟩ | ⟨pre, n, es₁, e, es₂, post, rfl, hname, rfl⟩⟩
  · exact Does.pure ⟨d, hd, .inl ⟨rfl, hno, rfl⟩⟩
  · have h₁ := h.retime hd
    have hn : n ∈ nodesOf (pre ++ (n, es₁ ++ e :: es₂) :: post) := by simp
    obtain ⟨hi, hapart⟩ := hfile e (by simp) hname
    have hshow := h₁.chained.split.1
    obtain ⟨b, hdrop, -⟩ := @Block.dropEntry_spec _ es₁.length (hshow.size.trans_le hshow.fits)
    rw [unlinkRest, hshow.entryInum, hdrop]
    refine (Gives.pure e.2).bind ((Gives.safePut h.offBitmap (h₁.has n hn) lock_self).bind ?_)
    -- The file is none of the blocks that were written.
    have hi₁ : FileAt ((v.write p d).write n b) e.2 (file e.2) := by
      refine hi.congr (fun m hm => ?_) rfl
      have hnot := hapart m (Obj.mem_blocks_of_node hm)
      have hmn : m ≠ n := fun e => hnot (e ▸ hn)
      have hmp : m ≠ p := fun e => hnot (e ▸ h.head_mem)
      rw [Vol.write_block_ne hmn, Vol.write_block_ne hmp]
    have hlock : ∀ c ∈ (Obj.file (file e.2)).blocks, c ∉ [p] := fun c hc hm =>
      hapart c hc (List.mem_singleton.mp hm ▸ h.head_mem)
    refine (hi₁.recursiveUnlink h.offBitmap hlock).bind (Does.pure ⟨d, hd, .inr ⟨rfl, ?_⟩⟩)
    exact ⟨pre, n, es₁, e, es₂, post, b, rfl, hname, hdrop, rfl⟩

/-- A name that an entry has is never refused: where `unlink` returns, it returns `OK`. -/
theorem DirAt.unlink_ok {name : List Byte} {ns : Nodes Entry} {e : Entry} (h : DirAt v p ns)
    (hs : Readable (cStr name) (itemsOf ns)) (he : e ∈ itemsOf ns) (hname : asRead e = cStr name) :
    Returns [] v (Fs.unlink p name) (· = .ok) := by
  rw [unlink_eq]
  refine Returns.withLock List.not_mem_nil (Returns.bind ((h.unlinkFind hs).mono ?_))
  rintro _ _ ⟨d, hd, rfl, ⟨-, hno⟩ | ⟨pre, n, es₁, e, es₂, post, rfl, -, rfl⟩⟩
  · exact absurd hname (hno e he)
  · have hshow := (h.retime hd).chained.split.1
    obtain ⟨b, hdrop, -⟩ := @Block.dropEntry_spec _ es₁.length (hshow.size.trans_le hshow.fits)
    rw [unlinkRest, hshow.entryInum, hdrop]
    refine (Gives.pure e.2).returns fun w _ _ => ?_
    exact .last fun _ _ => .last fun _ _ => .pure rfl

theorem unlink_does {name : List Byte} {ns : Nodes Entry} (h : Rep v fs) (ho : fs p = some (.dir ns))
    (hs : Comparable (cStr name) (itemsOf ns))
    (hfile : ∀ e ∈ itemsOf ns, e.1 = cStr name → ∃ nsf, fs e.2 = some (.file nsf)) :
    Does [] v (unlink p name) fun r v' => (∀ b ∉ nodesOf ns, v'.block b = v.block b) ∧
      (r = .noent ∧ (∀ e ∈ itemsOf ns, e.1 ≠ cStr name) ∧ Rep v' fs ∧ v'.used = v.used ∨
      r = .ok ∧ ∃ i ns', (itemsOf ns).Perm ((cStr name, i) :: itemsOf ns') ∧
        Rep v' (update (update fs p (some (.dir ns'))) i none) ∧
        ∀ b, Leaked v' (update (update fs p (some (.dir ns'))) i none) b → Leaked v fs b) := by
  have hfiles : ∀ i, (cStr name, i) ∈ itemsOf ns → ∃ nsf, fs i = some (.file nsf) := fun i hi => hfile _ hi rfl
  choose! file hfile' using hfiles
  have happart : ∀ e ∈ itemsOf ns, asRead e = cStr name →
      FileAt v e.2 (file e.2) ∧ ∀ b ∈ (Obj.file (file e.2)).blocks, b ∉ nodesOf ns := by
    intro e he hread
    have hname : e.1 = cStr name := (hs.asRead_iff he).mp hread
    have hio := hfile' e.2 (hname ▸ he)
    refine ⟨h.laid.fileAt hio, fun b hb hn => ?_⟩
    obtain rfl := h.laid.apart hio ho hb (Obj.mem_blocks_of_node hn)
    rw [ho] at hio
    cases hio
  refine ((h.laid.dirAt ho).unlink hs.readable happart).mono ?_
  have hp := (h.laid.dirAt ho).head_mem
  rintro r _ ⟨d, hd, ⟨rfl, hno, rfl⟩ | ⟨rfl, pre, n, es₁, e, es₂, post, b, rfl, hread, hdrop, rfl⟩⟩
  · refine ⟨fun c hc => Vol.write_block_ne fun e => hc (e ▸ hp), .inl ⟨rfl, fun e he hname => ?_, hd.rep h ho, rfl⟩⟩
    exact hno e he ((hs.asRead_iff he).mpr hname)
  · refine ⟨fun c hc => ?_, .inr ?_⟩
    · show ((v.write p d).write n b).block c = v.block c
      have hcp : c ≠ p := fun e => hc (e ▸ hp)
      rw [Vol.write_block_ne fun e => hc (by simp [e]), Vol.write_block_ne hcp]
    obtain ⟨s, i⟩ := e
    obtain rfl : s = cStr name := (hs.asRead_iff (by simp)).mp hread
    have h₁ := hd.rep h ho
    obtain ⟨b', hdrop', hb⟩ := (h₁.laid.shows ho).drop_entry (h₁.laid.nodup_nodes ho)
    obtain rfl : b = b' := Option.some.inj (hdrop.symm.trans hdrop')
    obtain ⟨hrep, hleak⟩ := h₁.removes ho (hfile' i (by simp)) hb
    exact ⟨rfl, i, _, itemsOf_perm, hrep, fun c hc => (hleak c hc).of_write⟩

end

end Yfs.Fs

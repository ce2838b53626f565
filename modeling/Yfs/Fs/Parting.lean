import Yfs.Fs.Looking

/-! How the clients share a volume among them.

A file that `unlink` cuts off stays on the volume for a while: its entry is gone, and the
client that removed the entry has still to take its lock and to free its blocks. So the
volume holds more objects than the tree has, and `Whole` speaks about both: all objects
are at their own blocks, and those with a name make a tree.

Each client has its region of that volume (`Holds`). Two regions have no block in common:
objects differ by their locks, loose blocks belong to no object, and no two clients have
the same loose block (`Parted`). Every act of a client moves blocks between the objects,
its own region and what is not in use, and leaves the regions of the others alone. -/
namespace Yfs.Fs
open Yfs.Base
open Function (update update_eq_self_iff update_of_ne update_self)

/-! ### Objects with a name and without -/

/-- The volume holds the objects `objs`, and those that are `named` make a tree. The
directories all have names. -/
structure Whole (named : Nat → Prop) (v : Vol) (objs : Tree) : Prop where
  laid : Laid v objs
  tree : IsTree 1 named (kids objs)
  there : ∀ i, named i → objs i ≠ none
  dir_named : ∀ {i ns}, objs i = some (.dir ns) → named i
  root : ∃ ns, objs 1 = some (.dir ns)
  formatted : v.Formatted

namespace Whole
variable {named : Nat → Prop} {v : Vol} {objs : Tree} {b h i : Nat} {o o' new : Obj} {d : Block}
  {ns ns' : Nodes Entry} {nsf : Nodes Nat}

theorem of_rep {fs : Tree} (h : Rep v fs) : Whole (fun i => fs i ≠ none) v fs where
  laid := h.laid
  tree := h.tree
  there _ hi := hi
  dir_named hi := by simp [hi]
  root := h.root
  formatted := h.formatted

theorem file (hw : Whole named v objs) (ho : objs i = some o) (hi : ¬ named i) : ∃ nsf, o = .file nsf := by
  cases o with
  | file nsf => exact ⟨nsf, rfl⟩
  | dir ns => exact absurd (hw.dir_named ho) hi

theorem kids_file (ho : objs i = some (.file nsf)) : kids objs i = [] := kids_of_some ho

theorem mem_kids_update {o : Option Obj} {j : Nat} (ho : objs i = some (.file nsf)) (hj : j ∈ kids objs p) :
    j ∈ kids (Function.update objs i o) p := by
  rw [kids_update]
  split
  next hpi =>
    rw [hpi, kids_file ho] at hj
    cases hj
  next => exact hj

theorem kids_unnamed (hw : Whole named v objs) (hi : ¬ named i) : kids objs i = [] := by
  cases ho : objs i with
  | none => exact kids_of_none ho
  | some o =>
    obtain ⟨nsf, rfl⟩ := hw.file ho hi
    exact kids_file ho

theorem named_of_child (hw : Whole named v objs) (ho : objs h = some o) (hi : i ∈ o.children) : named i :=
  hw.tree.has_kid h i (by rwa [kids_of_some ho])

theorem not_reserved (hw : Whole named v objs) (ho : objs i = some (.file nsf)) (hb : b ∈ (Obj.file nsf).blocks) :
    ¬ Reserved b := by
  rintro (rfl | rfl | hbitmap)
  · exact hw.laid.ne_zero ho hb rfl
  · obtain ⟨ns, hns⟩ := hw.root
    obtain rfl := hw.laid.apart ho hns hb (hw.laid.head_mem hns)
    rw [ho] at hns
    cases hns
  · have := outsideBitmap_iff.mp (hw.laid.has ho hb).data
    omega

theorem rep (hw : Whole named v objs) : ∃ fs, Rep v fs ∧ ∀ i o, fs i = some o ↔ named i ∧ objs i = some o := by
  classical
  have hfs : ∀ i o, (if named i then objs i else none) = some o ↔ named i ∧ objs i = some o := by simp
  refine ⟨fun i => if named i then objs i else none, ⟨?_, ?_, ?_, hw.formatted⟩, hfs⟩
  · exact hw.laid.sub fun i o hi => ((hfs i o).mp hi).2
  · refine hw.tree.congr (fun i => ?_) fun i => ?_
    · simpa using hw.there i
    · by_cases hi : named i
      · simp [kids, hi]
      · rw [hw.kids_unnamed hi]
        simp [kids, hi]
  · obtain ⟨ns, hns⟩ := hw.root
    exact ⟨ns, (hfs 1 _).mpr ⟨hw.dir_named hns, hns⟩⟩

theorem write_outside (hw : Whole named v objs) (hb : ¬ Owned objs b) : Whole named (v.write b d) objs :=
  { hw with laid := hw.laid.write_outside hb, formatted := hw.formatted }

theorem use (hw : Whole named v objs) : Whole named (v.setUsed i true) objs :=
  { hw with
    laid := hw.laid.use
    formatted := fun c hc => by
      by_cases hci : c = i
      · simp [Vol.setUsed, hci]
      · rw [Vol.setUsed_used_ne hci, hw.formatted c hc] }

theorem free (hw : Whole named v objs) (hi : ¬ Owned objs i) (hres : ¬ Reserved i) :
    Whole named (v.setUsed i false) objs :=
  { hw with
    laid := by
      rw [Vol.setUsed_false]
      exact hw.laid.drop (by simpa using hi)
    formatted := fun c hc => by
      have hci : c ≠ i := fun e => hres (e ▸ hc)
      rw [Vol.setUsed_used_ne hci, hw.formatted c hc] }

/-- An object is exchanged for one of the same kind with the same entries. -/
theorem grow (hw : Whole named v objs) (ho : objs h = some o) (hb : b ∈ o.blocks) (hlike : o.Like o')
    (hshows : Shows (v.write b d) h o')
    (hblocks : ∀ c ∈ o'.blocks, c ∈ o.blocks ∨ v.Has c ∧ c ≠ 0 ∧ ¬ Owned objs c) (hnodup : o'.blocks.Nodup) :
    Whole named (v.write b d) (update objs h (some o')) where
  laid := hw.laid.write ho hb hshows hblocks hnodup
  tree := by
    refine hw.tree.congr (fun _ => Iff.rfl) fun p => ?_
    rw [kids_update]
    split
    next hp =>
      rw [hp, kids_of_some ho]
      cases hlike with
      | file => rfl
      | dir hitems => exact congrArg (List.map Prod.snd) hitems
    next => rfl
  there i hi := (Rep.has_iff ho i).mpr (hw.there i hi)
  dir_named {i ns} hi := by
    obtain ⟨rfl, ⟨⟩⟩ | ⟨-, hi⟩ := update_eq_some.mp hi
    · cases hlike with
      | dir _ => exact hw.dir_named ho
    · exact hw.dir_named hi
  root := by
    obtain ⟨ns, hns⟩ := hw.root
    by_cases h1 : 1 = h
    · subst h1
      rw [ho] at hns
      cases hns
      cases hlike with
      | dir _ => exact ⟨_, update_self ..⟩
    · exact ⟨ns, by rw [update_of_ne h1, hns]⟩
  formatted := hw.formatted

theorem blocks_of_nodes (hnodes : nodesOf ns' = nodesOf ns) : (Obj.dir ns').blocks = (Obj.dir ns).blocks := by
  simp only [Obj.blocks, Obj.nodes, Obj.datas, hnodes]

/-- The root stays a directory when a directory is exchanged for another. -/
theorem root_update (hw : Whole named v objs) : ∃ ns, update objs h (some (.dir ns')) 1 = some (.dir ns) := by
  obtain ⟨ns, hns⟩ := hw.root
  by_cases h1 : 1 = h
  · exact ⟨ns', by rw [h1, update_self]⟩
  · exact ⟨ns, by rw [update_of_ne h1, hns]⟩

/-- A directory gets an entry for a new object at one block. -/
theorem link (hw : Whole named v objs) (ho : objs h = some (.dir ns)) (hb : b ∈ nodesOf ns)
    (hi : v.Has i ∧ i ≠ 0 ∧ ¬ Owned objs i) (hnew : Shows v i new) (hblock : new.blocks = [i])
    (hnone : new.children = []) (hshows : Shows (v.write b d) h (.dir ns')) (hnodes : nodesOf ns' = nodesOf ns)
    (hkids : (Obj.dir ns').children.Perm (i :: (Obj.dir ns).children)) :
    Whole (fun j => named j ∨ j = i) (v.write b d)
      (update (update objs i (some new)) h (some (.dir ns'))) := by
  have hfree : objs i = none := hw.laid.none_of_not_owned hi.2.2
  have hih : i ≠ h := by
    rintro rfl
    rw [ho] at hfree
    cases hfree
  have hnot : ¬ named i := fun hn => hw.there i hn hfree
  have ho' : update objs i (some new) h = some (.dir ns) := by rw [update_of_ne hih.symm, ho]
  have hblocks := blocks_of_nodes hnodes
  have hlaid : Laid v (update objs i (some new)) := by
    refine hw.laid.insert hnew (fun c hc => ?_) (hblock ▸ List.nodup_singleton i)
    rw [hblock] at hc
    rw [List.mem_singleton.mp hc]
    exact hi
  refine ⟨?_, ?_, fun j hj => ?_, fun {j ns''} hj => ?_, ?_, hw.formatted⟩
  · exact hlaid.write ho' (Obj.mem_blocks_of_node hb) hshows (fun c hc => .inl (hblocks ▸ hc))
      (hblocks ▸ hw.laid.nodup ho)
  · exact tree_link hw.tree ho (hw.dir_named ho) hnot hih hnone hkids fun _ => Iff.rfl
  · refine (Rep.has_iff ho' j).mpr ?_
    by_cases hji : j = i
    · simp [hji]
    · rw [update_of_ne hji]
      exact hw.there j (hj.resolve_right hji)
  · obtain ⟨rfl, -⟩ | ⟨-, hj⟩ := update_eq_some.mp hj
    · exact .inl (hw.dir_named ho)
    · obtain ⟨rfl, -⟩ | ⟨-, hj⟩ := update_eq_some.mp hj
      · exact .inr rfl
      · exact .inl (hw.dir_named hj)
  · obtain ⟨ns₁, h1⟩ := hw.root
    have h1i : 1 ≠ i := by
      rintro rfl
      rw [h1] at hfree
      cases hfree
    by_cases h1h : 1 = h
    · exact ⟨ns', by rw [h1h, update_self]⟩
    · exact ⟨ns₁, by rw [update_of_ne h1h, update_of_ne h1i, h1]⟩

/-- A directory loses the entry of a file, which stays without a name. -/
theorem cut (hw : Whole named v objs) (ho : objs h = some (.dir ns)) (hb : b ∈ nodesOf ns)
    (hi : objs i = some (.file nsf)) (hshows : Shows (v.write b d) h (.dir ns')) (hnodes : nodesOf ns' = nodesOf ns)
    (hkids : (Obj.dir ns).children.Perm (i :: (Obj.dir ns').children)) :
    Whole (fun j => named j ∧ j ≠ i) (v.write b d) (update objs h (some (.dir ns'))) := by
  have hih : ∀ {j ns}, objs j = some (.dir ns) → j ≠ i := by
    rintro j ns hj rfl
    rw [hi] at hj
    cases hj
  have hblocks := blocks_of_nodes hnodes
  refine ⟨?_, ?_, fun j hj => ?_, fun {j ns''} hj => ?_, hw.root_update, hw.formatted⟩
  · exact hw.laid.write ho (Obj.mem_blocks_of_node hb) hshows (fun c hc => .inl (hblocks ▸ hc))
      (hblocks ▸ hw.laid.nodup ho)
  · exact tree_unlink hw.tree ho (hih ho).symm (kids_file hi) hkids fun _ => Iff.rfl
  · exact (Rep.has_iff ho j).mpr (hw.there j hj.1)
  · obtain ⟨rfl, -⟩ | ⟨-, hj⟩ := update_eq_some.mp hj
    · exact ⟨hw.dir_named ho, hih ho⟩
    · exact ⟨hw.dir_named hj, hih hj⟩

/-- A file without a name is taken apart. -/
theorem take (hw : Whole named v objs) (hi : ¬ named i) : Whole named v (update objs i none) where
  laid := hw.laid.erase
  tree := by
    refine hw.tree.congr (fun _ => Iff.rfl) fun p => ?_
    rw [kids_update]
    split
    next hp => rw [hp, hw.kids_unnamed hi]; rfl
    next => rfl
  there j hj := by
    have hji : j ≠ i := fun e => hi (e ▸ hj)
    rw [update_of_ne hji]
    exact hw.there j hj
  dir_named {j ns} hj := by
    obtain ⟨-, ⟨⟩⟩ | ⟨-, hj⟩ := update_eq_some.mp hj
    exact hw.dir_named hj
  root := by
    obtain ⟨ns, hns⟩ := hw.root
    have h1 : 1 ≠ i := fun e => hi (e ▸ hw.dir_named hns)
    exact ⟨ns, by rw [update_of_ne h1, hns]⟩
  formatted := hw.formatted

end Whole


/-! ### The region of a client -/

/-- Block `b` is not in use. -/
structure Vol.Spare (v : Vol) (b : Nat) : Prop where
  unused : v.used b = false
  lt : b < volSize
  notReserved : ¬ Reserved b

theorem Vol.Spare.not_used {v : Vol} {b : Nat} (h : v.Spare b) : ¬ v.used b = true := by
  rw [h.unused]
  exact Bool.false_ne_true

theorem Region.mem_blocks {x : Region} {b : Nat} :
    b ∈ x.blocks ↔ (∃ h o, x.obj = some (h, o) ∧ b ∈ o.blocks) ∨ b ∈ x.loose := by
  rw [blocks, List.mem_append]
  cases x.obj with
  | none => simp
  | some p => simp [Prod.ext_iff]

/-- The file or directory `h` is the client's: it works on it or holds its lock. -/
def Region.Heads (x : Region) (h : Nat) : Prop := x.base = some h ∨ ∃ o, x.obj = some (h, o)

/-- Client `t` has the region `x` of the volume; `B` is what it knows of the bitmap. -/
structure Holds {T : Type} (v : Vol) (locks : Nat → Option T) (B : Bits) (objs : Tree) (named : Nat → Prop) (t : T)
    (x : Region) : Prop where
  /-- The client holds the lock of the object, or that of the directory in which it has made it. -/
  obj : ∀ {h o}, x.obj = some (h, o) → objs h = some o ∧
    (x.base = some h ∨ ∃ p nsf, x.base = some p ∧ o = .file nsf ∧ h ∈ kids objs p)
  base : ∀ {p}, x.base = some p → locks p = some t ∧ objs p ≠ none
  below : ∀ {l}, x.below = some l → x.base ≠ some l
  loose : ∀ b ∈ x.loose, Leaked v objs b ∧ b < volSize
  nodup : x.loose.Nodup
  fresh : ∀ {b}, x.fresh = some b → v.Spare b ∧ B (bitmapBlock b) ≠ none
  victim : ∀ {i}, x.victim = some i → (¬ named i ∧ objs i ≠ none) ∧ ∃ h ns, x.obj = some (h, .dir ns)
  files : ∀ i ∈ x.files, (∃ h o, x.obj = some (h, o) ∧ i ∈ o.children) ∧ ∃ nsf, objs i = some (.file nsf)
  mem : ∀ b, b ∈ x.blocks ∨ x.fresh = some b → x.mem.block b = v.block b

namespace Holds
variable {T : Type} {v : Vol} {locks locks' : Nat → Option T} {B : Bits} {objs objs' : Tree} {named named' : Nat → Prop}
  {t : T} {x : Region} {b h i p : Nat} {o : Obj} {d : Block}

theorem has (hx : Holds v locks B objs named t x) (hw : Whole named v objs) (hb : b ∈ x.blocks) : v.Has b ∧ b ≠ 0 := by
  obtain ⟨h, o, ho, hb⟩ | hb := Region.mem_blocks.mp hb
  · obtain ⟨ho, -⟩ := hx.obj ho
    exact ⟨hw.laid.has ho hb, hw.laid.ne_zero ho hb⟩
  · obtain ⟨hleak, hlt⟩ := hx.loose b hb
    exact ⟨⟨hleak.used, Logic.outside_of_not_reserved hleak.notReserved, hlt⟩, fun h0 => hleak.notReserved (.inl h0)⟩

/-- A file or directory whose inode is in the region is the one worked on. -/
theorem obj_of_mem (hx : Holds v locks B objs named t x) (hw : Whole named v objs) (ho : objs h = some o)
    (hh : h ∈ x.blocks) : ∃ o', x.obj = some (h, o') := by
  have hhead := hw.laid.head_mem ho
  obtain ⟨k, o', ho', hk⟩ | hl := Region.mem_blocks.mp hh
  · obtain rfl := hw.laid.apart ho (hx.obj ho').1 hhead hk
    exact ⟨o', ho'⟩
  · exact absurd ⟨h, o, ho, hhead⟩ (hx.loose h hl).1.notOwned

theorem fine (hx : Holds v locks B objs named t x) (hw : Whole named v objs) : x.Fine where
  shows {h o} ho := by
    refine (hw.laid.shows (hx.obj ho).1).congr fun n hn => hx.mem n (.inl ?_)
    exact Region.mem_blocks.mpr (.inl ⟨h, o, ho, Obj.mem_blocks_of_node hn⟩)
  nodup := by
    rw [Region.blocks, List.nodup_append]
    refine ⟨?_, hx.nodup, ?_⟩
    · cases ho : x.obj with
      | none => exact List.nodup_nil
      | some p => exact hw.laid.nodup (hx.obj ho).1
    · rintro b hb _ hb' rfl
      cases ho : x.obj with
      | none => simp [ho] at hb
      | some p =>
        rw [ho] at hb
        exact (hx.loose b hb').1.notOwned ⟨p.1, p.2, (hx.obj ho).1, hb⟩
  data b hb := (hx.has hw hb).1.data
  lt b hb := (hx.has hw hb).1.lt
  ne_zero b hb := (hx.has hw hb).2
  only {p} hp hmem := by
    obtain ⟨o, ho⟩ := Option.ne_none_iff_exists'.mp (hx.base hp).2
    exact hx.obj_of_mem hw ho hmem

theorem fresh_ne (hx : Holds v locks B objs named t x) (hb : v.used b = true) : x.fresh ≠ some b :=
  fun hf => (hx.fresh hf).1.not_used hb

theorem there (hx : Holds v locks B objs named t x) (hh : x.Heads h) : objs h ≠ none := by
  obtain hh | ⟨o, ho⟩ := hh
  · exact (hx.base hh).2
  · simp [(hx.obj ho).1]

theorem files_named (hx : Holds v locks B objs named t x) (hw : Whole named v objs) (hi : i ∈ x.files) : named i := by
  obtain ⟨⟨h, o, ho, hi⟩, -⟩ := hx.files i hi
  exact hw.named_of_child (hx.obj ho).1 hi

/-- A client that has cut a file off holds the lock of a directory. -/
theorem base_of_victim (hx : Holds v locks B objs named t x) (hi : x.victim = some i) (hp : x.base = some p) :
    ∃ ns, objs p = some (.dir ns) := by
  obtain ⟨-, h, ns, ho⟩ := hx.victim hi
  obtain ⟨hobj, hbase | ⟨_, _, -, ⟨⟩, -⟩⟩ := hx.obj ho
  rw [hp] at hbase
  cases hbase
  exact ⟨ns, hobj⟩

theorem mem_write {c : Nat} (hx : Holds v locks B objs named t x) (hc : c = b ∨ c ∈ x.blocks ∨ x.fresh = some c) :
    (x.mem.write b d).block c = (v.write b d).block c := by
  by_cases hcb : c = b
  · simp [hcb]
  · rw [Vol.write_block_ne hcb, Vol.write_block_ne hcb, hx.mem c (hc.resolve_left hcb)]

/-- What others do outside of the region: locks, -/
theorem relock (hx : Holds v locks B objs named t x) (hl : ∀ p, x.base = some p → locks' p = locks p) :
    Holds v locks' B objs named t x :=
  { hx with base := fun {p} hp => by rw [hl p hp]; exact hx.base hp }

/-- a block that is written, -/
theorem write (hx : Holds v locks B objs named t x) (hb : b ∉ x.blocks) (hf : x.fresh ≠ some b) :
    Holds (v.write b d) locks B objs named t x :=
  { hx with
    loose := fun c hc => ⟨⟨(hx.loose c hc).1.used, (hx.loose c hc).1.notReserved, (hx.loose c hc).1.notOwned⟩,
      (hx.loose c hc).2⟩
    fresh := fun hc => ⟨⟨(hx.fresh hc).1.unused, (hx.fresh hc).1.lt, (hx.fresh hc).1.notReserved⟩, (hx.fresh hc).2⟩
    mem := fun c hc => by
      have hcb : c ≠ b := by
        rintro rfl
        exact hc.elim hb hf
      rw [Vol.write_block_ne hcb, hx.mem c hc] }

/-- a bit that is set or cleared, -/
theorem setUsed {y : Bool} (hx : Holds v locks B objs named t x) (hl : i ∉ x.loose) (hf : x.fresh ≠ some i) :
    Holds (v.setUsed i y) locks B objs named t x :=
  { hx with
    loose := fun c hc => by
      obtain ⟨hleak, hlt⟩ := hx.loose c hc
      refine ⟨⟨?_, hleak.notReserved, hleak.notOwned⟩, hlt⟩
      have hci : c ≠ i := fun e => hl (e ▸ hc)
      rw [Vol.setUsed_used_ne hci, hleak.used]
    fresh := fun {c} hc => by
      obtain ⟨hspare, hB⟩ := hx.fresh hc
      refine ⟨⟨?_, hspare.lt, hspare.notReserved⟩, hB⟩
      have hci : c ≠ i := fun e => hf (e ▸ hc)
      rw [Vol.setUsed_used_ne hci, hspare.unused]
    mem := hx.mem }

/-- and objects that change. -/
theorem change (hx : Holds v locks B objs named t x) (hh : ∀ k, x.Heads k → objs' k = objs k)
    (hown : ∀ b ∈ x.loose, Owned objs' b → Owned objs b)
    (hvictim : ∀ i, x.victim = some i → ¬ named' i ∧ objs' i ≠ none)
    (hfiles : ∀ i ∈ x.files, ∃ nsf, objs' i = some (.file nsf)) : Holds v locks B objs' named' t x :=
  { hx with
    obj := fun {k o} hk => by
      rw [hh k (.inr ⟨o, hk⟩)]
      refine ⟨(hx.obj hk).1, (hx.obj hk).2.imp_right ?_⟩
      rintro ⟨p, nsf, hp, ho, hkid⟩
      refine ⟨p, nsf, hp, ho, ?_⟩
      rwa [kids, hh p (.inl hp)]
    base := fun {p} hp => by
      rw [hh p (.inl hp)]
      exact hx.base hp
    loose := fun c hc => by
      obtain ⟨hleak, hlt⟩ := hx.loose c hc
      exact ⟨⟨hleak.used, hleak.notReserved, fun h => hleak.notOwned (hown c hc h)⟩, hlt⟩
    victim := fun {i} hi => ⟨hvictim i hi, (hx.victim hi).2⟩
    files := fun i hi => ⟨(hx.files i hi).1, hfiles i hi⟩ }

end Holds

/-! ### All clients -/

/-- What two clients do not both have. -/
structure Apart (x x' : Region) : Prop where
  heads : ∀ h, x.Heads h → ¬ x'.Heads h
  loose : ∀ b ∈ x.loose, b ∉ x'.loose
  fresh : ∀ b, x.fresh = some b → x'.fresh ≠ some b
  victim : ∀ i, x.victim = some i → x'.victim ≠ some i

theorem Apart.symm {x x' : Region} (h : Apart x x') : Apart x' x where
  heads k hk hk' := h.heads k hk' hk
  loose b hb hb' := h.loose b hb' hb
  fresh b hb hb' := h.fresh b hb' hb
  victim i hi hi' := h.victim i hi' hi

/-- Every client has its region, apart from those of the others. -/
structure Parted {T : Type} (named : Nat → Prop) (v : Vol) (locks : Nat → Option T) (bits : T → Bits) (objs : Tree)
    (xs : T → Option Region) : Prop where
  whole : Whole named v objs
  holds : ∀ {t x}, xs t = some x → Holds v locks (bits t) objs named t x
  apart : ∀ {t t' x x'}, t ≠ t' → xs t = some x → xs t' = some x' → Apart x x'

namespace Parted
variable {T : Type} {v v' : Vol} {locks locks' : Nat → Option T} {bits bits' : T → Bits} {objs objs' : Tree}
  {named named' : Nat → Prop} {xs : T → Option Region} {t t' : T} {x x' : Region} {b i k : Nat}
  {o o' new : Obj} {d : Block}
  {ns ns' : Nodes Entry}

theorem start {fs : Tree} (h : Rep v fs) :
    Parted (fun i => fs i ≠ none) v (fun _ => none) bits fs (fun _ : T => none) :=
  ⟨.of_rep h, nofun, nofun⟩

theorem fine (h : Parted named v locks bits objs xs) (hx : xs t = some x) : x.Fine := (h.holds hx).fine h.whole

theorem used (h : Parted named v locks bits objs xs) (hx : xs t = some x) (hb : b ∈ x.blocks) : v.used b = true :=
  ((h.holds hx).has h.whole hb).1.used

/-- Two clients have no block in common. -/
theorem disjoint (h : Parted named v locks bits objs xs) (hne : t' ≠ t) (hx : xs t = some x) (hx' : xs t' = some x')
    (hb : b ∈ x.blocks) : b ∉ x'.blocks := by
  intro hb'
  obtain ⟨k, o, ho, hb⟩ | hb := Region.mem_blocks.mp hb <;> obtain ⟨k', o', ho', hb'⟩ | hb' := Region.mem_blocks.mp hb'
  · obtain rfl := h.whole.laid.apart ((h.holds hx).obj ho).1 ((h.holds hx').obj ho').1 hb hb'
    exact (h.apart hne hx' hx).heads k (.inr ⟨o', ho'⟩) (.inr ⟨o, ho⟩)
  · exact ((h.holds hx').loose b hb').1.notOwned ⟨k, o, ((h.holds hx).obj ho).1, hb⟩
  · exact ((h.holds hx).loose b hb).1.notOwned ⟨k', o', ((h.holds hx').obj ho').1, hb'⟩
  · exact (h.apart hne.symm hx hx').loose b hb hb'

/-- The locks of the inodes stay as they are. -/
theorem relock (h : Parted named v locks bits objs xs)
    (hl : ∀ t x p, xs t = some x → x.base = some p → locks' p = locks p) : Parted named v locks' bits objs xs where
  whole := h.whole
  holds {t x} hx := (h.holds hx).relock fun p hp => hl t x p hx hp
  apart := h.apart

theorem rebits (h : Parted named v locks bits objs xs)
    (hb : ∀ t x b, xs t = some x → x.fresh = some b → bits t (bitmapBlock b) ≠ none → bits' t (bitmapBlock b) ≠ none) :
    Parted named v locks bits' objs xs where
  whole := h.whole
  holds {t x} hx :=
    { h.holds hx with fresh := fun {b} hf => ⟨((h.holds hx).fresh hf).1, hb t x b hx hf ((h.holds hx).fresh hf).2⟩ }
  apart := h.apart

theorem rewritten (h : Parted named v locks bits objs xs) (hx : xs t = some x)
    (ho : x.obj = some (k, .dir ns)) (hshows : Shows (x.mem.write b d) k (.dir ns'))
    (hnodes : nodesOf ns' = nodesOf ns) :
    (∀ c ∈ (Obj.dir ns').blocks, c ∈ x.blocks) ∧ Shows (v.write b d) k (.dir ns') := by
  have hsub : ∀ c ∈ (Obj.dir ns').blocks, c ∈ x.blocks :=
    fun c hc => Region.mem_blocks.mpr (.inl ⟨k, _, ho, Whole.blocks_of_nodes hnodes ▸ hc⟩)
  refine ⟨hsub, hshows.congr fun n hn => ?_⟩
  exact ((h.holds hx).mem_write (.inr (.inl (hsub n (Obj.mem_blocks_of_node hn))))).symm

theorem linked (h : Parted named v locks bits objs xs) (hx : xs t = some x)
    (ho : x.obj = some (k, .dir ns)) (hb : b ∈ nodesOf ns) (hloose : x.loose = [i]) (hnew : Shows x.mem i new)
    (hblock : new.blocks = [i]) (hnone : new.children = []) (hshows : Shows (x.mem.write b d) k (.dir ns'))
    (hnodes : nodesOf ns' = nodesOf ns) (hkids : (Obj.dir ns').children.Perm (i :: (Obj.dir ns).children)) :
    Whole (fun j => named j ∨ j = i) (v.write b d)
        (Function.update (Function.update objs i (some new)) k (some (.dir ns'))) ∧ objs i = none ∧
      (∀ c, Owned (Function.update (Function.update objs i (some new)) k (some (.dir ns'))) c →
        Owned objs c ∨ c ∈ x.loose) ∧
      (∀ j, j ≠ k → objs j ≠ none → Function.update (Function.update objs i (some new)) k
        (some (.dir ns')) j = objs j) ∧
      (∀ j nsf, objs j = some (.file nsf) →
        ∃ nsf', Function.update (Function.update objs i (some new)) k (some (.dir ns')) j = some (.file nsf')) ∧
      ∀ j, objs j ≠ none → ¬ named j → ¬ (named j ∨ j = i) := by
  have hH := h.holds hx
  have hobj := (hH.obj ho).1
  have hi : i ∈ x.loose := by simp [hloose]
  have hix : i ∈ x.blocks := Region.mem_blocks.mpr (.inr hi)
  have hnot := (hH.loose i hi).1.notOwned
  have hfree : objs i = none := h.whole.laid.none_of_not_owned hnot
  obtain ⟨hhas, hne⟩ := hH.has h.whole hix
  obtain ⟨hsub, hshows⟩ := h.rewritten hx ho hshows hnodes
  have hnew : Shows v i new := by
    refine hnew.congr fun n hn => ?_
    have hn' := Obj.mem_blocks_of_node hn
    rw [hblock] at hn'
    obtain rfl : n = i := List.mem_singleton.mp hn'
    exact (hH.mem n (.inl hix)).symm
  have hkeep : ∀ j, j ≠ k → objs j ≠ none →
      Function.update (Function.update objs i (some new)) k (some (.dir ns')) j = objs j := by
    intro j hjk hj
    have hji : j ≠ i := fun e => hj (e ▸ hfree)
    rw [update_of_ne hjk, update_of_ne hji]
  refine ⟨h.whole.link hobj hb ⟨hhas, hne, hnot⟩ hnew hblock hnone hshows hnodes hkids, hfree, fun c hc => ?_, hkeep,
    fun j nsf hj => ?_, fun j hj hnamed => ?_⟩
  · obtain ⟨j, oj, hj, hc⟩ := hc
    obtain ⟨rfl, ⟨⟩⟩ | ⟨-, hj⟩ := update_eq_some.mp hj
    · exact .inl ⟨j, _, hobj, Whole.blocks_of_nodes hnodes ▸ hc⟩
    · obtain ⟨rfl, ⟨⟩⟩ | ⟨-, hj⟩ := update_eq_some.mp hj
      · rw [hblock] at hc
        obtain rfl : c = j := List.mem_singleton.mp hc
        exact .inr hi
      · exact .inl ⟨j, oj, hj, hc⟩
  · have hjk : j ≠ k := by
      rintro rfl
      rw [hobj] at hj
      cases hj
    exact ⟨nsf, by rw [hkeep j hjk (by simp [hj]), hj]⟩
  · exact fun hor => hor.elim hnamed fun e => hj (e ▸ hfree)

theorem file_update (hk : ∀ nsf, objs k = some (.file nsf) → ∃ nsf', o' = .file nsf') (j : Nat)
    (nsf : Nodes Nat) (hj : objs j = some (.file nsf)) :
    ∃ nsf', Function.update objs k (some o') j = some (.file nsf') := by
  by_cases hjk : j = k
  · subst hjk
    obtain ⟨nsf', rfl⟩ := hk nsf hj
    exact ⟨nsf', update_self ..⟩
  · exact ⟨nsf, by rw [update_of_ne hjk, hj]⟩

variable [DecidableEq T]

theorem update {y : Option Region} (h : Parted named v locks bits objs xs) (hw : Whole named' v' objs')
    (hself : ∀ x, y = some x → Holds v' locks (bits t) objs' named' t x)
    (hothers : ∀ t' x', t' ≠ t → xs t' = some x' → Holds v' locks (bits t') objs' named' t' x')
    (hapart : ∀ t' x x', t' ≠ t → y = some x → xs t' = some x' → Apart x x') :
    Parted named' v' locks bits objs' (Function.update xs t y) := by
  have hcases : ∀ {t' x'}, Function.update xs t y t' = some x' → t' = t ∧ y = some x' ∨ t' ≠ t ∧ xs t' = some x' := by
    intro t' x' hx'
    by_cases ht : t' = t
    · rw [ht, update_self] at hx'
      exact .inl ⟨ht, hx'⟩
    · rw [update_of_ne ht] at hx'
      exact .inr ⟨ht, hx'⟩
  refine ⟨hw, fun {t' x'} hx' => ?_, fun {t₁ t₂ x₁ x₂} hne hx₁ hx₂ => ?_⟩
  · obtain ⟨rfl, hy⟩ | ⟨ht, hx'⟩ := hcases hx'
    · exact hself x' hy
    · exact hothers t' x' ht hx'
  · obtain ⟨rfl, hy₁⟩ | ⟨ht₁, hy₁⟩ := hcases hx₁ <;> obtain ⟨rfl, hy₂⟩ | ⟨ht₂, hy₂⟩ := hcases hx₂
    · exact absurd rfl hne
    · exact hapart t₂ x₁ x₂ ht₂ hy₁ hy₂
    · exact (hapart t₁ x₂ x₁ ht₁ hy₂ hy₁).symm
    · exact h.apart hne hy₁ hy₂

theorem same (h : Parted named v locks bits objs xs) (hx : xs t = some x) :
    Parted named v locks bits objs (Function.update xs t (some x)) := by
  rwa [update_eq_self_iff.mpr hx.symm]

theorem idle (h : Parted named v locks bits objs xs) :
    Parted named v locks bits objs (Function.update xs t (some .idle)) := by
  refine h.update h.whole ?_ (fun _ _ _ => h.holds) ?_
  · rintro _ ⟨⟩
    refine ⟨(fun ho => by cases ho), (fun hp => by cases hp), (fun hl => by cases hl), (fun _ hb => by cases hb),
      List.nodup_nil, (fun hb => by cases hb), (fun hi => by cases hi), (fun _ hi => by cases hi), fun b hb => ?_⟩
    simp [Region.idle, Region.blocks] at hb
  · rintro _ _ _ _ ⟨⟩ _
    refine ⟨?_, (fun _ hb => by cases hb), (fun _ hb => by cases hb), fun _ hi => by cases hi⟩
    rintro _ (hp | ⟨_, ho⟩)
    · cases hp
    · cases ho

theorem finish (h : Parted named v locks bits objs xs) :
    Parted named v locks bits objs (Function.update xs t none) :=
  h.update h.whole (fun _ hx => by cases hx) (fun _ _ _ => h.holds) fun _ _ _ _ hx => by cases hx

theorem nest {y : Option Nat} (h : Parted named v locks bits objs xs) (hx : xs t = some x)
    (hy : ∀ l, y = some l → x.base ≠ some l) :
    Parted named v locks bits objs (Function.update xs t (some { x with below := y })) := by
  refine h.update h.whole ?_ (fun _ _ _ => h.holds) ?_
  · rintro _ ⟨⟩
    exact { h.holds hx with below := fun {l} hl => hy l hl }
  · rintro t' _ x' hne ⟨⟩ hx'
    exact { h.apart hne.symm hx hx' with }

theorem enter {files : List Nat} (h : Parted named v locks bits objs xs) (hk : locks k = some t) (ho : objs k = some o)
    (hfree : ∀ t' x', t' ≠ t → xs t' = some x' → ¬ x'.Heads k)
    (hfiles : ∀ i ∈ files, i ∈ o.children ∧ ∃ nsf, objs i = some (.file nsf)) :
    Parted named v locks bits
    objs (Function.update xs t (some ⟨some (k, o), [], none, none, files, some k, none, v⟩)) := by
  refine h.update h.whole ?_ (fun _ _ _ => h.holds) ?_
  · rintro _ ⟨⟩
    refine ⟨?_, ?_, (fun hl => by cases hl), (fun _ hb => by cases hb), List.nodup_nil, (fun hb => by cases hb),
      (fun hi => by cases hi), ?_, fun _ _ => rfl⟩
    · rintro _ _ ⟨⟩
      exact ⟨ho, .inl rfl⟩
    · rintro _ ⟨⟩
      exact ⟨hk, by simp [ho]⟩
    · exact fun i hi => ⟨⟨k, o, rfl, (hfiles i hi).1⟩, (hfiles i hi).2⟩
  · rintro t' _ x' hne ⟨⟩ hx'
    refine ⟨?_, (fun _ hb => by cases hb), (fun _ hb => by cases hb), fun _ hi => by cases hi⟩
    rintro _ (hp | ⟨_, ho⟩)
    · cases hp
      exact hfree t' x' hne hx'
    · cases ho
      exact hfree t' x' hne hx'

theorem leave (h : Parted named v locks bits objs xs) (hx : xs t = some x) :
    Parted named v locks bits objs
      (Function.update xs t (some { x with obj := none, victim := none, files := [], base := none })) := by
  refine h.update h.whole ?_ (fun _ _ _ => h.holds) ?_
  · rintro _ ⟨⟩
    refine { h.holds hx with
      obj := fun ho => by cases ho
      base := fun hp => by cases hp
      below := fun _ hp => by cases hp
      victim := fun hi => by cases hi
      files := fun _ hi => by cases hi
      mem := fun b hb => (h.holds hx).mem b (hb.imp_left fun hb => ?_) }
    exact List.mem_append_right _ hb
  · rintro t' _ x' hne ⟨⟩ hx'
    have hapart := h.apart hne.symm hx hx'
    refine ⟨?_, hapart.loose, hapart.fresh, fun _ hi => by cases hi⟩
    rintro _ (hp | ⟨_, ho⟩)
    · cases hp
    · cases ho

/-- The file that was cut off is taken apart, under its lock. -/
theorem take (h : Parted named v locks bits objs xs) (hx : xs t = some x) (hi : locks i = some t)
    (hvictim : x.victim = some i) (hfree : x.base ≠ some i) :
    ∃ ns, Shows v i (.file ns) ∧ Parted named v locks bits (Function.update objs i none)
      (Function.update xs t
        (some { x with loose := (Obj.file ns).blocks, victim := none, below := some i, mem := v })) := by
  have hH := h.holds hx
  obtain ⟨⟨hnot, hsome⟩, k, nsk, hobj⟩ := hH.victim hvictim
  obtain ⟨o, ho⟩ := Option.ne_none_iff_exists'.mp hsome
  obtain ⟨ns, rfl⟩ := h.whole.file ho hnot
  have hown : ∀ {b}, Owned (Function.update objs i none) b → ∃ j o, j ≠ i ∧ objs j = some o ∧ b ∈ o.blocks := by
    rintro b ⟨j, o, hj, hb⟩
    obtain ⟨-, ⟨⟩⟩ | ⟨hji, hj⟩ := update_eq_some.mp hj
    exact ⟨j, o, hji, hj, hb⟩
  have hfiles : ∀ {t x}, xs t = some x → ∀ j ∈ x.files, ∃ nsf, Function.update objs i none j = some (.file nsf) := by
    intro t x hx j hj
    have hji : j ≠ i := fun e => hnot (e ▸ (h.holds hx).files_named h.whole hj)
    rw [update_of_ne hji]
    exact ((h.holds hx).files j hj).2
  -- What a client has taken a lock of has a name, or is the file of another.
  have hheads : ∀ {t' x' j}, xs t' = some x' → x'.Heads j → (x'.base = some j → j ≠ i) → j ≠ i := by
    rintro t' x' j hx' hj hbase rfl
    obtain hj | ⟨o', ho'⟩ := hj
    · exact hbase hj rfl
    · obtain ⟨-, hj | ⟨p, nsf, -, -, hkid⟩⟩ := (h.holds hx').obj ho'
      · exact hbase hj rfl
      · exact hnot (h.whole.tree.has_kid p j hkid)
  have hself : ∀ {j}, x.Heads j → j ≠ i := by
    intro j hj
    refine hheads hx hj fun hbase => ?_
    obtain ⟨nsj, hj⟩ := hH.base_of_victim hvictim hbase
    rintro rfl
    rw [ho] at hj
    cases hj
  refine ⟨ns, h.whole.laid.shows ho, h.update (h.whole.take hnot) ?_ (fun t' x' hne hx' => ?_) ?_⟩
  · rintro _ ⟨⟩
    have hrest : Holds v locks (bits t) objs named t { x with loose := [], victim := none } := by
      refine { hH with
        loose := (fun _ hb => by cases hb)
        nodup := List.nodup_nil
        victim := (fun hj => by cases hj)
        mem := fun b hb => hH.mem b (hb.imp_left fun hb => ?_) }
      rw [Region.blocks, List.append_nil] at hb
      exact List.mem_append_left _ hb
    have hchange : Holds v locks (bits t) (Function.update objs i none) named t
      { x with loose := [], victim := none } :=
      hrest.change (fun j hj => update_of_ne (hself hj) ..) (fun _ hb => by cases hb) (fun _ hj => by cases hj)
        fun j hj => hfiles hx j hj
    refine { hchange with
      below := fun hl => by cases hl; exact hfree
      loose := fun b hb => ?_
      nodup := h.whole.laid.nodup ho
      mem := fun _ _ => rfl }
    have hhas := h.whole.laid.has ho hb
    refine ⟨⟨hhas.used, h.whole.not_reserved ho hb, fun hb' => ?_⟩, hhas.lt⟩
    obtain ⟨j, oj, hji, hj, hb'⟩ := hown hb'
    exact hji (h.whole.laid.apart hj ho hb' hb)
  · refine (h.holds hx').change (fun j hj => update_of_ne (hheads hx' hj ?_) ..) (fun b _ hb => ?_)
      (fun j hj => ?_) (hfiles hx')
    · rintro hbase rfl
      exact hne (Option.some.inj (((h.holds hx').base hbase).1.symm.trans hi))
    · obtain ⟨j, o, -, hj⟩ := hown hb
      exact ⟨j, o, hj⟩
    · have hji : j ≠ i := fun e => (h.apart hne.symm hx hx').victim i hvictim (e ▸ hj)
      rw [update_of_ne hji]
      exact ((h.holds hx').victim hj).1
  · rintro t' _ x' hne ⟨⟩ hx'
    have hapart := h.apart hne.symm hx hx'
    refine ⟨hapart.heads, fun b hb hb' => ?_, hapart.fresh, fun _ hj => by cases hj⟩
    exact ((h.holds hx').loose b hb').1.notOwned ⟨i, _, ho, hb⟩

theorem fill (h : Parted named v locks bits objs xs) (hx : xs t = some x) (hb : v.Spare b)
    (hbits : bits t (bitmapBlock b) ≠ none) (hlone : ∀ t', t' ≠ t → bits t' (bitmapBlock b) = none) :
    Parted named (v.write b d) locks bits objs
      (Function.update xs t (some { x with fresh := some b, mem := x.mem.write b d })) := by
  have hunused : ∀ {t x}, xs t = some x → b ∉ x.blocks := fun hx hmem => hb.not_used (h.used hx hmem)
  have hfresh : ∀ {t' x'}, t' ≠ t → xs t' = some x' → x'.fresh ≠ some b :=
    fun hne hx' hf => ((h.holds hx').fresh hf).2 (hlone _ hne)
  have hnot : ¬ Owned objs b := fun hown => hb.not_used (h.whole.laid.owned_has hown).used
  refine h.update (h.whole.write_outside hnot) ?_ (fun t' x' hne hx' => ?_) ?_
  · rintro _ ⟨⟩
    refine { h.holds hx with loose := fun c hc => ?_, fresh := ?_, mem := fun c hc => ?_ }
    · obtain ⟨hleak, hlt⟩ := (h.holds hx).loose c hc
      exact ⟨⟨hleak.used, hleak.notReserved, hleak.notOwned⟩, hlt⟩
    · rintro _ ⟨⟩
      exact ⟨⟨hb.unused, hb.lt, hb.notReserved⟩, hbits⟩
    · obtain hc | hc := hc
      · exact (h.holds hx).mem_write (.inr (.inl hc))
      · exact (h.holds hx).mem_write (.inl (Option.some.inj hc).symm)
  · exact (h.holds hx').write (hunused hx') (hfresh hne hx')
  · rintro t' _ x' hne ⟨⟩ hx'
    refine { h.apart hne.symm hx hx' with fresh := ?_ }
    rintro _ ⟨⟩
    exact hfresh hne hx'

theorem set (h : Parted named v locks bits objs xs) (hx : xs t = some x) (hi : x.fresh = some i) :
    Parted named (v.setUsed i true) locks bits objs
      (Function.update xs t (some { x with loose := i :: x.loose, fresh := none })) := by
  have hspare := ((h.holds hx).fresh hi).1
  have hunused : ∀ {t x}, xs t = some x → i ∉ x.loose :=
    fun hx hmem => hspare.not_used ((h.holds hx).loose i hmem).1.used
  have hnot : ¬ Owned objs i := fun hown => hspare.not_used (h.whole.laid.owned_has hown).used
  refine h.update h.whole.use ?_ (fun t' x' hne hx' => ?_) ?_
  · rintro _ ⟨⟩
    refine { h.holds hx with
      loose := fun c hc => ?_
      nodup := List.nodup_cons.mpr ⟨hunused hx, (h.holds hx).nodup⟩
      fresh := (fun hf => by cases hf)
      mem := fun c hc => (h.holds hx).mem c ?_ }
    · obtain rfl | hc := List.mem_cons.mp hc
      · exact ⟨⟨update_self .., hspare.notReserved, hnot⟩, hspare.lt⟩
      · obtain ⟨hleak, hlt⟩ := (h.holds hx).loose c hc
        have hci : c ≠ i := fun e => hunused hx (e ▸ hc)
        exact ⟨⟨by rw [Vol.setUsed_used_ne hci, hleak.used], hleak.notReserved, hleak.notOwned⟩, hlt⟩
    · rw [Region.mem_blocks] at hc ⊢
      simp only [List.mem_cons, reduceCtorEq, or_false] at hc
      obtain hc | rfl | hc := hc
      · exact .inl (.inl hc)
      · exact .inr hi
      · exact .inl (.inr hc)
  · exact (h.holds hx').setUsed (hunused hx') ((h.apart hne.symm hx hx').fresh i hi)
  · rintro t' _ x' hne ⟨⟩ hx'
    refine { h.apart hne.symm hx hx' with loose := fun b hb => ?_, fresh := fun _ hf => by cases hf }
    obtain rfl | hb := List.mem_cons.mp hb
    · exact hunused hx'
    · exact (h.apart hne.symm hx hx').loose b hb

theorem clear (h : Parted named v locks bits objs xs) (hx : xs t = some x) (hi : i ∈ x.loose) :
    Parted named (v.setUsed i false) locks bits objs
      (Function.update xs t (some { x with loose := x.loose.erase i })) := by
  obtain ⟨hleak, -⟩ := (h.holds hx).loose i hi
  refine h.update (h.whole.free hleak.notOwned hleak.notReserved) ?_ (fun t' x' hne hx' => ?_) ?_
  · rintro _ ⟨⟩
    have hH : Holds v locks (bits t) objs named t { x with loose := x.loose.erase i } :=
      { h.holds hx with
        loose := fun c hc => (h.holds hx).loose c (List.mem_of_mem_erase hc)
        nodup := (h.holds hx).nodup.erase i
        mem := fun c hc => (h.holds hx).mem c (hc.imp_left fun hc => by
          rw [Region.mem_blocks] at hc ⊢
          exact hc.imp_right List.mem_of_mem_erase) }
    exact hH.setUsed (h.holds hx).nodup.not_mem_erase ((h.holds hx).fresh_ne hleak.used)
  · exact (h.holds hx').setUsed ((h.apart hne.symm hx hx').loose i hi) ((h.holds hx').fresh_ne hleak.used)
  · rintro t' _ x' hne ⟨⟩ hx'
    have hapart := h.apart hne.symm hx hx'
    exact { hapart with loose := fun b hb => hapart.loose b (List.mem_of_mem_erase hb) }

/-- A block of the object is put, and with it the objects are `objs'`. The client goes on with
the object `k'`, the loose blocks `L` and the known files `F`. -/
theorem put {k' : Nat} {w : Option Nat} {L F : List Nat} (h : Parted named v locks bits objs xs) (hx : xs t = some x)
    (ho : x.obj = some (k, o)) (hb : b ∈ o.blocks) (hw : Whole named' (v.write b d) objs')
    (hkeep : ∀ j, j ≠ k → objs j ≠ none → objs' j = objs j) (hthere : objs' k ≠ none)
    (hfile : ∀ j nsf, objs j = some (.file nsf) → ∃ nsf', objs' j = some (.file nsf'))
    (hown : ∀ c, Owned objs' c → Owned objs c ∨ c ∈ x.loose)
    (hnamed : ∀ j, objs j ≠ none → ¬ named j → ¬ named' j)
    (hobj : objs' k' = some o' ∧ (x.base = some k' ∨ ∃ p nsf, x.base = some p ∧ o' = .file nsf ∧ k' ∈ kids objs' p))
    (hfree : k' = k ∨ objs k' = none) (hsub : ∀ c ∈ o'.blocks, c ∈ x.blocks)
    (hloose : ∀ c ∈ L, c ∈ x.blocks ∧ Leaked (v.write b d) objs' c) (hnodup : L.Nodup)
    (hvictim : ∀ i, w = some i →
      (¬ named' i ∧ objs i ≠ none ∧ (x.victim = some i ∨ named i)) ∧ ∃ ns, o' = .dir ns)
    (hfiles : ∀ i ∈ F, i ∈ x.files ∧ i ∈ o'.children) :
    Parted named' (v.write b d) locks bits objs' (Function.update xs t
      (some { x with obj := some (k', o'), loose := L, victim := w, files := F, mem := x.mem.write b d })) := by
  have hH := h.holds hx
  have hbx : b ∈ x.blocks := Region.mem_blocks.mpr (.inl ⟨k, o, ho, hb⟩)
  have hthere' : ∀ j, objs j ≠ none → objs' j ≠ none := by
    intro j hj
    by_cases hjk : j = k
    · rwa [hjk]
    · rwa [hkeep j hjk hj]
  refine h.update hw ?_ (fun t' x' hne hx' => ?_) ?_
  · rintro _ ⟨⟩
    refine ⟨?_, fun {p} hp => ⟨(hH.base hp).1, hthere' p (hH.base hp).2⟩, hH.below, fun c hc => ?_, hnodup,
      fun {c} hc => ?_, fun {i} hi => ?_, fun i hi => ?_, fun c hc => hH.mem_write (.inr (hc.imp_left fun hc => ?_))⟩
    · rintro _ _ ⟨⟩
      exact hobj
    · obtain ⟨hc, hleak⟩ := hloose c hc
      exact ⟨hleak, ((hH.has h.whole hc).1).lt⟩
    · obtain ⟨hspare, hbits⟩ := hH.fresh hc
      exact ⟨⟨hspare.unused, hspare.lt, hspare.notReserved⟩, hbits⟩
    · obtain ⟨⟨hnot, hi, -⟩, ns, hns⟩ := hvictim i hi
      exact ⟨⟨hnot, hthere' i hi⟩, k', ns, by rw [hns]⟩
    · obtain ⟨-, nsf, hnsf⟩ := hH.files i (hfiles i hi).1
      exact ⟨⟨k', o', rfl, (hfiles i hi).2⟩, hfile i nsf hnsf⟩
    · obtain ⟨_, _, ⟨⟩, hc⟩ | hc := Region.mem_blocks.mp hc
      · exact hsub c hc
      · exact (hloose c hc).1
  · have hH' := h.holds hx'
    refine (hH'.write (h.disjoint hne hx hx' hbx) (hH'.fresh_ne (h.used hx hbx))).change ?_ ?_ ?_ ?_
    · intro j hj
      refine hkeep j ?_ (hH'.there hj)
      rintro rfl
      exact (h.apart hne hx' hx).heads j hj (.inr ⟨o, ho⟩)
    · intro c hc hown'
      exact (hown c hown').resolve_right fun hc' => (h.apart hne.symm hx hx').loose c hc' hc
    · intro j hj
      obtain ⟨⟨hnot, hsome⟩, -⟩ := hH'.victim hj
      exact ⟨hnamed j hsome hnot, hthere' j hsome⟩
    · intro j hj
      obtain ⟨-, nsf, hnsf⟩ := hH'.files j hj
      exact hfile j nsf hnsf
  · rintro t' _ x' hne ⟨⟩ hx'
    have hapart := h.apart hne.symm hx hx'
    refine ⟨?_, fun c hc hc' => ?_, hapart.fresh, fun i hi hi' => ?_⟩
    · rintro j (hj | ⟨_, ⟨⟩⟩) hj'
      · exact hapart.heads j (.inl hj) hj'
      · obtain rfl | hnone := hfree
        · exact hapart.heads _ (.inr ⟨o, ho⟩) hj'
        · exact (h.holds hx').there hj' hnone
    · exact h.disjoint hne hx hx' (hloose c hc).1 (Region.mem_blocks.mpr (.inr hc'))
    · obtain ⟨⟨-, -, hi | hi⟩, -⟩ := hvictim i hi
      · exact hapart.victim i hi hi'
      · exact ((h.holds hx').victim hi').1.1 hi

theorem grow (h : Parted named v locks bits objs xs) (hx : xs t = some x) (ho : x.obj = some (k, o)) (hb : b ∈ o.blocks)
    (hlike : o.Like o') (hshows : Shows (x.mem.write b d) k o') (hperm : o'.blocks.Perm (o.blocks ++ x.loose)) :
    Parted named (v.write b d) locks bits (Function.update objs k (some o'))
      (Function.update xs t (some { x with obj := some (k, o'), loose := [], mem := x.mem.write b d })) := by
  have hH := h.holds hx
  obtain ⟨hobj, hbase⟩ := hH.obj ho
  have hblocks : x.blocks = o.blocks ++ x.loose := by simp [Region.blocks, ho]
  have hsub : ∀ c ∈ o'.blocks, c ∈ x.blocks := fun c hc => hblocks ▸ hperm.mem_iff.mp hc
  have hshows : Shows (v.write b d) k o' :=
    hshows.congr fun n hn => (hH.mem_write (.inr (.inl (hsub n (Obj.mem_blocks_of_node hn))))).symm
  have hw := h.whole.grow hobj hb hlike hshows (fun c hc => by
    obtain hc | hc := List.mem_append.mp (hperm.mem_iff.mp hc)
    · exact .inl hc
    · obtain ⟨hhas, hne⟩ := hH.has h.whole (Region.mem_blocks.mpr (.inr hc))
      exact .inr ⟨hhas, hne, (hH.loose c hc).1.notOwned⟩) (by
    rw [hperm.nodup_iff, ← hblocks]
    exact (h.fine hx).nodup)
  have hchildren : o'.children = o.children := by
    cases hlike with
    | file => rfl
    | dir hitems => exact congrArg (List.map Prod.snd) hitems
  refine h.put (w := x.victim) (F := x.files) hx ho hb hw (fun j hj _ => update_of_ne hj ..) (by simp)
    (file_update fun nsf hnsf => ?_) (fun c hc => ?_) (fun _ _ hj => hj) ⟨update_self .., hbase.imp_right ?_⟩
    (.inl rfl) hsub (fun _ hc => by cases hc) List.nodup_nil (fun i hi => ?_) fun i hi => ⟨hi, ?_⟩
  · rw [hobj] at hnsf
    cases hnsf
    cases hlike with
    | file => exact ⟨_, rfl⟩
  · obtain ⟨j, oj, hj, hc⟩ := hc
    obtain ⟨rfl, ⟨⟩⟩ | ⟨-, hj⟩ := update_eq_some.mp hj
    · obtain hc | hc := List.mem_append.mp (hperm.mem_iff.mp hc)
      · exact .inl ⟨j, o, hobj, hc⟩
      · exact .inr hc
    · exact .inl ⟨j, oj, hj, hc⟩
  · rintro ⟨p, nsf, hp, rfl, hkid⟩
    cases hlike with
    | file => exact ⟨p, _, hp, rfl, Whole.mem_kids_update hobj hkid⟩
  · obtain ⟨⟨hnot, hsome⟩, _, ns, hns⟩ := hH.victim hi
    rw [ho] at hns
    cases hns
    cases hlike with
    | dir _ => exact ⟨⟨hnot, hsome, .inl hi⟩, _, rfl⟩
  · obtain ⟨⟨_, _, ho', hi⟩, -⟩ := hH.files i hi
    rw [ho] at ho'
    cases ho'
    rwa [hchildren]

theorem shed {nsf nsf' : Nodes Nat} {lost : List Nat} (h : Parted named v locks bits objs xs)
    (hx : xs t = some x) (ho : x.obj = some (k, .file nsf)) (hb : b ∈ nodesOf nsf)
    (hshows : Shows (x.mem.write b d) k (.file nsf'))
    (hperm : (Obj.file nsf).blocks.Perm ((Obj.file nsf').blocks ++ lost)) :
    Parted named (v.write b d) locks bits (Function.update objs k (some (.file nsf')))
      (Function.update xs t (some { x with obj := some (k, .file nsf'), loose := lost, mem := x.mem.write b d })) := by
  have hH := h.holds hx
  obtain ⟨hobj, hbase⟩ := hH.obj ho
  have hnodup := h.whole.laid.nodup hobj
  rw [hperm.nodup_iff, List.nodup_append] at hnodup
  have hmem : ∀ c ∈ (Obj.file nsf).blocks, c ∈ x.blocks := fun c hc => Region.mem_blocks.mpr (.inl ⟨k, _, ho, hc⟩)
  have hsub : ∀ c ∈ (Obj.file nsf').blocks, c ∈ (Obj.file nsf).blocks :=
    fun c hc => hperm.mem_iff.mpr (List.mem_append_left _ hc)
  have hlost : ∀ c ∈ lost, c ∈ (Obj.file nsf).blocks := fun c hc => hperm.mem_iff.mpr (List.mem_append_right _ hc)
  have hshows : Shows (v.write b d) k (.file nsf') :=
    hshows.congr fun n hn => (hH.mem_write (.inr (.inl (hmem n (hsub n (Obj.mem_blocks_of_node hn)))))).symm
  have hw := h.whole.grow hobj (Obj.mem_blocks_of_node hb) .file hshows (fun c hc => .inl (hsub c hc)) hnodup.1
  have hown : ∀ c, Owned (Function.update objs k (some (.file nsf'))) c →
      c ∈ (Obj.file nsf').blocks ∨ ∃ j oj, j ≠ k ∧ objs j = some oj ∧ c ∈ oj.blocks := by
    rintro c ⟨j, oj, hj, hc⟩
    obtain ⟨rfl, ⟨⟩⟩ | ⟨hjk, hj⟩ := update_eq_some.mp hj
    · exact .inl hc
    · exact .inr ⟨j, oj, hjk, hj, hc⟩
  refine h.put (w := x.victim) (F := x.files) hx ho (Obj.mem_blocks_of_node hb) hw
    (fun j hj _ => update_of_ne hj ..) (by simp) (file_update fun _ _ => ⟨_, rfl⟩) (fun c hc => .inl ?_)
    (fun _ _ hj => hj) ⟨update_self .., hbase.imp_right ?_⟩ (.inl rfl) (fun c hc => hmem c (hsub c hc))
    (fun c hc => ⟨hmem c (hlost c hc), ?_⟩) hnodup.2.1 (fun i hi => ?_) fun i hi => ?_
  · obtain hc | ⟨j, oj, -, hj, hc⟩ := hown c hc
    · exact ⟨k, _, hobj, hsub c hc⟩
    · exact ⟨j, oj, hj, hc⟩
  · rintro ⟨p, _, hp, -, hkid⟩
    exact ⟨p, _, hp, rfl, Whole.mem_kids_update hobj hkid⟩
  · refine ⟨(h.whole.laid.has hobj (hlost c hc)).used, h.whole.not_reserved hobj (hlost c hc), fun hc' => ?_⟩
    obtain hc' | ⟨j, oj, hjk, hj, hc'⟩ := hown c hc'
    · exact hnodup.2.2 c hc' c hc rfl
    · exact hjk (h.whole.laid.apart hj hobj hc' (hlost c hc))
  · obtain ⟨-, _, ns, hns⟩ := hH.victim hi
    rw [ho] at hns
    cases hns
  · obtain ⟨⟨_, _, ho', hi⟩, -⟩ := hH.files i hi
    rw [ho] at ho'
    cases ho'
    cases hi

theorem link (h : Parted named v locks bits objs xs) (hx : xs t = some x)
    (ho : x.obj = some (k, .dir ns)) (hb : b ∈ nodesOf ns) (hloose : x.loose = [i]) (hnew : Shows x.mem i new)
    (hblock : new.blocks = [i]) (hnone : new.children = []) (hshows : Shows (x.mem.write b d) k (.dir ns'))
    (hnodes : nodesOf ns' = nodesOf ns) (hkids : (Obj.dir ns').children.Perm (i :: (Obj.dir ns).children)) :
    Parted (fun j => named j ∨ j = i) (v.write b d) locks bits
      (Function.update (Function.update objs i (some new)) k (some (.dir ns'))) (Function.update xs t
        (some { x with obj := some (k, .dir ns'), loose := [], files := [], mem := x.mem.write b d })) := by
  have hH := h.holds hx
  obtain ⟨hw, hfree, hown, hkeep, hfile, hnamed⟩ := h.linked hx ho hb hloose hnew hblock hnone hshows hnodes hkids
  refine h.put (w := x.victim) (F := []) hx ho (Obj.mem_blocks_of_node hb) hw hkeep (by simp) hfile hown hnamed
    ⟨update_self .., (hH.obj ho).2.imp_right ?_⟩ (.inl rfl) (h.rewritten hx ho hshows hnodes).1
    (fun _ hc => by cases hc) List.nodup_nil (fun j hj => ?_) fun _ hj => by cases hj
  · rintro ⟨_, _, -, ⟨⟩, -⟩
  · obtain ⟨⟨hnot, hsome⟩, -⟩ := hH.victim hj
    exact ⟨⟨hnamed j hsome hnot, hsome, .inl hj⟩, ns', rfl⟩

/-- The client goes on with the file that it has made; it keeps the lock of the directory. -/
theorem make (h : Parted named v locks bits objs xs) (hx : xs t = some x) (hbase : x.base = some k)
    (ho : x.obj = some (k, .dir ns)) (hb : b ∈ nodesOf ns) (hloose : x.loose = [i])
    (hnew : Shows x.mem i (.file [(i, [])])) (hshows : Shows (x.mem.write b d) k (.dir ns'))
    (hnodes : nodesOf ns' = nodesOf ns) (hkids : (Obj.dir ns').children.Perm (i :: (Obj.dir ns).children)) :
    Parted (fun j => named j ∨ j = i) (v.write b d) locks bits
      (Function.update (Function.update objs i (some (.file [(i, [])]))) k (some (.dir ns'))) (Function.update xs t
        (some { x with obj := some (i, .file [(i, [])]), loose := [], victim := none, files := [],
                       mem := x.mem.write b d })) := by
  obtain ⟨hw, hfree, hown, hkeep, hfile, hnamed⟩ := h.linked hx ho hb hloose hnew rfl rfl hshows hnodes hkids
  have hik : i ≠ k := by
    rintro rfl
    rw [((h.holds hx).obj ho).1] at hfree
    cases hfree
  refine h.put (w := none) (F := []) hx ho (Obj.mem_blocks_of_node hb) hw hkeep (by simp) hfile hown hnamed
    ⟨?_, .inr ⟨k, _, hbase, rfl, ?_⟩⟩ (.inr hfree) (fun c hc => ?_)
    (fun _ hc => by cases hc) List.nodup_nil (fun j hj => by cases hj) fun _ hj => by cases hj
  · rw [update_of_ne hik, update_self]
  · rw [kids_update, if_pos rfl]
    exact hkids.mem_iff.mpr List.mem_cons_self
  · obtain rfl : c = i := List.mem_singleton.mp hc
    exact Region.mem_blocks.mpr (.inr (by simp [hloose]))

theorem cut (h : Parted named v locks bits objs xs) (hx : xs t = some x)
    (ho : x.obj = some (k, .dir ns)) (hb : b ∈ nodesOf ns) (hloose : x.loose = []) (hi : i ∈ x.files)
    (hshows : Shows (x.mem.write b d) k (.dir ns')) (hnodes : nodesOf ns' = nodesOf ns)
    (hkids : (Obj.dir ns).children.Perm (i :: (Obj.dir ns').children)) :
    (outsideBitmap i = true ∧ i ≠ 0 ∧ i ≠ k) ∧
      Parted (fun j => named j ∧ j ≠ i) (v.write b d) locks bits (Function.update objs k (some (.dir ns')))
        (Function.update xs t
          (some { x with obj := some (k, .dir ns'), victim := some i, files := [], mem := x.mem.write b d })) := by
  have hH := h.holds hx
  obtain ⟨hobj, hbase⟩ := hH.obj ho
  obtain ⟨-, nsf, hfile⟩ := hH.files i hi
  have hnamed := hH.files_named h.whole hi
  have hhead := h.whole.laid.head_mem hfile
  have hik : i ≠ k := by
    rintro rfl
    rw [hobj] at hfile
    cases hfile
  obtain ⟨hsub, hshows⟩ := h.rewritten hx ho hshows hnodes
  refine ⟨⟨(h.whole.laid.has hfile hhead).data, h.whole.laid.ne_zero hfile hhead, hik⟩, ?_⟩
  refine h.put (w := some i) (L := x.loose) (F := []) hx ho (Obj.mem_blocks_of_node hb)
    (h.whole.cut hobj hb hfile hshows hnodes hkids) (fun j hj _ => update_of_ne hj ..) (by simp)
    (file_update fun nsf' hnsf' => ?_) (fun c hc => .inl ?_) (fun j _ hj hor => hj hor.1)
    ⟨update_self .., hbase.imp_right ?_⟩ (.inl rfl) hsub (fun c hc => ?_) hH.nodup
    (fun j hj => ?_) fun _ hj => by cases hj
  · rw [hobj] at hnsf'
    cases hnsf'
  · obtain ⟨j, oj, hj, hc⟩ := hc
    obtain ⟨rfl, ⟨⟩⟩ | ⟨-, hj⟩ := update_eq_some.mp hj
    · exact ⟨j, _, hobj, Whole.blocks_of_nodes hnodes ▸ hc⟩
    · exact ⟨j, oj, hj, hc⟩
  · rintro ⟨_, _, -, ⟨⟩, -⟩
  · rw [hloose] at hc
    cases hc
  · cases hj
    exact ⟨⟨fun hor => hor.2 rfl, by simp [hfile], .inr hnamed⟩, ns', rfl⟩

end Parted

end Yfs.Fs

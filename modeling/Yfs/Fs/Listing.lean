import Mathlib.Data.Set.Insert
import Yfs.Fs.Session

/-! A directory as a finite map.

What a directory lists is a set of names with inode numbers, and a tree has one such set
for each of its directories. `lookup` and `readdir` read the set of one directory;
`create`, `mkdir` and `symlink` insert one pair into it and `unlink` takes one out, and
they leave the sets of all other directories alone (`directory_map`). Where the entries
are in the chain of nodes, and which nodes have holes, does not matter. -/
namespace Yfs.Fs
open Yfs.Base
open Function (update update_apply update_eq_self_iff update_of_ne update_self)

/-! ### Reading a directory -/

section
variable {v : Vol} {fs : Tree} {p n : Nat} {s : List Byte} {ns pre post : Nodes Entry} {es : List Entry}
  {H : List Nat} {b : Block}

/-- `lookup` walks along the nodes as `unlink` does. -/
theorem lookupLoop_eq (fuel n : Nat) (buf : Block) :
    lookupLoop p s fuel buf = unlinkLoop p s fuel n buf >>= fun r =>
      match r with
      | none => pure 0
      | some (_, buf, i) => entryInum buf i := by
  induction fuel generalizing n buf with
  | zero => exact congrArg (Prog.op Call.hang) (funext nofun)
  | succ fuel ih =>
    rw [lookupLoop, unlinkLoop, Prog.bind_assoc]
    congr 1
    funext found
    cases found with
    | some i => rfl
    | none =>
      dsimp only
      split
      · rfl
      · rw [Prog.bind_assoc]
        congr 1
        funext r
        exact ih buf.next r.2

/-- The number of the name, or 0, and the time of the access is written. -/
theorem lookup_does {name : List Byte} (h : Rep v fs) (ho : fs p = some (.dir ns))
    (hs : Comparable (cStr name) (itemsOf ns)) :
    Does [] v (lookup p name) fun r v' => (∃ now, v' = v.write p ((v.block p).setAtime now)) ∧
      (r = 0 ∧ (∀ e ∈ itemsOf ns, e.1 ≠ cStr name) ∨ (cStr name, r) ∈ itemsOf ns) := by
  have hH := (h.heldUsed ho).offBitmap
  rw [lookup]
  refine Does.withLock List.not_mem_nil (Does.bind (Does.uninit fun buf => ?_))
  refine (Gives.safeGet hH (h.dir_has_head ho) lock_self).bind ?_
  refine Does.bind (Does.time fun now => ?_)
  refine (Gives.safePut hH (h.dir_has_head ho) lock_self).bind ?_
  rw [if_neg fun hne => hne rfl, lookupLoop_eq loopFuel p]
  have h₁ : Rep (v.write p ((v.block p).setAtime now)) fs :=
    h.retouch_head ho (by simp) (by simp) (by simp)
  refine Does.bind (((h₁.laid.dirAt ho).unlinkLoop_head hs.readable).mono ?_)
  rintro _ _ ⟨rfl, ⟨rfl, hno⟩ | ⟨pre, n, es₁, ⟨s, i⟩, es₂, post, rfl, hread, rfl⟩⟩
  · exact Does.pure ⟨⟨now, rfl⟩, .inl ⟨rfl, fun e he hname => hno e he ((hs.asRead_iff he).mpr hname)⟩⟩
  · obtain rfl : s = cStr name := (hs.asRead_iff (by simp)).mp hread
    obtain ⟨hshow, -⟩ := h₁.dir_node ho
    dsimp only
    rw [hshow.entryInum]
    exact Does.pure ⟨⟨now, rfl⟩, .inr (by simp)⟩

theorem byInum_separates : byInum.Separates := Order.numbered_separates fun _ _ => Int.ofNat.inj

/-- `items[inum] = name`. -/
def Items.put (items : Items) (e : Entry) : Items := items.set e.2 e.1

theorem Items.get_put (items : Items) (e : Entry) (i : Nat) :
    (items.put e).get i = if i = e.2 then some e.1 else items.get i :=
  items.get_set byInum_separates e.2 e.1 i

/-- The map that `readdir` builds has the pairs of the entries, when no number is there
twice. -/
theorem foldl_put_eq_some {es : List Entry} {items : Items} (hes : (es.map Prod.snd).Nodup) {i : Nat}
    {name : List Byte} :
    (es.foldl Items.put items).get i = some name ↔
      (name, i) ∈ es ∨ (∀ e ∈ es, e.2 ≠ i) ∧ items.get i = some name := by
  induction es generalizing items with
  | nil => simp
  | cons e es ih =>
    rw [List.map_cons, List.nodup_cons] at hes
    rw [List.foldl_cons, ih hes.2]
    by_cases hi : i = e.2
    · have hno : ∀ e' ∈ es, e'.2 ≠ i := by
        intro e' he' heq
        exact hes.1 (List.mem_map.mpr ⟨e', he', heq.trans hi⟩)
      have hnot : (name, i) ∉ es := fun hm => hno _ hm rfl
      rw [Items.get_put, if_pos hi]
      constructor
      · rintro (hm | ⟨-, hname⟩)
        · exact absurd hm hnot
        · refine .inl (List.mem_cons.mpr (.inl ?_))
          rw [← Option.some.inj hname, hi]
      · rintro (hm | ⟨hall, -⟩)
        · cases (List.mem_cons.mp hm).resolve_right hnot
          exact .inr ⟨hno, rfl⟩
        · exact absurd hi.symm (hall e List.mem_cons_self)
    · have hne : (name, i) ≠ e := fun h => hi (congrArg Prod.snd h)
      rw [Items.get_put, if_neg hi, List.mem_cons, or_iff_right hne, List.forall_mem_cons,
        and_iff_right fun h => hi h.symm]

theorem Block.stringAt_name {i : Nat} (hi : i < 5) (h : (b.name i).length < 64) :
    b.stringAt (entryOffset i) = some (b.name i) := by
  have hrest : 512 - entryOffset i = 64 + (448 - entryOffset i) := by
    unfold entryOffset
    omega
  have hends : ((b.slice (entryOffset i) 64).takeWhile (· ≠ 0)).length ≠ (b.slice (entryOffset i) 64).length := by
    rw [Bytes.length_slice]
    exact Nat.ne_of_lt h
  rw [Block.stringAt, hrest, Bytes.slice_add, if_pos (List.mem_append_left _ (Block.zero_mem_of_name b h)),
    List.takeWhile_append, if_neg hends]
  rfl

theorem readEntries_from {fuel : Nat} {items : Items} {es₁ es₂ : List Entry} (hb : DirShows b (es₁ ++ es₂))
    (hlen : ∀ e ∈ es₂, e.1.length < 64) (hfuel : es₂.length < fuel) :
    Gives H v (readEntries b fuel es₁.length items) (es₂.foldl Items.put items) v := by
  induction es₂ generalizing es₁ fuel items with
  | nil =>
    obtain ⟨fuel, rfl⟩ : ∃ f, fuel = f + 1 := ⟨fuel - 1, by omega⟩
    rw [readEntries, hb.size, List.append_nil, if_neg (Nat.lt_irrefl _)]
    exact Gives.pure items
  | cons e es₂ ih =>
    obtain ⟨fuel, rfl⟩ : ∃ f, fuel = f + 1 := ⟨fuel - 1, by omega⟩
    have hfits := hb.fits
    rw [List.length_append, List.length_cons] at hfits
    rw [List.length_cons] at hfuel
    obtain ⟨hname, hinum⟩ := Prod.mk.inj hb.entry_at
    have hlt := hlen e List.mem_cons_self
    rw [readEntries, hb.size, if_pos (by rw [List.length_append, List.length_cons]; omega), entryInum,
      if_pos (by unfold entryOffset; omega), Block.stringAt_name (by omega) (hname ▸ hlt), hname, hinum]
    refine (Gives.pure _).bind ?_
    have hrest : es₁ ++ e :: es₂ = es₁ ++ [e] ++ es₂ := by simp
    have hgoal := @ih fuel (items.put e) (es₁ ++ [e]) (hrest ▸ hb) (fun e' he => hlen e' (List.mem_cons_of_mem _ he))
      (by omega)
    rw [List.length_append, List.length_singleton] at hgoal
    exact hgoal

theorem readEntries_gives {items : Items} (hb : DirShows b es) (hlen : ∀ e ∈ es, e.1.length < 64) :
    Gives H v (readEntries b loopFuel 0 items) (es.foldl Items.put items) v :=
  @readEntries_from v H b loopFuel items [] es hb hlen (Nat.lt_of_le_of_lt hb.fits (by decide))

theorem readdirLoop_does {fuel : Nat} {items : Items} (h : Rep v fs)
    (ho : fs p = some (.dir (pre ++ (n, es) :: post))) (hlen : ∀ e ∈ itemsOf ((n, es) :: post), e.1.length < 64)
    (hfuel : post.length < fuel) :
    Gives [p] v (readdirLoop p fuel (v.block n) items) ((itemsOf ((n, es) :: post)).foldl Items.put items) v := by
  induction post generalizing pre n es fuel items with
  | nil =>
    obtain ⟨fuel, rfl⟩ : ∃ f, fuel = f + 1 := ⟨fuel - 1, by omega⟩
    obtain ⟨hshow, hnext⟩ := h.dir_node ho
    rw [readdirLoop]
    refine (readEntries_gives hshow fun e he => hlen e (List.mem_append_left _ he)).bind ?_
    rw [hnext, if_pos (show firstOf [] = 0 from rfl), itemsOf_cons, itemsOf_nil, List.append_nil]
    exact Gives.pure _
  | cons x rest ih =>
    obtain ⟨m, es'⟩ := x
    obtain ⟨fuel, rfl⟩ : ∃ f, fuel = f + 1 := ⟨fuel - 1, by omega⟩
    obtain ⟨hshow, hnext⟩ := h.dir_node ho
    rw [List.append_cons] at ho
    have hm := h.dir_has ho
    have hm0 : m ≠ 0 := h.laid.ne_zero ho (Obj.mem_blocks_of_node (by simp [Obj.nodes]))
    rw [readdirLoop]
    refine (readEntries_gives hshow fun e he => hlen e (List.mem_append_left _ he)).bind ?_
    rw [hnext, firstOf_cons, if_neg hm0, itemsOf_cons, List.foldl_append]
    refine (Gives.safeGet (h.heldUsed ho).offBitmap hm lock_self).bind (ih ho ?_ ?_)
    · exact fun e he => hlen e (List.mem_append_right _ he)
    · rw [List.length_cons] at hfuel
      omega

theorem Rep.nodup_inums (h : Rep v fs) (ho : fs p = some (.dir ns)) : ((itemsOf ns).map Prod.snd).Nodup := by
  have hkids := h.tree.nodup p
  rw [kids_of_some ho] at hkids
  exact hkids

/-- The map of all entries, and the time of the access is written. -/
theorem readdir_does (h : Rep v fs) (ho : fs p = some (.dir ns)) (hlen : ∀ e ∈ itemsOf ns, e.1.length < 64) :
    Does [] v (readdir p) fun r v' => r.1 = .ok ∧
      (∀ i name, r.2.get i = some name ↔ (name, i) ∈ itemsOf ns) ∧
        ∃ now, v' = v.write p ((v.block p).setAtime now) := by
  have hH := (h.heldUsed ho).offBitmap
  have hfuel := h.dir_length_lt ho
  have hnodup := h.nodup_inums ho
  rw [readdir]
  refine Does.withLock List.not_mem_nil (Does.bind (Does.uninit fun buf => ?_))
  refine (Gives.safeGet hH (h.dir_has_head ho) lock_self).bind ?_
  refine Does.bind (Does.time fun now => ?_)
  refine (Gives.safePut hH (h.dir_has_head ho) lock_self).bind ?_
  rw [if_neg fun hne => hne rfl]
  have h₁ : Rep (v.write p ((v.block p).setAtime now)) fs :=
    h.retouch_head ho (by simp) (by simp) (by simp)
  obtain ⟨es, post, rfl⟩ := h.dir_head ho
  have ho' : fs p = some (.dir ([] ++ (p, es) :: post)) := ho
  have hloop : ∀ items, Gives [p] _ (readdirLoop p loopFuel _ items) _ _ := fun items =>
    readdirLoop_does h₁ ho' hlen (by rw [List.length_cons] at hfuel; omega)
  rw [Vol.write_block_self] at hloop
  refine (hloop _).bind (Does.pure ⟨rfl, fun i name => ?_, now, rfl⟩)
  rw [foldl_put_eq_some hnodup]
  simp [SortedMap.get, SortedMap.empty]

end

/-! ### What the directories list -/

/-- For each directory the names and numbers it lists. -/
abbrev Lists := Nat → Option (Set Entry)

/-- Directory `p` lists one more pair. -/
def Lists.insert (L : Lists) (p : Nat) (e : Entry) : Lists :=
  update L p ((L p).map fun S => Insert.insert e S)

/-- Directory `p` does not list the name any more. -/
def Lists.erase (L : Lists) (p : Nat) (s : List Byte) : Lists :=
  update L p ((L p).map fun S => {e | e ∈ S ∧ e.1 ≠ s})

def Obj.listing : Obj → Option (Set Entry)
  | .file _ => none
  | .dir ns => some {e | e ∈ itemsOf ns}

def listing (fs : Tree) : Lists := fun p => (fs p).bind Obj.listing

/-- The names of a directory are pairwise distinct, and each has at most 63 bytes. -/
structure WellNamed (ns : Nodes Entry) : Prop where
  distinct : ((itemsOf ns).map Prod.fst).Nodup
  fits : ∀ e ∈ itemsOf ns, e.1.length < 64

/-- The volume holds a tree that lists `L`, and directory `p` of it is well named. -/
def HoldsLists (v : Vol) (p : Nat) (L : Lists) : Prop :=
  ∃ fs ns, Rep v fs ∧ listing fs = L ∧ fs p = some (.dir ns) ∧ WellNamed ns

/-- A call on directory `p` of the tree `fs` has returned `OK` and a new inode number,
and `p` lists the name with that number besides what it listed; `new` is what the new
inode lists itself. -/
def Inserts (fs : Tree) (p : Nat) (s : List Byte) (new : Option (Set Entry)) (r : Status × Nat) (v : Vol) : Prop :=
  r.1 = .ok ∧ r.2 ≠ 0 ∧ fs r.2 = none ∧
    HoldsLists v p (Lists.insert (update (listing fs) r.2 new) p (s, r.2))

section
variable {v v' : Vol} {fs : Tree} {p i : Nat} {s : List Byte} {ns ns' : Nodes Entry} {o : Obj}

theorem listing_update (o : Option Obj) :
    listing (update fs i o) = update (listing fs) i (o.bind Obj.listing) := by
  funext q
  by_cases hq : q = i
  · rw [hq, listing, update_self, update_self]
  · rw [listing, update_of_ne hq, update_of_ne hq, listing]

theorem listing_dir (ho : fs p = some (.dir ns)) : listing fs p = some {e | e ∈ itemsOf ns} := by
  rw [listing, ho]
  rfl

theorem WellNamed.insert (h : WellNamed ns) (hs : ValidName s) (hno : ∀ e ∈ itemsOf ns, e.1 ≠ s)
    (hperm : (itemsOf ns').Perm ((s, i) :: itemsOf ns)) : WellNamed ns' where
  distinct := nodup_names_insert h.distinct hno hperm
  fits e he := by
    cases List.mem_cons.mp (hperm.mem_iff.mp he) with
    | inl he => rw [he]; exact hs.fits
    | inr he => exact h.fits e he

theorem WellNamed.inum_unique {j : Nat} (h : WellNamed ns) (hi : (s, i) ∈ itemsOf ns) (hj : (s, j) ∈ itemsOf ns) :
    i = j :=
  congrArg Prod.snd (List.inj_on_of_nodup_map h.distinct hi hj rfl)

theorem WellNamed.erase (h : WellNamed ns) (hperm : (itemsOf ns).Perm ((s, i) :: itemsOf ns')) : WellNamed ns' where
  distinct := (nodup_names_erase h.distinct hperm).2
  fits e he := h.fits e (hperm.mem_iff.mpr (List.mem_cons_of_mem _ he))

theorem Rep.inserts (h : Rep v fs) (ho : fs p = some (.dir ns)) (hw : WellNamed ns) (hs : ValidName s)
    (hno : ∀ e ∈ itemsOf ns, e.1 ≠ s) (hunused : v.used i = false)
    (h' : Rep v' (update (update fs i (some o)) p (some (.dir ns'))))
    (hperm : (itemsOf ns').Perm ((s, i) :: itemsOf ns)) : Inserts fs p s o.listing (.ok, i) v' := by
  have hfresh : fs i = none := by
    by_contra hne
    obtain ⟨o', ho'⟩ := Option.ne_none_iff_exists'.mp hne
    rw [h.used_dir ho'] at hunused
    cases hunused
  have hip : i ≠ p := fun e => by
    rw [e, ho] at hfresh
    cases hfresh
  have hi : update (update fs i (some o)) p (some (.dir ns')) i = some o := by
    rw [update_of_ne hip, update_self]
  refine ⟨rfl, h'.laid.ne_zero hi (h'.laid.head_mem hi), hfresh, _, ns', h', ?_, update_self .., ?_⟩
  · have hset : {e | e ∈ itemsOf ns'} = Insert.insert (s, i) {e | e ∈ itemsOf ns} := by
      ext e
      exact hperm.mem_iff.trans List.mem_cons
    rw [listing_update, listing_update, Lists.insert, update_of_ne hip.symm, listing_dir ho, Option.map_some,
      ← hset]
    rfl
  · exact hw.insert hs hno hperm

theorem Rep.erases {nsf : Nodes Nat} (ho : fs p = some (.dir ns)) (hw : WellNamed ns)
    (hi : fs i = some (.file nsf)) (hperm : (itemsOf ns).Perm ((s, i) :: itemsOf ns'))
    (h' : Rep v' (update (update fs p (some (.dir ns'))) i none)) :
    HoldsLists v' p ((listing fs).erase p s) := by
  have hip : i ≠ p := fun e => by
    rw [e, ho] at hi
    cases hi
  have hnot := (nodup_names_erase hw.distinct hperm).1
  have hset : {e | e ∈ itemsOf ns'} = {e | e ∈ {e | e ∈ itemsOf ns} ∧ e.1 ≠ s} := by
    ext e
    refine ⟨fun he => ⟨hperm.mem_iff.mpr (List.mem_cons_of_mem _ he), fun hs => ?_⟩, fun he => ?_⟩
    · exact hnot (List.mem_map.mpr ⟨e, he, hs⟩)
    · exact (List.mem_cons.mp (hperm.mem_iff.mp he.1)).resolve_left fun hs => he.2 (congrArg Prod.fst hs)
  have hnone : listing fs i = none := by
    rw [listing, hi]
    rfl
  refine ⟨_, ns', h', ?_, by rw [update_of_ne hip.symm, update_self], hw.erase hperm⟩
  rw [listing_update, listing_update, Lists.erase, listing_dir ho, Option.map_some, ← hset]
  refine update_eq_self_iff.mpr ?_
  rw [update_of_ne hip, hnone]
  rfl

end

/-- **A directory is a finite map.** `lookup` gives the number of a name and 0 for any
other, and `readdir` the pairs that are listed; neither changes what any directory lists.
A name that is not listed is added with a new number, and a name of a file or a link is
taken out, by changes of the set of this directory alone, which is well named again. -/
theorem directory_map {v : Vol} {fs : Tree} {p : Nat} {ns : Nodes Entry} (h : Rep v fs)
    (hp : fs p = some (.dir ns)) (hw : WellNamed ns) :
    (∀ name, Does [] v (lookup p name) fun r v' => Rep v' fs ∧
      (∀ i, (cStr name, i) ∈ itemsOf ns → r = i) ∧ ((∀ i, (cStr name, i) ∉ itemsOf ns) → r = 0)) ∧
    (Does [] v (readdir p) fun r v' => Rep v' fs ∧
      r.1 = .ok ∧ ∀ i name, r.2.get i = some name ↔ (name, i) ∈ itemsOf ns) ∧
    (∀ name ino, name.length ≤ 63 → (∀ i, (cStr name, i) ∉ itemsOf ns) → roomCost ns + 1 ≤ v.free →
      Does [] v (create p name ino) (Inserts fs p (cStr name) none) ∧
      Does [] v (mkdir p name ino) (Inserts fs p (cStr name) (some ∅)) ∧
      ∀ link, roomCost ns + 1 + taken 1 0 (lastBlock 0 link.length) ≤ v.free →
        Does [] v (symlink p name link ino) (Inserts fs p (cStr name) none)) ∧
    ∀ name i, (cStr name, i) ∈ itemsOf ns → listing fs i = none →
      Does [] v (unlink p name) fun r v' => r = .ok ∧ HoldsLists v' p ((listing fs).erase p (cStr name)) := by
  have hnot0 : ∀ name : List Byte, (0 : Byte) ∉ cStr name := fun name h0 => by
    have := List.mem_takeWhile_imp h0
    simp at this
  refine ⟨fun name => ?_, (readdir_does h hp hw.fits).mono ?_, fun name ino hlen habsent hfree => ?_,
    fun name i hi hfile => ?_⟩
  · refine (lookup_does h hp ⟨hnot0 name, .inr hw.fits⟩).mono ?_
    rintro r _ ⟨⟨now, rfl⟩, hr⟩
    refine ⟨h.retouch_head hp (by simp) (by simp) (by simp), fun i hi => ?_, fun hno => ?_⟩
    · cases hr with
      | inl hr => exact absurd rfl (hr.2 _ hi)
      | inr hr => exact hw.inum_unique hr hi
    · cases hr with
      | inl hr => exact hr.1
      | inr hr => exact absurd hr (hno r)
  · rintro r _ ⟨hok, hitems, now, rfl⟩
    exact ⟨h.retouch_head hp (by simp) (by simp) (by simp), hok, hitems⟩
  · have hs := validName_cStr hlen
    have hno : ∀ e ∈ itemsOf ns, e.1 ≠ cStr name := fun e he heq => habsent e.2 (heq ▸ he)
    refine ⟨?_, ?_, fun link hlink => ?_⟩
    · refine (create_does h hp hlen hno hfree).mono ?_
      rintro _ v' ⟨i, ns', rfl, hm⟩
      exact h.inserts hp hw hs hno hm.fresh hm.rep hm.entries
    · refine (mkdir_does h hp hlen hfree).mono ?_
      rintro _ v' ⟨i, ns', rfl, hm⟩
      have hnew := h.inserts hp hw hs hno hm.fresh hm.rep hm.entries
      have hempty : Obj.listing (.dir [(i, [])]) = some ∅ := congrArg some (Set.eq_empty_of_forall_notMem nofun)
      rw [hempty] at hnew
      exact hnew
    · refine (symlink_does h hp hlen hno hlink).mono ?_
      rintro _ v' ⟨i, nsf, ns', rfl, hfresh, hrep, hperm, -⟩
      exact h.inserts hp hw hs hno hfresh hrep hperm
  · have hobj : ∀ e ∈ itemsOf ns, e.1 = cStr name → ∃ nsf, fs e.2 = some (.file nsf) := by
      intro e he hname
      obtain rfl : e.2 = i := hw.inum_unique (s := cStr name) (hname ▸ he) hi
      obtain ⟨o, ho⟩ := h.kid_some (show e.2 ∈ kids fs p by
        rw [kids_of_some hp]
        exact List.mem_map_of_mem he)
      cases o with
      | file nsf => exact ⟨nsf, ho⟩
      | dir nsd =>
        rw [listing_dir ho] at hfile
        cases hfile
    refine (unlink_does h hp ⟨hnot0 name, .inr hw.fits⟩ hobj).mono ?_
    rintro r v' ⟨-, ⟨-, hno, -⟩ | ⟨rfl, j, ns', hperm, hrep, -⟩⟩
    · exact absurd rfl (hno _ hi)
    · refine ⟨rfl, ?_⟩
      obtain ⟨nsf, hj⟩ := hobj _ (hperm.mem_iff.mpr List.mem_cons_self) rfl
      exact Rep.erases hp hw hj hperm hrep

/-- A root of two nodes, of which the first has room, with one name in each: both are
found and another is not, a third can be added and the second can be unlinked. -/
theorem directory_map_two_nodes : ∃ v fs n i j, Rep v fs ∧ fs 1 = some (.dir [(1, [([98], j)]), (n, [([97], i)])]) ∧
    Does [] v (lookup 1 [97]) (fun r _ => r = i) ∧ Does [] v (lookup 1 [98]) (fun r _ => r = j) ∧
    Does [] v (lookup 1 [99]) (fun r _ => r = 0) ∧ Does [] v (create 1 [99] 0) (Inserts fs 1 [99] none) ∧
    Does [] v (unlink 1 [97]) fun r v' => r = .ok ∧ HoldsLists v' 1 ((listing fs).erase 1 [97]) := by
  have hrep : Rep (volOf (format still.disk)) rootOnly := rep_format
  have hfree : 100 ≤ (volOf (format still.disk)).free := format_blank_free
  generalize volOf (format still.disk) = v at hrep hfree
  have hname (c : Byte) (hc : c ≠ 0) : ValidName [c] := ⟨by simp, by simpa using hc.symm⟩
  have hfile : ShowsNew (Block.setMode Bytes.zero 1) fun i => .file [(i, [])] := showsNew_file (by simp) (by decide)
  have makes (c : Byte) (hc : c ≠ 0) (pre post : Nodes Entry) {v : Vol} {fs : Tree} {m : Nat} (h : Rep v fs)
      (ho : fs 1 = some (.dir (pre ++ (m, []) :: post))) (hpos : 0 < v.free) :
      ∃ v' i, Makes fs 1 [c] v (pre ++ (m, []) :: post) i (.file [(i, [])]) v' (pre ++ (m, [([c], i)]) :: post) := by
    obtain ⟨i, hi⟩ := Vol.exists_fresh hpos
    have hsize : (v.block m).size < 5 := by rw [(h.dir_node ho).1.size]; decide
    exact ⟨_, i, h.makes ho (by decide) (hname c hc).terminated ((hname c hc).next_putEntry hsize i) hfile hi⟩
  -- the root gets a second node, a file in that, and one in the first
  obtain ⟨n, hn⟩ := Vol.exists_fresh (v := v) (by omega)
  have hwide := @Widens.add_node _ _ _ _ _ [] _ hrep (update_self ..) hn
  have hcost := hwide.cost
  generalize Vol.write _ _ _ = v₁ at hwide hcost
  obtain ⟨v₂, i, hi⟩ := makes 97 (by decide) [(1, [])] [] hwide.rep (update_self ..)
    (by simp at hcost; omega)
  have hcost₂ := hi.cost
  obtain ⟨v₃, j, hj⟩ := makes 98 (by decide) [] [(n, [([97], i)])] hi.rep (update_self ..)
    (by simp at hcost hcost₂; omega)
  have hcost₃ := hj.cost
  have hroot : i ≠ 1 := hi.ne (hwide.rep.used_dir (update_self ..))
  have hmap := directory_map hj.rep (update_self ..) ⟨by simp, by simp⟩
  refine ⟨v₃, _, n, i, j, hj.rep, update_self .., ?_, ?_, ?_, ?_, ?_⟩
  · exact (hmap.1 [97]).mono fun r _ hr => hr.2.1 i (by simp [cStr])
  · exact (hmap.1 [98]).mono fun r _ hr => hr.2.1 j (by simp [cStr])
  · exact (hmap.1 [99]).mono fun r _ hr => hr.2.2 (by simp [cStr])
  · refine (hmap.2.2.1 [99] 0 (by decide) (by simp [cStr]) ?_).1
    unfold roomCost
    simp at hcost hcost₂ hcost₃
    split <;> omega
  · exact hmap.2.2.2 [97] i (by simp [cStr]) (by simp [listing_update, update_apply, hroot, Obj.listing])

/-! ### Names in a session -/

def UniqueNames (disk : Nat → Block) : Prop :=
  ∀ p n i m j, IsDir disk p → Node disk p n → Node disk p m → i < (disk n).size → j < (disk m).size →
    (disk n).name i = (disk m).name j → n = m ∧ i = j

theorem Rep.uniqueNames {disk : Nat → Block} {fs : Tree} (h : Rep (volOf disk) fs) (hd : DistinctNames fs) :
    UniqueNames disk := by
  intro p n i m j hp hn hm hi hj hname
  obtain ⟨ns, ho⟩ := h.isDir hp
  have hmem : ∀ {k}, Node disk p k → k ∈ nodesOf ns := by
    intro k hk
    obtain ⟨o, ho', hk⟩ := h.of_node hk
    rw [ho] at ho'
    cases ho'
    exact hk
  have hat := (h.entry_at ho).mpr ⟨hmem hn, hi, rfl⟩
  have hat' := (h.entry_at ho).mpr ⟨hmem hm, hj, rfl⟩
  have hsame := List.inj_on_of_nodup_map (hd p ns ho) hat.mem hat'.mem hname
  rw [← hsame] at hat'
  exact hat.unique ((hd p ns ho).of_map _) hat'

/-- A world between two calls, in which no directory has one name twice. -/
def Named (w : World) : Prop := w.held = [] ∧ ∃ fs, Rep w.vol fs ∧ DistinctNames fs

theorem Named.step {w w' : World} {op : Op} (h : Named w) (hok : op.ok w) (hs : op.step w = some w') : Named w' := by
  obtain ⟨hw, fs, hr, hd⟩ := h
  obtain ⟨r, w'', hrun, hheld, fs', hr', -, hd'⟩ := op.does hr hok w hw rfl
  rw [Op.step, hrun] at hs
  cases hs
  exact ⟨hheld, fs', hr', hd' hd⟩

section
variable {w : World} {p out : Nat} {name link : List Byte}

theorem yields_withLock {α : Type} {q : Code α} {Q : α → Prop} {l : Nat}
    (hq : ∀ w, Prog.Yields World.answer q w fun a _ => Q a) :
    Prog.Yields World.answer (withLock l q) w fun a _ => Q a :=
  .last fun _ w' => .bind ((hq w').mono fun _ _ hQ => .last fun _ _ => .pure hQ)

/-- `mkdir` has one status. -/
theorem mkdir_ok : Prog.Yields World.answer (mkdir p name out) w fun r _ => r.1 = .ok := by
  refine yields_withLock (Q := fun r : Status × Nat => r.1 = .ok) fun w => .last fun _ _ => .last fun _ _ => ?_
  refine .last fun _ _ => .last fun _ _ => .last fun _ _ => .last fun room _ => ?_
  cases room with
  | error => exact .pure rfl
  | dup inum => exact .pure rfl
  | blank tmp target buf => exact .last fun _ _ => .last fun _ _ => .last fun _ _ => .pure rfl

theorem innerCreate_ne_exist :
    Prog.Yields World.answer (innerCreate p name out) w fun r _ => r.1 ≠ .exist := by
  refine .last fun _ _ => .last fun _ _ => .last fun _ _ => .last fun _ _ => ?_
  split
  · exact .pure nofun
  · refine .last fun room _ => ?_
    cases room with
    | error => exact .pure nofun
    | dup inum => exact .pure nofun
    | blank tmp target buf =>
      refine .last fun found _ => ?_
      cases found with
      | some i => exact .last fun _ _ => .pure nofun
      | none =>
        refine .last fun _ _ => .last fun _ _ => .last fun inum _ => ?_
        cases inum with
        | none => exact .pure nofun
        | some inum => exact .pure nofun

theorem innerWrite_ne_exist {ino size : Nat} {off : Int} :
    Prog.Yields World.answer (innerWrite ino link size off) w fun ret _ => ret.1 ≠ .exist := by
  refine .last fun _ _ => .last fun _ _ => .last fun _ _ => ?_
  split
  · exact .pure nofun
  · refine .last fun _ _ => .last fun _ _ => .last fun _ _ => ?_
    split
    · exact .pure nofun
    · refine .last fun at? _ => ?_
      cases at? with
      | none => exact .pure nofun
      | some at? => exact .last fun _ _ => .last fun _ _ => .last fun _ _ => .pure nofun

theorem symlink_ne_exist :
    Prog.Yields World.answer (symlink p name link out) w fun r _ => r.1 ≠ .exist := by
  refine yields_withLock (Q := fun r : Status × Nat => r.1 ≠ .exist) fun w => .last fun _ _ => .bind ?_
  refine innerCreate_ne_exist.mono fun r _ hr => ?_
  split
  · exact .pure hr
  · refine .bind (innerWrite_ne_exist.mono fun ret _ hret => ?_)
    split
    · exact .pure hret
    · refine .last fun _ _ => .last fun _ _ => ?_
      split
      · exact .pure hret
      · refine .last fun _ _ => ?_
        split
        · exact .pure hret
        · exact .pure hret

end

/-- **Names stay unique in a session** in which `create`, `mkdir` and `symlink` are given
new names. That a name is there is never the answer: whatever the directory has, none of
the three returns `EXIST`. -/
theorem names_unique (clock : Nat → Nat) (junk : Nat → Block) :
    (∃ w₀, mount (blank clock junk) = some w₀ ∧ ∀ w, Steps Op.step Op.ok w₀ w → UniqueNames w.disk) ∧
      ∀ w parent name link ino,
        (∀ r w', Prog.run World.answer (create parent name ino) w = some (r, w') → r.1 ≠ .exist) ∧
        (∀ r w', Prog.run World.answer (mkdir parent name ino) w = some (r, w') → r.1 ≠ .exist) ∧
        ∀ r w', Prog.run World.answer (symlink parent name link ino) w = some (r, w') → r.1 ≠ .exist := by
  refine ⟨⟨_, mount_eq rfl, fun w hrun => ?_⟩, fun w parent name link ino => ⟨?_, fun r w' hrun => ?_, ?_⟩⟩
  rotate_left
  · exact yields_withLock (Q := fun r : Status × Nat => r.1 ≠ .exist) fun w => innerCreate_ne_exist
  · rw [mkdir_ok r w' hrun]
    nofun
  · exact symlink_ne_exist
  have hroot : DistinctNames rootOnly := by
    intro p ns ho
    cases (rootOnly_eq ho).2
    exact List.nodup_nil
  obtain ⟨-, fs, hr, hd⟩ : Named w :=
    hrun.invariant ⟨rfl, rootOnly, rep_format, hroot⟩ fun _ _ _ h hok hs => h.step hok hs
  exact hr.uniqueNames hd

theorem names_unique_one_file :
    ∃ w₀ w, mount still = some w₀ ∧ (Op.create 1 [97]).step w₀ = some w ∧ UniqueNames w.disk := by
  have hrun : (mount still).any (fun w₀ => decide (Bare w₀) && ((Op.create 1 [97]).step w₀).isSome) = true := by
    decide +kernel
  simp only [Option.any_eq_true, Bool.and_eq_true, decide_eq_true_eq, Option.isSome_iff_exists] at hrun
  obtain ⟨w₀, hw₀, hbare, w, hs⟩ := hrun
  obtain ⟨⟨w₀', hw₀', hall⟩, -⟩ := names_unique (fun _ => 0) fun _ => Bytes.zero
  obtain rfl : w₀' = w₀ := Option.some.inj (hw₀'.symm.trans hw₀)
  exact ⟨w₀', w, hw₀, hs, hall w (Steps.refl.tail (hbare.ok_create (by decide) (by decide)) hs)⟩

/-- A name that is there does not stop anyone: `create` returns `OK` and the file that
has the name, `symlink` makes a link of that file, and `mkdir` adds a second entry. -/
theorem existing_name_accepted :
    ∃ w₀ w₁ w₂ w₃ w₄, mount still = some w₀ ∧
      Prog.run World.answer (create 1 [97] 0) w₀ = some ((.ok, 2), w₁) ∧
      Prog.run World.answer (create 1 [97] 0) w₁ = some ((.ok, 2), w₂) ∧
      Prog.run World.answer (symlink 1 [97] [116] 0) w₂ = some ((.ok, 2), w₃) ∧
      (w₂.disk 2).mode = 1 ∧ (w₃.disk 2).mode = 2 ∧
      Prog.run World.answer (mkdir 1 [97] 0) w₃ = some ((.ok, 4), w₄) ∧ ¬ UniqueNames w₄.disk := by
  obtain ⟨w₀, h₀, ⟨r₁, w₁⟩, h₁, rfl, ⟨r₂, w₂⟩, h₂, rfl, ⟨r₃, w₃⟩, h₃, ⟨rfl, hm₂, hm₃⟩, ⟨r₄, w₄⟩, h₄, rfl, hmode,
    hsize, hname⟩ : ∃ w₀, mount still = some w₀ ∧ ∃ x₁, Prog.run World.answer (create 1 [97] 0) w₀ = some x₁ ∧
      x₁.1 = (.ok, 2) ∧ ∃ x₂, Prog.run World.answer (create 1 [97] 0) x₁.2 = some x₂ ∧ x₂.1 = (.ok, 2) ∧
      ∃ x₃, Prog.run World.answer (symlink 1 [97] [116] 0) x₂.2 = some x₃ ∧ (x₃.1 = (.ok, 2) ∧
      (x₂.2.disk 2).mode = 1 ∧ (x₃.2.disk 2).mode = 2) ∧ ∃ x₄, Prog.run World.answer (mkdir 1 [97] 0) x₃.2 = some x₄ ∧
      x₄.1 = (.ok, 4) ∧ (x₄.2.disk 1).mode = 0 ∧ (x₄.2.disk 1).size = 2 ∧
        (x₄.2.disk 1).name 0 = (x₄.2.disk 1).name 1 := by
    decide +kernel
  refine ⟨w₀, w₁, w₂, w₃, w₄, h₀, h₁, h₂, h₃, hm₂, hm₃, h₄, fun hu => ?_⟩
  have hdir : IsDir w₄.disk 1 := ⟨.root, hmode⟩
  have hsame := hu 1 1 0 1 1 hdir .root .root (by rw [hsize]; decide) (by rw [hsize]; decide) hname
  exact absurd hsame.2 Nat.zero_ne_one

/-! ### A further client -/

/-- The directory `h` lists this entry. -/
def Listed (disk : Nat → Block) (h : Nat) (e : Entry) : Prop :=
  ∃ n i, Node disk h n ∧ i < (disk n).size ∧ e = ((disk n).name i, (disk n).inum i)

/-- What is found from the root of the first disk is the same on the second: the listings of
the directories, the nodes of the files and the blocks of their data. And the blocks that
are in use are so. -/
structure Kept (disk disk' : Nat → Block) : Prop where
  dirs : ∀ h, IsDir disk h → IsDir disk' h ∧ ∀ e, Listed disk' h e ↔ Listed disk h e
  files : ∀ h, IsFile disk h → IsFile disk' h ∧ ∀ n, (Node disk' h n ↔ Node disk h n) ∧
    (Node disk h n → disk' n = disk n ∧
      ∀ i < directBlockNum, (disk n).direct i ≠ 0 → disk' ((disk n).direct i) = disk ((disk n).direct i))
  used : ∀ i, usedIn disk i = true → usedIn disk' i = true

/-- Nothing is where the constructor writes: the root is a directory without entries, and the
first and the last bitmap block have the bits of the reserved blocks at most. -/
structure Pristine (disk : Nat → Block) : Prop where
  mode : (disk 1).mode = 0
  empty : ∀ n, Node disk 1 n → (disk n).size = 0
  first : ∀ i, bitmapBlock i = bitmapBegin → usedIn disk i = true → Reserved i
  last : ∀ i, bitmapBlock i = bitmapEnd → usedIn disk i = false

theorem Pristine.node {disk : Nat → Block} (h : Pristine disk) {k n : Nat} (hn : Node disk k n) : k = 1 := by
  induction hn with
  | root => rfl
  | next _ _ ih => exact ih
  | entry hn _ hi ih =>
    rw [ih] at hn
    rw [h.empty _ hn] at hi
    exact absurd hi (Nat.not_lt_zero _)

theorem usedIn_format (disk : Nat → Block) (i : Nat) : usedIn (format disk) i =
    if bitmapBlock i = bitmapBegin then decide (Reserved i)
    else if bitmapBlock i = bitmapEnd then false else usedIn disk i := by
  have hb := bitmapBlock_eq i
  have hbegin : bitmapBegin = 10 := rfl
  have hend : bitmapEnd = 200 := rfl
  split
  next hfirst => exact format_used_low (by omega)
  next hfirst =>
    rw [usedIn, usedIn, format, update_of_ne (by omega), update_of_ne hfirst]
    split
    next hlast => rw [hlast, update_self, Bytes.bit_zero, Bool.and_false]
    next hlast => rw [update_of_ne hlast, update_of_ne (by omega)]

/-- With no block in use but the reserved ones, the bits stay as they are. -/
theorem format_used {disk : Nat → Block} (hused : ∀ i, usedIn disk i = decide (Reserved i)) (i : Nat) :
    usedIn (format disk) i = decide (Reserved i) := by
  rw [usedIn_format, hused]
  split
  · rfl
  · split
    next hlast =>
      have hb := bitmapBlock_eq i
      rw [hlast, bitmapEnd] at hb
      refine (decide_eq_false ?_).symm
      unfold Reserved
      omega
    · rfl

theorem pristine_format (disk : Nat → Block) : Pristine (format disk) := by
  have hroot : (format disk 1).mode = 0 ∧ (format disk 1).size = 0 ∧ (format disk 1).next = 0 := by
    rw [format_root]
    decide +kernel
  have hnode : ∀ {k n}, Node (format disk) k n → n = 1 := by
    intro k n hn
    induction hn with
    | root => rfl
    | next _ hne ih =>
      rw [ih] at hne
      exact absurd hroot.2.2 hne
    | entry _ _ hi ih =>
      rw [ih, hroot.2.1] at hi
      exact absurd hi (Nat.not_lt_zero _)
  refine ⟨hroot.1, fun n hn => by rw [hnode hn, hroot.2.1], fun i hi hused => ?_, fun i hi => ?_⟩
  · rw [usedIn_format, if_pos hi] at hused
    exact of_decide_eq_true hused
  · rw [usedIn_format, if_neg (by rw [hi]; decide), if_pos hi]

/-- **A further client may be mounted while nothing is where the constructor writes,** and
only then: the constructor leaves every listing, every file and every bit that is set
exactly where the root lists nothing and the blocks of the first and the last bitmap block
are not in use, but for the reserved ones. -/
theorem remount_keeps {w : World} (hw : w.held = []) :
    ∃ w', mount w = some w' ∧ (Kept w.disk w'.disk ↔ Pristine w.disk) := by
  have hnew := pristine_format w.disk
  have hnone : ∀ {disk : Nat → Block}, Pristine disk → ∀ e, ¬ Listed disk 1 e := by
    rintro disk h e ⟨n, i, hn, hi, -⟩
    rw [h.empty n hn] at hi
    exact Nat.not_lt_zero i hi
  refine ⟨_, mount_eq hw, fun h => ?_, fun h => ⟨fun k hk => ?_, fun k hk => ?_, fun i hi => ?_⟩⟩
  · have hmode : (w.disk 1).mode = 0 := by
      by_contra hne
      exact (h.files 1 ⟨.root, hne⟩).1.2 hnew.mode
    refine ⟨hmode, fun n hn => ?_, fun i hi hused => ?_, fun i hi => ?_⟩
    · by_contra hne
      exact hnone hnew _ (((h.dirs 1 ⟨.root, hmode⟩).2 _).mpr ⟨n, 0, hn, Nat.pos_of_ne_zero hne, rfl⟩)
    · exact hnew.first i hi (h.used i hused)
    · by_contra hne
      have hused := h.used i (Bool.eq_true_of_not_eq_false hne)
      rw [hnew.last i hi] at hused
      cases hused
  · obtain rfl := h.node hk.1
    exact ⟨⟨.root, hnew.mode⟩, fun e => iff_of_false (hnone hnew e) (hnone h e)⟩
  · obtain rfl := h.node hk.1
    exact absurd h.mode hk.2
  · rw [usedIn_format]
    split
    next hfirst => exact decide_eq_true (h.first i hfirst hi)
    next =>
      split
      next hlast =>
        rw [h.last i hlast] at hi
        cases hi
      next => exact hi

/-- Two clients are mounted before anything is made. -/
theorem remount_keeps_second :
    ∃ w₀ w₁, mount still = some w₀ ∧ mount w₀ = some w₁ ∧ Kept w₀.disk w₁.disk := by
  obtain ⟨w₁, hw₁, hkept⟩ := @remount_keeps { still with disk := format still.disk } rfl
  exact ⟨_, w₁, mount_eq rfl, hw₁, hkept.mpr (pristine_format _)⟩

/-- A client that is mounted after a file was made empties the root and frees the block
of the file. -/
theorem remount_empties_root :
    ∃ w₀ w₁ w₂, mount still = some w₀ ∧ (Op.create 1 [97]).step w₀ = some w₁ ∧ mount w₁ = some w₂ ∧
      HasName w₁.disk 1 [97] 1 0 ∧ usedIn w₁.disk 2 = true ∧
      (∀ i, ¬ HasName w₂.disk 1 [97] 1 i) ∧ usedIn w₂.disk 2 = false := by
  obtain ⟨w₀, h₀, w₁, h₁, w₂, h₂, ⟨hsize, hname, hbit⟩, hsize', hbit'⟩ :
      ∃ w₀, mount still = some w₀ ∧ ∃ w₁, (Op.create 1 [97]).step w₀ = some w₁ ∧ ∃ w₂, mount w₁ = some w₂ ∧
      ((w₁.disk 1).size = 1 ∧ (w₁.disk 1).name 0 = cStr [97] ∧ usedIn w₁.disk 2 = true) ∧ (w₂.disk 1).size = 0 ∧
      usedIn w₂.disk 2 = false := by decide +kernel
  refine ⟨w₀, w₁, w₂, h₀, h₁, h₂, ⟨.root, by rw [hsize]; decide, hname⟩, hbit, ?_, hbit'⟩
  rintro i ⟨-, hi, -⟩
  rw [hsize'] at hi
  exact Nat.not_lt_zero i hi

end Yfs.Fs

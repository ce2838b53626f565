import Yfs.Fs.Session

/-! Names of every length.

`statfs` announces names of up to 255 bytes, and an entry has 64 for a name, with the
inode number behind them. `create` and `mkdir` copy the name with `strcpy`, as far as it
goes, and then write the number, which stands for the 65th byte of the name and those
after it. What `strcmp` reads back are the first 64 bytes and then the bytes of the number
up to a zero one (`asRead`), so that a longer name is found again only where it happens to
go on like that. Past the entry it runs over the entries behind, over the link to the next
node, and at the last entry over the end of the buffer. -/
namespace Yfs.Fs
open Yfs.Base

/-! ### What `lookup` finds -/

/-- The number of the first entry that is read as `s`, or 0. -/
def findNum (s : List Byte) (es : List Entry) : Nat :=
  ((es.find? fun e => decide (asRead e = s)).map Prod.snd).getD 0

section
variable {s : List Byte} {es es₁ es₂ : List Entry} {e : Entry}

theorem findNum_eq_zero (hno : ∀ e ∈ es, asRead e ≠ s) : findNum s es = 0 := by
  have hnone : (es.find? fun e => decide (asRead e = s)) = none :=
    List.find?_eq_none.mpr fun e he => by simpa using hno e he
  rw [findNum, hnone]
  rfl

theorem findNum_insert_ne (h : asRead e ≠ s) : findNum s (es₁ ++ e :: es₂) = findNum s (es₁ ++ es₂) := by
  simp [findNum, List.find?_append, h]

theorem findNum_insert (h : asRead e = s) (hno : ∀ e ∈ es₁, asRead e ≠ s) : findNum s (es₁ ++ e :: es₂) = e.2 := by
  have hnone : (es₁.find? fun e => decide (asRead e = s)) = none :=
    List.find?_eq_none.mpr fun e he => by simpa using hno e he
  simp [findNum, List.find?_append, h, hnone]

/-- The entries of a node come before those of the nodes behind it. -/
theorem DirShows.findNum {b : Block} (h : DirShows b es) (rest : List Entry) :
    findNum s (es ++ rest) =
      match (List.range b.size).find? fun j => decide (asRead (b.entry j) = s) with
      | some j => b.inum j
      | none => Fs.findNum s rest := by
  have hes : es = (List.range b.size).map b.entry := h.entries.symm
  rw [Fs.findNum, List.find?_append, hes, List.find?_map]
  change (Option.map Prod.snd
    (((List.range b.size).find? fun j => decide (asRead (b.entry j) = s)).map b.entry |>.or _)).getD 0 = _
  cases (List.range b.size).find? fun j => decide (asRead (b.entry j) = s) with
  | some j => rfl
  | none => rfl

end

section
variable {v : Vol} {fs : Tree} {p n : Nat} {s name : List Byte} {ns pre post : Nodes Entry}
  {es : List Entry}

theorem Rep.lookupLoop_node {fuel x : Nat} {rest : List Entry} (h : Rep v fs)
    (ho : fs p = some (.dir (pre ++ (n, es) :: post))) (h0 : (0 : Byte) ∉ s) (hx : findNum s rest = x)
    (hrest : Gives [p] v (if (v.block n).next = 0 then pure 0
      else do let r ← safeGet (v.block n).next (v.block n) p; lookupLoop p s fuel r.2) x v) :
    Gives [p] v (lookupLoop p s (fuel + 1) (v.block n)) (findNum s (es ++ rest)) v := by
  obtain ⟨hshow, -⟩ := h.dir_node ho
  have hsize := hshow.size.trans_le hshow.fits
  rw [lookupLoop, findEntry_find hsize fun j hj => h.streq ho h0 hj, hshow.findNum, hx]
  refine (Gives.pure _).bind ?_
  cases hfind : (List.range (v.block n).size).find? fun j => decide (asRead ((v.block n).entry j) = s) with
  | some j =>
    have hj := List.mem_range.mp (List.mem_of_find?_eq_some hfind)
    dsimp only
    rw [entryInum, if_pos (by unfold entryOffset; omega)]
    exact Gives.pure _
  | none => exact hrest

theorem Rep.lookupLoop {fuel : Nat} (h : Rep v fs) (ho : fs p = some (.dir (pre ++ (n, es) :: post)))
    (h0 : (0 : Byte) ∉ s) (hfuel : post.length < fuel) :
    Gives [p] v (lookupLoop p s fuel (v.block n)) (findNum s (itemsOf ((n, es) :: post))) v := by
  obtain ⟨fuel, rfl⟩ : ∃ f, fuel = f + 1 := ⟨fuel - 1, by omega⟩
  have hnext := (h.dir_node ho).2
  induction post generalizing pre n es fuel with
  | nil =>
    refine h.lookupLoop_node ho h0 (findNum_eq_zero fun e he => by cases he) ?_
    rw [if_pos (show (v.block n).next = 0 from hnext)]
    exact Gives.pure 0
  | cons x rest ih =>
    obtain ⟨m, es'⟩ := x
    have ho' := ho
    rw [List.append_cons] at ho'
    have hm0 : m ≠ 0 := h.laid.ne_zero ho' (Obj.mem_blocks_of_node (by simp [Obj.nodes]))
    refine h.lookupLoop_node ho h0 rfl ?_
    rw [hnext, firstOf_cons, if_neg hm0]
    refine (Gives.safeGet (h.heldUsed ho').offBitmap (h.dir_has ho') lock_self).bind ?_
    rw [List.length_cons] at hfuel
    obtain ⟨fuel, rfl⟩ : ∃ f, fuel = f + 1 := ⟨fuel - 1, by omega⟩
    exact ih ho' fuel (by omega) (h.dir_node ho').2

/-- `lookup` of the name returns this number. -/
def Finds (v : Vol) (p : Nat) (name : List Byte) (x : Nat) : Prop := Does [] v (lookup p name) fun r _ => r = x

/-- **`lookup` in any directory**: the number of the first entry that is read as the name. -/
theorem Rep.finds (h : Rep v fs) (ho : fs p = some (.dir ns)) : Finds v p name (findNum (cStr name) (itemsOf ns)) := by
  have hH := (h.heldUsed ho).offBitmap
  have hfuel := h.dir_length_lt ho
  unfold Finds
  rw [lookup]
  refine Does.withLock List.not_mem_nil (Does.bind (Does.uninit fun buf => ?_))
  refine (Gives.safeGet hH (h.dir_has_head ho) lock_self).bind ?_
  refine Does.bind (Does.time fun now => ?_)
  refine (Gives.safePut hH (h.dir_has_head ho) lock_self).bind ?_
  rw [if_neg fun hne => hne rfl]
  have h₁ : Rep (v.write p ((v.block p).setAtime now)) fs :=
    h.retouch_head ho (by simp) (by simp) (by simp)
  obtain ⟨es, post, rfl⟩ := h.dir_head ho
  have ho' : fs p = some (.dir ([] ++ (p, es) :: post)) := ho
  rw [List.length_cons] at hfuel
  have hloop := @Rep.lookupLoop _ _ _ _ (cStr name) _ _ _ loopFuel h₁ ho' (zero_notMem_cStr name) (by omega)
  rw [Vol.write_block_self] at hloop
  exact Does.mono hloop fun r _ hr => hr.1

theorem Finds.unique {w : World} {x y : Nat} (h : Finds w.vol p name x) (h' : Finds w.vol p name y) : x = y := by
  obtain ⟨r, -, ⟨-, hx⟩, -, hy⟩ := (Prog.Yields.of_ends (h { w with held := [] } rfl rfl)).and_ends
    (h' { w with held := [] } rfl rfl)
  exact hx.symm.trans hy

end

/-! ### The entry that is made -/

/-- `create` or `mkdir`. -/
inductive Maker where
  | create | mkdir

def Maker.code (p : Nat) (name : List Byte) (out : Nat) : Maker → Code (Status × Nat)
  | create => Fs.create p name out
  | mkdir => Fs.mkdir p name out

/-- The times of the directory are written, and room is made in it; then nothing but the
slot of the new entry and the size of its node changes, the new inode `i` apart. -/
def SlotOnly (v : Vol) (p : Nat) (ns : Nodes Entry) (i : Nat) (v' : Vol) : Prop :=
  ∃ d v₁ pre n es post, Retimed (v.block p) d ∧ MakesRoom (v.write p d) ns v₁ (pre ++ (n, es) :: post) ∧ es.length < 5 ∧
    ∀ b ≠ i, ∀ j, (v'.block b).byte j = (v₁.block b).byte j ∨
      b = n ∧ (8 ≤ j ∧ j < 16 ∨ entryOffset es.length ≤ j ∧ j < entryOffset es.length + 72)

/-- The name is handled: an error leaves the nodes of the directory alone, and otherwise
the name is found with the number returned, no other byte changes, and every other name is
found as before. -/
def Maker.Handles (op : Maker) (v : Vol) (p : Nat) (ns : Nodes Entry) (name : List Byte) : Prop :=
  ∀ out, Does [] v (op.code p name out) fun r v' =>
    r.1 ≠ .ok ∧ (∀ n ∈ nodesOf ns, v'.block n = v.block n) ∨
    r.1 = .ok ∧ Finds v' p name r.2 ∧ SlotOnly v p ns r.2 v' ∧
      ∀ other x, cStr other ≠ cStr name → Finds v p other x → Finds v' p other x

/-- The block that the new inode gets: the first that is not in use, or where a node has to
be added the one after it. -/
def Gets (v : Vol) (ns : Nodes Entry) (i : Nat) : Prop :=
  if AllFull ns then ∃ j, v.Fresh j ∧ (v.alloc j Bytes.zero).Fresh i else v.Fresh i

theorem Vol.Fresh.unique {v v' : Vol} {i j : Nat} (hi : v.Fresh i) (hj : v'.Fresh j) (hused : v.used = v'.used) :
    i = j := by
  obtain hlt | heq | hgt := Nat.lt_trichotomy i j
  · have := hj.first i hlt
    rw [← hused, hi.unused] at this
    cases this
  · exact heq
  · have := hi.first j hgt
    rw [hused, hj.unused] at this
    cases this

section
variable {v v₁ v₁' v' : Vol} {fs : Tree} {p n i : Nat} {s name : List Byte} {ns ns₁ ns₁' pre post : Nodes Entry}
  {es : List Entry} {new b d d' : Block} {obj : Nat → Obj}

theorem MakesRoom.unique (h : MakesRoom (v.write p d) ns v₁ ns₁) (h' : MakesRoom (v.write p d') ns v₁' ns₁') :
    ns₁ = ns₁' ∧ v₁.used = v₁'.used := by
  cases h with
  | enough hroom =>
    cases h' with
    | enough => exact ⟨rfl, rfl⟩
    | node hfull => exact absurd hfull hroom
  | @node pre n i es hfull hi =>
    generalize hns : pre ++ [(n, es)] = l at h' hfull
    cases h' with
    | enough hroom => exact absurd hfull hroom
    | @node pre' n' i' es' _ hi' =>
      obtain ⟨rfl, hlast⟩ := List.append_inj' hns rfl
      cases hlast
      obtain rfl := hi.unique hi' rfl
      exact ⟨rfl, rfl⟩

/-- The block of the new inode is known beforehand. -/
theorem MakesRoom.gets {j : Nat} (h : MakesRoom (v.write p d) ns v₁ ns₁) (hi : v₁.Fresh i) (hj : Gets v ns j) :
    i = j := by
  unfold Gets at hj
  cases h with
  | enough hroom =>
    rw [if_neg hroom] at hj
    exact hi.unique hj rfl
  | @node pre n k es hfull hk =>
    rw [if_pos hfull] at hj
    obtain ⟨k', hk', hj⟩ := hj
    obtain rfl := hk.unique hk' rfl
    exact hi.unique hj rfl

/-- **The entry that is made** has the first 64 bytes of the name, whatever its length, as
long as the link to the next node stays. -/
theorem Rep.lists_entry (h : Rep v fs) (ho : fs p = some (.dir ns)) (hroom : MakesRoom v ns v₁ (pre ++ (n, es) :: post))
    (hes : es.length < 5) (hi : v₁.Fresh i) (h0 : (0 : Byte) ∉ s) (hnew : ShowsNew new obj)
    (hb : (v₁.block n).addEntry i s = some b) (hnext : b.next = (v₁.block n).next) :
    Finds ((v₁.alloc i new).write n b) p name
      (findNum (cStr name) ((itemsOf pre ++ es) ++ (s.take 64, i) :: itemsOf post)) := by
  have hw := hroom.widens h ho
  have hself := Function.update_self p (some (Obj.dir (pre ++ (n, es) :: post))) fs
  rw [Block.addEntry_eq] at hb
  split at hb
  · cases hb
    rw [Block.next_of_links (Block.links_setSize ..)] at hnext
    have hm := hw.rep.makes hself hes h0 hnext hnew hi
    have hfinds := @Rep.finds _ _ _ name _ hm.rep (Function.update_self ..)
    simpa using hfinds
  · cases hb

/-- What is read back of a name that was copied to an entry. -/
theorem asRead_take : asRead (s.take 64, i) = s ↔
    s.length ≤ 63 ∨ 64 ≤ s.length ∧ s.drop 64 = (leBytes 8 i).takeWhile (· ≠ 0) := by
  unfold asRead
  by_cases hs : s.length ≤ 63
  · have htake : s.take 64 = s := List.take_of_length_le (by omega)
    have hlt : s.length < 64 := by omega
    simp [htake, hlt, hs]
  · have hlen : (s.take 64).length = 64 := by
      rw [List.length_take]
      omega
    rw [if_neg (show ¬ (s.take 64, i).1.length < 64 by simp only [hlen]; omega)]
    constructor
    · intro heq
      refine .inr ⟨by omega, ?_⟩
      nth_rewrite 1 [← heq]
      exact List.drop_left' hlen
    · rintro (h | ⟨-, hdrop⟩)
      · exact absurd h hs
      · change s.take 64 ++ (leBytes 8 i).takeWhile (· ≠ 0) = s
        rw [← hdrop, List.take_append_drop]

/-- A name that is read back does not leave its entry. -/
theorem length_lt_of_asRead (hi : i < 256 ^ 7) (h : asRead (s.take 64, i) = s) : s.length < 72 := by
  obtain hs | ⟨-, hdrop⟩ := asRead_take.mp h
  · omega
  · have hfront : (leBytes 8 i).takeWhile (· ≠ 0) <+: leBytes 8 i := List.takeWhile_prefix _
    have hle := hfront.length_le
    have hne : ((leBytes 8 i).takeWhile (· ≠ 0)).length ≠ (leBytes 8 i).length := by
      intro heq
      have hzero := zero_mem_leBytes hi
      rw [← hfront.eq_of_length heq] at hzero
      have := List.mem_takeWhile_imp hzero
      simp at this
    rw [length_leBytes] at hle hne
    have hlen := congrArg List.length hdrop
    rw [List.length_drop] at hlen
    omega

/-- A name that does not leave its entry changes its slot and the size. -/
theorem Block.byte_addEntry {b b' : Block} (hb : b.addEntry i s = some b') (hs : s.length < 72) (j : Nat) :
    b'.byte j = b.byte j ∨ 8 ≤ j ∧ j < 16 ∨ entryOffset b.size ≤ j ∧ j < entryOffset b.size + 72 := by
  rw [Block.addEntry_eq] at hb
  split at hb
  · cases hb
    by_cases hj : 8 ≤ j ∧ j < 16 ∨ entryOffset b.size ≤ j ∧ j < entryOffset b.size + 72
    · exact .inr hj
    · left
      rw [setSize, Bytes.setU64, Bytes.byte_write_apart _ (by rw [length_leBytes]; omega), putEntry, setInum,
        Bytes.setU64, Bytes.byte_write_apart _ (by rw [length_leBytes]; omega),
        Bytes.byte_write_apart _ (by rw [List.length_append, List.length_singleton]; omega)]
  · cases hb

theorem Block.next_addEntry {b b' : Block} (hb : b.addEntry i s = some b') (hs : s.length < 72) (h5 : b.size < 5) :
    b'.next = b.next := by
  rw [Block.addEntry_eq] at hb
  split at hb
  · cases hb
    rw [next_of_links (links_setSize ..), next_putEntry b i h5 hs]
  · cases hb

theorem Maker.adds (op : Maker) (h : Rep v fs) (ho : fs p = some (.dir ns))
    (habsent : ∀ e ∈ itemsOf ns, asRead e ≠ cStr name) (hfree : roomCost ns + 1 ≤ v.free) (out : Nat) :
    DoesOr (183 < (cStr name).length) [] v (op.code p name out) fun r v' => ∃ i new obj, r = (.ok, i) ∧
      ShowsNew new obj ∧ AddsEntry p (cStr name) new v ns i v' := by
  cases op with
  | create =>
    have habs : Absent (some (cStr name)) ns := by
      rintro _ ⟨⟩
      exact ⟨zero_notMem_cStr name, habsent⟩
    refine .withLock List.not_mem_nil ((innerCreate_adds h ho habs hfree).mono ?_)
    rintro r v' ⟨i, new, hr, hnew, hadds⟩
    exact ⟨i, new, _, hr, hnew.file, hadds⟩
  | mkdir =>
    refine (mkdir_adds h ho hfree).mono ?_
    rintro r v' ⟨i, new, hr, hnew, hadds⟩
    exact ⟨i, new, _, hr, hnew.dir, hadds⟩

theorem SlotOnly.next (hslot : SlotOnly v p ns i v') (h : Rep v fs) (ho : fs p = some (.dir ns))
    (hd : Retimed (v.block p) d) (hroom : MakesRoom (v.write p d) ns v₁ (pre ++ (n, es) :: post)) (hni : n ≠ i) :
    (v'.block n).next = (v₁.block n).next := by
  obtain ⟨d', v₁', pre', n', es', post', hd', hroom', hes', hbytes⟩ := hslot
  have hself := Function.update_self p (some (Obj.dir (pre ++ (n, es) :: post))) fs
  have hnext := ((hroom.widens (hd.rep h ho) ho).rep.dir_node hself).2
  have hw' := hroom'.widens (hd'.rep h ho) ho
  rw [← (hroom.unique hroom').1] at hw'
  have hnext' := (hw'.rep.dir_node hself).2
  rw [hnext, ← hnext']
  refine congrArg leNat (Bytes.slice_congr fun j hj _ => ?_)
  obtain heq | ⟨-, hj'⟩ := hbytes n hni j
  · exact heq
  · unfold entryOffset at hj'
    omega

variable {w : World}

theorem Maker.Handles.read {op : Maker} (hh : op.Handles w.vol p ns name) (h : Rep w.vol fs)
    (ho : fs p = some (.dir ns)) (habsent : ∀ e ∈ itemsOf ns, asRead e ≠ cStr name)
    (hfree : roomCost ns + 1 ≤ w.vol.free) (hi : Gets w.vol ns i) : asRead ((cStr name).take 64, i) = cStr name := by
  by_contra hne
  have hy := (op.adds h ho habsent hfree 0).yields (w := { w with held := [] }) rfl rfl
  obtain ⟨r, w', ⟨k, new, obj, rfl, hnew, hadds⟩, hheld, hcases⟩ := hy.and_ends (hh 0 { w with held := [] } rfl rfl)
  obtain ⟨hbad, -⟩ | ⟨-, hfinds, hslot, -⟩ := hcases
  · exact hbad rfl
  generalize hv' : w'.vol = v' at hadds hslot
  cases hadds with
  | @mk d b v₁ pre post n _ es hd hroom hes hk hb =>
    obtain rfl := hroom.gets hk hi
    have h₁ := hd.rep h ho
    have hw := hroom.widens h₁ ho
    have hself := Function.update_self p (some (Obj.dir (pre ++ (n, es) :: post))) fs
    have hnk : n ≠ k := Vol.ne_of_used (hw.rep.dir_has hself).used hk.unused
    have hnext := hslot.next h ho hd hroom hnk
    rw [Vol.write_block_self] at hnext
    have hread := @Rep.lists_entry _ _ _ _ _ _ _ name _ _ _ _ _ _ _ h₁ ho hroom hes hk
      (zero_notMem_cStr name) hnew hb hnext
    have hitems := hw.items
    rw [itemsOf_append, itemsOf_cons, ← List.append_assoc] at hitems
    rw [findNum_insert_ne hne, hitems, findNum_eq_zero habsent, ← hv'] at hread
    exact hk.ne_zero hw.rep.formatted (hfinds.unique hread)

theorem Maker.handles (op : Maker) (h : Rep w.vol fs) (ho : fs p = some (.dir ns))
    (habsent : ∀ e ∈ itemsOf ns, asRead e ≠ cStr name) (hfree : roomCost ns + 1 ≤ w.vol.free) (hi : Gets w.vol ns i)
    (hread : asRead ((cStr name).take 64, i) = cStr name) : op.Handles w.vol p ns name := by
  intro out
  have hilt : i < volSize := by
    unfold Gets at hi
    split at hi
    · obtain ⟨_, _, hi⟩ := hi
      exact hi.lt
    · exact hi.lt
  have hlen := length_lt_of_asRead (Nat.lt_trans hilt (by decide)) hread
  refine ((op.adds h ho habsent hfree out).does (by omega)).mono ?_
  rintro _ v' ⟨k, new, obj, rfl, hnew, hadds⟩
  cases hadds with
  | @mk d b v₁ pre post n _ es hd hroom hes hk hb =>
    obtain rfl := hroom.gets hk hi
    have h₁ := hd.rep h ho
    have hw := hroom.widens h₁ ho
    have hself := Function.update_self p (some (Obj.dir (pre ++ (n, es) :: post))) fs
    have hsize := (hw.rep.dir_node hself).1.size
    have hnext := Block.next_addEntry hb hlen (by rw [hsize]; exact hes)
    have hlists (other : List Byte) : Finds _ p other _ :=
      h₁.lists_entry ho hroom hes hk (zero_notMem_cStr name) hnew hb hnext
    have hitems := hw.items
    rw [itemsOf_append, itemsOf_cons, ← List.append_assoc] at hitems
    refine .inr ⟨rfl, ?_, ⟨d, v₁, pre, n, es, post, hd, hroom, hes, fun c hc j => ?_⟩, fun other x hne hx => ?_⟩
    · have hbefore : ∀ e ∈ itemsOf pre ++ es, asRead e ≠ cStr name := fun e he =>
        habsent e (hitems ▸ List.mem_append_left _ he)
      have hfinds := hlists name
      rwa [findNum_insert hread hbefore] at hfinds
    · by_cases hcn : c = n
      · rw [hcn, Vol.write_block_self]
        exact (hsize ▸ Block.byte_addEntry hb hlen j).imp_right fun hj => ⟨rfl, hj⟩
      · rw [Vol.write_block_ne hcn, Vol.alloc_block_ne hc]
        exact .inl rfl
    · have hfinds := hlists other
      rw [findNum_insert_ne (fun e => hne (e.symm.trans hread)), hitems] at hfinds
      rwa [hx.unique (h.finds ho)]

end

/-- In any directory, with blocks left, `create` and `mkdir` handle a name that is not
there yet exactly if it has at most 63 bytes, or goes on behind the 64th with the bytes of
the new inode number up to the first zero. -/
theorem names_handled {w : World} {fs : Tree} {p i : Nat} {ns : Nodes Entry} {name : List Byte}
    (h : Rep w.vol fs) (ho : fs p = some (.dir ns)) (habsent : ∀ e ∈ itemsOf ns, asRead e ≠ cStr name)
    (hfree : roomCost ns + 1 ≤ w.vol.free) (hi : Gets w.vol ns i) (op : Maker) :
    op.Handles w.vol p ns name ↔
      (cStr name).length ≤ 63 ∨ 64 ≤ (cStr name).length ∧ (cStr name).drop 64 = (leBytes 8 i).takeWhile (· ≠ 0) := by
  rw [← asRead_take]
  exact ⟨fun hh => hh.read h ho habsent hfree hi, op.handles h ho habsent hfree hi⟩

/-- In a new file system the first inode is block 2, and a name of 64 times `a` and a byte
2 is handled. -/
theorem names_handled_empty : ∃ w, mount still = some w ∧ Rep w.vol rootOnly ∧ Gets w.vol [(1, [])] 2 ∧
    Maker.create.Handles w.vol 1 [(1, [])] (List.replicate 64 97 ++ [2]) ∧
    ¬ Maker.create.Handles w.vol 1 [(1, [])] (List.replicate 64 97) := by
  have hrep : Rep (volOf (format still.disk)) rootOnly := rep_format
  have hfree : 100 ≤ (volOf (format still.disk)).free := format_blank_free
  have hused (j : Nat) : (volOf (format still.disk)).used j = decide (Reserved j) := format_blank_used j
  have hgets : Gets (volOf (format still.disk)) [(1, [])] 2 := by
    refine ⟨by decide, by rw [hused]; decide, fun j hj => ?_⟩
    rw [hused]
    exact decide_eq_true (by unfold Reserved; omega)
  have hroom : roomCost [(1, ([] : List Entry))] + 1 ≤ (volOf (format still.disk)).free :=
    Nat.le_trans (by decide) hfree
  have habsent (s : List Byte) : ∀ e ∈ itemsOf [(1, ([] : List Entry))], asRead e ≠ s := fun e he => by cases he
  refine ⟨_, mount_eq rfl, hrep, hgets, ?_, fun hh => ?_⟩
  · exact (names_handled (w := { still with disk := format still.disk }) hrep (Function.update_self ..) (habsent _)
      hroom hgets .create).mpr (by decide)
  · have hcond := (names_handled (w := { still with disk := format still.disk }) hrep (Function.update_self ..)
      (habsent _) hroom hgets .create).mp hh
    revert hcond
    decide

/-- A name of 64 bytes: `create` returns `OK` and block 2, and the name is not found. -/
theorem long_name_lost : ∃ w w' w'', mount still = some w ∧
    Prog.run World.answer (create 1 (List.replicate 64 97) 0) w = some ((.ok, 2), w') ∧
    Prog.run World.answer (lookup 1 (List.replicate 64 97)) w' = some (0, w'') := by
  obtain ⟨w, hw, ⟨_, w'⟩, hcreate, rfl, ⟨_, w''⟩, hlookup, rfl⟩ : ∃ w, mount still = some w ∧
      ∃ x, Prog.run World.answer (create 1 (List.replicate 64 97) 0) w = some x ∧ x.1 = (.ok, 2) ∧
      ∃ y, Prog.run World.answer (lookup 1 (List.replicate 64 97)) x.2 = some y ∧ y.1 = 0 := by decide +kernel
  exact ⟨w, w', w'', hw, hcreate, hlookup⟩

end Yfs.Fs

import Yfs.Fs.Listing
import Yfs.Fs.Parting

/-! A write leaves every other file as it is.

Clients run their operations on one disk at the same time. What keeps them apart is the
lock of the inode: `unlink` takes it before it frees the blocks of a file, so a write that
is under way goes to blocks of its own to its end. But `unlink` removes the entry and frees
the blocks under two locks taken one after the other, and `write` does not look whether the
inode that it has locked is still one: between the two, or when all is freed, it reads an
inode that is nobody's, and the blocks that it finds there can be given to another file
while it goes on. `symlink` writes the file that it has made without taking its lock. So a
write is isolated where its file still has a name when the lock is taken, and is not made
as a symbolic link just then (`write_isolated`). -/
namespace Yfs.Fs
open Yfs.Base
open Function (update_of_ne update_self)

variable {T : Type} {disk : Nat → Block} {s : Clients Unit Request T} {t : T} {b : Nat}

/-! ### The condition on the turns -/

/-- What the operation has to find on the disk when it takes the lock of its inode: a file
or a directory that has a name. Under the name to be unlinked there is no directory, and
the name of a symbolic link is new. -/
def Request.Meets (disk : Nat → Block) : Request → Prop
  | .construct => False
  | .isfile ino | .isdir ino | .issym ino | .getfile ino | .getdir ino => Node disk ino ino
  | .read ino _ _ | .readlink ino | .write ino _ _ _ | .setattr ino _ _ => IsFile disk ino
  | .lookup parent _ | .readdir parent | .create parent _ | .mkdir parent _ => IsDir disk parent
  | .unlink parent name =>
    IsDir disk parent ∧ ∀ n i, HasName disk parent name n i → (disk ((disk n).inum i)).mode ≠ 0
  | .symlink parent name _ => IsDir disk parent ∧ ∀ n i, ¬ HasName disk parent name n i

/-- The directory `p` has an entry for `ino`. -/
def HasEntry (disk : Nat → Block) (p ino : Nat) : Prop :=
  ∃ n i, Node disk p n ∧ i < (disk n).size ∧ (disk n).inum i = ino

/-- Some bit is clear, and a client that takes the lock of its inode finds what it has to,
and not in a directory where another client makes a symbolic link just then. -/
def Careful (s : Clients Unit Request T) : Turn T Request (Nat × Block) → Prop
  | .call _ q => q.Shares
  | .go t _ => (∃ i < volSize, usedIn s.shared.disk i = false) ∧
      ∀ q k, s.running t = some (q, .op (.acquire q.ino) k) → q.Meets s.shared.disk ∧
        ∀ t' parent name link p, t' ≠ t → s.running t' = some (.symlink parent name link, p) →
          ¬ HasEntry s.shared.disk parent q.ino

/-- What is found on the disk is what the operation is made for. -/
theorem Whole.suits {named : Nat → Prop} {objs : Tree} {q : Request}
    (hw : Whole named (volOf disk) objs) (hq : q.Meets disk) : ∃ o files, objs q.ino = some o ∧ q.Suits files o ∧
      ∀ i ∈ files, i ∈ o.children ∧ ∃ nsf, objs i = some (.file nsf) := by
  obtain ⟨fs, hrep, hfs⟩ := hw.rep
  have hany : ∀ {ino}, Node disk ino ino → ∃ o, objs ino = some o := fun hnode => by
    obtain ⟨o, ho, -⟩ := hrep.of_node hnode
    exact ⟨o, ((hfs _ _).mp ho).2⟩
  have hfile : ∀ {ino}, IsFile disk ino → ∃ ns, objs ino = some (.file ns) := fun hf => by
    obtain ⟨ns, ho⟩ := hrep.isFile hf
    exact ⟨ns, ((hfs _ _).mp ho).2⟩
  have hdir : ∀ {ino}, IsDir disk ino → ∃ ns, fs ino = some (.dir ns) ∧ objs ino = some (.dir ns) := fun hd => by
    obtain ⟨ns, ho⟩ := hrep.isDir hd
    exact ⟨ns, ho, ((hfs _ _).mp ho).2⟩
  have hnil : ∀ {o : Obj} {i : Nat}, i ∈ [] → i ∈ o.children ∧ ∃ nsf, objs i = some (.file nsf) :=
    fun hi => by cases hi
  cases q with
  | construct => exact hq.elim
  | isfile ino | isdir ino | issym ino | getfile ino | getdir ino =>
    obtain ⟨o, ho⟩ := hany hq
    exact ⟨o, [], ho, trivial, fun _ => hnil⟩
  | read ino _ _ | readlink ino | write ino _ _ _ | setattr ino _ _ =>
    obtain ⟨ns, ho⟩ := hfile hq
    exact ⟨_, [], ho, ⟨ns, rfl⟩, fun _ => hnil⟩
  | lookup parent _ | readdir parent | create parent _ | mkdir parent _ =>
    obtain ⟨ns, -, ho⟩ := hdir hq
    exact ⟨_, [], ho, ⟨ns, rfl⟩, fun _ => hnil⟩
  | symlink parent name link =>
    obtain ⟨ns, ho', ho⟩ := hdir hq.1
    refine ⟨_, [], ho, ⟨ns, rfl, fun e he hname => ?_⟩, fun _ => hnil⟩
    obtain ⟨n, i, hn, -⟩ := hrep.hasName_of_mem ho' he hname
    exact hq.2 n i hn
  | unlink parent name =>
    obtain ⟨ns, ho', ho⟩ := hdir hq.1
    -- The entries with this name are the files in question.
    refine ⟨_, ((itemsOf ns).filter fun e => e.1 = cStr name).map Prod.snd, ho, ⟨ns, rfl, fun e he hname => ?_⟩,
      fun i hi => ?_⟩
    · exact List.mem_map.mpr ⟨e, List.mem_filter.mpr ⟨he, decide_eq_true hname⟩, rfl⟩
    · obtain ⟨e, he, rfl⟩ := List.mem_map.mp hi
      obtain ⟨he, hname⟩ := List.mem_filter.mp he
      have hkid : e.2 ∈ (Obj.dir ns).children := List.mem_map.mpr ⟨e, he, rfl⟩
      obtain ⟨o, hoe⟩ := Option.ne_none_iff_exists'.mp (hw.there e.2 (hw.named_of_child ho hkid))
      obtain ⟨n, i, hn, hinum⟩ := hrep.hasName_of_mem ho' he (of_decide_eq_true hname)
      refine ⟨hkid, ?_⟩
      cases o with
      | file nsf => exact ⟨nsf, hoe⟩
      | dir ns' =>
        refine absurd (hrep.mode_dir ((hfs e.2 _).mpr ⟨hw.dir_named hoe, hoe⟩)) ?_
        rw [← hinum]
        exact hq.2 n i hn

theorem Whole.hasEntry {named : Nat → Prop} {objs : Tree} {p i : Nat}
    (hw : Whole named (volOf disk) objs) (hi : i ∈ kids objs p) : HasEntry disk p i := by
  obtain ⟨fs, hrep, hfs⟩ := hw.rep
  cases ho : objs p with
  | none =>
    rw [kids_of_none ho] at hi
    cases hi
  | some o =>
    rw [kids_of_some ho] at hi
    obtain ⟨e, he, rfl⟩ := List.mem_map.mp hi
    cases o with
    | file nsf => cases he
    | dir ns =>
      have ho' := (hfs p _).mpr ⟨hw.dir_named ho, ho⟩
      obtain ⟨n, j, hat⟩ := exists_at he
      obtain ⟨hn, hj, rfl⟩ := (hrep.entry_at ho').mp hat
      exact ⟨n, j, hrep.node_of_mem ho' (hrep.node_self ho') hn, hj, rfl⟩

/-! ### What goes with a request -/

/-- The client works on its inode, or on the symbolic link that it has made there. -/
def Region.Of (q : Request) (x : Region) : Prop :=
  (∀ p, x.base = some p → p = q.ino) ∧ ∀ h o, x.obj = some (h, o) → h = q.ino ∨ ∃ name link,
    q = .symlink q.ino name link

theorem Region.Of.after {q : Request} {B : Bits} {x x' : Region} {c : Call} {g : Act} {r : c.Answer} (hx : x.Of q)
    (hok : Allowed q B x c g) (hafter : After q c g x r x') : x'.Of q := by
  -- The object is another one, with the same inode.
  have hsame : ∀ {h o o'} {y : Region}, x.obj = some (h, o) → y.base = x.base → y.obj = some (h, o') → y.Of q := by
    intro h o o' y ho hbase hobj
    refine ⟨fun p hp => hx.1 p (hbase ▸ hp), fun k ok hk => ?_⟩
    rw [hobj] at hk
    cases hk
    exact hx.2 h o ho
  cases hok with
  | enter _ _ =>
    obtain ⟨o, files, mem, -, rfl⟩ := hafter
    refine ⟨?_, ?_⟩
    · rintro _ ⟨⟩
      rfl
    · rintro _ _ ⟨⟩
      exact .inl rfl
  | take _ _ _ _ =>
    obtain ⟨ns, mem, -, rfl⟩ := hafter
    exact hx
  | leave _ _ =>
    obtain rfl := hafter
    exact ⟨(fun _ hp => by cases hp), fun _ _ ho => by cases ho⟩
  | nest | candidate | release => obtain rfl := hafter; exact hx
  | get | fill | set | clear => obtain ⟨-, rfl⟩ := hafter; exact hx
  | grow ho | shed ho | link ho | cut ho => obtain ⟨-, rfl⟩ := hafter; exact hsame ho rfl rfl
  | make hq _ _ _ _ _ _ _ _ =>
    obtain ⟨-, rfl⟩ := hafter
    subst hq
    exact ⟨hx.1, fun _ _ _ => .inr ⟨_, _, rfl⟩⟩

/-- The client holds the lock `l`. -/
def Region.Locks (x : Region) (l : Nat) : Prop := x.base = some l ∨ x.below = some l

/-- Every lock that is held is one that a region knows of. -/
def Locked (locks : Nat → Option T) (xs : T → Option Region) : Prop :=
  ∀ l t, locks l = some t → ∃ x, xs t = some x ∧ x.Locks l

section
variable {locks locks' : Nat → Option T} {xs : T → Option Region} {x x' : Region} {l : Nat}

theorem Locked.knows (h : Locked locks xs) (hx : xs t = some x) (hl : locks l = some t) : x.Locks l := by
  obtain ⟨x', hx', hlock⟩ := h l t hl
  rw [hx] at hx'
  cases hx'
  exact hlock

variable [DecidableEq T]

theorem Locked.update {y : Option Region} (h : Locked locks xs)
    (hother : ∀ l t', t' ≠ t → locks' l = some t' → locks l = some t')
    (hself : ∀ l, locks' l = some t → ∃ x, y = some x ∧ x.Locks l) : Locked locks' (Function.update xs t y) := by
  intro l t' hl
  by_cases ht : t' = t
  · rw [ht] at hl ⊢
    rw [update_self]
    exact hself l hl
  · rw [update_of_ne ht]
    exact h l t' (hother l t' ht hl)

theorem Locked.same (h : Locked locks xs) (hx : xs t = some x) (hbase : x'.base = x.base)
    (hbelow : x'.below = x.below) : Locked locks (Function.update xs t (some x')) := by
  refine h.update (fun _ _ _ hl => hl) fun l hl => ⟨x', rfl, ?_⟩
  rw [Region.Locks, hbase, hbelow]
  exact h.knows hx hl

theorem Locked.acquire (h : Locked locks xs) (hx : xs t = some x)
    (hlocks : x'.Locks l ∧ ∀ l', x.Locks l' → x'.Locks l') :
    Locked (Function.update locks l (some t)) (Function.update xs t (some x')) := by
  refine h.update (fun l' t' hne hl' => ?_) fun l' hl' => ⟨x', rfl, ?_⟩
  · by_cases hll : l' = l
    · rw [hll, update_self] at hl'
      exact absurd (Option.some.inj hl').symm hne
    · rwa [update_of_ne hll] at hl'
  · by_cases hll : l' = l
    · rw [hll]
      exact hlocks.1
    · rw [update_of_ne hll] at hl'
      exact hlocks.2 l' (h.knows hx hl')

theorem Locked.release (h : Locked locks xs) (hx : xs t = some x) (hlocks : ∀ l', l' ≠ l → x.Locks l' → x'.Locks l') :
    Locked (Function.update locks l none) (Function.update xs t (some x')) := by
  have hold : ∀ {l' t'}, Function.update locks l none l' = some t' → l' ≠ l ∧ locks l' = some t' := by
    intro l' t' hl'
    by_cases hll : l' = l
    · rw [hll, update_self] at hl'
      cases hl'
    · exact ⟨hll, by rwa [update_of_ne hll] at hl'⟩
  refine h.update (fun _ _ _ hl' => (hold hl').2) fun l' hl' => ⟨x', rfl, ?_⟩
  exact hlocks l' (hold hl').1 (h.knows hx (hold hl').2)

end

/-! ### Every interleaving -/

structure Sharing (v : Vol) (locks : Nat → Option T) (bits : T → Bits) (xs : T → Option Region)
    (_ : List (Mark T Request Unit)) : Prop where
  parted : ∃ objs named, Parted named v locks bits objs xs
  locked : Locked locks xs

section
variable [DecidableEq T]

theorem Shared.bits_outside {s : Shared T} {d : Block} (hb : outsideBitmap b = true) :
    bits { s with disk := Function.update s.disk b d } = s.bits := by
  funext t b'
  by_cases hbb : b' = b
  · simp [bits, hbb, hb]
  · simp [bits, update_of_ne hbb]

theorem Shared.bits_held {s : Shared T} {c : Nat} {d : Block} (h : s.bits t c ≠ none) :
    bits { s with disk := Function.update s.disk b d } t c ≠ none := by
  rw [ne_eq, bits_eq_none] at h ⊢
  exact h

theorem dataOf_outside (hb : outsideBitmap b = true) : (volOf disk).block b = disk b :=
  if_pos hb

section
variable {named : Nat → Prop} {s : Clients Unit Request T} {xs : T → Option Region} {objs : Tree} {t : T}
  {q : Request} {x : Region} {b l : Nat} {d : Block} {g : Act}

/-- A block is put: one of the region, one not in use, or a bitmap block. -/
theorem Parted.allowed_put (h : Parted named (volOf s.shared.disk) s.shared.locks s.shared.bits objs xs)
    (hx : xs t = some x) (hok : Allowed q (s.shared.bits t) x (.put b d) g) :
    (outsideBitmap b = false → s.shared.owner b = some t) ∧
      ∃ x', After q (.put b d) g x .ok x' ∧ ∃ objs' named', Parted named'
        (volOf (Function.update s.shared.disk b d)) s.shared.locks
        (Shared.bits { s.shared with disk := Function.update s.shared.disk b d }) objs'
          (Function.update xs t (some x')) := by
  have houtside : ∀ {h : Nat} {o : Obj} {b : Nat}, x.obj = some (h, o) → b ∈ o.blocks → outsideBitmap b = true :=
    fun ho hb => (h.fine hx).data _ (Region.mem_blocks.mpr (.inl ⟨_, _, ho, hb⟩))
  have hnot : outsideBitmap b = true → outsideBitmap b = false → s.shared.owner b = some t :=
    fun hout hin => absurd hout (Bool.eq_false_iff.mp hin)
  cases hok with
  | fill hshows hlt hres _ =>
    have hb := Logic.outside_of_not_reserved hres
    have hspare : (volOf s.shared.disk).Spare b := ⟨Shared.usedIn_of_shows hshows hlt, hlt, hres⟩
    obtain ⟨old, hold, -⟩ := hshows
    refine ⟨hnot hb, _, ⟨trivial, rfl⟩, objs, named, ?_⟩
    rw [volOf_put hb, Shared.bits_outside hb]
    refine h.fill hx hspare (by simp [hold]) fun t' hne => Shared.bits_eq_none.mpr ?_
    rintro ⟨-, hown⟩
    exact hne (Option.some.inj (hown.symm.trans (Shared.bits_eq_some.mp hold).1.2))
  | set hfresh hold =>
    obtain ⟨⟨-, hown⟩, rfl⟩ := Shared.bits_eq_some.mp hold
    refine ⟨fun _ => hown, _, ⟨trivial, rfl⟩, objs, named, ?_⟩
    rw [volOf_setBit ((h.holds hx).fresh hfresh).1.lt]
    exact (h.set hx hfresh).rebits fun _ _ _ _ _ => Shared.bits_held
  | clear hloose hold =>
    obtain ⟨⟨-, hown⟩, rfl⟩ := Shared.bits_eq_some.mp hold
    refine ⟨fun _ => hown, _, ⟨trivial, rfl⟩, objs, named, ?_⟩
    rw [volOf_clearBit ((h.holds hx).loose _ hloose).2]
    exact (h.clear hx hloose).rebits fun _ _ _ _ _ => Shared.bits_held
  | grow ho hb hlike hshows hperm =>
    have hout := houtside ho hb
    rw [volOf_put hout, Shared.bits_outside hout]
    exact ⟨hnot hout, _, ⟨trivial, rfl⟩, _, _,
      h.grow hx ho hb hlike hshows hperm⟩
  | shed ho hb hshows hperm =>
    have hout := houtside ho (Obj.mem_blocks_of_node hb)
    rw [volOf_put hout, Shared.bits_outside hout]
    exact ⟨hnot hout, _, ⟨trivial, rfl⟩, _, _, h.shed hx ho hb hshows hperm⟩
  | link ho hb hloose hnew hblock hnone hshows hnodes hkids =>
    have hout := houtside ho (Obj.mem_blocks_of_node hb)
    rw [volOf_put hout, Shared.bits_outside hout]
    exact ⟨hnot hout, _, ⟨trivial, rfl⟩, _, _,
      h.link hx ho hb hloose hnew hblock hnone hshows hnodes hkids⟩
  | make _ ho hbase hb hloose hnew hshows hnodes hkids =>
    have hout := houtside ho (Obj.mem_blocks_of_node hb)
    rw [volOf_put hout, Shared.bits_outside hout]
    exact ⟨hnot hout, _, ⟨trivial, rfl⟩, _, _,
      h.make hx hbase ho hb hloose hnew hshows hnodes hkids⟩
  | cut ho hb hloose hi hshows hnodes hkids =>
    have hout := houtside ho (Obj.mem_blocks_of_node hb)
    obtain ⟨hi', hcut⟩ := h.cut hx ho hb hloose hi hshows hnodes hkids
    rw [volOf_put hout, Shared.bits_outside hout]
    exact ⟨hnot hout, _, ⟨hi', rfl⟩, _, _, hcut⟩

/-- A lock outside of the bitmap is taken. Where it is that of the inode, nobody else has the
file or directory. -/
theorem Parted.allowed_acquire (h : Parted named (volOf s.shared.disk) s.shared.locks s.shared.bits objs xs)
    (hx : xs t = some x) (hfree : s.shared.locks l = none)
    (hq : l = q.ino → q.Meets s.shared.disk ∧ ∀ t' x', t' ≠ t → xs t' = some x' → ¬ x'.Heads l)
    (hok : Allowed q (s.shared.bits t) x (.acquire l) g) :
    ∃ x', After q (.acquire l) g x () x' ∧ (x'.Locks l ∧ ∀ l', x.Locks l' → x'.Locks l') ∧ ∃ objs' named',
      Parted named' (volOf s.shared.disk) (Function.update s.shared.locks l (some t)) s.shared.bits objs'
        (Function.update xs t (some x')) := by
  have hbase : ∀ {t' x' p}, xs t' = some x' → x'.base = some p → p ≠ l := by
    rintro t' x' p hx' hp rfl
    rw [((h.holds hx').base hp).1] at hfree
    cases hfree
  have hlocked : Parted named (volOf s.shared.disk) (Function.update s.shared.locks l (some t)) s.shared.bits objs xs :=
    h.relock fun t' x' p hx' hp => update_of_ne (hbase hx' hp) ..
  have hself : x.base ≠ some l := fun hp => hbase hx hp rfl
  have hnest : ∀ l', some l = some l' → x.base ≠ some l' := by
    rintro _ ⟨⟩
    exact hself
  have hlocks : ∀ {x' : Region}, x.below = none → x'.base = x.base → x'.below = some l →
      x'.Locks l ∧ ∀ l', x.Locks l' → x'.Locks l' := by
    intro x' hbelow hbase' hbelow'
    refine ⟨.inr hbelow', fun l' hl' => .inl ?_⟩
    rw [hbase']
    exact hl'.resolve_right fun hl' => by rw [hbelow] at hl'; cases hl'
  cases hok with
  | enter hidle _ =>
    subst hidle
    obtain ⟨hmeets, hnobody⟩ := hq rfl
    obtain ⟨o, files, ho, hsuits, hfiles⟩ := h.whole.suits hmeets
    refine ⟨_, ⟨o, files, _, hsuits, rfl⟩, ⟨.inl rfl, ?_⟩, objs, named,
      hlocked.enter (update_self ..) ho hnobody hfiles⟩
    rintro l' (hl' | hl')
    · cases hl'
    · cases hl'
  | nest _ _ hbelow | candidate _ _ hbelow =>
    exact ⟨_, rfl, hlocks hbelow rfl rfl, objs, named, hlocked.nest hx hnest⟩
  | take hvictim _ hbelow _ =>
    obtain ⟨ns, hshows, htake⟩ := hlocked.take hx (update_self ..) hvictim hself
    exact ⟨_, ⟨ns, _, hshows, rfl⟩, hlocks hbelow rfl rfl, _, named, htake⟩

theorem Parted.allowed_release (h : Parted named (volOf s.shared.disk) s.shared.locks s.shared.bits objs xs)
    (hx : xs t = some x) (hown : s.shared.locks l = some t) (hok : Allowed q (s.shared.bits t) x (.release l) g) :
    ∃ x', After q (.release l) g x () x' ∧ (∀ l', l' ≠ l → x.Locks l' → x'.Locks l') ∧ ∃ objs' named',
      Parted named' (volOf s.shared.disk) (Function.update s.shared.locks l none) s.shared.bits objs'
        (Function.update xs t (some x')) := by
  suffices hx' : ∃ x', After q (.release l) g x () x' ∧ (∀ l', l' ≠ l → x.Locks l' → x'.Locks l') ∧ x'.base ≠ some l ∧
      Parted named (volOf s.shared.disk) s.shared.locks s.shared.bits objs (Function.update xs t (some x')) by
    obtain ⟨x', hafter, hlocks, hnot, hpart⟩ := hx'
    refine ⟨x', hafter, hlocks, objs, named, hpart.relock fun t' x'' p hx'' hp => update_of_ne ?_ ..⟩
    by_cases ht : t' = t
    · rw [ht, update_self] at hx''
      cases hx''
      exact fun e => hnot (e ▸ hp)
    · rintro rfl
      exact ht (Option.some.inj (((hpart.holds hx'').base hp).1.symm.trans hown))
  cases hok with
  | release hbelow =>
    refine ⟨_, rfl, fun l' hne hl' => .inl (hl'.resolve_right fun hl' => ?_), (h.holds hx).below hbelow,
      h.nest hx fun _ hl => by cases hl⟩
    rw [hbelow] at hl'
    exact hne (Option.some.inj hl').symm
  | leave hbase hbelow =>
    refine ⟨_, rfl, fun l' hne hl' => ?_, (fun hp => by cases hp), h.leave hx⟩
    rw [Region.Locks, hbase, hbelow] at hl'
    obtain hl' | hl' := hl'
    · exact absurd (Option.some.inj hl').symm hne
    · cases hl'

end

/-- A client that takes the lock of its inode is alone with the file or directory. -/
theorem Parted.alone {named : Nat → Prop} {xs : T → Option Region} {objs : Tree}
    {q : Request} (h : Parted named (volOf s.shared.disk) s.shared.locks s.shared.bits objs xs)
    (hagree : Agree Region.Of s xs) (hfree : s.shared.locks q.ino = none)
    (hmakes : ∀ t' parent name link p, t' ≠ t → s.running t' = some (.symlink parent name link, p) →
      ¬ HasEntry s.shared.disk parent q.ino) :
    ∀ t' x', t' ≠ t → xs t' = some x' → ¬ x'.Heads q.ino := by
  intro t' x' hne hx' hhead
  have hbase : x'.base ≠ some q.ino := by
    intro hp
    rw [((h.holds hx').base hp).1] at hfree
    cases hfree
  obtain hp | ⟨o, ho⟩ := hhead
  · exact hbase hp
  · obtain ⟨-, hp | ⟨p, nsf, hp, -, hkid⟩⟩ := (h.holds hx').obj ho
    · exact hbase hp
    · obtain ⟨q', p', hrun, hof⟩ := hagree t' x' hx'
      obtain rfl := hof.1 p hp
      obtain heq | ⟨name, link, hq'⟩ := hof.2 _ _ ho
      · exact hbase (heq ▸ hp)
      · rw [hq'] at hrun
        exact hmakes t' _ name link p' hne hrun (h.whole.hasEntry hkid)

theorem regionLogic_sound :
    Logic.Sound regionLogic Request.code (Careful (T := T)) Sharing (fun _ _ x => x.base = none ∧ x.below = none)
      Region.Of where
  about q c g v r x' hok hnext hof := hof.after hok hnext.1
  free s t o h := h.1
  used v locks bits xs log t q x b h hx hb := by
    obtain ⟨objs, named, hpart⟩ := h.parted
    cases hb with
    | inl hb => exact hpart.whole.formatted b hb
    | inr hb => exact hpart.used hx hb
  bitmap v locks bits bits' xs log t q x h hx hready hbits := by
    obtain ⟨objs, named, hpart⟩ := h.parted
    refine ⟨⟨objs, named, hpart.rebits fun t' x' b hx' hf hheld => ?_⟩, h.locked⟩
    by_cases ht : t' = t
    · rw [ht, hx] at hx'
      cases hx'
      rw [hready.1] at hf
      cases hf
    · rwa [hbits t' ht]
  call s xs t q h hcond hidle := by
    obtain ⟨objs, named, hpart⟩ := h.parted
    have hwalk : Walks q q.code .idle fun _ x' => x'.base = none ∧ x'.below = none := Request.walks hcond
    unfold Walks at hwalk
    refine ⟨.idle, hwalk, ⟨(fun _ hp => by cases hp), fun _ _ ho => by cases ho⟩, ⟨objs, named, hpart.idle⟩,
      h.locked.update (fun _ _ _ hl => hl) fun l hl => ?_⟩
    obtain ⟨x, hx, -⟩ := h.locked l t hl
    rw [hidle] at hx
    cases hx
  finish v locks bits xs log t q a x h hx hpost := by
    obtain ⟨objs, named, hpart⟩ := h.parted
    refine ⟨⟨objs, named, hpart.finish⟩, h.locked.update (fun _ _ _ hl => hl) fun l hl => ?_⟩
    have hlock := h.locked.knows hx hl
    rw [Region.Locks, hpost.1, hpost.2] at hlock
    obtain hlock | hlock := hlock
    · cases hlock
    · cases hlock
  acquire s xs t o q l k g x h hagree hcond hrun hx hl hfree hok := by
    obtain ⟨objs, named, hpart⟩ := h.parted
    obtain ⟨x', hafter, hlocks, objs', named', hpart'⟩ := hpart.allowed_acquire hx hfree (fun e => by
      subst e
      obtain ⟨hmeets, hmakes⟩ := hcond.2 q k hrun
      exact ⟨hmeets, hpart.alone hagree hfree hmakes⟩) hok
    exact ⟨x', ⟨hafter, hpart'.fine (update_self ..)⟩, ⟨objs', named', hpart'⟩, h.locked.acquire hx hlocks⟩
  release s xs t q l g x h hx hl hown hok := by
    obtain ⟨objs, named, hpart⟩ := h.parted
    obtain ⟨x', hafter, hlocks, objs', named', hpart'⟩ := hpart.allowed_release hx hown hok
    exact ⟨x', ⟨hafter, hpart'.fine (update_self ..)⟩, ⟨objs', named', hpart'⟩, h.locked.release hx hlocks⟩
  get s xs t q b g x h hx _ hok := by
    obtain ⟨objs, named, hpart⟩ := h.parted
    cases hok with
    | get hb =>
      refine ⟨x, ⟨⟨?_, rfl⟩, hpart.fine hx⟩, ⟨objs, named, hpart.same hx⟩, h.locked.same hx rfl rfl⟩
      rw [(hpart.holds hx).mem b (.inl hb), dataOf_outside ((hpart.fine hx).data b hb)]
  put s xs t o q b d k g x h _ _ hx hok := by
    obtain ⟨objs, named, hpart⟩ := h.parted
    obtain ⟨hown, _, ⟨hfound, rfl⟩, objs', named', hpart'⟩ := hpart.allowed_put hx hok
    exact ⟨hown, _, ⟨⟨hfound, rfl⟩, hpart'.fine (update_self ..)⟩, ⟨objs', named', hpart'⟩,
      h.locked.same hx g.apply_base g.apply_below⟩

/-- Block `b` is one of the file or directory `ino`: a node, or a direct block. -/
def BlockOf (disk : Nat → Block) (ino b : Nat) : Prop :=
  ∃ n, Node disk ino n ∧
    (b = n ∨ (disk ino).mode ≠ 0 ∧ ∃ i < directBlockNum, (disk n).direct i ≠ 0 ∧ b = (disk n).direct i)

theorem Rep.mem_of_blockOf {fs : Tree} {ino : Nat} (hr : Rep (volOf disk) fs)
    (h : BlockOf disk ino b) : ∃ o, fs ino = some o ∧ b ∈ o.blocks := by
  obtain ⟨n, hn, hb⟩ := h
  obtain ⟨o, ho, hn⟩ := hr.of_node hn
  cases hb with
  | inl hb => exact ⟨o, ho, hb ▸ Obj.mem_blocks_of_node hn⟩
  | inr hb =>
    obtain ⟨hmode, i, hi, hne, hb⟩ := hb
    obtain ⟨ns, rfl⟩ := hr.file_of_mode ho hmode
    have hat : At ns n i b := (hr.direct_at ho hi).mpr ⟨hn, hne, hb⟩
    exact ⟨_, ho, List.mem_append_right _ hat.mem⟩

/-- What a client puts is no block of a file that it does not work on. -/
theorem Parted.put_ne {named : Nat → Prop} {xs : T → Option Region} {objs : Tree}
    {q : Request} {x : Region} {c ino : Nat} {d : Block} {g : Act} {o : Obj}
    (h : Parted named (volOf s.shared.disk) s.shared.locks s.shared.bits objs xs) (hx : xs t = some x)
    (hok : Allowed q (s.shared.bits t) x (.put b d) g) (ho : objs ino = some o) (hne : ∀ o', x.obj ≠ some (ino, o'))
    (hc : c ∈ o.blocks) : c ≠ b := by
  have hhas := h.whole.laid.has ho hc
  have hobj : ∀ {k o'}, x.obj = some (k, o') → b ∈ o'.blocks → c ≠ b := by
    rintro k o' ho' hb rfl
    obtain rfl := h.whole.laid.apart ho ((h.holds hx).obj ho').1 hc hb
    exact hne o' ho'
  cases hok with
  | fill hshows hlt _ _ =>
    rintro rfl
    have hused : usedIn s.shared.disk c = true := hhas.used
    rw [Shared.usedIn_of_shows hshows hlt] at hused
    cases hused
  | set hfresh _ => exact (bitmapBlock_ne ((h.holds hx).fresh hfresh).1.lt hhas.data).symm
  | clear hloose _ => exact (bitmapBlock_ne ((h.holds hx).loose _ hloose).2 hhas.data).symm
  | grow ho' hb _ _ _ => exact hobj ho' hb
  | shed ho' hb | link ho' hb | make _ ho' _ hb | cut ho' hb =>
    exact hobj ho' (Obj.mem_blocks_of_node hb)

/-- Only `put` changes a block, and only its own. -/
theorem Shared.answer_disk {s y : Shared T} {o : Nat × Block} {c : Call} {r : c.Answer}
    (h : Shared.answer t o c s = some (r, y)) (hput : ∀ c' d, c = .put c' d → b ≠ c') : y.disk b = s.disk b := by
  cases c with
  | put c' d =>
    cases h
    exact update_of_ne (hput c' d rfl) ..
  | acquire l =>
    rw [Shared.answer, Option.ite_none_right_eq_some] at h
    cases h.2
    rfl
  | release l =>
    rw [Shared.answer, Option.ite_none_right_eq_some] at h
    cases h.2
    rfl
  | hang => cases h
  | undefined => cases h
  | _ =>
    cases h
    rfl

/-- **A write changes no file but its own**, in any interleaving of operations in which each of
them finds a file or directory with a name when it takes the lock of its inode. -/
theorem write_isolated {disk : Nat → Block} {fs : Tree} {s s' : Clients Unit Request T} {t : T} {o : Nat × Block}
    {ino size other b : Nat} {buf : List Byte} {off : Int} {p : Code Unit} (hdisk : Rep (volOf disk) fs)
    (h : Steps (Clients.step Request.code) Careful (Clients.start disk) s)
    (hrun : s.running t = some (.write ino buf size off, p)) (hstep : Clients.step Request.code s (.go t o) = some s')
    (hne : other ≠ ino) (hb : BlockOf s.shared.disk other b) : s'.shared.disk b = s.shared.disk b := by
  obtain ⟨vs, ⟨hstands, hagree⟩, htrack⟩ := regionLogic_sound.views h
    ⟨⟨fs, _, .start hdisk⟩, fun _ _ hl => by cases hl⟩
  obtain ⟨objs, named, hpart⟩ := hstands.inv.parted
  obtain ⟨fs', hrep, hfs'⟩ := hpart.whole.rep
  obtain ⟨o', ho', hbo⟩ := hrep.mem_of_blockOf hb
  obtain ⟨_, _, ⟨⟩, _⟩ | ⟨_, _, _, _, ⟨⟩, -, rfl⟩ | ⟨_, _, q, c, k, r, y, ⟨⟩, hrun', hans, rfl⟩ :=
    Procs.step_cases hstep
  · rfl
  · rw [hrun] at hrun'
    cases hrun'
    obtain ⟨v, hv, g, hok, -⟩ := htrack.path hrun
    rw [hstands.view_eq hv] at hok
    refine Shared.answer_disk hans ?_
    rintro c d rfl
    refine hpart.put_ne (Stands.rest_eq hv) hok ((hfs' other o').mp ho').2 (fun o'' ho'' => ?_) hbo
    obtain ⟨q, p', hrun', hof⟩ := hagree t _ (Stands.rest_eq hv)
    rw [hrun] at hrun'
    cases hrun'
    obtain heq | ⟨name, link, hq⟩ := hof.2 _ _ ho''
    · exact hne heq
    · cases hq

end

/-! ### Two clients -/

/-- The root has files 2 and 3 and nothing else, with one node each. -/
structure TwoFiles (disk : Nat → Block) : Prop where
  root : (disk 1).mode = 0 ∧ 1 < (disk 1).size ∧ (disk 1).inum 0 = 2 ∧ (disk 1).inum 1 = 3
  file : ∀ n ∈ [2, 3], (disk n).mode ≠ 0
  next : ∀ n ∈ [1, 2, 3], (disk n).next = 0
  entry : ∀ i < (disk 1).size, (disk 1).inum i ∈ [2, 3]

instance (disk : Nat → Block) : Decidable (TwoFiles disk) :=
  decidable_of_iff (((disk 1).mode = 0 ∧ 1 < (disk 1).size ∧ (disk 1).inum 0 = 2 ∧ (disk 1).inum 1 = 3) ∧
    (∀ n ∈ [2, 3], (disk n).mode ≠ 0) ∧ (∀ n ∈ [1, 2, 3], (disk n).next = 0) ∧
    ∀ i < (disk 1).size, (disk 1).inum i ∈ [2, 3])
    ⟨fun h => ⟨h.1, h.2.1, h.2.2.1, h.2.2.2⟩, fun h => ⟨h.root, h.file, h.next, h.entry⟩⟩

theorem TwoFiles.node {h n : Nat} (hd : TwoFiles disk) (hn : Node disk h n) :
    n = h ∧ h ∈ [1, 2, 3] := by
  induction hn with
  | root => exact ⟨rfl, List.mem_cons_self⟩
  | next _ hne ih =>
    obtain ⟨rfl, hmem⟩ := ih
    exact absurd (hd.next _ hmem) hne
  | entry _ hmode hi ih =>
    obtain ⟨rfl, hmem⟩ := ih
    obtain rfl | hmem := List.mem_cons.mp hmem
    · exact ⟨rfl, List.mem_cons_of_mem _ (hd.entry _ hi)⟩
    · exact absurd hmode (hd.file _ hmem)

theorem TwoFiles.isFile {n : Nat} (hd : TwoFiles disk) (hn : n ∈ [2, 3]) : IsFile disk n := by
  obtain ⟨hmode, hsize, h0, h1⟩ := hd.root
  refine ⟨?_, hd.file n hn⟩
  obtain rfl | hn := List.mem_cons.mp hn
  · exact h0 ▸ Node.entry .root hmode (Nat.zero_lt_of_lt hsize)
  · obtain rfl := List.mem_singleton.mp hn
    exact h1 ▸ Node.entry .root hmode hsize

/-- Turns of operations on the root and on files 2 and 3 that find these files. -/
def calm (s : Clients Unit Request T) : Turn T Request (Nat × Block) → Bool
  | .call _ (.write ino _ _ _) | .call _ (.isfile ino) => decide (ino ∈ [2, 3])
  | .call _ (.create parent name) | .call _ (.unlink parent name) => parent == 1 && decide (name.length ≤ 63)
  | .call _ _ => false
  | .go t _ => !usedIn s.shared.disk 5000 &&
      match s.running t with
      | some (.create parent _, .op (.acquire _) _) => parent == 1 && (s.shared.disk 1).mode == 0
      | some (.write ino _ _ _, .op (.acquire l) _) | some (.isfile ino, .op (.acquire l) _) =>
        l != ino || decide (ino ∈ [2, 3]) && decide (TwoFiles s.shared.disk)
      | some (.unlink parent _, .op (.acquire l) _) => l != parent || parent == 1 && decide (TwoFiles s.shared.disk)
      | some (_, .op (.acquire _) _) => false
      | _ => true

def NoLinks (s : Clients Unit Request T) : Prop :=
  ∀ t p parent name link, s.running t ≠ some (.symlink parent name link, p)

theorem careful_of_calm {m : Turn T Request (Nat × Block)} (hs : NoLinks s)
    (h : calm s m = true) : Careful s m := by
  have hfiles : ∀ {ino : Nat}, ino ∈ [2, 3] → outsideBitmap ino = true := by decide
  cases m with
  | call t q =>
    cases q with
    | write ino buf size off => exact hfiles (of_decide_eq_true h)
    | isfile ino => exact hfiles (of_decide_eq_true h)
    | create parent name =>
      obtain ⟨rfl, hname⟩ : parent = 1 ∧ name.length ≤ 63 := by simpa [calm] using h
      exact ⟨by decide, hname⟩
    | unlink parent name =>
      obtain ⟨rfl, hname⟩ : parent = 1 ∧ name.length ≤ 63 := by simpa [calm] using h
      exact ⟨by decide, hname⟩
    | _ => cases h
  | go t o =>
    obtain ⟨hfree, hmatch⟩ := Bool.and_eq_true_iff.mp h
    refine ⟨⟨5000, by decide, by simpa using hfree⟩, fun q k hrun => ⟨?_, fun t' _ _ _ p _ hrun' => ?_⟩⟩
    · rw [hrun] at hmatch
      cases q with
      | write ino buf size off =>
        obtain ⟨hino, hd⟩ : ino ∈ [2, 3] ∧ TwoFiles s.shared.disk := by simpa [Request.ino] using hmatch
        exact hd.isFile hino
      | isfile ino =>
        obtain ⟨hino, hd⟩ : ino ∈ [2, 3] ∧ TwoFiles s.shared.disk := by simpa [Request.ino] using hmatch
        exact (hd.isFile hino).1
      | create parent name =>
        obtain ⟨rfl, hmode⟩ : parent = 1 ∧ (s.shared.disk 1).mode = 0 := by simpa [Request.ino] using hmatch
        exact ⟨.root, hmode⟩
      | unlink parent name =>
        obtain ⟨rfl, hd⟩ : parent = 1 ∧ TwoFiles s.shared.disk := by simpa [Request.ino] using hmatch
        refine ⟨⟨.root, hd.root.1⟩, fun n i hname => ?_⟩
        obtain ⟨hn, hi, -⟩ := hname
        obtain ⟨rfl, -⟩ := hd.node hn
        exact hd.file _ (hd.entry i hi)
      | _ => cases hmatch
    · exact absurd hrun' (hs t' p _ _ _)

theorem steps_careful [DecidableEq T]
    (h : Steps (Clients.step Request.code) (fun s m => calm s m = true) (Clients.start disk) s) :
    Steps (Clients.step Request.code) Careful (Clients.start disk) s := by
  refine (h.mono_of_invariant (I := NoLinks) (fun _ _ _ _ _ hrun => by cases hrun) ?_ fun s m hs =>
    careful_of_calm hs).1
  intro s m s' hs hcalm hstep t p parent name link hrun
  obtain ⟨t', q, rfl, -, rfl⟩ | ⟨t', o, q, a, rfl, -, rfl⟩ | ⟨t', o, q, e, k, r, y, rfl, hrun', -, rfl⟩ :=
    Procs.step_cases hstep
  · change Function.update s.running t' _ t = _ at hrun
    by_cases ht : t = t'
    · rw [ht, update_self] at hrun
      cases hrun
      cases hcalm
    · rw [update_of_ne ht] at hrun
      exact hs t p _ _ _ hrun
  · change Function.update s.running t' _ t = _ at hrun
    by_cases ht : t = t'
    · rw [ht, update_self] at hrun
      cases hrun
    · rw [update_of_ne ht] at hrun
      exact hs t p _ _ _ hrun
  · change Function.update s.running t' _ t = _ at hrun
    by_cases ht : t = t'
    · rw [ht, update_self] at hrun
      cases hrun
      exact hs t' _ _ _ _ hrun'
    · rw [update_of_ne ht] at hrun
      exact hs t p _ _ _ hrun

/-- Client `t` writes to this inode. -/
def writesTo (s : Clients Unit Request T) (t : T) (ino : Nat) : Bool :=
  match s.running t with
  | some (.write i _ _ _, _) => i == ino
  | _ => false

theorem running_of_writesTo {ino : Nat} (h : writesTo s t ino = true) :
    ∃ buf size off p, s.running t = some (.write ino buf size off, p) := by
  unfold writesTo at h
  split at h
  next i buf size off p hrun =>
    obtain rfl : i = ino := by simpa using h
    exact ⟨buf, size, off, p, hrun⟩
  next => cases h

theorem node_first {ino : Nat} (h : (disk 1).mode = 0 ∧ 0 < (disk 1).size ∧ (disk 1).inum 0 = ino) :
    Node disk ino ino := by
  obtain ⟨hmode, hsize, rfl⟩ := h
  exact .entry .root hmode hsize

/-- File 2 is written while it is unlinked: its entry is gone, and `unlink` waits for its
lock. -/
theorem write_isolated_unlink :
    ∃ w₁ w₂ : World, mount still = some w₁ ∧ mount w₁ = some w₂ ∧ ∃ s s' : Clients Unit Request Bool,
      Steps (Clients.step Request.code) Careful (Clients.start w₂.disk) s ∧ writesTo s false 2 = true ∧
      Clients.step Request.code s (.go false (0, Bytes.zero)) = some s' ∧
      ((s.shared.disk 2).direct 0 = 0 ∧ (s'.shared.disk 2).direct 0 = 4) ∧ BlockOf s.shared.disk 3 3 ∧
      s'.shared.disk 3 = s.shared.disk 3 := by
  obtain ⟨s, hs, hw, hold, hroot, s', hstep, hnew⟩ : ∃ s : Clients Unit Request Bool,
      Procs.play (guarded (Clients.step Request.code) fun s m => calm s m = true) (0, Bytes.zero) 400
        [.call false (.create 1 [120]), .go false fun _ => false, .call false (.create 1 [121]),
          .go false fun _ => false, .call false (.write 2 [97] 1 0), .go false (Call.puts 2 fun d => d.direct 0 != 0),
          .call true (.unlink 1 [120]), .go true (Call.acquires 2)]
        (Clients.start (format (format still.disk))) = some s ∧
      writesTo s false 2 = true ∧ (s.shared.disk 2).direct 0 = 0 ∧
      ((s.shared.disk 1).mode = 0 ∧ 0 < (s.shared.disk 1).size ∧ (s.shared.disk 1).inum 0 = 3) ∧
      ∃ s', Clients.step Request.code s (.go false (0, Bytes.zero)) = some s' ∧ (s'.shared.disk 2).direct 0 = 4 := by
    decide +kernel
  obtain ⟨buf, size, off, p, hrun⟩ := running_of_writesTo hw
  have hsteps := steps_careful (Procs.play_steps hs)
  have hother : BlockOf s.shared.disk 3 3 := ⟨3, node_first hroot, .inl rfl⟩
  have hrep : Rep (volOf (format (format still.disk))) rootOnly := rep_of_format (format_used format_blank_used)
  exact ⟨_, _, mount_eq rfl, mount_eq rfl, s, s', hsteps, hw, hstep, ⟨hold, hnew⟩, hother,
    write_isolated hrep hsteps hrun hstep (by decide) hother⟩

/-- `unlink` has removed the entry of file 4 and released its lock when a write takes it.
The data block 3 is freed and given to file 2, and then the write puts it. -/
theorem write_hits_reused :
    ∃ w₁ w₂ : World, mount still = some w₁ ∧ mount w₁ = some w₂ ∧ ∃ s s' : Clients Unit Request Bool,
      Steps (Clients.step Request.code) anyMove (Clients.start w₂.disk) s ∧ writesTo s false 4 = true ∧
      Clients.step Request.code s (.go false (0, Bytes.zero)) = some s' ∧ BlockOf s.shared.disk 2 3 ∧
      s.shared.disk 3 0 = 121 ∧ s'.shared.disk 3 0 = 122 := by
  obtain ⟨s, hs, hw, hold, hroot, hmode, hdirect, s', hstep, hnew⟩ : ∃ s : Clients Unit Request Bool,
      Procs.play (guarded (Clients.step Request.code) anyMove) (0, Bytes.zero) 400
        [.call false (.create 1 [121]), .go false fun _ => false, .call false (.create 1 [116]),
          .go false fun _ => false, .call false (.create 1 [120]), .go false fun _ => false,
          .call false (.unlink 1 [116]), .go false fun _ => false, .call false (.write 4 [97] 1 0),
          .go false fun _ => false, .call true (.unlink 1 [120]), .go true (Call.releases 4),
          .go true (Call.acquires 10), .call false (.write 4 [122] 1 0), .go false (Call.acquires 3),
          .go true fun _ => false, .call true (.write 2 [121] 1 0), .go true fun _ => false,
          .go false (Call.puts 3 fun _ => true)]
        (Clients.start (format (format still.disk))) = some s ∧
      writesTo s false 4 = true ∧ s.shared.disk 3 0 = 121 ∧
      ((s.shared.disk 1).mode = 0 ∧ 0 < (s.shared.disk 1).size ∧ (s.shared.disk 1).inum 0 = 2) ∧
      (s.shared.disk 2).mode ≠ 0 ∧ (s.shared.disk 2).direct 0 = 3 ∧
      ∃ s', Clients.step Request.code s (.go false (0, Bytes.zero)) = some s' ∧ s'.shared.disk 3 0 = 122 := by
    decide +kernel
  have hother : BlockOf s.shared.disk 2 3 :=
    ⟨2, node_first hroot, .inr ⟨hmode, 0, by decide, by rw [hdirect]; decide, hdirect.symm⟩⟩
  exact ⟨_, _, mount_eq rfl, mount_eq rfl, s, s', Procs.play_steps hs, hw, hstep, hother, hold, hnew⟩

end Yfs.Fs

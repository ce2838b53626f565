import Yfs.Fs.Clients

/-! What a client has to itself while it runs an operation.

The lock of an inode is the lock of the whole file or directory, and a client that holds
it has all its blocks to itself. It also has to itself the blocks that it has taken and
not linked yet, and those of a file that it has cut off and is about to free. This is its
*region*. It changes with the calls: a directory is entered with its lock, a node that is
put links what was taken before, and a file whose entry is gone is taken when its lock is
(`Act`). `symlink` goes on from the directory to the file that it has made there, whose
lock it does not take; the lock of the directory it keeps. What a client does is followed
here in terms of its region alone: it reads and writes no other block, but for a block not
in use that it fills before it sets the bit, it frees none but its own, and beside the lock
of its inode it holds at most one more, of a block of the region or of one not in use. -/
namespace Yfs.Fs
open Yfs.Base

variable {α β : Type}

/-! ### Regions -/

structure Region where
  /-- The file or directory that the client works on, by its inode. -/
  obj : Option (Nat × Obj)
  /-- Blocks in use that belong to no file or directory. -/
  loose : List Nat
  /-- A block that was filled and whose bit is not set yet. -/
  fresh : Option Nat
  /-- A file whose entry was removed, and whose lock was not taken since. -/
  victim : Option Nat
  /-- Entries of the directory that are known to be files. -/
  files : List Nat
  /-- The inode of the operation, while its lock is held. -/
  base : Option Nat
  /-- A further block whose lock is held. -/
  below : Option Nat
  /-- What the blocks hold. -/
  mem : Vol

namespace Region

def idle : Region := ⟨none, [], none, none, [], none, none, ⟨fun _ => Bytes.zero, fun _ => false⟩⟩

def blocks (x : Region) : List Nat := x.obj.elim [] (fun p => p.2.blocks) ++ x.loose

/-- What is known of every region. -/
structure Fine (x : Region) : Prop where
  shows : ∀ {h o}, x.obj = some (h, o) → Shows x.mem h o
  nodup : x.blocks.Nodup
  data : ∀ b ∈ x.blocks, outsideBitmap b = true
  lt : ∀ b ∈ x.blocks, b < volSize
  ne_zero : ∀ b ∈ x.blocks, b ≠ 0
  /-- The lock of the inode is the lock of no other block. -/
  only : ∀ {p}, x.base = some p → p ∈ x.blocks → ∃ o, x.obj = some (p, o)

theorem Fine.lock {x : Region} (hx : x.Fine) (y : Option Nat) : Fine { x with below := y } :=
  ⟨hx.shows, hx.nodup, hx.data, hx.lt, hx.ne_zero, hx.only⟩

theorem unlock {x : Region} (h : x.below = none) : { x with below := none } = x := by
  cases x
  cases h
  rfl

end Region

/-- The same kind of object, with the same entries. -/
inductive Obj.Like : Obj → Obj → Prop where
  | file {ns ns' : Nodes Nat} : Like (.file ns) (.file ns')
  | dir {ns ns' : Nodes Entry} : itemsOf ns' = itemsOf ns → Like (.dir ns) (.dir ns')

theorem Obj.Like.refl : (o : Obj) → o.Like o
  | .file _ => .file
  | .dir _ => .dir rfl

/-- What an operation finds under the lock of its inode. The entries that `unlink` looks for
are files, and the name that `symlink` is given is new. -/
def Request.Suits (files : List Nat) : Request → Obj → Prop
  | .construct, _ => False
  | .isfile _, _ | .isdir _, _ | .issym _, _ | .getfile _, _ | .getdir _, _ => True
  | .read _ _ _, o | .readlink _, o | .write _ _ _ _, o | .setattr _ _ _, o => ∃ ns, o = .file ns
  | .lookup _ _, o | .readdir _, o | .create _ _, o | .mkdir _ _, o => ∃ ns, o = .dir ns
  | .unlink _ name, o => ∃ ns, o = .dir ns ∧ ∀ e ∈ itemsOf ns, e.1 = cStr name → e.2 ∈ files
  | .symlink _ name _, o => ∃ ns, o = .dir ns ∧ ∀ e ∈ itemsOf ns, e.1 ≠ cStr name

inductive Act where
  | plain
  /-- The object of the lock joins the region, and leaves it. -/
  | enter
  | leave
  /-- The lock of one more block is taken or released. -/
  | nest
  /-- The blocks of the file that was cut off join the region. -/
  | take
  /-- A block not in use is filled. -/
  | fill
  /-- A bit is set or cleared. -/
  | set (i : Nat)
  | clear (i : Nat)
  /-- The object gets the loose blocks. -/
  | grow (h : Nat) (o : Obj)
  /-- The file loses blocks, which are then loose. -/
  | shed (h : Nat) (ns : Nodes Nat) (lost : List Nat)
  /-- The loose block becomes an entry of the directory. -/
  | link (h : Nat) (ns : Nodes Entry)
  /-- It becomes a file of the directory, and the client goes on with this file. -/
  | make (i : Nat)
  /-- A file of the directory is cut off. -/
  | cut (h i : Nat) (ns : Nodes Entry)

instance : Inhabited Act := ⟨.plain⟩

namespace Act

/-- The region after a put. -/
def apply (b : Nat) (d : Block) (x : Region) : Act → Region
  | .fill => { x with fresh := some b, mem := x.mem.write b d }
  | .set i => { x with loose := i :: x.loose, fresh := none }
  | .clear i => { x with loose := x.loose.erase i }
  | .grow h o => { x with obj := some (h, o), loose := [], mem := x.mem.write b d }
  | .shed h ns lost => { x with obj := some (h, .file ns), loose := lost, mem := x.mem.write b d }
  | .link h ns => { x with obj := some (h, .dir ns), loose := [], files := [], mem := x.mem.write b d }
  | .make i =>
    { x with obj := some (i, .file [(i, [])]), loose := [], victim := none, files := [], mem := x.mem.write b d }
  | .cut h i ns => { x with obj := some (h, .dir ns), victim := some i, files := [], mem := x.mem.write b d }
  | _ => x

def Found : Act → Prop
  | .cut h i _ => outsideBitmap i = true ∧ i ≠ 0 ∧ i ≠ h
  | _ => True

theorem apply_lock {b : Nat} {d : Block} {x : Region} (g : Act) (y : Option Nat) :
    g.apply b d { x with below := y } = { g.apply b d x with below := y } := by
  cases g <;> rfl

theorem apply_below {b : Nat} {d : Block} {x : Region} (g : Act) : (g.apply b d x).below = x.below := by
  cases g <;> rfl

theorem apply_base {b : Nat} {d : Block} {x : Region} (g : Act) : (g.apply b d x).base = x.base := by
  cases g <;> rfl

end Act

/-- The calls that a client may make with this region, and what they then are. -/
inductive Allowed (q : Request) (B : Bits) (x : Region) : Call → Act → Prop where
  | enter : x = .idle → B = .empty → Allowed q B x (.acquire q.ino) .enter
  | nest {l : Nat} : l ∈ x.blocks → x.base ≠ some l → x.below = none → B = .empty → Allowed q B x (.acquire l) .nest
  | candidate {l : Nat} : B.Shows l false → l < volSize → x.below = none → Allowed q B x (.acquire l) .nest
  | take {i : Nat} : x.victim = some i → x.loose = [] → x.below = none → B = .empty → Allowed q B x (.acquire i) .take
  | release {l : Nat} : x.below = some l → Allowed q B x (.release l) .nest
  | leave {l : Nat} : x.base = some l → x.below = none → Allowed q B x (.release l) .leave
  | get {b : Nat} : b ∈ x.blocks → Allowed q B x (.get b) .plain
  | fill {b : Nat} {d : Block} : B.Shows b false → b < volSize → ¬ Reserved b → x.fresh = none →
      Allowed q B x (.put b d) .fill
  | set {i : Nat} {d : Block} : x.fresh = some i → B (bitmapBlock i) = some d →
      Allowed q B x (.put (bitmapBlock i) (d.setBit (i % bitmapPerBlock))) (.set i)
  | clear {i : Nat} {d : Block} : i ∈ x.loose → B (bitmapBlock i) = some d →
      Allowed q B x (.put (bitmapBlock i) (d.clearBit (i % bitmapPerBlock))) (.clear i)
  | grow {h b : Nat} {o o' : Obj} {d : Block} : x.obj = some (h, o) → b ∈ o.blocks → o.Like o' →
      Shows (x.mem.write b d) h o' → o'.blocks.Perm (o.blocks ++ x.loose) → Allowed q B x (.put b d) (.grow h o')
  | shed {h b : Nat} {ns ns' : Nodes Nat} {lost : List Nat} {d : Block} : x.obj = some (h, .file ns) →
      b ∈ nodesOf ns → Shows (x.mem.write b d) h (.file ns') →
      (Obj.file ns).blocks.Perm ((Obj.file ns').blocks ++ lost) → Allowed q B x (.put b d) (.shed h ns' lost)
  | link {h i b : Nat} {ns ns' : Nodes Entry} {new : Obj} {d : Block} : x.obj = some (h, .dir ns) →
      b ∈ nodesOf ns → x.loose = [i] → Shows x.mem i new → new.blocks = [i] → new.children = [] →
      Shows (x.mem.write b d) h (.dir ns') → nodesOf ns' = nodesOf ns →
      (Obj.dir ns').children.Perm (i :: (Obj.dir ns).children) → Allowed q B x (.put b d) (.link h ns')
  | make {h i b : Nat} {ns ns' : Nodes Entry} {name link : List Byte} {d : Block} :
      q = .symlink h name link → x.obj = some (h, .dir ns) → x.base = some h →
      b ∈ nodesOf ns → x.loose = [i] → Shows x.mem i (.file [(i, [])]) →
      Shows (x.mem.write b d) h (.dir ns') → nodesOf ns' = nodesOf ns →
      (Obj.dir ns').children.Perm (i :: (Obj.dir ns).children) → Allowed q B x (.put b d) (.make i)
  | cut {h i b : Nat} {ns ns' : Nodes Entry} {d : Block} : x.obj = some (h, .dir ns) → b ∈ nodesOf ns →
      x.loose = [] → i ∈ x.files → Shows (x.mem.write b d) h (.dir ns') → nodesOf ns' = nodesOf ns →
      (Obj.dir ns).children.Perm (i :: (Obj.dir ns').children) → Allowed q B x (.put b d) (.cut h i ns')

theorem Allowed.lock {q : Request} {B : Bits} {x : Region} {b : Nat} {d : Block} {g : Act}
    (h : Allowed q B x (.put b d) g) (y : Option Nat) : Allowed q B { x with below := y } (.put b d) g := by
  cases h with
  | fill hshows hlt hres hfresh => exact .fill hshows hlt hres hfresh
  | set hfresh hold => exact .set hfresh hold
  | clear hloose hold => exact .clear hloose hold
  | grow ho hb hlike hshows hperm => exact .grow ho hb hlike hshows hperm
  | shed ho hb hshows hperm => exact .shed ho hb hshows hperm
  | link ho hb hloose hnew hbs hcs hshows hnodes hkids => exact .link ho hb hloose hnew hbs hcs hshows hnodes hkids
  | make hq ho hbase hb hloose hnew hshows hnodes hkids => exact .make hq ho hbase hb hloose hnew hshows hnodes hkids
  | cut ho hb hloose hi hshows hnodes hkids => exact .cut ho hb hloose hi hshows hnodes hkids

def After (q : Request) : (c : Call) → Act → Region → c.Answer → Region → Prop
  | .acquire l, .enter, _, _, x' => ∃ o files mem, q.Suits files o ∧
      x' = ⟨some (l, o), [], none, none, files, some l, none, mem⟩
  | .acquire l, .take, x, _, x' => ∃ ns mem, Shows mem l (.file ns) ∧
      x' = { x with loose := (Obj.file ns).blocks, victim := none, below := some l, mem := mem }
  | .acquire l, _, x, _, x' => x' = { x with below := some l }
  | .release _, .leave, x, _, x' => x' = { x with obj := none, victim := none, files := [], base := none }
  | .release _, _, x, _, x' => x' = { x with below := none }
  | .get b, _, x, r, x' => r = (.ok, x.mem.block b) ∧ x' = x
  | .put b d, g, x, _, x' => g.Found ∧ x' = g.apply b d x
  | _, _, x, _, x' => x' = x

def regionLogic (q : Request) : Logic Region Act where
  ready x := x.fresh = none ∧ ∀ b, x.below = some b → b ∈ x.blocks
  inUse x b := b ∈ x.blocks
  ok c g v := Allowed q v.bits v.rest c g
  next c g v r x' := After q c g v.rest r x' ∧ x'.Fine

/-- Started with the region `x` and no bitmap block locked, the program keeps to its region,
and `Q` holds of what it returns and of the region then. -/
def Walks (q : Request) (p : Code α) (x : Region) (Q : α → Region → Prop) : Prop :=
  (regionLogic q).Path p ⟨.empty, x⟩ fun a v => v.bits = .empty ∧ Q a v.rest

/-- The region is the object `o` and the loose blocks `L`, and of the locks only that of
`k` is held. -/
structure Region.With (x : Region) (k h : Nat) (o : Obj) (L : List Nat) : Prop extends Region.Fine x where
  obj : x.obj = some (h, o)
  loose : x.loose = L
  fresh : x.fresh = none
  base : x.base = some k
  below : x.below = none

namespace Region.With
variable {q : Request} {x : Region} {k h b : Nat} {o : Obj} {L : List Nat}

theorem blocks_eq (hx : x.With k h o L) : x.blocks = o.blocks ++ L := by
  rw [blocks, hx.obj, hx.loose]
  rfl

theorem mem_blocks (hx : x.With k h o L) (hb : b ∈ o.blocks) : b ∈ x.blocks := by
  rw [hx.blocks_eq]
  exact List.mem_append_left _ hb

theorem shown (hx : x.With k h o L) : Shows x.mem h o := hx.shows hx.obj

theorem head_mem (hx : x.With k h o L) : h ∈ x.blocks :=
  hx.mem_blocks (Obj.mem_blocks_of_node hx.shown.head_mem)

theorem nodup_nodes (hx : x.With k h o L) : o.nodes.Nodup := by
  have hnodup := hx.nodup
  rw [hx.blocks_eq, List.nodup_append] at hnodup
  exact (List.nodup_append.mp hnodup.1).1

theorem not_mem {i : Nat} (hx : x.With k h o (i :: L)) : i ∉ o.blocks := by
  have hnodup := hx.nodup
  rw [hx.blocks_eq, List.nodup_append] at hnodup
  exact fun hi => hnodup.2.2 i hi i List.mem_cons_self rfl

theorem ready (hx : x.With k h o L) : (regionLogic q).ready x :=
  ⟨hx.fresh, fun b hb => by rw [hx.below] at hb; cases hb⟩

theorem base_ne (hx : x.With k h o L) (hb : b ∈ x.blocks) (hne : b ≠ h) : x.base ≠ some b := by
  intro hbase
  obtain ⟨o', ho'⟩ := hx.only hbase hb
  rw [hx.obj] at ho'
  cases ho'
  exact hne rfl

end Region.With

/-! ### Rules -/

namespace Walks
variable {q : Request} {x : Region} {b h k l : Nat} {o o' : Obj} {L : List Nat} {buf d : Block}
  {Q Q' : α → Region → Prop}

protected theorem pure {a : α} (hQ : Q a x) : Walks q (pure a) x Q := ⟨rfl, hQ⟩

theorem mono {p : Code α} (hp : Walks q p x Q) (hQ : ∀ a x', Q a x' → Q' a x') : Walks q p x Q' :=
  Prog.Paths.mono hp fun a v hv => ⟨hv.1, hQ a v.rest hv.2⟩

protected theorem bind {p : Code α} {f : α → Code β} {Q : β → Region → Prop}
    (hp : Walks q p x fun a x' => Walks q (f a) x' Q) : Walks q (p >>= f) x Q := by
  refine Prog.Paths.bind (Prog.Paths.mono hp ?_)
  rintro a ⟨_, x'⟩ ⟨rfl, hf⟩
  exact hf

theorem time {Q : Nat → Region → Prop} (hQ : ∀ n, Q n x) : Walks q time x Q := by
  refine ⟨.plain, trivial, ?_⟩
  rintro n _ rfl
  exact ⟨rfl, hQ n⟩

theorem uninit {Q : Block → Region → Prop} (hQ : ∀ d, Q d x) : Walks q uninit x Q := by
  refine ⟨.plain, trivial, ?_⟩
  rintro d _ rfl
  exact ⟨rfl, hQ d⟩

theorem hang : Walks q (hang : Code α) x Q := ⟨.plain, trivial, nofun⟩

theorem undefinedAccess : Walks q (undefinedAccess : Code α) x Q := ⟨.plain, trivial, nofun⟩

theorem acquire {Q : Unit → Region → Prop} (g : Act) (hl : outsideBitmap l = true)
    (hacq : Allowed q .empty x (.acquire l) g)
    (hQ : ∀ x', After q (.acquire l) g x () x' → x'.Fine → Q () x') : Walks q (acquire l) x Q :=
  Logic.acquire_outside g hl hacq fun x' hx' => ⟨rfl, hQ x' hx'.1 hx'.2⟩

theorem release {Q : Unit → Region → Prop} (g : Act) (hl : outsideBitmap l = true)
    (hrel : Allowed q .empty x (.release l) g)
    (hQ : ∀ x', After q (.release l) g x () x' → x'.Fine → Q () x') : Walks q (release l) x Q :=
  Logic.release_outside g hl hrel fun x' hx' => ⟨rfl, hQ x' hx'.1 hx'.2⟩

/-- A lock is taken with the act `g` and released with `g'`. -/
theorem lock {p : Code α} (g g' : Act) (hl : outsideBitmap l = true) (hacq : Allowed q .empty x (.acquire l) g)
    (hp : ∀ x₁, After q (.acquire l) g x () x₁ → x₁.Fine → Walks q p x₁ fun a x₂ =>
      Allowed q .empty x₂ (.release l) g' ∧ ∀ x₃, After q (.release l) g' x₂ () x₃ → x₃.Fine → Q a x₃) :
    Walks q (withLock l p) x Q := by
  refine .bind (acquire g hl hacq fun x₁ hafter hx₁ => .bind ((hp x₁ hafter hx₁).mono ?_))
  rintro a x₂ ⟨hrel, hQ⟩
  exact .bind (release g' hl hrel fun x₃ hafter hx₃ => .pure (hQ x₃ hafter hx₃))

theorem lock_nest {p : Code α} (hx : x.Fine) (hl : l ∈ x.blocks) (hbase : x.base ≠ some l) (hbelow : x.below = none)
    (hp : Walks q p { x with below := some l } fun a x' => x'.below = some l ∧
      (Region.Fine { x' with below := none } → Q a { x' with below := none })) :
    Walks q (withLock l p) x Q := by
  refine lock .nest .nest (hx.data l hl) (.nest hl hbase hbelow rfl) ?_
  rintro _ rfl -
  refine hp.mono fun a x' h => ⟨.release h.1, ?_⟩
  rintro _ rfl hfine
  exact h.2 hfine

theorem locked {p : Code α} (hq : q.ino = l) (hl : outsideBitmap l = true)
    (hp : ∀ x o, q.Suits x.files o → x.With l l o [] → Walks q p x fun _ x' => x'.base = some l ∧ x'.below = none) :
    Walks q (withLock l p) .idle fun _ x' => x'.base = none ∧ x'.below = none := by
  subst hq
  refine lock .enter .leave hl (.enter rfl rfl) ?_
  rintro _ ⟨o, files, mem, hsuits, rfl⟩ hfine
  refine (hp _ o hsuits ⟨hfine, rfl, rfl, rfl, rfl, rfl⟩).mono ?_
  rintro _ x' ⟨hbase, hbelow⟩
  refine ⟨.leave hbase hbelow, ?_⟩
  rintro _ rfl -
  exact ⟨rfl, hbelow⟩

theorem ofSet {f : Bool → Code α} (hx : x.Fine) (hready : (regionLogic q).ready x) (hb : b ∈ x.blocks)
    (hp : Walks q (f true) x Q) : Walks q (bitOf b >>= f) x Q := by
  refine .bind ?_
  refine Prog.Paths.mono (Logic.bitOf_inUse hready (hx.lt b hb) hb) ?_
  rintro _ _ ⟨rfl, rfl⟩
  exact ⟨rfl, hp⟩

theorem get (hx : x.Fine) (hready : (regionLogic q).ready x) (hb : b ∈ x.blocks) :
    Walks q (get b buf) x fun r x' => r = (.ok, x.mem.block b) ∧ x' = x := by
  rw [Fs.get, if_pos (hx.data b hb)]
  refine ofSet hx hready hb ?_
  rw [if_pos rfl]
  refine Logic.get_outside .plain rfl (.get hb) ?_
  rintro r x' ⟨⟨rfl, rfl⟩, -⟩
  exact ⟨rfl, rfl, rfl⟩

theorem put (g : Act) (hx : x.Fine) (hready : (regionLogic q).ready x) (hb : b ∈ x.blocks)
    (hok : Allowed q .empty x (.put b d) g) :
    Walks q (put b d false) x fun r x' => r = (.ok, b) ∧ g.Found ∧ x' = g.apply b d x ∧ x'.Fine := by
  rw [Fs.put, if_neg Bool.false_ne_true, if_pos (hx.data b hb)]
  refine ofSet hx hready hb ?_
  rw [if_pos rfl]
  refine Prog.Paths.bind (Logic.put_outside g rfl hok fun x' hx' => ?_)
  exact ⟨rfl, rfl, hx'.1.1, hx'.1.2, hx'.2⟩

/-- A block of the region is read; `i` is the block whose lock is not taken again. -/
theorem safeGet_other {i : Nat} (hx : x.Fine) (hready : x.fresh = none) (hbelow : x.below = none) (hb : b ∈ x.blocks)
    (hi : b ≠ i → x.base ≠ some b) :
    Walks q (safeGet b buf i) x fun r x' => r = (.ok, x.mem.block b) ∧ x' = x := by
  unfold Fs.safeGet
  split
  next => exact get hx ⟨hready, fun _ hc => by rw [hbelow] at hc; cases hc⟩ hb
  next hne =>
    refine lock_nest hx hb (hi hne) hbelow ((get (hx.lock (some b)) ⟨hready, ?_⟩ hb).mono ?_)
    · rintro _ ⟨⟩
      exact hb
    · rintro _ _ ⟨rfl, rfl⟩
      exact ⟨rfl, fun _ => ⟨rfl, Region.unlock hbelow⟩⟩

theorem safeGet (hx : x.With k h o L) (hb : b ∈ x.blocks) :
    Walks q (Fs.safeGet b buf h) x fun r x' => r = (.ok, x.mem.block b) ∧ x' = x :=
  safeGet_other hx.toFine hx.fresh hx.below hb (hx.base_ne hb)

theorem safePut_other {i : Nat} (g : Act) (hx : x.With k h o L) (hb : b ∈ x.blocks) (hi : b ≠ i → x.base ≠ some b)
    (hok : Allowed q .empty x (.put b d) g) :
    Walks q (safePut b d false i) x fun r x' => r = (.ok, b) ∧ g.Found ∧ x' = g.apply b d x ∧ x'.Fine := by
  unfold Fs.safePut
  split
  next => exact put g hx.toFine hx.ready hb hok
  next hne =>
    refine lock_nest hx.toFine hb (hi fun e => hne (.inr e)) hx.below ?_
    refine (put g (hx.lock (some b)) ⟨hx.fresh, ?_⟩ hb (hok.lock (some b))).mono ?_
    · rintro _ ⟨⟩
      exact hb
    · rintro _ _ ⟨rfl, hfound, rfl, -⟩
      rw [g.apply_lock]
      refine ⟨rfl, fun hfine => ?_⟩
      have heq : { g.apply b d x with below := none } = g.apply b d x := Region.unlock (g.apply_below.trans hx.below)
      exact ⟨rfl, hfound, heq, heq ▸ hfine⟩

theorem safePut (g : Act) (hx : x.With k h o L) (hb : b ∈ o.blocks) (hok : Allowed q .empty x (.put b d) g) :
    Walks q (Fs.safePut b d false h) x fun r x' => r = (.ok, b) ∧ g.Found ∧ x' = g.apply b d x ∧ x'.Fine :=
  safePut_other g hx (hx.mem_blocks hb) (hx.base_ne (hx.mem_blocks hb)) hok

/-- A block of the object is put, and the object gets what is loose. -/
theorem safePut_grow (hx : x.With k h o L) (hb : b ∈ o.blocks) (hlike : o.Like o')
    (hshows : Shows (x.mem.write b d) h o') (hperm : o'.blocks.Perm (o.blocks ++ L)) :
    Walks q (Fs.safePut b d false h) x fun r x' =>
      r = (.ok, b) ∧ x'.mem = x.mem.write b d ∧ x'.files = x.files ∧ x'.With k h o' [] := by
  refine (safePut (.grow h o') hx hb (.grow hx.obj hb hlike hshows (hx.loose ▸ hperm))).mono ?_
  rintro _ _ ⟨rfl, -, rfl, hfine⟩
  exact ⟨rfl, rfl, rfl, hfine, rfl, rfl, hx.fresh, hx.base, hx.below⟩

theorem safePut_same (hx : x.With k h o []) (hb : b ∈ o.blocks) (hshows : Shows (x.mem.write b d) h o) :
    Walks q (Fs.safePut b d false h) x fun r x' =>
      r = (.ok, b) ∧ x'.mem = x.mem.write b d ∧ x'.files = x.files ∧ x'.With k h o [] :=
  safePut_grow hx hb (.refl o) hshows (by rw [List.append_nil])

theorem alloc {n : Nat} (hx : x.With k h o L) :
    Walks q (Fs.safePut n d true l) x fun r x' => ∃ i, r = (.ok, i) ∧ i < volSize ∧
      x'.mem = x.mem.write i d ∧ x'.With k h o (i :: L) := by
  unfold Fs.safePut
  rw [if_pos (.inl rfl)]
  refine Prog.Paths.mono (Logic.add (L := regionLogic q)
    (Q := fun i x' => i < volSize ∧ x'.mem = x.mem.write i d ∧ x'.With k h o (i :: L)) hx.ready ?_) ?_
  · intro i B bits hat hbit hres
    have hi := Logic.outside_of_not_reserved hres
    have hclear : B.Shows i false := ⟨bits, hat.known, hbit⟩
    refine .bind (Logic.acquire_outside .nest hi (.candidate hclear hat.lt hx.below) ?_)
    rintro _ ⟨rfl, -⟩
    refine .bind (Logic.put_outside .fill (hat.none_of_outside hi) (.fill hclear hat.lt hres hx.fresh) ?_)
    rintro _ ⟨⟨-, rfl⟩, -⟩
    refine .bind (Logic.release_outside .nest hi (.release rfl) ?_)
    rintro _ ⟨rfl, -⟩
    refine .pure ⟨rfl, rfl, .set i, .set rfl hat.known, ?_⟩
    rintro _ ⟨⟨-, rfl⟩, hfine⟩
    have hx' : Region.With _ k h o (i :: L) :=
      ⟨hfine, hx.obj, congrArg (i :: ·) hx.loose, rfl, hx.base, rfl⟩
    exact ⟨hx'.ready, hat.lt, rfl, hx'⟩
  · rintro _ ⟨_, x'⟩ ⟨i, rfl, rfl, hQ⟩
    exact ⟨rfl, i, rfl, hQ⟩

theorem remove (hx : x.Fine) (hready : x.fresh = none) (hbelow : x.below = none) (hb : b ∈ x.loose) :
    Walks q (remove b) x fun _ x' => x' = { x with loose := x.loose.erase b } ∧ x'.Fine := by
  have hlt := hx.lt b (List.mem_append_right _ hb)
  have hnone : ∀ {bs : List Nat} c, x.below = some c → c ∈ bs := fun _ hc => by rw [hbelow] at hc; cases hc
  refine Prog.Paths.mono (Logic.remove (L := regionLogic q)
    (Q := fun x' => x' = { x with loose := x.loose.erase b } ∧ x'.Fine) ⟨hready, hnone⟩ hlt fun bits _ => ?_) ?_
  · refine ⟨.clear b, .clear hb (Function.update_self ..), ?_⟩
    rintro _ ⟨⟨-, rfl⟩, hfine⟩
    exact ⟨⟨hready, hnone⟩, rfl, hfine⟩
  · rintro _ ⟨_, x'⟩ ⟨rfl, rfl, hQ⟩
    exact ⟨rfl, hQ⟩

end Walks

-- The functions are followed with these rules alone.
attribute [irreducible] Walks

end Yfs.Fs

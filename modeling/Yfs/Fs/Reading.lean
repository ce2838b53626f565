import Yfs.Fs.Content

/-! What `inner_read` returns.

The blocks of a file hold a sequence of bytes, of which the content is the beginning. The
offsetting loop goes to the block of the offset and counts down, for each block it passes,
the bytes of the file that are left; the reading loop takes bytes from the offset on until
it has as many as it was asked for, or as many as were left *at the start of the block*, or
there are no more blocks. An offset inside a block thus makes it read on past the end of the
file, by as many bytes as it is into the block (`FileAt.innerRead`). `inner_read_slice` says
for which calls the bytes are still those of the file. -/
namespace Yfs.Fs
open Yfs.Base

/-- The bytes of the blocks, one behind the other. -/
def bytesOf (v : Vol) (bs : List Nat) : List Byte := bs.flatMap fun b => (v.block b).slice 0 512

section
variable {v v' : Vol} {bs : List Nat} {b p o : Nat}

theorem bytesOf_cons (v : Vol) (b : Nat) (bs : List Nat) :
    bytesOf v (b :: bs) = (v.block b).slice 0 512 ++ bytesOf v bs := List.flatMap_cons

theorem bytesOf_append (v : Vol) (bs cs : List Nat) : bytesOf v (bs ++ cs) = bytesOf v bs ++ bytesOf v cs :=
  List.flatMap_append

@[simp] theorem length_bytesOf (v : Vol) (bs : List Nat) : (bytesOf v bs).length = 512 * bs.length := by
  induction bs with
  | nil => simp [bytesOf]
  | cons b bs ih =>
    rw [bytesOf_cons, List.length_append, Bytes.length_slice, ih, List.length_cons, Nat.mul_succ, Nat.add_comm]

theorem bytesOf_congr (h : ∀ b ∈ bs, v'.block b = v.block b) : bytesOf v' bs = bytesOf v bs :=
  List.flatMap_congr fun b hb => by rw [h b hb]

/-- From an offset in block `p` on there is the rest of that block, and then the next blocks. -/
theorem drop_bytesOf (hp : bs[p]? = some b) (ho : o ≤ 512) : (bytesOf v bs).drop (512 * p + o) =
    (v.block b).slice o (512 - o) ++ (bytesOf v bs).drop (512 * (p + 1)) := by
  obtain ⟨hlt, rfl⟩ := List.getElem?_eq_some_iff.mp hp
  have hsplit : bytesOf v bs = bytesOf v (bs.take p) ++ ((v.block bs[p]).slice 0 o ++
      ((v.block bs[p]).slice o (512 - o) ++ bytesOf v (bs.drop (p + 1)))) := by
    have hslice := Bytes.slice_add (v.block bs[p]) 0 o (512 - o)
    rw [Nat.zero_add, Nat.add_sub_cancel' ho] at hslice
    rw [← List.append_assoc ((v.block bs[p]).slice 0 o), ← hslice]
    rw [← bytesOf_cons, List.cons_getElem_drop_succ, ← bytesOf_append, List.take_append_drop]
  have htake : (bytesOf v (bs.take p)).length = 512 * p := by
    rw [length_bytesOf, List.length_take, Nat.min_eq_left (Nat.le_of_lt hlt)]
  have hhead : 512 * (p + 1) = (bytesOf v (bs.take p) ++ ((v.block bs[p]).slice 0 o ++
      (v.block bs[p]).slice o (512 - o))).length := by
    rw [List.length_append, List.length_append, htake, Bytes.length_slice, Bytes.length_slice]
    omega
  have hrest : (bytesOf v bs).drop (512 * (p + 1)) = bytesOf v (bs.drop (p + 1)) := by
    rw [hsplit, ← List.append_assoc ((v.block bs[p]).slice 0 o), ← List.append_assoc, hhead, List.drop_left]
  rw [hrest, hsplit, ← List.append_assoc, List.drop_left' (by rw [List.length_append, htake, Bytes.length_slice])]

theorem take_slice (b : Block) {o k m : Nat} (h : m ≤ k) : (b.slice o k).take m = b.slice o m := by
  rw [Bytes.slice, Bytes.slice, ← List.map_take, List.take_range, Nat.min_eq_left h]

end

/-! ### A file at blocks of its own -/

namespace FileAt
variable {v : Vol} {ino : Nat} {ns : Nodes Nat} {H : List Nat}

theorem length_lt (h : FileAt v ino ns) : (itemsOf ns).length < loopFuel := by
  have hlen := h.length_le
  have hvol : volSize = 782336 := rfl
  have hfuel : loopFuel = 18446744073709551616 := rfl
  omega

theorem retouch {d : Block} (h : FileAt v ino ns) (hd : d.links = (v.block ino).links) :
    FileAt (v.write ino d) ino ns := by
  have hhead := h.head
  cases ns with
  | nil => cases hhead
  | cons x rest =>
    obtain ⟨n, ds⟩ := x
    obtain rfl : n = ino := Option.some.inj hhead
    obtain ⟨hshow, hnext, hrest⟩ := h.chained
    have hnodup := (List.nodup_append.mp h.nodup).1
    refine ⟨rfl, ⟨?_, ?_, hrest.congr fun m hm => Vol.write_block_ne ?_⟩, fun b hb => ?_, h.ne_zero, h.nodup⟩
    · rw [Vol.write_block_self]
      exact hshow.of_links hd
    · rw [Vol.write_block_self, Block.next_of_links hd, hnext]
    · rintro rfl
      exact (List.nodup_cons.mp hnodup).1 hm
    · have hhas := h.has b hb
      exact ⟨hhas.used, hhas.data, hhas.lt⟩

theorem content (h : FileAt v ino ns) :
    content v ino (nodesOf ns) = (bytesOf v (itemsOf ns)).take (v.block ino).size := by
  rw [Fs.content, h.chained.directs fun d hd => h.ne_zero d (List.mem_append_right _ hd)]
  rfl

theorem safeGet {b : Nat} {buf : Block} (h : FileAt v ino ns) (hl : Locks H ino v ns)
    (hb : b ∈ (Obj.file ns).blocks) : Gives H v (safeGet b buf ino) (.ok, v.block b) v := by
  refine .safeGet hl.held.offBitmap (h.has b hb) ?_
  by_cases hm : b ∈ H
  · exact .inl ((hl.own b hm).resolve_right fun hnot => hnot hb)
  · exact .inr hm

end FileAt

/-! ### The loops -/

section
variable {v : Vol} {ino p : Nat} {ns : Nodes Nat} {H : List Nat} {c : Cursor}

theorem FileAt.direct_ne_zero (h : FileAt v ino ns) (hfilled : Filled ns) (hc : On v ns c p) :
    c.inode.direct c.index ≠ 0 :=
  h.ne_zero _ (List.mem_append_right _ (List.mem_of_getElem? (hc.item h.chained hfilled)))

/-- The block at the cursor is there, unless the cursor is past all blocks or past its node. -/
theorem Pos.on (hc : Pos v ns c p) (hfilled : Filled ns) (hidx : c.index < 16) (hp : p < (itemsOf ns).length) :
    On v ns c p := by
  obtain ⟨pre, n, ds, post, rfl, htarget, hinode, -, hpos⟩ := hc
  refine ⟨pre, n, ds, post, rfl, htarget, hinode, ?_, hpos⟩
  cases post with
  | nil =>
    rw [itemsOf_append, itemsOf_cons, itemsOf_nil, List.append_nil, List.length_append,
      length_itemsOf hfilled.before] at hp
    omega
  | cons x rest =>
    rw [hfilled.full (List.cons_ne_nil x rest)]
    exact hidx

theorem Pos.length_le (hc : Pos v ns c p) (hfilled : Filled ns) : p ≤ (itemsOf ns).length := by
  obtain ⟨pre, n, ds, post, rfl, -, -, hidx, hp⟩ := hc
  rw [itemsOf_append, itemsOf_cons, List.length_append, List.length_append, length_itemsOf hfilled.before]
  omega

/-- Where there is a block at the cursor it is found, in this node or the next. -/
theorem FileAt.readTouch_in (h : FileAt v ino ns) (hfilled : Filled ns) (hl : Locks H ino v ns) (hc : Pos v ns c p)
    (hp : p < (itemsOf ns).length) :
    ∃ c', On v ns c' p ∧ Gives H v (readTouch ino c.index c.inode) (some (c'.index, c'.inode)) v := by
  rw [readTouch]
  by_cases hfull : directBlockNum ≤ c.index
  · obtain ⟨pre, n, ds, post, rfl, htarget, hinode, hidx, hpos⟩ := hc
    obtain ⟨hshow, hnext, -⟩ := h.chained.split
    have hfits := hshow.fits
    have hfull' : 16 ≤ c.index := hfull
    rw [if_pos hfull, hinode, hnext]
    cases post with
    | nil =>
      rw [itemsOf_append, itemsOf_cons, itemsOf_nil, List.append_nil, List.length_append,
        length_itemsOf hfilled.before] at hp
      omega
    | cons x rest =>
      obtain ⟨m, ds'⟩ := x
      have hm : m ∈ (Obj.file (pre ++ (n, ds) :: (m, ds') :: rest)).blocks :=
        Obj.mem_blocks_of_node (by simp [Obj.nodes])
      have hon := (@pos_next v pre rest n m p ds ds' (by omega)).on hfilled (Nat.zero_lt_succ 15) hp
      refine ⟨_, hon, ?_⟩
      rw [firstOf_cons, if_pos (h.ne_zero m hm)]
      refine (h.safeGet hl hm).bind ?_
      dsimp only
      rw [if_neg (h.direct_ne_zero hfilled hon)]
      exact Gives.pure _
  · have hon := hc.on hfilled (Nat.lt_of_not_le hfull) hp
    refine ⟨c, hon, ?_⟩
    rw [if_neg hfull, if_neg (h.direct_ne_zero hfilled hon)]
    exact Gives.pure _

theorem FileAt.readTouch_end (h : FileAt v ino ns) (hfilled : Filled ns) (hl : Locks H ino v ns) (hc : Pos v ns c p)
    (hp : (itemsOf ns).length ≤ p) : Gives H v (readTouch ino c.index c.inode) none v := by
  obtain ⟨pre, n, ds, post, rfl, htarget, hinode, hidx, hpos⟩ := hc
  obtain ⟨hshow, hnext, hpost⟩ := h.chained.split
  rw [itemsOf_append, itemsOf_cons, List.length_append, List.length_append, length_itemsOf hfilled.before] at hp
  rw [readTouch]
  by_cases hfull : directBlockNum ≤ c.index
  · rw [if_pos hfull, hinode, hnext]
    cases post with
    | nil =>
      rw [if_neg fun hne => hne rfl]
      exact Gives.pure _
    | cons x rest =>
      obtain ⟨m, ds'⟩ := x
      have hm : m ∈ (Obj.file (pre ++ (n, ds) :: (m, ds') :: rest)).blocks :=
        Obj.mem_blocks_of_node (by simp [Obj.nodes])
      rw [itemsOf_cons, List.length_append] at hp
      obtain rfl : ds' = [] := List.eq_nil_of_length_eq_zero (by omega)
      rw [firstOf_cons, if_pos (h.ne_zero m hm)]
      refine (h.safeGet hl hm).bind ?_
      dsimp only
      rw [hpost.1.direct 0 (by decide), List.getD_nil, if_pos rfl]
      exact Gives.pure _
  · have hlt : c.index < 16 := Nat.lt_of_not_le hfull
    rw [if_neg hfull, hinode, hshow.direct _ hlt, List.getD_eq_default _ _ (by omega), if_pos rfl]
    exact Gives.pure _

/-- **The offsetting loop** ends at the block of the offset, unless the file has no such block
or has fewer bytes than were passed over. -/
theorem FileAt.readSeek {fuel o filesize : Nat} (h : FileAt v ino ns) (hfilled : Filled ns) (hl : Locks H ino v ns)
    (hc : Pos v ns c p) (hfuel : (itemsOf ns).length < p + fuel) :
    Does H v (readSeek ino fuel o filesize c.index c.inode) fun r v' => v' = v ∧
      (((itemsOf ns).length ≤ p + o / 512 ∨ filesize < 512 * (o / 512)) ∧ r = none ∨
      ∃ c', On v ns c' (p + o / 512) ∧ 512 * (o / 512) ≤ filesize ∧
        r = some (((o % 512 : Nat) : Int), filesize - 512 * (o / 512), c'.index, c'.inode)) := by
  induction fuel generalizing p c o filesize with
  | zero =>
    have hle := hc.length_le hfilled
    omega
  | succ fuel ih =>
    rw [Fs.readSeek]
    by_cases hp : p < (itemsOf ns).length
    · obtain ⟨c', hon, htouch⟩ := h.readTouch_in hfilled hl hc hp
      refine htouch.bind ?_
      dsimp only
      by_cases hoff : 512 ≤ o
      · rw [if_pos (by omega)]
        have hdiv : o / 512 = (o - 512) / 512 + 1 := by omega
        have hmod : o % 512 = (o - 512) % 512 := by omega
        by_cases hsize : 512 ≤ filesize
        · rw [if_pos hsize, show (o : Int) - 512 = ((o - 512 : Nat) : Int) by omega]
          refine (ih hon.next (by omega)).mono ?_
          rintro r _ ⟨rfl, ⟨hend, rfl⟩ | ⟨c'', hon', hle, rfl⟩⟩
          · exact ⟨rfl, .inl ⟨by omega, rfl⟩⟩
          · have hplace : p + 1 + (o - 512) / 512 = p + o / 512 := by omega
            have hleft : filesize - 512 - 512 * ((o - 512) / 512) = filesize - 512 * (o / 512) := by omega
            rw [hplace] at hon'
            refine ⟨rfl, .inr ⟨c'', hon', by omega, ?_⟩⟩
            rw [hleft, hmod]
        · rw [if_neg hsize]
          exact Does.pure ⟨rfl, .inl ⟨.inr (by omega), rfl⟩⟩
      · rw [if_neg (by omega)]
        have hdiv : o / 512 = 0 := by omega
        refine Does.pure ⟨rfl, .inr ⟨c', ?_, by omega, ?_⟩⟩
        · rwa [hdiv]
        · rw [hdiv, Nat.mod_eq_of_lt (by omega)]
          rfl
    · refine (h.readTouch_end hfilled hl hc (by omega)).bind ?_
      exact Does.pure ⟨rfl, .inl ⟨.inl (by omega), rfl⟩⟩

theorem append_eq {buf : List Byte} {data : Block} {o n : Nat} (h : o + n ≤ 512) :
    append buf data o n = pure (buf ++ data.slice o n) := by
  rw [append]
  by_cases hn : n = 0
  · rw [if_pos hn, hn, Bytes.slice, List.range_zero, List.map_nil, List.append_nil]
  · rw [if_neg hn, if_pos (by omega), Int.toNat_natCast]

/-- A round of the reading loop takes what is asked for and left, or else the rest of the
block. -/
theorem readLoop_succ (ino fuel size o filesize index : Nat) (inode data : Block) (buf : List Byte) (ho : o ≤ 512) :
    readLoop ino (fuel + 1) size o filesize index inode data buf = readTouch ino index inode >>= fun at? =>
      match at? with
      | none => pure buf
      | some (index, inode) => safeGet (inode.direct index) data ino >>= fun r =>
        if min size filesize ≤ 512 - o then pure (buf ++ r.2.slice o (min size filesize))
        else readLoop ino fuel (size - (512 - o)) (0 : Nat) (filesize - (512 - o)) (index + 1) inode r.2
          (buf ++ r.2.slice o (512 - o)) := by
  rw [readLoop]
  refine bind_congr fun at? => ?_
  cases at? with
  | none => rfl
  | some x =>
    obtain ⟨index, inode⟩ := x
    dsimp only
    refine bind_congr fun r => ?_
    have hroom : (512 - (o : Int)).toNat = 512 - o := by omega
    have hrest : append buf r.2 o (512 - o) = pure (buf ++ r.2.slice o (512 - o)) := append_eq (by omega)
    rw [hroom]
    by_cases hsize : size ≤ filesize
    · rw [if_pos hsize, Nat.min_eq_left hsize]
      by_cases hle : size ≤ 512 - o
      · rw [if_pos hle, if_pos hle, append_eq (by omega)]
      · rw [if_neg hle, if_neg hle, hrest]
        rfl
    · rw [if_neg hsize, Nat.min_eq_right (by omega)]
      by_cases hle : filesize ≤ 512 - o
      · rw [if_pos hle, if_pos hle, append_eq (by omega)]
      · rw [if_neg hle, if_neg hle, hrest]
        rfl

/-- **The reading loop** takes the bytes from the cursor on. -/
theorem FileAt.readLoop {fuel size o filesize : Nat} {data : Block} {buf : List Byte} (h : FileAt v ino ns)
    (hfilled : Filled ns) (hl : Locks H ino v ns) (hc : Pos v ns c p) (ho : o ≤ 512)
    (hfuel : (itemsOf ns).length < p + fuel) :
    Gives H v (readLoop ino fuel size o filesize c.index c.inode data buf)
      (buf ++ ((bytesOf v (itemsOf ns)).drop (512 * p + o)).take (min size filesize)) v := by
  induction fuel generalizing p c size o filesize data buf with
  | zero =>
    have hle := hc.length_le hfilled
    omega
  | succ fuel ih =>
    rw [readLoop_succ _ _ _ _ _ _ _ _ _ ho]
    by_cases hp : p < (itemsOf ns).length
    · obtain ⟨c', hon, htouch⟩ := h.readTouch_in hfilled hl hc hp
      have hitem := hon.item h.chained hfilled
      refine htouch.bind ((h.safeGet hl (List.mem_append_right _ (List.mem_of_getElem? hitem))).bind ?_)
      rw [drop_bytesOf hitem ho]
      by_cases hle : min size filesize ≤ 512 - o
      · rw [if_pos hle, List.take_append_of_le_length (by rw [Bytes.length_slice]; exact hle), take_slice _ hle]
        exact Gives.pure _
      · rw [if_neg hle]
        have hrest : min (size - (512 - o)) (filesize - (512 - o)) = min size filesize - (512 - o) := by omega
        have hgoes := @ih _ _ (size - (512 - o)) 0 (filesize - (512 - o)) (v.block (c'.inode.direct c'.index))
          (buf ++ (v.block (c'.inode.direct c'.index)).slice o (512 - o)) hon.next (by omega) (by omega)
        rw [hrest, List.append_assoc] at hgoes
        rw [List.take_append, Bytes.length_slice, List.take_of_length_le (by rw [Bytes.length_slice]; omega)]
        exact hgoes
    · refine (h.readTouch_end hfilled hl hc (by omega)).bind ?_
      rw [List.drop_eq_nil_of_le (by rw [length_bytesOf]; omega), List.take_nil, List.append_nil]
      exact Gives.pure _

/-- **What `inner_read` returns**: the bytes from the offset on, as many as it was asked for or
as the file has from the start of the block of the offset on. It writes the time of the
access. -/
theorem FileAt.innerRead {size o : Nat} (h : FileAt v ino ns) (hfilled : Filled ns) (hl : Locks H ino v ns)
    (hsize : 0 < size) :
    Does H v (innerRead ino size o) fun r v' => r = (.ok, ((bytesOf v (itemsOf ns)).drop o).take
      (min size ((v.block ino).size - 512 * (o / 512)))) ∧ ∃ now, v' = v.write ino ((v.block ino).setAtime now) := by
  have hino : ino ∈ (Obj.file ns).blocks := Obj.mem_blocks_of_node h.head_mem
  rw [Fs.innerRead, if_neg (Nat.ne_of_gt hsize)]
  refine Does.bind (Does.uninit fun buf => (h.safeGet hl hino).bind ?_)
  dsimp only
  rw [if_neg fun he => by cases he]
  refine Does.bind (Does.time fun now => ?_)
  refine (Gives.safePut hl.held.offBitmap (h.has ino hino) (.inl rfl)).bind ?_
  rw [if_neg fun hne => hne rfl]
  -- The inode is written, and the file is where it was.
  obtain ⟨v₁, hv₁⟩ : ∃ v₁, v₁ = v.write ino ((v.block ino).setAtime now) := ⟨_, rfl⟩
  have h₁ : FileAt v₁ ino ns := hv₁ ▸ h.retouch (Block.links_setAtime ..)
  have hl₁ : Locks H ino v₁ ns := hv₁ ▸ ⟨hl.held, hl.own⟩
  have hbytes : bytesOf v₁ (itemsOf ns) = bytesOf v (itemsOf ns) := by
    refine bytesOf_congr fun b hb => ?_
    rw [hv₁]
    exact Vol.write_block_ne fun e => (List.nodup_append.mp h.nodup).2.2 ino h.head_mem b hb e.symm
  have hstart : Pos v₁ ns ⟨ino, 0, (v.block ino).setAtime now⟩ 0 := by
    have hhead := h.head
    cases ns with
    | nil => cases hhead
    | cons x rest =>
      obtain ⟨n, ds⟩ := x
      obtain rfl : n = ino := Option.some.inj hhead
      refine ⟨[], n, ds, rest, rfl, rfl, ?_, Nat.zero_le _, rfl⟩
      rw [hv₁, Vol.write_block_self]
  rw [← hv₁, ← hbytes, Block.size_setAtime]
  refine Does.bind ((h₁.readSeek hfilled hl₁ hstart (by rw [Nat.zero_add]; exact h.length_lt)).mono ?_)
  rintro _ _ ⟨rfl, ⟨hend, rfl⟩ | ⟨c, hon, hle, rfl⟩⟩
  · refine Does.pure ⟨?_, now, hv₁⟩
    congr 1
    rw [eq_comm, List.take_eq_nil_iff, List.drop_eq_nil_iff, length_bytesOf]
    omega
  · dsimp only
    refine Does.bind (Does.uninit fun data => ?_)
    have hfuel : (itemsOf ns).length < 0 + o / 512 + loopFuel := by
      have hlt := h.length_lt
      omega
    refine (h₁.readLoop hfilled hl₁ hon.pos (Nat.le_of_lt (Nat.mod_lt o (by decide))) hfuel).bind
      (Does.pure ⟨?_, now, hv₁⟩)
    rw [Nat.zero_add, Nat.div_add_mod, List.nil_append]

end

/-- The bytes that are read, and those of the file from the offset on, are as many as each other
just where the offset does not make the loop read past the end. -/
theorem read_count_iff {size o filesize blocks : Nat} (hlen : filesize ≤ 512 * blocks) (hsize : 0 < size) :
    min (min size (filesize - 512 * (o / 512))) (512 * blocks - o) =
      min (min size (filesize - o)) (512 * blocks - o) ↔
    o % 512 = 0 ∨ o + size ≤ filesize ∨ filesize ≤ 512 * (o / 512) ∨ filesize = 512 * blocks := by
  omega

/-- **`inner_read` returns the bytes of the file** just where the offset is at the start of a
block, or the bytes asked for are all there, or the file ends before the block of the
offset, or at the end of its last block. Otherwise it returns bytes from behind the end. -/
theorem inner_read_slice {w : World} {ino size o : Nat} {ns : Nodes Nat} (h : FileAt w.vol ino ns)
    (hfilled : Filled ns) (hl : Locks w.held ino w.vol ns) (hlen : (w.disk ino).size ≤ 512 * (itemsOf ns).length)
    (hsize : 0 < size) :
    (∃ w', Prog.run World.answer (innerRead ino size o) w =
      some ((.ok, ((content w.vol ino (nodesOf ns)).drop o).take size), w')) ↔
    o % 512 = 0 ∨ o + size ≤ (w.disk ino).size ∨ (w.disk ino).size ≤ 512 * (o / 512) ∨
      (w.disk ino).size = 512 * (itemsOf ns).length := by
  have hblock : w.vol.block ino = w.disk ino := if_pos (h.has ino (Obj.mem_blocks_of_node h.head_mem)).data
  obtain ⟨r, w', hrun, -, rfl, -⟩ := h.innerRead hfilled hl hsize w rfl rfl
  rw [hrun, h.content, hblock, List.drop_take, List.take_take, ← read_count_iff hlen hsize]
  rw [← length_bytesOf w.vol (itemsOf ns), ← List.length_drop, ← List.take_eq_take_iff]
  constructor
  · rintro ⟨w'', heq⟩
    exact congrArg (fun x => (x.map (·.1.2)).getD []) heq
  · intro heq
    rw [heq]
    exact ⟨w', rfl⟩

theorem OneFile.fileAt {w : World} {blocks : Nat} (h : OneFile w blocks) (hready : Ready w) :
    w.held = [] ∧ ∃ ns, FileAt w.vol 2 ns ∧ Filled ns ∧ nodesOf ns = [2] ∧ (itemsOf ns).length = blocks := by
  obtain ⟨hw, fs, hr⟩ := hready
  obtain ⟨ns, ho⟩ := hr.isFile h.isFile
  have hnodes : nodesOf ns = [2] := (hr.chain_self ho).unique (.last h.2.2.2.2.1)
  refine ⟨hw, ns, hr.laid.fileAt ho, (hr.laid.shows ho).2.2.2, hnodes, ?_⟩
  rw [← hr.blockCount_eq ho, hnodes, blockCount, List.map_singleton, List.sum_singleton, h.2.2.2.2.2]

/-- More is asked for than the file has, from its start on. -/
theorem inner_read_slice_start : ∃ w w', OneFile w 1 ∧ content w.vol 2 [2] = [98, 99] ∧
    Prog.run World.answer (innerRead 2 5 0) w = some ((.ok, [98, 99]), w') := by
  obtain ⟨w₀, hw₀, hbare, w₁, hs₁, hone, w₂, hs₂, htwo, hcontent, hsize⟩ :
      ∃ w₀, mount still = some w₀ ∧ Bare w₀ ∧ ∃ w₁, Op.step w₀ (.create 1 [97]) = some w₁ ∧ OneFile w₁ 0 ∧
      ∃ w₂, Op.step w₁ (.write 2 [98, 99] 2 0) = some w₂ ∧ OneFile w₂ 1 ∧ content w₂.vol 2 [2] = [98, 99] ∧
      (w₂.disk 2).size = 2 := by decide +kernel
  obtain ⟨w₀', hw₀', htight⟩ := tight_mount (fun _ => 0) fun _ => Bytes.zero
  obtain rfl : w₀' = w₀ := Option.some.inj (hw₀'.symm.trans hw₀)
  have hready : Ready w₂ := (htight.ready.step (hbare.ok_create (by decide) (by decide)) hs₁).step
    (hone.ok_write (by decide) (by decide) (by decide)) hs₂
  obtain ⟨hheld, ns, hfile, hfilled, hnodes, hitems⟩ := htwo.fileAt hready
  have hl : Locks w₂.held 2 w₂.vol ns := by
    rw [hheld]
    exact ⟨fun _ h => absurd h List.not_mem_nil, fun _ h => absurd h List.not_mem_nil⟩
  obtain ⟨w₃, hread⟩ := (inner_read_slice (o := 0) hfile hfilled hl (by rw [hsize, hitems]; decide)
    (show 0 < 5 by decide)).mpr (.inl rfl)
  rw [hnodes, hcontent] at hread
  exact ⟨w₂, w₃, htwo, hcontent, hread⟩

/-- **`inner_read` reads past the end.** The file has ten bytes and is asked for ten from the
fifth on: it returns ten, of which it has five. -/
theorem read_past_end : ∃ w w', OneFile w 1 ∧ content w.vol 2 [2] = [1, 2, 3, 4, 5, 6, 7, 8, 9, 10] ∧
    Prog.run World.answer (innerRead 2 10 5) w = some ((.ok, [6, 7, 8, 9, 10, 0, 0, 0, 0, 0]), w') ∧
    [6, 7, 8, 9, 10, 0, 0, 0, 0, 0] ≠ ((content w.vol 2 [2]).drop 5).take 10 := by
  obtain ⟨w₀, -, w₁, -, w₂, -, ⟨htwo, hcontent⟩, ⟨r, w₃⟩, hread, rfl⟩ :
      ∃ w₀, mount still = some w₀ ∧ ∃ w₁, Op.step w₀ (.create 1 [97]) = some w₁ ∧
      ∃ w₂, Op.step w₁ (.write 2 [1, 2, 3, 4, 5, 6, 7, 8, 9, 10] 10 0) = some w₂ ∧ (OneFile w₂ 1 ∧
      content w₂.vol 2 [2] = [1, 2, 3, 4, 5, 6, 7, 8, 9, 10]) ∧
      ∃ r, Prog.run World.answer (innerRead 2 10 5) w₂ = some r ∧ r.1 = (.ok, [6, 7, 8, 9, 10, 0, 0, 0, 0, 0]) := by
    decide +kernel
  refine ⟨w₂, w₃, htwo, hcontent, hread, ?_⟩
  rw [hcontent]
  decide

end Yfs.Fs

import Mathlib.Data.BitVec
import Yfs.Fs.Session

/-! What a file contains.

The content of a file is read off the volume: the blocks that its nodes list, one behind
the other, cut at the size of the inode. A file *contains* a sparse sequence when the
content is that sequence, the blocks below the size are there, and the blocks hold zeros
past it. A new file contains nothing, and `write` does to what a file contains what it
should (`writes_sparse`). `setattr` does so in the content it leaves, where the first node
need not gain a block for it; but the bytes it cuts off stay in the blocks, and a file
still contains something only where these were zeros (`sessions_resize`). -/
namespace Yfs.Fs
open Yfs.Base
open Function (update update_comm update_eq_self update_eq_self_iff update_idem update_of_ne update_self)

/-! ### Content -/

def Block.directs (b : Block) : List Nat := ((List.range directBlockNum).map b.direct).filter (· ≠ 0)

/-- The content of the file `ino` with these nodes. -/
def content (v : Vol) (ino : Nat) (nodes : List Nat) : List Byte :=
  ((nodes.flatMap fun n => (v.block n).directs).flatMap fun b => (v.block b).slice 0 512).take (v.block ino).size

section
variable {v v' : Vol} {fs : Tree} {ino : Nat} {ns : Nodes Nat} {bs bs' : List Nat}

theorem FileShows.directs {b : Block} {ds : List Nat} (h : FileShows b ds) (h0 : ∀ d ∈ ds, d ≠ 0) : b.directs = ds := by
  have hfits := h.fits
  have hall : (List.range directBlockNum).map b.direct = ds ++ List.replicate (16 - ds.length) 0 := by
    apply List.ext_getElem
    · simp only [List.length_map, List.length_range, List.length_append, List.length_replicate]
      unfold directBlockNum
      omega
    · intro i hi _
      have hi : i < 16 := by simpa [directBlockNum] using hi
      rw [List.getElem_map, List.getElem_range, h.direct i hi, List.getD_eq_getElem?_getD, List.getElem_append]
      split
      · next hlt => rw [List.getElem?_eq_getElem hlt, Option.getD_some]
      · next hge => rw [List.getElem?_eq_none (Nat.le_of_not_lt hge), Option.getD_none, List.getElem_replicate]
  rw [Block.directs, hall, List.filter_append, List.filter_eq_self.mpr fun d hd => decide_eq_true (h0 d hd)]
  simp

theorem Chained.directs (h : Chained v FileShows ns) (h0 : ∀ d ∈ itemsOf ns, d ≠ 0) :
    ((nodesOf ns).flatMap fun n => (v.block n).directs) = itemsOf ns := by
  induction ns with
  | nil => rfl
  | cons x rest ih =>
    obtain ⟨n, ds⟩ := x
    obtain ⟨hshow, -, hrest⟩ := h
    rw [itemsOf_cons] at h0
    rw [nodesOf_cons, List.flatMap_cons, itemsOf_cons, hshow.directs fun d hd => h0 d (List.mem_append_left _ hd),
      ih hrest fun d hd => h0 d (List.mem_append_right _ hd)]

theorem byteAt_cons (v : Vol) (b : Nat) (bs : List Nat) (k : Nat) :
    byteAt v (b :: bs) k = if k < 512 then (v.block b).byte k else byteAt v bs (k - 512) := by
  unfold byteAt
  split
  · next hk => rw [Nat.div_eq_of_lt hk, Nat.mod_eq_of_lt hk]; rfl
  · next hk =>
    obtain ⟨j, rfl⟩ := Nat.exists_eq_add_of_le (Nat.le_of_not_lt hk)
    rw [Nat.add_div_left _ (by decide), Nat.add_mod_left, Nat.add_sub_cancel_left]
    rfl

theorem flatMap_slice (v : Vol) (bs : List Nat) :
    (bs.flatMap fun b => (v.block b).slice 0 512) = (List.range (512 * bs.length)).map (byteAt v bs) := by
  induction bs with
  | nil => rfl
  | cons b bs ih =>
    rw [List.flatMap_cons, ih, List.length_cons, Nat.mul_succ, Nat.add_comm, List.range_add, List.map_append,
      List.map_map, Bytes.slice]
    refine congrArg₂ (· ++ ·) ?_ ?_
    · apply List.map_congr_left
      intro k hk
      rw [byteAt_cons, if_pos (List.mem_range.mp hk), Nat.zero_add]
    · apply List.map_congr_left
      intro k _
      rw [Function.comp_apply, byteAt_cons, if_neg (Nat.not_lt.mpr (Nat.le_add_right ..)), Nat.add_sub_cancel_left]

theorem byteAt_past {k : Nat} (h : 512 * bs.length ≤ k) : byteAt v bs k = 0 := by
  rw [byteAt, List.getElem?_eq_none ((Nat.le_div_iff_mul_le (by decide)).mpr (by omega))]
  rfl

/-- The first of some blocks hold what they held among all of them. -/
theorem byteAt_of_extends (h : bs <+: bs') (k : Nat) :
    byteAt v bs k = if k < 512 * bs.length then byteAt v bs' k else 0 := by
  split
  · next hk =>
    obtain ⟨rest, rfl⟩ := h
    unfold byteAt
    rw [List.getElem?_append_left (Nat.div_lt_of_lt_mul hk)]
  · next hk => exact byteAt_past (Nat.le_of_not_lt hk)

theorem Rep.content_take (h : Rep v fs) (ho : fs ino = some (.file ns)) : content v ino (nodesOf ns) =
    ((List.range (512 * (itemsOf ns).length)).map (byteAt v (itemsOf ns))).take (v.block ino).size := by
  have hchain := (h.laid.shows ho).2.2.1
  rw [content, hchain.directs fun d hd => h.laid.ne_zero ho (List.mem_append_right _ hd), flatMap_slice]

theorem Rep.content_length_le (h : Rep v fs) (ho : fs ino = some (.file ns)) :
    (content v ino (nodesOf ns)).length ≤ 512 * (itemsOf ns).length := by
  rw [h.content_take ho, List.length_take, List.length_map, List.length_range]
  exact Nat.min_le_right ..

theorem Rep.content_eq (h : Rep v fs) (ho : fs ino = some (.file ns))
    (hfilled : (v.block ino).size ≤ 512 * (itemsOf ns).length) :
    content v ino (nodesOf ns) = (List.range (v.block ino).size).map (byteAt v (itemsOf ns)) := by
  rw [h.content_take ho, ← List.map_take, List.take_range, Nat.min_eq_left hfilled]

/-! ### Files and sparse sequences -/

/-- The file contains this sequence: its blocks hold it and zeros behind it. -/
structure Contains (v : Vol) (ino : Nat) (ns : Nodes Nat) (c : Sparse Byte) : Prop where
  size : (v.block ino).size = c.size
  bytes : byteAt v (itemsOf ns) = c.get
  filled : c.size ≤ 512 * (itemsOf ns).length

namespace Contains
variable {c : Sparse Byte}

theorem content (hc : Contains v ino ns c) (h : Rep v fs) (ho : fs ino = some (.file ns)) :
    content v ino (nodesOf ns) = c.toList := by
  rw [h.content_eq ho (by rw [hc.size]; exact hc.filled), hc.size, hc.bytes]
  rfl

theorem congr (hc : Contains v ino ns c) (hino : ino ∈ nodesOf ns)
    (hv : ∀ b ∈ (Obj.file ns).blocks, v'.block b = v.block b) : Contains v' ino ns c where
  size := by rw [hv ino (Obj.mem_blocks_of_node hino), hc.size]
  bytes := by
    rw [← hc.bytes]
    exact byteAt_congr fun b hb => hv b (List.mem_append_right _ hb)
  filled := hc.filled

theorem retouch {d : Block} (hc : Contains v ino ns c) (h : Rep v fs) (ho : fs ino = some (.file ns))
    (hd : d.size = (v.block ino).size) : Contains (v.write ino d) ino ns c where
  size := by rw [Vol.write_block_self, hd, hc.size]
  bytes := by
    rw [← hc.bytes]
    apply byteAt_congr
    intro b hb
    exact Vol.write_block_ne fun e => (List.nodup_append.mp (h.laid.nodup ho)).2.2 ino (h.laid.shows ho).head_mem b hb
      e.symm
  filled := hc.filled

/-- No file is so large that its size would be negative as a signed word. -/
theorem size_lt (hc : Contains v ino ns c) (h : Rep v fs) (ho : fs ino = some (.file ns)) : c.size < 2 ^ 40 := by
  have hlen := (h.laid.fileAt ho).length_le
  have hfilled := hc.filled
  have hvol : volSize = 782336 := rfl
  omega

theorem zeroFrom (hc : Contains v ino ns c) (h : Rep v fs) (ho : fs ino = some (.file ns)) :
    ZeroFrom (byteAt v (itemsOf ns)) 0 (toSigned (v.block ino).size) := by
  intro k _ hk
  have hlt := hc.size_lt h ho
  rw [hc.size, toSigned, if_pos (by omega)] at hk
  rw [hc.bytes]
  exact c.zero_past k (by omega)

theorem new {n : Nat} (hsize : (v.block ino).size = 0) : Contains v ino [(n, [])] .empty :=
  ⟨hsize, rfl, Nat.zero_le _⟩

end Contains

/-- What a write has stored is what the file contains. -/
theorem Contains.stored {c : Sparse Byte} {buf : List Byte} {size : Nat} {off : Int} {v' : Vol}
    {ns' : Nodes Nat} {g : Nat → Byte} (hc : Contains v ino ns c) (h : Rep v fs)
    (ho : fs ino = some (.file ns)) (hoff : 0 ≤ off) (hbuf : size ≤ buf.length)
    (hfree : taken ns.length (itemsOf ns).length (lastBlock off size) ≤ v.free)
    (hs : Stores fs ino v ns v' ns' (newFilesize (v.block ino).size size off) g)
    (hitems : (itemsOf ns').length = max (itemsOf ns).length (lastBlock off size + 1))
    (hzero : ZeroFrom (byteAt v (itemsOf ns)) 0 (toSigned (v.block ino).size) →
      g = overlay (byteAt v (itemsOf ns)) off.toNat (buf.take size)) :
    Contains v' ino ns' (c.write off.toNat (buf.take size)) := by
  have hg := hzero (hc.zeroFrom h ho)
  have hlast : off.toNat + size ≤ 512 * (lastBlock off size + 1) := by
    unfold lastBlock
    omega
  have hnew : newFilesize (v.block ino).size size off = max c.size (off.toNat + size) := by
    have hlt := (h.laid.fileAt ho).lt_of_taken hfree
    have hsize := hc.size_lt h ho
    have hvol : volSize = 782336 := rfl
    unfold newFilesize
    rw [hc.size]
    omega
  constructor
  · rw [hs.size, hnew]
    change _ = max c.size (off.toNat + (buf.take size).length)
    rw [List.length_take, Nat.min_eq_left hbuf]
  · rw [hs.bytes, hg, hc.bytes]
    rfl
  · have hfilled := hc.filled
    change max c.size (off.toNat + (buf.take size).length) ≤ _
    rw [List.length_take, Nat.min_eq_left hbuf, hitems]
    omega

/-- **Writing to what a file contains.** -/
theorem Contains.write {c : Sparse Byte} {H : List Nat} {buf : List Byte} {size : Nat} {off : Int}
    (hc : Contains v ino ns c) (h : Rep v fs) (ho : fs ino = some (.file ns)) (hl : Locks H ino v ns) (hoff : 0 ≤ off)
    (hbuf : size ≤ buf.length) (hfree : taken ns.length (itemsOf ns).length (lastBlock off size) ≤ v.free) :
    Does H v (innerWrite ino buf size off) fun r v' => r = (.ok, size) ∧ ∃ ns' sz g, Stores fs ino v ns v' ns' sz g ∧
      Contains v' ino ns' (c.write off.toNat (buf.take size)) ∧
      (itemsOf ns').length = max (itemsOf ns).length (lastBlock off size + 1) ∧
      ns'.length = max ns.length (lastBlock off size / 16 + 1) := by
  refine (innerWrite_stores h ho hl (.inr hoff) hbuf hfree).mono ?_
  rintro r v' ⟨hr, ns', g, hs, hitems, hlen, hzero⟩
  exact ⟨hr, ns', _, g, hs, hc.stored h ho hoff hbuf hfree hs hitems hzero, hitems, hlen⟩

/-! ### Sequences of writes -/

/-- The arguments of a `write` to a file. -/
structure WriteCall where
  buf : List Byte
  size : Nat
  off : Int

def WriteCall.apply (c : Sparse Byte) (w : WriteCall) : Sparse Byte := c.write w.off.toNat (w.buf.take w.size)

/-- The calls of a sequence, and what each of them returns. -/
def writeAll (ino : Nat) : List WriteCall → Code (List (Status × Nat))
  | [] => pure []
  | w :: ws => do
    let r ← write ino w.buf w.size w.off
    let rs ← writeAll ino ws
    pure (r :: rs)

theorem writeAll_does {c : Sparse Byte} {ws : List WriteCall} (hc : Contains v ino ns c) (h : Rep v fs)
    (ho : fs ino = some (.file ns)) (hws : ∀ w ∈ ws, 0 ≤ w.off ∧ w.size ≤ w.buf.length)
    (hfree : ∀ w ∈ ws, taken ns.length (itemsOf ns).length (lastBlock w.off w.size) ≤ v.free) :
    Does [] v (writeAll ino ws) fun rs v' => rs = ws.map (fun w => (.ok, w.size)) ∧ ∃ ns' sz g,
      Stores fs ino v ns v' ns' sz g ∧ Contains v' ino ns' (ws.foldl WriteCall.apply c) := by
  induction ws generalizing v fs ns c with
  | nil => exact Does.pure ⟨rfl, ns, _, _, .refl h ho, hc⟩
  | cons w ws ih =>
    rw [List.forall_mem_cons] at hws hfree
    have hwrite := hc.write h ho (locks_self h ho) hws.1.1 hws.1.2 hfree.1
    refine Does.bind ((Does.withLock List.not_mem_nil hwrite).mono ?_)
    rintro _ v₁ ⟨rfl, ns₁, sz, g, hs, hc₁, hitems, hlen⟩
    -- What the first call took is there for the others, and what they need besides is free.
    have hfree₁ : ∀ w' ∈ ws, taken ns₁.length (itemsOf ns₁).length (lastBlock w'.off w'.size) ≤ v₁.free := by
      intro w' hw'
      have hneed := hfree.2 w' hw'
      have hcost := hs.cost
      by_cases hle : lastBlock w.off w.size ≤ lastBlock w'.off w'.size
      · exact taken_after hle hitems hlen hcost hneed
      · have hdiv : lastBlock w'.off w'.size / 16 ≤ lastBlock w.off w.size / 16 := Nat.div_le_div_right (by omega)
        unfold taken
        omega
    refine Does.bind ((ih hc₁ hs.rep (update_self ..) hws.2 hfree₁).mono ?_)
    rintro _ v₂ ⟨rfl, ns₂, sz₂, g₂, hs₂, hc₂⟩
    exact Does.pure ⟨rfl, ns₂, sz₂, g₂, hs.trans hs₂, hc₂⟩

end

section
variable {v : Vol} {fs : Tree} {p : Nat} {name : List Byte} {ns : Nodes Entry}

/-- **Writes make a sparse sequence of bytes.** On a file that was just made, with enough
blocks free, any calls of `write` leave the content that they should, return `size` as it
was, and leave all blocks alone that are not the file's; what it has besides its inode was
not in use. -/
theorem writes_sparse (h : Rep v fs) (ho : fs p = some (.dir ns)) (hlen : name.length ≤ 63)
    (hno : ∀ e ∈ itemsOf ns, e.1 ≠ cStr name) (hroom : roomCost ns + 1 ≤ v.free) (ws : List WriteCall)
    (hws : ∀ w ∈ ws, 0 ≤ w.off ∧ w.size ≤ w.buf.length)
    (hfree : ∀ w ∈ ws, roomCost ns + 1 + taken 1 0 (lastBlock w.off w.size) ≤ v.free) :
    Does [] v (create p name 0) fun r v₁ => r.1 = .ok ∧
      Does [] v₁ (writeAll r.2 ws) fun rs v₂ => rs = ws.map (fun w => (.ok, w.size)) ∧ ∃ nsf ns',
        Rep v₂ (update (update fs r.2 (some (.file nsf))) p (some (.dir ns'))) ∧
        content v₂ r.2 (nodesOf nsf) = (ws.foldl WriteCall.apply .empty).toList ∧
        (v₂.block r.2).size = (ws.foldl WriteCall.apply .empty).size ∧
        (∀ b ∈ (Obj.file nsf).blocks, b = r.2 ∨ v₁.used b = false) ∧
        ∀ b ∉ (Obj.file nsf).blocks, v₂.block b = v₁.block b ∧ v₂.used b = v₁.used b := by
  refine (create_does h ho hlen hno hroom).mono ?_
  rintro _ v₁ ⟨i, ns', rfl, hm⟩
  have hip := hm.ne (h.used_dir ho)
  have ho₁ : update (update fs i (some (Obj.file [(i, [])]))) p (some (.dir ns')) i =
      some (.file [(i, [])]) := by
    rw [update_of_ne hip, update_self]
  have hfree₁ : ∀ w ∈ ws, taken 1 0 (lastBlock w.off w.size) ≤ v₁.free := by
    intro w hw
    have hneed := hfree w hw
    have hcost := hm.cost
    have hlength := hm.length
    omega
  refine ⟨rfl, (writeAll_does (.new hm.blank.size) hm.rep ho₁ hws hfree₁).mono ?_⟩
  rintro rs v₂ ⟨hrs, nsf, sz, g, hs, hc₂⟩
  have hrep := hs.rep
  rw [update_comm hip.symm, update_idem, update_comm hip] at hrep
  refine ⟨hrs, nsf, ns', ?_, hc₂.content hs.rep (update_self ..), hc₂.size, ?_, hs.frame⟩
  · rwa [update_comm hip]
  · intro b hb
    exact (hs.new b hb).imp_left List.mem_singleton.mp

/-- Two writes to a new file, the first of them behind its end. -/
theorem writes_sparse_two :
    Does [] (volOf (format still.disk)) (create 1 [97] 0) fun r v₁ => r.1 = .ok ∧
      Does [] v₁ (writeAll r.2 [⟨[98, 99], 2, 3⟩, ⟨[100], 1, 0⟩]) fun rs v₂ => rs = [(.ok, 2), (.ok, 1)] ∧
        ∃ nsf : Nodes Nat, content v₂ r.2 (nodesOf nsf) = [100, 0, 0, 98, 99] := by
  have hfree : 100 ≤ (volOf (format still.disk)).free := format_blank_free
  refine (@writes_sparse _ rootOnly 1 [97] [(1, [])] rep_format rfl (by decide) nofun
    (Nat.le_trans (by decide) hfree) [⟨[98, 99], 2, 3⟩, ⟨[100], 1, 0⟩] (by decide) ?_).mono ?_
  · intro w hw
    refine Nat.le_trans ?_ hfree
    revert w
    decide
  · rintro r v₁ ⟨hr, hwrites⟩
    refine ⟨hr, hwrites.mono ?_⟩
    rintro rs v₂ ⟨hrs, nsf, ns', -, hcontent, -⟩
    exact ⟨hrs, nsf, hcontent⟩

end

/-! ### Sessions of files -/

section
variable {v v' : Vol} {fs : Tree} {ino : Nat} {ns : Nodes Nat} {c : Sparse Byte}

theorem lastBlock_toSigned {s : Nat} (hs : s < 2 ^ 63) : lastBlock (toSigned s) 0 = s / 512 := by
  rw [lastBlock, toSigned, if_pos hs]
  omega

theorem Rep.size_lt_of_taken {s : Nat} (h : Rep v fs) (ho : fs ino = some (.file ns))
    (hfree : taken ns.length (itemsOf ns).length (s / 512) ≤ v.free) : s < 2 ^ 63 := by
  have hlt := (h.laid.fileAt ho).lt_of_taken hfree
  have hvol : volSize = 782336 := rfl
  omega

/-- **What `setattr` leaves.** The file has the size it was asked for, and its blocks hold the
bytes that they held: also those that were cut off. All blocks below the size are there
where the first node need not gain one for it. -/
theorem Contains.setattr {info : FileInfo} (hc : Contains v ino ns c) (h : Rep v fs) (ho : fs ino = some (.file ns))
    (hs : info.size < 2 ^ 63) (hfree : taken ns.length (itemsOf ns).length (info.size / 512) ≤ v.free) :
    Does [] v (setattr ino true info) fun r v' => r = .ok ∧ ∃ ns',
      Rep v' (update fs ino (some (.file ns'))) ∧ (v'.block ino).size = info.size ∧
      byteAt v' (itemsOf ns') = c.get ∧
      (info.size ≤ 512 * (itemsOf ns').length ↔ 1 < ns.length ∨ info.size ≤ 512 * (itemsOf ns).length) ∧
      (v'.block ino).mode = (v.block ino).mode ∧
      ∀ b, v.used b = true → b ∉ (Obj.file ns).blocks → v'.block b = v.block b := by
  rw [← lastBlock_toSigned hs] at hfree
  refine (setattr_size h ho hfree).mono ?_
  rintro r _ ⟨hr, v₁, ns₁, sz, g, rfl, hst, hitems, hlen, hzero⟩
  rw [lastBlock_toSigned hs] at hitems
  have hrep := hst.toGrows.write_back h ho (d := (v.block ino).setInfo info) (by simp [Block.setInfo])
    (by simp [Block.setInfo])
  have hg : g = c.get := (hzero (hc.zeroFrom h ho)).trans hc.bytes
  have hself := update_self ino (some (Obj.file (if 1 < ns.length then ns₁ else ns))) fs
  -- The inode is not among the blocks that hold the bytes.
  have hdata : byteAt (v₁.write ino ((v.block ino).setInfo info)) (itemsOf (if 1 < ns.length then ns₁ else ns)) =
      byteAt v₁ (itemsOf (if 1 < ns.length then ns₁ else ns)) := by
    apply byteAt_congr
    intro b hb
    exact Vol.write_block_ne fun e => (List.nodup_append.mp (hrep.laid.nodup hself)).2.2 ino
      (hrep.laid.shows hself).head_mem b hb e.symm
  refine ⟨hr, _, hrep, ?_, ?_, ?_, by simp [Vol.write_block_self, Block.setInfo], ?_⟩
  · rw [Vol.write_block_self, Block.setInfo, Block.size_setSize _ _ (by omega)]
  · rw [hdata]
    split
    · rw [hst.bytes, hg]
    · next hone =>
      have hext : itemsOf ns <+: itemsOf ns₁ := by
        obtain ⟨n, ds, rest, ds₁, rest₁, rfl, rfl, hds, -⟩ := hst.head
        rw [List.length_cons] at hone
        obtain rfl : rest = [] := List.eq_nil_of_length_eq_zero (by omega)
        rw [itemsOf_cons, itemsOf_nil, List.append_nil, itemsOf_cons]
        exact hds.trans (List.prefix_append ..)
      funext k
      rw [byteAt_of_extends hext, hst.bytes, hg, ← hc.bytes]
      split
      · rfl
      · next hk => exact (byteAt_past (Nat.le_of_not_lt hk)).symm
  · split
    · next hmore =>
      rw [hitems]
      exact iff_of_true (by omega) (.inl hmore)
    · next hone => exact (or_iff_right hone).symm
  · intro b hb hnot
    have hbi : b ≠ ino := fun e => hnot (e ▸ h.laid.head_mem ho)
    rw [Vol.write_block_ne hbi]
    exact hst.block_eq hb hnot

/-- **Truncating and extending what a file contains.** The content is what it should be just
where the first node need not gain a block, and where only zeros are cut off the file
contains it. -/
theorem Contains.resize {info : FileInfo} (hc : Contains v ino ns c) (h : Rep v fs) (ho : fs ino = some (.file ns))
    (hs : info.size < 2 ^ 63) (hfree : taken ns.length (itemsOf ns).length (info.size / 512) ≤ v.free) :
    Does [] v (Fs.setattr ino true info) fun r v' => r = .ok ∧ ∃ ns',
      Rep v' (update fs ino (some (.file ns'))) ∧ (v'.block ino).size = info.size ∧
      (Fs.content v' ino (nodesOf ns') = (c.resize info.size).toList ↔
        1 < ns.length ∨ info.size ≤ 512 * (itemsOf ns).length) ∧
      ((1 < ns.length ∨ info.size ≤ 512 * (itemsOf ns).length) → (∀ k, info.size ≤ k → c.get k = 0) →
        Contains v' ino ns' (c.resize info.size)) ∧ (v'.block ino).mode = (v.block ino).mode ∧
      ∀ b, v.used b = true → b ∉ (Obj.file ns).blocks → v'.block b = v.block b := by
  refine (hc.setattr h ho hs hfree).mono ?_
  rintro r v' ⟨hr, ns', hrep, hsize, hbytes, hfilled, hrest⟩
  have hself := update_self ino (some (Obj.file ns')) fs
  refine ⟨hr, ns', hrep, hsize, ?_, fun hkeep hzero => ⟨hsize, ?_, hfilled.mpr hkeep⟩, hrest⟩
  · rw [← hfilled]
    constructor
    · intro heq
      have hle := hrep.content_length_le hself
      rwa [heq, Sparse.length_toList] at hle
    · intro hle
      rw [hrep.content_eq hself (by rw [hsize]; exact hle), hsize, hbytes]
      apply List.map_congr_left
      intro k hk
      exact (if_pos (List.mem_range.mp hk)).symm
  · rw [hbytes]
    funext k
    change c.get k = if k < info.size then c.get k else 0
    split
    · rfl
    · next hk => exact hzero k (Nat.le_of_not_lt hk)

end

abbrev Files := Nat → Sparse Byte

/-- What a call should do to the files; `r` is the inode number it returns. -/
def Op.apply (r : Nat) (c : Files) : Op → Files
  | .create _ _ => update c r .empty
  | .write ino buf size off => update c ino ((c ino).write off.toNat (buf.take size))
  | .setattr ino true info => update c ino ((c ino).resize info.size)
  | _ => c

/-- The call, with a record of what the files should contain. -/
def Op.record (s : World × Files) (op : Op) : Option (World × Files) :=
  (Prog.run World.answer op.code s.1).map fun x => (x.2, op.apply x.1.2 s.2)

/-- The condition under which `create`, `write` and `setattr` do to the files what they
should. A call of `setattr` with a size finds the block at the size free, does not make the
first node gain a block, and cuts off nothing but zeros. -/
def Op.resizes (w : World) : Op → Prop
  | .create parent name => (Op.create parent name).ok w
  | .write ino buf size off => 0 ≤ off ∧ (Op.write ino buf size off).ok w
  | .setattr ino false info => (Op.setattr ino false info).ok w
  | .setattr ino true info => IsFile w.disk ino ∧ ∀ nodes, Chain w.disk ino nodes →
      writeNeed w.disk nodes (info.size / 512) ≤ w.vol.free ∧
      (1 < nodes.length ∨ info.size ≤ 512 * blockCount w.disk nodes) ∧
      ∀ x ∈ (content w.vol ino nodes).drop info.size, x = 0
  | _ => False

def Filed (s : World × Files) : Prop :=
  s.1.held = [] ∧ ∃ fs, Rep s.1.vol fs ∧ ∀ ino ns, fs ino = some (.file ns) → Contains s.1.vol ino ns (s.2 ino)

section
variable {v v' : Vol} {fs : Tree} {p ino i : Nat} {c : Files}

/-- The other files contain what they did, where one has changed and the blocks of no other. -/
theorem contains_update {ns ns' : Nodes Nat} {x : Sparse Byte} (h : Rep v fs)
    (ho : fs ino = some (.file ns)) (hall : ∀ j nsj, fs j = some (.file nsj) → Contains v j nsj (c j))
    (hino : Contains v' ino ns' x)
    (hframe : ∀ b, v.used b = true → b ∉ (Obj.file ns).blocks → v'.block b = v.block b) (j : Nat)
    (nsj : Nodes Nat) (hj : update fs ino (some (.file ns')) j = some (.file nsj)) :
    Contains v' j nsj (update c ino x j) := by
  obtain ⟨rfl, ⟨⟩⟩ | ⟨hji, hj⟩ := update_eq_some.mp hj
  · rw [update_self]
    exact hino
  · rw [update_of_ne hji]
    refine (hall j nsj hj).congr (h.laid.shows hj).head_mem fun b hb => hframe b (h.laid.has hj hb).used fun hm => ?_
    exact hji (h.laid.apart hj ho hb hm)

theorem contains_create {ns ns' : Nodes Entry} (h : Rep v fs) (ho : fs p = some (.dir ns))
    (hall : ∀ j nsj, fs j = some (.file nsj) → Contains v j nsj (c j)) (hnew : Contains v' i [(i, [])] .empty)
    (hframe : ∀ b, v.used b = true → b ∉ nodesOf ns → v'.block b = v.block b ∧ v'.used b = true) (j : Nat)
    (nsj : Nodes Nat)
    (hj : update (update fs i (some (.file [(i, [])]))) p (some (.dir ns')) j = some (.file nsj)) :
    Contains v' j nsj (update c i .empty j) := by
  obtain ⟨-, ⟨⟩⟩ | ⟨hjp, hj⟩ := update_eq_some.mp hj
  obtain ⟨rfl, ⟨⟩⟩ | ⟨hji, hj⟩ := update_eq_some.mp hj
  · rw [update_self]
    exact hnew
  · rw [update_of_ne hji]
    refine (hall j nsj hj).congr (h.laid.shows hj).head_mem fun b hb =>
      (hframe b (h.laid.has hj hb).used fun hm => ?_).1
    exact hjp (h.laid.apart hj ho hb (Obj.mem_blocks_of_node hm))

end

/-- What a call does to the volume carries over to the record of a session. -/
theorem Filed.of_does {s s' : World × Files} {op : Op} (hw : s.1.held = [])
    (hdoes : Does [] s.1.vol op.code fun r v' => ∃ fs, Rep v' fs ∧
      ∀ ino ns, fs ino = some (.file ns) → Contains v' ino ns (op.apply r.2 s.2 ino))
    (hs : op.record s = some s') : Filed s' := by
  obtain ⟨r, w', hrun, hheld, hfiles⟩ := hdoes s.1 hw rfl
  rw [Op.record, hrun] at hs
  cases hs
  exact ⟨hheld, hfiles⟩

theorem Contains.zero_cut {v : Vol} {fs : Tree} {ino s : Nat} {ns : Nodes Nat} {c : Sparse Byte}
    (hc : Contains v ino ns c) (h : Rep v fs) (ho : fs ino = some (.file ns))
    (hcut : ∀ x ∈ (Fs.content v ino (nodesOf ns)).drop s, x = 0) (k : Nat) (hk : s ≤ k) : c.get k = 0 := by
  rw [hc.content h ho] at hcut
  by_cases hlt : k < c.size
  · refine hcut _ (List.mem_drop_iff_getElem.mpr ⟨k - s, ?_, ?_⟩)
    · rw [Sparse.length_toList]
      omega
    · simp [Sparse.toList, Nat.add_sub_cancel' hk]
  · exact c.zero_past k (Nat.le_of_not_lt hlt)

/-- A call under the condition does to the files what it should. -/
theorem Filed.step {s s' : World × Files} {op : Op} (h : Filed s) (hok : op.resizes s.1)
    (hs : op.record s = some s') : Filed s' := by
  obtain ⟨w, c⟩ := s
  obtain ⟨hw, fs, hr, hall⟩ := h
  refine Filed.of_does hw ?_ hs
  cases op with
  | mkdir parent name => exact hok.elim
  | symlink parent name link => exact hok.elim
  | unlink parent name => exact hok.elim
  | create parent name =>
    obtain ⟨hdir, hname, hfree⟩ := hok
    obtain ⟨ns, ho, hneed⟩ := hr.entry_room hdir 0 hfree
    refine (create_does hr ho hname.2.1 (hr.newName ho hname) hneed).mono ?_
    rintro _ v' ⟨i, ns', rfl, hm⟩
    exact ⟨_, hm.rep, contains_create hr ho hall (.new hm.blank.size) hm.frame⟩
  | write ino buf size off =>
    obtain ⟨hoff, hfile, hbuf, -, hfree⟩ := hok
    obtain ⟨ns, ho⟩ := hr.isFile hfile
    have hneed := hfree _ (hr.chain_self ho)
    rw [Obj.nodes, hr.writeNeed_eq ho] at hneed
    have hwrite := Does.withLock List.not_mem_nil ((hall ino ns ho).write hr ho (locks_self hr ho) hoff hbuf hneed)
    refine Does.bind (hwrite.mono ?_)
    rintro _ v' ⟨rfl, ns', sz, g, hst, hc, -⟩
    exact Does.pure ⟨_, hst.rep, contains_update hr ho hall hc fun b hb hnot => hst.block_eq hb hnot⟩
  | setattr ino toSet info =>
    cases toSet with
    | false =>
      obtain ⟨ns, ho⟩ := hr.isFile hok.1
      refine (setattr_times hr ho).bind (Does.pure ⟨fs, ?_, fun j nsj hj => ?_⟩)
      · exact hr.retouch_file ho (by simp) (by simpa using (hr.laid.shows ho).2.1)
      · have hc := (hall ino ns ho).retouch hr ho (d := ((((volOf w.disk).block ino).setAtime info.atime).setMtime
          info.mtime).setCtime info.ctime) (by simp; rfl)
        have hj' : update fs ino (some (.file ns)) j = some (.file nsj) := by
          rwa [update_eq_self_iff.mpr ho.symm]
        have hfiles := contains_update hr ho hall hc (fun b hb hnot => Vol.write_block_ne fun e =>
          hnot (e ▸ hr.laid.head_mem ho)) j nsj hj'
        rwa [update_eq_self] at hfiles
    | true =>
      obtain ⟨hfile, hcond⟩ := hok
      obtain ⟨ns, ho⟩ := hr.isFile hfile
      obtain ⟨hneed, hkeep, hcut⟩ := hcond _ (hr.chain_self ho)
      rw [Obj.nodes, hr.writeNeed_eq ho] at hneed
      rw [Obj.nodes, hr.blockCount_eq ho, nodesOf, List.length_map] at hkeep
      have hc := hall ino ns ho
      refine Does.bind ((hc.resize hr ho (hr.size_lt_of_taken ho hneed) hneed).mono ?_)
      rintro _ v' ⟨rfl, ns', hrep, -, -, hc', -, hframe⟩
      exact Does.pure ⟨_, hrep, contains_update hr ho hall (hc' hkeep (hc.zero_cut hr ho hcut)) hframe⟩

/-- **Sessions of `create`, `write` and `setattr`.** Under the condition on `setattr`, every file
contains at any time what the calls should have left in it: it was cut or extended with
zeros, and what was cut off never shows again. The next `setattr` leaves the content it
should just where the first node need not gain a block, whatever it cuts off. -/
theorem sessions_resize (clock : Nat → Nat) (junk : Nat → Block) :
    ∃ w₀, mount (blank clock junk) = some w₀ ∧ ∀ w c,
      Steps Op.record (fun s op => op.resizes s.1) (w₀, fun _ => Sparse.empty) (w, c) →
        ∀ ino nodes, IsFile w.disk ino → Chain w.disk ino nodes →
          content w.vol ino nodes = (c ino).toList ∧ (w.disk ino).size = (c ino).size ∧
          (c ino).size ≤ 512 * blockCount w.disk nodes ∧
          ∀ info : FileInfo, writeNeed w.disk nodes (info.size / 512) ≤ w.vol.free →
            ∃ w' nodes', Op.step w (.setattr ino true info) = some w' ∧ Chain w'.disk ino nodes' ∧
              (w'.disk ino).size = info.size ∧
              (content w'.vol ino nodes' =
                  (content w.vol ino nodes).take info.size ++ List.replicate (info.size - (w.disk ino).size) 0 ↔
                1 < nodes.length ∨ info.size ≤ 512 * blockCount w.disk nodes) := by
  refine ⟨_, mount_eq rfl, fun w c hrun ino nodes hfile hchain => ?_⟩
  have hstart : Filed ((⟨format (blank clock junk).disk, [], clock, junk, 0⟩ : World), fun _ => Sparse.empty) := by
    refine ⟨rfl, rootOnly, rep_format, fun ino ns ho => ?_⟩
    cases (rootOnly_eq ho).2
  obtain ⟨hw, fs, hr, hall⟩ := hrun.invariant hstart fun _ _ _ h hok hs => h.step hok hs
  obtain ⟨ns, ho⟩ := hr.isFile hfile
  obtain rfl := hchain.unique (hr.chain_self ho)
  have hc := hall ino ns ho
  have hcontent : content w.vol ino (Obj.file ns).nodes = (c ino).toList := hc.content hr ho
  have hsize : (w.disk ino).size = (c ino).size := by
    rw [← hr.disk_block ho (hr.laid.head_mem ho)]
    exact hc.size
  refine ⟨hcontent, hsize, ?_, fun info hneed => ?_⟩
  · rw [Obj.nodes, hr.blockCount_eq ho]
    exact hc.filled
  · rw [Obj.nodes, hr.writeNeed_eq ho] at hneed
    rw [Obj.nodes, hr.blockCount_eq ho, nodesOf, List.length_map]
    obtain ⟨r, w', hstep, -, -, ns', hrep, hsize', hcontent', -⟩ :=
      hc.resize hr ho (hr.size_lt_of_taken ho hneed) hneed w hw rfl
    have hself := update_self ino (some (Obj.file ns')) fs
    rw [Sparse.toList_resize, ← hcontent, ← hsize] at hcontent'
    refine ⟨w', nodesOf ns', ?_, hrep.chain_self hself, ?_, hcontent'⟩
    · rw [Op.step, Op.code, Prog.run_bind, hstep]
      rfl
    · rw [← hrep.disk_block hself (hrep.laid.head_mem hself)]
      exact hsize'

section
variable {w : World} {blocks : Nat}

theorem OneFile.resizes_setattr (h : OneFile w blocks) {info : FileInfo} (hp : taken 1 blocks (info.size / 512) ≤ 1)
    (hkeep : info.size ≤ 512 * blocks) (hcut : ∀ x ∈ (content w.vol 2 [2]).drop info.size, x = 0) :
    (Op.setattr 2 true info).resizes w := by
  refine ⟨h.isFile, fun nodes hc => ?_⟩
  obtain rfl := hc.unique (.last h.2.2.2.2.1)
  refine ⟨h.need hp _ hc, .inr ?_, hcut⟩
  rwa [blockCount, List.map_singleton, List.sum_singleton, h.2.2.2.2.2]

end

/-- A session of `sessions_resize`, in which a zero is cut off a file of two bytes. -/
theorem sessions_resize_cut : ∃ w₀ s, mount still = some w₀ ∧
    Steps Op.record (fun s op => op.resizes s.1) (w₀, fun _ => Sparse.empty) s ∧
    content s.1.vol 2 [2] = (s.2 2).toList ∧ (s.2 2).toList = [98] := by
  obtain ⟨w₀, hw₀, hbare, s₁, hs₁, hone, s₂, hs₂, ⟨htwo, hcut⟩, s₃, hs₃, hthree, hlist⟩ :
      ∃ w₀, mount still = some w₀ ∧ Bare w₀ ∧ ∃ s₁, Op.record (w₀, fun _ => Sparse.empty) (.create 1 [97]) = some s₁ ∧
      OneFile s₁.1 0 ∧ ∃ s₂, Op.record s₁ (.write 2 [98, 0] 2 0) = some s₂ ∧ (OneFile s₂.1 1 ∧
      ∀ x ∈ (content s₂.1.vol 2 [2]).drop 1, x = 0) ∧ ∃ s₃, Op.record s₂ (.setattr 2 true ⟨1, 0, 0, 0⟩) = some s₃ ∧
      OneFile s₃.1 1 ∧ (s₃.2 2).toList = [98] := by decide +kernel
  have hcreate : (Op.create 1 [97]).resizes w₀ := hbare.ok_create (by decide) (by decide)
  have hwrite : (Op.write 2 [98, 0] 2 0).resizes s₁.1 := ⟨by decide, hone.ok_write (by decide) (by decide) (by decide)⟩
  have hcutting : (Op.setattr 2 true ⟨1, 0, 0, 0⟩).resizes s₂.1 := htwo.resizes_setattr (by decide) (by decide) hcut
  have hfirst : Steps Op.record (fun s op => op.resizes s.1) (w₀, fun _ => Sparse.empty) s₁ :=
    Steps.refl.tail hcreate hs₁
  have hsteps : Steps Op.record (fun s op => op.resizes s.1) (w₀, fun _ => Sparse.empty) s₃ :=
    (hfirst.tail hwrite hs₂).tail hcutting hs₃
  obtain ⟨w₀', hw₀', hall⟩ := sessions_resize (fun _ => 0) fun _ => Bytes.zero
  obtain rfl : w₀' = w₀ := Option.some.inj (hw₀'.symm.trans hw₀)
  refine ⟨w₀', s₃, hw₀, hsteps, ?_, hlist⟩
  exact (hall s₃.1 s₃.2 hsteps 2 [2] hthree.isFile (.last hthree.2.2.2.2.1)).1

/-- **What `setattr` cuts off comes back, and what it should add is not there.** A file of
three bytes is cut to one and extended again: the bytes are those that were cut off. A file
without blocks is asked for ten bytes: it has the size, but no block. -/
theorem setattr_keeps_cut : ∃ w₀ s s', mount still = some w₀ ∧
    Steps Op.record (fun s op => op.ok s.1) (w₀, fun _ => Sparse.empty) s ∧
    IsFile s.1.disk 2 ∧ Chain s.1.disk 2 [2] ∧
    content s.1.vol 2 [2] = [97, 98, 99] ∧ (s.2 2).toList = [97, 0, 0] ∧
    Steps Op.record (fun s op => op.ok s.1) (w₀, fun _ => Sparse.empty) s' ∧
    IsFile s'.1.disk 2 ∧ Chain s'.1.disk 2 [2] ∧ (s'.1.disk 2).size = 10 ∧ blockCount s'.1.disk [2] = 0 ∧
    content s'.1.vol 2 [2] = [] ∧ (s'.2 2).toList = [0, 0, 0, 0, 0, 0, 0, 0, 0, 0] := by
  have hrun : (mount still).any (fun w₀ => decide (Bare w₀) &&
      (Op.record (w₀, fun _ => Sparse.empty) (.create 1 [97])).any fun s₁ => decide (OneFile s₁.1 0) &&
      ((Op.record s₁ (.write 2 [97, 98, 99] 3 0)).any fun s₂ => decide (OneFile s₂.1 1) &&
      (Op.record s₂ (.setattr 2 true ⟨1, 0, 0, 0⟩)).any fun s₃ => decide (OneFile s₃.1 1) &&
      (Op.record s₃ (.setattr 2 true ⟨3, 0, 0, 0⟩)).any fun s₄ =>
      decide (OneFile s₄.1 1 ∧ content s₄.1.vol 2 [2] = [97, 98, 99] ∧ (s₄.2 2).toList = [97, 0, 0])) &&
      (Op.record s₁ (.setattr 2 true ⟨10, 0, 0, 0⟩)).any fun s₂ =>
      decide (OneFile s₂.1 0 ∧ (s₂.1.disk 2).size = 10 ∧ blockCount s₂.1.disk [2] = 0 ∧
        content s₂.1.vol 2 [2] = [] ∧ (s₂.2 2).toList = [0, 0, 0, 0, 0, 0, 0, 0, 0, 0])) = true := by
    decide +kernel
  simp only [Option.any_eq_true, Bool.and_eq_true, decide_eq_true_eq] at hrun
  obtain ⟨w₀, hw₀, hbare, s₁, hs₁, ⟨hone, s₂, hs₂, htwo, s₃, hs₃, hthree, s₄, hs₄, hfour, hcut⟩, s₅, hs₅,
    hfive, hnone⟩ :=
    hrun
  have hfirst : Steps Op.record (fun s op => op.ok s.1) (w₀, fun _ => Sparse.empty) s₁ :=
    Steps.refl.tail (hbare.ok_create (by decide) (by decide)) hs₁
  refine ⟨w₀, s₄, s₅, hw₀, ?_, hfour.isFile, .last hfour.2.2.2.2.1, hcut.1, hcut.2, ?_, hfive.isFile,
    .last hfive.2.2.2.2.1, hnone⟩
  · exact ((hfirst.tail (hone.ok_write (by decide) (by decide) (by decide)) hs₂).tail
      (htwo.ok_setattr (by decide)) hs₃).tail (hthree.ok_setattr (by decide)) hs₄
  · exact hfirst.tail (hone.ok_setattr (by decide)) hs₅

end Yfs.Fs

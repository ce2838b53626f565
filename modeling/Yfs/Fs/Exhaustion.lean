import Yfs.Fs.Volume

/-! Taking blocks until none is left.

As long as a bit below `volSize` is clear, `put` with `add` takes the first block whose bit
is clear, and reads no block but those of the bitmap. The search has no end of its own:
with every bit set it goes on to block 201, the first behind the bitmap, and reads that one
as bits, so that it never returns `IOERR`; where a bit of the data in block 201 is clear it
sets it and hands out a block that has no bit. -/
namespace Yfs.Fs
open Yfs.Base

variable {ino : Nat} {buf : Block} {w : World}

/-- `put` with `add` takes the first block that is not in use and fills it, or with none
left fails without effect. -/
def PutFits (w : World) (ino : Nat) (buf : Block) : Prop :=
  Prog.Ends World.answer (put ino buf true) w fun r w' => w'.held = w.held ∧
    ((∃ i, w.vol.Fresh i ∧ r = (.ok, i) ∧ w'.vol = w.vol.alloc i buf) ∨
      (∀ i < volSize, w.vol.used i = true) ∧ r.1 = .ioerr ∧ w'.vol = w.vol)

/-- A block that is read, or written with anything but `buf`, is a bitmap block. -/
def Call.OnBitmap (buf : Block) : Call → Prop
  | .get b => outsideBitmap b = false
  | .put b d => outsideBitmap b = true → d = buf
  | _ => True

/-- `put` with `add` uses no other block as a bitmap block. -/
def PutWithin (w : World) (ino : Nat) (buf : Block) : Prop :=
  Prog.Paths (fun e (_ : Unit) (_ : World) => e.OnBitmap buf)
    (fun e _ w r w' => World.answer e w = some (r, w')) (put ino buf true) w fun _ _ => True

section
variable {i j last fuel : Nat}

/-- The search stops at the first clear bit, if not before. -/
theorem putLoop_within (hj : j < volSize) (hclear : w.vol.used j = false) (hij : i ≤ j) :
    Prog.Paths (fun e (_ : Unit) (_ : World) => e.OnBitmap buf)
      (fun e _ w r w' => World.answer e w = some (r, w')) (putLoop ino buf fuel i last) w fun _ _ => True := by
  induction fuel generalizing i last w with
  | zero => exact ⟨(), trivial, fun _ _ h => by cases h⟩
  | succ fuel ih =>
    have hi : i < volSize := by omega
    -- the lock of the bitmap block, and the block
    refine .bind (Prog.Paths.mono (Q := fun _ w' => w'.vol = w.vol) ?_ fun _ w₁ hw₁ => ?_)
    · split
      · exact .call () trivial fun _ _ h => congrArg volOf (disk_acquire h)
      · exact .pure rfl
    refine .bind (.call () (bitmapBlock_inside hi) fun bits w₂ h₂ => ?_)
    cases h₂
    change Prog.Paths _ _ (if (w₁.disk (bitmapBlock i)).bit (i % bitmapPerBlock) then _ else _) _ _
    rw [← usedIn_eq hi]
    change Prog.Paths _ _ (if w₁.vol.used i then _ else _) _ _
    rw [hw₁]
    by_cases hset : w.vol.used i = true
    · rw [if_pos hset]
      have hne : i ≠ j := fun e => by
        rw [← e, hset] at hclear
        cases hclear
      exact ih (by rw [hw₁]; exact hclear) (by omega)
    · rw [if_neg hset]
      refine .bind (.bind (.call () trivial fun _ _ _ => .bind (.call () (fun _ => rfl) fun ret _ _ => ?_)))
      refine .bind (.call () trivial fun _ _ _ => .pure ?_)
      have hbits {d : Block} : Call.OnBitmap buf (.put (bitmapBlock i) d) := fun h => by
        rw [bitmapBlock_inside hi] at h
        cases h
      split
      · exact .pure trivial
      · refine .bind (.call () hbits fun ret _ _ => ?_)
        split <;> exact .pure trivial

theorem releaseDown_within {Q : Unit → World → Prop} (hQ : ∀ w, Q () w) :
    Prog.Paths (fun e (_ : Unit) (_ : World) => e.OnBitmap buf)
      (fun e _ w r w' => World.answer e w = some (r, w')) (releaseDown last) w Q := by
  induction last generalizing w with
  | zero => exact .pure (hQ w)
  | succ last ih =>
    rw [releaseDown]
    split
    · exact .bind (.call () trivial fun _ _ _ => ih)
    · exact .pure (hQ w)

/-- A search that ends has found a block. -/
theorem putLoop_ok : Prog.Yields World.answer (putLoop ino buf fuel i last) w fun r _ => r.1 = .ok := by
  induction fuel generalizing i last w with
  | zero => exact fun _ _ h => by cases h
  | succ fuel ih =>
    refine .last fun _ w₁ => .bind (.call fun bits w₂ h₂ => ?_)
    split
    · exact ih
    · have hput : Prog.Yields World.answer (withLock i (ecPut i buf)) w₂ fun r _ => r = .ok := by
        refine .last fun _ _ => .bind (.call fun r _ hr => .last fun _ _ => .pure ?_)
        cases hr
        rfl
      refine .bind (hput.mono fun r w₃ hr => ?_)
      rw [hr, if_neg (fun h => h rfl)]
      refine .bind (.call fun r _ hr => ?_)
      cases hr
      exact .pure rfl

end

theorem put_ok : Prog.Yields World.answer (put ino buf true) w fun r _ => r.1 = .ok := by
  rw [put, if_pos rfl]
  exact .bind (putLoop_ok.mono fun r _ hr => .last fun _ _ => .pure hr)

/-- With the bits of the reserved blocks set, `put` with `add` does what it is for, within
the bitmap, exactly as long as a block is left. -/
theorem put_fits (hv : w.vol.Formatted) (hH : HeldUsed w.held w.vol) :
    PutFits w ino buf ∧ PutWithin w ino buf ↔ ∃ i < volSize, w.vol.used i = false := by
  constructor
  · rintro ⟨hfits, -⟩
    obtain ⟨r, w', hok, -, ⟨i, hi, -, -⟩ | ⟨-, hio, -⟩⟩ := put_ok.and_ends hfits
    · exact ⟨i, hi.lt, hi.unused⟩
    · rw [hok] at hio
      cases hio
  · rintro ⟨j, hj, hclear⟩
    constructor
    · exact (Does.putAdd (Vol.free_pos hj hclear) hv hH w rfl rfl).mono fun r w' h => ⟨h.1, .inl h.2⟩
    · unfold PutWithin
      rw [put, if_pos rfl]
      refine .bind ((putLoop_within hj hclear (Nat.zero_le j)).mono fun r _ _ => .bind ?_)
      exact releaseDown_within fun _ => .pure trivial

/-- With every bit set, the data in block 201 is searched for a clear bit. -/
theorem put_past_bitmap (hfull : ∀ i < volSize, w.vol.used i = true) (hheld : w.held = [])
    (hbit : (w.vol.block 201).bit 0 = false) :
    Prog.Ends World.answer (put ino buf true) w fun r w' => r = (.ok, volSize) ∧ w'.held = [] ∧
      w'.vol = (w.vol.write volSize buf).write 201 ((w.vol.block 201).setBit 0) := by
  rw [put, if_pos rfl, show loopFuel = loopFuel - volSize - 1 + 1 + volSize by decide]
  generalize loopFuel - volSize - 1 = fuel
  refine .bind (Prog.Ends.mono (Q := fun r w' => r = (.ok, volSize, 201) ∧ w'.held = lockedDown 201 ++ [] ∧
    w'.vol = (w.vol.write volSize buf).write 201 ((w.vol.block 201).setBit 0)) ?_ ?_)
  · refine putLoop_scan ⟨rfl, .inl ⟨rfl, rfl, hheld⟩⟩ (Nat.zero_add _) (Nat.le_refl _) hfull
      (fun l hl => by cases hl) fun last w₁ hs => ?_
    rw [putLoop]
    refine .bind ((acquire_bitmap_ends hs List.not_mem_nil).mono fun _ w₂ h₂ => .bind (.call rfl ?_))
    obtain ⟨hheld₂, hvol₂⟩ := h₂
    have hdata : w₂.disk 201 = w.vol.block 201 := by
      rw [← hvol₂]
      rfl
    change Prog.Ends World.answer (if (w₂.disk 201).bit 0 then _ else _) _ _
    rw [hdata, hbit, if_neg Bool.false_ne_true]
    have hnot : volSize ∉ w₂.held := by
      rw [hheld₂, List.append_nil]
      intro hmem
      have := (mem_lockedDown hmem).2
      exact absurd this (by decide)
    refine .bind ((put_locked_ends hnot).mono fun r w₃ h₃ => ?_)
    obtain ⟨rfl, hheld₃, hdisk₃⟩ := h₃
    rw [if_neg (fun h => h rfl)]
    refine .bind (.call rfl (.pure ⟨rfl, hheld₃.trans hheld₂, ?_⟩))
    change volOf (Function.update w₃.disk 201 ((w₂.disk 201).setBit 0)) = _
    rw [volOf_put (by decide), hdisk₃, volOf_put (by decide), hdata, ← hvol₂]
    rfl
  · rintro _ w' ⟨rfl, hheld', hvol'⟩
    refine .bind ((releaseDown_ends hheld').mono fun _ w'' h'' => .pure ⟨rfl, h''.1, ?_⟩)
    rw [h''.2, hvol']

def ones : Block := fun _ => 255

/-- A client whose disk is ones up to block `n` and zeros behind. -/
def onesTo (n : Nat) : World :=
  ⟨fun b => if b ≤ n then ones else Bytes.zero, [], fun _ => 0, fun _ => Bytes.zero, 0⟩

theorem used_onesTo {i n : Nat} (hi : i < volSize) (hn : bitmapBlock i ≤ n) : (onesTo n).vol.used i = true := by
  have hdisk : (onesTo n).disk (bitmapBlock i) = ones := if_pos hn
  have hbyte : ones.byte (i % bitmapPerBlock / 8) = BitVec.allOnes 8 := dif_pos (bit_lt i)
  change usedIn (onesTo n).disk i = true
  rw [usedIn_eq hi, hdisk, Bytes.bit, hbyte, BitVec.getLsbD_allOnes]
  exact decide_eq_true (Nat.mod_lt _ (by decide))

theorem formatted_onesTo {n : Nat} (hn : 10 ≤ n) : (onesTo n).vol.Formatted := by
  intro b hb
  have hle : b ≤ 200 := by
    unfold Reserved at hb
    omega
  have hblock : bitmapBlock b = 10 := by
    rw [bitmapBlock_eq]
    omega
  exact used_onesTo (Nat.lt_of_le_of_lt hle (by decide)) (hblock ▸ hn)

theorem put_fits_onesTo : (onesTo 10).vol.Formatted ∧ HeldUsed (onesTo 10).held (onesTo 10).vol ∧
    PutFits (onesTo 10) 0 Bytes.zero ∧ PutWithin (onesTo 10) 0 Bytes.zero := by
  have hv := formatted_onesTo (Nat.le_refl 10)
  have hH : HeldUsed (onesTo 10).held (onesTo 10).vol := fun l hl => by cases hl
  have hclear : (onesTo 10).vol.used 4096 = false := by decide +kernel
  exact ⟨hv, hH, (put_fits hv hH).mpr ⟨4096, by decide, hclear⟩⟩

/-- With every bit set, `put` with `add` returns `OK` and block 782336, and a bit of the
data in block 201 has changed. -/
theorem put_full_ok : (onesTo 200).vol.Formatted ∧ HeldUsed (onesTo 200).held (onesTo 200).vol ∧
    (∀ i < volSize, (onesTo 200).vol.used i = true) ∧
    ∃ w', Prog.run World.answer (put 0 Bytes.zero true) (onesTo 200) = some ((.ok, 782336), w') ∧
      w'.vol.block 201 ≠ (onesTo 200).vol.block 201 := by
  have hfull : ∀ i < volSize, (onesTo 200).vol.used i = true := fun i hi => used_onesTo hi (bitmapBlock_le hi)
  refine ⟨formatted_onesTo (by decide), (fun l hl => by cases hl), hfull, ?_⟩
  obtain ⟨r, w', hrun, rfl, -, hvol⟩ :=
    @put_past_bitmap 0 Bytes.zero _ hfull rfl (by decide +kernel)
  refine ⟨w', hrun, fun h => ?_⟩
  have hbit := congrArg (fun b => b.bit 0) h
  rw [hvol, Vol.write_block_self] at hbit
  revert hbit
  decide +kernel

end Yfs.Fs

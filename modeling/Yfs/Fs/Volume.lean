import Mathlib.Data.Finset.Card
import Mathlib.Data.Finset.Range
import Mathlib.Data.Nat.Find
import Yfs.Fs.Client

/-! One client on its blocks, and the volume its functions work on.

With one client that makes one call at a time, a block read is the block last put
(`Yfs.Extent.Coherence`) and a lock is granted unless the call holds it already, in
which case it waits for itself. `World` is the blocks, the locks the call holds, and
what `time(0)` and the uninitialised buffers will answer.

The functions above `get`, `put` and `remove` see less of the blocks than that: the
content of the blocks outside of the bitmap, and which blocks are in use. This is the
*volume* of a world, and what the three of them do to it is proved here once, `put` with
its search for a clear bit included. `Does H v p Q` is total correctness on volumes,
with the locks `H` held before and after. -/
namespace Yfs.Fs
open Yfs.Base
open Function (update update_of_ne update_self)

def volSize : Nat := (bitmapEnd + 1 - bitmapBegin) * bitmapPerBlock

structure World where
  disk : Nat → Block
  held : List Nat
  clock : Nat → Nat
  junk : Nat → Block
  /-- How many answers `clock` and `junk` have given. -/
  answers : Nat

/-- What a call does, none where it is never answered. -/
def World.answer : (c : Call) → World → Option (c.Answer × World)
  | .acquire l, w => if l ∈ w.held then none else some ((), { w with held := l :: w.held })
  | .release l, w => if l ∈ w.held then some ((), { w with held := w.held.erase l }) else none
  | .get b, w => some ((.ok, w.disk b), w)
  | .put b d, w => some (.ok, { w with disk := update w.disk b d })
  | .time, w => some (w.clock w.answers, { w with answers := w.answers + 1 })
  | .junk, w => some (w.junk w.answers, { w with answers := w.answers + 1 })
  | .hang, _ => none
  | .undefined, _ => none

section
variable {l : Nat} {H : List Nat} {r : Unit} {w w' : World}

theorem World.answer_acquire (hw : w.held = H) (hl : l ∉ H) :
    World.answer (.acquire l) w = some ((), { w with held := l :: H }) := by
  rw [World.answer, hw, if_neg hl]
  rfl

theorem World.answer_release (hw : w.held = l :: H) :
    World.answer (.release l) w = some ((), { w with held := H }) := by
  rw [World.answer, hw, if_pos List.mem_cons_self, List.erase_cons_head]
  rfl

theorem disk_acquire (h : World.answer (.acquire l) w = some (r, w')) : w'.disk = w.disk := by
  rw [World.answer] at h
  split at h
  · cases h
  · cases h
    rfl

theorem disk_release (h : World.answer (.release l) w = some (r, w')) : w'.disk = w.disk := by
  rw [World.answer] at h
  split at h
  · cases h
    rfl
  · cases h

end

/-- What the client sees of its blocks. -/
@[ext] structure Vol where
  block : Nat → Block
  used : Nat → Bool

def dataOf (disk : Nat → Block) (b : Nat) : Block := if outsideBitmap b then disk b else Bytes.zero

def usedIn (disk : Nat → Block) (i : Nat) : Bool :=
  decide (i < volSize) && (disk (bitmapBlock i)).bit (i % bitmapPerBlock)

def volOf (disk : Nat → Block) : Vol := ⟨dataOf disk, usedIn disk⟩

def World.vol (w : World) : Vol := volOf w.disk

namespace Vol

def write (v : Vol) (b : Nat) (d : Block) : Vol := { v with block := update v.block b d }

def setUsed (v : Vol) (i : Nat) (x : Bool) : Vol := { v with used := update v.used i x }

/-- Block `i` is taken and filled with `d`. -/
def alloc (v : Vol) (i : Nat) (d : Block) : Vol := (v.write i d).setUsed i true

/-- The blocks `bs` are no longer in use. -/
def drop (v : Vol) (bs : List Nat) : Vol := { v with used := fun b => v.used b && decide (b ∉ bs) }

def free (v : Vol) : Nat := ((Finset.range volSize).filter fun i => v.used i = false).card

/-- The first block that is not in use. -/
structure Fresh (v : Vol) (i : Nat) : Prop where
  lt : i < volSize
  unused : v.used i = false
  first : ∀ j < i, v.used j = true

end Vol

/-! ### Rules for the calls -/

variable {α β : Type} {H : List Nat} {v : Vol} {p : Code α} {w : World} {b i j last : Nat} {buf d : Block}

/-- Holding `H` on the volume `v`, the program returns, holds `H` again, and `Q` holds of
what it returned and of the volume then. -/
def Does (H : List Nat) (v : Vol) (p : Code α) (Q : α → Vol → Prop) : Prop :=
  ∀ w : World, w.held = H → w.vol = v →
    Prog.Ends World.answer p w fun a w' => w'.held = H ∧ Q a w'.vol

/-- The program returns `a` and leaves the volume `v'`. -/
def Gives (H : List Nat) (v : Vol) (p : Code α) (a : α) (v' : Vol) : Prop :=
  Does H v p fun a' v'' => a' = a ∧ v'' = v'

namespace Does
variable {Q Q' : α → Vol → Prop}

protected theorem pure {a : α} (h : Q a v) : Does H v (pure a) Q := by
  intro w hw hv
  subst hv
  exact .pure ⟨hw, h⟩

theorem mono (hp : Does H v p Q) (h : ∀ a v', Q a v' → Q' a v') : Does H v p Q' := by
  intro w hw hv
  exact (hp w hw hv).mono fun a w' hq => ⟨hq.1, h a _ hq.2⟩

protected theorem bind {p : Code α} {f : α → Code β} {Q : β → Vol → Prop}
    (hp : Does H v p fun a v' => Does H v' (f a) Q) : Does H v (p >>= f) Q := by
  intro w hw hv
  exact .bind ((hp w hw hv).mono fun a w' hq => hq.2 w' hq.1 rfl)

theorem time {Q : Nat → Vol → Prop} (h : ∀ t, Q t v) : Does H v time Q := by
  intro w hw hv
  subst hv
  exact .call rfl ⟨hw, h _⟩

theorem uninit {Q : Block → Vol → Prop} (h : ∀ b, Q b v) : Does H v uninit Q := by
  intro w hw hv
  subst hv
  exact .call rfl ⟨hw, h _⟩

theorem withLock {l : Nat} (hl : l ∉ H) (hp : Does (l :: H) v p Q) :
    Does H v (withLock l p) Q := by
  intro w hw hv
  refine .bind (.call (World.answer_acquire hw hl) (.bind ?_))
  refine (hp { w with held := l :: H } rfl hv).mono fun a w' hq => ?_
  exact .bind (.call (World.answer_release hq.1) (.pure ⟨rfl, hq.2⟩))

end Does

theorem Gives.bind {f : α → Code β} {a : α} {v' : Vol} {Q : β → Vol → Prop}
    (hp : Gives H v p a v') (hf : Does H v' (f a) Q) : Does H v (p >>= f) Q := by
  refine Does.bind (Does.mono hp ?_)
  rintro _ _ ⟨rfl, rfl⟩
  exact hf

theorem Gives.pure (a : α) : Gives H v (pure a) a v := Does.pure ⟨rfl, rfl⟩

/-- Holding `H` on the volume `v`, the program returns nothing but values that satisfy `Q`. -/
def Returns (H : List Nat) (v : Vol) (p : Code α) (Q : α → Prop) : Prop :=
  ∀ w : World, w.held = H → w.vol = v → Prog.Yields World.answer p w fun a _ => Q a

namespace Returns
variable {Q : α → Prop}

protected theorem bind {p : Code α} {f : α → Code β} {Q : β → Prop}
    (hp : Does H v p fun a v' => Returns H v' (f a) Q) : Returns H v (p >>= f) Q := by
  intro w hw hv
  exact .bind (.of_ends ((hp w hw hv).mono fun a w' hq => hq.2 w' hq.1 rfl))

theorem withLock {l : Nat} (hl : l ∉ H) (hp : Returns (l :: H) v p Q) :
    Returns H v (withLock l p) Q := by
  intro w hw hv
  refine .bind (.of_ends (.call (World.answer_acquire hw hl) (.bind ?_)))
  refine (hp { w with held := l :: H } rfl hv).mono fun a _ hq => ?_
  exact .last fun _ _ => .pure hq

end Returns

theorem Gives.returns {f : α → Code β} {a : α} {v' : Vol} {Q : β → Prop} (hp : Gives H v p a v')
    (hf : Returns H v' (f a) Q) : Returns H v (p >>= f) Q := by
  refine Returns.bind (Does.mono hp ?_)
  rintro _ _ ⟨rfl, rfl⟩
  exact hf

/-- Holding `H` on the volume `v`, the program does what `Q` says, or it never returns and
`S` holds. -/
def DoesOr (S : Prop) (H : List Nat) (v : Vol) (p : Code α) (Q : α → Vol → Prop) : Prop :=
  ∀ w : World, w.held = H → w.vol = v →
    Prog.Ends World.answer p w (fun a w' => w'.held = H ∧ Q a w'.vol) ∨ S ∧ Prog.run World.answer p w = none

theorem Does.or {S : Prop} {Q : α → Vol → Prop} (hp : Does H v p Q) : DoesOr S H v p Q :=
  fun w hw hv => .inl (hp w hw hv)

namespace DoesOr
variable {S : Prop} {Q Q' : α → Vol → Prop}

theorem does (hp : DoesOr S H v p Q) (hS : ¬ S) : Does H v p Q :=
  fun w hw hv => (hp w hw hv).resolve_right fun h => hS h.1

theorem mono (hp : DoesOr S H v p Q) (h : ∀ a v', Q a v' → Q' a v') : DoesOr S H v p Q' :=
  fun w hw hv => (hp w hw hv).imp_left fun he => he.mono fun a _ hq => ⟨hq.1, h a _ hq.2⟩

theorem yields (hp : DoesOr S H v p Q) (hw : w.held = H) (hv : w.vol = v) :
    Prog.Yields World.answer p w fun a w' => Q a w'.vol := by
  obtain he | ⟨-, hnone⟩ := hp w hw hv
  · exact .of_ends (he.mono fun a w' hq => hq.2)
  · intro a w' hr
    rw [hnone] at hr
    cases hr

protected theorem bind {p : Code α} {f : α → Code β} {Q : β → Vol → Prop}
    (hp : DoesOr S H v p fun a v' => DoesOr S H v' (f a) Q) : DoesOr S H v (p >>= f) Q := by
  intro w hw hv
  obtain ⟨a, w', hr, hw', hf⟩ | ⟨hS, hnone⟩ := hp w hw hv
  · refine (hf w' hw' rfl).imp (fun he => .bind ⟨a, w', hr, he⟩) fun h => ⟨h.1, ?_⟩
    rw [Prog.run_bind, hr]
    exact h.2
  · exact .inr ⟨hS, by rw [Prog.run_bind, hnone]; rfl⟩

theorem undefined (hS : S) : DoesOr S H v undefinedAccess Q := fun _ _ _ => .inr ⟨hS, rfl⟩

theorem withLock {l : Nat} (hl : l ∉ H) (hp : DoesOr S (l :: H) v p Q) :
    DoesOr S H v (withLock l p) Q := by
  intro w hw hv
  have hacq := World.answer_acquire hw hl
  obtain he | ⟨hS, hnone⟩ := hp { w with held := l :: H } rfl hv
  · refine .inl (.bind (.call hacq (.bind (he.mono fun a w' hq => ?_))))
    exact .bind (.call (World.answer_release hq.1) (.pure ⟨rfl, hq.2⟩))
  · refine .inr ⟨hS, ?_⟩
    refine (Prog.run_call_bind hacq).trans ?_
    rw [Prog.run_bind, hnone]
    rfl

end DoesOr

theorem Gives.bindOr {S : Prop} {f : α → Code β} {a : α} {v' : Vol} {Q : β → Vol → Prop}
    (hp : Gives H v p a v') (hf : DoesOr S H v' (f a) Q) : DoesOr S H v (p >>= f) Q := by
  refine .bind (Does.or (Does.mono hp ?_))
  rintro _ _ ⟨rfl, rfl⟩
  exact hf

/-! ### The volume after one block was put -/

theorem outsideBitmap_iff : outsideBitmap b = true ↔ b < 10 ∨ 200 < b := by
  rw [outsideBitmap, decide_eq_true_eq]
  rfl

theorem bitmapBlock_eq (i : Nat) : bitmapBlock i = 10 + i / 4096 := rfl

theorem bitmapBlock_le (hi : i < volSize) : bitmapBlock i ≤ 200 := by
  have : volSize = 782336 := rfl
  rw [bitmapBlock_eq]
  omega

theorem bitmapBlock_inside (hi : i < volSize) : outsideBitmap (bitmapBlock i) = false := by
  have h := bitmapBlock_le hi
  rw [Bool.eq_false_iff, ne_eq, outsideBitmap_iff, bitmapBlock_eq] at *
  omega

theorem bitmapBlock_ne (hi : i < volSize) (hb : outsideBitmap b = true) : bitmapBlock i ≠ b := by
  intro h
  rw [← h, bitmapBlock_inside hi] at hb
  exact Bool.false_ne_true hb

section
variable {disk : Nat → Block}

theorem usedIn_eq (hi : i < volSize) :
    usedIn disk i = (disk (bitmapBlock i)).bit (i % bitmapPerBlock) := by
  rw [usedIn, decide_eq_true hi, Bool.true_and]

theorem volOf_put (hb : outsideBitmap b = true) :
    volOf (update disk b d) = (volOf disk).write b d := by
  ext1
  · funext b'
    change dataOf _ b' = update (dataOf disk) b d b'
    unfold dataOf
    by_cases h : b' = b
    · rw [h, update_self, update_self, if_pos hb]
    · rw [update_of_ne h, update_of_ne h]
  · funext i
    change usedIn _ i = usedIn disk i
    unfold usedIn
    by_cases hi : i < volSize
    · rw [update_of_ne (bitmapBlock_ne hi hb)]
    · rw [decide_eq_false hi, Bool.false_and, Bool.false_and]

theorem volOf_put_bit {bits : Block} {x : Bool} (hi : i < volSize)
    (hbits : ∀ k, bits.bit k = if k = i % bitmapPerBlock then x else (disk (bitmapBlock i)).bit k) :
    volOf (update disk (bitmapBlock i) bits) = (volOf disk).setUsed i x := by
  ext1
  · funext b
    change dataOf _ b = dataOf disk b
    unfold dataOf
    by_cases hb : outsideBitmap b
    · rw [update_of_ne (bitmapBlock_ne hi hb).symm]
    · rw [if_neg hb, if_neg hb]
  · funext j
    change usedIn _ j = update (usedIn disk) i x j
    by_cases hj : j = i
    · rw [hj, update_self, usedIn_eq hi, update_self, hbits, if_pos rfl]
    · rw [update_of_ne hj]
      unfold usedIn
      by_cases hblk : bitmapBlock j = bitmapBlock i
      · have hne : j % bitmapPerBlock ≠ i % bitmapPerBlock := by
          rw [bitmapBlock_eq, bitmapBlock_eq] at hblk
          unfold bitmapPerBlock
          omega
        rw [hblk, update_self, hbits, if_neg hne]
      · rw [update_of_ne hblk]

theorem bit_lt (i : Nat) : i % bitmapPerBlock / 8 < 512 := by
  have := Nat.mod_lt i (show 0 < 4096 by decide)
  unfold bitmapPerBlock
  omega

theorem volOf_setBit (hi : i < volSize) :
    volOf (update disk (bitmapBlock i) ((disk (bitmapBlock i)).setBit (i % bitmapPerBlock))) =
      (volOf disk).setUsed i true := by
  refine volOf_put_bit hi fun k => ?_
  rw [Bytes.bit_setBit _ (bit_lt i)]
  by_cases hk : k = i % bitmapPerBlock <;> simp [hk]

theorem volOf_clearBit (hi : i < volSize) :
    volOf (update disk (bitmapBlock i) ((disk (bitmapBlock i)).clearBit (i % bitmapPerBlock))) =
      (volOf disk).setUsed i false := by
  refine volOf_put_bit hi fun k => ?_
  rw [Bytes.bit_clearBit _ (bit_lt i)]
  by_cases hk : k = i % bitmapPerBlock <;> simp [hk]

end

/-! ### Single blocks -/

theorem Gives.ecGet (hb : outsideBitmap b = true) : Gives H v (ecGet b) (.ok, v.block b) v := by
  intro w hw hv
  subst hv
  refine .call rfl ⟨hw, ?_, rfl⟩
  change (Status.ok, w.disk b) = (Status.ok, dataOf w.disk b)
  rw [dataOf, if_pos hb]

theorem Gives.ecPut (hb : outsideBitmap b = true) :
    Gives H v (ecPut b d) .ok (v.write b d) := by
  intro w hw hv
  subst hv
  exact .call rfl ⟨hw, rfl, volOf_put hb⟩

def OffBitmap (H : List Nat) : Prop := ∀ l ∈ H, outsideBitmap l = true

theorem offBitmap_singleton (h : outsideBitmap i = true) : OffBitmap [i] := by
  intro l hl
  rw [List.mem_singleton.mp hl]
  exact h

theorem OffBitmap.not_mem (hH : OffBitmap H) (hi : i < volSize) : bitmapBlock i ∉ H :=
  fun h => bitmapBlock_ne hi (hH _ h) rfl

theorem Gives.bitOf (hH : OffBitmap H) (hi : i < volSize) : Gives H v (bitOf i) (v.used i) v := by
  refine Does.bind (Does.withLock (hH.not_mem hi) ?_)
  intro w hw hv
  subst hv
  refine .call rfl ⟨hw, Does.pure ⟨?_, rfl⟩⟩
  exact (usedIn_eq hi).symm

theorem Gives.remove (hH : OffBitmap H) (hi : i < volSize) :
    Gives H v (remove i) .ok (v.setUsed i false) := by
  refine Does.withLock (hH.not_mem hi) ?_
  intro w hw hv
  subst hv
  exact .bind (.call rfl (.bind (.call rfl (.pure ⟨hw, rfl, volOf_clearBit hi⟩))))

/-- Block `b` is in use and not a bitmap block. -/
structure Vol.Has (v : Vol) (b : Nat) : Prop where
  used : v.used b = true
  data : outsideBitmap b = true
  lt : b < volSize

section
variable {b g : Nat} {d buf : Block}

theorem Gives.get (hH : OffBitmap H) (hb : v.Has b) : Gives H v (get b buf) (.ok, v.block b) v := by
  rw [Fs.get, if_pos hb.data]
  refine (Gives.bitOf hH hb.lt).bind ?_
  rw [hb.used, if_pos rfl]
  exact Gives.ecGet hb.data

theorem Gives.put (hH : OffBitmap H) (hb : v.Has b) : Gives H v (put b d false) (.ok, b) (v.write b d) := by
  rw [Fs.put, if_neg Bool.false_ne_true, if_pos hb.data]
  refine (Gives.bitOf hH hb.lt).bind ?_
  rw [hb.used, if_pos rfl]
  exact (Gives.ecPut hb.data).bind (Gives.pure _)

theorem OffBitmap.cons (hH : OffBitmap H) (hb : outsideBitmap b = true) : OffBitmap (b :: H) := by
  intro l hl
  cases List.mem_cons.mp hl with
  | inl h => rw [h]; exact hb
  | inr h => exact hH l h

theorem Gives.safeGet (hH : OffBitmap H) (hb : v.Has b) (hl : b = g ∨ b ∉ H) :
    Gives H v (safeGet b buf g) (.ok, v.block b) v := by
  rw [Fs.safeGet]
  split
  · exact Gives.get hH hb
  · next h => exact Does.withLock (hl.resolve_left h) (Gives.get (hH.cons hb.data) hb)

theorem Gives.safePut (hH : OffBitmap H) (hb : v.Has b) (hl : b = g ∨ b ∉ H) :
    Gives H v (safePut b d false g) (.ok, b) (v.write b d) := by
  rw [Fs.safePut]
  split
  · exact Gives.put hH hb
  · next h =>
    have hne : b ≠ g := fun e => h (.inr e)
    exact Does.withLock (hl.resolve_left hne) (Gives.put (hH.cons hb.data) hb)

end

/-! ### The search for a clear bit -/

def Reserved (b : Nat) : Prop := b = 0 ∨ b = 1 ∨ 10 ≤ b ∧ b ≤ 200

instance (b : Nat) : Decidable (Reserved b) := inferInstanceAs (Decidable (_ ∨ _))

def Vol.Formatted (v : Vol) : Prop := ∀ b, Reserved b → v.used b = true

/-- The locks that `releaseDown` releases. -/
def lockedDown : Nat → List Nat
  | 0 => []
  | last + 1 => if bitmapBegin ≤ last + 1 then (last + 1) :: lockedDown last else []

theorem mem_lockedDown {l : Nat} (h : l ∈ lockedDown last) : 10 ≤ l ∧ l ≤ last := by
  induction last with
  | zero => cases h
  | succ last ih =>
    rw [lockedDown] at h
    split at h
    · next hle =>
      cases List.mem_cons.mp h with
      | inl h => rw [h]; exact ⟨hle, Nat.le_refl _⟩
      | inr h => exact ⟨(ih h).1, Nat.le_succ_of_le (ih h).2⟩
    · cases h

theorem bitmapBlock_mem_lockedDown (i : Nat) : bitmapBlock i ∈ lockedDown (bitmapBlock i) := by
  have hb : bitmapBlock i = 9 + i / 4096 + 1 := by
    rw [bitmapBlock_eq]
    omega
  have hbegin : bitmapBegin ≤ 9 + i / 4096 + 1 := Nat.succ_le_succ (Nat.le_add_right 9 _)
  rw [hb, lockedDown, if_pos hbegin]
  exact List.mem_cons_self

theorem releaseDown_ends (hw : w.held = lockedDown last ++ H) :
    Prog.Ends World.answer (releaseDown last) w fun _ w' => w'.held = H ∧ w'.vol = w.vol := by
  induction last generalizing w with
  | zero => exact .pure ⟨hw, rfl⟩
  | succ last ih =>
    rw [releaseDown]
    rw [lockedDown] at hw
    split
    · next h =>
      rw [if_pos h, List.cons_append] at hw
      exact .bind (.call (World.answer_release hw) (ih rfl))
    · next h =>
      rw [if_neg h] at hw
      exact .pure ⟨hw, rfl⟩

/-- A search that has come to bit `i` holds, besides `H`, the locks from the first bitmap
block to that of the bit before. -/
def Scanned (H : List Nat) (i last : Nat) (held : List Nat) : Prop :=
  i = 0 ∧ last = 2 ^ 64 - 1 ∧ held = H ∨ 0 < i ∧ last = bitmapBlock (i - 1) ∧ held = lockedDown last ++ H

namespace Scanned
variable {i last : Nat} {held : List Nat}

/-- The lock of a bitmap block is taken before its first bit is looked at. -/
theorem cross (hs : Scanned H i last held) (h : bitmapBlock i ≠ last) :
    lockedDown (bitmapBlock i) ++ H = bitmapBlock i :: held ∧ ∀ l ∈ held, l ∈ H ∨ l < bitmapBlock i := by
  have hb := bitmapBlock_eq i
  have hdown : ∀ {l}, bitmapBlock i = l + 1 → held = lockedDown l ++ H →
      lockedDown (bitmapBlock i) ++ H = bitmapBlock i :: held ∧ ∀ l ∈ held, l ∈ H ∨ l < bitmapBlock i := by
    rintro l hl rfl
    constructor
    · rw [hl, lockedDown, if_pos (by rw [← hl, hb]; exact Nat.le_add_right ..)]
      rfl
    · intro x hx
      cases List.mem_append.mp hx with
      | inl hx =>
        have := (mem_lockedDown hx).2
        exact .inr (by omega)
      | inr hx => exact .inl hx
  obtain ⟨hi, -, hheld⟩ | ⟨hi, hlast, hheld⟩ := hs
  · exact hdown (l := 9) (by omega) hheld
  · have hb' := bitmapBlock_eq (i - 1)
    exact hdown (l := last) (by omega) hheld

theorem same (hs : Scanned H i last held) (h : bitmapBlock i = last) :
    held = lockedDown (bitmapBlock i) ++ H := by
  obtain ⟨rfl, rfl, -⟩ | ⟨-, -, hheld⟩ := hs
  · cases h
  · rw [h]
    exact hheld

theorem next : Scanned H (i + 1) (bitmapBlock i) (lockedDown (bitmapBlock i) ++ H) :=
  .inr ⟨Nat.succ_pos i, by rw [Nat.add_sub_cancel], rfl⟩

end Scanned

/-- Where the search stands before it looks at bit `i`. -/
structure Searching (H : List Nat) (v : Vol) (i last : Nat) (w : World) : Prop where
  vol : w.vol = v
  held : Scanned H i last w.held

theorem acquire_bitmap_ends (hs : Searching H v i last w) (hfree : bitmapBlock i ∉ H) :
    Prog.Ends World.answer (if bitmapBlock i ≠ last then acquire (bitmapBlock i) else pure ()) w
      fun _ w' => w'.held = lockedDown (bitmapBlock i) ++ H ∧ w'.vol = v := by
  split
  · next hne =>
    obtain ⟨hdown, hbelow⟩ := hs.held.cross hne
    have hnot : bitmapBlock i ∉ w.held := by
      intro h
      cases hbelow _ h with
      | inl h => exact hfree h
      | inr h => exact Nat.lt_irrefl _ h
    exact .call (World.answer_acquire rfl hnot) ⟨hdown.symm, hs.vol⟩
  · next heq => exact .pure ⟨hs.held.same (Classical.not_not.mp heq), hs.vol⟩

/-- Every held lock is that of a block in use, outside of the bitmap. -/
def HeldUsed (H : List Nat) (v : Vol) : Prop := ∀ l ∈ H, outsideBitmap l = true ∧ v.used l = true

theorem HeldUsed.offBitmap (hH : HeldUsed H v) : OffBitmap H := fun l hl => (hH l hl).1

namespace Vol.Fresh
variable {i : Nat}

theorem not_reserved (hi : v.Fresh i) (hv : v.Formatted) : ¬ Reserved i := by
  intro h
  have hused := hi.unused
  rw [hv i h] at hused
  exact Bool.noConfusion hused

theorem data (hi : v.Fresh i) (hv : v.Formatted) : outsideBitmap i = true := by
  have h := hi.not_reserved hv
  unfold Reserved at h
  rw [outsideBitmap_iff]
  omega

end Vol.Fresh

theorem put_locked_ends (hnot : i ∉ w.held) :
    Prog.Ends World.answer (withLock i (ecPut i buf)) w fun r w' =>
      r = .ok ∧ w'.held = w.held ∧ w'.disk = update w.disk i buf := by
  refine .bind (.call (World.answer_acquire rfl hnot) (.bind (.call rfl (.bind ?_))))
  exact .call (World.answer_release rfl) (.pure ⟨rfl, rfl, rfl⟩)

/-- The lock of a block that is not in use is free during the search. -/
theorem Vol.Fresh.not_locked (hi : v.Fresh i) (hv : v.Formatted) (hH : HeldUsed H v) :
    i ∉ lockedDown (bitmapBlock i) ++ H := by
  rw [List.mem_append]
  intro h
  cases h with
  | inl h =>
    have hd := hi.data hv
    have hm := mem_lockedDown h
    have hle := bitmapBlock_le hi.lt
    rw [outsideBitmap_iff] at hd
    omega
  | inr h =>
    have hu := (hH i h).2
    rw [hi.unused] at hu
    exact Bool.noConfusion hu

/-- The search passes over `k` bits that are set. -/
theorem putLoop_scan {ino k fuel : Nat} {Q : Status × Nat × Nat → World → Prop}
    (hs : Searching H v i last w) (hij : i + k = j) (hj : j ≤ volSize) (hset : ∀ l < j, v.used l = true)
    (hH : OffBitmap H)
    (hrest : ∀ last w, Searching H v j last w → Prog.Ends World.answer (putLoop ino buf fuel j last) w Q) :
    Prog.Ends World.answer (putLoop ino buf (fuel + k) i last) w Q := by
  induction k generalizing i last w with
  | zero =>
    obtain rfl : i = j := hij
    exact hrest last w hs
  | succ k ih =>
    have hi : i < volSize := by omega
    rw [← Nat.add_assoc, putLoop]
    refine .bind ((acquire_bitmap_ends hs (hH.not_mem hi)).mono fun _ w₁ h₁ => .bind (.call rfl ?_))
    obtain ⟨hheld, hvol⟩ := h₁
    have hbit : (w₁.disk (bitmapBlock i)).bit (i % bitmapPerBlock) = true := by
      rw [← usedIn_eq hi]
      change w₁.vol.used i = true
      rw [hvol]
      exact hset i (by omega)
    dsimp only
    rw [hbit, if_pos rfl]
    refine ih ⟨hvol, ?_⟩ (by omega)
    rw [hheld]
    exact Scanned.next

/-- The search ends at the first clear bit, with the block taken. -/
theorem putLoop_ends {ino fuel : Nat} (hs : Searching H v 0 last w) (hfuel : j < fuel)
    (hj : v.Fresh j) (hv : v.Formatted) (hH : HeldUsed H v) :
    Prog.Ends World.answer (putLoop ino buf fuel 0 last) w fun r w' =>
      r = (.ok, j, bitmapBlock j) ∧ w'.held = lockedDown (bitmapBlock j) ++ H ∧ w'.vol = v.alloc j buf := by
  obtain ⟨fuel, rfl⟩ : ∃ f, fuel = f + 1 + j := ⟨fuel - j - 1, by omega⟩
  refine putLoop_scan hs (Nat.zero_add j) hj.lt.le hj.first hH.offBitmap fun last w hs => ?_
  rw [putLoop]
  refine .bind ((acquire_bitmap_ends hs (hH.offBitmap.not_mem hj.lt)).mono fun _ w₁ h₁ => .bind (.call rfl ?_))
  obtain ⟨hheld, hvol⟩ := h₁
  subst hvol
  have hbit : (w₁.disk (bitmapBlock j)).bit (j % bitmapPerBlock) = false := by
    rw [← usedIn_eq hj.lt]
    exact hj.unused
  dsimp only
  rw [hbit, if_neg Bool.false_ne_true]
  refine .bind ((put_locked_ends (hheld ▸ hj.not_locked hv hH)).mono fun r w₂ h₂ => ?_)
  obtain ⟨rfl, hheld₂, hdisk⟩ := h₂
  rw [if_neg (fun h => h rfl)]
  refine .bind (.call rfl (.pure ⟨rfl, hheld₂.trans hheld, ?_⟩))
  have hne : bitmapBlock j ≠ j := bitmapBlock_ne hj.lt (hj.data hv)
  change volOf (update w₂.disk (bitmapBlock j) _) = ((volOf w₁.disk).write j buf).setUsed j true
  rw [← volOf_put (hj.data hv), ← volOf_setBit hj.lt, hdisk, update_of_ne hne]

namespace Vol
variable {i b : Nat} {d : Block}

theorem free_pos (hi : i < volSize) (h : v.used i = false) : 0 < v.free :=
  Finset.card_pos.mpr ⟨i, Finset.mem_filter.mpr ⟨Finset.mem_range.mpr hi, h⟩⟩

theorem exists_fresh (h : 0 < v.free) : ∃ i, v.Fresh i := by
  obtain ⟨i, hi⟩ := Finset.card_pos.mp h
  have hex : ∃ i, v.used i = false := ⟨i, (Finset.mem_filter.mp hi).2⟩
  have hle : Nat.find hex ≤ i := Nat.find_min' hex (Finset.mem_filter.mp hi).2
  refine ⟨Nat.find hex, ⟨?_, Nat.find_spec hex, ?_⟩⟩
  · exact Nat.lt_of_le_of_lt hle (Finset.mem_range.mp (Finset.mem_filter.mp hi).1)
  · intro j hj
    exact Bool.eq_true_of_not_eq_false (Nat.find_min hex hj)

theorem ne_of_used (hb : v.used b = true) (hi : v.used i = false) : b ≠ i := by
  rintro rfl
  rw [hb] at hi
  exact Bool.noConfusion hi

@[simp] theorem write_block_self : (v.write b d).block b = d := update_self ..
@[simp] theorem alloc_block_self : (v.alloc i d).block i = d := update_self ..
@[simp] theorem alloc_used_self : (v.alloc i d).used i = true := update_self ..

theorem write_block_ne (h : i ≠ b) : (v.write b d).block i = v.block i := update_of_ne h ..
theorem setUsed_used_ne {x : Bool} (h : j ≠ i) : (v.setUsed i x).used j = v.used j :=
  update_of_ne h ..
theorem alloc_block_ne (h : j ≠ i) : (v.alloc i d).block j = v.block j := update_of_ne h ..
theorem alloc_used_ne (h : j ≠ i) : (v.alloc i d).used j = v.used j := update_of_ne h ..

theorem alloc_used_of_used (h : v.used j = true) : (v.alloc i d).used j = true := by
  by_cases hj : j = i
  · rw [hj, alloc_used_self]
  · rw [alloc_used_ne hj, h]

theorem free_alloc (hi : v.Fresh i) : (v.alloc i d).free + 1 = v.free := by
  have hmem : i ∈ (Finset.range volSize).filter fun i => v.used i = false :=
    Finset.mem_filter.mpr ⟨Finset.mem_range.mpr hi.lt, hi.unused⟩
  have herase : ((Finset.range volSize).filter fun j => (v.alloc i d).used j = false) =
      ((Finset.range volSize).filter fun j => v.used j = false).erase i := by
    ext j
    rw [Finset.mem_erase, Finset.mem_filter, Finset.mem_filter]
    by_cases hj : j = i
    · simp [hj]
    · simp [hj, alloc_used_ne hj]
  rw [free, herase, Finset.card_erase_add_one hmem, free]

theorem drop_used_of_not_mem {bs : List Nat} (h : b ∉ bs) : (v.drop bs).used b = v.used b := by
  change (v.used b && decide (b ∉ bs)) = v.used b
  rw [decide_eq_true h, Bool.and_true]

theorem drop_used_iff {bs : List Nat} : (v.drop bs).used b = true ↔ v.used b = true ∧ b ∉ bs := by
  change (v.used b && decide (b ∉ bs)) = true ↔ _
  rw [Bool.and_eq_true, decide_eq_true_eq]

@[simp] theorem drop_nil : v.drop [] = v := by
  ext1
  · rfl
  · exact funext fun b => drop_used_of_not_mem List.not_mem_nil

theorem drop_drop {bs cs : List Nat} : (v.drop bs).drop cs = v.drop (bs ++ cs) := by
  ext1
  · rfl
  · funext b
    rw [Bool.eq_iff_iff, drop_used_iff, drop_used_iff, drop_used_iff, List.mem_append, not_or, and_assoc]

theorem drop_perm {bs cs : List Nat} (h : bs.Perm cs) : v.drop bs = v.drop cs := by
  ext1
  · rfl
  · funext b
    rw [Bool.eq_iff_iff, drop_used_iff, drop_used_iff, h.mem_iff]

theorem setUsed_false : v.setUsed i false = v.drop [i] := by
  ext1
  · rfl
  · funext b
    rw [Bool.eq_iff_iff, drop_used_iff, List.mem_singleton]
    by_cases hb : b = i
    · rw [hb]
      simp [setUsed]
    · rw [setUsed_used_ne hb]
      simp [hb]

theorem Formatted.alloc (hv : v.Formatted) : (v.alloc i d).Formatted := fun b hb =>
  alloc_used_of_used (hv b hb)

end Vol

/-- A new block is the first that is not in use. -/
theorem Does.putAdd {x : Nat} (hfree : 0 < v.free) (hv : v.Formatted) (hH : HeldUsed H v) :
    Does H v (put x buf true) fun r v' => ∃ i, v.Fresh i ∧ r = (.ok, i) ∧ v' = v.alloc i buf := by
  obtain ⟨i, hi⟩ := Vol.exists_fresh hfree
  intro w hw hwv
  rw [put, if_pos rfl]
  have hfuel : i < loopFuel := Nat.lt_trans hi.lt (by decide)
  refine .bind ((putLoop_ends ⟨hwv, .inl ⟨rfl, rfl, hw⟩⟩ hfuel hi hv hH).mono ?_)
  rintro r w' ⟨rfl, hheld, hvol⟩
  refine .bind ((releaseDown_ends hheld).mono ?_)
  rintro _ w'' ⟨hheld', hvol'⟩
  exact .pure ⟨hheld', i, hi, rfl, hvol'.trans hvol⟩

theorem Does.alloc {x g : Nat} (hfree : 0 < v.free) (hv : v.Formatted) (hH : HeldUsed H v) :
    Does H v (safePut x buf true g) fun r v' =>
      ∃ i, v.Fresh i ∧ r = (.ok, i) ∧ v' = v.alloc i buf := by
  rw [safePut, if_pos (.inl rfl)]
  exact .putAdd hfree hv hH

end Yfs.Fs

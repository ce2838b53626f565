import Yfs.Base.Procs
import Yfs.Fs.Locking

/-! Clients that share the locks and the blocks.

Any number of clients run their functions at the same time, and a turn is one call of one
of them. Locks are mutually exclusive, a client that asks for a lock that is held waits,
and a block read is the block last put by anyone.

Every function comes down to the bitmap: `get`, `put` and `remove` look at a bit or change
one under the lock of its block, and `put` with `add` keeps all the bitmap blocks locked
that it has gone through. So every argument about all interleavings starts in the same
way: while a client holds the lock of a bitmap block, it knows its content (`Bits`). A
`Logic` is what such an argument adds to that: what else a client knows, and what its
calls outside of the bitmap need and do. The functions on the bitmap are followed here
once for all of them (`Logic.bitOf`, `Logic.remove`, `Logic.add`), and so is what the
turns of the other clients leave of the known contents (`Logic.sound`). -/
namespace Yfs.Fs
open Yfs.Base
open Function (update update_eq_self_iff update_idem update_of_ne update_self)

/-- The blocks, and the client that holds each lock. -/
structure Shared (T : Type) where
  disk : Nat → Block
  owner : Nat → Option T

variable {α Q T X γ : Type}

/-- What a call of client `t` does, none where it is not answered; `o` is the time and
what an uninitialised buffer holds. -/
def Shared.answer [DecidableEq T] (t : T) (o : Nat × Block) : (c : Call) → Shared T → Option (c.Answer × Shared T)
  | .acquire l, s =>
    if s.owner l = none then some ((), { s with owner := update s.owner l (some t) }) else none
  | .release l, s =>
    if s.owner l = some t then some ((), { s with owner := update s.owner l none }) else none
  | .get b, s => some ((.ok, s.disk b), s)
  | .put b d, s => some (.ok, { s with disk := update s.disk b d })
  | .time, s => some (o.1, s)
  | .junk, s => some (o.2, s)
  | .hang, _ => none
  | .undefined, _ => none

/-- Clients that run requests of type `Q`. -/
abbrev Clients (α Q T : Type) := Procs Call.Answer α Q T (Shared T)

abbrev Clients.step [DecidableEq T] (code : Q → Code α) :
    Clients α Q T → Turn T Q (Nat × Block) → Option (Clients α Q T) :=
  Procs.step code Shared.answer

def Clients.start (disk : Nat → Block) : Clients α Q T := Procs.start ⟨disk, fun _ => none⟩

def Shared.locks (s : Shared T) (l : Nat) : Option T := if outsideBitmap l then s.owner l else none

theorem Shared.locks_of_outside {s : Shared T} {l : Nat} (h : outsideBitmap l = true) : s.locks l = s.owner l :=
  if_pos h

/-! ### What a client knows of the bitmap -/

/-- The contents of the bitmap blocks whose locks a client holds. -/
abbrev Bits := Nat → Option Block

def Bits.empty : Bits := fun _ => none

namespace Bits
variable {B : Bits} {b i l : Nat} {d : Block}

/-- Bit `i` is known to be `x`. -/
def Shows (B : Bits) (i : Nat) (x : Bool) : Prop :=
  ∃ d, B (bitmapBlock i) = some d ∧ d.bit (i % bitmapPerBlock) = x

def Full (B : Bits) : Prop := ∀ i < volSize, B.Shows i true

/-- The bitmap blocks up to `last` are locked. -/
def UpTo (B : Bits) (last : Nat) : Prop := ∀ b, B b ≠ none → bitmapBegin ≤ b ∧ b ≤ last

theorem Shows.update {x : Bool} (h : B.Shows i x) (hne : bitmapBlock i ≠ l) :
    Shows (update B l (some d)) i x := by
  obtain ⟨d', hd', hbit⟩ := h
  exact ⟨d', by rw [update_of_ne hne, hd'], hbit⟩

theorem update_none_of_empty : update (update Bits.empty l (some d)) l none = Bits.empty := by
  rw [update_idem, update_eq_self_iff]
  rfl

theorem UpTo.empty (h : B.UpTo 0) : B = Bits.empty := by
  funext b
  by_contra hb
  have := h b hb
  rw [bitmapBegin] at this
  omega

theorem UpTo.update {y : Option Block} (h : B.UpTo (bitmapBlock i)) :
    UpTo (update B (bitmapBlock i) y) (bitmapBlock i) := by
  intro b hb
  by_cases hbi : b = bitmapBlock i
  · rw [hbi]
    exact ⟨Nat.le_add_right .., Nat.le_refl _⟩
  · rw [update_of_ne hbi] at hb
    exact h b hb

end Bits

/-- What a client knows: the bitmap blocks it holds, and something else. -/
structure View (X : Type) where
  bits : Bits
  rest : X

/-- An argument about the calls outside of the bitmap, and about writing bitmap blocks. -/
structure Logic (X γ : Type) where
  /-- A bitmap block may be locked and unlocked. -/
  ready : X → Prop
  /-- The blocks that are known to be in use. -/
  inUse : X → Nat → Prop
  ok : Call → γ → View X → Prop
  next : (c : Call) → γ → View X → c.Answer → X → Prop

namespace Logic

/-- What a bitmap block can hold: the reserved blocks and those known to be in use have
their bits set. -/
def Fits (L : Logic X γ) (x : X) (l : Nat) (d : Block) : Prop :=
  ∀ b < volSize, bitmapBlock b = l → Reserved b ∨ L.inUse x b → d.bit (b % bitmapPerBlock) = true

/-- When a call may be made. Bitmap blocks are locked in ascending order, and a client
that knows all bits to be set takes no further lock. -/
def Ok (L : Logic X γ) : Call → γ → View X → Prop
  | .acquire l, g, v => v.bits.Full ∨
      if outsideBitmap l then L.ok (.acquire l) g v else L.ready v.rest ∧ ∀ b, v.bits b ≠ none → b < l
  | .release l, g, v => if outsideBitmap l then L.ok (.release l) g v else L.ready v.rest
  | .get b, g, v => v.bits b = none → L.ok (.get b) g v
  | .put b d, g, v => L.ok (.put b d) g v
  | _, _, _ => True

def Next (L : Logic X γ) : (c : Call) → γ → View X → c.Answer → View X → Prop
  | .acquire l, g, v, r, v' => ¬ v.bits.Full ∧
      if outsideBitmap l then v'.bits = v.bits ∧ L.next (.acquire l) g v r v'.rest
      else ∃ d, L.Fits v.rest l d ∧ v' = ⟨update v.bits l (some d), v.rest⟩
  | .release l, g, v, r, v' =>
      if outsideBitmap l then v'.bits = v.bits ∧ L.next (.release l) g v r v'.rest
      else v' = ⟨update v.bits l none, v.rest⟩
  | .get b, g, v, r, v' =>
      match v.bits b with
      | some d => r = (.ok, d) ∧ v' = v
      | none => v'.bits = v.bits ∧ L.next (.get b) g v r v'.rest
  | .put b d, g, v, r, v' => r = Status.ok ∧
      v'.bits = update v.bits b ((v.bits b).map fun _ => d) ∧ L.next (.put b d) g v r v'.rest
  | _, _, v, _, v' => v' = v

/-- What is known beside the bitmap stays as it is, or the argument has its say. -/
theorem Next.rest {L : Logic X γ} {c : Call} {g : γ} {v v' : View X} {r : c.Answer} (hok : L.Ok c g v)
    (hnext : L.Next c g v r v') : v'.rest = v.rest ∨ L.ok c g v ∧ L.next c g v r v'.rest := by
  cases c with
  | acquire l =>
    obtain ⟨hfull, hnext⟩ := hnext
    have hok := hok.resolve_left hfull
    split at hnext
    next hl =>
      rw [if_pos hl] at hok
      exact .inr ⟨hok, hnext.2⟩
    next =>
      obtain ⟨d, -, rfl⟩ := hnext
      exact .inl rfl
  | release l =>
    rw [Ok] at hok
    simp only [Next] at hnext
    split at hnext
    next hl =>
      rw [if_pos hl] at hok
      exact .inr ⟨hok, hnext.2⟩
    next => exact .inl (by rw [hnext])
  | get b =>
    simp only [Next] at hnext
    split at hnext
    next => exact .inl (by rw [hnext.2])
    next hb => exact .inr ⟨hok hb, hnext.2⟩
  | put b d => exact .inr ⟨hok, hnext.2.2⟩
  | time => exact .inl (congrArg View.rest hnext)
  | junk => exact .inl (congrArg View.rest hnext)
  | hang => exact r.elim
  | undefined => exact r.elim

/-- Every path of a client that knows `v`. -/
abbrev Path (L : Logic X γ) (p : Code α) (v : View X) (Q : α → View X → Prop) : Prop :=
  Prog.Paths L.Ok L.Next p v Q

/-! ### The search for a clear bit -/

variable {L : Logic X γ} {x : X} {B : Bits} {b i l : Nat} {d : Block}

/-- Where a search stands before it looks at bit `i`. -/
structure Search (L : Logic X γ) (x : X) (i last : Nat) (B : Bits) : Prop where
  last : i = 0 ∧ last = 2 ^ 64 - 1 ∧ B = .empty ∨ 0 < i ∧ last = bitmapBlock (i - 1) ∧ B.UpTo last
  set : ∀ j < i, B.Shows j true
  fits : ∀ b d, B b = some d → L.Fits x b d
  le : i ≤ volSize

namespace Search
variable {last : Nat}

/-- The lock of the next bitmap block is the first one beyond those that are held. -/
theorem lt_of_ne (h : L.Search x i last B) (hne : bitmapBlock i ≠ last) (hb : B b ≠ none) : b < bitmapBlock i := by
  obtain ⟨-, -, rfl⟩ | ⟨hi, rfl, hB⟩ := h.last
  · exact absurd rfl hb
  · have := (hB b hb).2
    rw [bitmapBlock_eq] at *
    rw [bitmapBlock_eq] at hne
    omega

theorem upTo (h : L.Search x i last B) : B.UpTo (bitmapBlock i) := by
  intro b hb
  obtain ⟨-, -, rfl⟩ | ⟨-, rfl, hB⟩ := h.last
  · exact absurd rfl hb
  · refine ⟨(hB b hb).1, Nat.le_trans (hB b hb).2 ?_⟩
    rw [bitmapBlock_eq, bitmapBlock_eq]
    omega

theorem known_of_eq (h : L.Search x i last B) (heq : bitmapBlock i = last) : ∃ d, B (bitmapBlock i) = some d := by
  obtain ⟨rfl, rfl, -⟩ | ⟨hi, rfl, -⟩ := h.last
  · cases heq
  · obtain ⟨d, hd, -⟩ := h.set (i - 1) (by omega)
    exact ⟨d, by rw [heq, hd]⟩

end Search

/-- The bitmap block of bit `i` is locked, and those before it. -/
structure At (L : Logic X γ) (x : X) (i : Nat) (B : Bits) (d : Block) : Prop where
  upTo : B.UpTo (bitmapBlock i)
  known : B (bitmapBlock i) = some d
  set : ∀ j < i, B.Shows j true
  fits : ∀ b d, B b = some d → L.Fits x b d
  lt : i < volSize

theorem At.next (h : L.At x i B d) (hbit : d.bit (i % bitmapPerBlock) = true) :
    L.Search x (i + 1) (bitmapBlock i) B where
  last := .inr ⟨Nat.succ_pos i, by rw [Nat.add_sub_cancel], h.upTo⟩
  set j hj := by
    by_cases hji : j = i
    · rw [hji]
      exact ⟨d, h.known, hbit⟩
    · exact h.set j (by omega)
  fits := h.fits
  le := h.lt

theorem At.not_reserved (h : L.At x i B d) (hbit : d.bit (i % bitmapPerBlock) = false) : ¬ Reserved i := by
  intro hres
  have := h.fits _ d h.known i h.lt rfl (.inl hres)
  rw [hbit] at this
  cases this

theorem outside_of_not_reserved (h : ¬ Reserved i) : outsideBitmap i = true := by
  unfold Reserved at h
  rw [outsideBitmap_iff]
  omega

theorem At.none_of_outside {j : Nat} (h : L.At x i B d) (hj : outsideBitmap j = true) : B j = none := by
  by_contra hne
  have hmem := h.upTo j hne
  have hle := bitmapBlock_le h.lt
  have hout := outsideBitmap_iff.mp hj
  rw [bitmapBegin] at hmem
  omega

/-! ### Calls outside of the bitmap -/

theorem acquire_outside {Q : Unit → View X → Prop} (g : γ) (hl : outsideBitmap l = true)
    (hok : L.ok (.acquire l) g ⟨B, x⟩) (hQ : ∀ x', L.next (.acquire l) g ⟨B, x⟩ () x' → Q () ⟨B, x'⟩) :
    L.Path (Fs.acquire l) ⟨B, x⟩ Q := by
  refine .call g (.inr ?_) ?_
  · rw [if_pos hl]
    exact hok
  · rintro _ ⟨_, x'⟩ ⟨-, hnext⟩
    rw [if_pos hl] at hnext
    obtain ⟨rfl, hnext⟩ := hnext
    exact hQ x' hnext

theorem release_outside {Q : Unit → View X → Prop} (g : γ) (hl : outsideBitmap l = true)
    (hok : L.ok (.release l) g ⟨B, x⟩) (hQ : ∀ x', L.next (.release l) g ⟨B, x⟩ () x' → Q () ⟨B, x'⟩) :
    L.Path (Fs.release l) ⟨B, x⟩ Q := by
  refine .call g ?_ ?_
  · rw [Ok, if_pos hl]
    exact hok
  rintro _ ⟨_, x'⟩ hnext
  simp only [Next, if_pos hl] at hnext
  obtain ⟨rfl, hnext⟩ := hnext
  exact hQ x' hnext

theorem get_outside {Q : Status × Block → View X → Prop} (g : γ) (hb : B b = none)
    (hok : L.ok (.get b) g ⟨B, x⟩) (hQ : ∀ r x', L.next (.get b) g ⟨B, x⟩ r x' → Q r ⟨B, x'⟩) :
    L.Path (ecGet b) ⟨B, x⟩ Q := by
  refine .call g (fun _ => hok) ?_
  rintro r ⟨_, x'⟩ hnext
  simp only [Next, hb] at hnext
  obtain ⟨rfl, hnext⟩ := hnext
  exact hQ r x' hnext

theorem put_outside {Q : Status → View X → Prop} (g : γ) (hb : B b = none)
    (hok : L.ok (.put b d) g ⟨B, x⟩) (hQ : ∀ x', L.next (.put b d) g ⟨B, x⟩ .ok x' → Q .ok ⟨B, x'⟩) :
    L.Path (ecPut b d) ⟨B, x⟩ Q := by
  refine .call g hok ?_
  rintro _ ⟨B', x'⟩ ⟨rfl, hB', hnext⟩
  obtain rfl : B' = B := by
    change B' = update B b ((B b).map fun _ => d) at hB'
    rwa [hb, Option.map_none, update_eq_self_iff.mpr hb.symm] at hB'
  exact hQ x' hnext

/-! ### The functions on the bitmap -/

section
variable [Inhabited γ]

theorem acquire_bitmap {Q : Unit → View X → Prop} (hx : L.ready x) (hl : outsideBitmap l = false)
    (hB : ∀ b, B b ≠ none → b < l) (hQ : ∀ d, L.Fits x l d → Q () ⟨update B l (some d), x⟩) :
    L.Path (acquire l) ⟨B, x⟩ Q := by
  refine .call default (.inr ?_) ?_
  · rw [if_neg (Bool.eq_false_iff.mp hl)]
    exact ⟨hx, hB⟩
  · rintro _ v' ⟨-, hnext⟩
    rw [if_neg (Bool.eq_false_iff.mp hl)] at hnext
    obtain ⟨d, hd, rfl⟩ := hnext
    exact hQ d hd

theorem release_bitmap {Q : Unit → View X → Prop} (hx : L.ready x) (hl : outsideBitmap l = false)
    (hQ : Q () ⟨update B l none, x⟩) : L.Path (release l) ⟨B, x⟩ Q := by
  refine .call default ?_ ?_
  · rw [Ok, if_neg (Bool.eq_false_iff.mp hl)]
    exact hx
  · rintro _ v' hnext
    rw [Next, if_neg (Bool.eq_false_iff.mp hl)] at hnext
    rw [hnext]
    exact hQ

theorem get_bitmap {Q : Status × Block → View X → Prop} (hB : B b = some d) (hQ : Q (.ok, d) ⟨B, x⟩) :
    L.Path (ecGet b) ⟨B, x⟩ Q := by
  refine .call default (fun h => ?_) ?_
  · cases hB.symm.trans h
  · rintro r v' hnext
    simp only [Next, hB] at hnext
    rw [hnext.1, hnext.2]
    exact hQ

omit [Inhabited γ] in
theorem put_bitmap {Q : Status → View X → Prop} {d' : Block} (g : γ) (hB : B b = some d)
    (hok : L.ok (.put b d') g ⟨B, x⟩)
    (hQ : ∀ x', L.next (.put b d') g ⟨B, x⟩ .ok x' → Q .ok ⟨update B b (some d'), x'⟩) :
    L.Path (ecPut b d') ⟨B, x⟩ Q := by
  refine .call g hok ?_
  rintro _ ⟨B', x'⟩ ⟨rfl, hB', hnext⟩
  obtain rfl : B' = update B b (some d') := by
    change B' = update B b ((B b).map fun _ => d') at hB'
    rwa [hB] at hB'
  exact hQ x' hnext

theorem bitOf (hx : L.ready x) (hb : b < volSize) :
    L.Path (bitOf b) ⟨.empty, x⟩ fun set v => v = ⟨.empty, x⟩ ∧
      ∃ d, L.Fits x (bitmapBlock b) d ∧ set = d.bit (b % bitmapPerBlock) := by
  have hl := bitmapBlock_inside hb
  refine .bind (.bind (acquire_bitmap hx hl nofun fun d hd => .bind ?_))
  refine get_bitmap (update_self ..) (.bind (release_bitmap hx hl (.pure (.pure ⟨?_, d, hd, rfl⟩))))
  rw [Bits.update_none_of_empty]

theorem bitOf_inUse (hx : L.ready x) (hb : b < volSize) (huse : L.inUse x b) :
    L.Path (Fs.bitOf b) ⟨.empty, x⟩ fun set v => set = true ∧ v = ⟨.empty, x⟩ := by
  refine (L.bitOf hx hb).mono ?_
  rintro _ _ ⟨rfl, d, hd, rfl⟩
  exact ⟨hd b hb rfl (.inr huse), rfl⟩

theorem remove {Q : X → Prop} (hx : L.ready x) (hb : b < volSize)
    (hput : ∀ d, L.Fits x (bitmapBlock b) d → ∃ g,
      L.ok (.put (bitmapBlock b) (d.clearBit (b % bitmapPerBlock))) g
        ⟨update Bits.empty (bitmapBlock b) (some d), x⟩ ∧
      ∀ x', L.next (.put (bitmapBlock b) (d.clearBit (b % bitmapPerBlock))) g
        ⟨update Bits.empty (bitmapBlock b) (some d), x⟩ .ok x' → L.ready x' ∧ Q x') :
    L.Path (remove b) ⟨.empty, x⟩ fun r v => r = .ok ∧ v.bits = .empty ∧ Q v.rest := by
  have hl := bitmapBlock_inside hb
  refine .bind (acquire_bitmap hx hl nofun fun d hd => .bind (.bind ?_))
  obtain ⟨g, hok, hnext⟩ := hput d hd
  refine get_bitmap (update_self ..) (.bind (put_bitmap g (update_self ..) hok ?_))
  intro x' hx'
  obtain ⟨hready, hQ⟩ := hnext x' hx'
  refine .pure (.bind (release_bitmap hready hl (.pure ⟨rfl, ?_, hQ⟩)))
  rw [update_idem, Bits.update_none_of_empty]

/-- Each bitmap block is locked when its first bit is looked at. After the last one the
client knows all bits to be set. -/
theorem Search.acquire {last : Nat} {Q : Unit → View X → Prop} (h : L.Search x i last B) (hx : L.ready x)
    (hQ : ∀ B' d, L.At x i B' d → Q () ⟨B', x⟩) :
    L.Path (if bitmapBlock i ≠ last then Fs.acquire (bitmapBlock i) else pure ()) ⟨B, x⟩ Q := by
  by_cases hfull : i = volSize
  · have hB : B.Full := fun j hj => h.set j (by omega)
    have hne : bitmapBlock i ≠ last := by
      rw [hfull]
      obtain ⟨rfl, -⟩ | ⟨-, rfl, -⟩ := h.last
      · cases hfull
      · rw [hfull]
        decide
    rw [if_pos hne]
    refine .call default (.inl hB) ?_
    rintro _ v' ⟨hnot, -⟩
    exact absurd hB hnot
  · have hi : i < volSize := Nat.lt_of_le_of_ne h.le hfull
    split
    next hne =>
      refine acquire_bitmap hx (bitmapBlock_inside hi) (fun b hb => h.lt_of_ne hne hb) fun d hd => hQ _ d ?_
      refine ⟨h.upTo.update, update_self .., fun j hj => ?_, fun b d' hd' => ?_, hi⟩
      · refine (h.set j hj).update fun heq => ?_
        obtain ⟨d', hd', -⟩ := h.set j hj
        have := h.lt_of_ne hne (b := bitmapBlock j) (by rw [hd']; nofun)
        omega
      · by_cases hbi : b = bitmapBlock i
        · rw [hbi, update_self] at hd'
          cases hd'
          rwa [hbi]
        · rw [update_of_ne hbi] at hd'
          exact h.fits b d' hd'
    next heq =>
      have heq := Classical.not_not.mp heq
      obtain ⟨d, hd⟩ := h.known_of_eq heq
      exact .pure (hQ B d ⟨h.upTo, hd, h.set, h.fits, hi⟩)

theorem releaseDown {last : Nat} (hx : L.ready x) (hB : B.UpTo last) (hlast : last ≤ bitmapEnd) :
    L.Path (releaseDown last) ⟨B, x⟩ fun _ v => v = ⟨.empty, x⟩ := by
  induction last generalizing B with
  | zero =>
    refine .pure ?_
    rw [hB.empty]
  | succ last ih =>
    unfold Fs.releaseDown
    split
    next hle =>
      have hin : outsideBitmap (last + 1) = false := by
        rw [Bool.eq_false_iff, ne_eq, outsideBitmap_iff]
        rw [bitmapBegin] at hle
        rw [bitmapEnd] at hlast
        omega
      refine .bind (release_bitmap hx hin (ih (fun b hb => ?_) (Nat.le_of_succ_le hlast)))
      by_cases hbl : b = last + 1
      · rw [hbl, update_self] at hb
        exact absurd rfl hb
      · rw [update_of_ne hbl] at hb
        have := hB b hb
        omega
    next hlt =>
      refine .pure ?_
      have hempty : B = .empty := by
        funext b
        by_contra hb
        have := hB b hb
        omega
      rw [hempty]

/-- A new block, where the argument can follow what happens at the first clear bit: the
block is written under its lock, and then the bit is set. -/
theorem add {buf : Block} {Q : Nat → X → Prop} (hx : L.ready x)
    (hcand : ∀ i B d, L.At x i B d → d.bit (i % bitmapPerBlock) = false → ¬ Reserved i →
      L.Path (withLock i (ecPut i buf)) ⟨B, x⟩ fun r v => r = .ok ∧ v.bits = B ∧ ∃ g,
        L.ok (.put (bitmapBlock i) (d.setBit (i % bitmapPerBlock))) g v ∧
        ∀ x', L.next (.put (bitmapBlock i) (d.setBit (i % bitmapPerBlock))) g v .ok x' → L.ready x' ∧ Q i x') :
    L.Path (put b buf true) ⟨.empty, x⟩ fun r v => ∃ i, r = (.ok, i) ∧ v.bits = .empty ∧ Q i v.rest := by
  have hloop : ∀ fuel i last B, L.Search x i last B → L.Path (putLoop b buf fuel i last) ⟨B, x⟩ fun r v =>
      ∃ i, r = (.ok, i, bitmapBlock i) ∧ i < volSize ∧ v.bits.UpTo (bitmapBlock i) ∧ L.ready v.rest ∧ Q i v.rest := by
    intro fuel
    induction fuel with
    | zero => exact fun _ _ _ _ => ⟨default, trivial, fun r => r.elim⟩
    | succ fuel ih =>
      intro i last B hs
      unfold putLoop
      refine .bind (hs.acquire hx fun B' d hat => .bind (get_bitmap hat.known ?_))
      dsimp only
      split
      next hbit => exact ih _ _ _ (hat.next hbit)
      next hbit =>
        have hbit := Bool.eq_false_iff.mpr hbit
        refine .bind ((hcand i B' d hat hbit (hat.not_reserved hbit)).mono ?_)
        rintro _ ⟨_, x₁⟩ ⟨rfl, rfl, g, hok, hnext⟩
        rw [if_neg (fun h => h rfl)]
        refine .bind (put_bitmap g hat.known hok fun x₂ hx₂ => .pure ?_)
        exact ⟨i, rfl, hat.lt, hat.upTo.update, hnext x₂ hx₂⟩
  unfold Fs.put
  rw [if_pos rfl]
  have hstart : L.Search x 0 (2 ^ 64 - 1) .empty :=
    ⟨.inl ⟨rfl, rfl, rfl⟩, fun _ hj => absurd hj (Nat.not_lt_zero _), (fun _ _ hd => by cases hd), Nat.zero_le _⟩
  refine .bind ((hloop _ 0 _ _ hstart).mono ?_)
  rintro _ ⟨B, x'⟩ ⟨i, rfl, hi, hB, hready, hQ⟩
  refine .bind ((releaseDown hready hB (bitmapBlock_le hi)).mono ?_)
  rintro _ _ rfl
  exact .pure ⟨i, rfl, rfl, hQ⟩

end
end Logic

/-! ### What the turns of others leave -/

section
variable [DecidableEq T]

/-- What client `t` knows of the bitmap. -/
def Shared.bits (s : Shared T) (t : T) : Bits := fun b =>
  if outsideBitmap b = false ∧ s.owner b = some t then some (s.disk b) else none

namespace Shared
variable {s : Shared T} {t t' : T} {b i l : Nat} {d : Block} {x : Bool}

theorem bits_eq_some : s.bits t b = some d ↔ (outsideBitmap b = false ∧ s.owner b = some t) ∧ s.disk b = d := by
  rw [bits, Option.ite_none_right_eq_some, Option.some.injEq]

theorem bits_eq_none : s.bits t b = none ↔ ¬ (outsideBitmap b = false ∧ s.owner b = some t) := by
  rw [bits]
  split
  next h => exact ⟨nofun, fun hnot => absurd h hnot⟩
  next h => exact ⟨fun _ => h, fun _ => rfl⟩

theorem usedIn_of_shows (h : (s.bits t).Shows i x) (hi : i < volSize) : usedIn s.disk i = x := by
  obtain ⟨d, hd, hbit⟩ := h
  rw [usedIn_eq hi, (bits_eq_some.mp hd).2, hbit]

theorem not_full (h : ∃ i < volSize, usedIn s.disk i = false) : ¬ (s.bits t).Full := by
  obtain ⟨i, hi, hclear⟩ := h
  intro hfull
  rw [usedIn_of_shows (hfull i hi) hi] at hclear
  cases hclear

theorem bits_lock (hl : outsideBitmap l = true) (y : Option T) :
    bits { s with owner := update s.owner l y } = s.bits := by
  funext t' b
  by_cases hb : b = l
  · simp only [bits, hb, hl, Bool.true_eq_false, false_and, if_false]
  · simp only [bits, update_of_ne hb]

theorem bits_acquire (hl : outsideBitmap l = false) :
    bits { s with owner := update s.owner l (some t) } t =
      update (s.bits t) l (some (s.disk l)) := by
  funext b
  by_cases hb : b = l
  · rw [hb, update_self, bits_eq_some]
    exact ⟨⟨hl, update_self ..⟩, rfl⟩
  · simp only [bits, update_of_ne hb]

theorem bits_acquire_ne (hfree : s.owner l = none) (ht : t' ≠ t) :
    bits { s with owner := update s.owner l (some t) } t' = s.bits t' := by
  funext b
  by_cases hb : b = l
  · simp [bits, hb, hfree, ht.symm]
  · simp only [bits, update_of_ne hb]

theorem bits_release :
    bits { s with owner := update s.owner l none } t = update (s.bits t) l none := by
  funext b
  by_cases hb : b = l
  · simp [bits, hb]
  · simp only [bits, update_of_ne hb]

theorem bits_release_ne (hown : s.owner l = some t) (ht : t' ≠ t) :
    bits { s with owner := update s.owner l none } t' = s.bits t' := by
  funext b
  by_cases hb : b = l
  · simp [bits, hb, hown, ht.symm]
  · simp only [bits, update_of_ne hb]

theorem bits_put :
    bits { s with disk := update s.disk b d } t =
      update (s.bits t) b ((s.bits t b).map fun _ => d) := by
  funext b'
  by_cases hb : b' = b
  · simp only [bits, hb, update_self]
    split
    · rfl
    · rfl
  · simp only [bits, update_of_ne hb]

theorem bits_put_ne (hown : outsideBitmap b = false → s.owner b = some t) (ht : t' ≠ t) :
    bits { s with disk := update s.disk b d } t' = s.bits t' := by
  funext b'
  by_cases hb : b' = b
  · have hnot : ¬ (outsideBitmap b = false ∧ s.owner b = some t') := by
      rintro ⟨hin, howner⟩
      rw [hown hin] at howner
      exact ht (Option.some.inj howner).symm
    simp only [bits, hb, if_neg hnot]
  · simp only [bits, update_of_ne hb]

omit [DecidableEq T] in
theorem locks_update (hl : outsideBitmap l = true) (y : Option T) :
    locks { s with owner := update s.owner l y } = update s.locks l y := by
  funext l'
  by_cases hl' : l' = l
  · rw [hl', update_self, locks_of_outside hl]
    exact update_self ..
  · simp only [locks, update_of_ne hl']

omit [DecidableEq T] in
theorem locks_bitmap (hl : outsideBitmap l = false) (y : Option T) :
    locks { s with owner := update s.owner l y } = s.locks := by
  funext l'
  by_cases hl' : l' = l
  · simp [locks, hl', hl]
  · simp only [locks, update_of_ne hl']

end Shared

def rests (vs : T → Option (View X)) (t : T) : Option X := (vs t).map View.rest

def bitsOf (vs : T → Option (View X)) (t : T) : Bits := (vs t).elim Bits.empty View.bits

theorem rests_update (vs : T → Option (View X)) (t : T) (v : Option (View X)) :
    rests (update vs t v) = update (rests vs) t (v.map View.rest) := by
  funext t'
  by_cases ht : t' = t
  · rw [rests, ht, update_self, update_self]
  · rw [rests, update_of_ne ht, update_of_ne ht, rests]

/-- The views know of the bitmap what the clients can, and `I` holds of the rest. -/
structure Stands (I : Vol → (Nat → Option T) → (T → Bits) → (T → Option X) → List (Mark T Q α) → Prop)
    (s : Clients α Q T) (vs : T → Option (View X)) : Prop where
  bits : ∀ t, bitsOf vs t = s.shared.bits t
  inv : I (volOf s.shared.disk) s.shared.locks s.shared.bits (rests vs) s.log

namespace Stands
variable {I : Vol → (Nat → Option T) → (T → Bits) → (T → Option X) → List (Mark T Q α) → Prop} {s s' : Clients α Q T}
  {vs : T → Option (View X)} {t : T} {v : View X}

theorem view_eq (h : Stands I s vs) (hv : vs t = some v) : v = ⟨s.shared.bits t, v.rest⟩ := by
  rw [← h.bits t, bitsOf, hv]
  rfl

omit [DecidableEq T] in
theorem rest_eq (hv : vs t = some v) : rests vs t = some v.rest := by
  rw [rests, hv]
  rfl

theorem update {v' : Option (View X)} (h : Stands I s vs)
    (hself : s'.shared.bits t = v'.elim Bits.empty View.bits)
    (hother : ∀ t', t' ≠ t → s'.shared.bits t' = s.shared.bits t')
    (hinv : I (volOf s'.shared.disk) s'.shared.locks s'.shared.bits (Function.update (rests vs) t (v'.map View.rest))
      s'.log) :
    Stands I s' (Function.update vs t v') where
  bits t' := by
    by_cases ht : t' = t
    · rw [bitsOf, ht, update_self, hself]
    · rw [bitsOf, update_of_ne ht, hother t' ht, ← h.bits t', bitsOf]
  inv := by
    rw [rests_update]
    exact hinv

end Stands

/-- What the clients know goes with the requests that they run. -/
def Agree (About : Q → X → Prop) (s : Clients α Q T) (xs : T → Option X) : Prop :=
  ∀ t x, xs t = some x → ∃ q p, s.running t = some (q, p) ∧ About q x

/-- What an argument has to show of its invariant `I`, where every turn meets `cond`, and of
what is known about each request. -/
structure Logic.Sound (L : Q → Logic X γ) (code : Q → Code α) (cond : Clients α Q T → Turn T Q (Nat × Block) → Prop)
    (I : Vol → (Nat → Option T) → (T → Bits) → (T → Option X) → List (Mark T Q α) → Prop) (Post : Q → α → X → Prop)
    (About : Q → X → Prop) : Prop where
  about : ∀ q c g v r x', (L q).ok c g v → (L q).next c g v r x' → About q v.rest → About q x'
  /-- Some bit is clear. -/
  free : ∀ s t o, cond s (.go t o) → ∃ i < volSize, usedIn s.shared.disk i = false
  used : ∀ v locks bits xs log t q x b, I v locks bits xs log → xs t = some x → Reserved b ∨ (L q).inUse x b →
    v.used b = true
  /-- A client locks or unlocks a bitmap block. -/
  bitmap : ∀ v locks bits bits' xs log t q x, I v locks bits xs log → xs t = some x → (L q).ready x →
    (∀ t', t' ≠ t → bits' t' = bits t') → I v locks bits' xs log
  call : ∀ (s : Clients α Q T) xs t q, I (volOf s.shared.disk) s.shared.locks s.shared.bits xs s.log →
    cond s (.call t q) → xs t = none →
    ∃ x, (L q).Path (code q) ⟨.empty, x⟩ (fun a v => v.bits = .empty ∧ Post q a v.rest) ∧ About q x ∧
      I (volOf s.shared.disk) s.shared.locks s.shared.bits (update xs t (some x)) (.called t q :: s.log)
  finish : ∀ v locks bits xs log t q a x, I v locks bits xs log → xs t = some x → Post q a x →
    I v locks bits (update xs t none) (.returned t q a :: log)
  acquire : ∀ (s : Clients α Q T) xs t o q l k g x, I (volOf s.shared.disk) s.shared.locks s.shared.bits xs s.log →
    Agree About s xs → cond s (.go t o) → s.running t = some (q, .op (.acquire l) k) → xs t = some x →
    outsideBitmap l = true →
    s.shared.locks l = none → (L q).ok (.acquire l) g ⟨s.shared.bits t, x⟩ →
    ∃ x', (L q).next (.acquire l) g ⟨s.shared.bits t, x⟩ () x' ∧
      I (volOf s.shared.disk) (update s.shared.locks l (some t)) s.shared.bits (update xs t (some x'))
        s.log
  release : ∀ (s : Clients α Q T) xs t q l g x, I (volOf s.shared.disk) s.shared.locks s.shared.bits xs s.log →
    xs t = some x → outsideBitmap l = true → s.shared.locks l = some t →
    (L q).ok (.release l) g ⟨s.shared.bits t, x⟩ →
    ∃ x', (L q).next (.release l) g ⟨s.shared.bits t, x⟩ () x' ∧
      I (volOf s.shared.disk) (update s.shared.locks l none) s.shared.bits (update xs t (some x')) s.log
  get : ∀ (s : Clients α Q T) xs t q b g x, I (volOf s.shared.disk) s.shared.locks s.shared.bits xs s.log →
    xs t = some x → s.shared.bits t b = none → (L q).ok (.get b) g ⟨s.shared.bits t, x⟩ →
    ∃ x', (L q).next (.get b) g ⟨s.shared.bits t, x⟩ (.ok, s.shared.disk b) x' ∧
      I (volOf s.shared.disk) s.shared.locks s.shared.bits (update xs t (some x')) s.log
  /-- A bitmap block is put under its lock. -/
  put : ∀ (s : Clients α Q T) xs t o q b d k g x, I (volOf s.shared.disk) s.shared.locks s.shared.bits xs s.log →
    cond s (.go t o) → s.running t = some (q, .op (.put b d) k) → xs t = some x →
    (L q).ok (.put b d) g ⟨s.shared.bits t, x⟩ → (outsideBitmap b = false → s.shared.owner b = some t) ∧
    ∃ x', (L q).next (.put b d) g ⟨s.shared.bits t, x⟩ .ok x' ∧
      I (volOf (update s.shared.disk b d)) s.shared.locks
        (Shared.bits { s.shared with disk := update s.shared.disk b d }) (update xs t (some x')) s.log

namespace Logic.Sound
variable {L : Q → Logic X γ} {code : Q → Code α} {cond : Clients α Q T → Turn T Q (Nat × Block) → Prop}
  {I : Vol → (Nat → Option T) → (T → Bits) → (T → Option X) → List (Mark T Q α) → Prop} {Post : Q → α → X → Prop}
  {About : Q → X → Prop}

theorem turn (hL : Logic.Sound L code cond I Post About) {s : Clients α Q T} {vs : T → Option (View X)} {t : T}
    {o : Nat × Block}
    {q : Q} {c : Call} {k : c.Answer → Code α} {v : View X} {g : γ} {r : c.Answer} {y : Shared T}
    (h : Stands I s vs) (hagree : Agree About s (rests vs)) (hcond : cond s (.go t o)) (hv : vs t = some v)
    (hrun : s.running t = some (q, .op c k))
    (hok : (L q).Ok c g v) (hans : Shared.answer t o c s.shared = some (r, y)) :
    ∃ v', (L q).Next c g v r v' ∧ Stands I (s.advance t q (k r) y) (update vs t (some v')) := by
  have hx := Stands.rest_eq hv
  have hv' := h.view_eq hv
  generalize v.rest = x at hx hv'
  subst hv'
  have hfull := Shared.not_full (t := t) (hL.free s t o hcond)
  have hself : update (rests vs) t (some x) = rests vs := update_eq_self_iff.mpr hx.symm
  have hsame : ∀ {k : Code α}, Stands I (s.advance t q k s.shared) (update vs t (some ⟨s.shared.bits t, x⟩)) :=
    h.update rfl (fun _ _ => rfl) (hself.symm ▸ h.inv)
  cases c with
  | acquire l =>
    rw [Shared.answer] at hans
    split at hans
    next hfree =>
      cases hans
      by_cases hl : outsideBitmap l = true
      · have hok := hok.resolve_left hfull
        rw [if_pos hl] at hok
        have hlock : s.shared.locks l = none := (Shared.locks_of_outside hl).trans hfree
        have hbits := Shared.bits_lock (s := s.shared) hl (some t)
        obtain ⟨x', hnext, hI⟩ := hL.acquire s _ t o q l k g x h.inv hagree hcond hrun hx hl hlock hok
        refine ⟨⟨s.shared.bits t, x'⟩, ⟨hfull, ?_⟩, h.update (congrFun hbits t) (fun t' _ => congrFun hbits t') ?_⟩
        · rw [if_pos hl]
          exact ⟨rfl, hnext⟩
        · rw [← Shared.locks_update hl, ← hbits] at hI
          exact hI
      · have hl' := Bool.eq_false_iff.mpr hl
        refine ⟨⟨update (s.shared.bits t) l (some (s.shared.disk l)), x⟩, ⟨hfull, ?_⟩,
          h.update (Shared.bits_acquire hl') (fun t' ht' => Shared.bits_acquire_ne hfree ht') ?_⟩
        · rw [if_neg hl]
          refine ⟨_, fun b hb hbl huse => ?_, rfl⟩
          rw [← hbl, ← usedIn_eq hb]
          exact hL.used _ _ _ _ _ t q x b h.inv hx huse
        · have hok := hok.resolve_left hfull
          rw [if_neg hl] at hok
          have := hL.bitmap _ _ _ _ _ _ t q x h.inv hx hok.1 fun t' ht' => Shared.bits_acquire_ne (l := l) hfree ht'
          rw [← Shared.locks_bitmap hl' (some t)] at this
          exact hself.symm ▸ this
    next => cases hans
  | release l =>
    rw [Shared.answer] at hans
    split at hans
    next hown =>
      cases hans
      by_cases hl : outsideBitmap l = true
      · have hlock : s.shared.locks l = some t := (Shared.locks_of_outside hl).trans hown
        rw [Ok, if_pos hl] at hok
        have hbits := Shared.bits_lock (s := s.shared) hl none
        obtain ⟨x', hnext, hI⟩ := hL.release s _ t q l g x h.inv hx hl hlock hok
        refine ⟨⟨s.shared.bits t, x'⟩, ?_, h.update (congrFun hbits t) (fun t' _ => congrFun hbits t') ?_⟩
        · simp only [Next, if_pos hl]
          exact ⟨trivial, hnext⟩
        · rw [← Shared.locks_update hl, ← hbits] at hI
          exact hI
      · rw [Ok, if_neg hl] at hok
        refine ⟨⟨update (s.shared.bits t) l none, x⟩, ?_,
          h.update Shared.bits_release (fun t' ht' => Shared.bits_release_ne hown ht') ?_⟩
        · simp only [Next, if_neg hl]
        · have := hL.bitmap _ _ _ _ _ _ t q x h.inv hx hok fun t' ht' => Shared.bits_release_ne (l := l) hown ht'
          rw [← Shared.locks_bitmap (Bool.eq_false_iff.mpr hl) none] at this
          exact hself.symm ▸ this
    next => cases hans
  | get b =>
    cases hans
    cases hb : s.shared.bits t b with
    | some d =>
      refine ⟨⟨s.shared.bits t, x⟩, ?_, hsame⟩
      simp only [Next, hb]
      rw [(Shared.bits_eq_some.mp hb).2]
      exact ⟨rfl, trivial⟩
    | none =>
      obtain ⟨x', hnext, hI⟩ := hL.get s _ t q b g x h.inv hx hb (hok hb)
      refine ⟨⟨s.shared.bits t, x'⟩, ?_, h.update rfl (fun _ _ => rfl) hI⟩
      simp only [Next, hb]
      exact ⟨trivial, hnext⟩
  | put b d =>
    cases hans
    obtain ⟨hown, x', hnext, hI⟩ := hL.put s _ t o q b d k g x h.inv hcond hrun hx hok
    exact ⟨⟨_, x'⟩, ⟨rfl, rfl, hnext⟩, h.update Shared.bits_put (fun t' ht' => Shared.bits_put_ne hown ht') hI⟩
  | time =>
    cases hans
    exact ⟨_, rfl, hsame⟩
  | junk =>
    cases hans
    exact ⟨_, rfl, hsame⟩
  | hang => cases hans
  | undefined => cases hans

omit [DecidableEq T] in
theorem rests_eq_some {vs : T → Option (View X)} {t : T} {x : X} (h : rests vs t = some x) :
    ∃ v, vs t = some v ∧ v.rest = x := Option.map_eq_some_iff.mp h

/-- One client runs something else, and the others what they ran. -/
theorem agree_update {s s' : Clients α Q T} {vs : T → Option (View X)} {t : T} {r : Option (Q × Code α)}
    {v : Option (View X)} (h : Agree About s (rests vs)) (hrun : s'.running = update s.running t r)
    (hv : ∀ v', v = some v' → ∃ q p, r = some (q, p) ∧ About q v'.rest) : Agree About s' (rests (update vs t v)) := by
  intro t' x hx
  obtain ⟨v', hv', rfl⟩ := rests_eq_some hx
  rw [hrun]
  by_cases ht : t' = t
  · rw [ht, update_self] at hv' ⊢
    exact hv v' hv'
  · rw [update_of_ne ht] at hv' ⊢
    exact h t' _ (Stands.rest_eq hv')

/-- **The invariant holds in every state reached**, and each client follows its function
from what it knows. -/
theorem views (hL : Logic.Sound L code cond I Post About) {disk : Nat → Block} {s : Clients α Q T}
    (h : Steps (Clients.step code) cond (Clients.start disk) s)
    (hstart : I (volOf disk) (fun _ => none) (fun _ => .empty) (fun _ => none) []) :
    ∃ vs, (Stands I s vs ∧ Agree About s (rests vs)) ∧
      Procs.Tracked (fun q => (L q).Ok) (fun q => (L q).Next)
        (fun q a v => v.bits = .empty ∧ Post q a v.rest) s vs := by
  have hbits : Shared.bits ⟨disk, fun _ : Nat => (none : Option T)⟩ = fun _ => .empty := by
    funext t b
    refine Shared.bits_eq_none.mpr ?_
    rintro ⟨-, ⟨⟩⟩
  refine h.views (I := fun s vs => Stands I s vs ∧ Agree About s (rests vs))
    ⟨⟨fun t => (congrFun hbits t).symm, ?_⟩, ?_⟩ ?_ ?_ ?_
  · have hlocks : Shared.locks ⟨disk, fun _ : Nat => (none : Option T)⟩ = fun _ => none := by
      funext l
      exact ite_self _
    change I (volOf disk) (Shared.locks ⟨disk, fun _ => none⟩) (Shared.bits ⟨disk, fun _ => none⟩) (fun _ => none) []
    rw [hlocks, hbits]
    exact hstart
  · rintro t x ⟨⟩
  · intro s vs t q hI hcond hidle
    have hx : rests vs t = none := by rw [rests, hidle]; rfl
    obtain ⟨x, hp, habout, hI'⟩ := hL.call s _ t q hI.1.inv hcond hx
    refine ⟨⟨.empty, x⟩, hp, hI.1.update ?_ (fun _ _ => rfl) hI', agree_update hI.2 rfl ?_⟩
    · change s.shared.bits t = _
      rw [← hI.1.bits t, bitsOf, hidle]
      rfl
    · rintro _ ⟨⟩
      exact ⟨q, _, rfl, habout⟩
  · rintro s vs t o q a v hI hcond hv hrun ⟨hbits, hpost⟩
    refine ⟨hI.1.update ?_ (fun _ _ => rfl) (hL.finish _ _ _ _ _ t q a v.rest hI.1.inv (Stands.rest_eq hv) hpost),
      agree_update hI.2 rfl fun _ hv' => by cases hv'⟩
    change s.shared.bits t = _
    rw [← hI.1.bits t, bitsOf, hv]
    exact hbits
  · intro s vs t o q c k v g r y hI hcond hv hrun hok hans
    obtain ⟨v', hnext, hI'⟩ := hL.turn hI.1 hI.2 hcond hv hrun hok hans
    refine ⟨v', hnext, hI', agree_update hI.2 rfl ?_⟩
    rintro _ ⟨⟩
    refine ⟨q, _, rfl, ?_⟩
    obtain ⟨q', p, hrun', habout⟩ := hI.2 t _ (Stands.rest_eq hv)
    rw [hrun] at hrun'
    cases hrun'
    obtain heq | ⟨hok, hnext⟩ := hnext.rest hok
    · rwa [heq]
    · exact hL.about q c g v r _ hok hnext habout

end Logic.Sound
end
end Yfs.Fs

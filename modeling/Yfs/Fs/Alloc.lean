import Yfs.Fs.Clients

/-! No block is handed out twice.

Clients take blocks with `put` and give them back with `remove`, at the same time and on
the same bitmap blocks. Each block that is in use and not reserved is somewhere: a caller
was given it and has not passed it to `remove` yet (`Out`), or a client is in the middle
of a call that is about to return it or to give it back (`Job.has`). It is never in two
of these places, and a turn moves at most one block from one to another.

This needs callers that pass to `remove` only what they were given. A number that was not
handed out at the time of the call can be handed out by another client before the call
takes effect; and a bitmap block's own number, once removed, is handed out as a data
block, and what is then written to it overwrites 4096 bits. -/
namespace Yfs.Fs
open Yfs.Base
open Function (update update_eq_self_iff update_of_ne update_self)

/-- `put` with `add`, and `remove`. -/
inductive BlockOp where
  | put (ino : Nat) (buf : Block)
  | remove (ino : Nat)

/-- The status, and the number of the block. -/
def BlockOp.code : BlockOp → Code (Status × Nat)
  | .put ino buf => Fs.put ino buf true
  | .remove ino => do
    let ret ← Fs.remove ino
    pure (ret, ino)

variable {T : Type}

abbrev BlockLog (T : Type) := List (Mark T BlockOp (Status × Nat))

/-- The block that a `put` returns. -/
def given : Mark T BlockOp (Status × Nat) → Option Nat
  | .returned _ (.put _ _) (.ok, i) => some i
  | _ => none

/-- The block that is passed to `remove`. -/
def passed : Mark T BlockOp (Status × Nat) → Option Nat
  | .called _ (.remove i) => some i
  | _ => none

/-- Block `n` was returned by a `put` and not passed to `remove` since. -/
def Out : BlockLog T → Nat → Prop
  | [], _ => False
  | m :: log, n => given m = some n ∨ passed m ≠ some n ∧ Out log n

/-- No `put` returned a block that was out. -/
def HandedOnce : BlockLog T → Prop
  | [] => True
  | m :: log => (∀ i ∈ given m, ¬ Out log i) ∧ HandedOnce log

def decidableOut : (log : BlockLog T) → (n : Nat) → Decidable (Out log n)
  | [], _ => isFalse id
  | m :: log, n =>
    have := decidableOut log n
    inferInstanceAs (Decidable (given m = some n ∨ passed m ≠ some n ∧ Out log n))

instance (log : BlockLog T) (n : Nat) : Decidable (Out log n) := decidableOut log n

def decidableHandedOnce : (log : BlockLog T) → Decidable (HandedOnce log)
  | [] => isTrue trivial
  | m :: log =>
    have := decidableHandedOnce log
    inferInstanceAs (Decidable ((∀ i ∈ given m, ¬ Out log i) ∧ HandedOnce log))

instance (log : BlockLog T) : Decidable (HandedOnce log) := decidableHandedOnce log

section
variable {log : BlockLog T} {t : T} {ino i n : Nat} {buf : Block}

@[simp] theorem out_call_put : Out (.called t (.put ino buf) :: log) n ↔ Out log n := by
  simp [Out, given, passed]

@[simp] theorem out_call_remove : Out (.called t (.remove i) :: log) n ↔ n ≠ i ∧ Out log n := by
  simp [Out, given, passed, eq_comm]

@[simp] theorem out_return_put : Out (.returned t (.put ino buf) (.ok, i) :: log) n ↔ n = i ∨ Out log n := by
  simp [Out, given, passed, eq_comm]

@[simp] theorem out_return_remove : Out (.returned t (.remove ino) (.ok, i) :: log) n ↔ Out log n := by
  simp [Out, given, passed]

end

/-! ### What a call does to the bitmap -/

/-- A call in progress; `done` is the block whose bit it has changed. -/
structure Job where
  op : BlockOp
  done : Option Nat

/-- The block that the call is about to return, or has still to give back. -/
def Job.has (x : Job) (n : Nat) : Prop :=
  match x.op with
  | .put _ _ => x.done = some n
  | .remove ino => x.done = none ∧ n = ino

/-- How the call changes the bitmap block of block `i`. -/
def BlockOp.changes (i : Nat) (old new : Block) : BlockOp → Prop
  | .put _ _ => old.bit (i % bitmapPerBlock) = false ∧ ¬ Reserved i ∧ new = old.setBit (i % bitmapPerBlock)
  | .remove ino => i = ino ∧ new = old.clearBit (i % bitmapPerBlock)

/-- A call writes one bitmap block, once. -/
def BlockOp.logic (q : BlockOp) : Logic Job Nat where
  ready _ := True
  inUse x n := x.has n
  ok
    | .get _, _, _ => False
    | .put b d, i, v => outsideBitmap b = false → i < volSize ∧ bitmapBlock i = b ∧ v.rest = ⟨q, none⟩ ∧
        ∃ old, v.bits b = some old ∧ q.changes i old d
    | _, _, _ => True
  next
    | .put b _, i, v, _, x => x = if outsideBitmap b then v.rest else ⟨q, some i⟩
    | _, _, v, _, x => x = v.rest

theorem BlockOp.lockPut {q : BlockOp} {B : Bits} {x : Job} {i : Nat} {buf : Block} (hi : outsideBitmap i = true)
    (hB : B i = none) :
    q.logic.Path (withLock i (ecPut i buf)) ⟨B, x⟩ fun r v => r = .ok ∧ v = ⟨B, x⟩ := by
  refine .bind (Logic.acquire_outside 0 hi trivial ?_)
  rintro _ rfl
  refine .bind (Logic.put_outside 0 hB (fun h => absurd hi (Bool.eq_false_iff.mp h)) ?_)
  rintro _ rfl
  refine .bind (Logic.release_outside 0 hi trivial ?_)
  rintro _ rfl
  exact .pure ⟨rfl, by rw [if_pos hi]⟩

theorem BlockOp.path {q : BlockOp} (hq : ∀ ino, q = .remove ino → ino < volSize) :
    q.logic.Path q.code ⟨.empty, ⟨q, none⟩⟩ fun a v =>
      v.bits = .empty ∧ ∃ n, a = (.ok, n) ∧ v.rest = ⟨q, some n⟩ := by
  cases q with
  | put ino buf =>
    refine Prog.Paths.mono (Logic.add (Q := fun i x => x = ⟨.put ino buf, some i⟩) trivial ?_) ?_
    · intro i B d hat hbit hres
      have hin := bitmapBlock_inside hat.lt
      have hi := Logic.outside_of_not_reserved hres
      refine (lockPut hi (hat.none_of_outside hi)).mono ?_
      rintro _ _ ⟨rfl, rfl⟩
      refine ⟨rfl, rfl, i, fun _ => ⟨hat.lt, rfl, rfl, d, hat.known, hbit, hres, rfl⟩, ?_⟩
      rintro _ rfl
      exact ⟨trivial, if_neg (Bool.eq_false_iff.mp hin)⟩
    · rintro _ v ⟨i, rfl, hbits, hrest⟩
      exact ⟨hbits, i, rfl, hrest⟩
  | remove ino =>
    have hino := hq ino rfl
    have hin := bitmapBlock_inside hino
    refine .bind (Prog.Paths.mono (Logic.remove (Q := fun x => x = ⟨.remove ino, some ino⟩) trivial hino ?_) ?_)
    · intro d _
      refine ⟨ino, fun _ => ⟨hino, rfl, rfl, d, update_self .., rfl, rfl⟩, ?_⟩
      rintro _ rfl
      exact ⟨trivial, if_neg (Bool.eq_false_iff.mp hin)⟩
    · rintro _ v ⟨rfl, hbits, hrest⟩
      exact .pure ⟨hbits, ino, rfl, hrest⟩

/-! ### Where a block is -/

/-- Who has block `n`: some caller, or client `t` in the middle of a call. -/
def HasBlock (xs : T → Option Job) (log : BlockLog T) : Option T → Nat → Prop
  | none, n => Out log n
  | some t, n => ∃ x, xs t = some x ∧ x.has n

/-- Every block is in at most one place, and the bits agree. -/
structure Ledger (v : Vol) (_ : Nat → Option T) (xs : T → Option Job) (log : BlockLog T) : Prop where
  formatted : v.Formatted
  used : ∀ w n, HasBlock xs log w n → v.used n = true ∧ ¬ Reserved n
  apart : ∀ w w' n, HasBlock xs log w n → HasBlock xs log w' n → w = w'
  once : HandedOnce log

variable {xs xs' : T → Option Job} {log log' : BlockLog T} {v v' : Vol} {locks locks' : Nat → Option T} {t : T}
  {i n : Nat}

namespace Ledger

/-- Nobody has more than before. -/
theorem fewer (h : Ledger v locks xs log) (hused : v'.used = v.used)
    (hhas : ∀ w n, HasBlock xs' log' w n → HasBlock xs log w n) (honce : HandedOnce log') :
    Ledger v' locks' xs' log' where
  formatted n hn := by
    rw [hused]
    exact h.formatted n hn
  used w n hn := by
    rw [hused]
    exact h.used w n (hhas w n hn)
  apart w w' n hn hn' := h.apart w w' n (hhas w n hn) (hhas w' n hn')
  once := honce

/-- Block `i` moves, and the others stay where they are. -/
theorem move (h : Ledger v locks xs log) (w₁ : Option T) (hi : ¬ Reserved i)
    (hused : ∀ n, n ≠ i → v'.used n = v.used n)
    (hhas : ∀ w n, HasBlock xs' log' w n → n = i ∧ w = w₁ ∧ v'.used i = true ∨ n ≠ i ∧ HasBlock xs log w n)
    (honce : HandedOnce log') : Ledger v' locks' xs' log' where
  formatted n hn := by
    rw [hused n fun h => hi (h ▸ hn)]
    exact h.formatted n hn
  used w n hn := by
    obtain ⟨rfl, -, hu⟩ | ⟨hne, hn⟩ := hhas w n hn
    · exact ⟨hu, hi⟩
    · rw [hused n hne]
      exact h.used w n hn
  apart w w' n hn hn' := by
    obtain ⟨rfl, rfl, -⟩ | ⟨hne, hn⟩ := hhas w n hn
    · obtain ⟨-, hw, -⟩ | ⟨hne, -⟩ := hhas w' n hn'
      · exact hw.symm
      · exact absurd rfl hne
    · obtain ⟨heq, -⟩ | ⟨-, hn'⟩ := hhas w' n hn'
      · exact absurd heq hne
      · exact h.apart w w' n hn hn'
  once := honce

end Ledger

section
variable [DecidableEq T]

theorem hasBlock_update {y : Option Job} {w : Option T} (h : HasBlock (update xs t y) log w n) :
    (w = some t ∧ ∃ x, y = some x ∧ x.has n) ∨ w ≠ some t ∧ HasBlock xs log w n := by
  cases w with
  | none => exact .inr ⟨nofun, h⟩
  | some t' =>
    by_cases ht : t' = t
    · obtain ⟨x, hx, hn⟩ := h
      rw [ht, update_self] at hx
      exact .inl ⟨congrArg some ht, x, hx, hn⟩
    · obtain ⟨x, hx, hn⟩ := h
      rw [update_of_ne ht] at hx
      exact .inr ⟨fun h => ht (Option.some.inj h), x, hx, hn⟩

namespace Ledger

theorem same {x : Job} (h : Ledger v locks xs log) (hx : xs t = some x) (hused : v'.used = v.used) :
    Ledger v' locks' (update xs t (some x)) log := by
  rw [update_eq_self_iff.mpr hx.symm]
  exact h.fewer hused (fun _ _ hn => hn) h.once

theorem call_put (h : Ledger v locks xs log) {ino : Nat} {buf : Block} :
    Ledger v locks (update xs t (some ⟨.put ino buf, none⟩)) (.called t (.put ino buf) :: log) := by
  refine h.fewer rfl (fun w n hn => ?_) ⟨nofun, h.once⟩
  obtain ⟨-, _, ⟨⟩, ⟨⟩⟩ | ⟨-, hn⟩ := hasBlock_update hn
  cases w with
  | none => exact out_call_put.mp hn
  | some t' => exact hn

/-- A block passed to `remove` goes from the callers to the client. -/
theorem call_remove (h : Ledger v locks xs log) (hi : Out log i) :
    Ledger v locks (update xs t (some ⟨.remove i, none⟩)) (.called t (.remove i) :: log) := by
  obtain ⟨hu, hres⟩ := h.used none i hi
  refine h.move (some t) hres (fun _ _ => rfl) (fun w n hn => ?_) ⟨nofun, h.once⟩
  obtain ⟨rfl, _, ⟨⟩, -, rfl⟩ | ⟨hw, hn⟩ := hasBlock_update hn
  · exact .inl ⟨rfl, rfl, hu⟩
  · cases w with
    | none => exact .inr (out_call_remove.mp hn)
    | some t' =>
      refine .inr ⟨fun hni => ?_, hn⟩
      have := h.apart none (some t') i hi (hni ▸ hn)
      cases this

theorem finish (h : Ledger v locks xs log) {q : BlockOp} (hx : xs t = some ⟨q, some i⟩) :
    Ledger v locks (update xs t none) (.returned t q (.ok, i) :: log) := by
  cases q with
  | put ino buf =>
    have hi : HasBlock xs log (some t) i := ⟨_, hx, rfl⟩
    obtain ⟨hu, hres⟩ := h.used (some t) i hi
    refine h.move none hres (fun _ _ => rfl) (fun w n hn => ?_) ⟨?_, h.once⟩
    · obtain ⟨-, _, ⟨⟩, -⟩ | ⟨hw, hn⟩ := hasBlock_update hn
      cases w with
      | none =>
        by_cases hni : n = i
        · exact .inl ⟨hni, rfl, hu⟩
        · exact .inr ⟨hni, (out_return_put.mp hn).resolve_left hni⟩
      | some t' => exact .inr ⟨fun hni => hw (h.apart (some t') (some t) i (hni ▸ hn) hi), hn⟩
    · rintro _ ⟨⟩ hout
      have := h.apart none (some t) i hout hi
      cases this
  | remove ino =>
    refine h.fewer rfl (fun w n hn => ?_) ⟨nofun, h.once⟩
    obtain ⟨-, _, ⟨⟩, -⟩ | ⟨-, hn⟩ := hasBlock_update hn
    cases w with
    | none => exact out_return_remove.mp hn
    | some t' => exact hn

/-- A bit is set for a `put`. -/
theorem set (h : Ledger v locks xs log) {ino : Nat} {buf : Block} (hclear : v.used i = false) (hi : ¬ Reserved i) :
    Ledger (v.setUsed i true) locks (update xs t (some ⟨.put ino buf, some i⟩)) log := by
  refine h.move (some t) hi (fun n hn => Vol.setUsed_used_ne hn) (fun w n hn => ?_) h.once
  obtain ⟨rfl, _, ⟨⟩, ⟨⟩⟩ | ⟨-, hn⟩ := hasBlock_update hn
  · exact .inl ⟨rfl, rfl, update_self ..⟩
  · refine .inr ⟨fun hni => ?_, hn⟩
    have := (h.used w n hn).1
    rw [hni, hclear] at this
    cases this

/-- A bit is cleared for a `remove`. -/
theorem clear (h : Ledger v locks xs log) (hx : xs t = some ⟨.remove i, none⟩) :
    Ledger (v.setUsed i false) locks (update xs t (some ⟨.remove i, some i⟩)) log := by
  have hi : HasBlock xs log (some t) i := ⟨_, hx, rfl, rfl⟩
  refine h.move (some t) (h.used _ i hi).2 (fun n hn => Vol.setUsed_used_ne hn) (fun w n hn => ?_) h.once
  obtain ⟨-, _, ⟨⟩, ⟨⟩, -⟩ | ⟨hw, hn⟩ := hasBlock_update hn
  exact .inr ⟨fun hni => hw (h.apart w (some t) i (hni ▸ hn) hi), hn⟩

end Ledger
end

/-! ### Every interleaving -/

section
variable [DecidableEq T]

def Unfilled (s : Clients (Status × Nat) BlockOp T) : Turn T BlockOp (Nat × Block) → Prop
  | .go _ _ => ∃ i < volSize, usedIn s.shared.disk i = false
  | .call _ _ => True

/-- Only what is out is passed to `remove`. -/
def PassesOut (s : Clients (Status × Nat) BlockOp T) : Turn T BlockOp (Nat × Block) → Prop
  | .call _ (.remove ino) => Out s.log ino
  | _ => True

instance (s : Clients (Status × Nat) BlockOp T) : (m : Turn T BlockOp (Nat × Block)) → Decidable (PassesOut s m)
  | .call _ (.remove ino) => inferInstanceAs (Decidable (Out s.log ino))
  | .call _ (.put _ _) => isTrue trivial
  | .go _ _ => isTrue trivial

def Returning (s : Clients (Status × Nat) BlockOp T) (m : Turn T BlockOp (Nat × Block)) : Prop :=
  Unfilled s m ∧ PassesOut s m

theorem volOf_changes {disk : Nat → Block} {q : BlockOp} {d : Block} (hi : i < volSize)
    (h : q.changes i (disk (bitmapBlock i)) d) :
    volOf (update disk (bitmapBlock i) d) =
      (volOf disk).setUsed i (match q with | .put _ _ => true | .remove _ => false) := by
  cases q with
  | put ino buf =>
    obtain ⟨-, -, rfl⟩ := h
    exact volOf_setBit hi
  | remove ino =>
    obtain ⟨-, rfl⟩ := h
    exact volOf_clearBit hi

theorem BlockOp.sound :
    Logic.Sound BlockOp.logic BlockOp.code (Returning (T := T)) (fun v locks _ xs log => Ledger v locks xs log)
      (fun q a x => ∃ n, a = (.ok, n) ∧ x = ⟨q, some n⟩) (fun _ _ => True) where
  about _ _ _ _ _ _ _ _ _ := trivial
  free s t o h := h.1
  used v locks bits xs log t q x n h hx hn := by
    cases hn with
    | inl hn => exact h.formatted n hn
    | inr hn => exact (h.used (some t) n ⟨x, hx, hn⟩).1
  bitmap _ _ _ _ _ _ _ _ _ h _ _ _ := h
  call s xs t q h hcond _ := by
    refine ⟨⟨q, none⟩, BlockOp.path ?_, trivial, ?_⟩
    · rintro ino rfl
      have hused := (h.used none ino hcond.2).1
      by_contra hge
      rw [show (volOf s.shared.disk).used ino = false from by
        change usedIn s.shared.disk ino = false
        rw [usedIn, decide_eq_false hge, Bool.false_and]] at hused
      cases hused
    · cases q with
      | put ino buf => exact h.call_put
      | remove ino => exact h.call_remove hcond.2
  finish v locks bits xs log t q a x h hx := by
    rintro ⟨n, rfl, rfl⟩
    exact h.finish hx
  acquire s xs t o q l k g x h _ _ _ hx _ _ _ := ⟨x, rfl, h.same hx rfl⟩
  release s xs t q l g x h hx _ _ _ := ⟨x, rfl, h.same hx rfl⟩
  get s xs t q b g x h hx _ hok := hok.elim
  put s xs t o q b d k i x h _ _ hx hok := by
    by_cases hb : outsideBitmap b = true
    · refine ⟨fun h => absurd hb (Bool.eq_false_iff.mp h), x, (if_pos hb).symm, h.same hx ?_⟩
      rw [volOf_put hb]
      rfl
    · obtain ⟨hi, rfl, hjob, old, hold, hch⟩ := hok (Bool.eq_false_iff.mpr hb)
      obtain rfl : x = ⟨q, none⟩ := hjob
      obtain ⟨⟨-, hown⟩, rfl⟩ := Shared.bits_eq_some.mp hold
      refine ⟨fun _ => hown, ⟨q, some i⟩, (if_neg hb).symm, ?_⟩
      rw [volOf_changes hi hch]
      cases q with
      | put ino buf => exact h.set ((usedIn_eq hi).trans hch.1) hch.2.1
      | remove ino =>
        obtain ⟨rfl, -⟩ := hch
        exact h.clear hx

/-- The turn of client `t` changes no bit, or it sets the clear bit of a block for a
`put`, or it clears the bit of the block that its `remove` was given. -/
inductive OwnBit (s : Clients (Status × Nat) BlockOp T) (t : T) (s' : Clients (Status × Nat) BlockOp T) : Prop where
  | keep : usedIn s'.shared.disk = usedIn s.shared.disk → OwnBit s t s'
  | set {ino : Nat} {buf : Block} {p : Code (Status × Nat)} (i : Nat) : s.running t = some (.put ino buf, p) →
      usedIn s.shared.disk i = false → usedIn s'.shared.disk = update (usedIn s.shared.disk) i true →
      OwnBit s t s'
  | clear {ino : Nat} {p : Code (Status × Nat)} : s.running t = some (.remove ino, p) →
      usedIn s'.shared.disk = update (usedIn s.shared.disk) ino false → OwnBit s t s'

/-- A call that the logic allows changes one bit of its own. -/
theorem ownBit_of_ok {s : Clients (Status × Nat) BlockOp T} {o : Nat × Block} {q : BlockOp} {c : Call}
    {k : c.Answer → Code (Status × Nat)} {x : Job} {r : c.Answer} {y : Shared T}
    (hrun : s.running t = some (q, .op c k)) (hok : q.logic.Ok c i ⟨s.shared.bits t, x⟩)
    (hans : Shared.answer t o c s.shared = some (r, y)) : OwnBit s t (s.advance t q (k r) y) := by
  cases c with
  | put b d =>
    cases hans
    by_cases hb : outsideBitmap b = true
    · exact .keep (congrArg Vol.used (volOf_put hb))
    · obtain ⟨hi, rfl, -, old, hold, hch⟩ := hok (Bool.eq_false_iff.mpr hb)
      obtain ⟨-, rfl⟩ := Shared.bits_eq_some.mp hold
      have hused := congrArg Vol.used (volOf_changes hi hch)
      cases q with
      | put ino buf => exact .set i hrun ((usedIn_eq hi).trans hch.1) hused
      | remove ino =>
        obtain rfl : i = ino := hch.1
        exact .clear hrun hused
  | acquire l =>
    rw [Shared.answer] at hans
    split at hans
    · cases hans
      exact .keep rfl
    · cases hans
  | release l =>
    rw [Shared.answer] at hans
    split at hans
    · cases hans
      exact .keep rfl
    · cases hans
  | hang => cases hans
  | undefined => cases hans
  | _ =>
    cases hans
    exact .keep rfl

/-- **No block is handed out twice**, and no turn undoes what another did to the bitmap,
where only blocks that are out are passed to `remove`: what is out has its bit set, and a
turn changes no bit but one of its own. -/
theorem no_block_twice {disk : Nat → Block} {s : Clients (Status × Nat) BlockOp T} (hdisk : (volOf disk).Formatted)
    (h : Steps (Clients.step BlockOp.code) Returning (Clients.start disk) s) :
    HandedOnce s.log ∧ (∀ n, Out s.log n → usedIn s.shared.disk n = true) ∧
      ∀ m s', Returning s m → Clients.step BlockOp.code s m = some s' → OwnBit s m.proc s' := by
  have hstart : Ledger (volOf disk) (fun _ => none) (fun _ : T => none) [] := by
    refine ⟨hdisk, fun w n hn => ?_, fun w w' n hn => ?_, trivial⟩
    · cases w with
      | none => exact hn.elim
      | some t => cases hn.choose_spec.1
    · cases w with
      | none => exact hn.elim
      | some t => cases hn.choose_spec.1
  obtain ⟨vs, ⟨hstands, -⟩, htrack⟩ := BlockOp.sound.views h hstart
  refine ⟨hstands.inv.once, fun n hn => (hstands.inv.used none n hn).1, fun m s' _ hstep => ?_⟩
  obtain ⟨t, q, rfl, -, rfl⟩ | ⟨t, o, q, a, rfl, -, rfl⟩ | ⟨t, o, q, c, k, r, y, rfl, hrun, hans, rfl⟩ :=
    Procs.step_cases hstep
  · exact .keep rfl
  · exact .keep rfl
  · obtain ⟨v, hv, i, hok, -⟩ := htrack.path hrun
    rw [hstands.view_eq hv] at hok
    exact ownBit_of_ok hrun hok hans

end

/-! ### Two clients -/

theorem unfilled_of_clear {s : Clients (Status × Nat) BlockOp T} {m : Turn T BlockOp (Nat × Block)}
    (h : usedIn s.shared.disk 5000 = false) : Unfilled s m := by
  cases m with
  | call t q => trivial
  | go t o => exact ⟨5000, by decide, h⟩

def toEnd (t : Bool) : Procs.Scene Call Bool BlockOp := .go t fun _ => false

/-- Both clients take a block; one of the blocks is given back and taken again. -/
theorem no_block_twice_retaken :
    ∃ w₁ w₂ : World, mount still = some w₁ ∧ mount w₁ = some w₂ ∧ ∃ s : Clients (Status × Nat) BlockOp Bool,
      Steps (Clients.step BlockOp.code) Returning (Clients.start w₂.disk) s ∧
      s.log.map given = [some 2, none, none, none, some 3, some 2, none, none] ∧ HandedOnce s.log := by
  have hplay : (Procs.play
      (guarded (Clients.step BlockOp.code) fun s m => usedIn s.shared.disk 5000 = false ∧ PassesOut s m)
      (0, Bytes.zero) 50
      [.call true (.put 0 Bytes.zero), .call false (.put 0 Bytes.zero), toEnd true, toEnd false,
        .call true (.remove 2), toEnd true, .call false (.put 0 Bytes.zero), toEnd false]
      (Clients.start (format (format still.disk)))).any
      (fun s => decide (s.log.map given = [some 2, none, none, none, some 3, some 2, none, none])) = true := by
    decide +kernel
  rw [Option.any_eq_true] at hplay
  obtain ⟨s, hs, hlog⟩ := hplay
  have hsteps := (Procs.play_steps hs).mono fun s m h => (⟨unfilled_of_clear h.1, h.2⟩ : Returning s m)
  exact ⟨_, _, mount_eq rfl, mount_eq rfl, s, hsteps, of_decide_eq_true hlog,
    (no_block_twice (formatted_format _) hsteps).1⟩

/-- Where anything may be passed to `remove`, a block that is out can be handed out again,
and one write can change many bits. -/
theorem handed_out_twice :
    ∃ w₁ w₂ : World, mount still = some w₁ ∧ mount w₁ = some w₂ ∧
      (∃ s : Clients (Status × Nat) BlockOp Bool,
        Steps (Clients.step BlockOp.code) Unfilled (Clients.start w₂.disk) s ∧ ¬ HandedOnce s.log) ∧
      ∃ s s' : Clients (Status × Nat) BlockOp Bool,
        Steps (Clients.step BlockOp.code) Unfilled (Clients.start w₂.disk) s ∧
        Clients.step BlockOp.code s (.go true (0, Bytes.zero)) = some s' ∧ ¬ OwnBit s true s' := by
  -- The `remove` is called first and takes effect when its block is out.
  have hlate : (Procs.play (guarded (Clients.step BlockOp.code) fun s _ => usedIn s.shared.disk 5000 = false)
      (0, Bytes.zero) 50
      [.call false (.remove 2), .call true (.put 0 Bytes.zero), toEnd true, toEnd false,
        .call true (.put 0 Bytes.zero), toEnd true]
      (Clients.start (format (format still.disk)))).any (fun s => decide ¬ HandedOnce s.log) = true := by
    decide +kernel
  -- Block 11 is removed and taken, after the blocks 2 to 9.
  have hbitmap : (Procs.play (guarded (Clients.step BlockOp.code) fun s _ => usedIn s.shared.disk 5000 = false)
      (0, Bytes.zero) 50
      ([.call true (.remove 11), toEnd true] ++
        (List.replicate 8 [.call true (.put 0 Bytes.zero), toEnd true]).flatten ++
        [.call true (.put 0 fun _ => 255), .go true fun c => c.block = some 11])
      (Clients.start (format (format still.disk)))).any
      (fun s => !usedIn s.shared.disk 4096 && !usedIn s.shared.disk 4097 &&
        (Clients.step BlockOp.code s (.go true (0, Bytes.zero))).any fun s' =>
          usedIn s'.shared.disk 4096 && usedIn s'.shared.disk 4097) = true := by
    decide +kernel
  simp only [Option.any_eq_true, Bool.and_eq_true, Bool.not_eq_true'] at hlate hbitmap
  obtain ⟨s, hs, honce⟩ := hlate
  obtain ⟨s₁, hs₁, ⟨h4096, h4097⟩, s₂, hs₂, h4096', h4097'⟩ := hbitmap
  have hmono : ∀ {s : Clients (Status × Nat) BlockOp Bool} (m : Turn Bool BlockOp (Nat × Block)),
      usedIn s.shared.disk 5000 = false → Unfilled s m := fun _ h => unfilled_of_clear h
  refine ⟨_, _, mount_eq rfl, mount_eq rfl, ⟨s, (Procs.play_steps hs).mono fun _ m h => hmono m h,
    of_decide_eq_true honce⟩, s₁, s₂, (Procs.play_steps hs₁).mono fun _ m h => hmono m h, hs₂, fun hown => ?_⟩
  cases hown with
  | keep h =>
    rw [h, h4096] at h4096'
    cases h4096'
  | set i _ _ h =>
    by_cases hi : i = 4096
    · rw [h, update_of_ne (by omega), h4097] at h4097'
      cases h4097'
    · rw [h, update_of_ne (Ne.symm hi), h4096] at h4096'
      cases h4096'
  | @clear ino p _ h =>
    rw [h] at h4096'
    by_cases hi : 4096 = ino
    · rw [hi, update_self] at h4096'
      cases h4096'
    · rw [update_of_ne hi, h4096] at h4096'
      cases h4096'

end Yfs.Fs

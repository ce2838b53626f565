import Yfs.Fs.Clients

/-! Clients that take turns.

Where a client is given a request only when no other one runs, a request is run as `World`
runs it: the locks are those that the client itself holds, and the blocks are its own for
the time. What is proved of a function on a `World`, for all times and all contents of
uninitialised buffers, then holds of it between the other clients' (`InTurn`). -/
namespace Yfs.Fs
open Yfs.Base
open Function (update update_eq_self update_idem update_of_ne update_self)

variable {α Q T : Type}

/-! ### What a world has yet to answer -/

/-- The same blocks and locks, and the same answers to come. -/
structure World.Alike (w w' : World) : Prop where
  disk : w'.disk = w.disk
  held : w'.held = w.held
  clock : ∀ i, w'.clock (w'.answers + i) = w.clock (w.answers + i)
  junk : ∀ i, w'.junk (w'.answers + i) = w.junk (w.answers + i)

/-- A world that answers `o` first. -/
def World.before (w : World) (o : Nat × Block) : World :=
  { w with
    clock := fun i => if i = 0 then o.1 else w.clock (w.answers + (i - 1))
    junk := fun i => if i = 0 then o.2 else w.junk (w.answers + (i - 1))
    answers := 0 }

namespace World.Alike
variable {w w' w₁ : World}

protected theorem refl (w : World) : Alike w w := ⟨rfl, rfl, fun _ => rfl, fun _ => rfl⟩

theorem before (w : World) (o : Nat × Block) : Alike { w.before o with answers := 1 } w := by
  refine ⟨rfl, rfl, fun i => ?_, fun i => ?_⟩
  · simp [World.before]
  · simp [World.before]

theorem next (h : Alike w w') :
    Alike { w with answers := w.answers + 1 } { w' with answers := w'.answers + 1 } := by
  refine ⟨h.disk, h.held, fun i => ?_, fun i => ?_⟩
  · simpa [Nat.add_assoc] using h.clock (1 + i)
  · simpa [Nat.add_assoc] using h.junk (1 + i)

theorem answer {c : Call} {r : c.Answer} (h : Alike w w') (hc : World.answer c w = some (r, w₁)) :
    ∃ w₁', World.answer c w' = some (r, w₁') ∧ Alike w₁ w₁' := by
  cases c with
  | acquire l =>
    obtain ⟨hl, hw⟩ := Option.ite_none_left_eq_some.mp hc
    cases hw
    refine ⟨{ w' with held := l :: w'.held }, if_neg (h.held ▸ hl), ?_⟩
    exact ⟨h.disk, congrArg (l :: ·) h.held, h.clock, h.junk⟩
  | release l =>
    obtain ⟨hl, hw⟩ := Option.ite_none_right_eq_some.mp hc
    cases hw
    refine ⟨{ w' with held := w'.held.erase l }, if_pos (h.held ▸ hl), ?_⟩
    exact ⟨h.disk, congrArg (·.erase l) h.held, h.clock, h.junk⟩
  | get b =>
    cases hc
    refine ⟨w', ?_, h⟩
    rw [World.answer, h.disk]
  | put b d =>
    cases hc
    refine ⟨_, rfl, ?_, h.held, h.clock, h.junk⟩
    rw [h.disk]
  | time =>
    cases hc
    refine ⟨{ w' with answers := w'.answers + 1 }, ?_, h.next⟩
    rw [World.answer, ← Nat.add_zero w'.answers, h.clock]
    rfl
  | junk =>
    cases hc
    refine ⟨{ w' with answers := w'.answers + 1 }, ?_, h.next⟩
    rw [World.answer, ← Nat.add_zero w'.answers, h.junk]
    rfl
  | hang => cases hc
  | undefined => cases hc

end World.Alike

/-! ### A program without others -/

/-- With the locks `H` and the blocks `disk`, whatever the time and the uninitialised buffers
are, the program returns, holds no lock then, and `P` holds of its value and the blocks. -/
def Alone (H : List Nat) (disk : Nat → Block) (p : Code α) (P : α → (Nat → Block) → Prop) : Prop :=
  ∀ w : World, w.held = H → w.disk = disk → Prog.Ends World.answer p w fun a w' => w'.held = [] ∧ P a w'.disk

/-- Client `t` holds the locks `H`, and no other client holds any. -/
structure Owns (x : Shared T) (t : T) (H : List Nat) : Prop where
  nodup : H.Nodup
  owner : ∀ l t', x.owner l = some t' ↔ t' = t ∧ l ∈ H

section
variable {x x' : Shared T} {t : T} {o : Nat × Block} {H : List Nat} {disk : Nat → Block} {P : α → (Nat → Block) → Prop}

theorem Does.alone {p : Code α} {P : α → Vol → Prop} (h : Does [] (volOf disk) p P) :
    Alone [] disk p fun a disk' => P a (volOf disk') :=
  fun w hheld hdisk => h w hheld (congrArg volOf hdisk)

theorem Alone.pure {a : α} (h : Alone H disk (.pure a) P) : H = [] ∧ P a disk := by
  obtain ⟨_, _, hrun, hheld, hp⟩ := h ⟨disk, H, fun _ => 0, fun _ => Bytes.zero, 0⟩ rfl rfl
  cases hrun
  exact ⟨hheld, hp⟩

theorem Owns.free {l : Nat} (h : Owns x t H) (hl : x.owner l = none) : l ∉ H := by
  intro hmem
  rw [(h.owner l t).mpr ⟨rfl, hmem⟩] at hl
  cases hl

variable [DecidableEq T]

theorem Owns.step {c : Call} {r : c.Answer} (h : Owns x t H) (hc : Shared.answer t o c x = some (r, x')) :
    Owns x' t (c.held H) := by
  cases c with
  | acquire l =>
    obtain ⟨hfree, hx⟩ := Option.ite_none_right_eq_some.mp hc
    cases hx
    refine ⟨List.nodup_cons.mpr ⟨h.free hfree, h.nodup⟩, fun l' t' => ?_⟩
    show update x.owner l (some t) l' = some t' ↔ t' = t ∧ l' ∈ l :: H
    by_cases hl : l' = l
    · rw [hl, update_self, Option.some.injEq]
      exact ⟨fun he => ⟨he.symm, List.mem_cons_self⟩, fun he => he.1.symm⟩
    · rw [update_of_ne hl, h.owner, List.mem_cons]
      simp only [hl, false_or]
  | release l =>
    obtain ⟨-, hx⟩ := Option.ite_none_right_eq_some.mp hc
    cases hx
    refine ⟨h.nodup.erase l, fun l' t' => ?_⟩
    show update x.owner l none l' = some t' ↔ t' = t ∧ l' ∈ H.erase l
    rw [h.nodup.mem_erase_iff]
    by_cases hl : l' = l
    · rw [hl, update_self]
      simp
    · rw [update_of_ne hl, h.owner]
      simp only [hl, ne_eq, not_false_eq_true, true_and]
  | get b =>
    cases hc
    exact h
  | put b d =>
    cases hc
    exact ⟨h.nodup, h.owner⟩
  | time =>
    cases hc
    exact h
  | junk =>
    cases hc
    exact h
  | hang => cases hc
  | undefined => cases hc

/-- A call that is answered between clients is one that a world answers. -/
theorem Owns.answer {c : Call} {r : c.Answer} {w' : World} (h : Owns x t H)
    (hc : Shared.answer t o c x = some (r, x')) (hheld : w'.held = c.held H) (hdisk : w'.disk = x'.disk) :
    ∃ w w₁ : World, w.held = H ∧ w.disk = x.disk ∧ World.answer c w = some (r, w₁) ∧ w₁.Alike w' := by
  obtain ⟨disk', held', clock, junk, answers⟩ := w'
  dsimp only at hheld hdisk
  subst hheld hdisk
  cases c with
  | acquire l =>
    obtain ⟨hfree, hx⟩ := Option.ite_none_right_eq_some.mp hc
    cases hx
    exact ⟨⟨x.disk, H, clock, junk, answers⟩, _, rfl, rfl, if_neg (h.free hfree), .refl _⟩
  | release l =>
    obtain ⟨hown, hx⟩ := Option.ite_none_right_eq_some.mp hc
    cases hx
    exact ⟨⟨x.disk, H, clock, junk, answers⟩, _, rfl, rfl, if_pos ((h.owner l t).mp hown).2, .refl _⟩
  | get b =>
    cases hc
    exact ⟨⟨x.disk, H, clock, junk, answers⟩, _, rfl, rfl, rfl, .refl _⟩
  | put b d =>
    cases hc
    exact ⟨⟨x.disk, H, clock, junk, answers⟩, _, rfl, rfl, rfl, .refl _⟩
  | time =>
    cases hc
    exact ⟨World.before ⟨x.disk, H, clock, junk, answers⟩ o, _, rfl, rfl, rfl, .before _ o⟩
  | junk =>
    cases hc
    exact ⟨World.before ⟨x.disk, H, clock, junk, answers⟩ o, _, rfl, rfl, rfl, .before _ o⟩
  | hang => cases hc
  | undefined => cases hc

/-- What is known of a program is known of the rest of it after a call. -/
theorem Alone.op {c : Call} {k : c.Answer → Code α} {r : c.Answer} (h : Alone H x.disk (.op c k) P) (hown : Owns x t H)
    (hc : Shared.answer t o c x = some (r, x')) : Alone (c.held H) x'.disk (k r) P := by
  intro w' hheld hdisk
  obtain ⟨w, w₁, hw, hd, hans, halike⟩ := hown.answer hc hheld hdisk
  obtain ⟨a, w₂, hrun, hend, hp⟩ := h w hw hd
  have hrest : Prog.run World.answer (k r) w₁ = some (a, w₂) := by
    rw [Prog.run, hans] at hrun
    exact hrun
  obtain ⟨w₂', hrun', halike'⟩ := Prog.run_simulates (fun _ _ _ _ _ h hc => h.answer hc) halike hrest
  exact ⟨a, w₂', hrun', halike'.held.trans hend, halike'.disk ▸ hp⟩

end

/-! ### Turns -/

/-- At most one client runs. Between requests `J` holds of the calls and returns so far and
of the blocks; while a client runs, it held before and will hold when that returns. -/
inductive InTurn (J : List (Mark T Q α) → (Nat → Block) → Prop) [DecidableEq T] (s : Clients α Q T) : Prop where
  | idle : (∀ t, s.running t = none) → (∀ l, s.shared.owner l = none) → J s.log s.shared.disk → InTurn J s
  | busy {t : T} {q : Q} {p : Code α} {H : List Nat} {log : List (Mark T Q α)} {disk : Nat → Block} :
      s.running = update (fun _ => none) t (some (q, p)) → s.log = .called t q :: log → J log disk →
      Owns s.shared t H → Alone H s.shared.disk p (fun a disk' => J (.returned t q a :: s.log) disk') → InTurn J s

namespace InTurn
variable [DecidableEq T] {J : List (Mark T Q α) → (Nat → Block) → Prop} {s s' : Clients α Q T} {code : Q → Code α}
  {t : T} {q : Q} {o : Nat × Block}

theorem only {t' : T} {r : Q × Code α} {p : Option (Q × Code α)}
    (h : s.running = update (fun _ => none) t' p) (hrun : s.running t = some r) : t = t' ∧ p = some r := by
  rw [h] at hrun
  by_cases ht : t = t'
  · rw [ht, update_self] at hrun
    exact ⟨ht, hrun⟩
  · rw [update_of_ne ht] at hrun
    cases hrun

theorem of_idle (h : InTurn J s) (hidle : ∀ t, s.running t = none) :
    (∀ l, s.shared.owner l = none) ∧ J s.log s.shared.disk := by
  cases h with
  | idle _ howner hj => exact ⟨howner, hj⟩
  | @busy t q p _ _ _ hrun _ _ _ _ =>
    have := hidle t
    rw [hrun, update_self] at this
    cases this

theorem call (h : InTurn J s) (hidle : ∀ t, s.running t = none)
    (hcode : Alone [] s.shared.disk (code q) fun a disk => J (.returned t q a :: .called t q :: s.log) disk) :
    InTurn J (s.begin t q (code q)) := by
  obtain ⟨howner, hj⟩ := h.of_idle hidle
  refine .busy (congrArg (update · t _) (funext hidle)) rfl hj ⟨List.nodup_nil, fun l t' => ?_⟩ hcode
  show s.shared.owner l = some t' ↔ _
  rw [howner]
  simp

/-- Only the client whose turn it is can go on. -/
theorem go (h : InTurn J s) (hs : Clients.step code s (.go t o) = some s') : InTurn J s' := by
  obtain ⟨_, _, he, -⟩ | ⟨t', o', q, a, he, hrun, rfl⟩ | ⟨t', o', q, c, k, r, x, he, hrun, hans, rfl⟩ :=
    Procs.step_cases hs
  · cases he
  · cases he
    cases h with
    | idle hidle _ _ =>
      rw [hidle] at hrun
      cases hrun
    | @busy t₁ q₁ p₁ H log disk hrunning hlog hj hown halone =>
      obtain ⟨rfl, hp⟩ := only hrunning hrun
      cases hp
      obtain ⟨rfl, hj'⟩ := halone.pure
      refine .idle (fun t' => ?_) (fun l => ?_) hj'
      · show update s.running t none t' = none
        rw [hrunning, update_idem, update_eq_self]
      · rw [Option.eq_none_iff_forall_ne_some]
        intro t' ht'
        cases ((hown.owner l t').mp ht').2
  · cases he
    cases h with
    | idle hidle _ _ =>
      rw [hidle] at hrun
      cases hrun
    | @busy t₁ q₁ p₁ H log disk hrunning hlog hj hown halone =>
      obtain ⟨rfl, hp⟩ := only hrunning hrun
      cases hp
      refine .busy ?_ hlog hj (hown.step hans) (halone.op hown hans)
      show update s.running t _ = _
      rw [hrunning, update_idem]

end InTurn
end Yfs.Fs

import Mathlib.Logic.Relation
import Yfs.Fs.Isolation

/-! Clients that wait for each other.

An operation holds the lock of its inode, under it that of one more block, and under that
those of the bitmap. `put` with `add` turns this around: it holds bitmap blocks and asks
for the lock of the block whose bit it found clear. Where another client holds that lock
and looks at the bit, the two wait for each other, and so do an operation on a block that
is not in use, one that was just unlinked, and an allocation.

Where each operation finds what it has to under the lock of its inode, the tree orders the
locks. The blocks of a file or directory are locked by the client alone that has its lock,
so nobody waits for such a block; what is not in use is locked by nobody who waits. So a
client that waits and is waited for asks for a bitmap block, which are taken in ascending
order, or it is `unlink` and asks for the file that it has cut off: that one is no
directory, and who has its lock asks for bitmap blocks only (`no_wait_cycle`). -/
namespace Yfs.Fs
open Yfs.Base

variable {T : Type} {s : Clients Unit Request T} {c d e : T} {l l' l'' o : Nat}

/-- Client `c` asks for a lock that `d` holds. -/
def Waits (s : Clients Unit Request T) (c d : T) : Prop :=
  ∃ q l k, s.running c = some (q, .op (.acquire l) k) ∧ s.shared.owner l = some d

/-! ### What a client asks for -/

def asked (s : Clients Unit Request T) (c : T) : Option Nat :=
  match s.running c with
  | some (_, .op (.acquire l) _) => some l
  | _ => none

theorem asked_eq_some : asked s c = some l ↔ ∃ q k, s.running c = some (q, .op (.acquire l) k) := by
  refine ⟨fun h => ?_, fun ⟨q, k, hrun⟩ => by rw [asked, hrun]⟩
  unfold asked at h
  split at h
  next q l' k hrun =>
    cases h
    exact ⟨q, k, hrun⟩
  next => cases h

theorem waits_iff : Waits s c d ↔ ∃ l, asked s c = some l ∧ s.shared.owner l = some d := by
  simp only [asked_eq_some]
  constructor
  · intro ⟨q, l, k, hrun, hown⟩
    exact ⟨l, ⟨q, k, hrun⟩, hown⟩
  · intro ⟨l, ⟨q, k, hrun⟩, hown⟩
    exact ⟨q, l, k, hrun, hown⟩

theorem owner_of_waits (h : Relation.TransGen (Waits s) c d) : ∃ o, s.shared.owner o = some d := by
  obtain ⟨_, -, hw⟩ := Relation.TransGen.tail'_iff.mp h
  obtain ⟨l, -, hown⟩ := waits_iff.mp hw
  exact ⟨l, hown⟩

/-- From a client that is waited for, the locks asked for ascend along the chain, if they do
where one waits for the next. -/
theorem lt_of_chain
    (hlt : ∀ {c d e o l l' l''}, s.shared.owner o = some c → asked s c = some l → s.shared.owner l = some d →
      asked s d = some l' → s.shared.owner l' = some e → asked s e = some l'' →
      outsideBitmap l' = false ∧ (outsideBitmap l = false → l < l'))
    (h : Relation.TransGen (Waits s) c d) (hheld : s.shared.owner o = some c) (hc : asked s c = some l)
    (hd : asked s d = some l') (hown : s.shared.owner l' = some e) (he : asked s e = some l'') :
    outsideBitmap l' = false ∧ (outsideBitmap l = false → l < l') := by
  induction h generalizing e l' l'' with
  | single hw =>
    obtain ⟨m, hm, hown'⟩ := waits_iff.mp hw
    cases hc.symm.trans hm
    exact hlt hheld hc hown' hd hown he
  | tail hcb hw ih =>
    obtain ⟨m, hm, hown'⟩ := waits_iff.mp hw
    obtain ⟨o', ho'⟩ := owner_of_waits hcb
    obtain ⟨hbit, hless⟩ := ih hm hown' hd
    obtain ⟨hbit', hless'⟩ := hlt ho' hm hown' hd hown he
    exact ⟨hbit', fun hl => (hless hl).trans (hless' hbit)⟩

/-- What is known of a client that asks for lock `l`: a bitmap block after those it holds, or
a block that its region allows. -/
inductive Asks (B : Bits) (x : Region) (l : Nat) : Prop where
  | bitmap : outsideBitmap l = false → (∀ b, x.below = some b → b ∈ x.blocks) → (∀ b, B b ≠ none → b < l) → Asks B x l
  | block {q : Request} {g : Act} : outsideBitmap l = true → Allowed q B x (.acquire l) g → Asks B x l

/-- Beside the lock of its inode the client holds only that of a block of its region. -/
theorem Asks.below {B : Bits} {x : Region} {l b : Nat} (h : Asks B x l) (hb : x.below = some b) : b ∈ x.blocks := by
  have hnone : x.below = none → b ∈ x.blocks := fun hn => by
    rw [hn] at hb
    cases hb
  cases h with
  | bitmap _ hbelow _ => exact hbelow b hb
  | block _ hok =>
    cases hok with
    | enter hidle _ => exact hnone (hidle ▸ rfl)
    | nest _ _ hn _ => exact hnone hn
    | candidate _ _ hn => exact hnone hn
    | take _ _ hn _ => exact hnone hn

section
variable [DecidableEq T] {named : Nat → Prop} {objs : Tree} {xs : T → Option Region} {x y z : Region}

/-- Who asks for one lock and holds another outside of the bitmap holds that of its inode, or
of a block of its region. -/
theorem Asks.holds (hlock : Locked s.shared.locks xs) (hy : xs d = some y) (hd : Asks (s.shared.bits d) y l')
    (hl : outsideBitmap l = true) (hown : s.shared.owner l = some d) :
    y.base = some l ∨ l ∈ y.blocks ∧ y.below = some l := by
  have hlocks := hlock.knows hy ((Shared.locks_of_outside hl).trans hown)
  exact hlocks.imp_right fun hbelow => ⟨hd.below hbelow, hbelow⟩

/-- **What can be waited for**: where `c` holds a lock and waits for a client that asks as well,
it asks for a bitmap block or for the file that it has cut off. -/
theorem asks_of_waiting
    (hpart : Parted named (volOf s.shared.disk) s.shared.locks s.shared.bits objs xs) (hlock : Locked s.shared.locks xs)
    (hx : xs c = some x) (hc : Asks (s.shared.bits c) x l) (hheld : s.shared.owner o = some c)
    (hown : s.shared.owner l = some d) (hy : xs d = some y) (hd : Asks (s.shared.bits d) y l') :
    outsideBitmap l = false ∨ x.victim = some l ∧ x.below = none ∧ s.shared.bits c = .empty := by
  cases hc with
  | bitmap hl _ _ => exact .inl hl
  | block hl hok =>
    have hholds := hd.holds hlock hy hl hown
    cases hok with
    | take hvictim _ hbelow hbits => exact .inr ⟨hvictim, hbelow, hbits⟩
    | enter hidle hbits =>
      -- An operation that asks for its inode holds nothing.
      exfalso
      by_cases ho : outsideBitmap o = true
      · have hlocks := hlock.knows hx ((Shared.locks_of_outside ho).trans hheld)
        rw [hidle] at hlocks
        obtain hlocks | hlocks := hlocks <;> cases hlocks
      · have hknown : s.shared.bits c o = some (s.shared.disk o) :=
          Shared.bits_eq_some.mpr ⟨⟨Bool.eq_false_iff.mpr ho, hheld⟩, rfl⟩
        rw [hbits] at hknown
        cases hknown
    | nest hmem hbase hbelow _ =>
      -- The blocks of the region are locked by nobody else.
      exfalso
      by_cases hcd : d = c
      · rw [hcd, hx] at hy
        cases hy
        obtain hl' | ⟨-, hl'⟩ := hholds
        · exact hbase hl'
        · rw [hbelow] at hl'
          cases hl'
      · obtain hl' | ⟨hl', -⟩ := hholds
        · obtain ⟨obj, hobj⟩ := Option.ne_none_iff_exists'.mp ((hpart.holds hy).base hl').2
          obtain ⟨o', ho'⟩ := (hpart.holds hx).obj_of_mem hpart.whole hobj hmem
          exact (hpart.apart hcd hy hx).heads l (.inl hl') (.inr ⟨o', ho'⟩)
        · exact hpart.disjoint hcd hx hy hmem hl'
    | candidate hshows hlt _ =>
      -- What `d` holds is in use.
      have hclear : usedIn s.shared.disk l = false := Shared.usedIn_of_shows hshows hlt
      have hused : usedIn s.shared.disk l = true := by
        obtain hl' | ⟨hl', -⟩ := hholds
        · obtain ⟨obj, hobj⟩ := Option.ne_none_iff_exists'.mp ((hpart.holds hy).base hl').2
          exact (hpart.whole.laid.has hobj (hpart.whole.laid.head_mem hobj)).used
        · exact hpart.used hy hl'
      rw [hused] at hclear
      cases hclear

/-- **The order of the locks**: where `c` waits for `d` and `d` for `e`, the second one asks for
a bitmap block, after that which the first one asks for. -/
theorem lt_of_waiting
    (hpart : Parted named (volOf s.shared.disk) s.shared.locks s.shared.bits objs xs) (hlock : Locked s.shared.locks xs)
    (hx : xs c = some x) (hc : Asks (s.shared.bits c) x l) (hheld : s.shared.owner o = some c)
    (hown : s.shared.owner l = some d) (hy : xs d = some y) (hd : Asks (s.shared.bits d) y l')
    (hown' : s.shared.owner l' = some e) (hz : xs e = some z) (he : Asks (s.shared.bits e) z l'') :
    outsideBitmap l' = false ∧ (outsideBitmap l = false → l < l') := by
  obtain hl' | ⟨hvictim', hbelow', hbits'⟩ := asks_of_waiting hpart hlock hy hd hown hown' hz he
  · refine ⟨hl', fun hl => ?_⟩
    have hknown : s.shared.bits d l ≠ none := by
      rw [Shared.bits_eq_some.mpr ⟨⟨hl, hown⟩, rfl⟩]
      exact Option.some_ne_none _
    cases hd with
    | bitmap _ _ hasc => exact hasc l hknown
    | block hout _ =>
      rw [hl'] at hout
      cases hout
  · exfalso
    obtain hl | ⟨hvictim, -, -⟩ := asks_of_waiting hpart hlock hx hc hheld hown hy hd
    · have hknown : s.shared.bits d l = some (s.shared.disk l) := Shared.bits_eq_some.mpr ⟨⟨hl, hown⟩, rfl⟩
      rw [hbits'] at hknown
      cases hknown
    · -- The file that was cut off has no name, and `d` has the lock of a directory.
      obtain ⟨hnot, hthere⟩ := ((hpart.holds hx).victim hvictim).1
      obtain ⟨obj, hobj⟩ := Option.ne_none_iff_exists'.mp hthere
      have hl := (hpart.whole.laid.has hobj (hpart.whole.laid.head_mem hobj)).data
      have hbase : y.base = some l := by
        refine (hd.holds hlock hy hl hown).resolve_right ?_
        rintro ⟨-, hbelow⟩
        rw [hbelow'] at hbelow
        cases hbelow
      obtain ⟨ns, hdir⟩ := (hpart.holds hy).base_of_victim hvictim' hbase
      exact hnot (hpart.whole.dir_named hdir)

/-- **No cycle of waiting clients**, and no client that waits for itself, in any run in which
each operation finds what it has to when it takes the lock of its inode. -/
theorem no_wait_cycle {disk : Nat → Block} {fs : Tree} {s : Clients Unit Request T} (hdisk : Rep (volOf disk) fs)
    (h : Steps (Clients.step Request.code) Careful (Clients.start disk) s)
    (hfree : ∃ i < volSize, usedIn s.shared.disk i = false) (c : T) : ¬ Relation.TransGen (Waits s) c c := by
  obtain ⟨vs, ⟨hstands, -⟩, htrack⟩ := regionLogic_sound.views h
    ⟨⟨fs, _, .start hdisk⟩, fun _ _ hl => by cases hl⟩
  obtain ⟨⟨objs, named, hpart⟩, hlock⟩ := hstands.inv
  -- A client that asks has a region.
  have hasks : ∀ {c l}, asked s c = some l → ∃ x, rests vs c = some x ∧ Asks (s.shared.bits c) x l := by
    intro c l hasked
    obtain ⟨q, k, hrun⟩ := asked_eq_some.mp hasked
    obtain ⟨v, hv, g, hok, -⟩ := htrack.path hrun
    have hview := hstands.view_eq hv
    have hx := Stands.rest_eq hv
    generalize v.rest = x at hview hx
    subst hview
    refine ⟨x, hx, ?_⟩
    have hok := hok.resolve_left (Shared.not_full hfree)
    by_cases hl : outsideBitmap l = true
    · rw [if_pos hl] at hok
      exact .block hl hok
    · rw [if_neg hl] at hok
      exact .bitmap (Bool.eq_false_iff.mpr hl) hok.1.2 hok.2
  intro hcycle
  obtain ⟨d, hw, hback⟩ := Relation.TransGen.head'_iff.mp hcycle
  obtain ⟨l, hc, hown⟩ := waits_iff.mp hw
  obtain ⟨l', hd⟩ : ∃ l', asked s d = some l' := by
    obtain rfl | ⟨_, hw', -⟩ := hback.cases_head
    · exact ⟨l, hc⟩
    · obtain ⟨l', hd, -⟩ := waits_iff.mp hw'
      exact ⟨l', hd⟩
  obtain ⟨o, ho⟩ := owner_of_waits hcycle
  have hchain : outsideBitmap l = false ∧ (outsideBitmap l = false → l < l) := by
    refine lt_of_chain (fun hheld hc hown hd hown' he => ?_) hcycle ho hc hc hown hd
    obtain ⟨x, hx, hxl⟩ := hasks hc
    obtain ⟨y, hy, hyl⟩ := hasks hd
    obtain ⟨z, hz, hzl⟩ := hasks he
    exact lt_of_waiting hpart hlock hx hxl hheld hown hy hyl hown' hz hzl
  exact Nat.lt_irrefl l (hchain.2 hchain.1)

end

/-! ### Two and three clients -/

/-- File 2 is written while it is unlinked, and a third client looks at file 3: client 0 holds
the lock of the root and waits for that of the file, client 1 holds that and waits for the
bitmap block, and client 2 holds that under the lock of file 3. -/
theorem no_wait_cycle_nested :
    ∃ w₁ w₂ : World, mount still = some w₁ ∧ mount w₁ = some w₂ ∧ ∃ s : Clients Unit Request (Fin 3),
      Steps (Clients.step Request.code) Careful (Clients.start w₂.disk) s ∧
      (s.shared.owner 1 = some 0 ∧ Waits s 0 1) ∧ (s.shared.owner 2 = some 1 ∧ Waits s 1 2) ∧
      (s.shared.owner 3 = some 2 ∧ s.shared.owner 10 = some 2) ∧ ∀ c, ¬ Relation.TransGen (Waits s) c c := by
  obtain ⟨s, hs, hroot, h0, hfile, h1, hother, hbits, hfree⟩ : ∃ s : Clients Unit Request (Fin 3),
      Procs.play (guarded (Clients.step Request.code) fun s m => calm s m = true) (0, Bytes.zero) 400
        [.call 0 (.create 1 [120]), .go 0 fun _ => false, .call 0 (.create 1 [121]), .go 0 fun _ => false,
          .call 2 (.isfile 3), .go 2 (Call.acquires 10), .call 1 (.write 2 [97] 1 0), .go 1 (Call.acquires 10),
          .call 0 (.unlink 1 [120]), .go 0 (Call.acquires 2), .go 2 (Call.gets 10)]
        (Clients.start (format (format still.disk))) = some s ∧
      s.shared.owner 1 = some 0 ∧ asked s 0 = some 2 ∧ s.shared.owner 2 = some 1 ∧ asked s 1 = some 10 ∧
      s.shared.owner 3 = some 2 ∧ s.shared.owner 10 = some 2 ∧ usedIn s.shared.disk 5000 = false := by
    decide +kernel
  have hsteps := steps_careful (Procs.play_steps hs)
  have hrep : Rep (volOf (format (format still.disk))) rootOnly := rep_of_format (format_used format_blank_used)
  exact ⟨_, _, mount_eq rfl, mount_eq rfl, s, hsteps, ⟨hroot, waits_iff.mpr ⟨_, h0, hfile⟩⟩,
    ⟨hfile, waits_iff.mpr ⟨_, h1, hbits⟩⟩, ⟨hother, hbits⟩, no_wait_cycle hrep hsteps ⟨5000, by decide, hfree⟩⟩

/-- A client that looks at a block not in use, and one that takes it. -/
theorem wait_cycle :
    ∃ w₁ w₂ : World, mount still = some w₁ ∧ mount w₁ = some w₂ ∧ ∃ s : Clients Unit Request Bool,
      Steps (Clients.step Request.code) anyMove (Clients.start w₂.disk) s ∧ Waits s true false ∧ Waits s false true ∧
      Relation.TransGen (Waits s) true true := by
  obtain ⟨s, hs, htrue, hown, hfalse, hown'⟩ : ∃ s : Clients Unit Request Bool,
      Procs.play (guarded (Clients.step Request.code) anyMove) (0, Bytes.zero) 100
        [.call true (.isfile 2), .go true (Call.acquires 10), .call false (.create 1 [97]), .go false (Call.acquires 2)]
        (Clients.start (format (format still.disk))) = some s ∧
      asked s true = some 10 ∧ s.shared.owner 10 = some false ∧ asked s false = some 2 ∧
        s.shared.owner 2 = some true := by
    decide +kernel
  have hw := waits_iff.mpr ⟨_, htrue, hown⟩
  have hw' := waits_iff.mpr ⟨_, hfalse, hown'⟩
  exact ⟨_, _, mount_eq rfl, mount_eq rfl, s, Procs.play_steps hs, hw, hw', .tail (.single hw) hw'⟩

end Yfs.Fs

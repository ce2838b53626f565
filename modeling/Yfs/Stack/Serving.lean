import Yfs.Fs.Turns
import Yfs.Fuse.Refines
import Yfs.Stack.Requests

/-! The clients together are one file system.

The constructors of the clients run first, one after the other, and then the kernels of
all the machines ask one thing at a time. What is answered on one machine is then right
for what was asked on all of them (`stack_serves`): a cache holds a block only while its
client has the lock, and between two requests a block is on the way to no one. Requests
that overlap are left to `stack_refines`. -/
namespace Yfs.Fs

theorem format_format (disk : Nat → Block) : format (format disk) = format disk := by
  funext b
  simp only [format, Function.update_apply]
  split_ifs <;> rfl

end Yfs.Fs

namespace Yfs.Stack
open Base
open Fs (Alone Block Clients InTurn)

variable {Id T P : Type}

def served : List (Mark P Job Fuse.Reply) → List (Fuse.Request × Fuse.Reply)
  | [] => []
  | .returned _ (.request req _) reply :: rest => (req, reply) :: served rest
  | .returned _ .construct _ :: rest => served rest
  | .called _ _ :: rest => served rest

/-- The disk between two requests, as one client has it alone. -/
def asked (disk : Nat → Block) : Fs.World := ⟨disk, [], fun _ => 0, fun _ => Bytes.zero, 0⟩

/-- What may run next on the blocks: a constructor before the first request is answered, and
after a constructor what may be asked. -/
def Job.ok (disk : Nat → Block) (log : List (Mark P Job Fuse.Reply)) : Job → Prop
  | .construct => served log = []
  | .request req _ => log ≠ [] ∧ req.ok (asked disk)

def blank (_ : Extent.Eid) : Block := Bytes.zero

/-- A thread is given something to run only when no thread of any client runs. -/
def oneAtATime [LinearOrder Id] (s : Machine Fuse.Reply Job Id T) : Move Job Id T → Prop
  | .call _ job => (∀ p, s.running p = none) ∧ job.ok (latest blank s.world.log) s.log
  | m => fitting s m

/-- The disk is blank until a constructor has run. Then it holds the file system that the
answered requests have made, and before the first of them it is as a constructor leaves
it. -/
inductive Serves (lib : Fuse.Libfuse) (log : List (Mark P Job Fuse.Reply)) (disk : Nat → Block) : Prop where
  | unmounted : log = [] → disk = (fun _ => Bytes.zero) → Serves lib log disk
  | mounted {fs : Fs.Tree} {σ : Fuse.FileSystem} : Fuse.Holds (Fs.volOf disk) fs σ →
      Fuse.Session lib .new (served log) σ → (served log = [] → disk = Fs.format fun _ => Bytes.zero) →
      Serves lib log disk

section
variable {lib : Fuse.Libfuse} {log : List (Mark P Job Fuse.Reply)} {disk : Nat → Block} {p : P}

theorem Serves.construct (h : Serves lib log disk) (hok : Job.construct.ok disk log) :
    Alone [] disk (Job.construct.code lib) fun a disk' =>
      Serves lib (.returned p .construct a :: .called p .construct :: log) disk' := by
  have hformat : Fs.format disk = Fs.format fun _ => Bytes.zero := by
    cases h with
    | unmounted _ hdisk => rw [hdisk]
    | mounted _ _ hfirst => rw [hfirst hok, Fs.format_format]
  intro w hheld hdisk
  obtain ⟨x, hrun, hx⟩ := Option.map_eq_some_iff.mp (Fs.mount_eq hheld)
  refine Prog.Ends.bind ⟨x.1, x.2, hrun, ?_⟩
  rw [hx, hdisk, hformat]
  have hholds := @Fuse.holds_format w.clock w.junk
  refine Prog.Ends.pure ⟨hheld, .mounted hholds ?_ fun _ => rfl⟩
  show Fuse.Session lib .new (served log) .new
  rw [show served log = [] from hok]
  exact .start

theorem Serves.request {req : Fuse.Request} {hreq : ∀ link parent name, req ≠ .symlink link parent name}
    (h : Serves lib log disk) (hok : (Job.request req hreq).ok disk log) :
    Alone [] disk (req.code lib) fun a disk' =>
      Serves lib (.returned p (.request req hreq) a :: .called p (.request req hreq) :: log) disk' := by
  cases h with
  | unmounted hlog _ => exact absurd hlog hok.1
  | mounted hholds hsession _ =>
    have hdoes := Fuse.Request.does lib (w := asked disk) hholds hok.2
    intro w hheld hdisk
    refine (Fs.Does.alone hdoes w hheld hdisk).mono ?_
    intro a w' hend
    obtain ⟨hheld', fs', σ', hholds', hanswers⟩ := hend
    exact ⟨hheld', .mounted hholds' (hsession.step hanswers) fun he => by cases he⟩

theorem Serves.alone {job : Job} (h : Serves lib log disk) (hok : job.ok disk log) :
    Alone [] disk (job.code lib) fun a disk' => Serves lib (.returned p job a :: .called p job :: log) disk' := by
  cases job with
  | construct => exact h.construct hok
  | request req hreq => exact h.request hok

theorem Serves.session (h : Serves lib log disk) : ∃ σ, Fuse.Session lib .new (served log) σ ∧
    (log ≠ [] → ∃ fs, Fuse.Holds (Fs.volOf disk) fs σ) := by
  cases h with
  | unmounted hlog _ =>
    rw [hlog]
    exact ⟨.new, .start, fun hne => absurd rfl hne⟩
  | mounted hholds hsession _ => exact ⟨_, hsession, fun _ => ⟨_, hholds⟩⟩

end

section
variable [LinearOrder Id] [DecidableEq T] [Fintype T] {lib : Fuse.Libfuse} {s s' : Machine Fuse.Reply Job Id T}
  {a : Clients Fuse.Reply Job (Id × T)}

theorem Sim.idle {disk₀ : Extent.Eid → Block} (h : Sim disk₀ s a) (hidle : ∀ p, s.running p = none) (p : Id × T) :
    a.running p = none := by
  rw [h.running, Machine.ahead, hidle]

/-- The stack is where the plain machine is, and the clients there take turns. -/
def Served (lib : Fuse.Libfuse) (s : Machine Fuse.Reply Job Id T) : Prop := ∃ a, Sim blank s a ∧ InTurn (Serves lib) a

theorem Served.start : Served lib (Machine.start blank : Machine Fuse.Reply Job Id T) :=
  ⟨_, .start blank, .idle (fun _ => rfl) (fun _ => rfl) (.unmounted rfl rfl)⟩

theorem Served.step {m : Move Job Id T} (h : Served lib s) (hm : oneAtATime s m)
    (hs : s.step (Job.code lib) m = some s') : Served lib s' := by
  obtain ⟨a, hsim, hturn⟩ := h
  by_cases hcall : ∃ p job, m = .call p job
  · obtain ⟨p, job, rfl⟩ := hcall
    obtain ⟨hidle, hok⟩ := hm
    obtain ⟨-, a', hsim', hstep⟩ := hsim.request (Job.disciplined lib) hs
    rw [← hsim.disk, ← hsim.log] at hok
    rw [Clients.step, Procs.step_call (hsim.idle hidle p)] at hstep
    cases hstep
    exact ⟨_, hsim', hturn.call (hsim.idle hidle) ((hturn.of_idle (hsim.idle hidle)).2.alone hok)⟩
  · have hnot : ∀ p job, m ≠ .call p job := fun p job he => hcall ⟨p, job, he⟩
    have hfits : fitting s m := by
      cases m with
      | call p job => exact absurd rfl (hnot p job)
      | go p o => exact hm
      | lock l x => exact hm
      | block x => exact hm
    obtain ⟨a', hsim', rfl | ⟨p, o, hstep⟩⟩ := hsim.move hnot hfits hs
    · exact ⟨_, hsim', hturn⟩
    · exact ⟨a', hsim', hturn.go hstep⟩

theorem Served.session (h : Served lib s) : ∃ σ, Fuse.Session lib .new (served s.log) σ ∧ ((∀ p, s.running p = none) →
    s.log ≠ [] → ∃ fs, Fuse.Holds (Fs.volOf (latest blank s.world.log)) fs σ) := by
  obtain ⟨a, hsim, hturn⟩ := h
  rw [← hsim.log, ← hsim.disk]
  cases hturn with
  | idle _ _ hserves =>
    obtain ⟨σ, hsession, hholds⟩ := hserves.session
    exact ⟨σ, hsession, fun _ => hholds⟩
  | @busy p job c H log disk hrun hlog hserves _ _ =>
    obtain ⟨σ, hsession, -⟩ := hserves.session
    rw [hlog]
    refine ⟨σ, hsession, fun hidle => ?_⟩
    have hnone := hsim.idle hidle p
    rw [hrun, Function.update_self] at hnone
    cases hnone

end

/-- **Asked one thing at a time, any number of machines are one file system.** The runs are
those of `stack_refines` in which a thread is given something only while no thread runs:
constructors first, and then what may be asked of the disk as it is (`Job.ok`). -/
theorem stack_serves {Id T : Type} [LinearOrder Id] [DecidableEq T] [Fintype T] (lib : Fuse.Libfuse)
    {s : Machine Fuse.Reply Job Id T}
    (h : Steps (Machine.step (Job.code lib)) oneAtATime (Machine.start blank) s) :
    ∃ σ, Fuse.Session lib .new (served s.log) σ ∧ ((∀ p, s.running p = none) → s.log ≠ [] →
      ∃ fs, Fuse.Holds (Fs.volOf (latest blank s.world.log)) fs σ) := by
  have hserved : Served lib s := by
    refine h.invariant .start ?_
    intro s m s' hserved hm hs
    exact hserved.step hm hs
  exact hserved.session

/-! ### Two machines -/

/-- A move that is not a request, with a lock id that fits. -/
def between {Q Id T : Type} : Move Q Id T → Bool
  | .call _ _ => false
  | .lock l _ => decide (l < 2 ^ 31)
  | .go _ _ => true
  | .block _ => true

theorem oneAtATime_of_between {Id T : Type} [LinearOrder Id] {s : Machine Fuse.Reply Job Id T} {m : Move Job Id T}
    (h : between m = true) : oneAtATime s m := by
  cases m with
  | call p job => cases h
  | go p o => exact trivial
  | lock l x => exact (of_decide_eq_true h : l < 2 ^ 31)
  | block x => exact trivial

/-- Client `c` gets the lock that client `d` has kept, with the block that `d` has changed. -/
def hands (d c : Fin 3) (l : Nat) : List (Move Job (Fin 3) Unit) :=
  [.lock l (.acquire c ()), .lock l (.serveAcquire c ()), .lock l (.readOwner c ()), .lock l (.revokeHandler c ()),
    .block (.flush c () (wire l) Bytes.zero), .block (.servePut d), .block (.putReply d), .lock l (.dorelease c ()),
    .lock l (.serveRelease c ()), .lock l (.retryHandler c ()), .lock l (.retryReply c ()),
    .lock l (.releaseReply c () none), .lock l (.revokeReply c ()), .lock l (.acquireReply c ()),
    .lock l (.serveAcquire c ()), .lock l (.acquireReply c ())]

def goes (c : Fin 3) : Move Job (Fin 3) Unit := .go (c, ()) (0, Bytes.zero)

/-- `ec->get` of a block that is not in the cache. -/
def fetches (c : Fin 3) : List (Move Job (Fin 3) Unit) := [goes c, .block (.serveGet c), .block (.getReply c)]

/-- A bit of the bitmap block under its lock, from the cache. -/
def looks (c : Fin 3) : List (Move Job (Fin 3) Unit) :=
  [.lock 10 (.acquire c ()), goes c, .lock 10 (.release c () none)]

/-- The root is taken from client `d`, read and written. -/
def opens (d c : Fin 3) : List (Move Job (Fin 3) Unit) :=
  hands d c 1 ++ [goes c] ++ hands d c 10 ++ fetches c ++ [.lock 10 (.release c () none)] ++ fetches c ++ [goes c] ++
    looks c ++ [goes c]

def reads (c : Fin 3) : List (Move Job (Fin 3) Unit) := looks c ++ [goes c, .lock 2 (.release c () none)]

/-- `getattr` of file 2 after its first `isfile`. -/
def stats (c : Fin 3) : List (Move Job (Fin 3) Unit) :=
  [goes c, .lock 2 (.acquire c ())] ++ reads c ++ [.lock 2 (.acquire c ()), goes c] ++ reads c ++
    [.lock 2 (.acquire c ()), goes c] ++ reads c ++ [goes c]

/-- What client `c` does for `create` in the root. -/
def creates (d c : Fin 3) : List (Move Job (Fin 3) Unit) :=
  [goes c] ++ opens d c ++ [goes c, goes c, .lock 10 (.acquire c ()), goes c, goes c, goes c] ++ puts c 2 ++
    [goes c, .lock 10 (.release c () none)] ++ looks c ++ [goes c, .lock 1 (.release c () none)] ++
    [.lock 2 (.acquire c ()), goes c] ++ reads c ++ stats c

/-- What client `c` does to find the file that client `d` has made. -/
def finds (d c : Fin 3) : List (Move Job (Fin 3) Unit) :=
  opens d c ++ [.lock 1 (.release c () none)] ++ hands d c 2 ++ [goes c] ++ looks c ++ fetches c ++
    [.lock 2 (.release c () none)] ++ stats c

/-- Client 1 runs the constructor, client 2 makes a file, and client 1 finds it. -/
theorem stack_serves_two : ∃ s : Machine Fuse.Reply Job (Fin 3) Unit,
    Steps (Machine.step (Job.code .namesOnly)) oneAtATime (Machine.start blank) s ∧
    s.replies = [.entry ⟨2, ⟨2, Fuse.modeFile, 1, 0, 0, 0, 0⟩⟩, .create ⟨2, ⟨2, Fuse.modeFile, 1, 0, 0, 0, 0⟩⟩, .done] ∧
    ∃ σ, Fuse.Session .namesOnly .new (served s.log) σ ∧ ((∀ p, s.running p = none) → s.log ≠ [] →
      ∃ fs, Fuse.Holds (Fs.volOf (latest blank s.world.log)) fs σ) := by
  have hrun : ((Machine.start blank : Machine Fuse.Reply Job (Fin 3) Unit).step (Job.code .namesOnly)
      (.call (1, ()) .construct)).any (fun s₁ =>
      (run (guarded (Machine.step (Job.code .namesOnly)) fun _ m => between m = true) s₁
        (puts 1 0 ++ puts 1 200 ++ puts 1 10 ++ puts 1 1 ++ [goes 1])).any fun s₂ =>
      decide ((∀ p, s₂.running p = none) ∧ Fs.Bare (asked (latest blank s₂.world.log))) && !s₂.log.isEmpty &&
      (s₂.step (Job.code .namesOnly) (.call (2, ()) (.request (.create 1 [98]) nofun))).any fun s₃ =>
      (run (guarded (Machine.step (Job.code .namesOnly)) fun _ m => between m = true) s₃ (creates 1 2)).any fun s₄ =>
      decide ((∀ p, s₄.running p = none) ∧ Fs.OneFile (asked (latest blank s₄.world.log)) 0) && !s₄.log.isEmpty &&
      (s₄.step (Job.code .namesOnly) (.call (1, ()) (.request (.lookup 1 [98]) nofun))).any fun s₅ =>
      (run (guarded (Machine.step (Job.code .namesOnly)) fun _ m => between m = true) s₅ (finds 2 1)).any fun s₆ =>
      decide (s₆.replies = [.entry ⟨2, ⟨2, Fuse.modeFile, 1, 0, 0, 0, 0⟩⟩,
        .create ⟨2, ⟨2, Fuse.modeFile, 1, 0, 0, 0, 0⟩⟩, .done])) = true := by
    decide +kernel
  simp only [Option.any_eq_true, Bool.and_eq_true, decide_eq_true_eq] at hrun
  obtain ⟨s₁, hs₁, s₂, hs₂, ⟨⟨hidle, hbare⟩, hlog⟩, s₃, hs₃, s₄, hs₄, ⟨⟨hidle', hone⟩, hlog'⟩, s₅, hs₅, s₆, hs₆,
    hreplies⟩ := hrun
  have hconstruct : oneAtATime (Machine.start blank : Machine Fuse.Reply Job (Fin 3) Unit)
      (.call (1, ()) .construct) := ⟨fun _ => rfl, rfl⟩
  have hcreate : oneAtATime s₂ (.call (2, ()) (.request (.create 1 [98]) nofun)) := by
    refine ⟨hidle, fun he => ?_, hbare.ok_create (by decide) (by decide)⟩
    rw [he] at hlog
    cases hlog
  have hlookup : oneAtATime s₄ (.call (1, ()) (.request (.lookup 1 [98]) nofun)) := by
    refine ⟨hidle', fun he => ?_, hone.1.isDir⟩
    rw [he] at hlog'
    cases hlog'
  have hmount : Steps (Machine.step (Job.code .namesOnly)) oneAtATime (Machine.start blank) s₂ :=
    .head hconstruct hs₁ ((Steps.of_run hs₂).mono fun _ _ => oneAtATime_of_between)
  have hmade : Steps (Machine.step (Job.code .namesOnly)) oneAtATime s₂ s₄ :=
    .head hcreate hs₃ ((Steps.of_run hs₄).mono fun _ _ => oneAtATime_of_between)
  have hfound : Steps (Machine.step (Job.code .namesOnly)) oneAtATime s₄ s₆ :=
    .head hlookup hs₅ ((Steps.of_run hs₆).mono fun _ _ => oneAtATime_of_between)
  have hsteps := (hmount.trans hmade).trans hfound
  exact ⟨s₆, hsteps, hreplies, stack_serves .namesOnly hsteps⟩

end Yfs.Stack

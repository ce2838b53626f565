import Yfs.Fs.Locking
import Yfs.Fuse.Server
import Yfs.Stack.Refines

/-! What the kernel is answered, on the servers that are really there.

A handler of `fuse.cc` is a sequence of functions of `yfs_client`, and each of these
accesses blocks under their locks, whatever locks are left from the ones before it
(`getattr` calls `issym`, which can leave one). So the handlers do on caches and the lock
protocol what they do on plain locks and one disk (`stack_refines`), all of them but
`symlink`, which writes the inode of the link without its lock. -/
namespace Yfs.Fs
open Base
variable {α β : Type} {g : Nat}

namespace Disciplined

theorem pure (a : α) : Disciplined (pure a : Code α) := fun _ => .pure trivial

theorem bind {p : Code α} {f : α → Code β} (hp : Disciplined p) (hf : ∀ a, Disciplined (f a)) :
    Disciplined (p >>= f) := fun H => .bind ((hp H).mono fun a H' _ => hf a H')

theorem withLock {p : Code α} (h : Built (Eq g) p) : Disciplined (withLock g p) := by
  intro H
  refine OnPaths.mono (Keeps.withLock (Keeps.of_built (fun h => h) h ?_)) fun _ _ _ => trivial
  rintro b rfl
  exact List.mem_cons_self

theorem of_built {p : Code α} (h : ∃ q, p = Fs.withLock g q ∧ Built (Eq g) q) : Disciplined p := by
  obtain ⟨q, rfl, hq⟩ := h
  exact .withLock hq

theorem uninit : Disciplined uninit := fun _ => ⟨(), nofun, fun _ _ _ => trivial⟩

theorem issym (ino : Nat) : Disciplined (Fs.issym ino) := by
  intro H
  refine Keeps.seq (.call rfl nofun) fun buf => .bind (.acquire ?_)
  refine Keeps.seq (.get (fun h => h) buf List.mem_cons_self) fun r => ?_
  split
  · exact .pure trivial
  · exact .bind (.release (.pure trivial))

theorem yfsClient : Disciplined yfsClient := by
  have hput : ∀ b d, Disciplined (Fs.withLock b (ecPut b d)) := fun b d H =>
    OnPaths.mono (Keeps.withLock (Keeps.ecPut List.mem_cons_self)) fun _ _ _ => trivial
  exact .bind (hput _ _) fun _ => .bind (hput _ _) fun _ => .bind (hput _ _) fun _ =>
    .bind (hput _ _) fun _ => .pure _

/-- With any initial value of `ino`. -/
theorem mkdir (name : List Byte) (ino : Nat) : Disciplined (Fs.mkdir g name ino) := by
  refine .withLock (.bind .uninit fun buf => .bind (.safeGet rfl g buf) fun r => ?_)
  refine .bind .time fun ctime => .bind .time fun mtime => .bind (.safePut rfl g _ false) fun _ => ?_
  refine .bind (.roomLoop rfl _ _ _ _ _ _) fun room => ?_
  cases room with
  | error => exact .pure _
  | dup inum => exact .pure _
  | blank tmp target buf =>
    exact .bind .time fun mtime => .bind .time fun ctime => .bind (.fillEntry rfl _ _ _ _ _ _) fun _ => .pure _

end Disciplined

end Yfs.Fs

namespace Yfs.Fuse
open Base
open Fs (Code Disciplined Status)

theorem getfileAttr_disciplined (ino mode : Nat) : Disciplined (getfileAttr ino mode) := by
  refine .bind (.of_built (Fs.built_getattr rfl _)) fun r => ?_
  split
  · exact .pure _
  · exact .pure _

theorem getdirAttr_disciplined (ino : Nat) : Disciplined (getdirAttr ino) := by
  refine .bind (.of_built (Fs.built_getattr rfl _)) fun r => ?_
  split
  · exact .pure _
  · exact .pure _

theorem getattr_disciplined (ino : Nat) : Disciplined (getattr ino) := by
  refine .bind (.of_built (Fs.built_hasMode rfl 1)) fun _ => .bind (.issym ino) fun sym => ?_
  split
  · exact getfileAttr_disciplined _ _
  · refine .bind (.of_built (Fs.built_hasMode rfl 1)) fun file => ?_
    split
    · exact getfileAttr_disciplined _ _
    · exact getdirAttr_disciplined _

theorem entryOf_disciplined (ino : Nat) : Disciplined (entryOf ino) :=
  .bind (getattr_disciplined ino) fun _ => .pure _

theorem createReply_disciplined (reply : Entry → Reply) (parent : Nat) (name : List Byte) :
    Disciplined (createReply reply parent name) := by
  refine .bind (.bind .uninit fun junk => .bind (.withLock (.innerCreate rfl _ _)) fun r => ?_) fun r => ?_
  · split
    · exact .bind (entryOf_disciplined _) fun _ => .pure _
    · exact .pure _
  · split
    · exact .pure _
    · split
      · exact .pure _
      · exact .pure _

theorem replyNew_disciplined (r : Status × Nat) : Disciplined (replyNew r) := by
  unfold replyNew
  split
  · exact .bind (entryOf_disciplined _) fun _ => .pure _
  · split
    · exact .pure _
    · exact .pure _

/-- A handler accesses blocks under their locks only, but for that of `symlink`. -/
theorem Request.disciplined (lib : Libfuse) (req : Request) (h : ∀ link parent name, req ≠ .symlink link parent name) :
    Disciplined (req.code lib) := by
  cases req with
  | getattr ino =>
    refine .bind (getattr_disciplined ino) fun r => ?_
    split
    · exact .pure _
    · exact .pure _
  | setattr ino toSet attr =>
    show Disciplined (fuseserverSetattr ino toSet attr)
    unfold fuseserverSetattr
    split
    · refine .bind (.of_built (Fs.built_setattr rfl _ _)) fun ret => ?_
      split
      · exact .bind (getattr_disciplined ino) fun _ => .pure _
      · exact .pure _
    · exact .pure _
  | read ino size off =>
    refine .bind (.withLock (.innerRead rfl _ _)) fun r => ?_
    split
    · exact .pure _
    · exact .pure _
  | write ino buf size off =>
    refine .bind (.withLock (.innerWrite rfl _ _ _)) fun ret => ?_
    split
    · exact .pure _
    · exact .pure _
  | create parent name => exact createReply_disciplined _ _ _
  | mknod parent name => exact createReply_disciplined _ _ _
  | lookup parent name =>
    refine .bind (.of_built (Fs.built_lookup rfl name)) fun ino => ?_
    split
    · exact .bind (entryOf_disciplined _) fun _ => .pure _
    · exact .pure _
  | readdir ino size off =>
    refine .bind (.of_built (Fs.built_hasMode rfl 0)) fun dir => ?_
    split
    · refine .bind (.of_built (Fs.built_readdir rfl)) fun r => ?_
      split
      · exact .pure _
      · exact .pure _
    · exact .pure _
  | «open» ino => exact .pure _
  | mkdir parent name => exact .bind .uninit fun junk => .bind (.mkdir _ _) fun r => replyNew_disciplined r
  | unlink parent name =>
    refine .bind (.of_built (Fs.built_unlink rfl name)) fun ret => ?_
    split
    · exact .pure _
    · split
      · exact .pure _
      · exact .pure _
  | symlink link parent name => exact absurd rfl (h link parent name)
  | readlink ino =>
    refine .bind (.of_built (Fs.built_readlink rfl)) fun r => ?_
    split
    · exact .pure _
    · split
      · exact .pure _
      · exact .pure _
  | statfs => exact .pure _

end Yfs.Fuse

namespace Yfs.Stack
open Base
open Fs (Block Clients Code Disciplined)

/-- What a thread of `yfs_client` runs: the constructor in `main`, or a handler. -/
inductive Job where
  | construct
  | request (req : Fuse.Request) (h : ∀ link parent name, req ≠ .symlink link parent name)

def Job.code (lib : Fuse.Libfuse) : Job → Code Fuse.Reply
  | .construct => do
    Fs.yfsClient
    pure .done
  | .request req _ => req.code lib

theorem Job.disciplined (lib : Fuse.Libfuse) (job : Job) : Disciplined (job.code lib) := by
  cases job with
  | construct => exact .bind .yfsClient fun _ => .pure _
  | request req h => exact req.disciplined lib h

/-- **On any number of clients with caches, what the kernel is answered is what it would
be answered with plain locks and one disk**: in every run in which no RPC fails, no new
cache entry happens to be marked dirty, and lock ids are non-negative C `int`s. -/
theorem stack_refines {Id T : Type} [LinearOrder Id] [DecidableEq T] [Fintype T] (lib : Fuse.Libfuse)
    (disk₀ : Extent.Eid → Block) {s : Machine Fuse.Reply Job Id T}
    (h : Steps (Machine.step (Job.code lib)) fitting (Machine.start disk₀) s) :
    ∃ a : Clients Fuse.Reply Job (Id × T),
      Steps (Clients.step (Job.code lib)) anyMove (Clients.start fun b => disk₀ (wire b)) a ∧ Shown s a :=
  refines_of_disciplined (Job.disciplined lib) h

def Machine.replies {α Q Id T : Type} [LinearOrder Id] (s : Machine α Q Id T) : List α :=
  s.log.filterMap fun
    | .returned _ _ a => some a
    | .called _ _ => none

def takes (c : Fin 3) (l : Nat) : List (Move Job (Fin 3) Unit) :=
  [.lock l (.acquire c ()), .lock l (.serveAcquire c ()), .lock l (.acquireReply c ())]

/-- `lc->acquire(l); ec->put(l, ..); lc->release(l)` at a client, which keeps the lock. -/
def puts (c : Fin 3) (l : Nat) : List (Move Job (Fin 3) Unit) :=
  takes c l ++ [.go (c, ()) (0, Bytes.zero), .lock l (.release c () none)]

/-- Client 1 runs the constructor and keeps what it writes. Client 2 reads a link that is
not there, and for the bitmap has to have client 1 flush. -/
theorem stack_refines_handover :
    ∃ s : Machine Fuse.Reply Job (Fin 3) Unit,
      Steps (Machine.step (Job.code .namesOnly)) fitting (Machine.start fun _ => Bytes.zero) s ∧
      s.replies = [.err .enosys, .done] ∧
      ∃ a : Clients Fuse.Reply Job (Fin 3 × Unit),
        Steps (Clients.step (Job.code .namesOnly)) anyMove (Clients.start fun _ => Bytes.zero) a ∧ Shown s a := by
  obtain ⟨s, hs, hreplies⟩ : ∃ s : Machine Fuse.Reply Job (Fin 3) Unit,
      Steps (Machine.step (Job.code .namesOnly)) fitting (Machine.start fun _ => Bytes.zero) s ∧
      s.replies = [.err .enosys, .done] :=
    Steps.exists_of_run
      ([.call (1, ()) .construct] ++ puts 1 0 ++ puts 1 200 ++ puts 1 10 ++ puts 1 1 ++
        [.go (1, ()) (0, Bytes.zero), .call (2, ()) (.request (.readlink 300) nofun)] ++ takes 2 300 ++
        [.go (2, ()) (0, Bytes.zero), .lock 10 (.acquire 2 ()), .lock 10 (.serveAcquire 2 ()),
          .lock 10 (.readOwner 2 ()), .lock 10 (.revokeHandler 2 ()), .block (.flush 2 () 10 Bytes.zero),
          .block (.servePut 1), .block (.putReply 1), .lock 10 (.dorelease 2 ()), .lock 10 (.serveRelease 2 ()),
          .lock 10 (.retryHandler 2 ()), .lock 10 (.retryReply 2 ()), .lock 10 (.releaseReply 2 () none),
          .lock 10 (.revokeReply 2 ()), .lock 10 (.acquireReply 2 ()), .lock 10 (.serveAcquire 2 ()),
          .lock 10 (.acquireReply 2 ()), .go (2, ()) (0, Bytes.zero), .block (.serveGet 2), .block (.getReply 2),
          .lock 10 (.release 2 () none), .lock 300 (.release 2 () none), .go (2, ()) (0, Bytes.zero)])
      (by decide +kernel)
  exact ⟨s, hs, hreplies, stack_refines _ _ hs⟩

end Yfs.Stack

import Yfs.Extent.Coherence
import Yfs.Fs.Clients
import Yfs.Lock.Usage

/-! The file system clients on the servers they really have.

A thread of a client runs a function of `yfs_client`, call by call. `lc->acquire` and
`lc->release` are those of `lock_client_cache`: the call goes through the lock protocol,
and the thread is back when the protocol has it past `acquire`, or outside again. `ec->get`
and `ec->put` are those of `extent_client_cache`, which answers from its cache or waits
for the extent server; nothing there looks at locks. Everything else that can move is the
protocols' own: handlers, replies, flushes, wake-ups. RPCs do not fail here, and a new
entry of a cache, whose `is_data_dirty` the source does not set, is not dirty. Calls and
returns are logged as `Clients` logs them, where locks are just taken and blocks are just
read. -/
namespace Yfs.Stack
open Base
open Fs (Block Call Code)

variable {α Q Id T : Type} [LinearOrder Id] [DecidableEq T]

/-- Lock and block numbers, as they go over the wire. -/
def wire (n : Nat) : BitVec 64 := BitVec.ofNat 64 n

structure Machine (α Q Id T : Type) [LinearOrder Id] where
  world : Extent.World Id T Block
  running : Id × T → Option (Q × Code α) := fun _ => none
  log : List (Mark (Id × T) Q α) := []

/-- A thread is given a request; it makes a call that is answered at once, begins `get`, or
returns; a move of the lock protocol, the begin of `acquire` and `release` included; a
move of the block protocol. -/
inductive Move (Q Id T : Type) where
  | call (p : Id × T) (q : Q)
  | go (p : Id × T) (o : Nat × Block)
  | lock (l : Nat) (m : Lock.Act Id T)
  | block (x : Extent.Op Id T Block)

namespace Machine

def start (disk : Extent.Eid → Block) : Machine α Q Id T := {world := {disk := disk}}

def setWorld (s : Machine α Q Id T) (w : Extent.World Id T Block) : Machine α Q Id T := {s with world := w}

/-- The call has returned and the program of the thread goes on. -/
def advance (s : Machine α Q Id T) (p : Id × T) (q : Q) (next : Code α) (w : Extent.World Id T Block) :
    Machine α Q Id T :=
  {s with world := w, running := Function.update s.running p (some (q, next))}

/-- The next call of a thread, where it is not one on a lock. -/
def go (s : Machine α Q Id T) (p : Id × T) (q : Q) (o : Nat × Block) : Code α → Option (Machine α Q Id T)
  | .pure a => some {s with running := Function.update s.running p none, log := .returned p q a :: s.log}
  | .op .time k => some (s.advance p q (k o.1) s.world)
  | .op .junk k => some (s.advance p q (k o.2) s.world)
  | .op (.get b) k =>
    if (s.world.call p.1).isNone then
      match s.world.get p.1 p.2 (wire b) o.2 with
      | (w, some buf) => some (s.advance p q (k (.ok, buf)) w)
      | (w, none) => some (s.setWorld w)
    else none
  | .op (.put b d) k =>
    if (s.world.call p.1).isNone then some (s.advance p q (k .ok) (s.world.put p.1 (wire b) d)) else none
  | .op _ _ => none

variable [Fintype T]

/-- A move for the lock that the program of its thread is asking for or giving back. -/
def lock (s : Machine α Q Id T) (l : Nat) (m : Lock.Act Id T) (q : Q) : Code α → Option (Machine α Q Id T)
  | .op (.acquire l') k =>
    if l' = l ∧ m.starts ≠ some .holding then
      (Extent.step s.world (.lock (wire l, m))).map fun w =>
        if w.locks.pc m.thread.1 m.thread.2 (wire l) = .holding then s.advance m.thread q (k ()) w else s.setWorld w
    else none
  | .op (.release l') k =>
    if l' = l ∧ m.starts ≠ some .idle then
      (Extent.step s.world (.lock (wire l, m))).map fun w =>
        if w.locks.pc m.thread.1 m.thread.2 (wire l) = .idle then s.advance m.thread q (k ()) w else s.setWorld w
    else none
  | _ => none

/-- The reply of `get` reaches its thread. -/
def getReply (s : Machine α Q Id T) (c : Id) : Option (Machine α Q Id T) :=
  match s.world.call c with
  | some (.get t _ (some buf)) =>
    match s.running (c, t) with
    | some (q, .op (.get _) k) => (Extent.step s.world (.getReply c)).map (s.advance (c, t) q (k (.ok, buf)))
    | _ => none
  | _ => none

def step (code : Q → Code α) (s : Machine α Q Id T) : Move Q Id T → Option (Machine α Q Id T)
  | .call p q =>
    match s.running p with
    | none => some {s with running := Function.update s.running p (some (q, code q)), log := .called p q :: s.log}
    | some _ => none
  | .go p o => (s.running p).bind fun r => s.go p r.1 o r.2
  | .lock l m => (s.running m.thread).bind fun r => s.lock l m r.1 r.2
  | .block x =>
    match x with
    | .getReply c => s.getReply c
    | .serveGet _ | .flush _ _ _ _ | .servePut _ | .putReply _ => (Extent.step s.world x).map s.setWorld
    | .lock _ | .get _ _ _ _ | .put _ _ _ _ => none

end Machine

/-- The lock ids are non-negative C `int`s. -/
def fitting (_ : Machine α Q Id T) : Move Q Id T → Prop
  | .lock l _ => l < 2 ^ 31
  | _ => True

instance (s : Machine α Q Id T) (m : Move Q Id T) : Decidable (fitting s m) := by
  cases m with
  | lock l m => exact inferInstanceAs (Decidable (l < 2 ^ 31))
  | _ => exact isTrue trivial

end Yfs.Stack

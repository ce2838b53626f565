import Mathlib.Data.Fintype.Basic
import Yfs.Base.OrderedSet
import Yfs.Base.Runs

/-! The caching lock protocol, for one lock id.

A client caches the locks it was granted and gives one back only when the server
asks for it. The server grants a free lock, and otherwise remembers the client as
a waiter, asks the owner to give the lock back (*revoke*) and answers RETRY; when
the owner releases, the server tells the first two waiters to ask again (*retry*).
Clients and server are threads and RPC handlers that run in any order.

This file is what `lock_client_cache` and `lock_server_cache` do to the entries of
their maps under one lock id. A *move* (`Act`) is one stretch of code between two
places where a thread may have to wait: a section under a mutex, a message taken
from the network, a return from `pthread_cond_wait`. Every RPC is carried by the
thread that is waiting for it, so a thread's `Pc` says where its request, the
handler that serves it and the calls made by that handler have got to. -/
namespace Yfs.Lock
open Base

/-- `lock_client_cache::oostatus`. -/
inductive Status where
  | none | free | locked | acquiring | releasing | earlyRevoked
  deriving DecidableEq, Repr

/-- What the server's `acquire` answers. -/
inductive Ret where
  | ok | retry
  deriving DecidableEq, Repr

/-- A client's entries under one key: `status_map`, `waiters_num_map`,
`revoked_map`, `retried_map`. `mutex` says that some thread holds
`status_mutex_map` across a call; a section that does not block takes and returns
it within one move. -/
structure ClientLock where
  status : Status := .none
  waitersNum : Nat := 0
  revoked : Bool := false
  retried : Bool := false
  mutex : Bool := false
  deriving DecidableEq, Repr

/-- The server's entries under one lock id: `lock_map`, `lock_revoked_map`,
`lock_owner_map` (the empty string is `none`), `lock_waiters_map`. `mutex` says that
a handler holds `lock_mutex_map` across a call. -/
structure ServerLock (Id : Type) [LinearOrder Id] where
  lock : Bool := false
  revoked : Bool := false
  owner : Option Id := none
  waiters : OrderedSet Id := ∅
  mutex : Bool := false

/-- Where a release RPC has got to: the flush before it, its request on the way,
the server's handler waiting for the answer of a retry call (`cnt` more may follow,
to the front of `rest`), that answer on the way, the reply on the way. -/
inductive RelPhase (Id : Type) where
  | dorelease
  | request
  | retry (cnt : Nat) (w : Id) (rest : List Id)
  | retryReply (cnt : Nat) (rest : List Id)
  | reply
  deriving DecidableEq

/-- Where an acquire RPC has got to: its request on the way, the server's handler
about to read the owner, its revoke call on the way to `dst`, the revoke handler of
`dst` in its release RPC, the answer to the revoke on the way, the reply on the way. -/
inductive AcqPhase (Id : Type) where
  | request
  | readOwner
  | revoke (dst : Id)
  | revoking (dst : Id) (p : RelPhase Id)
  | revokeReply
  | reply (r : Ret)
  deriving DecidableEq

/-- Where a client thread is, with respect to this lock: outside, in the RPC of
`acquire`, in `pthread_cond_wait` inside `acquire` (woken or not), between the return
of `acquire` and its call of `release`, in the RPC of `release`, in
`pthread_cond_wait` inside `release`. -/
inductive Pc (Id : Type) where
  | idle
  | acqRpc (p : AcqPhase Id)
  | acqWait (woken : Bool)
  | holding
  | relRpc (p : RelPhase Id)
  | relWait (woken : Bool)
  deriving DecidableEq

/-- The clients, their threads and the server, for one lock id. -/
structure St (Id T : Type) [LinearOrder Id] where
  server : ServerLock Id := {}
  client : Id → ClientLock := fun _ => {}
  pc : Id → T → Pc Id := fun _ _ => .idle

/-- One stretch of code. `t` is the thread of client `c` that runs it, or that waits
for the handler that does. `sig` is the thread `pthread_cond_signal` picks. -/
inductive Act (Id T : Type) where
  | acquire (c : Id) (t : T)
  | serveAcquire (c : Id) (t : T)
  | readOwner (c : Id) (t : T)
  | revokeHandler (c : Id) (t : T)
  | revokeReply (c : Id) (t : T)
  | acquireReply (c : Id) (t : T)
  | release (c : Id) (t : T) (sig : Option T)
  | dorelease (c : Id) (t : T)
  | serveRelease (c : Id) (t : T)
  | retryHandler (c : Id) (t : T)
  | retryReply (c : Id) (t : T)
  | releaseReply (c : Id) (t : T) (sig : Option T)
  | wake (c : Id) (t : T)
  | resume (c : Id) (t : T) (sig : Option T)
  deriving DecidableEq

def Act.thread {Id T : Type} : Act Id T → Id × T
  | .acquire c t | .serveAcquire c t | .readOwner c t | .revokeHandler c t | .revokeReply c t
  | .acquireReply c t | .release c t _ | .dorelease c t | .serveRelease c t | .retryHandler c t
  | .retryReply c t | .releaseReply c t _ | .wake c t | .resume c t _ => (c, t)

section Client
variable {Id : Type}

/-- `case NONE`: unlock and call the server. -/
def callAcquire (k : ClientLock) : ClientLock × Pc Id :=
  ({k with status := .acquiring}, .acqRpc .request)

/-- `++waiters_num_map[lid]; pthread_cond_wait(..)` in `acquire`. -/
def condWait (k : ClientLock) : ClientLock × Pc Id :=
  ({k with waitersNum := k.waitersNum + 1}, .acqWait false)

/-- `acquire` from `CHECK_AGAIN` to the next place it unlocks: ACQUIRING with the retried
flag set goes through NONE once more. No result is a failed `VERIFY`. -/
def checkAgain (k : ClientLock) : Option (ClientLock × Pc Id) :=
  match k.status with
  | .none => some (callAcquire k)
  | .free => some ({k with status := .locked}, .holding)
  | .acquiring =>
    if k.retried then some (callAcquire {k with status := .none, retried := false})
    else some (condWait k)
  | .locked | .releasing => some (condWait k)
  | .earlyRevoked => none

/-- What `acquire` does with the server's answer before `goto CHECK_AGAIN`. -/
def granted (r : Ret) (k : ClientLock) : ClientLock :=
  if r = .ok ∧ k.status = .acquiring then {k with status := .free} else k

/-- Whether `release` gives the lock back to the server: `revoked_map[lid] && 0 ==
waiters_num_map[lid]`. -/
def givesBack (k : ClientLock) : Bool := k.revoked && k.waitersNum == 0

/-- `release` from `CHECK_POINT` to the next place it unlocks or calls, and whether it
signals there. -/
def checkPoint (k : ClientLock) : Option (ClientLock × Pc Id × Bool) :=
  match k.status with
  | .locked =>
    if givesBack k then
      some ({k with status := .releasing, revoked := false, mutex := true}, .relRpc .dorelease, false)
    else some ({k with status := .free}, .idle, true)
  | .releasing => some ({k with waitersNum := k.waitersNum + 1}, .relWait false, false)
  | .none | .free | .acquiring | .earlyRevoked => none

end Client

/-! ### The server's handlers -/

section Server
variable {Id : Type} [LinearOrder Id]

/-- `lock_server_cache::acquire` under its mutex. A client that already owns the lock
becomes a waiter for it. -/
def serverAcquire (v : ServerLock Id) (id : Id) : ServerLock Id × AcqPhase Id :=
  if v.lock = false then
    ({v with lock := true, owner := some id, waiters := v.waiters.erase id, revoked := false}, .reply .ok)
  else if v.owner = some id then
    ({v with waiters := v.waiters.insert id}, .reply .retry)
  else if v.revoked then ({v with waiters := v.waiters.insert id}, .reply .retry)
  else ({v with waiters := v.waiters.insert id, revoked := true}, .readOwner)

/-- The head of the retry loop: the next waiter to call, or the reply. -/
def retryLoop (cnt : Nat) : List Id → RelPhase Id
  | [] => .reply
  | w :: rest =>
    match cnt with
    | 0 => .reply
    | cnt + 1 => .retry cnt w rest

/-- `lock_server_cache::release` up to its first retry call. -/
def serverRelease (v : ServerLock Id) : ServerLock Id × RelPhase Id :=
  let p := retryLoop 2 v.waiters.elems
  ({v with lock := false, owner := none, revoked := false, mutex := p ≠ .reply}, p)

end Server

/-! ### Threads -/

section Threads
variable {Id T : Type} [DecidableEq Id] [DecidableEq T]

/-- A thread in `pthread_cond_wait` that is woken. -/
def Pc.wake : Pc Id → Pc Id
  | .acqWait _ => .acqWait true
  | .relWait _ => .relWait true
  | p => p

/-- In `pthread_cond_wait`, not woken. -/
def Pc.blocked : Pc Id → Bool
  | .acqWait woken | .relWait woken => !woken
  | _ => false

def setClient (k : Id → ClientLock) (c : Id) (v : ClientLock) : Id → ClientLock :=
  fun c' => if c' = c then v else k c'

def setPc (pc : Id → T → Pc Id) (c : Id) (t : T) (p : Pc Id) : Id → T → Pc Id :=
  fun c' t' => if c' = c ∧ t' = t then p else pc c' t'

/-- `pthread_cond_broadcast` at client `c`. -/
def broadcast (pc : Id → T → Pc Id) (c : Id) : Id → T → Pc Id :=
  fun c' t' => if c' = c then (pc c' t').wake else pc c' t'

/-- `pthread_cond_signal` at client `c`: it wakes a blocked thread, if there is one. -/
def signal [Fintype T] (pc : Id → T → Pc Id) (c : Id) (sig : Option T) : Option (Id → T → Pc Id) :=
  match sig with
  | some t => if (pc c t).blocked then some (setPc pc c t (pc c t).wake) else none
  | none => if ∀ t, ¬ (pc c t).blocked then some pc else none

/-- The release RPC a thread's stack carries, with the client that releases: the
thread's own, or the one the revoke handler it waits for has called. -/
def Pc.release? (c : Id) : Pc Id → Option (Id × RelPhase Id)
  | .relRpc p => some (c, p)
  | .acqRpc (.revoking dst p) => some (dst, p)
  | _ => none

/-- The same stack with its release RPC at `p`. -/
def Pc.setRelease (p : RelPhase Id) : Pc Id → Pc Id
  | .relRpc _ => .relRpc p
  | .acqRpc (.revoking dst _) => .acqRpc (.revoking dst p)
  | q => q

end Threads

/-! ### The moves -/

section Moves
variable {Id T : Type} [LinearOrder Id] [DecidableEq T]

/-- A thread of `acquire` at `CHECK_AGAIN`, with its client's entries at `k`. -/
def enter (s : St Id T) (c : Id) (t : T) (k : ClientLock) : Option (St Id T) :=
  (checkAgain k).map fun r =>
    {s with client := setClient s.client c r.1, pc := setPc s.pc c t r.2}

/-- A thread of `release` at `CHECK_POINT`, with its client's entries at `k`. -/
def leave [Fintype T] (s : St Id T) (c : Id) (t : T) (sig : Option T) (k : ClientLock) :
    Option (St Id T) :=
  (checkPoint k).bind fun r =>
    let pc := setPc s.pc c t r.2.1
    (if r.2.2 then signal pc c sig else some pc).map fun pc =>
      {s with client := setClient s.client c r.1, pc := pc}

/-- `revoke_handler` at `dst`, called for the acquire RPC of `t`. -/
def revokeHandler (s : St Id T) (c : Id) (t : T) (dst : Id) : St Id T :=
  let k := s.client dst
  if k.status = .free then
    {s with
      client := setClient s.client dst {k with status := .none, mutex := true}
      pc := setPc s.pc c t (.acqRpc (.revoking dst .dorelease))}
  else
    {s with
      client := setClient s.client dst {k with revoked := true}
      pc := setPc (broadcast s.pc dst) c t (.acqRpc .revokeReply)}

/-- `retry_handler` at `w`, called by the release handler that `t` waits for. -/
def retryHandler (s : St Id T) (c : Id) (t : T) (cnt : Nat) (w : Id) (rest : List Id) : St Id T :=
  {s with
    client := setClient s.client w {s.client w with retried := true}
    pc := setPc (broadcast s.pc w) c t ((s.pc c t).setRelease (.retryReply cnt rest))}

def retryNext (s : St Id T) (c : Id) (t : T) (cnt : Nat) (rest : List Id) : St Id T :=
  let p := retryLoop cnt rest
  {s with
    server := {s.server with mutex := p ≠ .reply}
    pc := setPc s.pc c t ((s.pc c t).setRelease p)}

/-- The flush is done: `release` unlocks and sends its request, the revoke handler
sends it with the mutex still held. -/
def doreleaseDone (s : St Id T) (c : Id) (t : T) : Option (St Id T) :=
  match s.pc c t with
  | .relRpc .dorelease =>
    some {s with
      client := setClient s.client c {s.client c with mutex := false}
      pc := setPc s.pc c t (.relRpc .request)}
  | .acqRpc (.revoking dst .dorelease) =>
    some {s with pc := setPc s.pc c t (.acqRpc (.revoking dst .request))}
  | _ => none

def releaseReply [Fintype T] (s : St Id T) (c : Id) (t : T) (sig : Option T) : Option (St Id T) :=
  match s.pc c t with
  | .relRpc .reply =>
    if (s.client c).mutex then none else
      (signal (setPc s.pc c t .idle) c sig).map fun pc =>
        {s with client := setClient s.client c {s.client c with status := .none}, pc := pc}
  | .acqRpc (.revoking dst .reply) =>
    some {s with
      client := setClient s.client dst {s.client dst with mutex := false}
      pc := setPc (broadcast s.pc dst) c t (.acqRpc .revokeReply)}
  | _ => none

/-- One move. The owner is read outside the server's mutex; reading none is a failed
`safebind`, and `VERIFY(0)`. `wake` is `pthread_cond_wait` returning without a signal. -/
def step [Fintype T] (s : St Id T) : Act Id T → Option (St Id T)
  | .acquire c t =>
    if s.pc c t = .idle ∧ (s.client c).mutex = false then enter s c t (s.client c) else none
  | .serveAcquire c t =>
    if s.pc c t = .acqRpc .request ∧ s.server.mutex = false then
      some {s with
        server := (serverAcquire s.server c).1
        pc := setPc s.pc c t (.acqRpc (serverAcquire s.server c).2)}
    else none
  | .readOwner c t =>
    if s.pc c t = .acqRpc .readOwner then
      s.server.owner.map fun dst => {s with pc := setPc s.pc c t (.acqRpc (.revoke dst))}
    else none
  | .revokeHandler c t =>
    match s.pc c t with
    | .acqRpc (.revoke dst) => if (s.client dst).mutex then none else some (revokeHandler s c t dst)
    | _ => none
  | .revokeReply c t =>
    if s.pc c t = .acqRpc .revokeReply then
      some {s with pc := setPc s.pc c t (.acqRpc (.reply .retry))}
    else none
  | .acquireReply c t =>
    match s.pc c t with
    | .acqRpc (.reply r) =>
      if (s.client c).mutex then none else enter s c t (granted r (s.client c))
    | _ => none
  | .release c t sig =>
    if s.pc c t = .holding ∧ (s.client c).mutex = false then leave s c t sig (s.client c) else none
  | .dorelease c t => doreleaseDone s c t
  | .serveRelease c t =>
    match (s.pc c t).release? c with
    | some (_, .request) =>
      if s.server.mutex then none else
        some {s with
          server := (serverRelease s.server).1
          pc := setPc s.pc c t ((s.pc c t).setRelease (serverRelease s.server).2)}
    | _ => none
  | .retryHandler c t =>
    match (s.pc c t).release? c with
    | some (_, .retry cnt w rest) =>
      if (s.client w).mutex then none else some (retryHandler s c t cnt w rest)
    | _ => none
  | .retryReply c t =>
    match (s.pc c t).release? c with
    | some (_, .retryReply cnt rest) => some (retryNext s c t cnt rest)
    | _ => none
  | .releaseReply c t sig => releaseReply s c t sig
  | .wake c t =>
    if (s.pc c t).blocked then some {s with pc := setPc s.pc c t (s.pc c t).wake} else none
  | .resume c t sig =>
    if (s.client c).mutex then none else
      let k := {s.client c with waitersNum := (s.client c).waitersNum - 1}
      match s.pc c t with
      | .acqWait true => enter s c t k
      | .relWait true => leave s c t sig k
      | _ => none

end Moves

end Yfs.Lock

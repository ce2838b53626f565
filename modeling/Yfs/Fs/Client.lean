import Mathlib.Algebra.Group.Int.Defs
import Yfs.Base.Prog
import Yfs.Base.SortedMap
import Yfs.Fs.Layout

/-! The file system client, `yfs_client`, function by function.

A function of the client is a program over the calls it makes: `lc->acquire` and
`lc->release`, `ec->get` and `ec->put`, `time(0)`. A buffer that is declared and not
filled holds whatever the call `junk` answers, and since most functions ignore the
status of `safe_get` that content can be used; `safe_get` therefore takes the buffer and
returns it as it then is. Output parameters are returned beside the status. A loop that
the source does not bound runs for `loopFuel` rounds and then hangs, and an access past
a buffer is a call without an answer. Inode numbers and sizes are 64-bit words; `off_t`
and the `long long` of `inner_write` are signed. -/
namespace Yfs.Fs
open Yfs.Base

/-- `xxstatus`. -/
inductive Status where
  | ok | rpcerr | noent | ioerr | exist
  deriving DecidableEq, Repr

inductive Call where
  | acquire (l : Nat)
  | release (l : Nat)
  | get (b : Nat)
  | put (b : Nat) (d : Block)
  | time
  /-- An uninitialised buffer is declared. -/
  | junk
  /-- The function loops without end. -/
  | hang
  /-- The function leaves the bounds of a buffer. -/
  | undefined

def Call.Answer : Call → Type
  | .acquire _ | .release _ => Unit
  | .get _ => Status × Block
  | .put _ _ => Status
  | .time => Nat
  | .junk => Block
  | .hang | .undefined => Empty

/-- The call is `acquire` of this lock. -/
def Call.acquires (l : Nat) : Call → Bool
  | .acquire l' => l' == l
  | _ => false

/-- The call is `release` of this lock. -/
def Call.releases (l : Nat) : Call → Bool
  | .release l' => l' == l
  | _ => false

/-- The call is `get` of this block. -/
def Call.gets (b : Nat) : Call → Bool
  | .get b' => b' == b
  | _ => false

/-- The call is `put` of such data to this block. -/
def Call.puts (b : Nat) (data : Block → Bool) : Call → Bool
  | .put b' d => b' == b && data d
  | _ => false

abbrev Code := Prog Call.Answer

variable {α : Type}

/-- `lc->acquire`. -/
def acquire (l : Nat) : Code Unit := Prog.call (Call.acquire l)
/-- `lc->release`. -/
def release (l : Nat) : Code Unit := Prog.call (Call.release l)
/-- `ec->get`. -/
def ecGet (b : Nat) : Code (Status × Block) := Prog.call (Call.get b)
/-- `ec->put`. -/
def ecPut (b : Nat) (d : Block) : Code Status := Prog.call (Call.put b d)
/-- `time(0)`. -/
def time : Code Nat := Prog.call Call.time
/-- `char buf[BSIZE]`. -/
def uninit : Code Block := Prog.call Call.junk
def hang : Code α := .op .hang Empty.elim
def undefinedAccess : Code α := .op .undefined Empty.elim

/-- A function between `acquire` and `release` of one lock. -/
def withLock (l : Nat) (p : Code α) : Code α := do
  acquire l
  let a ← p
  release l
  pure a

/-- The rounds of a loop without a bound of its own. -/
def loopFuel : Nat := 2 ^ 64

/-- `ino < BLOCK_BITMAP_BEGIN_BLOCK || ino > BLOCK_BITMAP_END_BLOCK`. -/
def outsideBitmap (ino : Nat) : Bool := decide (ino < bitmapBegin ∨ bitmapEnd < ino)

/-- The bit of block `ino`, read under the lock of its bitmap block. -/
def bitOf (ino : Nat) : Code Bool := do
  let bits ← withLock (bitmapBlock ino) (ecGet (bitmapBlock ino))
  pure (bits.2.bit (ino % bitmapPerBlock))

/-! ### `get`, `put` and `remove` -/

def get (ino : Nat) (buf : Block) : Code (Status × Block) :=
  if outsideBitmap ino then do
    let set ← bitOf ino
    if set then ecGet ino else pure (.noent, buf)
  else ecGet ino

/-- The loop of `put` that looks for a clear bit from `i` on: the status, `ino` and
`last_bitmap_block` as it ends. -/
def putLoop (ino : Nat) (buf : Block) : Nat → Nat → Nat → Code (Status × Nat × Nat)
  | 0, _, _ => hang
  | fuel + 1, i, last => do
    (if bitmapBlock i ≠ last then acquire (bitmapBlock i) else pure ())
    let bits ← ecGet (bitmapBlock i)
    if bits.2.bit (i % bitmapPerBlock) then putLoop ino buf fuel (i + 1) (bitmapBlock i)
    else do
      let ret ← withLock i (ecPut i buf)
      if ret ≠ .ok then pure (.ioerr, ino, bitmapBlock i)
      else do
        let ret ← ecPut (bitmapBlock i) (bits.2.setBit (i % bitmapPerBlock))
        if ret ≠ .ok then pure (.ioerr, ino, bitmapBlock i) else pure (.ok, i, bitmapBlock i)

/-- `while (last_bitmap_block >= BLOCK_BITMAP_BEGIN_BLOCK)`: release and count down. -/
def releaseDown : Nat → Code Unit
  | 0 => pure ()
  | last + 1 =>
    if bitmapBegin ≤ last + 1 then do
      release (last + 1)
      releaseDown last
    else pure ()

/-- Returns the status and `ino`. -/
def put (ino : Nat) (buf : Block) (add : Bool) : Code (Status × Nat) :=
  if add then do
    let r ← putLoop ino buf loopFuel 0 (2 ^ 64 - 1)
    releaseDown r.2.2
    pure (r.1, r.2.1)
  else if outsideBitmap ino then do
    let set ← bitOf ino
    if set then do
      let _ ← ecPut ino buf
      pure (.ok, ino)
    else pure (.noent, ino)
  else do
    let _ ← ecPut ino buf
    pure (.ok, ino)

def remove (ino : Nat) : Code Status :=
  withLock (bitmapBlock ino) do
    let bits ← ecGet (bitmapBlock ino)
    let ret ← ecPut (bitmapBlock ino) (bits.2.clearBit (ino % bitmapPerBlock))
    pure (if ret ≠ .ok then .ioerr else .ok)

def safeGet (ino : Nat) (buf : Block) (ignore : Nat) : Code (Status × Block) :=
  if ino = ignore then get ino buf else withLock ino (get ino buf)

def safePut (ino : Nat) (buf : Block) (add : Bool) (ignore : Nat) : Code (Status × Nat) :=
  if add = true ∨ ino = ignore then put ino buf add else withLock ino (put ino buf add)

/-! ### The constructor -/

/-- `"This is super block!"`. -/
def superIdentity : List Byte := "This is super block!".toList.map fun c => BitVec.ofNat 8 c.toNat

def superBlock : Block :=
  let buf : Block := Bytes.zero.write 0 (superIdentity ++ [0])
  let buf : Block := (buf.setU64 32 1024).setU64 64 0
  let buf : Block := buf.write 80 [1]
  buf.write 80 [buf.byte 80 ||| 2]

/-- The first bitmap block: the bits of 0 and 1, and `for` the bits of 10 to 200. -/
def firstBitmap : Block :=
  let buf : Block := Bytes.zero.write 0 [1]
  let buf : Block := buf.write 0 [buf.byte 0 ||| 2]
  (List.range' bitmapBegin (bitmapEnd + 1 - bitmapBegin)).foldl (fun buf i => buf.setBit i) buf

def rootBlock : Block :=
  let buf : Block := Block.setMode Bytes.zero 0
  (((buf.setSize 0).setAtime 0).setMtime 0).setCtime 0

/-- The constructor `yfs_client`. -/
def yfsClient : Code Unit := do
  let _ ← withLock 0 (ecPut 0 superBlock)
  let _ ← withLock bitmapEnd (ecPut bitmapEnd Bytes.zero)
  let _ ← withLock bitmapBegin (ecPut bitmapBegin firstBitmap)
  let _ ← withLock 1 (ecPut 1 rootBlock)
  pure ()

/-! ### Attributes -/

/-- `fileinfo`. -/
structure FileInfo where
  size : Nat
  atime : Nat
  mtime : Nat
  ctime : Nat
  deriving DecidableEq, Repr

/-- `dirinfo`. -/
structure DirInfo where
  atime : Nat
  mtime : Nat
  ctime : Nat
  deriving DecidableEq, Repr

/-- Whether `ino` is there and its mode is `mode`: `isfile` and `isdir`. -/
def hasMode (ino mode : Nat) : Code Bool :=
  withLock ino do
    let buf ← uninit
    let r ← safeGet ino buf ino
    pure (decide (r.1 = .ok) && decide (r.2.mode = mode))

def isfile (ino : Nat) : Code Bool := hasMode ino 1

def isdir (ino : Nat) : Code Bool := hasMode ino 0

/-- The error exit comes before the lock is released. -/
def issym (ino : Nat) : Code Bool := do
  let buf ← uninit
  acquire ino
  let r ← get ino buf
  if r.1 ≠ .ok then pure false
  else do
    release ino
    pure (decide (r.2.mode = 2))

/-- The inode of `ino` under its lock, read as `read` says: `getfile` and `getdir`. -/
def getattr (ino : Nat) (read : Block → α) : Code (Status × Option α) :=
  withLock ino do
    let buf ← uninit
    let r ← safeGet ino buf ino
    if r.1 = .noent then pure (.noent, none)
    else if r.1 ≠ .ok then pure (.ioerr, none)
    else pure (.ok, some (read r.2))

def getfile (ino : Nat) : Code (Status × Option FileInfo) :=
  getattr ino fun b => ⟨b.size, b.atime, b.mtime, b.ctime⟩

def getdir (ino : Nat) : Code (Status × Option DirInfo) :=
  getattr ino fun b => ⟨b.atime, b.mtime, b.ctime⟩

/-! ### Directories -/

/-- The index of the first of the `size` entries, from `i` on, that has this name. -/
def findEntry (buf : Block) (name : List Byte) : Nat → Nat → Code (Option Nat)
  | 0, _ => hang
  | fuel + 1, i =>
    if i < buf.size then
      match buf.streq (entryOffset i) name with
      | none => undefinedAccess
      | some true => pure (some i)
      | some false => findEntry buf name fuel (i + 1)
    else pure none

/-- `dir_entries[i].inum`. -/
def entryInum (buf : Block) (i : Nat) : Code Nat :=
  if entryOffset i + 72 ≤ 512 then pure (buf.inum i) else undefinedAccess

/-- How the search for a blank entry ends; `tmp` and `target` as they are then. -/
inductive Room where
  | error
  | dup (inum : Nat)
  | blank (tmp target : Nat) (buf : Block)

/-- The index of an entry with this name, where one is looked for at all. -/
def findDup (buf : Block) : Option (List Byte) → Code (Option Nat)
  | some name => findEntry buf name loopFuel 0
  | none => pure none

/-- `//search new blank entry`, the loop over the nodes that are full. `create` looks for
the name in each of them and looks at every status (`check`); `mkdir` does neither. -/
def roomLoop (parent : Nat) (name : Option (List Byte)) (check : Bool) : Nat → Nat → Nat → Block → Code Room
  | 0, _, _, _ => hang
  | fuel + 1, tmp, target, buf =>
    if dirEntryNum ≤ buf.size then do
      match ← findDup buf name with
      | some i => do
        let inum ← entryInum buf i
        pure (.dup inum)
      | none =>
        if buf.next ≠ 0 then do
          let r ← safeGet buf.next buf parent
          roomLoop parent name check fuel tmp buf.next r.2
        else do
          let r ← safePut tmp Bytes.zero true parent
          if check = true ∧ r.1 ≠ .ok then pure .error
          else do
            let ret ← safePut target (buf.setNext r.2) false parent
            if check = true ∧ ret.1 ≠ .ok then pure .error
            else roomLoop parent name check fuel r.2 target (buf.setNext r.2)
    else pure (.blank tmp target buf)

/-- `//fill in entry`: the new block is put, and its number goes behind the entries of
`target`; none where a status is looked at and is not `OK`. -/
def fillEntry (parent : Nat) (name : List Byte) (check : Bool) (new : Block) (tmp target : Nat) (buf : Block) :
    Code (Option Nat) := do
  let r ← safePut tmp new true parent
  if check = true ∧ r.1 ≠ .ok then pure none
  else
    match buf.addEntry r.2 name with
    | none => undefinedAccess
    | some buf => do
      let ret ← safePut target buf false parent
      if check = true ∧ ret.1 ≠ .ok then pure none else pure (some r.2)

/-- `ino` is the output parameter as the caller passes it. -/
def innerCreate (parent : Nat) (name : List Byte) (ino : Nat) : Code (Status × Nat) := do
  let buf ← uninit
  let r ← safeGet parent buf parent
  let now ← time
  let buf : Block := (r.2.setMtime now).setCtime now
  let ret ← safePut parent buf false parent
  if ret.1 ≠ .ok then pure (.ioerr, ino)
  else do
    match ← roomLoop parent (some (cStr name)) true loopFuel 0 parent buf with
    | .error => pure (.ioerr, ino)
    | .dup inum => pure (.ok, inum)
    | .blank tmp target buf => do
      match ← findDup buf (some (cStr name)) with
      | some i => do
        let inum ← entryInum buf i
        pure (.ok, inum)
      | none => do
        let mtime ← time
        let ctime ← time
        let new : Block := Block.setMode Bytes.zero 1
        let new : Block := ((new.setAtime 0).setMtime mtime).setCtime ctime
        match ← fillEntry parent (cStr name) true new tmp target buf with
        | none => pure (.ioerr, ino)
        | some inum => pure (.ok, inum)

/-- The same statements as `inner_create`, under the lock of the parent. -/
def create (parent : Nat) (name : List Byte) (ino : Nat) : Code (Status × Nat) :=
  withLock parent (innerCreate parent name ino)

/-- Without a name to compare and a status to look at, the search ends at a blank entry
and the entry is filled in. -/
def mkdir (parent : Nat) (name : List Byte) (ino : Nat) : Code (Status × Nat) :=
  withLock parent do
    let buf ← uninit
    let r ← safeGet parent buf parent
    let ctime ← time
    let mtime ← time
    let buf : Block := (r.2.setCtime ctime).setMtime mtime
    let _ ← safePut parent buf false parent
    match ← roomLoop parent none false loopFuel 0 parent buf with
    | .error | .dup _ => pure (.ok, ino)
    | .blank tmp target buf => do
      let mtime ← time
      let ctime ← time
      let new : Block := Block.setAtime Bytes.zero 0
      let inum ← fillEntry parent (cStr name) false ((new.setMtime mtime).setCtime ctime) tmp target buf
      pure (.ok, inum.getD ino)

/-- The loop of `lookup` over the nodes. -/
def lookupLoop (parent : Nat) (name : List Byte) : Nat → Block → Code Nat
  | 0, _ => hang
  | fuel + 1, buf => do
    match ← findEntry buf name loopFuel 0 with
    | some i => entryInum buf i
    | none =>
      if buf.next = 0 then pure 0
      else do
        let r ← safeGet buf.next buf parent
        lookupLoop parent name fuel r.2

/-- Returns an inode number, and where the inode cannot be written back `IOERR` as one. -/
def lookup (parent : Nat) (name : List Byte) : Code Nat :=
  withLock parent do
    let buf ← uninit
    let r ← safeGet parent buf parent
    let now ← time
    let ret ← safePut parent (r.2.setAtime now) false parent
    if ret.1 ≠ .ok then pure 3
    else lookupLoop parent (cStr name) loopFuel (r.2.setAtime now)

/-- The order of `std::map<inum, ..>`. -/
def byInum : Order Nat := .numbered Int.ofNat

/-- `std::map<inum, std::string>`. -/
abbrev Items := SortedMap byInum (List Byte)

/-- The loop of `readdir` over the entries of a node. -/
def readEntries (buf : Block) : Nat → Nat → Items → Code Items
  | 0, _, _ => hang
  | fuel + 1, i, items =>
    if i < buf.size then do
      let inum ← entryInum buf i
      match buf.stringAt (entryOffset i) with
      | none => undefinedAccess
      | some name => readEntries buf fuel (i + 1) (items.set inum name)
    else pure items

def readdirLoop (ino : Nat) : Nat → Block → Items → Code Items
  | 0, _, _ => hang
  | fuel + 1, buf, items => do
    let items ← readEntries buf loopFuel 0 items
    if buf.next = 0 then pure items
    else do
      let r ← safeGet buf.next buf ino
      readdirLoop ino fuel r.2 items

def readdir (ino : Nat) : Code (Status × Items) :=
  withLock ino do
    let buf ← uninit
    let r ← safeGet ino buf ino
    let now ← time
    let ret ← safePut ino (r.2.setAtime now) false ino
    if ret.1 ≠ .ok then pure (.ioerr, .empty)
    else do
      let items ← readdirLoop ino loopFuel (r.2.setAtime now) .empty
      pure (.ok, items)

/-- The loop of `unlink` over the nodes: the node that has the name and the index in it. -/
def unlinkLoop (parent : Nat) (name : List Byte) : Nat → Nat → Block → Code (Option (Nat × Block × Nat))
  | 0, _, _ => hang
  | fuel + 1, bufInum, buf => do
    match ← findEntry buf name loopFuel 0 with
    | some index => pure (some (bufInum, buf, index))
    | none =>
      if buf.next = 0 then pure none
      else do
        let r ← safeGet buf.next buf parent
        unlinkLoop parent name fuel buf.next r.2

/-- `for (inum i=0; i<INODE_DIRECT_BLOCK_NUM; ++i)`: remove, and stop at the first zero. -/
def removeDirect (buf : Block) : List Nat → Code Unit
  | [] => pure ()
  | i :: rest =>
    if buf.direct i ≠ 0 then do
      let _ ← remove (buf.direct i)
      removeDirect buf rest
    else pure ()

def recursiveUnlink : Nat → Nat → Code Unit
  | 0, _ => hang
  | fuel + 1, ino =>
    if ino = 0 then pure ()
    else do
      let buf ← uninit
      let r ← safeGet ino buf 0
      removeDirect r.2 (List.range directBlockNum)
      (if r.2.next ≠ 0 then recursiveUnlink fuel r.2.next else pure ())
      let _ ← remove ino
      pure ()

def unlink (parent : Nat) (name : List Byte) : Code Status :=
  withLock parent do
    let buf ← uninit
    let r ← safeGet parent buf parent
    let mtime ← time
    let ctime ← time
    let buf : Block := (r.2.setMtime mtime).setCtime ctime
    let _ ← safePut parent buf false parent
    match ← unlinkLoop parent (cStr name) loopFuel parent buf with
    | none => pure .noent
    | some (bufInum, buf, index) => do
      let unlinkInum ← entryInum buf index
      match buf.dropEntry index with
      | none => undefinedAccess
      | some newBuf => do
        let _ ← safePut bufInum newBuf false parent
        recursiveUnlink loopFuel unlinkInum
        pure .ok

/-! ### Reading -/

/-- A 64-bit word read as a signed one. -/
def toSigned (v : Nat) : Int := if v < 2 ^ 63 then v else v - 2 ^ 64

/-- The data block at a position, `index` in the node `inode`, going on to the next node
where `index` has left this one; none at the end of the file. -/
def readTouch (ino index : Nat) (inode : Block) : Code (Option (Nat × Block)) := do
  if directBlockNum ≤ index then
    if inode.next ≠ 0 then do
      let r ← safeGet inode.next inode ino
      pure (if r.2.direct 0 = 0 then none else some (0, r.2))
    else pure none
  else pure (if inode.direct index = 0 then none else some (index, inode))

/-- The offsetting loop of `inner_read`; none where the function returns from it. -/
def readSeek (ino : Nat) : Nat → Int → Nat → Nat → Block → Code (Option (Int × Nat × Nat × Block))
  | 0, _, _, _, _ => hang
  | fuel + 1, off, filesize, index, inode => do
    match ← readTouch ino index inode with
    | none => pure none
    | some (index, inode) =>
      if 512 ≤ off then
        if 512 ≤ filesize then readSeek ino fuel (off - 512) (filesize - 512) (index + 1) inode
        else pure none
      else pure (some (off, filesize, index, inode))

/-- `buf.append(data_buf + off, n)`. -/
def append (buf : List Byte) (data : Block) (off : Int) (n : Nat) : Code (List Byte) :=
  if n = 0 then pure buf
  else if 0 ≤ off ∧ off + n ≤ 512 then pure (buf ++ data.slice off.toNat n)
  else undefinedAccess

/-- The reading loop of `inner_read`. -/
def readLoop (ino : Nat) : Nat → Nat → Int → Nat → Nat → Block → Block → List Byte → Code (List Byte)
  | 0, _, _, _, _, _, _, _ => hang
  | fuel + 1, size, off, filesize, index, inode, data, buf => do
    match ← readTouch ino index inode with
    | none => pure buf
    | some (index, inode) => do
      let room := (512 - off).toNat
      let r ← safeGet (inode.direct index) data ino
      if size ≤ filesize then
        if size ≤ room then append buf r.2 off size
        else do
          let buf ← append buf r.2 off room
          readLoop ino fuel (size - room) 0 (filesize - room) (index + 1) inode r.2 buf
      else if filesize ≤ room then append buf r.2 off filesize
      else do
        let buf ← append buf r.2 off room
        readLoop ino fuel (size - room) 0 (filesize - room) (index + 1) inode r.2 buf

def innerRead (ino size : Nat) (off : Int) : Code (Status × List Byte) := do
  if size = 0 then pure (.ok, [])
  else do
    let buf ← uninit
    let r ← safeGet ino buf ino
    if r.1 = .noent then pure (.noent, [])
    else do
      let now ← time
      let inode : Block := r.2.setAtime now
      let ret ← safePut ino inode false ino
      if ret.1 ≠ .ok then pure (.ioerr, [])
      else do
        match ← readSeek ino loopFuel off inode.size 0 inode with
        | none => pure (.ok, [])
        | some (off, filesize, index, inode) => do
          let data ← uninit
          let buf ← readLoop ino loopFuel size off filesize index inode data []
          pure (.ok, buf)

def read (ino size : Nat) (off : Int) : Code (Status × List Byte) :=
  withLock ino (innerRead ino size off)

def readlink (ino : Nat) : Code (Status × List Byte) :=
  withLock ino do
    let buf ← uninit
    let r ← safeGet ino buf ino
    if r.1 = .noent then pure (.noent, [])
    else if r.1 ≠ .ok then pure (.ioerr, [])
    else innerRead ino r.2.size 0

/-! ### Writing -/

/-- Where `inner_write` is: `target`, `index` and `inode_buf`. -/
structure Cursor where
  target : Nat
  index : Nat
  inode : Block

/-- `if (index >= INODE_DIRECT_BLOCK_NUM)`: go on to the next node, a new one where there
is none. With `check` a status other than `OK` ends the function, none. -/
def nextNode (ino : Nat) (check : Bool) (c : Cursor) : Code (Option Cursor) :=
  if directBlockNum ≤ c.index then
    if c.inode.next = 0 then do
      let tmp ← safePut 0 (Block.setMode Bytes.zero 1) true ino
      if check = true ∧ tmp.1 ≠ .ok then pure none
      else do
        let inode : Block := c.inode.setNext tmp.2
        let ret ← safePut c.target inode false ino
        if check = true ∧ ret.1 ≠ .ok then pure none
        else do
          let r ← safeGet inode.next inode ino
          pure (some ⟨inode.next, 0, r.2⟩)
    else do
      let r ← safeGet c.inode.next c.inode ino
      pure (some ⟨c.inode.next, 0, r.2⟩)
  else pure (some c)

/-- `if (!direct_blocks[index])`: a new block of zeros. -/
def newDirect (ino : Nat) (c : Cursor) : Code Cursor :=
  if c.inode.direct c.index = 0 then do
    let tmp ← safePut 0 Bytes.zero true ino
    let inode : Block := c.inode.setDirect c.index tmp.2
    let _ ← safePut c.target inode false ino
    pure { c with inode := inode }
  else pure c

/-- `if (filesize < 0)`: zeros into the block. -/
def zeroDirect (ino : Nat) (filesize : Int) (c : Cursor) : Code Unit :=
  if filesize < 0 then do
    let _ ← safePut (c.inode.direct c.index) Bytes.zero false ino
    pure ()
  else pure ()

/-- `//touch the data block`, in both loops of `inner_write`; only the first of them
looks at a status. -/
def touch (ino : Nat) (check : Bool) (filesize : Int) (c : Cursor) : Code (Option Cursor) := do
  match ← nextNode ino check c with
  | none => pure none
  | some c => do
    let c ← newDirect ino c
    zeroDirect ino filesize c
    pure (some c)

/-- The offsetting loop of `inner_write`; none where it returns `IOERR`. -/
def writeSeek (ino : Nat) : Nat → Int → Int → Cursor → Code (Option (Int × Int × Cursor))
  | 0, _, _, _ => hang
  | fuel + 1, off, filesize, c => do
    match ← touch ino true filesize c with
    | none => pure none
    | some c =>
      if 512 ≤ off then writeSeek ino fuel (off - 512) (filesize - 512) { c with index := c.index + 1 }
      else pure (some (off, filesize, c))

/-- `memcpy(data_buf + off, buf, n)`, none where it leaves one of the two. -/
def memcpy (data : Block) (off : Int) (buf : List Byte) (n : Nat) : Option Block :=
  if n = 0 then some data
  else if 0 ≤ off ∧ off + n ≤ 512 ∧ n ≤ buf.length then some (data.write off.toNat (buf.take n))
  else none

/-- The writing loop of `inner_write`. -/
def writeLoop (ino : Nat) :
    Nat → List Byte → Nat → Int → Int → Block → Cursor → Code Cursor
  | 0, _, _, _, _, _, _ => hang
  | fuel + 1, buf, size, off, filesize, data, c => do
    match ← touch ino false filesize c with
    | none => pure c
    | some c => do
      let room := (512 - off).toNat
      let r ← safeGet (c.inode.direct c.index) data ino
      match memcpy r.2 off buf (min size room) with
      | none => undefinedAccess
      | some data => do
        let _ ← safePut (c.inode.direct c.index) data false ino
        if size ≤ room then pure c
        else
          writeLoop ino fuel (buf.drop room) (size - room) 0 (filesize - room) data
            { c with index := c.index + 1 }

/-- `filesize > off + size ? filesize : off + size`, compared and added as unsigned words. -/
def newFilesize (filesize size : Nat) (off : Int) : Nat :=
  max filesize ((off + size) % 2 ^ 64).toNat

/-- The status, and `size` as the caller finds it: the loop that writes counts it down, and at
the end it is set to what it was. -/
def innerWrite (ino : Nat) (buf : List Byte) (size : Nat) (off : Int) : Code (Status × Nat) := do
  let savedSize := size
  let inode ← uninit
  let data ← uninit
  let r ← safeGet ino inode ino
  if r.1 = .noent then pure (.noent, size)
  else do
    let atime ← time
    let mtime ← time
    let inode : Block := (r.2.setAtime atime).setMtime mtime
    let ret ← safePut ino inode false ino
    if ret.1 ≠ .ok then pure (.ioerr, size)
    else do
      match ← writeSeek ino loopFuel off (toSigned inode.size) ⟨ino, 0, inode⟩ with
      | none => pure (.ioerr, size)
      | some (off', filesize, c) => do
        let c ← writeLoop ino loopFuel buf size off' filesize data c
        let r ← safeGet ino c.inode ino
        let _ ← safePut ino (r.2.setSize (newFilesize inode.size size off)) false ino
        pure (.ok, savedSize)

def write (ino : Nat) (buf : List Byte) (size : Nat) (off : Int) : Code (Status × Nat) :=
  withLock ino (innerWrite ino buf size off)

/-- The inode is read before `inner_write` and written back after it. -/
def setattr (ino : Nat) (toSet : Bool) (info : FileInfo) : Code Status :=
  withLock ino do
    let buf ← uninit
    let r ← safeGet ino buf ino
    let buf : Block := ((r.2.setAtime info.atime).setMtime info.mtime).setCtime info.ctime
    let buf ←
      (if toSet then do
        let _ ← innerWrite ino (buf.slice 0 512) 0 (toSigned info.size)
        pure (buf.setSize info.size)
      else pure buf)
    let ret ← safePut ino buf false ino
    pure (if ret.1 ≠ .ok then .ioerr else .ok)

/-- `tmp` is not initialised. -/
def symlink (parent : Nat) (name link : List Byte) (ino : Nat) : Code (Status × Nat) :=
  withLock parent do
    let junk ← uninit
    let r ← innerCreate parent name (junk.u64 0)
    if r.1 ≠ .ok then pure (r.1, ino)
    else do
      let ret ← innerWrite r.2 link link.length 0
      if ret.1 ≠ .ok then pure (ret.1, ino)
      else do
        let buf ← uninit
        let got ← safeGet r.2 buf parent
        if got.1 ≠ .ok then pure (ret.1, ino)
        else do
          let put ← safePut r.2 (got.2.setMode 2) false parent
          if put.1 ≠ .ok then pure (ret.1, ino) else pure (ret.1, r.2)

end Yfs.Fs

import Yfs.Fs.Client

/-! The FUSE server, `fuse.cc`: the kernel's requests, answered with the file system client.

A handler makes calls of `yfs_client` one after the other and sends one reply, so it is a
program over the same calls as they are. Most handlers drop the status of `getattr`, and
what it has filled in by then is sent. A directory is sent as records, in the order of
`std::map`, cut to what the kernel asked for; what a record looks like is up to the FUSE
library (`Libfuse`). Generations and timeouts are always 0 and left out. -/
namespace Yfs.Fuse
open Base
open Fs (Code FileInfo Status)

/-- `struct stat`, as far as it is filled in. -/
structure Stat where
  ino : Nat
  mode : Nat := 0
  nlink : Nat := 0
  size : Nat := 0
  atime : Nat := 0
  mtime : Nat := 0
  ctime : Nat := 0
  deriving DecidableEq, Repr

/-- `struct fuse_entry_param`. -/
structure Entry where
  ino : Nat
  attr : Stat
  deriving DecidableEq, Repr

inductive Errno where
  | enoent | eexist | enosys | enotdir
  deriving DecidableEq, Repr

/-- What is sent; `done` is `fuse_reply_err(req, 0)`. -/
inductive Reply where
  | done
  | err (e : Errno)
  | attr (st : Stat)
  | entry (e : Entry)
  | create (e : Entry)
  | open
  | buf (data : List Byte)
  | write (size : Nat)
  | readlink (link : List Byte)
  | statfs (namemax bsize : Nat)
  deriving DecidableEq, Repr

/-! ### Attributes -/

def modeLink : Nat := 0o120000 ||| 0o666
def modeFile : Nat := 0o100000 ||| 0o666
def modeDir : Nat := 0o040000 ||| 0o777

/-- The branches of `getattr` for a link and for a file. -/
def getfileAttr (inum mode : Nat) : Code (Status × Stat) := do
  let r ← Fs.getfile inum
  match r.2 with
  | none => pure (r.1, {ino := inum})
  | some info => pure (.ok, ⟨inum, mode, 1, info.size, info.atime, info.mtime, info.ctime⟩)

/-- The branch of `getattr` for a directory, and for what is not there. -/
def getdirAttr (inum : Nat) : Code (Status × Stat) := do
  let r ← Fs.getdir inum
  match r.2 with
  | none => pure (r.1, {ino := inum})
  | some info => pure (.ok, ⟨inum, modeDir, 2, 0, info.atime, info.mtime, info.ctime⟩)

/-- The status, and `st` as it is then. -/
def getattr (inum : Nat) : Code (Status × Stat) := do
  -- an argument of `printf`
  let _ ← Fs.isfile inum
  let sym ← Fs.issym inum
  if sym then getfileAttr inum modeLink
  else do
    let file ← Fs.isfile inum
    if file then getfileAttr inum modeFile else getdirAttr inum

def fuseserverGetattr (ino : Nat) : Code Reply := do
  let r ← getattr ino
  if r.1 ≠ .ok then pure (.err .enoent) else pure (.attr r.2)

/-- `FUSE_SET_ATTR_SIZE`. -/
def setAttrSize : Nat := 8

/-- `attr` is the size and the times that the kernel passes. -/
def fuseserverSetattr (ino toSet : Nat) (attr : FileInfo) : Code Reply :=
  if setAttrSize &&& toSet ≠ 0 then do
    let ret ← Fs.setattr ino true attr
    if ret = .ok then do
      let r ← getattr ino
      pure (.attr r.2)
    else pure (.err .enosys)
  else pure (.err .enosys)

/-! ### Files -/

def fuseserverRead (ino size : Nat) (off : Int) : Code Reply := do
  let r ← Fs.read ino size off
  if r.1 = .ok then pure (.buf r.2) else pure (.err .enosys)

def fuseserverWrite (ino : Nat) (buf : List Byte) (size : Nat) (off : Int) : Code Reply := do
  let r ← Fs.write ino buf size off
  if r.1 = .ok then pure (.write r.2) else pure (.err .enosys)

def fuseserverOpen (_ino : Nat) : Code Reply := pure .open

/-! ### Entries -/

/-- `e.ino` and `e.attr` of an inode number. -/
def entryOf (ino : Nat) : Code Entry := do
  let r ← getattr ino
  pure ⟨ino, r.2⟩

/-- `ino` is not initialised. -/
def createhelper (parent : Nat) (name : List Byte) : Code (Status × Option Entry) := do
  let junk ← Fs.uninit
  let r ← Fs.create parent name (junk.u64 0)
  if r.1 = .ok then do
    let e ← entryOf r.2
    pure (.ok, some e)
  else pure (r.1, none)

/-- `fuseserver_create` and `fuseserver_mknod`, which differ in the reply. -/
def createReply (reply : Entry → Reply) (parent : Nat) (name : List Byte) : Code Reply := do
  let r ← createhelper parent name
  match r.2 with
  | some e => pure (reply e)
  | none => if r.1 = .exist then pure (.err .eexist) else pure (.err .enoent)

def fuseserverCreate (parent : Nat) (name : List Byte) : Code Reply := createReply .create parent name

def fuseserverMknod (parent : Nat) (name : List Byte) : Code Reply := createReply .entry parent name

/-- Any number but 0 counts as an inode, `IOERR` included. -/
def fuseserverLookup (parent : Nat) (name : List Byte) : Code Reply := do
  let ino ← Fs.lookup parent name
  if 0 < ino then do
    let e ← entryOf ino
    pure (.entry e)
  else pure (.err .enoent)

/-- The reply of `fuseserver_mkdir` and of `fuseserver_symlink`. -/
def replyNew (r : Status × Nat) : Code Reply := do
  if r.1 = .ok then do
    let e ← entryOf r.2
    pure (.entry e)
  else if r.1 = .exist then pure (.err .eexist)
  else pure (.err .enosys)

def fuseserverMkdir (parent : Nat) (name : List Byte) : Code Reply := do
  let junk ← Fs.uninit
  let r ← Fs.mkdir parent name (junk.u64 0)
  replyNew r

def fuseserverSymlink (link : List Byte) (parent : Nat) (name : List Byte) : Code Reply := do
  let junk ← Fs.uninit
  -- `link` becomes a `std::string`
  let r ← Fs.symlink parent name (Fs.cStr link) (junk.u64 0)
  replyNew r

def fuseserverUnlink (parent : Nat) (name : List Byte) : Code Reply := do
  let ret ← Fs.unlink parent name
  if ret = .ok then pure .done
  else if ret = .noent then pure (.err .enoent)
  else pure (.err .enosys)

/-- `link.c_str()` ends at the first zero. -/
def fuseserverReadlink (ino : Nat) : Code Reply := do
  let r ← Fs.readlink ino
  if r.1 = .ok then pure (.readlink (Fs.cStr r.2))
  else if r.1 = .exist then pure (.err .eexist)
  else pure (.err .enosys)

def fuseserverStatfs : Code Reply := pure (.statfs 255 512)

/-! ### Directories -/

/-- What the FUSE library computes for `dirbuf_add`: `fuse_dirent_size` of the length of a
name, and all the bytes of the record that `fuse_add_dirent` writes for a name, an inode
number and the offset of the next record. -/
structure Libfuse where
  direntSize : Nat → Nat
  addDirent : List Byte → Nat → Nat → List Byte
  length_addDirent : ∀ name ino off, (addDirent name ino off).length = direntSize name.length

def Libfuse.namesOnly : Libfuse := ⟨fun n => n, fun name _ _ => name, fun _ _ _ => rfl⟩

/-- `dirbuf_add`; the offset of the next record is the size with this one. -/
def dirbufAdd (lib : Libfuse) (b name : List Byte) (ino : Nat) : List Byte :=
  b ++ lib.addDirent name ino (b.length + lib.direntSize name.length)

/-- `off` is converted to `size_t` for the comparison. -/
def replyBufLimited (buf : List Byte) (off : Int) (maxsize : Nat) : Reply :=
  let start := (off % 2 ^ 64).toNat
  if start < buf.length then .buf ((buf.drop start).take (min (buf.length - start) maxsize)) else .buf []

def dirbuf (lib : Libfuse) (items : List (Nat × List Byte)) : List Byte :=
  items.foldl (fun b it => dirbufAdd lib b (Fs.cStr it.2) it.1) []

def fuseserverReaddir (lib : Libfuse) (ino size : Nat) (off : Int) : Code Reply := do
  let dir ← Fs.isdir ino
  if dir then do
    let r ← Fs.readdir ino
    if r.1 = .ok then pure (replyBufLimited (dirbuf lib r.2.entries) off size) else pure (.err .enotdir)
  else pure (.err .enotdir)

/-! ### Requests -/

inductive Request where
  | getattr (ino : Nat)
  | setattr (ino toSet : Nat) (attr : FileInfo)
  | read (ino size : Nat) (off : Int)
  | write (ino : Nat) (buf : List Byte) (size : Nat) (off : Int)
  | create (parent : Nat) (name : List Byte)
  | mknod (parent : Nat) (name : List Byte)
  | lookup (parent : Nat) (name : List Byte)
  | readdir (ino size : Nat) (off : Int)
  | open (ino : Nat)
  | mkdir (parent : Nat) (name : List Byte)
  | unlink (parent : Nat) (name : List Byte)
  | symlink (link : List Byte) (parent : Nat) (name : List Byte)
  | readlink (ino : Nat)
  | statfs

/-- `fuseserver_oper`. -/
def Request.code (lib : Libfuse) : Request → Code Reply
  | .getattr ino => fuseserverGetattr ino
  | .setattr ino toSet attr => fuseserverSetattr ino toSet attr
  | .read ino size off => fuseserverRead ino size off
  | .write ino buf size off => fuseserverWrite ino buf size off
  | .create parent name => fuseserverCreate parent name
  | .mknod parent name => fuseserverMknod parent name
  | .lookup parent name => fuseserverLookup parent name
  | .readdir ino size off => fuseserverReaddir lib ino size off
  | .open ino => fuseserverOpen ino
  | .mkdir parent name => fuseserverMkdir parent name
  | .unlink parent name => fuseserverUnlink parent name
  | .symlink link parent name => fuseserverSymlink link parent name
  | .readlink ino => fuseserverReadlink ino
  | .statfs => fuseserverStatfs

end Yfs.Fuse

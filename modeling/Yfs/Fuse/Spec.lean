import Mathlib.Data.BitVec
import Yfs.Base.Sparse
import Yfs.Fuse.Server

/-! The file system that the kernel is to find behind the requests.

At an inode number there is a file, a symbolic link or a directory, or nothing. A file has
bytes, and zeros past its size; a directory has names, each with the number of an inode.
`Answers` says which replies to a request are right and what is there afterwards. It leaves
open what the program is free in: the number of a new inode and all times. The records of a
directory are those of the FUSE library that the server is built with. -/
namespace Yfs.Fuse
open Base
open Function (update)
open Fs (cStr)

inductive Node where
  | file (link : Bool) (bytes : Sparse Byte)
  | dir (names : List Byte → Option Nat)

abbrev FileSystem := Nat → Option Node

def Node.mode : Node → Nat
  | .file true _ => modeLink
  | .file false _ => modeFile
  | .dir _ => modeDir

def Node.nlink : Node → Nat
  | .file _ _ => 1
  | .dir _ => 2

def Node.size : Node → Nat
  | .file _ bytes => bytes.size
  | .dir _ => 0

/-- The attributes of an inode, with any times. -/
structure IsStat (ino : Nat) (n : Node) (st : Stat) : Prop where
  ino : st.ino = ino
  mode : st.mode = n.mode
  nlink : st.nlink = n.nlink
  size : st.size = n.size

/-- The entries of a directory in the order of their inode numbers. -/
structure Listed (names : List Byte → Option Nat) (es : List (Nat × List Byte)) : Prop where
  sorted : es.Pairwise fun a b => a.1 < b.1
  mem : ∀ i s, (i, s) ∈ es ↔ names s = some i

/-- A new inode `i` with a name in directory `p`. -/
def Makes (σ : FileSystem) (p : Nat) (s : List Byte) (i : Nat) (n : Node) (σ' : FileSystem) : Prop :=
  ∃ names, σ p = some (.dir names) ∧ names s = none ∧ σ i = none ∧ i ≠ 0 ∧
    σ' = update (update σ i (some n)) p (some (.dir (update names s (some i))))

inductive Answers (lib : Libfuse) (σ : FileSystem) : Request → Reply → FileSystem → Prop where
  | getattr {ino : Nat} {n : Node} {st : Stat} : σ ino = some n → IsStat ino n st →
      Answers lib σ (.getattr ino) (.attr st) σ
  | resize {ino toSet : Nat} {attr : Fs.FileInfo} {link : Bool} {c : Sparse Byte} {st : Stat} :
      σ ino = some (.file link c) → setAttrSize &&& toSet ≠ 0 → IsStat ino (.file link (c.resize attr.size)) st →
      Answers lib σ (.setattr ino toSet attr) (.attr st) (update σ ino (some (.file link (c.resize attr.size))))
  | setattr {ino toSet : Nat} {attr : Fs.FileInfo} : setAttrSize &&& toSet = 0 →
      Answers lib σ (.setattr ino toSet attr) (.err .enosys) σ
  | read {ino size : Nat} {off : Int} {link : Bool} {c : Sparse Byte} : σ ino = some (.file link c) →
      Answers lib σ (.read ino size off)
        (.buf ((List.range (min size (c.size - off.toNat))).map fun k => c.get (off.toNat + k))) σ
  | write {ino size : Nat} {buf : List Byte} {off : Int} {link : Bool} {c : Sparse Byte} :
      σ ino = some (.file link c) → Answers lib σ (.write ino buf size off) (.write size)
        (update σ ino (some (.file link (c.write off.toNat (buf.take size)))))
  | create {p i : Nat} {name : List Byte} {st : Stat} {σ' : FileSystem} :
      Makes σ p (cStr name) i (.file false .empty) σ' → IsStat i (.file false .empty) st →
      Answers lib σ (.create p name) (.create ⟨i, st⟩) σ'
  | mknod {p i : Nat} {name : List Byte} {st : Stat} {σ' : FileSystem} :
      Makes σ p (cStr name) i (.file false .empty) σ' → IsStat i (.file false .empty) st →
      Answers lib σ (.mknod p name) (.entry ⟨i, st⟩) σ'
  | mkdir {p i : Nat} {name : List Byte} {st : Stat} {σ' : FileSystem} :
      Makes σ p (cStr name) i (.dir fun _ => none) σ' → IsStat i (.dir fun _ => none) st →
      Answers lib σ (.mkdir p name) (.entry ⟨i, st⟩) σ'
  | symlink {p i : Nat} {link name : List Byte} {st : Stat} {σ' : FileSystem} :
      Makes σ p (cStr name) i (.file true (Sparse.empty.write 0 (cStr link))) σ' →
      IsStat i (.file true (Sparse.empty.write 0 (cStr link))) st →
      Answers lib σ (.symlink link p name) (.entry ⟨i, st⟩) σ'
  | lookup {p i : Nat} {name : List Byte} {names : List Byte → Option Nat} {n : Node} {st : Stat} :
      σ p = some (.dir names) → names (cStr name) = some i → σ i = some n → IsStat i n st →
      Answers lib σ (.lookup p name) (.entry ⟨i, st⟩) σ
  | noent {p : Nat} {name : List Byte} {names : List Byte → Option Nat} :
      σ p = some (.dir names) → names (cStr name) = none → Answers lib σ (.lookup p name) (.err .enoent) σ
  | readdir {ino size : Nat} {off : Int} {names : List Byte → Option Nat} {es : List (Nat × List Byte)} :
      σ ino = some (.dir names) → Listed names es →
      Answers lib σ (.readdir ino size off) (replyBufLimited (dirbuf lib es) off size) σ
  | notdir {ino size : Nat} {off : Int} {link : Bool} {c : Sparse Byte} : σ ino = some (.file link c) →
      Answers lib σ (.readdir ino size off) (.err .enotdir) σ
  | «open» {ino : Nat} : Answers lib σ (.open ino) .open σ
  | unlink {p i : Nat} {name : List Byte} {names : List Byte → Option Nat} {link : Bool} {c : Sparse Byte} :
      σ p = some (.dir names) → names (cStr name) = some i → σ i = some (.file link c) →
      Answers lib σ (.unlink p name) .done (update
        (update σ p (some (.dir (update names (cStr name) none)))) i none)
  | unlinked {p : Nat} {name : List Byte} {names : List Byte → Option Nat} :
      σ p = some (.dir names) → names (cStr name) = none → Answers lib σ (.unlink p name) (.err .enoent) σ
  | readlink {ino : Nat} {link : Bool} {c : Sparse Byte} : σ ino = some (.file link c) →
      Answers lib σ (.readlink ino) (.readlink (cStr c.toList)) σ
  | statfs : Answers lib σ .statfs (.statfs 255 512) σ

/-- Right answers to the requests in turn, the last first. -/
inductive Session (lib : Libfuse) (σ₀ : FileSystem) : List (Request × Reply) → FileSystem → Prop where
  | start : Session lib σ₀ [] σ₀
  | step {log : List (Request × Reply)} {σ σ' : FileSystem} {req : Request} {reply : Reply} :
      Session lib σ₀ log σ → Answers lib σ req reply σ' → Session lib σ₀ ((req, reply) :: log) σ'

def FileSystem.new : FileSystem := update (fun _ => none) 1 (some (.dir fun _ => none))

end Yfs.Fuse

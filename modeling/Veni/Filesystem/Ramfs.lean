import Mathlib.Algebra.Ring.Nat
import Veni.Libc.Malloc
import Veni.Libc.Strings

/-! The RAM file system, `kernel/kernel/filesystem/ramfs.c`. -/

namespace Veni.Filesystem

open Veni.Libc

def ramfsMaxFiles : ℕ := 64

def ramfsMaxEntries : ℕ := 256

inductive InodeType
  | file
  | dir
  deriving DecidableEq

structure RamfsDirent where
  name : CBuffer 32
  inodeIdx : ℕ

structure RamfsInode where
  type : InodeType
  data : Option ℕ
  size : ℕ
  capacity : ℕ
  entries : List RamfsDirent
  used : Bool

structure Ramfs where
  inodes : ℕ → RamfsInode
  heap : Malloc
  strtokNext : Option Cursor

namespace Ramfs

def setInode (r : Ramfs) (i : ℕ) (x : RamfsInode) : Ramfs :=
  { r with inodes := Function.update r.inodes i x }

def emptyInode (type : InodeType) : RamfsInode := ⟨type, none, 0, 0, [], true⟩

def allocInode (r : Ramfs) : Option (ℕ × Ramfs) :=
  ((List.range ramfsMaxFiles).find? fun i => !(r.inodes i).used).map fun i =>
    (i, r.setInode i (emptyInode .file))

def findEntry (entries : List RamfsDirent) (name : CString) : Option RamfsDirent :=
  entries.find? fun e => decide (e.name.val = name)

/-- The loop of `ramfs_find_inode`, at most `n` tokens, with what `strtok` leaves unread. -/
def findLoop (inodes : ℕ → RamfsInode) : ℕ → ℕ → CString → Option ℕ × CString
  | 0, current, rest => (some current, rest)
  | n + 1, current, rest =>
    match tokenStep rest with
    | (none, rest) => (some current, rest)
    | (some token, rest) =>
      if (inodes current).type = .dir then
        match findEntry (inodes current).entries token with
        | none => (none, rest)
        | some e => findLoop inodes n e.inodeIdx rest
      else (none, rest)

def ramfsFindInode (r : Ramfs) (path : CString) : Option ℕ × Ramfs :=
  if path = [] then (some 0, r)
  else
    let temp := (strncpy 255 path).val
    let found := findLoop r.inodes (temp.length + 1) 0 temp
    (found.1, { r with strtokNext := some ⟨.ramfsFindInode, found.2⟩ })

def ramfsInit (r : Ramfs) : Ramfs :=
  { r with
    inodes := fun i => if i = 0 then emptyInode .dir else { r.inodes i with used := false } }

def splitPath (path : CString) : CString × CString :=
  let temp := (strncpy 255 path).val
  (strrchr temp).getD ([], temp)

/-- The entry written behind the others of a directory; `none` when the array is full. -/
def addEntry (r : Ramfs) (parentIdx : ℕ) (basename : CString) (idx : ℕ) : Option Ramfs :=
  let parent := r.inodes parentIdx
  if ramfsMaxEntries ≤ parent.entries.length then none
  else
    some (r.setInode parentIdx
      { parent with entries := parent.entries ++ [⟨strncpy 31 basename, idx⟩] })

def removeEntry (r : Ramfs) (parentIdx : ℕ) (basename : CString) : Ramfs :=
  let parent := r.inodes parentIdx
  r.setInode parentIdx
    { parent with entries := parent.entries.eraseP fun e => decide (e.name.val = basename) }

def ramfsCreate (r : Ramfs) (path : CString) : Option ℕ × Ramfs :=
  let basename := (splitPath path).2
  match ramfsFindInode r (splitPath path).1 with
  | (none, r) => (none, r)
  | (some parentIdx, r) =>
    if (r.inodes parentIdx).type ≠ .dir then (none, r)
    else if (findEntry (r.inodes parentIdx).entries basename).isSome then (none, r)
    else
      match allocInode r with
      | none => (none, r)
      | some (idx, r) =>
        match addEntry r parentIdx basename idx with
        | none => (none, r)
        | some r => (some idx, r)

/-- `true` is the result 0, `false` is -1. -/
def ramfsMkdir (r : Ramfs) (path : CString) : Bool × Ramfs :=
  let basename := (splitPath path).2
  match ramfsFindInode r (splitPath path).1 with
  | (none, r) => (false, r)
  | (some parentIdx, r) =>
    if (r.inodes parentIdx).type ≠ .dir then (false, r)
    else if (findEntry (r.inodes parentIdx).entries basename).isSome then (true, r)
    else
      match allocInode r with
      | none => (false, r)
      | some (idx, r) =>
        let r := r.setInode idx { r.inodes idx with type := .dir }
        match addEntry r parentIdx basename idx with
        | none => (false, r)
        | some r => (true, r)

def freeData (r : Ramfs) (idx : ℕ) : Ramfs :=
  match (r.inodes idx).data with
  | none => r
  | some p => { r with heap := r.heap.free p }

def setUnused (r : Ramfs) (idx : ℕ) : Ramfs :=
  r.setInode idx { r.inodes idx with used := false }

def ramfsUnlink (r : Ramfs) (path : CString) : Bool × Ramfs :=
  let basename := (splitPath path).2
  match ramfsFindInode r (splitPath path).1 with
  | (none, r) => (false, r)
  | (some parentIdx, r) =>
    if (r.inodes parentIdx).type ≠ .dir then (false, r)
    else
      match findEntry (r.inodes parentIdx).entries basename with
      | none => (false, r)
      | some e =>
        (true, setUnused (freeData (removeEntry r parentIdx basename) e.inodeIdx) e.inodeIdx)

def ramfsRmdir (r : Ramfs) (path : CString) : Bool × Ramfs :=
  match ramfsFindInode r path with
  | (none, r) => (false, r)
  | (some idx, r) =>
    if (r.inodes idx).type ≠ .dir then (false, r)
    else if (r.inodes idx).entries ≠ [] then (false, r)
    else
      let basename := (splitPath path).2
      match ramfsFindInode r (splitPath path).1 with
      | (none, r) => (false, r)
      | (some parentIdx, r) =>
        match findEntry (r.inodes parentIdx).entries basename with
        | none => (false, r)
        | some _ => (true, setUnused (removeEntry r parentIdx basename) idx)

def ramfsStat (r : Ramfs) (path : CString) : Option (InodeType × ℕ) × Ramfs :=
  match ramfsFindInode r path with
  | (none, r) => (none, r)
  | (some idx, r) => (some ((r.inodes idx).type, (r.inodes idx).size), r)

def isOpenFile (r : Ramfs) (fd : ℕ) : Bool :=
  decide (fd < ramfsMaxFiles) && (r.inodes fd).used && decide ((r.inodes fd).type = .file)

/-- The bytes read and the new offset; `none` is an access outside the file's buffer. -/
def ramfsRead (r : Ramfs) (fd size offset : ℕ) : Option (List UInt8 × ℕ) :=
  let inode := r.inodes fd
  if r.isOpenFile fd = false ∨ inode.size ≤ offset ∨ inode.data = none then some ([], offset)
  else
    let size := if size > inode.size - offset then inode.size - offset else size
    (r.heap.load inode.data offset size).map fun bytes => (bytes, (offset + size) % 2 ^ 32)

def moveData (heap : Malloc) (data : Option ℕ) (size newbuf : ℕ) : Option Malloc :=
  match data with
  | none => some heap
  | some p =>
    (heap.load (some p) 0 size).bind fun bytes =>
      (heap.store (some newbuf) 0 bytes).map fun heap => heap.free p

def grow (r : Ramfs) (fd needed : ℕ) : Option (Bool × Ramfs) :=
  let inode := r.inodes fd
  if needed ≤ inode.capacity then some (true, r)
  else
    match r.heap.malloc needed with
    | (none, heap) => some (false, { r with heap := heap })
    | (some p, heap) =>
      (moveData heap inode.data inode.size p).map fun heap =>
        (true, { r with heap := heap }.setInode fd { inode with data := some p, capacity := needed })

def ramfsWrite (r : Ramfs) (fd : ℕ) (buf : List UInt8) (offset : ℕ) : Option (ℕ × ℕ × Ramfs) :=
  if r.isOpenFile fd = false then some (0, offset, r)
  else
    (grow r fd ((offset + buf.length) % 2 ^ 32)).bind fun grown =>
      if grown.1 = false then some (0, offset, grown.2)
      else
        let r := grown.2
        let inode := r.inodes fd
        let gap := List.replicate (offset - inode.size) 0
        (r.heap.store inode.data inode.size gap).bind fun heap =>
          (heap.store inode.data offset buf).map fun heap =>
            let newOffset := (offset + buf.length) % 2 ^ 32
            let size := if newOffset > inode.size then newOffset else inode.size
            (buf.length, newOffset, { r with heap := heap }.setInode fd { inode with size := size })

def ramfsClose (r : Ramfs) (fd : ℕ) : Bool := decide (fd < ramfsMaxFiles) && (r.inodes fd).used

end Ramfs

end Veni.Filesystem

import Veni.Filesystem.Ramfs
import Veni.Libc.StringCopy

/-! The names and paths of `kernel/kernel/filesystem/ramfs.c` as the bytes that they are in memory. -/

namespace Veni.Filesystem

open Veni.Libc Veni.Libc.Bytes

structure ByteInode where
  type : InodeType
  data : Option ℕ
  size : ℕ
  capacity : ℕ
  inodeIdx : ℕ → ℕ
  numEntries : ℕ
  used : Bool

/-- Where the arrays are: the names of the entries, `temp` of an operation and of `ramfs_find_inode` that it
calls, and the empty string. No two of them overlap. -/
structure Layout where
  name : ℕ → ℕ → ℕ
  temp : ℕ
  inner : ℕ
  empty : ℕ
  temp_ne : temp ≠ 0
  inner_ne : inner ≠ 0
  empty_ne : empty ≠ 0
  temp_inner : Apart temp 256 inner 256
  empty_temp : Apart temp 256 empty 1
  empty_inner : Apart inner 256 empty 1
  name_temp : ∀ i < ramfsMaxFiles, ∀ k < ramfsMaxEntries, Apart temp 256 (name i k) 32
  name_inner : ∀ i < ramfsMaxFiles, ∀ k < ramfsMaxEntries, Apart inner 256 (name i k) 32
  name_empty : ∀ i < ramfsMaxFiles, ∀ k < ramfsMaxEntries, Apart (name i k) 32 empty 1
  name_name : ∀ i < ramfsMaxFiles, ∀ k < ramfsMaxEntries, ∀ j < ramfsMaxFiles, ∀ l < ramfsMaxEntries,
    (i, k) ≠ (j, l) → Apart (name i k) 32 (name j l) 32

structure RamfsBytes where
  inodes : ℕ → ByteInode
  heap : Malloc
  strtok : Strtok

namespace RamfsBytes

def setInode (r : RamfsBytes) (i : ℕ) (x : ByteInode) : RamfsBytes :=
  { r with inodes := Function.update r.inodes i x }

def setMemory (r : RamfsBytes) (m : Bytes) : RamfsBytes :=
  { r with strtok := { r.strtok with memory := m } }

def allocInode (r : RamfsBytes) : Option (ℕ × RamfsBytes) :=
  ((List.range ramfsMaxFiles).find? fun i => !(r.inodes i).used).map fun i =>
    (i, r.setInode i ⟨.file, none, 0, 0, (r.inodes i).inodeIdx, 0, true⟩)

def splitPath (temp path empty : ℕ) (m : Bytes) : Option (ℕ × ℕ × Bytes) := do
  let m ← (strncpy m temp path 256).bind (Bytes.store · (temp + 255) 0)
  let lastSlash ← strrchr m slash.val addresses temp 0
  if lastSlash ≠ 0 then
    let m ← Bytes.store m lastSlash 0
    return (temp, lastSlash + 1, m)
  else return (empty, temp, m)

def searchEntries (m : Bytes) (name : ℕ → ℕ) (token : ℕ) : ℕ → ℕ → Option (Option ℕ)
  | 0, _ => some none
  | n + 1, i => do
    if (← strcmp m addresses (name i) token) = 0 then return some i
    else searchEntries m name token n (i + 1)

def findTokens (inodes : ℕ → ByteInode) (name : ℕ → ℕ → ℕ) :
    ℕ → ℕ → ℕ → Strtok → Option (Option ℕ × Strtok)
  | 0, _, _, _ => none
  | fuel + 1, current, token, t =>
    if token = 0 then some (some current, t)
    else if (inodes current).type ≠ .dir then some (none, t)
    else
      match searchEntries t.memory (name current) token (inodes current).numEntries 0 with
      | none => none
      | some none => some (none, t)
      | some (some i) =>
        match Bytes.strtok [slash] 0 t with
        | none => none
        | some (token, t) => findTokens inodes name fuel ((inodes current).inodeIdx i) token t

def ramfsFindInode (l : Layout) (r : RamfsBytes) (path : ℕ) : Option (Option ℕ × RamfsBytes) := do
  if path = 0 then return (some 0, r)
  if (← r.strtok.memory path) = 0 then return (some 0, r)
  let m ← (strncpy r.strtok.memory l.inner path 256).bind (Bytes.store · (l.inner + 255) 0)
  let (token, t) ← Bytes.strtok [slash] l.inner { r.strtok with memory := m }
  let (found, t) ← findTokens r.inodes l.name 256 0 token t
  return (found, { r with strtok := t })

def parentOf (l : Layout) (r : RamfsBytes) (path : ℕ) : Option (Option ℕ × ℕ × RamfsBytes) := do
  let (dirname, basename, m) ← splitPath l.temp path l.empty r.strtok.memory
  let (parentIdx, r) ← ramfsFindInode l (r.setMemory m) dirname
  return (parentIdx, basename, r)

def findEntry (l : Layout) (r : RamfsBytes) (parentIdx basename : ℕ) : Option (Option ℕ) :=
  searchEntries r.strtok.memory (l.name parentIdx) basename (r.inodes parentIdx).numEntries 0

/-- `none` inside is the refusal when the array is full. -/
def addEntry (l : Layout) (r : RamfsBytes) (parentIdx basename idx : ℕ) : Option (Option RamfsBytes) :=
  let parent := r.inodes parentIdx
  if ramfsMaxEntries ≤ parent.numEntries then some none
  else
    let name := l.name parentIdx parent.numEntries
    ((strncpy r.strtok.memory name basename 31).bind (Bytes.store · (name + 31) 0)).map fun m =>
      some ((r.setMemory m).setInode parentIdx
        { parent with
          inodeIdx := Function.update parent.inodeIdx parent.numEntries idx
          numEntries := parent.numEntries + 1 })

/-- `entries[i] = entries[i + 1]`, for `n` numbers from `i` on. -/
def shiftEntries (name : ℕ → ℕ) : ℕ → ℕ → Bytes → (ℕ → ℕ) → Option (Bytes × (ℕ → ℕ))
  | 0, _, m, inodeIdx => some (m, inodeIdx)
  | n + 1, i, m, inodeIdx => do
    let m ← memcpy m (name i) (name (i + 1)) 32
    shiftEntries name n (i + 1) m (Function.update inodeIdx i (inodeIdx (i + 1)))

def removeEntry (l : Layout) (r : RamfsBytes) (parentIdx entryIdx : ℕ) : Option RamfsBytes :=
  let parent := r.inodes parentIdx
  (shiftEntries (l.name parentIdx) (parent.numEntries - 1 - entryIdx) entryIdx r.strtok.memory
    parent.inodeIdx).map fun (m, inodeIdx) =>
      (r.setMemory m).setInode parentIdx
        { parent with inodeIdx := inodeIdx, numEntries := parent.numEntries - 1 }

def freeData (r : RamfsBytes) (idx : ℕ) : RamfsBytes :=
  match (r.inodes idx).data with
  | none => r
  | some p => { r with heap := r.heap.free p }

def setUnused (r : RamfsBytes) (idx : ℕ) : RamfsBytes :=
  r.setInode idx { r.inodes idx with used := false }

/-- The end of `ramfs_create` and `ramfs_mkdir` when there is no such entry: the new inode of a type. -/
def newEntry (l : Layout) (r : RamfsBytes) (parentIdx basename : ℕ) (type : InodeType) :
    Option (Option ℕ × RamfsBytes) :=
  match allocInode r with
  | none => some (none, r)
  | some (idx, r) =>
    let r := r.setInode idx { r.inodes idx with type := type }
    (addEntry l r parentIdx basename idx).map fun added =>
      match added with
      | none => (none, r)
      | some r => (some idx, r)

def ramfsCreate (l : Layout) (r : RamfsBytes) (path : ℕ) : Option (Option ℕ × RamfsBytes) := do
  if path = 0 then return (none, r)
  let (parentIdx, basename, r) ← parentOf l r path
  match parentIdx with
  | none => return (none, r)
  | some parentIdx =>
    if (r.inodes parentIdx).type ≠ .dir then return (none, r)
    else if (← findEntry l r parentIdx basename).isSome then return (none, r)
    else newEntry l r parentIdx basename .file

/-- `true` is the result 0, `false` is -1. -/
def ramfsMkdir (l : Layout) (r : RamfsBytes) (path : ℕ) : Option (Bool × RamfsBytes) := do
  if path = 0 then return (false, r)
  let (parentIdx, basename, r) ← parentOf l r path
  match parentIdx with
  | none => return (false, r)
  | some parentIdx =>
    if (r.inodes parentIdx).type ≠ .dir then return (false, r)
    else if (← findEntry l r parentIdx basename).isSome then return (true, r)
    else
      let (idx, r) ← newEntry l r parentIdx basename .dir
      return (idx.isSome, r)

def ramfsUnlink (l : Layout) (r : RamfsBytes) (path : ℕ) : Option (Bool × RamfsBytes) := do
  let (parentIdx, basename, r) ← parentOf l r path
  match parentIdx with
  | none => return (false, r)
  | some parentIdx =>
    if (r.inodes parentIdx).type ≠ .dir then return (false, r)
    else
      match ← findEntry l r parentIdx basename with
      | none => return (false, r)
      | some entryIdx =>
        let inodeIdx := (r.inodes parentIdx).inodeIdx entryIdx
        let r ← removeEntry l r parentIdx entryIdx
        return (true, setUnused (freeData r inodeIdx) inodeIdx)

def ramfsRmdir (l : Layout) (r : RamfsBytes) (path : ℕ) : Option (Bool × RamfsBytes) := do
  let (idx, r) ← ramfsFindInode l r path
  match idx with
  | none => return (false, r)
  | some idx =>
    if (r.inodes idx).type ≠ .dir then return (false, r)
    else if 0 < (r.inodes idx).numEntries then return (false, r)
    else
      let (parentIdx, basename, r) ← parentOf l r path
      match parentIdx with
      | none => return (false, r)
      | some parentIdx =>
        match ← findEntry l r parentIdx basename with
        | none => return (false, r)
        | some entryIdx =>
          let r ← removeEntry l r parentIdx entryIdx
          return (true, setUnused r idx)

end RamfsBytes

end Veni.Filesystem

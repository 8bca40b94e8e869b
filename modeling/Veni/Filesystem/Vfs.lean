import Veni.Filesystem.Ramfs
import Veni.Lib.ByteMemory

/-! The virtual file system, `kernel/kernel/filesystem/vfs.c`, over the RAM file system. -/

namespace Veni.Filesystem

open Veni.Libc Veni.Lib.ByteMemory

def vfsMaxOpen : ℕ := 64

def vfsMaxFs : ℕ := 16

/-- `sizeof(vfs_node_t)` and the offset of `fs_fd` in it. -/
def vfsNodeSize : ℕ := 60

def fsFdOffset : ℕ := 44

/-- Nodes and file systems are numbers; `children` lists the nodes linked by `children` and `next`. -/
structure VfsNode where
  name : CBuffer 32
  type : InodeType
  fs : ℕ
  fsFd : ℕ
  parent : Option ℕ
  children : List ℕ

structure VfsMount where
  mountPath : CBuffer 256
  node : ℕ
  fs : ℕ

structure VfsFile where
  node : Option ℕ
  offset : ℕ
  used : Bool

/-- The static data of the VFS and of what it calls; a node is the buffer of its number. -/
structure Vfs where
  ramfs : Ramfs
  nodes : ℕ → VfsNode
  files : ℕ → VfsFile
  mounts : List VfsMount

namespace Vfs

def setNode (v : Vfs) (i : ℕ) (x : VfsNode) : Vfs :=
  { v with nodes := Function.update v.nodes i x }

def setFile (v : Vfs) (fd : ℕ) (f : VfsFile) : Vfs :=
  { v with files := Function.update v.files fd f }

def setCursor (v : Vfs) (next : Option Cursor) : Vfs :=
  { v with ramfs := { v.ramfs with strtokNext := next } }

def isLive (v : Vfs) (i : ℕ) : Bool := (v.ramfs.heap.buffers i).isSome

def findChild (nodes : ℕ → VfsNode) (parent : ℕ) (name : CString) : Option ℕ :=
  (nodes parent).children.find? fun c => decide ((nodes c).name.val = name)

def mountMatches (path mountPath : CString) : Bool :=
  mountPath.isPrefixOf path &&
    (decide (mountPath = [slash] ∧ path.head? = some slash) ||
      decide ((path.drop mountPath.length).head? = some slash ∨ path.drop mountPath.length = []))

def findMountLoop (path : CString) : ℕ → Option ℕ → ℕ → List VfsMount → Option ℕ
  | _, best, _, [] => best
  | i, best, bestLen, m :: ms =>
    if bestLen < m.mountPath.val.length ∧ mountMatches path m.mountPath.val = true then
      findMountLoop path (i + 1) (some i) m.mountPath.val.length ms
    else findMountLoop path (i + 1) best bestLen ms

def findMountIdx (v : Vfs) (path : CString) : Option ℕ := findMountLoop path 0 none 0 v.mounts

def findMount (v : Vfs) (path : CString) : Option VfsMount :=
  (v.findMountIdx path).bind fun i => v.mounts[i]?

def relPath (mount : VfsMount) (path : CString) : CString :=
  let remaining := path.drop mount.mountPath.val.length
  if remaining.head? = some slash then remaining.tail else remaining

def resolveLoop (nodes : ℕ → VfsNode) : ℕ → ℕ → CString → Option ℕ × CString
  | 0, node, rest => (some node, rest)
  | n + 1, node, rest =>
    match tokenStep rest with
    | (none, rest) => (some node, rest)
    | (some token, rest) =>
      match findChild nodes node token with
      | none => (none, rest)
      | some child => resolveLoop nodes n child rest

def vfsResolve (v : Vfs) (path : CString) : Option ℕ × Vfs :=
  if path.head? ≠ some slash ∨ v.mounts = [] then (none, v)
  else
    match v.findMount path with
    | none => (none, v)
    | some mount =>
      let remaining := relPath mount path
      if remaining = [] then (some mount.node, v)
      else
        let temp := (strncpy 255 remaining).val
        let found := resolveLoop v.nodes (temp.length + 1) mount.node temp
        (found.1, v.setCursor (some ⟨.vfsResolve, found.2⟩))

def allocFd (v : Vfs) : Option (ℕ × Vfs) :=
  ((List.range vfsMaxOpen).find? fun i => !(v.files i).used).map fun i =>
    (i, v.setFile i { v.files i with offset := 0, used := true })

def freeFd (v : Vfs) (fd : ℕ) : Vfs :=
  if fd < vfsMaxOpen then v.setFile fd { v.files fd with used := false } else v

def setFileNode (v : Vfs) (fd node : ℕ) : Vfs :=
  v.setFile fd { v.files fd with node := some node }

def vfsInit (v : Vfs) : Vfs :=
  { v with
    files := fun i => if i < vfsMaxOpen then { v.files i with used := false } else v.files i
    mounts := [] }

/-- A node from `malloc`, with what its field `fs_fd` holds. -/
def mallocNode (v : Vfs) : Option (ℕ × ℕ) × Vfs :=
  let fsFd := ((v.ramfs.heap.outcome v.ramfs.heap.calls).map fun bytes => read32 bytes fsFdOffset).getD 0
  let (node, heap) := v.ramfs.heap.malloc vfsNodeSize
  (node.map fun p => (p, fsFd), { v with ramfs := { v.ramfs with heap := heap } })

def addChild (v : Vfs) (parent child : ℕ) : Vfs :=
  v.setNode parent { v.nodes parent with children := (v.nodes parent).children ++ [child] }

/-- A slash, unless the path is empty, and the token appended, as far as the checks of the length let
them; `mkdir_path` and `current_path` both come about so. -/
def appendPath (path : CBuffer 256) (token : CString) : CBuffer 256 :=
  let p : CBuffer 256 :=
    if h : path.val ≠ [] ∧ path.val.length + 1 < 256 then
      ⟨path.val ++ [slash], by simpa using h.2⟩
    else path
  if h : p.val.length + token.length < 256 then ⟨p.val ++ token, by simpa using h⟩ else p

def createDir (v : Vfs) (mount : VfsMount) (current : ℕ) (path : CBuffer 256) (token : CString) :
    Option ℕ × Vfs :=
  let mkdirPath := appendPath path token
  match mallocNode { v with ramfs := (v.ramfs.ramfsMkdir mkdirPath.val).2 } with
  | (none, v) => (none, v)
  | (some (child, fsFd), v) =>
    (some child,
      (v.setNode child ⟨strncpy 31 token, .dir, mount.fs, fsFd, some current, []⟩).addChild current child)

/-- The loop of `vfs_create`, at most `n` tokens: where it ends and the last token, or the failure of
`malloc`. -/
def createLoop (mount : VfsMount) :
    ℕ → Vfs → ℕ → CBuffer 256 → CString → Option (Option (ℕ × CString) × Vfs)
  | 0, _, _, _, _ => none
  | n + 1, v, current, path, token =>
    match strtokNull .vfsCreate v.ramfs.strtokNext with
    | none => none
    | some (none, next) => some (some (current, token), v.setCursor next)
    | some (some nextToken, next) =>
      match findChild v.nodes current token with
      | some child => createLoop mount n (v.setCursor next) child (appendPath path token) nextToken
      | none =>
        match createDir (v.setCursor next) mount current path token with
        | (none, v) => some (none, v)
        | (some child, v) => createLoop mount n v child (appendPath path token) nextToken

/-- What this kernel reads at address 0: page 0 is mapped to frame 0, which holds the page directory, and
its first entry is 0x1003 with the accessed bit, 0x1023, stored low byte first. -/
def nullString : CString := [⟨0x23, by decide⟩, ⟨0x10, by decide⟩]

/-- The end of `vfs_create`; a null token goes to `strcmp` and `strncpy` as address 0. -/
def createFile (v : Vfs) (mount : VfsMount) (current : ℕ) (rel : CString) (token : Option CString) :
    Option ℕ × Vfs :=
  let token := token.getD nullString
  if (findChild v.nodes current token).isSome then (none, v)
  else
    match v.ramfs.ramfsCreate rel with
    | (none, r) => (none, { v with ramfs := r })
    | (some fsFd, r) =>
      match mallocNode { v with ramfs := r } with
      | (none, v) => (none, v)
      | (some (node, _), v) =>
        let v := (v.setNode node
          ⟨strncpy 31 token, .file, mount.fs, fsFd, some current, []⟩).addChild current node
        match v.allocFd with
        | none => (none, v)
        | some (fd, v) => (some fd, v.setFileNode fd node)

/-- The result -1 is `some none`; `none` is a read of an array that is gone. -/
def vfsCreate (v : Vfs) (path : CString) : Option (Option ℕ × Vfs) :=
  if path.head? ≠ some slash ∨ v.mounts = [] then some (none, v)
  else
    match v.findMount path with
    | none => some (none, v)
    | some mount =>
      let rel := relPath mount path
      let (token, next) := strtok .vfsCreate (strncpy 255 rel).val
      let v := v.setCursor next
      match token with
      | none => some (createFile v mount mount.node rel none)
      | some token =>
        match createLoop mount 256 v mount.node ⟨[], by decide⟩ token with
        | none => none
        | some (none, v) => some (none, v)
        | some (some (current, token), v) => some (createFile v mount current rel (some token))

def vfsOpen (v : Vfs) (path : CString) : Option ℕ × Vfs :=
  match v.vfsResolve path with
  | (none, v) => (none, v)
  | (some node, v) =>
    match v.allocFd with
    | none => (none, v)
    | some (fd, v) => (some fd, v.setFileNode fd node)

def isOpen (v : Vfs) (fd : ℕ) : Bool := decide (fd < vfsMaxOpen) && (v.files fd).used

/-- The node of a descriptor; `none` when there is none or it has been freed. -/
def fileNode (v : Vfs) (fd : ℕ) : Option VfsNode :=
  (v.files fd).node.bind fun i => if v.isLive i then some (v.nodes i) else none

def vfsRead (v : Vfs) (fd size : ℕ) : Option (List UInt8 × Vfs) :=
  if v.isOpen fd = false then some ([], v)
  else
    (v.fileNode fd).bind fun node =>
      (v.ramfs.ramfsRead node.fsFd size (v.files fd).offset).map fun (bytes, offset) =>
        (bytes, v.setFile fd { v.files fd with offset := offset })

def vfsWrite (v : Vfs) (fd : ℕ) (buf : List UInt8) : Option (ℕ × Vfs) :=
  if v.isOpen fd = false then some (0, v)
  else
    (v.fileNode fd).bind fun node =>
      (v.ramfs.ramfsWrite node.fsFd buf (v.files fd).offset).map fun (n, offset, r) =>
        (n, { v with ramfs := r }.setFile fd { v.files fd with offset := offset })

/-- `true` is the result 0, `false` is -1, here and below. -/
def vfsLseek (v : Vfs) (fd offset : ℕ) : Bool × Vfs :=
  if v.isOpen fd = false then (false, v)
  else (true, v.setFile fd { v.files fd with offset := offset })

def vfsClose (v : Vfs) (fd : ℕ) : Option (Bool × Vfs) :=
  if v.isOpen fd = false then some (false, v)
  else (v.fileNode fd).map fun node => (v.ramfs.ramfsClose node.fsFd, v.freeFd fd)

def vfsUnlink (v : Vfs) (path : CString) : Bool × Vfs :=
  match v.vfsResolve path with
  | (none, v) => (false, v)
  | (some _, v) =>
    match v.findMount path with
    | none => (false, v)
    | some mount =>
      let (ok, r) := v.ramfs.ramfsUnlink (relPath mount path)
      (ok, { v with ramfs := r })

def pathMount (v : Vfs) (path : CString) : Option VfsMount :=
  if path.head? ≠ some slash ∨ v.mounts = [] then none else v.findMount path

def vfsMkdir (v : Vfs) (path : CString) : Bool × Vfs :=
  match v.pathMount path with
  | none => (false, v)
  | some mount =>
    let (ok, r) := v.ramfs.ramfsMkdir (relPath mount path)
    (ok, { v with ramfs := r })

def vfsRmdir (v : Vfs) (path : CString) : Bool × Vfs :=
  match v.pathMount path with
  | none => (false, v)
  | some mount =>
    let (ok, r) := v.ramfs.ramfsRmdir (relPath mount path)
    (ok, { v with ramfs := r })

def vfsStat (v : Vfs) (path : CString) : Option (InodeType × ℕ) × Vfs :=
  match v.pathMount path with
  | none => (none, v)
  | some mount =>
    let (st, r) := v.ramfs.ramfsStat (relPath mount path)
    (st, { v with ramfs := r })

def vfsUnmount (v : Vfs) (path : CString) : Bool × Vfs :=
  match v.findMountIdx path with
  | none => (false, v)
  | some i =>
    match v.mounts[i]? with
    | none => (false, v)
    | some mount =>
      if mount.mountPath.val ≠ path then (false, v)
      else
        (true, { v with
          ramfs := { v.ramfs with heap := v.ramfs.heap.free mount.node }
          mounts := v.mounts.eraseIdx i })

def vfsMount (v : Vfs) (fs : ℕ) (path : CString) : Bool × Vfs :=
  if vfsMaxFs ≤ v.mounts.length then (false, v)
  else
    match mallocNode v with
    | (none, v) => (false, v)
    | (some (root, fsFd), v) =>
      let v := v.setNode root ⟨strncpy 31 [slash], .dir, fs, fsFd, none, []⟩
      (true, { v with mounts := v.mounts ++ [⟨strncpy 255 path, root, fs⟩] })

inductive Op
  | create (path : CString)
  | open (path : CString)
  | read (fd size : ℕ)
  | write (fd : ℕ) (buf : List UInt8)
  | lseek (fd offset : ℕ)
  | close (fd : ℕ)
  | unlink (path : CString)
  | mkdir (path : CString)
  | rmdir (path : CString)
  | stat (path : CString)

inductive Result
  | fd (fd : Option ℕ)
  | bytes (bs : List UInt8)
  | count (n : ℕ)
  | status (ok : Bool)
  | stat (st : Option (InodeType × ℕ))

def exec (v : Vfs) : Op → Option (Result × Vfs)
  | .create path => (v.vfsCreate path).map fun (fd, v) => (.fd fd, v)
  | .open path => some (.fd (v.vfsOpen path).1, (v.vfsOpen path).2)
  | .read fd size => (v.vfsRead fd size).map fun (bs, v) => (.bytes bs, v)
  | .write fd buf => (v.vfsWrite fd buf).map fun (n, v) => (.count n, v)
  | .lseek fd offset => some (.status (v.vfsLseek fd offset).1, (v.vfsLseek fd offset).2)
  | .close fd => (v.vfsClose fd).map fun (ok, v) => (.status ok, v)
  | .unlink path => some (.status (v.vfsUnlink path).1, (v.vfsUnlink path).2)
  | .mkdir path => some (.status (v.vfsMkdir path).1, (v.vfsMkdir path).2)
  | .rmdir path => some (.status (v.vfsRmdir path).1, (v.vfsRmdir path).2)
  | .stat path => some (.stat (v.vfsStat path).1, (v.vfsStat path).2)

def Step (v : Vfs) (l : Op × Result) (v' : Vfs) : Prop := v.exec l.1 = some (l.2, v')

def powerOn (outcome : ℕ → Option (ℕ → UInt8)) : Vfs where
  ramfs :=
    { inodes _ := { Ramfs.emptyInode .file with used := false }
      heap := ⟨outcome, 0, fun _ => none⟩
      strtokNext := none }
  nodes _ := ⟨⟨[], by decide⟩, .file, 0, 0, none, []⟩
  files _ := ⟨none, 0, false⟩
  mounts := []

def boot (outcome : ℕ → Option (ℕ → UInt8)) : Bool × Vfs :=
  let v := (powerOn outcome).vfsInit
  { v with ramfs := v.ramfs.ramfsInit }.vfsMount 0 [slash]

def Booted (v : Vfs) : Prop := ∃ outcome, boot outcome = (true, v)

end Vfs

end Veni.Filesystem

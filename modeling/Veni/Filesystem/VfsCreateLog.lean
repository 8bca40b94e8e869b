import Veni.Filesystem.VfsLoop
import Veni.Lib.Logged
import Veni.Libc.StringBuffers

/-! `vfs_create` with the bytes of its two paths and a record of the tokens that it uses. -/

namespace Veni.Filesystem.Vfs

open Veni.Libc Veni.Lib Veni.Lib.Tokens Veni.Lib.NameGraph Logged
open Bytes hiding strtok

/-- A token passed to `find_child`, the outcome of a length guard, the `k`-th iteration's call of
`ops.mkdir` with the two arrays, and a token copied into the name of a new node. -/
inductive Event
  | findChild (token : Option CString)
  | guard (holds : Bool)
  | mkdir (k : ℕ) (currentPath mkdirPath : Bytes)
  | name (token : Option CString)

abbrev Log := Logged Event

def putIf (holds : Bool) (m : Bytes) (pos : ℕ) (s : CString) : Log Bytes := do
  tell (.guard holds)
  if holds then lift (put m pos (terminated s)) else pure m

def putSlash (m : Bytes) (len : ℕ) : Log Bytes := putIf (decide (len + 1 < 256)) m len [slash]

def putToken (m : Bytes) (pos : ℕ) (token : CString) : Log Bytes :=
  putIf (decide (pos + token.length < 256)) m pos token

def buildPath (currentPath mkdirPath : Bytes) (token : CString) : Log Bytes := do
  let len ← lift (strlen currentPath 0)
  if len > 0 then
    let mkdirPath ← lift (strcpy currentPath addresses mkdirPath 0 0)
    let pos ← lift (strlen mkdirPath 0)
    let mkdirPath ← putSlash mkdirPath pos
    putToken mkdirPath (if pos + 1 < 256 then pos + 1 else pos) token
  else putToken mkdirPath 0 token

def extendPath (currentPath : Bytes) (token : CString) : Log Bytes := do
  let len ← lift (strlen currentPath 0)
  let currentPath ← if len > 0 then putSlash currentPath len else pure currentPath
  let len ← lift (strlen currentPath 0)
  putToken currentPath len token

def createDirAt (v : Vfs) (mount : VfsMount) (current : ℕ) (mkdirPath token : CString) :
    Option ℕ × Vfs :=
  match mallocNode { v with ramfs := (v.ramfs.ramfsMkdir mkdirPath).2 } with
  | (none, v) => (none, v)
  | (some (child, fsFd), v) =>
    (some child,
      (v.setNode child ⟨strncpy 31 token, .dir, mount.fs, fsFd, some current, []⟩).addChild current child)

def makeDir (stack : ℕ → UInt8) (k : ℕ) (v : Vfs) (mount : VfsMount) (current : ℕ)
    (currentPath : Bytes) (token : CString) : Log (Option ℕ × Vfs) := do
  let mkdirPath ← buildPath currentPath (array 256 stack) token
  tell (.mkdir k currentPath mkdirPath)
  let dir ← lift (stringFrom mkdirPath addresses 0)
  let (child, v) := createDirAt v mount current dir token
  if child.isSome then tell (.name (some token))
  pure (child, v)

section Loop

/- What `strtok(NULL, "/")` makes of its pointer, and what `mkdir_path` holds in each iteration before it
is written. -/
variable (again : Option Cursor → Option (Option CString × Option Cursor)) (stack : ℕ → ℕ → UInt8)

def prefixLoop (mount : VfsMount) :
    ℕ → ℕ → Vfs → ℕ → Bytes → CString → Log (Option (ℕ × CString) × Vfs)
  | 0, _, _, _, _, _ => lift none
  | n + 1, k, v, current, currentPath, token => do
    let (nextToken, next) ← lift (again v.ramfs.strtokNext)
    match nextToken with
    | none => pure (some (current, token), v.setCursor next)
    | some nextToken =>
      let v := v.setCursor next
      tell (.findChild (some token))
      let (child, v) ←
        match findChild v.nodes current token with
        | some child => pure (some child, v)
        | none => makeDir (stack k) k v mount current currentPath token
      match child with
      | none => pure (none, v)
      | some child =>
        let currentPath ← extendPath currentPath token
        prefixLoop mount n (k + 1) v child currentPath nextToken

/-- The loop over the components, from the split of the relative path on: where it ends and the last
token, or the failure of `malloc`. -/
def createPrefixes (v : Vfs) (mount : VfsMount) (rel : CString) :
    Log (Option (ℕ × Option CString) × Vfs) := do
  let (token, next) := strtok .vfsCreate (strncpy 255 rel).val
  let v := v.setCursor next
  match token with
  | none => pure (some (mount.node, none), v)
  | some token =>
    let (stop, v) ← prefixLoop again stack mount 256 1 v mount.node (array 256 fun _ => 0) token
    pure (stop.map fun (current, token) => (current, some token), v)

end Loop

def createFileLog (v : Vfs) (mount : VfsMount) (current : ℕ) (rel : CString) (token : Option CString) :
    Log (Option ℕ × Vfs) := do
  tell (.findChild token)
  if (findChild v.nodes current (token.getD nullString)).isSome then pure (none, v)
  else
    match v.ramfs.ramfsCreate rel with
    | (none, r) => pure (none, { v with ramfs := r })
    | (some fsFd, r) =>
      match mallocNode { v with ramfs := r } with
      | (none, v) => pure (none, v)
      | (some (node, _), v) =>
        tell (.name token)
        let v := (v.setNode node
          ⟨strncpy 31 (token.getD nullString), .file, mount.fs, fsFd, some current, []⟩).addChild
            current node
        match v.allocFd with
        | none => pure (none, v)
        | some (fd, v) => pure (some fd, v.setFileNode fd node)

def vfsCreateLog (stack : ℕ → ℕ → UInt8) (v : Vfs) (path : CString) : Log (Option ℕ × Vfs) := do
  if path.head? ≠ some slash ∨ v.mounts = [] then pure (none, v)
  else
    match v.findMount path with
    | none => pure (none, v)
    | some mount =>
      let rel := relPath mount path
      let (stop, v) ← createPrefixes (strtokNull .vfsCreate) stack v mount rel
      match stop with
      | none => pure (none, v)
      | some (current, token) => createFileLog v mount current rel token

end Veni.Filesystem.Vfs

import Veni.Lib.Tokens

/-! C strings and the functions of `libc/string` that the file systems call. -/

namespace Veni.Libc

open Veni.Lib.Tokens

abbrev CChar := {c : UInt8 // c ≠ 0}

abbrev CString := List CChar

abbrev CBuffer (n : ℕ) := {s : CString // s.length < n}

def cstring (s : String) : CString :=
  s.toList.filterMap fun ch =>
    if h : UInt8.ofNat ch.toNat ≠ 0 then some ⟨UInt8.ofNat ch.toNat, h⟩ else none

def slash : CChar := ⟨47, by decide⟩

def isSlash (c : CChar) : Bool := decide (c = slash)

/-- `strncpy` of at most `n` characters, and a terminator after them. -/
def strncpy (n : ℕ) (src : CString) : CBuffer (n + 1) :=
  ⟨src.take n, Nat.lt_succ_of_le (List.length_take_le n src)⟩

/-- The string cut at its last slash, which `strrchr` finds. -/
def strrchr (s : CString) : Option (CString × CString) := splitLast isSlash s

inductive TokBuffer
  | vfsResolve
  | vfsCreate
  | ramfsFindInode
  deriving DecidableEq

/-- The static pointer `next` of `strtok`: the array it points into and what is left there. -/
structure Cursor where
  buffer : TokBuffer
  rest : CString

/-- One call of `strtok` with the delimiter `/` on what is left: the token and the new rest. -/
def tokenStep (s : CString) : Option CString × CString :=
  match s.dropWhile isSlash with
  | [] => (none, [])
  | c :: cs => (some (c :: cs.takeWhile fun x => !isSlash x), (cs.dropWhile fun x => !isSlash x).drop 1)

def strtok (buffer : TokBuffer) (str : CString) : Option CString × Option Cursor :=
  ((tokenStep str).1, some ⟨buffer, (tokenStep str).2⟩)

/-- `strtok(NULL, "/")`; `none` when it reads tokens from an array that is gone. -/
def strtokNull (buffer : TokBuffer) (next : Option Cursor) :
    Option (Option CString × Option Cursor) :=
  match next with
  | none => some (none, none)
  | some c =>
    if c.buffer = buffer then some (strtok buffer c.rest)
    else if (tokenStep c.rest).1 = none then some (none, next)
    else none

lemma head_of_dropWhile {p : CChar → Bool} {s cs : CString} {c : CChar}
    (h : s.dropWhile p = c :: cs) : p c = false := by
  have hne := List.head_dropWhile_not p (l := s) (by simp [h])
  simpa [h] using hne

lemma tokenStep_of_nil {s : CString} (h : tokens isSlash s = []) : tokenStep s = (none, []) := by
  rw [← tokens_dropWhile] at h
  unfold tokenStep
  cases hs : s.dropWhile isSlash with
  | nil => rfl
  | cons c cs =>
    rw [hs, tokens_cons isSlash (head_of_dropWhile hs)] at h
    cases h

lemma tokenStep_of_cons {s t : CString} {ts : List CString} (h : tokens isSlash s = t :: ts) :
    ∃ rest, tokenStep s = (some t, rest) ∧ tokens isSlash rest = ts := by
  rw [← tokens_dropWhile] at h
  unfold tokenStep
  cases hs : s.dropWhile isSlash with
  | nil =>
    rw [hs] at h
    cases h
  | cons c cs =>
    rw [hs, tokens_cons isSlash (head_of_dropWhile hs)] at h
    cases h
    refine ⟨_, rfl, ?_⟩
    cases hd : cs.dropWhile fun x => !isSlash x with
    | nil => rfl
    | cons d ds =>
      have hdel : isSlash d = true := by
        simpa using head_of_dropWhile hd
      rw [List.drop_one, List.tail_cons, tokens_delim isSlash hdel]

end Veni.Libc

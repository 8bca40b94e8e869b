import Mathlib.Algebra.Ring.Int.Defs
import Veni.Lib.Numerals
import Veni.Libc.Strings

/-! `printf` and `putchar` of `libc/stdio`. -/

namespace Veni.Libc

open Veni.Lib.Numerals

def intMax : ℕ := 2 ^ 31 - 1

def eof : ℤ := -1

/-- The arguments that the conversions take, `int`, `const char*`, `void*` and `size_t`. -/
inductive Arg
  | int (num : BitVec 32)
  | str (s : CString)
  | ptr (p : BitVec 32)
  | size (num : BitVec 32)

def percent : CChar := ⟨37, by decide⟩

def isPercent (c : CChar) : Bool := decide (c = percent)

def bytesOf (s : CString) : List UInt8 := s.map Subtype.val

def putchar (out : List UInt8) (ic : ℤ) : List UInt8 × ℤ := (out ++ [UInt8.ofBitVec (BitVec.ofInt 8 ic)], ic)

def print (out : List UInt8) : List UInt8 → List UInt8 × Bool
  | [] => (out, true)
  | b :: bytes =>
    match putchar out b.toNat with
    | (out, ic) => if ic = eof then (out, false) else print out bytes

/-- The loop that writes digits downwards in front of `p`, with the room before it; `none` is a write
in front of the buffer. -/
def putDigits : ℕ → ℕ → List UInt8 → Option (ℕ × List UInt8)
  | 0, _, _ => none
  | room + 1, num, p =>
    let p := UInt8.ofNat (48 + num % 10) :: p
    if num / 10 > 0 then putDigits room (num / 10) p else some (room, p)

/-- The characters of `%d`; `none` is the overflow of `-num` or a write in front of the buffer. -/
def putSigned (num : BitVec 32) : Option (List UInt8) :=
  if num.toInt < 0 then
    if num.toInt = -2 ^ 31 then none
    else
      match putDigits 31 (-num.toInt).toNat [] with
      | some (_ + 1, p) => some (byte '-' :: p)
      | _ => none
  else (putDigits 31 num.toInt.toNat []).map Prod.snd

def putPointer (ptr : BitVec 32) : List UInt8 :=
  (List.range 8).foldl
    (fun buffer k =>
      let i := 9 - k
      let nibble := (ptr >>> ((9 - i) * 4) &&& 0xF#32).toNat
      buffer.set i (UInt8.ofNat (if nibble < 10 then 48 + nibble else 97 + (nibble - 10))))
    (byte '0' :: byte 'x' :: List.replicate 8 0)

def putSize (num : BitVec 32) : Option (List UInt8) := (putDigits 20 num.toNat []).map Prod.snd

inductive Conversion
  | c | s | d | p | zu

def conversion : CString → Option (Conversion × CString)
  | [] => none
  | c :: format =>
    if c.val = byte 'c' then some (.c, format)
    else if c.val = byte 's' then some (.s, format)
    else if c.val = byte 'd' then some (.d, format)
    else if c.val = byte 'p' then some (.p, format)
    else if c.val = byte 'z' then
      match format with
      | [] => none
      | u :: format => if u.val = byte 'u' then some (.zu, format) else none
    else none

/-- The characters that a conversion prints; `none` where they are undefined. -/
def converted : Conversion → Arg → Option (List UInt8)
  | .c, .int num => some [UInt8.ofBitVec (num.setWidth 8)]
  | .s, .str s => some (bytesOf s)
  | .d, .int num => putSigned num
  | .p, .ptr ptr => some (putPointer ptr)
  | .zu, .size num => putSize num
  | _, _ => none

/-- Whether `maxrem` is compared with the length. -/
def Conversion.checked : Conversion → Bool
  | .p | .zu => false
  | _ => true

/-- The test of `maxrem`, `print` and the update of `written`, which is gone when `-1` is returned;
`none` is the overflow of `written`. -/
def emit (checked : Bool) (written : ℕ) (out chars : List UInt8) : Option (List UInt8 × Option ℕ) :=
  if checked && decide (intMax - written < chars.length) then some (out, none)
  else
    match print out chars with
    | (out, false) => some (out, none)
    | (out, true) =>
      if written + chars.length ≤ intMax then some (out, some (written + chars.length)) else none

lemma conversion_length {format rest : CString} {conv : Conversion}
    (h : conversion format = some (conv, rest)) : rest.length < format.length := by
  cases format with
  | nil => cases h
  | cons c format =>
    simp only [conversion] at h
    repeat' split at h
    all_goals
      cases h
      try simp only [List.length_cons]
      try omega

/-- The loop of `printf`, with the characters passed to `putchar`; `none` is undefined behaviour. -/
def printfLoop (format : CString) (args : List Arg) (written : ℕ) (out : List UInt8) :
    Option (List UInt8 × ℤ) :=
  match format with
  | [] => some (out, written)
  | c :: rest =>
    if c ≠ percent ∨ rest.head? = some percent then
      let format := if c = percent then rest else c :: rest
      let amount := 1 + (format.tail.takeWhile fun c => !isPercent c).length
      match emit true written out (bytesOf (format.take amount)) with
      | none => none
      | some (out, none) => some (out, -1)
      | some (out, some written) => printfLoop (format.drop amount) args written out
    else
      match hconv : conversion rest, args with
      | some _, [] => none
      | some (conv, format), arg :: args =>
        match converted conv arg with
        | none => none
        | some chars =>
          match emit conv.checked written out chars with
          | none => none
          | some (out, none) => some (out, -1)
          | some (out, some written) => printfLoop format args written out
      | none, _ =>
        match emit true written out (bytesOf (c :: rest)) with
        | none => none
        | some (out, none) => some (out, -1)
        | some (out, some written) => some (out, written)
  termination_by format.length
  decreasing_by
    · simp only [List.length_drop, List.length_cons]
      split
      · omega
      · simp only [List.length_cons]
        omega
    · have := conversion_length hconv
      simp only [List.length_cons]
      omega

def printf (format : CString) (args : List Arg) : Option (List UInt8 × ℤ) := printfLoop format args 0 []

end Veni.Libc

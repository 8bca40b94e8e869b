import Veni.Drivers.Serial
import Veni.Drivers.TerminalLayout
import Veni.Libc.PrintfRender

/-! `putchar`, `puts` and `printf` of the kernel library, on the screen and the serial port at once. -/

namespace Veni.Libc

open Veni.Lib Veni.Lib.Numerals Veni.Drivers Veni.Drivers.Serial

structure Console where
  terminal : Terminal
  uart : Uart

namespace Console

variable (w : UartWorld)

/-- `none` is a wait for the serial port of more than `n` turns. -/
def putchar (n : ℕ) (k : Console) (ic : ℤ) : Option (Console × ℤ) :=
  let c := BitVec.ofInt 8 ic
  (serialPutchar w n k.uart c).map fun u => (⟨k.terminal.terminalWrite [c], u⟩, ic)

def passes (n : ℕ) : Console → List UInt8 → Option Console
  | k, [] => some k
  | k, b :: bytes => (putchar w n k b.toNat).bind fun r => passes n r.1 bytes

def printf (n : ℕ) (k : Console) (format : CString) (args : List Arg) : Option (Console × ℤ) :=
  (Libc.printf format args).bind fun r => (passes w n k r.1).map fun k => (k, r.2)

def puts (n : ℕ) (k : Console) (string : CString) : Option (Console × ℤ) :=
  printf w n k (cstring "%s\n") [.str string]

inductive Print
  | printf (format : CString) (args : List Arg)
  | puts (string : CString)

def print (n : ℕ) (k : Console) : Print → Option (Console × ℤ)
  | .printf format args => printf w n k format args
  | .puts string => puts w n k string

def prints (n : ℕ) : Console → List Print → Option (Console × List ℤ)
  | k, [] => some (k, [])
  | k, p :: ps => (print w n k p).bind fun r => (prints n r.1 ps).map fun q => (q.1, r.2 :: q.2)

def Print.text : Print → Option (List UInt8)
  | .printf format args => render format args
  | .puts string => some (bytesOf string ++ [byte '\n'])

/-- The print has a text, and `printf` can count its characters. -/
def Print.Sound (p : Print) : Prop := ∃ t, p.text = some t ∧ t.length ≤ intMax

def textOf (p : Print) : List UInt8 := p.text.getD []

def textsOf (ps : List Print) : List (BitVec 8) := (ps.flatMap textOf).map UInt8.toBitVec

variable {w} {n m : ℕ} {k k' : Console} {bytes : List UInt8}

lemma putchar_byte (b : UInt8) : putchar w n k b.toNat =
    (serialPutchar w n k.uart b.toBitVec).map fun u =>
      (⟨k.terminal.terminalPutchar b.toBitVec, u⟩, (b.toNat : ℤ)) := by
  have hb : BitVec.ofInt 8 (b.toNat : ℤ) = b.toBitVec := by
    rw [BitVec.ofInt_natCast]
    exact BitVec.ofNat_toNat 8 b.toBitVec
  rw [putchar, hb]
  rfl

lemma passes_eq (k : Console) (bytes : List UInt8) : passes w n k bytes =
    (serialWrite w n k.uart (bytes.map UInt8.toBitVec)).map fun u =>
      ⟨k.terminal.terminalWrite (bytes.map UInt8.toBitVec), u⟩ := by
  induction bytes generalizing k with
  | nil => rfl
  | cons b bytes ih =>
    rw [passes, putchar_byte, List.map_cons, serialWrite]
    cases serialPutchar w n k.uart b.toBitVec with
    | none => rfl
    | some u => exact ih _

lemma render_puts (string : CString) :
    render (cstring "%s\n") [.str string] = some (bytesOf string ++ [byte '\n']) := by
  have hformat : cstring "%s\n" = percent :: cstring "s\n" := by decide
  have hnext : (cstring "s\n").head? ≠ some percent := by decide
  have hconv : conversion (cstring "s\n") = some (.s, cstring "\n") := rfl
  rw [hformat, render_directive hnext, hconv]
  simp only [consume, shown]
  rfl

lemma print_eq {p : Print} {t : List UInt8} (ht : p.text = some t) (hlen : t.length ≤ intMax)
    (k : Console) : print w n k p = (passes w n k t).map fun k => (k, (t.length : ℤ)) := by
  cases p with
  | printf format args => rw [print, printf, printf_render ht hlen, Option.bind_some]
  | puts string =>
    have hrender : render (cstring "%s\n") [.str string] = some t := by
      rw [render_puts]
      exact ht
    rw [print, puts, printf, printf_render hrender hlen, Option.bind_some]

lemma serialWrite_append (u : Uart) (data rest : List (BitVec 8)) :
    serialWrite w n u (data ++ rest) = (serialWrite w n u data).bind fun u => serialWrite w n u rest := by
  induction data generalizing u with
  | nil => rfl
  | cons c data ih =>
    rw [List.cons_append, serialWrite, serialWrite, Option.bind_assoc]
    exact Option.bind_congr fun u _ => ih u

lemma terminalWrite_append (t : Terminal) (data rest : List (BitVec 8)) :
    t.terminalWrite (data ++ rest) = (t.terminalWrite data).terminalWrite rest :=
  List.foldl_append

lemma prints_eq {ps : List Print} (hps : ∀ p ∈ ps, p.Sound) (k : Console) : prints w n k ps =
    (serialWrite w n k.uart (textsOf ps)).map fun u =>
      (⟨k.terminal.terminalWrite (textsOf ps), u⟩, ps.map fun p => ((textOf p).length : ℤ)) := by
  induction ps generalizing k with
  | nil => rfl
  | cons p ps ih =>
    obtain ⟨t, ht, hlen⟩ := hps p List.mem_cons_self
    have htext : textOf p = t := by rw [textOf, ht, Option.getD_some]
    have hall : textsOf (p :: ps) = t.map UInt8.toBitVec ++ textsOf ps := by
      rw [textsOf, List.flatMap_cons, List.map_append, htext]
      rfl
    rw [prints, print_eq ht hlen, passes_eq, hall, serialWrite_append]
    cases hs : serialWrite w n k.uart (t.map UInt8.toBitVec) with
    | none => rfl
    | some u =>
      simp only [Option.map_some, Option.bind_some]
      rw [ih (fun q hq => hps q (List.mem_cons_of_mem _ hq)), Option.map_map]
      simp only [terminalWrite_append, List.map_cons, htext]
      rfl

/-- Any prints after `terminal_clear`: the screen shows the last 25 rows of all their texts in a row,
and the serial port sends the same texts with a carriage return before each newline; nothing printed
is lost on either, and each print returns the length of its text. -/
theorem prints_shown (w : UartWorld) (hfair : Uart.Fair w) (t : Terminal) (u : Uart)
    (hu : u.latched = false) (ps : List Print) (hps : ∀ p ∈ ps, p.Sound) :
    ∃ n, ∀ m ≥ n, ∃ k, prints w m ⟨t.terminalClear, u⟩ ps =
        some (k, ps.map fun p => ((textOf p).length : ℤ)) ∧
      Terminal.Shows t k.terminal (Terminal.layoutOf (textsOf ps)) ∧
      k.terminal.cursor = k.terminal.row * vgaWidth + k.terminal.column ∧
      k.uart.sent = u.sent ++ transmitted (textsOf ps) ∧ Uart.SameSettings u k.uart := by
  obtain ⟨n, v, hv⟩ := serialWrite_returns hfair u (textsOf ps)
  have hsends := serialWrite_spec hu hv
  obtain ⟨hshows, _, hcursor⟩ := Terminal.terminalWrite_shows t (textsOf ps)
  refine ⟨n, fun m hm => ⟨⟨t.terminalClear.terminalWrite (textsOf ps), v⟩, ?_, hshows, hcursor,
    hsends.sent, hsends.same⟩⟩
  rw [prints_eq hps]
  simp only [serialWrite_more hm hv, Option.map_some]

def twoPrints : List Print := [.puts (cstring "RAM:"), .printf (cstring "%d%%\n") [.int 42]]

lemma twoPrints_sound : ∀ p ∈ twoPrints, p.Sound := by
  intro p hp
  simp only [twoPrints, List.mem_cons, List.not_mem_nil, or_false] at hp
  rcases hp with rfl | rfl
  · exact ⟨bytesOf (cstring "RAM:\n"), by decide +kernel, by decide +kernel⟩
  · exact ⟨bytesOf (cstring "42%\n"), by decide +kernel, by decide +kernel⟩

def greyTerminal : Terminal := ⟨3, 14, 0x07, fun i => if i < 254 then 0x0741 else 0x0720, 254, 0, []⟩

theorem prints_shown_two :
    ∃ n, ∀ m ≥ n, ∃ k, prints slowWorld m ⟨greyTerminal.terminalClear, busyUart⟩ twoPrints =
        some (k, [5, 4]) ∧
      Terminal.Shows greyTerminal k.terminal (Terminal.layoutOf (textsOf twoPrints)) ∧
      k.terminal.cursor = k.terminal.row * vgaWidth + k.terminal.column ∧
      k.uart.sent = busyUart.sent ++ transmitted (textsOf twoPrints) ∧
        Uart.SameSettings busyUart k.uart :=
  prints_shown slowWorld slowWorld_fair greyTerminal busyUart rfl twoPrints twoPrints_sound

end Console

end Veni.Libc

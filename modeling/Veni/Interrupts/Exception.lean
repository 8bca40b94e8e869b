import Veni.Drivers.TerminalScreen
import Veni.Libc.Console

/-! The handler of CPU exceptions, in `arch/i386/interrupts/isr.c`, and `abort`. -/

namespace Veni.Drivers.Display

open Veni.Lib Veni.Lib.TextScreen

def textOfLines (lines : List (List (BitVec 8))) : List (BitVec 8) :=
  lines.flatMap fun line => line ++ [0x0A#8]

variable {d : Display}

lemma write_append (d : Display) (data rest : List (BitVec 8)) :
    d.write (data ++ rest) = (d.write data).write rest :=
  List.foldl_append

lemma write_color (d : Display) (data : List (BitVec 8)) : (d.write data).color = d.color := by
  induction data generalizing d with
  | nil => rfl
  | cons c data ih => exact ih (d.putchar c)

lemma write_line {line : List (BitVec 8)} (hline : 0x0A#8 ∉ line) : (d.write line).screen =
    typeAll vgaWidth vgaHeight d.blank d.screen (line.map fun c => vgaEntry c d.color) := by
  induction line generalizing d with
  | nil => rfl
  | cons c line ih =>
    have hc : c ≠ 0x0A#8 := fun h => hline (h ▸ List.mem_cons_self)
    have hstep : d.putchar c =
        d.moved (type vgaWidth vgaHeight d.blank d.screen (vgaEntry c d.color)) := by
      rw [putchar, if_neg hc]
    have hnext := ih (d := d.putchar c) fun h => hline (List.mem_cons_of_mem _ h)
    rw [hstep] at hnext
    rw [write, List.foldl_cons, ← write, hstep]
    exact hnext

lemma write_lines {lines : List (List (BitVec 8))} (hlines : ∀ line ∈ lines, 0x0A#8 ∉ line) :
    (d.write (textOfLines lines)).screen = typeLines vgaWidth vgaHeight d.blank d.screen
      (lines.map fun line => line.map fun c => vgaEntry c d.color) := by
  induction lines generalizing d with
  | nil => rfl
  | cons line lines ih =>
    have hstep : (d.write (line ++ [0x0A#8])).screen = newline vgaWidth vgaHeight d.blank
        (typeAll vgaWidth vgaHeight d.blank d.screen (line.map fun c => vgaEntry c d.color)) := by
      rw [write_append, ← write_line (hlines line List.mem_cons_self)]
      change newline _ _ (d.write line).blank _ = _
      rw [blank, write_color, blank]
    have hnext := ih (d := d.write (line ++ [0x0A#8])) fun l hl => hlines l (List.mem_cons_of_mem _ hl)
    rw [textOfLines, List.flatMap_cons, ← textOfLines, write_append, hnext, hstep]
    simp only [blank, write_color]
    rfl

lemma write_cleared {blank : BitVec 16} {lines : List (List (BitVec 8))}
    (hd : d.screen = cleared blank) (hnl : ∀ line ∈ lines, 0x0A#8 ∉ line)
    (hwidth : ∀ line ∈ lines, line.length < vgaWidth) (hheight : lines.length < vgaHeight) :
    (d.write (textOfLines lines)).screen.position = lines.length * vgaWidth ∧
      ∀ y x, x < vgaWidth → (d.write (textOfLines lines)).screen.cells (y * vgaWidth + x) =
        (((lines.getD y [])[x]?).map fun c => vgaEntry c d.color).getD blank := by
  have hentries : ∀ line ∈ lines.map fun line => line.map fun c => vgaEntry c d.color,
      line.length < vgaWidth := by
    intro line hline
    obtain ⟨l, hl, rfl⟩ := List.mem_map.mp hline
    rw [List.length_map]
    exact hwidth l hl
  have hstart : d.screen.position = 0 * vgaWidth := by
    rw [hd]
    exact (Nat.zero_mul _).symm
  have hroom : 0 + (lines.map fun line => line.map fun c => vgaEntry c d.color).length < vgaHeight := by
    rw [List.length_map, Nat.zero_add]
    exact hheight
  have hlines := @typeLines_eq _ vgaWidth vgaHeight d.blank d.screen 0 _ hstart hentries hroom
  rw [write_lines hnl, hlines, List.length_map, Nat.zero_add]
  refine ⟨rfl, fun y x hx => ?_⟩
  have hdiv : (y * vgaWidth + x) / vgaWidth = y := by
    rw [Nat.mul_comm, Nat.mul_add_div (by decide), Nat.div_eq_of_lt hx, Nat.add_zero]
  have hmod : (y * vgaWidth + x) % vgaWidth = x := by
    rw [Nat.mul_comm, Nat.mul_add_mod, Nat.mod_eq_of_lt hx]
  have hrow : (lines.map fun line => line.map fun c => vgaEntry c d.color).getD y [] =
      (lines.getD y []).map fun c => vgaEntry c d.color := by
    rw [List.getD_eq_getElem?_getD, List.getD_eq_getElem?_getD, List.getElem?_map]
    cases lines[y]? <;> rfl
  simp only [hdiv, hmod, Nat.zero_le, if_true, Nat.sub_zero, hrow, hd, cleared]
  rw [List.getD_eq_getElem?_getD, List.getElem?_map]

lemma write_cursor (d : Display) (data : List (BitVec 8)) (c : BitVec 8) :
    (d.write (data ++ [c])).cursor = (d.write (data ++ [c])).screen.position := by
  rw [write_append]
  rfl

end Veni.Drivers.Display

namespace Veni.Interrupts

open Veni.Lib Veni.Lib.TextScreen Veni.Libc Veni.Libc.Console Veni.Drivers Veni.Drivers.Serial

/-- Interrupts off and `hlt` for ever. -/
structure Halted where
  console : Console
  interruptFlag : Bool

variable (w : UartWorld)

def abort (n : ℕ) (k : Console) : Option Halted :=
  (Console.printf w n k (cstring "Kernel panic.\n") []).map fun r => ⟨r.1, false⟩

def exceptionHandler (n : ℕ) (k : Console) (_intNo _err : BitVec 32) : Option Halted :=
  let k := { k with terminal := k.terminal.terminalClear }
  let k := { k with terminal := k.terminal.terminalFsetcolor 12 0 }
  (Console.printf w n k (cstring "An exception has occured.\nPlease reboot the system.\n") []).bind
    fun r => abort w n r.1

def exceptionLines : List (List (BitVec 8)) :=
  [cstring "An exception has occured.", cstring "Please reboot the system.",
    cstring "Kernel panic."].map fun s => s.map fun c => c.val.toBitVec

def exceptionPrints : List Print :=
  [.printf (cstring "An exception has occured.\nPlease reboot the system.\n") [],
    .printf (cstring "Kernel panic.\n") []]

variable {w} {n : ℕ}

lemma exceptionHandler_eq (k : Console) (intNo err : BitVec 32) : exceptionHandler w n k intNo err =
    (prints w n ⟨k.terminal.terminalClear.terminalFsetcolor 12 0, k.uart⟩ exceptionPrints).map
      fun r => ⟨r.1, false⟩ := by
  simp only [exceptionHandler, abort, exceptionPrints, prints, Console.print]
  cases Console.printf w n ⟨k.terminal.terminalClear.terminalFsetcolor 12 0, k.uart⟩
      (cstring "An exception has occured.\nPlease reboot the system.\n") [] with
  | none => rfl
  | some r =>
    simp only [Option.bind_some, Option.map_map]
    cases Console.printf w n r.1 (cstring "Kernel panic.\n") [] <;> rfl

lemma exceptionPrints_text : textsOf exceptionPrints = Display.textOfLines exceptionLines := by
  decide +kernel

lemma exceptionPrints_sound : ∀ p ∈ exceptionPrints, p.Sound := by
  intro p hp
  simp only [exceptionPrints, List.mem_cons, List.not_mem_nil, or_false] at hp
  rcases hp with rfl | rfl
  · exact ⟨bytesOf (cstring "An exception has occured.\nPlease reboot the system.\n"),
      by decide +kernel, by decide +kernel⟩
  · exact ⟨bytesOf (cstring "Kernel panic.\n"), by decide +kernel, by decide +kernel⟩

def exceptionTerminal (t : Terminal) : Terminal :=
  (t.terminalClear.terminalFsetcolor 12 0).terminalWrite (textsOf exceptionPrints)

lemma exceptionLines_fit : (∀ line ∈ exceptionLines, 0x0A#8 ∉ line) ∧
    (∀ line ∈ exceptionLines, line.length < vgaWidth) ∧ exceptionLines.length < vgaHeight := by
  decide +kernel

lemma exceptionLines_length : exceptionLines.length = 3 := rfl

lemma exceptionTerminal_shown (t : Terminal)
    (hin : ∀ p ∈ t.written, p.1 < vgaHeight ∧ p.2 < vgaWidth) :
    (∀ y < vgaHeight, ∀ x < vgaWidth, (exceptionTerminal t).cell y x =
      (((exceptionLines.getD y [])[x]?).map fun c => vgaEntry c 0x0C#8).getD
        (vgaEntry 0x20#8 t.color)) ∧ (exceptionTerminal t).cursor = 3 * vgaWidth := by
  obtain ⟨hnl, hwidth, hheight⟩ := exceptionLines_fit
  have hclear := Terminal.displays_clear (d := ⟨cleared 0, t.color, 0⟩) hin rfl
  have hcolored := hclear.op (.terminalFsetcolor 12 0)
  have hscreen : (Display.op (Display.clear ⟨cleared 0, t.color, 0⟩) (.terminalFsetcolor 12 0)).screen =
      cleared (vgaEntry 0x20#8 t.color) := by
    rw [Display.op, Display.clear, Display.moved, Display.blank]
  have hcolor : (Display.op (Display.clear ⟨cleared 0, t.color, 0⟩) (.terminalFsetcolor 12 0)).color =
      0x0C#8 := by
    rw [Display.op]
    exact (by decide : vgaEntryColor 12 0 = 0x0C#8)
  rw [exceptionTerminal, exceptionPrints_text]
  rw [Terminal.op] at hcolored
  generalize Display.op (Display.clear ⟨cleared 0, t.color, 0⟩) (.terminalFsetcolor 12 0) = d at *
  have hwritten := hcolored.write (Display.textOfLines exceptionLines)
  obtain ⟨hpos, hcells⟩ := Display.write_cleared hscreen hnl hwidth hheight
  refine ⟨fun y hy x hx => ?_, ?_⟩
  · rw [hwritten.cells y hy x hx, hcells y x hx, hcolor]
  · obtain ⟨data, hdata⟩ : ∃ data, Display.textOfLines exceptionLines = data ++ [0x0A#8] :=
      ⟨_, (List.dropLast_append_getLast? 0x0A#8 (by decide +kernel)).symm⟩
    rw [hwritten.cursor, hdata, Display.write_cursor, ← hdata, hpos, exceptionLines_length]

/-- Whatever the kernel was doing: an exception clears the screen in the colour it had, shows the
three lines in light red, sends them to the serial port behind everything sent before, and stops with
interrupts off. -/
theorem exception_shown (w : UartWorld) (hfair : Uart.Fair w) (k : Console)
    (hu : k.uart.latched = false) (hin : ∀ p ∈ k.terminal.written, p.1 < vgaHeight ∧ p.2 < vgaWidth)
    (intNo err : BitVec 32) :
    ∃ n, ∀ m ≥ n, ∃ h, exceptionHandler w m k intNo err = some h ∧ h.interruptFlag = false ∧
      (∀ y < vgaHeight, ∀ x < vgaWidth, h.console.terminal.cell y x =
        (((exceptionLines.getD y [])[x]?).map fun c => vgaEntry c 0x0C#8).getD
          (vgaEntry 0x20#8 k.terminal.color)) ∧
      h.console.terminal.cursor = 3 * vgaWidth ∧
      h.console.uart.sent = k.uart.sent ++ transmitted (Display.textOfLines exceptionLines) := by
  obtain ⟨n, u, hn⟩ := serialWrite_returns hfair k.uart (textsOf exceptionPrints)
  have hsends := serialWrite_spec hu hn
  obtain ⟨hcells, hcursor⟩ := exceptionTerminal_shown k.terminal hin
  rw [exceptionPrints_text] at hsends
  generalize ht : exceptionTerminal k.terminal = t at hcells hcursor
  refine ⟨n, fun m hm => ⟨⟨⟨t, u⟩, false⟩, ?_, rfl, hcells, hcursor, hsends.sent⟩⟩
  have hprints := prints_eq exceptionPrints_sound (w := w) (n := m)
    ⟨k.terminal.terminalClear.terminalFsetcolor 12 0, k.uart⟩
  rw [serialWrite_more hm hn, Option.map_some] at hprints
  rw [exceptionHandler_eq, hprints, Option.map_some, ← ht, exceptionTerminal]

def strayConsole : Console := ⟨⟨7, 90, 0x1E, fun _ => 0xFFFF, 0, 0, [(24, 79)]⟩, busyUart⟩

theorem exception_shown_stray :
    ∃ n, ∀ m ≥ n, ∃ h, exceptionHandler slowWorld m strayConsole 14 2 = some h ∧
      h.interruptFlag = false ∧
      (∀ y < vgaHeight, ∀ x < vgaWidth, h.console.terminal.cell y x =
        (((exceptionLines.getD y [])[x]?).map fun c => vgaEntry c 0x0C#8).getD (vgaEntry 0x20#8 0x1E#8)) ∧
      h.console.terminal.cursor = 3 * vgaWidth ∧
      h.console.uart.sent = busyUart.sent ++ transmitted (Display.textOfLines exceptionLines) := by
  apply exception_shown slowWorld slowWorld_fair strayConsole rfl
  intro p hp
  rw [List.mem_singleton.mp hp]
  decide

end Veni.Interrupts

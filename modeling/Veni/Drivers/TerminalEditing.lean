import Veni.Drivers.TerminalScreen

/-! Typing with `terminal_putchar` and erasing with `terminal_backspace`. -/

namespace Veni.Drivers

open Veni.Lib Veni.Lib.TextScreen

namespace Terminal

def press (t : Terminal) : Key (BitVec 8) → Terminal
  | .char c => t.terminalPutchar c
  | .erase => t.terminalBackspace

/-- Same characters in the same colours, and the next one goes to the same place. -/
structure SameScreen (t s : Terminal) : Prop where
  row : t.row = s.row
  column : t.column = s.column
  color : t.color = s.color
  cells : ∀ y < vgaHeight, ∀ x < vgaWidth, t.cell y x = s.cell y x

/-- From the next character's place on, the screen is blank in the colour of the next character. -/
def BlankAhead (t : Terminal) : Prop :=
  ∀ y < vgaHeight, ∀ x < vgaWidth, t.row * vgaWidth + t.column ≤ y * vgaWidth + x →
    t.cell y x = vgaEntry 0x20#8 t.color

end Terminal

namespace Display

def press (d : Display) : Key (BitVec 8) → Display
  | .char c => d.putchar c
  | .erase => d.backspace

def paint (color : BitVec 8) : Key (BitVec 8) → Key (BitVec 16)
  | .char c => .char (vgaEntry c color)
  | .erase => .erase

variable {d : Display} {keys : List (Key (BitVec 8))} {line : List (BitVec 8)}

lemma press_screen {key : Key (BitVec 8)} (hkey : key ≠ .char 0x0A#8) :
    (d.press key).screen = TextScreen.press vgaWidth vgaHeight d.blank d.screen (paint d.color key) := by
  cases key with
  | char c =>
    have hc : c ≠ 0x0A#8 := fun h => hkey (h ▸ rfl)
    rw [press, putchar, if_neg hc]
    rfl
  | erase => rfl

lemma press_color (d : Display) (key : Key (BitVec 8)) : (d.press key).color = d.color := by
  cases key <;> rfl

lemma presses_color (d : Display) (keys : List (Key (BitVec 8))) :
    (keys.foldl press d).color = d.color := by
  induction keys generalizing d with
  | nil => rfl
  | cons key keys ih => exact (ih (d.press key)).trans (press_color d key)

lemma presses_screen (hkeys : .char 0x0A#8 ∉ keys) : (keys.foldl press d).screen =
    (keys.map (paint d.color)).foldl (TextScreen.press vgaWidth vgaHeight d.blank) d.screen := by
  induction keys generalizing d with
  | nil => rfl
  | cons key keys ih =>
    have hkey : key ≠ .char 0x0A#8 := fun h => hkeys (h ▸ List.mem_cons_self)
    have hnext := ih (d := d.press key) fun h => hkeys (List.mem_cons_of_mem _ h)
    rw [press_color, press_screen hkey] at hnext
    simp only [blank, press_color] at hnext
    exact hnext

lemma write_presses (d : Display) (line : List (BitVec 8)) :
    d.write line = (line.map Key.char).foldl press d := by
  rw [write, List.foldl_map]
  rfl

lemma edit_paint (color : BitVec 8) (line : List (BitVec 8)) (keys : List (Key (BitVec 8))) :
    (keys.map (paint color)).foldl edit (line.map fun c => vgaEntry c color) =
      (keys.foldl edit line).map fun c => vgaEntry c color := by
  induction keys generalizing line with
  | nil => rfl
  | cons key keys ih =>
    rw [List.map_cons, List.foldl_cons, List.foldl_cons, ← ih]
    cases key with
    | char c => simp [edit, paint]
    | erase => simp [edit, paint, List.map_dropLast]

lemma within_paint {room n : ℕ} {color : BitVec 8} (h : Within room n keys) :
    Within room n (keys.map (paint color)) := by
  induction keys generalizing n with
  | nil => trivial
  | cons key keys ih =>
    cases key with
    | char c => exact ⟨h.1, ih h.2⟩
    | erase => exact ⟨h.1, ih h.2⟩

lemma edit_newline {line : List (BitVec 8)} (hline : 0x0A#8 ∉ line) (hkeys : .char 0x0A#8 ∉ keys) :
    0x0A#8 ∉ keys.foldl edit line := by
  induction keys generalizing line with
  | nil => exact hline
  | cons key keys ih =>
    refine ih ?_ fun h => hkeys (List.mem_cons_of_mem _ h)
    cases key with
    | char c =>
      intro h
      rcases List.mem_append.mp h with h | h
      · exact hline h
      · exact hkeys (List.mem_singleton.mp h ▸ List.mem_cons_self)
    | erase => exact fun h => hline (List.dropLast_subset _ h)

def trimmed (d : Display) : Display :=
  { d with screen :=
    ⟨fun i => if i < vgaWidth * vgaHeight then d.screen.cells i else d.blank, d.screen.position⟩ }

lemma presses_edit (hblank : ∀ i, d.screen.position ≤ i → d.screen.cells i = d.blank)
    (hposition : d.screen.position < vgaWidth * vgaHeight) (hkeys : .char 0x0A#8 ∉ keys)
    (hwithin : Within (vgaWidth * vgaHeight - d.screen.position) 0 keys) :
    (keys.foldl press d).screen = (d.write (keys.foldl edit [])).screen := by
  have hline : 0x0A#8 ∉ keys.foldl edit [] := edit_newline List.not_mem_nil hkeys
  have hchars : Key.char 0x0A#8 ∉ (keys.foldl edit []).map Key.char := by
    intro h
    obtain ⟨c, hc, he⟩ := List.mem_map.mp h
    cases he
    exact hline hc
  have hpainted : Within _ 0 (keys.map (paint d.color)) := within_paint hwithin
  have hedit := edit_line hblank hposition hpainted
  rw [write_presses, presses_screen hkeys, presses_screen hchars, List.map_map]
  have hpaint := edit_paint d.color [] keys
  rw [List.map_nil] at hpaint
  rw [hpaint] at hedit
  refine Eq.trans hedit ?_
  rw [typeAll, List.foldl_map, List.foldl_map]
  rfl

end Display

namespace Terminal

variable {t : Terminal} {d : Display} {keys : List (Key (BitVec 8))}

lemma Displays.presses (h : Displays t d) (keys : List (Key (BitVec 8))) :
    Displays (keys.foldl press t) (keys.foldl Display.press d) := by
  induction keys generalizing t d with
  | nil => exact h
  | cons key keys ih =>
    cases key with
    | char c => exact ih (h.putchar c)
    | erase => exact ih h.backspace

lemma Displays.index_lt (h : Displays t d) : d.screen.position < vgaWidth * vgaHeight := by
  have hrow := h.row
  have hcolumn := h.column
  have hpos := h.position
  simp only [vgaWidth, vgaHeight] at hrow hcolumn hpos ⊢
  omega

lemma Displays.trimmed (h : Displays t d) : Displays t d.trimmed where
  row := h.row
  column := h.column
  position := h.position
  cells y hy x hx := by
    have hlt : y * vgaWidth + x < vgaWidth * vgaHeight := by
      simp only [vgaWidth, vgaHeight] at hy hx ⊢
      omega
    exact (h.cells y hy x hx).trans (if_pos hlt).symm
  color := h.color
  cursor := h.cursor
  inside := h.inside

lemma Displays.same {s : Terminal} {e : Display} (h : Displays t d) (h' : Displays s e)
    (hscreen : d.screen = e.screen) (hcolor : d.color = e.color) : SameScreen t s := by
  have hpos := h.position
  have hpos' := h'.position
  have hcolumn := h.column
  have hcolumn' := h'.column
  rw [hscreen] at hpos
  simp only [vgaWidth] at hpos hpos' hcolumn hcolumn'
  refine ⟨by omega, by omega, ?_, fun y hy x hx => ?_⟩
  · rw [← h.color, hcolor, h'.color]
  · rw [h.cells y hy x hx, h'.cells y hy x hx, hscreen]

lemma Displays.blankAhead (h : Displays t d) (hblank : BlankAhead t) (i : ℕ)
    (hi : d.trimmed.screen.position ≤ i) : d.trimmed.screen.cells i = d.trimmed.blank := by
  change (if i < vgaWidth * vgaHeight then d.screen.cells i else d.blank) = d.blank
  split
  · next hlt =>
    have hdiv := Nat.div_add_mod i vgaWidth
    have hmod : i % vgaWidth < vgaWidth := Nat.mod_lt i (by decide)
    have hrow : i / vgaWidth < vgaHeight := Nat.div_lt_of_lt_mul hlt
    have hindex : i / vgaWidth * vgaWidth + i % vgaWidth = i := by
      rw [Nat.mul_comm]
      exact hdiv
    have hcell := h.cells _ hrow _ hmod
    rw [hindex] at hcell
    rw [← hcell, hblank _ hrow _ hmod (by rw [hindex, ← h.position]; exact hi), h.blank]
  · rfl

/-- In every state that operations of the terminal lead to: keys typed and erased where the screen is
blank show the line that is left, as if only that line had been written, as long as it stays on the
screen and there is a character to erase whenever one is erased. -/
theorem editing_shows (t : Terminal) (hin : t.written = []) (ops : List Op) (s : Terminal)
    (hs : s = ops.foldl op t.terminalInitialize) (hblank : BlankAhead s)
    (keys : List (Key (BitVec 8))) (hkeys : .char 0x0A#8 ∉ keys)
    (hwithin : Within (vgaWidth * vgaHeight - (s.row * vgaWidth + s.column)) 0 keys) :
    SameScreen (keys.foldl press s) (s.terminalWrite (keys.foldl edit [])) := by
  have hshown := terminal_displays t hin ops
  rw [← hs] at hshown
  have hpos := hshown.position
  have hedit := Display.presses_edit (hshown.blankAhead hblank) hshown.index_lt hkeys
    (by rw [← hpos] at hwithin; exact hwithin)
  apply (hshown.trimmed.presses keys).same (hshown.trimmed.write (keys.foldl edit [])) hedit
  rw [Display.presses_color, Display.write_presses, Display.presses_color]

lemma cleared_blankAhead : BlankAhead ([.terminalFsetcolor 10 0, .terminalClear].foldl op
      deadTerminal.terminalInitialize) ∧
    ([.terminalFsetcolor 10 0, .terminalClear].foldl op deadTerminal.terminalInitialize).row *
      vgaWidth + ([.terminalFsetcolor 10 0, .terminalClear].foldl op
        deadTerminal.terminalInitialize).column = 0 := by
  have hshown := terminal_displays deadTerminal rfl [.terminalFsetcolor 10 0, .terminalClear]
  exact ⟨fun y hy x hx _ => (hshown.cells y hy x hx).trans hshown.blank, hshown.position.symm⟩

theorem editing_shows_typo :
    SameScreen
      ([.char 0x68#8, .char 0x6F#8, .erase, .char 0x69#8].foldl press
        ([.terminalFsetcolor 10 0, .terminalClear].foldl op deadTerminal.terminalInitialize))
      (([.terminalFsetcolor 10 0, .terminalClear].foldl op
        deadTerminal.terminalInitialize).terminalWrite [0x68, 0x69]) := by
  obtain ⟨hblank, hpos⟩ := cleared_blankAhead
  apply editing_shows deadTerminal rfl _ _ rfl hblank [.char 0x68#8, .char 0x6F#8, .erase, .char 0x69#8]
  · simp
  · rw [hpos]
    exact ⟨by decide, by decide, by decide, by decide, trivial⟩

end Terminal

end Veni.Drivers

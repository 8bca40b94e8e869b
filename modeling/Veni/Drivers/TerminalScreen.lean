import Veni.Drivers.TerminalLayout
import Veni.Lib.TextScreen
import Veni.Libc.Strings

/-! All of the terminal's operations, on the screen as one row of cells. -/

namespace Veni.Drivers

open Veni.Lib Veni.Libc

def vgaColorBlack : BitVec 8 := 0

def vgaColorLightGrey : BitVec 8 := 7

def vgaEntryColor (fg bg : BitVec 8) : BitVec 8 := fg ||| bg <<< 4

namespace Terminal

def terminalInitialize (t : Terminal) : Terminal :=
  let t := { t with row := 0, column := 0, color := vgaEntryColor vgaColorLightGrey vgaColorBlack }
  (List.range vgaHeight).foldl (fun t y => t.fillRow y (fun t _ => vgaEntry 0x20#8 t.color)) t

def terminalSetcolor (t : Terminal) (color : BitVec 8) : Terminal := { t with color := color }

def terminalFsetcolor (t : Terminal) (fg bg : BitVec 8) : Terminal :=
  { t with color := vgaEntryColor fg bg }

def terminalTab (t : Terminal) (spaces : ℕ) : Terminal :=
  (List.range spaces).foldl (fun t _ => t.terminalPutchar 0x20#8) t

def terminalBackspace (t : Terminal) : Terminal :=
  let t :=
    if t.column = 0 then
      if t.row > 0 then { t with row := t.row - 1, column := vgaWidth - 1 } else t
    else { t with column := t.column - 1 }
  let t := t.terminalPutentryat 0x20#8 t.color t.column t.row
  t.terminalSetcursorpos t.row t.column

def terminalWritestring (t : Terminal) (data : CString) : Terminal :=
  t.terminalWrite (data.map fun c => c.val.toBitVec)

inductive Op
  | terminalInitialize
  | terminalSetcolor (color : BitVec 8)
  | terminalFsetcolor (fg bg : BitVec 8)
  | terminalPutchar (c : BitVec 8)
  | terminalWrite (data : List (BitVec 8))
  | terminalWritestring (data : CString)
  | terminalTab (spaces : ℕ)
  | terminalBackspace
  | terminalClear

def op (t : Terminal) : Op → Terminal
  | .terminalInitialize => t.terminalInitialize
  | .terminalSetcolor color => t.terminalSetcolor color
  | .terminalFsetcolor fg bg => t.terminalFsetcolor fg bg
  | .terminalPutchar c => t.terminalPutchar c
  | .terminalWrite data => t.terminalWrite data
  | .terminalWritestring data => t.terminalWritestring data
  | .terminalTab spaces => t.terminalTab spaces
  | .terminalBackspace => t.terminalBackspace
  | .terminalClear => t.terminalClear

end Terminal

/-- What a user sees: the screen, the colour of the next characters and where the cursor blinks. -/
structure Display where
  screen : TextScreen (BitVec 16)
  color : BitVec 8
  cursor : ℕ

namespace Display

open TextScreen

def blank (d : Display) : BitVec 16 := vgaEntry 0x20#8 d.color

def moved (d : Display) (screen : TextScreen (BitVec 16)) : Display :=
  { d with screen := screen, cursor := screen.position }

def putchar (d : Display) (c : BitVec 8) : Display :=
  d.moved
    (if c = 0x0A#8 then newline vgaWidth vgaHeight d.blank d.screen
    else type vgaWidth vgaHeight d.blank d.screen (vgaEntry c d.color))

def write (d : Display) (data : List (BitVec 8)) : Display := data.foldl putchar d

def backspace (d : Display) : Display := d.moved (TextScreen.backspace d.blank d.screen)

def clear (d : Display) : Display := d.moved (cleared d.blank)

/-- The cursor stays where it was until the next operation that moves it. -/
def started (d : Display) : Display :=
  let color := vgaEntryColor vgaColorLightGrey vgaColorBlack
  ⟨cleared (vgaEntry 0x20#8 color), color, d.cursor⟩

def op (d : Display) : Terminal.Op → Display
  | .terminalInitialize => d.started
  | .terminalSetcolor color => { d with color := color }
  | .terminalFsetcolor fg bg => { d with color := vgaEntryColor fg bg }
  | .terminalPutchar c => d.putchar c
  | .terminalWrite data => d.write data
  | .terminalWritestring data => d.write (data.map fun c => c.val.toBitVec)
  | .terminalTab spaces => d.write (List.replicate spaces 0x20#8)
  | .terminalBackspace => d.backspace
  | .terminalClear => d.clear

end Display

namespace Terminal

open TextScreen

/-- The terminal shows the display, and wrote no cell outside the screen. -/
structure Displays (t : Terminal) (d : Display) : Prop where
  row : t.row < vgaHeight
  column : t.column < vgaWidth
  position : d.screen.position = t.row * vgaWidth + t.column
  cells : ∀ y < vgaHeight, ∀ x < vgaWidth, t.cell y x = d.screen.cells (y * vgaWidth + x)
  color : d.color = t.color
  cursor : t.cursor = d.cursor
  inside : ∀ p ∈ t.written, p.1 < vgaHeight ∧ p.2 < vgaWidth

variable {t s : Terminal} {d : Display}

lemma Displays.blank (h : Displays t d) : d.blank = vgaEntry 0x20#8 t.color := by
  rw [Display.blank, h.color]

lemma Drawn.displays (cells : ℕ → BitVec 16) (position : ℕ)
    (h : Drawn t s fun y x => cells (y * vgaWidth + x))
    (hin : ∀ p ∈ t.written, p.1 < vgaHeight ∧ p.2 < vgaWidth) (hd : d.color = t.color)
    (hr : s.row < vgaHeight) (hc : s.column < vgaWidth)
    (hpos : position = s.row * vgaWidth + s.column) :
    Displays (s.terminalSetcursorpos s.row s.column) (d.moved ⟨cells, position⟩) where
  row := hr
  column := hc
  position := hpos
  cells := h.cells
  color := hd.trans h.color.symm
  cursor := by
    rw [cursor_setcursorpos hr hc]
    exact hpos.symm
  inside p hp := (h.inside p hp).elim (hin p) id

def settled (s : Terminal) : Terminal :=
  let u := if s.row = vgaHeight then s.terminalScroll else s
  u.terminalSetcursorpos u.row u.column

lemma terminalPutchar_newline (t : Terminal) :
    t.terminalPutchar 0x0A#8 = settled { t with row := t.row + 1, column := 0 } := by
  simp only [terminalPutchar, settled, if_true]

lemma terminalPutchar_wrap {c : BitVec 8} (hc : c ≠ 0x0A#8) (h : t.column + 1 = vgaWidth) :
    t.terminalPutchar c = settled
      { t.setCell t.row t.column (vgaEntry c t.color) with row := t.row + 1, column := 0 } := by
  by_cases hr : t.row + 1 = vgaHeight
  all_goals
    simp only [terminalPutchar, terminalPutentryat, settled, hc, if_false, setCell, h, if_true, hr]

lemma terminalPutchar_next {c : BitVec 8} (hc : c ≠ 0x0A#8) (h : t.column + 1 ≠ vgaWidth)
    (hr : t.row < vgaHeight) : t.terminalPutchar c = settled
      { t.setCell t.row t.column (vgaEntry c t.color) with row := t.row, column := t.column + 1 } := by
  simp only [terminalPutchar, terminalPutentryat, settled, hc, if_false, setCell, h,
    Nat.ne_of_lt hr]

lemma next_row_lt {y x : ℕ} (hx : x < vgaWidth) :
    y * vgaWidth + x + vgaWidth < vgaWidth * vgaHeight ↔ y + 1 < vgaHeight := by
  simp only [vgaWidth, vgaHeight] at hx ⊢
  omega

lemma Drawn.settles (cells : ℕ → BitVec 16) (position : ℕ)
    (h : Drawn t s fun y x => cells (y * vgaWidth + x))
    (hin : ∀ p ∈ t.written, p.1 < vgaHeight ∧ p.2 < vgaWidth) (hd : d.color = t.color)
    (hr : s.row < vgaHeight ∨ s.row = vgaHeight ∧ s.column = 0) (hc : s.column < vgaWidth)
    (hpos : position = s.row * vgaWidth + s.column) :
    Displays s.settled (d.moved (settle vgaWidth vgaHeight d.blank ⟨cells, position⟩)) := by
  rcases hr with hr | ⟨hr, hzero⟩
  · have hlt : position < vgaWidth * vgaHeight := by
      simp only [vgaWidth, vgaHeight] at hr hc hpos ⊢
      omega
    have hs : s.settled = s.terminalSetcursorpos s.row s.column := by
      simp only [settled, Nat.ne_of_lt hr, if_false]
    rw [hs, settle_of_lt hlt]
    exact h.displays cells position hin hd hr hc hpos
  · have hge : vgaWidth * vgaHeight ≤ position := by
      rw [hpos, hr, Nat.mul_comm]
      exact Nat.le_add_right _ _
    have hs : s.settled = s.terminalScroll.terminalSetcursorpos (vgaHeight - 1) 0 := by
      simp only [settled, hr, if_true]
      rfl
    have hlast : position - vgaWidth = (vgaHeight - 1) * vgaWidth + 0 := by
      rw [hpos, hr, hzero]
      rfl
    rw [hs, settle_of_ge hge]
    apply Drawn.displays _ _ _ hin hd (show vgaHeight - 1 < vgaHeight by decide)
      (show 0 < vgaWidth by decide) hlast
    apply (h.trans (scroll_drawn s)).congr
    intro y hy x hx
    by_cases hnext : y + 1 < vgaHeight
    · have hadd : y * vgaWidth + x + vgaWidth = (y + 1) * vgaWidth + x := by
        rw [Nat.succ_mul, Nat.add_right_comm]
      rw [if_pos hnext, if_pos ((next_row_lt hx).mpr hnext), hadd]
      exact h.cells (y + 1) hnext x hx
    · rw [if_neg hnext, if_neg (mt (next_row_lt hx).mp hnext), h.color, Display.blank, hd]

lemma Displays.drawn (h : Displays t d) : Drawn t t fun y x => d.screen.cells (y * vgaWidth + x) :=
  (Drawn.refl t).congr h.cells

lemma index_inj {y x y' x' : ℕ} (hx : x < vgaWidth) (hx' : x' < vgaWidth) :
    y' * vgaWidth + x' = y * vgaWidth + x ↔ y' = y ∧ x' = x := by
  simp only [vgaWidth] at hx hx' ⊢
  omega

lemma Displays.drawCell (h : Displays t d) {y x : ℕ} (hy : y < vgaHeight) (hx : x < vgaWidth)
    (entry : BitVec 16) (row column : ℕ) :
    Drawn t { t.setCell y x entry with row := row, column := column } fun y' x' =>
      Function.update d.screen.cells (y * vgaWidth + x) entry (y' * vgaWidth + x') := by
  apply ((h.drawn.setCell hy hx entry).moved row column _ _).congr
  intro y' _ x' hx'
  by_cases hsame : y' = y ∧ x' = x
  · rw [if_pos hsame, hsame.1, hsame.2, Function.update_self]
  · rw [if_neg hsame, Function.update_of_ne (fun he => hsame ((index_inj hx hx').mp he))]

lemma Displays.putchar (h : Displays t d) (c : BitVec 8) :
    Displays (t.terminalPutchar c) (d.putchar c) := by
  have hrow := h.row
  have hcolumn := h.column
  have hpos := h.position
  have hnext : t.row + 1 < vgaHeight ∨ t.row + 1 = vgaHeight ∧ 0 = 0 :=
    (Nat.lt_or_eq_of_le (Nat.succ_le_of_lt hrow)).imp id fun he => ⟨he, rfl⟩
  by_cases hc : c = 0x0A#8
  · rw [Display.putchar, if_pos hc, newline, hc, terminalPutchar_newline]
    apply Drawn.settles _ _ (h.drawn.moved (t.row + 1) 0 _ _) h.inside h.color hnext
    · exact (by decide : 0 < vgaWidth)
    · simp only [hpos]
      simp only [vgaWidth] at hcolumn ⊢
      omega
  · rw [Display.putchar, if_neg hc, type, h.color]
    have hset := fun row column => h.drawCell hrow hcolumn (vgaEntry c t.color) row column
    rw [← hpos] at hset
    by_cases hend : t.column + 1 = vgaWidth
    · rw [terminalPutchar_wrap hc hend]
      apply Drawn.settles _ _ (hset (t.row + 1) 0) h.inside h.color hnext
      · exact (by decide : 0 < vgaWidth)
      · simp only [hpos]
        simp only [vgaWidth] at hend ⊢
        omega
    · have hfit : t.column + 1 < vgaWidth := by omega
      rw [terminalPutchar_next hc hend hrow]
      apply Drawn.settles _ _ (hset t.row (t.column + 1)) h.inside h.color (.inl hrow) hfit
      simp only [hpos]
      exact Nat.add_assoc _ _ _

lemma Displays.write (h : Displays t d) (data : List (BitVec 8)) :
    Displays (t.terminalWrite data) (d.write data) := by
  induction data generalizing t d with
  | nil => exact h
  | cons c data ih => exact ih (h.putchar c)

lemma terminalTab_eq (t : Terminal) (spaces : ℕ) :
    t.terminalTab spaces = t.terminalWrite (List.replicate spaces 0x20#8) := by
  induction spaces with
  | zero => rfl
  | succ n ih =>
    rw [terminalTab, List.range_succ, List.foldl_append, List.replicate_succ', terminalWrite,
      List.foldl_append, ← terminalTab, ← terminalWrite, ih]
    rfl

lemma Displays.backspace (h : Displays t d) : Displays t.terminalBackspace d.backspace := by
  have hrow := h.row
  have hcolumn := h.column
  have hpos := h.position
  have hback : ∃ row column, row < vgaHeight ∧ column < vgaWidth ∧
      d.screen.position - 1 = row * vgaWidth + column ∧ t.terminalBackspace =
        ({ t.setCell row column d.blank with row := row, column := column } : Terminal).terminalSetcursorpos
          row column := by
    simp only [terminalBackspace, h.blank]
    simp only [vgaWidth, vgaHeight] at hrow hcolumn hpos ⊢
    by_cases hzero : t.column = 0
    · by_cases hup : t.row > 0
      · refine ⟨t.row - 1, 79, by omega, by omega, by omega, ?_⟩
        simp only [hzero, hup, if_true]
        rfl
      · refine ⟨t.row, t.column, hrow, hcolumn, by omega, ?_⟩
        simp only [hzero, hup, if_true, if_false]
        rw [← hzero]
        rfl
    · refine ⟨t.row, t.column - 1, hrow, by omega, by omega, ?_⟩
      simp only [hzero, if_false]
      rfl
  obtain ⟨row, column, hr, hc, hp, he⟩ := hback
  rw [he, Display.backspace, TextScreen.backspace, hp]
  exact Drawn.displays _ _ (h.drawCell hr hc d.blank row column) h.inside h.color hr hc rfl

lemma displays_clear (hin : ∀ p ∈ t.written, p.1 < vgaHeight ∧ p.2 < vgaWidth)
    (hd : d.color = t.color) : Displays t.terminalClear d.clear := by
  have hall := Drawn.fillRows (t := t) (Nat.le_refl vgaHeight) (fun _ t _ => vgaEntry 0x20#8 t.color)
    (fun _ _ => d.blank) (fun i u x _ _ hc _ => by rw [hc, Display.blank, hd])
  simp only [terminalClear]
  generalize (List.range vgaHeight).foldl
    (fun t y => t.fillRow y fun t _ => vgaEntry 0x20#8 t.color) t = s at hall
  exact ((hall.moved 0 0 0 0).congr fun y hy x _ => if_pos hy).displays (fun _ => d.blank) 0 hin
    hd (show 0 < vgaHeight by decide) (show 0 < vgaWidth by decide) rfl

lemma fillRows_eq (t : Terminal) (n : ℕ) (entry : ℕ → Terminal → ℕ → BitVec 16) :
    ∃ buffer written, (List.range n).foldl (fun u y => u.fillRow y (entry y)) t =
      { t with buffer := buffer, written := written } := by
  let Kept : ℕ → Terminal → Prop := fun _ u =>
    ∃ buffer written, u = { t with buffer := buffer, written := written }
  apply range_loop (P := Kept)
  · exact ⟨_, _, rfl⟩
  · intro y u _ hu
    apply range_loop (P := Kept)
    · exact hu
    · rintro x v _ ⟨_, _, rfl⟩
      exact ⟨_, _, rfl⟩

lemma displays_initialize (hin : ∀ p ∈ t.written, p.1 < vgaHeight ∧ p.2 < vgaWidth)
    (hd : t.cursor = d.cursor) : Displays t.terminalInitialize d.started := by
  have hall := Drawn.fillRows (n := vgaHeight)
    (t := { t with row := 0, column := 0, color := vgaEntryColor vgaColorLightGrey vgaColorBlack })
    (Nat.le_refl vgaHeight) (fun _ t _ => vgaEntry 0x20#8 t.color)
    (fun _ _ => vgaEntry 0x20#8 (vgaEntryColor vgaColorLightGrey vgaColorBlack))
    (fun i u x _ _ hc _ => by rw [hc])
  obtain ⟨buffer, written, he⟩ := fillRows_eq
    { t with row := 0, column := 0, color := vgaEntryColor vgaColorLightGrey vgaColorBlack } vgaHeight
    (fun _ t _ => vgaEntry 0x20#8 t.color)
  have hdef : t.terminalInitialize = _ := he
  rw [he] at hall
  rw [hdef]
  exact ⟨(by decide : 0 < vgaHeight), (by decide : 0 < vgaWidth), rfl,
    fun y hy x hx => (hall.cells y hy x hx).trans (if_pos hy), rfl, hd,
    fun p hp => (hall.inside p hp).elim (hin p) id⟩

lemma Displays.op (h : Displays t d) (o : Op) : Displays (t.op o) (d.op o) := by
  cases o with
  | terminalInitialize =>
    rw [Terminal.op, Display.op]
    exact displays_initialize h.inside h.cursor
  | terminalSetcolor color => exact ⟨h.row, h.column, h.position, h.cells, rfl, h.cursor, h.inside⟩
  | terminalFsetcolor fg bg => exact ⟨h.row, h.column, h.position, h.cells, rfl, h.cursor, h.inside⟩
  | terminalPutchar c => exact h.putchar c
  | terminalWrite data => exact h.write data
  | terminalWritestring data => exact h.write _
  | terminalTab spaces =>
    rw [Terminal.op, terminalTab_eq]
    exact h.write _
  | terminalBackspace => exact h.backspace
  | terminalClear => exact displays_clear h.inside h.color

/-- After `terminal_initialize`, whatever the terminal's variables and the screen held, every run of
the terminal's operations shows what the same run makes of one row of 2000 cells, and no cell outside
the screen is ever written. -/
theorem terminal_displays (t : Terminal) (hin : t.written = []) (ops : List Op) :
    Displays (ops.foldl op t.terminalInitialize)
      (ops.foldl Display.op (Display.started ⟨cleared 0, 0, t.cursor⟩)) := by
  have hrun : ∀ t d, Displays t d → Displays (ops.foldl op t) (ops.foldl Display.op d) := by
    induction ops with
    | nil => exact fun _ _ h => h
    | cons o ops ih => exact fun _ _ h => ih _ _ (h.op o)
  apply hrun
  apply displays_initialize
  · rw [hin]
    exact fun p hp => absurd hp List.not_mem_nil
  · rfl

def deadTerminal : Terminal := ⟨7, 90, 0, fun _ => 0xFFFF, 0, 0, []⟩

theorem terminal_displays_dead :
    Displays ([.terminalTab 3, .terminalBackspace].foldl op deadTerminal.terminalInitialize)
      ([.terminalTab 3, .terminalBackspace].foldl Display.op
        (Display.started ⟨cleared 0, 0, deadTerminal.cursor⟩)) :=
  terminal_displays deadTerminal rfl _

end Terminal

end Veni.Drivers

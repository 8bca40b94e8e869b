import Veni.Drivers.Terminal
import Veni.Lib.TextRows

/-! The screen shows the last rows of the text written to it. -/

namespace Veni.Drivers.Terminal

open Veni.Lib.TextRows

/-- The rows of a text, which a newline or the 80th character of a row ends. -/
def layoutOf (data : List (BitVec 8)) : Rows (BitVec 8) := Rows.layout 0x0A#8 vgaWidth data

/-- Since `t`, only cells of the screen were written. It shows the last rows in the colour of `t`, with
the cursor behind the last character. -/
structure Shows (t s : Terminal) (r : Rows (BitVec 8)) : Prop where
  drawn : Drawn t s (fun y x => vgaEntry (shown 0x20#8 vgaHeight r.all y x) t.color)
  row : s.row + 1 = min r.all.length vgaHeight
  column : s.column = r.last.length

def cursor (t : Terminal) : ℕ := t.cursorHigh.toNat * 256 + t.cursorLow.toNat

variable {t s : Terminal} {r : Rows (BitVec 8)}

lemma cursor_setcursorpos {row column : ℕ} (hr : row < vgaHeight) (hc : column < vgaWidth) :
    (s.terminalSetcursorpos row column).cursor = row * vgaWidth + column := by
  have hpos : row * vgaWidth + column < 2 ^ 16 := by
    simp only [vgaHeight, vgaWidth] at hr hc ⊢
    omega
  simp only [cursor, terminalSetcursorpos, BitVec.toNat_setWidth, BitVec.toNat_and, BitVec.toNat_ofNat,
    BitVec.toNat_ushiftRight, Nat.shiftRight_eq_div_pow]
  rw [Nat.mod_eq_of_lt hpos]
  generalize row * vgaWidth + column = pos at hpos
  have hmask : ∀ n, n &&& 255 % 2 ^ 16 = n % 256 := fun n => Nat.and_two_pow_sub_one_eq_mod n 8
  rw [hmask, hmask]
  omega

lemma shows_clear (t : Terminal) : Shows t t.terminalClear Rows.empty := by
  refine ⟨(clear_drawn t).congr fun y _ x _ => ?_, rfl, rfl⟩
  rw [shown_eq]
  rcases y with _ | y
  · rfl
  · rfl

lemma Shows.extend (h : Shows t s r) (hx : r.last.length < vgaWidth) (c : BitVec 8) :
    Shows t { s.terminalPutentryat c s.color s.column s.row with column := s.column + 1 } (r.extend c) := by
  have hrow := h.row
  have hy : s.row < vgaHeight := by omega
  have hlen : (r.extend c).all.length = r.all.length := by simp [Rows.all, Rows.extend]
  refine ⟨?_, ?_, ?_⟩
  · have hset := h.drawn.setCell hy (h.column ▸ hx) (vgaEntry c s.color)
    apply (hset.moved _ _ _ _).congr
    intro y _ x _
    rw [shown_extend c, h.drawn.color, h.column]
    by_cases hlast : y = s.row ∧ x = r.last.length
    · rw [if_pos hlast, if_pos ⟨by omega, hlast.2⟩]
    · rw [if_neg hlast, if_neg (fun hl => hlast ⟨by omega, hl.2⟩)]
  · rw [hlen]
    exact hrow
  · simp [Rows.extend, h.column]

lemma Shows.newRow (h : Shows t s r) :
    Shows t
      (if s.row + 1 = vgaHeight then { s with column := 0, row := s.row + 1 }.terminalScroll
      else { s with column := 0, row := s.row + 1 }) r.newRow := by
  have hrow := h.row
  have hall : r.newRow.all = r.all ++ [[]] := rfl
  have hlen : r.newRow.all.length = r.all.length + 1 := by rw [hall, List.length_append, List.length_singleton]
  have hmoved := h.drawn.moved (s.row + 1) 0 s.cursorLow s.cursorHigh
  by_cases hfull : s.row + 1 = vgaHeight
  · have hlong : vgaHeight ≤ r.all.length := by omega
    rw [if_pos hfull]
    refine ⟨(hmoved.trans (scroll_drawn _)).congr fun y hy x hx => ?_, ?_, rfl⟩
    · rw [hall]
      by_cases hnext : y + 1 < vgaHeight
      · rw [if_pos hnext, shown_scroll hlong hnext]
        exact h.drawn.cells (y + 1) hnext x hx
      · rw [if_neg hnext, shown_scroll_last hlong (by omega), ← h.drawn.color]
    · rw [hlen, Nat.min_eq_right (by omega)]
      rfl
  · rw [if_neg hfull]
    refine ⟨hmoved.congr fun y _ x _ => ?_, ?_, rfl⟩
    · rw [hall, shown_newRow (by omega)]
    · rw [hlen]
      simp only
      omega

lemma Shows.setcursorpos (h : Shows t s r) (row column : ℕ) : Shows t (s.terminalSetcursorpos row column) r :=
  ⟨h.drawn.moved _ _ _ _, h.row, h.column⟩

lemma Shows.putchar (h : Shows t s r) (hx : r.last.length < vgaWidth) (c : BitVec 8) :
    Shows t (s.terminalPutchar c) (r.add 0x0A#8 vgaWidth c) ∧
      (s.terminalPutchar c).cursor = (s.terminalPutchar c).row * vgaWidth + (s.terminalPutchar c).column := by
  have hplaced : ∃ u, Shows t u (r.add 0x0A#8 vgaWidth c) ∧
      s.terminalPutchar c = u.terminalSetcursorpos u.row u.column := by
    by_cases hc : c = 0x0A#8
    · refine ⟨_, ?_, rfl⟩
      rw [if_pos hc, Rows.add, if_pos hc]
      exact h.newRow
    · have hext := h.extend hx c
      have hwidth : s.column + 1 = (r.extend c).last.length := hext.column
      have hcolumn : (s.terminalPutentryat c s.color s.column s.row).column = s.column := rfl
      refine ⟨_, ?_, rfl⟩
      rw [if_neg hc, Rows.add, if_neg hc, ← hwidth]
      simp only [hcolumn]
      by_cases hend : s.column + 1 = vgaWidth
      · rw [if_pos hend, if_pos hend]
        exact hext.newRow
      · rw [if_neg hend, if_neg hend]
        exact hext
  obtain ⟨u, hu, he⟩ := hplaced
  have hlt : (r.add 0x0A#8 vgaWidth c).last.length < vgaWidth := Rows.last_length_lt c hx
  have hrow := hu.row
  rw [he]
  refine ⟨hu.setcursorpos _ _, ?_⟩
  rw [cursor_setcursorpos (by omega) (hu.column ▸ hlt)]
  rfl

/-- After any text on a cleared terminal the screen shows the last 25 rows of its layout, with the
cursor at the end of the last row, and every cell written has its row below 25 and its column
below 80. -/
theorem terminalWrite_shows (t : Terminal) (data : List (BitVec 8)) :
    Shows t (t.terminalClear.terminalWrite data) (layoutOf data) ∧
      (layoutOf data).last.length < vgaWidth ∧
      (t.terminalClear.terminalWrite data).cursor =
        (t.terminalClear.terminalWrite data).row * vgaWidth +
          (t.terminalClear.terminalWrite data).column := by
  have hrun : ∀ s r, Shows t s r → r.last.length < vgaWidth → s.cursor = s.row * vgaWidth + s.column →
      Shows t (s.terminalWrite data) (data.foldl (Rows.add 0x0A#8 vgaWidth) r) ∧
        (data.foldl (Rows.add 0x0A#8 vgaWidth) r).last.length < vgaWidth ∧
        (s.terminalWrite data).cursor =
          (s.terminalWrite data).row * vgaWidth + (s.terminalWrite data).column := by
    induction data with
    | nil => exact fun s r hs hr hc => ⟨hs, hr, hc⟩
    | cons c data ih =>
      intro s r hs hr hc
      obtain ⟨hnext, hcursor⟩ := hs.putchar hr c
      exact ih _ _ hnext (Rows.last_length_lt c hr) hcursor
  apply hrun _ _ (shows_clear t) (by decide)
  exact cursor_setcursorpos (show 0 < vgaHeight by decide) (show 0 < vgaWidth by decide)

end Veni.Drivers.Terminal

import Mathlib.Data.List.Basic
import Mathlib.Tactic.Common

/-! The VGA text terminal, `arch/i386/tty.c` and `vga.h`. -/

namespace Veni.Drivers

def vgaWidth : ℕ := 80

def vgaHeight : ℕ := 25

def vgaEntry (uc color : BitVec 8) : BitVec 16 := uc.setWidth 16 ||| color.setWidth 16 <<< 8

/-- The terminal's variables, the words from `VGA_MEMORY` on, the cursor location registers of the
display controller, and the history of the cells written, row first. -/
structure Terminal where
  row : ℕ
  column : ℕ
  color : BitVec 8
  buffer : ℕ → BitVec 16
  cursorLow : BitVec 8
  cursorHigh : BitVec 8
  written : List (ℕ × ℕ)

namespace Terminal

def setCell (t : Terminal) (y x : ℕ) (entry : BitVec 16) : Terminal :=
  { t with
    buffer := Function.update t.buffer (y * vgaWidth + x) entry
    written := t.written ++ [(y, x)] }

def terminalPutentryat (t : Terminal) (c color : BitVec 8) (x y : ℕ) : Terminal :=
  t.setCell y x (vgaEntry c color)

def terminalSetcursorpos (t : Terminal) (row column : ℕ) : Terminal :=
  let pos := BitVec.ofNat 16 (row * vgaWidth + column)
  { t with
    cursorLow := (pos &&& 0xFF#16).setWidth 8
    cursorHigh := (pos >>> 8 &&& 0xFF#16).setWidth 8 }

def fillRow (t : Terminal) (y : ℕ) (entry : Terminal → ℕ → BitVec 16) : Terminal :=
  (List.range vgaWidth).foldl (fun t x => t.setCell y x (entry t x)) t

def terminalScroll (t : Terminal) : Terminal :=
  let t := (List.range (vgaHeight - 1)).foldl
    (fun t i => t.fillRow (i + 1 - 1) (fun t x => t.buffer ((i + 1) * vgaWidth + x))) t
  let t := t.fillRow (vgaHeight - 1) (fun t _ => vgaEntry 0x20#8 t.color)
  { t with
    row := vgaHeight - 1
    column := 0 }

def terminalPutchar (t : Terminal) (c : BitVec 8) : Terminal :=
  let t :=
    if c = 0x0A#8 then
      let t := { t with column := 0, row := t.row + 1 }
      if t.row = vgaHeight then t.terminalScroll else t
    else
      let t := t.terminalPutentryat c t.color t.column t.row
      let t := { t with column := t.column + 1 }
      if t.column = vgaWidth then
        let t := { t with column := 0, row := t.row + 1 }
        if t.row = vgaHeight then t.terminalScroll else t
      else t
  t.terminalSetcursorpos t.row t.column

def terminalWrite (t : Terminal) (data : List (BitVec 8)) : Terminal := data.foldl terminalPutchar t

def terminalClear (t : Terminal) : Terminal :=
  let t := (List.range vgaHeight).foldl
    (fun t y => t.fillRow y (fun t _ => vgaEntry 0x20#8 t.color)) t
  let t := { t with row := 0, column := 0 }
  t.terminalSetcursorpos t.row t.column

def cell (t : Terminal) (y x : ℕ) : BitVec 16 := t.buffer (y * vgaWidth + x)

lemma range_loop {σ : Type*} {P : ℕ → σ → Prop} {f : σ → ℕ → σ} {n : ℕ} {s : σ} (h0 : P 0 s)
    (hstep : ∀ i s, i < n → P i s → P (i + 1) (f s i)) :
    P n ((List.range n).foldl f s) := by
  induction n with
  | zero => exact h0
  | succ n ih =>
    rw [List.range_succ, List.foldl_append]
    apply hstep n _ (Nat.lt_succ_self n)
    apply ih
    intro i s hi
    exact hstep i s (Nat.lt_succ_of_lt hi)

/-- Since `t`, only cells of the screen were written, and the screen is the picture now. -/
structure Drawn (t s : Terminal) (picture : ℕ → ℕ → BitVec 16) : Prop where
  color : s.color = t.color
  cells : ∀ y < vgaHeight, ∀ x < vgaWidth, s.cell y x = picture y x
  inside : ∀ p ∈ s.written, p ∈ t.written ∨ p.1 < vgaHeight ∧ p.2 < vgaWidth

variable {t s : Terminal} {picture : ℕ → ℕ → BitVec 16}

lemma Drawn.refl (t : Terminal) : Drawn t t t.cell :=
  ⟨rfl, fun _ _ _ _ => rfl, fun _ hp => .inl hp⟩

lemma Drawn.trans {u : Terminal} {picture' : ℕ → ℕ → BitVec 16} (h : Drawn t s picture)
    (h' : Drawn s u picture') : Drawn t u picture' := by
  refine ⟨h'.color.trans h.color, h'.cells, fun p hp => ?_⟩
  rcases h'.inside p hp with hp | hp
  · exact h.inside p hp
  · exact .inr hp

lemma Drawn.congr {picture' : ℕ → ℕ → BitVec 16} (h : Drawn t s picture)
    (he : ∀ y < vgaHeight, ∀ x < vgaWidth, picture y x = picture' y x) : Drawn t s picture' :=
  ⟨h.color, fun y hy x hx => (h.cells y hy x hx).trans (he y hy x hx), h.inside⟩

lemma Drawn.moved (h : Drawn t s picture) (row column : ℕ) (low high : BitVec 8) :
    Drawn t { s with row := row, column := column, cursorLow := low, cursorHigh := high } picture :=
  ⟨h.color, h.cells, h.inside⟩

lemma cell_setCell {y x y' x' : ℕ} (hx : x < vgaWidth) (hx' : x' < vgaWidth) (entry : BitVec 16) :
    (t.setCell y x entry).cell y' x' = if y' = y ∧ x' = x then entry else t.cell y' x' := by
  simp only [vgaWidth] at hx hx'
  simp only [cell, setCell, vgaWidth]
  by_cases h : y' = y ∧ x' = x
  · obtain ⟨rfl, rfl⟩ := h
    rw [Function.update_self, if_pos ⟨rfl, rfl⟩]
  · rw [Function.update_of_ne (by omega), if_neg h]

lemma Drawn.setCell (h : Drawn t s picture) {y x : ℕ} (hy : y < vgaHeight) (hx : x < vgaWidth)
    (entry : BitVec 16) :
    Drawn t (s.setCell y x entry) (fun y' x' => if y' = y ∧ x' = x then entry else picture y' x') := by
  refine ⟨h.color, fun y' hy' x' hx' => ?_, fun p hp => ?_⟩
  · rw [cell_setCell hx hx', h.cells y' hy' x' hx']
  · rcases List.mem_append.mp hp with hp | hp
    · exact h.inside p hp
    · rw [List.mem_singleton.mp hp]
      exact .inr ⟨hy, hx⟩

lemma Drawn.fillRow (h : Drawn t s picture) {y : ℕ} (hy : y < vgaHeight) (entry : Terminal → ℕ → BitVec 16)
    (line : ℕ → BitVec 16)
    (hentry : ∀ u x, x < vgaWidth → u.color = t.color →
      (∀ y' < vgaHeight, y' ≠ y → u.cell y' x = picture y' x) → entry u x = line x) :
    Drawn t (s.fillRow y entry) (fun y' x' => if y' = y then line x' else picture y' x') := by
  have hloop : Drawn t (s.fillRow y entry)
      (fun y' x' => if y' = y ∧ x' < vgaWidth then line x' else picture y' x') := by
    apply range_loop (P := fun n u =>
      Drawn t u (fun y' x' => if y' = y ∧ x' < n then line x' else picture y' x'))
    · exact h.congr (by simp)
    · intro x u hx hu
      have hval : entry u x = line x := by
        apply hentry u x hx hu.color
        intro y' hy' hne
        rw [hu.cells y' hy' x hx, if_neg (fun h => hne h.1)]
      rw [hval]
      apply (hu.setCell hy hx (line x)).congr
      intro y' _ x' _
      by_cases hxx : y' = y ∧ x' = x
      · rw [if_pos hxx, if_pos ⟨hxx.1, by omega⟩, hxx.2]
      · rw [if_neg hxx]
        congr 1
        simp only [eq_iff_iff]
        omega
  exact hloop.congr fun y' _ x' hx' => by simp [hx']

lemma Drawn.fillRows {n : ℕ} (hn : n ≤ vgaHeight) (entry : ℕ → Terminal → ℕ → BitVec 16)
    (line : ℕ → ℕ → BitVec 16)
    (hentry : ∀ i u x, i < n → x < vgaWidth → u.color = t.color →
      (∀ y < vgaHeight, i < y → u.cell y x = t.cell y x) → entry i u x = line i x) :
    Drawn t ((List.range n).foldl (fun u i => u.fillRow i (entry i)) t)
      (fun y x => if y < n then line y x else t.cell y x) := by
  apply range_loop (P := fun i u => Drawn t u (fun y x => if y < i then line y x else t.cell y x))
  · exact (Drawn.refl t).congr (by simp)
  · intro i u hi hu
    have hrow := hu.fillRow (y := i) (by omega) (entry i) (line i) (fun v x hx hc hother => by
      apply hentry i v x hi hx hc
      intro y hy hlt
      rw [hother y hy (by omega), if_neg (by omega)])
    apply hrow.congr
    intro y _ x _
    by_cases hy : y = i
    · rw [if_pos hy, if_pos (by omega), hy]
    · rw [if_neg hy]
      congr 1
      simp only [eq_iff_iff]
      omega

lemma scroll_drawn (t : Terminal) :
    Drawn t t.terminalScroll
      (fun y x => if y + 1 < vgaHeight then t.cell (y + 1) x else vgaEntry 0x20#8 t.color) := by
  have hmove := Drawn.fillRows (t := t) (n := vgaHeight - 1) (by decide)
    (fun i t x => t.buffer ((i + 1) * vgaWidth + x)) (fun i x => t.cell (i + 1) x)
    (fun i u x hi _ _ hother => hother (i + 1) (by omega) (by omega))
  have hlast := hmove.fillRow (y := vgaHeight - 1) (by decide) (fun u _ => vgaEntry 0x20#8 u.color)
    (fun _ => vgaEntry 0x20#8 t.color) (fun u x _ hc _ => by rw [hc])
  simp only [terminalScroll, Nat.add_sub_cancel]
  apply (hlast.moved _ _ _ _).congr
  intro y hy x _
  by_cases hy' : y + 1 < vgaHeight
  · rw [if_neg (by omega), if_pos (by omega), if_pos hy']
  · rw [if_pos (by omega), if_neg hy']

lemma clear_drawn (t : Terminal) : Drawn t t.terminalClear (fun _ _ => vgaEntry 0x20#8 t.color) := by
  have hall := Drawn.fillRows (t := t) (Nat.le_refl vgaHeight) (fun _ t _ => vgaEntry 0x20#8 t.color)
    (fun _ _ => vgaEntry 0x20#8 t.color) (fun i u x _ _ hc _ => by rw [hc])
  simp only [terminalClear, terminalSetcursorpos]
  apply (hall.moved _ _ _ _).congr
  intro y hy x _
  exact if_pos hy

end Terminal

end Veni.Drivers

import Mathlib.Data.List.GetD
import Mathlib.Logic.Function.Basic
import Mathlib.Tactic.Common
import Mathlib.Tactic.Ring

/-! A character screen as one row of cells with a position in it, that scrolls by rows. -/

namespace Veni.Lib

variable {ε : Type*}

structure TextScreen (ε : Type*) where
  cells : ℕ → ε
  position : ℕ

namespace TextScreen

variable (width height : ℕ)

def settle (blank : ε) (s : TextScreen ε) : TextScreen ε :=
  if s.position < width * height then s
  else
    { cells := fun i => if i + width < width * height then s.cells (i + width) else blank
      position := s.position - width }

def type (blank : ε) (s : TextScreen ε) (e : ε) : TextScreen ε :=
  settle width height blank ⟨Function.update s.cells s.position e, s.position + 1⟩

def newline (blank : ε) (s : TextScreen ε) : TextScreen ε :=
  settle width height blank ⟨s.cells, (s.position / width + 1) * width⟩

def backspace (blank : ε) (s : TextScreen ε) : TextScreen ε :=
  ⟨Function.update s.cells (s.position - 1) blank, s.position - 1⟩

def cleared (blank : ε) : TextScreen ε := ⟨fun _ => blank, 0⟩

variable {width height} {blank : ε} {s : TextScreen ε}

lemma settle_of_lt (h : s.position < width * height) : settle width height blank s = s := if_pos h

lemma settle_of_ge (h : width * height ≤ s.position) : settle width height blank s =
    ⟨fun i => if i + width < width * height then s.cells (i + width) else blank,
      s.position - width⟩ :=
  if_neg (Nat.not_lt.mpr h)

section Lines

variable {line : List ε}

def typeAll (width height : ℕ) (blank : ε) (s : TextScreen ε) (line : List ε) : TextScreen ε :=
  line.foldl (type width height blank) s

lemma typeAll_eq (h : s.position + line.length < width * height) :
    typeAll width height blank s line =
      ⟨fun i => if s.position ≤ i then line.getD (i - s.position) (s.cells i) else s.cells i,
        s.position + line.length⟩ := by
  induction line generalizing s with
  | nil =>
    obtain ⟨cells, position⟩ := s
    simp [typeAll]
  | cons e line ih =>
    rw [List.length_cons] at h
    have hstep : type width height blank s e =
        ⟨Function.update s.cells s.position e, s.position + 1⟩ :=
      settle_of_lt (show s.position + 1 < width * height by omega)
    rw [typeAll, List.foldl_cons, hstep, ← typeAll, ih (by simp only; omega)]
    simp only [TextScreen.mk.injEq, List.length_cons]
    refine ⟨?_, by omega⟩
    funext i
    rcases Nat.lt_trichotomy i s.position with hi | rfl | hi
    · rw [if_neg (by omega), if_neg (by omega), Function.update_of_ne (by omega)]
    · rw [if_neg (by omega), if_pos (Nat.le_refl _), Function.update_self, Nat.sub_self,
        List.getD_cons_zero]
    · have hsub : i - s.position = i - (s.position + 1) + 1 := by omega
      rw [if_pos (Nat.succ_le_of_lt hi), if_pos (Nat.le_of_lt hi), Function.update_of_ne (by omega), hsub,
        List.getD_cons_succ]

def typeLines (width height : ℕ) (blank : ε) (s : TextScreen ε) (lines : List (List ε)) :
    TextScreen ε :=
  lines.foldl (fun s line => newline width height blank (typeAll width height blank s line)) s

lemma typeLines_eq {y : ℕ} {lines : List (List ε)} (hs : s.position = y * width)
    (hlines : ∀ line ∈ lines, line.length < width) (h : y + lines.length < height) :
    typeLines width height blank s lines =
      ⟨fun i => if y ≤ i / width then (lines.getD (i / width - y) []).getD (i % width) (s.cells i)
        else s.cells i, (y + lines.length) * width⟩ := by
  induction lines generalizing s y with
  | nil =>
    obtain ⟨cells, position⟩ := s
    simp [typeLines, ← hs]
  | cons line lines ih =>
    have hline := hlines line List.mem_cons_self
    rw [List.length_cons] at h
    have hrow : (y + 1) * width < width * height := by
      rw [Nat.mul_comm width]
      exact Nat.mul_lt_mul_of_pos_right (by omega) (by omega)
    have hfit : s.position + line.length < width * height := by
      rw [Nat.add_mul, Nat.one_mul] at hrow
      omega
    have hdiv : (y * width + line.length) / width = y := by
      rw [Nat.mul_comm, Nat.mul_add_div (by omega), Nat.div_eq_of_lt hline, Nat.add_zero]
    have hstep : newline width height blank (typeAll width height blank s line) =
        ⟨(typeAll width height blank s line).cells, (y + 1) * width⟩ := by
      rw [newline, typeAll_eq hfit, hs]
      simp only [hdiv]
      exact settle_of_lt hrow
    rw [typeLines, List.foldl_cons, hstep, ← typeLines,
      ih rfl (fun l hl => hlines l (List.mem_cons_of_mem _ hl)) (by omega), typeAll_eq hfit, hs]
    simp only [TextScreen.mk.injEq, List.length_cons]
    refine ⟨?_, by rw [Nat.add_assoc, Nat.add_comm 1]⟩
    funext i
    have hi := Nat.div_add_mod i width
    have hmod := Nat.mod_lt i (show 0 < width by omega)
    rcases Nat.lt_trichotomy (i / width) y with hlt | rfl | hgt
    · have hup := Nat.mul_le_mul_left width (Nat.succ_le_of_lt hlt)
      rw [Nat.mul_succ, Nat.mul_comm width y] at hup
      rw [if_neg (by omega), if_neg (by omega), if_neg (by omega)]
    · rw [Nat.mul_comm] at hi
      have hsub : i - i / width * width = i % width := by omega
      rw [if_neg (by omega), if_pos (by omega), if_pos (Nat.le_refl _), Nat.sub_self, hsub,
        List.getD_cons_zero]
    · have hup := Nat.mul_le_mul_left width (Nat.succ_le_of_lt hgt)
      rw [Nat.mul_succ, Nat.mul_comm width y] at hup
      have hsub : i / width - y = i / width - (y + 1) + 1 := by omega
      rw [if_pos (Nat.succ_le_of_lt hgt), if_pos (Nat.le_of_lt hgt), if_pos (by omega), hsub,
        List.getD_cons_succ, List.getD_eq_default line _ (by omega)]

end Lines

section Editing

inductive Key (ε : Type*)
  | char (e : ε)
  | erase

def press (width height : ℕ) (blank : ε) (s : TextScreen ε) : Key ε → TextScreen ε
  | .char e => type width height blank s e
  | .erase => backspace blank s

def edit (line : List ε) : Key ε → List ε
  | .char e => line ++ [e]
  | .erase => line.dropLast

def Within (room : ℕ) : ℕ → List (Key ε) → Prop
  | _, [] => True
  | n, .char _ :: keys => n + 1 < room ∧ Within room (n + 1) keys
  | n, .erase :: keys => 0 < n ∧ Within room (n - 1) keys

lemma backspace_typeAll {line : List ε} (hfit : s.position + line.length < width * height)
    (hblank : ∀ i, s.position ≤ i → s.cells i = blank) (hne : line ≠ []) :
    backspace blank (typeAll width height blank s line) =
      typeAll width height blank s line.dropLast := by
  have hpos := List.length_pos_iff.mpr hne
  have hlen : line.dropLast.length = line.length - 1 := List.length_dropLast
  rw [typeAll_eq hfit, typeAll_eq (by omega), backspace]
  simp only [TextScreen.mk.injEq]
  refine ⟨?_, by omega⟩
  funext i
  by_cases hlast : i = s.position + line.length - 1
  · rw [hlast, Function.update_self, if_pos (by omega), List.getD_eq_default _ _ (by omega),
      hblank _ (by omega)]
  · rw [Function.update_of_ne hlast]
    split
    · by_cases hin : i - s.position < line.length - 1
      · rw [List.getD_eq_getElem _ _ (by omega), List.getD_eq_getElem _ _ (by omega),
          List.getElem_dropLast]
      · rw [List.getD_eq_default _ _ (by omega), List.getD_eq_default _ _ (by omega)]
    · rfl

lemma press_edit (hblank : ∀ i, s.position ≤ i → s.cells i = blank) {line : List ε}
    (hfit : s.position + line.length < width * height) {keys : List (Key ε)}
    (hkeys : Within (width * height - s.position) line.length keys) :
    keys.foldl (press width height blank) (typeAll width height blank s line) =
      typeAll width height blank s (keys.foldl edit line) := by
  induction keys generalizing line with
  | nil => rfl
  | cons key keys ih =>
    rw [List.foldl_cons, List.foldl_cons]
    cases key with
    | char e =>
      obtain ⟨hroom, hrest⟩ := hkeys
      have hstep : press width height blank (typeAll width height blank s line) (.char e) =
          typeAll width height blank s (edit line (.char e)) := by
        simp only [press, edit, typeAll, List.foldl_append, List.foldl_cons, List.foldl_nil]
      have hlen : (edit line (.char e)).length = line.length + 1 := List.length_append
      rw [hstep]
      exact ih (by omega) (hlen ▸ hrest)
    | erase =>
      obtain ⟨hpos, hrest⟩ := hkeys
      have hlen : (edit line .erase).length = line.length - 1 := List.length_dropLast
      have hstep : press width height blank (typeAll width height blank s line) .erase =
          typeAll width height blank s (edit line .erase) :=
        backspace_typeAll hfit hblank (List.length_pos_iff.mp hpos)
      rw [hstep]
      exact ih (by omega) (hlen ▸ hrest)

lemma edit_line (hblank : ∀ i, s.position ≤ i → s.cells i = blank)
    (hs : s.position < width * height) {keys : List (Key ε)}
    (hkeys : Within (width * height - s.position) 0 keys) :
    keys.foldl (press width height blank) s = typeAll width height blank s (keys.foldl edit []) :=
  @press_edit ε width height blank s hblank [] hs keys hkeys

end Editing

end TextScreen

end Veni.Lib

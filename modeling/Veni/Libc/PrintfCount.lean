import Mathlib.Data.List.Induction
import Veni.Libc.PrintfRender

/-! The running count of `printf`, one turn of its loop at a time. -/

namespace Veni.Libc

open Veni.Lib.Numerals

structure Loop where
  format : CString
  args : List Arg
  written : ℕ
  out : List UInt8

inductive Turned
  | undefined
  | returned (out : List UInt8) (result : ℤ)
  | next (s : Loop)

/-- The test of `maxrem` where there is one, `print`, and the update of `written`. -/
def Loop.put (s : Loop) (checked : Bool) (chars : List UInt8) (format : CString) (args : List Arg) :
    Turned :=
  if checked && decide (intMax - s.written < chars.length) then .returned s.out (-1)
  else
    match print s.out chars with
    | (out, false) => .returned out (-1)
    | (out, true) => .next ⟨format, args, s.written + chars.length, out⟩

def turn (s : Loop) : Turned :=
  match s.format with
  | [] => .returned s.out s.written
  | c :: rest =>
    if c ≠ percent ∨ rest.head? = some percent then
      let format := if c = percent then rest else c :: rest
      let amount := 1 + (format.tail.takeWhile fun c => !isPercent c).length
      s.put true (bytesOf (format.take amount)) (format.drop amount) s.args
    else
      match conversion rest, s.args with
      | some _, [] => .undefined
      | some (conv, format), arg :: args =>
        match converted conv arg with
        | none => .undefined
        | some chars => s.put conv.checked chars format args
      | none, _ => s.put true (bytesOf (c :: rest)) [] s.args

inductive Reached (format : CString) (args : List Arg) : Loop → Prop
  | start : Reached format args ⟨format, args, 0, []⟩
  | next {s t : Loop} : Reached format args s → s.written ≤ intMax → turn s = .next t → Reached format args t

structure Piece where
  conv : Option Conversion
  text : List UInt8

def texts (ps : List Piece) : List UInt8 := (ps.map Piece.text).flatten

/-- The rendering in pieces, up to the first conversion without a fitting argument. -/
def pieces (format : CString) (args : List Arg) : List Piece :=
  match format with
  | [] => []
  | c :: rest =>
    if c ≠ percent ∨ rest.head? = some percent then
      let s := if c = percent then rest else c :: rest
      ⟨none, bytesOf (s.take 1 ++ s.tail.takeWhile fun c => !isPercent c)⟩ ::
        pieces (s.tail.dropWhile fun c => !isPercent c) args
    else
      match hconv : conversion rest, args with
      | some _, [] => []
      | some (conv, format), arg :: args =>
        match shown conv arg with
        | none => []
        | some text => ⟨some conv, text⟩ :: pieces format args
      | none, _ => [⟨none, bytesOf (c :: rest)⟩]
  termination_by format.length
  decreasing_by
    · apply Nat.lt_of_le_of_lt (List.length_dropWhile_le _ _)
      split
      · rw [List.length_tail, List.length_cons]
        omega
      · exact Nat.lt_succ_self _
    · have := conversion_length hconv
      simp only [List.length_cons]
      omega

/-- The pieces before `p` fit into an `int`, and with `p` they do not. -/
def Crosses (format : CString) (args : List Arg) (ps : List Piece) (p : Piece) (qs : List Piece) : Prop :=
  pieces format args = ps ++ p :: qs ∧ (texts ps).length ≤ intMax ∧
    intMax < (texts ps).length + p.text.length

/-- The count stays an `int`, and a rendering that is too long is cut before the piece that crosses
the limit. -/
structure Counted (format : CString) (args : List Arg) : Prop where
  bounded : ∀ s, Reached format args s → s.written ≤ intMax
  refused : ∀ text, render format args = some text → intMax < text.length →
    ∃ ps p qs, Crosses format args ps p qs ∧ printf format args = some (texts ps, -1)

lemma texts_cons (p : Piece) (ps : List Piece) : texts (p :: ps) = p.text ++ texts ps := rfl

lemma texts_concat (ps : List Piece) (p : Piece) : texts (ps ++ [p]) = texts ps ++ p.text := by
  simp [texts]

lemma put_eq (s : Loop) (checked : Bool) (chars : List UInt8) (format : CString) (args : List Arg) :
    s.put checked chars format args =
      if checked = true ∧ intMax - s.written < chars.length then .returned s.out (-1)
      else .next ⟨format, args, s.written + chars.length, s.out ++ chars⟩ := by
  simp only [Loop.put, print_eq, Bool.and_eq_true, decide_eq_true_eq]

def Turned.run : Turned → Option (List UInt8 × ℤ)
  | .undefined => none
  | .returned out result => some (out, result)
  | .next t => if t.written ≤ intMax then printfLoop t.format t.args t.written t.out else none

lemma emit_run (s : Loop) (checked : Bool) (chars : List UInt8) (format : CString) (args : List Arg) :
    (match emit checked s.written s.out chars with
      | none => none
      | some (out, none) => some (out, -1)
      | some (out, some written) => printfLoop format args written out) =
      (s.put checked chars format args).run := by
  simp only [put_eq, emit, print_eq, Bool.and_eq_true, decide_eq_true_eq]
  by_cases hroom : checked = true ∧ intMax - s.written < chars.length
  · rw [if_pos hroom, if_pos hroom]
    rfl
  · rw [if_neg hroom, if_neg hroom]
    by_cases hmax : s.written + chars.length ≤ intMax
    · simp only [if_pos hmax, Turned.run]
    · simp only [if_neg hmax, Turned.run]

lemma printfLoop_nil (args : List Arg) (written : ℕ) (out : List UInt8) :
    printfLoop [] args written out = some (out, (written : ℤ)) := by
  rw [printfLoop.eq_def]

lemma printfLoop_turn (s : Loop) :
    printfLoop s.format s.args s.written s.out = (turn s).run := by
  obtain ⟨format, args, written, out⟩ := s
  cases format with
  | nil => exact printfLoop_nil args written out
  | cons c rest =>
    rw [printfLoop.eq_def, turn.eq_def]
    by_cases hc : c ≠ percent ∨ rest.head? = some percent
    · simp only [if_pos hc]
      exact emit_run ⟨c :: rest, args, written, out⟩ true _ _ args
    · simp only [if_neg hc]
      split
      · rename_i hconv
        simp only [hconv]
        rfl
      · rename_i conv format arg args hconv
        simp only [hconv]
        cases converted conv arg with
        | none => rfl
        | some chars => exact emit_run ⟨c :: rest, arg :: args, written, out⟩ conv.checked chars format args
      · rename_i args _ hconv
        have hrun := emit_run ⟨c :: rest, args, written, out⟩ true (bytesOf (c :: rest)) [] args
        simp only [printfLoop_nil] at hrun
        simp only [hconv]
        exact hrun

def Piece.checked (p : Piece) : Bool := p.conv.all Conversion.checked

lemma pieces_chunk {c : CChar} {rest : CString} (hc : c ≠ percent ∨ rest.head? = some percent)
    (args : List Arg) :
    ∃ d s, (if c = percent then rest else c :: rest) = d :: s ∧
      pieces (c :: rest) args =
        ⟨none, bytesOf (d :: s.takeWhile fun c => !isPercent c)⟩ ::
          pieces (s.dropWhile fun c => !isPercent c) args := by
  obtain ⟨d, s, hd, _⟩ := chunk_start hc
  refine ⟨d, s, hd, ?_⟩
  rw [pieces.eq_def]
  simp only [if_pos hc, hd]
  rfl

lemma turn_piece (s : Loop) :
    (∃ p format args, pieces s.format s.args = p :: pieces format args ∧
      turn s = s.put p.checked p.text format args) ∨
    (pieces s.format s.args = [] ∧ ∀ t, turn s ≠ .next t) := by
  obtain ⟨format, args, written, out⟩ := s
  cases format with
  | nil =>
    refine Or.inr ⟨by rw [pieces.eq_def], fun t ht => ?_⟩
    cases ht
  | cons c rest =>
    by_cases hc : c ≠ percent ∨ rest.head? = some percent
    · obtain ⟨d, s, hd, hpieces⟩ := pieces_chunk hc args
      obtain ⟨htake, hdrop⟩ := take_chunk d s
      refine Or.inl ⟨_, _, args, hpieces, ?_⟩
      simp only [turn, if_pos hc, hd, List.tail_cons, htake, hdrop]
      rfl
    · rw [pieces.eq_def]
      simp only [turn, if_neg hc]
      cases hconv : conversion rest with
      | none =>
        refine Or.inl ⟨⟨none, bytesOf (c :: rest)⟩, [], args, ?_, ?_⟩
        · rw [pieces.eq_def []]
        · cases args <;> rfl
      | some next =>
        cases args with
        | nil => exact Or.inr ⟨rfl, fun t ht => by cases ht⟩
        | cons arg args =>
          simp only [converted_eq]
          cases shown next.1 arg with
          | none => exact Or.inr ⟨rfl, fun t ht => by cases ht⟩
          | some text => exact Or.inl ⟨_, next.2, args, rfl, rfl⟩

lemma reached_split {format : CString} {args : List Arg} {s : Loop} (h : Reached format args s) :
    ∃ ps, pieces format args = ps ++ pieces s.format s.args ∧ s.written = (texts ps).length ∧
      s.out = texts ps := by
  induction h with
  | start => exact ⟨[], rfl, rfl, rfl⟩
  | @next s t _ _ hturn ih =>
    obtain ⟨ps, hsplit, hwritten, hout⟩ := ih
    rcases turn_piece s with ⟨p, format', args', hpieces, hput⟩ | ⟨_, hno⟩
    · rw [hput, put_eq] at hturn
      split at hturn
      · cases hturn
      · cases hturn
        refine ⟨ps ++ [p], ?_, ?_, ?_⟩
        · rw [hsplit, hpieces, List.append_assoc, List.singleton_append]
        · rw [texts_concat, List.length_append, hwritten]
        · rw [texts_concat, hout]
    · exact absurd hturn (hno t)

lemma reached_pieces {format : CString} {args : List Arg} {ps qs : List Piece}
    (h : pieces format args = ps ++ qs) (hle : (texts ps).length ≤ intMax) :
    ∃ s, Reached format args s ∧ pieces s.format s.args = qs ∧ s.written = (texts ps).length := by
  induction ps using List.reverseRecOn generalizing qs with
  | nil => exact ⟨_, .start, h, rfl⟩
  | append_singleton ps p ih =>
    rw [texts_concat, List.length_append] at hle
    rw [List.append_assoc, List.singleton_append] at h
    obtain ⟨s, hs, hpieces, hwritten⟩ := ih h (by omega)
    rcases turn_piece s with ⟨p', format', args', hp, hput⟩ | ⟨hnil, _⟩
    · rw [hpieces] at hp
      obtain ⟨rfl, rfl⟩ := List.cons.inj hp
      rw [put_eq, if_neg (by omega)] at hput
      refine ⟨_, .next hs (by omega) hput, rfl, ?_⟩
      simp only [texts_concat, List.length_append, hwritten]
    · rw [hpieces] at hnil
      cases hnil

lemma printfLoop_refuses {s : Loop} {ps qs : List Piece} {p : Piece}
    (h : pieces s.format s.args = ps ++ p :: qs) (hle : s.written + (texts ps).length ≤ intMax)
    (hlt : intMax < s.written + (texts ps).length + p.text.length) (hp : p.checked = true) :
    printfLoop s.format s.args s.written s.out = some (s.out ++ texts ps, -1) := by
  induction ps generalizing s with
  | nil =>
    have hzero : (texts []).length = 0 := rfl
    rcases turn_piece s with ⟨p', format, args, hpieces, hput⟩ | ⟨hnil, _⟩
    · rw [hpieces] at h
      obtain ⟨rfl, _⟩ := List.cons.inj h
      rw [put_eq, if_pos ⟨hp, by omega⟩] at hput
      rw [printfLoop_turn, hput, Turned.run, texts, List.map_nil, List.flatten_nil, List.append_nil]
    · rw [hnil] at h
      cases h
  | cons q ps ih =>
    rw [texts_cons, List.length_append] at hle hlt
    rcases turn_piece s with ⟨p', format, args, hpieces, hput⟩ | ⟨hnil, _⟩
    · rw [hpieces] at h
      obtain ⟨rfl, hrest⟩ := List.cons.inj h
      rw [put_eq, if_neg (by omega)] at hput
      have hih := ih (s := ⟨format, args, s.written + p'.text.length, s.out ++ p'.text⟩) hrest
        (by simp only; omega) (by simp only; omega)
      rw [printfLoop_turn, hput, Turned.run, if_pos (by simp only; omega), hih, texts_cons,
        List.append_assoc]
    · rw [hnil] at h
      cases h

lemma texts_pieces {format : CString} {args : List Arg} {text : List UInt8}
    (h : render format args = some text) : texts (pieces format args) = text := by
  induction hn : format.length using Nat.strongRecOn generalizing format args text with
  | _ n ih =>
    cases format with
    | nil =>
      cases h
      rw [pieces.eq_def]
      rfl
    | cons c rest =>
      rw [List.length_cons] at hn
      by_cases hc : c ≠ percent ∨ rest.head? = some percent
      · obtain ⟨d, s, hd, hpieces⟩ := pieces_chunk hc args
        obtain ⟨d', s', hd', hle, hrender⟩ := chunk_start hc
        obtain ⟨rfl, rfl⟩ := List.cons.inj (hd.symm.trans hd')
        rw [hrender, render_chunk s args, Option.map_map] at h
        obtain ⟨tail, htail, rfl⟩ := Option.map_eq_some_iff.mp h
        have hshort := List.length_dropWhile_le (fun c => !isPercent c) s
        rw [hpieces, texts_cons, ih _ (by omega) htail rfl]
        rfl
      · have hp : c = percent := not_not.mp fun h => hc (.inl h)
        subst hp
        rw [render_directive fun h => hc (.inr h)] at h
        rw [pieces.eq_def]
        simp only [if_neg hc]
        split
        · rename_i hconv
          rw [hconv] at h
          cases h
        · rename_i conv format arg args hconv
          rw [hconv] at h
          obtain ⟨arg', s, tail, hargs, hs, htail, rfl⟩ := consume_some h
          cases hargs
          have hshort := conversion_length hconv
          rw [hs]
          exact congrArg (s ++ ·) (ih _ (by omega) htail rfl)
        · rename_i hconv
          rw [hconv] at h
          cases h
          simp [texts]

lemma exists_crossing (ps : List Piece) (h : intMax < (texts ps).length) :
    ∃ as p bs, ps = as ++ p :: bs ∧ (texts as).length ≤ intMax ∧
      intMax < (texts as).length + p.text.length := by
  induction ps using List.reverseRecOn with
  | nil => exact absurd h (Nat.not_lt_zero _)
  | append_singleton ps p ih =>
    by_cases hps : intMax < (texts ps).length
    · obtain ⟨as, q, bs, rfl, hle, hlt⟩ := ih hps
      exact ⟨as, q, bs ++ [p], by simp, hle, hlt⟩
    · rw [texts_concat, List.length_append] at h
      exact ⟨ps, p, [], rfl, Nat.le_of_not_lt hps, h⟩

lemma checked_iff (p : Piece) : p.checked = true ↔ p.conv ≠ some .p ∧ p.conv ≠ some .zu := by
  obtain ⟨conv, text⟩ := p
  cases conv with
  | none => simp [Piece.checked]
  | some conv => cases conv <;> simp [Piece.checked, Conversion.checked]

lemma not_counted {format : CString} {args : List Arg} {ps qs : List Piece} {p : Piece}
    (h : Crosses format args ps p qs) (hp : p.checked = false) : ¬ Counted format args := by
  intro hcounted
  obtain ⟨hsplit, hle, hlt⟩ := h
  obtain ⟨s, hs, hpieces, hwritten⟩ := reached_pieces hsplit hle
  rcases turn_piece s with ⟨q, format', args', hq, hput⟩ | ⟨hnil, _⟩
  · rw [hpieces] at hq
    obtain ⟨rfl, _⟩ := List.cons.inj hq
    rw [put_eq, if_neg (by simp [hp])] at hput
    have hbound := hcounted.bounded _ (.next hs (by omega) hput)
    simp only [hwritten] at hbound
    omega
  · rw [hpieces] at hnil
    cases hnil

/-- The count of `printf` stays an `int`, and a rendering above `INT_MAX` is cut before the piece that
crosses the limit, unless that piece is the text of a `%p` or a `%zu`. -/
theorem printf_counted_iff (format : CString) (args : List Arg) :
    Counted format args ↔
      ∀ ps p qs, Crosses format args ps p qs → p.conv ≠ some .p ∧ p.conv ≠ some .zu := by
  constructor
  · intro h ps p qs hcross
    rw [← checked_iff]
    by_contra hp
    exact not_counted hcross (Bool.not_eq_true _ ▸ hp) h
  · intro h
    constructor
    · intro s hs
      cases hs with
      | start => exact Nat.zero_le _
      | @next s t hs hle hturn =>
        obtain ⟨ps, hsplit, hwritten, _⟩ := reached_split hs
        rcases turn_piece s with ⟨p, format', args', hpieces, hput⟩ | ⟨_, hno⟩
        · rw [hput, put_eq] at hturn
          split at hturn
          · cases hturn
          · rename_i hroom
            cases hturn
            by_contra hlt
            rw [hpieces] at hsplit
            have hcross : Crosses format args ps p (pieces format' args') := by
              refine ⟨hsplit, by omega, ?_⟩
              simp only at hlt
              omega
            exact hroom ⟨(checked_iff p).mpr (h _ _ _ hcross), by simp only at hlt; omega⟩
        · exact absurd hturn (hno _)
    · intro text htext hlong
      rw [← texts_pieces htext] at hlong
      obtain ⟨ps, p, qs, hsplit, hle, hlt⟩ := exists_crossing _ hlong
      have hcross : Crosses format args ps p qs := ⟨hsplit, hle, hlt⟩
      refine ⟨ps, p, qs, hcross, ?_⟩
      have hrefuses := printfLoop_refuses (s := ⟨format, args, 0, []⟩) hsplit
        (by simpa using hle) (by simpa using hlt) ((checked_iff p).mpr (h ps p qs hcross))
      exact hrefuses

def manyStrings (k : ℕ) (format : CString) : CString := (List.replicate k (cstring "%s")).flatten ++ format

lemma pieces_conversion {rest format : CString} {conv : Conversion} (hp : rest.head? ≠ some percent)
    (hconv : conversion rest = some (conv, format)) {arg : Arg} {text : List UInt8}
    (hs : shown conv arg = some text) (args : List Arg) :
    pieces (percent :: rest) (arg :: args) = ⟨some conv, text⟩ :: pieces format args := by
  rw [pieces.eq_def]
  simp only
  rw [if_neg (by simp [hp])]
  split
  · rename_i hargs
    cases hargs
  · rename_i conv' format' arg' args' hconv' hargs
    cases hargs
    cases hconv.symm.trans hconv'
    rw [hs]
  · rename_i hnone
    rw [hconv] at hnone
    cases hnone

lemma pieces_manyStrings (k : ℕ) (str format : CString) (args : List Arg) :
    pieces (manyStrings k format) (List.replicate k (.str str) ++ args) =
      List.replicate k ⟨some .s, bytesOf str⟩ ++ pieces format args := by
  induction k with
  | zero => rfl
  | succ k ih =>
    have hformat : manyStrings (k + 1) format =
        percent :: ⟨115, by decide⟩ :: manyStrings k format := rfl
    rw [hformat, List.replicate_succ, List.cons_append, List.replicate_succ, List.cons_append, ← ih]
    exact pieces_conversion (by simp [percent]) rfl rfl _

lemma length_texts_replicate (k : ℕ) (p : Piece) :
    (texts (List.replicate k p)).length = k * p.text.length := by
  simp [texts]

lemma not_counted_manyStrings (k n : ℕ) (c : CChar) (hle : k * n ≤ intMax) (hlt : intMax < k * n + 10) :
    ¬ Counted (manyStrings k (cstring "%p"))
      (List.replicate k (.str (List.replicate n c)) ++ [.ptr 0]) := by
  have hpieces := pieces_manyStrings k (List.replicate n c) (cstring "%p") [.ptr 0]
  have hptr : pieces (cstring "%p") [.ptr 0] =
      ⟨some .p, byte '0' :: byte 'x' :: hexadecimal 8 0⟩ :: pieces [] [] :=
    pieces_conversion (by decide) rfl rfl []
  have hlen : (texts (List.replicate k ⟨some .s, bytesOf (List.replicate n c)⟩)).length = k * n := by
    simp [length_texts_replicate, bytesOf]
  rw [hptr] at hpieces
  apply not_counted ⟨hpieces, ?_, ?_⟩ rfl
  · rw [hlen]
    exact hle
  · rw [hlen]
    exact hlt

/-- `%p` behind 1386 strings of 1549411 characters, which are `INT_MAX - 1` characters together. -/
theorem printf_count_overflows :
    ¬ Counted (manyStrings 1386 (cstring "%p"))
      (List.replicate 1386 (.str (List.replicate 1549411 slash)) ++ [.ptr 0]) :=
  not_counted_manyStrings 1386 1549411 slash (by decide) (by decide)

end Veni.Libc

import Veni.Libc.Printf

/-! `printf` prints the rendering of its format. -/

namespace Veni.Libc

open Veni.Lib.Numerals

def shown : Conversion → Arg → Option (List UInt8)
  | .c, .int num => some [UInt8.ofBitVec (num.setWidth 8)]
  | .s, .str s => some (bytesOf s)
  | .d, .int num => if num.toInt = -2 ^ 31 then none else some (signedDecimal num.toInt)
  | .p, .ptr ptr => some (byte '0' :: byte 'x' :: hexadecimal 8 ptr.toNat)
  | .zu, .size num => some (decimal num.toNat)
  | _, _ => none

def consume (conv : Conversion) (args : List Arg) (text : Option (List UInt8)) : Option (List UInt8) :=
  match args with
  | [] => none
  | arg :: _ =>
    match shown conv arg, text with
    | some s, some text => some (s ++ text)
    | _, _ => none

/-- The reference rendering, from left to right; `none` when the arguments do not match. -/
def render : CString → List Arg → Option (List UInt8)
  | [], _ => some []
  | [c], _ => some [c.val]
  | c :: d :: rest, args =>
    if c.val ≠ byte '%' then (render (d :: rest) args).map (c.val :: ·)
    else if d.val = byte '%' then (render rest args).map (byte '%' :: ·)
    else if d.val = byte 'c' then consume .c args (render rest args.tail)
    else if d.val = byte 's' then consume .s args (render rest args.tail)
    else if d.val = byte 'd' then consume .d args (render rest args.tail)
    else if d.val = byte 'p' then consume .p args (render rest args.tail)
    else if d.val = byte 'z' then
      match rest with
      | [] => some (bytesOf (c :: d :: rest))
      | u :: rest' =>
        if u.val = byte 'u' then consume .zu args (render rest' args.tail) else some (bytesOf (c :: d :: rest))
    else some (bytesOf (c :: d :: rest))
  termination_by structural s => s

variable {format rest : CString} {args : List Arg} {c : CChar}

lemma percent_val : c.val = byte '%' ↔ c = percent := by
  constructor
  · exact fun h => Subtype.ext h
  · rintro rfl
    rfl

lemma render_ordinary (hc : c ≠ percent) (rest : CString) (args : List Arg) :
    render (c :: rest) args = (render rest args).map (c.val :: ·) := by
  cases rest with
  | nil => rfl
  | cons d rest =>
    rw [render.eq_def]
    exact if_pos fun h => hc (percent_val.mp h)

lemma render_percent (rest : CString) (args : List Arg) :
    render (percent :: percent :: rest) args = (render rest args).map (byte '%' :: ·) := by
  rw [render.eq_def]
  exact (if_neg fun h => h rfl).trans (if_pos rfl)

lemma render_directive (hp : rest.head? ≠ some percent) (args : List Arg) :
    render (percent :: rest) args =
      match conversion rest with
      | some (conv, format) => consume conv args (render format args.tail)
      | none => some (bytesOf (percent :: rest)) := by
  cases rest with
  | nil => rfl
  | cons d rest =>
    have hd : d.val ≠ byte '%' := by
      intro hd
      rw [percent_val.mp hd] at hp
      exact hp rfl
    have hpercent : ¬ percent.val ≠ byte '%' := fun h => h rfl
    rw [render.eq_def, conversion.eq_def]
    simp only
    rw [if_neg hpercent, if_neg hd]
    by_cases hc : d.val = byte 'c'
    · rw [if_pos hc, if_pos hc]
    · rw [if_neg hc, if_neg hc]
      by_cases hs : d.val = byte 's'
      · rw [if_pos hs, if_pos hs]
      · rw [if_neg hs, if_neg hs]
        by_cases hdd : d.val = byte 'd'
        · rw [if_pos hdd, if_pos hdd]
        · rw [if_neg hdd, if_neg hdd]
          by_cases hpp : d.val = byte 'p'
          · rw [if_pos hpp, if_pos hpp]
          · rw [if_neg hpp, if_neg hpp]
            by_cases hz : d.val = byte 'z'
            · rw [if_pos hz, if_pos hz]
              cases rest with
              | nil => rfl
              | cons u rest =>
                by_cases hu : u.val = byte 'u'
                · simp only [if_pos hu]
                · simp only [if_neg hu]
            · rw [if_neg hz, if_neg hz]

lemma render_chunk (s : CString) (args : List Arg) :
    render s args =
      (render (s.dropWhile fun c => !isPercent c) args).map
        (bytesOf (s.takeWhile fun c => !isPercent c) ++ ·) := by
  induction s with
  | nil => rfl
  | cons c s ih =>
    by_cases hc : c = percent
    · have hp : isPercent c = true := decide_eq_true hc
      simp [hp, bytesOf]
    · have hp : isPercent c = false := decide_eq_false hc
      rw [render_ordinary hc, ih, Option.map_map]
      simp only [hp, Bool.not_false, List.takeWhile_cons_of_pos, List.dropWhile_cons_of_pos]
      rfl

lemma print_eq (out chars : List UInt8) : print out chars = (out ++ chars, true) := by
  induction chars generalizing out with
  | nil => simp [print]
  | cons b chars ih =>
    have hbyte : UInt8.ofBitVec (BitVec.ofInt 8 (b.toNat : ℤ)) = b := by
      rw [BitVec.ofInt_natCast]
      simp
    have hne : ¬ (b.toNat : ℤ) = eof := by
      rw [eof]
      omega
    rw [print, putchar]
    simp only [hne, if_false, hbyte]
    rw [ih, List.append_assoc, List.singleton_append]

lemma emit_eq {written : ℕ} {chars : List UInt8} (h : written + chars.length ≤ intMax) (checked : Bool)
    (out : List UInt8) :
    emit checked written out chars = some (out ++ chars, some (written + chars.length)) := by
  have hroom : ¬ intMax - written < chars.length := by omega
  rw [emit, print_eq]
  simp only [hroom, decide_false, Bool.and_false, Bool.false_eq_true, if_false, if_pos h]

lemma putDigits_eq {room n : ℕ} (h : (decimal n).length ≤ room) (p : List UInt8) :
    putDigits room n p = some (room - (decimal n).length, decimal n ++ p) := by
  induction room generalizing n p with
  | zero => exact absurd (decimal_length_pos n) (by omega)
  | succ room ih =>
    have he := decimal_eq n
    rw [putDigits]
    by_cases hn : n / 10 > 0
    · rw [if_pos hn] at he
      have hlen := congrArg List.length he
      rw [List.length_append, List.length_singleton] at hlen
      rw [if_pos hn, ih (by omega), he, List.append_assoc, List.singleton_append, List.length_append,
        List.length_singleton, Nat.add_sub_add_right]
    · rw [if_neg hn] at he
      rw [if_neg hn, he]
      rfl

lemma decimal_length_word {n : ℕ} (h : n < 2 ^ 32) : (decimal n).length ≤ 10 :=
  decimal_length_le (Nat.lt_trans h (by decide))

lemma putPointer_eq (ptr : BitVec 32) :
    putPointer ptr = byte '0' :: byte 'x' :: hexadecimal 8 ptr.toNat := by
  have hdigit : ∀ k, UInt8.ofNat
      (if (ptr >>> (k * 4) &&& 0xF#32).toNat < 10 then 48 + (ptr >>> (k * 4) &&& 0xF#32).toNat
        else 97 + ((ptr >>> (k * 4) &&& 0xF#32).toNat - 10)) =
      byte (Nat.digitChar (ptr.toNat / 16 ^ k % 16)) := by
    intro k
    have hnibble : (ptr >>> (k * 4) &&& 0xF#32).toNat = ptr.toNat / 16 ^ k % 16 := by
      have hpow : (2 : ℕ) ^ (k * 4) = 16 ^ k := by rw [Nat.mul_comm, Nat.pow_mul]
      rw [BitVec.toNat_and, BitVec.toNat_ushiftRight, Nat.shiftRight_eq_div_pow, hpow]
      exact Nat.and_two_pow_sub_one_eq_mod _ 4
    rw [hnibble, byte_hexChar _ (Nat.mod_lt _ (by decide))]
  simp only [putPointer, hexadecimal, List.range_succ, List.range_zero, List.nil_append, List.foldl_append,
    List.foldl_cons, List.foldl_nil, List.map_append, List.map_cons, List.map_nil, hdigit]
  rfl

lemma converted_eq (conv : Conversion) (arg : Arg) : converted conv arg = shown conv arg := by
  cases conv <;> cases arg <;> try rfl
  · rename_i num
    have hnum := num.isLt
    have hint := BitVec.toInt_eq_toNat_cond num
    simp only [converted, shown, putSigned, signedDecimal]
    by_cases hneg : num.toInt < 0
    · rw [if_pos hneg, if_pos hneg]
      by_cases hmin : num.toInt = -2 ^ 31
      · rw [if_pos hmin, if_pos hmin]
      · have habs : (-num.toInt).toNat = num.toInt.natAbs := by omega
        have hlen : (decimal num.toInt.natAbs).length ≤ 10 := decimal_length_word (by omega)
        have hroom : 31 - (decimal num.toInt.natAbs).length = 30 - (decimal num.toInt.natAbs).length + 1 := by
          omega
        rw [if_neg hmin, if_neg hmin, habs, putDigits_eq (by omega), hroom]
        simp only [List.append_nil]
    · have habs : num.toInt.toNat = num.toInt.natAbs := by omega
      have hlen : (decimal num.toInt.natAbs).length ≤ 10 := decimal_length_word (by omega)
      rw [if_neg hneg, if_neg hneg, if_neg (by omega), habs, putDigits_eq (by omega), List.append_nil]
      rfl
  · rename_i ptr
    simp only [converted, shown, putPointer_eq]
  · rename_i num
    have hlen := decimal_length_word num.isLt
    simp only [converted, shown, putSize]
    rw [putDigits_eq (by omega), List.append_nil]
    rfl

lemma consume_some {conv : Conversion} {text : List UInt8} {tail : Option (List UInt8)}
    (h : consume conv args tail = some text) :
    ∃ arg s rest, args = arg :: args.tail ∧ shown conv arg = some s ∧ tail = some rest ∧ text = s ++ rest := by
  cases args with
  | nil => cases h
  | cons arg args =>
    simp only [consume] at h
    cases hs : shown conv arg with
    | none => simp [hs] at h
    | some s =>
      cases ht : tail with
      | none => simp [hs, ht] at h
      | some rest =>
        simp only [hs, ht, Option.some.injEq] at h
        exact ⟨arg, s, rest, rfl, hs, rfl, h.symm⟩

lemma take_chunk (d : CChar) (s : CString) :
    (d :: s).take (1 + (s.takeWhile fun c => !isPercent c).length) =
        d :: s.takeWhile (fun c => !isPercent c) ∧
      (d :: s).drop (1 + (s.takeWhile fun c => !isPercent c).length) =
        s.dropWhile (fun c => !isPercent c) := by
  have htake : s.take (s.takeWhile fun c => !isPercent c).length = s.takeWhile fun c => !isPercent c :=
    (List.prefix_iff_eq_take.mp (List.takeWhile_prefix _)).symm
  rw [Nat.add_comm, List.take_succ_cons, List.drop_succ_cons, htake]
  refine ⟨rfl, ?_⟩
  have hall := List.take_append_drop (s.takeWhile fun c => !isPercent c).length s
  have hsplit : (s.takeWhile fun c => !isPercent c) ++ (s.dropWhile fun c => !isPercent c) = s :=
    List.takeWhile_append_dropWhile
  rw [htake] at hall
  exact List.append_cancel_left (hall.trans hsplit.symm)

lemma chunk_start (hc : c ≠ percent ∨ rest.head? = some percent) :
    ∃ d s, (if c = percent then rest else c :: rest) = d :: s ∧ s.length ≤ rest.length ∧
      ∀ args, render (c :: rest) args = (render s args).map (d.val :: ·) := by
  by_cases he : c = percent
  · obtain ⟨s, rfl⟩ := List.head?_eq_some_iff.mp (hc.resolve_left fun h => h he)
    subst he
    exact ⟨percent, s, if_pos rfl, Nat.le_succ _, render_percent s⟩
  · exact ⟨c, rest, if_neg he, Nat.le_refl _, render_ordinary he rest⟩

lemma printfLoop_chunk (hc : c ≠ percent ∨ rest.head? = some percent) (args : List Arg) {text : List UInt8}
    (hr : render (c :: rest) args = some text) {written : ℕ} (hlen : written + text.length ≤ intMax)
    (out : List UInt8) :
    ∃ chars tail s, text = chars ++ tail ∧ s.length ≤ rest.length ∧ render s args = some tail ∧
      printfLoop (c :: rest) args written out =
        printfLoop s args (written + chars.length) (out ++ chars) := by
  obtain ⟨d, s, hd, hle, hrender⟩ := chunk_start hc
  obtain ⟨htake, hdrop⟩ := take_chunk d s
  rw [hrender, render_chunk s args, Option.map_map] at hr
  obtain ⟨tail, htail, rfl⟩ := Option.map_eq_some_iff.mp hr
  refine ⟨bytesOf (d :: s.takeWhile fun c => !isPercent c), tail, s.dropWhile fun c => !isPercent c, rfl,
    ?_, htail, ?_⟩
  · exact Nat.le_trans (List.length_dropWhile_le _ s) hle
  · have hroom : written + (bytesOf (d :: s.takeWhile fun c => !isPercent c)).length ≤ intMax := by
      simp only [Function.comp_apply, List.length_cons, List.length_append] at hlen
      simp only [bytesOf, List.map_cons, List.length_cons, List.length_map] at hlen ⊢
      omega
    rw [printfLoop.eq_def]
    simp only
    rw [if_pos hc, hd, List.tail_cons, htake, hdrop, emit_eq hroom]

lemma printfLoop_conversion (hc : ¬ (c ≠ percent ∨ rest.head? = some percent)) {conv : Conversion}
    (hconv : conversion rest = some (conv, format)) {arg : Arg} {chars : List UInt8}
    (hs : converted conv arg = some chars) {written : ℕ} (hlen : written + chars.length ≤ intMax)
    (args : List Arg) (out : List UInt8) :
    printfLoop (c :: rest) (arg :: args) written out =
      printfLoop format args (written + chars.length) (out ++ chars) := by
  rw [printfLoop.eq_def]
  simp only
  rw [if_neg hc]
  split
  · rename_i hargs
    cases hargs
  · rename_i conv' format' arg' args' hconv' hargs
    cases hargs
    cases hconv.symm.trans hconv'
    simp only [hs, emit_eq hlen]
  · rename_i hnone
    rw [hconv] at hnone
    cases hnone

lemma printfLoop_verbatim (hc : ¬ (c ≠ percent ∨ rest.head? = some percent))
    (hconv : conversion rest = none) {written : ℕ}
    (hlen : written + (bytesOf (c :: rest)).length ≤ intMax) (args : List Arg) (out : List UInt8) :
    printfLoop (c :: rest) args written out =
      some (out ++ bytesOf (c :: rest), ((written + (bytesOf (c :: rest)).length : ℕ) : ℤ)) := by
  rw [printfLoop.eq_def]
  simp only
  rw [if_neg hc]
  split
  · rename_i hsome
    rw [hconv] at hsome
    cases hsome
  · rename_i hsome
    rw [hconv] at hsome
    cases hsome
  · rw [emit_eq hlen]

lemma printfLoop_render {text : List UInt8} (hr : render format args = some text) {written : ℕ}
    (hlen : written + text.length ≤ intMax) (out : List UInt8) :
    printfLoop format args written out = some (out ++ text, ((written + text.length : ℕ) : ℤ)) := by
  induction hn : format.length using Nat.strongRecOn generalizing format args text written out with
  | _ n ih =>
    cases format with
    | nil =>
      cases hr
      rw [printfLoop.eq_def]
      simp
    | cons c rest =>
      rw [List.length_cons] at hn
      by_cases hc : c ≠ percent ∨ rest.head? = some percent
      · obtain ⟨chars, tail, s, rfl, hle, htail, hstep⟩ := printfLoop_chunk hc args hr hlen out
        rw [List.length_append] at hlen
        rw [hstep, ih s.length (by omega) htail (by omega) _ rfl, List.append_assoc, List.length_append,
          Nat.add_assoc]
      · have hp : c = percent := not_not.mp fun h => hc (.inl h)
        have hnext : rest.head? ≠ some percent := fun h => hc (.inr h)
        subst hp
        rw [render_directive hnext] at hr
        cases hconv : conversion rest with
        | none =>
          rw [hconv] at hr
          cases hr
          exact printfLoop_verbatim hc hconv hlen args out
        | some next =>
          obtain ⟨conv, format⟩ := next
          rw [hconv] at hr
          obtain ⟨arg, s, tail, hargs, hs, htail, rfl⟩ := consume_some hr
          have hshort := conversion_length hconv
          rw [List.length_append] at hlen
          rw [hargs, printfLoop_conversion hc hconv ((converted_eq conv arg).trans hs) (by omega),
            ih format.length (by omega) htail (by omega) _ rfl, List.append_assoc, List.length_append,
            Nat.add_assoc]

/-- `printf` passes the rendering of its format to `putchar` and returns its length. -/
theorem printf_render {text : List UInt8} (hr : render format args = some text)
    (hlen : text.length ≤ intMax) : printf format args = some (text, (text.length : ℤ)) := by
  have h : printfLoop format args 0 [] = some ([] ++ text, ((0 + text.length : ℕ) : ℤ)) :=
    printfLoop_render hr (by omega) []
  rw [List.nil_append, Nat.zero_add] at h
  exact h

theorem printf_render_mixed :
    printf (cstring "%%%d %c%s %p %z") [.int (-42), .int 0x41, .str (cstring "bc"), .ptr 0xB8000] =
      some (bytesOf (cstring "%-42 Abc 0x000b8000 %z"), 22) := by
  have hr : render (cstring "%%%d %c%s %p %z")
      [.int (-42), .int 0x41, .str (cstring "bc"), .ptr 0xB8000] =
      some (bytesOf (cstring "%-42 Abc 0x000b8000 %z")) := by decide +kernel
  exact printf_render hr (by decide)

end Veni.Libc

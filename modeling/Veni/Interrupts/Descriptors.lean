import Veni.Interrupts.IrqReturn
import Veni.Lib.Segments

/-! The segments of `arch/i386/gdt.c`, and the gates of `arch/i386/interrupts/idt.c` on top of them. -/

namespace Veni.Interrupts

open Veni.Lib

structure GdtEntry where
  limitLow : BitVec 16
  baseLow : BitVec 16
  baseMiddle : BitVec 8
  access : BitVec 8
  granularity : BitVec 8
  baseHigh : BitVec 8

def gdtPresent : BitVec 8 := 0x80

def gdtRing0 : BitVec 8 := 0x00

def gdtCodeData : BitVec 8 := 0x10

def gdtExecutable : BitVec 8 := 0x08

def gdtRw : BitVec 8 := 0x02

def gdt4kGran : BitVec 8 := 0x80

def gdt32bit : BitVec 8 := 0x40

def gdtSetGate (gdt : ℕ → GdtEntry) (num : ℕ) (base limit : BitVec 32) (access gran : BitVec 8) :
    ℕ → GdtEntry :=
  Function.update gdt num
    { baseLow := (base &&& 0xFFFF#32).setWidth 16
      baseMiddle := ((base >>> 16) &&& 0xFF#32).setWidth 8
      baseHigh := ((base >>> 24) &&& 0xFF#32).setWidth 8
      limitLow := (limit &&& 0xFFFF#32).setWidth 16
      granularity := ((limit >>> 16) &&& 0x0F#32).setWidth 8 ||| (gran &&& 0xF0#8)
      access := access }

/-- The bytes of the packed entry, the first field lowest. -/
def GdtEntry.word (e : GdtEntry) : BitVec 64 :=
  e.baseHigh ++ e.granularity ++ e.access ++ e.baseMiddle ++ e.baseLow ++ e.limitLow

def IdtEntry.word (e : IdtEntry) : BitVec 64 :=
  e.isrHigh ++ e.attributes ++ e.reserved ++ e.kernelCs ++ e.isrLow

def gdtEntries (gdt : ℕ → GdtEntry) : ℕ → GdtEntry :=
  let gdt := gdtSetGate gdt 0 0#32 0#32 0#8 0#8
  let gdt := gdtSetGate gdt 1 0#32 0xFFFFFFFF#32
    (gdtPresent ||| gdtRing0 ||| gdtCodeData ||| gdtExecutable ||| gdtRw) (gdt4kGran ||| gdt32bit)
  gdtSetGate gdt 2 0#32 0xFFFFFFFF#32 (gdtPresent ||| gdtRing0 ||| gdtCodeData ||| gdtRw)
    (gdt4kGran ||| gdt32bit)

def gdtInit (gdt : ℕ → GdtEntry) : DescriptorTable := ⟨8 * 3 - 1, fun i => (gdtEntries gdt i).word⟩

def idtTable (image : Image) (idt : ℕ → IdtEntry) : DescriptorTable :=
  ⟨8 * 256 - 1, fun i => (idtInit image idt i).word⟩

lemma setWidth_shift_mask {w : ℕ} (x mask : BitVec 32) (start : ℕ)
    (hmask : ∀ i < w, mask.getLsbD i = true) :
    ((x >>> start) &&& mask).setWidth w = x.extractLsb' start w := by
  apply BitVec.eq_of_getLsbD_eq
  intro i hi
  simp only [BitVec.getLsbD_setWidth, BitVec.getLsbD_and, BitVec.getLsbD_ushiftRight,
    BitVec.getLsbD_extractLsb', hmask i hi, Bool.and_true]

lemma getLsbD_gdtWord (e : GdtEntry) (i : ℕ) : e.word.getLsbD i =
    if i < 16 then e.limitLow.getLsbD i
    else if i < 32 then e.baseLow.getLsbD (i - 16)
    else if i < 40 then e.baseMiddle.getLsbD (i - 32)
    else if i < 48 then e.access.getLsbD (i - 40)
    else if i < 56 then e.granularity.getLsbD (i - 48)
    else e.baseHigh.getLsbD (i - 56) := by
  unfold GdtEntry.word
  simp only [BitVec.getLsbD_append, Nat.sub_sub]
  grind

lemma getLsbD_idtWord (e : IdtEntry) (i : ℕ) : e.word.getLsbD i =
    if i < 16 then e.isrLow.getLsbD i
    else if i < 32 then e.kernelCs.getLsbD (i - 16)
    else if i < 40 then e.reserved.getLsbD (i - 32)
    else if i < 48 then e.attributes.getLsbD (i - 40)
    else e.isrHigh.getLsbD (i - 48) := by
  unfold IdtEntry.word
  simp only [BitVec.getLsbD_append, Nat.sub_sub]
  grind

lemma extractLsb'_ext {w n start : ℕ} {x : BitVec w} {y : BitVec n}
    (h : ∀ i < n, x.getLsbD (start + i) = y.getLsbD i) : x.extractLsb' start n = y := by
  apply BitVec.eq_of_getLsbD_eq
  intro i hi
  rw [BitVec.getLsbD_extractLsb', h i hi, decide_eq_true hi, Bool.true_and]

lemma ofWord_word (e : GdtEntry) : Segment.ofWord e.word =
    ⟨e.baseHigh ++ (e.baseMiddle ++ e.baseLow), e.granularity.extractLsb' 0 4 ++ e.limitLow, e.access,
      e.granularity.extractLsb' 4 4⟩ := by
  have hhigh : e.word.extractLsb' 56 8 = e.baseHigh := by
    apply extractLsb'_ext
    intro i hi
    rw [getLsbD_gdtWord]
    grind
  have hlow : e.word.extractLsb' 16 24 = e.baseMiddle ++ e.baseLow := by
    apply extractLsb'_ext
    intro i hi
    rw [getLsbD_gdtWord, BitVec.getLsbD_append]
    grind
  have hlimit : e.word.extractLsb' 48 4 = e.granularity.extractLsb' 0 4 := by
    apply extractLsb'_ext
    intro i hi
    rw [getLsbD_gdtWord, BitVec.getLsbD_extractLsb']
    grind
  have hlimitLow : e.word.extractLsb' 0 16 = e.limitLow := by
    apply extractLsb'_ext
    intro i hi
    rw [getLsbD_gdtWord]
    grind
  have haccess : e.word.extractLsb' 40 8 = e.access := by
    apply extractLsb'_ext
    intro i hi
    rw [getLsbD_gdtWord]
    grind
  have hflags : e.word.extractLsb' 52 4 = e.granularity.extractLsb' 4 4 := by
    apply extractLsb'_ext
    intro i hi
    rw [getLsbD_gdtWord, BitVec.getLsbD_extractLsb']
    grind
  rw [Segment.ofWord, hhigh, hlow, hlimit, hlimitLow, haccess, hflags]

lemma gateOfWord_word (e : IdtEntry) : Gate.ofWord e.word = ⟨e.isr, e.kernelCs, e.attributes⟩ := by
  have hhigh : e.word.extractLsb' 48 16 = e.isrHigh := by
    apply extractLsb'_ext
    intro i hi
    rw [getLsbD_idtWord]
    grind
  have hlow : e.word.extractLsb' 0 16 = e.isrLow := by
    apply extractLsb'_ext
    intro i hi
    rw [getLsbD_idtWord]
    grind
  have hselector : e.word.extractLsb' 16 16 = e.kernelCs := by
    apply extractLsb'_ext
    intro i hi
    rw [getLsbD_idtWord]
    grind
  have hattributes : e.word.extractLsb' 40 8 = e.attributes := by
    apply extractLsb'_ext
    intro i hi
    rw [getLsbD_idtWord]
    grind
  rw [Gate.ofWord, hhigh, hlow, hselector, hattributes, IdtEntry.isr]

lemma ofWord_gdtSetGate (gdt : ℕ → GdtEntry) (num : ℕ) (base limit : BitVec 32)
    (access gran : BitVec 8) : Segment.ofWord (gdtSetGate gdt num base limit access gran num).word =
      ⟨base, limit.setWidth 20, access, gran.extractLsb' 4 4⟩ := by
  have hbyte : ∀ i < 8, (0xFF#32).getLsbD i = true := by decide
  have hhalf : ∀ i < 16, (0xFFFF#32).getLsbD i = true := by decide
  have hlow := setWidth_shift_mask base _ 0 hhalf
  have hlimitLow := setWidth_shift_mask limit _ 0 hhalf
  rw [BitVec.ushiftRight_zero] at hlow hlimitLow
  have hbase : base.extractLsb' 24 8 ++ (base.extractLsb' 16 8 ++ base.extractLsb' 0 16) = base := by
    apply BitVec.eq_of_getLsbD_eq
    intro i hi
    simp only [BitVec.getLsbD_append, BitVec.getLsbD_extractLsb']
    grind
  have hgran : ∀ i < 8, (((limit >>> 16) &&& 0x0F#32).setWidth 8 ||| (gran &&& 0xF0#8)).getLsbD i =
      if i < 4 then limit.getLsbD (16 + i) else gran.getLsbD i := by
    intro i hi
    have hlo : ∀ i < 8, (0x0F#32).getLsbD i = decide (i < 4) := by decide
    have hhi : ∀ i < 8, (0xF0#8).getLsbD i = !decide (i < 4) := by decide
    simp only [BitVec.getLsbD_or, BitVec.getLsbD_setWidth, BitVec.getLsbD_and,
      BitVec.getLsbD_ushiftRight, hlo i hi, hhi i hi]
    grind
  have hlimit : (((limit >>> 16) &&& 0x0F#32).setWidth 8 ||| (gran &&& 0xF0#8)).extractLsb' 0 4 ++
      limit.extractLsb' 0 16 = limit.setWidth 20 := by
    apply BitVec.eq_of_getLsbD_eq
    intro i hi
    rw [BitVec.getLsbD_append, BitVec.getLsbD_extractLsb', BitVec.getLsbD_extractLsb',
      BitVec.getLsbD_setWidth]
    grind
  have hflags : (((limit >>> 16) &&& 0x0F#32).setWidth 8 ||| (gran &&& 0xF0#8)).extractLsb' 4 4 =
      gran.extractLsb' 4 4 := by
    apply extractLsb'_ext
    intro i hi
    rw [hgran _ (by omega), BitVec.getLsbD_extractLsb']
    grind
  rw [ofWord_word, gdtSetGate, Function.update_self]
  simp only [setWidth_shift_mask _ _ _ hbyte, hlow, hlimitLow, hbase, hlimit, hflags]

def codeSegment : Segment := ⟨0#32, 0xFFFFF#20, 0x9A#8, 0xC#4⟩

def dataSegment : Segment := ⟨0#32, 0xFFFFF#20, 0x92#8, 0xC#4⟩

lemma gdtInit_word (gdt : ℕ → GdtEntry) (index : ℕ) :
    (gdtInit gdt).word index = if index < 3 then some (gdtEntries gdt index).word else none := by
  have hlimit : (gdtInit gdt).limit.toNat = 23 := rfl
  have hiff : 8 * index + 7 ≤ 23 ↔ index < 3 := by omega
  simp only [DescriptorTable.word, hlimit, hiff]
  rfl

lemma idtTable_word (image : Image) (idt : ℕ → IdtEntry) (vector : ℕ) :
    (idtTable image idt).word vector =
      if vector < 256 then some (idtInit image idt vector).word else none := by
  have hlimit : (idtTable image idt).limit.toNat = 2047 := rfl
  have hiff : 8 * vector + 7 ≤ 2047 ↔ vector < 256 := by omega
  simp only [DescriptorTable.word, hlimit, hiff]
  rfl

lemma gdtInit_segment (gdt : ℕ → GdtEntry) (selector : BitVec 16) : (gdtInit gdt).segment selector =
    if selector.getLsbD 2 then none
    else if selector >>> 3 = 1#16 then some codeSegment
    else if selector >>> 3 = 2#16 then some dataSegment
    else none := by
  have hcode : Segment.ofWord (gdtEntries gdt 1).word = codeSegment := by
    rw [gdtEntries, gdtSetGate, Function.update_of_ne (by decide), ofWord_gdtSetGate]
    decide
  have hdata : Segment.ofWord (gdtEntries gdt 2).word = dataSegment := by
    rw [gdtEntries, ofWord_gdtSetGate]
    decide
  rw [DescriptorTable.segment]
  generalize selector >>> 3 = index
  by_cases hlocal : selector.getLsbD 2
  · rw [if_pos (Or.inl hlocal), if_pos hlocal]
  · by_cases h0 : index = 0#16
    · rw [if_pos (Or.inr h0), if_neg hlocal, h0]
      rfl
    · have hneither : ¬ (selector.getLsbD 2 = true ∨ index = 0#16) := fun h => h.elim hlocal h0
      rw [if_neg hneither, if_neg hlocal]
      by_cases h1 : index = 1#16
      · rw [if_pos h1, h1, gdtInit_word, if_pos (by decide), Option.map_some]
        exact congrArg (fun s => (some s).filter fun s => s.present && s.plain) hcode
      · rw [if_neg h1]
        by_cases h2 : index = 2#16
        · rw [if_pos h2, h2, gdtInit_word, if_pos (by decide), Option.map_some]
          exact congrArg (fun s => (some s).filter fun s => s.present && s.plain) hdata
        · rw [if_neg h2, gdtInit_word, if_neg (by bv_omega)]
          rfl

lemma selector_eq {selector index : BitVec 16} (htable : selector.getLsbD 2 = false)
    (hring : selector.extractLsb' 0 2 = 0#2) (hindex : selector >>> 3 = index) :
    selector = index <<< 3 := by
  have hbit : ∀ j < 2, selector.getLsbD j = false := by
    intro j hj
    have h := congrArg (fun x => x.getLsbD j) hring
    simp only [BitVec.getLsbD_extractLsb', Nat.zero_add, decide_eq_true hj, Bool.true_and] at h
    rw [h]
    exact BitVec.getLsbD_zero
  apply BitVec.eq_of_getLsbD_eq
  intro i hi
  rw [← hindex, BitVec.getLsbD_shiftLeft, BitVec.getLsbD_ushiftRight]
  grind

lemma gdtInit_codeSegment (gdt : ℕ → GdtEntry) (selector : BitVec 16) :
    (gdtInit gdt).codeSegment selector = if selector = 0x08#16 then some codeSegment else none := by
  rw [DescriptorTable.codeSegment, gdtInit_segment]
  by_cases h : selector = 0x08#16
  · rw [h]
    decide
  · rw [if_neg h, Option.filter_eq_none_iff]
    intro s hs hload
    simp only [Bool.and_eq_true, decide_eq_true_eq] at hload
    split_ifs at hs with htable hone htwo
    · exact h (selector_eq (Bool.eq_false_of_not_eq_true htable) hload.2 hone)
    · rw [← Option.some.inj hs] at hload
      exact absurd hload.1.1 (by decide)

lemma gdtInit_stackSegment (gdt : ℕ → GdtEntry) (selector : BitVec 16) :
    (gdtInit gdt).stackSegment selector = if selector = 0x10#16 then some dataSegment else none := by
  rw [DescriptorTable.stackSegment, gdtInit_segment]
  by_cases h : selector = 0x10#16
  · rw [h]
    decide
  · rw [if_neg h, Option.filter_eq_none_iff]
    intro s hs hload
    simp only [Bool.and_eq_true, decide_eq_true_eq] at hload
    split_ifs at hs with htable hone htwo
    · rw [← Option.some.inj hs] at hload
      exact absurd hload.1.1.1 (by decide)
    · exact h (selector_eq (Bool.eq_false_of_not_eq_true htable) hload.2 htwo)

lemma foldl_idtSetDescriptor (stubs : ℕ → BitVec 32) (flags : BitVec 8) (base n v : ℕ)
    (idt : ℕ → IdtEntry) :
    (List.range n).foldl (fun idt i => idtSetDescriptor idt (base + i) (stubs i) flags) idt v =
      if base ≤ v ∧ v < base + n then idtSetDescriptor idt v (stubs (v - base)) flags v else idt v := by
  induction n with
  | zero => exact (if_neg (by omega)).symm
  | succ n ih =>
    rw [List.range_succ, List.foldl_append, List.foldl_cons, List.foldl_nil]
    by_cases he : v = base + n
    · rw [if_pos (by omega), he, Nat.add_sub_cancel_left, idtSetDescriptor, idtSetDescriptor,
        Function.update_self, Function.update_self]
    · rw [idtSetDescriptor, Function.update_of_ne he, ih]
      exact if_congr (by omega) rfl rfl

lemma idtInit_eq (image : Image) (idt : ℕ → IdtEntry) (vector : ℕ) : idtInit image idt vector =
    if vector < 32 then idtSetDescriptor idt vector (image.isrStubTable vector) 0x8E#8 vector
    else if vector < 48 then
      idtSetDescriptor idt vector (image.irqStubTable (vector - 32)) 0x8E#8 vector
    else idt vector := by
  have hfirst := foldl_idtSetDescriptor image.isrStubTable 0x8E#8 0 32 vector idt
  simp only [Nat.zero_add] at hfirst
  rw [idtInit, foldl_idtSetDescriptor, hfirst]
  simp only [idtSetDescriptor, Function.update_self, Nat.sub_zero]
  grind

lemma idtTable_gate (image : Image) (vector : ℕ) : (idtTable image Machine.emptyIdt).gate vector =
    if vector < 32 then some ⟨image.isrStubTable vector, 0x08#16, 0x8E#8⟩
    else if vector < 48 then some ⟨image.irqStubTable (vector - 32), 0x08#16, 0x8E#8⟩
    else none := by
  have hset : ∀ isr, Gate.ofWord (idtSetDescriptor Machine.emptyIdt vector isr 0x8E#8 vector).word =
      ⟨isr, 0x08#16, 0x8E#8⟩ := by
    intro isr
    rw [gateOfWord_word, isr_idtSetDescriptor, idtSetDescriptor, Function.update_self]
  have hpresent : ∀ isr, (some (⟨isr, 0x08#16, 0x8E#8⟩ : Gate)).filter Gate.interrupt =
      some ⟨isr, 0x08#16, 0x8E#8⟩ := by
    intro isr
    have h : ((0x8E#8).getLsbD 7 && decide ((0x8E#8).extractLsb' 0 5 = 0xE#5)) = true := by decide
    rw [Option.filter_some, Gate.interrupt, if_pos h]
  rw [DescriptorTable.gate, idtTable_word, idtInit_eq]
  by_cases hisr : vector < 32
  · rw [if_pos (by omega), if_pos hisr, if_pos hisr, Option.map_some, hset, hpresent]
  · by_cases hirq : vector < 48
    · rw [if_pos (by omega), if_neg hisr, if_pos hirq, if_neg hisr, if_pos hirq, Option.map_some, hset,
        hpresent]
    · rw [if_neg hisr, if_neg hirq, if_neg hisr, if_neg hirq]
      by_cases hin : vector < 256
      · have h : ¬ ((0#8).getLsbD 7 && decide ((0#8).extractLsb' 0 5 = 0xE#5)) = true := by decide
        rw [if_pos hin, Option.map_some, gateOfWord_word, Option.filter_some, Gate.interrupt]
        exact if_neg h
      · rw [if_neg hin]
        rfl

/-- After `gdt_init` and `idt_init`, code and the stack reach all of the memory through one selector each,
at the addresses themselves, and no other selector can be loaded; the vectors of exceptions and interrupt
lines lead to their stubs, and the processor faults on all others. -/
theorem descriptors_loaded (image : Image) (gdt : ℕ → GdtEntry) :
    (∀ selector offset, ((gdtInit gdt).codeSegment selector).bind (·.linear offset) =
      if selector = 0x08#16 then some offset else none) ∧
    (∀ selector offset, ((gdtInit gdt).stackSegment selector).bind (·.linear offset) =
      if selector = 0x10#16 then some offset else none) ∧
    ∀ vector, handlerAddress (idtTable image Machine.emptyIdt) (gdtInit gdt) vector =
      if vector < 32 then some (image.isrStubTable vector)
      else if vector < 48 then some (image.irqStubTable (vector - 32))
      else none := by
  have hcode : ∀ selector offset, ((gdtInit gdt).codeSegment selector).bind (·.linear offset) =
      if selector = 0x08#16 then some offset else none := by
    intro selector offset
    rw [gdtInit_codeSegment]
    by_cases h : selector = 0x08#16
    · rw [if_pos h, if_pos h]
      exact Segment.linear_flat rfl rfl rfl offset
    · rw [if_neg h, if_neg h]
      rfl
  refine ⟨hcode, fun selector offset => ?_, fun vector => ?_⟩
  · rw [gdtInit_stackSegment]
    by_cases h : selector = 0x10#16
    · rw [if_pos h, if_pos h]
      exact Segment.linear_flat rfl rfl rfl offset
    · rw [if_neg h, if_neg h]
      rfl
  · rw [handlerAddress, idtTable_gate]
    by_cases hisr : vector < 32
    · rw [if_pos hisr, if_pos hisr, Option.bind_some, hcode]
      rfl
    · by_cases hirq : vector < 48
      · rw [if_neg hisr, if_pos hirq, if_neg hisr, if_pos hirq, Option.bind_some, hcode]
        rfl
      · rw [if_neg hisr, if_neg hirq, if_neg hisr, if_neg hirq]
        rfl

end Veni.Interrupts

import Veni.Interrupts.Descriptors
import Veni.Lib.WordStack

/-! How `exception_handler` is entered: through the tables and the stubs of `arch/i386/interrupts/isr_a.S`. -/

namespace Veni.Interrupts

open Veni.Lib Veni.Lib.WordMemory

def pushesError (vector : ℕ) : Bool := [8, 10, 11, 12, 13, 14, 17, 21, 29, 30].contains vector

def isrErrStub (exceptionHandler num : BitVec 32) : List Instr :=
  [.pushl num, .call exceptionHandler, .addEsp 8#32, .iret]

def isrNoErrStub (exceptionHandler num : BitVec 32) : List Instr :=
  [.pushl num, .call exceptionHandler, .addEsp 8#32, .iret]

def isrStub (exceptionHandler : BitVec 32) (vector : ℕ) : List Instr :=
  if [8, 10, 11, 12, 13, 14, 17, 30].contains vector then
    isrErrStub exceptionHandler (BitVec.ofNat 32 vector)
  else isrNoErrStub exceptionHandler (BitVec.ofNat 32 vector)

namespace Machine

/-- Delivery through the tables, in ring 0; `none` is a fault on the way. -/
def deliver (idt gdt : DescriptorTable) (vector : ℕ) (error : Option (BitVec 32)) (m : Machine) :
    Option Machine :=
  (idt.gate vector).bind fun g => (gdt.codeSegment g.selector).bind fun s =>
    (s.linear g.offset).map fun address =>
      let t := ((m.push m.eflags).push (m.cs.setWidth 32)).push m.eip
      let t := match error with
        | none => t
        | some code => t.push code
      { t with eip := address, cs := g.selector, eflags := m.eflags &&& ~~~gateClears g.attributes }

def runToCall (code : List Instr) (a : BitVec 32) : ℕ → Machine → Option Machine
  | 0, _ => none
  | n + 1, m =>
    match fetch code a m.eip with
    | none => none
    | some .iret => none
    | some (.call target) => some (m.call target)
    | some (.pushl imm) => runToCall code a n (m.pushl imm)
    | some (.addEsp imm) => runToCall code a n (m.exec id (.addEsp imm))

def stack (m : Machine) : Stack := ⟨m.memory, m.esp⟩

def entered (m : Machine) (eip : BitVec 32) (words : List (BitVec 32)) : Machine :=
  { m with
    eip := eip
    cs := 0x08#16
    eflags := m.eflags &&& ~~~0x34300#32
    esp := (m.stack.pushAll words).top
    memory := (m.stack.pushAll words).memory }

def returnFrame (m : Machine) : List (BitVec 32) := [m.eip, m.cs.setWidth 32, m.eflags]

lemma deliver_eq (image : Image) (gdt : ℕ → GdtEntry) {vector : ℕ} (h : vector < 32)
    (error : Option (BitVec 32)) (m : Machine) :
    m.deliver (idtTable image emptyIdt) (gdtInit gdt) vector error =
      some (m.entered (image.isrStubTable vector) (m.returnFrame.reverse ++ error.toList)) := by
  have hlinear : ∀ offset, codeSegment.linear offset = some offset := Segment.linear_flat rfl rfl rfl
  have hclears : gateClears 0x8E#8 = 0x34300#32 := by decide
  rw [deliver, idtTable_gate, if_pos h, Option.bind_some, gdtInit_codeSegment, if_pos rfl,
    Option.bind_some, hlinear, Option.map_some, hclears]
  cases error with
  | none => rfl
  | some code => rfl

lemma deliver_interrupt (image : Image) (gdt : ℕ → GdtEntry) {vector : ℕ} (hlo : 32 ≤ vector)
    (hhi : vector < 48) (m : Machine) :
    m.deliver (idtTable image emptyIdt) (gdtInit gdt) vector none =
      some (m.interrupt (idtInit image emptyIdt vector)) := by
  have hlinear : ∀ offset, codeSegment.linear offset = some offset := Segment.linear_flat rfl rfl rfl
  rw [deliver, idtTable_gate, if_neg (by omega), if_pos hhi, Option.bind_some, gdtInit_codeSegment,
    if_pos rfl, Option.bind_some, hlinear, Option.map_some, interrupt, isr_idtInit _ _ hlo (by omega),
    idtInit_eq, if_neg (by omega), if_pos hhi, idtSetDescriptor, Function.update_self]

lemma isrStub_eq (exceptionHandler : BitVec 32) (vector : ℕ) : isrStub exceptionHandler vector =
    [.pushl (BitVec.ofNat 32 vector), .call exceptionHandler, .addEsp 8#32, .iret] := by
  rw [isrStub, isrErrStub, isrNoErrStub, ite_self]

lemma runToCall_isrStub (exceptionHandler a : BitVec 32) (vector : ℕ) (m : Machine)
    (words : List (BitVec 32)) :
    runToCall (isrStub exceptionHandler vector) a 2 (m.entered a words) =
      some (m.entered exceptionHandler (words ++ [BitVec.ofNat 32 vector, a + 7#32])) := by
  have hpush : fetch (isrStub exceptionHandler vector) a a = some (.pushl (BitVec.ofNat 32 vector)) := by
    rw [isrStub_eq, fetch, if_pos rfl]
  have hcall : fetch (isrStub exceptionHandler vector) a (a + 2#32) = some (.call exceptionHandler) := by
    rw [isrStub_eq, fetch, if_neg (by bv_omega), fetch]
    exact if_pos rfl
  have hstart : (m.entered a words).eip = a := rfl
  have hsecond : ((m.entered a words).pushl (BitVec.ofNat 32 vector)).eip = a + 2#32 := rfl
  have hreturn : a + 2#32 + 5#32 = a + 7#32 := by bv_omega
  rw [runToCall, hstart, hpush]
  simp only [runToCall, hsecond, hcall]
  simp only [call, hsecond, Instr.size, hreturn]
  simp only [entered, Stack.pushAll, List.foldl_append]
  rfl

lemma entered_stack (m : Machine) (eip : BitVec 32) {words : List (BitVec 32)}
    (hlength : words.length ≤ 6) :
    Holds (m.entered eip words).memory (m.entered eip words).esp words.reverse ∧
      ∀ x, 24 ≤ (x - (m.entered eip words).esp).toNat → (m.entered eip words).memory x = m.memory x := by
  have hholds := @Stack.pushAll_holds words [] m.stack trivial (by rw [List.length_nil]; omega)
  rw [List.append_nil] at hholds
  refine ⟨hholds, fun x hx => ?_⟩
  have hbeyond : 4 * words.length ≤ 24 := by omega
  exact Stack.pushAll_frame (by omega) (hbeyond.trans hx)

/-- Every exception leads to `exception_handler` with its vector and, where the processor has one, the
error code; for the others the second argument is the address of the interrupted instruction. -/
theorem exception_entered (image : Image) (gdt : ℕ → GdtEntry) (exceptionHandler : BitVec 32)
    {vector : ℕ} (h : vector < 32) (code : BitVec 32) (m : Machine) :
    ∃ t e, m.deliver (idtTable image emptyIdt) (gdtInit gdt) vector
        (if pushesError vector then some code else none) = some t ∧
      runToCall (isrStub exceptionHandler vector) (image.isrStubTable vector) 2 t = some e ∧
      e.eip = exceptionHandler ∧ e.cs = 0x08#16 ∧ e.eflags.getLsbD 9 = false ∧
      load e.memory (e.esp + 4#32) = BitVec.ofNat 32 vector ∧
      load e.memory (e.esp + 8#32) = (if pushesError vector then code else m.eip) ∧
      Holds e.memory (e.esp + if pushesError vector then 12#32 else 8#32) m.returnFrame ∧
      (∀ x, 24 ≤ (x - e.esp).toNat → e.memory x = m.memory x) ∧
      (e.eax, e.ebx, e.ecx, e.edx, e.esi, e.edi, e.ebp) =
        (m.eax, m.ebx, m.ecx, m.edx, m.esi, m.edi, m.ebp) := by
  have hoff : (m.eflags &&& ~~~0x34300#32).getLsbD 9 = false := by
    have hmask : (~~~0x34300#32).getLsbD 9 = false := by decide
    rw [BitVec.getLsbD_and, hmask, Bool.and_false]
  have hrun := fun error => runToCall_isrStub exceptionHandler (image.isrStubTable vector) vector m
    (m.returnFrame.reverse ++ error)
  refine ⟨_, _, deliver_eq image gdt h _ m, hrun _, rfl, rfl, hoff, ?_⟩
  have hat : ∀ a : BitVec 32, a + 4#32 + 4#32 = a + 8#32 ∧ a + 4#32 + 8#32 = a + 12#32 :=
    fun a => ⟨by bv_omega, by bv_omega⟩
  cases pushesError vector with
  | false =>
    obtain ⟨hholds, hframe⟩ := @entered_stack m exceptionHandler (m.returnFrame.reverse ++ [] ++
      [BitVec.ofNat 32 vector, image.isrStubTable vector + 7#32]) (by
        rw [List.append_nil]
        exact Nat.le_succ 5)
    obtain ⟨_, hvector, hsaved⟩ := hholds
    rw [(hat _).1] at hsaved
    exact ⟨hvector, hsaved.1, hsaved, hframe, rfl⟩
  | true =>
    obtain ⟨hholds, hframe⟩ := @entered_stack m exceptionHandler (m.returnFrame.reverse ++ [code] ++
      [BitVec.ofNat 32 vector, image.isrStubTable vector + 7#32]) (by decide : 6 ≤ 6)
    obtain ⟨_, hvector, herror, hsaved⟩ := hholds
    rw [(hat _).1] at herror hsaved
    rw [(hat _).2] at hsaved
    exact ⟨hvector, herror, hsaved, hframe, rfl⟩

theorem exception_entered_page : ∃ t e,
    counting.deliver (idtTable sampleImage emptyIdt)
        (gdtInit fun _ => ⟨0#16, 0#16, 0#8, 0#8, 0#8, 0#8⟩) 14 (some 2#32) = some t ∧
      runToCall (isrStub 0x101100#32 14) (sampleImage.isrStubTable 14) 2 t = some e ∧
      e.eip = 0x101100#32 ∧ load e.memory (e.esp + 4#32) = 14#32 ∧
      load e.memory (e.esp + 8#32) = 2#32 := by
  obtain ⟨t, e, hdeliver, hrun, heip, _, _, hvector, hcode, _⟩ := exception_entered sampleImage
    (fun _ => ⟨0#16, 0#16, 0#8, 0#8, 0#8, 0#8⟩) 0x101100#32 (by decide : 14 < 32) 2#32 counting
  exact ⟨t, e, hdeliver, hrun, heip, hvector, hcode⟩

end Machine

end Veni.Interrupts

import Mathlib.Algebra.Ring.Nat
import Mathlib.Logic.Function.Basic
import Veni.Lib.WordMemory

/-! Interrupt delivery and the `irq_stub` code, `arch/i386/interrupts/isr_a.S` and `idt.c`. -/

namespace Veni.Interrupts

open Veni.Lib.WordMemory

structure IdtEntry where
  isrLow : BitVec 16
  kernelCs : BitVec 16
  reserved : BitVec 8
  attributes : BitVec 8
  isrHigh : BitVec 16

def idtSetDescriptor (idt : ℕ → IdtEntry) (vector : ℕ) (isr : BitVec 32) (flags : BitVec 8) :
    ℕ → IdtEntry :=
  Function.update idt vector
    { isrLow := (isr &&& 0xFFFF#32).setWidth 16
      kernelCs := 0x08#16
      attributes := flags
      isrHigh := (isr >>> 16).setWidth 16
      reserved := 0#8 }

structure Image where
  isrStubTable : ℕ → BitVec 32
  irqStubTable : ℕ → BitVec 32
  irqHandler : BitVec 32

def idtInit (image : Image) (idt : ℕ → IdtEntry) : ℕ → IdtEntry :=
  let idt := (List.range 32).foldl
    (fun idt vector => idtSetDescriptor idt vector (image.isrStubTable vector) 0x8E#8) idt
  (List.range 16).foldl
    (fun idt vector => idtSetDescriptor idt (32 + vector) (image.irqStubTable vector) 0x8E#8) idt

def IdtEntry.isr (e : IdtEntry) : BitVec 32 := e.isrHigh ++ e.isrLow

structure Machine where
  eax : BitVec 32
  ecx : BitVec 32
  edx : BitVec 32
  ebx : BitVec 32
  esp : BitVec 32
  ebp : BitVec 32
  esi : BitVec 32
  edi : BitVec 32
  eip : BitVec 32
  eflags : BitVec 32
  cs : BitVec 16
  memory : BitVec 32 → BitVec 8

/-- The flags a gate clears: trap, nested task, resume and virtual 8086; an interrupt gate also the
interrupt flag. -/
def gateClears (attributes : BitVec 8) : BitVec 32 :=
  if attributes &&& 0xF#8 = 0xE#8 then 0x34300#32 else 0x34100#32

inductive Instr
  | pushl (imm : BitVec 32)
  | call (target : BitVec 32)
  | addEsp (imm : BitVec 32)
  | iret

def Instr.size : Instr → BitVec 32
  | .pushl _ => 2#32
  | .call _ => 5#32
  | .addEsp _ => 3#32
  | .iret => 1#32

def irqStub (image : Image) (num : BitVec 32) : List Instr :=
  [.pushl 0#32, .pushl num, .call image.irqHandler, .addEsp 8#32, .iret]

def flag (b : Bool) (i : ℕ) : BitVec 32 := if b then 1#32 <<< i else 0#32

def addFlags (eflags a b : BitVec 32) : BitVec 32 :=
  let s := a + b
  (eflags &&& ~~~0x8D5#32) ||| flag (2 ^ 32 ≤ a.toNat + b.toNat) 0 |||
    flag ((List.range 8).countP s.getLsbD % 2 = 0) 2 |||
    flag (16 ≤ a.toNat % 16 + b.toNat % 16) 4 ||| flag (s = 0#32) 6 ||| flag s.msb 7 |||
    flag (a.msb == b.msb && s.msb != a.msb) 11

namespace Machine

def push (m : Machine) (v : BitVec 32) : Machine :=
  { m with esp := m.esp - 4#32, memory := store m.memory (m.esp - 4#32) v }

def pushl (m : Machine) (imm : BitVec 32) : Machine :=
  { m.push imm with eip := m.eip + (Instr.pushl imm).size }

def interrupt (m : Machine) (e : IdtEntry) : Machine :=
  let t := ((m.push m.eflags).push (m.cs.setWidth 32)).push m.eip
  { t with eip := e.isr, cs := e.kernelCs, eflags := m.eflags &&& ~~~gateClears e.attributes }

def call (m : Machine) (target : BitVec 32) : Machine :=
  { m.push (m.eip + (Instr.call target).size) with eip := target }

def iret (m : Machine) : Machine :=
  { m with
    eip := load m.memory m.esp
    cs := (load m.memory (m.esp + 4#32)).setWidth 16
    eflags := load m.memory (m.esp + 8#32)
    esp := m.esp + 12#32 }

section Handler

variable (irqHandler : Machine → Machine)

/-- `irqHandler` takes the state in which the function begins to the one in which it has returned. -/
def exec (m : Machine) : Instr → Machine
  | .pushl imm => m.pushl imm
  | .call target => irqHandler (m.call target)
  | .addEsp imm =>
    { m with
      esp := m.esp + imm
      eip := m.eip + (Instr.addEsp imm).size
      eflags := addFlags m.eflags m.esp imm }
  | .iret => m.iret

def fetch : List Instr → BitVec 32 → BitVec 32 → Option Instr
  | [], _, _ => none
  | i :: code, a, eip => if eip = a then some i else fetch code (a + i.size) eip

def run (code : List Instr) (a : BitVec 32) : ℕ → Machine → Option Machine
  | 0, _ => none
  | n + 1, m =>
    match fetch code a m.eip with
    | none => none
    | some .iret => some (m.exec irqHandler .iret)
    | some i => run code a n (m.exec irqHandler i)

def serve (image : Image) (idt : ℕ → IdtEntry) (vector : ℕ) (m : Machine) : Option Machine :=
  let stub := irqStub image (BitVec.ofNat 32 vector)
  run irqHandler stub (image.irqStubTable (vector - 32)) stub.length
    (m.interrupt (idtInit image idt vector))

end Handler

def handlerEntry (image : Image) (idt : ℕ → IdtEntry) (vector : ℕ) (m : Machine) : Machine :=
  (((m.interrupt (idtInit image idt vector)).pushl 0#32).pushl (BitVec.ofNat 32 vector)).call
    image.irqHandler

end Machine

end Veni.Interrupts

import Mathlib.Logic.Function.Basic
import Mathlib.Tactic.Common

/-! The keyboard driver, `arch/i386/drivers/keyboard/keyboard.c`. -/

namespace Veni.Drivers

inductive KeyCode
  | none
  | a | b | c | d | e | f | g | h | i | j | k | l | m
  | n | o | p | q | r | s | t | u | v | w | x | y | z
  | one | two | three | four | five | six | seven | eight | nine | zero
  | minus | equal | space | leftBracket | rightBracket | semicolon | singleQuote
  | comma | period | slash | backslash | backtick
  | enter | backspace | tab | escape
  | capsLock | leftShift | rightShift | leftControl | rightControl | leftAlt | rightAlt
  | delete | scrollLock | numLock
  | f1 | f2 | f3 | f4 | f5 | f6 | f7 | f8 | f9 | f10 | f11 | f12
  deriving DecidableEq

structure KeyPacket where
  keycode : KeyCode
  pressed : Bool
  shift : Bool
  ctrl : Bool
  alt : Bool
  capslock : Bool
  scrolllock : Bool
  numlock : Bool
  deriving DecidableEq

def KeyPacket.zero : KeyPacket := ⟨.none, false, false, false, false, false, false, false⟩

def bufferSize : ℕ := 128

structure Keyboard where
  buffer : ℕ → KeyPacket
  bufferHead : ℕ
  bufferTail : ℕ
  shift : Bool
  ctrl : Bool
  alt : Bool
  capslock : Bool
  numlock : Bool
  scrolllock : Bool

/-- The codes that the initialiser of the table lists; the rest of its 128 entries are zero. -/
def set1Listed : List KeyCode :=
  [.none, .none, .one, .two, .three, .four, .five,
    .six, .seven, .eight, .nine, .zero,
    .minus, .equal, .backspace, .tab, .q,
    .w, .e, .r, .t, .y, .u, .i, .o,
    .p, .leftBracket, .rightBracket, .enter,
    .leftControl, .a, .s, .d, .f, .g, .h,
    .j, .k, .l, .semicolon, .singleQuote,
    .backtick, .leftShift, .backslash, .z, .x,
    .c, .v, .b, .n, .m, .comma, .period,
    .slash, .rightShift, .none, .leftAlt, .space, .none,
    .capsLock, .f1, .f2, .f3, .f4, .f5,
    .f6, .f7, .f8, .f9, .f10, .numLock,
    .scrollLock, .none, .none, .none, .none, .none, .none, .none, .none, .none, .none, .none, .none,
    .none, .none,
    .none, .none, .f11, .f12]

def set1ScancodeToKeycode (code : ℕ) : KeyCode := set1Listed.getD code .none

namespace Keyboard

def boot : Keyboard := ⟨fun _ => .zero, 0, 0, false, false, false, false, false, false⟩

def bufferPush (k : Keyboard) (pkt : KeyPacket) : Keyboard :=
  let next := (k.bufferHead + 1) % bufferSize
  if next ≠ k.bufferTail then
    { k with buffer := Function.update k.buffer k.bufferHead pkt, bufferHead := next }
  else k

def bufferEmpty (k : Keyboard) : Bool := k.bufferHead == k.bufferTail

/-- One turn of the loop of `keyboard_handler` up to `buffer_push`: the flags, and the packet if the
turn does not end in `continue`. -/
def decode (k : Keyboard) (sc : BitVec 8) : Keyboard × Option KeyPacket :=
  let released := sc &&& 0x80#8 != 0#8
  let code := (sc &&& 0x7F#8).toNat
  if code ≥ 128 then (k, none)
  else
    match set1ScancodeToKeycode code with
    | .none => (k, none)
    | .leftShift | .rightShift => ({ k with shift := !released }, none)
    | .leftControl | .rightControl => ({ k with ctrl := !released }, none)
    | .leftAlt | .rightAlt => ({ k with alt := !released }, none)
    | .capsLock => (if !released then { k with capslock := !k.capslock } else k, none)
    | .numLock => (if !released then { k with numlock := !k.numlock } else k, none)
    | .scrollLock => (if !released then { k with scrolllock := !k.scrolllock } else k, none)
    | keycode =>
      (k, some
        { keycode := keycode
          pressed := !released
          shift := k.shift
          ctrl := k.ctrl
          alt := k.alt
          capslock := k.capslock
          numlock := k.numlock
          scrolllock := k.scrolllock })

def turn (k : Keyboard) (sc : BitVec 8) : Keyboard :=
  match k.decode sc with
  | (k, none) => k
  | (k, some pkt) => k.bufferPush pkt

/-- `scs` is what the data port gives until the status port has no more. -/
def keyboardHandler (k : Keyboard) (scs : List (BitVec 8)) : Keyboard := scs.foldl turn k

end Keyboard

end Veni.Drivers

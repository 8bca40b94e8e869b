import Mathlib.Data.List.Induction
import Mathlib.Tactic.Common
import Veni.Drivers.Keyboard

/-! The modifier flags of the keyboard driver against the keys that are held down. -/

namespace Veni.Drivers

inductive Modifier
  | shift | ctrl | alt
  deriving DecidableEq

inductive Lock
  | capslock | numlock | scrolllock
  deriving DecidableEq

inductive Role
  | ignored
  | modifier (m : Modifier)
  | lock (l : Lock)
  | ordinary
  deriving DecidableEq

def KeyCode.role : KeyCode → Role
  | .none => .ignored
  | .leftShift | .rightShift => .modifier .shift
  | .leftControl | .rightControl => .modifier .ctrl
  | .leftAlt | .rightAlt => .modifier .alt
  | .capsLock => .lock .capslock
  | .numLock => .lock .numlock
  | .scrollLock => .lock .scrolllock
  | _ => .ordinary

def Modifier.flag (k : Keyboard) : Modifier → Bool
  | .shift => k.shift
  | .ctrl => k.ctrl
  | .alt => k.alt

def Modifier.put (k : Keyboard) (b : Bool) : Modifier → Keyboard
  | .shift => { k with shift := b }
  | .ctrl => { k with ctrl := b }
  | .alt => { k with alt := b }

def Modifier.shown (pkt : KeyPacket) : Modifier → Bool
  | .shift => pkt.shift
  | .ctrl => pkt.ctrl
  | .alt => pkt.alt

def Lock.flag (k : Keyboard) : Lock → Bool
  | .capslock => k.capslock
  | .numlock => k.numlock
  | .scrolllock => k.scrolllock

def Lock.toggle (k : Keyboard) : Lock → Keyboard
  | .capslock => { k with capslock := !k.capslock }
  | .numlock => { k with numlock := !k.numlock }
  | .scrolllock => { k with scrolllock := !k.scrolllock }

def Lock.shown (pkt : KeyPacket) : Lock → Bool
  | .capslock => pkt.capslock
  | .numlock => pkt.numlock
  | .scrolllock => pkt.scrolllock

/-- The physical key of a scancode: its low seven bits. -/
def keyOf (sc : BitVec 8) : ℕ := (sc &&& 0x7F#8).toNat

def isBreak (sc : BitVec 8) : Bool := sc &&& 0x80#8 != 0#8

def keyRole (key : ℕ) : Role := (set1ScancodeToKeycode key).role

def roleOf (sc : BitVec 8) : Role := keyRole (keyOf sc)

def press (held : ℕ → Bool) (sc : BitVec 8) : ℕ → Bool := Function.update held (keyOf sc) (!isBreak sc)

def heldKeys (scs : List (BitVec 8)) : ℕ → Bool := scs.foldl press (fun _ => false)

/-- Only a key that is up is made and only a key that is down is broken. -/
def alternates (held : ℕ → Bool) : List (BitVec 8) → Bool
  | [] => true
  | sc :: scs => (held (keyOf sc) == isBreak sc) && alternates (press held sc) scs

def isMake (l : Lock) (sc : BitVec 8) : Bool := !isBreak sc && decide (roleOf sc = .lock l)

def makes (l : Lock) (scs : List (BitVec 8)) : ℕ := scs.countP (isMake l)

def emitted (before : List (BitVec 8)) (sc : BitVec 8) : Option KeyPacket :=
  ((Keyboard.boot.keyboardHandler before).decode sc).2

/-- A packet after these scancodes carries the true modifier state. -/
def TrueState (before : List (BitVec 8)) (pkt : KeyPacket) : Prop :=
  (∀ m : Modifier, m.shown pkt = true ↔ ∃ key, keyRole key = .modifier m ∧ heldKeys before key = true) ∧
    ∀ l : Lock, l.shown pkt = decide (makes l before % 2 = 1)

def TruePackets (scs : List (BitVec 8)) : Prop :=
  ∀ before sc after pkt, scs = before ++ sc :: after → emitted before sc = some pkt → TrueState before pkt

/-- The last scancode of the modifier broke one of its keys while another one was down. -/
def Overlapped (m : Modifier) (scs : List (BitVec 8)) : Prop :=
  ∃ before sc after, scs = before ++ sc :: after ∧ roleOf sc = .modifier m ∧ isBreak sc = true ∧
    (∀ x ∈ after, roleOf x ≠ .modifier m) ∧
    ∃ key, key ≠ keyOf sc ∧ keyRole key = .modifier m ∧ heldKeys before key = true

namespace Keyboard

def packet (k : Keyboard) (sc : BitVec 8) : KeyPacket :=
  { keycode := set1ScancodeToKeycode (keyOf sc)
    pressed := !isBreak sc
    shift := k.shift
    ctrl := k.ctrl
    alt := k.alt
    capslock := k.capslock
    numlock := k.numlock
    scrolllock := k.scrolllock }

lemma keyOf_lt (sc : BitVec 8) : keyOf sc < 128 := by
  rw [keyOf, BitVec.toNat_and]
  exact Nat.lt_of_le_of_lt Nat.and_le_right (by decide)

lemma decode_role (k : Keyboard) (sc : BitVec 8) :
    k.decode sc =
      match roleOf sc with
      | .ignored => (k, none)
      | .modifier m => (m.put k (!isBreak sc), none)
      | .lock l => (if !isBreak sc then l.toggle k else k, none)
      | .ordinary => (k, some (k.packet sc)) := by
  have hlt : ¬ (sc &&& 0x7F#8).toNat ≥ 128 := Nat.not_le.mpr (keyOf_lt sc)
  simp only [decode, if_neg hlt, roleOf, keyRole, packet, keyOf]
  cases set1ScancodeToKeycode (sc &&& 0x7F#8).toNat <;> rfl

lemma flag_turn (m : Modifier) (k : Keyboard) (sc : BitVec 8) :
    m.flag (k.turn sc) = if roleOf sc = .modifier m then !isBreak sc else m.flag k := by
  rw [turn, decode_role]
  cases hr : roleOf sc with
  | ignored => simp
  | modifier n => cases m <;> cases n <;> simp [Modifier.put, Modifier.flag]
  | lock l => cases l <;> cases isBreak sc <;> cases m <;> simp [Lock.toggle, Modifier.flag]
  | ordinary =>
    simp only [bufferPush, reduceCtorEq, if_false]
    split
    · cases m <;> rfl
    · rfl

lemma lock_turn (l : Lock) (k : Keyboard) (sc : BitVec 8) :
    l.flag (k.turn sc) = (l.flag k ^^ isMake l sc) := by
  rw [turn, decode_role, isMake]
  cases hr : roleOf sc with
  | ignored => simp
  | modifier n => cases l <;> cases n <;> simp [Modifier.put, Lock.flag]
  | lock j => cases l <;> cases j <;> cases isBreak sc <;> simp [Lock.toggle, Lock.flag]
  | ordinary =>
    simp only [bufferPush, reduceCtorEq, decide_false, Bool.and_false, Bool.xor_false]
    split
    · cases l <;> rfl
    · rfl

lemma shown_packet (m : Modifier) (k : Keyboard) (sc : BitVec 8) : m.shown (k.packet sc) = m.flag k := by
  cases m <;> rfl

lemma lock_packet (l : Lock) (k : Keyboard) (sc : BitVec 8) : l.shown (k.packet sc) = l.flag k := by
  cases l <;> rfl

lemma keyboardHandler_append (k : Keyboard) (scs : List (BitVec 8)) (sc : BitVec 8) :
    k.keyboardHandler (scs ++ [sc]) = (k.keyboardHandler scs).turn sc := by
  rw [keyboardHandler, List.foldl_append]
  rfl

end Keyboard

open Keyboard

lemma emitted_eq (before : List (BitVec 8)) (sc : BitVec 8) :
    emitted before sc =
      if roleOf sc = .ordinary then some ((boot.keyboardHandler before).packet sc) else none := by
  rw [emitted, decode_role]
  cases roleOf sc <;> simp

lemma heldKeys_append (scs : List (BitVec 8)) (sc : BitVec 8) :
    heldKeys (scs ++ [sc]) = press (heldKeys scs) sc := by
  rw [heldKeys, List.foldl_append]
  rfl

lemma lock_parity (l : Lock) (scs : List (BitVec 8)) :
    l.flag (boot.keyboardHandler scs) = decide (makes l scs % 2 = 1) := by
  induction scs using List.reverseRecOn with
  | nil => cases l <;> rfl
  | append_singleton scs sc ih =>
    rw [keyboardHandler_append, lock_turn, ih, makes, makes, List.countP_append, List.countP_singleton]
    generalize List.countP (isMake l) scs = n
    cases isMake l sc with
    | false => simp
    | true =>
      simp only [Bool.xor_true, if_true]
      rcases Nat.mod_two_eq_zero_or_one n with h | h <;> simp [h, Nat.add_mod]

variable {m : Modifier} {scs : List (BitVec 8)} {sc : BitVec 8}

lemma press_modifier (hr : roleOf sc = .modifier m) (held : ℕ → Bool) :
    (∃ key, keyRole key = .modifier m ∧ press held sc key = true) ↔
      isBreak sc = false ∨ ∃ key, key ≠ keyOf sc ∧ keyRole key = .modifier m ∧ held key = true := by
  constructor
  · rintro ⟨key, hk, hh⟩
    by_cases he : key = keyOf sc
    · left
      rw [he, press, Function.update_self] at hh
      simpa using hh
    · right
      rw [press, Function.update_of_ne he] at hh
      exact ⟨key, he, hk, hh⟩
  · rintro (hb | ⟨key, he, hk, hh⟩)
    · exact ⟨keyOf sc, hr, by rw [press, Function.update_self, hb]; rfl⟩
    · exact ⟨key, hk, by rw [press, Function.update_of_ne he]; exact hh⟩

lemma press_other (hr : roleOf sc ≠ .modifier m) (held : ℕ → Bool) :
    (∃ key, keyRole key = .modifier m ∧ press held sc key = true) ↔
      ∃ key, keyRole key = .modifier m ∧ held key = true := by
  apply exists_congr
  intro key
  apply and_congr_right
  intro hk
  have he : key ≠ keyOf sc := by
    rintro rfl
    exact hr hk
  rw [press, Function.update_of_ne he]

lemma overlapped_modifier (hr : roleOf sc = .modifier m) :
    Overlapped m (scs ++ [sc]) ↔
      isBreak sc = true ∧ ∃ key, key ≠ keyOf sc ∧ keyRole key = .modifier m ∧ heldKeys scs key = true := by
  constructor
  · rintro ⟨before, x, after, he, hx, hb, ha, hk⟩
    induction after using List.reverseRecOn with
    | nil =>
      obtain ⟨rfl, h⟩ := List.append_inj' he rfl
      cases h
      exact ⟨hb, hk⟩
    | append_singleton after y =>
      rw [← List.cons_append, ← List.append_assoc] at he
      have hy := (List.append_inj' he rfl).2
      cases hy
      exact absurd hr (ha sc (by simp))
  · rintro ⟨hb, hk⟩
    exact ⟨scs, sc, [], rfl, hr, hb, by simp, hk⟩

lemma overlapped_other (hr : roleOf sc ≠ .modifier m) : Overlapped m (scs ++ [sc]) ↔ Overlapped m scs := by
  constructor
  · rintro ⟨before, x, after, he, hx, hb, ha, hk⟩
    induction after using List.reverseRecOn with
    | nil =>
      have h := (List.append_inj' he rfl).2
      cases h
      exact absurd hx hr
    | append_singleton after y =>
      rw [← List.cons_append, ← List.append_assoc] at he
      have h := (List.append_inj' he rfl).1
      exact ⟨before, x, after, h, hx, hb, fun z hz => ha z (by simp [hz]), hk⟩
  · rintro ⟨before, x, after, rfl, hx, hb, ha, hk⟩
    refine ⟨before, x, after ++ [sc], by simp, hx, hb, fun z hz => ?_, hk⟩
    rcases List.mem_append.mp hz with hz | hz
    · exact ha z hz
    · rwa [List.mem_singleton.mp hz]

lemma flag_held (m : Modifier) (scs : List (BitVec 8)) :
    (∃ key, keyRole key = .modifier m ∧ heldKeys scs key = true) ↔
      m.flag (boot.keyboardHandler scs) = true ∨ Overlapped m scs := by
  induction scs using List.reverseRecOn with
  | nil => cases m <;> simp [heldKeys, keyboardHandler, boot, Modifier.flag, Overlapped]
  | append_singleton scs sc ih =>
    rw [heldKeys_append, keyboardHandler_append, flag_turn]
    by_cases hr : roleOf sc = .modifier m
    · rw [press_modifier hr, overlapped_modifier hr, if_pos hr]
      cases isBreak sc <;> simp
    · rw [press_other hr, overlapped_other hr, if_neg hr, ih]

lemma not_overlapped_of_flag (h : m.flag (boot.keyboardHandler scs) = true) : ¬ Overlapped m scs := by
  induction scs using List.reverseRecOn with
  | nil => simp [Overlapped]
  | append_singleton scs sc ih =>
    rw [keyboardHandler_append, flag_turn] at h
    by_cases hr : roleOf sc = .modifier m
    · rw [if_pos hr] at h
      rw [overlapped_modifier hr]
      rintro ⟨hb, -⟩
      simp [hb] at h
    · rw [if_neg hr] at h
      rw [overlapped_other hr]
      exact ih h

/-- The packets carry the true modifier state if and only if none is emitted between an overlapping
release of a modifier's key and the modifier's next scancode. -/
theorem packets_state (scs : List (BitVec 8)) :
    TruePackets scs ↔
      ∀ before sc after, scs = before ++ sc :: after → roleOf sc = .ordinary → ∀ m, ¬ Overlapped m before := by
  constructor
  · intro h before sc after he hr m ho
    have hpkt := emitted_eq before sc
    rw [if_pos hr] at hpkt
    obtain ⟨hm, -⟩ := h before sc after _ he hpkt
    have hflag := (hm m).mpr ((flag_held m before).mpr (.inr ho))
    rw [shown_packet] at hflag
    exact not_overlapped_of_flag hflag ho
  · intro h before sc after pkt he hpkt
    rw [emitted_eq] at hpkt
    by_cases hr : roleOf sc = .ordinary
    · rw [if_pos hr] at hpkt
      cases hpkt
      constructor
      · intro m
        rw [shown_packet, flag_held m before]
        exact (or_iff_left (h before sc after he hr m)).symm
      · intro l
        rw [lock_packet, lock_parity]
    · rw [if_neg hr] at hpkt
      cases hpkt

/-- Left shift down, right shift down, right shift up, then `a`. -/
theorem packets_state_overlap :
    alternates (fun _ => false) [0x2A#8, 0x36#8, 0xB6#8, 0x1E#8] = true ∧
      ¬ TruePackets [0x2A#8, 0x36#8, 0xB6#8, 0x1E#8] := by
  refine ⟨by decide, fun h => ?_⟩
  obtain ⟨hm, -⟩ := h [0x2A#8, 0x36#8, 0xB6#8] 0x1E#8 [] _ rfl rfl
  have hshift := (hm .shift).mpr ⟨0x2A, by decide, by decide⟩
  exact absurd hshift (by decide)

end Veni.Drivers

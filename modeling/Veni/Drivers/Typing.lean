import Veni.Drivers.KeyAscii

/-! Text typed on a US keyboard, from the scancodes of its keys to the characters that a reader of the
key queue gets. -/

namespace Veni.Drivers

open Veni.Lib.RingQueue Veni.Lib.Transition Keyboard

/-- Keys with scancodes in a row, and what they type without and with shift. -/
structure KeyRow where
  start : ℕ
  plain : List Char
  shifted : List Char

def usRows : List KeyRow :=
  [⟨0x02, ['1', '2', '3', '4', '5', '6', '7', '8', '9', '0', '-', '='],
      ['!', '@', '#', '$', '%', '^', '&', '*', '(', ')', '_', '+']⟩,
    ⟨0x10, ['q', 'w', 'e', 'r', 't', 'y', 'u', 'i', 'o', 'p', '[', ']', '\n'],
      ['Q', 'W', 'E', 'R', 'T', 'Y', 'U', 'I', 'O', 'P', '\x7b', '\x7d', '\n']⟩,
    ⟨0x1E, ['a', 's', 'd', 'f', 'g', 'h', 'j', 'k', 'l', ';', '\'', '\x60'],
      ['A', 'S', 'D', 'F', 'G', 'H', 'J', 'K', 'L', ':', '\x22', '~']⟩,
    ⟨0x2B, ['\\', 'z', 'x', 'c', 'v', 'b', 'n', 'm', ',', '.', '/'],
      ['|', 'Z', 'X', 'C', 'V', 'B', 'N', 'M', '<', '>', '?']⟩,
    ⟨0x39, [' '], [' ']⟩]

def usLayout (shift : Bool) (key : ℕ) : Option Char :=
  usRows.findSome? fun r =>
    if r.start ≤ key then (if shift then r.shifted else r.plain)[key - r.start]? else none

/-- Scancodes that type a text, from one state of shift to another: a key is made while the shift keys
are as its character needs it; one shift key at a time is made and broken; the other keys come and go as
they like, but for the key that the table has for caps lock and the one for F12. -/
inductive Types : Bool → List (BitVec 8) → List Char → Bool → Prop
  | nil (b : Bool) : Types b [] [] b
  | press {b b' : Bool} {sc : BitVec 8} {scs : List (BitVec 8)} {c : Char} {cs : List Char}
      (hmake : isBreak sc = false) (hc : usLayout b (keyOf sc) = some c) (h : Types b scs cs b') :
      Types b (sc :: scs) (c :: cs) b'
  | shift {b' : Bool} {sc : BitVec 8} {scs : List (BitVec 8)} {cs : List Char}
      (hkey : keyOf sc = 0x2A ∨ keyOf sc = 0x36) (h : Types (!isBreak sc) scs cs b') :
      Types (isBreak sc) (sc :: scs) cs b'
  | other {b b' : Bool} {sc : BitVec 8} {scs : List (BitVec 8)} {cs : List Char}
      (hkey : keyOf sc ≠ 0x2A ∧ keyOf sc ≠ 0x36 ∧ keyOf sc ≠ 0x3B ∧ keyOf sc ≠ 0x59)
      (hsilent : isBreak sc = true ∨ usLayout b (keyOf sc) = none) (h : Types b scs cs b') :
      Types b (sc :: scs) cs b'

def character (pkt : KeyPacket) : Option Char := (keyToAscii pkt).filter fun c => c != '\x00'

def Event.scancodes : Event → List (BitVec 8)
  | .interrupt scs => scs
  | _ => []

lemma Types.split {b b' : Bool} {xs ys : List (BitVec 8)} {cs : List Char}
    (h : Types b (xs ++ ys) cs b') :
    ∃ c as bs, cs = as ++ bs ∧ Types b xs as c ∧ Types c ys bs b' := by
  induction xs generalizing b cs with
  | nil => exact ⟨b, [], cs, rfl, .nil b, h⟩
  | cons x xs ih =>
    cases h with
    | press hmake hc h =>
      obtain ⟨c, as, bs, rfl, hxs, hys⟩ := ih h
      exact ⟨c, _ :: as, bs, rfl, .press hmake hc hxs, hys⟩
    | shift hkey h =>
      obtain ⟨c, as, bs, rfl, hxs, hys⟩ := ih h
      exact ⟨c, as, bs, rfl, .shift hkey hxs, hys⟩
    | other hkey hsilent h =>
      obtain ⟨c, as, bs, rfl, hxs, hys⟩ := ih h
      exact ⟨c, as, bs, rfl, .other hkey hsilent hxs, hys⟩

lemma layout_tables : ∀ key < 128, ∀ b : Bool, (usLayout b key).all fun c =>
    decide (keyRole key = .ordinary ∧
      character ⟨set1ScancodeToKeycode key, true, b, false, false, false, false, false⟩ = some c) := by
  decide +kernel

lemma silent_tables : ∀ key < 128, ∀ b : Bool, keyRole key = .ordinary → key ≠ 0x59 →
    usLayout b key = none →
      character ⟨set1ScancodeToKeycode key, true, b, false, false, false, false, false⟩ = none := by
  decide +kernel

lemma shift_keys : ∀ key < 128, keyRole key = .modifier .shift ↔ key = 0x2A ∨ key = 0x36 := by
  decide +kernel

lemma caps_key : ∀ key < 128, keyRole key = .lock .capslock ↔ key = 0x3B := by
  decide +kernel

lemma character_packet {k : Keyboard} (hcaps : k.capslock = false) (sc : BitVec 8) :
    character (k.packet sc) = character
      ⟨set1ScancodeToKeycode (keyOf sc), !isBreak sc, k.shift, false, false, false, false, false⟩ := by
  simp only [character, keyToAscii, packet, hcaps]

/-- The key of a character, and whether it needs shift. -/
def keyFor (c : Char) : Option (Bool × ℕ) :=
  (List.range 128).findSome? fun key =>
    if usLayout false key = some c then some (false, key)
    else if usLayout true key = some c then some (true, key)
    else none

def strokes (text : List Char) : List (BitVec 8) :=
  text.flatMap fun c =>
    match keyFor c with
    | some (false, key) => [BitVec.ofNat 8 key, BitVec.ofNat 8 (key + 128)]
    | some (true, key) => [0x2A#8, BitVec.ofNat 8 key, BitVec.ofNat 8 (key + 128), 0xAA#8]
    | none => []

def printable : List Char := '\n' :: (List.range 95).map fun i => Char.ofNat (32 + i)

lemma keyFor_printable : printable.all (fun c => (keyFor c).any fun p =>
    decide (p.2 < 128 ∧ usLayout p.1 p.2 = some c ∧ p.2 ≠ 0x2A ∧ p.2 ≠ 0x36 ∧ p.2 ≠ 0x3B ∧
      p.2 ≠ 0x59)) = true := by
  decide +kernel

lemma scancode_key : ∀ key < 128, keyOf (BitVec.ofNat 8 key) = key ∧
    keyOf (BitVec.ofNat 8 (key + 128)) = key ∧ isBreak (BitVec.ofNat 8 key) = false ∧
      isBreak (BitVec.ofNat 8 (key + 128)) = true := by
  decide +kernel

lemma types_strokes {text : List Char} (h : ∀ c ∈ text, c ∈ printable) :
    Types false (strokes text) text false := by
  induction text with
  | nil => exact .nil false
  | cons c text ih =>
    have hrest := ih fun c hc => h c (List.mem_cons_of_mem _ hc)
    have hkey := List.all_eq_true.mp keyFor_printable c (h c List.mem_cons_self)
    rw [strokes, List.flatMap_cons, ← strokes]
    cases hk : keyFor c with
    | none =>
      rw [hk] at hkey
      cases hkey
    | some p =>
      obtain ⟨b, key⟩ := p
      rw [hk] at hkey
      obtain ⟨hlt, hc, hother⟩ := of_decide_eq_true hkey
      obtain ⟨hmake, hbreak, hdown, hup⟩ := scancode_key key hlt
      have hpress : ∀ {scs : List (BitVec 8)}, Types b scs text false →
          Types b (BitVec.ofNat 8 key :: BitVec.ofNat 8 (key + 128) :: scs) (c :: text) false :=
        fun ht => .press hdown (hmake.symm ▸ hc) (.other (hbreak.symm ▸ hother) (.inl hup) ht)
      cases b with
      | false => exact hpress hrest
      | true =>
        have hunshift : Types true (0xAA#8 :: strokes text) text false :=
          @Types.shift _ 0xAA#8 _ _ (.inl rfl) hrest
        exact @Types.shift _ 0x2A#8 _ _ (.inl rfl) (hpress hunshift)

namespace System

variable {s t : System} {sc : BitVec 8}

lemma turn_ordinary (hr : roleOf sc = .ordinary) (hd : (s.turn sc).dropped = []) :
    (s.turn sc).accepted = s.accepted ++ [s.keyboard.packet sc] := by
  rw [turn, decode_role, hr] at hd ⊢
  simp only at hd ⊢
  split
  · rfl
  · next hfull =>
    rw [if_neg hfull] at hd
    simp at hd

lemma turn_silent (hr : roleOf sc ≠ .ordinary) : (s.turn sc).accepted = s.accepted := by
  rw [turn, decode_role]
  cases h : roleOf sc with
  | ordinary => exact absurd h hr
  | _ => rfl

lemma dropped_turn (h : (s.turn sc).dropped = []) : s.dropped = [] := by
  revert h
  rw [turn]
  split
  · exact id
  · split
    · exact id
    · exact fun h => (List.append_eq_nil_iff.mp h).1

lemma dropped_interrupt {scs : List (BitVec 8)} (h : (scs.foldl turn s).dropped = []) :
    s.dropped = [] := by
  induction scs generalizing s with
  | nil => exact h
  | cons sc scs ih => exact dropped_turn (ih h)

lemma shift_turn : (s.turn sc).keyboard.shift =
    if roleOf sc = .modifier .shift then !isBreak sc else s.keyboard.shift := by
  rw [turn_keyboard]
  exact flag_turn .shift s.keyboard sc

lemma caps_turn (hkey : keyOf sc ≠ 0x3B) (hcaps : s.keyboard.capslock = false) :
    (s.turn sc).keyboard.capslock = false := by
  have hmake : isMake .capslock sc = false := by
    rw [isMake, roleOf, decide_eq_false fun h => hkey ((caps_key _ (keyOf_lt sc)).mp h), Bool.and_false]
  have hturn := lock_turn .capslock s.keyboard sc
  rw [hmake, Bool.xor_false] at hturn
  rw [turn_keyboard]
  exact hturn.trans hcaps

lemma typed_interrupt {b b' : Bool} {scs : List (BitVec 8)} {cs : List Char} (h : Types b scs cs b')
    (hb : s.keyboard.shift = b) (hcaps : s.keyboard.capslock = false)
    (hd : (scs.foldl turn s).dropped = []) :
    (scs.foldl turn s).accepted.filterMap character = s.accepted.filterMap character ++ cs ∧
      (scs.foldl turn s).keyboard.shift = b' ∧ (scs.foldl turn s).keyboard.capslock = false := by
  induction h generalizing s with
  | nil b => exact ⟨(List.append_nil _).symm, hb, hcaps⟩
  | @press b b' sc scs c cs hmake hc h ih =>
    have htable := layout_tables _ (keyOf_lt sc) b
    rw [hc] at htable
    obtain ⟨hrole, hchar⟩ := of_decide_eq_true htable
    have hkey : keyOf sc ≠ 0x3B := by
      intro he
      rw [(caps_key _ (keyOf_lt sc)).mpr he] at hrole
      cases hrole
    have hnext : (s.turn sc).keyboard.shift = b := by
      rw [shift_turn, roleOf, hrole]
      exact hb
    obtain ⟨hread, hend⟩ := ih hnext (caps_turn hkey hcaps) hd
    refine ⟨?_, hend⟩
    rw [List.foldl_cons, hread, turn_ordinary hrole (dropped_interrupt hd), List.filterMap_append,
      List.append_assoc]
    congr 1
    rw [List.filterMap_cons, character_packet hcaps, hmake, hb, Bool.not_false, hchar]
    rfl
  | @shift b' sc scs cs hkey h ih =>
    have hrole : roleOf sc = .modifier .shift := (shift_keys _ (keyOf_lt sc)).mpr hkey
    have hnext : (s.turn sc).keyboard.shift = !isBreak sc := by
      rw [shift_turn, if_pos hrole]
    obtain ⟨hread, hend⟩ := ih hnext (caps_turn (by omega) hcaps) hd
    refine ⟨?_, hend⟩
    rw [List.foldl_cons, hread, turn_silent (by rw [hrole]; decide)]
  | @other b b' sc scs cs hkey hsilent h ih =>
    have hrole : roleOf sc ≠ .modifier .shift := by
      intro hr
      have hshift := (shift_keys _ (keyOf_lt sc)).mp hr
      omega
    have hnext : (s.turn sc).keyboard.shift = b := by
      rw [shift_turn, if_neg hrole, hb]
    obtain ⟨hread, hend⟩ := ih hnext (caps_turn hkey.2.2.1 hcaps) hd
    refine ⟨?_, hend⟩
    rw [List.foldl_cons, hread]
    congr 1
    by_cases hr : roleOf sc = .ordinary
    · have hnone : character (s.keyboard.packet sc) = none := by
        rw [character_packet hcaps]
        cases hbreak : isBreak sc with
        | true => rfl
        | false =>
          have hlayout := hsilent.resolve_left (by rw [hbreak]; decide)
          rw [hb]
          exact silent_tables _ (keyOf_lt sc) b hr hkey.2.2.2 hlayout
      rw [turn_ordinary hr (dropped_interrupt hd), List.filterMap_append, List.filterMap_cons, hnone]
      exact List.append_nil _
    · rw [turn_silent hr]

lemma quiet_keeps {e : Event} (hs : Step s e t) (hq : e.quiet = true) :
    t.accepted = s.accepted ∧ t.dropped = s.dropped ∧ t.keyboard.shift = s.keyboard.shift ∧
      t.keyboard.capslock = s.keyboard.capslock := by
  refine ⟨quiet_accepted hs hq, ?_⟩
  cases e with
  | interrupt scs => cases hq
  | call c =>
    simp only [Step, next] at hs
    split at hs
    · cases hs
      exact ⟨rfl, rfl, rfl⟩
    · cases hs
  | read =>
    have hread : s.readerStep = some t := hs
    unfold readerStep at hread
    cases hr : s.reader <;> rw [hr] at hread <;> cases hread <;> exact ⟨rfl, rfl, rfl⟩

lemma dropped_run {es : List Event} (h : Run Step s es t) (hd : t.dropped = []) : s.dropped = [] := by
  induction h with
  | nil => exact hd
  | @cons s u t e es hs _ ih =>
    have hu := ih hd
    cases e with
    | interrupt scs =>
      cases hs
      exact dropped_interrupt hu
    | call c => exact (quiet_keeps hs rfl).2.1.symm.trans hu
    | read => exact (quiet_keeps hs rfl).2.1.symm.trans hu

lemma typed_run {es : List Event} (h : Run Step s es t) {b b' : Bool} {cs : List Char}
    (htyped : Types b (es.flatMap Event.scancodes) cs b') (hb : s.keyboard.shift = b)
    (hcaps : s.keyboard.capslock = false) (hd : t.dropped = []) :
    t.accepted.filterMap character = s.accepted.filterMap character ++ cs := by
  induction h generalizing b cs with
  | nil =>
    cases htyped
    exact (List.append_nil _).symm
  | @cons s u t e es hs hrun ih =>
    have hu := dropped_run hrun hd
    have hquiet : e.quiet = true → Types b (es.flatMap Event.scancodes) cs b' →
        t.accepted.filterMap character = s.accepted.filterMap character ++ cs := by
      intro hq htyped
      obtain ⟨haccepted, -, hshift, hlock⟩ := quiet_keeps hs hq
      rw [← haccepted]
      exact ih htyped (hshift.trans hb) (hlock.trans hcaps) hd
    cases e with
    | interrupt scs =>
      obtain ⟨c, as, bs, rfl, hnow, hlater⟩ := htyped.split
      cases hs
      change Types b scs as c at hnow
      obtain ⟨hread, hshift, hlock⟩ := typed_interrupt hnow hb hcaps hu
      rw [ih hlater hshift hlock hd, hread, List.append_assoc]
    | call c => exact hquiet rfl htyped
    | read => exact hquiet rfl htyped

def Within (n : ℕ) (s : System) : Prop :=
  s.accepted.length + s.dropped.length ≤ n ∧ (s.dropped ≠ [] → 127 ≤ s.accepted.length)

lemma Within.turn {n : ℕ} (h : Within n s) (hinv : Inv s) : Within (n + 1) (s.turn sc) := by
  have hnext := hinv.turn sc
  obtain ⟨hle, hfull⟩ := h
  revert hnext
  rw [System.turn]
  split
  · exact fun _ => ⟨Nat.le_succ_of_le hle, hfull⟩
  · split
    · intro _
      refine ⟨?_, fun hd => ?_⟩
      · simp only [List.length_append, List.length_singleton]
        omega
      · simp only [List.length_append, List.length_singleton]
        exact Nat.le_succ_of_le (hfull hd)
    · intro hnext
      have hlast := hnext.dropped (s.accepted.length - s.updates) (by simp)
      refine ⟨?_, fun _ => ?_⟩
      · simp only [List.length_append, List.length_singleton]
        omega
      · simp only
        omega

lemma Within.interrupt {n : ℕ} {scs : List (BitVec 8)} (h : Within n s) (hinv : Inv s) :
    Within (n + scs.length) (scs.foldl System.turn s) := by
  induction scs generalizing s n with
  | nil => exact h
  | cons sc scs ih =>
    rw [List.length_cons, Nat.add_comm scs.length, ← Nat.add_assoc]
    exact ih (h.turn hinv) (hinv.turn sc)

lemma Within.run {n : ℕ} {es : List Event} (hr : Run Step s es t) (h : Within n s) (hinv : Inv s) :
    Within (n + (es.flatMap Event.scancodes).length) t := by
  induction hr generalizing n with
  | nil => exact h
  | @cons s u t e es hs _ ih =>
    rw [List.flatMap_cons, List.length_append, ← Nat.add_assoc]
    refine ih ?_ (hinv.step hs)
    have hquiet : e.quiet = true → Within (n + 0) u := by
      intro hq
      obtain ⟨haccepted, hdropped, -⟩ := quiet_keeps hs hq
      rw [Within, haccepted, hdropped]
      exact h
    cases e with
    | interrupt scs =>
      cases hs
      exact h.interrupt hinv
    | call c => exact hquiet rfl
    | read => exact hquiet rfl

lemma none_dropped {es : List Event} (h : Run Step boot es s)
    (hle : (es.flatMap Event.scancodes).length ≤ 127) : s.dropped = [] := by
  obtain ⟨hbound, hfull⟩ := Within.run h (n := 0) ⟨Nat.le_refl 0, fun hd => absurd rfl hd⟩ inv_boot
  by_contra hd
  have hpos := List.length_pos_iff.mpr hd
  have hmany := hfull hd
  omega

/-- Whatever way a text is typed, in every interleaving of the interrupts that bring its scancodes,
however many at a time, with the steps of a reader: what the reader has got and what is still queued
read as the text, if no packet was dropped; and none is among 127 scancodes, however slow the reader. -/
theorem typing_read {es : List Event} {s : System} (h : Run Step boot es s) {text : List Char}
    {b : Bool} (htyped : Types false (es.flatMap Event.scancodes) text b)
    (hroom : s.dropped = [] ∨ (es.flatMap Event.scancodes).length ≤ 127) :
    s.returned.filterMap character ++ s.keyboard.pending.filterMap character = text := by
  have hinv : Inv s := h.invariant (fun _ _ _ hs hstep => hs.step hstep) inv_boot
  have hd : s.dropped = [] := hroom.elim id (none_dropped h)
  have hread := typed_run h htyped rfl rfl hd
  rw [← List.filterMap_append, ← hinv.ledger]
  exact hread

def noteText : List Char := ['G', 'o', '!', '\n']

def noteEvents : List Event :=
  [.interrupt ((strokes noteText).take 2), .call .keyboardReadkey, .read, .read, .read,
    .interrupt ((strokes noteText).drop 2), .read]

theorem typing_read_note :
    ∃ s, noteEvents.foldlM next boot = some s ∧
      s.returned.filterMap character ++ s.keyboard.pending.filterMap character = noteText := by
  have hruns : (noteEvents.foldlM next boot).isSome := by decide +kernel
  obtain ⟨s, hs⟩ := Option.isSome_iff_exists.mp hruns
  have hcodes : noteEvents.flatMap Event.scancodes = strokes noteText := by decide +kernel
  have hprintable : noteText.all printable.contains = true := by decide +kernel
  refine ⟨s, hs, typing_read (Run.of_foldlM hs) (b := false) ?_ (.inr ?_)⟩
  · rw [hcodes]
    exact types_strokes fun c hc => List.contains_iff_mem.mp (List.all_eq_true.mp hprintable c hc)
  · rw [hcodes]
    decide +kernel

end System

end Veni.Drivers

import Veni.Drivers.Keyboard
import Veni.Lib.RingQueue
import Veni.Lib.Transition

/-! The key queue between `keyboard_handler` and a reader that it interrupts. -/

namespace Veni.Drivers

open Veni.Lib Veni.Lib.RingQueue Veni.Lib.Transition

/-- Where a reader stands: before a test of `buffer_empty`, an `io_wait`, the read of the slot, or the
update of the tail. -/
inductive Reader
  | idle
  | available
  | readkey
  | getkey
  | getkeyWait
  | pop
  | popWait
  | popRead
  | popUpdate (pkt : KeyPacket)
  deriving DecidableEq

inductive Call
  | keyboardAvailable
  | keyboardReadkey
  | keyboardGetkey
  | bufferPop

def Call.entry : Call → Reader
  | .keyboardAvailable => .available
  | .keyboardReadkey => .readkey
  | .keyboardGetkey => .getkey
  | .bufferPop => .pop

/-- The driver and its reader, with the history: the packets that `buffer_push` accepted, those that
pops returned, the number of tail updates, and for each packet dropped the number of accepted ones
without a tail update. -/
structure System where
  keyboard : Keyboard
  reader : Reader
  accepted : List KeyPacket
  returned : List KeyPacket
  updates : ℕ
  dropped : List ℕ

inductive Event
  | interrupt (scs : List (BitVec 8))
  | call (c : Call)
  | read

namespace System

def boot : System := ⟨.boot, .idle, [], [], 0, []⟩

def turn (s : System) (sc : BitVec 8) : System :=
  match s.keyboard.decode sc with
  | (k, none) => { s with keyboard := k }
  | (k, some pkt) =>
    if (k.bufferHead + 1) % bufferSize ≠ k.bufferTail then
      { s with keyboard := k.bufferPush pkt, accepted := s.accepted ++ [pkt] }
    else
      { s with
        keyboard := k.bufferPush pkt
        dropped := s.dropped ++ [s.accepted.length - s.updates] }

def readerStep (s : System) : Option System :=
  match s.reader with
  | .idle => none
  | .available => some { s with reader := .idle }
  | .readkey => some { s with reader := if s.keyboard.bufferEmpty then .idle else .pop }
  | .getkey => some { s with reader := if s.keyboard.bufferEmpty then .getkeyWait else .pop }
  | .getkeyWait => some { s with reader := .getkey }
  | .pop => some { s with reader := if s.keyboard.bufferEmpty then .idle else .popWait }
  | .popWait => some { s with reader := .popRead }
  | .popRead => some { s with reader := .popUpdate (s.keyboard.buffer s.keyboard.bufferTail) }
  | .popUpdate pkt =>
    some
      { s with
        keyboard := { s.keyboard with bufferTail := (s.keyboard.bufferTail + 1) % bufferSize }
        reader := .idle
        returned := s.returned ++ [pkt]
        updates := s.updates + 1 }

def next (s : System) : Event → Option System
  | .interrupt scs => some (scs.foldl turn s)
  | .call c => if s.reader = .idle then some { s with reader := c.entry } else none
  | .read => s.readerStep

def Step (s : System) (e : Event) (t : System) : Prop := s.next e = some t

end System

def Keyboard.pending (k : Keyboard) : List KeyPacket :=
  queued bufferSize k.buffer k.bufferHead k.bufferTail

namespace System

lemma turn_keyboard (s : System) (sc : BitVec 8) : (s.turn sc).keyboard = s.keyboard.turn sc := by
  rw [turn, Keyboard.turn]
  cases s.keyboard.decode sc with
  | mk k pkt =>
    cases pkt with
    | none => rfl
    | some pkt =>
      simp only
      split
      · rfl
      · rfl

lemma interrupt_keyboard (s : System) (scs : List (BitVec 8)) :
    (scs.foldl turn s).keyboard = s.keyboard.keyboardHandler scs := by
  induction scs generalizing s with
  | nil => rfl
  | cons sc scs ih =>
    rw [List.foldl_cons, ih, turn_keyboard]
    rfl

def Expects (xs : List KeyPacket) : Reader → Prop
  | .popWait | .popRead => xs ≠ []
  | .popUpdate pkt => xs.head? = some pkt
  | _ => True

structure Inv (s : System) : Prop where
  head_lt : s.keyboard.bufferHead < bufferSize
  tail_lt : s.keyboard.bufferTail < bufferSize
  ledger : s.accepted = s.returned ++ s.keyboard.pending
  updates_eq : s.updates = s.returned.length
  dropped : ∀ n ∈ s.dropped, n = 127
  expects : Expects s.keyboard.pending s.reader

lemma Expects.append {xs : List KeyPacket} {r : Reader} (h : Expects xs r) (pkt : KeyPacket) :
    Expects (xs ++ [pkt]) r := by
  cases r with
  | popWait => simp [Expects]
  | popRead => simp [Expects]
  | popUpdate q =>
    simp only [Expects] at h ⊢
    rw [List.head?_append, h]
    rfl
  | _ => trivial

lemma decode_ring (k : Keyboard) (sc : BitVec 8) :
    (k.decode sc).1.buffer = k.buffer ∧ (k.decode sc).1.bufferHead = k.bufferHead ∧
      (k.decode sc).1.bufferTail = k.bufferTail := by
  simp only [Keyboard.decode]
  split
  · exact ⟨rfl, rfl, rfl⟩
  · split <;> first | exact ⟨rfl, rfl, rfl⟩ | (split <;> exact ⟨rfl, rfl, rfl⟩)

lemma Inv.congr {s : System} {k : Keyboard} (h : Inv s) (hb : k.buffer = s.keyboard.buffer)
    (hh : k.bufferHead = s.keyboard.bufferHead) (ht : k.bufferTail = s.keyboard.bufferTail) :
    Inv { s with keyboard := k } := by
  have hpending : k.pending = s.keyboard.pending := by
    simp only [Keyboard.pending, hb, hh, ht]
  refine ⟨?_, ?_, ?_, h.updates_eq, h.dropped, ?_⟩
  · exact hh ▸ h.head_lt
  · exact ht ▸ h.tail_lt
  · exact hpending ▸ h.ledger
  · exact hpending ▸ h.expects

lemma Inv.push {s : System} (h : Inv s) (pkt : KeyPacket) :
    Inv (if (s.keyboard.bufferHead + 1) % bufferSize ≠ s.keyboard.bufferTail then
      { s with keyboard := s.keyboard.bufferPush pkt, accepted := s.accepted ++ [pkt] }
    else
      { s with
        keyboard := s.keyboard.bufferPush pkt
        dropped := s.dropped ++ [s.accepted.length - s.updates] }) := by
  have hh := h.head_lt
  have ht := h.tail_lt
  by_cases hroom : (s.keyboard.bufferHead + 1) % bufferSize ≠ s.keyboard.bufferTail
  · have hpending : (s.keyboard.bufferPush pkt).pending = s.keyboard.pending ++ [pkt] := by
      simp only [Keyboard.bufferPush, Keyboard.pending, if_pos hroom]
      exact queued_push pkt hh ht hroom
    rw [if_pos hroom]
    refine ⟨?_, ?_, ?_, h.updates_eq, h.dropped, ?_⟩
    · simp only [Keyboard.bufferPush, if_pos hroom]
      exact Nat.mod_lt _ (by decide)
    · simp only [Keyboard.bufferPush, if_pos hroom]
      exact ht
    · simp only [hpending, h.ledger, List.append_assoc]
    · simp only [hpending]
      exact h.expects.append pkt
  · have hsame : s.keyboard.bufferPush pkt = s.keyboard := by
      simp only [Keyboard.bufferPush, if_neg hroom]
    rw [if_neg hroom, hsame]
    refine ⟨hh, ht, h.ledger, h.updates_eq, fun n hn => ?_, h.expects⟩
    rcases List.mem_append.mp hn with hn | hn
    · exact h.dropped n hn
    · have hfull := (count_full hh ht).mp (not_not.mp hroom)
      have hlength := congrArg List.length h.ledger
      rw [List.length_append, Keyboard.pending, length_queued] at hlength
      rw [List.mem_singleton.mp hn, h.updates_eq]
      simp only [bufferSize] at hfull hlength
      omega

lemma Inv.turn {s : System} (h : Inv s) (sc : BitVec 8) : Inv (s.turn sc) := by
  obtain ⟨hb, hh, ht⟩ := decode_ring s.keyboard sc
  simp only [System.turn]
  split <;> rename_i k hk
  · rw [hk] at hb hh ht
    exact h.congr hb hh ht
  · rw [hk] at hb hh ht
    exact (h.congr hb hh ht).push _

lemma Inv.interrupt {s : System} (h : Inv s) (scs : List (BitVec 8)) : Inv (scs.foldl System.turn s) := by
  induction scs generalizing s with
  | nil => exact h
  | cons sc scs ih => exact ih (h.turn sc)

lemma Inv.pending_ne_nil {s : System} (h : Inv s) (he : s.keyboard.bufferEmpty = false) :
    s.keyboard.pending ≠ [] := by
  intro hnil
  have heq := (queued_eq_nil h.head_lt h.tail_lt).mp hnil
  simp [Keyboard.bufferEmpty, heq] at he

lemma Inv.pending_eq {s : System} (h : Inv s) (hne : s.keyboard.pending ≠ []) :
    s.keyboard.pending = s.keyboard.buffer s.keyboard.bufferTail ::
      queued bufferSize s.keyboard.buffer s.keyboard.bufferHead
        ((s.keyboard.bufferTail + 1) % bufferSize) := by
  apply queued_pop h.head_lt h.tail_lt
  intro heq
  exact hne ((queued_eq_nil h.head_lt h.tail_lt).mpr heq)

lemma Inv.update {s : System} (h : Inv s) {pkt : KeyPacket} (hr : s.reader = .popUpdate pkt) :
    Inv
      { s with
        keyboard := { s.keyboard with bufferTail := (s.keyboard.bufferTail + 1) % bufferSize }
        reader := .idle
        returned := s.returned ++ [pkt]
        updates := s.updates + 1 } := by
  have hexp := h.expects
  rw [hr] at hexp
  have hne : s.keyboard.pending ≠ [] := by
    intro hnil
    rw [hnil] at hexp
    cases hexp
  have hpending := h.pending_eq hne
  rw [hpending] at hexp
  cases hexp
  refine ⟨h.head_lt, Nat.mod_lt _ (by decide), ?_, ?_, h.dropped, trivial⟩
  · rw [List.append_assoc]
    exact h.ledger.trans (congrArg _ hpending)
  · simp [h.updates_eq]

lemma Inv.read {s t : System} (h : Inv s) (hs : s.readerStep = some t) : Inv t := by
  have hmove : ∀ r, Expects s.keyboard.pending r → Inv { s with reader := r } :=
    fun r hr => ⟨h.head_lt, h.tail_lt, h.ledger, h.updates_eq, h.dropped, hr⟩
  have hexp := h.expects
  unfold readerStep at hs
  cases hr : s.reader with
  | idle => simp [hr] at hs
  | available =>
    simp only [hr, Option.some.injEq] at hs
    exact hs ▸ hmove _ trivial
  | readkey =>
    simp only [hr, Option.some.injEq] at hs
    exact hs ▸ hmove _ (by split <;> trivial)
  | getkey =>
    simp only [hr, Option.some.injEq] at hs
    exact hs ▸ hmove _ (by split <;> trivial)
  | getkeyWait =>
    simp only [hr, Option.some.injEq] at hs
    exact hs ▸ hmove _ trivial
  | pop =>
    simp only [hr, Option.some.injEq] at hs
    subst hs
    apply hmove
    cases he : s.keyboard.bufferEmpty with
    | true => trivial
    | false => exact h.pending_ne_nil he
  | popWait =>
    rw [hr] at hexp
    simp only [hr, Option.some.injEq] at hs
    exact hs ▸ hmove _ hexp
  | popRead =>
    rw [hr] at hexp
    simp only [hr, Option.some.injEq] at hs
    subst hs
    apply hmove
    rw [Expects, h.pending_eq hexp]
    rfl
  | popUpdate pkt =>
    simp only [hr, Option.some.injEq] at hs
    exact hs ▸ h.update hr

lemma inv_boot : Inv boot where
  head_lt := by decide
  tail_lt := by decide
  ledger := rfl
  updates_eq := rfl
  dropped := by simp [boot]
  expects := trivial

lemma Inv.step {s t : System} {e : Event} (h : Inv s) (hs : Step s e t) : Inv t := by
  cases e with
  | interrupt scs =>
    cases hs
    exact h.interrupt scs
  | call c =>
    simp only [Step, next] at hs
    split at hs
    · cases hs
      refine ⟨h.head_lt, h.tail_lt, h.ledger, h.updates_eq, h.dropped, ?_⟩
      cases c <;> trivial
    · cases hs
  | read => exact h.read hs

/-- In every interleaving of the handler's runs with the steps of a reader, the indices stay in the
buffer, the packets that pops have returned and then the buffer's are those accepted, and a packet was
only dropped when 127 accepted ones were without their tail update. -/
theorem key_queue {es : List Event} {s : System} (h : Run Step boot es s) :
    s.keyboard.bufferHead < 128 ∧ s.keyboard.bufferTail < 128 ∧
      s.accepted = s.returned ++ s.keyboard.pending ∧ s.updates = s.returned.length ∧
      ∀ n ∈ s.dropped, n = 127 := by
  have hinv : Inv s := h.invariant (fun _ _ _ hs hstep => hs.step hstep) inv_boot
  exact ⟨hinv.head_lt, hinv.tail_lt, hinv.ledger, hinv.updates_eq, hinv.dropped⟩

theorem key_queue_readkey :
    ∃ s, Run Step boot [.interrupt [0x1E#8], .call .keyboardReadkey, .read, .read, .read, .read,
        .interrupt [0x9E#8], .read] s ∧
      s.returned = [⟨.a, true, false, false, false, false, false, false⟩] ∧
      s.accepted = s.returned ++ s.keyboard.pending := by
  have hrun : Run Step boot [.interrupt [0x1E#8], .call .keyboardReadkey, .read, .read, .read, .read,
      .interrupt [0x9E#8], .read] _ :=
    .cons rfl (.cons rfl (.cons rfl (.cons rfl (.cons rfl (.cons rfl (.cons rfl (.cons rfl (.nil _))))))))
  obtain ⟨_, _, hledger, _⟩ := key_queue hrun
  exact ⟨_, hrun, rfl, hledger⟩

end System

end Veni.Drivers

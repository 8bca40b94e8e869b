import Mathlib.Tactic.Common

/-! Programs that access a device through ports, one access at a time, while the device moves on its
own. -/

namespace Veni.Lib

inductive PortProgram (α : Type)
  | done (a : α)
  | inb (port : BitVec 16) (next : BitVec 8 → PortProgram α)
  | outb (port : BitVec 16) (value : BitVec 8) (next : PortProgram α)

structure Bus (σ : Type) where
  read : σ → BitVec 16 → BitVec 8 × σ
  write : σ → BitVec 16 → BitVec 8 → σ

namespace PortProgram

variable {α β σ : Type} {bus : Bus σ} {move : σ → σ → Prop} {s t : σ}

def bind : PortProgram α → (α → PortProgram β) → PortProgram β
  | done a, f => f a
  | inb port next, f => inb port fun v => (next v).bind f
  | outb port value next, f => outb port value (next.bind f)

instance : Monad PortProgram where
  pure := done
  bind := bind

def input (port : BitVec 16) : PortProgram (BitVec 8) := inb port done

def output (port : BitVec 16) (value : BitVec 8) : PortProgram Unit := outb port value (done ())

def advance (bus : Bus σ) : PortProgram α → σ → Option (PortProgram α × σ)
  | done _, _ => none
  | inb port next, s => some (next (bus.read s port).1, (bus.read s port).2)
  | outb port value next, s => some (next, bus.write s port value)

def run (bus : Bus σ) : PortProgram α → σ → α × σ
  | done a, s => (a, s)
  | inb port next, s => run bus (next (bus.read s port).1) (bus.read s port).2
  | outb port value next, s => run bus next (bus.write s port value)

def Ensures (bus : Bus σ) (move : σ → σ → Prop) : PortProgram α → (α → σ → Prop) → σ → Prop
  | done a, Q, s => ∀ t, move s t → Q a t
  | inb port next, Q, s =>
    ∀ t, move s t → Ensures bus move (next (bus.read t port).1) Q (bus.read t port).2
  | outb port value next, Q, s => ∀ t, move s t → Ensures bus move next Q (bus.write t port value)

lemma Ensures.moved (htrans : ∀ s t u, move s t → move t u → move s u) {p : PortProgram α}
    {Q : α → σ → Prop} (h : Ensures bus move p Q s) (ht : move s t) : Ensures bus move p Q t := by
  cases p with
  | done a => exact fun u hu => h u (htrans _ _ _ ht hu)
  | inb port next => exact fun u hu => h u (htrans _ _ _ ht hu)
  | outb port value next => exact fun u hu => h u (htrans _ _ _ ht hu)

lemma Ensures.mono {p : PortProgram α} {Q R : α → σ → Prop} (h : Ensures bus move p Q s)
    (hpost : ∀ a t, Q a t → R a t) : Ensures bus move p R s := by
  induction p generalizing s with
  | done a => exact fun t ht => hpost a t (h t ht)
  | inb port next ih => exact fun t ht => ih _ (h t ht)
  | outb port value next ih => exact fun t ht => ih (h t ht)

lemma Ensures.bind (hrefl : ∀ s, move s s) {p : PortProgram α} {f : α → PortProgram β}
    {Q : β → σ → Prop} (h : Ensures bus move p (fun a t => Ensures bus move (f a) Q t) s) :
    Ensures bus move (p >>= f) Q s := by
  induction p generalizing s with
  | done a => exact h s (hrefl s)
  | inb port next ih => exact fun t ht => ih _ (h t ht)
  | outb port value next ih => exact fun t ht => ih (h t ht)

lemma Ensures.advance (hrefl : ∀ s, move s s) {p q : PortProgram α} {Q : α → σ → Prop}
    (h : Ensures bus move p Q s) (hp : p.advance bus s = some (q, t)) : Ensures bus move q Q t := by
  cases p with
  | done a => cases hp
  | inb port next =>
    cases hp
    exact h s (hrefl s)
  | outb port value next =>
    cases hp
    exact h s (hrefl s)

lemma Ensures.done (hrefl : ∀ s, move s s) {a : α} {Q : α → σ → Prop}
    (h : Ensures bus move (.done a) Q s) : Q a s :=
  h s (hrefl s)

lemma run_bind (p : PortProgram α) (f : α → PortProgram β) (s : σ) :
    (p >>= f).run bus s = (f (p.run bus s).1).run bus (p.run bus s).2 := by
  induction p generalizing s with
  | done a => rfl
  | inb port next ih => exact ih _ _
  | outb port value next ih => exact ih _

def Reads (ports : BitVec 16 → Prop) : PortProgram α → Prop
  | done _ => True
  | inb port next => ports port ∧ ∀ v, Reads ports (next v)
  | outb _ _ next => Reads ports next

lemma Reads.bind {ports : BitVec 16 → Prop} {p : PortProgram α} {f : α → PortProgram β}
    (hp : p.Reads ports) (hf : ∀ a, (f a).Reads ports) : (p >>= f).Reads ports := by
  induction p with
  | done a => exact hf a
  | inb port next ih => exact ⟨hp.1, fun v => ih v (hp.2 v)⟩
  | outb port value next ih => exact ih hp

theorem Ensures.of_run {ports : BitVec 16 → Prop}
    (hread : ∀ s t port, ports port → move s t →
      (bus.read t port).1 = (bus.read s port).1 ∧ move (bus.read s port).2 (bus.read t port).2)
    (hwrite : ∀ s t port v, move s t → move (bus.write s port v) (bus.write t port v))
    (htrans : ∀ s t u, move s t → move t u → move s u) {p : PortProgram α} (hp : p.Reads ports)
    (hst : move s t) :
    Ensures bus move p (fun a u => a = (p.run bus s).1 ∧ move (p.run bus s).2 u) t := by
  induction p generalizing s t with
  | done a => exact fun u hu => ⟨rfl, htrans _ _ _ hst hu⟩
  | inb port next ih =>
    intro u hu
    obtain ⟨hvalue, hnext⟩ := hread _ _ port hp.1 (htrans _ _ _ hst hu)
    rw [hvalue]
    exact ih _ (hp.2 _) hnext
  | outb port value next ih =>
    intro u hu
    exact ih hp (hwrite _ _ port value (htrans _ _ _ hst hu))

end PortProgram

end Veni.Lib

import Mathlib.Tactic.Common

/-! Computations that may fault and record events, whose record outlives a fault. -/

namespace Veni.Lib

variable {ε α β : Type}

structure Logged (ε α : Type) where
  log : List ε
  result : Option α

namespace Logged

def after (es : List ε) (x : Logged ε α) : Logged ε α := ⟨es ++ x.log, x.result⟩

def bind (x : Logged ε α) (f : α → Logged ε β) : Logged ε β :=
  match x.result with
  | none => ⟨x.log, none⟩
  | some a => (f a).after x.log

instance : Monad (Logged ε) where
  pure a := ⟨[], some a⟩
  bind := bind

def tell (e : ε) : Logged ε Unit := ⟨[e], some ()⟩

def lift (x : Option α) : Logged ε α := ⟨[], x⟩

@[simp] lemma log_pure (a : α) : (pure a : Logged ε α) = ⟨[], some a⟩ := rfl

@[simp] lemma log_after (es : List ε) (x : Logged ε α) : (x.after es).log = es ++ x.log := rfl

@[simp] lemma after_nil (x : Logged ε α) : x.after [] = x := rfl

@[simp] lemma after_after (es fs : List ε) (x : Logged ε α) :
    (x.after es).after fs = x.after (fs ++ es) := by
  simp [after]

@[simp] lemma mk_after (es fs : List ε) (o : Option α) :
    (⟨es, o⟩ : Logged ε α).after fs = ⟨fs ++ es, o⟩ := rfl

@[simp] lemma mk_bind (es : List ε) (a : α) (f : α → Logged ε β) :
    ((⟨es, some a⟩ : Logged ε α) >>= f) = (f a).after es := rfl

@[simp] lemma fault_bind (es : List ε) (f : α → Logged ε β) :
    ((⟨es, none⟩ : Logged ε α) >>= f) = ⟨es, none⟩ := rfl

@[simp] lemma tell_bind (e : ε) (f : Unit → Logged ε β) : (tell e >>= f) = (f ()).after [e] := rfl

@[simp] lemma lift_some (a : α) : (lift (some a) : Logged ε α) = ⟨[], some a⟩ := rfl

@[simp] lemma lift_none : (lift none : Logged ε α) = ⟨[], none⟩ := rfl

lemma result_bind (x : Logged ε α) (f : α → Logged ε β) :
    (x >>= f).result = x.result.bind fun a => (f a).result := by
  obtain ⟨es, o⟩ := x
  cases o <;> rfl

lemma log_bind_of_nil (x : Logged ε α) {f : α → Logged ε β} (hf : ∀ a, (f a).log = []) :
    (x >>= f).log = x.log := by
  obtain ⟨es, o⟩ := x
  cases o with
  | none => rfl
  | some a =>
    rw [mk_bind, log_after, hf, List.append_nil]

lemma mem_log_bind {x : Logged ε α} {f : α → Logged ε β} {e : ε} :
    e ∈ (x >>= f).log ↔ e ∈ x.log ∨ ∃ a, x.result = some a ∧ e ∈ (f a).log := by
  obtain ⟨es, o⟩ := x
  cases o with
  | none => simp
  | some a => simp

end Logged

end Veni.Lib

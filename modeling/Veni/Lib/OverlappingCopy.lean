import Mathlib.Data.List.Basic
import Mathlib.Logic.Function.Basic
import Mathlib.Tactic.Common

/-! Copies within one memory, element by element, between ranges that may overlap. -/

namespace Veni.Lib.OverlappingCopy

variable {ι α β : Type*} [DecidableEq α]

def copyAlong (dst src : ι → α) (order : List ι) (m : α → β) : α → β :=
  order.foldl (fun m i => Function.update m (dst i) (m (src i))) m

def ReadsFirst (dst src : ι → α) (order : List ι) : Prop :=
  order.Pairwise fun i j => dst i ≠ src j ∧ dst i ≠ dst j

variable {dst src : ι → α} {order : List ι}

lemma copyAlong_of_ne (m : α → β) {a : α} (h : ∀ i ∈ order, a ≠ dst i) :
    copyAlong dst src order m a = m a := by
  induction order generalizing m with
  | nil => rfl
  | cons k ks ih =>
    apply (ih _ fun i hi => h i (List.mem_cons_of_mem k hi)).trans
    exact Function.update_of_ne (h k List.mem_cons_self) _ _

lemma copyAlong_dst (m : α → β) (h : ReadsFirst dst src order) {i : ι} (hi : i ∈ order) :
    copyAlong dst src order m (dst i) = m (src i) := by
  induction order generalizing m with
  | nil => cases hi
  | cons k ks ih =>
    obtain ⟨hk, hks⟩ := List.pairwise_cons.mp h
    rcases List.mem_cons.mp hi with rfl | hi
    · apply (copyAlong_of_ne _ fun j hj => (hk j hj).2).trans
      exact Function.update_self _ _ _
    · apply (ih _ hks hi).trans
      exact Function.update_of_ne (hk i hi).1.symm _ _

end Veni.Lib.OverlappingCopy

import Mathlib.Tactic.Common
import Mathlib.Algebra.BigOperators.Group.List.Basic
import Mathlib.Algebra.Ring.Nat
import Mathlib.Data.List.Chain

/-! Lists of sized blocks that tile an interval: carving a block and coalescing free neighbours. -/

namespace Veni.Lib.Blocks

structure Block where
  size : ℕ
  free : Bool

def total (bs : List Block) : ℕ := (bs.map Block.size).sum

@[simp] lemma total_nil : total [] = 0 := rfl

@[simp] lemma total_cons (b : Block) (bs : List Block) : total (b :: bs) = b.size + total bs := by
  simp [total]

@[simp] lemma total_append (bs cs : List Block) : total (bs ++ cs) = total bs + total cs := by
  simp [total]

def Fits (n : ℕ) (b : Block) : Prop := b.free = true ∧ n ≤ b.size

instance (n : ℕ) (b : Block) : Decidable (Fits n b) := inferInstanceAs (Decidable (_ ∧ _))

def carve (slack n : ℕ) (b : Block) : List Block :=
  if b.size > n + slack then [⟨n, false⟩, ⟨b.size - n, true⟩] else [⟨b.size, false⟩]

def carved (slack n : ℕ) (b : Block) : Block := ⟨if b.size > n + slack then n else b.size, false⟩

lemma carve_eq (slack n : ℕ) (b : Block) :
    carve slack n b = carved slack n b :: if b.size > n + slack then [⟨b.size - n, true⟩] else [] := by
  unfold carve carved
  split <;> rfl

lemma le_carved {s n : ℕ} {b : Block} (h : n ≤ b.size) : n ≤ (carved s n b).size := by
  simp only [carved]
  split
  · exact Nat.le_refl n
  · exact h

lemma total_carve (slack : ℕ) {n : ℕ} {b : Block} (h : n ≤ b.size) :
    total (carve slack n b) = b.size := by
  unfold carve
  split
  · simp only [total_cons, total_nil]
    omega
  · simp

def absorb (b : Block) : List Block → Block × List Block
  | [] => (b, [])
  | c :: cs => if c.free then absorb ⟨b.size + c.size, b.free⟩ cs else (b, c :: cs)

lemma total_absorb (b : Block) (bs : List Block) :
    (absorb b bs).1.size + total (absorb b bs).2 = b.size + total bs := by
  induction bs generalizing b with
  | nil => rfl
  | cons c cs ih =>
    simp only [absorb]
    split
    · rw [ih, total_cons]
      exact Nat.add_assoc _ _ _
    · rfl

lemma absorb_free (b : Block) (bs : List Block) : (absorb b bs).1.free = b.free := by
  induction bs generalizing b with
  | nil => rfl
  | cons c cs ih =>
    simp only [absorb]
    split
    · rw [ih]
    · rfl

lemma absorb_split (b : Block) (bs : List Block) :
    ∃ cs, bs = cs ++ (absorb b bs).2 ∧ ∀ c ∈ cs, c.free = true := by
  induction bs generalizing b with
  | nil => exact ⟨[], rfl, by simp⟩
  | cons c cs ih =>
    simp only [absorb]
    split
    · next hc =>
      obtain ⟨ds, hd, hf⟩ := ih ⟨b.size + c.size, b.free⟩
      refine ⟨c :: ds, by rw [List.cons_append, ← hd], fun d hmem => ?_⟩
      rcases List.mem_cons.mp hmem with rfl | hmem
      · exact hc
      · exact hf d hmem
    · exact ⟨[], rfl, by simp⟩

lemma le_absorb (b : Block) (bs : List Block) : b.size ≤ (absorb b bs).1.size := by
  induction bs generalizing b with
  | nil => exact Nat.le_refl b.size
  | cons c cs ih =>
    simp only [absorb]
    split
    · exact Nat.le_trans (Nat.le_add_right b.size c.size) (ih ⟨b.size + c.size, b.free⟩)
    · exact Nat.le_refl b.size

def mergeLeft (pre : List Block) (b : Block) (post : List Block) : List Block :=
  match pre.getLast? with
  | some a => if a.free then pre.dropLast ++ ⟨a.size + b.size, true⟩ :: post else pre ++ b :: post
  | none => b :: post

@[simp] lemma mergeLeft_nil (b : Block) (post : List Block) : mergeLeft [] b post = b :: post := rfl

@[simp] lemma mergeLeft_concat (pre : List Block) (a b : Block) (post : List Block) :
    mergeLeft (pre ++ [a]) b post =
      if a.free then pre ++ ⟨a.size + b.size, true⟩ :: post else pre ++ a :: b :: post := by
  simp [mergeLeft]

def release (pre : List Block) (b : Block) (post : List Block) : List Block :=
  mergeLeft pre (absorb ⟨b.size, true⟩ post).1 (absorb ⟨b.size, true⟩ post).2

lemma total_mergeLeft (pre : List Block) (b : Block) (post : List Block) :
    total (mergeLeft pre b post) = total pre + b.size + total post := by
  rcases List.eq_nil_or_concat pre with rfl | ⟨cs, a, rfl⟩
  · simp
  · rw [List.concat_eq_append, mergeLeft_concat]
    split
    · simp only [total_append, total_cons, total_nil]
      omega
    · simp only [total_append, total_cons, total_nil]
      omega

lemma total_release (pre : List Block) (b : Block) (post : List Block) :
    total (release pre b post) = total pre + b.size + total post := by
  have h := total_absorb ⟨b.size, true⟩ post
  rw [release, total_mergeLeft]
  simp only at h
  omega

def BlockAt (a : ℕ) : List Block → ℕ → Block → Prop
  | [], _, _ => False
  | c :: cs, x, b => (x = a ∧ b = c) ∨ BlockAt (a + c.size) cs x b

@[simp] lemma blockAt_append {a x : ℕ} {b : Block} {bs cs : List Block} :
    BlockAt a (bs ++ cs) x b ↔ BlockAt a bs x b ∨ BlockAt (a + total bs) cs x b := by
  induction bs generalizing a with
  | nil => simp [BlockAt]
  | cons c bs ih => simp [BlockAt, ih, or_assoc, Nat.add_assoc]

lemma blockAt_iff {a x : ℕ} {b : Block} {bs : List Block} :
    BlockAt a bs x b ↔ ∃ pre post, bs = pre ++ b :: post ∧ x = a + total pre := by
  induction bs generalizing a with
  | nil => simp [BlockAt]
  | cons c bs ih =>
    simp only [BlockAt, ih]
    constructor
    · rintro (⟨rfl, rfl⟩ | ⟨pre, post, rfl, rfl⟩)
      · exact ⟨[], bs, rfl, rfl⟩
      · exact ⟨c :: pre, post, rfl, by rw [total_cons, Nat.add_assoc]⟩
    · rintro ⟨pre, post, he, rfl⟩
      cases pre with
      | nil =>
        cases he
        exact .inl ⟨rfl, rfl⟩
      | cons d ds =>
        cases he
        exact .inr ⟨ds, post, rfl, by rw [total_cons, Nat.add_assoc]⟩

lemma blockAt_self {a : ℕ} {b : Block} {pre post : List Block} :
    BlockAt a (pre ++ b :: post) (a + total pre) b :=
  blockAt_iff.mpr ⟨pre, post, rfl, rfl⟩

lemma BlockAt.bounds {a x : ℕ} {b : Block} {bs : List Block} (h : BlockAt a bs x b) :
    a ≤ x ∧ x + b.size ≤ a + total bs := by
  obtain ⟨pre, post, rfl, rfl⟩ := blockAt_iff.mp h
  simp only [total_append, total_cons]
  omega

lemma BlockAt.mem {a x : ℕ} {b : Block} {bs : List Block} (h : BlockAt a bs x b) : b ∈ bs := by
  obtain ⟨pre, post, rfl, _⟩ := blockAt_iff.mp h
  simp

lemma BlockAt.disjoint {a x y : ℕ} {b c : Block} {bs : List Block} (hb : BlockAt a bs x b)
    (hc : BlockAt a bs y c) : (x = y ∧ b = c) ∨ x + b.size ≤ y ∨ y + c.size ≤ x := by
  induction bs generalizing a with
  | nil => exact hb.elim
  | cons d ds ih =>
    rcases hb with ⟨rfl, rfl⟩ | hb
    · rcases hc with ⟨rfl, rfl⟩ | hc
      · exact .inl ⟨rfl, rfl⟩
      · exact .inr (.inl hc.bounds.1)
    · rcases hc with ⟨rfl, rfl⟩ | hc
      · exact .inr (.inr hb.bounds.1)
      · exact ih hb hc

lemma BlockAt.order {a x y : ℕ} {b c : Block} {bs : List Block} (hb : BlockAt a bs x b)
    (hc : BlockAt a bs y c) (hne : x ≠ y) :
    (∃ pre mid post, bs = pre ++ b :: (mid ++ c :: post) ∧ x = a + total pre ∧
        y = a + total (pre ++ b :: mid)) ∨
      ∃ pre mid post, bs = pre ++ c :: (mid ++ b :: post) ∧ y = a + total pre ∧
        x = a + total (pre ++ c :: mid) := by
  obtain ⟨pre, post, rfl, rfl⟩ := blockAt_iff.mp hb
  rcases blockAt_append.mp hc with hc | ⟨rfl, _⟩ | hc
  · obtain ⟨front, mid, rfl, rfl⟩ := blockAt_iff.mp hc
    exact .inr ⟨front, mid, post, by simp, rfl, rfl⟩
  · exact absurd rfl hne
  · obtain ⟨mid, rest, rfl, rfl⟩ := blockAt_iff.mp hc
    exact .inl ⟨pre, mid, rest, rfl, rfl, by simp [Nat.add_assoc]⟩

lemma blockAt_carve {a x slack n : ℕ} {b c : Block} {pre post : List Block} (hfit : Fits n b)
    (hc : c.free = false) :
    BlockAt a (pre ++ (carve slack n b ++ post)) x c ↔
      BlockAt a (pre ++ b :: post) x c ∨ (x = a + total pre ∧ c = carved slack n b) := by
  have hne : ∀ d : Block, d.free = true → c ≠ d := by
    rintro d hd rfl
    simp [hd] at hc
  have htotal := total_carve slack hfit.2
  have hrest : ∀ y, ¬ BlockAt y (if b.size > n + slack then [(⟨b.size - n, true⟩ : Block)] else []) x c := by
    intro y
    split
    · simp [BlockAt, hne]
    · exact id
  rw [blockAt_append, blockAt_append, blockAt_append, htotal, carve_eq]
  simp only [BlockAt, hrest, or_false, hne b hfit.1, and_false, false_or]
  tauto

lemma blockAt_release {a x : ℕ} {b c : Block} {pre post : List Block} (hc : c.free = false) :
    BlockAt a (release pre b post) x c ↔
      BlockAt a pre x c ∨ BlockAt (a + total pre + b.size) post x c := by
  obtain ⟨cs, hcs, hfree⟩ := absorb_split ⟨b.size, true⟩ post
  have hsum := total_absorb ⟨b.size, true⟩ post
  have hflag := absorb_free ⟨b.size, true⟩ post
  have hskip : ∀ y, ¬ BlockAt y cs x c := fun y h => by simp [hfree c h.mem] at hc
  have hpost : ∀ y, BlockAt y post x c ↔ BlockAt (y + total cs) (absorb ⟨b.size, true⟩ post).2 x c := by
    intro y
    conv_lhs => rw [hcs]
    simp [hskip]
  have htotal : total post = total cs + total (absorb ⟨b.size, true⟩ post).2 := by
    conv_lhs => rw [hcs]
    simp
  rw [hpost, release]
  generalize absorb ⟨b.size, true⟩ post = r at *
  have hsize : r.1.size = b.size + total cs := by
    simp only at hsum
    omega
  have hne : c ≠ r.1 := by
    rintro rfl
    simp [hflag] at hc
  rcases List.eq_nil_or_concat pre with rfl | ⟨ds, d, rfl⟩
  · simp [BlockAt, hne, hsize, Nat.add_assoc]
  · rw [List.concat_eq_append, mergeLeft_concat]
    cases hd : d.free with
    | false => simp [BlockAt, hne, hsize, Nat.add_assoc, or_assoc]
    | true =>
      have hcd : c ≠ d := by
        rintro rfl
        simp [hd] at hc
      have hce : c ≠ ⟨d.size + (b.size + total cs), true⟩ := by
        rintro rfl
        simp at hc
      simp [BlockAt, hcd, hce, hsize, Nat.add_assoc]

def Coalesced (bs : List Block) : Prop := bs.IsChain fun b c => b.free = false ∨ c.free = false

lemma coalesced_cons {b : Block} {bs : List Block} :
    Coalesced (b :: bs) ↔ Coalesced bs ∧ (b.free = true → ∀ c ∈ bs.head?, c.free = false) := by
  rw [Coalesced, Coalesced, List.isChain_cons]
  cases hb : b.free with
  | false => simp
  | true => simp [and_comm]

lemma coalesced_zoom {pre post : List Block} {b : Block} :
    Coalesced (pre ++ b :: post) ↔ Coalesced pre ∧ Coalesced post ∧ (b.free = true →
      (∀ a ∈ pre.getLast?, a.free = false) ∧ ∀ c ∈ post.head?, c.free = false) := by
  simp only [Coalesced, List.isChain_append, List.isChain_cons, List.head?_cons, Option.mem_some_iff,
    forall_eq']
  cases hb : b.free with
  | false => simp
  | true =>
    simp only [Bool.true_eq_false, false_or, or_false, true_implies]
    tauto

lemma Coalesced.carve {pre post : List Block} (hpre : Coalesced pre) (hpost : Coalesced post)
    (hhead : ∀ c ∈ post.head?, c.free = false) (slack n : ℕ) (b : Block) :
    Coalesced (pre ++ (Blocks.carve slack n b ++ post)) := by
  have hrest : Coalesced ((if b.size > n + slack then [⟨b.size - n, true⟩] else []) ++ post) := by
    split
    · exact coalesced_zoom.mpr ⟨.nil, hpost, fun _ => ⟨by simp, hhead⟩⟩
    · exact hpost
  rw [carve_eq, List.cons_append]
  exact coalesced_zoom.mpr ⟨hpre, hrest, fun hf => by cases hf⟩

lemma Coalesced.absorb {bs : List Block} (h : Coalesced bs) (b : Block) :
    Coalesced (Blocks.absorb b bs).2 ∧ ∀ c ∈ (Blocks.absorb b bs).2.head?, c.free = false := by
  induction bs generalizing b with
  | nil => exact ⟨.nil, by simp [Blocks.absorb]⟩
  | cons c cs ih =>
    simp only [Blocks.absorb]
    cases hc : c.free with
    | true =>
      rw [if_pos rfl]
      exact ih (coalesced_cons.mp h).1 _
    | false => simpa [hc] using h

lemma Coalesced.release {pre post : List Block} {b : Block} (h : Coalesced (pre ++ b :: post)) :
    Coalesced (Blocks.release pre b post) := by
  obtain ⟨hpre, hpost, _⟩ := coalesced_zoom.mp h
  obtain ⟨hrest, hhead⟩ := hpost.absorb ⟨b.size, true⟩
  rw [Blocks.release]
  generalize Blocks.absorb ⟨b.size, true⟩ post = r at *
  rcases List.eq_nil_or_concat pre with rfl | ⟨cs, a, rfl⟩
  · rw [mergeLeft_nil]
    exact coalesced_zoom.mpr ⟨.nil, hrest, fun _ => ⟨by simp, hhead⟩⟩
  · rw [List.concat_eq_append] at *
    obtain ⟨hcs, _, hlast⟩ := coalesced_zoom.mp hpre
    rw [mergeLeft_concat]
    cases ha : a.free with
    | true => exact coalesced_zoom.mpr ⟨hcs, hrest, fun _ => ⟨(hlast ha).1, hhead⟩⟩
    | false =>
      have hb : Coalesced (r.1 :: r.2) := coalesced_zoom.mpr ⟨.nil, hrest, fun _ => ⟨by simp, hhead⟩⟩
      exact coalesced_zoom.mpr ⟨hcs, hb, fun hf => by simp [ha] at hf⟩

lemma absorb_used {b : Block} {bs : List Block} (h : ∀ c ∈ bs.head?, c.free = false) :
    absorb b bs = (b, bs) := by
  cases bs with
  | nil => rfl
  | cons c cs => simp [absorb, h c rfl]

lemma absorb_past {b c : Block} {bs cs : List Block} (h : c.free = false) :
    absorb b (bs ++ c :: cs) = ((absorb b bs).1, (absorb b bs).2 ++ c :: cs) := by
  induction bs generalizing b with
  | nil => simp [absorb, h]
  | cons d ds ih =>
    simp only [List.cons_append, absorb, ih]
    split <;> rfl

lemma mergeLeft_used {pre post : List Block} {b : Block} (h : ∀ a ∈ pre.getLast?, a.free = false) :
    mergeLeft pre b post = pre ++ b :: post := by
  rcases List.eq_nil_or_concat pre with rfl | ⟨cs, a, rfl⟩
  · rfl
  · rw [List.concat_eq_append] at *
    simp [h a (by simp)]

lemma Coalesced.release_carved {pre post : List Block} {b : Block} {slack n : ℕ}
    (h : Coalesced (pre ++ b :: post)) (hfit : Fits n b) :
    Blocks.release pre (carved slack n b)
      ((if b.size > n + slack then [⟨b.size - n, true⟩] else []) ++ post) = pre ++ b :: post := by
  obtain ⟨_, _, hends⟩ := coalesced_zoom.mp h
  obtain ⟨hlast, hhead⟩ := hends hfit.1
  have habsorb : Blocks.absorb ⟨(carved slack n b).size, true⟩
      ((if b.size > n + slack then [⟨b.size - n, true⟩] else []) ++ post) = (b, post) := by
    have hb : b = ⟨b.size, true⟩ := by
      rw [← hfit.1]
    simp only [carved]
    split
    · have hsize : n + (b.size - n) = b.size := Nat.add_sub_cancel' hfit.2
      simp only [List.cons_append, List.nil_append, Blocks.absorb, if_true, hsize]
      rw [absorb_used hhead, ← hb]
    · rw [List.nil_append, absorb_used hhead, ← hb]
  rw [Blocks.release, habsorb, mergeLeft_used hlast]

lemma Coalesced.single {bs : List Block} (h : Coalesced bs) (hfree : ∀ b ∈ bs, b.free = true) :
    bs = [] ∨ bs = [⟨total bs, true⟩] := by
  cases bs with
  | nil => exact .inl rfl
  | cons b bs =>
    cases bs with
    | nil =>
      right
      have hb := hfree b List.mem_cons_self
      simp [← hb]
    | cons c cs =>
      have hc := (List.isChain_cons.mp h).1 c rfl
      simp [hfree b, hfree c] at hc

end Veni.Lib.Blocks

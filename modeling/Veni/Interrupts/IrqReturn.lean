import Veni.Interrupts.IrqStub

/-! What an interrupted program finds after the `iret` of an `irq_stub`. -/

namespace Veni.Interrupts

open Veni.Lib.WordMemory

lemma isr_idtSetDescriptor (idt : ℕ → IdtEntry) (vector : ℕ) (isr : BitVec 32) (flags : BitVec 8) :
    (idtSetDescriptor idt vector isr flags vector).isr = isr := by
  simp only [idtSetDescriptor, Function.update_self, IdtEntry.isr]
  apply BitVec.eq_of_getLsbD_eq
  intro i hi
  have hmask : ∀ i < 16, (0xFFFF#32).getLsbD i = true := by decide
  simp only [BitVec.getLsbD_append, BitVec.getLsbD_setWidth, BitVec.getLsbD_ushiftRight,
    BitVec.getLsbD_and]
  by_cases h : i < 16
  · simp [h, hmask i h]
  · have hlt : i - 16 < 16 := by omega
    have hidx : 16 + (i - 16) = i := by omega
    simp [h, hlt, hidx]

lemma fold_idtSetDescriptor (stubs : ℕ → BitVec 32) (flags : BitVec 8) (base : ℕ)
    (idt : ℕ → IdtEntry) {n v : ℕ} (hv : v < n) :
    ((List.range n).foldl (fun idt i => idtSetDescriptor idt (base + i) (stubs i) flags) idt
      (base + v)).isr = stubs v := by
  induction n with
  | zero => omega
  | succ n ih =>
    rw [List.range_succ, List.foldl_append, List.foldl_cons, List.foldl_nil]
    by_cases he : v = n
    · rw [he]
      exact isr_idtSetDescriptor _ _ _ _
    · have hne : base + v ≠ base + n := by omega
      rw [idtSetDescriptor, Function.update_of_ne hne]
      exact ih (by omega)

lemma isr_idtInit (image : Image) (idt : ℕ → IdtEntry) {vector : ℕ} (hlo : 32 ≤ vector)
    (hhi : vector ≤ 47) :
    (idtInit image idt vector).isr = image.irqStubTable (vector - 32) := by
  have he : 32 + (vector - 32) = vector := by omega
  have h := fold_idtSetDescriptor image.irqStubTable 0x8E#8 32
    ((List.range 32).foldl
      (fun idt vector => idtSetDescriptor idt vector (image.isrStubTable vector) 0x8E#8) idt)
    (show vector - 32 < 16 by omega)
  rw [he] at h
  exact h

/-- What the calling convention keeps of the state `m` in which a function of one argument begins,
until it has returned: of the stack above the argument, the 16 bytes that the stub relies on. -/
structure Cdecl (m t : Machine) : Prop where
  ebx : t.ebx = m.ebx
  ebp : t.ebp = m.ebp
  esi : t.esi = m.esi
  edi : t.edi = m.edi
  esp : t.esp = m.esp + 4#32
  eip : t.eip = load m.memory m.esp
  stack : ∀ i < 16#32, t.memory (m.esp + 8#32 + i) = m.memory (m.esp + 8#32 + i)

structure Resumes (m t : Machine) : Prop where
  eax : t.eax = m.eax
  ecx : t.ecx = m.ecx
  edx : t.edx = m.edx
  ebx : t.ebx = m.ebx
  esp : t.esp = m.esp
  ebp : t.ebp = m.ebp
  esi : t.esi = m.esi
  edi : t.edi = m.edi
  eip : t.eip = m.eip
  eflags : t.eflags = m.eflags
  cs : t.cs = m.cs

namespace Machine

variable {image : Image} {idt : ℕ → IdtEntry} {vector : ℕ} {m : Machine} {irqHandler : Machine → Machine}

lemma fetch_irqStub (image : Image) (num a : BitVec 32) :
    fetch (irqStub image num) a a = some (.pushl 0#32) ∧
      fetch (irqStub image num) a (a + 2#32) = some (.pushl num) ∧
      fetch (irqStub image num) a (a + 4#32) = some (.call image.irqHandler) ∧
      fetch (irqStub image num) a (a + 9#32) = some (.addEsp 8#32) ∧
      fetch (irqStub image num) a (a + 12#32) = some .iret := by
  simp [irqStub, fetch, Instr.size, BitVec.add_assoc]

@[simp] lemma pushl_eip (m : Machine) (v : BitVec 32) : (m.pushl v).eip = m.eip + 2#32 := rfl

lemma handlerEntry_stack (image : Image) (idt : ℕ → IdtEntry) (vector : ℕ) (m : Machine) :
    let h := m.handlerEntry image idt vector
    h.esp = m.esp - 24#32 ∧
      load h.memory h.esp = (idtInit image idt vector).isr + 9#32 ∧
      load h.memory (h.esp + 12#32) = m.eip ∧
      load h.memory (h.esp + 16#32) = m.cs.setWidth 32 ∧
      load h.memory (h.esp + 20#32) = m.eflags := by
  obtain ⟨a, ha⟩ : ∃ a, m.esp = a + 24#32 := ⟨m.esp - 24#32, by bv_omega⟩
  have h20 : a + 24#32 - 4#32 = a + 20#32 := by bv_omega
  have h16 : a + 20#32 - 4#32 = a + 16#32 := by bv_omega
  have h12 : a + 16#32 - 4#32 = a + 12#32 := by bv_omega
  have h8 : a + 12#32 - 4#32 = a + 8#32 := by bv_omega
  have h4 : a + 8#32 - 4#32 = a + 4#32 := by bv_omega
  have h0 : a + 4#32 - 4#32 = a + 0#32 := by bv_omega
  have hapart : ∀ i j : BitVec 32, Apart i j → Apart (a + i) (a + j) := fun _ _ h => h.add a
  simp only [handlerEntry, call, pushl, interrupt, push, Instr.size, ha, h20, h16, h12, h8, h4, h0,
    BitVec.add_assoc, BitVec.zero_add]
  refine ⟨by bv_omega, load_store _ _ _, ?_, ?_, ?_⟩
  · rw [load_store_apart (hapart _ _ (by decide)), load_store_apart (hapart _ _ (by decide)),
      load_store_apart (hapart _ _ (by decide)), load_store]
  · rw [load_store_apart (hapart _ _ (by decide)), load_store_apart (hapart _ _ (by decide)),
      load_store_apart (hapart _ _ (by decide)), load_store_apart (hapart _ _ (by decide)), load_store]
  · rw [load_store_apart (hapart _ _ (by decide)), load_store_apart (hapart _ _ (by decide)),
      load_store_apart (hapart _ _ (by decide)), load_store_apart (hapart _ _ (by decide)),
      load_store_apart (hapart _ _ (by decide)), load_store]

lemma run_next {code : List Instr} {a : BitVec 32} {i : Instr} {n : ℕ}
    (h : fetch code a m.eip = some i) (hi : i ≠ .iret) :
    run irqHandler code a (n + 1) m = run irqHandler code a n (m.exec irqHandler i) := by
  rw [run, h]
  cases i with
  | iret => exact absurd rfl hi
  | _ => rfl

lemma run_iret {code : List Instr} {a : BitVec 32} {n : ℕ} (h : fetch code a m.eip = some .iret) :
    run irqHandler code a (n + 1) m = some m.iret := by
  rw [run, h]
  rfl

lemma handlerEntry_saved (image : Image) (idt : ℕ → IdtEntry) (vector : ℕ) (m : Machine) :
    (m.handlerEntry image idt vector).ebx = m.ebx ∧ (m.handlerEntry image idt vector).ebp = m.ebp ∧
      (m.handlerEntry image idt vector).esi = m.esi ∧
      (m.handlerEntry image idt vector).edi = m.edi := by
  simp only [handlerEntry, call, pushl, push, interrupt, and_self]

lemma serve_eq (irqHandler : Machine → Machine)
    (hisr : (idtInit image idt vector).isr = image.irqStubTable (vector - 32)) :
    serve irqHandler image idt vector m =
      run irqHandler (irqStub image (BitVec.ofNat 32 vector)) (image.irqStubTable (vector - 32)) 2
        (irqHandler (m.handlerEntry image idt vector)) := by
  obtain ⟨hpush0, hpush1, hcall, _, _⟩ :=
    fetch_irqStub image (BitVec.ofNat 32 vector) (image.irqStubTable (vector - 32))
  have hlength : (irqStub image (BitVec.ofNat 32 vector)).length = 5 := rfl
  simp only [serve, hlength, handlerEntry]
  generalize idtInit image idt vector = e at *
  have hstart : (m.interrupt e).eip = image.irqStubTable (vector - 32) := hisr
  rw [run_next (by rw [hstart]; exact hpush0) (by simp)]
  simp only [exec]
  rw [run_next (by rw [pushl_eip, hstart]; exact hpush1) (by simp)]
  simp only [exec]
  rw [run_next (by rw [pushl_eip, pushl_eip, hstart, BitVec.add_assoc]; exact hcall) (by simp)]
  simp only [exec]

lemma serve_spec (hlo : 32 ≤ vector) (hhi : vector ≤ 47)
    (hc : Cdecl (m.handlerEntry image idt vector) (irqHandler (m.handlerEntry image idt vector))) :
    ∃ t, serve irqHandler image idt vector m = some t ∧
      t.eax = (irqHandler (m.handlerEntry image idt vector)).eax ∧
      t.ecx = (irqHandler (m.handlerEntry image idt vector)).ecx ∧
      t.edx = (irqHandler (m.handlerEntry image idt vector)).edx ∧
      t.ebx = m.ebx ∧ t.esp = m.esp ∧ t.ebp = m.ebp ∧ t.esi = m.esi ∧ t.edi = m.edi ∧
      t.eip = m.eip ∧ t.eflags = m.eflags ∧ t.cs = m.cs := by
  obtain ⟨hesp, hret, heip, hcs, hflags⟩ := handlerEntry_stack image idt vector m
  have hisr := isr_idtInit image idt hlo hhi
  have hregs := handlerEntry_saved image idt vector m
  obtain ⟨_, _, _, hadd, hiret⟩ :=
    fetch_irqStub image (BitVec.ofNat 32 vector) (image.irqStubTable (vector - 32))
  rw [hisr] at hret
  rw [serve_eq irqHandler hisr]
  generalize m.handlerEntry image idt vector = h at *
  generalize irqHandler h = t at *
  have hload : ∀ k : BitVec 32, k ≤ 12#32 →
      load t.memory (h.esp + 8#32 + k) = load h.memory (h.esp + 8#32 + k) := by
    intro k hk
    apply load_congr
    intro i hi
    rw [BitVec.add_assoc (h.esp + 8#32)]
    exact hc.stack (k + i) (by bv_omega)
  have hnext : (t.exec irqHandler (.addEsp 8#32)).eip = image.irqStubTable (vector - 32) + 12#32 := by
    simp only [exec, Instr.size, hc.eip, hret]
    bv_omega
  rw [run_next (by rw [hc.eip, hret]; exact hadd) (by simp),
    run_iret (by rw [hnext]; exact hiret)]
  have hat : t.esp + 8#32 = h.esp + 8#32 + 4#32 := by
    rw [hc.esp]
    bv_omega
  have hat4 : t.esp + 8#32 + 4#32 = h.esp + 8#32 + 8#32 := by
    rw [hc.esp]
    bv_omega
  have hat8 : t.esp + 8#32 + 8#32 = h.esp + 8#32 + 12#32 := by
    rw [hc.esp]
    bv_omega
  have hword : h.esp + 8#32 + 4#32 = h.esp + 12#32 ∧ h.esp + 8#32 + 8#32 = h.esp + 16#32 ∧
      h.esp + 8#32 + 12#32 = h.esp + 20#32 := ⟨by bv_omega, by bv_omega, by bv_omega⟩
  refine ⟨_, rfl, rfl, rfl, rfl, hc.ebx.trans hregs.1, ?_, hc.ebp.trans hregs.2.1,
    hc.esi.trans hregs.2.2.1, hc.edi.trans hregs.2.2.2, ?_, ?_, ?_⟩
  · simp only [iret, exec, hc.esp, hesp]
    bv_omega
  · simp only [iret, exec, hat]
    rw [hload _ (by decide), hword.1, heip]
  · simp only [iret, exec, hat8]
    rw [hload _ (by decide), hword.2.2, hflags]
  · simp only [iret, exec, hat4]
    rw [hload _ (by decide), hword.2.1, hcs]
    exact BitVec.setWidth_setWidth_of_le _ (by decide)

/-- An interrupt on a vector from 32 to 47 is served to its end, and it is transparent exactly when
`irq_handler` happens to return with the interrupted `eax`, `ecx` and `edx`. -/
theorem serve_resumes_iff (image : Image) (idt : ℕ → IdtEntry) {vector : ℕ} (hlo : 32 ≤ vector)
    (hhi : vector ≤ 47) (m : Machine) (irqHandler : Machine → Machine)
    (hc : Cdecl (m.handlerEntry image idt vector) (irqHandler (m.handlerEntry image idt vector))) :
    ∃ t, serve irqHandler image idt vector m = some t ∧
      (Resumes m t ↔ (irqHandler (m.handlerEntry image idt vector)).eax = m.eax ∧
        (irqHandler (m.handlerEntry image idt vector)).ecx = m.ecx ∧
        (irqHandler (m.handlerEntry image idt vector)).edx = m.edx) := by
  obtain ⟨t, hserve, hax, hcx, hdx, hbx, hsp, hbp, hsi, hdi, hip, hfl, hcs⟩ := serve_spec hlo hhi hc
  refine ⟨t, hserve, fun h => ?_, fun ⟨h₁, h₂, h₃⟩ => ?_⟩
  · exact ⟨hax.symm.trans h.eax, hcx.symm.trans h.ecx, hdx.symm.trans h.edx⟩
  · exact ⟨hax.trans h₁, hcx.trans h₂, hdx.trans h₃, hbx, hsp, hbp, hsi, hdi, hip, hfl, hcs⟩

def ret (m : Machine) : Machine :=
  { m with eip := load m.memory m.esp, esp := m.esp + 4#32 }

lemma cdecl_ret (m : Machine) : Cdecl m m.ret := ⟨rfl, rfl, rfl, rfl, rfl, rfl, fun _ _ => rfl⟩

def sampleImage : Image where
  isrStubTable v := BitVec.ofNat 32 (0x100000 + 16 * v)
  irqStubTable v := BitVec.ofNat 32 (0x100200 + 16 * v)
  irqHandler := 0x101000#32

def emptyIdt (_ : ℕ) : IdtEntry := ⟨0#16, 0#16, 0#8, 0#8, 0#16⟩

def counting : Machine where
  eax := 41#32
  ecx := 0#32
  edx := 0#32
  ebx := 0#32
  esp := 0x109000#32
  ebp := 0#32
  esi := 0#32
  edi := 0#32
  eip := 0x102000#32
  eflags := 0x202#32
  cs := 0x08#16
  memory _ := 0#8

theorem serve_resumes_iff_ret :
    ∃ t, serve ret sampleImage emptyIdt 33 counting = some t ∧ Resumes counting t := by
  obtain ⟨t, hserve, hiff⟩ := serve_resumes_iff sampleImage emptyIdt (by decide : 32 ≤ 33)
    (by decide) counting ret (cdecl_ret _)
  refine ⟨t, hserve, hiff.mpr ⟨?_, ?_, ?_⟩⟩
  · simp only [ret, handlerEntry, call, pushl, push, interrupt]
  · simp only [ret, handlerEntry, call, pushl, push, interrupt]
  · simp only [ret, handlerEntry, call, pushl, push, interrupt]

theorem eax_lost :
    Cdecl (counting.handlerEntry sampleImage emptyIdt 33)
        { ret (counting.handlerEntry sampleImage emptyIdt 33) with eax := 0#32 } ∧
      ∃ t, serve (fun h => { ret h with eax := 0#32 }) sampleImage emptyIdt 33 counting = some t ∧
        t.eax ≠ counting.eax ∧ ¬ Resumes counting t := by
  have hc : Cdecl (counting.handlerEntry sampleImage emptyIdt 33)
      { ret (counting.handlerEntry sampleImage emptyIdt 33) with eax := 0#32 } :=
    ⟨rfl, rfl, rfl, rfl, rfl, rfl, fun _ _ => rfl⟩
  let clear : Machine → Machine := fun h => { ret h with eax := 0#32 }
  have hclear : Cdecl (counting.handlerEntry sampleImage emptyIdt 33)
      (clear (counting.handlerEntry sampleImage emptyIdt 33)) := hc
  obtain ⟨t, hserve, hax, _⟩ := serve_spec (by decide) (by decide) hclear
  have hne : t.eax ≠ counting.eax := by
    rw [hax]
    decide
  exact ⟨hc, t, hserve, hne, fun h => hne h.eax⟩

end Machine

end Veni.Interrupts

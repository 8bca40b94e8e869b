import Veni.Lib.ByteMemory
import Veni.Memory.Pmm

/-! The kernel heap, `kernel/kernel/memory/heap.c`: block headers in byte memory, a first-fit list. -/

namespace Veni.Memory

open Veni.Lib.ByteMemory

def heapStart : ℕ := 0xD0000000

def heapEnd : ℕ := 0xE0000000

def heapMaxSize : ℕ := heapEnd - heapStart

def blockMagic : ℕ := 0x464E4942

def sizeofBlockHeader : ℕ := 20

structure BlockHeader where
  magic : ℕ
  size : ℕ
  isFree : UInt8
  next : ℕ
  prev : ℕ

def header (m : ℕ → UInt8) (b : ℕ) : BlockHeader where
  magic := read32 m b
  size := read32 m (b + 4)
  isFree := m (b + 8)
  next := read32 m (b + 12)
  prev := read32 m (b + 16)

def setMagic (m : ℕ → UInt8) (b v : ℕ) : ℕ → UInt8 := write32 m b v

def setSize (m : ℕ → UInt8) (b v : ℕ) : ℕ → UInt8 := write32 m (b + 4) v

def setIsFree (m : ℕ → UInt8) (b : ℕ) (v : UInt8) : ℕ → UInt8 := write8 m (b + 8) v

def setNext (m : ℕ → UInt8) (b v : ℕ) : ℕ → UInt8 := write32 m (b + 12) v

def setPrev (m : ℕ → UInt8) (b v : ℕ) : ℕ → UInt8 := write32 m (b + 16) v

def writeHeader (m : ℕ → UInt8) (b : ℕ) (x : BlockHeader) : ℕ → UInt8 :=
  setPrev (setNext (setIsFree (setSize (setMagic m b x.magic) b x.size) b x.isFree) b x.next) b x.prev

/-- The calls `sbrk` makes on the page level: `pmm_alloc_page` and `map_page`. -/
structure PageLayer (π : Type*) where
  pmmAllocPage : π → ℕ × π
  mapPage : π → ℕ → ℕ → π

structure Heap (π : Type*) where
  memory : ℕ → UInt8
  start : ℕ
  currentBreak : ℕ
  pages : π

namespace Heap

variable {π : Type*} (L : PageLayer π)

/-- The mapping loop of `sbrk` from `addr` to `brk`, at most `n` pages; `false` when a page is
missing. -/
def mapNewPages : ℕ → π → ℕ → ℕ → π × Bool
  | 0, s, _, _ => (s, true)
  | n + 1, s, addr, brk =>
    if addr < brk then
      let page := L.pmmAllocPage s
      if page.1 = 0 then (page.2, false)
      else mapNewPages n (L.mapPage page.2 addr page.1) (addr + pageSize) brk
    else (s, true)

def sbrk (h : Heap π) (size : ℕ) : ℕ × Heap π :=
  let newBreak := (h.currentBreak + size) % 2 ^ 32
  if newBreak > heapEnd then (0, h)
  else
    let r := mapNewPages L size h.pages h.currentBreak newBreak
    if r.2 then (h.currentBreak, { h with currentBreak := newBreak, pages := r.1 })
    else (0, { h with pages := r.1 })

def kheapInit (h : Heap π) : Heap π :=
  let r := sbrk L h pageSize
  if r.1 = 0 then { r.2 with start := 0 }
  else
    { r.2 with
      start := r.1
      memory := writeHeader r.2.memory r.1 ⟨blockMagic, pageSize, 1, 0, 0⟩ }

/-- Bound on the length of any block list inside the heap; the list walks stop there. -/
def walkBound : ℕ := heapMaxSize

def findFreeBlock (m : ℕ → UInt8) (size : ℕ) : ℕ → ℕ → Option ℕ
  | 0, _ => none
  | n + 1, current =>
    if current = 0 then some 0
    else if (header m current).magic ≠ blockMagic then some 0
    else if (header m current).isFree ≠ 0 ∧ size ≤ (header m current).size then some current
    else findFreeBlock m size n (header m current).next

def splitBlock (m : ℕ → UInt8) (block size : ℕ) : ℕ → UInt8 :=
  if (header m block).size > (size + sizeofBlockHeader + 16) % 2 ^ 32 then
    let newBlock := (block + size) % 2 ^ 32
    let m₁ := writeHeader m newBlock
      ⟨blockMagic, ((header m block).size + 2 ^ 32 - size) % 2 ^ 32, 1, (header m block).next, block⟩
    let m₂ := if (header m₁ block).next ≠ 0 then setPrev m₁ (header m₁ block).next newBlock else m₁
    setSize (setNext m₂ block newBlock) block size
  else m

def lastBlock (m : ℕ → UInt8) : ℕ → ℕ → Option ℕ
  | 0, _ => none
  | n + 1, current =>
    if (header m current).next = 0 then some current else lastBlock m n (header m current).next

def alignedSize (size : ℕ) : ℕ :=
  (((size + 7) % 2 ^ 32 &&& 0xFFFFFFF8) + sizeofBlockHeader) % 2 ^ 32

def extend (h : Heap π) (size : ℕ) : Option (ℕ × Heap π) :=
  let allocSize := if size > pageSize then size else pageSize
  let r := sbrk L h allocSize
  if r.1 = 0 then some (0, r.2)
  else
    let m := writeHeader r.2.memory r.1 ⟨blockMagic, allocSize, 1, 0, 0⟩
    if r.2.start = 0 then some (r.1, { r.2 with start := r.1, memory := m })
    else
      (lastBlock m walkBound r.2.start).map fun current =>
        (r.1, { r.2 with memory := setPrev (setNext m current r.1) r.1 current })

/-- `none` is a call whose list walk does not end. -/
def kmalloc (h : Heap π) (size : ℕ) : Option (ℕ × Heap π) :=
  if size = 0 then some (0, h)
  else
    let size := alignedSize size
    (findFreeBlock h.memory size walkBound h.start).bind fun found =>
      (if found = 0 then extend L h size else some (found, h)).map fun r =>
        if r.1 = 0 then (0, r.2)
        else
          ((r.1 + sizeofBlockHeader) % 2 ^ 32,
            { r.2 with memory := setIsFree (splitBlock r.2.memory r.1 size) r.1 0 })

def mergeNext : ℕ → (ℕ → UInt8) → ℕ → Option (ℕ → UInt8)
  | 0, _, _ => none
  | n + 1, m, block =>
    let next := (header m block).next
    if next ≠ 0 ∧ (header m next).isFree ≠ 0 then
      let m₁ := setSize m block (((header m block).size + (header m next).size) % 2 ^ 32)
      let m₂ := setNext m₁ block (header m₁ next).next
      let m₃ := if (header m₂ block).next ≠ 0 then setPrev m₂ (header m₂ block).next block else m₂
      mergeNext n m₃ block
    else some m

def mergePrev (m : ℕ → UInt8) (block : ℕ) : ℕ → UInt8 :=
  let prev := (header m block).prev
  if prev ≠ 0 ∧ (header m prev).isFree ≠ 0 then
    let m₁ := setSize m prev (((header m prev).size + (header m block).size) % 2 ^ 32)
    let m₂ := setNext m₁ prev (header m₁ block).next
    if (header m₂ block).next ≠ 0 then setPrev m₂ (header m₂ block).next prev else m₂
  else m

def mergeFreeBlocks (m : ℕ → UInt8) (block : ℕ) : Option (ℕ → UInt8) :=
  (mergeNext walkBound m block).map fun m => mergePrev m block

def kfree (h : Heap π) (ptr : ℕ) : Option (Heap π) :=
  if ptr = 0 then some h
  else
    let block := (ptr + 2 ^ 32 - sizeofBlockHeader) % 2 ^ 32
    if (header h.memory block).magic ≠ blockMagic then some h
    else
      (mergeFreeBlocks (setIsFree h.memory block 1) block).map fun m => { h with memory := m }

end Heap

end Veni.Memory

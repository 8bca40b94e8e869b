import Veni.Filesystem.VfsOperations
import Veni.Lib.Transition

/-! Writes stay inside the buffers of their files, up to the limit of the 32-bit offset. -/

namespace Veni.Filesystem

open Veni.Libc Veni.Lib.Transition

namespace Ramfs

/-- Every file's size is at most its capacity, which is the size of its buffer. -/
def Bounded (r : Ramfs) : Prop :=
  ∀ i, (r.inodes i).used = true → (r.inodes i).size ≤ (r.inodes i).capacity ∧
    (0 < (r.inodes i).capacity → (r.inodes i).data ≠ none) ∧
    ∀ p, (r.inodes i).data = some p → ∃ b, r.heap.buffers p = some b ∧ b.size = (r.inodes i).capacity

/-- No access leaves the file's buffer, the bounds hold again, and a write whose end does not fit in
32 bits is refused. -/
def SafeWrite (r : Ramfs) (i : ℕ) (buf : List UInt8) (offset : ℕ) : Prop :=
  ∃ n offset' r', ramfsWrite r i buf offset = some (n, offset', r') ∧ Bounded r' ∧
    (2 ^ 32 ≤ offset + buf.length →
      n = 0 ∧ offset' = offset ∧ r'.inodes = r.inodes ∧ r'.heap.buffers = r.heap.buffers)

variable {r : Ramfs} {i offset : ℕ} {buf : List UInt8}

lemma Storage.bounded (hs : Storage r) : Bounded r := by
  intro i hu
  refine ⟨hs.size_le i hu, fun hpos hd => ?_, fun p hp => hs.buffer i p hu hp⟩
  rw [hs.empty i hu hd] at hpos
  exact absurd hpos (Nat.lt_irrefl 0)

lemma Storage.failed (hs : Storage r) :
    Storage { r with heap := { r.heap with calls := r.heap.calls + 1 } } :=
  have hst : Stays r { r with heap := { r.heap with calls := r.heap.calls + 1 } } :=
    hs.alloc rfl rfl rfl fun _ _ => rfl
  hst.storage

lemma Storage.safeWrite (hs : Storage r) (hlt : offset + buf.length < 2 ^ 32) : SafeWrite r i buf offset := by
  cases hopen : r.isOpenFile i with
  | false => exact ⟨0, offset, r, if_pos hopen, hs.bounded, by omega⟩
  | true =>
    rcases hs.write hopen hlt with ⟨he, _⟩ | ⟨r', he, hw⟩
    · exact ⟨0, offset, _, he, hs.failed.bounded, by omega⟩
    · exact ⟨buf.length, offset + buf.length, r', he, hw.storage.bounded, by omega⟩

lemma Storage.safeWrite_iff (hs : Storage r) :
    SafeWrite r i buf offset ↔
      offset + buf.length < 2 ^ 32 ∨ r.isOpenFile i = false ∨
        ((r.inodes i).capacity < (offset + buf.length) % 2 ^ 32 ∧ r.heap.outcome r.heap.calls = none) := by
  by_cases hlt : offset + buf.length < 2 ^ 32
  · exact iff_of_true (hs.safeWrite hlt) (.inl hlt)
  · rw [or_iff_right hlt]
    cases hopen : r.isOpenFile i with
    | false =>
      apply iff_of_true _ (.inl rfl)
      exact ⟨0, offset, r, if_pos hopen, hs.bounded, fun _ => ⟨rfl, rfl, rfl, rfl⟩⟩
    | true =>
      rw [or_iff_right (by simp)]
      rcases hs.write_wrap hopen (not_lt.mp hlt) with ⟨hc, he⟩ | ⟨hc, he⟩
      · exact iff_of_true ⟨0, offset, _, he, hs.failed.bounded, fun _ => ⟨rfl, rfl, rfl, rfl⟩⟩ hc
      · apply iff_of_false _ hc
        rintro ⟨n, offset', r', hw, -⟩
        rw [he] at hw
        cases hw

end Ramfs

namespace Vfs

/-- In every reachable state a write stays inside its file's buffer, or is refused, if and only if its
end fits in 32 bits, or there is no open file, or a new buffer of the wrapped size is needed and
`malloc` has none. -/
theorem writes_inside {v₀ v : Vfs} {ls : List (Op × Result)} (hb : Booted v₀) (hrun : Run Step v₀ ls v)
    (i : ℕ) (buf : List UInt8) (offset : ℕ) :
    Ramfs.SafeWrite v.ramfs i buf offset ↔
      offset + buf.length < 2 ^ 32 ∨ v.ramfs.isOpenFile i = false ∨
        ((v.ramfs.inodes i).capacity < (offset + buf.length) % 2 ^ 32 ∧
          v.ramfs.heap.outcome v.ramfs.heap.calls = none) :=
  (ready_of_run hb hrun).storage.safeWrite_iff

def farOffset : List (Op × Result) :=
  [(.create (cstring "/a"), .fd (some 0)), (.lseek 0 4294967295, .status true)]

lemma farOffset_run : Run Step bootedZero farOffset ((farOffset.map Prod.fst).foldl next bootedZero) :=
  .cons (step_next rfl) (.cons (step_next rfl) (.nil _))

theorem writes_inside_far :
    ∃ v, Run Step bootedZero farOffset v ∧ Ramfs.SafeWrite v.ramfs 1 [7] 4294967294 :=
  ⟨_, farOffset_run, (writes_inside bootedZero_booted farOffset_run 1 [7] 4294967294).mpr
    (.inl (by decide))⟩

/-- The end wraps to 1: a buffer of one byte is filled with zeros up to the offset. -/
theorem write_leaves_buffer :
    ∃ v, Run Step bootedZero farOffset v ∧ (v.fileNode 0).map VfsNode.fsFd = some 1 ∧
      (v.files 0).offset = 4294967295 ∧ ¬ Ramfs.SafeWrite v.ramfs 1 [7, 8] (v.files 0).offset := by
  refine ⟨_, farOffset_run, rfl, rfl, ?_⟩
  rw [(ready_of_run bootedZero_booted farOffset_run).storage.safeWrite_iff]
  rintro (hlt | hclosed | ⟨-, hout⟩)
  · exact absurd hlt (by decide)
  · cases hclosed
  · cases hout

end Vfs

end Veni.Filesystem

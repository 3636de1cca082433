import Mathlib.Algebra.Ring.Nat
import Mathlib.Data.List.Basic

set_option autoImplicit false

/-! # Reads from an open file of a mount (`mount/reader.rs`)

An open handle holds the bytes of a file, or a temporary file with them. `Reader::pread` asks the
system once, and hands on what it gets; how much that is, is up to the system (`OsRead`).
`pread_full_iff` says when a reply is all that was asked for. -/

namespace BaleForGit.Mount

/-! ## Handles -/

/-- The bytes of a file, or a temporary file with its declared size. -/
inductive HandleData where
  | bytes (data : List UInt8)
  | tempfile (content : List UInt8) (size : Nat)
deriving DecidableEq, Repr

def HandleData.content : HandleData → List UInt8
  | .bytes data => data
  | .tempfile content _ => content

/-- An open handle: a temporary file has the size that is declared. -/
structure OpenHandle where
  data : HandleData
  declared : ∀ content size, data = .tempfile content size → size = content.length

/-- How many bytes the system reads for a positional read of `want` bytes of the file: one at
    least when there are some, and perhaps fewer than were wanted. -/
structure OsRead (content : List UInt8) where
  count : Nat → Nat → Nat
  le : ∀ offset want, count offset want ≤ min want (content.length - offset)
  pos : ∀ offset want, 0 < min want (content.length - offset) → 0 < count offset want

/-- A system that reads byte by byte. -/
def byteRead (content : List UInt8) : OsRead content where
  count offset want := min 1 (min want (content.length - offset))
  le offset want := Nat.min_le_right _ _
  pos offset want h := by omega

inductive PreadError where
  | unknownHandle (fh : Nat)
  | overflow
deriving DecidableEq, Repr

/-- 2^64, one more than the greatest `usize`. -/
def usizeBound : Nat := 18446744073709551616

/-- The arms of `Reader::pread`. -/
def HandleData.read (h : HandleData) (os : OsRead h.content) (offset len : Nat) :
    Except PreadError (List UInt8) :=
  match h with
  | .bytes b =>
    if offset ≥ b.length then .ok []
    else if offset + len ≥ usizeBound then .error .overflow
    else .ok ((b.drop offset).take (min (offset + len) b.length - offset))
  | .tempfile content size =>
    if offset ≥ size then .ok []
    else
      let want := min len (size - offset)
      -- the buffer is cut to what has been read
      .ok ((content.drop offset).take (os.count offset want))

/-- `Reader::pread`. -/
def pread (handles : Nat → Option OpenHandle) (fh : Nat)
    (os : ∀ h : OpenHandle, OsRead h.data.content) (offset len : Nat) :
    Except PreadError (List UInt8) :=
  match handles fh with
  | none => .error (.unknownHandle fh)
  | some h => h.data.read (os h) offset len

/-! ## Full replies -/

/-- The bytes from `offset` to `offset + len`, or to the end. -/
def slice (content : List UInt8) (offset len : Nat) : List UInt8 :=
  (content.drop offset).take (min (offset + len) content.length - offset)

/-- The reply can be had: nothing is left to read, or the end of the read can be computed, or the
    system reads all it is asked for. -/
def OpenHandle.Served (h : OpenHandle) (os : OsRead h.data.content) (offset len : Nat) : Prop :=
  h.data.content.length ≤ offset ∨
  match h.data with
  | .bytes _ => offset + len < usizeBound
  | .tempfile _ _ => os.count offset (min len (h.data.content.length - offset)) =
      min len (h.data.content.length - offset)

theorem slice_eq_nil {content : List UInt8} {offset : Nat} (h : content.length ≤ offset)
    (len : Nat) : slice content offset len = [] := by
  unfold slice
  rw [List.drop_of_length_le h, List.take_nil]

theorem slice_eq (content : List UInt8) (offset len : Nat) :
    slice content offset len = (content.drop offset).take len := by
  unfold slice
  rcases Nat.le_total (offset + len) content.length with hle | hle
  · rw [min_eq_left hle, Nat.add_sub_cancel_left]
  · rw [min_eq_right hle, List.take_of_length_le (by rw [List.length_drop]),
      List.take_of_length_le (by rw [List.length_drop]; omega)]

theorem length_slice (content : List UInt8) (offset len : Nat) :
    (slice content offset len).length = min len (content.length - offset) := by
  rw [slice_eq, List.length_take, List.length_drop]

/-- **When a reply is full.** -/
theorem OpenHandle.read_eq_slice_iff (h : OpenHandle) (os : OsRead h.data.content)
    (offset len : Nat) :
    h.data.read os offset len = .ok (slice h.data.content offset len) ↔ h.Served os offset len := by
  obtain ⟨data, declared⟩ := h
  cases data with
  | bytes b =>
      simp only [OpenHandle.Served, HandleData.read, HandleData.content]
      by_cases hend : b.length ≤ offset
      · rw [if_pos hend, slice_eq_nil hend]
        exact iff_of_true rfl (Or.inl hend)
      · rw [if_neg hend]
        by_cases hover : offset + len ≥ usizeBound
        · rw [if_pos hover]
          exact iff_of_false (by simp) (by omega)
        · rw [if_neg hover]
          exact iff_of_true rfl (Or.inr (Nat.lt_of_not_le hover))
  | tempfile content size =>
      obtain rfl := declared content size rfl
      simp only [OpenHandle.Served, HandleData.read, HandleData.content]
      by_cases hend : content.length ≤ offset
      · rw [if_pos hend, slice_eq_nil hend]
        exact iff_of_true rfl (Or.inl hend)
      · rw [if_neg hend, or_iff_right hend, Except.ok.injEq]
        have hle := os.le offset (min len (content.length - offset))
        change os.count offset _ ≤ min (min len (content.length - offset))
          (content.length - offset) at hle
        constructor
        · intro heq
          have hlen := congrArg List.length heq
          rw [length_slice, List.length_take, List.length_drop] at hlen
          omega
        · intro hcount
          rw [hcount, slice_eq, ← List.length_drop, ← List.take_eq_take_min]

/-! ## Sequential reads -/

/-- A block of a sequential read: its size, and what the system does then. -/
structure Block (h : OpenHandle) where
  len : Nat
  os : OsRead h.data.content

/-- One block after the other, as the kernel asks for them. -/
def readBlocks (h : OpenHandle) : Nat → List (Block h) → Except PreadError (List UInt8)
  | _, [] => .ok []
  | offset, b :: blocks => do
    let bytes ← h.data.read b.os offset b.len
    let more ← readBlocks h (offset + b.len) blocks
    return bytes ++ more

/-- Each of the reads can be had in full. -/
def BlocksServed (h : OpenHandle) : Nat → List (Block h) → Prop
  | _, [] => True
  | offset, b :: blocks => h.Served b.os offset b.len ∧ BlocksServed h (offset + b.len) blocks

/-- **Full replies are the file**, as far as it has been asked for. -/
theorem readBlocks_eq {h : OpenHandle} {offset : Nat} {blocks : List (Block h)}
    (hserved : BlocksServed h offset blocks) :
    readBlocks h offset blocks =
      .ok ((h.data.content.drop offset).take (blocks.map Block.len).sum) := by
  induction blocks generalizing offset with
  | nil => rw [readBlocks, List.map_nil, List.sum_nil, List.take_zero]
  | cons b blocks ih =>
      obtain ⟨hfirst, hrest⟩ := hserved
      rw [readBlocks, (h.read_eq_slice_iff b.os offset b.len).2 hfirst, ih hrest, slice_eq,
        List.map_cons, List.sum_cons, List.take_add, List.drop_drop]
      rfl

/-- **Mount reads.** A read returns the slice it was asked for exactly when the system serves it, and
    blocks that are all served reassemble the file. -/
theorem pread_full_iff {handles : Nat → Option OpenHandle} {fh : Nat} {h : OpenHandle}
    (hopen : handles fh = some h) :
    (∀ (os : ∀ h : OpenHandle, OsRead h.data.content) offset len,
      pread handles fh os offset len = .ok (slice h.data.content offset len) ↔
        h.Served (os h) offset len) ∧
    ∀ blocks : List (Block h), BlocksServed h 0 blocks →
      readBlocks h 0 blocks = .ok (h.data.content.take (blocks.map Block.len).sum) := by
  constructor
  · intro os offset len
    unfold pread
    rw [hopen]
    exact h.read_eq_slice_iff (os h) offset len
  · intro blocks hserved
    rw [readBlocks_eq hserved, List.drop_zero]

/-- A temporary file of two bytes. -/
def twoBytes : OpenHandle := ⟨.tempfile [1, 2] 2, by
  intro content size h
  cases h
  rfl⟩

/-- A system that reads all it is asked for. -/
def wholeRead (content : List UInt8) : OsRead content where
  count offset want := min want (content.length - offset)
  le _ _ := Nat.le_refl _
  pos _ _ h := h

/-- A read that the system serves whole; and the same file in two blocks, a byte from a system that
    reads byte by byte, then more than there is. -/
theorem pread_full_two_bytes :
    pread (fun _ => some twoBytes) 1 (fun h => wholeRead h.data.content) 0 2 = .ok [1, 2] ∧
    readBlocks twoBytes 0 [⟨1, byteRead twoBytes.data.content⟩,
      ⟨8, wholeRead twoBytes.data.content⟩] = .ok [1, 2] := by
  have hfull := @pread_full_iff (fun _ => some twoBytes) 1 twoBytes rfl
  exact ⟨(hfull.1 (fun h => wholeRead h.data.content) 0 2).2 (Or.inr rfl),
    hfull.2 _ ⟨Or.inr rfl, Or.inr rfl, trivial⟩⟩

/-- A short read in the middle of a file is handed on. -/
theorem short_read_handed_on :
    pread (fun _ => some twoBytes) 1 (fun h => byteRead h.data.content) 0 2 = .ok [1] ∧
    ¬ pread (fun _ => some twoBytes) 1 (fun h => byteRead h.data.content) 0 2 =
      .ok (slice twoBytes.data.content 0 2) := by
  decide

end BaleForGit.Mount

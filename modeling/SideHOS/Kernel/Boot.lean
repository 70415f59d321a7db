import SideHOS.Kernel.State

/-!
# The memory map at boot

The loop of `kmain` that turns the usable entries of the bootloader's memory map into segments.
It reads the cursor of the table as the `int8_t` it is declared as, so that it may store before
the table; what is there is no part of `Memory`.
-/

namespace SideHOS.Kernel

open Machine.Word64

@[ext]
structure MemmapEntry where
  base : ℕ
  length : ℕ
  type : ℕ
  deriving DecidableEq

abbrev limineMemmapUsable : ℕ := 0

/-- `(address + 0xfff) & ~0xfff`. -/
def alignUp (address : ℕ) : ℕ := add address 0xfff / 0x1000 * 0x1000

/-- The store `segments[index] = segment`. -/
def FreeList.storeSegment (freelist : FreeList) (index : ℤ) (segment : Segment) : FreeList :=
  if 0 ≤ index ∧ index < 255 then freelist.setSegment index.toNat segment else freelist

/-- `Memory.freelist` in the loop, and the indices at which the loop has stored. -/
structure Intake where
  freelist : FreeList
  stores : List ℤ

/-- `segments[*cursor] = segment; (*cursor)++;` -/
def Intake.append (intake : Intake) (segment : Segment) : Intake :=
  let index := int8 intake.freelist.cursor
  let freelist := intake.freelist.storeSegment index segment
  { freelist := { freelist with cursor := (freelist.cursor + 1) % 256 }
    stores := intake.stores ++ [index] }

def intakeEntry (intake : Intake) (entry : MemmapEntry) : Intake :=
  if entry.type = limineMemmapUsable then
    let alignedStart := alignUp entry.base
    let segmentEnd := sub (add entry.base entry.length) 1
    let alignedEnd := alignUp segmentEnd
    if alignedStart ≠ alignedEnd then
      intake.append ⟨alignedStart, sub alignedEnd alignedStart / 2 ^ 12⟩
    else intake
  else intake

/-- `Memory` before the loop. -/
def emptyIntake : Intake where
  freelist := ⟨fun _ ↦ ⟨0, 0⟩, 0⟩
  stores := []

/-- The loop over the entries of the memory map. -/
def kmainIntake (entries : List MemmapEntry) : Intake := entries.foldl intakeEntry emptyIntake

end SideHOS.Kernel

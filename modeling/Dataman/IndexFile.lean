import Dataman.Checksum
import Dataman.FailState
import Dataman.FixedWidthFields

/-!
# The index file: header, root slots and publication

The first 128 bytes of an index hold fixed fields and two root slots. Publication
writes the slot of the new generation's parity; a reader takes the valid slot with
the larger generation.
-/

namespace Dataman.IndexFile
open ByteFiles FixedWidthFields Checksum

/-- Why an index routine returned false. The source only returns the boolean. -/
inductive Fault
  | io | header | argument | badNode | duplicate | missing | keyCount | pageOverflow
  | internalCount | siblingKind | emptyLeaf | livePages | publish | depth
  deriving DecidableEq,Repr

/-- The file, the writes issued so far, and the allocator part of the context. -/
structure IndexState where
  bytes : Bytes
  writes : List (ℕ × Bytes) := []
  nextOffset : ℕ := 0
  freePages : List ℕ := []
  deriving DecidableEq,Repr

abbrev IndexM := FailState IndexState Fault

def int64Max : ℕ := 2 ^ 63 - 1

/-- A file write. The range check refuses what does not end within `INT64_MAX`. -/
def writeFullAt (data : Bytes) (off : ℕ) : IndexM Unit := fun s =>
  if off+data.length ≤ int64Max then
    (.ok (),{ s with bytes := writeAt s.bytes off data,writes := s.writes++[(off,data)] })
  else (.error .io,s)

def putU16 (v : ℕ) : Bytes := putBE 2 v
def putU32 (v : ℕ) : Bytes := putBE 4 v
def putU64 (v : ℕ) : Bytes := putBE 8 v
def getU16 (buf : Bytes) (off : ℕ) : ℕ := getBE (slice buf off 2)
def getU32 (buf : Bytes) (off : ℕ) : ℕ := getBE (slice buf off 4)
def getU64 (buf : Bytes) (off : ℕ) : ℕ := getBE (slice buf off 8)

/-- "DMIDXV2" -/
def magic : Bytes := [0x44,0x4d,0x49,0x44,0x58,0x56,0x32]

def flagBuilding : ℕ := 1

/-- Node capacity, and the size of one page for a key length. -/
def maxKeys : ℕ := 12

def indexV2PageSize (keylen : ℕ) : ℕ :=
  let size := 16+(maxKeys+1)*8+maxKeys*(keylen+2+8)
  (size+63) / 64*64 % 2 ^ 16

def headerBytes (keylen fileCount namesLength pageSize flags : ℕ) : Bytes :=
  magic++[0]++putU16 2++putU16 128++putU16 keylen++putU16 fileCount ++
    putU32 namesLength++putU16 pageSize++putU16 flags++List.replicate 104 0

def writeHeader (keylen fileCount namesLength pageSize flags : ℕ) : IndexM Unit :=
  writeFullAt (headerBytes keylen fileCount namesLength pageSize flags) 0

/-! ## Root slots -/

structure Slot where
  rootOffset : ℕ
  rootCrc : ℕ
  generation : ℕ
  deriving DecidableEq,Repr

/-- The 20 bytes a slot's checksum covers. -/
def slotBody (s : Slot) : Bytes := putU64 s.generation++putU64 s.rootOffset++putU32 s.rootCrc

def slotBytes (s : Slot) : Bytes :=
  slotBody s++putU32 (indexV2Crc32 (slotBody s)).toNat++List.replicate 8 0

def readSlot (slot : Bytes) : Option Slot :=
  let storedCrc := getU32 slot 20
  if storedCrc = 0 ∨ storedCrc≠(indexV2Crc32 (slice slot 0 20)).toNat then none
  else
    let generation := getU64 slot 0
    let rootOffset := getU64 slot 8
    let rootCrc := getU32 slot 16
    if generation≠0 ∧ 128 ≤ rootOffset then some ⟨rootOffset,rootCrc,generation⟩ else none

/-- Generations of odd number live in slot 0, the others in slot 1. -/
def slotOffset (generation : ℕ) : ℕ := if generation % 2 = 1 then 32 else 64

def publishRoot (root : Slot) : IndexM Unit := do
  .ensure (decide (128 ≤ root.rootOffset ∧ root.generation≠0)) .publish
  writeFullAt (slotBytes root) (slotOffset root.generation)

/-! ## Reading the header -/

structure Header where
  keylen : ℕ
  fileCount : ℕ
  root : Slot
  deriving DecidableEq,Repr

/-- The checks on magic, version, header size and flags. -/
def fixedFields (header : Bytes) (flags : ℕ) : Bool :=
  slice header 0 7 = magic && getU16 header 8 = 2 && getU16 header 10 = 128 && getU16 header 22 = flags

def slot0 (header : Bytes) : Option Slot := readSlot (slice header 32 32)
def slot1 (header : Bytes) : Option Slot := readSlot (slice header 64 32)

/-- Slot 0 is taken when slot 1 is not valid or has a smaller generation. -/
def selectSlot (valid0 valid1 : Option Slot) : Option Slot :=
  match valid0,valid1 with
  | none,none => none
  | some a,none => some a
  | none,some b => some b
  | some a,some b => if a.generation > b.generation then some a else some b

def indexV2ReadHeader (f : Bytes) : Option Header := do
  let header ← readAt f 0 128
  guard (fixedFields header 0)
  let root ← selectSlot (slot0 header) (slot1 header)
  let keylen := getU16 header 12
  let fileCount := getU16 header 14
  guard (0 < keylen ∧ 0 < fileCount)
  return ⟨keylen,fileCount,root⟩

/-- The header of a file that is still being built: key length, file count and build root. -/
def v2ReadBuildHeader (f : Bytes) : Option (ℕ × ℕ × ℕ) := do
  let header ← readAt f 0 128
  guard (fixedFields header flagBuilding)
  let keylen := getU16 header 12
  let fileCount := getU16 header 14
  let root := getU64 header 24
  guard (0 < keylen ∧ keylen ≤ 32 ∧ 0 < fileCount ∧ 128 ≤ root)
  return (keylen,fileCount,root)

def indexV2ReadPageSize (f : Bytes) (keylen : ℕ) : Option ℕ := do
  let header ← readAt f 0 128
  let stored := getU16 header 20
  let stored := if stored = 0 then 1024 else stored
  guard (¬ (stored < indexV2PageSize keylen ∨ stored % 64≠0))
  return stored

end Dataman.IndexFile

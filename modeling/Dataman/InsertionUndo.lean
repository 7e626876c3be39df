import Dataman.DeletionUndo

/-!
# An insertion that fails

The pointers of the neighbours are written before the record is. A pointer that cannot be
written is taken back; a record or a head pointer that cannot be written leaves the
neighbours pointing at it.
-/

namespace Dataman.DataFile
open ByteFiles FixedWidthFields FailState

variable {file : Files} {recs : List Record} {chain : List ℕ} {f : Bytes} {d : Disk} {E : Code → Disk → Prop}

/-- The links of the records and the head pointer are the same. -/
def LinksKept (file : Files) (recs : List Record) (f g : Bytes) : Prop :=
  contents file g .head = contents file f .head ∧
    ∀ r∈recs,contents file g (.prev r.off) = contents file f (.prev r.off) ∧ contents file g (.next r.off) = contents file f (.next r.off)

/-- The pointer of the anchor that an insertion overwrites. -/
def Place.link (a : ℕ) : Place → Loc
  | before => .prev a
  | after => .next a

theorem LinksKept.link {g : Bytes} (h : LinksKept file recs f g) {r : Record} (hr : r∈recs) (place : Place) :
    contents file g (place.link r.off) = contents file f (place.link r.off) := by
  cases place with
  | before => exact (h.2 r hr).1
  | after => exact (h.2 r hr).2

end Dataman.DataFile

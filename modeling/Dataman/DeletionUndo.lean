import Dataman.PatchedFiles
import Dataman.RecordChain

/-!
# A deletion that fails

Every read and write of a deletion may fail. The error labels write back what was
overwritten, in the reverse order; but once the header of the neighbour has been read, the
flag byte they write is that of the neighbour.
-/

namespace Dataman.DataFile
open ByteFiles FixedWidthFields FailState LinkedChain

variable {file : Files} {recs : List Record} {chain : List ℕ} {f : Bytes} {d : Disk} {E : Code → Disk → Prop}

/-! ## Input and output that may fail -/

variable {Q : Unit → Disk → Prop} {cond : Bool} {v : ℕ} {x : ℤ} {otherwise : DiskM Unit}

variable {n : ℕ}

theorem wp_tryRead_either {Q : Option Bytes → Disk → Prop} (hfail : ∀ d',d'.bytes = d.bytes → Q none d')
    (hok : ∀ d',d'.bytes = d.bytes → (slice d.bytes d.pos n).length = n → Q (some (slice d.bytes d.pos n)) d') :
    wp (tryRead n) d Q E := by
  obtain ⟨o,d',hrun,h⟩ : ∃ o d',tryRead n d = (.ok o,d') ∧ Q o d' := by
    simp only [tryRead]
    split
    · exact ⟨_,_,rfl,hfail _ rfl⟩
    · split
      · rename_i hlen
        exact ⟨_,_,rfl,hok _ rfl hlen⟩
      · exact ⟨_,_,rfl,hfail _ rfl⟩
  rwa [wp_of_ok hrun]

variable {off : ℕ}

theorem wp_llseek_any (h : ∀ d',d'.bytes = d.bytes → d'.pos = off → Q () d') :
    wp (llseek off) d Q E := by
  rw [llseek,wp_modify,if_pos (Int.natCast_nonneg off)]
  exact h _ rfl (Int.toNat_natCast off)

/-! ## The error labels -/

/-- A place if the write to it was made. -/
def place (written : Bool) (off : ℕ) : List (ℕ × ℕ) := if written then [(off,8)] else []

variable {places : List (ℕ × ℕ)}

variable {a : ℕ}

variable {p fmt label : ℕ} {bof : ℤ}

/-- No record format has blobs. -/
def Files.Plain (file : Files) : Prop := ∀ format∈file.formats,format.hasBlob = false

theorem Files.Plain.format (h : file.Plain) (fmt : ℕ) : (file.format fmt).hasBlob = false := by
  rw [Files.format,List.getD_eq_getElem?_getD]
  cases hget : file.formats[fmt - 1]? with
  | none => rfl
  | some format => exact h format (List.mem_of_getElem? hget)

def noBlobs : Blobs := ⟨fun _ _ _ => 0,fun _ _ => 0⟩

end Dataman.DataFile

import Dataman.IndexCrash

/-!
# Updates after an interrupted update

What an interrupted update leaves is an index again, as long as it is made of whole pages. A page
that was appended in part leaves a file of another length, which `v2_collect_free_pages` refuses.
-/

namespace Dataman.IndexFile
open ByteFiles FixedWidthFields Checksum FailState PageTree

variable {ctx : Context} {first : ℕ} {f g f' : Bytes} {ws : List (ℕ × Bytes)}

/-- An insert succeeds, and the entry is then one of the index. -/
structure Added (keylen : ℕ) (c : Composite) (entries : List Bytes) (out : Except Fault Unit) (f : Bytes) : Prop where
  ok : out = .ok ()
  walk : walk f = some (entries.orderedInsert (· ≤ ·) (c.encode keylen))

/-! ## Interrupted writes -/

theorem Interrupted.eq_of_nil (h : Interrupted f [] g) : g = f := by
  cases h with
  | between n => rw [List.take_nil,applyWrites_nil]
  | torn next => simp at next

theorem length_writeAt_mono (f : Bytes) (off : ℕ) {part data : Bytes} (h : part.length ≤ data.length) :
    (writeAt f off part).length ≤ (writeAt f off data).length := by
  by_cases hp : part = []
  · rw [hp,writeAt_nil]
    exact length_le_writeAt f off data
  · have hd : data≠[] := by
      rintro rfl
      exact hp (List.length_eq_zero_iff.1 (Nat.le_zero.1 h))
    rw [length_writeAt _ _ _ hp,length_writeAt _ _ _ hd]
    omega

/-- The file is not longer than after all the writes. -/
theorem Interrupted.length_le (h : Interrupted f ws g) : g.length ≤ (applyWrites f ws).length := by
  cases h with
  | between n =>
    conv_rhs => rw [← List.take_append_drop n ws,applyWrites_append]
    exact length_le_applyWrites _ _
  | @torn n w part next part_le =>
    have hsplit : ws = ws.take n++w::ws.drop (n+1) := by
      obtain ⟨hn,rfl⟩ := List.getElem?_eq_some_iff.1 next
      rw [List.getElem_cons_drop,List.take_append_drop]
    conv_rhs => rw [hsplit,applyWrites_append,applyWrites_cons]
    rw [applyWrites_append,applyWrites_cons,applyWrites_nil]
    exact (length_writeAt_mono _ _ part_le).trans (length_le_applyWrites _ _)

end Dataman.IndexFile

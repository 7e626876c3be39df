import Dataman.ByteFiles

/-!
# Writes that are taken back

A file that differs from another one in some places only, as a stack: a write puts its
place on the stack, and writing the old bytes back takes it off again.
-/

namespace Dataman.ByteFiles

/-- `g` is as long as `f` and has other bytes in the places only, each an offset and a length. -/
structure Patched (f g : Bytes) (places : List (ℕ × ℕ)) : Prop where
  length : g.length = f.length
  same : ∀ i,(∀ place∈places,i < place.1 ∨ place.1+place.2 ≤ i) → g[i]? = f[i]?

/-- A byte of a file after a write inside it. -/
theorem getElem?_writeAt_inside {g data : Bytes} {off : ℕ} (hin : off+data.length ≤ g.length) (i : ℕ) :
    (writeAt g off data)[i]? = if off ≤ i ∧ i < off+data.length then data[i - off]? else g[i]? := by
  by_cases hd : data = []
  · simp only [hd,writeAt_nil,List.length_nil,Nat.add_zero]
    rw [if_neg (by omega)]
  · rw [getElem?_writeAt _ _ _ hd]
    congr 1
    split
    · rfl
    · rw [List.getElem?_eq_none (by omega),if_neg (by omega)]

namespace Patched

variable {f g : Bytes} {places : List (ℕ × ℕ)} {off len : ℕ} {data : Bytes}

theorem refl (f : Bytes) : Patched f f [] := ⟨rfl,fun _ _ => rfl⟩

theorem eq (h : Patched f g []) : g = f := by
  apply List.ext_getElem?
  intro i
  exact h.same i (by simp)

theorem length_write (h : Patched f g places) (hin : off+data.length ≤ f.length) :
    (writeAt g off data).length = f.length := by
  by_cases hd : data = []
  · rw [hd,writeAt_nil,h.length]
  · rw [length_writeAt _ _ _ hd,h.length]
    omega

theorem write (h : Patched f g places) (hin : off+data.length ≤ f.length) :
    Patched f (writeAt g off data) ((off,data.length)::places) := by
  refine ⟨h.length_write hin,fun i hi => ?_⟩
  have hout : i < off ∨ off+data.length ≤ i := hi (off,data.length) (by simp)
  rw [getElem?_writeAt_inside (by rw [h.length]; exact hin),if_neg (by omega)]
  exact h.same i fun place hplace => hi place (List.mem_cons_of_mem _ hplace)

/-- The old bytes in the last place. -/
theorem restore (h : Patched f g ((off,len)::places)) (hin : off+len ≤ f.length) (hdata : data = slice f off len) :
    Patched f (writeAt g off data) places := by
  have hlen : data.length = len := by rw [hdata,length_slice_of_le hin]
  refine ⟨h.length_write (by omega),fun i hi => ?_⟩
  rw [getElem?_writeAt_inside (by rw [h.length]; omega)]
  split
  · rw [hdata,getElem?_slice,if_pos (by omega),Nat.add_sub_cancel' (by omega)]
  · apply h.same
    intro place hplace
    obtain rfl | hplace := List.mem_cons.1 hplace
    · simp only
      omega
    · exact hi place hplace

end Patched

end Dataman.ByteFiles

import Mathlib.Data.List.Basic
import Mathlib.Order.Lattice

/-!
# Files as byte lists

Positional reads, writes and truncation as POSIX gives them: a write past the end
fills the gap with zero bytes, an empty write changes nothing, and a read of a
range that is not wholly inside the file fails.
-/

variable {f pre field post bs : Bytes} {off len n o : ℕ}

namespace Dataman

/-- File contents and buffers. -/
abbrev Bytes := List UInt8

namespace ByteFiles

/-- The bytes at `[off, off + len)`, as far as they exist. -/
def slice (f : Bytes) (off len : ℕ) : Bytes := (f.drop off).take len

/-- Read exactly `len` bytes at `off`. -/
def readAt (f : Bytes) (off len : ℕ) : Option Bytes :=
  if len = 0 ∨ off+len ≤ f.length then some (slice f off len) else none

/-- Write `data` at `off`. -/
def writeAt (f : Bytes) (off : ℕ) (data : Bytes) : Bytes :=
  if data = [] then f
  else (f++List.replicate (off - f.length) 0).take off++data++f.drop (off+data.length)

/-- Cut or zero-extend to `n` bytes. -/
def truncateTo (f : Bytes) (n : ℕ) : Bytes := f.take n++List.replicate (n - f.length) 0

/-- Apply writes, oldest first. -/
def applyWrites (f : Bytes) (ws : List (ℕ × Bytes)) : Bytes :=
  ws.foldl (fun g w => writeAt g w.1 w.2) f

@[simp] theorem applyWrites_nil (f : Bytes) : applyWrites f [] = f := rfl

@[simp] theorem applyWrites_append (f : Bytes) (ws vs : List (ℕ × Bytes)) :
    applyWrites f (ws++vs) = applyWrites (applyWrites f ws) vs := List.foldl_append

@[simp] theorem applyWrites_cons (f : Bytes) (w : ℕ × Bytes) (ws : List (ℕ × Bytes)) :
    applyWrites f (w::ws) = applyWrites (writeAt f w.1 w.2) ws := rfl

@[simp] theorem writeAt_nil (f : Bytes) (off : ℕ) : writeAt f off [] = f := by simp [writeAt]

theorem length_writeAt (f : Bytes) (off : ℕ) (data : Bytes) (hd : data≠[]) :
    (writeAt f off data).length = max f.length (off+data.length) := by
  simp only [writeAt,hd,if_false,List.length_append,List.length_take,List.length_replicate,
    List.length_drop]
  omega

theorem length_le_writeAt (f : Bytes) (off : ℕ) (data : Bytes) :
    f.length ≤ (writeAt f off data).length := by
  by_cases hd : data = []
  · simp [hd]
  · rw [length_writeAt _ _ _ hd]
    omega

@[simp] theorem length_truncateTo (f : Bytes) (n : ℕ) : (truncateTo f n).length = n := by
  simp only [truncateTo,List.length_append,List.length_take,List.length_replicate]
  omega

/-- A byte of a written file: inside the range the data, outside what was there, and
zero in a gap left behind the old end. -/
theorem getElem?_writeAt (f : Bytes) (off : ℕ) (data : Bytes) (hd : data≠[]) (i : ℕ) :
    (writeAt f off data)[i]? =
      if off ≤ i ∧ i < off+data.length then data[i - off]?
      else if i < f.length then f[i]? else if i < off then some 0 else none := by
  have hl : (List.take off (f++List.replicate (off - f.length) 0)).length = off := by
    simp only [List.length_take,List.length_append,List.length_replicate]
    omega
  simp only [writeAt,hd,if_false]
  by_cases h1 : i < off
  · rw [List.append_assoc,List.getElem?_append_left (by omega),List.getElem?_take_of_lt h1]
    by_cases h2 : i < f.length
    · rw [List.getElem?_append_left h2]
      simp [h2,show ¬ off ≤ i by omega]
    · rw [List.getElem?_append_right (by omega),List.getElem?_replicate]
      simp [h2,h1,show ¬ off ≤ i by omega,show i - f.length < off - f.length by omega]
  · by_cases h2 : i < off+data.length
    · rw [List.append_assoc,List.getElem?_append_right (by omega),hl,
        List.getElem?_append_left (by omega)]
      simp [h2,show off ≤ i by omega]
    · rw [List.getElem?_append_right (by rw [List.length_append,hl]; omega),List.length_append,hl,
        List.getElem?_drop,show off+data.length+(i - (off+data.length)) = i by omega]
      by_cases h3 : i < f.length
      · simp [h2,h3]
      · simp [h1,h2,h3]

theorem getElem?_writeAt_of_notMem (f : Bytes) (off : ℕ) (data : Bytes) (i : ℕ)
    (hi : i < off ∨ off+data.length ≤ i) (hf : i < f.length) :
    (writeAt f off data)[i]? = f[i]? := by
  by_cases hd : data = []
  · simp [hd]
  · rw [getElem?_writeAt _ _ _ hd,if_neg (by omega),if_pos hf]

theorem getElem?_truncateTo (f : Bytes) (n i : ℕ) :
    (truncateTo f n)[i]? = if i < n then some (f.getD i 0) else none := by
  unfold truncateTo
  by_cases hf : i < f.length
  · by_cases hn : i < n
    · rw [List.getElem?_append_left (by simp; omega),List.getElem?_take_of_lt hn]
      simp [hn,hf]
    · rw [List.getElem?_append_right (by simp; omega)]
      simp [hn]
      omega
  · rw [List.getElem?_append_right (by simp; omega),List.getElem?_replicate]
    by_cases hn : i < n
    · simp [hn,hf,List.getD]
      omega
    · simp [hn]
      omega

/-! ## Slices and exact reads -/

@[simp] theorem slice_zero (f : Bytes) (off : ℕ) : slice f off 0 = [] := by simp [slice]

theorem length_slice (f : Bytes) (off len : ℕ) : (slice f off len).length = min len (f.length - off) := by
  simp [slice]

theorem length_slice_of_le (h : off+len ≤ f.length) :
    (slice f off len).length = len := by
  rw [length_slice]
  omega

theorem getElem?_slice (f : Bytes) (off len i : ℕ) :
    (slice f off len)[i]? = if i < len then f[off+i]? else none := by
  simp [slice,List.getElem?_take]

theorem slice_eq_of_getElem? {g : Bytes} {off' : ℕ}
    (h : ∀ i,i < len → f[off+i]? = g[off'+i]?) : slice f off len = slice g off' len := by
  apply List.ext_getElem?
  intro i
  rw [getElem?_slice,getElem?_slice]
  split
  · exact h i ‹_›
  · rfl

theorem slice_slice (f : Bytes) (a n b k : ℕ) (h : b+k ≤ n) :
    slice (slice f a n) b k = slice f (a+b) k := by
  apply List.ext_getElem?
  intro i
  simp only [getElem?_slice]
  split
  · rw [if_pos (by omega),Nat.add_assoc]
  · rfl

theorem slice_append_right (xs ys : Bytes) (off len : ℕ) (h : xs.length ≤ off) :
    slice (xs++ys) off len = slice ys (off - xs.length) len := by
  simp only [slice,List.drop_append,List.drop_eq_nil_of_le h,List.nil_append]

theorem slice_append_left (xs ys : Bytes) (off len : ℕ) (h : off+len ≤ xs.length) :
    slice (xs++ys) off len = slice xs off len := by
  apply slice_eq_of_getElem?
  intro i hi
  rw [List.getElem?_append_left (by omega)]

@[simp] theorem slice_self (xs : Bytes) : slice xs 0 xs.length = xs := by simp [slice]

theorem slice_zero_of_length {xs : Bytes} (h : xs.length = n) : slice xs 0 n = xs := by
  subst h
  exact slice_self xs

/-- The head of an appended list, by the length of that head. -/
theorem slice_append_exact (xs ys : Bytes) (n : ℕ) (h : xs.length = n) : slice (xs++ys) 0 n = xs := by
  rw [slice_append_left _ _ _ _ (by omega),slice_zero_of_length h]

/-- A field between other bytes. -/
theorem slice_field (hn : field.length = n) :
    slice (pre++(field++post)) pre.length n = field := by
  rw [slice_append_right _ _ _ _ le_rfl,Nat.sub_self,slice_append_exact _ _ _ hn]

theorem slice_at (pre field post : Bytes) (hf : f = pre++(field++post)) (ho : pre.length = o)
    (hn : field.length = n) : slice f o n = field := by
  subst hf ho
  exact slice_field hn

theorem slice_split (f : Bytes) (off m n : ℕ) :
    slice f off (m+n) = slice f off m++slice f (off+m) n := by
  simp [slice,List.take_add,List.drop_drop]

theorem readAt_eq_some :
    readAt f off len = some bs ↔ (len = 0 ∨ off+len ≤ f.length) ∧ slice f off len = bs := by
  unfold readAt
  by_cases h : len = 0 ∨ off+len ≤ f.length
  · simp [h]
  · simp only [h,if_false,false_and,reduceCtorEq]

theorem readAt_of_le (h : off+len ≤ f.length) :
    readAt f off len = some (slice f off len) := readAt_eq_some.mpr ⟨.inr h,rfl⟩

theorem readAt_field (hn : field.length = n) :
    readAt (pre++(field++post)) pre.length n = some field := by
  rw [readAt_of_le (by simp only [List.length_append]; omega),slice_field hn]

theorem length_of_readAt (h : readAt f off len = some bs) :
    bs.length = len := by
  obtain ⟨h0 | hl,rfl⟩ := readAt_eq_some.mp h
  · simp [h0]
  · exact length_slice_of_le hl

/-- What was written is read back. -/
theorem slice_writeAt_self (f : Bytes) (off : ℕ) (data : Bytes) :
    slice (writeAt f off data) off data.length = data := by
  by_cases hd : data = []
  · simp [hd]
  · apply List.ext_getElem?
    intro i
    rw [getElem?_slice]
    split
    · rw [getElem?_writeAt _ _ _ hd,if_pos (by omega),Nat.add_sub_cancel_left]
    · rw [List.getElem?_eq_none (by omega)]

/-- Bytes read inside a written range come from the data. -/
theorem slice_writeAt_inside (f : Bytes) (off : ℕ) (data : Bytes) (i n : ℕ)
    (h : i+n ≤ data.length) : slice (writeAt f off data) (off+i) n = slice data i n := by
  have hs := slice_slice (writeAt f off data) off data.length i n h
  rw [slice_writeAt_self] at hs
  exact hs.symm

/-- A slice that a write does not touch keeps its bytes. -/
theorem slice_writeAt_disjoint (f : Bytes) (o : ℕ) (data : Bytes) (off len : ℕ)
    (hd : off+len ≤ o ∨ o+data.length ≤ off) (hf : off+len ≤ f.length) :
    slice (writeAt f o data) off len = slice f off len := by
  apply slice_eq_of_getElem?
  intro i hi
  exact getElem?_writeAt_of_notMem _ _ _ _ (by omega) (by omega)

theorem readAt_writeAt_disjoint {data : Bytes}
    (hd : off+len ≤ o ∨ o+data.length ≤ off) (h : readAt f off len = some bs) :
    readAt (writeAt f o data) off len = some bs := by
  obtain ⟨h0 | hl,rfl⟩ := readAt_eq_some.mp h
  · simp [readAt,h0]
  · have hlen := length_le_writeAt f o data
    rw [readAt_of_le (by omega),slice_writeAt_disjoint _ _ _ _ _ hd hl]

theorem readAt_writeAt_inside (f : Bytes) (off : ℕ) (data : Bytes) (i n : ℕ)
    (h : i+n ≤ data.length) : readAt (writeAt f off data) (off+i) n = some (slice data i n) := by
  by_cases hd : data = []
  · have hn : n = 0 := by simp [hd] at h; omega
    simp [readAt,hn]
  · rw [readAt_of_le (by rw [length_writeAt _ _ _ hd]; omega),slice_writeAt_inside _ _ _ _ _ h]

end ByteFiles
end Dataman

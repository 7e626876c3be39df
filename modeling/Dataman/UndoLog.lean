import Dataman.ByteFiles

/-!
# Undo logs

A store has byte files and slots. Before a range of a file or a slot changes, its
old contents go to the end of a log. `Logged` says that the log still holds what
the store has lost, whatever part of the logged changes took place; undoing the
entries from the last to the first therefore gives the old store back, and an
undo that stops anywhere leaves a store of which the same holds.
-/

namespace Dataman
namespace UndoLog
open ByteFiles

/-! ## One file -/

/-- The bytes of a range before a write, and the length of the whole file. -/
structure Image where
  offset : ℕ
  before : Bytes
  size : ℕ
deriving DecidableEq

namespace Image

/-- The image of a range of a file, cut at the end of the file. -/
def ofFile (f : Bytes) (off len : ℕ) : Image := ⟨off,slice f off len,f.length⟩

/-- The byte an image holds for a position. -/
def byte (im : Image) (i : ℕ) : Option UInt8 := if im.offset ≤ i then im.before[i - im.offset]? else none

/-- Put the bytes and the length back. -/
def restore (im : Image) (f : Bytes) : Bytes := truncateTo (writeAt f im.offset im.before) im.size

theorem byte_isSome {im : Image} {i : ℕ} :
    (im.byte i).isSome ↔ im.offset ≤ i ∧ i < im.offset+im.before.length := by
  unfold byte
  by_cases h : im.offset ≤ i
  · simp [h]
    omega
  · simp [h]

theorem byte_ofFile {f : Bytes} {off len i : ℕ} {b : UInt8} (h : (ofFile f off len).byte i = some b) :
    f[i]? = some b := by
  unfold byte ofFile at h
  by_cases ho : off ≤ i
  · rw [if_pos ho,getElem?_slice] at h
    by_cases hl : i - off < len
    · rwa [if_pos hl,Nat.add_sub_cancel' ho] at h
    · simp [hl] at h
  · simp [ho] at h

theorem length_restore (im : Image) (f : Bytes) : (im.restore f).length = im.size := length_truncateTo _ _

/-- A restored byte is the one of the image, and elsewhere what was there. -/
theorem getElem?_restore {im : Image} {f : Bytes} {i : ℕ} (hf : i < f.length) (hs : i < im.size) :
    (im.restore f)[i]? = (im.byte i).or f[i]? := by
  have hw : (writeAt f im.offset im.before)[i]? = (im.byte i).or f[i]? := by
    by_cases hd : im.before = []
    · simp [hd,byte]
    · rw [getElem?_writeAt _ _ _ hd]
      by_cases hi : im.offset ≤ i ∧ i < im.offset+im.before.length
      · have hb : i - im.offset < im.before.length := by omega
        simp [hi,byte,List.getElem?_eq_getElem hb]
      · have hn : im.byte i = none := by
          have := mt byte_isSome.1 hi
          simpa using this
        simp [hi,hf,hn]
  have hlen := length_le_writeAt f im.offset im.before
  rw [restore,getElem?_truncateTo,if_pos hs,List.getD_eq_getElem?_getD,← hw]
  simp [List.getElem?_eq_getElem (show i < (writeAt f im.offset im.before).length by omega)]

end Image

/-- The oldest byte that a list of images, oldest first, holds for a position. -/
def logged (ims : List Image) (i : ℕ) : Option UInt8 := ims.findSome? (·.byte i)

theorem logged_append (ims : List Image) (im : Image) (i : ℕ) :
    logged (ims++[im]) i = (logged ims i).or (im.byte i) := by
  simp [logged,List.findSome?_append]

theorem logged_isSome {ims : List Image} {im : Image} (hm : im∈ims) {i : ℕ} (h : (im.byte i).isSome) :
    (logged ims i).isSome := by
  rw [logged,List.findSome?_isSome_iff]
  exact ⟨im,hm,h⟩

/-- The images hold what the file `f` has lost of `f0`. -/
structure FileLogged (f0 f : Bytes) (ims : List Image) : Prop where
  untouched : ims = [] → f = f0
  first : ∀ im,ims.head? = some im → im.size = f0.length
  sizes : ∀ im∈ims,f0.length ≤ im.size
  length : f0.length ≤ f.length
  bytes : ∀ i,i < f0.length → (logged ims i).or f[i]? = f0[i]?

namespace FileLogged

variable {f0 f : Bytes} {ims : List Image}

theorem refl (f : Bytes) : FileLogged f f [] := by
  constructor
  · intro _
    rfl
  · simp
  · simp
  · exact le_rfl
  · intro i _
    simp [logged]

/-- An image of the file as it is may be added. -/
theorem record (h : FileLogged f0 f ims) (off len : ℕ) :
    FileLogged f0 f (ims++[Image.ofFile f off len]) := by
  constructor
  · intro hnil
    simp at hnil
  · intro im him
    cases ims with
    | nil =>
      obtain rfl : Image.ofFile f off len = im := by simpa using him
      simp [Image.ofFile,h.untouched rfl]
    | cons im' ims => exact h.first im (by simpa using him)
  · intro im him
    obtain him | him := List.mem_append.1 him
    · exact h.sizes im him
    · obtain rfl : im = Image.ofFile f off len := by simpa using him
      exact h.length
  · exact h.length
  · intro i hi
    rw [logged_append,← h.bytes i hi,Option.or_assoc]
    cases hb : (Image.ofFile f off len).byte i with
    | none => simp
    | some b => simp [Image.byte_ofFile hb]

/-- A change of bytes that an image covers, or behind the old end. -/
theorem change {g : Bytes} (h : FileLogged f0 f ims) (hne : ims≠[]) (hlen : f0.length ≤ g.length)
    (hg : ∀ i,i < f0.length → (logged ims i).isSome ∨ g[i]? = f[i]?) : FileLogged f0 g ims := by
  constructor
  · intro hnil
    exact absurd hnil hne
  · exact h.first
  · exact h.sizes
  · exact hlen
  · intro i hi
    rw [← h.bytes i hi]
    obtain hs | he := hg i hi
    · obtain ⟨b,hb⟩ := Option.isSome_iff_exists.1 hs
      simp [hb]
    · rw [he]

/-- A write whose range an image covers as far as the old file goes. -/
theorem write {im : Image} {off : ℕ} {data : Bytes} (h : FileLogged f0 f ims) (him : im∈ims)
    (hc : ∀ i,i < f0.length → off ≤ i → i < off+data.length → (im.byte i).isSome) :
    FileLogged f0 (writeAt f off data) ims := by
  have hl := h.length
  have hw := length_le_writeAt f off data
  apply h.change (List.ne_nil_of_mem him) (by omega)
  intro i hi
  by_cases hr : off ≤ i ∧ i < off+data.length
  · exact .inl (logged_isSome him (hc i hi hr.1 hr.2))
  · exact .inr (getElem?_writeAt_of_notMem f off data i (by omega) (by omega))

/-- Part of an image may be written back. -/
theorem writeBack {im : Image} (h : FileLogged f0 f ims) (him : im∈ims) (n : ℕ) :
    FileLogged f0 (writeAt f im.offset (im.before.take n)) ims := by
  apply h.write him
  intro i _ ho hn
  rw [List.length_take] at hn
  exact Image.byte_isSome.2 ⟨ho,by omega⟩

/-- The file may be cut to the length an image remembers. -/
theorem truncate {im : Image} (h : FileLogged f0 f ims) (him : im∈ims) :
    FileLogged f0 (truncateTo f im.size) ims := by
  have hs := h.sizes im him
  have hl := h.length
  apply h.change (List.ne_nil_of_mem him) (by rw [length_truncateTo]; exact hs)
  intro i hi
  right
  have hf : i < f.length := by omega
  rw [getElem?_truncateTo,if_pos (by omega),List.getD_eq_getElem?_getD,List.getElem?_eq_getElem hf]
  rfl

/-- Restoring the last image makes it superfluous. -/
theorem restore {im : Image} (h : FileLogged f0 f (ims++[im])) : FileLogged f0 (im.restore f) ims := by
  have hs := h.sizes im (by simp)
  have hl := h.length
  have hbytes : ∀ i,i < f0.length → (logged ims i).or (im.restore f)[i]? = f0[i]? := by
    intro i hi
    rw [Image.getElem?_restore (by omega) (by omega),← Option.or_assoc,← logged_append]
    exact h.bytes i hi
  constructor
  · intro hnil
    subst hnil
    have hsize : im.size = f0.length := h.first im (by simp)
    apply List.ext_getElem?
    intro i
    by_cases hi : i < f0.length
    · simpa [logged] using hbytes i hi
    · rw [List.getElem?_eq_none (by rw [Image.length_restore]; omega),List.getElem?_eq_none (by omega)]
  · intro im' him
    apply h.first
    rw [List.head?_append,him]
    rfl
  · intro im' him
    exact h.sizes im' (List.mem_append_left _ him)
  · rw [Image.length_restore]
    exact hs
  · exact hbytes

end FileLogged

/-! ## A store of files and slots -/

variable {ι κ σ : Type}

/-- What a log protects. -/
@[ext] structure Store (ι κ σ : Type) where
  files : ι → Bytes
  slots : κ → σ

/-- The old bytes of a file, or the old contents of a slot. -/
inductive Entry (ι κ σ : Type)
  | image (file : ι) (im : Image)
  | slot (key : κ) (old : σ)

variable [DecidableEq ι] [DecidableEq κ]

namespace Store

def setFile (s : Store ι κ σ) (i : ι) (f : Bytes) : Store ι κ σ :=
  { s with files := Function.update s.files i f }

def setSlot (s : Store ι κ σ) (k : κ) (v : σ) : Store ι κ σ :=
  { s with slots := Function.update s.slots k v }

/-- Undo one entry. -/
def undo (s : Store ι κ σ) : Entry ι κ σ → Store ι κ σ
  | .image i im => s.setFile i (im.restore (s.files i))
  | .slot k old => s.setSlot k old

end Store

/-- The images of one file. -/
def imagesOf (i : ι) (log : List (Entry ι κ σ)) : List Image :=
  log.filterMap fun
    | .image j im => if j = i then some im else none
    | .slot _ _ => none

/-- The old contents of one slot. -/
def oldsOf (k : κ) (log : List (Entry ι κ σ)) : List σ :=
  log.filterMap fun
    | .image _ _ => none
    | .slot j old => if j = k then some old else none

omit [DecidableEq κ] in
theorem mem_imagesOf {i : ι} {im : Image} {log : List (Entry ι κ σ)} :
    im∈imagesOf i log ↔ .image i im∈log := by
  simp only [imagesOf,List.mem_filterMap]
  constructor
  · intro h
    obtain ⟨e,he,hi⟩ := h
    cases e with
    | image j im' =>
      by_cases hj : j = i
      · obtain rfl : im' = im := by simpa [hj] using hi
        rwa [hj] at he
      · simp [hj] at hi
    | slot j old => simp at hi
  · intro h
    exact ⟨_,h,by simp⟩

omit [DecidableEq ι] in
theorem oldsOf_ne_nil {k : κ} {old : σ} {log : List (Entry ι κ σ)} (h : .slot k old∈log) :
    oldsOf k log≠[] := by
  apply List.ne_nil_of_mem (a := old)
  exact List.mem_filterMap.2 ⟨_,h,by simp⟩

/-- The old contents hold what a slot has lost. -/
structure SlotLogged (v0 v : σ) (olds : List σ) : Prop where
  untouched : olds = [] → v = v0
  first : ∀ old,olds.head? = some old → old = v0

/-- The log holds what the store `s` has lost of `s0`. -/
structure Logged (s0 s : Store ι κ σ) (log : List (Entry ι κ σ)) : Prop where
  file : ∀ i,FileLogged (s0.files i) (s.files i) (imagesOf i log)
  slot : ∀ k,SlotLogged (s0.slots k) (s.slots k) (oldsOf k log)

namespace Logged

variable {s0 s : Store ι κ σ} {log : List (Entry ι κ σ)}

theorem refl (s : Store ι κ σ) : Logged s s [] := by
  constructor
  · intro i
    exact .refl _
  · intro k
    exact ⟨fun _ => rfl,by simp [oldsOf]⟩

theorem eq_of_nil (h : Logged s0 s []) : s = s0 := by
  apply Store.ext
  · funext i
    exact (h.file i).untouched rfl
  · funext k
    exact (h.slot k).untouched rfl

/-- Log a range of a file before it changes. -/
theorem recordFile (h : Logged s0 s log) (i : ι) (off len : ℕ) :
    Logged s0 s (log++[.image i (Image.ofFile (s.files i) off len)]) := by
  constructor
  · intro j
    by_cases hj : i = j
    · subst hj
      simpa [imagesOf] using (h.file i).record off len
    · simpa [imagesOf,hj] using h.file j
  · intro k
    simpa [oldsOf] using h.slot k

/-- Log a slot before it changes. -/
theorem recordSlot (h : Logged s0 s log) (k : κ) : Logged s0 s (log++[.slot k (s.slots k)]) := by
  constructor
  · intro j
    simpa [imagesOf] using h.file j
  · intro j
    have hs := h.slot j
    by_cases hj : k = j
    · subst hj
      have he : oldsOf k (log++[.slot k (s.slots k)]) = oldsOf k log++[s.slots k] := by
        simp [oldsOf]
      rw [he]
      constructor
      · intro hnil
        simp at hnil
      · intro old hold
        cases ho : oldsOf k log with
        | nil =>
          rw [ho] at hold hs
          obtain rfl : s.slots k = old := by simpa using hold
          exact hs.untouched rfl
        | cons o os =>
          rw [ho] at hold hs
          exact hs.first old (by simpa using hold)
    · simpa [oldsOf,hj] using hs

/-- A file may change as its images allow. -/
theorem setFile (h : Logged s0 s log) {i : ι} {f : Bytes}
    (hf : FileLogged (s0.files i) f (imagesOf i log)) : Logged s0 (s.setFile i f) log := by
  constructor
  · intro j
    by_cases hj : j = i
    · subst hj
      simpa [Store.setFile] using hf
    · simpa [Store.setFile,hj] using h.file j
  · exact h.slot

/-- A logged slot may change in any way. -/
theorem setSlot (h : Logged s0 s log) {k : κ} {old : σ} (hk : .slot k old∈log) (v : σ) :
    Logged s0 (s.setSlot k v) log := by
  constructor
  · exact h.file
  · intro j
    by_cases hj : j = k
    · subst hj
      constructor
      · intro hnil
        exact absurd hnil (oldsOf_ne_nil hk)
      · exact (h.slot j).first
    · simpa [Store.setSlot,hj] using h.slot j

/-- Undoing the last entry makes it superfluous. -/
theorem undo {e : Entry ι κ σ} (h : Logged s0 s (log++[e])) : Logged s0 (s.undo e) log := by
  cases e with
  | image i im =>
    constructor
    · intro j
      have hf := h.file j
      by_cases hj : i = j
      · subst hj
        have he : imagesOf i (log++[.image i im]) = imagesOf i log++[im] := by simp [imagesOf]
        rw [he] at hf
        simpa [Store.undo,Store.setFile] using hf.restore
      · simpa [Store.undo,Store.setFile,imagesOf,hj,Ne.symm hj] using hf
    · intro k
      simpa [oldsOf,Store.undo,Store.setFile] using h.slot k
  | slot k old =>
    constructor
    · intro j
      simpa [imagesOf,Store.undo,Store.setSlot] using h.file j
    · intro j
      have hs := h.slot j
      by_cases hj : k = j
      · subst hj
        have he : oldsOf k (log++[.slot k old]) = oldsOf k log++[old] := by simp [oldsOf]
        rw [he] at hs
        constructor
        · intro hnil
          rw [hnil] at hs
          simpa [Store.undo,Store.setSlot] using hs.first old rfl
        · intro o ho
          exact hs.first o (by rw [List.head?_append,ho]; rfl)
      · simpa [Store.undo,Store.setSlot,oldsOf,hj,Ne.symm hj] using hs

end Logged

end UndoLog
end Dataman

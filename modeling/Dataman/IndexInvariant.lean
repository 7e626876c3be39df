import Dataman.IndexInsertionCorrect
import Dataman.IndexLivePages

/-!
# The invariant of an index file

An index is a header, the file names and whole pages. Each valid root slot leads to a
sorted tree in those pages. Both trees are kept out of the free list, so an update
works beside them.
-/

namespace Dataman.IndexFile
open PageTree

variable {ctx : Context} {first : ℕ} {f : Bytes}

/-- The header fields that never change, and the pages behind the file names. -/
structure Layout (ctx : Context) (first : ℕ) (f : Bytes) : Prop where
  keylen_eq : getU16 f 12 = ctx.keylen
  fileCount_eq : getU16 f 14 = ctx.fileCount
  keylen_pos : 0 < ctx.keylen
  keylen_le : ctx.keylen ≤ 32
  fileCount_pos : 0 < ctx.fileCount
  pageSize_eq : ctx.pageSize = indexV2PageSize ctx.keylen
  pageSize_field : getU16 f 20 = ctx.pageSize
  first_eq : first = firstPageOffset (getU32 f 16) ctx.pageSize
  whole : ctx.pageSize ∣ f.length
  first_le : first ≤ f.length
  length_le : f.length ≤ int64Max

theorem Layout.fits (h : Layout ctx first f) : ctx.Fits := by
  have := pageSize_bounds h.keylen_le
  rw [← h.pageSize_eq] at this
  exact ⟨this.1,this.2.1⟩

theorem Layout.pageSize_pos (h : Layout ctx first f) : 0 < ctx.pageSize := by
  have := h.fits.room
  omega

theorem roundUp_eq {n size : ℕ} (hs : 0 < size) (h : size ∣ n) : roundUp n size = n := by
  obtain ⟨m,rfl⟩ := h
  unfold roundUp
  rw [show size*m+size - 1 = size - 1+size*m by omega,Nat.add_mul_div_left _ _ hs,
    Nat.div_eq_of_lt (by omega),Nat.zero_add,Nat.mul_comm]

theorem dvd_roundUp (n size : ℕ) : size ∣ roundUp n size := Nat.dvd_mul_left _ _

theorem le_roundUp {n size : ℕ} (hs : 0 < size) : n ≤ roundUp n size := by
  unfold roundUp
  have h1 := Nat.div_add_mod (n+size - 1) size
  have h2 := Nat.mod_lt (n+size - 1) hs
  rw [Nat.mul_comm] at h1
  omega

theorem Layout.first_ge (h : Layout ctx first f) : 128 ≤ first := by
  have := le_roundUp (n := 128+getU32 f 16) h.pageSize_pos
  rw [h.first_eq,firstPageOffset]
  omega

theorem Layout.first_aligned (h : Layout ctx first f) : ctx.pageSize ∣ first := h.first_eq ▸ dvd_roundUp _ _

theorem Layout.length_ge (h : Layout ctx first f) : 128 ≤ f.length := le_trans h.first_ge h.first_le

/-- A sorted tree in the pages of a file. -/
structure Rooted (ctx : Context) (first : ℕ) (f : Bytes) (h : ℕ) (t : Summary Bytes) : Prop where
  tree : Tree ctx f h t
  sorted : t.entries.Pairwise (· < ·)
  pages : ∀ p∈t.pages,ctx.pageSize ∣ p ∧ first ≤ p ∧ p < f.length

/-- A finished index: whatever slot is valid leads to a tree. -/
structure Index (ctx : Context) (first : ℕ) (f : Bytes) : Prop extends Layout ctx first f where
  fixed : fixedFields f 0 = true
  parity : SlotParity f
  rooted : ∀ r,slot0 f = some r ∨ slot1 f = some r → ∃ h t,t.off = r.rootOffset ∧ Rooted ctx first f h t

/-- The number of pages behind the file names. -/
def pageCountOf (ctx : Context) (first : ℕ) (f : Bytes) : ℕ := (f.length - first) / ctx.pageSize

theorem Layout.pageOf (hl : Layout ctx first f) {p : ℕ} (hp : ctx.pageSize ∣ p ∧ first ≤ p ∧ p < f.length) :
    PageOf ctx first (pageCountOf ctx first f) p := by
  obtain ⟨ha,hge,hlt⟩ := hp
  refine ⟨Nat.dvd_sub ha hl.first_aligned,hge,?_⟩
  have hin := page_inside ha hl.whole hlt
  have hps := hl.pageSize_pos
  unfold pageCountOf
  rw [Nat.lt_iff_add_one_le,Nat.le_div_iff_mul_le hps,Nat.add_mul,Nat.one_mul,
    Nat.div_mul_cancel (Nat.dvd_sub ha hl.first_aligned)]
  omega

/-- A tree is less high than the file has pages. -/
theorem Rooted.height_lt {h : ℕ} {t : Summary Bytes} (hl : Layout ctx first f) (ht : Rooted ctx first f h t) :
    h < pageCountOf ctx first f :=
  ht.tree.height_lt (fun p => (p - first) / ctx.pageSize)
    (fun p hp q hq heq => (hl.pageOf (ht.pages p hp)).eq_of_number (hl.pageOf (ht.pages q hq)) heq)
    fun p hp => (hl.pageOf (ht.pages p hp)).lt

theorem Rooted.height_lt_length {h : ℕ} {t : Summary Bytes} (hl : Layout ctx first f)
    (ht : Rooted ctx first f h t) : h < f.length :=
  lt_of_lt_of_le (ht.height_lt hl) (le_trans (Nat.div_le_self _ _) (Nat.sub_le _ _))

/-! ## Collecting the free pages -/

/-- The free list of an index: whole pages, each once, none of them in a tree under a valid slot. -/
structure FreeList (ctx : Context) (first : ℕ) (f : Bytes) (free : List ℕ) : Prop where
  nodup : free.Nodup
  page : ∀ p∈free,ctx.pageSize ∣ p ∧ first ≤ p ∧ p < f.length
  apart : ∀ r,slot0 f = some r ∨ slot1 f = some r → ∀ h t,t.off = r.rootOffset → Rooted ctx first f h t →
    ∀ p∈t.pages,p∉free

theorem Layout.wholePages (hl : Layout ctx first f) : WholePages f ctx.pageSize ∧ firstPage f ctx.pageSize = first := by
  have hfirst : firstPage f ctx.pageSize = first := hl.first_eq.symm
  refine ⟨⟨hl.length_ge,hl.pageSize_pos,hfirst ▸ hl.first_le,?_⟩,hfirst⟩
  rw [hfirst]
  exact Nat.dvd_sub hl.whole hl.first_aligned

theorem Layout.pageAt_iff (hl : Layout ctx first f) {p : ℕ} :
    PageAt f ctx.pageSize p ↔ ctx.pageSize ∣ p ∧ first ≤ p ∧ p < f.length := by
  have hfirst := hl.wholePages.2
  have hpos := hl.pageSize_pos
  constructor
  · rintro ⟨hge,ha,hin⟩
    rw [hfirst] at hge ha
    have hsum := Nat.dvd_add ha hl.first_aligned
    rw [Nat.sub_add_cancel hge] at hsum
    exact ⟨hsum,hge,by omega⟩
  · rintro ⟨ha,hge,hlt⟩
    exact ⟨hfirst ▸ hge,hfirst ▸ Nat.dvd_sub ha hl.first_aligned,page_inside ha hl.whole hlt⟩

theorem mem_rootOffsets {p : ℕ} : p∈rootOffsets f ↔ ∃ r,(slot0 f = some r ∨ slot1 f = some r) ∧ r.rootOffset = p := by
  simp [rootOffsets,or_and_right,exists_or]

theorem v2CollectFreePages_spec (hi : Index ctx first f) :
    ∃ free,v2CollectFreePages f ctx.keylen ctx.pageSize = some free ∧ FreeList ctx first f free := by
  have hl := hi.toLayout
  rcases hl.wholePages.1.collect ctx.keylen with ⟨free,hrun,hc⟩ | ⟨-,p,⟨root,hroot,hpath⟩,hbad⟩
  · refine ⟨free,hrun,hc.ascending.imp fun h => Nat.ne_of_lt h,?_,?_⟩
    · intro p hp
      exact hl.pageAt_iff.1 ((hc.mem_iff p).1 hp).1
    · intro r hr h t ho ht p hp hfree
      exact ((hc.mem_iff p).1 hfree).2 ⟨t.off,mem_rootOffsets.2 ⟨r,hr,ho.symm⟩,ht.tree.reach p hp⟩
  · -- what is reachable is in a tree, and its pages are all right
    obtain ⟨r,hr,rfl⟩ := mem_rootOffsets.1 hroot
    obtain ⟨h,t,ho,ht⟩ := hi.rooted r hr
    rw [← ho] at hpath
    have hmem := Tree.mem_of_reach ht.tree hpath
    obtain ⟨refs,hrefs,-⟩ := Tree.references ht.tree p hmem
    exact absurd ⟨hl.pageAt_iff.2 (ht.pages p hmem),by rw [hrefs]; exact Option.some_ne_none _⟩ hbad

end Dataman.IndexFile

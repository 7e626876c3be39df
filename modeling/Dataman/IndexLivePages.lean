import Dataman.GraphMarking
import Dataman.IndexPublication
import Dataman.IndexSearch

/-!
# The free pages of an index

The pages of a file are the nodes of a graph, with the child references as its edges. The
marking goes through it from both root slots, so the pages without a mark are those that
no valid slot leads to, whatever the file holds.
-/

namespace Dataman.IndexFile
open ByteFiles FixedWidthFields PageTree GraphMarking Relation

variable {ctx : Context} {first pageCount keylen pageSize depth i o p : ℕ} {f : Bytes} {free : List ℕ}

/-- A page offset of a file with `pageCount` pages behind `first`. -/
structure PageOf (ctx : Context) (first pageCount p : ℕ) : Prop where
  aligned : ctx.pageSize ∣ p - first
  ge : first ≤ p
  lt : (p - first) / ctx.pageSize < pageCount

theorem PageOf.eq_of_number {p q : ℕ} (hp : PageOf ctx first pageCount p) (hq : PageOf ctx first pageCount q)
    (h : (p - first) / ctx.pageSize = (q - first) / ctx.pageSize) : p = q := by
  have h1 := Nat.div_mul_cancel hp.aligned
  have h2 := Nat.div_mul_cancel hq.aligned
  have := hp.ge
  have := hq.ge
  rw [h] at h1
  omega

/-! ## The graph of the pages -/

/-- The number of the page at an offset. -/
def pageNumber (pageSize first pageCount offset : ℕ) : Option ℕ :=
  if offset < first ∨ (offset - first) % pageSize≠0 ∨ pageCount ≤ (offset - first) / pageSize then none
  else some ((offset - first) / pageSize)

/-- The child references of a page that passes the checks. -/
def references (f : Bytes) (keylen offset : ℕ) : Option (List ℕ) := do
  let node ← indexV2ReadNode f offset
  guard (node.keyCount ≤ maxKeys ∧ node.payloadLength = payloadLength (keylen+2+8) (node.flags % 2 = 1) node.keyCount ∧
    (node.flags % 2 = 1 ∨ node.keyCount≠0))
  return if node.flags % 2 = 1 then [] else (chunks (node.keyCount+1) 8 node.payload).map getBE

theorem pageNumber_eq_some : pageNumber pageSize first pageCount o = some i ↔
    first ≤ o ∧ pageSize ∣ o - first ∧ (o - first) / pageSize < pageCount ∧ i = (o - first) / pageSize := by
  rw [pageNumber,Nat.dvd_iff_mod_eq_zero]
  split
  · rename_i hout
    simp only [reduceCtorEq,false_iff]
    omega
  · rename_i hin
    rw [Option.some.injEq]
    omega

theorem pageNumber_lt (o i : ℕ) (h : pageNumber pageSize first pageCount o = some i) : i < pageCount := by
  obtain ⟨-,-,hlt,rfl⟩ := pageNumber_eq_some.1 h
  exact hlt

theorem pageNumber_inj (o p i : ℕ) (ho : pageNumber pageSize first pageCount o = some i)
    (hp : pageNumber pageSize first pageCount p = some i) : o = p := by
  obtain ⟨hgeo,hdo,hlto,rfl⟩ := pageNumber_eq_some.1 ho
  obtain ⟨hgep,hdp,hltp,heq⟩ := pageNumber_eq_some.1 hp
  have h1 : PageOf ⟨0,0,pageSize,false⟩ first pageCount o := ⟨hdo,hgeo,hlto⟩
  exact h1.eq_of_number ⟨hdp,hgep,hltp⟩ heq

def pageGraph (f : Bytes) (keylen pageSize first pageCount : ℕ) : Graph ℕ pageCount where
  number := pageNumber pageSize first pageCount
  next := references f keylen
  number_lt := pageNumber_lt
  number_inj := pageNumber_inj

theorem v2MarkLivePages_eq (depth o : ℕ) (live : List Bool) :
    v2MarkLivePages f keylen pageSize first pageCount depth o live = (pageGraph f keylen pageSize first pageCount).mark depth o live := by
  induction depth generalizing o live with
  | zero => rfl
  | succ depth ih =>
    rw [v2MarkLivePages,Graph.mark]
    simp only [ih,pageGraph,pageNumber]
    by_cases hin : o < first ∨ (o - first) % pageSize≠0
    · have hout : o < first ∨ (o - first) % pageSize≠0 ∨ pageCount ≤ (o - first) / pageSize := by omega
      rw [if_pos hin,if_pos hout]
    · by_cases hlt : pageCount ≤ (o - first) / pageSize
      · have hout : o < first ∨ (o - first) % pageSize≠0 ∨ pageCount ≤ (o - first) / pageSize := by omega
        rw [if_neg hin,if_pos hlt,if_pos hout]
      · have hok : ¬ (o < first ∨ (o - first) % pageSize≠0 ∨ pageCount ≤ (o - first) / pageSize) := by omega
        rw [if_neg hin,if_neg hlt,if_neg hok]
        dsimp only
        split
        · rfl
        · rw [references]
          cases hnode : indexV2ReadNode f o with
          | none => rfl
          | some node =>
            -- the source tests what must not be, the graph what must be
            have hchecks : ¬ (maxKeys < node.keyCount ∨
                node.payloadLength≠payloadLength (keylen+2+8) (node.flags % 2 = 1) node.keyCount ∨
                ¬ node.flags % 2 = 1 ∧ node.keyCount = 0) ↔
              node.keyCount ≤ maxKeys ∧ node.payloadLength = payloadLength (keylen+2+8) (node.flags % 2 = 1) node.keyCount ∧
                (node.flags % 2 = 1 ∨ node.keyCount≠0) := by omega
            simp only [Option.bind_eq_bind,Option.bind_some,guard_eq_ite,hchecks]
            split
            · by_cases hleaf : node.flags % 2 = 1
              · simp [hleaf]
              · simp [hleaf]
            · rfl

/-! ## Collecting them -/

/-- The first page behind the names. -/
def firstPage (f : Bytes) (pageSize : ℕ) : ℕ := firstPageOffset (getU32 f 16) pageSize

/-- A page between the first one and the end of the file. -/
structure PageAt (f : Bytes) (pageSize p : ℕ) : Prop where
  ge : firstPage f pageSize ≤ p
  aligned : pageSize ∣ p - firstPage f pageSize
  inside : p+pageSize ≤ f.length

/-- The roots in the valid slots. -/
def rootOffsets (f : Bytes) : List ℕ := ((slot0 f).toList++(slot1 f).toList).map Slot.rootOffset

/-- A page that child references lead to from a valid slot. -/
def LiveAt (f : Bytes) (keylen p : ℕ) : Prop :=
  ∃ root∈rootOffsets f,ReflTransGen (fun a b => ∃ refs,references f keylen a = some refs ∧ b∈refs) root p

/-- What the free pages are. -/
structure Collected (f : Bytes) (keylen pageSize : ℕ) (free : List ℕ) : Prop where
  ascending : free.Pairwise (· < ·)
  mem_iff : ∀ p,p∈free ↔ PageAt f pageSize p ∧ ¬ LiveAt f keylen p
  reachable : ∀ p,LiveAt f keylen p → PageAt f pageSize p ∧ references f keylen p≠none

/-- A file of whole pages behind its names. -/
structure WholePages (f : Bytes) (pageSize : ℕ) : Prop where
  header : 128 ≤ f.length
  pos : 0 < pageSize
  first_le : firstPage f pageSize ≤ f.length
  whole : pageSize ∣ f.length - firstPage f pageSize

/-- The number of its pages. -/
def pagesIn (f : Bytes) (pageSize : ℕ) : ℕ := (f.length - firstPage f pageSize) / pageSize

theorem markSlot_eq (mark : ℕ → List Bool → Option (List Bool)) (slot : Option Slot) (live : List Bool) :
    markSlot mark slot live = (slot.toList.map Slot.rootOffset).foldlM (fun live root => mark root live) live := by
  cases slot with
  | none => rfl
  | some root =>
    rw [markSlot,Option.toList_some,List.map_singleton,List.foldlM_cons]
    exact (bind_pure _).symm

theorem WholePages.pageNumber_isSome (h : WholePages f pageSize) :
    pageNumber pageSize (firstPage f pageSize) (pagesIn f pageSize) p≠none ↔ PageAt f pageSize p := by
  obtain ⟨b,hb⟩ := h.whole
  have hpos := h.pos
  have hfirst := h.first_le
  rw [Option.ne_none_iff_exists']
  simp only [pageNumber_eq_some,pagesIn,hb,Nat.mul_div_cancel_left _ hpos]
  constructor
  · rintro ⟨i,hge,⟨a,ha⟩,hlt,-⟩
    rw [ha,Nat.mul_div_cancel_left _ hpos] at hlt
    have hmul := Nat.mul_le_mul_left pageSize (Nat.succ_le_of_lt hlt)
    rw [Nat.mul_succ] at hmul
    exact ⟨hge,⟨a,ha⟩,by omega⟩
  · rintro ⟨hge,⟨a,ha⟩,hinside⟩
    refine ⟨a,hge,⟨a,ha⟩,?_,?_⟩
    · rw [ha,Nat.mul_div_cancel_left _ hpos]
      have hlt : pageSize*a < pageSize*b := by omega
      exact Nat.lt_of_mul_lt_mul_left hlt
    · rw [ha,Nat.mul_div_cancel_left _ hpos]

theorem WholePages.pageNumber_first (h : WholePages f pageSize) (hi : i < pagesIn f pageSize) :
    pageNumber pageSize (firstPage f pageSize) (pagesIn f pageSize) (firstPage f pageSize+i*pageSize) = some i := by
  have hnum : i*pageSize / pageSize = i := Nat.mul_div_cancel _ h.pos
  rw [pageNumber_eq_some,Nat.add_sub_cancel_left,hnum]
  exact ⟨Nat.le_add_right _ _,Nat.dvd_mul_left _ _,hi,rfl⟩

theorem WholePages.collect_eq (h : WholePages f pageSize) (keylen : ℕ) :
    v2CollectFreePages f keylen pageSize =
      ((rootOffsets f).foldlM (fun live root => (pageGraph f keylen pageSize (firstPage f pageSize) (pagesIn f pageSize)).mark
        (pagesIn f pageSize+1) root live) (List.replicate (pagesIn f pageSize) false)).map fun live =>
          ((List.range (pagesIn f pageSize)).filter fun i => !live.getD i false).map fun i => firstPage f pageSize+i*pageSize := by
  have hnames : getU32 (slice f 0 128) 16 = getU32 f 16 := by
    rw [getU32,getU32,slice_slice _ _ _ _ _ (by omega),Nat.zero_add]
  have hread : readAt f 0 128 = some (slice f 0 128) := readAt_of_le (by have := h.header; omega)
  have hfirst := h.first_le
  have hwhole := Nat.mod_eq_zero_of_dvd h.whole
  have hok : ¬ (f.length < firstPageOffset (getU32 f 16) pageSize ∨ (f.length - firstPageOffset (getU32 f 16) pageSize) % pageSize≠0) := by
    simp only [firstPage] at hfirst hwhole
    omega
  rw [v2CollectFreePages,hread,rootOffsets,List.map_append,List.foldlM_append]
  simp only [Option.bind_eq_bind,Option.bind_some,hnames,slot0_header,slot1_header,guard_eq_ite,if_pos hok,markSlot_eq]
  simp only [v2MarkLivePages_eq]
  rw [Option.map_eq_bind,Option.bind_assoc]
  rfl

/-- The collection ends with the free pages, or there is a reachable page outside of the file or that fails its checks. -/
theorem WholePages.collect (h : WholePages f pageSize) (keylen : ℕ) :
    (∃ free,v2CollectFreePages f keylen pageSize = some free ∧ Collected f keylen pageSize free) ∨
      v2CollectFreePages f keylen pageSize = none ∧
        ∃ p,LiveAt f keylen p ∧ ¬ (PageAt f pageSize p ∧ references f keylen p≠none) := by
  rw [h.collect_eq keylen]
  rcases (pageGraph f keylen pageSize (firstPage f pageSize) (pagesIn f pageSize)).markRoots (rootOffsets f) (Nat.lt_succ_self _) with
    ⟨live,hrun,hexact⟩ | ⟨hrun,p,hreach,hbad⟩
  · refine .inl ⟨_,by rw [hrun]; rfl,?_,?_,?_⟩
    · rw [List.pairwise_map]
      refine (List.pairwise_lt_range.filter _).imp ?_
      intro i j hij
      exact Nat.add_lt_add_left (Nat.mul_lt_mul_of_pos_right hij h.pos) _
    · intro p
      rw [List.mem_map]
      constructor
      · rintro ⟨i,hi,rfl⟩
        obtain ⟨hrange,hlive⟩ := List.mem_filter.1 hi
        have hnum := h.pageNumber_first (List.mem_range.1 hrange)
        refine ⟨h.pageNumber_isSome.1 (by rw [hnum]; exact Option.some_ne_none i),?_⟩
        intro hreach
        obtain ⟨j,hj,hmark⟩ := (hexact.marked_iff _).2 hreach
        obtain rfl : i = j := Option.some.inj (hnum.symm.trans hj)
        rw [hmark] at hlive
        cases hlive
      · rintro ⟨hpage,hnot⟩
        obtain ⟨i,hi⟩ := Option.ne_none_iff_exists'.1 (h.pageNumber_isSome.2 hpage)
        have hlt := pageNumber_lt p i hi
        refine ⟨i,List.mem_filter.2 ⟨List.mem_range.2 hlt,?_⟩,pageNumber_inj _ _ i (h.pageNumber_first hlt) hi⟩
        rw [Bool.not_eq_true']
        by_contra hmark
        exact hnot ((hexact.marked_iff p).1 ⟨i,hi,Bool.not_eq_false _ ▸ hmark⟩)
    · intro p hp
      have hgood := hexact.good p hp
      exact ⟨h.pageNumber_isSome.1 hgood.1,hgood.2⟩
  · refine .inr ⟨by rw [hrun]; rfl,p,hreach,?_⟩
    rintro ⟨hpage,hrefs⟩
    exact hbad ⟨h.pageNumber_isSome.2 hpage,hrefs⟩

theorem wholePages_of_collect (hpos : 0 < pageSize) (h : v2CollectFreePages f keylen pageSize = some free) : WholePages f pageSize := by
  simp only [v2CollectFreePages,Option.bind_eq_bind,Option.bind_eq_some_iff,guard_eq_some,exists_const,not_or,not_not,not_lt] at h
  obtain ⟨header,hread,⟨hle,hmod⟩,-⟩ := h
  obtain ⟨hlen,rfl⟩ := readAt_eq_some.1 hread
  have hnames : getU32 (slice f 0 128) 16 = getU32 f 16 := by
    rw [getU32,getU32,slice_slice _ _ _ _ _ (by omega),Nat.zero_add]
  rw [hnames] at hle hmod
  exact ⟨by omega,hpos,hle,Nat.dvd_of_mod_eq_zero hmod⟩

/-- The page size that is read, and the free pages. -/
def collectFreePages (f : Bytes) (keylen : ℕ) : Option (ℕ × List ℕ) := do
  let pageSize ← indexV2ReadPageSize f keylen
  let free ← v2CollectFreePages f keylen pageSize
  return (pageSize,free)

theorem collectFreePages_eq_some : collectFreePages f keylen = some (pageSize,free) ↔
    indexV2ReadPageSize f keylen = some pageSize ∧ v2CollectFreePages f keylen pageSize = some free := by
  simp only [collectFreePages,Option.bind_eq_bind,Option.bind_eq_some_iff,Option.pure_def,Option.some.injEq,Prod.mk.injEq]
  constructor
  · rintro ⟨size,hsize,found,hfound,rfl,rfl⟩
    exact ⟨hsize,hfound⟩
  · rintro ⟨hsize,hfound⟩
    exact ⟨pageSize,hsize,free,hfound,rfl,rfl⟩

theorem readPageSize_pos (h : indexV2ReadPageSize f keylen = some pageSize) : 0 < pageSize := by
  simp only [indexV2ReadPageSize,Option.bind_eq_bind,Option.bind_eq_some_iff,guard_eq_some,exists_const,Option.pure_def,
    Option.some.injEq] at h
  obtain ⟨header,-,-,rfl⟩ := h
  split
  · decide
  · omega

/-- The collection succeeds exactly for whole pages of which all that are reachable are pages of the file and pass their checks, and
then lists exactly the pages that are not reachable. -/
theorem free_pages_exact (f : Bytes) (keylen pageSize : ℕ) :
    ((∃ free,collectFreePages f keylen = some (pageSize,free)) ↔
      indexV2ReadPageSize f keylen = some pageSize ∧ WholePages f pageSize ∧
        ∀ p,LiveAt f keylen p → PageAt f pageSize p ∧ references f keylen p≠none) ∧
    ∀ free,collectFreePages f keylen = some (pageSize,free) → Collected f keylen pageSize free := by
  have hsome : ∀ free,collectFreePages f keylen = some (pageSize,free) →
      indexV2ReadPageSize f keylen = some pageSize ∧ WholePages f pageSize ∧ Collected f keylen pageSize free := by
    intro free h
    obtain ⟨hsize,hfound⟩ := collectFreePages_eq_some.1 h
    have hwhole := wholePages_of_collect (readPageSize_pos hsize) hfound
    refine ⟨hsize,hwhole,?_⟩
    rcases hwhole.collect keylen with ⟨free',hfound',hc⟩ | ⟨hnone,-⟩
    · rw [hfound] at hfound'
      obtain rfl := Option.some.inj hfound'
      exact hc
    · rw [hfound] at hnone
      cases hnone
  refine ⟨⟨?_,?_⟩,fun free h => (hsome free h).2.2⟩
  · rintro ⟨free,h⟩
    obtain ⟨hsize,hwhole,hc⟩ := hsome free h
    exact ⟨hsize,hwhole,hc.reachable⟩
  · rintro ⟨hsize,hwhole,hgood⟩
    rcases hwhole.collect keylen with ⟨free,hfound,-⟩ | ⟨-,p,hreach,hbad⟩
    · exact ⟨free,collectFreePages_eq_some.2 ⟨hsize,hfound⟩⟩
    · exact absurd (hgood p hreach) hbad

/-! ## Trees -/

theorem references_of_load {n : Node} (hl : v2LoadNode ctx f o = some n) : references f ctx.keylen o = some n.children := by
  obtain ⟨d,hd,hn⟩ := v2LoadNode_eq_some.1 hl
  obtain ⟨hk,hp,hleaf,-,hl1,hl0⟩ := decodeNode_eq_some hn
  rw [Context.entrySize,hleaf] at hp
  simp only [references,hd,Option.bind_eq_bind,Option.bind_some,guard_eq_ite]
  by_cases hflag : d.flags % 2 = 1
  · have hch := (hl1 (by rw [hleaf]; simp [hflag])).1
    simp [hk,hp,hflag,hch]
  · obtain ⟨hz,hch,-⟩ := hl0 (by rw [hleaf]; simp [hflag])
    simp [hk,hp,hflag,hch,hz]

/-- The pages of a tree lead to no others. -/
theorem Tree.references {h : ℕ} {t : Summary Bytes} (ht : Tree ctx f h t) :
    ∀ p∈t.pages,∃ refs,references f ctx.keylen p = some refs ∧ refs ⊆ t.pages := by
  induction ht with
  | leaf load =>
    intro p hp
    rw [List.mem_singleton.1 hp]
    exact ⟨[],references_of_load load,List.nil_subset _⟩
  | @node h o kids hne below occ load ih =>
    have hkid : ∀ k∈kids,k.pages ⊆ (Summary.node o kids).pages := fun k hk q hq =>
      List.mem_cons_of_mem _ (List.mem_flatMap.2 ⟨k,hk,hq⟩)
    intro p hp
    rcases List.mem_cons.1 hp with rfl | hp
    · refine ⟨_,references_of_load load,?_⟩
      intro c hc
      obtain ⟨k,hk,rfl⟩ := List.mem_map.1 hc
      exact hkid k hk (below k hk).off_mem_pages
    · obtain ⟨k,hk,hp⟩ := List.mem_flatMap.1 hp
      obtain ⟨refs,hrefs,hsub⟩ := ih k hk p hp
      exact ⟨refs,hrefs,fun c hc => hkid k hk (hsub hc)⟩

/-- The root leads to all of them. -/
theorem Tree.reach {h : ℕ} {t : Summary Bytes} (ht : Tree ctx f h t) :
    ∀ p∈t.pages,ReflTransGen (fun a b => ∃ refs,IndexFile.references f ctx.keylen a = some refs ∧ b∈refs) t.off p := by
  induction ht with
  | leaf load =>
    intro p hp
    rw [List.mem_singleton.1 hp]
    exact .refl
  | @node h o kids hne below occ load ih =>
    intro p hp
    rcases List.mem_cons.1 hp with rfl | hp
    · exact .refl
    · obtain ⟨k,hk,hp⟩ := List.mem_flatMap.1 hp
      exact (ih k hk p hp).head ⟨_,references_of_load load,List.mem_map_of_mem hk⟩

theorem Tree.mem_of_reach {h : ℕ} {t : Summary Bytes} (ht : Tree ctx f h t)
    (hp : ReflTransGen (fun a b => ∃ refs,IndexFile.references f ctx.keylen a = some refs ∧ b∈refs) t.off p) : p∈t.pages := by
  induction hp with
  | refl => exact ht.off_mem_pages
  | tail _ hedge ih =>
    obtain ⟨refs,hrefs,hmem⟩ := hedge
    obtain ⟨refs',hrefs',hsub⟩ := Tree.references ht _ ih
    rw [hrefs] at hrefs'
    obtain rfl := Option.some.inj hrefs'
    exact hsub hmem

end Dataman.IndexFile

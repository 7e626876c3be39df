import Dataman.IndexInvariant
import Dataman.IndexRemovalCorrect

/-!
# Updates of an index file

An update writes pages outside the trees of both root slots and then one root slot. The
file between the two steps still has the old header and the old trees.
-/

namespace Dataman.IndexFile
open ByteFiles FixedWidthFields FailState PageTree

variable {ctx : Context} {first : ℕ} {f g : Bytes}

/-! ## Files with the same header -/

theorem getU16_congr (h : slice g 0 128 = slice f 0 128) {off : ℕ} (ho : off+2 ≤ 128) : getU16 g off = getU16 f off := by
  rw [← getU16_header ho,h,getU16_header ho]

theorem getU32_congr (h : slice g 0 128 = slice f 0 128) {off : ℕ} (ho : off+4 ≤ 128) : getU32 g off = getU32 f off := by
  have hs : ∀ f : Bytes,getU32 (slice f 0 128) off = getU32 f off := fun f => by
    rw [getU32,getU32,slice_slice _ _ _ _ _ ho,Nat.zero_add]
  rw [← hs,h,hs]

theorem slot0_congr (h : slice g 0 128 = slice f 0 128) : slot0 g = slot0 f := by
  rw [← slot0_header,h,slot0_header]

theorem slot1_congr (h : slice g 0 128 = slice f 0 128) : slot1 g = slot1 f := by
  rw [← slot1_header,h,slot1_header]

theorem fixedFields_congr (h : slice g 0 128 = slice f 0 128) (flags : ℕ) : fixedFields g flags = fixedFields f flags := by
  rw [← fixedFields_header,h,fixedFields_header]

theorem length_le_applyWrites (f : Bytes) (ws : List (ℕ × Bytes)) : f.length ≤ (applyWrites f ws).length := by
  induction ws generalizing f with
  | nil => exact le_rfl
  | cons w ws ih => exact le_trans (length_le_writeAt f w.1 w.2) (ih _)

/-- Writes behind the header leave it alone. -/
theorem header_applyWrites {ws : List (ℕ × Bytes)} (hf : 128 ≤ f.length) (hws : ∀ w∈ws,128 ≤ w.1) :
    slice (applyWrites f ws) 0 128 = slice f 0 128 := by
  induction ws generalizing f with
  | nil => rfl
  | cons w ws ih =>
    have hw := hws w List.mem_cons_self
    rw [applyWrites_cons,ih (le_trans hf (length_le_writeAt _ _ _)) fun v hv => hws v (List.mem_cons_of_mem _ hv),
      slice_writeAt_disjoint _ _ _ _ _ (by omega) (by omega)]

/-! ## Page writes beside the trees -/

/-- The pages in use: those of the trees under the valid slots. -/
def InUse (ctx : Context) (first : ℕ) (f : Bytes) (p : ℕ) : Prop :=
  ∃ r,(slot0 f = some r ∨ slot1 f = some r) ∧ ∃ h t,t.off = r.rootOffset ∧ Rooted ctx first f h t ∧ p∈t.pages

/-- Page writes that stay clear of the pages in use; a torn last write may be shorter. -/
structure Beside (ctx : Context) (first : ℕ) (f : Bytes) (ws : List (ℕ × Bytes)) : Prop where
  aligned : ∀ w∈ws,ctx.pageSize ∣ w.1
  ge : ∀ w∈ws,first ≤ w.1
  short : ∀ w∈ws,w.2.length ≤ ctx.pageSize
  apart : ∀ w∈ws,¬ InUse ctx first f w.1

theorem Beside.header {ws : List (ℕ × Bytes)} (hl : Layout ctx first f) (hw : Beside ctx first f ws) :
    slice (applyWrites f ws) 0 128 = slice f 0 128 :=
  header_applyWrites hl.length_ge fun w hm => le_trans hl.first_ge (hw.ge w hm)

theorem Beside.rooted {ws : List (ℕ × Bytes)} {r : Slot} {h : ℕ} {t : Summary Bytes} (hl : Layout ctx first f)
    (hw : Beside ctx first f ws) (hr : slot0 f = some r ∨ slot1 f = some r) (ho : t.off = r.rootOffset)
    (ht : Rooted ctx first f h t) : Rooted ctx first (applyWrites f ws) h t := by
  refine ⟨ht.tree.frame fun p hp n hn => ?_,ht.sorted,fun p hp => ?_⟩
  · refine load_applyWrites hl.fits (ht.pages p hp).1 (fun w hm => ⟨hw.aligned w hm,hw.short w hm,?_⟩) hn
    rintro rfl
    exact hw.apart w hm ⟨r,hr,h,t,ho,ht,hp⟩
  · obtain ⟨h1,h2,h3⟩ := ht.pages p hp
    exact ⟨h1,h2,lt_of_lt_of_le h3 (length_le_applyWrites f ws)⟩

theorem Layout.congr (hl : Layout ctx first f) (hh : slice g 0 128 = slice f 0 128) (hw : ctx.pageSize ∣ g.length)
    (hfirst : first ≤ g.length) (hle : g.length ≤ int64Max) : Layout ctx first g where
  keylen_eq := (getU16_congr hh (by omega)).trans hl.keylen_eq
  fileCount_eq := (getU16_congr hh (by omega)).trans hl.fileCount_eq
  keylen_pos := hl.keylen_pos
  keylen_le := hl.keylen_le
  fileCount_pos := hl.fileCount_pos
  pageSize_eq := hl.pageSize_eq
  pageSize_field := (getU16_congr hh (by omega)).trans hl.pageSize_field
  first_eq := by rw [getU32_congr hh (by omega)]; exact hl.first_eq
  whole := hw
  first_le := hfirst
  length_le := hle

/-- An index stays an index when whole pages are written beside its trees. -/
theorem Index.beside {ws : List (ℕ × Bytes)} (hi : Index ctx first f) (hw : Beside ctx first f ws)
    (hl : Layout ctx first (applyWrites f ws)) : Index ctx first (applyWrites f ws) := by
  have hh := hw.header hi.toLayout
  refine { hl with fixed := ?_,parity := ⟨?_,?_⟩,rooted := ?_ }
  · rw [fixedFields_congr hh,hi.fixed]
  · rw [slot0_congr hh]
    exact hi.parity.odd
  · rw [slot1_congr hh]
    exact hi.parity.even
  · rw [slot0_congr hh,slot1_congr hh]
    intro r hr
    obtain ⟨h,t,ho,ht⟩ := hi.rooted r hr
    exact ⟨h,t,ho,hw.rooted hi.toLayout hr ho ht⟩

/-! ## Publication -/

/-- The flags, the build root and the slots may be written at any time. -/
theorem Layout.writeAt {data : Bytes} {o : ℕ} (hl : Layout ctx first f) (ho : 22 ≤ o ∧ o+data.length ≤ 128) :
    Layout ctx first (ByteFiles.writeAt f o data) := by
  have hlen := hl.length_ge
  have hlen' : (ByteFiles.writeAt f o data).length = f.length := length_writeAt_page rfl (by omega)
  have hu : ∀ off,off+2 ≤ 22 → getU16 (ByteFiles.writeAt f o data) off = getU16 f off := fun off hoff =>
    getU16_writeAt (by omega) (by omega)
  have hu32 : getU32 (ByteFiles.writeAt f o data) 16 = getU32 f 16 := by
    rw [getU32,getU32,slice_writeAt_disjoint _ _ _ _ _ (by omega) (by omega)]
  exact {
    keylen_eq := (hu 12 (by omega)).trans hl.keylen_eq
    fileCount_eq := (hu 14 (by omega)).trans hl.fileCount_eq
    keylen_pos := hl.keylen_pos
    keylen_le := hl.keylen_le
    fileCount_pos := hl.fileCount_pos
    pageSize_eq := hl.pageSize_eq
    pageSize_field := (hu 20 (by omega)).trans hl.pageSize_field
    first_eq := by rw [hu32]; exact hl.first_eq
    whole := hlen' ▸ hl.whole
    first_le := hlen' ▸ hl.first_le
    length_le := hlen' ▸ hl.length_le }

theorem Rooted.loads_header_write {h o : ℕ} {t : Summary Bytes} {data : Bytes} (hl : Layout ctx first f)
    (ht : Rooted ctx first f h t) (ho : o+data.length ≤ 128) :
    ∀ p∈t.pages,∀ n,v2LoadNode ctx f p = some n → v2LoadNode ctx (ByteFiles.writeAt f o data) p = some n := by
  intro p hp n hn
  apply v2LoadNode_frame hl.fits hn
  intro off len bs h1 h2
  apply readAt_writeAt_disjoint
  have := (ht.pages p hp).2.1
  have := hl.first_ge
  omega

/-- A write inside the header does not touch the pages. -/
theorem Rooted.header_write {h o : ℕ} {t : Summary Bytes} {data : Bytes} (hl : Layout ctx first f)
    (ht : Rooted ctx first f h t) (ho : o+data.length ≤ 128) : Rooted ctx first (writeAt f o data) h t := by
  refine ⟨ht.tree.frame (ht.loads_header_write hl ho),ht.sorted,fun p hp => ?_⟩
  · obtain ⟨h1,h2,h3⟩ := ht.pages p hp
    exact ⟨h1,h2,lt_of_lt_of_le h3 (length_le_writeAt _ _ _)⟩

/-- The bytes of a slot are read as that slot or not at all. -/
theorem eq_of_readSlot {root r : Slot} (hp : root.Publishable) (h : readSlot (slotBytes root) = some r) : r = root := by
  rw [readSlot_slotBytes hp] at h
  split at h
  · cases h
  · exact (Option.some.inj h).symm

/-- Publishing the root of a stored tree. -/
theorem Index.publish {root : Slot} {h : ℕ} {t : Summary Bytes} (hi : Index ctx first f) (hp : root.Publishable)
    (ho : t.off = root.rootOffset) (ht : Rooted ctx first f h t) :
    Index ctx first (writeAt f (slotOffset root.generation) (slotBytes root)) := by
  have hl := hi.toLayout
  have hlen := length_slotBytes root
  obtain ⟨h00,h01,h10,h11⟩ := slots_writeAt_slot hl.length_ge hlen
  have hcases := slotOffset_cases root.generation
  have hlay : Layout ctx first (writeAt f (slotOffset root.generation) (slotBytes root)) := hl.writeAt (by omega)
  have hrooted : ∀ {h t},Rooted ctx first f h t →
      Rooted ctx first (writeAt f (slotOffset root.generation) (slotBytes root)) h t :=
    fun ht => ht.header_write hl (by omega)
  have hpub : Published f := ⟨hl.length_ge,hi.fixed,hl.keylen_eq ▸ hl.keylen_pos,hl.fileCount_eq ▸ hl.fileCount_pos⟩
  have hnew := fun r => @eq_of_readSlot root r hp
  refine { hlay with fixed := (hpub.writeAt (by omega)).fixed,parity := ?_,rooted := ?_ }
  · rcases hcases with ⟨hc,hpar⟩ | ⟨hc,hpar⟩
    · rw [hc]
      exact ⟨fun r hr => hnew r (h00 ▸ hr) ▸ hpar,fun r hr => hi.parity.even r (h01 ▸ hr)⟩
    · rw [hc]
      exact ⟨fun r hr => hi.parity.odd r (h10 ▸ hr),fun r hr => hnew r (h11 ▸ hr) ▸ hpar⟩
  · have hold : ∀ r,slot0 f = some r ∨ slot1 f = some r → ∃ h t,t.off = r.rootOffset ∧
        Rooted ctx first (writeAt f (slotOffset root.generation) (slotBytes root)) h t := fun r hr => by
      obtain ⟨h',t',ho',ht'⟩ := hi.rooted r hr
      exact ⟨h',t',ho',hrooted ht'⟩
    intro r hr
    rcases hcases with ⟨hc,-⟩ | ⟨hc,-⟩
    · rw [hc] at hr ⊢
      rw [h00,h01] at hr
      rcases hr with hr | hr
      · exact ⟨h,t,hnew r hr ▸ ho,hc ▸ hrooted ht⟩
      · exact hc ▸ hold r (.inr hr)
    · rw [hc] at hr ⊢
      rw [h10,h11] at hr
      rcases hr with hr | hr
      · exact hc ▸ hold r (.inl hr)
      · exact ⟨h,t,hnew r hr ▸ ho,hc ▸ hrooted ht⟩

/-! ## Opening for an update -/

theorem selectSlot_mem {a b : Option Slot} {r : Slot} (h : selectSlot a b = some r) : a = some r ∨ b = some r := by
  unfold selectSlot at h
  split at h
  · cases h
  · exact .inl h
  · exact .inr h
  · split at h
    · exact .inl h
    · exact .inr h

theorem Index.published (hi : Index ctx first f) : Published f :=
  ⟨hi.length_ge,hi.fixed,hi.keylen_eq ▸ hi.keylen_pos,hi.fileCount_eq ▸ hi.fileCount_pos⟩

theorem Index.readHeader (hi : Index ctx first f) : indexV2ReadHeader f =
    (selectSlot (slot0 f) (slot1 f)).map (fun root => ⟨ctx.keylen,ctx.fileCount,root⟩) := by
  rw [readHeader_eq hi.published,hi.keylen_eq,hi.fileCount_eq]

theorem Layout.readPageSize (hl : Layout ctx first f) : indexV2ReadPageSize f ctx.keylen = some ctx.pageSize := by
  have hb := pageSize_bounds hl.keylen_le
  have hps := hl.pageSize_pos
  have hread : readAt f 0 128 = some (slice f 0 128) := readAt_of_le (by have := hl.length_ge; omega)
  have hok : ¬ (ctx.pageSize < indexV2PageSize ctx.keylen ∨ ctx.pageSize % 64≠0) := by
    rw [hl.pageSize_eq]
    omega
  unfold indexV2ReadPageSize
  simp only [hread,Option.bind_eq_bind,Option.bind_some,getU16_header (show 20+2 ≤ 128 by omega),
    hl.pageSize_field,if_neg (show ¬ ctx.pageSize = 0 by omega)]
  simp [guard_eq_ite,hok]

/-- The allocator set up over the two trees of an index. -/
structure Opened (ctx : Context) (first : ℕ) (s s0 : IndexState) : Prop where
  bytes_eq : s0.bytes = s.bytes
  writes_eq : s0.writes = s.writes
  allocating : Allocating ctx first s0
  stored : ∀ r,slot0 s.bytes = some r ∨ slot1 s.bytes = some r → ∀ h t,t.off = r.rootOffset →
    Rooted ctx first s.bytes h t → Stored ctx first s0 h t

theorem openForUpdate_spec {s : IndexState} (hcow : ctx.inPlace = false) (hi : Index ctx first s.bytes) (fileId : ℕ) :
    wp (openForUpdate fileId) s
      (fun r s0 => r.2 = ctx ∧ indexV2ReadHeader s.bytes = some r.1 ∧ fileId < ctx.fileCount ∧ Opened ctx first s s0)
      (fun e s' => s' = s ∧ (e = .header ∧ indexV2ReadHeader s.bytes = none ∨ e = .argument ∧ ctx.fileCount ≤ fileId)) := by
  have hl := hi.toLayout
  obtain ⟨free,hfree,hlist⟩ := v2CollectFreePages_spec hi
  simp only [openForUpdate,wp_bind,wp_get,wp_ofOption]
  cases hh : indexV2ReadHeader s.bytes with
  | none => exact ⟨trivial,.inl ⟨trivial,rfl⟩⟩
  | some hd =>
    have hhd := hh
    rw [hi.readHeader,Option.map_eq_some_iff] at hhd
    obtain ⟨root,hsel,rfl⟩ := hhd
    simp only [wp_ensure]
    by_cases hid : fileId < ctx.fileCount
    · rw [if_pos (by simp [hl.keylen_le,hid])]
      simp only [hl.readPageSize,hfree,wp_modify,wp_pure]
      refine ⟨?_,trivial,hid,rfl,rfl,?_,?_⟩
      · rw [← hcow]
      · refine ⟨?_,?_,?_,?_,hlist.nodup,fun p hp => ?_⟩
        · simp only [roundUp_eq hl.pageSize_pos hl.whole,hl.whole]
        · simp only [roundUp_eq hl.pageSize_pos hl.whole,hl.first_le]
        · simp only [roundUp_eq hl.pageSize_pos hl.whole,hl.length_le]
        · simp only [roundUp_eq hl.pageSize_pos hl.whole]
        · simp only [roundUp_eq hl.pageSize_pos hl.whole]
          exact hlist.page p hp
      · intro r hr h t ho ht
        refine ⟨ht.tree,fun p hp => ?_⟩
        obtain ⟨h1,h2,h3⟩ := ht.pages p hp
        refine ⟨h1,h2,?_,hlist.apart r hr h t ho ht p hp⟩
        simpa only [roundUp_eq hl.pageSize_pos hl.whole] using h3
    · rw [if_neg (by simp [hid])]
      exact ⟨trivial,.inr ⟨trivial,by omega⟩⟩

/-! ## The two phases of an update -/

/-- Whole pages written beside the trees in use. -/
structure Written (ctx : Context) (first : ℕ) (s s' : IndexState) (ws : List (ℕ × Bytes)) : Prop where
  beside : Beside ctx first s.bytes ws
  once : ws.Pairwise (fun v w => v.1≠w.1)
  layout : Layout ctx first s'.bytes
  writes_eq : s'.writes = s.writes++ws
  bytes_eq : s'.bytes = applyWrites s.bytes ws

theorem Allocating.layout {s : IndexState} (ha : Allocating ctx first s) (hl : Layout ctx first f)
    (hh : slice s.bytes 0 128 = slice f 0 128) : Layout ctx first s.bytes := by
  refine hl.congr hh ?_ ?_ ?_ <;> rw [ha.length_eq]
  · exact ha.next_aligned
  · exact ha.first_le
  · exact ha.next_le

theorem Opened.written {s s0 s1 : IndexState} (hi : Index ctx first s.bytes) (ho : Opened ctx first s s0)
    (he : Extends ctx first ∅ s0 s1) : ∃ ws,Written ctx first s s1 ws := by
  obtain ⟨ha,-,ws,hw⟩ := he
  have hbeside : Beside ctx first s.bytes ws := by
    refine ⟨fun w hm => (hw.page w hm).1,fun w hm => (hw.page w hm).2.1,fun w hm => (hw.page w hm).2.2.le,?_⟩
    rintro w hm ⟨r,hr,h,t,hoff,ht,hp⟩
    have hheld := (ho.stored r hr h t hoff ht).held _ hp
    exact ((hw.target w hm).resolve_left fun h => h).1 hheld
  have hbytes : s1.bytes = applyWrites s.bytes ws := ho.bytes_eq ▸ hw.bytes_eq
  refine ⟨ws,hbeside,hw.once.imp fun h heq => h heq,ha.layout hi.toLayout ?_,ho.writes_eq ▸ hw.writes_eq,hbytes⟩
  rw [hbytes]
  exact hbeside.header hi.toLayout

theorem Stored.rooted {s : IndexState} {h : ℕ} {t : Summary Bytes} (ha : Allocating ctx first s)
    (ht : Stored ctx first s h t) (hs : t.entries.Pairwise (· < ·)) : Rooted ctx first s.bytes h t := by
  refine ⟨ht.tree,hs,fun p hp => ?_⟩
  have := ht.held p hp
  exact ⟨this.aligned,this.ge,ha.length_eq ▸ this.lt⟩

/-- A published update: page writes, then the slot of the next generation. -/
structure Committed (ctx : Context) (first : ℕ) (s s' : IndexState) (hd : Header) (h : ℕ) (t : Summary Bytes)
    (ws : List (ℕ × Bytes)) (root : Slot) : Prop where
  written : ∃ s1,Written ctx first s s1 ws ∧ Rooted ctx first s1.bytes h t ∧
    s'.bytes = writeAt s1.bytes (slotOffset root.generation) (slotBytes root) ∧
    s'.writes = s1.writes++[(slotOffset root.generation,slotBytes root)]
  publishable : root.Publishable
  generation : root.generation = hd.root.generation+1
  off : t.off = root.rootOffset

/-- The generation number ran out: the pages are written but nothing is published. -/
structure Abandoned (ctx : Context) (first : ℕ) (s s' : IndexState) (hd : Header) : Prop where
  written : ∃ ws,Written ctx first s s' ws
  generation : hd.root.generation+1 = 2 ^ 64

theorem readSlot_generation {b : Bytes} {r : Slot} (h : readSlot b = some r) :
    0 < r.generation ∧ r.generation < 2 ^ 64 := by
  simp only [readSlot] at h
  split at h
  · cases h
  · split at h
    · rename_i hg
      cases h
      refine ⟨Nat.pos_of_ne_zero hg.1,?_⟩
      have h1 := getBE_lt (slice b 0 8)
      have h2 : (slice b 0 8).length ≤ 8 := by rw [length_slice]; omega
      exact lt_of_lt_of_le h1 (Nat.pow_le_pow_right (by omega) h2)
    · cases h

theorem Index.generation (hi : Index ctx first f) {hd : Header} (hh : indexV2ReadHeader f = some hd) :
    0 < hd.root.generation ∧ hd.root.generation < 2 ^ 64 := by
  rw [hi.readHeader,Option.map_eq_some_iff] at hh
  obtain ⟨root,hsel,rfl⟩ := hh
  rcases selectSlot_mem hsel with h | h
  · exact readSlot_generation h
  · exact readSlot_generation h

theorem wp_publishRoot {root : Slot} {s : IndexState} {Q : Unit → IndexState → Prop} {E : Fault → IndexState → Prop}
    (hp : root.Publishable) : wp (publishRoot root) s Q E ↔ Q () { s with
      bytes := writeAt s.bytes (slotOffset root.generation) (slotBytes root)
      writes := s.writes++[(slotOffset root.generation,slotBytes root)] } := by
  exact wp_of_ok (publishRoot_eq hp s)

theorem publishRoot_spec {s s1 : IndexState} {ws : List (ℕ × Bytes)} {hd : Header} {h : ℕ} {t : Summary Bytes}
    {root crc : ℕ} (hi : Index ctx first s.bytes) (hh : indexV2ReadHeader s.bytes = some hd)
    (hw : Written ctx first s s1 ws) (ht : Rooted ctx first s1.bytes h t) (ho : root = t.off) (hcrc : crc < 2 ^ 32) :
    wp (publishRoot ⟨root,crc,nextGeneration hd.root.generation⟩) s1
      (fun _ s' => Committed ctx first s s' hd h t ws ⟨root,crc,hd.root.generation+1⟩)
      (fun e s' => e = .publish ∧ Abandoned ctx first s s' hd) := by
  have hg := hi.generation hh
  obtain ⟨-,hge,hlt⟩ := ht.pages _ ht.tree.off_mem_pages
  have hfirst := hw.layout.first_ge
  have hlen := hw.layout.length_le
  simp only [int64Max] at hlen
  by_cases hwrap : hd.root.generation+1 = 2 ^ 64
  · have hz : nextGeneration hd.root.generation = 0 := by rw [nextGeneration,hwrap]; rfl
    simp only [publishRoot,wp_bind,wp_ensure,hz,ne_eq,not_true_eq_false,and_false,decide_false,
      Bool.false_eq_true,if_false]
    exact ⟨trivial,⟨ws,hw⟩,hwrap⟩
  · have hnext : nextGeneration hd.root.generation = hd.root.generation+1 := Nat.mod_eq_of_lt (by omega)
    have hp : Slot.Publishable ⟨root,crc,hd.root.generation+1⟩ :=
      ⟨by simp only; omega,by simp only; omega,hcrc,by simp only; omega,by simp only; omega⟩
    rw [hnext,wp_publishRoot hp]
    exact ⟨⟨s1,hw,ht,rfl,rfl⟩,hp,rfl,ho.symm⟩

/-! ## Insert and remove -/

theorem growRoot_spec {s s1 : IndexState} {h offset : ℕ} {t : Summary Bytes} {e : Bytes} {r : InsertResult}
    {ts : List (Summary Bytes)} (hf : ctx.Fits) (hown : rewritten ctx offset = ∅) (ha : Allocating ctx first s1)
    (ho : ctx.inPlace = true → offset≠0 → Held ctx first s1 offset) (hi : Inserted ctx first s s1 h t e r ts) :
    wp (growRoot ctx r offset) s1
      (fun w s2 => Extends ctx first ∅ s1 s2 ∧ w.2 < 2 ^ 32 ∧ ∃ h' t',Stored ctx first s2 h' t' ∧ w.1 = t'.off ∧
        t'.entries = t.entries.orderedInsert (· ≤ ·) e ∧ (ctx.inPlace = true → t'.pages.Nodup) ∧
        (r.split = none → w.1 = r.offset) ∧
        ∃ es,LeafBelow (v2LoadNode ctx s2.bytes) w.1 r.leafOffset es ∧ es[r.leafIndex]? = some e)
      (fun f _ => f = .io) := by
  unfold growRoot
  have hoffs := hi.offs
  have hkeys := hi.keys
  have hentries := hi.entries
  obtain ⟨lk,hlk,es,hleaf,hat⟩ := hi.place
  cases hs : r.split with
  | none =>
    rw [hs] at hoffs
    obtain ⟨u,rfl,hu⟩ : ∃ u,ts = [u] ∧ u.off = r.offset := by
      cases ts with
      | nil => simp at hoffs
      | cons u us => simpa [and_comm] using hoffs
    refine (wp_pure _).2 ⟨.refl ha _,hi.crc_lt,h,u,hi.stored u (by simp),hu.symm,by simpa using hentries,?_,fun _ => rfl,es,?_,hat⟩
    · intro hin
      simpa using hi.nodup hin
    · rw [← hu,← List.mem_singleton.1 hlk]
      exact hleaf
  | some split =>
    obtain ⟨right,sep⟩ := split
    rw [hs] at hoffs hkeys
    have hlen : ts.length = 2 := by simpa using congrArg List.length hoffs
    have hsib : Siblings ctx first s1 h ts := ⟨hi.stored,fun k hk =>
      ⟨hi.halves (by simp [hs]) k hk,(hi.stored k hk).tree.count_le⟩⟩
    simp only [Option.toList_some,List.map_cons,List.map_nil] at hoffs hkeys
    simp only
    rw [← hoffs,← hkeys]
    refine wp_mono (writeInternal_spec hf ha hsib (by omega) (by simp only [maxKeys]; omega) ho (by simp [hown])) ?_
      fun f _ h => h
    rintro ⟨page,crc⟩ s2 ⟨hext,hst,hplaced,hcrc,hload⟩
    have hleaf2 := (hi.stored lk hlk).leaf_extend hf hext (by simp [hown]) hleaf
    refine ⟨hown ▸ hext,hcrc,h+1,_,hst,rfl,hentries,fun hin => ?_,by simp,es,
      .inner hload (List.mem_map_of_mem hlk) hleaf2,hat⟩
    refine List.nodup_cons.2 ⟨fun hm => ?_,hi.nodup hin⟩
    obtain ⟨k,hk,hp⟩ := List.mem_flatMap.1 hm
    refine (hplaced.own_or_new.resolve_left (by simp [hown])) ((hi.stored k hk).held _ hp)

theorem length_composite (fileId record : ℕ) {keylen : ℕ} {key : Bytes} (h : keylen ≤ key.length) :
    (composite keylen key fileId record).length = keylen+2+8 := by
  simp [composite,putU16,putU64,h]

/-- The tree under the selected root. -/
structure Current (ctx : Context) (first : ℕ) (f : Bytes) (hd : Header) (h : ℕ) (t : Summary Bytes) : Prop where
  header : indexV2ReadHeader f = some hd
  off : t.off = hd.root.rootOffset
  rooted : Rooted ctx first f h t

theorem Index.current (hi : Index ctx first f) {hd : Header} (hh : indexV2ReadHeader f = some hd) :
    hd.keylen = ctx.keylen ∧ (slot0 f = some hd.root ∨ slot1 f = some hd.root) ∧
      ∃ h t,Current ctx first f hd h t := by
  have hhd := hh
  rw [hi.readHeader,Option.map_eq_some_iff] at hhd
  obtain ⟨root,hsel,rfl⟩ := hhd
  obtain ⟨h,t,ho,ht⟩ := hi.rooted root (selectSlot_mem hsel)
  exact ⟨rfl,selectSlot_mem hsel,h,t,hh,ho,ht⟩

/-- A successful update replaced the selected tree by one with the entries `change` gives. -/
structure Applied (ctx : Context) (first : ℕ) (s s' : IndexState) (fileId : ℕ) (allowed : List Bytes → Prop)
    (change : List Bytes → List Bytes) : Prop where
  file_lt : fileId < ctx.fileCount
  replaced : ∃ hd h t,Current ctx first s.bytes hd h t ∧ allowed t.entries ∧ ∃ h' t' ws root,
    t'.entries = change t.entries ∧ Committed ctx first s s' hd h' t' ws root

/-- An update returned false: the file could not take a write, the generations ran out, or
nothing was written. -/
inductive Rejected (ctx : Context) (first : ℕ) (s s' : IndexState) (fileId : ℕ) (entry : Fault)
    (refused : List Bytes → Prop) : Fault → Prop
  | io : Rejected ctx first s s' fileId entry refused .io
  | publish {hd : Header} (header : indexV2ReadHeader s.bytes = some hd) (abandoned : Abandoned ctx first s s' hd) :
      Rejected ctx first s s' fileId entry refused .publish
  | header (bytes : s'.bytes = s.bytes) (writes : s'.writes = s.writes) (unreadable : indexV2ReadHeader s.bytes = none) :
      Rejected ctx first s s' fileId entry refused .header
  | argument (bytes : s'.bytes = s.bytes) (writes : s'.writes = s.writes) (file_ge : ctx.fileCount ≤ fileId) :
      Rejected ctx first s s' fileId entry refused .argument
  | entry {hd : Header} {h : ℕ} {t : Summary Bytes} (bytes : s'.bytes = s.bytes) (writes : s'.writes = s.writes)
      (file_lt : fileId < ctx.fileCount) (current : Current ctx first s.bytes hd h t) (reason : refused t.entries) :
      Rejected ctx first s s' fileId entry refused entry

theorem rejected_of_open {s s' : IndexState} {fileId : ℕ} {entry e : Fault} {refused : List Bytes → Prop}
    (h : s' = s ∧ (e = .header ∧ indexV2ReadHeader s.bytes = none ∨ e = .argument ∧ ctx.fileCount ≤ fileId)) :
    Rejected ctx first s s' fileId entry refused e := by
  obtain ⟨rfl,⟨rfl,hh⟩ | ⟨rfl,hid⟩⟩ := h
  · exact .header rfl rfl hh
  · exact .argument rfl rfl hid

/-- A successful insert of `e`: the cursor and the root that it returns are those of the published tree. -/
structure Entered (ctx : Context) (first : ℕ) (s s' : IndexState) (fileId : ℕ) (e : Bytes) (r : Cursor × ℕ) : Prop where
  file_lt : fileId < ctx.fileCount
  replaced : ∃ hd h t,Current ctx first s.bytes hd h t ∧ e∉t.entries ∧ ∃ h' t' ws root,
    t'.entries = t.entries.orderedInsert (· ≤ ·) e ∧ Committed ctx first s s' hd h' t' ws root ∧
    root.rootOffset = r.2 ∧ root.generation = r.1.generation
  place : ∃ es,LeafBelow (v2LoadNode ctx s'.bytes) r.2 r.1.nodeOffset es ∧ es[r.1.entryIndex]? = some e

theorem Entered.applied {s s' : IndexState} {fileId : ℕ} {e : Bytes} {r : Cursor × ℕ}
    (h : Entered ctx first s s' fileId e r) :
    Applied ctx first s s' fileId (e ∉ ·) (·.orderedInsert (· ≤ ·) e) := by
  obtain ⟨hid,⟨hd,h,t,hcur,hnot,h',t',ws,root,hentries,hcom,-⟩,-⟩ := h
  exact ⟨hid,hd,h,t,hcur,hnot,h',t',ws,root,hentries,hcom⟩

/-- A leaf of the published tree, after the publication. -/
theorem Committed.leaf {s s1 s' : IndexState} {hd : Header} {h o : ℕ} {t : Summary Bytes} {ws : List (ℕ × Bytes)}
    {root : Slot} {es : List Bytes} (hc : Committed ctx first s s' hd h t ws root) (hw : Written ctx first s s1 ws)
    (hleaf : LeafBelow (v2LoadNode ctx s1.bytes) t.off o es) : LeafBelow (v2LoadNode ctx s'.bytes) t.off o es := by
  obtain ⟨s2,hw2,ht,hbytes,-⟩ := hc.written
  have hlen := length_slotBytes root
  have hcases := slotOffset_cases root.generation
  rw [hw.bytes_eq,← hw2.bytes_eq] at hleaf
  rw [hbytes]
  exact hleaf.frame ht.tree ht.tree.off_mem_pages (ht.loads_header_write hw2.layout (by omega))

theorem indexV2Insert_entered {s : IndexState} (hcow : ctx.inPlace = false) (hi : Index ctx first s.bytes)
    {key : Bytes} (hkey : ctx.keylen ≤ key.length) (fileId record : ℕ) :
    wp (indexV2Insert key fileId record) s
      (fun r s' => Entered ctx first s s' fileId (composite ctx.keylen key fileId record) r)
      (fun e s' => Rejected ctx first s s' fileId .duplicate (composite ctx.keylen key fileId record ∈ ·) e) := by
  have hl := hi.toLayout
  unfold indexV2Insert
  rw [wp_bind]
  refine wp_mono (openForUpdate_spec hcow hi fileId) ?_ fun e s' h => rejected_of_open h
  rintro ⟨hd,c⟩ s0 ⟨hc,hh,hid,hopen⟩
  obtain rfl : c = ctx := hc
  obtain ⟨hkl,hslot,h,t,hcur⟩ := hi.current hh
  have hst := hopen.stored hd.root hslot h t hcur.off hcur.rooted
  have hoff : hd.root.rootOffset = t.off := hcur.off.symm
  have hkl : hd.keylen = c.keylen := hkl
  simp only [wp_bind,wp_get,hkl,hoff,hopen.bytes_eq]
  refine wp_mono (v2InsertNode_spec hl.fits (lt_of_lt_of_le (by omega) hl.first_ge) (length_composite fileId record hkey)
    (Nat.lt_succ_of_lt (hcur.rooted.height_lt_length hl)) hopen.allocating hst hcur.rooted.sorted (by simp [hcow])) ?_ ?_
  · rintro r s1 ⟨hnot,hext,ts,hins⟩
    have hown : ownPages c t = ∅ := by ext p; simp [ownPages,hcow]
    refine wp_mono (growRoot_spec hl.fits (rewritten_eq_empty hcow _) hext.allocating (by simp [hcow]) hins) ?_
      fun e _ h => h ▸ .io
    rintro ⟨root,crc⟩ s2 ⟨hext2,hcrc,h',t',hst',hroot,hentries,-,-,es,hleaf,hat⟩
    have hext' := (hown ▸ hext).trans hext2
    obtain ⟨ws,hw⟩ := hopen.written hi hext'
    have hrooted := hst'.rooted hext'.allocating (hentries ▸ pairwise_orderedInsert hcur.rooted.sorted hnot)
    refine wp_mono (publishRoot_spec hi hh hw hrooted hroot hcrc) ?_ ?_
    · rintro - s3 hcom
      have hgen : nextGeneration hd.root.generation = hd.root.generation+1 :=
        Nat.mod_eq_of_lt hcom.publishable.generation_lt
      obtain rfl : root = t'.off := hroot
      refine (wp_pure _).2 ⟨hid,⟨hd,h,t,hcur,hnot,h',t',ws,_,hentries,hcom,rfl,hgen.symm⟩,es,?_,hat⟩
      exact hcom.leaf hw hleaf
    · rintro e s3 ⟨rfl,hab⟩
      exact .publish hh hab
  · rintro e s1 (rfl | ⟨rfl,rfl,hmem⟩)
    · exact .io
    · exact .entry hopen.bytes_eq hopen.writes_eq hid hcur hmem

theorem indexV2Insert_spec {s : IndexState} (hcow : ctx.inPlace = false) (hi : Index ctx first s.bytes)
    {key : Bytes} (hkey : ctx.keylen ≤ key.length) (fileId record : ℕ) :
    wp (indexV2Insert key fileId record) s
      (fun _ s' => Applied ctx first s s' fileId (composite ctx.keylen key fileId record ∉ ·)
        (·.orderedInsert (· ≤ ·) (composite ctx.keylen key fileId record)))
      (fun e s' => Rejected ctx first s s' fileId .duplicate (composite ctx.keylen key fileId record ∈ ·) e) :=
  wp_mono (indexV2Insert_entered hcow hi hkey fileId record) (fun _ _ h => h.applied) fun _ _ h => h

theorem indexV2Remove_spec {s : IndexState} (hcow : ctx.inPlace = false) (hi : Index ctx first s.bytes)
    {key : Bytes} (hkey : ctx.keylen ≤ key.length) (fileId record : ℕ) :
    wp (indexV2Remove key fileId record) s
      (fun _ s' => Applied ctx first s s' fileId (composite ctx.keylen key fileId record ∈ ·)
        (·.erase (composite ctx.keylen key fileId record)))
      (fun e s' => Rejected ctx first s s' fileId .missing (composite ctx.keylen key fileId record ∉ ·) e) := by
  have hl := hi.toLayout
  unfold indexV2Remove
  rw [wp_bind]
  refine wp_mono (openForUpdate_spec hcow hi fileId) ?_ fun e s' h => rejected_of_open h
  rintro ⟨hd,c⟩ s0 ⟨hc,hh,hid,hopen⟩
  obtain rfl : c = ctx := hc
  obtain ⟨hkl,hslot,h,t,hcur⟩ := hi.current hh
  have hst := hopen.stored hd.root hslot h t hcur.off hcur.rooted
  have hoff : hd.root.rootOffset = t.off := hcur.off.symm
  have hkl : hd.keylen = c.keylen := hkl
  simp only [wp_bind,wp_get,hkl,hoff,hopen.bytes_eq,wp_ensure]
  refine wp_mono (v2RemoveNode_spec hcow hl.fits (length_composite fileId record hkey)
    (Nat.lt_succ_of_lt (hcur.rooted.height_lt_length hl)) hopen.allocating hst hcur.rooted.sorted (by simp)) ?_
    fun e _ h => h ▸ .io
  rintro r s1 (⟨hfound,rfl,hnot⟩ | ⟨hfound,hmem,hext,h',t',hrem,-⟩)
  · rw [if_neg (by simp [hfound])]
    exact .entry hopen.bytes_eq hopen.writes_eq hid hcur hnot
  · rw [if_pos hfound]
    obtain ⟨ws,hw⟩ := hopen.written hi hext
    have hrooted := hrem.stored.rooted hext.allocating
      (hrem.entries ▸ hcur.rooted.sorted.sublist List.erase_sublist)
    refine wp_mono (publishRoot_spec hi hh hw hrooted hrem.off hrem.crc_lt) ?_ ?_
    · rintro - s3 hcom
      exact ⟨hid,hd,h,t,hcur,hmem,h',t',ws,_,hrem.entries,hcom⟩
    · rintro e s3 ⟨rfl,hab⟩
      exact .publish hh hab

end Dataman.IndexFile

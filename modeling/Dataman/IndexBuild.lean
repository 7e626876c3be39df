import Dataman.IndexCreation

/-!
# Indexes under construction

A build is the only party that knows its pages, so it may rewrite them. Its tree uses
every page once, which keeps the rewritten pages of one branch out of the others.
-/

namespace Dataman.IndexFile
open ByteFiles FixedWidthFields Checksum FailState PageTree

variable {ctx : Context} {first : ℕ} {f : Bytes}

/-- The context of a finished index. -/
def finished (ctx : Context) : Context := { ctx with inPlace := false }

/-- An index under construction, with the tree under its build root. -/
structure Building (ctx : Context) (first : ℕ) (f : Bytes) (h : ℕ) (t : Summary Bytes) : Prop
    extends Layout ctx first f where
  fixed : fixedFields f flagBuilding = true
  slots : slot0 f = none ∧ slot1 f = none
  buildRoot : getU64 f 24 = t.off
  rooted : Rooted ctx first f h t
  nodup : t.pages.Nodup

variable {o : ℕ}

theorem slots_writeAt_before {data : Bytes} (hl : 128 ≤ f.length) (ho : o+data.length ≤ 32) :
    slot0 (writeAt f o data) = slot0 f ∧ slot1 (writeAt f o data) = slot1 f := by
  rw [slot0,slot0,slot1,slot1,slice_writeAt_disjoint _ _ _ _ _ (by omega) (by omega),
    slice_writeAt_disjoint _ _ _ _ _ (by omega) (by omega)]
  exact ⟨rfl,rfl⟩

variable {h : ℕ} {t : Summary Bytes}

/-- Recording the build root in the header. -/
theorem building_of_root (hl : Layout ctx first f) (hfix : fixedFields f flagBuilding = true)
    (hslots : slot0 f = none ∧ slot1 f = none) (ht : Rooted ctx first f h t) (hnd : t.pages.Nodup) :
    Building ctx first (writeAt f 24 (putU64 t.off)) h t := by
  have hlen := hl.length_ge
  have h8 : (putU64 t.off).length = 8 := by simp [putU64]
  have hs : slot0 (writeAt f 24 (putU64 t.off)) = slot0 f ∧ slot1 (writeAt f 24 (putU64 t.off)) = slot1 f :=
    slots_writeAt_before hlen (by omega)
  refine { hl.writeAt (by omega) with
    fixed := (fixedFields_writeAt hlen (by omega) _).trans hfix
    slots := ⟨hs.1.trans hslots.1,hs.2.trans hslots.2⟩
    buildRoot := ?_
    rooted := ht.header_write hl (by omega)
    nodup := hnd }
  have hin := slice_writeAt_self f 24 (putU64 t.off)
  have hlt := (ht.pages _ ht.tree.off_mem_pages).2.2
  have hmax := hl.length_le
  simp only [int64Max] at hmax
  rw [h8] at hin
  rw [getU64,hin,putU64,getBE_putBE (by omega)]

variable {keylen : ℕ} {fileNames : List Bytes} {s : IndexState}

theorem indexV2BuildBegin_spec (hs : s.bytes = [])
    (hcount : fileNames.length < 2 ^ 16) :
    wp (indexV2BuildBegin keylen fileNames) s
      (fun root s' => Building (newContext keylen fileNames true) root s'.bytes 0 (.leaf root []))
      (fun e _ => e = .io ∨ e = .argument) := by
  refine v2CreateEmpty_spec hs hcount (.inr rfl) fun first crc s' hcrc hf => ?_
  have hfix := hf.fixed
  rw [creationFlags,if_pos rfl] at hfix
  have hb := building_of_root hf.toLayout hfix hf.slots hf.rooted (List.nodup_singleton first)
  simp only [recordRoot,if_true,wp_bind,wp_writeFullAt,wp_pure]
  split
  · exact hb
  · exact .inl trivial

/-- An empty index: if its slot can be read, it is the first generation of the empty leaf. -/
structure Empty (ctx : Context) (root : ℕ) (f : Bytes) : Prop extends Index ctx root f where
  first_generation : ∀ r,slot0 f = some r ∨ slot1 f = some r → r.rootOffset = root
  leaf : Rooted ctx root f 0 (.leaf root [])

theorem indexV2CreateEmpty_spec (hs : s.bytes = [])
    (hcount : fileNames.length < 2 ^ 16) :
    wp (indexV2CreateEmpty keylen fileNames) s
      (fun root s' => Empty (newContext keylen fileNames false) root s'.bytes)
      (fun e _ => e = .io ∨ e = .argument) := by
  refine v2CreateEmpty_spec hs hcount (.inr rfl) fun first crc s' hcrc hf => ?_
  have hfix := hf.fixed
  rw [creationFlags,if_neg Bool.false_ne_true] at hfix
  have hl := hf.toLayout
  have hge := hl.first_ge
  have hle := hl.first_le
  have hmax := hl.length_le
  simp only [int64Max] at hmax
  have hp : Slot.Publishable ⟨first,crc,1⟩ := ⟨hge,by simp only; omega,hcrc,le_rfl,by simp only; omega⟩
  have hi : Index (newContext keylen fileNames false) first s'.bytes := { hl with
    fixed := hfix
    parity := ⟨by simp [hf.slots.1],by simp [hf.slots.2]⟩
    rooted := by simp [hf.slots.1,hf.slots.2] }
  have hlen := length_slotBytes ⟨first,crc,1⟩
  obtain ⟨h00,h01,-,-⟩ := slots_writeAt_slot hl.length_ge hlen
  simp only [recordRoot,Bool.false_eq_true,if_false,wp_bind,wp_publishRoot hp,wp_pure]
  refine { hi.publish hp rfl hf.rooted with first_generation := ?_,leaf := hf.rooted.header_write hl ?_ }
  · intro r hr
    rw [show slotOffset 1 = 32 from rfl,h00,h01,hf.slots.2] at hr
    rcases hr with hr | hr
    · rw [eq_of_readSlot hp hr]
    · cases hr
  · rw [hlen]
    decide

/-! ## Inserting into a build -/

theorem Building.readHeader (hb : Building ctx first f h t) :
    v2ReadBuildHeader f = some (ctx.keylen,ctx.fileCount,t.off) := by
  have hge := (hb.rooted.pages _ hb.rooted.tree.off_mem_pages).2.1
  have hfirst := hb.first_ge
  have hread : readAt f 0 128 = some (slice f 0 128) := readAt_of_le (by have := hb.length_ge; omega)
  have hk : 0 < ctx.keylen ∧ ctx.keylen ≤ 32 ∧ 0 < ctx.fileCount ∧ 128 ≤ t.off :=
    ⟨hb.keylen_pos,hb.keylen_le,hb.fileCount_pos,by omega⟩
  unfold v2ReadBuildHeader
  simp only [hread,Option.bind_eq_bind,Option.bind_some,fixedFields_header,hb.fixed,
    getU16_header (show 12+2 ≤ 128 by omega),getU16_header (show 14+2 ≤ 128 by omega),
    getU64_header (show 24+8 ≤ 128 by omega),hb.keylen_eq,hb.fileCount_eq,hb.buildRoot]
  simp [guard_eq_ite,hk]

theorem Extends.header {own : Set ℕ} {s' : IndexState} (he : Extends ctx first own s s') (hfirst : 128 ≤ first)
    (hlen : 128 ≤ s.bytes.length) : slice s'.bytes 0 128 = slice s.bytes 0 128 := by
  obtain ⟨-,-,ws,hw⟩ := he
  rw [hw.bytes_eq]
  exact header_applyWrites hlen fun w hm => le_trans hfirst (hw.page w hm).2.1

theorem indexV2BuildInsert_spec (hin : ctx.inPlace = true)
    (hb : Building ctx first s.bytes h t) {key : Bytes} (hkey : ctx.keylen ≤ key.length) (fileId record : ℕ) :
    wp (indexV2BuildInsert key fileId record) s
      (fun _ s' => fileId < ctx.fileCount ∧ composite ctx.keylen key fileId record∉t.entries ∧ ∃ h' t',Building ctx first s'.bytes h' t' ∧
        t'.entries = t.entries.orderedInsert (· ≤ ·) (composite ctx.keylen key fileId record))
      (fun e s' => e = .io ∨ s'.bytes = s.bytes ∧ (e = .argument ∨ e = .duplicate)) := by
  have hl := hb.toLayout
  have hround := roundUp_eq hl.pageSize_pos hl.whole
  simp only [indexV2BuildInsert,wp_bind,wp_get,wp_ofOption,hb.readHeader,wp_ensure]
  split
  · rename_i hfile
    have hid : fileId < ctx.fileCount := by simpa using hfile
    simp only [hl.readPageSize,wp_modify,hround]
    have hctx : ({ keylen := ctx.keylen,fileCount := ctx.fileCount,pageSize := ctx.pageSize,inPlace := true } :
        Context) = ctx := by rw [← hin]
    rw [hctx]
    have ha : Allocating ctx first { s with nextOffset := s.bytes.length,freePages := [] } :=
      ⟨hl.whole,hl.first_le,hl.length_le,rfl,by simp,by simp⟩
    have hst : Stored ctx first { s with nextOffset := s.bytes.length,freePages := [] } h t :=
      ⟨hb.rooted.tree,fun p hp => ⟨(hb.rooted.pages p hp).1,(hb.rooted.pages p hp).2.1,(hb.rooted.pages p hp).2.2,
        by simp⟩⟩
    refine wp_mono (v2InsertNode_spec hl.fits (lt_of_lt_of_le (by omega) hl.first_ge) (length_composite fileId record hkey)
      (Nat.lt_succ_of_lt (hb.rooted.height_lt_length hl)) ha hst hb.rooted.sorted fun _ => hb.nodup) ?_ ?_
    · rintro r s1 ⟨hnot,hext,ts,hins⟩
      have hgrow := growRoot_spec hl.fits (by ext p; simp [notMem_rewritten_zero]) hext.allocating
        (fun _ h => absurd rfl h) hins
      have hsorted := pairwise_orderedInsert hb.rooted.sorted hnot
      have hh1 : slice s1.bytes 0 128 = slice s.bytes 0 128 := hext.header hl.first_ge hl.length_ge
      cases hs : r.split with
      | none =>
        simp only [growRoot,hs,wp_pure] at hgrow
        obtain ⟨-,-,h',t',hst',hroot,hentries,hnd,-⟩ := hgrow
        refine (wp_pure _).2 ⟨hid,hnot,h',t',{ hext.allocating.layout hl hh1 with
          fixed := (fixedFields_congr hh1 _).trans hb.fixed
          slots := ⟨(slot0_congr hh1).trans hb.slots.1,(slot1_congr hh1).trans hb.slots.2⟩
          buildRoot := ?_
          rooted := hst'.rooted hext.allocating (hentries ▸ hsorted)
          nodup := hnd hin },hentries⟩
        rw [← getU64_header (by omega),hh1,getU64_header (by omega),hb.buildRoot,← hins.in_place hin,hroot]
      | some split =>
        simp only [wp_bind]
        refine wp_mono hgrow ?_ fun e _ h => .inl h
        rintro ⟨root,crc⟩ s2 ⟨hext2,-,h',t',hst',hroot,hentries,hnd,-⟩
        have hlen1 : 128 ≤ s1.bytes.length := (hext.allocating.layout hl hh1).length_ge
        have hh2 : slice s2.bytes 0 128 = slice s.bytes 0 128 := (hext2.header hl.first_ge hlen1).trans hh1
        have hbuild := building_of_root (hext2.allocating.layout hl hh2) ((fixedFields_congr hh2 _).trans hb.fixed)
          ⟨(slot0_congr hh2).trans hb.slots.1,(slot1_congr hh2).trans hb.slots.2⟩
          (hst'.rooted hext2.allocating (hentries ▸ hsorted)) (hnd hin)
        simp only [wp_writeFullAt,wp_pure]
        split
        · obtain rfl : root = t'.off := hroot
          exact ⟨hid,hnot,h',t',hbuild,hentries⟩
        · exact .inl trivial
    · rintro e s1 (hio | ⟨hdup,rfl,-⟩)
      · exact .inl hio
      · exact .inr ⟨rfl,.inr hdup⟩
  · exact .inr ⟨trivial,.inl trivial⟩

/-! ## Finishing a build -/

theorem Rooted.finished (ht : Rooted ctx first f h t) : Rooted (finished ctx) first f h t :=
  ⟨ht.tree.frame fun p _ _ hn => (congrFun (v2LoadNode_congr rfl f) p).trans hn,ht.sorted,ht.pages⟩

theorem Layout.finished (hl : Layout ctx first f) : Layout (finished ctx) first f :=
  ⟨hl.keylen_eq,hl.fileCount_eq,hl.keylen_pos,hl.keylen_le,hl.fileCount_pos,hl.pageSize_eq,hl.pageSize_field,
    hl.first_eq,hl.whole,hl.first_le,hl.length_le⟩

theorem readNode_crc_lt {d : DiskNode} (h : indexV2ReadNode f o = some d) : d.crc < 2 ^ 32 := by
  obtain ⟨-,header,-,-,-,-,-,hcrc,hd⟩ := indexV2ReadNode_eq_some.1 h
  have hd' : d.crc = getU32 header 12 := by rw [hd]
  rw [hd',← hcrc]
  exact BitVec.isLt _

/-- Clearing the building flag and the build root. -/
theorem fixedFields_clear (hl : 128 ≤ f.length) (hfix : fixedFields f flagBuilding = true) :
    fixedFields (writeAt f 22 (List.replicate 10 0)) 0 = true := by
  have hu : ∀ off,off+2 ≤ 22 → getU16 (writeAt f 22 (List.replicate 10 0)) off = getU16 f off := fun off hoff =>
    getU16_writeAt (by omega) (by omega)
  have hzero : getU16 (writeAt f 22 (List.replicate 10 0)) 22 = 0 := by
    have := slice_writeAt_inside f 22 (List.replicate 10 0) 0 2 (by simp)
    rw [getU16,this]
    rfl
  simp only [fixedFields,Bool.and_eq_true,decide_eq_true_eq] at hfix ⊢
  obtain ⟨⟨⟨h1,h2⟩,h3⟩,-⟩ := hfix
  refine ⟨⟨⟨?_,(hu 8 (by omega)).trans h2⟩,(hu 10 (by omega)).trans h3⟩,hzero⟩
  rw [slice_writeAt_disjoint _ _ _ _ _ (by omega) (by omega),h1]

theorem indexV2BuildFinish_spec (hb : Building ctx first s.bytes h t) :
    wp indexV2BuildFinish s
      (fun root s' => root = t.off ∧ Index (finished ctx) first s'.bytes ∧ Rooted (finished ctx) first s'.bytes h t ∧
        ∀ r,slot0 s'.bytes = some r ∨ slot1 s'.bytes = some r → r.rootOffset = t.off)
      (fun e _ => e = .io) := by
  have hl := hb.toLayout
  obtain ⟨n,hn,-,-⟩ := hb.rooted.tree.load
  obtain ⟨d,hd,-⟩ := v2LoadNode_eq_some.1 hn
  obtain ⟨-,hge,hlt⟩ := hb.rooted.pages _ hb.rooted.tree.off_mem_pages
  have hfirst := hl.first_ge
  have hmax := hl.length_le
  simp only [int64Max] at hmax
  have hp : Slot.Publishable ⟨t.off,d.crc,1⟩ :=
    ⟨by simp only; omega,by simp only; omega,readNode_crc_lt hd,le_rfl,by simp only; omega⟩
  have hlen := length_slotBytes ⟨t.off,d.crc,1⟩
  obtain ⟨h00,h01,-,-⟩ := slots_writeAt_slot hl.length_ge hlen
  simp only [indexV2BuildFinish,wp_bind,wp_get,wp_ofOption,hb.readHeader,hd,wp_publishRoot hp,wp_writeFullAt,
    wp_pure,show slotOffset 1 = 32 from rfl]
  -- the file with the new slot, before the flag is cleared
  generalize hf1 : writeAt s.bytes 32 (slotBytes ⟨t.off,d.crc,1⟩) = f1 at h00 h01 ⊢
  have hl1 : Layout ctx first f1 := hf1 ▸ hl.writeAt (by omega)
  have hr1 : Rooted ctx first f1 h t := hf1 ▸ hb.rooted.header_write hl (by omega)
  have hfix1 : fixedFields f1 flagBuilding = true := by rw [← hf1,fixedFields_writeAt hl.length_ge (by omega),hb.fixed]
  split
  · have hl2 : Layout ctx first (writeAt f1 22 (List.replicate 10 0)) := hl1.writeAt ⟨le_rfl,by simp⟩
    have hr2 : Rooted ctx first (writeAt f1 22 (List.replicate 10 0)) h t := hr1.header_write hl1 (by simp)
    have hs : slot0 (writeAt f1 22 (List.replicate 10 0)) = slot0 f1 ∧
        slot1 (writeAt f1 22 (List.replicate 10 0)) = slot1 f1 := slots_writeAt_before hl1.length_ge (by simp)
    have hslot : ∀ r,slot0 (writeAt f1 22 (List.replicate 10 0)) = some r ∨
        slot1 (writeAt f1 22 (List.replicate 10 0)) = some r → r = ⟨t.off,d.crc,1⟩ := by
      intro r hr
      rw [hs.1,hs.2,h00,h01,hb.slots.2] at hr
      rcases hr with hr | hr
      · exact eq_of_readSlot hp hr
      · cases hr
    refine ⟨trivial,{ hl2.finished with
      fixed := fixedFields_clear hl1.length_ge hfix1
      parity := ⟨fun r hr => by rw [hslot r (.inl hr)]; rfl,fun r hr => ?_⟩
      rooted := fun r hr => ⟨h,t,by rw [hslot r hr],hr2.finished⟩ },hr2.finished,fun r hr => by rw [hslot r hr]⟩
    rw [hs.2,h01,hb.slots.2] at hr
    cases hr
  · trivial

end Dataman.IndexFile

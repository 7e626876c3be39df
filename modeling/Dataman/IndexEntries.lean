import Dataman.IndexRefinement

/-!
# The entries of reachable indexes

Every entry of a tree under a valid slot names a data file of the index.
-/

namespace Dataman.IndexFile
open ByteFiles FixedWidthFields FailState PageTree

variable {ctx : Context} {first : ℕ} {f : Bytes} {s s' : IndexState}

/-! ## The parts of an entry -/

theorem getU16_composite {keylen fileId : ℕ} {key : Bytes} (hk : key.length = keylen) (hf : fileId < 2 ^ 16)
    (record : ℕ) : getU16 (composite keylen key fileId record) keylen = fileId := by
  have htake : (key.take keylen).length = keylen := by simp [hk]
  have hfield := @slice_field (key.take keylen) (putU16 fileId) (putU64 record) 2 (by simp [putU16])
  rw [htake] at hfield
  rw [getU16,composite,List.append_assoc,hfield,putU16,getBE_putBE (by omega)]

/-- The entry is one of a data file of the index. -/
def FilesIn (ctx : Context) (es : List Bytes) : Prop := ∀ x∈es,getU16 x ctx.keylen < ctx.fileCount

theorem FilesIn.change {es : List Bytes} {r : Request} (h : FilesIn ctx es) (hfit : r.composite.Fits ctx.keylen)
    (hid : r.composite.fileId < ctx.fileCount) : FilesIn ctx (r.change ctx.keylen es) := by
  intro x hx
  cases r with
  | insert c =>
    rcases (List.mem_orderedInsert _).1 hx with rfl | hx
    · exact (getU16_composite hfit.key_length hfit.fileId_lt _).trans_lt hid
    · exact h x hx
  | remove c => exact h x (List.mem_of_mem_erase hx)

/-! ## Trees at one page -/

theorem Rooted.entries_eq {h h' : ℕ} {t t' : Summary Bytes} (hl : Layout ctx first f) (ht : Rooted ctx first f h t)
    (ht' : Rooted ctx first f h' t') (ho : t.off = t'.off) : t.entries = t'.entries := by
  have h1 := inorder_eq (Nat.lt_succ_of_lt (ht.height_lt_length hl)) ht.tree
  have h2 := inorder_eq (Nat.lt_succ_of_lt (ht'.height_lt_length hl)) ht'.tree
  rw [ho] at h1
  exact Option.some.inj (h1.symm.trans h2)

/-- All trees under the valid slots of an index have their data files. -/
def SlotFiles (ctx : Context) (first : ℕ) (f : Bytes) : Prop :=
  ∀ r,slot0 f = some r ∨ slot1 f = some r → ∃ h t,t.off = r.rootOffset ∧ Rooted ctx first f h t ∧
    FilesIn ctx t.entries

theorem SlotFiles.current {hd : Header} {h : ℕ} {t : Summary Bytes} (hs : SlotFiles ctx first f)
    (hi : Index ctx first f) (hc : Current ctx first f hd h t) : FilesIn ctx t.entries := by
  obtain ⟨-,hslot,-⟩ := hi.current hc.header
  obtain ⟨h',t',ho,ht,hf⟩ := hs hd.root hslot
  rw [hc.rooted.entries_eq hi.toLayout ht (hc.off.trans ho.symm)]
  exact hf

theorem SlotFiles.beside {ws : List (ℕ × Bytes)} (hs : SlotFiles ctx first f) (hl : Layout ctx first f)
    (hw : Beside ctx first f ws) : SlotFiles ctx first (applyWrites f ws) := by
  intro r hr
  have hh := hw.header hl
  rw [slot0_congr hh,slot1_congr hh] at hr
  obtain ⟨h,t,ho,ht,hf⟩ := hs r hr
  exact ⟨h,t,ho,hw.rooted hl hr ho ht,hf⟩

theorem Committed.slotFiles {hd : Header} {h : ℕ} {t : Summary Bytes} {ws : List (ℕ × Bytes)} {root : Slot}
    (hi : Index ctx first s.bytes) (hs : SlotFiles ctx first s.bytes) (hc : Committed ctx first s s' hd h t ws root)
    (hf : FilesIn ctx t.entries) : SlotFiles ctx first s'.bytes := by
  obtain ⟨s1,hw,ht,hbytes,-⟩ := hc.written
  have hlen := length_slotBytes root
  have hcases := slotOffset_cases root.generation
  have hkeep : ∀ {h t},Rooted ctx first s1.bytes h t → Rooted ctx first s'.bytes h t := by
    intro h t ht
    rw [hbytes]
    exact ht.header_write hw.layout (by omega)
  have hs1 : SlotFiles ctx first s1.bytes := by
    rw [hw.bytes_eq]
    exact hs.beside hi.toLayout hw.beside
  intro r hr
  rw [hbytes] at hr
  rcases slots_of_publish hw.layout.length_ge hc.publishable hr with rfl | hr
  · exact ⟨h,t,hc.off,hkeep ht,hf⟩
  · obtain ⟨h',t',ho,ht',hf'⟩ := hs1 r hr
    exact ⟨h',t',ho,hkeep ht',hf'⟩

theorem Rejected.slotFiles {fileId : ℕ} {entry e : Fault} {refused : List Bytes → Prop} (hi : Index ctx first s.bytes)
    (hs : SlotFiles ctx first s.bytes) (hr : Rejected ctx first s s' fileId entry refused e) (hio : e≠.io) :
    SlotFiles ctx first s'.bytes := by
  cases hr with
  | io => exact absurd rfl hio
  | publish _ hab =>
    obtain ⟨ws,hw⟩ := hab.written
    rw [hw.bytes_eq]
    exact hs.beside hi.toLayout hw.beside
  | header hb => rwa [hb]
  | argument hb => rwa [hb]
  | entry hb => rwa [hb]

/-! ## Reachable files -/

inductive Filed (keylen : ℕ) (fileNames : List Bytes) (f : Bytes) : Prop
  | index {first : ℕ} (h : Index (newContext keylen fileNames false) first f)
      (files : SlotFiles (newContext keylen fileNames false) first f)
  | building {first h : ℕ} {t : Summary Bytes} (h : Building (newContext keylen fileNames true) first f h t)
      (files : FilesIn (newContext keylen fileNames true) t.entries)

theorem Call.run_filed {keylen : ℕ} {fileNames : List Bytes} {c : Call} {s : IndexState}
    (hg : Filed keylen fileNames s.bytes) (hfit : c.Fits keylen) :
    wp c.run s (fun _ s' => Filed keylen fileNames s'.bytes) (fun e s' => e≠.io → Filed keylen fileNames s'.bytes) := by
  cases hg with
  | @index first hi hs =>
    have hbuild := readBuildHeader_index hi.fixed
    cases c with
    | request r =>
      apply wp_mono (Request.run_spec rfl hi hfit)
      · intro _ s' h
        obtain ⟨hid,hd,h,t,hcur,-,h',t',ws,root,hchange,hcom⟩ := h
        refine .index (hcom.index hi) (hcom.slotFiles hi hs ?_)
        rw [hchange]
        exact (hs.current hi hcur).change hfit hid
      · intro e s' hrej hio
        exact .index (hrej.index hi hio) (hrej.slotFiles hi hs hio)
    | buildInsert c => simp [Call.run,indexV2BuildInsert,hbuild,Filed.index hi hs]
    | buildFinish => simp [Call.run,indexV2BuildFinish,hbuild,Filed.index hi hs]
  | @building first h t hb hs =>
    cases c with
    | request r =>
      apply wp_mono (r.run_unreadable (readHeader_building hb.fixed)) (fun _ _ h => h.elim)
      intro e s' h _
      obtain ⟨rfl,rfl⟩ := h
      exact .building hb hs
    | buildInsert c =>
      simp only [Call.run,wp_bind,wp_pure]
      apply wp_mono (indexV2BuildInsert_spec rfl hb (hfit.key_length.ge) c.fileId c.record)
      · intro _ s' h
        obtain ⟨hid,-,h',t',hb',hentries⟩ := h
        refine .building hb' ?_
        rw [hentries]
        exact FilesIn.change (r := .insert c) hs hfit hid
      · intro e s' h hio
        obtain rfl | ⟨hbytes,-⟩ := h
        · exact absurd rfl hio
        · rw [hbytes]
          exact .building hb hs
    | buildFinish =>
      simp only [Call.run,wp_bind,wp_pure]
      apply wp_mono (indexV2BuildFinish_spec hb)
      · intro _ s' h
        obtain ⟨-,hi,ht,hslot⟩ := h
        exact .index hi fun r hr => ⟨_,t,(hslot r hr).symm,ht,hs⟩
      · intro e s' h hio
        exact absurd h hio

theorem filed_of_reachable {keylen : ℕ} {fileNames : List Bytes} (hcount : fileNames.length < 2 ^ 16)
    (hr : Reachable keylen fileNames f) : Filed keylen fileNames f := by
  induction hr with
  | @created root s h =>
    have hspec := @indexV2CreateEmpty_spec keylen fileNames { bytes := [] } rfl hcount
    rw [wp_of_ok h] at hspec
    exact .index hspec.toIndex fun r hr =>
      ⟨0,_,(hspec.first_generation r hr).symm,hspec.leaf,by simp [FilesIn,Summary.leaf]⟩
  | @begun root s h =>
    have hspec := @indexV2BuildBegin_spec keylen fileNames { bytes := [] } rfl hcount
    rw [wp_of_ok h] at hspec
    exact .building hspec (by simp [FilesIn,Summary.leaf])
  | @called f c out s _ hfit h hio ih =>
    have hspec := Call.run_filed (s := { bytes := f }) ih hfit
    cases out with
    | ok _ => exact (wp_of_ok h).1 hspec
    | error e => exact (wp_of_error h).1 hspec fun he => hio (he ▸ rfl)

end Dataman.IndexFile

import Dataman.IndexFile

/-! Publication of a root slot and what the header reader then selects. The reader takes
the stored checksum zero as an empty slot, so a slot whose checksum happens to be zero is
written and acknowledged but never selected. -/
namespace Dataman.IndexFile
open ByteFiles FixedWidthFields Checksum FailState

theorem length_headerBytes (keylen fileCount namesLength pageSize flags : ℕ) :
    (headerBytes keylen fileCount namesLength pageSize flags).length = 128 := by
  simp [headerBytes,magic,putU16,putU32]

/-- The values that fit their fields and pass the publication check. -/
structure Slot.Publishable (s : Slot) : Prop where
  root_ge : 128 ≤ s.rootOffset
  root_lt : s.rootOffset < 2 ^ 64
  crc_lt : s.rootCrc < 2 ^ 32
  generation_pos : 1 ≤ s.generation
  generation_lt : s.generation < 2 ^ 64

theorem length_slotBody (s : Slot) : (slotBody s).length = 20 := by simp [slotBody,putU64,putU32]

@[simp] theorem length_slotBytes (s : Slot) : (slotBytes s).length = 32 := by
  simp [slotBytes,length_slotBody,putU32]

variable {s : Slot}

/-- A slot is read back unless its checksum is zero. -/
theorem readSlot_slotBytes (h : s.Publishable) :
    readSlot (slotBytes s) = if indexV2Crc32 (slotBody s) = 0#32 then none else some s := by
  have hcrc := (indexV2Crc32 (slotBody s)).isLt
  have hb := length_slotBody s
  have h20 : slice (slotBytes s) 0 20 = slotBody s := by
    rw [slotBytes,List.append_assoc,slice_append_exact _ _ _ hb]
  have hstored : getU32 (slotBytes s) 20 = (indexV2Crc32 (slotBody s)).toNat := by
    rw [getU32,slotBytes,List.append_assoc,slice_append_right _ _ _ _ (by omega),hb,
      slice_append_exact _ _ _ (by simp [putU32]),putU32,getBE_putBE (by omega)]
  have hgen : getU64 (slotBytes s) 0 = s.generation := by
    simp only [getU64,slotBytes,slotBody,putU64,List.append_assoc]
    rw [slice_append_exact _ _ _ (by simp),getBE_putBE (by have := h.generation_lt; omega)]
  have hroot : getU64 (slotBytes s) 8 = s.rootOffset := by
    simp only [getU64,slotBytes,slotBody,putU64,List.append_assoc]
    rw [slice_append_right _ _ _ _ (by simp),length_putBE,slice_append_exact _ _ _ (by simp),
      getBE_putBE (by have := h.root_lt; omega)]
  have hrcrc : getU32 (slotBytes s) 16 = s.rootCrc := by
    simp only [getU32,slotBytes,slotBody,putU64,putU32,List.append_assoc]
    rw [slice_append_right _ _ _ _ (by simp),length_putBE,slice_append_right _ _ _ _ (by simp),
      length_putBE,slice_append_exact _ _ _ (by simp),getBE_putBE (by have := h.crc_lt; omega)]
  have hz : (indexV2Crc32 (slotBody s)).toNat = 0 ↔ indexV2Crc32 (slotBody s) = 0#32 := by
    rw [← BitVec.toNat_inj]
    rfl
  have hg := h.generation_pos
  have hr := h.root_ge
  simp only [readSlot,hstored,h20,hgen,hroot,hrcrc,hz]
  by_cases hc : indexV2Crc32 (slotBody s) = 0#32
  · simp [hc]
  · simp [hc,hr,show s.generation≠0 by omega]

/-! ## The header of a file -/

variable {f : Bytes} {off : ℕ}

theorem getU16_header (h : off+2 ≤ 128) :
    getU16 (slice f 0 128) off = getU16 f off := by
  rw [getU16,getU16,slice_slice _ _ _ _ _ h,Nat.zero_add]

theorem getU64_header (h : off+8 ≤ 128) :
    getU64 (slice f 0 128) off = getU64 f off := by
  rw [getU64,getU64,slice_slice _ _ _ _ _ h,Nat.zero_add]

theorem fixedFields_header (f : Bytes) (flags : ℕ) :
    fixedFields (slice f 0 128) flags = fixedFields f flags := by
  simp only [fixedFields,getU16_header (show 8+2 ≤ 128 by omega),slice_slice _ 0 128 0 7 (by omega),
    getU16_header (show 10+2 ≤ 128 by omega),getU16_header (show 22+2 ≤ 128 by omega),Nat.zero_add]

theorem slot0_header (f : Bytes) : slot0 (slice f 0 128) = slot0 f := by
  rw [slot0,slot0,slice_slice _ _ _ _ _ (by omega),Nat.zero_add]

theorem slot1_header (f : Bytes) : slot1 (slice f 0 128) = slot1 f := by
  rw [slot1,slot1,slice_slice _ _ _ _ _ (by omega),Nat.zero_add]

/-- The part of the header that publication leaves alone, of a finished index. -/
structure Published (f : Bytes) : Prop where
  length : 128 ≤ f.length
  fixed : fixedFields f 0 = true
  keylen_pos : 0 < getU16 f 12
  fileCount_pos : 0 < getU16 f 14

theorem readHeader_eq (h : Published f) :
    indexV2ReadHeader f =
      (selectSlot (slot0 f) (slot1 f)).map (fun root => ⟨getU16 f 12,getU16 f 14,root⟩) := by
  have hk := h.keylen_pos
  have hc := h.fileCount_pos
  rw [indexV2ReadHeader,readAt_of_le (show 0+128 ≤ f.length by have := h.length; omega)]
  simp only [Option.bind_eq_bind,Option.bind_some,fixedFields_header,h.fixed,slot0_header,slot1_header,
    getU16_header (show 12+2 ≤ 128 by omega),getU16_header (show 14+2 ≤ 128 by omega)]
  cases selectSlot (slot0 f) (slot1 f) <;> simp [hk,hc,guard_eq_ite]

/-- Whoever reads a header has found a finished index. -/
theorem published_of_readHeader {hd : Header} (h : indexV2ReadHeader f = some hd) :
    Published f := by
  unfold indexV2ReadHeader at h
  cases hr : readAt f 0 128 with
  | none => simp [hr] at h
  | some header =>
    obtain ⟨hl,rfl⟩ := readAt_eq_some.mp hr
    simp only [hr,Option.bind_eq_bind,Option.bind_some,fixedFields_header,slot0_header,slot1_header,
      getU16_header (show 12+2 ≤ 128 by omega),getU16_header (show 14+2 ≤ 128 by omega)] at h
    by_cases hx : fixedFields f 0 = true
    · cases hs : selectSlot (slot0 f) (slot1 f) with
      | none => simp [hx,hs,guard_eq_ite] at h
      | some root =>
        by_cases hkc : 0 < getU16 f 12 ∧ 0 < getU16 f 14
        · exact ⟨by omega,hx,hkc.1,hkc.2⟩
        · simp [hx,hs,guard_eq_ite,hkc] at h
    · simp [hx,guard_eq_ite] at h

/-- The slot a generation does not use. -/
theorem slotOffset_cases (g : ℕ) : slotOffset g = 32 ∧ g % 2 = 1 ∨ slotOffset g = 64 ∧ g % 2 = 0 := by
  unfold slotOffset
  split <;> omega

variable {data : Bytes} {o : ℕ}

/-- Fields outside `[off, off + 32)` survive a write inside that range. -/
theorem getU16_writeAt (hd : off+2 ≤ o ∨ o+data.length ≤ off)
    (hf : off+2 ≤ f.length) : getU16 (writeAt f o data) off = getU16 f off := by
  rw [getU16,getU16,slice_writeAt_disjoint _ _ _ _ _ hd hf]

/-- A write behind the flags keeps the fixed fields. -/
theorem fixedFields_writeAt (hl : 128 ≤ f.length) (ho : 24 ≤ o) (flags : ℕ) :
    fixedFields (writeAt f o data) flags = fixedFields f flags := by
  have hu : ∀ off,off+2 ≤ 24 → getU16 (writeAt f o data) off = getU16 f off := fun off hoff =>
    getU16_writeAt (by omega) (by omega)
  simp only [fixedFields,slice_writeAt_disjoint f o data 0 7 (by omega) (by omega),hu 8 (by omega),
    hu 10 (by omega),hu 22 (by omega)]

theorem Published.writeAt (h : Published f) (ho : 32 ≤ o) :
    Published (ByteFiles.writeAt f o data) := by
  have hl := h.length
  have hle := length_le_writeAt f o data
  refine ⟨by omega,?_,?_,?_⟩
  · rw [fixedFields_writeAt hl (by omega),h.fixed]
  · rw [getU16_writeAt (by omega) (by omega)]
    exact h.keylen_pos
  · rw [getU16_writeAt (by omega) (by omega)]
    exact h.fileCount_pos

/-- Writing a slot: the new slot is decoded from its bytes and the other is untouched. -/
theorem slots_writeAt_slot (hl : 128 ≤ f.length) (hd : data.length = 32) :
    slot0 (writeAt f 32 data) = readSlot data ∧ slot1 (writeAt f 32 data) = slot1 f ∧
      slot0 (writeAt f 64 data) = slot0 f ∧ slot1 (writeAt f 64 data) = readSlot data := by
  have hs : ∀ o,slice (writeAt f o data) o 32 = data := fun o => by
    have := slice_writeAt_self f o data
    rwa [hd] at this
  refine ⟨by rw [slot0,hs],?_,?_,by rw [slot1,hs]⟩
  · rw [slot1,slot1,slice_writeAt_disjoint _ _ _ _ _ (by omega) (by omega)]
  · rw [slot0,slot0,slice_writeAt_disjoint _ _ _ _ _ (by omega) (by omega)]

/-! ## Publication -/

/-- The file after a publication that the range and argument checks let through. -/
theorem publishRoot_eq (h : s.Publishable) (st : IndexState) :
    publishRoot s st = (.ok (),{ st with
      bytes := writeAt st.bytes (slotOffset s.generation) (slotBytes s)
      writes := st.writes++[(slotOffset s.generation,slotBytes s)] }) := by
  have hg := h.generation_pos
  have hd : decide (128 ≤ s.rootOffset ∧ s.generation≠0) = true := by
    simp [h.root_ge,show s.generation≠0 by omega]
  have hb : slotOffset s.generation+(slotBytes s).length ≤ int64Max := by
    rw [length_slotBytes,int64Max]
    have := slotOffset_cases s.generation
    omega
  rw [publishRoot,run_bind_ok (run_ensure hd _ _),writeFullAt,if_pos hb]

/-- The parity rule: odd generations in slot 0, even ones in slot 1. -/
structure SlotParity (f : Bytes) : Prop where
  odd : ∀ s,slot0 f = some s → s.generation % 2 = 1
  even : ∀ s,slot1 f = some s → s.generation % 2 = 0

/-- A slot that becomes valid with the largest generation is the one selected. -/
theorem selectSlot_newest {a b : Option Slot}
    (h : a = some s ∧ (∀ t,b = some t → t.generation < s.generation) ∨
      b = some s ∧ (∀ t,a = some t → t.generation < s.generation)) : selectSlot a b = some s := by
  rcases h with ⟨rfl,hb⟩ | ⟨rfl,ha⟩
  · cases b with
    | none => rfl
    | some t => simp [selectSlot,hb t rfl]
  · cases a with
    | none => rfl
    | some t =>
      have := ha t rfl
      simp [selectSlot]
      omega

/-- **Publication is observed exactly when the slot's checksum is not zero.** The parity of
the older slots plays no part: the new generation is larger than theirs. -/
theorem publishRoot_observed_iff (st : IndexState) (hf : Published st.bytes) (s : Slot) (hs : s.Publishable)
    (hnew : ∀ t,slot0 st.bytes = some t ∨ slot1 st.bytes = some t → t.generation < s.generation) :
    ((publishRoot s st).1 = .ok () →
        indexV2ReadHeader (publishRoot s st).2.bytes =
          some ⟨getU16 st.bytes 12,getU16 st.bytes 14,s⟩) ↔
      indexV2Crc32 (slotBody s)≠0#32 := by
  have hl := hf.length
  have hread := readSlot_slotBytes hs
  obtain ⟨h00,h01,h10,h11⟩ := slots_writeAt_slot hl (length_slotBytes s)
  rw [publishRoot_eq hs]
  simp only [forall_const]
  have hoff := slotOffset_cases s.generation
  have hpub : Published (writeAt st.bytes (slotOffset s.generation) (slotBytes s)) :=
    hf.writeAt (by omega)
  rw [readHeader_eq hpub,getU16_writeAt (by omega) (by omega),getU16_writeAt (by omega) (by omega)]
  by_cases hc : indexV2Crc32 (slotBody s) = 0#32
  · -- the new slot reads as empty, and no older slot carries the new generation
    simp only [hc,ne_eq,not_true_eq_false,iff_false]
    rw [if_pos hc] at hread
    intro hsel
    rw [Option.map_eq_some_iff] at hsel
    obtain ⟨root,hroot,heq⟩ := hsel
    obtain rfl : root = s := by simpa using heq
    rcases hoff with ⟨ho,-⟩ | ⟨ho,-⟩
    · rw [ho,h00,h01,hread] at hroot
      cases h1 : slot1 st.bytes with
      | none => simp [h1,selectSlot] at hroot
      | some t =>
        have := hnew t (.inr h1)
        simp [h1,selectSlot] at hroot
        simp [hroot] at this
    · rw [ho,h10,h11,hread] at hroot
      cases h0 : slot0 st.bytes with
      | none => simp [h0,selectSlot] at hroot
      | some t =>
        have := hnew t (.inl h0)
        simp [h0,selectSlot] at hroot
        simp [hroot] at this
  · simp only [ne_eq,hc,not_false_eq_true,iff_true]
    rw [if_neg hc] at hread
    rw [selectSlot_newest (s := s)]
    · rfl
    · rcases hoff with ⟨ho,-⟩ | ⟨ho,-⟩
      · rw [ho,h00,h01,hread]
        exact .inl ⟨rfl,fun t ht => hnew t (.inr ht)⟩
      · rw [ho,h10,h11,hread]
        exact .inr ⟨rfl,fun t ht => hnew t (.inl ht)⟩

/-- A new root published over an empty header is selected. -/
theorem publishRoot_observed_iff_fresh :
    let st : IndexState := { bytes := headerBytes 4 1 0 384 0 }
    ((publishRoot ⟨256,7,1⟩ st).1 = .ok () →
        indexV2ReadHeader (publishRoot ⟨256,7,1⟩ st).2.bytes = some ⟨4,1,⟨256,7,1⟩⟩) ↔
      indexV2Crc32 (slotBody ⟨256,7,1⟩)≠0#32 :=
  publishRoot_observed_iff { bytes := headerBytes 4 1 0 384 0 }
    ⟨by decide +kernel,by decide +kernel,by decide +kernel,by decide +kernel⟩ ⟨256,7,1⟩
    ⟨by decide,by decide,by decide,by decide,by decide⟩
    (by
      intro t ht
      have h0 : slot0 (headerBytes 4 1 0 384 0) = none := by decide +kernel
      have h1 : slot1 (headerBytes 4 1 0 384 0) = none := by decide +kernel
      simp [h0,h1] at ht)

/-- Not every acknowledged publication is observed: the root at 256 with checksum
3395551887 in generation 1 has a slot whose own checksum is zero. -/
theorem publishRoot_zeroCrc_ignored :
    ¬ ∀ (st : IndexState) (s : Slot),Published st.bytes → SlotParity st.bytes → s.Publishable →
      (∀ t,slot0 st.bytes = some t ∨ slot1 st.bytes = some t → t.generation < s.generation) →
      (publishRoot s st).1 = .ok () →
      indexV2ReadHeader (publishRoot s st).2.bytes =
        some ⟨getU16 st.bytes 12,getU16 st.bytes 14,s⟩ := by
  intro h
  have h0 : slot0 (headerBytes 4 1 0 384 0) = none := by decide +kernel
  have h1 : slot1 (headerBytes 4 1 0 384 0) = none := by decide +kernel
  have hread := h { bytes := headerBytes 4 1 0 384 0 } ⟨256,3395551887,1⟩
    ⟨by decide +kernel,by decide +kernel,by decide +kernel,by decide +kernel⟩
    ⟨fun s hs => by simp [h0] at hs,fun s hs => by simp [h1] at hs⟩
    ⟨by decide,by decide,by decide,by decide,by decide⟩
    (fun t ht => by simp [h0,h1] at ht) (by decide +kernel)
  have hnone : indexV2ReadHeader (publishRoot ⟨256,3395551887,1⟩
      { bytes := headerBytes 4 1 0 384 0 }).2.bytes = none := by decide +kernel
  simp [hnone] at hread

end Dataman.IndexFile

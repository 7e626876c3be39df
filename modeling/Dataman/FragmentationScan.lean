import Dataman.InitialRecords
import Dataman.RebuildChain

/-!
# The scan for deleted records (`check_it.c`)

The records of a data file follow each other without a frame, and the scan goes from one to the next by
the length that the first byte of each selects. This byte is a `char` with a sign, so the mask does not
take the mark of a deleted record away.
-/

namespace Dataman.CheckIt
open ByteFiles FixedWidthFields Directories FailState
open DataFile (Record Chained Tiled)
open Mkdf (FormatDesc DescFailure getDatafileDesc)
open Rebuild (Source Obtained)

/-! ## The loop -/

/-- `DELETED` -/
def deletedMask : BitVec 32 := 128#32

/-- A `char` as an `int`. -/
def promote (chk : UInt8) : BitVec 32 := chk.toBitVec.signExtend 32

def isDeleted (chk : UInt8) : Bool := promote chk &&& deletedMask≠0#32

/-- The place in `record_desc`. -/
def recordIndex (chk : UInt8) : ℤ :=
  if isDeleted chk then ((promote chk &&& ~~~deletedMask) - 1#32).toInt else (promote chk - 1#32).toInt

def rfLenAt (formats : List FormatDesc) (index : ℤ) : Option ℤ :=
  if index < 0 then none else formats[index.toNat]?.map FormatDesc.rfLen

/-- A seek before the beginning of the file fails and moves nothing. -/
def seekBy (pos : ℕ) (len : ℤ) : ℕ := if pos+len < 0 then pos else (pos+len).toNat

/-- A flag byte that was read, what it was taken for, and the length of its record. -/
structure Visit where
  off : ℕ
  deleted : Bool
  len : ℤ
deriving DecidableEq,Repr

inductive Ending
  | eof (pos : ℕ)
  /-- A length from outside of `record_desc`. -/
  | outside (index : ℤ)
deriving DecidableEq,Repr

structure Scan where
  visits : List Visit
  ending : Option Ending
deriving DecidableEq,Repr

def Scan.after (v : Visit) (s : Scan) : Scan := ⟨v::s.visits,s.ending⟩

/-- So many turns of the loop. -/
def scan (formats : List FormatDesc) (f : Bytes) : ℕ → ℕ → Scan
  | 0,_ => ⟨[],none⟩
  | fuel+1,pos =>
    match f[pos]? with
    | none => ⟨[],some (.eof pos)⟩
    | some chk =>
      match rfLenAt formats (recordIndex chk) with
      | none => ⟨[],some (.outside (recordIndex chk))⟩
      | some len => (scan formats f fuel (seekBy (pos+1) (len+16))).after ⟨pos,isDeleted chk,len⟩

/-- The description is read first, and the two pointers behind it are left out. -/
def checkIt (fuel : ℕ) (f : Bytes) : Except DescFailure Scan := do
  let desc ← getDatafileDesc f
  return scan desc.recordDesc f fuel (desc.headerLen.toNat+2+16)

/-! ## The records in their place -/

variable {fmt o : ℕ} {formats : List FormatDesc} {r : Record}

section Records
variable {src : Source} {f : Bytes} {recs : List Record}

/-- A record with the mark. -/
def Deleted (f : Bytes) (r : Record) : Prop := f[r.off]? = some (UInt8.ofNat (r.fmt+128))

instance decidableDeleted (f : Bytes) (r : Record) : Decidable (Deleted f r) :=
  inferInstanceAs (Decidable (f[r.off]? = some (UInt8.ofNat (r.fmt+128))))

/-- All records, live and deleted, from the end of the header to the end of the file. -/
structure Physical (src : Source) (f : Bytes) (recs : List Record) : Prop where
  tiled : Tiled src.files src.start recs f.length
  format : ∀ r∈recs,1 ≤ r.fmt ∧ r.fmt ≤ src.files.formats.length
  flag : ∀ r∈recs,f[r.off]? = some (UInt8.ofNat r.fmt) ∨ Deleted f r

/-- What the scan is to see of a record. -/
def visit (src : Source) (f : Bytes) (r : Record) : Visit :=
  ⟨r.off,f.getD r.off 0 &&& 128≠0,src.files.dataLength r⟩

/-- The scan sees every record once, in the order of the file, and ends at its end. -/
def ScansAll (src : Source) (f : Bytes) (recs : List Record) : Prop :=
  ∃ fuel,checkIt fuel f = .ok ⟨recs.map (visit src f),some (.eof f.length)⟩

/-- The lengths that the scan finds are those of the formats. -/
def Known (src : Source) (formats : List FormatDesc) : Prop :=
  ∀ fmt : ℕ,1 ≤ fmt → fmt ≤ src.files.formats.length → rfLenAt formats (fmt - 1 : ℤ) = some ((src.files.format fmt).rfLen : ℤ)

theorem live_flag (h : fmt ≤ 63) :
    isDeleted (UInt8.ofNat fmt) = false ∧ recordIndex (UInt8.ofNat fmt) = fmt - 1 ∧ UInt8.ofNat fmt &&& 128 = 0 := by
  have hall : ∀ n : Fin 64,isDeleted (UInt8.ofNat n) = false ∧ recordIndex (UInt8.ofNat n) = n - 1 ∧ UInt8.ofNat n &&& 128 = 0 := by
    decide +kernel
  exact hall ⟨fmt,by omega⟩

/-- The sign of the byte stays when the mark is taken away. -/
theorem deleted_flag (h : fmt ≤ 63) : recordIndex (UInt8.ofNat (fmt+128)) = fmt - 257 := by
  have hall : ∀ n : Fin 64,recordIndex (UInt8.ofNat (n+128)) = n - 257 := by decide +kernel
  exact hall ⟨fmt,by omega⟩

/-- One turn at a live record. -/
theorem scan_live (hk : Known src formats) (hfmt : 1 ≤ r.fmt ∧ r.fmt ≤ src.files.formats.length)
    (hflag : f[r.off]? = some (UInt8.ofNat r.fmt)) (fuel : ℕ) :
    scan formats f (fuel+1) r.off = (scan formats f fuel (r.off+17+src.files.dataLength r)).after (visit src f r) := by
  obtain ⟨hdel,hindex,hbit⟩ := live_flag (hfmt.2.trans src.files.formats_le)
  have hvisit : visit src f r = ⟨r.off,false,src.files.dataLength r⟩ := by
    rw [visit,List.getD_eq_getElem?_getD,hflag,Option.getD_some,hbit]
    rfl
  have hseek : seekBy (r.off+1) ((src.files.dataLength r : ℤ)+16) = r.off+17+src.files.dataLength r := by
    rw [seekBy,if_neg (by omega)]
    omega
  rw [scan,hflag]
  dsimp only
  rw [hindex,hk r.fmt hfmt.1 hfmt.2]
  dsimp only
  rw [hdel,hvisit,← DataFile.Files.dataLength,hseek]

/-- At a deleted record the scan leaves `record_desc`. -/
theorem scan_deleted (formats : List FormatDesc) (hfmt : r.fmt ≤ 63) (hflag : Deleted f r) (fuel : ℕ) :
    scan formats f (fuel+1) r.off = ⟨[],some (.outside (r.fmt - 257))⟩ := by
  rw [scan,hflag]
  dsimp only
  rw [deleted_flag hfmt,rfLenAt,if_pos (by omega)]

theorem scan_all (hk : Known src formats) (ht : Tiled src.files o recs f.length)
    (hfmt : ∀ r∈recs,1 ≤ r.fmt ∧ r.fmt ≤ src.files.formats.length) (hlive : ∀ r∈recs,f[r.off]? = some (UInt8.ofNat r.fmt)) :
    scan formats f (recs.length+1) o = ⟨recs.map (visit src f),some (.eof f.length)⟩ := by
  induction recs generalizing o with
  | nil =>
    obtain rfl : o = f.length := ht
    rw [scan,List.getElem?_eq_none le_rfl]
    rfl
  | cons r recs ih =>
    obtain ⟨rfl,hrest⟩ := ht
    rw [List.length_cons,scan_live hk (hfmt r List.mem_cons_self) (hlive r List.mem_cons_self),
      ih hrest (fun x hx => hfmt x (List.mem_cons_of_mem _ hx)) fun x hx => hlive x (List.mem_cons_of_mem _ hx)]
    rfl

/-- A scan that comes to the end has met no deleted record. -/
theorem live_of_scan (hk : Known src formats) {fuel : ℕ} (ht : Tiled src.files o recs f.length)
    (hfmt : ∀ r∈recs,1 ≤ r.fmt ∧ r.fmt ≤ src.files.formats.length)
    (hflag : ∀ r∈recs,f[r.off]? = some (UInt8.ofNat r.fmt) ∨ Deleted f r)
    (hscan : scan formats f fuel o = ⟨recs.map (visit src f),some (.eof f.length)⟩) : ∀ r∈recs,f[r.off]? = some (UInt8.ofNat r.fmt) := by
  induction recs generalizing o fuel with
  | nil => simp
  | cons r recs ih =>
    obtain ⟨rfl,hrest⟩ := ht
    have hfmt' := hfmt r List.mem_cons_self
    cases fuel with
    | zero =>
      have hending := congrArg Scan.ending hscan
      cases hending
    | succ fuel =>
      rcases hflag r List.mem_cons_self with hlive | hdel
      · rw [scan_live hk hfmt' hlive] at hscan
        obtain ⟨hvisits,hending⟩ := Scan.mk.inj hscan
        have htail : scan formats f fuel (r.off+17+src.files.dataLength r) = ⟨recs.map (visit src f),some (.eof f.length)⟩ :=
          Scan.mk.injEq .. ▸ ⟨(List.cons.inj hvisits).2,hending⟩
        intro x hx
        rcases List.mem_cons.1 hx with rfl | hx
        · exact hlive
        · exact ih hrest (fun y hy => hfmt y (List.mem_cons_of_mem _ hy)) (fun y hy => hflag y (List.mem_cons_of_mem _ hy)) htail x hx
      · rw [scan_deleted formats (hfmt'.2.trans src.files.formats_le) hdel] at hscan
        cases congrArg Scan.ending hscan

end Records

/-! ## The files of `mkdf` -/

variable {desc : Mkdf.FileDesc}

section Files
variable {src : Source} {dir : Dir Blobs.Text Bytes} {f : Bytes}

/-- A file that `mkdf` makes from no lines. Nothing can be inserted at a record of it, because it has none. -/
def Fresh (src : Source) (f : Bytes) : Prop :=
  ∃ formats,Mkdf.Describes src.files formats ∧ src.desc = Mkdf.descBytes formats ∧ Mkdf.mkdf formats [] = .ok f

/-- The description that all files of this source begin with. -/
theorem obtained_formats (h : Obtained src f dir) :
    ∃ formats,Mkdf.Describes src.files formats ∧ src.desc = Mkdf.descBytes formats ∧ Mkdf.Answers formats ∧ Mkdf.flen formats < 2 ^ 15 := by
  induction h with
  | mkdf described desc made some_line removed =>
    have hroom := (Mkdf.mkdf_ok made).1
    rw [Mkdf.maxline] at hroom
    exact ⟨_,described,desc,Mkdf.mkdf_answers described.fitting made,by omega⟩
  | edited old q chained known answer io ih => exact ih
  | rebuilt old done fits ih => exact ih

theorem known_fileDesc {formats : List (List ℕ)} (hd : Mkdf.Describes src.files formats) :
    Known src (Mkdf.fileDesc Mkdf.shortSum formats).recordDesc := by
  intro fmt hpos hle
  rw [hd.length_eq] at hle
  have hnat : (fmt - 1 : ℤ).toNat = fmt - 1 := by omega
  have hget : formats[fmt - 1]? = some (formats.getD (fmt - 1) []) := by
    rw [List.getD_eq_getElem?_getD,List.getElem?_eq_getElem (by omega)]
    rfl
  rw [rfLenAt,if_neg (by omega),hnat,Mkdf.fileDesc,List.getElem?_map,hget,Option.map_some,Option.map_some,Mkdf.formatDesc,
    Mkdf.shortSum,Mkdf.short_eq (hd.fitting _ (Mkdf.getD_mem ⟨hpos,hle⟩)),hd.rfLen_eq ⟨hpos,hle⟩]

theorem obtained_desc (h : Obtained src f dir) :
    ∃ desc,getDatafileDesc f = .ok desc ∧ desc.headerLen.toNat+2+16 = src.start ∧ Known src desc.recordDesc := by
  obtain ⟨formats,hd,hdesc,hanswers,hlen⟩ := obtained_formats h
  have hhlen : src.hlen = Mkdf.flen formats := hd.hlen
  have hheader := h.sound.header
  rw [hdesc,hhlen] at hheader
  have hf : f = putBE 2 (Mkdf.flen formats)++Mkdf.descBytes formats++f.drop (Mkdf.flen formats+2) := by
    rw [← hheader,slice,List.drop_zero,List.take_append_drop]
  refine ⟨Mkdf.fileDesc Mkdf.shortSum formats,?_,?_,known_fileDesc hd⟩
  · rw [hf]
    exact Mkdf.getDatafileDesc_eq hanswers hlen _
  · rw [Source.start,hhlen]
    rfl

variable {recs : List Record}

theorem physical_of_chained {chain : List ℕ} (hc : Chained src.files f recs chain)
    (ht : Tiled src.files src.start recs f.length) : Physical src f recs := by
  refine ⟨ht,hc.laid.format,?_⟩
  intro r hr
  have hflag := congrArg (fun bs : Bytes => bs[0]?) (hc.flags r hr)
  simp only [DataFile.contents,DataFile.Loc.off,DataFile.Loc.length,getElem?_slice,Nat.add_zero,Nat.zero_lt_one,if_true] at hflag
  rw [Deleted,hflag]
  split
  · exact .inl rfl
  · exact .inr rfl

/-- The length of the description is the first word of the file. -/
theorem headerLen_eq {head : Bytes} (hhead : readAt f 0 2 = some head) (h : getDatafileDesc f = .ok desc) :
    desc.headerLen = Mkdf.getShort head := by
  rw [getDatafileDesc,hhead] at h
  dsimp only at h
  split at h
  · cases h
  · split at h
    · cases h
    · split at h
      · cases h
      · cases hformats : Mkdf.takeFormats _ _ with
        | error e =>
          rw [hformats] at h
          cases h
        | ok formats =>
          rw [hformats] at h
          rw [← Except.ok.inj h]

/-- The header of a fresh file is all of it. -/
theorem fresh_length (h : Fresh src f) :
    f.length = src.start ∧ ∀ desc,getDatafileDesc f = .ok desc → desc.headerLen.toNat+2+16 = src.start := by
  obtain ⟨formats,hd,hdesc,hmade⟩ := h
  have hhlen : src.hlen = Mkdf.flen formats := hd.hlen
  have hlow := Mkdf.flen_ge (Mkdf.mkdf_answers hd.fitting hmade)
  have hroom := (Mkdf.mkdf_ok hmade).1
  obtain rfl := Mkdf.mkdf_empty hmade
  have hall := Mkdf.length_emptyFile hlow
  have hword : slice (Mkdf.emptyFile formats) 0 2 = putBE 2 (Mkdf.flen formats) := by
    have hsame : slice (Mkdf.emptyFile formats) 0 2 = slice (Mkdf.firstHeader formats) 0 2 := by
      apply slice_eq_of_getElem?
      intro i hi
      rw [Mkdf.getElem?_emptyFile hlow (by omega),if_neg (by omega)]
    rw [hsame,Mkdf.firstHeader,List.append_assoc,slice_append_exact _ _ _ (length_putBE _ _)]
  refine ⟨by rw [hall,Source.start,hhlen],?_⟩
  intro desc hok
  rw [Mkdf.maxline] at hroom
  have hread := readAt_eq_some.2 ⟨.inr (by rw [hall]; omega),hword⟩
  rw [headerLen_eq hread hok,Mkdf.getShort,getBE_putBE (by omega),Mkdf.short_eq (by omega),Source.start,hhlen,Int.toNat_natCast]

theorem checkIt_ok (h : getDatafileDesc f = .ok desc) (fuel : ℕ) :
    checkIt fuel f = .ok (scan desc.recordDesc f fuel (desc.headerLen.toNat+2+16)) := by
  rw [checkIt,h]
  rfl

theorem readable_of_scansAll (h : ScansAll src f recs) : ∃ desc,getDatafileDesc f = .ok desc := by
  obtain ⟨fuel,hscan⟩ := h
  cases hdesc : getDatafileDesc f with
  | error e =>
    rw [checkIt,hdesc] at hscan
    cases hscan
  | ok desc => exact ⟨desc,rfl⟩

/-- The mark of a format is not the format. -/
theorem not_deleted_of_live (hfmt : r.fmt ≤ 63) (h : f[r.off]? = some (UInt8.ofNat r.fmt)) : ¬ Deleted f r := by
  intro hdel
  rw [Deleted,h] at hdel
  have hindex := congrArg recordIndex (Option.some.inj hdel)
  rw [(live_flag hfmt).2.1,deleted_flag hfmt] at hindex
  omega

theorem Physical.scansAll_iff (hp : Physical src f recs) (hdesc : getDatafileDesc f = .ok desc)
    (hstart : desc.headerLen.toNat+2+16 = src.start) (hk : Known src desc.recordDesc) :
    ScansAll src f recs ↔ ∀ r∈recs,¬ Deleted f r := by
  constructor
  · intro hscans r hr
    obtain ⟨fuel,hscan⟩ := hscans
    rw [checkIt_ok hdesc,hstart] at hscan
    have hlive := live_of_scan hk hp.tiled hp.format hp.flag (Except.ok.inj hscan) r hr
    exact not_deleted_of_live ((hp.format r hr).2.trans src.files.formats_le) hlive
  · intro hnone
    refine ⟨recs.length+1,?_⟩
    rw [checkIt_ok hdesc,hstart,scan_all hk hp.tiled hp.format fun r hr => (hp.flag r hr).resolve_right (hnone r hr)]

/-- The scan sees the records as they are exactly if the description can be read and no record is deleted. -/
theorem check_it_visits_iff (h : Obtained src f dir ∨ Fresh src f) :
    ∃ recs,Physical src f recs ∧ (ScansAll src f recs ↔ (∃ desc,getDatafileDesc f = .ok desc) ∧ ∀ r∈recs,¬ Deleted f r) := by
  rcases h with h | h
  · obtain ⟨recs,chain,hc,ht,-⟩ := h.sound.chained
    obtain ⟨desc,hdesc,hstart,hk⟩ := obtained_desc h
    have hp := physical_of_chained hc ht
    refine ⟨recs,hp,?_⟩
    rw [hp.scansAll_iff hdesc hstart hk,and_iff_right ⟨desc,hdesc⟩]
  · obtain ⟨hlen,hstart⟩ := fresh_length h
    refine ⟨[],⟨hlen.symm,by simp,by simp⟩,?_⟩
    constructor
    · exact fun hscans => ⟨readable_of_scansAll hscans,by simp⟩
    · intro hcond
      obtain ⟨⟨desc,hdesc⟩,-⟩ := hcond
      refine ⟨1,?_⟩
      rw [checkIt_ok hdesc,hstart desc hdesc,scan,List.getElem?_eq_none hlen.le,hlen]
      rfl

end Files

/-! ## Examples -/

theorem check_it_visits_iff_blobFile :
    ∃ recs,Physical Rebuild.blobFile Rebuild.blobFile.bytes recs ∧ (ScansAll Rebuild.blobFile Rebuild.blobFile.bytes recs ↔
      (∃ desc,getDatafileDesc Rebuild.blobFile.bytes = .ok desc) ∧ ∀ r∈recs,¬ Deleted Rebuild.blobFile.bytes r) :=
  check_it_visits_iff (.inl Rebuild.blobFile_obtained)

/-- Two records of four bytes. -/
def twoRecords : Source := Rebuild.plainFile.holding ((Mkdf.mkdf [[4]] [49,58,10,49,58,10]).toOption.getD [])

/-- The request that deletes the first of them. -/
def deleteFirst : DataFile.Request := .delete 26 ⟨fun _ _ _ => 0,fun _ _ => 0⟩ 0 0

/-- The same file without its first record. -/
def oneDeleted : Bytes := (deleteFirst.run twoRecords.files ⟨twoRecords.bytes,0,[]⟩).2.bytes

theorem oneDeleted_obtained : Obtained twoRecords oneDeleted Rebuild.noBlobs := by
  have hmade : Mkdf.mkdf [[4]] [49,58,10,49,58,10] = .ok twoRecords.bytes := by decide +kernel
  have hold : Obtained twoRecords twoRecords.bytes Rebuild.noBlobs :=
    .mkdf ⟨by decide +kernel,by decide +kernel,by decide +kernel⟩ rfl hmade (by simp) fun _ => rfl
  have hchained : Chained twoRecords.files twoRecords.bytes [⟨26,1⟩,⟨47,1⟩] [26,47] :=
    ⟨⟨by decide +kernel,by decide +kernel,by decide,by decide +kernel,by unfold DataFile.Apart; decide,by decide⟩,
      by decide +kernel,by decide,by decide,by decide +kernel,
      .cons (by decide +kernel) (by decide +kernel) (.cons (by decide +kernel) (by decide +kernel) .nil)⟩
  have hok : (deleteFirst.run twoRecords.files ⟨twoRecords.bytes,0,[]⟩).1 = .ok () := by decide +kernel
  exact .edited hold deleteFirst hchained (by decide) (run_eq hok) (by simp)

/-- The scan of it takes a length from before `record_desc` at the first record. -/
theorem deleted_record_not_scanned : Obtained twoRecords oneDeleted Rebuild.noBlobs ∧ Physical twoRecords oneDeleted [⟨26,1⟩,⟨47,1⟩] ∧
    checkIt 3 oneDeleted = .ok ⟨[],some (.outside (-256))⟩ ∧ ¬ ScansAll twoRecords oneDeleted [⟨26,1⟩,⟨47,1⟩] := by
  have hp : Physical twoRecords oneDeleted [⟨26,1⟩,⟨47,1⟩] :=
    ⟨⟨by decide,by decide,by rw [Tiled]; decide +kernel⟩,by decide,by decide +kernel⟩
  refine ⟨oneDeleted_obtained,hp,by decide +kernel,?_⟩
  intro hscans
  obtain ⟨desc,hdesc,hstart,hk⟩ := obtained_desc oneDeleted_obtained
  exact (hp.scansAll_iff hdesc hstart hk).1 hscans ⟨26,1⟩ List.mem_cons_self (by decide +kernel)

/-! ## After a rebuild -/

end Dataman.CheckIt

import Dataman.JournalCodec

/-!
# Scanning a journal

A journal is the header, the records of a transaction and perhaps the first bytes
of one more. `scan` returns exactly the complete records, and reports a RESOLVED
record behind them.
-/

variable {h : Fixed} {record journal tail : Bytes} {file parent : Ident} {name : CString}

namespace Dataman
namespace UndoJournal
open ByteFiles FixedWidthFields UndoLog

/-! ## The records of a transaction -/

/-- What a call appends to the journal before it changes anything. -/
inductive Record
  | undo (name : CString) (file : Ident) (im : Image)
  | blob (name : CString) (parent : Ident) (old : Option BlobFile)

namespace Record

def frame (seq : ℕ) : Record → Frame
  | undo name file im => undoFrame seq name.bytes file im
  | blob name parent old => blobFrame seq name.bytes parent old

/-- The chunk stream behind the frame. -/
def stream : Record → Bytes
  | undo _ _ _ => []
  | blob _ _ old => streamBytes (chunks (contentOf old))

def encode (seq : ℕ) (r : Record) : Bytes := (r.frame seq).bytes++r.stream

/-- The name in the blob directory that the record is about. -/
def blobName : Record → Option Bytes
  | undo _ _ _ => none
  | blob name _ _ => some (name.bytes.drop 6)

/-- The record as `scan` returns it. -/
def saved : Record → Saved
  | undo name file im => .undo name.bytes file im
  | blob name _ old => .blob (name.bytes.drop 6) (old.map fun b => ⟨chunks b.bytes,b.bytes.length,b.attr⟩)

/-- The record in the undo log. -/
def entry : Record → Entry Ident Bytes (Option BlobEntry)
  | undo _ file im => .image file im
  | blob name _ old => .slot (name.bytes.drop 6) (old.map .own)

@[simp] theorem blobName_saved (r : Record) : r.saved.blobName = r.blobName := by cases r <;> rfl

/-- What the code has checked before it writes the record. -/
inductive Valid (env : Env) : Record → Prop
  | undo {name : CString} {file : Ident} {im : Image} (name_valid : nameValid name.bytes = true)
      (plain : underBlobs name.bytes = false) (target : env.target name.bytes = some file)
      (short : im.before.length ≤ maxWrite) (offset : im.offset ≤ int64Max) (size : im.size ≤ int64Max)
      (inside : im.before≠[] → im.offset+im.before.length ≤ im.size) : Valid env (.undo name file im)
  | blob {name : CString} {parent : Ident} {old : Option BlobFile} (name_valid : blobValid name.bytes = true)
      (parent_eq : env.blobsDir = some parent) {n : ℕ}
      (size : blobStreamSize (contentOf old).length = some n) : Valid env (.blob name parent old)

variable {env : Env} {r : Record}

@[simp] theorem sequence_frame (seq : ℕ) (r : Record) : (r.frame seq).sequence = seq := by
  cases r with
  | undo name file im => rfl
  | blob name parent old => cases old <;> rfl

theorem kind_frame (seq : ℕ) (r : Record) : (r.frame seq).kind≠.blob ∧ (r.frame seq).kind≠.resolved := by
  cases r with
  | undo name file im => exact ⟨nofun,nofun⟩
  | blob name parent old => cases old <;> exact ⟨nofun,nofun⟩

theorem length_bytes_meta (attr : Meta) : attr.bytes.length = blobMeta := by simp [Meta.bytes,blobMeta]

theorem size_le_of_blobStreamSize {size n : ℕ} (h : blobStreamSize size = some n) : size ≤ int64Max := by
  unfold blobStreamSize at h
  split at h
  case isTrue hc => exact hc.1
  case isFalse => simp at h

theorem Valid.fits (h : r.Valid env) {seq : ℕ} (hs : seq < 2 ^ 64) : (r.frame seq).Fits := by
  cases h with
  | @undo name file im hname _ _ hshort hoff hsize _ =>
    have ho : im.offset < 2 ^ 64 := by unfold int64Max at hoff; omega
    have hz : im.size < 2 ^ 64 := by unfold int64Max at hsize; omega
    exact ⟨hs,length_le_of_nameValid hname,hshort,ho,hz,file.dev_lt,file.ino_lt⟩
  | @blob name parent old hname _ n hsize =>
    have hn := length_le_of_nameValid (nameValid_of_blobValid hname)
    cases old with
    | none => exact ⟨hs,hn,Nat.zero_le _,by simp [frame,blobFrame],by simp [frame,blobFrame],parent.dev_lt,
        parent.ino_lt⟩
    | some b =>
      have hz := size_le_of_blobStreamSize hsize
      have hz' : b.bytes.length < 2 ^ 64 := by
        simp only [contentOf,Option.map_some,Option.getD_some,int64Max] at hz
        omega
      have hp : b.attr.bytes.length ≤ maxWrite := by rw [length_bytes_meta]; decide
      exact ⟨hs,hn,hp,by simp [frame,blobFrame],hz',parent.dev_lt,parent.ino_lt⟩

/-- The frame announces the length of the stream behind it. -/
theorem Valid.extra (h : r.Valid env) (seq : ℕ) : (r.frame seq).read.extra = some r.stream.length := by
  cases h with
  | undo => rfl
  | @blob name parent old _ _ n hsize =>
    have hl := length_of_blobStreamSize hsize
    have he : ((Record.blob name parent old).frame seq).read.extra = blobStreamSize (contentOf old).length := by
      cases old <;> simp [Fixed.extra,Frame.read,frame,blobFrame,contentOf]
    rw [he,stream,hl,hsize]

end Record

/-! ## Reading one record back -/

theorem readMeta_bytes (attr : Meta) : readMeta attr.bytes = some attr := by
  have hm : attr.mode < 2 ^ 32 := by have := attr.mode_le; omega
  have e0 : get32 attr.bytes 0 = attr.mode := by
    simp [Meta.bytes,List.append_assoc,get32_put32 hm]
  have e4 : get32 attr.bytes 4 = attr.uid := by
    simp [Meta.bytes,List.append_assoc,get32_skip,get32_put32 attr.uid_lt]
  have e8 : get32 attr.bytes 8 = attr.gid := by
    simp [Meta.bytes,List.append_assoc,get32_skip,get32_put32 attr.gid_lt]
  have e12 : get32 attr.bytes 12 = 0 := by
    simp [Meta.bytes,List.append_assoc,get32_skip,get32_put32_self]
  unfold readMeta
  simp only [e0,e4,e8,e12]
  rw [dif_pos ⟨attr.mode_le,trivial⟩]

theorem Frame.drop_bytes (r : Frame) : r.bytes.drop recordSize = r.body := by
  rw [Frame.bytes,List.drop_left' (r.length_fixed)]

theorem Frame.name_bytes (r : Frame) : slice r.bytes recordSize r.name.length = r.name := by
  rw [Frame.bytes,Frame.body,← r.length_fixed,slice_field rfl]

theorem Frame.payload_bytes (r : Frame) : r.bytes.drop (recordSize+r.name.length) = r.payload := by
  rw [← List.drop_drop,r.drop_bytes,Frame.body,List.drop_left' rfl]

section ReadBack

variable {env : Env} {w : World} {entries : List Saved}

theorem readUndo_eq {version : Version} {name : Bytes}
    (hname : slice record recordSize h.nameSize = name)
    (hvalid : nameValid name = true ∧ (version≠.two → underBlobs name = false) ∧ (0 : UInt8)∉name)
    (hrange : h.offset ≤ int64Max ∧ h.size ≤ int64Max ∧ (h.length≠0 → h.offset+h.length ≤ h.size))
    (htarget : env.target name = some file) (hfile : file.dev = h.dev ∧ file.ino = h.ino) :
    readUndo env version h record =
      some (.undo name file ⟨h.offset,record.drop (recordSize+h.nameSize),h.size⟩) := by
  subst hname
  simp only [readUndo,guard_eq_ite,Option.bind_eq_bind,if_pos hvalid,if_pos hrange,htarget,if_pos hfile,
    Option.bind_some]
  rfl

theorem readUndo_bytes {im : Image} (h : (Record.undo name file im).Valid env)
    (seq : ℕ) : readUndo env .four (undoFrame seq name.bytes file im).read
      (undoFrame seq name.bytes file im).bytes = some (.undo name.bytes file im) := by
  cases h with
  | undo hname hplain htarget _ hoff hsize hin =>
    have hlen : im.before.length≠0 → im.offset+im.before.length ≤ im.size := by
      intro h0
      exact hin (fun hnil => h0 (by rw [hnil]; rfl))
    have hp : (undoFrame seq name.bytes file im).bytes.drop (recordSize+name.bytes.length) = im.before :=
      (undoFrame seq name.bytes file im).payload_bytes
    have he := readUndo_eq (h := (undoFrame seq name.bytes file im).read)
      (undoFrame seq name.bytes file im).name_bytes
      ⟨hname,fun (_ : Version.four≠.two) => hplain,name.nul_free⟩ ⟨hoff,hsize,hlen⟩ htarget ⟨rfl,rfl⟩
    rw [he]
    exact congrArg (fun b => some (Saved.undo name.bytes file ⟨im.offset,b,im.size⟩)) hp

theorem readBlobOld_bytes (seq : ℕ) (name : Bytes) (parent : Ident) (old : Option BlobFile) (pre post : Bytes) :
    readBlobOld (blobFrame seq name parent old).read (blobFrame seq name parent old).payload
      (pre++(streamBytes (chunks (contentOf old))++post)) pre.length =
      some (old.map fun b => ⟨chunks b.bytes,b.bytes.length,b.attr⟩) := by
  cases old with
  | none => rfl
  | some b =>
    have hs : blobStream (pre++(streamBytes (chunks b.bytes)++post)) pre.length b.bytes.length =
        some (chunks b.bytes) := blobStream_stream pre b.bytes post
    have hl : b.attr.bytes.length = blobMeta := Record.length_bytes_meta b.attr
    simp only [readBlobOld,Frame.read,blobFrame,readBlobImage,readContent,contentOf,Option.map_some,
      Option.getD_some,readMeta_bytes,hs,hl,guard_eq_ite,Option.bind_eq_bind]
    rfl

theorem readBlob_eq {name : Bytes} {stream : ℕ}
    {old : Option BlobImage} (hname : slice record recordSize h.nameSize = name)
    (hvalid : blobValid name = true ∧ (0 : UInt8)∉name) (hkind : h.kind = .blob → h.size ≤ maxWrite)
    (hold : readBlobOld h (record.drop (recordSize+h.nameSize)) journal stream = some old)
    (hfirst : ∀ e∈entries,e.blobName≠some (name.drop 6)) (hparent : env.blobsDir = some parent)
    (hdir : parent.dev = h.dev ∧ parent.ino = h.ino) (hown : w.files.slots (name.drop 6)≠some .foreign) :
    readBlob env w h record journal stream entries = some (.blob (name.drop 6) old) := by
  subst hname
  simp only [readBlob,guard_eq_ite,Option.bind_eq_bind,if_pos hvalid,if_pos hkind,hold,if_pos hfirst,
    hparent,if_pos hdir,if_pos hown,Option.bind_some]
  rfl

theorem readBlob_bytes {old : Option BlobFile}
    (h : (Record.blob name parent old).Valid env) (seq : ℕ) (pre post : Bytes)
    (hown : w.files.slots (name.bytes.drop 6)≠some .foreign)
    (hfirst : ∀ e∈entries,e.blobName≠some (name.bytes.drop 6)) :
    readBlob env w (blobFrame seq name.bytes parent old).read (blobFrame seq name.bytes parent old).bytes
      (pre++(streamBytes (chunks (contentOf old))++post)) pre.length entries =
      some (Record.blob name parent old).saved := by
  cases h with
  | blob hname hparent hsize =>
    have hn := (blobFrame seq name.bytes parent old).name_bytes
    have hp := (blobFrame seq name.bytes parent old).payload_bytes
    have ho := readBlobOld_bytes seq name.bytes parent old pre post
    have hk : (blobFrame seq name.bytes parent old).kind≠.blob := by cases old <;> exact nofun
    have hframe : (blobFrame seq name.bytes parent old).name = name.bytes ∧
        (blobFrame seq name.bytes parent old).dev = parent.dev ∧
        (blobFrame seq name.bytes parent old).ino = parent.ino := by
      cases old <;> exact ⟨rfl,rfl,rfl⟩
    apply readBlob_eq (h := (blobFrame seq name.bytes parent old).read) (hn.trans hframe.1)
      ⟨hname,name.nul_free⟩ (fun hb => absurd hb hk) _ hfirst hparent ⟨hframe.2.1.symm,hframe.2.2.symm⟩ hown
    exact (congrArg (readBlobOld _ · _ _) hp).trans ho

/-- What the directory and the entries read so far must be like for `r` to be accepted. -/
def Record.Fresh (w : World) (entries : List Saved) (r : Record) : Prop :=
  ∀ name,r.blobName = some name →
    w.files.slots name≠some .foreign ∧ ∀ e∈entries,e.blobName≠some name

variable {r : Record} (seq fuel : ℕ) (pre post : Bytes)

theorem slice_encode (r : Record) :
    slice (pre++(r.encode seq++post)) pre.length (r.frame seq).length = (r.frame seq).bytes := by
  rw [Record.encode,List.append_assoc,slice_field (r.frame seq).length_bytes]

theorem slice_fixed (r : Record) :
    slice (pre++(r.encode seq++post)) pre.length recordSize = (r.frame seq).fixed := by
  rw [Record.encode,Frame.bytes,List.append_assoc,List.append_assoc,slice_field (r.frame seq).length_fixed]

theorem readRecord_encode (hr : r.Valid env) (hf : r.Fresh w entries) :
    readRecord env w .four (pre++(r.encode seq++post)) pre.length (r.frame seq).read entries =
      some (some r.saved) := by
  have hs := slice_encode seq pre post r
  have hc : crc ((r.frame seq).bytes.drop recordSize) = (r.frame seq).read.checksum := by
    rw [Frame.drop_bytes]
    rfl
  have ht : (r.frame seq).read.total = (r.frame seq).length := rfl
  simp only [readRecord,ht,hs,hc,guard_eq_ite,if_true,Option.bind_eq_bind,Option.bind_some]
  cases r with
  | undo name file im => exact congrArg (Option.map some) (readUndo_bytes hr seq)
  | blob name parent old =>
    have hk : ((Record.blob name parent old).frame seq).read.kind = .blobStream := by cases old <;> rfl
    obtain ⟨hown,hfirst⟩ := hf _ rfl
    have hj : pre++((Record.blob name parent old).encode seq++post) =
        (pre++(blobFrame seq name.bytes parent old).bytes) ++
          (streamBytes (chunks (contentOf old))++post) := by
      simp [Record.encode,Record.frame,Record.stream]
    have hp : pre.length+((Record.blob name parent old).frame seq).length =
        (pre++(blobFrame seq name.bytes parent old).bytes).length := by
      simp [Record.frame]
    rw [hk,hj,hp]
    exact congrArg (Option.map some) (readBlob_bytes hr seq _ _ hown hfirst)

theorem length_encode (r : Record) : (r.encode seq).length = (r.frame seq).length+r.stream.length := by
  simp [Record.encode]

/-- The loop of `scan` at a record that is long enough and has its fixed part. -/
theorem scanFrom_whole {pos : ℕ} (hr : r.Valid env) (hs : seq+1 < 2 ^ 64)
    (hfix : slice journal pos recordSize = (r.frame (seq+1)).fixed)
    (hlen : (r.encode (seq+1)).length ≤ journal.length - pos) :
    scanFrom env w .four journal (fuel+1) pos seq entries =
      (readRecord env w .four journal pos (r.frame (seq+1)).read entries).bind fun e =>
        match e with
        | none => some ⟨entries,true,pos+(r.frame (seq+1)).length,seq+1⟩
        | some e => scanFrom env w .four journal fuel (pos+(r.encode (seq+1)).length) (seq+1)
            (entries++[e]) := by
  have hl := length_encode (seq+1) r
  have hroom : recordSize ≤ (r.frame (seq+1)).length := by
    rw [Frame.length]
    omega
  have ht : (r.frame (seq+1)).read.total = (r.frame (seq+1)).length := rfl
  rw [hl,← Nat.add_assoc,scanFrom,if_neg (by omega),hfix,
    Frame.readFixed_fixed (hr.fits hs) (r.sequence_frame (seq+1)) (r.kind_frame (seq+1)).1]
  simp only [Option.bind_eq_bind,Option.bind_some,hr.extra,ht]
  exact if_neg (by omega)

/-- The loop of `scan` takes one complete record. -/
theorem scanFrom_encode (hr : r.Valid env) (hf : r.Fresh w entries) (hs : seq+1 < 2 ^ 64) :
    scanFrom env w .four (pre++(r.encode (seq+1)++post)) (fuel+1) pre.length seq entries =
      scanFrom env w .four (pre++(r.encode (seq+1)++post)) fuel (pre.length+(r.encode (seq+1)).length)
        (seq+1) (entries++[r.saved]) := by
  rw [scanFrom_whole _ _ hr hs (slice_fixed _ _ _ r) (by simp),readRecord_encode _ _ _ hr hf,Option.bind_some]

/-- The loop of `scan` stops at a record that is not wholly there. -/
theorem scanFrom_torn (hr : r.Valid env) (hs : seq+1 < 2 ^ 64)
    (ht : tail <+: r.encode (seq+1)) (hl : tail.length < (r.encode (seq+1)).length) :
    scanFrom env w .four (pre++tail) (fuel+1) pre.length seq entries = some ⟨entries,false,pre.length,seq⟩ := by
  have hlen : (pre++tail).length - pre.length = tail.length := by simp
  by_cases hshort : tail.length < recordSize
  · rw [scanFrom,hlen,if_pos hshort]
  · obtain ⟨more,hmore⟩ := ht
    have hfix : slice (pre++tail) pre.length recordSize = (r.frame (seq+1)).fixed := by
      have hx := slice_fixed (seq+1) pre [] r
      rwa [← hmore,List.append_nil,← List.append_assoc,slice_append_left _ _ _ _ (by simp; omega)] at hx
    have hle : (r.encode (seq+1)).length = (r.frame (seq+1)).length+r.stream.length := by
      simp [Record.encode]
    have htot : (r.frame (seq+1)).read.total = (r.frame (seq+1)).length := rfl
    rw [scanFrom,hlen,if_neg hshort,hfix,
      Frame.readFixed_fixed (hr.fits hs) (r.sequence_frame (seq+1)) (r.kind_frame (seq+1)).1]
    simp only [Option.bind_eq_bind,Option.bind_some,hr.extra,htot]
    rw [if_pos (by omega)]

/-- The loop of `scan` accepts a RESOLVED record at the very end. -/
theorem scanFrom_resolved (hs : seq+1 < 2 ^ 64) :
    scanFrom env w .four (pre++(resolvedFrame (seq+1)).bytes) (fuel+1) pre.length seq entries =
      some ⟨entries,true,pre.length+recordSize,seq+1⟩ := by
  obtain ⟨r,hr⟩ : ∃ r,r = resolvedFrame (seq+1) := ⟨_,rfl⟩
  have hfits : r.Fits := by
    rw [hr]
    exact ⟨hs,Nat.zero_le _,Nat.zero_le _,Nat.two_pow_pos 64,Nat.two_pow_pos 64,Nat.two_pow_pos 64,
      Nat.two_pow_pos 64⟩
  have hbytes : r.bytes.length = recordSize := by rw [hr]; exact Frame.length_bytes _
  have hfixed : r.bytes = r.fixed := by rw [hr]; exact List.append_nil _
  have hzero : slice r.bytes 20 36 = List.replicate 36 0 := by
    have hparts : r.bytes = (Frame.magic++put32 2++put64 (seq+1)++put32 recordSize) ++
        ((put32 0++put64 0++put64 0++put64 0++put64 0) ++
          (put32 0++put32 (crc [])++put32 (crc r.sealed)++put32 0)) := by
      rw [hfixed,hr]
      simp only [Frame.fixed,Frame.sealed,resolvedFrame,List.append_assoc]
      rfl
    rw [hparts]
    exact @slice_field (Frame.magic++put32 2++put64 (seq+1)++put32 recordSize) _ _ 36 rfl
  have hslice : slice (pre++r.bytes) pre.length recordSize = r.bytes := by
    simpa using @slice_field pre r.bytes [] _ hbytes
  have hread : readRecord env w .four (pre++r.bytes) pre.length r.read entries = some none := by
    have hsum : r.read.checksum = crc ((slice (pre++r.bytes) pre.length r.read.total).drop recordSize) := by
      have ht : r.read.total = recordSize := by rw [hr]; rfl
      rw [ht,hslice,Frame.drop_bytes]
      rfl
    have hend : r.read.total = recordSize ∧
        slice (slice (pre++r.bytes) pre.length r.read.total) 20 36 = List.replicate 36 0 ∧
        r.read.length = 0 ∧ pre.length+r.read.total = (pre++r.bytes).length := by
      have ht : r.read.total = recordSize := by rw [hr]; rfl
      rw [ht,hslice,List.length_append,hbytes]
      exact ⟨rfl,hzero,by rw [hr]; rfl,rfl⟩
    have hk : r.read.kind = .resolved := by rw [hr]; rfl
    simp only [readRecord,guard_eq_ite,Option.bind_eq_bind,if_pos hsum,Option.bind_some,hk,if_pos hend]
    rfl
  have hk : r.kind≠.blob := by simp [hr,resolvedFrame]
  have hextra : r.read.extra = some 0 := by rw [hr]; rfl
  have ht : r.read.total = recordSize := by rw [hr]; rfl
  have hlen : (pre++r.bytes).length - pre.length = recordSize := by simp [hbytes]
  rw [← hr,scanFrom,hlen,if_neg (lt_irrefl _),hslice,hfixed,
    Frame.readFixed_fixed hfits (by rw [hr]; rfl) hk]
  simp only [Option.bind_eq_bind,Option.bind_some,hextra,ht,← hfixed,hread]
  rw [if_neg (by omega)]

end ReadBack

/-! ## Whole journals -/

/-- The records of a journal after sequence number `seq`. -/
def encodeFrom : ℕ → List Record → Bytes
  | _,[] => []
  | seq,r::rs => r.encode (seq+1)++encodeFrom (seq+1) rs

theorem encodeFrom_append (seq : ℕ) (rs rs' : List Record) :
    encodeFrom seq (rs++rs') = encodeFrom seq rs++encodeFrom (seq+rs.length) rs' := by
  induction rs generalizing seq with
  | nil => rfl
  | cons r rs ih =>
    rw [List.cons_append,encodeFrom,ih,encodeFrom,List.append_assoc,List.length_cons]
    congr 3
    omega

/-- The records are of the kind that `scan` accepts in this directory. -/
structure Readable (env : Env) (w : World) (rs : List Record) : Prop where
  valid : ∀ r∈rs,r.Valid env
  once : (rs.filterMap Record.blobName).Nodup
  own : ∀ name∈rs.filterMap Record.blobName,w.files.slots name≠some .foreign

section Journals

variable {env : Env} {w : World} {rs : List Record}

theorem Readable.fresh {done : List Record} {r : Record} (h : Readable env w (done++r::rs)) :
    r.Fresh w (done.map Record.saved) := by
  intro name hname
  constructor
  · apply h.own
    rw [List.filterMap_append,List.filterMap_cons_some hname]
    simp
  · intro e he heq
    obtain ⟨r',hr',rfl⟩ := List.mem_map.1 he
    rw [Record.blobName_saved] at heq
    have hn := h.once
    rw [List.filterMap_append,List.filterMap_cons_some hname] at hn
    exact (List.nodup_append.1 hn).2.2 name (List.mem_filterMap.2 ⟨r',hr',heq⟩) name (by simp) rfl

theorem scanFrom_records (done : List Record) (seq fuel : ℕ) (pre post : Bytes)
    (h : Readable env w (done++rs)) (hs : seq+rs.length < 2 ^ 64) :
    scanFrom env w .four (pre++(encodeFrom seq rs++post)) (fuel+rs.length) pre.length seq
        (done.map Record.saved) =
      scanFrom env w .four (pre++(encodeFrom seq rs++post)) fuel
        (pre.length+(encodeFrom seq rs).length) (seq+rs.length) ((done++rs).map Record.saved) := by
  induction rs generalizing done pre seq with
  | nil => simp [encodeFrom]
  | cons r rs ih =>
    simp only [List.length_cons] at hs ⊢
    have hstep := scanFrom_encode seq (fuel+rs.length) pre (encodeFrom (seq+1) rs++post)
      (h.valid r (by simp)) h.fresh (by omega)
    have hrest : Readable env w ((done++[r])++rs) := by simpa using h
    have hnext := ih (done++[r]) (seq+1) (pre++r.encode (seq+1)) hrest (by omega)
    simp only [List.append_assoc,List.length_append,List.map_append,List.map_cons,List.map_nil] at hnext
    have hj : pre++(encodeFrom seq (r::rs)++post) =
        pre++(r.encode (seq+1)++(encodeFrom (seq+1) rs++post)) := by
      rw [encodeFrom,List.append_assoc]
    have hl : (encodeFrom seq (r::rs)).length =
        (r.encode (seq+1)).length+(encodeFrom (seq+1) rs).length := by
      rw [encodeFrom,List.length_append]
    rw [hj,hl,← Nat.add_assoc fuel,hstep,hnext]
    simp [Nat.add_assoc,Nat.add_comm 1]

theorem length_le_encodeFrom (seq : ℕ) (rs : List Record) : rs.length ≤ (encodeFrom seq rs).length := by
  induction rs generalizing seq with
  | nil => exact Nat.zero_le _
  | cons r rs ih =>
    have hl := ih (seq+1)
    simp only [encodeFrom,Record.encode,List.length_append,Frame.length_bytes,Frame.length,recordSize,
      List.length_cons]
    omega

@[simp] theorem length_header (env : Env) : (header env).length = headerSize := by
  simp [header,headerFields,magic4,headerSize]

@[simp] theorem length_headerFields (env : Env) : (headerFields env).length = 48 := by
  simp [headerFields,magic4]

theorem take_header (env : Env) : (header env).take 48 = headerFields env := by
  rw [header,List.append_assoc,List.take_left' (length_headerFields env)]

theorem get32_header_sum (env : Env) : get32 (header env) 48 = crc (headerFields env) := by
  simp [header,get32_skip,get32_put32 (crc_lt _)]

theorem get32_header_pad (env : Env) : get32 (header env) 52 = 0 := by
  simp [header,get32_skip,get32_put32_self]

theorem get32_header_length (hp : env.rootPath.bytes.length ≤ maxPath) :
    get32 (header env) 40 = env.rootPath.bytes.length := by
  have hm : magic4.length = 8 := rfl
  have hpl : env.rootPath.bytes.length < 2 ^ 32 := by
    unfold maxPath at hp
    omega
  simp [header,headerFields,List.append_assoc,get32_skip,hm,get32_put32 hpl]

theorem get32_header_path (env : Env) : get32 (header env) 44 = crc env.rootPath.bytes := by
  have hm : magic4.length = 8 := rfl
  simp [header,headerFields,List.append_assoc,get32_skip,hm,get32_put32 (crc_lt _)]

theorem readAt_header (post : Bytes) : readAt (header env++post) 0 headerSize = some (header env) := by
  simpa using @readAt_field [] (header env) post headerSize (length_header env)

theorem rootPath_ne_nil (env : Env) : env.rootPath.bytes.length≠0 := by
  intro hz
  have hnil := List.eq_nil_of_length_eq_zero hz
  have habs := env.rootPath_abs
  rw [hnil] at habs
  simp at habs

theorem readHeader_header (hp : env.rootPath.bytes.length ≤ maxPath) (post : Bytes) :
    readHeader env (header env++(env.rootPath.bytes++post)) =
      some (.four,headerSize+env.rootPath.bytes.length) := by
  have hm : magic4.length = 8 := rfl
  have hv : readVersion (header env) = some .four := by
    have ht : (header env).take 8 = magic4 := by simp [header,headerFields,magic4]
    rw [readVersion,ht]
    rfl
  have e8 : get64 (header env) 8 = env.journalDir.dev := by
    simp [header,headerFields,List.append_assoc,get64_skip,hm,get64_put64 env.journalDir.dev_lt]
  have e16 : get64 (header env) 16 = env.journalDir.ino := by
    simp [header,headerFields,List.append_assoc,get64_skip,hm,get64_put64 env.journalDir.ino_lt]
  have e24 : get64 (header env) 24 = env.root.dev := by
    simp [header,headerFields,List.append_assoc,get64_skip,hm,get64_put64 env.root.dev_lt]
  have e32 : get64 (header env) 32 = env.root.ino := by
    simp [header,headerFields,List.append_assoc,get64_skip,hm,get64_put64 env.root.ino_lt]
  have e48 : get32 (header env) 48 = crc ((header env).take 48) := by
    rw [take_header,get32_header_sum]
  have h1 : readAt (header env++(env.rootPath.bytes++post)) headerSize env.rootPath.bytes.length =
      some env.rootPath.bytes := by
    rw [← length_header env,readAt_field rfl]
  simp only [readHeader,readAt_header,hv,e8,e16,e24,e32,get32_header_length hp,get32_header_path,h1,
    env.openRoot_rootPath,guard_eq_ite,Option.bind_eq_bind,Option.bind_some]
  rw [if_pos ⟨trivial,trivial,e48,get32_header_pad env⟩,Option.bind_some,if_pos (.inl trivial),
    Option.bind_some,if_pos ⟨rootPath_ne_nil env,hp⟩,Option.bind_some,
    if_pos ⟨env.rootPath.nul_free,env.rootPath_abs,trivial⟩,Option.bind_some,if_pos ⟨trivial,trivial⟩]
  rfl

/-- The journal of a transaction with these records. -/
def journalBytes (env : Env) (rs : List Record) : Bytes :=
  header env++(env.rootPath.bytes++encodeFrom 0 rs)

theorem journalBytes_append (env : Env) (rs : List Record) (r : Record) :
    journalBytes env (rs++[r]) = journalBytes env rs++r.encode (rs.length+1) := by
  simp [journalBytes,encodeFrom_append,encodeFrom]

/-- Less than a record: the first bytes of the next one, or of a RESOLVED record. -/
inductive Torn (env : Env) (seq : ℕ) (tail : Bytes) : Prop
  | short (h : tail.length < recordSize)
  | cut {r : Record} (valid : r.Valid env) (start : tail <+: r.encode (seq+1))
      (less : tail.length < (r.encode (seq+1)).length)

/-- Behind the header `scan` reads the records and goes on from there. -/
theorem scan_records (hp : env.rootPath.bytes.length ≤ maxPath) (h : Readable env w rs)
    (hs : rs.length+1 < 2 ^ 64) (post : Bytes) : ∃ fuel,scan env w (journalBytes env rs++post) =
      scanFrom env w .four (journalBytes env rs++post) (fuel+1) (journalBytes env rs).length rs.length
        (rs.map Record.saved) := by
  have hj : journalBytes env rs++post = header env++(env.rootPath.bytes++(encodeFrom 0 rs++post)) := by
    simp [journalBytes]
  have hl : (journalBytes env rs++post).length =
      headerSize+(env.rootPath.bytes.length+((encodeFrom 0 rs).length+post.length)) := by
    rw [hj]
    simp
  have hle := length_le_encodeFrom 0 rs
  obtain ⟨fuel,hfuel⟩ : ∃ fuel,(journalBytes env rs++post).length = fuel+1+rs.length := by
    refine ⟨(journalBytes env rs++post).length - rs.length - 1,?_⟩
    rw [hl,headerSize]
    omega
  have hloop := scanFrom_records [] 0 (fuel+1) (header env++env.rootPath.bytes) post h (by omega)
  have hpos : (header env++env.rootPath.bytes).length = headerSize+env.rootPath.bytes.length := by simp
  have hend : headerSize+env.rootPath.bytes.length+(encodeFrom 0 rs).length = (journalBytes env rs).length := by
    simp [journalBytes,Nat.add_assoc]
  refine ⟨fuel,?_⟩
  rw [hpos,hend,List.append_assoc,← hj,Nat.zero_add] at hloop
  simp only [scan,Option.bind_eq_bind]
  rw [hfuel,hj,readHeader_header hp,Option.bind_some,← hj]
  exact hloop

/-- A torn tail is ignored. -/
theorem scan_torn (hp : env.rootPath.bytes.length ≤ maxPath) (h : Readable env w rs)
    (hs : rs.length+1 < 2 ^ 64) (ht : Torn env rs.length tail) :
    scan env w (journalBytes env rs++tail) =
      some ⟨rs.map Record.saved,false,(journalBytes env rs).length,rs.length⟩ := by
  obtain ⟨fuel,hscan⟩ := scan_records hp h hs tail
  rw [hscan]
  cases ht with
  | short hshort =>
    have hlen : (journalBytes env rs++tail).length - (journalBytes env rs).length = tail.length := by simp
    rw [scanFrom,hlen,if_pos hshort]
  | cut hr hstart hless => exact scanFrom_torn _ _ _ hr hs hstart hless

/-- A RESOLVED record behind the others is found. -/
theorem scan_resolved (hp : env.rootPath.bytes.length ≤ maxPath) (h : Readable env w rs)
    (hs : rs.length+1 < 2 ^ 64) :
    scan env w (journalBytes env rs++(resolvedFrame (rs.length+1)).bytes) =
      some ⟨rs.map Record.saved,true,(journalBytes env rs).length+recordSize,rs.length+1⟩ := by
  obtain ⟨fuel,hscan⟩ := scan_records hp h hs (resolvedFrame (rs.length+1)).bytes
  rw [hscan,scanFrom_resolved _ _ _ hs]

end Journals

end UndoJournal
end Dataman

import Dataman.FileHandlers

/-!
# Where RELEASE reads the first record pointer

The open files are shared: a file that is open already keeps its descriptor, at the
position the last request left it. `release` reads the pointer to the first record at
that position and does not seek before.
-/

namespace Dataman.Server
open Programs ByteFiles DataFile FieldText

/-! ## The table of open files -/

/-- A `FILES` with its reference count and the position of its descriptor. -/
structure OpenFile where
  name : Text
  refs : ℤ := 1
  desc : Option Files := none
  pos : ℕ := 0

/-- The data files by their paths, each with the description in its header, the blobs of a record, the
open files by name and by address, the address of the next one, and the work files. -/
structure OpenFiles where
  disk : Text → Option (Files × Bytes)
  blobs : Text → ℕ → ℤ → Option Bytes
  find : Text → Option FileRef
  entry : FileRef → OpenFile
  next : FileRef
  wfiles : ℕ → Option FileRef

namespace OpenFiles

def set (w : OpenFiles) (f : FileRef) (e : OpenFile) : OpenFiles := { w with entry := Function.update w.entry f e }

def moved (w : OpenFiles) (f : FileRef) (pos : ℕ) : OpenFiles := w.set f { w.entry f with pos := pos }

def getFile (w : OpenFiles) (name : Text) : FileRef × OpenFiles :=
  match w.find name with
  | some f => (f,w.set f { w.entry f with refs := (w.entry f).refs+1 })
  | none =>
    (w.next,{ w with
      find := Function.update w.find name (some w.next)
      entry := Function.update w.entry w.next { name := name }
      next := w.next+1 })

def rmFile (w : OpenFiles) (name : Text) : OpenFiles :=
  match w.find name with
  | none => w
  | some f =>
    if (w.entry f).refs - 1 = 0 then { w with find := Function.update w.find name none }
    else w.set f { w.entry f with refs := (w.entry f).refs - 1 }

/-- The descriptor is left behind the header. -/
def getDatafileDesc (w : OpenFiles) (f : FileRef) : Except DescError Files × OpenFiles :=
  match w.disk (w.entry f).name with
  | none => (.error .noFile,w)
  | some out => (.ok out.1,w.set f { w.entry f with desc := some out.1,pos := out.1.hlen+2 })

def contents (w : OpenFiles) (f : FileRef) : Bytes := ((w.disk (w.entry f).name).map Prod.snd).getD []

/-- All of the next `n` bytes, or nothing. -/
def read (w : OpenFiles) (f : FileRef) (n : ℕ) : Option Bytes × OpenFiles :=
  let bs := slice (w.contents f) (w.entry f).pos n
  (if bs.length = n then some bs else none,w.moved f ((w.entry f).pos+bs.length))

/-- The calls of `release`, made by one request after the other. -/
def step (w : OpenFiles) : (c : Call) → Option (Answer c × OpenFiles)
  | .lock _ | .unlock _ | .flLock _ _ => some ((),w)
  | .getFile name => some (w.getFile name)
  | .rmFile name => some ((),w.rmFile name)
  | .fname f => some ((w.entry f).name,w)
  | .desc f => some ((w.entry f).desc,w)
  | .getDatafileDesc f => some (w.getDatafileDesc f)
  | .wfile j => some (w.wfiles j,w)
  | .setWfile j f => some ((),{ w with wfiles := Function.update w.wfiles j.toNat f })
  | .llseek f off => some ((),if 0 ≤ off then w.moved f off.toNat else w)
  | .read f part => some (w.read f part.size)
  | .getBlobs f fmt recno => some (w.blobs (w.entry f).name fmt recno,w)
  | _ => none

/-- An open file is found under its name, and its description is the one in the file. -/
structure Ok (w : OpenFiles) : Prop where
  named : ∀ {name f},w.find name = some f → (w.entry f).name = name
  described : ∀ {name f file},w.find name = some f → (w.entry f).desc = some file → ∃ bytes,w.disk name = some (file,bytes)

/-- The work file is the open file of that name. -/
def Refers (w : OpenFiles) (fno : ℕ) (name : Text) : Prop :=
  ∃ f,w.wfiles fno = some f ∧ w.find name = some f ∧ (w.entry f).name = name

end OpenFiles

open OpenFiles (step)

/-! ## What is asked and what is answered -/

/-- RELEASE of a work file, with a record number of zero and the name of the next file. -/
structure Asks (text : Text) (fno : ℕ) (name : Text) : Prop where
  number : atoi text = fno+1
  bound : fno < maxConns
  fields : ∃ cptr rest tail,nextField text = some cptr ∧ strtoll cptr = 0 ∧ nextField cptr = some rest ∧
    splitField rest = some (name,tail)

/-- The pointer to the first record. -/
def headOf (file : Files) (bytes : Bytes) : ℤ := getLl (slice bytes (file.hlen+2) ptrLength)

def headHeader (file : Files) (bytes : Bytes) : Bytes := slice bytes (headOf file bytes).toNat headerLength

def headFormat (file : Files) (bytes : Bytes) : ℕ := formatOf (headHeader file bytes)

/-- A file whose first record can be read. -/
structure HeadRecord (w : OpenFiles) (name : Text) (file : Files) (bytes : Bytes) : Prop where
  stored : w.disk name = some (file,bytes)
  pointer : file.hlen+2+ptrLength ≤ bytes.length
  nonneg : 0 ≤ headOf file bytes
  record : (headOf file bytes).toNat+headerLength+(file.format (headFormat file bytes)).rfLen ≤ bytes.length
  blobs : (file.format (headFormat file bytes)).hasBlob → (w.blobs name (headFormat file bytes) (headOf file bytes)).isSome

/-- The data of the first record, with its blobs behind them. -/
def headData (w : OpenFiles) (name : Text) (file : Files) (bytes : Bytes) : Bytes :=
  slice bytes ((headOf file bytes).toNat+headerLength) (file.format (headFormat file bytes)).rfLen ++
    if (file.format (headFormat file bytes)).hasBlob then (w.blobs name (headFormat file bytes) (headOf file bytes)).getD [] else []

/-- The reply for the first record. -/
def headReply (w : OpenFiles) (name : Text) (file : Files) (bytes : Bytes) : Reply :=
  answer (printed [(headData w name file bytes).length,longest file,headFormat file bytes,headOf file bytes,
    getLl (slice (headHeader file bytes) 1 8),getLl (slice (headHeader file bytes) 9 8)]) (some (headData w name file bytes))

/-- If the file is open and described, its descriptor stands where the pointer to the first record can be read. -/
def AtHead (w : OpenFiles) (name : Text) : Prop :=
  ∀ f file,w.find name = some f → (w.entry f).desc = some file →
    (w.entry f).pos+ptrLength ≤ (w.contents f).length ∧
      getLl (slice (w.contents f) (w.entry f).pos ptrLength) = headOf file (w.contents f)

/-! ## Runs -/

variable {w : OpenFiles} {f : FileRef} {file : Files} {bytes : Bytes} {name text : Text} {fno : ℕ} {recno : ℤ}

/-- The file is open, with the description and the contents it has on disk. -/
structure OpenFiles.Holds (w : OpenFiles) (f : FileRef) (file : Files) (bytes : Bytes) : Prop where
  desc : (w.entry f).desc = some file
  disk : w.disk (w.entry f).name = some (file,bytes)

@[simp] theorem OpenFiles.entry_set (w : OpenFiles) (f : FileRef) (e : OpenFile) : (w.set f e).entry f = e := Function.update_self ..

theorem OpenFiles.entry_set_of_ne {g : FileRef} {e : OpenFile} (h : f≠g) : (w.set g e).entry f = w.entry f := Function.update_of_ne h ..

theorem OpenFiles.Holds.contents_eq (h : w.Holds f file bytes) : w.contents f = bytes := by
  rw [OpenFiles.contents,h.disk]
  rfl

theorem OpenFiles.Holds.moved (h : w.Holds f file bytes) (pos : ℕ) : (w.moved f pos).Holds f file bytes := by
  constructor
  · rw [OpenFiles.moved,entry_set]
    exact h.desc
  · rw [OpenFiles.moved,entry_set]
    exact h.disk

@[simp] theorem OpenFiles.pos_moved (w : OpenFiles) (f : FileRef) (pos : ℕ) : ((w.moved f pos).entry f).pos = pos := by
  rw [OpenFiles.moved,entry_set]

@[simp] theorem OpenFiles.name_moved (w : OpenFiles) (f : FileRef) (pos : ℕ) : ((w.moved f pos).entry f).name = (w.entry f).name := by
  rw [OpenFiles.moved,entry_set]

theorem OpenFiles.moved_moved (w : OpenFiles) (f : FileRef) (p q : ℕ) : (w.moved f p).moved f q = w.moved f q := by
  simp only [OpenFiles.moved,OpenFiles.set,Function.update_self,Function.update_idem]

/-- What a read of `n` bytes at an offset returns. -/
def got (bytes : Bytes) (off n : ℕ) : Option Bytes := if (slice bytes off n).length = n then some (slice bytes off n) else none

theorem got_eq {off n : ℕ} (h : off+n ≤ bytes.length) : got bytes off n = some (slice bytes off n) := by
  have hlen : (slice bytes off n).length = n := by
    rw [slice,List.length_take,List.length_drop]
    omega
  rw [got,if_pos hlen]

theorem le_of_got {off n : ℕ} {bs : Bytes} (hn : 0 < n) (h : got bytes off n = some bs) :
    off+n ≤ bytes.length ∧ bs = slice bytes off n := by
  rw [got] at h
  split at h
  · rename_i hlen
    rw [slice,List.length_take,List.length_drop] at hlen
    exact ⟨by omega,(Option.some.inj h).symm⟩
  · cases h

theorem OpenFiles.Holds.read (h : w.Holds f file bytes) (part : Part) :
    ∃ pos,step w (.read f part) = some (got bytes (w.entry f).pos part.size,w.moved f pos) ∧
      (∀ bs,got bytes (w.entry f).pos part.size = some bs → pos = (w.entry f).pos+part.size) := by
  refine ⟨(w.entry f).pos+(slice bytes (w.entry f).pos part.size).length,?_,?_⟩
  · simp only [OpenFiles.step,OpenFiles.read,h.contents_eq,got]
  · intro bs hbs
    rw [got] at hbs
    split at hbs
    · rename_i hlen
      rw [hlen]
    · cases hbs

/-- What the reads of a record at an offset lead to. -/
def recordReply (w : OpenFiles) (name : Text) (file : Files) (bytes : Bytes) (recno : ℤ) (off : ℕ) : Reply :=
  match got bytes off headerLength with
  | none => fail eRhRead
  | some header =>
    match got bytes (off+headerLength) (file.format (formatOf header)).rfLen with
    | none => fail eRecRead
    | some data =>
      match if (file.format (formatOf header)).hasBlob then (w.blobs name (formatOf header) recno).map (data ++ ·) else some data with
      | none => fail eNoBlob
      | some data =>
        answer (printed [data.length,longest file,formatOf header,recno,getLl (slice header 1 8),getLl (slice header 9 8)]) (some data)

theorem run_withBlobs (w : OpenFiles) (f : FileRef) (file : Files) (fmt : ℕ) (recno : ℤ) (data : Bytes) :
    run step (withBlobs f file fmt recno data) w =
      some (if (file.format fmt).hasBlob then (w.blobs (w.entry f).name fmt recno).map (data ++ ·) else some data,w) := by
  rw [withBlobs]
  split
  · rw [run_ask_bind rfl]
    cases w.blobs (w.entry f).name fmt recno with
    | none => rfl
    | some blobs => rfl
  · rfl

/-- A seek to a negative offset leaves the position. -/
def seeked (w : OpenFiles) (f : FileRef) (off : ℤ) : ℕ := if 0 ≤ off then off.toNat else (w.entry f).pos

theorem step_llseek (w : OpenFiles) (f : FileRef) (off : ℤ) : step w (.llseek f off) = some ((),w.moved f (seeked w f off)) := by
  simp only [OpenFiles.step,seeked]
  split
  · rfl
  · simp only [OpenFiles.moved,OpenFiles.set,Function.update_eq_self]

theorem run_releaseRecord (h : w.Holds f file bytes) (recno : ℤ) :
    ∃ pos,run step (releaseRecord f recno) w =
      some (recordReply w (w.entry f).name file bytes recno (seeked w f recno),w.moved f pos) := by
  obtain ⟨p,hread,hp⟩ := (h.moved (seeked w f recno)).read .header
  rw [OpenFiles.moved_moved,OpenFiles.pos_moved] at hread
  rw [OpenFiles.pos_moved] at hp
  rw [releaseRecord,run_ask_bind (by rfl),run_ask_bind (step_llseek w f recno),run_ask_bind hread]
  cases hheader : got bytes (seeked w f recno) Part.header.size with
  | none =>
    refine ⟨p,?_⟩
    simp only [recordReply,show got bytes (seeked w f recno) headerLength = none from hheader]
    rfl
  | some header =>
    have hdesc : step (w.moved f p) (.desc f) = some (some file,w.moved f p) := by
      simp only [OpenFiles.step,(h.moved p).desc]
    obtain ⟨q,hdata,-⟩ := (h.moved p).read (.data (file.format (formatOf header)).rfLen)
    rw [OpenFiles.moved_moved,OpenFiles.pos_moved] at hdata
    dsimp only
    rw [run_ask_bind hdesc]
    dsimp only [deref]
    rw [run_bind (run_pure file),run_ask_bind hdata]
    refine ⟨q,?_⟩
    rw [hp header hheader]
    simp only [recordReply,show got bytes (seeked w f recno) headerLength = some header from hheader]
    change run step _ _ = some (match got bytes (seeked w f recno+Part.header.size) (Part.data (file.format (formatOf header)).rfLen).size with
      | none => _
      | some data => _,_)
    cases got bytes (seeked w f recno+Part.header.size) (Part.data (file.format (formatOf header)).rfLen).size with
    | none => rfl
    | some data =>
      dsimp only
      rw [run_bind (run_withBlobs ..),OpenFiles.name_moved]
      have hblobs : (w.moved f q).blobs = w.blobs := rfl
      rw [hblobs]
      cases (if (file.format (formatOf header)).hasBlob then
        (w.blobs (w.entry f).name (formatOf header) recno).map (data ++ ·) else some data) with
      | none => rfl
      | some data => rfl

/-! ## Replies -/

/-- A reply about a record has its number, unless it is an error. -/
theorem recordReply_recno (w : OpenFiles) (name : Text) (file : Files) (bytes : Bytes) (recno : ℤ) (off : ℕ) :
    (recordReply w name file bytes recno off).code < 0 ∨
      ∃ len longest fmt prev next,(recordReply w name file bytes recno off).text = printed [len,longest,fmt,recno,prev,next] := by
  rw [recordReply]
  split
  · exact .inl (by decide)
  · split
    · exact .inl (by decide)
    · split
      · exact .inl (by decide)
      · exact .inr ⟨_,_,_,_,_,rfl⟩

theorem recordReply_head (h : HeadRecord w name file bytes) :
    recordReply w name file bytes (headOf file bytes) (headOf file bytes).toNat = headReply w name file bytes := by
  have hrecord := h.record
  have hheader : got bytes (headOf file bytes).toNat headerLength = some (headHeader file bytes) := got_eq (by omega)
  have hfmt : formatOf (headHeader file bytes) = headFormat file bytes := rfl
  simp only [recordReply,hheader,hfmt,got_eq hrecord,headReply,headData]
  cases hblob : (file.format (headFormat file bytes)).hasBlob with
  | false => simp only [Bool.false_eq_true,if_false,List.append_nil]
  | true =>
    obtain ⟨blobs,hblobs⟩ := Option.isSome_iff_exists.1 (h.blobs hblob)
    simp only [if_true,hblobs,Option.map_some,Option.getD_some]

theorem recordReply_congr {w' : OpenFiles} (h : w'.blobs = w.blobs) : recordReply w' = recordReply w := by
  funext name file bytes recno off
  simp only [recordReply,h]

theorem recordReply_eq_head {off : ℕ} (h : recordReply w name file bytes recno off = headReply w name file bytes) :
    recno = headOf file bytes := by
  rcases recordReply_recno w name file bytes recno off with hcode | ⟨len,longest,fmt,prev,next,htext⟩
  · rw [h,headReply,answer] at hcode
    exact absurd hcode (by simp)
  · rw [h,headReply,answer] at htext
    have hlist := printed_injective htext
    simp only [List.cons.injEq] at hlist
    exact hlist.2.2.2.1.symm

/-! ## The next work file -/

theorem OpenFiles.rmFile_find {other : Text} (h : (w.rmFile other).find name = some f) : w.find name = some f := by
  rw [OpenFiles.rmFile] at h
  split at h
  · exact h
  · split at h
    · change Function.update w.find other none name = some f at h
      by_cases hname : name = other
      · rw [hname,Function.update_self] at h
        cases h
      · rwa [Function.update_of_ne hname] at h
    · exact h

theorem OpenFiles.rmFile_entry (w : OpenFiles) (other : Text) (f : FileRef) :
    ((w.rmFile other).entry f).name = (w.entry f).name ∧ ((w.rmFile other).entry f).desc = (w.entry f).desc := by
  rw [OpenFiles.rmFile]
  split
  · exact ⟨rfl,rfl⟩
  · rename_i g hg
    split
    · exact ⟨rfl,rfl⟩
    · by_cases hf : f = g
      · subst hf
        rw [entry_set]
        exact ⟨rfl,rfl⟩
      · rw [entry_set_of_ne hf]
        exact ⟨rfl,rfl⟩

theorem OpenFiles.rmFile_disk (w : OpenFiles) (other : Text) : (w.rmFile other).disk = w.disk ∧ (w.rmFile other).blobs = w.blobs := by
  rw [OpenFiles.rmFile]
  split
  · exact ⟨rfl,rfl⟩
  · split
    · exact ⟨rfl,rfl⟩
    · exact ⟨rfl,rfl⟩

theorem OpenFiles.Ok.rmFile (h : w.Ok) (other : Text) : (w.rmFile other).Ok := by
  constructor
  · intro name f hfind
    rw [(w.rmFile_entry other f).1]
    exact h.named (rmFile_find hfind)
  · intro name f file hfind hdesc
    rw [(w.rmFile_entry other f).2] at hdesc
    rw [(w.rmFile_disk other).1]
    exact h.described (rmFile_find hfind) hdesc

theorem HeadRecord.rmFile (h : HeadRecord w name file bytes) (other : Text) : HeadRecord (w.rmFile other) name file bytes := by
  obtain ⟨hdisk,hblobs⟩ := w.rmFile_disk other
  refine ⟨?_,h.pointer,h.nonneg,h.record,?_⟩
  · rw [hdisk]
    exact h.stored
  · rw [hblobs]
    exact h.blobs

/-- The file has been opened for the work file, and its description read. -/
structure Opened (w w' : OpenFiles) (fno : ℕ) (name : Text) (file : Files) (bytes : Bytes) (f : FileRef) : Prop where
  holds : w'.Holds f file bytes
  slot : w'.wfiles fno = some f
  found : w'.find name = some f
  named : (w'.entry f).name = name
  blobs : w'.blobs = w.blobs
  head : AtHead w name ↔ (w'.entry f).pos+ptrLength ≤ bytes.length ∧
    getLl (slice bytes (w'.entry f).pos ptrLength) = headOf file bytes

/-- The work file, once it has been assigned. -/
def OpenFiles.assign (w : OpenFiles) (fno : ℕ) (f : FileRef) : OpenFiles :=
  { w with wfiles := Function.update w.wfiles fno (some f) }

/-- The description of a file that has none yet is read, and its descriptor is left behind the header. -/
theorem run_describe_first (hdesc : (w.entry f).desc = none) (hdisk : w.disk (w.entry f).name = some (file,bytes)) :
    run step (describe f) w = some (.ok file,w.set f { w.entry f with desc := some file,pos := file.hlen+2 }) := by
  have hstep : step w (.desc f) = some (none,w) := by simp only [OpenFiles.step,hdesc]
  have hget : step w (.getDatafileDesc f) = some (.ok file,w.set f { w.entry f with desc := some file,pos := file.hlen+2 }) := by
    simp only [OpenFiles.step,OpenFiles.getDatafileDesc,hdisk]
  rw [describe,run_ask_bind hstep]
  exact run_ask hget

theorem run_describe_again (hdesc : (w.entry f).desc = some file) : run step (describe f) w = some (.ok file,w) := by
  have hstep : step w (.desc f) = some (some file,w) := by simp only [OpenFiles.step,hdesc]
  rw [describe,run_ask_bind hstep]
  rfl

/-- A descriptor behind the header stands at the pointer to the first record. -/
theorem opened_first {w' : OpenFiles} {e : OpenFile} (h : HeadRecord w name file bytes) (hhead : AtHead w name) (hname : e.name = name)
    (hdisk : w'.disk = w.disk) (hblobs : w'.blobs = w.blobs) (hfind : w'.find name = some f) (hslot : w'.wfiles fno = some f) :
    Opened w (w'.set f { e with desc := some file,pos := file.hlen+2 }) fno name file bytes f := by
  refine ⟨⟨?_,?_⟩,hslot,hfind,?_,hblobs,?_⟩
  · rw [OpenFiles.entry_set]
  · rw [OpenFiles.entry_set]
    change w'.disk e.name = _
    rw [hdisk,hname]
    exact h.stored
  · rw [OpenFiles.entry_set]
    exact hname
  · rw [OpenFiles.entry_set]
    exact ⟨fun _ => ⟨h.pointer,rfl⟩,fun _ => hhead⟩

theorem run_describe (hok : w.Ok) (h : HeadRecord w name file bytes) (fno : ℕ) :
    ∃ w',run step (describe (w.getFile name).1) ((w.getFile name).2.assign fno (w.getFile name).1) = some (.ok file,w') ∧
      Opened w w' fno name file bytes (w.getFile name).1 := by
  rw [OpenFiles.getFile]
  cases hfind : w.find name with
  | none =>
    let w1 : OpenFiles := { w with
      find := Function.update w.find name (some w.next)
      entry := Function.update w.entry w.next { name := name }
      next := w.next+1 }
    have hentry : (w1.assign fno w.next).entry w.next = { name := name } := Function.update_self ..
    have hhead : AtHead w name := by
      intro f file hf
      rw [hfind] at hf
      cases hf
    refine ⟨_,run_describe_first (w := w1.assign fno w.next) (by rw [hentry]) (by rw [hentry]; exact h.stored),?_⟩
    exact opened_first h hhead (by rw [hentry]) rfl rfl (Function.update_self ..) (Function.update_self ..)
  | some f =>
    let w1 := w.set f { w.entry f with refs := (w.entry f).refs+1 }
    have hentry : (w1.assign fno f).entry f = { w.entry f with refs := (w.entry f).refs+1 } := Function.update_self ..
    have hname := hok.named hfind
    have hstored : (w1.assign fno f).disk ((w1.assign fno f).entry f).name = some (file,bytes) := by
      rw [hentry]
      change w.disk (w.entry f).name = _
      rw [hname]
      exact h.stored
    cases hdesc : (w.entry f).desc with
    | none =>
      have hhead : AtHead w name := by
        intro g file' hg hfile
        rw [hfind] at hg
        rw [← Option.some.inj hg,hdesc] at hfile
        cases hfile
      refine ⟨_,run_describe_first (w := w1.assign fno f) (by rw [hentry]; exact hdesc) hstored,?_⟩
      exact opened_first h hhead (by rw [hentry]; exact hname) rfl rfl hfind (Function.update_self ..)
    | some file' =>
      obtain ⟨bytes',hdisk⟩ := hok.described hfind hdesc
      rw [h.stored] at hdisk
      obtain ⟨rfl,rfl⟩ := Prod.mk.inj (Option.some.inj hdisk)
      refine ⟨_,run_describe_again (w := w1.assign fno f) (by rw [hentry]; exact hdesc),?_⟩
      have hholds : w.Holds f file bytes := ⟨hdesc,by rw [hname]; exact h.stored⟩
      refine ⟨⟨by rw [hentry]; exact hdesc,hstored⟩,Function.update_self ..,hfind,by rw [hentry]; exact hname,rfl,?_⟩
      rw [hentry]
      constructor
      · intro hhead
        have hat := hhead f file hfind hdesc
        rwa [hholds.contents_eq] at hat
      · intro hat g file' hg hfile
        rw [hfind] at hg
        obtain rfl := Option.some.inj hg
        rw [hdesc] at hfile
        obtain rfl := Option.some.inj hfile
        rwa [hholds.contents_eq]

theorem run_releaseFile (hok : w.Ok) (h : HeadRecord w name file bytes) (f : FileRef) (fno : ℕ) :
    ∃ reply w',run step (releaseFile fno f name) w = some (reply,w') ∧ w'.Refers fno name ∧
      (reply = headReply w name file bytes ↔ AtHead (w.rmFile (w.entry f).name) name) := by
  obtain ⟨w3,hdescribe,hopen⟩ := run_describe (hok.rmFile (w.entry f).name) (h.rmFile (w.entry f).name) fno
  have hblobs : w3.blobs = w.blobs := hopen.blobs.trans (w.rmFile_disk _).2
  have hget : step (w.rmFile (w.entry f).name) (.getFile name) =
    some (((w.rmFile (w.entry f).name).getFile name).1,((w.rmFile (w.entry f).name).getFile name).2) := rfl
  have hset : step ((w.rmFile (w.entry f).name).getFile name).2 (.setWfile fno (some ((w.rmFile (w.entry f).name).getFile name).1)) =
    some ((),((w.rmFile (w.entry f).name).getFile name).2.assign fno ((w.rmFile (w.entry f).name).getFile name).1) := rfl
  rw [releaseFile,run_ask_bind (by rfl),run_ask_bind (by rfl),run_ask_bind (by rfl),run_ask_bind hget,run_ask_bind hset,
    run_bind hdescribe]
  generalize ((w.rmFile (w.entry f).name).getFile name).1 = g at hopen
  obtain ⟨p,hread,-⟩ := hopen.holds.read .pointer
  have hrefers : ∀ q,(w3.moved g q).Refers fno name := by
    intro q
    refine ⟨g,hopen.slot,hopen.found,?_⟩
    rw [OpenFiles.name_moved]
    exact hopen.named
  rw [hopen.head]
  dsimp only
  rw [run_ask_bind hread]
  cases hpointer : got bytes (w3.entry g).pos Part.pointer.size with
  | none =>
    refine ⟨fail eRhRead,w3.moved g p,rfl,hrefers p,?_,?_⟩
    · intro h
      exact absurd (congrArg Reply.code h) (by simp [fail,headReply,answer,eRhRead])
    · intro h
      rw [show got bytes (w3.entry g).pos Part.pointer.size = _ from got_eq h.1] at hpointer
      cases hpointer
  | some path =>
    obtain ⟨hle,rfl⟩ := le_of_got (by decide) hpointer
    obtain ⟨q,hrecord⟩ := run_releaseRecord (hopen.holds.moved p) (getLl (slice bytes (w3.entry g).pos Part.pointer.size))
    dsimp only
    rw [run_ask_bind (by rfl),run_bind hrecord,OpenFiles.name_moved,hopen.named,OpenFiles.moved_moved,
      recordReply_congr (show (w3.moved g p).blobs = w.blobs from hblobs)]
    refine ⟨_,w3.moved g q,rfl,hrefers q,?_,?_⟩
    · intro hreply
      exact ⟨hle,recordReply_eq_head hreply⟩
    · intro hat
      have hhead : getLl (slice bytes (w3.entry g).pos Part.pointer.size) = headOf file bytes := hat.2
      rw [hhead,seeked,if_pos h.nonneg]
      exact recordReply_head h

/-- RELEASE with the name of the next file makes the work file refer to it, and answers with its first record
exactly if its descriptor, once the old work file is let go, is not left at another place. -/
theorem release_head_iff (hok : w.Ok) (hasks : Asks text fno name) (hslot : w.wfiles fno = some f)
    (h : HeadRecord w name file bytes) :
    ∃ reply w',run step (release text) w = some (reply,w') ∧ w'.Refers fno name ∧
      (reply = headReply w name file bytes ↔ AtHead (w.rmFile (w.entry f).name) name) := by
  obtain ⟨cptr,rest,tail,hcptr,hzero,hrest,hname⟩ := hasks.fields
  have hbound := hasks.bound
  have hfno : atoi text - 1 = fno := by
    rw [hasks.number]
    omega
  have hrange : ¬ ((fno : ℤ) < 0 ∨ (maxConns : ℤ) ≤ fno) := by omega
  have hnat : (atoi text - 1).toNat = fno := by rw [hfno,Int.toNat_natCast]
  have hwfile : step w (.wfile (atoi text - 1).toNat) = some (some f,w) := by simp only [OpenFiles.step,hnat,hslot]
  rw [release,if_neg (by rw [hfno]; exact hrange)]
  simp only [hcptr]
  rw [run_ask_bind hwfile]
  simp only [hrest,if_pos hzero,hname,hnat]
  exact run_releaseFile hok h f fno

/-! ## A file two sessions use -/

theorem single_le_formats : [(⟨1,false⟩ : Format)].length ≤ 63 := by decide

def singleFile : Files := ⟨8,[⟨1,false⟩],single_le_formats⟩

/-- One format of one field, and one record. -/
def singleBytes : Bytes := [0,8,0,1,0,1,0,1,0,1]++putLl 18++([1]++putLl 0++putLl 0++[65])

/-- The first work file is "a"; the file "b" is the second one, with its descriptor at a position. -/
def shared (pos : ℕ) : OpenFiles where
  disk name := if name = [98] then some (singleFile,singleBytes) else none
  blobs _ _ _ := none
  find name := if name = [97] then some 0 else if name = [98] then some 1 else none
  entry f := if f = 0 then { name := [97] } else { name := [98],desc := some singleFile,pos := pos }
  next := 2
  wfiles j := if j = 0 then some 0 else if j = 1 then some 1 else none

/-- RELEASE of the first work file, with "b" as the next file. -/
def nextIsB : Text := [49,bar,48,bar,98,bar]

theorem shared_ok (pos : ℕ) : (shared pos).Ok := by
  constructor
  · intro name f h
    simp only [shared] at h ⊢
    split at h
    · rename_i hname
      rw [← Option.some.inj h,hname]
      rfl
    · split at h
      · rename_i hname
        rw [← Option.some.inj h,hname]
        rfl
      · cases h
  · intro name f file h hdesc
    simp only [shared] at h hdesc ⊢
    split at h
    · rw [← Option.some.inj h] at hdesc
      cases hdesc
    · split at h
      · rename_i hname
        rw [← Option.some.inj h] at hdesc
        exact ⟨singleBytes,by rw [if_pos hname,← Option.some.inj hdesc]⟩
      · cases h

theorem nextIsB_asks : Asks nextIsB 0 [98] := by
  refine ⟨by decide +kernel,by decide,[48,bar,98,bar],[98,bar],[],?_⟩
  decide +kernel

theorem shared_head (pos : ℕ) : HeadRecord (shared pos) [98] singleFile singleBytes :=
  ⟨rfl,by decide +kernel,by decide +kernel,by decide +kernel,fun hblob => absurd hblob (by decide +kernel)⟩

theorem release_head_iff_shared :
    ∃ reply w',run step (release nextIsB) (shared 10) = some (reply,w') ∧ w'.Refers 0 [98] ∧
      (reply = headReply (shared 10) [98] singleFile singleBytes ↔ AtHead ((shared 10).rmFile [97]) [98]) :=
  release_head_iff (shared_ok 10) nextIsB_asks rfl (shared_head 10)

/-- The descriptor of "b" is at its end, since the other session has read its record. -/
theorem release_at_end :
    (shared 36).Ok ∧ Asks nextIsB 0 [98] ∧ HeadRecord (shared 36) [98] singleFile singleBytes ∧
      (run step (release nextIsB) (shared 36)).map Prod.fst = some (fail eRhRead) ∧
      (run step (release nextIsB) (shared 10)).map Prod.fst = some (headReply (shared 36) [98] singleFile singleBytes) := by
  refine ⟨shared_ok 36,nextIsB_asks,shared_head 36,?_,?_⟩
  · decide +kernel
  · decide +kernel

end Dataman.Server

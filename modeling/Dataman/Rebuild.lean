import Dataman.BlobImages

/-!
# Rebuilding a data file (`rebuild.c`)

`rebuild` copies the chain of a data file, in its order, into a new file that takes the place of the
old one. A record that gets another offset takes its blobs along. Each blob is copied to its new name
with `$new` behind it, and the old one gets `$tmp` behind its name. A list remembers what was done, and
is replayed at the end or after a failure.
-/

namespace Dataman.Rebuild
open ByteFiles Directories FixedWidthFields FieldText Blobs
open DataFile (getLl putLl headerLength)

/-! ## Names -/

/-- The place of a blob, by format, offset and field. -/
structure Slot where
  fmt : ℕ
  recno : ℤ
  fno : ℕ
deriving DecidableEq,Repr

inductive Kind
  | blob
  | tmp
  | new
deriving DecidableEq,Repr

/-- What stands behind the name: nothing, `$tmp` or `$new`. -/
def Kind.ending : Kind → Text
  | blob => []
  | tmp => [36,116,109,112]
  | new => [36,110,101,119]

/-- `%lld` -/
def printed : ℤ → Text
  | .ofNat n => decimal n
  | .negSucc n => minus::decimal (n+1)

/-- `%s.%d.%lld.%d` and the ending. -/
def nameOf (file : Text) (kind : Kind) (s : Slot) : Text :=
  file++dot::(decimal s.fmt++dot::(printed s.recno++dot::(decimal s.fno++kind.ending)))

/-! ## `copy_file` -/

/-- Which of the calls of `copy_file` succeed. -/
structure CopyCalls where
  openSrc : Bool
  openDest : Bool
  mmap : Bool
  write : Bool
deriving DecidableEq,Repr

/-- Whether the file is copied, and the directory. What is left of a copy that failed is removed, unless
it was there before. No pages can be mapped for an empty file. -/
def copyFile (calls : CopyCalls) (src dest : Text) (dir : Dir Text Bytes) : Bool × Dir Text Bytes :=
  match dir src with
  | none => (false,remove dir dest)
  | some data =>
    if !calls.openSrc then (false,remove dir dest)
    else if dir dest≠none then (false,dir)
    else if !calls.openDest || data.length = 0 || !calls.mmap || !calls.write then (false,remove dir dest)
    else (true,put dir dest data)

/-! ## `rebuild` -/

/-- The open data file. `get_short` turns the description around when it is read and when it is written
again, so that its bytes are those of the file. -/
structure Source where
  filename : Text
  hlen : ℕ
  desc : Bytes
  formats : List RFDesc
  formats_le : formats.length ≤ 63
  bytes : Bytes

/-- `record_desc[*buff-1]` -/
def Source.format (src : Source) (flag : ℕ) : Option RFDesc := if flag = 0 then none else src.formats[flag - 1]?

inductive Written
  | all
  /-- Fewer bytes. -/
  | short
  /-- The result is -1. -/
  | error
deriving DecidableEq,Repr

/-- What the calls for one record give. -/
structure Turn where
  header : Bool
  copy : ℕ → CopyCalls
  record : Bool
  write : Bool

structure Calls where
  headerLength : Written
  description : Written
  pointers : Written
  first : Bool
  second : Bool
  turn : ℕ → Turn

structure Mapping where
  old : ℤ
  new : ℤ
  fno : ℕ
deriving DecidableEq,Repr

/-- The temporary file, the position in the source, the blobs, the list, and `fmt`, which is not set
before the first record that has blobs and moves. -/
structure State where
  out : Bytes
  pos : ℕ
  blobs : Dir Text Bytes
  maps : List Mapping
  fmt : ℕ

/-- The message before the exit. -/
inductive Failure
  | headerLength
  | header
  | initialPointers
  | firstRecordPos
  | firstRecordPosition
  | recordHeader
  | backUpBlob
  | readRecord
  | writeRecord
deriving DecidableEq,Repr

inductive Stop
  /-- `goto fail` -/
  | fail (e : Failure)
  /-- A format that is not in the description. -/
  | outside
  /-- More turns than were given. -/
  | running
deriving DecidableEq,Repr

abbrev RebuildM := FailState State Stop

/-- A negative offset is refused, and the position stays. -/
def seek (off : ℤ) : RebuildM Unit :=
  .modify fun s => if 0 ≤ off then { s with pos := off.toNat } else s

def readNext (src : Source) (ok : Bool) (n : ℕ) (e : Failure) : RebuildM Bytes := do
  let s ← .get
  let bytes ← .ofOption (if ok then readAt src.bytes s.pos n else none) (.fail e)
  .modify fun s => { s with pos := s.pos+n }
  return bytes

def writeOut (data : Bytes) : RebuildM Unit := .modify fun s => { s with out := s.out++data }

/-- One blob of a record that moves. -/
def backUp (file : Text) (copy : ℕ → CopyCalls) (fmt : ℕ) (seekpt curr : ℤ) (fno : ℕ) : RebuildM Unit := do
  let s ← .get
  let oldName := nameOf file .blob ⟨fmt,seekpt,fno⟩
  if s.blobs oldName = none then pure ()
  else do
    let copied := copyFile (copy fno) oldName (nameOf file .new ⟨fmt,curr,fno⟩) s.blobs
    .modify fun s => { s with maps := s.maps++[⟨seekpt,curr,fno⟩],blobs := copied.2 }
    .ensure copied.1 (.fail .backUpBlob)
    .modify fun s => { s with blobs := rename s.blobs oldName (nameOf file .tmp ⟨fmt,seekpt,fno⟩) }

structure Place where
  prev : ℤ
  curr : ℤ
  seekpt : ℤ
deriving DecidableEq,Repr

/-- The blobs of the record at `seekpt`. -/
def backUpAll (src : Source) (copy : ℕ → CopyCalls) (fmt : ℕ) (rptr : RFDesc) (p : Place) : RebuildM Unit :=
  if p.seekpt≠p.curr ∧ rptr.hasBlob≠0 then do
    .modify fun s => { s with fmt := fmt }
    walkFields (pure ()) (fun fno _ => backUp src.filename copy fmt p.seekpt p.curr fno) rptr.hasBlob rptr.fieldSizes 0 ()
  else pure ()

/-- One record. -/
def turn (src : Source) (calls : Turn) (p : Place) : RebuildM Place := do
  seek p.seekpt
  let buff ← readNext src calls.header headerLength .recordHeader
  let rptr ← .ofOption (src.format (buff.headD 0).toNat) .outside
  backUpAll src calls.copy (buff.headD 0).toNat rptr p
  let seekpt := getLl (slice buff 9 8)
  let next := if seekpt = 0 then 0 else p.curr+rptr.rfLen+headerLength
  let data ← readNext src calls.record rptr.rfLen .readRecord
  .ensure calls.write (.fail .writeRecord)
  writeOut (buff.headD 0::putLl p.prev++putLl next++data)
  return ⟨p.curr,next,seekpt⟩

/-- `while (seekpt)`, from the record of this number on. -/
def loop (src : Source) (turns : ℕ → Turn) : ℕ → ℕ → Place → RebuildM Unit
  | 0,_,p => if p.seekpt = 0 then pure () else .fail .running
  | fuel+1,i,p =>
    if p.seekpt = 0 then pure ()
    else do
      let p ← turn src (turns i) p
      loop src turns fuel (i+1) p

/-- The offset of the first record in the new file. -/
def Source.start (src : Source) : ℕ := src.hlen+2+16

/-- The result of the first and of the third write is compared as an unsigned number, so that -1 is not
seen there. -/
def copyRecords (src : Source) (calls : Calls) (fuel : ℕ) : RebuildM Unit := do
  .ensure (calls.headerLength≠.short) (.fail .headerLength)
  writeOut (if calls.headerLength = .all then putBE 2 src.hlen else [])
  .ensure (calls.description = .all) (.fail .header)
  writeOut src.desc
  .ensure (calls.pointers≠.short) (.fail .initialPointers)
  writeOut (if calls.pointers = .all then putLl src.start++putLl src.start else [])
  seek (src.hlen+2)
  let _ ← readNext src calls.first 8 .firstRecordPos
  let second ← readNext src calls.second 8 .firstRecordPosition
  loop src calls.turn fuel 0 ⟨0,src.start,getLl second⟩

/-- The list is replayed at the end. -/
def finish (file : Text) (fmt : ℕ) (maps : List Mapping) (dir : Dir Text Bytes) : Dir Text Bytes :=
  maps.foldl (fun dir m =>
    rename (remove dir (nameOf file .tmp ⟨fmt,m.old,m.fno⟩))
      (nameOf file .new ⟨fmt,m.new,m.fno⟩) (nameOf file .blob ⟨fmt,m.new,m.fno⟩)) dir

/-- The list is replayed after a failure. -/
def restore (file : Text) (fmt : ℕ) (maps : List Mapping) (dir : Dir Text Bytes) : Dir Text Bytes :=
  maps.foldl (fun dir m => rename dir (nameOf file .tmp ⟨fmt,m.old,m.fno⟩) (nameOf file .blob ⟨fmt,m.old,m.fno⟩)) dir

/-- How `rebuild` ended, the data file and the blobs. -/
structure Result where
  stopped : Option Stop
  bytes : Bytes
  blobs : Dir Text Bytes

/-- `rebuild`; `uninit` is what `fmt` has before it is set. -/
def rebuild (src : Source) (calls : Calls) (fuel uninit : ℕ) (dir : Dir Text Bytes) : Result :=
  match copyRecords src calls fuel ⟨[],0,dir,[],uninit⟩ with
  | (.ok _,s) => ⟨none,s.out,finish src.filename s.fmt s.maps s.blobs⟩
  | (.error (.fail e),s) => ⟨some (.fail e),src.bytes,restore src.filename s.fmt s.maps s.blobs⟩
  | (.error e,s) => ⟨some e,src.bytes,s.blobs⟩

end Dataman.Rebuild

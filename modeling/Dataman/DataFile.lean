import Dataman.FailState
import Dataman.FixedWidthFields

/-!
# Record mutation in data files

A record is a flag byte, the offsets of the records before and behind it, and its data.
The handlers keep the error paths of the source: a write that fails is followed by the
writes that take the earlier ones back.
-/

namespace Dataman.DataFile
open ByteFiles FixedWidthFields

structure Format where
  rfLen : ℕ
  hasBlob : Bool
  deriving DecidableEq,Repr,Inhabited

/-- An open data file. `mkdf` accepts at most 63 record formats. -/
structure Files where
  hlen : ℕ
  formats : List Format
  formats_le : formats.length ≤ 63

/-- The description of a record format; formats are counted from 1. -/
def Files.format (file : Files) (fmt : ℕ) : Format := file.formats.getD (fmt - 1) default

/-- The length of the longest record. -/
def longest (file : Files) : ℕ := (file.formats.map (·.rfLen)).foldl max 0

inductive Code
  | badFmt | rhRead | noRec | hdrWrt | multiple | recWrt | begWrt | noDel | recRead
  | blob (code : ℤ)
  deriving DecidableEq,Repr

/-- The codes that report a read or a write that failed. -/
def Code.io : Code → Bool
  | rhRead | hdrWrt | multiple | recWrt | begWrt | recRead | blob _ => true
  | badFmt | noRec | noDel => false

/-- The file with the position of its descriptor, and which of the coming reads and writes fail. -/
structure Disk where
  bytes : Bytes
  pos : ℕ := 0
  failures : List Bool := []
  deriving DecidableEq,Repr

abbrev DiskM := FailState Disk Code

def int64Max : ℕ := 2 ^ 63 - 1
def offsetToPrev : ℤ := 1
def offsetToNext : ℤ := 9
def headerLength : ℕ := 17

def getLl (bs : Bytes) : ℤ := (BitVec.ofNat 64 (getBE bs)).toInt
def putLl (v : ℤ) : Bytes := putBE 8 (v % 2 ^ 64).toNat

def deleted (flag : UInt8) : Bool := 128 ≤ flag.toNat

/-! ## Input and output -/

/-- A negative offset is refused and the position stays; the handlers do not look. -/
def llseek (off : ℤ) : DiskM Unit :=
  .modify fun d => if 0 ≤ off then { d with pos := off.toNat } else d

def seekEnd : DiskM ℤ := fun d => (.ok d.bytes.length,{ d with pos := d.bytes.length })

/-- All of the next `n` bytes, or nothing. -/
def tryRead (n : ℕ) : DiskM (Option Bytes) := fun d =>
  if d.failures.headD false then (.ok none,{ d with failures := d.failures.tail })
  else
    let bs := slice d.bytes d.pos n
    (.ok (if bs.length = n then some bs else none),
      { d with pos := d.pos+bs.length,failures := d.failures.tail })

def read (n : ℕ) (code : Code) : DiskM Bytes := do
  let bs ← tryRead n
  .ofOption bs code

/-- Returns whether the write took place. -/
def mutateAt (data : Bytes) (off : ℤ) : DiskM Bool := fun d =>
  if off < 0 ∨ (int64Max : ℤ) < off+data.length then (.ok false,d)
  else if d.failures.headD false then (.ok false,{ d with failures := d.failures.tail })
  else (.ok true,{ d with bytes := writeAt d.bytes off.toNat data,failures := d.failures.tail })

def putPtr (v off : ℤ) : DiskM Bool := mutateAt (putLl v) off

/-- A pointer write that is made under a condition, with what follows when it fails. -/
def putPtrElse (cond : Bool) (v off : ℤ) (otherwise : DiskM Unit) : DiskM Unit :=
  if cond then do
    let ok ← putPtr v off
    if ok then pure () else otherwise
  else pure ()

/-! ## Insert -/

structure Neighbours where
  bof : ℤ
  prev : ℤ
  next : ℤ
  deriving DecidableEq,Repr

/-- Point the neighbours at the new record. A mode other than BEFORE and AFTER points nobody. -/
def relink (mode mCur mPrev mNext mNew : ℤ) : DiskM Neighbours :=
  if mode = 0 then do
    putPtrElse true mNew (mCur+offsetToPrev) (.fail .hdrWrt)
    putPtrElse (mPrev≠0) mNew (mPrev+offsetToNext) do
      let back ← putPtr mPrev (mCur+offsetToPrev)
      .fail (if back then .hdrWrt else .multiple)
    return ⟨if mPrev≠0 then 0 else mNew,mPrev,mCur⟩
  else if mode = 1 then do
    putPtrElse true mNew (mCur+offsetToNext) (.fail .hdrWrt)
    putPtrElse (mNext≠0) mNew (mNext+offsetToPrev) do
      let back ← putPtr mNext (mCur+offsetToNext)
      .fail (if back then .hdrWrt else .multiple)
    return ⟨0,mCur,mNext⟩
  else return ⟨0,mPrev,mNext⟩

def recordBytes (fmt : ℤ) (prev next : ℤ) (len : ℕ) : Bytes :=
  UInt8.ofNat (fmt % 256).toNat::putLl prev++putLl next++List.replicate len 0x20

/-- Returns the length and the offset of the new record. -/
def insert (file : Files) (fmt mode mCur : ℤ) : DiskM (ℕ × ℤ) := do
  .ensure (decide (fmt ≤ file.formats.length ∧ 1 ≤ fmt)) .badFmt
  llseek mCur
  let header ← read headerLength .rhRead
  .ensure (!deleted (header.headD 0)) .noRec
  let mNew ← seekEnd
  let n ← relink mode mCur (getLl (slice header 1 8)) (getLl (slice header 9 8)) mNew
  let mLen := (file.format fmt.toNat).rfLen
  let ok ← mutateAt (recordBytes fmt n.prev n.next mLen) mNew
  .ensure ok .recWrt
  putPtrElse (n.bof≠0) mNew (file.hlen+2) (.fail .begWrt)
  return (mLen,mNew)

/-! ## Delete -/

inductive Mode
  | noXact | xact | inCommit | cleanup
  deriving DecidableEq,Repr

/-- The results of `blob_ctl` and `get_blobs`, which work on the files of the blobs. -/
structure Blobs where
  blobCtl : ℕ → ℤ → Mode → ℤ
  getBlobs : ℕ → ℤ → ℤ

inductive Reply
  | done (i : ℤ)
  | record (len recno : ℤ) (fmt : ℕ) (data : Bytes)
  deriving DecidableEq,Repr

/-- What a deletion knows of the record: its format, its offset and its links. -/
structure Victim where
  fmt : ℕ
  cur : ℤ
  prev : ℤ
  next : ℤ
  deriving DecidableEq,Repr

/-- The error labels `err_4` to `err_1`, entered at the given one. -/
def putBack {α : Type} (file : Files) (v : Victim) (bof : ℤ) (label : ℕ) (code : Code) : DiskM α := do
  putPtrElse (4 ≤ label && bof≠0) v.cur (file.hlen+2) (.fail .multiple)
  putPtrElse (3 ≤ label && v.prev≠0) v.cur (v.prev+offsetToNext) (.fail .multiple)
  putPtrElse (2 ≤ label && v.next≠0) v.cur (v.next+offsetToPrev) (.fail .multiple)
  let ok ← mutateAt [UInt8.ofNat v.fmt] v.cur
  .fail (if ok then code else .multiple)

/-- Mark the record and link its neighbours. Returns the new first record, or 0. -/
def unlink (file : Files) (v : Victim) : DiskM ℤ := do
  let ok ← mutateAt [UInt8.ofNat (v.fmt+128)] v.cur
  .ensure ok .hdrWrt
  putPtrElse (v.next≠0) v.prev (v.next+offsetToPrev) (putBack file v 0 1 .hdrWrt)
  putPtrElse (v.prev≠0) v.next (v.prev+offsetToNext) (putBack file v 0 2 .hdrWrt)
  let bof := if v.next≠0 ∧ v.prev = 0 then v.next else 0
  putPtrElse (bof≠0) bof (file.hlen+2) (putBack file v bof 3 .begWrt)
  return bof

/-- The value, or what follows when there is none. -/
def orElse {α : Type} (o : Option α) (otherwise : DiskM α) : DiskM α :=
  match o with
  | some a => pure a
  | none => otherwise

/-- The record that the client gets instead. From the second read on, `m_fmt` is its format. -/
def readReply (file : Files) (blobs : Blobs) (v : Victim) (bof recno : ℤ) : DiskM Reply := do
  llseek recno
  let header ← tryRead headerLength
  let header ← orElse header (putBack file v bof 4 .rhRead)
  let fmt := (header.headD 0).toNat
  let desc := file.format fmt
  let data ← tryRead desc.rfLen
  let data ← orElse data (putBack file { v with fmt := fmt } bof 4 .recRead)
  if desc.hasBlob then
    if blobs.getBlobs fmt recno < 0 then putBack file { v with fmt := fmt } bof 4 (.blob (blobs.getBlobs fmt recno))
    else return .record (blobs.getBlobs fmt recno) recno fmt data
  else return .record desc.rfLen recno fmt data

/-- The record whose data is returned: the next one, or the previous one at the end of the chain. -/
def successor (v : Victim) : ℤ :=
  if v.next≠0 then v.next else if v.prev≠0 ∧ v.cur≠v.next then v.prev else v.cur

/-- `bof` is not set outside a deletion; `uninit` stands for its value there. A clean-up that has no blobs
to remove returns the number of the file. -/
def finishDelete (file : Files) (blobs : Blobs) (fileno : ℤ) (mode : Mode) (uninit : ℤ) (v : Victim) : DiskM Reply :=
  match mode with
  | .noXact => do
    let bof ← unlink file v
    readReply file blobs v bof (successor v)
  | .inCommit => do
    let _ ← unlink file v
    return .done 0
  | .xact => readReply file blobs v uninit (if v.next = 0 then v.prev else v.next)
  | .cleanup => return .done fileno

def delete (file : Files) (blobs : Blobs) (fileno recno : ℤ) (mode : Mode) (uninit : ℤ) : DiskM Reply := do
  llseek recno
  let buff ← read headerLength .rhRead
  .ensure (!deleted (buff.headD 0) || mode = .cleanup) .noRec
  let v : Victim := ⟨(buff.headD 0).toNat % 128,recno,getLl (slice buff 1 8),getLl (slice buff 9 8)⟩
  .ensure (decide (¬ (v.next = 0 ∧ v.prev = 0))) .noDel
  if mode≠.xact ∧ (file.format v.fmt).hasBlob then
    if blobs.blobCtl v.fmt recno mode < 0 then .fail (.blob (blobs.blobCtl v.fmt recno mode))
    else if mode = .cleanup then return .done 0
    else finishDelete file blobs fileno mode uninit v
  else finishDelete file blobs fileno mode uninit v

end Dataman.DataFile

import Dataman.DataFile
import Dataman.IndexCursors
import Dataman.IndexReachable

/-!
# Lookups

The GET family and RESTORE (`get.c`, `get_first.c`, `get_last.c`, `get_next.c`,
`get_prior.c`, `get_current.c`, `restore.c`): they find an entry, read its record with
`upd_idx`, and drop the entry with `rm_key` when `upd_idx` answers 0.
-/

namespace Dataman.Lookups
open IndexFile DataFile

def eNoAlloc : ℤ := -11
def eRhRead : ℤ := -13
def eRecRead : ℤ := -14
def eRmKey : ℤ := -15
def eBadFmt : ℤ := -18
def eInvMsg : ℤ := -39

/-- A data file of an index; there is no description before its first use. -/
structure Member where
  disk : Disk
  file : Option Files

/-- The index file, and `_files`. -/
structure Database where
  index : Bytes
  files : List (Option Member)

/-- A negative code. -/
structure Failure where
  code : ℤ
  negative : code < 0

/-- How the calls of one round go: `get_datafile_desc`, `malloc`, `get_blobs` and
`dm_tx_track_index`. -/
structure Calls where
  desc : Except Failure Files
  alloc : Bool
  blobs : ℤ
  track : Bool

inductive Reply
  | code (ret : ℤ)
  | record (len : ℤ) (fmt : ℕ) (entry : Found) (rec : ℕ) (data : Bytes)
  /-- The loop goes on. -/
  | searching
deriving DecidableEq,Repr

/-! ## Records -/

/-- A record number as an offset. -/
def offset (rec : ℕ) : ℤ := (BitVec.ofNat 64 rec).toInt

/-- 0 for a deleted record, or the format in the flag byte. -/
def checkRec (rec : ℕ) (d : Disk) : ℤ × Disk :=
  let out := tryRead headerLength (llseek (offset rec) d).2
  match out.1 with
  | .ok (some name) =>
    let flag := name.headD 0
    if deleted flag then (0,out.2) else (flag.toNat,out.2)
  | _ => (eRhRead,out.2)

/-- `upd_idx` behind `check_rec`, for a format that is not 0. -/
def readData (calls : Calls) (file : Files) (fmt : ℕ) (entry : Found) (rec : ℕ) (d : Disk) : Reply × Disk :=
  if file.formats.length < fmt then (.code eBadFmt,d)
  else
    let len := (file.format fmt).rfLen
    if len < 1 ∨ longest file < len then (.code eBadFmt,d)
    else if ¬ calls.alloc then (.code eNoAlloc,d)
    else
      let out := tryRead len d
      match out.1 with
      | .ok (some data) =>
        if (file.format fmt).hasBlob then
          if calls.blobs < 0 then (.code calls.blobs,out.2) else (.record calls.blobs fmt entry rec data,out.2)
        else (.record len fmt entry rec data,out.2)
      | _ => (.code eRecRead,out.2)

/-- The answer about the record `rec` of the data file that the entry names. -/
def updIdx (calls : Calls) (entry : Found) (rec : ℕ) (files : List (Option Member)) :
    Reply × List (Option Member) :=
  if files.length ≤ entry.fileId ∨ 255 ≤ entry.fileId then (.code eInvMsg,files)
  else
    match files.getD entry.fileId none with
    | none => (.code eInvMsg,files)
    | some data =>
      match data.file.elim calls.desc .ok with
      | .error failure => (.code failure.code,files)
      | .ok file =>
        -- a file that is opened here has been read up to the end of its description
        let disk := if data.file.isSome then data.disk else { data.disk with pos := file.hlen+2 }
        let checked := checkRec rec disk
        let out := if checked.1 ≤ 0 then (.code checked.1,checked.2)
          else readData calls file checked.1.toNat entry rec checked.2
        (out.1,files.set entry.fileId (some { disk := out.2,file := some file }))

/-! ## Entries -/

/-- The index file after the entry is taken out of it, if it is there. There is no result if a
write fails. -/
def rmKey (track : Bool) (entry : Found) (f : Bytes) : Option Bytes :=
  match indexV2FindExact f entry.key entry.fileId entry.recordOffset with
  | none => some f
  | some found =>
    if ¬ track then some f
    else
      let out := IndexFile.Request.run (.remove ⟨found.key,found.fileId,found.recordOffset⟩) { bytes := f }
      if out.1 = .error .io then none else some out.2.bytes

/-- Ask for the record `rec` of an entry; the entry goes if the answer is 0. -/
def round (calls : Calls) (entry : Found) (rec : ℕ) (db : Database) : Option (Reply × Database) :=
  let out := updIdx calls entry rec db.files
  if out.1 = .code 0 then (rmKey calls.track entry db.index).map fun f => (out.1,{ index := f,files := out.2 })
  else some (out.1,{ db with files := out.2 })

/-! ## Requests -/

/-- The fields of a request that its handler has accepted. -/
inductive Request
  | get (key : Bytes)
  | getFirst
  | getLast
  | getNext (hint : Cursor) (key : Bytes) (fileId record : ℕ)
  | getPrior (hint : Cursor) (key : Bytes) (fileId record : ℕ)
  | getCurrent (key : Bytes) (fileId record : ℕ)
  | restore (saved : ℕ) (key : Bytes) (fileId record : ℕ)
deriving DecidableEq,Repr

def maxKeySize : ℕ := 32

/-- The entry that the request looks up. -/
def Request.find (f : Bytes) : Request → Option Found
  | get key => indexV2Find f (key++List.replicate maxKeySize 0) false 0 0
  | getFirst => indexV2First f
  | getLast => indexV2Last f
  | getNext hint key fileId record => indexV2Next f key fileId record hint
  | getPrior hint key fileId record => indexV2Prior f key fileId record hint
  | getCurrent key fileId record => indexV2Find f key true fileId record
  | restore _ key fileId record => indexV2Find f key true fileId record

/-- The record that it reads: for RESTORE the one the client has saved. -/
def Request.record (entry : Found) : Request → ℕ
  | restore saved _ _ _ => saved
  | _ => entry.recordOffset

/-- The answer if there is no entry. -/
def Request.missing (f : Bytes) : Request → Reply
  | getNext _ key fileId record | getPrior _ key fileId record =>
    if (indexV2Find f key true fileId record).isSome then .code 0 else .code eRmKey
  | _ => .code 0

/-- Whether the handler looks again after it has dropped an entry. -/
def Request.again : Request → Bool
  | getCurrent _ _ _ | restore _ _ _ _ => false
  | _ => true

/-- A request, for at most this many rounds of its loop. -/
def Request.run (r : Request) : ℕ → (ℕ → Calls) → Database → Option (Reply × Database)
  | 0,_,db => some (.searching,db)
  | n+1,calls,db =>
    match r.find db.index with
    | none => some (r.missing db.index,db)
    | some entry =>
      (round (calls n) entry (r.record entry) db).bind fun out =>
        if out.1 = .code 0 ∧ r.again then Request.run r n calls out.2 else some out

end Dataman.Lookups

import Dataman.ServerCalls

/-!
# What a failed `protect` leaves (`protect.c`)

A whole call of `protect`: its three tries, its allocations, the pointer it returns, and the
table of protected records it leaves. No other request changes the table during the call.
-/

namespace Dataman.ProtectionFailures
open DataFile hiding Reply
open Server (printed ePrtRd ePrctDel eRecRead)
open RecordProtection hiding protect

/-- What the calls made by `protect` give, and what stands in `rptr` before it is set. -/
structure Calls where
  /-- The value of the uninitialised `rptr`; 0 is NULL. -/
  uninit : ℕ
  /-- `calloc` finds memory for a table entry. -/
  calloc : Bool
  /-- The result of `malloc`; 0 is NULL. -/
  malloc : ℕ
  getBlobs : ℤ
deriving DecidableEq,Repr

/-- The fields of a request. -/
structure Request where
  idxno : ℤ
  fno : ℤ
  recno : ℕ
deriving DecidableEq,Repr

structure Outcome where
  value : ℤ
  ret : ℕ
  table : LockTable

variable (calls : Calls) (file : Files)

/-! ## The call -/

/-- One turn of the loop, up to the new entry: the flag byte of the record, and the table. -/
def enter (tmp recno : ℕ) (d : Disk) (table : LockTable) : Except Reply (UInt8 × LockTable) × Disk :=
  match readFlag recno d with
  | (none,d) => (.error .prtRd,d)
  | (some buf,d) =>
    if deleted buf then (.error .prctDel,d)
    else
      match protectChain (table (hash recno)) recno with
      | none => (.error (if tmp = 3 then .taken else .again),d)
      | some chain =>
        if calls.calloc then (.ok (buf,Function.update table (hash recno) chain),d)
        else (.error .prtRd,d)

/-- The loop from the turn `tmp` on, with `left` turns after it. -/
def tries (recno : ℕ) : ℕ → ℕ → Disk → LockTable → Except Reply (UInt8 × LockTable) × Disk
  | 0,tmp,d,table => enter calls tmp recno d table
  | left+1,tmp,d,table =>
    match enter calls tmp recno d table with
    | (.error .again,d) => tries recno left (tmp+1) d table
    | other => other

/-- Read the record for the reply. A read into NULL fails, unless it is a read of nothing. -/
def readBack (fmt recno : ℕ) (d : Disk) : Reply :=
  if calls.malloc = 0 ∧ 0 < (file.format fmt).rfLen then .recRead
  else readRecord file calls.getBlobs fmt recno d

/-- The value that `protect` returns. -/
def value (r : Request) : Reply → ℤ
  | .prtRd => ePrtRd
  | .prctDel => ePrctDel
  | .taken => 0
  | .again => 0
  | .recRead => eRecRead
  | .blobs code => code
  | .granted length fmt => (printed [length,fmt,r.idxno,r.fno,r.recno]).length

/-- What stands in `rptr` at the end: nothing sets it before the record is read. -/
def rptr : Reply → ℕ
  | .recRead => calls.malloc
  | .granted _ _ => calls.malloc
  | .blobs _ => 0
  | _ => calls.uninit

/-- `protect`; the file and the record are found from the message first, or it is refused. -/
def protect (named : Except ℤ Request) (d : Disk) (table : LockTable) : Outcome :=
  match named with
  | .error code => ⟨code,0,table⟩
  | .ok r =>
    match tries calls r.recno 2 1 d table with
    | (.error reply,_) => ⟨value r reply,rptr calls reply,table⟩
    | (.ok (buf,table),d) =>
      let reply := readBack calls file buf.toNat r.recno d
      ⟨value r reply,rptr calls reply,table⟩

/-! ## Refusals and entries -/

variable {calls file} {tmp left recno : ℕ} {d : Disk} {table : LockTable} {reply : Reply} {buf : UInt8}

/-- A refusal leaves `rptr` as it was. -/
def Refusal (reply : Reply) : Prop := ∀ calls,rptr calls reply = calls.uninit

/-- The flag byte is read and says format 1; the read of the record fails. -/
def brokenRecord : Disk := { bytes := List.replicate 20 0++[1],pos := 0,failures := [false,true] }

def taken : Outcome :=
  protect ⟨7,true,1,0⟩ RecordProtection.sampleFile (.ok ⟨0,0,20⟩) { brokenRecord with failures := [] } fun _ => [20]

end Dataman.ProtectionFailures

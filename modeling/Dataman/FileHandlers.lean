import Dataman.ServerCalls

/-!
# The handler that releases a record

`release` goes on to the next record of a work file, or to the first one of the next work file.
-/

namespace Dataman.Server
open ByteFiles DataFile FieldText

/-- A record is read without the mutex of the file. A failed `malloc` makes the read fail. -/
def releaseRecord (f : FileRef) (recno : ℤ) : Server Reply := do
  ask (.flLock (.file f) .sh)
  ask (.llseek f recno)
  match ← ask (.read f .header) with
  | none => return fail eRhRead
  | some header =>
    let fmt := formatOf header
    let file ← deref (← ask (.desc f))
    match ← ask (.read f (.data (file.format fmt).rfLen)) with
    | none => return fail eRecRead
    | some data =>
      match ← withBlobs f file fmt recno data with
      | none => return fail eNoBlob
      | some data =>
        return answer (printed [data.length,longest file,fmt,recno,
          getLl (slice header 1 8),getLl (slice header 9 8)]) (some data)

/-- The next work file takes the place of the one that is at its end. -/
def releaseFile (fno : ℕ) (f : FileRef) (name : Text) : Server Reply := do
  ask (.lock .w)
  ask (.rmFile (← ask (.fname f)))
  let f ← ask (.getFile name)
  ask (.setWfile fno (some f))
  match ← describe f with
  | .error e =>
    ask (.rmFile (← ask (.fname f)))
    ask (.forget f)
    ask (.unlock .w)
    return fail e.code
  | .ok _ =>
    match ← ask (.read f .pointer) with
    | none =>
      ask (.flLock (.file f) .un)
      return fail eRhRead
    | some path =>
      ask (.unlock .w)
      let reply ← releaseRecord f (getLl path)
      ask (.flLock (.file f) .un)
      return reply

def release (text : Text) : Server Reply := do
  let fno := atoi text - 1
  if fno < 0 ∨ (maxConns : ℤ) ≤ fno then return fail eInvMsg else
  match nextField text with
  | none => return fail eInvMsg
  | some cptr =>
    match ← ask (.wfile fno.toNat) with
    | none => return fail eNoWFile
    | some f =>
      match nextField cptr with
      | none => return fail eInvMsg
      | some rest =>
        if strtoll cptr = 0 then
          match splitField rest with
          | none => return fail eInvMsg
          | some (name,_) => releaseFile fno.toNat f name
        else
          let reply ← releaseRecord f (strtoll cptr)
          ask (.flLock (.file f) .un)
          return reply

end Dataman.Server

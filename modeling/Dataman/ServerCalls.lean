import Dataman.FieldText
import Dataman.FileLock
import Dataman.IndexRemoval
import Dataman.Programs
import Dataman.RecordProtection

/-!
# The calls of the request handlers

A handler is a program over the tables of the server, the locks, the data files and the
index files. What it reads there, and whether a call fails, is the answer of a call.
-/

namespace Dataman.Server
open Programs DataFile FieldText FileLock

abbrev Text := List UInt8

/-- The address of a `FILES`. -/
abbrev FileRef := ℕ

def eNoFile : ℤ := -10
def eNoAlloc : ℤ := -11
def eFHdRd : ℤ := -12
def eRhRead : ℤ := -13
def eRecRead : ℤ := -14
def eRecWrt : ℤ := -19
def eNodWrt : ℤ := -23
def ePrtRd : ℤ := -25
def ePrctDel : ℤ := -26
def eNoWFile : ℤ := -30
def eInvMsg : ℤ := -39
def eNoBlob : ℤ := -44

def maxConns : ℕ := 256

def ptrLength : ℕ := 8

/-! ## Text -/

def bar : UInt8 := 124

/-- The string up to its first separator, and what follows it. -/
def splitField (text : Text) : Option (Text × Text) :=
  if bar∈cstr text then (cut bar 1 text).map fun out => (out.1.dropLast,out.2) else none

/-- What follows the first separator of the string. -/
def nextField (text : Text) : Option Text := (splitField text).map Prod.snd

theorem splitField_eq {field rest : Text} (h : ∀ b∈field,b≠bar ∧ b≠0) : splitField (field++bar::rest) = some (field,rest) := by
  have hbar : bar∈cstr (field++bar::rest) := by
    rw [cstr,List.takeWhile_append_of_pos (fun b hb => by simpa using (h b hb).2),List.takeWhile_cons_of_pos (by decide)]
    simp
  rw [splitField,if_pos hbar,cut_one fun b hb => (h b hb).1,Option.map_some,List.dropLast_concat]

theorem nextField_eq {field rest : Text} (h : ∀ b∈field,b≠bar ∧ b≠0) : nextField (field++bar::rest) = some rest := by
  rw [nextField,splitField_eq h,Option.map_some]

/-- `%d|` of each number. -/
def printed (ns : List ℤ) : Text :=
  ns.flatMap fun n => (if n < 0 then [minus] else [])++decimal n.natAbs++[bar]

theorem printed_cons (n : ℤ) (ns : List ℤ) :
    printed (n::ns) = ((if n < 0 then [minus] else [])++decimal n.natAbs)++bar::printed ns := by
  simp only [printed,List.flatMap_cons,List.append_assoc,List.singleton_append]

theorem signed_inj {n m : ℤ}
    (h : (if n < 0 then [minus] else [])++decimal n.natAbs = (if m < 0 then [minus] else [])++decimal m.natAbs) : n = m := by
  have hminus : ∀ k,minus∉decimal k := fun k hk => absurd (decimal_digit hk) (by decide)
  split at h
  · split at h
    · have habs := decimal_injective (List.append_cancel_left h)
      omega
    · have hmem : minus∈decimal m.natAbs := by
        rw [← List.nil_append (decimal m.natAbs),← h]
        exact List.mem_cons_self
      exact absurd hmem (hminus _)
  · split at h
    · have hmem : minus∈decimal n.natAbs := by
        rw [← List.nil_append (decimal n.natAbs),h]
        exact List.mem_cons_self
      exact absurd hmem (hminus _)
    · have habs := decimal_injective (List.append_cancel_left h)
      omega

theorem ne_bar_of_mem_signed {n : ℤ} {b : UInt8} (h : b∈(if n < 0 then [minus] else [])++decimal n.natAbs) : b≠bar := by
  rintro rfl
  rcases List.mem_append.1 h with h | h
  · split at h
    · exact absurd h (by decide)
    · cases h
  · exact absurd (decimal_digit h) (by decide)

theorem printed_injective : Function.Injective printed := by
  intro ns
  induction ns with
  | nil =>
    intro ms h
    cases ms with
    | nil => rfl
    | cons m ms =>
      rw [printed_cons] at h
      exact absurd h.symm (by simp [printed])
  | cons n ns ih =>
    intro ms h
    cases ms with
    | nil =>
      rw [printed_cons] at h
      exact absurd h (by simp [printed])
    | cons m ms =>
      rw [printed_cons,printed_cons] at h
      -- both texts are cut at their first separator
      have hcut := congrArg (cut bar 1) h
      rw [cut_one fun b => ne_bar_of_mem_signed,cut_one fun b => ne_bar_of_mem_signed] at hcut
      obtain ⟨hnum,hrest⟩ := Prod.mk.inj (Option.some.inj hcut)
      rw [signed_inj (List.append_cancel_right hnum),ih hrest]

/-! ## Calls -/

inductive Mutex
  | w
  | i
  | index (k : ℕ)
  | file (f : FileRef)
deriving DecidableEq,Repr

/-- What has a `P_LOCK`. -/
inductive Guard
  | index (k : ℕ)
  | file (f : FileRef)
deriving DecidableEq,Repr

/-- An `INDEX`, without its mutex and its lock. -/
structure Slot where
  keylen : ℤ := 0
  idxchan : ℕ := 0
  fCnt : ℕ := 0
  refcnt : ℤ := 0
  rootpos : ℕ := 0
  generation : ℕ := 0
  idxname : Option Text := none
  rootdir : Text := []
  files : Option (List FileRef) := none
deriving DecidableEq,Repr

inductive Lookup
  | find (key : Bytes) (exact : Bool) (fileId record : ℕ)
  | first
  | last
  | next (key : Bytes) (fileId record : ℕ) (hint : IndexFile.Cursor)
  | prior (key : Bytes) (fileId record : ℕ) (hint : IndexFile.Cursor)
deriving DecidableEq,Repr

/-- Why `get_datafile_desc` fails. -/
inductive DescError
  | noFile
  | header
  | alloc
deriving DecidableEq,Repr

def DescError.code : DescError → ℤ
  | noFile => eNoFile
  | header => eFHdRd
  | alloc => eNoAlloc

/-- What is read of a data file: a record pointer, the header of a record, or its data. -/
inductive Part
  | pointer
  | header
  | data (len : ℕ)
deriving DecidableEq,Repr

def Part.size : Part → ℕ
  | pointer => ptrLength
  | header => headerLength
  | data len => len

inductive Call
  | lock (m : Mutex)
  | unlock (m : Mutex)
  | trylock (m : Mutex)
  | flLock (g : Guard) (type : LockType)
  | malloc (n : ℕ)
  | calloc (n : ℕ)
  /-- The open-file table. -/
  | getFile (name : Text)
  | rmFile (name : Text)
  | fname (f : FileRef)
  /-- `_fname` and `_desc` become NULL. -/
  | forget (f : FileRef)
  | desc (f : FileRef)
  | getDatafileDesc (f : FileRef)
  /-- The work files. -/
  | wfile (j : ℕ)
  | setWfile (j : ℤ) (f : Option FileRef)
  /-- The data file. -/
  | llseek (f : FileRef) (off : ℤ)
  | read (f : FileRef) (part : Part)
  | mutateAt (f : FileRef) (data : Bytes) (off : ℤ)
  | getBlobs (f : FileRef) (fmt : ℕ) (recno : ℤ)
  | putBlobs (f : FileRef) (fmt : ℕ) (recno : ℤ)
  /-- What `insert`, `delete`, `protect` and `clear` do while they have the file for themselves. -/
  | insertRecord (f : FileRef) (fmt mode cur : ℤ)
  | deleteRecord (f : FileRef) (fileno recno xsw : ℤ)
  | protectRecord (f : FileRef) (tmp : ℕ) (recno : ℤ)
  | clearRecord (f : FileRef) (recno : ℤ)
  /-- The index table. -/
  | idxCnt
  | slot (k : ℕ)
  | setSlot (k : ℕ) (s : Slot)
  /-- `memset` of the whole `INDEX`. -/
  | wipe (k : ℕ)
  /-- Room for `n` entries, the new ones empty. -/
  | realloc (n : ℕ)
  | setIdxCnt (n : ℕ)
  /-- The mutexes of the entries from `k` up to `n`. -/
  | mutexInit (k n : ℕ)
  /-- Index files. -/
  | openIndex (name : Text) (create : Bool)
  | close (chan : ℕ)
  | unlink (name : Text)
  | buildBegin (chan : ℕ) (keylen : ℤ) (names : List Text)
  | buildFinish (chan : ℕ)
  | readHeader (chan : ℕ)
  | readFileNames (chan n : ℕ)
  | lookup (chan : ℕ) (l : Lookup)
  | insertKey (chan : ℕ) (key : Bytes) (fileId : ℤ) (record : ℤ)
  | removeKey (chan : ℕ) (found : IndexFile.Found)
  | trackIndex (k : ℕ)
  /-- The value of a variable nothing was assigned to. -/
  | unassigned
  /-- Memory is used that is not there. -/
  | trap

/-- What a call returns. -/
@[reducible] def Answer : Call → Type
  | .trylock _ | .malloc _ | .calloc _ | .realloc _ | .mutateAt _ _ _ | .removeKey _ _ => Bool
  | .getFile _ => FileRef
  | .fname _ => Text
  | .desc _ => Option Files
  | .getDatafileDesc _ => Except DescError Files
  | .wfile _ => Option FileRef
  | .putBlobs _ _ _ | .trackIndex _ | .unassigned => ℤ
  | .read _ _ | .getBlobs _ _ _ => Option Bytes
  | .insertRecord _ _ _ _ => Except Code (ℕ × ℤ)
  | .deleteRecord _ _ _ _ => Except Code DataFile.Reply
  | .protectRecord _ _ _ => RecordProtection.Reply
  | .idxCnt => ℕ
  | .slot _ => Slot
  | .openIndex _ _ | .buildBegin _ _ _ | .buildFinish _ => Option ℕ
  | .readHeader _ => Option IndexFile.Header
  | .readFileNames _ _ => Option (List Text)
  | .lookup _ _ => Option IndexFile.Found
  | .insertKey _ _ _ _ => Option (IndexFile.Cursor × ℕ)
  | .trap => Empty
  | _ => Unit

abbrev Server := Prog Call Answer

/-- One call. -/
abbrev ask (c : Call) : Server (Answer c) := Prog.ask c

/-- The code a handler returns, the text it leaves in `cmd`, and its data. -/
structure Reply where
  code : ℤ
  text : Text := []
  data : Option Bytes := none
deriving DecidableEq,Repr

def fail (code : ℤ) : Reply := { code := code }

def answer (text : Text) (data : Option Bytes) : Reply := { code := text.length,text := text,data := data }

/-- The description of a data file, read from the file on its first use. -/
def describe (f : FileRef) : Server (Except DescError Files) := do
  match ← ask (.desc f) with
  | some file => return .ok file
  | none => ask (.getDatafileDesc f)

/-- The data with the blobs of the record behind them; nothing if they cannot be read. -/
def withBlobs (f : FileRef) (file : Files) (fmt : ℕ) (recno : ℤ) (data : Bytes) : Server (Option Bytes) := do
  if (file.format fmt).hasBlob then
    match ← ask (.getBlobs f fmt recno) with
    | none => return none
    | some blobs => return some (data++blobs)
  else return some data

/-- The format number, without the bits for protected and deleted records. -/
def formatOf (header : Bytes) : ℕ := (header.headD 0).toNat % 64

/-- Use of an address that may not be there. -/
def deref {α : Type} : Option α → Server α
  | some a => return a
  | none => do return (← ask .trap).elim

end Dataman.Server

import Dataman.ChainedTable
import Dataman.DataFile
import Dataman.LabelledRuns

/-!
# Record protection (`protect.c`, `clear.c`)

The protected records of an open data file are kept in a table of chains. The handlers
change it in sections in which they hold the lock of the file; a `protect` that finds its
record protected leaves the section, waits, and tries again, three times at most.
-/

namespace Dataman.RecordProtection
open ChainedTable DataFile LabelledRuns

/-- `_locks`: a chain of record numbers for each hash. -/
abbrev LockTable := Fin 128 → List ℕ

/-- The remainder by `LOCK_TABLE_SIZE`. -/
def hash (recno : ℕ) : Fin 128 := Fin.ofNat 128 recno

/-! ## Chains -/

/-- The chain with a new entry at its end; nothing if the record is in it. -/
def protectChain : List ℕ → ℕ → Option (List ℕ)
  | [],recno => some [recno]
  | x::rest,recno => if x = recno then none else (protectChain rest recno).map (x :: ·)

/-- The loop of `clear` from the second entry on. -/
def unlink : List ℕ → ℕ → List ℕ
  | [],_ => []
  | x::rest,recno => if x = recno then rest else x::unlink rest recno

/-- If the record is the first of its chain, the table gets no chain at all. -/
def clearChain : List ℕ → ℕ → List ℕ
  | [],_ => []
  | x::rest,recno => if x = recno then [] else x::unlink rest recno

/-! ## Handlers -/

inductive Reply
  /-- EPRTRD -/
  | prtRd
  /-- EPRCTDEL -/
  | prctDel
  /-- FALSE: the record is protected. -/
  | taken
  /-- The record is protected; unlock the file and try again. -/
  | again
  /-- ERECREAD -/
  | recRead
  /-- The negative result of `get_blobs`. -/
  | blobs (code : ℤ)
  /-- The length of the data that follow, and the format of the record. -/
  | granted (length : ℤ) (fmt : ℕ)
deriving DecidableEq,Repr

/-- Read the flag byte of a record. -/
def readFlag (recno : ℕ) (d : Disk) : Option UInt8 × Disk :=
  let (flag,d) := tryRead 1 { d with pos := recno }
  match flag with
  | .ok (some bs) => (bs.head?,d)
  | _ => (none,d)

/-- The reply once the record is in the table: the current copy of the record. -/
def readRecord (file : Files) (getBlobs : ℤ) (fmt recno : ℕ) (d : Disk) : Reply :=
  let format := file.format fmt
  match (tryRead format.rfLen { d with pos := recno+headerLength }).1 with
  | .ok (some _) =>
    if format.hasBlob then if getBlobs < 0 then .blobs getBlobs else .granted getBlobs fmt
    else .granted format.rfLen fmt
  | _ => .recRead

/-- The section of `protect` in its try number `tmp`; `getBlobs` is the result of `get_blobs`. -/
def protect (file : Files) (getBlobs : ℤ) (tmp recno : ℕ) (d : Disk) (table : LockTable) : Reply × LockTable :=
  match readFlag recno d with
  | (none,_) => (.prtRd,table)
  | (some buf,d) =>
    if deleted buf then (.prctDel,table)
    else
      match protectChain (table (hash recno)) recno with
      | none => (if tmp = 3 then .taken else .again,table)
      | some chain =>
        (readRecord file getBlobs buf.toNat recno d,Function.update table (hash recno) chain)

def clear (recno : ℕ) (table : LockTable) : LockTable :=
  Function.update table (hash recno) (clearChain (table (hash recno)) recno)

/-! ## Requests of many clients -/

inductive Event
  /-- `protect` reports success. -/
  | protects (recno : ℕ)
  /-- `protect` reports an error or FALSE. -/
  | refuses (recno : ℕ)
  /-- `protect` waits for its next try. -/
  | waits (recno : ℕ)
  /-- `clear` reports success. -/
  | clears (recno : ℕ)
deriving DecidableEq,Repr

def Reply.event (recno : ℕ) : Reply → Event
  | granted _ _ => .protects recno
  | again => .waits recno
  | _ => .refuses recno

/-- The sections of any requests on one file, in any order. The contents of the file and
the reads that fail are different from section to section. -/
inductive Step (file : Files) (table : LockTable) : Event → LockTable → Prop
  | protect (getBlobs : ℤ) (tmp recno : ℕ) (d : Disk) :
      Step file table ((protect file getBlobs tmp recno d table).1.event recno)
        (protect file getBlobs tmp recno d table).2
  | clear (recno : ℕ) : Step file table (.clears recno) (clear recno table)

/-- The records that were protected and not cleared since. -/
def held (log : List Event) : Set ℕ := { r | Since (· = .protects r) (· = .clears r) log }

/-! ## One section -/

variable {file : Files} {table table' : LockTable} {log : List Event} {e : Event} {chain : List ℕ} {recno r : ℕ}

theorem protectChain_eq_none_iff : protectChain chain recno = none ↔ recno∈chain := by
  induction chain with
  | nil => simp [protectChain]
  | cons x rest ih =>
    by_cases hx : x = recno
    · simp [protectChain,hx]
    · simp [protectChain,hx,ih,Ne.symm hx]

theorem protectChain_new (h : recno∉chain) : protectChain chain recno = some (chain++[recno]) := by
  induction chain with
  | nil => rfl
  | cons x rest ih =>
    rw [List.mem_cons,not_or] at h
    simp [protectChain,Ne.symm h.1,ih h.2]

/-- What a section does: it leaves the table, enters a record that was not there, and
then answers with success or with an error, or clears. -/
inductive Move (table : LockTable) : Event → LockTable → Prop
  | same (e : Event) (quiet : ∀ r,e≠.protects r ∧ e≠.clears r) : Move table e table
  | enter (recno : ℕ) (new : recno∉table (hash recno)) :
      Move table (.protects recno) (Function.update table (hash recno) (table (hash recno)++[recno]))
  | leak (recno : ℕ) (new : recno∉table (hash recno)) :
      Move table (.refuses recno) (Function.update table (hash recno) (table (hash recno)++[recno]))
  | clear (recno : ℕ) : Move table (.clears recno) (clear recno table)

theorem readRecord_event (file : Files) (getBlobs : ℤ) (fmt recno : ℕ) (d : Disk) :
    (readRecord file getBlobs fmt recno d).event recno = .protects recno ∨
      (readRecord file getBlobs fmt recno d).event recno = .refuses recno := by
  simp only [readRecord]
  generalize (tryRead _ _).1 = answer
  cases answer with
  | error code => exact .inr rfl
  | ok bs =>
    cases bs with
    | none => exact .inr rfl
    | some bs =>
      by_cases hblob : (file.format fmt).hasBlob = true
      · by_cases hneg : getBlobs < 0
        · simp [hblob,hneg,Reply.event]
        · simp [hblob,hneg,Reply.event]
      · simp [hblob,Reply.event]

theorem Step.move (h : Step file table e table') : Move table e table' := by
  cases h with
  | clear recno => exact .clear recno
  | protect getBlobs tmp recno d =>
    unfold RecordProtection.protect
    split
    · exact .same _ fun r => by simp [Reply.event]
    · rename_i buf d' _
      split
      · exact .same _ fun r => by simp [Reply.event]
      · by_cases hmem : recno∈table (hash recno)
        · rw [protectChain_eq_none_iff.2 hmem]
          apply Move.same
          intro r
          by_cases ht : tmp = 3
          · simp [ht,Reply.event]
          · simp [ht,Reply.event]
        · rw [protectChain_new hmem]
          obtain hr | hr := readRecord_event file getBlobs buf.toNat recno d'
          · simpa [hr] using Move.enter recno hmem
          · simpa [hr] using Move.leak recno hmem

/-! ## The records held -/

/-- One format of 111 bytes, so that a record takes 128. -/
def sampleFile : Files := ⟨20,[⟨111,false⟩],by decide⟩

end Dataman.RecordProtection

import Dataman.LookupCandidates
import Dataman.ServerCalls

/-!
# REMOVE of a key (`remove.c`)

`rm_key` looks for the key as GET does. A key with a file number behind it names one entry; a key without
one is the beginning of the entry that is removed, which is the first with this beginning.
-/

namespace Dataman.Lookups
open ByteFiles FixedWidthFields FieldText PageTree IndexFile
open Server (Text bar splitField nextField splitField_eq nextField_eq answer printed fail eNodWrt)

/-! ## `rm_key` and `dbremove` -/

def keyHeaderLength : ℕ := 9

/-- The key of a request. The message is zero behind its text. -/
def keyBuffer (key : Bytes) : Bytes := key++List.replicate (maxKeySize+keyHeaderLength) 0

/-- The result of `rm_key`, the system key it leaves in the buffer, and the index file. -/
def rmKeyNamed (keylen : ℕ) (tracked : ℤ) (xsw : Bool) (key : Bytes) (f : Bytes) : ℤ × Bytes × Bytes :=
  let file := key.getD keylen 0
  match indexV2Find f key (file≠0) (file.toNat - 1) (getBE (slice key (keylen+1) 8)) with
  | none => (0,key,f)
  | some found =>
    let system := found.key++UInt8.ofNat (found.fileId+1)::putBE 8 found.recordOffset
    if xsw then (keylen+keyHeaderLength,system,f)
    else if tracked < 0 then (tracked,system,f)
    else
      let out := IndexFile.Request.run (.remove found.composite) { bytes := f }
      if out.1 = .ok () ∧ (indexV2ReadHeader out.2.bytes).isSome then (1,system,out.2.bytes) else (eNodWrt,system,out.2.bytes)

/-- `dbremove` from the separator behind the index number on. -/
def dbremove (keylen : ℕ) (tracked : ℤ) (text : Text) (f : Bytes) : Server.Reply × Bytes :=
  match nextField text with
  | none => (fail Server.eInvMsg,f)
  | some key =>
    let out := rmKeyNamed keylen tracked (atoi text≠0) (keyBuffer key) f
    if 0 < out.1 then (answer (printed [0,out.1]++if atoi text≠0 then out.2.1 else []) none,out.2.2) else (fail out.1,out.2.2)

/-- What `execute` makes of the text: the switch behind the index number is overwritten with zeros. -/
def blankSwitch (text : Text) : Option Text :=
  match splitField text with
  | none => none
  | some (field,key) => if field = [] then none else some (List.replicate field.length 48++bar::key)

/-- REMOVE, once the index is found. -/
def remove (keylen : ℕ) (tracked : ℤ) (text : Text) (f : Bytes) : Server.Reply × Bytes :=
  match nextField text with
  | none => (fail Server.eInvMsg,f)
  | some rest =>
    match blankSwitch rest with
    | none => (fail Server.eInvMsg,f)
    | some rest => dbremove keylen tracked rest f

/-! ## Commands -/

/-- A field of a message: neither a separator nor a NUL. -/
def Field (field : Text) : Prop := ∀ b∈field,b≠bar ∧ b≠0

/-- A key text without a file and a record. -/
structure PlainKey (keylen : ℕ) (k : Bytes) : Prop where
  length : k.length ≤ keylen
  zero : (0 : UInt8)∉k
  star : (0x2a : UInt8)∉k

def removed : Server.Reply := answer (printed [0,1]) none

/-- The removal of every entry has its I/O succeed, and its root is seen by the next call. -/
def Removable (keylen : ℕ) (f : Bytes) : Prop :=
  ∀ c : Composite,c.Fits keylen → c.encode keylen∈entries f → ∃ out f',Served f (.remove c) out f'

variable {n keylen : ℕ} {fileNames : List Bytes} {f : Bytes} {hd : Header} {h : ℕ} {t : Summary Bytes} {k e : Bytes}
  {L : List Bytes} {tracked : ℤ} {idxno xsw : Text}

theorem lookupKey_eq (hk : PlainKey keylen k) (hmax : keylen ≤ maxKeySize) :
    lookupKey keylen k = k++List.replicate (keylen - k.length) 0 := by
  have hlen := hk.length
  rw [lookupKey,List.take_append,List.take_of_length_le hlen,List.take_replicate,Nat.min_eq_left (by omega)]

theorem templateLength_lookupKey (hk : PlainKey keylen k) (hmax : keylen ≤ maxKeySize) : templateLength (lookupKey keylen k) = k.length := by
  have hnone : k.findIdx (fun b => decide (b = 0)) = k.length := by
    rw [List.findIdx_eq_length]
    intro b hb
    rw [decide_eq_false_iff_not]
    rintro rfl
    exact hk.zero hb
  rw [lookupKey_eq hk hmax,templateLength,List.findIdx_append,hnone,if_neg (Nat.lt_irrefl _)]
  cases keylen - k.length with
  | zero => simp
  | succ gap => simp [List.replicate_succ,List.findIdx_cons]

/-- Without a star a candidate of GET is an entry that begins with the key. -/
theorem matches_lookupKey (hk : PlainKey keylen k) (hmax : keylen ≤ maxKeySize) (hlen : keylen ≤ e.length) :
    Matches (lookupKey keylen k) e ↔ k <+: e := by
  have hklen := hk.length
  have hlength : (lookupKey keylen k).length = keylen := by
    rw [lookupKey_eq hk hmax,List.length_append,List.length_replicate]
    omega
  have htake : (lookupKey keylen k).take k.length = k := by rw [lookupKey_eq hk hmax,List.take_left' rfl]
  have htarget : (composite (lookupKey keylen k).length (lookupKey keylen k) 0 0).take k.length = k := by
    rw [composite,List.take_length,List.append_assoc,List.take_append_of_le_length (by omega),htake]
  rw [matches_iff_take (by omega) (by rw [templateLength_lookupKey hk hmax,htake]; exact hk.star),templateLength_lookupKey hk hmax,htarget]
  constructor
  · intro h
    rw [← h]
    exact List.take_prefix _ _
  · intro h
    exact (List.prefix_iff_eq_take.1 h).symm

/-- A removal that is tried takes its entry out. -/
theorem Removable.run (hcount : fileNames.length < 2 ^ 16) (hr : Reachable keylen fileNames f) (hn : Navigable f hd h t)
    (hrem : Removable keylen f) (hkeylen : hd.keylen = keylen) (he : e∈t.entries) (cursor : Cursor) :
    ∃ s,IndexFile.Request.run (.remove (foundEntry (lookupContext hd) cursor e).composite) { bytes := f } = (.ok (),s) ∧
      (indexV2ReadHeader s.bytes).isSome ∧ entries s.bytes = (entries f).erase e := by
  have hlen : e.length = (lookupContext hd).entrySize := hn.entry_length he
  have hfits : (foundEntry (lookupContext hd) cursor e).composite.Fits keylen := hkeylen ▸ fits_foundEntry hlen cursor
  have hencode : (foundEntry (lookupContext hd) cursor e).composite.encode keylen = e := hkeylen ▸ entry_foundEntry hlen cursor
  have hentries : entries f = t.entries := by rw [entries,hn.walk,Option.getD_some]
  obtain ⟨out,f',hserved⟩ := hrem _ hfits (by rw [hencode,hentries]; exact he)
  cases good_of_reachable hcount hr with
  | building hb =>
    have hnone := hn.header
    rw [readHeader_building hb.fixed] at hnone
    cases hnone
  | index hi =>
    have hallowed : IndexFile.Request.Allowed keylen (.remove (foundEntry (lookupContext hd) cursor e).composite) t.entries := by
      rw [IndexFile.Request.Allowed,hencode]
      exact he
    have hid : (foundEntry (lookupContext hd) cursor e).composite.fileId < (newContext keylen fileNames false).fileCount := by
      have hfile := hn.file_lt (hkeylen ▸ hfits) (by rw [hkeylen,hencode]; exact he)
      rwa [(hi.header_fields hn.header).2] at hfile
    obtain rfl := hi.serves (r := .remove (foundEntry (lookupContext hd) cursor e).composite) rfl hfits hn.walk hid hallowed hserved
    obtain ⟨-,hwalk⟩ := hi.served (r := .remove (foundEntry (lookupContext hd) cursor e).composite) rfl hfits hn.walk hserved
    obtain ⟨hd',hh',-⟩ := hserved.observed.next rfl hd hn.header
    obtain ⟨s,hrun,rfl⟩ := hserved.run
    refine ⟨s,hrun,Option.isSome_of_eq_some hh',?_⟩
    rw [hentries,entries,hwalk,Option.getD_some]
    exact congrArg (t.entries.erase ·) hencode

variable {cursor : Cursor} {key : Bytes}

/-- A system key: the key, the file number and one, and the record. -/
structure SystemKey (keylen : ℕ) (key : Bytes) (file : UInt8) (record : Bytes) : Prop where
  key_length : key.length = keylen
  file_ne : file≠0
  record_length : record.length = 8

/-- The entry that a system key names. -/
def systemEntry (keylen : ℕ) (key : Bytes) (file : UInt8) (record : Bytes) : Bytes :=
  Composite.encode keylen ⟨key,file.toNat - 1,getBE record⟩

variable {record : Bytes} {file : UInt8}

theorem SystemKey.fits (h : SystemKey keylen key file record) :
    Composite.Fits keylen ⟨key,file.toNat - 1,getBE record⟩ := by
  have hfile := file.toNat_lt
  have hrecord := getBE_lt record
  rw [h.record_length] at hrecord
  exact ⟨h.key_length,lt_of_le_of_lt (Nat.sub_le _ _) (by omega),hrecord⟩

theorem indexV2Find_unreadable (hh : indexV2ReadHeader f = none) {exact : Bool} {fileId record : ℕ} :
    indexV2Find f key exact fileId record = none := by
  simp only [indexV2Find,hh,Option.bind_eq_bind,Option.bind_none]

theorem entries_unreadable (hh : indexV2ReadHeader f = none) : entries f = [] := by
  simp only [entries,walk,hh,Option.bind_eq_bind,Option.bind_none,Option.getD_none]

section Remove
variable (hcount : fileNames.length < 2 ^ 16) (hr : Reachable keylen fileNames f) (hrem : Removable keylen f) (htrack : 0 ≤ tracked)
  (hidx : Field idxno) (hxsw : Field xsw) (hne : xsw≠[])
include hidx hxsw hne

include hcount hr hrem htrack

end Remove

end Dataman.Lookups

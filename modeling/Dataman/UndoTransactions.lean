import Dataman.UndoEffects

/-!
# Transactions and their journal

While a transaction runs, the records in its journal hold everything that the files
and the blob directory have lost since `dm_undo_begin`. Each call keeps this, also
when it fails after any part of its effects; only the tail of the journal may then
be torn.
-/

variable {name : CString} {old : Option BlobFile} {file : Ident} {f data : Bytes} {im : Image} {v : Option BlobEntry} {off : ℕ}

namespace Dataman
namespace UndoJournal
open ByteFiles UndoLog

/-! ## The invariant -/

/-- The records hold what the files have lost of `s0`, and the blobs they are about
are private. -/
structure Covered (s0 : Files) (rs : List Record) (s : Files) : Prop where
  logged : Logged s0 s (rs.map Record.entry)
  own : ∀ name∈rs.filterMap Record.blobName,s.slots name≠some .foreign
  sized : ∀ file,(s.files file).length ≤ int64Max

/-- Records that the code writes. -/
structure Records (env : Env) (rs : List Record) : Prop where
  path : env.rootPath.bytes.length ≤ maxPath
  valid : ∀ r∈rs,r.Valid env
  once : (rs.filterMap Record.blobName).Nodup
  count : rs.length+1 < 2 ^ 64

/-- A journal on disk, perhaps with a torn tail, that leads back to `s0`. -/
structure Journaled (env : Env) (s0 : Files) (rs : List Record) (tail : Bytes) (w : World) : Prop where
  records : Records env rs
  covered : Covered s0 rs w.files
  journal : w.journal = some (journalBytes env rs++tail)
  torn : Torn env rs.length tail

/-- The journal and the process agree. -/
structure Active (env : Env) (s0 : Files) (rs : List Record) (w : World) (tx : Tx) : Prop where
  records : Records env rs
  covered : Covered s0 rs w.files
  journal : w.journal = some (journalBytes env rs)
  endAt : tx.endAt = (journalBytes env rs).length
  sequence : tx.sequence = rs.length
  blobs : ∀ name,blobValid name = true → (name∈tx.blobs ↔ name.drop 6∈rs.filterMap Record.blobName)

variable {env : Env} {s0 s : Files} {rs : List Record} {w : World} {tx : Tx} {r : Record}

theorem Records.readable (h : Records env rs) (hc : Covered s0 rs w.files) : Readable env w rs :=
  ⟨h.valid,h.once,hc.own⟩

theorem Records.append (h : Records env rs) (hr : r.Valid env) (hcount : rs.length+2 < 2 ^ 64)
    (hnew : ∀ name,r.blobName = some name → name∉rs.filterMap Record.blobName) : Records env (rs++[r]) := by
  constructor
  · exact h.path
  · intro r' hr'
    obtain hm | hm := List.mem_append.1 hr'
    · exact h.valid r' hm
    · obtain rfl : r' = r := by simpa using hm
      exact hr
  · rw [List.filterMap_append]
    cases hb : r.blobName with
    | none => simpa [hb] using h.once
    | some name =>
      rw [List.filterMap_cons_some hb,List.filterMap_nil]
      have hlast := h.once.concat (hnew name hb)
      rwa [List.concat_eq_append] at hlast
  · simpa using hcount

theorem Torn.nil (env : Env) (seq : ℕ) : Torn env seq [] := .short (by simp [recordSize])

theorem Active.journaled (h : Active env s0 rs w tx) : Journaled env s0 rs [] w :=
  ⟨h.records,h.covered,by rw [h.journal,List.append_nil],.nil _ _⟩

/-! ## Covered changes -/

namespace Covered

/-- A range of a file, as it is now, goes to the journal. -/
theorem recordUndo (h : Covered s0 rs s) (name : CString) (file : Ident) (off len : ℕ) :
    Covered s0 (rs++[.undo name file (Image.ofFile (s.files file) off len)]) s := by
  constructor
  · simpa [Record.entry] using h.logged.recordFile file off len
  · simpa [Record.blobName] using h.own
  · exact h.sized

/-- A blob, as it is now, goes to the journal. -/
theorem recordBlob (h : Covered s0 rs s) (parent : Ident)
    (hold : s.slots (name.bytes.drop 6) = old.map .own) : Covered s0 (rs++[.blob name parent old]) s := by
  constructor
  · simpa [Record.entry,hold] using h.logged.recordSlot (name.bytes.drop 6)
  · intro n hn
    rw [List.filterMap_append,List.mem_append] at hn
    obtain hn | hn := hn
    · exact h.own n hn
    · obtain rfl : n = name.bytes.drop 6 := by simpa [Record.blobName] using hn
      rw [hold]
      cases old <;> exact nofun
  · exact h.sized

/-- A file changes where a record has its bytes. -/
theorem setFile (h : Covered s0 rs s) (hlen : f.length ≤ int64Max)
    (hf : FileLogged (s0.files file) f (imagesOf file (rs.map Record.entry))) : Covered s0 rs (s.setFile file f) := by
  constructor
  · exact h.logged.setFile hf
  · exact h.own
  · intro i
    by_cases hi : i = file
    · simpa [Store.setFile,hi] using hlen
    · simpa [Store.setFile,hi] using h.sized i

theorem mem_images (hm : .undo name file im∈rs) :
    im∈imagesOf file (rs.map Record.entry) :=
  mem_imagesOf.2 (List.mem_map.2 ⟨_,hm,rfl⟩)

/-- A recorded blob becomes anything private, or absent. -/
theorem setSlot (h : Covered s0 rs s) {name : Bytes}
    (hm : name∈rs.filterMap Record.blobName) (hv : v≠some .foreign) : Covered s0 rs (s.setSlot name v) := by
  constructor
  · obtain ⟨r,hr,hb⟩ := List.mem_filterMap.1 hm
    cases r with
    | undo n file im => simp [Record.blobName] at hb
    | blob n parent old =>
      obtain rfl : n.bytes.drop 6 = name := by simpa [Record.blobName] using hb
      exact h.logged.setSlot (List.mem_map.2 ⟨_,hr,rfl⟩) v
  · intro n hn
    by_cases he : n = name
    · simpa [Store.setSlot,he] using hv
    · simpa [Store.setSlot,he] using h.own n hn
  · exact h.sized

end Covered

theorem length_writeAt_le {n : ℕ} (hf : f.length ≤ n) (hd : off+data.length ≤ n) :
    (writeAt f off data).length ≤ n := by
  by_cases hnil : data = []
  · simpa [hnil] using hf
  · rw [length_writeAt _ _ _ hnil]
    omega

/-- Any part of a write whose range has just been recorded. -/
theorem Covered.write (hoff : off+data.length ≤ int64Max)
    (h : Covered s0 (rs++[.undo name file (Image.ofFile (s.files file) off data.length)]) s) (n : ℕ) :
    Covered s0 (rs++[.undo name file (Image.ofFile (s.files file) off data.length)])
      (s.setFile file (writeAt (s.files file) off (data.take n))) := by
  have hlen : (data.take n).length ≤ data.length := by
    rw [List.length_take]
    omega
  apply h.setFile (length_writeAt_le (h.sized file) (by omega))
  have hf := h.logged.file file
  apply hf.write (Covered.mem_images (List.mem_append_right _ (List.mem_singleton.2 rfl)))
  intro i hi ho hn
  have hl := hf.length
  apply Image.byte_isSome.2
  simp only [Image.ofFile,length_slice]
  omega

/-! ## Growing the journal -/

/-- The first bytes of a record at the end of the journal: a torn tail or one more record. -/
theorem Active.cut (h : Active env s0 rs w tx) (hr : Records env (rs++[r]))
    (hc : Covered s0 (rs++[r]) w.files) {bs : Bytes} (hbs : bs <+: r.encode (rs.length+1)) :
    ∃ rs' tail,Journaled env s0 rs' tail { w with journal := some (journalBytes env rs++bs) } := by
  have hle := hbs.length_le
  by_cases hlt : bs.length < (r.encode (rs.length+1)).length
  · exact ⟨rs,bs,h.records,h.covered,rfl,.cut (hr.valid r (by simp)) hbs hlt⟩
  · have he : bs = r.encode (rs.length+1) := hbs.eq_of_length (by omega)
    exact ⟨rs++[r],[],hr,hc,by rw [he,List.append_nil,journalBytes_append],.nil _ _⟩

theorem length_journalBytes_append (env : Env) (rs : List Record) (r : Record) :
    (journalBytes env (rs++[r])).length =
      (journalBytes env rs).length+((r.frame (rs.length+1)).length+r.stream.length) := by
  rw [journalBytes_append,List.length_append,Record.encode,List.length_append,Frame.length_bytes]

/-- The process after a byte record. -/
theorem Active.recordUndo (h : Active env s0 rs w tx)
    (hr : Records env (rs++[.undo name file im])) (hc : Covered s0 (rs++[.undo name file im]) w.files) :
    Active env s0 (rs++[.undo name file im])
      { w with journal := some (journalBytes env (rs++[.undo name file im])) }
      { tx with
        endAt := tx.endAt+(undoFrame (tx.sequence+1) name.bytes file im).length
        sequence := tx.sequence+1 } := by
  constructor
  · exact hr
  · exact hc
  · rfl
  · simp only [length_journalBytes_append,h.endAt]
    rfl
  · simp [h.sequence]
  · intro n hn
    simpa [Record.blobName] using h.blobs n hn

theorem eq_of_drop_eq {n m : Bytes} (hn : blobValid n = true) (hm : blobValid m = true)
    (h : n.drop 6 = m.drop 6) : n = m := by
  have ht : ∀ x : Bytes,blobValid x = true → x.take 6 = blobsPath := by
    intro x hx
    simp only [blobValid,underBlobs,Bool.and_eq_true,beq_iff_eq] at hx
    exact hx.1.2
  rw [← List.take_append_drop 6 n,← List.take_append_drop 6 m,ht n hn,ht m hm,h]

/-- The process after a blob record. -/
theorem Active.recordBlob (h : Active env s0 rs w tx) {parent : Ident}
    (hr : Records env (rs++[.blob name parent old])) (hc : Covered s0 (rs++[.blob name parent old]) w.files)
    (hname : blobValid name.bytes = true) :
    Active env s0 (rs++[.blob name parent old])
      { w with journal := some (journalBytes env (rs++[.blob name parent old])) }
      { tx with
        endAt := tx.endAt+(blobFrame (tx.sequence+1) name.bytes parent old).length +
          (streamBytes (chunks (contentOf old))).length
        sequence := tx.sequence+1
        blobs := name.bytes::tx.blobs } := by
  constructor
  · exact hr
  · exact hc
  · rfl
  · simp only [length_journalBytes_append,h.endAt,h.sequence,← Nat.add_assoc]
    rfl
  · simp [h.sequence]
  · intro n hn
    rw [List.filterMap_append,List.mem_append,← h.blobs n hn,List.mem_cons,or_comm]
    have he : n.drop 6 = name.bytes.drop 6 ↔ n = name.bytes :=
      ⟨eq_of_drop_eq hn hname,fun h => by rw [h]⟩
    simp [Record.blobName,he]

theorem Active.setBlob (h : Active env s0 rs w tx) {name : Bytes}
    (hm : name∈rs.filterMap Record.blobName) (hv : v≠some .foreign) : Active env s0 rs (w.setBlob name v) tx :=
  ⟨h.records,h.covered.setSlot hm hv,h.journal,h.endAt,h.sequence,h.blobs⟩

theorem Active.setState (h : Active env s0 rs w tx) (state : State) :
    Active env s0 rs w { tx with state := state } :=
  ⟨h.records,h.covered,h.journal,h.endAt,h.sequence,h.blobs⟩

end UndoJournal
end Dataman

import Dataman.UndoTransactions

/-!
# The calls of a transaction

Each call appends the records of what it is about to change and then changes it. A
call that fails leaves a journal that leads back to the start all the same.
-/

variable {file : Ident} {check : Option Descriptor} {name : CString} {data : Bytes} {off : ℕ} {op : BlobOp}

namespace Dataman
namespace UndoJournal
open ByteFiles FailState UndoLog

variable {env : Env} {s0 : Files} {rs : List Record} {w : World} {tx : Tx}
  {b : Option (ℕ × ℕ)} {Q : Unit → Machine → Prop} {E : Fault → Machine → Prop}

/-- A failed call: only an abort is allowed, and the journal leads back to `s0`. -/
def Broken (env : Env) (s0 : Files) (m : Machine) : Prop :=
  m.tx.state = .abortOnly ∧ ∃ rs tail,Journaled env s0 rs tail m.world

theorem Active.broken (h : Active env s0 rs w tx) (hs : tx.state = .abortOnly) (b : Option (ℕ × ℕ)) :
    Broken env s0 ⟨w,tx,b⟩ := ⟨hs,rs,[],h.journaled⟩

/-! ## Byte writes -/

/-- The record that a byte write appends. -/
def writeRecords (env : Env) (s : Files) (name : CString) (data : Bytes) (offset : ℤ) : List Record :=
  match env.target name.bytes with
  | none => []
  | some file =>
    if data = [] then [] else [.undo name file (Image.ofFile (s.files file) offset.toNat data.length)]

theorem inside_ofFile (f : Bytes) (off len : ℕ) (h : (Image.ofFile f off len).before≠[]) :
    (Image.ofFile f off len).offset+(Image.ofFile f off len).before.length ≤ (Image.ofFile f off len).size := by
  have hpos : 0 < (Image.ofFile f off len).before.length := List.length_pos_iff.2 h
  simp only [Image.ofFile,length_slice] at hpos ⊢
  omega

theorem wp_checkDescriptor {m : Machine} (hQ : Q () m)
    (hE : ∀ e,E e m) : wp (checkDescriptor file check) m Q E := by
  cases check with
  | none => exact (wp_pure ()).2 hQ
  | some d =>
    simp only [checkDescriptor,wp_bind,wp_ofOption]
    cases d.file with
    | none => exact hE _
    | some expected =>
      simp only [wp_ensure]
      split
      · split
        · exact hQ
        · exact hE _
      · exact hE _

/-- The files change only with the records in the journal. -/
def Recorded (env : Env) (rs new : List Record) (s : Files) (w : World) : Prop :=
  w.files = s ∨ w.journal = some (journalBytes env (rs++new))

/-- A record that fits, and then the write: the file changes with the record in the journal. -/
theorem wp_recordedWrite {im : Image}
    (h : Active env s0 rs w tx) (hs : tx.state = .abortOnly) (hrs : Records env (rs++[.undo name file im]))
    (him : im = Image.ofFile (w.files.files file) off data.length) (hoff : off+data.length ≤ int64Max)
    (hQ : ∀ w' tx' b',Active env s0 (rs++[.undo name file im]) w' tx' → tx'.state = .active → Q () ⟨w',tx',b'⟩)
    (hE : ∀ e m',Broken env s0 m' → Recorded env rs [.undo name file im] w.files m'.world → E e m') :
    wp (do
      append (undoFrame (tx.sequence+1) name.bytes file im)
      emit (.fileWrite file off data)
      setState .active) ⟨w,tx,b⟩ Q E := by
  have hcov : Covered s0 (rs++[.undo name file im]) w.files := by
    subst him
    exact h.covered.recordUndo name file _ _
  have hact := h.recordUndo hrs hcov
  have hwrite : ∀ n,Covered s0 (rs++[.undo name file im])
      (w.files.setFile file (writeAt (w.files.files file) off (data.take n))) := by
    intro n
    subst him
    exact hcov.write hoff n
  simp only [append,setState,wp_bind,wp_get,wp_modify]
  apply wp_emit_append h.journal h.endAt
  · intro b1 hb1
    have hframe : (undoFrame (tx.sequence+1) name.bytes file im).bytes =
        (Record.undo name file im).encode (rs.length+1) := by
      rw [h.sequence]
      exact (List.append_nil _).symm
    rw [hframe,← journalBytes_append]
    apply wp_emit
    · intro b2 hb2
      apply hQ
      · have hall := hwrite data.length
        rw [List.take_length] at hall
        exact ⟨hrs,hall,hact.journal,hact.endAt,hact.sequence,hact.blobs⟩
      · rfl
    · intro hb n b2
      apply hE
      · exact ⟨hs,_,[],hrs,hwrite n,(List.append_nil _).symm ▸ hact.journal,.nil _ _⟩
      · exact .inr hact.journal
  · intro hb bs b1 hbs
    apply hE
    · apply And.intro hs
      apply h.cut hrs hcov
      rw [← h.sequence]
      exact hbs.trans (List.prefix_append _ _)
    · exact .inl rfl

/-- The record of a write that passes the checks. -/
theorem Active.records_write {len : ℕ} (h : Active env s0 rs w tx)
    (hname : nameValid name.bytes = true) (hplain : underBlobs name.bytes = false)
    (htarget : env.target name.bytes = some file) (hlen : len ≤ maxWrite) (hoff : off+len ≤ int64Max)
    (hseq : tx.sequence < 2 ^ 64 - 2) :
    Records env (rs++[.undo name file (Image.ofFile (w.files.files file) off len)]) := by
  apply h.records.append
  · apply Record.Valid.undo hname hplain htarget
    · simp only [Image.ofFile,length_slice]
      omega
    · simp only [Image.ofFile]
      omega
    · exact h.covered.sized file
    · exact inside_ofFile _ _ _
  · rw [← h.sequence]
    omega
  · intro n hn
    simp [Record.blobName] at hn

theorem wp_writeTarget {offset : ℤ}
    (h : Active env s0 rs w tx) (hs : tx.state = .active)
    (hQ : ∀ w' tx' b',Active env s0 (rs++writeRecords env w.files name data offset) w' tx' →
      tx'.state = .active → Q () ⟨w',tx',b'⟩)
    (hE : ∀ e m',Broken env s0 m' → Recorded env rs (writeRecords env w.files name data offset) w.files m'.world →
      E e m') : wp (writeTarget env name check data offset) ⟨w,tx,b⟩ Q E := by
  have hbroken : ∀ e,E e ⟨w,{ tx with state := .abortOnly },b⟩ := by
    intro e
    exact hE e _ ((h.setState .abortOnly).broken rfl b) (.inl rfl)
  have hsame : ∀ tx',{ tx with state := .abortOnly } = tx' →
      writeRecords env w.files name data offset = [] → Q () ⟨w,{ tx' with state := .active },b⟩ := by
    intro tx' htx hnone
    apply hQ
    · rw [hnone,List.append_nil,← htx]
      exact h.setState .active
    · rfl
  simp only [writeTarget,wp_bind,wp_get,wp_ensure,setState,wp_modify,hs]
  simp only [decide_true,if_true]
  split
  case isFalse => exact hbroken _
  case isTrue hvalid =>
    simp only [Bool.and_eq_true,decide_eq_true_eq,Bool.not_eq_true'] at hvalid
    obtain ⟨⟨⟨⟨hname,hplain⟩,hoff0⟩,hshort⟩,hend⟩ := hvalid
    rw [wp_ite]
    split
    case isTrue hempty =>
      apply (wp_modify _).2
      apply hsame _ rfl
      simp only [writeRecords,hempty.1,if_true]
      split <;> rfl
    case isFalse =>
      simp only [wp_bind,wp_ofOption]
      cases htarget : env.target name.bytes with
      | none => exact hbroken _
      | some file =>
        apply wp_checkDescriptor _ hbroken
        rw [wp_ite]
        split
        case isTrue hempty =>
          apply (wp_modify _).2
          apply hsame _ rfl
          simp only [writeRecords,htarget,hempty,if_true]
        case isFalse hdata =>
          simp only [wp_bind,wp_get,wp_ensure]
          split
          case isFalse => exact hbroken _
          case isTrue hroom =>
            simp only [Bool.and_eq_true,decide_eq_true_eq] at hroom
            have hrec : writeRecords env w.files name data offset =
                [.undo name file (Image.ofFile (w.files.files file) offset.toNat data.length)] := by
              simp only [writeRecords,htarget,hdata,if_false]
            have hoff : offset.toNat+data.length ≤ int64Max := by omega
            have hrs := h.records_write hname hplain htarget hshort hoff hroom.2
            rw [hrec] at hQ hE
            have hwrite := wp_recordedWrite (b := b) (h.setState .abortOnly) rfl hrs rfl hoff hQ hE
            simpa only [setState,wp_bind] using hwrite

/-! ## Blob snapshots -/

/-- The private blob of an entry of the directory. -/
def ownOf : Option BlobEntry → Option BlobFile
  | some (.own c) => some c
  | _ => none

/-- The record that a snapshot appends. -/
def snapshotRecords (env : Env) (s : Files) (noted : List Bytes) (name : CString) : List Record :=
  match env.blobsDir with
  | none => []
  | some parent =>
    if name.bytes∈noted then [] else [.blob name parent (ownOf (s.slots (name.bytes.drop 6)))]

/-- The names with a snapshot after one more. -/
def noteName (noted : List Bytes) (name : CString) : List Bytes :=
  if name.bytes∈noted then noted else name.bytes::noted

theorem wp_appendBlob {parent : Ident} {old : Option BlobFile} (h : Active env s0 rs w tx)
    (hrs : ∀ n,blobStreamSize (contentOf old).length = some n → Records env (rs++[.blob name parent old]))
    (hcov : Covered s0 (rs++[.blob name parent old]) w.files)
    (hQ : ∀ b',Records env (rs++[.blob name parent old]) →
      Q () ⟨{ w with journal := some (journalBytes env (rs++[.blob name parent old])) },
        { tx with
          endAt := tx.endAt+(blobFrame (tx.sequence+1) name.bytes parent old).length +
            (streamBytes (chunks (contentOf old))).length
          sequence := tx.sequence+1 },b'⟩)
    (hE : ∀ e w' b',(∃ rs tail,Journaled env s0 rs tail w') → E e ⟨w',tx,b'⟩) :
    wp (appendBlob (blobFrame (tx.sequence+1) name.bytes parent old) (contentOf old)) ⟨w,tx,b⟩ Q E := by
  have hsame : ∀ e,E e ⟨w,tx,b⟩ := fun e => hE e w b ⟨rs,[],h.journaled⟩
  simp only [appendBlob,wp_bind,wp_get,wp_ofOption,wp_ensure]
  cases hsize : blobStreamSize (contentOf old).length with
  | none => exact hsame _
  | some n =>
    have hrecs := hrs n hsize
    have hencode : (Record.blob name parent old).encode (rs.length+1) =
        (blobFrame (tx.sequence+1) name.bytes parent old).bytes++streamBytes (chunks (contentOf old)) := by
      rw [h.sequence]
      rfl
    have hcut : ∀ e bs b',bs <+: (Record.blob name parent old).encode (rs.length+1) →
        E e ⟨{ w with journal := some (journalBytes env rs++bs) },tx,b'⟩ := by
      intro e bs b' hbs
      exact hE e _ b' (h.cut hrecs hcov hbs)
    dsimp only
    split
    case isFalse => exact hsame _
    case isTrue =>
      apply wp_emit_append h.journal h.endAt
      · intro b1 hb1
        apply wp_appendChunks rfl (by rw [List.length_append,Frame.length_bytes,h.endAt])
        · intro b2 hb2
          apply (wp_modify _).2
          have hq := hQ b2 hrecs
          rw [journalBytes_append,hencode,← List.append_assoc] at hq
          exact hq
        · intro hb bs b2 hbs
          rw [List.append_assoc]
          apply hcut
          rw [hencode,List.prefix_append_right_inj]
          exact hbs
      · intro hb bs b1 hbs
        apply hcut
        rw [hencode]
        exact hbs.trans (List.prefix_append _ _)

theorem wp_snapshotBlob (h : Active env s0 rs w tx)
    (hQ : ∀ w' tx' b',Active env s0 (rs++snapshotRecords env w.files tx.blobs name) w' tx' →
      w'.files = w.files → tx'.state = tx.state → tx'.blobs = noteName tx.blobs name →
      name.bytes.drop 6∈(rs++snapshotRecords env w.files tx.blobs name).filterMap Record.blobName →
      Q () ⟨w',tx',b'⟩)
    (hE : ∀ e w' b',(∃ rs tail,Journaled env s0 rs tail w') → E e ⟨w',tx,b'⟩) :
    wp (snapshotBlob env name) ⟨w,tx,b⟩ Q E := by
  have hsame : ∀ e,E e ⟨w,tx,b⟩ := fun e => hE e w b ⟨rs,[],h.journaled⟩
  simp only [snapshotBlob,wp_bind,wp_get,wp_ensure]
  split
  case isFalse => exact hsame _
  case isTrue hname =>
    rw [wp_ite]
    split
    case isTrue hin =>
      have hnone : snapshotRecords env w.files tx.blobs name = [] := by
        simp only [snapshotRecords,hin,if_true]
        split <;> rfl
      rw [hnone,List.append_nil] at hQ
      apply (wp_pure ()).2
      apply hQ w tx b h rfl rfl
      · simp only [noteName,hin,if_true]
      · exact (h.blobs _ hname).1 hin
    case isFalse hnew =>
      simp only [wp_bind,wp_ofOption,wp_ensure]
      cases hparent : env.blobsDir with
      | none => exact hsame _
      | some parent =>
      dsimp only
      split
      case isFalse => exact hsame _
      case isTrue =>
        by_cases hforeign : w.files.slots (name.bytes.drop 6) = some .foreign
        · simp only [blobCurrent,wp_bind,wp_get,hforeign,wp_fail]
          exact hsame _
        · obtain ⟨old,hold⟩ := exists_own hforeign
          apply wp_blobCurrent hold
          split
          case isFalse => exact hsame _
          case isTrue hroom =>
            simp only [Bool.and_eq_true,decide_eq_true_eq] at hroom
            have hown : ownOf (w.files.slots (name.bytes.drop 6)) = old := by
              rw [hold]
              cases old <;> rfl
            have hrec : snapshotRecords env w.files tx.blobs name = [.blob name parent old] := by
              simp only [snapshotRecords,hparent,hnew,if_false,hown]
            rw [hrec] at hQ
            have hcov := h.covered.recordBlob parent hold
            have hrs : ∀ n,blobStreamSize (contentOf old).length = some n →
                Records env (rs++[.blob name parent old]) := by
              intro n hn
              apply h.records.append (.blob hname hparent hn)
              · rw [← h.sequence]
                omega
              · intro m hm hmem
                obtain rfl : name.bytes.drop 6 = m := by simpa [Record.blobName] using hm
                exact hnew ((h.blobs _ hname).2 hmem)
            apply wp_appendBlob h hrs hcov _ hE
            intro b1 hrecs
            apply (wp_modify _).2
            apply hQ _ _ b1 (h.recordBlob hrecs hcov hname) rfl rfl
            · simp only [noteName,hnew,if_false]
            · simp [Record.blobName]

/-! ## Blob operations -/

/-- The names that an operation changes. -/
def BlobOp.names (name : CString) : BlobOp → List CString
  | .rename dest => [name,dest]
  | _ => [name]

/-- The records of an operation: those of the names that have no snapshot yet. -/
def BlobOp.records (env : Env) (s : Files) (noted : List Bytes) (name : CString) : BlobOp → List Record
  | .rename dest =>
    snapshotRecords env s noted name++snapshotRecords env s (noteName noted name) dest
  | _ => snapshotRecords env s noted name

theorem wp_snapshotDest {before : List Bytes} (h : Active env s0 rs w tx)
    (hbefore : tx.blobs = noteName before name) (hname : name.bytes.drop 6∈rs.filterMap Record.blobName)
    (hQ : ∀ rs' w' tx' b',Active env s0 (rs++rs') w' tx' →
      snapshotRecords env w.files before name++rs' = op.records env w.files before name →
      tx'.state = tx.state →
      (∀ n∈op.names name,n.bytes.drop 6∈(rs++rs').filterMap Record.blobName) → Q () ⟨w',tx',b'⟩)
    (hE : ∀ e w' b',(∃ rs tail,Journaled env s0 rs tail w') → E e ⟨w',tx,b'⟩) :
    wp (op.snapshotDest env) ⟨w,tx,b⟩ Q E := by
  cases op with
  | replace data =>
    apply (wp_pure ()).2
    apply hQ [] w tx b (by rwa [List.append_nil]) (List.append_nil _) rfl
    simpa [BlobOp.names] using hname
  | remove =>
    apply (wp_pure ()).2
    apply hQ [] w tx b (by rwa [List.append_nil]) (List.append_nil _) rfl
    simpa [BlobOp.names] using hname
  | rename dest =>
    apply wp_snapshotBlob h _ hE
    intro w' tx' b' hact hfiles hstate _ hdest
    apply hQ _ w' tx' b' hact (by rw [hbefore]; rfl) hstate
    intro n hn
    obtain rfl | hn := List.mem_cons.1 hn
    · rw [List.filterMap_append]
      exact List.mem_append_left _ hname
    · obtain rfl : n = dest := by simpa using hn
      exact hdest

/-- The directory changes only at recorded names. -/
theorem wp_mutate (h : Active env s0 rs w tx)
    (hnames : ∀ n∈op.names name,n.bytes.drop 6∈rs.filterMap Record.blobName)
    (hQ : ∀ w' b',Active env s0 rs w' tx → Q () ⟨w',tx,b'⟩)
    (hE : ∀ e w' b',Active env s0 rs w' tx → E e ⟨w',tx,b'⟩) :
    wp (op.mutate env (name.bytes.drop 6)) ⟨w,tx,b⟩ Q E := by
  have hname : name.bytes.drop 6∈rs.filterMap Record.blobName := by
    apply hnames
    cases op <;> simp [BlobOp.names]
  have hset : ∀ v,v≠some .foreign → Active env s0 rs (w.setBlob (name.bytes.drop 6) v) tx :=
    fun v hv => h.setBlob hname hv
  have hown := h.covered.own _ hname
  cases op with
  | replace data =>
    have hfail : ∀ b1 : Option (ℕ × ℕ),b1≠none → ∀ c b',
        E .io ⟨w.setBlob (name.bytes.drop 6) (some (.own c)),tx,b'⟩ := by
      intro b1 _ c b'
      exact hE _ _ _ (hset _ (BlobEntry.own_ne_foreign _))
    simp only [BlobOp.mutate,wp_bind]
    apply wp_createMissing hown
    · intro c b1 hb1
      apply wp_emit
      · intro b2 hb2
        simp only [Effect.apply,World.onBlob_setBlob]
        apply wp_emit_onBlob (fun _ => rfl) (fun _ n => cut_whole _ n _ rfl) _ (hfail b2)
        intro b3 hb3
        exact hQ _ _ (hset _ (BlobEntry.own_ne_foreign _))
      · intro hb n b2
        simp only [Effect.cut,Effect.apply,World.onBlob_setBlob]
        exact hfail b1 hb _ b2
    · intro hb v b1 hv
      exact hE _ _ _ (hset v hv)
  | remove =>
    obtain ⟨old,hold⟩ := exists_own hown
    simp only [BlobOp.mutate,wp_bind]
    apply wp_blobCurrent hold
    simp only [wp_ensure]
    split
    · apply wp_emit
      · intro b1 hb1
        exact hQ _ _ (hset none BlobEntry.none_ne_foreign)
      · intro hb n b1
        by_cases hn : n = 0
        · simpa [Effect.cut,hn] using hE .io w b1 h
        · simpa [Effect.cut,Effect.apply,hn] using hE .io _ b1 (hset none BlobEntry.none_ne_foreign)
    · exact hE _ _ _ h
  | rename dest =>
    have hdest : dest.bytes.drop 6∈rs.filterMap Record.blobName := by
      apply hnames
      simp [BlobOp.names]
    obtain ⟨old,hold⟩ := exists_own hown
    obtain ⟨old',hold'⟩ := exists_own (h.covered.own _ hdest)
    have hmoved : Active env s0 rs
        ((w.setBlob (dest.bytes.drop 6) (w.files.slots (name.bytes.drop 6))).setBlob (name.bytes.drop 6) none) tx :=
      (h.setBlob hdest hown).setBlob hname BlobEntry.none_ne_foreign
    have hrename : Active env s0 rs
        ((Effect.blobRename (name.bytes.drop 6) (dest.bytes.drop 6)).apply w) tx := by
      simp only [Effect.apply]
      split
      · exact h
      · exact hmoved
    simp only [BlobOp.mutate,wp_bind]
    apply wp_blobCurrent hold
    apply wp_blobCurrent hold'
    simp only [wp_ensure]
    split
    · apply wp_emit
      · intro b1 hb1
        exact hQ _ _ hrename
      · intro hb n b1
        by_cases hn : n = 0
        · simpa [Effect.cut,hn] using hE .io w b1 h
        · simpa [Effect.cut,hn] using hE .io _ b1 hrename
    · exact hE _ _ _ h

theorem wp_dmUndoBlob (h : Active env s0 rs w tx) (hs : tx.state = .active)
    (hQ : ∀ w' tx' b',Active env s0 (rs++op.records env w.files tx.blobs name) w' tx' →
      tx'.state = .active → Q () ⟨w',tx',b'⟩)
    (hE : ∀ e m',Broken env s0 m' → E e m') : wp (dmUndoBlob env op name) ⟨w,tx,b⟩ Q E := by
  have hbroken : ∀ e w' tx' b',tx'.state = .abortOnly → (∃ rs tail,Journaled env s0 rs tail w') →
      E e ⟨w',tx',b'⟩ := fun e w' tx' b' hst hj => hE e _ ⟨hst,hj⟩
  have h1 := h.setState .abortOnly
  simp only [dmUndoBlob,wp_bind,wp_get,wp_ensure,setState,wp_modify,hs,wp_ofOption]
  simp only [decide_true,if_true]
  split
  case isFalse => exact hbroken _ _ _ _ rfl ⟨rs,[],h1.journaled⟩
  case isTrue =>
    apply wp_snapshotBlob h1
    · intro w2 tx2 b2 h2 hf2 hs2 hb2 hn2
      apply wp_snapshotDest h2 hb2 hn2
      · intro rs3 w3 tx3 b3 h3 hr3 hs3 hn3
        have hst : tx3.state = .abortOnly := hs3.trans hs2
        cases env.blobsDir with
        | none => exact hbroken _ _ _ _ hst ⟨_,[],h3.journaled⟩
        | some parent =>
          apply wp_mutate h3 hn3
          · intro w4 b4 h4
            apply hQ _ _ b4 _ rfl
            rw [hf2] at hr3
            rw [← hr3,← List.append_assoc]
            exact h4.setState .active
          · intro e w4 b4 h4
            exact hbroken _ _ _ _ hst ⟨_,[],h4.journaled⟩
      · intro e w3 b3 hj
        exact hbroken _ _ _ _ hs2 hj
    · intro e w2 b2 hj
      exact hbroken _ _ _ _ rfl hj

end UndoJournal
end Dataman

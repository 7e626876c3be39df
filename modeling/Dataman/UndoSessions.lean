import Dataman.UndoRecovery

/-!
# Whole transactions

Any sequence of calls after `dm_undo_begin`, each of which may fail anywhere, and
then an abort, a commit or a crash, with any number of interrupted recoveries.
-/

variable {Q : Unit → Machine → Prop} {E : Fault → Machine → Prop} {s : Files} {r : Except Fault Unit} {m : Machine} {w' : World} {j : Bytes}

namespace Dataman
namespace UndoJournal
open FailState UndoLog

/-- The contents of a database root; `off_t` bounds the length of a file. -/
structure Database where
  files : Files
  sized : ∀ file,(files.files file).length ≤ int64Max

/-! ## Calls -/

inductive Call
  | write (name : CString) (data : Bytes) (offset : ℤ)
  | writeFd (name : CString) (fd : Descriptor) (data : Bytes) (offset : ℤ)
  | blob (op : BlobOp) (name : CString)

namespace Call

def run (env : Env) : Call → JournalM Unit
  | write name data offset => dmUndoWrite env name data offset
  | writeFd name fd data offset => dmUndoWriteFd env name fd data offset
  | blob op name => dmUndoBlob env op name

/-- The records that the call appends when it succeeds. -/
def records (env : Env) (s : Files) (noted : List Bytes) : Call → List Record
  | write name data offset => writeRecords env s name data offset
  | writeFd name _ data offset => writeRecords env s name data offset
  | blob op name => op.records env s noted name

end Call

variable {env : Env} {s0 : Files} {rs : List Record} {w : World} {tx : Tx} {b : Option (ℕ × ℕ)}

theorem wp_call (c : Call)
    (h : Active env s0 rs w tx) (hs : tx.state = .active)
    (hQ : ∀ w' tx' b',Active env s0 (rs++c.records env w.files tx.blobs) w' tx' →
      tx'.state = .active → Q () ⟨w',tx',b'⟩)
    (hE : ∀ e m',Broken env s0 m' → E e m') : wp (c.run env) ⟨w,tx,b⟩ Q E := by
  cases c with
  | write name data offset => exact wp_writeTarget h hs hQ fun e m' hb _ => hE e m' hb
  | writeFd name fd data offset => exact wp_writeTarget h hs hQ fun e m' hb _ => hE e m' hb
  | blob op name => exact wp_dmUndoBlob h hs hQ hE

/-- A call of a transaction that is not active is refused. -/
theorem run_refused (c : Call) (h : tx.state≠.active) : c.run env ⟨w,tx,b⟩ = (.error .invalid,⟨w,tx,b⟩) := by
  have hd : decide (tx.state = .active) = false := decide_eq_false h
  cases c with
  | write name data offset =>
    simp only [Call.run,dmUndoWrite,writeTarget]
    rw [run_bind_ok (run_get _),run_bind_error (run_ensure_not hd _ _)]
  | writeFd name fd data offset =>
    simp only [Call.run,dmUndoWriteFd,writeTarget]
    rw [run_bind_ok (run_get _),run_bind_error (run_ensure_not hd _ _)]
  | blob op name =>
    simp only [Call.run,dmUndoBlob]
    rw [run_bind_ok (run_get _),run_bind_error (run_ensure_not hd _ _)]

/-! ## Sessions -/

/-- The disk and the process after `dm_undo_begin` returned 0 on a database and any
calls, whatever they returned. -/
inductive Session (env : Env) (db : Database) : World → Tx → Prop
  | begun {tx : Tx} {b : Option (ℕ × ℕ)} {m : Machine}
      (run : dmUndoBegin env ⟨⟨none,db.files⟩,tx,b⟩ = (.ok (),m)) : Session env db m.world m.tx
  | call {w : World} {tx : Tx} (before : Session env db w tx) (c : Call) {b : Option (ℕ × ℕ)}
      {r : Except Fault Unit} {m : Machine} (run : c.run env ⟨w,tx,b⟩ = (r,m)) : Session env db m.world m.tx

theorem Database.covered (db : Database) : Covered db.files [] db.files :=
  ⟨.refl _,by simp,db.sized⟩

/-- The journal file while `dm_undo_begin` creates it. -/
inductive Opening (env : Env) : Option Bytes → Prop
  | absent : Opening env none
  | created {bs : Bytes} (short : env.rootPath.bytes.length ≤ maxPath)
      (start : bs <+: header env++env.rootPath.bytes) : Opening env (some bs)

/-- `dm_undo_begin` writes a journal without records, or stops on the way. -/
theorem wp_dmUndoBegin
    (hQ : ∀ b',env.rootPath.bytes.length ≤ maxPath →
      Q () ⟨⟨some (journalBytes env []),s⟩,
        ⟨.active,0,headerSize+env.rootPath.bytes.length,[]⟩,b'⟩)
    (hE : ∀ e j b',Opening env j → E e ⟨⟨j,s⟩,tx,b'⟩) : wp (dmUndoBegin env) ⟨⟨none,s⟩,tx,b⟩ Q E := by
  simp only [dmUndoBegin,wp_bind,wp_ensure,wp_get,Option.isNone_none,if_true,wp_modify]
  split
  case isFalse => exact hE _ _ _ .absent
  case isTrue hpath =>
    have hshort := of_decide_eq_true hpath
    apply wp_emit
    · intro b1 _
      have hj : (Effect.journalCreate.apply ⟨none,s⟩).journal = some [] := rfl
      apply wp_emit_append hj rfl
      · intro b2 _
        apply wp_emit_append rfl (length_header env).symm
        · intro b3 _
          have hq := hQ b3 hshort
          simp only [journalBytes,encodeFrom,List.append_nil] at hq
          exact hq
        · intro _ bs b3 hbs
          exact hE _ _ b3 (.created hshort ((List.prefix_append_right_inj _).2 hbs))
      · intro _ bs b2 hbs
        apply hE
        exact .created hshort (hbs.trans (List.prefix_append _ _))
    · intro _ n b1
      by_cases hn : n = 0
      · simpa [Effect.cut,hn] using hE .io none b1 .absent
      · simpa [Effect.cut,Effect.apply,hn] using hE .io (some []) b1 (.created hshort List.nil_prefix)

theorem Database.active (db : Database) (hpath : env.rootPath.bytes.length ≤ maxPath) :
    Active env db.files [] ⟨some (journalBytes env []),db.files⟩
      ⟨.active,0,headerSize+env.rootPath.bytes.length,[]⟩ := by
  constructor
  · exact ⟨hpath,by simp,by simp,by simp⟩
  · exact db.covered
  · rfl
  · simp [journalBytes,encodeFrom]
  · rfl
  · simp

/-- What every session keeps. -/
def Holds (env : Env) (s0 : Files) (w : World) (tx : Tx) : Prop :=
  (tx.state = .active ∧ ∃ rs,Active env s0 rs w tx) ∨
    (tx.state = .abortOnly ∧ ∃ rs tail,Journaled env s0 rs tail w)

theorem Holds.call (h : Holds env s0 w tx) (c : Call)
    (hrun : c.run env ⟨w,tx,b⟩ = (r,m)) : Holds env s0 m.world m.tx := by
  obtain ⟨hs,rs,hact⟩ | ⟨hs,hj⟩ := h
  · have hspec : wp (c.run env) ⟨w,tx,b⟩ (fun _ m => Holds env s0 m.world m.tx)
        (fun _ m => Holds env s0 m.world m.tx) := by
      apply wp_call c hact hs
      · intro w' tx' b' ha hst
        exact .inl ⟨hst,_,ha⟩
      · intro e m' hb
        exact .inr hb
    cases r with
    | ok u => exact (wp_of_ok hrun).1 hspec
    | error e => exact (wp_of_error hrun).1 hspec
  · rw [run_refused c (by rw [hs]; exact nofun)] at hrun
    cases hrun
    exact .inr ⟨hs,hj⟩

/-- Only an active transaction takes calls. -/
theorem Holds.call_ok (h : Holds env s0 w tx) (c : Call) (hrun : c.run env ⟨w,tx,b⟩ = (.ok (),m)) :
    m.tx.state = .active := by
  obtain ⟨hs,rs,hact⟩ | ⟨hs,_⟩ := h
  · have hspec : wp (c.run env) ⟨w,tx,b⟩ (fun _ m => m.tx.state = .active) (fun _ _ => True) :=
      wp_call c hact hs (fun _ _ _ _ hst => hst) fun _ _ _ => trivial
    exact (wp_of_ok hrun).1 hspec
  · rw [run_refused c (by rw [hs]; simp)] at hrun
    cases hrun

theorem Session.holds {db : Database} (h : Session env db w tx) : Holds env db.files w tx := by
  induction h with
  | @begun tx b m hrun =>
    have hspec : wp (dmUndoBegin env) ⟨⟨none,db.files⟩,tx,b⟩ (fun _ m => Holds env db.files m.world m.tx)
        (fun _ _ => True) := by
      apply wp_dmUndoBegin
      · intro b' hpath
        exact .inl ⟨rfl,[],db.active hpath⟩
      · intros
        trivial
    exact (wp_of_ok hrun).1 hspec
  | call _ c hrun ih => exact ih.call c hrun

theorem Holds.journaled (h : Holds env s0 w tx) : tx.state≠.finished ∧ ∃ rs tail,Journaled env s0 rs tail w := by
  obtain ⟨hs,rs,hact⟩ | ⟨hs,hj⟩ := h
  · exact ⟨by rw [hs]; exact nofun,rs,[],hact.journaled⟩
  · exact ⟨by rw [hs]; exact nofun,hj⟩

/-! ## Aborting -/

theorem Holds.abort (h : Holds env s0 w tx) : wp (dmUndoAbort env) ⟨w,tx,b⟩ (fun _ m => m.world = ⟨none,s0⟩)
    (fun _ m => b≠none ∧ Pending env s0 m.world) := by
  obtain ⟨hs,rs,tail,hj⟩ := h.journaled
  simp only [dmUndoAbort,wp_bind,wp_get,wp_ensure,setState,wp_modify]
  rw [if_pos (decide_eq_true hs)]
  apply wp_finish hj
  · intro tx' b' _
    rfl
  · intro hb j s tx' b' hc hcov hcase
    apply And.intro hb
    obtain ⟨_,hs | hs⟩ | ⟨hf,_⟩ := hcase
    · exact hc.pending hj.torn hj.records hcov hs
    · exact .unmarked ⟨hj.records,hcov,hs.trans hj.journal,hj.torn⟩
    · simp at hf

/-- An abort whose own effects all take place gives every file and every blob back
as it was when the transaction began, and it does return. -/
theorem abort_restores {db : Database} (h : Session env db w tx) :
    (∀ b m,dmUndoAbort env ⟨w,tx,b⟩ = (.ok (),m) → m.world = ⟨none,db.files⟩) ∧
      ∃ m,dmUndoAbort env ⟨w,tx,none⟩ = (.ok (),m) := by
  constructor
  · intro b m hrun
    exact (wp_of_ok hrun).1 h.holds.abort
  · obtain ⟨_,m,hrun,_⟩ | ⟨_,_,_,hb,_⟩ := wp_cases (h.holds.abort (b := none))
    · exact ⟨m,hrun⟩
    · exact absurd rfl hb

/-- A root `/d` with one file `a` and an empty directory `blobs`. -/
def sampleEnv : Env where
  journalDir := ⟨1,2,by decide,by decide⟩
  rootPath := ⟨[47,100],by decide⟩
  rootPath_abs := rfl
  root := ⟨1,3,by decide,by decide⟩
  openRoot path := if path = [47,100] then some ⟨1,3,by decide,by decide⟩ else none
  openRoot_rootPath := rfl
  target name := if name = [97] then some ⟨1,4,by decide,by decide⟩ else none
  blobsDir := some ⟨1,5,by decide,by decide⟩
  blobsBasic := true
  created _ := ⟨0o644,0,0,by decide,by decide,by decide⟩

def sampleDatabase : Database where
  files := ⟨fun _ => [1,2,3],fun _ => none⟩
  sized _ := by simp [int64Max]

/-- After `dm_undo_begin`. -/
def sampleBegun : Except Fault Unit × Machine :=
  dmUndoBegin sampleEnv ⟨⟨none,sampleDatabase.files⟩,⟨.finished,0,0,[]⟩,none⟩

def sampleWrite : Call := .write ⟨[97],by decide⟩ [8,9] 2

/-- After a write that extends the file. -/
def sampleWritten : Except Fault Unit × Machine :=
  sampleWrite.run sampleEnv ⟨sampleBegun.2.world,sampleBegun.2.tx,none⟩

def sampleReplace : Call := .blob (.replace [5]) ⟨[98,108,111,98,115,47,120],by decide⟩

/-- After the replacement of a blob that failed with one byte of its record written. -/
def sampleTorn : Except Fault Unit × Machine :=
  sampleReplace.run sampleEnv ⟨sampleWritten.2.world,sampleWritten.2.tx,some (0,1)⟩

theorem sampleWritten_session : Session sampleEnv sampleDatabase sampleWritten.2.world sampleWritten.2.tx := by
  have hbegun : sampleBegun.1 = .ok () := by decide +kernel
  have hsession : Session sampleEnv sampleDatabase sampleBegun.2.world sampleBegun.2.tx := .begun (run_eq hbegun)
  exact hsession.call sampleWrite (run_eq rfl)

theorem abort_restores_sample : sampleTorn.1 = .error .io ∧
    ∃ m,dmUndoAbort sampleEnv ⟨sampleTorn.2.world,sampleTorn.2.tx,none⟩ = (.ok (),m) ∧
      m.world = ⟨none,sampleDatabase.files⟩ := by
  obtain ⟨hok,m,hm⟩ := abort_restores (sampleWritten_session.call sampleReplace (run_eq rfl))
  exact ⟨by decide +kernel,m,hm,hok none m hm⟩

/-! ## Crashes -/

/-- What the process does at the end, if anything. -/
inductive Decision
  | none
  | commit
  | abort
deriving DecidableEq

def Decision.run (env : Env) : Decision → JournalM Unit
  | none => pure ()
  | commit => dmUndoCommit env
  | abort => dmUndoAbort env

/-- Recoveries that did not complete. -/
inductive Interrupted (env : Env) : World → World → Prop
  | refl (w : World) : Interrupted env w w
  | recover {w w' : World} (before : Interrupted env w w') {tx : Tx} {b : Option (ℕ × ℕ)} {e : Fault} {m : Machine}
      (run : dmUndoRecover env ⟨w',tx,b⟩ = (.error e,m)) : Interrupted env w m.world

/-- The RESOLVED record is completely in the journal that was `w.journal` before, or
the journal has been removed since. -/
def Resolved (w w' : World) : Prop :=
  w'.journal = none ∨ ∃ j seq,w.journal = some j ∧ w'.journal = some (j++(resolvedFrame seq).bytes)

theorem Pending.interrupted {w : World} (h : Pending env s w) (hi : Interrupted env w w') :
    Pending env s w' := by
  induction hi with
  | refl => exact h
  | recover _ hrun ih => exact ((wp_of_error hrun).1 ih.recover).2

theorem length_resolvedFrame (seq : ℕ) : (resolvedFrame seq).bytes.length = recordSize := Frame.length_bytes _

/-- A journal with less than a record behind it is not resolved. -/
theorem not_resolved (bs : Bytes) (hw : w.journal = some j) (hw' : w'.journal = some (j++bs))
    (hs : bs.length < recordSize) : ¬ Resolved w w' := by
  intro h
  obtain h | ⟨j',seq,hj,hj'⟩ := h
  · rw [hw'] at h
    simp at h
  · obtain rfl : j = j' := Option.some.inj (hw.symm.trans hj)
    have he : j++bs = j++(resolvedFrame seq).bytes := Option.some.inj (hw'.symm.trans hj')
    have hl := congrArg List.length (List.append_cancel_left he)
    rw [length_resolvedFrame] at hl
    omega

theorem not_resolved_self {w : World} (hw : w.journal = some j) : ¬ Resolved w w :=
  not_resolved [] hw (by rw [hw,List.append_nil]) (by decide)

/-- A commit keeps the files; whether it counts is up to the RESOLVED record. -/
theorem Active.commit (h : Active env s0 rs w tx) (hs : tx.state = .active) : wp (dmUndoCommit env) ⟨w,tx,b⟩
    (fun _ m => m.world = ⟨none,w.files⟩)
    (fun _ m => (Resolved w m.world → Pending env w.files m.world) ∧
      (¬ Resolved w m.world → Pending env s0 m.world)) := by
  have hj := h.journaled
  simp only [dmUndoCommit,wp_bind,wp_get,wp_ensure,UndoJournal.setState,wp_modify]
  rw [if_pos (decide_eq_true hs)]
  apply wp_finish hj
  · intro tx' b' _
    rfl
  · intro hb j s tx' b' hc hcov hcase
    obtain ⟨ht,_⟩ | ⟨_,rfl⟩ := hcase
    · simp at ht
    · have hshort : ∀ bs : Bytes,bs.length < recordSize →
          ¬ Resolved w ⟨some (journalBytes env rs++bs),w.files⟩ ∧
            Pending env s0 ⟨some (journalBytes env rs++bs),w.files⟩ := by
        intro bs hbs
        exact ⟨not_resolved bs h.journal rfl hbs,.unmarked ⟨h.records,hcov,rfl,.short hbs⟩⟩
      cases hc with
      | same =>
        obtain ⟨hn,hp⟩ := hshort [] (by decide)
        exact ⟨fun hr => absurd hr hn,fun _ => hp⟩
      | unmarked hbs =>
        obtain ⟨hn,hp⟩ := hshort _ hbs
        exact ⟨fun hr => absurd hr hn,fun _ => hp⟩
      | marked =>
        constructor
        · intro _
          exact .marked h.records ⟨h.records.valid,h.records.once,hcov.own⟩ rfl rfl
        · intro hn
          exact absurd (.inr ⟨_,_,h.journal,rfl⟩) hn
      | gone =>
        constructor
        · intro _
          exact .gone rfl rfl
        · intro hn
          exact absurd (.inl rfl) hn

/-- Where recovery comes to after a decision, cut anywhere or not. -/
theorem Holds.decided (h : Holds env s0 w tx) (d : Decision)
    (hrun : d.run env ⟨w,tx,b⟩ = (r,m)) :
    (d = .commit ∧ Resolved w m.world → Pending env w.files m.world) ∧
      (¬ (d = .commit ∧ Resolved w m.world) → Pending env s0 m.world) := by
  obtain ⟨_,rs,tail,hj⟩ := h.journaled
  have hback : Pending env s0 w := .unmarked hj
  cases d with
  | none =>
    obtain rfl : ⟨w,tx,b⟩ = m := congrArg Prod.snd hrun
    exact ⟨fun hd => (nomatch hd.1),fun _ => hback⟩
  | abort =>
    constructor
    · intro hd
      exact nomatch hd.1
    · intro _
      cases r with
      | ok u =>
        have hw := (wp_of_ok hrun).1 h.abort
        exact .gone (by rw [hw]) (by rw [hw])
      | error e => exact ((wp_of_error hrun).1 h.abort).2
  | commit =>
    obtain ⟨hs,rs,hact⟩ | ⟨hs,_⟩ := h
    · cases r with
      | ok u =>
        have hw := (wp_of_ok hrun).1 (hact.commit hs)
        constructor
        · intro _
          exact .gone (by rw [hw]) (by rw [hw])
        · intro hn
          exact absurd ⟨rfl,.inl (by rw [hw])⟩ hn
      | error e =>
        obtain ⟨hyes,hno⟩ := (wp_of_error hrun).1 (hact.commit hs)
        exact ⟨fun hd => hyes hd.2,fun hn => hno (fun hr => hn ⟨rfl,hr⟩)⟩
    · have hrefuse : dmUndoCommit env ⟨w,tx,b⟩ = (.error .invalid,⟨w,tx,b⟩) := by
        have hd : decide (tx.state = .active) = false := decide_eq_false (by rw [hs]; exact nofun)
        rw [dmUndoCommit,run_bind_ok (run_get _),run_bind_error (run_ensure_not hd _ _)]
      obtain rfl : ⟨w,tx,b⟩ = m := congrArg Prod.snd (hrefuse.symm.trans hrun)
      exact ⟨fun hd => absurd hd.2 (not_resolved_self hj.journal),fun _ => hback⟩

theorem recover_nothing (hw : w.journal = none) : dmUndoRecover env ⟨w,tx,b⟩ = (.ok (),⟨w,tx,b⟩) := by
  rw [dmUndoRecover,run_bind_ok (run_get _)]
  simp only [hw,Option.isNone_none,if_true]
  rfl

/-- After any calls, any decision cut anywhere and any interrupted recoveries, a
recovery that completes leaves the files as they were at the start, or as they were
committed if the RESOLVED record of a commit was whole; the journal is gone and
recovering again changes nothing. A recovery that is not cut does complete. -/
theorem recovery_all_or_nothing {db : Database} (h : Session env db w tx) (d : Decision)
    {r : Except Fault Unit} {m : Machine} (hd : d.run env ⟨w,tx,b⟩ = (r,m)) {w' : World}
    (hi : Interrupted env m.world w') :
    (∀ tx' b' m',dmUndoRecover env ⟨w',tx',b'⟩ = (.ok (),m') →
      m'.world.journal = none ∧
      (d = .commit ∧ Resolved w m.world → m'.world.files = w.files) ∧
      (¬ (d = .commit ∧ Resolved w m.world) → m'.world.files = db.files) ∧
      ∀ tx'' b'',dmUndoRecover env ⟨m'.world,tx'',b''⟩ = (.ok (),⟨m'.world,tx'',b''⟩)) ∧
    ∀ tx',∃ m',dmUndoRecover env ⟨w',tx',none⟩ = (.ok (),m') := by
  obtain ⟨hyes,hno⟩ := h.holds.decided d hd
  have hpend : ∃ s,Pending env s w' := by
    by_cases hc : d = .commit ∧ Resolved w m.world
    · exact ⟨_,(hyes hc).interrupted hi⟩
    · exact ⟨_,(hno hc).interrupted hi⟩
  constructor
  · intro tx' b' m' hrun
    obtain ⟨s,hs⟩ := hpend
    have hgone : m'.world.journal = none := by rw [(wp_of_ok hrun).1 hs.recover]
    constructor
    · exact hgone
    · constructor
      · intro hc
        rw [(wp_of_ok hrun).1 ((hyes hc).interrupted hi).recover]
      · constructor
        · intro hc
          rw [(wp_of_ok hrun).1 ((hno hc).interrupted hi).recover]
        · intro tx'' b''
          exact recover_nothing hgone
  · intro tx'
    obtain ⟨s,hs⟩ := hpend
    have hspec : wp (dmUndoRecover env) ⟨w',tx',none⟩ _ _ := hs.recover
    obtain ⟨_,m',hrun,_⟩ | ⟨_,_,_,hb,_⟩ := wp_cases hspec
    · exact ⟨m',hrun⟩
    · exact absurd rfl hb

/-- A commit cut after ten bytes of its RESOLVED record. -/
def sampleCommit : Except Fault Unit × Machine :=
  Decision.commit.run sampleEnv ⟨sampleWritten.2.world,sampleWritten.2.tx,some (1,10)⟩

/-- A recovery cut at its first effect. -/
def sampleRecover : Except Fault Unit × Machine :=
  dmUndoRecover sampleEnv ⟨sampleCommit.2.world,sampleCommit.2.tx,some (0,0)⟩

theorem recovery_all_or_nothing_sample : sampleCommit.1 = .error .io ∧ sampleRecover.1 = .error .io ∧
    ∃ m,dmUndoRecover sampleEnv ⟨sampleRecover.2.world,sampleCommit.2.tx,none⟩ = (.ok (),m) ∧
      m.world.journal = none := by
  have hcut : sampleRecover.1 = .error .io := by decide +kernel
  have hinter : Interrupted sampleEnv sampleCommit.2.world sampleRecover.2.world :=
    (Interrupted.refl _).recover (run_eq hcut)
  have hrun : Decision.commit.run sampleEnv ⟨sampleWritten.2.world,sampleWritten.2.tx,some (1,10)⟩ =
      (sampleCommit.1,sampleCommit.2) := by
    rw [← sampleCommit]
  obtain ⟨hok,hdone⟩ := recovery_all_or_nothing sampleWritten_session .commit hrun hinter
  obtain ⟨m,hm⟩ := hdone sampleCommit.2.tx
  exact ⟨by decide +kernel,hcut,m,hm,(hok _ _ m hm).1⟩

end UndoJournal
end Dataman

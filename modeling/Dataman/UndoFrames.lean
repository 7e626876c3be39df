import Dataman.UndoEffects

/-!
# What the undo journal leaves alone

A write through a descriptor changes the file of that descriptor and no other, and an
operation on blobs changes no file, wherever they are cut.
-/

namespace Dataman
namespace UndoJournal
open ByteFiles FailState

/-- The contents of one file. -/
def fileBytes (g : Ident) (m : Machine) : Bytes := m.world.files.files g

/-- The file that an effect changes. -/
def touches : Effect → Option Ident
  | .fileWrite file _ _ | .fileTruncate file _ => some file
  | _ => none

theorem files_onBlob (w : World) (name : Bytes) (change : BlobFile → BlobFile) : (w.onBlob name change).files.files = w.files.files := by
  unfold World.onBlob
  split <;> rfl

theorem apply_files {g : Ident} {e : Effect} (h : touches e≠some g) (w : World) : (e.apply w).files.files g = w.files.files g := by
  cases e with
  | fileWrite file off data => exact Function.update_of_ne (fun hg => h (congrArg some hg.symm)) _ _
  | fileTruncate file size => exact Function.update_of_ne (fun hg => h (congrArg some hg.symm)) _ _
  | blobWrite name off data => exact congrFun (files_onBlob _ _ _) g
  | blobTruncate name size => exact congrFun (files_onBlob _ _ _) g
  | blobChown name attr => exact congrFun (files_onBlob _ _ _) g
  | blobChmod name attr => exact congrFun (files_onBlob _ _ _) g
  | blobRename name dest =>
    rw [Effect.apply]
    split <;> rfl
  | _ => rfl

theorem cut_files {g : Ident} {e : Effect} (h : touches e≠some g) (w : World) (n : ℕ) :
    (e.cut w n).files.files g = w.files.files g := by
  have hwhole : (if n = 0 then w else e.apply w).files.files g = w.files.files g := by
    split
    · rfl
    · exact apply_files h w
  cases e with
  | journalWrite off data => rfl
  | fileWrite file off data => exact apply_files (e := .fileWrite file off (data.take n)) h w
  | blobWrite name off data => exact apply_files (e := .blobWrite name off (data.take n)) h w
  | _ => exact hwhole

theorem preserves_emit {g : Ident} {e : Effect} (h : touches e≠some g) : Preserves (fileBytes g) (emit e) := by
  intro m
  apply wp_emit
  · exact fun _ _ => apply_files h m.world
  · exact fun _ n _ => cut_files h m.world n

theorem preserves_quiet {g : Ident} {e : Effect} (h : touches e = none) : Preserves (fileBytes g) (emit e) := by
  apply preserves_emit
  rw [h]
  exact (Option.some_ne_none g).symm

theorem preserves_setState (g : Ident) (state : UndoJournal.State) : Preserves (fileBytes g) (setState state) :=
  preserves_modify fun _ => rfl

theorem preserves_append (g : Ident) (record : Frame) : Preserves (fileBytes g) (append record) := by
  apply preserves_bind preserves_get
  intro m
  apply preserves_bind (preserves_quiet rfl)
  intro _
  exact preserves_modify fun _ => rfl

/-- A write through a descriptor changes the file of the descriptor only. -/
theorem preserves_writeFd {g : Ident} {fd : Descriptor} (hne : fd.file≠some g) (env : Env) (name : CString) (data : Bytes)
    (offset : ℤ) : Preserves (fileBytes g) (dmUndoWriteFd env name fd data offset) := by
  apply preserves_bind preserves_get
  intro m
  apply preserves_bind (preserves_ensure _ _)
  intro _
  apply preserves_bind (preserves_setState g _)
  intro _
  apply preserves_bind (preserves_ensure _ _)
  intro _
  apply preserves_ite
  · exact fun _ => preserves_setState g _
  intro _
  apply preserves_bind (preserves_ofOption _ _)
  -- behind the check the file is the one of the descriptor
  intro file m
  refine (wp_bind _ _).2 ?_
  rw [checkDescriptor]
  simp only [wp_bind,wp_ofOption,wp_ensure]
  cases hfile : fd.file with
  | none => trivial
  | some expected =>
    dsimp only
    split
    case isFalse => trivial
    split
    case isFalse => trivial
    case isTrue hsame =>
      have hother : some file≠some g := by
        rw [of_decide_eq_true hsame,← hfile]
        exact hne
      refine preserves_ite ?_ ?_ m
      · exact fun _ => preserves_setState g _
      intro _
      apply preserves_bind preserves_get
      intro m'
      apply preserves_bind (preserves_ensure _ _)
      intro _
      apply preserves_bind (preserves_append g _)
      intro _
      exact preserves_bind (preserves_emit hother) fun _ => preserves_setState g _

theorem preserves_blobCurrent (g : Ident) (name : Bytes) : Preserves (fileBytes g) (blobCurrent name) := by
  apply preserves_bind preserves_get
  intro m
  split
  · exact preserves_pure _
  · exact preserves_pure _
  · exact preserves_fail _

theorem preserves_appendChunks (g : Ident) (pos : ℕ) (chunks : List Bytes) : Preserves (fileBytes g) (appendChunks pos chunks) := by
  induction chunks generalizing pos with
  | nil => exact preserves_pure ()
  | cons chunk rest ih =>
    apply preserves_bind (preserves_quiet rfl)
    intro _
    exact preserves_bind (preserves_quiet rfl) fun _ => ih _

theorem preserves_appendBlob (g : Ident) (record : Frame) (content : Bytes) : Preserves (fileBytes g) (appendBlob record content) := by
  apply preserves_bind preserves_get
  intro m
  apply preserves_bind (preserves_ofOption _ _)
  intro encoded
  apply preserves_bind (preserves_ensure _ _)
  intro _
  apply preserves_bind (preserves_quiet rfl)
  intro _
  apply preserves_bind (preserves_appendChunks g _ _)
  intro _
  exact preserves_modify fun _ => rfl

theorem preserves_snapshotBlob (g : Ident) (env : Env) (name : CString) : Preserves (fileBytes g) (snapshotBlob env name) := by
  apply preserves_bind (preserves_ensure _ _)
  intro _
  apply preserves_bind preserves_get
  intro m
  apply preserves_ite
  · exact fun _ => preserves_pure ()
  intro _
  apply preserves_bind (preserves_ofOption _ _)
  intro parent
  apply preserves_bind (preserves_ensure _ _)
  intro _
  apply preserves_bind (preserves_blobCurrent g _)
  intro old
  apply preserves_bind (preserves_ensure _ _)
  intro _
  apply preserves_bind (preserves_appendBlob g _ _)
  intro _
  exact preserves_modify fun _ => rfl

theorem preserves_mutate (g : Ident) (env : Env) (name : Bytes) (op : BlobOp) : Preserves (fileBytes g) (op.mutate env name) := by
  cases op with
  | replace data =>
    have hcreate : Preserves (fileBytes g) (createMissing env name 0o666) :=
      preserves_bind (preserves_blobCurrent g name) fun current =>
        preserves_ite (fun _ => preserves_pure ()) fun _ => preserves_quiet rfl
    apply preserves_bind hcreate
    intro _
    exact preserves_bind (preserves_quiet rfl) fun _ => preserves_quiet rfl
  | remove =>
    apply preserves_bind (preserves_blobCurrent g name)
    intro current
    exact preserves_bind (preserves_ensure _ _) fun _ => preserves_quiet rfl
  | rename dest =>
    apply preserves_bind (preserves_blobCurrent g name)
    intro current
    apply preserves_bind (preserves_blobCurrent g _)
    intro _
    exact preserves_bind (preserves_ensure _ _) fun _ => preserves_quiet rfl

/-- An operation on blobs changes no file. -/
theorem preserves_blob (g : Ident) (env : Env) (op : BlobOp) (name : CString) : Preserves (fileBytes g) (dmUndoBlob env op name) := by
  apply preserves_bind preserves_get
  intro m
  apply preserves_bind (preserves_ensure _ _)
  intro _
  apply preserves_bind (preserves_setState g _)
  intro _
  apply preserves_bind (preserves_ensure _ _)
  intro _
  apply preserves_bind (preserves_snapshotBlob g env name)
  intro _
  have hdest : Preserves (fileBytes g) (op.snapshotDest env) := by
    cases op with
    | rename dest => exact preserves_snapshotBlob g env dest
    | _ => exact preserves_pure ()
  apply preserves_bind hdest
  intro _
  apply preserves_bind (preserves_ofOption _ _)
  intro _
  exact preserves_bind (preserves_mutate g env _ op) fun _ => preserves_setState g _

end UndoJournal
end Dataman

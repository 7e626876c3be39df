import Dataman.IndexBuild

/-!
# Reachable index files

The states of an index file under any sequence of calls of its interface, with the
invariant that each of them satisfies.
-/

namespace Dataman.IndexFile
open ByteFiles FixedWidthFields FailState PageTree

variable {ctx : Context} {first : ℕ} {f : Bytes}

/-- The data of one entry. -/
structure Composite where
  key : Bytes
  fileId : ℕ
  record : ℕ
  deriving DecidableEq,Repr

/-- The values that the C parameters can carry for an index of this key length. -/
structure Composite.Fits (keylen : ℕ) (c : Composite) : Prop where
  key_length : c.key.length = keylen
  fileId_lt : c.fileId < 2 ^ 16
  record_lt : c.record < 2 ^ 64

def Composite.encode (keylen : ℕ) (c : Composite) : Bytes := composite keylen c.key c.fileId c.record

/-- An update of a finished index. -/
inductive Request
  | insert (c : Composite)
  | remove (c : Composite)
  deriving DecidableEq,Repr

def Request.composite : Request → Composite
  | insert c => c
  | remove c => c

def Request.run : Request → IndexM Unit
  | insert c => do
    let _ ← indexV2Insert c.key c.fileId c.record
    return ()
  | remove c => indexV2Remove c.key c.fileId c.record

/-- The calls that change an index file. -/
inductive Call
  | request (r : Request)
  | buildInsert (c : Composite)
  | buildFinish
  deriving DecidableEq,Repr

def Call.run : Call → IndexM Unit
  | request r => r.run
  | buildInsert c => do
    let _ ← indexV2BuildInsert c.key c.fileId c.record
    return ()
  | buildFinish => do
    let _ ← indexV2BuildFinish
    return ()

def Call.Fits (keylen : ℕ) : Call → Prop
  | request r => r.composite.Fits keylen
  | buildInsert c => c.Fits keylen
  | buildFinish => True

/-- The files reached from a new index by calls whose I/O succeeds. -/
inductive Reachable (keylen : ℕ) (fileNames : List Bytes) : Bytes → Prop
  | created {root : ℕ} {s : IndexState} (h : indexV2CreateEmpty keylen fileNames { bytes := [] } = (.ok root,s)) :
      Reachable keylen fileNames s.bytes
  | begun {root : ℕ} {s : IndexState} (h : indexV2BuildBegin keylen fileNames { bytes := [] } = (.ok root,s)) :
      Reachable keylen fileNames s.bytes
  | called {f : Bytes} {c : Call} {out : Except Fault Unit} {s : IndexState} (reachable : Reachable keylen fileNames f)
      (fits : c.Fits keylen) (h : c.run { bytes := f } = (out,s)) (io : out≠.error .io) :
      Reachable keylen fileNames s.bytes

/-! ## Outcomes of requests -/

/-- The entries after a request that succeeds. -/
def Request.change (keylen : ℕ) : Request → List Bytes → List Bytes
  | insert c,es => es.orderedInsert (· ≤ ·) (c.encode keylen)
  | remove c,es => es.erase (c.encode keylen)

/-- The entries under which a request succeeds. -/
def Request.Allowed (keylen : ℕ) : Request → List Bytes → Prop
  | insert c,es => c.encode keylen∉es
  | remove c,es => c.encode keylen∈es

def Request.refusal : Request → Fault
  | insert _ => .duplicate
  | remove _ => .missing

theorem Request.run_spec {r : Request} {s : IndexState} (hcow : ctx.inPlace = false) (hi : Index ctx first s.bytes)
    (hfit : r.composite.Fits ctx.keylen) :
    wp r.run s
      (fun _ s' => Applied ctx first s s' r.composite.fileId (r.Allowed ctx.keylen) (r.change ctx.keylen))
      (fun e s' => Rejected ctx first s s' r.composite.fileId r.refusal (¬ r.Allowed ctx.keylen ·) e) := by
  cases r with
  | insert c =>
    have hnn : (fun es => ¬ Request.Allowed ctx.keylen (.insert c) es) = (c.encode ctx.keylen ∈ ·) := by
      funext es
      simp [Request.Allowed]
    simp only [Request.run,wp_bind,wp_pure,hnn]
    exact indexV2Insert_spec hcow hi hfit.key_length.ge c.fileId c.record
  | remove c => exact indexV2Remove_spec hcow hi hfit.key_length.ge c.fileId c.record

/-- Nothing happens to a file whose header cannot be read. -/
theorem Request.run_unreadable (r : Request) {s : IndexState} (h : indexV2ReadHeader s.bytes = none) :
    wp r.run s (fun _ _ => False) (fun e s' => e = .header ∧ s' = s) := by
  have hopen : ∀ fileId,wp (openForUpdate fileId) s (fun _ _ => False) (fun e s' => e = .header ∧ s' = s) := by
    intro fileId
    simp [openForUpdate,h]
  cases r with
  | insert c =>
    simp only [Request.run,indexV2Insert,wp_bind]
    exact wp_mono (hopen _) (fun _ _ h => h.elim) fun _ _ h => h
  | remove c =>
    simp only [Request.run,indexV2Remove,wp_bind]
    exact wp_mono (hopen _) (fun _ _ h => h.elim) fun _ _ h => h

theorem Committed.index {s s' : IndexState} {hd : Header} {h : ℕ} {t : Summary Bytes} {ws : List (ℕ × Bytes)}
    {root : Slot} (hi : Index ctx first s.bytes) (hc : Committed ctx first s s' hd h t ws root) :
    Index ctx first s'.bytes := by
  obtain ⟨s1,hw,ht,hbytes,-⟩ := hc.written
  have hlay := hw.layout
  rw [hw.bytes_eq] at hlay ht hbytes
  rw [hbytes]
  exact (hi.beside hw.beside hlay).publish hc.publishable hc.off ht

theorem Rejected.index {s s' : IndexState} {fileId : ℕ} {entry e : Fault} {refused : List Bytes → Prop}
    (hi : Index ctx first s.bytes) (hr : Rejected ctx first s s' fileId entry refused e) (hio : e≠.io) :
    Index ctx first s'.bytes := by
  cases hr with
  | io => exact absurd rfl hio
  | publish _ hab =>
    obtain ⟨ws,hw⟩ := hab.written
    have hlay := hw.layout
    rw [hw.bytes_eq] at hlay ⊢
    exact hi.beside hw.beside hlay
  | header hb => rwa [hb]
  | argument hb => rwa [hb]
  | entry hb => rwa [hb]

/-! ## The invariant -/

/-- Either a finished index or one under construction, with the parameters of its creation. -/
inductive Good (keylen : ℕ) (fileNames : List Bytes) (f : Bytes) : Prop
  | index {first : ℕ} (h : Index (newContext keylen fileNames false) first f)
  | building {first h : ℕ} {t : Summary Bytes} (h : Building (newContext keylen fileNames true) first f h t)

theorem fixedFields_ne (h : fixedFields f flagBuilding = true) : fixedFields f 0 = false := by
  simp only [fixedFields,Bool.and_eq_true,decide_eq_true_eq] at h
  simp [fixedFields,h.2,flagBuilding]

theorem readHeader_building (h : fixedFields f flagBuilding = true) : indexV2ReadHeader f = none := by
  cases hh : indexV2ReadHeader f with
  | none => rfl
  | some hd =>
    have := (published_of_readHeader hh).fixed
    simp [fixedFields_ne h] at this

theorem readBuildHeader_index (h : fixedFields f 0 = true) : v2ReadBuildHeader f = none := by
  have hne : fixedFields f flagBuilding = false := by
    by_contra hb
    simp [fixedFields_ne (Bool.eq_true_of_not_eq_false hb)] at h
  unfold v2ReadBuildHeader
  cases hr : readAt f 0 128 with
  | none => rfl
  | some header =>
    obtain ⟨-,rfl⟩ := readAt_eq_some.1 hr
    simp [fixedFields_header,hne,guard_eq_ite]

/-- The faults that a call can end in; the others belong to checks of the tree's shape. -/
def Fault.expected : Fault → Prop
  | .io | .header | .argument | .duplicate | .missing | .publish => True
  | .badNode | .keyCount | .pageOverflow | .internalCount | .siblingKind | .emptyLeaf | .livePages | .depth => False

/-- One call keeps the invariant and fails only for an expected reason. -/
theorem Call.run_good {keylen : ℕ} {fileNames : List Bytes} {c : Call} {s : IndexState} (hg : Good keylen fileNames s.bytes)
    (hfit : c.Fits keylen) :
    wp c.run s (fun _ s' => Good keylen fileNames s'.bytes)
      (fun e s' => e.expected ∧ (e≠.io → Good keylen fileNames s'.bytes)) := by
  cases hg with
  | @index first hi =>
    have hbuild := readBuildHeader_index hi.fixed
    cases c with
    | request r =>
      refine wp_mono (Request.run_spec rfl hi hfit) ?_ ?_
      · rintro - s' ⟨-,hd,h,t,-,-,h',t',ws,root,-,hcom⟩
        exact .index (hcom.index hi)
      · intro e s' hrej
        refine ⟨?_,fun hio => .index (hrej.index hi hio)⟩
        cases hrej <;> (try exact trivial)
        cases r <;> exact trivial
    | buildInsert c => simp [Call.run,indexV2BuildInsert,hbuild,Fault.expected,Good.index hi]
    | buildFinish => simp [Call.run,indexV2BuildFinish,hbuild,Fault.expected,Good.index hi]
  | @building first h t hb =>
    cases c with
    | request r =>
      refine wp_mono (r.run_unreadable (readHeader_building hb.fixed)) (fun _ _ h => h.elim) ?_
      rintro e s' ⟨rfl,rfl⟩
      exact ⟨trivial,fun _ => .building hb⟩
    | buildInsert c =>
      simp only [Call.run,wp_bind,wp_pure]
      refine wp_mono (indexV2BuildInsert_spec rfl hb (hfit.key_length.ge) c.fileId c.record) ?_ ?_
      · rintro - s' ⟨-,-,h',t',hb',-⟩
        exact .building hb'
      · rintro e s' (rfl | ⟨hbytes,rfl | rfl⟩)
        · exact ⟨trivial,fun h => absurd rfl h⟩
        · exact ⟨trivial,fun _ => .building (hbytes ▸ hb)⟩
        · exact ⟨trivial,fun _ => .building (hbytes ▸ hb)⟩
    | buildFinish =>
      simp only [Call.run,wp_bind,wp_pure]
      refine wp_mono (indexV2BuildFinish_spec hb) ?_ ?_
      · rintro - s' ⟨-,hi,-,-⟩
        exact .index hi
      · rintro e s' rfl
        exact ⟨trivial,fun h => absurd rfl h⟩

theorem good_of_reachable {keylen : ℕ} {fileNames : List Bytes} (hcount : fileNames.length < 2 ^ 16)
    (hr : Reachable keylen fileNames f) : Good keylen fileNames f := by
  induction hr with
  | @created root s h =>
    have hspec := @indexV2CreateEmpty_spec keylen fileNames { bytes := [] } rfl hcount
    rw [wp,h] at hspec
    exact .index hspec.toIndex
  | @begun root s h =>
    have hspec := @indexV2BuildBegin_spec keylen fileNames { bytes := [] } rfl hcount
    rw [wp,h] at hspec
    exact .building hspec
  | @called f c out s _ hfit h hio ih =>
    have hspec := Call.run_good (s := { bytes := f }) ih hfit
    rw [wp,h] at hspec
    cases out with
    | ok _ => exact hspec
    | error e => exact hspec.2 fun he => hio (he ▸ rfl)

end Dataman.IndexFile

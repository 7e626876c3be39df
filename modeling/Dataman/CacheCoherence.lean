import Dataman.IndexCaches
import Dataman.IndexCreation
import Dataman.UndoFrames

/-!
# Caches follow commit and rollback

In a transaction the slots of an index file that has been bound are registered; the other
slots and their files stay as they were. The end of the transaction refreshes what is
registered, after it has checked all of it.
-/

namespace Dataman.IndexCaches
open FailState UndoJournal TransactionSession SessionRoot
open TransactionWire (Refusal Answers Idle Jammed Within Working Closing Worked beginSession commitSession abortSession finishImplicit
  dmTxDispatch answer)

variable {budget : Budget}

/-- What the journal does not change, the manager does not change either. -/
theorem undo_files {v : View} {q : Env → JournalM Unit} {g : Ident}
    (h : ∀ env,Preserves (fileBytes g) (q env)) : (v.undo q budget).2.disk.files g = v.disk.files g := by
  unfold View.undo
  split
  · rfl
  · exact (h _).run _

/-! ## Slots and their files -/

variable {μ : Type} {sys : System} {table : Table} {file : ℕ → Ident} {shmid : ℤ} {env : Env} {d : Disk} {v v' : View} {i : ℕ}

/-- The slot has the root and the generation of the header. -/
def Current (index : Index) (bytes : Bytes) : Prop :=
  ∃ header,IndexFile.indexV2ReadHeader bytes = some header ∧ index.rootpos = header.root.rootOffset ∧
    index.generation = header.root.generation

/-- Every open slot is current. -/
def Coherent (table : Table) (file : ℕ → Ident) (v : View) : Prop :=
  ∀ i,table.Open i → Current (v.indices i) (v.disk.files (file i))

/-- Every open slot has its file open. -/
def Attached (sys : System) (table : Table) (file : ℕ → Ident) (v : View) : Prop :=
  ∀ i,table.Open i → (sys.os (v.indices i).idxchan).file = some (file i)

/-- The slot is registered. -/
def Tracked (i : ℕ) (v : View) : Prop := ∃ entry∈v.manager.cachedIndices,entry.index = i

/-- A transaction that began on the disk `d`: a slot that is not registered is current, and its file is as it was. -/
structure Follows (sys : System) (table : Table) (file : ℕ → Ident) (d : Disk) (v : View) : Prop where
  attached : Attached sys table file v
  entries : ∀ entry∈v.manager.cachedIndices,table.Open entry.index → entry.file = file entry.index
  untouched : ∀ i,table.Open i → ¬Tracked i v → v.disk.files (file i) = d.files (file i) ∧ Current (v.indices i) (d.files (file i))

/-- The open slots of the files that are bound are registered. -/
def Covered (sys : System) (table : Table) (file : ℕ → Ident) (targets : List Target) (v : View) : Prop :=
  ∀ i,table.Open i → (∃ target∈targets,(sys.os target.fd).file = some (file i)) → Tracked i v

/-- Slots, registered slots and the thread are the same. -/
structure SameSlots (v v' : View) : Prop where
  indices : v'.indices = v.indices
  cached : v'.manager.cachedIndices = v.manager.cachedIndices
  thread : v'.thread = v.thread

theorem SameSlots.tracked (h : SameSlots v v') : Tracked i v' ↔ Tracked i v := by rw [Tracked,h.cached,Tracked]

theorem sameSlots_fail : SameSlots v v.fail := ⟨rfl,rfl,rfl⟩

theorem sameSlots_undo (q : Env → JournalM Unit) (budget : Budget) : SameSlots v (v.undo q budget).2 := by
  unfold View.undo
  split
  · exact ⟨rfl,rfl,rfl⟩
  · exact ⟨rfl,rfl,rfl⟩

theorem Follows.of_same (h : Follows sys table file d v) (hs : SameSlots v v')
    (hfiles : ∀ i,table.Open i → ¬Tracked i v → v'.disk.files (file i) = v.disk.files (file i)) : Follows sys table file d v' := by
  constructor
  · intro i hi
    rw [hs.indices]
    exact h.attached i hi
  · rw [hs.cached]
    exact h.entries
  · intro i hi hnot
    rw [hs.tracked] at hnot
    obtain ⟨hsame,hcurrent⟩ := h.untouched i hi hnot
    rw [hfiles i hi hnot,hs.indices]
    exact ⟨hsame,hcurrent⟩

/-! ## The thread at work -/

/-- A thread that works for the transaction has registered what it can change. -/
structure AtWork (sys : System) (table : Table) (file : ℕ → Ident) (shmid : ℤ) (env : Env) (d : Disk) (v : View) : Prop where
  working : Working shmid env d v
  follows : Follows sys table file d v
  covered : Covered sys table file v.thread.scope.targets v

theorem AtWork.of_same (h : AtWork sys table file shmid env d v) (hw : Working shmid env d v') (hs : SameSlots v v')
    (hfiles : ∀ i,table.Open i → ¬Tracked i v → v'.disk.files (file i) = v.disk.files (file i)) :
    AtWork sys table file shmid env d v' := by
  refine ⟨hw,h.follows.of_same hs hfiles,?_⟩
  intro i hi hbound
  rw [hs.thread] at hbound
  exact hs.tracked.2 (h.covered i hi hbound)

theorem AtWork.fail (h : AtWork sys table file shmid env d v) : AtWork sys table file shmid env d v.fail :=
  h.of_same (h.working.of_same h.working.toWithin.fail rfl rfl) sameSlots_fail fun _ _ _ => rfl

theorem performs_same {call : UndoJournal.Call} {good : Result} {bad : Fault → Result} {out : Result × View}
    (h : Performs v call budget good bad out) : SameSlots v out.2 := by
  have hs := @sameSlots_undo v (call.run ·) budget
  cases h with
  | done ok => exact hs
  | broken e error => exact ⟨hs.indices,hs.cached,hs.thread⟩

theorem AtWork.write (h : AtWork sys table file shmid env d v) (w : Write) : AtWork sys table file shmid env d (w.run sys v) := by
  have hworked := h.working.routeWrite sys.os w.fd w.data w.offset w.budget
  have hkeeps := hworked.keeps h.working
  have hcases := routeWrite_cases sys.os w.fd w.data w.offset w.budget h.working.owns
  rw [Write.run]
  generalize routeWrite sys.os w.fd w.data w.offset w.budget v = out at hcases hkeeps
  cases hcases with
  | refused e why => exact h
  | admitted free running plain => exact absurd free (not_lt.2 h.working.nonneg)
  | unknown serving scope missing => exact h.fail
  | performs serving scope target out found run =>
    apply h.of_same hkeeps (performs_same run)
    intro i hi hnot
    have htarget : target.fd = w.fd := by simpa using List.find?_some found
    -- the file of a slot that is not registered is not bound
    have hother : (sys.os w.fd).file≠some (file i) := by
      intro hsame
      exact hnot (h.covered i hi ⟨target,List.mem_of_find?_eq_some found,htarget ▸ hsame⟩)
    rw [run.disk]
    exact undo_files fun env => preserves_writeFd hother env _ _ _

theorem AtWork.writes (h : AtWork sys table file shmid env d v) (writes : List Write) :
    AtWork sys table file shmid env d (writes.foldl (fun v w => w.run sys v) v) := by
  induction writes generalizing v with
  | nil => exact h
  | cons w writes ih => exact ih (h.write w)

theorem AtWork.blob (h : AtWork sys table file shmid env d v) (op : BlobOp) (path : CString) (budget : Budget) :
    AtWork sys table file shmid env d (routeBlob op path budget v).2 := by
  have hkeeps := (h.working.routeBlob op path budget).keeps h.working
  have hcases := routeBlob_cases op path budget h.working.owns
  generalize routeBlob op path budget v = out at hcases hkeeps
  cases hcases with
  | refused e why => exact h
  | plain free running => exact h
  | unknown serving scope => exact h.fail
  | performs serving scope name op' out run =>
    apply h.of_same hkeeps (performs_same run)
    intro i _ _
    rw [run.disk]
    exact undo_files fun env => preserves_blob _ env _ _

theorem AtWork.check (h : AtWork sys table file shmid env d v) : AtWork sys table file shmid env d (namespaceCheck v).2 := by
  unfold namespaceCheck
  split
  · dsimp only
    split
    · exact h.fail
    · exact h
  · exact h

/-! ## Registration -/

/-- What the registration of a slot does. -/
inductive Tracks (sys : System) (i : ℕ) (v : View) : Result × View → Prop
  | refused (r : ℤ) (negative : r < 0) : Tracks sys i v (.value r,v)
  | fails (r : ℤ) (negative : r < 0) : Tracks sys i v (.value r,v.fail)
  | known (tracked : Tracked i v) : Tracks sys i v (.value 0,v)
  | added (f : Ident) (opened : (sys.os (v.indices i).idxchan).file = some f) :
      Tracks sys i v
        (.value 0,
          { v with manager := { v.manager with cachedIndices := ⟨i,(v.indices i).idxchan,f⟩::v.manager.cachedIndices } })

theorem track_cases (sys : System) (h : Working shmid env d v) (alloc : Bool) (i : ℕ) :
    Tracks sys i v (dmTxTrackIndex sys.os alloc (some i) v) := by
  have hb : ¬ v.manager.blocked = true := by simp [h.running]
  have ho : ¬ v.manager.owner < 0 := not_lt.2 h.nonneg
  rw [dmTxTrackIndex,if_neg hb,if_neg ho,if_neg (not_not.2 h.scope)]
  split
  · exact .refused _ (by decide)
  rw [Option.bind_some]
  cases hfile : (sys.os (v.indices i).idxchan).file with
  | none => exact .fails _ (by decide)
  | some f =>
    dsimp only [Option.map_some]
    split
    · rename_i cached hfound
      split
      · exact .known ⟨cached,List.mem_of_find?_eq_some hfound,by simpa using List.find?_some hfound⟩
      · exact .fails _ (by decide)
    · split
      · exact .fails _ (by decide)
      · exact .added f hfile

theorem AtWork.track (h : AtWork sys table file shmid env d v) (alloc : Bool) (i : ℕ) :
    AtWork sys table file shmid env d (dmTxTrackIndex sys.os alloc (some i) v).2 ∧
      (¬(dmTxTrackIndex sys.os alloc (some i) v).1.code < 0 → Tracked i (dmTxTrackIndex sys.os alloc (some i) v).2) ∧
      ∀ j,Tracked j v → Tracked j (dmTxTrackIndex sys.os alloc (some i) v).2 := by
  have hkeeps := (h.working.trackIndex sys.os alloc (some i)).keeps h.working
  have hcases := track_cases sys h.working alloc i
  generalize dmTxTrackIndex sys.os alloc (some i) v = out at hcases hkeeps
  cases hcases with
  | refused r negative => exact ⟨h,fun hpos => absurd negative hpos,fun _ hj => hj⟩
  | fails r negative => exact ⟨h.fail,fun hpos => absurd negative hpos,fun _ hj => hj⟩
  | known tracked => exact ⟨h,fun _ => tracked,fun _ hj => hj⟩
  | added f opened =>
    have hmore : ∀ j,Tracked j v → Tracked j
        { v with manager := { v.manager with cachedIndices := ⟨i,(v.indices i).idxchan,f⟩::v.manager.cachedIndices } } := by
      intro j hj
      obtain ⟨entry,hentry,hindex⟩ := hj
      exact ⟨entry,List.mem_cons_of_mem _ hentry,hindex⟩
    refine ⟨⟨hkeeps,⟨h.follows.attached,?_,?_⟩,?_⟩,fun _ => ⟨_,List.mem_cons_self,rfl⟩,hmore⟩
    · intro entry hentry hopen
      obtain rfl | hentry := List.mem_cons.1 hentry
      · exact Option.some.inj (opened.symm.trans (h.follows.attached i hopen))
      · exact h.follows.entries entry hentry hopen
    · exact fun j hj hnot => h.follows.untouched j hj fun htracked => hnot (hmore j htracked)
    · exact fun j hj hbound => hmore j (h.covered j hj hbound)

/-- A new root leaves the descriptors of the slots alone. -/
theorem idxchan_update (indices : ℕ → Index) (i j root generation : ℕ) :
    (Function.update indices i { indices i with rootpos := root,generation := generation } j).idxchan = (indices j).idxchan := by
  rw [Function.update_apply]
  split
  · rename_i hji
    rw [hji]
  · rfl

theorem AtWork.publish (h : AtWork sys table file shmid env d v) (htracked : Tracked i v) (root generation : ℕ) :
    AtWork sys table file shmid env d (publish i root generation v) := by
  have hother : ∀ j,¬Tracked j v → (IndexCaches.publish i root generation v).indices j = v.indices j := by
    intro j hnot
    apply Function.update_of_ne
    intro hji
    exact hnot (hji ▸ htracked)
  refine ⟨h.working.of_same (h.working.toWithin.aside ⟨rfl,rfl,rfl,rfl,id⟩) rfl rfl,⟨?_,h.follows.entries,?_⟩,h.covered⟩
  · intro j hj
    have hchan : ((IndexCaches.publish i root generation v).indices j).idxchan = (v.indices j).idxchan :=
      idxchan_update v.indices i j root generation
    rw [hchan]
    exact h.follows.attached j hj
  · intro j hj hnot
    rw [hother j hnot]
    exact h.follows.untouched j hj hnot

theorem writes_cached (writes : List Write) (h : AtWork sys table file shmid env d v) (htracked : Tracked i v) :
    Tracked i (writes.foldl (fun v w => w.run sys v) v) := by
  induction writes generalizing v with
  | nil => exact htracked
  | cons w writes ih =>
    apply ih (h.write w)
    have hcases := routeWrite_cases sys.os w.fd w.data w.offset w.budget h.working.owns
    rw [Write.run]
    generalize routeWrite sys.os w.fd w.data w.offset w.budget v = out at hcases
    cases hcases with
    | refused e why => exact htracked
    | admitted free running plain => exact htracked
    | unknown serving scope missing => exact htracked
    | performs serving scope target out found run => exact (performs_same run).tracked.2 htracked

theorem AtWork.maintain (h : AtWork sys table file shmid env d v) (i : ℕ) (alloc : Bool) (writes : List Write) (root : Option (ℕ × ℕ)) :
    AtWork sys table file shmid env d (maintain sys i alloc writes root v) := by
  obtain ⟨hwork,htracked,-⟩ := h.track alloc i
  rw [IndexCaches.maintain]
  dsimp only
  split
  · exact hwork
  rename_i hpos
  cases root with
  | none => exact hwork.writes writes
  | some root => exact (hwork.writes writes).publish (writes_cached writes hwork (htracked hpos)) _ _

theorem AtWork.op (h : AtWork sys table file shmid env d v) (op : Op) : AtWork sys table file shmid env d (op.run sys v) := by
  cases op with
  | write w => exact h.write w
  | blob op path budget => exact h.blob op path budget
  | check => exact h.check
  | maintain i alloc writes root => exact h.maintain i alloc writes root

theorem AtWork.runAll (h : AtWork sys table file shmid env d v) (ops : List Op) : AtWork sys table file shmid env d (runAll sys ops v) := by
  induction ops generalizing v with
  | nil => exact h
  | cons op ops ih => exact ih (h.op op)

/-! ## The scan -/

theorem eNotOpen_neg : eNotOpen < 0 := by decide

variable {targets : List Target}

theorem aliased_of_mem {f : Ident} {target : Target} (hmem : target∈targets)
    (hfile : (sys.os target.fd).file = some f) : aliased sys f targets≠some false := by
  induction targets with
  | nil => cases hmem
  | cons head targets ih =>
    rw [aliased]
    obtain rfl | hmem := List.mem_cons.1 hmem
    · rw [sys.regular _ _ hfile]
      dsimp only
      rw [if_pos rfl]
      exact fun h => by cases h
    · split
      · exact fun h => by cases h
      · split
        · exact fun h => by cases h
        · exact ih hmem

/-- What the scan has done when it goes through: the slots it has passed that are open on a target are registered. -/
theorem AtWork.scan (h : AtWork sys table file shmid env d v) (alloc : ℕ → Bool) (targets : List Target) (is : List ℕ) :
    AtWork sys table file shmid env d (scan sys table alloc targets is v).2 ∧
      (∀ j,Tracked j v → Tracked j (scan sys table alloc targets is v).2) ∧
      (¬(scan sys table alloc targets is v).1 < 0 → ∀ i∈is,table.Open i →
        (∃ target∈targets,(sys.os target.fd).file = some (file i)) → Tracked i (scan sys table alloc targets is v).2) := by
  induction is generalizing v with
  | nil => exact ⟨h,fun _ hj => hj,fun _ i hi => by cases hi⟩
  | cons i is ih =>
    -- a slot that is passed over is not open on a target
    have hskip : (table.Open i → ¬∃ target∈targets,(sys.os target.fd).file = some (file i)) →
        AtWork sys table file shmid env d (IndexCaches.scan sys table alloc targets is v).2 ∧
          (∀ j,Tracked j v → Tracked j (IndexCaches.scan sys table alloc targets is v).2) ∧
          (¬(IndexCaches.scan sys table alloc targets is v).1 < 0 → ∀ j∈i::is,table.Open j →
            (∃ target∈targets,(sys.os target.fd).file = some (file j)) →
              Tracked j (IndexCaches.scan sys table alloc targets is v).2) := by
      intro hnot
      obtain ⟨hwork,hmore,hcovers⟩ := ih h
      refine ⟨hwork,hmore,?_⟩
      intro hpos j hj hopen hbound
      obtain rfl | hj := List.mem_cons.1 hj
      · exact absurd hbound (hnot hopen)
      · exact hcovers hpos j hj hopen hbound
    rw [IndexCaches.scan]
    split
    · rename_i hclosed
      exact hskip fun hopen => absurd hclosed hopen.2
    split
    · rename_i hstat
      apply hskip
      intro hopen
      rw [sys.regular _ _ (h.follows.attached i hopen)] at hstat
      cases hstat
    rename_i f hstat
    have hfile : table.Open i → f = file i := by
      intro hopen
      rw [sys.regular _ _ (h.follows.attached i hopen)] at hstat
      exact (Option.some.inj hstat).symm
    split
    · exact ⟨h,fun _ hj => hj,fun hpos => absurd eNotOpen_neg hpos⟩
    · rename_i haliased
      apply hskip
      rintro hopen ⟨target,hmem,htarget⟩
      rw [hfile hopen] at haliased
      exact aliased_of_mem hmem htarget haliased
    · obtain ⟨hwork,htracked,hmore⟩ := h.track (alloc i) i
      dsimp only
      split
      · rename_i hneg
        exact ⟨hwork,hmore,fun hpos => absurd hneg hpos⟩
      rename_i hfine
      obtain ⟨hwork',hmore',hcovers⟩ := ih hwork
      refine ⟨hwork',fun j hj => hmore' j (hmore j hj),?_⟩
      intro hpos j hj hopen hbound
      obtain rfl | hj := List.mem_cons.1 hj
      · exact hmore' _ (htracked hfine)
      · exact hcovers hpos j hj hopen hbound

theorem AtWork.bind (h : AtWork sys table file shmid env d v) (hcovered : Covered sys table file targets v) :
    AtWork sys table file shmid env d (dmTxBind targets v).2 := by
  have hwork := h.working.bind targets
  unfold dmTxBind at hwork ⊢
  split
  · exact h
  · rename_i hvalid
    rw [if_neg hvalid] at hwork
    exact ⟨hwork,⟨h.follows.attached,h.follows.entries,h.follows.untouched⟩,hcovered⟩

/-! ## The end -/

variable {os : Descriptors}

theorem refreshed_current {entry : CachedIndex} {root : IndexFile.Slot} (h : refreshed os v entry = some root) :
    ∃ header,IndexFile.indexV2ReadHeader (v.disk.files entry.file) = some header ∧ header.root = root := by
  simp only [refreshed,Option.bind_eq_bind,Option.bind_eq_some_iff,guard_eq_some,Option.pure_def,Option.some.injEq] at h
  obtain ⟨_,_,header,hheader,_,_,hroot⟩ := h
  exact ⟨header,hheader,hroot⟩

/-- What `refresh_indices` makes of one entry after the other. -/
def refreshSlot (os : Descriptors) (v : View) (indices : ℕ → Index) (entry : CachedIndex) : ℕ → Index :=
  match refreshed os v entry with
  | none => indices
  | some root =>
    Function.update indices entry.index
      { indices entry.index with rootpos := root.rootOffset,generation := root.generation }

theorem refreshIndices_some (h : refreshIndices os v = some v') :
    (∀ entry∈v.manager.cachedIndices,(refreshed os v entry).isSome = true) ∧
      v'.indices = v.manager.cachedIndices.foldl (refreshSlot os v) v.indices := by
  unfold refreshIndices at h
  split at h
  · rename_i hall
    obtain rfl := Option.some.inj h
    exact ⟨List.all_eq_true.1 hall,rfl⟩
  · cases h

theorem refreshSlot_idxchan (os : Descriptors) (v : View) (indices : ℕ → Index) (entries : List CachedIndex) (i : ℕ) :
    (entries.foldl (refreshSlot os v) indices i).idxchan = (indices i).idxchan := by
  induction entries generalizing indices with
  | nil => rfl
  | cons entry entries ih =>
    rw [List.foldl_cons,ih,refreshSlot]
    cases refreshed os v entry with
    | none => rfl
    | some root => exact idxchan_update indices _ _ _ _

/-- A slot is current if it was, or if it is registered. -/
theorem refreshSlot_current {indices : ℕ → Index} {entries : List CachedIndex}
    (hvalid : ∀ entry∈entries,(refreshed os v entry).isSome = true) (hfile : ∀ entry∈entries,entry.index = i → entry.file = file i)
    (h : Current (indices i) (v.disk.files (file i)) ∨ ∃ entry∈entries,entry.index = i) :
    Current (entries.foldl (refreshSlot os v) indices i) (v.disk.files (file i)) := by
  induction entries generalizing indices with
  | nil =>
    obtain h | ⟨entry,hentry,-⟩ := h
    · exact h
    · cases hentry
  | cons entry entries ih =>
    rw [List.foldl_cons]
    apply ih (fun e he => hvalid e (List.mem_cons_of_mem _ he)) fun e he => hfile e (List.mem_cons_of_mem _ he)
    obtain ⟨root,hroot⟩ := Option.isSome_iff_exists.1 (hvalid entry List.mem_cons_self)
    have hslot : refreshSlot os v indices entry = Function.update indices entry.index
        { indices entry.index with rootpos := root.rootOffset,generation := root.generation } := by rw [refreshSlot,hroot]
    by_cases hindex : entry.index = i
    · left
      obtain ⟨header,hheader,rfl⟩ := refreshed_current hroot
      rw [hfile entry List.mem_cons_self hindex] at hheader
      rw [hslot,hindex,Function.update_self]
      exact ⟨header,hheader,rfl,rfl⟩
    · obtain h | ⟨e,he,hei⟩ := h
      · left
        rw [hslot,Function.update_of_ne (Ne.symm hindex)]
        exact h
      · obtain rfl | he := List.mem_cons.1 he
        · exact absurd hei hindex
        · exact .inr ⟨e,he,hei⟩

theorem sameSlots_close (commit : Bool) (budget : Budget) : SameSlots v (v.close commit budget) := by
  have hs := @sameSlots_undo v (endJournal commit) budget
  exact ⟨hs.indices,hs.cached,hs.thread⟩

/-- Between commands: no transaction, and every slot is current; a transaction; or a manager that is blocked. -/
inductive Resting (sys : System) (table : Table) (file : ℕ → Ident) (v : View) : Prop
  | idle (idle : Idle v) (coherent : Coherent table file v) (attached : Attached sys table file v)
      (cached : v.manager.cachedIndices = []) : Resting sys table file v
  | transaction (shmid : ℤ) (env : Env) (d : Disk) (closing : Closing shmid env d v) (follows : Follows sys table file d v) :
      Resting sys table file v
  | blocked (jammed : Jammed v) : Resting sys table file v

theorem Resting.coherent (h : Resting sys table file v) (hfree : v.manager.owner < 0) : Coherent table file v := by
  cases h with
  | idle idle coherent attached cached => exact coherent
  | transaction shmid env d closing follows => exact absurd hfree (not_lt.2 (closing.owner ▸ closing.owned))
  | blocked jammed => exact absurd hfree (not_lt.2 jammed.owned)

variable {commit disconnect : Bool}

/-- A transaction that ends leaves every slot current. -/
theorem Closing.finished (h : Closing shmid env d v)
    (hf : Follows sys table file d v) (hfin : Finishing v shmid commit)
    (hfresh : refreshIndices os (v.close commit budget) = some v')
    (heq : finish os shmid commit disconnect budget v =
      (.value 0,{ v' with manager := { v'.manager with owner := -1,failed := false,databaseRoot := none } })) :
    Resting sys table file { v' with manager := { v'.manager with owner := -1,failed := false,databaseRoot := none } } := by
  obtain ⟨v'',heq',hidle,hdisk⟩ | ⟨v'',heq',-⟩ := h.finish h.alone h.scope h.start commit disconnect hfin.clean os budget
  · rw [heq] at heq'
    obtain rfl := (Prod.mk.inj heq').2
    obtain ⟨hmanager,hsame,-⟩ := refreshIndices_eq hfresh
    obtain ⟨hvalid,hindices⟩ := refreshIndices_some hfresh
    have hclose := @sameSlots_close v commit budget
    have hfiles : v'.disk.files = (v.close commit budget).disk.files := by rw [hsame]
    rw [hclose.cached] at hvalid
    rw [hclose.indices,hclose.cached] at hindices
    refine .idle hidle ?_ ?_ ?_
    · intro i hi
      dsimp only at hdisk ⊢
      rw [hindices,hfiles]
      apply refreshSlot_current hvalid fun entry hentry hindex => hindex ▸ hf.entries entry hentry (hindex ▸ hi)
      by_cases htracked : Tracked i v
      · exact .inr htracked
      · left
        obtain ⟨huntouched,hcurrent⟩ := hf.untouched i hi htracked
        -- committed or aborted, the file is the one of the beginning
        have hstart : (v.close commit budget).disk.files (file i) = d.files (file i) := by
          rw [← hfiles,hdisk]
          split
          · exact huntouched
          · rfl
        rw [hstart]
        exact hcurrent
    · intro i hi
      dsimp only
      rw [hindices,refreshSlot_idxchan]
      exact hf.attached i hi
    · dsimp only
      rw [hmanager]
  · rw [heq] at heq'
    have hcode := (Prod.mk.inj heq').1
    split at hcode
    · cases hcode
    · cases hcode

theorem Resting.finish (h : Resting sys table file v) (os : Descriptors) (shmid : ℤ) (commit disconnect : Bool) (budget : Budget) :
    Resting sys table file (finish os shmid commit disconnect budget v).2 := by
  obtain ⟨r,-,heq⟩ | ⟨hfin,⟨v',-,hfresh,heq⟩ | heq⟩ := finish_cases os shmid commit disconnect budget v
  · rw [heq]
    exact h
  · cases h with
    | idle idle coherent attached cached => exact absurd idle.free (not_lt.2 hfin.owned)
    | blocked jammed =>
      have hrunning := hfin.running
      rw [jammed.blocked] at hrunning
      cases hrunning
    | transaction shmid' env d closing follows =>
      obtain rfl : shmid' = shmid := closing.owner.symm.trans hfin.owner
      have hrest := Closing.finished closing follows hfin hfresh heq
      rw [heq]
      exact hrest
  · rw [heq]
    refine .blocked ⟨rfl,?_⟩
    have hcore := congrArg Admission.Core.owner (@close_core v commit budget)
    exact hfin.owned.trans_eq hcore.symm

/-! ## Commands -/

theorem Resting.begin (h : Resting sys table file v) (shmid : ℤ) (env : Env) (alloc : Bool) (budget : Budget) :
    Resting sys table file (dmTxBegin shmid env alloc budget v).2 := by
  have hcases := begin_cases shmid env alloc budget v
  generalize dmTxBegin shmid env alloc budget v = out at hcases
  cases hcases with
  | refused r negative => exact h
  | failed start e out run => exact .blocked ⟨rfl,start.valid⟩
  | begun start out run =>
    cases h with
    | blocked jammed => exact absurd start.free (not_lt.2 jammed.owned)
    | transaction shmid' env' d closing follows => exact absurd start.free (not_lt.2 (closing.owner ▸ closing.owned))
    | idle idle coherent attached cached =>
      obtain ⟨hclosing,hfiles,-⟩ := idle.begun start run
      refine .transaction shmid env v.disk hclosing ⟨attached,?_,?_⟩
      · intro entry hentry
        dsimp only at hentry
        rw [cached] at hentry
        cases hentry
      · intro i hi _
        exact ⟨congrFun hfiles _,coherent i hi⟩

theorem Resting.reapFrom (h : Resting sys table file v) (p : Probe) (n : ℕ) (roots : List (Option Session)) :
    Resting sys table file (reapFrom p n roots v).2.2 := by
  induction roots generalizing n v with
  | nil => exact h
  | cons slot roots ih =>
    cases slot with
    | none => exact ih h (n+1)
    | some e =>
      have hclosed : Resting sys table file (closeSlot p n e v).2 := h.finish p.os e.shmid false true (p.budget n)
      simp only [SessionRoot.reapFrom]
      split
      · split
        · exact hclosed
        · exact ih hclosed (n+1)
      · exact ih h (n+1)

variable {s : Server μ}

theorem Resting.reap (h : Resting sys table file s.view) (p : Probe) : Resting sys table file (reap p s).2.view := h.reapFrom p 0 s.roots

theorem Resting.use (h : Resting sys table file s.view) (p : Probe) (shmid : ℤ) {operation : Env → View → Result × View}
    (hop : ∀ env v,Resting sys table file v → Resting sys table file (operation env v).2) :
    Resting sys table file (sessionRootUse p shmid operation s).2.view := by
  have hcases := sessionRootUse_cases p shmid operation s
  generalize sessionRootUse p shmid operation s = out at hcases
  cases hcases with
  | reaped negative => exact h.reap p
  | absent fine => exact h.reap p
  | applied fine e found => exact hop e.env _ (h.reap p)

theorem Resting.beginSession (h : Resting sys table file s.view) (a : Answers) (shmid : ℤ) :
    Resting sys table file (beginSession a shmid s).2.view :=
  h.use a.begin shmid fun env _ hv => hv.begin shmid env a.alloc a.beginBudget

theorem Resting.commitSession (h : Resting sys table file s.view) (a : Answers) (shmid : ℤ) :
    Resting sys table file (commitSession a shmid s).2.view := h.finish a.os shmid true false a.finishBudget

theorem Resting.abortSession (h : Resting sys table file s.view) (os : Descriptors) (budget : Budget) (shmid : ℤ) :
    Resting sys table file (abortSession os budget shmid s).2.view := h.finish os shmid false false budget

theorem Resting.finishImplicit (h : Resting sys table file s.view) (a : Answers) (shmid result : ℤ) :
    Resting sys table file (finishImplicit a shmid result s).2.view := by
  have hended : Resting sys table file
      (if result < 0 then TransactionWire.abortSession a.os a.finishBudget shmid s else TransactionWire.commitSession a shmid s).2.view := by
    split
    · exact h.abortSession a.os a.finishBudget shmid
    · exact h.commitSession a shmid
  unfold TransactionWire.finishImplicit
  generalize (if result < 0 then TransactionWire.abortSession a.os a.finishBudget shmid s else TransactionWire.commitSession a shmid s) =
    ended at hended ⊢
  dsimp only
  split
  · split
    · exact hended.abortSession a.os a.abortBudget shmid
    · exact hended.abortSession a.os a.abortBudget shmid
  · split
    · exact hended
    · exact hended

/-- A thread enters a transaction of its session, or nothing happens. -/
theorem Resting.enter (h : Resting sys table file v) (shmid : ℤ) :
    (dmTxEnter shmid [] v).1.code < 0 ∧ (dmTxEnter shmid [] v).2 = v ∨
      (dmTxEnter shmid [] v).1.code = 0 ∧ ∃ env d,d.journal = none ∧ AtWork sys table file shmid env d (dmTxEnter shmid [] v).2 := by
  by_cases hrefused : v.manager.blocked = true ∨ (v.manager.owner < 0 ∨ v.manager.owner≠shmid) ∨ v.manager.failed = true
  · left
    unfold dmTxEnter
    split
    · exact ⟨TransactionWire.eInvMsg_neg,rfl⟩
    split
    · exact ⟨TransactionWire.eRollback_neg,rfl⟩
    split
    · exact ⟨TransactionWire.eNoXact_neg,rfl⟩
    split
    · exact ⟨TransactionWire.eRecWrt_neg,rfl⟩
    · rename_i hb ho hf
      exact absurd hrefused (by rw [not_or,not_or]; exact ⟨hb,ho,hf⟩)
  · rw [not_or,not_or,not_or,not_not] at hrefused
    obtain ⟨hb,⟨ho,howner⟩,hclean⟩ := hrefused
    cases h with
    | idle idle coherent attached cached => exact absurd idle.free ho
    | blocked jammed => exact absurd jammed.blocked hb
    | transaction shmid' env d closing follows =>
      obtain rfl : shmid' = shmid := closing.owner.symm.trans howner
      have hclean : v.manager.failed = false := by simpa using hclean
      obtain ⟨hzero,hworking,-,-⟩ := closing.enter hclean
      right
      refine ⟨by rw [hzero]; rfl,env,d,closing.start,hworking,?_,?_⟩
      · rw [closing.enter_eq hclean]
        exact ⟨follows.attached,follows.entries,follows.untouched⟩
      · rw [closing.enter_eq hclean]
        rintro i hi ⟨target,htarget,-⟩
        cases htarget

theorem AtWork.execute (h : AtWork sys table file shmid env d s.view) (r : Request μ) :
    AtWork sys table file shmid env d (execute sys table shmid r s).2.view := by
  have hview : (sessionRootCopy r.copy shmid s).2.view = s.view := h.working.reap
  have hcopied : AtWork sys table file shmid env d (sessionRootCopy r.copy shmid s).2.view := by rwa [hview]
  unfold IndexCaches.execute
  dsimp only
  split
  · exact hcopied
  cases r.bound (sessionRootCopy r.copy shmid s).2 with
  | error e => exact hcopied
  | ok targets =>
    obtain ⟨hscanned,-,hcovers⟩ := hcopied.scan r.alloc targets (List.range table.idxCnt)
    dsimp only
    split
    · exact hscanned
    rename_i hfine
    have hcovered : Covered sys table file targets
        (IndexCaches.scan sys table r.alloc targets (List.range table.idxCnt) (sessionRootCopy r.copy shmid s).2.view).2 :=
      fun i hi => hcovers hfine i (List.mem_range.2 hi.1) hi
    split
    · exact hscanned.bind hcovered
    · exact (hscanned.bind hcovered).runAll _

theorem AtWork.complete (h : AtWork sys table file shmid env d v) (hstart : d.journal = none) (result : ℤ) :
    Resting sys table file (dmTxComplete result v).2 := by
  obtain ⟨hclosing,hdisk,-⟩ := h.working.complete hstart result
  have hslots : (dmTxComplete result v).2.indices = v.indices ∧
      (dmTxComplete result v).2.manager.cachedIndices = v.manager.cachedIndices := by
    unfold dmTxComplete
    split
    · exact ⟨rfl,rfl⟩
    · exact ⟨rfl,rfl⟩
  refine .transaction shmid env d hclosing ⟨?_,?_,?_⟩
  · intro i hi
    rw [hslots.1]
    exact h.follows.attached i hi
  · rw [hslots.2]
    exact h.follows.entries
  · intro i hi hnot
    rw [Tracked,hslots.2] at hnot
    rw [hdisk,hslots.1]
    exact h.follows.untouched i hi hnot

theorem Resting.dispatch (h : Resting sys table file s.view) (p : Probe) (shmid : ℤ) (r : Request μ) :
    Resting sys table file (dmTxDispatch p shmid (execute sys table shmid r) s).2.view := by
  have hcases := sessionRootUse_cases p shmid (fun _ => dmTxEnter shmid []) s
  rw [TransactionWire.dmTxDispatch]
  generalize sessionRootUse p shmid (fun _ => dmTxEnter shmid []) s = used at hcases
  have hreaped := h.reap p
  cases hcases with
  | reaped negative =>
    rw [if_neg negative.ne]
    exact hreaped
  | absent fine =>
    rw [if_neg TransactionWire.eNoConn_neg.ne]
    exact hreaped
  | applied fine e found =>
    obtain ⟨hneg,hsame⟩ | ⟨hzero,env,d,hstart,hwork⟩ := hreaped.enter shmid
    · rw [if_neg hneg.ne]
      dsimp only
      rw [hsame]
      exact hreaped
    · rw [if_pos hzero]
      have hexecuted := @AtWork.execute μ sys table file shmid env d
        { (SessionRoot.reap p s).2 with view := (dmTxEnter shmid [] (SessionRoot.reap p s).2.view).2 } hwork r
      exact hexecuted.complete hstart _

theorem Resting.request (h : Resting sys table file s.view) (a : Answers) (shmid : ℤ) (r : Request μ) :
    Resting sys table file (request sys table a shmid r s).2.view := by
  have hbegun := h.beginSession a shmid
  have hdispatched := hbegun.dispatch a.dispatch shmid r
  unfold IndexCaches.request
  dsimp only
  split
  · exact hbegun
  split
  · exact hdispatched.finishImplicit a shmid _
  · exact hdispatched

theorem answer_snd (out : ℤ × Server μ) : (answer out).2 = out.2 := by
  unfold TransactionWire.answer
  split <;> rfl

theorem Resting.wire (h : Resting sys table file s.view) (cmd : Wire μ) : Resting sys table file (cmd.run sys table s).2.view := by
  cases cmd with
  | startXact a shmid =>
    rw [Wire.run,answer_snd]
    exact h.beginSession a shmid
  | commit a shmid =>
    rw [Wire.run,answer_snd]
    exact h.commitSession a shmid
  | rollback a shmid =>
    rw [Wire.run,answer_snd]
    exact h.abortSession a.os a.finishBudget shmid
  | request a shmid r => exact h.request a shmid r

theorem Resting.serve (h : Resting sys table file s.view) (cmds : List (Wire μ)) : Resting sys table file (serve sys table cmds s).view := by
  induction cmds generalizing s with
  | nil => exact h
  | cons cmd cmds ih => exact ih (h.wire cmd)

/-- A check that fails keeps the caches and blocks the manager. -/
theorem finish_invalid (hfin : Finishing v shmid commit)
    (hinvalid : ∃ entry∈v.manager.cachedIndices,refreshed os (v.close commit budget) entry = none) :
    (finish os shmid commit disconnect budget v).2.indices = v.indices ∧
      (finish os shmid commit disconnect budget v).2.manager.blocked = true := by
  have hclose := @sameSlots_close v commit budget
  obtain ⟨r,hrefused,-⟩ | ⟨-,⟨v',-,hfresh,-⟩ | heq⟩ := finish_cases os shmid commit disconnect budget v
  · exfalso
    obtain ⟨hb,-⟩ | ⟨-,hfree | hother,-⟩ | ⟨hreq,-⟩ | ⟨hc,hf,-⟩ := hrefused
    · simp [hfin.running] at hb
    · exact absurd hfree (not_lt.2 hfin.owned)
    · exact hother hfin.owner
    · simp [hfin.alone] at hreq
    · simp [hfin.clean hc] at hf
  · obtain ⟨entry,hentry,hnone⟩ := hinvalid
    have hvalid := (refreshIndices_some hfresh).1 entry (hclose.cached ▸ hentry)
    rw [hnone] at hvalid
    cases hvalid
  · rw [heq]
    exact ⟨hclose.indices,rfl⟩

/-- A transaction that is ended with success has no owner any more. -/
theorem finish_free (hshmid : 0 ≤ shmid) (howner : v.manager.owner = shmid)
    (hzero : (finish os shmid commit disconnect budget v).1 = .value 0) :
    (finish os shmid commit disconnect budget v).2.manager.owner < 0 := by
  obtain ⟨r,hrefused,heq⟩ | ⟨-,⟨v',-,-,heq⟩ | heq⟩ := finish_cases os shmid commit disconnect budget v
  · rw [heq] at hzero
    obtain rfl := Result.value.inj hzero
    exfalso
    obtain ⟨-,hr⟩ | ⟨-,hfree | hother,-⟩ | ⟨-,hr⟩ | ⟨-,-,hr⟩ := hrefused
    · cases hr
    · exact absurd (howner ▸ hfree) (not_lt.2 hshmid)
    · exact hother howner
    · cases hr
    · cases hr
  · rw [heq]
    exact neg_one_lt_zero
  · rw [heq] at hzero
    have hcode := Result.value.inj hzero
    split at hcode
    · cases hcode
    · cases hcode

/-- From slots that are all current, whatever commands come: without a transaction all slots are current, a transaction that
is ended with success leaves all slots current, and one whose slots do not pass the checks changes none and blocks the manager. -/
theorem caches_follow {s₀ s : Server μ} (hidle : Idle s₀.view) (hcached : s₀.view.manager.cachedIndices = [])
    (hattached : Attached sys table file s₀.view) (hcoherent : Coherent table file s₀.view) (cmds : List (Wire μ))
    (hserve : serve sys table cmds s₀ = s) :
    (s.view.manager.owner < 0 → Coherent table file s.view) ∧
    ∀ os shmid commit disconnect budget,0 ≤ shmid → s.view.manager.owner = shmid →
      ((finish os shmid commit disconnect budget s.view).1 = .value 0 →
        Coherent table file (finish os shmid commit disconnect budget s.view).2) ∧
      (Finishing s.view shmid commit →
        (∃ entry∈s.view.manager.cachedIndices,refreshed os (s.view.close commit budget) entry = none) →
        (finish os shmid commit disconnect budget s.view).2.indices = s.view.indices ∧
          (finish os shmid commit disconnect budget s.view).2.manager.blocked = true) := by
  subst hserve
  have hrest := Resting.serve (.idle hidle hcoherent hattached hcached) cmds
  refine ⟨hrest.coherent,?_⟩
  intro os shmid commit disconnect budget hshmid howner
  refine ⟨?_,finish_invalid⟩
  intro hzero
  exact (hrest.finish os shmid commit disconnect budget).coherent (finish_free hshmid howner hzero)

/-- An empty index. -/
def emptyIndex : Bytes := (IndexFile.indexV2CreateEmpty 2 [[0x41]] { bytes := [] }).2.bytes

/-- Two slots that are open on one file. -/
def twoSlots : Server Unit where
  roots := [some ⟨7,sampleEnv⟩]
  view :=
    { manager := {}
      disk := ⟨none,fun _ => emptyIndex,fun _ _ => none⟩
      indices := fun _ => ⟨3,2,1,320,1⟩
      thread := {} }
  memory := ()

def twoSlotTable : Table := ⟨2,fun _ => 1⟩

theorem sampleDescriptors_regular (fd : ℤ) (f : Ident) (h : (sampleDescriptors fd).file = some f) : (sampleDescriptors fd).file = some f := h

def twoSlotSystem : System := ⟨sampleDescriptors,fun fd => (sampleDescriptors fd).file,sampleDescriptors_regular⟩

def twoSlotFile : Ident := (sampleEnv.target sampleName.bytes).getD sampleEnv.root

/-- An INCLUDE through the first slot that is refused by the tree. -/
def sampleInclude : Wire Unit :=
  .request ⟨TransactionWire.sampleProbe,true,none,TransactionWire.sampleProbe,sampleDescriptors,none,none⟩ 7
    { copy := TransactionWire.sampleProbe
      bound := fun _ => .ok [⟨3,sampleName⟩]
      alloc := fun _ => true
      handler := fun _ => ⟨[.maintain 0 true [] none],1,()⟩ }

theorem caches_follow_two : (serve twoSlotSystem twoSlotTable [sampleInclude] twoSlots).view.manager.owner < 0 ∧
    Coherent twoSlotTable (fun _ => twoSlotFile) (serve twoSlotSystem twoSlotTable [sampleInclude] twoSlots).view := by
  have hfree : (serve twoSlotSystem twoSlotTable [sampleInclude] twoSlots).view.manager.owner < 0 := by decide +kernel
  have hfiles : ∀ f,twoSlots.view.disk.files f = emptyIndex := by
    intro f
    simp only [twoSlots]
  have hidle : Idle twoSlots.view := by
    refine ⟨by decide,rfl,rfl,rfl,rfl,?_⟩
    intro f
    rw [hfiles]
    decide +kernel
  have hheader : IndexFile.indexV2ReadHeader emptyIndex = some ⟨2,1,⟨320,426951121,1⟩⟩ := by decide +kernel
  have hattached : Attached twoSlotSystem twoSlotTable (fun _ => twoSlotFile) twoSlots.view := fun _ _ => rfl
  have hcoherent : Coherent twoSlotTable (fun _ => twoSlotFile) twoSlots.view := by
    intro i _
    rw [hfiles]
    exact ⟨_,hheader,rfl,rfl⟩
  exact ⟨hfree,(caches_follow hidle rfl hattached hcoherent [sampleInclude] rfl).1 hfree⟩

end Dataman.IndexCaches

import Dataman.RebuildFailures
import Dataman.RecordInsertion

/-!
# The blobs after a rebuild

The list of moved blobs does not remember the format, and the last one is taken for all of them. The
blobs keep up with their records exactly if all the moved ones have this format and nothing old stands
in their way.
-/

namespace Dataman.Rebuild
open ByteFiles Directories FixedWidthFields FailState Blobs
open DataFile (getLl headerLength Files Record Chained prevAt nextAt)

/-! ## Surviving records -/

/-- The format that stands at an offset. -/
def Source.fmtAt (src : Source) (o : ℕ) : ℕ := ((slice src.bytes o headerLength).headD 0).toNat

def Source.rfLen (src : Source) (fmt : ℕ) : ℕ := ((src.format fmt).map (·.rfLen)).getD 0
def Source.blobFields (src : Source) (fmt : ℕ) : List ℕ := ((src.format fmt).map (·.blobFields)).getD []

structure Survivor where
  fmt : ℕ
  old : ℕ
  new : ℕ
deriving DecidableEq,Repr

/-- The records at these offsets, with their offsets in the new file. -/
def survivors (src : Source) : ℕ → List ℕ → List Survivor
  | _,[] => []
  | new,o::rest => ⟨src.fmtAt o,o,new⟩::survivors src (new+src.rfLen (src.fmtAt o)+headerLength) rest

/-- A blob that moves with its record. -/
structure Move where
  record : Survivor
  fno : ℕ
deriving DecidableEq,Repr

def Survivor.slot (r : Survivor) (fno : ℕ) : Slot := ⟨r.fmt,r.old,fno⟩
def Survivor.newSlot (r : Survivor) (fno : ℕ) : Slot := ⟨r.fmt,r.new,fno⟩
def Move.slot (m : Move) : Slot := m.record.slot m.fno
def Move.newSlot (m : Move) : Slot := m.record.newSlot m.fno
def Move.mapping (m : Move) : Mapping := ⟨m.record.old,m.record.new,m.fno⟩

/-- The fields of the record that have a blob. -/
def Survivor.present (src : Source) (dir : Dir Text Bytes) (r : Survivor) (fields : List ℕ) : List Move :=
  (fields.filter fun j => dir (nameOf src.filename .blob (r.slot j))≠none).map (⟨r,·⟩)

def Survivor.moves (src : Source) (dir : Dir Text Bytes) (r : Survivor) : List Move :=
  if r.old = r.new then [] else r.present src dir (src.blobFields r.fmt)

/-- What `fmt` is behind these records. -/
def lastFmt (src : Source) (uninit : ℕ) (rs : List Survivor) : ℕ :=
  rs.foldl (fun fmt r => if r.old≠r.new ∧ src.blobFields r.fmt≠[] then r.fmt else fmt) uninit

variable {src : Source} {dir cur : Dir Text Bytes} {file : Text} {B : List Move} {r : Survivor} {s : State}

/-! ## Backing up -/

/-- These blobs have a copy with `$new` and an old one with `$tmp`, and nothing else is changed. -/
structure BackedUp (file : Text) (dir : Dir Text Bytes) (B : List Move) (cur : Dir Text Bytes) : Prop where
  gone : ∀ m∈B,cur (nameOf file .blob m.slot) = none
  kept : ∀ m∈B,cur (nameOf file .tmp m.slot) = dir (nameOf file .blob m.slot)
  copied : ∀ m∈B,cur (nameOf file .new m.newSlot) = dir (nameOf file .blob m.slot)
  free : ∀ m∈B,dir (nameOf file .new m.newSlot) = none
  present : ∀ m∈B,dir (nameOf file .blob m.slot)≠none
  blob : ∀ x,(∀ m∈B,m.slot≠x) → cur (nameOf file .blob x) = dir (nameOf file .blob x)
  tmp : ∀ x,(∀ m∈B,m.slot≠x) → cur (nameOf file .tmp x) = dir (nameOf file .tmp x)
  new : ∀ x,(∀ m∈B,m.newSlot≠x) → cur (nameOf file .new x) = dir (nameOf file .new x)

theorem BackedUp.nil (file : Text) (dir : Dir Text Bytes) : BackedUp file dir [] dir := by
  constructor <;> simp

variable {data : Bytes}

/-- The names that one back-up leaves alone. -/
theorem backUp_other {kind : Kind} {x slot newSlot : Slot} (hblob : kind = .new ∨ x≠slot) (hnew : kind≠.new ∨ x≠newSlot) :
    rename (put cur (nameOf file .new newSlot) data) (nameOf file .blob slot) (nameOf file .tmp slot) (nameOf file kind x) =
      cur (nameOf file kind x) := by
  have hne : ∀ kind',kind'≠.new → nameOf file kind x≠nameOf file kind' slot := by
    intro kind' hk heq
    obtain ⟨hkind,hx⟩ := nameOf_inj heq
    rcases hblob with h | h
    · exact hk (hkind ▸ h)
    · exact h hx
  have hput : nameOf file kind x≠nameOf file .new newSlot := by
    intro heq
    obtain ⟨hkind,hx⟩ := nameOf_inj heq
    rcases hnew with h | h
    · exact h hkind
    · exact h hx
  rw [rename_of_ne (hne .blob (by decide)) (hne .tmp (by decide)),put_of_ne _ hput]

variable {m : Move}

/-- One more blob. -/
theorem BackedUp.snoc (h : BackedUp file dir B cur) (hslot : ∀ x∈B,x.slot≠m.slot)
    (hnew : ∀ x∈B,x.newSlot≠m.newSlot) (hdata : cur (nameOf file .blob m.slot) = some data)
    (hfree : cur (nameOf file .new m.newSlot) = none) :
    BackedUp file dir (B++[m])
      (rename (put cur (nameOf file .new m.newSlot) data) (nameOf file .blob m.slot) (nameOf file .tmp m.slot)) := by
  have hbefore : dir (nameOf file .blob m.slot) = some data := by rw [← h.blob _ hslot,hdata]
  have hput : put cur (nameOf file .new m.newSlot) data (nameOf file .blob m.slot) = some data := by
    rw [put_of_ne _ (nameOf_ne_of_kind (by decide)),hdata]
  constructor
  · refine List.forall_mem_append.2 ⟨fun x hx => ?_,List.forall_mem_singleton.2 ?_⟩
    · rw [backUp_other (.inr (hslot x hx)) (.inl (by decide)),h.gone x hx]
    · rw [rename_source (nameOf_ne_of_kind (by decide))]
  · refine List.forall_mem_append.2 ⟨fun x hx => ?_,List.forall_mem_singleton.2 ?_⟩
    · rw [backUp_other (.inr (hslot x hx)) (.inl (by decide)),h.kept x hx]
    · rw [rename_dest (by rw [hput]; simp),hput,hbefore]
  · refine List.forall_mem_append.2 ⟨fun x hx => ?_,List.forall_mem_singleton.2 ?_⟩
    · rw [backUp_other (.inl rfl) (.inr (hnew x hx)),h.copied x hx]
    · rw [rename_of_ne (nameOf_ne_of_kind (by decide)) (nameOf_ne_of_kind (by decide)),put_self,hbefore]
  · exact List.forall_mem_append.2 ⟨h.free,List.forall_mem_singleton.2 ((h.new _ hnew).symm.trans hfree)⟩
  · exact List.forall_mem_append.2 ⟨h.present,List.forall_mem_singleton.2 (by simp [hbefore])⟩
  · intro x hx
    rw [backUp_other (.inr (hx m (by simp)).symm) (.inl (by decide)),h.blob x fun y hy => hx y (List.mem_append_left _ hy)]
  · intro x hx
    rw [backUp_other (.inr (hx m (by simp)).symm) (.inl (by decide)),h.tmp x fun y hy => hx y (List.mem_append_left _ hy)]
  · intro x hx
    rw [backUp_other (.inl rfl) (.inr (hx m (by simp)).symm),h.new x fun y hy => hx y (List.mem_append_left _ hy)]

/-- The state behind these moves. -/
structure Along (file : Text) (dir : Dir Text Bytes) (B : List Move) (fmt : ℕ) (s : State) : Prop where
  blobs : BackedUp file dir B s.blobs
  maps : s.maps = B.map Move.mapping
  fmt : s.fmt = fmt

theorem Along.congr {s' : State} {fmt : ℕ} (h : Along file dir B fmt s) (hblobs : s'.blobs = s.blobs) (hmaps : s'.maps = s.maps)
    (hfmt : s'.fmt = s.fmt) : Along file dir B fmt s' :=
  ⟨hblobs ▸ h.blobs,hmaps.trans h.maps,hfmt.trans h.fmt⟩

/-- The moves before belong to other records, or to other fields. -/
def Earlier (r : Survivor) (fields : List ℕ) (B : List Move) : Prop :=
  ∀ m∈B,m.record.old≠r.old ∧ m.record.new≠r.new ∨ m.fno∉fields

variable {fields : List ℕ} {j : ℕ}

theorem Earlier.slot_ne (h : Earlier r fields B) (hj : j∈fields) (hm : m∈B) :
    m.slot≠r.slot j ∧ m.newSlot≠r.newSlot j := by
  rcases h m hm with ⟨hold,hnew⟩ | hfno
  · constructor
    · intro heq
      exact hold (Int.ofNat.inj (congrArg Slot.recno heq))
    · intro heq
      exact hnew (Int.ofNat.inj (congrArg Slot.recno heq))
  · have hne : m.fno≠j := fun heq => hfno (heq ▸ hj)
    exact ⟨fun heq => hne (congrArg Slot.fno heq),fun heq => hne (congrArg Slot.fno heq)⟩

theorem backUp_along (copy : ℕ → CopyCalls) (h : Along src.filename dir B r.fmt s)
    (hB : Earlier r fields B) (hj : j∈fields) :
    wp (backUp src.filename copy r.fmt r.old r.new j) s
      (fun _ s' => Along src.filename dir (B++r.present src dir [j]) r.fmt s') fun _ _ => True := by
  have hslot : ∀ m∈B,m.slot≠r.slot j := fun m hm => (hB.slot_ne hj hm).1
  have hnew : ∀ m∈B,m.newSlot≠r.newSlot j := fun m hm => (hB.slot_ne hj hm).2
  have hcur := h.blobs.blob _ hslot
  simp only [backUp,wp_bind,wp_get,wp_ite]
  split
  · rename_i hnone
    have hnone : dir (nameOf src.filename .blob (r.slot j)) = none := hcur ▸ hnone
    refine (wp_pure _).2 ?_
    simpa [Survivor.present,hnone] using h
  · rename_i hsome
    have hthere : dir (nameOf src.filename .blob (r.slot j))≠none := hcur ▸ hsome
    have hmoves : r.present src dir [j] = [⟨r,j⟩] := by simp [Survivor.present,hthere]
    rw [hmoves]
    simp only [wp_modify,wp_ensure]
    rcases copyFile_cases (copy j) (nameOf src.filename .blob ⟨r.fmt,r.old,j⟩) (nameOf src.filename .new ⟨r.fmt,r.new,j⟩) s.blobs with
      ⟨data,-,hdata,hfree,hcopy⟩ | hcopy | hcopy
    · rw [hcopy,if_pos rfl]
      refine ⟨h.blobs.snoc (m := ⟨r,j⟩) hslot hnew hdata hfree,?_,h.fmt⟩
      simp [h.maps,Move.mapping]
    · rw [hcopy,if_neg (by simp)]
      trivial
    · rw [hcopy,if_neg (by simp)]
      trivial

/-- All the blobs of a record. -/
theorem backUps_along (copy : ℕ → CopyCalls) (h : Along src.filename dir B r.fmt s) (hB : Earlier r fields B)
    (hnodup : fields.Nodup) :
    wp (fields.foldlM (fun _ j => backUp src.filename copy r.fmt r.old r.new j) ()) s
      (fun _ s' => Along src.filename dir (B++r.present src dir fields) r.fmt s') fun _ _ => True := by
  induction fields generalizing s B with
  | nil =>
    refine (wp_pure _).2 ?_
    simpa [Survivor.present] using h
  | cons j fields ih =>
    rw [List.foldlM_cons,wp_bind]
    obtain ⟨hj,hrest⟩ := List.nodup_cons.1 hnodup
    refine wp_mono (backUp_along copy h hB List.mem_cons_self) ?_ fun _ _ => id
    intro _ s' hs'
    have hsplit : r.present src dir (j::fields) = r.present src dir [j]++r.present src dir fields := by
      rw [Survivor.present,Survivor.present,Survivor.present,← List.map_append,← List.filter_append,List.singleton_append]
    rw [hsplit,← List.append_assoc]
    refine ih hs' ?_ hrest
    intro m hm
    rcases List.mem_append.1 hm with hm | hm
    · exact (hB m hm).imp_right fun hfno hmem => hfno (List.mem_cons_of_mem _ hmem)
    · obtain ⟨k,hk,rfl⟩ := List.mem_map.1 hm
      rw [List.mem_singleton.1 (List.mem_filter.1 hk).1]
      exact .inr hj

variable {p : Place}

theorem backUpAll_along {rptr : RFDesc} {fmt : ℕ} (copy : ℕ → CopyCalls) (h : Along src.filename dir B fmt s)
    (hB : ∀ m∈B,m.record.old≠r.old ∧ m.record.new≠r.new) (hformat : src.format r.fmt = some rptr)
    (hseek : p.seekpt = r.old) (hcurr : p.curr = r.new) :
    wp (backUpAll src copy r.fmt rptr p) s
      (fun _ s' => Along src.filename dir (B++r.moves src dir)
        (if r.old≠r.new ∧ src.blobFields r.fmt≠[] then r.fmt else fmt) s') fun _ _ => True := by
  have hfields : src.blobFields r.fmt = rptr.blobFields := by rw [Source.blobFields,hformat]; rfl
  have hmoved : p.seekpt≠p.curr ↔ r.old≠r.new := by rw [hseek,hcurr,ne_eq,Nat.cast_inj]
  have hcount : rptr.hasBlob≠0 ↔ src.blobFields r.fmt≠[] := by
    rw [hfields,RFDesc.hasBlob,← length_fieldsFrom 0,ne_eq,List.length_eq_zero_iff]
    rfl
  rw [backUpAll,wp_ite]
  simp only [hmoved,hcount]
  split
  · rename_i hblob
    rw [wp_bind,wp_modify,RFDesc.hasBlob,walkFields_eq,hseek,hcurr,Survivor.moves,if_neg hblob.1,hfields]
    have hset : Along src.filename dir B r.fmt { s with fmt := r.fmt } := ⟨h.blobs,h.maps,rfl⟩
    exact backUps_along copy hset (fun m hm => .inl (hB m hm)) (nodup_fieldsFrom _ _)
  · rename_i hblob
    refine (wp_pure _).2 ?_
    have hnone : r.moves src dir = [] := by
      rw [Survivor.moves]
      split
      · rfl
      · rename_i hne
        rw [not_and,not_not] at hblob
        rw [hblob hne]
        rfl
    rw [hnone,List.append_nil]
    exact h

/-! ## The walk -/

/-- The offsets that the loop meets. -/
inductive Walk (src : Source) : ℕ → List ℕ → Prop
  | nil : Walk src 0 []
  | cons {o next : ℕ} {rest : List ℕ} (pos : o≠0) (link : getLl (slice (slice src.bytes o headerLength) 9 8) = next)
      (more : Walk src next rest) : Walk src o (o::rest)

variable {new : ℕ}

theorem turn_along {fmt o : ℕ} (calls : Turn) (h : Along src.filename dir B fmt s)
    (hB : ∀ m∈B,m.record.old≠o ∧ m.record.new≠new) (hseek : p.seekpt = o) (hcurr : p.curr = new) :
    wp (turn src calls p) s
      (fun p' s' => Along src.filename dir (B++Survivor.moves src dir ⟨src.fmtAt o,o,new⟩)
          (if o≠new ∧ src.blobFields (src.fmtAt o)≠[] then src.fmtAt o else fmt) s' ∧
        p'.seekpt = getLl (slice (slice src.bytes o headerLength) 9 8) ∧
        (p'.seekpt≠0 → p'.curr = (new+src.rfLen (src.fmtAt o)+headerLength : ℕ))) fun _ _ => True := by
  rw [turn,wp_bind,seek,wp_modify,hseek,if_pos (Int.natCast_nonneg o),wp_bind]
  refine wp_readNext (fun buff hbuff => ?_) fun _ => trivial
  obtain ⟨-,rfl⟩ := readAt_eq_some.1 hbuff
  dsimp only
  rw [Int.toNat_natCast,wp_bind,wp_ofOption]
  have hfmt : ((slice src.bytes o headerLength).headD 0).toNat = src.fmtAt o := rfl
  rw [hfmt]
  split
  · rename_i rptr hrptr
    rw [wp_bind]
    have hset : Along src.filename dir B fmt { s with pos := o+headerLength } := h.congr rfl rfl rfl
    refine wp_mono (backUpAll_along (r := ⟨src.fmtAt o,o,new⟩) calls.copy hset hB hrptr hseek hcurr) ?_ fun _ _ => id
    intro _ s₁ h₁
    rw [wp_bind]
    refine wp_readNext (fun _ _ => ?_) fun _ => trivial
    rw [wp_bind,wp_ensure]
    split
    · simp only [writeOut,wp_bind,wp_modify,wp_pure]
      refine ⟨h₁.congr rfl rfl rfl,trivial,fun hnext => ?_⟩
      rw [if_neg hnext,hcurr,Source.rfLen,hrptr]
      rfl
    · trivial
  · trivial

/-- The moves of all these records. -/
def movesOf (src : Source) (dir : Dir Text Bytes) (rs : List Survivor) : List Move := rs.flatMap (Survivor.moves src dir)

theorem mem_movesOf {rs : List Survivor} : m∈movesOf src dir rs ↔ m.record∈rs ∧ m.record.old≠m.record.new ∧
    m.fno∈src.blobFields m.record.fmt ∧ dir (nameOf src.filename .blob m.slot)≠none := by
  constructor
  · intro h
    obtain ⟨r,hr,hm⟩ := List.mem_flatMap.1 h
    rw [Survivor.moves] at hm
    split at hm
    · cases hm
    · rename_i hne
      obtain ⟨j,hj,rfl⟩ := List.mem_map.1 hm
      obtain ⟨hmem,hthere⟩ := List.mem_filter.1 hj
      exact ⟨hr,hne,hmem,of_decide_eq_true hthere⟩
  · rintro ⟨hr,hne,hmem,hthere⟩
    refine List.mem_flatMap.2 ⟨m.record,hr,?_⟩
    rw [Survivor.moves,if_neg hne]
    exact List.mem_map.2 ⟨m.fno,List.mem_filter.2 ⟨hmem,decide_eq_true hthere⟩,rfl⟩

variable {w : ℕ} {os : List ℕ}

/-- The records that are behind the loop and those that it still meets. -/
structure Between (src : Source) (dir : Dir Text Bytes) (uninit : ℕ) (all : List Survivor) (p : Place) (s : State) (done : List Survivor)
    (w : ℕ) (os : List ℕ) (new : ℕ) : Prop where
  walk : Walk src w os
  along : Along src.filename dir (movesOf src dir done) (lastFmt src uninit done) s
  nodup : (done.map (·.old)++os).Nodup
  before : ∀ r∈done,r.new < new
  seekpt : p.seekpt = w
  curr : w≠0 → p.curr = new
  split : done++survivors src new os = all

theorem loop_along {uninit : ℕ} {all done : List Survivor} (turns : ℕ → Turn) (fuel i : ℕ)
    (h : Between src dir uninit all p s done w os new) :
    wp (loop src turns fuel i p) s
      (fun _ s' => Along src.filename dir (movesOf src dir all) (lastFmt src uninit all) s') fun _ _ => True := by
  refine wp_mono (wp_loop (I := fun p s => ∃ done w os new,Between src dir uninit all p s done w os new) (fun _ => trivial) ?_ fuel i
    ⟨done,w,os,new,h⟩) ?_ fun _ _ => id
  · rintro i p s hmore ⟨done,w,os,new,h⟩
    cases h.walk with
    | nil => exact absurd (by exact_mod_cast h.seekpt) hmore
    | @cons _ next rest pos link more =>
      have hB : ∀ m∈movesOf src dir done,m.record.old≠w ∧ m.record.new≠new := by
        intro m hm
        have hr := (mem_movesOf.1 hm).1
        have hne := (List.nodup_append.1 h.nodup).2.2 m.record.old (List.mem_map.2 ⟨_,hr,rfl⟩) w List.mem_cons_self
        exact ⟨hne,(h.before m.record hr).ne⟩
      refine wp_mono (turn_along (turns i) h.along hB h.seekpt (h.curr pos)) ?_ fun _ _ => id
      rintro p' s' ⟨hs',hseek',hcurr'⟩
      refine ⟨done++[⟨src.fmtAt w,w,new⟩],next,rest,new+src.rfLen (src.fmtAt w)+headerLength,more,?_,?_,?_,hseek'.trans link,?_,?_⟩
      · rw [movesOf,List.flatMap_append,lastFmt,List.foldl_append]
        simpa [movesOf,lastFmt] using hs'
      · simpa using h.nodup
      · intro r hr
        have hlt : 0 < headerLength := by decide
        rcases List.mem_append.1 hr with hr | hr
        · have := h.before r hr
          omega
        · rw [List.mem_singleton.1 hr]
          dsimp only
          omega
      · intro hne
        exact hcurr' (by rw [hseek',link]; exact_mod_cast hne)
      · rw [List.append_assoc]
        exact h.split
  · rintro _ s' ⟨p',hzero,done,w,os,new,h⟩
    cases h.walk with
    | nil => simpa [survivors,← h.split] using h.along
    | cons pos => exact absurd (by exact_mod_cast h.seekpt.symm.trans hzero) pos

/-! ## The end -/

variable {fmt : ℕ} {maps : List Mapping} {x : Slot}

theorem finish_tmp : finish file fmt maps cur (nameOf file .tmp x) =
    if ∃ m∈maps,(⟨fmt,m.old,m.fno⟩ : Slot) = x then none else cur (nameOf file .tmp x) := by
  induction maps generalizing cur with
  | nil => simp [finish]
  | cons m maps ih =>
    rw [finish,List.foldl_cons,← finish,ih,rename_of_ne (nameOf_ne_of_kind (by decide)) (nameOf_ne_of_kind (by decide))]
    by_cases hm : (⟨fmt,m.old,m.fno⟩ : Slot) = x
    · simp [hm]
    · rw [remove_of_ne (nameOf_ne_of_slot (Ne.symm hm))]
      simp [hm]

/-- A copy takes the name of its blob; without a copy the blob stays. -/
theorem finish_new :
    finish file fmt maps cur (nameOf file .new x) =
        (if ∃ m∈maps,(⟨fmt,m.new,m.fno⟩ : Slot) = x then none else cur (nameOf file .new x)) ∧
      finish file fmt maps cur (nameOf file .blob x) =
        if (∃ m∈maps,(⟨fmt,m.new,m.fno⟩ : Slot) = x) ∧ cur (nameOf file .new x)≠none then cur (nameOf file .new x)
        else cur (nameOf file .blob x) := by
  induction maps generalizing cur with
  | nil => simp [finish]
  | cons m maps ih =>
    have hstays : ∀ kind≠.tmp,remove cur (nameOf file .tmp ⟨fmt,m.old,m.fno⟩) (nameOf file kind x) = cur (nameOf file kind x) :=
      fun kind hk => remove_of_ne (nameOf_ne_of_kind hk)
    rw [finish,List.foldl_cons,← finish,ih.1,ih.2]
    by_cases hm : (⟨fmt,m.new,m.fno⟩ : Slot) = x
    · rw [hm,rename_source (nameOf_ne_of_kind (by decide))]
      by_cases hcopy : cur (nameOf file .new x) = none
      · rw [rename_none ((hstays .new (by decide)).trans hcopy),hstays .blob (by decide)]
        simp [hm,hcopy]
      · rw [rename_dest (by rwa [hstays .new (by decide)]),hstays .new (by decide)]
        simp [hm,hcopy]
    · have hne := Ne.symm hm
      rw [rename_of_ne (nameOf_ne_of_slot hne) (nameOf_ne_of_kind (by decide)),hstays .new (by decide),
        rename_of_ne (nameOf_ne_of_kind (by decide)) (nameOf_ne_of_slot hne),hstays .blob (by decide)]
      simp [hm]

/-! ## The whole rebuild -/

theorem map_old_survivors (new : ℕ) (os : List ℕ) : (survivors src new os).map (·.old) = os := by
  induction os generalizing new with
  | nil => rfl
  | cons o os ih => rw [survivors,List.map_cons,ih]

theorem le_of_mem_survivors (h : r∈survivors src new os) : new ≤ r.new := by
  induction os generalizing new with
  | nil => cases h
  | cons o os ih =>
    rcases List.mem_cons.1 h with rfl | h
    · exact le_rfl
    · have := ih h
      omega

theorem nodup_new_survivors (new : ℕ) (os : List ℕ) : ((survivors src new os).map (·.new)).Nodup := by
  induction os generalizing new with
  | nil => exact .nil
  | cons o os ih =>
    refine List.nodup_cons.2 ⟨fun h => ?_,ih _⟩
    obtain ⟨r,hr,hnew⟩ := List.mem_map.1 h
    have hle := le_of_mem_survivors hr
    have hlt : 0 < headerLength := by decide
    dsimp only at hnew
    omega

theorem copyRecords_along (calls : Calls) (fuel uninit : ℕ) (dir : Dir Text Bytes) (hw : Walk src w os)
    (hnodup : os.Nodup) (hsecond : getLl (slice src.bytes (src.hlen+10) 8) = w) :
    wp (copyRecords src calls fuel) ⟨[],0,dir,[],uninit⟩
      (fun _ s' => Along src.filename dir (movesOf src dir (survivors src src.start os))
        (lastFmt src uninit (survivors src src.start os)) s') fun _ _ => True := by
  refine wp_copyRecords_any calls fuel uninit (fun _ _ _ _ => trivial) fun out pos => ?_
  rw [Source.second,hsecond]
  have hstart : Between src dir uninit _ ⟨0,src.start,w⟩ ⟨out,pos,dir,[],uninit⟩ [] w os src.start :=
    ⟨hw,⟨.nil _ _,rfl,rfl⟩,by simpa using hnodup,by simp,rfl,fun _ => rfl,rfl⟩
  exact loop_along calls.turn fuel 0 hstart

/-- Every surviving record has the blobs it had, and no other blobs of the rebuild are left. -/
structure BlobsKept (src : Source) (rs : List Survivor) (dir dir' : Dir Text Bytes) : Prop where
  blob : ∀ r∈rs,∀ j∈src.blobFields r.fmt,
    dir' (nameOf src.filename .blob (r.newSlot j)) = dir (nameOf src.filename .blob (r.slot j))
  tmp : ∀ x,dir' (nameOf src.filename .tmp x) = none
  new : ∀ x,dir' (nameOf src.filename .new x) = none

/-- The moved blobs are all of the last format. No `$new` is there before, and no `$tmp` but for a moved blob. A
record without a blob does not move to where an old one stays. -/
structure OneFormat (src : Source) (rs : List Survivor) (dir : Dir Text Bytes) (fmt : ℕ) : Prop where
  format : ∀ m∈movesOf src dir rs,m.record.fmt = fmt
  tmp : ∀ x,dir (nameOf src.filename .tmp x)≠none → ∃ m∈movesOf src dir rs,m.slot = x
  new : ∀ x,dir (nameOf src.filename .new x) = none
  stale : ∀ r∈rs,r.old≠r.new → ∀ j∈src.blobFields r.fmt,dir (nameOf src.filename .blob (r.slot j)) = none →
    dir (nameOf src.filename .blob (r.newSlot j))≠none → ∃ m∈movesOf src dir rs,m.slot = r.newSlot j

section Kept

variable {rs : List Survivor}

/-- The slots that the replay meets when the formats agree. -/
theorem mapping_slots (hformat : ∀ m∈B,m.record.fmt = fmt) :
    (∀ x,(∃ y∈B.map Move.mapping,(⟨fmt,y.old,y.fno⟩ : Slot) = x) ↔ ∃ m∈B,m.slot = x) ∧
    ∀ x,(∃ y∈B.map Move.mapping,(⟨fmt,y.new,y.fno⟩ : Slot) = x) ↔ ∃ m∈B,m.newSlot = x := by
  have hold : ∀ m∈B,(⟨fmt,m.mapping.old,m.mapping.fno⟩ : Slot) = m.slot := fun m hm => by rw [← hformat m hm]; rfl
  have hnew : ∀ m∈B,(⟨fmt,m.mapping.new,m.mapping.fno⟩ : Slot) = m.newSlot := fun m hm => by rw [← hformat m hm]; rfl
  simp only [List.mem_map,exists_exists_and_eq_and]
  constructor
  · exact fun x => exists_congr fun m => and_congr_right fun hm => by rw [hold m hm]
  · exact fun x => exists_congr fun m => and_congr_right fun hm => by rw [hnew m hm]

/-- What the replay makes of the backed up blobs, when the formats agree. -/
structure Replayed (file : Text) (dir dir' : Dir Text Bytes) (B : List Move) : Prop where
  tmp : ∀ x,(¬ ∃ m∈B,m.slot = x) → dir' (nameOf file .tmp x) = dir (nameOf file .tmp x)
  tmp_gone : ∀ m∈B,dir' (nameOf file .tmp m.slot) = none
  new : ∀ x,(¬ ∃ m∈B,m.newSlot = x) → dir' (nameOf file .new x) = dir (nameOf file .new x)
  new_gone : ∀ m∈B,dir' (nameOf file .new m.newSlot) = none
  moved : ∀ m∈B,dir' (nameOf file .blob m.newSlot) = dir (nameOf file .blob m.slot)
  gone : ∀ m∈B,(¬ ∃ m'∈B,m'.newSlot = m.slot) → dir' (nameOf file .blob m.slot) = none
  blob : ∀ x,(¬ ∃ m∈B,m.slot = x) → (¬ ∃ m∈B,m.newSlot = x) → dir' (nameOf file .blob x) = dir (nameOf file .blob x)

theorem BackedUp.finish (h : BackedUp file dir B cur) (hformat : ∀ m∈B,m.record.fmt = fmt) :
    Replayed file dir (finish file fmt (B.map Move.mapping) cur) B := by
  obtain ⟨hold,hnew⟩ := mapping_slots hformat
  have hother : ∀ (slot : Move → Slot) x,(¬ ∃ m∈B,slot m = x) → ∀ m∈B,slot m≠x := fun slot x hx m hm heq => hx ⟨m,hm,heq⟩
  have hcopy : ∀ m∈B,cur (nameOf file .new m.newSlot)≠none := by
    intro m hm
    rw [h.copied m hm]
    exact h.present m hm
  constructor
  · intro x hx
    rw [finish_tmp,if_neg fun h => hx ((hold x).1 h),h.tmp x (hother _ x hx)]
  · exact fun m hm => finish_tmp.trans (if_pos ((hold _).2 ⟨m,hm,rfl⟩))
  · intro x hx
    rw [finish_new.1,if_neg fun h => hx ((hnew x).1 h),h.new x (hother _ x hx)]
  · exact fun m hm => finish_new.1.trans (if_pos ((hnew _).2 ⟨m,hm,rfl⟩))
  · intro m hm
    rw [finish_new.2,if_pos ⟨(hnew _).2 ⟨m,hm,rfl⟩,hcopy m hm⟩,h.copied m hm]
  · intro m hm hx
    rw [finish_new.2,if_neg fun h => hx ((hnew _).1 h.1),h.gone m hm]
  · intro x hx hx'
    rw [finish_new.2,if_neg fun h => hx' ((hnew x).1 h.1),h.blob x (hother _ x hx)]

/-- The records have different offsets, before and after. -/
structure Distinct (rs : List Survivor) : Prop where
  old : ∀ r∈rs,∀ r'∈rs,r.old = r'.old → r = r'
  new : ∀ r∈rs,∀ r'∈rs,r.new = r'.new → r = r'

theorem distinct_survivors (h : os.Nodup) : Distinct (survivors src new os) where
  old r hr r' hr' heq := List.inj_on_of_nodup_map (by rw [map_old_survivors]; exact h) hr hr' heq
  new r hr r' hr' heq := List.inj_on_of_nodup_map (nodup_new_survivors new os) hr hr' heq

/-- A move to the new place of a record is one of the record. -/
theorem Distinct.of_newSlot (hd : Distinct rs) (hm : m∈movesOf src dir rs) (hr : r∈rs)
    (heq : m.newSlot = r.newSlot j) : m = ⟨r,j⟩ := by
  have hrec := hd.new _ (mem_movesOf.1 hm).1 r hr (Int.ofNat.inj (congrArg Slot.recno heq))
  have hfno : m.fno = j := congrArg Slot.fno heq
  rw [← hrec,← hfno]

theorem Distinct.of_slot (hd : Distinct rs) (hm : m∈movesOf src dir rs) (hr : r∈rs)
    (heq : m.slot = r.slot j) : m = ⟨r,j⟩ := by
  have hrec := hd.old _ (mem_movesOf.1 hm).1 r hr (Int.ofNat.inj (congrArg Slot.recno heq))
  have hfno : m.fno = j := congrArg Slot.fno heq
  rw [← hrec,← hfno]

theorem blobsKept_iff (hd : Distinct rs) (h : BackedUp src.filename dir (movesOf src dir rs) cur) :
    BlobsKept src rs dir (finish src.filename fmt ((movesOf src dir rs).map Move.mapping) cur) ↔ OneFormat src rs dir fmt := by
  constructor
  · intro hk
    have hformat : ∀ m∈movesOf src dir rs,m.record.fmt = fmt := by
      intro m hm
      by_contra hne
      have hother : ¬ ∃ y∈(movesOf src dir rs).map Move.mapping,(⟨fmt,y.new,y.fno⟩ : Slot) = m.newSlot := by
        rintro ⟨y,-,heq⟩
        exact hne (congrArg Slot.fmt heq).symm
      have hleft := hk.new m.newSlot
      rw [finish_new.1,if_neg hother,h.copied m hm] at hleft
      exact h.present m hm hleft
    have hr := h.finish hformat
    refine ⟨hformat,fun x hx => ?_,fun x => ?_,fun r hr' hne j hj hnone hstale => ?_⟩
    · by_contra hno
      exact hx ((hr.tmp x hno).symm.trans (hk.tmp x))
    · by_cases hno : ∃ m∈movesOf src dir rs,m.newSlot = x
      · obtain ⟨m,hm,rfl⟩ := hno
        exact h.free m hm
      · exact (hr.new x hno).symm.trans (hk.new x)
    · by_contra hno
      have hnew : ¬ ∃ m∈movesOf src dir rs,m.newSlot = r.newSlot j := by
        rintro ⟨m,hm,heq⟩
        have hthere := (mem_movesOf.1 hm).2.2.2
        rw [hd.of_newSlot hm hr' heq] at hthere
        exact hthere hnone
      exact hstale ((hr.blob _ hno hnew).symm.trans ((hk.blob r hr' j hj).trans hnone))
  · intro ho
    have hr := h.finish ho.format
    refine ⟨fun r hr' j hj => ?_,fun x => ?_,fun x => ?_⟩
    · by_cases hmove : r.old≠r.new ∧ dir (nameOf src.filename .blob (r.slot j))≠none
      · exact hr.moved ⟨r,j⟩ (mem_movesOf.2 ⟨hr',hmove.1,hj,hmove.2⟩)
      have hnew : ¬ ∃ m∈movesOf src dir rs,m.newSlot = r.newSlot j := by
        rintro ⟨m,hm,heq⟩
        obtain ⟨-,hne,-,hthere⟩ := mem_movesOf.1 hm
        rw [hd.of_newSlot hm hr' heq] at hne hthere
        exact hmove ⟨hne,hthere⟩
      by_cases hsame : r.old = r.new
      · -- the record stays where it is, and no move has to do with it
        have hslot : r.newSlot j = r.slot j := by rw [Survivor.newSlot,Survivor.slot,hsame]
        rw [hslot] at hnew ⊢
        refine hr.blob _ ?_ hnew
        rintro ⟨m,hm,heq⟩
        have hne := (mem_movesOf.1 hm).2.1
        rw [hd.of_slot hm hr' heq] at hne
        exact hne hsame
      · have hnone : dir (nameOf src.filename .blob (r.slot j)) = none := by
          by_contra hthere
          exact hmove ⟨hsame,hthere⟩
        rw [hnone]
        by_cases hold : ∃ m∈movesOf src dir rs,m.slot = r.newSlot j
        · obtain ⟨m,hm,heq⟩ := hold
          rw [← heq] at hnew ⊢
          exact hr.gone m hm hnew
        · rw [hr.blob _ hold hnew]
          by_contra hstale
          exact hold (ho.stale r hr' hsame j hj hnone hstale)
    · by_cases hold : ∃ m∈movesOf src dir rs,m.slot = x
      · obtain ⟨m,hm,rfl⟩ := hold
        exact hr.tmp_gone m hm
      · rw [hr.tmp x hold]
        by_contra htmp
        exact hold (ho.tmp x htmp)
    · by_cases hnew : ∃ m∈movesOf src dir rs,m.newSlot = x
      · obtain ⟨m,hm,rfl⟩ := hnew
        exact hr.new_gone m hm
      · rw [hr.new x hnew,ho.new]

end Kept

/-! ## Data files -/

theorem Source.length_formats_le (src : Source) :
    (src.formats.map fun d => (⟨d.rfLen,d.hasBlob≠0⟩ : DataFile.Format)).length ≤ 63 := by
  rw [List.length_map]
  exact src.formats_le

/-- The data file as the handlers see it. -/
def Source.files (src : Source) : Files := ⟨src.hlen,src.formats.map fun d => ⟨d.rfLen,d.hasBlob≠0⟩,src.length_formats_le⟩

variable {recs : List Record} {chain : List ℕ}

/-- The loop meets the chain, from its head. -/
theorem walk_of_segment (hc : Chained src.files src.bytes recs chain) {p : ℕ} (hsub : ∀ o∈os,o∈chain)
    (hseg : LinkedChain.Segment (prevAt src.files src.bytes) (nextAt src.files src.bytes) 0 p os) : Walk src (os.headD 0) os := by
  induction hseg with
  | nil => exact .nil
  | @cons p o rest back forth more ih =>
    have ho : o∈chain := hsub o List.mem_cons_self
    obtain ⟨r,-,-,-,-,-,-,hnext⟩ := hc.header ho
    refine .cons ?_ ?_ (ih fun x hx => hsub x (List.mem_cons_of_mem _ hx))
    · rintro rfl
      exact hc.zero_notMem ho
    · rw [← forth]
      exact hnext

/-- A rebuild that completes keeps every blob with its record exactly if all the blobs that move are of one format. -/
theorem rebuild_keeps_blobs_iff (hc : Chained src.files src.bytes recs chain)
    (hsecond : getLl (slice src.bytes (src.hlen+10) 8) = (chain.headD 0 : ℕ)) (calls : Calls) (fuel uninit : ℕ) (dir : Dir Text Bytes)
    (hdone : (rebuild src calls fuel uninit dir).stopped = none) :
    BlobsKept src (survivors src src.start chain) dir (rebuild src calls fuel uninit dir).blobs ↔
      OneFormat src (survivors src src.start chain) dir (lastFmt src uninit (survivors src src.start chain)) := by
  have hw := walk_of_segment hc (fun _ h => h) hc.linked
  rcases wp_cases (copyRecords_along calls fuel uninit dir hw hc.nodup hsecond) with ⟨_,s,hrun,hs⟩ | ⟨e,s,hrun,-⟩
  · rw [rebuild,hrun]
    dsimp only
    rw [hs.maps,hs.fmt]
    exact blobsKept_iff (distinct_survivors hc.nodup) hs.blobs
  · cases e <;> simp [rebuild,hrun] at hdone

theorem two_le_formats : 2 ≤ 63 := by decide

/-- A file with a deleted record and two live ones, whose formats are one blob each. -/
def twoFormats : Source where
  filename := [65]
  hlen := 14
  desc := [0,2,0,1,0,0,0,0,0,1,0,0,0,0]
  formats := [oneBlob,oneBlob]
  formats_le := two_le_formats
  bytes := [0,14,0,2,0,1,0,0,0,0,0,1,0,0,0,0]++putBE 8 49++putBE 8 49++(129::putBE 8 0++putBE 8 49) ++
    (1::putBE 8 0++putBE 8 66)++(2::putBE 8 49++putBE 8 0)

theorem twoFormats_chained : Chained twoFormats.files twoFormats.bytes [⟨32,1⟩,⟨49,1⟩,⟨66,2⟩] [49,66] where
  laid := ⟨by decide,by decide,by decide,by decide,by unfold DataFile.Apart; decide,by decide⟩
  flags := by decide
  records := by decide
  nodup := by decide
  head := by decide
  linked := .cons (by decide) (by decide) (.cons (by decide) (by decide) .nil)

def twoBlobFiles : Dir Text Bytes :=
  put (put (fun _ => none) (nameOf [65] .blob ⟨1,49,0⟩) [5]) (nameOf [65] .blob ⟨2,66,0⟩) [6]

/-- The blob of the first record is left with `$new` behind its name. -/
theorem rebuild_loses_blob :
    Chained twoFormats.files twoFormats.bytes [⟨32,1⟩,⟨49,1⟩,⟨66,2⟩] [49,66] ∧
    getLl (slice twoFormats.bytes (twoFormats.hlen+10) 8) = 49 ∧
    (rebuild twoFormats goodCalls 3 0 twoBlobFiles).stopped = none ∧
    ¬ BlobsKept twoFormats (survivors twoFormats twoFormats.start [49,66]) twoBlobFiles
      (rebuild twoFormats goodCalls 3 0 twoBlobFiles).blobs := by
  have hleft : (rebuild twoFormats goodCalls 3 0 twoBlobFiles).blobs (nameOf [65] .new ⟨1,32,0⟩) = some [5] := by decide +kernel
  refine ⟨twoFormats_chained,by decide +kernel,by decide +kernel,fun h => ?_⟩
  have hnone : (rebuild twoFormats goodCalls 3 0 twoBlobFiles).blobs (nameOf [65] .new ⟨1,32,0⟩) = none := h.new ⟨1,32,0⟩
  rw [hnone] at hleft
  cases hleft

theorem movedSource_chained : Chained movedSource.files movedSource.bytes [⟨26,1⟩,⟨43,1⟩] [43] where
  laid := ⟨by decide,by decide,by decide,by decide,by unfold DataFile.Apart; decide,by decide⟩
  flags := by decide
  records := by decide
  nodup := by decide
  head := by decide
  linked := .cons (by decide) (by decide) .nil

theorem movedBlobs_oneFormat : OneFormat movedSource [⟨1,43,26⟩] movedBlobs 1 := by
  have hother : ∀ kind x,kind≠.blob → movedBlobs (nameOf [65] kind x) = none :=
    fun kind x hk => put_of_ne _ (nameOf_ne_of_kind hk)
  refine ⟨by decide +kernel,fun x hx => absurd (hother _ x (by decide)) hx,fun x => hother _ x (by decide),?_⟩
  intro r hr _ j hj hnone
  obtain rfl := List.mem_singleton.1 hr
  obtain rfl : j = 0 := List.mem_singleton.1 hj
  exact absurd hnone (by decide +kernel)

theorem rebuild_keeps_blobs_iff_moved :
    BlobsKept movedSource (survivors movedSource movedSource.start [43]) movedBlobs (rebuild movedSource goodCalls 2 0 movedBlobs).blobs :=
  (rebuild_keeps_blobs_iff movedSource_chained (by decide +kernel) goodCalls 2 0 movedBlobs (by decide +kernel)).2
    (by
      have hrs : survivors movedSource movedSource.start [43] = [⟨1,43,26⟩] := by decide +kernel
      have hlast : lastFmt movedSource 0 [⟨1,43,26⟩] = 1 := by decide +kernel
      rw [hrs,hlast]
      exact movedBlobs_oneFormat)

end Dataman.Rebuild

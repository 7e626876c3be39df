import Dataman.IndexRefinement

/-!
# Crashes during an update

Until its slot is whole, an update is invisible: the page writes stay clear of the trees
under both root slots, and the slot that is written last is not the selected one.
-/

namespace Dataman.IndexFile
open ByteFiles Checksum FailState PageTree

variable {ctx : Context} {first : ℕ} {f g : Bytes}

/-- The pages found by following child offsets from a root. -/
inductive Reaches (ctx : Context) (f : Bytes) (root : ℕ) : ℕ → Prop
  | root : Reaches ctx f root root
  | child {p c : ℕ} {n : Node} (reached : Reaches ctx f root p) (load : v2LoadNode ctx f p = some n)
      (mem : c∈n.children) : Reaches ctx f root c

/-- The file when a sequence of writes stops early. Of the write that was going on, any bytes
may stand in the first part of its range. -/
inductive Interrupted (f : Bytes) (ws : List (ℕ × Bytes)) : Bytes → Prop
  | between (n : ℕ) : Interrupted f ws (applyWrites f (ws.take n))
  | torn {n : ℕ} {w : ℕ × Bytes} {part : Bytes} (next : ws[n]? = some w) (part_le : part.length ≤ w.2.length) :
      Interrupted f ws (applyWrites f (ws.take n++[(w.1,part)]))

/-- A reader of `g` finds what a reader of `f` finds. -/
structure SameView (f g : Bytes) : Prop where
  header : indexV2ReadHeader g = indexV2ReadHeader f
  walk : walk g = walk f

theorem SameView.trans {f g k : Bytes} (h : SameView f g) (h' : SameView g k) : SameView f k :=
  ⟨h'.header.trans h.header,h'.walk.trans h.walk⟩

/-! ## Reachable pages -/

variable {h : ℕ} {t : Summary Bytes}

theorem Reaches.mem_pages {p : ℕ} (ht : Tree ctx f h t) (hp : Reaches ctx f t.off p) :
    p∈t.pages := by
  induction hp with
  | root => exact ht.off_mem_pages
  | child _ hload hmem ih => exact ht.child_mem_pages ih hload hmem

variable {ws : List (ℕ × Bytes)}

theorem Beside.not_reaches {w : ℕ × Bytes} {r : Slot} (hi : Index ctx first f)
    (hw : Beside ctx first f ws) (hm : w∈ws) (hr : slot0 f = some r ∨ slot1 f = some r) :
    ¬ Reaches ctx f r.rootOffset w.1 := by
  intro hp
  obtain ⟨h,t,ho,ht⟩ := hi.rooted r hr
  exact hw.apart w hm ⟨r,hr,h,t,ho,ht,Reaches.mem_pages ht.tree (ho ▸ hp)⟩

/-! ## Interrupted page writes -/

theorem Interrupted.beside (hw : Beside ctx first f ws) (hg : Interrupted f ws g) :
    ∃ vs,g = applyWrites f vs ∧ Beside ctx first f vs := by
  cases hg with
  | between n =>
    have hsub : ∀ w∈ws.take n,w∈ws := fun w => List.mem_of_mem_take
    exact ⟨_,rfl,fun w h => hw.aligned w (hsub w h),fun w h => hw.ge w (hsub w h),fun w h => hw.short w (hsub w h),
      fun w h => hw.apart w (hsub w h)⟩
  | @torn n w part hn hp =>
    have hmem := List.mem_of_getElem? hn
    have hsub : ∀ v∈ws.take n++[(w.1,part)],∃ u∈ws,v.1 = u.1 ∧ v.2.length ≤ u.2.length := by
      intro v hv
      rcases List.mem_append.1 hv with hv | hv
      · exact ⟨v,List.mem_of_mem_take hv,rfl,le_rfl⟩
      · rw [List.mem_singleton.1 hv]
        exact ⟨w,hmem,rfl,hp⟩
    refine ⟨_,rfl,fun v hv => ?_,fun v hv => ?_,fun v hv => ?_,fun v hv => ?_⟩ <;>
      obtain ⟨u,hu,heq,hle⟩ := hsub v hv
    · exact heq ▸ hw.aligned u hu
    · exact heq ▸ hw.ge u hu
    · exact hle.trans (hw.short u hu)
    · exact heq ▸ hw.apart u hu

theorem readHeader_congr (hf : 128 ≤ f.length) (hg : 128 ≤ g.length) (h : slice g 0 128 = slice f 0 128) :
    indexV2ReadHeader g = indexV2ReadHeader f := by
  rw [indexV2ReadHeader,indexV2ReadHeader,readAt_of_le (by omega),readAt_of_le (by omega),h]

theorem readPageSize_congr (hf : 128 ≤ f.length) (hg : 128 ≤ g.length) (h : slice g 0 128 = slice f 0 128) (keylen : ℕ) :
    indexV2ReadPageSize g keylen = indexV2ReadPageSize f keylen := by
  rw [indexV2ReadPageSize,indexV2ReadPageSize,readAt_of_le (by omega),readAt_of_le (by omega),h]

theorem walk_eq_none (h : indexV2ReadHeader f = none) : walk f = none := by simp [walk,h]

/-- Whatever is written beside the trees, the old tree is read. -/
theorem Beside.sameView (hi : Index ctx first f) (hw : Beside ctx first f ws) :
    SameView f (applyWrites f ws) := by
  have hl := hi.toLayout
  have hslice := hw.header hl
  have hlen := length_le_applyWrites f ws
  have hge := hl.length_ge
  have hheader := readHeader_congr hge (hge.trans hlen) hslice
  refine ⟨hheader,?_⟩
  cases hh : indexV2ReadHeader f with
  | none => rw [walk_eq_none hh,walk_eq_none (hheader.trans hh)]
  | some hd =>
    obtain ⟨-,hslot,h,t,hcur⟩ := hi.current hh
    have hold := hw.rooted hl hslot hcur.off hcur.rooted
    rw [hcur.walk hi]
    refine walk_eq (hheader.trans hh) (hi.header_fields hh).1 ?_ hcur.off hold.tree ?_
    · rw [readPageSize_congr hge (hge.trans hlen) hslice,hl.readPageSize]
    · exact lt_of_lt_of_le (hcur.rooted.height_lt_length hl) hlen

/-! ## An interrupted slot write -/

variable {hd : Header}

/-- The slot for the next generation is not the selected one. -/
theorem Index.selected_kept {data : Bytes} (hi : Index ctx first f) (hh : indexV2ReadHeader f = some hd)
    (hdata : data.length ≤ 32) :
    slotOffset (hd.root.generation+1) = 32 ∧ slot1 f = some hd.root ∧ slot1 (writeAt f 32 data) = slot1 f ∨
      slotOffset (hd.root.generation+1) = 64 ∧ slot0 f = some hd.root ∧ slot0 (writeAt f 64 data) = slot0 f := by
  have hl := hi.length_ge
  obtain ⟨-,hslot,-⟩ := hi.current hh
  rcases hslot with h | h
  · right
    have := hi.parity.odd _ h
    have := slotOffset_cases (hd.root.generation+1)
    refine ⟨by omega,h,?_⟩
    rw [slot0,slot0,slice_writeAt_disjoint _ _ _ _ _ (by omega) (by omega)]
  · left
    have := hi.parity.even _ h
    have := slotOffset_cases (hd.root.generation+1)
    refine ⟨by omega,h,?_⟩
    rw [slot1,slot1,slice_writeAt_disjoint _ _ _ _ _ (by omega) (by omega)]

/-- A slot write that leaves an invalid slot, or nothing yet. -/
theorem Index.torn_slot {part : Bytes} (hi : Index ctx first f) (hh : indexV2ReadHeader f = some hd)
    (hpart : part.length ≤ 32) {o : ℕ} (ho : o = slotOffset (hd.root.generation+1))
    (hbad : readSlot (slice (writeAt f o part) o 32) = none ∨
      readSlot (slice (writeAt f o part) o 32) = readSlot (slice f o 32)) : SameView f (writeAt f o part) := by
  have hcases := slotOffset_cases (hd.root.generation+1)
  have hl : Layout ctx first (writeAt f o part) := hi.toLayout.writeAt (by omega)
  have hpub : Published (writeAt f o part) := hi.published.writeAt (by omega)
  have hsel : selectSlot (slot0 (writeAt f o part)) (slot1 (writeAt f o part)) = selectSlot (slot0 f) (slot1 f) := by
    have hold : selectSlot (slot0 f) (slot1 f) = some hd.root := by
      rw [hi.readHeader,Option.map_eq_some_iff] at hh
      obtain ⟨root,hsel,rfl⟩ := hh
      exact hsel
    rcases hi.selected_kept hh hpart with ⟨h32,hs,hkept⟩ | ⟨h64,hs,hkept⟩
    · obtain rfl : o = 32 := ho.trans h32
      rcases hbad with h | h
      · rw [hold,hkept,hs,slot0,h]
        rfl
      · rw [hkept,slot0,h]
        rfl
    · obtain rfl : o = 64 := ho.trans h64
      rcases hbad with h | h
      · rw [hold,hkept,hs,slot1,h]
        rfl
      · rw [hkept,slot1,h]
        rfl
  have hheader : indexV2ReadHeader (writeAt f o part) = indexV2ReadHeader f := by
    rw [readHeader_eq hpub,hl.keylen_eq,hl.fileCount_eq,hsel,hi.readHeader]
  refine ⟨hheader,?_⟩
  obtain ⟨hk,-,h,t,hcur⟩ := hi.current hh
  have hkept := hcur.rooted.header_write hi.toLayout (show o+part.length ≤ 128 by omega)
  rw [hcur.walk hi]
  exact walk_eq (hheader.trans hh) hk hl.readPageSize hcur.off hkept.tree (hkept.height_lt_length hl)

/-! ## A complete update -/

variable {root : Slot}

/-- A slot with a checksum that is not zero is the selected one. -/
theorem Index.observed (hi : Index ctx first f) (hh : indexV2ReadHeader f = some hd)
    (hp : root.Publishable) (hgen : root.generation = hd.root.generation+1) (hcrc : indexV2Crc32 (slotBody root)≠0#32) :
    indexV2ReadHeader (writeAt f (slotOffset root.generation) (slotBytes root)) = some ⟨ctx.keylen,ctx.fileCount,root⟩ := by
  have hcases := slotOffset_cases root.generation
  have hlen := length_slotBytes root
  have hl : Layout ctx first (writeAt f (slotOffset root.generation) (slotBytes root)) := hi.toLayout.writeAt (by omega)
  have hread := readSlot_slotBytes hp
  rw [if_neg hcrc] at hread
  have hlt : ∀ x,some hd.root = some x → x.generation < hd.root.generation+1 := by
    rintro x ⟨⟩
    exact Nat.lt_succ_self _
  obtain ⟨h00,h01,h10,h11⟩ := slots_writeAt_slot hi.length_ge hlen
  rw [readHeader_eq (hi.published.writeAt (by omega)),hl.keylen_eq,hl.fileCount_eq,Option.map_eq_some_iff]
  refine ⟨root,selectSlot_newest ?_,rfl⟩
  rcases hi.selected_kept hh hlen.le with ⟨ho,hs,-⟩ | ⟨ho,hs,-⟩
  · rw [hgen,ho,h00,h01,hread,hs]
    exact .inl ⟨rfl,hgen ▸ hlt⟩
  · rw [hgen,ho,h10,h11,hread,hs]
    exact .inr ⟨rfl,hgen ▸ hlt⟩

/-! ## Crash atomicity -/

/-- Page writes that no reader of `f` can notice, whole or interrupted. -/
structure Unnoticed (ctx : Context) (f : Bytes) (pages : List (ℕ × Bytes)) : Prop where
  aligned : ∀ w∈pages,ctx.pageSize ∣ w.1 ∧ w.2.length ≤ ctx.pageSize
  once : pages.Pairwise (fun v w => v.1≠w.1)
  unreached : ∀ w∈pages,∀ root,slot0 f = some root ∨ slot1 f = some root → ¬ Reaches ctx f root.rootOffset w.1
  view : ∀ g,Interrupted f pages g → SameView f g

theorem Unnoticed.nil : Unnoticed ctx f [] := by
  refine ⟨by simp,.nil,by simp,fun g hg => ?_⟩
  cases hg with
  | between n => rw [List.take_nil]; exact ⟨rfl,rfl⟩
  | torn next => simp at next

variable {s : IndexState}

theorem Written.unnoticed {s1 : IndexState} (hi : Index ctx first s.bytes)
    (hw : Written ctx first s s1 ws) : Unnoticed ctx s.bytes ws := by
  refine ⟨fun w hm => ⟨hw.beside.aligned w hm,hw.beside.short w hm⟩,hw.once,
    fun w hm root hr => hw.beside.not_reaches hi hm hr,fun g hg => ?_⟩
  obtain ⟨vs,rfl,hvs⟩ := hg.beside hw.beside
  exact hvs.sameView hi

/-- A slot write over the pages: unnoticed while the slot is invalid, and a switch to the new tree
beside the old one when it is whole and its checksum is not zero. -/
structure Switches (ctx : Context) (f : Bytes) (hd : Header) (pages : List (ℕ × Bytes)) (root : Slot)
    (entries entries' : List Bytes) : Prop where
  generation : root.generation = hd.root.generation+1
  torn : ∀ part,part.length ≤ (slotBytes root).length → ∀ g,
    g = writeAt (applyWrites f pages) (slotOffset root.generation) part →
    (readSlot (slice g (slotOffset root.generation) 32) = none ∨
      readSlot (slice g (slotOffset root.generation) 32) = readSlot (slice f (slotOffset root.generation) 32)) →
    SameView f g
  whole : indexV2Crc32 (slotBody root)≠0#32 → ∀ g,
    g = applyWrites f (pages++[(slotOffset root.generation,slotBytes root)]) →
    indexV2ReadHeader g = some ⟨hd.keylen,hd.fileCount,root⟩ ∧ walk g = some entries' ∧
      (slot0 g = some hd.root ∨ slot1 g = some hd.root) ∧
      ∃ h t,t.off = hd.root.rootOffset ∧ t.entries = entries ∧ Tree ctx f h t ∧ Tree ctx g h t

theorem Committed.switches {s' : IndexState} {h' : ℕ} {t' : Summary Bytes}
    (hi : Index ctx first s.bytes) (hcur : Current ctx first s.bytes hd h t)
    (hc : Committed ctx first s s' hd h' t' ws root) :
    Switches ctx s.bytes hd ws root t.entries t'.entries ∧
      s'.writes = s.writes++(ws++[(slotOffset root.generation,slotBytes root)]) ∧
      s'.bytes = applyWrites s.bytes (ws++[(slotOffset root.generation,slotBytes root)]) := by
  have hi' := hc.index hi
  obtain ⟨s1,hw,ht,hbytes,hwrites⟩ := hc.written
  have hlay := hw.layout
  rw [hw.bytes_eq] at hlay ht hbytes
  have hi1 := hi.beside hw.beside hlay
  have hview := hw.beside.sameView hi
  have hh1 := hview.header.trans hcur.header
  have hcases := slotOffset_cases root.generation
  have hlen := length_slotBytes root
  have hbytes' : s'.bytes = applyWrites s.bytes (ws++[(slotOffset root.generation,slotBytes root)]) := by
    rw [hbytes,applyWrites,applyWrites,List.foldl_append]
    rfl
  refine ⟨⟨hc.generation,?_,?_⟩,by rw [hwrites,hw.writes_eq,List.append_assoc],hbytes'⟩
  · rintro part hpart g rfl hbad
    have hslice := hw.beside.header hi.toLayout
    have hsame : readSlot (slice (applyWrites s.bytes ws) (slotOffset root.generation) 32) =
        readSlot (slice s.bytes (slotOffset root.generation) 32) := by
      rcases hcases with ⟨ho,-⟩ | ⟨ho,-⟩
      · rw [ho]
        exact slot0_congr hslice
      · rw [ho]
        exact slot1_congr hslice
    exact hview.trans (hi1.torn_slot hh1 (hlen ▸ hpart) (by rw [hc.generation]) (hsame ▸ hbad))
  · rintro hcrc g rfl
    rw [← hbytes']
    have hread := hi1.observed hh1 hc.publishable hc.generation hcrc
    rw [← hbytes] at hread
    obtain ⟨hk,hfc⟩ := hi.header_fields hcur.header
    obtain ⟨-,hslot,-⟩ := hi.current hcur.header
    have hold := (hw.beside.rooted hi.toLayout hslot hcur.off hcur.rooted).header_write hlay
      (show slotOffset root.generation+(slotBytes root).length ≤ 128 by omega)
    refine ⟨by rw [hread,hk,hfc],?_,?_,h,t,hcur.off,rfl,hcur.rooted.tree,hbytes ▸ hold.tree⟩
    · exact (hc.current hi hcur.header hread hc.generation).2.walk hi'
    · rw [hbytes,hc.generation]
      rcases hi1.selected_kept hh1 hlen.le with ⟨ho,hs,hkept⟩ | ⟨ho,hs,hkept⟩
      · rw [ho,hkept]
        exact .inr hs
      · rw [ho,hkept]
        exact .inl hs

/-- **An update is atomic under crashes.** Its page writes go to distinct pages that neither root reaches; until
its slot is valid the old tree is read, and from then on the new one, with the old one kept under the other slot. -/
theorem request_crash_atomic {keylen : ℕ} {fileNames : List Bytes} {r : Request} {out : Except Fault Unit} {s : IndexState}
    (hcount : fileNames.length < 2 ^ 16) (hr : Reachable keylen fileNames f) (hfit : r.composite.Fits keylen)
    (hrun : r.run { bytes := f } = (out,s)) (hio : out≠.error .io) :
    s.bytes = applyWrites f s.writes ∧
    ∃ pages,Unnoticed (newContext keylen fileNames false) f pages ∧
      (out≠.ok () → s.writes = pages) ∧
      (out = .ok () → ∃ hd root entries,indexV2ReadHeader f = some hd ∧ walk f = some entries ∧
        s.writes = pages++[(slotOffset root.generation,slotBytes root)] ∧
        Switches (newContext keylen fileNames false) f hd pages root entries (r.change keylen entries)) := by
  -- most refusals write nothing
  by_cases hquiet : s.bytes = f ∧ s.writes = [] ∧ out≠.ok ()
  · obtain ⟨hb,hw,hne⟩ := hquiet
    exact ⟨by rw [hb,hw]; rfl,[],.nil,fun _ => hw,fun h => absurd h hne⟩
  cases good_of_reachable hcount hr with
  | building hb =>
    have hspec := r.run_unreadable (s := { bytes := f }) (readHeader_building hb.fixed)
    rw [wp,hrun] at hspec
    cases out with
    | ok => exact hspec.elim
    | error e => exact absurd ⟨by rw [hspec.2],by rw [hspec.2],by simp⟩ hquiet
  | @index first hi =>
    have hspec := Request.run_spec (s := { bytes := f }) rfl hi hfit
    rw [wp,hrun] at hspec
    cases out with
    | ok u =>
      obtain ⟨-,hd,h,t,hcur,-,h',t',ws,root,hchange,hcom⟩ := hspec
      obtain ⟨hsw,hwrites,hbytes⟩ := hcom.switches hi hcur
      obtain ⟨s1,hw,-⟩ := hcom.written
      rw [hchange] at hsw
      refine ⟨by rw [hbytes,hwrites]; rfl,ws,hw.unnoticed hi,fun h => absurd rfl h,fun _ => ?_⟩
      exact ⟨hd,root,t.entries,hcur.header,hcur.walk hi,hwrites,hsw⟩
    | error e =>
      cases hspec with
      | io => exact absurd rfl hio
      | publish _ hab =>
        obtain ⟨ws,hw⟩ := hab.written
        exact ⟨by rw [hw.bytes_eq,hw.writes_eq]; rfl,ws,hw.unnoticed hi,fun _ => hw.writes_eq,fun h => by simp at h⟩
      | header hb hw _ => exact absurd ⟨hb,hw,by simp⟩ hquiet
      | argument hb hw _ => exact absurd ⟨hb,hw,by simp⟩ hquiet
      | entry hb hw _ _ _ => exact absurd ⟨hb,hw,by simp⟩ hquiet

theorem request_crash_atomic_sample : ∃ f s,Reachable 2 [[0x41]] f ∧
    Request.run (.insert ⟨[0x61,0x62],0,12⟩) { bytes := f } = (.ok (),s) ∧ s.bytes = applyWrites f s.writes ∧
    ∃ pages,Unnoticed (newContext 2 [[0x41]] false) f pages ∧
      ((.ok () : Except Fault Unit)≠.ok () → s.writes = pages) ∧
      ((.ok () : Except Fault Unit) = .ok () → ∃ hd root entries,indexV2ReadHeader f = some hd ∧ walk f = some entries ∧
        s.writes = pages++[(slotOffset root.generation,slotBytes root)] ∧
        Switches (newContext 2 [[0x41]] false) f hd pages root entries
          (Request.change 2 (.insert ⟨[0x61,0x62],0,12⟩) entries)) := by
  have hr := Reachable.created (run_eq createSample_ok)
  have hok : (Request.run (.insert ⟨[0x61,0x62],0,12⟩)
      { bytes := (indexV2CreateEmpty 2 [[0x41]] { bytes := [] }).2.bytes }).1 = .ok () := by decide +kernel
  exact ⟨_,_,hr,run_eq hok,
    request_crash_atomic (by decide) hr ⟨rfl,by decide,by decide⟩ (run_eq hok) (by simp)⟩

end Dataman.IndexFile

import Dataman.IndexShape

/-!
# An index refines an ordered set

Inserts and removes on the file behave like inserts and erasures on a finite set of
composites; the in-order walk lists the set in increasing order.
-/

namespace Dataman.IndexFile
open ByteFiles FixedWidthFields FailState PageTree

variable {ctx : Context} {first : ℕ} {f : Bytes}

/-! ## The abstract set -/

/-- An insert names a data file of the index, or it changes nothing. -/
def Request.apply (fileCount : ℕ) (S : Finset Composite) : Request → Finset Composite
  | insert c => if c.fileId < fileCount then Insert.insert c S else S
  | remove c => S.erase c

/-- The answer that the set gives. -/
def Request.Succeeds (fileCount : ℕ) (S : Finset Composite) : Request → Prop
  | insert c => c.fileId < fileCount ∧ c∉S
  | remove c => c∈S

/-- The root that a call publishes is the one the next call reads. `publishRoot` refuses only a generation
that has wrapped to zero (`Abandoned`). -/
structure Observed (f : Bytes) (out : Except Fault Unit) (f' : Bytes) : Prop where
  published : out≠.error .publish
  next : out = .ok () → ∀ hd,indexV2ReadHeader f = some hd →
    ∃ hd',indexV2ReadHeader f' = some hd' ∧ hd'.root.generation = hd.root.generation+1

/-- One request, with its I/O succeeding and its publication observed. -/
structure Served (f : Bytes) (r : Request) (out : Except Fault Unit) (f' : Bytes) : Prop where
  run : ∃ s,r.run { bytes := f } = (out,s) ∧ s.bytes = f'
  io : out≠.error .io
  observed : Observed f out f'

inductive Run : Bytes → List Request → Bytes → Prop
  | nil {f : Bytes} : Run f [] f
  | snoc {f g g' : Bytes} {rs : List Request} {r : Request} {out : Except Fault Unit} (run : Run f rs g)
      (served : Served g r out g') : Run f (rs++[r]) g'

/-! ## Encoding -/

variable {keylen : ℕ} {c : Composite}

theorem encode_injective {d : Composite} (hc : c.Fits keylen) (hd : d.Fits keylen)
    (h : c.encode keylen = d.encode keylen) : c = d := by
  obtain ⟨ck,ci,cr⟩ := c
  obtain ⟨dk,di,dr⟩ := d
  obtain ⟨hck,hci,hcr⟩ := hc
  obtain ⟨hdk,hdi,hdr⟩ := hd
  simp only at hck hci hcr hdk hdi hdr
  simp only [Composite.encode,composite,putU16,putU64,List.take_of_length_le hck.le,
    List.take_of_length_le hdk.le] at h
  obtain ⟨h1,h2⟩ := List.append_inj' h (by simp)
  obtain ⟨h3,h4⟩ := List.append_inj' h1 (by simp)
  have hi := putBE_inj (by omega) (by omega) h4
  have hr := putBE_inj (by omega) (by omega) h2
  rw [h3,hi,hr]

/-- The entries of a tree are the encoded set. -/
structure Represents (keylen fileCount : ℕ) (S : Finset Composite) (es : List Bytes) : Prop where
  mem_iff : ∀ x,x∈es ↔ ∃ c∈S,c.encode keylen = x
  fits : ∀ c∈S,c.Fits keylen
  file_lt : ∀ c∈S,c.fileId < fileCount

variable {fileCount : ℕ} {S : Finset Composite} {es : List Bytes}

theorem Represents.encode_mem
    (h : Represents keylen fileCount S es) (hc : c.Fits keylen) : c.encode keylen∈es ↔ c∈S := by
  rw [h.mem_iff]
  constructor
  · rintro ⟨d,hd,heq⟩
    exact encode_injective (h.fits d hd) hc heq ▸ hd
  · exact fun hc' => ⟨c,hc',rfl⟩

theorem Represents.insert
    (h : Represents keylen fileCount S es) (hc : c.Fits keylen) (hid : c.fileId < fileCount) :
    Represents keylen fileCount (Insert.insert c S) (es.orderedInsert (· ≤ ·) (c.encode keylen)) := by
  refine ⟨fun x => ?_,fun d hd => ?_,fun d hd => ?_⟩
  · rw [List.mem_orderedInsert,h.mem_iff]
    constructor
    · rintro (rfl | ⟨d,hd,rfl⟩)
      · exact ⟨c,Finset.mem_insert_self c S,rfl⟩
      · exact ⟨d,Finset.mem_insert_of_mem hd,rfl⟩
    · rintro ⟨d,hd,rfl⟩
      rcases Finset.mem_insert.1 hd with rfl | hd
      · exact .inl rfl
      · exact .inr ⟨d,hd,rfl⟩
  · rcases Finset.mem_insert.1 hd with rfl | hd
    · exact hc
    · exact h.fits d hd
  · rcases Finset.mem_insert.1 hd with rfl | hd
    · exact hid
    · exact h.file_lt d hd

theorem Represents.erase
    (h : Represents keylen fileCount S es) (hc : c.Fits keylen) (hs : es.Pairwise (· < ·)) :
    Represents keylen fileCount (S.erase c) (es.erase (c.encode keylen)) := by
  have hnd : es.Nodup := hs.imp fun hab => ne_of_lt hab
  refine ⟨fun x => ?_,fun d hd => h.fits d (Finset.mem_of_mem_erase hd),fun d hd => h.file_lt d (Finset.mem_of_mem_erase hd)⟩
  rw [hnd.mem_erase_iff,h.mem_iff]
  constructor
  · rintro ⟨hne,d,hd,rfl⟩
    exact ⟨d,Finset.mem_erase.2 ⟨fun heq => hne (heq ▸ rfl),hd⟩,rfl⟩
  · rintro ⟨d,hd,rfl⟩
    obtain ⟨hne,hd⟩ := Finset.mem_erase.1 hd
    exact ⟨fun heq => hne (encode_injective (h.fits d hd) hc heq),d,hd,rfl⟩

/-! ## Reading the current tree -/

variable {hd : Header}

theorem Index.header_fields (hi : Index ctx first f) (hh : indexV2ReadHeader f = some hd) :
    hd.keylen = ctx.keylen ∧ hd.fileCount = ctx.fileCount := by
  rw [hi.readHeader,Option.map_eq_some_iff] at hh
  obtain ⟨root,-,rfl⟩ := hh
  exact ⟨rfl,rfl⟩

variable {h : ℕ} {t : Summary Bytes}

/-- The walk reads the tree under the selected root. -/
theorem walk_eq (hh : indexV2ReadHeader f = some hd)
    (hk : hd.keylen = ctx.keylen) (hp : indexV2ReadPageSize f ctx.keylen = some ctx.pageSize)
    (ho : t.off = hd.root.rootOffset) (ht : Tree ctx f h t) (hlt : h < f.length) : walk f = some t.entries := by
  have htree : Tree { keylen := ctx.keylen,fileCount := hd.fileCount,pageSize := ctx.pageSize } f h t :=
    ht.frame fun p _ n hn => (congrFun (v2LoadNode_congr rfl f) p).trans hn
  simp only [walk,hh,Option.bind_eq_bind,Option.bind_some,hk,hp,← ho]
  exact inorder_eq (Nat.lt_succ_of_lt hlt) htree

theorem Current.walk (hi : Index ctx first f)
    (hc : Current ctx first f hd h t) : walk f = some t.entries :=
  walk_eq hc.header (hi.header_fields hc.header).1 hi.toLayout.readPageSize hc.off hc.rooted.tree
    (hc.rooted.height_lt_length hi.toLayout)

theorem Current.findExact (hi : Index ctx first f)
    (hc : Current ctx first f hd h t) (hfit : c.Fits ctx.keylen) :
    (indexV2FindExact f c.key c.fileId c.record).isSome ↔ c.fileId < ctx.fileCount ∧ c.encode ctx.keylen∈t.entries := by
  have hl := hi.toLayout
  obtain ⟨hkl,hfc⟩ := hi.header_fields hc.header
  have htree : Tree { keylen := ctx.keylen,fileCount := ctx.fileCount,pageSize := 0 } f h t :=
    hc.rooted.tree.frame fun p _ n hn => (congrFun (v2LoadNode_congr rfl f) p).trans hn
  have hfind := fun keyLength => v2FindEntry_exact (Nat.lt_succ_of_lt (hc.rooted.height_lt_length hl)) htree hc.rooted.sorted
    (length_composite c.fileId c.record hfit.key_length.ge) keyLength
  have hle := hl.keylen_le
  by_cases hid : c.fileId < ctx.fileCount
  · simp only [indexV2FindExact,hc.header,Option.bind_eq_bind,Option.bind_some,hkl,hfc,guard_eq_ite,hle,hid,if_true,
      Option.pure_def,← hc.off,true_and]
    rw [Composite.encode,← hfind]
    cases v2FindEntry { keylen := ctx.keylen,fileCount := ctx.fileCount,pageSize := 0 } f _ true _ _ t.off 0 <;> rfl
  · simp [indexV2FindExact,hc.header,hkl,hfc,guard_eq_ite,hle,hid]

/-! ## Publication observed -/

theorem selectSlot_le {a b : Option Slot} {r x : Slot} (h : selectSlot a b = some r) (hx : a = some x ∨ b = some x) :
    x.generation ≤ r.generation := by
  cases a <;> cases b <;> simp only [selectSlot,reduceCtorEq,Option.some.injEq,or_false,false_or] at h hx
  · rw [← h,hx]
  · rw [← h,hx]
  · split at h <;> cases h <;> rcases hx with rfl | rfl <;> omega

variable {root : Slot}

/-- The slots after a publication: the new one, and the one of the other parity as before. -/
theorem slots_of_publish {r : Slot} (hl : 128 ≤ f.length) (hp : root.Publishable)
    (hr : slot0 (writeAt f (slotOffset root.generation) (slotBytes root)) = some r ∨
      slot1 (writeAt f (slotOffset root.generation) (slotBytes root)) = some r) :
    r = root ∨ slot0 f = some r ∨ slot1 f = some r := by
  obtain ⟨h00,h01,h10,h11⟩ := slots_writeAt_slot hl (length_slotBytes root)
  rcases slotOffset_cases root.generation with ⟨ho,-⟩ | ⟨ho,-⟩
  · rw [ho,h00,h01] at hr
    exact hr.imp (fun h => eq_of_readSlot hp h) fun h => .inr h
  · rw [ho,h10,h11] at hr
    exact hr.symm.imp (fun h => eq_of_readSlot hp h) fun h => .inl h

/-- A published generation that is read is the new root. -/
theorem Committed.current {s s' : IndexState} {hd' : Header} {ws : List (ℕ × Bytes)}
    (hi : Index ctx first s.bytes) (hh : indexV2ReadHeader s.bytes = some hd)
    (hc : Committed ctx first s s' hd h t ws root) (hh' : indexV2ReadHeader s'.bytes = some hd')
    (hgen : hd'.root.generation = hd.root.generation+1) : hd'.root = root ∧ Current ctx first s'.bytes hd' h t := by
  have hi' := hc.index hi
  obtain ⟨-,hslot',-⟩ := hi'.current hh'
  obtain ⟨s1,hw,ht,hbytes,-⟩ := hc.written
  have hheader := hw.beside.header hi.toLayout
  rw [← hw.bytes_eq] at hheader
  have hle : ∀ x,slot0 s1.bytes = some x ∨ slot1 s1.bytes = some x → x.generation ≤ hd.root.generation := by
    intro x hx
    rw [slot0_congr hheader,slot1_congr hheader] at hx
    rw [hi.readHeader,Option.map_eq_some_iff] at hh
    obtain ⟨r,hsel,rfl⟩ := hh
    exact selectSlot_le hsel hx
  have hroot : hd'.root = root := by
    rw [hbytes] at hslot'
    rcases slots_of_publish hw.layout.length_ge hc.publishable hslot' with h | h
    · exact h
    · have := hle _ h
      omega
  have hcases := slotOffset_cases root.generation
  have hlen := length_slotBytes root
  exact ⟨hroot,hh',hroot ▸ hc.off,hbytes ▸ ht.header_write hw.layout (by omega)⟩

variable {r : Request} {f' : Bytes} {L : List Bytes}

/-- What a request that was served leaves: the walk over the new root. -/
theorem Index.served (hcow : ctx.inPlace = false) (hi : Index ctx first f)
    (hfit : r.composite.Fits ctx.keylen) (hw : IndexFile.walk f = some L) (hs : Served f r (.ok ()) f') :
    r.Allowed ctx.keylen L ∧ IndexFile.walk f' = some (r.change ctx.keylen L) := by
  obtain ⟨⟨s',hrun,rfl⟩,-,hobs⟩ := hs
  have hspec := Request.run_spec (s := { bytes := f }) hcow hi hfit
  rw [wp,hrun] at hspec
  obtain ⟨-,hd,h,t,hcur,hallowed,h',t',ws,root,hchange,hcom⟩ := hspec
  obtain rfl : L = t.entries := Option.some.inj (hw.symm.trans (hcur.walk hi))
  obtain ⟨hd',hh',hgen⟩ := hobs.next rfl hd hcur.header
  have hcur' := (hcom.current hi hcur.header hh' hgen).2
  exact ⟨hallowed,(hcur'.walk (hcom.index hi)).trans (congrArg some hchange)⟩

variable {out : Except Fault Unit}

/-- A request that the entries allow succeeds. -/
theorem Index.serves (hcow : ctx.inPlace = false) (hi : Index ctx first f)
    (hfit : r.composite.Fits ctx.keylen) (hw : IndexFile.walk f = some L) (hid : r.composite.fileId < ctx.fileCount)
    (hallowed : r.Allowed ctx.keylen L) (hs : Served f r out f') : out = .ok () := by
  obtain ⟨⟨s',hrun,rfl⟩,hio,hobs⟩ := hs
  have hspec := Request.run_spec (s := { bytes := f }) hcow hi hfit
  rw [wp,hrun] at hspec
  cases out with
  | ok u => rfl
  | error e =>
    cases hspec with
    | io => exact absurd rfl hio
    | publish => exact absurd rfl hobs.published
    | header _ _ hh =>
      simp only [IndexFile.walk,hh,Option.bind_eq_bind,Option.bind_none] at hw
      cases hw
    | argument _ _ hge => exact absurd hid (Nat.not_lt.2 hge)
    | entry _ _ _ hcur hrefused =>
      obtain rfl := Option.some.inj (hw.symm.trans (hcur.walk hi))
      exact absurd hallowed hrefused

/-! ## The refinement -/

/-- The file holds the set. -/
structure Holds (keylen fileCount : ℕ) (f : Bytes) (S : Finset Composite) : Prop where
  tree : ∃ ctx first hd h t,ctx.inPlace = false ∧ ctx.keylen = keylen ∧ ctx.fileCount = fileCount ∧
    Index ctx first f ∧ Current ctx first f hd h t ∧ Represents keylen fileCount S t.entries

theorem Holds.serve {f : Bytes}
    (hH : Holds keylen fileCount f S) (hfit : r.composite.Fits keylen) (hs : Served f r out f') :
    (out = .ok () ↔ r.Succeeds fileCount S) ∧ (out≠.ok () → f' = f) ∧ Holds keylen fileCount f' (r.apply fileCount S) := by
  obtain ⟨ctx,first,hd,h,t,hcow,rfl,rfl,hi,hcur,hrep⟩ := hH.tree
  obtain ⟨⟨s',hrun,rfl⟩,hio,hobs⟩ := hs
  have hspec := Request.run_spec (s := { bytes := f }) hcow hi hfit
  rw [wp,hrun] at hspec
  cases out with
  | ok u =>
    obtain ⟨hid,hd0,h0,t0,hcur0,hallowed,h',t',ws,root,hchange,hcom⟩ := hspec
    -- both descriptions are about the same header, hence the same tree
    obtain rfl : hd0 = hd := Option.some.inj (hcur0.header.symm.trans hcur.header)
    have ht0 : t0.entries = t.entries := Option.some.inj ((hcur0.walk hi).symm.trans (hcur.walk hi))
    rw [ht0] at hallowed hchange
    obtain ⟨hd',hh',hgen⟩ := hobs.next rfl hd0 hcur.header
    have hcur' := (hcom.current hi hcur.header hh' hgen).2
    refine ⟨⟨fun _ => ?_,fun _ => rfl⟩,fun h => absurd rfl h,?_⟩
    · cases r with
      | insert c => exact ⟨hid,fun hm => hallowed ((hrep.encode_mem hfit).2 hm)⟩
      | remove c => exact (hrep.encode_mem hfit).1 hallowed
    · refine ⟨ctx,first,hd',h',t',hcow,rfl,rfl,hcom.index hi,hcur',hchange ▸ ?_⟩
      cases r with
      | insert c =>
        rw [Request.apply,if_pos (show c.fileId < ctx.fileCount from hid)]
        exact hrep.insert hfit hid
      | remove c => exact hrep.erase hfit hcur.rooted.sorted
  | error e =>
    have hsame : s'.bytes = f ∧ ¬ r.Succeeds ctx.fileCount S ∧ r.apply ctx.fileCount S = S := by
      cases hspec with
      | io => exact absurd rfl hio
      | publish => exact absurd rfl hobs.published
      | header _ _ hh => simp [hcur.header] at hh
      | argument hb _ hid =>
        refine ⟨hb,?_,?_⟩
        · cases r with
          | insert c => exact fun h => absurd h.1 (Nat.not_lt.2 hid)
          | remove c => exact fun h => absurd (hrep.file_lt c h) (Nat.not_lt.2 hid)
        · cases r with
          | insert c => exact if_neg (Nat.not_lt.2 hid)
          | remove c => exact Finset.erase_eq_of_notMem fun h => absurd (hrep.file_lt c h) (Nat.not_lt.2 hid)
      | @entry hd0 h0 t0 hb _ hid hcur0 hrefused =>
        obtain rfl : hd0 = hd := Option.some.inj (hcur0.header.symm.trans hcur.header)
        have ht0 : t0.entries = t.entries := Option.some.inj ((hcur0.walk hi).symm.trans (hcur.walk hi))
        rw [ht0] at hrefused
        cases r with
        | insert c =>
          have hm : c∈S := (hrep.encode_mem hfit).1 (not_not.1 hrefused)
          refine ⟨hb,fun h => h.2 hm,?_⟩
          rw [Request.apply]
          split
          · exact Finset.insert_eq_of_mem hm
          · rfl
        | remove c =>
          have hm : c∉S := fun h => hrefused ((hrep.encode_mem hfit).2 h)
          exact ⟨hb,hm,Finset.erase_eq_of_notMem hm⟩
    refine ⟨⟨fun h => by simp at h,fun h => absurd h hsame.2.1⟩,fun _ => hsame.1,?_⟩
    rw [hsame.1,hsame.2.2]
    exact hH

theorem Empty.holds {root : ℕ} {fileNames : List Bytes} (he : Empty (newContext keylen fileNames false) root f)
    (hread : (indexV2ReadHeader f).isSome) : Holds keylen fileNames.length f ∅ := by
  obtain ⟨hd,hh⟩ := Option.isSome_iff_exists.1 hread
  obtain ⟨-,hslot,-⟩ := he.toIndex.current hh
  exact ⟨_,root,hd,0,_,rfl,rfl,rfl,he.toIndex,⟨hh,(he.first_generation _ hslot).symm,he.leaf⟩,
    ⟨by simp [Summary.leaf],by simp,by simp⟩⟩

theorem Run.holds {f g : Bytes} {rs : List Request} (hrun : Run f rs g)
    (hfit : ∀ r∈rs,r.composite.Fits keylen) (hH : Holds keylen fileCount f S) :
    Holds keylen fileCount g (rs.foldl (Request.apply fileCount) S) := by
  induction hrun with
  | nil => exact hH
  | snoc _ served ih =>
    rw [List.foldl_append]
    exact ((ih fun r hr => hfit r (by simp [hr])).serve (hfit _ (by simp)) served).2.2

/-- Any run of inserts and removes on a new index behaves as the same run on a finite set. -/
theorem index_refines_ordered_set {keylen root : ℕ} {fileNames : List Bytes} {s : IndexState} {rs : List Request}
    {f : Bytes} (hcount : fileNames.length < 2 ^ 16)
    (hcreate : indexV2CreateEmpty keylen fileNames { bytes := [] } = (.ok root,s))
    (hread : (indexV2ReadHeader s.bytes).isSome) (hfit : ∀ r∈rs,r.composite.Fits keylen)
    (hrun : Run s.bytes rs f) :
    let S := rs.foldl (Request.apply fileNames.length) ∅
    (∃ entries,walk f = some entries ∧ entries.Pairwise (fun a b => memcmp a b = .lt) ∧
      ∀ x,x∈entries ↔ ∃ c∈S,c.encode keylen = x) ∧
    (∀ r out f',r.composite.Fits keylen → Served f r out f' →
      (out = .ok () ↔ r.Succeeds fileNames.length S) ∧ (out≠.ok () → f' = f)) ∧
    ∀ c : Composite,c.Fits keylen → ((indexV2FindExact f c.key c.fileId c.record).isSome ↔ c∈S) := by
  intro S
  have hspec := @indexV2CreateEmpty_spec keylen fileNames { bytes := [] } rfl hcount
  rw [wp,hcreate] at hspec
  have hH := hrun.holds hfit (hspec.holds hread)
  obtain ⟨ctx,first,hd,h,t,hcow,rfl,hfc,hi,hcur,hrep⟩ := hH.tree
  refine ⟨⟨t.entries,hcur.walk hi,?_,hrep.mem_iff⟩,fun r out f' hr hs => ?_,fun c hc => ?_⟩
  · exact pairwise_memcmp hcur.rooted.sorted hcur.rooted.tree.entry_length
  · exact ⟨(hH.serve hr hs).1,(hH.serve hr hs).2.1⟩
  · rw [hcur.findExact hi hc,hrep.encode_mem hc]
    exact ⟨fun h => h.2,fun h => ⟨hfc ▸ hrep.file_lt c h,h⟩⟩

theorem served_of_generation (hrun : (r.run { bytes := f }).1 = out)
    (hio : out≠.error .io) (hp : out≠.error .publish)
    (hgen : out = .ok () → (indexV2ReadHeader (r.run { bytes := f }).2.bytes).map (·.root.generation) =
      (indexV2ReadHeader f).map (·.root.generation+1)) :
    Served f r out (r.run { bytes := f }).2.bytes := by
  refine ⟨⟨_,run_eq hrun,rfl⟩,hio,hp,fun hok hd hh => ?_⟩
  have := hgen hok
  rw [hh,Option.map_some,Option.map_eq_some_iff] at this
  exact this

theorem createSample_readable : (indexV2ReadHeader (indexV2CreateEmpty 2 [[0x41]] { bytes := [] }).2.bytes).isSome := by
  decide +kernel

/-- An insert into the new index, and a remove of an entry that is not there. -/
def sampleRequests : List Request := [.insert ⟨[0x61,0x62],0,12⟩,.remove ⟨[0x61,0x63],0,12⟩]

theorem sampleRequests_run : ∃ f,Run (indexV2CreateEmpty 2 [[0x41]] { bytes := [] }).2.bytes sampleRequests f := by
  have h1 := served_of_generation (f := (indexV2CreateEmpty 2 [[0x41]] { bytes := [] }).2.bytes)
    (r := .insert ⟨[0x61,0x62],0,12⟩) (by decide +kernel : _ = .ok ()) (by decide) (by decide) fun _ => by decide +kernel
  have h2 := served_of_generation (r := .remove ⟨[0x61,0x63],0,12⟩)
    (f := (Request.run (.insert ⟨[0x61,0x62],0,12⟩) { bytes := (indexV2CreateEmpty 2 [[0x41]] { bytes := [] }).2.bytes }).2.bytes)
    (by decide +kernel : _ = .error .missing) (by decide) (by decide) fun h => by simp at h
  exact ⟨_,.snoc (.snoc .nil h1) h2⟩

theorem index_refines_ordered_set_sample : ∃ s f,indexV2CreateEmpty 2 [[0x41]] { bytes := [] } = (.ok 320,s) ∧
    Run s.bytes sampleRequests f ∧
    let S := sampleRequests.foldl (Request.apply 1) ∅
    (∃ entries,walk f = some entries ∧ entries.Pairwise (fun a b => memcmp a b = .lt) ∧
      ∀ x,x∈entries ↔ ∃ c∈S,c.encode 2 = x) ∧
    (∀ r out f',r.composite.Fits 2 → Served f r out f' →
      (out = .ok () ↔ r.Succeeds 1 S) ∧ (out≠.ok () → f' = f)) ∧
    ∀ c : Composite,c.Fits 2 → ((indexV2FindExact f c.key c.fileId c.record).isSome ↔ c∈S) := by
  obtain ⟨f,hrun⟩ := sampleRequests_run
  have hfit : ∀ r∈sampleRequests,r.composite.Fits 2 := by
    intro r hr
    rcases List.mem_pair.1 hr with rfl | rfl <;> exact ⟨rfl,by decide,by decide⟩
  exact ⟨_,f,run_eq createSample_ok,hrun,
    index_refines_ordered_set (by decide) (run_eq createSample_ok) createSample_readable hfit hrun⟩

/-! ## The pages of a search -/

/-- The root has at least two children, and the other nodes have at least six keys. -/
theorem Rooted.length_ge (ht : Rooted ctx first f (h+1) t) : 12*7 ^ h ≤ t.entries.length := by
  cases ht.tree with
  | @node h off kids ne below occ load =>
    calc 12*7 ^ h = 2*(6*(6+1) ^ h) := Nat.mul_assoc 2 6 _
      _ ≤ kids.length*(6*(6+1) ^ h) := Nat.mul_le_mul_right _ (two_le_of_load load)
      _ ≤ (Summary.node off kids).entries.length := length_flatMap_ge fun k hk => (below k hk).length_ge (occ k hk).1

end Dataman.IndexFile

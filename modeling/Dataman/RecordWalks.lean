import Dataman.DeletionUndo
import Dataman.RecordHistories

/-!
# Moving along the chain

FORWARD and BACK follow a link of the client's current record, which another client may have
deleted in the meantime. A deleted record keeps the links it had when it was deleted.
-/

namespace Dataman.DataFile
open ByteFiles FixedWidthFields FailState LinkedChain

variable {file : Files} {recs recs' : List Record} {chain : List ℕ} {f g : Bytes}

/-! ## The handlers -/

/-- The record at an offset, for the client. -/
def readRecord (file : Files) (blobs : Blobs) (recno : ℤ) : DiskM Reply := do
  llseek recno
  let buff ← read headerLength .rhRead
  let fmt := (buff.headD 0).toNat % 64
  let desc := file.format fmt
  let data ← read desc.rfLen .recRead
  if desc.hasBlob then
    if blobs.getBlobs fmt recno < 0 then .fail (.blob (blobs.getBlobs fmt recno))
    else return .record (blobs.getBlobs fmt recno) recno fmt data
  else return .record desc.rfLen recno fmt data

/-- Follow the link that stands `link` bytes into the record. `again` is a second seek to the current record,
which matters when the seek to the other one is refused. -/
def walk (link : ℕ) (again : Bool) (file : Files) (blobs : Blobs) (curr : ℤ) : DiskM Reply := do
  llseek curr
  let buff ← read headerLength .rhRead
  let other := getLl (slice buff link 8)
  if other = 0 then return .done 0
  else do
    if again then do
      llseek curr
      readRecord file blobs other
    else readRecord file blobs other

def forward : Files → Blobs → ℤ → DiskM Reply := walk 9 true

def back : Files → Blobs → ℤ → DiskM Reply := walk 1 false

inductive Direction
  | forward | back
  deriving DecidableEq,Repr

def Direction.run : Direction → Files → Blobs → ℤ → DiskM Reply
  | forward => DataFile.forward
  | back => DataFile.back

def Direction.loc (o : ℕ) : Direction → Loc
  | forward => .next o
  | back => .prev o

def linkAt (dir : Direction) (file : Files) (f : Bytes) (o : ℕ) : ℕ := getBE (contents file f (dir.loc o))

/-! ## What a walk returns -/

theorem wp_read_either {d : Disk} {E : Code → Disk → Prop} {Q : Bytes → Disk → Prop} {n : ℕ} {code : Code}
    (hfail : ∀ d',E code d') (hok : ∀ d',d'.bytes = d.bytes → Q (slice d.bytes d.pos n) d') : wp (read n code) d Q E := by
  rw [read,wp_bind]
  apply wp_tryRead_either
  · exact fun d' _ => (wp_ofOption _ _).2 (hfail d')
  · exact fun d' hd' _ => (wp_ofOption _ _).2 (hok d' hd')

theorem wp_readRecord {Q : Reply → Disk → Prop} {recno : ℕ} (blobs : Blobs)
    (hQ : ∀ len fmt data d,Q (.record len recno fmt data) d) (d : Disk) :
    wp (readRecord file blobs recno) d Q (fun _ _ => True) := by
  simp only [readRecord,wp_bind]
  apply wp_llseek_any
  intro d₁ _ _
  apply wp_read_either
  · exact fun _ => trivial
  · intro d₂ _
    apply wp_read_either
    · exact fun _ => trivial
    · intro d₃ _
      split
      · split
        · exact (wp_fail _).2 trivial
        · exact (wp_pure _).2 (hQ _ _ _ _)
      · exact (wp_pure _).2 (hQ _ _ _ _)

/-- A record that is returned is the one that the link names. -/
theorem wp_walk {o link : ℕ} (again : Bool) (blobs : Blobs) (hlink : link+8 ≤ 17) (hlt : getBE (slice f (o+link) 8) < 2 ^ 63)
    {d : Disk} (hd : d.bytes = f) :
    wp (walk link again file blobs o) d
      (fun reply _ => ∀ len x fmt data,reply = .record len x fmt data →
        x = getBE (slice f (o+link) 8) ∧ getBE (slice f (o+link) 8)≠0)
      (fun _ _ => True) := by
  have hother : getLl (slice (slice f o 17) link 8) = getBE (slice f (o+link) 8) := by
    rw [slice_slice _ _ _ _ _ hlink]
    exact getLl_eq hlt
  simp only [walk,wp_bind]
  apply wp_llseek_any
  intro d₁ hd₁ hpos
  apply wp_read_either
  · exact fun _ => trivial
  · intro d₂ hd₂
    rw [hpos,hd₁,hd,headerLength,hother,wp_ite]
    split
    · rw [wp_pure]
      intro len x fmt data h
      cases h
    · rename_i hne
      have hread := @wp_readRecord file (fun reply _ => ∀ len x fmt data,reply = .record len x fmt data →
        x = getBE (slice f (o+link) 8) ∧ getBE (slice f (o+link) 8)≠0) (getBE (slice f (o+link) 8)) blobs (by
          intro len' fmt' data' d len x fmt data h
          cases h
          exact ⟨rfl,by omega⟩)
      cases again with
      | false => exact hread d₂
      | true =>
        rw [if_pos rfl,wp_bind]
        exact wp_llseek_any fun d₃ _ _ => hread d₃

theorem Direction.run_spec (dir : Direction) {o : ℕ} (blobs : Blobs) (hlt : linkAt dir file f o < 2 ^ 63) {d : Disk}
    (hd : d.bytes = f) :
    wp (dir.run file blobs o) d (fun reply _ => ∀ len x fmt data,reply = .record len x fmt data →
      x = linkAt dir file f o ∧ linkAt dir file f o≠0) (fun _ _ => True) := by
  cases dir with
  | forward => exact wp_walk true blobs (by omega) hlt hd
  | back => exact wp_walk false blobs (by omega) hlt hd

/-! ## Links over a history -/

/-- Every link is 0 or names a record. -/
def LinksKnown (file : Files) (f : Bytes) (recs : List Record) : Prop :=
  ∀ r∈recs,∀ dir,linkAt dir file f r.off = 0 ∨ ∃ x∈recs,x.off = linkAt dir file f r.off

/-- The newest of the files in which the record is in the chain. -/
def lastLive (file : Files) (files : List Bytes) (o : ℕ) : Option Bytes :=
  files.find? fun k => o∈(chainOf file k).getD []

/-- The links of a record in the chain lead along the chain. -/
theorem Chained.linkAt_mem (hc : Chained file f recs chain) {o : ℕ} (ho : o∈chain) (dir : Direction) :
    linkAt dir file f o = 0 ∨ linkAt dir file f o∈chain := by
  obtain ⟨C,D,rfl,-,-,hprev,hnext,-⟩ := hc.around ho
  cases dir with
  | forward =>
    change nextAt file f o = 0 ∨ nextAt file f o∈_
    rw [hnext]
    cases D with
    | nil => exact .inl rfl
    | cons x D => exact .inr (by simp)
  | back =>
    change prevAt file f o = 0 ∨ prevAt file f o∈_
    rw [hprev]
    rcases List.eq_nil_or_concat C with rfl | ⟨C',x,rfl⟩
    · exact .inl rfl
    · exact .inr (by simp)

theorem Edited.linkAt_eq (h : Edited file f g recs recs' chain) {r : Record} (hr : r∈recs) (hout : r.off∉chain)
    (dir : Direction) : linkAt dir file g r.off = linkAt dir file f r.off := by
  obtain ⟨hnext,hprev⟩ := h.frozen r hr hout
  cases dir with
  | forward => exact congrArg getBE hnext
  | back => exact congrArg getBE hprev

/-- One request leaves links that name records. -/
theorem Edited.linksKnown (h : Edited file f g recs recs' chain) (hknown : LinksKnown file f recs) :
    LinksKnown file g recs' := by
  intro r hr dir
  by_cases hin : r.off∈chain
  · rcases h.chained.linkAt_mem hin dir with hzero | hmem
    · exact .inl hzero
    · exact .inr (h.chained.records _ hmem)
  · have hold := (h.fresh r hr).resolve_right hin
    rw [h.linkAt_eq hold hin]
    rcases hknown r hold dir with hzero | ⟨x,hx,hoff⟩
    · exact .inl hzero
    · exact .inr ⟨x,h.old x hx,hoff⟩

theorem lastLive_of_mem {files : List Bytes} (hc : Chained file g recs chain) {o : ℕ} (ho : o∈chain) :
    lastLive file (g::files) o = some g := by
  rw [lastLive,List.find?_cons_of_pos]
  simpa [hc.chainOf_eq] using ho

theorem lastLive_of_notMem {files : List Bytes} (hc : Chained file g recs chain) {o : ℕ} (ho : o∉chain) :
    lastLive file (g::files) o = lastLive file files o := by
  rw [lastLive,List.find?_cons_of_neg,lastLive]
  simpa [hc.chainOf_eq] using ho

/-- Every record has the links that it had when it was last in the chain, or at the start. -/
theorem History.links {log : List (Edit × Bytes)} (h : History file f recs log g recs') (hc : Chained file f recs chain)
    (hknown : LinksKnown file f recs) (hlinked : ∀ e∈log,e.1.Linked) :
    ∃ chain',Chained file g recs' chain' ∧ LinksKnown file g recs' ∧ ∀ r∈recs',∀ dir,
      linkAt dir file g r.off = linkAt dir file ((lastLive file (g::log.map Prod.snd) r.off).getD f) r.off := by
  induction h with
  | nil =>
    refine ⟨chain,hc,hknown,?_⟩
    intro r hr dir
    by_cases hin : r.off∈chain
    · rw [lastLive_of_mem hc hin,Option.getD_some]
    · rw [lastLive_of_notMem hc hin]
      rfl
  | @snoc log g recs' p d run q known answer ih =>
    obtain ⟨chain',hc',hknown',hlinks⟩ := ih fun e he => hlinked e (List.mem_cons_of_mem _ he)
    obtain ⟨chain'',he⟩ := Edit.edited hc' known (hlinked (q,g) List.mem_cons_self) answer
    refine ⟨chain'',he.chained,he.linksKnown hknown',?_⟩
    intro r hr dir
    by_cases hin : r.off∈chain''
    · rw [lastLive_of_mem he.chained hin,Option.getD_some]
    · have hold := (he.fresh r hr).resolve_right hin
      rw [lastLive_of_notMem he.chained hin,he.linkAt_eq hold hin]
      exact hlinks r hold dir

/-- A walk returns a live record if and only if the neighbour that the current record had when it was
last in the chain is still in the chain; from a live record it always does. -/
theorem walk_returns_live_iff {log : List (Edit × Bytes)} (hc : Chained file f recs chain) (hknown : LinksKnown file f recs)
    (h : History file f recs log g recs') (hlinked : ∀ e∈log,e.1.Linked) (dir : Direction) {r : Record} (hr : r∈recs')
    {blobs : Blobs} {d d' : Disk} (hd : d.bytes = g) {len x : ℤ} {fmt : ℕ} {data : Bytes}
    (answer : dir.run file blobs r.off d = (.ok (.record len x fmt data),d')) :
    (deletedAt file g x.toNat = false ↔ ∃ chain',chainOf file g = some chain' ∧
      linkAt dir file ((lastLive file (g::log.map Prod.snd) r.off).getD f) r.off∈chain') ∧
    (deletedAt file g r.off = false → deletedAt file g x.toNat = false) := by
  obtain ⟨chain',hc',hknown',hlinks⟩ := h.links hc hknown hlinked
  have hlt : linkAt dir file g r.off < 2 ^ 63 := by
    rcases hknown' r hr dir with hzero | ⟨y,hy,hoff⟩
    · rw [hzero]
      decide
    · have h1 := hc'.laid.inside y hy
      have h2 := hc'.laid.length_le
      simp only [int64Max] at h2
      omega
  have hspec := dir.run_spec blobs hlt hd
  rw [wp_of_ok answer] at hspec
  obtain ⟨rfl,hne⟩ := hspec len x fmt data rfl
  obtain ⟨y,hy,hoff⟩ := (hknown' r hr dir).resolve_left hne
  have hlive : deletedAt file g (linkAt dir file g r.off) = false ↔ linkAt dir file g r.off∈chain' := by
    rw [← hoff,hc'.deletedAt_eq hy,decide_eq_false_iff_not,not_not]
  rw [Int.toNat_natCast,hlive,← hlinks r hr dir]
  constructor
  · constructor
    · exact fun hmem => ⟨chain',hc'.chainOf_eq,hmem⟩
    · intro hex
      obtain ⟨chain'',hchain,hmem⟩ := hex
      obtain rfl : chain' = chain'' := Option.some.inj (hc'.chainOf_eq.symm.trans hchain)
      exact hmem
  · intro hrlive
    rw [hc'.deletedAt_eq hr,decide_eq_false_iff_not,not_not] at hrlive
    exact (hc'.linkAt_mem hrlive dir).resolve_left hne

/-- A file of three records. -/
def threeBytes : Bytes :=
  List.replicate 18 0++putBE 8 64++List.replicate 38 0 ++
    (recordBytes 1 0 85 4++(recordBytes 1 64 106 4++recordBytes 1 85 0 4))

def threeRecords : List Record := [⟨64,1⟩,⟨85,1⟩,⟨106,1⟩]

theorem threeBytes_chained : Chained sampleFile threeBytes threeRecords [64,85,106] where
  laid := ⟨by decide +kernel,by decide +kernel,by decide +kernel,by decide +kernel,
    by simp [threeRecords,Apart,Files.dataLength,Files.format,sampleFile],by decide⟩
  flags := by decide
  records := by decide
  nodup := by decide
  head := by decide
  linked := .cons (by decide) (by decide) (.cons (by decide) (by decide) (.cons (by decide) (by decide) .nil))

theorem threeBytes_linksKnown : LinksKnown sampleFile threeBytes threeRecords := by
  intro r hr dir
  obtain ⟨o,ho,hoff⟩ : ∃ o∈[64,85,106],o = r.off := by
    simp only [threeRecords,List.mem_cons,List.not_mem_nil,or_false] at hr
    rcases hr with rfl | rfl | rfl
    · exact ⟨64,by simp,rfl⟩
    · exact ⟨85,by simp,rfl⟩
    · exact ⟨106,by simp,rfl⟩
  rw [← hoff]
  rcases threeBytes_chained.linkAt_mem ho dir with hzero | hmem
  · exact .inl hzero
  · exact .inr (threeBytes_chained.records _ hmem)

/-- The first record is deleted, and then the one that followed it: FORWARD leads from one to the other. -/
theorem walk_returns_deleted : ∃ log g recs' d',History sampleFile threeBytes threeRecords log g recs' ∧
    (⟨64,1⟩ : Record)∈recs' ∧
    forward sampleFile noBlobs 64 ⟨g,0,[]⟩ = (.ok (.record 4 85 1 (List.replicate 4 0x20)),d') ∧
    deletedAt sampleFile g 85 = true := by
  have h1 : ((Edit.delete 64 noBlobs 0 0).run sampleFile ⟨threeBytes,0,[]⟩).1 = .ok () := by decide +kernel
  have hist1 : History sampleFile threeBytes threeRecords _ _ threeRecords :=
    .snoc .nil (.delete 64 noBlobs 0 0) (by decide) (run_eq h1)
  have h2 : ((Edit.delete 85 noBlobs 0 0).run sampleFile
      ⟨((Edit.delete 64 noBlobs 0 0).run sampleFile ⟨threeBytes,0,[]⟩).2.bytes,0,[]⟩).1 = .ok () := by decide +kernel
  have hist2 : History sampleFile threeBytes threeRecords _ _ threeRecords :=
    .snoc hist1 (.delete 85 noBlobs 0 0) (by decide) (run_eq h2)
  have h3 : (forward sampleFile noBlobs 64 ⟨((Edit.delete 85 noBlobs 0 0).run sampleFile
      ⟨((Edit.delete 64 noBlobs 0 0).run sampleFile ⟨threeBytes,0,[]⟩).2.bytes,0,[]⟩).2.bytes,0,[]⟩).1 =
      .ok (.record 4 85 1 (List.replicate 4 0x20)) := by decide +kernel
  exact ⟨_,_,_,_,hist2,by decide,run_eq h3,by decide +kernel⟩

theorem walk_returns_live_iff_three : ∃ log g,log≠[] ∧ History sampleFile threeBytes threeRecords log g threeRecords ∧
    (∀ e∈log,e.1.Linked) ∧ ∃ d',forward sampleFile noBlobs 64 ⟨g,0,[]⟩ =
      (.ok (.record 4 85 1 (List.replicate 4 0x20)),d') ∧
    (deletedAt sampleFile g 85 = false ↔ ∃ chain',chainOf sampleFile g = some chain' ∧
      linkAt .forward sampleFile ((lastLive sampleFile (g::log.map Prod.snd) 64).getD threeBytes) 64∈chain') ∧
    (deletedAt sampleFile g 64 = false → deletedAt sampleFile g 85 = false) := by
  have h1 : ((Edit.delete 64 noBlobs 0 0).run sampleFile ⟨threeBytes,0,[]⟩).1 = .ok () := by decide +kernel
  have hist : History sampleFile threeBytes threeRecords [(.delete 64 noBlobs 0 0,threeBytes)] _ threeRecords :=
    .snoc .nil (.delete 64 noBlobs 0 0) (by decide) (run_eq h1)
  have hlinked : ∀ e∈[(Edit.delete 64 noBlobs 0 0,threeBytes)],e.1.Linked := by
    intro e he
    rw [List.mem_singleton.1 he]
    trivial
  have h2 : (forward sampleFile noBlobs 64
      ⟨((Edit.delete 64 noBlobs 0 0).run sampleFile ⟨threeBytes,0,[]⟩).2.bytes,0,[]⟩).1 =
      .ok (.record 4 85 1 (List.replicate 4 0x20)) := by decide +kernel
  have hr : (⟨64,1⟩ : Record)∈threeRecords := by decide
  exact ⟨_,_,by simp,hist,hlinked,_,run_eq h2,
    walk_returns_live_iff threeBytes_chained threeBytes_linksKnown hist hlinked .forward hr rfl (run_eq h2)⟩

end Dataman.DataFile

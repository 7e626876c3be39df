import Dataman.HeaderFrames
import Dataman.MakeFile
import Dataman.RebuildBlobs

/-!
# The records after a rebuild

The head pointer of a data file is the first word behind the description. Insert and delete keep it,
but `rebuild` starts from the word behind it, which nobody keeps, and into which `mkdf` writes the
length of the longest record. The records survive exactly if the second word leads to the same ones.
-/

namespace Dataman.Rebuild
open ByteFiles Directories FixedWidthFields FailState Blobs
open DataFile (getLl putLl headerLength Files Record Chained Entry entryAt encodeChain recordsOf)

variable {src : Source} {dir : Dir Text Bytes} {s : State} {recs : List Record} {chain : List ℕ}

/-! ## Reading -/

variable {fmt : ℕ}

theorem Source.format_eq (h : 1 ≤ fmt ∧ fmt ≤ src.files.formats.length) :
    ∃ rptr,src.format fmt = some rptr ∧ rptr.rfLen = (src.files.format fmt).rfLen := by
  have hlt : fmt - 1 < src.formats.length := by
    have := h.2
    rw [Source.files,List.length_map] at this
    omega
  refine ⟨src.formats[fmt - 1],?_,?_⟩
  · rw [Source.format,if_neg (by omega),List.getElem?_eq_getElem hlt]
  · rw [Files.format,Source.files,List.getD_eq_getElem?_getD,List.getElem?_map,List.getElem?_eq_getElem hlt]
    rfl

theorem Source.format_none (h : ¬ (1 ≤ fmt ∧ fmt ≤ src.files.formats.length)) : src.format fmt = none := by
  rw [Source.format]
  split
  · rfl
  · rw [List.getElem?_eq_none_iff]
    rw [Source.files,List.length_map] at h
    omega

variable {n : ℕ} {E : Stop → State → Prop}

/-- There are no blobs. -/
def Quiet (src : Source) (dir : Dir Text Bytes) : Prop := ∀ slot,dir (nameOf src.filename .blob slot) = none

theorem backUps_quiet (hquiet : Quiet src s.blobs) (copy : ℕ → CopyCalls) (fmt : ℕ) (old new : ℤ) (fields : List ℕ) :
    wp (fields.foldlM (fun _ j => backUp src.filename copy fmt old new j) ()) s (fun _ s' => s' = s) fun _ _ => False := by
  induction fields with
  | nil => exact (wp_pure _).2 rfl
  | cons j fields ih =>
    simp only [List.foldlM_cons,backUp,wp_bind,wp_get]
    rw [if_pos (hquiet _),wp_pure]
    exact ih

theorem backUpAll_quiet (hquiet : Quiet src s.blobs) (copy : ℕ → CopyCalls) (fmt : ℕ) (rptr : RFDesc) (p : Place) :
    wp (backUpAll src copy fmt rptr p) s (fun _ s' => ∃ fmt',s' = { s with fmt := fmt' }) fun _ _ => False := by
  rw [backUpAll,wp_ite]
  split
  · rw [wp_bind,wp_modify,RFDesc.hasBlob,walkFields_eq]
    have hset : Quiet src ({ s with fmt := fmt } : State).blobs := hquiet
    exact wp_mono (backUps_quiet hset copy fmt p.seekpt p.curr _) (fun _ s' h => ⟨fmt,h⟩) fun _ _ => id
  · exact (wp_pure _).2 ⟨s.fmt,rfl⟩

/-- Where the next read takes place. -/
def target (pos : ℕ) (seekpt : ℤ) : ℕ := if 0 ≤ seekpt then seekpt.toNat else pos

/-- The next pointer of the record at an offset. -/
def linkAt (src : Source) (o : ℕ) : ℤ := getLl (slice (slice src.bytes o headerLength) 9 8)

/-- What one turn does when its calls succeed. -/
structure Turned (src : Source) (p p' : Place) (s s' : State) (o : ℕ) (e : Entry) : Prop where
  entry : entryAt src.files src.bytes o = some e
  place : p' = ⟨p.curr,if linkAt src o = 0 then 0 else p.curr+e.size,linkAt src o⟩
  out : s'.out = s.out++([UInt8.ofNat e.fmt]++(putLl p.prev++(putLl p'.curr++e.data)))
  pos : s'.pos = o+e.size
  blobs : s'.blobs = s.blobs
  maps : s'.maps = s.maps

theorem turn_good (hquiet : Quiet src s.blobs) (p : Place) :
    wp (turn src goodTurn p) s (fun p' s' => ∃ e,Turned src p p' s s' (target s.pos p.seekpt) e)
      fun _ _ => entryAt src.files src.bytes (target s.pos p.seekpt) = none := by
  have hseek : (if 0 ≤ p.seekpt then { s with pos := p.seekpt.toNat } else s) = { s with pos := target s.pos p.seekpt } := by
    rw [target]
    split
    · rfl
    · rfl
  rw [turn,wp_bind,seek,wp_modify,hseek,wp_bind]
  generalize target s.pos p.seekpt = o
  apply wp_readNext
  swap
  · intro hnone
    rw [entryAt,show readAt src.bytes o headerLength = none from hnone rfl]
    rfl
  intro buff hbuff
  have hbuff : readAt src.bytes o headerLength = some buff := hbuff
  have hentry : entryAt src.files src.bytes o = if 1 ≤ (buff.headD 0).toNat ∧ (buff.headD 0).toNat ≤ src.files.formats.length then
      (readAt src.bytes (o+headerLength) (src.files.format (buff.headD 0).toNat).rfLen).map (⟨(buff.headD 0).toNat,·⟩) else none := by
    rw [entryAt,hbuff]
    rfl
  have hlink : getLl (slice buff 9 8) = linkAt src o := by
    rw [linkAt,(readAt_eq_some.1 hbuff).2]
  rw [wp_bind,wp_ofOption]
  by_cases hfmt : 1 ≤ (buff.headD 0).toNat ∧ (buff.headD 0).toNat ≤ src.files.formats.length
  swap
  · rw [Source.format_none hfmt]
    rw [hentry,if_neg hfmt]
  obtain ⟨rptr,hrptr,hlen⟩ := Source.format_eq hfmt
  rw [hrptr]
  dsimp only
  rw [wp_bind]
  refine wp_mono (backUpAll_quiet (by exact hquiet) _ _ rptr p) ?_ fun _ _ => False.elim
  rintro _ _ ⟨fmt',rfl⟩
  rw [if_pos hfmt,← hlen] at hentry
  rw [wp_bind]
  apply wp_readNext
  · intro data hdata
    have hdata : readAt src.bytes (o+headerLength) rptr.rfLen = some data := hdata
    rw [hdata,Option.map_some] at hentry
    have hdlen := length_of_readAt hdata
    have hnext : p.curr+rptr.rfLen+headerLength = p.curr+((Entry.mk (buff.headD 0).toNat data).size : ℕ) := by
      rw [Entry.size,hdlen,headerLength]
      omega
    simp only [wp_bind,wp_ensure,goodTurn,if_true,writeOut,wp_modify,wp_pure]
    refine ⟨_,hentry,?_,?_,?_,rfl,rfl⟩
    · rw [hlink,hnext]
    · simp
    · rw [Entry.size,hdlen,headerLength,Nat.add_assoc]
  · intro hnone
    rw [hentry,show readAt src.bytes (o+headerLength) rptr.rfLen = none from hnone rfl]
    rfl

/-- The records that the loop meets from a position on. -/
inductive Reads (src : Source) : ℕ → ℤ → List ℕ → List Entry → Prop
  | nil {pos : ℕ} : Reads src pos 0 [] []
  | cons {pos : ℕ} {seekpt : ℤ} {e : Entry} {os : List ℕ} {es : List Entry} (more : seekpt≠0)
      (entry : entryAt src.files src.bytes (target pos seekpt) = some e)
      (rest : Reads src (target pos seekpt+e.size) (linkAt src (target pos seekpt)) os es) :
      Reads src pos seekpt (target pos seekpt::os) (e::es)

variable {pos : ℕ} {seekpt : ℤ} {os : List ℕ} {es : List Entry}

theorem Reads.nil_iff (h : Reads src pos seekpt os es) : es = [] ↔ seekpt = 0 := by
  cases h with
  | nil => exact iff_of_true rfl rfl
  | cons more _ _ => exact iff_of_false (List.cons_ne_nil _ _) more

/-- The records from this position on are copied behind `s.out`. -/
def Copied (src : Source) (prev curr : ℕ) (seekpt : ℤ) (s s' : State) : Prop :=
  ∃ os es,Reads src s.pos seekpt os es ∧ s'.out = s.out++encodeChain prev curr es ∧ s'.blobs = s.blobs ∧ s'.maps = s.maps

variable {prev : ℕ}

theorem copied_stop {curr : ℕ} (h : seekpt = 0) : Copied src prev curr seekpt s s := by
  rw [h]
  exact ⟨[],[],.nil,(List.append_nil _).symm,rfl,rfl⟩

variable {p : Place}

theorem loop_reads (curr fuel i : ℕ) (hquiet : Quiet src s.blobs) (hprev : p.prev = prev)
    (hcurr : p.seekpt≠0 → p.curr = curr) :
    wp (loop src (fun _ => goodTurn) fuel i p) s (fun _ s' => Copied src prev curr p.seekpt s s') fun _ _ => True := by
  induction fuel generalizing s i p prev curr with
  | zero =>
    rw [loop,wp_ite]
    split
    · exact (wp_pure _).2 (copied_stop ‹_›)
    · exact (wp_fail _).2 trivial
  | succ fuel ih =>
    rw [loop,wp_ite]
    split
    · exact (wp_pure _).2 (copied_stop ‹_›)
    · rename_i hmore
      rw [wp_bind]
      refine wp_mono (turn_good hquiet p) ?_ fun _ _ _ => trivial
      intro p' s₁ hturned
      obtain ⟨e,hturn⟩ := hturned
      have hp' := hturn.place
      have hlink : p'.seekpt = linkAt src (target s.pos p.seekpt) := by rw [hp']
      have hnext : p'.seekpt≠0 → p'.curr = ((curr+e.size : ℕ) : ℤ) := by
        intro hne
        rw [hp'] at hne ⊢
        dsimp only at hne ⊢
        rw [if_neg hne,hcurr hmore,Nat.cast_add]
      have hquiet₁ : Quiet src s₁.blobs := hturn.blobs ▸ hquiet
      refine wp_mono (ih _ (i+1) hquiet₁ (by rw [hp']; exact hcurr hmore) hnext) ?_ fun _ _ => id
      intro _ s₂ hcopied
      obtain ⟨os,es,hreads,hout,hblobs,hmaps⟩ := hcopied
      have hcurr' : p'.curr = if es = [] then (0 : ℤ) else (curr+e.size : ℕ) := by
        by_cases hes : es = []
        · have hzero := hreads.nil_iff.1 hes
          rw [if_pos hes,hp']
          exact if_pos (hlink ▸ hzero)
        · rw [if_neg hes,hnext fun hzero => hes (hreads.nil_iff.2 hzero)]
      rw [hturn.pos,hlink] at hreads
      refine ⟨_,_,.cons hmore hturn.entry hreads,?_,hblobs.trans hturn.blobs,hmaps.trans hturn.maps⟩
      rw [hout,hturn.out,hprev,hcurr',encodeChain,List.append_assoc]

/-- What stands before the first record of the new file. -/
def newHeader (src : Source) : Bytes := putBE 2 src.hlen++(src.desc++(putLl src.start++putLl src.start))

theorem length_newHeader (hdesc : src.desc.length = src.hlen) : (newHeader src).length = src.start := by
  simp only [newHeader,List.length_append,putLl,length_putBE,hdesc,Source.start]
  omega

/-- The state at the beginning of the loop. -/
theorem wp_copyRecords {Q : Unit → State → Prop} (hlen : src.start ≤ src.bytes.length) (fuel uninit : ℕ)
    (dir : Dir Text Bytes) :
    wp (copyRecords src goodCalls fuel) ⟨[],0,dir,[],uninit⟩ Q E ↔
      wp (loop src (fun _ => goodTurn) fuel 0 ⟨0,src.start,src.second⟩) ⟨newHeader src,src.start,dir,[],uninit⟩ Q E := by
  have hseek : (0 : ℤ) ≤ src.hlen+2 := by omega
  have hpos : ((src.hlen : ℤ)+2).toNat = src.hlen+2 := by omega
  rw [Source.start] at hlen
  have hfirst : readAt src.bytes (src.hlen+2) 8 = some (slice src.bytes (src.hlen+2) 8) := readAt_of_le (by omega)
  have hsecond : readAt src.bytes (src.hlen+2+8) 8 = some (slice src.bytes (src.hlen+10) 8) := readAt_of_le (by omega)
  simp only [copyRecords,goodCalls,wp_bind,wp_ensure,writeOut,wp_modify,seek,readNext,wp_get,wp_ofOption,wp_pure,ne_eq,reduceCtorEq,
    not_false_eq_true,decide_true,if_true,List.nil_append,hseek,hpos,hfirst,hsecond,newHeader,List.append_assoc,Source.start,
    Source.second]

variable {fuel uninit : ℕ}

theorem rebuild_done (hlen : src.start ≤ src.bytes.length) (hquiet : Quiet src dir)
    (hdone : (rebuild src goodCalls fuel uninit dir).stopped = none) :
    ∃ os es,Reads src src.start src.second os es ∧
      (rebuild src goodCalls fuel uninit dir).bytes = newHeader src++encodeChain 0 src.start es ∧
      (rebuild src goodCalls fuel uninit dir).blobs = dir := by
  have hwp := (wp_copyRecords hlen fuel uninit dir).2
    (loop_reads (p := ⟨0,src.start,src.second⟩) (s := ⟨newHeader src,src.start,dir,[],uninit⟩) src.start fuel 0 hquiet rfl
      fun _ => rfl)
  rcases wp_cases hwp with ⟨_,s,hrun,os,es,hreads,hout,hblobs,hmaps⟩ | ⟨e,s,hrun,-⟩
  · refine ⟨os,es,hreads,?_,?_⟩
    · rw [rebuild,hrun]
      exact hout
    · rw [rebuild,hrun]
      dsimp only
      rw [hmaps,hblobs]
      rfl
  · cases e <;> simp [rebuild,hrun] at hdone

variable {file : Files} {f : Bytes} {o : ℕ} {e : Entry}

theorem entryAt_fits (h : entryAt file f o = some e) : e.Fits file := by
  obtain ⟨header,-,h⟩ := Option.bind_eq_some_iff.1 h
  dsimp only at h
  split at h
  · rename_i hfmt
    obtain ⟨data,hdata,rfl⟩ := Option.map_eq_some_iff.1 h
    exact ⟨hfmt,length_of_readAt hdata⟩
  · cases h

theorem Reads.fits (h : Reads src pos seekpt os es) :
    ∀ e∈es,e.Fits src.files := by
  induction h with
  | nil =>
    intro e he
    cases he
  | cons more entry rest ih =>
    intro e he
    rcases List.mem_cons.1 he with rfl | he
    · exact entryAt_fits entry
    · exact ih e he

/-- A file that consists of the header and the records of its chain. -/
structure Compact (src : Source) (f : Bytes) (es : List Entry) : Prop where
  desc : src.desc.length = src.hlen
  fits : ∀ e∈es,e.Fits src.files
  some_record : es≠[]
  bytes : f = newHeader src++encodeChain 0 src.start es
  length_le : f.length ≤ DataFile.int64Max

theorem Compact.chained (h : Compact src f es) :
    Chained src.files f (recordsOf src.start es) ((recordsOf src.start es).map Record.off) ∧
      ((recordsOf src.start es).map Record.off).map (entryAt src.files f) = es.map some := by
  have hlen := length_newHeader h.desc
  have hle := h.length_le
  rw [h.bytes,List.length_append,hlen,DataFile.int64Max] at hle
  have hhead : DataFile.contents src.files (newHeader src) .head = putBE 8 (newHeader src).length := by
    rw [hlen,← DataFile.putLl_natCast (by omega)]
    refine slice_at (putBE 2 src.hlen++src.desc) _ (putLl src.start) (by rw [newHeader,List.append_assoc]) ?_ (by rw [putLl,length_putBE]; rfl)
    rw [List.length_append,length_putBE,h.desc,Nat.add_comm]
    rfl
  have hbytes := h.bytes
  rw [← hlen] at hbytes ⊢
  exact DataFile.chained_image hlen hhead h.some_record h.fits hbytes h.length_le

theorem Compact.header (h : Compact src f es) : slice f 0 (src.hlen+2) = putBE 2 src.hlen++src.desc := by
  rw [h.bytes,newHeader,← List.append_assoc (putBE 2 src.hlen),List.append_assoc]
  apply slice_append_exact
  rw [List.length_append,length_putBE,h.desc,Nat.add_comm]

theorem Compact.second (h : Compact src f es) : slice f (src.hlen+10) 8 = putLl src.start := by
  refine slice_at (putBE 2 src.hlen++(src.desc++putLl src.start)) _ (encodeChain 0 src.start es) ?_ ?_ (by rw [putLl,length_putBE])
  · rw [h.bytes,newHeader]
    simp only [List.append_assoc]
  · simp only [List.length_append,putLl,length_putBE,h.desc]
    omega

/-! ## Where the files come from -/

/-- The same data file with other contents. -/
def Source.holding (src : Source) (f : Bytes) : Source := { src with bytes := f }

/-- The data files, with the directory of the blobs, that come from `mkdf` by requests and by rebuilds. `mkdf` removes the
blobs of an older file of this name. A file that it makes from no lines at all has no records. -/
inductive Obtained (src : Source) : Bytes → Dir Text Bytes → Prop
  | mkdf {formats : List (List ℕ)} {text f : Bytes} {dir : Dir Text Bytes} (described : Mkdf.Describes src.files formats)
      (desc : src.desc = Mkdf.descBytes formats) (made : Mkdf.mkdf formats text = .ok f) (some_line : text≠[])
      (removed : Quiet src dir) : Obtained src f dir
  | edited {f : Bytes} {dir : Dir Text Bytes} {recs : List Record} {chain : List ℕ} {p : ℕ} {out : Except DataFile.Code Unit} {d : DataFile.Disk}
      (old : Obtained src f dir) (q : DataFile.Request) (chained : Chained src.files f recs chain) (known : ∃ r∈recs,r.off = q.anchor)
      (answer : q.run src.files ⟨f,p,[]⟩ = (out,d)) (io : ∀ e,out = .error e → e.io = false) : Obtained src d.bytes dir
  | rebuilt {f : Bytes} {dir : Dir Text Bytes} {fuel uninit : ℕ} (old : Obtained src f dir)
      (done : (rebuild (src.holding f) goodCalls fuel uninit dir).stopped = none)
      (fits : (rebuild (src.holding f) goodCalls fuel uninit dir).bytes.length ≤ DataFile.int64Max) :
      Obtained src (rebuild (src.holding f) goodCalls fuel uninit dir).bytes (rebuild (src.holding f) goodCalls fuel uninit dir).blobs

/-- What is true of all of them. -/
structure Sound (src : Source) (f : Bytes) (dir : Dir Text Bytes) : Prop where
  desc : src.desc.length = src.hlen
  header : slice f 0 (src.hlen+2) = putBE 2 src.hlen++src.desc
  second : (src.holding f).second≠0
  quiet : Quiet src dir
  length_ge : src.start ≤ f.length
  chained : ∃ recs chain,Chained src.files f recs chain ∧ DataFile.Tiled src.files src.start recs f.length ∧ chain≠[]

theorem getLl_ne_zero {bs : Bytes} (hlen : bs.length = 8) (h : getBE bs≠0) : getLl bs≠0 := by
  intro hzero
  have hlt := getBE_lt bs
  rw [hlen] at hlt
  have hvec : BitVec.ofNat 64 (getBE bs) = 0#64 := BitVec.eq_of_toInt_eq (hzero.trans BitVec.toInt_zero.symm)
  have hnat := congrArg BitVec.toNat hvec
  rw [BitVec.toNat_ofNat,Nat.mod_eq_of_lt (by omega)] at hnat
  exact h hnat

theorem chain_ne_nil (h : es≠[]) : (recordsOf o es).map Record.off≠[] := by
  cases es with
  | nil => exact absurd rfl h
  | cons e es => exact List.cons_ne_nil _ _

theorem Compact.sound (h : Compact src f es) (hquiet : Quiet src dir) : Sound src f dir := by
  have hlen : f.length = src.start+(es.map Entry.size).sum := by
    rw [h.bytes,List.length_append,length_newHeader h.desc,DataFile.length_encodeChain]
  have hle := h.length_le
  rw [DataFile.int64Max] at hle
  refine ⟨h.desc,h.header,?_,hquiet,by omega,_,_,h.chained.1,?_,chain_ne_nil h.some_record⟩
  swap
  · rw [hlen]
    exact DataFile.recordsOf_tiled h.fits
  rw [Source.second,Source.holding]
  dsimp only
  rw [h.second]
  apply getLl_ne_zero (by rw [putLl,length_putBE])
  rw [DataFile.putLl_natCast (by omega),getBE_putBE (by omega),Source.start]
  omega

theorem mkdf_sound {formats : List (List ℕ)} {text : Bytes} (hd : Mkdf.Describes src.files formats) (hdesc : src.desc = Mkdf.descBytes formats)
    (hmade : Mkdf.mkdf formats text = .ok f) (hne : text≠[]) (hquiet : Quiet src dir) : Sound src f dir := by
  obtain ⟨hroom,hle,es,hes,hfits,-,hf⟩ := Mkdf.mkdf_eq hd hne hmade
  have hhlen : src.hlen = Mkdf.flen formats := hd.hlen
  have hlen := Mkdf.length_finalHeader formats
  have hstart : (Mkdf.finalHeader formats).length = src.start := by rw [hlen,Source.start,hhlen]
  have hdlen : src.desc.length = src.hlen := by rw [hdesc,hhlen,Mkdf.flen]
  obtain ⟨hchained,-⟩ := DataFile.chained_image (hlen.trans (by rw [← hhlen]; rfl)) (Mkdf.contents_head hd hroom) hes hfits hf hle
  rw [hstart] at hchained
  have hflen : f.length = src.start+(es.map Entry.size).sum := by
    rw [hf,List.length_append,hstart,DataFile.length_encodeChain]
  refine ⟨hdlen,?_,?_,hquiet,by omega,_,_,hchained,?_,chain_ne_nil hes⟩
  · rw [hf,Mkdf.finalHeader,List.append_assoc,← hhlen,← hdesc]
    apply slice_append_exact
    rw [List.length_append,length_putBE,hdlen,Nat.add_comm]
  · have hword : slice f (src.hlen+10) 8 = Mkdf.secondWord formats := by
      refine slice_at (putBE 2 (Mkdf.flen formats)++Mkdf.descBytes formats++putLl (Mkdf.flen formats+18 : ℕ)) _
        (encodeChain 0 (Mkdf.finalHeader formats).length es) ?_ ?_ (Mkdf.length_secondWord formats)
      · rw [hf,Mkdf.finalHeader]
        simp only [List.append_assoc]
      · rw [List.length_append,List.length_append,length_putBE,← hdesc,hdlen,putLl,length_putBE]
        omega
    rw [Source.second,Source.holding]
    dsimp only
    rw [hword]
    apply getLl_ne_zero (Mkdf.length_secondWord formats)
    rw [Mkdf.getBE_secondWord hroom]
    omega
  · rw [hflen]
    exact DataFile.recordsOf_tiled hfits

/-! ## Requests -/

variable {q : DataFile.Request}

/-- A request on a deleted record changes nothing. -/
theorem request_dead (hc : Chained file f recs chain) {r : Record} (hr : r∈recs) (hdead : r.off∉chain)
    (hq : r.off = q.anchor) (p : ℕ) :
    wp (q.run file) ⟨f,p,[]⟩ (fun _ d => d.bytes = f) fun _ d => d.bytes = f := by
  cases q with
  | insert place fmt a =>
    obtain rfl : r.off = a := hq
    simp only [DataFile.Request.run,wp_bind,wp_pure]
    exact wp_mono (DataFile.insert_dead hc hr hdead fmt place.mode p) (fun _ _ => False.elim) fun _ _ => id
  | delete a blobs fileno uninit =>
    obtain rfl : r.off = a := hq
    simp only [DataFile.Request.run,wp_bind,wp_pure]
    exact wp_mono (DataFile.delete_dead hc hr hdead blobs fileno uninit p) (fun _ _ => False.elim) fun _ _ => id

theorem request_header (hc : Chained file f recs chain) (hstart : ∀ r∈recs,file.hlen+18 ≤ r.off)
    (hq : q.anchor∈chain) (hlen : file.hlen+18 ≤ f.length) {lo : ℕ} (hr : file.Aside lo n) (p : ℕ) :
    wp (q.run file) ⟨f,p,[]⟩ (fun _ => DataFile.HeaderHas file lo n (slice f lo n)) fun _ => DataFile.HeaderHas file lo n (slice f lo n) := by
  cases q with
  | insert place fmt a =>
    simp only [DataFile.Request.run,wp_bind,wp_pure]
    exact DataFile.insert_header hc hstart hr hq hlen fmt place.mode p
  | delete a blobs fileno uninit =>
    simp only [DataFile.Request.run,wp_bind,wp_pure]
    exact DataFile.delete_header hc hstart hr hq hlen blobs fileno uninit p

theorem apply_ne_nil {new : ℕ} (q : DataFile.Request) (h : q.anchor∈chain) : q.apply file new chain≠[] := by
  have hne : chain≠[] := List.ne_nil_of_mem h
  cases q with
  | insert place fmt a =>
    rw [DataFile.Request.apply]
    split
    · have hmem : a∈place.insert a new chain := by
        refine List.mem_flatMap.2 ⟨a,h,?_⟩
        rw [if_pos rfl]
        cases place <;> simp [DataFile.Place.pair]
      exact List.ne_nil_of_mem hmem
    · exact hne
  | delete a blobs fileno uninit =>
    rw [DataFile.Request.apply]
    split
    · exact hne
    · rename_i hmany
      intro hnil
      have hlen := List.length_erase_of_mem h
      obtain ⟨b,rfl⟩ := List.length_eq_one_iff.1 (show chain.length = 1 by
        have hpos := List.length_pos_of_mem h
        simp only [DataFile.Request.anchor] at hlen
        rw [hnil,List.length_nil] at hlen
        omega)
      exact hmany (congrArg (fun x => [x]) (List.mem_singleton.1 h).symm)

theorem edited_sound {p : ℕ} {out : Except DataFile.Code Unit} {d : DataFile.Disk} (h : Sound src f dir) (q : DataFile.Request)
    (hc : Chained src.files f recs chain) (hknown : ∃ r∈recs,r.off = q.anchor) (hanswer : q.run src.files ⟨f,p,[]⟩ = (out,d))
    (hio : ∀ e,out = .error e → e.io = false) : Sound src d.bytes dir := by
  obtain ⟨r,hr,hoff⟩ := hknown
  by_cases hlive : r.off∈chain
  swap
  · have hsame := wp_run (request_dead hc hr hlive hoff p)
    rw [hanswer] at hsame
    rw [hsame]
    exact h
  rw [hoff] at hlive
  obtain ⟨recs',chain',hc',htiled,hne⟩ := h.chained
  obtain rfl : chain' = chain := Option.some.inj (hc'.chainOf_eq.symm.trans hc.chainOf_eq)
  have hkeep : ∀ lo n,src.files.Aside lo n → DataFile.HeaderHas src.files lo n (slice f lo n) d := by
    intro lo n hrange
    have hkept := wp_run (request_header hc' (fun _ => htiled.ge) hlive h.length_ge hrange p)
    rwa [hanswer] at hkept
  have hdesc := hkeep 0 (src.hlen+2) ⟨.inl (by rw [Nat.zero_add]; exact le_rfl),by rw [Nat.zero_add]; exact Nat.add_le_add_left (by omega) _⟩
  have hsecond := hkeep (src.hlen+10) 8 ⟨.inr le_rfl,le_rfl⟩
  refine ⟨h.desc,hdesc.2.trans h.header,?_,h.quiet,hdesc.1,?_⟩
  · have hword := h.second
    rw [Source.second,Source.holding] at hword ⊢
    dsimp only at hword ⊢
    rw [hsecond.2]
    exact hword
  · have hspec := q.run_spec hc' hlive p
    cases out with
    | ok u =>
      obtain ⟨new,hkept,hnew⟩ := (wp_of_ok hanswer).1 hspec
      exact ⟨_,_,hkept.chained,htiled.append hnew,apply_ne_nil q hlive⟩
    | error e =>
      obtain ⟨hkept,hbytes⟩ := (wp_of_error hanswer).1 hspec (hio e rfl)
      rw [hbytes] at hkept ⊢
      exact ⟨_,_,hkept.chained,htiled,apply_ne_nil q hlive⟩

theorem Sound.compact (h : Sound src f dir)
    (hdone : (rebuild (src.holding f) goodCalls fuel uninit dir).stopped = none)
    (hle : (rebuild (src.holding f) goodCalls fuel uninit dir).bytes.length ≤ DataFile.int64Max) :
    ∃ os es,Reads (src.holding f) src.start (src.holding f).second os es ∧
      Compact src (rebuild (src.holding f) goodCalls fuel uninit dir).bytes es ∧
      (rebuild (src.holding f) goodCalls fuel uninit dir).blobs = dir := by
  have hlen : (src.holding f).start ≤ (src.holding f).bytes.length := h.length_ge
  obtain ⟨os,es,hreads,hbytes,hblobs⟩ := rebuild_done hlen h.quiet hdone
  refine ⟨os,es,hreads,⟨h.desc,hreads.fits,?_,hbytes,hle⟩,hblobs⟩
  intro hnil
  exact h.second (hreads.nil_iff.1 hnil)

theorem Obtained.sound (h : Obtained src f dir) : Sound src f dir := by
  induction h with
  | mkdf described desc made some_line removed => exact mkdf_sound described desc made some_line removed
  | edited old q chained known answer io ih => exact edited_sound ih q chained known answer io
  | rebuilt old done fits ih =>
    obtain ⟨os,es,-,hcompact,hblobs⟩ := ih.compact done fits
    rw [hblobs]
    exact hcompact.sound ih.quiet

/-! ## What is preserved -/

/-- A file of `mkdf` with one format, which is a blob, and with one record, from the line `1:`. -/
def blobFile : Source where
  filename := [65]
  hlen := 8
  desc := Mkdf.descBytes [[0]]
  formats := [oneBlob]
  formats_le := one_le_formats
  bytes := (Mkdf.mkdf [[0]] [49,58,10]).toOption.getD []

def noBlobs : Dir Text Bytes := fun _ => none

theorem blobFile_obtained : Obtained blobFile blobFile.bytes noBlobs := by
  have hmade : Mkdf.mkdf [[0]] [49,58,10] = .ok blobFile.bytes := by decide +kernel
  exact .mkdf ⟨by decide +kernel,by decide +kernel,by decide +kernel⟩ rfl hmade (by simp) fun _ => rfl

theorem four_lt : 4 < 2 ^ 15 := by decide

/-- A file of `mkdf` with one format of four bytes. -/
def plainFile : Source where
  filename := [65]
  hlen := 8
  desc := Mkdf.descBytes [[4]]
  formats := [⟨4,[4],four_lt⟩]
  formats_le := one_le_formats
  bytes := (Mkdf.mkdf [[4]] [49,58,10]).toOption.getD []

end Dataman.Rebuild

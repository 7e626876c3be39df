import Dataman.LookupCandidates

/-!
# What lookups skip

A lookup goes through its candidates in order. It takes the entries of deleted records out of
the index until it comes to one whose record is not deleted, and returns that record.
-/

namespace Dataman.Lookups
open ByteFiles FixedWidthFields PageTree IndexFile DataFile

variable {n keylen : ℕ} {fileNames : List Bytes} {r : Request} {f : Bytes} {hd : Header} {h : ℕ} {t : Summary Bytes}
  {db db' : Database} {calls : ℕ → Calls} {L : List Bytes} {e : Bytes}

/-! ## Removals -/

/-- The own record of the entry is read as deleted. -/
instance (keylen : ℕ) (files : List (Option Member)) : DecidablePred (Stale keylen files) :=
  fun e => inferInstanceAs (Decidable (getU64 e (keylen+2) < 2 ^ 63 ∧
    (flagAt files (getU16 e keylen) (getU64 e (keylen+2))).any deleted = true))

theorem stale_congr {files files' : List (Option Member)} (h : contents files' = contents files) :
    Stale keylen files' = Stale keylen files := by
  funext e
  rw [Stale,Stale,flagAt_congr h]

/-- The first candidates, as long as they are stale. -/
def Request.skipped (keylen : ℕ) (db : Database) (r : Request) : List Bytes :=
  (r.candidates keylen (entries db.index)).takeWhile fun e => decide (Stale keylen db.files e)

/-- The candidate behind them. -/
def Request.landed (keylen : ℕ) (db : Database) (r : Request) : Option Bytes :=
  ((r.candidates keylen (entries db.index)).dropWhile fun e => decide (Stale keylen db.files e)).head?

/-- The record of an entry, with its format and its data. -/
def Answers (keylen : ℕ) (files : List (Option Member)) : Option Bytes → Reply → Prop
  | none,reply => reply = .code 0
  | some x,reply => ∃ len fmt entry bytes data,reply = .record len fmt entry entry.recordOffset data ∧
      entry.entry keylen = x ∧ flagAt files entry.fileId entry.recordOffset = some (UInt8.ofNat fmt) ∧
      (contents files).getD entry.fileId none = some bytes ∧
      readAt bytes (entry.recordOffset+headerLength) data.length = some data

/-- The request answers with the first candidate that is not stale, and exactly the candidates before it
leave the index. -/
def Request.Skips (keylen : ℕ) (db : Database) (r : Request) (out : Progress) : Prop :=
  (∀ e,e∈entries out.db.index ↔ e∈entries db.index ∧ e∉r.skipped keylen db) ∧
    ∃ reply db',out = .ended reply db' ∧ Answers keylen db.files (r.landed keylen db) reply

/-- The state behind a round that goes on. -/
def dropped (calls : ℕ → Calls) (n : ℕ) (entry : Found) (db : Database) : Database :=
  ⟨rmKeyRemover calls n entry db.index,(updIdx (calls n) entry entry.recordOffset db.files).2⟩

/-- Headers can be read and removals succeed, in each round of the loop. -/
def Request.Smooth (r : Request) (calls : ℕ → Calls) : ℕ → Database → Prop
  | 0,_ => True
  | n+1,db => ∀ entry,r.find db.index = some entry →
    (∃ data file flag,HeaderRead (calls n) entry.fileId entry.recordOffset db.files data file flag) ∧
    ((updIdx (calls n) entry entry.recordOffset db.files).1 = .code 0 →
      (entries (dropped calls n entry db).index).length < (entries db.index).length ∧
      Request.Smooth r calls n (dropped calls n entry db))

/-- The first record on the way that is not deleted can be returned. -/
def Request.Returns (r : Request) (calls : ℕ → Calls) : ℕ → Database → Prop
  | 0,_ => True
  | n+1,db => ∀ entry data file flag,r.find db.index = some entry →
    HeaderRead (calls n) entry.fileId entry.recordOffset db.files data file flag →
    if deleted flag then Request.Returns r calls n (dropped calls n entry db) else Whole (calls n) entry.recordOffset data file flag

/-- The same request after the removal of its first candidate: the hint is out of date. -/
theorem Request.Ready.removed {g : Bytes} {hd' : Header} {rest : List Bytes} (hready : r.Ready f hd L)
    (hkeylen : hd'.keylen = hd.keylen) (hgen : hd'.root.generation = hd.root.generation+1)
    (hcands : r.candidates hd.keylen L = e::rest) : r.Ready g hd' (L.erase e) := by
  have hwants : r.wants hd.keylen e = true := (mem_candidates.1 (hcands ▸ List.mem_cons_self)).2
  have hkeep : ∀ x∈L,x≠e → x∈L.erase e := fun x hx hne => (List.mem_erase_of_ne hne).2 hx
  have hlive : ∀ hint : Cursor,hint.generation ≤ hd.root.generation → LiveHint g hd' hint := by
    intro hint hle hcurrent
    omega
  cases r with
  | get key => exact ⟨hready.1,hkeylen ▸ hready.2⟩
  | getFirst => trivial
  | getLast => trivial
  | getNext hint key fileId record =>
    obtain ⟨hfit,hmem,-,hle⟩ := hready
    have hlt : composite hd.keylen key fileId record < e := of_decide_eq_true hwants
    refine ⟨hkeylen ▸ hfit,hkeylen ▸ hkeep _ hmem hlt.ne,hlive hint hle,by omega⟩
  | getPrior hint key fileId record =>
    obtain ⟨hfit,hmem,-,hle⟩ := hready
    have hlt : e < composite hd.keylen key fileId record := of_decide_eq_true hwants
    refine ⟨hkeylen ▸ hfit,hkeylen ▸ hkeep _ hmem hlt.ne',hlive hint hle,by omega⟩
  | getCurrent key fileId record => exact hready
  | restore saved key fileId record => exact hready

/-- A request that finds nothing, or its first candidate. -/
theorem Request.find_cases (hcount : fileNames.length < 2 ^ 16) (hr : Reachable keylen fileNames f)
    (hh : indexV2ReadHeader f = some hd) (hready : r.Ready f hd (entries f)) :
    hd.keylen = keylen ∧ (entries f).Nodup ∧ (∀ x∈entries f,x.length = (lookupContext hd).entrySize) ∧
      FindsHead hd (entries f) (r.candidates keylen (entries f)) (r.find f) ∧ r.missing f = .code 0 := by
  obtain ⟨rfl,h,t,hn⟩ := navigable_of_reachable hcount hr hh
  have hentries : entries f = t.entries := by rw [entries,hn.walk,Option.getD_some]
  rw [hentries] at hready ⊢
  cases good_of_reachable hcount hr with
  | building hb => simp [readHeader_building hb.fixed] at hh
  | index hi =>
    obtain ⟨h',t',hx⟩ := hi.searchable hh
    exact ⟨rfl,hn.sorted.imp ne_of_lt,fun x => hn.entry_length,Request.find_head hn hx hready,hready.missing hn⟩

/-- A removal that succeeds: the next root is in force, and the entry is gone. -/
theorem rmKeyRemover_removed (hcount : fileNames.length < 2 ^ 16) (hr : Reachable keylen fileNames f)
    (hh : indexV2ReadHeader f = some hd) {entry : Found} (hc : entry.composite.Fits keylen)
    (hlt : (entries (rmKeyRemover calls n entry f)).length < (entries f).length) :
    Reachable keylen fileNames (rmKeyRemover calls n entry f) ∧
      entries (rmKeyRemover calls n entry f) = (entries f).erase (entry.composite.encode keylen) ∧
      ∃ hd',indexV2ReadHeader (rmKeyRemover calls n entry f) = some hd' ∧ hd'.keylen = hd.keylen ∧
        hd'.root.generation = hd.root.generation+1 := by
  obtain ⟨rfl,h,t,hn⟩ := navigable_of_reachable hcount hr hh
  rw [rmKeyRemover] at hlt ⊢
  cases hrun : rmKey (calls n).track entry f with
  | none =>
    rw [hrun,Option.getD_none] at hlt
    omega
  | some g =>
    rw [hrun,Option.getD_some] at hlt
    obtain ⟨hreach,hsame | ⟨⟨hd₀,hd',hh₀,hh',hgen⟩,herase⟩⟩ := rmKey_entries hcount hr hn rfl hc hrun
    · rw [hsame] at hlt
      omega
    · obtain rfl := Option.some.inj (hh₀.symm.trans hh)
      exact ⟨hreach,herase,hd',hh',(navigable_of_reachable hcount hreach hh').1,hgen⟩

/-! ## Whole loops -/

/-- What the rounds of a loop keep: they only take entries away. -/
theorem Request.loop_subset (hcount : fileNames.length < 2 ^ 16) (hr : Reachable keylen fileNames db.index)
    (hfit : r.Fits keylen) (held : List ℕ) :
    ∀ x∈entries (r.loop (rmKeyRemover calls) calls n db held).db.index,x∈entries db.index := by
  induction n generalizing db held with
  | zero => exact fun x hx => hx
  | succ n ih =>
    rcases r.loop_cases (rmKeyRemover calls) calls n db held with hstays | ⟨entry,mid,held',hg⟩
    · rcases hstays.loop with ⟨reply,mid,hindex,hloop⟩ | ⟨-,hloop⟩
      · rw [hloop,Progress.db,hindex]
        exact fun x hx => hx
      · rw [hloop]
        exact fun x hx => hx
    · obtain ⟨hd,hh⟩ := Request.readable_of_find hg.find
      obtain ⟨rfl,h,t,hn⟩ := navigable_of_reachable hcount hr hh
      obtain ⟨hreach,hentries⟩ := rmKeyRemover_sane hcount calls n entry db.index hr (Request.find_fits hn hfit hg.find)
      rw [← hg.index] at hreach hentries
      intro x hx
      rw [hg.loop] at hx
      have hmid := @ih mid hreach held' x hx
      rcases hentries with hsame | herase
      · rwa [hsame] at hmid
      · rw [herase] at hmid
        exact List.mem_of_mem_erase hmid

theorem answers_congr {files files' : List (Option Member)} (h : contents files' = contents files) :
    Answers keylen files' = Answers keylen files := by
  funext x reply
  cases x with
  | none => rfl
  | some x => simp only [Answers,flagAt_congr h,h]

/-- The round that takes a stale entry away makes no difference to what is asked of the rest. -/
theorem skips_removed {rest : List Bytes} (hnd : (entries db.index).Nodup) (hcands : r.candidates keylen (entries db.index) = e::rest)
    (hentries : entries db'.index = (entries db.index).erase e) (hcontents : contents db'.files = contents db.files)
    (hstale : Stale keylen db.files e) (out : Progress) : r.Skips keylen db out ↔ r.Skips keylen db' out := by
  have hskipped : r.skipped keylen db = e::r.skipped keylen db' := by
    rw [Request.skipped,Request.skipped,hentries,candidates_erase hnd hcands,hcands]
    simp only [List.takeWhile_cons,hstale,decide_true,if_true,stale_congr hcontents]
  have hlanded : r.landed keylen db = r.landed keylen db' := by
    rw [Request.landed,Request.landed,hentries,candidates_erase hnd hcands,hcands]
    simp only [List.dropWhile_cons,hstale,decide_true,if_true,stale_congr hcontents]
  have hmem : ∀ x,(x∈entries db.index ∧ x∉r.skipped keylen db) ↔ (x∈entries db'.index ∧ x∉r.skipped keylen db') := by
    intro x
    rw [hskipped,hentries,hnd.mem_erase_iff,List.mem_cons,not_or]
    tauto
  rw [Request.Skips,Request.Skips,hlanded,answers_congr hcontents]
  simp only [hmem]

/-- The round that meets a record which is not deleted decides. -/
theorem skips_here {rest : List Bytes} (hcands : r.candidates keylen (entries db.index) = e::rest)
    (hlive : ¬ Stale keylen db.files e) (out : Progress) : r.Skips keylen db out ↔
      (∀ x,x∈entries out.db.index ↔ x∈entries db.index) ∧
        ∃ reply db',out = .ended reply db' ∧ Answers keylen db.files (some e) reply := by
  have hskipped : r.skipped keylen db = [] := by
    simp only [Request.skipped,hcands,List.takeWhile_cons,hlive,decide_false,Bool.false_eq_true,if_false]
  have hlanded : r.landed keylen db = some e := by
    simp only [Request.landed,hcands,List.dropWhile_cons,hlive,decide_false,Bool.false_eq_true,if_false,List.head?_cons]
  rw [Request.Skips,hskipped,hlanded]
  simp only [List.not_mem_nil,not_false_eq_true,and_true]

/-- A round that finds the entry `e` and reads the header of its record. -/
structure Meets (r : Request) (keylen : ℕ) (call : Calls) (db : Database) (e : Bytes) (entry : Found) (data : Member) (file : Files)
    (flag : UInt8) : Prop where
  find : r.find db.index = some entry
  record : r.record entry = entry.recordOffset
  entry_eq : entry.entry keylen = e
  fits : entry.composite.Fits keylen
  read : HeaderRead call entry.fileId entry.recordOffset db.files data file flag

section Round

variable {entry : Found} {data : Member} {file : Files} {flag : UInt8}

theorem Meets.record_eq (hm : Meets r keylen (calls n) db e entry data file flag) : getU64 e (keylen+2) = entry.recordOffset := by
  rw [← hm.entry_eq]
  exact getU64_composite hm.fits.key_length hm.fits.record_lt

theorem Meets.flagAt_eq (hm : Meets r keylen (calls n) db e entry data file flag) :
    flagAt db.files (getU16 e keylen) (getU64 e (keylen+2)) = some flag := by
  have hfile : getU16 e keylen = entry.fileId := by
    rw [← hm.entry_eq]
    exact getU16_composite hm.fits.key_length hm.fits.fileId_lt entry.recordOffset
  rw [hfile,hm.record_eq,hm.read.flagAt_eq]

theorem Meets.stale_iff (hm : Meets r keylen (calls n) db e entry data file flag) : Stale keylen db.files e ↔ deleted flag = true := by
  rw [Stale,hm.flagAt_eq,hm.record_eq,Option.any_some]
  exact and_iff_right hm.read.record_lt

theorem Meets.loop_eq (hm : Meets r keylen (calls n) db e entry data file flag) :
    r.loop (rmKeyRemover calls) calls (n+1) db [] = if (updIdx (calls n) entry entry.recordOffset db.files).1 = .code 0 then
      r.loop (rmKeyRemover calls) calls n (dropped calls n entry db) (if flag = 0 then [entry.fileId] else [])
      else .ended (updIdx (calls n) entry entry.recordOffset db.files).1
        { db with files := (updIdx (calls n) entry entry.recordOffset db.files).2 } := by
  simp only [Request.loop,hm.find,hm.record,List.not_mem_nil,if_false,hm.read.updIdx_eq.2,decide_eq_true_eq,dropped]

theorem Meets.returns_iff (hm : Meets r keylen (calls n) db e entry data file flag) : r.Returns calls (n+1) db ↔
    if deleted flag then r.Returns calls n (dropped calls n entry db) else Whole (calls n) entry.recordOffset data file flag := by
  constructor
  · exact fun hall => hall entry data file flag hm.find hm.read
  · intro hthis entry' data' file' flag' hfind hread
    obtain rfl := Option.some.inj (hm.find.symm.trans hfind)
    obtain ⟨rfl,rfl,rfl⟩ := hm.read.unique hread
    exact hthis

theorem Meets.answer_zero (hm : Meets r keylen (calls n) db e entry data file flag) (h : deleted flag ∨ flag = 0) :
    (updIdx (calls n) entry entry.recordOffset db.files).1 = .code 0 := by
  rw [hm.read.updIdx_eq.1,if_pos h]

/-- What is left after a round that goes on. -/
theorem Meets.dropped_spec (hm : Meets r keylen (calls n) db e entry data file flag) (hcount : fileNames.length < 2 ^ 16)
    (hr : Reachable keylen fileNames db.index) (hh : indexV2ReadHeader db.index = some hd)
    (hlt : (entries (dropped calls n entry db).index).length < (entries db.index).length) :
    Reachable keylen fileNames (dropped calls n entry db).index ∧
      entries (dropped calls n entry db).index = (entries db.index).erase e ∧
      contents (dropped calls n entry db).files = contents db.files ∧
      ∃ hd',indexV2ReadHeader (dropped calls n entry db).index = some hd' ∧ hd'.keylen = hd.keylen ∧
        hd'.root.generation = hd.root.generation+1 := by
  obtain ⟨hreach,hentries,hheader⟩ := rmKeyRemover_removed hcount hr hh hm.fits hlt
  rw [show entry.composite.encode keylen = e from hm.entry_eq] at hentries
  exact ⟨hreach,hentries,(updIdx_spec (calls n) entry entry.recordOffset db.files).1,hheader⟩

/-- A record that is neither deleted nor without a format is returned, or the request fails. -/
theorem Meets.answers_iff (hm : Meets r keylen (calls n) db e entry data file flag) (hdel : ¬ deleted flag = true) (hzero : flag≠0) :
    (updIdx (calls n) entry entry.recordOffset db.files).1≠.code 0 ∧
      (Answers keylen db.files (some e) (updIdx (calls n) entry entry.recordOffset db.files).1 ↔
        Whole (calls n) entry.recordOffset data file flag) := by
  refine ⟨?_,?_⟩
  · rw [hm.read.updIdx_eq.1,if_neg (not_or.2 ⟨hdel,hzero⟩)]
    exact readData_ne_zero _ _ _ _ _ _
  rcases hm.read.updIdx_cases (Bool.eq_false_iff.2 hdel) with ⟨hnot,code,hcode⟩ | ⟨hwhole,len,hrecord⟩
  · refine iff_of_false ?_ hnot
    rintro ⟨len',fmt,entry',bytes,x,hreply,-⟩
    rw [hcode] at hreply
    cases hreply
  · refine iff_of_true ⟨len,flag.toNat,entry,data.disk.bytes,_,hrecord,hm.entry_eq,?_,
      contents_getD hm.read.member,?_⟩ hwhole
    · rw [hm.read.flagAt_eq,UInt8.ofNat_toNat]
    · rw [length_slice_of_le hwhole.inside]
      exact readAt_of_le hwhole.inside

end Round

/-- A lookup skips what it should if and only if the record it comes to can be returned. -/
theorem Request.loop_skips (hcount : fileNames.length < 2 ^ 16) (hr : Reachable keylen fileNames db.index)
    (hh : indexV2ReadHeader db.index = some hd) (hready : r.Ready db.index hd (entries db.index)) (hsmooth : r.Smooth calls n db)
    (hn : (r.candidates keylen (entries db.index)).length < n) :
    r.Skips keylen db (r.loop (rmKeyRemover calls) calls n db []) ↔ r.Returns calls n db := by
  induction n generalizing db hd with
  | zero => omega
  | succ n ih =>
    obtain ⟨rfl,hnd,hlength,hfinds,hmissing⟩ := Request.find_cases hcount hr hh hready
    rcases hfinds with ⟨hcands,hfind⟩ | ⟨e,rest,cursor,hcands,hmem,hfind⟩
    · have hloop : r.loop (rmKeyRemover calls) calls (n+1) db [] = .ended (.code 0) db := by
        rw [Request.loop,hfind,hmissing]
      refine iff_of_true ?_ ?_
      · have hlanded : r.landed hd.keylen db = none := by rw [Request.landed,hcands]; rfl
        rw [hloop,Request.Skips,hlanded]
        refine ⟨fun x => ?_,_,_,rfl,rfl⟩
        simp [Request.skipped,hcands,Progress.db]
      · intro entry data file flag hsome
        rw [hfind] at hsome
        cases hsome
    · obtain ⟨⟨data,file,flag,hread⟩,hremoved⟩ := hsmooth _ hfind
      have hlen := hlength e hmem
      have hm : Meets r hd.keylen (calls n) db e (foundEntry (lookupContext hd) cursor e) data file flag :=
        ⟨hfind,hready.record _,entry_foundEntry hlen cursor,fits_foundEntry hlen cursor,hread⟩
      rw [hm.returns_iff,hm.loop_eq]
      by_cases hdel : deleted flag
      · have hzero : flag≠0 := by
          rintro rfl
          exact absurd hdel (by decide)
        obtain ⟨hlt,hsmooth'⟩ := hremoved (hm.answer_zero (.inl hdel))
        obtain ⟨hreach,hentries,hcontents,hd',hh',hkeylen,hgen⟩ := hm.dropped_spec hcount hr hh hlt
        rw [if_pos hdel,if_pos (hm.answer_zero (.inl hdel)),if_neg hzero,
          skips_removed hnd hcands hentries hcontents (hm.stale_iff.2 hdel)]
        apply ih hreach hh' _ hsmooth'
        · rw [hentries,candidates_erase hnd hcands]
          rw [hcands,List.length_cons] at hn
          omega
        · rw [hentries]
          exact hready.removed hkeylen hgen hcands
      · rw [if_neg hdel,skips_here hcands (hm.stale_iff.not.2 hdel)]
        by_cases hzero : flag = 0
        · obtain ⟨hlt,-⟩ := hremoved (hm.answer_zero (.inr hzero))
          obtain ⟨hreach,hentries,-⟩ := hm.dropped_spec hcount hr hh hlt
          rw [if_pos (hm.answer_zero (.inr hzero))]
          refine iff_of_false ?_ ?_
          · intro hskips
            have hin := Request.loop_subset hcount hreach hready.fits _ e ((hskips.1 e).2 hmem)
            rw [hentries] at hin
            exact (hnd.mem_erase_iff.1 hin).1 rfl
          · intro hwhole
            have hpos := hwhole.format.1
            rw [hzero] at hpos
            exact absurd hpos (by decide)
        · obtain ⟨hne,hiff⟩ := hm.answers_iff hdel hzero
          rw [if_neg hne,← hiff]
          constructor
          · rintro ⟨-,reply,db',hended,hanswer⟩
            obtain ⟨rfl,-⟩ := Progress.ended.inj hended
            exact hanswer
          · exact fun hanswer => ⟨fun x => Iff.rfl,_,_,rfl,hanswer⟩

theorem length_candidates_le (r : Request) (keylen : ℕ) (L : List Bytes) : (r.candidates keylen L).length ≤ L.length := by
  rw [Request.candidates,ordered]
  split
  · exact List.length_filter_le _ L
  · rw [List.length_reverse]
    exact List.length_filter_le _ L

section OneEntry

variable {entry : Found} {data : Member} {file : Files} {flag : UInt8}

end OneEntry

end Dataman.Lookups

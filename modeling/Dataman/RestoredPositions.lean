import Dataman.LookupCandidates
import Dataman.LookupHandlers

/-!
# Positions after RESTORE

`restore` looks up the entry of a system key but reads the record that the client has saved.
`upd_idx` puts the number of the record it has read into the key that it returns.
-/

namespace Dataman.Lookups
open ByteFiles FixedWidthFields FieldText PageTree IndexFile DataFile

variable {n keylen : ℕ} {fileNames : List Bytes} {f : Bytes} {hd : Header} {h : ℕ} {t : Summary Bytes} {db : Database}
  {calls : ℕ → Calls} {L : List Bytes} {e : Bytes} {c : Composite} {forward : Bool}

/-! ## The text of a position -/

theorem endsAny_bar : EndsAny Server.bar := ⟨⟨rfl,rfl,by decide,by decide⟩,rfl,by decide⟩

theorem nextField_decimal (n : ℕ) (tail : Server.Text) : Server.nextField (decimal n++Server.bar::tail) = some tail := by
  apply Server.nextField_eq
  intro b hb
  have hd := decimal_digit hb
  constructor
  · rintro rfl
    exact absurd hd (by decide)
  · rintro rfl
    exact absurd hd (by decide)

/-- The part of an answer that a client sends back: the cursor and the system key. -/
def position (keylen : ℕ) (entry : Found) (rec : ℕ) : Server.Text :=
  Server.printed [(entry.cursor.generation : ℤ),entry.cursor.nodeOffset,entry.cursor.entryIndex] ++
    Server.systemKey keylen entry.key entry.fileId (offset rec)

/-- GET_NEXT or GET_PRIOR from an entry. -/
def beside (forward : Bool) (hint : Cursor) (c : Composite) : Request :=
  if forward then .getNext hint c.key c.fileId c.record else .getPrior hint c.key c.fileId c.record

/-- The request that `get_next` or `get_prior` reads from its text. -/
def besideRequest (forward : Bool) (slot : Server.Slot) (text : Server.Text) : Option Request :=
  (Server.cursorFields text).bind fun fields =>
    (Server.systemEntry slot fields.2).map fun entry => beside forward fields.1 ⟨entry.1,entry.2.1,entry.2.2⟩

theorem printed_cons (n : ℕ) (ns : List ℤ) : Server.printed ((n : ℤ)::ns) = decimal n++Server.bar::Server.printed ns := by
  simp [Server.printed]

theorem systemEntry_systemKey {slot : Server.Slot} {key : Bytes} {fileId rec : ℕ} (hslot : slot.keylen = keylen)
    (hkey : key.length = keylen) (hid : fileId < slot.fCnt) (hsmall : fileId < 255) (hrec : rec < 2 ^ 63) :
    Server.systemEntry slot (Server.systemKey keylen key fileId (offset rec)) = some (key,fileId,rec) := by
  have hbyte : (UInt8.ofNat (((fileId : ℤ)+1) % 256).toNat).toNat = fileId+1 := by
    rw [UInt8.toNat_ofNat']
    omega
  have hkeyBytes : Server.systemKey keylen key fileId (offset rec) =
      key++UInt8.ofNat (((fileId : ℤ)+1) % 256).toNat::putBE 8 rec := by
    have hput : putLl (offset rec) = putBE 8 rec := by
      rw [putLl,offset_eq hrec]
      congr 1
      omega
    simp [Server.systemKey,hput,← hkey]
  have hslice : slice (Server.systemKey keylen key fileId (offset rec)) (keylen+1) 8 = putBE 8 rec := by
    rw [hkeyBytes,slice,← hkey,← List.drop_drop,List.drop_left]
    simp
  rw [Server.systemEntry,hslot,Int.toNat_natCast,hslice,getBE_putBE (by omega),hkeyBytes,← hkey,List.drop_left,List.take_left,
    List.headD_cons,hbyte,if_neg (by omega)]
  rfl

/-- What the server reads from a position that comes back to it. -/
theorem besideRequest_position {slot : Server.Slot} {entry : Found} {rec : ℕ} (hslot : slot.keylen = keylen)
    (hkey : entry.key.length = keylen) (hid : entry.fileId < slot.fCnt) (hsmall : entry.fileId < 255) (hrec : rec < 2 ^ 63)
    (hgen : entry.cursor.generation < 2 ^ 64) (hnode : entry.cursor.nodeOffset < 2 ^ 64) (hindex : entry.cursor.entryIndex < 2 ^ 8)
    (k : ℕ) :
    besideRequest forward slot (Server.printed [(k : ℤ)]++position keylen entry rec) =
      some (beside forward entry.cursor ⟨entry.key,entry.fileId,rec⟩) := by
  have htext : Server.printed [(k : ℤ)]++position keylen entry rec = decimal k++Server.bar::position keylen entry rec := by
    simp [Server.printed]
  have hfields : Server.cursorFields (Server.printed [(k : ℤ)]++position keylen entry rec) =
      some (entry.cursor,Server.systemKey keylen entry.key entry.fileId (offset rec)) := by
    rw [htext,Server.cursorFields,nextField_decimal,position]
    simp only [printed_cons,List.append_assoc,List.cons_append,Option.bind_eq_bind,Option.bind_some,nextField_decimal,
      Option.pure_def,strtoull_decimal endsAny_bar hgen,strtoull_decimal endsAny_bar hnode,
      strtoull_decimal endsAny_bar (show entry.cursor.entryIndex < 2 ^ 64 by omega),Nat.mod_eq_of_lt hindex]
    rfl
  rw [besideRequest,hfields,Option.bind_some,systemEntry_systemKey hslot hkey hid hsmall hrec]
  rfl

/-! ## Cursors -/

theorem leafBelow_lt {ctx : Context} {p o : ℕ} {es : List Bytes} (hp : p < 2 ^ 64) (hleaf : LeafBelow (v2LoadNode ctx f) p o es) :
    o < 2 ^ 64 := by
  induction hleaf with
  | here load => exact hp
  | inner load child leaf ih => exact ih ((nodeOk_of_load load).child_lt _ child)

theorem getU64_lt (b : Bytes) (off : ℕ) : getU64 b off < 2 ^ 64 := by
  have hlt := getBE_lt (slice b off 8)
  have hle : (slice b off 8).length ≤ 8 := by
    rw [length_slice]
    omega
  exact hlt.trans_le ((Nat.pow_le_pow_right (by omega) hle).trans_eq (by decide))

theorem readSlot_rootOffset {b : Bytes} {r : Slot} (h : readSlot b = some r) : r.rootOffset < 2 ^ 64 := by
  simp only [readSlot] at h
  split at h
  · cases h
  · split at h
    · obtain rfl := Option.some.inj h
      exact getU64_lt b 8
    · cases h

/-- The fields of a cursor fit into those of a message. -/
theorem names_fits (hcount : fileNames.length < 2 ^ 16) (hr : Reachable keylen fileNames f) (hh : indexV2ReadHeader f = some hd)
    {cursor : Cursor} (hnames : Names f hd cursor e) :
    cursor.generation < 2 ^ 64 ∧ cursor.nodeOffset < 2 ^ 64 ∧ cursor.entryIndex < 2 ^ 8 := by
  cases good_of_reachable hcount hr with
  | building hb => simp [readHeader_building hb.fixed] at hh
  | index hi =>
    obtain ⟨es,hleaf,hat⟩ := hnames.leaf
    have hroot : hd.root.rootOffset < 2 ^ 64 := by
      rw [hi.readHeader,Option.map_eq_some_iff] at hh
      obtain ⟨root,hsel,rfl⟩ := hh
      exact (selectSlot_mem hsel).elim readSlot_rootOffset readSlot_rootOffset
    refine ⟨hnames.generation ▸ (hi.generation hh).2,leafBelow_lt hroot hleaf,?_⟩
    have hlt := (List.getElem?_eq_some_iff.1 hat).1
    have hle := (nodeOk_of_load hleaf.load).count_le
    simp only [maxKeys] at hle
    omega

/-! ## Neighbours -/

theorem neighbour_inj (hs : L.Pairwise (· < ·)) {i j : ℕ} (hi : i < L.length) (hj : j < L.length)
    (h : neighbour forward L i = neighbour forward L j) : i = j := by
  have hnd : L.Nodup := hs.imp ne_of_lt
  cases forward with
  | true =>
    simp only [neighbour,if_true] at h
    by_cases hlt : i+1 < L.length
    · have := (List.getElem?_inj hlt hnd).1 h
      omega
    · rw [List.getElem?_eq_none (by omega),eq_comm,List.getElem?_eq_none_iff] at h
      omega
  | false =>
    simp only [neighbour,Bool.false_eq_true,if_false] at h
    by_cases hi0 : i = 0
    · by_cases hj0 : j = 0
      · omega
      · rw [if_pos hi0,if_neg hj0,eq_comm,List.getElem?_eq_none_iff] at h
        omega
    · by_cases hj0 : j = 0
      · rw [if_neg hi0,if_pos hj0,List.getElem?_eq_none_iff] at h
        omega
      · rw [if_neg hi0,if_neg hj0] at h
        have := (List.getElem?_inj (by omega) hnd).1 h
        omega

/-- The entries behind an entry, or before it, the nearest first. -/
def beyond (forward : Bool) (keylen : ℕ) (L : List Bytes) (c : Composite) : List Bytes :=
  ordered forward (L.filter fun x => if forward then decide (c.encode keylen < x) else decide (x < c.encode keylen))

theorem beside_candidates (forward : Bool) (hint : Cursor) (c : Composite) :
    (beside forward hint c).candidates keylen L = beyond forward keylen L c := by
  cases forward with
  | true => rfl
  | false => rfl

theorem FindsHead.head_eq {cands cands' : List Bytes} {found : Option Found}
    (hlen : ∀ x∈L,x.length = (lookupContext hd).entrySize) (hf : FindsHead hd L cands found) (hf' : FindsHead hd L cands' found) :
    cands.head? = cands'.head? := by
  rcases hf with ⟨rfl,rfl⟩ | ⟨e,rest,cursor,rfl,he,rfl⟩
  · rcases hf' with ⟨rfl,-⟩ | ⟨e,rest,cursor,rfl,he,hsome⟩
    · rfl
    · cases hsome
  · rcases hf' with ⟨rfl,hnone⟩ | ⟨e',rest',cursor',rfl,he',hsome⟩
    · cases hnone
    · have hsame := congrArg Found.answer (Option.some.inj hsome)
      rw [List.head?_cons,List.head?_cons,answer_foundEntry_inj (hlen e he) (hlen e' he') hsame]

theorem beside_missing (forward : Bool) (hint : Cursor) (c : Composite) (f : Bytes) : (beside forward hint c).missing f =
    if (indexV2Find f c.key true c.fileId c.record).isSome then .code 0 else .code eRmKey := by
  cases forward with
  | true => rfl
  | false => rfl

theorem beside_ready (hc : c.Fits hd.keylen) (hmem : c.encode hd.keylen∈L) {hint : Cursor} (hnames : Names f hd hint e) :
    (beside forward hint c).Ready f hd L := by
  cases forward with
  | true => exact ⟨hc,hmem,hnames.live,hnames.generation.le⟩
  | false => exact ⟨hc,hmem,hnames.live,hnames.generation.le⟩

/-- A request goes on from an entry: it finds the neighbour, or answers 0 at the end of the index. -/
def Continues (forward : Bool) (f : Bytes) (hd : Header) (L : List Bytes) (c : Composite) (r : Request) : Prop :=
  FindsHead hd L (beyond forward hd.keylen L c) (r.find f) ∧ r.missing f = .code 0

/-- Only a request with the key of the entry goes on from it. -/
theorem continues_iff (hn : Navigable f hd h t) {h' : ℕ} {t' : Summary Bytes} (hx : Searchable f hd h' t') {c' : Composite}
    (hc : c.Fits hd.keylen) (hc' : c'.Fits hd.keylen) (hmem : c.encode hd.keylen∈t.entries) {hint : Cursor}
    (hnames : Names f hd hint e) : Continues forward f hd t.entries c (beside forward hint c') ↔ c' = c := by
  have hfinds : ∀ c₀ : Composite,c₀.Fits hd.keylen → c₀.encode hd.keylen∈t.entries →
      FindsHead hd t.entries (beyond forward hd.keylen t.entries c₀) ((beside forward hint c₀).find f) := by
    intro c₀ hc₀ hmem₀
    rw [← beside_candidates forward hint]
    exact Request.find_head hn hx (beside_ready hc₀ hmem₀ hnames)
  constructor
  · rintro ⟨hhead,hmissing⟩
    have hmem' : c'.encode hd.keylen∈t.entries := by
      by_contra hnot
      rw [beside_missing,find_exact_notMem hn hc' hnot] at hmissing
      simp [eRmKey] at hmissing
    obtain ⟨i,hi⟩ := List.getElem?_of_mem hmem
    obtain ⟨j,hj⟩ := List.getElem?_of_mem hmem'
    have hheads : neighbour forward t.entries i = neighbour forward t.entries j := by
      rw [neighbour_eq_head hn.sorted hi,neighbour_eq_head hn.sorted hj]
      exact hhead.head_eq (fun x => hn.entry_length) (hfinds c' hc' hmem')
    obtain rfl := neighbour_inj hn.sorted (List.getElem?_eq_some_iff.1 hi).1 (List.getElem?_eq_some_iff.1 hj).1 hheads
    exact encode_injective hc' hc (Option.some.inj (hj.symm.trans hi))
  · rintro rfl
    exact ⟨hfinds c' hc hmem,Request.Ready.missing hn (beside_ready hc hmem hnames)⟩

/-! ## RESTORE -/

/-- RESTORE answers with the record that was saved, and the position in its answer is the one of the entry. -/
def Restores (hd : Header) (slot : Server.Slot) (c : Composite) (saved : ℕ) (db : Database) (out : Option (Reply × Database)) : Prop :=
  ∃ len fmt entry bytes data files,out = some (.record len fmt entry saved data,{ db with files := files }) ∧
    flagAt db.files c.fileId saved = some (UInt8.ofNat fmt) ∧ (contents db.files).getD c.fileId none = some bytes ∧
    readAt bytes (saved+headerLength) data.length = some data ∧ Names db.index hd entry.cursor (c.encode hd.keylen) ∧
    ∀ (k : ℕ) forward,∃ r,
      besideRequest forward slot (Server.printed [(k : ℤ)]++position hd.keylen entry saved) = some r ∧
      Continues forward db.index hd (entries db.index) c r

section Answers

variable {saved : ℕ} {entry : Found} {data : Member} {file : Files} {flag : UInt8}

/-- RESTORE has one round, and reads the saved record. -/
theorem restore_run (saved : ℕ) (calls : ℕ → Calls) (hfind : indexV2Find db.index entry.key true entry.fileId entry.recordOffset = some entry) :
    Request.run (.restore saved entry.key entry.fileId entry.recordOffset) 1 calls db = round (calls 0) entry saved db := by
  have hfind' : Request.find db.index (.restore saved entry.key entry.fileId entry.recordOffset) = some entry := hfind
  simp only [Request.run,hfind',Request.record,Request.again,Bool.false_eq_true,and_false,if_false]
  cases round (calls 0) entry saved db <;> rfl

theorem round_of_code {call : Calls} {code : ℤ} (h : (updIdx call entry saved db.files).1 = .code code) {out : Reply × Database}
    (hround : round call entry saved db = some out) : out.1 = .code code := by
  simp only [round,h] at hround
  split at hround
  · obtain ⟨g,-,rfl⟩ := Option.map_eq_some_iff.1 hround
    rfl
  · obtain rfl := Option.some.inj hround
    rfl

theorem round_of_record {call : Calls} {len : ℤ} {fmt : ℕ} {bytes : Bytes}
    (h : (updIdx call entry saved db.files).1 = .record len fmt entry saved bytes) :
    round call entry saved db = some (.record len fmt entry saved bytes,{ db with files := (updIdx call entry saved db.files).2 }) := by
  simp [round,h]

end Answers

/-- RESTORE with a saved record that is not deleted re-establishes the position of the index entry if and only
if the record can be returned and is the entry's own. -/
theorem restore_position_iff (hcount : fileNames.length < 2 ^ 16) (hr : Reachable keylen fileNames db.index)
    (hh : indexV2ReadHeader db.index = some hd) (hc : c.Fits keylen) (hmem : c.encode keylen∈entries db.index) {saved : ℕ}
    {data : Member} {file : Files} {flag : UInt8} (hread : HeaderRead (calls 0) c.fileId saved db.files data file flag)
    (hlive : deleted flag = false) {slot : Server.Slot} (hslot : slot.keylen = keylen) (hfiles : slot.fCnt = hd.fileCount) :
    Restores hd slot c saved db (Request.run (.restore saved c.key c.fileId c.record) 1 calls db) ↔
      Whole (calls 0) saved data file flag ∧ saved = c.record := by
  obtain ⟨rfl,h,t,hn⟩ := navigable_of_reachable hcount hr hh
  have hentries : entries db.index = t.entries := by rw [entries,hn.walk,Option.getD_some]
  rw [hentries] at hmem
  obtain ⟨cursor,hnames,hfind⟩ := find_exact hn hc hmem
  have hlen := Navigable.encode_length hc
  have hsame : (foundEntry (lookupContext hd) cursor (c.encode hd.keylen)).composite = c :=
    encode_injective (fits_foundEntry hlen cursor) hc (entry_foundEntry hlen cursor)
  have hcursor : (foundEntry (lookupContext hd) cursor (c.encode hd.keylen)).cursor = cursor := rfl
  generalize foundEntry (lookupContext hd) cursor (c.encode hd.keylen) = entry at hfind hsame hcursor
  subst hsame hcursor
  have hrun := restore_run saved calls hfind
  have hread' : HeaderRead (calls 0) entry.fileId saved db.files data file flag := hread
  -- what comes back in the next request
  have hback : ∀ (k : ℕ) forward,besideRequest forward slot (Server.printed [(k : ℤ)]++position hd.keylen entry saved) =
      some (beside forward entry.cursor ⟨entry.key,entry.fileId,saved⟩) := by
    intro k forward
    obtain ⟨hgen,hnode,hindex⟩ := names_fits hcount hr hh hnames
    exact besideRequest_position hslot hc.key_length (hfiles ▸ hn.file_lt hc hmem) hread.file_lt.2 hread.record_lt hgen hnode hindex k
  have hcontinues : ∀ forward,Continues forward db.index hd t.entries entry.composite
      (beside forward entry.cursor ⟨entry.key,entry.fileId,saved⟩) ↔ saved = entry.recordOffset := by
    intro forward
    have hfits : Composite.Fits hd.keylen ⟨entry.key,entry.fileId,saved⟩ :=
      ⟨hc.key_length,hc.fileId_lt,hread.record_lt.trans (by decide)⟩
    cases good_of_reachable hcount hr with
    | building hb => simp [readHeader_building hb.fixed] at hh
    | index hi =>
      obtain ⟨h',t',hx⟩ := hi.searchable hh
      rw [continues_iff hn hx hc hfits hmem hnames,Found.composite,Composite.mk.injEq]
      simp
  rw [show Request.run (.restore saved entry.composite.key entry.composite.fileId entry.composite.record) 1 calls db = _ from hrun]
  rcases hread'.updIdx_cases hlive with ⟨hnot,code,hcode⟩ | ⟨hwhole,len,hrecord⟩
  · refine iff_of_false ?_ fun h => hnot h.1
    rintro ⟨len,fmt,entry',bytes,x,files,hout,-⟩
    have := round_of_code hcode hout
    cases this
  · rw [round_of_record hrecord,and_iff_right hwhole]
    constructor
    · rintro ⟨len',fmt,entry',bytes,x,files,hout,-,-,-,-,hnext⟩
      obtain ⟨hreply,-⟩ := Prod.mk.inj (Option.some.inj hout)
      obtain ⟨-,-,rfl,-,-⟩ := Reply.record.inj hreply
      obtain ⟨r,hr',hcont⟩ := hnext 0 true
      obtain rfl := Option.some.inj (hr'.symm.trans (hback 0 true))
      rw [hentries] at hcont
      exact (hcontinues true).1 hcont
    · intro hown
      refine ⟨len,flag.toNat,entry,data.disk.bytes,_,_,rfl,?_,contents_getD hread.member,?_,hnames,?_⟩
      · rw [hread.flagAt_eq,UInt8.ofNat_toNat]
      · rw [length_slice_of_le hwhole.inside]
        exact readAt_of_le hwhole.inside
      · intro k forward
        refine ⟨_,hback k forward,?_⟩
        rw [hentries]
        exact (hcontinues forward).2 hown

/-! ## A record that was moved to -/

/-- Records at 12 and 30, with one byte of data each. -/
def twoBytes : Bytes := List.replicate 12 0++1::List.replicate 16 0++65::1::List.replicate 16 0++[66]

/-- The index has an entry for the first of them. -/
def twoRecords : Database where
  index := sampleIndex
  files := [some { disk := { bytes := twoBytes },file := some ⟨10,[⟨1,false⟩],sample_formats⟩ }]

def sampleSlot : Server.Slot := { keylen := 2,fCnt := 1,refcnt := 1 }

/-- A client has gone forward to record 30 and restores its position. The answer names an entry with that record,
which the index does not have, so GET_NEXT answers ERMKEY, although the index ends there. -/
theorem restored_position_lost :
    (Request.run (.restore 30 [0x61,0x62] 0 12) 1 sampleCalls twoRecords).map Prod.fst = some (.record 1 1 sampleFound 30 [66]) ∧
    besideRequest true sampleSlot (Server.printed [0]++position 2 sampleFound 30) =
      some (.getNext sampleFound.cursor [0x61,0x62] 0 30) ∧
    Request.find twoRecords.index (.getNext sampleFound.cursor [0x61,0x62] 0 30) = none ∧
    Request.missing twoRecords.index (.getNext sampleFound.cursor [0x61,0x62] 0 30) = .code eRmKey ∧
    Request.find twoRecords.index (.getNext sampleFound.cursor [0x61,0x62] 0 12) = none ∧
    Request.missing twoRecords.index (.getNext sampleFound.cursor [0x61,0x62] 0 12) = .code 0 := by
  decide +kernel

/-- With its own record the entry is found again. -/
theorem restore_position_iff_own : ∃ hd,indexV2ReadHeader twoRecords.index = some hd ∧
    Restores hd sampleSlot ⟨[0x61,0x62],0,12⟩ 12 twoRecords
      (Request.run (.restore 12 [0x61,0x62] 0 12) 1 sampleCalls twoRecords) := by
  have hcount : [[(0x41 : UInt8)]].length < 2 ^ 16 := by decide
  have hreach : Reachable 2 [[0x41]] twoRecords.index := by
    simp only [twoRecords]
    exact sampleIndex_reachable
  have hheader : (indexV2ReadHeader twoRecords.index).map (·.fileCount) = some 1 := by decide +kernel
  obtain ⟨hd,hh,hone⟩ := Option.map_eq_some_iff.1 hheader
  have hmem : Composite.encode 2 ⟨[0x61,0x62],0,12⟩∈entries twoRecords.index := by decide +kernel
  have hread : HeaderRead (sampleCalls 0) 0 12 twoRecords.files
      { disk := { bytes := twoBytes },file := some ⟨10,[⟨1,false⟩],sample_formats⟩ } ⟨10,[⟨1,false⟩],sample_formats⟩ 1 :=
    ⟨by decide,rfl,rfl,by decide,rfl,rfl⟩
  refine ⟨hd,hh,(restore_position_iff (c := ⟨[0x61,0x62],0,12⟩) hcount hreach hh ⟨rfl,by decide,by decide⟩ hmem hread rfl rfl
    hone.symm).2 ⟨⟨by decide,by decide,rfl,rfl,by decide,?_⟩,rfl⟩⟩
  intro hblob
  exact absurd hblob (by decide)

end Dataman.Lookups

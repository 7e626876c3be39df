import Dataman.IndexCrash
import Dataman.IndexEnumeration
import Dataman.Lookups

/-!
# What lookups remove

A lookup removes an entry after it has seen the header byte of a record. For all of them
but RESTORE it is the record of the entry; the byte is that of a deleted record or zero.
-/

namespace Dataman.Lookups
open ByteFiles FixedWidthFields Checksum FailState PageTree IndexFile DataFile

variable {keylen n rec : ℕ} {fileNames : List Bytes} {f : Bytes} {hd : Header} {h : ℕ} {t : Summary Bytes}
  {calls : Calls} {db db' : Database} {r : Request} {entry : Found} {files : List (Option Member)} {d : Disk}

/-! ## Header bytes -/

/-- The flag byte of the record with this number in a data file of the index. -/
def flagAt (files : List (Option Member)) (fileId rec : ℕ) : Option UInt8 :=
  (files.getD fileId none).bind fun data => (readAt data.disk.bytes rec headerLength).bind List.head?

/-- The contents of the data files. -/
def contents (files : List (Option Member)) : List (Option Bytes) := files.map (Option.map (·.disk.bytes))

theorem flagAt_congr {files' : List (Option Member)} (h : contents files' = contents files) :
    flagAt files' = flagAt files := by
  have hget : ∀ fs : List (Option Member),∀ i,(fs.getD i none).map (·.disk.bytes) = (contents fs).getD i none := by
    intro fs i
    simp only [contents,List.getD_eq_getElem?_getD,List.getElem?_map]
    cases fs[i]? <;> rfl
  have hflag : ∀ fs : List (Option Member),∀ i rec,flagAt fs i rec =
      ((contents fs).getD i none).bind fun bytes => (readAt bytes rec headerLength).bind List.head? := by
    intro fs i rec
    rw [← hget,flagAt,Option.bind_map]
    rfl
  funext i rec
  rw [hflag,hflag,h]

theorem llseek_bytes (off : ℤ) (d : Disk) : (llseek off d).2.bytes = d.bytes := by
  simp only [llseek,FailState.modify]
  split <;> rfl

theorem tryRead_bytes (n : ℕ) (d : Disk) : (tryRead n d).2.bytes = d.bytes := by
  simp only [tryRead]
  split <;> rfl

theorem checkRec_bytes (rec : ℕ) (d : Disk) : (checkRec rec d).2.bytes = d.bytes := by
  have hbytes : (tryRead headerLength (llseek (offset rec) d).2).2.bytes = d.bytes := by
    rw [tryRead_bytes,llseek_bytes]
  simp only [checkRec]
  split
  · split <;> exact hbytes
  · exact hbytes

theorem offset_eq (h : rec < 2 ^ 63) : offset rec = rec := by
  rw [offset,BitVec.toInt_eq_toNat_of_lt]
  · rw [BitVec.toNat_ofNat,Nat.mod_eq_of_lt (by omega)]
  · rw [BitVec.toNat_ofNat,Nat.mod_eq_of_lt (by omega)]
    omega

/-- 0 is the answer for two kinds of header bytes. -/
theorem checkRec_zero (hrec : rec < 2 ^ 63) (h : (checkRec rec d).1 = 0) :
    ∃ flag,(readAt d.bytes rec headerLength).bind List.head? = some flag ∧ (deleted flag ∨ flag = 0) := by
  have hseek : (llseek (offset rec) d).2 = { d with pos := rec } := by
    simp [llseek,FailState.modify,offset_eq hrec]
  simp only [checkRec,hseek] at h
  split at h
  · rename_i name hread
    have hname : readAt d.bytes rec headerLength = some name := by
      simp only [tryRead] at hread
      split at hread
      · simp at hread
      · simp only [Except.ok.injEq,Option.ite_none_right_eq_some,Option.some.injEq] at hread
        obtain ⟨hlen,rfl⟩ := hread
        rw [length_slice] at hlen
        exact readAt_of_le (by simp only [headerLength] at hlen ⊢; omega)
    have hlen := length_of_readAt hname
    cases name with
    | nil => simp [headerLength] at hlen
    | cons flag rest =>
      refine ⟨flag,by rw [hname]; rfl,?_⟩
      by_cases hdel : deleted flag
      · exact .inl hdel
      · right
        rw [List.headD_cons,if_neg hdel] at h
        exact UInt8.toNat_inj.1 (Int.natCast_eq_zero.1 h)
  · simp [eRhRead] at h

/-! ## The answer 0 -/

theorem readData_bytes (calls : Calls) (file : Files) (fmt : ℕ) (entry : Found) (rec : ℕ) (d : Disk) :
    (readData calls file fmt entry rec d).2.bytes = d.bytes := by
  have hread := tryRead_bytes (file.format fmt).rfLen d
  simp only [readData]
  split
  · rfl
  · split
    · rfl
    · split
      · rfl
      · split
        · split
          · split <;> exact hread
          · exact hread
        · exact hread

theorem readData_ne_zero (calls : Calls) (file : Files) (fmt : ℕ) (entry : Found) (rec : ℕ) (d : Disk) :
    (readData calls file fmt entry rec d).1≠.code 0 := by
  simp only [readData]
  split
  · simp [eBadFmt]
  · split
    · simp [eBadFmt]
    · split
      · simp [eNoAlloc]
      · split
        · split
          · split
            · rename_i hneg
              simp only [ne_eq,Reply.code.injEq]
              omega
            · simp
          · simp
        · simp [eRecRead]

variable {i : ℕ}

theorem contents_set {member : Member} {disk : Disk} {file : Option Files}
    (hget : files.getD i none = some member) (hbytes : disk.bytes = member.disk.bytes) :
    contents (files.set i (some { disk := disk,file := file })) = contents files := by
  rw [contents,List.map_set]
  apply List.ext_getElem?
  intro j
  rw [List.getElem?_set]
  split
  · rename_i hij
    subst hij
    rw [List.getD_eq_getElem?_getD] at hget
    cases hi : files[i]? with
    | none => simp [hi] at hget
    | some value =>
      rw [hi,Option.getD_some] at hget
      subst hget
      have hlt := (List.getElem?_eq_some_iff.1 hi).1
      rw [if_pos (by rwa [List.length_map])]
      simp only [contents,List.getElem?_map,hi,Option.map_some,hbytes]
  · rfl

/-- Reading changes no file, and 0 means that the header byte says so. -/
theorem updIdx_spec (calls : Calls) (entry : Found) (rec : ℕ) (files : List (Option Member)) :
    contents (updIdx calls entry rec files).2 = contents files ∧
      ((updIdx calls entry rec files).1 = .code 0 → rec < 2 ^ 63 →
        ∃ flag,flagAt files entry.fileId rec = some flag ∧ (deleted flag ∨ flag = 0)) := by
  simp only [updIdx]
  split
  · exact ⟨rfl,by simp [eInvMsg]⟩
  · split
    · exact ⟨rfl,by simp [eInvMsg]⟩
    · rename_i member hmember
      split
      · rename_i failure hdesc
        refine ⟨rfl,?_⟩
        intro hzero
        have := failure.negative
        simp only [Reply.code.injEq] at hzero
        omega
      · rename_i file hdesc
        have hdisk : (if member.file.isSome then member.disk else { member.disk with pos := file.hlen+2 }).bytes =
            member.disk.bytes := by split <;> rfl
        generalize (if member.file.isSome then member.disk else { member.disk with pos := file.hlen+2 }) = disk at hdisk
        constructor
        · apply contents_set hmember
          split
          · rw [checkRec_bytes,hdisk]
          · rw [readData_bytes,checkRec_bytes,hdisk]
        · intro hzero hrec
          split at hzero
          · obtain ⟨flag,hflag,hcase⟩ := checkRec_zero hrec (Reply.code.inj hzero)
            refine ⟨flag,?_,hcase⟩
            rw [flagAt,hmember,Option.bind_some,← hdisk]
            exact hflag
          · exact absurd hzero (readData_ne_zero _ _ _ _ _ _)

/-! ## Found entries -/

/-- The fields of a request that names an entry. -/
def Request.Fits (keylen : ℕ) : Request → Prop
  | getNext _ key fileId record | getPrior _ key fileId record | getCurrent key fileId record |
    restore _ key fileId record => Composite.Fits keylen ⟨key,fileId,record⟩
  | _ => True

variable {ctx : Context} {e : Bytes}

theorem leaf_entry_length {p o : ℕ} {es : List Bytes}
    (hleaf : LeafBelow (v2LoadNode ctx f) p o es) (hi : es[i]? = some e) : e.length = ctx.entrySize :=
  (nodeOk_of_load hleaf.load).entry_length e (List.mem_of_getElem? hi)

variable {key : Bytes} {fileId record : ℕ}

theorem find_found (hn : Navigable f hd h t) {exact : Bool}
    (hx : indexV2Find f key exact fileId record = some entry) : entry.composite.Fits hd.keylen := by
  simp only [indexV2Find,hn.header,Option.bind_eq_bind,Option.bind_some,Option.bind_eq_some_iff] at hx
  obtain ⟨_,_,_,_,y,hy,hx⟩ := hx
  obtain ⟨o,es,i,e,hleaf,hi,rfl⟩ := findTarget_located hy
  obtain rfl := Option.some.inj hx
  exact fits_foundEntry (leaf_entry_length hleaf hi) ⟨hd.root.generation,o,i⟩

theorem ends_found (hn : Navigable f hd h t) {last : Bool} (hx : v2DescendTree last f = some entry) :
    entry.composite.Fits hd.keylen := by
  obtain ⟨_,hnone⟩ | ⟨e,cursor,_,hnames,hfound⟩ := hn.descendTree_answer last
  · rw [hnone] at hx
    cases hx
  · obtain rfl := Option.some.inj (hfound.symm.trans hx)
    obtain ⟨es,hleaf,hi⟩ := hnames.leaf
    exact fits_foundEntry (leaf_entry_length hleaf hi) cursor

theorem setCursorEntry_fits {cursor : Cursor} (he : e.length = ctx.entrySize)
    (hx : v2SetCursorEntry ctx cursor e = some entry) : entry.composite.Fits ctx.keylen := by
  simp only [v2SetCursorEntry,Option.bind_eq_bind,Option.bind_eq_some_iff] at hx
  obtain ⟨_,_,hx⟩ := hx
  obtain rfl := Option.some.inj hx
  exact fits_foundEntry he cursor

variable {c : Composite}

/-- A neighbour has the form of an entry even if the hint that led to it is stale. -/
theorem adjacent_found (hn : Navigable f hd h t) (hc : c.Fits hd.keylen) {hint : Cursor} {forward : Bool}
    (hx : v2FindAdjacent f c.key c.fileId c.record hint forward = some entry) : entry.composite.Fits hd.keylen := by
  by_cases hid : c.fileId < hd.fileCount
  · rw [hn.adjacent_eq hid] at hx
    obtain hhint | ⟨-,hsearch⟩ := Option.or_eq_some_iff.1 hx
    · obtain ⟨-,es,s,x,hload,-,hplace,-,hset⟩ := hintedEntry_eq_some (Navigable.encode_length hc) hhint
      exact setCursorEntry_fits ((nodeOk_of_load hload).entry_length x (List.mem_of_getElem? hplace)) hset
    · by_cases hmem : c.encode hd.keylen∈t.entries
      · obtain ⟨j,hj⟩ := List.getElem?_of_mem hmem
        have ha : Answer (lookupContext hd) f hd.root.generation t.off (neighbour forward t.entries j) _ :=
          searchedEntry_answer hn.height hn.tree hn.sorted (Navigable.encode_length hc) hj
        rw [hsearch] at ha
        obtain ⟨_,hnone⟩ | ⟨e,cursor,_,he,_,hfound⟩ := hn.answer ha
        · cases hnone
        · obtain rfl := Option.some.inj hfound
          exact fits_foundEntry (hn.entry_length he) cursor
      · rw [searchedEntry_notMem hn.height hn.tree hn.sorted (Navigable.encode_length hc) hmem] at hsearch
        cases hsearch
  · simp [v2FindAdjacent,hn.header,guard_eq_ite,hid] at hx

theorem Request.find_fits (hn : Navigable f hd h t) (hr : r.Fits hd.keylen) (hx : r.find f = some entry) :
    entry.composite.Fits hd.keylen := by
  cases r with
  | get key => exact find_found hn hx
  | getFirst => exact ends_found hn hx
  | getLast => exact ends_found hn hx
  | getNext hint key fileId record => exact adjacent_found hn hr hx
  | getPrior hint key fileId record => exact adjacent_found hn hr hx
  | getCurrent key fileId record => exact find_found hn hx
  | restore saved key fileId record => exact find_found hn hx

/-- An exact search ends at its target. -/
theorem v2FindEntry_target {target : Bytes} {keyLength depth off next : ℕ}
    (htarget : target.length = ctx.entrySize)
    (hf : v2FindEntry ctx f target true keyLength depth off next = some entry) :
    ∃ cursor,entry = foundEntry ctx cursor target := by
  induction depth generalizing off next with
  | zero => cases hf
  | succ depth ih =>
    rw [v2FindEntry] at hf
    obtain ⟨n,hl,hf⟩ := Option.bind_eq_some_iff.1 hf
    have hle : n.entries.findIdx (fun e => memcmp target e = .lt ∨ n.leaf ∧ memcmp target e = .eq) ≤
        n.entries.length := List.findIdx_le_length
    generalize n.entries.findIdx (fun e => memcmp target e = .lt ∨ n.leaf ∧ memcmp target e = .eq) = p at hf hle
    cases hn : n.leaf with
    | true =>
      rw [if_pos hn] at hf
      by_cases hp : p = n.entries.length
      · rw [if_pos hp] at hf
        split at hf
        · exact ih hf
        · cases hf
      · rw [if_neg hp] at hf
        obtain ⟨_,hguard,hx⟩ := Option.bind_eq_some_iff.1 hf
        obtain rfl := Option.some.inj hx
        have hlt : p < n.entries.length := by omega
        rw [guard_eq_some] at hguard
        simp only [true_and,not_or,not_not,not_and] at hguard
        have hmem : n.entries.getD p []∈n.entries := by
          rw [List.getD_eq_getElem?_getD,List.getElem?_eq_getElem hlt]
          exact List.getElem_mem hlt
        have heq := (memcmp_eq_eq_iff (htarget.trans ((nodeOk_of_load hl).entry_length _ hmem).symm)).1 hguard.1
        rw [← heq]
        exact ⟨⟨0,off,p⟩,rfl⟩
    | false =>
      rw [if_neg (by simp [hn])] at hf
      exact ih hf

theorem findExact_target (hn : Navigable f hd h t) (hc : c.Fits hd.keylen)
    (hx : indexV2FindExact f c.key c.fileId c.record = some entry) : entry.composite = c := by
  simp only [indexV2FindExact,hn.header,Option.bind_eq_bind,Option.bind_some,Option.bind_eq_some_iff] at hx
  obtain ⟨_,_,_,_,y,hy,hx⟩ := hx
  obtain ⟨cursor,rfl⟩ := v2FindEntry_target (Navigable.encode_length hc) hy
  obtain rfl := Option.some.inj hx
  have hlen : (c.encode hd.keylen).length = (lookupContext hd).entrySize := Navigable.encode_length hc
  exact encode_injective (fits_foundEntry hlen cursor) hc (entry_foundEntry hlen cursor)

/-! ## One removal -/

/-- The entries of an index, none if it cannot be read. -/
def entries (f : Bytes) : List Bytes := (walk f).getD []

/-- A root of the next generation is in force. -/
def Renewed (f g : Bytes) : Prop :=
  ∃ hd hd',indexV2ReadHeader f = some hd ∧ indexV2ReadHeader g = some hd' ∧ hd'.root.generation = hd.root.generation+1

/-- Every page write of a removal is beside the tree, and the slot write is seen or not. -/
theorem remove_walk {first : ℕ} {out : Except Fault Unit} {s : IndexState}
    (hcow : ctx.inPlace = false) (hi : Index ctx first f) (hc : c.Fits ctx.keylen)
    (hrun : IndexFile.Request.run (.remove c) { bytes := f } = (out,s)) (hio : out≠.error .io) :
    walk s.bytes = walk f ∨
      Renewed f s.bytes ∧ ∃ es,walk f = some es ∧ walk s.bytes = some (es.erase (c.encode ctx.keylen)) := by
  have hspec := IndexFile.Request.run_spec (r := .remove c) (s := { bytes := f }) hcow hi hc
  rw [wp,hrun] at hspec
  cases out with
  | ok u =>
    obtain ⟨-,hd,h,t,hcur,-,h',t',ws,root,hchange,hcom⟩ := hspec
    obtain ⟨hsw,-,hbytes⟩ := hcom.switches hi hcur
    by_cases hcrc : indexV2Crc32 (slotBody root) = 0#32
    · left
      have hg : s.bytes = writeAt (applyWrites f ws) (slotOffset root.generation) (slotBytes root) := by
        rw [hbytes,applyWrites,applyWrites,List.foldl_append]
        rfl
      apply (hsw.torn (slotBytes root) (Nat.le_refl _) _ hg _).walk
      left
      have hself := slice_writeAt_self (applyWrites f ws) (slotOffset root.generation) (slotBytes root)
      rw [length_slotBytes] at hself
      rw [hg,hself,readSlot_slotBytes hcom.publishable,if_pos hcrc]
    · right
      obtain ⟨hheader,hwalk,-⟩ := hsw.whole hcrc s.bytes hbytes
      refine ⟨⟨hd,_,hcur.header,hheader,hsw.generation⟩,t.entries,hcur.walk hi,?_⟩
      rw [hwalk,hchange]
      rfl
  | error e =>
    left
    cases hspec with
    | io => exact absurd rfl hio
    | publish _ hab =>
      obtain ⟨ws,hw⟩ := hab.written
      rw [hw.bytes_eq]
      exact (hw.beside.sameView hi).walk
    | header hb => rw [hb]
    | argument hb => rw [hb]
    | entry hb => rw [hb]

/-- What a removal may leave of the entries. -/
theorem rmKey_entries (hcount : fileNames.length < 2 ^ 16) (hr : Reachable keylen fileNames f)
    (hn : Navigable f hd h t) (hkeylen : hd.keylen = keylen) (hc : entry.composite.Fits keylen) {track : Bool} {g : Bytes}
    (hrun : rmKey track entry f = some g) :
    Reachable keylen fileNames g ∧
      (entries g = entries f ∨ Renewed f g ∧ entries g = (entries f).erase (entry.composite.encode keylen)) := by
  simp only [rmKey] at hrun
  split at hrun
  · obtain rfl := Option.some.inj hrun
    exact ⟨hr,.inl rfl⟩
  · rename_i found hfound
    split at hrun
    · obtain rfl := Option.some.inj hrun
      exact ⟨hr,.inl rfl⟩
    · split at hrun
      · cases hrun
      · rename_i hio
        obtain rfl := Option.some.inj hrun
        have hsame : found.composite = entry.composite := findExact_target hn (hkeylen ▸ hc) hfound
        have hrun' : (IndexFile.Request.run (.remove found.composite) { bytes := f }) =
          ((IndexFile.Request.run (.remove found.composite) { bytes := f }).1,_) := rfl
        rw [← hsame] at hc ⊢
        refine ⟨.called (c := .request (.remove found.composite)) hr hc hrun' hio,?_⟩
        cases good_of_reachable hcount hr with
        | building hb =>
          have hnone := hn.header
          rw [readHeader_building hb.fixed] at hnone
          cases hnone
        | index hi =>
          obtain hwalk | ⟨hnew,es,hes,hwalk⟩ := remove_walk rfl hi hc hrun' hio
          · exact .inl (congrArg (Option.getD · []) hwalk)
          · refine .inr ⟨hnew,?_⟩
            rw [entries,entries,hes]
            exact congrArg (Option.getD · []) hwalk

/-! ## Requests -/

/-- The record that the request reads before it removes the entry. -/
def Request.tested (keylen : ℕ) (e : Bytes) : Request → ℕ
  | restore saved _ _ _ => saved
  | _ => getU64 e (keylen+2)

/-- The header byte under which `upd_idx` answers 0. -/
def Request.Tested (r : Request) (keylen : ℕ) (files : List (Option Member)) (e : Bytes) : Prop :=
  r.tested keylen e < 2 ^ 63 →
    ∃ flag,flagAt files (getU16 e keylen) (r.tested keylen e) = some flag ∧ (deleted flag ∨ flag = 0)

/-- The entries that are missing afterwards were tested. -/
structure Pruned (r : Request) (keylen : ℕ) (fileNames : List Bytes) (db db' : Database) : Prop where
  reachable : Reachable keylen fileNames db'.index
  contents : contents db'.files = contents db.files
  sublist : (entries db'.index).Sublist (entries db.index)
  tested : ∀ e∈entries db.index,e∉entries db'.index → r.Tested keylen db.files e

theorem Pruned.refl (hr : Reachable keylen fileNames db.index) : Pruned r keylen fileNames db db :=
  ⟨hr,rfl,.refl _,fun _ hmem hnot => absurd hmem hnot⟩

theorem Pruned.trans {db'' : Database} (hp : Pruned r keylen fileNames db db') (hp' : Pruned r keylen fileNames db' db'') :
    Pruned r keylen fileNames db db'' := by
  refine ⟨hp'.reachable,hp'.contents.trans hp.contents,hp'.sublist.trans hp.sublist,?_⟩
  intro e hmem hnot
  by_cases hmid : e∈entries db'.index
  · have htested := hp'.tested e hmid hnot
    rwa [Request.Tested,flagAt_congr hp.contents] at htested
  · exact hp.tested e hmem hmid

theorem getU64_composite (hk : key.length = keylen) (hrec : record < 2 ^ 64) :
    getU64 (composite keylen key fileId record) (keylen+2) = record := by
  have hlen : (key.take keylen++putU16 fileId).length = keylen+2 := by simp [putU16,hk]
  rw [getU64,composite,slice_append_right _ _ _ _ (by omega),hlen,Nat.sub_self]
  rw [show putU64 record = putU64 record++[] by simp,slice_append_exact _ _ _ (by simp [putU64]),putU64,
    getBE_putBE (by omega)]

theorem Request.readable_of_find (hfind : r.find f = some entry) : ∃ hd,indexV2ReadHeader f = some hd := by
  cases hh : indexV2ReadHeader f with
  | some hd => exact ⟨hd,rfl⟩
  | none =>
    cases r <;> simp [Request.find,indexV2Find,indexV2First,indexV2Last,v2DescendTree,indexV2Next,indexV2Prior,
      v2FindAdjacent,hh] at hfind

variable {reply : Reply}

/-- The own record of the entry carries the deleted bit. -/
def Stale (keylen : ℕ) (files : List (Option Member)) (e : Bytes) : Prop :=
  getU64 e (keylen+2) < 2 ^ 63 ∧ (flagAt files (getU16 e keylen) (getU64 e (keylen+2))).any deleted

/-- The own record of the entry has no header byte that is zero. -/
def Headed (keylen : ℕ) (files : List (Option Member)) (e : Bytes) : Prop :=
  getU64 e (keylen+2) < 2 ^ 63 ∧ flagAt files (getU16 e keylen) (getU64 e (keylen+2))≠some 0

/-- When it is right to remove an entry after the test: the header byte is not zero, and a
RESTORE was given the record of the entry, or one more deleted record. -/
def Request.Proper (r : Request) (keylen : ℕ) (files : List (Option Member)) (e : Bytes) : Prop :=
  match r with
  | restore saved _ _ _ => (saved = getU64 e (keylen+2) ∧ Headed keylen files e) ∨ Stale keylen files e
  | _ => Headed keylen files e

theorem Stale.headed (hs : Stale keylen files e) : Headed keylen files e := by
  refine ⟨hs.1,?_⟩
  intro hzero
  have hdel := hs.2
  rw [hzero] at hdel
  exact absurd hdel (by decide)

theorem Request.Tested.stale (ht : r.Tested keylen files e) (hown : r.tested keylen e = getU64 e (keylen+2))
    (hh : Headed keylen files e) : Stale keylen files e := by
  rw [Request.Tested,hown] at ht
  obtain ⟨flag,hflag,hdel | hzero⟩ := ht hh.1
  · exact ⟨hh.1,by rw [hflag]; exact hdel⟩
  · exact absurd (hzero ▸ hflag) hh.2

theorem Request.Tested.stale_iff (ht : r.Tested keylen files e) :
    Stale keylen files e ↔ r.Proper keylen files e := by
  cases r with
  | restore saved key fileId record =>
    constructor
    · exact .inr
    · intro hproper
      obtain ⟨hown,hh⟩ | hs := hproper
      · exact ht.stale hown hh
      · exact hs
  | get | getFirst | getLast | getNext | getPrior | getCurrent => exact ⟨Stale.headed,ht.stale rfl⟩

/-- An index with one entry, for the record 12. -/
def sampleIndex : Bytes := withKey (indexV2CreateEmpty 2 [[0x41]] { bytes := [] }).2.bytes [0x61,0x62]

/-- A data file with records at 12 and 29 and these flag bytes. -/
def sampleFile (flag flag' : UInt8) : Bytes :=
  List.replicate 12 0++flag::List.replicate 16 0++flag'::List.replicate 16 0

theorem sample_formats : [Format.mk 1 false].length ≤ 63 := Nat.le_add_left 1 62

def sampleDatabase (flag flag' : UInt8) : Database where
  index := sampleIndex
  files := [some { disk := { bytes := sampleFile flag flag' },file := some ⟨10,[⟨1,false⟩],sample_formats⟩ }]

def sampleCalls : ℕ → Calls := fun _ => { desc := .ok ⟨10,[⟨1,false⟩],sample_formats⟩,alloc := true,blobs := 0,track := true }

theorem sampleIndex_reachable : Reachable 2 [[0x41]] sampleIndex :=
  withKey_reachable (.created (run_eq createSample_ok)) rfl (by decide +kernel)

end Dataman.Lookups

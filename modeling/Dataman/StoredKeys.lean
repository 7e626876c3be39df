import Dataman.LookupNavigation
import Dataman.NamedRemoval
import Dataman.RestoredPositions

/-!
# INCLUDE and GET

`include` takes its key from the end of the message, without the last byte. `get` takes its key from the
middle of the message, up to the next separator. The two keys differ if a separator is part of the key.
-/

namespace Dataman.Lookups
open ByteFiles FixedWidthFields FieldText PageTree IndexFile DataFile
open Server (Text bar splitField nextField splitField_eq nextField_eq answer printed fail)

/-! ## `include` and `get` -/

/-- How many bytes of the text are the key. The length of the text is unsigned, so that the one of an empty
text is not limited by the text. -/
def includeLength (keylen : ℕ) (text : Text) : ℕ := if cstr text = [] then keylen else min ((cstr text).length - 1) keylen

/-- The key that `include` puts together. -/
def includedKey (keylen : ℕ) (text : Text) : Bytes :=
  (keyBuffer text).take (includeLength keylen text)++List.replicate (keylen - includeLength keylen text) 0

/-- `include` from the record pointer on, for a file of the destination index. -/
def includeEntry (keylen : ℕ) (tracked : ℤ) (fileno : ℕ) (cptr : Text) (f : Bytes) : Server.Reply × Bytes :=
  match nextField cptr with
  | none => (fail Server.eInvMsg,f)
  | some text =>
    if tracked < 0 then (fail tracked,f)
    else
      let ikey := includedKey keylen text
      let record := (strtoll cptr % 2 ^ 64).toNat
      let out := indexV2Insert ikey fileno record { bytes := f }
      match out.1 with
      | .error _ => (fail Server.eNodWrt,out.2.bytes)
      | .ok (cursor,_) =>
        (answer (printed [0,1,cursor.generation,cursor.nodeOffset,cursor.entryIndex]++ikey ++
          UInt8.ofNat (fileno+1)::putBE 8 record) none,out.2.bytes)

/-- `get`, for at most `n` iterations. -/
def get (keylen n : ℕ) (calls : ℕ → Calls) (text : Text) (db : Database) : Progress :=
  match (nextField text).bind splitField with
  | none => .ended (.code eInvMsg) db
  | some (key,_) =>
    if keylen < key.length then .ended (.code eInvMsg) db
    else Request.loop (.get key) (rmKeyRemover calls) calls n db []

/-! ## Messages -/

/-- INCLUDE from the record pointer on. -/
def includeText (record : ℕ) (k : Bytes) : Text := decimal record++bar::(k++[bar])

def getText (idxno : Text) (k : Bytes) : Text := idxno++bar::(k++[bar])

/-- What `get` takes for the key. -/
def getField (k : Bytes) : Bytes := k.takeWhile (· ≠ bar)

/-- The entry that `include` is to store. -/
def storedComposite (keylen : ℕ) (k : Bytes) (fileno record : ℕ) : Composite := ⟨k++List.replicate (keylen - k.length) 0,fileno,record⟩

/-- The answer is a record whose key begins with `k`, and is `k` if that is as long as keys are. -/
def Finds (keylen : ℕ) (k : Bytes) : Progress → Prop
  | .ended (.record _ _ entry _ _) _ => k <+: entry.key ∧ (k.length = keylen → entry.key = k)
  | _ => False

/-- Every record that an entry points to has a format in its header, as INSERT writes it. -/
def Formatted (keylen : ℕ) (db : Database) : Prop :=
  ∀ e∈entries db.index,flagAt db.files (getU16 e keylen) (getU64 e (keylen+2))≠some 0

variable {n keylen fileno record : ℕ} {fileNames : List Bytes} {f g : Bytes} {hd : Header} {k e : Bytes} {r : Request}
  {db : Database} {calls : ℕ → Calls} {tracked : ℤ} {idxno : Text}

theorem getText_split (hk : (0 : UInt8)∉k) : ∃ tail,splitField (k++[bar]) = some (getField k,tail) := by
  have hfield : ∀ b∈getField k,b≠bar ∧ b≠0 := by
    intro b hb
    refine ⟨by simpa using List.mem_takeWhile_imp hb,?_⟩
    rintro rfl
    exact hk ((List.takeWhile_subset _) hb)
  have hsplit : k = getField k++k.dropWhile (· ≠ bar) := (List.takeWhile_append_dropWhile).symm
  cases hdrop : k.dropWhile (· ≠ bar) with
  | nil =>
    refine ⟨[],?_⟩
    rw [hdrop,List.append_nil] at hsplit
    nth_rewrite 1 [hsplit]
    exact splitField_eq hfield
  | cons b rest =>
    have hb : b = bar := by
      have hhead := List.head?_dropWhile_not (fun b : UInt8 => decide (b≠bar)) k
      rw [hdrop] at hhead
      simpa using hhead
    refine ⟨rest++[bar],?_⟩
    rw [hdrop,hb] at hsplit
    nth_rewrite 1 [hsplit]
    rw [List.append_assoc,List.cons_append]
    exact splitField_eq hfield

theorem includedKey_eq (hk : PlainKey keylen k) : includedKey keylen (k++[bar]) = k++List.replicate (keylen - k.length) 0 := by
  have hlen := hk.length
  have hcstr : cstr (k++[bar]) = k++[bar] := by
    rw [cstr,List.takeWhile_eq_self_iff]
    intro b hb
    rw [decide_eq_true_iff]
    rintro rfl
    rcases List.mem_append.1 hb with hb | hb
    · exact hk.zero hb
    · exact absurd hb (by decide)
  have hlength : includeLength keylen (k++[bar]) = k.length := by
    rw [includeLength,hcstr,if_neg (by simp),List.length_append,List.length_singleton,Nat.add_sub_cancel,Nat.min_eq_left hlen]
  rw [includedKey,hlength,keyBuffer,List.append_assoc,List.take_left' rfl]

/-! ## What GET returns -/

/-- A loop that returns a record has come to one that can be returned. -/
theorem Request.loop_record (hcount : fileNames.length < 2 ^ 16) (hr : Reachable keylen fileNames db.index)
    (hh : indexV2ReadHeader db.index = some hd) (hready : r.Ready db.index hd (entries db.index)) (hsmooth : r.Smooth calls n db)
    (hformat : Formatted keylen db) {len : ℤ} {fmt rec : ℕ} {entry : Found} {data : Bytes} {db' : Database}
    (hloop : r.loop (rmKeyRemover calls) calls n db [] = .ended (.record len fmt entry rec data) db') :
    r.Returns calls n db ∧ entry.key.length = keylen := by
  induction n generalizing db hd with
  | zero => cases hloop
  | succ n ih =>
    obtain ⟨rfl,hnd,hlength,hfinds,hmissing⟩ := Request.find_cases hcount hr hh hready
    rcases hfinds with ⟨hcands,hfind⟩ | ⟨e,rest,cursor,hcands,hmem,hfind⟩
    · rw [Request.loop,hfind,hmissing] at hloop
      cases hloop
    · obtain ⟨⟨member,file,flag,hread⟩,hremoved⟩ := hsmooth _ hfind
      have hlen := hlength e hmem
      have hm : Meets r hd.keylen (calls n) db e (foundEntry (lookupContext hd) cursor e) member file flag :=
        ⟨hfind,hready.record _,entry_foundEntry hlen cursor,fits_foundEntry hlen cursor,hread⟩
      have hzero : flag≠0 := by
        rintro rfl
        exact hformat e hmem hm.flagAt_eq
      rw [hm.loop_eq] at hloop
      rw [hm.returns_iff]
      by_cases hdel : deleted flag
      · obtain ⟨hlt,hsmooth'⟩ := hremoved (hm.answer_zero (.inl hdel))
        obtain ⟨hreach,hentries,hcontents,hd',hh',hkeylen,hgen⟩ := hm.dropped_spec hcount hr hh hlt
        rw [if_pos (hm.answer_zero (.inl hdel)),if_neg hzero] at hloop
        rw [if_pos hdel]
        apply ih hreach hh' _ hsmooth' _ hloop
        · rw [hentries]
          exact hready.removed hkeylen hgen hcands
        · intro x hx
          rw [hentries] at hx
          rw [flagAt_congr hcontents]
          exact hformat x (List.mem_of_mem_erase hx)
      · rw [if_neg (hm.answers_iff hdel hzero).1] at hloop
        rw [if_neg hdel]
        have hreply := (Progress.ended.inj hloop).1
        rcases hm.read.updIdx_cases (Bool.eq_false_iff.2 hdel) with ⟨-,code,hcode⟩ | ⟨hwhole,len',hrecord⟩
        · rw [hcode] at hreply
          cases hreply
        · rw [hrecord] at hreply
          obtain ⟨-,-,rfl,-⟩ := Reply.record.inj hreply
          exact ⟨hwhole,hm.fits.key_length⟩

theorem isPrefix_entry {entry : Found} (hlen : entry.key.length = keylen) (hk : k.length ≤ keylen) :
    k <+: entry.entry keylen ↔ k <+: entry.key := by
  rw [Found.entry,composite,List.append_assoc,List.take_of_length_le hlen.le]
  constructor
  · intro h
    exact List.prefix_of_prefix_length_le h (List.prefix_append _ _) (hk.trans hlen.ge)
  · intro h
    exact h.trans (List.prefix_append _ _)

/-- GET finds `k` if and only if the first entry that is not stale among those it looks for begins with `k`,
and its record can be returned. -/
theorem finds_loop_iff (hcount : fileNames.length < 2 ^ 16) (hr : Reachable keylen fileNames db.index) (hk : PlainKey keylen k)
    (hsmooth : (Request.get (getField k)).Smooth calls n db) (hformat : Formatted keylen db) (hn : (entries db.index).length < n) :
    Finds keylen k (Request.loop (.get (getField k)) (rmKeyRemover calls) calls n db []) ↔
      Request.Returns (.get (getField k)) calls n db ∧ ∃ e,Request.landed keylen db (.get (getField k)) = some e ∧ k <+: e := by
  cases hh : indexV2ReadHeader db.index with
  | none =>
    obtain ⟨m,rfl⟩ : ∃ m,n = m+1 := ⟨n - 1,by omega⟩
    have hfind : Request.find db.index (.get (getField k)) = none := indexV2Find_unreadable hh
    refine iff_of_false ?_ ?_
    · rw [Request.loop,hfind]
      exact fun h => h
    · rintro ⟨-,e,hlanded,-⟩
      rw [Request.landed,entries_unreadable hh] at hlanded
      cases hlanded
  | some hd =>
    obtain ⟨rfl,-⟩ := navigable_of_reachable hcount hr hh
    have hready : (Request.get (getField k)).Ready db.index hd (entries db.index) :=
      ⟨fun hzero => hk.zero (List.takeWhile_subset _ hzero),(List.takeWhile_sublist _).length_le.trans hk.length⟩
    have hskips := Request.loop_skips hcount hr hh hready hsmooth ((length_candidates_le _ _ _).trans_lt hn)
    have hrecord := fun len fmt entry rec data db' => @Request.loop_record n hd.keylen fileNames hd _ db calls hcount hr hh hready hsmooth
      hformat len fmt rec entry data db'
    generalize Request.loop (.get (getField k)) (rmKeyRemover calls) calls n db [] = out at hskips hrecord
    constructor
    · intro h
      cases out with
      | ended reply db' =>
        cases reply with
        | record len fmt entry rec data =>
          obtain ⟨hreturns,hlen⟩ := hrecord len fmt entry rec data db' rfl
          obtain ⟨-,reply,db',hout,hanswers⟩ := hskips.2 hreturns
          obtain ⟨rfl,-⟩ := Progress.ended.inj hout
          refine ⟨hreturns,?_⟩
          cases hlanded : Request.landed hd.keylen db (.get (getField k)) with
          | none =>
            rw [hlanded] at hanswers
            cases hanswers
          | some x =>
            rw [hlanded] at hanswers
            obtain ⟨len',fmt',entry',bytes,data',hreply,hentry,-⟩ := hanswers
            obtain ⟨-,-,rfl,-⟩ := Reply.record.inj hreply
            refine ⟨x,rfl,?_⟩
            rw [← hentry,isPrefix_entry hlen hk.length]
            exact h.1
        | code ret => exact h.elim
        | searching => exact h.elim
      | searching db' => exact h.elim
      | deadlocked db' => exact h.elim
    · rintro ⟨hreturns,e,hlanded,hpre⟩
      obtain ⟨-,reply,db',rfl,hanswers⟩ := hskips.2 hreturns
      rw [hlanded] at hanswers
      obtain ⟨len,fmt,entry,bytes,data,rfl,hentry,-⟩ := hanswers
      obtain ⟨-,hlen⟩ := hrecord _ _ _ _ _ _ rfl
      rw [← hentry,isPrefix_entry hlen hk.length] at hpre
      refine ⟨hpre,fun heq => ?_⟩
      exact (hpre.eq_of_length (heq.trans hlen.symm)).symm

/-! ## What INCLUDE stores -/

theorem storedComposite_fits (hk : PlainKey keylen k) (hfile : fileno < 2 ^ 16) (hrec : record < 2 ^ 63) :
    (storedComposite keylen k fileno record).Fits keylen := by
  have hlen := hk.length
  refine ⟨?_,hfile,lt_trans hrec (by decide)⟩
  rw [storedComposite,List.length_append,List.length_replicate]
  omega

theorem isPrefix_stored (hk : PlainKey keylen k) : k <+: (storedComposite keylen k fileno record).encode keylen := by
  have hlen := hk.length
  have hfull : (k++List.replicate (keylen - k.length) (0 : UInt8)).length ≤ keylen := by
    rw [List.length_append,List.length_replicate]
    omega
  rw [Composite.encode,storedComposite,composite,List.take_of_length_le hfull,List.append_assoc,List.append_assoc]
  exact List.prefix_append _ _

/-- An INCLUDE that succeeds has stored the key in full. -/
theorem includeEntry_run (hk : PlainKey keylen k) (hrec : record < 2 ^ 63) {reply : Server.Reply}
    (hinc : includeEntry keylen tracked fileno (includeText record k) f = (reply,g)) (hok : 0 < reply.code) :
    ∃ s,IndexFile.Request.run (.insert (storedComposite keylen k fileno record)) { bytes := f } = (.ok (),s) ∧ s.bytes = g := by
  have hdecimal : ∀ b∈decimal record,b≠bar ∧ b≠0 := by
    intro b hb
    have hdigit := decimal_digit hb
    constructor
    · rintro rfl
      exact absurd hdigit (by decide)
    · rintro rfl
      exact absurd hdigit (by decide)
  have hrecord : (strtoll (includeText record k) % 2 ^ 64).toNat = record := by
    rw [includeText,strtoll_decimal endsAny_bar hrec]
    omega
  have hnext : nextField (includeText record k) = some (k++[bar]) := nextField_eq hdecimal
  by_cases htracked : tracked < 0
  · simp only [includeEntry,hnext,if_pos htracked,Prod.mk.injEq] at hinc
    rw [← hinc.1] at hok
    exact absurd hok (not_lt.2 htracked.le)
  · simp only [includeEntry,hnext,if_neg htracked,includedKey_eq hk,hrecord] at hinc
    rcases hrun : indexV2Insert (k++List.replicate (keylen - k.length) 0) fileno record { bytes := f } with ⟨out,s⟩
    rw [hrun] at hinc
    cases out with
    | error fault =>
      rw [← (Prod.mk.inj hinc).1] at hok
      exact absurd hok (by decide)
    | ok found =>
      refine ⟨s,?_,(Prod.mk.inj hinc).2⟩
      exact FailState.run_bind_ok hrun

/-- The entry is there once the new root is in force. -/
theorem mem_stored (hcount : fileNames.length < 2 ^ 16) (hr : Reachable keylen fileNames f)
    (hfit : (storedComposite keylen k fileno record).Fits keylen) {s : IndexState}
    (hrun : IndexFile.Request.run (.insert (storedComposite keylen k fileno record)) { bytes := f } = (.ok (),s))
    (hnew : Renewed f s.bytes) : (storedComposite keylen k fileno record).encode keylen∈entries s.bytes := by
  obtain ⟨hd,hd',hh,hh',hgen⟩ := hnew
  obtain ⟨rfl,h,t,hn⟩ := navigable_of_reachable hcount hr hh
  have hserved : Served f (.insert (storedComposite hd.keylen k fileno record)) (.ok ()) s.bytes := by
    refine ⟨⟨s,hrun,rfl⟩,by simp,by simp,fun _ hd₀ hh₀ => ?_⟩
    obtain rfl := Option.some.inj (hh.symm.trans hh₀)
    exact ⟨hd',hh',hgen⟩
  cases good_of_reachable hcount hr with
  | building hb =>
    rw [readHeader_building hb.fixed] at hh
    cases hh
  | index hi =>
    obtain ⟨-,hwalk⟩ := hi.served (r := .insert (storedComposite hd.keylen k fileno record)) rfl hfit hn.walk hserved
    rw [entries,hwalk,Option.getD_some]
    exact (List.mem_orderedInsert _).2 (.inl rfl)

/-- A stored key without a separator leads GET to an entry that begins with it. -/
theorem landed_stored (hcount : fileNames.length < 2 ^ 16) (hr : Reachable keylen fileNames db.index) (hk : PlainKey keylen k)
    (hbar : bar∉k) (hmem : e∈entries db.index) (hpre : k <+: e) (hlive : ¬ Stale keylen db.files e) :
    ∃ x,Request.landed keylen db (.get (getField k)) = some x ∧ k <+: x := by
  have hfield : getField k = k := by
    rw [getField,List.takeWhile_eq_self_iff]
    intro b hb
    rw [decide_eq_true_iff]
    rintro rfl
    exact hbar hb
  cases hh : indexV2ReadHeader db.index with
  | none =>
    rw [entries_unreadable hh] at hmem
    cases hmem
  | some hd =>
    obtain ⟨rfl,h,t,hn⟩ := navigable_of_reachable hcount hr hh
    have hwants : ∀ x∈entries db.index,(Request.get k).wants hd.keylen x = true ↔ k <+: x := by
      intro x hx
      rw [entries,hn.walk,Option.getD_some] at hx
      have hlen : x.length = (lookupContext hd).entrySize := hn.entry_length hx
      rw [Request.wants,decide_eq_true_iff]
      exact matches_lookupKey hk hn.keylen_le (by rw [hlen]; exact Nat.le_add_right_of_le (Nat.le_add_right _ _))
    have hcand : e∈(Request.get k).candidates hd.keylen (entries db.index) := mem_candidates.2 ⟨hmem,(hwants e hmem).2 hpre⟩
    rw [hfield]
    cases hlanded : Request.landed hd.keylen db (.get k) with
    | none =>
      rw [Request.landed,List.head?_eq_none_iff,List.dropWhile_eq_nil_iff] at hlanded
      exact absurd (of_decide_eq_true (hlanded e hcand)) hlive
    | some x =>
      have hx := mem_candidates.1 ((List.dropWhile_sublist _).subset (List.mem_of_head? hlanded))
      exact ⟨x,rfl,(hwants x hx.1).1 hx.2⟩

/-! ## INCLUDE, then GET -/

/-- After an INCLUDE of `k` for a live record, with the I/O of the following GET succeeding: GET answers with a record whose key begins
with `k` if and only if the record it comes to can be returned and, where `k` has a separator in it, its key begins with `k`. -/
theorem include_get_iff (hcount : fileNames.length < 2 ^ 16) (hr : Reachable keylen fileNames db.index) (hk : PlainKey keylen k)
    (hfile : fileno < fileNames.length) (hrec : record < 2 ^ 63) (hidx : Field idxno) {reply : Server.Reply}
    (hinc : includeEntry keylen tracked fileno (includeText record k) db.index = (reply,g)) (hok : 0 < reply.code)
    (hnew : Renewed db.index g) (hlive : ¬ Stale keylen db.files ((storedComposite keylen k fileno record).encode keylen))
    (hsmooth : (Request.get (getField k)).Smooth calls n { db with index := g }) (hformat : Formatted keylen { db with index := g })
    (hn : (entries g).length < n) :
    Finds keylen k (get keylen n calls (getText idxno k) { db with index := g }) ↔
      Request.Returns (.get (getField k)) calls n { db with index := g } ∧
        (bar∈k → ∃ e,Request.landed keylen { db with index := g } (.get (getField k)) = some e ∧ k <+: e) := by
  obtain ⟨s,hrun,rfl⟩ := includeEntry_run hk hrec hinc hok
  have hfit := storedComposite_fits hk (hfile.trans hcount) hrec
  have hreach : Reachable keylen fileNames s.bytes :=
    .called (c := .request (.insert (storedComposite keylen k fileno record))) hr hfit hrun (by simp)
  have hmem := mem_stored hcount hr hfit hrun hnew
  obtain ⟨tail,hsplit⟩ := getText_split hk.zero
  have hshort : ¬ keylen < (getField k).length := not_lt.2 ((List.takeWhile_sublist _).length_le.trans hk.length)
  have hget : get keylen n calls (getText idxno k) { db with index := s.bytes } =
      Request.loop (.get (getField k)) (rmKeyRemover calls) calls n { db with index := s.bytes } [] := by
    simp only [get,getText,nextField_eq hidx,Option.bind_some,hsplit,if_neg hshort]
  rw [hget,finds_loop_iff hcount hreach hk hsmooth hformat hn]
  refine and_congr_right fun _ => ?_
  constructor
  · intro h _
    exact h
  · intro h
    by_cases hbar : bar∈k
    · exact h hbar
    · exact landed_stored hcount hreach hk hbar hmem (isPrefix_stored hk) hlive

/-! ## A second key for one record -/

/-- INCLUDE of `k` for the record of the sample has left this index, where GET then finds `x`. -/
structure SampleStored (k : Bytes) (x : Bytes) (g : Bytes) : Prop where
  done : ∃ reply,includeEntry 2 0 0 (includeText 12 k) sampleIndex = (reply,g) ∧ 0 < reply.code
  renewed : Renewed sampleIndex g
  entries_eq : entries g = [sampleEntry [0x61,0x62],sampleEntry k]
  find : (Request.find g (.get (getField k))).map (fun x => (x.fileId,x.recordOffset,x.key)) = some (0,12,x)

/-- The sample with another index. -/
def sampleWith (g : Bytes) : Database where
  index := g
  files := (sampleDatabase 1 1).files

theorem renewed_of_generation (h : (indexV2ReadHeader g).map (·.root.generation) = (indexV2ReadHeader f).map (·.root.generation+1))
    (hread : (indexV2ReadHeader f).isSome) : Renewed f g := by
  obtain ⟨hd,hh⟩ := Option.isSome_iff_exists.1 hread
  rw [hh,Option.map_some,Option.map_eq_some_iff] at h
  obtain ⟨hd',hh',hgen⟩ := h
  exact ⟨hd,hd',hh,hh',hgen⟩

theorem exists_sampleStored {x : Bytes} (hok : 0 < (includeEntry 2 0 0 (includeText 12 k) sampleIndex).1.code)
    (hgen : (indexV2ReadHeader (includeEntry 2 0 0 (includeText 12 k) sampleIndex).2).map (·.root.generation) =
      (indexV2ReadHeader sampleIndex).map (·.root.generation+1))
    (hread : (indexV2ReadHeader sampleIndex).isSome)
    (hentries : entries (includeEntry 2 0 0 (includeText 12 k) sampleIndex).2 = [sampleEntry [0x61,0x62],sampleEntry k])
    (hfind : (Request.find (includeEntry 2 0 0 (includeText 12 k) sampleIndex).2 (.get (getField k))).map
      (fun x => (x.fileId,x.recordOffset,x.key)) = some (0,12,x)) : ∃ g,SampleStored k x g :=
  ⟨_,⟨_,(Prod.mk.eta).symm,hok⟩,renewed_of_generation hgen hread,hentries,hfind⟩

theorem sampleStored_ac : ∃ g,SampleStored [0x61,0x63] [0x61,0x63] g := by
  apply exists_sampleStored
  · decide +kernel
  · decide +kernel
  · decide +kernel
  · decide +kernel
  · decide +kernel

theorem sampleStored_bar : ∃ g,SampleStored [0x61,0x7c] [0x61,0x62] g := by
  apply exists_sampleStored
  · decide +kernel
  · decide +kernel
  · decide +kernel
  · decide +kernel
  · decide +kernel

section Sample
variable {x : Bytes} (hs : SampleStored k x g) (hx : x.length = 2)
include hs hx

/-- The first entry that GET meets is for the record of the sample. -/
theorem SampleStored.meets : ∃ entry,Meets (.get (getField k)) 2 (sampleCalls n) (sampleWith g) (entry.entry 2) entry
    { disk := { bytes := sampleFile 1 1 },file := some ⟨10,[⟨1,false⟩],sample_formats⟩ } ⟨10,[⟨1,false⟩],sample_formats⟩ 1 ∧
      entry.recordOffset = 12 ∧ entry.key = x := by
  obtain ⟨entry,hfind,hfields⟩ := Option.map_eq_some_iff.1 hs.find
  simp only [Prod.mk.injEq] at hfields
  obtain ⟨hfile,hrecord,hkey⟩ := hfields
  have hfits : entry.composite.Fits 2 := by
    rw [Found.composite,hfile,hrecord,hkey]
    exact ⟨hx,show 0 < 2 ^ 16 by decide,show 12 < 2 ^ 64 by decide⟩
  refine ⟨entry,⟨hfind,rfl,rfl,hfits,?_⟩,hrecord,hkey⟩
  rw [hfile,hrecord]
  exact ⟨⟨Nat.zero_lt_one,Nat.lt_of_sub_eq_succ rfl⟩,rfl,rfl,show 12 < 2 ^ 63 by decide,rfl,rfl⟩

omit hs hx in
theorem sample_whole : Whole (sampleCalls n) 12 { disk := { bytes := sampleFile 1 1 },file := some ⟨10,[⟨1,false⟩],sample_formats⟩ }
    ⟨10,[⟨1,false⟩],sample_formats⟩ 1 :=
  ⟨⟨by decide,by decide⟩,by decide,rfl,rfl,by decide,fun h => by cases h⟩

theorem SampleStored.smooth : (Request.get (getField k)).Smooth sampleCalls (n+1) (sampleWith g) := by
  obtain ⟨entry,hm,-⟩ := hs.meets hx (n := n)
  intro entry' hfind
  obtain rfl := Option.some.inj (hm.find.symm.trans hfind)
  refine ⟨⟨_,_,_,hm.read⟩,fun hzero => ?_⟩
  exact absurd hzero (hm.answers_iff (by decide) (by decide)).1

theorem SampleStored.returns : (Request.get (getField k)).Returns sampleCalls (n+1) (sampleWith g) := by
  obtain ⟨entry,hm,hrecord,-⟩ := hs.meets hx (n := n)
  rw [hm.returns_iff,if_neg (by decide),hrecord]
  exact sample_whole

omit hx in
theorem SampleStored.formatted (hk : k.length = 2) : Formatted 2 (sampleWith g) := by
  have hentry : ∀ key : Bytes,key.length = 2 → getU16 (sampleEntry key) 2 = 0 ∧ getU64 (sampleEntry key) 4 = 12 := by
    intro key hkey
    exact ⟨getU16_composite hkey (show 0 < 2 ^ 16 by decide) 12,getU64_composite hkey (show 12 < 2 ^ 64 by decide)⟩
  intro e he
  rw [sampleWith,hs.entries_eq] at he
  have hfields : getU16 e 2 = 0 ∧ getU64 e 4 = 12 := by
    rcases List.mem_pair.1 he with rfl | rfl
    · exact hentry _ rfl
    · exact hentry _ hk
  rw [hfields.1,hfields.2]
  simp only [sampleWith]
  decide

end Sample

/-- GET of a second key finds it. -/
theorem include_get_iff_ac : ∃ reply g,includeEntry 2 0 0 (includeText 12 [0x61,0x63]) (sampleDatabase 1 1).index = (reply,g) ∧
    0 < reply.code ∧ Finds 2 [0x61,0x63] (get 2 3 sampleCalls (getText [0x30] [0x61,0x63]) { sampleDatabase 1 1 with index := g }) := by
  obtain ⟨g,hs⟩ := sampleStored_ac
  obtain ⟨reply,hinc,hok⟩ := hs.done
  have hk : PlainKey 2 [0x61,0x63] := ⟨by decide,by decide,by decide⟩
  have hfield : Field [0x30] := by simp [Field,bar]
  have hcount : [[(0x41 : UInt8)]].length < 2 ^ 16 := by decide
  have hlive : ¬ Stale 2 (sampleDatabase 1 1).files ((storedComposite 2 [0x61,0x63] 0 12).encode 2) := by decide +kernel
  have hn : (entries g).length < 3 := by
    rw [hs.entries_eq]
    decide
  have hsample : (sampleDatabase 1 1).index = sampleIndex := by simp only [sampleDatabase]
  have hnew := hs.renewed
  have hreach := sampleIndex_reachable
  rw [← hsample] at hinc hnew hreach
  refine ⟨reply,g,hinc,hok,?_⟩
  have hiff := @include_get_iff 3 2 0 12 [[0x41]] g [0x61,0x63] (sampleDatabase 1 1) sampleCalls 0 [0x30] hcount hreach hk Nat.zero_lt_one
    (by decide) hfield reply hinc hok hnew hlive (hs.smooth rfl) (hs.formatted rfl) hn
  rw [hiff]
  exact ⟨hs.returns rfl,fun hbar => absurd hbar (by decide)⟩

/-- GET of the key "a|" looks for "a", and returns the record with the key "ab". -/
theorem include_get_separator : PlainKey 2 [0x61,0x7c] ∧ Reachable 2 [[0x41]] sampleIndex ∧
    ∃ reply g,includeEntry 2 0 0 (includeText 12 [0x61,0x7c]) sampleIndex = (reply,g) ∧ 0 < reply.code ∧
      sampleEntry [0x61,0x7c]∈entries g ∧ ¬ Stale 2 (sampleWith g).files (sampleEntry [0x61,0x7c]) ∧
      ∃ len fmt entry rec data db',get 2 3 sampleCalls (getText [0x30] [0x61,0x7c]) (sampleWith g) =
        .ended (.record len fmt entry rec data) db' ∧ entry.key = [0x61,0x62] := by
  obtain ⟨g,hs⟩ := sampleStored_bar
  obtain ⟨reply,hinc,hok⟩ := hs.done
  refine ⟨⟨by decide,by decide,by decide⟩,sampleIndex_reachable,reply,g,hinc,hok,?_,?_,?_⟩
  · rw [hs.entries_eq]
    exact List.mem_cons_of_mem _ List.mem_cons_self
  · simp only [sampleWith]
    decide +kernel
  · obtain ⟨entry,hm,hoff,hkey⟩ := hs.meets rfl (n := 2)
    have hget : get 2 3 sampleCalls (getText [0x30] [0x61,0x7c]) (sampleWith g) =
        Request.loop (.get (getField [0x61,0x7c])) (rmKeyRemover sampleCalls) sampleCalls 3 (sampleWith g) [] := rfl
    rw [hget,hm.loop_eq,if_neg (hm.answers_iff (by decide) (by decide)).1]
    rcases hm.read.updIdx_cases rfl with ⟨hnot,-⟩ | ⟨-,len,hrecord⟩
    · rw [hoff] at hnot
      exact absurd sample_whole hnot
    · rw [hrecord]
      exact ⟨_,_,_,_,_,_,rfl,hkey⟩

end Dataman.Lookups

import Dataman.IndexTemplates
import Dataman.LookupLoops

/-!
# What lookups find

The entries that a request asks for, in its order. A search finds the first of them, and
`upd_idx` answers with its record.
-/

namespace Dataman.Lookups
open ByteFiles FixedWidthFields PageTree IndexFile DataFile

variable {keylen : ℕ} {r : Request} {f : Bytes} {hd : Header} {h : ℕ} {t : Summary Bytes} {calls : ℕ → Calls} {L : List Bytes} {e : Bytes}

/-! ## Candidates -/

/-- The key of GET, filled up with zeros. -/
def lookupKey (keylen : ℕ) (key : Bytes) : Bytes := (key++List.replicate maxKeySize 0).take keylen

/-- The entries that a request asks for. -/
def Request.wants (keylen : ℕ) (e : Bytes) : Request → Bool
  | get key => decide (Matches (lookupKey keylen key) e)
  | getFirst | getLast => true
  | getNext _ key fileId record => decide (composite keylen key fileId record < e)
  | getPrior _ key fileId record => decide (e < composite keylen key fileId record)
  | getCurrent key fileId record | restore _ key fileId record => decide (e = composite keylen key fileId record)

/-- The order in which it meets them. -/
def Request.forward : Request → Bool
  | getLast | getPrior _ _ _ _ => false
  | _ => true

def Request.candidates (keylen : ℕ) (L : List Bytes) (r : Request) : List Bytes :=
  ordered r.forward (L.filter fun e => r.wants keylen e)

/-- The fields of a request that has a loop: the key of GET is a string, and a neighbour is asked of an entry
with a hint that is not from the future. -/
def Request.Ready (f : Bytes) (hd : Header) (L : List Bytes) : Request → Prop
  | get key => (0 : UInt8)∉key ∧ key.length ≤ hd.keylen
  | getFirst | getLast => True
  | getNext hint key fileId record | getPrior hint key fileId record =>
    Composite.Fits hd.keylen ⟨key,fileId,record⟩ ∧ composite hd.keylen key fileId record∈L ∧ LiveHint f hd hint ∧
      hint.generation ≤ hd.root.generation
  | getCurrent _ _ _ | restore _ _ _ _ => False

theorem mem_candidates : e∈r.candidates keylen L ↔ e∈L ∧ r.wants keylen e = true := by
  rw [Request.candidates,ordered]
  split
  · exact List.mem_filter
  · rw [List.mem_reverse]
    exact List.mem_filter

theorem nodup_candidates (hnd : L.Nodup) : (r.candidates keylen L).Nodup := by
  rw [Request.candidates,ordered]
  split
  · exact hnd.filter _
  · exact List.nodup_reverse.2 (hnd.filter _)

/-- Without its first candidate, a request goes on with the next. -/
theorem candidates_erase {rest : List Bytes} (hnd : L.Nodup) (h : r.candidates keylen L = e::rest) :
    r.candidates keylen (L.erase e) = rest := by
  have hfilter : (L.erase e).filter (fun e => r.wants keylen e) = (L.filter fun e => r.wants keylen e).filter (· ≠ e) := by
    rw [hnd.erase_eq_filter,List.filter_filter,List.filter_filter]
    congr 1
    funext x
    rw [Bool.and_comm,bne,Bool.beq_eq_decide_eq]
    simp
  have hmove : r.candidates keylen (L.erase e) = (r.candidates keylen L).filter (· ≠ e) := by
    rw [Request.candidates,Request.candidates,hfilter,ordered,ordered]
    split
    · rfl
    · rw [List.filter_reverse]
  have hnot := (List.nodup_cons.1 (h ▸ nodup_candidates hnd)).1
  rw [hmove,h,List.filter_cons_of_neg (by simp),List.filter_eq_self]
  intro x hx
  simp only [ne_eq,decide_eq_true_eq]
  rintro rfl
  exact hnot hx

/-! ## Finding the first candidate -/

theorem filter_gt_sorted (hs : L.Pairwise (· < ·)) {j : ℕ} (hj : L[j]? = some e) :
    L.filter (fun x => decide (e < x)) = L.drop (j+1) := by
  induction L generalizing j with
  | nil => simp at hj
  | cons a L ih =>
    obtain ⟨ha,hs⟩ := List.pairwise_cons.1 hs
    cases j with
    | zero =>
      obtain rfl : a = e := by simpa using hj
      rw [List.filter_cons_of_neg (by simp),List.drop_succ_cons,List.drop_zero,List.filter_eq_self]
      exact fun x hx => decide_eq_true (ha x hx)
    | succ j =>
      rw [List.getElem?_cons_succ] at hj
      have hlt := ha e (List.mem_of_getElem? hj)
      rw [List.filter_cons_of_neg (by simpa using hlt.le),ih hs hj,List.drop_succ_cons]

theorem filter_lt_sorted (hs : L.Pairwise (· < ·)) {j : ℕ} (hj : L[j]? = some e) :
    L.filter (fun x => decide (x < e)) = L.take j := by
  induction L generalizing j with
  | nil => simp at hj
  | cons a L ih =>
    obtain ⟨ha,hs⟩ := List.pairwise_cons.1 hs
    cases j with
    | zero =>
      obtain rfl : a = e := by simpa using hj
      rw [List.filter_cons_of_neg (by simp),List.take_zero,List.filter_eq_nil_iff]
      intro x hx
      simpa using (ha x hx).le
    | succ j =>
      rw [List.getElem?_cons_succ] at hj
      have hlt := ha e (List.mem_of_getElem? hj)
      rw [List.filter_cons_of_pos (by simpa using hlt),ih hs hj,List.take_succ_cons]

theorem neighbour_eq_head (hs : L.Pairwise (· < ·)) {j : ℕ} (hj : L[j]? = some e) (forward : Bool) :
    neighbour forward L j =
      (ordered forward (L.filter fun x => if forward then decide (e < x) else decide (x < e))).head? := by
  cases forward with
  | true =>
    simp only [ordered,if_true]
    rw [filter_gt_sorted hs hj,List.head?_drop]
    rfl
  | false =>
    simp only [ordered,Bool.false_eq_true,if_false]
    have hlt := (List.getElem?_eq_some_iff.1 hj).1
    rw [filter_lt_sorted hs hj,List.head?_reverse,List.getLast?_take]
    simp only [neighbour,Bool.false_eq_true,if_false]
    split
    · rfl
    · rename_i hne
      rw [List.getElem?_eq_getElem (by omega),Option.some_or]

/-- The result of a search for the first of some entries. -/
def FindsHead (hd : Header) (L cands : List Bytes) (found : Option Found) : Prop :=
  (cands = [] ∧ found = none) ∨ ∃ e rest cursor,cands = e::rest ∧ e∈L ∧ found = some (foundEntry (lookupContext hd) cursor e)

theorem FindsHead.of_head {cands : List Bytes} {found : Option Found} {x : Option Bytes} (hx : cands.head? = x)
    (h : (x = none ∧ found = none) ∨ ∃ e cursor,x = some e ∧ e∈L ∧ found = some (foundEntry (lookupContext hd) cursor e)) :
    FindsHead hd L cands found := by
  subst hx
  rcases h with ⟨hnone,rfl⟩ | ⟨e,cursor,hsome,he,rfl⟩
  · exact .inl ⟨List.head?_eq_none_iff.1 hnone,rfl⟩
  · obtain ⟨rest,hrest⟩ := List.head?_eq_some_iff.1 hsome
    exact .inr ⟨e,rest,cursor,hrest,he,rfl⟩

theorem lookupKey_template {key : Bytes} (hzero : (0 : UInt8)∉key) (hlen : key.length ≤ keylen) (hmax : keylen ≤ maxKeySize) :
    Template keylen (lookupKey keylen key) := by
  constructor
  · simp only [lookupKey,List.length_take,List.length_append,List.length_replicate]
    omega
  · intro i j hij hi
    have hge : key.length ≤ i := by
      by_contra hlt
      have hget : (lookupKey keylen key).getD i 0 = key[i] := by
        rw [lookupKey,List.getD_eq_getElem?_getD,List.getElem?_take_of_lt (by omega),List.getElem?_append_left (by omega),
          List.getElem?_eq_getElem (by omega),Option.getD_some]
      rw [hget] at hi
      exact hzero (hi ▸ List.getElem_mem _)
    rw [lookupKey,List.getD_eq_getElem?_getD,List.getElem?_take]
    split
    · rw [List.getElem?_append_right (by omega),List.getElem?_replicate]
      split <;> rfl
    · rfl

theorem indexV2Find_take (f key : Bytes) (hh : indexV2ReadHeader f = some hd) (exact : Bool) (fileId record : ℕ) :
    indexV2Find f (key.take hd.keylen) exact fileId record = indexV2Find f key exact fileId record := by
  simp only [indexV2Find,hh,Option.bind_eq_bind,Option.bind_some,composite,List.take_take,Nat.min_self]

/-- An entry of the index is found. -/
theorem find_exact (hn : Navigable f hd h t) {c : Composite} (hc : c.Fits hd.keylen)
    (hmem : c.encode hd.keylen∈t.entries) : ∃ cursor,Names f hd cursor (c.encode hd.keylen) ∧
      indexV2Find f c.key true c.fileId c.record = some (foundEntry (lookupContext hd) cursor (c.encode hd.keylen)) := by
  have hlen : (c.encode hd.keylen).length = (lookupContext hd).entrySize := Navigable.encode_length hc
  have hsome := (v2FindEntry_exact (Nat.lt_succ_of_lt hn.height) hn.tree hn.sorted hlen
    (((c.encode hd.keylen).take hd.keylen).findIdx (· = 0))).2 hmem
  obtain ⟨x,hx⟩ := Option.isSome_iff_exists.1 hsome
  obtain ⟨cursor,rfl⟩ := v2FindEntry_target hlen hx
  have hfind : indexV2Find f c.key true c.fileId c.record = some (foundEntry (lookupContext hd)
      { cursor with generation := hd.root.generation } (c.encode hd.keylen)) := by
    rw [hn.off] at hx
    simp only [indexV2Find,hn.header,Option.bind_eq_bind,Option.bind_some,guard_eq_ite,hn.keylen_le,if_true,forall_const,
      hn.file_lt hc hmem,findTarget,Bool.true_eq_false,false_and,if_false,Option.pure_def]
    rw [Composite.encode] at hx ⊢
    rw [hx]
    rfl
  refine ⟨_,?_,hfind⟩
  have hnames := hn.find_names hfind
  rwa [show (foundEntry (lookupContext hd) { cursor with generation := hd.root.generation } (c.encode hd.keylen)).entry hd.keylen =
    c.encode hd.keylen from entry_foundEntry hlen _] at hnames

theorem find_exact_notMem (hn : Navigable f hd h t) {c : Composite} (hc : c.Fits hd.keylen)
    (hnot : c.encode hd.keylen∉t.entries) : indexV2Find f c.key true c.fileId c.record = none := by
  cases hfind : indexV2Find f c.key true c.fileId c.record with
  | none => rfl
  | some x =>
    simp only [indexV2Find,hn.header,Option.bind_eq_bind,Option.bind_some,Option.bind_eq_some_iff,findTarget,Bool.true_eq_false,
      false_and,if_false,if_true] at hfind
    obtain ⟨-,-,-,-,y,hy,-⟩ := hfind
    rw [← hn.off] at hy
    exact absurd ((v2FindEntry_exact (Nat.lt_succ_of_lt hn.height) hn.tree hn.sorted (Navigable.encode_length hc) _).1
      (Option.isSome_of_eq_some hy)) hnot

/-- A request finds its first candidate. -/
theorem Request.find_head (hn : Navigable f hd h t) {h' : ℕ} {t' : Summary Bytes} (hx : Searchable f hd h' t')
    (hready : r.Ready f hd t.entries) : FindsHead hd t.entries (r.candidates hd.keylen t.entries) (r.find f) := by
  cases r with
  | get key =>
    obtain ⟨hzero,hlen⟩ := hready
    obtain ⟨result,hsought,hrun⟩ := hx.find_sought (lookupKey_template hzero hlen hn.keylen_le) 0 0
    have hentries : t'.entries = t.entries := Option.some.inj (hx.walk.symm.trans hn.walk)
    rw [Request.find,← indexV2Find_take f _ hn.header]
    rw [lookupKey] at hrun
    rw [hrun]
    apply FindsHead.of_head (x := t.entries.find? fun e => decide (Matches (lookupKey hd.keylen key) e))
    · exact List.head?_filter
    · rw [hentries] at hsought
      cases hsought with
      | missed hnone => exact .inl ⟨hnone,rfl⟩
      | @met e o i es hfirst leaf place =>
        exact .inr ⟨e,⟨hd.root.generation,o,i⟩,hfirst,List.mem_of_find?_eq_some hfirst,rfl⟩
  | getFirst =>
    apply FindsHead.of_head (x := edge false t.entries)
    · simp [Request.candidates,Request.wants,Request.forward,ordered,edge]
    · rcases hn.descendTree_answer false with ⟨hnone,hrun⟩ | ⟨e,cursor,hedge,hnames,hrun⟩
      · exact .inl ⟨hnone,hrun⟩
      · exact .inr ⟨e,cursor,hedge,List.mem_of_head? hedge,hrun⟩
  | getLast =>
    apply FindsHead.of_head (x := edge true t.entries)
    · simp [Request.candidates,Request.wants,Request.forward,ordered,edge]
    · rcases hn.descendTree_answer true with ⟨hnone,hrun⟩ | ⟨e,cursor,hedge,hnames,hrun⟩
      · exact .inl ⟨hnone,hrun⟩
      · exact .inr ⟨e,cursor,hedge,List.mem_of_getLast? hedge,hrun⟩
  | getNext hint key fileId record =>
    obtain ⟨hfit,hmem,hlive,-⟩ := hready
    obtain ⟨j,hj⟩ := List.getElem?_of_mem hmem
    apply FindsHead.of_head (neighbour_eq_head hn.sorted hj true).symm
    rcases hn.answer (hn.adjacent_answer true hfit hj hlive) with ⟨hnone,hrun⟩ | ⟨e,cursor,hsome,he,-,hrun⟩
    · exact .inl ⟨hnone,hrun⟩
    · exact .inr ⟨e,cursor,hsome,he,hrun⟩
  | getPrior hint key fileId record =>
    obtain ⟨hfit,hmem,hlive,-⟩ := hready
    obtain ⟨j,hj⟩ := List.getElem?_of_mem hmem
    apply FindsHead.of_head (neighbour_eq_head hn.sorted hj false).symm
    rcases hn.answer (hn.adjacent_answer false hfit hj hlive) with ⟨hnone,hrun⟩ | ⟨e,cursor,hsome,he,-,hrun⟩
    · exact .inl ⟨hnone,hrun⟩
    · exact .inr ⟨e,cursor,hsome,he,hrun⟩
  | getCurrent key fileId record => exact hready.elim
  | restore saved key fileId record => exact hready.elim

theorem Request.Ready.fits (hready : r.Ready f hd L) : r.Fits hd.keylen := by
  cases r with
  | get key => trivial
  | getFirst => trivial
  | getLast => trivial
  | getNext hint key fileId record => exact hready.1
  | getPrior hint key fileId record => exact hready.1
  | getCurrent key fileId record => exact hready.elim
  | restore saved key fileId record => exact hready.elim

theorem Request.Ready.record (hready : r.Ready f hd L) (entry : Found) : r.record entry = entry.recordOffset := by
  cases r with
  | restore saved key fileId record => exact hready.elim
  | _ => rfl

/-- At the end of the candidates the answer is 0. -/
theorem Request.Ready.missing (hn : Navigable f hd h t) (hready : r.Ready f hd t.entries) : r.missing f = .code 0 := by
  cases r with
  | getNext hint key fileId record =>
    obtain ⟨cursor,-,hfind⟩ := find_exact hn hready.1 hready.2.1
    rw [Request.missing,hfind,Option.isSome_some,if_pos rfl]
  | getPrior hint key fileId record =>
    obtain ⟨cursor,-,hfind⟩ := find_exact hn hready.1 hready.2.1
    rw [Request.missing,hfind,Option.isSome_some,if_pos rfl]
  | _ => rfl

/-! ## Reading a record -/

theorem contents_getD {files : List (Option Member)} {i : ℕ} {data : Member} (h : files.getD i none = some data) :
    (contents files).getD i none = some data.disk.bytes := by
  rw [List.getD_eq_getElem?_getD] at h
  rw [contents,List.getD_eq_getElem?_getD,List.getElem?_map]
  cases hi : files[i]? with
  | none => simp [hi] at h
  | some x =>
    rw [hi,Option.getD_some] at h
    rw [h]
    rfl

/-- `upd_idx` comes as far as the header of the record, which begins with this byte. -/
structure HeaderRead (calls : Calls) (fileId rec : ℕ) (files : List (Option Member)) (data : Member) (file : Files)
    (flag : UInt8) : Prop where
  file_lt : fileId < files.length ∧ fileId < 255
  member : files.getD fileId none = some data
  desc : data.file.elim calls.desc .ok = .ok file
  record_lt : rec < 2 ^ 63
  reads : data.disk.failures.headD false = false
  header : (readAt data.disk.bytes rec headerLength).bind List.head? = some flag

/-- The record behind that header can be returned. -/
structure Whole (calls : Calls) (rec : ℕ) (data : Member) (file : Files) (flag : UInt8) : Prop where
  format : 1 ≤ flag.toNat ∧ flag.toNat ≤ file.formats.length
  length : 1 ≤ (file.format flag.toNat).rfLen
  alloc : calls.alloc = true
  reads : data.disk.failures.tail.headD false = false
  inside : rec+headerLength+(file.format flag.toNat).rfLen ≤ data.disk.bytes.length
  blobs : (file.format flag.toNat).hasBlob = true → 0 ≤ calls.blobs

section Record

variable {call : Calls} {fileId rec : ℕ} {files : List (Option Member)} {data : Member} {file : Files} {flag : UInt8}

theorem HeaderRead.flagAt_eq (hread : HeaderRead call fileId rec files data file flag) :
    flagAt files fileId rec = some flag := by
  rw [flagAt,hread.member]
  exact hread.header

theorem HeaderRead.unique (hread : HeaderRead call fileId rec files data file flag) {data' : Member} {file' : Files} {flag' : UInt8}
    (hread' : HeaderRead call fileId rec files data' file' flag') : data = data' ∧ file = file' ∧ flag = flag' := by
  obtain rfl := Option.some.inj (hread.member.symm.trans hread'.member)
  obtain rfl := Except.ok.inj (hread.desc.symm.trans hread'.desc)
  exact ⟨rfl,rfl,Option.some.inj (hread.header.symm.trans hread'.header)⟩

/-- The descriptor behind the header. -/
def behindHeader (rec : ℕ) (d : Disk) : Disk := ⟨d.bytes,rec+headerLength,d.failures.tail⟩

theorem HeaderRead.tryRead_eq (hread : HeaderRead call fileId rec files data file flag) (disk : Disk)
    (hbytes : disk.bytes = data.disk.bytes) (hfails : disk.failures = data.disk.failures) :
    ∃ rest,tryRead headerLength (llseek (offset rec) disk).2 =
      (.ok (some (flag::rest)),behindHeader rec data.disk) := by
  obtain ⟨name,hname,hhead⟩ := Option.bind_eq_some_iff.1 hread.header
  have hlen := length_of_readAt hname
  obtain ⟨rest,rfl⟩ := List.head?_eq_some_iff.1 hhead
  refine ⟨rest,?_⟩
  have hslice := (readAt_eq_some.1 hname).2
  simp only [llseek,FailState.modify,offset_eq hread.record_lt,Int.natCast_nonneg,if_true,Int.toNat_natCast,tryRead,hfails,
    hread.reads,Bool.false_eq_true,if_false,hbytes,hslice,hlen,behindHeader]

theorem le_foldl_max {l : List ℕ} {a x : ℕ} (h : x ≤ a ∨ x∈l) : x ≤ l.foldl max a := by
  induction l generalizing a with
  | nil => simpa using h
  | cons b l ih =>
    apply ih
    rcases h with h | h
    · exact .inl (h.trans (le_max_left a b))
    · rcases List.mem_cons.1 h with rfl | h
      · exact .inl (le_max_right a x)
      · exact .inr h

theorem le_longest {fmt : ℕ} (h : 1 ≤ fmt ∧ fmt ≤ file.formats.length) : (file.format fmt).rfLen ≤ longest file := by
  apply le_foldl_max
  right
  rw [Files.format,List.getD_eq_getElem?_getD,List.getElem?_eq_getElem (by omega),Option.getD_some]
  exact List.mem_map_of_mem (List.getElem_mem _)

/-- The record, if it can be returned, or an error. -/
theorem readData_cases (entry : Found) (hpos : 1 ≤ flag.toNat) :
    let out := readData call file flag.toNat entry rec (behindHeader rec data.disk)
    (¬ Whole call rec data file flag ∧ ∃ code,out.1 = .code code) ∨
    (Whole call rec data file flag ∧ ∃ len,out.1 = .record len flag.toNat entry rec
      (slice data.disk.bytes (rec+headerLength) (file.format flag.toNat).rfLen)) := by
  intro out
  simp only [out,readData,behindHeader]
  split
  · rename_i h
    exact .inl ⟨fun hw => absurd hw.format.2 (by omega),_,rfl⟩
  · rename_i hformat
    have hfmt : 1 ≤ flag.toNat ∧ flag.toNat ≤ file.formats.length := ⟨hpos,by omega⟩
    have hlong := le_longest hfmt
    split
    · exact .inl ⟨fun hw => absurd hw.length (by omega),_,rfl⟩
    · split
      · rename_i halloc
        exact .inl ⟨fun hw => halloc hw.alloc,_,rfl⟩
      · rename_i hlength halloc
        rw [not_not] at halloc
        simp only [tryRead]
        by_cases hfails : data.disk.failures.tail.headD false = true
        · simp only [hfails,if_true]
          refine .inl ⟨fun hw => ?_,_,rfl⟩
          have := hw.reads
          rw [hfails] at this
          cases this
        · rw [if_neg hfails]
          by_cases hinside : rec+headerLength+(file.format flag.toNat).rfLen ≤ data.disk.bytes.length
          · simp only [length_slice_of_le hinside,if_true]
            have hwhole : ((file.format flag.toNat).hasBlob = true → 0 ≤ call.blobs) → Whole call rec data file flag :=
              fun hblobs => ⟨hfmt,by omega,halloc,by simpa using hfails,hinside,hblobs⟩
            by_cases hblob : (file.format flag.toNat).hasBlob = true
            · rw [if_pos hblob]
              by_cases hneg : call.blobs < 0
              · rw [if_pos hneg]
                exact .inl ⟨fun hw => absurd (hw.blobs hblob) (by omega),_,rfl⟩
              · rw [if_neg hneg]
                exact .inr ⟨hwhole fun _ => by omega,_,rfl⟩
            · rw [if_neg hblob]
              exact .inr ⟨hwhole fun h => absurd h hblob,_,rfl⟩
          · have hshort : (slice data.disk.bytes (rec+headerLength) (file.format flag.toNat).rfLen).length ≠
                (file.format flag.toNat).rfLen := by
              rw [length_slice]
              omega
            rw [if_neg hshort]
            exact .inl ⟨fun hw => hinside hw.inside,_,rfl⟩

/-- What `upd_idx` answers once it has the header. -/
theorem HeaderRead.updIdx_eq {entry : Found} (hread : HeaderRead call entry.fileId rec files data file flag) :
    (updIdx call entry rec files).1 = (if deleted flag ∨ flag = 0 then .code 0 else
      (readData call file flag.toNat entry rec (behindHeader rec data.disk)).1) ∧
    updIdxKeeps call entry rec files = decide (flag = 0) := by
  obtain ⟨hlt,hfile⟩ := hread.file_lt
  obtain ⟨rest,htry⟩ := hread.tryRead_eq
    (if data.file.isSome then data.disk else { data.disk with pos := file.hlen+2 }) (by split <;> rfl) (by split <;> rfl)
  have hcond : ¬ (files.length ≤ entry.fileId ∨ 255 ≤ entry.fileId) := by omega
  constructor
  · simp only [updIdx,hcond,if_false,hread.member,hread.desc,checkRec,htry,List.headD_cons]
    by_cases hdel : deleted flag
    · simp [hdel]
    · by_cases hzero : flag = 0
      · simp [hzero]
      · have hpos : ¬ ((flag.toNat : ℤ) ≤ 0) := by
          have : flag.toNat≠0 := fun h => hzero (UInt8.toNat_inj.1 h)
          omega
        simp only [hdel,hzero,hpos,if_false,Bool.false_eq_true,or_self,Int.toNat_natCast]
  · simp only [updIdxKeeps,hcond,if_false,hread.member,hread.desc,checkRecKeeps,htry,List.headD_cons]
    rfl

/-- The answer about a record that does not carry the deleted bit. -/
theorem HeaderRead.updIdx_cases {entry : Found} (hread : HeaderRead call entry.fileId rec files data file flag)
    (hlive : deleted flag = false) :
    (¬ Whole call rec data file flag ∧ ∃ code,(updIdx call entry rec files).1 = .code code) ∨
    (Whole call rec data file flag ∧ ∃ len,(updIdx call entry rec files).1 = .record len flag.toNat entry rec
      (slice data.disk.bytes (rec+headerLength) (file.format flag.toNat).rfLen)) := by
  rw [hread.updIdx_eq.1]
  by_cases hzero : flag = 0
  · refine .inl ⟨?_,0,by rw [if_pos (.inr hzero)]⟩
    intro hwhole
    have hpos := hwhole.format.1
    rw [hzero] at hpos
    exact absurd hpos (by decide)
  · rw [if_neg (by simp [hlive,hzero])]
    exact readData_cases entry (Nat.one_le_iff_ne_zero.2 fun h => hzero (UInt8.toNat_inj.1 h))

end Record

end Dataman.Lookups

import Dataman.IndexEntries
import Dataman.IndexNavigation

/-!
# Enumerating an index

From the first entry on, each call for the next one returns the next entry of the
in-order walk, with a cursor that names its place in the current tree.
-/

namespace Dataman.IndexFile
open ByteFiles FixedWidthFields FailState PageTree

variable {f : Bytes} {hd : Header} {h : ℕ} {t : Summary Bytes} {forward : Bool}

/-! ## Entries as they are returned -/

def Found.entry (keylen : ℕ) (x : Found) : Bytes := composite keylen x.key x.fileId x.recordOffset

def Found.composite (x : Found) : Composite := ⟨x.key,x.fileId,x.recordOffset⟩

variable {ctx : Context} {e : Bytes}

theorem entry_foundEntry (he : e.length = ctx.entrySize) (cursor : Cursor) :
    (foundEntry ctx cursor e).entry ctx.keylen = e := by
  rw [Context.entrySize] at he
  have hid : putU16 (getU16 e ctx.keylen) = slice e ctx.keylen 2 := by
    have hb := putBE_getBE (slice e ctx.keylen 2)
    rwa [show (slice e ctx.keylen 2).length = 2 from length_slice_of_le (by omega)] at hb
  have hrec : putU64 (getU64 e (ctx.keylen+2)) = slice e (ctx.keylen+2) 8 := by
    have hb := putBE_getBE (slice e (ctx.keylen+2) 8)
    rwa [show (slice e (ctx.keylen+2) 8).length = 8 from length_slice_of_le (by omega)] at hb
  have hlast : slice e (ctx.keylen+2) 8 = e.drop (ctx.keylen+2) := by
    rw [slice,List.take_of_length_le (by simp; omega)]
  simp only [Found.entry,foundEntry,IndexFile.composite,hid,hrec,List.take_take,Nat.min_self]
  rw [hlast,slice,List.append_assoc,← List.drop_drop,List.take_append_drop,List.take_append_drop]

theorem fits_foundEntry (he : e.length = ctx.entrySize) (cursor : Cursor) :
    (foundEntry ctx cursor e).composite.Fits ctx.keylen := by
  rw [Context.entrySize] at he
  have hfield : ∀ off n,off+n ≤ e.length → getBE (slice e off n) < 256 ^ n := by
    intro off n hn
    have hlt := getBE_lt (slice e off n)
    rwa [show (slice e off n).length = n from length_slice_of_le hn] at hlt
  constructor
  · simp [Found.composite,foundEntry]
    omega
  · exact (hfield ctx.keylen 2 (by omega)).trans_eq (by decide)
  · exact (hfield (ctx.keylen+2) 8 (by omega)).trans_eq (by decide)

/-! ## Trees that can be navigated -/

/-- The tree under the root that the header names, as a lookup reads it. -/
structure Navigable (f : Bytes) (hd : Header) (h : ℕ) (t : Summary Bytes) : Prop where
  header : indexV2ReadHeader f = some hd
  keylen_le : hd.keylen ≤ 32
  off : t.off = hd.root.rootOffset
  tree : Tree (lookupContext hd) f h t
  height : h < f.length
  sorted : t.entries.Pairwise (· < ·)
  files : FilesIn (lookupContext hd) t.entries
  generation_pos : 0 < hd.root.generation
  walk : walk f = some t.entries

variable {keylen : ℕ} {fileNames : List Bytes}

theorem navigable_of_reachable (hcount : fileNames.length < 2 ^ 16)
    (hr : Reachable keylen fileNames f) (hh : indexV2ReadHeader f = some hd) :
    hd.keylen = keylen ∧ ∃ h t,Navigable f hd h t := by
  cases filed_of_reachable hcount hr with
  | @index first hi hs =>
    obtain ⟨hkl,-,h,t,hcur⟩ := hi.current hh
    obtain ⟨-,hfc⟩ := hi.header_fields hh
    have hcongr := v2LoadNode_congr (show (newContext keylen fileNames false).keylen = (lookupContext hd).keylen from
      hkl.symm) f
    have hfiles := hs.current hi hcur
    refine ⟨hkl,h,t,hh,?_,hcur.off,?_,hcur.rooted.height_lt_length hi.toLayout,hcur.rooted.sorted,?_,
      (hi.generation hh).1,hcur.walk hi⟩
    · rw [hkl]
      exact hi.toLayout.keylen_le
    · rw [Tree,← hcongr]
      exact hcur.rooted.tree
    · intro x hx
      have hx := hfiles x hx
      rw [← hkl,← hfc] at hx
      exact hx
  | building hb => simp [readHeader_building hb.fixed] at hh

/-- The cursor names the leaf of the current tree, and the position in it, that hold `x`. -/
structure Names (f : Bytes) (hd : Header) (cursor : Cursor) (x : Bytes) : Prop where
  generation : cursor.generation = hd.root.generation
  leaf : ∃ es,LeafBelow (v2LoadNode (lookupContext hd) f) hd.root.rootOffset cursor.nodeOffset es ∧
    es[cursor.entryIndex]? = some x

/-- A hint that is not of the current generation, or names a leaf of the current tree. -/
abbrev LiveHint (f : Bytes) (hd : Header) : Cursor → Prop :=
  Live (lookupContext hd) f hd.root.generation hd.root.rootOffset

variable {cursor : Cursor}

theorem Names.live {x : Bytes} (hn : Names f hd cursor x) : LiveHint f hd cursor := by
  intro _
  obtain ⟨es,hleaf,_⟩ := hn.leaf
  exact ⟨es,hleaf⟩

variable {i : ℕ} {found : Option Found} {c : Composite} {hint : Cursor}

namespace Navigable

theorem entry_length (hn : Navigable f hd h t) {x : Bytes} (hx : x∈t.entries) :
    x.length = (lookupContext hd).entrySize := hn.tree.entry_length x hx

theorem leaf_mem (hn : Navigable f hd h t) {o : ℕ} {es : List Bytes} {x : Bytes}
    (hleaf : LeafBelow (v2LoadNode (lookupContext hd) f) t.off o es) (hi : es[i]? = some x) : x∈t.entries := by
  obtain ⟨A,B,hAB⟩ := hn.tree.leaf_between hleaf
  rw [hAB]
  simp [List.mem_of_getElem? hi]

/-- What an answer is, once the data files are known. -/
theorem answer (hn : Navigable f hd h t) {x : Option Bytes}
    (ha : Answer (lookupContext hd) f hd.root.generation t.off x found) :
    (x = none ∧ found = none) ∨ ∃ e cursor,x = some e ∧ e∈t.entries ∧ Names f hd cursor e ∧
      found = some (foundEntry (lookupContext hd) cursor e) := by
  cases ha with
  | none => exact .inl ⟨rfl,rfl⟩
  | @some e o i es leaf place =>
    have hmem := hn.leaf_mem leaf place
    refine .inr ⟨e,⟨hd.root.generation,o,i⟩,rfl,hmem,⟨rfl,es,?_,place⟩,?_⟩
    · rw [← hn.off]
      exact leaf
    · have hfile : getU16 e (lookupContext hd).keylen < (lookupContext hd).fileCount := hn.files e hmem
      simp [v2SetCursorEntry,guard_eq_ite,hfile]

theorem adjacent_eq (hn : Navigable f hd h t) (hid : c.fileId < hd.fileCount) (hint : Cursor) :
    v2FindAdjacent f c.key c.fileId c.record hint forward =
      (hintedEntry (lookupContext hd) f hd.root.generation (c.encode hd.keylen) hint forward).or
        (searchedEntry (lookupContext hd) f hd.root.generation t.off (c.encode hd.keylen) forward) := by
  simp only [v2FindAdjacent,hn.header,Option.bind_eq_bind,Option.bind_some,guard_eq_ite,
    if_pos (show hd.keylen ≤ 32 ∧ c.fileId < hd.fileCount from ⟨hn.keylen_le,hid⟩),hn.off,Composite.encode]

theorem encode_length (hc : c.Fits hd.keylen) :
    (c.encode hd.keylen).length = (lookupContext hd).entrySize :=
  length_composite c.fileId c.record hc.key_length.ge

theorem file_lt (hn : Navigable f hd h t) (hc : c.Fits hd.keylen)
    (hmem : c.encode hd.keylen∈t.entries) : c.fileId < hd.fileCount := by
  have hfile : getU16 (c.encode hd.keylen) hd.keylen < hd.fileCount := hn.files _ hmem
  rwa [Composite.encode,getU16_composite hc.key_length hc.fileId_lt] at hfile

/-- The neighbour of an entry, whatever live hint is given. -/
theorem adjacent_answer (forward : Bool) (hn : Navigable f hd h t) (hc : c.Fits hd.keylen) {j : ℕ}
    (hj : t.entries[j]? = some (c.encode hd.keylen)) (hl : LiveHint f hd hint) :
    Answer (lookupContext hd) f hd.root.generation t.off (neighbour forward t.entries j)
      (v2FindAdjacent f c.key c.fileId c.record hint forward) := by
  rw [hn.adjacent_eq (hn.file_lt hc (List.mem_of_getElem? hj))]
  cases hf : hintedEntry (lookupContext hd) f hd.root.generation (c.encode hd.keylen) hint forward with
  | none =>
    rw [Option.none_or]
    exact searchedEntry_answer hn.height hn.tree hn.sorted (encode_length hc) hj
  | some found =>
    rw [Option.some_or]
    obtain ⟨j',hj',ha⟩ := hintedEntry_live hn.tree (encode_length hc) (hn.off ▸ hl) hf
    rwa [index_unique hn.sorted hj hj']

/-- The first and the last entry. -/
theorem descendTree_answer (hn : Navigable f hd h t) (last : Bool) :
    (edge last t.entries = none ∧ v2DescendTree last f = none) ∨ ∃ e cursor,edge last t.entries = some e ∧
      Names f hd cursor e ∧ v2DescendTree last f = some (foundEntry (lookupContext hd) cursor e) := by
  obtain ⟨o,es,hrun,hleaf,hedge⟩ := descendEdge_eq last (Nat.lt_succ_of_lt hn.height) hn.tree
  rw [hn.off] at hrun hleaf
  simp only [v2DescendTree,hn.header,Option.bind_eq_bind,Option.bind_some,hrun,guard_eq_ite]
  rw [← hedge]
  by_cases hes : es = []
  · exact .inl ⟨edge_eq_none.2 hes,by simp [hes]⟩
  · obtain ⟨e,he⟩ := Option.ne_none_iff_exists'.1 fun h0 => hes (edge_eq_none.1 h0)
    have hplace := he
    rw [edge_eq_getElem?] at hplace
    refine .inr ⟨e,⟨hd.root.generation,o,if last then es.length - 1 else 0⟩,he,⟨rfl,es,hleaf,hplace⟩,?_⟩
    simp [hes,hplace]

end Navigable

/-! ## Whole enumerations -/

/-- Go on with the entry and the cursor just returned. -/
def Found.step (f : Bytes) (forward : Bool) (x : Found) : Option Found :=
  v2FindAdjacent f x.key x.fileId x.recordOffset x.cursor forward

theorem Navigable.encode_foundEntry (hn : Navigable f hd h t) (he : e∈t.entries) (cursor : Cursor) :
    (foundEntry (lookupContext hd) cursor e).composite.encode hd.keylen = e :=
  entry_foundEntry (hn.entry_length he) cursor

/-- Stepping from a returned entry gives the next one in that direction. -/
theorem Navigable.step_answer (hn : Navigable f hd h t) (hc : Names f hd cursor e)
    (hi : (ordered forward t.entries)[i]? = some e) :
    Answer (lookupContext hd) f hd.root.generation t.off (ordered forward t.entries)[i+1]?
      ((foundEntry (lookupContext hd) cursor e).step f forward) := by
  obtain ⟨j,hj,hnext⟩ := neighbour_ordered hi
  have hmem := List.mem_of_getElem? hj
  rw [← hnext]
  apply hn.adjacent_answer forward (fits_foundEntry (hn.entry_length hmem) cursor) _ hc.live
  rw [hn.encode_foundEntry hmem,hj]

theorem Navigable.visits_from (hn : Navigable f hd h t) {n : ℕ}
    (hlen : (ordered forward t.entries).length ≤ i+n)
    (ha : Answer (lookupContext hd) f hd.root.generation t.off (ordered forward t.entries)[i]? found) :
    ∃ xs,Visits (Found.step f forward) found xs ∧
      xs.map (Found.entry hd.keylen) = (ordered forward t.entries).drop i := by
  induction n generalizing i found with
  | zero =>
    rw [List.getElem?_eq_none (by omega)] at ha
    cases ha
    exact ⟨[],.fail,by rw [List.drop_eq_nil_of_le (by omega)]; rfl⟩
  | succ n ih =>
    obtain ⟨hnone,rfl⟩ | ⟨e,cursor,hsome,hmem,hnames,rfl⟩ := hn.answer ha
    · rw [List.getElem?_eq_none_iff] at hnone
      exact ⟨[],.fail,by rw [List.drop_eq_nil_of_le hnone]; rfl⟩
    · obtain ⟨xs,hxs,hmap⟩ := ih (by omega) (hn.step_answer hnames hsome)
      refine ⟨_,.pass hxs,?_⟩
      obtain ⟨hlt,hget⟩ := List.getElem?_eq_some_iff.1 hsome
      rw [List.map_cons,hmap,List.drop_eq_getElem_cons hlt,hget]
      exact congrArg (· :: _) (entry_foundEntry (hn.entry_length hmem) cursor)

/-- From one end to the other, and then no further. -/
theorem Navigable.visits (hn : Navigable f hd h t) (forward : Bool) :
    ∃ xs,Visits (Found.step f forward) (v2DescendTree (!forward) f) xs ∧
      xs.map (Found.entry hd.keylen) = ordered forward t.entries := by
  have hends := hn.descendTree_answer (!forward)
  rw [edge_eq_ordered] at hends
  obtain ⟨hnone,hrun⟩ | ⟨e,cursor,hsome,hnames,hrun⟩ := hends
  · rw [List.getElem?_eq_none_iff,Nat.le_zero] at hnone
    rw [hrun,List.eq_nil_of_length_eq_zero hnone]
    exact ⟨[],.fail,rfl⟩
  · obtain ⟨xs,hxs,hmap⟩ := hn.visits_from (n := (ordered forward t.entries).length) (by omega)
      (hn.step_answer hnames hsome)
    obtain ⟨hlt,hget⟩ := List.getElem?_eq_some_iff.1 hsome
    obtain ⟨j,hj,_⟩ := neighbour_ordered hsome
    rw [hrun]
    refine ⟨_,.pass hxs,?_⟩
    rw [List.map_cons,hmap]
    conv_rhs => rw [← List.drop_zero (l := ordered forward t.entries),List.drop_eq_getElem_cons hlt,hget]
    exact congrArg (· :: _) (entry_foundEntry (hn.entry_length (List.mem_of_getElem? hj)) cursor)

variable {x : Found}

/-- The lookups of an index, with hints that are live. -/
inductive Returns (f : Bytes) (hd : Header) : Found → Prop
  | first {x : Found} (h : indexV2First f = some x) : Returns f hd x
  | last {x : Found} (h : indexV2Last f = some x) : Returns f hd x
  | find {x : Found} {key : Bytes} {exact : Bool} {fileId record : ℕ} (h : indexV2Find f key exact fileId record = some x) :
      Returns f hd x
  | next {x : Found} {c : Composite} {hint : Cursor} (fits : c.Fits hd.keylen) (live : LiveHint f hd hint)
      (h : indexV2Next f c.key c.fileId c.record hint = some x) : Returns f hd x
  | prior {x : Found} {c : Composite} {hint : Cursor} (fits : c.Fits hd.keylen) (live : LiveHint f hd hint)
      (h : indexV2Prior f c.key c.fileId c.record hint = some x) : Returns f hd x

variable {key : Bytes}

theorem Navigable.find_names (hn : Navigable f hd h t) {exact : Bool} {fileId record : ℕ}
    (hx : indexV2Find f key exact fileId record = some x) : Names f hd x.cursor (x.entry hd.keylen) := by
  simp only [indexV2Find,hn.header,Option.bind_eq_bind,Option.bind_some,Option.bind_eq_some_iff] at hx
  obtain ⟨_,_,_,_,y,hy,hx⟩ := hx
  obtain ⟨o,es,i,e,hleaf,hi,rfl⟩ := findTarget_located hy
  obtain rfl := Option.some.inj hx
  rw [← hn.off] at hleaf
  have hmem := hn.leaf_mem hleaf hi
  have he : (foundEntry (lookupContext hd) ⟨hd.root.generation,o,i⟩ e).entry hd.keylen = e :=
    entry_foundEntry (hn.entry_length hmem) _
  refine ⟨rfl,es,hn.off ▸ hleaf,?_⟩
  exact hi.trans (congrArg some he.symm)

/-- The file after inserting a key for record 12. -/
def withKey (f key : Bytes) : Bytes := (Request.run (.insert ⟨key,0,12⟩) { bytes := f }).2.bytes

/-- The leaf with `aa` and `ac` is copied to take `ab`; the old copy stays in its page. -/
def staleSample : Bytes :=
  withKey (withKey (withKey (indexV2CreateEmpty 2 [[0x41]] { bytes := [] }).2.bytes [0x61,0x61]) [0x61,0x63])
    [0x61,0x62]

theorem withKey_reachable (hr : Reachable 2 [[0x41]] f) (hk : key.length = 2)
    (hrun : (Request.run (.insert ⟨key,0,12⟩) { bytes := f }).1 = .ok ()) : Reachable 2 [[0x41]] (withKey f key) := by
  have hfit : Call.Fits 2 (.request (.insert ⟨key,0,12⟩)) := ⟨hk,Nat.two_pow_pos 16,by simp [Request.composite]⟩
  exact .called hr hfit (run_eq hrun) (by simp)

theorem staleSample_reachable : Reachable 2 [[0x41]] staleSample := by
  have h0 : Reachable 2 [[0x41]] (indexV2CreateEmpty 2 [[0x41]] { bytes := [] }).2.bytes :=
    .created (run_eq createSample_ok)
  have h1 := @withKey_reachable _ [0x61,0x61] h0 rfl (by decide +kernel)
  have h2 := @withKey_reachable _ [0x61,0x63] h1 rfl (by decide +kernel)
  exact withKey_reachable h2 rfl (by decide +kernel)

/-- The entry of a key of the sample. -/
def sampleEntry (key : Bytes) : Bytes := Composite.encode 2 ⟨key,0,12⟩

theorem staleSample_walk :
    walk staleSample = some [sampleEntry [0x61,0x61],sampleEntry [0x61,0x62],sampleEntry [0x61,0x63]] := by
  decide +kernel

theorem staleSample_header : ∃ hd,indexV2ReadHeader staleSample = some hd := by
  have hwalk := staleSample_walk
  simp only [walk,Option.bind_eq_bind,Option.bind_eq_some_iff] at hwalk
  obtain ⟨hd,hh,-⟩ := hwalk
  exact ⟨hd,hh⟩

/-- The parts of an answer without its cursor. -/
def Found.answer (x : Found) : Bytes × ℕ × ℕ := (x.key,x.fileId,x.recordOffset)

/-- If the page of the hint is used, the entry beside `e` there is the one beside it in the index. -/
def HintAgrees (f : Bytes) (hd : Header) (L : List Bytes) (e : Bytes) (hint : Cursor) (forward : Bool) : Prop :=
  hint.generation = hd.root.generation → ∀ es x,
    v2LoadNode (lookupContext hd) f hint.nodeOffset = some ⟨true,es,[]⟩ → es[hint.entryIndex]? = some e →
    neighbour forward es hint.entryIndex = some x → getU16 x hd.keylen < hd.fileCount →
    ∃ j,L[j]? = some e ∧ neighbour forward L j = some x

theorem Navigable.hintAgrees (hn : Navigable f hd h t) (hl : LiveHint f hd hint) :
    HintAgrees f hd t.entries e hint forward := by
  intro hgen es x hload hat hnext _
  obtain ⟨es',hleaf⟩ := hl hgen
  obtain rfl : es' = es := by simpa using hleaf.load.symm.trans hload
  rw [← hn.off] at hleaf
  exact neighbour_of_leaf hn.tree hleaf hat hnext

theorem Navigable.live_zero (hn : Navigable f hd h t) (hz : hint.generation = 0) :
    LiveHint f hd hint := by
  intro hgen
  have := hn.generation_pos
  omega

theorem answer_foundEntry_inj {e' : Bytes} {cursor' : Cursor} (he : e.length = ctx.entrySize)
    (he' : e'.length = ctx.entrySize) (h : (foundEntry ctx cursor e).answer = (foundEntry ctx cursor' e').answer) :
    e = e' := by
  simp only [Found.answer,Prod.mk.injEq] at h
  rw [← entry_foundEntry he cursor,← entry_foundEntry he' cursor',Found.entry,Found.entry,h.1,h.2.1,h.2.2]

/-- A hint changes no answer exactly when its page, if it is used at all, has the right
neighbour; a page of the current tree has. -/
theorem hint_answer_iff {keylen : ℕ} {fileNames : List Bytes} (hcount : fileNames.length < 2 ^ 16)
    (hr : Reachable keylen fileNames f) (hh : indexV2ReadHeader f = some hd) {L : List Bytes} (hw : walk f = some L)
    {c : Composite} (hc : c.Fits keylen) (hmem : c.encode keylen∈L) (hint plain : Cursor)
    (hplain : plain.generation = 0) (forward : Bool) :
    ((v2FindAdjacent f c.key c.fileId c.record hint forward).map Found.answer =
        (v2FindAdjacent f c.key c.fileId c.record plain forward).map Found.answer ↔
      HintAgrees f hd L (c.encode keylen) hint forward) ∧
    (LiveHint f hd hint → HintAgrees f hd L (c.encode keylen) hint forward) := by
  obtain ⟨rfl,h,t,hn⟩ := navigable_of_reachable hcount hr hh
  obtain rfl : L = t.entries := Option.some.inj (hw.symm.trans hn.walk)
  refine ⟨?_,fun hl => hn.hintAgrees hl⟩
  obtain ⟨j,hj⟩ := List.getElem?_of_mem hmem
  have hplainAnswer := hn.answer (hn.adjacent_answer forward hc hj (hn.live_zero hplain))
  have hlen := Navigable.encode_length hc
  constructor
  · intro heq hgen es x hload hat hnext hfile
    obtain ⟨s,hhinted⟩ := hintedEntry_of_leaf hgen hload hat hnext
    have hxlen : x.length = (lookupContext hd).entrySize :=
      (nodeOk_of_load hload).entry_length x (mem_of_neighbour hnext)
    have hset : v2SetCursorEntry (lookupContext hd) ⟨hd.root.generation,hint.nodeOffset,s⟩ x =
        some (foundEntry (lookupContext hd) ⟨hd.root.generation,hint.nodeOffset,s⟩ x) := by
      have hfile : getU16 x (lookupContext hd).keylen < (lookupContext hd).fileCount := hfile
      simp [v2SetCursorEntry,guard_eq_ite,hfile]
    rw [hn.adjacent_eq (hn.file_lt hc hmem),hhinted,hset,Option.some_or] at heq
    obtain ⟨_,hnone⟩ | ⟨e,cursor,hsome,he,_,hfound⟩ := hplainAnswer
    · rw [hnone] at heq
      cases heq
    · rw [hfound] at heq
      obtain rfl := answer_foundEntry_inj hxlen (hn.entry_length he) (Option.some.inj heq)
      exact ⟨j,hj,hsome⟩
  · intro hagrees
    rw [hn.adjacent_eq (hn.file_lt hc hmem) hint]
    cases hf : hintedEntry (lookupContext hd) f hd.root.generation (c.encode hd.keylen) hint forward with
    | none =>
      have hpos := hn.generation_pos
      rw [hn.adjacent_eq (hn.file_lt hc hmem) plain,hintedEntry_other (by omega)]
    | some found =>
      obtain ⟨hgen,es,s,x,hload,hat,_,hnext,hset⟩ := hintedEntry_eq_some hlen hf
      simp only [v2SetCursorEntry,Option.bind_eq_bind,Option.bind_eq_some_iff,guard_eq_some] at hset
      obtain ⟨_,hfile,hfound⟩ := hset
      obtain rfl := Option.some.inj hfound
      obtain ⟨j',hj',hx⟩ := hagrees hgen es x hload hat hnext hfile
      obtain rfl := index_unique hn.sorted hj hj'
      obtain ⟨hnone,_⟩ | ⟨e,cursor,hsome,_,_,hplainFound⟩ := hplainAnswer
      · rw [hx] at hnone
        cases hnone
      · obtain rfl : x = e := Option.some.inj (hx.symm.trans hsome)
        rw [hplainFound]
        rfl

/-- With a hint of the current generation to the superseded copy, `ab` is passed over. -/
theorem stale_hint_skips : Reachable 2 [[0x41]] staleSample ∧
    (indexV2Next staleSample [0x61,0x61] 0 12 ⟨4,960,0⟩).map Found.answer = some ([0x61,0x63],0,12) ∧
    (indexV2Next staleSample [0x61,0x61] 0 12 ⟨0,960,0⟩).map Found.answer = some ([0x61,0x62],0,12) :=
  ⟨staleSample_reachable,by decide +kernel,by decide +kernel⟩

theorem hint_answer_iff_sample : ∃ hd L,indexV2ReadHeader staleSample = some hd ∧ walk staleSample = some L ∧
    ¬ HintAgrees staleSample hd L (sampleEntry [0x61,0x61]) ⟨4,960,0⟩ true := by
  obtain ⟨hd,hh⟩ := staleSample_header
  have hfit : Composite.Fits 2 ⟨[0x61,0x61],0,12⟩ := ⟨rfl,Nat.two_pow_pos 16,by simp⟩
  refine ⟨hd,_,hh,staleSample_walk,?_⟩
  have hiff := (hint_answer_iff (by decide) staleSample_reachable hh staleSample_walk hfit (by simp [sampleEntry])
    ⟨4,960,0⟩ ⟨0,960,0⟩ rfl true).1
  exact hiff.not.1 (by decide +kernel)

end Dataman.IndexFile

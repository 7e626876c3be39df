import Dataman.IndexBuild

/-!
# The names behind the header of an index

The names of the data files are written behind the header and found again by their zeros. The writer takes what 32 bits
can count, the reader no more than 1024 * 1024 bytes.
-/

namespace Dataman.IndexFile
open ByteFiles FixedWidthFields Checksum FailState

/-- The names are cut at their zeros and have to end with the last one. -/
def splitNames : ℕ → Bytes → Option (List Bytes)
  | 0,rest => if rest = [] then some [] else none
  | count+1,rest =>
    match rest.dropWhile (· ≠ 0) with
    | [] => none
    | _::more => (splitNames count more).map (rest.takeWhile (· ≠ 0) :: ·)

def indexV2ReadFileNames (f : Bytes) (fileCount : ℕ) : Option (List Bytes) := do
  let header ← readAt f 0 128
  let namesLength := getU32 header 16
  guard (¬ (namesLength < fileCount ∨ namesLength > 1024*1024))
  let names ← readAt f 128 namesLength
  splitNames fileCount names

variable {keylen root : ℕ} {fileNames : List Bytes} {s s' : IndexState} {f : Bytes}

theorem splitNames_namesBytes (hnul : ∀ name∈fileNames,0∉name) :
    splitNames fileNames.length (namesBytes fileNames) = some fileNames := by
  induction fileNames with
  | nil => rfl
  | cons name names ih =>
    have hname : ∀ b∈name,decide (b≠0) = true := by
      intro b hb
      apply decide_eq_true
      rintro rfl
      exact hnul name List.mem_cons_self hb
    have htext : namesBytes (name::names) = name++0::namesBytes names := by simp [namesBytes]
    have hdrop : (name++0::namesBytes names).dropWhile (· ≠ 0) = 0::namesBytes names := by
      rw [List.dropWhile_append_of_pos hname]
      rfl
    have htake : (name++0::namesBytes names).takeWhile (· ≠ 0) = name := by
      rw [List.takeWhile_append_of_pos hname,List.takeWhile_cons_of_neg (by decide),List.append_nil]
    rw [List.length_cons,splitNames,htext,hdrop,htake]
    dsimp only
    rw [ih fun n hn => hnul n (List.mem_cons_of_mem _ hn)]
    rfl

/-! ## A created file -/

/-- What creation leaves in the header, and behind it. -/
structure Named (keylen : ℕ) (fileNames : List Bytes) (root : ℕ) (f : Bytes) : Prop extends Published f where
  root_eq : root = rootOf keylen fileNames
  keylen_eq : getU16 f 12 = keylen
  fileCount_eq : getU16 f 14 = fileNames.length
  namesLength_eq : getU32 f 16 = namesTotal fileNames
  pageSize_eq : getU16 f 20 = indexV2PageSize keylen
  slot0 : slot0 f = readSlot (slotBytes ⟨root,(indexV2Crc32 emptyLeafHead).toNat,1⟩)
  slot1 : slot1 f = none
  names : readAt f 128 (namesTotal fileNames) = some (namesBytes fileNames)

theorem rootOf_ge (hk : keylen ≤ 32) (fileNames : List Bytes) : 128+namesTotal fileNames ≤ rootOf keylen fileNames := by
  have hb := pageSize_bounds hk
  exact le_roundUp (by omega)

theorem publishable_root (hc : Creatable keylen fileNames) :
    Slot.Publishable ⟨rootOf keylen fileNames,(indexV2Crc32 emptyLeafHead).toNat,1⟩ := by
  have hge := rootOf_ge hc.keylen.2 fileNames
  have hle := rootOf_le hc
  simp only [int64Max] at hle
  exact ⟨by dsimp only; omega,by dsimp only; omega,(indexV2Crc32 emptyLeafHead).isLt,le_rfl,by dsimp only; omega⟩

theorem Laid.named (hc : Creatable keylen fileNames) (h : Laid keylen fileNames 0 f) :
    Named keylen fileNames (rootOf keylen fileNames)
      (writeAt (writeAt f (rootOf keylen fileNames) (pageBytes (newContext keylen fileNames false) ⟨true,[],[]⟩)) 32
        (slotBytes ⟨rootOf keylen fileNames,(indexV2Crc32 emptyLeafHead).toNat,1⟩)) := by
  have hge := rootOf_ge hc.keylen.2 fileNames
  have hlen := h.length
  set page := pageBytes (newContext keylen fileNames false) ⟨true,[],[]⟩
  set slot := slotBytes ⟨rootOf keylen fileNames,(indexV2Crc32 emptyLeafHead).toNat,1⟩
  have hslot : slot.length = 32 := length_slotBytes _
  have hpage := length_le_writeAt f (rootOf keylen fileNames) page
  have hh := h.header.congr (slice_writeAt_disjoint f (rootOf keylen fileNames) page 0 128 (by omega) (by omega))
  have hnames := slice_writeAt_disjoint f (rootOf keylen fileNames) page 128 (namesTotal fileNames) (by omega) (by omega)
  rw [h.names] at hnames
  generalize writeAt f (rootOf keylen fileNames) page = g at hpage hh hnames
  have hgl : 128 ≤ g.length := by omega
  have hout := length_le_writeAt g 32 slot
  have hu (off : ℕ) (ho : off+2 ≤ 32) : getU16 (writeAt g 32 slot) off = getU16 g off := getU16_writeAt (by omega) (by omega)
  obtain ⟨h0,h1,-,-⟩ := slots_writeAt_slot hgl hslot
  refine ⟨⟨by omega,(fixedFields_writeAt hgl (by omega) _).trans hh.fixed,?_,?_⟩,rfl,(hu 12 (by omega)).trans hh.keylen,
    (hu 14 (by omega)).trans hh.fileCount,?_,(hu 20 (by omega)).trans hh.pageSize,h0,h1.trans hh.slot1,?_⟩
  · rw [hu 12 (by omega),hh.keylen]
    exact Nat.pos_of_ne_zero hc.keylen.1
  · rw [hu 14 (by omega),hh.fileCount]
    exact Nat.pos_of_ne_zero hc.fileCount
  · rw [getU32,slice_writeAt_disjoint _ _ _ _ _ (by omega) (by omega)]
    exact hh.names
  · rw [readAt_of_le (by omega),slice_writeAt_disjoint _ _ _ _ _ (by omega) (by omega),hnames]

theorem indexV2CreateEmpty_named (hcount : fileNames.length < 2 ^ 16) :
    wp (indexV2CreateEmpty keylen fileNames) s
      (fun root s' => Creatable keylen fileNames ∧ Named keylen fileNames root s'.bytes)
      (fun _ _ => ¬ Creatable keylen fileNames) := by
  apply v2CreateEmpty_laid hcount fun h => h
  intro hc f s' hlaid _ hbytes
  have hp := publishable_root hc
  simp only [recordRoot,Bool.false_eq_true,if_false,wp_bind,wp_publishRoot hp,wp_pure,hbytes]
  exact ⟨hc,hlaid.named hc⟩

/-! ## Reading it back -/

/-- The header, the page size and the names are read as they were given, and the root page is behind the names. -/
structure RoundTrip (keylen : ℕ) (fileNames : List Bytes) (root : ℕ) (f : Bytes) : Prop where
  header : ∃ slot,indexV2ReadHeader f = some ⟨keylen,fileNames.length,slot⟩ ∧ slot.generation = 1
  pageSize : ∃ size,indexV2ReadPageSize f keylen = some size
  names : indexV2ReadFileNames f fileNames.length = some fileNames
  behind : 128+namesTotal fileNames ≤ root

theorem Named.readHeader (h : Named keylen fileNames root f) (hc : Creatable keylen fileNames)
    (hslot : Dataman.IndexFile.slot0 f≠none) :
    indexV2ReadHeader f = some ⟨keylen,fileNames.length,⟨root,(indexV2Crc32 emptyLeafHead).toNat,1⟩⟩ := by
  have h0 := h.slot0
  rw [h.root_eq,readSlot_slotBytes (publishable_root hc)] at h0
  split at h0
  · exact absurd h0 hslot
  · rw [readHeader_eq h.toPublished,h0,h.slot1,h.keylen_eq,h.fileCount_eq,h.root_eq]
    rfl

theorem Named.readPageSize (h : Named keylen fileNames root f) (hc : Creatable keylen fileNames) :
    indexV2ReadPageSize f keylen = some (indexV2PageSize keylen) := by
  have hb := pageSize_bounds hc.keylen.2
  have hlen := h.length
  have hpage : getU16 (slice f 0 128) 20 = indexV2PageSize keylen := (getU16_header (by omega)).trans h.pageSize_eq
  have hne : ¬ indexV2PageSize keylen = 0 := by omega
  simp [indexV2ReadPageSize,readAt_of_le (show 0+128 ≤ f.length by omega),hpage,hne,hb.2.2]

theorem namesTotal_ge (fileNames : List Bytes) : fileNames.length ≤ namesTotal fileNames := by
  induction fileNames with
  | nil => exact Nat.zero_le _
  | cons name names ih =>
    rw [namesTotal_cons,List.length_cons]
    omega

/-- The reader's limit is its own. -/
theorem Named.readFileNames (h : Named keylen fileNames root f) (hnul : ∀ name∈fileNames,0∉name) :
    indexV2ReadFileNames f fileNames.length = if namesTotal fileNames ≤ 1024*1024 then some fileNames else none := by
  have hlen := h.length
  have hge := namesTotal_ge fileNames
  have hfield : getU32 (slice f 0 128) 16 = namesTotal fileNames := by
    rw [getU32,slice_slice _ _ _ _ _ (by omega),Nat.zero_add]
    exact h.namesLength_eq
  rw [indexV2ReadFileNames,readAt_of_le (show 0+128 ≤ f.length by omega)]
  simp only [Option.bind_eq_bind,Option.bind_some,hfield,guard_eq_ite]
  split
  · rename_i hlim
    rw [if_pos (by omega),Option.bind_some,h.names,Option.bind_some]
    exact splitNames_namesBytes hnul
  · rename_i hlim
    rw [if_neg (by omega)]
    rfl

/-- A created index is read back exactly if its names take no more than 1024 * 1024 bytes. -/
theorem header_round_trip_iff (hcount : fileNames.length < 2 ^ 16) (hnul : ∀ name∈fileNames,0∉name)
    (hrun : indexV2CreateEmpty keylen fileNames s = (.ok root,s')) (hslot : slot0 s'.bytes≠none) :
    RoundTrip keylen fileNames root s'.bytes ↔ namesTotal fileNames ≤ 1024*1024 := by
  obtain ⟨hc,hn⟩ := (wp_of_ok hrun).1 (indexV2CreateEmpty_named hcount)
  have hnames := hn.readFileNames hnul
  constructor
  · intro h
    by_contra hlong
    rw [if_neg hlong,h.names] at hnames
    cases hnames
  · intro hle
    rw [if_pos hle] at hnames
    exact ⟨⟨_,hn.readHeader hc hslot,rfl⟩,⟨_,hn.readPageSize hc⟩,hnames,hn.root_eq ▸ rootOf_ge hc.keylen.2 fileNames⟩

theorem created_ok (hcount : fileNames.length < 2 ^ 16) (hc : Creatable keylen fileNames) (s : IndexState)
    (hslot : readSlot (slotBytes ⟨rootOf keylen fileNames,(indexV2Crc32 emptyLeafHead).toNat,1⟩)≠none) :
    ∃ s',indexV2CreateEmpty keylen fileNames s = (.ok (rootOf keylen fileNames),s') ∧ slot0 s'.bytes≠none := by
  rcases wp_cases (indexV2CreateEmpty_named hcount) with ⟨root,s',hrun,-,hn⟩ | ⟨e,s',-,hno⟩
  · obtain rfl := hn.root_eq
    exact ⟨s',hrun,by rwa [hn.slot0]⟩
  · exact absurd hc hno

/-- One name of 1024 * 1024 bytes, without its zero. -/
def longName : List Bytes := [List.replicate (1024*1024) 97]

theorem namesTotal_longName : namesTotal longName = 1024*1024+1 := by
  rw [longName,namesTotal_cons,List.length_replicate]
  rfl

theorem creatable_longName : Creatable 2 longName := ⟨by decide,by decide,by rw [namesTotal_longName]; decide⟩

/-- The index is created and its header is read, but not its names. -/
theorem long_name_unreadable : ∃ root s',indexV2CreateEmpty 2 longName ⟨[],[],0,[]⟩ = (.ok root,s') ∧ slot0 s'.bytes≠none ∧
    (∀ name∈longName,0∉name) ∧ indexV2ReadFileNames s'.bytes 1 = none ∧ ¬ RoundTrip 2 longName root s'.bytes := by
  have hcount : longName.length < 2 ^ 16 := by decide
  have hnul : ∀ name∈longName,0∉name := by
    intro name hname
    rw [List.mem_singleton.1 hname,List.mem_replicate]
    decide
  have hslot : readSlot (slotBytes ⟨rootOf 2 longName,(indexV2Crc32 emptyLeafHead).toNat,1⟩)≠none := by
    rw [rootOf,namesTotal_longName]
    decide +kernel
  obtain ⟨s',hrun,h0⟩ := created_ok hcount creatable_longName ⟨[],[],0,[]⟩ hslot
  have hn := ((wp_of_ok hrun).1 (indexV2CreateEmpty_named hcount)).2
  have hnames := hn.readFileNames hnul
  rw [namesTotal_longName,if_neg (by decide)] at hnames
  refine ⟨_,s',hrun,h0,hnul,hnames,?_⟩
  intro h
  have hread := h.names
  rw [hnames] at hread
  cases hread

/-- Two names, one of them empty. -/
theorem header_round_trip_two_names : ∃ root s',indexV2CreateEmpty 2 [[97,98],[]] ⟨[],[],0,[]⟩ = (.ok root,s') ∧
    RoundTrip 2 [[97,98],[]] root s'.bytes := by
  obtain ⟨s',hrun,h0⟩ := @created_ok 2 [[97,98],[]] (by decide) ⟨by decide,by decide,by decide⟩ ⟨[],[],0,[]⟩ (by decide +kernel)
  exact ⟨_,s',hrun,(header_round_trip_iff (by decide) (by decide) hrun h0).2 (by decide)⟩

end Dataman.IndexFile

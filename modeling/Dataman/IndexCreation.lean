import Dataman.IndexUpdates

/-!
# Creating and building an index

A new file has an empty leaf as its first page. A build keeps its root in the header and
rewrites its own pages; finishing it publishes that root as the first generation.
-/

namespace Dataman.IndexFile
open ByteFiles FixedWidthFields Checksum FailState PageTree

variable {ctx : Context} {first : ℕ} {f : Bytes}

/-! ## The header of a new file -/

variable {pre post : Bytes} {v off : ℕ}

theorem getU16_field (ho : pre.length = off) (hv : v < 2 ^ 16) :
    getU16 (pre++(putU16 v++post)) off = v := by
  rw [getU16,← ho,slice_field (by simp [putU16]),putU16,getBE_putBE (by omega)]

theorem getU32_field (ho : pre.length = off) (hv : v < 2 ^ 32) :
    getU32 (pre++(putU32 v++post)) off = v := by
  rw [getU32,← ho,slice_field (by simp [putU32]),putU32,getBE_putBE (by omega)]

/-- What the header of a new file says. -/
structure NewHeader (keylen fileCount names pageSize flags : ℕ) (f : Bytes) : Prop where
  fixed : fixedFields f flags = true
  keylen : getU16 f 12 = keylen
  fileCount : getU16 f 14 = fileCount
  names : getU32 f 16 = names
  pageSize : getU16 f 20 = pageSize
  slot0 : slot0 f = none
  slot1 : slot1 f = none

theorem newHeader_headerBytes (keylen fileCount names pageSize flags : ℕ) (hk : keylen < 2 ^ 16)
    (hc : fileCount < 2 ^ 16) (hn : names < 2 ^ 32) (hp : pageSize < 2 ^ 16) (hf : flags < 2 ^ 16) :
    NewHeader keylen fileCount names pageSize flags (headerBytes keylen fileCount names pageSize flags) := by
  have hslot : ∀ off,24 ≤ off → off+32 ≤ 128 →
      slice (headerBytes keylen fileCount names pageSize flags) off 32 = List.replicate 32 0 := by
    intro off h1 h2
    have hlen : (magic++[0]++putU16 2++putU16 128++putU16 keylen++putU16 fileCount++putU32 names ++
        putU16 pageSize++putU16 flags).length = 24 := by simp [magic,putU16,putU32]
    rw [headerBytes,slice_append_right _ _ _ _ (by rw [hlen]; exact h1),hlen,slice,List.drop_replicate,
      List.take_replicate,min_eq_left (by omega)]
  have hzero : readSlot (List.replicate 32 0) = none := by decide
  have hassoc : headerBytes keylen fileCount names pageSize flags = magic++([0]++(putU16 2++(putU16 128 ++
      (putU16 keylen++(putU16 fileCount++(putU32 names++(putU16 pageSize++(putU16 flags ++
        List.replicate 104 0)))))))) := by simp only [headerBytes,List.append_assoc]
  constructor
  · have h7 : slice (headerBytes keylen fileCount names pageSize flags) 0 7 = magic := by
      rw [hassoc]
      exact slice_append_exact _ _ _ rfl
    have h8 : getU16 (headerBytes keylen fileCount names pageSize flags) 8 = 2 := by
      rw [hassoc,← List.append_assoc]
      exact getU16_field rfl (by omega)
    have h10 : getU16 (headerBytes keylen fileCount names pageSize flags) 10 = 128 := by
      rw [hassoc,← List.append_assoc,← List.append_assoc]
      exact getU16_field (by simp [magic,putU16]) (by omega)
    have h22 : getU16 (headerBytes keylen fileCount names pageSize flags) 22 = flags := by
      rw [hassoc]
      simp only [← List.append_assoc]
      rw [List.append_assoc _ (putU16 flags)]
      exact getU16_field (by simp [magic,putU16,putU32]) hf
    simp [fixedFields,h7,h8,h10,h22]
  · rw [hassoc,← List.append_assoc,← List.append_assoc,← List.append_assoc]
    exact getU16_field (by simp [magic,putU16]) hk
  · rw [hassoc,← List.append_assoc,← List.append_assoc,← List.append_assoc,← List.append_assoc]
    exact getU16_field (by simp [magic,putU16]) hc
  · rw [hassoc,← List.append_assoc,← List.append_assoc,← List.append_assoc,← List.append_assoc,
      ← List.append_assoc]
    exact getU32_field (by simp [magic,putU16]) hn
  · rw [hassoc]
    simp only [← List.append_assoc]
    rw [List.append_assoc _ (putU16 flags),List.append_assoc _ (putU16 pageSize)]
    exact getU16_field (by simp [magic,putU16,putU32]) hp
  · rw [Dataman.IndexFile.slot0,hslot 32 (by omega) (by omega),hzero]
  · rw [Dataman.IndexFile.slot1,hslot 64 (by omega) (by omega),hzero]

variable {keylen flags : ℕ}

theorem NewHeader.congr {fileCount names pageSize : ℕ} {g : Bytes}
    (h : NewHeader keylen fileCount names pageSize flags f) (hh : slice g 0 128 = slice f 0 128) :
    NewHeader keylen fileCount names pageSize flags g :=
  ⟨fixedFields_congr hh _ ▸ h.fixed,(getU16_congr hh (by omega)).trans h.keylen,
    (getU16_congr hh (by omega)).trans h.fileCount,(getU32_congr hh (by omega)).trans h.names,
    (getU16_congr hh (by omega)).trans h.pageSize,slot0_congr hh ▸ h.slot0,slot1_congr hh ▸ h.slot1⟩

/-! ## The file names -/

/-- The bytes that the names take in the file. -/
def namesTotal (names : List Bytes) : ℕ := (names.map (·.length+1)).sum

/-- Each name with its zero. -/
def namesBytes (names : List Bytes) : Bytes := names.flatMap (· ++ [0])

@[simp] theorem namesTotal_cons (name : Bytes) (names : List Bytes) :
    namesTotal (name::names) = name.length+1+namesTotal names := by simp [namesTotal]

variable {names : List Bytes}

theorem namesLength_eq {acc : ℕ} (hacc : acc ≤ 2 ^ 32 - 1) :
    namesLength names acc = if acc+namesTotal names ≤ 2 ^ 32 - 1 then some (acc+namesTotal names) else none := by
  induction names generalizing acc with
  | nil => exact (if_pos hacc).symm
  | cons name names ih =>
    rw [namesLength,namesTotal_cons]
    split
    · rw [if_neg (by omega)]
    · rw [ih (by omega),Nat.add_assoc acc]

variable {s : IndexState}

theorem writeNames_spec (hoff : off ≤ s.bytes.length) :
    wp (writeNames names off) s
      (fun last s' => last = off+namesTotal names ∧ s'.bytes.length = max s.bytes.length last ∧
        (∀ o n,o+n ≤ off → slice s'.bytes o n = slice s.bytes o n) ∧
        slice s'.bytes off (namesTotal names) = namesBytes names)
      (fun e _ => e = .io ∧ int64Max < off+namesTotal names) := by
  induction names generalizing off s with
  | nil => exact (wp_pure _).2 ⟨rfl,(max_eq_left hoff).symm,fun _ _ _ => rfl,slice_zero _ _⟩
  | cons name names ih =>
    have hne : name++[0]≠[] := by simp
    have hsize : (name++[0]).length = name.length+1 := List.length_append
    simp only [writeNames,wp_bind,wp_writeFullAt,namesTotal_cons]
    split
    · have hlen' : (writeAt s.bytes off (name++[0])).length = max s.bytes.length (off+(name.length+1)) := by
        rw [length_writeAt _ _ _ hne,hsize]
      refine wp_mono (ih (by dsimp only; omega)) ?_ fun e _ h => ⟨h.1,by omega⟩
      rintro last s' ⟨hlast,hlen,hbefore,hnames⟩
      refine ⟨by omega,?_,?_,?_⟩
      · rw [hlen]
        dsimp only
        omega
      · intro o n hon
        rw [hbefore o n (by omega),slice_writeAt_disjoint _ _ _ _ _ (by omega) (by omega)]
      · have hself := slice_writeAt_self s.bytes off (name++[0])
        rw [slice_split,hbefore off _ le_rfl,hnames,← hsize,hself]
        rfl
    · rename_i hlong
      exact ⟨trivial,by omega⟩

/-! ## The first page -/

theorem pageBytes_emptyLeaf (ctx : Context) :
    pageBytes ctx ⟨true,[],[]⟩ = emptyLeafHead++putU32 (indexV2Crc32 emptyLeafHead).toNat ++
      List.replicate (ctx.pageSize - 16) 0 := by
  have hhead : nodeHead ctx ⟨true,[],[]⟩ = emptyLeafHead := by
    simp [nodeHead,emptyLeafHead,payloadLength,nodeMagic]
    decide
  simp [pageBytes,hhead,nodeCrc,nodePayload,payloadLength]

theorem nodeOk_emptyLeaf (ctx : Context) : NodeOk ctx ⟨true,[],[]⟩ := ⟨by simp,by simp [maxKeys],by simp,by simp,by simp⟩

/-- A file with the header of a new index and an empty leaf as its only page. -/
structure Fresh (ctx : Context) (first flags : ℕ) (f : Bytes) : Prop extends Layout ctx first f where
  fixed : fixedFields f flags = true
  slots : slot0 f = none ∧ slot1 f = none
  rooted : Rooted ctx first f 0 (.leaf first [])

theorem fresh_page {names : ℕ} {f : Bytes} (hk : 0 < ctx.keylen ∧ ctx.keylen ≤ 32) (hc : 0 < ctx.fileCount)
    (hps : ctx.pageSize = indexV2PageSize ctx.keylen)
    (hh : NewHeader ctx.keylen ctx.fileCount names ctx.pageSize flags f) (hlen : f.length = 128+names)
    (hfirst : first = roundUp f.length ctx.pageSize)
    (hio : first+(pageBytes ctx ⟨true,[],[]⟩).length ≤ int64Max) :
    Fresh ctx first flags (writeAt f first (pageBytes ctx ⟨true,[],[]⟩)) := by
  have hb := pageSize_bounds hk.2
  rw [← hps] at hb
  have hfits : ctx.Fits := ⟨hb.1,hb.2.1⟩
  have hok := nodeOk_emptyLeaf ctx
  have hplen := length_pageBytes hfits hok
  rw [hplen] at hio
  have hpos : 0 < ctx.pageSize := by omega
  have hge : f.length ≤ first := hfirst ▸ le_roundUp hpos
  have hdvd : ctx.pageSize ∣ first := hfirst ▸ dvd_roundUp _ _
  have hlen' : (writeAt f first (pageBytes ctx ⟨true,[],[]⟩)).length = first+ctx.pageSize := by
    rw [length_writeAt _ _ _ (by intro h; simp [h] at hplen; omega),hplen]
    omega
  have hh' := hh.congr (slice_writeAt_disjoint f first (pageBytes ctx ⟨true,[],[]⟩) 0 128 (by omega) (by omega))
  refine {
    keylen_eq := hh'.keylen,fileCount_eq := hh'.fileCount,keylen_pos := hk.1,keylen_le := hk.2,
    fileCount_pos := hc,pageSize_eq := hps,pageSize_field := hh'.pageSize,
    first_eq := ?_,whole := ?_,first_le := ?_,length_le := ?_,
    fixed := hh'.fixed,slots := ⟨hh'.slot0,hh'.slot1⟩,rooted := ⟨.leaf ?_,by simp [Summary.leaf],?_⟩ }
  · rw [hh'.names,firstPageOffset,← hlen,hfirst]
  · rw [hlen']
    exact Nat.dvd_add hdvd (Nat.dvd_refl _)
  · omega
  · omega
  · exact v2LoadNode_page hfits hok (by omega)
  · intro p hp
    rw [List.mem_singleton.1 hp,hlen']
    exact ⟨hdvd,le_rfl,by omega⟩

/-- The context in which an index is created. -/
def newContext (keylen : ℕ) (fileNames : List Bytes) (building : Bool) : Context :=
  { keylen := keylen,fileCount := fileNames.length,pageSize := indexV2PageSize keylen,inPlace := building }

theorem length_emptyPage (hk : keylen ≤ 32) (fileNames : List Bytes) (building : Bool) :
    (pageBytes (newContext keylen fileNames building) ⟨true,[],[]⟩).length = indexV2PageSize keylen := by
  have hb := pageSize_bounds hk
  have hfits : (newContext keylen fileNames building).Fits := ⟨hb.1,hb.2.1⟩
  exact length_pageBytes hfits (nodeOk_emptyLeaf _)

/-- What an index can be created for. -/
structure Creatable (keylen : ℕ) (fileNames : List Bytes) : Prop where
  keylen : keylen≠0 ∧ keylen ≤ 32
  fileCount : fileNames.length≠0
  names : namesTotal fileNames ≤ 2 ^ 32 - 1

/-- A file with its header and the names. -/
structure Laid (keylen : ℕ) (fileNames : List Bytes) (flags : ℕ) (f : Bytes) : Prop where
  header : NewHeader keylen fileNames.length (namesTotal fileNames) (indexV2PageSize keylen) flags f
  names : slice f 128 (namesTotal fileNames) = namesBytes fileNames
  length : 128+namesTotal fileNames ≤ f.length

/-- The first page that is not taken by names. -/
def rootOf (keylen : ℕ) (fileNames : List Bytes) : ℕ := roundUp (128+namesTotal fileNames) (indexV2PageSize keylen)

theorem roundUp_lt {n size : ℕ} (hs : 0 < size) : roundUp n size < n+size := by
  have h := Nat.div_mul_le_self (n+size - 1) size
  unfold roundUp
  omega

variable {fileNames : List Bytes}

theorem rootOf_le (h : Creatable keylen fileNames) :
    rootOf keylen fileNames+indexV2PageSize keylen ≤ int64Max := by
  have hb := pageSize_bounds h.keylen.2
  have hlt := @roundUp_lt (128+namesTotal fileNames) (indexV2PageSize keylen) (by omega)
  have hn := h.names
  simp only [rootOf,int64Max]
  omega

variable {building : Bool} {Q : ℕ → IndexState → Prop} {E : Fault → IndexState → Prop}

/-- Creation up to the point where the root is recorded, whatever was in the file. -/
theorem v2CreateEmpty_laid
    (hcount : fileNames.length < 2 ^ 16)
    (harg : ¬ Creatable keylen fileNames → E .argument s)
    (hQ : Creatable keylen fileNames → ∀ f s',Laid keylen fileNames (creationFlags building) f →
      f.length = max (max s.bytes.length 128) (128+namesTotal fileNames) →
      s'.bytes = writeAt f (rootOf keylen fileNames) (pageBytes (newContext keylen fileNames building) ⟨true,[],[]⟩) →
      wp (recordRoot building (rootOf keylen fileNames) (indexV2Crc32 emptyLeafHead).toNat) s' Q E) :
    wp (v2CreateEmpty keylen fileNames building) s Q E := by
  unfold v2CreateEmpty writeHeader
  simp only [wp_bind,wp_ensure,wp_ofOption,namesLength_eq (Nat.zero_le _),Nat.zero_add]
  split
  · rename_i hargs
    simp only [decide_eq_true_eq] at hargs
    by_cases hnames : namesTotal fileNames ≤ 2 ^ 32 - 1
    · have hc : Creatable keylen fileNames := ⟨⟨hargs.1,hargs.2.1⟩,hargs.2.2,hnames⟩
      have hb := pageSize_bounds hargs.2.1
      have hlenh := length_headerBytes keylen fileNames.length (namesTotal fileNames) (indexV2PageSize keylen)
        (creationFlags building)
      have hne : headerBytes keylen fileNames.length (namesTotal fileNames) (indexV2PageSize keylen)
          (creationFlags building)≠[] := by
        intro hnil
        rw [hnil] at hlenh
        cases hlenh
      have hself := slice_writeAt_self s.bytes 0 (headerBytes keylen fileNames.length (namesTotal fileNames)
        (indexV2PageSize keylen) (creationFlags building))
      have hlen0 := length_writeAt s.bytes 0 _ hne
      have hnew := newHeader_headerBytes keylen fileNames.length (namesTotal fileNames) (indexV2PageSize keylen)
        (creationFlags building) (by omega) hcount (by omega) hb.2.1 (by cases building <;> decide)
      have hbig : 128 ≤ int64Max ∧ 128+namesTotal fileNames ≤ int64Max := by
        simp only [int64Max]
        omega
      rw [hlenh] at hself hlen0
      simp only [if_pos hnames,wp_writeFullAt,hlenh,Nat.zero_add,if_pos hbig.1]
      refine wp_mono (writeNames_spec (by dsimp only; omega)) ?_ fun e s' h => absurd h.2 (by omega)
      rintro last s1 ⟨rfl,hlen1,hbefore,hslice⟩
      have hpage := pageBytes_emptyLeaf (newContext keylen fileNames building)
      have hplen := length_emptyPage hargs.2.1 fileNames building
      have hroot : roundUp (128+namesTotal fileNames) (indexV2PageSize keylen)+indexV2PageSize keylen ≤ int64Max := rootOf_le hc
      simp only [newContext] at hpage hplen
      rw [← hpage,hplen,if_pos hroot]
      refine hQ hc s1.bytes _ ⟨hnew.congr ?_,hslice,by omega⟩ (by rw [hlen1]; dsimp only; omega) rfl
      rw [hbefore 0 128 le_rfl,hself,slice_zero_of_length hlenh]
    · rw [if_neg hnames]
      exact harg fun hc => hnames hc.names
  · rename_i hargs
    apply harg
    intro hc
    exact hargs (decide_eq_true ⟨hc.keylen.1,hc.keylen.2,hc.fileCount⟩)

/-- The same for a new file. -/
theorem v2CreateEmpty_spec
    (hs : s.bytes = []) (hcount : fileNames.length < 2 ^ 16)
    (harg : E .argument s)
    (hQ : ∀ first crc s',crc < 2 ^ 32 →
      Fresh (newContext keylen fileNames building) first (creationFlags building) s'.bytes →
      wp (recordRoot building first crc) s' Q E) :
    wp (v2CreateEmpty keylen fileNames building) s Q E := by
  apply v2CreateEmpty_laid hcount fun _ => harg
  intro hc f s' hlaid hlen hbytes
  rw [hs,List.length_nil] at hlen
  refine hQ _ _ _ (indexV2Crc32 emptyLeafHead).isLt (hbytes ▸ fresh_page ⟨Nat.pos_of_ne_zero hc.keylen.1,hc.keylen.2⟩
    (Nat.pos_of_ne_zero hc.fileCount) rfl hlaid.header (by omega) ?_ ?_)
  · rw [hlen,Nat.zero_max,max_eq_right (Nat.le_add_right _ _)]
    rfl
  · rw [length_emptyPage hc.keylen.2]
    exact rootOf_le hc

end Dataman.IndexFile

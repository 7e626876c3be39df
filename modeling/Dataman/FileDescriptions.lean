import Dataman.MakeFile

/-!
# Reading a file description (`get_datafile_desc.c`)

The description says how many formats there are, and for each one how many fields, the length of its
records and the lengths of the fields. `mkdf` adds the lengths up in a `short`, and copies the whole
description to a buffer without a test.
-/

namespace Dataman.Mkdf
open ByteFiles FixedWidthFields

/-! ## `get_datafile_desc` -/

/-- `RFDESC` -/
structure FormatDesc where
  nFields : ℤ
  rfLen : ℤ
  hasBlob : ℕ
  fieldSizes : List ℤ
deriving DecidableEq,Repr

/-- `FILEDESC` -/
structure FileDesc where
  headerLen : ℤ
  nRformats : ℤ
  longest : ℤ
  recordDesc : List FormatDesc
deriving DecidableEq,Repr

inductive DescFailure
  | efhdrd
  | enoalloc
  /-- A word behind the end of the description. -/
  | outside
deriving DecidableEq,Repr

def getShort (bs : Bytes) : ℤ := short (getBE bs)

/-- The description as words. -/
def words : Bytes → List ℤ
  | a::b::rest => getShort [a,b]::words rest
  | _ => []

/-- So many formats. -/
def takeFormats : ℕ → List ℤ → Except DescFailure (List FormatDesc)
  | 0,_ => .ok []
  | n+1,nFields::rfLen::rest =>
    if rest.length < nFields.toNat then .error .outside
    else do
      let sizes := rest.take nFields.toNat
      let more ← takeFormats n (rest.drop nFields.toNat)
      return ⟨nFields,rfLen,sizes.count 0,sizes⟩::more
  | _+1,_ => .error .outside

/-- The longest record, and zero if there is no longer one. -/
def longestOf (formats : List FormatDesc) : ℤ := (formats.map FormatDesc.rfLen).foldl max 0

def getDatafileDesc (f : Bytes) : Except DescFailure FileDesc :=
  match readAt f 0 2 with
  | none => .error .efhdrd
  | some head =>
    let mHead := getShort head
    if mHead < 0 then .error .enoalloc
    else
      match readAt f 2 mHead.toNat with
      | none => .error .efhdrd
      | some desc =>
        match words desc with
        | [] => .error .outside
        | n::rest => do
          let formats ← takeFormats n.toNat rest
          return ⟨mHead,n,longestOf formats,formats⟩

/-! ## What is read back -/

/-- The answers to the questions are in the ranges that are asked for. -/
structure Answers (formats : List (List ℕ)) : Prop where
  count : 1 ≤ formats.length ∧ formats.length ≤ 63
  fields : ∀ sizes∈formats,1 ≤ sizes.length ∧ sizes.length ≤ 999
  lengths : ∀ sizes∈formats,∀ size∈sizes,size < 2 ^ 15

/-- A format with this length of its records. -/
def formatDesc (rfLen : List ℕ → ℤ) (sizes : List ℕ) : FormatDesc :=
  ⟨sizes.length,rfLen sizes,sizes.count 0,sizes.map Nat.cast⟩

/-- The description of these formats. -/
def fileDesc (rfLen : List ℕ → ℤ) (formats : List (List ℕ)) : FileDesc :=
  ⟨flen formats,formats.length,longestOf (formats.map (formatDesc rfLen)),formats.map (formatDesc rfLen)⟩

theorem words_flatMap (ns : List ℕ) : words (ns.flatMap (putBE 2)) = ns.map fun n => short (n % 2 ^ 16) := by
  induction ns with
  | nil => rfl
  | cons n ns ih =>
    have hget : getBE (putBE 2 n) = n % 2 ^ 16 := getBE_putBE_mod 2 n
    obtain ⟨a,b,hab⟩ : ∃ a b,putBE 2 n = [a,b] := ⟨_,_,rfl⟩
    rw [hab] at hget
    rw [List.flatMap_cons,hab,List.cons_append,List.cons_append,List.nil_append,words,ih,getShort,hget]
    rfl

/-- The two bytes of a word say what a `short` keeps. -/
theorem short_mod (n : ℕ) : short (n % 2 ^ 16) = short n := by
  have hmod : ((n % 2 ^ 16 : ℕ) : ℤ) = (n : ℤ) % (2 ^ 16 : ℕ) := Int.natCast_mod _ _
  unfold short
  rw [hmod]
  exact Int.emod_bmod _ _

theorem count_map_cast (sizes : List ℕ) : (sizes.map (Nat.cast : ℕ → ℤ)).count 0 = sizes.count 0 := by
  induction sizes with
  | nil => rfl
  | cons n sizes ih => simp [List.count_cons,ih]

variable {formats : List (List ℕ)}

theorem takeFormats_eq (hfields : ∀ sizes∈formats,sizes.length ≤ 999)
    (hsizes : ∀ sizes∈formats,∀ size∈sizes,size < 2 ^ 15) :
    takeFormats formats.length ((formats.flatMap fun sizes => sizes.length::sizes.sum::sizes).map short) =
      .ok (formats.map (formatDesc shortSum)) := by
  induction formats with
  | nil => rfl
  | cons sizes formats ih =>
    have hlen := hfields sizes List.mem_cons_self
    have hcast : sizes.map short = sizes.map Nat.cast :=
      List.map_congr_left fun n hn => short_eq (hsizes sizes List.mem_cons_self n hn)
    have hn : short sizes.length = (sizes.length : ℤ) := short_eq (by omega)
    rw [List.flatMap_cons,List.cons_append,List.cons_append,List.map_cons,List.map_cons,List.map_append,hcast,List.length_cons,
      takeFormats,hn,Int.toNat_natCast,if_neg (by simp),List.take_left' (by simp),List.drop_left' (by simp),
      ih (fun x hx => hfields x (List.mem_cons_of_mem _ hx)) fun x hx => hsizes x (List.mem_cons_of_mem _ hx)]
    dsimp only
    rw [count_map_cast]
    rfl

/-- The header is read as it was written, with the sums as a `short` keeps them. -/
theorem getDatafileDesc_eq (h : Answers formats) (hlen : flen formats < 2 ^ 15) (rest : Bytes) :
    getDatafileDesc (putBE 2 (flen formats)++descBytes formats++rest) = .ok (fileDesc shortSum formats) := by
  have hcount := h.count
  have hhead : readAt (putBE 2 (flen formats)++descBytes formats++rest) 0 2 = some (putBE 2 (flen formats)) := by
    rw [readAt_of_le (by rw [List.append_assoc,List.length_append,length_putBE]; omega),List.append_assoc,
      slice_append_exact _ _ _ (length_putBE _ _)]
  have hhlen : getShort (putBE 2 (flen formats)) = flen formats := by
    rw [getShort,getBE_putBE (by omega),short_eq hlen]
  have hdesc : readAt (putBE 2 (flen formats)++descBytes formats++rest) 2 (flen formats) = some (descBytes formats) := by
    refine (readAt_of_le ?_).trans (congrArg some ?_)
    · rw [List.length_append,List.length_append,length_putBE,← flen]
      omega
    · exact slice_at (putBE 2 (flen formats)) (descBytes formats) rest (List.append_assoc _ _ _) (length_putBE _ _) rfl
  have hwords : words (descBytes formats) = short formats.length ::
      (formats.flatMap fun sizes => sizes.length::sizes.sum::sizes).map short := by
    rw [descBytes,words_flatMap,describe,List.map_cons]
    simp only [short_mod]
  rw [getDatafileDesc,hhead]
  dsimp only
  rw [hhlen,if_neg (by omega),Int.toNat_natCast,hdesc]
  dsimp only
  rw [hwords,short_eq (by omega)]
  dsimp only
  rw [Int.toNat_natCast,takeFormats_eq (fun sizes hs => (h.fields sizes hs).2) h.lengths]
  rfl

/-! ## The round trip -/

/-- What is accepted is read back with the true sums, and what cannot be is refused. -/
def RoundTrip (formats : List (List ℕ)) : Prop :=
  match writeHeader formats with
  | .ok header => header.length = flen formats+2 ∧
      ∀ rest,getDatafileDesc (header++rest) = .ok (fileDesc (fun sizes => sizes.sum) formats)
  | .error .deleted => True
  | .error .outside => False

theorem length_descBytes (formats : List (List ℕ)) : flen formats = 2*(describe formats).length := by
  simp only [flen,descBytes,List.length_flatMap,length_putBE,List.map_const',List.sum_replicate]
  exact Nat.mul_comm _ _

theorem length_describe (formats : List (List ℕ)) : (describe formats).length = 1+(formats.map fun sizes => sizes.length+2).sum := by
  simp only [describe,List.length_cons,List.length_flatMap]
  exact Nat.add_comm _ _

theorem flen_ge (h : Answers formats) : 8 ≤ flen formats := by
  have hcount := h.count
  cases formats with
  | nil => simp at hcount
  | cons sizes formats =>
    have hfields := h.fields sizes List.mem_cons_self
    rw [length_descBytes,length_describe,List.map_cons,List.sum_cons]
    omega

variable {idx : ℕ}

theorem checkFormats_ok (hfields : ∀ sizes∈formats,1 ≤ sizes.length ∧ sizes.length ≤ 999)
    (hroom : idx+(formats.map fun sizes => sizes.length+2).sum < maxline) : checkFormats idx formats = .ok () := by
  induction formats generalizing idx with
  | nil => rfl
  | cons sizes formats ih =>
    rw [List.map_cons,List.sum_cons] at hroom
    rw [checkFormats,if_neg (not_not.2 (hfields sizes List.mem_cons_self)),if_neg (by omega),if_neg (by omega)]
    exact ih (fun x hx => hfields x (List.mem_cons_of_mem _ hx)) (by omega)

theorem writeHeader_eq (h : Answers formats) (hroom : flen formats+4 ≤ maxline) :
    writeHeader formats = .ok (putBE 2 (flen formats)++descBytes formats) := by
  have hlen := length_descBytes formats
  rw [length_describe] at hlen
  rw [writeHeader,if_neg (not_not.2 h.count),checkFormats_ok h.fields (by omega)]
  exact if_neg (by omega)

theorem checkFormats_fields (h : checkFormats idx formats = .ok ()) :
    ∀ sizes∈formats,1 ≤ sizes.length ∧ sizes.length ≤ 999 := by
  induction formats generalizing idx with
  | nil => simp
  | cons sizes formats ih =>
    rw [checkFormats] at h
    split at h
    · cases h
    · rename_i hfields
      split at h
      · cases h
      · split at h
        · cases h
        · intro x hx
          rcases List.mem_cons.1 hx with rfl | hx
          · exact not_not.1 hfields
          · exact ih h x hx

theorem le_sum_of_mem {sizes : List ℕ} {size : ℕ} (h : size∈sizes) : size ≤ sizes.sum := List.single_le_sum (by simp) _ h

/-- What `mkdf` has accepted. -/
theorem mkdf_answers {text f : Bytes} (hfit : Fitting formats) (h : mkdf formats text = .ok f) : Answers formats := by
  obtain ⟨header,hheader,-⟩ := bind_eq_ok h
  have hcount := (writeHeader_ok hheader).2.2
  rw [writeHeader,if_neg (not_not.2 hcount)] at hheader
  obtain ⟨_,hcheck,-⟩ := bind_eq_ok hheader
  refine ⟨hcount,checkFormats_fields hcheck,?_⟩
  intro sizes hs size hsize
  exact (le_sum_of_mem hsize).trans_lt (hfit sizes hs)

theorem fileDesc_eq_iff (formats : List (List ℕ)) :
    fileDesc shortSum formats = fileDesc (fun sizes => sizes.sum) formats ↔ Fitting formats := by
  constructor
  · intro heq sizes hs
    have hmap : formats.map (formatDesc shortSum) = formats.map (formatDesc fun sizes => sizes.sum) := (FileDesc.mk.inj heq).2.2.2
    have hat := List.map_inj_left.1 hmap sizes hs
    simp only [formatDesc,shortSum,FormatDesc.mk.injEq,true_and,and_true] at hat
    have hlt := short_lt sizes.sum
    omega
  · intro hfit
    have hmap : formats.map (formatDesc shortSum) = formats.map (formatDesc fun sizes => sizes.sum) := by
      apply List.map_congr_left
      intro sizes hs
      rw [formatDesc,formatDesc,shortSum,short_eq (hfit sizes hs)]
    rw [fileDesc,fileDesc,hmap]

/-- A description comes back as it was asked for exactly if it is refused, or every sum of field lengths fits a `short` and the
description fits the buffer. -/
theorem description_round_trip_iff {formats : List (List ℕ)} (h : Answers formats) :
    RoundTrip formats ↔ writeHeader formats = .error .deleted ∨ Fitting formats ∧ flen formats+4 ≤ maxline := by
  have hread : flen formats+4 ≤ maxline → ∀ rest,
      getDatafileDesc (putBE 2 (flen formats)++descBytes formats++rest) = .ok (fileDesc shortSum formats) := by
    intro hroom rest
    rw [maxline] at hroom
    exact getDatafileDesc_eq h (by omega) rest
  constructor
  · intro hrt
    rw [RoundTrip] at hrt
    cases hheader : writeHeader formats with
    | ok header =>
      obtain ⟨rfl,hroom,-⟩ := writeHeader_ok hheader
      rw [hheader] at hrt
      have heq := hrt.2 []
      rw [hread hroom] at heq
      exact .inr ⟨(fileDesc_eq_iff formats).1 (Except.ok.inj heq),hroom⟩
    | error t =>
      cases t with
      | deleted => exact .inl rfl
      | outside =>
        rw [hheader] at hrt
        exact hrt.elim
  · intro hcond
    rw [RoundTrip]
    rcases hcond with hdeleted | ⟨hfit,hroom⟩
    · rw [hdeleted]
      trivial
    · rw [writeHeader_eq h hroom]
      refine ⟨?_,?_⟩
      · rw [List.length_append,length_putBE,← flen,Nat.add_comm]
      · intro rest
        rw [hread hroom,(fileDesc_eq_iff formats).2 hfit]

/-- Two formats; the second has a blob. -/
theorem description_round_trip_iff_blob : RoundTrip [[4,12],[0,7,0]] :=
  (description_round_trip_iff ⟨by decide,by decide,by decide⟩).2 (.inr ⟨by decide,by decide⟩)

/-- Two fields of 20000 bytes are accepted and make a record of -25536 bytes. -/
theorem long_record_misread : Answers [[20000,20000]] ∧
    (∃ header,writeHeader [[20000,20000]] = .ok header ∧
      getDatafileDesc header = .ok ⟨10,1,0,[⟨2,-25536,0,[20000,20000]⟩]⟩) ∧ ¬ RoundTrip [[20000,20000]] := by
  have hheader : writeHeader [[20000,20000]] = .ok [0,10,0,1,0,2,156,64,78,32,78,32] := by decide +kernel
  have hdesc : getDatafileDesc [0,10,0,1,0,2,156,64,78,32,78,32] = .ok ⟨10,1,0,[⟨2,-25536,0,[20000,20000]⟩]⟩ := by
    decide +kernel
  refine ⟨⟨by decide,by decide,by decide⟩,⟨_,hheader,hdesc⟩,?_⟩
  intro hrt
  rw [RoundTrip,hheader] at hrt
  have heq := hrt.2 []
  rw [List.append_nil,hdesc] at heq
  have hlong := congrArg FileDesc.longest (Except.ok.inj heq)
  revert hlong
  decide +kernel

end Dataman.Mkdf

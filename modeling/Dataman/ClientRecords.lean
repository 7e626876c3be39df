import Dataman.BlobRoundTrip

/-!
# Records of the client (`recio.c`)

`in_rec` takes the image of a record apart into fields and publishes them only when the image is used up.
`out_rec` puts the fields of a changed record together and sends them with FLUSH. Both take a field
whose size is not positive for a blob, but the number of blobs in a description counts the sizes that are zero.
-/

namespace Dataman.ClientRecords
open ByteFiles FixedWidthFields Blobs
open FieldText (decimal minus length_decimal_le)
open Server (printed printed_cons printed_injective)

def flush : ℤ := 23

/-- A field of the current record, and the length of its blob. -/
structure Field where
  data : Bytes
  blobLength : ℕ := 0
deriving DecidableEq,Repr

/-- The current record, master or work, with the description of its file. -/
structure Current where
  dirty : Bool := false
  flds : Option (List Field) := none
  fdesc : Option (List RFDesc) := none
deriving DecidableEq,Repr

/-! ## `in_rec` -/

/-- The loop over the fields, with the places of the next field and of the next blob, and these places behind it. -/
def inFields (rfLen : ℕ) (buff : Bytes) : List ℤ → ℕ → ℕ → Option (List Field × ℕ × ℕ)
  | [],j,bOffs => some ([],j,bOffs)
  | size::sizes,j,bOffs =>
    if size ≤ 0 then
      if buff.length < bOffs ∨ buff.length - bOffs < 4 then none
      else
        let bLen := getBE (slice buff bOffs 4)
        if buff.length - (bOffs+4) < bLen then none
        else (inFields rfLen buff sizes j (bOffs+4+bLen)).map fun out => (⟨slice buff (bOffs+4) bLen,bLen⟩::out.1,out.2)
    else if rfLen < j ∨ (rfLen : ℤ) - j < size then none
    else (inFields rfLen buff sizes (j+size.toNat) bOffs).map fun out => (⟨slice buff j size.toNat,0⟩::out.1,out.2)

/-- The fields of an image. -/
def fieldsOf (desc : RFDesc) (buff : Bytes) : Option (List Field) :=
  if buff.length < desc.rfLen then none
  else
    match inFields desc.rfLen buff desc.fieldSizes 0 desc.rfLen with
    | none => none
    | some out => if out.2.1≠desc.rfLen ∨ out.2.2≠buff.length then none else some out.1

/-- The description of a format; formats are counted from 1. -/
def formatOf (fdesc : List RFDesc) (fmt : ℕ) : Option RFDesc := if fmt < 1 then none else fdesc[fmt - 1]?

/-- `in_rec`, with the answer to GET_DESC that is asked for without a description, or to have it again. -/
def inRec (getDesc : Option (List RFDesc)) (reload : Bool) (fmt : ℕ) (buff : Bytes) (c : Current) : Bool × Current :=
  match (if reload then none else c.fdesc).or getDesc with
  | none => (false,c)
  | some fdesc =>
    match formatOf fdesc fmt with
    | none => (false,c)
    | some desc =>
      match fieldsOf desc buff with
      | none => (false,c)
      | some flds => (true,{ dirty := false,flds := some flds,fdesc := some fdesc })

/-! ## `out_rec` -/

/-- The size of the image: the loop ends when it has met as many blobs as the description counts. -/
def sizeFields : ℕ → List (ℤ × Field) → ℕ → Option ℕ
  | left+1,(size,f)::rest,bSize =>
    if size ≤ 0 then
      if intMax < bSize+(f.blobLength+4) then none else sizeFields left rest (bSize+(f.blobLength+4))
    else sizeFields (left+1) rest bSize
  | _,_,bSize => some bSize

/-- What the loop over the fields puts into the record, and behind it. -/
def outFields : List (ℤ × Field) → Bytes × Bytes
  | [] => ([],[])
  | (size,f)::rest =>
    if size ≤ 0 then ((outFields rest).1,putLong f.blobLength++f.data.take f.blobLength++(outFields rest).2)
    else (f.data.take size.toNat++(outFields rest).1,(outFields rest).2)

/-- The numbers of the index, of the file and of the record, as they are sent. -/
structure Place where
  idx : ℤ
  chan : ℤ
  cur : ℤ
  idx_range : -2 ^ 31 ≤ idx ∧ idx < 2 ^ 31
  chan_range : -2 ^ 31 ≤ chan ∧ chan < 2 ^ 31
  cur_range : -2 ^ 63 ≤ cur ∧ cur < 2 ^ 63

inductive Outcome
  /-- There is nothing to send. -/
  | clean
  | failed
  /-- Bytes outside of the buffer are written, or bytes are sent that were not. -/
  | outside
  | sent (frame : Bytes)
deriving DecidableEq,Repr

def header (place : Place) (fmt bSize : ℕ) : Bytes := printed [flush,place.idx,place.chan,place.cur,fmt,bSize]

/-- `out_rec` up to the answer; the buffer has room for 64 bytes beside the image. -/
def outRec (place : Place) (mFmt : ℕ) (c : Current) : Outcome :=
  match c.flds with
  | none => .clean
  | some flds =>
    if ¬ c.dirty then .clean
    else
      match c.fdesc.bind fun fdesc => formatOf fdesc (mFmt % 64) with
      | none => .failed
      | some desc =>
        match sizeFields desc.hasBlob (desc.fieldSizes.zip flds) desc.rfLen with
        | none => .failed
        | some bSize =>
          let head := header place (mFmt % 64) bSize
          let out := outFields (desc.fieldSizes.zip flds)
          if out.1.length≠desc.rfLen ∨ bSize+64 < head.length+1 ∨ bSize+64 < head.length+desc.rfLen+out.2.length then .outside
          else .sent (head++out.1++out.2)

/-! ## The server -/

/-- `dispatch` refuses a payload of no bytes, so that there is no data. -/
def received (payload : Bytes) : Option Bytes := if payload = [] then none else some payload

/-- What `validate_flush` finds of the data. -/
def validatePayload (desc : RFDesc) (data : Option Bytes) : Bool :=
  match data with
  | none => false
  | some image => validateImage desc image

/-! ## Images -/

/-- The fields that the client takes for blobs. -/
def blobCount (sizes : List ℤ) : ℕ := sizes.countP (· ≤ 0)

/-- The sum of the positive sizes. -/
def fixedSum (sizes : List ℤ) : ℕ := (sizes.map Int.toNat).sum

def encodeBlob (data : Bytes) : Bytes := putLong data.length++data

/-- The image is a record and the blobs of its fields, and nothing else. -/
def Consumed (desc : RFDesc) (image : Bytes) : Prop :=
  ∃ (record : Bytes) (blobs : List Bytes),record.length = desc.rfLen ∧ blobs.length = blobCount desc.fieldSizes ∧ image = record++blobs.flatMap encodeBlob

/-- The bytes of the blobs of fields. -/
def blobSum (rows : List (ℤ × Field)) : ℕ := (rows.map fun row => if row.1 ≤ 0 then row.2.blobLength+4 else 0).sum

variable {rfLen j b j' b' : ℕ} {buff image : Bytes} {sizes : List ℤ} {flds : List Field} {desc : RFDesc}

@[simp] theorem fixedSum_cons (size : ℤ) (sizes : List ℤ) : fixedSum (size::sizes) = size.toNat+fixedSum sizes := by
  simp only [fixedSum,List.map_cons,List.sum_cons]

@[simp] theorem blobSum_cons (size : ℤ) (f : Field) (rows : List (ℤ × Field)) :
    blobSum ((size,f)::rows) = (if size ≤ 0 then f.blobLength+4 else 0)+blobSum rows := by
  simp only [blobSum,List.map_cons,List.sum_cons]

theorem blobCount_cons (size : ℤ) (sizes : List ℤ) : blobCount (size::sizes) = blobCount sizes+if size ≤ 0 then 1 else 0 := by
  simp only [blobCount,List.countP_cons,decide_eq_true_eq]

/-! ## What `in_rec` takes is what `out_rec` puts -/

/-- The fields are the bytes between the places before and behind the loop. -/
structure Taken (buff : Bytes) (sizes : List ℤ) (flds : List Field) (j b j' b' : ℕ) : Prop where
  fixed : j' = j+fixedSum sizes
  blobs : b' = b+blobSum (sizes.zip flds)
  bound : b' ≤ buff.length
  count : flds.length = sizes.length
  out_fixed : (outFields (sizes.zip flds)).1 = slice buff j (fixedSum sizes)
  out_blobs : (outFields (sizes.zip flds)).2 = slice buff b (blobSum (sizes.zip flds))
  whole : ∀ row∈sizes.zip flds,row.1 ≤ 0 → row.2.data.length = row.2.blobLength

theorem inFields_taken (h : inFields rfLen buff sizes j b = some (flds,j',b')) (hb : b ≤ buff.length) :
    Taken buff sizes flds j b j' b' := by
  induction sizes generalizing j b flds with
  | nil =>
    simp only [inFields,Option.some.injEq,Prod.mk.injEq] at h
    obtain ⟨rfl,rfl,rfl⟩ := h
    exact ⟨rfl,rfl,hb,rfl,(slice_zero ..).symm,(slice_zero ..).symm,fun row hrow => by cases hrow⟩
  | cons size sizes ih =>
    rw [inFields] at h
    split at h
    · rename_i hsize
      split at h
      · cases h
      · rename_i hfour
        dsimp only at h
        split at h
        · cases h
        · rename_i hlen
          obtain ⟨⟨more,j1,b1⟩,hmore,hout⟩ := Option.map_eq_some_iff.1 h
          simp only [Prod.mk.injEq] at hout
          obtain ⟨rfl,rfl,rfl⟩ := hout
          have ht := ih hmore (by omega)
          have hhead : (slice buff b 4).length = 4 := length_slice_of_le (by omega)
          have hput : putLong (getBE (slice buff b 4)) = slice buff b 4 := by
            have := putBE_getBE (slice buff b 4)
            rwa [hhead] at this
          have hdata : (slice buff (b+4) (getBE (slice buff b 4))).take (getBE (slice buff b 4)) = slice buff (b+4) (getBE (slice buff b 4)) := by
            apply List.take_of_length_le
            rw [length_slice]
            omega
          have hneg : size.toNat = 0 := Int.toNat_of_nonpos hsize
          constructor
          · rw [ht.fixed,fixedSum_cons,hneg,Nat.zero_add]
          · rw [ht.blobs,List.zip_cons_cons,blobSum_cons,if_pos hsize]
            dsimp only
            omega
          · exact ht.bound
          · rw [List.length_cons,List.length_cons,ht.count]
          · rw [List.zip_cons_cons,outFields,if_pos hsize,fixedSum_cons,hneg,Nat.zero_add]
            exact ht.out_fixed
          · rw [List.zip_cons_cons,outFields,if_pos hsize,blobSum_cons,if_pos hsize]
            dsimp only
            have hsum : getBE (slice buff b 4)+4+blobSum (sizes.zip more) = 4+(getBE (slice buff b 4)+blobSum (sizes.zip more)) := by
              omega
            rw [ht.out_blobs,hput,hdata,hsum,slice_split,slice_split,List.append_assoc]
          · intro row hrow hblob
            rw [List.zip_cons_cons] at hrow
            rcases List.mem_cons.1 hrow with rfl | hrow
            · exact length_slice_of_le (by omega)
            · exact ht.whole row hrow hblob
    · rename_i hsize
      split at h
      · cases h
      · rename_i hroom
        obtain ⟨⟨more,j1,b1⟩,hmore,hout⟩ := Option.map_eq_some_iff.1 h
        simp only [Prod.mk.injEq] at hout
        obtain ⟨rfl,rfl,rfl⟩ := hout
        have ht := ih hmore hb
        have hdata : (slice buff j size.toNat).take size.toNat = slice buff j size.toNat := by
          apply List.take_of_length_le
          rw [length_slice]
          omega
        constructor
        · rw [ht.fixed,fixedSum_cons,Nat.add_assoc]
        · rw [ht.blobs,List.zip_cons_cons,blobSum_cons,if_neg hsize,Nat.zero_add]
        · exact ht.bound
        · rw [List.length_cons,List.length_cons,ht.count]
        · rw [List.zip_cons_cons,outFields,if_neg hsize,fixedSum_cons,slice_split]
          dsimp only
          rw [hdata,ht.out_fixed]
        · rw [List.zip_cons_cons,outFields,if_neg hsize,blobSum_cons,if_neg hsize,Nat.zero_add]
          exact ht.out_blobs
        · intro row hrow hblob
          rw [List.zip_cons_cons] at hrow
          rcases List.mem_cons.1 hrow with rfl | hrow
          · exact absurd hblob hsize
          · exact ht.whole row hrow hblob

/-- The blobs of fields. -/
def blobsOf (rows : List (ℤ × Field)) : List Bytes := (rows.filter fun row => row.1 ≤ 0).map fun row => row.2.data

theorem outFields_blobs {rows : List (ℤ × Field)} (h : ∀ row∈rows,row.1 ≤ 0 → row.2.data.length = row.2.blobLength) :
    (outFields rows).2 = (blobsOf rows).flatMap encodeBlob := by
  induction rows with
  | nil => rfl
  | cons row rows ih =>
    have hrest := ih fun r hr => h r (List.mem_cons_of_mem _ hr)
    obtain ⟨size,f⟩ := row
    rw [outFields,blobsOf,List.filter_cons]
    by_cases hsize : size ≤ 0
    · have hwhole : f.data.length = f.blobLength := h _ List.mem_cons_self hsize
      rw [if_pos hsize,if_pos (decide_eq_true hsize),List.map_cons,List.flatMap_cons,← blobsOf,← hrest,encodeBlob,hwhole,
        List.take_of_length_le (Nat.le_of_eq hwhole)]
    · rw [if_neg hsize,if_neg (by rw [decide_eq_true_eq]; exact hsize),← blobsOf]
      exact hrest

theorem length_blobsOf (h : flds.length = sizes.length) : (blobsOf (sizes.zip flds)).length = blobCount sizes := by
  have hmap : (sizes.zip flds).map Prod.fst = sizes := List.map_fst_zip (Nat.le_of_eq h.symm)
  rw [blobsOf,List.length_map,← List.countP_eq_length_filter,blobCount]
  nth_rewrite 2 [← hmap]
  rw [List.countP_map]
  rfl

/-- The fixed fields fill the record, and the image is what is put out again. -/
structure Parsed (desc : RFDesc) (image : Bytes) (flds : List Field) : Prop where
  record : desc.rfLen = fixedSum desc.fieldSizes
  total : desc.rfLen+blobSum (desc.fieldSizes.zip flds) = image.length
  count : flds.length = desc.fieldSizes.length
  out_record : (outFields (desc.fieldSizes.zip flds)).1 = image.take desc.rfLen
  out_blobs : (outFields (desc.fieldSizes.zip flds)).2 = image.drop desc.rfLen
  consumed : Consumed desc image

theorem fieldsOf_parsed (h : fieldsOf desc image = some flds) : Parsed desc image flds := by
  rw [fieldsOf] at h
  split at h
  · cases h
  · rename_i hle
    split at h
    · cases h
    · rename_i out hin
      split at h
      · cases h
      · rename_i hends
        obtain rfl := Option.some.inj h
        have ht : Taken image desc.fieldSizes out.1 0 desc.rfLen out.2.1 out.2.2 := inFields_taken hin (by omega)
        have hfixed := ht.fixed
        have hblobs := ht.blobs
        have hrecord : desc.rfLen = fixedSum desc.fieldSizes := by omega
        have hdrop : (outFields (desc.fieldSizes.zip out.1)).2 = image.drop desc.rfLen := by
          rw [ht.out_blobs]
          apply List.take_of_length_le
          rw [List.length_drop]
          omega
        refine ⟨hrecord,by omega,ht.count,?_,hdrop,image.take desc.rfLen,blobsOf (desc.fieldSizes.zip out.1),?_,length_blobsOf ht.count,?_⟩
        · rw [ht.out_fixed,← hrecord]
          rfl
        · rw [List.length_take]
          omega
        · rw [← outFields_blobs ht.whole,hdrop,List.take_append_drop]

/-- Every image that is used up is taken. -/
theorem inFields_encode {blobs : List Bytes} {pre : Bytes} (hcount : blobs.length = blobCount sizes) (hsum : j+fixedSum sizes ≤ rfLen)
    (hlen : (pre++blobs.flatMap encodeBlob).length < 2 ^ 32) :
    ∃ flds,inFields rfLen (pre++blobs.flatMap encodeBlob) sizes j pre.length =
      some (flds,j+fixedSum sizes,(pre++blobs.flatMap encodeBlob).length) := by
  induction sizes generalizing j blobs pre with
  | nil =>
    obtain rfl := List.length_eq_zero_iff.1 hcount
    refine ⟨[],?_⟩
    rw [List.flatMap_nil,List.append_nil]
    rfl
  | cons size sizes ih =>
    rw [blobCount_cons] at hcount
    rw [fixedSum_cons] at hsum ⊢
    rw [inFields]
    by_cases hsize : size ≤ 0
    · rw [if_pos hsize] at hcount
      have hneg : size.toNat = 0 := Int.toNat_of_nonpos hsize
      cases blobs with
      | nil => cases hcount
      | cons data blobs =>
        have hsplit : pre++(data::blobs).flatMap encodeBlob = pre++encodeBlob data++blobs.flatMap encodeBlob := by
          rw [List.flatMap_cons,List.append_assoc]
        rw [hsplit] at hlen ⊢
        obtain ⟨flds,hflds⟩ := ih (j := j) (Nat.succ.inj hcount) (by omega) hlen
        have hlength : (pre++encodeBlob data++blobs.flatMap encodeBlob).length =
            pre.length+4+data.length+(blobs.flatMap encodeBlob).length := by
          simp only [encodeBlob,List.length_append,length_putLong]
          omega
        have hhead : slice (pre++encodeBlob data++blobs.flatMap encodeBlob) pre.length 4 = putLong data.length := by
          simp only [encodeBlob,List.append_assoc]
          exact slice_field (length_putLong _)
        have hvalue : getBE (putLong data.length) = data.length := getBE_putBE (by omega)
        have hnext : (pre++encodeBlob data).length = pre.length+4+data.length := by
          simp only [encodeBlob,List.length_append,length_putLong]
          omega
        rw [hnext] at hflds
        rw [if_pos hsize,if_neg (by omega)]
        dsimp only
        rw [hhead,hvalue,if_neg (by omega),hflds,hneg,Nat.zero_add]
        exact ⟨_,rfl⟩
    · rw [if_neg hsize,Nat.add_zero] at hcount
      obtain ⟨flds,hflds⟩ := ih (j := j+size.toNat) hcount (by omega) hlen
      rw [if_neg hsize,if_neg (by omega),hflds,Nat.add_assoc]
      exact ⟨_,rfl⟩

theorem fieldsOf_iff (hsum : desc.rfLen = fixedSum desc.fieldSizes) (hlen : image.length < 2 ^ 31) :
    (fieldsOf desc image).isSome ↔ Consumed desc image := by
  constructor
  · intro h
    obtain ⟨flds,hflds⟩ := Option.isSome_iff_exists.1 h
    exact (fieldsOf_parsed hflds).consumed
  · rintro ⟨record,blobs,hrecord,hcount,rfl⟩
    obtain ⟨flds,hflds⟩ := @inFields_encode desc.rfLen 0 desc.fieldSizes blobs record hcount (by omega) (by omega)
    rw [hrecord] at hflds
    have hle : ¬ (record++blobs.flatMap encodeBlob).length < desc.rfLen := by
      rw [List.length_append]
      omega
    rw [fieldsOf,if_neg hle,hflds]
    dsimp only
    rw [if_neg (by omega)]
    rfl

/-! ## Sizes -/

/-- The number of blobs in the description counts all fields that the client takes for blobs only if none has a negative size. -/
theorem hasBlob_lt_iff (desc : RFDesc) :
    desc.hasBlob ≤ blobCount desc.fieldSizes ∧ (desc.hasBlob = blobCount desc.fieldSizes ↔ ∀ size∈desc.fieldSizes,0 ≤ size) := by
  rw [RFDesc.hasBlob,blobCount]
  generalize desc.fieldSizes = sizes
  induction sizes with
  | nil => exact ⟨le_rfl,by simp⟩
  | cons size sizes ih =>
    obtain ⟨hle,hiff⟩ := ih
    rw [List.count_cons,List.countP_cons,List.forall_mem_cons,← hiff]
    simp only [beq_iff_eq,decide_eq_true_eq]
    rcases lt_trichotomy size 0 with hneg | rfl | hpos
    · rw [if_neg (by omega),if_pos (by omega)]
      omega
    · rw [if_pos rfl,if_pos le_rfl]
      omega
    · rw [if_neg (by omega),if_neg (by omega)]
      omega

theorem blobSum_eq_zero_iff (rows : List (ℤ × Field)) : blobSum rows = 0 ↔ blobCount (rows.map Prod.fst) = 0 := by
  induction rows with
  | nil => exact Iff.rfl
  | cons row rows ih =>
    obtain ⟨size,f⟩ := row
    rw [blobSum_cons,List.map_cons,blobCount_cons]
    by_cases hsize : size ≤ 0
    · rw [if_pos hsize,if_pos hsize]
      omega
    · rw [if_neg hsize,if_neg hsize,Nat.zero_add,Nat.add_zero]
      exact ih

/-- The size is that of the image exactly if no blob is left when the loop ends. -/
theorem sizeFields_total {rows : List (ℤ × Field)} {left n : ℕ} (hleft : left ≤ blobCount (rows.map Prod.fst))
    (htotal : n+blobSum rows ≤ intMax) :
    ∃ bSize,sizeFields left rows n = some bSize ∧ (bSize = n+blobSum rows ↔ left = blobCount (rows.map Prod.fst)) := by
  induction rows generalizing left n with
  | nil =>
    obtain rfl : left = 0 := Nat.le_zero.1 hleft
    exact ⟨n,rfl,by simp [blobSum,blobCount]⟩
  | cons row rows ih =>
    cases left with
    | zero =>
      have hzero := blobSum_eq_zero_iff (row::rows)
      exact ⟨n,rfl,by omega⟩
    | succ left =>
      obtain ⟨size,f⟩ := row
      rw [List.map_cons,blobCount_cons] at hleft ⊢
      rw [blobSum_cons] at htotal ⊢
      rw [sizeFields]
      by_cases hsize : size ≤ 0
      · rw [if_pos hsize] at hleft htotal
        obtain ⟨bSize,hsome,hiff⟩ := @ih left (n+(f.blobLength+4)) (by omega) (by omega)
        refine ⟨bSize,?_,?_⟩
        · rw [if_pos hsize,if_neg (by omega)]
          exact hsome
        · rw [if_pos hsize,if_pos hsize]
          omega
      · rw [if_neg hsize] at hleft htotal
        obtain ⟨bSize,hsome,hiff⟩ := @ih (left+1) n (by omega) (by omega)
        refine ⟨bSize,?_,?_⟩
        · rw [if_neg hsize]
          exact hsome
        · rw [if_neg hsize,if_neg hsize]
          omega

/-! ## Frames -/

theorem length_signed_le {n : ℤ} {k : ℕ} (hk : 1 ≤ k) (h : n.natAbs < 10 ^ k) :
    ((if n < 0 then [minus] else [])++decimal n.natAbs).length ≤ k+1 := by
  have hdec := length_decimal_le hk h
  rw [List.length_append]
  split
  · rw [List.length_singleton]
    omega
  · rw [List.length_nil]
    omega

theorem signed_natCast (n : ℕ) : (if (n : ℤ) < 0 then [minus] else [])++decimal (n : ℤ).natAbs = decimal n := by
  rw [if_neg (by omega),Int.natAbs_natCast,List.nil_append]

/-- The numbers and their separators fit the 64 bytes, with a NUL. -/
theorem length_header_lt {bSize fmt : ℕ} (place : Place) (hfmt : fmt < 64) (hsize : bSize ≤ intMax) : (header place fmt bSize).length < 63 := by
  obtain ⟨hidx,hidx'⟩ := place.idx_range
  obtain ⟨hchan,hchan'⟩ := place.chan_range
  obtain ⟨hcur,hcur'⟩ := place.cur_range
  rw [intMax] at hsize
  have hflush : (decimal 23).length ≤ 2 := length_decimal_le (by decide) (by decide)
  have hidx := @length_signed_le place.idx 10 (by decide) (by omega)
  have hchan := @length_signed_le place.chan 10 (by decide) (by omega)
  have hcur := @length_signed_le place.cur 19 (by decide) (by omega)
  have hfmt := @length_decimal_le fmt 2 (by decide) (by omega)
  have hsize := @length_decimal_le bSize 10 (by decide) (by omega)
  have hfirst : flush = (23 : ℕ) := rfl
  simp only [header,printed_cons,hfirst,signed_natCast,List.length_append,List.length_cons] at *
  have hnil : (printed []).length = 0 := rfl
  omega

/-- Two headers of one record differ if the lengths do. -/
theorem header_injective {place : Place} {fmt n m : ℕ} (h : header place fmt n = header place fmt m) : n = m := by
  have hlist := printed_injective h
  simp only [List.cons.injEq,Int.natCast_inj,and_true,true_and] at hlist
  exact hlist

/-- What is sent for a record that has been taken from an image. -/
theorem outRec_parsed {fdesc : List RFDesc} {place : Place} {fmt mFmt : ℕ} (hfmt : mFmt % 64 = fmt) (hdesc : formatOf fdesc fmt = some desc)
    (hlen : image.length < 2 ^ 31) (h : Parsed desc image flds) :
    outRec place mFmt { dirty := true,flds := some flds,fdesc := some fdesc } = .sent (header place fmt image.length++image) ↔
      ∀ size∈desc.fieldSizes,0 ≤ size := by
  have hmap : (desc.fieldSizes.zip flds).map Prod.fst = desc.fieldSizes := List.map_fst_zip (Nat.le_of_eq h.count.symm)
  obtain ⟨hle,hiff⟩ := hasBlob_lt_iff desc
  have htotal := h.total
  have hroom : desc.rfLen+blobSum (desc.fieldSizes.zip flds) ≤ intMax := by
    rw [intMax]
    omega
  obtain ⟨bSize,hsize,hexact⟩ := @sizeFields_total (desc.fieldSizes.zip flds) desc.hasBlob desc.rfLen (by rw [hmap]; exact hle) hroom
  rw [hmap,hiff,htotal] at hexact
  have hrecord : (image.take desc.rfLen).length = desc.rfLen := by
    rw [List.length_take]
    omega
  have hframe : header place fmt bSize++image.take desc.rfLen++image.drop desc.rfLen = header place fmt bSize++image := by
    rw [List.append_assoc,List.take_append_drop]
  simp only [outRec,not_true_eq_false,if_false,Option.bind_some,hfmt,hdesc,hsize,h.out_record,h.out_blobs,hframe]
  constructor
  · intro hsent
    split at hsent
    · cases hsent
    · rename_i hfits
      have happend : header place fmt bSize++image = header place fmt image.length++image := Outcome.sent.inj hsent
      exact hexact.1 (header_injective (List.append_cancel_right happend))
  · intro hneg
    obtain rfl := hexact.2 hneg
    have hheader : (header place fmt image.length).length < 63 := by
      apply length_header_lt
      · omega
      · rw [intMax]
        omega
    rw [hrecord,if_neg (by rw [List.length_drop]; omega)]

/-! ## The server takes what is sent -/

theorem Consumed.parts (h : Consumed desc image) (hneg : ∀ size∈desc.fieldSizes,0 ≤ size) (hlen : image.length < 2 ^ 31) :
    ∃ (record : Bytes) (blobs : List Bytes),Parts desc image record (blobs.map .contents) := by
  obtain ⟨record,blobs,hrecord,hcount,himage⟩ := h
  refine ⟨record,blobs,hrecord,?_,?_,?_⟩
  · rw [List.length_map,hcount,RFDesc.blobFields,length_fieldsFrom]
    exact ((hasBlob_lt_iff desc).2.2 hneg).symm
  · intro g hg
    obtain ⟨data,hdata,rfl⟩ := List.mem_map.1 hg
    have hle : (encodeBlob data).length ≤ (blobs.flatMap encodeBlob).length := by
      rw [List.length_flatMap]
      exact List.single_le_sum (by simp) _ (List.mem_map_of_mem hdata)
    rw [himage,List.length_append] at hlen
    rw [encodeBlob,List.length_append] at hle
    simp only [Given.Ok,intMax]
    omega
  · rw [himage,List.flatMap_map]
    rfl

theorem validatePayload_consumed (h : Consumed desc image) (hneg : ∀ size∈desc.fieldSizes,0 ≤ size) (hlen : image.length < 2 ^ 31)
    (hne : image≠[]) : validatePayload desc (received image) := by
  obtain ⟨record,blobs,hparts⟩ := h.parts hneg hlen
  rw [received,if_neg hne]
  exact validateImage_iff.2 ⟨_,_,hparts⟩

variable {c : Current} {fdesc : List RFDesc} {fmt mFmt : ℕ}

theorem inRec_loaded (hload : c.fdesc = some fdesc) (hdesc : formatOf fdesc fmt = some desc) (getDesc : Option (List RFDesc)) :
    inRec getDesc false fmt image c =
      match fieldsOf desc image with
      | none => (false,c)
      | some flds => (true,{ dirty := false,flds := some flds,fdesc := some fdesc }) := by
  simp only [inRec,Bool.false_eq_true,if_false,hload,Option.some_or,hdesc]

/-- Nothing is published of an image that is not used up. -/
theorem inRec_rejected {getDesc : Option (List RFDesc)} {reload : Bool} (h : (inRec getDesc reload fmt image c).1 = false) :
    (inRec getDesc reload fmt image c).2 = c := by
  simp only [inRec] at h ⊢
  split
  · rfl
  · split
    · rfl
    · split
      · rfl
      · rename_i hdesc flds hflds
        simp only [*] at h
        cases h

/-- `in_rec` takes exactly the images that are used up and otherwise changes nothing; for a changed record of such an image
`out_rec` sends it as it was, and the server takes it, exactly if no field has a negative size and the image is not empty. -/
theorem client_round_trip_iff (hload : c.fdesc = some fdesc) (hdesc : formatOf fdesc fmt = some desc)
    (hsum : desc.rfLen = fixedSum desc.fieldSizes) (hfmt : mFmt % 64 = fmt) (hlen : image.length < 2 ^ 31)
    (getDesc : Option (List RFDesc)) (place : Place) :
    ((inRec getDesc false fmt image c).1 = true ↔ Consumed desc image) ∧
      ((inRec getDesc false fmt image c).1 = false → (inRec getDesc false fmt image c).2 = c) ∧
      ((inRec getDesc false fmt image c).1 = true →
        ((outRec place mFmt { (inRec getDesc false fmt image c).2 with dirty := true } = .sent (header place fmt image.length++image) ∧
            validatePayload desc (received image) = true) ↔
          (∀ size∈desc.fieldSizes,0 ≤ size) ∧ image≠[])) := by
  refine ⟨?_,inRec_rejected,?_⟩
  · rw [inRec_loaded hload hdesc,← fieldsOf_iff hsum hlen]
    cases fieldsOf desc image with
    | none => simp
    | some flds => simp
  · rw [inRec_loaded hload hdesc]
    cases hflds : fieldsOf desc image with
    | none =>
      intro h
      cases h
    | some flds =>
      intro _
      have hparsed := fieldsOf_parsed hflds
      have hsent := @outRec_parsed image flds desc fdesc place fmt mFmt hfmt hdesc hlen hparsed
      constructor
      · rintro ⟨hout,hvalid⟩
        refine ⟨hsent.1 hout,?_⟩
        rintro rfl
        cases hvalid
      · rintro ⟨hneg,hne⟩
        exact ⟨hsent.2 hneg,validatePayload_consumed hparsed.consumed hneg hlen hne⟩

/-! ## Samples -/

theorem three_lt : 3 < 2 ^ 15 := by decide

theorem zero_lt : 0 < 2 ^ 15 := by decide

/-- A field of two bytes, a blob, and a field of one byte. -/
def mixedDesc : RFDesc := ⟨3,[2,0,1],three_lt⟩

/-- A field with a negative size. -/
def negativeDesc : RFDesc := ⟨0,[-1],zero_lt⟩

/-- No field at all. -/
def emptyDesc : RFDesc := ⟨0,[],zero_lt⟩

def loaded : Current := { fdesc := some [mixedDesc,negativeDesc,emptyDesc] }

theorem int_range : -2 ^ 31 ≤ (1 : ℤ) ∧ (1 : ℤ) < 2 ^ 31 := by decide

theorem long_range : -2 ^ 63 ≤ (42 : ℤ) ∧ (42 : ℤ) < 2 ^ 63 := by decide

def someplace : Place := ⟨1,1,42,int_range,int_range,long_range⟩

def mixedImage : Bytes := [1,2,3,0,0,0,1,9]

theorem client_round_trip_iff_mixed :
    ((inRec none false 1 mixedImage loaded).1 = true ↔ Consumed mixedDesc mixedImage) ∧
      ((inRec none false 1 mixedImage loaded).1 = false → (inRec none false 1 mixedImage loaded).2 = loaded) ∧
      ((inRec none false 1 mixedImage loaded).1 = true →
        ((outRec someplace 1 { (inRec none false 1 mixedImage loaded).2 with dirty := true } =
              .sent (header someplace 1 mixedImage.length++mixedImage) ∧ validatePayload mixedDesc (received mixedImage) = true) ↔
          (∀ size∈mixedDesc.fieldSizes,0 ≤ size) ∧ mixedImage≠[])) :=
  client_round_trip_iff (show loaded.fdesc = some [mixedDesc,negativeDesc,emptyDesc] from rfl) (show formatOf _ 1 = some mixedDesc from rfl)
    (show mixedDesc.rfLen = fixedSum mixedDesc.fieldSizes from rfl) (show 1 % 64 = 1 from rfl)
    (show mixedImage.length < 2 ^ 31 by decide) none someplace

/-- A blob of no bytes for the field with the negative size is taken, and sent with a length of zero; the record without fields is
taken and sent, and the server refuses it. -/
theorem negative_size_misdeclared :
    (inRec none false 2 [0,0,0,0] loaded).1 = true ∧
      outRec someplace 2 { (inRec none false 2 [0,0,0,0] loaded).2 with dirty := true } = .sent (header someplace 2 0++[0,0,0,0]) ∧
      header someplace 2 0≠header someplace 2 4 ∧ validatePayload negativeDesc (received [0,0,0,0]) = false ∧
      (inRec none false 3 [] loaded).1 = true ∧
      outRec someplace 3 { (inRec none false 3 [] loaded).2 with dirty := true } = .sent (header someplace 3 0) ∧
      validatePayload emptyDesc (received []) = false := by
  decide +kernel

/-! ## To the server and back -/

variable {record : Bytes} {blobs : List Bytes} {calls : FlushCalls} {o : Owner} {dir : Directories.Dir Text Bytes}

/-- The old blobs do not matter when all of them are given. -/
theorem stored_contents (hcount : (blobs.map Given.contents).length = desc.blobFields.length) :
    desc.blobFields.map (contentsOf o (storeAll o (desc.blobFields.zip (blobs.map .contents)) dir)) = blobs := by
  rw [contentsOf_storeAll hcount,kept,List.zip_map_right,List.map_map]
  rw [List.length_map] at hcount
  exact List.map_snd_zip hcount.le

theorem getBlobs_contents (hrecord : record.length = desc.rfLen) (hblobs : desc.blobFields.map (contentsOf o dir) = blobs)
    (hlen : (record++blobs.flatMap encodeBlob).length ≤ intMax) (max : Option ℤ) :
    ∃ r,getBlobs (fun _ => true) desc o dir max record = .ok r ∧ r.image = record++blobs.flatMap encodeBlob := by
  have htotal : imageLength desc.rfLen blobs = (record++blobs.flatMap encodeBlob).length := by
    rw [List.length_append,List.length_flatMap,hrecord]
    simp [imageLength,encodeBlob]
  have hgot := getBlobs_got (fun _ => true) desc o dir max record
  rw [hblobs] at hgot
  generalize getBlobs (fun _ => true) desc o dir max record = out at hgot ⊢
  cases hgot with
  | refused code reason =>
    obtain ⟨j,hj,hfalse | hlong⟩ := reason
    · cases hfalse
    · have hle := length_le_imageLength desc.rfLen (hblobs ▸ List.mem_map_of_mem hj)
      omega
  | outside long => omega
  | added exact lengths image => exact ⟨_,rfl,image hrecord⟩

/-- A changed record goes to the server with FLUSH, and the client that reads it again has the fields it had. -/
theorem flushed_record_returns (hload : c.fdesc = some fdesc) (hdesc : formatOf fdesc fmt = some desc)
    (hneg : ∀ size∈desc.fieldSizes,0 ≤ size) (hfmt : mFmt % 64 = fmt) (hne : image≠[]) (hlen : image.length < 2 ^ 31)
    (hflds : fieldsOf desc image = some flds) (hcalls : calls.Succeed desc o) (hrecno : o.recno+17 ≤ int64Max)
    (place : Place) (s : Store) (max : Option ℤ) (getDesc : Option (List RFDesc)) :
    outRec place mFmt { c with dirty := true,flds := some flds } = .sent (header place fmt image.length++image) ∧
      validatePayload desc (received image) ∧ ∃ s' record r,Blobs.flush calls desc o image s = (.ok 4,s') ∧
        readAt s'.file (o.recno+17) desc.rfLen = some record ∧
        getBlobs (fun _ => true) desc o s'.blobs max record = .ok r ∧
        inRec getDesc false fmt r.image c = (true,{ c with dirty := false,flds := some flds }) := by
  have hparsed := fieldsOf_parsed hflds
  obtain ⟨record,blobs,hparts⟩ := hparsed.consumed.parts hneg hlen
  have hmax : image.length ≤ intMax := Nat.le_sub_one_of_lt hlen
  have himage : image = record++blobs.flatMap encodeBlob := by
    rw [hparts.image_eq,List.flatMap_map]
    rfl
  obtain ⟨r,hget,hback⟩ := getBlobs_contents hparts.length (stored_contents hparts.count) (himage ▸ hmax) max
  have hread := readAt_writeAt_inside s.file (o.recno+17) record 0 record.length (by omega)
  rw [hload]
  refine ⟨(outRec_parsed hfmt hdesc hlen hparsed).2 hneg,validatePayload_consumed hparsed.consumed hneg hlen hne,
    _,record,r,flush_parts hparts hcalls hmax hrecno s,?_,hget,?_⟩
  · rw [← hparts.length]
    simpa using hread
  · rw [hback,← himage,inRec_loaded hload hdesc,hflds]

theorem flushed_record_returns_mixed : ∃ s' record r,
    Blobs.flush quietCalls mixedDesc oneOwner mixedImage storedBefore = (.ok 4,s') ∧ readAt s'.file (oneOwner.recno+17) 3 = some record ∧
      getBlobs (fun _ => true) mixedDesc oneOwner s'.blobs none record = .ok r ∧
      inRec none false 1 r.image loaded = (true,{ loaded with flds := some [⟨[1,2],0⟩,⟨[9],1⟩,⟨[3],0⟩] }) :=
  (flushed_record_returns (show loaded.fdesc = some [mixedDesc,negativeDesc,emptyDesc] from rfl) (show formatOf _ 1 = some mixedDesc from rfl)
    (by decide) (show 1 % 64 = 1 from rfl) (by decide) (by decide) (by decide +kernel) ⟨by decide,by decide +kernel,rfl,rfl,fun _ => rfl⟩
    (by decide +kernel) someplace storedBefore none none).2.2

end Dataman.ClientRecords

import Dataman.FieldText
import Dataman.RecordImages

/-!
# Making a data file (`mkdf.c`)

`mkdf` asks for the lengths of the fields and writes one record for each line of an input file. At the
end it sets the next pointer of the last record to zero, and it puts the length of the longest record
where the second of the two pointers in the header begins.
-/

namespace Dataman.Mkdf
open ByteFiles FixedWidthFields FieldText
open DataFile (Entry Files encodeChain recordsOf putLl Record)

/-- How `mkdf` ends when it does not report a normal termination. -/
inductive Trouble
  /-- `delfile` -/
  | deleted
  /-- An access outside of an array, or through a null pointer. -/
  | outside
deriving DecidableEq,Repr

/-! ## The answers -/

/-- `MAXLINE`, and the room in `field`. -/
def maxline : ℕ := 10240

/-- A number that is kept in a `short`. -/
def short (n : ℕ) : ℤ := (n : ℤ).bmod (2 ^ 16)

def shortSum (sizes : List ℕ) : ℤ := short sizes.sum

/-- The answers about one format after the other, with the next free place of `field`. -/
def checkFormats : ℕ → List (List ℕ) → Except Trouble Unit
  | _,[] => .ok ()
  | idx,sizes::rest =>
    if ¬ (1 ≤ sizes.length ∧ sizes.length ≤ 999) then .error .deleted
    else if maxline < idx+2+sizes.length then .error .outside
    else if idx+2+sizes.length = maxline then .error .deleted
    else checkFormats (idx+2+sizes.length) rest

/-- The words of `field`. -/
def describe (formats : List (List ℕ)) : List ℕ :=
  formats.length::formats.flatMap fun sizes => sizes.length::sizes.sum::sizes

def descBytes (formats : List (List ℕ)) : Bytes := (describe formats).flatMap (putBE 2)

/-- `flen` -/
def flen (formats : List (List ℕ)) : ℕ := (descBytes formats).length

def longest (formats : List (List ℕ)) : ℕ := (formats.map fun sizes => (shortSum sizes).toNat).foldl max 0

/-- The length of the description and the description. One word more is copied to `buff`. -/
def writeHeader (formats : List (List ℕ)) : Except Trouble Bytes :=
  if ¬ (1 ≤ formats.length ∧ formats.length ≤ 63) then .error .deleted
  else do
    checkFormats 1 formats
    if maxline < flen formats+4 then .error .outside else .ok (putBE 2 (flen formats)++descBytes formats)

/-! ## The lines -/

def newline : UInt8 := 10
def colon : UInt8 := 58
def backslash : UInt8 := 92
def blank : UInt8 := 32

/-- What `fgets` reads at a time: a line, or as much of it as fits. -/
def chunks : ℕ → Bytes → Bytes → List Bytes
  | _,cur,[] => if cur = [] then [] else [cur.reverse]
  | room,cur,b::text =>
    if b = newline ∨ room ≤ 1 then (b::cur).reverse::chunks (maxline - 1) [] text else chunks (room - 1) (b::cur) text

/-- One field and what follows its separator. A colon behind a backslash is text, and the backslash is not. -/
def takeField : Bytes → Bytes → Option (Bytes × Bytes)
  | _,[] => none
  | acc,b::text =>
    if b = colon then
      if acc.head? = some backslash then takeField (b::acc.tail) text else some (acc.reverse,text)
    else takeField (b::acc) text

/-- The data of a record of `len` bytes, from what is there of it. The buffer is as long as the longest record. -/
def fill (longest : ℕ) (len : ℤ) : List ℕ → Bytes → Bytes → Except Trouble Bytes
  | [],data,_ => .ok data
  | size::sizes,data,text =>
    if text.head? = some newline then
      if len < data.length then .error .outside else .ok (data++List.replicate (len.toNat - data.length) blank)
    else
      match takeField [] text with
      | none => .error .outside
      | some (field,rest) =>
        if field≠[] ∧ size = 0 ∨ size < field.length then .error .deleted
        else if longest < data.length+size then .error .outside
        else fill longest len sizes (data++(field++List.replicate (size - field.length) blank)) rest

/-- The file so far, `cur_rec` and `next_rec`. -/
structure Writing where
  out : Bytes
  cur : ℕ
  next : ℕ
deriving DecidableEq,Repr

/-- One line. A file cannot become longer than an offset can say. -/
def addLine (formats : List (List ℕ)) (w : Writing) (chunk : Bytes) : Except Trouble Writing :=
  match cut colon 1 (cstr chunk) with
  | none => .error .outside
  | some (_,cptr) =>
    let cfmt := (atoi chunk).bmod 256
    if cfmt < 1 ∨ (formats.length : ℤ) < cfmt then .error .deleted
    else do
      let sizes := formats.getD (cfmt.toNat - 1) []
      let data ← fill (longest formats) (shortSum sizes) sizes [] cptr
      let next := w.next+17+data.length
      if DataFile.int64Max < next then .error .deleted
      else .ok ⟨w.out++([UInt8.ofNat cfmt.toNat]++(putLl w.cur++(putLl next++data))),w.next,next⟩

/-- The last pointer is set where `cur_rec` is, also when it is still zero. -/
def finishFile (formats : List (List ℕ)) (w : Writing) : Bytes :=
  writeAt (writeAt w.out (w.cur+9) (putLl 0)) (flen formats+10) (putBE 2 (longest formats))

/-- The file that is there after a normal termination. -/
def mkdf (formats : List (List ℕ)) (text : Bytes) : Except Trouble Bytes := do
  let header ← writeHeader formats
  let first := flen formats+18
  let w ← (chunks (maxline - 1) [] text).foldlM (addLine formats) ⟨header++(putLl first++putLl first),0,first⟩
  return finishFile formats w

theorem bind_eq_ok {α β : Type} {m : Except Trouble α} {k : α → Except Trouble β} {b : β} (h : (m >>= k) = .ok b) :
    ∃ a,m = .ok a ∧ k a = .ok b := by
  cases m with
  | error t => cases h
  | ok a => exact ⟨a,rfl,h⟩

/-! ## Sums -/

/-- The record lengths fit a `short`. -/
def Fitting (formats : List (List ℕ)) : Prop := ∀ sizes∈formats,sizes.sum < 2 ^ 15

instance decidableFitting (formats : List (List ℕ)) : Decidable (Fitting formats) :=
  inferInstanceAs (Decidable (∀ sizes∈formats,sizes.sum < 2 ^ 15))

theorem short_eq {n : ℕ} (h : n < 2 ^ 15) : short n = n := by
  apply Int.bmod_eq_of_le
  · omega
  · omega

theorem short_lt (n : ℕ) : short n < 2 ^ 15 := Int.bmod_lt (by decide)

theorem longest_lt (formats : List (List ℕ)) : longest formats < 2 ^ 15 := by
  have hall : ∀ xs : List ℕ,∀ a < 2 ^ 15,(∀ x∈xs,x < 2 ^ 15) → xs.foldl max a < 2 ^ 15 := by
    intro xs
    induction xs with
    | nil => exact fun a ha _ => ha
    | cons y xs ih =>
      intro a ha hxs
      exact ih _ (max_lt ha (hxs y List.mem_cons_self)) fun x hx => hxs x (List.mem_cons_of_mem _ hx)
  refine hall _ 0 (by decide) ?_
  intro x hx
  obtain ⟨sizes,-,rfl⟩ := List.mem_map.1 hx
  have h := short_lt sizes.sum
  rw [shortSum]
  omega

/-! ## The image -/

/-- The records before the last pointer is set. -/
def openChain (prev curr : ℕ) : List Entry → Bytes
  | [] => []
  | e::rest =>
    ([UInt8.ofNat e.fmt]++(putLl prev++(putLl (curr+e.size : ℕ)++e.data)))++openChain curr (curr+e.size) rest

theorem writeAt_field (pre old post new : Bytes) (h : old.length = new.length) :
    writeAt (pre++(old++post)) pre.length new = pre++(new++post) := by
  by_cases hnil : new = []
  · obtain rfl : old = [] := List.length_eq_zero_iff.1 (by rw [h,hnil]; rfl)
    rw [hnil,writeAt_nil]
  · rw [writeAt,if_neg hnil]
    have hgap : pre.length - (pre++(old++post)).length = 0 := by
      rw [List.length_append]
      omega
    rw [hgap,List.replicate_zero,List.append_nil,List.take_left',← h,← List.append_assoc pre old,← List.length_append,List.drop_left',
      List.append_assoc]
    · rfl
    · rfl

/-- Setting the last pointer closes the chain. -/
theorem close_chain (pre : Bytes) (prev : ℕ) {es : List Entry} (hne : es≠[]) :
    writeAt (pre++openChain prev pre.length es) (((recordsOf pre.length es).map Record.off).getLastD 0+9) (putLl 0) =
      pre++encodeChain prev pre.length es := by
  induction es generalizing pre prev with
  | nil => exact absurd rfl hne
  | cons e es ih =>
    cases es with
    | nil =>
      have h := writeAt_field (pre++([UInt8.ofNat e.fmt]++putLl prev)) (putLl (pre.length+e.size : ℕ)) e.data (putLl 0)
        (by rw [putLl,putLl,length_putBE,length_putBE])
      have hlen : (pre++([UInt8.ofNat e.fmt]++putLl prev)).length = pre.length+9 := by
        simp only [List.length_append,List.length_singleton,putLl,length_putBE]
      rw [hlen] at h
      simpa [openChain,encodeChain,recordsOf] using h
    | cons e' es =>
      rw [openChain,encodeChain,if_neg (List.cons_ne_nil _ _)]
      generalize hrec : [UInt8.ofNat e.fmt]++(putLl prev++(putLl (pre.length+e.size : ℕ)++e.data)) = rec
      have hlen : (pre++rec).length = pre.length+e.size := by
        rw [← hrec]
        simp only [List.length_append,List.length_singleton,putLl,length_putBE,Entry.size]
        omega
      have h := ih (pre++rec) pre.length (List.cons_ne_nil _ _)
      rw [hlen,List.append_assoc,List.append_assoc] at h
      exact h

/-- What is there of a record is never longer than the buffer, and all of it has the length of the format. -/
theorem length_fill {longest : ℕ} {len : ℤ} {sizes : List ℕ} {data text out : Bytes} (hlong : longest < 2 ^ 15)
    (hlen : len = short (data.length+sizes.sum)) (hdata : data.length ≤ longest) (h : fill longest len sizes data text = .ok out) :
    (out.length : ℤ) = len := by
  induction sizes generalizing data text with
  | nil =>
    obtain rfl := Except.ok.inj h
    rw [hlen,List.sum_nil,Nat.add_zero,short_eq (by omega)]
  | cons size sizes ih =>
    rw [fill] at h
    split at h
    · split at h
      · cases h
      · obtain rfl := Except.ok.inj h
        rw [List.length_append,List.length_replicate]
        omega
    · split at h
      · cases h
      · rename_i field rest _
        split at h
        · cases h
        · rename_i hsize
          split at h
          · cases h
          · rename_i hroom
            have hpad : (data++(field++List.replicate (size - field.length) blank)).length = data.length+size := by
              rw [List.length_append,List.length_append,List.length_replicate]
              omega
            refine ih ?_ (by rw [hpad]; omega) h
            rw [hlen,hpad,List.sum_cons,Nat.add_assoc]

/-- The file has the formats that `mkdf` asked for. -/
structure Describes (file : Files) (formats : List (List ℕ)) : Prop where
  hlen : file.hlen = flen formats
  rfLen : file.formats.map (·.rfLen) = formats.map List.sum
  fitting : Fitting formats

theorem Describes.length_eq {file : Files} {formats : List (List ℕ)} (h : Describes file formats) :
    file.formats.length = formats.length := by
  have := congrArg List.length h.rfLen
  rwa [List.length_map,List.length_map] at this

theorem Describes.rfLen_eq {file : Files} {formats : List (List ℕ)} (h : Describes file formats) {fmt : ℕ}
    (hfmt : 1 ≤ fmt ∧ fmt ≤ formats.length) : (file.format fmt).rfLen = (formats.getD (fmt - 1) []).sum := by
  have hlen := h.length_eq
  have hat := congrArg (fun l : List ℕ => l[fmt - 1]?) h.rfLen
  simp only [List.getElem?_map] at hat
  rw [Files.format,List.getD_eq_getElem?_getD,List.getD_eq_getElem?_getD]
  rw [List.getElem?_eq_getElem (by omega),List.getElem?_eq_getElem (by omega)] at hat ⊢
  exact Option.some.inj hat

theorem getD_mem {formats : List (List ℕ)} {fmt : ℕ} (hfmt : 1 ≤ fmt ∧ fmt ≤ formats.length) : formats.getD (fmt - 1) []∈formats := by
  rw [List.getD_eq_getElem?_getD,List.getElem?_eq_getElem (by omega)]
  exact List.getElem_mem _

/-- The parts of a line that was accepted. -/
structure Added (formats : List (List ℕ)) (w w' : Writing) (chunk : Bytes) (e : Entry) : Prop where
  fmt : (e.fmt : ℤ) = (atoi chunk).bmod 256
  bounds : 1 ≤ e.fmt ∧ e.fmt ≤ formats.length
  data : ∃ head cptr,cut colon 1 (cstr chunk) = some (head,cptr) ∧
    fill (longest formats) (shortSum (formats.getD (e.fmt - 1) [])) (formats.getD (e.fmt - 1) []) [] cptr = .ok e.data
  cur : w'.cur = w.next
  next : w'.next = w.next+e.size
  next_le : w.next+e.size ≤ DataFile.int64Max
  out : w'.out = w.out++([UInt8.ofNat e.fmt]++(putLl w.cur++(putLl (w.next+e.size : ℕ)++e.data)))

theorem addLine_ok {formats : List (List ℕ)} {w w' : Writing} {chunk : Bytes} (h : addLine formats w chunk = .ok w') :
    ∃ e,Added formats w w' chunk e := by
  rw [addLine] at h
  split at h
  · cases h
  · rename_i head cptr hcut
    dsimp only at h
    split at h
    · cases h
    · rename_i hfmt
      obtain ⟨fmt,hval⟩ : ∃ fmt : ℕ,(fmt : ℤ) = (atoi chunk).bmod 256 := ⟨((atoi chunk).bmod 256).toNat,by omega⟩
      rw [← hval,Int.toNat_natCast] at h
      obtain ⟨data,hfill,h⟩ := bind_eq_ok h
      have hsize : w.next+17+data.length = w.next+(Entry.mk fmt data).size := by rw [Entry.size,Nat.add_assoc]
      rw [hsize] at h
      split at h
      · cases h
      · rename_i hle
        obtain rfl := Except.ok.inj h
        exact ⟨⟨fmt,data⟩,hval,by dsimp only; omega,⟨head,cptr,hcut,hfill⟩,rfl,rfl,by omega,rfl⟩

theorem Added.fits {file : Files} {formats : List (List ℕ)} {w w' : Writing} {chunk : Bytes} {e : Entry} (hd : Describes file formats)
    (h : Added formats w w' chunk e) : e.Fits file := by
  obtain ⟨_,cptr,-,hfill⟩ := h.data
  have hlen := length_fill (longest_lt formats) (by rw [List.length_nil,Nat.zero_add,shortSum]) (Nat.zero_le _) hfill
  rw [shortSum,short_eq (hd.fitting _ (getD_mem h.bounds))] at hlen
  refine ⟨?_,?_⟩
  · rw [hd.length_eq]
    exact h.bounds
  · rw [hd.rfLen_eq h.bounds]
    omega

/-- The lines, one record for each. -/
inductive AddedAll (formats : List (List ℕ)) : Writing → List Bytes → List Entry → Writing → Prop
  | nil {w : Writing} : AddedAll formats w [] [] w
  | cons {w w₁ w' : Writing} {chunk : Bytes} {rest : List Bytes} {e : Entry} {es : List Entry} (line : Added formats w w₁ chunk e)
      (more : AddedAll formats w₁ rest es w') : AddedAll formats w (chunk::rest) (e::es) w'

theorem addLines_ok {formats : List (List ℕ)} {lines : List Bytes} {w w' : Writing} (h : lines.foldlM (addLine formats) w = .ok w') :
    ∃ es,AddedAll formats w lines es w' := by
  induction lines generalizing w with
  | nil =>
    obtain rfl := Except.ok.inj h
    exact ⟨[],.nil⟩
  | cons chunk lines ih =>
    rw [List.foldlM_cons] at h
    obtain ⟨w₁,hline,hrest⟩ := bind_eq_ok h
    obtain ⟨e,he⟩ := addLine_ok hline
    obtain ⟨es,hes⟩ := ih hrest
    exact ⟨e::es,.cons he hes⟩

section AddedAll
variable {formats : List (List ℕ)} {w w' : Writing} {lines : List Bytes} {es : List Entry}

theorem AddedAll.length_eq (h : AddedAll formats w lines es w') : es.length = lines.length := by
  induction h with
  | nil => rfl
  | cons line more ih => rw [List.length_cons,List.length_cons,ih]

theorem AddedAll.fits {file : Files} (hd : Describes file formats) (h : AddedAll formats w lines es w') : ∀ e∈es,e.Fits file := by
  induction h with
  | nil => simp
  | cons line more ih =>
    intro x hx
    rcases List.mem_cons.1 hx with rfl | hx
    · exact line.fits hd
    · exact ih x hx

theorem AddedAll.out (h : AddedAll formats w lines es w') :
    w'.out = w.out++openChain w.cur w.next es ∧ w'.cur = ((recordsOf w.next es).map Record.off).getLastD w.cur ∧
      w'.next = w.next+(es.map Entry.size).sum := by
  induction h with
  | nil => exact ⟨(List.append_nil _).symm,rfl,rfl⟩
  | cons line more ih =>
    obtain ⟨hout,hcur,hnext⟩ := ih
    refine ⟨?_,?_,?_⟩
    · rw [hout,line.out,line.cur,line.next,openChain,List.append_assoc]
    · rw [hcur,line.cur,line.next,recordsOf,List.map_cons,List.getLastD_cons]
    · rw [hnext,line.next,List.map_cons,List.sum_cons,Nat.add_assoc]

theorem AddedAll.next_le (h : AddedAll formats w lines es w') (hw : w.next ≤ DataFile.int64Max) : w'.next ≤ DataFile.int64Max := by
  induction h with
  | nil => exact hw
  | cons line more ih =>
    apply ih
    rw [line.next]
    exact line.next_le

end AddedAll

/-! ## The header -/

/-- The header as it is first written. -/
def firstHeader (formats : List (List ℕ)) : Bytes :=
  putBE 2 (flen formats)++descBytes formats++(putLl (flen formats+18 : ℕ)++putLl (flen formats+18 : ℕ))

/-- The second pointer, after the length of the longest record was written over its beginning. -/
def secondWord (formats : List (List ℕ)) : Bytes := putBE 2 (longest formats)++(putLl (flen formats+18 : ℕ)).drop 2

/-- What stands before the first record. -/
def finalHeader (formats : List (List ℕ)) : Bytes :=
  putBE 2 (flen formats)++descBytes formats++(putLl (flen formats+18 : ℕ)++secondWord formats)

theorem length_secondWord (formats : List (List ℕ)) : (secondWord formats).length = 8 := by
  simp only [secondWord,List.length_append,length_putBE,List.length_drop,putLl]

theorem length_finalHeader (formats : List (List ℕ)) : (finalHeader formats).length = flen formats+18 := by
  simp only [finalHeader,length_secondWord,List.length_append,putLl,length_putBE,flen]
  omega

theorem length_firstHeader (formats : List (List ℕ)) : (firstHeader formats).length = flen formats+18 := by
  simp only [firstHeader,List.length_append,putLl,length_putBE,flen]
  omega

/-- The head pointer leads to the end of the header. -/
theorem contents_head {file : Files} {formats : List (List ℕ)} (hd : Describes file formats) (hroom : flen formats+4 ≤ maxline) :
    DataFile.contents file (finalHeader formats) .head = putBE 8 (finalHeader formats).length := by
  rw [maxline] at hroom
  rw [length_finalHeader,← DataFile.putLl_natCast (by omega)]
  refine slice_at (putBE 2 (flen formats)++descBytes formats) _ (secondWord formats) rfl ?_ (by rw [putLl,length_putBE]; rfl)
  rw [List.length_append,length_putBE,← flen,← hd.hlen,Nat.add_comm]
  rfl

theorem writeAt_longest (formats : List (List ℕ)) (rest : Bytes) :
    writeAt (firstHeader formats++rest) (flen formats+10) (putBE 2 (longest formats)) = finalHeader formats++rest := by
  have hlen : (putBE 2 (flen formats)++descBytes formats++putLl (flen formats+18 : ℕ)).length = flen formats+10 := by
    simp only [List.length_append,putLl,length_putBE,flen]
    omega
  have hsplit : firstHeader formats++rest = (putBE 2 (flen formats)++descBytes formats++putLl (flen formats+18 : ℕ)) ++
      ((putLl (flen formats+18 : ℕ)).take 2++((putLl (flen formats+18 : ℕ)).drop 2++rest)) := by
    rw [← List.append_assoc (List.take 2 _),List.take_append_drop,firstHeader]
    simp only [List.append_assoc]
  rw [hsplit,← hlen,writeAt_field _ _ _ _ (by rw [List.length_take,putLl,length_putBE,length_putBE]; rfl)]
  simp only [finalHeader,secondWord,List.append_assoc]

theorem writeHeader_ok {formats : List (List ℕ)} {header : Bytes} (h : writeHeader formats = .ok header) :
    header = putBE 2 (flen formats)++descBytes formats ∧ flen formats+4 ≤ maxline ∧ 1 ≤ formats.length ∧ formats.length ≤ 63 := by
  rw [writeHeader] at h
  split at h
  · cases h
  · rename_i hcount
    rw [not_not] at hcount
    obtain ⟨_,-,h⟩ := bind_eq_ok h
    split at h
    · cases h
    · rename_i hroom
      exact ⟨(Except.ok.inj h).symm,by omega,hcount⟩

/-- The second pointer is not zero. Its low six bytes are those of the first one. -/
theorem getBE_secondWord {formats : List (List ℕ)} (h : flen formats+4 ≤ maxline) :
    getBE (secondWord formats) = longest formats*256 ^ 6+(flen formats+18) := by
  rw [maxline] at h
  have hlong := longest_lt formats
  rw [secondWord,DataFile.putLl_natCast (by omega),putBE_add 2 6,List.drop_left' (length_putBE _ _),getBE_append,length_putBE,
    getBE_putBE (by omega),getBE_putBE (by omega)]

/-- The steps of a `mkdf` that reports a normal termination. -/
theorem mkdf_ok {formats : List (List ℕ)} {text f : Bytes} (h : mkdf formats text = .ok f) :
    flen formats+4 ≤ maxline ∧ (1 ≤ formats.length ∧ formats.length ≤ 63) ∧
      ∃ es w,AddedAll formats ⟨firstHeader formats,0,flen formats+18⟩ (chunks (maxline - 1) [] text) es w ∧ f = finishFile formats w := by
  obtain ⟨header,hheader,h⟩ := bind_eq_ok h
  obtain ⟨rfl,hroom,hcount⟩ := writeHeader_ok hheader
  obtain ⟨w,hlines,h⟩ := bind_eq_ok h
  obtain ⟨es,hes⟩ := addLines_ok hlines
  exact ⟨hroom,hcount,es,w,hes,(Except.ok.inj h).symm⟩

/-- A file with at least one line is a header and one record for each line. -/
theorem finishFile_eq {formats : List (List ℕ)} {lines : List Bytes} {es : List Entry} {w : Writing}
    (h : AddedAll formats ⟨firstHeader formats,0,flen formats+18⟩ lines es w) (hne : lines≠[]) :
    finishFile formats w = finalHeader formats++encodeChain 0 (finalHeader formats).length es := by
  have hne' : es≠[] := by
    intro hnil
    have hlen := h.length_eq
    rw [hnil,List.length_nil] at hlen
    exact hne (List.length_eq_zero_iff.1 hlen.symm)
  obtain ⟨hout,hcur,-⟩ := h.out
  have hclose := close_chain (firstHeader formats) 0 hne'
  rw [length_firstHeader] at hclose
  rw [finishFile,hout,hcur,hclose,writeAt_longest,length_finalHeader]

theorem chunks_ne_nil (room : ℕ) (cur : Bytes) {text : Bytes} (h : cur≠[] ∨ text≠[]) : chunks room cur text≠[] := by
  induction text generalizing room cur with
  | nil =>
    rw [chunks,if_neg (h.resolve_right (fun hne => hne rfl))]
    exact List.cons_ne_nil _ _
  | cons b text ih =>
    rw [chunks]
    split
    · exact List.cons_ne_nil _ _
    · exact ih _ _ (.inl (List.cons_ne_nil _ _))

/-- A file of `mkdf` from a text that is not empty. -/
theorem mkdf_eq {file : Files} {formats : List (List ℕ)} (hd : Describes file formats) {text f : Bytes} (hne : text≠[])
    (h : mkdf formats text = .ok f) :
    flen formats+4 ≤ maxline ∧ f.length ≤ DataFile.int64Max ∧ ∃ es : List Entry,es≠[] ∧ (∀ e∈es,e.Fits file) ∧
      es.length = (chunks (maxline - 1) [] text).length ∧ f = finalHeader formats++encodeChain 0 (finalHeader formats).length es := by
  obtain ⟨hroom,-,es,w,hes,rfl⟩ := mkdf_ok h
  have hchunks := chunks_ne_nil (maxline - 1) [] (.inr hne)
  have heq := finishFile_eq hes hchunks
  have hlen := hes.length_eq
  refine ⟨hroom,?_,es,?_,hes.fits hd,hlen,heq⟩
  · have hle := hes.next_le (by rw [maxline] at hroom; rw [DataFile.int64Max]; dsimp only; omega)
    rw [hes.out.2.2] at hle
    rw [heq,List.length_append,DataFile.length_encodeChain,length_finalHeader]
    exact hle
  · rintro rfl
    exact hchunks (List.length_eq_zero_iff.1 hlen.symm)

end Dataman.Mkdf

import Dataman.FileDescriptions

/-!
# The lines of an input file (`mkdf.c`)

A line is the number of a format and some of its fields, each with a colon behind it. `mkdf` reads a line
through a buffer, takes the fields apart and fills what is missing with blanks. The file it makes has one
record for each line. Without a line, the last pointer is written into the description.
-/

namespace Dataman.Mkdf
open ByteFiles FixedWidthFields FieldText
open DataFile (Entry Files Chained entryAt headAt putLl)

/-! ## Lines -/

structure Line where
  fmt : ℕ
  fields : List Bytes
deriving DecidableEq,Repr

/-- A colon of a field is written behind a backslash. -/
def escape (field : Bytes) : Bytes := field.flatMap fun b => if b = colon then [backslash,colon] else [b]

def fieldsText (fields : List Bytes) : Bytes := fields.flatMap fun field => escape field++[colon]

def Line.body (l : Line) : Bytes := decimal l.fmt++colon::fieldsText l.fields

def Line.text (l : Line) : Bytes := l.body++[newline]

/-- A field cannot end with a backslash, because its colon would be taken for one of the field. -/
structure Line.Good (formats : List (List ℕ)) (l : Line) : Prop where
  fmt : 1 ≤ l.fmt ∧ l.fmt ≤ formats.length
  count : l.fields.length ≤ (formats.getD (l.fmt - 1) []).length
  bytes : ∀ field∈l.fields,∀ b∈field,b≠newline ∧ b≠0
  ending : ∀ field∈l.fields,field.getLast?≠some backslash

/-- The fields, each with blanks up to its length. -/
def padded : List ℕ → List Bytes → Bytes
  | [],_ => []
  | size::sizes,fields =>
    fields.headD []++List.replicate (size - (fields.headD []).length) blank++padded sizes fields.tail

def Line.entry (formats : List (List ℕ)) (l : Line) : Entry := ⟨l.fmt,padded (formats.getD (l.fmt - 1) []) l.fields⟩

theorem padded_nil (sizes : List ℕ) : padded sizes [] = List.replicate sizes.sum blank := by
  induction sizes with
  | nil => rfl
  | cons size sizes ih =>
    rw [padded,List.tail_nil,ih,List.headD_nil,List.nil_append,List.length_nil,Nat.sub_zero,List.replicate_append_replicate,
      List.sum_cons]

/-! ## Fields -/

theorem escape_cons (b : UInt8) (field : Bytes) :
    escape (b::field) = (if b = colon then [backslash,colon] else [b])++escape field := List.flatMap_cons

theorem takeField_escape (field acc text : Bytes) : takeField acc (escape field++text) = takeField (field.reverse++acc) text := by
  induction field generalizing acc with
  | nil => rfl
  | cons b field ih =>
    rw [escape_cons,List.append_assoc,List.reverse_cons,List.append_assoc]
    by_cases hb : b = colon
    · rw [if_pos hb,List.cons_append,List.cons_append,takeField,if_neg (by decide),takeField,if_pos rfl,List.head?_cons,if_pos rfl,
        List.tail_cons,List.nil_append,ih,hb]
      rfl
    · rw [if_neg hb,List.cons_append,takeField,if_neg hb,List.nil_append,ih]
      rfl

theorem takeField_field {field : Bytes} (h : field.getLast?≠some backslash) (text : Bytes) :
    takeField [] (escape field++colon::text) = some (field,text) := by
  have hhead : ¬ (field.reverse++[]).head? = some backslash := by rwa [List.append_nil,List.head?_reverse]
  rw [takeField_escape,takeField,if_pos rfl,if_neg hhead,List.append_nil,List.reverse_reverse]

/-- A field that is cut off has no end. -/
theorem takeField_cut {field acc t : Bytes} (h : t <+: escape field) : takeField acc t = none := by
  induction field generalizing acc t with
  | nil =>
    obtain rfl : t = [] := List.prefix_nil.1 h
    rfl
  | cons b field ih =>
    rw [escape_cons] at h
    cases t with
    | nil => rfl
    | cons c t =>
      by_cases hb : b = colon
      · rw [if_pos hb,List.cons_append,List.cons_prefix_cons] at h
        obtain ⟨rfl,h⟩ := h
        rw [takeField,if_neg (by decide)]
        cases t with
        | nil => rfl
        | cons c t =>
          rw [List.cons_append,List.cons_prefix_cons] at h
          obtain ⟨rfl,h⟩ := h
          rw [takeField,if_pos rfl,List.head?_cons,if_pos rfl]
          exact ih h
      · rw [if_neg hb,List.cons_append,List.cons_prefix_cons] at h
        obtain ⟨rfl,h⟩ := h
        rw [takeField,if_neg hb]
        exact ih h

theorem mem_escape {field : Bytes} {b : UInt8} (h : b∈escape field) : b = backslash ∨ b∈field := by
  obtain ⟨c,hc,hb⟩ := List.mem_flatMap.1 h
  split at hb
  · rename_i hcolon
    rcases List.mem_pair.1 hb with rfl | rfl
    · exact .inl rfl
    · exact .inr (hcolon ▸ hc)
  · exact .inr (List.mem_singleton.1 hb ▸ hc)

section Fields
variable {fields : List Bytes} (hbytes : ∀ field∈fields,∀ b∈field,b≠newline ∧ b≠0)
include hbytes

theorem fieldsText_bytes {b : UInt8} (h : b∈fieldsText fields) : b≠newline ∧ b≠0 := by
  obtain ⟨field,hfield,hb⟩ := List.mem_flatMap.1 h
  rcases List.mem_append.1 hb with hb | hb
  · rcases mem_escape hb with rfl | hb
    · decide
    · exact hbytes field hfield b hb
  · obtain rfl := List.mem_singleton.1 hb
    decide

theorem head?_ne_newline {t : Bytes} (ht : ∀ b∈t,b∈fieldsText fields) : t.head?≠some newline := by
  intro hhead
  exact (fieldsText_bytes hbytes (ht newline (List.mem_of_mem_head? hhead))).1 rfl

variable (hending : ∀ field∈fields,field.getLast?≠some backslash) {longest : ℕ} {len : ℤ} {sizes : List ℕ} {data out : Bytes}
  (hcount : fields.length ≤ sizes.length)
include hending hcount

/-- All of a line gives the fields with their blanks. -/
theorem fill_line (hlen : len = data.length+sizes.sum) (h : fill longest len sizes data (fieldsText fields++[newline]) = .ok out) :
    out = data++padded sizes fields := by
  induction sizes generalizing data fields with
  | nil =>
    obtain rfl := Except.ok.inj h
    exact (List.append_nil _).symm
  | cons size sizes ih =>
    rw [List.sum_cons] at hlen
    cases fields with
    | nil =>
      rw [fill,fieldsText,List.flatMap_nil,List.nil_append,List.head?_cons,if_pos rfl,if_neg (by omega)] at h
      have hrest : len.toNat - data.length = (size::sizes).sum := by
        rw [List.sum_cons]
        omega
      rw [← Except.ok.inj h,padded_nil,hrest]
    | cons field fields =>
      have hhead : ¬ (fieldsText (field::fields)++[newline]).head? = some newline := by
        rw [head?_append_of_ne_nil (by simp [fieldsText])]
        exact head?_ne_newline hbytes fun b hb => hb
      have htake : takeField [] (fieldsText (field::fields)++[newline]) = some (field,fieldsText fields++[newline]) := by
        rw [fieldsText,List.flatMap_cons,List.append_assoc,List.append_assoc]
        exact takeField_field (hending field List.mem_cons_self) _
      rw [fill,if_neg hhead,htake] at h
      dsimp only at h
      split at h
      · cases h
      · rename_i hsize
        split at h
        · cases h
        · rw [List.length_cons,List.length_cons] at hcount
          have hpad : (data++(field++List.replicate (size - field.length) blank)).length = data.length+size := by
            rw [List.length_append,List.length_append,List.length_replicate]
            omega
          have hdone := ih (fun x hx => hbytes x (List.mem_cons_of_mem _ hx)) (fun x hx => hending x (List.mem_cons_of_mem _ hx))
            (by omega) (by rw [hpad]; omega) h
          rw [hdone,padded,List.headD_cons,List.tail_cons,List.append_assoc]

/-- A line that is cut off is taken only if nothing but its end is missing. -/
theorem fill_cut {t : Bytes} (ht : t <+: fieldsText fields) (h : fill longest len sizes data t = .ok out) : t = fieldsText fields := by
  induction fields generalizing t sizes data with
  | nil => exact List.prefix_nil.1 ht
  | cons field fields ih =>
    cases sizes with
    | nil => simp at hcount
    | cons size sizes =>
      rw [fill,if_neg (head?_ne_newline hbytes fun b hb => ht.subset hb)] at h
      have hsplit : fieldsText (field::fields) = escape field++colon::fieldsText fields := by
        rw [fieldsText,List.flatMap_cons,List.append_assoc]
        rfl
      rw [hsplit] at ht ⊢
      rcases List.prefix_or_prefix_of_prefix ht (List.prefix_append _ _) with hcut | ⟨u,rfl⟩
      · rw [takeField_cut hcut] at h
        cases h
      · rw [List.prefix_append_right_inj] at ht
        cases u with
        | nil =>
          rw [List.append_nil,takeField_cut (List.prefix_refl _)] at h
          cases h
        | cons c u =>
          obtain ⟨rfl,hu⟩ := List.cons_prefix_cons.1 ht
          rw [takeField_field (hending field List.mem_cons_self)] at h
          dsimp only at h
          split at h
          · cases h
          · split at h
            · cases h
            · rw [List.length_cons,List.length_cons] at hcount
              rw [ih (fun x hx => hbytes x (List.mem_cons_of_mem _ hx)) (fun x hx => hending x (List.mem_cons_of_mem _ hx)) (by omega) hu h]

end Fields

/-! ## Lines in the buffer -/

/-- A line that fits the buffer is read at once. -/
theorem chunks_line {body : Bytes} (hbody : ∀ b∈body,b≠newline) {room : ℕ} (hroom : body.length < room) (cur rest : Bytes) :
    chunks room cur (body++newline::rest) = (cur.reverse++(body++[newline]))::chunks (maxline - 1) [] rest := by
  induction body generalizing room cur with
  | nil =>
    rw [List.nil_append,chunks,if_pos (.inl rfl),List.reverse_cons]
    rfl
  | cons b body ih =>
    rw [List.length_cons] at hroom
    have hne : ¬ (b = newline ∨ room ≤ 1) := by
      rintro (hb | hb)
      · exact hbody b List.mem_cons_self hb
      · omega
    rw [List.cons_append,chunks,if_neg hne,ih (fun x hx => hbody x (List.mem_cons_of_mem _ hx)) (by omega),List.reverse_cons,
      List.append_assoc]
    rfl

/-- Of a longer one, as much as fits. -/
theorem chunks_long {body : Bytes} (hbody : ∀ b∈body,b≠newline) {room : ℕ} (hpos : 1 ≤ room) (hroom : room ≤ body.length) (cur rest : Bytes) :
    chunks room cur (body++rest) = (cur.reverse++body.take room)::chunks (maxline - 1) [] (body.drop room++rest) := by
  induction body generalizing room cur with
  | nil =>
    rw [List.length_nil] at hroom
    omega
  | cons b body ih =>
    rw [List.length_cons] at hroom
    rw [List.cons_append,chunks]
    by_cases hone : room ≤ 1
    · obtain rfl : room = 1 := by omega
      rw [if_pos (.inr le_rfl),List.reverse_cons]
      rfl
    · have hne : ¬ (b = newline ∨ room ≤ 1) := by
        rintro (hb | hb)
        · exact hbody b List.mem_cons_self hb
        · exact hone hb
      obtain ⟨n,rfl⟩ : ∃ n,room = n+1 := ⟨room - 1,by omega⟩
      rw [if_neg hne,Nat.add_sub_cancel,ih (fun x hx => hbody x (List.mem_cons_of_mem _ hx)) (by omega) (by omega),List.reverse_cons,
        List.append_assoc,List.take_succ_cons,List.drop_succ_cons]
      rfl

section Lines
variable {formats : List (List ℕ)} {l : Line} {w w' : Writing} {e : Entry}

theorem ends_colon : Ends colon := ⟨rfl,rfl,by decide,by decide⟩

theorem decimal_bytes {n : ℕ} {b : UInt8} (h : b∈decimal n) : b≠newline ∧ b≠0 ∧ b≠colon := by
  have hdigit := decimal_digit h
  refine ⟨?_,?_,?_⟩
  · rintro rfl
    cases hdigit
  · rintro rfl
    cases hdigit
  · rintro rfl
    cases hdigit

theorem Line.Good.body_bytes (hl : l.Good formats) : ∀ b∈l.body,b≠newline ∧ b≠0 := by
  intro b hb
  rcases List.mem_append.1 hb with hb | hb
  · exact ⟨(decimal_bytes hb).1,(decimal_bytes hb).2.1⟩
  · rcases List.mem_cons.1 hb with rfl | hb
    · decide
    · exact fieldsText_bytes hl.bytes hb

theorem cstr_of_bytes {text : Bytes} (h : ∀ b∈text,b≠0) : cstr text = text := by
  rw [cstr,List.takeWhile_eq_self_iff]
  intro b hb
  simpa using h b hb

/-- What is taken from the beginning of a line. -/
theorem added_parts (hcount : formats.length ≤ 63) (hfmt : l.fmt ≤ formats.length) {t : Bytes} (ht : ∀ b∈t,b≠0)
    (h : Added formats w w' (decimal l.fmt++colon::t) e) :
    e.fmt = l.fmt ∧ fill (longest formats) (shortSum (formats.getD (l.fmt - 1) [])) (formats.getD (l.fmt - 1) []) [] t = .ok e.data := by
  have hvalue := h.fmt
  rw [atoi_append ends_colon,atoi_decimal (by rw [intMax]; omega),Int.bmod_eq_of_le (by omega) (by omega)] at hvalue
  have heq : e.fmt = l.fmt := by omega
  obtain ⟨head,cptr,hcut,hfill⟩ := h.data
  have hnul : ∀ b∈decimal l.fmt++colon::t,b≠0 := by
    intro b hb
    rcases List.mem_append.1 hb with hb | hb
    · exact (decimal_bytes hb).2.1
    · rcases List.mem_cons.1 hb with rfl | hb
      · decide
      · exact ht b hb
  rw [cstr_of_bytes hnul,cut_one fun b hb => (decimal_bytes hb).2.2] at hcut
  obtain ⟨-,rfl⟩ := Prod.mk.inj (Option.some.inj hcut)
  rw [heq] at hfill
  exact ⟨heq,hfill⟩

theorem added_line (hfit : Fitting formats) (hcount : formats.length ≤ 63) (hl : l.Good formats) (h : Added formats w w' l.text e) :
    e = l.entry formats := by
  rw [Line.text,Line.body,List.append_assoc,List.cons_append] at h
  have hnul : ∀ b∈fieldsText l.fields++[newline],b≠0 := by
    intro b hb
    rcases List.mem_append.1 hb with hb | hb
    · exact (fieldsText_bytes hl.bytes hb).2
    · obtain rfl := List.mem_singleton.1 hb
      decide
  obtain ⟨hfmt,hfill⟩ := added_parts hcount hl.fmt.2 hnul h
  rw [shortSum,short_eq (hfit _ (getD_mem hl.fmt))] at hfill
  have hdata := fill_line hl.bytes hl.ending hl.count (by rw [List.length_nil]; omega) hfill
  rw [List.nil_append] at hdata
  cases e with
  | mk fmt data =>
    rw [Line.entry,← hdata,← hfmt]

/-- A line that does not fit the buffer is not taken. -/
theorem not_added_long (hcount : formats.length ≤ 63) (hl : l.Good formats) (hlong : maxline - 1 ≤ l.body.length) {rest : Bytes}
    {es : List Entry} (h : AddedAll formats w (chunks (maxline - 1) [] (l.body++newline::rest)) es w') : False := by
  have hfmt := hl.fmt
  have hdec : (decimal l.fmt).length ≤ 2 := length_decimal_le (by decide) (by omega)
  obtain ⟨k,hk⟩ : ∃ k,maxline - 1 = (decimal l.fmt++[colon]).length+k := by
    refine ⟨maxline - 1 - (decimal l.fmt++[colon]).length,?_⟩
    rw [List.length_append,List.length_singleton,maxline]
    omega
  have hbody : l.body = (decimal l.fmt++[colon])++fieldsText l.fields := by
    rw [Line.body,List.append_assoc]
    rfl
  have htake : l.body.take (maxline - 1) = decimal l.fmt++colon::(fieldsText l.fields).take k := by
    rw [hbody,hk,List.take_length_add_append,List.append_assoc]
    rfl
  have hdrop : l.body.drop (maxline - 1) = (fieldsText l.fields).drop k := by rw [hbody,hk,List.drop_length_add_append]
  rw [chunks_long (fun b hb => (hl.body_bytes b hb).1) (by decide) hlong,List.reverse_nil,List.nil_append,htake,hdrop] at h
  cases h with
  | cons line more =>
    have hnul : ∀ b∈(fieldsText l.fields).take k,b≠0 := fun b hb => (fieldsText_bytes hl.bytes (List.mem_of_mem_take hb)).2
    have hall := fill_cut hl.bytes hl.ending hl.count (List.take_prefix _ _) (added_parts hcount hfmt.2 hnul line).2
    -- the rest is a line without a colon
    have hnone : (fieldsText l.fields).drop k = [] := by
      rw [List.drop_eq_nil_iff]
      have := congrArg List.length hall
      rw [List.length_take] at this
      omega
    rw [hnone,@chunks_line [] (by simp) (maxline - 1) (by decide)] at more
    cases more with
    | cons line more =>
      obtain ⟨_,_,hcut,-⟩ := line.data
      have hnil : cut colon 1 (cstr [newline]) = none := by decide
      cases hnil.symm.trans hcut

/-- One record for each line. -/
theorem added_lines (hfit : Fitting formats) (hcount : formats.length ≤ 63) {lines : List Line} (hgood : ∀ l∈lines,l.Good formats)
    {es : List Entry} (h : AddedAll formats w (chunks (maxline - 1) [] (lines.flatMap Line.text)) es w') :
    es = lines.map (Line.entry formats) := by
  induction lines generalizing w es with
  | nil =>
    cases h
    rfl
  | cons l lines ih =>
    have hl := hgood l List.mem_cons_self
    have htext : (l::lines).flatMap Line.text = l.body++newline::lines.flatMap Line.text := by
      rw [List.flatMap_cons,Line.text,List.append_assoc]
      rfl
    rw [htext] at h
    by_cases hfits : l.body.length < maxline - 1
    · rw [chunks_line (fun b hb => (hl.body_bytes b hb).1) hfits,List.reverse_nil,List.nil_append,← Line.text] at h
      cases h with
      | cons line more =>
        rw [added_line hfit hcount hl line,ih (fun x hx => hgood x (List.mem_cons_of_mem _ hx)) more,List.map_cons]
    · exact (not_added_long hcount hl (Nat.le_of_not_lt hfits) h).elim

end Lines

/-! ## The file -/

/-- The description as it is written first. -/
def header (formats : List (List ℕ)) : Bytes := putBE 2 (flen formats)++descBytes formats

theorem length_header (formats : List (List ℕ)) : (header formats).length = flen formats+2 := by
  rw [header,List.length_append,length_putBE,← flen,Nat.add_comm]

/-- A file for these lines. The head pointer of an empty file leads to no record. -/
structure WellFormed (file : Files) (formats : List (List ℕ)) (lines : List Line) (f : Bytes) : Prop where
  description : slice f 0 (flen formats+2) = header formats
  empty : lines = [] → headAt file f = 0 ∨ f.length ≤ headAt file f
  records : lines≠[] → ∃ recs chain,Chained file f recs chain ∧ chain.map (entryAt file f) = lines.map fun l => some (l.entry formats)

section WellFormed
variable {file : Files} {formats : List (List ℕ)} {lines : List Line} {f : Bytes}

theorem well_formed_of_lines (hd : Describes file formats) (hgood : ∀ l∈lines,l.Good formats)
    (h : mkdf formats (lines.flatMap Line.text) = .ok f) (hne : lines≠[]) : WellFormed file formats lines f := by
  have htext : lines.flatMap Line.text≠[] := by
    cases lines with
    | nil => exact absurd rfl hne
    | cons l lines => simp [Line.text]
  obtain ⟨hroom,hcount,es,w,hes,rfl⟩ := mkdf_ok h
  have hentries := added_lines hd.fitting hcount.2 hgood hes
  have hfile := finishFile_eq hes (chunks_ne_nil _ _ (.inr htext))
  have hle : (finishFile formats w).length ≤ DataFile.int64Max := (mkdf_eq hd htext h).2.1
  have hes' : es≠[] := by
    rw [hentries]
    simpa using hne
  obtain ⟨hchained,hmap⟩ := DataFile.chained_image ((length_finalHeader formats).trans (by rw [← hd.hlen])) (contents_head hd hroom) hes'
    (hes.fits hd) hfile hle
  refine ⟨?_,fun hnil => absurd hnil hne,fun _ => ⟨_,_,hchained,?_⟩⟩
  · rw [hfile,finalHeader,List.append_assoc]
    exact slice_append_exact _ _ _ (length_header formats)
  · rw [hmap,hentries,List.map_map]
    rfl

/-- The bytes that the last pointer overwrites if there is no record. -/
def Untouched (formats : List (List ℕ)) : Prop := ∀ b∈slice (header formats) 9 8,b = 0

def emptyFile (formats : List (List ℕ)) : Bytes := finishFile formats ⟨firstHeader formats,0,flen formats+18⟩

theorem mkdf_empty (h : mkdf formats [] = .ok f) : f = emptyFile formats := by
  obtain ⟨-,-,es,w,hes,rfl⟩ := mkdf_ok h
  cases hes
  rfl

theorem length_lastPointer (hlow : 8 ≤ flen formats) : (writeAt (firstHeader formats) 9 (putLl 0)).length = flen formats+18 := by
  have hlen := length_firstHeader formats
  rw [DataFile.length_writeAt_inside,hlen]
  rw [hlen,putLl,length_putBE]
  omega

theorem getElem?_emptyFile (hlow : 8 ≤ flen formats) {i : ℕ} (hi : i < flen formats+10) :
    (emptyFile formats)[i]? = if 9 ≤ i ∧ i < 17 then some 0 else (firstHeader formats)[i]? := by
  have hlen := length_firstHeader formats
  have hzero : (putLl 0) = List.replicate 8 0 := rfl
  have hfirst := length_lastPointer hlow
  rw [emptyFile,finishFile,getElem?_writeAt_of_notMem _ _ _ _ (.inl hi) (by rw [hfirst]; omega),Nat.zero_add,hzero,
    getElem?_writeAt _ _ _ (by simp),List.length_replicate]
  split
  · rw [List.getElem?_replicate,if_pos (by omega)]
  · rw [if_pos (by rw [hlen]; omega)]

theorem length_emptyFile (hlow : 8 ≤ flen formats) : (emptyFile formats).length = flen formats+18 := by
  have hfirst := length_lastPointer hlow
  rw [emptyFile,finishFile,DataFile.length_writeAt_inside,hfirst]
  rw [hfirst,length_putBE]
  omega

/-- The head pointer leads behind the header. The bytes of it that are overwritten were zero before. -/
theorem headAt_emptyFile (hd : Describes file formats) (hlow : 8 ≤ flen formats) (hroom : flen formats+4 ≤ maxline) :
    headAt file (emptyFile formats) = flen formats+18 := by
  rw [maxline] at hroom
  have hsame : slice (emptyFile formats) (flen formats+2) 8 = slice (firstHeader formats) (flen formats+2) 8 := by
    apply slice_eq_of_getElem?
    intro i hi
    rw [getElem?_emptyFile hlow (by omega)]
    split
    · have hword : (firstHeader formats)[flen formats+2+i]? = (putLl (flen formats+18 : ℕ))[i]? := by
        rw [firstHeader,← header,List.getElem?_append_right (by rw [length_header]; omega),length_header,Nat.add_sub_cancel_left,
          List.getElem?_append_left (by rw [putLl,length_putBE]; exact hi)]
      have hbyte : (flen formats+18) / 256 ^ (8 - 1 - i) = 0 := by
        apply Nat.div_eq_of_lt
        by_cases h6 : i ≤ 5
        · calc flen formats+18 < 256 ^ 2 := by omega
            _ ≤ 256 ^ (8 - 1 - i) := Nat.pow_le_pow_right (by decide) (by omega)
        · obtain rfl : i = 6 := by omega
          omega
      rw [hword,DataFile.putLl_natCast (by omega),getElem?_putBE _ hi,hbyte]
      rfl
    · rfl
  have hslice : slice (firstHeader formats) (flen formats+2) 8 = putLl (flen formats+18 : ℕ) :=
    slice_at (header formats) _ (putLl (flen formats+18 : ℕ)) rfl (length_header formats) (by rw [putLl,length_putBE])
  have hcontents : DataFile.contents file (emptyFile formats) .head = slice (emptyFile formats) (flen formats+2) 8 := by
    rw [← hd.hlen]
    rfl
  rw [headAt,hcontents,hsame,hslice,DataFile.putLl_natCast (by omega),getBE_putBE (by omega)]

theorem description_emptyFile (hlow : 8 ≤ flen formats) :
    slice (emptyFile formats) 0 (flen formats+2) = header formats ↔ Untouched formats := by
  have hfirst : ∀ i < flen formats+2,(firstHeader formats)[i]? = (header formats)[i]? := by
    intro i hi
    rw [firstHeader,← header,List.getElem?_append_left (by rw [length_header]; exact hi)]
  constructor
  · intro heq b hb
    obtain ⟨i,hi⟩ := List.mem_iff_getElem?.1 hb
    rw [getElem?_slice] at hi
    split at hi
    · rename_i hlt
      have hin : 9+i < flen formats+2 := by
        have := (List.getElem?_eq_some_iff.1 hi).1
        rwa [length_header] at this
      have hat := congrArg (fun bs : Bytes => bs[9+i]?) heq
      simp only [getElem?_slice,if_pos hin,Nat.zero_add] at hat
      rw [getElem?_emptyFile hlow (by omega),if_pos (by omega),hi] at hat
      exact (Option.some.inj hat).symm
    · cases hi
  · intro hzero
    apply List.ext_getElem?
    intro i
    rw [getElem?_slice,Nat.zero_add]
    split
    · rename_i hi
      rw [getElem?_emptyFile hlow (by omega)]
      split
      · rename_i hrange
        obtain ⟨b,hb⟩ : ∃ b,(header formats)[i]? = some b := ⟨_,List.getElem?_eq_getElem (by rw [length_header]; exact hi)⟩
        have hmem : b∈slice (header formats) 9 8 := by
          apply List.mem_of_getElem? (i := i - 9)
          rw [getElem?_slice,if_pos (by omega),Nat.add_sub_cancel' hrange.1,hb]
        rw [hb,hzero b hmem]
      · exact hfirst i hi
    · rename_i hi
      rw [List.getElem?_eq_none (by rw [length_header]; omega)]

/-- `mkdf` makes a file for its lines exactly if there is one, or the overwritten part of the description is zero. -/
theorem mkdf_well_formed_iff (hd : Describes file formats) (hgood : ∀ l∈lines,l.Good formats)
    (h : mkdf formats (lines.flatMap Line.text) = .ok f) : WellFormed file formats lines f ↔ (lines = [] → Untouched formats) := by
  by_cases hne : lines = []
  · subst hne
    have hlow := flen_ge (mkdf_answers hd.fitting h)
    have hroom := (mkdf_ok h).1
    obtain rfl := mkdf_empty h
    constructor
    · exact fun hw _ => (description_emptyFile hlow).1 hw.description
    · intro huntouched
      refine ⟨(description_emptyFile hlow).2 (huntouched rfl),fun _ => .inr ?_,fun hne => absurd rfl hne⟩
      rw [headAt_emptyFile hd hlow hroom,length_emptyFile hlow]
  · exact ⟨fun _ hnil => absurd hnil hne,fun _ => well_formed_of_lines hd hgood h hne⟩

end WellFormed

/-! ## Examples -/

theorem two_le_formats : 2 ≤ 63 := by decide

/-- Two formats, the second one with a blob. -/
def twoFormats : Files := ⟨18,[⟨6,false⟩,⟨3,true⟩],two_le_formats⟩

/-- The lines `1:a\:b:` and `2::x:`. -/
def twoLines : List Line := [⟨1,[[97,58,98]]⟩,⟨2,[[],[120]]⟩]

theorem mkdf_well_formed_iff_twoLines :
    ∃ f,mkdf [[4,2],[0,3]] (twoLines.flatMap Line.text) = .ok f ∧ WellFormed twoFormats [[4,2],[0,3]] twoLines f := by
  have hmade : mkdf [[4,2],[0,3]] (twoLines.flatMap Line.text) =
      .ok ((mkdf [[4,2],[0,3]] (twoLines.flatMap Line.text)).toOption.getD []) := by decide +kernel
  have hgood : ∀ l∈twoLines,l.Good [[4,2],[0,3]] := by
    intro l hl
    rcases List.mem_pair.1 hl with rfl | rfl <;> exact ⟨by decide,by decide,by decide +kernel,by decide⟩
  exact ⟨_,hmade,(mkdf_well_formed_iff ⟨by decide +kernel,by decide,by decide⟩ hgood hmade).2 (by simp [twoLines])⟩

theorem one_format_le : 1 ≤ 63 := by decide

/-- Without a line, the length of the only field becomes zero. -/
theorem empty_file_damaged :
    Describes ⟨8,[⟨5,false⟩],one_format_le⟩ [[5]] ∧ mkdf [[5]] [] = .ok (emptyFile [[5]]) ∧
      getDatafileDesc (emptyFile [[5]]) = .ok ⟨8,1,5,[⟨1,5,1,[0]⟩]⟩ ∧
      ¬ WellFormed ⟨8,[⟨5,false⟩],one_format_le⟩ [[5]] [] (emptyFile [[5]]) := by
  refine ⟨⟨by decide +kernel,by decide,by decide⟩,by decide +kernel,by decide +kernel,?_⟩
  intro hw
  have hdesc := hw.description
  revert hdesc
  decide +kernel

end Dataman.Mkdf

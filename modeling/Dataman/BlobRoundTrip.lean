import Dataman.BlobImages

/-!
# Images are read back

The three walks over a format visit the same blob fields. An image that `validate_flush` accepts is
the record and one part for every blob field; `put_blobs` stores these parts and ends where the image
ends, and `get_blobs` gives an image of the same form, as long as its length fits an `int`.
-/

namespace Dataman.Blobs
open ByteFiles Directories FixedWidthFields
open Server (eNoBlob)

/-! ## Lengths -/

theorem int32_eq {n : ℕ} (h : n ≤ intMax) : int32 n = n := by
  simp only [intMax] at h
  rw [int32,Int.bmod_eq_of_le] <;> omega

theorem int32_wraps {n : ℤ} (h : 2 ^ 31 ≤ n) (h' : n < 3*2 ^ 31) : int32 n = n - 2 ^ 32 := by
  rw [int32,Int.bmod_def]
  split <;> omega

theorem int32_le (n : ℤ) : int32 n ≤ intMax := by
  have := Int.bmod_lt (x := n) (m := 2 ^ 32) (by norm_num)
  simp only [int32,intMax]
  omega

theorem getLong_putLong {n : ℕ} (h : n ≤ intMax) : getLong (putLong n) = n := by
  have hlt : n < 256 ^ 4 := by
    simp only [intMax] at h
    omega
  rw [getLong,putLong,getBE_putBE hlt,int32_eq h]

/-- A length that is not negative is the one that was put. -/
theorem putLong_getLong {head : Bytes} (hlen : head.length = 4) (h : 0 ≤ getLong head) :
    putLong (getLong head).toNat = head ∧ (getLong head).toNat ≤ intMax := by
  have hlt := getBE_lt head
  rw [hlen] at hlt
  have hsmall : getBE head ≤ intMax := by
    by_contra hbig
    simp only [intMax] at hbig
    rw [getLong,int32_wraps (by omega) (by omega)] at h
    omega
  have hvalue : (getLong head).toNat = getBE head := by
    rw [getLong,int32_eq hsmall]
    rfl
  have hput := putBE_getBE head
  rw [hlen] at hput
  rw [hvalue]
  exact ⟨hput,hsmall⟩

@[simp] theorem length_putLong (n : ℕ) : (putLong n).length = 4 := length_putBE 4 n

/-! ## The blob fields of a format -/

/-- The numbers of the blob fields, if the first field has the number `j`. -/
def fieldsFrom : ℕ → List ℤ → List ℕ
  | _,[] => []
  | j,size::sizes => if size = 0 then j::fieldsFrom (j+1) sizes else fieldsFrom (j+1) sizes

def RFDesc.blobFields (desc : RFDesc) : List ℕ := fieldsFrom 0 desc.fieldSizes

theorem length_fieldsFrom (j : ℕ) (sizes : List ℤ) : (fieldsFrom j sizes).length = sizes.count 0 := by
  induction sizes generalizing j with
  | nil => rfl
  | cons size sizes ih =>
    by_cases h : size = 0
    · simp [fieldsFrom,h,ih]
    · simp [fieldsFrom,h,ih]

theorem mem_fieldsFrom {j k : ℕ} {sizes : List ℤ} (h : k∈fieldsFrom j sizes) : j ≤ k ∧ k < j+sizes.length := by
  induction sizes generalizing j with
  | nil => simp [fieldsFrom] at h
  | cons size sizes ih =>
    rw [fieldsFrom] at h
    rw [List.length_cons]
    split at h
    · rcases List.mem_cons.1 h with rfl | h
      · omega
      · have := ih h
        omega
    · have := ih h
      omega

theorem nodup_fieldsFrom (j : ℕ) (sizes : List ℤ) : (fieldsFrom j sizes).Nodup := by
  induction sizes generalizing j with
  | nil => exact .nil
  | cons size sizes ih =>
    rw [fieldsFrom]
    split
    · refine List.nodup_cons.2 ⟨fun h => ?_,ih (j+1)⟩
      have := (mem_fieldsFrom h).1
      omega
    · exact ih (j+1)

section Walk

variable {μ : Type → Type} [Monad μ] {α : Type}

/-- The walk meets the blob fields in order, and stays inside the format. -/
theorem walkFields_eq (outside : μ α) (body : ℕ → α → μ α) (j : ℕ) (sizes : List ℤ) (a : α) :
    walkFields outside body (sizes.count 0) sizes j a = (fieldsFrom j sizes).foldlM (fun a j => body j a) a := by
  induction sizes generalizing j a with
  | nil => rfl
  | cons size sizes ih =>
    by_cases h : size = 0
    · subst h
      rw [List.count_cons_self,walkFields,if_pos rfl,fieldsFrom,if_pos rfl,List.foldlM_cons]
      simp only [ih]
    · rw [List.count_cons_of_ne (fun h' => h h'),fieldsFrom,if_neg h,← ih]
      cases hcount : sizes.count 0 with
      | zero => simp [walkFields]
      | succ left => rw [walkFields,if_neg h]

end Walk

theorem validateFields_eq (image : Bytes) (j : ℕ) (sizes : List ℤ) (p : ℕ × ℕ) :
    validateFields image sizes p = (fieldsFrom j sizes).foldlM (fun p _ => validateField image p) p := by
  induction sizes generalizing j p with
  | nil => rfl
  | cons size sizes ih =>
    by_cases h : size = 0
    · simp only [validateFields,h,ne_eq,not_true_eq_false,if_false,fieldsFrom,if_true,List.foldlM_cons]
      simp only [ih (j+1)]
    · rw [validateFields,if_pos h,fieldsFrom,if_neg h,ih (j+1)]

/-! ## Parts of an image -/

/-- What is given for a blob field: contents, or a negative length. -/
inductive Given
  | contents (data : Bytes)
  | keep (head : Bytes)
deriving DecidableEq,Repr

def Given.encode : Given → Bytes
  | contents data => putLong data.length++data
  | keep head => head

def Given.Ok : Given → Prop
  | contents data => data.length ≤ intMax
  | keep head => head.length = 4 ∧ getLong head < 0

theorem validateField_encode {pre post : Bytes} {g : Given} (hg : g.Ok) (k : ℕ) :
    validateField (pre++(g.encode++post)) (pre.length,k) = some (pre.length+g.encode.length,k+1) := by
  cases g with
  | contents data =>
    have hhead : slice (pre++(putLong data.length++(data++post))) pre.length 4 = putLong data.length :=
      slice_field (length_putLong _)
    have hroom : data.length ≤ pre.length+(4+(data.length+post.length)) - (pre.length+4) := by omega
    simp only [validateField,Given.encode,List.append_assoc,hhead,getLong_putLong hg,List.length_append,length_putLong]
    simp [guard_eq_ite,hroom,Nat.add_assoc]
  | keep head =>
    have hhead : slice (pre++(head++post)) pre.length 4 = head := slice_field hg.1
    have hneg : ¬ 0 ≤ getLong head := not_le.2 hg.2
    simp only [validateField,Given.encode,hhead,hneg,if_false,List.length_append,hg.1]
    simp [guard_eq_ite]

/-- What follows a place is a slice and the rest. -/
theorem drop_eq_slice (image : Bytes) (p n : ℕ) : image.drop p = slice image p n++image.drop (p+n) := by
  rw [slice,← List.drop_drop,List.take_append_drop]

theorem validateField_sound {image : Bytes} {p q : ℕ × ℕ} (h : validateField image p = some q) :
    q.2 = p.2+1 ∧ q.1 ≤ image.length ∧ ∃ g : Given,g.Ok ∧ image.drop p.1 = g.encode++image.drop q.1 := by
  simp only [validateField,guard_eq_ite] at h
  by_cases hfour : image.length - p.1 < 4
  · simp [hfour] at h
  have hhead : (slice image p.1 4).length = 4 := by
    rw [length_slice]
    omega
  by_cases hneg : 0 ≤ getLong (slice image p.1 4)
  · obtain ⟨hput,hsmall⟩ := putLong_getLong hhead hneg
    by_cases hlong : (getLong (slice image p.1 4)).toNat > image.length - (p.1+4)
    · simp [hfour,hneg,hlong] at h
    · simp only [hfour,hneg,hlong,not_false_eq_true,if_true,Option.bind_eq_bind,Option.bind_some,Option.pure_def,
        Option.some.injEq] at h
      subst h
      have hdata : (slice image (p.1+4) (getLong (slice image p.1 4)).toNat).length = (getLong (slice image p.1 4)).toNat := by
        rw [length_slice]
        omega
      refine ⟨rfl,by simp only; omega,.contents (slice image (p.1+4) (getLong (slice image p.1 4)).toNat),?_,?_⟩
      · rw [Given.Ok,hdata]
        exact hsmall
      · rw [Given.encode,hdata,hput,List.append_assoc,← drop_eq_slice,← drop_eq_slice]
  · simp only [hfour,hneg,not_false_eq_true,if_true,if_false,Option.bind_eq_bind,Option.bind_some,Option.pure_def,
      Option.some.injEq] at h
    subst h
    refine ⟨rfl,by simp only; omega,.keep (slice image p.1 4),⟨hhead,not_le.1 hneg⟩,?_⟩
    rw [Given.encode,← drop_eq_slice]

/-- The parts of an accepted image. -/
theorem validateAll_sound {image : Bytes} {fields : List ℕ} {p q : ℕ × ℕ}
    (h : fields.foldlM (fun p _ => validateField image p) p = some q) (hp : p.1 ≤ image.length) :
    q.1 ≤ image.length ∧ ∃ given : List Given,given.length = fields.length ∧ (∀ g∈given,g.Ok) ∧
      image.drop p.1 = given.flatMap Given.encode++image.drop q.1 := by
  induction fields generalizing p with
  | nil =>
    obtain rfl : p = q := by simpa using h
    exact ⟨hp,[],rfl,by simp,by simp⟩
  | cons j fields ih =>
    rw [List.foldlM_cons,Option.bind_eq_bind,Option.bind_eq_some_iff] at h
    obtain ⟨p',hfield,hrest⟩ := h
    obtain ⟨-,hp',g,hg,hdrop⟩ := validateField_sound hfield
    obtain ⟨hq,given,hlen,hok,hdrops⟩ := ih hrest hp'
    refine ⟨hq,g::given,by simp [hlen],?_,?_⟩
    · simpa using ⟨hg,hok⟩
    · rw [hdrop,hdrops,List.flatMap_cons,List.append_assoc]

theorem validateAll_encode {given : List Given} (hok : ∀ g∈given,g.Ok) {fields : List ℕ}
    (hlen : given.length = fields.length) (pre : Bytes) (k : ℕ) :
    fields.foldlM (fun p _ => validateField (pre++given.flatMap Given.encode) p) (pre.length,k) =
      some ((pre++given.flatMap Given.encode).length,k+fields.length) := by
  induction fields generalizing given pre k with
  | nil =>
    obtain rfl := List.length_eq_zero_iff.1 hlen
    simp
  | cons j fields ih =>
    cases given with
    | nil => simp at hlen
    | cons g given =>
      have hrest := ih (fun x hx => hok x (List.mem_cons_of_mem _ hx)) (Nat.succ.inj hlen) (pre++g.encode) (k+1)
      rw [List.flatMap_cons,List.foldlM_cons,validateField_encode (hok g List.mem_cons_self)]
      rw [List.length_append,List.append_assoc] at hrest
      simp only [Option.bind_eq_bind,Option.bind_some,hrest,List.length_cons]
      congr 2
      omega

/-- An image is made of a record and a part for each blob field. -/
structure Parts (desc : RFDesc) (image record : Bytes) (given : List Given) : Prop where
  length : record.length = desc.rfLen
  count : given.length = desc.blobFields.length
  ok : ∀ g∈given,g.Ok
  image_eq : image = record++given.flatMap Given.encode

/-- The accepted images are those with parts. -/
theorem validateImage_iff {desc : RFDesc} {image : Bytes} :
    validateImage desc image ↔ ∃ record given,Parts desc image record given := by
  have hfields : desc.blobFields.length = desc.hasBlob := length_fieldsFrom 0 desc.fieldSizes
  rw [validateImage,validateFields_eq image 0]
  constructor
  · intro h
    split at h
    · cases h
    rename_i hlen
    rw [gt_iff_lt,not_lt] at hlen
    split at h
    · cases h
    rename_i q hq
    simp only [Bool.and_eq_true,decide_eq_true_eq] at h
    obtain ⟨-,given,hcount,hok,hdrop⟩ := validateAll_sound hq hlen
    rw [h.2,List.drop_length,List.append_nil] at hdrop
    refine ⟨image.take desc.rfLen,given,by simpa using hlen,hcount,hok,?_⟩
    rw [← hdrop,List.take_append_drop]
  · rintro ⟨record,given,hrecord,hcount,hok,rfl⟩
    have hall := validateAll_encode hok hcount record 0
    rw [hrecord] at hall
    rw [if_neg (by rw [List.length_append]; omega),← RFDesc.blobFields,hall]
    simp [hfields]

/-! ## The blobs that are put -/

variable {calls : FlushCalls} {desc : RFDesc} {o : Owner} {dir : Dir Text Bytes} {image record pre post : Bytes}
  {given : List Given} {fields : List ℕ} {j : ℕ}

/-- The calls succeed, and the names fit their buffers. -/
structure FlushCalls.Succeed (calls : FlushCalls) (desc : RFDesc) (o : Owner) : Prop where
  fname : calls.fname < 512
  names : ∀ j < desc.fieldSizes.length,calls.pathName+7+(blobName o j).length < 512
  strdup : calls.strdup = true
  record : calls.record = none
  blob : ∀ j,calls.blob j = none

/-- The blob of a field after its part of an image. -/
def Given.result : Given → Option Bytes → Option Bytes
  | contents data,_ => some data
  | keep _,before => before

def Given.store (g : Given) (o : Owner) (j : ℕ) (dir : Dir Text Bytes) : Dir Text Bytes :=
  Function.update dir (blobName o j) (g.result (dir (blobName o j)))

def storeAll (o : Owner) (parts : List (ℕ × Given)) (dir : Dir Text Bytes) : Dir Text Bytes :=
  parts.foldl (fun dir x => x.2.store o x.1 dir) dir

theorem fetch_field {field : Bytes} {n : ℕ} (hn : field.length = n) (dir : Dir Text Bytes) :
    fetch (pre++(field++post)) (pre.length : ℕ) n dir = (.ok field,dir) := by
  rw [fetch,if_pos (Int.natCast_nonneg _),Int.toNat_natCast,readAt_field hn]
  rfl

/-- A part is read where it is, and nothing else is. -/
theorem putBlob_encode {g : Given} (hg : g.Ok) (hname : calls.pathName+7+(blobName o j).length < 512)
    (hblob : calls.blob j = none) (hlen : (pre++(g.encode++post)).length ≤ intMax) (dir : Dir Text Bytes) :
    putBlob calls o (pre++(g.encode++post)) j (pre.length : ℕ) dir =
      (.ok (pre++g.encode).length,g.store o j dir) := by
  cases g with
  | contents data =>
    simp only [Given.encode,List.append_assoc,List.length_append,length_putLong] at hlen ⊢
    have hnext : int32 ((pre.length : ℕ)+4 : ℤ) = ((pre++putLong data.length).length : ℕ) := by
      rw [List.length_append,length_putLong]
      exact_mod_cast int32_eq (n := pre.length+4) (by omega)
    have hend : int32 (((pre++putLong data.length).length : ℕ)+(data.length : ℕ) : ℤ) =
        ((pre.length+(4+data.length) : ℕ) : ℤ) := by
      rw [List.length_append,length_putLong,← Nat.add_assoc]
      exact_mod_cast int32_eq (n := pre.length+4+data.length) (by omega)
    have hdata : fetch (pre++(putLong data.length++(data++post))) ((pre++putLong data.length).length : ℕ)
        data.length dir = (.ok data,dir) := by
      rw [← List.append_assoc]
      exact fetch_field rfl dir
    rw [putBlob,FailState.run_bind_ok (fetch_field (length_putLong _) dir)]
    simp only [getLong_putLong hg,hnext,Int.natCast_nonneg,if_true,Int.toNat_natCast,hend]
    rw [FailState.run_bind_ok (FailState.run_ensure (by simpa using hname) _ _),FailState.run_bind_ok hdata,hblob]
    rfl
  | keep head =>
    have hneg : ¬ 0 ≤ getLong head := not_le.2 hg.2
    have hstore : (Given.keep head).store o j dir = dir := Function.update_eq_self _ _
    simp only [Given.encode,List.length_append] at hlen ⊢
    have hnext : int32 ((pre.length : ℕ)+4 : ℤ) = ((pre.length+4 : ℕ) : ℤ) := by
      exact_mod_cast int32_eq (n := pre.length+4) (by have := hg.1; omega)
    rw [putBlob,FailState.run_bind_ok (fetch_field hg.1 dir)]
    simp only [hneg,if_false,hnext,hstore,hg.1]
    rfl

/-- All the parts are put, up to the end of the image. -/
theorem putAll_encode (hok : ∀ g∈given,g.Ok) (hcount : given.length = fields.length)
    (hname : ∀ j∈fields,calls.pathName+7+(blobName o j).length < 512) (hblob : ∀ j,calls.blob j = none)
    (hlen : (pre++given.flatMap Given.encode).length ≤ intMax) (dir : Dir Text Bytes) :
    fields.foldlM (fun offs j => putBlob calls o (pre++given.flatMap Given.encode) j offs) (pre.length : ℤ) dir =
      (.ok (pre++given.flatMap Given.encode).length,storeAll o (fields.zip given) dir) := by
  induction fields generalizing given pre dir with
  | nil =>
    obtain rfl := List.length_eq_zero_iff.1 hcount
    simp [storeAll,pure]
  | cons j fields ih =>
    cases given with
    | nil => simp at hcount
    | cons g given =>
      rw [List.flatMap_cons] at hlen ⊢
      have hput := putBlob_encode (hok g List.mem_cons_self) (hname j List.mem_cons_self) (hblob j) hlen dir
      rw [← List.append_assoc] at hlen
      have hrest := ih (fun x hx => hok x (List.mem_cons_of_mem _ hx)) (Nat.succ.inj hcount)
        (fun k hk => hname k (List.mem_cons_of_mem _ hk)) hlen (g.store o j dir)
      rw [List.foldlM_cons,FailState.run_bind_ok hput]
      rw [List.append_assoc] at hrest
      exact hrest

theorem storeAll_other {parts : List (ℕ × Given)} (h : ∀ x∈parts,x.1≠j) :
    storeAll o parts dir (blobName o j) = dir (blobName o j) := by
  induction parts generalizing dir with
  | nil => rfl
  | cons x parts ih =>
    have hne : blobName o j≠blobName o x.1 := fun heq => h x List.mem_cons_self (blobName_inj heq).2.symm
    rw [storeAll,List.foldl_cons,← storeAll,ih fun y hy => h y (List.mem_cons_of_mem _ hy),Given.store,
      Function.update_of_ne hne]

/-- Each field has what was given for it, or what it had. -/
theorem storeAll_apply {parts : List (ℕ × Given)} {g : Given} (hnodup : (parts.map Prod.fst).Nodup) (h : (j,g)∈parts) :
    storeAll o parts dir (blobName o j) = g.result (dir (blobName o j)) := by
  induction parts generalizing dir with
  | nil => simp at h
  | cons x parts ih =>
    rw [List.map_cons,List.nodup_cons] at hnodup
    rw [storeAll,List.foldl_cons,← storeAll]
    rcases List.mem_cons.1 h with rfl | hmem
    · rw [storeAll_other,Given.store,Function.update_self]
      rintro y hy rfl
      exact hnodup.1 (List.mem_map.2 ⟨y,hy,rfl⟩)
    · have hne : blobName o j≠blobName o x.1 := by
        intro heq
        have hj := (blobName_inj heq).2
        exact hnodup.1 (hj ▸ List.mem_map_of_mem hmem)
      rw [ih hnodup.2 hmem,Given.store,Function.update_of_ne hne]

/-! ## The blobs that are got -/

/-- The running lengths are the length of the image, and the buffer is as large as `max` says. -/
structure Reading.Exact (r : Reading) (n : ℕ) : Prop where
  len : r.len = n
  offs : r.offs = n
  le : n ≤ intMax
  size_le : r.size ≤ intMax
  max_le : ∀ m∈r.max,m ≤ r.size

variable {r r' : Reading} {n : ℕ} {readable : ℕ → Bool}

/-- The contents of a blob; nothing if there is none. -/
def contentsOf (o : Owner) (dir : Dir Text Bytes) (j : ℕ) : Bytes := (dir (blobName o j)).getD []

/-- After one more blob of `c` bytes. -/
structure Reading.Next (r r' : Reading) (n : ℕ) (data : Bytes) : Prop where
  exact : r'.Exact (n+(4+data.length))
  lengths : r'.lengths = r.lengths++[⟨(n+(4+data.length) : ℕ),n,(n+4 : ℕ)⟩]
  image : r.image.length = n → r'.image = r.image++(putLong data.length++data)

/-- The buffer has its new length, if the length is an `int`. -/
structure Reading.Grown (r g : Reading) (n k : ℕ) : Prop where
  len : g.len = (n+k : ℕ)
  offs : g.offs = n
  room : (n+k : ℕ) ≤ g.size
  size_le : g.size ≤ intMax
  max_le : ∀ m∈g.max,m ≤ g.size
  lengths : g.lengths = r.lengths++[⟨(n+k : ℕ),n,(n+4 : ℕ)⟩]
  image : g.image = r.image

theorem Reading.Exact.grow (hr : r.Exact n) {k : ℕ} (hk : n+k ≤ intMax) (hfour : 4 ≤ k) : r.Grown (r.grow k) n k := by
  have hlen : int32 (r.len+k) = (n+k : ℕ) := by
    rw [hr.len]
    exact_mod_cast int32_eq hk
  have hat : int32 ((n : ℤ)+4) = (n+4 : ℕ) := by exact_mod_cast int32_eq (n := n+4) (by omega)
  have hle : ((n+k : ℕ) : ℤ) ≤ intMax := by exact_mod_cast hk
  unfold Reading.grow
  simp only [hlen,hr.offs,hat]
  split
  · refine ⟨rfl,rfl,le_rfl,hle,?_,rfl,rfl⟩
    intro m hm
    obtain ⟨_,_,rfl⟩ := Option.mem_map.1 hm
    exact le_rfl
  · rename_i hmax
    obtain ⟨m,hm⟩ : ∃ m,r.max = some m := by
      cases h : r.max with
      | none => simp [h] at hmax
      | some m => exact ⟨m,rfl⟩
    have hroom : ((n+k : ℕ) : ℤ) ≤ m := by simpa [hm] using hmax
    exact ⟨rfl,rfl,hroom.trans (hr.max_le m hm),hr.size_le,hr.max_le,rfl,rfl⟩

theorem Reading.Exact.grow_size_le (hr : r.Exact n) (k : ℤ) : (r.grow k).size ≤ intMax ∧ (r.grow k).offs = n := by
  unfold Reading.grow
  dsimp only
  split
  · exact ⟨int32_le _,hr.offs⟩
  · exact ⟨hr.size_le,hr.offs⟩

/-- After a write inside the buffer. -/
structure Reading.Wrote (r r' : Reading) (n : ℕ) (data : Bytes) : Prop where
  offs : r'.offs = (n+data.length : ℕ)
  image : r'.image = writeAt r.image n data
  len : r'.len = r.len
  size : r'.size = r.size
  max : r'.max = r.max
  lengths : r'.lengths = r.lengths

theorem Reading.write_ok {data : Bytes} (hoffs : r.offs = n) (hroom : ((n+data.length : ℕ) : ℤ) ≤ r.size)
    (hsize : r.size ≤ intMax) : ∃ r',r.write data = .ok r' ∧ r.Wrote r' n data := by
  have hnext : int32 ((n : ℤ)+data.length) = (n+data.length : ℕ) := by
    exact_mod_cast int32_eq (n := n+data.length) (by omega)
  rw [Reading.write,hoffs,if_pos ⟨Int.natCast_nonneg n,by exact_mod_cast hroom⟩,hnext,Int.toNat_natCast]
  exact ⟨_,rfl,rfl,rfl,rfl,rfl,rfl,rfl⟩

theorem Reading.write_outside {data : Bytes} (hoffs : r.offs = n) (hroom : r.size < (n+data.length : ℕ)) :
    r.write data = .error .outside := by
  rw [Reading.write,hoffs,if_neg]
  rintro ⟨-,h⟩
  push_cast at hroom
  omega

theorem writeAt_length (image data : Bytes) : writeAt image image.length data = image++data := by
  by_cases hd : data = []
  · simp [hd]
  · simp [writeAt,hd]

/-- What becomes of a blob: an error, or a length that is no `int` any more, or exact lengths. -/
inductive Got (readable : Bool) (r : Reading) (n : ℕ) (data : Bytes) : Except Fault Reading → Prop
  | refused (code : ℤ) (reason : readable = false ∨ intMax < data.length) : Got readable r n data (.error (.code code))
  | outside (long : intMax < n+(4+data.length)) : Got readable r n data (.error .outside)
  | added {r' : Reading} (next : r.Next r' n data) : Got readable r n data (.ok r')

theorem got_empty (hr : r.Exact n) (b : Bool) : Got b r n [] ((r.grow 4).write (putLong 0)) := by
  by_cases hfits : n+4 ≤ intMax
  · have hg : r.Grown (r.grow 4) n 4 := by exact_mod_cast hr.grow hfits le_rfl
    obtain ⟨r',hwrite,hw⟩ := Reading.write_ok hg.offs (by rw [length_putLong 0]; exact hg.room) hg.size_le
    rw [hwrite]
    refine .added ⟨⟨hw.len.trans hg.len,hw.offs,hfits,hw.size ▸ hg.size_le,?_⟩,hw.lengths.trans hg.lengths,?_⟩
    · rw [hw.max,hw.size]
      exact hg.max_le
    · rintro rfl
      rw [hw.image,hg.image,writeAt_length]
      simp
  · obtain ⟨hsize,hoffs⟩ := hr.grow_size_le 4
    rw [Reading.write_outside hoffs (by rw [length_putLong]; omega)]
    exact .outside (by simpa using hfits)

/-- The length is written, and then the contents. -/
theorem got_full (hr : r.Exact n) (data : Bytes) (b : Bool) :
    Got b r n data (do
      let r ← (r.grow (4+data.length)).write (putLong data.length)
      if b then r.write data else .error (.code eNoBlob)) := by
  have hfour : (putLong data.length).length = 4 := length_putLong _
  have hsum : n+(putLong data.length).length+data.length = n+(4+data.length) := by rw [hfour,Nat.add_assoc]
  obtain ⟨hsize,hoffs⟩ := hr.grow_size_le (4+data.length)
  by_cases hhead : ((n+(putLong data.length).length : ℕ) : ℤ) ≤ (r.grow (4+data.length)).size
  · obtain ⟨r₁,hwrite,hw⟩ := Reading.write_ok hoffs hhead hsize
    rw [hwrite]
    change Got b r n data (if b then r₁.write data else _)
    cases b with
    | false => exact .refused _ (.inl rfl)
    | true =>
      rw [if_pos rfl]
      by_cases hfits : n+(4+data.length) ≤ intMax
      · have hg : r.Grown (r.grow (4+data.length)) n (4+data.length) := by exact_mod_cast hr.grow hfits (by omega)
        obtain ⟨r₂,hwrite₂,hw₂⟩ := Reading.write_ok hw.offs (by rw [hsum,hw.size]; exact hg.room) (hw.size ▸ hg.size_le)
        rw [hwrite₂]
        have hsize₂ : r₂.size = (r.grow (4+data.length)).size := hw₂.size.trans hw.size
        refine .added ⟨⟨?_,by rw [hw₂.offs,hsum],hfits,hsize₂ ▸ hg.size_le,?_⟩,?_,fun hn => ?_⟩
        · rw [hw₂.len,hw.len,hg.len]
        · rw [hw₂.max,hw.max,hsize₂]
          exact hg.max_le
        · rw [hw₂.lengths,hw.lengths,hg.lengths]
        · have hend : n+(putLong data.length).length = (r.image++putLong data.length).length := by
            rw [List.length_append,hn]
          rw [hw₂.image,hw.image,hg.image,hend,← hn,writeAt_length,writeAt_length,List.append_assoc]
      · rw [Reading.write_outside hw.offs (by rw [hsum,hw.size]; omega)]
        exact .outside (not_le.1 hfits)
  · rw [Reading.write_outside hoffs (not_le.1 hhead)]
    refine .outside (not_le.1 fun hfits => hhead ?_)
    have hg : r.Grown (r.grow (4+data.length)) n (4+data.length) := by exact_mod_cast hr.grow hfits (by omega)
    have hroom := hg.room
    omega

theorem getBlob_got (hr : r.Exact n) (j : ℕ) : Got (readable j) r n (contentsOf o dir j) (getBlob readable o dir j r) := by
  rw [getBlob,← contentsOf]
  generalize contentsOf o dir j = data
  split
  · rename_i hempty
    rw [List.length_eq_zero_iff.1 hempty]
    exact got_empty hr _
  split
  · rename_i hlong
    exact .refused _ (.inr hlong)
  · exact got_full hr data _

/-- The lengths of blobs of these sizes, behind an image of `n` bytes. -/
def exactLengths (n : ℕ) : List Bytes → List Lengths
  | [] => []
  | data::rest => ⟨(n+(4+data.length) : ℕ),n,(n+4 : ℕ)⟩::exactLengths (n+(4+data.length)) rest

/-- The length of an image with these blobs. -/
def imageLength (n : ℕ) (blobs : List Bytes) : ℕ := n+(blobs.map fun data => 4+data.length).sum

theorem imageLength_cons (n : ℕ) (data : Bytes) (blobs : List Bytes) :
    imageLength n (data::blobs) = imageLength (n+(4+data.length)) blobs := by
  simp [imageLength,Nat.add_assoc]

theorem le_imageLength (n : ℕ) (blobs : List Bytes) : n ≤ imageLength n blobs := Nat.le_add_right _ _

theorem length_le_imageLength (n : ℕ) {data : Bytes} {blobs : List Bytes} (h : data∈blobs) :
    data.length ≤ imageLength n blobs := by
  induction blobs generalizing n with
  | nil => cases h
  | cons head blobs ih =>
    rw [imageLength_cons]
    rcases List.mem_cons.1 h with rfl | h
    · have := le_imageLength (n+(4+data.length)) blobs
      omega
    · exact ih _ h

/-- What becomes of all the blobs. -/
inductive GotAll (readable : ℕ → Bool) (o : Owner) (dir : Dir Text Bytes) (r : Reading) (n : ℕ) (fields : List ℕ) (blobs : List Bytes) :
    Except Fault Reading → Prop
  | refused (code : ℤ) (reason : ∃ j∈fields,readable j = false ∨ intMax < (contentsOf o dir j).length) :
      GotAll readable o dir r n fields blobs (.error (.code code))
  | outside (long : intMax < imageLength n blobs) : GotAll readable o dir r n fields blobs (.error .outside)
  | added {r' : Reading} (exact : r'.Exact (imageLength n blobs)) (lengths : r'.lengths = r.lengths++exactLengths n blobs)
      (image : r.image.length = n → r'.image = r.image++blobs.flatMap fun data => putLong data.length++data) :
      GotAll readable o dir r n fields blobs (.ok r')

theorem getAll_got (hr : r.Exact n) (fields : List ℕ) :
    GotAll readable o dir r n fields (fields.map (contentsOf o dir))
      (fields.foldlM (fun r j => getBlob readable o dir j r) r) := by
  induction fields generalizing r n with
  | nil => exact .added (by simpa [imageLength] using hr) (by simp [exactLengths]) (by simp)
  | cons j fields ih =>
    rw [List.foldlM_cons,List.map_cons]
    have hone : Got (readable j) r n (contentsOf o dir j) (getBlob readable o dir j r) := getBlob_got hr j
    have hle := le_imageLength (n+(4+(contentsOf o dir j).length)) (fields.map (contentsOf o dir))
    rw [← imageLength_cons] at hle
    cases hget : getBlob readable o dir j r with
    | error e =>
      rw [hget] at hone
      cases hone with
      | refused code reason => exact .refused code ⟨j,List.mem_cons_self,reason⟩
      | outside long => exact .outside (long.trans_le hle)
    | ok r₁ =>
      rw [hget] at hone
      cases hone with
      | added next =>
        have hrest := ih next.exact
        change GotAll _ _ _ _ _ _ _ (fields.foldlM (fun r j => getBlob readable o dir j r) r₁)
        cases hout : fields.foldlM (fun r j => getBlob readable o dir j r) r₁ with
        | error e =>
          rw [hout] at hrest
          cases hrest with
          | refused code reason =>
            obtain ⟨k,hk,h⟩ := reason
            exact .refused code ⟨k,List.mem_cons_of_mem _ hk,h⟩
          | outside long => exact .outside (by rwa [imageLength_cons])
        | ok r' =>
          rw [hout] at hrest
          cases hrest with
          | added exact lengths image =>
            refine .added (by rwa [imageLength_cons]) ?_ fun hn => ?_
            · rw [lengths,next.lengths,List.append_assoc]
              rfl
            · have hnext := next.image hn
              have hlen : r₁.image.length = n+(4+(contentsOf o dir j).length) := by
                rw [hnext,List.length_append,List.length_append,length_putLong,hn]
              rw [image hlen,hnext,List.flatMap_cons,List.append_assoc]

theorem getBlobs_got (readable : ℕ → Bool) (desc : RFDesc) (o : Owner) (dir : Dir Text Bytes) (max : Option ℤ) (record : Bytes) :
    GotAll readable o dir { len := desc.rfLen,offs := desc.rfLen,size := (max.map int32).getD desc.rfLen,max := max.map int32,image := record }
      desc.rfLen desc.blobFields (desc.blobFields.map (contentsOf o dir)) (getBlobs readable desc o dir max record) := by
  have hlen := desc.rfLen_lt
  rw [getBlobs,RFDesc.hasBlob,walkFields_eq]
  refine getAll_got ⟨rfl,rfl,by simp only [intMax]; omega,?_,?_⟩ _
  · cases max with
    | none => simp only [Option.map_none,Option.getD_none,intMax]; omega
    | some m => exact int32_le m
  · intro m hm
    have hmax : max.map int32 = some m := hm
    simp [hmax]

/-- A format with one field, a blob. -/
def oneBlob : RFDesc := ⟨0,[0],Nat.two_pow_pos 15⟩

def oneOwner : Owner := ⟨[65],1,42⟩

/-- The blobs of the record after the image is stored. -/
def kept (desc : RFDesc) (o : Owner) (dir : Dir Text Bytes) (given : List Given) : List Bytes :=
  (desc.blobFields.zip given).map fun x => (x.2.result (dir (blobName o x.1))).getD []

/-- The image that is expected back. -/
def expected (desc : RFDesc) (o : Owner) (dir : Dir Text Bytes) (record : Bytes) (given : List Given) : Bytes :=
  record++(kept desc o dir given).flatMap fun data => putLong data.length++data

theorem length_expected (hrecord : record.length = desc.rfLen) :
    (expected desc o dir record given).length = imageLength desc.rfLen (kept desc o dir given) := by
  rw [expected,List.length_append,hrecord,List.length_flatMap,imageLength]
  simp

theorem contentsOf_storeAll (hcount : given.length = desc.blobFields.length) :
    desc.blobFields.map (contentsOf o (storeAll o (desc.blobFields.zip given) dir)) = kept desc o dir given := by
  have hfst : (desc.blobFields.zip given).map Prod.fst = desc.blobFields := List.map_fst_zip hcount.ge
  have hmap : ∀ f : ℕ → Bytes,desc.blobFields.map f = (desc.blobFields.zip given).map (f ∘ Prod.fst) := by
    intro f
    rw [← List.map_map,hfst]
  rw [hmap,kept]
  refine List.map_congr_left fun x hx => ?_
  have hstore : storeAll o (desc.blobFields.zip given) dir (blobName o x.1) = x.2.result (dir (blobName o x.1)) :=
    storeAll_apply (by rw [hfst]; exact nodup_fieldsFrom _ _) hx
  rw [Function.comp_apply,contentsOf,hstore]

/-- The image that comes back is accepted. -/
theorem validateImage_expected (hp : Parts desc image record given) (hlen : (expected desc o dir record given).length ≤ intMax) :
    validateImage desc (expected desc o dir record given) := by
  refine validateImage_iff.2 ⟨record,(kept desc o dir given).map .contents,hp.length,?_,?_,?_⟩
  · simp [kept,hp.count]
  · intro g hg
    obtain ⟨data,hdata,rfl⟩ := List.mem_map.1 hg
    rw [length_expected hp.length] at hlen
    exact (length_le_imageLength _ hdata).trans hlen
  · rw [expected,List.flatMap_map]
    rfl

theorem putBlobs_parts (hp : Parts desc image record given) (hcalls : calls.Succeed desc o) (hlen : image.length ≤ intMax) :
    putBlobs calls desc o image dir = (.ok image.length,storeAll o (desc.blobFields.zip given) dir) := by
  rw [putBlobs,FailState.run_bind_ok (FailState.run_ensure (by simpa using hcalls.fname) _ _),
    FailState.run_bind_ok (FailState.run_ensure hcalls.strdup _ _),RFDesc.hasBlob,walkFields_eq]
  obtain rfl := hp.image_eq
  rw [← hp.length]
  refine putAll_encode hp.ok hp.count (fun j hj => hcalls.names j ?_) hcalls.blob hlen dir
  simpa using (mem_fieldsFrom hj).2

/-- `flush` stores the record and the blobs. -/
theorem flush_parts (hp : Parts desc image record given) (hcalls : calls.Succeed desc o) (hlen : image.length ≤ intMax)
    (hrecno : o.recno+17 ≤ int64Max) (s : Store) :
    flush calls desc o image s =
      (.ok 4,⟨writeAt s.file (o.recno+17) record,storeAll o (desc.blobFields.zip given) s.blobs⟩) := by
  have hread : readAt image 0 desc.rfLen = some record := by
    rw [hp.image_eq]
    exact (readAt_field hp.length : readAt ([]++(record++given.flatMap Given.encode)) ([] : Bytes).length desc.rfLen = some record)
  have hput : putBlobs calls desc o image s.blobs = (.ok image.length,storeAll o (desc.blobFields.zip given) s.blobs) :=
    putBlobs_parts hp hcalls hlen
  rw [flush,if_neg (by omega),hread,hcalls.record]
  dsimp only
  rw [hput]
  split
  · rename_i hnone
    have hempty : desc.blobFields = [] := List.length_eq_zero_iff.1 ((length_fieldsFrom 0 _).trans hnone)
    rw [hempty]
    rfl
  · rfl

/-- An image with these parts is read to its end, and the image that comes back has what was given, or
what was there. -/
structure RoundTrip (calls : FlushCalls) (desc : RFDesc) (o : Owner) (image : Bytes) (s : Store) (max : Option ℤ)
    (record : Bytes) (given : List Given) : Prop where
  consumed : (putBlobs calls desc o image s.blobs).1 = .ok image.length
  stored : (flush calls desc o image s).1 = .ok 4
  written : readAt (flush calls desc o image s).2.file (o.recno+17) desc.rfLen = some record
  returned : (expected desc o s.blobs record given).length ≤ intMax →
    ∃ r,getBlobs (fun _ => true) desc o (flush calls desc o image s).2.blobs max record = .ok r ∧
      r.offs = (expected desc o s.blobs record given).length ∧ r.image = expected desc o s.blobs record given
  accepted : (expected desc o s.blobs record given).length ≤ intMax →
    validateImage desc (expected desc o s.blobs record given)

/-- Accepted images have parts, and make a round trip. The place of the record is one that can be written. -/
theorem flush_round_trip (hvalid : validateImage desc image) (hlen : image.length ≤ intMax) (hcalls : calls.Succeed desc o)
    (hrecno : o.recno+17 ≤ int64Max) (s : Store) (max : Option ℤ) :
    (∃ record given,Parts desc image record given) ∧
    ∀ record given,Parts desc image record given → RoundTrip calls desc o image s max record given := by
  refine ⟨validateImage_iff.1 hvalid,fun record given hp => ?_⟩
  have hflush := flush_parts hp hcalls hlen hrecno s
  refine ⟨by rw [putBlobs_parts hp hcalls hlen],by rw [hflush],?_,?_,validateImage_expected hp⟩
  · rw [hflush,← hp.length]
    have := readAt_writeAt_inside s.file (o.recno+17) record 0 record.length (by omega)
    simpa using this
  · intro hback
    have hgot := getBlobs_got (fun _ => true) desc o (flush calls desc o image s).2.blobs max record
    rw [hflush] at hgot ⊢
    rw [contentsOf_storeAll hp.count] at hgot
    have hsmall : imageLength desc.rfLen (kept desc o s.blobs given) ≤ intMax := by rwa [← length_expected hp.length]
    generalize getBlobs (fun _ => true) desc o _ max record = out at hgot ⊢
    cases hgot with
    | refused code reason =>
      obtain ⟨j,hj,hfalse | hlong⟩ := reason
      · cases hfalse
      · have hmem := List.mem_map_of_mem (f := contentsOf o (storeAll o (desc.blobFields.zip given) s.blobs)) hj
        rw [contentsOf_storeAll hp.count] at hmem
        exact absurd (hlong.trans_le (length_le_imageLength desc.rfLen hmem)) (not_lt.2 hsmall)
    | outside long => omega
    | added exact lengths image =>
      refine ⟨_,rfl,?_,image hp.length⟩
      rw [exact.offs,length_expected hp.length]

theorem two_lt_max : 2 < 2 ^ 15 := by decide

/-- A format with two bytes and two blobs. -/
def twoBlobs : RFDesc := ⟨2,[2,0,0],two_lt_max⟩

def quietCalls : FlushCalls := ⟨10,8,true,none,fun _ => none⟩

theorem quietCalls_succeed : quietCalls.Succeed twoBlobs oneOwner :=
  ⟨by decide,by decide +kernel,rfl,rfl,fun _ => rfl⟩

/-- One byte for the first blob, and nothing for the second. -/
def givenImage : Bytes := [7,8,0,0,0,1,9,255,255,255,255]

def storedBefore : Store := ⟨[],put (fun _ => none) (blobName oneOwner 2) [5]⟩

theorem flush_round_trip_two :
    expected twoBlobs oneOwner storedBefore.blobs [7,8] [.contents [9],.keep [255,255,255,255]] =
      [7,8,0,0,0,1,9,0,0,0,1,5] ∧
    RoundTrip quietCalls twoBlobs oneOwner givenImage storedBefore none [7,8] [.contents [9],.keep [255,255,255,255]] := by
  refine ⟨by decide +kernel,?_⟩
  have hparts : Parts twoBlobs givenImage [7,8] [.contents [9],.keep [255,255,255,255]] := by
    refine ⟨rfl,rfl,?_,by decide +kernel⟩
    simp [Given.Ok,intMax,getLong,int32,getBE]
  exact (flush_round_trip (by decide +kernel) (by decide +kernel) quietCalls_succeed (by decide +kernel) storedBefore none).2 _ _ hparts

end Dataman.Blobs

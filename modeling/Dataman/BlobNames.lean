import Dataman.ByteFiles
import Dataman.Directories
import Dataman.FieldText

/-!
# The names of blobs (`put_blobs.c`, `blob_ctl.c`)

The blobs of a record are the files `file.format.record.field` in one directory. `blob_ctl` finds
them by what stands before the field. A data file may have dots in its name, so that the same text
can stand before the blobs of another file.
-/

namespace Dataman.Blobs
open Directories FieldText

abbrev Text := List UInt8

def dot : UInt8 := 46
def slash : UInt8 := 47

def eBlobWrt : ℤ := -52

/-- A record, by the name of its data file, its format and its offset. -/
structure Owner where
  file : Text
  fmt : ℕ
  recno : ℕ
deriving DecidableEq,Repr

/-- What stands before the field: `%s.%d.%lld.` -/
def Owner.stem (o : Owner) : Text := o.file++dot::(decimal o.fmt++dot::(decimal o.recno++[dot]))

/-- `%s.%d.%lld.%d` -/
def blobName (o : Owner) (field : ℕ) : Text := o.stem++decimal field

/-! ## `blob_ctl` -/

inductive Op
  | unlink
  | hide
  | unhide
  | cleanup
deriving DecidableEq,Repr

/-- The text behind the last slash. -/
def lastName (name : Text) : Text := (name.reverse.takeWhile (· ≠ slash)).reverse

/-- What an entry has to begin with. -/
def Op.mark (op : Op) (o : Owner) : Text :=
  match op with
  | .unhide | .cleanup => dot::o.stem
  | .unlink | .hide => o.stem

def Op.change (op : Op) (entry : Text) (dir : Dir Text Bytes) : Dir Text Bytes :=
  match op with
  | .unlink | .cleanup => remove dir entry
  | .hide => rename dir entry (dot::entry)
  | .unhide => rename dir entry entry.tail

/-- One entry of the listing; nothing is done after a change that failed. -/
def Op.entry (op : Op) (o : Owner) (fails : Text → Bool) (out : ℤ × Dir Text Bytes) (entry : Text) : ℤ × Dir Text Bytes :=
  if out.1 = 0 ∧ op.mark o <+: entry then
    if fails entry then (eBlobWrt,out.2) else (0,op.change entry out.2)
  else out

def blobCtl (fileName : Text) (fmt recno : ℕ) (op : Op) (fails : Text → Bool) (listing : List Text)
    (dir : Dir Text Bytes) : ℤ × Dir Text Bytes :=
  listing.foldl (op.entry ⟨lastName fileName,fmt,recno⟩ fails) (0,dir)

/-! ## Names -/

variable {o o' : Owner} {j j' : ℕ} {x y d e : Text} {dir : Dir Text Bytes} {listing : List Text}

theorem dot_notMem_decimal (n : ℕ) : dot∉decimal n := by
  intro h
  exact absurd (decimal_digit h) (by decide)

/-- Two texts are cut in the same way at their last dots. -/
theorem last_dot_inj (h : x++dot::d = y++dot::e) (hd : dot∉d) (he : dot∉e) : x = y ∧ d = e := by
  rcases List.append_eq_append_iff.1 h with ⟨mid,rfl,hmid⟩ | ⟨mid,rfl,hmid⟩
  · cases mid with
    | nil => exact ⟨by simp,(List.cons.inj hmid).2⟩
    | cons b mid => exact absurd (by simp [(List.cons.inj hmid).2]) hd
  · cases mid with
    | nil => exact ⟨by simp,(List.cons.inj hmid).2.symm⟩
    | cons b mid => exact absurd (by simp [(List.cons.inj hmid).2]) he

/-- A beginning that ends in a dot ends at the last dot or before it. -/
theorem begins_dotted_iff (hd : dot∉d) : x++[dot] <+: y++dot::d ↔ x = y ∨ x++[dot] <+: y := by
  constructor
  · rintro ⟨rest,h⟩
    rw [List.append_assoc,List.singleton_append] at h
    rcases List.append_eq_append_iff.1 h with ⟨mid,rfl,hmid⟩ | ⟨mid,rfl,hmid⟩
    · cases mid with
      | nil => exact .inl (by simp)
      | cons b mid =>
        obtain ⟨rfl,-⟩ := List.cons.inj hmid
        exact .inr ⟨mid,by simp⟩
    · cases mid with
      | nil => exact .inl (by simp)
      | cons b mid => exact absurd (by simp [(List.cons.inj hmid).2]) hd
  · rintro (rfl | h)
    · exact ⟨d,by simp⟩
    · exact h.trans (List.prefix_append _ _)

/-- The record with its parts before each of the dots. -/
def Owner.upToFmt (o : Owner) : Text := o.file++dot::decimal o.fmt
def Owner.upToRecno (o : Owner) : Text := o.upToFmt++dot::decimal o.recno

theorem Owner.stem_eq (o : Owner) : o.stem = o.upToRecno++[dot] := by
  simp [stem,upToRecno,upToFmt]

theorem blobName_eq (o : Owner) (j : ℕ) : blobName o j = o.upToRecno++dot::decimal j := by
  simp [blobName,Owner.stem_eq]

theorem Owner.upToRecno_inj (h : o.upToRecno = o'.upToRecno) : o = o' := by
  obtain ⟨hfmt,hrecno⟩ := last_dot_inj h (dot_notMem_decimal _) (dot_notMem_decimal _)
  obtain ⟨hfile,hdec⟩ := last_dot_inj hfmt (dot_notMem_decimal _) (dot_notMem_decimal _)
  cases o
  cases o'
  simp only [Owner.mk.injEq]
  exact ⟨hfile,decimal_injective hdec,decimal_injective hrecno⟩

/-- Every blob has its own name. -/
theorem blobName_inj (h : blobName o j = blobName o' j') : o = o' ∧ j = j' := by
  rw [blobName_eq,blobName_eq] at h
  obtain ⟨howner,hdec⟩ := last_dot_inj h (dot_notMem_decimal _) (dot_notMem_decimal _)
  exact ⟨Owner.upToRecno_inj howner,decimal_injective hdec⟩

/-- The blobs of `o'` are taken for those of `o`: its file has the name of the file of `o` with the
format, or with the format and the record, or with both and more behind them. -/
def Mistaken (o o' : Owner) : Prop :=
  (o'.file = o.upToFmt ∧ o'.fmt = o.recno) ∨ o'.file = o.upToRecno ∨ o.stem <+: o'.file

/-- What `blob_ctl` finds. -/
theorem stem_begins_iff : o.stem <+: blobName o' j ↔ o' = o ∨ Mistaken o o' := by
  have hrecno : o.upToRecno = o'.upToFmt ↔ o'.file = o.upToFmt ∧ o'.fmt = o.recno := by
    constructor
    · intro h
      obtain ⟨hfile,hdec⟩ := last_dot_inj h (dot_notMem_decimal _) (dot_notMem_decimal _)
      exact ⟨hfile.symm,(decimal_injective hdec).symm⟩
    · rintro ⟨hfile,hfmt⟩
      simp [Owner.upToRecno,Owner.upToFmt,hfile,hfmt]
  have howner : o.upToRecno = o'.upToRecno ↔ o' = o :=
    ⟨fun h => (Owner.upToRecno_inj h).symm,fun h => h ▸ rfl⟩
  have hlast : o.upToRecno++[dot] <+: o'.upToRecno ↔ o.upToRecno = o'.upToFmt ∨ o.upToRecno++[dot] <+: o'.upToFmt :=
    begins_dotted_iff (dot_notMem_decimal _)
  have hfirst : o.upToRecno++[dot] <+: o'.upToFmt ↔ o.upToRecno = o'.file ∨ o.upToRecno++[dot] <+: o'.file :=
    begins_dotted_iff (dot_notMem_decimal _)
  rw [blobName_eq,Mistaken,Owner.stem_eq,begins_dotted_iff (dot_notMem_decimal _),howner,hlast,hrecno,hfirst,
    @eq_comm _ o'.file o.upToRecno]

theorem Mistaken.ne (h : Mistaken o o') : o'≠o := by
  rintro rfl
  rcases h with ⟨h,-⟩ | h | ⟨rest,h⟩
  · simp [Owner.upToFmt] at h
  · simp [Owner.upToRecno,Owner.upToFmt] at h
  · simp [Owner.stem] at h

/-! ## The directory after `blob_ctl` -/

theorem lastName_eq {name : Text} (h : slash∉name) : lastName name = name := by
  rw [lastName,List.takeWhile_eq_self_iff.2,List.reverse_reverse]
  intro b hb
  have hne : b≠slash := fun heq => h (heq ▸ List.mem_reverse.1 hb)
  simpa using hne

/-- Without failures every entry that is found is changed. -/
theorem blobCtl_eq (op : Op) (hfile : slash∉o.file) :
    blobCtl o.file o.fmt o.recno op (fun _ => false) listing dir =
      (0,listing.foldl (fun dir n => if op.mark o <+: n then op.change n dir else dir) dir) := by
  rw [blobCtl,lastName_eq hfile]
  induction listing generalizing dir with
  | nil => rfl
  | cons n rest ih =>
    have hentry : op.entry o (fun _ => false) (0,dir) n = (0,if op.mark o <+: n then op.change n dir else dir) := by
      rw [Op.entry]
      split <;> simp_all
    rw [List.foldl_cons,List.foldl_cons,hentry,ih]

/-- The blobs of the records `created`, and no other file. -/
def Holds (created : Set (Owner × ℕ)) (dir : Dir Text Bytes) : Prop :=
  ∀ n,dir n≠none ↔ ∃ key∈created,n = blobName key.1 key.2

variable {created : Set (Owner × ℕ)}

/-- The blobs of one record are gone, and everything else is as before. -/
def OnlyOwn (o : Owner) (created : Set (Owner × ℕ)) (dir dir' : Dir Text Bytes) : Prop :=
  ∀ n,((∃ j,(o,j)∈created ∧ n = blobName o j) → dir' n = none) ∧
    ((¬ ∃ j,(o,j)∈created ∧ n = blobName o j) → dir' n = dir n)

theorem blobCtl_unlink (hfile : slash∉o.file) :
    (blobCtl o.file o.fmt o.recno .unlink (fun _ => false) listing dir).2 =
      removeAll (fun n => o.stem <+: n) listing dir := by
  rw [blobCtl_eq _ hfile]
  rfl

/-- Only the blobs of the record are removed if no other blob is taken for one of them. -/
theorem unlink_onlyOwn_iff (hfile : slash∉o.file) (hdir : Holds created dir) (hlist : Lists listing dir) :
    OnlyOwn o created dir (blobCtl o.file o.fmt o.recno .unlink (fun _ => false) listing dir).2 ↔
      ∀ key∈created,¬ Mistaken o key.1 := by
  rw [blobCtl_unlink hfile]
  constructor
  · intro h key hkey hmistaken
    have hthere : dir (blobName key.1 key.2)≠none := (hdir _).2 ⟨key,hkey,rfl⟩
    have hother : ¬ ∃ j,(o,j)∈created ∧ blobName key.1 key.2 = blobName o j := by
      rintro ⟨j,-,hname⟩
      exact hmistaken.ne (blobName_inj hname).1
    have hafter := (h (blobName key.1 key.2)).2 hother
    rw [removeAll_mem (stem_begins_iff.2 (.inr hmistaken)) ((hlist.mem_iff _).2 hthere)] at hafter
    exact hthere hafter.symm
  · intro h n
    constructor
    · rintro ⟨j,hkey,rfl⟩
      exact removeAll_mem (stem_begins_iff.2 (.inl rfl)) ((hlist.mem_iff _).2 ((hdir _).2 ⟨(o,j),hkey,rfl⟩))
    · intro hother
      apply removeAll_other
      intro hmem hstem
      obtain ⟨key,hkey,rfl⟩ := (hdir n).1 ((hlist.mem_iff n).1 hmem)
      rcases stem_begins_iff.1 hstem with heq | hmistaken
      · exact hother ⟨key.2,heq ▸ hkey,by rw [heq]⟩
      · exact h key hkey hmistaken

/-! ## Hidden blobs -/

/-- A text that is found with a dot before it and without has nothing but dots. -/
theorem eq_dot_of_begins {p text : Text} (h : p <+: text) (hdot : dot::p <+: text) : ∀ b∈p,b = dot := by
  induction p generalizing text with
  | nil => simp
  | cons c p ih =>
    obtain ⟨rest,rfl⟩ := h
    obtain ⟨rfl,hrest⟩ := List.cons_prefix_cons.1 hdot
    intro b hb
    rcases List.mem_cons.1 hb with rfl | hb
    · rfl
    · exact ih (List.prefix_append p rest) hrest b hb

theorem not_begins_both {text : Text} (h : o.stem <+: text) : ¬ dot::o.stem <+: text := by
  intro hdot
  obtain ⟨b,hb⟩ := List.exists_mem_of_ne_nil _ (decimal_ne_nil o.fmt)
  have hmem : b∈o.stem := by simp [Owner.stem,hb]
  exact dot_notMem_decimal o.fmt (eq_dot_of_begins h hdot b hmem ▸ hb)

/-- The record of the data file with a dot before its name. -/
def Owner.hidden (o : Owner) : Owner := { o with file := dot::o.file }

theorem hidden_stem : o.hidden.stem = dot::o.stem := rfl

/-- The blobs of the record get hidden names. -/
def hide (o : Owner) (listing : List Text) (dir : Dir Text Bytes) : Dir Text Bytes :=
  renameAll (fun n => o.stem <+: n) (dot :: ·) listing dir

/-- The hidden names are taken back. -/
def unhide (o : Owner) (listing : List Text) (dir : Dir Text Bytes) : Dir Text Bytes :=
  renameAll (fun n => dot::o.stem <+: n) List.tail listing dir

theorem blobCtl_hide (hfile : slash∉o.file) :
    (blobCtl o.file o.fmt o.recno .hide (fun _ => false) listing dir).2 = hide o listing dir := by
  rw [blobCtl_eq _ hfile]
  rfl

theorem blobCtl_unhide (hfile : slash∉o.file) :
    (blobCtl o.file o.fmt o.recno .unhide (fun _ => false) listing dir).2 = unhide o listing dir := by
  rw [blobCtl_eq _ hfile]
  rfl

/-- Names that are not found keep their contents. -/
theorem hide_other {n : Text} (hn : n∈listing → ¬ o.stem <+: n) (hdot : n.tail∈listing → ¬ dot::o.stem <+: n) :
    hide o listing dir n = dir n := by
  refine renameAll_other hn ?_
  rintro x hx hstem rfl
  exact hdot hx (List.cons_prefix_cons.2 ⟨rfl,hstem⟩)

theorem unhide_other {n : Text} (hn : n∈listing → ¬ dot::o.stem <+: n) (hdot : dot::n∈listing → ¬ o.stem <+: n) :
    unhide o listing dir n = dir n := by
  refine renameAll_other hn ?_
  rintro x hx ⟨rest,rfl⟩ rfl
  exact hdot (by simpa using hx) ⟨rest,rfl⟩

/-- A hidden name that was there is gone. -/
theorem unhide_hidden {n : Text} (hlist : Lists listing dir) (hn : dot::o.stem <+: n) : unhide o listing dir n = none := by
  have hplain : ¬ o.stem <+: n := fun h => not_begins_both h hn
  by_cases hmem : n∈listing
  · apply renameAll_old _ hmem hn
    rintro x ⟨rest,rfl⟩
    exact not_begins_both ⟨rest,rfl⟩
  · rw [unhide_other (fun h => absurd h hmem) fun _ => hplain]
    exact not_not.1 fun h => hmem ((hlist.mem_iff n).2 h)

/-- Hiding the blobs of a record and unhiding them is nothing if no blob has a hidden name. -/
theorem unhide_hide_iff {listing' : List Text} (hlist : Lists listing dir) (hlist' : Lists listing' (hide o listing dir)) :
    unhide o listing' (hide o listing dir) = dir ↔ ∀ n,dot::o.stem <+: n → dir n = none := by
  constructor
  · intro h n hn
    rw [← h,unhide_hidden hlist' hn]
  intro hnone
  have hfresh : ∀ n,o.stem <+: n → ¬ o.stem <+: dot::n := by
    intro n hn h
    exact not_begins_both h (List.cons_prefix_cons.2 ⟨rfl,hn⟩)
  have hfresh' : ∀ n,dot::o.stem <+: n → ¬ dot::o.stem <+: n.tail := by
    rintro n ⟨rest,rfl⟩
    exact not_begins_both ⟨rest,rfl⟩
  funext n
  by_cases hdot : dot::o.stem <+: n
  · rw [unhide_hidden hlist' hdot,hnone n hdot]
  by_cases hstem : o.stem <+: n
  · have hdotted : dot::o.stem <+: dot::n := List.cons_prefix_cons.2 ⟨rfl,hstem⟩
    by_cases hn : dir n = none
    · -- There was no such blob: it is not hidden, and there is nothing to unhide.
      have hout : n∉listing := fun h => (hlist.mem_iff n).1 h hn
      have hhidden : hide o listing dir (dot::n) = none := by
        rw [hide_other (fun _ h => not_begins_both h hdotted) fun h => absurd h hout,hnone _ hdotted]
      have hout' : dot::n∉listing' := fun h => (hlist'.mem_iff _).1 h hhidden
      rw [unhide_other (fun _ => hdot) fun h => absurd h hout',hide_other (fun h => absurd h hout) fun _ => hdot]
    · have hhidden : hide o listing dir (dot::n) = dir n :=
        renameAll_new hfresh (fun x y _ _ h => (List.cons.inj h).2) hlist.nodup ((hlist.mem_iff n).2 hn) hstem hn
      have hthere : hide o listing dir (dot::n)≠none := hhidden ▸ hn
      rw [← hhidden]
      refine renameAll_new hfresh' ?_ hlist'.nodup ((hlist'.mem_iff _).2 hthere) hdotted hthere
      rintro x y ⟨rest,rfl⟩ ⟨rest',rfl⟩ h
      simpa using h
  · rw [unhide_other (fun _ => hdot) fun _ => hstem,hide_other (fun _ => hstem) fun _ => hdot]

/-! ## Both -/

/-- Deleting the blobs of a record touches only its own, and hiding and unhiding them is nothing, if and
only if no blob is taken for one of the record or for a hidden one of the record. -/
theorem blobCtl_exact_iff {listing' : List Text} (hfile : slash∉o.file) (hdir : Holds created dir)
    (hlist : Lists listing dir)
    (hlist' : Lists listing' (blobCtl o.file o.fmt o.recno .hide (fun _ => false) listing dir).2) :
    (OnlyOwn o created dir (blobCtl o.file o.fmt o.recno .unlink (fun _ => false) listing dir).2 ∧
      (blobCtl o.file o.fmt o.recno .unhide (fun _ => false) listing'
        (blobCtl o.file o.fmt o.recno .hide (fun _ => false) listing dir).2).2 = dir) ↔
      ∀ key∈created,¬ Mistaken o key.1 ∧ key.1≠o.hidden ∧ ¬ Mistaken o.hidden key.1 := by
  rw [blobCtl_unhide hfile]
  rw [blobCtl_hide hfile] at hlist' ⊢
  have hhidden : (∀ n,dot::o.stem <+: n → dir n = none) ↔
      ∀ key∈created,key.1≠o.hidden ∧ ¬ Mistaken o.hidden key.1 := by
    rw [← hidden_stem]
    constructor
    · intro h key hkey
      rw [← not_or,← stem_begins_iff (j := key.2)]
      exact fun hstem => (hdir _).2 ⟨key,hkey,rfl⟩ (h _ hstem)
    · intro h n hstem
      by_contra hn
      obtain ⟨key,hkey,rfl⟩ := (hdir n).1 hn
      exact not_or.2 (h key hkey) (stem_begins_iff.1 hstem)
  rw [unlink_onlyOwn_iff hfile hdir hlist,unhide_hide_iff hlist hlist',hhidden]
  exact ⟨fun h key hkey => ⟨h.1 key hkey,h.2 key hkey⟩,fun h => ⟨fun key hkey => (h key hkey).1,fun key hkey => (h key hkey).2⟩⟩

/-- Blob 0 of a record of the file `a`. -/
def ownerA : Owner := ⟨[97],1,5⟩

theorem holds_single (o : Owner) (j : ℕ) : Holds {(o,j)} (put (fun _ => none) (blobName o j) []) := by
  intro n
  by_cases hn : n = blobName o j
  · simp [hn]
  · simp [hn,put_of_ne]

theorem lists_single (n : Text) : Lists [n] (put (fun _ => none) n ([] : Bytes)) := by
  refine ⟨List.nodup_singleton n,fun m => ?_⟩
  by_cases hm : m = n
  · simp [hm]
  · simp [hm,put_of_ne]

theorem hide_single : hide ownerA [blobName ownerA 0] (put (fun _ => none) (blobName ownerA 0) []) =
    put (fun _ => none) (dot::blobName ownerA 0) [] := by
  have hstem : ownerA.stem <+: blobName ownerA 0 := stem_begins_iff.2 (.inl rfl)
  rw [hide,renameAll,List.foldl_cons,List.foldl_nil,if_pos hstem,rename,put_self]
  simp [remove,put]

/-- A data file `a.1.5` loses its blob with the blobs of record 5 of format 1 of the file `a`; and hiding these
replaces the blob of a data file `.a`. -/
theorem other_blobs_lost :
    (let other := blobName ⟨[97,46,49,46,53],2,7⟩ 0
     let dir := put (put (fun _ => none) (blobName ownerA 0) []) other [1]
     dir other = some [1] ∧ (blobCtl [97] 1 5 .unlink (fun _ => false) [blobName ownerA 0,other] dir).2 other = none) ∧
    (let other := blobName ⟨[46,97],1,5⟩ 0
     let dir := put (put (fun _ => none) (blobName ownerA 0) []) other [1]
     dir other = some [1] ∧ (blobCtl [97] 1 5 .hide (fun _ => false) [blobName ownerA 0,other] dir).2 other = some []) := by
  decide +kernel

theorem blobCtl_exact_iff_single :
    OnlyOwn ownerA {(ownerA,0)} (put (fun _ => none) (blobName ownerA 0) [])
      (blobCtl ownerA.file ownerA.fmt ownerA.recno .unlink (fun _ => false) [blobName ownerA 0]
        (put (fun _ => none) (blobName ownerA 0) [])).2 := by
  have hfile : slash∉ownerA.file := by decide
  have hlist' : Lists [dot::blobName ownerA 0] (blobCtl ownerA.file ownerA.fmt ownerA.recno .hide (fun _ => false)
      [blobName ownerA 0] (put (fun _ => none) (blobName ownerA 0) [])).2 := by
    rw [blobCtl_hide hfile,hide_single]
    exact lists_single _
  refine ((blobCtl_exact_iff hfile (holds_single ownerA 0) (lists_single _) hlist').2 ?_).1
  rintro key rfl
  refine ⟨fun h => h.ne rfl,by decide,?_⟩
  rintro (⟨h,-⟩ | h | h)
  · exact absurd h (by decide +kernel)
  · exact absurd h (by decide +kernel)
  · exact absurd h (by decide +kernel)

end Dataman.Blobs

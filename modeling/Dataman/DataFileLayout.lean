import Dataman.DataFile
import Dataman.LinkedChain
import Mathlib.Data.List.Pairwise

/-!
# Where the fields of a data file are

The head pointer and the fields of all records lie apart from each other, so a write to
one of them is an update of that field alone.
-/

namespace Dataman.DataFile
open ByteFiles FixedWidthFields

/-- A record in the file, live or deleted. -/
structure Record where
  off : ℕ
  fmt : ℕ
  deriving DecidableEq,Repr

def Files.dataLength (file : Files) (r : Record) : ℕ := (file.format r.fmt).rfLen

def Apart (file : Files) (r r' : Record) : Prop :=
  r.off+17+file.dataLength r ≤ r'.off ∨ r'.off+17+file.dataLength r' ≤ r.off

instance apart_symm (file : Files) : Std.Symm (Apart file) := ⟨fun _ _ h => h.symm⟩

/-- The records lie behind the head pointer, inside the file and apart. -/
structure Laid (file : Files) (n : ℕ) (recs : List Record) : Prop where
  header_le : file.hlen+10 ≤ n
  length_le : n ≤ int64Max
  ge : ∀ r∈recs,file.hlen+10 ≤ r.off
  inside : ∀ r∈recs,r.off+17+file.dataLength r ≤ n
  apart : recs.Pairwise (Apart file)
  format : ∀ r∈recs,1 ≤ r.fmt ∧ r.fmt ≤ file.formats.length

/-- The records follow each other from one offset to another. -/
def Tiled (file : Files) : ℕ → List Record → ℕ → Prop
  | a,[],b => a = b
  | a,r::rest,b => r.off = a ∧ Tiled file (a+17+file.dataLength r) rest b

theorem Tiled.ge {file : Files} {a b : ℕ} {recs : List Record} (h : Tiled file a recs b) {r : Record} (hr : r∈recs) : a ≤ r.off := by
  induction recs generalizing a with
  | nil => cases hr
  | cons x recs ih =>
    obtain ⟨hoff,hrest⟩ := h
    rcases List.mem_cons.1 hr with rfl | hr
    · omega
    · have := ih hrest hr
      omega

theorem Tiled.append {file : Files} {a b c : ℕ} {recs new : List Record} (h : Tiled file a recs b) (hnew : Tiled file b new c) :
    Tiled file a (recs++new) c := by
  induction recs generalizing a with
  | nil =>
    obtain rfl : a = b := h
    exact hnew
  | cons x recs ih => exact ⟨h.1,ih h.2⟩

inductive Loc
  | head
  | flag (o : ℕ)
  | prev (o : ℕ)
  | next (o : ℕ)
  | data (r : Record)
  deriving DecidableEq,Repr

def Loc.off (file : Files) : Loc → ℕ
  | head => file.hlen+2
  | flag o => o
  | prev o => o+1
  | next o => o+9
  | data r => r.off+17

def Loc.length (file : Files) : Loc → ℕ
  | head | prev _ | next _ => 8
  | flag _ => 1
  | data r => file.dataLength r

def Loc.Valid (recs : List Record) : Loc → Prop
  | head => True
  | flag o | prev o | next o => ∃ r∈recs,r.off = o
  | data r => r∈recs

def contents (file : Files) (f : Bytes) (l : Loc) : Bytes := slice f (l.off file) (l.length file)

def headAt (file : Files) (f : Bytes) : ℕ := getBE (contents file f .head)
def prevAt (file : Files) (f : Bytes) (o : ℕ) : ℕ := getBE (contents file f (.prev o))
def nextAt (file : Files) (f : Bytes) (o : ℕ) : ℕ := getBE (contents file f (.next o))

variable {file : Files} {n : ℕ} {recs : List Record} {f : Bytes}

/-! ## Locations are apart -/

theorem Laid.eq_of_off (hl : Laid file n recs) {r r' : Record} (hr : r∈recs) (hr' : r'∈recs) (h : r.off = r'.off) :
    r = r' := by
  by_contra hne
  rcases hl.apart.forall hr hr' hne with h' | h'
  · omega
  · omega

theorem Loc.inside (hl : Laid file n recs) {l : Loc} (hv : l.Valid recs) : l.off file+l.length file ≤ n := by
  have hh := hl.header_le
  cases l with
  | head => exact hh
  | flag o =>
    obtain ⟨r,hr,rfl⟩ := hv
    have := hl.inside r hr
    simp only [Loc.off,Loc.length]
    omega
  | prev o =>
    obtain ⟨r,hr,rfl⟩ := hv
    have := hl.inside r hr
    simp only [Loc.off,Loc.length]
    omega
  | next o =>
    obtain ⟨r,hr,rfl⟩ := hv
    have := hl.inside r hr
    simp only [Loc.off,Loc.length]
    omega
  | data r => exact hl.inside r hv

/-- A location is the head pointer or a part of a record. -/
theorem Loc.owner {l : Loc} (hv : l.Valid recs) : l = .head ∨ ∃ r∈recs,r.off ≤ l.off file ∧
    l.off file+l.length file ≤ r.off+17+file.dataLength r ∧ (l = .flag r.off ∨ l = .prev r.off ∨ l = .next r.off ∨ l = .data r) := by
  cases l with
  | head => exact .inl rfl
  | flag o =>
    obtain ⟨r,hr,rfl⟩ := hv
    exact .inr ⟨r,hr,by simp only [Loc.off]; omega,by simp only [Loc.off,Loc.length]; omega,.inl rfl⟩
  | prev o =>
    obtain ⟨r,hr,rfl⟩ := hv
    exact .inr ⟨r,hr,by simp only [Loc.off]; omega,by simp only [Loc.off,Loc.length]; omega,.inr (.inl rfl)⟩
  | next o =>
    obtain ⟨r,hr,rfl⟩ := hv
    exact .inr ⟨r,hr,by simp only [Loc.off]; omega,by simp only [Loc.off,Loc.length]; omega,.inr (.inr (.inl rfl))⟩
  | data r =>
    exact .inr ⟨r,hv,by simp only [Loc.off]; omega,by simp only [Loc.off,Loc.length]; omega,.inr (.inr (.inr rfl))⟩

theorem Loc.disjoint (hl : Laid file n recs) {l l' : Loc} (hv : l.Valid recs) (hv' : l'.Valid recs) (hne : l≠l') :
    l.off file+l.length file ≤ l'.off file ∨ l'.off file+l'.length file ≤ l.off file := by
  rcases @Loc.owner file recs l hv with rfl | ⟨r,hr,h1,h2,hk⟩
  · rcases @Loc.owner file recs l' hv' with rfl | ⟨r',hr',h1',h2',-⟩
    · exact absurd rfl hne
    · have := hl.ge r' hr'
      left
      simp only [Loc.off,Loc.length] at h1' ⊢
      omega
  · rcases @Loc.owner file recs l' hv' with rfl | ⟨r',hr',h1',h2',hk'⟩
    · have := hl.ge r hr
      right
      simp only [Loc.off,Loc.length] at h1 ⊢
      omega
    · by_cases heq : r = r'
      · subst heq
        rcases hk with rfl | rfl | rfl | rfl <;> rcases hk' with rfl | rfl | rfl | rfl <;>
          simp only [ne_eq,not_true_eq_false] at hne <;> simp only [Loc.off,Loc.length] <;> omega
      · rcases hl.apart.forall hr hr' heq with h | h
        · omega
        · omega

/-! ## Writing a field -/

/-- A write to one location updates it and nothing else. -/
theorem contents_writeAt (hl : Laid file f.length recs) {l l' : Loc} (hv : l.Valid recs) (hv' : l'.Valid recs)
    {data : Bytes} (hd : data.length = l.length file) :
    contents file (writeAt f (l.off file) data) l' = if l' = l then data else contents file f l' := by
  have hin := Loc.inside hl hv'
  by_cases h : l' = l
  · subst h
    rw [if_pos rfl,contents,← hd,slice_writeAt_self]
  · rw [if_neg h,contents,contents]
    apply slice_writeAt_disjoint
    · rcases Loc.disjoint hl hv' hv h with h | h
      · exact .inl h
      · exact .inr (hd ▸ h)
    · exact hin

/-- Writes that are made or not, to a location or to none. -/
def putAt (file : Files) (f : Bytes) (l : Option Loc) (v : ℕ) : Bytes :=
  match l with
  | some l => writeAt f (l.off file) (putBE 8 v)
  | none => f

theorem length_writeAt_inside {o : ℕ} {data : Bytes} (h : o+data.length ≤ f.length) :
    (writeAt f o data).length = f.length := by
  by_cases hd : data = []
  · rw [hd,writeAt_nil]
  · rw [length_writeAt _ _ _ hd]
    omega

theorem length_putAt (hl : Laid file f.length recs) {l : Option Loc} (hv : ∀ x,l = some x → x.Valid recs ∧ x.length file = 8)
    (v : ℕ) : (putAt file f l v).length = f.length := by
  cases l with
  | none => rfl
  | some l =>
    obtain ⟨hv,h8⟩ := hv l rfl
    have := Loc.inside hl hv
    apply length_writeAt_inside
    rw [length_putBE]
    omega

theorem contents_putAt (hl : Laid file f.length recs) {l : Option Loc} {l' : Loc}
    (hv : ∀ x,l = some x → x.Valid recs ∧ x.length file = 8) (hv' : l'.Valid recs) (v : ℕ) :
    contents file (putAt file f l v) l' = if l = some l' then putBE 8 v else contents file f l' := by
  cases l with
  | none => rw [putAt,if_neg (by simp)]
  | some l =>
    obtain ⟨hv,h8⟩ := hv l rfl
    rw [putAt,contents_writeAt hl hv hv' (by rw [length_putBE,h8])]
    by_cases h : l' = l
    · rw [if_pos h,if_pos (by rw [h])]
    · rw [if_neg h,if_neg (by simpa using fun h' => h h'.symm)]

/-! ## Appending a record -/

theorem Laid.append (hl : Laid file f.length recs) {r : Record} (hr : r.off = f.length)
    (hfmt : 1 ≤ r.fmt ∧ r.fmt ≤ file.formats.length) (hle : f.length+17+file.dataLength r ≤ int64Max) :
    Laid file (f.length+17+file.dataLength r) (recs++[r]) := by
  constructor
  · have := hl.header_le
    omega
  · exact hle
  · intro x hx
    rcases List.mem_append.1 hx with hx | hx
    · exact hl.ge x hx
    · rw [List.mem_singleton.1 hx,hr]
      exact hl.header_le
  · intro x hx
    rcases List.mem_append.1 hx with hx | hx
    · have := hl.inside x hx
      omega
    · rw [List.mem_singleton.1 hx,hr]
  · apply List.pairwise_append.2
    refine ⟨hl.apart,List.pairwise_singleton _ _,fun x hx y hy => ?_⟩
    rw [List.mem_singleton.1 hy]
    left
    rw [hr]
    exact hl.inside x hx
  · intro x hx
    rcases List.mem_append.1 hx with hx | hx
    · exact hl.format x hx
    · rw [List.mem_singleton.1 hx]
      exact hfmt

theorem contents_append (hl : Laid file f.length recs) {l : Loc} (hv : l.Valid recs) (data : Bytes) :
    contents file (writeAt f f.length data) l = contents file f l := by
  have := Loc.inside hl hv
  exact slice_writeAt_disjoint _ _ _ _ _ (.inl this) this

end Dataman.DataFile

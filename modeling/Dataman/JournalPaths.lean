import Dataman.JournalFormat
import Dataman.PathNames

/-!
# Names below the root of a session

Three tests say whether a path is below the root and what it is called there: one for the targets of a
transaction, one for the files of a request and one for blobs. The journal takes such a name, and
`open_beneath` goes through its parts from the root. Strings are written without their zero.
-/

namespace Dataman.JournalPaths
open PathNames
open UndoJournal (slash dot partValid blobValid maxPath)

/-! ## The source -/

/-- The part of the loop of `bind_owner`. -/
def ownerPart (part : Bytes) : Bool := part≠[] && part≠[dot] && part≠[dot,dot]

/-- The name that `bind_owner` gives to a target. -/
def bindOwner (root path : Bytes) : Option Bytes :=
  if path.head?≠some slash ∨ path.take root.length≠root then none
  else if root.length = 1 then if scan slash ownerPart (path.drop 1) then some (path.drop 1) else none
  else if path[root.length]?≠some slash then none
  else if scan slash ownerPart (path.drop (root.length+1)) then some (path.drop (root.length+1))
  else none

def below (root path : Bytes) : Bool := path.take root.length = root ∧ (root.length = 1 ∨ path[root.length]? = some slash)

/-- The name that `bind_file` gives to a file with this `realpath`. -/
def bindFile (root path : Bytes) : Option Bytes :=
  if below root path then some (path.drop (root.length+if root.length≠1 then 1 else 0)) else none

def relativeBlob (root path : Bytes) : Option Bytes :=
  if path.head?≠some slash ∨ path.take root.length≠root then none
  else if root.length = 1 then some (path.drop 1)
  else if path[root.length]? = some slash then some (path.drop (root.length+1))
  else none

/-- The loop of `name_valid`. -/
def nameValid (name : Bytes) : Bool := name.length≠0 && name.length ≤ maxPath && scan slash partValid name

/-- A part that `openat` looks for in the directory. -/
def Ordinary (part : Bytes) : Prop := part≠[] ∧ part≠[dot] ∧ part≠[dot,dot] ∧ slash∉part

instance decidableOrdinary (part : Bytes) : Decidable (Ordinary part) :=
  inferInstanceAs (Decidable (part≠[] ∧ part≠[dot] ∧ part≠[dot,dot] ∧ slash∉part))

/-- The directories with their entries that are not symbolic links. Any other name leads to any place. -/
structure FileTree (β : Type) where
  entry : β → Bytes → Option β
  isDir : β → Bool
  elsewhere : β → Bytes → Option β

/-- `openat` with `O_NOFOLLOW`, and with `O_DIRECTORY` or without. -/
def FileTree.openat {β : Type} (fs : FileTree β) (directory : Bool) (dir : β) (name : Bytes) : Option β :=
  (if Ordinary name then fs.entry dir name else fs.elsewhere dir name).filter fun n => !directory || fs.isDir n

/-- All that is opened, and the result. -/
def openBeneath {β : Type} (fs : FileTree β) (root : β) (name : Bytes) : List β × Option β :=
  if nameValid name then walk slash (fs.openat true) (fs.openat false) root name else ([],none)

/-! ## What the tests accept -/

/-- An absolute path without empty parts and without dots, as `realpath` gives it. -/
structure Canonical (path : Bytes) : Prop where
  absolute : ∃ rest,path = slash::rest
  parts : path = [slash] ∨ ∀ part∈(path.drop 1).splitOn slash,part≠[] ∧ part≠[dot] ∧ part≠[dot,dot]

/-- The limits of names that exist. -/
structure OnDisk (path : Bytes) : Prop where
  length_le : path.length ≤ maxPath
  part_le : ∀ part∈path.splitOn slash,part.length ≤ 255

/-- One of the tests accepts the path under this name. -/
inductive Accepted (root path name : Bytes) : Prop
  | owner (disk : OnDisk path) (bound : bindOwner root path = some name)
  | file (disk : OnDisk path) (real : Canonical path) (bound : bindFile root path = some name)
  | blob (bound : relativeBlob root path = some name) (valid : blobValid name = true)

/-- The path of a name below the root. -/
def beneath (root name : Bytes) : Bytes := if root = [slash] then slash::name else root++slash::name

/-- What `name_valid` is to say. -/
structure GoodName (name : Bytes) : Prop where
  length : 1 ≤ name.length ∧ name.length ≤ 4095
  parts : ∀ part∈name.splitOn slash,(1 ≤ part.length ∧ part.length ≤ 255) ∧ part≠[dot] ∧ part≠[dot,dot]

variable {root path name : Bytes}

theorem nameValid_eq (name : Bytes) : nameValid name = UndoJournal.nameValid name := by
  rw [nameValid,scan_eq,UndoJournal.nameValid]
  simp

theorem nameValid_iff (name : Bytes) : nameValid name = true ↔ GoodName name := by
  have hpos : ∀ part : Bytes,part≠[] ↔ 1 ≤ part.length := fun part => List.length_pos_iff.symm
  rw [nameValid_eq,UndoJournal.nameValid]
  simp only [Bool.and_eq_true,decide_eq_true_eq,List.all_eq_true,partValid,hpos]
  constructor
  · rintro ⟨hlen,hparts⟩
    exact ⟨hlen,fun part hp => ⟨⟨(hparts part hp).1.1.1,(hparts part hp).1.1.2⟩,(hparts part hp).1.2,(hparts part hp).2⟩⟩
  · intro h
    exact ⟨h.length,fun part hp => ⟨⟨(h.parts part hp).1,(h.parts part hp).2.1⟩,(h.parts part hp).2.2⟩⟩

theorem ownerPart_iff (part : Bytes) : ownerPart part = true ↔ part≠[] ∧ part≠[dot] ∧ part≠[dot,dot] := by
  simp only [ownerPart,Bool.and_eq_true,decide_eq_true_eq,and_assoc]

/-! ## The root in front -/

theorem Canonical.root_eq (h : Canonical root) : root.length = 1 ↔ root = [slash] := by
  obtain ⟨rest,rfl⟩ := h.absolute
  simp

theorem split_root (htake : path.take root.length = root) (hat : path[root.length]? = some slash) :
    path = root++slash::path.drop (root.length+1) := by
  obtain ⟨hlt,hget⟩ := List.getElem?_eq_some_iff.1 hat
  calc path = path.take root.length++path.drop root.length := (List.take_append_drop _ _).symm
    _ = root++slash::path.drop (root.length+1) := by rw [htake,List.drop_eq_getElem_cons hlt,hget]

theorem split_slash (htake : path.take 1 = [slash]) : path = slash::path.drop 1 := by
  calc path = path.take 1++path.drop 1 := (List.take_append_drop _ _).symm
    _ = slash::path.drop 1 := by rw [htake,List.singleton_append]

/-- What the three tests have in common. -/
def RelativeTo (root path name : Bytes) : Prop :=
  path.take root.length = root ∧ (root.length = 1 ∧ name = path.drop 1 ∨
    root.length≠1 ∧ path[root.length]? = some slash ∧ name = path.drop (root.length+1))

theorem bindOwner_some (h : bindOwner root path = some name) : RelativeTo root path name ∧ scan slash ownerPart name = true := by
  rw [bindOwner] at h
  split at h
  · cases h
  · rename_i hstart
    rw [not_or,not_not,not_not] at hstart
    split at h
    · rename_i hone
      split at h
      · rename_i hscan
        obtain rfl := Option.some.inj h
        exact ⟨⟨hstart.2,.inl ⟨hone,rfl⟩⟩,hscan⟩
      · cases h
    · rename_i hone
      split at h
      · cases h
      · rename_i hat
        split at h
        · rename_i hscan
          obtain rfl := Option.some.inj h
          exact ⟨⟨hstart.2,.inr ⟨hone,not_not.1 hat,rfl⟩⟩,hscan⟩
        · cases h

theorem bindFile_some (h : bindFile root path = some name) : RelativeTo root path name := by
  rw [bindFile] at h
  split at h
  · rename_i hbelow
    obtain ⟨htake,hat⟩ := of_decide_eq_true hbelow
    refine ⟨htake,?_⟩
    by_cases hone : root.length = 1
    · rw [if_neg (not_not.2 hone),hone] at h
      exact .inl ⟨hone,(Option.some.inj h).symm⟩
    · rw [if_pos hone] at h
      exact .inr ⟨hone,hat.resolve_left hone,(Option.some.inj h).symm⟩
  · cases h

theorem relativeBlob_some (h : relativeBlob root path = some name) : RelativeTo root path name := by
  rw [relativeBlob] at h
  split at h
  · cases h
  · rename_i hstart
    rw [not_or,not_not,not_not] at hstart
    split at h
    · rename_i hone
      exact ⟨hstart.2,.inl ⟨hone,(Option.some.inj h).symm⟩⟩
    · rename_i hone
      split at h
      · rename_i hat
        exact ⟨hstart.2,.inr ⟨hone,hat,(Option.some.inj h).symm⟩⟩
      · cases h

theorem RelativeTo.beneath_eq (h : RelativeTo root path name) (hroot : Canonical root) : beneath root name = path := by
  obtain ⟨htake,⟨hone,rfl⟩ | ⟨hone,hat,rfl⟩⟩ := h
  · have heq := hroot.root_eq.1 hone
    rw [heq] at htake
    rw [beneath,if_pos heq,← split_slash htake]
  · rw [beneath,if_neg fun heq => hone (hroot.root_eq.2 heq),← split_root htake hat]

/-- The parts of the name are parts of the path. -/
theorem RelativeTo.front (h : RelativeTo root path name) (hroot : Canonical root) : ∃ front,path = front++slash::name := by
  rw [← h.beneath_eq hroot,beneath]
  split
  · exact ⟨[],rfl⟩
  · exact ⟨root,rfl⟩

theorem RelativeTo.part_mem (h : RelativeTo root path name) (hroot : Canonical root) {part : Bytes} (hp : part∈name.splitOn slash) :
    part∈path.splitOn slash := by
  obtain ⟨front,heq⟩ := h.front hroot
  rw [heq,splitOn_append]
  exact List.mem_append_right _ hp

/-! ## The names are good -/

/-- Parts that are not empty and no dots, within the limits. -/
theorem RelativeTo.good (h : RelativeTo root path name) (hroot : Canonical root) (hdisk : OnDisk path)
    (hparts : ∀ part∈name.splitOn slash,part≠[] ∧ part≠[dot] ∧ part≠[dot,dot]) : GoodName name := by
  have hne : name≠[] := by
    rintro rfl
    exact (hparts [] (by simp)).1 rfl
  refine ⟨⟨List.length_pos_iff.2 hne,?_⟩,?_⟩
  · obtain ⟨front,heq⟩ := h.front hroot
    have hle := hdisk.length_le
    rw [heq,List.length_append,List.length_cons,maxPath] at hle
    omega
  · intro part hp
    exact ⟨⟨List.length_pos_iff.2 (hparts part hp).1,hdisk.part_le part (h.part_mem hroot hp)⟩,(hparts part hp).2⟩

theorem file_parts (h : RelativeTo root path name) (hroot : Canonical root) (hne : path≠root) (hreal : Canonical path) :
    ∀ part∈name.splitOn slash,part≠[] ∧ part≠[dot] ∧ part≠[dot,dot] := by
  have hpath := h.beneath_eq hroot
  intro part hp
  rcases hreal.parts with heq | hparts
  · exfalso
    rw [beneath] at hpath
    split at hpath
    · rename_i hslash
      exact hne (heq.trans hslash.symm)
    · obtain ⟨rest,hrest⟩ := hroot.absolute
      have hlen := congrArg List.length (hpath.trans heq)
      rw [hrest] at hlen
      simp at hlen
  · apply hparts
    rw [← hpath,beneath]
    split
    · exact hp
    · obtain ⟨rest,hrest⟩ := hroot.absolute
      rw [hrest,List.cons_append,List.drop_one,List.tail_cons,splitOn_append]
      exact List.mem_append_right _ hp

theorem Accepted.good (h : Accepted root path name) (hroot : Canonical root) (hne : path≠root) :
    RelativeTo root path name ∧ GoodName name := by
  cases h with
  | owner disk bound =>
    obtain ⟨hrel,hscan⟩ := bindOwner_some bound
    rw [scan_eq,List.all_eq_true] at hscan
    exact ⟨hrel,hrel.good hroot disk fun part hp => (ownerPart_iff part).1 (hscan part hp)⟩
  | file disk real bound =>
    have hrel := bindFile_some bound
    exact ⟨hrel,hrel.good hroot disk (file_parts hrel hroot hne real)⟩
  | blob bound valid =>
    refine ⟨relativeBlob_some bound,?_⟩
    rw [← nameValid_iff,nameValid_eq]
    exact UndoJournal.nameValid_of_blobValid valid

/-! ## The names lead to places below the root -/

theorem GoodName.ordinary (h : GoodName name) {part : Bytes} (hp : part∈name.splitOn slash) : Ordinary part :=
  ⟨List.length_pos_iff.1 (h.parts part hp).1.1,(h.parts part hp).2.1,(h.parts part hp).2.2,sep_notMem hp⟩

theorem openat_entry {β : Type} {fs : FileTree β} {directory : Bool} {dir n : β} {part : Bytes} (hp : Ordinary part)
    (h : fs.openat directory dir part = some n) : fs.entry dir part = some n := by
  rw [FileTree.openat,if_pos hp] at h
  exact (Option.filter_eq_some_iff.1 h).1

/-- Directories that an entry leads to. -/
def FileTree.Inside {β : Type} (fs : FileTree β) (dir n : β) : Prop := ∃ part,Ordinary part ∧ fs.entry dir part = some n

theorem GoodName.opens {β : Type} (h : GoodName name) (fs : FileTree β) (top : β) :
    (∀ n∈(openBeneath fs top name).1,Relation.ReflTransGen fs.Inside top n) ∧
      ∀ n,(openBeneath fs top name).2 = some n → (name.splitOn slash).foldlM fs.entry top = some n := by
  have hopen : ∀ directory p c q,c∈name.splitOn slash → fs.openat directory p c = some q → fs.entry p c = some q :=
    fun directory p c q hc => openat_entry (h.ordinary hc)
  rw [openBeneath,if_pos ((nameValid_iff name).2 h)]
  obtain ⟨hplaces,hresult⟩ := @walk_reaches _ _ _ slash name _ _ _ top (hopen true) (hopen false)
  refine ⟨?_,hresult⟩
  intro n hn
  refine Relation.ReflTransGen.mono ?_ top n (hplaces n hn)
  rintro p q ⟨c,hc,hentry⟩
  exact ⟨c,h.ordinary hc,hentry⟩

/-- A sibling whose name begins like that of the root is not below it. -/
theorem not_relative_sibling (hroot : Canonical root) (hslash : root≠[slash]) {tail : Bytes} (htail : tail.head?≠some slash) (name : Bytes) :
    ¬ RelativeTo root (root++tail) name := by
  rintro ⟨-,⟨hone,-⟩ | ⟨-,hat,-⟩⟩
  · exact hslash (hroot.root_eq.1 hone)
  · rw [List.getElem?_append_right le_rfl,Nat.sub_self,← List.head?_eq_getElem?] at hat
    exact htail hat

/-- What any of the tests accepts is the name of the path below the root, and opening it does not leave the root. -/
theorem accepted_beneath_root (hroot : Canonical root) (hne : path≠root) :
    (∀ name,Accepted root path name → beneath root name = path ∧ nameValid name = true ∧ GoodName name ∧
      ∀ (β : Type) (fs : FileTree β) (top : β),(∀ n∈(openBeneath fs top name).1,Relation.ReflTransGen fs.Inside top n) ∧
        ∀ n,(openBeneath fs top name).2 = some n → (name.splitOn slash).foldlM fs.entry top = some n) ∧
    (root≠[slash] → ∀ tail,path = root++tail → tail.head?≠some slash →
      bindOwner root path = none ∧ bindFile root path = none ∧ relativeBlob root path = none) := by
  constructor
  · intro name h
    obtain ⟨hrel,hgood⟩ := h.good hroot hne
    exact ⟨hrel.beneath_eq hroot,(nameValid_iff name).2 hgood,hgood,fun β fs top => hgood.opens fs top⟩
  · rintro hslash tail rfl htail
    have hnot := not_relative_sibling hroot hslash htail
    refine ⟨?_,?_,?_⟩
    · exact Option.eq_none_iff_forall_ne_some.2 fun name h => hnot name (bindOwner_some h).1
    · exact Option.eq_none_iff_forall_ne_some.2 fun name h => hnot name (bindFile_some h)
    · exact Option.eq_none_iff_forall_ne_some.2 fun name h => hnot name (relativeBlob_some h)

/-- The root `/r`. -/
def sampleRoot : Bytes := [slash,114]

/-- The path `/r/f`, and its sibling `/rf`. -/
theorem accepted_beneath_root_sample : beneath sampleRoot [102] = [slash,114,slash,102] ∧ bindOwner sampleRoot [slash,114,102] = none := by
  have hroot : Canonical sampleRoot := ⟨⟨[114],rfl⟩,.inr (by decide)⟩
  have haccepted : Accepted sampleRoot [slash,114,slash,102] [102] := .file ⟨by decide,by decide⟩ ⟨⟨_,rfl⟩,.inr (by decide)⟩ (by decide)
  refine ⟨((accepted_beneath_root hroot (by decide)).1 _ haccepted).1,?_⟩
  exact ((accepted_beneath_root hroot (by decide)).2 (by decide) [102] rfl (by decide)).1

end Dataman.JournalPaths

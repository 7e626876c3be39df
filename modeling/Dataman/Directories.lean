import Mathlib.Data.List.Nodup

/-!
# Directories

A directory gives each name its contents. Files are put, removed and renamed; a rename replaces
what stood under the new name. A pass over a listing changes the names that it selects.
-/

namespace Dataman.Directories

variable {ν κ : Type} [DecidableEq ν] {dir : ν → Option κ} {a b n m : ν}

/-- A directory. -/
abbrev Dir (ν κ : Type) := ν → Option κ

def put (dir : Dir ν κ) (name : ν) (contents : κ) : Dir ν κ := Function.update dir name (some contents)

def remove (dir : Dir ν κ) (name : ν) : Dir ν κ := Function.update dir name none

/-- A rename of a file that does not exist fails and changes nothing. -/
def rename (dir : Dir ν κ) (source dest : ν) : Dir ν κ :=
  match dir source with
  | none => dir
  | some contents => put (remove dir source) dest contents

@[simp] theorem put_self (contents : κ) : put dir n contents n = some contents := by simp [put]

theorem put_of_ne (contents : κ) (h : m≠n) : put dir n contents m = dir m := by simp [put,h]

@[simp] theorem remove_self : remove dir n n = none := by simp [remove]

theorem remove_of_ne (h : m≠n) : remove dir n m = dir m := by simp [remove,h]

theorem rename_none (h : dir a = none) : rename dir a b = dir := by simp [rename,h]

theorem rename_dest (h : dir a≠none) : rename dir a b b = dir a := by
  cases ha : dir a with
  | none => exact absurd ha h
  | some contents => simp [rename,ha]

theorem rename_source (h : a≠b) : rename dir a b a = none := by
  cases ha : dir a with
  | none => simp [rename,ha]
  | some contents => simp [rename,ha,put_of_ne _ h]

theorem rename_of_ne (ha : n≠a) (hb : n≠b) : rename dir a b n = dir n := by
  cases h : dir a with
  | none => simp [rename,h]
  | some contents => simp [rename,h,put_of_ne _ hb,remove_of_ne ha]

/-- What `scandir` returns: each name once, in some order. -/
structure Lists (listing : List ν) (dir : Dir ν κ) : Prop where
  nodup : listing.Nodup
  mem_iff : ∀ n,n∈listing ↔ dir n≠none

/-! ## Passes over a listing -/

/-- Remove the selected names. -/
def removeAll (select : ν → Prop) [DecidablePred select] (listing : List ν) (dir : Dir ν κ) : Dir ν κ :=
  listing.foldl (fun dir n => if select n then remove dir n else dir) dir

/-- Give the selected names new ones. -/
def renameAll (select : ν → Prop) [DecidablePred select] (new : ν → ν) (listing : List ν) (dir : Dir ν κ) : Dir ν κ :=
  listing.foldl (fun dir n => if select n then rename dir n (new n) else dir) dir

variable {select : ν → Prop} [DecidablePred select] {new : ν → ν} {listing : List ν}

theorem removeAll_apply (listing : List ν) (dir : Dir ν κ) (n : ν) :
    removeAll select listing dir n = if select n ∧ n∈listing then none else dir n := by
  induction listing generalizing dir with
  | nil => simp [removeAll]
  | cons x rest ih =>
    rw [removeAll,List.foldl_cons,← removeAll,ih]
    by_cases hn : n = x
    · subst hn
      by_cases hs : select n <;> simp [hs]
    · by_cases hs : select x <;> simp [hs,hn,remove_of_ne]

theorem removeAll_mem (hs : select n) (hn : n∈listing) : removeAll select listing dir n = none := by
  rw [removeAll_apply,if_pos ⟨hs,hn⟩]

theorem removeAll_other (hs : n∈listing → ¬ select n) : removeAll select listing dir n = dir n := by
  rw [removeAll_apply,if_neg fun h => hs h.2 h.1]

/-- A name that is neither changed nor new keeps its contents. -/
theorem renameAll_other (hs : n∈listing → ¬ select n) (hnew : ∀ x∈listing,select x → new x≠n) :
    renameAll select new listing dir n = dir n := by
  induction listing generalizing dir with
  | nil => rfl
  | cons x rest ih =>
    rw [renameAll,List.foldl_cons,← renameAll,
      ih (fun hn => hs (List.mem_cons_of_mem _ hn)) fun y hy => hnew y (List.mem_cons_of_mem _ hy)]
    by_cases hx : select x
    · have hne : n≠x := by
        rintro rfl
        exact hs List.mem_cons_self hx
      rw [if_pos hx,rename_of_ne hne (hnew x List.mem_cons_self hx).symm]
    · rw [if_neg hx]

section Fresh

variable (hfresh : ∀ n,select n → ¬ select (new n))
include hfresh

/-- The new names have the contents of the old ones. -/
theorem renameAll_new (hnew : ∀ x y,select x → select y → new x = new y → x = y) (hlist : listing.Nodup)
    (hmem : n∈listing) (hs : select n) (hn : dir n≠none) :
    renameAll select new listing dir (new n) = dir n := by
  induction listing generalizing dir with
  | nil => simp at hmem
  | cons x rest ih =>
    obtain ⟨hx,hrest⟩ := List.nodup_cons.1 hlist
    rw [renameAll,List.foldl_cons,← renameAll]
    rcases List.mem_cons.1 hmem with rfl | hin
    · have hlater : ∀ y∈rest,select y → new y≠new n := by
        intro y hy hsy heq
        exact hx (hnew y n hsy hs heq ▸ hy)
      rw [if_pos hs,renameAll_other (fun _ => hfresh n hs) hlater,rename_dest hn]
    · have hne : n≠x := by
        rintro rfl
        exact hx hin
      have hkeep : (if select x then rename dir x (new x) else dir) n = dir n := by
        split
        · rename_i hsx
          refine rename_of_ne hne ?_
          rintro rfl
          exact hfresh x hsx hs
        · rfl
      rw [ih hrest hin (hkeep ▸ hn),hkeep]

/-- The old names are gone. -/
theorem renameAll_old (hmem : n∈listing) (hs : select n) : renameAll select new listing dir n = none := by
  have hstay : ∀ (rest : List ν) (dir : Dir ν κ),dir n = none → renameAll select new rest dir n = none := by
    intro rest
    induction rest with
    | nil => exact fun _ h => h
    | cons x rest ih =>
      intro dir hn
      rw [renameAll,List.foldl_cons,← renameAll]
      refine ih _ ?_
      split
      · rename_i hsx
        by_cases hne : n = x
        · subst hne
          rw [rename_none hn,hn]
        · rw [rename_of_ne hne,hn]
          rintro rfl
          exact hfresh x hsx hs
      · exact hn
  induction listing generalizing dir with
  | nil => simp at hmem
  | cons x rest ih =>
    rw [renameAll,List.foldl_cons,← renameAll]
    rcases List.mem_cons.1 hmem with rfl | hmem
    · rw [if_pos hs]
      refine hstay rest _ (rename_source ?_)
      intro heq
      exact hfresh n hs (heq ▸ hs)
    · exact ih hmem

end Fresh

end Dataman.Directories

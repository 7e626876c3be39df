import Mathlib.Data.List.TakeWhile
import Mathlib.Logic.Relation
import Mathlib.Tactic.NthRewrite

/-!
# Names with separators

A name is taken apart at its separators from front to back, once to look at every part of it and once to
go from one place to the next. Both see the parts that `List.splitOn` gives.
-/

namespace Dataman.PathNames

variable {α β : Type} [DecidableEq α] {sep : α} {path : List α}

/-! ## Parts -/

theorem dropWhile_length_lt {sep b : α} {path rest : List α} (h : path.dropWhile (· ≠ sep) = b::rest) : rest.length < path.length := by
  have hle := (List.dropWhile_suffix (l := path) (· ≠ sep)).length_le
  rw [h,List.length_cons] at hle
  exact hle

/-- Every part passes a test. -/
def scan (sep : α) (ok : List α → Bool) (path : List α) : Bool :=
  match _h : path.dropWhile (· ≠ sep) with
  | [] => ok path
  | _::rest => ok (path.takeWhile (· ≠ sep)) && scan sep ok rest
termination_by path.length
decreasing_by exact dropWhile_length_lt _h

theorem not_sep_of_mem (sep : α) (path : List α) : ∀ x∈path.takeWhile (· ≠ sep),(x == sep) = false := by
  intro x hx
  simpa using List.mem_takeWhile_imp hx

/-- A name of one part. -/
theorem splitOn_one (h : path.dropWhile (· ≠ sep) = []) : path.splitOn sep = [path] := by
  have happend := List.takeWhile_append_dropWhile (p := (· ≠ sep)) (l := path)
  have hnone := not_sep_of_mem sep path
  rw [h,List.append_nil] at happend
  rw [happend] at hnone
  exact List.splitOnP_eq_singleton hnone

/-- A name of more parts. -/
theorem splitOn_more {b : α} {rest : List α} (h : path.dropWhile (· ≠ sep) = b::rest) :
    path.splitOn sep = path.takeWhile (· ≠ sep)::rest.splitOn sep := by
  have hb : b = sep := by
    have hhead := List.head?_dropWhile_not (· ≠ sep) path
    rw [h] at hhead
    simpa using hhead
  have happend := List.takeWhile_append_dropWhile (p := (· ≠ sep)) (l := path)
  rw [h,hb] at happend
  nth_rewrite 1 [← happend]
  exact List.splitOnP_append_cons_of_forall_mem (not_sep_of_mem sep path) _ (beq_self_eq_true _) _

theorem scan_eq (sep : α) (ok : List α → Bool) (path : List α) : scan sep ok path = (path.splitOn sep).all ok := by
  fun_induction scan sep ok path with
  | case1 path hdrop =>
    rw [splitOn_one hdrop,List.all_cons,List.all_nil,Bool.and_true]
  | case2 path b rest hdrop ih =>
    rw [splitOn_more hdrop,List.all_cons,ih]

/-- The parts of a name are those of its two sides. -/
theorem splitOn_append (sep : α) (front back : List α) : (front++sep::back).splitOn sep = front.splitOn sep++back.splitOn sep :=
  List.splitOnP_append_cons _ _ (beq_self_eq_true sep)

/-- No part has a separator. -/
theorem sep_notMem {part : List α} (h : part∈path.splitOn sep) : sep∉part := by
  induction hn : path.length using Nat.strongRecOn generalizing path with
  | ind n ih =>
    cases hdrop : path.dropWhile (· ≠ sep) with
    | nil =>
      rw [splitOn_one hdrop] at h
      rw [List.mem_singleton.1 h]
      intro hmem
      simpa using List.dropWhile_eq_nil_iff.1 hdrop sep hmem
    | cons b rest =>
      rw [splitOn_more hdrop] at h
      rcases List.mem_cons.1 h with rfl | h
      · intro hmem
        simpa using not_sep_of_mem sep path sep hmem
      · exact ih rest.length (hn ▸ dropWhile_length_lt hdrop) h rfl

/-! ## Places -/

/-- From a place through the parts of a name, with all places on the way. -/
def walk (sep : α) (step last : β → List α → Option β) (place : β) (path : List α) : List β × Option β :=
  match _h : path.dropWhile (· ≠ sep) with
  | [] => (((last place path).map fun p => [p]).getD [],last place path)
  | _::rest =>
    match step place (path.takeWhile (· ≠ sep)) with
    | none => ([],none)
    | some next => (next::(walk sep step last next rest).1,(walk sep step last next rest).2)
termination_by path.length
decreasing_by all_goals exact dropWhile_length_lt _h

section Walk
variable {step last go : β → List α → Option β} {place : β}

/-- Steps that are those of another way to go for every part of the name. -/
theorem walk_reaches (hstep : ∀ p c q,c∈path.splitOn sep → step p c = some q → go p c = some q)
    (hlast : ∀ p c q,c∈path.splitOn sep → last p c = some q → go p c = some q) :
    (∀ q∈(walk sep step last place path).1,Relation.ReflTransGen (fun p q => ∃ c∈path.splitOn sep,go p c = some q) place q) ∧
      ∀ q,(walk sep step last place path).2 = some q → (path.splitOn sep).foldlM go place = some q := by
  fun_induction walk sep step last place path with
  | case1 place path hdrop =>
    rw [splitOn_one hdrop] at hlast ⊢
    constructor
    · intro q hq
      cases hfound : last place path with
      | none =>
        rw [hfound] at hq
        cases hq
      | some p =>
        rw [hfound] at hq
        obtain rfl := List.mem_singleton.1 hq
        exact .single ⟨path,List.mem_singleton_self _,hlast _ _ _ (List.mem_singleton_self _) hfound⟩
    · intro q hq
      rw [List.foldlM_cons,hlast _ _ _ (List.mem_singleton_self _) hq]
      rfl
  | case2 place path b rest hdrop hnone => exact ⟨by simp,by simp⟩
  | case3 place path b rest hdrop next hnext ih =>
    rw [splitOn_more hdrop] at hstep hlast ⊢
    obtain ⟨hplaces,hresult⟩ := ih (fun p c q hc => hstep p c q (List.mem_cons_of_mem _ hc)) fun p c q hc => hlast p c q (List.mem_cons_of_mem _ hc)
    have hgo := hstep _ _ _ List.mem_cons_self hnext
    have hfirst : Relation.ReflTransGen (fun p q => ∃ c∈path.takeWhile (· ≠ sep)::rest.splitOn sep,go p c = some q) place next :=
      .single ⟨_,List.mem_cons_self,hgo⟩
    constructor
    · intro q hq
      rcases List.mem_cons.1 hq with rfl | hq
      · exact hfirst
      · refine hfirst.trans (Relation.ReflTransGen.mono ?_ next q (hplaces q hq))
        rintro p q ⟨c,hc,hpq⟩
        exact ⟨c,List.mem_cons_of_mem _ hc,hpq⟩
    · intro q hq
      rw [List.foldlM_cons,hgo]
      exact hresult q hq

end Walk

end Dataman.PathNames

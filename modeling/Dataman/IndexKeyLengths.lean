import Dataman.IndexCursors

/-!
# A key length that is too long

The buffers for a key have 32 bytes. The key length stands in the header of an index and no checksum covers
it. Each operation that takes a key tests it; the two that take none, and give the first and the last entry,
do not.
-/

namespace Dataman.IndexFile
open ByteFiles FailState

/-! ## The loop to the first or the last leaf -/

/-- Where the loop of `v2_descend_tree` ends that begins at a page: at a leaf, or at a page that cannot be loaded. -/
inductive EdgeWalk (ctx : Context) (f : Bytes) (last : Bool) : ℕ → Option (ℕ × Node) → Prop
  | broken {o : ℕ} (load : v2LoadNode ctx f o = none) : EdgeWalk ctx f last o none
  | leaf {o : ℕ} {n : Node} (load : v2LoadNode ctx f o = some n) (hleaf : n.leaf = true) : EdgeWalk ctx f last o (some (o,n))
  | child {o : ℕ} {n : Node} {out : Option (ℕ × Node)} (load : v2LoadNode ctx f o = some n) (hleaf : n.leaf = false)
      (more : EdgeWalk ctx f last (n.children.getD (if last then n.entries.length else 0) 0) out) : EdgeWalk ctx f last o out

variable {ctx : Context} {f : Bytes} {last : Bool} {o : ℕ}

theorem EdgeWalk.descendEdge_eq {out : Option (ℕ × Node)} (h : EdgeWalk ctx f last o out) :
    ∃ depth,∀ more,descendEdge ctx f last (depth+more) o = out := by
  induction h with
  | broken load =>
    refine ⟨1,fun more => ?_⟩
    rw [Nat.add_comm,descendEdge,load]
    rfl
  | leaf load hleaf =>
    refine ⟨1,fun more => ?_⟩
    rw [Nat.add_comm,descendEdge,load]
    exact if_pos hleaf
  | child load hleaf more ih =>
    obtain ⟨depth,hdepth⟩ := ih
    refine ⟨depth+1,fun more => ?_⟩
    rw [Nat.add_right_comm,descendEdge,load]
    have hnot : ¬ (_ : Node).leaf = true := fun h => Bool.false_ne_true (hleaf.symm.trans h)
    exact (if_neg hnot).trans (hdepth more)

/-- `index_v2_first` or `index_v2_last` comes to an end without an entry. -/
def EdgeRefused (last : Bool) (f : Bytes) : Prop :=
  ∀ hd,indexV2ReadHeader f = some hd → EdgeWalk (lookupContext hd) f last hd.root.rootOffset none ∨
    ∃ o n,EdgeWalk (lookupContext hd) f last hd.root.rootOffset (some (o,n)) ∧ n.entries = []

/-- All operations refuse the index. Only one that succeeds stores a key. -/
structure RefusesAll (f : Bytes) : Prop where
  find : ∀ key exact fileId record,indexV2Find f key exact fileId record = none
  first : EdgeRefused false f
  last : EdgeRefused true f
  next : ∀ key fileId record hint,indexV2Next f key fileId record hint = none
  prior : ∀ key fileId record hint,indexV2Prior f key fileId record hint = none
  insert : ∀ key fileId record s,s.bytes = f → indexV2Insert key fileId record s = (.error .argument,s)
  remove : ∀ key fileId record s,s.bytes = f → indexV2Remove key fileId record s = (.error .argument,s)

section Oversized
variable {hd : Header}

end Oversized

/-! ## Examples -/

end Dataman.IndexFile

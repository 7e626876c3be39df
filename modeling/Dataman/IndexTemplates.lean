import Dataman.IndexEnumeration
import Mathlib.Data.List.Pairwise

/-!
# Looking up a template

A template is a beginning of a key, in which a star stands for one byte. With a star all
leaves are walked; without one the search goes to the first entry that is not below the
template, which may stand in the subtree to the right of the leaf the descent ends in.
-/

namespace Dataman.IndexFile
open FixedWidthFields PageTree

variable {ctx : Context} {f : Bytes} {depth h : ℕ} {t : Summary Bytes}

/-! ## Strings with a common beginning -/

section Beginnings
variable {α : Type} [LinearOrder α]

theorem lt_of_take_lt {xs ys : List α} {n : ℕ} (h : xs.take n < ys.take n) : xs < ys := by
  induction n generalizing xs ys with
  | zero => simp at h
  | succ n ih =>
    cases ys with
    | nil => simp at h
    | cons y ys =>
      cases xs with
      | nil => exact List.nil_lt_cons y ys
      | cons x xs =>
        rw [List.take_succ_cons,List.take_succ_cons,List.cons_lt_cons_iff] at h
        rw [List.cons_lt_cons_iff]
        rcases h with h | ⟨rfl,h⟩
        · exact .inl h
        · exact .inr ⟨rfl,ih h⟩

theorem take_le_take {xs ys : List α} (h : xs ≤ ys) (n : ℕ) : xs.take n ≤ ys.take n :=
  not_lt.1 fun hlt => not_lt.2 h (lt_of_take_lt hlt)

/-- What stands between two strings with the same beginning has it too. -/
theorem take_between {xs ys zs : List α} {n : ℕ} (hxy : xs ≤ ys) (hyz : ys ≤ zs) (h : zs.take n = xs.take n) :
    ys.take n = xs.take n :=
  le_antisymm (h ▸ take_le_take hyz n) (take_le_take hxy n)

end Beginnings

/-- Zeros come first. -/
theorem zeros_le {xs ys : Bytes} (hlen : xs.length = ys.length) (hz : ∀ b∈xs,b = 0) : xs ≤ ys := by
  apply not_lt.1
  induction xs generalizing ys with
  | nil =>
    rw [List.length_eq_zero_iff.1 hlen.symm]
    exact lt_irrefl _
  | cons x xs ih =>
    cases ys with
    | nil => simp at hlen
    | cons y ys =>
      intro hlt
      rcases List.cons_lt_cons_iff.1 hlt with h | ⟨-,h⟩
      · rw [hz x List.mem_cons_self] at h
        exact absurd h (by simp)
      · exact ih (by simpa using hlen) (fun b hb => hz b (List.mem_cons_of_mem x hb)) h

theorem le_of_take_eq {xs ys : Bytes} {n : ℕ} (hlen : xs.length = ys.length) (htake : ys.take n = xs.take n)
    (hz : ∀ b∈xs.drop n,b = 0) : xs ≤ ys := by
  induction n generalizing xs ys with
  | zero => exact zeros_le hlen hz
  | succ n ih =>
    cases xs with
    | nil => exact zeros_le hlen (by simp)
    | cons x xs =>
      cases ys with
      | nil => simp at hlen
      | cons y ys =>
        simp only [List.take_succ_cons,List.cons.injEq] at htake
        have hle := ih (by simpa using hlen) htake.2 (by simpa using hz)
        rw [htake.1]
        apply not_lt.1
        intro hlt
        rcases List.cons_lt_cons_iff.1 hlt with h | ⟨-,h⟩
        · exact lt_irrefl _ h
        · exact not_lt.2 hle h

/-! ## Places -/

/-- The leaf and the position of an entry are determined by it. -/
theorem place_unique (ht : Tree ctx f h t) (hs : t.entries.Pairwise (· < ·)) {o o' i i' : ℕ} {es es' : List Bytes} {e : Bytes}
    (hl : LeafBelow (v2LoadNode ctx f) t.off o es) (hi : es[i]? = some e)
    (hl' : LeafBelow (v2LoadNode ctx f) t.off o' es') (hi' : es'[i']? = some e) : o = o' ∧ i = i' := by
  induction ht with
  | @leaf off ents load =>
    cases hl with
    | inner load' => exact absurd (load.symm.trans load') (by simp)
    | here load' =>
      cases hl' with
      | inner load'' => exact absurd (load.symm.trans load'') (by simp)
      | here load'' =>
        obtain rfl : ents = es := by simpa using load.symm.trans load'
        obtain rfl : ents = es' := by simpa using load.symm.trans load''
        exact ⟨rfl,index_unique hs hi hi'⟩
  | @node h off kids ne below occ load ih =>
    have hkid : ∀ {p : ℕ} {entries : List Bytes} {j : ℕ},LeafBelow (v2LoadNode ctx f) off p entries →
        entries[j]? = some e → ∃ k∈kids,LeafBelow (v2LoadNode ctx f) k.off p entries ∧ e∈k.entries := by
      intro p entries j hb hj
      cases hb with
      | here load' => exact absurd (load.symm.trans load') (by simp)
      | @inner _ c _ keys _ children load' child leaf =>
        have heq := load.symm.trans load'
        simp only [Option.some.injEq,Node.mk.injEq] at heq
        rw [← heq.2.2] at child
        obtain ⟨k,hk,rfl⟩ := List.mem_map.1 child
        obtain ⟨A,B,hAB⟩ := (below k hk).leaf_between leaf
        refine ⟨k,hk,leaf,?_⟩
        rw [hAB]
        simp [List.mem_of_getElem? hj]
    obtain ⟨k,hk,hleaf,hmem⟩ := hkid hl hi
    obtain ⟨k',hk',hleaf',hmem'⟩ := hkid hl' hi'
    have hs : (kids.flatMap Summary.entries).Pairwise (· < ·) := hs
    obtain rfl : k = k' := by
      by_contra hne
      have hnd : (kids.flatMap Summary.entries).Nodup := hs.imp fun hlt => hlt.ne
      have hdis := (List.nodup_flatMap.1 hnd).2
      have hsymm : Std.Symm (Function.onFun List.Disjoint (Summary.entries (α := Bytes))) := ⟨fun _ _ h => h.symm⟩
      exact hdis.forall hk hk' hne hmem hmem'
    obtain ⟨A,B,rfl⟩ := List.append_of_mem hk
    rw [List.flatMap_append,List.flatMap_cons] at hs
    exact ih k hk (List.pairwise_append.1 (List.pairwise_append.1 hs).2.1).1 hleaf hleaf'

/-! ## The walk over all leaves -/

/-- The outcome of looking for the first of the entries with a property. -/
inductive Sought (ctx : Context) (f : Bytes) (p : Bytes → Bool) (root : ℕ) (entries : List Bytes) : FindResult → Prop
  | missed (none : entries.find? p = none) : Sought ctx f p root entries .notFound
  | met {e : Bytes} {o i : ℕ} {es : List Bytes} (first : entries.find? p = some e)
      (leaf : LeafBelow (v2LoadNode ctx f) root o es) (place : es[i]? = some e) :
      Sought ctx f p root entries (.found (foundEntry ctx ⟨0,o,i⟩ e))

theorem getElem?_findIdx {α : Type} (p : α → Bool) (l : List α) : l[l.findIdx p]? = l.find? p := by
  induction l with
  | nil => rfl
  | cons a l ih =>
    rw [List.findIdx_cons,List.find?_cons]
    cases p a with
    | true => rfl
    | false => exact ih

theorem findIdx_congr {α : Type} {p q : α → Prop} [DecidablePred p] [DecidablePred q] {l : List α} (h : ∀ a∈l,p a ↔ q a) :
    l.findIdx (fun a => decide (p a)) = l.findIdx (fun a => decide (q a)) := by
  induction l with
  | nil => rfl
  | cons a l ih =>
    rw [List.findIdx_cons,List.findIdx_cons,ih fun b hb => h b (List.mem_cons_of_mem a hb),
      decide_eq_decide.2 (h a List.mem_cons_self)]

theorem firstResult_sought {p : Bytes → Bool} {root : ℕ} {find : ℕ → FindResult} {kids : List (Summary Bytes)}
    (hbelow : ∀ k∈kids,∀ o es,LeafBelow (v2LoadNode ctx f) k.off o es → LeafBelow (v2LoadNode ctx f) root o es)
    (hfind : ∀ k∈kids,Sought ctx f p k.off k.entries (find k.off)) :
    Sought ctx f p root (kids.flatMap Summary.entries) (firstResult find (kids.map Summary.off)) := by
  induction kids with
  | nil => exact .missed rfl
  | cons k ks ih =>
    have hrest := ih (fun x hx => hbelow x (List.mem_cons_of_mem k hx)) fun x hx => hfind x (List.mem_cons_of_mem k hx)
    have hk := hfind k List.mem_cons_self
    rw [List.map_cons,firstResult,List.flatMap_cons]
    generalize find k.off = result at hk
    cases hk with
    | missed hnone =>
      have happend : ((k.entries++ks.flatMap Summary.entries).find? p) = (ks.flatMap Summary.entries).find? p := by
        rw [List.find?_append,hnone,Option.none_or]
      generalize firstResult find (ks.map Summary.off) = result at hrest
      cases hrest with
      | missed h => exact .missed (happend.trans h)
      | met first leaf place => exact .met (happend.trans first) leaf place
    | met first leaf place =>
      refine .met ?_ (hbelow k List.mem_cons_self _ _ leaf) place
      rw [List.find?_append,first,Option.some_or]

theorem v2FindPatternNode_sought {pattern : Bytes} {length : ℕ} (hd : h < depth) (ht : Tree ctx f h t) :
    Sought ctx f (fun e => v2PatternMatches e pattern length) t.off t.entries
      (v2FindPatternNode ctx f pattern length depth t.off) := by
  induction ht generalizing depth with
  | @leaf o es load =>
    obtain ⟨depth,rfl⟩ : ∃ d,depth = d+1 := ⟨depth - 1,by omega⟩
    simp only [v2FindPatternNode,Summary.leaf,load,if_true,findInLeaf]
    have hget := getElem?_findIdx (fun e => v2PatternMatches e pattern length) es
    have hle : es.findIdx (fun e => v2PatternMatches e pattern length) ≤ es.length := List.findIdx_le_length
    generalize es.findIdx (fun e => v2PatternMatches e pattern length) = i at hget hle
    by_cases hi : i = es.length
    · rw [if_pos hi]
      exact .missed (by rw [← hget,hi,List.getElem?_eq_none (Nat.le_refl _)])
    · have hlt : i < es.length := by omega
      rw [if_neg hi,List.getD_eq_getElem?_getD,List.getElem?_eq_getElem hlt,Option.getD_some]
      exact .met (by rw [← hget,List.getElem?_eq_getElem hlt]) (.here load) (List.getElem?_eq_getElem hlt)
  | @node h o kids ne below occ load ih =>
    obtain ⟨depth,rfl⟩ : ∃ d,depth = d+1 := ⟨depth - 1,by omega⟩
    simp only [v2FindPatternNode,Summary.node,load,Bool.false_eq_true,if_false]
    apply firstResult_sought
    · exact fun k hk p es hleaf => .inner load (List.mem_map.2 ⟨k,hk,rfl⟩) hleaf
    · exact fun k hk => ih k hk (by omega)

/-! ## The lower bound -/

/-- A search that ends at the entry `e` returns it if it has the beginning of the target. -/
def Lands (ctx : Context) (f : Bytes) (target : Bytes) (keyLength root : ℕ) (e : Bytes) (r : Option Found) : Prop :=
  ∃ o i es,LeafBelow (v2LoadNode ctx f) root o es ∧ es[i]? = some e ∧
    r = if e.take keyLength = target.take keyLength then some (foundEntry ctx ⟨0,o,i⟩ e) else none

theorem Lands.inner {target e : Bytes} {keyLength c o : ℕ} {keys : List Bytes} {children : List ℕ} {r : Option Found}
    (h : Lands ctx f target keyLength c e r) (load : v2LoadNode ctx f o = some ⟨false,keys,children⟩) (child : c∈children) :
    Lands ctx f target keyLength o e r := by
  obtain ⟨p,i,es,hleaf,hi,hr⟩ := h
  exact ⟨p,i,es,.inner load child hleaf,hi,hr⟩

section LowerBound
variable {target : Bytes} (htarget : target.length = ctx.entrySize) (keyLength : ℕ)
include htarget

/-- The leaf in which the descent ends. -/
theorem v2FindEntry_leaf {o next : ℕ} {es : List Bytes} (load : v2LoadNode ctx f o = some ⟨true,es,[]⟩) :
    (es.find? (fun x => decide (target ≤ x)) = none →
      v2FindEntry ctx f target false keyLength (depth+1) o next =
        if next≠0 then v2FindEntry ctx f target false keyLength depth next 0 else none) ∧
    ∀ e,es.find? (fun x => decide (target ≤ x)) = some e →
      Lands ctx f target keyLength o e (v2FindEntry ctx f target false keyLength (depth+1) o next) := by
  have hlen : ∀ x∈es,target.length = x.length := fun x hx => htarget.trans ((nodeOk_of_load load).entry_length x hx).symm
  have hpos : es.findIdx (fun x => decide (memcmp target x = .lt ∨ memcmp target x = .eq)) =
      es.findIdx (fun x => decide (target ≤ x)) := by
    apply findIdx_congr
    intro x hx
    rw [memcmp_eq_lt_iff (hlen x hx),memcmp_eq_eq_iff (hlen x hx),← le_iff_lt_or_eq]
  have hget := getElem?_findIdx (fun x => decide (target ≤ x)) es
  have hle : es.findIdx (fun x => decide (target ≤ x)) ≤ es.length := List.findIdx_le_length
  simp only [v2FindEntry,load,Option.bind_eq_bind,Option.bind_some,true_and,if_true,hpos]
  generalize es.findIdx (fun x => decide (target ≤ x)) = i at hget hle
  constructor
  · intro hnone
    rw [hnone,List.getElem?_eq_none_iff] at hget
    rw [if_pos (by omega)]
  · intro e he
    rw [he] at hget
    have hlt := (List.getElem?_eq_some_iff.1 hget).1
    have hmem := hlen e (List.mem_of_getElem? hget)
    have htake : (target.take keyLength).length = (e.take keyLength).length := by simp [hmem]
    refine ⟨o,i,es,.here load,hget,?_⟩
    rw [if_neg (by omega),List.getD_eq_getElem?_getD,hget,Option.getD_some]
    simp only [Bool.false_eq_true,false_and,not_false_eq_true,true_and,false_or,not_not,guard_eq_ite,
      memcmp_eq_eq_iff htake,ne_eq,eq_comm]
    split
    · rfl
    · rfl

omit htarget in
/-- One level of the descent: the child to enter, and the subtree that is kept in mind. -/
theorem v2FindEntry_node {o next : ℕ} {kids A B : List (Summary Bytes)} {k : Summary Bytes}
    (load : v2LoadNode ctx f o = some ⟨false,seps kids,kids.map Summary.off⟩) (hrt : Routed kids target A k B) :
    v2FindEntry ctx f target false keyLength (depth+1) o next =
      v2FindEntry ctx f target false keyLength depth k.off ((B.head?.map Summary.off).getD next) := by
  have hpos : (seps kids).findIdx (fun x => decide (memcmp target x = .lt)) = A.length := hrt.position
  have hcount : (seps kids).length = A.length+B.length := by
    rw [length_seps,hrt.split]
    simp
  have hnext : (if A.length < (seps kids).length then (kids.map Summary.off).getD (A.length+1) 0 else next) =
      (B.head?.map Summary.off).getD next := by
    cases B with
    | nil => simp [hcount]
    | cons b B =>
      rw [if_pos (by rw [hcount,List.length_cons]; omega),hrt.split]
      simp
  simp only [v2FindEntry,load,Option.bind_eq_bind,Option.bind_some,Bool.false_eq_true,false_and,or_false,if_false,hpos,
    Bool.not_false,true_and,hnext,hrt.child]

theorem tree_routed {o : ℕ} {kids : List (Summary Bytes)} (ne : kids≠[]) (below : ∀ k∈kids,Tree ctx f h k)
    (occ : ∀ k∈kids,minKeys ≤ k.count ∧ k.count ≤ maxKeys)
    (load : v2LoadNode ctx f o = some ⟨false,seps kids,kids.map Summary.off⟩)
    (hs : (kids.flatMap Summary.entries).Pairwise (· < ·)) : ∃ A k B,Routed kids target A k B := by
  have hent : ∀ k∈kids,k.entries≠[] := fun k hk =>
    (below k hk).entries_ne_nil (by decide) (le_trans (by decide) (occ k hk).1)
  exact routed ne hent hs fun x hx => ((nodeOk_of_load load).entry_length x hx).trans htarget.symm

/-- Below the target there is nothing to find: the search goes on with the subtree kept in mind. -/
theorem v2FindEntry_below {next : ℕ} (hd : h < depth) (ht : Tree ctx f h t) (hs : t.entries.Pairwise (· < ·))
    (hall : ∀ x∈t.entries,x < target) :
    v2FindEntry ctx f target false keyLength depth t.off next =
      if next≠0 then v2FindEntry ctx f target false keyLength (depth - (h+1)) next 0 else none := by
  induction ht generalizing depth with
  | @leaf o es load =>
    obtain ⟨depth,rfl⟩ : ∃ d,depth = d+1 := ⟨depth - 1,by omega⟩
    apply (v2FindEntry_leaf htarget keyLength load).1
    rw [List.find?_eq_none]
    intro x hx
    simpa using hall x hx
  | @node h o kids ne below occ load ih =>
    obtain ⟨depth,rfl⟩ : ∃ d,depth = d+1 := ⟨depth - 1,by omega⟩
    obtain ⟨A,k,B,hrt⟩ := tree_routed htarget ne below occ load hs
    have hk : k∈kids := by simp [hrt.split]
    have hB : B = [] := by
      cases B with
      | nil => rfl
      | cons b B =>
        have hb : b∈kids := by simp [hrt.split]
        have hmem := first_mem ((below b hb).entries_ne_nil (by decide) (le_trans (by decide) (occ b hb).1))
        have hlt := hall b.first (List.mem_flatMap.2 ⟨b,hb,hmem⟩)
        exact absurd hlt (lt_asymm (hrt.right b.first (by simp [hmem])))
    have hchild := @ih k hk depth (by omega) hrt.sorted fun x hx => hall x (List.mem_flatMap.2 ⟨k,hk,hx⟩)
    change v2FindEntry ctx f target false keyLength (depth+1) o next = _
    rw [v2FindEntry_node keyLength load hrt,hB,List.head?_nil,Option.map_none,Option.getD_none,hchild,
      show depth - (h+1) = depth+1 - (h+1+1) by omega]

/-- In a tree above the target the search ends at the first entry. -/
theorem v2FindEntry_above {next : ℕ} (hd : h < depth) (ht : Tree ctx f h t) (hs : t.entries.Pairwise (· < ·))
    (hne : t.entries≠[]) (hall : ∀ x∈t.entries,target < x) :
    Lands ctx f target keyLength t.off t.first (v2FindEntry ctx f target false keyLength depth t.off next) := by
  induction ht generalizing depth next with
  | @leaf o es load =>
    obtain ⟨depth,rfl⟩ : ∃ d,depth = d+1 := ⟨depth - 1,by omega⟩
    apply (v2FindEntry_leaf htarget keyLength load).2
    obtain ⟨x,xs,hx⟩ := List.exists_cons_of_ne_nil (show es≠[] from hne)
    have hlt : target < x := hall x (by simp [Summary.leaf,hx])
    simp [Summary.first,Summary.leaf,hx,hlt.le]
  | @node h o kids ne below occ load ih =>
    obtain ⟨depth,rfl⟩ : ∃ d,depth = d+1 := ⟨depth - 1,by omega⟩
    obtain ⟨A,k,B,hrt⟩ := tree_routed htarget ne below occ load hs
    have hk : k∈kids := by simp [hrt.split]
    have hent : ∀ x∈kids,x.entries≠[] := fun x hx =>
      (below x hx).entries_ne_nil (by decide) (le_trans (by decide) (occ x hx).1)
    have hA : A = [] := by
      cases A with
      | nil => rfl
      | cons a A =>
        have ha : a∈kids := by simp [hrt.split]
        have hmem := first_mem (hent a ha)
        have hlt := hall a.first (List.mem_flatMap.2 ⟨a,ha,hmem⟩)
        exact absurd hlt (lt_asymm (hrt.left a.first (by simp [hmem])))
    have hfirst : (Summary.node o kids).first = k.first := by
      obtain ⟨x,xs,hx⟩ := List.exists_cons_of_ne_nil (hent k hk)
      simp [Summary.first,Summary.node,hrt.split,hA,hx]
    have hchild := @ih k hk depth ((B.head?.map Summary.off).getD next) (by omega) hrt.sorted (hent k hk)
      fun x hx => hall x (List.mem_flatMap.2 ⟨k,hk,hx⟩)
    rw [hfirst]
    change Lands ctx f target keyLength o k.first (v2FindEntry ctx f target false keyLength (depth+1) o next)
    rw [v2FindEntry_node keyLength load hrt]
    exact hchild.inner load (List.mem_map.2 ⟨k,hk,rfl⟩)

/-- The search ends at the first entry that is not below the target. The bound on the depth is for two
descents. -/
theorem v2FindEntry_lands {next : ℕ} {e : Bytes} (hd : 2*h+1 < depth) (ht : Tree ctx f h t)
    (hs : t.entries.Pairwise (· < ·)) (hpages : ∀ p∈t.pages,p≠0)
    (he : t.entries.find? (fun x => decide (target ≤ x)) = some e) :
    Lands ctx f target keyLength t.off e (v2FindEntry ctx f target false keyLength depth t.off next) := by
  induction ht generalizing depth next with
  | @leaf o es load =>
    obtain ⟨depth,rfl⟩ : ∃ d,depth = d+1 := ⟨depth - 1,by omega⟩
    exact (v2FindEntry_leaf htarget keyLength load).2 e he
  | @node h o kids ne below occ load ih =>
    obtain ⟨depth,rfl⟩ : ∃ d,depth = d+1 := ⟨depth - 1,by omega⟩
    obtain ⟨A,k,B,hrt⟩ := tree_routed htarget ne below occ load hs
    have hk : k∈kids := by simp [hrt.split]
    have hA : (A.flatMap Summary.entries).find? (fun x => decide (target ≤ x)) = none := by
      rw [List.find?_eq_none]
      intro x hx
      simpa using hrt.left x hx
    have hsplit : (kids.flatMap Summary.entries).find? (fun x => decide (target ≤ x)) = some e := he
    rw [hrt.flatMap_entries,List.find?_append,List.find?_append,hA,Option.none_or] at hsplit
    change Lands ctx f target keyLength o e (v2FindEntry ctx f target false keyLength (depth+1) o next)
    rw [v2FindEntry_node keyLength load hrt]
    cases hfind : k.entries.find? (fun x => decide (target ≤ x)) with
    | some x =>
      rw [hfind,Option.some_or,Option.some.injEq] at hsplit
      subst hsplit
      have hkpages : ∀ p∈k.pages,p≠0 :=
        fun p hp => hpages p (List.mem_cons_of_mem _ (List.mem_flatMap.2 ⟨k,hk,hp⟩))
      exact (ih k hk (by omega) hrt.sorted hkpages hfind).inner load (List.mem_map.2 ⟨k,hk,rfl⟩)
    | none =>
      -- the lower bound is the first entry of the next subtree
      rw [hfind,Option.none_or] at hsplit
      have hbelow : ∀ x∈k.entries,x < target := by
        intro x hx
        simpa using List.find?_eq_none.1 hfind x hx
      cases B with
      | nil => simp at hsplit
      | cons b B =>
        have hb : b∈kids := by simp [hrt.split]
        have hbne : b.entries≠[] := (below b hb).entries_ne_nil (by decide) (le_trans (by decide) (occ b hb).1)
        have habove : ∀ x∈b.entries,target < x := fun x hx => hrt.right x (by simp [hx])
        obtain rfl : b.first = e := by
          obtain ⟨x,xs,hx⟩ := List.exists_cons_of_ne_nil hbne
          have hle : target ≤ x := (habove x (by simp [hx])).le
          simpa [Summary.first,hx,hle] using hsplit
        have hbs : b.entries.Pairwise (· < ·) := by
          have hs' : (kids.flatMap Summary.entries).Pairwise (· < ·) := hs
          rw [hrt.split,List.flatMap_append,List.flatMap_cons,List.flatMap_cons] at hs'
          exact (List.pairwise_append.1 (List.pairwise_append.1 (List.pairwise_append.1 hs').2.1).2.1).1
        have hoff : b.off≠0 :=
          hpages b.off (List.mem_cons_of_mem _ (List.mem_flatMap.2 ⟨b,hb,(below b hb).off_mem_pages⟩))
        rw [v2FindEntry_below htarget keyLength (by omega) (below k hk) hrt.sorted hbelow,List.head?_cons,Option.map_some,
          Option.getD_some,if_pos hoff]
        exact (v2FindEntry_above htarget keyLength (by omega) (below b hb) hbs hbne habove).inner load
          (List.mem_map.2 ⟨b,hb,rfl⟩)

end LowerBound

/-! ## Templates -/

/-- A key buffer that is zero after its first zero byte. -/
structure Template (keylen : ℕ) (key : Bytes) : Prop where
  length : key.length = keylen
  padded : ∀ i j,i ≤ j → key.getD i 0 = 0 → key.getD j 0 = 0

/-- The `strnlen` of a key. -/
def templateLength (key : Bytes) : ℕ := key.findIdx (· = 0)

/-- At each position the template has a star and the entry a byte other than zero, or the bytes are equal. -/
def Matches (key e : Bytes) : Prop :=
  ∀ i < templateLength key,key.getD i 0 = 0x2a ∧ e.getD i 0≠0 ∨ e.getD i 0 = key.getD i 0

instance (key e : Bytes) : Decidable (Matches key e) :=
  inferInstanceAs (Decidable (∀ i < templateLength key,_))

theorem templateLength_le (key : Bytes) : templateLength key ≤ key.length := List.findIdx_le_length

/-- The search target of a template begins with it and goes on with zeros. -/
theorem getD_composite {key : Bytes} {i : ℕ} (hi : i < key.length) :
    (composite key.length key 0 0).getD i 0 = key.getD i 0 := by
  rw [composite,List.take_length,List.append_assoc,List.getD_eq_getElem?_getD,List.getElem?_append_left hi,
    List.getD_eq_getElem?_getD]

theorem patternMatches_iff {key e : Bytes} :
    v2PatternMatches e (composite key.length key 0 0) (templateLength key) = true ↔ Matches key e := by
  have hle := templateLength_le key
  rw [v2PatternMatches,List.all_eq_true]
  constructor
  · intro h i hi
    have hat := h i (List.mem_range.2 hi)
    rw [getD_composite (by omega)] at hat
    split at hat
    · rename_i hstar
      exact .inl ⟨hstar,by simpa using hat⟩
    · exact .inr (by simpa using hat)
  · intro h i hi
    have hi := List.mem_range.1 hi
    rw [getD_composite (by omega)]
    split
    · rename_i hstar
      rcases h i hi with ⟨-,hne⟩ | heq
      · simpa using hne
      · rw [decide_eq_true_iff,heq,hstar]
        decide
    · rename_i hstar
      rcases h i hi with ⟨hstar',-⟩ | heq
      · exact absurd hstar' hstar
      · simpa using heq

/-- Without a star a match is a common beginning. -/
theorem matches_iff_take {key e : Bytes} (hlen : key.length ≤ e.length) (hstar : (0x2a : UInt8)∉key.take (templateLength key)) :
    Matches key e ↔ e.take (templateLength key) = (composite key.length key 0 0).take (templateLength key) := by
  have hle := templateLength_le key
  have hlenc : (composite key.length key 0 0).length = key.length+2+8 := length_composite 0 0 (Nat.le_refl _)
  constructor
  · intro h
    apply List.ext_getElem?
    intro i
    by_cases hi : i < templateLength key
    · have hat : e.getD i 0 = key.getD i 0 := by
        rcases h i hi with ⟨hs,-⟩ | heq
        · have hmem : key.getD i 0∈key.take (templateLength key) := by
            rw [List.getD_eq_getElem?_getD,List.getElem?_eq_getElem (by omega),Option.getD_some]
            exact List.mem_take_iff_getElem.2 ⟨i,by omega,rfl⟩
          rw [hs] at hmem
          exact absurd hmem hstar
        · exact heq
      rw [← @getD_composite key i (by omega)] at hat
      rw [List.getElem?_take_of_lt hi,List.getElem?_take_of_lt hi,List.getElem?_eq_getElem (by omega),
        List.getElem?_eq_getElem (by omega)]
      rw [List.getD_eq_getElem?_getD,List.getD_eq_getElem?_getD,List.getElem?_eq_getElem (by omega),
        List.getElem?_eq_getElem (by omega),Option.getD_some,Option.getD_some] at hat
      rw [hat]
    · rw [List.getElem?_eq_none (by simp; omega),List.getElem?_eq_none (by simp; omega)]
  · intro h i hi
    right
    rw [← @getD_composite key i (by omega),List.getD_eq_getElem?_getD,List.getD_eq_getElem?_getD,← List.getElem?_take_of_lt hi,h,
      List.getElem?_take_of_lt hi]

/-- What follows the template in the target is zero. -/
theorem Template.drop_zero {keylen : ℕ} {key : Bytes} (hkey : Template keylen key) :
    ∀ b∈(composite key.length key 0 0).drop (templateLength key),b = 0 := by
  intro b hb
  obtain ⟨i,hi,rfl⟩ := List.getElem_of_mem hb
  rw [List.getElem_drop]
  have hlen : (composite key.length key 0 0).length = key.length+2+8 := length_composite 0 0 (Nat.le_refl _)
  by_cases hin : templateLength key+i < key.length
  · have hzero : key.getD (templateLength key) 0 = 0 := by
      have hlt : templateLength key < key.length := by omega
      have hat : decide (key[templateLength key] = 0) = true := List.findIdx_getElem (p := fun b => decide (b = 0)) (w := hlt)
      rw [List.getD_eq_getElem?_getD,List.getElem?_eq_getElem hlt,Option.getD_some]
      simpa using hat
    have hat := hkey.padded _ (templateLength key+i) (by omega) hzero
    rw [← getD_composite hin,List.getD_eq_getElem?_getD,List.getElem?_eq_getElem (by omega),Option.getD_some] at hat
    exact hat
  · have hzeros : composite key.length key 0 0 = key++List.replicate 10 0 := by
      rw [composite,List.take_length,List.append_assoc]
      rfl
    simp only [hzeros]
    rw [List.getElem_append_right (by omega),List.getElem_replicate]

/-! ## Lookups -/

theorem Sought.unique {p : Bytes → Bool} {result result' : FindResult} (ht : Tree ctx f h t)
    (hs : t.entries.Pairwise (· < ·)) (hr : Sought ctx f p t.off t.entries result)
    (hr' : Sought ctx f p t.off t.entries result') : result = result' := by
  cases hr with
  | missed hnone =>
    cases hr' with
    | missed _ => rfl
    | met first _ _ => exact absurd (hnone.symm.trans first) (by simp)
  | met first leaf place =>
    cases hr' with
    | missed hnone => exact absurd (hnone.symm.trans first) (by simp)
    | met first' leaf' place' =>
      obtain rfl := Option.some.inj (first.symm.trans first')
      obtain ⟨rfl,rfl⟩ := place_unique ht hs leaf place leaf' place'
      rfl

section Lookup
variable {key : Bytes} (hkey : Template ctx.keylen key)
include hkey

theorem Template.target_length : (composite key.length key 0 0).length = ctx.entrySize := by
  rw [length_composite 0 0 (Nat.le_refl _),hkey.length,Context.entrySize]

/-- The lower bound is the first match, or there is none. -/
theorem Template.find_lowerBound (hstar : (0x2a : UInt8)∉key.take (templateLength key)) {entries : List Bytes}
    (hs : entries.Pairwise (· < ·)) (hlen : ∀ x∈entries,x.length = ctx.entrySize) :
    entries.find? (fun e => decide (Matches key e)) =
      (entries.find? fun x => decide (composite key.length key 0 0 ≤ x)).bind fun e =>
        if e.take (templateLength key) = (composite key.length key 0 0).take (templateLength key) then some e else none := by
  have htarget := hkey.target_length
  have hmatch : ∀ x∈entries,Matches key x ↔
      x.take (templateLength key) = (composite key.length key 0 0).take (templateLength key) := by
    intro x hx
    apply matches_iff_take _ hstar
    have := hlen x hx
    rw [hkey.length,this,Context.entrySize]
    omega
  have hle : ∀ x∈entries,Matches key x → composite key.length key 0 0 ≤ x := fun x hx hm =>
    le_of_take_eq (htarget.trans (hlen x hx).symm) ((hmatch x hx).1 hm) hkey.drop_zero
  induction entries with
  | nil => rfl
  | cons x xs ih =>
    have ih := ih (List.pairwise_cons.1 hs).2 (fun y hy => hlen y (List.mem_cons_of_mem x hy))
      (fun y hy => hmatch y (List.mem_cons_of_mem x hy)) fun y hy => hle y (List.mem_cons_of_mem x hy)
    by_cases hx : composite key.length key 0 0 ≤ x
    · rw [List.find?_cons_of_pos (p := fun y => decide (composite key.length key 0 0 ≤ y)) (by simpa using hx),Option.bind_some]
      by_cases htake : x.take (templateLength key) = (composite key.length key 0 0).take (templateLength key)
      · rw [if_pos htake,List.find?_cons_of_pos (by simpa using (hmatch x List.mem_cons_self).2 htake)]
      · rw [if_neg htake,List.find?_eq_none]
        intro y hy
        rw [decide_eq_true_iff,hmatch y hy]
        rcases List.mem_cons.1 hy with rfl | hy'
        · exact htake
        · intro hytake
          exact htake (take_between hx ((List.pairwise_cons.1 hs).1 y hy').le hytake)
    · have hnot : ¬ Matches key x := fun hm => hx (hle x List.mem_cons_self hm)
      rw [List.find?_cons_of_neg (by simpa using hnot),ih,
        List.find?_cons_of_neg (p := fun y => decide (composite key.length key 0 0 ≤ y)) (by simpa using hx)]

theorem Template.findPattern_sought (hd : h < depth) (ht : Tree ctx f h t) :
    Sought ctx f (fun e => decide (Matches key e)) t.off t.entries
      (v2FindPatternNode ctx f (composite ctx.keylen key 0 0) (templateLength key) depth t.off) := by
  have hfun : (fun e => v2PatternMatches e (composite key.length key 0 0) (templateLength key)) =
      fun e => decide (Matches key e) := by
    funext e
    rw [Bool.eq_iff_iff,patternMatches_iff,decide_eq_true_iff]
  rw [← hkey.length,← hfun]
  exact v2FindPatternNode_sought hd ht

theorem Template.findEntry_sought (hstar : (0x2a : UInt8)∉key.take (templateLength key)) (hd : 2*h+1 < depth)
    (ht : Tree ctx f h t) (hs : t.entries.Pairwise (· < ·)) (hpages : ∀ p∈t.pages,p≠0) :
    ∃ result,Sought ctx f (fun e => decide (Matches key e)) t.off t.entries result ∧
      v2FindEntry ctx f (composite ctx.keylen key 0 0) false (templateLength key) depth t.off 0 = result.found? := by
  have htarget := hkey.target_length
  have hbound := hkey.find_lowerBound hstar hs ht.entry_length
  rw [← hkey.length]
  cases he : t.entries.find? (fun x => decide (composite key.length key 0 0 ≤ x)) with
  | none =>
    have hall : ∀ x∈t.entries,x < composite key.length key 0 0 := by
      intro x hx
      simpa using List.find?_eq_none.1 he x hx
    rw [he,Option.bind_none] at hbound
    refine ⟨.notFound,.missed hbound,?_⟩
    rw [v2FindEntry_below htarget (templateLength key) (by omega) ht hs hall,if_neg (by simp)]
    rfl
  | some e =>
    rw [he,Option.bind_some] at hbound
    obtain ⟨o,i,es,hleaf,hi,hrun⟩ := @v2FindEntry_lands ctx f depth h t _ htarget (templateLength key) 0 e hd ht hs hpages he
    rw [hrun]
    split at hbound
    · rename_i htake
      exact ⟨_,.met hbound hleaf hi,if_pos htake⟩
    · rename_i htake
      exact ⟨.notFound,.missed hbound,if_neg htake⟩

end Lookup

/-- A finished index as a lookup sees it. -/
structure Searchable (f : Bytes) (hd : Header) (h : ℕ) (t : Summary Bytes) : Prop where
  header : indexV2ReadHeader f = some hd
  keylen_le : hd.keylen ≤ 32
  off : t.off = hd.root.rootOffset
  tree : Tree (lookupContext hd) f h t
  sorted : t.entries.Pairwise (· < ·)
  height : 2*h+1 < f.length
  pages : ∀ p∈t.pages,p≠0
  walk : walk f = some t.entries

theorem Index.searchable {first : ℕ} {hd : Header} (hi : Index ctx first f) (hh : indexV2ReadHeader f = some hd) :
    ∃ h t,Searchable f hd h t := by
  obtain ⟨hkl,-,h,t,hcur⟩ := hi.current hh
  have hl := hi.toLayout
  have hcongr := v2LoadNode_congr (show ctx.keylen = (lookupContext hd).keylen from hkl.symm) f
  have hbounds := pageSize_bounds hl.keylen_le
  rw [← hl.pageSize_eq] at hbounds
  refine ⟨h,t,hh,hkl ▸ hl.keylen_le,hcur.off,?_,hcur.rooted.sorted,?_,?_,hcur.walk hi⟩
  · rw [Tree,← hcongr]
    exact hcur.rooted.tree
  · have hlt := hcur.rooted.height_lt hl
    have hmul : (h+1)*ctx.pageSize ≤ f.length - first := (Nat.le_div_iff_mul_le hl.pageSize_pos).1 (Nat.succ_le_of_lt hlt)
    have h120 : (h+1)*120 ≤ (h+1)*ctx.pageSize := Nat.mul_le_mul_left _ (by omega)
    omega
  · intro p hp
    have hge := (hcur.rooted.pages p hp).2.1
    have hfirst := hl.first_ge
    omega

/-- Both ways of searching for a template give its first match. -/
theorem Searchable.findTarget_sought {hd : Header} (hx : Searchable f hd h t) {key : Bytes} (hkey : Template hd.keylen key) :
    ∃ result,Sought (lookupContext hd) f (fun e => decide (Matches key e)) t.off t.entries result ∧
      findTarget (lookupContext hd) f hd.root.rootOffset (composite hd.keylen key 0 0) false (templateLength key) =
        result.found? := by
  have hheight := hx.height
  have htake : (composite hd.keylen key 0 0).take (templateLength key) = key.take (templateLength key) := by
    rw [composite,← hkey.length,List.take_length,List.append_assoc,List.take_append_of_le_length (templateLength_le key)]
  have hkey' : Template (lookupContext hd).keylen key := hkey
  rw [findTarget,htake,← hx.off]
  by_cases hstar : (0x2a : UInt8)∈key.take (templateLength key)
  · rw [if_pos ⟨rfl,hstar⟩]
    exact ⟨_,hkey'.findPattern_sought (by omega) hx.tree,rfl⟩
  · rw [if_neg fun h => hstar h.2]
    exact hkey'.findEntry_sought hstar (by omega) hx.tree hx.sorted hx.pages

theorem templateLength_composite {keylen : ℕ} {key : Bytes} (hkey : Template keylen key) :
    ((composite keylen key 0 0).take keylen).findIdx (· = 0) = templateLength key := by
  rw [composite,← hkey.length,List.take_length,List.append_assoc,List.take_left' rfl]
  rfl

theorem Searchable.find_sought {hd : Header} (hx : Searchable f hd h t) {key : Bytes} (hkey : Template hd.keylen key)
    (fileId record : ℕ) :
    ∃ result,Sought (lookupContext hd) f (fun e => decide (Matches key e)) t.off t.entries result ∧
      indexV2Find f key false fileId record = result.found?.map fun found =>
        { found with cursor := { found.cursor with generation := hd.root.generation } } := by
  obtain ⟨result,hsought,hfind⟩ := hx.findTarget_sought hkey
  refine ⟨result,hsought,?_⟩
  simp only [indexV2Find,hx.header,Option.bind_eq_bind,Option.bind_some,guard_eq_ite,hx.keylen_le,if_true,
    Bool.false_eq_true,if_false,false_imp_iff,templateLength_composite hkey,hfind,Option.pure_def]
  cases result.found? <;> rfl

/-- A template lookup returns the first entry that matches, with its place, if there is one; and without a
star the search for the lower bound and the walk over all leaves agree. -/
theorem template_lookup {first : ℕ} {hd : Header} {L : List Bytes} (hi : Index ctx first f)
    (hh : indexV2ReadHeader f = some hd) (hw : walk f = some L) {key : Bytes} (hkey : Template hd.keylen key)
    (fileId record : ℕ) :
    L.Pairwise (· < ·) ∧ ((indexV2Find f key false fileId record).isSome ↔ ∃ e∈L,Matches key e) ∧
    (∀ x,indexV2Find f key false fileId record = some x → ∃ A e B,L = A++e::B ∧ Matches key e ∧
      (∀ e'∈A,¬ Matches key e') ∧ ∃ cursor,x = foundEntry (lookupContext hd) cursor e ∧ x.entry hd.keylen = e ∧
      Names f hd cursor e) ∧
    ((0x2a : UInt8)∉key.take (templateLength key) →
      v2FindEntry (lookupContext hd) f (composite hd.keylen key 0 0) false (templateLength key) (f.length+1)
          hd.root.rootOffset 0 =
        (v2FindPatternNode (lookupContext hd) f (composite hd.keylen key 0 0) (templateLength key) (f.length+1)
          hd.root.rootOffset).found?) := by
  obtain ⟨h,t,hx⟩ := hi.searchable hh
  obtain rfl : L = t.entries := Option.some.inj (hw.symm.trans hx.walk)
  obtain ⟨result,hsought,hrun⟩ := hx.find_sought hkey fileId record
  have hheight := hx.height
  have hkey' : Template (lookupContext hd).keylen key := hkey
  refine ⟨hx.sorted,?_,?_,?_⟩
  · rw [hrun,Option.isSome_map]
    cases hsought with
    | missed hnone =>
      simp only [FindResult.found?,Option.isSome_none,Bool.false_eq_true,false_iff]
      rintro ⟨e,he,hm⟩
      simpa [hm] using List.find?_eq_none.1 hnone e he
    | @met e o i es hfirst leaf place =>
      simp only [FindResult.found?,Option.isSome_some,true_iff]
      exact ⟨e,List.mem_of_find?_eq_some hfirst,by simpa using List.find?_some hfirst⟩
  · intro x hsome
    rw [hrun] at hsome
    cases hsought with
    | missed hnone => simp [FindResult.found?] at hsome
    | @met e o i es hfirst leaf place =>
      obtain rfl := Option.some.inj hsome
      obtain ⟨hm,A,B,hsplit,hA⟩ := List.find?_eq_some_iff_append.1 hfirst
      refine ⟨A,e,B,hsplit,by simpa using hm,fun e' he' => by simpa using hA e' he',
        ⟨hd.root.generation,o,i⟩,rfl,?_,rfl,es,hx.off ▸ leaf,place⟩
      exact entry_foundEntry (hx.tree.entry_length e (List.mem_of_find?_eq_some hfirst)) ⟨hd.root.generation,o,i⟩
  · intro hstar
    obtain ⟨result',hsought',hentry⟩ := hkey'.findEntry_sought hstar (show 2*h+1 < f.length+1 by omega) hx.tree hx.sorted
      hx.pages
    have hpattern := hkey'.findPattern_sought (show h < f.length+1 by omega) hx.tree
    rw [← hx.off]
    exact hentry.trans (congrArg FindResult.found? (hsought'.unique hx.tree hx.sorted hpattern))

/-- `a*` finds the first of three entries. -/
theorem template_lookup_sample : ∃ hd L,indexV2ReadHeader staleSample = some hd ∧ walk staleSample = some L ∧
    Template hd.keylen [0x61,0x2a] ∧ (∃ e∈L,Matches [0x61,0x2a] e) ∧
    (indexV2Find staleSample [0x61,0x2a] false 0 0).isSome := by
  obtain ⟨hd,hh⟩ := staleSample_header
  have hcount : [[(0x41 : UInt8)]].length < 2 ^ 16 := by decide
  obtain ⟨hkl,-⟩ := navigable_of_reachable hcount staleSample_reachable hh
  have hkey : Template hd.keylen [0x61,0x2a] := by
    refine ⟨hkl.symm,?_⟩
    intro i j hij hzero
    have hi : 2 ≤ i := by
      by_contra hlt
      obtain rfl | rfl : i = 0 ∨ i = 1 := by omega
      · simp at hzero
      · simp at hzero
    rw [List.getD_eq_getElem?_getD,List.getElem?_eq_none (by simp; omega),Option.getD_none]
  have hmatch : ∃ e∈[sampleEntry [0x61,0x61],sampleEntry [0x61,0x62],sampleEntry [0x61,0x63]],Matches [0x61,0x2a] e :=
    ⟨sampleEntry [0x61,0x61],List.mem_cons_self,by decide⟩
  refine ⟨hd,_,hh,staleSample_walk,hkey,hmatch,?_⟩
  cases good_of_reachable hcount staleSample_reachable with
  | building hb => simp [readHeader_building hb.fixed] at hh
  | index hi => exact (template_lookup hi hh staleSample_walk hkey 0 0).2.1.2 hmatch

end Dataman.IndexFile

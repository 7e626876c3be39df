import Dataman.IndexCursors
import Dataman.IndexSearch
import Dataman.PageTreeLeaves

/-!
# Neighbours in a stored tree

The search for a neighbour descends to the leaf of an entry and, at the edge of the
leaf, climbs its path to the first node with a further child. What it finds is the
neighbour of the entry in the list of all entries.
-/

namespace Dataman.IndexFile
open FixedWidthFields PageTree

variable {ctx : Context} {f : Bytes} {h depth : ℕ} {t : Summary Bytes} {forward : Bool}

/-! ## Edges -/

variable {kids : List (Summary Bytes)}

theorem kid_entries_ne_nil (below : ∀ k∈kids,Tree ctx f h k)
    (occ : ∀ k∈kids,minKeys ≤ k.count ∧ k.count ≤ maxKeys) : ∀ k∈kids,k.entries≠[] := by
  intro k hk
  exact (below k hk).entries_ne_nil (by decide) (le_trans (by decide) (occ k hk).1)

theorem exists_edge_kid (last : Bool) (hne : kids≠[]) :
    ∃ A k B,kids = A++k::B ∧ A.length = (if last then (seps kids).length else 0) ∧
      (if last then B else A) = [] := by
  cases last with
  | false =>
    obtain ⟨k,B,rfl⟩ := List.exists_cons_of_ne_nil hne
    exact ⟨[],k,B,rfl,rfl,rfl⟩
  | true =>
    obtain ⟨A,k,rfl⟩ := (List.eq_nil_or_concat kids).resolve_left hne
    exact ⟨A,k,[],by simp,by simp [length_seps],rfl⟩

/-- The way down an edge ends at the leaf with the edge entry. -/
theorem descendEdge_eq (last : Bool) (hd : h < depth) (ht : Tree ctx f h t) :
    ∃ o es,descendEdge ctx f last depth t.off = some (o,⟨true,es,[]⟩) ∧
      LeafBelow (v2LoadNode ctx f) t.off o es ∧ edge last es = edge last t.entries := by
  induction ht generalizing depth with
  | @leaf o es load =>
    obtain ⟨depth,rfl⟩ : ∃ d,depth = d+1 := ⟨depth - 1,by omega⟩
    exact ⟨o,es,by simp [descendEdge,Summary.leaf,load],.here load,rfl⟩
  | @node h o kids hne below occ load ih =>
    obtain ⟨depth,rfl⟩ : ∃ d,depth = d+1 := ⟨depth - 1,by omega⟩
    have hkids := kid_entries_ne_nil below occ
    obtain ⟨A,k,B,hsplit,hlen,hend⟩ := exists_edge_kid last hne
    have hk : k∈kids := by simp [hsplit]
    have hchild : (kids.map Summary.off).getD (if last then (seps kids).length else 0) 0 = k.off := by
      rw [← hlen,hsplit]
      simp
    obtain ⟨o',es,hrun,hleaf,hedge⟩ := ih k hk (show h < depth by omega)
    refine ⟨o',es,?_,.inner load (List.mem_map_of_mem hk) hleaf,?_⟩
    · simp only [descendEdge,Summary.node,load,Option.bind_eq_bind,Option.bind_some,Bool.false_eq_true,if_false,
        hchild,hrun]
    · rw [hedge]
      cases last with
      | false =>
        obtain rfl : A = [] := by simpa using hend
        have h0 := edge_append false k.entries (B.flatMap Summary.entries) (hkids k hk)
        simpa [Summary.node,hsplit] using h0.symm
      | true =>
        obtain rfl : B = [] := by simpa using hend
        have h0 := edge_append true (A.flatMap Summary.entries) k.entries (hkids k hk)
        simpa [Summary.node,hsplit] using h0.symm

/-! ## Climbing -/

/-- The path `steps` below page `root` leads past the entries `out` on one side. -/
structure Climbs (ctx : Context) (f : Bytes) (forward : Bool) (depth root : ℕ) (steps : List PathEntry)
    (out : List Bytes) : Prop where
  stay : out = [] → ∀ path,climbPath ctx f forward depth (steps++path) = climbPath ctx f forward depth path
  reach : out≠[] → ∀ path,∃ o es,climbPath ctx f forward depth (steps++path) = some (o,⟨true,es,[]⟩) ∧
    LeafBelow (v2LoadNode ctx f) root o es ∧ edge (!forward) es = edge (!forward) out

theorem Climbs.nil (root : ℕ) : Climbs ctx f forward depth root [] [] :=
  ⟨fun _ _ => rfl,fun h => absurd rfl h⟩

variable {o : ℕ}

/-- One node of a path: its further children hold the entries on that side. -/
theorem climbs_node {A B : List (Summary Bytes)} {k : Summary Bytes} (hd : h < depth)
    (below : ∀ k∈kids,Tree ctx f h k) (occ : ∀ k∈kids,minKeys ≤ k.count ∧ k.count ≤ maxKeys)
    (load : v2LoadNode ctx f o = some ⟨false,seps kids,kids.map Summary.off⟩) (hsplit : kids = A++k::B) :
    Climbs ctx f forward depth o [⟨o,A.length⟩]
      (if forward then B.flatMap Summary.entries else A.flatMap Summary.entries) := by
  have hkids := kid_entries_ne_nil below occ
  have hnil : ∀ ks : List (Summary Bytes),(∀ k∈ks,k∈kids) → ks.flatMap Summary.entries = [] → ks = [] := by
    intro ks hks hempty
    cases ks with
    | nil => rfl
    | cons b bs =>
      rw [List.flatMap_cons,List.append_eq_nil_iff] at hempty
      exact absurd hempty.1 (hkids b (hks b (by simp)))
  have hcount : (seps kids).length = A.length+B.length := by simp [length_seps,hsplit]
  -- the child taken, with the entries on its side
  have hturn : ∀ c∈kids,(kids.map Summary.off).getD (if forward then A.length+1 else A.length - 1) 0 = c.off →
      (forward = true ∧ A.length < (seps kids).length ∨ forward = false ∧ 0 < A.length) → ∀ path,∃ o' es,
        climbPath ctx f forward depth ([⟨o,A.length⟩]++path) = some (o',⟨true,es,[]⟩) ∧
          LeafBelow (v2LoadNode ctx f) o o' es ∧ edge (!forward) es = edge (!forward) c.entries := by
    intro c hc hchild hcond path
    obtain ⟨o',es,hrun,hleaf,hedge⟩ := descendEdge_eq (!forward) hd (below c hc)
    refine ⟨o',es,?_,.inner load (List.mem_map_of_mem hc) hleaf,hedge⟩
    simp only [List.singleton_append,climbPath,load,Option.bind_eq_bind,Option.bind_some,if_pos hcond,hchild,
      hrun]
  constructor
  · intro hout path
    have hstop : ¬ (forward = true ∧ A.length < (seps kids).length ∨ forward = false ∧ 0 < A.length) := by
      cases forward with
      | true =>
        obtain rfl : B = [] := hnil B (fun b hb => by simp [hsplit,hb]) hout
        simp [hcount]
      | false =>
        obtain rfl : A = [] := hnil A (fun a ha => by simp [hsplit,ha]) hout
        simp
    simp only [List.singleton_append,climbPath,load,Option.bind_eq_bind,Option.bind_some,if_neg hstop]
  · intro hout path
    cases forward with
    | true =>
      cases B with
      | nil => exact absurd rfl hout
      | cons b B =>
        have hb : b∈kids := by simp [hsplit]
        obtain ⟨o',es,hrun,hleaf,hedge⟩ := hturn b hb (by simp [hsplit]) (.inl ⟨rfl,by simp [hcount]⟩) path
        refine ⟨o',es,hrun,hleaf,hedge.trans ?_⟩
        exact (edge_append false b.entries _ (hkids b hb)).symm
    | false =>
      obtain ⟨A',a,rfl⟩ : ∃ A' a,A = A'++[a] := by
        cases List.eq_nil_or_concat A with
        | inl hA => exact absurd (by rw [hA]; rfl) hout
        | inr hA => simpa using hA
      have ha : a∈kids := by simp [hsplit]
      obtain ⟨o',es,hrun,hleaf,hedge⟩ := hturn a ha (by simp [hsplit]) (.inr ⟨rfl,by simp⟩) path
      refine ⟨o',es,hrun,hleaf,hedge.trans ?_⟩
      have h0 := edge_append true (A'.flatMap Summary.entries) a.entries (hkids a ha)
      simpa using h0.symm

variable {root : ℕ} {steps : List PathEntry}

/-- A longer path leads past the entries of both parts. -/
theorem Climbs.append {more : List PathEntry} {near far : List Bytes}
    (hn : Climbs ctx f forward depth root steps near) (hf : Climbs ctx f forward depth o more far)
    (hroot : ∀ o' es,LeafBelow (v2LoadNode ctx f) root o' es → LeafBelow (v2LoadNode ctx f) o o' es) :
    Climbs ctx f forward depth o (steps++more) (if forward then near++far else far++near) := by
  constructor
  · intro hout path
    obtain ⟨h1,h2⟩ : near = [] ∧ far = [] := by
      cases forward <;> simp_all
    rw [List.append_assoc,hn.stay h1,hf.stay h2]
  · intro hout path
    rw [List.append_assoc]
    by_cases hnear : near = []
    · have hfar : (if forward then near++far else far++near) = far := by cases forward <;> simp [hnear]
      rw [hfar] at hout ⊢
      rw [hn.stay hnear]
      exact hf.reach hout path
    · obtain ⟨o',es,hrun,hleaf,hedge⟩ := hn.reach hnear (more++path)
      refine ⟨o',es,hrun,hroot o' es hleaf,hedge.trans ?_⟩
      cases forward with
      | true => exact (edge_append false near far hnear).symm
      | false => exact (edge_append true far near hnear).symm

/-! ## Descending -/

/-- The leaf `o` below `t` that a search for `e` ends in, with the path to it. -/
structure Descends (ctx : Context) (f : Bytes) (h : ℕ) (t : Summary Bytes) (e : Bytes) (steps : List PathEntry) (o : ℕ)
    (es A B : List Bytes) : Prop where
  leaf : LeafBelow (v2LoadNode ctx f) t.off o es
  entries : t.entries = A++es++B
  left : ∀ x∈A,x < e
  right : ∀ x∈B,e < x
  climbs : ∀ forward depth,h ≤ depth → Climbs ctx f forward depth t.off steps (if forward then B else A)

/-- The position of an entry in a leaf, or where it would be. -/
def lowerBound (e : Bytes) (es : List Bytes) : ℕ := es.findIdx fun x => memcmp e x = .lt ∨ memcmp e x = .eq

variable {e : Bytes}

theorem descendPath_eq (hd : h < depth) (ht : Tree ctx f h t) (hs : t.entries.Pairwise (· < ·))
    (he : e.length = ctx.entrySize) (path : List PathEntry) :
    ∃ steps o es A B,Descends ctx f h t e steps o es A B ∧
      descendPath ctx f e depth t.off path = some (steps++path,o,⟨true,es,[]⟩,lowerBound e es) := by
  induction ht generalizing depth path with
  | @leaf o es load =>
    obtain ⟨depth,rfl⟩ : ∃ d,depth = d+1 := ⟨depth - 1,by omega⟩
    refine ⟨[],o,es,[],[],⟨.here load,by simp [Summary.leaf],by simp,by simp,?_⟩,?_⟩
    · intro forward depth _
      rw [ite_self]
      exact .nil _
    · simp [descendPath,Summary.leaf,load,lowerBound]
  | @node h o kids hne below occ load ih =>
    obtain ⟨depth,rfl⟩ : ∃ d,depth = d+1 := ⟨depth - 1,by omega⟩
    obtain ⟨A,k,B,hrt⟩ := routed hne (kid_entries_ne_nil below occ) hs fun x hx =>
      ((nodeOk_of_load load).entry_length x hx).trans he.symm
    have hk : k∈kids := by simp [hrt.split]
    have hpos : (seps kids).findIdx (fun x => decide (memcmp e x = .lt)) = A.length := hrt.position
    obtain ⟨steps,o',es,A',B',hdesc,hrun⟩ :=
      ih k hk (show h < depth by omega) hrt.sorted (⟨o,A.length⟩::path)
    refine ⟨steps++[⟨o,A.length⟩],o',es,A.flatMap Summary.entries++A',B'++B.flatMap Summary.entries,
      ⟨?_,?_,?_,?_,?_⟩,?_⟩
    · exact .inner load (List.mem_map_of_mem hk) hdesc.leaf
    · have hentries : (Summary.node o kids).entries = kids.flatMap Summary.entries := rfl
      rw [hentries,hrt.flatMap_entries,hdesc.entries]
      simp only [List.append_assoc]
    · intro x hx
      exact (List.mem_append.1 hx).elim (hrt.left x) (hdesc.left x)
    · intro x hx
      exact (List.mem_append.1 hx).elim (hdesc.right x) (hrt.right x)
    · intro forward depth hdepth
      have hnear := hdesc.climbs forward depth (by omega)
      have hfar : Climbs ctx f forward depth o [⟨o,A.length⟩]
          (if forward then B.flatMap Summary.entries else A.flatMap Summary.entries) :=
        climbs_node (show h < depth by omega) below occ load hrt.split
      have hall := hnear.append hfar fun o' es hleaf => .inner load (List.mem_map_of_mem hk) hleaf
      cases forward with
      | true => exact hall
      | false => exact hall
    · rw [List.append_assoc]
      simp only [descendPath,Summary.node,load,Option.bind_eq_bind,Option.bind_some,Bool.false_eq_true,false_and,
        or_false,if_false,hpos,hrt.child,hrun]
      rfl

/-! ## The neighbour of an entry -/

variable {es : List Bytes}

theorem lowerBound_of_mem (hs : es.Pairwise (· < ·))
    (hlen : ∀ x∈es,x.length = e.length) (he : e∈es) : es[lowerBound e es]? = some e := by
  obtain ⟨x,hx,hc⟩ := (mem_iff_lowerBound hs hlen).1 he
  obtain rfl : e = x := (memcmp_eq_eq_iff (hlen x (List.mem_of_getElem? hx)).symm).1 hc
  exact hx

variable {i : ℕ}

/-- A position beside one inside a leaf. -/
theorem besideIndex_cases (forward : Bool) (hi : i < es.length) :
    (besideIndex forward es.length i = none ∧ neighbour forward es i = none) ∨
      ∃ s x,besideIndex forward es.length i = some s ∧ es[s]? = some x ∧ neighbour forward es i = some x := by
  cases forward with
  | true =>
    by_cases hnext : i+1 < es.length
    · exact .inr ⟨i+1,es[i+1],by simp [besideIndex,hnext],by simp,by simp [neighbour]⟩
    · exact .inl ⟨by simp [besideIndex,hnext],by simpa [neighbour] using hnext⟩
  | false =>
    by_cases hz : i = 0
    · exact .inl ⟨by simp [besideIndex,hz],by simp [neighbour,hz]⟩
    · have hlt : i - 1 < es.length := by omega
      refine .inr ⟨i - 1,es[i - 1],?_,by simp [hlt],by simp [neighbour,hz,hlt]⟩
      simp [besideIndex,Nat.pos_of_ne_zero hz]

/-- The answer of a search that ends at the neighbour `x`, or finds none. -/
inductive Answer (ctx : Context) (f : Bytes) (generation root : ℕ) : Option Bytes → Option Found → Prop
  | none : Answer ctx f generation root none none
  | some {x : Bytes} {o i : ℕ} {es : List Bytes} (leaf : LeafBelow (v2LoadNode ctx f) root o es)
      (place : es[i]? = some x) : Answer ctx f generation root (some x) (v2SetCursorEntry ctx ⟨generation,o,i⟩ x)

variable {generation : ℕ}

theorem climbedEntry_answer {out : List Bytes}
    (hc : Climbs ctx f forward (f.length+1) root steps out) :
    Answer ctx f generation root (edge (!forward) out) (climbedEntry ctx f generation forward steps) := by
  by_cases hout : out = []
  · have hstay := hc.stay hout []
    rw [List.append_nil] at hstay
    have hedge : edge (!forward) out = Option.none := edge_eq_none.2 hout
    rw [hedge,climbedEntry,hstay]
    exact .none
  · obtain ⟨o,es,hrun,hleaf,hedge⟩ := hc.reach hout []
    rw [List.append_nil] at hrun
    obtain ⟨x,hx⟩ := Option.ne_none_iff_exists'.1 fun hn => hout (edge_eq_none.1 hn)
    have hplace : es[if forward then 0 else es.length - 1]? = Option.some x := by
      rw [← hx,← hedge,edge_eq_getElem?]
      cases forward <;> rfl
    have hne : es.length≠0 := by
      intro hz
      rw [List.eq_nil_of_length_eq_zero hz] at hplace
      simp at hplace
    rw [hx,climbedEntry,hrun]
    simp only [Option.bind_eq_bind,Option.bind_some,guard_eq_ite,if_pos hne]
    rw [List.getD_eq_getElem?_getD,hplace]
    exact .some hleaf hplace

theorem Descends.mem_iff {A B : List Bytes}
    (hd : Descends ctx f h t e steps o es A B) : e∈t.entries ↔ e∈es := by
  rw [hd.entries]
  exact mem_between hd.left hd.right

/-- An entry that is not in the tree has no neighbours. -/
theorem searchedEntry_notMem (hh : h < f.length) (ht : Tree ctx f h t)
    (hs : t.entries.Pairwise (· < ·)) (he : e.length = ctx.entrySize) (hnot : e∉t.entries) :
    searchedEntry ctx f generation t.off e forward = Option.none := by
  obtain ⟨steps,o,es,A,B,hdesc,hrun⟩ := descendPath_eq (Nat.lt_succ_of_lt hh) ht hs he []
  have hlen := (nodeOk_of_load hdesc.leaf.load).entry_length
  have hguard : ¬ (lowerBound e es≠es.length ∧ memcmp e (es.getD (lowerBound e es) []) = .eq) := by
    intro hg
    have hlt : lowerBound e es < es.length := lt_of_le_of_ne List.findIdx_le_length hg.1
    have hm := hg.2
    rw [List.getD_eq_getElem?_getD,List.getElem?_eq_getElem hlt,Option.getD_some] at hm
    have hmem := List.getElem_mem hlt
    have heq : e = es[lowerBound e es] := (memcmp_eq_eq_iff (he.trans (hlen _ hmem).symm)).1 hm
    exact hnot (hdesc.mem_iff.2 (heq ▸ hmem))
  rw [searchedEntry,hrun]
  simp only [Option.bind_eq_bind,Option.bind_some,guard_eq_ite,if_neg hguard,Option.bind_none]

variable {j : ℕ}

theorem index_unique {L : List Bytes} (hs : L.Pairwise (· < ·)) (hi : L[i]? = some e)
    (hj : L[j]? = some e) : i = j := by
  have hnd : L.Nodup := hs.imp fun hab => ne_of_lt hab
  exact (List.getElem?_inj (List.getElem?_eq_some_iff.1 hi).1 hnd).1 (hi.trans hj.symm)

/-- The search from the root answers with the neighbour in the list of all entries. -/
theorem searchedEntry_answer (hh : h < f.length) (ht : Tree ctx f h t)
    (hs : t.entries.Pairwise (· < ·)) (he : e.length = ctx.entrySize) (hj : t.entries[j]? = some e) :
    Answer ctx f generation t.off (neighbour forward t.entries j)
      (searchedEntry ctx f generation t.off e forward) := by
  obtain ⟨steps,o,es,A,B,hdesc,hrun⟩ := descendPath_eq (Nat.lt_succ_of_lt hh) ht hs he []
  have hlen := (nodeOk_of_load hdesc.leaf.load).entry_length
  have hsort : es.Pairwise (· < ·) := by
    have hall := hs
    rw [hdesc.entries] at hall
    exact (List.pairwise_append.1 (List.pairwise_append.1 hall).1).2.1
  have hi := lowerBound_of_mem hsort (fun x hx => (hlen x hx).trans he.symm)
    (hdesc.mem_iff.1 (List.mem_of_getElem? hj))
  obtain ⟨i,hpos⟩ : ∃ i,i = lowerBound e es := ⟨_,rfl⟩
  rw [← hpos] at hi hrun
  obtain ⟨hilt,hget⟩ := List.getElem?_eq_some_iff.1 hi
  -- the entry occurs once
  have hji : j = A.length+i := by
    have hat : t.entries[A.length+i]? = some e := by
      rw [hdesc.entries,List.append_assoc,List.getElem?_append_right (by omega),
        List.getElem?_append_left (by omega),Nat.add_sub_cancel_left,hi]
    exact index_unique hs hj hat
  have hguard : i≠es.length ∧ memcmp e (es.getD i []) = .eq := by
    refine ⟨by omega,?_⟩
    rw [List.getD_eq_getElem?_getD,hi]
    exact (memcmp_eq_eq_iff rfl).2 rfl
  have hclimb := hdesc.climbs forward (f.length+1) (by omega)
  rw [hji,hdesc.entries,neighbour_between hilt,searchedEntry,hrun]
  simp only [Option.bind_eq_bind,Option.bind_some,guard_eq_ite,if_pos hguard,List.append_nil]
  obtain ⟨hnone,hbeside⟩ | ⟨s,x,hsome,hplace,hbeside⟩ := besideIndex_cases forward hilt
  · rw [hnone,hbeside,Option.none_or]
    exact climbedEntry_answer hclimb
  · rw [hsome,hbeside,Option.some_or]
    simp only [List.getD_eq_getElem?_getD,hplace,Option.getD_some]
    exact .some hdesc.leaf hplace

/-! ## Hints -/

variable {hint : Cursor} {found : Found}

/-- What a hint has to show before its page is used. -/
theorem hintedEntry_eq_some
    (he : e.length = ctx.entrySize) (hf : hintedEntry ctx f generation e hint forward = some found) :
    hint.generation = generation ∧ ∃ es s x,v2LoadNode ctx f hint.nodeOffset = some ⟨true,es,[]⟩ ∧
      es[hint.entryIndex]? = some e ∧ es[s]? = some x ∧ neighbour forward es hint.entryIndex = some x ∧
      v2SetCursorEntry ctx ⟨generation,hint.nodeOffset,s⟩ x = some found := by
  simp only [hintedEntry,Option.bind_eq_bind,Option.bind_eq_some_iff,guard_eq_some] at hf
  obtain ⟨_,hgen,n,hload,_,⟨hleaf,hlt,hcmp⟩,s,hbeside,hset⟩ := hf
  have hok := nodeOk_of_load hload
  obtain ⟨leaf,es,children⟩ := n
  obtain rfl : leaf = true := hleaf
  obtain rfl : children = [] := hok.leaf_children rfl
  have hmem := List.getElem_mem hlt
  have hat : es[hint.entryIndex]? = some e := by
    rw [List.getD_eq_getElem?_getD,List.getElem?_eq_getElem hlt,Option.getD_some] at hcmp
    rw [List.getElem?_eq_getElem hlt,(memcmp_eq_eq_iff ((hok.entry_length _ hmem).trans he.symm)).1 hcmp]
  obtain ⟨hnone,_⟩ | ⟨s',x,hsome,hplace,hnext⟩ := besideIndex_cases forward hlt
  · rw [hnone] at hbeside
    cases hbeside
  · obtain rfl : s' = s := Option.some.inj (hsome.symm.trans hbeside)
    rw [List.getD_eq_getElem?_getD,hplace] at hset
    exact ⟨hgen,es,s',x,hload,hat,hplace,hnext,hset⟩

/-- A hint that shows all this is used. -/
theorem hintedEntry_of_leaf {x : Bytes}
    (hgen : hint.generation = generation) (hload : v2LoadNode ctx f hint.nodeOffset = some ⟨true,es,[]⟩)
    (hat : es[hint.entryIndex]? = some e) (hnext : neighbour forward es hint.entryIndex = some x) :
    ∃ s,hintedEntry ctx f generation e hint forward = v2SetCursorEntry ctx ⟨generation,hint.nodeOffset,s⟩ x := by
  obtain ⟨hlt,hget⟩ := List.getElem?_eq_some_iff.1 hat
  have hcmp : memcmp e e = .eq := (memcmp_eq_eq_iff rfl).2 rfl
  obtain ⟨_,hnone⟩ | ⟨s,y,hsome,hplace,hbeside⟩ := besideIndex_cases forward hlt
  · rw [hnone] at hnext
    cases hnext
  · obtain rfl : y = x := Option.some.inj (hbeside.symm.trans hnext)
    refine ⟨s,?_⟩
    simp only [hintedEntry,hgen,hload,Option.bind_eq_bind,Option.bind_some,guard_eq_ite,if_true,
      List.getD_eq_getElem?_getD,hat,Option.getD_some,hlt,hcmp,and_self,hsome,hplace]

theorem hintedEntry_other (hgen : hint.generation≠generation) :
    hintedEntry ctx f generation e hint forward = Option.none := by
  simp [hintedEntry,guard_eq_ite,hgen]

/-- An entry and its neighbour in a leaf are neighbours in the list of all entries. -/
theorem neighbour_of_leaf {x : Bytes} (ht : Tree ctx f h t) (hleaf : LeafBelow (v2LoadNode ctx f) t.off o es) (hi : es[i]? = some e)
    (hx : neighbour forward es i = some x) : ∃ j,t.entries[j]? = some e ∧ neighbour forward t.entries j = some x := by
  obtain ⟨A,B,hAB⟩ := ht.leaf_between hleaf
  obtain ⟨hlt,_⟩ := List.getElem?_eq_some_iff.1 hi
  refine ⟨A.length+i,?_,?_⟩
  · rw [hAB,List.append_assoc,List.getElem?_append_right (by omega),List.getElem?_append_left (by omega),
      Nat.add_sub_cancel_left,hi]
  · rw [hAB,neighbour_between hlt,hx,Option.some_or]

/-- The hint is of another generation, or it names a leaf of the tree. -/
def Live (ctx : Context) (f : Bytes) (generation root : ℕ) (hint : Cursor) : Prop :=
  hint.generation = generation → ∃ es,LeafBelow (v2LoadNode ctx f) root hint.nodeOffset es

/-- A live hint answers as the search does, or not at all. -/
theorem hintedEntry_live (ht : Tree ctx f h t)
    (he : e.length = ctx.entrySize) (hl : Live ctx f generation t.off hint)
    (hf : hintedEntry ctx f generation e hint forward = some found) :
    ∃ j,t.entries[j]? = some e ∧ Answer ctx f generation t.off (neighbour forward t.entries j) (some found) := by
  obtain ⟨hgen,es,s,x,hload,hat,hplace,hnext,hset⟩ := hintedEntry_eq_some he hf
  obtain ⟨es',hleaf⟩ := hl hgen
  obtain rfl : es' = es := by simpa using hleaf.load.symm.trans hload
  obtain ⟨j,hj,hx⟩ := neighbour_of_leaf ht hleaf hat hnext
  rw [← hset]
  exact ⟨j,hj,hx ▸ .some hleaf hplace⟩

/-! ## Places of looked-up entries -/

/-- The leaves below `p` are leaves below `root`. -/
def Within (ctx : Context) (f : Bytes) (root p : ℕ) : Prop :=
  ∀ o es,LeafBelow (v2LoadNode ctx f) p o es → LeafBelow (v2LoadNode ctx f) root o es

variable {p : ℕ} {n : Node}

theorem Within.child (hw : Within ctx f root p) (hl : v2LoadNode ctx f p = some n)
    (hn : n.leaf = false) (hi : i ≤ n.entries.length) : Within ctx f root (n.children.getD i 0) := by
  intro o es hleaf
  have hlt : i < n.children.length := by
    rw [((nodeOk_of_load hl).node_children hn).2]
    omega
  obtain ⟨leaf,keys,children⟩ := n
  obtain rfl : leaf = false := hn
  refine hw o es (.inner hl ?_ hleaf)
  rw [List.getD_eq_getElem?_getD,List.getElem?_eq_getElem hlt]
  exact List.getElem_mem hlt

/-- A found entry and its place in a leaf. -/
def Located (ctx : Context) (f : Bytes) (root : ℕ) (x : Found) : Prop :=
  ∃ o es i e,LeafBelow (v2LoadNode ctx f) root o es ∧ es[i]? = some e ∧ x = foundEntry ctx ⟨0,o,i⟩ e

theorem Within.located (hw : Within ctx f root p) (hl : v2LoadNode ctx f p = some n)
    (hn : n.leaf = true) (hi : i < n.entries.length) :
    Located ctx f root (foundEntry ctx ⟨0,p,i⟩ (n.entries.getD i [])) := by
  have hc := (nodeOk_of_load hl).leaf_children hn
  obtain ⟨leaf,es,children⟩ := n
  obtain rfl : leaf = true := hn
  obtain rfl : children = [] := hc
  refine ⟨p,es,i,es[i],hw p es (.here hl),by simp,?_⟩
  rw [List.getD_eq_getElem?_getD,List.getElem?_eq_getElem hi,Option.getD_some]

variable {x : Found} {offset keyLength : ℕ} {target : Bytes} {exact : Bool}

theorem v2FindEntry_located {next : ℕ}
    (hw : Within ctx f root offset) (hnext : next≠0 → Within ctx f root next)
    (hf : v2FindEntry ctx f target exact keyLength depth offset next = some x) : Located ctx f root x := by
  induction depth generalizing offset next with
  | zero => cases hf
  | succ depth ih =>
    rw [v2FindEntry] at hf
    obtain ⟨n,hl,hf⟩ := Option.bind_eq_some_iff.1 hf
    have hle : n.entries.findIdx (fun e => memcmp target e = .lt ∨ n.leaf ∧ memcmp target e = .eq) ≤
        n.entries.length := List.findIdx_le_length
    generalize n.entries.findIdx (fun e => memcmp target e = .lt ∨ n.leaf ∧ memcmp target e = .eq) = p at hf hle
    cases hn : n.leaf with
    | true =>
      rw [if_pos hn] at hf
      by_cases hp : p = n.entries.length
      · rw [if_pos hp] at hf
        split at hf
        · rename_i hz
          exact ih (hnext hz) (fun h => absurd rfl h) hf
        · cases hf
      · rw [if_neg hp] at hf
        obtain ⟨_,_,hx⟩ := Option.bind_eq_some_iff.1 hf
        obtain rfl := Option.some.inj hx
        exact hw.located hl hn (by omega)
    | false =>
      rw [if_neg (by simp [hn])] at hf
      apply ih (hw.child hl hn hle) _ hf
      split
      · rename_i hside
        intro _
        exact hw.child hl hn (by have := hside.2; omega)
      · exact hnext

theorem firstResult_found {find : ℕ → FindResult} {children : List ℕ}
    (h : firstResult find children = .found x) : ∃ c∈children,find c = .found x := by
  induction children with
  | nil => cases h
  | cons c cs ih =>
    rw [firstResult] at h
    cases hc : find c with
    | notFound =>
      rw [hc] at h
      obtain ⟨c',hc',hfound⟩ := ih h
      exact ⟨c',List.mem_cons_of_mem _ hc',hfound⟩
    | error =>
      rw [hc] at h
      cases h
    | found y =>
      rw [hc] at h
      exact ⟨c,List.mem_cons_self,hc.trans h⟩

theorem v2FindPatternNode_located {length : ℕ} {pattern : Bytes}
    (hw : Within ctx f root offset) (hf : v2FindPatternNode ctx f pattern length depth offset = .found x) :
    Located ctx f root x := by
  induction depth generalizing offset with
  | zero => cases hf
  | succ depth ih =>
    rw [v2FindPatternNode] at hf
    cases hl : v2LoadNode ctx f offset with
    | none =>
      rw [hl] at hf
      cases hf
    | some n =>
      simp only [hl] at hf
      cases hn : n.leaf with
      | true =>
        rw [if_pos hn,findInLeaf] at hf
        have hle : n.entries.findIdx (fun entry => v2PatternMatches entry pattern length) ≤ n.entries.length :=
          List.findIdx_le_length
        split at hf
        · cases hf
        · obtain rfl := FindResult.found.inj hf
          exact hw.located hl hn (by omega)
      | false =>
        rw [if_neg (by simp [hn])] at hf
        obtain ⟨c,hc,hfound⟩ := firstResult_found hf
        obtain ⟨i,hi,rfl⟩ := List.getElem_of_mem hc
        have hchild := hw.child hl hn (i := i) (by have := ((nodeOk_of_load hl).node_children hn).2; omega)
        rw [List.getD_eq_getElem?_getD,List.getElem?_eq_getElem hi,Option.getD_some] at hchild
        exact ih hchild hfound

theorem findTarget_located
    (hf : findTarget ctx f root target exact keyLength = some x) : Located ctx f root x := by
  have hw : Within ctx f root root := fun _ _ h => h
  rw [findTarget] at hf
  split at hf
  · cases hr : v2FindPatternNode ctx f target keyLength (f.length+1) root with
    | found y =>
      rw [hr] at hf
      obtain rfl := Option.some.inj hf
      exact v2FindPatternNode_located hw hr
    | error =>
      rw [hr] at hf
      cases hf
    | notFound =>
      rw [hr] at hf
      cases hf
  · exact v2FindEntry_located hw (fun h => absurd rfl h) hf

end Dataman.IndexFile

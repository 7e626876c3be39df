import Mathlib.Data.Finset.Card

/-!
# The processes of the connection server

For every connection the server keeps a process, whose number it enters in an open hash
table. When processes end, the handler of the signal takes them out of the table again.
-/

namespace Dataman.ConnectionReaping

/-! ## The table and the handler -/

/-- `MAX_CONNS` -/
def maxConns : ℕ := 256

/-- The order in which the entries are looked through. -/
def probe (offs : ℕ) : List ℕ := List.range' offs (maxConns - offs)++List.range offs

/-- The first entry, from the place of `pid` on, that has the given value. -/
def findEntry (pidTab : ℕ → ℕ) (pid value : ℕ) : Option ℕ := (probe (pid % maxConns)).find? (pidTab · = value)

def addpid (pidTab : ℕ → ℕ) (pid : ℕ) : Option (ℕ → ℕ) :=
  (findEntry pidTab pid 0).map fun i => Function.update pidTab i pid

structure Server where
  pidTab : ℕ → ℕ
  conCount : ℤ
  accepting : Bool

/-- How a call of the handler ends, and the processes that `waitpid` would still report. -/
inductive Handled
  | returned (server : Server) (left : List ℕ)
  | exited (left : List ℕ)

/-- The handler, when `waitpid` reports the processes of the list one after the other. -/
def reapChild (server : Server) : List ℕ → Handled
  | [] => .returned server []
  | pid::ended =>
    if server.accepting = false ∧ server.conCount - 1 = 0 then .exited ended
    else
      match findEntry server.pidTab pid pid with
      | some i =>
        .returned ⟨Function.update server.pidTab i 0,server.conCount - 1,server.accepting⟩ ended
      | none => reapChild { server with conCount := server.conCount - 1 } ended

/-- Runs of the server, with the processes it has not collected. -/
inductive Run : Server → Finset ℕ → Prop
  | start : Run ⟨fun _ => 0,0,true⟩ ∅
  /-- `main`, after `fork` -/
  | connect {server children pid pidTab} : Run server children → server.accepting = true → pid≠0 →
      pid∉children → addpid server.pidTab pid = some pidTab →
      Run ⟨pidTab,server.conCount+1,true⟩ (insert pid children)
  /-- `handle_quit` -/
  | quit {server children} : Run server children → server.conCount≠0 →
      Run { server with accepting := false } children
  | reap {server children ended server' left} : Run server children → ended.Nodup → (∀ pid∈ended,pid∈children) →
      reapChild server ended = .returned server' left →
      Run server' (children.filter fun pid => pid∈ended → pid∈left)

/-! ## What the table records -/

structure Records (pidTab : ℕ → ℕ) (children : Finset ℕ) : Prop where
  once : ∀ i < maxConns,∀ j < maxConns,pidTab i≠0 → pidTab i = pidTab j → i = j
  mem : ∀ pid,pid∈children ↔ pid≠0 ∧ ∃ i < maxConns,pidTab i = pid

variable {pidTab : ℕ → ℕ} {children : Finset ℕ} {pid : ℕ}

theorem mem_probe {offs i : ℕ} (h : offs < maxConns) : i∈probe offs ↔ i < maxConns := by
  rw [probe,List.mem_append,List.mem_range'_1,List.mem_range]
  omega

theorem findEntry_some {value i : ℕ} (h : findEntry pidTab pid value = some i) : i < maxConns ∧ pidTab i = value := by
  have hoffs : pid % maxConns < maxConns := Nat.mod_lt _ (by decide)
  constructor
  · exact (mem_probe hoffs).1 (List.mem_of_find?_eq_some h)
  · simpa using List.find?_some h

namespace Records

theorem findEntry (h : Records pidTab children) (hpid : pid∈children) :
    ∃ i,findEntry pidTab pid pid = some i := by
  obtain ⟨-,i,hi,heq⟩ := (h.mem pid).1 hpid
  have hoffs : pid % maxConns < maxConns := Nat.mod_lt _ (by decide)
  rw [← Option.isSome_iff_exists,ConnectionReaping.findEntry,List.find?_isSome]
  exact ⟨i,(mem_probe hoffs).2 hi,by simpa using heq⟩

theorem addpid (h : Records pidTab children) (hzero : pid≠0) (hnew : pid∉children) {pidTab' : ℕ → ℕ}
    (hadd : addpid pidTab pid = some pidTab') : Records pidTab' (insert pid children) := by
  obtain ⟨i,hfind,rfl⟩ := Option.map_eq_some_iff.1 hadd
  obtain ⟨hi,hfree⟩ := findEntry_some hfind
  have hother : ∀ j < maxConns,pidTab j≠pid := fun j hj hpid => hnew ((h.mem pid).2 ⟨hzero,j,hj,hpid⟩)
  constructor
  · intro j hj k hk hne heq
    rw [Function.update_apply] at hne heq
    rw [Function.update_apply] at heq
    split_ifs at heq with hji hki hki
    · rw [hji,hki]
    · exact absurd heq.symm (hother k hk)
    · exact absurd heq (hother j hj)
    · rw [if_neg hji] at hne
      exact h.once j hj k hk hne heq
  · intro pid'
    rw [Finset.mem_insert,h.mem]
    constructor
    · rintro (rfl | ⟨hne,j,hj,rfl⟩)
      · exact ⟨hzero,i,hi,Function.update_self ..⟩
      · have hji : j≠i := by
          rintro rfl
          exact hne hfree
        exact ⟨hne,j,hj,Function.update_of_ne hji ..⟩
    · rintro ⟨hne,j,hj,heq⟩
      rw [Function.update_apply] at heq
      split_ifs at heq with hji
      · exact .inl heq.symm
      · exact .inr ⟨hne,j,hj,heq⟩

theorem clear (h : Records pidTab children) {i : ℕ} (hi : i < maxConns) (heq : pidTab i = pid) :
    Records (Function.update pidTab i 0) (children.erase pid) := by
  constructor
  · intro j hj k hk hne hjk
    have hji : j≠i := by
      rintro rfl
      exact hne (Function.update_self ..)
    rw [Function.update_of_ne hji] at hne hjk
    rw [Function.update_apply] at hjk
    split_ifs at hjk with hki
    · exact absurd hjk hne
    · exact h.once j hj k hk hne hjk
  · intro pid'
    rw [Finset.mem_erase,h.mem]
    constructor
    · rintro ⟨hne,hne',j,hj,rfl⟩
      have hji : j≠i := by
        rintro rfl
        exact hne heq
      exact ⟨hne',j,hj,Function.update_of_ne hji ..⟩
    · rintro ⟨hne,j,hj,hj'⟩
      rw [Function.update_apply] at hj'
      split_ifs at hj' with hji
      · exact absurd hj'.symm hne
      · refine ⟨?_,hne,j,hj,hj'⟩
        rintro rfl
        exact hji (h.once j hj i hi (hj' ▸ hne) (hj'.trans heq.symm))

/-- Clearing the entry of a process leaves all others as they are. -/
theorem update_eq (h : Records pidTab children) {i : ℕ} (hi : i < maxConns) (heq : pidTab i = pid)
    (hpid : pid∈children) {j : ℕ} (hj : j < maxConns) :
    Function.update pidTab i 0 j = if pidTab j = pid then 0 else pidTab j := by
  rw [Function.update_apply]
  congr 1
  apply propext
  constructor
  · rintro rfl
    exact heq
  · intro hj'
    have hzero := ((h.mem pid).1 hpid).1
    exact h.once j hj i hi (hj' ▸ hzero) (hj'.trans heq.symm)

end Records

/-! ## Runs -/

/-- What holds in every state of a run. -/
structure Inv (server : Server) (children : Finset ℕ) : Prop where
  records : Records server.pidTab children
  count : server.conCount = children.card

variable {server server' : Server} {ended left : List ℕ}

/-- The handler returns with the first process it takes out of the table. -/
theorem Inv.reapChild_cons (h : Inv server children) (hpid : pid∈children) (ended : List ℕ) :
    (server.accepting = false ∧ children = {pid} ∧ reapChild server (pid::ended) = .exited ended) ∨
      ∃ i < maxConns,server.pidTab i = pid ∧ reapChild server (pid::ended) =
        .returned ⟨Function.update server.pidTab i 0,server.conCount - 1,server.accepting⟩ ended := by
  obtain ⟨i,hi⟩ := h.records.findEntry hpid
  rw [reapChild,hi]
  split_ifs with hexit
  · have hone : children.card = 1 := by
      have := h.count
      omega
    obtain ⟨only,rfl⟩ := Finset.card_eq_one.1 hone
    exact .inl ⟨hexit.1,by rw [Finset.mem_singleton.1 hpid],rfl⟩
  · exact .inr ⟨i,(findEntry_some hi).1,(findEntry_some hi).2,rfl⟩

theorem Inv.reap (h : Inv server children) (hnodup : ended.Nodup) (hmem : ∀ pid∈ended,pid∈children)
    (hreap : reapChild server ended = .returned server' left) :
    Inv server' (children.filter fun pid => pid∈ended → pid∈left) := by
  cases ended with
  | nil =>
    cases hreap
    simpa using h
  | cons pid ended =>
    have hpid := hmem pid (List.mem_cons_self ..)
    obtain ⟨-,-,hexit⟩ | ⟨i,hi,heq,hret⟩ := h.reapChild_cons hpid ended
    · rw [hexit] at hreap
      cases hreap
    · rw [hret] at hreap
      injection hreap with hserver hleft
      subst hserver hleft
      have hfilter : (children.filter fun q => q∈pid::ended → q∈ended) = children.erase pid := by
        ext q
        rw [Finset.mem_filter,Finset.mem_erase,List.mem_cons,and_comm]
        have hnew := (List.nodup_cons.1 hnodup).1
        constructor
        · rintro ⟨hq,hin⟩
          refine ⟨?_,hin⟩
          rintro rfl
          exact hnew (hq (.inl rfl))
        · rintro ⟨hne,hin⟩
          exact ⟨fun hq => hq.resolve_left hne,hin⟩
      rw [hfilter]
      have hpos := Finset.card_pos.2 ⟨pid,hpid⟩
      have hcount := h.count
      refine ⟨h.records.clear hi heq,?_⟩
      rw [Finset.card_erase_of_mem hpid]
      dsimp only
      omega

theorem Run.inv (h : Run server children) : Inv server children := by
  induction h with
  | start =>
    refine ⟨⟨by simp,?_⟩,rfl⟩
    intro pid
    constructor
    · simp
    · rintro ⟨hzero,i,-,hpid⟩
      exact absurd hpid.symm hzero
  | connect _ _ hzero hnew hadd ih =>
    refine ⟨ih.records.addpid hzero hnew hadd,?_⟩
    rw [Finset.card_insert_of_notMem hnew,ih.count]
    rfl
  | quit _ _ ih => exact ⟨ih.records,ih.count⟩
  | reap _ hnodup hmem hreap ih => exact ih.reap hnodup hmem hreap

/-! ## Complete calls -/

/-- A call that collects all processes that have ended, and no others. When the server
exits with its last process, its table ends with it. -/
def Complete (server : Server) (children : Finset ℕ) (ended : List ℕ) : Handled → Prop
  | .returned server' left =>
    left = [] ∧ server'.conCount = server.conCount - ended.length ∧
      server'.conCount = (children \ ended.toFinset).card ∧
      ∀ i < maxConns,server'.pidTab i = if server.pidTab i∈ended then 0 else server.pidTab i
  | .exited left => left = [] ∧ children \ ended.toFinset = ∅

theorem reapChild_complete_iff (h : Run server children) (hnodup : ended.Nodup) (hmem : ∀ pid∈ended,pid∈children) :
    Complete server children ended (reapChild server ended) ↔ ended.length ≤ 1 := by
  have hinv := h.inv
  cases ended with
  | nil => simp [reapChild,Complete,hinv.count]
  | cons pid ended =>
    have hpid := hmem pid (List.mem_cons_self ..)
    obtain ⟨-,honly,hexit⟩ | ⟨i,hi,heq,hret⟩ := hinv.reapChild_cons hpid ended
    · have hnil : ended = [] := by
        apply List.eq_nil_iff_forall_not_mem.2
        intro q hq
        have hq' := hmem q (List.mem_cons_of_mem _ hq)
        rw [honly,Finset.mem_singleton] at hq'
        exact (List.nodup_cons.1 hnodup).1 (hq' ▸ hq)
      rw [hexit,honly,hnil]
      simp [Complete]
    · rw [hret]
      constructor
      · rintro ⟨rfl,-⟩
        exact le_rfl
      · intro hlen
        have hnil : ended = [] := List.length_eq_zero_iff.1 (Nat.le_zero.1 (Nat.le_of_succ_le_succ hlen))
        subst hnil
        refine ⟨rfl,rfl,?_,?_⟩
        · have hpos := Finset.card_pos.2 ⟨pid,hpid⟩
          dsimp only
          rw [hinv.count,List.toFinset_cons,List.toFinset_nil,insert_empty_eq,Finset.sdiff_singleton_eq_erase,
            Finset.card_erase_of_mem hpid]
          omega
        · intro j hj
          simp only [List.mem_singleton]
          exact hinv.records.update_eq hi heq hpid hj

/-- The table with two processes whose places are the same. -/
def colliding : ℕ → ℕ := Function.update (Function.update (fun _ => 0) 1 1) 2 257

theorem run_colliding : Run ⟨colliding,2,true⟩ {257,1} := by
  have hone : Run ⟨Function.update (fun _ => 0) 1 1,1,true⟩ {1} :=
    Run.connect Run.start rfl (by decide) (by decide) rfl
  exact Run.connect hone rfl (by decide) (by decide) rfl

/-- Both processes have ended, but one is collected, and one connection is still counted. -/
theorem second_child_left : Run ⟨colliding,2,true⟩ {257,1} ∧
    reapChild ⟨colliding,2,true⟩ [1,257] = .returned ⟨Function.update colliding 1 0,1,true⟩ [257] ∧
    ¬ Complete ⟨colliding,2,true⟩ {257,1} [1,257] (reapChild ⟨colliding,2,true⟩ [1,257]) := by
  refine ⟨run_colliding,rfl,?_⟩
  rintro ⟨hleft,-⟩
  cases hleft

theorem reapChild_complete_one : Run ⟨colliding,2,true⟩ {257,1} ∧
    Complete ⟨colliding,2,true⟩ {257,1} [257] (reapChild ⟨colliding,2,true⟩ [257]) :=
  ⟨run_colliding,(reapChild_complete_iff run_colliding (by decide) (by decide)).2 le_rfl⟩

end Dataman.ConnectionReaping

import Mathlib.Data.List.Nodup
import Mathlib.Data.Set.Insert

/-!
# Chained tables

A table has a chain of keys for each hash. It holds a set when every chain has the keys
of the set with its hash, each of them once.
-/

namespace Dataman.ChainedTable

variable {κ ι : Type} {hash : κ → ι} {table : ι → List κ} {S S' : Set κ} {k : κ}

structure Holds (hash : κ → ι) (table : ι → List κ) (S : Set κ) : Prop where
  nodup : ∀ b,(table b).Nodup
  mem : ∀ b k,k∈table b ↔ hash k = b ∧ k∈S

theorem Holds.mem_iff (h : Holds hash table S) : k∈table (hash k) ↔ k∈S := by
  rw [h.mem]
  exact and_iff_right rfl

variable [DecidableEq ι]

/-- The chain of one hash can be replaced by any that fits the new set. -/
theorem Holds.set_chain (h : Holds hash table S) {b : ι} {chain : List κ} (hnd : chain.Nodup)
    (hchain : ∀ k,k∈chain ↔ hash k = b ∧ k∈S') (hrest : ∀ k,hash k≠b → (k∈S' ↔ k∈S)) :
    Holds hash (Function.update table b chain) S' := by
  constructor
  · intro c
    by_cases hc : c = b
    · simpa [hc] using hnd
    · simpa [hc] using h.nodup c
  · intro c k
    by_cases hc : c = b
    · simpa [hc] using hchain k
    · rw [Function.update_of_ne hc,h.mem]
      apply and_congr_right
      intro hk
      exact (hrest k (by rwa [hk])).symm

theorem Holds.insert (h : Holds hash table S) (hk : k∉S) :
    Holds hash (Function.update table (hash k) (table (hash k)++[k])) (insert k S) := by
  apply h.set_chain
  · have hnot : k∉table (hash k) := fun hmem => hk (h.mem_iff.1 hmem)
    simpa [List.nodup_append] using ⟨h.nodup (hash k),fun a ha heq => hnot (heq ▸ ha)⟩
  · intro j
    rw [List.mem_append,h.mem,List.mem_singleton,Set.mem_insert_iff]
    constructor
    · rintro (⟨hj,hS⟩ | rfl)
      · exact ⟨hj,.inr hS⟩
      · exact ⟨rfl,.inl rfl⟩
    · rintro ⟨hj,rfl | hS⟩
      · exact .inr rfl
      · exact .inl ⟨hj,hS⟩
  · intro j hj
    have hne : j≠k := fun heq => hj (by rw [heq])
    simp [hne]

theorem Holds.erase [DecidableEq κ] (h : Holds hash table S) :
    Holds hash (Function.update table (hash k) ((table (hash k)).erase k)) (S \ {k}) := by
  apply h.set_chain
  · exact (h.nodup _).erase k
  · intro j
    rw [(h.nodup _).mem_erase_iff,h.mem,Set.mem_sdiff,Set.mem_singleton_iff]
    tauto
  · intro j hj
    have hne : j≠k := fun heq => hj (by rw [heq])
    simp [hne]

end Dataman.ChainedTable

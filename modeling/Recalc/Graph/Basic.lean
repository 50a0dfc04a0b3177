import Recalc.Program.Basic
import Recalc.Value.Code
import Recalc.Verb.Access

/-! Cells: remembered values with what they were computed from. A cell is the document, a node under
bindings of the functions that it reads, or a slot, which is one key of another cell. -/
namespace Recalc

/-- The position of a cell in its graph. There is no bound on it: a graph whose positions have 32
bits is this one as long as it has at most 2³² cells. -/
abbrev CellId := Nat

/-- The count of recalculations. There is no bound on it: a count of 64 bits is this one for the
first 2⁶⁴ - 1 recalculations. -/
abbrev Revision := Nat

/-- Where a value comes from: a cell, or a constant that never changes. -/
inductive Handle (ι : Type) where
  | cell (id : ι)
  | const (v : Value)
  deriving BEq

/-- What a function's references stand for in the key of a cell. -/
structure CellBinding (ι : Type) where
  val : Handle ι
  key : Value
  context : Option (Handle ι)
  deriving BEq

/-- Bindings in increasing order of their functions. -/
abbrev CellEnv (ι : Type) := List (LambdaId × CellBinding ι)

/-- What a cell holds, where other cells have names of some type. A vacant cell waits to be used
again. -/
inductive CellKey (ι : Type) where
  | model
  | node (id : NodeId) (env : List (LambdaId × CellBinding ι))
  | slot (source : ι) (key : Value)
  | vacant
  deriving BEq

/-! ### Codes -/

def Handle.code : Handle CellId → Nat
  | .cell id => mixCode 1 id
  | .const v => Coded.code v

theorem Handle.code_eq : (a b : Handle CellId) → (a == b) = true → a.code = b.code
  | .cell a, .cell b, h => by
    have h : (a == b) = true := h
    rw [eq_of_beq h]
  | .const a, .const b, h => Coded.code_eq a b h

instance : Coded (Handle CellId) := ⟨Handle.code, Handle.code_eq⟩

def CellBinding.code (b : CellBinding CellId) : Nat := mixCode (Coded.code b.val) (Coded.code b.key)

theorem CellBinding.code_eq (a b : CellBinding CellId) (h : (a == b) = true) : a.code = b.code := by
  obtain ⟨v, k, c⟩ := a
  obtain ⟨w, l, d⟩ := b
  have h : (v == w && (k == l && c == d)) = true := h
  simp only [Bool.and_eq_true] at h
  rw [CellBinding.code, CellBinding.code, Coded.code_eq _ _ h.1, Coded.code_eq _ _ h.2.1]

def CellEnv.code (start : Nat) (env : CellEnv CellId) : Nat :=
  env.foldl (fun c (l, b) => mixCode (mixCode c l) b.code) start

theorem CellEnv.code_eq : (start : Nat) → (a b : CellEnv CellId) → (a == b) = true →
    a.code start = b.code start
  | _, [], [], _ => rfl
  | start, (l, x) :: as, (m, y) :: bs, h => by
    have h : ((l == m && x == y) && as == bs) = true := h
    simp only [Bool.and_eq_true] at h
    simp only [CellEnv.code, List.foldl_cons, eq_of_beq h.1.1, CellBinding.code_eq x y h.1.2]
    exact CellEnv.code_eq _ as bs h.2

namespace CellKey

def code : CellKey CellId → Nat
  | model => 0
  | vacant => 1
  | node id env => CellEnv.code (mixCode 2 id) env
  | slot source key => mixCode (mixCode 3 source) (Coded.code key)

theorem code_eq : (a b : CellKey CellId) → (a == b) = true → a.code = b.code
  | model, model, _ => rfl
  | vacant, vacant, _ => rfl
  | node i as, node j bs, h => by
    have h : (i == j && as == bs) = true := h
    simp only [Bool.and_eq_true] at h
    rw [code, code, eq_of_beq h.1, CellEnv.code_eq _ as bs h.2]
  | slot i k, slot j l, h => by
    have h : (i == j && k == l) = true := h
    simp only [Bool.and_eq_true] at h
    rw [code, code, eq_of_beq h.1, Coded.code_eq _ _ h.2]

instance : Coded (CellKey CellId) := ⟨code, code_eq⟩

variable {ι : Type}

def handleCells : Handle ι → List ι
  | .cell id => [id]
  | .const _ => []

/-- The cells that a key names. -/
def references : CellKey ι → List ι
  | model => []
  | node _ env => env.flatMap fun (_, b) =>
      handleCells b.val ++ (b.context.elim [] handleCells)
  | slot source _ => [source]
  | vacant => []

def isModel : CellKey ι → Bool
  | model => true
  | _ => false

def isVacant : CellKey ι → Bool
  | vacant => true
  | _ => false

end CellKey

/-- A cell. It has no value until it is first computed, and then gives access to its parts. The
cells that the last computation read are in the order of reading. -/
structure Cell where
  key : CellKey CellId
  value : Option Value := none
  access : { f : Value → Except EvalError Value // f = (value.getD .null).get } := ⟨_, rfl⟩
  changedAt : Revision := 0
  verifiedAt : Revision := 0
  deps : List CellId := []

instance : Inhabited Cell := ⟨{ key := .vacant }⟩

namespace Cell

/-- Whether a cell has a value equal to the given one. -/
def holds (c : Cell) (v : Value) : Bool :=
  match c.value with
  | some old => old == v
  | none => false

/-- The cell with a value, which counts as changed unless the cell holds it. -/
def renew (c : Cell) (v : Value) (r : Revision) : Cell :=
  if c.holds v then c else { c with value := some v, access := v.accessor, changedAt := r }

end Cell

/-- Cells with an index from keys to them. Vacant cells are used again, the last freed first. -/
structure Graph where
  cells : Array Cell
  free : List CellId
  index : Table (CellKey CellId) CellId
  revision : Revision
  /-- How many cells the last sweep left. -/
  live : Nat

namespace Graph

/-- The cell of the document. -/
def modelCell : CellId := 0

def empty : Graph where
  cells := #[{ key := .model }]
  free := []
  index := Table.empty.insert .model modelCell
  revision := 0
  live := 1

def cell (g : Graph) (id : CellId) : Cell := g.cells.getD id default

def value (g : Graph) (id : CellId) : Value := (g.cell id).value.getD .null

def find? (g : Graph) (key : CellKey CellId) : Option CellId := g.index.find? key

/-- Puts a cell in the place of another. -/
@[noinline]
def putCell (cells : Array Cell) (id : CellId) (c : Cell) : Array Cell := cells.setIfInBounds id c

def setCell (g : Graph) (id : CellId) (c : Cell) : Graph :=
  { g with cells := putCell g.cells id c }

def advance (g : Graph) : Graph := { g with revision := g.revision + 1 }

/-- The cell for a key, a new one on first use. -/
def intern (g : Graph) (key : CellKey CellId) : CellId × Graph :=
  match g.find? key with
  | some id => (id, g)
  | none => match g.free with
    | id :: free => (id, { g with
        cells := putCell g.cells id { key }, free, index := g.index.insert key id })
    | [] => (g.cells.size, { g with
        cells := g.cells.push { key }, index := g.index.insert key g.cells.size })

/-- Marks a cell as known to be current. -/
def confirm (g : Graph) (id : CellId) : Graph :=
  g.setCell id { g.cell id with verifiedAt := g.revision }

/-- Keeps a computed value. One equal to the previous value leaves that value, and when it changed,
as they were. -/
def store (g : Graph) (id : CellId) (v : Value) (deps : List CellId) : Graph :=
  g.setCell id { (g.cell id).renew v g.revision with verifiedAt := g.revision, deps }

/-- Keeps the document of the current recalculation. -/
def setModel (g : Graph) (model : Value) : Graph :=
  g.store modelCell model (g.cell modelCell).deps

/-- How many cells are in use. -/
def size (g : Graph) : Nat := g.cells.size - g.free.length

/-- Below this many cells there is no sweep. -/
def minSweep : Nat := 64

/-- Whether the cells in use have doubled since the last sweep. -/
def wantsSweep (g : Graph) : Bool := 2 * max g.live minSweep < g.size

end Graph

end Recalc

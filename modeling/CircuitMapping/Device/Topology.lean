/-
  CircuitMapping.Device.Topology — devices of the common shapes: line, ring, grid and star.

  A grid is numbered row by row. Its qubits are 64-bit words, and so is their number: when `rows * cols` does not fit
  into a word, the nodes are too few for the couplings and building the grid fails on the first that is missing.
-/
import CircuitMapping.Device.Basic
import CircuitMapping.Number.Word

namespace CircuitMapping.Device

/-- The nodes 0 to `n - 1`, not coupled. -/
def isolated (n : Nat) : Device := (List.range n).foldl addNode empty

/-- The chain 0 - 1 - … - (n - 1). -/
def line (n : Nat) : Except Error Device :=
  if n = 0 then .error (.configuration .emptyLine)
  else (List.range (n - 1)).foldlM (fun d i => d.addEdge i (i + 1)) (isolated n)

/-- A line with its ends coupled. -/
def ring (n : Nat) : Except Error Device :=
  if n < 3 then .error (.configuration .shortRing) else do (← line n).addEdge 0 (n - 1)

/-- Couples the cells from number `k` on, as many as the first argument says, to their right and lower neighbours. -/
def coupleCells (rows cols : Nat) : Nat → Nat → Device → Except Error Device
  | 0, _, d => .ok d
  | m + 1, k, d => do
    let d ← if k % cols + 1 < cols then d.addEdge (Word.wrap k) (Word.wrap (k + 1)) else pure d
    let d ← if k / cols + 1 < rows then d.addEdge (Word.wrap k) (Word.wrap (k + cols)) else pure d
    coupleCells rows cols m (k + 1) d

/-- The grid in which cell `(r, c)` is qubit `r * cols + c`. -/
def grid (rows cols : Nat) : Except Error Device :=
  if rows = 0 ∨ cols = 0 then .error (.configuration .emptyGrid)
  else coupleCells rows cols (rows * cols) 0 (isolated (Word.wrap (rows * cols)))

/-- The nodes 0 to `leaves`, the center coupled to all others. -/
def star (leaves center : Nat) : Except Error Device :=
  if leaves = 0 then .error (.configuration .noLeaves)
  else if leaves < center then .error (.configuration (.centerOutside center leaves))
  else ((List.range (leaves + 1)).filter (· != center)).foldlM (fun d q => d.addEdge center q) (isolated (leaves + 1))

end CircuitMapping.Device

import Heph.Lib.Renumber
import Heph.Lib.Search

/-!
# The request's dependency graph

`DepDag` of `request_state.rs`: the graph one build request grows an edge at a time,
which refuses an edge that would close a cycle. It keeps a topological order of its
nodes and repairs it by the algorithm of Pearce and Kelly: an edge that agrees with
the order is committed as it is, and one that contradicts it makes the two regions
between its ends change places.

* A node is an address, known by its index. `DepDag.getOrInsert` hands out
  `nodes.len() as u32`, so the index of the node number `2 ^ 32` is `0` again; the cast is
  part of the model.
* `succ` and `pred` are the adjacency lists and `edges` is the membership index over
  them, whose keys pack the two ends into one word (`edgeKey`).
* `ord` is the topological order, as a position for each index.

Addresses are interned, so an address is a value of a type with decidable equality here.
The two hash tables are a finite map and a finite set: nothing reads them in iteration
order.
-/

namespace Heph

open Search

/-- The edge a call was refused for. -/
structure CycleError (A : Type) where
  /-- The address the edge would have left. -/
  fromAddr : A
  /-- The address the edge would have entered. -/
  toAddr : A
deriving DecidableEq

/-- Two node indices packed into one key. -/
def edgeKey (f t : ℕ) : ℕ := f <<< 32 ||| t

/-- The state of the graph. -/
structure DepDag (A : Type) where
  /-- The address of each node. -/
  nodes : List A
  /-- The successors of each node. -/
  succ : List (List ℕ)
  /-- The predecessors of each node. -/
  pred : List (List ℕ)
  /-- The position of each node in the topological order. -/
  ord : List ℕ
  /-- The index of each address that has a node. -/
  indexOf : A → Option ℕ
  /-- The committed edges, packed. -/
  edges : Finset ℕ

namespace DepDag

variable {A : Type} [DecidableEq A]

/-- The empty graph. -/
def new : DepDag A := ⟨[], [], [], [], fun _ => none, ∅⟩

variable (d : DepDag A)

/-- A new isolated node of index `idx`. -/
def insertNode (addr : A) (idx : ℕ) : DepDag A where
  nodes := d.nodes ++ [addr]
  succ := d.succ ++ [[]]
  pred := d.pred ++ [[]]
  ord := d.ord ++ [idx]
  indexOf := Function.update d.indexOf addr (some idx)
  edges := d.edges

/-- The index of an address, which becomes a new isolated node if it has none. The
new index is the number of nodes, cast to 32 bits. -/
def getOrInsert (addr : A) : ℕ × DepDag A :=
  match d.indexOf addr with
  | some idx => (idx, d)
  | none =>
    let idx := d.nodes.length % 2 ^ 32
    (idx, d.insertNode addr idx)

/-- Appending an edge to the adjacency lists and to the membership index. -/
def commitEdge (f t : ℕ) : DepDag A :=
  { d with
    succ := d.succ.modify f (· ++ [t])
    pred := d.pred.modify t (· ++ [f])
    edges := insert (edgeKey f t) d.edges }

/-- The successors of an index. -/
def succOf (i : ℕ) : List ℕ := d.succ.getD i []

/-- The predecessors of an index. -/
def predOf (i : ℕ) : List ℕ := d.pred.getD i []

/-- The position of an index. -/
def ordOf (i : ℕ) : ℕ := d.ord.getD i 0

/-- The forward half of the search: what `t` reaches without going beyond the
position of `f`, or `none` as soon as an edge into `f` is met. -/
def deltaPlus (f t : ℕ) : Option (List ℕ) :=
  (run d.succOf (· == f) (fun w => decide (d.ordOf w ≤ d.ordOf f)) d.ord.length
    (start t)).map found

/-- The backward half: what reaches `f` without going below the position of `t`.
Nothing stops this search, so it always has a result. -/
def deltaMinus (f t : ℕ) : List ℕ :=
  ((run d.predOf (fun _ => false) (fun w => decide (d.ordOf t ≤ d.ordOf w)) d.ord.length
    (start f)).map found).getD []

/-- The two regions change places: each is sorted by position, and their positions
together are dealt out again, first to the backward region and then to the
forward one. -/
def reorder (deltaMinus deltaPlus : List ℕ) : DepDag A :=
  let deltaMinus := deltaMinus.insertionSort fun x y => d.ordOf x ≤ d.ordOf y
  let deltaPlus := deltaPlus.insertionSort fun x y => d.ordOf x ≤ d.ordOf y
  { d with ord := renumber d.ord deltaMinus deltaPlus 0 }

/-- The part of `add_dep` that follows the two look-ups. -/
def addEdge (fromAddr toAddr : A) (f t : ℕ) :
    Except (CycleError A) Unit × DepDag A :=
  if f = t then (.error ⟨fromAddr, toAddr⟩, d)
  else if edgeKey f t ∈ d.edges then (.ok (), d)
  else if d.ordOf f < d.ordOf t then (.ok (), d.commitEdge f t)
  else
    -- The order is violated: the affected region lies between the two positions.
    match d.deltaPlus f t with
    | none => (.error ⟨fromAddr, toAddr⟩, d)
    | some plus => (.ok (), (d.reorder (d.deltaMinus f t) plus).commitEdge f t)

/-- **`add_dep`**: both ends get a node, and the edge is committed unless it closes
a cycle. -/
def addDep (fromAddr toAddr : A) : Except (CycleError A) Unit × DepDag A :=
  let (f, d) := d.getOrInsert fromAddr
  let (t, d) := d.getOrInsert toAddr
  d.addEdge fromAddr toAddr f t

/-- The graph after a sequence of calls. -/
def run (calls : List (A × A)) : DepDag A :=
  calls.foldl (fun d c => (d.addDep c.1 c.2).2) new

end DepDag

end Heph

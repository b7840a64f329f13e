/-!
# Colouring graphs

A graph has nodes `0, 1, …` and a list of neighbours for each. A colouring is
proper when neighbours differ.

A first colouring is greedy. It always takes the node whose neighbours show the
most colours, among those the one with the most neighbours, among those the
least, and gives it the least colour that its neighbours leave free.

Then fewer and fewer colours are tried by search. Nodes are taken in a fixed
order, and colours in increasing order with at most one that no earlier node
has, since the names of colours do not matter. An attempt is given up after a
fixed number of steps, so a smaller colouring may be missed.
-/

namespace JavaMinus.Registers

/-- The neighbours of each node. -/
abbrev Neighbours := Array (List Nat)

/-- The colour of each node that has one. -/
abbrev Coloring := Array (Option Nat)

/-! ## The greedy colouring -/

/-- A node in the course of the greedy colouring: its colour, the colours that its
neighbours show, and how many neighbours it has. -/
structure Node where
  color : Option Nat := none
  seen : List Nat := []
  degree : Nat
  deriving Repr, Inhabited

/-- A node comes before another, wherever they stand. -/
def Node.precedes (a b : Node) : Bool :=
  b.seen.length < a.seen.length || (a.seen.length = b.seen.length && b.degree < a.degree)

/-- The first node without colour that no other precedes. -/
def pickFrom (best : Option (Nat × Node)) : List (Node × Nat) → Option (Nat × Node)
  | [] => best
  | (node, i) :: rest =>
    match node.color, best with
    | some _, _ => pickFrom best rest
    | none, none => pickFrom (some (i, node)) rest
    | none, some (j, b) =>
      if node.precedes b then pickFrom (some (i, node)) rest else pickFrom (some (j, b)) rest

/-- The node to colour next. -/
def pick (nodes : Array Node) : Option (Nat × Node) := pickFrom none nodes.toList.zipIdx

/-- The least colour that is not in a list. -/
def leastFree (seen : List Nat) : Nat :=
  ((List.range seen.length).find? fun c => c ∉ seen).getD seen.length

/-- A neighbour takes a colour. -/
def Node.observe (c : Nat) (n : Node) : Node :=
  if n.color.isNone ∧ c ∉ n.seen then { n with seen := c :: n.seen } else n

/-- Colour a node, and let its neighbours see it. -/
def paint (g : Neighbours) (nodes : Array Node) (v : Nat) (c : Nat) : Array Node :=
  (g.getD v []).foldl (fun ns u => ns.modify u (Node.observe c))
    (nodes.modify v fun n => { n with color := some c })

/-- Colour the next `steps` nodes. -/
def greedySteps (g : Neighbours) : Nat → Array Node → Array Node
  | 0, nodes => nodes
  | steps + 1, nodes =>
    match pick nodes with
    | none => nodes
    | some (v, n) => greedySteps g steps (paint g nodes v (leastFree n.seen))

/-- The greedy colouring. -/
def greedy (g : Neighbours) : Coloring :=
  (greedySteps g g.size (g.map fun ns => { degree := ns.length })).map (·.color)

/-- One more than the greatest colour. -/
def colorCount (col : Coloring) : Nat :=
  col.foldl (fun n c => match c with
    | some c => max n (c + 1)
    | none => n) 0

/-- The nodes by colour, and by number among those of one colour. -/
def byColor (col : Coloring) : List Nat :=
  (List.range (colorCount col)).flatMap fun c =>
    (List.range col.size).filter fun v => col.getD v none = some c

/-! ## The search for fewer colours -/

/-- No neighbour of a node has a colour. -/
def isFree (g : Neighbours) (col : Coloring) (v c : Nat) : Bool :=
  (g.getD v []).all fun u => col.getD u none != some c

/-- Try choices in order until one succeeds. Each attempt leaves a number of steps
for the next. -/
def firstSuccess {α : Type} (attempt : Nat → Nat → Option α × Nat) :
    List Nat → Nat → Option α × Nat
  | [], steps => (none, steps)
  | c :: rest, steps =>
    match attempt c steps with
    | (some r, left) => (some r, left)
    | (none, left) => firstSuccess attempt rest left

/-- Extend a colouring that uses the first `used` colours to the listed nodes,
with `k` colours and a number of steps. The result is a colouring, if one was
found, and the steps that are left. -/
def extend (g : Neighbours) (k : Nat) :
    List Nat → Nat → Coloring → Nat → Option Coloring × Nat
  | [], _, col, steps => (some col, steps)
  | _ :: _, _, _, 0 => (none, 0)
  | v :: rest, used, col, steps + 1 =>
    firstSuccess
      (fun c left =>
        extend g k rest (if c = used then used + 1 else used) (col.setIfInBounds v (some c)) left)
      ((List.range (min k (used + 1))).filter (isFree g col v)) steps

/-- The number of steps after which an attempt is given up. -/
def searchBudget : Nat := 200000

/-- A colouring with `k` colours that takes the nodes in the given order. -/
def search (g : Neighbours) (order : List Nat) (k : Nat) : Option Coloring :=
  (extend g k order 0 (Array.replicate g.size none) searchBudget).1

/-- A colouring with `n` colours, improved as long as an attempt with one colour
less succeeds. -/
def tighten (attempt : Nat → Option Coloring) : Nat → Coloring → Coloring × Nat
  | 0, col => (col, 0)
  | 1, col => (col, 1)
  | k + 2, col =>
    match attempt (k + 1) with
    | some better => tighten attempt (k + 1) better
    | none => (col, k + 2)

/-- A colouring of a graph and the number of its colours. -/
def colorGraph (g : Neighbours) : Coloring × Nat :=
  let col := greedy g
  tighten (search g (byColor col)) (colorCount col) col

end JavaMinus.Registers

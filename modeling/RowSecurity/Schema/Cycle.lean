import RowSecurity.Schema.Graph

-- Cycles of relationships by a depth-first search over positions. The search is a machine with an
-- agenda, and each step takes one task off it.
namespace RowSecurity

inductive Mark where
  | unvisited | onPath | done
deriving DecidableEq

inductive SearchTask where
  | start (node : Nat)
  | follow (target : Nat)
  | leave (node : Nat)
deriving DecidableEq

-- The path runs from where the search started to the node it is in. A cycle is found
-- when an edge leads back onto the path; it is kept with its least position first.
structure Search where
  marks : List Mark
  path : List Nat
  found : List (List Nat)
  agenda : List SearchTask

namespace Search

def mark (search : Search) (node : Nat) : Mark := (search.marks[node]?).getD .done

def rotateToLeast (cycle : List Nat) : List Nat :=
  match cycle.min? with
  | none => cycle
  | some least => cycle.dropWhile (· != least) ++ cycle.takeWhile (· != least)

def closing (search : Search) (target : Nat) : List (List Nat) :=
  match search.path.dropWhile (· != target) with
  | [] => search.found
  | cycle =>
      let rotated := rotateToLeast cycle
      if rotated ∈ search.found then search.found else search.found ++ [rotated]

def enter (targets : Nat → List Nat) (search : Search) (node : Nat) : Search :=
  { search with
    marks := search.marks.set node .onPath
    path := search.path ++ [node]
    agenda := (targets node).map .follow ++ .leave node :: search.agenda }

def step (targets : Nat → List Nat) (search : Search) : Search :=
  match search.agenda with
  | [] => search
  | .start node :: rest =>
      let search := { search with agenda := rest }
      if search.mark node = .unvisited then enter targets search node else search
  | .follow target :: rest =>
      let search := { search with agenda := rest }
      match search.mark target with
      | .unvisited => enter targets search target
      | .onPath => { search with found := search.closing target }
      | .done => search
  | .leave node :: rest =>
      { search with
        marks := search.marks.set node .done
        path := search.path.dropLast
        agenda := rest }

def run (targets : Nat → List Nat) : Nat → Search → Search
  | 0, search => search
  | steps + 1, search => run targets steps (step targets search)

def initial (count : Nat) : Search :=
  ⟨List.replicate count .unvisited, [], [], (List.range count).map .start⟩

end Search

namespace Graph

def targets (graph : Graph) (node : Nat) : List Nat :=
  match graph.resources[node]? with
  | none => []
  | some resource => resource.relationships.filterMap fun edge => graph.position? edge.target

-- Each node is a task to start from and a task to leave, and each edge is followed
-- once, so this many steps empty the agenda.
def searchLength (graph : Graph) : Nat :=
  2 * graph.resources.length + graph.relationships.length

def search (graph : Graph) : Search :=
  Search.run graph.targets graph.searchLength (Search.initial graph.resources.length)

-- The cycles as identifiers: in [a, b] there is an edge from a to b and one back.
def cycles (graph : Graph) : List (List String) :=
  graph.search.found.map fun cycle =>
    cycle.filterMap fun node => (graph.resources[node]?).map Resource.id

end Graph
end RowSecurity

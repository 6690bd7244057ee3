import RowSecurity.Schema.Graph

-- Declarations that are applied together or not at all.
namespace RowSecurity

structure Batch where
  resources : List (String × List Column)
  relationships : List Relationship

namespace Batch

def empty : Batch := ⟨[], []⟩

def resource (batch : Batch) (id : String) (columns : List Column) : Batch :=
  { batch with resources := batch.resources ++ [(id, columns)] }

def relationship (batch : Batch) (edge : Relationship) : Batch :=
  { batch with relationships := batch.relationships ++ [edge] }

end Batch

namespace Graph

def addEach (add : Graph → α → Graph × Except SchemaError Unit) (graph : Graph) :
    List α → Graph × Except SchemaError Unit
  | [] => (graph, .ok ())
  | item :: rest =>
      match add graph item with
      | (next, .ok ()) => addEach add next rest
      | refused => refused

-- Every resource of the batch is declared before its first relationship, so an edge
-- may point at any of them.
def stage (graph : Graph) (batch : Batch) : Graph × Except SchemaError Unit :=
  match graph.addEach (fun graph new => graph.addResource new.1 new.2) batch.resources with
  | (declared, .ok ()) => declared.addEach addRelationship batch.relationships
  | refused => refused

def addBatch (graph : Graph) (batch : Batch) : Graph × Except SchemaError Unit :=
  match graph.stage batch with
  | (staged, .ok ()) => (staged, .ok ())
  | (_, .error error) => (graph, .error error)

def apply (graph : Graph) (batch : Batch) : Except SchemaError Graph :=
  outcome (graph.addBatch batch)

end Graph
end RowSecurity

import Std.Data.TreeMap
import RowSecurity.Json.Basic
import RowSecurity.Schema.Error
import RowSecurity.Text

-- The declared data model. A relationship is checked when it is declared, against what is declared
-- by then.
namespace RowSecurity

inductive DataType where
  | serial | integer | bigInt | text | uuid | boolean | timestamp | json
deriving DecidableEq

namespace DataType

def label : DataType → String
  | .serial => "serial"
  | .integer => "integer"
  | .bigInt => "bigint"
  | .text => "text"
  | .uuid => "uuid"
  | .boolean => "boolean"
  | .timestamp => "timestamp"
  | .json => "json"

def key : DataType → String
  | .bigInt => "big_int"
  | other => other.label

instance : Json.Stored DataType :=
  ⟨[.serial, .integer, .bigInt, .text, .uuid, .boolean, .timestamp, .json], key,
    fun word => by cases word <;> decide⟩

def ofName? (name : String) : Option DataType :=
  match Text.fold name with
  | "serial" => some .serial
  | "integer" | "int" | "int4" => some .integer
  | "bigint" | "int8" => some .bigInt
  | "text" | "string" | "varchar" => some .text
  | "uuid" => some .uuid
  | "boolean" | "bool" => some .boolean
  | "timestamp" | "timestamptz" => some .timestamp
  | "json" | "jsonb" => some .json
  | _ => none

end DataType

structure Column where
  name : String
  dataType : DataType
  nullable : Bool
  isPrimaryKey : Bool
  isUnique : Bool
deriving DecidableEq

namespace Column

def plain (name : String) (dataType : DataType) : Column :=
  ⟨name, dataType, true, false, false⟩

inductive Modifier where
  | primaryKey | notNull | unique
deriving DecidableEq

-- A primary key is never null, so that modifier takes nullability away as well.
def modify (column : Column) : Modifier → Column
  | .primaryKey => { column with isPrimaryKey := true, nullable := false }
  | .notNull => { column with nullable := false }
  | .unique => { column with isUnique := true }

def build (name : String) (dataType : DataType) (modifiers : List Modifier) : Column :=
  modifiers.foldl modify (plain name dataType)

def toJson (column : Column) : Json :=
  .object [("name", .string column.name), ("data_type", Json.ofWord column.dataType),
    ("nullable", .bool column.nullable), ("is_primary_key", .bool column.isPrimaryKey),
    ("unique", .bool column.isUnique)]

-- A stored column states each flag apart or leaves it to its default; nothing
-- here ties one flag to another.
def ofJson? (value : Json) : Option Column := do
  let record ← value.record? 5
  let name ← record.required 0 "name" Json.string?
  let dataType ← record.required 1 "data_type" Json.word?
  let nullable ← record.defaulted 2 "nullable" true Json.bool?
  let isPrimaryKey ← record.defaulted 3 "is_primary_key" false Json.bool?
  let isUnique ← record.defaulted 4 "unique" false Json.bool?
  return ⟨name, dataType, nullable, isPrimaryKey, isUnique⟩

end Column

structure Relationship where
  source : String
  column : String
  target : String
deriving DecidableEq

namespace Relationship

def toJson (edge : Relationship) : Json :=
  .object [("from", .string edge.source), ("attribute", .string edge.column),
    ("to", .string edge.target)]

def ofJson? (value : Json) : Option Relationship := do
  let record ← value.record? 3
  let source ← record.required 0 "from" Json.string?
  let column ← record.required 1 "attribute" Json.string?
  let target ← record.required 2 "to" Json.string?
  return ⟨source, column, target⟩

end Relationship

structure Resource where
  id : String
  columns : List Column
  relationships : List Relationship
deriving DecidableEq

namespace Resource

def column? (resource : Resource) (name : String) : Option Column :=
  resource.columns.find? (·.name == name)

def hasColumn (resource : Resource) (name : String) : Bool :=
  (resource.column? name).isSome

-- The primary key, if it is a single column. A key of several columns is
-- nothing that one column of another resource could reference.
def primaryKey? (resource : Resource) : Option Column :=
  match resource.columns.filter (·.isPrimaryKey) with
  | [key] => some key
  | _ => none

def relationship? (resource : Resource) (column : String) : Option Relationship :=
  resource.relationships.find? (·.column == column)

def relationshipsTo (resource : Resource) (target : String) : List Relationship :=
  resource.relationships.filter (·.target == target)

def addRelationship (resource : Resource) (edge : Relationship) : Resource :=
  { resource with relationships := resource.relationships ++ [edge] }

def toJson (resource : Resource) : Json :=
  .object [("id", .string resource.id),
    ("attributes", .array (resource.columns.map Column.toJson)),
    ("relationships", .array (resource.relationships.map Relationship.toJson))]

def ofJson? (value : Json) : Option Resource := do
  let record ← value.record? 3
  let id ← record.required 0 "id" Json.string?
  let columns ← record.required 1 "attributes" (Json.listOf? Column.ofJson?)
  let relationships ← record.required 2 "relationships" (Json.listOf? Relationship.ofJson?)
  return ⟨id, columns, relationships⟩

end Resource

structure Graph where
  resources : List Resource
  index : Std.TreeMap String Nat

namespace Graph

def empty : Graph := ⟨[], .empty⟩

def position? (graph : Graph) (id : String) : Option Nat := graph.index[id]?

def contains (graph : Graph) (id : String) : Bool := graph.index.contains id

def resource? (graph : Graph) (id : String) : Option Resource :=
  (graph.position? id).bind fun position => graph.resources[position]?

def resolve (graph : Graph) (id : String) : Except SchemaError Resource :=
  match graph.resource? id with
  | some resource => .ok resource
  | none => .error (.unknownResource id)

def resolveColumn (graph : Graph) (id column : String) : Except SchemaError Column :=
  match graph.resource? id with
  | none => .error (.unknownResource id)
  | some resource =>
      match resource.column? column with
      | some found => .ok found
      | none => .error (.unknownColumn id column)

def relationship? (graph : Graph) (source column : String) : Option Relationship :=
  (graph.resource? source).bind fun resource => resource.relationship? column

def relationships (graph : Graph) : List Relationship :=
  graph.resources.flatMap Resource.relationships

def columnFault? (resource : String) (used : List String) :
    List Column → Option SchemaError
  | [] => none
  | column :: rest =>
      if !Text.isName column.name then some (.invalidName .column column.name)
      else if column.name ∈ used then some (.duplicateColumn resource column.name)
      else columnFault? resource (column.name :: used) rest

def addResource (graph : Graph) (id : String) (columns : List Column) :
    Graph × Except SchemaError Unit :=
  if !Text.isName id then (graph, .error (.invalidName .resource id))
  else if graph.contains id then (graph, .error (.duplicateResource id))
  else match columnFault? id [] columns with
    | some fault => (graph, .error fault)
    | none =>
        (⟨graph.resources ++ [⟨id, columns, []⟩],
          graph.index.insert id graph.resources.length⟩, .ok ())

-- Declares that a column of the source references the primary key of the target.
-- What is wrong with the source is told before what is wrong with the target.
def addRelationship (graph : Graph) (edge : Relationship) : Graph × Except SchemaError Unit :=
  match graph.position? edge.source, graph.resource? edge.source with
  | some position, some source =>
      if !source.hasColumn edge.column then
        (graph, .error (.unknownColumn edge.source edge.column))
      else match source.relationship? edge.column with
        | some held =>
            (graph, .error (.duplicateRelationship edge.source edge.column held.target))
        | none =>
            match graph.resource? edge.target with
            | none => (graph, .error (.danglingRelationship edge.source edge.column edge.target))
            | some target =>
                if target.primaryKey?.isNone then
                  (graph, .error (.missingPrimaryKey edge.source edge.column edge.target))
                else
                  ({ graph with
                    resources := graph.resources.modify position (·.addRelationship edge) },
                    .ok ())
  | _, _ => (graph, .error (.unknownResource edge.source))

def declareResource (graph : Graph) (id : String) (columns : List Column) :
    Except SchemaError Graph :=
  outcome (graph.addResource id columns)

def declareRelationship (graph : Graph) (edge : Relationship) : Except SchemaError Graph :=
  outcome (graph.addRelationship edge)

end Graph
end RowSecurity

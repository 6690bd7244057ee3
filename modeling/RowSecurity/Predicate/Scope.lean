import RowSecurity.Policy.Error
import RowSecurity.Schema.Graph

-- Which predicates are valid in a graph, and the scopes that make none but valid ones.
namespace RowSecurity

def Membership.validate (m : Membership) (graph : Graph) : Except PolicyError Unit := do
  let _ ← PolicyError.ofSchema (graph.resolveColumn m.linkResource m.identityKey)
  let _ ← PolicyError.ofSchema (graph.resolveColumn m.linkResource m.linkKey)
  match graph.relationship? m.linkResource m.linkKey with
  | none => .error (.schema (.missingRelationship m.linkResource m.linkKey))
  | some link =>
      let resource ← PolicyError.ofSchema (graph.resolve m.resource)
      match resource.column? m.rowKey with
      | none => .error (.schema (.unknownColumn m.resource m.rowKey))
      | some rowKey =>
          let pointsAtTarget := match resource.relationship? rowKey.name with
            | some edge => edge.target == link.target
            | none => false
          if pointsAtTarget || (resource.id == link.target && rowKey.isPrimaryKey) then .ok ()
          else .error (.invalidPredicate (.unjoinedRowKey m link.target))

namespace Predicate

-- Operands are checked in order, each before its subject is compared with the first
-- subject among them.
mutual
def validate (graph : Graph) : Predicate → Except PolicyError Unit
  | .literal _ => .ok ()
  | .ownsRow o =>
      match graph.resolveColumn o.resource o.column with
      | .ok _ => .ok ()
      | .error error => .error (.schema error)
  | .memberOfJoin m => m.validate graph
  | .all [] | .any [] => .error (.invalidPredicate .noOperands)
  | .all (p :: rest) => validateOperands graph none (p :: rest)
  | .any (p :: rest) => validateOperands graph none (p :: rest)
  | .not operand => validate graph operand
termination_by structural p => p

def validateOperands (graph : Graph) (subject : Option String) :
    List Predicate → Except PolicyError Unit
  | [] => .ok ()
  | p :: rest =>
      match validate graph p with
      | .error error => .error error
      | .ok () =>
          match subject, p.subject? with
          | some expected, some found =>
              if expected ≠ found then .error (.invalidPredicate (.mixedSubjects expected found))
              else validateOperands graph (some expected) rest
          | some expected, none => validateOperands graph (some expected) rest
          | none, found => validateOperands graph found rest
termination_by structural operands => operands
end

end Predicate

structure RowScope where
  graph : Graph
  resource : Resource

structure LinkSide where
  resource : String
  linkKey : String
  identityKey : String
deriving DecidableEq

def Resource.requireColumn (resource : Resource) (column : String) : Except PolicyError Unit :=
  if resource.hasColumn column then .ok ()
  else .error (.schema (.unknownColumn resource.id column))

namespace RowScope

def of (graph : Graph) (id : String) : Except PolicyError RowScope :=
  match graph.resolve id with
  | .ok resource => .ok ⟨graph, resource⟩
  | .error error => .error (.schema error)

def ownsRow (scope : RowScope) (column : String) : Except PolicyError Predicate := do
  scope.resource.requireColumn column
  return .ownsRow ⟨scope.resource.id, column⟩

def linkTarget (scope : RowScope) (link : LinkSide) : Except PolicyError String := do
  let resource ← PolicyError.ofSchema (scope.graph.resolve link.resource)
  resource.requireColumn link.linkKey
  resource.requireColumn link.identityKey
  match resource.relationship? link.linkKey with
  | some edge => return edge.target
  | none => throw (.schema (.missingRelationship link.resource link.linkKey))

-- The column by which rows of the scope are joined: their one key to the target, or
-- their own primary key when they are rows of the target and have no key to it.
def rowKey (scope : RowScope) (target : String) : Except PolicyError String :=
  match scope.resource.relationshipsTo target with
  | [only] => .ok only.column
  | first :: second :: _ =>
      .error (.invalidPredicate
        (.ambiguousRowKey scope.resource.id target first.column second.column))
  | [] =>
      match scope.resource.primaryKey? with
      | some key =>
          if scope.resource.id == target then .ok key.name
          else .error (.schema (.noRelationshipPath scope.resource.id target))
      | none => .error (.schema (.noRelationshipPath scope.resource.id target))

def membership (scope : RowScope) (rowKey : String) (link : LinkSide) : Membership :=
  ⟨scope.resource.id, rowKey, link.resource, link.linkKey, link.identityKey⟩

def memberOfJoin (scope : RowScope) (link : LinkSide) : Except PolicyError Predicate := do
  let target ← scope.linkTarget link
  let key ← scope.rowKey target
  return .memberOfJoin (scope.membership key link)

def memberOfJoinOn (scope : RowScope) (rowKey : String) (link : LinkSide) :
    Except PolicyError Predicate := do
  let _ ← scope.linkTarget link
  scope.resource.requireColumn rowKey
  let predicate := Predicate.memberOfJoin (scope.membership rowKey link)
  predicate.validate scope.graph
  return predicate

end RowScope
end RowSecurity

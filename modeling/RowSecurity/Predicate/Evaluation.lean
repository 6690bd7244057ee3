import Std.Data.TreeMap
import RowSecurity.Json.Basic
import RowSecurity.Predicate.Basic

-- What a predicate says of a row. The third truth value is for comparisons with a null.
namespace RowSecurity

inductive Truth where
  | no | unknown | yes
deriving DecidableEq

namespace Truth

def ofBool (value : Bool) : Truth := if value then .yes else .no

def not : Truth → Truth
  | .no => .yes
  | .unknown => .unknown
  | .yes => .no

def holds (truth : Truth) : Bool := truth == .yes

theorem not_not (truth : Truth) : truth.not.not = truth := by cases truth <;> rfl

theorem holds_iff (truth : Truth) : truth.holds = true ↔ truth = .yes := by
  cases truth <;> decide

end Truth

structure Row where
  members : List (String × Json)

namespace Row

def empty : Row := ⟨[]⟩

def ofJson : Json → Row
  | .object members => ⟨members⟩
  | _ => empty

def toJson (row : Row) : Json := .object row.members

def cell? (row : Row) (column : String) : Option Json :=
  (Json.member? row.members column).filter fun value => !value.isNull

end Row

structure RowStore where
  tables : Std.TreeMap String (List Row)

namespace RowStore

def empty : RowStore := ⟨.empty⟩

def rows (store : RowStore) (resource : String) : List Row :=
  store.tables.getD resource []

def insert (store : RowStore) (resource : String) (row : Json) : RowStore :=
  ⟨store.tables.insert resource (store.rows resource ++ [Row.ofJson row])⟩

def isEmpty (store : RowStore) : Bool :=
  store.tables.toList.all fun table => table.2.isEmpty

end RowStore

-- Two integers are compared exactly when one 64-bit type holds both. Every other
-- pair of numbers is compared as binary64, so 10 equals 10.0.
def Number.sqlEqual (a b : Number) : Bool :=
  match a.asSigned?, b.asSigned? with
  | some a, some b => a == b
  | _, _ =>
      match a.asUnsigned?, b.asUnsigned? with
      | some a, some b => a == b
      | _, _ =>
          match a.toBinary64?, b.toBinary64? with
          | some a, some b => a.same b
          | _, _ => false

-- Values that are not both numbers are equal as JSON, also where numbers are inside.
def Json.sqlEqual : Json → Json → Bool
  | .number a, .number b => a.sqlEqual b
  | a, b => a.same b

structure Request where
  principal : Option Json
  rows : String → List Row

namespace Request

def anonymous (rows : String → List Row) : Request := ⟨none, rows⟩

def byPrincipal (principal : Json) (rows : String → List Row) : Request :=
  ⟨(some principal).filter fun value => !value.isNull, rows⟩

end Request

def Ownership.truth (o : Ownership) (row : Row) (request : Request) : Truth :=
  match request.principal, row.cell? o.column with
  | some principal, some owner => .ofBool (owner.sqlEqual principal)
  | _, _ => .unknown

def Membership.joins (m : Membership) (key : Json) (link : Row) : Bool :=
  match link.cell? m.linkKey with
  | some held => held.sqlEqual key
  | none => false

def Membership.members (m : Membership) (row : Row) (request : Request) : List (Option Json) :=
  match row.cell? m.rowKey with
  | none => []
  | some key =>
      ((request.rows m.linkResource).filter (m.joins key)).map fun link =>
        link.cell? m.identityKey

def isIdentity (principal : Json) : Option Json → Bool
  | some identity => identity.sqlEqual principal
  | none => false

def Membership.truth (m : Membership) (row : Row) (request : Request) : Truth :=
  match m.members row request with
  | [] => .no
  | members =>
      match request.principal with
      | none => .unknown
      | some principal =>
          if members.any (isIdentity principal) then .yes
          else if members.any Option.isNone then .unknown
          else .no

namespace Predicate

mutual
def truth (row : Row) (request : Request) : Predicate → Truth
  | .literal value => .ofBool value
  | .ownsRow ownership => ownership.truth row request
  | .memberOfJoin membership => membership.truth row request
  | .all operands => truthOfAll row request .yes operands
  | .any operands => truthOfAny row request .no operands
  | .not operand => (truth row request operand).not
termination_by structural p => p

def truthOfAll (row : Row) (request : Request) (sofar : Truth) : List Predicate → Truth
  | [] => sofar
  | p :: rest =>
      match truth row request p with
      | .no => .no
      | .unknown => truthOfAll row request .unknown rest
      | .yes => truthOfAll row request sofar rest
termination_by structural operands => operands

def truthOfAny (row : Row) (request : Request) (sofar : Truth) : List Predicate → Truth
  | [] => sofar
  | p :: rest =>
      match truth row request p with
      | .yes => .yes
      | .unknown => truthOfAny row request .unknown rest
      | .no => truthOfAny row request sofar rest
termination_by structural operands => operands
end

def holds (p : Predicate) (row : Row) (request : Request) : Bool :=
  (p.truth row request).holds

end Predicate
end RowSecurity

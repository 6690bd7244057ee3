import RowSecurity.Install.Dialect
import RowSecurity.Role.Registry
import RowSecurity.Rule.Basic

-- Install plans: each table once, then a policy for each rule. The database tells policies of a
-- table apart by as much of their names as it stores, so a plan in which two rules would share a
-- stored name on a stored table is refused.
namespace RowSecurity.Install

structure TableSetup where
  resource : String
  table : String
  force : Bool
deriving DecidableEq

namespace TableSetup

def statements (setup : TableSetup) : List String :=
  s!"ALTER TABLE {setup.table} ENABLE ROW LEVEL SECURITY;" ::
    if setup.force then [s!"ALTER TABLE {setup.table} FORCE ROW LEVEL SECURITY;"] else []

def toJson (setup : TableSetup) : Json :=
  .object [("resource", .string setup.resource), ("table", .string setup.table),
    ("force", .bool setup.force)]

end TableSetup

def actionWord : Action → String
  | .select => "SELECT"
  | .insert => "INSERT"
  | .update => "UPDATE"
  | .delete => "DELETE"

def clauseWord : Clause → String
  | .using => "USING"
  | .check => "WITH CHECK"

-- Creates the policy of one rule. The name is kept in full; the database cuts it.
structure PolicyStatement where
  name : String
  resource : String
  table : String
  action : Action
  role : String
  principal : String
  clause : Clause
  expression : String
deriving DecidableEq

namespace PolicyStatement

def sql (policy : PolicyStatement) : String :=
  "CREATE POLICY " ++ quoteIdentifier policy.name ++ " ON " ++ policy.table ++
    " AS PERMISSIVE FOR " ++ actionWord policy.action ++ " TO " ++
    quoteIdentifier policy.principal ++ " " ++ clauseWord policy.clause ++ " " ++
    grouped policy.expression ++ ";"

def toJson (policy : PolicyStatement) : Json :=
  .object [("name", .string policy.name), ("resource", .string policy.resource),
    ("table", .string policy.table), ("action", Json.ofWord policy.action),
    ("role", .string policy.role), ("principal", .string policy.principal),
    ("clause", Json.ofWord policy.clause), ("expression", .string policy.expression)]

end PolicyStatement

structure Plan where
  tables : List TableSetup
  policies : List PolicyStatement
deriving DecidableEq

namespace Plan

def empty : Plan := ⟨[], []⟩

def policy? (plan : Plan) (resource name : String) : Option PolicyStatement :=
  plan.policies.find? fun policy => policy.resource == resource && policy.name == name

def statements (plan : Plan) : List String :=
  plan.tables.flatMap TableSetup.statements ++ plan.policies.map PolicyStatement.sql

def script (plan : Plan) : String :=
  let lines := "\n".intercalate plan.statements
  if lines = "" then "" else lines ++ "\n"

def isEmpty (plan : Plan) : Bool := plan.policies.isEmpty

def toJson (plan : Plan) : Json :=
  .object [("tables", .array (plan.tables.map TableSetup.toJson)),
    ("policies", .array (plan.policies.map PolicyStatement.toJson))]

end Plan

structure Slot where
  resource : String
  name : String
deriving DecidableEq

structure Planning where
  taken : List (Slot × String)
  plan : Plan

namespace Settings

def policyName (settings : Settings) (rule : Rule) : String :=
  settings.naming.policyName rule.resource rule.action.label rule.role

def slot (settings : Settings) (rule : Rule) : Slot :=
  ⟨truncateIdentifier rule.resource, truncateIdentifier (settings.policyName rule)⟩

def tableSetup (settings : Settings) (resource : String) : TableSetup :=
  ⟨resource, settings.table resource, settings.force⟩

def policyStatement (settings : Settings) (rule : Rule) (principal : String) : PolicyStatement :=
  ⟨settings.policyName rule, rule.resource, settings.table rule.resource, rule.action, rule.role,
    principal, rule.clause, settings.condition rule.predicate⟩

def addRule (settings : Settings) (roles : Registry) (sofar : Planning) (rule : Rule) :
    Except InstallError Planning :=
  match roles.role? rule.role with
  | none => .error (.unknownPrincipal rule.resource rule.role)
  | some role =>
      let slot := settings.slot rule
      match sofar.taken.lookup slot with
      | some firstRole =>
          .error (.nameCollision slot.name rule.resource rule.action firstRole rule.role)
      | none =>
          let tables :=
            if sofar.plan.tables.any (·.resource == rule.resource) then sofar.plan.tables
            else sofar.plan.tables ++ [settings.tableSetup rule.resource]
          .ok ⟨sofar.taken ++ [(slot, rule.role)],
            ⟨tables, sofar.plan.policies ++ [settings.policyStatement rule role.principal]⟩⟩

def plan (settings : Settings) (rules : List Rule) (roles : Registry) : Except InstallError Plan :=
  match rules.foldlM (settings.addRule roles) ⟨[], .empty⟩ with
  | .ok done => .ok done.plan
  | .error error => .error error

def planEvents (settings : Settings) : Except InstallError Plan → List Event
  | .ok plan =>
      [⟨.info, "Install plan built",
        [("tables", .count plan.tables.length), ("policies", .count plan.policies.length),
          ("naming", .text settings.naming.label)]⟩]
  | .error (.nameCollision name resource _ firstRole secondRole) =>
      [⟨.warn, "Policy name collision",
        [("policy", .text name), ("resource", .text resource), ("first_role", .text firstRole),
          ("second_role", .text secondRole)]⟩]
  | .error _ => []

end Settings
end RowSecurity.Install

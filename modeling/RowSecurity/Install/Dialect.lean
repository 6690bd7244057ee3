import RowSecurity.Json.Basic
import RowSecurity.Policy.Error
import RowSecurity.Predicate.Basic
import RowSecurity.Text

-- Settings of an installation in PostgreSQL, identifiers as they are quoted and stored, and
-- conditions.
namespace RowSecurity

inductive InstallError where
  | nameCollision (name resource : String) (action : Action) (firstRole secondRole : String)
  | unknownPrincipal (resource role : String)
  | policy (error : PolicyError)
  | setting (error : SettingError)
deriving DecidableEq

namespace InstallError

def message : InstallError → String
  | nameCollision name resource _ firstRole secondRole =>
      s!"policy name '{name}' on '{resource}' is used by roles '{firstRole}' and '{secondRole}'"
  | unknownPrincipal resource role =>
      s!"no database principal for role '{role}' (rule on '{resource}')"
  | policy error => error.message
  | setting error => error.message

def code : InstallError → String
  | nameCollision .. => "POLICY_NAME_COLLISION"
  | unknownPrincipal .. => "UNKNOWN_PRINCIPAL"
  | policy error => error.code
  | setting error => error.code

def category : InstallError → ErrorCategory
  | nameCollision .. => .conflict
  | unknownPrincipal .. => .config
  | policy error => error.category
  | setting error => error.category

end InstallError
end RowSecurity

namespace RowSecurity.Install

inductive Naming where
  | resourceAction | resourceActionRole
deriving DecidableEq

namespace Naming

def label : Naming → String
  | .resourceAction => "resource_action"
  | .resourceActionRole => "resource_action_role"

instance : Json.Stored Naming :=
  ⟨[.resourceAction, .resourceActionRole], label, fun word => by cases word <;> decide⟩

def underscored (text : String) : String :=
  String.ofList (text.toList.map fun c => if c = '-' then '_' else c)

def ofName? (name : String) : Option Naming :=
  match underscored (Text.fold (Text.trim name)) with
  | "resource_action" => some .resourceAction
  | "resource_action_role" => some .resourceActionRole
  | _ => none

def policyName (naming : Naming) (resource action role : String) : String :=
  match naming with
  | .resourceAction => s!"{resource}-{action}"
  | .resourceActionRole => s!"{resource}-{action}-{role}"

end Naming

-- The identity function is SQL for the acting identity. Forcing applies the policies
-- to the owner of a table as well.
structure Settings where
  identityFunction : String
  schema : Option String
  naming : Naming
  force : Bool
deriving DecidableEq

namespace Settings

def default : Settings := ⟨"auth.user_id()", none, .resourceAction, false⟩

def identityKey : String := "ROWPOLICY_PG_IDENTITY_FN"

def validate (settings : Settings) : Except SettingError Unit :=
  if Text.isBlankText settings.identityFunction then .error ⟨identityKey, .blankIdentity⟩
  else .ok ()

def flagOfName? (name : String) : Option Bool :=
  match Text.fold (Text.trim name) with
  | "true" | "1" | "yes" | "on" => some true
  | "false" | "0" | "no" | "off" => some false
  | _ => none

def ofEnvironment (environment : Environment) : Except SettingError Settings := do
  let naming ← environment.setting "ROWPOLICY_PG_NAMING" default.naming Naming.ofName? .notNaming
  let force ← environment.setting "ROWPOLICY_PG_FORCE_RLS" default.force flagOfName? .notFlag
  let settings : Settings :=
    ⟨(environment identityKey).getD default.identityFunction,
      (environment "ROWPOLICY_PG_SCHEMA").filter fun schema => !Text.isBlankText schema,
      naming, force⟩
  settings.validate
  return settings

def toJson (settings : Settings) : Json :=
  .object [("identity_function", .string settings.identityFunction),
    ("schema", Json.ofOption .string settings.schema), ("naming", Json.ofWord settings.naming),
    ("force_rls", .bool settings.force)]

def ofJson? (value : Json) : Option Settings := do
  let record ← value.record? 4
  let identityFunction ← record.required 0 "identity_function" Json.string?
  let schema ← record.optional 1 "schema" Json.string?
  let naming ← record.defaulted 2 "naming" default.naming Json.word?
  let force ← record.defaulted 3 "force_rls" default.force Json.bool?
  return ⟨identityFunction, schema, naming, force⟩

end Settings

def doubleQuotes : List Char → List Char
  | [] => []
  | c :: rest => if c = '"' then '"' :: '"' :: doubleQuotes rest else c :: doubleQuotes rest

def quotedChars (name : List Char) : List Char := '"' :: (doubleQuotes name ++ ['"'])

def quoteIdentifier (name : String) : String := String.ofList (quotedChars name.toList)

def maxIdentifierBytes : Nat := 63

def takeBytes (budget : Nat) : List Char → List Char
  | [] => []
  | c :: rest => if c.utf8Size ≤ budget then c :: takeBytes (budget - c.utf8Size) rest else []

def truncateIdentifier (name : String) : String :=
  String.ofList (takeBytes maxIdentifierBytes name.toList)

-- Where truncation cuts, in bytes: from an offset back to the nearest one that is not inside of
-- a character.
def boundaryFrom? (name : String) : Nat → Option Nat
  | 0 => if String.Pos.Raw.isValid name ⟨0⟩ then some 0 else none
  | offset + 1 =>
      if String.Pos.Raw.isValid name ⟨offset + 1⟩ then some (offset + 1)
      else boundaryFrom? name offset

theorem bytes_cons (c : Char) (rest : List Char) :
    (String.ofList (c :: rest)).utf8ByteSize = c.utf8Size + (String.ofList rest).utf8ByteSize := by
  rw [String.ofList_cons, String.utf8ByteSize_append, String.utf8ByteSize_singleton]

inductive Region where
  | plain | identifier | literal
deriving DecidableEq

def closesAtEnd (depth : Nat) (region : Region) : List Char → Bool
  | [] => depth == 0 && region == .plain
  | c :: rest =>
      match region with
      | .identifier => closesAtEnd depth (if c = '"' then .plain else .identifier) rest
      | .literal => closesAtEnd depth (if c = '\'' then .plain else .literal) rest
      | .plain =>
          if c = '"' then closesAtEnd depth .identifier rest
          else if c = '\'' then closesAtEnd depth .literal rest
          else if c = '(' then closesAtEnd (depth + 1) .plain rest
          else if c = ')' then
            if depth - 1 = 0 ∧ rest ≠ [] then false else closesAtEnd (depth - 1) .plain rest
          else closesAtEnd depth .plain rest

def isGroup (expression : List Char) : Bool :=
  expression.head? == some '(' && expression.getLast? == some ')' &&
    closesAtEnd 0 .plain expression

def grouped (expression : String) : String :=
  if isGroup expression.toList then expression else "(" ++ expression ++ ")"

-- The name of the link table inside a membership's subquery. It is no name that a
-- resource has by convention, but nothing here rules out a resource of this name.
def linkAlias : String := "_link"

def qualified (qualifier column : String) : String :=
  quoteIdentifier qualifier ++ "." ++ quoteIdentifier column

namespace Settings

def table (settings : Settings) (resource : String) : String :=
  match settings.schema with
  | some schema => qualified schema resource
  | none => quoteIdentifier resource

def ownsRowText (settings : Settings) (o : Ownership) : String :=
  "(" ++ settings.identityFunction ++ " = " ++ qualified o.resource o.column ++ ")"

def memberOfJoinText (settings : Settings) (m : Membership) : String :=
  "(" ++ settings.identityFunction ++ " IN (SELECT " ++ qualified linkAlias m.identityKey ++
    " FROM " ++ settings.table m.linkResource ++ " AS " ++ quoteIdentifier linkAlias ++
    " WHERE " ++ qualified linkAlias m.linkKey ++ " = " ++ qualified m.resource m.rowKey ++ "))"

def leafText (settings : Settings) : LeafText :=
  { ownsRow := settings.ownsRowText, memberOfJoin := settings.memberOfJoinText }

def condition (settings : Settings) (p : Predicate) : String := p.condition settings.leafText

end Settings
end RowSecurity.Install

import RowSecurity.Json.Basic
import RowSecurity.Policy.Error
import RowSecurity.Predicate.Basic
import RowSecurity.Predicate.Scope
import RowSecurity.Role.Registry
import RowSecurity.Text

-- From intents and grants to rules, about a declared resource, for a registered role, under a
-- predicate that is valid for its rows.
namespace RowSecurity

inductive SelectSource where
  | modify | read
deriving DecidableEq

namespace SelectSource

def label : SelectSource → String
  | .modify => "modify"
  | .read => "read"

instance : Json.Stored SelectSource :=
  ⟨[.modify, .read], label, fun word => by cases word <;> decide⟩

def ofName? (name : String) : Option SelectSource :=
  match Text.fold (Text.trim name) with
  | "modify" => some .modify
  | "read" => some .read
  | _ => none

end SelectSource

structure CompilerSettings where
  selectSource : SelectSource
deriving DecidableEq

namespace CompilerSettings

def default : CompilerSettings := ⟨.modify⟩

def ofEnvironment (environment : Environment) : Except SettingError CompilerSettings := do
  let source ← environment.setting "ROWPOLICY_SELECT_PREDICATE" default.selectSource
    SelectSource.ofName? .notSelectSource
  return ⟨source⟩

def toJson (settings : CompilerSettings) : Json :=
  .object [("select_source", Json.ofWord settings.selectSource)]

def ofJson? (value : Json) : Option CompilerSettings := do
  let record ← value.record? 1
  let source ← record.defaulted 0 "select_source" default.selectSource Json.word?
  return ⟨source⟩

end CompilerSettings

inductive Grant where
  | flag (value : Bool)
  | condition (predicate : Predicate)
deriving DecidableEq

namespace Grant

def toJson : Grant → Json
  | .flag value => .bool value
  | .condition predicate => predicate.toJson

def ofJson? : Json → Option Grant
  | .bool value => some (.flag value)
  | other => (Predicate.ofJson? other).map .condition

end Grant

structure Intent where
  role : String
  read : Option Grant
  modify : Option Grant
deriving DecidableEq

namespace Intent

def member (name : String) : Option Grant → List (String × Json)
  | none => []
  | some grant => [(name, grant.toJson)]

def toJson (intent : Intent) : Json :=
  .object (("role", .string intent.role) :: (member "read" intent.read ++
    member "modify" intent.modify))

def ofJson? (value : Json) : Option Intent := do
  let record ← value.record? 3
  let role ← record.required 0 "role" Json.string?
  let read ← record.defaulted 1 "read" none (Json.Record.nullable Grant.ofJson?)
  let modify ← record.defaulted 2 "modify" none (Json.Record.nullable Grant.ofJson?)
  return ⟨role, read, modify⟩

end Intent

structure Compiler where
  graph : Graph
  roles : Registry
  settings : CompilerSettings

namespace Compiler

def checkPredicate (compiler : Compiler) (resource role : String) (action : Action)
    (predicate : Predicate) : Except PolicyError Unit :=
  match predicate.validate compiler.graph with
  | .error (.invalidPredicate fault) =>
      .error (.uncompiled (some action) role resource (.malformed fault))
  | .error other => .error other
  | .ok () =>
      match predicate.subject? with
      | some subject =>
          if subject ≠ resource then
            .error (.uncompiled (some action) role resource (.foreignSubject predicate subject))
          else .ok ()
      | none => .ok ()

def checkGrant (compiler : Compiler) (resource role : String) (action : Action) :
    Option Grant → Except PolicyError Unit
  | some (.condition predicate) => compiler.checkPredicate resource role action predicate
  | _ => .ok ()

-- Where select follows the modify grant, a predicate there counts even when reading is granted
-- outright.
def selectPredicate (compiler : Compiler) (resource role : String) (intent : Intent) :
    Except PolicyError (Option Predicate) :=
  match intent.read with
  | none | some (.flag false) => .ok none
  | some read =>
      match compiler.settings.selectSource, read, intent.modify with
      | .modify, _, some (.condition modify) => .ok (some modify)
      | _, .flag _, _ => .ok (some (.literal true))
      | .read, .condition read, _ => .ok (some read)
      | .modify, .condition _, some (.flag value) => .ok (some (.literal value))
      | .modify, .condition _, none =>
          .error (.uncompiled (some .select) role resource .noModifyGrant)

def modifyPredicate (intent : Intent) : Option Predicate :=
  match intent.modify with
  | some (.flag true) => some (.literal true)
  | some (.condition predicate) => some predicate
  | some (.flag false) | none => none

def selectRules (resource role : String) : Option Predicate → List Rule
  | some predicate => [.of resource .select role predicate]
  | none => []

def modifyRules (resource role : String) : Option Predicate → List Rule
  | some predicate => Action.modifying.map fun action => .of resource action role predicate
  | none => []

def compileIntent (compiler : Compiler) (resource : String) (intent : Intent) :
    Except PolicyError (List Rule) := do
  let role ← PolicyError.ofSchema (compiler.roles.resolve intent.role)
  let _ ← PolicyError.ofSchema (compiler.graph.resolve resource)
  compiler.checkGrant resource role.name .select intent.read
  compiler.checkGrant resource role.name .insert intent.modify
  let select ← compiler.selectPredicate resource role.name intent
  return selectRules resource role.name select ++
    modifyRules resource role.name (modifyPredicate intent)

def compileGrant (compiler : Compiler) (resource : String) (action : Action) (role : String)
    (grant : Grant) : Except PolicyError Rule := do
  let role ← PolicyError.ofSchema (compiler.roles.resolve role)
  let _ ← PolicyError.ofSchema (compiler.graph.resolve resource)
  match grant with
  | .flag value => return .of resource action role.name (.literal value)
  | .condition predicate =>
      compiler.checkPredicate resource role.name action predicate
      return .of resource action role.name predicate

end Compiler
end RowSecurity

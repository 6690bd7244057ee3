import RowSecurity.Json.Basic
import RowSecurity.Rule.Basic
import RowSecurity.Schema.Error

-- Settings that come from outside, and the errors of predicates, rules and sets.
namespace RowSecurity

abbrev Environment := String → Option String

inductive SettingFault where
  | notSelectSource (given : String)
  | notNaming (given : String)
  | notFlag (given : String)
  | blankIdentity
  | stated (text : String)
deriving DecidableEq

def SettingFault.message : SettingFault → String
  | .notSelectSource given => s!"expected 'modify' or 'read', got '{given}'"
  | .notNaming given => s!"expected 'resource_action' or 'resource_action_role', got '{given}'"
  | .notFlag given => s!"expected a boolean, got '{given}'"
  | .blankIdentity => "identity function must not be empty"
  | .stated text => text

structure SettingError where
  key : String
  fault : SettingFault
deriving DecidableEq

namespace SettingError

def message (error : SettingError) : String :=
  s!"Invalid configuration value for {error.key}: {error.fault.message}"

def code (_ : SettingError) : String := "INVALID_CONFIG"

def category (_ : SettingError) : ErrorCategory := .config

end SettingError

def Environment.setting (environment : Environment) (key : String) (default : α)
    (read : String → Option α) (fault : String → SettingFault) : Except SettingError α :=
  match environment key with
  | none => .ok default
  | some given =>
      match read given with
      | some value => .ok value
      | none => .error ⟨key, fault given⟩

inductive PredicateFault where
  | noOperands
  | mixedSubjects (expected found : String)
  | unjoinedRowKey (membership : Membership) (target : String)
  | ambiguousRowKey (resource target first second : String)
  | stated (text : String)
deriving DecidableEq

def PredicateFault.message : PredicateFault → String
  | .noOperands => "combinator has no operands"
  | .mixedSubjects expected found => s!"combinator mixes predicates on '{expected}' and '{found}'"
  | .unjoinedRowKey m target =>
      s!"'{m.resource}.{m.rowKey}' does not identify a '{target}' row joined by " ++
        s!"'{m.linkResource}.{m.linkKey}'"
  | .ambiguousRowKey resource target first second =>
      s!"'{resource}' references '{target}' through both '{first}' and '{second}'; " ++
        "name the row key explicitly"
  | .stated text => text

inductive GrantFault where
  | malformed (fault : PredicateFault)
  | foreignSubject (predicate : Predicate) (subject : String)
  | noModifyGrant
  | stated (text : String)
deriving DecidableEq

def GrantFault.message : GrantFault → String
  | .malformed fault => fault.message
  | .foreignSubject predicate subject =>
      s!"predicate {predicate.text} is evaluated against '{subject}'"
  | .noModifyGrant => "select follows the modify condition, but no modify grant is given"
  | .stated text => text

inductive PolicyError where
  | schema (error : SchemaError)
  | invalidPredicate (fault : PredicateFault)
  | uncompiled (action : Option Action) (role resource : String) (fault : GrantFault)
  | conflict (key : RuleKey)
  | serialization (fault : Json.Fault)
deriving DecidableEq

namespace PolicyError

def message : PolicyError → String
  | schema error => error.message
  | invalidPredicate fault => s!"invalid predicate: {fault.message}"
  | uncompiled action role resource fault =>
      let what := match action with
        | some action => action.label
        | none => "policy"
      s!"cannot compile {what} for role '{role}' on '{resource}': {fault.message}"
  | conflict key =>
      s!"conflicting {key.action.label} rule for role '{key.role}' on '{key.resource}'"
  | serialization fault => s!"serialization error: {fault.message}"

def code : PolicyError → String
  | schema error => error.code
  | invalidPredicate .. => "INVALID_PREDICATE"
  | uncompiled .. => "VALIDATION_ERROR"
  | conflict .. => "RULE_CONFLICT"
  | serialization .. => "SERIALIZATION_ERROR"

def category : PolicyError → ErrorCategory
  | schema error => error.category
  | invalidPredicate .. | uncompiled .. | serialization .. => .validation
  | conflict .. => .conflict

def ofSchema : Except SchemaError α → Except PolicyError α
  | .ok value => .ok value
  | .error error => .error (.schema error)

end PolicyError
end RowSecurity

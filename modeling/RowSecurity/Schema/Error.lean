import RowSecurity.Json.Basic

-- Why a declaration is refused, or a reference to one cannot be resolved.
namespace RowSecurity

inductive ErrorCategory where
  | config | reference | validation | conflict
deriving DecidableEq

namespace ErrorCategory

def label : ErrorCategory → String
  | .config => "config"
  | .reference => "reference"
  | .validation => "validation"
  | .conflict => "conflict"

instance : Json.Stored ErrorCategory :=
  ⟨[.config, .reference, .validation, .conflict], label, fun word => by cases word <;> decide⟩

end ErrorCategory

inductive NameKind where
  | resource | column | role | principal
deriving DecidableEq

def NameKind.label : NameKind → String
  | .resource => "resource"
  | .column => "attribute"
  | .role => "role"
  | .principal => "principal"

inductive SchemaError where
  | unknownResource (resource : String)
  | unknownColumn (resource column : String)
  | danglingRelationship (source column target : String)
  | missingRelationship (source column : String)
  | noRelationshipPath (source target : String)
  | missingPrimaryKey (source column target : String)
  | duplicateResource (resource : String)
  | duplicateColumn (resource column : String)
  | duplicateRelationship (source column target : String)
  | invalidName (kind : NameKind) (name : String)
  | unknownRole (role : String)
  | duplicateRole (role : String)
  | reservedRoleKind (role kind : String)
deriving DecidableEq

namespace SchemaError

def message : SchemaError → String
  | unknownResource resource => s!"unknown resource '{resource}'"
  | unknownColumn resource column => s!"resource '{resource}' has no attribute '{column}'"
  | danglingRelationship source column target =>
      s!"relationship '{source}.{column}' references undeclared resource '{target}'"
  | missingRelationship source column =>
      s!"attribute '{source}.{column}' is not a relationship"
  | noRelationshipPath source target => s!"resource '{source}' has no relationship to '{target}'"
  | missingPrimaryKey source column target =>
      s!"relationship '{source}.{column}' targets '{target}', which has no primary key"
  | duplicateResource resource => s!"resource '{resource}' is already declared"
  | duplicateColumn resource column =>
      s!"resource '{resource}' declares attribute '{column}' more than once"
  | duplicateRelationship source column target =>
      s!"attribute '{source}.{column}' already references '{target}'"
  | invalidName kind name => s!"invalid {kind.label} name '{name}'"
  | unknownRole role => s!"unknown role '{role}'"
  | duplicateRole role => s!"role '{role}' is already registered"
  | reservedRoleKind role kind =>
      s!"role '{role}' cannot be registered as {kind}; only custom roles may be added"

def code : SchemaError → String
  | unknownResource .. => "UNKNOWN_RESOURCE"
  | unknownColumn .. => "UNKNOWN_ATTRIBUTE"
  | danglingRelationship .. => "DANGLING_RELATIONSHIP"
  | missingRelationship .. => "MISSING_RELATIONSHIP"
  | noRelationshipPath .. => "NO_RELATIONSHIP_PATH"
  | missingPrimaryKey .. => "MISSING_PRIMARY_KEY"
  | duplicateResource .. => "DUPLICATE_RESOURCE"
  | duplicateColumn .. => "DUPLICATE_ATTRIBUTE"
  | duplicateRelationship .. => "DUPLICATE_RELATIONSHIP"
  | invalidName .. => "INVALID_NAME"
  | unknownRole .. => "UNKNOWN_ROLE"
  | duplicateRole .. => "DUPLICATE_ROLE"
  | reservedRoleKind .. => "RESERVED_ROLE_KIND"

def category : SchemaError → ErrorCategory
  | unknownResource .. | unknownColumn .. | danglingRelationship .. | missingRelationship ..
  | noRelationshipPath .. | missingPrimaryKey .. => .reference
  | duplicateResource .. | duplicateColumn .. | duplicateRelationship .. => .conflict
  | invalidName .. => .validation
  | unknownRole .. | duplicateRole .. | reservedRoleKind .. => .config

end SchemaError

-- The state that an accepted call leaves. A refused one leaves a state as well.
def outcome (call : σ × Except ε Unit) : Except ε σ := call.2.map fun _ => call.1

end RowSecurity

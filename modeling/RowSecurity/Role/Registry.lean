import Std.Data.TreeMap
import RowSecurity.Json.Basic
import RowSecurity.Schema.Error
import RowSecurity.Text

-- Roles, and the registry of those that rules may name. Only custom roles are added to the two
-- default ones.
namespace RowSecurity

inductive RoleKind where
  | anonymous | authenticated | custom
deriving DecidableEq

namespace RoleKind

def label : RoleKind → String
  | .anonymous => "anonymous"
  | .authenticated => "authenticated"
  | .custom => "custom"

instance : Json.Stored RoleKind :=
  ⟨[.anonymous, .authenticated, .custom], label, fun word => by cases word <;> decide⟩

def ofName? (name : String) : Option RoleKind :=
  match Text.fold name with
  | "anonymous" | "anon" | "public" => some .anonymous
  | "authenticated" | "auth" => some .authenticated
  | "custom" => some .custom
  | _ => none

end RoleKind

structure Role where
  name : String
  kind : RoleKind
  principal : String
deriving DecidableEq

namespace Role

def anonymous : Role := ⟨"anonymous", .anonymous, "anonymous"⟩

def authenticated : Role := ⟨"authenticated", .authenticated, "authenticated"⟩

def hasIdentity (role : Role) : Bool := role.kind != .anonymous

def ofJson? (value : Json) : Option Role := do
  let record ← value.record? 3
  let name ← record.required 0 "name" Json.string?
  let kind ← record.required 1 "kind" Json.word?
  let principal ← record.required 2 "principal" Json.string?
  return ⟨name, kind, principal⟩

end Role

structure Registry where
  roles : Std.TreeMap String Role

namespace Registry

def default : Registry :=
  ⟨(Std.TreeMap.empty.insert Role.anonymous.name Role.anonymous).insert
    Role.authenticated.name Role.authenticated⟩

def role? (registry : Registry) (name : String) : Option Role := registry.roles[name]?

def contains (registry : Registry) (name : String) : Bool := registry.roles.contains name

def resolve (registry : Registry) (name : String) : Except SchemaError Role :=
  match registry.role? name with
  | some role => .ok role
  | none => .error (.unknownRole name)

def all (registry : Registry) : List Role := registry.roles.toList.map (·.2)

def size (registry : Registry) : Nat := registry.roles.size

def add (registry : Registry) (role : Role) : Registry × Except SchemaError Unit :=
  if !Text.isName role.name then (registry, .error (.invalidName .role role.name))
  else if !Text.isName role.principal then
    (registry, .error (.invalidName .principal role.principal))
  else if role.kind ≠ .custom then
    (registry, .error (.reservedRoleKind role.name role.kind.label))
  else if registry.contains role.name then (registry, .error (.duplicateRole role.name))
  else (⟨registry.roles.insert role.name role⟩, .ok ())

def register (registry : Registry) (name : String) (kind : RoleKind) :
    Except SchemaError Registry :=
  outcome (registry.add ⟨name, kind, name⟩)

def registerAs (registry : Registry) (name principal : String) : Except SchemaError Registry :=
  outcome (registry.add ⟨name, .custom, principal⟩)

end Registry
end RowSecurity

import RowSecurity.Json.Basic

-- Predicates as plain data, with a text for people and a form in JSON.
namespace RowSecurity

structure Ownership where
  resource : String
  column : String
deriving DecidableEq

-- The acting identity is among the identities of the link rows that join the row:
-- those whose link key equals the row's key.
structure Membership where
  resource : String
  rowKey : String
  linkResource : String
  linkKey : String
  identityKey : String
deriving DecidableEq

inductive Predicate where
  | literal (value : Bool)
  | ownsRow (ownership : Ownership)
  | memberOfJoin (membership : Membership)
  | all (operands : List Predicate)
  | any (operands : List Predicate)
  | not (operand : Predicate)

namespace Predicate

@[elab_as_elim, induction_eliminator]
theorem induct {motive : Predicate → Prop}
    (literal : ∀ value, motive (.literal value))
    (ownsRow : ∀ ownership, motive (.ownsRow ownership))
    (memberOfJoin : ∀ membership, motive (.memberOfJoin membership))
    (all : ∀ operands, (∀ operand ∈ operands, motive operand) → motive (.all operands))
    (any : ∀ operands, (∀ operand ∈ operands, motive operand) → motive (.any operands))
    (not : ∀ operand, motive operand → motive (.not operand)) (p : Predicate) : motive p :=
  match p with
  | .literal value => literal value
  | .ownsRow ownership => ownsRow ownership
  | .memberOfJoin membership => memberOfJoin membership
  | .all operands =>
      all operands fun operand _ => induct literal ownsRow memberOfJoin all any not operand
  | .any operands =>
      any operands fun operand _ => induct literal ownsRow memberOfJoin all any not operand
  | .not operand => not operand (induct literal ownsRow memberOfJoin all any not operand)
termination_by p

mutual
def decEq : (p q : Predicate) → Decidable (p = q)
  | .literal a, .literal b => decidable_of_iff (a = b) (by simp)
  | .ownsRow a, .ownsRow b => decidable_of_iff (a = b) (by simp)
  | .memberOfJoin a, .memberOfJoin b => decidable_of_iff (a = b) (by simp)
  | .all ps, .all qs => @decidable_of_iff _ (ps = qs) (by simp) (decEqList ps qs)
  | .any ps, .any qs => @decidable_of_iff _ (ps = qs) (by simp) (decEqList ps qs)
  | .not p, .not q => @decidable_of_iff _ (p = q) (by simp) (decEq p q)
  | .literal _, .ownsRow _ | .literal _, .memberOfJoin _ | .literal _, .all _ | .literal _, .any _
  | .literal _, .not _ | .ownsRow _, .literal _ | .ownsRow _, .memberOfJoin _ | .ownsRow _, .all _
  | .ownsRow _, .any _ | .ownsRow _, .not _ | .memberOfJoin _, .literal _
  | .memberOfJoin _, .ownsRow _ | .memberOfJoin _, .all _ | .memberOfJoin _, .any _
  | .memberOfJoin _, .not _ | .all _, .literal _ | .all _, .ownsRow _ | .all _, .memberOfJoin _
  | .all _, .any _ | .all _, .not _ | .any _, .literal _ | .any _, .ownsRow _
  | .any _, .memberOfJoin _ | .any _, .all _ | .any _, .not _ | .not _, .literal _
  | .not _, .ownsRow _ | .not _, .memberOfJoin _ | .not _, .all _ | .not _, .any _ =>
      .isFalse (by simp)
termination_by structural p => p

def decEqList : (ps qs : List Predicate) → Decidable (ps = qs)
  | [], [] => .isTrue rfl
  | [], _ :: _ | _ :: _, [] => .isFalse (by simp)
  | p :: ps, q :: qs =>
      match decEq p q, decEqList ps qs with
      | .isTrue head, .isTrue tail => .isTrue (by rw [head, tail])
      | .isFalse head, _ => .isFalse (by simp [head])
      | _, .isFalse tail => .isFalse (by simp [tail])
termination_by structural ps => ps
end

instance : DecidableEq Predicate := decEq

def isAlwaysTrue (p : Predicate) : Bool := p == .literal true

def isAlwaysFalse (p : Predicate) : Bool := p == .literal false

-- The resource of the first leaf. That the other leaves name the same one is checked apart.
mutual
def subject? : Predicate → Option String
  | .literal _ => none
  | .ownsRow ownership => some ownership.resource
  | .memberOfJoin membership => some membership.resource
  | .all operands => firstSubject? operands
  | .any operands => firstSubject? operands
  | .not operand => operand.subject?
termination_by structural p => p

def firstSubject? : List Predicate → Option String
  | [] => none
  | p :: rest =>
      match p.subject? with
      | some subject => some subject
      | none => firstSubject? rest
termination_by structural operands => operands
end

end Predicate

def Ownership.text (o : Ownership) : String :=
  s!"owns_row({o.resource}.{o.column})"

def Membership.text (m : Membership) : String :=
  s!"member_of({m.linkResource}.{m.identityKey} where " ++
    s!"{m.linkResource}.{m.linkKey} = {m.resource}.{m.rowKey})"

namespace Predicate

mutual
def text : Predicate → String
  | .literal value => if value then "true" else "false"
  | .ownsRow ownership => ownership.text
  | .memberOfJoin membership => membership.text
  | .all operands => "all(" ++ ", ".intercalate (operandTexts operands) ++ ")"
  | .any operands => "any(" ++ ", ".intercalate (operandTexts operands) ++ ")"
  | .not operand => "not(" ++ operand.text ++ ")"
termination_by structural p => p

def operandTexts : List Predicate → List String
  | [] => []
  | p :: rest => p.text :: operandTexts rest
termination_by structural operands => operands
end

theorem operandTexts_map (operands : List Predicate) :
    operandTexts operands = operands.map text := by
  induction operands with
  | nil => rfl
  | cons p rest ih => rw [operandTexts, ih, List.map_cons]

end Predicate

structure LeafText where
  literal : Bool → String := fun value => if value then "true" else "false"
  ownsRow : Ownership → String
  memberOfJoin : Membership → String

namespace Predicate

mutual
def condition (leaf : LeafText) : Predicate → String
  | .literal value => leaf.literal value
  | .ownsRow ownership => leaf.ownsRow ownership
  | .memberOfJoin membership => leaf.memberOfJoin membership
  | .all operands => "(" ++ " AND ".intercalate (operandConditions leaf operands) ++ ")"
  | .any operands => "(" ++ " OR ".intercalate (operandConditions leaf operands) ++ ")"
  | .not operand => "(NOT " ++ operand.condition leaf ++ ")"
termination_by structural p => p

def operandConditions (leaf : LeafText) : List Predicate → List String
  | [] => []
  | p :: rest => p.condition leaf :: operandConditions leaf rest
termination_by structural operands => operands
end

theorem operandConditions_map (leaf : LeafText) (operands : List Predicate) :
    operandConditions leaf operands = operands.map (condition leaf) := by
  induction operands with
  | nil => rfl
  | cons p rest ih => rw [operandConditions, ih, List.map_cons]

end Predicate

namespace Ownership

def toJson (o : Ownership) : Json :=
  .object [("resource", .string o.resource), ("attribute", .string o.column)]

def ofJson? (value : Json) : Option Ownership := do
  let record ← value.record? 2
  let resource ← record.required 0 "resource" Json.string?
  let column ← record.required 1 "attribute" Json.string?
  return ⟨resource, column⟩

end Ownership

namespace Membership

def toJson (m : Membership) : Json :=
  .object [("resource", .string m.resource), ("row_key", .string m.rowKey),
    ("link_resource", .string m.linkResource), ("link_key", .string m.linkKey),
    ("identity_key", .string m.identityKey)]

def ofJson? (value : Json) : Option Membership := do
  let record ← value.record? 5
  let resource ← record.required 0 "resource" Json.string?
  let rowKey ← record.required 1 "row_key" Json.string?
  let linkResource ← record.required 2 "link_resource" Json.string?
  let linkKey ← record.required 3 "link_key" Json.string?
  let identityKey ← record.required 4 "identity_key" Json.string?
  return ⟨resource, rowKey, linkResource, linkKey, identityKey⟩

end Membership

namespace Predicate

mutual
def toJson : Predicate → Json
  | .literal value => .object [("literal", .bool value)]
  | .ownsRow ownership => .object [("owns_row", ownership.toJson)]
  | .memberOfJoin membership => .object [("member_of_join", membership.toJson)]
  | .all operands => .object [("all", .array (operandsToJson operands))]
  | .any operands => .object [("any", .array (operandsToJson operands))]
  | .not operand => .object [("not", operand.toJson)]
termination_by structural p => p

def operandsToJson : List Predicate → List Json
  | [] => []
  | p :: rest => p.toJson :: operandsToJson rest
termination_by structural operands => operands
end

mutual
def ofJson? : Json → Option Predicate
  | .object [(kind, body)] =>
      if kind = "literal" then body.bool?.map .literal
      else if kind = "owns_row" then (Ownership.ofJson? body).map .ownsRow
      else if kind = "member_of_join" then (Membership.ofJson? body).map .memberOfJoin
      else if kind = "all" then
        match body with
        | .array items => (operandsOfJson? items).map .all
        | _ => none
      else if kind = "any" then
        match body with
        | .array items => (operandsOfJson? items).map .any
        | _ => none
      else if kind = "not" then (ofJson? body).map .not
      else none
  | _ => none
termination_by structural value => value

def operandsOfJson? : List Json → Option (List Predicate)
  | [] => some []
  | item :: rest =>
      match ofJson? item, operandsOfJson? rest with
      | some p, some operands => some (p :: operands)
      | _, _ => none
termination_by structural items => items
end

theorem operandsToJson_map (operands : List Predicate) :
    operandsToJson operands = operands.map toJson := by
  induction operands with
  | nil => rfl
  | cons p rest ih => rw [operandsToJson, ih, List.map_cons]

end Predicate
end RowSecurity

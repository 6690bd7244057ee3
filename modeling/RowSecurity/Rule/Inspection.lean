import RowSecurity.Rule.Set

-- A set in full on one line. Names are quoted but not escaped: a compiled rule has nothing in its
-- names that would need it.
namespace RowSecurity

def quotedName (name : String) : String := "\"" ++ name ++ "\""

def inspectFields (kind : String) (fields : List (String × String)) : String :=
  kind ++ " " ++ Text.braced
    (" " ++ ", ".intercalate (fields.map fun field => field.1 ++ ": " ++ field.2) ++ " ")

def Ownership.inspect (o : Ownership) : String :=
  inspectFields "Ownership"
    [("resource", quotedName o.resource), ("attribute", quotedName o.column)]

def Membership.inspect (m : Membership) : String :=
  inspectFields "Membership"
    [("resource", quotedName m.resource), ("row_key", quotedName m.rowKey),
      ("link_resource", quotedName m.linkResource), ("link_key", quotedName m.linkKey),
      ("identity_key", quotedName m.identityKey)]

namespace Predicate

mutual
def inspect : Predicate → String
  | .literal value => "Literal(" ++ (if value then "true" else "false") ++ ")"
  | .ownsRow ownership => "OwnsRow(" ++ ownership.inspect ++ ")"
  | .memberOfJoin membership => "MemberOfJoin(" ++ membership.inspect ++ ")"
  | .all operands => "All([" ++ ", ".intercalate (inspectOperands operands) ++ "])"
  | .any operands => "Any([" ++ ", ".intercalate (inspectOperands operands) ++ "])"
  | .not operand => "Not(" ++ operand.inspect ++ ")"
termination_by structural p => p

def inspectOperands : List Predicate → List String
  | [] => []
  | p :: rest => p.inspect :: inspectOperands rest
termination_by structural operands => operands
end

end Predicate

def Action.inspect : Action → String
  | .select => "Select"
  | .insert => "Insert"
  | .update => "Update"
  | .delete => "Delete"

def Clause.inspect : Clause → String
  | .using => "Using"
  | .check => "Check"

def Rule.inspect (rule : Rule) : String :=
  inspectFields "PolicyRule"
    [("resource", quotedName rule.resource), ("action", rule.action.inspect),
      ("role", quotedName rule.role), ("predicate", rule.predicate.inspect),
      ("clause", rule.clause.inspect)]

def RuleSet.inspect (set : RuleSet) : String :=
  inspectFields "PolicySet"
    [("rules", "[" ++ ", ".intercalate (set.rules.map Rule.inspect) ++ "]"),
      ("observer", if set.observer.isSome then "true" else "false")]

end RowSecurity

import Std.Data.TreeSet
import RowSecurity.Json.Basic
import RowSecurity.Predicate.Basic
import RowSecurity.Text

namespace RowSecurity

inductive Clause where
  | using | check
deriving DecidableEq

namespace Clause

def label : Clause → String
  | .using => "using"
  | .check => "check"

instance : Json.Stored Clause :=
  ⟨[.using, .check], label, fun word => by cases word <;> decide⟩

end Clause

inductive Action where
  | select | insert | update | delete
deriving DecidableEq

namespace Action

def label : Action → String
  | .select => "select"
  | .insert => "insert"
  | .update => "update"
  | .delete => "delete"

def all : List Action := [.select, .insert, .update, .delete]

def modifying : List Action := [.insert, .update, .delete]

instance : Json.Stored Action :=
  ⟨all, label, fun word => by cases word <;> decide⟩

def ofName? (name : String) : Option Action :=
  match Text.fold name with
  | "select" | "read" => some .select
  | "insert" | "create" => some .insert
  | "update" | "write" => some .update
  | "delete" | "remove" => some .delete
  | _ => none

def clause : Action → Clause
  | .select | .delete => .using
  | .insert | .update => .check

def rank : Action → Nat
  | .select => 0
  | .insert => 1
  | .update => 2
  | .delete => 3

theorem rank_injective {a b : Action} (equal : a.rank = b.rank) : a = b := by
  cases a <;> cases b <;> first | rfl | exact absurd equal (by decide)

end Action

structure RuleKey where
  resource : String
  action : Action
  role : String
deriving DecidableEq

namespace RuleKey

def text (key : RuleKey) : String := s!"{key.resource}:{key.action.label}:{key.role}"

def order : RuleKey → RuleKey → Ordering :=
  compareLex (compareOn RuleKey.resource)
    (compareLex (compareOn fun key => key.action.rank) (compareOn RuleKey.role))

instance : Std.TransCmp order :=
  inferInstanceAs (Std.TransCmp (compareLex _ (compareLex _ _)))

instance : Std.LawfulEqCmp order where
  eq_of_compare {a b} equal := by
    simp only [order, compareLex_eq_eq, compareOn, Std.LawfulEqOrd.compare_eq_iff_eq] at equal
    obtain ⟨resource, action, role⟩ := equal
    have action := Action.rank_injective action
    cases a
    cases b
    simp_all

def toJson (key : RuleKey) : Json :=
  .object [("resource", .string key.resource), ("action", Json.ofWord key.action),
    ("role", .string key.role)]

def ofJson? (value : Json) : Option RuleKey := do
  let record ← value.record? 3
  let resource ← record.required 0 "resource" Json.string?
  let action ← record.required 1 "action" Json.word?
  let role ← record.required 2 "role" Json.string?
  return ⟨resource, action, role⟩

end RuleKey

structure Rule where
  resource : String
  action : Action
  role : String
  predicate : Predicate
  clause : Clause
deriving DecidableEq

namespace Rule

def of (resource : String) (action : Action) (role : String) (predicate : Predicate) : Rule :=
  ⟨resource, action, role, predicate, action.clause⟩

def key (rule : Rule) : RuleKey := ⟨rule.resource, rule.action, rule.role⟩

def text (rule : Rule) : String :=
  s!"{rule.resource} {rule.action.label} to {rule.role} {rule.clause.label} ({rule.predicate.text})"

def toJson (rule : Rule) : Json :=
  .object [("resource", .string rule.resource), ("action", Json.ofWord rule.action),
    ("role", .string rule.role), ("predicate", rule.predicate.toJson),
    ("clause", Json.ofWord rule.clause)]

end Rule

inductive EventLevel where
  | debug | info | warn
deriving DecidableEq

def EventLevel.label : EventLevel → String
  | .debug => "debug"
  | .info => "info"
  | .warn => "warn"

inductive EventField where
  | text (value : String)
  | count (value : Nat)
deriving DecidableEq

structure Event where
  level : EventLevel
  message : String
  fields : List (String × EventField)
deriving DecidableEq

inductive Notice where
  | committed (rules : List Rule)
  | conflict (key : RuleKey)
deriving DecidableEq

namespace Notice

def isCommit : Notice → Bool
  | .committed _ => true
  | .conflict _ => false

def ruleEvent (rule : Rule) : Event :=
  ⟨.debug, "Policy rule compiled",
    [("resource", .text rule.resource), ("action", .text rule.action.label),
      ("role", .text rule.role), ("clause", .text rule.clause.label),
      ("predicate", .text rule.predicate.text)]⟩

def events : Notice → List Event
  | .committed rules =>
      rules.map ruleEvent ++
        [⟨.info, "Policy rules committed", [("count", .count rules.length)]⟩]
  | .conflict key => [⟨.warn, "Conflicting policy rule rejected", [("rule", .text key.text)]⟩]

end Notice

inductive Observer where
  | recorder (log : List Notice)
  | commitRecorder (log : List Notice)
  | tracer (events : List Event)
deriving DecidableEq

namespace Observer

def notify (observer : Observer) (notice : Notice) : Observer :=
  match observer with
  | .recorder log => .recorder (log ++ [notice])
  | .commitRecorder log => .commitRecorder (if notice.isCommit then log ++ [notice] else log)
  | .tracer events => .tracer (events ++ notice.events)

def log : Observer → List Notice
  | .recorder log => log
  | .commitRecorder log => log
  | .tracer _ => []

def events : Observer → List Event
  | .tracer events => events
  | _ => []

end Observer
end RowSecurity

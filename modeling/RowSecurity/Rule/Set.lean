import RowSecurity.Policy.Error
import RowSecurity.Rule.Basic

-- Sets of rules, in the order of commitment. A batch is committed whole or not at all.
namespace RowSecurity

structure RuleSet where
  rules : List Rule
  keys : Std.TreeSet RuleKey RuleKey.order
  observer : Option Observer

namespace RuleSet

def empty (observer : Option Observer) : RuleSet := ⟨[], .empty, observer⟩

def takenKey? (keys : Std.TreeSet RuleKey RuleKey.order) : List Rule → Option RuleKey
  | [] => none
  | rule :: rest =>
      if keys.contains rule.key then some rule.key
      else takenKey? (keys.insert rule.key) rest

def notify (set : RuleSet) (notice : Notice) : RuleSet :=
  { set with observer := set.observer.map (·.notify notice) }

-- A refused batch leaves rules and keys as they were; the observer is told of both.
def extend (set : RuleSet) (batch : List Rule) : RuleSet × Except PolicyError Unit :=
  match takenKey? set.keys batch with
  | some key => (set.notify (.conflict key), .error (.conflict key))
  | none =>
      let committed := set.notify (.committed batch)
      ({ committed with
          rules := set.rules ++ batch
          keys := batch.foldl (fun keys rule => keys.insert rule.key) set.keys }, .ok ())

def merge (set other : RuleSet) : RuleSet × Except PolicyError Unit :=
  set.extend other.rules

def rule? (set : RuleSet) (key : RuleKey) : Option Rule :=
  if set.keys.contains key then set.rules.find? (·.key == key) else none

def forResource (set : RuleSet) (resource : String) : List Rule :=
  set.rules.filter (·.resource == resource)

def resources (set : RuleSet) : List String := (set.rules.map Rule.resource).eraseDups

end RuleSet
end RowSecurity

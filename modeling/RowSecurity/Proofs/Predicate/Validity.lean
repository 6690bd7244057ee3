import RowSecurity.Predicate.Basic
import RowSecurity.Predicate.Scope
import RowSecurity.Proofs.Schema.History

-- A combinator remembers one subject and compares each operand's first leaf with it. That is enough
-- to keep all leaves on one resource.
namespace RowSecurity

inductive Leaf where
  | owned (ownership : Ownership)
  | joined (membership : Membership)
deriving DecidableEq

def Leaf.resource : Leaf → String
  | .owned ownership => ownership.resource
  | .joined membership => membership.resource

namespace Predicate

mutual
def leaves : Predicate → List Leaf
  | .literal _ => []
  | .ownsRow ownership => [.owned ownership]
  | .memberOfJoin membership => [.joined membership]
  | .all operands => operandLeaves operands
  | .any operands => operandLeaves operands
  | .not operand => operand.leaves
termination_by structural p => p

def operandLeaves : List Predicate → List Leaf
  | [] => []
  | p :: rest => p.leaves ++ operandLeaves rest
termination_by structural operands => operands
end

def About (p : Predicate) (resource : String) : Prop := ∀ leaf ∈ p.leaves, leaf.resource = resource

theorem operandLeaves_flatMap (operands : List Predicate) :
    operandLeaves operands = operands.flatMap leaves := by
  induction operands with
  | nil => rfl
  | cons p rest ih => rw [operandLeaves, ih, List.flatMap_cons]

theorem mem_operandLeaves {operands : List Predicate} {leaf : Leaf} :
    leaf ∈ operandLeaves operands ↔ ∃ operand ∈ operands, leaf ∈ operand.leaves := by
  rw [operandLeaves_flatMap, List.mem_flatMap]

theorem leaves_operand {operands : List Predicate} {p : Predicate} (operand : p ∈ operands) :
    p.leaves ⊆ operandLeaves operands :=
  fun _ inside => mem_operandLeaves.mpr ⟨p, operand, inside⟩

theorem firstSubject?_leaves (operands : List Predicate)
    (each : ∀ operand ∈ operands, operand.subject? = operand.leaves.head?.map Leaf.resource) :
    firstSubject? operands = (operandLeaves operands).head?.map Leaf.resource := by
  induction operands with
  | nil => rfl
  | cons p rest ih =>
      have first := each p (by simp)
      have others := ih fun operand member => each operand (by simp [member])
      rw [firstSubject?, operandLeaves, first, others]
      cases p.leaves with
      | nil => rfl
      | cons leaf more => rfl

theorem subject?_leaves (p : Predicate) : p.subject? = p.leaves.head?.map Leaf.resource := by
  induction p with
  | literal value => rfl
  | ownsRow ownership => rfl
  | memberOfJoin membership => rfl
  | all operands ih => exact firstSubject?_leaves operands ih
  | any operands ih => exact firstSubject?_leaves operands ih
  | not operand ih => exact ih

end Predicate

-- How the key of a row leads to the target of a link key: by reference, or as the key of
-- just that target.
def Resource.Joins (resource : Resource) (rowKey : Column) (target : String) : Prop :=
  (∃ edge, resource.relationship? rowKey.name = some edge ∧ edge.target = target) ∨
    (resource.id = target ∧ rowKey.isPrimaryKey = true)

theorem Resource.extends_joins {earlier later : Resource} (grown : earlier.Extends later)
    (joins : earlier.Joins rowKey target) : later.Joins rowKey target := by
  rcases joins with ⟨edge, found, points⟩ | ⟨own, key⟩
  · exact .inl ⟨edge, extends_relationship grown found, points⟩
  · exact .inr ⟨grown.id.trans own, key⟩

theorem Membership.validate_exact {m : Membership} {graph : Graph} :
    m.validate graph = .ok () ↔
      ∃ identity linkKey link resource rowKey,
        graph.resolveColumn m.linkResource m.identityKey = .ok identity ∧
        graph.resolveColumn m.linkResource m.linkKey = .ok linkKey ∧
        graph.relationship? m.linkResource m.linkKey = some link ∧
        graph.resolve m.resource = .ok resource ∧
        resource.column? m.rowKey = some rowKey ∧ resource.Joins rowKey link.target := by
  unfold validate
  cases identityAt : graph.resolveColumn m.linkResource m.identityKey with
  | error error => simp [PolicyError.ofSchema, bind, Except.bind]
  | ok identity =>
      cases linkKeyAt : graph.resolveColumn m.linkResource m.linkKey with
      | error error => simp [PolicyError.ofSchema, bind, Except.bind]
      | ok linkKey =>
          cases linkAt : graph.relationship? m.linkResource m.linkKey with
          | none => simp [PolicyError.ofSchema, bind, Except.bind]
          | some link =>
              cases resourceAt : graph.resolve m.resource with
              | error error => simp [PolicyError.ofSchema, bind, Except.bind]
              | ok resource =>
                  cases rowKeyAt : resource.column? m.rowKey with
                  | none => simp [PolicyError.ofSchema, bind, Except.bind, rowKeyAt]
                  | some rowKey =>
                      cases edgeAt : resource.relationship? rowKey.name with
                      | none =>
                          simp [PolicyError.ofSchema, bind, Except.bind, rowKeyAt, edgeAt,
                            Resource.Joins]
                      | some edge =>
                          by_cases points : edge.target = link.target <;>
                            simp [PolicyError.ofSchema, bind, Except.bind, rowKeyAt, edgeAt,
                              Resource.Joins, points]

theorem Membership.validate_extends {m : Membership} {earlier later : Graph}
    (grown : earlier.Extends later) (valid : m.validate earlier = .ok ()) :
    m.validate later = .ok () := by
  obtain ⟨identity, linkKey, link, resource, rowKey, identityAt, linkKeyAt, linkAt, resourceAt,
    rowKeyAt, joins⟩ := validate_exact.mp valid
  obtain ⟨kept, keptAt, resourceGrown⟩ := Graph.extends_resolve grown resourceAt
  exact validate_exact.mpr ⟨identity, linkKey, link, kept, rowKey,
    Graph.extends_resolveColumn grown identityAt, Graph.extends_resolveColumn grown linkKeyAt,
    Graph.extends_relationship grown linkAt, keptAt,
    (Resource.extends_column resourceGrown _).trans rowKeyAt,
    Resource.extends_joins resourceGrown joins⟩

namespace Predicate

-- The loop over operands: each is valid, and each that has a subject has the one that was
-- remembered, or else the first one found.
theorem validateOperands_exact (graph : Graph) (remembered : Option String)
    (operands : List Predicate) :
    validateOperands graph remembered operands = .ok () ↔
      (∀ p ∈ operands, p.validate graph = .ok ()) ∧
        ∀ p ∈ operands, ∀ subject, p.subject? = some subject →
          remembered.or (firstSubject? operands) = some subject := by
  induction operands generalizing remembered with
  | nil => simp [validateOperands]
  | cons p rest ih =>
      rw [validateOperands.eq_def]
      cases checked : p.validate graph with
      | error error => simp [checked]
      | ok done =>
          cases remembered with
          | none =>
              cases first : p.subject? with
              | none => simp [ih, firstSubject?, checked, first]
              | some found => simp [ih, firstSubject?, checked, first]
          | some expected =>
              cases first : p.subject? with
              | none => simp [ih, firstSubject?, checked, first]
              | some found =>
                  by_cases same : expected = found
                  · simp [ih, checked, first, same]
                  · simp [checked, first, same]

theorem validate_all_exact {graph : Graph} : validate graph (.all operands) = .ok () ↔
    operands ≠ [] ∧ validateOperands graph none operands = .ok () := by
  cases operands <;> simp [validate]

theorem validate_any_exact {graph : Graph} : validate graph (.any operands) = .ok () ↔
    operands ≠ [] ∧ validateOperands graph none operands = .ok () := by
  cases operands <;> simp [validate]

theorem all_operands_valid {graph : Graph} {operands : List Predicate}
    (valid : validate graph (.all operands) = .ok ()) :
    operands ≠ [] ∧ ∀ p ∈ operands, p.validate graph = .ok () := by
  obtain ⟨some, checked⟩ := validate_all_exact.mp valid
  exact ⟨some, ((validateOperands_exact _ _ _).mp checked).1⟩

theorem any_operands_valid {graph : Graph} {operands : List Predicate}
    (valid : validate graph (.any operands) = .ok ()) :
    operands ≠ [] ∧ ∀ p ∈ operands, p.validate graph = .ok () := by
  obtain ⟨some, checked⟩ := validate_any_exact.mp valid
  exact ⟨some, ((validateOperands_exact _ _ _).mp checked).1⟩

theorem operands_about {graph : Graph} {operands : List Predicate}
    (each : ∀ p ∈ operands, p.validate graph = .ok () → ∀ leaf ∈ p.leaves,
      p.subject? = some leaf.resource)
    (checked : validateOperands graph none operands = .ok ()) :
    ∀ leaf ∈ operandLeaves operands, firstSubject? operands = some leaf.resource := by
  intro leaf member
  obtain ⟨p, operand, inside⟩ := mem_operandLeaves.mp member
  obtain ⟨valid, agree⟩ := (validateOperands_exact _ _ _).mp checked
  exact agree p operand _ (each p operand (valid p operand) leaf inside)

theorem valid_subject {graph : Graph} (p : Predicate) (valid : p.validate graph = .ok ()) :
    ∀ leaf ∈ p.leaves, p.subject? = some leaf.resource := by
  induction p with
  | literal value => intro leaf member; cases member
  | ownsRow ownership => intro leaf member; cases List.mem_singleton.mp member; rfl
  | memberOfJoin membership => intro leaf member; cases List.mem_singleton.mp member; rfl
  | all operands ih => exact operands_about ih (validate_all_exact.mp valid).2
  | any operands ih => exact operands_about ih (validate_any_exact.mp valid).2
  | not operand ih => exact ih valid

structure Fits (p : Predicate) (graph : Graph) (resource : String) : Prop where
  valid : p.validate graph = .ok ()
  own : ∀ subject, p.subject? = some subject → subject = resource

theorem Fits.about {graph : Graph} {p : Predicate} (fits : p.Fits graph resource) :
    p.About resource :=
  fun leaf member => fits.own _ (valid_subject p fits.valid leaf member)

theorem literal_fits (graph : Graph) (resource : String) (value : Bool) :
    (Predicate.literal value).Fits graph resource := ⟨rfl, fun _ found => by cases found⟩

theorem validateOperands_extends {earlier later : Graph} {operands : List Predicate}
    (each : ∀ p ∈ operands, p.validate earlier = .ok () → p.validate later = .ok ())
    (checked : validateOperands earlier none operands = .ok ()) :
    validateOperands later none operands = .ok () := by
  obtain ⟨valid, agree⟩ := (validateOperands_exact _ _ _).mp checked
  exact (validateOperands_exact _ _ _).mpr
    ⟨fun p operand => each p operand (valid p operand), agree⟩

theorem validate_extends {earlier later : Graph} (grown : earlier.Extends later) (p : Predicate)
    (valid : p.validate earlier = .ok ()) : p.validate later = .ok () := by
  induction p with
  | literal value => rfl
  | ownsRow ownership =>
      rw [validate] at valid ⊢
      cases columnAt : earlier.resolveColumn ownership.resource ownership.column with
      | error error => rw [columnAt] at valid; cases valid
      | ok column => rw [Graph.extends_resolveColumn grown columnAt]
  | memberOfJoin membership => exact Membership.validate_extends grown valid
  | all operands ih =>
      obtain ⟨some, checked⟩ := validate_all_exact.mp valid
      exact validate_all_exact.mpr ⟨some, validateOperands_extends ih checked⟩
  | any operands ih =>
      obtain ⟨some, checked⟩ := validate_any_exact.mp valid
      exact validate_any_exact.mpr ⟨some, validateOperands_extends ih checked⟩
  | not operand ih => exact ih valid

theorem fits_extends {earlier later : Graph} (grown : earlier.Extends later) {p : Predicate}
    (fits : p.Fits earlier resource) : p.Fits later resource :=
  ⟨validate_extends grown p fits.valid, fits.own⟩

end Predicate
end RowSecurity

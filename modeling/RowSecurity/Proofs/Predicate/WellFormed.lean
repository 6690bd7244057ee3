import RowSecurity.Proofs.Predicate.Validity
import RowSecurity.Proofs.Schema.Lookup

-- Which predicates are valid, told of the tree as a whole and not of the first subjects among
-- operands.
namespace RowSecurity

structure Membership.Links (m : Membership) (graph : Graph) (link resource : Resource)
    (target : String) : Prop where
  linkDeclared : link ∈ graph.resources
  linkNamed : link.id = m.linkResource
  identity : m.identityKey ∈ link.columns.map Column.name
  linkKey : m.linkKey ∈ link.columns.map Column.name
  linked : ∃ edge ∈ link.relationships, edge.column = m.linkKey ∧ edge.target = target
  declared : resource ∈ graph.resources
  named : resource.id = m.resource
  rowKey : m.rowKey ∈ resource.columns.map Column.name
  joined : (∃ edge ∈ resource.relationships, edge.column = m.rowKey ∧ edge.target = target) ∨
    (m.resource = target ∧
      (resource.columns.filter (·.isPrimaryKey)).map Column.name = [m.rowKey])

def Leaf.Resolves (graph : Graph) : Leaf → Prop
  | .owned o => ∃ resource ∈ graph.resources, resource.id = o.resource ∧
      o.column ∈ resource.columns.map Column.name
  | .joined m => ∃ link resource target, m.Links graph link resource target

def Leaf.predicate : Leaf → Predicate
  | .owned ownership => .ownsRow ownership
  | .joined membership => .memberOfJoin membership

namespace Predicate

def operands : Predicate → List Predicate
  | .all operands | .any operands => operands
  | .not operand => [operand]
  | .literal _ | .ownsRow _ | .memberOfJoin _ => []

inductive Part : Predicate → Predicate → Prop where
  | whole (p : Predicate) : Part p p
  | inside (operand : q ∈ p.operands) (part : Part q r) : Part p r

structure WellFormed (p : Predicate) (graph : Graph) : Prop where
  filled : ∀ part, p.Part part → part ≠ .all [] ∧ part ≠ .any []
  resolves : ∀ leaf ∈ p.leaves, leaf.Resolves graph
  single : ∃ resource, p.About resource

end Predicate

namespace Resource

variable {resource : Resource} {declared : List Resource}

theorem key_single (sound : resource.Sound declared) {column : Column}
    (one : (resource.columns.filter (·.isPrimaryKey)).length = 1)
    (there : column ∈ resource.columns) : column.isPrimaryKey = true ↔
      (resource.columns.filter (·.isPrimaryKey)).map Column.name = [column.name] := by
  obtain ⟨key, only⟩ := List.length_eq_one_iff.mp one
  constructor
  · intro primary
    have member : column ∈ resource.columns.filter (·.isPrimaryKey) :=
      List.mem_filter.mpr ⟨there, primary⟩
    rw [only] at member ⊢
    rw [List.mem_singleton.mp member, List.map_singleton]
  · intro named
    rw [only, List.map_singleton] at named
    have member : key ∈ resource.columns.filter (·.isPrimaryKey) :=
      only ▸ List.mem_singleton_self key
    obtain ⟨held, primary⟩ := List.mem_filter.mp member
    have same := List.inj_on_of_nodup_map sound.distinct held there (List.cons.inj named).1
    exact same ▸ primary

end Resource

theorem Graph.resolveColumn_found {graph : Graph} {id name : String} {resource : Resource}
    (found : graph.resource? id = some resource) :
    (∃ column, graph.resolveColumn id name = .ok column) ↔
      name ∈ resource.columns.map Column.name := by
  rw [← Resource.hasColumn_exact, Resource.hasColumn, Option.isSome_iff_exists]
  simp [Graph.resolveColumn_exact, found]

section Leaves

variable {graph : Graph} (sound : graph.Sound)
include sound

theorem Graph.resolveColumn_carries {id name : String} :
    (∃ column, graph.resolveColumn id name = .ok column) ↔
      ∃ resource ∈ graph.resources, resource.id = id ∧
        name ∈ resource.columns.map Column.name := by
  constructor
  · rintro ⟨column, resolved⟩
    obtain ⟨resource, found, _⟩ := Graph.resolveColumn_exact.mp resolved
    obtain ⟨there, named⟩ := (Graph.resource?_carries sound).mp found
    exact ⟨resource, there, named, (Graph.resolveColumn_found found).mp ⟨column, resolved⟩⟩
  · rintro ⟨resource, there, named, held⟩
    have found := (Graph.resource?_carries sound).mpr ⟨there, named⟩
    exact (Graph.resolveColumn_found found).mpr held

-- A key of the row leads to the target in one of two ways, and the second asks for the only
-- key of the target, since nothing references a resource that has several.
theorem Graph.joins_exact {resource link : Resource} {edge : Relationship} {rowKey : Column}
    (there : resource ∈ graph.resources) (column : rowKey ∈ resource.columns)
    (linkThere : link ∈ graph.resources) (linked : edge ∈ link.relationships) :
    resource.Joins rowKey edge.target ↔
      (∃ own ∈ resource.relationships, own.column = rowKey.name ∧ own.target = edge.target) ∨
        (resource.id = edge.target ∧
          (resource.columns.filter (·.isPrimaryKey)).map Column.name = [rowKey.name]) := by
  have held := sound.resources resource there
  unfold Resource.Joins
  refine or_congr ?_ (and_congr_right fun own => ?_)
  · simp only [Resource.relationship?_exact held, and_assoc]
  · exact Resource.key_single held (Graph.target_single sound linkThere linked there own) column

theorem Membership.validate_links {m : Membership} : m.validate graph = .ok () ↔
    ∃ link resource target, m.Links graph link resource target := by
  rw [Membership.validate_exact]
  constructor
  · rintro ⟨identity, linkKey, edge, resource, rowKey, identityAt, linkKeyAt, edgeAt, resourceAt,
      rowKeyAt, joins⟩
    obtain ⟨link, linkAt, edgeHeld⟩ := Graph.relationship?_exact.mp edgeAt
    obtain ⟨linkThere, linkNamed⟩ := (Graph.resource?_carries sound).mp linkAt
    have linkSound := sound.resources link linkThere
    obtain ⟨edgeThere, edgeColumn⟩ := (Resource.relationship?_exact linkSound).mp edgeHeld
    obtain ⟨there, named⟩ := (Graph.resource?_carries sound).mp (Graph.resolve_ok.mp resourceAt)
    obtain ⟨columnThere, columnNamed⟩ :=
      (Resource.column?_exact (sound.resources resource there)).mp rowKeyAt
    rw [Graph.joins_exact sound there columnThere linkThere edgeThere, columnNamed, named] at joins
    exact ⟨link, resource, edge.target, linkThere, linkNamed,
      (Graph.resolveColumn_found linkAt).mp ⟨identity, identityAt⟩,
      (Graph.resolveColumn_found linkAt).mp ⟨linkKey, linkKeyAt⟩,
      ⟨edge, edgeThere, edgeColumn, rfl⟩, there, named,
      columnNamed ▸ List.mem_map_of_mem columnThere, joins⟩
  · rintro ⟨link, resource, _, links⟩
    obtain ⟨edge, edgeThere, edgeColumn, rfl⟩ := links.linked
    have linkAt := (Graph.resource?_carries sound).mpr ⟨links.linkDeclared, links.linkNamed⟩
    obtain ⟨identity, identityAt⟩ := (Graph.resolveColumn_found linkAt).mpr links.identity
    obtain ⟨linkKey, linkKeyAt⟩ := (Graph.resolveColumn_found linkAt).mpr links.linkKey
    have edgeHeld := (Resource.relationship?_exact
      (sound.resources link links.linkDeclared)).mpr ⟨edgeThere, edgeColumn⟩
    obtain ⟨rowKey, columnThere, columnNamed⟩ := List.mem_map.mp links.rowKey
    have joins := links.joined
    rw [← columnNamed, ← links.named, ← Graph.joins_exact sound links.declared columnThere
      links.linkDeclared edgeThere] at joins
    exact ⟨identity, linkKey, edge, resource, rowKey, identityAt, linkKeyAt,
      Graph.relationship?_exact.mpr ⟨link, linkAt, edgeHeld⟩,
      Graph.resolve_ok.mpr ((Graph.resource?_carries sound).mpr ⟨links.declared, links.named⟩),
      (Resource.column?_exact (sound.resources resource links.declared)).mpr
        ⟨columnThere, columnNamed⟩, joins⟩

theorem Leaf.validate_resolves (leaf : Leaf) :
    leaf.predicate.validate graph = .ok () ↔ leaf.Resolves graph := by
  cases leaf with
  | owned o =>
      rw [Resolves, ← Graph.resolveColumn_carries sound, predicate, Predicate.validate]
      cases graph.resolveColumn o.resource o.column <;> simp
  | joined m => exact Membership.validate_links sound

end Leaves

namespace Predicate

variable {graph : Graph} {p : Predicate}

theorem parts_exact {holds : Predicate → Prop} : (∀ part, p.Part part → holds part) ↔
    holds p ∧ ∀ q ∈ p.operands, ∀ part, q.Part part → holds part := by
  constructor
  · intro each
    exact ⟨each p (.whole p), fun q operand part inner => each part (.inside operand inner)⟩
  · intro ⟨whole, each⟩ part inner
    cases inner with
    | whole => exact whole
    | inside operand below => exact each _ operand part below

structure Grounded (p : Predicate) (graph : Graph) : Prop where
  filled : ∀ part, p.Part part → part ≠ .all [] ∧ part ≠ .any []
  leaves : ∀ leaf ∈ p.leaves, leaf.predicate.validate graph = .ok ()

theorem leaf_grounded (leaf : Leaf) :
    leaf.predicate.Grounded graph ↔ leaf.predicate.validate graph = .ok () := by
  constructor
  · intro grounded
    cases leaf <;> exact grounded.leaves _ (List.mem_singleton_self _)
  · intro valid
    constructor
    · intro part inner
      cases inner with
      | whole => cases leaf <;> exact ⟨nofun, nofun⟩
      | inside operand => cases leaf <;> cases operand
    · intro other member
      cases leaf <;> cases List.mem_singleton.mp member <;> exact valid

theorem operands_grounded (p : Predicate) (inner : p.leaves = operandLeaves p.operands) :
    p.Grounded graph ↔
      (p ≠ .all [] ∧ p ≠ .any []) ∧ ∀ q ∈ p.operands, q.Grounded graph := by
  constructor
  · intro grounded
    obtain ⟨filled, each⟩ := parts_exact.mp grounded.filled
    refine ⟨filled, fun q operand => ⟨each q operand, ?_⟩⟩
    intro leaf member
    exact grounded.leaves leaf (inner ▸ leaves_operand operand member)
  · rintro ⟨filled, each⟩
    constructor
    · exact parts_exact.mpr ⟨filled, fun q operand => (each q operand).filled⟩
    · intro leaf member
      rw [inner] at member
      obtain ⟨q, operand, inside⟩ := mem_operandLeaves.mp member
      exact (each q operand).leaves leaf inside

theorem valid_grounded (p : Predicate) (valid : p.validate graph = .ok ()) :
    p.Grounded graph := by
  induction p with
  | literal value => exact (operands_grounded _ rfl).mpr ⟨⟨nofun, nofun⟩, nofun⟩
  | ownsRow ownership => exact (leaf_grounded (.owned ownership)).mpr valid
  | memberOfJoin membership => exact (leaf_grounded (.joined membership)).mpr valid
  | all operands ih =>
      obtain ⟨filled, each⟩ := all_operands_valid valid
      exact (operands_grounded _ rfl).mpr ⟨⟨fun none => filled (all.inj none), nofun⟩,
        fun q operand => ih q operand (each q operand)⟩
  | any operands ih =>
      obtain ⟨filled, each⟩ := any_operands_valid valid
      exact (operands_grounded _ rfl).mpr ⟨⟨nofun, fun none => filled (any.inj none)⟩,
        fun q operand => ih q operand (each q operand)⟩
  | not operand ih =>
      refine (operands_grounded _ (by simp [leaves, operands, operandLeaves])).mpr
        ⟨⟨nofun, nofun⟩, fun q member => ?_⟩
      rw [List.mem_singleton.mp member]
      exact ih valid

theorem subject?_none (p : Predicate) : p.subject? = none ↔ p.leaves = [] := by
  rw [subject?_leaves, Option.map_eq_none_iff, List.head?_eq_none_iff]

theorem about_subject {p : Predicate} (about : p.About resource)
    (found : p.subject? = some subject) : subject = resource := by
  rw [subject?_leaves] at found
  obtain ⟨leaf, first, named⟩ := Option.map_eq_some_iff.mp found
  exact named.symm.trans (about leaf (List.mem_of_head? first))

theorem operands_checked {operands : List Predicate}
    (about : ∀ leaf ∈ operandLeaves operands, leaf.resource = resource)
    (each : ∀ q ∈ operands, q.validate graph = .ok ()) :
    validateOperands graph none operands = .ok () := by
  refine (validateOperands_exact _ _ _).mpr ⟨each, fun q operand subject found => ?_⟩
  have here : q.About resource := fun leaf inside => about leaf (leaves_operand operand inside)
  rw [about_subject here found, Option.none_or]
  have whole : (Predicate.all operands).About resource := about
  cases first : firstSubject? operands with
  | none =>
      have bare : operandLeaves operands = [] := (subject?_none (.all operands)).mp first
      have nothing := (subject?_none q).mpr
        (List.eq_nil_of_subset_nil (bare ▸ leaves_operand operand))
      rw [nothing] at found
      cases found
  | some other => rw [about_subject (p := .all operands) whole first]

theorem grounded_valid (p : Predicate) (grounded : p.Grounded graph) (about : p.About resource) :
    p.validate graph = .ok () := by
  induction p with
  | literal value => rfl
  | ownsRow ownership => exact (leaf_grounded (.owned ownership)).mp grounded
  | memberOfJoin membership => exact (leaf_grounded (.joined membership)).mp grounded
  | all operands ih =>
      obtain ⟨⟨filled, _⟩, each⟩ := (operands_grounded _ rfl).mp grounded
      refine validate_all_exact.mpr ⟨fun none => filled (by rw [none]), ?_⟩
      exact operands_checked about fun q operand =>
        ih q operand (each q operand) fun leaf inside => about leaf (leaves_operand operand inside)
  | any operands ih =>
      obtain ⟨⟨_, filled⟩, each⟩ := (operands_grounded _ rfl).mp grounded
      refine validate_any_exact.mpr ⟨fun none => filled (by rw [none]), ?_⟩
      exact operands_checked about fun q operand =>
        ih q operand (each q operand) fun leaf inside => about leaf (leaves_operand operand inside)
  | not operand ih =>
      obtain ⟨_, each⟩ :=
        (operands_grounded _ (by simp [leaves, operands, operandLeaves])).mp grounded
      exact ih (each operand (List.mem_singleton_self operand)) about

-- In a graph that declarations led to, the valid predicates are just the well-formed ones, and
-- the subject of one is the resource that all its leaves are about.
theorem validate_wellFormed (path : graph.Reached) (p : Predicate) :
    (p.validate graph = .ok () ↔ p.WellFormed graph) ∧
      (p.validate graph = .ok () → (∀ leaf ∈ p.leaves, p.subject? = some leaf.resource) ∧
        (p.subject? = none ↔ p.leaves = [])) := by
  have sound := Graph.reaches_sound Graph.empty_sound path
  refine ⟨⟨?_, ?_⟩, fun valid => ⟨valid_subject p valid, subject?_none p⟩⟩
  · intro valid
    have grounded := valid_grounded p valid
    refine ⟨grounded.filled, fun leaf member => ?_, p.subject?.getD "", fun leaf member => ?_⟩
    · exact (Leaf.validate_resolves sound leaf).mp (grounded.leaves leaf member)
    · rw [valid_subject p valid leaf member, Option.getD_some]
  · rintro ⟨filled, resolves, resource, about⟩
    refine grounded_valid p ⟨filled, fun leaf member => ?_⟩ about
    exact (Leaf.validate_resolves sound leaf).mpr (resolves leaf member)

def inOwnChat : Predicate :=
  .all [.literal true, .not (.any [.ownsRow ⟨"messages", "id"⟩, .literal false]),
    .memberOfJoin ⟨"messages", "chatId", "messages", "chatId", "id"⟩]

def ofTwoChats : Predicate :=
  .any [.not (.all [.literal true, inOwnChat]),
    .memberOfJoin ⟨"chats", "id", "messages", "chatId", "id"⟩]

theorem chats_wellFormed :
    Graph.chatGraph.Reached ∧ inOwnChat.WellFormed Graph.chatGraph ∧
      inOwnChat.subject? = some "messages" ∧ ¬ ofTwoChats.WellFormed Graph.chatGraph := by
  have path : Graph.chatGraph.Reached := .step _ (.step _ (.step _ .refl))
  have valid : inOwnChat.validate Graph.chatGraph = .ok () := rfl
  obtain ⟨exactly, subject⟩ := validate_wellFormed path inOwnChat
  refine ⟨path, exactly.mp valid, ?_, fun wellFormed => ?_⟩
  · exact (subject valid).1 (.owned ⟨"messages", "id"⟩) List.mem_cons_self
  · have refused := (validate_wellFormed path ofTwoChats).1.mpr wellFormed
    cases refused

end Predicate
end RowSecurity

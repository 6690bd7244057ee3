import RowSecurity.Install.Dialect
import RowSecurity.Proofs.Predicate.Evaluation
import RowSecurity.Proofs.Predicate.Validity
import RowSecurity.Proofs.Sql.Grammar

-- Conditions in SQL against the predicates they are made from, as text and as truth of a row.
namespace RowSecurity

def Membership.select (schema : Option String) (m : Membership) : Sql.Select :=
  ⟨Install.linkAlias, m.identityKey, ⟨schema, m.linkResource⟩, m.linkKey, ⟨m.resource, m.rowKey⟩⟩

def Sql.Connective.join (connective : Sql.Connective) : List Sql.Condition → Sql.Condition
  | [] => .literal (connective == .and)
  | [operand] => .group operand
  | first :: second :: rest => .joined connective first second rest

namespace Predicate

mutual
def sql (schema : Option String) : Predicate → Sql.Condition
  | .literal value => .literal value
  | .ownsRow o => .equals ⟨o.resource, o.column⟩
  | .memberOfJoin m => .among (m.select schema)
  | .all operands => Sql.Connective.and.join (operandSqls schema operands)
  | .any operands => Sql.Connective.or.join (operandSqls schema operands)
  | .not operand => .negation (operand.sql schema)
termination_by structural p => p

def operandSqls (schema : Option String) : List Predicate → List Sql.Condition
  | [] => []
  | p :: rest => p.sql schema :: operandSqls schema rest
termination_by structural operands => operands
end

theorem operandSqls_map (schema : Option String) (operands : List Predicate) :
    operandSqls schema operands = operands.map (sql schema) := by
  induction operands with
  | nil => rfl
  | cons p rest ih => rw [operandSqls, ih, List.map_cons]

end Predicate

namespace Sql

theorem Connective.join_chars (connective : Connective) {operands : List Condition}
    (some : operands ≠ []) : (connective.join operands).chars =
      spelled "(" ++ connective.word.intercalate (operands.map Condition.chars) ++ spelled ")" := by
  cases operands with
  | nil => exact absurd rfl some
  | cons first rest =>
      rw [intercalate_more, ← Condition.moreChars_flatMap]
      cases rest with
      | nil => simp [join, Condition.chars, Condition.moreChars]
      | cons second rest => simp [join, Condition.chars, Condition.moreChars]

theorem Connective.join_truth (identity : Json) (database : Table → List Row) (scope : Scope)
    (connective : Connective) (operands : List Condition) :
    (connective.join operands).truth identity database scope =
      connective.combine (operands.map (Condition.truth identity database scope)) := by
  cases operands with
  | nil => cases connective <;> rfl
  | cons first rest =>
      cases rest with
      | nil => exact (connective.combine_one _).symm
      | cons second rest => rw [join, Condition.truth, Condition.truths_map]; rfl

end Sql

namespace Install

theorem quoteIdentifier_chars (name : String) :
    (quoteIdentifier name).toList = Sql.quoted name := by
  have doubled : ∀ chars, doubleQuotes chars = Sql.doubled chars := by
    intro chars
    induction chars with
    | nil => rfl
    | cons c rest ih =>
        by_cases quote : c = '"'
        · rw [doubleQuotes, if_pos quote, ih, quote, Sql.doubled_quote]
        · rw [doubleQuotes, if_neg quote, ih, Sql.doubled_other quote]
  rw [quoteIdentifier, String.toList_ofList, quotedChars, doubled, Sql.quoted]

theorem qualified_chars (qualifier column : String) :
    (qualified qualifier column).toList = Sql.Column.chars ⟨qualifier, column⟩ := by
  simp only [qualified, String.toList_append, quoteIdentifier_chars, String.reduceToList,
    Sql.Column.chars, List.append_assoc, List.cons_append, List.nil_append]

namespace Settings

variable (settings : Settings)

theorem table_chars (resource : String) :
    (settings.table resource).toList = Sql.Table.chars ⟨settings.schema, resource⟩ := by
  unfold table Sql.Table.chars
  cases settings.schema with
  | none => exact quoteIdentifier_chars resource
  | some schema => exact qualified_chars schema resource

theorem memberOfJoinText_chars (m : Membership) : (settings.memberOfJoinText m).toList =
    Sql.spelled "(" ++ settings.identityFunction.toList ++ Sql.spelled " IN (" ++
      (m.select settings.schema).chars ++ Sql.spelled "))" := by
  unfold memberOfJoinText
  simp only [String.toList_append, qualified_chars, table_chars, quoteIdentifier_chars,
    String.reduceToList, Membership.select, Sql.Select.chars, Sql.spelled, List.append_assoc,
    List.cons_append, List.nil_append]

theorem operands_chars (connective : Sql.Connective) {operands : List Predicate}
    (some : operands ≠ [])
    (each : ∀ p ∈ operands, (settings.condition p).toList = (p.sql settings.schema).chars) :
    (connective.join (Predicate.operandSqls settings.schema operands)).chars =
      Sql.spelled "(" ++ connective.word.intercalate
        ((Predicate.operandConditions settings.leafText operands).map String.toList) ++
      Sql.spelled ")" := by
  have nonempty : operands.map (Predicate.sql settings.schema) ≠ [] := by simpa using some
  rw [Predicate.operandSqls_map, Sql.Connective.join_chars connective nonempty,
    Predicate.operandConditions_map, List.map_map, List.map_map]
  congr 3
  exact List.map_congr_left fun p member => (each p member).symm

theorem condition_chars {graph : Graph} (usual : settings.identityFunction = "auth.user_id()")
    (p : Predicate) (valid : p.validate graph = .ok ()) :
    (settings.condition p).toList = (p.sql settings.schema).chars := by
  induction p with
  | literal value =>
      cases value <;>
        simp [condition, Predicate.condition, leafText, Predicate.sql, Sql.Condition.chars,
          Sql.spelled]
  | ownsRow o =>
      simp only [condition, Predicate.condition, leafText, ownsRowText, String.toList_append,
        qualified_chars, usual, String.reduceToList, Predicate.sql, Sql.Condition.chars,
        Sql.spelled, List.cons_append, List.nil_append]
  | memberOfJoin m =>
      simp only [condition, Predicate.condition, leafText, memberOfJoinText_chars, usual,
        Predicate.sql, Sql.Condition.chars, Sql.spelled, String.reduceToList, List.cons_append,
        List.nil_append]
  | all operands ih =>
      obtain ⟨some, each⟩ := Predicate.all_operands_valid valid
      rw [Predicate.sql, operands_chars settings .and some fun p member =>
        ih p member (each p member)]
      simp only [condition, Predicate.condition, String.toList_append, String.toList_intercalate,
        Sql.Connective.word, Sql.spelled]
  | any operands ih =>
      obtain ⟨some, each⟩ := Predicate.any_operands_valid valid
      rw [Predicate.sql, operands_chars settings .or some fun p member =>
        ih p member (each p member)]
      simp only [condition, Predicate.condition, String.toList_append, String.toList_intercalate,
        Sql.Connective.word, Sql.spelled]
  | not operand ih =>
      have inside := ih valid
      simp only [condition] at inside
      simp only [condition, Predicate.condition, Predicate.sql, Sql.Condition.chars,
        String.toList_append, inside, Sql.spelled]

end Settings
end Install

def Sql.tables (schema : Option String) (rows : String → List Row) (table : Sql.Table) : List Row :=
  if table.schema = schema then rows table.name else []

section

variable (schema : Option String) (principal : Option Json) (rows : String → List Row) (row : Row)
  (resource : String)

theorem Membership.keeps_correlates (m : Membership) (apart : m.resource ≠ Install.linkAlias) :
    (m.select schema).keeps (Sql.Scope.empty.bind m.resource row) = m.correlates row := by
  funext link
  rw [Sql.Select.keeps_other _ _ _ apart]
  exact congrArg (fun held => (compared (link.value m.linkKey) held).holds)
    (Sql.Scope.value_bound _ _ _ _)

theorem Membership.select_members (m : Membership) (own : m.resource = resource)
    (apart : m.resource ≠ Install.linkAlias) :
    (m.select schema).members (Sql.Scope.empty.bind resource row) (Sql.tables schema rows) =
      ((rows m.linkResource).filter (m.correlates row)).map fun link =>
        link.value m.identityKey := by
  have found : Sql.tables schema rows (m.select schema).table = rows m.linkResource := if_pos rfl
  rw [Sql.Select.members_exact, ← own, m.keeps_correlates schema row apart, found]
  rfl

theorem Predicate.sql_truth (p : Predicate) (about : p.About resource)
    (apart : ∀ m, .joined m ∈ p.leaves → m.resource ≠ Install.linkAlias) :
    (p.sql schema).truth (principal.getD .null) (Sql.tables schema rows)
      (Sql.Scope.empty.bind resource row) = p.truth row (.by? principal rows) := by
  induction p with
  | literal value => rfl
  | ownsRow o =>
      have own : o.resource = resource := about _ (List.mem_singleton.mpr rfl)
      rw [Predicate.truth, Ownership.truth_compared, Predicate.sql, own, Sql.Condition.truth,
        Sql.Scope.value_bound]
  | memberOfJoin m =>
      have own : m.resource = resource := about _ (List.mem_singleton.mpr rfl)
      have outside := apart m (List.mem_singleton.mpr rfl)
      rw [Predicate.truth, Membership.truth_compared, Predicate.sql, Sql.Condition.truth,
        Membership.select_members _ _ _ _ m own outside, List.map_map]
      rfl
  | all operands ih =>
      rw [Predicate.truth_all, Predicate.sql, Sql.Connective.join_truth,
        Predicate.operandSqls_map, List.map_map]
      refine congrArg Truth.conj (List.map_congr_left fun p member => ?_)
      have inside := leaves_operand member
      exact ih p member (fun leaf found => about leaf (inside found))
        (fun m found => apart m (inside found))
  | any operands ih =>
      rw [Predicate.truth_any, Predicate.sql, Sql.Connective.join_truth,
        Predicate.operandSqls_map, List.map_map]
      refine congrArg Truth.disj (List.map_congr_left fun p member => ?_)
      have inside := leaves_operand member
      exact ih p member (fun leaf found => about leaf (inside found))
        (fun m found => apart m (inside found))
  | not operand ih =>
      rw [Predicate.truth, Predicate.sql, Sql.Condition.truth, ih about apart]

end

-- The text of a valid predicate is read in one way, and what is read is as true of a row as
-- the predicate. A membership of a resource that is named like the link row is the exception.
theorem condition_read_exact (settings : Install.Settings) {graph : Graph} {p : Predicate}
    (usual : settings.identityFunction = "auth.user_id()") (valid : p.validate graph = .ok ())
    (apart : ∀ m, .joined m ∈ p.leaves → m.resource ≠ "_link") :
    ∃ e : Sql.Condition, (∀ other, settings.condition p = other.text ↔ other = e) ∧
      ∀ resource, (∀ subject, p.subject? = some subject → subject = resource) →
        ∀ row principal rows,
          e.truth (principal.getD .null) (Sql.tables settings.schema rows)
            (Sql.Scope.empty.bind resource row) = p.truth row (.by? principal rows) := by
  have text : settings.condition p = (p.sql settings.schema).text := by
    apply String.toList_injective
    rw [Sql.Condition.text, String.toList_ofList]
    exact Install.Settings.condition_chars settings usual p valid
  refine ⟨p.sql settings.schema, fun other => ⟨fun read => ?_, fun equal => ?_⟩, ?_⟩
  · exact Sql.Condition.text_unique (read.symm.trans text)
  · rw [equal, text]
  · intro resource own row principal rows
    have fits : p.Fits graph resource := ⟨valid, own⟩
    exact Predicate.sql_truth settings.schema principal rows row resource p fits.about apart

def chatsGraph : Graph :=
  ((Graph.empty.after (.resource "chats"
      [Column.build "id" .serial [.primaryKey], Column.plain "owner" .serial])).after
    (.resource "participants" [Column.plain "chat" .serial, Column.plain "user" .serial])).after
    (.relationship ⟨"participants", "chat", "chats"⟩)

def participates : Predicate :=
  .any [.ownsRow ⟨"chats", "owner"⟩,
    .all [.memberOfJoin ⟨"chats", "id", "participants", "chat", "user"⟩]]

theorem condition_read_participates :
    participates.validate chatsGraph = .ok () ∧
      ∃ e : Sql.Condition,
        (∀ other, Install.Settings.default.condition participates = other.text ↔ other = e) ∧
          ∀ row principal rows,
            e.truth (principal.getD .null) (Sql.tables none rows)
              (Sql.Scope.empty.bind "chats" row) =
                participates.truth row (.by? principal rows) := by
  have valid : participates.validate chatsGraph = .ok () := rfl
  have apart : ∀ m, .joined m ∈ participates.leaves → m.resource ≠ "_link" := by
    intro m member
    simp [participates, Predicate.leaves, Predicate.operandLeaves] at member
    rw [member]
    decide
  obtain ⟨e, read, holds⟩ := condition_read_exact Install.Settings.default rfl valid apart
  exact ⟨valid, e, read, holds "chats" fun subject found => by cases found; rfl⟩

theorem Membership.memberOfJoinText_read (settings : Install.Settings) (m : Membership)
    (other : Sql.Select) :
    settings.memberOfJoinText m =
        "(" ++ settings.identityFunction ++ " IN (" ++ String.ofList other.chars ++ "))" ↔
      other = m.select settings.schema := by
  rw [← String.toList_inj, Install.Settings.memberOfJoinText_chars]
  simp only [String.toList_append, String.toList_ofList, Sql.spelled, List.append_assoc,
    List.append_cancel_left_eq, String.reduceToList]
  constructor
  · intro same
    exact (Sql.select_unique same).1.symm
  · intro equal
    rw [equal]

theorem Membership.valid_declared {graph : Graph} {m : Membership}
    (valid : m.validate graph = .ok ()) : graph.contains m.resource = true := by
  obtain ⟨_, _, _, resource, _, _, _, _, resourceAt, _⟩ := Membership.validate_exact.mp valid
  obtain ⟨position, positionAt, _⟩ := Graph.resource?_exact.mp (Graph.resolve_ok.mp resourceAt)
  cases declared : graph.contains m.resource with
  | true => rfl
  | false =>
      rw [Graph.contains_exact.mp declared] at positionAt
      cases positionAt

-- The subquery compares link rows with the row at hand exactly when the resource is not named
-- like the link row. Otherwise it compares each link row with itself.
theorem membership_alias_exact (settings : Install.Settings) {graph : Graph} {m : Membership}
    (valid : m.validate graph = .ok ()) :
    ∃ select : Sql.Select,
      (∀ other : Sql.Select, settings.memberOfJoinText m =
          "(" ++ settings.identityFunction ++ " IN (" ++ String.ofList other.chars ++ "))" ↔
        other = select) ∧
      (select.outer.qualifier ≠ select.bound ↔ m.resource ≠ "_link") ∧
      (m.resource ≠ "_link" → ∀ row link,
        select.keeps (Sql.Scope.empty.bind m.resource row) link = m.correlates row link) ∧
      (m.resource = "_link" → graph.contains "_link" = true ∧ ∀ row link,
        select.keeps (Sql.Scope.empty.bind m.resource row) link = m.correlates link link) := by
  refine ⟨m.select settings.schema, Membership.memberOfJoinText_read settings m, Iff.rfl, ?_, ?_⟩
  · intro apart row link
    rw [Membership.keeps_correlates settings.schema row m apart]
  · intro captured
    refine ⟨captured ▸ Membership.valid_declared valid, fun row link => ?_⟩
    exact Sql.Select.keeps_captured _ _ _ captured

def nodesGraph : Graph :=
  (Graph.empty.after (.resource "nodes"
      [Column.build "id" .serial [.primaryKey], Column.plain "parent" .serial,
        Column.plain "owner" .serial])).after
    (.relationship ⟨"nodes", "parent", "nodes"⟩)

def ownsChild : Membership := ⟨"nodes", "id", "nodes", "parent", "owner"⟩

theorem membership_alias_nodes :
    ownsChild.validate nodesGraph = .ok () ∧ ∃ select : Sql.Select,
      Install.Settings.default.memberOfJoinText ownsChild =
          "(auth.user_id() IN (" ++ String.ofList select.chars ++ "))" ∧
        select.outer.qualifier ≠ select.bound ∧ ∀ row link,
          select.keeps (Sql.Scope.empty.bind "nodes" row) link = ownsChild.correlates row link := by
  have valid : ownsChild.validate nodesGraph = .ok () := rfl
  have apart : ownsChild.resource ≠ "_link" := by decide
  obtain ⟨select, read, names, correlates, _⟩ :=
    membership_alias_exact Install.Settings.default valid
  exact ⟨valid, select, (read select).mpr rfl, names.mpr apart, correlates apart⟩

def linkGraph : Graph :=
  (Graph.empty.after (.resource "_link"
      [Column.build "id" .serial [.primaryKey], Column.plain "parent" .serial,
        Column.plain "owner" .serial])).after
    (.relationship ⟨"_link", "parent", "_link"⟩)

def ownsLink : Membership := ⟨"_link", "id", "_link", "parent", "owner"⟩

def linkRow : Row := ⟨[("id", .number (.integer 1 (by decide)))]⟩

def loopRow : Row :=
  ⟨[("id", .number (.integer 2 (by decide))), ("owner", .number (.integer 10 (by decide))),
    ("parent", .number (.integer 2 (by decide)))]⟩

def linkRows (resource : String) : List Row :=
  if resource = "_link" then [linkRow, loopRow] else []

def linkOwner : Json := .number (.integer 10 (by decide))

-- Nothing is below the first row, and yet the condition in SQL holds of it.
theorem link_membership_captured :
    linkGraph.Reached ∧ ownsLink.validate linkGraph = .ok () ∧ ∃ select : Sql.Select,
      Install.Settings.default.memberOfJoinText ownsLink =
          "(auth.user_id() IN (" ++ String.ofList select.chars ++ "))" ∧
        select.outer.qualifier = select.bound ∧
        ownsLink.truth linkRow (.byPrincipal linkOwner linkRows) = .no ∧
        (Sql.Condition.among select).truth linkOwner (Sql.tables none linkRows)
          (Sql.Scope.empty.bind "_link" linkRow) = .yes := by
  refine ⟨.step _ (.step _ .refl), rfl, ownsLink.select none, ?_, rfl, ?_, ?_⟩
  · exact (Membership.memberOfJoinText_read Install.Settings.default ownsLink _).mpr rfl
  · rfl
  · rfl

end RowSecurity

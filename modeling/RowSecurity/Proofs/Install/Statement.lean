import Mathlib.Data.List.Basic
import RowSecurity.Install.Plan
import RowSecurity.Proofs.Install.Condition
import RowSecurity.Proofs.Sql.Grammar
import RowSecurity.Rule.Basic

-- A reader of statements that knows their words and how quotes are doubled. Where an identifier
-- ends, it has to see for itself.
namespace RowSecurity.Sql

structure Policy where
  name : String
  table : Table
  action : Action
  principal : String
  clause : Clause
  expression : String
deriving DecidableEq

def actionChars : Action → List Char
  | .select => spelled "SELECT"
  | .insert => spelled "INSERT"
  | .update => spelled "UPDATE"
  | .delete => spelled "DELETE"

def clauseChars : Clause → List Char
  | .using => spelled "USING"
  | .check => spelled "WITH CHECK"

def Policy.chars (policy : Policy) : List Char :=
  spelled "CREATE POLICY " ++ quoted policy.name ++ spelled " ON " ++ policy.table.chars ++
    spelled " AS PERMISSIVE FOR " ++ actionChars policy.action ++ spelled " TO " ++
    quoted policy.principal ++ spelled " " ++ clauseChars policy.clause ++ spelled " " ++
    policy.expression.toList ++ spelled ";"

def Policy.text (policy : Policy) : String := String.ofList policy.chars

def word? (word text : List Char) : Option (List Char) := text.dropPrefix? word

def choice? (chars : α → List Char) (choices : List α) (text : List Char) :
    Option (α × List Char) :=
  choices.findSome? fun choice => (word? (chars choice) text).map fun rest => (choice, rest)

def inside? : List Char → Option (List Char × List Char)
  | [] => none
  | '"' :: '"' :: rest => (inside? rest).map fun (name, after) => ('"' :: name, after)
  | '"' :: rest => some ([], rest)
  | c :: rest => (inside? rest).map fun (name, after) => (c :: name, after)

def identifier? (text : List Char) : Option (String × List Char) := do
  let opened ← word? (spelled "\"") text
  let (name, rest) ← inside? opened
  return (String.ofList name, rest)

def table? (text : List Char) : Option (Table × List Char) := do
  let (first, rest) ← identifier? text
  match word? (spelled ".") rest with
  | none => return (⟨none, first⟩, rest)
  | some behind =>
      let (second, rest) ← identifier? behind
      return (⟨some first, second⟩, rest)

-- The expression has no words of its own: it is all that stands before the last character.
def expression? (text : List Char) : Option String :=
  if text.getLast? = some ';' then some (String.ofList text.dropLast) else none

def Policy.read? (text : String) : Option Policy := do
  let rest ← word? (spelled "CREATE POLICY ") text.toList
  let (name, rest) ← identifier? rest
  let rest ← word? (spelled " ON ") rest
  let (table, rest) ← table? rest
  let rest ← word? (spelled " AS PERMISSIVE FOR ") rest
  let (action, rest) ← choice? actionChars [.select, .insert, .update, .delete] rest
  let rest ← word? (spelled " TO ") rest
  let (principal, rest) ← identifier? rest
  let rest ← word? (spelled " ") rest
  let (clause, rest) ← choice? clauseChars [.using, .check] rest
  let rest ← word? (spelled " ") rest
  let expression ← expression? rest
  return ⟨name, table, action, principal, clause, expression⟩

theorem word_exact {word text rest : List Char} :
    word? word text = some rest ↔ text = word ++ rest := by
  simp [word?, List.dropPrefix?_eq_some_iff]

theorem word_roundtrip (word rest : List Char) : word? word (word ++ rest) = some rest :=
  word_exact.mpr rfl

theorem choice_canonical {chars : α → List Char} {choices : List α} {choice : α}
    (read : choice? chars choices text = some (choice, rest)) : text = chars choice ++ rest := by
  obtain ⟨found, _, same⟩ := List.exists_of_findSome?_eq_some read
  obtain ⟨after, left, equal⟩ := Option.map_eq_some_iff.mp same
  cases equal
  exact word_exact.mp left

theorem action_roundtrip (action : Action) (rest : List Char) :
    choice? actionChars [.select, .insert, .update, .delete] (actionChars action ++ rest) =
      some (action, rest) := by
  cases action <;> simp [choice?, word?, actionChars, spelled, List.dropPrefix?]

theorem clause_roundtrip (clause : Clause) (rest : List Char) :
    choice? clauseChars [.using, .check] (clauseChars clause ++ rest) = some (clause, rest) := by
  cases clause <;> simp [choice?, word?, clauseChars, spelled, List.dropPrefix?]

theorem inside_roundtrip (name : List Char) {c : Char} (rest : List Char) (other : c ≠ '"') :
    inside? (doubled name ++ '"' :: c :: rest) = some (name, c :: rest) := by
  induction name with
  | nil => simp [doubled, inside?, other]
  | cons d more ih =>
      by_cases quote : d = '"'
      · subst quote
        simp [doubled_quote, inside?, ih]
      · simp [doubled_other quote, inside?, quote, ih]

theorem inside_canonical {text name rest : List Char}
    (read : inside? text = some (name, rest)) : text = doubled name ++ '"' :: rest := by
  fun_induction inside? text generalizing name with
  | case1 => cases read
  | case2 text ih =>
      obtain ⟨⟨inner, after⟩, left, equal⟩ := Option.map_eq_some_iff.mp read
      cases equal
      rw [ih left, doubled_quote]
      rfl
  | case3 text plain =>
      cases read
      rfl
  | case4 c text _ plain ih =>
      obtain ⟨⟨inner, after⟩, left, equal⟩ := Option.map_eq_some_iff.mp read
      cases equal
      rw [ih left, doubled_other plain]
      rfl

theorem identifier_roundtrip (name : String) {c : Char} (rest : List Char) (other : c ≠ '"') :
    identifier? (quoted name ++ c :: rest) = some (name, c :: rest) := by
  simp [identifier?, quoted, spelled, word?, List.dropPrefix?, inside_roundtrip, other]

theorem identifier_spaced (name : String) {rest : List Char} (ended : rest.head? = some ' ') :
    identifier? (quoted name ++ rest) = some (name, rest) := by
  obtain ⟨more, rfl⟩ := List.head?_eq_some_iff.mp ended
  exact identifier_roundtrip name more (by decide)

theorem identifier_canonical {text rest : List Char} {name : String}
    (read : identifier? text = some (name, rest)) : text = quoted name ++ rest := by
  obtain ⟨opened, begun, left⟩ := Option.bind_eq_some_iff.mp read
  obtain ⟨⟨inner, after⟩, inside, equal⟩ := Option.bind_eq_some_iff.mp left
  cases equal
  rw [word_exact.mp begun, inside_canonical inside]
  simp [quoted, spelled]

theorem table_spaced (table : Table) {rest : List Char} (ended : rest.head? = some ' ') :
    table? (table.chars ++ rest) = some (table, rest) := by
  obtain ⟨more, rfl⟩ := List.head?_eq_some_iff.mp ended
  obtain ⟨schema, name⟩ := table
  cases schema <;>
    simp [table?, Table.chars, identifier_roundtrip, word?, spelled, List.dropPrefix?]

theorem table_canonical {text rest : List Char} {table : Table}
    (read : table? text = some (table, rest)) : text = table.chars ++ rest := by
  obtain ⟨⟨first, left⟩, begun, more⟩ := Option.bind_eq_some_iff.mp read
  rw [identifier_canonical begun]
  cases dotted : word? (spelled ".") left with
  | none =>
      simp only [dotted] at more
      cases more
      rfl
  | some behind =>
      simp only [dotted] at more
      obtain ⟨⟨second, after⟩, named, equal⟩ := Option.bind_eq_some_iff.mp more
      cases equal
      rw [word_exact.mp dotted, identifier_canonical named]
      simp [Table.chars, spelled]

theorem expression_exact {text : List Char} {expression : String} :
    expression? text = some expression ↔ text = expression.toList ++ spelled ";" := by
  have closing : spelled ";" = [';'] := by simp [spelled]
  rw [expression?, closing]
  constructor
  · intro read
    split at read
    · rename_i last
      obtain ⟨front, rfl⟩ := List.getLast?_eq_some_iff.mp last
      cases read
      simp
    · cases read
  · rintro rfl
    simp

namespace Policy

theorem read_roundtrip (policy : Policy) : read? policy.text = some policy := by
  have onTable : ∀ rest, (spelled " ON " ++ rest).head? = some ' ' := by simp [spelled]
  have forAction : ∀ rest, (spelled " AS PERMISSIVE FOR " ++ rest).head? = some ' ' := by
    simp [spelled]
  have blank : ∀ rest, (spelled " " ++ rest).head? = some ' ' := by simp [spelled]
  have closed : expression? (policy.expression.toList ++ spelled ";") = some policy.expression :=
    expression_exact.mpr rfl
  simp only [read?, text, String.toList_ofList, chars, List.append_assoc, Option.bind_eq_bind,
    Option.bind_some, word_roundtrip, identifier_spaced, table_spaced, action_roundtrip,
    clause_roundtrip, onTable, forAction, blank, closed]
  rfl

theorem read_canonical {text : String} {policy : Policy} (read : read? text = some policy) :
    text = policy.text := by
  simp only [read?, Option.bind_eq_bind, Option.bind_eq_some_iff, word_exact, Prod.exists] at read
  obtain ⟨_, create, name, _, named, _, onTable, table, _, placed, _, forAction, action, _, acted,
    _, toRole, principal, _, granted, _, blank, clause, _, limited, _, space, expression, closed,
    equal⟩ := read
  cases equal
  apply String.toList_injective
  rw [create, identifier_canonical named, onTable, table_canonical placed, forAction,
    choice_canonical acted, toRole, identifier_canonical granted, blank, choice_canonical limited,
    space, expression_exact.mp closed]
  simp only [Policy.text, String.toList_ofList, chars, List.append_assoc]

theorem read_exact {text : String} {policy : Policy} :
    read? text = some policy ↔ text = policy.text := by
  constructor
  · exact read_canonical
  · rintro rfl
    exact read_roundtrip policy

end Policy

end RowSecurity.Sql

namespace RowSecurity.Install

theorem isGroup_enclosed {expression : List Char} (group : isGroup expression = true) :
    ∃ inside, expression = '(' :: (inside ++ [')']) := by
  simp only [isGroup, Bool.and_eq_true, beq_iff_eq] at group
  obtain ⟨⟨first, last⟩, _⟩ := group
  obtain ⟨rest, rfl⟩ := List.head?_eq_some_iff.mp first
  cases rest with
  | nil => simp at last
  | cons c more =>
      rw [List.getLast?_cons_cons] at last
      obtain ⟨inside, equal⟩ := List.getLast?_eq_some_iff.mp last
      exact ⟨inside, by rw [equal]⟩

theorem grouped_enclosed (expression : String) :
    ∃ inside, grouped expression = "(" ++ inside ++ ")" := by
  unfold grouped
  split
  · rename_i group
    obtain ⟨inside, equal⟩ := isGroup_enclosed group
    refine ⟨String.ofList inside, String.toList_injective ?_⟩
    simp [equal]
  · exact ⟨expression, rfl⟩

theorem actionWord_chars (action : Action) :
    (actionWord action).toList = Sql.actionChars action := by
  cases action <;> exact (Sql.spelled.eq_1 _).symm

theorem clauseWord_chars (clause : Clause) :
    (clauseWord clause).toList = Sql.clauseChars clause := by
  cases clause <;> exact (Sql.spelled.eq_1 _).symm

namespace PolicyStatement

def content (policy : PolicyStatement) (schema : Option String) : Sql.Policy :=
  ⟨policy.name, ⟨schema, policy.resource⟩, policy.action, policy.principal, policy.clause,
    grouped policy.expression⟩

theorem sql_text {settings : Settings} {policy : PolicyStatement}
    (placed : policy.table = settings.table policy.resource) :
    policy.sql = (policy.content settings.schema).text := by
  have chars : policy.sql.toList = (policy.content settings.schema).chars := by
    unfold sql
    simp only [placed, String.toList_append, quoteIdentifier_chars, Settings.table_chars,
      actionWord_chars, clauseWord_chars]
    -- Only now, or both texts are compared letter by letter.
    simp only [Sql.Policy.chars, Sql.spelled]
    rfl
  rw [Sql.Policy.text, ← chars, String.ofList_toList]

-- A statement is read back in full, and its text is that of no other: not with other names,
-- another table, or another expression in the parentheses.
theorem statement_read_exact (settings : Settings) (policy : PolicyStatement)
    (placed : policy.table = settings.table policy.resource) :
    Sql.Policy.read? policy.sql = some (policy.content settings.schema) ∧
      (∃ inside, grouped policy.expression = "(" ++ inside ++ ")") ∧
      (∀ text read, Sql.Policy.read? text = some read ↔ text = read.text) ∧
      ∀ (otherSettings : Settings) (other : PolicyStatement),
        other.table = otherSettings.table other.resource → other.sql = policy.sql →
          other.name = policy.name ∧ otherSettings.schema = settings.schema ∧
            other.resource = policy.resource ∧ other.table = policy.table ∧
            other.action = policy.action ∧ other.principal = policy.principal ∧
            other.clause = policy.clause ∧
            grouped other.expression = grouped policy.expression := by
  have read : Sql.Policy.read? policy.sql = some (policy.content settings.schema) :=
    Sql.Policy.read_exact.mpr (sql_text placed)
  refine ⟨read, grouped_enclosed _, fun _ _ => Sql.Policy.read_exact, ?_⟩
  intro otherSettings other otherPlaced same
  have otherRead := Sql.Policy.read_exact.mpr (sql_text otherPlaced)
  rw [same, read] at otherRead
  injection otherRead with equal
  injection equal with name table action principal clause expression
  injection table with schema resource
  refine ⟨name.symm, schema.symm, resource.symm, ?_, action.symm, principal.symm, clause.symm,
    expression.symm⟩
  rw [placed, otherPlaced, Settings.table, Settings.table, schema, resource]

def shopSettings : Settings := { Settings.default with schema := some "shop\".\"posts" }

def ownStatement : PolicyStatement where
  name := "own\" ON \"posts"
  resource := "posts\" AS PERMISSIVE FOR ALL"
  table := shopSettings.table "posts\" AS PERMISSIVE FOR ALL"
  action := .update
  role := "authenticated"
  principal := "clerk\" USING (true); --"
  clause := .check
  expression := "(true) OR (false)"

theorem own_statement_read :
    ownStatement.table = shopSettings.table ownStatement.resource ∧
      ownStatement.sql = "CREATE POLICY \"own\"\" ON \"\"posts\" ON " ++
        "\"shop\"\".\"\"posts\".\"posts\"\" AS PERMISSIVE FOR ALL\" " ++
        "AS PERMISSIVE FOR UPDATE TO \"clerk\"\" USING (true); --\" " ++
        "WITH CHECK ((true) OR (false));" ∧
      Sql.Policy.read? ownStatement.sql = some ⟨"own\" ON \"posts",
        ⟨some "shop\".\"posts", "posts\" AS PERMISSIVE FOR ALL"⟩, .update,
        "clerk\" USING (true); --", .check, "((true) OR (false))"⟩ := by
  have placed : ownStatement.table = shopSettings.table ownStatement.resource := rfl
  obtain ⟨read, _⟩ := statement_read_exact shopSettings ownStatement placed
  refine ⟨placed, by decide +kernel, read⟩

end PolicyStatement
end RowSecurity.Install

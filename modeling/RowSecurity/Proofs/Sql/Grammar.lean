import RowSecurity.Proofs.Listed
import RowSecurity.Proofs.Row.Equality

-- The grammar of conditions about an acting identity. A text has one reading, also where more text
-- follows.
namespace RowSecurity.Sql

structure Column where
  qualifier : String
  name : String
deriving DecidableEq

structure Table where
  schema : Option String
  name : String
deriving DecidableEq

-- SELECT bound.identity FROM table AS bound WHERE bound.link = outer
structure Select where
  bound : String
  identity : String
  table : Table
  link : String
  outer : Column
deriving DecidableEq

inductive Connective where
  | and | or
deriving DecidableEq

-- Every way in which a condition is put together is its own tree, so one text that is
-- read in two ways is the text of two trees.
inductive Condition where
  | literal (value : Bool)
  | group (operand : Condition)
  | negation (operand : Condition)
  | joined (connective : Connective) (first second : Condition) (rest : List Condition)
  | equals (column : Column)
  | among (select : Select)

@[elab_as_elim, induction_eliminator]
theorem Condition.induct {motive : Condition → Prop}
    (literal : ∀ value, motive (.literal value))
    (group : ∀ operand, motive operand → motive (.group operand))
    (negation : ∀ operand, motive operand → motive (.negation operand))
    (joined : ∀ connective first second rest, motive first → motive second →
      (∀ operand ∈ rest, motive operand) → motive (.joined connective first second rest))
    (equals : ∀ column, motive (.equals column))
    (among : ∀ select, motive (.among select)) (e : Condition) : motive e :=
  match e with
  | .literal value => literal value
  | .group operand => group operand (induct literal group negation joined equals among operand)
  | .negation operand =>
      negation operand (induct literal group negation joined equals among operand)
  | .joined connective first second rest =>
      joined connective first second rest
        (induct literal group negation joined equals among first)
        (induct literal group negation joined equals among second)
        fun operand _ => induct literal group negation joined equals among operand
  | .equals column => equals column
  | .among select => among select
termination_by e

@[irreducible]
def spelled (word : String) : List Char := word.toList

def doubled (name : List Char) : List Char :=
  name.flatMap fun c => if c = '"' then ['"', '"'] else [c]

def quoted (name : String) : List Char := '"' :: (doubled name.toList ++ ['"'])

def Column.chars (column : Column) : List Char :=
  quoted column.qualifier ++ '.' :: quoted column.name

def Table.chars (table : Table) : List Char :=
  match table.schema with
  | some schema => quoted schema ++ '.' :: quoted table.name
  | none => quoted table.name

def Select.chars (select : Select) : List Char :=
  spelled "SELECT " ++ Column.chars ⟨select.bound, select.identity⟩ ++
    spelled " FROM " ++ select.table.chars ++ spelled " AS " ++ quoted select.bound ++
    spelled " WHERE " ++ Column.chars ⟨select.bound, select.link⟩ ++
    spelled " = " ++ select.outer.chars

def Connective.word : Connective → List Char
  | .and => spelled " AND "
  | .or => spelled " OR "

namespace Condition

mutual
def chars : Condition → List Char
  | .literal true => spelled "true"
  | .literal false => spelled "false"
  | .group operand => spelled "(" ++ operand.chars ++ spelled ")"
  | .negation operand => spelled "(NOT " ++ operand.chars ++ spelled ")"
  | .joined connective first second rest =>
      spelled "(" ++ first.chars ++ connective.word ++ second.chars ++ moreChars connective rest ++
        spelled ")"
  | .equals column => spelled "(auth.user_id() = " ++ column.chars ++ spelled ")"
  | .among select => spelled "(auth.user_id() IN (" ++ select.chars ++ spelled "))"
termination_by structural e => e

def moreChars (connective : Connective) : List Condition → List Char
  | [] => []
  | operand :: rest => connective.word ++ operand.chars ++ moreChars connective rest
termination_by structural operands => operands
end

def text (e : Condition) : String := String.ofList e.chars

end Condition

theorem doubled_quote (rest : List Char) : doubled ('"' :: rest) = '"' :: '"' :: doubled rest := rfl

theorem doubled_other {c : Char} (other : c ≠ '"') (rest : List Char) :
    doubled (c :: rest) = c :: doubled rest := by
  rw [doubled, List.flatMap_cons, if_neg other]
  rfl

theorem doubled_unique {a b : List Char} {x y : Char} {r q : List Char} (left : x ≠ '"')
    (right : y ≠ '"') (same : doubled a ++ '"' :: x :: r = doubled b ++ '"' :: y :: q) :
    a = b ∧ x :: r = y :: q := by
  induction a generalizing b with
  | nil =>
      cases b with
      | nil => exact ⟨rfl, List.cons.inj same |>.2⟩
      | cons d more =>
          by_cases quote : d = '"'
          · subst quote
            rw [doubled_quote] at same
            exact absurd (List.cons.inj (List.cons.inj same).2).1 left
          · rw [doubled_other quote] at same
            exact absurd (List.cons.inj same).1.symm quote
  | cons c rest ih =>
      by_cases quote : c = '"'
      · subst quote
        rw [doubled_quote] at same
        cases b with
        | nil => exact absurd (List.cons.inj (List.cons.inj same).2).1.symm right
        | cons d more =>
            by_cases other : d = '"'
            · subst other
              rw [doubled_quote] at same
              obtain ⟨equal, after⟩ := ih (List.cons.inj (List.cons.inj same).2).2
              exact ⟨by rw [equal], after⟩
            · rw [doubled_other other] at same
              exact absurd (List.cons.inj same).1.symm other
      · rw [doubled_other quote] at same
        cases b with
        | nil => exact absurd (List.cons.inj same).1 quote
        | cons d more =>
            by_cases other : d = '"'
            · subst other
              rw [doubled_quote] at same
              exact absurd (List.cons.inj same).1 quote
            · rw [doubled_other other] at same
              obtain ⟨equal, after⟩ := ih (List.cons.inj same).2
              exact ⟨by rw [(List.cons.inj same).1, equal], after⟩

theorem quoted_unique {a b : String} {x y : Char} {r q : List Char} (left : x ≠ '"')
    (right : y ≠ '"') (same : quoted a ++ x :: r = quoted b ++ y :: q) :
    a = b ∧ x :: r = y :: q := by
  simp only [quoted, List.cons_append, List.append_assoc, List.nil_append, List.cons.injEq,
    true_and] at same
  obtain ⟨equal, after⟩ := doubled_unique left right same
  exact ⟨String.toList_injective equal, after⟩

theorem column_unique {a b : Column} {x y : Char} {r q : List Char} (left : x ≠ '"')
    (right : y ≠ '"') (same : a.chars ++ x :: r = b.chars ++ y :: q) :
    a = b ∧ x :: r = y :: q := by
  simp only [Column.chars, List.append_assoc, List.cons_append] at same
  obtain ⟨qualifier, afterDot⟩ := quoted_unique (by decide) (by decide) same
  obtain ⟨name, after⟩ := quoted_unique left right (List.cons.inj afterDot).2
  cases a
  cases b
  cases qualifier
  cases name
  exact ⟨rfl, after⟩

theorem table_unique {a b : Table} {r q : List Char}
    (same : a.chars ++ ' ' :: r = b.chars ++ ' ' :: q) : a = b ∧ r = q := by
  obtain ⟨schema, name⟩ := a
  obtain ⟨other, known⟩ := b
  cases schema with
  | none =>
      cases other with
      | none =>
          obtain ⟨equal, after⟩ := quoted_unique (by decide) (by decide) same
          cases equal
          exact ⟨rfl, (List.cons.inj after).2⟩
      | some other =>
          simp only [Table.chars, List.append_assoc, List.cons_append] at same
          obtain ⟨_, after⟩ := quoted_unique (by decide) (by decide) same
          exact absurd (List.cons.inj after).1 (by decide)
  | some schema =>
      cases other with
      | none =>
          simp only [Table.chars, List.append_assoc, List.cons_append] at same
          obtain ⟨_, after⟩ := quoted_unique (by decide) (by decide) same
          exact absurd (List.cons.inj after).1 (by decide)
      | some other =>
          simp only [Table.chars, List.append_assoc, List.cons_append] at same
          obtain ⟨schemas, afterDot⟩ := quoted_unique (by decide) (by decide) same
          obtain ⟨names, after⟩ := quoted_unique (by decide) (by decide) (List.cons.inj afterDot).2
          exact ⟨by rw [schemas, names], (List.cons.inj after).2⟩

theorem select_unique {a b : Select} {r q : List Char}
    (same : a.chars ++ ')' :: r = b.chars ++ ')' :: q) : a = b ∧ r = q := by
  simp only [Select.chars, spelled, String.reduceToList, List.append_assoc, List.cons_append,
    List.nil_append, List.cons.injEq, true_and] at same
  obtain ⟨wanted, afterWanted⟩ := column_unique (by decide) (by decide) same
  simp only [List.cons.injEq, true_and] at afterWanted
  obtain ⟨table, afterTable⟩ := table_unique afterWanted
  simp only [List.cons.injEq, true_and] at afterTable
  obtain ⟨_, afterBound⟩ := quoted_unique (by decide) (by decide) afterTable
  simp only [List.cons.injEq, true_and] at afterBound
  obtain ⟨link, afterLink⟩ := column_unique (by decide) (by decide) afterBound
  simp only [List.cons.injEq, true_and] at afterLink
  obtain ⟨outer, afterOuter⟩ := column_unique (by decide) (by decide) afterLink
  cases a
  cases b
  cases wanted
  cases table
  cases link
  cases outer
  exact ⟨rfl, (List.cons.inj afterOuter).2⟩

namespace Condition

theorem starts (e : Condition) : ∃ first rest, e.chars = first :: rest ∧
    (first = 't' ∨ first = 'f' ∨ first = '(') := by
  cases e with
  | literal value => cases value <;> simp [chars, spelled]
  | group operand => simp [chars, spelled]
  | negation operand => simp [chars, spelled]
  | joined connective first second rest => simp [chars, spelled]
  | equals column => simp [chars, spelled]
  | among select => simp [chars, spelled]

theorem starts_apart (e : Condition) {c : Char} {r q : List Char} (word : c = 'a' ∨ c = 'N') :
    e.chars ++ r ≠ c :: q := by
  obtain ⟨first, rest, equal, start⟩ := e.starts
  intro same
  rw [equal] at same
  cases (List.cons.inj same).1
  rcases word with rfl | rfl <;> simp at start

theorem word_unique {one two : Connective} {r q : List Char}
    (same : one.word ++ r = two.word ++ q) : one = two ∧ r = q := by
  cases one <;> cases two <;> simp [Connective.word, spelled] at same ⊢ <;> exact same

theorem word_apart {connective : Connective} {r q : List Char} :
    connective.word ++ r ≠ ')' :: q := by
  cases connective <;> simp [Connective.word, spelled]

theorem moreChars_flatMap (connective : Connective) (operands : List Condition) :
    moreChars connective operands = operands.flatMap fun next => connective.word ++ next.chars := by
  induction operands with
  | nil => rfl
  | cons operand rest ih => rw [moreChars, ih, List.flatMap_cons]

theorem group_front (operand : Condition) (r : List Char) :
    (group operand).chars ++ r = spelled "(" ++ (operand.chars ++ ')' :: r) := by
  simp only [chars, spelled, String.reduceToList, List.append_assoc, List.cons_append,
    List.nil_append]

theorem negation_front (operand : Condition) (r : List Char) :
    (negation operand).chars ++ r = spelled "(NOT " ++ (operand.chars ++ ')' :: r) := by
  simp only [chars, spelled, String.reduceToList, List.append_assoc, List.cons_append,
    List.nil_append]

theorem joined_front (connective : Connective) (first second : Condition) (rest : List Condition)
    (r : List Char) : (joined connective first second rest).chars ++ r =
      spelled "(" ++ (first.chars ++ (connective.word ++ (second.chars ++
        (moreChars connective rest ++ ')' :: r)))) := by
  simp only [chars, spelled, String.reduceToList, List.append_assoc, List.cons_append,
    List.nil_append]

theorem equals_front (column : Column) (r : List Char) : (equals column).chars ++ r =
    spelled "(auth.user_id() = " ++ (column.chars ++ ')' :: r) := by
  simp only [chars, spelled, String.reduceToList, List.append_assoc, List.cons_append,
    List.nil_append]

theorem among_front (select : Select) (r : List Char) : (among select).chars ++ r =
    spelled "(auth.user_id() IN (" ++ (select.chars ++ ')' :: ')' :: r) := by
  simp only [chars, spelled, String.reduceToList, List.append_assoc, List.cons_append,
    List.nil_append]

-- Two conditions that begin one text are one, and end at one place in it. Conditions of two
-- kinds differ at the latest where the first operand ends.
theorem unique (e f : Condition) (r q : List Char) (same : e.chars ++ r = f.chars ++ q) :
    e = f ∧ r = q := by
  induction e generalizing f r q with
  | literal value =>
      cases f with
      | literal other =>
          cases value <;> cases other <;> simp [chars, spelled] at same ⊢ <;> exact same
      | _ => cases value <;> simp [chars, spelled] at same
  | group operand ih =>
      cases f with
      | group other =>
          rw [group_front, group_front] at same
          obtain ⟨equal, after⟩ := ih other _ _ (List.append_cancel_left same)
          exact ⟨by rw [equal], (List.cons.inj after).2⟩
      | joined connective first second rest =>
          rw [group_front, joined_front] at same
          obtain ⟨_, after⟩ := ih first _ _ (List.append_cancel_left same)
          exact absurd after.symm word_apart
      | literal value => cases value <;> simp [chars, spelled] at same
      | _ => simp [chars, spelled, starts_apart] at same
  | negation operand ih =>
      cases f with
      | negation other =>
          rw [negation_front, negation_front] at same
          obtain ⟨equal, after⟩ := ih other _ _ (List.append_cancel_left same)
          exact ⟨by rw [equal], (List.cons.inj after).2⟩
      | literal value => cases value <;> simp [chars, spelled] at same
      | _ => simp [chars, spelled, Ne.symm (starts_apart _ _)] at same
  | joined connective first second rest ihFirst ihSecond ihRest =>
      cases f with
      | joined other one two more =>
          rw [joined_front, joined_front] at same
          obtain ⟨firsts, afterFirst⟩ := ihFirst one _ _ (List.append_cancel_left same)
          obtain ⟨connectives, afterWord⟩ := word_unique afterFirst
          obtain ⟨seconds, afterSecond⟩ := ihSecond two _ _ afterWord
          cases connectives
          simp only [moreChars_flatMap] at afterSecond
          have alone : ∀ operand ∈ rest, Alone chars (fun _ => True) operand :=
            fun operand member other _ => ihRest operand member other
          obtain ⟨rests, after⟩ :=
            more_unique (fun _ _ => word_apart) alone (fun _ _ => trivial) afterSecond
          exact ⟨by rw [firsts, seconds, rests], after⟩
      | group other =>
          rw [joined_front, group_front] at same
          obtain ⟨_, afterFirst⟩ := ihFirst other _ _ (List.append_cancel_left same)
          exact absurd afterFirst word_apart
      | literal value => cases value <;> simp [chars, spelled] at same
      | _ => simp [chars, spelled, starts_apart] at same
  | equals column =>
      cases f with
      | equals other =>
          rw [equals_front, equals_front] at same
          obtain ⟨equal, after⟩ :=
            column_unique (by decide) (by decide) (List.append_cancel_left same)
          exact ⟨by rw [equal], (List.cons.inj after).2⟩
      | literal value => cases value <;> simp [chars, spelled] at same
      | _ => simp [chars, spelled, Ne.symm (starts_apart _ _)] at same
  | among select =>
      cases f with
      | among other =>
          rw [among_front, among_front] at same
          obtain ⟨equal, after⟩ := select_unique (List.append_cancel_left same)
          exact ⟨by rw [equal], (List.cons.inj after).2⟩
      | literal value => cases value <;> simp [chars, spelled] at same
      | _ => simp [chars, spelled, Ne.symm (starts_apart _ _)] at same

theorem text_unique {e f : Condition} (same : e.text = f.text) : e = f := by
  have equal : e.chars ++ [] = f.chars ++ [] := by
    rw [List.append_nil, List.append_nil]
    exact String.ofList_injective same
  exact (unique e f [] [] equal).1

end Condition

def isPlain (c : Char) : Bool := c != '(' && c != ')' && c != '"' && c != '\''

inductive Balanced : List Char → Prop where
  | nil : Balanced []
  | plain (unmarked : isPlain c = true) (rest : Balanced text) : Balanced (c :: text)
  | quoted (quote : mark = '"' ∨ mark = '\'') (apart : mark ∉ inside) (rest : Balanced text) :
      Balanced (mark :: (inside ++ mark :: text))
  | group (operand : Balanced inside) (rest : Balanced text) :
      Balanced ('(' :: (inside ++ ')' :: text))

def Enclosed (text : List Char) : Prop :=
  ∃ inside, Balanced inside ∧ text = '(' :: (inside ++ [')'])

namespace Balanced

theorem append (one : Balanced front) (two : Balanced back) : Balanced (front ++ back) := by
  induction one with
  | nil => exact two
  | plain unmarked _ ih => exact .plain unmarked ih
  | quoted quote apart _ ih =>
      rw [List.cons_append, List.append_assoc, List.cons_append]
      exact .quoted quote apart ih
  | group operand _ _ ih =>
      rw [List.cons_append, List.append_assoc, List.cons_append]
      exact .group operand ih

theorem words (unmarked : text.all isPlain = true) : Balanced text := by
  induction text with
  | nil => exact .nil
  | cons c rest ih =>
      rw [List.all_cons, Bool.and_eq_true] at unmarked
      exact .plain unmarked.1 (ih unmarked.2)

theorem word (text : String) (unmarked : text.toList.all isPlain = true) :
    Balanced text.toList := words unmarked

theorem spelling (text : String) (unmarked : text.toList.all isPlain = true) :
    Balanced (spelled text) := by
  rw [spelled]
  exact word text unmarked

theorem name_on (name : List Char) (passed : '"' ∉ front) (rest : Balanced text) :
    Balanced ('"' :: (front ++ (doubled name ++ '"' :: text))) := by
  induction name generalizing front with
  | nil => exact .quoted (.inl rfl) passed rest
  | cons c more ih =>
      by_cases quote : c = '"'
      · subst quote
        rw [doubled_quote]
        exact .quoted (.inl rfl) passed (ih List.not_mem_nil)
      · rw [doubled_other quote]
        have further : '"' ∉ front ++ [c] := by simp [passed, Ne.symm quote]
        simpa using ih further

theorem name (name : String) : Balanced (Sql.quoted name) :=
  name_on name.toList List.not_mem_nil .nil

theorem column (column : Column) : Balanced column.chars :=
  (name column.qualifier).append (.plain rfl (name column.name))

theorem table (table : Table) : Balanced table.chars := by
  obtain ⟨schema, own⟩ := table
  cases schema with
  | none => exact name own
  | some schema => exact (name schema).append (.plain rfl (name own))

theorem select (select : Select) : Balanced select.chars := by
  have wanted := (spelling "SELECT " (by decide)).append (column ⟨select.bound, select.identity⟩)
  have placed := (wanted.append (spelling " FROM " (by decide))).append (table select.table)
  have bound := (placed.append (spelling " AS " (by decide))).append (name select.bound)
  have linked := (bound.append (spelling " WHERE " (by decide))).append
    (column ⟨select.bound, select.link⟩)
  exact (linked.append (spelling " = " (by decide))).append (column select.outer)

theorem intercalate (between : Balanced mark) (parts : List (List Char))
    (each : ∀ part ∈ parts, Balanced part) : Balanced (mark.intercalate parts) := by
  induction parts with
  | nil => exact .nil
  | cons part rest ih =>
      obtain ⟨here, later⟩ := List.forall_mem_cons.mp each
      cases rest with
      | nil => simpa using here
      | cons next rest =>
          rw [List.intercalate_cons_cons]
          exact (here.append between).append (ih later)

end Balanced

theorem Enclosed.balanced (enclosed : Enclosed text) : Balanced text := by
  obtain ⟨inside, operand, rfl⟩ := enclosed
  exact .group operand .nil

-- Rows under the names that a condition has for them, the innermost name first.
structure Scope where
  rows : List (String × Row)

namespace Scope

def empty : Scope := ⟨[]⟩

def bind (scope : Scope) (name : String) (row : Row) : Scope := ⟨(name, row) :: scope.rows⟩

def value (scope : Scope) (column : Column) : Json :=
  match scope.rows.lookup column.qualifier with
  | some row => row.value column.name
  | none => .null

variable (scope : Scope) (row : Row)

theorem value_bound (name column : String) :
    (scope.bind name row).value ⟨name, column⟩ = row.value column := by
  simp [value, bind]

theorem value_beyond {name : String} {column : Column} (other : column.qualifier ≠ name) :
    (scope.bind name row).value column = scope.value column := by
  rw [value, bind, List.lookup_cons, beq_false_of_ne other, value]

end Scope

namespace Select

variable (select : Select) (scope : Scope) (link : Row)

-- A row is kept only where the comparison is true, not where it is unknown.
def keeps : Bool :=
  let inside := scope.bind select.bound link
  (compared (inside.value ⟨select.bound, select.link⟩) (inside.value select.outer)).holds

def members (database : Table → List Row) : List Json :=
  ((database select.table).filter (select.keeps scope)).map fun link =>
    (scope.bind select.bound link).value ⟨select.bound, select.identity⟩

theorem keeps_other (other : select.outer.qualifier ≠ select.bound) :
    select.keeps scope link =
      (compared (link.value select.link) (scope.value select.outer)).holds := by
  rw [keeps, Scope.value_bound, Scope.value_beyond _ _ other]

theorem keeps_captured (captured : select.outer.qualifier = select.bound) :
    select.keeps scope link =
      (compared (link.value select.link) (link.value select.outer.name)).holds := by
  obtain ⟨bound, identity, table, key, qualifier, name⟩ := select
  cases captured
  rw [keeps, Scope.value_bound, Scope.value_bound]

theorem members_exact (database : Table → List Row) : select.members scope database =
    ((database select.table).filter (select.keeps scope)).map fun link =>
      link.value select.identity := by
  unfold members
  simp only [Scope.value_bound]

end Select

def Connective.combine : Connective → List Truth → Truth
  | .and => .conj
  | .or => .disj

theorem Connective.combine_one (connective : Connective) (truth : Truth) :
    connective.combine [truth] = truth := by
  cases connective with
  | and => exact Truth.and_yes truth
  | or => exact Truth.or_no truth

namespace Condition

variable (identity : Json) (database : Table → List Row) (scope : Scope)

mutual
def truth : Condition → Truth
  | .literal value => .ofBool value
  | .group operand => truth operand
  | .negation operand => (truth operand).not
  | .joined connective first second rest =>
      connective.combine (truth first :: truth second :: truths rest)
  | .equals column => compared identity (scope.value column)
  | .among select => .disj ((select.members scope database).map (compared identity))
termination_by structural e => e

def truths : List Condition → List Truth
  | [] => []
  | operand :: rest => truth operand :: truths rest
termination_by structural operands => operands
end

theorem truths_map (operands : List Condition) :
    truths identity database scope operands = operands.map (truth identity database scope) := by
  induction operands with
  | nil => rfl
  | cons operand rest ih => rw [truths, ih, List.map_cons]

end Condition

end RowSecurity.Sql

import RowSecurity.Install.Dialect
import RowSecurity.Proofs.Install.Condition
import RowSecurity.Proofs.Sql.Grammar

-- The scan for one group in parentheses accepts exactly what the grammar of balanced text has for a
-- group, and every installed expression is one.
namespace RowSecurity.Install

open Sql (Balanced Enclosed)

theorem region_passed {region : Region} {mark : Char} {inside : List Char}
    (opened : region = .identifier ∧ mark = '"' ∨ region = .literal ∧ mark = '\'')
    (apart : mark ∉ inside) (depth : Nat) (rest : List Char) :
    closesAtEnd depth region (inside ++ mark :: rest) = closesAtEnd depth .plain rest := by
  induction inside with
  | nil => rcases opened with ⟨rfl, rfl⟩ | ⟨rfl, rfl⟩ <;> rfl
  | cons c more ih =>
      have other := List.ne_of_not_mem_cons apart
      have further := ih (List.not_mem_of_not_mem_cons apart)
      rcases opened with ⟨rfl, rfl⟩ | ⟨rfl, rfl⟩ <;>
        simpa [closesAtEnd, Ne.symm other] using further

theorem plain_passed {c : Char} (unmarked : Sql.isPlain c = true) (depth : Nat)
    (rest : List Char) : closesAtEnd depth .plain (c :: rest) = closesAtEnd depth .plain rest := by
  simp only [Sql.isPlain, Bool.and_eq_true, bne_iff_ne, ne_eq] at unmarked
  obtain ⟨⟨⟨opening, closing⟩, quote⟩, literal⟩ := unmarked
  simp [closesAtEnd, opening, closing, quote, literal]

theorem balanced_passed (balanced : Balanced text) (depth : Nat) (rest : List Char) :
    closesAtEnd (depth + 1) .plain (text ++ rest) = closesAtEnd (depth + 1) .plain rest := by
  induction balanced generalizing depth rest with
  | nil => rfl
  | plain unmarked _ ih => rw [List.cons_append, plain_passed unmarked, ih]
  | @quoted mark inside text quote apart _ ih =>
      have opened : closesAtEnd (depth + 1) .plain (mark :: (inside ++ mark :: (text ++ rest))) =
          closesAtEnd (depth + 1) .plain (text ++ rest) := by
        rcases quote with rfl | rfl
        · exact region_passed (.inl ⟨rfl, rfl⟩) apart _ _
        · exact region_passed (.inr ⟨rfl, rfl⟩) apart _ _
      simpa using opened.trans (ih depth rest)
  | @group inside text _ _ inner ih =>
      calc closesAtEnd (depth + 1) .plain ('(' :: (inside ++ ')' :: text) ++ rest)
          = closesAtEnd (depth + 2) .plain (inside ++ (')' :: (text ++ rest))) := by
            simp [closesAtEnd]
        _ = closesAtEnd (depth + 2) .plain (')' :: (text ++ rest)) := inner (depth + 1) _
        _ = closesAtEnd (depth + 1) .plain (text ++ rest) := by simp [closesAtEnd]
        _ = closesAtEnd (depth + 1) .plain rest := ih depth rest

theorem group_scanned (text : List Char) :
    closesAtEnd 0 .plain ('(' :: text) = closesAtEnd 1 .plain text := by
  simp [closesAtEnd]

theorem enclosed_isGroup (enclosed : Enclosed text) : isGroup text = true := by
  obtain ⟨inside, balanced, rfl⟩ := enclosed
  have closes : closesAtEnd 0 .plain ('(' :: (inside ++ [')'])) = true := by
    rw [group_scanned, balanced_passed balanced]
    rfl
  simp [isGroup, closes, List.getLast?_cons]

theorem enclosed_closed (enclosed : Enclosed text) (balanced : Balanced inside)
    (same : text = '(' :: (inside ++ ')' :: rest)) : rest = [] := by
  have group := enclosed_isGroup enclosed
  simp only [isGroup, same, group_scanned, balanced_passed balanced, Bool.and_eq_true] at group
  cases rest with
  | nil => rfl
  | cons c more => simp [closesAtEnd] at group

theorem grouped_group {expression : String} (group : isGroup expression.toList = true) :
    grouped expression = expression := if_pos group

theorem grouped_wrapped {expression : String} (several : isGroup expression.toList = false) :
    grouped expression = "(" ++ expression ++ ")" := by
  rw [grouped, several]
  rfl

namespace Settings

variable (settings : Settings)

theorem ownsRow_enclosed (identity : Balanced settings.identityFunction.toList) (o : Ownership) :
    Enclosed (settings.ownsRowText o).toList := by
  refine ⟨settings.identityFunction.toList ++ Sql.spelled " = " ++ Sql.Column.chars ⟨o.resource,
    o.column⟩, ?_, ?_⟩
  · exact (identity.append (.spelling " = " (by decide))).append (.column _)
  · simp [ownsRowText, qualified_chars, Sql.spelled]

theorem memberOfJoin_enclosed (identity : Balanced settings.identityFunction.toList)
    (m : Membership) : Enclosed (settings.memberOfJoinText m).toList := by
  have query := Balanced.group (.select (m.select settings.schema)) .nil
  refine ⟨_, (identity.append (.spelling " IN " (by decide))).append query, ?_⟩
  simp [memberOfJoinText_chars, Sql.spelled]

theorem operands_enclosed (word : String) (unmarked : word.toList.all Sql.isPlain = true)
    (operands : List Predicate)
    (each : ∀ p ∈ operands, Balanced (settings.condition p).toList) :
    Enclosed ("(" ++ word.intercalate (Predicate.operandConditions settings.leafText operands) ++
      ")").toList := by
  have parts : ∀ part ∈ (Predicate.operandConditions settings.leafText operands).map
      String.toList, Balanced part := by
    rw [Predicate.operandConditions_map, List.map_map]
    intro part member
    obtain ⟨p, operand, rfl⟩ := List.mem_map.mp member
    exact each p operand
  refine ⟨_, Balanced.intercalate (.words unmarked) _ parts, ?_⟩
  simp [String.toList_intercalate]

theorem balanced_of {p : Predicate}
    (shape : (∃ value, p = .literal value) ∨ Enclosed (settings.condition p).toList) :
    Balanced (settings.condition p).toList := by
  rcases shape with ⟨value, rfl⟩ | enclosed
  · cases value with
    | true => exact .word "true" (by decide)
    | false => exact .word "false" (by decide)
  · exact enclosed.balanced

theorem condition_enclosed (identity : Balanced settings.identityFunction.toList)
    (p : Predicate) :
    (∃ value, p = .literal value) ∨ Enclosed (settings.condition p).toList := by
  induction p with
  | literal value => exact .inl ⟨value, rfl⟩
  | ownsRow o => exact .inr (settings.ownsRow_enclosed identity o)
  | memberOfJoin m => exact .inr (settings.memberOfJoin_enclosed identity m)
  | all operands ih =>
      exact .inr (settings.operands_enclosed " AND " (by decide) operands
        fun p member => settings.balanced_of (ih p member))
  | any operands ih =>
      exact .inr (settings.operands_enclosed " OR " (by decide) operands
        fun p member => settings.balanced_of (ih p member))
  | not operand ih =>
      refine .inr ⟨_, .append (.spelling "NOT " (by decide)) (settings.balanced_of ih), ?_⟩
      simp [condition, Predicate.condition, Sql.spelled]

theorem condition_balanced (identity : Balanced settings.identityFunction.toList)
    (p : Predicate) : Balanced (settings.condition p).toList :=
  settings.balanced_of (settings.condition_enclosed identity p)

-- A condition is balanced, and what is installed of it is one group: a literal in parentheses
-- of its own, and any other condition as it is.
theorem condition_installed (identity : Balanced settings.identityFunction.toList)
    (p : Predicate) :
    Balanced (settings.condition p).toList ∧
      (∀ value, p = .literal value →
        grouped (settings.condition p) = "(" ++ settings.condition p ++ ")") ∧
      ((∀ value, p ≠ .literal value) → grouped (settings.condition p) = settings.condition p) ∧
      Enclosed (grouped (settings.condition p)).toList ∧
      ∀ inside rest, Balanced inside →
        (grouped (settings.condition p)).toList = '(' :: (inside ++ ')' :: rest) → rest = [] := by
  have wrapped : ∀ value, p = .literal value →
      grouped (settings.condition p) = "(" ++ settings.condition p ++ ")" := by
    intro value literal
    subst literal
    apply grouped_wrapped
    cases value with
    | true => exact (by decide : isGroup "true".toList = false)
    | false => exact (by decide : isGroup "false".toList = false)
  have enclosed : Enclosed (grouped (settings.condition p)).toList := by
    rcases settings.condition_enclosed identity p with ⟨value, literal⟩ | enclosed
    · rw [wrapped value literal]
      exact ⟨_, settings.condition_balanced identity p, by simp⟩
    · rwa [grouped_group (enclosed_isGroup enclosed)]
  refine ⟨settings.condition_balanced identity p, wrapped, fun other => ?_, enclosed,
    fun inside rest => enclosed_closed enclosed⟩
  rcases settings.condition_enclosed identity p with ⟨value, literal⟩ | enclosed
  · exact absurd literal (other value)
  · exact grouped_group (enclosed_isGroup enclosed)

def tenantSettings : Settings :=
  { Settings.default with
    identityFunction := "current_setting('app.\"id(')::int", schema := some "ten\"ant)" }

def tenantCondition : Predicate :=
  .any [.ownsRow ⟨"po)sts", "user\"Id"⟩, .all [],
    .not (.memberOfJoin ⟨"po)sts", "(id", "mem\"\"bers", "'post", "user'"⟩)]

theorem tenant_condition_installed :
    Balanced tenantSettings.identityFunction.toList ∧
      tenantSettings.condition tenantCondition =
        "((current_setting('app.\"id(')::int = \"po)sts\".\"user\"\"Id\") OR () OR " ++
        "(NOT (current_setting('app.\"id(')::int IN (SELECT \"_link\".\"user'\" " ++
        "FROM \"ten\"\"ant)\".\"mem\"\"\"\"bers\" AS \"_link\" " ++
        "WHERE \"_link\".\"'post\" = \"po)sts\".\"(id\"))))" ∧
      grouped (tenantSettings.condition tenantCondition) =
        tenantSettings.condition tenantCondition ∧
      Enclosed (grouped (tenantSettings.condition tenantCondition)).toList := by
  have identity : Balanced tenantSettings.identityFunction.toList := by
    have apart : '\'' ∉ "app.\"id(".toList := by decide
    have argument : Balanced "'app.\"id('".toList := .quoted (.inr rfl) apart .nil
    have call := Balanced.group argument (.word "::int" (by decide))
    exact (Balanced.word "current_setting" (by decide)).append call
  obtain ⟨_, _, same, enclosed, _⟩ := tenantSettings.condition_installed identity tenantCondition
  exact ⟨identity, by decide +kernel, same nofun, enclosed⟩

end Settings

variable {depth : Nat} {region : Region} {c mark : Char} {inside text rest : List Char}

-- Balanced texts with a closing parenthesis behind each, and nothing behind the last one.
def Closes : Nat → List Char → Prop
  | 0, text => text = []
  | depth + 1, text => ∃ inside rest, Balanced inside ∧ text = inside ++ ')' :: rest ∧
      Closes depth rest

def Ends (mark : Char) (depth : Nat) (text : List Char) : Prop :=
  ∃ inside rest, mark ∉ inside ∧ text = inside ++ mark :: rest ∧ Closes depth rest

theorem Ends.here (closes : Closes depth text) : Ends mark depth (mark :: text) :=
  ⟨[], text, List.not_mem_nil, rfl, closes⟩

theorem Ends.later (other : c ≠ mark) (ends : Ends mark depth text) :
    Ends mark depth (c :: text) := by
  obtain ⟨inside, rest, apart, rfl, closes⟩ := ends
  exact ⟨c :: inside, rest, by simp [apart, Ne.symm other], rfl, closes⟩

namespace Closes

theorem plain (unmarked : Sql.isPlain c = true) (closes : Closes (depth + 1) text) :
    Closes (depth + 1) (c :: text) := by
  obtain ⟨inside, rest, balanced, rfl, outer⟩ := closes
  exact ⟨c :: inside, rest, .plain unmarked balanced, rfl, outer⟩

theorem quoted (quote : mark = '"' ∨ mark = '\'') (ends : Ends mark (depth + 1) text) :
    Closes (depth + 1) (mark :: text) := by
  obtain ⟨inside, _, apart, rfl, behind, rest, balanced, rfl, outer⟩ := ends
  exact ⟨mark :: (inside ++ mark :: behind), rest, .quoted quote apart balanced, by simp, outer⟩

theorem group (closes : Closes (depth + 2) text) : Closes (depth + 1) ('(' :: text) := by
  obtain ⟨inside, _, operand, rfl, behind, rest, balanced, rfl, outer⟩ := closes
  exact ⟨'(' :: (inside ++ ')' :: behind), rest, .group operand balanced, by simp, outer⟩

theorem close (closes : Closes depth text) : Closes (depth + 1) (')' :: text) :=
  ⟨[], text, .nil, rfl, closes⟩

theorem scanned (closes : Closes depth text) : closesAtEnd depth .plain text = true := by
  induction depth generalizing text with
  | zero =>
      cases closes
      rfl
  | succ depth ih =>
      obtain ⟨inside, rest, balanced, rfl, outer⟩ := closes
      have last : ¬ (depth = 0 ∧ rest ≠ []) := by
        rintro ⟨rfl, more⟩
        exact more outer
      rw [balanced_passed balanced]
      simp [closesAtEnd, last, ih outer]

end Closes

-- What the scan waits for in each region.
def Awaits (depth : Nat) : Region → List Char → Prop
  | .plain, text => Closes depth text
  | .identifier, text => Ends '"' depth text
  | .literal, text => Ends '\'' depth text

theorem isPlain_of (opening : c ≠ '(') (closing : c ≠ ')') (identifier : c ≠ '"')
    (literal : c ≠ '\'') : Sql.isPlain c = true := by
  simp [Sql.isPlain, opening, closing, identifier, literal]

theorem closed_further (closes : closesAtEnd (depth + 1) .plain (')' :: rest) = true) :
    rest = [] ∧ depth = 0 ∨ ∃ outer, depth = outer + 1 ∧ closesAtEnd depth .plain rest = true := by
  cases depth with
  | zero =>
      have last : rest = [] ∧ closesAtEnd 0 .plain rest = true := by
        simpa [closesAtEnd] using closes
      exact .inl ⟨last.1, rfl⟩
  | succ depth => exact .inr ⟨depth, rfl, by simpa [closesAtEnd] using closes⟩

theorem scan_awaits (closes : closesAtEnd (depth + 1) region text = true) :
    Awaits (depth + 1) region text := by
  induction text generalizing depth region with
  | nil => simp [closesAtEnd] at closes
  | cons c rest ih =>
      cases region with
      | identifier =>
          rw [closesAtEnd] at closes
          by_cases quote : c = '"'
          · rw [if_pos quote] at closes
            exact quote ▸ Ends.here (ih closes)
          · rw [if_neg quote] at closes
            exact Ends.later quote (ih closes)
      | literal =>
          rw [closesAtEnd] at closes
          by_cases quote : c = '\''
          · rw [if_pos quote] at closes
            exact quote ▸ Ends.here (ih closes)
          · rw [if_neg quote] at closes
            exact Ends.later quote (ih closes)
      | plain =>
          by_cases identifier : c = '"'
          · subst identifier
            have behind : Awaits (depth + 1) .identifier rest := ih closes
            exact Closes.quoted (.inl rfl) behind
          by_cases literal : c = '\''
          · subst literal
            have behind : Awaits (depth + 1) .literal rest := ih closes
            exact Closes.quoted (.inr rfl) behind
          by_cases opening : c = '('
          · subst opening
            have behind : Awaits (depth + 2) .plain rest := ih closes
            exact Closes.group behind
          by_cases closing : c = ')'
          · subst closing
            apply Closes.close
            rcases closed_further closes with ⟨ended, rfl⟩ | ⟨outer, rfl, further⟩
            · exact ended
            · exact ih further
          · have unmarked := isPlain_of opening closing identifier literal
            rw [plain_passed unmarked] at closes
            have behind : Awaits (depth + 1) .plain rest := ih closes
            exact Closes.plain unmarked behind

theorem scan_exact : closesAtEnd (depth + 1) .plain text = true ↔ Closes (depth + 1) text :=
  ⟨scan_awaits, Closes.scanned⟩

theorem group_enclosed (group : isGroup text = true) : Enclosed text := by
  simp only [isGroup, Bool.and_eq_true, beq_iff_eq] at group
  obtain ⟨⟨first, _⟩, closes⟩ := group
  obtain ⟨rest, rfl⟩ := List.head?_eq_some_iff.mp first
  rw [group_scanned] at closes
  obtain ⟨inside, _, balanced, rfl, rfl⟩ := scan_exact.mp closes
  exact ⟨inside, balanced, rfl⟩

-- The scan again, by places in the text that are counted in bytes. It gives up where a
-- parenthesis is closed that is not open.
def scan? (size position depth : Nat) (region : Region) : List Char → Option Bool
  | [] => some (depth == 0 && region == .plain)
  | c :: rest =>
      let next := position + c.utf8Size
      match region with
      | .identifier => scan? size next depth (if c = '"' then .plain else .identifier) rest
      | .literal => scan? size next depth (if c = '\'' then .plain else .literal) rest
      | .plain =>
          if c = '"' then scan? size next depth .identifier rest
          else if c = '\'' then scan? size next depth .literal rest
          else if c = '(' then scan? size next (depth + 1) .plain rest
          else if c = ')' then
            match depth with
            | 0 => none
            | outer + 1 =>
                if outer = 0 ∧ position + 1 < size then some false
                else scan? size next outer .plain rest
          else scan? size next depth .plain rest

theorem rest_bytes {size position : Nat}
    (whole : position + (String.ofList (c :: rest)).utf8ByteSize = size) :
    position + c.utf8Size + (String.ofList rest).utf8ByteSize = size := by
  rw [bytes_cons] at whole
  omega

theorem last_place {size position : Nat} (single : c.utf8Size = 1)
    (whole : position + (String.ofList (c :: rest)).utf8ByteSize = size) :
    position + 1 < size ↔ rest ≠ [] := by
  have behind := rest_bytes whole
  cases rest with
  | nil =>
      simp at behind
      simp
      omega
  | cons next more =>
      have present := next.utf8Size_pos
      rw [bytes_cons] at behind
      simp
      omega

theorem scan?_exact {size position : Nat}
    (whole : position + (String.ofList text).utf8ByteSize = size) :
    scan? size position (depth + 1) region text = some (closesAtEnd (depth + 1) region text) := by
  induction text generalizing position depth region with
  | nil => rfl
  | cons c rest ih =>
      have behind := rest_bytes whole
      have further : ∀ depth region, scan? size (position + c.utf8Size) (depth + 1) region rest =
          some (closesAtEnd (depth + 1) region rest) := fun _ _ => ih behind
      cases region with
      | identifier => exact further _ _
      | literal => exact further _ _
      | plain =>
          rw [scan?, closesAtEnd]
          split
          · exact further _ _
          split
          · exact further _ _
          split
          · exact further _ _
          split
          · rename_i closing
            have single : c.utf8Size = 1 := by rw [closing]; rfl
            simp only [last_place single whole, Nat.add_sub_cancel]
            cases depth with
            | zero =>
                by_cases ended : rest = []
                · subst ended
                  rfl
                · simp [ended]
            | succ depth => simpa using further _ _
          · exact further _ _

-- A text is taken for one group exactly if the grammar has it as one, and where it opens with a
-- parenthesis the scan counts below zero at no place of it.
theorem group_exact (expression : String) :
    (isGroup expression.toList = true ↔ Enclosed expression.toList) ∧
    (expression.toList.head? = some '(' →
      scan? expression.utf8ByteSize 0 0 .plain expression.toList =
        some (closesAtEnd 0 .plain expression.toList)) := by
  refine ⟨⟨group_enclosed, enclosed_isGroup⟩, ?_⟩
  intro first
  obtain ⟨rest, chars⟩ := List.head?_eq_some_iff.mp first
  have whole : 0 + (String.ofList ('(' :: rest)).utf8ByteSize = expression.utf8ByteSize := by
    rw [← chars, String.ofList_toList, Nat.zero_add]
  rw [chars, group_scanned]
  exact scan?_exact (rest_bytes whole)

def quotedGroup : String := "(\"é)\" = '\")' OR (id = 'ß('))"

def twoGroups : String := "(a) OR (b)"

theorem quoted_group_scanned :
    quotedGroup.toList.head? = some '(' ∧ Enclosed quotedGroup.toList ∧
      scan? quotedGroup.utf8ByteSize 0 0 .plain quotedGroup.toList = some true ∧
      twoGroups.toList.head? = some '(' ∧ ¬ Enclosed twoGroups.toList ∧
      scan? twoGroups.utf8ByteSize 0 0 .plain twoGroups.toList = some false := by
  have first : quotedGroup.toList.head? = some '(' := by decide
  have other : twoGroups.toList.head? = some '(' := by decide
  obtain ⟨grammar, counted⟩ := group_exact quotedGroup
  obtain ⟨twoGrammar, twoCounted⟩ := group_exact twoGroups
  exact ⟨first, grammar.mp (by decide), (counted first).trans (by decide), other,
    mt twoGrammar.mpr (by decide), (twoCounted other).trans (by decide)⟩

end RowSecurity.Install

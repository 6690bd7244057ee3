import RowSecurity.Predicate.Evaluation

-- The connectives of three-valued logic over any number of operands, and comparison of cells.
namespace RowSecurity.Truth

def and : Truth → Truth → Truth
  | .no, _ | _, .no => .no
  | .yes, .yes => .yes
  | _, _ => .unknown

def or : Truth → Truth → Truth
  | .yes, _ | _, .yes => .yes
  | .no, .no => .no
  | _, _ => .unknown

def conj (values : List Truth) : Truth := values.foldr and .yes

def disj (values : List Truth) : Truth := values.foldr or .no

@[simp]
theorem holds_ofBool (value : Bool) : (ofBool value).holds = value := by cases value <;> rfl

@[simp]
theorem ofBool_yes {value : Bool} : ofBool value = .yes ↔ value = true := by
  cases value <;> decide

@[simp]
theorem ofBool_unknown {value : Bool} : ofBool value ≠ .unknown := by cases value <;> decide

theorem ofBool_injective {a b : Bool} (same : ofBool a = ofBool b) : a = b := by
  rw [← holds_ofBool a, same, holds_ofBool]

theorem conj_cons (value : Truth) (rest : List Truth) :
    conj (value :: rest) = value.and (conj rest) := rfl

theorem disj_cons (value : Truth) (rest : List Truth) :
    disj (value :: rest) = value.or (disj rest) := rfl

theorem and_yes (truth : Truth) : truth.and .yes = truth := by cases truth <;> rfl

theorem or_no (truth : Truth) : truth.or .no = truth := by cases truth <;> rfl

theorem and_eq_yes {a b : Truth} : a.and b = .yes ↔ a = .yes ∧ b = .yes := by
  cases a <;> cases b <;> decide

theorem or_eq_yes {a b : Truth} : a.or b = .yes ↔ a = .yes ∨ b = .yes := by
  cases a <;> cases b <;> decide

theorem or_eq_no {a b : Truth} : a.or b = .no ↔ a = .no ∧ b = .no := by
  cases a <;> cases b <;> decide

theorem conj_eq_yes {values : List Truth} :
    conj values = .yes ↔ ∀ value ∈ values, value = .yes := by
  induction values with
  | nil => simp [conj]
  | cons value rest ih => rw [conj_cons, and_eq_yes, ih, List.forall_mem_cons]

theorem disj_eq_yes {values : List Truth} : disj values = .yes ↔ .yes ∈ values := by
  induction values with
  | nil => decide
  | cons value rest ih => rw [disj_cons, or_eq_yes, ih, List.mem_cons, eq_comm]

theorem disj_eq_no {values : List Truth} : disj values = .no ↔ ∀ value ∈ values, value = .no := by
  induction values with
  | nil => simp [disj]
  | cons value rest ih => rw [disj_cons, or_eq_no, ih, List.forall_mem_cons]

theorem disj_eq_unknown {values : List Truth} :
    disj values = .unknown ↔ .unknown ∈ values ∧ .yes ∉ values := by
  constructor
  · intro unknown
    have notYes : .yes ∉ values := fun member => by
      rw [disj_eq_yes.mpr member] at unknown
      cases unknown
    refine ⟨?_, notYes⟩
    apply Classical.byContradiction
    intro absent
    have allNo : ∀ value ∈ values, value = .no := by
      intro value member
      cases value with
      | no => rfl
      | unknown => exact absurd member absent
      | yes => exact absurd member notYes
    rw [disj_eq_no.mpr allNo] at unknown
    cases unknown
  · rintro ⟨unknown, notYes⟩
    cases value : disj values with
    | no => cases disj_eq_no.mp value _ unknown
    | unknown => rfl
    | yes => exact absurd (disj_eq_yes.mp value) notYes

-- How much a value tells: unknown leaves open what every other value says.
def Vaguer (less more : Truth) : Prop := less = .unknown ∨ less = more

instance (less more : Truth) : Decidable (less.Vaguer more) :=
  inferInstanceAs (Decidable (less = .unknown ∨ less = more))

theorem vaguer_refl (truth : Truth) : truth.Vaguer truth := .inr rfl

theorem vaguer_trans {a b c : Truth} (one : a.Vaguer b) (two : b.Vaguer c) : a.Vaguer c := by
  rcases one with unknown | rfl
  · exact .inl unknown
  · exact two

theorem vaguer_not {less more : Truth} (vaguer : less.Vaguer more) :
    less.not.Vaguer more.not := by
  rcases vaguer with rfl | rfl
  · exact .inl rfl
  · exact vaguer_refl _

theorem vaguer_and {a b c d : Truth} (left : a.Vaguer b) (right : c.Vaguer d) :
    (a.and c).Vaguer (b.and d) := by
  have one : (a.and c).Vaguer (b.and c) := by
    rcases left with rfl | rfl
    · cases b <;> cases c <;> decide
    · exact vaguer_refl _
  have two : (b.and c).Vaguer (b.and d) := by
    rcases right with rfl | rfl
    · cases b <;> cases d <;> decide
    · exact vaguer_refl _
  exact vaguer_trans one two

theorem not_and (a b : Truth) : (a.and b).not = a.not.or b.not := by
  cases a <;> cases b <;> rfl

theorem vaguer_or {a b c d : Truth} (left : a.Vaguer b) (right : c.Vaguer d) :
    (a.or c).Vaguer (b.or d) := by
  have negated := vaguer_not (vaguer_and (vaguer_not left) (vaguer_not right))
  simpa only [not_and, not_not] using negated

section Readings

variable {operands : List α} {first second : α → Truth}
  (each : ∀ operand ∈ operands, (first operand).Vaguer (second operand))
include each

theorem vaguer_conj : (conj (operands.map first)).Vaguer (conj (operands.map second)) := by
  induction operands with
  | nil => exact vaguer_refl _
  | cons operand rest ih =>
      obtain ⟨head, tail⟩ := List.forall_mem_cons.mp each
      exact vaguer_and head (ih tail)

theorem vaguer_disj : (disj (operands.map first)).Vaguer (disj (operands.map second)) := by
  induction operands with
  | nil => exact vaguer_refl _
  | cons operand rest ih =>
      obtain ⟨head, tail⟩ := List.forall_mem_cons.mp each
      exact vaguer_or head (ih tail)

end Readings

def rank : Truth → Nat
  | .no => 0
  | .unknown => 1
  | .yes => 2

theorem rank_and (a b : Truth) : (a.and b).rank = min a.rank b.rank := by
  cases a <;> cases b <;> rfl

theorem rank_or (a b : Truth) : (a.or b).rank = max a.rank b.rank := by
  cases a <;> cases b <;> rfl

theorem rank_conj (values : List Truth) :
    (conj values).rank = (values.map rank).foldr min 2 := by
  induction values with
  | nil => rfl
  | cons value rest ih => rw [conj_cons, rank_and, ih, List.map_cons, List.foldr_cons]

theorem rank_disj (values : List Truth) :
    (disj values).rank = (values.map rank).foldr max 0 := by
  induction values with
  | nil => rfl
  | cons value rest ih => rw [disj_cons, rank_or, ih, List.map_cons, List.foldr_cons]

theorem not_or (a b : Truth) : (a.or b).not = a.not.and b.not := by
  cases a <;> cases b <;> rfl

theorem not_conj (values : List Truth) : (conj values).not = disj (values.map not) := by
  induction values with
  | nil => rfl
  | cons value rest ih => rw [conj_cons, not_and, ih, List.map_cons, disj_cons]

theorem not_disj (values : List Truth) : (disj values).not = conj (values.map not) := by
  induction values with
  | nil => rfl
  | cons value rest ih => rw [disj_cons, not_or, ih, List.map_cons, conj_cons]

theorem conj_disj (values : List Truth) : conj values = (disj (values.map not)).not := by
  rw [← not_conj, not_not]

theorem disj_same {values others : List Truth} (same : ∀ value, value ∈ values ↔ value ∈ others) :
    disj values = disj others := by
  cases told : disj others with
  | yes => exact disj_eq_yes.mpr ((same _).mpr (disj_eq_yes.mp told))
  | no => exact disj_eq_no.mpr fun value inside => disj_eq_no.mp told value ((same value).mp inside)
  | unknown =>
      obtain ⟨unknown, notYes⟩ := disj_eq_unknown.mp told
      exact disj_eq_unknown.mpr ⟨(same _).mpr unknown, fun yes => notYes ((same _).mp yes)⟩

theorem conj_same {values others : List Truth} (same : ∀ value, value ∈ values ↔ value ∈ others) :
    conj values = conj others := by
  rw [conj_disj, conj_disj]
  congr 1
  refine disj_same fun value => ?_
  simp only [List.mem_map, same]

theorem or_assoc (a b c : Truth) : (a.or b).or c = a.or (b.or c) := by
  cases a <;> cases b <;> cases c <;> rfl

theorem disj_append (left right : List Truth) :
    disj (left ++ right) = (disj left).or (disj right) := by
  induction left with
  | nil =>
      rw [List.nil_append]
      cases disj right <;> rfl
  | cons value rest ih => rw [List.cons_append, disj_cons, ih, disj_cons, or_assoc]

theorem disj_nested (before inner after : List Truth) :
    disj (before ++ disj inner :: after) = disj (before ++ inner ++ after) := by
  rw [disj_append, disj_cons, ← disj_append inner, ← disj_append, List.append_assoc]

theorem conj_nested (before inner after : List Truth) :
    conj (before ++ conj inner :: after) = conj (before ++ inner ++ after) := by
  rw [conj_disj, conj_disj (before ++ inner ++ after)]
  simp only [List.map_append, List.map_cons, not_conj, disj_nested]

end RowSecurity.Truth

namespace RowSecurity

theorem Number.same_comm (a b : Number) : a.same b = b.same a := by
  rw [Bool.eq_iff_iff]
  exact ⟨same_symm a b, same_symm b a⟩

theorem Binary64.same_comm (a b : Binary64) : a.same b = b.same a := by
  rw [Bool.eq_iff_iff]
  exact ⟨same_symm a b, same_symm b a⟩

theorem Number.sqlEqual_comm (a b : Number) : a.sqlEqual b = b.sqlEqual a := by
  unfold sqlEqual
  cases a.asSigned? <;> cases b.asSigned? <;> cases a.asUnsigned? <;> cases b.asUnsigned? <;>
    cases a.toBinary64? <;> cases b.toBinary64? <;>
    simp only [Bool.beq_comm, Binary64.same_comm]

namespace Json

mutual
theorem same_comm : (a b : Json) → a.same b = b.same a
  | .null, b => by cases b <;> rfl
  | .bool value, b => by cases b <;> simp only [same, Bool.beq_comm]
  | .number value, b => by cases b <;> simp only [same, Number.same_comm]
  | .string value, b => by cases b <;> simp only [same, BEq.comm]
  | .array items, b => by
      cases b with
      | array others => exact sameItems_comm items others
      | _ => rfl
  | .object members, b => by
      cases b with
      | object others => exact sameMembers_comm members others
      | _ => rfl
termination_by structural a => a

theorem sameItems_comm : (left right : List Json) → sameItems left right = sameItems right left
  | [], [] => rfl
  | [], _ :: _ => rfl
  | _ :: _, [] => rfl
  | a :: left, b :: right => by
      rw [sameItems, sameItems, same_comm a b, sameItems_comm left right]
termination_by structural left => left

theorem sameMembers_comm : (left right : List (String × Json)) →
    sameMembers left right = sameMembers right left
  | [], [] => rfl
  | [], _ :: _ => rfl
  | _ :: _, [] => rfl
  | (m, a) :: left, (n, b) :: right => by
      rw [sameMembers, sameMembers, same_comm a b, sameMembers_comm left right]
      simp only [BEq.comm]
termination_by structural left => left
end

mutual
theorem same_refl : (a : Json) → a.same a = true
  | .null => rfl
  | .bool value => by simp [same]
  | .number value => by simp [same, Number.same_refl]
  | .string value => by simp [same]
  | .array items => sameItems_refl items
  | .object members => sameMembers_refl members
termination_by structural a => a

theorem sameItems_refl : (items : List Json) → sameItems items items = true
  | [] => rfl
  | a :: rest => by simp [sameItems, same_refl a, sameItems_refl rest]
termination_by structural items => items

theorem sameMembers_refl : (members : List (String × Json)) → sameMembers members members = true
  | [] => rfl
  | (m, a) :: rest => by simp [sameMembers, same_refl a, sameMembers_refl rest]
termination_by structural members => members
end

mutual
theorem same_trans : (a b c : Json) → a.same b = true → b.same c = true → a.same c = true
  | .null, b, c => by cases b <;> cases c <;> simp [same]
  | .bool value, b, c => by cases b <;> cases c <;> simp +contextual [same]
  | .number value, b, c => by
      cases b <;> cases c <;> simp only [same, Bool.false_eq_true, false_implies, implies_true]
      exact Number.same_trans _ _ _
  | .string value, b, c => by cases b <;> cases c <;> simp +contextual [same]
  | .array items, b, c => by
      cases b <;> cases c <;> simp only [same, Bool.false_eq_true, false_implies, implies_true]
      exact sameItems_trans items _ _
  | .object members, b, c => by
      cases b <;> cases c <;> simp only [same, Bool.false_eq_true, false_implies, implies_true]
      exact sameMembers_trans members _ _
termination_by structural a => a

theorem sameItems_trans : (first second third : List Json) → sameItems first second = true →
    sameItems second third = true → sameItems first third = true
  | [], second, third => by cases second <;> cases third <;> simp [sameItems]
  | a :: first, second, third => by
      cases second <;> cases third <;> simp only [sameItems, Bool.false_eq_true, Bool.and_eq_true,
        false_implies, implies_true]
      rintro ⟨head, tail⟩ ⟨next, others⟩
      exact ⟨same_trans a _ _ head next, sameItems_trans first _ _ tail others⟩
termination_by structural first => first

theorem sameMembers_trans : (first second third : List (String × Json)) →
    sameMembers first second = true → sameMembers second third = true →
      sameMembers first third = true
  | [], second, third => by cases second <;> cases third <;> simp [sameMembers]
  | (m, a) :: first, second, third => by
      cases second <;> cases third <;> simp only [sameMembers, Bool.false_eq_true,
        Bool.and_eq_true, beq_iff_eq, false_implies, implies_true]
      rintro ⟨⟨name, head⟩, tail⟩ ⟨⟨also, next⟩, others⟩
      exact ⟨⟨name.trans also, same_trans a _ _ head next⟩, sameMembers_trans first _ _ tail others⟩
termination_by structural first => first
end

theorem sqlEqual_comm (a b : Json) : a.sqlEqual b = b.sqlEqual a := by
  cases a <;> cases b <;> simp [sqlEqual, same_comm, Number.sqlEqual_comm]

end Json

def equated : Option Json → Option Json → Truth
  | some a, some b => .ofBool (a.sqlEqual b)
  | _, _ => .unknown

@[simp]
theorem equated_none (b : Option Json) : equated none b = .unknown := rfl

@[simp]
theorem equated_some (a b : Json) : equated (some a) (some b) = .ofBool (a.sqlEqual b) := rfl

theorem equated_comm (a b : Option Json) : equated a b = equated b a := by
  cases a with
  | none => cases b <;> rfl
  | some a =>
      cases b with
      | none => rfl
      | some b => exact congrArg Truth.ofBool (Json.sqlEqual_comm a b)

def Json.present? (value : Json) : Option Json := if value.isNull then none else some value

def compared (a b : Json) : Truth := equated a.present? b.present?

theorem Json.present?_some {value : Json} (there : value ≠ .null) :
    value.present? = some value := by
  cases value with
  | null => exact absurd rfl there
  | _ => rfl

theorem compared_present {a b : Json} (first : a ≠ .null) (second : b ≠ .null) :
    compared a b = .ofBool (a.sqlEqual b) := by
  rw [compared, Json.present?_some first, Json.present?_some second, equated_some]

theorem compared_null {a b : Json} (missing : a = .null ∨ b = .null) : compared a b = .unknown := by
  rcases missing with rfl | rfl
  · rfl
  · exact equated_comm _ _

theorem compared_settled {a b : Json} {value : Bool} : compared a b = .ofBool value ↔
    a ≠ .null ∧ b ≠ .null ∧ a.sqlEqual b = value := by
  constructor
  · intro settled
    have there : ¬ (a = .null ∨ b = .null) := by
      intro missing
      rw [compared_null missing] at settled
      exact Truth.ofBool_unknown settled.symm
    obtain ⟨first, second⟩ := not_or.mp there
    rw [compared_present first second] at settled
    exact ⟨first, second, Truth.ofBool_injective settled⟩
  · rintro ⟨first, second, rfl⟩
    exact compared_present first second

def Row.value (row : Row) (column : String) : Json :=
  (Json.member? row.members column).getD .null

theorem Row.cell?_present (row : Row) (column : String) :
    row.cell? column = (row.value column).present? := by
  unfold cell? value Json.present?
  cases Json.member? row.members column with
  | none => rfl
  | some held => cases held <;> rfl

end RowSecurity

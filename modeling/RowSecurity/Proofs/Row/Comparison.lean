import RowSecurity.Proofs.Json.Binary64
import RowSecurity.Proofs.Predicate.Evaluation

-- How far equality of cells is an equivalence. Integers are compared with one another exactly, and
-- with a binary64 number after rounding.
namespace RowSecurity

namespace Number

variable {m n : Int} {x y : Binary64}

abbrev Fits (n : Int) : Prop := -Int.pow 2 63 ≤ n ∧ n < Int.pow 2 64

def value : Number → Int
  | .integer n _ => n * Binary64.unitsPerOne
  | .float x => x.value

def Blurs : Number → Number → Prop
  | .integer n _, .float x => x.Nearest n ∧ n * Binary64.unitsPerOne ≠ x.value
  | _, _ => False

theorem float_unblurred (x : Binary64) (a : Number) : ¬ (float x).Blurs a := id

theorem sqlEqual_signed {a b : Number} (left : a.asSigned? = some m) (right : b.asSigned? = some n) :
    a.sqlEqual b = true ↔ m = n := by
  unfold sqlEqual
  rw [left, right]
  exact beq_iff_eq

theorem sqlEqual_unsigned {a b : Number} {p q : Nat}
    (signed : a.asSigned? = none ∨ b.asSigned? = none)
    (left : a.asUnsigned? = some p) (right : b.asUnsigned? = some q) :
    a.sqlEqual b = true ↔ p = q := by
  unfold sqlEqual
  rw [left, right]
  cases signed with
  | inl none => simp [none]
  | inr none => cases a.asSigned? <;> simp [none]

-- What is rounded is generalized, or it would be computed.
theorem sqlEqual_rounded {a b : Number} (signed : a.asSigned? = none ∨ b.asSigned? = none)
    (unsigned : a.asUnsigned? = none ∨ b.asUnsigned? = none) : a.sqlEqual b = true ↔
      ∃ x y, a.toBinary64? = some x ∧ b.toBinary64? = some y ∧ x.value = y.value := by
  unfold sqlEqual
  generalize a.asSigned? = p, b.asSigned? = q, a.asUnsigned? = r, b.asUnsigned? = s,
    a.toBinary64? = left, b.toBinary64? = right at *
  rcases signed with rfl | rfl <;> rcases unsigned with rfl | rfl <;>
    cases left <;> cases right <;> simp [Binary64.same_value]

theorem floats_equal : (float x).sqlEqual (float y) = true ↔ x.value = y.value := by
  rw [sqlEqual_rounded (.inl rfl) (.inl rfl)]
  simp [toBinary64?]

theorem mixed_equal {fits : Fits n} :
    (integer n fits).sqlEqual (float x) = true ↔ x.Nearest n := by
  have whole : (float x).toBinary64? = some x := rfl
  rw [sqlEqual_rounded (.inr rfl) (.inr rfl), whole]
  simp [toBinary64?, Binary64.Nearest]

theorem floats_alike (same : x.value = y.value) (a : Number) :
    (float x).sqlEqual a = (float y).sqlEqual a := by
  rw [Bool.eq_iff_iff]
  cases a with
  | integer n fits =>
      rw [sqlEqual_comm, mixed_equal, sqlEqual_comm, mixed_equal]
      simp [Binary64.Nearest, same]
  | float z => rw [floats_equal, floats_equal, same]

theorem integers_equal {left : Fits m} {right : Fits n} :
    (integer m left).sqlEqual (integer n right) = true ↔ m = n := by
  by_cases signed : m < Int.pow 2 63 ∧ n < Int.pow 2 63
  · exact sqlEqual_signed (if_pos signed.1) (if_pos signed.2)
  · have large : (integer m left).asSigned? = none ∨ (integer n right).asSigned? = none := by
      simp only [asSigned?]
      grind
    by_cases unsigned : 0 ≤ m ∧ 0 ≤ n
    · rw [sqlEqual_unsigned large (if_pos unsigned.1) (if_pos unsigned.2)]
      omega
    · have negative : (integer m left).asUnsigned? = none ∨ (integer n right).asUnsigned? = none := by
        simp only [asUnsigned?]
        grind
      rw [sqlEqual_rounded large negative]
      constructor
      · intro equal
        obtain ⟨x, y, rounded, other, same⟩ := equal
        have first := Binary64.ofInt?_sign rounded
        have second := Binary64.ofInt?_sign other
        rw [same] at first
        have power : (0 : Int) ≤ Int.pow 2 63 := by decide
        omega
      · rintro rfl
        omega

theorem represented_exact (fits : Fits n) : x.Nearest n ↔
    (integer n fits).value = (float x).value ∨ (integer n fits).Blurs (float x) := by
  have kept := Binary64.nearest_represented (x := x) (n := n)
  simp only [value, Blurs]
  grind

-- Numbers are equal that have one value, and besides those an integer and what it is rounded to.
theorem sqlEqual_value (a b : Number) :
    a.sqlEqual b = true ↔ a.value = b.value ∨ a.Blurs b ∨ b.Blurs a := by
  cases a with
  | integer m left =>
      cases b with
      | integer n right =>
          simp only [integers_equal, value, Blurs, or_false]
          constructor
          · rintro rfl
            rfl
          · exact Binary64.inUnits_unique
      | float y =>
          rw [mixed_equal, represented_exact left]
          simp only [float_unblurred, or_false]
  | float x =>
      cases b with
      | integer n right =>
          rw [sqlEqual_comm, mixed_equal, represented_exact right, eq_comm]
          simp only [float_unblurred, false_or]
      | float y =>
          simp only [floats_equal, float_unblurred, or_false]
          exact Iff.rfl

end Number

namespace Json

theorem sqlEqual_plain {a : Json} (plain : ∀ p, a ≠ .number p) (b : Json) :
    a.sqlEqual b = a.same b := by
  cases a <;> simp_all [sqlEqual]

theorem sqlEqual_kinds {a b : Json} (equal : a.sqlEqual b = true) :
    (∃ p q, a = .number p ∧ b = .number q ∧ p.sqlEqual q = true) ∨
      (∀ p, a ≠ .number p) ∧ (∀ q, b ≠ .number q) ∧ a.same b = true := by
  cases a <;> cases b <;> simp_all [sqlEqual, same]

inductive Confused : Json → Json → Json → Prop
  | rounded {m n : Int} {x : Binary64} (left : Number.Fits m) (right : Number.Fits n)
      (different : m ≠ n) (first : x.Nearest m) (second : x.Nearest n) :
      Confused (.number (.integer m left)) (.number (.float x)) (.number (.integer n right))

theorem confused_large {a b c : Json} {n : Int} {fits : Number.Fits n} (confused : Confused a b c)
    (here : a = .number (.integer n fits) ∨ c = .number (.integer n fits)) :
    2 ^ 53 ≤ n.natAbs := by
  cases confused with
  | rounded _ _ different first second =>
      rcases here with here | here
      · cases here
        exact Binary64.nearest_shared first second different
      · cases here
        exact Binary64.nearest_shared second first different.symm

theorem confused_of_numbers {a b c : Number} (left : a.sqlEqual b = true)
    (right : b.sqlEqual c = true) (apart : a.sqlEqual c = false) :
    Confused (.number a) (.number b) (.number c) := by
  cases a with
  | integer m first =>
      cases b with
      | integer n _ =>
          cases Number.integers_equal.mp left
          simp [right] at apart
      | float x =>
          cases c with
          | integer n second =>
              rw [Number.sqlEqual_comm, Number.mixed_equal] at right
              refine .rounded first second (fun same => ?_) (Number.mixed_equal.mp left) right
              simp [Number.integers_equal.mpr same] at apart
          | float y =>
              have alike := Number.floats_alike (Number.floats_equal.mp right) (.integer m first)
              rw [Number.sqlEqual_comm, ← alike, Number.sqlEqual_comm, left] at apart
              cases apart
  | float x =>
      cases b with
      | integer n _ =>
          cases c with
          | integer k _ =>
              cases Number.integers_equal.mp right
              simp [left] at apart
          | float y =>
              rw [Number.sqlEqual_comm, Number.mixed_equal] at left
              have same := (Binary64.nearest_value left).mp (Number.mixed_equal.mp right)
              simp [Number.floats_equal.mpr same] at apart
      | float y =>
          have alike := Number.floats_alike (Number.floats_equal.mp left) c
          rw [alike, right] at apart
          cases apart

theorem chain_exact {a b c : Json} :
    a.sqlEqual b = true ∧ b.sqlEqual c = true ∧ a.sqlEqual c = false ↔ Confused a b c := by
  constructor
  · rintro ⟨left, right, apart⟩
    rcases sqlEqual_kinds left with ⟨p, q, rfl, rfl, first⟩ | ⟨plain, between, first⟩
    · rcases sqlEqual_kinds right with ⟨_, r, same, rfl, second⟩ | ⟨between, _, _⟩
      · cases same
        exact confused_of_numbers first second apart
      · exact absurd rfl (between q)
    · rcases sqlEqual_kinds right with ⟨q, _, rfl, _, _⟩ | ⟨_, _, second⟩
      · exact absurd rfl (between q)
      · simp [sqlEqual_plain plain, same_trans a b c first second] at apart
  · rintro ⟨_, _, different, first, second⟩
    refine ⟨Number.mixed_equal.mpr first, ?_, ?_⟩
    · rw [sqlEqual_comm]
      exact Number.mixed_equal.mpr second
    · exact Bool.eq_false_iff.mpr fun same => different (Number.integers_equal.mp same)

end Json

theorem compared_chain {a b c : Json} :
    compared a b = .yes ∧ compared b c = .yes ∧ a.sqlEqual c = false ↔ Json.Confused a b c := by
  change compared a b = .ofBool true ∧ compared b c = .ofBool true ∧ _ ↔ _
  rw [← Json.chain_exact, compared_settled, compared_settled]
  constructor
  · rintro ⟨⟨_, _, left⟩, ⟨_, _, right⟩, apart⟩
    exact ⟨left, right, apart⟩
  · intro chain
    cases Json.chain_exact.mp chain with
    | rounded => exact ⟨⟨nofun, nofun, chain.1⟩, ⟨nofun, nofun, chain.2.1⟩, chain.2.2⟩

-- What equality of cells has of an equivalence. One cell is the owner for two principals, or the
-- key of two rows, that are not equal themselves exactly if they are integers that it confuses.
theorem cell_comparison_exact (a b c : Json) :
    a.sqlEqual a = true ∧ a.sqlEqual b = b.sqlEqual a ∧
    (a.sqlEqual b = true ∧ b.sqlEqual c = true ∧ a.sqlEqual c = false ↔ Json.Confused a b c) ∧
    (∀ n fits, Json.Confused a b c →
      a = .number (.integer n fits) ∨ c = .number (.integer n fits) → 2 ^ 53 ≤ n.natAbs) ∧
    (∀ p q : Number, p.sqlEqual q = true ↔ p.value = q.value ∨ p.Blurs q ∨ q.Blurs p) ∧
    (∀ (o : Ownership) (row : Row) (rows : String → List Row),
      o.truth row (.by? (some a) rows) = .yes ∧ o.truth row (.by? (some c) rows) = .yes ∧
        a.sqlEqual c = false ↔ Json.Confused a (row.value o.column) c) ∧
    ∀ (m : Membership) (row other link : Row) (rows : String → List Row),
      link ∈ m.joined row rows ∧ link ∈ m.joined other rows ∧
        (row.value m.rowKey).sqlEqual (other.value m.rowKey) = false ↔
      link ∈ rows m.linkResource ∧
        Json.Confused (row.value m.rowKey) (link.value m.linkKey) (other.value m.rowKey) := by
  refine ⟨?_, a.sqlEqual_comm b, Json.chain_exact, fun n fits => Json.confused_large,
    Number.sqlEqual_value, fun o row rows => ?_, fun m row other link rows => ?_⟩
  · cases a with
    | number p => exact (Number.sqlEqual_value p p).mpr (.inl rfl)
    | _ => exact Json.same_refl _
  · simp only [o.truth_compared]
    have swapped : compared c (row.value o.column) = compared (row.value o.column) c :=
      equated_comm _ _
    exact swapped ▸ compared_chain
  · have swapped : compared (link.value m.linkKey) (row.value m.rowKey) =
        compared (row.value m.rowKey) (link.value m.linkKey) := equated_comm _ _
    rw [← compared_chain, ← swapped]
    simp only [Membership.mem_joined]
    grind

def Json.integer (n : Int) (fits : Number.Fits n) : Json := .number (.integer n fits)

def tenAccount : Row :=
  ⟨[("owner", .number (.float ⟨false, 5629499534213120, 1025, by decide, by decide, by decide⟩))]⟩

def ownsAccount : Ownership := ⟨"accounts", "owner"⟩

theorem ten_unconfused :
    ownsAccount.truth tenAccount (.by? (some (.integer 10 (by decide))) fun _ => []) = .yes ∧
      ownsAccount.truth tenAccount (.by? (some (.integer 11 (by decide))) fun _ => []) ≠ .yes := by
  have ten : ownsAccount.truth tenAccount (.by? (some (.integer 10 (by decide))) fun _ => []) =
      .yes := by decide +kernel
  refine ⟨ten, fun eleven => ?_⟩
  obtain ⟨_, _, _, large, _, shared, _⟩ := cell_comparison_exact (.integer 10 (by decide))
    (tenAccount.value "owner") (.integer 11 (by decide))
  have confused := (shared ownsAccount tenAccount fun _ => []).mp ⟨ten, eleven, by decide⟩
  exact absurd (large 10 (by decide) confused (.inl rfl)) (by decide)

def roundAccount : Row :=
  ⟨[("owner", .number (.float ⟨false, 4503599627370496, 1075, by decide, by decide, by decide⟩))]⟩

theorem round_account_shared :
    ownsAccount.truth roundAccount
        (.by? (some (.integer 9007199254740993 (by decide))) fun _ => []) = .yes ∧
      ownsAccount.truth roundAccount
        (.by? (some (.integer 9007199254740992 (by decide))) fun _ => []) = .yes ∧
      (Json.integer 9007199254740993 (by decide)).sqlEqual
        (.integer 9007199254740992 (by decide)) = false ∧
      ¬ ∀ a b c : Json, a.sqlEqual b = true → b.sqlEqual c = true → a.sqlEqual c = true := by
  have odd : (Json.integer 9007199254740993 (by decide)).sqlEqual (roundAccount.value "owner") =
      true := by decide +kernel
  have even : (roundAccount.value "owner").sqlEqual (.integer 9007199254740992 (by decide)) =
      true := by decide +kernel
  have apart : (Json.integer 9007199254740993 (by decide)).sqlEqual
      (.integer 9007199254740992 (by decide)) = false := by decide
  refine ⟨by decide +kernel, by decide +kernel, apart, fun carried => ?_⟩
  simp [carried _ _ _ odd even] at apart

namespace Number

variable {m n : Int} {a b : Number} {x y : Binary64}

-- Neither type of 64 bits holds both, so that both are rounded.
def Parted (a b : Number) : Prop :=
  (a.asSigned? = none ∨ b.asSigned? = none) ∧ (a.asUnsigned? = none ∨ b.asUnsigned? = none)

theorem unsigned_beyond {fits : Fits n} :
    (integer n fits).asSigned? = none ↔ Int.pow 2 63 ≤ n := by
  simp [asSigned?]

theorem signed_below {fits : Fits n} : (integer n fits).asUnsigned? = none ↔ n < 0 := by
  simp [asUnsigned?]

theorem parted_exact {left : Fits m} {right : Fits n} :
    Parted (integer m left) (integer n right) ↔
      m < 0 ∧ Int.pow 2 63 ≤ n ∨ n < 0 ∧ Int.pow 2 63 ≤ m := by
  have power : (0 : Int) < Int.pow 2 63 := by decide
  simp only [Parted, unsigned_beyond, signed_below]
  omega

theorem parted_same (parted : Parted a b) (left : a.toBinary64? = some x)
    (right : b.toBinary64? = some y) : a.sqlEqual b = x.same y := by
  rw [Bool.eq_iff_iff, sqlEqual_rounded parted.1 parted.2, left, right, Binary64.same_value]
  simp

theorem rounded_total (fits : Fits n) :
    ∃ x, (integer n fits).toBinary64? = some x ∧ x.value.sign = n.sign := by
  have bounded : n.natAbs < 2 ^ 64 := by
    have limits : Int.pow 2 63 = 2 ^ 63 ∧ Int.pow 2 64 = 2 ^ 64 := by decide
    obtain ⟨low, high⟩ := fits
    omega
  obtain ⟨x, rounded⟩ := Binary64.ofInt?_total bounded
  exact ⟨x, rounded, Binary64.ofInt?_keeps_sign rounded⟩

theorem parted_apart {left : Fits m} {right : Fits n}
    (parted : Parted (integer m left) (integer n right)) :
    ∃ x y, (integer m left).toBinary64? = some x ∧ (integer n right).toBinary64? = some y ∧
      x.value.sign = m.sign ∧ y.value.sign = n.sign ∧
      (integer m left).sqlEqual (integer n right) = x.same y ∧ x.same y = false := by
  obtain ⟨x, first, firstSign⟩ := rounded_total left
  obtain ⟨y, second, secondSign⟩ := rounded_total right
  have compared := parted_same parted first second
  have different : m ≠ n := by
    have power : (0 : Int) < Int.pow 2 63 := by decide
    rcases parted_exact.mp parted with ⟨below, beyond⟩ | ⟨below, beyond⟩ <;> omega
  refine ⟨x, y, first, second, firstSign, secondSign, compared, ?_⟩
  rw [← compared, Bool.eq_false_iff]
  exact mt integers_equal.mp different

end Number

theorem Json.integer_sqlEqual {m n : Int} (left : Number.Fits m) (right : Number.Fits n) :
    (Json.integer m left).sqlEqual (.integer n right) = decide (m = n) := by
  rw [Bool.eq_iff_iff, decide_eq_true_iff]
  exact Number.integers_equal

-- Integers of 64 bits are equal cells exactly if they are the same, so that an owner is the one
-- identity of that number. Two of them are rounded only if one is negative and the other is
-- beyond what is signed; what they are rounded to keeps their signs, and is not equal.
theorem integer_comparison_exact {m n : Int} (left : Number.Fits m) (right : Number.Fits n) :
    ((Json.integer m left).sqlEqual (.integer n right) = true ↔ m = n) ∧
    ((Number.integer m left).Parted (.integer n right) ↔
      m < 0 ∧ Int.pow 2 63 ≤ n ∨ n < 0 ∧ Int.pow 2 63 ≤ m) ∧
    ((Number.integer m left).Parted (.integer n right) →
      ∃ x y, (Number.integer m left).toBinary64? = some x ∧
        (Number.integer n right).toBinary64? = some y ∧
        x.value.sign = m.sign ∧ y.value.sign = n.sign ∧
        (Number.integer m left).sqlEqual (.integer n right) = x.same y ∧ x.same y = false) ∧
    ∀ (o : Ownership) (row : Row) (rows : String → List Row),
      row.value o.column = .integer m left →
        o.truth row (.by? (some (.integer n right)) rows) = .ofBool (decide (m = n)) := by
  refine ⟨Number.integers_equal, Number.parted_exact, Number.parted_apart, ?_⟩
  intro o row rows held
  have owned : compared (.integer n right) (.integer m left) = .ofBool (decide (n = m)) := by
    rw [← Json.integer_sqlEqual right left]
    exact compared_present Json.noConfusion Json.noConfusion
  rw [o.truth_compared, held, Option.getD_some, owned]
  simp only [eq_comm]

def lastAccount : Row :=
  ⟨[("owner", .integer 18446744073709551615 (by decide))]⟩

theorem last_account_owned :
    (Json.integer 18446744073709551615 (by decide)).sqlEqual
        (.integer 18446744073709551614 (by decide)) = false ∧
      ownsAccount.truth lastAccount
        (.by? (some (.integer 18446744073709551614 (by decide))) fun _ => []) = .no ∧
      (Number.integer (-1) (by decide)).Parted (.integer 18446744073709551615 (by decide)) ∧
      (Number.integer (-1) (by decide)).sqlEqual (.integer 18446744073709551615 (by decide)) =
        false := by
  obtain ⟨equal, _, _, owned⟩ := integer_comparison_exact (m := 18446744073709551615)
    (n := 18446744073709551614) (by decide) (by decide)
  obtain ⟨_, parted, apart, _⟩ := integer_comparison_exact (m := -1) (n := 18446744073709551615)
    (by decide) (by decide)
  have rounded := parted.mpr (.inl (by decide))
  obtain ⟨x, y, _, _, _, _, compared, unequal⟩ := apart rounded
  refine ⟨?_, ?_, rounded, compared.trans unequal⟩
  · exact Bool.eq_false_iff.mpr (mt equal.mp (by decide))
  · rw [owned ownsAccount lastAccount _ rfl]
    rfl

end RowSecurity

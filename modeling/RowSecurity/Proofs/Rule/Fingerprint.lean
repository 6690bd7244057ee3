import Mathlib.Logic.Function.Basic
import RowSecurity.Proofs.Stored
import RowSecurity.Rule.Fingerprint

-- Which sets share a fingerprint. The text in base64 has no padding.
namespace RowSecurity.Digest

def base64Value (c : Char) : Nat :=
  if c = '-' then 62
  else if c = '_' then 63
  else if c.isDigit then c.toNat - '0'.toNat + 52
  else if c.isLower then c.toNat - 'a'.toNat + 26
  else c.toNat - 'A'.toNat

theorem base64Value_digit (n : Nat) (bound : n < 64) : base64Value (base64Digit n) = n := by
  have each : ∀ n < 64, base64Value (base64Digit n) = n := by decide
  exact each n bound

theorem base64Digit_unique {m n : Nat} (first : m < 64) (second : n < 64)
    (same : base64Digit m = base64Digit n) : m = n := by
  rw [← base64Value_digit m first, ← base64Value_digit n second, same]

section Groups

variable {a b c x y z : UInt8}

-- What the digits of a group say of its bytes: the first two of its first byte and the upper
-- half of the second, the third of the lower half, and so on.
theorem front_unique (first : base64Digit (a.toNat / 4) = base64Digit (x.toNat / 4))
    (second : base64Digit (a.toNat % 4 * 16 + b.toNat / 16) =
      base64Digit (x.toNat % 4 * 16 + y.toNat / 16)) : a = x ∧ b.toNat / 16 = y.toNat / 16 := by
  have bounds := And.intro (And.intro a.toNat_lt x.toNat_lt) (And.intro b.toNat_lt y.toNat_lt)
  have upper := base64Digit_unique (by omega) (by omega) first
  have lower := base64Digit_unique (by omega) (by omega) second
  exact ⟨UInt8.toNat_inj.mp (by omega), by omega⟩

theorem middle_unique (upper : b.toNat / 16 = y.toNat / 16)
    (third : base64Digit (b.toNat % 16 * 4 + c.toNat / 64) =
      base64Digit (y.toNat % 16 * 4 + z.toNat / 64)) : b = y ∧ c.toNat / 64 = z.toNat / 64 := by
  have bounds := And.intro c.toNat_lt z.toNat_lt
  have lower := base64Digit_unique (by omega) (by omega) third
  exact ⟨UInt8.toNat_inj.mp (by omega), by omega⟩

theorem last_unique (upper : c.toNat / 64 = z.toNat / 64)
    (fourth : base64Digit (c.toNat % 64) = base64Digit (z.toNat % 64)) : c = z := by
  have lower := base64Digit_unique (by omega) (by omega) fourth
  exact UInt8.toNat_inj.mp (by omega)

end Groups

theorem base64_injective : Function.Injective base64 := by
  intro bytes
  induction bytes using base64.induct with
  | case1 a b c rest ih =>
      intro other same
      match other with
      | x :: y :: z :: more =>
          simp only [base64, List.cons.injEq] at same
          obtain ⟨first, second, third, fourth, later⟩ := same
          obtain ⟨one, upper⟩ := front_unique first second
          obtain ⟨two, high⟩ := middle_unique upper third
          rw [one, two, last_unique high fourth, ih later]
      | [x, y] => simp [base64] at same
      | [x] => simp [base64] at same
      | [] => simp [base64] at same
  | case2 a b =>
      intro other same
      match other with
      | x :: y :: z :: more => simp [base64] at same
      | [x, y] =>
          simp only [base64, List.cons.injEq] at same
          obtain ⟨one, upper⟩ := front_unique same.1 same.2.1
          have third := middle_unique (c := 0) (z := 0) upper same.2.2.1
          rw [one, third.1]
      | [x] => simp [base64] at same
      | [] => simp [base64] at same
  | case3 a =>
      intro other same
      match other with
      | x :: y :: z :: more => simp [base64] at same
      | [x, y] => simp [base64] at same
      | [x] =>
          simp only [base64, List.cons.injEq] at same
          rw [(front_unique (b := 0) (y := 0) same.1 same.2.1).1]
      | [] => simp [base64] at same
  | case4 =>
      intro other same
      match other with
      | x :: y :: z :: more => simp [base64] at same
      | [x, y] => simp [base64] at same
      | [x] => simp [base64] at same
      | [] => rfl

end RowSecurity.Digest

namespace RowSecurity

theorem bytes_loop (bytes : ByteArray) (position : Nat) (done : List UInt8) :
    ByteArray.toList.loop bytes position done =
      done.reverse ++ bytes.data.toList.drop position := by
  fun_induction ByteArray.toList.loop bytes position done with
  | case1 position done inside ih =>
      have bound : position < bytes.data.toList.length := by simpa using inside
      rw [ih, List.drop_eq_getElem_cons bound]
      simp [ByteArray.get!, inside]
  | case2 position done outside =>
      rw [List.drop_eq_nil_of_le (by simpa using Nat.le_of_not_lt outside)]
      simp

theorem utf8_injective : Function.Injective fun text : String => text.toUTF8.toList := by
  intro text other same
  have listed : ∀ bytes : ByteArray, bytes.toList = bytes.data.toList := by
    intro bytes
    rw [ByteArray.toList, bytes_loop]
    rfl
  have equal : text.toUTF8.toList = other.toUTF8.toList := same
  rw [listed, listed, Array.toList_inj] at equal
  exact String.toByteArray_inj.mp (ByteArray.ext equal)

theorem Json.key_injective [Json.Stored α] :
    Function.Injective (Json.Stored.key : α → String) := by
  intro word other same
  have found := Json.Stored.find_key word
  rw [same, Json.Stored.find_key] at found
  exact (Option.some.inj found).symm

theorem Json.ofWord_injective [Json.Stored α] :
    Function.Injective (Json.ofWord : α → Json) :=
  fun _ _ same => Json.key_injective (Json.string.inj same)

theorem Action.label_injective {first second : Action} (same : first.label = second.label) :
    first = second := Json.key_injective same

theorem Clause.label_injective {first second : Clause} (same : first.label = second.label) :
    first = second := Json.key_injective same

namespace Rule

def compact (rule : Rule) : String :=
  Text.braced <| ",".intercalate
    ["\"resource\":" ++ (Json.string rule.resource).render,
      "\"action\":" ++ (Json.string rule.action.label).render,
      "\"role\":" ++ (Json.string rule.role).render,
      "\"predicate\":" ++ rule.predicate.toJson.render,
      "\"clause\":" ++ (Json.string rule.clause.label).render]

theorem toJson_text (rule : Rule) : rule.toJson.render = rule.compact := by
  have resource : (Json.string "resource").render ++ ":" = "\"resource\":" := rfl
  have action : (Json.string "action").render ++ ":" = "\"action\":" := rfl
  have role : (Json.string "role").render ++ ":" = "\"role\":" := rfl
  have predicate : (Json.string "predicate").render ++ ":" = "\"predicate\":" := rfl
  have clause : (Json.string "clause").render ++ ":" = "\"clause\":" := rfl
  rw [toJson, Json.object_text]
  simp only [List.map_cons, List.map_nil, resource, action, role, predicate, clause, compact,
    Json.ofWord, Json.Stored.key]

theorem toJson_numberless (rule : Rule) : Json.Numberless rule.toJson :=
  .object (by simp [Json.ofWord, Json.Numberless.string, Predicate.toJson_numberless])

theorem toJson_injective : Function.Injective Rule.toJson := by
  intro rule other same
  simp only [toJson, Json.object.injEq, List.cons.injEq, Prod.mk.injEq, Json.string.injEq] at same
  obtain ⟨⟨_, resource⟩, ⟨_, action⟩, ⟨_, role⟩, ⟨_, predicate⟩, ⟨_, clause⟩, _⟩ := same
  cases rule
  cases other
  cases resource
  cases role
  cases Json.ofWord_injective action
  cases Json.ofWord_injective clause
  cases Predicate.toJson_injective predicate
  rfl

end Rule

namespace RuleSet

variable {set other : RuleSet}

theorem preimage_unique (same : set.preimage = other.preimage) : set.rules = other.rules := by
  have numberless : ∀ rules : List Rule, Json.Numberless (.array (rules.map Rule.toJson)) := by
    intro rules
    refine .array fun item member => ?_
    obtain ⟨rule, _, rfl⟩ := List.mem_map.mp member
    exact rule.toJson_numberless
  have values := Json.render_unique (numberless set.rules) (numberless other.rules) same
  exact Rule.toJson_injective.list_map (Json.array.inj values)

theorem preimage_text (set : RuleSet) :
    set.preimage = "[" ++ ",".intercalate (set.rules.map Rule.compact) ++ "]" := by
  have printed : set.rules.map (Json.render ∘ Rule.toJson) = set.rules.map Rule.compact :=
    List.map_congr_left fun rule _ => rule.toJson_text
  rw [preimage, Json.array_text, List.map_map, printed]

theorem fingerprint_digest : set.fingerprint = other.fingerprint ↔
    Digest.sha256 set.preimage.toUTF8.toList = Digest.sha256 other.preimage.toUTF8.toList := by
  constructor
  · intro same
    exact Digest.base64_injective (String.ofList_injective same)
  · intro same
    rw [fingerprint, fingerprint, same]

-- The bytes that are digested are those of these rules in this order and of no others. So two
-- sets share a fingerprint when they hold the same rules in the same order, and otherwise only
-- where two byte strings share a digest.
theorem fingerprint_exact (set other : RuleSet) :
    set.preimage = "[" ++ ",".intercalate (set.rules.map Rule.compact) ++ "]" ∧
      (set.preimage.toUTF8.toList = other.preimage.toUTF8.toList ↔ set.rules = other.rules) ∧
      Function.Injective Digest.base64 ∧
      (set.fingerprint = other.fingerprint ↔ set.rules = other.rules ∨
        set.preimage.toUTF8.toList ≠ other.preimage.toUTF8.toList ∧
          Digest.sha256 set.preimage.toUTF8.toList =
            Digest.sha256 other.preimage.toUTF8.toList) := by
  have bytes : set.preimage.toUTF8.toList = other.preimage.toUTF8.toList ↔
      set.rules = other.rules := by
    constructor
    · intro same
      exact preimage_unique (utf8_injective same)
    · intro same
      rw [preimage, preimage, same]
  refine ⟨set.preimage_text, bytes, Digest.base64_injective, ?_⟩
  rw [fingerprint_digest, ← bytes]
  constructor
  · intro digests
    by_cases same : set.preimage.toUTF8.toList = other.preimage.toUTF8.toList
    · exact .inl same
    · exact .inr ⟨same, digests⟩
  · rintro (same | ⟨_, digests⟩)
    · rw [same]
    · exact digests

end RuleSet
end RowSecurity

import Mathlib.Data.List.Basic
import RowSecurity.Json.Reader
import RowSecurity.Json.Writer
import RowSecurity.Proofs.Listed

-- A string is read back from its text, and a value without numbers is the only one of its text,
-- also where more text follows.
namespace RowSecurity.Json

-- A value without numbers. Their texts alone do not end where the number ends.
inductive Numberless : Json → Prop where
  | null : Numberless .null
  | bool (value : Bool) : Numberless (.bool value)
  | string (value : String) : Numberless (.string value)
  | array : (∀ item ∈ items, Numberless item) → Numberless (.array items)
  | object : (∀ member ∈ members, Numberless member.2) → Numberless (.object members)

theorem numberless_single (numberless : Numberless value) :
    Numberless (.object [(name, value)]) :=
  .object (by simpa using numberless)

section Strings

variable {done : List Char}

theorem control_read (n : Nat) (control : n < 0x20) :
    unit? '0' '0' (Nat.digitChar (n / 16)) (Nat.digitChar (n % 16)) = some n := by
  have each : ∀ n < 0x20,
      unit? '0' '0' (Nat.digitChar (n / 16)) (Nat.digitChar (n % 16)) = some n := by decide
  exact each n control

theorem escaped_read (c : Char) (rest : List Char) :
    stringRest done (escaped c ++ rest) = stringRest (c :: done) rest := by
  unfold escaped
  -- The seven characters that are escaped by a letter.
  iterate 7
    split
    · rename_i letter
      rw [letter]
      rfl
  split
  · rename_i control
    have high : isHighUnit c.toNat = false := by
      simp only [isHighUnit, Bool.and_eq_false_iff, decide_eq_false_iff_not]
      omega
    have low : isLowUnit c.toNat = false := by
      simp only [isLowUnit, Bool.and_eq_false_iff, decide_eq_false_iff_not]
      omega
    simp [stringRest, control_read c.toNat control, high, low]
  · rename_i bare
    rw [List.cons_append, List.nil_append, stringRest]
    · rw [if_neg]
      simp_all
    all_goals simp_all

theorem quoted_read (text : List Char) (rest : List Char) :
    stringRest done (text.flatMap escaped ++ '"' :: rest) =
      some (String.ofList (done.reverse ++ text), rest) := by
  induction text generalizing done with
  | nil => simp [stringRest]
  | cons c more ih =>
      rw [List.flatMap_cons, List.append_assoc, escaped_read, ih]
      simp

theorem quoted_unique {first second : String} {rest tail : List Char}
    (same : quoted first ++ rest = quoted second ++ tail) : first = second ∧ rest = tail := by
  simp only [quoted, List.cons_append, List.append_assoc, List.nil_append] at same
  have read := congrArg (stringRest []) (List.cons.inj same).2
  rw [quoted_read, quoted_read] at read
  simpa using read

end Strings

section Lists

def listed (text : α → List Char) : List α → List Char
  | [] => []
  | item :: rest => text item ++ rest.flatMap fun next => ',' :: text next

theorem listed_intercalate (text : α → List Char) (items : List α) :
    listed text items = [','].intercalate (items.map text) := by
  cases items with
  | nil => rfl
  | cons item rest => exact (intercalate_more [','] text item rest).symm

theorem itemChars_listed (items : List Json) : itemChars items = listed chars items := by
  induction items with
  | nil => rfl
  | cons item rest ih =>
      cases rest with
      | nil => simp [itemChars, listed]
      | cons next rest =>
          rw [itemChars, ih]
          simp [listed]

def memberText (member : String × Json) : List Char := quoted member.1 ++ ':' :: chars member.2

theorem memberChars_listed (members : List (String × Json)) :
    memberChars members = listed memberText members := by
  induction members with
  | nil => rfl
  | cons member rest ih =>
      cases rest with
      | nil => simp [memberChars, listed, memberText]
      | cons next rest =>
          rw [memberChars, ih]
          simp [listed, memberText]

theorem listed_text (text : α → List Char) (items : List α) :
    String.ofList (listed text items) =
      ",".intercalate (items.map fun item => String.ofList (text item)) := by
  induction items with
  | nil => rfl
  | cons item rest ih =>
      cases rest with
      | nil => simp [listed]
      | cons next rest =>
          rw [List.map_cons] at ih ⊢
          rw [List.map_cons, String.intercalate_cons_cons, ← ih, ← String.toList_inj]
          simp [listed]

theorem array_text (items : List Json) :
    (Json.array items).render = "[" ++ ",".intercalate (items.map render) ++ "]" := by
  have inner := listed_text chars items
  rw [← itemChars_listed] at inner
  change _ = "[" ++ ",".intercalate (items.map fun item => String.ofList (chars item)) ++ "]"
  rw [← inner, ← String.toList_inj]
  simp [render, chars]

theorem object_text (members : List (String × Json)) : (Json.object members).render =
    Text.braced (",".intercalate
      (members.map fun member => (Json.string member.1).render ++ ":" ++ member.2.render)) := by
  have inner := listed_text memberText members
  rw [← memberChars_listed] at inner
  have each : ∀ member : String × Json, String.ofList (memberText member) =
      (Json.string member.1).render ++ ":" ++ member.2.render := by
    intro member
    rw [← String.toList_inj]
    simp [memberText, render, chars]
  simp only [each] at inner
  rw [← inner, ← String.toList_inj]
  simp [Text.braced, render, chars]

end Lists

theorem numberless_opens (numberless : Numberless value) (more tail : List Char) :
    chars value ++ more ≠ ']' :: tail := by
  cases numberless with
  | bool value => cases value <;> simp [chars, boolChars]
  | _ => simp [chars, quoted]

theorem member_alone {member : String × Json} (alone : Alone chars Numberless member.2) :
    Alone memberText (fun other => Numberless other.2) member := by
  intro other numberless rest tail same
  simp only [memberText, List.append_assoc, List.cons_append] at same
  obtain ⟨names, values⟩ := quoted_unique same
  obtain ⟨equal, ends⟩ := alone other.2 numberless _ _ (List.cons.inj values).2
  exact ⟨Prod.ext names equal, ends⟩

theorem numberless_alone (numberless : Numberless value) : Alone chars Numberless value := by
  induction numberless with
  | null =>
      intro other among rest tail same
      cases among with
      | null => simpa [chars] using same
      | bool value => cases value <;> simp [chars, boolChars] at same
      | _ => simp [chars, quoted] at same
  | bool value =>
      intro other among rest tail same
      cases among with
      | bool other => cases value <;> cases other <;> simp_all [chars, boolChars]
      | _ => cases value <;> simp [chars, boolChars, quoted] at same
  | string text =>
      intro other among rest tail same
      cases among with
      | string other =>
          obtain ⟨equal, ends⟩ := quoted_unique same
          rw [equal]
          exact ⟨rfl, ends⟩
      | bool value => cases value <;> simp [chars, boolChars, quoted] at same
      | _ => simp [chars, quoted] at same
  | @array items each ih =>
      intro other among rest tail same
      cases among with
      | @array others known =>
          simp only [chars, itemChars_listed, listed_intercalate, List.cons_append,
            List.append_assoc] at same
          obtain ⟨equal, ends⟩ := listed_unique (by simp) ih known each
            (fun _ => numberless_opens) (List.cons.inj same).2
          rw [equal]
          exact ⟨rfl, ends⟩
      | bool value => cases value <;> simp [chars, boolChars] at same
      | _ => simp [chars, quoted] at same
  | @object members each ih =>
      intro other among rest tail same
      cases among with
      | @object others known =>
          simp only [chars, memberChars_listed, listed_intercalate, List.cons_append,
            List.append_assoc] at same
          obtain ⟨equal, ends⟩ := listed_unique (by simp)
            (fun member inside => member_alone (ih member inside)) known each
            (fun _ _ _ _ => by simp [memberText, quoted]) (List.cons.inj same).2
          rw [equal]
          exact ⟨rfl, ends⟩
      | bool value => cases value <;> simp [chars, boolChars] at same
      | _ => simp [chars, quoted] at same

theorem render_unique (first : Numberless value) (second : Numberless other)
    (same : value.render = other.render) : value = other := by
  have texts : chars value ++ [] = chars other ++ [] := by
    rw [List.append_nil, List.append_nil]
    exact String.ofList_injective same
  exact (numberless_alone first other second _ _ texts).1

end RowSecurity.Json

import Mathlib.Data.List.Forall2
import RowSecurity.Json.Basic
import RowSecurity.Proofs.Listed

-- JSON values that differ only in the order of members, and readers that do not see that
-- difference.
namespace RowSecurity.Json

inductive Rearranged : Json → Json → Prop where
  | null : Rearranged .null .null
  | bool (value : Bool) : Rearranged (.bool value) (.bool value)
  | number (value : Number) : Rearranged (.number value) (.number value)
  | string (value : String) : Rearranged (.string value) (.string value)
  | array (items : List.Forall₂ Rearranged stored others) :
      Rearranged (.array stored) (.array others)
  | object {stored middle others : List (String × Json)}
      (names : stored.map Prod.fst = middle.map Prod.fst)
      (values : List.Forall₂ Rearranged (stored.map Prod.snd) (middle.map Prod.snd))
      (order : middle.Perm others) : Rearranged (.object stored) (.object others)

theorem rearranged_refl (value : Json) : Rearranged value value :=
  match value with
  | .null => .null
  | .bool value => .bool value
  | .number value => .number value
  | .string value => .string value
  | .array items => .array (List.forall₂_same.mpr fun item _ => rearranged_refl item)
  | .object members =>
      .object rfl (List.forall₂_map_left_iff.mpr (List.forall₂_map_right_iff.mpr
        (List.forall₂_same.mpr fun member _ => rearranged_refl member.2))) (.refl members)
termination_by value
decreasing_by
  · have smaller := List.sizeOf_lt_of_mem ‹item ∈ items›
    simp only [array.sizeOf_spec]
    omega
  · have smaller := List.sizeOf_lt_of_mem ‹member ∈ members›
    cases member
    simp only [Prod.mk.sizeOf_spec, object.sizeOf_spec] at smaller ⊢
    omega

variable {stored middle others : List (String × Json)} {name : String} {value json : Json}

theorem rearranged_bool {flag : Bool} (same : Rearranged (.bool flag) json) :
    json = .bool flag := by
  cases same; rfl

theorem rearranged_string {text : String} (same : Rearranged (.string text) json) :
    json = .string text := by
  cases same; rfl

theorem rearranged_single (same : Rearranged (.object [(name, value)]) json) :
    ∃ other, json = .object [(name, other)] ∧ Rearranged value other := by
  cases same with
  | @object _ middle others names values order =>
      match middle, names, values with
      | [(_, other)], names, .cons related .nil =>
          cases (List.cons.inj names).1
          exact ⟨other, by rw [List.singleton_perm.mp order], related⟩

theorem member?_exact (distinct : (stored.map Prod.fst).Nodup) :
    member? stored name = some value ↔ (name, value) ∈ stored := by
  rw [member?, Option.map_eq_some_iff]
  constructor
  · rintro ⟨⟨found, held⟩, there, rfl⟩
    obtain ⟨member, same⟩ := (find?_key distinct).mp there
    exact same ▸ member
  · intro member
    exact ⟨(name, value), (find?_key distinct).mpr ⟨member, rfl⟩, rfl⟩

theorem member?_none : member? stored name = none ↔ name ∉ stored.map Prod.fst := by
  rw [member?, Option.map_eq_none_iff, List.find?_eq_none, List.mem_map]
  simp only [beq_iff_eq, not_exists, not_and]

theorem matched_member (names : stored.map Prod.fst = middle.map Prod.fst)
    (values : List.Forall₂ Rearranged (stored.map Prod.snd) (middle.map Prod.snd))
    (member : (name, value) ∈ stored) :
    ∃ other, (name, other) ∈ middle ∧ Rearranged value other := by
  induction stored generalizing middle with
  | nil => cases member
  | cons first rest ih =>
      match middle, names, values with
      | other :: others, names, .cons related matched =>
          obtain ⟨same, behind⟩ := List.cons.inj names
          rcases List.mem_cons.mp member with rfl | later
          · exact ⟨other.2, List.mem_cons.mpr (.inl (Prod.ext same rfl)), related⟩
          · obtain ⟨found, there, related⟩ := ih behind matched later
            exact ⟨found, List.mem_cons_of_mem _ there, related⟩

theorem rearranged_isNull (same : Rearranged value json) : json.isNull = value.isNull := by
  cases same <;> rfl

-- What a value is stored as is read as that value, in whatever order its members come.
structure Reads (decode : Json → Option α) (stored : Json) (value : α) : Prop where
  plain : decode stored = some value
  rearranged : ∀ json, Rearranged stored json → decode json = some value

theorem reads_of {decode : Json → Option α} {stored : Json} {value : α}
    (rearranged : ∀ json, Rearranged stored json → decode json = some value) :
    Reads decode stored value := ⟨rearranged stored (rearranged_refl stored), rearranged⟩

namespace Record

structure Shows (record : Record) (members : List (String × Json)) : Prop where
  there : ∀ position name value, member? members name = some value →
    ∃ other, record.field? position name = some other ∧ Rearranged value other
  absent : ∀ position name, member? members name = none → record.field? position name = none

namespace Shows

variable {record : Record} {members : List (String × Json)} {position : Nat} {name : String}
  {decode : Json → Option α} {stored : Json} {value fallback : α}

theorem required (shown : record.Shows members) (found : member? members name = some stored)
    (reads : Reads decode stored value) : record.required position name decode = some value := by
  obtain ⟨other, there, related⟩ := shown.there position name stored found
  rw [Record.required, there]
  exact reads.rearranged other related

theorem defaulted (shown : record.Shows members) (found : member? members name = some stored)
    (reads : Reads decode stored value) :
    record.defaulted position name fallback decode = some value := by
  obtain ⟨other, there, related⟩ := shown.there position name stored found
  rw [Record.defaulted, there]
  exact reads.rearranged other related

theorem fallen_back (shown : record.Shows members) (missing : member? members name = none) :
    record.defaulted position name fallback decode = some fallback := by
  rw [Record.defaulted, shown.absent position name missing]

theorem optional {value : Option α} (shown : record.Shows members)
    (found : member? members name = some stored)
    (reads : Reads (nullable decode) stored value) :
    record.optional position name decode = some value := by
  obtain ⟨other, there, related⟩ := shown.there position name stored found
  have filled := reads.rearranged other related
  simpa only [Record.optional, there] using filled

end Shows
end Record

theorem object_shows (distinct : (stored.map Prod.fst).Nodup)
    (same : Rearranged (.object stored) json) :
    ∃ record, (∀ size, json.record? size = some record) ∧ record.Shows stored := by
  cases same with
  | @object _ middle others names values order =>
      have others_distinct : (others.map Prod.fst).Nodup := by
        rwa [← (order.map Prod.fst).nodup_iff, ← names]
      refine ⟨.named others, fun _ => rfl, ?_, ?_⟩
      · intro _ name value found
        obtain ⟨other, there, related⟩ :=
          matched_member names values ((member?_exact distinct).mp found)
        exact ⟨other, (member?_exact others_distinct).mpr (order.mem_iff.mp there), related⟩
      · intro _ name missing
        refine member?_none.mpr fun held => member?_none.mp missing ?_
        rw [names]
        exact (order.map Prod.fst).mem_iff.mpr held

section Reading

variable {decode : Json → Option α} {encode : α → Json}

theorem object_reads {read : Record → Option α} {value : α} (size : Nat)
    (distinct : (stored.map Prod.fst).Nodup)
    (opens : ∀ json, decode json = (json.record? size).bind read)
    (shown : ∀ record : Record, record.Shows stored → read record = some value) :
    Reads decode (.object stored) value :=
  reads_of fun json same => by
    obtain ⟨record, found, shows_stored⟩ := object_shows distinct same
    rw [opens, found size]
    exact shown record shows_stored

theorem string_reads (text : String) : Reads string? (.string text) text :=
  reads_of fun _ same => by rw [rearranged_string same]; rfl

theorem bool_reads (flag : Bool) : Reads bool? (.bool flag) flag :=
  reads_of fun _ same => by rw [rearranged_bool same]; rfl

theorem word_reads [Stored α] (word : α) : Reads word? (ofWord word) word :=
  reads_of fun _ same => by rw [rearranged_string same]; exact word?_ofWord word

theorem list_read {values : List α} {items : List Json}
    (each : ∀ value ∈ values, Reads decode (encode value) value)
    (related : List.Forall₂ Rearranged (values.map encode) items) :
    items.mapM decode = some values := by
  induction values generalizing items with
  | nil => cases related; rfl
  | cons value rest ih =>
      obtain ⟨first_reads, rest_reads⟩ := List.forall_mem_cons.mp each
      cases related with
      | cons first later =>
          rw [List.mapM_cons, first_reads.rearranged _ first, ih rest_reads later]
          rfl

theorem list_reads (each : ∀ value, Reads decode (encode value) value) (values : List α) :
    Reads (listOf? decode) (.array (values.map encode)) values :=
  reads_of fun _ same => by
    cases same with
    | array related => exact list_read (fun value _ => each value) related

theorem value_nullable {stored : Json} {value : α} (reads : Reads decode stored value)
    (filled : stored.isNull = false) : Reads (Record.nullable decode) stored (some value) :=
  reads_of fun json same => by
    rw [Record.nullable, rearranged_isNull same, filled, reads.rearranged json same]
    rfl

theorem null_nullable : Reads (Record.nullable decode) .null none :=
  reads_of fun _ same => by cases same; rfl

end Reading

end RowSecurity.Json

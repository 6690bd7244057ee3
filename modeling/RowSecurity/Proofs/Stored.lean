import RowSecurity.Install.Dialect
import RowSecurity.Policy.Compiler
import RowSecurity.Predicate.Basic
import RowSecurity.Proofs.Json.Rearranged
import RowSecurity.Proofs.Json.Writer
import RowSecurity.Rule.Basic
import RowSecurity.Schema.Graph

-- What is stored as JSON is read back as it was.
namespace RowSecurity

theorem Ownership.toJson_reads (o : Ownership) : Json.Reads ofJson? o.toJson o :=
  Json.object_reads 2 (by simp) (fun _ => rfl) fun record shown => by
    rw [shown.required rfl (Json.string_reads o.resource),
      shown.required rfl (Json.string_reads o.column)]
    rfl

theorem Membership.toJson_reads (m : Membership) : Json.Reads ofJson? m.toJson m :=
  Json.object_reads 5 (by simp) (fun _ => rfl) fun record shown => by
    rw [shown.required rfl (Json.string_reads m.resource),
      shown.required rfl (Json.string_reads m.rowKey),
      shown.required rfl (Json.string_reads m.linkResource),
      shown.required rfl (Json.string_reads m.linkKey),
      shown.required rfl (Json.string_reads m.identityKey)]
    rfl

theorem Ownership.toJson_numberless (o : Ownership) : Json.Numberless o.toJson :=
  .object (by simp [Json.Numberless.string])

theorem Membership.toJson_numberless (m : Membership) : Json.Numberless m.toJson :=
  .object (by simp [Json.Numberless.string])

namespace Predicate

theorem operandsOfJson?_mapM (items : List Json) : operandsOfJson? items = items.mapM ofJson? := by
  induction items with
  | nil => rfl
  | cons item rest ih =>
      rw [operandsOfJson?, ih, List.mapM_cons]
      cases ofJson? item <;> cases rest.mapM ofJson? <;> rfl

-- Operands are read back when each of them is, so the induction is on the tree.
theorem operands_read {operands : List Predicate} {json : Json}
    (each : ∀ p ∈ operands, Json.Reads ofJson? p.toJson p)
    (same : Json.Rearranged (.array (operandsToJson operands)) json) :
    ∃ items, json = .array items ∧ operandsOfJson? items = some operands := by
  rw [operandsToJson_map] at same
  cases same with
  | @array _ items related =>
      refine ⟨items, rfl, ?_⟩
      rw [operandsOfJson?_mapM, Json.list_read each related]

theorem toJson_reads (p : Predicate) : Json.Reads ofJson? p.toJson p := by
  refine Json.reads_of fun json same => ?_
  induction p generalizing json with
  | literal value =>
      obtain ⟨body, rfl, related⟩ := Json.rearranged_single same
      rw [Json.rearranged_bool related]
      rfl
  | ownsRow ownership =>
      obtain ⟨body, rfl, related⟩ := Json.rearranged_single same
      have read := ownership.toJson_reads.rearranged body related
      simp [ofJson?, read]
  | memberOfJoin membership =>
      obtain ⟨body, rfl, related⟩ := Json.rearranged_single same
      have read := membership.toJson_reads.rearranged body related
      simp [ofJson?, read]
  | all operands ih =>
      obtain ⟨body, rfl, related⟩ := Json.rearranged_single same
      have each := fun p inside => Json.reads_of (ih p inside)
      obtain ⟨items, rfl, read⟩ := operands_read each related
      simp [ofJson?, read]
  | any operands ih =>
      obtain ⟨body, rfl, related⟩ := Json.rearranged_single same
      have each := fun p inside => Json.reads_of (ih p inside)
      obtain ⟨items, rfl, read⟩ := operands_read each related
      simp [ofJson?, read]
  | not operand ih =>
      obtain ⟨body, rfl, related⟩ := Json.rearranged_single same
      have read := ih body related
      simp [ofJson?, read]

theorem ofJson?_toJson (p : Predicate) : ofJson? p.toJson = some p := p.toJson_reads.plain

theorem toJson_injective : Function.Injective toJson := by
  intro p q same
  have read := ofJson?_toJson p
  rw [same, ofJson?_toJson] at read
  exact (Option.some.inj read).symm

theorem operandsToJson_numberless {operands : List Predicate}
    (each : ∀ p ∈ operands, Json.Numberless p.toJson) :
    Json.Numberless (.array (operandsToJson operands)) := by
  rw [operandsToJson_map]
  refine .array fun item member => ?_
  obtain ⟨p, inside, rfl⟩ := List.mem_map.mp member
  exact each p inside

theorem toJson_numberless (p : Predicate) : Json.Numberless p.toJson := by
  induction p with
  | literal value => exact Json.numberless_single (.bool value)
  | ownsRow ownership => exact Json.numberless_single ownership.toJson_numberless
  | memberOfJoin membership => exact Json.numberless_single membership.toJson_numberless
  | all operands ih => exact Json.numberless_single (operandsToJson_numberless ih)
  | any operands ih => exact Json.numberless_single (operandsToJson_numberless ih)
  | not operand ih => exact Json.numberless_single ih

end Predicate

theorem Column.toJson_reads (column : Column) : Json.Reads ofJson? column.toJson column :=
  Json.object_reads 5 (by simp) (fun _ => rfl) fun record shown => by
    rw [shown.required rfl (Json.string_reads column.name),
      shown.required rfl (Json.word_reads column.dataType),
      shown.defaulted rfl (Json.bool_reads column.nullable),
      shown.defaulted rfl (Json.bool_reads column.isPrimaryKey),
      shown.defaulted rfl (Json.bool_reads column.isUnique)]
    rfl

theorem Relationship.toJson_reads (edge : Relationship) : Json.Reads ofJson? edge.toJson edge :=
  Json.object_reads 3 (by simp) (fun _ => rfl) fun record shown => by
    rw [shown.required rfl (Json.string_reads edge.source),
      shown.required rfl (Json.string_reads edge.column),
      shown.required rfl (Json.string_reads edge.target)]
    rfl

theorem Resource.toJson_reads (resource : Resource) :
    Json.Reads ofJson? resource.toJson resource :=
  Json.object_reads 3 (by simp) (fun _ => rfl) fun record shown => by
    rw [shown.required rfl (Json.string_reads resource.id),
      shown.required rfl (Json.list_reads Column.toJson_reads resource.columns),
      shown.required rfl (Json.list_reads Relationship.toJson_reads resource.relationships)]
    rfl

theorem RuleKey.toJson_reads (key : RuleKey) : Json.Reads ofJson? key.toJson key :=
  Json.object_reads 3 (by simp) (fun _ => rfl) fun record shown => by
    rw [shown.required rfl (Json.string_reads key.resource),
      shown.required rfl (Json.word_reads key.action),
      shown.required rfl (Json.string_reads key.role)]
    rfl

theorem CompilerSettings.toJson_reads (settings : CompilerSettings) :
    Json.Reads ofJson? settings.toJson settings :=
  Json.object_reads 1 (by simp) (fun _ => rfl) fun record shown => by
    rw [shown.defaulted rfl (Json.word_reads settings.selectSource)]
    rfl

theorem Install.Settings.toJson_reads (settings : Install.Settings) :
    Json.Reads ofJson? settings.toJson settings :=
  Json.object_reads 4 (by simp) (fun _ => rfl) fun record shown => by
    have schema : Json.Reads (Json.Record.nullable Json.string?)
        (Json.ofOption .string settings.schema) settings.schema := by
      cases settings.schema with
      | none => exact Json.null_nullable
      | some name => exact Json.value_nullable (Json.string_reads name) rfl
    rw [shown.required rfl (Json.string_reads settings.identityFunction),
      shown.optional rfl schema,
      shown.defaulted rfl (Json.word_reads settings.naming),
      shown.defaulted rfl (Json.bool_reads settings.force)]
    rfl

theorem Predicate.toJson_object (p : Predicate) :
    ∃ kind body, p.toJson = .object [(kind, body)] := by
  cases p <;> exact ⟨_, _, rfl⟩

namespace Grant

theorem ofJson?_flag {json : Json} {value : Bool} :
    ofJson? json = some (.flag value) ↔ json = .bool value := by
  cases json <;> simp [ofJson?]

theorem ofJson?_condition {json : Json} {p : Predicate} :
    ofJson? json = some (.condition p) ↔ Predicate.ofJson? json = some p := by
  cases json <;> simp [ofJson?, Predicate.ofJson?]

theorem toJson_reads (grant : Grant) : Json.Reads ofJson? grant.toJson grant := by
  refine Json.reads_of fun json same => ?_
  cases grant with
  | flag value => exact ofJson?_flag.mpr (Json.rearranged_bool same)
  | condition p => exact ofJson?_condition.mpr (p.toJson_reads.rearranged json same)

theorem toJson_filled (grant : Grant) : grant.toJson.isNull = false := by
  cases grant with
  | flag value => rfl
  | condition p =>
      obtain ⟨kind, body, stored⟩ := p.toJson_object
      rw [toJson, stored]
      rfl

theorem toJson_nullable (grant : Grant) :
    Json.Reads (Json.Record.nullable ofJson?) grant.toJson (some grant) :=
  Json.value_nullable grant.toJson_reads grant.toJson_filled

end Grant

namespace Intent

theorem toJson_members (intent : Intent) : ∃ members, intent.toJson = .object members ∧
    (members.map Prod.fst).Nodup ∧
    Json.member? members "role" = some (.string intent.role) ∧
    Json.member? members "read" = intent.read.map Grant.toJson ∧
    Json.member? members "modify" = intent.modify.map Grant.toJson := by
  obtain ⟨role, read, modify⟩ := intent
  refine ⟨_, rfl, ?_, rfl, ?_, ?_⟩ <;> cases read <;> cases modify <;> first | rfl | simp [member]

theorem grant_read {record : Json.Record} {members : List (String × Json)} {position : Nat}
    {name : String} {grant : Option Grant} (shown : record.Shows members)
    (held : Json.member? members name = grant.map Grant.toJson) :
    record.defaulted position name none (Json.Record.nullable Grant.ofJson?) = some grant := by
  cases grant with
  | none => exact shown.fallen_back held
  | some grant => exact shown.defaulted held grant.toJson_nullable

theorem toJson_reads (intent : Intent) : Json.Reads ofJson? intent.toJson intent := by
  obtain ⟨members, stored, distinct, role, read, modify⟩ := intent.toJson_members
  rw [stored]
  refine Json.object_reads 3 distinct (fun _ => rfl) fun record shown => ?_
  rw [shown.required role (Json.string_reads intent.role), grant_read shown read,
    grant_read shown modify]
  rfl

end Intent

-- Each stored format is read back as it was, in whatever order the members of its objects
-- come. A flag is read from that flag alone and a condition from its predicate alone, so
-- neither becomes the other; a grant of an intent that is absent is not stored at all.
theorem stored_formats_exact :
    (∀ p : Predicate, Json.Reads Predicate.ofJson? p.toJson p) ∧
    (∀ grant : Grant, Json.Reads Grant.ofJson? grant.toJson grant) ∧
    (∀ intent : Intent, Json.Reads Intent.ofJson? intent.toJson intent) ∧
    (∀ column : Column, Json.Reads Column.ofJson? column.toJson column) ∧
    (∀ resource : Resource, Json.Reads Resource.ofJson? resource.toJson resource) ∧
    (∀ key : RuleKey, Json.Reads RuleKey.ofJson? key.toJson key) ∧
    (∀ settings : CompilerSettings,
      Json.Reads CompilerSettings.ofJson? settings.toJson settings) ∧
    (∀ settings : Install.Settings,
      Json.Reads Install.Settings.ofJson? settings.toJson settings) ∧
    (∀ json flag, Grant.ofJson? json = some (.flag flag) ↔ json = .bool flag) ∧
    (∀ json p, Grant.ofJson? json = some (.condition p) ↔ Predicate.ofJson? json = some p) ∧
    (∀ flag p json, Json.Rearranged (Grant.flag flag).toJson json →
      ¬ Json.Rearranged (Grant.condition p).toJson json) ∧
    ∀ intent : Intent, ∃ members, intent.toJson = .object members ∧
      (Json.member? members "read" = none ↔ intent.read = none) ∧
      (Json.member? members "modify" = none ↔ intent.modify = none) := by
  refine ⟨Predicate.toJson_reads, Grant.toJson_reads, Intent.toJson_reads, Column.toJson_reads,
    Resource.toJson_reads, RuleKey.toJson_reads, CompilerSettings.toJson_reads,
    Install.Settings.toJson_reads, fun _ _ => Grant.ofJson?_flag,
    fun _ _ => Grant.ofJson?_condition, ?_, ?_⟩
  · intro flag p json flagged conditioned
    have as_flag := (Grant.flag flag).toJson_reads.rearranged json flagged
    have as_condition := (Grant.condition p).toJson_reads.rearranged json conditioned
    simp [as_flag] at as_condition
  · intro intent
    obtain ⟨members, stored, _, _, read, modify⟩ := intent.toJson_members
    refine ⟨members, stored, ?_, ?_⟩
    · rw [read, Option.map_eq_none_iff]
    · rw [modify, Option.map_eq_none_iff]

example : Intent.ofJson? (.object [("modify", .object [("literal", .bool true)]),
    ("read", .bool true), ("role", .string "viewer")]) =
    some ⟨"viewer", some (.flag true), some (.condition (.literal true))⟩ := rfl

end RowSecurity

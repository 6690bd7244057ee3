import RowSecurity.Predicate.Basic
import RowSecurity.Proofs.Listed
import RowSecurity.Proofs.Policy.Soundness
import RowSecurity.Proofs.Predicate.WellFormed
import RowSecurity.Proofs.Role.History
import RowSecurity.Proofs.Rule.Fingerprint

-- Names are not quoted in the texts of predicates, and yet a text of valid names is that of one
-- predicate only, also where more text follows.
namespace RowSecurity

theorem Text.named_absent {text : String} (named : Named text) {c : Char}
    (foreign : isNameChar c = false) : c ∉ text.toList := by
  obtain ⟨first, rest, chars, start, others⟩ := (isName_iff text).mp ((isName_named text).mpr named)
  intro member
  rw [chars] at member
  rcases List.mem_cons.mp member with same | inside
  · have letter : isNameChar first = true := by
      simp only [isNameStart, isNameChar, Char.isAlphanum, Bool.or_eq_true] at start ⊢
      exact .inl (start.imp_left .inl)
    simp [same, letter] at foreign
  · simp [others c inside] at foreign

theorem Text.named_unique {one two : String} (first : Named one) (second : Named two) {mark : Char}
    (foreign : isNameChar mark = false) {rest tail : List Char}
    (same : one.toList ++ mark :: rest = two.toList ++ mark :: tail) : one = two ∧ rest = tail := by
  obtain ⟨equal, ends⟩ := cut_unique (named_absent first foreign) (named_absent second foreign) same
  exact ⟨String.toList_injective equal, ends⟩

def Leaf.Named : Leaf → Prop
  | .owned o => Text.Named o.resource ∧ Text.Named o.column
  | .joined m => Text.Named m.resource ∧ Text.Named m.rowKey ∧ Text.Named m.linkResource ∧
      Text.Named m.linkKey ∧ Text.Named m.identityKey

theorem Graph.Sound.column_named {graph : Graph} (sound : graph.Sound) {resource : Resource}
    (there : resource ∈ graph.resources) {name : String}
    (held : name ∈ resource.columns.map Column.name) : Text.Named name := by
  obtain ⟨column, member, rfl⟩ := List.mem_map.mp held
  exact (sound.resources resource there).columns column member

theorem Leaf.resolves_named {graph : Graph} (sound : graph.Sound) {leaf : Leaf}
    (resolves : leaf.Resolves graph) : leaf.Named := by
  cases leaf with
  | owned o =>
      obtain ⟨resource, there, named, column⟩ := resolves
      exact ⟨named ▸ (sound.resources resource there).name, sound.column_named there column⟩
  | joined m =>
      obtain ⟨link, resource, target, links⟩ := resolves
      exact ⟨links.named ▸ (sound.resources resource links.declared).name,
        sound.column_named links.declared links.rowKey,
        links.linkNamed ▸ (sound.resources link links.linkDeclared).name,
        sound.column_named links.linkDeclared links.linkKey,
        sound.column_named links.linkDeclared links.identity⟩

namespace Predicate

def Named (p : Predicate) : Prop := ∀ leaf ∈ p.leaves, leaf.Named

theorem valid_named {graph : Graph} (path : graph.Reached) {p : Predicate}
    (valid : p.validate graph = .ok ()) : p.Named := by
  have sound := Graph.reaches_sound Graph.empty_sound path
  intro leaf member
  have checked := (valid_grounded p valid).leaves leaf member
  exact Leaf.resolves_named sound ((Leaf.validate_resolves sound leaf).mp checked)

theorem operand_named {operands : List Predicate}
    (named : ∀ leaf ∈ operandLeaves operands, leaf.Named) : ∀ p ∈ operands, p.Named :=
  fun _ operand leaf member => named leaf (leaves_operand operand member)

def chars (p : Predicate) : List Char := p.text.toList

@[simp]
theorem literal_front (value : Bool) (rest : List Char) : (literal value).chars ++ rest =
    (if value then "true" else "false").toList ++ rest := rfl

@[simp]
theorem ownsRow_front (o : Ownership) (rest : List Char) : (ownsRow o).chars ++ rest =
    "owns_row(".toList ++ (o.resource.toList ++ '.' :: (o.column.toList ++ ')' :: rest)) := by
  simp [chars, text, Ownership.text, toString]

@[simp]
theorem memberOfJoin_front (m : Membership) (rest : List Char) :
    (memberOfJoin m).chars ++ rest =
      "member_of(".toList ++ (m.linkResource.toList ++ '.' :: (m.identityKey.toList ++ ' ' ::
        ("where ".toList ++ (m.linkResource.toList ++ '.' :: (m.linkKey.toList ++ ' ' ::
          ("= ".toList ++ (m.resource.toList ++ '.' :: (m.rowKey.toList ++ ')' :: rest)))))))) := by
  simp [chars, text, Membership.text, toString]

@[simp]
theorem all_front (operands : List Predicate) (rest : List Char) : (all operands).chars ++ rest =
    "all(".toList ++ ([',', ' '].intercalate (operands.map chars) ++ ')' :: rest) := by
  have parts : (operands.map text).map String.toList = operands.map chars := List.map_map
  simp [← parts, chars, text, operandTexts_map]

@[simp]
theorem any_front (operands : List Predicate) (rest : List Char) : (any operands).chars ++ rest =
    "any(".toList ++ ([',', ' '].intercalate (operands.map chars) ++ ')' :: rest) := by
  have parts : (operands.map text).map String.toList = operands.map chars := List.map_map
  simp [← parts, chars, text, operandTexts_map]

@[simp]
theorem not_front (operand : Predicate) (rest : List Char) : (not operand).chars ++ rest =
    "not(".toList ++ (operand.chars ++ ')' :: rest) := by
  simp [chars, text]

theorem text_opens (p : Predicate) (more after : List Char) : p.chars ++ more ≠ ')' :: after := by
  cases p with
  | literal value => cases value <;> simp
  | _ => simp

theorem ownsRow_alone (o : Ownership) (named : (ownsRow o).Named) :
    Alone chars Named (ownsRow o) := by
  intro q known rest tail same
  cases q with
  | ownsRow other =>
      obtain ⟨resource, column⟩ := named (.owned o) (List.mem_singleton.mpr rfl)
      obtain ⟨otherResource, otherColumn⟩ := known (.owned other) (List.mem_singleton.mpr rfl)
      rw [ownsRow_front, ownsRow_front] at same
      obtain ⟨resources, behind⟩ :=
        Text.named_unique resource otherResource rfl (List.append_cancel_left same)
      obtain ⟨columns, ends⟩ := Text.named_unique column otherColumn rfl behind
      cases o
      cases resources
      cases columns
      exact ⟨rfl, ends⟩
  | literal value => cases value <;> simp at same
  | _ => simp at same

theorem memberOfJoin_alone (m : Membership) (named : (memberOfJoin m).Named) :
    Alone chars Named (memberOfJoin m) := by
  intro q known rest tail same
  cases q with
  | memberOfJoin other =>
      obtain ⟨resource, rowKey, link, linkKey, identity⟩ :=
        named (.joined m) (List.mem_singleton.mpr rfl)
      obtain ⟨resource', rowKey', link', linkKey', identity'⟩ :=
        known (.joined other) (List.mem_singleton.mpr rfl)
      rw [memberOfJoin_front, memberOfJoin_front] at same
      obtain ⟨links, behind⟩ := Text.named_unique link link' rfl (List.append_cancel_left same)
      obtain ⟨identities, behind⟩ := Text.named_unique identity identity' rfl behind
      obtain ⟨_, behind⟩ := Text.named_unique link link' rfl (List.append_cancel_left behind)
      obtain ⟨linkKeys, behind⟩ := Text.named_unique linkKey linkKey' rfl behind
      obtain ⟨resources, behind⟩ :=
        Text.named_unique resource resource' rfl (List.append_cancel_left behind)
      obtain ⟨rowKeys, ends⟩ := Text.named_unique rowKey rowKey' rfl behind
      cases m
      cases links
      cases identities
      cases linkKeys
      cases resources
      cases rowKeys
      exact ⟨rfl, ends⟩
  | literal value => cases value <;> simp at same
  | _ => simp at same

theorem operands_unique {operands others : List Predicate} {rest tail : List Char}
    (alone : ∀ p ∈ operands, Alone chars Named p) (named : ∀ p ∈ operands, p.Named)
    (known : ∀ q ∈ others, q.Named)
    (same : [',', ' '].intercalate (operands.map chars) ++ ')' :: rest =
      [',', ' '].intercalate (others.map chars) ++ ')' :: tail) :
    operands = others ∧ rest = tail :=
  listed_unique (by simp) alone known named (fun p _ => p.text_opens) same

theorem text_alone (p : Predicate) (named : p.Named) : Alone chars Named p := by
  induction p with
  | literal value =>
      intro q _ rest tail same
      cases q with
      | literal other => cases value <;> cases other <;> simp_all
      | _ => cases value <;> simp at same
  | ownsRow o => exact ownsRow_alone o named
  | memberOfJoin m => exact memberOfJoin_alone m named
  | all operands ih =>
      intro q known rest tail same
      cases q with
      | all others =>
          rw [all_front, all_front] at same
          have each := operand_named named
          obtain ⟨equal, ends⟩ := operands_unique (fun p member => ih p member (each p member))
            each (operand_named known) (List.append_cancel_left same)
          exact ⟨by rw [equal], ends⟩
      | literal value => cases value <;> simp at same
      | _ => simp at same
  | any operands ih =>
      intro q known rest tail same
      cases q with
      | any others =>
          rw [any_front, any_front] at same
          have each := operand_named named
          obtain ⟨equal, ends⟩ := operands_unique (fun p member => ih p member (each p member))
            each (operand_named known) (List.append_cancel_left same)
          exact ⟨by rw [equal], ends⟩
      | literal value => cases value <;> simp at same
      | _ => simp at same
  | not operand ih =>
      intro q known rest tail same
      cases q with
      | not other =>
          rw [not_front, not_front] at same
          obtain ⟨equal, behind⟩ := ih named other known _ _ (List.append_cancel_left same)
          exact ⟨by rw [equal], (List.cons.inj behind).2⟩
      | literal value => cases value <;> simp at same
      | _ => simp at same

theorem text_unique {p q : Predicate} (named : p.Named) (known : q.Named)
    (same : p.text = q.text) : p = q := by
  have texts : p.chars ++ [] = q.chars ++ [] := by rw [chars, chars, same]
  exact (text_alone p named q known _ _ texts).1

end Predicate

theorem Action.label_named (action : Action) : Text.Named action.label := by
  apply (Text.isName_named _).mp
  cases action <;> rfl

theorem Clause.label_named (clause : Clause) : Text.Named clause.label := by
  apply (Text.isName_named _).mp
  cases clause <;> rfl

structure Rule.Named (rule : Rule) : Prop where
  resource : Text.Named rule.resource
  role : Text.Named rule.role
  predicate : rule.predicate.Named

theorem compiled_names (compiled : Compiled rule) : rule.Named := by
  obtain ⟨graph, roles, graphReached, rolesReached, sound⟩ := compiled_sound compiled
  obtain ⟨role, resolved⟩ := sound.registered
  have registry := Registry.reaches_sound Registry.default_sound rolesReached
  have found := Registry.resolve_ok.mp resolved
  refine ⟨compiled_named compiled, ?_, Predicate.valid_named graphReached sound.valid⟩
  rw [← registry.keyed _ role found]
  exact (registry.named _ role found).1

theorem RuleKey.text_chars (key : RuleKey) : key.text.toList =
    key.resource.toList ++ ':' :: (key.action.label.toList ++ ':' :: key.role.toList) := by
  simp [text, toString]

theorem RuleKey.text_unique {key other : RuleKey} (named : Text.Named key.resource)
    (otherNamed : Text.Named other.resource) (same : key.text = other.text) : key = other := by
  have texts := congrArg String.toList same
  rw [text_chars, text_chars] at texts
  obtain ⟨resources, behind⟩ := Text.named_unique named otherNamed rfl texts
  obtain ⟨actions, roles⟩ :=
    Text.named_unique key.action.label_named other.action.label_named rfl behind
  cases key
  cases resources
  cases Action.label_injective actions
  cases String.toList_injective roles
  rfl

namespace Rule

theorem text_chars (rule : Rule) : rule.text.toList =
    rule.resource.toList ++ ' ' :: (rule.action.label.toList ++ ' ' :: ("to ".toList ++
      (rule.role.toList ++ ' ' :: (rule.clause.label.toList ++ ' ' ::
        ("(".toList ++ (rule.predicate.chars ++ [')'])))))) := by
  simp [text, toString, Predicate.chars]

theorem text_unique {rule other : Rule} (named : rule.Named) (otherNamed : other.Named)
    (same : rule.text = other.text) : rule = other := by
  have texts := congrArg String.toList same
  rw [text_chars, text_chars] at texts
  obtain ⟨resources, behind⟩ := Text.named_unique named.resource otherNamed.resource rfl texts
  obtain ⟨actions, behind⟩ :=
    Text.named_unique rule.action.label_named other.action.label_named rfl behind
  obtain ⟨roles, behind⟩ :=
    Text.named_unique named.role otherNamed.role rfl (List.append_cancel_left behind)
  obtain ⟨clauses, behind⟩ :=
    Text.named_unique rule.clause.label_named other.clause.label_named rfl behind
  obtain ⟨predicates, _⟩ := Predicate.text_alone _ named.predicate _ otherNamed.predicate _ _
    (List.append_cancel_left behind)
  cases rule
  cases resources
  cases Action.label_injective actions
  cases roles
  cases Clause.label_injective clauses
  cases predicates
  rfl

-- Rules, keys and predicates are told by their texts, also when they were not made with the
-- same graph and registry.
theorem texts_identify :
    (∀ rule other : Rule, Compiled rule → Compiled other → rule.text = other.text →
      rule = other) ∧
    (∀ (graph otherGraph : Graph) (p q : Predicate), graph.Reached → otherGraph.Reached →
      p.validate graph = .ok () → q.validate otherGraph = .ok () → p.text = q.text → p = q) ∧
    ∀ rule other : Rule, Compiled rule → Compiled other → rule.key.text = other.key.text →
      rule.key = other.key := by
  refine ⟨?_, ?_, ?_⟩
  · intro rule other compiled known same
    exact text_unique (compiled_names compiled) (compiled_names known) same
  · intro graph otherGraph p q reached otherReached valid otherValid same
    exact Predicate.text_unique (Predicate.valid_named reached valid)
      (Predicate.valid_named otherReached otherValid) same
  · intro rule other compiled known same
    exact RuleKey.text_unique (compiled_named compiled) (compiled_named known) same

def noteGraph : Graph :=
  ((Graph.empty.after (.resource "notes"
      [Column.build "id" .serial [.primaryKey], Column.plain "owner" .serial])).after
    (.resource "shares" [Column.plain "note" .serial, Column.plain "user" .serial])).after
    (.relationship ⟨"shares", "note", "notes"⟩)

def noteCondition : Predicate :=
  .any [.all [.ownsRow ⟨"notes", "owner"⟩, .not (.literal false)],
    .memberOfJoin ⟨"notes", "id", "shares", "note", "user"⟩]

theorem note_rules_identified :
    ∃ rule other,
      Compiler.compileIntent ⟨noteGraph, .default, ⟨.read⟩⟩ "notes"
        ⟨"authenticated", some (.condition noteCondition), none⟩ = .ok [rule] ∧
      Compiler.compileGrant ⟨noteGraph.after (.resource "tags" []), .default, .default⟩ "notes"
        .select "authenticated" (.condition noteCondition) = .ok other ∧
      rule.text = "notes select to authenticated using (any(all(owns_row(notes.owner), " ++
        "not(false)), member_of(shares.user where shares.note = notes.id)))" ∧
      rule.text = other.text ∧ rule = other ∧ rule.key = other.key ∧
      rule.predicate = other.predicate := by
  have path : noteGraph.Reached := .step _ (.step _ (.step _ .refl))
  have grown : (noteGraph.after (.resource "tags" [])).Reached := .step _ path
  have made : Compiler.compileIntent ⟨noteGraph, .default, ⟨.read⟩⟩ "notes"
      ⟨"authenticated", some (.condition noteCondition), none⟩ =
      .ok [.of "notes" .select "authenticated" noteCondition] := rfl
  have granted : Compiler.compileGrant ⟨noteGraph.after (.resource "tags" []), .default, .default⟩
      "notes" .select "authenticated" (.condition noteCondition) =
      .ok (.of "notes" .select "authenticated" noteCondition) := rfl
  have registered : Registry.default.Reached := .refl
  have compiled := Compiled.intent ⟨noteGraph, .default, ⟨.read⟩⟩ path registered made
    (List.mem_singleton.mpr rfl)
  have known := Compiled.grant ⟨_, .default, .default⟩ grown registered granted
  obtain ⟨rules, predicates, keys⟩ := texts_identify
  exact ⟨_, _, made, granted, by decide +kernel, rfl, rules _ _ compiled known rfl,
    keys _ _ compiled known rfl, predicates _ _ _ _ path grown rfl rfl rfl⟩

end Rule
end RowSecurity

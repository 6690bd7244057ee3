import Mathlib.Data.List.Find
import RowSecurity.Proofs.Policy.Build
import RowSecurity.Proofs.Rule.History

-- Committing what an intent compiles to. The intent and the resource alone settle which keys that
-- takes.
namespace RowSecurity

def Grant.given : Option Grant → Bool
  | none | some (.flag false) => false
  | some _ => true

def Intent.actions (intent : Intent) : List Action :=
  (if Grant.given intent.read then [.select] else []) ++
    if Grant.given intent.modify then Action.modifying else []

def Intent.keys (intent : Intent) (resource : String) : List RuleKey :=
  intent.actions.map fun action => ⟨resource, action, intent.role⟩

theorem actions_filter (intent : Intent) :
    intent.actions = Action.all.filter (· ∈ intent.actions) := by
  unfold Intent.actions
  cases Grant.given intent.read <;> cases Grant.given intent.modify <;> decide

theorem keys_distinct (intent : Intent) (resource : String) : (intent.keys resource).Nodup := by
  have actions : intent.actions.Nodup := by
    rw [actions_filter]
    exact List.Nodup.filter _ (by decide)
  apply actions.map
  intro first second same
  injection same

theorem given_exact {grant : Option Grant} :
    Grant.given grant = false ↔ grant = none ∨ grant = some (.flag false) := by
  unfold Grant.given
  split <;> simp_all

theorem selects_given (selects : Selects source intent select) :
    Grant.given intent.read = select.isSome := by
  cases selects with
  | nothing absent => exact given_exact.mpr absent
  | modify some granted =>
      cases given : Grant.given intent.read with
      | true => rfl
      | false => simp_all [given_exact]
  | everything outright => simp [outright, Grant.given]
  | read condition => simp [condition, Grant.given]
  | flag condition => simp [condition, Grant.given]

theorem modifies_given (modifies : Modifies intent changed) :
    Grant.given intent.modify = changed.isSome := by
  cases modifies with
  | nothing absent => exact given_exact.mpr absent
  | everything outright => simp [outright, Grant.given]
  | condition condition => simp [condition, Grant.given]

namespace Compiler

variable {compiler : Compiler} {resource : String} {intent : Intent}

theorem compileIntent_actions (keyed : compiler.roles.Keyed)
    (compiled : compiler.compileIntent resource intent = .ok rules) :
    rules.map Rule.action = intent.actions ∧ rules.map Rule.key = intent.keys resource := by
  obtain ⟨_, select, changed, selects, modifies, rfl⟩ := (compileIntent_ok keyed).mp compiled
  rw [Intent.keys, Intent.actions, selects_given selects, modifies_given modifies]
  cases select <;> cases changed <;>
    simp [selectRules, modifyRules, Action.modifying, Rule.of, Rule.key]

theorem compileIntent_distinct (keyed : compiler.roles.Keyed)
    (compiled : compiler.compileIntent resource intent = .ok rules) :
    (rules.map Rule.key).Nodup := by
  rw [(compileIntent_actions keyed compiled).2]
  exact keys_distinct intent resource

end Compiler

namespace RuleSet

theorem takenKey?_distinct {keys : Std.TreeSet RuleKey RuleKey.order} {known : List RuleKey}
    (index : ∀ key, keys.contains key = true ↔ key ∈ known) {batch : List Rule}
    (distinct : (batch.map Rule.key).Nodup) :
    takenKey? keys batch = (batch.map Rule.key).find? (· ∈ known) := by
  induction batch generalizing keys known with
  | nil => rfl
  | cons rule rest ih =>
      obtain ⟨apart, others⟩ := List.nodup_cons.mp distinct
      rw [takenKey?, List.map_cons, List.find?_cons]
      by_cases held : rule.key ∈ known
      · simp [held, (index rule.key).mpr held]
      · have free : ¬ keys.contains rule.key = true := fun old => held ((index _).mp old)
        have later : (rest.map Rule.key).find? (· ∈ rule.key :: known) =
            (rest.map Rule.key).find? (· ∈ known) := by
          apply List.find?_congr
          intro key member
          have other : key ≠ rule.key := fun same => apart (same ▸ member)
          simp [other]
        rw [if_neg free, ih (index_insert index rule.key) others, later]
        simp [held]

def firstTaken? (set : RuleSet) (resource role : String) (actions : List Action) : Option Action :=
  [.select, .insert, .update, .delete].find? fun action =>
    action ∈ actions ∧ (⟨resource, action, role⟩ : RuleKey) ∈ set.rules.map Rule.key

theorem firstTaken?_none {set : RuleSet} {actions : List Action} :
    set.firstTaken? resource role actions = none ↔
      ∀ rule ∈ set.rules, rule.resource = resource → rule.role = role → rule.action ∉ actions := by
  rw [firstTaken?, List.find?_eq_none]
  constructor
  · rintro free rule member rfl rfl asked
    have place : rule.action ∈ [Action.select, .insert, .update, .delete] := by
      cases rule.action <;> decide
    apply free rule.action place
    exact decide_eq_true ⟨asked, List.mem_map_of_mem member⟩
  · intro free action _ taken
    obtain ⟨asked, held⟩ := of_decide_eq_true taken
    obtain ⟨rule, member, same⟩ := List.mem_map.mp held
    injection same with resource action role
    apply free rule member resource role
    rwa [action]

theorem extend_outcome {set other : RuleSet} {batch : List Rule}
    (same : takenKey? set.keys batch = takenKey? other.keys batch) :
    (set.extend batch).2 = (other.extend batch).2 := by
  unfold extend
  rw [same]
  cases takenKey? other.keys batch <;> rfl

theorem extend_unrelated {set : RuleSet} (indexed : set.Indexed) {first batch : List Rule}
    (distinct : (batch.map Rule.key).Nodup)
    (apart : ∀ key ∈ batch.map Rule.key, key ∉ first.map Rule.key) :
    ((set.extend first).1.extend batch).2 = (set.extend batch).2 := by
  have after := extend_indexed indexed first
  apply extend_outcome
  rw [takenKey?_distinct after.keys distinct, takenKey?_distinct indexed.keys distinct]
  apply List.find?_congr
  intro key member
  rcases set.extend_cases first with ⟨_, _, rules, _⟩ | ⟨_, _, refused⟩
  · rw [rules, List.map_append]
    simp [apart key member]
  · rw [refused, notify]

section Compiled

variable {set last : RuleSet} {rules again : List Rule} {resource : String} {intent : Intent}
  {compiler later : Compiler} (indexed : set.Indexed) (keyed : compiler.roles.Keyed)
  (compiled : compiler.compileIntent resource intent = .ok rules)
include indexed keyed compiled

theorem takenKey?_compiled : takenKey? set.keys rules =
    (set.firstTaken? resource intent.role (rules.map Rule.action)).map fun action =>
      ⟨resource, action, intent.role⟩ := by
  obtain ⟨actions, keys⟩ := Compiler.compileIntent_actions keyed compiled
  have distinct := Compiler.compileIntent_distinct keyed compiled
  rw [takenKey?_distinct indexed.keys distinct, keys, Intent.keys, List.find?_map, actions,
    firstTaken?]
  congr 1
  nth_rewrite 1 [actions_filter]
  rw [List.find?_filter]
  apply List.find?_congr
  intro action _
  simp

theorem extend_leaves_one (some : rules ≠ []) :
    ∃ key ∈ rules.map Rule.key, key ∈ (set.extend rules).1.rules.map Rule.key := by
  have distinct := Compiler.compileIntent_distinct keyed compiled
  rcases set.extend_cases rules with ⟨_, _, committed, _⟩ | ⟨key, taken, refused⟩
  · obtain ⟨rule, member⟩ := List.exists_mem_of_ne_nil rules some
    refine ⟨rule.key, List.mem_map_of_mem member, ?_⟩
    rw [committed]
    exact List.mem_map_of_mem (List.mem_append_right _ member)
  · rw [takenKey?_distinct indexed.keys distinct] at taken
    have held : key ∈ set.rules.map Rule.key := by simpa using List.find?_some taken
    rw [refused]
    exact ⟨key, List.mem_of_find?_eq_some taken, held⟩

theorem recommit_refused (some : rules ≠ []) (laterKeyed : later.roles.Keyed)
    (recompiled : later.compileIntent resource intent = .ok again)
    (path : Runs (set.extend rules).1 attempts last) :
    ∃ key, (last.extend again).2 = .error (.conflict key) := by
  obtain ⟨key, offered, held⟩ := extend_leaves_one indexed keyed compiled some
  have keys := (Compiler.compileIntent_actions keyed compiled).2
  have sameKeys := (Compiler.compileIntent_actions laterKeyed recompiled).2
  rw [keys, ← sameKeys] at offered
  have kept : key ∈ last.rules.map Rule.key := by
    rw [runs_rules path, List.map_append]
    exact List.mem_append_left _ held
  have lastIndexed := runs_indexed (extend_indexed indexed rules) path
  rcases last.extend_cases again with ⟨_, accepted, _⟩ | ⟨taken, _, refused⟩
  · obtain ⟨rule, member, rfl⟩ := List.mem_map.mp offered
    exact absurd kept (((extend_ok lastIndexed again).mp accepted).new rule member)
  · exact ⟨taken, by rw [refused]⟩

theorem extend_other (laterKeyed : later.roles.Keyed) {otherIntent : Intent}
    (other : later.compileIntent otherResource otherIntent = .ok again)
    (apart : otherResource ≠ resource ∨ otherIntent.role ≠ intent.role) :
    ((set.extend rules).1.extend again).2 = (set.extend again).2 := by
  have keys := (Compiler.compileIntent_actions keyed compiled).2
  have otherKeys := (Compiler.compileIntent_actions laterKeyed other).2
  apply extend_unrelated indexed (Compiler.compileIntent_distinct laterKeyed other)
  rw [keys, otherKeys]
  intro key own shared
  obtain ⟨action, _, rfl⟩ := List.mem_map.mp own
  obtain ⟨_, _, same⟩ := List.mem_map.mp shared
  injection same with resources _ roles
  rcases apart with resource | role
  · exact resource resources.symm
  · exact role roles.symm

end Compiled

variable {observer : Option Observer} {attempts : List Attempt} {set : RuleSet} {graph : Graph}
  {roles : Registry} {settings : CompilerSettings} {resource : String} {intent : Intent}
  {rules : List Rule}

-- Committing what an intent compiles to fails exactly where the set has a rule for one of its
-- actions already, and always once it was tried before. What is compiled for other resources or
-- other roles does not come into it.
theorem commit_conflicts_exact (path : Runs (.empty observer) attempts set)
    (registered : roles.Reached)
    (compiled : (Compiler.mk graph roles settings).compileIntent resource intent = .ok rules) :
    ((set.extend rules).2 = .ok () ↔ ∀ rule ∈ set.rules, rule.resource = resource →
        rule.role = intent.role → rule.action ∉ rules.map Rule.action) ∧
      (∀ error, (set.extend rules).2 = .error error ↔ ∃ action,
        set.firstTaken? resource intent.role (rules.map Rule.action) = some action ∧
          error = .conflict ⟨resource, action, intent.role⟩) ∧
      (∀ error, (set.extend rules).2 = .error error → set.Undisturbed (set.extend rules).1) ∧
      (rules ≠ [] → ∀ later laterRoles, graph.Reaches later → roles.Reaches laterRoles →
        (Compiler.mk later laterRoles settings).compileIntent resource intent = .ok rules ∧
          ∀ laterSettings again,
            (Compiler.mk later laterRoles laterSettings).compileIntent resource intent =
              .ok again →
            ∀ others last, Runs (set.extend rules).1 others last →
              ∃ key, (last.extend again).2 = .error (.conflict key)) ∧
      ∀ (other : Compiler) otherResource otherIntent others, other.roles.Reached →
        other.compileIntent otherResource otherIntent = .ok others →
        otherResource ≠ resource ∨ otherIntent.role ≠ intent.role →
        ((set.extend rules).1.extend others).2 = (set.extend others).2 := by
  have indexed := runs_indexed (empty_indexed observer) path
  have keyed := Registry.reached_keyed registered
  have taken := takenKey?_compiled indexed keyed compiled
  refine ⟨?_, ?_, ?_, ?_, ?_⟩
  · rw [extend_free, taken, Option.map_eq_none_iff, firstTaken?_none]
  · intro error
    rw [extend_taken, taken]
    simp only [Option.map_eq_some_iff, exists_exists_and_eq_and]
  · intro error refused
    have call : (set.perform (.extend rules)).2 = .error error := refused
    exact refused_undisturbed call
  · intro some later laterRoles declared enrolled
    have grown := Graph.reaches_extends declared
    refine ⟨compileIntent_extends grown (Registry.reaches_extends enrolled) compiled, ?_⟩
    intro laterSettings again recompiled others last runs
    have laterKeyed : laterRoles.Keyed := Registry.reaches_keyed keyed enrolled
    exact recommit_refused indexed keyed compiled some laterKeyed recompiled runs
  · intro other otherResource otherIntent others otherRegistered otherCompiled apart
    have otherKeyed := Registry.reached_keyed otherRegistered
    exact extend_other indexed keyed compiled otherKeyed otherCompiled apart

def ownIntent : Intent := ⟨"authenticated", some (.flag true), some (.condition ownPosts)⟩

def ownRules : List Rule :=
  Action.all.map fun action => .of "posts" action "authenticated" ownPosts

theorem own_posts_recommitted :
    (Compiler.mk postsGraph .default .default).compileIntent "posts" ownIntent = .ok ownRules ∧
      (((empty none).extend [.of "posts" .update "authenticated" (.literal true)]).1.extend
        ownRules).2 = .error (.conflict ⟨"posts", .update, "authenticated"⟩) ∧
      ∃ later laterRoles key, Graph.Reaches postsGraph later ∧
        Registry.Reaches .default laterRoles ∧ later.relationships.length = 1 ∧
        (Compiler.mk later laterRoles .default).compileIntent "posts" ownIntent = .ok ownRules ∧
        (((empty none).extend ownRules).1.extend ownRules).2 = .error (.conflict key) := by
  have compiled : (Compiler.mk postsGraph .default .default).compileIntent "posts" ownIntent =
      .ok ownRules := rfl
  have updated : Runs (.empty none) _ _ :=
    .step (.extend [.of "posts" .update "authenticated" (.literal true)]) .nil
  obtain ⟨_, conflict, _⟩ := commit_conflicts_exact updated .refl compiled
  obtain ⟨_, _, _, again, _⟩ := commit_conflicts_exact (.nil : Runs (.empty none) [] _) .refl compiled
  have declared : Graph.Reaches postsGraph _ :=
    .step (.relationship ⟨"comments", "post", "posts"⟩)
      (.step (.resource "comments" [Column.plain "post" .serial]) .refl)
  have enrolled : Registry.Reaches .default _ := .step (.role "editor" .custom) .refl
  obtain ⟨recompiled, refused⟩ := again (by decide) _ _ declared enrolled
  obtain ⟨key, conflicting⟩ := refused _ _ recompiled _ _ .nil
  exact ⟨compiled, (conflict _).mpr ⟨.update, rfl, rfl⟩, _, _, key, declared, enrolled, rfl,
    recompiled, conflicting⟩

end RuleSet
end RowSecurity

import Mathlib.Data.List.Forall2
import Mathlib.Data.List.Induction
import Mathlib.Data.List.Nodup
import RowSecurity.Install.Plan
import RowSecurity.Proofs.Outcome
import RowSecurity.Rule.Set

-- When a list of rules can be planned, and what the plan holds.
namespace RowSecurity.Install.Settings

variable {settings : Settings} {roles : Registry}

theorem addRule_unknown {sofar : Planning} {rule : Rule} :
    settings.addRule roles sofar rule = .error (.unknownPrincipal resource name) ↔
      roles.role? rule.role = none ∧ resource = rule.resource ∧ name = rule.role := by
  unfold addRule
  split
  · rename_i missing
    simp [missing, eq_comm]
  · rename_i role registered
    dsimp only
    split <;> simp [registered]

theorem plan_error {rules : List Rule} : settings.plan rules roles = .error error ↔
    rules.foldlM (settings.addRule roles) ⟨[], .empty⟩ = .error error := by
  unfold plan
  split
  · rename_i done; simp [done]
  · rename_i failed; simp [failed]

theorem plan_unknown {rules : List Rule}
    (refused : settings.plan rules roles = .error (.unknownPrincipal resource name)) :
    ∃ rule ∈ rules, roles.role? rule.role = none := by
  obtain ⟨done, rule, rest, middle, rfl, _, failed⟩ := foldlM_error.mp (plan_error.mp refused)
  exact ⟨rule, by simp, (addRule_unknown.mp failed).1⟩

end RowSecurity.Install.Settings

namespace RowSecurity.Install

theorem eraseDups_concat (names : List String) (name : String) :
    (names ++ [name]).eraseDups =
      if name ∈ names then names.eraseDups else names.eraseDups ++ [name] := by
  rw [List.eraseDups_append]
  by_cases old : name ∈ names
  · simp [List.removeAll, old]
  · simp [List.removeAll, old, List.eraseDups_cons]

theorem eraseDups_ordered (names : List String) :
    names.eraseDups.Pairwise fun a b => names.idxOf a < names.idxOf b := by
  induction names using List.reverseRecOn with
  | nil => simp
  | append_singleton names name ih =>
      have kept : names.eraseDups.Pairwise fun a b =>
          (names ++ [name]).idxOf a < (names ++ [name]).idxOf b := by
        refine ih.imp_of_mem ?_
        intro a b first second before
        rwa [List.idxOf_append_of_mem (List.mem_eraseDups.mp first),
          List.idxOf_append_of_mem (List.mem_eraseDups.mp second)]
      rw [eraseDups_concat]
      split
      · exact kept
      · rename_i new
        rw [List.pairwise_append]
        refine ⟨kept, List.pairwise_singleton _ _, ?_⟩
        intro a first b last
        have old := List.mem_eraseDups.mp first
        rw [List.mem_singleton.mp last, List.idxOf_append_of_mem old, List.idxOf_append,
          if_neg new]
        have bound := List.idxOf_lt_length_iff.mpr old
        omega

structure Settings.Installs (settings : Settings) (roles : Registry) (rule : Rule)
    (policy : PolicyStatement) : Prop where
  name : policy.name = settings.policyName rule
  resource : policy.resource = rule.resource
  table : policy.table = settings.table rule.resource
  action : policy.action = rule.action
  role : policy.role = rule.role
  principal : ∃ role, roles.role? rule.role = some role ∧ policy.principal = role.principal
  clause : policy.clause = rule.clause
  expression : policy.expression = settings.condition rule.predicate

structure Settings.Plannable (settings : Settings) (roles : Registry) (rules : List Rule) :
    Prop where
  registered : ∀ rule ∈ rules, ∃ role, roles.role? rule.role = some role
  distinct : (rules.map settings.slot).Nodup

-- Why a rule cannot be added to rules that were planned. Of a rule that has both faults the
-- missing role is told.
inductive Settings.Stops (settings : Settings) (roles : Registry) (done : List Rule)
    (rule : Rule) : InstallError → Prop where
  | unknown : roles.role? rule.role = none →
      Stops settings roles done rule (.unknownPrincipal rule.resource rule.role)
  | collision {earlier : Rule} : roles.role? rule.role = some role → earlier ∈ done →
      settings.slot earlier = settings.slot rule →
      Stops settings roles done rule
        (.nameCollision (truncateIdentifier (settings.policyName rule)) rule.resource rule.action
          earlier.role rule.role)

structure Settings.Planned (settings : Settings) (roles : Registry) (rules : List Rule)
    (sofar : Planning) : Prop where
  taken : sofar.taken = rules.map fun rule => (settings.slot rule, rule.role)
  tables : sofar.plan.tables = (rules.map Rule.resource).eraseDups.map settings.tableSetup
  policies : List.Forall₂ (settings.Installs roles) rules sofar.plan.policies

namespace Settings

variable {settings : Settings} {roles : Registry} {done rules : List Rule} {rule : Rule}
  {sofar : Planning}

theorem plannable_concat : settings.Plannable roles (done ++ [rule]) ↔
    settings.Plannable roles done ∧ (∃ role, roles.role? rule.role = some role) ∧
      settings.slot rule ∉ done.map settings.slot := by
  have slots : ((done ++ [rule]).map settings.slot).Nodup ↔
      settings.slot rule ∉ done.map settings.slot ∧ (done.map settings.slot).Nodup := by
    rw [List.map_append, List.map_singleton, ← List.concat_eq_append, List.nodup_concat]
  constructor
  · rintro ⟨registered, distinct⟩
    obtain ⟨free, earlier⟩ := slots.mp distinct
    exact ⟨⟨fun old member => registered old (List.mem_append_left _ member), earlier⟩,
      registered rule (by simp), free⟩
  · rintro ⟨⟨registered, distinct⟩, own, free⟩
    refine ⟨?_, slots.mpr ⟨free, distinct⟩⟩
    intro other member
    rcases List.mem_append.mp member with old | new
    · exact registered other old
    · rw [List.mem_singleton.mp new]
      exact own

theorem lookup_free (free : settings.slot rule ∉ done.map settings.slot) :
    (done.map fun rule => (settings.slot rule, rule.role)).lookup (settings.slot rule) = none := by
  rw [List.lookup_eq_none_iff]
  intro entry member
  obtain ⟨earlier, inside, rfl⟩ := List.mem_map.mp member
  rw [bne_iff_ne]
  intro same
  apply free
  rw [same]
  exact List.mem_map_of_mem inside

theorem lookup_taken (distinct : (done.map settings.slot).Nodup) {earlier : Rule}
    (member : earlier ∈ done) :
    (done.map fun rule => (settings.slot rule, rule.role)).lookup (settings.slot earlier) =
      some earlier.role := by
  induction done with
  | nil => cases member
  | cons first rest ih =>
      rw [List.map_cons, List.nodup_cons] at distinct
      rw [List.map_cons, List.lookup_cons]
      rcases List.mem_cons.mp member with rfl | inside
      · simp
      · have apart : settings.slot earlier ≠ settings.slot first := by
          intro same
          apply distinct.1
          rw [← same]
          exact List.mem_map_of_mem inside
        rw [beq_false_of_ne apart]
        exact ih distinct.2 inside

theorem tables_concat (planned : settings.Planned roles done sofar) (rule : Rule) :
    (if sofar.plan.tables.any (·.resource == rule.resource) then sofar.plan.tables
      else sofar.plan.tables ++ [settings.tableSetup rule.resource]) =
      ((done ++ [rule]).map Rule.resource).eraseDups.map settings.tableSetup := by
  have listed : sofar.plan.tables.any (·.resource == rule.resource) = true ↔
      rule.resource ∈ done.map Rule.resource := by
    rw [planned.tables, List.any_map, List.any_eq_true]
    simp [tableSetup]
  rw [List.map_append, List.map_singleton, eraseDups_concat]
  by_cases old : rule.resource ∈ done.map Rule.resource
  · rw [if_pos (listed.mpr old), if_pos old, planned.tables]
  · rw [if_neg (fun any => old (listed.mp any)), if_neg old, planned.tables, List.map_append]
    rfl

theorem stops_unique (distinct : (done.map settings.slot).Nodup) {first second : InstallError}
    (one : settings.Stops roles done rule first) (two : settings.Stops roles done rule second) :
    first = second := by
  cases one with
  | unknown missing =>
      cases two with
      | unknown _ => rfl
      | collision found _ _ =>
          rw [missing] at found
          cases found
  | @collision role earlier found member same =>
      cases two with
      | unknown missing =>
          rw [missing] at found
          cases found
      | @collision other before _ inside equal =>
          have both : some earlier.role = some before.role := by
            rw [← lookup_taken distinct member, ← lookup_taken distinct inside, same, equal]
          rw [Option.some.inj both]

theorem stops_not_plannable (stops : settings.Stops roles done rule error) :
    ¬ settings.Plannable roles (done ++ [rule]) := by
  intro plannable
  obtain ⟨_, ⟨role, registered⟩, free⟩ := plannable_concat.mp plannable
  cases stops with
  | unknown missing =>
      rw [missing] at registered
      cases registered
  | collision _ member same =>
      apply free
      rw [← same]
      exact List.mem_map_of_mem member

theorem addRule_cases (plannable : settings.Plannable roles done)
    (planned : settings.Planned roles done sofar) (rule : Rule) :
    (∃ error, settings.addRule roles sofar rule = .error error ∧
        settings.Stops roles done rule error) ∨
      ∃ next, settings.addRule roles sofar rule = .ok next ∧
        settings.Plannable roles (done ++ [rule]) ∧
        settings.Planned roles (done ++ [rule]) next := by
  unfold addRule
  cases registered : roles.role? rule.role with
  | none => exact .inl ⟨_, rfl, .unknown registered⟩
  | some role =>
      dsimp only
      rw [planned.taken]
      by_cases used : settings.slot rule ∈ done.map settings.slot
      · obtain ⟨earlier, member, same⟩ := List.mem_map.mp used
        rw [← same, lookup_taken plannable.distinct member, same]
        exact .inl ⟨_, rfl, .collision registered member same⟩
      · rw [lookup_free used]
        refine .inr ⟨_, rfl, plannable_concat.mpr ⟨plannable, ⟨role, registered⟩, used⟩, ?_⟩
        refine ⟨by simp, tables_concat planned rule, List.rel_append planned.policies ?_⟩
        exact .cons ⟨rfl, rfl, rfl, rfl, rfl, ⟨role, registered, rfl⟩, rfl, rfl⟩ .nil

theorem addRule_error (plannable : settings.Plannable roles done)
    (planned : settings.Planned roles done sofar) :
    settings.addRule roles sofar rule = .error error ↔ settings.Stops roles done rule error := by
  rcases addRule_cases plannable planned rule with ⟨found, refused, stops⟩ | ⟨next, added, more, _⟩
  · rw [refused, Except.error.injEq]
    constructor
    · rintro rfl
      exact stops
    · exact stops_unique plannable.distinct stops
  · rw [added]
    constructor
    · intro refused
      cases refused
    · intro stops
      exact absurd more (stops_not_plannable stops)

def start : Planning := ⟨[], .empty⟩

theorem start_planned : settings.Planned roles [] start := ⟨rfl, by simp [start, Plan.empty], .nil⟩

theorem foldlM_planned (added : rules.foldlM (settings.addRule roles) start = .ok sofar) :
    settings.Plannable roles rules ∧ settings.Planned roles rules sofar := by
  induction rules using List.reverseRecOn generalizing sofar with
  | nil =>
      cases added
      exact ⟨⟨nofun, List.nodup_nil⟩, start_planned⟩
  | append_singleton done rule ih =>
      obtain ⟨middle, earlier, last⟩ := foldlM_concat.mp added
      obtain ⟨plannable, planned⟩ := ih earlier
      rcases addRule_cases plannable planned rule with ⟨_, refused, _⟩ | ⟨next, done, more⟩
      · rw [refused] at last
        cases last
      · rw [done] at last
        cases last
        exact more

theorem foldlM_of_plannable (plannable : settings.Plannable roles rules) :
    ∃ done, rules.foldlM (settings.addRule roles) start = .ok done := by
  induction rules using List.reverseRecOn with
  | nil => exact ⟨_, rfl⟩
  | append_singleton done rule ih =>
      obtain ⟨before, _⟩ := plannable_concat.mp plannable
      obtain ⟨middle, reached⟩ := ih before
      obtain ⟨_, planned⟩ := foldlM_planned reached
      rcases addRule_cases before planned rule with ⟨error, _, stops⟩ | ⟨next, added, _⟩
      · exact absurd plannable (stops_not_plannable stops)
      · exact ⟨next, foldlM_concat.mpr ⟨middle, reached, added⟩⟩

theorem plan_ok {made : Plan} : settings.plan rules roles = .ok made ↔
    ∃ done, rules.foldlM (settings.addRule roles) start = .ok done ∧ done.plan = made := by
  unfold plan start
  split
  · rename_i done added
    simp [added]
  · rename_i error refused
    simp [refused]

theorem plan_made : (∃ made, settings.plan rules roles = .ok made) ↔
    settings.Plannable roles rules := by
  constructor
  · intro ⟨made, planned⟩
    obtain ⟨done, added, _⟩ := plan_ok.mp planned
    exact (foldlM_planned added).1
  · intro plannable
    obtain ⟨done, added⟩ := foldlM_of_plannable plannable
    exact ⟨done.plan, plan_ok.mpr ⟨done, added, rfl⟩⟩

theorem plan_refused : settings.plan rules roles = .error error ↔
    ∃ done rule rest, rules = done ++ rule :: rest ∧ settings.Plannable roles done ∧
      settings.Stops roles done rule error := by
  rw [plan_error, foldlM_error]
  constructor
  · rintro ⟨done, rule, rest, middle, split, reached, refused⟩
    obtain ⟨plannable, planned⟩ := foldlM_planned reached
    exact ⟨done, rule, rest, split, plannable, (addRule_error plannable planned).mp refused⟩
  · rintro ⟨done, rule, rest, split, plannable, stops⟩
    obtain ⟨middle, reached⟩ := foldlM_of_plannable plannable
    obtain ⟨_, planned⟩ := foldlM_planned reached
    exact ⟨done, rule, rest, middle, split, reached, (addRule_error plannable planned).mpr stops⟩

end Settings

theorem TableSetup.statements_text (setup : TableSetup) : setup.statements =
    ("ALTER TABLE " ++ setup.table ++ " ENABLE ROW LEVEL SECURITY;") ::
      if setup.force then ["ALTER TABLE " ++ setup.table ++ " FORCE ROW LEVEL SECURITY;"]
      else [] := rfl

theorem PolicyStatement.sql_some (policy : PolicyStatement) : policy.sql ≠ "" := by
  unfold sql
  intro empty
  have closed := (String.append_eq_empty_iff.mp empty).2
  simp at closed

namespace Plan

theorem statement_some {plan : Plan} (member : statement ∈ plan.statements) : statement ≠ "" := by
  rw [statements, List.mem_append] at member
  rcases member with table | created
  · obtain ⟨setup, _, inside⟩ := List.mem_flatMap.mp table
    rw [TableSetup.statements_text, List.mem_cons] at inside
    rcases inside with rfl | forced
    · simp
    · split at forced
      · rw [List.mem_singleton.mp forced]
        simp
      · cases forced
  · obtain ⟨policy, _, rfl⟩ := List.mem_map.mp created
    exact policy.sql_some

theorem joined_lines (first : String) (rest : List String) :
    "\n".intercalate (first :: rest) ++ "\n" =
      String.join ((first :: rest).map fun line => line ++ "\n") := by
  induction rest generalizing first with
  | nil => simp [String.join_cons]
  | cons second rest ih =>
      rw [String.intercalate_cons_cons, String.append_assoc, ih]
      simp only [List.map_cons, String.join_cons]

theorem script_lines (plan : Plan) :
    plan.script = String.join (plan.statements.map fun statement => statement ++ "\n") := by
  unfold script
  cases lines : plan.statements with
  | nil => rfl
  | cons first rest =>
      have some : first ≠ "" := statement_some (lines ▸ List.mem_cons_self)
      have joined : "\n".intercalate (first :: rest) ≠ "" := by
        cases rest with
        | nil => simpa using some
        | cons second rest => simp [String.intercalate_cons_cons]
      rw [if_neg joined, joined_lines]

end Plan

structure Settings.Covers (settings : Settings) (roles : Registry) (rules : List Rule)
    (made : Plan) : Prop where
  policies : List.Forall₂ (settings.Installs roles) rules made.policies
  resources : ∀ set : RuleSet, set.rules = rules → made.tables.map (·.resource) = set.resources
  listed : ∀ resource, resource ∈ made.tables.map (·.resource) ↔
    ∃ rule ∈ rules, rule.resource = resource
  ordered : (made.tables.map (·.resource)).Pairwise fun a b =>
    (rules.map Rule.resource).idxOf a < (rules.map Rule.resource).idxOf b
  setups : ∀ setup ∈ made.tables, setup = settings.tableSetup setup.resource
  shared : ∀ policy ∈ made.policies, policy.resource ∈ made.tables.map (·.resource) ∧
    ∀ setup ∈ made.tables, setup.resource = policy.resource → setup.table = policy.table
  statements : made.statements =
    (made.tables.flatMap fun setup =>
      ("ALTER TABLE " ++ setup.table ++ " ENABLE ROW LEVEL SECURITY;") ::
        if settings.force then ["ALTER TABLE " ++ setup.table ++ " FORCE ROW LEVEL SECURITY;"]
        else []) ++
      made.policies.map PolicyStatement.sql
  script : made.script = String.join (made.statements.map fun statement => statement ++ "\n")

namespace Settings

variable {settings : Settings} {roles : Registry} {rules : List Rule} {sofar : Planning}

theorem installed_rule {policies : List PolicyStatement}
    (each : List.Forall₂ (settings.Installs roles) rules policies) (member : policy ∈ policies) :
    ∃ rule ∈ rules, settings.Installs roles rule policy := by
  induction each with
  | nil => cases member
  | @cons rule first rules policies installs _ ih =>
      rcases List.mem_cons.mp member with rfl | inside
      · exact ⟨rule, List.mem_cons_self, installs⟩
      · obtain ⟨other, found, installed⟩ := ih inside
        exact ⟨other, List.mem_cons_of_mem _ found, installed⟩

theorem planned_covers (planned : settings.Planned roles rules sofar) :
    settings.Covers roles rules sofar.plan := by
  have resources : sofar.plan.tables.map (·.resource) = (rules.map Rule.resource).eraseDups := by
    rw [planned.tables, List.map_map]
    exact List.map_id _
  have setups : ∀ setup ∈ sofar.plan.tables, setup = settings.tableSetup setup.resource := by
    intro setup member
    rw [planned.tables] at member
    obtain ⟨resource, _, rfl⟩ := List.mem_map.mp member
    rfl
  have listed : ∀ resource, resource ∈ sofar.plan.tables.map (·.resource) ↔
      ∃ rule ∈ rules, rule.resource = resource := by
    intro resource
    rw [resources, List.mem_eraseDups, List.mem_map]
  refine ⟨planned.policies, ?_, listed, ?_, setups, ?_, ?_, sofar.plan.script_lines⟩
  · rintro set rfl
    exact resources
  · rw [resources]
    exact eraseDups_ordered _
  · intro policy member
    obtain ⟨rule, inside, installs⟩ := installed_rule planned.policies member
    refine ⟨(listed _).mpr ⟨rule, inside, installs.resource.symm⟩, ?_⟩
    intro setup there same
    rw [setups setup there, same, installs.resource, installs.table]
    rfl
  · rw [Plan.statements]
    congr 1
    refine List.flatMap_congr ?_
    intro setup member
    rw [TableSetup.statements_text, setups setup member]
    rfl

-- Rules can be planned exactly when all their roles are registered and no two policies would
-- be stored under one name on one stored table. Otherwise the first rule is told that cannot
-- be planned with those before it.
theorem plan_exact (settings : Settings) (roles : Registry) (rules : List Rule) :
    ((∃ made, settings.plan rules roles = .ok made) ↔ settings.Plannable roles rules) ∧
      (∀ error, settings.plan rules roles = .error error ↔
        ∃ done rule rest, rules = done ++ rule :: rest ∧ settings.Plannable roles done ∧
          settings.Stops roles done rule error) ∧
      ∀ made, settings.plan rules roles = .ok made → settings.Covers roles rules made := by
  refine ⟨plan_made, fun _ => plan_refused, ?_⟩
  intro made planned
  obtain ⟨done, added, rfl⟩ := plan_ok.mp planned
  exact planned_covers (foldlM_planned added).2

def forumSettings : Settings := ⟨"auth.user_id()", some "forum", .resourceActionRole, true⟩

def forumRules : List Rule :=
  [.of "posts" .select "anonymous" (.literal true),
    .of "comments" .select "anonymous" (.literal true),
    .of "posts" .select "authenticated" (.ownsRow ⟨"posts", "userId"⟩)]

theorem forum_planned :
    ∃ made, forumSettings.plan forumRules .default = .ok made ∧
      forumSettings.Covers .default forumRules made ∧
      made.tables.map (·.table) = ["\"forum\".\"posts\"", "\"forum\".\"comments\""] :=
  ⟨_, rfl, (plan_exact _ _ _).2.2 _ rfl, rfl⟩

end Settings
end RowSecurity.Install

import RowSecurity.Proofs.Install.Storage
import RowSecurity.Proofs.Role.History
import RowSecurity.Proofs.Rule.Fingerprint

-- A policy's name joins its parts by hyphens. Resources and roles may have hyphens of their own,
-- but actions have none, so that on one resource a name tells the action and, where it is named,
-- the role.
namespace RowSecurity

theorem Action.label_unhyphenated (action : Action) : '-' ∉ action.label.toList := by
  cases action <;> decide

def Rule.place (rule : Rule) : String × Action := ⟨rule.resource, rule.action⟩

namespace Install.Settings

variable {settings : Settings} {roles : Registry} {rules : List Rule} {first second : Rule}

def Fits (settings : Settings) (rule : Rule) : Prop :=
  (settings.policyName rule).utf8ByteSize ≤ maxIdentifierBytes

def Clash (settings : Settings) (rules : List Rule) (error : InstallError) : Prop :=
  ∃ done rule rest earlier, rules = done ++ rule :: rest ∧ (done.map Rule.place).Nodup ∧
    earlier ∈ done ∧ earlier.place = rule.place ∧ earlier.role ≠ rule.role ∧
    error = .nameCollision (settings.policyName rule) rule.resource rule.action earlier.role
      rule.role

theorem slot_whole {rule : Rule} (fits : settings.Fits rule) :
    settings.slot rule = ⟨rule.resource, settings.policyName rule⟩ := by
  have short : rule.resource.utf8ByteSize ≤ maxIdentifierBytes := by
    obtain ⟨rest, name⟩ := settings.policyName_starts rule
    have bytes := fits
    rw [Fits, name, String.utf8ByteSize_append] at bytes
    omega
  rw [slot, truncate_whole short, truncate_whole fits]

theorem slot_shared_whole (one : settings.Fits first) (two : settings.Fits second) :
    settings.slot first = settings.slot second ↔
      first.resource = second.resource ∧
        settings.policyName first = settings.policyName second := by
  rw [slot_whole one, slot_whole two, Slot.mk.injEq]

theorem slot_action (naming : settings.naming = .resourceAction) (one : settings.Fits first)
    (two : settings.Fits second) :
    settings.slot first = settings.slot second ↔ first.place = second.place := by
  rw [slot_shared_whole one two, policyName_action naming, policyName_action naming, Rule.place,
    Rule.place, Prod.mk.injEq]
  constructor
  · intro ⟨resource, name⟩
    rw [resource, String.append_right_inj, String.append_right_inj] at name
    exact ⟨resource, Action.label_injective name⟩
  · intro ⟨resource, action⟩
    rw [resource, action]
    exact ⟨rfl, rfl⟩

theorem key_of_slot (naming : settings.naming = .resourceActionRole) (one : settings.Fits first)
    (two : settings.Fits second) (same : settings.slot first = settings.slot second) :
    first.key = second.key := by
  obtain ⟨resource, name⟩ := (slot_shared_whole one two).mp same
  rw [policyName_role naming, policyName_role naming, resource, String.append_right_inj,
    String.append_right_inj] at name
  have chars : first.action.label.toList ++ '-' :: first.role.toList =
      second.action.label.toList ++ '-' :: second.role.toList := by
    simpa using congrArg String.toList name
  obtain ⟨label, role⟩ :=
    cut_unique first.action.label_unhyphenated second.action.label_unhyphenated chars
  rw [Rule.key, Rule.key, resource, Action.label_injective (String.toList_inj.mp label),
    String.toList_inj.mp role]

theorem slots_distinct (naming : settings.naming = .resourceAction)
    (fits : ∀ rule ∈ rules, settings.Fits rule) :
    (rules.map settings.slot).Nodup ↔ (rules.map Rule.place).Nodup := by
  rw [List.Nodup, List.Nodup, List.pairwise_map, List.pairwise_map]
  apply List.Pairwise.iff_of_mem
  intro first second one two
  rw [Ne, Ne, slot_action naming (fits first one) (fits second two)]

theorem keys_plannable (naming : settings.naming = .resourceActionRole)
    (distinct : (rules.map Rule.key).Nodup)
    (registered : ∀ rule ∈ rules, ∃ role, roles.role? rule.role = some role)
    (fits : ∀ rule ∈ rules, settings.Fits rule) : settings.Plannable roles rules := by
  refine ⟨registered, ?_⟩
  rw [List.Nodup, List.pairwise_map]
  refine (List.pairwise_map.mp distinct).imp_of_mem ?_
  intro first second one two apart same
  exact apart (key_of_slot naming (fits first one) (fits second two) same)

variable {done rest : List Rule} {rule earlier : Rule}

theorem roles_apart (distinct : ((done ++ rule :: rest).map Rule.key).Nodup)
    (member : earlier ∈ done) (same : earlier.place = rule.place) :
    earlier.role ≠ rule.role := by
  intro role
  obtain ⟨resource, action⟩ := Prod.mk.inj same
  have key : earlier.key = rule.key := by
    rw [Rule.key, Rule.key, resource, action, role]
  rw [List.map_append, List.map_cons, List.nodup_append] at distinct
  exact distinct.2.2 _ (List.mem_map_of_mem member) _ List.mem_cons_self key

theorem stops_exact (naming : settings.naming = .resourceAction)
    (registered : ∃ role, roles.role? rule.role = some role)
    (before : ∀ earlier ∈ done, settings.Fits earlier) (own : settings.Fits rule) :
    settings.Stops roles done rule error ↔ ∃ earlier ∈ done, earlier.place = rule.place ∧
      error = .nameCollision (settings.policyName rule) rule.resource rule.action earlier.role
        rule.role := by
  obtain ⟨role, found⟩ := registered
  constructor
  · intro stops
    cases stops with
    | unknown missing =>
        rw [missing] at found
        cases found
    | @collision _ earlier _ member same =>
        refine ⟨earlier, member, (slot_action naming (before earlier member) own).mp same, ?_⟩
        rw [truncate_whole own]
  · intro ⟨earlier, member, place, told⟩
    rw [told, ← truncate_whole own]
    exact .collision found member ((slot_action naming (before earlier member) own).mpr place)

theorem refused_clash (naming : settings.naming = .resourceAction)
    (distinct : (rules.map Rule.key).Nodup)
    (registered : ∀ rule ∈ rules, ∃ role, roles.role? rule.role = some role)
    (fits : ∀ rule ∈ rules, settings.Fits rule) :
    settings.plan rules roles = .error error ↔ settings.Clash rules error := by
  rw [plan_refused]
  constructor
  · intro ⟨done, rule, rest, split, plannable, stops⟩
    subst split
    obtain ⟨before, behind⟩ := List.forall_mem_append.mp fits
    have own := behind rule List.mem_cons_self
    obtain ⟨earlier, member, place, told⟩ :=
      (stops_exact naming (registered rule (by simp)) before own).mp stops
    exact ⟨done, rule, rest, earlier, rfl, (slots_distinct naming before).mp plannable.distinct,
      member, place, roles_apart distinct member place, told⟩
  · intro ⟨done, rule, rest, earlier, split, new, member, place, _, told⟩
    subst split
    obtain ⟨before, behind⟩ := List.forall_mem_append.mp fits
    have own := behind rule List.mem_cons_self
    have plannable : settings.Plannable roles done :=
      ⟨(List.forall_mem_append.mp registered).1, (slots_distinct naming before).mpr new⟩
    exact ⟨done, rule, rest, rfl, plannable,
      (stops_exact naming (registered rule (by simp)) before own).mpr ⟨earlier, member, place, told⟩⟩

-- Rules of distinct keys whose names are stored whole always have a plan where names have
-- roles. Where they have none, rules are refused exactly if two are on one resource and
-- action, and the first of them that is not the first there is told.
theorem name_collisions_exact (settings : Settings) (distinct : (rules.map Rule.key).Nodup)
    (registered : ∀ rule ∈ rules, ∃ role, roles.role? rule.role = some role)
    (fits : ∀ rule ∈ rules, settings.Fits rule) :
    (settings.naming = .resourceActionRole → ∃ made, settings.plan rules roles = .ok made) ∧
      (settings.naming = .resourceAction →
        ((∃ error, settings.plan rules roles = .error error) ↔
          ∃ first ∈ rules, ∃ second ∈ rules, first ≠ second ∧
            first.resource = second.resource ∧ first.action = second.action) ∧
        ∀ error, settings.plan rules roles = .error error ↔ settings.Clash rules error) := by
  constructor
  · intro naming
    exact plan_made.mpr (keys_plannable naming distinct registered fits)
  · intro naming
    have clash : ∀ error, settings.plan rules roles = .error error ↔
        settings.Clash rules error := fun _ => refused_clash naming distinct registered fits
    refine ⟨⟨?_, ?_⟩, clash⟩
    · intro ⟨error, refused⟩
      obtain ⟨done, rule, rest, earlier, rfl, _, member, place, apart, _⟩ := (clash error).mp refused
      obtain ⟨resource, action⟩ := Prod.mk.inj place
      refine ⟨earlier, List.mem_append_left _ member, rule, by simp, ?_, resource, action⟩
      intro same
      exact apart (congrArg Rule.role same)
    · intro ⟨first, one, second, two, apart, resource, action⟩
      cases planned : settings.plan rules roles with
      | error error => exact ⟨error, rfl⟩
      | ok made =>
          have plannable := plan_made.mp ⟨made, planned⟩
          have same := (slot_action naming (fits first one) (fits second two)).mpr
            (Prod.ext resource action)
          exact absurd (List.inj_on_of_nodup_map plannable.distinct one two same) apart

def staff : Registry :=
  (Registry.default.after (.role "admin" .custom)).after (.role "select-admin" .custom)

def readAs (resource role : String) : Rule := .of resource .select role (.literal true)

def staffRules : List Rule :=
  [readAs "posts" "select-admin", readAs "posts-select" "admin", readAs "posts" "admin"]

def withRoles : Settings := { default with naming := .resourceActionRole }

theorem staff_named :
    withRoles.policyName (readAs "posts" "select-admin") =
        withRoles.policyName (readAs "posts-select" "admin") ∧
      (∃ made, withRoles.plan staffRules staff = .ok made) ∧
      (∃ error, default.plan staffRules staff = .error error) ∧
      default.plan staffRules staff =
        .error (.nameCollision "posts-select" "posts" .select "select-admin" "admin") := by
  have distinct : (staffRules.map Rule.key).Nodup := by decide
  have registered : ∀ rule ∈ staffRules, ∃ role, staff.role? rule.role = some role := by
    simp only [staffRules, List.forall_mem_cons]
    exact ⟨⟨_, rfl⟩, ⟨_, rfl⟩, ⟨_, rfl⟩, nofun⟩
  have long := name_collisions_exact withRoles distinct registered (by unfold Fits; decide)
  have short := name_collisions_exact default distinct registered (by unfold Fits; decide)
  refine ⟨rfl, long.1 rfl, (short.2 rfl).1.mpr ?_, ((short.2 rfl).2 _).mpr ?_⟩
  · exact ⟨readAs "posts" "select-admin", by decide, readAs "posts" "admin", by decide, by decide,
      rfl, rfl⟩
  · exact ⟨[readAs "posts" "select-admin", readAs "posts-select" "admin"], readAs "posts" "admin",
      [], readAs "posts" "select-admin", rfl, by decide, by decide, rfl, by decide, rfl⟩

end Install.Settings
end RowSecurity

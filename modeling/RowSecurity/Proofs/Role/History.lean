import RowSecurity.Proofs.Outcome
import RowSecurity.Role.Registry

-- Histories of registrations. A role that is registered stays as it is.
namespace RowSecurity

inductive Registration where
  | role (name : String) (kind : RoleKind)
  | mapped (name principal : String)

def Registration.asked : Registration → Role
  | .role name kind => ⟨name, kind, name⟩
  | .mapped name principal => ⟨name, .custom, principal⟩

namespace Registry

def enroll (registry : Registry) : Registration → Except SchemaError Registry
  | .role name kind => registry.register name kind
  | .mapped name principal => registry.registerAs name principal

def after (registry : Registry) (registration : Registration) : Registry :=
  (registry.add registration.asked).1

-- Any number of registrations in any order, refused ones among them.
inductive Reaches (start : Registry) : Registry → Prop where
  | refl : Reaches start start
  | step (registration : Registration) : Reaches start registry →
      Reaches start (registry.after registration)

def Reached (registry : Registry) : Prop := Reaches .default registry

def Extends (earlier later : Registry) : Prop :=
  ∀ name role, earlier.role? name = some role → later.role? name = some role

def Keyed (registry : Registry) : Prop :=
  ∀ name role, registry.role? name = some role → role.name = name

variable {registry next : Registry} {role : Role} {call : Registration}

theorem extends_refl (registry : Registry) : registry.Extends registry := fun _ _ found => found

theorem extends_trans {first second third : Registry} (one : first.Extends second)
    (two : second.Extends third) : first.Extends third :=
  fun name role found => two name role (one name role found)

theorem resolve_ok : registry.resolve name = .ok role ↔ registry.role? name = some role := by
  unfold resolve
  split <;> simp_all

theorem resolve_error : registry.resolve name = .error error ↔
    registry.role? name = none ∧ error = .unknownRole name := by
  unfold resolve
  split <;> simp_all [eq_comm (a := error)]

theorem contains_exact : registry.contains name = false ↔ registry.role? name = none := by
  rw [contains, role?, Std.TreeMap.contains_eq_isSome_getElem?, Option.isSome_eq_false_iff,
    Option.isNone_iff_eq_none]

theorem add_exact : registry.add role = (next, .ok ()) ↔
    Text.isName role.name = true ∧ Text.isName role.principal = true ∧ role.kind = .custom ∧
      registry.role? role.name = none ∧ next = ⟨registry.roles.insert role.name role⟩ := by
  rw [← contains_exact]
  unfold add
  split
  · simp_all
  · split
    · simp_all
    · split
      · simp_all
      · split
        · simp_all
        · simp_all [eq_comm (a := next)]

theorem role?_insert (name : String) :
    role? ⟨registry.roles.insert role.name role⟩ name =
      if role.name = name then some role else registry.role? name := by
  simp [role?, Std.TreeMap.getElem?_insert]

theorem add_extends (accepted : registry.add role = (next, .ok ())) : registry.Extends next := by
  obtain ⟨_, _, _, free, rfl⟩ := add_exact.mp accepted
  intro name held found
  have apart : role.name ≠ name := by
    rintro rfl
    rw [free] at found
    cases found
  rw [role?_insert, if_neg apart, found]

theorem add_keyed (keyed : registry.Keyed) (accepted : registry.add role = (next, .ok ())) :
    next.Keyed := by
  obtain ⟨_, _, _, _, rfl⟩ := add_exact.mp accepted
  intro name held found
  rw [role?_insert] at found
  split at found
  · rename_i same
    cases found
    exact same
  · exact keyed name held found

theorem default_keyed : default.Keyed := by
  intro name held found
  simp only [role?, default, Std.TreeMap.getElem?_insert, Std.LawfulEqCmp.compare_eq_iff_eq]
    at found
  split at found
  · rename_i same
    cases found
    exact same
  · split at found
    · rename_i same
      cases found
      exact same
    · simp at found

theorem enroll_asked (registry : Registry) (call : Registration) :
    registry.enroll call = outcome (registry.add call.asked) := by
  cases call <;> rfl

theorem add_settles (registry : Registry) (role : Role) : Settles registry (registry.add role) := by
  unfold add
  split
  · exact .refused _
  split
  · exact .refused _
  split
  · exact .refused _
  split
  · exact .refused _
  · exact .accepted _

theorem enroll_ok : registry.enroll call = .ok next ↔
    registry.add call.asked = (next, .ok ()) := by
  rw [enroll_asked, outcome_ok]

theorem after_ok (enrolled : registry.enroll call = .ok next) : registry.after call = next := by
  rw [after, enroll_ok.mp enrolled]

theorem after_error (refused : registry.enroll call = .error error) :
    registry.after call = registry := by
  rw [enroll_asked, outcome_error] at refused
  exact (registry.add_settles call.asked).unchanged refused

theorem after_extends (registry : Registry) (call : Registration) :
    registry.Extends (registry.after call) :=
  (registry.add_settles call.asked).keeps (motive := registry.Extends) registry.extends_refl
    fun _ => add_extends

theorem after_keyed (keyed : registry.Keyed) (call : Registration) :
    (registry.after call).Keyed :=
  (registry.add_settles call.asked).keeps (motive := Keyed) keyed fun _ => add_keyed keyed

theorem reaches_extends {start : Registry} (path : start.Reaches registry) :
    start.Extends registry := by
  induction path with
  | refl => exact extends_refl _
  | step registration _ ih => exact extends_trans ih (after_extends _ _)

theorem reaches_keyed {start : Registry} (keyed : start.Keyed) (path : start.Reaches registry) :
    registry.Keyed := by
  induction path with
  | refl => exact keyed
  | step registration _ ih => exact after_keyed ih registration

theorem reached_keyed (path : registry.Reached) : registry.Keyed := reaches_keyed default_keyed path

def run (registry : Registry) (calls : List Registration) : Registry := calls.foldl after registry

def accepted (registry : Registry) : List Registration → List Registration
  | [] => []
  | call :: rest =>
      match registry.enroll call with
      | .ok next => call :: accepted next rest
      | .error _ => accepted registry rest

inductive Refuses (registry : Registry) (role : Role) : SchemaError → Prop where
  | name (invalid : ¬ Text.Named role.name) : Refuses registry role (.invalidName .role role.name)
  | principal (name : Text.Named role.name) (invalid : ¬ Text.Named role.principal) :
      Refuses registry role (.invalidName .principal role.principal)
  | kind (name : Text.Named role.name) (principal : Text.Named role.principal)
      (reserved : role.kind ≠ .custom) :
      Refuses registry role (.reservedRoleKind role.name role.kind.label)
  | duplicate (name : Text.Named role.name) (principal : Text.Named role.principal)
      (kind : role.kind = .custom) (held : registry.role? role.name = some other) :
      Refuses registry role (.duplicateRole role.name)

structure Sound (registry : Registry) : Prop where
  anonymous : registry.resolve "anonymous" = .ok ⟨"anonymous", .anonymous, "anonymous"⟩
  authenticated :
    registry.resolve "authenticated" = .ok ⟨"authenticated", .authenticated, "authenticated"⟩
  custom : ∀ name role, registry.role? name = some role →
    name = "anonymous" ∨ name = "authenticated" ∨ role.kind = .custom
  keyed : registry.Keyed
  named : ∀ name role, registry.role? name = some role →
    Text.Named role.name ∧ Text.Named role.principal

structure Listed (registry : Registry) : Prop where
  members : ∀ role, role ∈ registry.all ↔ registry.role? role.name = some role
  ascending : (registry.all.map Role.name).Pairwise (· < ·)
  size : registry.size = registry.all.length

theorem add_named : registry.add role = (next, .ok ()) ↔
    Text.Named role.name ∧ Text.Named role.principal ∧ role.kind = .custom ∧
      registry.role? role.name = none ∧ next = ⟨registry.roles.insert role.name role⟩ := by
  rw [add_exact, Text.isName_named, Text.isName_named]

theorem unnamed {text : String} : Text.isName text = false ↔ ¬ Text.Named text := by
  rw [← Text.isName_named, Bool.not_eq_true]

theorem contains_held : registry.contains name = true ↔
    ∃ held, registry.role? name = some held := by
  rw [contains, role?, Std.TreeMap.contains_eq_isSome_getElem?, Option.isSome_iff_exists]

theorem refuses_add (refuses : registry.Refuses role error) :
    (registry.add role).2 = .error error := by
  cases refuses with
  | name invalid => simp [add, unnamed.mpr invalid]
  | principal name invalid => simp [add, (Text.isName_named _).mpr name, unnamed.mpr invalid]
  | kind name principal reserved =>
      simp [add, (Text.isName_named _).mpr name, (Text.isName_named _).mpr principal, reserved]
  | duplicate name principal kind held =>
      simp [add, (Text.isName_named _).mpr name, (Text.isName_named _).mpr principal, kind,
        contains_held.mpr ⟨_, held⟩]

theorem add_cases (registry : Registry) (role : Role) :
    (∃ next, registry.add role = (next, .ok ())) ∨ ∃ error, registry.Refuses role error := by
  by_cases name : Text.Named role.name
  · by_cases principal : Text.Named role.principal
    · by_cases kind : role.kind = .custom
      · cases held : registry.role? role.name with
        | none => exact .inl ⟨_, add_named.mpr ⟨name, principal, kind, held, rfl⟩⟩
        | some other => exact .inr ⟨_, .duplicate name principal kind held⟩
      · exact .inr ⟨_, .kind name principal kind⟩
    · exact .inr ⟨_, .principal name principal⟩
  · exact .inr ⟨_, .name name⟩

theorem add_error : (registry.add role).2 = .error error ↔ registry.Refuses role error := by
  refine ⟨fun refused => ?_, refuses_add⟩
  rcases registry.add_cases role with ⟨next, added⟩ | ⟨other, refuses⟩
  · rw [added] at refused
    cases refused
  · rw [refuses_add refuses] at refused
    cases refused
    exact refuses

theorem default_role? : default.role? name = some role ↔
    (name = "anonymous" ∧ role = .anonymous) ∨
      (name = "authenticated" ∧ role = .authenticated) := by
  simp only [role?, default, Std.TreeMap.getElem?_insert, Std.LawfulEqCmp.compare_eq_iff_eq]
  split
  · rename_i same
    cases same
    simp [Role.authenticated, eq_comm]
  · rename_i apart
    split
    · rename_i same
      cases same
      simp [Role.anonymous, eq_comm]
    · rename_i other
      simp_all [Role.anonymous, Role.authenticated, eq_comm]

theorem default_sound : default.Sound := by
  refine ⟨rfl, rfl, ?_, default_keyed, ?_⟩
  all_goals
    intro name role found
    rcases default_role?.mp found with ⟨rfl, rfl⟩ | ⟨rfl, rfl⟩
  · exact .inl rfl
  · exact .inr (.inl rfl)
  all_goals exact ⟨(Text.isName_named _).mp rfl, (Text.isName_named _).mp rfl⟩

theorem add_sound (sound : registry.Sound) (accepted : registry.add role = (next, .ok ())) :
    next.Sound := by
  obtain ⟨name, principal, kind, free, rfl⟩ := add_named.mp accepted
  have kept : ∀ name held, registry.resolve name = .ok held →
      resolve ⟨registry.roles.insert role.name role⟩ name = .ok held :=
    fun name held found => resolve_ok.mpr (add_extends accepted name held (resolve_ok.mp found))
  refine ⟨kept _ _ sound.anonymous, kept _ _ sound.authenticated, ?_,
    add_keyed sound.keyed accepted, ?_⟩
  all_goals
    intro other held found
    rw [role?_insert] at found
    split at found
  · cases found
    exact .inr (.inr kind)
  · exact sound.custom other held found
  · cases found
    exact ⟨name, principal⟩
  · exact sound.named other held found

theorem keyed_listed (keyed : registry.Keyed) : registry.Listed := by
  have carried : registry.all.map Role.name = registry.roles.toList.map (·.1) := by
    rw [all, List.map_map]
    refine List.map_congr_left fun entry member => ?_
    exact keyed entry.1 entry.2 (Std.TreeMap.mem_toList_iff_getElem?_eq_some.mp member)
  refine ⟨fun role => ?_, ?_, ?_⟩
  · constructor
    · intro member
      obtain ⟨⟨name, held⟩, entry, rfl⟩ := List.mem_map.mp member
      have found := Std.TreeMap.mem_toList_iff_getElem?_eq_some.mp entry
      rw [keyed name held found]
      exact found
    · intro found
      exact List.mem_map.mpr ⟨(role.name, role),
        Std.TreeMap.mem_toList_iff_getElem?_eq_some.mpr found, rfl⟩
  · rw [carried, List.pairwise_map]
    have ordered : registry.roles.toList.Pairwise fun one two => compare one.1 two.1 = .lt :=
      Std.TreeMap.ordered_keys_toList
    exact ordered.imp fun before => compareOfLessAndEq_eq_lt.mp before
  · rw [all, List.length_map, Std.TreeMap.length_toList, size]

theorem size_add (accepted : registry.add role = (next, .ok ())) : next.size = registry.size + 1 := by
  obtain ⟨_, _, _, free, rfl⟩ := add_named.mp accepted
  have absent : registry.roles.contains role.name = false := contains_exact.mpr free
  rw [size, size, Std.TreeMap.size_insert, absent]
  rfl

theorem after_sound (sound : registry.Sound) (call : Registration) :
    (registry.after call).Sound :=
  (registry.add_settles call.asked).keeps (motive := Sound) sound fun _ => add_sound sound

theorem reaches_sound {start : Registry} (sound : start.Sound) (path : start.Reaches registry) :
    registry.Sound := by
  induction path with
  | refl => exact sound
  | step registration _ ih => exact after_sound ih registration

theorem run_reaches (registry : Registry) (calls : List Registration) :
    registry.Reaches (registry.run calls) :=
  List.foldlRecOn calls after .refl fun _ path call _ => .step call path

theorem run_append (registry : Registry) (calls more : List Registration) :
    registry.run (calls ++ more) = (registry.run calls).run more := List.foldl_append

theorem run_size (registry : Registry) (calls : List Registration) :
    (registry.run calls).size = registry.size + (registry.accepted calls).length := by
  induction calls generalizing registry with
  | nil => rfl
  | cons call rest ih =>
      have rested : (registry.run (call :: rest)).size = _ := ih (registry.after call)
      rw [rested, accepted]
      cases enrolled : registry.enroll call with
      | error error => rw [after_error enrolled]
      | ok next =>
          rw [after_ok enrolled, size_add (enroll_ok.mp enrolled), List.length_cons,
            Nat.add_right_comm, Nat.add_assoc]

structure Decides (registry : Registry) (call : Registration) : Prop where
  accepts : (∃ next, registry.enroll call = .ok next) ↔
    call.asked.kind = .custom ∧ Text.Named call.asked.name ∧ Text.Named call.asked.principal ∧
      registry.role? call.asked.name = none
  adds : ∀ next, registry.enroll call = .ok next → registry.after call = next ∧
    ∀ name, next.role? name =
      if call.asked.name = name then some call.asked else registry.role? name
  tells : ∀ error, registry.enroll call = .error error ↔ registry.Refuses call.asked error
  keeps : ∀ error, registry.enroll call = .error error → registry.after call = registry

theorem enroll_decides (registry : Registry) (call : Registration) : registry.Decides call := by
  refine ⟨?_, ?_, ?_, fun _ => after_error⟩
  · simp only [enroll_ok, add_named]
    constructor
    · rintro ⟨_, name, principal, kind, free, _⟩
      exact ⟨kind, name, principal, free⟩
    · rintro ⟨kind, name, principal, free⟩
      exact ⟨_, name, principal, kind, free, rfl⟩
  · intro next enrolled
    refine ⟨after_ok enrolled, fun name => ?_⟩
    obtain ⟨_, _, _, _, rfl⟩ := add_named.mp (enroll_ok.mp enrolled)
    exact role?_insert name
  · intro error
    rw [enroll_asked, outcome_error]
    exact add_error

-- After any registrations whatever, the default roles are as they were and alone of their
-- kinds, every role is under its own valid name, none that was ever there has changed, and as
-- many were added as calls were accepted.
theorem registry_runs_exact (calls : List Registration) :
    (default.run calls).Sound ∧ (default.run calls).Listed ∧
      (default.run calls).size = 2 + (default.accepted calls).length ∧
      (∀ more name role, (default.run calls).resolve name = .ok role →
        (default.run (calls ++ more)).resolve name = .ok role) ∧
      ∀ call, (default.run calls).Decides call := by
  have sound := reaches_sound default_sound (run_reaches default calls)
  refine ⟨sound, keyed_listed sound.keyed, run_size default calls, ?_, enroll_decides _⟩
  intro more name role found
  rw [run_append]
  have grown := reaches_extends (run_reaches (default.run calls) more)
  exact resolve_ok.mpr (grown name role (resolve_ok.mp found))

def auditorCalls : List Registration :=
  [.role "9lives" .custom, .mapped "auditor" "audit reader", .mapped "auditor" "audit_reader",
    .role "auditor" .custom, .role "guest" .anonymous]

theorem auditor_registered :
    (default.run auditorCalls).all.map Role.name = ["anonymous", "auditor", "authenticated"] ∧
      (default.run auditorCalls).size = 3 ∧
      (default.run (auditorCalls ++ [.mapped "auditor" "root", .role "auditor" .custom])).resolve
        "auditor" = .ok ⟨"auditor", .custom, "audit_reader"⟩ ∧
      (default.run auditorCalls).enroll (.mapped "anonymous" "root") =
        .error (.duplicateRole "anonymous") := by
  obtain ⟨sound, _, size, later, decides⟩ := registry_runs_exact auditorCalls
  have named : ∀ text, Text.isName text = true → Text.Named text :=
    fun text => (Text.isName_named text).mp
  refine ⟨rfl, size, later _ _ _ rfl, ((decides _).tells _).mpr ?_⟩
  exact .duplicate (named _ rfl) (named _ rfl) rfl (resolve_ok.mp sound.anonymous)

end Registry
end RowSecurity

import RowSecurity.Proofs.Policy.Compilation
import RowSecurity.Proofs.Schema.History

-- Where rules come from, and what goes on to hold of them while the graph and the registry grow.
namespace RowSecurity

structure Rule.Sound (rule : Rule) (graph : Graph) (roles : Registry) : Prop where
  declared : ∃ resource, graph.resolve rule.resource = .ok resource
  registered : ∃ role, roles.resolve rule.role = .ok role
  valid : rule.predicate.validate graph = .ok ()
  about : rule.predicate.About rule.resource
  clause : rule.clause = rule.action.clause

theorem Rule.sound_extends {rule : Rule} (graphGrown : Graph.Extends graph laterGraph)
    (rolesGrown : Registry.Extends roles laterRoles) (sound : rule.Sound graph roles) :
    rule.Sound laterGraph laterRoles := by
  obtain ⟨resource, resolved⟩ := sound.declared
  obtain ⟨kept, keptAt, _⟩ := Graph.extends_resolve graphGrown resolved
  obtain ⟨role, found⟩ := sound.registered
  exact ⟨⟨kept, keptAt⟩,
    ⟨role, Registry.resolve_ok.mpr (rolesGrown _ _ (Registry.resolve_ok.mp found))⟩,
    Predicate.validate_extends graphGrown _ sound.valid, sound.about, sound.clause⟩

theorem selects_fits (compilable : Compilable graph roles source resource intent)
    (selects : Selects source intent (some p)) : p.Fits graph resource := by
  cases selects with
  | modify _ _ _ condition => exact compilable.modify _ condition
  | everything => exact Predicate.literal_fits graph resource true
  | read condition => exact compilable.read _ condition
  | flag => exact Predicate.literal_fits graph resource _

theorem modifies_fits (compilable : Compilable graph roles source resource intent)
    (modifies : Modifies intent (some p)) : p.Fits graph resource := by
  cases modifies with
  | everything => exact Predicate.literal_fits graph resource true
  | condition condition => exact compilable.modify _ condition

namespace Compiler

variable {compiler : Compiler} {resource name : String} {action : Action}

theorem of_sound {p : Predicate} (found : compiler.roles.role? name = some role)
    (declared : compiler.graph.resource? resource = some held)
    (fits : p.Fits compiler.graph resource) :
    (Rule.of resource action name p).Sound compiler.graph compiler.roles :=
  ⟨⟨held, Graph.resolve_ok.mpr declared⟩, ⟨role, Registry.resolve_ok.mpr found⟩, fits.valid,
    fits.about, rfl⟩

theorem compileIntent_sound (keyed : compiler.roles.Keyed)
    (compiled : compiler.compileIntent resource intent = .ok rules) :
    ∀ rule ∈ rules, rule.Sound compiler.graph compiler.roles := by
  obtain ⟨compilable, select, changed, selects, modifies, rfl⟩ :=
    (compileIntent_ok keyed).mp compiled
  obtain ⟨role, registered⟩ := compilable.registered
  obtain ⟨held, declared⟩ := compilable.declared
  intro rule member
  rcases List.mem_append.mp member with chosen | change
  · cases select with
    | none => cases chosen
    | some p =>
        cases List.mem_singleton.mp chosen
        exact of_sound registered declared (selects_fits compilable selects)
  · cases changed with
    | none => cases change
    | some q =>
        obtain ⟨action, _, rfl⟩ := List.mem_map.mp change
        exact of_sound registered declared (modifies_fits compilable modifies)

theorem compileGrant_sound (keyed : compiler.roles.Keyed)
    (compiled : compiler.compileGrant resource action name grant = .ok rule) :
    rule.Sound compiler.graph compiler.roles := by
  obtain ⟨⟨role, registered⟩, ⟨held, declared⟩, p, fits, rfl, _⟩ :=
    (compileGrant_ok keyed).mp compiled
  exact of_sound registered declared fits

end Compiler

inductive Compiled : Rule → Prop where
  | intent (compiler : Compiler) (graph : compiler.graph.Reached) (roles : compiler.roles.Reached)
      (compiled : compiler.compileIntent resource intent = .ok rules) (member : rule ∈ rules) :
      Compiled rule
  | grant (compiler : Compiler) (graph : compiler.graph.Reached) (roles : compiler.roles.Reached)
      (compiled : compiler.compileGrant resource action role grant = .ok rule) : Compiled rule

variable {rule : Rule}

theorem compiled_sound (compiled : Compiled rule) :
    ∃ graph roles, graph.Reached ∧ roles.Reached ∧ rule.Sound graph roles := by
  cases compiled with
  | intent _ graph roles compiled member =>
      have keyed := Registry.reached_keyed roles
      exact ⟨_, _, graph, roles, Compiler.compileIntent_sound keyed compiled rule member⟩
  | grant _ graph roles compiled =>
      have keyed := Registry.reached_keyed roles
      exact ⟨_, _, graph, roles, Compiler.compileGrant_sound keyed compiled⟩

theorem compiled_named (compiled : Compiled rule) : Text.Named rule.resource := by
  obtain ⟨graph, roles, reached, _, sound⟩ := compiled_sound compiled
  obtain ⟨resource, resolved⟩ := sound.declared
  have whole := Graph.reaches_sound Graph.empty_sound reached
  obtain ⟨member, same⟩ := (Graph.resource?_carries whole).mp (Graph.resolve_ok.mp resolved)
  rw [← same]
  exact (whole.resources resource member).name

namespace Compiler

variable {compiler : Compiler} {resource role : String} {action : Action} {p : Predicate}

theorem compileIntent_condition :
    compiler.compileIntent resource ⟨role, none, some (.condition p)⟩ =
      (compiler.compileGrant resource .insert role (.condition p)).map fun rule =>
        Action.modifying.map fun action => .of resource action rule.role p := by
  unfold compileIntent compileGrant
  cases PolicyError.ofSchema (compiler.roles.resolve role) with
  | error error => rfl
  | ok found =>
      cases PolicyError.ofSchema (compiler.graph.resolve resource) with
      | error error => rfl
      | ok held =>
          simp only [bind, Except.bind, checkGrant]
          cases compiler.checkPredicate resource found.name .insert p <;> rfl

section Reached

variable (keyed : compiler.roles.Keyed)
include keyed

theorem compileGrant_condition :
    compiler.compileGrant resource action role (.condition p) = .ok rule ↔
      (∃ found, compiler.roles.role? role = some found) ∧
        (∃ held, compiler.graph.resource? resource = some held) ∧
        p.Fits compiler.graph resource ∧ rule = .of resource action role p := by
  rw [compileGrant_ok keyed]
  simp

theorem compileGrant_others
    (compiled : compiler.compileGrant resource .insert role (.condition p) = .ok rule)
    (action : Action) : compiler.compileGrant resource action role (.condition p) =
      .ok (.of resource action role p) := by
  obtain ⟨registered, declared, fits, _⟩ := (compileGrant_condition keyed).mp compiled
  exact (compileGrant_condition keyed).mpr ⟨registered, declared, fits, rfl⟩

theorem compileIntent_changes
    (compiled : compiler.compileIntent resource ⟨role, none, some (.condition p)⟩ = .ok rules) :
    [Action.insert, .update, .delete].map
        (fun action => compiler.compileGrant resource action role (.condition p)) =
      rules.map .ok := by
  rw [compileIntent_condition] at compiled
  cases granted : compiler.compileGrant resource .insert role (.condition p) with
  | error error =>
      rw [granted] at compiled
      cases compiled
  | ok rule =>
      obtain ⟨_, _, _, rfl⟩ := (compileGrant_condition keyed).mp granted
      rw [granted] at compiled
      cases compiled
      simp [compileGrant_others keyed granted, Action.modifying, Rule.of]

theorem compileIntent_reproduced
    (compiled : compiler.compileIntent resource intent = .ok rules) (member : rule ∈ rules) :
    compiler.compileGrant rule.resource rule.action rule.role (.condition rule.predicate) =
      .ok rule := by
  obtain ⟨compilable, select, changed, selects, modifies, rfl⟩ :=
    (compileIntent_ok keyed).mp compiled
  have reproduced : ∀ action p, p.Fits compiler.graph resource →
      compiler.compileGrant resource action intent.role (.condition p) =
        .ok (.of resource action intent.role p) := by
    intro action p fits
    exact (compileGrant_condition keyed).mpr
      ⟨compilable.registered, compilable.declared, fits, rfl⟩
  rcases List.mem_append.mp member with chosen | change
  · cases select with
    | none => cases chosen
    | some p =>
        cases List.mem_singleton.mp chosen
        exact reproduced .select p (selects_fits compilable selects)
  · cases changed with
    | none => cases change
    | some q =>
        obtain ⟨action, _, rfl⟩ := List.mem_map.mp change
        exact reproduced action q (modifies_fits compilable modifies)

end Reached

-- An intent to modify under a condition and the three grants of this condition succeed and fail
-- together. Every rule of any intent is what its own predicate compiles to, also where that was
-- taken from the other grant or stands for a flag.
theorem entry_points_agree (registered : compiler.roles.Reached) (resource : String) :
    (∀ role p,
      ((∃ rules, compiler.compileIntent resource ⟨role, none, some (.condition p)⟩ = .ok rules) ↔
        ∀ action ∈ [Action.insert, .update, .delete], ∃ rule,
          compiler.compileGrant resource action role (.condition p) = .ok rule) ∧
      (∀ rules, compiler.compileIntent resource ⟨role, none, some (.condition p)⟩ = .ok rules →
        [Action.insert, .update, .delete].map
            (fun action => compiler.compileGrant resource action role (.condition p)) =
          rules.map .ok) ∧
      ∀ error,
        compiler.compileIntent resource ⟨role, none, some (.condition p)⟩ = .error error ↔
          compiler.compileGrant resource .insert role (.condition p) = .error error) ∧
      ∀ intent rules, compiler.compileIntent resource intent = .ok rules → ∀ rule ∈ rules,
        compiler.compileGrant rule.resource rule.action rule.role (.condition rule.predicate) =
          .ok rule := by
  have keyed := Registry.reached_keyed registered
  refine ⟨?_, fun intent rules compiled rule => compileIntent_reproduced keyed compiled⟩
  intro role p
  refine ⟨⟨?_, ?_⟩, fun rules => compileIntent_changes keyed, ?_⟩
  · intro ⟨rules, compiled⟩ action member
    have listed := List.mem_map_of_mem
      (f := fun action => compiler.compileGrant resource action role (.condition p)) member
    rw [compileIntent_changes keyed compiled] at listed
    obtain ⟨rule, _, granted⟩ := List.mem_map.mp listed
    exact ⟨rule, granted.symm⟩
  · intro each
    obtain ⟨rule, granted⟩ := each .insert (by simp)
    rw [compileIntent_condition, granted]
    exact ⟨_, rfl⟩
  · intro error
    rw [compileIntent_condition]
    cases compiler.compileGrant resource .insert role (.condition p) <;> simp [Except.map]

theorem own_posts_reproduced :
    (Compiler.mk postsGraph .default .default).roles.Reached ∧
      (∃ rules, (Compiler.mk postsGraph .default .default).compileIntent "posts"
          ⟨"authenticated", none, some (.condition ownPosts)⟩ = .ok rules ∧
        rules.map (·.action) = [.insert, .update, .delete]) ∧
      (Compiler.mk postsGraph .default .default).compileIntent "posts"
          ⟨"authenticated", some (.condition ownPosts), some (.flag false)⟩ =
        .ok [.of "posts" .select "authenticated" (.literal false)] ∧
      (Compiler.mk postsGraph .default .default).compileGrant "posts" .select "authenticated"
          (.condition (.literal false)) =
        .ok (.of "posts" .select "authenticated" (.literal false)) := by
  have registered : (Compiler.mk postsGraph .default .default).roles.Reached := .refl
  obtain ⟨changes, reproduced⟩ := entry_points_agree registered "posts"
  have flagged : (Compiler.mk postsGraph .default .default).compileIntent "posts"
      ⟨"authenticated", some (.condition ownPosts), some (.flag false)⟩ =
      .ok [.of "posts" .select "authenticated" (.literal false)] := rfl
  obtain ⟨rules, compiled⟩ := (changes "authenticated" ownPosts).1.mpr <| by
    simp only [List.forall_mem_cons]
    exact ⟨⟨_, rfl⟩, ⟨_, rfl⟩, ⟨_, rfl⟩, nofun⟩
  refine ⟨registered, ⟨rules, compiled, ?_⟩, flagged, reproduced _ _ flagged _ (.head _)⟩
  cases compiled
  rfl

end Compiler
end RowSecurity

import RowSecurity.Proofs.Install.Planning
import RowSecurity.Proofs.Policy.Compilation
import RowSecurity.Proofs.Policy.Soundness
import RowSecurity.Rule.Set

-- A build from its first declaration on: one graph, one registry and any number of rule sets. What
-- was valid, compiled or planned once goes on to be so.
namespace RowSecurity

section Growing

variable {graph later : Graph} {roles laterRoles : Registry}

theorem Grant.fits_extends {grant : Option Grant} (grown : graph.Extends later)
    (fits : Grant.Fits graph resource grant) : Grant.Fits later resource grant :=
  fun p given => Predicate.fits_extends grown (fits p given)

section Compiling

variable {settings : CompilerSettings} (declared : graph.Extends later)
  (registered : roles.Extends laterRoles)
include declared registered

theorem compileIntent_extends
    (compiled : (Compiler.mk graph roles settings).compileIntent resource intent = .ok rules) :
    (Compiler.mk later laterRoles settings).compileIntent resource intent = .ok rules := by
  unfold Compiler.compileIntent at compiled ⊢
  simp only [bind_ok, ofSchema_ok, Registry.resolve_ok, Graph.resolve_ok] at compiled ⊢
  obtain ⟨role, found, held, there, ⟨⟩, read, ⟨⟩, modify, select, chosen, equal⟩ := compiled
  obtain ⟨kept, still, _⟩ := declared resource held there
  have readFits := Grant.fits_extends declared (Compiler.checkGrant_ok.mp read)
  have modifyFits := Grant.fits_extends declared (Compiler.checkGrant_ok.mp modify)
  exact ⟨role, registered _ _ found, kept, still, (), Compiler.checkGrant_ok.mpr readFits, (),
    Compiler.checkGrant_ok.mpr modifyFits, select, chosen, equal⟩

theorem compileGrant_extends
    (compiled : (Compiler.mk graph roles settings).compileGrant resource action name grant =
      .ok rule) :
    (Compiler.mk later laterRoles settings).compileGrant resource action name grant =
      .ok rule := by
  unfold Compiler.compileGrant at compiled ⊢
  simp only [bind_ok, ofSchema_ok, Registry.resolve_ok, Graph.resolve_ok] at compiled ⊢
  obtain ⟨role, found, held, there, given⟩ := compiled
  obtain ⟨kept, still, _⟩ := declared resource held there
  refine ⟨role, registered _ _ found, kept, still, ?_⟩
  cases grant with
  | flag value => exact given
  | condition p =>
      obtain ⟨⟨⟩, checked, equal⟩ := bind_ok.mp given
      have fits := Predicate.fits_extends declared (Compiler.checkPredicate_ok.mp checked)
      exact bind_ok.mpr ⟨(), Compiler.checkPredicate_ok.mpr fits, equal⟩

end Compiling

namespace Install.Settings

variable {settings : Settings}

theorem addRule_extends (registered : roles.Extends laterRoles)
    (added : settings.addRule roles sofar rule = .ok next) :
    settings.addRule laterRoles sofar rule = .ok next := by
  unfold addRule at added ⊢
  cases found : roles.role? rule.role with
  | none =>
      rw [found] at added
      cases added
  | some role =>
      rw [found] at added
      rw [registered _ _ found]
      exact added

theorem plan_extends (registered : roles.Extends laterRoles)
    (planned : settings.plan rules roles = .ok made) :
    settings.plan rules laterRoles = .ok made := by
  unfold plan at planned ⊢
  split at planned
  · rename_i done added
    rw [foldlM_agrees (fun _ _ _ => addRule_extends registered) added]
    exact planned
  · cases planned

end Install.Settings

-- Declarations and registrations of any kind and number, refused ones among them, change
-- nothing about what was a success before them.
theorem growth_keeps_results (declared : Graph.Reaches graph later)
    (registered : Registry.Reaches roles laterRoles) :
    (∀ p : Predicate, p.validate graph = .ok () → p.validate later = .ok ()) ∧
      (∀ settings resource intent rules,
        (Compiler.mk graph roles settings).compileIntent resource intent = .ok rules →
          (Compiler.mk later laterRoles settings).compileIntent resource intent = .ok rules) ∧
      (∀ settings resource action role grant rule,
        (Compiler.mk graph roles settings).compileGrant resource action role grant = .ok rule →
          (Compiler.mk later laterRoles settings).compileGrant resource action role grant =
            .ok rule) ∧
      ∀ (settings : Install.Settings) rules made, settings.plan rules roles = .ok made →
        settings.plan rules laterRoles = .ok made := by
  have graphGrown := Graph.reaches_extends declared
  have rolesGrown := Registry.reaches_extends registered
  refine ⟨fun p => Predicate.validate_extends graphGrown p, ?_, ?_, ?_⟩
  · intro settings resource intent rules
    exact compileIntent_extends graphGrown rolesGrown
  · intro settings resource action role grant rule
    exact compileGrant_extends graphGrown rolesGrown
  · intro settings rules made
    exact Install.Settings.plan_extends rolesGrown

def roomGraph : Graph :=
  ((Graph.empty.after (.resource "rooms" [Column.build "id" .serial [.primaryKey]])).after
    (.resource "members" [Column.plain "roomId" .integer, Column.plain "userId" .serial])).after
    (.relationship ⟨"members", "roomId", "rooms"⟩)

def laterRoomGraph : Graph :=
  ((roomGraph.after (.resource "users" [Column.build "id" .serial [.primaryKey]])).after
    (.relationship ⟨"members", "userId", "users"⟩)).after (.resource "rooms" [])

def laterRoomRoles : Registry :=
  (Registry.default.after (.mapped "auditor" "audit_reader")).after
    (.mapped "authenticated" "audit_reader")

def inRoom : Predicate := .memberOfJoin ⟨"rooms", "id", "members", "roomId", "userId"⟩

def roomIntent : Intent := ⟨"authenticated", none, some (.condition inRoom)⟩

def roomRules : List Rule :=
  [.of "rooms" .insert "authenticated" inRoom, .of "rooms" .update "authenticated" inRoom,
    .of "rooms" .delete "authenticated" inRoom]

theorem rooms_keep_results :
    Graph.Reaches roomGraph laterRoomGraph ∧ Registry.Reaches .default laterRoomRoles ∧
      inRoom.validate laterRoomGraph = .ok () ∧
      (Compiler.mk laterRoomGraph laterRoomRoles .default).compileIntent "rooms" roomIntent =
        .ok roomRules ∧
      ∃ made, Install.Settings.default.plan roomRules laterRoomRoles = .ok made ∧
        made.policies.map (·.principal) = ["authenticated", "authenticated", "authenticated"] := by
  have declared : Graph.Reaches roomGraph laterRoomGraph := .step _ (.step _ (.step _ .refl))
  have registered : Registry.Reaches .default laterRoomRoles := .step _ (.step _ .refl)
  obtain ⟨valid, compiled, _, planned⟩ := growth_keeps_results declared registered
  exact ⟨declared, registered, valid _ rfl, compiled _ _ _ _ rfl, _, planned _ _ _ rfl, rfl⟩

end Growing

structure Build where
  graph : Graph
  roles : Registry
  compiled : List Rule
  sets : List RuleSet

-- A batch is picked from all the rules that were compiled so far, by their positions; it
-- may hold them in any order, repeatedly, and long after they were compiled.
inductive Command where
  | declare (declaration : Declaration)
  | register (registration : Registration)
  | compileIntent (settings : CompilerSettings) (resource : String) (intent : Intent)
  | compileGrant (settings : CompilerSettings) (resource : String) (action : Action)
      (role : String) (grant : Grant)
  | openSet (observer : Option Observer)
  | extend (set : Nat) (picks : List Nat)
  | merge (set other : Nat)

namespace Build

def start : Build := ⟨.empty, .default, [], []⟩

def compiler (build : Build) (settings : CompilerSettings) : Compiler :=
  ⟨build.graph, build.roles, settings⟩

def picked (build : Build) (picks : List Nat) : List Rule :=
  picks.filterMap fun position => build.compiled[position]?

-- A compilation that fails adds no rule; a batch that is refused is the set's own affair.
def perform (build : Build) : Command → Build
  | .declare declaration => { build with graph := build.graph.after declaration }
  | .register registration => { build with roles := build.roles.after registration }
  | .compileIntent settings resource intent =>
      match (build.compiler settings).compileIntent resource intent with
      | .ok rules => { build with compiled := build.compiled ++ rules }
      | .error _ => build
  | .compileGrant settings resource action role grant =>
      match (build.compiler settings).compileGrant resource action role grant with
      | .ok rule => { build with compiled := build.compiled ++ [rule] }
      | .error _ => build
  | .openSet observer => { build with sets := build.sets ++ [.empty observer] }
  | .extend set picks =>
      { build with sets := build.sets.modify set fun held => (held.extend (build.picked picks)).1 }
  | .merge set other =>
      match build.sets[other]? with
      | some merged =>
          { build with sets := build.sets.modify set fun held => (held.merge merged).1 }
      | none => build

def run (build : Build) (commands : List Command) : Build := commands.foldl perform build

-- Sets hold compiled rules only, and these are sound for the graph and the registry as
-- they are now, not only as they were.
structure Sound (build : Build) : Prop where
  keyed : build.roles.Keyed
  compiled : ∀ rule ∈ build.compiled, rule.Sound build.graph build.roles
  committed : ∀ set ∈ build.sets, ∀ rule ∈ set.rules, rule ∈ build.compiled

theorem start_sound : start.Sound :=
  ⟨Registry.default_keyed, fun _ member => (by cases member), fun _ member => (by cases member)⟩

theorem mem_extend {set : RuleSet} (member : rule ∈ (set.extend batch).1.rules) :
    rule ∈ set.rules ∨ rule ∈ batch := by
  unfold RuleSet.extend at member
  split at member
  · exact .inl member
  · exact List.mem_append.mp member

theorem picked_compiled {build : Build} (member : rule ∈ build.picked picks) :
    rule ∈ build.compiled := by
  obtain ⟨position, _, found⟩ := List.mem_filterMap.mp member
  exact List.mem_of_getElem? found

theorem modify_committed {sets : List RuleSet} {compiled batch : List Rule}
    (committed : ∀ set ∈ sets, ∀ rule ∈ set.rules, rule ∈ compiled)
    (known : ∀ rule ∈ batch, rule ∈ compiled) (position : Nat) :
    ∀ set ∈ sets.modify position fun held => (held.extend batch).1,
      ∀ rule ∈ set.rules, rule ∈ compiled := by
  intro set member rule ruled
  obtain ⟨place, found⟩ := List.mem_iff_getElem?.mp member
  rw [List.getElem?_modify] at found
  obtain ⟨held, heldAt, equal⟩ := Option.map_eq_some_iff.mp found
  have old := committed held (List.mem_of_getElem? heldAt)
  split at equal
  · subst equal
    rcases mem_extend ruled with earlier | fresh
    · exact old rule earlier
    · exact known rule fresh
  · subst equal
    exact old rule ruled

theorem add_compiled {build : Build} (sound : build.Sound)
    (fresh : ∀ rule ∈ rules, rule.Sound build.graph build.roles) :
    Sound { build with compiled := build.compiled ++ rules } := by
  refine ⟨sound.keyed, ?_, fun set member rule ruled =>
    List.mem_append_left _ (sound.committed set member rule ruled)⟩
  intro rule member
  rcases List.mem_append.mp member with earlier | new
  · exact sound.compiled rule earlier
  · exact fresh rule new

theorem perform_sound {build : Build} (sound : build.Sound) (command : Command) :
    (build.perform command).Sound := by
  cases command with
  | declare declaration =>
      exact ⟨sound.keyed, fun rule member => Rule.sound_extends
        (build.graph.after_extends declaration) build.roles.extends_refl
        (sound.compiled rule member), sound.committed⟩
  | register registration =>
      exact ⟨Registry.after_keyed sound.keyed registration, fun rule member =>
        Rule.sound_extends build.graph.extends_refl (build.roles.after_extends registration)
          (sound.compiled rule member), sound.committed⟩
  | compileIntent settings resource intent =>
      simp only [perform]
      split
      · rename_i rules compiled
        exact add_compiled sound (Compiler.compileIntent_sound sound.keyed compiled)
      · exact sound
  | compileGrant settings resource action role grant =>
      simp only [perform]
      split
      · rename_i rule compiled
        refine add_compiled sound fun other member => ?_
        cases List.mem_singleton.mp member
        exact Compiler.compileGrant_sound sound.keyed compiled
      · exact sound
  | openSet observer =>
      refine ⟨sound.keyed, sound.compiled, ?_⟩
      intro set member rule ruled
      rcases List.mem_append.mp member with earlier | new
      · exact sound.committed set earlier rule ruled
      · cases List.mem_singleton.mp new
        cases ruled
  | extend set picks =>
      exact ⟨sound.keyed, sound.compiled,
        modify_committed sound.committed (fun rule => picked_compiled) set⟩
  | merge set other =>
      simp only [perform]
      split
      · rename_i merged found
        exact ⟨sound.keyed, sound.compiled, modify_committed sound.committed
          (sound.committed merged (List.mem_of_getElem? found)) set⟩
      · exact sound

theorem run_sound (build : Build) (sound : build.Sound) (commands : List Command) :
    (build.run commands).Sound := by
  induction commands generalizing build with
  | nil => exact sound
  | cons command rest ih => exact ih _ (perform_sound sound command)

-- After any commands whatever, every rule of every set fits the graph and the registry
-- as they are, so that no plan of a set lacks a principal.
theorem committed_rules_sound (commands : List Command) :
    ∀ set ∈ (start.run commands).sets,
      (∀ rule ∈ set.rules, rule.Sound (start.run commands).graph (start.run commands).roles) ∧
        ∀ (settings : Install.Settings) resource role,
          settings.plan set.rules (start.run commands).roles ≠
            .error (.unknownPrincipal resource role) := by
  have sound := run_sound start start_sound commands
  intro set member
  have rules : ∀ rule ∈ set.rules,
      rule.Sound (start.run commands).graph (start.run commands).roles :=
    fun rule ruled => sound.compiled rule (sound.committed set member rule ruled)
  refine ⟨rules, fun settings resource role refused => ?_⟩
  obtain ⟨rule, ruled, missing⟩ := Install.Settings.plan_unknown refused
  obtain ⟨found, resolved⟩ := (rules rule ruled).registered
  rw [Registry.resolve_ok.mp resolved] at missing
  cases missing

def postsCommands : List Command :=
  [.compileGrant .default "posts" .select "authenticated" (.flag true), .openSet none,
    .declare (.resource "posts"
      [Column.build "id" .serial [.primaryKey], Column.plain "userId" .serial]),
    .compileIntent .default "posts"
      ⟨"authenticated", some (.flag true), some (.condition (.ownsRow ⟨"posts", "userId"⟩))⟩,
    .extend 0 [3, 0, 1, 2], .merge 0 0]

theorem committed_posts_sound :
    ∃ set ∈ (start.run postsCommands).sets, set.rules.map (·.action) =
        [.delete, .select, .insert, .update] ∧
      ∀ rule ∈ set.rules,
        rule.Sound (start.run postsCommands).graph (start.run postsCommands).roles := by
  have committed : (start.run postsCommands).sets.map (·.rules.map (·.action)) =
      [[.delete, .select, .insert, .update]] := rfl
  obtain ⟨set, member, actions⟩ := List.mem_map.mp
    (committed.symm ▸ List.mem_singleton.mpr rfl)
  exact ⟨set, member, actions, (committed_rules_sound postsCommands set member).1⟩

end Build
end RowSecurity

import RowSecurity.Policy.Compiler
import RowSecurity.Proofs.Predicate.Validity
import RowSecurity.Proofs.Role.History

-- What compiling an intent or a grant gives: which rules, or which of its faults.
namespace RowSecurity

inductive ConditionRefused (graph : Graph) (resource role : String) (action : Action)
    (p : Predicate) : PolicyError → Prop where
  | malformed : p.validate graph = .error (.invalidPredicate fault) →
      ConditionRefused graph resource role action p
        (.uncompiled (some action) role resource (.malformed fault))
  | reference : p.validate graph = .error error → (∀ fault, error ≠ .invalidPredicate fault) →
      ConditionRefused graph resource role action p error
  | foreign : p.validate graph = .ok () → p.subject? = some subject → subject ≠ resource →
      ConditionRefused graph resource role action p
        (.uncompiled (some action) role resource (.foreignSubject p subject))

def Grant.Fits (graph : Graph) (resource : String) (grant : Option Grant) : Prop :=
  ∀ p, grant = some (.condition p) → p.Fits graph resource

def Intent.Unfounded (intent : Intent) (source : SelectSource) : Prop :=
  source = .modify ∧ (∃ p, intent.read = some (.condition p)) ∧ intent.modify = none

structure Compilable (graph : Graph) (roles : Registry) (source : SelectSource)
    (resource : String) (intent : Intent) : Prop where
  registered : ∃ role, roles.role? intent.role = some role
  declared : ∃ found, graph.resource? resource = some found
  read : Grant.Fits graph resource intent.read
  modify : Grant.Fits graph resource intent.modify
  founded : ¬ intent.Unfounded source

-- The faults of an intent, each told of only where those before it are absent.
inductive IntentRefused (graph : Graph) (roles : Registry) (source : SelectSource)
    (resource : String) (intent : Intent) : PolicyError → Prop where
  | role : roles.role? intent.role = none →
      IntentRefused graph roles source resource intent (.schema (.unknownRole intent.role))
  | resource : roles.role? intent.role = some role → graph.resource? resource = none →
      IntentRefused graph roles source resource intent (.schema (.unknownResource resource))
  | read : roles.role? intent.role = some role → graph.resource? resource = some found →
      intent.read = some (.condition p) →
      ConditionRefused graph resource intent.role .select p error →
      IntentRefused graph roles source resource intent error
  | modify : roles.role? intent.role = some role → graph.resource? resource = some found →
      Grant.Fits graph resource intent.read → intent.modify = some (.condition p) →
      ConditionRefused graph resource intent.role .insert p error →
      IntentRefused graph roles source resource intent error
  | source : roles.role? intent.role = some role → graph.resource? resource = some found →
      Grant.Fits graph resource intent.read → Grant.Fits graph resource intent.modify →
      intent.Unfounded source →
      IntentRefused graph roles source resource intent
        (.uncompiled (some .select) intent.role resource .noModifyGrant)

-- The condition of the select rule, where there is one. A modify condition takes the place
-- of any grant to read, outright or not.
inductive Selects (source : SelectSource) (intent : Intent) : Option Predicate → Prop where
  | nothing : intent.read = none ∨ intent.read = some (.flag false) → Selects source intent none
  | modify : intent.read ≠ none → intent.read ≠ some (.flag false) → source = .modify →
      intent.modify = some (.condition q) → Selects source intent (some q)
  | everything : intent.read = some (.flag true) →
      (source = .modify → ∀ q, intent.modify ≠ some (.condition q)) →
      Selects source intent (some (.literal true))
  | read : intent.read = some (.condition p) → source = .read → Selects source intent (some p)
  | flag : intent.read = some (.condition p) → source = .modify →
      intent.modify = some (.flag value) → Selects source intent (some (.literal value))

inductive Modifies (intent : Intent) : Option Predicate → Prop where
  | nothing : intent.modify = none ∨ intent.modify = some (.flag false) → Modifies intent none
  | everything : intent.modify = some (.flag true) → Modifies intent (some (.literal true))
  | condition : intent.modify = some (.condition q) → Modifies intent (some q)

namespace Compiler

variable {compiler : Compiler} {resource role : String} {action : Action} {p : Predicate}
  {intent : Intent}

theorem checkPredicate_ok : compiler.checkPredicate resource role action p = .ok () ↔
    p.Fits compiler.graph resource := by
  unfold checkPredicate
  constructor
  · intro checked
    split at checked
    · cases checked
    · cases checked
    · rename_i valid
      refine ⟨valid, fun subject found => ?_⟩
      rw [found] at checked
      apply Classical.byContradiction
      intro foreign
      simp [foreign] at checked
  · rintro ⟨valid, own⟩
    rw [valid]
    cases found : p.subject? with
    | none => rfl
    | some subject => simp [own subject found]

theorem checkPredicate_error : compiler.checkPredicate resource role action p = .error error ↔
    ConditionRefused compiler.graph resource role action p error := by
  unfold checkPredicate
  constructor
  · intro refused
    split at refused
    · rename_i fault invalid
      cases refused
      exact .malformed invalid
    · rename_i other different invalid
      cases refused
      exact .reference invalid different
    · rename_i valid
      split at refused
      · rename_i subject found
        split at refused
        · rename_i foreign
          cases refused
          exact .foreign valid found foreign
        · cases refused
      · cases refused
  · intro refused
    cases refused with
    | malformed invalid => rw [invalid]
    | reference invalid different =>
        rw [invalid]
        cases error with
        | invalidPredicate fault => exact absurd rfl (different fault)
        | _ => rfl
    | foreign valid found foreign => simp [valid, found, foreign]

theorem checkGrant_ok : compiler.checkGrant resource role action grant = .ok () ↔
    Grant.Fits compiler.graph resource grant := by
  unfold checkGrant Grant.Fits
  split
  · simp [checkPredicate_ok]
  · rename_i other
    exact ⟨fun _ p given => (other p given).elim, fun _ => rfl⟩

theorem checkGrant_error : compiler.checkGrant resource role action grant = .error error ↔
    ∃ p, grant = some (.condition p) ∧
      ConditionRefused compiler.graph resource role action p error := by
  unfold checkGrant
  split
  · simp [checkPredicate_error]
  · rename_i other
    constructor
    · intro refused; cases refused
    · rintro ⟨p, given, _⟩; exact (other p given).elim

theorem selects_unique {source : SelectSource} {one two : Option Predicate}
    (first : Selects source intent one) (second : Selects source intent two) : one = two := by
  cases first <;> cases second <;> simp_all

theorem selectPredicate_cases (compiler : Compiler) (resource role : String) (intent : Intent) :
    (∃ select, compiler.selectPredicate resource role intent = .ok select ∧
        Selects compiler.settings.selectSource intent select ∧
        ¬ intent.Unfounded compiler.settings.selectSource) ∨
      (compiler.selectPredicate resource role intent =
          .error (.uncompiled (some .select) role resource .noModifyGrant) ∧
        intent.Unfounded compiler.settings.selectSource) := by
  unfold selectPredicate
  split
  · rename_i absent
    exact .inl ⟨_, rfl, .nothing (.inl absent), by simp [Intent.Unfounded, absent]⟩
  · rename_i denied
    exact .inl ⟨_, rfl, .nothing (.inr denied), by simp [Intent.Unfounded, denied]⟩
  · rename_i read given granted
    split
    · rename_i modify source condition
      exact .inl ⟨_, rfl, .modify (by simp [granted]) (by simpa [granted] using given) source
        condition, by simp [Intent.Unfounded, condition]⟩
    · rename_i value apart
      have outright : value = true := by simpa using given
      rw [outright] at granted
      exact .inl ⟨_, rfl, .everything granted fun source q condition => apart q source condition,
        by simp [Intent.Unfounded, granted]⟩
    · rename_i own source
      exact .inl ⟨_, rfl, .read granted source, by simp [Intent.Unfounded, source]⟩
    · rename_i own flag source outright
      exact .inl ⟨_, rfl, .flag granted source outright, by simp [Intent.Unfounded, outright]⟩
    · rename_i p source absent
      exact .inr ⟨rfl, source, ⟨p, granted⟩, absent⟩

theorem selectPredicate_ok : compiler.selectPredicate resource role intent = .ok select ↔
    Selects compiler.settings.selectSource intent select ∧
      ¬ intent.Unfounded compiler.settings.selectSource := by
  obtain ⟨found, chosen, selects, founded⟩ | ⟨refused, unfounded⟩ :=
    compiler.selectPredicate_cases resource role intent
  · rw [chosen, Except.ok.injEq]
    constructor
    · intro same
      exact same ▸ ⟨selects, founded⟩
    · intro ⟨other, _⟩
      exact selects_unique selects other
  · rw [refused]
    constructor
    · intro chosen
      cases chosen
    · intro ⟨_, founded⟩
      exact absurd unfounded founded

theorem selectPredicate_error :
    compiler.selectPredicate resource role intent = .error error ↔
      intent.Unfounded compiler.settings.selectSource ∧
        error = .uncompiled (some .select) role resource .noModifyGrant := by
  obtain ⟨found, chosen, _, founded⟩ | ⟨refused, unfounded⟩ :=
    compiler.selectPredicate_cases resource role intent
  · rw [chosen]
    constructor
    · intro refused
      cases refused
    · intro ⟨unfounded, _⟩
      exact absurd unfounded founded
  · rw [refused, Except.error.injEq, eq_comm]
    exact ⟨fun told => ⟨unfounded, told⟩, fun told => told.2⟩

theorem modifyPredicate_exact :
    modifyPredicate intent = changed ↔ Modifies intent changed := by
  unfold modifyPredicate
  constructor
  · rintro rfl
    split
    · rename_i outright; exact .everything outright
    · rename_i p condition; exact .condition condition
    · rename_i denied; exact .nothing (.inr denied)
    · rename_i absent; exact .nothing (.inl absent)
  · intro modifies
    cases modifies with
    | nothing absent => rcases absent with absent | absent <;> rw [absent]
    | everything outright => rw [outright]
    | condition condition => rw [condition]

section Reached

-- The registry finds a role under its own name only, so rules name the role asked for.
variable (keyed : compiler.roles.Keyed)
include keyed

theorem compileIntent_ok : compiler.compileIntent resource intent = .ok rules ↔
    Compilable compiler.graph compiler.roles compiler.settings.selectSource resource intent ∧
      ∃ select changed, Selects compiler.settings.selectSource intent select ∧
        Modifies intent changed ∧ rules = selectRules resource intent.role select ++
          modifyRules resource intent.role changed := by
  unfold compileIntent
  simp only [bind_ok, ofSchema_ok, Registry.resolve_ok, Graph.resolve_ok]
  constructor
  · rintro ⟨role, registered, found, declared, ⟨⟩, read, ⟨⟩, modify, select, chosen, equal⟩
    obtain ⟨selects, founded⟩ := selectPredicate_ok.mp chosen
    rw [keyed _ _ registered] at equal
    cases equal
    exact ⟨⟨⟨role, registered⟩, ⟨found, declared⟩, checkGrant_ok.mp read, checkGrant_ok.mp modify,
      founded⟩, select, _, selects, modifyPredicate_exact.mp rfl, rfl⟩
  · rintro ⟨⟨⟨role, registered⟩, ⟨found, declared⟩, read, modify, founded⟩, select, changed,
      selects, modifies, rfl⟩
    refine ⟨role, registered, found, declared, (), checkGrant_ok.mpr read, (),
      checkGrant_ok.mpr modify, select, selectPredicate_ok.mpr ⟨selects, founded⟩, ?_⟩
    rw [keyed _ _ registered, modifyPredicate_exact.mpr modifies]
    rfl

theorem compileIntent_error : compiler.compileIntent resource intent = .error error ↔
    IntentRefused compiler.graph compiler.roles compiler.settings.selectSource resource intent
      error := by
  unfold compileIntent
  simp only [bind_error, ofSchema_ok, ofSchema_error, Registry.resolve_ok,
    Registry.resolve_error, Graph.resolve_ok, Graph.resolve_error]
  constructor
  · rintro (⟨_, ⟨missing, rfl⟩, rfl⟩ | ⟨role, registered, later⟩)
    · exact .role missing
    · rw [keyed _ _ registered] at later
      rcases later with ⟨_, ⟨missing, rfl⟩, rfl⟩ | ⟨found, declared, later⟩
      · exact .resource registered missing
      · rcases later with refused | ⟨⟨⟩, read, later⟩
        · obtain ⟨p, given, refused⟩ := checkGrant_error.mp refused
          exact .read registered declared given refused
        · have readFits := checkGrant_ok.mp read
          rcases later with refused | ⟨⟨⟩, modify, later⟩
          · obtain ⟨p, given, refused⟩ := checkGrant_error.mp refused
            exact .modify registered declared readFits given refused
          · have modifyFits := checkGrant_ok.mp modify
            rcases later with refused | ⟨select, chosen, later⟩
            · obtain ⟨unfounded, rfl⟩ := selectPredicate_error.mp refused
              exact .source registered declared readFits modifyFits unfounded
            · cases later
  · intro refused
    cases refused with
    | role missing => exact .inl ⟨_, ⟨missing, rfl⟩, rfl⟩
    | resource registered missing =>
        exact .inr ⟨_, registered, .inl ⟨_, ⟨missing, rfl⟩, rfl⟩⟩
    | read registered declared given refused =>
        refine .inr ⟨_, registered, .inr ⟨_, declared, .inl ?_⟩⟩
        rw [keyed _ _ registered]
        exact checkGrant_error.mpr ⟨_, given, refused⟩
    | modify registered declared readFits given refused =>
        refine .inr ⟨_, registered, .inr ⟨_, declared, .inr ⟨(), checkGrant_ok.mpr readFits,
          .inl ?_⟩⟩⟩
        rw [keyed _ _ registered]
        exact checkGrant_error.mpr ⟨_, given, refused⟩
    | source registered declared readFits modifyFits unfounded =>
        refine .inr ⟨_, registered, .inr ⟨_, declared, .inr ⟨(), checkGrant_ok.mpr readFits,
          .inr ⟨(), checkGrant_ok.mpr modifyFits, .inl ?_⟩⟩⟩⟩
        rw [keyed _ _ registered]
        exact selectPredicate_error.mpr ⟨unfounded, rfl⟩

theorem compileGrant_ok :
    compiler.compileGrant resource action role grant = .ok rule ↔
      (∃ found, compiler.roles.role? role = some found) ∧
        (∃ held, compiler.graph.resource? resource = some held) ∧
        ∃ p, p.Fits compiler.graph resource ∧ rule = .of resource action role p ∧
          (grant = .condition p ∨ ∃ value, grant = .flag value ∧ p = .literal value) := by
  unfold compileGrant
  simp only [bind_ok, ofSchema_ok, Registry.resolve_ok, Graph.resolve_ok]
  constructor
  · rintro ⟨found, registered, held, declared, compiled⟩
    rw [keyed _ _ registered] at compiled
    refine ⟨⟨found, registered⟩, ⟨held, declared⟩, ?_⟩
    cases grant with
    | flag value =>
        cases compiled
        exact ⟨_, Predicate.literal_fits _ _ value, rfl, .inr ⟨value, rfl, rfl⟩⟩
    | condition p =>
        obtain ⟨⟨⟩, checked, equal⟩ := bind_ok.mp compiled
        cases equal
        exact ⟨p, checkPredicate_ok.mp checked, rfl, .inl rfl⟩
  · rintro ⟨⟨found, registered⟩, ⟨held, declared⟩, p, fits, rfl, given⟩
    refine ⟨found, registered, held, declared, ?_⟩
    rw [keyed _ _ registered]
    rcases given with rfl | ⟨value, rfl, rfl⟩
    · exact bind_ok.mpr ⟨(), checkPredicate_ok.mpr fits, rfl⟩
    · rfl

end Reached

end Compiler

theorem condition_refused_unfit (refused : ConditionRefused graph resource role action p error) :
    ¬ p.Fits graph resource := by
  rintro ⟨valid, own⟩
  cases refused with
  | malformed invalid => rw [valid] at invalid; cases invalid
  | reference invalid _ => rw [valid] at invalid; cases invalid
  | foreign _ found apart => exact apart (own _ found)

theorem intent_refused_uncompilable
    (refused : IntentRefused graph roles source resource intent error) :
    ¬ Compilable graph roles source resource intent := by
  rintro ⟨⟨role, registered⟩, ⟨found, declared⟩, read, modify, founded⟩
  cases refused with
  | role missing => rw [registered] at missing; cases missing
  | resource _ missing => rw [declared] at missing; cases missing
  | read _ _ given refused => exact condition_refused_unfit refused (read _ given)
  | modify _ _ _ given refused => exact condition_refused_unfit refused (modify _ given)
  | source _ _ _ _ unfounded => exact founded unfounded

-- Compiling an intent succeeds exactly when nothing is wrong with it, gives the rules that
-- its two grants stand for, and otherwise tells of the first thing that is wrong.
theorem compileIntent_exact (path : roles.Reached) (graph : Graph) (settings : CompilerSettings)
    (resource : String) (intent : Intent) :
    ((∃ rules, (Compiler.mk graph roles settings).compileIntent resource intent = .ok rules) ↔
      Compilable graph roles settings.selectSource resource intent) ∧
    (∀ rules, (Compiler.mk graph roles settings).compileIntent resource intent = .ok rules ↔
      Compilable graph roles settings.selectSource resource intent ∧
        ∃ select changed, Selects settings.selectSource intent select ∧
          Modifies intent changed ∧
          rules = (select.toList.map fun p => ⟨resource, .select, intent.role, p, .using⟩) ++
            changed.toList.flatMap fun q =>
              [⟨resource, .insert, intent.role, q, .check⟩,
                ⟨resource, .update, intent.role, q, .check⟩,
                ⟨resource, .delete, intent.role, q, .using⟩]) ∧
    ∀ error, (Compiler.mk graph roles settings).compileIntent resource intent = .error error ↔
      IntentRefused graph roles settings.selectSource resource intent error := by
  have keyed := Registry.reached_keyed path
  have failed : ∀ error,
      (Compiler.mk graph roles settings).compileIntent resource intent = .error error ↔
        IntentRefused graph roles settings.selectSource resource intent error :=
    fun error => Compiler.compileIntent_error keyed
  refine ⟨⟨?_, ?_⟩, ?_, failed⟩
  · rintro ⟨rules, compiled⟩
    exact ((Compiler.compileIntent_ok keyed).mp compiled).1
  · intro compilable
    cases outcome : (Compiler.mk graph roles settings).compileIntent resource intent with
    | ok rules => exact ⟨rules, rfl⟩
    | error error =>
        exact absurd compilable (intent_refused_uncompilable ((failed error).mp outcome))
  · intro rules
    refine (Compiler.compileIntent_ok keyed).trans (and_congr_right fun _ => ?_)
    refine exists_congr fun select => exists_congr fun changed => ?_
    cases select <;> cases changed <;> rfl

def postsGraph : Graph :=
  Graph.empty.after (.resource "posts"
    [Column.build "id" .serial [.primaryKey], Column.plain "userId" .serial])

def ownPosts : Predicate := .ownsRow ⟨"posts", "userId"⟩

theorem compileIntent_own_posts :
    Registry.default.Reached ∧
      (Compiler.mk postsGraph .default .default).compileIntent "posts"
          ⟨"authenticated", some (.flag true), some (.condition ownPosts)⟩ =
        .ok [⟨"posts", .select, "authenticated", ownPosts, .using⟩,
          ⟨"posts", .insert, "authenticated", ownPosts, .check⟩,
          ⟨"posts", .update, "authenticated", ownPosts, .check⟩,
          ⟨"posts", .delete, "authenticated", ownPosts, .using⟩] := by
  have fits : ownPosts.Fits postsGraph "posts" := ⟨rfl, fun _ found => by cases found; rfl⟩
  have compilable : Compilable postsGraph .default .modify "posts"
      ⟨"authenticated", some (.flag true), some (.condition ownPosts)⟩ :=
    { registered := ⟨_, rfl⟩
      declared := ⟨_, rfl⟩
      read := fun p given => by cases given
      modify := fun p given => by cases given; exact fits
      founded := fun unfounded => by cases unfounded.2.2 }
  refine ⟨.refl, ((compileIntent_exact .refl postsGraph .default "posts" _).2.1 _).mpr ?_⟩
  exact ⟨compilable, some ownPosts, some ownPosts,
    .modify (fun absent => by cases absent) (fun absent => by cases absent) rfl rfl,
    .condition rfl, rfl⟩

end RowSecurity

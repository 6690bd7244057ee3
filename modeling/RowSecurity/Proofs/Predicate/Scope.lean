import RowSecurity.Predicate.Scope
import RowSecurity.Proofs.Predicate.WellFormed

-- Leaves that a scope makes against leaves that are valid, and the row's key that a scope infers
-- against the keys by which its rows could be joined.
namespace RowSecurity

namespace Resource

variable {resource : Resource} {declared : List Resource}

theorem requireColumn_ok {name : String} :
    resource.requireColumn name = .ok () ↔ name ∈ resource.columns.map Column.name := by
  rw [← hasColumn_exact, requireColumn]
  cases resource.hasColumn name <;> simp

theorem primaryKey?_single {key : Column} :
    resource.primaryKey? = some key ↔ resource.columns.filter (·.isPrimaryKey) = [key] := by
  unfold primaryKey?
  split
  · rename_i held only
    simp [only]
  · rename_i several
    exact ⟨nofun, fun only => absurd only (several key)⟩

theorem joins_named (sound : resource.Sound declared) {name target : String} :
    (∃ column, resource.column? name = some column ∧ resource.Joins column target) ↔
      name ∈ (resource.relationshipsTo target).map Relationship.column ∨
        (resource.id = target ∧ name ∈ (resource.columns.filter (·.isPrimaryKey)).map Column.name) := by
  constructor
  · rintro ⟨column, held, ⟨edge, related, aimed⟩ | ⟨own, key⟩⟩
    · obtain ⟨_, named⟩ := (column?_exact sound).mp held
      obtain ⟨there, same⟩ := (relationship?_exact sound).mp related
      refine .inl (List.mem_map.mpr ⟨edge, List.mem_filter.mpr ⟨there, ?_⟩, same.trans named⟩)
      exact beq_iff_eq.mpr aimed
    · obtain ⟨there, named⟩ := (column?_exact sound).mp held
      exact .inr ⟨own, List.mem_map.mpr ⟨column, List.mem_filter.mpr ⟨there, key⟩, named⟩⟩
  · rintro (reference | ⟨own, key⟩)
    · obtain ⟨edge, aimed, rfl⟩ := List.mem_map.mp reference
      obtain ⟨there, same⟩ := List.mem_filter.mp aimed
      obtain ⟨column, held, named⟩ := List.mem_map.mp (sound.column edge there)
      refine ⟨column, (column?_exact sound).mpr ⟨held, named⟩, .inl ⟨edge, ?_, ?_⟩⟩
      · exact (relationship?_exact sound).mpr ⟨there, named.symm⟩
      · exact beq_iff_eq.mp same
    · obtain ⟨column, inside, named⟩ := List.mem_map.mp key
      obtain ⟨held, primary⟩ := List.mem_filter.mp inside
      exact ⟨column, (column?_exact sound).mpr ⟨held, named⟩, .inr ⟨own, primary⟩⟩

end Resource

namespace RowScope

structure Placed (scope : RowScope) : Prop where
  sound : scope.graph.Sound
  declared : scope.resource ∈ scope.graph.resources

variable {scope : RowScope} {link : LinkSide} {rowKey target : String} {p : Predicate}

theorem of_declared {graph : Graph} {id : String} (sound : graph.Sound)
    (declared : id ∈ graph.resources.map Resource.id) :
    ∃ scope, RowScope.of graph id = .ok scope ∧ scope.Placed ∧ scope.graph = graph ∧
      scope.resource.id = id := by
  obtain ⟨resource, there, named⟩ := List.mem_map.mp declared
  have found := Graph.resolve_ok.mpr ((Graph.resource?_carries sound).mpr ⟨there, named⟩)
  refine ⟨⟨graph, resource⟩, ?_, ⟨sound, there⟩, rfl, named⟩
  rw [RowScope.of, found]

theorem Placed.resolve (placed : scope.Placed) {resource : Resource} :
    scope.graph.resolve scope.resource.id = .ok resource ↔ resource = scope.resource := by
  have found := (Graph.resource?_carries placed.sound).mpr ⟨placed.declared, rfl⟩
  rw [Graph.resolve_ok, found, Option.some.injEq, eq_comm]

theorem Placed.held (placed : scope.Placed) : scope.resource.Sound scope.graph.resources :=
  placed.sound.resources scope.resource placed.declared

theorem linkTarget_exact : scope.linkTarget link = .ok target ↔
    ∃ source edge, scope.graph.resource? link.resource = some source ∧
      link.linkKey ∈ source.columns.map Column.name ∧
      link.identityKey ∈ source.columns.map Column.name ∧
      source.relationship? link.linkKey = some edge ∧ edge.target = target := by
  rw [linkTarget, bind_ok]
  constructor
  · rintro ⟨source, resolved, rest⟩
    obtain ⟨_, linkKey, rest⟩ := bind_ok.mp rest
    obtain ⟨_, identity, rest⟩ := bind_ok.mp rest
    have found := Graph.resolve_ok.mp (ofSchema_ok.mp resolved)
    have linkKey := Resource.requireColumn_ok.mp linkKey
    have identity := Resource.requireColumn_ok.mp identity
    cases related : source.relationship? link.linkKey with
    | none => rw [related] at rest; cases rest
    | some edge =>
        rw [related] at rest
        cases rest
        exact ⟨source, edge, found, linkKey, identity, related, rfl⟩
  · rintro ⟨source, edge, found, linkKey, identity, related, rfl⟩
    refine ⟨source, ofSchema_ok.mpr (Graph.resolve_ok.mpr found), ?_⟩
    refine bind_ok.mpr ⟨(), Resource.requireColumn_ok.mpr linkKey, ?_⟩
    refine bind_ok.mpr ⟨(), Resource.requireColumn_ok.mpr identity, ?_⟩
    rw [related]
    rfl

theorem membership_valid (placed : scope.Placed) :
    (scope.membership rowKey link).validate scope.graph = .ok () ↔
      ∃ target, scope.linkTarget link = .ok target ∧
        ∃ column, scope.resource.column? rowKey = some column ∧
          scope.resource.Joins column target := by
  rw [Membership.validate_exact]
  constructor
  · rintro ⟨identity, linkKey, edge, resource, column, identityAt, linkKeyAt, edgeAt, resourceAt,
      columnAt, joins⟩
    obtain ⟨source, found, related⟩ := Graph.relationship?_exact.mp edgeAt
    cases placed.resolve.mp resourceAt
    have linkKey := (Graph.resolveColumn_found found).mp ⟨linkKey, linkKeyAt⟩
    have identity := (Graph.resolveColumn_found found).mp ⟨identity, identityAt⟩
    have aimed := linkTarget_exact.mpr ⟨source, edge, found, linkKey, identity, related, rfl⟩
    exact ⟨edge.target, aimed, column, columnAt, joins⟩
  · rintro ⟨target, aimed, column, columnAt, joins⟩
    obtain ⟨source, edge, found, linkKey, identity, related, rfl⟩ := linkTarget_exact.mp aimed
    obtain ⟨linkKey, linkKeyAt⟩ := (Graph.resolveColumn_found found).mpr linkKey
    obtain ⟨identity, identityAt⟩ := (Graph.resolveColumn_found found).mpr identity
    exact ⟨identity, linkKey, edge, scope.resource, column, identityAt, linkKeyAt,
      Graph.relationship?_exact.mpr ⟨source, found, related⟩, placed.resolve.mpr rfl, columnAt,
      joins⟩

theorem ownsRow_exact (placed : scope.Placed) {column : String} :
    scope.ownsRow column = .ok p ↔
      p = .ownsRow ⟨scope.resource.id, column⟩ ∧ p.validate scope.graph = .ok () := by
  have found := Graph.resolve_ok.mp (placed.resolve.mpr rfl)
  have valid : (Predicate.ownsRow ⟨scope.resource.id, column⟩).validate scope.graph = .ok () ↔
      scope.resource.requireColumn column = .ok () := by
    rw [Resource.requireColumn_ok, ← Graph.resolveColumn_found found, Predicate.validate]
    cases scope.graph.resolveColumn scope.resource.id column <;> simp
  rw [ownsRow, bind_ok]
  constructor
  · rintro ⟨_, required, made⟩
    cases made
    exact ⟨rfl, valid.mpr required⟩
  · rintro ⟨rfl, accepted⟩
    exact ⟨(), valid.mp accepted, rfl⟩

theorem memberOfJoinOn_exact (placed : scope.Placed) :
    scope.memberOfJoinOn rowKey link = .ok p ↔
      p = .memberOfJoin (scope.membership rowKey link) ∧ p.validate scope.graph = .ok () := by
  rw [memberOfJoinOn, bind_ok]
  constructor
  · rintro ⟨_, _, rest⟩
    obtain ⟨_, _, rest⟩ := bind_ok.mp rest
    obtain ⟨_, valid, made⟩ := bind_ok.mp rest
    cases made
    exact ⟨rfl, valid⟩
  · rintro ⟨rfl, valid⟩
    obtain ⟨target, aimed, column, columnAt, _⟩ := (membership_valid placed).mp valid
    have held := Option.isSome_iff_exists.mpr ⟨column, columnAt⟩
    have required := Resource.requireColumn_ok.mpr (Resource.hasColumn_exact.mp held)
    exact ⟨target, aimed, bind_ok.mpr ⟨(), required, bind_ok.mpr ⟨(), valid, rfl⟩⟩⟩

theorem memberOfJoin_ok : scope.memberOfJoin link = .ok p ↔
    ∃ target, scope.linkTarget link = .ok target ∧ ∃ rowKey, scope.rowKey target = .ok rowKey ∧
      p = .memberOfJoin (scope.membership rowKey link) := by
  rw [memberOfJoin, bind_ok]
  refine exists_congr fun target => and_congr_right fun _ => ?_
  rw [bind_ok]
  refine exists_congr fun rowKey => and_congr_right fun _ => ?_
  exact ⟨fun made => by cases made; rfl, fun made => by cases made; rfl⟩

theorem rowKey_joins (placed : scope.Placed) (inferred : scope.rowKey target = .ok rowKey) :
    ∃ column, scope.resource.column? rowKey = some column ∧ scope.resource.Joins column target := by
  rw [Resource.joins_named placed.held]
  unfold RowScope.rowKey at inferred
  split at inferred
  · rename_i only references
    cases inferred
    rw [references]
    exact .inl (List.mem_singleton_self only.column)
  · cases inferred
  · split at inferred
    · rename_i key keyAt
      split at inferred
      · rename_i own
        cases inferred
        rw [Resource.primaryKey?_single.mp keyAt]
        exact .inr ⟨beq_iff_eq.mp own, List.mem_singleton_self key.name⟩
      · cases inferred
    · cases inferred

-- Whatever is declared has its scope, and a scope makes exactly the leaves about its resource
-- that are valid. A membership whose key it chooses itself is among those it makes by that key.
theorem made_exact {graph : Graph} (path : graph.Reached) {id : String}
    (declared : id ∈ graph.resources.map Resource.id) :
    ∃ scope, RowScope.of graph id = .ok scope ∧
      (∀ column p, scope.ownsRow column = .ok p ↔
        p = .ownsRow ⟨id, column⟩ ∧ p.validate graph = .ok ()) ∧
      (∀ rowKey link p, scope.memberOfJoinOn rowKey link = .ok p ↔
        p = .memberOfJoin ⟨id, rowKey, link.resource, link.linkKey, link.identityKey⟩ ∧
          p.validate graph = .ok ()) ∧
      ∀ link p, scope.memberOfJoin link = .ok p →
        p.validate graph = .ok () ∧ p.subject? = some id ∧
          ∃ m, p = .memberOfJoin m ∧ scope.memberOfJoinOn m.rowKey link = .ok p := by
  have sound := Graph.reaches_sound Graph.empty_sound path
  obtain ⟨scope, made, placed, rfl, rfl⟩ := of_declared sound declared
  refine ⟨scope, made, fun _ _ => ownsRow_exact placed, fun _ _ _ => memberOfJoinOn_exact placed, ?_⟩
  intro link p inferred
  obtain ⟨target, aimed, rowKey, chosen, rfl⟩ := memberOfJoin_ok.mp inferred
  have valid := (membership_valid placed).mpr ⟨target, aimed, rowKey_joins placed chosen⟩
  exact ⟨valid, rfl, scope.membership rowKey link, rfl, (memberOfJoinOn_exact placed).mpr ⟨rfl, valid⟩⟩

def folderBatch : Batch :=
  (Batch.empty.resource "folders" [Column.build "id" .serial [.primaryKey],
      Column.plain "parent" .integer, Column.plain "title" .text])
    |>.resource "members" [Column.build "folder" .integer [.primaryKey],
      Column.build "user" .integer [.primaryKey]]
    |>.resource "moves" [Column.plain "source" .integer, Column.plain "target" .integer]
    |>.relationship ⟨"folders", "parent", "folders"⟩
    |>.relationship ⟨"members", "folder", "folders"⟩
    |>.relationship ⟨"moves", "source", "folders"⟩
    |>.relationship ⟨"moves", "target", "folders"⟩

def folderGraph : Graph := Graph.empty.after (.batch folderBatch)

theorem folderGraph_reached : folderGraph.Reached := .step _ .refl

def folderMembers : LinkSide := ⟨"members", "folder", "user"⟩

theorem folders_made :
    folderGraph.Reached ∧ "folders" ∈ folderGraph.resources.map Resource.id ∧
      ∃ scope, RowScope.of folderGraph "folders" = .ok scope ∧
        scope.memberOfJoinOn "id" folderMembers =
          .ok (.memberOfJoin ⟨"folders", "id", "members", "folder", "user"⟩) ∧
        scope.memberOfJoinOn "parent" folderMembers =
          .ok (.memberOfJoin ⟨"folders", "parent", "members", "folder", "user"⟩) ∧
        ∀ p, scope.memberOfJoinOn "title" folderMembers ≠ .ok p := by
  have declared : "folders" ∈ folderGraph.resources.map Resource.id := List.mem_cons_self
  obtain ⟨scope, made, _, joined, _⟩ := made_exact folderGraph_reached declared
  refine ⟨folderGraph_reached, declared, scope, made, ?_, ?_, ?_⟩
  · exact (joined _ _ _).mpr ⟨rfl, rfl⟩
  · exact (joined _ _ _).mpr ⟨rfl, rfl⟩
  · intro p accepted
    obtain ⟨rfl, valid⟩ := (joined _ _ _).mp accepted
    cases valid

def Accepts (scope : RowScope) (link : LinkSide) (rowKey : String) : Prop :=
  ∃ p, scope.memberOfJoinOn rowKey link = .ok p

-- A key is inferred exactly when there is only one, and where there are several the refusal
-- names two of them.
structure Unguessed (scope : RowScope) (link : LinkSide) : Prop where
  inferred : ∀ p, scope.memberOfJoin link = .ok p ↔
    ∃ rowKey, p = .memberOfJoin (scope.membership rowKey link) ∧
      ∀ other, scope.Accepts link other ↔ other = rowKey
  asked : ∀ first second, first ≠ second → scope.Accepts link first → scope.Accepts link second →
    ∃ target one another, one ≠ another ∧ scope.Accepts link one ∧ scope.Accepts link another ∧
      scope.memberOfJoin link =
        .error (.invalidPredicate (.ambiguousRowKey scope.resource.id target one another))

-- The rows are those of the link's target, and reference each other by one column that is not
-- their own key.
structure Overlooks (scope : RowScope) (link : LinkSide) (parent key : String) : Prop where
  aimed : scope.linkTarget link = .ok scope.resource.id
  reference : (scope.resource.relationshipsTo scope.resource.id).map Relationship.column = [parent]
  ownKey : scope.resource.primaryKey?.map Column.name = some key
  apart : parent ≠ key

theorem accepts_joins (placed : scope.Placed) : scope.Accepts link rowKey ↔
    ∃ target, scope.linkTarget link = .ok target ∧
      ∃ column, scope.resource.column? rowKey = some column ∧
        scope.resource.Joins column target := by
  rw [← membership_valid placed]
  constructor
  · rintro ⟨p, made⟩
    obtain ⟨rfl, valid⟩ := (memberOfJoinOn_exact placed).mp made
    exact valid
  · intro valid
    exact ⟨_, (memberOfJoinOn_exact placed).mpr ⟨rfl, valid⟩⟩

theorem own_key (placed : scope.Placed) (aimed : scope.linkTarget link = .ok target)
    (own : scope.resource.id = target) : ∃ key, scope.resource.primaryKey? = some key := by
  obtain ⟨source, edge, found, _, _, related, rfl⟩ := linkTarget_exact.mp aimed
  obtain ⟨there, _⟩ := (Graph.resource?_carries placed.sound).mp found
  obtain ⟨inside, _⟩ :=
    (Resource.relationship?_exact (placed.sound.resources source there)).mp related
  have single := Graph.target_single placed.sound there inside placed.declared own
  exact Option.isSome_iff_exists.mp (Resource.primaryKey?_exact.mpr single)

theorem accepts_exact (placed : scope.Placed) (aimed : scope.linkTarget link = .ok target) :
    scope.Accepts link rowKey ↔
      rowKey ∈ (scope.resource.relationshipsTo target).map Relationship.column ∨
        (scope.resource.id = target ∧
          scope.resource.primaryKey?.map Column.name = some rowKey) := by
  have joins : scope.Accepts link rowKey ↔ ∃ column, scope.resource.column? rowKey = some column ∧
      scope.resource.Joins column target := by
    rw [accepts_joins placed, aimed]
    simp
  rw [joins, Resource.joins_named placed.held]
  refine or_congr_right (and_congr_right fun own => ?_)
  obtain ⟨key, keyAt⟩ := own_key placed aimed own
  rw [Resource.primaryKey?_single.mp keyAt, keyAt]
  simp [eq_comm]

theorem references_distinct (placed : scope.Placed) (target : String) :
    ((scope.resource.relationshipsTo target).map Relationship.column).Nodup :=
  (List.filter_sublist.map Relationship.column).nodup placed.held.single

theorem memberOfJoin_chosen (aimed : scope.linkTarget link = .ok target)
    (chosen : scope.rowKey target = .ok rowKey) :
    scope.memberOfJoin link = .ok (.memberOfJoin (scope.membership rowKey link)) :=
  memberOfJoin_ok.mpr ⟨target, aimed, rowKey, chosen, rfl⟩

theorem memberOfJoin_refused {error : PolicyError} (aimed : scope.linkTarget link = .ok target)
    (refused : scope.rowKey target = .error error) : scope.memberOfJoin link = .error error :=
  bind_error.mpr (.inr ⟨target, aimed, bind_error.mpr (.inl refused)⟩)

theorem inferred_refused {error : PolicyError} (refused : scope.memberOfJoin link = .error error)
    (undecided : ∀ rowKey, ¬ ∀ other, scope.Accepts link other ↔ other = rowKey) (p : Predicate) :
    scope.memberOfJoin link = .ok p ↔ ∃ rowKey, p = .memberOfJoin (scope.membership rowKey link) ∧
      ∀ other, scope.Accepts link other ↔ other = rowKey := by
  rw [refused]
  constructor
  · exact nofun
  · rintro ⟨rowKey, _, only⟩
    exact absurd only (undecided rowKey)

theorem unguessed_refused {error : PolicyError} (refused : scope.memberOfJoin link = .error error)
    (none : ∀ rowKey, ¬ scope.Accepts link rowKey) : scope.Unguessed link := by
  refine ⟨inferred_refused refused fun rowKey only => ?_, fun first _ _ accepted => ?_⟩
  · exact none rowKey ((only rowKey).mpr rfl)
  · exact absurd accepted (none first)

theorem unguessed_only
    (made : scope.memberOfJoin link = .ok (.memberOfJoin (scope.membership rowKey link)))
    (only : ∀ other, scope.Accepts link other ↔ other = rowKey) : scope.Unguessed link := by
  constructor
  · intro p
    rw [made]
    constructor
    · intro same
      exact ⟨rowKey, (Except.ok.inj same).symm, only⟩
    · rintro ⟨key, rfl, also⟩
      rw [(also rowKey).mp ((only rowKey).mpr rfl)]
  · intro first second apart one another
    exact absurd (((only first).mp one).trans ((only second).mp another).symm) apart

theorem unguessed_asked {one another : String}
    (refused : scope.memberOfJoin link =
      .error (.invalidPredicate (.ambiguousRowKey scope.resource.id target one another)))
    (apart : one ≠ another) (first : scope.Accepts link one) (second : scope.Accepts link another) :
    scope.Unguessed link := by
  refine ⟨inferred_refused refused fun rowKey only => ?_, fun _ _ _ _ _ => ?_⟩
  · exact apart (((only one).mp first).trans ((only another).mp second).symm)
  · exact ⟨target, one, another, apart, first, second, refused⟩

theorem overlooked (placed : scope.Placed) {parent key : String}
    (overlooks : scope.Overlooks link parent key) :
    scope.memberOfJoin link = .ok (.memberOfJoin (scope.membership parent link)) ∧
      ∀ other, scope.Accepts link other ↔ other = parent ∨ other = key := by
  constructor
  · obtain ⟨only, references, rfl⟩ := List.map_eq_singleton_iff.mp overlooks.reference
    refine memberOfJoin_chosen overlooks.aimed ?_
    rw [RowScope.rowKey, references]
  · intro other
    rw [accepts_exact placed overlooks.aimed, overlooks.reference, overlooks.ownKey]
    simp [eq_comm]

theorem unguessed_unrelated (placed : scope.Placed) (aimed : scope.linkTarget link = .ok target)
    (references : scope.resource.relationshipsTo target = []) : scope.Unguessed link := by
  by_cases own : scope.resource.id = target
  · obtain ⟨key, keyAt⟩ := own_key placed aimed own
    have chosen : scope.rowKey target = .ok key.name := by
      simp [RowScope.rowKey, references, keyAt, own]
    refine unguessed_only (memberOfJoin_chosen aimed chosen) fun other => ?_
    rw [accepts_exact placed aimed, references, keyAt]
    simp [own, eq_comm]
  · have refused : scope.rowKey target =
        .error (.schema (.noRelationshipPath scope.resource.id target)) := by
      rw [RowScope.rowKey, references]
      cases scope.resource.primaryKey? <;> simp [own]
    refine unguessed_refused (memberOfJoin_refused aimed refused) fun rowKey accepted => ?_
    rw [accepts_exact placed aimed, references] at accepted
    simp [own] at accepted

theorem unguessed_related (placed : scope.Placed) (aimed : scope.linkTarget link = .ok target)
    (references : scope.resource.relationshipsTo target = [only])
    (seen : ∀ parent key, ¬ scope.Overlooks link parent key) : scope.Unguessed link := by
  have chosen : scope.rowKey target = .ok only.column := by rw [RowScope.rowKey, references]
  refine unguessed_only (memberOfJoin_chosen aimed chosen) fun other => ?_
  rw [accepts_exact placed aimed, references, List.map_singleton, List.mem_singleton]
  refine or_iff_left_of_imp ?_
  rintro ⟨rfl, ownKey⟩
  by_cases same : only.column = other
  · exact same.symm
  · exact absurd ⟨aimed, by rw [references, List.map_singleton], ownKey, same⟩ (seen _ _)

theorem unguessed_several (placed : scope.Placed) (aimed : scope.linkTarget link = .ok target)
    (references : scope.resource.relationshipsTo target = first :: second :: rest) :
    scope.Unguessed link := by
  have distinct := references_distinct placed target
  rw [references] at distinct
  have apart : first.column ≠ second.column := by
    intro same
    simp [same] at distinct
  have accepts : ∀ edge ∈ scope.resource.relationshipsTo target, scope.Accepts link edge.column :=
    fun edge member => (accepts_exact placed aimed).mpr (.inl (List.mem_map_of_mem member))
  rw [references] at accepts
  have refused : scope.rowKey target = .error (.invalidPredicate
      (.ambiguousRowKey scope.resource.id target first.column second.column)) := by
    rw [RowScope.rowKey, references]
  refine unguessed_asked (memberOfJoin_refused aimed refused) apart ?_ ?_
  · exact accepts first List.mem_cons_self
  · exact accepts second (List.mem_cons_of_mem _ List.mem_cons_self)

-- One case for each way in which the references to the target may stand.
theorem unguessed_unless (placed : scope.Placed)
    (seen : ∀ parent key, ¬ scope.Overlooks link parent key) : scope.Unguessed link := by
  cases aimed : scope.linkTarget link with
  | error error =>
      have refused : scope.memberOfJoin link = .error error := bind_error.mpr (.inl aimed)
      refine unguessed_refused refused fun rowKey accepted => ?_
      obtain ⟨target, resolved, _⟩ := (accepts_joins placed).mp accepted
      cases aimed.symm.trans resolved
  | ok target =>
      cases references : scope.resource.relationshipsTo target with
      | nil => exact unguessed_unrelated placed aimed references
      | cons first rest =>
          cases rest with
          | nil => exact unguessed_related placed aimed references seen
          | cons second rest => exact unguessed_several placed aimed references

-- The row's key is never guessed, except where rows reference their own kind: a folder is then
-- joined through the folder that it stands in, although it has a key by which to join it.
theorem row_key_inferred_exact {graph : Graph} (path : graph.Reached) {id : String}
    (declared : id ∈ graph.resources.map Resource.id) (link : LinkSide) :
    ∃ scope, RowScope.of graph id = .ok scope ∧
      (scope.Unguessed link ↔ ∀ parent key, ¬ scope.Overlooks link parent key) ∧
      ∀ parent key, scope.Overlooks link parent key →
        scope.memberOfJoin link = .ok (.memberOfJoin (scope.membership parent link)) ∧
          ∀ other, scope.Accepts link other ↔ other = parent ∨ other = key := by
  have sound := Graph.reaches_sound Graph.empty_sound path
  obtain ⟨scope, made, placed, _, _⟩ := of_declared sound declared
  refine ⟨scope, made, ⟨?_, unguessed_unless placed⟩, fun _ _ => overlooked placed⟩
  intro unguessed parent key overlooks
  obtain ⟨inferred, accepts⟩ := overlooked placed overlooks
  obtain ⟨rowKey, _, only⟩ := (unguessed.inferred _).mp inferred
  have parentOnly := (only parent).mp ((accepts parent).mpr (.inl rfl))
  have keyOnly := (only key).mp ((accepts key).mpr (.inr rfl))
  exact overlooks.apart (parentOnly.trans keyOnly.symm)

theorem move_key_asked :
    folderGraph.Reached ∧ "moves" ∈ folderGraph.resources.map Resource.id ∧
      ∃ scope, RowScope.of folderGraph "moves" = .ok scope ∧ scope.Unguessed folderMembers ∧
        scope.memberOfJoin folderMembers =
          .error (.invalidPredicate (.ambiguousRowKey "moves" "folders" "source" "target")) := by
  have declared : "moves" ∈ folderGraph.resources.map Resource.id :=
    .tail _ (.tail _ List.mem_cons_self)
  obtain ⟨scope, made, exactly, _⟩ :=
    row_key_inferred_exact folderGraph_reached declared folderMembers
  cases made
  refine ⟨folderGraph_reached, declared, _, rfl, exactly.mpr ?_, rfl⟩
  intro parent key overlooks
  exact absurd (Except.ok.inj overlooks.aimed) (show "folders" ≠ "moves" by decide)

theorem folder_key_guessed :
    folderGraph.Reached ∧ ∃ scope, RowScope.of folderGraph "folders" = .ok scope ∧
      scope.memberOfJoin folderMembers =
        .ok (.memberOfJoin ⟨"folders", "parent", "members", "folder", "user"⟩) ∧
      scope.Accepts folderMembers "parent" ∧ scope.Accepts folderMembers "id" ∧
      ¬ scope.Unguessed folderMembers := by
  refine ⟨folderGraph_reached, _, rfl, rfl, ⟨_, rfl⟩, ⟨_, rfl⟩, fun unguessed => ?_⟩
  obtain ⟨_, _, _, _, _, _, refused⟩ :=
    unguessed.asked "parent" "id" (by decide) ⟨_, rfl⟩ ⟨_, rfl⟩
  cases refused

end RowScope
end RowSecurity

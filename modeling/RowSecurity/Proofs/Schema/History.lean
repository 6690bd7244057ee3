import RowSecurity.Proofs.Listed
import RowSecurity.Proofs.Outcome
import RowSecurity.Schema.Batch

-- Histories of declarations. Whatever is declared later is added to what is there.
namespace RowSecurity

inductive Declaration where
  | resource (id : String) (columns : List Column)
  | relationship (edge : Relationship)
  | batch (batch : Batch)

structure Resource.Extends (earlier later : Resource) : Prop where
  id : later.id = earlier.id
  columns : later.columns = earlier.columns
  relationships : ∃ fresh, later.relationships = earlier.relationships ++ fresh

namespace Resource

theorem extends_refl (resource : Resource) : resource.Extends resource :=
  ⟨rfl, rfl, [], (List.append_nil _).symm⟩

theorem extends_trans {first second third : Resource} (one : first.Extends second)
    (two : second.Extends third) : first.Extends third := by
  obtain ⟨newer, newerEq⟩ := one.relationships
  obtain ⟨newest, newestEq⟩ := two.relationships
  refine ⟨two.id.trans one.id, two.columns.trans one.columns, newer ++ newest, ?_⟩
  rw [newestEq, newerEq, List.append_assoc]

theorem extends_add (resource : Resource) (edge : Relationship) :
    resource.Extends (resource.addRelationship edge) := ⟨rfl, rfl, [edge], rfl⟩

theorem extends_column {earlier later : Resource} (grown : earlier.Extends later) (name : String) :
    later.column? name = earlier.column? name := by
  rw [column?, column?, grown.columns]

theorem extends_relationship {earlier later : Resource} (grown : earlier.Extends later)
    (found : earlier.relationship? column = some edge) :
    later.relationship? column = some edge := by
  obtain ⟨fresh, equal⟩ := grown.relationships
  rw [relationship?, equal, List.find?_append]
  rw [relationship?] at found
  simp [found]

end Resource

namespace Graph

def declare (graph : Graph) : Declaration → Except SchemaError Graph
  | .resource id columns => graph.declareResource id columns
  | .relationship edge => graph.declareRelationship edge
  | .batch batch => graph.apply batch

def add (graph : Graph) : Declaration → Graph × Except SchemaError Unit
  | .resource id columns => graph.addResource id columns
  | .relationship edge => graph.addRelationship edge
  | .batch batch => graph.addBatch batch

def after (graph : Graph) (declaration : Declaration) : Graph := (graph.add declaration).1

-- Any number of declarations in any order, refused ones among them.
inductive Reaches (start : Graph) : Graph → Prop where
  | refl : Reaches start start
  | step (declaration : Declaration) : Reaches start graph → Reaches start (graph.after declaration)

def Reached (graph : Graph) : Prop := Reaches .empty graph

def Extends (earlier later : Graph) : Prop :=
  ∀ id resource, earlier.resource? id = some resource →
    ∃ kept, later.resource? id = some kept ∧ resource.Extends kept

variable {graph next : Graph} {id : String}

theorem extends_refl (graph : Graph) : graph.Extends graph :=
  fun _ resource found => ⟨resource, found, resource.extends_refl⟩

theorem extends_trans {first second third : Graph} (one : first.Extends second)
    (two : second.Extends third) : first.Extends third := by
  intro id resource found
  obtain ⟨middle, middleFound, grown⟩ := one id resource found
  obtain ⟨last, lastFound, grownAgain⟩ := two id middle middleFound
  exact ⟨last, lastFound, Resource.extends_trans grown grownAgain⟩

theorem resource?_exact : graph.resource? id = some resource ↔
    ∃ position, graph.position? id = some position ∧
      graph.resources[position]? = some resource :=
  Option.bind_eq_some_iff

theorem resolve_ok : graph.resolve id = .ok resource ↔ graph.resource? id = some resource := by
  unfold resolve
  split <;> simp_all

theorem resolve_error : graph.resolve id = .error error ↔
    graph.resource? id = none ∧ error = .unknownResource id := by
  unfold resolve
  split <;> simp_all [eq_comm (a := error)]

theorem resolveColumn_exact : graph.resolveColumn id column = .ok found ↔
    ∃ resource, graph.resource? id = some resource ∧ resource.column? column = some found := by
  unfold resolveColumn
  split
  · simp_all
  · split <;> simp_all

theorem relationship?_exact : graph.relationship? id column = some edge ↔
    ∃ resource, graph.resource? id = some resource ∧ resource.relationship? column = some edge :=
  Option.bind_eq_some_iff

theorem contains_exact :
    graph.contains id = false ↔ graph.position? id = none := by
  rw [contains, position?, Std.TreeMap.contains_eq_isSome_getElem?, Option.isSome_eq_false_iff,
    Option.isNone_iff_eq_none]

theorem declare_add (graph : Graph) (declaration : Declaration) :
    graph.declare declaration = outcome (graph.add declaration) := by
  cases declaration <;> rfl

theorem addResource_settles (graph : Graph) (id : String) (columns : List Column) :
    Settles graph (graph.addResource id columns) := by
  unfold addResource
  split
  · exact .refused _
  split
  · exact .refused _
  split
  · exact .refused _
  · exact .accepted _

theorem addRelationship_settles (graph : Graph) (edge : Relationship) :
    Settles graph (graph.addRelationship edge) := by
  unfold addRelationship
  split
  · split
    · exact .refused _
    split
    · exact .refused _
    split
    · exact .refused _
    split
    · exact .refused _
    · exact .accepted _
  · exact .refused _

theorem addBatch_settles (graph : Graph) (batch : Batch) :
    Settles graph (graph.addBatch batch) := by
  unfold addBatch
  split
  · exact .accepted _
  · exact .refused _

theorem add_settles (graph : Graph) (declaration : Declaration) :
    Settles graph (graph.add declaration) := by
  cases declaration with
  | resource id columns => exact graph.addResource_settles id columns
  | relationship edge => exact graph.addRelationship_settles edge
  | batch batch => exact graph.addBatch_settles batch

theorem declare_ok : graph.declare declaration = .ok next ↔
    graph.add declaration = (next, .ok ()) := by
  rw [declare_add, outcome_ok]

theorem after_ok (declared : graph.declare declaration = .ok next) :
    graph.after declaration = next := by
  rw [after, declare_ok.mp declared]

theorem after_error (refused : graph.declare declaration = .error error) :
    graph.after declaration = graph := by
  rw [declare_add, outcome_error] at refused
  exact (graph.add_settles declaration).unchanged refused

theorem addEach_outcome (add : Graph → α → Graph × Except SchemaError Unit) (items : List α)
    (graph : Graph) : outcome (graph.addEach add items) =
      items.foldlM (fun graph item => outcome (add graph item)) graph := by
  induction items generalizing graph with
  | nil => rfl
  | cons item rest ih =>
      rw [addEach, List.foldlM_cons]
      obtain ⟨next, answer⟩ := add graph item
      cases answer with
      | error error => rfl
      | ok done => exact ih next

theorem stage_outcome (graph : Graph) (batch : Batch) : outcome (graph.stage batch) =
    (batch.resources.foldlM (fun graph new => graph.declareResource new.1 new.2) graph) >>=
      fun declared => batch.relationships.foldlM declareRelationship declared := by
  have resources := addEach_outcome (fun graph new => graph.addResource new.1 new.2)
    batch.resources graph
  simp only [declareResource, ← resources, stage]
  obtain ⟨declared, answer⟩ := graph.addEach _ batch.resources
  cases answer with
  | error error => rfl
  | ok done => exact addEach_outcome addRelationship batch.relationships declared

theorem apply_staged (graph : Graph) (batch : Batch) :
    graph.apply batch = outcome (graph.stage batch) := by
  rw [apply, addBatch]
  obtain ⟨staged, answer⟩ := graph.stage batch
  cases answer <;> rfl

theorem apply_ok : graph.apply batch = .ok last ↔ ∃ middle,
    batch.resources.foldlM (fun graph new => graph.declareResource new.1 new.2) graph =
      .ok middle ∧ batch.relationships.foldlM declareRelationship middle = .ok last := by
  rw [apply_staged, stage_outcome, bind_ok]

theorem addResource_exact :
    graph.addResource id columns = (next, .ok ()) ↔
      Text.isName id = true ∧ graph.position? id = none ∧ columnFault? id [] columns = none ∧
        next = ⟨graph.resources ++ [⟨id, columns, []⟩],
          graph.index.insert id graph.resources.length⟩ := by
  rw [← contains_exact]
  unfold addResource
  split
  · rename_i invalid
    simp_all
  · split
    · simp_all
    · split
      · rename_i fault broken
        simp [broken]
      · rename_i valid fresh whole
        simp_all [eq_comm (a := next)]

theorem declareResource_exact :
    graph.declareResource id columns = .ok next ↔
      Text.isName id = true ∧ graph.position? id = none ∧ columnFault? id [] columns = none ∧
        next = ⟨graph.resources ++ [⟨id, columns, []⟩],
          graph.index.insert id graph.resources.length⟩ :=
  outcome_ok.trans addResource_exact

theorem addRelationship_exact :
    graph.addRelationship edge = (next, .ok ()) ↔
      ∃ position source target, graph.position? edge.source = some position ∧
        graph.resource? edge.source = some source ∧ source.hasColumn edge.column = true ∧
        source.relationship? edge.column = none ∧ graph.resource? edge.target = some target ∧
        target.primaryKey?.isSome = true ∧
        next = { graph with
          resources := graph.resources.modify position (·.addRelationship edge) } := by
  constructor
  · intro accepted
    unfold addRelationship at accepted
    split at accepted
    · rename_i position source located found
      split at accepted
      · cases accepted
      · rename_i column
        split at accepted
        · cases accepted
        · rename_i free
          split at accepted
          · cases accepted
          · rename_i target targetFound
            split at accepted
            · cases accepted
            · rename_i key
              cases accepted
              exact ⟨position, source, target, located, found, by simpa using column, free,
                targetFound, by simpa [Option.isNone_iff_eq_none, Option.isSome_iff_ne_none] using key,
                rfl⟩
    · cases accepted
  · rintro ⟨position, source, target, located, found, column, free, targetFound, key, rfl⟩
    have keyed : target.primaryKey?.isNone = false := by
      simpa [Option.isNone_eq_false_iff] using key
    simp [addRelationship, located, found, column, free, targetFound, keyed]

theorem declareRelationship_exact :
    graph.declareRelationship edge = .ok next ↔
      ∃ position source target, graph.position? edge.source = some position ∧
        graph.resource? edge.source = some source ∧ source.hasColumn edge.column = true ∧
        source.relationship? edge.column = none ∧ graph.resource? edge.target = some target ∧
        target.primaryKey?.isSome = true ∧
        next = { graph with
          resources := graph.resources.modify position (·.addRelationship edge) } :=
  outcome_ok.trans addRelationship_exact

theorem declareResource_keeps (accepted : graph.declareResource id columns = .ok next)
    (found : graph.resource? other = some resource) :
    next.resource? other = some resource ∧ next.position? other = graph.position? other := by
  obtain ⟨_, fresh, _, rfl⟩ := declareResource_exact.mp accepted
  obtain ⟨position, located, there⟩ := resource?_exact.mp found
  have apart : id ≠ other := by
    rintro rfl
    rw [fresh] at located
    cases located
  have kept : position? ⟨graph.resources ++ [⟨id, columns, []⟩],
      graph.index.insert id graph.resources.length⟩ other = graph.position? other := by
    rw [position?, position?, Std.TreeMap.getElem?_insert, if_neg (by simpa using apart)]
  refine ⟨resource?_exact.mpr ⟨position, kept.trans located, ?_⟩, kept⟩
  exact List.getElem?_append_left (List.getElem?_eq_some_iff.mp there).1 ▸ there

theorem declareResource_extends (accepted : graph.declareResource id columns = .ok next) :
    graph.Extends next :=
  fun _ resource found =>
    ⟨resource, (declareResource_keeps accepted found).1, resource.extends_refl⟩

theorem declareRelationship_extends (accepted : graph.declareRelationship edge = .ok next) :
    graph.Extends next := by
  obtain ⟨position, _, _, _, _, _, _, _, _, rfl⟩ := declareRelationship_exact.mp accepted
  intro id resource found
  obtain ⟨place, located, there⟩ := resource?_exact.mp found
  by_cases same : position = place
  · refine ⟨resource.addRelationship edge, resource?_exact.mpr ⟨place, located, ?_⟩,
      resource.extends_add edge⟩
    simp [same, there]
  · refine ⟨resource, resource?_exact.mpr ⟨place, located, ?_⟩, resource.extends_refl⟩
    simp [same, there]

theorem apply_extends (accepted : graph.apply batch = .ok next) : graph.Extends next := by
  obtain ⟨middle, declared, related⟩ := apply_ok.mp accepted
  have resources : graph.Extends middle :=
    foldlM_keeps (motive := graph.Extends)
      (fun _ _ _ grown step => extends_trans grown (declareResource_extends step))
      _ graph.extends_refl declared
  exact foldlM_keeps (motive := graph.Extends)
    (fun _ _ _ grown step => extends_trans grown (declareRelationship_extends step))
    _ resources related

theorem declare_extends (accepted : graph.declare declaration = .ok next) :
    graph.Extends next := by
  cases declaration with
  | resource id columns => exact declareResource_extends accepted
  | relationship edge => exact declareRelationship_extends accepted
  | batch batch => exact apply_extends accepted

theorem after_extends (graph : Graph) (declaration : Declaration) :
    graph.Extends (graph.after declaration) :=
  (graph.add_settles declaration).keeps (motive := graph.Extends) graph.extends_refl
    fun _ added => declare_extends (declare_ok.mpr added)

theorem reaches_extends (path : Reaches start graph) : start.Extends graph := by
  induction path with
  | refl => exact extends_refl _
  | step declaration _ ih => exact extends_trans ih (after_extends _ _)

section Lookups

variable {earlier later : Graph} (grown : earlier.Extends later)
include grown

theorem extends_resolve (found : earlier.resolve id = .ok resource) :
    ∃ kept, later.resolve id = .ok kept ∧ resource.Extends kept := by
  obtain ⟨kept, keptFound, keptGrown⟩ := grown id resource (resolve_ok.mp found)
  exact ⟨kept, resolve_ok.mpr keptFound, keptGrown⟩

theorem extends_resolveColumn (found : earlier.resolveColumn id name = .ok column) :
    later.resolveColumn id name = .ok column := by
  obtain ⟨resource, resourceFound, columnFound⟩ := resolveColumn_exact.mp found
  obtain ⟨kept, keptFound, keptGrown⟩ := grown id resource resourceFound
  exact resolveColumn_exact.mpr ⟨kept, keptFound,
    (Resource.extends_column keptGrown name).trans columnFound⟩

theorem extends_relationship (found : earlier.relationship? id name = some edge) :
    later.relationship? id name = some edge := by
  obtain ⟨resource, resourceFound, edgeFound⟩ := relationship?_exact.mp found
  obtain ⟨kept, keptFound, keptGrown⟩ := grown id resource resourceFound
  exact relationship?_exact.mpr ⟨kept, keptFound,
    Resource.extends_relationship keptGrown edgeFound⟩

end Lookups

end Graph

structure Resource.Sound (resource : Resource) (declared : List Resource) : Prop where
  name : Text.Named resource.id
  columns : ∀ column ∈ resource.columns, Text.Named column.name
  distinct : (resource.columns.map Column.name).Nodup
  single : (resource.relationships.map Relationship.column).Nodup
  source : ∀ edge ∈ resource.relationships, edge.source = resource.id
  column : ∀ edge ∈ resource.relationships, edge.column ∈ resource.columns.map Column.name
  target : ∀ edge ∈ resource.relationships, ∃ target ∈ declared, target.id = edge.target ∧
    (target.columns.filter (·.isPrimaryKey)).length = 1

structure Graph.Sound (graph : Graph) : Prop where
  index : ∀ id position, graph.position? id = some position ↔
    (graph.resources.map Resource.id)[position]? = some id
  distinct : (graph.resources.map Resource.id).Nodup
  resources : ∀ resource ∈ graph.resources, resource.Sound graph.resources

namespace Resource

variable {resource : Resource} {declared later : List Resource}

theorem primaryKey?_exact :
    resource.primaryKey?.isSome = true ↔ (resource.columns.filter (·.isPrimaryKey)).length = 1 := by
  unfold primaryKey?
  split
  · rename_i key only
    simp [only]
  · rename_i several
    simp only [Option.isSome_none, Bool.false_eq_true, false_iff]
    intro one
    obtain ⟨key, only⟩ := List.length_eq_one_iff.mp one
    exact several key only

theorem hasColumn_exact {name : String} :
    resource.hasColumn name = true ↔ name ∈ resource.columns.map Column.name := by
  rw [hasColumn, column?, List.find?_isSome, List.mem_map]
  simp

theorem relationship?_free {column : String} : resource.relationship? column = none ↔
    column ∉ resource.relationships.map Relationship.column := by
  rw [relationship?, List.find?_eq_none, List.mem_map]
  simp

theorem column?_exact (sound : resource.Sound declared) :
    resource.column? name = some column ↔ column ∈ resource.columns ∧ column.name = name :=
  find?_key sound.distinct

theorem relationship?_exact (sound : resource.Sound declared) :
    resource.relationship? column = some edge ↔
      edge ∈ resource.relationships ∧ edge.column = column :=
  find?_key sound.single

theorem sound_grown (sound : resource.Sound declared)
    (kept : ∀ earlier ∈ declared, ∃ grown ∈ later, earlier.Extends grown) :
    resource.Sound later := by
  refine { sound with target := ?_ }
  intro edge member
  obtain ⟨target, there, same, key⟩ := sound.target edge member
  obtain ⟨grown, still, larger⟩ := kept target there
  refine ⟨grown, still, larger.id.trans same, ?_⟩
  rw [larger.columns]
  exact key

theorem sound_add {edge : Relationship} (sound : resource.Sound declared)
    (source : edge.source = resource.id) (column : resource.hasColumn edge.column = true)
    (free : resource.relationship? edge.column = none)
    (target : ∃ target ∈ declared, target.id = edge.target ∧
      (target.columns.filter (·.isPrimaryKey)).length = 1) :
    (resource.addRelationship edge).Sound declared := by
  refine ⟨sound.name, sound.columns, sound.distinct, ?_, ?_, ?_, ?_⟩
  · rw [addRelationship, List.map_append, List.map_singleton, ← List.concat_eq_append]
    exact sound.single.concat (relationship?_free.mp free)
  all_goals
    intro other member
    rcases List.mem_append.mp member with old | new
  · exact sound.source other old
  · rw [List.mem_singleton.mp new]
    exact source
  · exact sound.column other old
  · rw [List.mem_singleton.mp new]
    exact hasColumn_exact.mp column
  · exact sound.target other old
  · rw [List.mem_singleton.mp new]
    exact target

end Resource

namespace Graph

variable {graph next : Graph} {id : String}

theorem concat_place {items : List α} {position : Nat} :
    (items ++ [last])[position]? = some item ↔
      items[position]? = some item ∨ position = items.length ∧ last = item := by
  rcases Nat.lt_trichotomy position items.length with before | here | behind
  · rw [List.getElem?_append_left before]
    simp [Nat.ne_of_lt before]
  · simp [here]
  · rw [List.getElem?_eq_none (by simpa using Nat.succ_le_of_lt behind), List.getElem?_eq_none (Nat.le_of_lt behind)]
    simp [Nat.ne_of_gt behind]

theorem empty_sound : Graph.empty.Sound := by
  refine ⟨?_, List.nodup_nil, nofun⟩
  intro id position
  simp [position?, empty, Std.TreeMap.empty_eq_emptyc]

theorem columnFault?_none {used : List String} {columns : List Column} :
    columnFault? id used columns = none ↔
      (∀ column ∈ columns, Text.isName column.name = true) ∧
        (columns.map Column.name).Nodup ∧ ∀ column ∈ columns, column.name ∉ used := by
  induction columns generalizing used with
  | nil => simp [columnFault?]
  | cons column rest ih =>
      rw [columnFault?]
      by_cases valid : Text.isName column.name = true
      · by_cases old : column.name ∈ used
        · simp [valid, old]
        · simp only [valid, old, ih, Bool.not_true, Bool.false_eq_true, if_false]
          simp only [List.map_cons, List.nodup_cons, List.mem_map, List.mem_cons]
          grind
      · simp [valid]

theorem declareResource_sound (sound : graph.Sound)
    (accepted : graph.declareResource id columns = .ok next) : next.Sound := by
  obtain ⟨valid, fresh, whole, rfl⟩ := declareResource_exact.mp accepted
  obtain ⟨names, distinct, _⟩ := columnFault?_none.mp whole
  have apart : id ∉ graph.resources.map Resource.id := by
    intro member
    obtain ⟨position, there⟩ := List.mem_iff_getElem?.mp member
    rw [(sound.index id position).mpr there] at fresh
    cases fresh
  refine ⟨?_, ?_, ?_⟩
  · intro other position
    have old := sound.index other position
    rw [position?] at old ⊢
    rw [Std.TreeMap.getElem?_insert, List.map_append, List.map_singleton, concat_place,
      List.length_map, ← old]
    by_cases same : id = other
    · subst same
      rw [position?] at fresh
      simp [fresh, eq_comm]
    · simp [same]
  · rw [List.map_append, List.map_singleton, ← List.concat_eq_append]
    exact sound.distinct.concat apart
  · have kept : ∀ earlier ∈ graph.resources,
        ∃ grown ∈ graph.resources ++ [⟨id, columns, []⟩], earlier.Extends grown :=
      fun earlier member => ⟨earlier, List.mem_append_left _ member, earlier.extends_refl⟩
    intro resource member
    rcases List.mem_append.mp member with old | new
    · exact Resource.sound_grown (sound.resources resource old) kept
    · rw [List.mem_singleton.mp new]
      exact ⟨(Text.isName_named id).mp valid,
        fun column inside => (Text.isName_named _).mp (names column inside), distinct,
        List.nodup_nil, List.forall_mem_nil _, List.forall_mem_nil _, List.forall_mem_nil _⟩

theorem resource?_carries (sound : graph.Sound) : graph.resource? id = some resource ↔
    resource ∈ graph.resources ∧ resource.id = id := by
  rw [resource?_exact]
  constructor
  · rintro ⟨position, located, there⟩
    have held := (sound.index id position).mp located
    rw [List.getElem?_map, there] at held
    exact ⟨List.mem_of_getElem? there, Option.some.inj held⟩
  · rintro ⟨member, rfl⟩
    obtain ⟨position, there⟩ := List.mem_iff_getElem?.mp member
    refine ⟨position, (sound.index resource.id position).mpr ?_, there⟩
    rw [List.getElem?_map, there]
    rfl

theorem target_single (sound : graph.Sound) {source resource : Resource} {edge : Relationship}
    (declared : source ∈ graph.resources) (related : edge ∈ source.relationships)
    (there : resource ∈ graph.resources) (aimed : resource.id = edge.target) :
    (resource.columns.filter (·.isPrimaryKey)).length = 1 := by
  obtain ⟨target, targetThere, named, single⟩ := (sound.resources source declared).target edge related
  have same : target = resource :=
    List.inj_on_of_nodup_map sound.distinct targetThere there (named.trans aimed.symm)
  exact same ▸ single

theorem relationship?_none (sound : graph.Sound) : graph.relationship? id column = none ↔
    ∀ source ∈ graph.resources, source.id = id →
      column ∉ source.relationships.map Relationship.column := by
  rw [Option.eq_none_iff_forall_ne_some]
  constructor
  · intro free source member named held
    obtain ⟨edge, inside, same⟩ := List.mem_map.mp held
    refine free edge (relationship?_exact.mpr ⟨source, ?_, ?_⟩)
    · exact (resource?_carries sound).mpr ⟨member, named⟩
    · exact (Resource.relationship?_exact (sound.resources source member)).mpr ⟨inside, same⟩
  · intro free edge found
    obtain ⟨source, there, held⟩ := relationship?_exact.mp found
    obtain ⟨member, named⟩ := (resource?_carries sound).mp there
    obtain ⟨inside, same⟩ :=
      (Resource.relationship?_exact (sound.resources source member)).mp held
    exact free source member named (List.mem_map.mpr ⟨edge, inside, same⟩)

section Relating

variable {edge : Relationship}

theorem related_map (resources : List Resource) (position : Nat) (edge : Relationship)
    (part : Resource → α) (kept : ∀ resource, part (resource.addRelationship edge) = part resource) :
    (resources.modify position (·.addRelationship edge)).map part = resources.map part := by
  apply List.ext_getElem?
  intro place
  rw [List.getElem?_map, List.getElem?_map, List.getElem?_modify]
  cases resources[place]? with
  | none => rfl
  | some resource =>
      by_cases same : position = place
      · simp [same, kept]
      · simp [same]

theorem related_ids (resources : List Resource) (position : Nat) (edge : Relationship) :
    (resources.modify position (·.addRelationship edge)).map Resource.id =
      resources.map Resource.id := related_map resources position edge Resource.id fun _ => rfl

theorem related_kept (resources : List Resource) (position : Nat) (edge : Relationship) :
    ∀ earlier ∈ resources, ∃ grown ∈ resources.modify position (·.addRelationship edge),
      earlier.Extends grown := by
  intro earlier member
  obtain ⟨place, there⟩ := List.mem_iff_getElem?.mp member
  have after := List.getElem?_modify (·.addRelationship edge) position resources place
  rw [there, Option.map_eq_map, Option.map_some] at after
  refine ⟨_, List.mem_of_getElem? after, ?_⟩
  by_cases here : position = place
  · rw [if_pos here]
    exact earlier.extends_add edge
  · rw [if_neg here]
    exact earlier.extends_refl

theorem declareRelationship_sound (sound : graph.Sound)
    (accepted : graph.declareRelationship edge = .ok next) : next.Sound := by
  obtain ⟨position, source, target, located, found, column, free, targetFound, key, rfl⟩ :=
    declareRelationship_exact.mp accepted
  have ids := related_ids graph.resources position edge
  obtain ⟨_, named⟩ := (resource?_carries sound).mp found
  obtain ⟨declared, aimed⟩ := (resource?_carries sound).mp targetFound
  have keyed : ∃ target ∈ graph.resources, target.id = edge.target ∧
      (target.columns.filter (·.isPrimaryKey)).length = 1 :=
    ⟨target, declared, aimed, Resource.primaryKey?_exact.mp key⟩
  have kept := related_kept graph.resources position edge
  refine ⟨?_, ids.symm ▸ sound.distinct, ?_⟩
  · intro id place
    rw [ids]
    exact sound.index id place
  · intro resource member
    obtain ⟨place, there⟩ := List.mem_iff_getElem?.mp member
    rw [List.getElem?_modify, Option.map_eq_map, Option.map_eq_some_iff] at there
    obtain ⟨old, oldThere, rfl⟩ := there
    have oldSound := sound.resources old (List.mem_of_getElem? oldThere)
    by_cases here : position = place
    · rw [resource?, located, Option.bind_some, here, oldThere] at found
      cases found
      rw [if_pos here]
      exact Resource.sound_grown (Resource.sound_add oldSound named.symm column free keyed) kept
    · rw [if_neg here]
      exact Resource.sound_grown oldSound kept

end Relating

theorem apply_sound (sound : graph.Sound) (accepted : graph.apply batch = .ok next) :
    next.Sound := by
  obtain ⟨middle, declared, related⟩ := apply_ok.mp accepted
  have resources : middle.Sound :=
    foldlM_keeps (fun _ _ _ old step => declareResource_sound old step) _ sound declared
  exact foldlM_keeps (fun _ _ _ old step => declareRelationship_sound old step) _ resources related

theorem declare_sound (sound : graph.Sound)
    (accepted : graph.declare declaration = .ok next) : next.Sound := by
  cases declaration with
  | resource id columns => exact declareResource_sound sound accepted
  | relationship edge => exact declareRelationship_sound sound accepted
  | batch batch => exact apply_sound sound accepted

theorem after_sound (sound : graph.Sound) (declaration : Declaration) :
    (graph.after declaration).Sound :=
  (graph.add_settles declaration).keeps (motive := Sound) sound
    fun _ added => declare_sound sound (declare_ok.mpr added)

theorem reaches_sound (sound : start.Sound) (path : Reaches start graph) : graph.Sound := by
  induction path with
  | refl => exact sound
  | step declaration _ ih => exact after_sound ih declaration

end Graph
end RowSecurity

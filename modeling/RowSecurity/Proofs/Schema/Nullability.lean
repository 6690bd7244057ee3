import RowSecurity.Proofs.Schema.History

-- Columns that are built keep a key from being nullable; columns that are stored are read flag by
-- flag.
namespace RowSecurity

inductive ColumnSource where
  | built (name : String) (dataType : DataType) (modifiers : List Column.Modifier)
  | stored (json : Json)

inductive Draft where
  | resource (id : String) (sources : List ColumnSource)
  | relationship (edge : Relationship)
  | batch (resources : List (String × List ColumnSource)) (edges : List Relationship)

namespace ColumnSource

def column? : ColumnSource → Option Column
  | .built name dataType modifiers => some (.build name dataType modifiers)
  | .stored json => Column.ofJson? json

def NullableKey : ColumnSource → Prop
  | .built _ _ _ => False
  | .stored json => ∃ record, json.record? 5 = some record ∧
      record.field? 3 "is_primary_key" = some (.bool true) ∧
      (record.field? 2 "nullable" = some (.bool true) ∨ record.field? 2 "nullable" = none)

end ColumnSource

namespace Draft

def named? (new : String × List ColumnSource) : Option (String × List Column) :=
  (new.2.mapM ColumnSource.column?).map fun columns => (new.1, columns)

def declaration? : Draft → Option Declaration
  | .resource id sources => (sources.mapM ColumnSource.column?).map (.resource id)
  | .relationship edge => some (.relationship edge)
  | .batch resources edges => (resources.mapM named?).map fun read => .batch ⟨read, edges⟩

def sources : Draft → List ColumnSource
  | .resource _ sources => sources
  | .relationship _ => []
  | .batch resources _ => resources.flatMap Prod.snd

end Draft

def Declaration.columns : Declaration → List Column
  | .resource _ columns => columns
  | .relationship _ => []
  | .batch given => given.resources.flatMap Prod.snd

namespace Graph

def declaredColumns (graph : Graph) : List Column := graph.resources.flatMap Resource.columns

-- Nothing is declared unless all its columns can be read.
def submit (graph : Graph) (draft : Draft) : Graph :=
  match draft.declaration? with
  | some declaration => graph.after declaration
  | none => graph

def run (graph : Graph) (drafts : List Draft) : Graph := drafts.foldl submit graph

def taken (graph : Graph) (draft : Draft) : List ColumnSource :=
  match draft.declaration?.map graph.declare with
  | some (.ok _) => draft.sources
  | _ => []

def accepted (graph : Graph) : List Draft → List ColumnSource
  | [] => []
  | draft :: rest => graph.taken draft ++ accepted (graph.submit draft) rest

end Graph

section Sources

theorem Column.modify_key {column : Column} (modifier : Column.Modifier)
    (settled : column.isPrimaryKey = true → column.nullable = false) :
    (column.modify modifier).isPrimaryKey = true → (column.modify modifier).nullable = false := by
  cases modifier <;> simp_all [modify]

theorem Column.build_key (name : String) (dataType : DataType) (modifiers : List Column.Modifier) :
    (build name dataType modifiers).isPrimaryKey = true →
      (build name dataType modifiers).nullable = false := by
  have folded : ∀ column : Column, (column.isPrimaryKey = true → column.nullable = false) →
      (modifiers.foldl modify column).isPrimaryKey = true →
        (modifiers.foldl modify column).nullable = false := by
    induction modifiers with
    | nil => exact fun _ settled => settled
    | cons modifier rest ih => exact fun column settled => ih _ (modify_key modifier settled)
  exact folded _ nofun

theorem Json.Record.flag_exact {record : Record} {position : Nat} {name : String}
    {fallback flag : Bool} (read : record.defaulted position name fallback bool? = some flag) :
    flag = true ↔ record.field? position name = some (.bool true) ∨
      (record.field? position name = none ∧ fallback = true) := by
  unfold defaulted at read
  split at read
  · rename_i absent
    cases read
    simp [absent]
  · rename_i found there
    cases found with
    | bool value =>
        cases read
        simp [there]
    | _ => cases read

theorem ColumnSource.nullableKey_exact {source : ColumnSource} (read : source.column? = some column) :
    column.isPrimaryKey = true ∧ column.nullable = true ↔ source.NullableKey := by
  cases source with
  | built name dataType modifiers =>
      cases read
      have settled := Column.build_key name dataType modifiers
      simp_all [NullableKey]
  | stored json =>
      simp only [column?, Column.ofJson?, Option.bind_eq_bind, Option.bind_eq_some_iff] at read
      obtain ⟨record, shaped, _, _, _, _, nullable, nullableRead, key, keyRead, _, _, made⟩ := read
      cases made
      simp only [NullableKey, shaped, Option.some.injEq, exists_eq_left',
        Json.Record.flag_exact nullableRead, Json.Record.flag_exact keyRead]
      simp

end Sources

section Reading

theorem mapM_some {f : α → Option β} {items : List α} {results : List β} :
    items.mapM f = some results ↔ items.map f = results.map some := by
  induction items generalizing results with
  | nil => cases results <;> simp
  | cons item rest ih =>
      simp only [List.mapM_cons, Option.bind_eq_bind, Option.bind_eq_some_iff, Option.pure_def,
        Option.some.injEq]
      cases results with
      | nil => simp
      | cons result others => simp [ih]

theorem Draft.named?_some {new : String × List ColumnSource} {read : String × List Column} :
    named? new = some read ↔
      new.1 = read.1 ∧ new.2.map ColumnSource.column? = read.2.map some := by
  obtain ⟨id, columns⟩ := read
  simp [named?, mapM_some, and_comm]

theorem Draft.resources_read {resources : List (String × List ColumnSource)}
    {read : List (String × List Column)} (same : resources.map named? = read.map some) :
    (resources.flatMap Prod.snd).map ColumnSource.column? = (read.flatMap Prod.snd).map some := by
  induction resources generalizing read with
  | nil =>
      cases read with
      | nil => rfl
      | cons first others => cases same
  | cons new rest ih =>
      cases read with
      | nil => cases same
      | cons first others =>
          obtain ⟨here, later⟩ := List.cons.inj same
          have columns := (named?_some.mp here).2
          simp [columns, ih later]

theorem Draft.sources_read {draft : Draft} (read : draft.declaration? = some declaration) :
    draft.sources.map ColumnSource.column? = declaration.columns.map some := by
  cases draft with
  | resource id sources =>
      obtain ⟨columns, each, rfl⟩ := Option.map_eq_some_iff.mp read
      exact mapM_some.mp each
  | relationship edge =>
      cases read
      rfl
  | batch resources edges =>
      obtain ⟨named, each, rfl⟩ := Option.map_eq_some_iff.mp read
      exact resources_read (mapM_some.mp each)

end Reading

namespace Graph

variable {graph next : Graph}

theorem declareResource_columns {id : String} {columns : List Column}
    (accepted : graph.declareResource id columns = .ok next) :
    next.declaredColumns = graph.declaredColumns ++ columns := by
  obtain ⟨_, _, _, rfl⟩ := declareResource_exact.mp accepted
  simp [Graph.declaredColumns]

theorem declareRelationship_columns (accepted : graph.declareRelationship edge = .ok next) :
    next.declaredColumns = graph.declaredColumns := by
  obtain ⟨position, _, _, _, _, _, _, _, _, rfl⟩ := declareRelationship_exact.mp accepted
  have same := related_map graph.resources position edge Resource.columns fun _ => rfl
  simp only [Graph.declaredColumns, List.flatMap_def, same]

theorem declareResources_columns {items : List (String × List Column)}
    (done : items.foldlM (fun graph new => graph.declareResource new.1 new.2) graph = .ok next) :
    next.declaredColumns = graph.declaredColumns ++ items.flatMap Prod.snd := by
  induction items generalizing graph with
  | nil =>
      cases done
      simp
  | cons new rest ih =>
      obtain ⟨middle, declared, others⟩ := foldlM_next.mp done
      rw [ih others, declareResource_columns declared, List.flatMap_cons, List.append_assoc]

theorem declare_columns (accepted : graph.declare declaration = .ok next) :
    next.declaredColumns = graph.declaredColumns ++ declaration.columns := by
  cases declaration with
  | resource id columns => exact declareResource_columns accepted
  | relationship edge => simpa [Declaration.columns] using declareRelationship_columns accepted
  | batch given =>
      obtain ⟨middle, declared, related⟩ := apply_ok.mp accepted
      have kept : next.declaredColumns = middle.declaredColumns :=
        foldlM_keeps (motive := fun state => state.declaredColumns = middle.declaredColumns)
          (fun _ _ _ same step => (declareRelationship_columns step).trans same) _ rfl related
      rw [kept, declareResources_columns declared, Declaration.columns]

theorem submit_columns (graph : Graph) (draft : Draft) :
    (graph.submit draft).declaredColumns.map some =
      graph.declaredColumns.map some ++ (graph.taken draft).map ColumnSource.column? := by
  unfold submit taken
  cases read : draft.declaration? with
  | none => simp
  | some declaration =>
      cases declared : graph.declare declaration with
      | error error => simp [after_error declared, declared]
      | ok next =>
          simp [after_ok declared, declared, declare_columns declared, Draft.sources_read read]

theorem run_columns (graph : Graph) (drafts : List Draft) :
    (graph.run drafts).declaredColumns.map some =
      graph.declaredColumns.map some ++ (graph.accepted drafts).map ColumnSource.column? := by
  induction drafts generalizing graph with
  | nil => simp [run, accepted]
  | cons draft rest ih =>
      have ran := ih (graph.submit draft)
      rw [submit_columns, List.append_assoc, ← List.map_append] at ran
      exact ran

-- After any drafts, the keys of the graph are all without nulls exactly if no accepted column
-- was stored as a key and left nullable.
theorem key_nullability_exact (drafts : List Draft) :
    (∀ resource ∈ (empty.run drafts).resources, ∀ column ∈ resource.columns,
      column.isPrimaryKey = true → column.nullable = false) ↔
      ∀ source ∈ empty.accepted drafts, ¬ source.NullableKey := by
  have columns := run_columns empty drafts
  have listed : ∀ found, found ∈ (empty.run drafts).declaredColumns.map some ↔
      ∃ source ∈ empty.accepted drafts, source.column? = found := by
    have started : empty.declaredColumns = [] := rfl
    simp [columns, started]
  constructor
  · intro settled source taken nullable
    have made := (listed source.column?).mpr ⟨source, taken, rfl⟩
    obtain ⟨column, there, read⟩ := List.mem_map.mp made
    obtain ⟨resource, declared, held⟩ := List.mem_flatMap.mp there
    have flags := (ColumnSource.nullableKey_exact read.symm).mpr nullable
    have kept := settled resource declared column held flags.1
    simp [kept] at flags
  · intro clean resource declared column held key
    have there := List.mem_flatMap.mpr ⟨resource, declared, held⟩
    obtain ⟨source, taken, read⟩ := (listed (some column)).mp (List.mem_map_of_mem there)
    have stays := clean source taken
    rw [← ColumnSource.nullableKey_exact read] at stays
    simp_all

def bareKey : Json :=
  .object [("data_type", .string "serial"), ("is_primary_key", .bool true), ("name", .string "id")]

theorem bare_key_nullable :
    (empty.run [.resource "posts" [.stored bareKey]]).resources =
        [⟨"posts", [⟨"id", .serial, true, true, false⟩], []⟩] ∧
      ¬ ∀ drafts, ∀ resource ∈ (empty.run drafts).resources, ∀ column ∈ resource.columns,
        column.isPrimaryKey = true → column.nullable = false := by
  have posts : (empty.run [.resource "posts" [.stored bareKey]]).resources =
      [⟨"posts", [⟨"id", .serial, true, true, false⟩], []⟩] := by rfl
  refine ⟨posts, fun settled => ?_⟩
  have key := settled [.resource "posts" [.stored bareKey]]
  simp [posts] at key

end Graph
end RowSecurity

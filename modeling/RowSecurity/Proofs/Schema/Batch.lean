import Mathlib.Data.List.Forall2
import RowSecurity.Proofs.Schema.Lookup

-- Batches told of all their declarations at once and not of one after another.
namespace RowSecurity

structure Relationship.Lands (edge : Relationship) (declared : List Resource) : Prop where
  source : ∃ source ∈ declared, source.id = edge.source ∧
    edge.column ∈ source.columns.map Column.name
  target : ∃ target ∈ declared, target.id = edge.target ∧
    (target.columns.filter (·.isPrimaryKey)).length = 1

def Relationship.origin (edge : Relationship) : String × String := (edge.source, edge.column)

def Resource.take (resource : Resource) (edges : List Relationship) : Resource :=
  { resource with
    relationships := resource.relationships ++ edges.filter (·.source == resource.id) }

namespace Graph

def declared (graph : Graph) (items : List (String × List Column)) : List Resource :=
  graph.resources ++ items.map fun new => ⟨new.1, new.2, []⟩

def extended (graph : Graph) (items : List (String × List Column)) : Graph where
  resources := graph.declared items
  index := (items.zipIdx graph.resources.length).foldl
    (fun index new => index.insert new.1.1 new.2) graph.index

def related (graph : Graph) (edges : List Relationship) : Graph :=
  { graph with resources := graph.resources.map (·.take edges) }

def joined (graph : Graph) (batch : Batch) : Graph :=
  (graph.extended batch.resources).related batch.relationships

end Graph

structure Batch.Fits (batch : Batch) (graph : Graph) : Prop where
  named : ∀ new ∈ batch.resources, Text.Named new.1
  fresh : ∀ new ∈ batch.resources, new.1 ∉ graph.resources.map Resource.id
  distinct : (batch.resources.map Prod.fst).Nodup
  columns : ∀ new ∈ batch.resources,
    (∀ column ∈ new.2, Text.Named column.name) ∧ (new.2.map Column.name).Nodup
  lands : ∀ edge ∈ batch.relationships, edge.Lands (graph.declared batch.resources)
  free : ∀ edge ∈ batch.relationships, graph.relationship? edge.source edge.column = none
  once : (batch.relationships.map Relationship.origin).Nodup

namespace Graph

variable {graph next : Graph}

section Resources

variable {items : List (String × List Column)} {known : List String}

structure Declarable (known : List String) (items : List (String × List Column)) : Prop where
  each : ∀ new ∈ items, Text.Named new.1 ∧ new.1 ∉ known ∧
    (∀ column ∈ new.2, Text.Named column.name) ∧ (new.2.map Column.name).Nodup
  distinct : (items.map Prod.fst).Nodup

theorem declarable_cons {new : String × List Column} : Declarable known (new :: items) ↔
    (Text.Named new.1 ∧ new.1 ∉ known ∧ (∀ column ∈ new.2, Text.Named column.name) ∧
      (new.2.map Column.name).Nodup) ∧ Declarable (known ++ [new.1]) items := by
  constructor
  · rintro ⟨each, distinct⟩
    obtain ⟨apart, others⟩ := List.nodup_cons.mp distinct
    obtain ⟨first, later⟩ := List.forall_mem_cons.mp each
    refine ⟨first, fun other member => ?_, others⟩
    obtain ⟨named, fresh, columns⟩ := later other member
    refine ⟨named, fun held => ?_, columns⟩
    rcases List.mem_append.mp held with old | same
    · exact fresh old
    · rw [← List.mem_singleton.mp same] at apart
      exact apart (List.mem_map_of_mem member)
  · rintro ⟨first, later, others⟩
    refine ⟨List.forall_mem_cons.mpr ⟨first, fun other member => ?_⟩, ?_⟩
    · obtain ⟨named, fresh, columns⟩ := later other member
      exact ⟨named, fun old => fresh (List.mem_append_left _ old), columns⟩
    · refine List.nodup_cons.mpr ⟨fun again => ?_, others⟩
      obtain ⟨other, member, same⟩ := List.mem_map.mp again
      exact (later other member).2.1 (List.mem_append_right _ (List.mem_singleton.mpr same))

theorem extended_nil (graph : Graph) : graph.extended [] = graph := by
  simp [extended, declared]

theorem extended_cons (graph : Graph) (new : String × List Column) :
    graph.extended (new :: items) = (graph.extended [new]).extended items := by
  simp [extended, declared]

theorem position?_none (sound : graph.Sound) (id : String) :
    graph.position? id = none ↔ id ∉ graph.resources.map Resource.id := by
  rw [List.mem_iff_getElem?, not_exists, Option.eq_none_iff_forall_ne_some]
  exact forall_congr' fun position => not_congr (sound.index id position)

theorem declareResource_extended (sound : graph.Sound) {new : String × List Column} :
    graph.declareResource new.1 new.2 = .ok next ↔
      (Text.Named new.1 ∧ new.1 ∉ graph.resources.map Resource.id ∧
        (∀ column ∈ new.2, Text.Named column.name) ∧ (new.2.map Column.name).Nodup) ∧
      next = graph.extended [new] := by
  rw [declareResource_exact, Text.isName_named, position?_none sound, columnFault?_none]
  simp only [Text.isName_named, List.not_mem_nil, not_false_eq_true, implies_true, and_true,
    and_assoc]
  rfl

theorem declareResources_extended (sound : graph.Sound) :
    items.foldlM (fun graph new => graph.declareResource new.1 new.2) graph = .ok next ↔
      Declarable (graph.resources.map Resource.id) items ∧ next = graph.extended items := by
  induction items generalizing graph with
  | nil =>
      have nothing : Declarable (graph.resources.map Resource.id) [] := ⟨nofun, List.nodup_nil⟩
      simp [extended_nil, nothing, pure, Except.pure, eq_comm]
  | cons new rest ih =>
      rw [foldlM_next, declarable_cons, extended_cons]
      constructor
      · rintro ⟨middle, declares, others⟩
        have middleSound := declareResource_sound sound declares
        obtain ⟨first, rfl⟩ := (declareResource_extended sound).mp declares
        obtain ⟨later, rfl⟩ := (ih middleSound).mp others
        exact ⟨⟨first, by simpa [extended, declared] using later⟩, rfl⟩
      · rintro ⟨⟨first, later⟩, rfl⟩
        have declares := (declareResource_extended sound).mpr ⟨first, rfl⟩
        refine ⟨_, declares, (ih (declareResource_sound sound declares)).mpr ⟨?_, rfl⟩⟩
        simpa [extended, declared] using later

theorem declareResources_sound (sound : graph.Sound)
    (done : items.foldlM (fun graph new => graph.declareResource new.1 new.2) graph = .ok next) :
    next.Sound :=
  foldlM_keeps (fun _ _ _ old step => declareResource_sound old step) _ sound done

end Resources

section Relationships

variable {edge : Relationship} {edges : List Relationship} {resources : List Resource}

structure Relatable (graph : Graph) (edges : List Relationship) : Prop where
  each : ∀ edge ∈ edges, edge.Lands graph.resources ∧
    graph.relationship? edge.source edge.column = none
  once : (edges.map Relationship.origin).Nodup

theorem lands_taken : edge.Lands (resources.map (·.take edges)) ↔ edge.Lands resources := by
  constructor
  · rintro ⟨⟨source, there, starts⟩, target, aimed, lands⟩
    obtain ⟨source, held, rfl⟩ := List.mem_map.mp there
    obtain ⟨target, known, rfl⟩ := List.mem_map.mp aimed
    exact ⟨⟨source, held, starts⟩, target, known, lands⟩
  · rintro ⟨⟨source, there, starts⟩, target, aimed, lands⟩
    exact ⟨⟨_, List.mem_map_of_mem there, starts⟩, _, List.mem_map_of_mem aimed, lands⟩

theorem related_nil (graph : Graph) : graph.related [] = graph := by
  simp [related, Resource.take]

theorem related_cons (graph : Graph) (edge : Relationship) :
    graph.related (edge :: edges) = (graph.related [edge]).related edges := by
  simp only [related, List.map_map]
  congr 1
  refine List.map_congr_left fun resource _ => ?_
  simp only [Resource.take, Function.comp_apply, List.append_assoc, ← List.filter_append,
    List.singleton_append]

theorem modify_related (sound : graph.Sound)
    (located : graph.position? edge.source = some position) :
    graph.resources.modify position (·.addRelationship edge) =
      graph.resources.map (·.take [edge]) := by
  apply List.ext_getElem?
  intro place
  rw [List.getElem?_modify, List.getElem?_map, Option.map_eq_map]
  cases there : graph.resources[place]? with
  | none => rfl
  | some resource =>
      have own := (sound.index resource.id place).mpr (by rw [List.getElem?_map, there]; rfl)
      rw [Option.map_some, Option.map_some]
      by_cases here : position = place
      · have held := (sound.index edge.source position).mp located
        rw [here, List.getElem?_map, there] at held
        have same : resource.id = edge.source := Option.some.inj held
        simp [here, Resource.take, Resource.addRelationship, same]
      · have apart : edge.source ≠ resource.id := by
          intro same
          rw [same, own] at located
          exact here (Option.some.inj located).symm
        simp [here, Resource.take, apart]

theorem declareRelationship_related (sound : graph.Sound) :
    graph.declareRelationship edge = .ok next ↔
      (edge.Lands graph.resources ∧ graph.relationship? edge.source edge.column = none) ∧
        next = graph.related [edge] := by
  rw [declareRelationship_exact]
  constructor
  · rintro ⟨position, source, target, located, found, column, free, aimed, key, rfl⟩
    obtain ⟨there, named⟩ := (resource?_carries sound).mp found
    obtain ⟨known, same⟩ := (resource?_carries sound).mp aimed
    refine ⟨⟨⟨⟨source, there, named, Resource.hasColumn_exact.mp column⟩,
      target, known, same, Resource.primaryKey?_exact.mp key⟩, ?_⟩, ?_⟩
    · rw [relationship?, found, Option.bind_some, free]
    · rw [related, modify_related sound located]
  · rintro ⟨⟨⟨⟨source, there, named, column⟩, target, known, same, key⟩, free⟩, rfl⟩
    have found := (resource?_carries sound).mpr ⟨there, named⟩
    obtain ⟨position, located, _⟩ := resource?_exact.mp found
    rw [relationship?, found, Option.bind_some] at free
    exact ⟨position, source, target, located, found, Resource.hasColumn_exact.mpr column, free,
      (resource?_carries sound).mpr ⟨known, same⟩, Resource.primaryKey?_exact.mpr key,
      by rw [related, modify_related sound located]⟩

theorem related_free (sound : graph.Sound) (after : (graph.related [edge]).Sound)
    (lands : edge.Lands graph.resources) {other : Relationship} :
    (graph.related [edge]).relationship? other.source other.column = none ↔
      graph.relationship? other.source other.column = none ∧ edge.origin ≠ other.origin := by
  rw [relationship?_none after, relationship?_none sound]
  constructor
  · intro free
    constructor
    · intro source there named held
      refine free (source.take [edge]) (List.mem_map_of_mem there) named ?_
      rw [Resource.take, List.map_append]
      exact List.mem_append_left _ held
    · intro same
      obtain ⟨sources, columns⟩ := Prod.mk.inj same
      obtain ⟨source, there, named, _⟩ := lands.source
      refine free (source.take [edge]) (List.mem_map_of_mem there) (named.trans sources) ?_
      rw [← columns, Resource.take]
      exact List.mem_map_of_mem (by simp [named])
  · rintro ⟨free, apart⟩ taken there named held
    obtain ⟨source, known, rfl⟩ := List.mem_map.mp there
    obtain ⟨carried, inside, column⟩ := List.mem_map.mp held
    rcases List.mem_append.mp inside with old | new
    · exact free source known named (column ▸ List.mem_map_of_mem old)
    · obtain ⟨only, starts⟩ := List.mem_filter.mp new
      cases List.mem_singleton.mp only
      exact apart (Prod.ext ((beq_iff_eq.mp starts).trans named) column)

theorem relatable_cons (sound : graph.Sound) (after : (graph.related [edge]).Sound)
    (lands : edge.Lands graph.resources) : graph.Relatable (edge :: edges) ↔
      graph.relationship? edge.source edge.column = none ∧
        (graph.related [edge]).Relatable edges := by
  constructor
  · rintro ⟨each, once⟩
    obtain ⟨⟨_, free⟩, later⟩ := List.forall_mem_cons.mp each
    obtain ⟨apart, others⟩ := List.nodup_cons.mp once
    refine ⟨free, fun other member => ?_, others⟩
    obtain ⟨otherLands, otherFree⟩ := later other member
    refine ⟨lands_taken.mpr otherLands, (related_free sound after lands).mpr ⟨otherFree, ?_⟩⟩
    exact fun same => apart (same ▸ List.mem_map_of_mem member)
  · rintro ⟨free, later, others⟩
    have each : ∀ other ∈ edges, other.Lands graph.resources ∧
        graph.relationship? other.source other.column = none ∧ edge.origin ≠ other.origin := by
      intro other member
      obtain ⟨otherLands, otherFree⟩ := later other member
      exact ⟨lands_taken.mp otherLands, (related_free sound after lands).mp otherFree⟩
    refine ⟨List.forall_mem_cons.mpr ⟨⟨lands, free⟩, fun other member => ?_⟩, ?_⟩
    · exact ⟨(each other member).1, (each other member).2.1⟩
    · refine List.nodup_cons.mpr ⟨fun again => ?_, others⟩
      obtain ⟨other, member, same⟩ := List.mem_map.mp again
      exact (each other member).2.2 same.symm

theorem declareRelationships_related (sound : graph.Sound) :
    edges.foldlM declareRelationship graph = .ok next ↔
      graph.Relatable edges ∧ next = graph.related edges := by
  induction edges generalizing graph with
  | nil =>
      have nothing : graph.Relatable [] := ⟨nofun, List.nodup_nil⟩
      simp [related_nil, nothing, pure, Except.pure, eq_comm]
  | cons edge rest ih =>
      rw [foldlM_next, related_cons]
      constructor
      · rintro ⟨middle, declares, others⟩
        have middleSound := declareRelationship_sound sound declares
        obtain ⟨⟨lands, free⟩, rfl⟩ := (declareRelationship_related sound).mp declares
        obtain ⟨later, rfl⟩ := (ih middleSound).mp others
        exact ⟨(relatable_cons sound middleSound lands).mpr ⟨free, later⟩, rfl⟩
      · rintro ⟨relatable, rfl⟩
        obtain ⟨lands, free⟩ := relatable.each edge List.mem_cons_self
        have declares := (declareRelationship_related sound).mpr ⟨⟨lands, free⟩, rfl⟩
        have middleSound := declareRelationship_sound sound declares
        obtain ⟨_, later⟩ := (relatable_cons sound middleSound lands).mp relatable
        exact ⟨_, declares, (ih middleSound).mpr ⟨later, rfl⟩⟩

end Relationships

section Batches

variable {batch : Batch} {items : List (String × List Column)} {id column : String}

theorem extended_relationship? (sound : graph.Sound) (after : (graph.extended items).Sound) :
    (graph.extended items).relationship? id column = none ↔
      graph.relationship? id column = none := by
  rw [relationship?_none after, relationship?_none sound]
  constructor
  · intro free source there
    exact free source (List.mem_append_left _ there)
  · intro free source there named
    rcases List.mem_append.mp there with old | new
    · exact free source old named
    · obtain ⟨_, _, rfl⟩ := List.mem_map.mp new
      exact List.not_mem_nil

theorem fits_declarable (fits : batch.Fits graph) :
    Declarable (graph.resources.map Resource.id) batch.resources :=
  ⟨fun new member => ⟨fits.named new member, fits.fresh new member, fits.columns new member⟩,
    fits.distinct⟩

theorem fits_exact (sound : graph.Sound) (after : (graph.extended batch.resources).Sound) :
    batch.Fits graph ↔ Declarable (graph.resources.map Resource.id) batch.resources ∧
      (graph.extended batch.resources).Relatable batch.relationships := by
  constructor
  · intro fits
    refine ⟨fits_declarable fits, fun edge member => ?_, fits.once⟩
    exact ⟨fits.lands edge member,
      (extended_relationship? sound after).mpr (fits.free edge member)⟩
  · rintro ⟨declarable, relatable⟩
    exact ⟨fun new member => (declarable.each new member).1,
      fun new member => (declarable.each new member).2.1, declarable.distinct,
      fun new member => (declarable.each new member).2.2,
      fun edge member => (relatable.each edge member).1,
      fun edge member => (extended_relationship? sound after).mp (relatable.each edge member).2,
      relatable.once⟩

theorem apply_joined (sound : graph.Sound) :
    graph.apply batch = .ok next ↔ batch.Fits graph ∧ next = graph.joined batch := by
  rw [apply_ok]
  constructor
  · rintro ⟨middle, declares, relates⟩
    have middleSound := declareResources_sound sound declares
    obtain ⟨declarable, rfl⟩ := (declareResources_extended sound).mp declares
    obtain ⟨relatable, rfl⟩ := (declareRelationships_related middleSound).mp relates
    exact ⟨(fits_exact sound middleSound).mpr ⟨declarable, relatable⟩, rfl⟩
  · rintro ⟨fits, rfl⟩
    have declares := (declareResources_extended sound).mpr ⟨fits_declarable fits, rfl⟩
    have middleSound := declareResources_sound sound declares
    obtain ⟨_, relatable⟩ := (fits_exact sound middleSound).mp fits
    exact ⟨_, declares, (declareRelationships_related middleSound).mpr ⟨relatable, rfl⟩⟩

theorem accepts_fits (sound : graph.Sound) :
    (∃ next, graph.apply batch = .ok next) ↔ batch.Fits graph := by
  simp only [apply_joined sound, exists_and_left, exists_eq, and_true]

end Batches

end Graph

structure Batch.Reordered (batch other : Batch) : Prop where
  resources : batch.resources.Perm other.resources
  relationships : batch.relationships.Perm other.relationships

structure Resource.Alike (resource other : Resource) : Prop where
  id : resource.id = other.id
  columns : resource.columns = other.columns
  relationships : resource.relationships.Perm other.relationships

def Graph.Alike (graph other : Graph) : Prop :=
  ∃ middle, graph.resources.Perm middle ∧ List.Forall₂ Resource.Alike middle other.resources

structure Graph.TakesAlike (graph : Graph) (batch other : Batch) : Prop where
  accepts : (∃ next, graph.apply batch = .ok next) ↔ ∃ last, graph.apply other = .ok last
  alike : ∀ next last, graph.apply batch = .ok next → graph.apply other = .ok last →
    next.Alike last

namespace Batch

variable {batch other : Batch} {graph : Graph}

theorem reordered_symm (same : batch.Reordered other) : other.Reordered batch :=
  ⟨same.resources.symm, same.relationships.symm⟩

theorem reordered_declared (same : batch.Reordered other) :
    (graph.declared batch.resources).Perm (graph.declared other.resources) :=
  (same.resources.map _).append_left _

theorem fits_reordered (same : batch.Reordered other) (fits : batch.Fits graph) :
    other.Fits graph where
  named new member := fits.named new (same.resources.mem_iff.mpr member)
  fresh new member := fits.fresh new (same.resources.mem_iff.mpr member)
  distinct := (same.resources.map _).nodup_iff.mp fits.distinct
  columns new member := fits.columns new (same.resources.mem_iff.mpr member)
  lands edge member := by
    have known : ∀ {resource}, resource ∈ graph.declared batch.resources →
        resource ∈ graph.declared other.resources := (reordered_declared same).mem_iff.mp
    obtain ⟨⟨source, there, starts⟩, target, aimed, ends⟩ :=
      fits.lands edge (same.relationships.mem_iff.mpr member)
    exact ⟨⟨source, known there, starts⟩, target, known aimed, ends⟩
  free edge member := fits.free edge (same.relationships.mem_iff.mpr member)
  once := (same.relationships.map _).nodup_iff.mp fits.once

theorem joined_reordered (graph : Graph) (same : batch.Reordered other) :
    (graph.joined batch).Alike (graph.joined other) := by
  have places : (graph.joined batch).resources.Perm
      ((graph.declared other.resources).map (·.take batch.relationships)) :=
    (reordered_declared same).map _
  refine ⟨_, places, ?_⟩
  refine List.forall₂_map_left_iff.mpr (List.forall₂_map_right_iff.mpr ?_)
  exact List.forall₂_same.mpr fun resource _ =>
    ⟨rfl, rfl, (same.relationships.filter _).append_left _⟩

theorem takes_reordered (sound : graph.Sound) (same : batch.Reordered other) :
    graph.TakesAlike batch other := by
  constructor
  · rw [Graph.accepts_fits sound, Graph.accepts_fits sound]
    exact ⟨fits_reordered same, fits_reordered (reordered_symm same)⟩
  · intro next last accepted accepts
    obtain ⟨_, rfl⟩ := (Graph.apply_joined sound).mp accepted
    obtain ⟨_, rfl⟩ := (Graph.apply_joined sound).mp accepts
    exact joined_reordered graph same

inductive Call where
  | resource (id : String) (columns : List Column)
  | relationship (edge : Relationship)

namespace Call

def resource? : Call → Option (String × List Column)
  | .resource id columns => some (id, columns)
  | .relationship _ => none

def relationship? : Call → Option Relationship
  | .resource _ _ => none
  | .relationship edge => some edge

end Call

def add (batch : Batch) : Call → Batch
  | .resource id columns => batch.resource id columns
  | .relationship edge => batch.relationship edge

def built (calls : List Call) : Batch := calls.foldl add empty

theorem built_sorted (calls : List Call) :
    built calls = ⟨calls.filterMap Call.resource?, calls.filterMap Call.relationship?⟩ := by
  have onward : ∀ batch : Batch, calls.foldl add batch =
      ⟨batch.resources ++ calls.filterMap Call.resource?,
        batch.relationships ++ calls.filterMap Call.relationship?⟩ := by
    induction calls with
    | nil => simp
    | cons call rest ih =>
        intro batch
        cases call <;>
          simp [ih, add, resource, relationship, List.filterMap_cons, Call.resource?,
            Call.relationship?]
  exact onward empty

theorem built_reordered {calls others : List Call} (same : calls.Perm others) :
    (built calls).Reordered (built others) := by
  rw [built_sorted, built_sorted]
  exact ⟨same.filterMap _, same.filterMap _⟩

def append (batch later : Batch) : Batch :=
  ⟨batch.resources ++ later.resources, batch.relationships ++ later.relationships⟩

end Batch

namespace Graph

variable {graph middle last : Graph} {batch later : Batch} {edge : Relationship} {id : String}

theorem modify_before {items : List α} (inside : position < items.length) (item : α)
    (change : α → α) :
    (items ++ [item]).modify position change = items.modify position change ++ [item] := by
  apply List.ext_getElem?
  intro place
  by_cases before : place < items.length
  · simp [List.getElem?_modify, List.getElem?_append, List.getElem_modify, before]
  · have apart : position ≠ place := by omega
    simp [List.getElem?_append, before, apart]

theorem declareRelationship_swap (relates : graph.declareRelationship edge = .ok middle)
    (declares : middle.declareResource id columns = .ok last) :
    ∃ first, graph.declareResource id columns = .ok first ∧
      first.declareRelationship edge = .ok last := by
  obtain ⟨position, source, target, located, found, column, free, aimed, key, rfl⟩ :=
    declareRelationship_exact.mp relates
  obtain ⟨named, fresh, whole, rfl⟩ := declareResource_exact.mp declares
  have unknown : graph.position? id = none := fresh
  have before : graph.declareResource id columns = .ok _ :=
    declareResource_exact.mpr ⟨named, unknown, whole, rfl⟩
  obtain ⟨sourceKept, place⟩ := declareResource_keeps before found
  obtain ⟨targetKept, _⟩ := declareResource_keeps before aimed
  refine ⟨_, before, declareRelationship_exact.mpr ⟨position, source, target,
    place.trans located, sourceKept, column, free, targetKept, key, ?_⟩⟩
  obtain ⟨_, again, there⟩ := resource?_exact.mp found
  rw [located] at again
  cases again
  rw [modify_before (List.getElem?_eq_some_iff.mp there).1, List.length_modify]

theorem apply_append (first : graph.apply batch = .ok middle)
    (second : middle.apply later = .ok last) : graph.apply (batch.append later) = .ok last := by
  obtain ⟨declared, declares, relates⟩ := apply_ok.mp first
  obtain ⟨redeclared, redeclares, rerelates⟩ := apply_ok.mp second
  have swap : ∀ (graph : Graph) (edge : Relationship) (middle : Graph)
      (new : String × List Column) (last : Graph), graph.declareRelationship edge = .ok middle →
      middle.declareResource new.1 new.2 = .ok last →
      ∃ first, graph.declareResource new.1 new.2 = .ok first ∧
        first.declareRelationship edge = .ok last :=
    fun _ _ _ _ _ => declareRelationship_swap
  obtain ⟨whole, moved, related⟩ := foldlM_swap swap relates redeclares
  refine apply_ok.mpr ⟨whole, ?_, ?_⟩
  · rw [Batch.append, List.foldlM_append]
    exact bind_ok.mpr ⟨declared, declares, moved⟩
  · rw [Batch.append, List.foldlM_append]
    exact bind_ok.mpr ⟨redeclared, related, rerelates⟩

-- A batch is accepted exactly when all its declarations fit together, and is then put behind
-- what there is. In which order they were given is no matter for that, and neither is whether
-- they came in one batch or in two.
theorem apply_exact (path : graph.Reached) (batch : Batch) :
    ((∃ next, graph.apply batch = .ok next) ↔ batch.Fits graph) ∧
      (∀ next, graph.apply batch = .ok next → next = graph.joined batch) ∧
      (∀ error, graph.apply batch = .error error → graph.after (.batch batch) = graph) ∧
      (∀ other, batch.Reordered other → graph.TakesAlike batch other) ∧
      (∀ calls others : List Batch.Call, calls.Perm others →
        graph.TakesAlike (.built calls) (.built others)) ∧
      (∀ calls others : List Batch.Call,
        calls.filterMap Batch.Call.resource? = others.filterMap Batch.Call.resource? →
        calls.filterMap Batch.Call.relationship? = others.filterMap Batch.Call.relationship? →
        Batch.built calls = Batch.built others) ∧
      ∀ later middle last, graph.apply batch = .ok middle → middle.apply later = .ok last →
        graph.apply (batch.append later) = .ok last := by
  have sound := reaches_sound empty_sound path
  refine ⟨accepts_fits sound, ?_, ?_, ?_, ?_, ?_, fun _ _ _ => apply_append⟩
  · intro next accepted
    exact ((apply_joined sound).mp accepted).2
  · intro error refused
    have declared : graph.declare (.batch batch) = .error error := refused
    exact after_error declared
  · intro other same
    exact Batch.takes_reordered sound same
  · intro calls others same
    exact Batch.takes_reordered sound (Batch.built_reordered same)
  · intro calls others resources relationships
    rw [Batch.built_sorted, Batch.built_sorted, resources, relationships]

def userGraph : Graph :=
  Graph.empty.after (.resource "users" [Column.build "id" .serial [.primaryKey]])

def teamCalls : List Batch.Call :=
  [.relationship ⟨"members", "userId", "users"⟩,
    .resource "members" [Column.plain "userId" .integer, Column.plain "teamId" .integer],
    .relationship ⟨"members", "teamId", "teams"⟩,
    .resource "teams" [Column.build "id" .serial [.primaryKey]]]

theorem teams_accepted :
    userGraph.Reached ∧ (Batch.built teamCalls).Fits userGraph ∧
      (userGraph.joined (.built teamCalls)).relationships =
        [⟨"members", "userId", "users"⟩, ⟨"members", "teamId", "teams"⟩] ∧
      (∃ last, userGraph.apply (.built teamCalls.reverse) = .ok last ∧
        (userGraph.joined (.built teamCalls)).Alike last) ∧
      ¬ (Batch.built (teamCalls ++ teamCalls)).Fits userGraph := by
  have path : userGraph.Reached := .step _ .refl
  have accepted : userGraph.apply (.built teamCalls) = .ok (userGraph.joined (.built teamCalls)) :=
    rfl
  obtain ⟨accepts, _, _, _, reordered, _⟩ := apply_exact path (.built teamCalls)
  obtain ⟨same, alike⟩ := reordered teamCalls teamCalls.reverse (List.reverse_perm _).symm
  obtain ⟨last, taken⟩ := same.mp ⟨_, accepted⟩
  refine ⟨path, accepts.mp ⟨_, accepted⟩, rfl, ⟨last, taken, alike _ _ accepted taken⟩, ?_⟩
  intro fits
  obtain ⟨next, twice⟩ := (apply_exact path (.built (teamCalls ++ teamCalls))).1.mpr fits
  cases twice

end Graph
end RowSecurity

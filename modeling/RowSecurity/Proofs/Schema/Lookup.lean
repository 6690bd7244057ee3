import RowSecurity.Proofs.Schema.History
import RowSecurity.Schema.Cycle

-- Nothing that is looked up by its position is missing, neither in a graph that declarations lead
-- to nor at any moment of the search for cycles.
namespace RowSecurity

def SearchTask.node : SearchTask → Nat
  | .start node | .follow node | .leave node => node

namespace Search

structure Within (search : Search) (count : Nat) : Prop where
  marks : search.marks.length = count
  path : ∀ node ∈ search.path, node < count
  agenda : ∀ task ∈ search.agenda, task.node < count
  found : ∀ cycle ∈ search.found, ∀ node ∈ cycle, node < count

theorem initial_within (count : Nat) : (initial count).Within count := by
  refine ⟨List.length_replicate, nofun, ?_, nofun⟩
  intro task member
  obtain ⟨node, inside, rfl⟩ := List.mem_map.mp member
  exact List.mem_range.mp inside

theorem rotateToLeast_mem {cycle : List Nat} (member : node ∈ rotateToLeast cycle) :
    node ∈ cycle := by
  unfold rotateToLeast at member
  split at member
  · exact member
  · rcases List.mem_append.mp member with later | earlier
    · exact (List.dropWhile_sublist _).subset later
    · exact (List.takeWhile_sublist _).subset earlier

variable {search : Search} {targets : Nat → List Nat} {count : Nat}

theorem closing_within (within : search.Within count) (target : Nat) :
    ∀ cycle ∈ search.closing target, ∀ node ∈ cycle, node < count := by
  intro cycle member node inside
  unfold closing at member
  split at member
  · exact within.found cycle member node inside
  · have onPath : search.path.dropWhile (· != target) ⊆ search.path :=
      (List.dropWhile_sublist _).subset
    dsimp only at member
    split at member
    · exact within.found cycle member node inside
    · rcases List.mem_append.mp member with old | new
      · exact within.found cycle old node inside
      · rw [List.mem_singleton.mp new] at inside
        exact within.path node (onPath (rotateToLeast_mem inside))

variable (led : ∀ node < count, ∀ target ∈ targets node, target < count)
include led

theorem enter_within (within : search.Within count) (inside : node < count) :
    (enter targets search node).Within count := by
  refine ⟨(List.length_set ..).trans within.marks, ?_, ?_, within.found⟩
  · intro other member
    rcases List.mem_append.mp member with old | new
    · exact within.path other old
    · rwa [List.mem_singleton.mp new]
  · intro task member
    rcases List.mem_append.mp member with edge | after
    · obtain ⟨target, aimed, rfl⟩ := List.mem_map.mp edge
      exact led node inside target aimed
    · rcases List.mem_cons.mp after with rfl | old
      · exact inside
      · exact within.agenda task old

theorem step_within (within : search.Within count) : (step targets search).Within count := by
  unfold step
  split
  · exact within
  all_goals
    rename_i node rest agenda
    have inside := within.agenda _ (agenda ▸ List.mem_cons_self)
    have later : ∀ task ∈ rest, task.node < count :=
      fun task member => within.agenda task (agenda ▸ List.mem_cons_of_mem _ member)
    have taken : Search.Within { search with agenda := rest } count :=
      { within with agenda := later }
  · dsimp only
    split
    · exact enter_within led taken inside
    · exact taken
  · dsimp only
    split
    · exact enter_within led taken inside
    · exact { taken with found := closing_within taken node }
    · exact taken
  · exact ⟨(List.length_set ..).trans within.marks,
      fun other member => within.path other (List.dropLast_subset _ member), later, within.found⟩

theorem run_within (steps : Nat) (within : search.Within count) :
    (run targets steps search).Within count := by
  induction steps generalizing search with
  | zero => exact within
  | succ steps ih => exact ih (step_within led within)

end Search

namespace Graph

-- What is there whenever it is looked up: the resource at a position of the index, the
-- position of a target, all that the search looks up, and the resources of a cycle.
structure LooksUp (graph : Graph) : Prop where
  index : ∀ id position, graph.position? id = some position →
    ∃ resource, graph.resources[position]? = some resource ∧ resource.id = id
  targets : ∀ node resource, graph.resources[node]? = some resource →
    (graph.targets node).map some =
      resource.relationships.map fun edge => graph.position? edge.target
  search : ∀ steps, (Search.run graph.targets steps (.initial graph.resources.length)).Within
    graph.resources.length
  cycles : graph.cycles.map (·.map some) =
    graph.search.found.map (·.map fun node => (graph.resources[node]?).map Resource.id)

theorem filterMap_whole {find : α → Option β} {items : List α}
    (whole : ∀ item ∈ items, (find item).isSome = true) :
    (items.filterMap find).map some = items.map find := by
  rw [List.map_filterMap_some_eq_filter_map_isSome, List.filter_eq_self]
  intro result member
  obtain ⟨item, inside, rfl⟩ := List.mem_map.mp member
  exact whole item inside

variable {graph : Graph} {id : String}

theorem sound_index (sound : graph.Sound) (located : graph.position? id = some position) :
    ∃ resource, graph.resources[position]? = some resource ∧ resource.id = id := by
  have held := (sound.index id position).mp located
  rw [List.getElem?_map] at held
  exact Option.map_eq_some_iff.mp held

theorem sound_targets (sound : graph.Sound) (there : graph.resources[node]? = some resource) :
    (graph.targets node).map some =
      resource.relationships.map fun edge => graph.position? edge.target := by
  rw [targets, there]
  refine filterMap_whole fun edge member => ?_
  obtain ⟨target, declared, aimed, _⟩ :=
    (sound.resources resource (List.mem_of_getElem? there)).target edge member
  obtain ⟨position, located, _⟩ :=
    resource?_exact.mp ((resource?_carries sound).mpr ⟨declared, aimed⟩)
  rw [located]
  rfl

theorem sound_led (sound : graph.Sound) :
    ∀ node < graph.resources.length, ∀ target ∈ graph.targets node,
      target < graph.resources.length := by
  intro node inside target member
  rw [targets, List.getElem?_eq_getElem inside] at member
  obtain ⟨edge, _, located⟩ := List.mem_filterMap.mp member
  obtain ⟨resource, there, _⟩ := sound_index sound located
  exact (List.getElem?_eq_some_iff.mp there).1

theorem sound_looksUp (sound : graph.Sound) : graph.LooksUp := by
  have within : ∀ steps, (Search.run graph.targets steps
      (.initial graph.resources.length)).Within graph.resources.length :=
    fun steps => Search.run_within (sound_led sound) steps (Search.initial_within _)
  refine ⟨fun _ _ => sound_index sound, fun _ _ => sound_targets sound, within, ?_⟩
  rw [cycles, List.map_map]
  refine List.map_congr_left fun cycle found => filterMap_whole fun node inside => ?_
  have bound := (within graph.searchLength).found cycle found node inside
  rw [List.getElem?_eq_getElem bound]
  rfl

theorem reached_sound (path : graph.Reached) : graph.Sound ∧ graph.LooksUp := by
  have sound := reaches_sound empty_sound path
  exact ⟨sound, sound_looksUp sound⟩

def chatBatch : Batch :=
  ((Batch.empty.relationship ⟨"messages", "chatId", "chats"⟩).relationship
      ⟨"chats", "pinnedId", "messages"⟩)
    |>.resource "messages" [Column.build "id" .serial [.primaryKey], Column.plain "chatId" .integer]
    |>.resource "chats" [Column.build "id" .serial [.primaryKey], Column.plain "pinnedId" .integer]

def chatGraph : Graph :=
  ((Graph.empty.after (.batch chatBatch)).after (.resource "chats" [])).after
    (.relationship ⟨"chats", "id", "drafts"⟩)

theorem chats_sound :
    chatGraph.Reached ∧ chatGraph.Sound ∧ chatGraph.LooksUp ∧
      chatGraph.relationships = [⟨"messages", "chatId", "chats"⟩, ⟨"chats", "pinnedId", "messages"⟩] ∧
      chatGraph.cycles = [["messages", "chats"]] := by
  have path : chatGraph.Reached := .step _ (.step _ (.step _ .refl))
  obtain ⟨sound, looksUp⟩ := reached_sound path
  exact ⟨path, sound, looksUp, by rfl, by rfl⟩

end Graph
end RowSecurity

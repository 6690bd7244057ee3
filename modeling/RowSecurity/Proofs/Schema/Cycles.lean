import Mathlib.Algebra.BigOperators.Fin
import RowSecurity.Proofs.Schema.Report

-- Which cycles are reported: those that the search walks around. That is not all of them, as a
-- resource that was left is not entered again.
namespace RowSecurity.Graph

def ids (graph : Graph) : List String := graph.resources.map Resource.id

def rank (graph : Graph) (id : String) : Nat := graph.ids.idxOf id

def nameAt (graph : Graph) (node : Nat) : String := (graph.ids[node]?).getD ""

def Leads (graph : Graph) (source target : String) : Prop :=
  ∃ edge ∈ graph.relationships, edge.source = source ∧ edge.target = target

def walked (graph : Graph) (steps : Nat) : List String :=
  (Search.run graph.targets steps (.initial graph.resources.length)).path.filterMap fun node =>
    (graph.resources[node]?).map Resource.id

-- At some moment the end of the path runs around the whole cycle.
def Walks (graph : Graph) (cycle : List String) : Prop :=
  ∃ steps, ∃ walk, walk ~r cycle ∧ walk <:+ graph.walked steps

variable {graph : Graph} {name : String} {node : Nat} {nodes : List Nat}

theorem name_there (inside : node < graph.resources.length) :
    (graph.resources[node]?).map Resource.id = some (graph.nameAt node) := by
  rw [nameAt, ids, List.getElem?_map, List.getElem?_eq_getElem inside]
  rfl

theorem names_map (inside : ∀ node ∈ nodes, node < graph.resources.length) :
    (nodes.filterMap fun node => (graph.resources[node]?).map Resource.id) =
      nodes.map graph.nameAt := by
  rw [← List.filterMap_eq_map]
  exact List.filterMap_congr fun node member => name_there (inside node member)

theorem name_rank (declared : name ∈ graph.ids) : graph.nameAt (graph.rank name) = name := by
  rw [nameAt, rank, List.getElem?_idxOf declared]
  rfl

theorem linked_exact {other : Nat} : Search.Linked graph.targets node other ↔
    ∃ resource, graph.resources[node]? = some resource ∧
      ∃ edge ∈ resource.relationships, graph.position? edge.target = some other := by
  rw [Search.Linked, targets]
  cases graph.resources[node]? with
  | none => simp
  | some resource => simp [List.mem_filterMap]

section Declared

variable (sound : graph.Sound)
include sound

theorem rank_name (inside : node < graph.resources.length) :
    graph.rank (graph.nameAt node) = node := by
  have bound : node < graph.ids.length := by rwa [ids, List.length_map]
  rw [nameAt, rank, List.getElem?_eq_getElem bound]
  exact sound.distinct.idxOf_getElem node bound

theorem position_rank : graph.position? name = some node ↔
    name ∈ graph.ids ∧ graph.rank name = node := by
  rw [sound.index]
  constructor
  · intro there
    obtain ⟨bound, same⟩ := List.getElem?_eq_some_iff.mp there
    refine ⟨List.mem_of_getElem? there, ?_⟩
    rw [rank, ← same]
    exact sound.distinct.idxOf_getElem node bound
  · rintro ⟨declared, rfl⟩
    exact List.getElem?_idxOf declared

theorem linked_leads {other : Nat} (linked : Search.Linked graph.targets node other) :
    graph.Leads (graph.nameAt node) (graph.nameAt other) := by
  obtain ⟨resource, there, edge, member, located⟩ := linked_exact.mp linked
  have declared := List.mem_of_getElem? there
  have source : graph.nameAt node = resource.id := by
    rw [nameAt, ids, List.getElem?_map, there]
    rfl
  obtain ⟨known, rfl⟩ := (position_rank sound).mp located
  rw [source, name_rank known]
  exact ⟨edge, List.mem_flatMap.mpr ⟨resource, declared, member⟩,
    (sound.resources resource declared).source edge member, rfl⟩

theorem leads_linked {source target : String} (leads : graph.Leads source target) :
    Search.Linked graph.targets (graph.rank source) (graph.rank target) := by
  obtain ⟨edge, member, rfl, rfl⟩ := leads
  obtain ⟨resource, declared, inside⟩ := List.mem_flatMap.mp member
  have carried := sound.resources resource declared
  obtain ⟨place, there⟩ := List.mem_iff_getElem?.mp declared
  have located : graph.position? resource.id = some place := by
    rw [sound.index, List.getElem?_map, there]
    rfl
  obtain ⟨target, known, aimed, _⟩ := carried.target edge inside
  rw [carried.source edge inside, ((position_rank sound).mp located).2]
  refine linked_exact.mpr ⟨resource, there, edge, inside, (position_rank sound).mpr ⟨?_, rfl⟩⟩
  exact aimed ▸ List.mem_map_of_mem known

theorem leads_declared {source target : String} (leads : graph.Leads source target) :
    target ∈ graph.ids := by
  obtain ⟨edge, member, rfl, rfl⟩ := leads
  obtain ⟨resource, declared, inside⟩ := List.mem_flatMap.mp member
  obtain ⟨target, known, aimed, _⟩ := (sound.resources resource declared).target edge inside
  exact aimed ▸ List.mem_map_of_mem known

section Numbering

section Closed

variable {walk : List String} (closed : (walk : Cycle String).Chain graph.Leads)
include closed

theorem closed_declared : ∀ id ∈ walk, id ∈ graph.ids := by
  intro id member
  obtain ⟨_, _, leads⟩ := closed_joins closed member
  exact leads_declared sound leads

theorem rank_inside : ∀ node ∈ walk.map graph.rank, node < graph.resources.length := by
  intro node member
  obtain ⟨name, inWalk, rfl⟩ := List.mem_map.mp member
  have place := List.idxOf_lt_length_of_mem (closed_declared sound closed name inWalk)
  rwa [ids, List.length_map] at place

theorem closed_ranked :
    (walk.map graph.rank : Cycle Nat).Chain (Search.Linked graph.targets) := by
  rw [← Cycle.map_coe, Cycle.chain_map]
  exact closed.imp fun _ _ => leads_linked sound

theorem ranked_named : (walk.map graph.rank).map graph.nameAt = walk := by
  rw [List.map_map]
  conv_rhs => rw [← List.map_id walk]
  exact List.map_congr_left fun id member => name_rank (closed_declared sound closed id member)

end Closed

variable {cycle : List String}

theorem cycle_ranked (simple : SimpleCycle graph.Leads cycle) :
    SimpleCycle (Search.Linked graph.targets) (cycle.map graph.rank) := by
  have declared := closed_declared sound simple.closed
  refine simple.map graph.rank (fun _ _ => leads_linked sound) fun one member other also same => ?_
  rw [← name_rank (declared one member), same, name_rank (declared other also)]

theorem cycle_named (simple : SimpleCycle (Search.Linked graph.targets) nodes)
    (inside : ∀ node ∈ nodes, node < graph.resources.length) :
    SimpleCycle graph.Leads (nodes.map graph.nameAt) := by
  refine simple.map graph.nameAt (fun _ _ => linked_leads sound) fun one member other also same => ?_
  rw [← rank_name sound (inside one member), same, rank_name sound (inside other also)]

theorem first_named (first : LeastFirst id nodes)
    (inside : ∀ node ∈ nodes, node < graph.resources.length) :
    LeastFirst graph.rank (nodes.map graph.nameAt) := by
  cases nodes with
  | nil => trivial
  | cons node rest =>
      intro later member
      obtain ⟨other, also, rfl⟩ := List.mem_map.mp member
      rw [rank_name sound (inside node List.mem_cons_self),
        rank_name sound (inside other (List.mem_cons_of_mem _ also))]
      exact first other also

end Numbering

theorem search_length : (Search.initial graph.resources.length).work graph.targets
    graph.resources.length = graph.searchLength := by
  have edges : ∀ node : Fin graph.resources.length, (graph.targets node).length =
      (graph.resources.get node).relationships.length := by
    intro node
    have same := congrArg List.length
      (sound_targets sound (List.getElem?_eq_getElem node.isLt))
    rwa [List.length_map, List.length_map] at same
  rw [Search.initial_work, searchLength, Finset.sum_range, relationships, List.length_flatMap,
    ← Fin.sum_univ_fun_getElem]
  simp only [edges]
  rfl

theorem search_over : graph.search.agenda = [] :=
  (Search.initial_traversal _).run_ends (sound_led sound) (search_length sound).le

theorem search_found {cycle : List String} : cycle ∈ graph.cycles ↔
    ∃ nodes ∈ graph.search.found, nodes.map graph.nameAt = cycle := by
  have within := ((sound_looksUp sound).search graph.searchLength).found
  rw [cycles, List.mem_map]
  refine exists_congr fun nodes => and_congr_right fun found => ?_
  rw [names_map (within nodes found)]

section Reporting

variable {cycle first : List String}

theorem search_report : Search.Report graph.targets graph.resources.length graph.search :=
  (Search.initial_report _).run (sound_led sound) (Search.initial_traversal _) _

theorem cycles_simple (reported : cycle ∈ graph.cycles) :
    SimpleCycle graph.Leads cycle ∧ LeastFirst graph.rank cycle := by
  obtain ⟨nodes, found, rfl⟩ := (search_found sound).mp reported
  obtain ⟨simple, least⟩ := (search_report sound).simple nodes found
  have inside := ((sound_looksUp sound).search graph.searchLength).found nodes found
  exact ⟨cycle_named sound simple inside, first_named sound least inside⟩

theorem cycles_nodup : graph.cycles.Nodup := by
  have within := ((sound_looksUp sound).search graph.searchLength).found
  refine (search_report sound).single.map_on fun nodes found others also same => ?_
  rw [names_map (within nodes found), names_map (within others also)] at same
  have ranked : ∀ known ∈ graph.search.found,
      (known.map graph.nameAt).map graph.rank = known := by
    intro known member
    rw [List.map_map]
    conv_rhs => rw [← List.map_id known]
    exact List.map_congr_left fun node inside => rank_name sound (within known member node inside)
  rw [← ranked nodes found, same, ranked others also]

theorem listed_turned (least : LeastFirst graph.rank first) (turned : first ~r cycle) :
    first ∈ graph.cycles ↔ ∃ known ∈ graph.cycles, known ~r cycle := by
  constructor
  · intro listed
    exact ⟨first, listed, turned⟩
  · rintro ⟨known, listed, same⟩
    have knownLeast := (cycles_simple sound listed).2
    rwa [leastFirst_unique least knownLeast (turned.trans same.symm)]

theorem cycle_first (simple : SimpleCycle graph.Leads cycle) :
    ∃ first, first ~r cycle ∧ LeastFirst graph.rank first := by
  have ranked := cycle_ranked sound simple
  have turned := Search.rotateToLeast_rotated (cycle.map graph.rank)
  refine ⟨(Search.rotateToLeast (cycle.map graph.rank)).map graph.nameAt, ?_, ?_⟩
  · have named := turned.map graph.nameAt
    rwa [ranked_named sound simple.closed] at named
  · refine first_named sound (Search.rotateToLeast_first ranked.distinct) fun node member => ?_
    exact rank_inside sound simple.closed node (turned.mem_iff.mp member)

theorem walked_reported (simple : SimpleCycle graph.Leads cycle) (walks : graph.Walks cycle) :
    ∃ known ∈ graph.cycles, known ~r cycle := by
  obtain ⟨moment, walk, turned, before, path⟩ := walks
  have traversal := (Search.initial_traversal graph.resources.length).run (sound_led sound) moment
  rw [walked, names_map ((sound_looksUp sound).search moment).path, eq_comm,
    List.map_eq_append_iff] at path
  obtain ⟨front, nodes, cut, _, rfl⟩ := path
  have round := simple.rotated turned
  obtain ⟨target, back, rfl⟩ :=
    List.exists_cons_of_ne_nil (mt List.map_eq_nil_iff.mpr round.nonempty)
  have inside : ∀ node ∈ target :: back, node < graph.resources.length := by
    intro node member
    refine ((sound_looksUp sound).search moment).path node ?_
    rw [cut]
    exact List.mem_append_right _ member
  obtain ⟨source, last⟩ : ∃ source, (target :: back).getLast? = some source :=
    ⟨_, List.getLast?_eq_some_getLast (List.cons_ne_nil _ _)⟩
  have edge : Search.Linked graph.targets source target := by
    have ends : ((target :: back).map graph.nameAt).getLast? = some (graph.nameAt source) := by
      rw [List.getLast?_map, last]
      rfl
    have linked := leads_linked sound ((chain_ends rfl ends).mp round.closed).2
    rwa [rank_name sound (inside source (List.mem_of_getLast? last)),
      rank_name sound (inside target List.mem_cons_self)] at linked
  -- However long the search goes on, it ends in the same report.
  have finished : Search.run graph.targets graph.searchLength (Search.run graph.targets moment
      (.initial graph.resources.length)) = graph.search := by
    rw [← Search.run_add, Nat.add_comm, Search.run_add]
    exact Search.run_over (search_over sound) moment
  have ended := search_over sound
  rw [← finished] at ended
  have reports := traversal.run_reports (sound_led sound) ended cut last edge
  rw [finished] at reports
  obtain ⟨nodes, found, same⟩ := reports
  exact ⟨_, (search_found sound).mpr ⟨nodes, found, rfl⟩, (same.map graph.nameAt).trans turned⟩

theorem reported_walked (listed : first ∈ graph.cycles) (turned : first ~r cycle) :
    graph.Walks cycle := by
  obtain ⟨nodes, found, rfl⟩ := (search_found sound).mp listed
  rcases (Search.initial_traversal _).run_found (sound_led sound) found with
    none | ⟨moment, target, member, rfl⟩
  · cases none
  · obtain ⟨front, back, path, _, rest⟩ := Search.cut_at member
    refine ⟨moment, (target :: back).map graph.nameAt, ?_, ?_⟩
    · rw [Search.loop, rest] at turned
      exact ((Search.rotateToLeast_rotated _).symm.map graph.nameAt).trans turned
    · rw [walked, names_map ((sound_looksUp sound).search moment).path, path, List.map_append]
      exact List.suffix_append _ _

theorem closed_touched {walk : List String} (nonempty : walk ≠ [])
    (closed : (walk : Cycle String).Chain graph.Leads) :
    ∃ known ∈ graph.cycles, ∃ source target,
      Joins known source target ∧ Joins walk source target := by
  have traversal := (Search.initial_traversal graph.resources.length).run (sound_led sound)
    graph.searchLength
  have left : ∀ node ∈ walk.map graph.rank, node < graph.resources.length ∧
      graph.search.mark node = .done := by
    intro node member
    have inside := rank_inside sound closed node member
    exact ⟨inside, (traversal.over_done (search_over sound) inside).2⟩
  obtain ⟨nodes, found, source, target, known, joins⟩ := (search_report sound).touched _
    (mt List.map_eq_nil_iff.mp nonempty) (closed_ranked sound closed) left
  have named := joins.map graph.nameAt
  rw [ranked_named sound closed] at named
  exact ⟨_, (search_found sound).mpr ⟨nodes, found, rfl⟩, _, _, known.map graph.nameAt, named⟩

theorem cycle_touched (simple : SimpleCycle graph.Leads cycle) :
    ∃ known ∈ graph.cycles, ∃ source target,
      Joins known source target ∧ Joins cycle source target :=
  closed_touched sound simple.nonempty simple.closed

end Reporting

end Declared

-- A cycle is reported exactly where the search walks around it, and then once, from its
-- earliest resource on. So it is wherever no other cycle shares an edge with it.
theorem cycle_reported_exact {cycle : List String} (reached : graph.Reached)
    (simple : SimpleCycle graph.Leads cycle) :
    ∃ first, first ~r cycle ∧ LeastFirst graph.rank first ∧ graph.cycles.count first ≤ 1 ∧
      (graph.cycles.count first = 1 ↔ graph.Walks cycle) ∧
      ((∀ other source target, SimpleCycle graph.Leads other → Joins other source target →
        Joins cycle source target → other ~r cycle) → graph.cycles.count first = 1) := by
  have sound := reaches_sound empty_sound reached
  have single := cycles_nodup sound
  obtain ⟨first, turned, least⟩ := cycle_first sound simple
  have once : graph.cycles.count first = 1 ↔ first ∈ graph.cycles :=
    ⟨fun one => List.count_pos_iff.mp (one ▸ Nat.one_pos), List.count_eq_one_of_mem single⟩
  refine ⟨first, turned, least, List.nodup_iff_count_le_one.mp single first, ?_, ?_⟩
  · rw [once]
    constructor
    · intro listed
      exact reported_walked sound listed turned
    · intro walks
      exact (listed_turned sound least turned).mpr (walked_reported sound simple walks)
  · intro alone
    obtain ⟨known, listed, source, target, there, here⟩ := cycle_touched sound simple
    have same := alone known source target (cycles_simple sound listed).1 there here
    exact once.mpr ((listed_turned sound least turned).mpr ⟨known, listed, same⟩)

theorem chats_reported :
    chatGraph.Reached ∧ SimpleCycle chatGraph.Leads ["chats", "messages"] ∧
      ∃ first, first ~r ["chats", "messages"] ∧ LeastFirst chatGraph.rank first ∧
        chatGraph.cycles.count first = 1 := by
  have path : chatGraph.Reached := .step _ (.step _ (.step _ .refl))
  have edges : chatGraph.relationships =
      [⟨"messages", "chatId", "chats"⟩, ⟨"chats", "pinnedId", "messages"⟩] := by rfl
  have simple : SimpleCycle chatGraph.Leads ["chats", "messages"] :=
    ⟨by decide, by decide, by simp [Cycle.chain_coe_cons, Leads, edges]⟩
  have walks : chatGraph.Walks ["chats", "messages"] :=
    ⟨2, ["messages", "chats"], by decide, [], by rfl⟩
  obtain ⟨first, turned, least, _, reported, _⟩ := cycle_reported_exact path simple
  exact ⟨path, simple, first, turned, least, reported.mpr walks⟩

-- The projects are entered by way of the teams, and they are left when the edge to them from
-- the users is followed.
def staffGraph : Graph :=
  Graph.empty.after (.batch ((((((Batch.empty.relationship ⟨"users", "team_id", "teams"⟩
    ).relationship ⟨"teams", "project_id", "projects"⟩).relationship
      ⟨"projects", "owner_id", "users"⟩).relationship ⟨"users", "project_id", "projects"⟩)
    |>.resource "users" [Column.build "id" .serial [.primaryKey],
      Column.plain "team_id" .integer, Column.plain "project_id" .integer]
    |>.resource "teams" [Column.build "id" .serial [.primaryKey],
      Column.plain "project_id" .integer])
    |>.resource "projects" [Column.build "id" .serial [.primaryKey],
      Column.plain "owner_id" .integer]))

theorem staff_cycle_missed :
    staffGraph.Reached ∧ SimpleCycle staffGraph.Leads ["users", "projects"] ∧
      LeastFirst staffGraph.rank ["users", "projects"] ∧
      staffGraph.cycles = [["users", "teams", "projects"]] ∧
      staffGraph.cycles.count ["users", "projects"] = 0 := by
  have path : staffGraph.Reached := .step _ .refl
  have edges : staffGraph.relationships = [⟨"users", "team_id", "teams"⟩,
      ⟨"users", "project_id", "projects"⟩, ⟨"teams", "project_id", "projects"⟩,
      ⟨"projects", "owner_id", "users"⟩] := by rfl
  have cycles : staffGraph.cycles = [["users", "teams", "projects"]] := by rfl
  have simple : SimpleCycle staffGraph.Leads ["users", "projects"] :=
    ⟨by decide, by decide, by simp [Cycle.chain_coe_cons, Leads, edges]⟩
  have ids : staffGraph.ids = ["users", "teams", "projects"] := by rfl
  refine ⟨path, simple, ?_, cycles, ?_⟩
  · simp [LeastFirst, rank, ids]
  · rw [cycles]
    decide

section Returning

variable (sound : graph.Sound)
include sound

theorem returning_reported {id : String} (returns : Relation.TransGen graph.Leads id id) :
    ∃ known ∈ graph.cycles, ∀ member ∈ known,
      Relation.TransGen graph.Leads id member ∧ Relation.TransGen graph.Leads member id := by
  obtain ⟨walk, start, closed⟩ := returns_closed returns
  obtain ⟨known, listed, source, target, there, here⟩ :=
    closed_touched sound (List.ne_nil_of_mem start) closed
  have round := (cycles_simple sound listed).1.closed
  refine ⟨known, listed, fun member inside => ⟨?_, ?_⟩⟩
  · exact (closed_reaches closed start here.source_mem).trans
      (closed_reaches round there.source_mem inside)
  · exact (closed_reaches round inside there.source_mem).trans
      (closed_reaches closed here.source_mem start)

theorem cycles_none : graph.cycles = [] ↔ ∀ id, ¬ Relation.TransGen graph.Leads id id := by
  constructor
  · intro none id returns
    obtain ⟨known, listed, _⟩ := returning_reported sound returns
    rw [none] at listed
    cases listed
  · intro acyclic
    rw [List.eq_nil_iff_forall_not_mem]
    intro known listed
    have simple := (cycles_simple sound listed).1
    obtain ⟨id, member⟩ := List.exists_mem_of_ne_nil known simple.nonempty
    exact acyclic id (closed_reaches simple.closed member member)

end Returning

-- The report of a graph that declarations led to: simple cycles of declared resources, each
-- from its earliest one on and no two of them the same. Every walk that ends where it began has
-- an edge with one of them in common, and every resource that can be returned to has one of
-- them in its component.
theorem cycles_cover (reached : graph.Reached) :
    (∀ cycle ∈ graph.cycles, SimpleCycle graph.Leads cycle ∧
        (∀ id ∈ cycle, id ∈ graph.ids) ∧ LeastFirst graph.rank cycle) ∧
      graph.cycles.Nodup ∧
      (∀ walk : List String, walk ≠ [] → (walk : Cycle String).Chain graph.Leads →
        ∃ known ∈ graph.cycles, ∃ source target,
          Joins known source target ∧ Joins walk source target) ∧
      (graph.cycles = [] ↔ ∀ id, ¬ Relation.TransGen graph.Leads id id) ∧
      ∀ id, Relation.TransGen graph.Leads id id → ∃ known ∈ graph.cycles, ∀ member ∈ known,
        Relation.TransGen graph.Leads id member ∧ Relation.TransGen graph.Leads member id := by
  have sound := reaches_sound empty_sound reached
  refine ⟨?_, cycles_nodup sound, ?_, cycles_none sound, fun id => returning_reported sound⟩
  · intro cycle listed
    obtain ⟨simple, least⟩ := cycles_simple sound listed
    exact ⟨simple, closed_declared sound simple.closed, least⟩
  · intro walk nonempty closed
    exact closed_touched sound nonempty closed

def officeGraph : Graph :=
  Graph.empty.after (.batch (((((Batch.empty.relationship ⟨"folders", "parent", "folders"⟩
    ).relationship ⟨"folders", "owner", "users"⟩).relationship ⟨"folders", "editor", "users"⟩
      ).relationship ⟨"users", "home", "folders"⟩)
    |>.resource "folders" [Column.build "id" .serial [.primaryKey], Column.plain "parent" .integer,
      Column.plain "owner" .integer, Column.plain "editor" .integer]
    |>.resource "users" [Column.build "id" .serial [.primaryKey], Column.plain "home" .integer]))

theorem office_covered :
    officeGraph.Reached ∧ officeGraph.cycles = [["folders"], ["folders", "users"]] ∧
      (∃ known ∈ officeGraph.cycles, ∃ source target, Joins known source target ∧
        Joins ["users", "folders", "folders"] source target) ∧
      Relation.TransGen officeGraph.Leads "users" "users" := by
  have path : officeGraph.Reached := .step _ .refl
  have edges : officeGraph.relationships = [⟨"folders", "parent", "folders"⟩,
      ⟨"folders", "owner", "users"⟩, ⟨"folders", "editor", "users"⟩,
      ⟨"users", "home", "folders"⟩] := by rfl
  have closed : (["users", "folders", "folders"] : Cycle String).Chain officeGraph.Leads := by
    simp [Cycle.chain_coe_cons, Leads, edges]
  obtain ⟨_, _, touched, _, _⟩ := cycles_cover path
  exact ⟨path, by rfl, touched _ (List.cons_ne_nil _ _) closed,
    closed_reaches closed List.mem_cons_self List.mem_cons_self⟩

end RowSecurity.Graph

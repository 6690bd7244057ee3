import RowSecurity.Proofs.Schema.Search

-- The report of the search: cycles, each once, and of every cycle at least one edge.
namespace RowSecurity.Search

variable {search next : Search} {targets : Nat → List Nat} {count node target steps : Nat}
  {walked cycle : List Nat} {rest : List SearchTask}

namespace Traversal

variable (traversal : Traversal targets count search)
include traversal

theorem kept (move : Move targets search next) (stands : walked ++ [node] <+: search.path) :
    walked ++ [node] <+: next.path ∨
      ∀ target ∈ targets node, next.Settled (walked ++ [node]) target := by
  have onward := traversal.onward move
  cases move with
  | pass | skip | close => exact .inl stands
  | enter first aim fresh => exact .inl (stands.trans (List.prefix_append _ _))
  | @leave rest other first =>
      obtain ⟨⟨below, ends⟩, settled⟩ := traversal.leaving first
      rw [ends, List.prefix_concat_iff] at stands
      rcases stands with whole | shorter
      · obtain ⟨_, same⟩ := List.append_inj' whole rfl
        cases same
        rw [ends, ← whole] at settled
        exact .inr fun target edge => (settled target edge).onward onward
      · rw [Search.retreat, ends, List.dropLast_concat]
        exact .inl shorter

theorem last_behind (first : search.agenda = .leave node :: rest) (edge : target ∈ targets node) :
    search.mark target = .done ∨ search.mark target = .onPath ∧
      ∃ known ∈ search.found, Joins known node target := by
  obtain ⟨⟨below, ends⟩, settled⟩ := traversal.leaving first
  obtain ⟨visited, closed⟩ := settled target edge
  cases marked : search.mark target with
  | unvisited => exact absurd marked visited
  | done => exact .inl rfl
  | onPath =>
      have member := (traversal.onPath target).mp marked
      have last : search.path.getLast? = some node := by rw [ends, List.getLast?_concat]
      exact .inr ⟨rfl, _, closed member, loop_joins member last⟩

variable (led : ∀ node < count, ∀ target ∈ targets node, target < count)
include led

theorem run_kept (steps : Nat) (stands : walked ++ [node] <+: search.path) :
    walked ++ [node] <+: (Search.run targets steps search).path ∨
      ∀ target ∈ targets node,
        (Search.run targets steps search).Settled (walked ++ [node]) target := by
  refine (run_keeps (fun search => Traversal targets count search ∧
    (walked ++ [node] <+: search.path ∨
      ∀ target ∈ targets node, search.Settled (walked ++ [node]) target)) ?_ steps
    ⟨traversal, .inl stands⟩).2
  rintro search next ⟨traversal, stands | settled⟩ move
  · exact ⟨traversal.move led move, traversal.kept move stands⟩
  · exact ⟨traversal.move led move,
      .inr fun target edge => (settled target edge).onward (traversal.onward move)⟩

theorem run_reports {front back : List Nat}
    (ended : (Search.run targets steps search).agenda = [])
    (path : search.path = front ++ target :: back)
    (last : (target :: back).getLast? = some node) (edge : target ∈ targets node) :
    ∃ known ∈ (Search.run targets steps search).found, known ~r target :: back := by
  have ends := (traversal.run led steps).framed
  rw [ended] at ends
  obtain ⟨below, whole⟩ := List.getLast?_eq_some_iff.mp last
  have stands : (front ++ below) ++ [node] = search.path := by
    rw [path, whole, List.append_assoc]
  rcases traversal.run_kept led steps ⟨[], (List.append_nil _).trans stands⟩ with still | settled
  · rw [ends.ended, List.prefix_nil] at still
    simp at still
  · have absent : target ∉ front := by
      intro member
      have distinct := traversal.distinct
      rw [path] at distinct
      exact (List.nodup_append.mp distinct).2.2 target member target List.mem_cons_self rfl
    have found := (settled target edge).2 (by rw [stands, path]; simp)
    rw [stands, path, loop, (cut_here absent).2] at found
    exact ⟨_, found, rotateToLeast_rotated _⟩

theorem run_found (found : cycle ∈ (Search.run targets steps search).found) :
    cycle ∈ search.found ∨ ∃ moment, ∃ target ∈ (Search.run targets moment search).path,
      cycle = loop (Search.run targets moment search).path target := by
  induction steps generalizing search with
  | zero => exact .inl found
  | succ steps ih =>
      by_cases ended : search.agenda = []
      · rw [run_over ended] at found
        exact .inl found
      · have move := step_move targets ended
        rcases ih (traversal.move led move) found with known | ⟨moment, target, member, rfl⟩
        · generalize next : step targets search = after at move known
          cases move with
          | pass | skip | enter | leave => exact .inl known
          | @close rest target first onPath =>
              have member := (traversal.onPath target).mp onPath
              rcases (closing_mem member).mp known with old | rfl
              · exact .inl old
              · exact .inr ⟨0, target, member, rfl⟩
        · exact .inr ⟨moment + 1, target, member, rfl⟩

end Traversal

-- What holds of the report at every moment. A node that was left leads to nodes that were
-- left before it, but for those edges that closed a cycle.
structure Report (targets : Nat → List Nat) (count : Nat) (search : Search) : Prop where
  simple : ∀ cycle ∈ search.found,
    SimpleCycle (Linked targets) cycle ∧ LeastFirst id cycle
  single : search.found.Nodup
  behind : ∀ node < count, search.mark node = .done → ∀ target ∈ targets node,
    search.mark target = .done ∨
      search.mark target = .onPath ∧ ∃ known ∈ search.found, Joins known node target
  touched : ∀ cycle : List Nat, cycle ≠ [] →
    (cycle : Cycle Nat).Chain (Linked targets) →
    (∀ node ∈ cycle, node < count ∧ search.mark node = .done) →
    ∃ known ∈ search.found, ∃ source target, Joins known source target ∧ Joins cycle source target

theorem initial_report (count : Nat) : Report targets count (initial count) := by
  refine ⟨nofun, List.nodup_nil, ?_, ?_⟩
  · intro node inside done
    rw [initial_mark inside] at done
    cases done
  · intro cycle nonempty _ left
    obtain ⟨node, member⟩ := List.exists_mem_of_ne_nil cycle nonempty
    obtain ⟨inside, done⟩ := left node member
    rw [initial_mark inside] at done
    cases done

namespace Report

variable (report : Report targets count search)
include report

theorem grown (simple : ∀ cycle ∈ next.found,
      SimpleCycle (Linked targets) cycle ∧ LeastFirst id cycle)
    (single : next.found.Nodup) (kept : search.found ⊆ next.found)
    (done : ∀ node, next.mark node = .done ↔ search.mark node = .done)
    (onPath : ∀ node, search.mark node = .onPath → next.mark node = .onPath) :
    Report targets count next := by
  refine ⟨simple, single, ?_, ?_⟩
  · intro node inside left target edge
    rcases report.behind node inside ((done node).mp left) target edge with
      earlier | ⟨above, known, found, joins⟩
    · exact .inl ((done target).mpr earlier)
    · exact .inr ⟨onPath target above, known, kept found, joins⟩
  · intro cycle nonempty closed left
    obtain ⟨known, found, shared⟩ := report.touched cycle nonempty closed fun node member =>
      ⟨(left node member).1, (done node).mp (left node member).2⟩
    exact ⟨known, kept found, shared⟩

theorem advance (inside : node < search.marks.length) (fresh : search.mark node = .unvisited) :
    Report targets count (search.advance targets node rest) := by
  refine report.grown report.simple report.single (fun _ => id) ?_ ?_
  all_goals
    intro other
    rw [mark_advance inside]
    by_cases same : other = node <;> simp [same, fresh]

theorem close (traversal : Traversal targets count search)
    (first : search.agenda = .follow target :: rest) (onPath : search.mark target = .onPath) :
    Report targets count { search with agenda := rest, found := search.closing target } := by
  have member := (traversal.onPath target).mp onPath
  have framed := traversal.framed
  rw [first] at framed
  obtain ⟨source, last, edge, _⟩ := framed.follow
  refine report.grown ?_ (closing_nodup member report.single)
    (fun cycle known => (closing_mem member).mpr (.inl known)) (fun _ => Iff.rfl) fun _ => id
  intro cycle reported
  rcases (closing_mem member).mp reported with old | rfl
  · exact report.simple cycle old
  · exact ⟨loop_simple traversal.distinct traversal.linked member last edge,
      loop_first traversal.distinct target⟩

theorem retreat (traversal : Traversal targets count search)
    (first : search.agenda = .leave node :: rest) :
    Report targets count (search.retreat node rest) := by
  have inside : node < search.marks.length := traversal.head_inside first
  have bound : node < count := traversal.within.marks ▸ inside
  have edges : ∀ source < count, source = node ∨ search.mark source = .done →
      ∀ target ∈ targets source, search.mark target = .done ∨ search.mark target = .onPath ∧
        ∃ known ∈ search.found, Joins known source target := by
    rintro source below (rfl | left) target edge
    · exact traversal.last_behind first edge
    · exact report.behind source below left target edge
  have left : ∀ other, (search.retreat node rest).mark other = .done →
      other = node ∨ search.mark other = .done := by
    intro other done
    rw [mark_retreat inside] at done
    split at done
    · rename_i same
      exact .inl same
    · exact .inr done
  refine ⟨report.simple, report.single, ?_, ?_⟩
  · intro source below done target edge
    rw [mark_retreat inside]
    by_cases same : target = node
    · exact .inl (if_pos same)
    · rw [if_neg same]
      exact edges source below (left source done) target edge
  · intro cycle nonempty closed all
    by_cases member : node ∈ cycle
    · -- The edge of the cycle to the node that is left was followed while it was on the path.
      obtain ⟨source, joins, edge⟩ := closed_joins closed member
      obtain ⟨below, done⟩ := all source joins.source_mem
      rcases edges source below (left source done) node edge with earlier | ⟨_, known, found, same⟩
      · rw [traversal.leaving_onPath first] at earlier
        cases earlier
      · exact ⟨known, found, source, node, same, joins⟩
    · refine report.touched cycle nonempty closed fun other inCycle => ?_
      obtain ⟨below, done⟩ := all other inCycle
      refine ⟨below, (left other done).resolve_left ?_⟩
      rintro rfl
      exact member inCycle

theorem move (traversal : Traversal targets count search) (move : Move targets search next) :
    Report targets count next := by
  cases move with
  | pass | skip =>
      exact report.grown report.simple report.single (fun _ => id) (fun _ => Iff.rfl) fun _ => id
  | @enter task rest node first aim fresh =>
      have inside := traversal.aimed_inside first aim
      exact report.advance inside fresh
  | close first onPath => exact report.close traversal first onPath
  | leave first => exact report.retreat traversal first

theorem run (led : ∀ node < count, ∀ target ∈ targets node, target < count)
    (traversal : Traversal targets count search) (steps : Nat) :
    Report targets count (Search.run targets steps search) := by
  refine (run_keeps (fun search => Traversal targets count search ∧ Report targets count search)
    ?_ steps ⟨traversal, report⟩).2
  rintro search next ⟨traversal, report⟩ move
  exact ⟨traversal.move led move, report.move traversal move⟩

end Report
end RowSecurity.Search

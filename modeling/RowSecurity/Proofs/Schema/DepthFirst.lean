import RowSecurity.Proofs.Schema.Cycles
import RowSecurity.Proofs.Schema.Search

-- The search goes depth first: it enters each node once, looks at each edge once and comes back
-- with the path as it was.
namespace RowSecurity.Search

variable {search next : Search} {targets : Nat → List Nat} {node target : Nat}
  {agenda rest : List SearchTask} {settled : List Nat → Nat → Prop} {path : List Nat}

def entering? (search : Search) : Option Nat :=
  match search.agenda with
  | .start node :: _ | .follow node :: _ =>
      if search.mark node = .unvisited then some node else none
  | _ => none

def trace (report : Search → Option α) (targets : Nat → List Nat) : Nat → Search → List α
  | 0, _ => []
  | steps + 1, search =>
      (report search).toList ++ trace report targets steps (step targets search)

theorem entering?_aimed (first : search.agenda = task :: rest)
    (aim : task = .start node ∨ task = .follow node) (fresh : search.mark node = .unvisited) :
    search.entering? = some node := by
  rcases aim with rfl | rfl <;> simp [entering?, first, fresh]

theorem entering?_exact : search.entering? = some node ↔
    ∃ task rest, search.agenda = task :: rest ∧
      (task = .start node ∨ task = .follow node) ∧ search.mark node = .unvisited := by
  constructor
  · intro entered
    unfold entering? at entered
    split at entered
    · rename_i other rest first
      obtain ⟨fresh, same⟩ := Option.ite_none_right_eq_some.mp entered
      cases same
      exact ⟨_, rest, first, .inl rfl, fresh⟩
    · rename_i other rest first
      obtain ⟨fresh, same⟩ := Option.ite_none_right_eq_some.mp entered
      cases same
      exact ⟨_, rest, first, .inr rfl, fresh⟩
    · cases entered
  · rintro ⟨task, rest, first, aim, fresh⟩
    exact entering?_aimed first aim fresh

section Leaving

def leaves (agenda : List SearchTask) : List Nat :=
  agenda.filterMap fun task =>
    match task with
    | .leave node => some node
    | _ => none

theorem leaves_starts (nodes : List Nat) : leaves (nodes.map .start) = [] := by
  simp [leaves]

theorem leaves_leave (node : Nat) (rest : List SearchTask) :
    leaves (.leave node :: rest) = node :: leaves rest := rfl

theorem leaves_append (agenda more : List SearchTask) :
    leaves (agenda ++ more) = leaves agenda ++ leaves more := List.filterMap_append

theorem leaves_follows (ahead : List Nat) (node : Nat) (rest : List SearchTask) :
    leaves (ahead.map .follow ++ .leave node :: rest) = node :: leaves rest := by
  have none : leaves (ahead.map .follow) = [] := by simp [leaves]
  rw [leaves_append, none, List.nil_append, leaves_leave]

theorem Framed.path_leaves (framed : Framed targets settled path agenda) :
    path = (leaves agenda).reverse := by
  induction framed with
  | idle nodes => rw [leaves_starts, List.reverse_nil]
  | @entered _ _ ahead node _ _ _ _ ih => rw [leaves_follows, List.reverse_cons, ← ih]

-- The edges that the agenda has ahead, each with the node that is left after it.
def waiting : List SearchTask → List (Nat × Nat)
  | [] => []
  | .follow target :: rest =>
      ((leaves rest).head?.map fun source => (source, target)).toList ++ waiting rest
  | .start _ :: rest | .leave _ :: rest => waiting rest

end Leaving

namespace Traversal

variable {count : Nat} (traversal : Traversal targets count search)
include traversal

theorem path_leaves : search.path = (leaves search.agenda).reverse := traversal.framed.path_leaves

variable (led : ∀ node < count, ∀ target ∈ targets node, target < count)
include led

theorem step : Traversal targets count (Search.step targets search) := traversal.run led 1

end Traversal

variable {count : Nat} {front : List SearchTask}

theorem move_agenda (move : Move targets search next) (first : search.agenda = task :: rest) :
    ∃ more, next.agenda = more ++ rest := by
  cases move with
  | pass same | skip same | close same | leave same =>
      obtain ⟨_, rfl⟩ := List.cons.inj (first.symm.trans same)
      exact ⟨[], rfl⟩
  | @enter other behind node same =>
      obtain ⟨_, rfl⟩ := List.cons.inj (first.symm.trans same)
      exact ⟨(targets node).map .follow ++ [.leave node], by simp [advance, enter]⟩

def Opens (targets : Nat → List Nat) (search : Search) (source target : Nat) : Prop :=
  Linked targets source target ∧ search.mark target = .unvisited

-- The node is entered by the next step and left by the last one of so many. All behind the
-- node that was not visited is left by then.
structure Call (targets : Nat → List Nat) (search : Search) (node length : Nat) : Prop where
  long : 2 ≤ length
  inside : ∀ moment, 0 < moment → moment < length →
    search.path ++ [node] <+: (run targets moment search).path
  path : (run targets length search).path = search.path
  agenda : (run targets length search).agenda = search.agenda.tail
  reached : ∀ other, Relation.ReflTransGen (Opens targets search) node other →
    (run targets length search).mark other = .done

namespace Traversal

variable (traversal : Traversal targets count search)
include traversal

theorem path_front (cut : search.agenda = front ++ rest) :
    (leaves rest).reverse <+: search.path := by
  rw [traversal.path_leaves, cut, leaves_append, List.reverse_append]
  exact List.prefix_append _ _

variable (led : ∀ node < count, ∀ target ∈ targets node, target < count)
include led

-- What is in front of the agenda is done with before the rest of it is touched.
theorem run_front (cut : search.agenda = front ++ rest) :
    ∃ steps, (Search.run targets steps search).agenda = rest ∧
      ∀ moment ≤ steps, ∃ more, (Search.run targets moment search).agenda = more ++ rest := by
  induction left : search.work targets count using Nat.strong_induction_on
    generalizing search front with
  | _ left ih =>
      cases front with
      | nil =>
          refine ⟨0, cut, fun moment none => ⟨[], ?_⟩⟩
          rw [Nat.le_zero.mp none]
          exact cut
      | cons task front =>
          rw [List.cons_append] at cut
          have going : search.agenda ≠ [] := cut ▸ List.cons_ne_nil _ _
          have move := step_move targets going
          have less := traversal.work_move move
          obtain ⟨more, agenda⟩ := move_agenda move cut
          rw [← List.append_assoc] at agenda
          obtain ⟨steps, ends, during⟩ := ih _ (by omega) (traversal.step led) agenda rfl
          refine ⟨steps + 1, ends, fun moment bound => ?_⟩
          cases moment with
          | zero => exact ⟨task :: front, cut⟩
          | succ moment => exact during moment (Nat.le_of_succ_le_succ bound)

-- Of the nodes behind a node that was left, those are left that were not visited when the
-- path was the same.
theorem opened_done {earlier : Search} (report : Report targets count search)
    (before : Traversal targets count earlier) (path : search.path = earlier.path)
    (inside : node < count) (left : search.mark node = .done)
    (opened : Relation.ReflTransGen (Opens targets earlier) node other) :
    other < count ∧ search.mark other = .done := by
  induction opened with
  | refl => exact ⟨inside, left⟩
  | @tail source target _ edge ih =>
      obtain ⟨bound, done⟩ := ih
      obtain ⟨linked, fresh⟩ := edge
      refine ⟨led source bound target linked, ?_⟩
      rcases report.behind source bound done target linked with behind | ⟨onPath, _⟩
      · exact behind
      · rw [traversal.onPath, path] at onPath
        exact absurd onPath (before.fresh_absent fresh)

theorem call (report : Report targets count search) (entry : search.entering? = some node) :
    ∃ length, Call targets search node length := by
  obtain ⟨task, rest, first, aim, fresh⟩ := entering?_exact.mp entry
  have inside := traversal.aimed_inside first aim
  have below : search.path = (leaves rest).reverse := by
    rw [traversal.path_leaves, first]
    rcases aim with rfl | rfl <;> rfl
  have entered : Search.step targets search = search.advance targets node rest :=
    move_exact (.enter first aim fresh)
  obtain ⟨steps, ends, during⟩ := (traversal.step led).run_front led
    (show (Search.step targets search).agenda =
      (targets node).map .follow ++ .leave node :: rest by rw [entered]; rfl)
  have last := (traversal.step led).run led steps
  have left : Search.run targets (steps + 2) search =
      (Search.run targets (steps + 1) search).retreat node rest := by
    rw [run_add (steps + 1) 1]
    exact move_exact (.leave ends)
  have path : (Search.run targets (steps + 2) search).path = search.path := by
    rw [left, below]
    have above := last.path_leaves
    rw [ends] at above
    rw [Search.retreat, Search.run, above, leaves_leave, List.reverse_cons, List.dropLast_concat]
  have bound : node < (Search.run targets (steps + 1) search).marks.length :=
    last.head_inside ends
  refine ⟨steps + 2, by omega, ?_, path, ?_, ?_⟩
  · intro moment after before
    obtain ⟨moment, rfl⟩ := Nat.exists_eq_succ_of_ne_zero (Nat.ne_of_gt after)
    obtain ⟨more, agenda⟩ := during moment (by omega)
    have stands := ((traversal.step led).run led moment).path_front agenda
    rw [leaves_leave, List.reverse_cons] at stands
    exact below ▸ stands
  · rw [left, first]
    rfl
  · intro other opened
    have done : (Search.run targets (steps + 2) search).mark node = .done := by
      rw [left, mark_retreat bound, if_pos rfl]
    exact ((traversal.run led (steps + 2)).opened_done led
      (report.run led traversal (steps + 2)) traversal path (traversal.within.marks ▸ inside)
      done opened).2

end Traversal
end RowSecurity.Search

namespace RowSecurity.Graph

variable {graph : Graph}

def moment (graph : Graph) (steps : Nat) : Search :=
  Search.run graph.targets steps (.initial graph.resources.length)

def entered (graph : Graph) : List Nat :=
  Search.trace Search.entering? graph.targets graph.searchLength (.initial graph.resources.length)

section Declared

variable (sound : graph.Sound)
include sound

end Declared

end RowSecurity.Graph

import Mathlib.Algebra.BigOperators.Group.Finset.Basic
import RowSecurity.Proofs.Schema.Lookup
import RowSecurity.Proofs.Schema.Loop

-- What the search keeps at every step, and that it ends.
namespace RowSecurity.Search

def retreat (search : Search) (node : Nat) (rest : List SearchTask) : Search :=
  ⟨search.marks.set node .done, search.path.dropLast, search.found, rest⟩

def advance (targets : Nat → List Nat) (search : Search) (node : Nat)
    (rest : List SearchTask) : Search :=
  enter targets { search with agenda := rest } node

inductive Move (targets : Nat → List Nat) (search : Search) : Search → Prop where
  | pass (first : search.agenda = .start node :: rest) (visited : search.mark node ≠ .unvisited) :
      Move targets search { search with agenda := rest }
  | skip (first : search.agenda = .follow node :: rest) (finished : search.mark node = .done) :
      Move targets search { search with agenda := rest }
  | enter (first : search.agenda = task :: rest) (aim : task = .start node ∨ task = .follow node)
      (fresh : search.mark node = .unvisited) :
      Move targets search (search.advance targets node rest)
  | close (first : search.agenda = .follow node :: rest) (onPath : search.mark node = .onPath) :
      Move targets search { search with agenda := rest, found := search.closing node }
  | leave (first : search.agenda = .leave node :: rest) :
      Move targets search (search.retreat node rest)

variable {search next : Search} {targets : Nat → List Nat}

theorem step_move (targets : Nat → List Nat) (going : search.agenda ≠ []) :
    Move targets search (step targets search) := by
  unfold step
  split
  · rename_i ended
    exact absurd ended going
  · rename_i node rest first
    by_cases fresh : search.mark node = .unvisited
    · exact (if_pos fresh).symm ▸ .enter first (.inl rfl) fresh
    · exact (if_neg fresh).symm ▸ .pass first fresh
  · rename_i node rest first
    dsimp only
    split
    · rename_i fresh
      exact .enter first (.inr rfl) fresh
    · rename_i onPath
      exact .close first onPath
    · rename_i finished
      exact .skip first finished
  · rename_i node rest first
    exact .leave first

theorem step_over (ended : search.agenda = []) : step targets search = search := by
  unfold step
  rw [ended]

theorem run_add (steps more : Nat) (search : Search) :
    run targets (steps + more) search = run targets more (run targets steps search) := by
  induction steps generalizing search with
  | zero => rw [Nat.zero_add]; rfl
  | succ steps ih => rw [Nat.succ_add]; exact ih _

theorem run_over (ended : search.agenda = []) (steps : Nat) : run targets steps search = search := by
  induction steps with
  | zero => rfl
  | succ steps ih => rw [run, step_over ended, ih]

theorem run_keeps (kept : Search → Prop)
    (step : ∀ search next, kept search → Move targets search next → kept next)
    (steps : Nat) (start : kept search) : kept (run targets steps search) := by
  induction steps generalizing search with
  | zero => exact start
  | succ steps ih =>
      by_cases ended : search.agenda = []
      · rwa [run_over ended]
      · exact ih (step _ _ start (step_move _ ended))

theorem mark_set {marks : List Mark} {mark : Mark} (inside : node < marks.length) (other : Nat) :
    ((marks.set node mark)[other]?).getD .done =
      if other = node then mark else (marks[other]?).getD .done := by
  rw [List.getElem?_set]
  by_cases same : node = other
  · simp [← same, inside]
  · rw [if_neg same, if_neg (Ne.symm same)]

-- The edge to the target, taken at the end of the walked path, has been seen to: its target
-- is visited, and the cycle that it closes is reported.
def Settled (search : Search) (walked : List Nat) (target : Nat) : Prop :=
  search.mark target ≠ .unvisited ∧ (target ∈ walked → loop walked target ∈ search.found)

-- The agenda of a search with this path: for each of its nodes, from the last one down, the
-- edges that are still ahead and the leaving, and below them all that is to be started.
inductive Framed (targets : Nat → List Nat) (settled : List Nat → Nat → Prop) :
    List Nat → List SearchTask → Prop where
  | idle (nodes : List Nat) : Framed targets settled [] (nodes.map .start)
  | entered {path behind ahead : List Nat} {node : Nat} {agenda : List SearchTask}
      (outer : Framed targets settled path agenda)
      (edges : targets node = behind ++ ahead)
      (seen : ∀ target ∈ behind, settled (path ++ [node]) target) :
      Framed targets settled (path ++ [node]) (ahead.map .follow ++ .leave node :: agenda)

namespace Framed

variable {settled wider : List Nat → Nat → Prop} {path : List Nat} {agenda rest : List SearchTask}
  {node target : Nat}

theorem mono (framed : Framed targets settled path agenda)
    (widen : ∀ walked target, settled walked target → wider walked target) :
    Framed targets wider path agenda := by
  induction framed with
  | idle nodes => exact .idle nodes
  | entered _ edges seen ih =>
      exact .entered ih edges fun target member => widen _ _ (seen target member)

theorem enter (framed : Framed targets settled path agenda) (node : Nat) :
    Framed targets settled (path ++ [node])
      ((targets node).map .follow ++ .leave node :: agenda) :=
  .entered framed (List.nil_append _).symm nofun

theorem ended (framed : Framed targets settled path []) : path = [] := by
  generalize tasks : ([] : List SearchTask) = agenda at framed
  cases framed with
  | idle nodes => rfl
  | entered _ _ _ => simp at tasks

theorem start (framed : Framed targets settled path (.start node :: rest)) :
    path = [] ∧ Framed targets settled [] rest := by
  generalize tasks : SearchTask.start node :: rest = agenda at framed
  cases framed with
  | idle nodes =>
      cases nodes with
      | nil => cases tasks
      | cons first others =>
          obtain ⟨_, rfl⟩ := List.cons.inj tasks
          exact ⟨rfl, .idle others⟩
  | @entered _ _ ahead => cases ahead <;> simp at tasks

theorem follow (framed : Framed targets settled path (.follow target :: rest)) :
    ∃ source, path.getLast? = some source ∧ target ∈ targets source ∧
      (settled path target → Framed targets settled path rest) := by
  generalize tasks : SearchTask.follow target :: rest = agenda at framed
  cases framed with
  | idle nodes => cases nodes <;> simp at tasks
  | @entered below behind ahead source _ outer edges seen =>
      cases ahead with
      | nil => simp at tasks
      | cons first others =>
          obtain ⟨same, rfl⟩ := List.cons.inj tasks
          cases same
          refine ⟨source, List.getLast?_concat, by simp [edges], fun settles => ?_⟩
          have more : targets source = (behind ++ [target]) ++ others := by
            rw [edges, List.append_assoc, List.singleton_append]
          refine .entered outer more fun other member => ?_
          rcases List.mem_append.mp member with old | new
          · exact seen other old
          · rwa [List.mem_singleton.mp new]

theorem leave (framed : Framed targets settled path (.leave node :: rest)) :
    ∃ below, path = below ++ [node] ∧ Framed targets settled below rest ∧
      ∀ target ∈ targets node, settled path target := by
  generalize tasks : SearchTask.leave node :: rest = agenda at framed
  cases framed with
  | idle nodes => cases nodes <;> simp at tasks
  | @entered below behind ahead source _ outer edges seen =>
      cases ahead with
      | cons first others => simp at tasks
      | nil =>
          obtain ⟨same, rfl⟩ := List.cons.inj tasks
          cases same
          rw [List.append_nil] at edges
          exact ⟨below, rfl, outer, edges ▸ seen⟩

end Framed

theorem move_exact (move : Move targets search next) : step targets search = next := by
  unfold step
  cases move with
  | pass first visited =>
      simp only [first, mark] at visited ⊢
      exact if_neg visited
  | skip first finished =>
      simp only [first, mark] at finished ⊢
      rw [finished]
  | enter first aim fresh =>
      rw [mark] at fresh
      rcases aim with rfl | rfl <;> simp only [first, mark, fresh]
      · exact if_pos trivial
      · rfl
  | close first onPath =>
      simp only [first, mark] at onPath ⊢
      rw [onPath]
      rfl
  | leave first => simp only [first, retreat]

structure Onward (search next : Search) : Prop where
  marks : ∀ node, search.mark node ≠ .unvisited → next.mark node ≠ .unvisited
  found : search.found ⊆ next.found

theorem Settled.onward (settled : search.Settled walked target) (onward : Onward search next) :
    next.Settled walked target :=
  ⟨onward.marks target settled.1, fun member => onward.found (settled.2 member)⟩

theorem mark_advance (inside : node < search.marks.length) (other : Nat) :
    (search.advance targets node rest).mark other =
      if other = node then .onPath else search.mark other :=
  mark_set inside other

theorem mark_retreat (inside : node < search.marks.length) (other : Nat) :
    (search.retreat node rest).mark other = if other = node then .done else search.mark other :=
  mark_set inside other

structure Traversal (targets : Nat → List Nat) (count : Nat) (search : Search) : Prop where
  within : search.Within count
  onPath : ∀ node, search.mark node = .onPath ↔ node ∈ search.path
  distinct : search.path.Nodup
  linked : search.path.IsChain (Linked targets)
  framed : Framed targets search.Settled search.path search.agenda
  covered : ∀ node < count, search.mark node = .unvisited → .start node ∈ search.agenda

theorem initial_mark (inside : node < count) : (initial count).mark node = .unvisited := by
  rw [mark, initial, List.getElem?_replicate, if_pos inside]
  rfl

theorem initial_traversal (count : Nat) : Traversal targets count (initial count) := by
  refine ⟨initial_within count, ?_, List.nodup_nil, .nil, .idle _, ?_⟩
  · intro node
    rw [mark, initial, List.getElem?_replicate]
    split <;> simp
  · intro node inside _
    exact List.mem_map_of_mem (List.mem_range.mpr inside)

namespace Traversal

variable {count : Nat} (traversal : Traversal targets count search)
include traversal

theorem head_inside (first : search.agenda = task :: rest) : task.node < search.marks.length := by
  rw [traversal.within.marks]
  exact traversal.within.agenda task (first ▸ List.mem_cons_self)

theorem aimed_inside (first : search.agenda = task :: rest)
    (aim : task = .start node ∨ task = .follow node) : node < search.marks.length := by
  rcases aim with rfl | rfl <;> exact traversal.head_inside first

theorem leaving (first : search.agenda = .leave node :: rest) :
    (∃ below, search.path = below ++ [node]) ∧
      ∀ target ∈ targets node, search.Settled search.path target := by
  have framed := traversal.framed
  rw [first] at framed
  obtain ⟨below, ends, _, settled⟩ := framed.leave
  exact ⟨⟨below, ends⟩, settled⟩

theorem leaving_onPath (first : search.agenda = .leave node :: rest) :
    search.mark node = .onPath := by
  obtain ⟨⟨below, ends⟩, _⟩ := traversal.leaving first
  rw [traversal.onPath, ends]
  simp

theorem onward (move : Move targets search next) : Onward search next := by
  cases move with
  | pass | skip => exact ⟨fun _ => id, fun _ => id⟩
  | @enter task rest node first aim fresh =>
      have inside := traversal.aimed_inside first aim
      refine ⟨fun other visited => ?_, fun _ => id⟩
      rw [mark_advance inside]
      split
      · nofun
      · exact visited
  | close first onPath =>
      refine ⟨fun _ => id, fun cycle known => ?_⟩
      exact (closing_mem ((traversal.onPath _).mp onPath)).mpr (.inl known)
  | @leave rest node first =>
      have inside : node < search.marks.length := traversal.head_inside first
      refine ⟨fun other visited => ?_, fun _ => id⟩
      rw [mark_retreat inside]
      split
      · nofun
      · exact visited

theorem fresh_absent (fresh : search.mark node = .unvisited) : node ∉ search.path := by
  intro member
  rw [(traversal.onPath node).mpr member] at fresh
  cases fresh

theorem entered (first : search.agenda = task :: rest)
    (aim : task = .start node ∨ task = .follow node) (fresh : search.mark node = .unvisited) :
    (∀ source ∈ search.path.getLast?, node ∈ targets source) ∧
      Framed targets (search.advance targets node rest).Settled search.path rest := by
  have framed := traversal.framed.mono fun walked target settled =>
    settled.onward (traversal.onward (.enter first aim fresh))
  rw [first] at framed
  rcases aim with rfl | rfl
  · obtain ⟨empty, behind⟩ := framed.start
    rw [empty]
    exact ⟨nofun, behind⟩
  · have inside : node < search.marks.length := traversal.head_inside first
    obtain ⟨source, last, edge, settle⟩ := framed.follow
    refine ⟨fun other same => ?_, settle ⟨?_, fun member => ?_⟩⟩
    · rw [last] at same
      cases same
      exact edge
    · rw [mark_advance inside]
      simp
    · exact absurd member (traversal.fresh_absent fresh)

theorem advance (within : (search.advance targets node rest).Within count)
    (first : search.agenda = task :: rest) (aim : task = .start node ∨ task = .follow node)
    (fresh : search.mark node = .unvisited) :
    Traversal targets count (search.advance targets node rest) := by
  have inside := traversal.aimed_inside first aim
  obtain ⟨linked, framed⟩ := traversal.entered first aim fresh
  refine ⟨within, ?_, ?_, ?_, framed.enter node, ?_⟩
  · intro other
    rw [mark_advance inside]
    by_cases same : other = node
    · simp [same, Search.advance, enter]
    · simpa [same, Search.advance, enter] using traversal.onPath other
  · rw [Search.advance, enter, ← List.concat_eq_append]
    exact traversal.distinct.concat (traversal.fresh_absent fresh)
  · refine List.isChain_append.mpr ⟨traversal.linked, .singleton _, fun source last target only => ?_⟩
    cases only
    exact linked source last
  · intro other below unvisited
    rw [mark_advance inside] at unvisited
    split at unvisited
    · cases unvisited
    · rename_i apart
      have waiting := traversal.covered other below unvisited
      rw [first] at waiting
      refine List.mem_append_right _ (List.mem_cons_of_mem _ ?_)
      rcases List.mem_cons.mp waiting with rfl | behind
      · rcases aim with same | same <;> cases same
        exact absurd rfl apart
      · exact behind

theorem retreat (within : (search.retreat node rest).Within count)
    (first : search.agenda = .leave node :: rest) :
    Traversal targets count (search.retreat node rest) := by
  have inside : node < search.marks.length := traversal.head_inside first
  have framed := traversal.framed.mono fun walked target settled =>
    settled.onward (traversal.onward (.leave first))
  rw [first] at framed
  obtain ⟨below, ends, outer, _⟩ := framed.leave
  have path : (search.retreat node rest).path = below := by
    rw [Search.retreat, ends, List.dropLast_concat]
  have distinct := traversal.distinct
  have linked := traversal.linked
  have onPath := traversal.onPath
  rw [ends] at distinct linked
  simp only [ends] at onPath
  refine ⟨within, ?_, ?_, ?_, path ▸ outer, ?_⟩
  · intro other
    have absent : node ∉ below := by
      have apart := List.nodup_append.mp distinct
      grind
    rw [mark_retreat inside, path]
    by_cases same : other = node
    · simp [same, absent]
    · simpa [same] using onPath other
  · rw [path]
    exact distinct.of_append_left
  · rw [path]
    exact linked.left_of_append
  · intro other bound unvisited
    rw [mark_retreat inside] at unvisited
    split at unvisited
    · cases unvisited
    · have waiting := traversal.covered other bound unvisited
      rw [first] at waiting
      exact (List.mem_cons.mp waiting).resolve_left nofun

theorem passed {found : List (List Nat)} (first : search.agenda = task :: rest)
    (within : Search.Within { search with agenda := rest, found := found } count)
    (framed : Framed targets (Search.Settled { search with agenda := rest, found := found })
      search.path rest)
    (visited : search.mark task.node ≠ .unvisited) :
    Traversal targets count { search with agenda := rest, found := found } := by
  refine ⟨within, traversal.onPath, traversal.distinct, traversal.linked, framed, ?_⟩
  intro other bound unvisited
  have waiting := traversal.covered other bound unvisited
  rw [first] at waiting
  rcases List.mem_cons.mp waiting with rfl | behind
  · exact absurd unvisited visited
  · exact behind

theorem move (led : ∀ node < count, ∀ target ∈ targets node, target < count)
    (move : Move targets search next) : Traversal targets count next := by
  have within : next.Within count := move_exact move ▸ step_within led traversal.within
  have framed := traversal.framed.mono fun walked target settled =>
    settled.onward (traversal.onward move)
  cases move with
  | pass first visited =>
      rw [first] at framed
      obtain ⟨empty, behind⟩ := framed.start
      exact traversal.passed first within (empty ▸ behind) visited
  | @skip rest node first finished =>
      have visited : search.mark node ≠ .unvisited := by rw [finished]; nofun
      rw [first] at framed
      obtain ⟨_, _, _, settle⟩ := framed.follow
      refine traversal.passed first within (settle ⟨visited, fun member => ?_⟩) visited
      rw [(traversal.onPath _).mpr member] at finished
      cases finished
  | enter first aim fresh => exact traversal.advance within first aim fresh
  | @close rest node first onPath =>
      have visited : search.mark node ≠ .unvisited := by rw [onPath]; nofun
      rw [first] at framed
      obtain ⟨_, _, _, settle⟩ := framed.follow
      refine traversal.passed first within (settle ⟨visited, fun member => ?_⟩) visited
      exact (closing_mem member).mpr (.inr rfl)
  | leave first => exact traversal.retreat within first

theorem run (led : ∀ node < count, ∀ target ∈ targets node, target < count) (steps : Nat) :
    Traversal targets count (run targets steps search) :=
  run_keeps (Traversal targets count) (fun _ _ kept step => kept.move led step) steps traversal

end Traversal

-- The steps that the nodes not visited yet will take: their edges and their leaving.
def unspent (targets : Nat → List Nat) (count : Nat) (search : Search) : Nat :=
  ∑ node ∈ Finset.range count with search.mark node = .unvisited, (1 + (targets node).length)

def work (targets : Nat → List Nat) (count : Nat) (search : Search) : Nat :=
  search.agenda.length + search.unspent targets count

theorem unspent_same (same : ∀ node, next.mark node = .unvisited ↔ search.mark node = .unvisited) :
    next.unspent targets count = search.unspent targets count := by
  simp only [unspent, same]

theorem work_same (first : search.agenda = task :: next.agenda)
    (same : ∀ node, next.mark node = .unvisited ↔ search.mark node = .unvisited) :
    search.work targets count = next.work targets count + 1 := by
  rw [work, work, unspent_same same, first, List.length_cons]
  omega

theorem unspent_advance (inside : node < search.marks.length) (bound : node < count)
    (fresh : search.mark node = .unvisited) (rest : List SearchTask) : search.unspent targets count =
      1 + (targets node).length + (search.advance targets node rest).unspent targets count := by
  have chosen : node ∈ (Finset.range count).filter fun node => search.mark node = .unvisited :=
    Finset.mem_filter.mpr ⟨Finset.mem_range.mpr bound, fresh⟩
  have others : (Finset.range count).filter
        (fun other => (search.advance targets node rest).mark other = .unvisited) =
      ((Finset.range count).filter fun other => search.mark other = .unvisited).erase node := by
    ext other
    simp only [Finset.mem_filter, Finset.mem_erase, mark_advance inside]
    by_cases same : other = node <;> simp [same]
  rw [unspent, unspent, others,
    Finset.add_sum_erase _ (fun other => 1 + (targets other).length) chosen]

theorem initial_work (targets : Nat → List Nat) (count : Nat) : (initial count).work targets count =
    2 * count + ∑ node ∈ Finset.range count, (targets node).length := by
  have fresh : (Finset.range count).filter (fun node => (initial count).mark node = .unvisited) =
      Finset.range count := by
    rw [Finset.filter_eq_self]
    exact fun node inside => initial_mark (Finset.mem_range.mp inside)
  rw [work, unspent, fresh, Finset.sum_add_distrib]
  simp [initial]
  omega

namespace Traversal

variable {count : Nat} (traversal : Traversal targets count search)
include traversal

theorem work_move (move : Move targets search next) :
    search.work targets count = next.work targets count + 1 := by
  cases move with
  | pass first _ | skip first _ | close first _ =>
      exact work_same first fun _ => Iff.rfl
  | @leave rest node first =>
      have inside : node < search.marks.length := traversal.head_inside first
      have same : ∀ other, (search.retreat node rest).mark other = .unvisited ↔
          search.mark other = .unvisited := by
        intro other
        rw [mark_retreat inside]
        split
        · rename_i here
          simp [here, traversal.leaving_onPath first]
        · rfl
      exact work_same first same
  | @enter task rest node first aim fresh =>
      have inside := traversal.aimed_inside first aim
      have agenda : (search.advance targets node rest).agenda.length =
          (targets node).length + 1 + rest.length := by
        simp [Search.advance, Search.enter]
        omega
      rw [work, work, unspent_advance inside (traversal.within.marks ▸ inside) fresh rest, first,
        List.length_cons, agenda]
      omega

theorem run_ends (led : ∀ node < count, ∀ target ∈ targets node, target < count)
    (enough : search.work targets count ≤ steps) :
    (Search.run targets steps search).agenda = [] := by
  induction steps generalizing search with
  | zero =>
      rw [work] at enough
      have empty : search.agenda.length = 0 := by omega
      exact List.eq_nil_of_length_eq_zero empty
  | succ steps ih =>
      by_cases ended : search.agenda = []
      · rwa [run_over ended]
      · have move := step_move targets ended
        have less := traversal.work_move move
        exact ih (traversal.move led move) (by omega)

theorem over_done (ended : search.agenda = []) (inside : node < count) :
    search.path = [] ∧ search.mark node = .done := by
  have framed := traversal.framed
  rw [ended] at framed
  have path := framed.ended
  refine ⟨path, ?_⟩
  cases marked : search.mark node with
  | unvisited =>
      have waiting := traversal.covered node inside marked
      rw [ended] at waiting
      cases waiting
  | onPath =>
      have member := (traversal.onPath node).mp marked
      rw [path] at member
      cases member
  | done => rfl

end Traversal
end RowSecurity.Search

import Mathlib.Data.List.Cycle
import RowSecurity.Proofs.Listed
import RowSecurity.Schema.Cycle

-- Cycles given as lists from any of their members on, and the cycle that an edge back onto a path
-- closes.
namespace RowSecurity

structure SimpleCycle (leads : α → α → Prop) (cycle : List α) : Prop where
  nonempty : cycle ≠ []
  distinct : cycle.Nodup
  closed : (cycle : Cycle α).Chain leads

def Joins (cycle : List α) (source target : α) : Prop :=
  ∃ walk, walk ~r cycle ∧ walk.head? = some target ∧ walk.getLast? = some source

def LeastFirst (rank : α → Nat) : List α → Prop
  | [] => True
  | first :: rest => ∀ later ∈ rest, rank first < rank later

section

variable {leads : α → α → Prop} {carried : β → β → Prop} {cycle other walk : List α}
  {source target : α} {rank : α → Nat}

theorem chain_ends (first : walk.head? = some target) (last : walk.getLast? = some source) :
    (walk : Cycle α).Chain leads ↔ walk.IsChain leads ∧ leads source target := by
  cases walk with
  | nil => cases first
  | cons head rest =>
      cases Option.some.inj first
      rw [Cycle.chain_coe_cons, ← List.cons_append, List.isChain_append, last]
      simp

theorem SimpleCycle.rotated (simple : SimpleCycle leads cycle) (turned : other ~r cycle) :
    SimpleCycle leads other := by
  refine ⟨?_, turned.nodup_iff.mpr simple.distinct, ?_⟩
  · rintro rfl
    exact simple.nonempty (List.isRotated_nil_iff'.mp turned).symm
  · rw [Cycle.coe_eq_coe.mpr turned]
    exact simple.closed

theorem SimpleCycle.map (simple : SimpleCycle leads cycle) (move : α → β)
    (carry : ∀ source target, leads source target → carried (move source) (move target))
    (apart : ∀ one ∈ cycle, ∀ another ∈ cycle, move one = move another → one = another) :
    SimpleCycle carried (cycle.map move) := by
  refine ⟨mt List.map_eq_nil_iff.mp simple.nonempty, simple.distinct.map_on apart, ?_⟩
  rw [← Cycle.map_coe, Cycle.chain_map]
  exact simple.closed.imp carry

theorem Joins.map (joins : Joins cycle source target) (move : α → β) :
    Joins (cycle.map move) (move source) (move target) := by
  obtain ⟨walk, same, first, last⟩ := joins
  exact ⟨walk.map move, same.map move, by rw [List.head?_map, first]; rfl,
    by rw [List.getLast?_map, last]; rfl⟩

theorem Joins.source_mem (joins : Joins cycle source target) : source ∈ cycle := by
  obtain ⟨walk, same, _, last⟩ := joins
  exact same.mem_iff.mp (List.mem_of_getLast? last)

theorem closed_joins (closed : (cycle : Cycle α).Chain leads) (member : target ∈ cycle) :
    ∃ source, Joins cycle source target ∧ leads source target := by
  obtain ⟨front, back, rfl⟩ := List.append_of_mem member
  have turned : target :: back ++ front ~r front ++ target :: back := List.isRotated_append
  obtain ⟨source, last⟩ : ∃ source, (target :: back ++ front).getLast? = some source :=
    ⟨_, List.getLast?_eq_some_getLast (by simp)⟩
  rw [← Cycle.coe_eq_coe.mpr turned] at closed
  exact ⟨source, ⟨_, turned, rfl, last⟩, ((chain_ends rfl last).mp closed).2⟩

theorem closed_reaches (closed : (cycle : Cycle α).Chain leads) (one : source ∈ cycle)
    (other : target ∈ cycle) : Relation.TransGen leads source target := by
  have reaching := closed.imp fun _ _ => Relation.TransGen.single
  exact Cycle.chain_iff_pairwise.mp reaching source one target other

theorem returns_closed (returns : Relation.TransGen leads source source) :
    ∃ walk : List α, source ∈ walk ∧ (walk : Cycle α).Chain leads := by
  obtain ⟨last, path, edge⟩ := Relation.TransGen.tail'_iff.mp returns
  obtain ⟨rest, chain, ends⟩ := List.exists_isChain_cons_of_relationReflTransGen path
  have last : (source :: rest).getLast? = some last := by
    rw [List.getLast?_eq_some_getLast (List.cons_ne_nil _ _), ends]
  exact ⟨source :: rest, List.mem_cons_self, (chain_ends rfl last).mpr ⟨chain, edge⟩⟩

theorem leastFirst_unique (least : LeastFirst rank cycle) (otherLeast : LeastFirst rank other)
    (turned : cycle ~r other) : cycle = other := by
  obtain ⟨turns, bound, rfl⟩ := List.isRotated_iff_mod.mp turned
  rw [List.rotate_eq_drop_append_take bound] at otherLeast ⊢
  rw [← List.take_append_drop turns cycle] at least
  nth_rewrite 1 [← List.take_append_drop turns cycle]
  generalize cycle.take turns = front at *
  generalize cycle.drop turns = back at *
  cases front with
  | nil => rw [List.nil_append, List.append_nil]
  | cons first rest =>
      cases back with
      | nil => rw [List.nil_append, List.append_nil]
      | cons later behind =>
          have up := least later (by simp)
          have down := otherLeast first (by simp)
          exact absurd (up.trans down) (Nat.lt_irrefl _)

end

namespace Search

variable {cycle path : List Nat} {targets : Nat → List Nat} {source target : Nat}

def Linked (targets : Nat → List Nat) (source target : Nat) : Prop := target ∈ targets source

theorem cut_at (member : target ∈ path) : ∃ front back, path = front ++ target :: back ∧
    path.takeWhile (· != target) = front ∧ path.dropWhile (· != target) = target :: back := by
  obtain ⟨front, back, rfl, absent⟩ := List.eq_append_cons_of_mem member
  exact ⟨front, back, rfl, cut_here absent⟩

theorem rotateToLeast_rotated (cycle : List Nat) : rotateToLeast cycle ~r cycle := by
  unfold rotateToLeast
  split
  · exact .refl _
  · rename_i least _
    have turned : cycle.dropWhile (· != least) ++ cycle.takeWhile (· != least) ~r
        cycle.takeWhile (· != least) ++ cycle.dropWhile (· != least) := List.isRotated_append
    rwa [List.takeWhile_append_dropWhile] at turned

theorem rotateToLeast_first (distinct : cycle.Nodup) : LeastFirst id (rotateToLeast cycle) := by
  unfold rotateToLeast
  split
  · rename_i none
    rw [List.min?_eq_none_iff.mp none]
    trivial
  · rename_i least found
    obtain ⟨member, below⟩ := List.min?_eq_some_iff.mp found
    obtain ⟨front, back, rfl, taken, dropped⟩ := cut_at member
    rw [taken, dropped, List.cons_append]
    intro later inside
    have shuffled : later ∈ front ++ back := by
      rw [List.mem_append] at inside ⊢
      exact inside.symm
    have apart := (List.nodup_middle.mp distinct).notMem
    refine Nat.lt_of_le_of_ne (below later ?_) ?_
    · simp only [List.mem_append, List.mem_cons] at shuffled ⊢
      tauto
    · rintro rfl
      exact apart shuffled

def loop (path : List Nat) (target : Nat) : List Nat :=
  rotateToLeast (path.dropWhile (· != target))

theorem loop_joins (member : target ∈ path) (last : path.getLast? = some source) :
    Joins (loop path target) source target := by
  obtain ⟨front, back, rfl, _, dropped⟩ := cut_at member
  rw [loop, dropped]
  refine ⟨target :: back, (rotateToLeast_rotated _).symm, rfl, ?_⟩
  rwa [List.getLast?_append_of_ne_nil _ (by simp)] at last

theorem loop_simple (distinct : path.Nodup)
    (linked : path.IsChain (Linked targets))
    (member : target ∈ path) (last : path.getLast? = some source)
    (edge : target ∈ targets source) :
    SimpleCycle (Linked targets) (loop path target) := by
  obtain ⟨front, back, rfl, _, dropped⟩ := cut_at member
  rw [loop, dropped]
  rw [List.getLast?_append_of_ne_nil _ (by simp)] at last
  have walk : SimpleCycle (Linked targets) (target :: back) :=
    ⟨List.cons_ne_nil _ _, (List.nodup_append.mp distinct).2.1,
      (chain_ends rfl last).mpr ⟨linked.right_of_append, edge⟩⟩
  exact walk.rotated (rotateToLeast_rotated _)

theorem loop_first (distinct : path.Nodup) (target : Nat) : LeastFirst id (loop path target) :=
  rotateToLeast_first (distinct.sublist (List.dropWhile_sublist _))

variable {search : Search}

theorem closing_loop (member : target ∈ search.path) : search.closing target =
    if loop search.path target ∈ search.found then search.found
    else search.found ++ [loop search.path target] := by
  obtain ⟨front, back, _, _, dropped⟩ := cut_at member
  unfold closing loop
  rw [dropped]

theorem closing_mem (member : target ∈ search.path) :
    cycle ∈ search.closing target ↔ cycle ∈ search.found ∨ cycle = loop search.path target := by
  rw [closing_loop member]
  split
  · rename_i known
    exact ⟨.inl, fun either => either.elim id fun same => same ▸ known⟩
  · rw [List.mem_append, List.mem_singleton]

theorem closing_nodup (member : target ∈ search.path) (single : search.found.Nodup) :
    (search.closing target).Nodup := by
  rw [closing_loop member]
  split
  · exact single
  · rename_i fresh
    rw [← List.concat_eq_append]
    exact single.concat fresh

end Search
end RowSecurity

import RowSecurity.Proofs.Predicate.Evaluation
import RowSecurity.Proofs.Predicate.WellFormed

-- The combinators against the connectives of three-valued logic.
namespace RowSecurity

def Truth.turned : Bool → Truth → Truth
  | false, truth => truth
  | true, truth => truth.not

namespace Predicate

-- The predicate, or its negation, with negations moved inwards until they stand on leaves.
mutual
def normal (negated : Bool) : Predicate → Predicate
  | .literal value => .literal (value ^^ negated)
  | .ownsRow ownership => if negated then .not (.ownsRow ownership) else .ownsRow ownership
  | .memberOfJoin membership =>
      if negated then .not (.memberOfJoin membership) else .memberOfJoin membership
  | .all operands =>
      if negated then .any (normalEach negated operands) else .all (normalEach negated operands)
  | .any operands =>
      if negated then .all (normalEach negated operands) else .any (normalEach negated operands)
  | .not operand => normal (!negated) operand
termination_by structural p => p

def normalEach (negated : Bool) : List Predicate → List Predicate
  | [] => []
  | p :: rest => normal negated p :: normalEach negated rest
termination_by structural operands => operands
end

def LeafNegated (p : Predicate) : Prop :=
  ∀ part, p.Part part → ∀ operand, part = .not operand → ∃ leaf : Leaf, operand = leaf.predicate

structure Kleene (reading : Predicate → Truth) : Prop where
  all_least : ∀ operands,
    (reading (.all operands)).rank = (operands.map fun p => (reading p).rank).foldr min 2
  any_greatest : ∀ operands,
    (reading (.any operands)).rank = (operands.map fun p => (reading p).rank).foldr max 0
  all_reordered : ∀ operands others, (∀ p, p ∈ operands ↔ p ∈ others) →
    reading (.all operands) = reading (.all others)
  any_reordered : ∀ operands others, (∀ p, p ∈ operands ↔ p ∈ others) →
    reading (.any operands) = reading (.any others)
  all_nested : ∀ before inner after,
    reading (.all (before ++ .all inner :: after)) = reading (.all (before ++ inner ++ after))
  any_nested : ∀ before inner after,
    reading (.any (before ++ .any inner :: after)) = reading (.any (before ++ inner ++ after))
  not_all : ∀ operands, reading (.not (.all operands)) = reading (.any (operands.map .not))
  not_any : ∀ operands, reading (.not (.any operands)) = reading (.all (operands.map .not))
  normal : ∀ p, reading (p.normal false) = reading p

variable {p : Predicate}

theorem normalEach_map (negated : Bool) (operands : List Predicate) :
    normalEach negated operands = operands.map (normal negated) := by
  induction operands with
  | nil => rfl
  | cons p rest ih => rw [normalEach, ih, List.map_cons]

theorem leafNegated_of (here : ∀ operand, p = .not operand → ∃ leaf : Leaf, operand = leaf.predicate)
    (each : ∀ q ∈ p.operands, q.LeafNegated) : p.LeafNegated :=
  parts_exact.mpr ⟨here, each⟩

theorem leaf_leafNegated (leaf : Leaf) : leaf.predicate.LeafNegated := by
  cases leaf <;> exact leafNegated_of nofun nofun

theorem not_leafNegated (leaf : Leaf) : (Predicate.not leaf.predicate).LeafNegated := by
  refine leafNegated_of (fun operand same => ⟨leaf, (not.inj same).symm⟩) fun q member => ?_
  rw [List.mem_singleton.mp member]
  exact leaf_leafNegated leaf

theorem normalEach_leafNegated {operands : List Predicate}
    (each : ∀ q ∈ operands, (q.normal negated).LeafNegated) :
    ∀ q ∈ normalEach negated operands, q.LeafNegated := by
  intro q member
  rw [normalEach_map] at member
  obtain ⟨operand, inside, rfl⟩ := List.mem_map.mp member
  exact each operand inside

theorem normal_leafNegated (p : Predicate) (negated : Bool) : (p.normal negated).LeafNegated := by
  induction p generalizing negated with
  | literal value => exact leafNegated_of nofun nofun
  | ownsRow ownership =>
      cases negated with
      | false => exact leaf_leafNegated (.owned ownership)
      | true => exact not_leafNegated (.owned ownership)
  | memberOfJoin membership =>
      cases negated with
      | false => exact leaf_leafNegated (.joined membership)
      | true => exact not_leafNegated (.joined membership)
  | all operands ih =>
      have each := normalEach_leafNegated fun q member => ih q member negated
      cases negated <;> exact leafNegated_of nofun each
  | any operands ih =>
      have each := normalEach_leafNegated fun q member => ih q member negated
      cases negated <;> exact leafNegated_of nofun each
  | not operand ih => exact ih (!negated)

section Reading

variable (row : Row) (request : Request)

theorem truth_not (p : Predicate) :
    truth row request (.not p) = (truth row request p).not := rfl

theorem truths_not (operands : List Predicate) :
    (operands.map .not).map (truth row request) =
      (operands.map (truth row request)).map Truth.not := by
  rw [List.map_map, List.map_map]
  rfl

theorem truth_not_all (operands : List Predicate) :
    truth row request (.not (.all operands)) = truth row request (.any (operands.map .not)) := by
  rw [truth_not, truth_all, truth_any, truths_not, Truth.not_conj]

theorem truth_not_any (operands : List Predicate) :
    truth row request (.not (.any operands)) = truth row request (.all (operands.map .not)) := by
  rw [truth_not, truth_all, truth_any, truths_not, Truth.not_disj]

theorem normalEach_truths {operands : List Predicate}
    (each : ∀ q ∈ operands, truth row request (q.normal negated) =
      (truth row request q).turned negated) :
    (normalEach negated operands).map (truth row request) =
      (operands.map (truth row request)).map (Truth.turned negated) := by
  rw [normalEach_map, List.map_map, List.map_map]
  exact List.map_congr_left each

-- One case for each kind of predicate and either sign: a negated combinator becomes the other.
theorem normal_truth (p : Predicate) (negated : Bool) :
    truth row request (p.normal negated) = (truth row request p).turned negated := by
  induction p generalizing negated with
  | literal value => cases negated <;> cases value <;> rfl
  | ownsRow ownership => cases negated <;> rfl
  | memberOfJoin membership => cases negated <;> rfl
  | all operands ih =>
      have each := normalEach_truths row request fun q member => ih q member negated
      cases negated with
      | false =>
          change truth row request (.all _) = truth row request (.all operands)
          rw [truth_all, truth_all, each]
          exact congrArg Truth.conj (List.map_id _)
      | true =>
          change truth row request (.any _) = truth row request (.not (.all operands))
          rw [truth_any, each, truth_not, truth_all, Truth.not_conj]
          rfl
  | any operands ih =>
      have each := normalEach_truths row request fun q member => ih q member negated
      cases negated with
      | false =>
          change truth row request (.any _) = truth row request (.any operands)
          rw [truth_any, truth_any, each]
          exact congrArg Truth.disj (List.map_id _)
      | true =>
          change truth row request (.all _) = truth row request (.not (.any operands))
          rw [truth_all, each, truth_not, truth_any, Truth.not_disj]
          rfl
  | not operand ih =>
      rw [normal, ih]
      cases negated with
      | false => rfl
      | true => exact (Truth.not_not _).symm

theorem members_truths {operands others : List Predicate} (same : ∀ p, p ∈ operands ↔ p ∈ others)
    (value : Truth) : value ∈ operands.map (truth row request) ↔
      value ∈ others.map (truth row request) := by
  simp only [List.mem_map, same]

theorem truth_kleene : Kleene (truth row request) := by
  constructor
  case all_least =>
    intro operands
    rw [truth_all, Truth.rank_conj, List.map_map]
    rfl
  case any_greatest =>
    intro operands
    rw [truth_any, Truth.rank_disj, List.map_map]
    rfl
  case all_reordered =>
    intro operands others same
    rw [truth_all, truth_all, Truth.conj_same (members_truths row request same)]
  case any_reordered =>
    intro operands others same
    rw [truth_any, truth_any, Truth.disj_same (members_truths row request same)]
  case all_nested =>
    intro before inner after
    rw [truth_all, truth_all, List.map_append, List.map_cons, truth_all, Truth.conj_nested,
      List.map_append, List.map_append]
  case any_nested =>
    intro before inner after
    rw [truth_any, truth_any, List.map_append, List.map_cons, truth_any, Truth.disj_nested,
      List.map_append, List.map_append]
  case not_all => exact truth_not_all row request
  case not_any => exact truth_not_any row request
  case normal => exact fun p => normal_truth row request p false

theorem holds_one_side (p : Predicate) :
    ¬ (p.holds row request = true ∧ (Predicate.not p).holds row request = true) := by
  rw [holds, holds, Truth.holds_iff, Truth.holds_iff, truth_not]
  rintro ⟨granted, negated⟩
  rw [granted] at negated
  cases negated

-- All operands count for a combinator, whichever of them ends its search, so its operands may be
-- reordered, repeated and flattened and its negation moved inwards.
theorem combinators_kleene :
    Kleene (truth row request) ∧ (∀ p : Predicate, (p.normal false).LeafNegated) ∧
      ∀ p : Predicate, ¬ (p.holds row request = true ∧
        (Predicate.not p).holds row request = true) :=
  ⟨truth_kleene row request, fun p => normal_leafNegated p false, holds_one_side row request⟩

end Reading

def byAuthor : Predicate := .ownsRow ⟨"posts", "author"⟩

def unsignedPost : Row := ⟨[("author", .null)]⟩

def byAda : Request := .byPrincipal (.string "ada") fun _ => []

theorem unsigned_unknown :
    truth unsignedPost byAda (.all [byAuthor, .literal true]) = .unknown ∧
      truth unsignedPost byAda (.all [.literal true, byAuthor, byAuthor]) = .unknown ∧
      truth unsignedPost byAda (.any [.not byAuthor, .literal false]) = .unknown := by
  obtain ⟨laws, _, _⟩ := combinators_kleene unsignedPost byAda
  have unknown : truth unsignedPost byAda (.all [byAuthor, .literal true]) = .unknown := rfl
  have same : ∀ p, p ∈ [byAuthor, .literal true] ↔ p ∈ [.literal true, byAuthor, byAuthor] := by
    intro p
    simp only [List.mem_cons, List.not_mem_nil, or_false]
    tauto
  refine ⟨unknown, (laws.all_reordered _ _ same).symm.trans unknown, ?_⟩
  have negated := laws.normal (.not (.all [byAuthor, .literal true]))
  exact negated.trans (by rw [truth_not, unknown]; rfl)

end Predicate
end RowSecurity

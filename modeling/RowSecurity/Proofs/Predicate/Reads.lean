import RowSecurity.Proofs.Predicate.Evaluation
import RowSecurity.Proofs.Predicate.WellFormed

-- What an evaluation reads, and what is granted when rows are put into the store.
namespace RowSecurity

namespace Membership

variable (m : Membership) {row other : Row} {request later : Request}

def pair? (link : Row) : Option (Json × Option Json) :=
  (link.cell? m.linkKey).map fun key => (key, link.cell? m.identityKey)

def pairs (links : List Row) : List (Json × Option Json) := links.filterMap m.pair?

theorem joins_pairs (key : Json) (links : List Row) :
    (links.filter (m.joins key)).map (fun link => link.cell? m.identityKey) =
      ((m.pairs links).filter fun pair => pair.1.sqlEqual key).map (·.2) := by
  induction links with
  | nil => rfl
  | cons link rest ih =>
      rw [pairs] at ih ⊢
      rw [List.filter_cons, List.filterMap_cons, pair?, joins]
      cases link.cell? m.linkKey with
      | none => exact ih
      | some held =>
          rw [Option.map_some, List.filter_cons]
          by_cases equal : held.sqlEqual key = true
          · simp only [equal, if_true, List.map_cons, ih]
          · simp only [equal, Bool.false_eq_true, if_false, ih]

theorem members_perm (keyed : row.cell? m.rowKey = other.cell? m.rowKey)
    (linked : (m.pairs (request.rows m.linkResource)).Perm
      (m.pairs (later.rows m.linkResource))) :
    (m.members row request).Perm (m.members other later) := by
  unfold members
  rw [keyed]
  cases other.cell? m.rowKey with
  | none => exact .nil
  | some key =>
      dsimp only
      rw [joins_pairs, joins_pairs]
      exact (linked.filter _).map _

theorem truth_perm (same : request.principal = later.principal)
    (members : (m.members row request).Perm (m.members other later)) :
    m.truth row request = m.truth other later := by
  rw [truth_disj, truth_disj, same]
  exact Truth.disj_same fun value => (members.map _).mem_iff

end Membership

namespace Predicate

-- Rows that agree on the columns named in the predicate, where a column that is not there is a
-- null, and sources that agree, up to order, on what is read of the rows of its links.
structure Alike (p : Predicate) (row other : Row) (rows others : String → List Row) : Prop where
  owned : ∀ o, .owned o ∈ p.leaves → row.cell? o.column = other.cell? o.column
  keyed : ∀ m, .joined m ∈ p.leaves → row.cell? m.rowKey = other.cell? m.rowKey
  linked : ∀ m, .joined m ∈ p.leaves →
    (m.pairs (rows m.linkResource)).Perm (m.pairs (others m.linkResource))

variable {row other : Row} {request later : Request}

theorem truth_leaves (p : Predicate)
    (each : ∀ leaf ∈ p.leaves, truth row request leaf.predicate = truth other later leaf.predicate) :
    truth row request p = truth other later p := by
  induction p with
  | literal value => rfl
  | ownsRow ownership => exact each (.owned ownership) (List.mem_singleton_self _)
  | memberOfJoin membership => exact each (.joined membership) (List.mem_singleton_self _)
  | all operands ih =>
      have same : operands.map (truth row request) = operands.map (truth other later) :=
        List.map_congr_left fun q member =>
          ih q member fun leaf inside => each leaf (leaves_operand member inside)
      rw [truth_all, truth_all, same]
  | any operands ih =>
      have same : operands.map (truth row request) = operands.map (truth other later) :=
        List.map_congr_left fun q member =>
          ih q member fun leaf inside => each leaf (leaves_operand member inside)
      rw [truth_any, truth_any, same]
  | not operand ih => exact congrArg Truth.not (ih each)

variable {p : Predicate} {rows others : String → List Row}

theorem Alike.leaf (alike : p.Alike row other rows others) (principal : Option Json)
    {leaf : Leaf} (member : leaf ∈ p.leaves) :
    truth row (.by? principal rows) leaf.predicate =
      truth other (.by? principal others) leaf.predicate := by
  have same : (Request.by? principal rows).principal = (Request.by? principal others).principal := by
    rw [Request.by?_present, Request.by?_present]
  cases leaf with
  | owned o =>
      change o.truth row _ = o.truth other _
      rw [o.truth_equated, o.truth_equated, same, alike.owned o member]
  | joined m =>
      refine m.truth_perm same (m.members_perm (alike.keyed m member) ?_)
      rw [Request.by?_rows, Request.by?_rows]
      exact alike.linked m member

-- Nothing but what is read has a say: no other column and no other resource, neither the order
-- of link rows nor one without a key.
theorem truth_noninterference (p : Predicate) (principal : Option Json)
    (alike : p.Alike row other rows others) :
    p.truth row (.by? principal rows) = p.truth other (.by? principal others) :=
  p.truth_leaves fun _ member => alike.leaf principal member

def strangerToChat : Predicate :=
  .not (.any [.ownsRow ⟨"chats", "owner"⟩, .memberOfJoin hasVisited])

def otherVisits (resource : String) : List Row :=
  if resource = "visits" then
    [⟨[("user", .string "bob"), ("chat", .string "lobby")]⟩,
      ⟨[("user", .null), ("chat", .string "lobby"), ("at", .string "noon")]⟩]
  else [⟨[("chat", .string "lobby"), ("user", .string "bob")]⟩]

def openLobby : Row := ⟨[("id", .string "lobby"), ("owner", .null), ("open", .bool true)]⟩

theorem bob_no_stranger :
    strangerToChat.Alike (chatRow "lobby") openLobby visits otherVisits ∧
      strangerToChat.truth (chatRow "lobby") (.by? (some (.string "bob")) visits) = .no ∧
      strangerToChat.truth openLobby (.by? (some (.string "bob")) otherVisits) = .no := by
  have alike : strangerToChat.Alike (chatRow "lobby") openLobby visits otherVisits := by
    refine ⟨?_, ?_, ?_⟩
    all_goals
      intro read member
      rcases List.mem_pair.mp member with same | same <;> cases same
    · rfl
    · rfl
    · exact .swap _ _ []
  exact ⟨alike, rfl, (truth_noninterference strangerToChat _ alike).symm⟩

end Predicate

namespace RowStore

variable (store : RowStore) (resource : String)

theorem insert_rows (changed : String) (value : Json) :
    (store.insert changed value).rows resource =
      store.rows resource ++ if changed = resource then [Row.ofJson value] else [] := by
  unfold insert
  rw [rows, Std.TreeMap.getD_insert]
  by_cases same : changed = resource
  · subst same
    simp [rows]
  · simp [same, rows]

def insertAll (store : RowStore) (inserts : List (String × Json)) : RowStore :=
  inserts.foldl (fun filled item => filled.insert item.1 item.2) store

theorem insertAll_rows (inserts : List (String × Json)) :
    (store.insertAll inserts).rows resource = store.rows resource ++
      (inserts.filter (·.1 == resource)).map fun item => Row.ofJson item.2 := by
  induction inserts generalizing store with
  | nil => exact (List.append_nil _).symm
  | cons item rest ih =>
      have first : store.insertAll (item :: rest) = (store.insert item.1 item.2).insertAll rest := rfl
      rw [first, ih, insert_rows, List.append_assoc, List.filter_cons]
      by_cases same : item.1 = resource <;> simp [same]

end RowStore

namespace Predicate

def Unnegated (p : Predicate) : Prop := ∀ part, p.Part part → ∀ operand, part ≠ .not operand

-- No part grants to whoever asks for whatever row. A choice of nothing grants to nobody.
def Guarded (p : Predicate) : Prop :=
  ∀ part, p.Part part → part ≠ .literal true ∧ part ≠ .all []

variable {p : Predicate} {row : Row} {request later : Request}

theorem Unnegated.operand (plain : p.Unnegated) : ∀ q ∈ p.operands, q.Unnegated :=
  (parts_exact.mp plain).2

theorem Guarded.operand (guarded : p.Guarded) : ∀ q ∈ p.operands, q.Guarded :=
  (parts_exact.mp guarded).2

theorem truth_all_yes {operands : List Predicate} : truth row request (.all operands) = .yes ↔
    ∀ q ∈ operands, truth row request q = .yes := by
  rw [truth_all, Truth.conj_eq_yes, List.forall_mem_map]

theorem truth_any_yes {operands : List Predicate} : truth row request (.any operands) = .yes ↔
    ∃ q ∈ operands, truth row request q = .yes := by
  rw [truth_any, Truth.disj_eq_yes, List.mem_map]

theorem granted_carried (p : Predicate) (plain : p.Unnegated)
    (each : ∀ leaf ∈ p.leaves, truth row request leaf.predicate = .yes →
      truth row later leaf.predicate = .yes)
    (granted : truth row request p = .yes) : truth row later p = .yes := by
  induction p with
  | literal value => exact granted
  | ownsRow ownership => exact each (.owned ownership) (List.mem_singleton_self _) granted
  | memberOfJoin membership => exact each (.joined membership) (List.mem_singleton_self _) granted
  | all operands ih =>
      rw [truth_all_yes] at granted ⊢
      intro q member
      have leaves := fun leaf inside => each leaf (leaves_operand member inside)
      exact ih q member (plain.operand q member) leaves (granted q member)
  | any operands ih =>
      rw [truth_any_yes] at granted ⊢
      obtain ⟨q, member, grants⟩ := granted
      have leaves := fun leaf inside => each leaf (leaves_operand member inside)
      exact ⟨q, member, ih q member (plain.operand q member) leaves grants⟩
  | not operand ih => exact absurd rfl (plain _ (.whole _) operand)

theorem granted_leaf (p : Predicate) (plain : p.Unnegated) (guarded : p.Guarded)
    (granted : truth row request p = .yes) :
    ∃ leaf ∈ p.leaves, truth row request leaf.predicate = .yes := by
  induction p with
  | literal value =>
      have holds : value = true := Truth.ofBool_yes.mp granted
      exact absurd (congrArg Predicate.literal holds) (guarded _ (.whole _)).1
  | ownsRow ownership => exact ⟨.owned ownership, List.mem_singleton_self _, granted⟩
  | memberOfJoin membership => exact ⟨.joined membership, List.mem_singleton_self _, granted⟩
  | all operands ih =>
      rw [truth_all_yes] at granted
      have filled : operands ≠ [] :=
        fun none => (guarded _ (.whole _)).2 (congrArg Predicate.all none)
      obtain ⟨q, member⟩ := List.exists_mem_of_ne_nil operands filled
      obtain ⟨leaf, inside, grants⟩ :=
        ih q member (plain.operand q member) (guarded.operand q member) (granted q member)
      exact ⟨leaf, leaves_operand member inside, grants⟩
  | any operands ih =>
      obtain ⟨q, member, grants⟩ := truth_any_yes.mp granted
      obtain ⟨leaf, inside, grants⟩ :=
        ih q member (plain.operand q member) (guarded.operand q member) grants
      exact ⟨leaf, leaves_operand member inside, grants⟩
  | not operand ih => exact absurd rfl (plain _ (.whole _) operand)

end Predicate

variable {row : Row} {request : Request}

theorem Membership.granted_fuller (m : Membership) {rows fuller : String → List Row}
    {principal : Option Json} (more : rows m.linkResource ⊆ fuller m.linkResource)
    (granted : m.truth row (.by? principal rows) = .yes) :
    m.truth row (.by? principal fuller) = .yes := by
  rw [truth_joined, Truth.disj_eq_yes] at granted ⊢
  refine List.map_subset _ (fun link member => ?_) granted
  obtain ⟨there, joins⟩ := (m.mem_joined row rows).mp member
  exact (m.mem_joined row fuller).mpr ⟨more there, joins⟩

namespace Leaf

theorem granted_fuller (leaf : Leaf) {rows fuller : String → List Row} {principal : Option Json}
    (more : ∀ resource, rows resource ⊆ fuller resource)
    (granted : leaf.predicate.truth row (.by? principal rows) = .yes) :
    leaf.predicate.truth row (.by? principal fuller) = .yes := by
  cases leaf with
  | owned o =>
      change o.truth row (.by? principal rows) = .yes at granted
      change o.truth row (.by? principal fuller) = .yes
      rwa [o.truth_compared] at granted ⊢
  | joined m => exact m.granted_fuller (more m.linkResource) granted

theorem ungranted (leaf : Leaf) (nobody : request.principal = none) :
    leaf.predicate.truth row request ≠ .yes := by
  cases leaf with
  | owned o =>
      change o.truth row request ≠ .yes
      rw [o.truth_equated, nobody, equated_none]
      nofun
  | joined m =>
      change m.truth row request ≠ .yes
      rw [m.truth_disj, nobody, Ne, Truth.disj_eq_yes, List.mem_map]
      intro ⟨member, _, settled⟩
      rw [equated_none] at settled
      cases settled

end Leaf

namespace Predicate

theorem holds_nobody (p : Predicate) (plain : p.Unnegated) (guarded : p.Guarded)
    (nobody : request.principal = none) : p.holds row request = false := by
  rw [holds, Bool.eq_false_iff, Ne, Truth.holds_iff]
  intro granted
  obtain ⟨leaf, _, grants⟩ := p.granted_leaf plain guarded granted
  exact leaf.ungranted nobody grants

-- Rows that are put into the store take back no grant of a predicate without negations. Where
-- it is guarded as well, as every valid one without the literal true is, it grants to nobody
-- in particular no row of whatever source.
theorem unnegated_grants_kept (p : Predicate) (plain : p.Unnegated) :
    (∀ row principal (store : RowStore) inserts,
        p.holds row (.by? principal store.rows) = true →
          p.holds row (.by? principal (store.insertAll inserts).rows) = true) ∧
      (p.Guarded → ∀ row rows, p.holds row (.anonymous rows) = false ∧
        p.holds row (.byPrincipal .null rows) = false) ∧
      ∀ graph, p.validate graph = .ok () → ¬ p.Part (.literal true) → p.Guarded := by
  refine ⟨?_, ?_, ?_⟩
  · intro row principal store inserts granted
    have more : ∀ resource, store.rows resource ⊆ (store.insertAll inserts).rows resource := by
      intro resource
      rw [store.insertAll_rows]
      exact List.subset_append_left _ _
    rw [holds, Truth.holds_iff] at granted ⊢
    exact p.granted_carried plain (fun leaf _ => leaf.granted_fuller more) granted
  · intro guarded row rows
    exact ⟨p.holds_nobody plain guarded rfl, p.holds_nobody plain guarded rfl⟩
  · intro graph valid literal part inner
    refine ⟨?_, ((valid_grounded p valid).filled part inner).1⟩
    intro same
    exact literal (same ▸ inner)

def visit (chat user : Json) : Json := .object [("chat", chat), ("user", user)]

def visitStore : RowStore :=
  RowStore.empty.insertAll [("visits", visit (.string "lobby") (.string "bob"))]

def laterVisits : List (String × Json) :=
  [("visits", .bool true), ("visits", visit (.string "lobby") .null)]

example : hasVisited.truth (chatRow "lobby") (.by? (some (.string "ada")) visitStore.rows) = .no ∧
    hasVisited.truth (chatRow "lobby")
      (.by? (some (.string "ada")) (visitStore.insertAll laterVisits).rows) = .unknown :=
  ⟨rfl, rfl⟩

def ownerOrVisitor : Predicate := .any [.ownsRow ⟨"chats", "owner"⟩, .memberOfJoin hasVisited]

theorem bob_stays_granted :
    ownerOrVisitor.Unnegated ∧ ownerOrVisitor.Guarded ∧
      ownerOrVisitor.holds (chatRow "lobby") (.by? (some (.string "bob"))
        (visitStore.insertAll laterVisits).rows) = true ∧
      ownerOrVisitor.holds (chatRow "lobby")
        (.anonymous (visitStore.insertAll laterVisits).rows) = false := by
  have plain : ownerOrVisitor.Unnegated := by
    refine parts_exact.mpr ⟨nofun, fun q member => ?_⟩
    rcases List.mem_pair.mp member with rfl | rfl <;> exact parts_exact.mpr ⟨nofun, nofun⟩
  have guarded : ownerOrVisitor.Guarded := by
    refine parts_exact.mpr ⟨⟨nofun, nofun⟩, fun q member => ?_⟩
    rcases List.mem_pair.mp member with rfl | rfl <;>
      exact parts_exact.mpr ⟨⟨nofun, nofun⟩, nofun⟩
  obtain ⟨kept, refused, _⟩ := unnegated_grants_kept ownerOrVisitor plain
  exact ⟨plain, guarded, kept _ _ visitStore laterVisits rfl, (refused guarded _ _).1⟩

end Predicate
end RowSecurity

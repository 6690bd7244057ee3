import RowSecurity.Predicate.Evaluation
import RowSecurity.Proofs.Row.Equality

-- The evaluator, apart from the order in which it looks at things: what an identity adds to a
-- request, and a membership as a question to the column of member identities.
namespace RowSecurity

def Request.by? (principal : Option Json) (rows : String → List Row) : Request :=
  match principal with
  | some principal => .byPrincipal principal rows
  | none => .anonymous rows

section Evaluating

variable (principal : Option Json) (rows : String → List Row) (row : Row)

theorem Request.by?_rows : (Request.by? principal rows).rows = rows := by
  cases principal <;> rfl

theorem Request.by?_present :
    (Request.by? principal rows).principal = (principal.getD .null).present? := by
  cases principal with
  | none => rfl
  | some identity => cases identity <;> rfl

theorem Ownership.truth_equated (o : Ownership) (request : Request) :
    o.truth row request = equated request.principal (row.cell? o.column) := by
  rw [equated_comm]
  unfold truth
  cases request.principal with
  | none => cases row.cell? o.column <;> rfl
  | some identity => cases row.cell? o.column <;> rfl

theorem Ownership.truth_compared (o : Ownership) :
    o.truth row (.by? principal rows) = compared (principal.getD .null) (row.value o.column) := by
  rw [truth_equated, Request.by?_present, Row.cell?_present, compared]

theorem yes_mem_equated {members : List (Option Json)} (identity : Json) :
    .yes ∈ members.map (equated (some identity)) ↔ members.any (isIdentity identity) = true := by
  rw [List.mem_map, List.any_eq_true]
  refine exists_congr fun member => and_congr_right fun _ => ?_
  cases member with
  | none => simp [equated_comm, isIdentity]
  | some member => simp [isIdentity, Json.sqlEqual_comm]

theorem unknown_mem_equated {members : List (Option Json)} (identity : Json) :
    .unknown ∈ members.map (equated (some identity)) ↔ members.any Option.isNone = true := by
  rw [List.mem_map, List.any_eq_true]
  refine exists_congr fun member => and_congr_right fun _ => ?_
  cases member with
  | none => simp [equated_comm]
  | some member => simp

namespace Membership

variable (m : Membership)

def correlates (link : Row) : Bool := (compared (link.value m.linkKey) (row.value m.rowKey)).holds

theorem members_correlate (request : Request) : m.members row request =
    ((request.rows m.linkResource).filter (m.correlates row)).map fun link =>
      link.cell? m.identityKey := by
  unfold members
  rw [Row.cell?_present]
  cases key : (row.value m.rowKey).present? with
  | none =>
      have nothing : ∀ link ∈ request.rows m.linkResource, m.correlates row link ≠ true := by
        intro link _
        simp [correlates, compared, key, equated_comm, Truth.holds]
      rw [List.filter_eq_nil_iff.mpr nothing]
      rfl
  | some held =>
      have same : m.joins held = m.correlates row := by
        funext link
        rw [joins, correlates, compared, Row.cell?_present, key]
        cases (link.value m.linkKey).present? with
        | none => rfl
        | some linkKey => simp
      rw [← same]

theorem truth_disj (request : Request) :
    m.truth row request = .disj ((m.members row request).map (equated request.principal)) := by
  unfold truth
  cases m.members row request with
  | nil => rfl
  | cons first rest =>
      cases request.principal with
      | none =>
          symm
          rw [Truth.disj_eq_unknown]
          simp
      | some identity =>
          change (if (first :: rest).any (isIdentity identity) = true then Truth.yes
            else if (first :: rest).any Option.isNone = true then .unknown else .no) = _
          simp only [← yes_mem_equated, ← unknown_mem_equated identity]
          generalize (first :: rest).map (equated (some identity)) = values
          by_cases found : .yes ∈ values
          · rw [if_pos found, Truth.disj_eq_yes.mpr found]
          · rw [if_neg found]
            by_cases null : .unknown ∈ values
            · rw [if_pos null, Truth.disj_eq_unknown.mpr ⟨null, found⟩]
            · rw [if_neg null, Truth.disj_eq_no.mpr]
              intro value inside
              cases value with
              | no => rfl
              | unknown => exact absurd inside null
              | yes => exact absurd inside found

theorem truth_compared : m.truth row (.by? principal rows) =
    .disj (((rows m.linkResource).filter (m.correlates row)).map fun link =>
      compared (principal.getD .null) (link.value m.identityKey)) := by
  rw [truth_disj, members_correlate, Request.by?_rows, Request.by?_present, List.map_map]
  congr 2
  funext link
  rw [compared, ← Row.cell?_present, Function.comp]

end Membership

namespace Predicate

theorem truthOfAll_conj (request : Request) (sofar : Truth) (possible : sofar ≠ .no)
    (operands : List Predicate) : truthOfAll row request sofar operands =
      sofar.and (.conj (operands.map (truth row request))) := by
  induction operands generalizing sofar with
  | nil => exact (Truth.and_yes sofar).symm
  | cons p rest ih =>
      rw [truthOfAll, List.map_cons, Truth.conj_cons]
      cases truth row request p with
      | no => cases sofar <;> rfl
      | unknown =>
          rw [ih .unknown (by decide)]
          cases sofar with
          | no => exact absurd rfl possible
          | unknown => cases Truth.conj (rest.map (truth row request)) <;> rfl
          | yes => cases Truth.conj (rest.map (truth row request)) <;> rfl
      | yes =>
          rw [ih sofar possible]
          cases sofar <;> cases Truth.conj (rest.map (truth row request)) <;> rfl

theorem truthOfAny_disj (request : Request) (sofar : Truth) (possible : sofar ≠ .yes)
    (operands : List Predicate) : truthOfAny row request sofar operands =
      sofar.or (.disj (operands.map (truth row request))) := by
  induction operands generalizing sofar with
  | nil => exact (Truth.or_no sofar).symm
  | cons p rest ih =>
      rw [truthOfAny, List.map_cons, Truth.disj_cons]
      cases truth row request p with
      | yes => cases sofar <;> rfl
      | unknown =>
          rw [ih .unknown (by decide)]
          cases sofar with
          | yes => exact absurd rfl possible
          | unknown => cases Truth.disj (rest.map (truth row request)) <;> rfl
          | no => cases Truth.disj (rest.map (truth row request)) <;> rfl
      | no =>
          rw [ih sofar possible]
          cases sofar <;> cases Truth.disj (rest.map (truth row request)) <;> rfl

theorem truth_all (request : Request) (operands : List Predicate) :
    truth row request (.all operands) = .conj (operands.map (truth row request)) := by
  rw [truth, truthOfAll_conj row request .yes (by decide)]
  cases Truth.conj (operands.map (truth row request)) <;> rfl

theorem truth_any (request : Request) (operands : List Predicate) :
    truth row request (.any operands) = .disj (operands.map (truth row request)) := by
  rw [truth, truthOfAny_disj row request .no (by decide)]
  cases Truth.disj (operands.map (truth row request)) <;> rfl

end Predicate

end Evaluating

structure Request.Nameless (request named : Request) : Prop where
  nobody : request.principal = none
  rows : request.rows = named.rows

theorem Request.anonymous_nameless (principal : Json) (rows : String → List Row) :
    (Request.anonymous rows).Nameless (.byPrincipal principal rows) := ⟨rfl, rfl⟩

section Identifying

variable {request named : Request} (nameless : request.Nameless named) (row : Row)
include nameless

theorem Ownership.truth_vaguer (o : Ownership) :
    (o.truth row request).Vaguer (o.truth row named) := by
  rw [truth_equated, nameless.nobody]
  exact .inl (equated_none _)

theorem Membership.truth_vaguer (m : Membership) :
    (m.truth row request).Vaguer (m.truth row named) := by
  have members : m.members row request = m.members row named := by
    rw [members_correlate, members_correlate, nameless.rows]
  rw [truth_disj, truth_disj, members, nameless.nobody]
  apply Truth.vaguer_disj
  intro member _
  exact .inl (equated_none _)

namespace Predicate

theorem truth_vaguer (p : Predicate) : (p.truth row request).Vaguer (p.truth row named) := by
  induction p with
  | literal value => exact Truth.vaguer_refl _
  | ownsRow ownership => exact Ownership.truth_vaguer nameless row ownership
  | memberOfJoin membership => exact Membership.truth_vaguer nameless row membership
  | all operands ih =>
      rw [truth_all, truth_all]
      exact Truth.vaguer_conj ih
  | any operands ih =>
      rw [truth_any, truth_any]
      exact Truth.vaguer_disj ih
  | not operand ih => exact Truth.vaguer_not ih

theorem holds_nameless (p : Predicate) (granted : p.holds row request = true) :
    p.holds row named = true := by
  rw [holds, Truth.holds_iff] at granted ⊢
  rcases truth_vaguer nameless row p with unknown | same
  · rw [unknown] at granted
    cases granted
  · rw [← same]
    exact granted

end Predicate

omit nameless

-- Whatever is granted to nobody in particular, a condition or its negation, is granted to
-- everybody; and to ask in the name of null is to ask in nobody's name.
theorem anonymous_gains_nothing (p : Predicate) (row : Row) (rows : String → List Row)
    (principal : Json) :
    (p.truth row (.anonymous rows) = .unknown ∨
        p.truth row (.anonymous rows) = p.truth row (.byPrincipal principal rows)) ∧
      (p.holds row (.anonymous rows) = true →
        p.holds row (.byPrincipal principal rows) = true) ∧
      ((Predicate.not p).holds row (.anonymous rows) = true →
        (Predicate.not p).holds row (.byPrincipal principal rows) = true) ∧
      p.truth row (.byPrincipal .null rows) = p.truth row (.anonymous rows) := by
  have nameless := Request.anonymous_nameless principal rows
  refine ⟨Predicate.truth_vaguer nameless row p, ?_, ?_, rfl⟩
  · exact Predicate.holds_nameless nameless row p
  · exact Predicate.holds_nameless nameless row (.not p)

def ownOrUnjoined : Predicate :=
  .any [.ownsRow ⟨"chats", "owner"⟩,
    .not (.memberOfJoin ⟨"chats", "id", "participants", "chat", "user"⟩)]

def participants (resource : String) : List Row :=
  if resource = "participants" then [⟨[("chat", .string "lobby"), ("user", .string "ada")]⟩] else []

theorem unjoined_attic_open (principal : Json) :
    ownOrUnjoined.holds ⟨[("id", .string "attic")]⟩ (.anonymous participants) = true ∧
      ownOrUnjoined.holds ⟨[("id", .string "attic")]⟩ (.byPrincipal principal participants) = true :=
  ⟨rfl, (anonymous_gains_nothing _ _ _ _).2.1 rfl⟩

end Identifying

namespace Membership

variable (m : Membership) (row : Row) (rows : String → List Row) (principal : Option Json)

def joined : List Row := (rows m.linkResource).filter (m.correlates row)

theorem mem_joined {link : Row} : link ∈ m.joined row rows ↔
    link ∈ rows m.linkResource ∧ compared (link.value m.linkKey) (row.value m.rowKey) = .yes := by
  rw [joined, List.mem_filter, correlates, Truth.holds_iff]

theorem truth_joined : m.truth row (.by? principal rows) =
    .disj ((m.joined row rows).map fun link =>
      compared (link.value m.identityKey) (principal.getD .null)) := by
  rw [truth_compared, joined]
  congr 2
  funext link
  exact equated_comm _ _

end Membership

theorem compared_principal {held : Json} {principal : Option Json} (value : Bool) :
    compared held (principal.getD .null) = .ofBool value ↔
      ∃ actor, principal = some actor ∧ actor ≠ .null ∧ held ≠ .null ∧
        held.sqlEqual actor = value := by
  rw [compared_settled]
  constructor
  · rintro ⟨there, present, equal⟩
    cases principal with
    | none => exact absurd rfl present
    | some actor => exact ⟨actor, rfl, present, there, equal⟩
  · rintro ⟨actor, rfl, present, there, equal⟩
    exact ⟨there, present, equal⟩

-- The three answers of the search through the link rows: the disjunction of what they compare
-- to, one of them that settles it, and none that leaves it open.
theorem membership_truth_exact (m : Membership) (row : Row) (rows : String → List Row)
    (principal : Option Json) :
    (∀ link, link ∈ m.joined row rows ↔ link ∈ rows m.linkResource ∧
      compared (link.value m.linkKey) (row.value m.rowKey) = .yes) ∧
    m.truth row (.by? principal rows) =
      .disj ((m.joined row rows).map fun link =>
        compared (link.value m.identityKey) (principal.getD .null)) ∧
    (m.truth row (.by? principal rows) = .yes ↔ ∃ link ∈ m.joined row rows, ∃ actor,
      principal = some actor ∧ actor ≠ .null ∧ link.value m.identityKey ≠ .null ∧
        (link.value m.identityKey).sqlEqual actor = true) ∧
    (m.truth row (.by? principal rows) = .no ↔ m.joined row rows = [] ∨ ∃ actor,
      principal = some actor ∧ actor ≠ .null ∧ ∀ link ∈ m.joined row rows,
        link.value m.identityKey ≠ .null ∧
          (link.value m.identityKey).sqlEqual actor = false) := by
  refine ⟨fun link => m.mem_joined row rows, m.truth_joined row rows principal, ?_, ?_⟩
  · rw [m.truth_joined, Truth.disj_eq_yes, List.mem_map]
    exact exists_congr fun link => and_congr_right fun _ => compared_principal true
  · rw [m.truth_joined, Truth.disj_eq_no, List.forall_mem_map]
    constructor
    · intro each
      cases links : m.joined row rows with
      | nil => exact .inl rfl
      | cons first rest =>
          rw [links] at each
          obtain ⟨actor, rfl, present, _⟩ := (compared_principal false).mp (each first List.mem_cons_self)
          refine .inr ⟨actor, rfl, present, fun link member => ?_⟩
          obtain ⟨_, same, _, apart⟩ := (compared_principal false).mp (each link member)
          cases same
          exact apart
    · rintro (none | ⟨actor, rfl, present, each⟩) link member
      · rw [none] at member
        cases member
      · exact (compared_principal false).mpr ⟨actor, rfl, present, each link member⟩

def visits (resource : String) : List Row :=
  if resource = "visits" then
    [⟨[("chat", .string "lobby"), ("user", .null)]⟩, ⟨[("chat", .null), ("user", .string "ada")]⟩,
      ⟨[("chat", .string "lobby"), ("user", .string "bob")]⟩]
  else []

def hasVisited : Membership := ⟨"chats", "id", "visits", "chat", "user"⟩

def chatRow (id : String) : Row := ⟨[("id", .string id)]⟩

theorem visits_settled :
    hasVisited.truth (chatRow "lobby") (.by? (some (.string "bob")) visits) = .yes ∧
      hasVisited.truth (chatRow "lobby") (.by? (some (.string "ada")) visits) = .unknown ∧
      hasVisited.truth (chatRow "attic") (.by? none visits) = .no := by
  obtain ⟨_, _, bob, _⟩ :=
    membership_truth_exact hasVisited (chatRow "lobby") visits (some (.string "bob"))
  obtain ⟨_, ada, _, _⟩ :=
    membership_truth_exact hasVisited (chatRow "lobby") visits (some (.string "ada"))
  obtain ⟨_, _, _, nobody⟩ := membership_truth_exact hasVisited (chatRow "attic") visits none
  refine ⟨bob.mpr ?_, ada.trans rfl, nobody.mpr (.inl rfl)⟩
  exact ⟨_, .tail _ List.mem_cons_self, .string "bob", rfl, nofun, nofun, rfl⟩

end RowSecurity

import RowSecurity.Proofs.Install.Planning
import RowSecurity.Proofs.Listed
import RowSecurity.Proofs.Policy.Soundness

-- What a database stores of the names in a plan, and that no two policies and no two tables are
-- stored under one name.
namespace RowSecurity.Text

theorem named_bytes (named : Named text) : ∀ c ∈ text.toList, c.utf8Size = 1 := by
  obtain ⟨first, rest, chars, start, others⟩ := named
  rw [chars]
  have single : ∀ c : Char, c ≤ 'z' → c.utf8Size = 1 := by
    intro c bound
    exact Char.utf8Size_eq_one_iff.mpr (UInt32.le_trans bound (by decide))
  intro c member
  apply single
  rcases List.mem_cons.mp member with rfl | later
  · rcases start with ⟨_, upper⟩ | ⟨_, lower⟩ | rfl
    · exact Char.le_trans upper (by decide)
    · exact lower
    · decide
  · rcases others c later with ⟨_, upper⟩ | ⟨_, lower⟩ | ⟨_, digit⟩ | rfl | rfl
    · exact Char.le_trans upper (by decide)
    · exact lower
    · exact Char.le_trans digit (by decide)
    · decide
    · decide

end RowSecurity.Text

namespace RowSecurity.Install

theorem takeBytes_nothing (text : List Char) : takeBytes 0 text = [] := by
  cases text with
  | nil => rfl
  | cons c rest =>
      have size := c.utf8Size_pos
      rw [takeBytes, if_neg (by omega)]

theorem takeBytes_whole {text : List Char} {budget : Nat}
    (fits : (String.ofList text).utf8ByteSize ≤ budget) : takeBytes budget text = text := by
  induction text generalizing budget with
  | nil => rfl
  | cons c rest ih =>
      rw [bytes_cons] at fits
      rw [takeBytes, if_pos (by omega), ih (by omega)]

theorem truncate_whole {name : String} (fits : name.utf8ByteSize ≤ maxIdentifierBytes) :
    truncateIdentifier name = name := by
  have kept : takeBytes maxIdentifierBytes name.toList = name.toList := by
    apply takeBytes_whole
    rwa [String.ofList_toList]
  rw [truncateIdentifier, kept, String.ofList_toList]

theorem takeBytes_append {front : List Char} (single : ∀ c ∈ front, c.utf8Size = 1)
    (budget : Nat) (rest : List Char) :
    takeBytes budget (front ++ rest) =
      front.take budget ++ takeBytes (budget - front.length) rest := by
  induction front generalizing budget with
  | nil => simp
  | cons c front ih =>
      have size := single c List.mem_cons_self
      have others : ∀ x ∈ front, x.utf8Size = 1 :=
        fun x member => single x (List.mem_cons_of_mem _ member)
      cases budget with
      | zero => simp [takeBytes_nothing]
      | succ budget =>
          rw [List.cons_append, takeBytes, size, if_pos (by omega), Nat.add_sub_cancel,
            ih others, List.take_succ_cons, List.length_cons, Nat.add_sub_add_right,
            List.cons_append]

theorem truncate_append {front rest : String} (single : ∀ c ∈ front.toList, c.utf8Size = 1)
    (long : maxIdentifierBytes ≤ front.toList.length) :
    truncateIdentifier (front ++ rest) = truncateIdentifier front := by
  have whole := takeBytes_append single maxIdentifierBytes []
  rw [List.append_nil] at whole
  rw [truncateIdentifier, truncateIdentifier, String.toList_append, takeBytes_append single, whole,
    Nat.sub_eq_zero_of_le long, takeBytes_nothing, takeBytes_nothing]

theorem truncate_long {first second : String} (one : ∀ c ∈ first.toList, c.utf8Size = 1)
    (two : ∀ c ∈ second.toList, c.utf8Size = 1) (apart : first ≠ second)
    (same : truncateIdentifier first = truncateIdentifier second) :
    maxIdentifierBytes ≤ first.toList.length := by
  have kept : ∀ {name : String}, (∀ c ∈ name.toList, c.utf8Size = 1) →
      (truncateIdentifier name).toList = name.toList.take maxIdentifierBytes := by
    intro name single
    have whole := takeBytes_append single maxIdentifierBytes []
    rw [List.append_nil] at whole
    rw [truncateIdentifier, String.toList_ofList, whole]
    cases maxIdentifierBytes - name.toList.length <;> simp [takeBytes]
  apply Nat.le_of_not_lt
  intro short
  apply apart
  have chars : first.toList.take maxIdentifierBytes = second.toList.take maxIdentifierBytes := by
    rw [← kept one, ← kept two, same]
  have lengths := congrArg List.length chars
  rw [List.length_take, List.length_take] at lengths
  rw [List.take_of_length_le (by omega), List.take_of_length_le (by omega)] at chars
  exact String.toList_inj.mp chars

def PolicyStatement.stored (policy : PolicyStatement) : Slot :=
  ⟨truncateIdentifier policy.resource, truncateIdentifier policy.name⟩

namespace Settings

variable {settings : Settings} {roles : Registry} {rules : List Rule} {made : Plan}

theorem policyName_action (naming : settings.naming = .resourceAction) (rule : Rule) :
    settings.policyName rule = rule.resource ++ ("-" ++ rule.action.label) := by
  rw [policyName, naming]
  exact String.append_assoc

theorem policyName_role (naming : settings.naming = .resourceActionRole) (rule : Rule) :
    settings.policyName rule =
      rule.resource ++ ("-" ++ (rule.action.label ++ ("-" ++ rule.role))) := by
  rw [policyName, naming]
  simp only [← String.append_assoc]
  rfl

theorem policyName_starts (settings : Settings) (rule : Rule) :
    ∃ rest, settings.policyName rule = rule.resource ++ rest := by
  cases naming : settings.naming with
  | resourceAction => exact ⟨_, policyName_action naming rule⟩
  | resourceActionRole => exact ⟨_, policyName_role naming rule⟩

theorem slot_shared {first second : Rule} (one : Text.Named first.resource)
    (two : Text.Named second.resource) (apart : first.resource ≠ second.resource)
    (same : truncateIdentifier first.resource = truncateIdentifier second.resource) :
    settings.slot first = settings.slot second := by
  have oneBytes := Text.named_bytes one
  have twoBytes := Text.named_bytes two
  have oneLong := truncate_long oneBytes twoBytes apart same
  have twoLong := truncate_long twoBytes oneBytes apart.symm same.symm
  obtain ⟨firstRest, firstName⟩ := settings.policyName_starts first
  obtain ⟨secondRest, secondName⟩ := settings.policyName_starts second
  rw [slot, slot, firstName, secondName, truncate_append oneBytes oneLong,
    truncate_append twoBytes twoLong, same]

theorem policies_stored {policies : List PolicyStatement}
    (each : List.Forall₂ (settings.Installs roles) rules policies) :
    policies.map PolicyStatement.stored = rules.map settings.slot := by
  induction each with
  | nil => rfl
  | cons installs _ ih =>
      rw [List.map_cons, List.map_cons, ih, PolicyStatement.stored, installs.resource,
        installs.name]
      rfl

theorem tables_stored (compiled : ∀ rule ∈ rules, Compiled rule)
    (distinct : (rules.map settings.slot).Nodup) :
    ((rules.map Rule.resource).eraseDups.map truncateIdentifier).Nodup := by
  refine List.Nodup.map_on ?_ ((eraseDups_ordered _).imp ?_)
  · intro first one second two same
    obtain ⟨rule, member, rfl⟩ := List.mem_map.mp (List.mem_eraseDups.mp one)
    obtain ⟨other, inside, rfl⟩ := List.mem_map.mp (List.mem_eraseDups.mp two)
    by_contra apart
    have shared : settings.slot rule = settings.slot other :=
      slot_shared (compiled_named (compiled rule member)) (compiled_named (compiled other inside))
        apart same
    rw [List.inj_on_of_nodup_map distinct member inside shared] at apart
    exact apart rfl
  · rintro first second before rfl
    exact Nat.lt_irrefl _ before

theorem policy?_stored (distinct : (made.policies.map PolicyStatement.stored).Nodup)
    (member : policy ∈ made.policies) :
    made.policy? policy.resource policy.name = some policy := by
  refine find?_keyed distinct member (by simp) ?_
  intro other named
  simp only [Bool.and_eq_true, beq_iff_eq] at named
  rw [PolicyStatement.stored, named.1, named.2]
  rfl

-- A plan for compiled rules has no two policies of one stored name on one stored table, and
-- sets no stored table up twice, though it tells tables apart by their names in full.
theorem stored_names_unique (settings : Settings) (roles : Registry)
    (compiled : ∀ rule ∈ rules, Compiled rule) (planned : settings.plan rules roles = .ok made) :
    (made.policies.map PolicyStatement.stored).Nodup ∧
      (made.tables.map fun setup => truncateIdentifier setup.resource).Nodup ∧
      ∀ policy ∈ made.policies, made.policy? policy.resource policy.name = some policy := by
  obtain ⟨done, added, rfl⟩ := plan_ok.mp planned
  obtain ⟨plannable, held⟩ := foldlM_planned added
  have stored : (done.plan.policies.map PolicyStatement.stored).Nodup := by
    rw [policies_stored held.policies]
    exact plannable.distinct
  refine ⟨stored, ?_, fun policy member => policy?_stored stored member⟩
  have tables := tables_stored compiled plannable.distinct
  rw [held.tables, List.map_map]
  exact tables

def archive : String := String.ofList (List.replicate 70 'a')

def archiveGraph : Graph :=
  (Graph.empty.after (.resource archive [])).after (.resource "posts" [])

def archiveCompiler : Compiler := ⟨archiveGraph, .default, .default⟩

def readAll (resource : String) : Rule := .of resource .select "anonymous" (.literal true)

def archivePlan : Plan :=
  ⟨[default.tableSetup archive, default.tableSetup "posts"],
    [default.policyStatement (readAll archive) "anonymous",
      default.policyStatement (readAll "posts") "anonymous"]⟩

theorem archive_stored :
    default.plan [readAll archive, readAll "posts"] .default = .ok archivePlan ∧
      archivePlan.policies.map PolicyStatement.stored =
        [⟨String.ofList (List.replicate 63 'a'), String.ofList (List.replicate 63 'a')⟩,
          ⟨"posts", "posts-select"⟩] ∧
      (archivePlan.tables.map fun setup => truncateIdentifier setup.resource).Nodup ∧
      ∀ policy ∈ archivePlan.policies,
        archivePlan.policy? policy.resource policy.name = some policy := by
  have declared : archiveGraph.Reached := .step _ (.step _ .refl)
  have compiled : ∀ rule ∈ [readAll archive, readAll "posts"], Compiled rule := by
    have long : archiveCompiler.compileGrant archive .select "anonymous" (.flag true) =
        .ok (readAll archive) := rfl
    have short : archiveCompiler.compileGrant "posts" .select "anonymous" (.flag true) =
        .ok (readAll "posts") := rfl
    intro rule member
    rcases List.mem_pair.mp member with rfl | rfl
    · exact .grant archiveCompiler declared .refl long
    · exact .grant archiveCompiler declared .refl short
  have planned : default.plan [readAll archive, readAll "posts"] .default = .ok archivePlan := rfl
  obtain ⟨_, tables, found⟩ := stored_names_unique default .default compiled planned
  exact ⟨planned, rfl, tables, found⟩

end Settings

variable {budget : Nat} {name kept other : String} {text : List Char}

structure Longest (budget : Nat) (name kept : String) : Prop where
  front : kept.toList <+: name.toList
  fits : kept.utf8ByteSize ≤ budget
  next : ∀ c, kept.toList ++ [c] <+: name.toList → budget < kept.utf8ByteSize + c.utf8Size

theorem takeBytes_front (budget : Nat) (text : List Char) : takeBytes budget text <+: text := by
  induction text generalizing budget with
  | nil => exact List.prefix_rfl
  | cons c rest ih =>
      rw [takeBytes]
      split
      · exact List.cons_prefix_cons.mpr ⟨rfl, ih _⟩
      · exact List.nil_prefix

theorem takeBytes_fits (budget : Nat) (text : List Char) :
    (String.ofList (takeBytes budget text)).utf8ByteSize ≤ budget := by
  induction text generalizing budget with
  | nil => simp [takeBytes]
  | cons c rest ih =>
      rw [takeBytes]
      split
      · have behind := ih (budget - c.utf8Size)
        rw [bytes_cons]
        omega
      · simp

theorem takeBytes_next {c : Char} (stands : takeBytes budget text ++ [c] <+: text) :
    budget < (String.ofList (takeBytes budget text)).utf8ByteSize + c.utf8Size := by
  induction text generalizing budget with
  | nil => simp [takeBytes] at stands
  | cons first rest ih =>
      rw [takeBytes] at stands ⊢
      split at stands
      · rename_i fits
        have behind := ih (List.cons_prefix_cons.mp stands).2
        rw [if_pos fits, bytes_cons]
        omega
      · rename_i wide
        obtain ⟨same, _⟩ := List.cons_prefix_cons.mp stands
        rw [if_neg wide, same]
        simp
        omega

theorem cut_longest (budget : Nat) (name : String) :
    Longest budget name (String.ofList (takeBytes budget name.toList)) := by
  refine ⟨?_, takeBytes_fits budget _, ?_⟩
  · rw [String.toList_ofList]
    exact takeBytes_front budget _
  · intro c stands
    rw [String.toList_ofList] at stands
    exact takeBytes_next stands

theorem front_rest (front : kept.toList <+: name.toList) : ∃ rest, name = kept ++ rest := by
  obtain ⟨rest, chars⟩ := front
  refine ⟨String.ofList rest, String.toList_injective ?_⟩
  simp [← chars]

theorem front_bytes {c : Char} (stands : kept.toList ++ [c] <+: name.toList) :
    kept.utf8ByteSize + c.utf8Size ≤ name.utf8ByteSize := by
  have pushed : (kept.push c).toList <+: name.toList := by simpa using stands
  obtain ⟨rest, rfl⟩ := front_rest pushed
  rw [String.utf8ByteSize_append, String.utf8ByteSize_push]
  omega

theorem front_cases (front : kept.toList <+: name.toList) :
    kept = name ∨ ∃ c, kept.toList ++ [c] <+: name.toList := by
  obtain ⟨rest, chars⟩ := front
  cases rest with
  | nil => exact .inl (String.toList_injective (by simpa using chars))
  | cons c more => exact .inr ⟨c, more, by simpa using chars⟩

namespace Longest

theorem covers (longest : Longest budget name kept) (front : other.toList <+: name.toList)
    (fits : other.utf8ByteSize ≤ budget) : other.toList <+: kept.toList := by
  rcases List.prefix_or_prefix_of_prefix front longest.front with shorter | longer
  · exact shorter
  · rcases front_cases longer with rfl | ⟨c, stands⟩
    · exact List.prefix_rfl
    · have beyond := longest.next c (stands.trans front)
      have within := front_bytes stands
      omega

theorem unique (one : Longest budget name kept) (two : Longest budget name other) :
    kept = other := by
  have forth := two.covers one.front one.fits
  have back := one.covers two.front two.fits
  have same := Nat.le_antisymm forth.length_le back.length_le
  exact String.toList_injective (forth.eq_of_length same)

theorem boundary_within (longest : Longest budget name kept) {place : Nat}
    (boundary : String.Pos.Raw.isValid name ⟨place⟩ = true) (before : place ≤ budget) :
    place ≤ kept.utf8ByteSize := by
  obtain ⟨front, rest, rfl, same⟩ :=
    String.Pos.Raw.isValid_iff_exists_append.mp (String.Pos.Raw.isValid_eq_true_iff.mp boundary)
  cases same
  have shorter : front.toList <+: kept.toList := by
    apply longest.covers _ before
    simp
  obtain ⟨more, rfl⟩ := front_rest shorter
  rw [String.utf8ByteSize_append]
  exact Nat.le_add_right _ _

theorem boundary (longest : Longest budget name kept) :
    String.Pos.Raw.isValid name ⟨kept.utf8ByteSize⟩ = true := by
  obtain ⟨rest, rfl⟩ := front_rest longest.front
  exact String.Pos.Raw.isValid_eq_true_iff.mpr
    (String.Pos.Raw.isValid_iff_exists_append.mpr ⟨kept, rest, rfl, rfl⟩)

end Longest

theorem boundaryFrom?_some {stop offset : Nat} (before : stop ≤ offset)
    (boundary : String.Pos.Raw.isValid name ⟨stop⟩ = true)
    (last : ∀ place, String.Pos.Raw.isValid name ⟨place⟩ = true → place ≤ offset → place ≤ stop) :
    boundaryFrom? name offset = some stop := by
  induction offset with
  | zero =>
      cases Nat.le_zero.mp before
      rw [boundaryFrom?, if_pos boundary]
  | succ offset ih =>
      rw [boundaryFrom?]
      split
      · rename_i here
        have same := last (offset + 1) here (Nat.le_refl _)
        rw [Nat.le_antisymm same before]
      · rename_i inside
        have apart : stop ≠ offset + 1 := by
          rintro rfl
          exact inside boundary
        apply ih (by omega)
        intro place there within
        exact last place there (by omega)

theorem Longest.found (longest : Longest budget name kept) :
    boundaryFrom? name budget = some kept.utf8ByteSize :=
  boundaryFrom?_some longest.fits longest.boundary fun _ => longest.boundary_within

theorem truncate_longest (name : String) :
    Longest maxIdentifierBytes name (truncateIdentifier name) := cut_longest _ name

theorem truncate_filled (name more : String)
    (full : maxIdentifierBytes ≤ (truncateIdentifier name).utf8ByteSize) :
    truncateIdentifier (name ++ more) = truncateIdentifier name := by
  apply (truncate_longest _).unique
  have longest := truncate_longest name
  refine ⟨?_, longest.fits, ?_⟩
  · rw [String.toList_append]
    exact longest.front.trans (List.prefix_append _ _)
  · intro c _
    have present := c.utf8Size_pos
    omega

theorem truncate_loss (long : maxIdentifierBytes < name.utf8ByteSize) :
    maxIdentifierBytes ≤ (truncateIdentifier name).utf8ByteSize + 3 := by
  have longest := truncate_longest name
  rcases front_cases longest.front with same | ⟨c, stands⟩
  · have fits := longest.fits
    rw [same] at fits
    omega
  · have beyond := longest.next c stands
    have width := c.utf8Size_le_four
    omega

-- What is stored of a name is the longest beginning of it, in whole characters, that 63 bytes
-- hold, and nothing else is. It is found at the nearest boundary from the last byte back, which
-- gives up three bytes at most.
theorem truncation_exact (name : String) :
    (∀ kept, truncateIdentifier name = kept ↔ Longest maxIdentifierBytes name kept) ∧
    (∀ front rest, name = front ++ rest → front.utf8ByteSize ≤ maxIdentifierBytes →
      ∃ more, truncateIdentifier name = front ++ more) ∧
    (name.utf8ByteSize ≤ maxIdentifierBytes → truncateIdentifier name = name) ∧
    (maxIdentifierBytes < name.utf8ByteSize →
      maxIdentifierBytes ≤ (truncateIdentifier name).utf8ByteSize + 3) ∧
    truncateIdentifier (truncateIdentifier name) = truncateIdentifier name ∧
    (∀ more, maxIdentifierBytes ≤ (truncateIdentifier name).utf8ByteSize →
      truncateIdentifier (name ++ more) = truncateIdentifier name) ∧
    boundaryFrom? name maxIdentifierBytes = some (truncateIdentifier name).utf8ByteSize ∧
    name.toByteArray.extract 0 (truncateIdentifier name).utf8ByteSize =
      (truncateIdentifier name).toByteArray := by
  have longest := truncate_longest name
  refine ⟨fun kept => ⟨?_, longest.unique⟩, ?_, truncate_whole, truncate_loss,
    truncate_whole longest.fits, truncate_filled name, longest.found, ?_⟩
  · rintro rfl
    exact longest
  · intro front rest parts fits
    apply front_rest
    apply longest.covers _ fits
    simp [parts]
  · obtain ⟨rest, parts⟩ := front_rest longest.front
    have bytes := congrArg String.toByteArray parts
    rw [bytes, String.toByteArray_append]
    exact ByteArray.extract_append_eq_left (String.size_toByteArray).symm

def accented : String := String.ofList (List.replicate 62 'a' ++ ['é', 'ß'])

def filled : String := String.ofList (List.replicate 61 'a' ++ ['é', 'ß'])

theorem accented_cut :
    maxIdentifierBytes < accented.utf8ByteSize ∧
      truncateIdentifier accented = String.ofList (List.replicate 62 'a') ∧
      Longest maxIdentifierBytes accented (String.ofList (List.replicate 62 'a')) ∧
      boundaryFrom? accented maxIdentifierBytes = some 62 ∧
      maxIdentifierBytes ≤ (truncateIdentifier accented).utf8ByteSize + 3 ∧
      maxIdentifierBytes ≤ (truncateIdentifier filled).utf8ByteSize ∧
      truncateIdentifier (filled ++ "\"") = truncateIdentifier filled := by
  have long : maxIdentifierBytes < accented.utf8ByteSize := by decide +kernel
  have kept : truncateIdentifier accented = String.ofList (List.replicate 62 'a') := by
    decide +kernel
  have full : maxIdentifierBytes ≤ (truncateIdentifier filled).utf8ByteSize := by decide +kernel
  obtain ⟨exactly, _, _, loss, _, _, found, _⟩ := truncation_exact accented
  obtain ⟨_, _, _, _, _, absorbed, _⟩ := truncation_exact filled
  have bytes : (truncateIdentifier accented).utf8ByteSize = 62 := by decide +kernel
  exact ⟨long, kept, (exactly _).mp kept, bytes ▸ found, loss long, full, absorbed _ full⟩

end RowSecurity.Install

import Mathlib.Data.List.Forall2
import Mathlib.Data.List.Nodup
import RowSecurity.Proofs.Listed
import RowSecurity.Rule.Fingerprint

-- Histories of a rule set. Whether a batch is refused depends on nothing but the keys.
namespace RowSecurity

theorem RuleKey.contains_insert {keys : Std.TreeSet RuleKey RuleKey.order} {key other : RuleKey} :
    (keys.insert key).contains other = true ↔ key = other ∨ keys.contains other = true := by
  rw [Std.TreeSet.contains_insert, Bool.or_eq_true, beq_iff_eq,
    Std.LawfulEqCmp.compare_eq_iff_eq]

structure Fresh (known : List RuleKey) (batch : List Rule) : Prop where
  distinct : (batch.map Rule.key).Nodup
  new : ∀ rule ∈ batch, rule.key ∉ known

def Repeats (known : List RuleKey) (batch : List Rule) (key : RuleKey) : Prop :=
  ∃ before rule after, batch = before ++ rule :: after ∧ Fresh known before ∧
    (rule.key ∈ known ∨ rule.key ∈ before.map Rule.key) ∧ key = rule.key

theorem fresh_nil (known : List RuleKey) : Fresh known [] :=
  ⟨List.nodup_nil, fun _ member => by cases member⟩

theorem fresh_cons {known : List RuleKey} {rule : Rule} {rest : List Rule}
    (new : rule.key ∉ known) : Fresh known (rule :: rest) ↔ Fresh (rule.key :: known) rest := by
  constructor
  · intro fresh
    have apart : rule.key ∉ rest.map Rule.key ∧ (rest.map Rule.key).Nodup := by
      simpa using fresh.distinct
    refine ⟨apart.2, ?_⟩
    intro other member same
    rcases List.mem_cons.mp same with equal | old
    · apply apart.1
      rw [← equal]
      exact List.mem_map_of_mem member
    · exact fresh.new other (List.mem_cons_of_mem _ member) old
  · intro fresh
    constructor
    · rw [List.map_cons, List.nodup_cons]
      refine ⟨?_, fresh.distinct⟩
      intro member
      obtain ⟨other, inside, equal⟩ := List.mem_map.mp member
      apply fresh.new other inside
      rw [equal]
      exact List.mem_cons_self
    · intro other member
      rcases List.mem_cons.mp member with rfl | inside
      · exact new
      · exact fun old => fresh.new other inside (List.mem_cons_of_mem _ old)

theorem repeats_cons {known : List RuleKey} {rule : Rule} {rest : List Rule} {key : RuleKey} :
    Repeats known (rule :: rest) key ↔ (rule.key ∈ known ∧ key = rule.key) ∨
      (rule.key ∉ known ∧ Repeats (rule.key :: known) rest key) := by
  constructor
  · rintro ⟨before, other, after, split, fresh, taken, same⟩
    cases before with
    | nil =>
        cases split
        rcases taken with old | earlier
        · exact .inl ⟨old, same⟩
        · cases earlier
    | cons first before =>
        cases split
        have new : rule.key ∉ known := fresh.new rule List.mem_cons_self
        refine .inr ⟨new, before, other, after, rfl, (fresh_cons new).mp fresh, ?_, same⟩
        rcases taken with old | earlier
        · exact .inl (List.mem_cons_of_mem _ old)
        · rcases List.mem_cons.mp earlier with equal | between
          · exact .inl (List.mem_cons.mpr (.inl equal))
          · exact .inr between
  · rintro (⟨old, same⟩ | ⟨new, before, other, after, rfl, fresh, taken, same⟩)
    · exact ⟨[], rule, rest, rfl, fresh_nil known, .inl old, same⟩
    · refine ⟨rule :: before, other, after, rfl, (fresh_cons new).mpr fresh, ?_, same⟩
      rcases taken with known | between
      · rcases List.mem_cons.mp known with equal | old
        · exact .inr (List.mem_cons.mpr (.inl equal))
        · exact .inl old
      · exact .inr (List.mem_cons_of_mem _ between)

namespace RuleSet

section Search

variable {keys : Std.TreeSet RuleKey RuleKey.order} {known : List RuleKey}

theorem index_insert (index : ∀ key, keys.contains key = true ↔ key ∈ known) (added : RuleKey) :
    ∀ key, (keys.insert added).contains key = true ↔ key ∈ added :: known := by
  intro key
  rw [RuleKey.contains_insert, index, List.mem_cons, eq_comm]

-- The search puts the keys that it met into the index, and so knows of them further on.
theorem takenKey?_exact (index : ∀ key, keys.contains key = true ↔ key ∈ known)
    (batch : List Rule) :
    (takenKey? keys batch = none ↔ Fresh known batch) ∧
      ∀ key, takenKey? keys batch = some key ↔ Repeats known batch key := by
  induction batch generalizing keys known with
  | nil =>
      refine ⟨⟨fun _ => fresh_nil known, fun _ => rfl⟩, ?_⟩
      intro key
      constructor
      · intro found
        cases found
      · rintro ⟨before, rule, after, split, _⟩
        cases before <;> cases split
  | cons rule rest ih =>
      rw [takenKey?]
      by_cases held : keys.contains rule.key = true
      · have old : rule.key ∈ known := (index _).mp held
        rw [if_pos held]
        constructor
        · constructor
          · intro free
            cases free
          · intro fresh
            exact absurd old (fresh.new rule List.mem_cons_self)
        · intro key
          simp [repeats_cons, old, eq_comm]
      · have new : rule.key ∉ known := fun old => held ((index _).mpr old)
        obtain ⟨free, taken⟩ := ih (index_insert index rule.key)
        rw [if_neg held]
        refine ⟨free.trans (fresh_cons new).symm, ?_⟩
        intro key
        simp [repeats_cons, new, taken]

theorem index_commit (index : ∀ key, keys.contains key = true ↔ key ∈ known)
    (batch : List Rule) : ∀ key,
      (batch.foldl (fun keys rule => keys.insert rule.key) keys).contains key = true ↔
        key ∈ known ++ batch.map Rule.key := by
  induction batch generalizing keys known with
  | nil => simpa using index
  | cons rule rest ih =>
      intro key
      rw [List.foldl_cons, ih (index_insert index rule.key)]
      simp only [List.mem_append, List.mem_cons, List.map_cons]
      tauto

end Search

structure Indexed (set : RuleSet) : Prop where
  keys : ∀ key, set.keys.contains key = true ↔ key ∈ set.rules.map Rule.key
  distinct : (set.rules.map Rule.key).Nodup

theorem empty_indexed (observer : Option Observer) : (empty observer).Indexed := by
  constructor
  · intro key
    simp [empty, Std.TreeSet.empty_eq_emptyc]
  · exact List.nodup_nil

theorem extend_cases (set : RuleSet) (batch : List Rule) :
    (takenKey? set.keys batch = none ∧ (set.extend batch).2 = .ok () ∧
        (set.extend batch).1.rules = set.rules ++ batch ∧
        (set.extend batch).1.keys =
          batch.foldl (fun keys rule => keys.insert rule.key) set.keys ∧
        (set.extend batch).1.observer = set.observer.map (·.notify (.committed batch))) ∨
      ∃ key, takenKey? set.keys batch = some key ∧
        set.extend batch = (set.notify (.conflict key), .error (.conflict key)) := by
  unfold extend
  cases takenKey? set.keys batch with
  | none => exact .inl ⟨rfl, rfl, rfl, rfl, rfl⟩
  | some key => exact .inr ⟨key, rfl, rfl⟩

theorem extend_free {set : RuleSet} {batch : List Rule} :
    (set.extend batch).2 = .ok () ↔ takenKey? set.keys batch = none := by
  rcases set.extend_cases batch with ⟨free, accepted, _⟩ | ⟨key, taken, refused⟩
  · simp [free, accepted]
  · simp [taken, refused]

theorem extend_taken {set : RuleSet} {batch : List Rule} {error : PolicyError} :
    (set.extend batch).2 = .error error ↔
      ∃ key, takenKey? set.keys batch = some key ∧ error = .conflict key := by
  rcases set.extend_cases batch with ⟨free, accepted, _⟩ | ⟨key, taken, refused⟩
  · simp [free, accepted]
  · simp [taken, refused, eq_comm]

section Verdict

variable {set : RuleSet} (indexed : set.Indexed) (batch : List Rule)
include indexed

theorem extend_ok : (set.extend batch).2 = .ok () ↔ Fresh (set.rules.map Rule.key) batch := by
  rw [extend_free, (takenKey?_exact indexed.keys batch).1]

theorem extend_error (error : PolicyError) : (set.extend batch).2 = .error error ↔
    ∃ key, Repeats (set.rules.map Rule.key) batch key ∧ error = .conflict key := by
  simp only [extend_taken, (takenKey?_exact indexed.keys batch).2]

theorem extend_indexed : (set.extend batch).1.Indexed := by
  rcases set.extend_cases batch with ⟨free, _, rules, keys, _⟩ | ⟨key, _, refused⟩
  · have fresh := (takenKey?_exact indexed.keys batch).1.mp free
    constructor
    · rw [rules, keys, List.map_append]
      exact index_commit indexed.keys batch
    · rw [rules, List.map_append, List.nodup_append]
      refine ⟨indexed.distinct, fresh.distinct, ?_⟩
      intro old held new offered equal
      obtain ⟨rule, inside, rfl⟩ := List.mem_map.mp offered
      exact fresh.new rule inside (equal ▸ held)
  · rw [refused]
    exact ⟨indexed.keys, indexed.distinct⟩

theorem rule?_exact (key : RuleKey) (rule : Rule) :
    set.rule? key = some rule ↔ rule ∈ set.rules ∧ rule.key = key := by
  constructor
  · intro found
    unfold rule? at found
    split at found
    · have same := List.find?_some found
      exact ⟨List.mem_of_find?_eq_some found, by simpa using same⟩
    · cases found
  · rintro ⟨member, rfl⟩
    have held : set.keys.contains rule.key = true :=
      (indexed.keys _).mpr (List.mem_map_of_mem member)
    rw [rule?, if_pos held]
    exact find?_keyed indexed.distinct member (by simp) fun other same => by simpa using same

end Verdict

inductive Call where
  | extend (batch : List Rule)
  | merge (other : RuleSet)
  | mergeOwn

def offered (set : RuleSet) : Call → List Rule
  | .extend batch => batch
  | .merge other => other.rules
  | .mergeOwn => set.rules

def perform (set : RuleSet) : Call → RuleSet × Except PolicyError Unit
  | .extend batch => set.extend batch
  | .merge other => set.merge other
  | .mergeOwn => set.merge set

theorem perform_extend (set : RuleSet) (call : Call) :
    set.perform call = set.extend (set.offered call) := by
  cases call <;> rfl

structure Attempt where
  batch : List Rule
  outcome : Except PolicyError Unit

def Attempt.accepted (attempt : Attempt) : Bool :=
  match attempt.outcome with
  | .ok () => true
  | .error _ => false

def attempt (set : RuleSet) (call : Call) : Attempt := ⟨set.offered call, (set.perform call).2⟩

inductive Runs (start : RuleSet) : List Attempt → RuleSet → Prop where
  | nil : Runs start [] start
  | step {set : RuleSet} (call : Call) : Runs start attempts set →
      Runs start (attempts ++ [set.attempt call]) (set.perform call).1

inductive Tells : Attempt → Notice → Prop where
  | committed : Tells ⟨batch, .ok ()⟩ (.committed batch)
  | conflict : Tells ⟨batch, .error (.conflict key)⟩ (.conflict key)

variable {start set last : RuleSet} {attempts : List Attempt}

theorem runs_rules (path : Runs start attempts set) :
    set.rules = start.rules ++ (attempts.filter Attempt.accepted).flatMap Attempt.batch := by
  induction path with
  | nil => simp
  | @step attempts set call _ ih =>
      rw [perform_extend, List.filter_append, List.flatMap_append, ← List.append_assoc, ← ih]
      rcases set.extend_cases (set.offered call) with ⟨_, done, rules, _⟩ | ⟨key, _, done⟩
      · simp [rules, attempt, List.filter_cons, Attempt.accepted, perform_extend, done]
      · simp [attempt, Attempt.accepted, perform_extend, done, notify]

theorem runs_indexed (indexed : start.Indexed) (path : Runs start attempts set) :
    set.Indexed := by
  induction path with
  | nil => exact indexed
  | step call _ ih =>
      rw [perform_extend]
      exact extend_indexed ih _

theorem step_told (set : RuleSet) (call : Call) :
    ∃ notice, Tells (set.attempt call) notice ∧
      (set.perform call).1.observer = set.observer.map (·.notify notice) := by
  rw [attempt, perform_extend]
  rcases set.extend_cases (set.offered call) with ⟨_, done, _, _, told⟩ | ⟨key, _, done⟩
  · rw [done, told]
    exact ⟨_, .committed, rfl⟩
  · rw [done]
    exact ⟨_, .conflict, rfl⟩

theorem runs_told (path : Runs start attempts set) :
    ∃ notices, List.Forall₂ Tells attempts notices ∧
      set.observer = start.observer.map fun observer => notices.foldl Observer.notify observer := by
  induction path with
  | nil => exact ⟨[], .nil, by simp⟩
  | step call _ ih =>
      obtain ⟨notices, each, told⟩ := ih
      obtain ⟨notice, tells, next⟩ := step_told _ call
      refine ⟨notices ++ [notice], List.rel_append each (.cons tells .nil), ?_⟩
      rw [next, told]
      cases start.observer <;> simp

theorem recorder_keeps (log notices : List Notice) :
    notices.foldl Observer.notify (.recorder log) = .recorder (log ++ notices) := by
  induction notices generalizing log with
  | nil => simp
  | cons notice rest ih => rw [List.foldl_cons, Observer.notify, ih, List.append_assoc]; rfl

structure Agrees (set other : RuleSet) : Prop where
  rules : set.rules = other.rules
  keys : set.keys = other.keys
  rule : ∀ key, set.rule? key = other.rule? key
  forResource : ∀ resource, set.forResource resource = other.forResource resource
  resources : set.resources = other.resources
  fingerprint : set.fingerprint = other.fingerprint

theorem agrees_of {set other : RuleSet} (rules : set.rules = other.rules)
    (keys : set.keys = other.keys) : set.Agrees other := by
  cases set
  cases other
  cases rules
  cases keys
  exact ⟨rfl, rfl, fun _ => rfl, fun _ => rfl, rfl, rfl⟩

theorem notify_agrees (set : RuleSet) (notice : Notice) : (set.notify notice).Agrees set :=
  agrees_of rfl rfl

theorem extend_agrees {set other : RuleSet} (agrees : set.Agrees other) (batch : List Rule) :
    (set.extend batch).2 = (other.extend batch).2 ∧
      (set.extend batch).1.Agrees (other.extend batch).1 := by
  unfold extend
  rw [agrees.keys]
  cases takenKey? other.keys batch with
  | none => exact ⟨rfl, agrees_of (by rw [agrees.rules]) rfl⟩
  | some key => exact ⟨rfl, agrees_of agrees.rules agrees.keys⟩

theorem perform_agrees {set other : RuleSet} (agrees : set.Agrees other) (call : Call) :
    set.attempt call = other.attempt call ∧ (set.perform call).1.Agrees (other.perform call).1 := by
  have offered : set.offered call = other.offered call := by
    cases call with
    | extend batch => rfl
    | merge merged => rfl
    | mergeOwn => exact agrees.rules
  obtain ⟨outcome, next⟩ := extend_agrees agrees (other.offered call)
  rw [attempt, attempt, perform_extend, perform_extend, offered, outcome]
  exact ⟨rfl, next⟩

theorem runs_agrees {other : RuleSet} (agrees : start.Agrees other)
    (path : Runs start attempts set) : ∃ last, Runs other attempts last ∧ set.Agrees last := by
  induction path with
  | nil => exact ⟨other, .nil, agrees⟩
  | step call _ ih =>
      obtain ⟨last, path, alike⟩ := ih
      obtain ⟨same, next⟩ := perform_agrees alike call
      rw [same]
      exact ⟨_, .step call path, next⟩

structure Undisturbed (before after : RuleSet) : Prop where
  now : after.Agrees before
  later : ∀ attempts last, Runs after attempts last →
    ∃ other, Runs before attempts other ∧ last.Agrees other

theorem refused_undisturbed {call : Call} (refused : (set.perform call).2 = .error error) :
    set.Undisturbed (set.perform call).1 := by
  rw [perform_extend] at refused ⊢
  rcases set.extend_cases (set.offered call) with ⟨_, done, _⟩ | ⟨key, _, done⟩
  · rw [done] at refused
    cases refused
  · rw [done]
    have agrees := set.notify_agrees (.conflict key)
    exact ⟨agrees, fun attempts last path => runs_agrees agrees path⟩

-- After any calls a set holds the batches that were committed, in order, and answers for
-- them by key. Its observer was told of every call, once; and what the next call comes to
-- depends on the keys alone.
theorem runs_exact {observer : Option Observer} (path : Runs (.empty observer) attempts set) :
    set.rules = (attempts.filter Attempt.accepted).flatMap Attempt.batch ∧
      set.Indexed ∧
      (∀ key rule, set.rule? key = some rule ↔ rule ∈ set.rules ∧ rule.key = key) ∧
      (∃ notices, List.Forall₂ Tells attempts notices ∧
        (set.observer = observer.map fun held => notices.foldl Observer.notify held) ∧
        ∀ log, observer = some (.recorder log) →
          set.observer = some (.recorder (log ++ notices))) ∧
      ∀ call,
        ((set.perform call).2 = .ok () ↔
          Fresh (set.rules.map Rule.key) (set.offered call)) ∧
        (∀ error, (set.perform call).2 = .error error ↔
          ∃ key, Repeats (set.rules.map Rule.key) (set.offered call) key ∧
            error = .conflict key) ∧
        ∀ error, (set.perform call).2 = .error error →
          set.Undisturbed (set.perform call).1 := by
  have indexed := runs_indexed (empty_indexed observer) path
  have rules := runs_rules path
  obtain ⟨notices, each, told⟩ := runs_told path
  refine ⟨rules, indexed, rule?_exact indexed, ⟨notices, each, told, ?_⟩, ?_⟩
  · rintro log rfl
    rw [told, ← recorder_keeps]
    rfl
  · intro call
    refine ⟨?_, ?_, fun _ => refused_undisturbed⟩
    · rw [perform_extend]
      exact extend_ok indexed _
    · rw [perform_extend]
      exact extend_error indexed _

def readPosts : Rule := .of "posts" .select "anonymous" (.literal true)

def editPosts : Rule := .of "posts" .update "authenticated" (.ownsRow ⟨"posts", "userId"⟩)

theorem posts_committed_once :
    ∃ attempts set, Runs (.empty (some (.recorder []))) attempts set ∧
      attempts.map Attempt.accepted = [false, true, false] ∧ set.Indexed ∧
      set.rules = [readPosts, editPosts] ∧ set.rule? editPosts.key = some editPosts ∧
      set.observer = some (.recorder
        [.conflict readPosts.key, .committed [readPosts, editPosts], .conflict readPosts.key]) := by
  have path : Runs (.empty (some (.recorder []))) _ _ :=
    .step .mergeOwn (.step (.extend [readPosts, editPosts])
      (.step (.extend [readPosts, readPosts]) .nil))
  obtain ⟨rules, indexed, found, _⟩ := runs_exact path
  refine ⟨_, _, path, rfl, indexed, rules, ?_, rfl⟩
  exact (found _ _).mpr ⟨by rw [rules]; exact .tail _ (.head _), rfl⟩

end RuleSet

theorem fresh_distinct {known : List RuleKey} {batch : List Rule} (distinct : known.Nodup) :
    Fresh known batch ↔ (known ++ batch.map Rule.key).Nodup := by
  rw [List.nodup_append]
  constructor
  · intro fresh
    refine ⟨distinct, fresh.distinct, ?_⟩
    intro old held key offered same
    obtain ⟨rule, member, rfl⟩ := List.mem_map.mp offered
    exact fresh.new rule member (same ▸ held)
  · intro ⟨_, apart, new⟩
    refine ⟨apart, ?_⟩
    intro rule member held
    exact new _ held _ (List.mem_map_of_mem member) rfl

namespace RuleSet

theorem extend_accepted {set : RuleSet} {batch : List Rule}
    (accepted : (set.extend batch).2 = .ok ()) :
    (set.extend batch).1.rules = set.rules ++ batch ∧
      (set.extend batch).1.keys =
        batch.foldl (fun keys rule => keys.insert rule.key) set.keys := by
  rcases set.extend_cases batch with ⟨_, _, rules, keys, _⟩ | ⟨key, _, refused⟩
  · exact ⟨rules, keys⟩
  · simp [refused] at accepted

section Distinct

variable {set other third : RuleSet} (indexed : set.Indexed)
include indexed

theorem extend_distinct (batch : List Rule) :
    (set.extend batch).2 = .ok () ↔ ((set.rules ++ batch).map Rule.key).Nodup := by
  rw [extend_ok indexed, fresh_distinct indexed.distinct, List.map_append]

theorem extend_twice (first second : List Rule) :
    (set.extend first).2 = .ok () ∧ ((set.extend first).1.extend second).2 = .ok () ↔
      (set.extend (first ++ second)).2 = .ok () := by
  rw [extend_distinct indexed (first ++ second), ← List.append_assoc]
  constructor
  · intro ⟨one, two⟩
    rw [extend_distinct (extend_indexed indexed first), (extend_accepted one).1] at two
    exact two
  · intro all
    have front : ((set.rules ++ first).map Rule.key).Nodup :=
      all.sublist ((List.sublist_append_left _ second).map _)
    have one := (extend_distinct indexed first).mpr front
    refine ⟨one, ?_⟩
    rw [extend_distinct (extend_indexed indexed first), (extend_accepted one).1]
    exact all

theorem extend_batches (first second : List Rule)
    (accepted : (set.extend (first ++ second)).2 = .ok ()) :
    (set.extend (first ++ second)).1.Agrees ((set.extend first).1.extend second).1 := by
  obtain ⟨one, two⟩ := (extend_twice indexed first second).mpr accepted
  obtain ⟨oneRules, oneKeys⟩ := extend_accepted one
  obtain ⟨twoRules, twoKeys⟩ := extend_accepted two
  obtain ⟨rules, keys⟩ := extend_accepted accepted
  apply agrees_of
  · rw [rules, twoRules, oneRules, List.append_assoc]
  · rw [keys, twoKeys, oneKeys, List.foldl_append]

theorem merge_swap (held : other.Indexed) :
    (set.merge other).2 = .ok () ↔ (other.merge set).2 = .ok () := by
  rw [merge, merge, extend_distinct indexed, extend_distinct held]
  exact (List.perm_append_comm.map Rule.key).nodup_iff

theorem merge_found (held : other.Indexed) (merged : (set.merge other).2 = .ok ()) (key : RuleKey) :
    (set.merge other).1.rule? key = (other.merge set).1.rule? key := by
  have swapped := (merge_swap indexed held).mp merged
  have rules := (extend_accepted merged).1
  have otherRules := (extend_accepted swapped).1
  apply Option.ext
  intro rule
  have one := rule?_exact (extend_indexed indexed other.rules) key rule
  have two := rule?_exact (extend_indexed held set.rules) key rule
  rw [merge, merge, one, two, rules, otherRules, List.mem_append, List.mem_append, or_comm]

theorem merge_grouped (held : other.Indexed) :
    (set.merge other).2 = .ok () ∧ ((set.merge other).1.merge third).2 = .ok () ↔
      (other.merge third).2 = .ok () ∧ (set.merge (other.merge third).1).2 = .ok () := by
  rw [merge, merge, extend_twice indexed, extend_distinct indexed]
  constructor
  · intro all
    have behind : ((other.rules ++ third.rules).map Rule.key).Nodup :=
      all.sublist ((List.sublist_append_right _ _).map _)
    have joined := (extend_distinct held third.rules).mpr behind
    refine ⟨joined, ?_⟩
    rw [merge, merge, (extend_accepted joined).1, extend_distinct indexed]
    exact all
  · intro ⟨joined, whole⟩
    rw [merge, merge, (extend_accepted joined).1, extend_distinct indexed] at whole
    exact whole

theorem merge_grouped_agrees (held : other.Indexed) (one : (set.merge other).2 = .ok ())
    (two : ((set.merge other).1.merge third).2 = .ok ()) :
    ((set.merge other).1.merge third).1.Agrees (set.merge (other.merge third).1).1 := by
  obtain ⟨joined, _⟩ := (merge_grouped indexed held).mp ⟨one, two⟩
  have whole := (extend_twice indexed other.rules third.rules).mp ⟨one, two⟩
  have together := extend_batches indexed other.rules third.rules whole
  have batch : (other.merge third).1.rules = other.rules ++ third.rules :=
    (extend_accepted joined).1
  rw [merge, merge, merge, batch]
  exact agrees_of together.rules.symm together.keys.symm

end Distinct

variable {set other : RuleSet} {attempts others : List Attempt}
  {observer otherObserver : Option Observer}

-- It is no matter in how many batches rules are committed, and nothing but the order of the
-- rules depends on the order in which sets are merged.
theorem batches_merges_exact (path : Runs (.empty observer) attempts set)
    (otherPath : Runs (.empty otherObserver) others other) (third : RuleSet) :
    (∀ first second,
      ((set.extend (first ++ second)).2 = .ok () ↔
        (set.extend first).2 = .ok () ∧ ((set.extend first).1.extend second).2 = .ok ()) ∧
      ((set.extend (first ++ second)).2 = .ok () →
        (set.extend (first ++ second)).1.Agrees ((set.extend first).1.extend second).1)) ∧
      ((set.merge other).2 = .ok () ↔ (other.merge set).2 = .ok ()) ∧
      ((set.merge other).2 = .ok () →
        ∀ key, (set.merge other).1.rule? key = (other.merge set).1.rule? key) ∧
      ((set.merge other).2 = .ok () ∧ ((set.merge other).1.merge third).2 = .ok () ↔
        (other.merge third).2 = .ok () ∧ (set.merge (other.merge third).1).2 = .ok ()) ∧
      ((set.merge other).2 = .ok () → ((set.merge other).1.merge third).2 = .ok () →
        ((set.merge other).1.merge third).1.Agrees (set.merge (other.merge third).1).1) := by
  have indexed := runs_indexed (empty_indexed observer) path
  have held := runs_indexed (empty_indexed otherObserver) otherPath
  refine ⟨?_, merge_swap indexed held, merge_found indexed held, merge_grouped indexed held,
    merge_grouped_agrees indexed held⟩
  intro first second
  exact ⟨(extend_twice indexed first second).symm, extend_batches indexed first second⟩

def postsRead : RuleSet := ((empty none).extend [.of "posts" .select "anonymous" (.literal true)]).1

def postsOwned : RuleSet :=
  ((empty none).extend [.of "posts" .update "authenticated" (.ownsRow ⟨"posts", "userId"⟩)]).1

theorem posts_merged :
    (postsRead.merge postsOwned).2 = .ok () ∧ (postsOwned.merge postsRead).2 = .ok () ∧
      (postsRead.merge postsOwned).1.rules ≠ (postsOwned.merge postsRead).1.rules ∧
      (∀ key, (postsRead.merge postsOwned).1.rule? key =
        (postsOwned.merge postsRead).1.rule? key) ∧
      ¬ ((postsOwned.merge postsRead).2 = .ok () ∧
        (postsRead.merge (postsOwned.merge postsRead).1).2 = .ok ()) := by
  have read : Runs (.empty none) _ postsRead := .step (.extend _) .nil
  have owned : Runs (.empty none) _ postsOwned := .step (.extend _) .nil
  obtain ⟨_, swapped, found, grouped, _⟩ := batches_merges_exact read owned postsRead
  have merged : (postsRead.merge postsOwned).2 = .ok () := rfl
  refine ⟨merged, swapped.mp merged, by decide, found merged, ?_⟩
  intro both
  have again := (grouped.mpr both).2
  cases again

end RuleSet
end RowSecurity

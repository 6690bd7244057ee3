import RowSecurity.Policy.Error

-- Attempts that may fail, one after another.
namespace RowSecurity

variable {first : Except ε α} {next : α → Except ε β}

theorem bind_ok : (first >>= next) = .ok result ↔
    ∃ value, first = .ok value ∧ next value = .ok result := by
  cases first <;> simp [bind, Except.bind]

theorem bind_error : (first >>= next) = .error error ↔
    first = .error error ∨ ∃ value, first = .ok value ∧ next value = .error error := by
  cases first <;> simp [bind, Except.bind]

theorem outcome_ok {call : σ × Except ε Unit} :
    outcome call = .ok last ↔ call = (last, .ok ()) := by
  obtain ⟨state, answer⟩ := call
  cases answer <;> simp [outcome, Except.map]

theorem outcome_error {call : σ × Except ε Unit} :
    outcome call = .error error ↔ call.2 = .error error := by
  obtain ⟨state, answer⟩ := call
  cases answer <;> simp [outcome, Except.map]

-- An accepted call leaves any state, and a refused one the state that was there.
inductive Settles (state : σ) : σ × Except ε Unit → Prop where
  | accepted (next : σ) : Settles state (next, .ok ())
  | refused (error : ε) : Settles state (state, .error error)

namespace Settles

variable {call : σ × Except ε Unit} (settles : Settles state call)
include settles

theorem unchanged (refused : call.2 = .error error) : call.1 = state := by
  cases settles with
  | accepted next => cases refused
  | refused other => rfl

theorem keeps {motive : σ → Prop} (start : motive state)
    (accepted : ∀ next, call = (next, .ok ()) → motive next) : motive call.1 := by
  cases settles with
  | accepted next => exact accepted next rfl
  | refused error => exact start

end Settles

theorem foldlM_next {step : σ → α → Except ε σ} {item : α} {rest : List α} :
    (item :: rest).foldlM step state = .ok last ↔
      ∃ middle, step state item = .ok middle ∧ rest.foldlM step middle = .ok last := by
  rw [List.foldlM_cons, bind_ok]

theorem foldlM_keeps {motive : σ → Prop} {step : σ → α → Except ε σ}
    (keeps : ∀ state item next, motive state → step state item = .ok next → motive next)
    (items : List α) (start : motive state) (done : items.foldlM step state = .ok last) :
    motive last := by
  induction items generalizing state with
  | nil => cases done; exact start
  | cons item rest ih =>
      obtain ⟨middle, stepped, others⟩ := foldlM_next.mp done
      exact ih (keeps _ _ _ start stepped) others

theorem foldlM_concat {step : σ → α → Except ε σ} {items : List α} {item : α} :
    (items ++ [item]).foldlM step state = .ok last ↔
      ∃ middle, items.foldlM step state = .ok middle ∧ step middle item = .ok last := by
  rw [List.foldlM_append, bind_ok]
  simp

theorem foldlM_agrees {step other : σ → α → Except ε σ} {items : List α}
    (agrees : ∀ state item next, step state item = .ok next → other state item = .ok next)
    (done : items.foldlM step state = .ok last) : items.foldlM other state = .ok last := by
  induction items generalizing state with
  | nil => exact done
  | cons item rest ih =>
      obtain ⟨middle, stepped, others⟩ := foldlM_next.mp done
      exact foldlM_next.mpr ⟨middle, agrees _ _ _ stepped, ih others⟩

-- Steps of two kinds that can change places one by one can do so list by list.
section Swap

variable {step : σ → α → Except ε σ} {other : σ → β → Except ε σ}
  (swap : ∀ state item middle later last, step state item = .ok middle →
    other middle later = .ok last → ∃ first, other state later = .ok first ∧
      step first item = .ok last)
include swap

theorem foldlM_swap_one {items : List α} (done : items.foldlM step state = .ok middle)
    (stepped : other middle later = .ok last) :
    ∃ first, other state later = .ok first ∧ items.foldlM step first = .ok last := by
  induction items generalizing state with
  | nil => cases done; exact ⟨last, stepped, rfl⟩
  | cons item rest ih =>
      obtain ⟨next, here, others⟩ := foldlM_next.mp done
      obtain ⟨beyond, earlier, after⟩ := ih others
      obtain ⟨first, moved, again⟩ := swap _ _ _ _ _ here earlier
      exact ⟨first, moved, foldlM_next.mpr ⟨beyond, again, after⟩⟩

theorem foldlM_swap {items : List α} {laters : List β}
    (done : items.foldlM step state = .ok middle)
    (stepped : laters.foldlM other middle = .ok last) :
    ∃ first, laters.foldlM other state = .ok first ∧ items.foldlM step first = .ok last := by
  induction laters generalizing state middle with
  | nil => cases stepped; exact ⟨state, rfl, done⟩
  | cons later rest ih =>
      obtain ⟨next, here, others⟩ := foldlM_next.mp stepped
      obtain ⟨first, moved, again⟩ := foldlM_swap_one swap done here
      obtain ⟨beyond, earlier, after⟩ := ih again others
      exact ⟨beyond, foldlM_next.mpr ⟨first, moved, earlier⟩, after⟩

end Swap

theorem foldlM_error {step : σ → α → Except ε σ} {items : List α} :
    items.foldlM step state = .error error ↔
      ∃ done item rest middle, items = done ++ item :: rest ∧
        done.foldlM step state = .ok middle ∧ step middle item = .error error := by
  induction items generalizing state with
  | nil => simp [pure, Except.pure]
  | cons head tail ih =>
      rw [List.foldlM_cons, bind_error]
      constructor
      · rintro (refused | ⟨next, stepped, later⟩)
        · exact ⟨[], head, tail, state, rfl, rfl, refused⟩
        · obtain ⟨done, item, rest, middle, rfl, reached, refused⟩ := ih.mp later
          exact ⟨head :: done, item, rest, middle, rfl,
            foldlM_next.mpr ⟨next, stepped, reached⟩, refused⟩
      · rintro ⟨done, item, rest, middle, equal, reached, refused⟩
        cases done with
        | nil => cases equal; cases reached; exact .inl refused
        | cons first done =>
            cases equal
            obtain ⟨next, stepped, others⟩ := foldlM_next.mp reached
            exact .inr ⟨next, stepped, ih.mpr ⟨done, item, rest, middle, rfl, others, refused⟩⟩

theorem ofSchema_ok {attempt : Except SchemaError α} :
    PolicyError.ofSchema attempt = .ok value ↔ attempt = .ok value := by
  cases attempt <;> simp [PolicyError.ofSchema]

theorem ofSchema_error {attempt : Except SchemaError α} :
    PolicyError.ofSchema attempt = .error error ↔
      ∃ cause, attempt = .error cause ∧ error = .schema cause := by
  cases attempt <;> simp [PolicyError.ofSchema, eq_comm]

end RowSecurity

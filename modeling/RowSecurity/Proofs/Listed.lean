import Mathlib.Data.List.Nodup

-- Lists with entries under distinct keys, and texts that are told apart when they are joined.
namespace RowSecurity

theorem find?_keyed {key : α → κ} {test : α → Bool} {items : List α} {item : α}
    (distinct : (items.map key).Nodup) (member : item ∈ items) (passes : test item = true)
    (only : ∀ other, test other = true → key other = key item) :
    items.find? test = some item := by
  cases found : items.find? test with
  | none => exact absurd passes (List.find?_eq_none.mp found item member)
  | some other =>
      have same := only other (List.find?_some found)
      rw [List.inj_on_of_nodup_map distinct (List.mem_of_find?_eq_some found) member same]

theorem find?_key [BEq κ] [LawfulBEq κ] {key : α → κ} {items : List α} {item : α} {sought : κ}
    (distinct : (items.map key).Nodup) :
    items.find? (key · == sought) = some item ↔ item ∈ items ∧ key item = sought := by
  constructor
  · intro found
    have same := List.find?_some found
    exact ⟨List.mem_of_find?_eq_some found, by simpa using same⟩
  · rintro ⟨member, rfl⟩
    exact find?_keyed distinct member (by simp) fun other same => by simpa using same

section Cut

variable [BEq α] [LawfulBEq α] {mark : α} {front other rest more : List α}

theorem cut_here (absent : mark ∉ front) :
    (front ++ mark :: rest).takeWhile (· != mark) = front ∧
      (front ++ mark :: rest).dropWhile (· != mark) = mark :: rest := by
  have passed : ∀ item ∈ front, (item != mark) = true := by
    intro item inside
    rw [bne_iff_ne]
    rintro rfl
    exact absent inside
  rw [List.takeWhile_append_of_pos passed, List.dropWhile_append_of_pos passed]
  simp

theorem cut_unique (one : mark ∉ front) (two : mark ∉ other)
    (same : front ++ mark :: rest = other ++ mark :: more) : front = other ∧ rest = more := by
  have fronts : front = other := by
    rw [← (cut_here one).1, same, (cut_here two).1]
  subst fronts
  exact ⟨rfl, List.cons_inj_right mark |>.mp (List.append_cancel_left same)⟩

end Cut

-- A text that tells where it ends, and which of these items it is the text of.
def Alone (text : α → List Char) (among : α → Prop) (item : α) : Prop :=
  ∀ other, among other → ∀ rest tail, text item ++ rest = text other ++ tail →
    item = other ∧ rest = tail

theorem intercalate_more (between : List Char) (text : α → List Char) (first : α)
    (items : List α) : between.intercalate ((first :: items).map text) =
      text first ++ items.flatMap fun next => between ++ text next := by
  induction items generalizing first with
  | nil => simp
  | cons second rest ih =>
      rw [List.map_cons, List.map_cons, List.intercalate_cons_cons, ← List.map_cons, ih second,
        List.flatMap_cons, List.append_assoc, List.append_assoc]

variable {text : α → List Char} {among : α → Prop} {items others : List α} {close : Char}
  {between rest tail : List Char} (apart : ∀ more after, between ++ more ≠ close :: after)
  (alone : ∀ item ∈ items, Alone text among item) (known : ∀ other ∈ others, among other)
include apart alone known

theorem more_unique (same : (items.flatMap fun next => between ++ text next) ++ close :: rest =
      (others.flatMap fun next => between ++ text next) ++ close :: tail) :
    items = others ∧ rest = tail := by
  induction items generalizing others with
  | nil =>
      cases others with
      | nil => exact ⟨rfl, (List.cons.inj same).2⟩
      | cons other others =>
          simp only [List.flatMap_cons, List.append_assoc] at same
          exact absurd same.symm (apart _ _)
  | cons item items ih =>
      simp only [List.flatMap_cons, List.append_assoc] at same
      cases others with
      | nil => exact absurd same (apart _ _)
      | cons other others =>
          simp only [List.flatMap_cons, List.append_assoc] at same
          obtain ⟨aloneHere, aloneLater⟩ := List.forall_mem_cons.mp alone
          obtain ⟨knownHere, knownLater⟩ := List.forall_mem_cons.mp known
          obtain ⟨equal, later⟩ := aloneHere other knownHere _ _ (List.append_cancel_left same)
          obtain ⟨equals, ends⟩ := ih aloneLater knownLater later
          rw [equal, equals]
          exact ⟨rfl, ends⟩

theorem listed_unique (own : ∀ item ∈ items, among item)
    (opens : ∀ item, among item → ∀ more after, text item ++ more ≠ close :: after)
    (same : between.intercalate (items.map text) ++ close :: rest =
      between.intercalate (others.map text) ++ close :: tail) :
    items = others ∧ rest = tail := by
  cases items with
  | nil =>
      cases others with
      | nil => exact ⟨rfl, (List.cons.inj same).2⟩
      | cons other others =>
          rw [intercalate_more, List.append_assoc] at same
          exact absurd same.symm (opens other (known other List.mem_cons_self) _ _)
  | cons item items =>
      rw [intercalate_more, List.append_assoc] at same
      cases others with
      | nil => exact absurd same (opens item (own item List.mem_cons_self) _ _)
      | cons other others =>
          rw [intercalate_more, List.append_assoc] at same
          obtain ⟨aloneHere, aloneLater⟩ := List.forall_mem_cons.mp alone
          obtain ⟨knownHere, knownLater⟩ := List.forall_mem_cons.mp known
          obtain ⟨equal, later⟩ := aloneHere other knownHere _ _ same
          obtain ⟨equals, ends⟩ := more_unique apart aloneLater knownLater later
          rw [equal, equals]
          exact ⟨rfl, ends⟩

end RowSecurity

namespace RowSecurity.Text

def digitValue (c : Char) : Nat := c.toNat - '0'.toNat

def digitsValue (digits : List Char) : Nat :=
  digits.foldl (fun value c => 10 * value + digitValue c) 0

def digitRun? (text : List Char) : Option (List Char × List Char) :=
  match text.takeWhile Char.isDigit with
  | [] => none
  | digits => some (digits, text.dropWhile Char.isDigit)

-- Every range of characters with the Unicode property White_Space, bounds included.
def blankRanges : List (Nat × Nat) :=
  [(0x09, 0x0D), (0x20, 0x20), (0x85, 0x85), (0xA0, 0xA0), (0x1680, 0x1680), (0x2000, 0x200A),
   (0x2028, 0x2029), (0x202F, 0x202F), (0x205F, 0x205F), (0x3000, 0x3000)]

def isBlank (c : Char) : Bool :=
  blankRanges.any fun range => range.1 ≤ c.toNat && c.toNat ≤ range.2

def trimChars (text : List Char) : List Char :=
  ((text.dropWhile isBlank).reverse.dropWhile isBlank).reverse

def braced (text : String) : String := "\x7b" ++ text ++ "\x7d"

def trim (text : String) : String :=
  String.ofList (trimChars text.toList)

def isBlankText (text : String) : Bool :=
  text.toList.all isBlank

-- Lower case of the ASCII letters. It decides every word of this library as full
-- Unicode case folding would: the only other character whose lower case is an
-- ASCII letter is the Kelvin sign, for k, and no word here has a k in it.
def fold (text : String) : String :=
  String.ofList (text.toList.map Char.toLower)

def isNameStart (c : Char) : Bool := c.isAlpha || c == '_'

def isNameChar (c : Char) : Bool := c.isAlphanum || c == '_' || c == '-'

def isName (text : String) : Bool :=
  match text.toList with
  | [] => false
  | c :: rest => isNameStart c && rest.all isNameChar

theorem isName_iff (text : String) :
    isName text = true ↔ ∃ c rest, text.toList = c :: rest ∧ isNameStart c = true ∧
      ∀ x ∈ rest, isNameChar x = true := by
  unfold isName
  cases chars : text.toList with
  | nil => simp
  | cons c rest =>
      simp only [Bool.and_eq_true, List.all_eq_true, List.cons.injEq]
      exact ⟨fun good => ⟨c, rest, ⟨rfl, rfl⟩, good⟩, fun ⟨_, _, ⟨rfl, rfl⟩, good⟩ => good⟩

def Named (text : String) : Prop :=
  ∃ first rest, text.toList = first :: rest ∧
    (('A' ≤ first ∧ first ≤ 'Z') ∨ ('a' ≤ first ∧ first ≤ 'z') ∨ first = '_') ∧
    ∀ c ∈ rest, ('A' ≤ c ∧ c ≤ 'Z') ∨ ('a' ≤ c ∧ c ≤ 'z') ∨ ('0' ≤ c ∧ c ≤ '9') ∨
      c = '_' ∨ c = '-'

theorem isUpper_range (c : Char) : c.isUpper = true ↔ 'A' ≤ c ∧ c ≤ 'Z' := decide_eq_true_iff

theorem isLower_range (c : Char) : c.isLower = true ↔ 'a' ≤ c ∧ c ≤ 'z' :=
  Bool.and_eq_true_iff.trans (and_congr decide_eq_true_iff decide_eq_true_iff)

theorem isDigit_range (c : Char) : c.isDigit = true ↔ '0' ≤ c ∧ c ≤ '9' :=
  Bool.and_eq_true_iff.trans (and_congr decide_eq_true_iff decide_eq_true_iff)

theorem isNameStart_range (c : Char) : isNameStart c = true ↔
    ('A' ≤ c ∧ c ≤ 'Z') ∨ ('a' ≤ c ∧ c ≤ 'z') ∨ c = '_' := by
  have letter : c.isAlpha = true ↔ c.isUpper = true ∨ c.isLower = true := Bool.or_eq_true_iff
  rw [isNameStart, Bool.or_eq_true, letter, isUpper_range, isLower_range, beq_iff_eq, or_assoc]

theorem isNameChar_range (c : Char) : isNameChar c = true ↔
    ('A' ≤ c ∧ c ≤ 'Z') ∨ ('a' ≤ c ∧ c ≤ 'z') ∨ ('0' ≤ c ∧ c ≤ '9') ∨ c = '_' ∨ c = '-' := by
  have sign : c.isAlphanum = true ↔ (c.isUpper = true ∨ c.isLower = true) ∨ c.isDigit = true :=
    Bool.or_eq_true_iff.trans (or_congr Bool.or_eq_true_iff Iff.rfl)
  rw [isNameChar, Bool.or_eq_true, Bool.or_eq_true, sign, isUpper_range, isLower_range,
    isDigit_range, beq_iff_eq, beq_iff_eq, or_assoc, or_assoc, or_assoc]

theorem isName_named (text : String) : isName text = true ↔ Named text := by
  rw [isName_iff]
  unfold Named
  simp only [isNameStart_range, isNameChar_range]

end RowSecurity.Text

/-!
# Texts

Pieces of a text between separators, which joined give the text back, and numerals in columns of fixed width: a
numeral that is wider than its column is written in full.
-/

namespace CompactAssembly.Text

/-- The pieces between separators; there is always one more than there are separators. -/
def split (separator : Char) : List Char → List (List Char)
  | [] => [[]]
  | c :: cs =>
    if c = separator then [] :: split separator cs
    else match split separator cs with
      | piece :: pieces => (c :: piece) :: pieces
      | [] => [[c]]

def join (separator : Char) : List (List Char) → List Char
  | [] => []
  | [piece] => piece
  | piece :: pieces => piece ++ separator :: join separator pieces

theorem split_ne_nil (separator : Char) (cs : List Char) : split separator cs ≠ [] := by
  cases cs with
  | nil => simp [split]
  | cons c cs =>
    rw [split]
    split
    · simp
    · split <;> simp

section
variable {separator c : Char} {cs first : List Char} {rest : List (List Char)}

theorem exists_split (separator : Char) (cs : List Char) : ∃ first rest, split separator cs = first :: rest :=
  List.exists_cons_of_ne_nil (split_ne_nil separator cs)

theorem split_separator (separator : Char) (cs : List Char) :
    split separator (separator :: cs) = [] :: split separator cs := by
  rw [split, if_pos rfl]

theorem split_cons (hc : c ≠ separator) (h : split separator cs = first :: rest) :
    split separator (c :: cs) = (c :: first) :: rest := by
  rw [split, if_neg hc, h]

theorem split_of_not_mem (h : separator ∉ cs) : split separator cs = [cs] := by
  induction cs with
  | nil => rfl
  | cons c cs ih =>
    rw [List.mem_cons, not_or] at h
    rw [split_cons (Ne.symm h.1) (ih h.2)]

theorem split_append (separator : Char) (cs ds : List Char) :
    split separator (cs ++ separator :: ds) = split separator cs ++ split separator ds := by
  induction cs with
  | nil => rw [List.nil_append, split_separator, split, List.singleton_append]
  | cons c cs ih =>
    rw [List.cons_append]
    by_cases hc : c = separator
    · rw [hc, split_separator, split_separator, ih, List.cons_append]
    · obtain ⟨first, rest, h⟩ := exists_split separator cs
      rw [h, List.cons_append] at ih
      rw [split_cons hc h, split_cons hc ih, List.cons_append]

end

def replaceChar (old new : Char) (text : String) : String :=
  String.ofList (text.toList.map fun c => if c = old then new else c)

theorem toString_text (text : String) : toString text = text := rfl

def isAsciiAlphanumeric (c : Char) : Bool :=
  ('A' ≤ c && c ≤ 'Z') || ('a' ≤ c && c ≤ 'z') || ('0' ≤ c && c ≤ '9')

def isAsciiDigit (c : Char) : Bool := '0' ≤ c && c ≤ '9'

/-- Fills a text on the left up to a width. -/
def padLeft (width : Nat) (fill : Char) (digits : List Char) : List Char :=
  List.replicate (width - digits.length) fill ++ digits

/-- Lower-case hexadecimal numeral of at least `width` digits. -/
def hex (width n : Nat) : String :=
  String.ofList (padLeft width '0' (Nat.toDigits 16 n))

def hexUpper (width n : Nat) : String :=
  String.ofList (padLeft width '0' ((Nat.toDigits 16 n).map Char.toUpper))

def flushRight (width n : Nat) : String :=
  String.ofList (padLeft width ' ' (Nat.toDigits 10 n))

theorem length_padLeft (width : Nat) (fill : Char) (digits : List Char) :
    (padLeft width fill digits).length = max width digits.length := by
  simp only [padLeft, List.length_append, List.length_replicate]
  omega

end CompactAssembly.Text

import CompactAssembly.Signature.Basic
import Mathlib.Algebra.Group.Nat.Defs
import Mathlib.Logic.Function.Basic

/-!
# Texts of signatures

The text of an element starts with a word that tells its outermost layer, and what follows the word starts with a
break. So the text is found again in front of any rest that starts with a break (`Element.text_append_inj`), and
as a list of parameters sets each between breaks, the text of a signature tells all of it but whether the method is
called on an object (`Signature.text_method_eq_iff`).
-/

namespace CompactAssembly

namespace Text

/-- The number that a hexadecimal digit stands for. -/
def hexDigit (c : Char) : Nat := if c.isDigit then c.toNat - 48 else c.toNat - 87

/-- The number that hexadecimal digits stand for. -/
def readHex (digits : List Char) : Nat := digits.foldl (fun n c => 16 * n + hexDigit c) 0

theorem readHex_append_singleton (digits : List Char) (c : Char) :
    readHex (digits ++ [c]) = 16 * readHex digits + hexDigit c := by
  rw [readHex, List.foldl_append]
  rfl

theorem readHex_toDigits (n : Nat) : readHex (Nat.toDigits 16 n) = n := by
  have hdigit : ∀ k < 16, hexDigit (Nat.digitChar k) = k := by decide
  induction n using Nat.strongRecOn with
  | ind n ih =>
    rw [Nat.toDigits_eq_if (by decide)]
    split
    · next hn =>
      have hone : readHex [Nat.digitChar n] = 16 * 0 + hexDigit (Nat.digitChar n) := rfl
      rw [hone, hdigit n hn, Nat.mul_zero, Nat.zero_add]
    · rw [readHex_append_singleton, ih (n / 16) (by omega), hdigit _ (Nat.mod_lt _ (by decide)), Nat.div_add_mod]

theorem readHex_padLeft (width : Nat) (digits : List Char) : readHex (padLeft width '0' digits) = readHex digits := by
  have hzeros : ∀ k, (List.replicate k '0').foldl (fun n c => 16 * n + hexDigit c) 0 = 0 := by
    intro k
    induction k with
    | zero => rfl
    | succ k ih => rw [List.replicate_succ, List.foldl_cons]; exact ih
  rw [readHex, padLeft, List.foldl_append, hzeros, readHex]

theorem readHex_hex (width n : Nat) : readHex (hex width n).toList = n := by
  rw [hex, String.toList_ofList, readHex_padLeft, readHex_toDigits]

theorem length_hex {width n : Nat} (hwidth : 0 < width) (h : n < 16 ^ width) : (hex width n).toList.length = width := by
  rw [hex, String.toList_ofList, length_padLeft]
  exact Nat.max_eq_left ((Nat.length_toDigits_le_iff (by decide) hwidth).2 h)

theorem hex_append_inj {width m n : Nat} {rest rest' : List Char} (hwidth : 0 < width) (hm : m < 16 ^ width)
    (hn : n < 16 ^ width) (h : (hex width m).toList ++ rest = (hex width n).toList ++ rest') :
    m = n ∧ rest = rest' := by
  obtain ⟨hdigits, hrest⟩ := List.append_inj h ((length_hex hwidth hm).trans (length_hex hwidth hn).symm)
  have hvalue := congrArg readHex hdigits
  rw [readHex_hex, readHex_hex] at hvalue
  exact ⟨hvalue, hrest⟩

/-- Whether a character stands between the words of a signature. -/
def isBreak (c : Char) : Bool := [' ', ',', '('].contains c

def Breaks (rest : List Char) : Prop := ∀ c ∈ rest.head?, isBreak c = true

theorem breaks_nil : Breaks [] := nofun

theorem breaks_cons {c : Char} (rest : List Char) (h : isBreak c = true) : Breaks (c :: rest) := by
  rintro _ ⟨⟩
  exact h

theorem word_append_inj {word word' rest rest' : List Char} (hword : ∀ c ∈ word, isBreak c = false)
    (hword' : ∀ c ∈ word', isBreak c = false) (hrest : Breaks rest) (hrest' : Breaks rest')
    (h : word ++ rest = word' ++ rest') : word = word' ∧ rest = rest' := by
  induction word generalizing word' with
  | nil =>
    cases word' with
    | nil => exact ⟨rfl, h⟩
    | cons c word' =>
      obtain rfl : rest = c :: (word' ++ rest') := h
      cases (hword' c List.mem_cons_self).symm.trans (hrest c rfl)
  | cons c word ih =>
    cases word' with
    | nil =>
      obtain rfl : c :: (word ++ rest) = rest' := h
      cases (hword c List.mem_cons_self).symm.trans (hrest' c rfl)
    | cons c' word' =>
      obtain ⟨rfl, htail⟩ := List.cons.inj h
      obtain ⟨rfl, rfl⟩ := ih (fun c hc => hword c (List.mem_cons_of_mem _ hc))
        (fun c hc => hword' c (List.mem_cons_of_mem _ hc)) htail
      exact ⟨rfl, rfl⟩

end Text

namespace Element

/-- First word of the text of an element with this outermost layer. -/
def word (type? : Option DataType) : String := (type?.map DataType.tag).getD "[UNKNOWN:"

def details : Element → List Char
  | primitive _ => []
  | byRef inner | szArray inner => ' ' :: inner.text.toList
  | valueType token | classType token => ' ' :: '[' :: (token.hex.toList ++ [']'])
  | unknown code => ' ' :: ((Text.hex 8 code.toNat).toList ++ [']'])

theorem toList_text (e : Element) : e.text.toList = (word e.dataType?).toList ++ e.details := by
  cases e with
  | primitive p => exact (List.append_nil _).symm
  | byRef inner | szArray inner | valueType token | classType token | unknown code =>
    simp [text, word, details, dataType?]

theorem word_injective : Function.Injective word := by
  have hall : ∀ t ∈ DataType.all, word (some t) ≠ word none ∧
      ∀ t' ∈ DataType.all, word (some t) = word (some t') → t = t' := by
    decide +kernel
  have hmem : ∀ t, t ∈ DataType.all := by
    intro t
    cases t with
    | primitive p => simp [DataType.all, Primitive.mem_all]
    | _ => decide
  intro t t' h
  cases t with
  | none =>
    cases t' with
    | none => rfl
    | some t' => exact absurd h.symm (hall t' (hmem t')).1
  | some t =>
    cases t' with
    | none => exact absurd h (hall t (hmem t)).1
    | some t' => exact congrArg some ((hall t (hmem t)).2 t' (hmem t') h)

theorem isBreak_of_mem_word {type? : Option DataType} {c : Char} (h : c ∈ (word type?).toList) :
    Text.isBreak c = false := by
  have hall : ((word type?).toList.all fun c => !Text.isBreak c) = true := by
    rcases type? with _ | p | _ | _ | _ | _
    · rfl
    · cases p <;> rfl
    all_goals rfl
  have hc := List.all_eq_true.1 hall c h
  rwa [Bool.not_eq_true'] at hc

theorem breaks_details (e : Element) {rest : List Char} (h : Text.Breaks rest) : Text.Breaks (e.details ++ rest) := by
  cases e with
  | primitive p => exact h
  | _ => exact Text.breaks_cons _ rfl

/-- The text of an element is found again in front of a break. -/
theorem text_append_inj {e e' : Element} {rest rest' : List Char} (hrest : Text.Breaks rest)
    (hrest' : Text.Breaks rest') (h : e.text.toList ++ rest = e'.text.toList ++ rest') : e = e' ∧ rest = rest' := by
  have hsplit : ∀ {e e' : Element}, e.text.toList ++ rest = e'.text.toList ++ rest' →
      e.dataType? = e'.dataType? ∧ e.details ++ rest = e'.details ++ rest' := by
    intro e e' h
    rw [toList_text, toList_text, List.append_assoc, List.append_assoc] at h
    obtain ⟨hword, hdetails⟩ := Text.word_append_inj (fun _ => isBreak_of_mem_word) (fun _ => isBreak_of_mem_word)
      (breaks_details e hrest) (breaks_details e' hrest') h
    exact ⟨word_injective (String.toList_inj.1 hword), hdetails⟩
  have hnumber : ∀ {m n : Nat}, m < 16 ^ 8 → n < 16 ^ 8 → ((Text.hex 8 m).toList ++ [']']) ++ rest =
      ((Text.hex 8 n).toList ++ [']']) ++ rest' → m = n ∧ rest = rest' := by
    intro m n hm hn h
    rw [List.append_assoc, List.append_assoc] at h
    obtain ⟨hvalue, hclose⟩ := Text.hex_append_inj (by decide) hm hn h
    exact ⟨hvalue, (List.cons.inj hclose).2⟩
  have htoken : ∀ {token token' : Token}, (token.hex.toList ++ [']']) ++ rest = (token'.hex.toList ++ [']']) ++ rest' →
      token = token' ∧ rest = rest' := by
    intro token token' h
    obtain ⟨hvalue, hrest⟩ := hnumber token.value.toNat_lt token'.value.toNat_lt h
    exact ⟨congrArg Token.mk (UInt32.toNat_inj.1 hvalue), hrest⟩
  -- the first word gives the outermost layer, so only equal layers are left, and their details are taken apart
  induction e generalizing e' with
  | primitive p =>
    obtain ⟨htype, hdetails⟩ := hsplit h
    cases e' <;> cases htype
    exact ⟨rfl, hdetails⟩
  | byRef inner ih =>
    obtain ⟨htype, hdetails⟩ := hsplit h
    cases e' <;> cases htype
    obtain ⟨rfl, rfl⟩ := ih (List.cons.inj hdetails).2
    exact ⟨rfl, rfl⟩
  | szArray inner ih =>
    obtain ⟨htype, hdetails⟩ := hsplit h
    cases e' <;> cases htype
    obtain ⟨rfl, rfl⟩ := ih (List.cons.inj hdetails).2
    exact ⟨rfl, rfl⟩
  | valueType token =>
    obtain ⟨htype, hdetails⟩ := hsplit h
    cases e' <;> cases htype
    obtain ⟨rfl, rfl⟩ := htoken (List.cons.inj (List.cons.inj hdetails).2).2
    exact ⟨rfl, rfl⟩
  | classType token =>
    obtain ⟨htype, hdetails⟩ := hsplit h
    cases e' <;> cases htype
    obtain ⟨rfl, rfl⟩ := htoken (List.cons.inj (List.cons.inj hdetails).2).2
    exact ⟨rfl, rfl⟩
  | unknown code =>
    obtain ⟨htype, hdetails⟩ := hsplit h
    cases e' <;> cases htype
    next code' =>
    have hsmall : ∀ code : UInt8, code.toNat < 16 ^ 8 := fun code => Nat.lt_trans code.toNat_lt (by decide)
    obtain ⟨hvalue, rfl⟩ := hnumber (hsmall code) (hsmall code') (List.cons.inj hdetails).2
    exact ⟨congrArg unknown (UInt8.toNat_inj.1 hvalue), rfl⟩

theorem text_injective : Function.Injective text := by
  intro e e' h
  exact (text_append_inj Text.breaks_nil Text.breaks_nil (congrArg (String.toList · ++ []) h)).1

end Element

namespace Signature

/-- What stands between one parameter and the next, or behind the last. -/
def afterParam : List Element → List Char
  | [] => [' ', ')']
  | param :: rest => ',' :: ((paramsText (param :: rest)).toList ++ [')'])

theorem toList_paramsText_cons (param : Element) (rest : List Element) :
    (paramsText (param :: rest)).toList ++ [')'] = ' ' :: (param.text.toList ++ afterParam rest) := by
  cases rest <;> simp [paramsText, afterParam]

theorem breaks_afterParam (rest : List Element) : Text.Breaks (afterParam rest) := by
  cases rest <;> exact Text.breaks_cons _ rfl

theorem paramsText_inj {params params' : List Element}
    (h : (paramsText params).toList ++ [')'] = (paramsText params').toList ++ [')']) : params = params' := by
  induction params generalizing params' with
  | nil =>
    cases params' with
    | nil => rfl
    | cons param' rest' =>
      rw [toList_paramsText_cons] at h
      simp [paramsText] at h
  | cons param rest ih =>
    cases params' with
    | nil =>
      rw [toList_paramsText_cons] at h
      simp [paramsText] at h
    | cons param' rest' =>
      rw [toList_paramsText_cons, toList_paramsText_cons] at h
      obtain ⟨rfl, hafter⟩ :=
        Element.text_append_inj (breaks_afterParam rest) (breaks_afterParam rest') (List.cons.inj h).2
      -- a comma tells that there is another parameter
      cases rest with
      | nil =>
        cases rest' with
        | nil => rfl
        | cons next' rest' => cases hafter
      | cons next rest =>
        cases rest' with
        | nil => cases hafter
        | cons next' rest' => rw [ih (List.cons.inj hafter).2]

theorem toList_text_method (m : MethodSignature) : (method m).text.toList =
    "METHOD ".toList ++ (m.result.text.toList ++ '(' :: ((paramsText m.params).toList ++ [')'])) := by
  simp [text]

theorem text_method_eq_iff {m m' : MethodSignature} :
    (method m).text = (method m').text ↔ m.result = m'.result ∧ m.params = m'.params := by
  constructor
  · intro h
    have hletters := congrArg String.toList h
    rw [toList_text_method, toList_text_method, List.append_cancel_left_eq] at hletters
    obtain ⟨hresult, hparams⟩ := Element.text_append_inj (Text.breaks_cons _ rfl) (Text.breaks_cons _ rfl) hletters
    exact ⟨hresult, paramsText_inj (List.cons.inj hparams).2⟩
  · rintro ⟨hresult, hparams⟩
    rw [text, text, hresult, hparams]

theorem text_field_eq_iff {type type' : Element} : (field type).text = (field type').text ↔ type = type' := by
  constructor
  · intro h
    exact Element.text_injective ((String.append_right_inj _).1 h)
  · rintro rfl
    rfl

theorem text_method_ne_text_field (m : MethodSignature) (type : Element) : (method m).text ≠ (field type).text := by
  intro h
  have hfirst := congrArg (fun text => text.toList.head?) h
  simp [text] at hfirst

/-- A signature of a method or a field, which has a text of its own. -/
def IsMember : Signature → Prop
  | method _ | field _ => True
  | localVariables | other _ => False

end Signature

/-- Elements have different texts. Two signatures of methods or fields have the same text exactly if both are fields
of one type or both methods of one result and one list of parameters, whether called on an object or not. -/
theorem signature_texts_unambiguous :
    Function.Injective Element.text ∧
    ∀ s t : Signature, s.IsMember → t.IsMember → (s.text = t.text ↔
      (∃ type, s = .field type ∧ t = .field type) ∨
      ∃ m m', s = .method m ∧ t = .method m' ∧ m.result = m'.result ∧ m.params = m'.params) := by
  refine ⟨Element.text_injective, fun s t hs ht => ?_⟩
  cases s with
  | localVariables | other _ => exact hs.elim
  | method m =>
    cases t with
    | localVariables | other _ => exact ht.elim
    | method m' => simp [Signature.text_method_eq_iff]
    | field type' => simp [Signature.text_method_ne_text_field m type']
  | field type =>
    cases t with
    | localVariables | other _ => exact ht.elim
    | method m' => simp [(Signature.text_method_ne_text_field m' type).symm]
    | field type' => simp [Signature.text_field_eq_iff, eq_comm]

/-- Two methods with one text, of which one is called on an object. -/
theorem signature_texts_unambiguous_object :
    (Signature.method ⟨true, .primitive .boolean, [.byRef (.primitive .i4), .classType ⟨0x01000000⟩]⟩).text =
      "METHOD BOOLEAN( BYREF I4, CLASS [01000000] )" ∧
    (Signature.method ⟨false, .primitive .boolean, [.byRef (.primitive .i4), .classType ⟨0x01000000⟩]⟩).text =
      "METHOD BOOLEAN( BYREF I4, CLASS [01000000] )" ∧
    (Signature.method ⟨true, .primitive .boolean, [.byRef (.primitive .i4), .classType ⟨0x01000000⟩]⟩).text ≠
      (Signature.method ⟨true, .primitive .boolean, [.byRef (.primitive .i4)]⟩).text := by
  have hmember : ∀ m, (Signature.method m).IsMember := fun _ => trivial
  have htexts := fun m m' =>
    signature_texts_unambiguous.2 (.method m) (.method m') (hmember m) (hmember m')
  have htext : (Signature.method ⟨true, .primitive .boolean, [.byRef (.primitive .i4), .classType ⟨0x01000000⟩]⟩).text =
      "METHOD BOOLEAN( BYREF I4, CLASS [01000000] )" := by decide +kernel
  refine ⟨htext, ?_, fun h => ?_⟩
  · rw [← htext, htexts]
    exact .inr ⟨_, _, rfl, rfl, rfl, rfl⟩
  · rcases (htexts _ _).1 h with ⟨_, h, -⟩ | ⟨m, m', hm, hm', -, hparams⟩
    · cases h
    · cases hm
      cases hm'
      cases hparams

end CompactAssembly

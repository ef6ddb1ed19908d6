import CompactAssembly.Proofs.Distinct
import CompactAssembly.Proofs.Rendering
import Mathlib.Data.List.Induction

/-!
# What the identifier of a method tells

Between elements stand two underscores, behind a wrapper one, and none inside of anything else. Read from the
end, a text therefore gives back what it was put together from: the wrappers of each element and the text
inside them (`Image.methodIdentifier_inj`).
-/

namespace CompactAssembly

section Intercalation
variable {α : Type} {separator : α}

theorem intercalate_concat {xs : List (List α)} (h : xs ≠ []) (separator x : List α) :
    separator.intercalate (xs ++ [x]) = separator.intercalate xs ++ separator ++ x := by
  induction xs with
  | nil => exact absurd rfl h
  | cons y xs ih =>
    cases xs with
    | nil =>
      rw [List.singleton_append, List.intercalate_cons_cons, List.intercalate_singleton, List.intercalate_singleton]
    | cons z xs =>
      rw [List.cons_append, List.cons_append, List.intercalate_cons_cons, ← List.cons_append,
        ih (List.cons_ne_nil z xs), List.intercalate_cons_cons]
      simp only [List.append_assoc]

theorem mem_intercalate_iff {a : α} {separator : List α} {xs : List (List α)} (ha : a ∉ separator) :
    a ∈ separator.intercalate xs ↔ ∃ x ∈ xs, a ∈ x := by
  induction xs with
  | nil => simp
  | cons x xs ih =>
    cases xs with
    | nil => simp
    | cons y xs =>
      rw [List.intercalate_cons_cons, List.mem_append, List.mem_append, ih]
      simp [ha]

/-- A separator in front of letters that are none is found again. -/
theorem append_inj_of_not_mem {front front' letters letters' : List α}
    (hfront : front = [] ∨ ∃ before, front = before ++ [separator])
    (hfront' : front' = [] ∨ ∃ before, front' = before ++ [separator])
    (hletters : separator ∉ letters) (hletters' : separator ∉ letters')
    (h : front ++ letters = front' ++ letters') : front = front' ∧ letters = letters' := by
  have hnil : ∀ {front between letters letters' : List α}, separator ∉ letters →
      (front ++ between = [] ∨ ∃ before, front ++ between = before ++ [separator]) →
      letters = between ++ letters' → between = [] := by
    rintro front between letters letters' hmem hend rfl
    by_contra hne
    obtain ⟨init, last, rfl⟩ := List.eq_nil_or_concat between |>.resolve_left hne
    rcases hend with hend | ⟨before, hend⟩
    · simp at hend
    · rw [List.concat_eq_append, ← List.append_assoc] at hend
      obtain rfl : last = separator := (List.append_singleton_inj.1 hend).2
      simp at hmem
  rcases List.append_eq_append_iff.1 h with ⟨between, rfl, heq⟩ | ⟨between, rfl, heq⟩
  · obtain rfl := hnil hletters hfront' heq
    exact ⟨(List.append_nil front).symm, heq⟩
  · obtain rfl := hnil hletters' hfront heq
    exact ⟨List.append_nil front', heq.symm⟩

/-- The last piece of what is laid together, and what stands in front of it. -/
theorem exists_intercalate_concat (separator : α) (xs : List (List α × α)) (x : List α × α) :
    ∃ front, [separator].intercalate ((xs ++ [x]).map fun x => x.1 ++ [x.2]) = (front ++ x.1) ++ [x.2] ∧
      ((xs = [] ∧ front = []) ∨
        xs ≠ [] ∧ front = [separator].intercalate (xs.map fun x => x.1 ++ [x.2]) ++ [separator]) := by
  cases xs with
  | nil => exact ⟨[], by rw [List.nil_append, List.map_singleton, List.intercalate_singleton]; rfl, .inl ⟨rfl, rfl⟩⟩
  | cons y xs =>
    refine ⟨_, ?_, .inr ⟨List.cons_ne_nil y xs, rfl⟩⟩
    have hne : (y :: xs).map (fun x => x.1 ++ [x.2]) ≠ [] := List.cons_ne_nil _ _
    rw [List.map_append, List.map_singleton, intercalate_concat hne, List.append_assoc, List.append_assoc]
    simp only [List.append_assoc]

/-- Pieces between separators, of which each ends in any letter and holds no separator else, can be told from
what is laid together from them. -/
theorem intercalate_inj {xs ys : List (List α × α)} (hxs : ∀ x ∈ xs, separator ∉ x.1)
    (hys : ∀ y ∈ ys, separator ∉ y.1)
    (h : [separator].intercalate (xs.map fun x => x.1 ++ [x.2]) =
      [separator].intercalate (ys.map fun y => y.1 ++ [y.2])) : xs = ys := by
  -- from the end, where the letter of the last piece stands and no separator before the next piece
  induction xs using List.reverseRecOn generalizing ys with
  | nil =>
    rcases List.eq_nil_or_concat ys with rfl | ⟨ys, y, rfl⟩
    · rfl
    · obtain ⟨front, heq, -⟩ := exists_intercalate_concat separator ys y
      rw [List.concat_eq_append, heq] at h
      simp at h
  | append_singleton xs x ih =>
    obtain ⟨front, heq, hfront⟩ := exists_intercalate_concat separator xs x
    rcases List.eq_nil_or_concat ys with rfl | ⟨ys, y, rfl⟩
    · rw [heq] at h
      simp at h
    · rw [List.concat_eq_append] at h hys ⊢
      obtain ⟨front', heq', hfront'⟩ := exists_intercalate_concat separator ys y
      rw [heq, heq'] at h
      obtain ⟨h, hlast⟩ := List.append_singleton_inj.1 h
      have hends : ∀ {xs : List (List α × α)} {front : List α}, (xs = [] ∧ front = [] ∨ xs ≠ [] ∧
          front = [separator].intercalate (xs.map fun x => x.1 ++ [x.2]) ++ [separator]) →
          front = [] ∨ ∃ before, front = before ++ [separator] :=
        fun h => h.imp And.right fun h => ⟨_, h.2⟩
      obtain ⟨rfl, hletters⟩ := append_inj_of_not_mem (hends hfront) (hends hfront')
        (hxs x (List.mem_append_right _ (List.mem_singleton_self x)))
        (hys y (List.mem_append_right _ (List.mem_singleton_self y))) h
      obtain rfl : x = y := Prod.ext hletters hlast
      rcases hfront with ⟨rfl, rfl⟩ | ⟨hne, rfl⟩
      · rcases hfront' with ⟨rfl, -⟩ | ⟨-, hfront'⟩
        · rfl
        · simp at hfront'
      · rcases hfront' with ⟨-, hfront'⟩ | ⟨-, hfront'⟩
        · simp at hfront'
        · obtain rfl := ih (fun x hx => hxs x (List.mem_append_left _ hx))
            (fun y hy => hys y (List.mem_append_left _ hy))
            (List.append_singleton_inj.1 hfront').1
          rfl

end Intercalation

theorem Text.split_intercalate (separator : Char) {texts : List (List Char)} (h : texts ≠ []) :
    split separator ([separator, separator].intercalate texts) =
      [[]].intercalate (texts.map (split separator)) := by
  induction texts with
  | nil => exact absurd rfl h
  | cons text texts ih =>
    cases texts with
    | nil => rw [List.intercalate_singleton, List.map_singleton, List.intercalate_singleton]
    | cons text' texts =>
      have ih := ih (List.cons_ne_nil text' texts)
      rw [List.map_cons] at ih
      rw [List.intercalate_cons_cons, List.map_cons, List.map_cons, List.intercalate_cons_cons, ← ih, List.append_assoc,
        List.cons_append, split_append, List.cons_append, split_separator, List.nil_append, List.append_assoc]
      rfl

def Element.layers : Element → List DataType
  | .byRef inner => .byRef :: inner.layers
  | .szArray inner => .szArray :: inner.layers
  | _ => []

theorem DataType.tag_injective : Function.Injective DataType.tag := by
  have hmem : ∀ type : DataType, type ∈ all := by
    rintro (p | _ | _ | _ | _)
    · exact List.mem_append_left _ (List.mem_map_of_mem p.mem_all)
    all_goals decide
  have hall : ∀ type ∈ all, ∀ type' ∈ all, type.tag = type'.tag → type = type' := by decide +kernel
  exact fun type type' => hall type (hmem type) type' (hmem type')

/-- The tags of wrappers as underscores cut them out. -/
def Element.tags (e : Element) : List (List Char) := e.layers.map fun type => type.tag.toList

theorem Element.tags_inj {e e' : Element} (h : e.tags = e'.tags) : e.layers = e'.layers :=
  List.map_injective_iff.2 (fun _ _ h => DataType.tag_injective (String.toList_inj.1 h)) h

theorem Element.nil_not_mem_tags (e : Element) : [] ∉ e.tags := by
  induction e with
  | byRef inner ih => exact List.not_mem_cons_of_ne_of_not_mem (by decide) ih
  | szArray inner ih => exact List.not_mem_cons_of_ne_of_not_mem (by decide) ih
  | _ => exact List.not_mem_nil

namespace Image
variable {image : Image}

/-- Elements below the same wrappers with the same text inside them. -/
def SpelledAlike (image : Image) (e e' : Element) : Prop :=
  e.layers = e'.layers ∧ image.elementIdentifier e.innermost = image.elementIdentifier e'.innermost

theorem not_mem_withoutUnderscores (text : String) : '_' ∉ (withoutUnderscores text).toList := by
  rw [withoutUnderscores, String.toList_ofList, List.mem_filter]
  exact fun h => absurd h.2 (by decide)

/-- Underscores cut the text of an element into the tags of its wrappers and the text inside them. -/
theorem split_elementIdentifier {e : Element} {text : String} (h : image.elementIdentifier e = .ok text) :
    ∃ leaf, image.elementIdentifier e.innermost = .ok leaf ∧
      Text.split '_' text.toList = e.tags ++ [leaf.toList] := by
  have hplain : ∀ {text : String}, '_' ∉ text.toList → Text.split '_' text.toList = [text.toList] :=
    fun h => Text.split_of_not_mem h
  have hwrapped : ∀ (type : DataType) {inner : String}, '_' ∉ type.tag.toList →
      Text.split '_' (type.tag ++ "_" ++ inner).toList = type.tag.toList :: Text.split '_' inner.toList := by
    intro type inner htag
    rw [String.toList_append, String.toList_append, List.append_assoc]
    refine (Text.split_append '_' _ _).trans ?_
    rw [Text.split_of_not_mem htag]
    rfl
  induction e generalizing text with
  | primitive p =>
    cases h
    exact ⟨p.tag, rfl, hplain (by cases p <;> decide)⟩
  | byRef inner ih =>
    obtain ⟨rest, hrest, h⟩ := bind_eq_ok.1 h
    cases h
    obtain ⟨leaf, hleaf, hsplit⟩ := ih hrest
    refine ⟨leaf, hleaf, ?_⟩
    rw [hwrapped .byRef (by decide), hsplit]
    rfl
  | szArray inner ih =>
    obtain ⟨rest, hrest, h⟩ := bind_eq_ok.1 h
    cases h
    obtain ⟨leaf, hleaf, hsplit⟩ := ih hrest
    refine ⟨leaf, hleaf, ?_⟩
    rw [hwrapped .szArray (by decide), hsplit]
    rfl
  | valueType token =>
    have hleaf := h
    obtain ⟨name, -, h⟩ := bind_eq_ok.1 h
    cases h
    exact ⟨_, hleaf, hplain (not_mem_withoutUnderscores name)⟩
  | classType token =>
    have hleaf := h
    obtain ⟨name, -, h⟩ := bind_eq_ok.1 h
    cases h
    exact ⟨_, hleaf, hplain (not_mem_withoutUnderscores name)⟩
  | unknown code =>
    cases h
    exact ⟨"", rfl, rfl⟩

theorem SpelledAlike.elementIdentifier_eq {e e' : Element} (h : image.SpelledAlike e e') :
    image.elementIdentifier e = image.elementIdentifier e' := by
  obtain ⟨hlayers, hinner⟩ := h
  induction e generalizing e' with
  | byRef inner ih =>
    cases e' with
    | byRef inner' =>
      rw [elementIdentifier, elementIdentifier, ih (List.cons.inj hlayers).2 hinner]
    | _ => cases hlayers
  | szArray inner ih =>
    cases e' with
    | szArray inner' =>
      rw [elementIdentifier, elementIdentifier, ih (List.cons.inj hlayers).2 hinner]
    | _ => cases hlayers
  | _ =>
    cases e' with
    | byRef | szArray => cases hlayers
    | _ => exact hinner

/-- The texts of elements, cut by underscores: for each element the tags of its wrappers and the text inside. -/
theorem exists_pieces {elements : List Element} {texts : List String}
    (h : List.Forall₂ (fun e text => image.elementIdentifier e = .ok text) elements texts) :
    ∃ pieces : List (List (List Char) × List Char), (∀ x ∈ pieces, [] ∉ x.1) ∧
      List.Forall₂ (fun e x => x.1 = e.tags ∧ ∃ leaf, image.elementIdentifier e.innermost = .ok leaf ∧
        x.2 = leaf.toList) elements pieces ∧
      texts.map (fun text => Text.split '_' text.toList) = pieces.map fun x => x.1 ++ [x.2] := by
  induction h with
  | nil => exact ⟨[], nofun, .nil, rfl⟩
  | @cons e text elements texts he _ ih =>
    obtain ⟨pieces, hmem, hall, hmap⟩ := ih
    obtain ⟨leaf, hleaf, hsplit⟩ := split_elementIdentifier he
    refine ⟨(e.tags, leaf.toList) :: pieces, ?_, .cons ⟨rfl, leaf, hleaf, rfl⟩ hall, ?_⟩
    · exact List.forall_mem_cons.2 ⟨e.nil_not_mem_tags, hmem⟩
    · rw [List.map_cons, List.map_cons, hmap, hsplit]

theorem spelledAlike_of_pieces {elements elements' : List Element} {pieces : List (List (List Char) × List Char)}
    (h : List.Forall₂ (fun e x => x.1 = e.tags ∧ ∃ leaf, image.elementIdentifier e.innermost = .ok leaf ∧
      x.2 = leaf.toList) elements pieces)
    (h' : List.Forall₂ (fun e x => x.1 = e.tags ∧ ∃ leaf, image.elementIdentifier e.innermost = .ok leaf ∧
      x.2 = leaf.toList) elements' pieces) : List.Forall₂ image.SpelledAlike elements elements' := by
  induction h generalizing elements' with
  | nil =>
    cases h'
    exact .nil
  | cons hpiece _ ih =>
    obtain ⟨htags, leaf, hleaf, htext⟩ := hpiece
    cases h' with
    | cons hpiece' h' =>
      obtain ⟨htags', leaf', hleaf', htext'⟩ := hpiece'
      refine .cons ⟨Element.tags_inj (htags.symm.trans htags'), ?_⟩ (ih h')
      rw [hleaf, hleaf', String.toList_inj.1 (htext.symm.trans htext')]

theorem texts_eq_of_spelledAlike {elements elements' : List Element} {texts texts' : List String}
    (halike : List.Forall₂ image.SpelledAlike elements elements')
    (h : List.Forall₂ (fun e text => image.elementIdentifier e = .ok text) elements texts)
    (h' : List.Forall₂ (fun e text => image.elementIdentifier e = .ok text) elements' texts') : texts = texts' := by
  induction halike generalizing texts texts' with
  | nil =>
    cases h
    cases h'
    rfl
  | cons he _ ih =>
    cases h with
    | cons htext h =>
      cases h' with
      | cons htext' h' =>
        cases htext.symm.trans (he.elementIdentifier_eq.trans htext')
        rw [ih h h']

/-- Texts of elements that are laid together alike are texts of elements spelled alike. -/
theorem intercalate_texts_inj {elements elements' : List Element} {texts texts' : List String}
    (h : List.Forall₂ (fun e text => image.elementIdentifier e = .ok text) elements texts)
    (h' : List.Forall₂ (fun e text => image.elementIdentifier e = .ok text) elements' texts')
    (htexts : texts ≠ []) (htexts' : texts' ≠ []) :
    "__".intercalate texts = "__".intercalate texts' ↔ List.Forall₂ image.SpelledAlike elements elements' := by
  constructor
  · intro heq
    obtain ⟨pieces, hmem, hall, hmap⟩ := exists_pieces h
    obtain ⟨pieces', hmem', hall', hmap'⟩ := exists_pieces h'
    have hcut : ∀ {texts : List String}, texts ≠ [] → Text.split '_' ("__".intercalate texts).toList =
        [[]].intercalate (texts.map fun text => Text.split '_' text.toList) := by
      intro texts htexts
      rw [String.toList_intercalate]
      refine (Text.split_intercalate '_' (by simpa using htexts)).trans ?_
      rw [List.map_map]
      rfl
    have hpieces := congrArg (fun text : String => Text.split '_' text.toList) heq
    simp only [hcut htexts, hcut htexts', hmap, hmap'] at hpieces
    obtain rfl := intercalate_inj hmem hmem' hpieces
    exact spelledAlike_of_pieces hall hall'
  · intro halike
    rw [texts_eq_of_spelledAlike halike h h']

theorem methodIdentifier_ok {policy : NamingPolicy} {m : MethodDef} {s : MethodSignature} {base : String}
    (h : image.methodIdentifier policy m s = .ok base) :
    ∃ name texts, image.text m.name = .ok name ∧
      List.Forall₂ (fun e text => image.elementIdentifier e = .ok text) (s.result :: s.params) texts ∧
      base =
        Naming.escape policy name ++ "___" ++ (if m.isStatic then "STATIC__" else "") ++ "__".intercalate texts := by
  obtain ⟨name, hname, h⟩ := bind_eq_ok.1 h
  obtain ⟨texts, htexts, h⟩ := bind_eq_ok.1 h
  cases h
  exact ⟨name, texts, hname, mapM_eq_ok.1 htexts, rfl⟩

/-- Methods of one name, both static or neither, share an identifier exactly if their elements are spelled
alike. -/
theorem methodIdentifier_inj {policy : NamingPolicy} {m m' : MethodDef} {s s' : MethodSignature}
    {base base' : String} (hname : image.text m.name = image.text m'.name) (hstatic : m.isStatic = m'.isStatic)
    (h : image.methodIdentifier policy m s = .ok base) (h' : image.methodIdentifier policy m' s' = .ok base') :
    base = base' ↔ List.Forall₂ image.SpelledAlike (s.result :: s.params) (s'.result :: s'.params) := by
  obtain ⟨name, texts, htext, htexts, rfl⟩ := methodIdentifier_ok h
  obtain ⟨name', texts', htext', htexts', rfl⟩ := methodIdentifier_ok h'
  cases htext.symm.trans (hname.trans htext')
  have hne : ∀ {e : Element} {elements : List Element} {texts : List String},
      List.Forall₂ (fun e text => image.elementIdentifier e = .ok text) (e :: elements) texts → texts ≠ [] := by
    rintro e elements texts h rfl
    cases h
  rw [hstatic, String.append_right_inj, intercalate_texts_inj htexts htexts' (hne htexts) (hne htexts')]

end Image

end CompactAssembly

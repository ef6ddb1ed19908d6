import CompactAssembly.Proofs.Enclosing
import CompactAssembly.Proofs.Natives

/-!
# Letters of identifiers

An identifier of a native method holds letters, digits and underscores where it holds the name of its method, marks,
tags, tokens and numbers. Names of classes are taken over as they are, apart from dots and underscores. A character of
another kind therefore stands in an identifier exactly if it is not a dot and stands in one of the names that a class
of the signature is made of (`Image.letters_of_identifier`).
-/

namespace CompactAssembly

namespace Naming
variable {c : Char}

/-- Only ASCII letters, digits and underscores, of which names in native code are made. -/
def Spellable (text : String) : Prop := ∀ c ∈ text.toList, isIdentifierChar c = true

instance (text : String) : Decidable (Spellable text) :=
  decidable_of_iff (text.toList.all isIdentifierChar = true) List.all_eq_true

theorem Spellable.not_mem {text : String} (h : Spellable text) (hc : isIdentifierChar c = false) :
    c ∉ text.toList := fun hmem => by simp [h c hmem] at hc

theorem Spellable.append {text text' : String} (h : Spellable text) (h' : Spellable text') :
    Spellable (text ++ text') := by
  intro c hc
  rw [String.toList_append, List.mem_append] at hc
  exact hc.elim (h c) (h' c)

theorem spellable_escape (name : String) : Spellable (escape .interop name) := by
  intro c hc
  rw [escape, String.toList_ofList] at hc
  obtain ⟨d, -, rfl⟩ := List.mem_map.1 hc
  by_cases hd : isIdentifierChar d = true
  · rw [if_pos hd, hd]
  · rw [if_neg hd]
    rfl

theorem spellable_tag (type : DataType) : Spellable type.tag := by
  rcases type with p | _ | _ | _ | _
  · cases p <;> decide
  all_goals decide

theorem isIdentifierChar_of_isDigit (hc : c.isDigit = true) : isIdentifierChar c = true := by
  have hrange : '0' ≤ c ∧ c ≤ '9' := by simpa [Char.isDigit, Char.le_def] using hc
  simp [isIdentifierChar, Text.isAsciiAlphanumeric, hrange]

theorem spellable_digits (n : Nat) : Spellable (toString n) := by
  intro c hc
  rw [Nat.toString_eq_ofList_toDigits, String.toList_ofList] at hc
  exact isIdentifierChar_of_isDigit (Nat.isDigit_of_mem_toDigits (by decide) (by decide) hc)

theorem spellable_hexUpper (width n : Nat) : Spellable (Text.hexUpper width n) := by
  have hdigit : ∀ digit < 16, isIdentifierChar digit.digitChar.toUpper = true := by decide
  have hdigits : ∀ n, ∀ c ∈ Nat.toDigits 16 n, isIdentifierChar c.toUpper = true := by
    intro n
    induction n using Nat.strong_induction_on with
    | _ n ih =>
      intro c hc
      rw [Nat.toDigits_eq_if (by decide)] at hc
      split at hc
      · rename_i hn
        rw [List.mem_singleton.1 hc]
        exact hdigit n hn
      · rcases List.mem_append.1 hc with hc | hc
        · exact ih (n / 16) (by omega) c hc
        · rw [List.mem_singleton.1 hc]
          exact hdigit (n % 16) (by omega)
  intro c hc
  rw [Text.hexUpper, String.toList_ofList, Text.padLeft, List.mem_append] at hc
  rcases hc with hc | hc
  · rw [List.eq_of_mem_replicate hc]
    rfl
  · obtain ⟨d, hd, rfl⟩ := List.mem_map.1 hc
    exact hdigits n d hd

theorem mem_replaceChar (hc : isIdentifierChar c = false) {text : String} :
    c ∈ (Text.replaceChar '.' '_' text).toList ↔ c ≠ '.' ∧ c ∈ text.toList := by
  rw [Text.replaceChar, String.toList_ofList, List.mem_map]
  constructor
  · rintro ⟨d, hd, heq⟩
    by_cases hdot : d = '.'
    · rw [if_pos hdot] at heq
      subst heq
      cases hc
    · rw [if_neg hdot] at heq
      subst heq
      exact ⟨hdot, hd⟩
  · rintro ⟨hdot, hmem⟩
    exact ⟨c, hmem, if_neg hdot⟩

theorem mem_dotted (hdot : c ≠ '.') {texts : List String} :
    c ∈ (dotted texts).toList ↔ ∃ text ∈ texts, c ∈ text.toList := by
  rw [dotted, String.toList_intercalate, mem_intercalate_iff (by simpa using hdot)]
  constructor
  · rintro ⟨_, hmem, hc⟩
    obtain ⟨text, htext, rfl⟩ := List.mem_map.1 hmem
    exact ⟨text, (List.mem_filter.1 htext).1, hc⟩
  · rintro ⟨text, htext, hc⟩
    have hne : text ≠ "" := by
      rintro rfl
      cases hc
    exact ⟨_, List.mem_map_of_mem (List.mem_filter.2 ⟨htext, by simp [hne]⟩), hc⟩

theorem mem_numbered (hc : isIdentifierChar c = false) {base : String} {n : Nat} :
    c ∈ (Namer.numbered base n).toList ↔ c ∈ base.toList := by
  unfold Namer.numbered
  split
  · rfl
  · have hmark : Spellable "_" := by decide
    rw [String.toList_append, String.toList_append, List.mem_append, List.mem_append,
      or_iff_left ((spellable_digits n).not_mem hc), or_iff_left (hmark.not_mem hc)]

end Naming

namespace Image
variable {image : Image} {c : Char} {i : Nat} {chain : List TypeRef} {assembly? : Option AssemblyRef}

/-- A reference and all references around it, and the assembly that the outermost lies in if there is one. -/
inductive Scoped (image : Image) : Nat → List TypeRef → Option AssemblyRef → Prop
  | free {i : Nat} {r : TypeRef} (hr : image.get TypeRef i = .ok r) (hscope : r.resolutionScope? = none) :
    Scoped image i [r] none
  | held {i : Nat} {r : TypeRef} {index : UInt16} {assembly : AssemblyRef} (hr : image.get TypeRef i = .ok r)
    (hscope : r.resolutionScope? = some (.own index)) (hassembly : image.get AssemblyRef index.toNat = .ok assembly) :
    Scoped image i [r] (some assembly)
  | within {i : Nat} {r : TypeRef} {scope : UInt16} {chain : List TypeRef} {assembly? : Option AssemblyRef}
    (hr : image.get TypeRef i = .ok r) (hscope : r.resolutionScope? = some (.typeRef scope))
    (hchain : Scoped image scope.toNat chain assembly?) : Scoped image i (r :: chain) assembly?

theorem Scoped.unique {chain' : List TypeRef} {assembly?' : Option AssemblyRef} (h : image.Scoped i chain assembly?)
    (h' : image.Scoped i chain' assembly?') : chain = chain' ∧ assembly? = assembly?' := by
  induction h generalizing chain' with
  | free hr hscope =>
    cases h' with
    | free hr' =>
      cases hr.symm.trans hr'
      exact ⟨rfl, rfl⟩
    | held hr' hscope' | within hr' hscope' =>
      cases hr.symm.trans hr'
      cases hscope.symm.trans hscope'
  | held hr hscope hassembly =>
    cases h' with
    | held hr' hscope' hassembly' =>
      cases hr.symm.trans hr'
      cases hscope.symm.trans hscope'
      cases hassembly.symm.trans hassembly'
      exact ⟨rfl, rfl⟩
    | free hr' hscope' | within hr' hscope' =>
      cases hr.symm.trans hr'
      cases hscope.symm.trans hscope'
  | within hr hscope hchain ih =>
    cases h' with
    | within hr' hscope' hchain' =>
      cases hr.symm.trans hr'
      cases hscope.symm.trans hscope'
      obtain ⟨rfl, rfl⟩ := ih hchain'
      exact ⟨rfl, rfl⟩
    | free hr' hscope' | held hr' hscope' =>
      cases hr.symm.trans hr'
      cases hscope.symm.trans hscope'

theorem exists_scoped_of_resolutionFrom {room : Nat} {inner out : List TypeRef}
    (h : image.resolutionFrom room i inner = .ok (assembly?, out)) :
    ∃ chain, image.Scoped i chain assembly? ∧ out = chain.reverse ++ inner := by
  induction room generalizing i inner with
  | zero =>
    rw [resolutionFrom] at h
    obtain ⟨r, hr, h⟩ := bind_eq_ok.1 h
    rcases hscope : r.resolutionScope? with _ | ⟨index⟩ | ⟨scope⟩ <;> rw [hscope] at h
    · cases h
      exact ⟨[r], .free hr hscope, rfl⟩
    · obtain ⟨assembly, hassembly, h⟩ := bind_eq_ok.1 h
      cases h
      exact ⟨[r], .held hr hscope hassembly, rfl⟩
    · cases h
  | succ room ih =>
    rw [resolutionFrom] at h
    obtain ⟨r, hr, h⟩ := bind_eq_ok.1 h
    rcases hscope : r.resolutionScope? with _ | ⟨index⟩ | ⟨scope⟩ <;> rw [hscope] at h
    · cases h
      exact ⟨[r], .free hr hscope, rfl⟩
    · obtain ⟨assembly, hassembly, h⟩ := bind_eq_ok.1 h
      cases h
      exact ⟨[r], .held hr hscope hassembly, rfl⟩
    · obtain ⟨chain, hchain, rfl⟩ := ih h
      exact ⟨r :: chain, .within hr hscope hchain, by simp⟩

/-- A text that the name of a class is made of: namespace or name of the class or of one around it, or the name of
the assembly that a reference leads to. -/
inductive Mentions (image : Image) (token : Token) (text : String) : Prop
  | defined {chain : List TypeDef} {t : TypeDef} (htable : token.table? = some .typeDef)
    (hchain : image.Enclosed token.index chain) (ht : t ∈ chain)
    (htext : image.text t.nameSpace = .ok text ∨ image.text t.name = .ok text)
  | referenced {chain : List TypeRef} {assembly? : Option AssemblyRef} {r : TypeRef}
    (htable : token.table? = some .typeRef) (hchain : image.Scoped token.index chain assembly?) (hr : r ∈ chain)
    (htext : image.text r.nameSpace = .ok text ∨ image.text r.name = .ok text)
  | assembly {chain : List TypeRef} {assembly : AssemblyRef} (htable : token.table? = some .typeRef)
    (hchain : image.Scoped token.index chain (some assembly)) (htext : image.text assembly.name = .ok text)

theorem typeRefTexts_ok_iff {r : TypeRef} {texts : String × String} :
    image.typeRefTexts r = .ok texts ↔ image.text r.nameSpace = .ok texts.1 ∧ image.text r.name = .ok texts.2 :=
  pair_ok_iff

theorem mem_texts_iff {α : Type} {nameSpace name : α → Except Fault String} {xs : List α}
    {texts : List (String × String)} {text : String}
    (h : List.Forall₂ (fun x t => nameSpace x = .ok t.1 ∧ name x = .ok t.2) xs texts) :
    text ∈ (texts.flatMap fun (nameSpace, name) => [nameSpace, name]) ↔
      ∃ x ∈ xs, nameSpace x = .ok text ∨ name x = .ok text := by
  induction h with
  | nil => simp
  | cons hx _ ih =>
    rw [List.flatMap_cons, List.mem_append, ih]
    simp [hx, eq_comm]

theorem className_mentions {token : Token} {style : NameStyle} {name : String} (htable : token.table? = some .typeDef)
    (h : image.className style token.index = .ok name) :
    ∃ texts, name = style.finish (Naming.dotted texts) ∧ ∀ text, text ∈ texts ↔ image.Mentions token text := by
  rw [className_eq, bind_eq_ok] at h
  obtain ⟨texts, htexts, h⟩ := h
  cases h
  obtain ⟨chain, hchain, -, hall⟩ := nestedTexts_ok_iff.1 htexts
  have hall := List.rel_reverse hall
  rw [List.reverse_reverse] at hall
  refine ⟨_, rfl, fun text => ?_⟩
  rw [mem_texts_iff hall]
  constructor
  · rintro ⟨t, ht, htext⟩
    exact .defined htable hchain (List.mem_reverse.1 ht) htext
  · rintro (⟨htable', hchain', ht, htext⟩ | ⟨htable', -⟩ | ⟨htable', -⟩)
    · cases hchain.unique hchain'
      exact ⟨_, List.mem_reverse.2 ht, htext⟩
    all_goals cases htable.symm.trans htable'

theorem typeRefClassName_mentions {token : Token} {style : NameStyle} {name : String}
    (htable : token.table? = some .typeRef) (h : image.typeRefClassName style token.index = .ok name) :
    ∃ texts, name = style.finish (Naming.dotted texts) ∧ ∀ text, text ∈ texts ↔ image.Mentions token text := by
  obtain ⟨⟨assembly?, out⟩, hout, h⟩ := bind_eq_ok.1 h
  obtain ⟨chain, hchain, rfl⟩ := exists_scoped_of_resolutionFrom hout
  have hname : ∃ root texts, (∀ text, text ∈ root ↔ ∃ assembly ∈ assembly?, image.text assembly.name = .ok text) ∧
      (chain.reverse ++ []).mapM image.typeRefTexts = .ok texts ∧
      name = style.finish (Naming.dotted (root ++ texts.flatMap fun (nameSpace, name) => [nameSpace, name])) := by
    cases assembly? with
    | none =>
      obtain ⟨root, ⟨⟩, h⟩ := bind_eq_ok.1 h
      obtain ⟨texts, htexts, ⟨⟩⟩ := bind_eq_ok.1 h
      exact ⟨[], texts, by simp, htexts, rfl⟩
    | some assembly =>
      obtain ⟨assemblyName, hassembly, h⟩ := bind_eq_ok.1 h
      obtain ⟨root, ⟨⟩, h⟩ := bind_eq_ok.1 h
      obtain ⟨texts, htexts, ⟨⟩⟩ := bind_eq_ok.1 h
      exact ⟨[assemblyName], texts, by simp [hassembly, eq_comm], htexts, rfl⟩
  obtain ⟨root, texts, hroot, htexts, rfl⟩ := hname
  refine ⟨_, rfl, fun text => ?_⟩
  rw [List.mem_append, hroot, mem_texts_iff ((mapM_eq_ok.1 htexts).imp fun r t h => typeRefTexts_ok_iff.1 h)]
  constructor
  · rintro (⟨assembly, rfl, htext⟩ | ⟨r, hr, htext⟩)
    · exact .assembly htable hchain htext
    · exact .referenced htable hchain (by simpa using hr) htext
  · rintro (⟨htable', -⟩ | ⟨htable', hchain', hr, htext⟩ | ⟨htable', hchain', htext⟩)
    · cases htable.symm.trans htable'
    · obtain ⟨rfl, rfl⟩ := hchain.unique hchain'
      exact .inr ⟨_, by simpa using hr, htext⟩
    · obtain ⟨rfl, rfl⟩ := hchain.unique hchain'
      exact .inl ⟨_, rfl, htext⟩

theorem mem_tokenClass (hc : Naming.isIdentifierChar c = false) {token : Token} {name : String}
    (h : image.tokenClass token = .ok name) :
    c ∈ name.toList ↔ c ≠ '.' ∧ ∃ text, image.Mentions token text ∧ c ∈ text.toList := by
  -- types that are defined or referenced are named by texts, all other tokens by letters and digits
  have hmentioned : ∀ {texts : List String}, name = NameStyle.identifier.finish (Naming.dotted texts) →
      (∀ text, text ∈ texts ↔ image.Mentions token text) →
      (c ∈ name.toList ↔ c ≠ '.' ∧ ∃ text, image.Mentions token text ∧ c ∈ text.toList) := by
    rintro texts rfl htexts
    rw [NameStyle.finish, Naming.mem_replaceChar hc]
    refine and_congr_right fun hdot => ?_
    rw [Naming.mem_dotted hdot]
    simp only [htexts]
  have hspellable : Naming.Spellable name → token.table? ≠ some .typeDef → token.table? ≠ some .typeRef →
      (c ∈ name.toList ↔ c ≠ '.' ∧ ∃ text, image.Mentions token text ∧ c ∈ text.toList) := by
    intro hname hdef href
    refine iff_of_false (hname.not_mem hc) ?_
    rintro ⟨-, text, ⟨htable, -⟩ | ⟨htable, -⟩ | ⟨htable, -⟩, -⟩
    · exact hdef htable
    · exact href htable
    · exact href htable
  unfold tokenClass at h
  split at h
  · rename_i htable
    obtain ⟨texts, hname, htexts⟩ := className_mentions htable h
    exact hmentioned hname htexts
  · rename_i htable
    obtain ⟨texts, hname, htexts⟩ := typeRefClassName_mentions htable h
    exact hmentioned hname htexts
  · rename_i htable
    cases h
    have hmark : Naming.Spellable "_" := by decide
    exact hspellable (hmark.append (Naming.spellable_hexUpper _ _)) (by simp [htable]) (by simp [htable])
  · rename_i hdef href _
    cases h
    exact hspellable (by decide) hdef href

def MentionedIn (image : Image) (signature : MethodSignature) (text : String) : Prop :=
  ∃ e ∈ signature.result :: signature.params, ∃ token,
    (e.innermost = .classType token ∨ e.innermost = .valueType token) ∧ image.Mentions token text

theorem mem_withoutUnderscores (hc : Naming.isIdentifierChar c = false) (text : String) :
    c ∈ (withoutUnderscores text).toList ↔ c ∈ text.toList := by
  rw [withoutUnderscores, String.toList_ofList, List.mem_filter]
  refine and_iff_left ?_
  rw [bne_iff_ne]
  rintro rfl
  cases hc

theorem mem_elementIdentifier (hc : Naming.isIdentifierChar c = false) {e : Element} {text : String}
    (h : image.elementIdentifier e = .ok text) :
    c ∈ text.toList ↔ c ≠ '.' ∧ ∃ token, (e.innermost = .classType token ∨ e.innermost = .valueType token) ∧
      ∃ text, image.Mentions token text ∧ c ∈ text.toList := by
  have hwrapped : ∀ (type : DataType) {inner : String}, c ∈ (type.tag ++ "_" ++ inner).toList ↔ c ∈ inner.toList := by
    intro type inner
    have hmark : Naming.Spellable "_" := by decide
    rw [String.toList_append, List.mem_append, or_iff_right (((Naming.spellable_tag type).append hmark).not_mem hc)]
  have htoken : ∀ {token : Token} {name : String}, image.tokenClass token = .ok name →
      (c ∈ (withoutUnderscores name).toList ↔ c ≠ '.' ∧ ∃ text, image.Mentions token text ∧ c ∈ text.toList) := by
    intro token name hname
    rw [mem_withoutUnderscores hc, mem_tokenClass hc hname]
  induction e generalizing text with
  | primitive p =>
    cases h
    refine iff_of_false ((Naming.spellable_tag (.primitive p)).not_mem hc) ?_
    simp [Element.innermost]
  | byRef inner ih =>
    obtain ⟨rest, hrest, ⟨⟩⟩ := bind_eq_ok.1 h
    exact (hwrapped .byRef).trans (ih hrest)
  | szArray inner ih =>
    obtain ⟨rest, hrest, ⟨⟩⟩ := bind_eq_ok.1 h
    exact (hwrapped .szArray).trans (ih hrest)
  | valueType token =>
    obtain ⟨name, hname, ⟨⟩⟩ := bind_eq_ok.1 h
    rw [htoken hname]
    simp [Element.innermost]
  | classType token =>
    obtain ⟨name, hname, ⟨⟩⟩ := bind_eq_ok.1 h
    rw [htoken hname]
    simp [Element.innermost]
  | unknown code =>
    cases h
    simp [Element.innermost]

theorem mem_methodIdentifier (hc : Naming.isIdentifierChar c = false) {m : MethodDef} {s : MethodSignature}
    {base : String} (h : image.methodIdentifier .interop m s = .ok base) :
    c ∈ base.toList ↔ c ≠ '.' ∧ ∃ text, image.MentionedIn s text ∧ c ∈ text.toList := by
  obtain ⟨name, texts, -, htexts, rfl⟩ := methodIdentifier_ok h
  -- what stands in front of the elements and between them is spelled whatever the method is named
  have hfront : Naming.Spellable (Naming.escape .interop name ++ "___" ++ if m.isStatic then "STATIC__" else "") := by
    refine ((Naming.spellable_escape name).append (by decide)).append ?_
    split <;> decide
  have hbetween : c ∉ "__".toList := (show Naming.Spellable "__" by decide).not_mem hc
  rw [String.toList_append, List.mem_append, or_iff_right (hfront.not_mem hc), String.toList_intercalate,
    mem_intercalate_iff hbetween]
  constructor
  · rintro ⟨_, hmem, hletter⟩
    obtain ⟨text, htext, rfl⟩ := List.mem_map.1 hmem
    obtain ⟨j, hj, rfl⟩ := List.getElem_of_mem htext
    have hj' : j < (s.result :: s.params).length := htexts.length_eq ▸ hj
    obtain ⟨hdot, token, htoken, text, hmentions, hin⟩ := (mem_elementIdentifier hc (htexts.get hj' hj)).1 hletter
    exact ⟨hdot, text, ⟨_, List.getElem_mem hj', token, htoken, hmentions⟩, hin⟩
  · rintro ⟨hdot, text, ⟨e, he, token, htoken, hmentions⟩, hin⟩
    obtain ⟨j, hj, rfl⟩ := List.getElem_of_mem he
    have hj' : j < texts.length := htexts.length_eq ▸ hj
    exact ⟨_, List.mem_map_of_mem (List.getElem_mem hj'),
      (mem_elementIdentifier hc (htexts.get hj hj')).2 ⟨hdot, token, htoken, text, hmentions, hin⟩⟩

/-- A native identifier holds a character that is no letter, digit or underscore exactly if it is not a dot and stands
in a text that a class in the signature mentions. It holds none, whatever the name of the method holds, exactly if
all these texts hold none but dots. -/
theorem letters_of_identifier {plans : List TypePlan} {plan : TypePlan} {m : MethodDef} {native : NativeMethod}
    (hplans : image.plan .interop = .ok plans) (hplan : plan ∈ plans) (hnative : (m, native) ∈ plan.natives) :
    (∀ c, Naming.isIdentifierChar c = false → (c ∈ native.identifier.toList ↔
      c ≠ '.' ∧ ∃ text, image.MentionedIn native.signature text ∧ c ∈ text.toList)) ∧
    (Naming.Spellable native.identifier ↔
      ∀ text, image.MentionedIn native.signature text → Naming.Spellable (Text.replaceChar '.' '_' text)) := by
  obtain ⟨base, n, -, hbase, hidentifier⟩ := (nativeOf_of_plan hplans hplan hnative).identifier
  have hletters : ∀ c, Naming.isIdentifierChar c = false → (c ∈ native.identifier.toList ↔
      c ≠ '.' ∧ ∃ text, image.MentionedIn native.signature text ∧ c ∈ text.toList) := by
    intro c hc
    rw [hidentifier, Naming.mem_numbered hc, mem_methodIdentifier hc hbase]
  refine ⟨hletters, ?_⟩
  constructor
  · intro hidentifier text hmentioned c hmem
    by_contra hc
    rw [Bool.not_eq_true] at hc
    obtain ⟨hdot, hin⟩ := (Naming.mem_replaceChar hc).1 hmem
    exact hidentifier.not_mem hc ((hletters c hc).2 ⟨hdot, text, hmentioned, hin⟩)
  · intro hall c hmem
    by_contra hc
    rw [Bool.not_eq_true] at hc
    obtain ⟨hdot, text, hmentioned, hin⟩ := (hletters c hc).1 hmem
    exact (hall text hmentioned).not_mem hc ((Naming.mem_replaceChar hc).2 ⟨hdot, hin⟩)

end Image

namespace Draft

/-- The identifier of a method that is passed its own class, in whose name there is a backtick. -/
theorem class_name_spoils_identifier :
    Assembly.load .bare studioImage = .ok studio ∧ studio.plan .interop = .ok studioPlans ∧ bulbPlan ∈ studioPlans ∧
    ∃ native, (dimmer, native) ∈ bulbPlan.natives ∧ native.identifier = "Dim___I4__BYREF_I4__ABLampBulb\x601" ∧
      '\x60' ∈ native.identifier.toList ∧ ¬ Naming.Spellable native.identifier :=
  ⟨load_studio, plan_studio, by simp [studioPlans], _, List.mem_singleton_self _, rfl, by decide, by decide⟩

/-- The text with the other character is the name of that class; a setter that is passed a mode mentions no such. -/
theorem letters_of_identifier_studio :
    (∃ text, studio.MentionedIn dimming text ∧ '\x60' ∈ text.toList) ∧
    ∀ text, studio.MentionedIn setByMode text → Naming.Spellable (Text.replaceChar '.' '_' text) := by
  have hlamp : lampPlan ∈ studioPlans := by simp [studioPlans]
  have hbulb : bulbPlan ∈ studioPlans := by simp [studioPlans]
  have hdim : (dimmer, ⟨"Dim___I4__BYREF_I4__ABLampBulb\x601", dimming⟩) ∈ bulbPlan.natives := List.mem_singleton_self _
  have hset : (setter 4, ⟨"Set___STATIC__VOID__Mode", setByMode⟩) ∈ lampPlan.natives :=
    List.mem_cons_of_mem _ (List.mem_singleton_self _)
  obtain ⟨hletters, -⟩ := Image.letters_of_identifier plan_studio hbulb hdim
  obtain ⟨-, hspellable⟩ := Image.letters_of_identifier plan_studio hlamp hset
  obtain ⟨-, text, hmentioned, hin⟩ := (hletters '\x60' (by decide)).1 (by decide)
  exact ⟨⟨text, hmentioned, hin⟩, hspellable.1 (by decide)⟩

end Draft

end CompactAssembly

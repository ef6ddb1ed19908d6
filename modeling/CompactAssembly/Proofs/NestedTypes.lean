import CompactAssembly.Naming.TypeName
import CompactAssembly.Proofs.Traversal
import Mathlib.Logic.Relation

/-!
# Types around types

The chain of a type is the type and all types around it. All names of the type are made of the same texts, those of its
chain (`Image.nestedTexts`), which are there exactly if the chain ends within the limit and every name in it resolves
(`Image.nameable_iff`).
-/

namespace CompactAssembly

namespace Image
variable {image : Image} {i j : Nat} {chain inner : List TypeDef}

/-- A type, then types each of which encloses the one before. -/
inductive Nested (image : Image) : Nat → List TypeDef → Prop where
  | one {i : Nat} {t : TypeDef} : image.get TypeDef i = .ok t → Nested image i [t]
  | more {i : Nat} {t : TypeDef} {enclosing : UInt16} {chain : List TypeDef} : image.get TypeDef i = .ok t →
      t.enclosing? = some enclosing → Nested image enclosing.toNat chain → Nested image i (t :: chain)

section
variable {t : TypeDef} {room : Nat} {enclosing : UInt16} (ht : image.get TypeDef i = .ok t)
include ht

theorem enclosingFrom_outermost (he : t.enclosing? = none) : image.enclosingFrom room i inner = .ok (t :: inner) := by
  unfold enclosingFrom
  simp only [ht, he, bind, Except.bind]
  rfl

theorem enclosingFrom_zero (he : t.enclosing? = some enclosing) :
    image.enclosingFrom 0 i inner = .error (.nestingLimit enclosingLimit) := by
  unfold enclosingFrom
  simp only [ht, he, bind, Except.bind]
  rfl

theorem enclosingFrom_succ (he : t.enclosing? = some enclosing) :
    image.enclosingFrom (room + 1) i inner = image.enclosingFrom room enclosing.toNat (t :: inner) := by
  conv_lhs => unfold enclosingFrom
  simp only [ht, he, bind, Except.bind]

end

/-- A type and all types around it, of which the outermost lies in none. -/
def Enclosed (image : Image) (i : Nat) (chain : List TypeDef) : Prop :=
  image.Nested i chain ∧ ∀ t ∈ chain.getLast?, t.enclosing? = none

/-- The type at an index lies directly in what the other index names. -/
def LiesIn (image : Image) (i j : Nat) : Prop :=
  ∃ t enclosing, image.get TypeDef i = .ok t ∧ t.enclosing? = some enclosing ∧ enclosing.toNat = j

theorem Nested.getLast?_cons (h : image.Nested i chain) (t : TypeDef) : (t :: chain).getLast? = chain.getLast? := by
  cases h <;> exact List.getLast?_cons_cons

theorem enclosed_outermost {t : TypeDef} (ht : image.get TypeDef i = .ok t) (he : t.enclosing? = none) :
    image.Enclosed i [t] := ⟨.one ht, by simpa using he⟩

theorem Enclosed.more {t : TypeDef} {enclosing : UInt16} (h : image.Enclosed enclosing.toNat chain)
    (ht : image.get TypeDef i = .ok t) (he : t.enclosing? = some enclosing) : image.Enclosed i (t :: chain) := by
  obtain ⟨hchain, hlast⟩ := h
  exact ⟨.more ht he hchain, by rwa [hchain.getLast?_cons]⟩

theorem exists_of_enclosingFrom {room : Nat} {out : List TypeDef} (h : image.enclosingFrom room i inner = .ok out) :
    ∃ t, image.get TypeDef i = .ok t := by
  unfold enclosingFrom at h
  obtain ⟨t, ht, -⟩ := bind_eq_ok.1 h
  exact ⟨t, ht⟩

theorem enclosingFrom_ok_iff {room : Nat} {out : List TypeDef} : image.enclosingFrom room i inner = .ok out ↔
    ∃ chain, image.Enclosed i chain ∧ chain.length ≤ room + 1 ∧ out = chain.reverse ++ inner := by
  -- a search gives a chain by induction on its room, and a chain is found by induction on its links
  constructor
  · intro h
    induction room generalizing i inner with
    | zero =>
      obtain ⟨t, ht⟩ := exists_of_enclosingFrom h
      cases he : t.enclosing? with
      | none =>
        cases h.symm.trans (enclosingFrom_outermost ht he)
        exact ⟨[t], enclosed_outermost ht he, Nat.le_refl 1, rfl⟩
      | some enclosing => cases h.symm.trans (enclosingFrom_zero ht he)
    | succ room ih =>
      obtain ⟨t, ht⟩ := exists_of_enclosingFrom h
      cases he : t.enclosing? with
      | none =>
        cases h.symm.trans (enclosingFrom_outermost ht he)
        exact ⟨[t], enclosed_outermost ht he, by simp, rfl⟩
      | some enclosing =>
        obtain ⟨chain, hchain, hlength, rfl⟩ := ih ((enclosingFrom_succ ht he).symm.trans h)
        exact ⟨t :: chain, hchain.more ht he, by simpa using hlength, by simp⟩
  · rintro ⟨chain, ⟨hchain, hlast⟩, hlength, rfl⟩
    induction hchain generalizing room inner with
    | one ht => exact enclosingFrom_outermost ht (by simpa using hlast)
    | more ht he hchain ih =>
      rw [hchain.getLast?_cons] at hlast
      cases room with
      | zero => cases hchain <;> simp at hlength
      | succ room =>
        rw [enclosingFrom_succ ht he, ih hlast (by simpa using hlength)]
        simp

theorem enclosingFrom_of_long {room : Nat} (h : image.Nested i chain) (hlength : room + 1 < chain.length) :
    image.enclosingFrom room i inner = .error (.nestingLimit enclosingLimit) := by
  induction h generalizing room inner with
  | one => simp at hlength
  | more ht he _ ih =>
    cases room with
    | zero => exact enclosingFrom_zero ht he
    | succ room => rw [enclosingFrom_succ ht he, ih (by simpa using hlength)]

theorem Nested.exists_get {t : TypeDef} (h : image.Nested i chain) (ht : t ∈ chain) :
    ∃ j, image.get TypeDef j = .ok t := by
  induction h with
  | one hget =>
    obtain rfl := List.mem_singleton.1 ht
    exact ⟨_, hget⟩
  | more hget _ _ ih =>
    rcases List.mem_cons.1 ht with rfl | ht
    · exact ⟨_, hget⟩
    · exact ih ht

/-- A chain comes to an end if all references lead to types and no chain is longer than there is room. -/
theorem exists_enclosed (hrange : ∀ i t enclosing, image.get TypeDef i = .ok t → t.enclosing? = some enclosing →
      ∃ t', image.get TypeDef enclosing.toNat = .ok t') {room : Nat}
    (hroom : ∀ chain, image.Nested i chain → chain.length ≤ room) {t : TypeDef} (ht : image.get TypeDef i = .ok t) :
    ∃ chain, image.Enclosed i chain := by
  induction room generalizing i t with
  | zero => exact absurd (hroom [t] (.one ht)) (by simp)
  | succ room ih =>
    cases he : t.enclosing? with
    | none => exact ⟨[t], enclosed_outermost ht he⟩
    | some enclosing =>
      obtain ⟨t', ht'⟩ := hrange i t enclosing ht he
      have hroom' : ∀ chain, image.Nested enclosing.toNat chain → chain.length ≤ room := fun chain hchain =>
        Nat.le_of_succ_le_succ (hroom _ (.more ht he hchain))
      obtain ⟨chain, hchain⟩ := ih hroom' ht'
      exact ⟨t :: chain, hchain.more ht he⟩

theorem exists_nested_of_cycle (h : Relation.ReflTransGen image.LiesIn i j)
    (hcycle : Relation.TransGen image.LiesIn j j) (n : Nat) :
    ∃ chain, image.Nested i chain ∧ chain.length = n + 1 := by
  have hnext : ∀ {i}, Relation.ReflTransGen image.LiesIn i j →
      ∃ k, image.LiesIn i k ∧ Relation.ReflTransGen image.LiesIn k j := by
    intro i h
    rcases h.cases_head with rfl | h
    · exact Relation.TransGen.head'_iff.1 hcycle
    · exact h
  induction n generalizing i with
  | zero =>
    obtain ⟨k, ⟨t, enclosing, ht, -, -⟩, -⟩ := hnext h
    exact ⟨[t], .one ht, rfl⟩
  | succ n ih =>
    obtain ⟨k, ⟨t, enclosing, ht, he, rfl⟩, hk⟩ := hnext h
    obtain ⟨chain, hchain, hlength⟩ := ih hk
    exact ⟨t :: chain, .more ht he hchain, by simp [hlength]⟩

/-- Namespaces and names of a type and of all types around it, outermost first. -/
def nestedTexts (image : Image) (i : Nat) : Except Fault (List (String × String)) := do
  let chain ← image.enclosingChain i
  chain.mapM image.typeTexts

theorem className_eq (image : Image) (style : NameStyle) (i : Nat) :
    image.className style i = image.nestedTexts i >>= fun texts =>
      .ok (style.finish (Naming.dotted (texts.flatMap fun (nameSpace, name) => [nameSpace, name]))) :=
  (bind_assoc ..).symm

theorem typeName_eq (image : Image) (i : Nat) :
    image.typeName i = image.nestedTexts i >>= fun texts =>
      .ok ("_".intercalate (texts.map fun (nameSpace, name) => Naming.segment nameSpace ++ name)) :=
  (bind_assoc ..).symm

theorem listedTypeName_eq (image : Image) (i : Nat) :
    image.listedTypeName i = image.nestedTexts i >>= fun texts =>
      .ok (String.join (texts.map fun (nameSpace, name) => nameSpace ++ "." ++ name)) :=
  (bind_assoc ..).symm

theorem pair_ok_iff {first second : Except Fault String} {texts : String × String} :
    (do return (← first, ← second)) = .ok texts ↔ first = .ok texts.1 ∧ second = .ok texts.2 := by
  simp only [bind_eq_ok]
  constructor
  · rintro ⟨text, htext, text', htext', ⟨⟩⟩
    exact ⟨htext, htext'⟩
  · rintro ⟨htext, htext'⟩
    exact ⟨_, htext, _, htext', rfl⟩

theorem typeTexts_ok_iff {t : TypeDef} {texts : String × String} :
    image.typeTexts t = .ok texts ↔ image.text t.nameSpace = .ok texts.1 ∧ image.text t.name = .ok texts.2 :=
  pair_ok_iff

theorem nestedTexts_ok_iff {texts : List (String × String)} : image.nestedTexts i = .ok texts ↔
    ∃ chain, image.Enclosed i chain ∧ chain.length ≤ enclosingLimit ∧ List.Forall₂ (fun t texts =>
      image.text t.nameSpace = .ok texts.1 ∧ image.text t.name = .ok texts.2) chain texts.reverse := by
  unfold nestedTexts enclosingChain
  simp only [bind_eq_ok, mapM_eq_ok, enclosingFrom_ok_iff, typeTexts_ok_iff]
  constructor
  · rintro ⟨_, ⟨chain, hchain, hlength, rfl⟩, htexts⟩
    rw [List.append_nil] at htexts
    exact ⟨chain, hchain, hlength, by simpa using List.rel_reverse htexts⟩
  · rintro ⟨chain, hchain, hlength, htexts⟩
    exact ⟨_, ⟨chain, hchain, hlength, rfl⟩, by simpa using List.rel_reverse htexts⟩

/-- What a name is made of is there: the types around a type come to an end, 64 at most with itself, and all
their namespaces and names resolve. -/
def Nameable (image : Image) (i : Nat) : Prop :=
  ∃ chain, image.Enclosed i chain ∧ chain.length ≤ 64 ∧ ∀ t ∈ chain,
    (∃ nameSpace, image.text t.nameSpace = .ok nameSpace) ∧ ∃ name, image.text t.name = .ok name

theorem nameable_iff : image.Nameable i ↔ ∃ texts, image.nestedTexts i = .ok texts := by
  constructor
  · rintro ⟨chain, hchain, hlength, hall⟩
    have htexts : ∀ t ∈ chain.reverse, ∃ texts, image.typeTexts t = .ok texts := by
      intro t ht
      obtain ⟨⟨nameSpace, hspace⟩, name, hname⟩ := hall t (List.mem_reverse.1 ht)
      exact ⟨(nameSpace, name), typeTexts_ok_iff.2 ⟨hspace, hname⟩⟩
    obtain ⟨texts, htexts⟩ := exists_of_forall_mapM htexts
    refine ⟨texts, bind_eq_ok.2 ⟨chain.reverse, ?_, htexts⟩⟩
    exact enclosingFrom_ok_iff.2 ⟨chain, hchain, hlength, by simp⟩
  · rintro ⟨texts, htexts⟩
    obtain ⟨chain, hchain, hlength, hall⟩ := nestedTexts_ok_iff.1 htexts
    refine ⟨chain, hchain, hlength, fun t ht => ?_⟩
    obtain ⟨k, hk, rfl⟩ := List.getElem_of_mem ht
    obtain ⟨hspace, hname⟩ := hall.get hk (hall.length_eq ▸ hk)
    exact ⟨⟨_, hspace⟩, _, hname⟩

theorem Enclosed.unique {chain' : List TypeDef} (h : image.Enclosed i chain) (h' : image.Enclosed i chain') :
    chain = chain' := by
  obtain ⟨hnested, hlast⟩ := h
  induction hnested generalizing chain' with
  | @one i t ht =>
    have he : t.enclosing? = none := by simpa using hlast
    obtain ⟨hnested', -⟩ := h'
    cases hnested' with
    | one ht' =>
      cases ht.symm.trans ht'
      rfl
    | more ht' he' _ =>
      cases ht.symm.trans ht'
      cases he.symm.trans he'
  | @more i t enclosing chain ht he hnested ih =>
    rw [hnested.getLast?_cons] at hlast
    obtain ⟨hnested', hlast'⟩ := h'
    cases hnested' with
    | one ht' =>
      cases ht.symm.trans ht'
      cases he.symm.trans (by simpa using hlast')
    | @more _ _ _ chain' ht' he' hnested' =>
      cases ht.symm.trans ht'
      cases he.symm.trans he'
      rw [hnested'.getLast?_cons] at hlast'
      rw [ih ⟨hnested', hlast'⟩ hlast]

/-- A listing names a type by namespace and name of each type around it and its own, a dot between the two. -/
inductive ListedAs (image : Image) : Nat → String → Prop where
  | outermost {i : Nat} {t : TypeDef} {nameSpace name : String} : image.get TypeDef i = .ok t → t.enclosing? = none →
      image.text t.nameSpace = .ok nameSpace → image.text t.name = .ok name →
      ListedAs image i (nameSpace ++ "." ++ name)
  | nested {i : Nat} {t : TypeDef} {enclosing : UInt16} {outer nameSpace name : String} :
      image.get TypeDef i = .ok t → t.enclosing? = some enclosing → ListedAs image enclosing.toNat outer →
      image.text t.nameSpace = .ok nameSpace → image.text t.name = .ok name →
      ListedAs image i (outer ++ (nameSpace ++ "." ++ name))

theorem Enclosed.listedAs {texts : List (String × String)} (h : image.Enclosed i chain)
    (htexts : List.Forall₂ (fun t texts => image.text t.nameSpace = .ok texts.1 ∧ image.text t.name = .ok texts.2)
      chain texts.reverse) :
    image.ListedAs i (String.join (texts.map fun (nameSpace, name) => nameSpace ++ "." ++ name)) := by
  obtain ⟨hnested, hlast⟩ := h
  generalize hinner : texts.reverse = inner at htexts
  obtain rfl : texts = inner.reverse := by rw [← hinner, List.reverse_reverse]
  clear hinner
  induction hnested generalizing inner with
  | one ht =>
    obtain ⟨⟨nameSpace, name⟩, _, ⟨hspace, hname⟩, hnil, rfl⟩ := List.forall₂_cons_left_iff.1 htexts
    cases hnil
    simpa using ListedAs.outermost ht (by simpa using hlast) hspace hname
  | more ht he hnested ih =>
    rw [hnested.getLast?_cons] at hlast
    obtain ⟨⟨nameSpace, name⟩, outer, ⟨hspace, hname⟩, houter, rfl⟩ := List.forall₂_cons_left_iff.1 htexts
    simpa using ListedAs.nested ht he (ih hlast outer houter) hspace hname

theorem listedAs_of_listedTypeName {text : String} (h : image.listedTypeName i = .ok text) :
    image.ListedAs i text := by
  rw [listedTypeName_eq, bind_eq_ok] at h
  obtain ⟨texts, htexts, h⟩ := h
  cases h
  obtain ⟨chain, hchain, -, hall⟩ := nestedTexts_ok_iff.1 htexts
  exact hchain.listedAs hall

end Image

end CompactAssembly

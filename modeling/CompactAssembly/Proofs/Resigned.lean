import CompactAssembly.Proofs.Numbering
import CompactAssembly.Proofs.Seal

/-!
# A method with another signature

A method that gets another signature gets another base identifier if its elements are spelled differently. Its
number may hide that: a base can be what another base becomes with a number. Where no base of the type does, all
other methods keep their identifiers, and the text under the checksum changes (`Image.Resigned.hashedText_ne`).
-/

namespace CompactAssembly

namespace Namer
variable {namer namer' : Namer} {base base' c name : String}

theorem firstFree_congr {issued issued' : Std.HashSet String} {number : Nat}
    (h : ∀ n, number ≤ n → (numbered base n ∈ issued ↔ numbered base n ∈ issued')) :
    firstFree issued base issued.size number = firstFree issued' base issued'.size number := by
  obtain ⟨hle, hfree, hbelow⟩ := (search_firstFree issued base number).spec
  obtain ⟨hle', hfree', hbelow'⟩ := (search_firstFree issued' base number).spec
  rcases Nat.lt_trichotomy (firstFree issued base issued.size number) (firstFree issued' base issued'.size number)
    with hlt | heq | hlt
  · exact absurd ((h _ hle).2 (hbelow' _ hle hlt)) hfree
  · exact heq
  · exact absurd ((h _ hle').1 (hbelow _ hle' hlt)) hfree'

theorem exists_next (namer : Namer) (c : String) : ∃ n, 1 ≤ n ∧ (namer.next c).1 = numbered c n ∧
    (namer.next c).2 = ⟨namer.numbers.insert c n, namer.issued.insert (numbered c n)⟩ := by
  obtain ⟨n, hsearch, hnext⟩ := namer.exists_search c
  have hle := hsearch.spec.1
  exact ⟨n, by omega, congrArg Prod.fst hnext, congrArg Prod.snd hnext⟩

theorem Unused.next (h : namer.Unused base) (hc : ∀ n, 1 ≤ n → numbered c n ≠ base) :
    (namer.next c).2.Unused base := by
  obtain ⟨n, hn, -, heq⟩ := namer.exists_next c
  rw [heq]
  refine ⟨fun hmem => ?_, ?_⟩
  · rcases Std.HashSet.mem_insert.1 hmem with hname | hmem
    · exact hc n hn (beq_iff_eq.1 hname)
    · exact h.issued hmem
  · have hne : (c == base) ≠ true := fun heq => hc 1 (Nat.le_refl 1) (beq_iff_eq.1 heq)
    rw [Std.HashMap.getD_insert, if_neg hne, h.numbers]

/-- A name of which no form is one of two others. -/
def Clear (base base' c : String) : Prop := ∀ n, 1 ≤ n → numbered c n ≠ base ∧ numbered c n ≠ base'

/-- Namers that give the same forms of all names clear of two others. -/
structure Agree (base base' : String) (namer namer' : Namer) : Prop where
  issued : ∀ c, Clear base base' c → ∀ n, 1 ≤ n → (numbered c n ∈ namer.issued ↔ numbered c n ∈ namer'.issued)
  numbers : ∀ c, Clear base base' c → namer.numbers.getD c 0 = namer'.numbers.getD c 0

theorem Agree.next (h : Agree base base' namer namer') (hc : Clear base base' c) :
    (namer.next c).1 = (namer'.next c).1 ∧ Agree base base' (namer.next c).2 (namer'.next c).2 := by
  have hnumber : firstFree namer.issued c namer.issued.size (namer.numbers.getD c 0 + 1) =
      firstFree namer'.issued c namer'.issued.size (namer'.numbers.getD c 0 + 1) := by
    rw [h.numbers c hc]
    exact firstFree_congr fun n hn => h.issued c hc n (Nat.le_trans (Nat.le_add_left 1 _) hn)
  unfold Namer.next
  simp only [hnumber]
  refine ⟨trivial, fun d hd n hn => ?_, fun d hd => ?_⟩
  · rw [Std.HashSet.mem_insert, Std.HashSet.mem_insert, h.issued d hd n hn]
  · rw [Std.HashMap.getD_insert, Std.HashMap.getD_insert, h.numbers d hd]

theorem Unused.agree (h : namer.Unused base) (h' : namer.Unused base') :
    Agree base base' (namer.next base).2 (namer.next base').2 := by
  rw [h.next_eq, h'.next_eq]
  refine ⟨fun c hc n hn => ?_, fun c hc => ?_⟩
  · have hne : (base == numbered c n) ≠ true := fun heq => (hc n hn).1 (beq_iff_eq.1 heq).symm
    have hne' : (base' == numbered c n) ≠ true := fun heq => (hc n hn).2 (beq_iff_eq.1 heq).symm
    rw [Std.HashSet.mem_insert, Std.HashSet.mem_insert, or_iff_right hne, or_iff_right hne']
  · have hne : (base == c) ≠ true := fun heq => (hc 1 (Nat.le_refl 1)).1 (beq_iff_eq.1 heq).symm
    have hne' : (base' == c) ≠ true := fun heq => (hc 1 (Nat.le_refl 1)).2 (beq_iff_eq.1 heq).symm
    rw [Std.HashMap.getD_insert, Std.HashMap.getD_insert, if_neg hne, if_neg hne']

end Namer

namespace Image

/-- A native method with its signature and its base identifier. -/
def Based (image : Image) (policy : NamingPolicy) (method : Nat) (signature : MethodSignature) (base : String) : Prop :=
  ∃ m, image.get MethodDef method = .ok m ∧ m.isEligible = true ∧
    image.readSignature SignatureReader.method m.sig = .ok signature ∧
    image.methodIdentifier policy m signature = .ok base

/-- An image in which a method of the same name and flags may have another signature. -/
structure Resigned (image : Image) (method : Nat) (image' : Image) : Prop extends SameNames image image' where
  typeCount : image'.typeCount = image.typeCount
  signatures : image'.signatures = image.signatures
  others : ∀ i, i ≠ method → image'.get MethodDef i = image.get MethodDef i
  record : ∀ m m', image.get MethodDef method = .ok m → image'.get MethodDef method = .ok m' →
    m'.name = m.name ∧ m'.flags = m.flags

end Image

/-- Plans of a method that get the same identifier, or one the one and one the other. -/
def MethodPlan.Swapped (base base' : String) (m m' : MethodPlan) : Prop :=
  m.identifier? = m'.identifier? ∨ m.identifier? = some base ∧ m'.identifier? = some base'

theorem Image.planNative_ineligible {image : Image} {policy : NamingPolicy} (namer : Namer) (m : MethodDef) :
    image.planNative policy false namer m = .ok (none, namer) :=
  planNative_ok_iff.2 (.inl ⟨rfl, rfl, rfl⟩)

namespace Image.Based
variable {image : Image} {policy : NamingPolicy} {method : Nat} {s : MethodSignature} {base : String}

theorem planNative (h : image.Based policy method s base) {m : MethodDef} (hm : image.get MethodDef method = .ok m)
    (namer : Namer) : image.planNative policy true namer m =
      .ok (some ⟨(namer.next base).1, s⟩, (namer.next base).2) := by
  obtain ⟨m', hm', heligible, hs, hb⟩ := h
  cases hm.symm.trans hm'
  exact planNative_ok_iff.2 (.inr ⟨heligible, s, base, hs, hb, rfl, rfl⟩)

end Image.Based

/-- A method with a base clear of both names takes neither. -/
theorem Namer.Unused.of_planNative {namer next : Namer} {base base' : String} (hunused : namer.Unused base)
    (hunused' : namer.Unused base') {image : Image} {policy : NamingPolicy} {eligible : Bool} {index : Nat}
    {record : MethodDef} {native? : Option NativeMethod} (hrecord : image.get MethodDef index = .ok record)
    (hclear : eligible = true → ∀ signature c, image.Based policy index signature c → Namer.Clear base base' c)
    (hnative : image.planNative policy eligible namer record = .ok (native?, next)) :
    next.Unused base ∧ next.Unused base' := by
  rcases Image.planNative_ok_iff.1 hnative with ⟨-, -, rfl⟩ | ⟨heligible, s, c, hs, hc, -, rfl⟩
  · exact ⟨hunused, hunused'⟩
  · rw [Bool.and_eq_true] at heligible
    have hclear := hclear heligible.1 s c ⟨record, hrecord, heligible.2, hs, hc⟩
    exact ⟨hunused.next fun n hn => (hclear n hn).1, hunused'.next fun n hn => (hclear n hn).2⟩

namespace Image.Resigned
variable {image image' : Image} {policy : NamingPolicy} {method : Nat} {base base' : String}

theorem planNative (h : image.Resigned method image') : image'.planNative = image.planNative := by
  funext policy eligible namer m
  simp only [Image.planNative, readSignature_congr h.signatures, h.toSameNames.methodIdentifier]

theorem planMethods_of_not_mem (h : image.Resigned method image') {eligible : Bool} {indices : List Nat}
    (hindices : method ∉ indices) (namer : Namer) :
    image'.planMethods policy eligible namer indices = image.planMethods policy eligible namer indices := by
  induction indices generalizing namer with
  | nil => rfl
  | cons index indices ih =>
    rw [List.mem_cons, not_or] at hindices
    simp only [planMethods, h.others index (Ne.symm hindices.1), h.planNative, ih hindices.2]

/-- Namers that agree on all bases name the other methods alike. -/
theorem planMethods_of_agree (h : image.Resigned method image') {eligible : Bool} {namer namer' : Namer}
    (hagree : Namer.Agree base base' namer namer') {indices : List Nat} (hindices : method ∉ indices)
    (hclear : ∀ i ∈ indices, ∀ signature c, image.Based policy i signature c → Namer.Clear base base' c)
    {plans : List MethodPlan} (hplans : image.planMethods policy eligible namer indices = .ok plans) :
    image'.planMethods policy eligible namer' indices = .ok plans := by
  induction indices generalizing namer namer' plans with
  | nil => exact hplans
  | cons index indices ih =>
    rw [List.mem_cons, not_or] at hindices
    obtain ⟨record, native?, next, rest, hrecord, hnative, hrest, rfl⟩ := planMethods_cons_ok_iff.1 hplans
    have hclear' := fun i hi => hclear i (List.mem_cons_of_mem index hi)
    have hrecord' := (h.others index (Ne.symm hindices.1)).trans hrecord
    rcases planNative_ok_iff.1 hnative with ⟨heligible, rfl, rfl⟩ | ⟨heligible, s, c, hs, hc, rfl, rfl⟩
    · refine planMethods_cons_ok_iff.2 ⟨record, none, namer', rest, hrecord', ?_,
        ih hagree hindices.2 hclear' hrest, rfl⟩
      rw [h.planNative]
      exact planNative_ok_iff.2 (.inl ⟨heligible, rfl, rfl⟩)
    · have hbased : image.Based policy index s c := ⟨record, hrecord, (Bool.and_eq_true _ _ ▸ heligible).2, hs, hc⟩
      obtain ⟨hname, hnext⟩ := hagree.next (hclear index List.mem_cons_self s c hbased)
      refine planMethods_cons_ok_iff.2 ⟨record, some ⟨(namer.next c).1, s⟩, (namer'.next c).2, rest, hrecord', ?_,
        ih hnext hindices.2 hclear' hrest, rfl⟩
      rw [h.planNative]
      exact planNative_ok_iff.2 (.inr ⟨heligible, s, c, hs, hc, by rw [hname], rfl⟩)

/-- In the type of the method all others keep their identifiers, and it gets its base. -/
theorem exists_planMethods (h : image.Resigned method image') {s s' : MethodSignature}
    (hbase : image.Based policy method s base) (hbase' : image'.Based policy method s' base') (hne : base ≠ base')
    {eligible : Bool} {namer : Namer} (hunused : namer.Unused base) (hunused' : namer.Unused base')
    {indices : List Nat} (hindices : indices.Nodup)
    (hclear : eligible = true → ∀ i ∈ indices, i ≠ method → ∀ signature c, image.Based policy i signature c →
      Namer.Clear base base' c)
    {plans : List MethodPlan} (hplans : image.planMethods policy eligible namer indices = .ok plans) :
    ∃ plans', image'.planMethods policy eligible namer indices = .ok plans' ∧
      List.Forall₂ (MethodPlan.Swapped base base') plans plans' ∧
      (eligible = true → method ∈ indices →
        plans.map MethodPlan.identifier? ≠ plans'.map MethodPlan.identifier?) := by
  induction indices generalizing namer plans with
  | nil =>
    cases hplans
    exact ⟨[], rfl, .nil, fun _ hmem => nomatch hmem⟩
  | cons index indices ih =>
    rw [List.nodup_cons] at hindices
    obtain ⟨record, native?, next, rest, hrecord, hnative, hrest, rfl⟩ := planMethods_cons_ok_iff.1 hplans
    by_cases hindex : index = method
    · subst hindex
      obtain ⟨m', hm', -⟩ := id hbase'
      cases eligible with
      | false =>
        cases hnative.symm.trans (planNative_ineligible namer _)
        refine ⟨⟨m', none⟩ :: rest, ?_, .cons (.inl rfl) (List.forall₂_same.2 fun _ _ => .inl rfl), nofun⟩
        refine planMethods_cons_ok_iff.2 ⟨m', none, namer, rest, hm', planNative_ineligible namer _, ?_, rfl⟩
        rw [h.planMethods_of_not_mem hindices.1, hrest]
      | true =>
        cases hnative.symm.trans (hbase.planNative hrecord namer)
        have hrest' := h.planMethods_of_agree (hunused.agree hunused') hindices.1
          (fun i hi => hclear rfl i (List.mem_cons_of_mem index hi) (fun heq => hindices.1 (heq ▸ hi))) hrest
        rw [hunused.next_eq]
        refine ⟨⟨m', some ⟨(namer.next base').1, s'⟩⟩ :: rest, ?_, .cons (.inr ⟨rfl, ?_⟩)
          (List.forall₂_same.2 fun _ _ => .inl rfl), fun _ _ heq => ?_⟩
        · exact planMethods_cons_ok_iff.2 ⟨m', _, _, rest, hm', hbase'.planNative hm' namer, hrest', rfl⟩
        · rw [hunused'.next_eq]
          rfl
        · rw [hunused'.next_eq] at heq
          exact hne (Option.some.inj (List.cons.inj heq).1)
    · have hclear' := fun heligible i hi => hclear heligible i (List.mem_cons_of_mem index hi)
      obtain ⟨hnext, hnext'⟩ := hunused.of_planNative hunused' hrecord
        (fun heligible => hclear heligible index List.mem_cons_self hindex) hnative
      obtain ⟨rest', hrest', hall, hdiffer⟩ := ih hnext hnext' hindices.2 hclear' hrest
      refine ⟨⟨record, native?⟩ :: rest', ?_, .cons (.inl rfl) hall, fun heligible hmem heq => ?_⟩
      · refine planMethods_cons_ok_iff.2
          ⟨record, native?, next, rest', (h.others index hindex).trans hrecord, ?_, hrest', rfl⟩
        rw [h.planNative, hnative]
      · exact hdiffer heligible ((List.mem_cons.1 hmem).resolve_left (Ne.symm hindex)) (List.cons.inj heq).2

/-- Whatever the other methods are called, the method itself gets another name. -/
theorem identifiers_ne (h : image.Resigned method image') {s s' : MethodSignature}
    (hbase : image.Based policy method s base) (hbase' : image'.Based policy method s' base')
    (hapart : ∀ n, 1 ≤ n → base ≠ Namer.numbered base' n ∧ base' ≠ Namer.numbered base n)
    {namer : Namer} {indices : List Nat} {plans plans' : List MethodPlan}
    (hplans : image.planMethods policy true namer indices = .ok plans)
    (hplans' : image'.planMethods policy true namer indices = .ok plans')
    (hmem : method ∈ indices) : plans.map MethodPlan.identifier? ≠ plans'.map MethodPlan.identifier? := by
  induction indices generalizing namer plans plans' with
  | nil => cases hmem
  | cons index indices ih =>
    obtain ⟨record, native?, next, rest, hrecord, hnative, hrest, rfl⟩ := planMethods_cons_ok_iff.1 hplans
    obtain ⟨record', native?', next', rest', hrecord', hnative', hrest', rfl⟩ := planMethods_cons_ok_iff.1 hplans'
    intro heq
    obtain ⟨hhead, htail⟩ := List.cons.inj heq
    -- one namer reaches the method in both runs, and there it gives a form of either base
    by_cases hindex : index = method
    · subst hindex
      cases hnative.symm.trans (hbase.planNative hrecord namer)
      cases hnative'.symm.trans (hbase'.planNative hrecord' namer)
      obtain ⟨p, hp, hnext, -⟩ := namer.exists_next base
      obtain ⟨q, hq, hnext', -⟩ := namer.exists_next base'
      have hforms : Namer.numbered base p = Namer.numbered base' q := by
        rw [← hnext, ← hnext']
        exact Option.some.inj hhead
      obtain ⟨k, hk, hform⟩ := Namer.eq_numbered_of_numbered_eq hp hq hforms
      rcases hform with hform | hform
      · exact (hapart k hk).1 hform
      · exact (hapart k hk).2 hform
    · rw [h.others index hindex, hrecord] at hrecord'
      cases hrecord'
      rw [h.planNative, hnative] at hnative'
      cases hnative'
      exact ih hrest hrest' ((List.mem_cons.1 hmem).resolve_left (Ne.symm hindex)) htail

theorem exists_planMethods_resigned (h : image.Resigned method image') {s' : MethodSignature}
    (hbase' : image'.Based policy method s' base') {eligible : Bool} {namer : Namer} {indices : List Nat}
    {plans : List MethodPlan} (hplans : image.planMethods policy eligible namer indices = .ok plans) :
    ∃ plans', image'.planMethods policy eligible namer indices = .ok plans' := by
  refine exists_planMethods_iff.2 fun i hi => ?_
  by_cases hindex : i = method
  · subst hindex
    obtain ⟨m', hm', -, hs', hb'⟩ := hbase'
    exact ⟨m', hm', fun _ => ⟨s', base', hs', hb'⟩⟩
  · obtain ⟨m, hm, hreads⟩ := exists_planMethods_iff.1 ⟨plans, hplans⟩ i hi
    refine ⟨m, (h.others i hindex).trans hm, ?_⟩
    rwa [readSignature_congr h.signatures, h.toSameNames.methodIdentifier]

/-- The plans of a type before and after. -/
structure Planned (image image' : Image) (policy : NamingPolicy) (plan plan' : TypePlan) : Prop where
  className : plan'.className = plan.className
  before : image.planMethods policy plan.eligible .empty plan.record.methods.toList = .ok plan.methods
  after : image'.planMethods policy plan.eligible .empty plan.record.methods.toList = .ok plan'.methods

theorem exists_plan (h : image.Resigned method image') {s' : MethodSignature}
    (hbase' : image'.Based policy method s' base') {plans : List TypePlan} (hplans : image.plan policy = .ok plans) :
    ∃ plans', image'.plan policy = .ok plans' ∧
      List.Forall₂ (fun plan plan' => plan ∈ plans ∧ Planned image image' policy plan plan') plans plans' := by
  rw [Image.plan, ← h.typeCount] at hplans
  refine exists_mapM_of_mapM hplans fun index plan hmem hplan => ?_
  obtain ⟨record, className, methods, hrecord, hclass, hmethods, rfl⟩ := planType_ok_iff.1 hplan
  obtain ⟨methods', hmethods'⟩ := h.exists_planMethods_resigned hbase' hmethods
  rw [← h.typeDef] at hrecord
  rw [← h.toSameNames.className] at hclass
  have hplan' := planType_ok_iff.2 ⟨record, className, methods', hrecord, hclass, hmethods', rfl⟩
  exact ⟨_, hplan', hmem, rfl, hmethods, hmethods'⟩

end Image.Resigned

/-- Slots that are the same, or handlers of one class with the one identifier and with the other. -/
def Swapped (base base' : String) (x y : Option Handler) : Prop :=
  x = y ∨ ∃ className, x = some ⟨className, base⟩ ∧ y = some ⟨className, base'⟩

/-- The text under the checksum. -/
def hashedText (assemblyName : String) (entries : List (Option Handler)) : String :=
  String.join (entries.flatMap (slotTexts assemblyName))

theorem nativeChecksum_eq (plans : List TypePlan) (assemblyName : String) :
    nativeChecksum plans assemblyName =
      Checksum.update 0 (hashedText assemblyName (slots plans)).toUTF8.data.toList := by
  rw [nativeChecksum, foldl_updateText, hashedText, toUTF8_join]

section
variable {base base' assemblyName : String} {entries entries' : List (Option Handler)}

/-- The letters that a slot adds to the text under the checksum. -/
def slotLetters (assemblyName : String) (entry : Option Handler) : List Char :=
  (slotTexts assemblyName entry).flatMap String.toList

theorem toList_hashedText (assemblyName : String) (entries : List (Option Handler)) :
    (hashedText assemblyName entries).toList = (entries.map (slotLetters assemblyName)).flatten := by
  rw [hashedText, String.toList_join, List.flatMap_assoc, List.flatMap_def]
  rfl

theorem slotLetters_some (assemblyName className identifier : String) :
    slotLetters assemblyName (some ⟨className, identifier⟩) =
      assemblyName.toList ++ className.toList ++ identifier.toList := by
  simp [slotLetters, slotTexts]

/-- Each slot that changed adds the same to the length. -/
theorem exists_length_eq (assemblyName : String) (h : List.Forall₂ (Swapped base base') entries entries') :
    ∃ n, (hashedText assemblyName entries').toList.length + n * base.toList.length =
        (hashedText assemblyName entries).toList.length + n * base'.toList.length ∧
      (entries ≠ entries' → 0 < n) := by
  induction h with
  | nil => exact ⟨0, by rw [Nat.zero_mul, Nat.zero_mul], fun hne => absurd rfl hne⟩
  | @cons x y entries entries' hxy _ ih =>
    obtain ⟨n, hlength, hpos⟩ := ih
    simp only [toList_hashedText, List.map_cons, List.flatten_cons, List.length_append] at hlength ⊢
    rcases hxy with rfl | ⟨className, rfl, rfl⟩
    · refine ⟨n, by omega, fun hne => hpos fun heq => hne (by rw [heq])⟩
    · refine ⟨n + 1, ?_, fun _ => Nat.succ_pos n⟩
      simp only [slotLetters_some, List.length_append, Nat.add_mul, Nat.one_mul]
      omega

theorem eq_of_slotLetters_eq (h : List.Forall₂ (Swapped base base') entries entries') (hne : base ≠ base')
    (hletters : entries.map (slotLetters assemblyName) = entries'.map (slotLetters assemblyName)) :
    entries = entries' := by
  induction h with
  | nil => rfl
  | cons hxy _ ih =>
    rw [List.map_cons, List.map_cons, List.cons.injEq] at hletters
    rcases hxy with rfl | ⟨className, rfl, rfl⟩
    · rw [ih hletters.2]
    · rw [slotLetters_some, slotLetters_some, List.append_cancel_left_eq, String.toList_inj] at hletters
      exact absurd hletters.1 hne

/-- Where only one identifier is swapped for another, the text under the checksum changes. -/
theorem hashedText_ne (h : List.Forall₂ (Swapped base base') entries entries') (hne : base ≠ base')
    (hentries : entries ≠ entries') (assemblyName : String) :
    hashedText assemblyName entries ≠ hashedText assemblyName entries' := by
  intro heq
  -- the identifiers are of one length, so that the text falls into the same pieces before and after
  obtain ⟨n, hlength, hpos⟩ := exists_length_eq assemblyName h
  rw [← heq, Nat.add_left_cancel_iff] at hlength
  have hsame : base.toList.length = base'.toList.length := Nat.eq_of_mul_eq_mul_left (hpos hentries) hlength
  have hpieces : (entries.map (slotLetters assemblyName)).map List.length =
      (entries'.map (slotLetters assemblyName)).map List.length := by
    rw [List.map_map, List.map_map, ← List.forall₂_eq_eq_eq, List.forall₂_map_left_iff, List.forall₂_map_right_iff]
    refine h.imp fun x y hxy => ?_
    rcases hxy with rfl | ⟨className, rfl, rfl⟩
    · rfl
    · simp only [Function.comp_apply, slotLetters_some, List.length_append, hsame]
  have hflat := congrArg String.toList heq
  rw [toList_hashedText, toList_hashedText] at hflat
  exact hentries (eq_of_slotLetters_eq h hne (List.eq_iff_flatten_eq.2 ⟨hflat, hpieces⟩))

end

theorem MethodPlan.Swapped.slot {base base' : String} {m m' : MethodPlan} {plan plan' : TypePlan}
    (h : m.Swapped base base' m') (hclass : plan'.className = plan.className) :
    CompactAssembly.Swapped base base' (plan.slot m) (plan'.slot m') := by
  rw [plan.slot_eq, plan'.slot_eq, hclass]
  rcases h with h | ⟨h, h'⟩
  · exact .inl (by rw [h])
  · exact .inr ⟨plan.className, by rw [h]; rfl, by rw [h']; rfl⟩

/-- The slots differ where the identifiers of one type do. -/
theorem slots_ne {plans plans' : List TypePlan} {D : TypePlan → Prop}
    (h : List.Forall₂ (fun plan plan' => plan'.className = plan.className ∧
      plan.methods.length = plan'.methods.length ∧ (D plan →
        plan.methods.map MethodPlan.identifier? ≠ plan'.methods.map MethodPlan.identifier?)) plans plans')
    (hsome : ∃ plan ∈ plans, D plan) : slots plans ≠ slots plans' := by
  intro heq
  rw [slots_eq, slots_eq, List.flatMap_def, List.flatMap_def] at heq
  have hlengths : (plans.map fun plan => plan.methods.map plan.slot).map List.length =
      (plans'.map fun plan => plan.methods.map plan.slot).map List.length := by
    rw [← List.forall₂_eq_eq_eq, List.forall₂_map_left_iff, List.forall₂_map_right_iff, List.forall₂_map_left_iff,
      List.forall₂_map_right_iff]
    refine h.imp fun plan plan' hplan => ?_
    rw [List.length_map, List.length_map, hplan.2.1]
  have hslots := List.eq_iff_flatten_eq.2 ⟨heq, hlengths⟩
  obtain ⟨plan, hplan, hdiffer⟩ := hsome
  obtain ⟨index, hindex, rfl⟩ := List.getElem_of_mem hplan
  have hindex' : index < plans'.length := h.length_eq ▸ hindex
  obtain ⟨hclass, -, hne⟩ := h.get hindex hindex'
  have hslot := congrArg (fun slots => slots[index]?) hslots
  simp only [List.getElem?_map, List.getElem?_eq_getElem hindex, List.getElem?_eq_getElem hindex', Option.map_some,
    Option.some.injEq] at hslot
  simp only [List.get_eq_getElem] at hclass hne
  rw [funext plans[index].slot_eq, funext plans'[index].slot_eq, hclass] at hslot
  have hinj : Function.Injective (Option.map (Handler.mk plans[index].className)) :=
    Option.map_injective fun identifier identifier' h => (Handler.mk.inj h).2
  refine hne hdiffer (List.map_injective_iff.2 hinj ?_)
  rw [List.map_map, List.map_map]
  exact hslot

theorem slotTexts_injective (assemblyName : String) : Function.Injective (slotTexts assemblyName) := by
  rintro (_ | ⟨className, identifier⟩) (_ | ⟨className', identifier'⟩) h
  · rfl
  · cases h
  · cases h
  · simp only [slotTexts, List.cons.injEq, true_and, and_true] at h
    rw [h.1, h.2]

namespace Bytes
variable {part part' : Bytes} (front back : Bytes) (h : part'.size = part.size)
include h

theorem size_replaced : (front ++ part' ++ back).size = (front ++ part ++ back).size := by
  simp only [Array.size_append, h]

theorem extract_replaced {start stop : Nat} (hbeside : stop ≤ front.size ∨ front.size + part.size ≤ start) :
    (front ++ part' ++ back).extract start stop = (front ++ part ++ back).extract start stop := by
  have hold : (front ++ part ++ back).toList = front.toList ++ (part.toList ++ back.toList) := by
    simp only [Array.toList_append, List.append_assoc]
  have hlength : part.toList.length = part'.toList.length := by simp only [Array.length_toList, h]
  have hnew : front ++ part' ++ back = (front ++ part ++ back).overwrite front.size part'.toList := by
    apply Array.toList_inj.1
    rw [← Array.length_toList, toList_overwrite hold hlength]
    simp only [Array.toList_append, List.append_assoc]
  rw [hnew]
  refine extract_overwrite _ ?_
  rwa [Array.length_toList, h]

end Bytes

namespace Image
variable {image image' : Image} {policy : NamingPolicy} {method : Nat} {s s' : MethodSignature}
  {base base' : String} {plans : List TypePlan}

theorem Based.unique {c : String} {t : MethodSignature} (h : image.Based policy method s base)
    (h' : image.Based policy method t c) : s = t ∧ base = c := by
  obtain ⟨m, hm, -, hs, hb⟩ := h
  obtain ⟨m', hm', -, hs', hb'⟩ := h'
  cases hm.symm.trans hm'
  cases hs.symm.trans hs'
  cases hb.symm.trans hb'
  exact ⟨rfl, rfl⟩

namespace Resigned

/-- The same method before and after shares its base identifier exactly if its elements are spelled alike. -/
theorem base_eq_iff (h : image.Resigned method image') (hbase : image.Based policy method s base)
    (hbase' : image'.Based policy method s' base') :
    base = base' ↔ List.Forall₂ image.SpelledAlike (s.result :: s.params) (s'.result :: s'.params) := by
  obtain ⟨m, hm, -, -, hb⟩ := hbase
  obtain ⟨m', hm', -, -, hb'⟩ := hbase'
  obtain ⟨hname, hflags⟩ := h.record m m' hm hm'
  rw [h.toSameNames.methodIdentifier] at hb'
  refine methodIdentifier_inj (by rw [hname]) ?_ hb hb'
  rw [MethodDef.isStatic, MethodDef.isStatic, hflags]

section
variable {header : Header} {front record record' back : Bytes}
  (he : header.Extents (front ++ record ++ back).size)
  (hfront : front.size = header.start .methodDef + method * Row.size MethodDef)
  (hsize : record.size = Row.size MethodDef) (hsize' : record'.size = Row.size MethodDef)
include he hfront hsize hsize'

theorem get_replaced_of_ne {i : Nat} (hi : i ≠ method) :
    (Image.view (front ++ record' ++ back) header).get MethodDef i =
      (Image.view (front ++ record ++ back) header).get MethodDef i := by
  have hsame := Bytes.size_replaced front back (hsize'.trans hsize.symm)
  obtain ⟨size, hregion⟩ := he.region .methodDef
  have hfit := Nat.le_trans (he.stop_le_totalSize hregion) he.available
  refine get_congr_at (ρ := MethodDef) rfl rfl hregion hfit (hsame ▸ hfit) fun _ =>
    Bytes.extract_replaced front back (hsize'.trans hsize.symm) ?_
  change header.start .methodDef + i * Row.size MethodDef + Row.size MethodDef ≤ front.size ∨
    front.size + record.size ≤ header.start .methodDef + i * Row.size MethodDef
  rcases Nat.lt_or_gt_of_ne hi with hlt | hlt
  · have := Nat.mul_le_mul_right (Row.size MethodDef) hlt
    rw [Nat.succ_mul] at this
    omega
  · have := Nat.mul_le_mul_right (Row.size MethodDef) hlt
    rw [Nat.succ_mul] at this
    omega

variable (hmethod : method < (Image.view (front ++ record ++ back) header).count .methodDef)
include hmethod

theorem cut_replaced {kind : TableKind} (hkind : kind ≠ .methodDef) :
    header.cut (front ++ record' ++ back) kind = header.cut (front ++ record ++ back) kind := by
  have hsame := Bytes.size_replaced front back (hsize'.trans hsize.symm)
  obtain ⟨size, hregion⟩ := he.region .methodDef
  have hrange : method * Row.size MethodDef + Row.size MethodDef ≤ size := record_le_region hregion hmethod
  obtain ⟨size', hregion'⟩ := he.region kind
  rw [he.cut hregion', (hsame ▸ he : header.Extents (front ++ record' ++ back).size).cut hregion']
  refine congrArg Except.ok (Bytes.extract_replaced front back (hsize'.trans hsize.symm) ?_)
  rcases Nat.lt_trichotomy kind.id TableKind.methodDef.id with hlt | heq | hlt
  · have := he.stop_le_start hlt hregion'
    omega
  · exact absurd (TableKind.id_inj heq) hkind
  · have := he.stop_le_start hlt hregion
    omega

theorem get_replaced (ρ : Type) [Row ρ] [LawfulRow ρ] (hkind : Row.kind ρ ≠ .methodDef) :
    (Image.view (front ++ record' ++ back) header).get ρ = (Image.view (front ++ record ++ back) header).get ρ := by
  obtain ⟨size, hregion⟩ := he.region (Row.kind ρ)
  exact get_congr rfl rfl (he.cut hregion)
    ((cut_replaced he hfront hsize hsize' hmethod hkind).trans (he.cut hregion))

/-- Bytes in which the record of one method is replaced. -/
theorem of_replace
    (hrecord : ∀ m m', (Image.view (front ++ record ++ back) header).get MethodDef method = .ok m →
      (Image.view (front ++ record' ++ back) header).get MethodDef method = .ok m' →
      m'.name = m.name ∧ m'.flags = m.flags) :
    (Image.view (front ++ record ++ back) header).Resigned method (Image.view (front ++ record' ++ back) header) := by
  have hcut : ∀ kind, kind ≠ .methodDef →
      header.cut (front ++ record' ++ back) kind = header.cut (front ++ record ++ back) kind :=
    fun _ => cut_replaced he hfront hsize hsize' hmethod
  have hget : ∀ (ρ : Type) [Row ρ] [LawfulRow ρ], Row.kind ρ ≠ .methodDef →
      (Image.view (front ++ record' ++ back) header).get ρ = (Image.view (front ++ record ++ back) header).get ρ :=
    get_replaced he hfront hsize hsize' hmethod
  refine ⟨⟨hget TypeDef (by decide), hget TypeRef (by decide), hget AssemblyRef (by decide), text_congr ?_⟩, rfl, ?_,
    fun _ => get_replaced_of_ne he hfront hsize hsize', hrecord⟩
  · rw [Image.view, Image.view, hcut .strings (by decide)]
  · rw [Image.view, Image.view, hcut .signatures (by decide)]

end

variable {plans' : List TypePlan}
  (hall : List.Forall₂ (fun plan plan' => plan ∈ plans ∧ Planned image image' policy plan plan') plans plans')
  (hlisted : ∃ plan ∈ plans, plan.eligible = true ∧ method ∈ plan.record.methods)

include hall hlisted

/-- The slots differ unless one base is the other with a number. -/
theorem slots_ne_of_apart (h : image.Resigned method image') (hbase : image.Based policy method s base)
    (hbase' : image'.Based policy method s' base')
    (hapart : ∀ n, 1 ≤ n → base ≠ Namer.numbered base' n ∧ base' ≠ Namer.numbered base n) :
    slots plans ≠ slots plans' := by
  refine slots_ne (D := fun plan => plan.eligible = true ∧ method ∈ plan.record.methods) (hall.imp ?_) hlisted
  rintro plan plan' ⟨-, hclass, hbefore, hafter⟩
  refine ⟨hclass, (planMethods_ok hbefore).length_eq.symm.trans (planMethods_ok hafter).length_eq, ?_⟩
  rintro ⟨heligible, hmem⟩
  rw [heligible] at hbefore hafter
  exact h.identifiers_ne hbase hbase' hapart hbefore hafter (IndexRange.mem_toList.2 hmem)

/-- Where no other base of the type is one of the two with a number, the slots of the method are swapped and
all others stay. -/
theorem swapped_slots (h : image.Resigned method image') (hbase : image.Based policy method s base)
    (hbase' : image'.Based policy method s' base') (hne : base ≠ base')
    (hclear : ∀ plan ∈ plans, plan.eligible = true → method ∈ plan.record.methods → ∀ i ∈ plan.record.methods,
      i ≠ method → ∀ t c, image.Based policy i t c → Namer.Clear base base' c) :
    List.Forall₂ (Swapped base base') (slots plans) (slots plans') ∧ slots plans ≠ slots plans' := by
  have hmethods : List.Forall₂ (fun plan plan' => plan'.className = plan.className ∧
      List.Forall₂ (MethodPlan.Swapped base base') plan.methods plan'.methods ∧
      (plan.eligible = true ∧ method ∈ plan.record.methods →
        plan.methods.map MethodPlan.identifier? ≠ plan'.methods.map MethodPlan.identifier?)) plans plans' := by
    refine hall.imp fun plan plan' hplan => ?_
    obtain ⟨hmem, hclass, hbefore, hafter⟩ := hplan
    by_cases hlisted : method ∈ plan.record.methods.toList
    · have hrange := IndexRange.mem_toList.1 hlisted
      obtain ⟨methods', hmethods', hswapped, hdiffer⟩ := h.exists_planMethods hbase hbase' hne
        (Namer.unused_empty base) (Namer.unused_empty base') List.nodup_range'
        (fun heligible i hi => hclear plan hmem heligible hrange i (IndexRange.mem_toList.1 hi)) hbefore
      cases hafter.symm.trans hmethods'
      exact ⟨hclass, hswapped, fun heligible => hdiffer heligible.1 hlisted⟩
    · rw [h.planMethods_of_not_mem hlisted, hbefore] at hafter
      rw [← Except.ok.inj hafter]
      exact ⟨hclass, List.forall₂_same.2 fun _ _ => .inl rfl, fun hplan =>
        absurd (IndexRange.mem_toList.2 hplan.2) hlisted⟩
  constructor
  · rw [slots_eq, slots_eq, List.flatMap_def, List.flatMap_def]
    refine List.rel_flatten ?_
    rw [List.forall₂_map_left_iff, List.forall₂_map_right_iff]
    refine hmethods.imp fun plan plan' hplan => ?_
    rw [List.forall₂_map_left_iff, List.forall₂_map_right_iff]
    exact hplan.2.1.imp fun m m' hm => hm.slot hplan.1
  · exact slots_ne (hmethods.imp fun plan plan' hplan => ⟨hplan.1, hplan.2.1.length_eq, hplan.2.2⟩) hlisted

end Resigned

/-- Identifiers tell how elements are spelled, and nothing more. Where a native method is spelled differently, the
texts of some slot change unless one base is the other with a number, and so does the text under the checksum
where no other base of the type is one of the two with a number. -/
theorem identifiers_tell_spellings (image : Image) (policy : NamingPolicy) :
    (∀ plans assemblyName, nativeChecksum plans assemblyName =
      Checksum.update 0 (hashedText assemblyName (slots plans)).toUTF8.data.toList) ∧
    (∀ {m m' : MethodDef} {s s' : MethodSignature} {base base' : String}, image.text m.name = image.text m'.name →
      m.isStatic = m'.isStatic → image.methodIdentifier policy m s = .ok base →
      image.methodIdentifier policy m' s' = .ok base' →
      (base = base' ↔ List.Forall₂ image.SpelledAlike (s.result :: s.params) (s'.result :: s'.params))) ∧
    ∀ {image' : Image} {method : Nat} {s s' : MethodSignature} {base base' : String} {plans : List TypePlan},
      image.plan policy = .ok plans → image.Resigned method image' → image.Based policy method s base →
      image'.Based policy method s' base' →
      (∃ plan ∈ plans, plan.eligible = true ∧ method ∈ plan.record.methods) →
      ¬ List.Forall₂ image.SpelledAlike (s.result :: s.params) (s'.result :: s'.params) →
      ∃ plans', image'.plan policy = .ok plans' ∧
        ((∀ n, 1 ≤ n → base ≠ Namer.numbered base' n ∧ base' ≠ Namer.numbered base n) → ∀ assemblyName,
          (slots plans).map (slotTexts assemblyName) ≠ (slots plans').map (slotTexts assemblyName)) ∧
        ((∀ plan ∈ plans, plan.eligible = true → method ∈ plan.record.methods → ∀ i ∈ plan.record.methods,
          i ≠ method → ∀ t c, image.Based policy i t c → Namer.Clear base base' c) → ∀ assemblyName,
          hashedText assemblyName (slots plans) ≠ hashedText assemblyName (slots plans')) := by
  refine ⟨nativeChecksum_eq, methodIdentifier_inj, ?_⟩
  intro image' method s s' base base' plans hplans h hbase hbase' hlisted hspelled
  have hne : base ≠ base' := mt (h.base_eq_iff hbase hbase').1 hspelled
  obtain ⟨plans', hplans', hall⟩ := h.exists_plan hbase' hplans
  refine ⟨plans', hplans', fun hapart assemblyName heq => ?_, fun hclear assemblyName => ?_⟩
  · exact Resigned.slots_ne_of_apart hall hlisted h hbase hbase' hapart
      (List.map_injective_iff.2 (slotTexts_injective assemblyName) heq)
  · obtain ⟨hswapped, hdiffer⟩ := Resigned.swapped_slots hall hlisted h hbase hbase' hne hclear
    exact hashedText_ne hswapped hne hdiffer assemblyName

end Image

namespace Draft

def overloadHeader : Header where
  headerCrc := 4110537047
  assemblyCrc := 3017953666
  flags := 0
  nativeChecksum := 0
  patchEntryOffset := 0xFFFFFFFF
  version := .zero
  assemblyName := 9
  stringTableVersion := 1
  starts := #v[124, 124, 124, 124, 124, 148, 148, 196, 196, 196, 196, 196, 212, 228, 228, 228]
  patchedMethodCount := 0
  paddings := #v[0, 0, 0, 0, 0, 0, 0, 0, 0, 0, 0, 2, 3, 0, 0, 0]

/-- A type `T` with native methods `On`, of a class and of a value type, and `Off`. -/
def overloadFront : Bytes :=
  #[7, 0, 255, 255, 255, 255, 255, 255, 0, 0, 255, 255, 0, 0, 0, 0, 3, 17, 0, 0, 0, 0, 0, 0,
    0, 0, 255, 255, 16, 0, 0, 0, 0, 1, 0, 0, 255, 255, 0, 0,
    0, 0, 255, 255, 16, 0, 0, 0, 0, 1, 0, 0, 255, 255, 5, 0]

/-- The record of `Off` with the signature at a place. -/
def overloadRecord (sig : UInt8) : Bytes := #[3, 0, 255, 255, 16, 0, 0, 0, 0, 0, 0, 0, 255, 255, sig, 0]

def overloadBack : Bytes :=
  #[79, 110, 0, 79, 102, 102, 0, 84, 0, 72, 111, 109, 101, 0, 0, 0,
    0, 1, 0, 17, 0, 0, 1, 0, 18, 0, 0, 0, 0, 0, 0, 0]

def overloadImage (sig : UInt8) : Bytes :=
  overloadHeader.encode.toArray ++ overloadFront ++ overloadRecord sig ++ overloadBack

def overloads (sig : UInt8) : Image := Image.view (overloadImage sig) overloadHeader

def overloadType : TypeDef := ⟨7, 0xFFFF, 0xFFFF, 0xFFFF, ⟨0⟩, 0xFFFF, 0, 0, 0, 3, 17, 0, 0, 0, 0⟩

/-- A static native method with a name, a number of parameters and a signature. -/
def overload (name : UInt16) (count : UInt8) (sig : UInt16) : MethodDef :=
  ⟨name, 0xFFFF, ⟨16⟩, 0, count, 0, 0, 0xFFFF, sig⟩

def ofClass : MethodSignature := ⟨false, .primitive .void, [.classType ⟨0x04000000⟩]⟩

def ofValueType : MethodSignature := ⟨false, .primitive .void, [.valueType ⟨0x04000000⟩]⟩

def ofNothing : MethodSignature := ⟨false, .primitive .void, []⟩

/-- What the two images hold. -/
theorem read_overloads :
    (overloads 10).typeCount = 1 ∧ (overloads 10).get TypeDef 0 = .ok overloadType ∧
    (overloads 10).className .identifier 0 = .ok "T" ∧
    (overloads 10).get MethodDef 0 = .ok (overload 0 1 0) ∧ (overloads 10).get MethodDef 1 = .ok (overload 0 1 5) ∧
    (overloads 10).get MethodDef 2 = .ok (overload 3 0 10) ∧ (overloads 0).get MethodDef 2 = .ok (overload 3 0 0) ∧
    (overloads 10).readSignature SignatureReader.method 0 = .ok ofClass ∧
    (overloads 10).readSignature SignatureReader.method 5 = .ok ofValueType ∧
    (overloads 10).readSignature SignatureReader.method 10 = .ok ofNothing ∧
    (overloads 0).readSignature SignatureReader.method 0 = .ok ofClass := by
  decide +kernel

theorem named_overloads :
    (overloads 10).methodIdentifier .plain (overload 0 1 0) ofClass = .ok "On___STATIC__VOID__T" ∧
    (overloads 10).methodIdentifier .plain (overload 0 1 5) ofValueType = .ok "On___STATIC__VOID__T" ∧
    (overloads 10).methodIdentifier .plain (overload 3 0 10) ofNothing = .ok "Off___STATIC__VOID" ∧
    (overloads 0).methodIdentifier .plain (overload 3 0 0) ofClass = .ok "Off___STATIC__VOID__T" := by
  decide +kernel

theorem based_overloads :
    (overloads 10).Based .plain 0 ofClass "On___STATIC__VOID__T" ∧
    (overloads 10).Based .plain 1 ofValueType "On___STATIC__VOID__T" ∧
    (overloads 10).Based .plain 2 ofNothing "Off___STATIC__VOID" ∧
    (overloads 0).Based .plain 2 ofClass "Off___STATIC__VOID__T" := by
  obtain ⟨-, -, -, hfirst, hsecond, hoff, hoff', hclass, hvalue, hnothing, hclass'⟩ := read_overloads
  obtain ⟨hname₀, hname₁, hname₂, hname₂'⟩ := named_overloads
  exact ⟨⟨_, hfirst, by decide, hclass, hname₀⟩, ⟨_, hsecond, by decide, hvalue, hname₁⟩,
    ⟨_, hoff, by decide, hnothing, hname₂⟩, ⟨_, hoff', by decide, hclass', hname₂'⟩⟩

theorem laid_overloads :
    overloadHeader.checkExtents (overloadImage 10).size = .ok () ∧ 2 < (overloads 10).count .methodDef ∧
    (overloadHeader.encode.toArray ++ overloadFront).size =
      overloadHeader.start .methodDef + 2 * Row.size MethodDef ∧
    (overloads 10).resolveOwners = .ok ⟨#[], #[some 0, some 0, some 0]⟩ ∧
    (overloads 10).resolveOffsets .bare = .ok #[] := by
  decide +kernel

theorem resigned_overloads : (overloads 10).Resigned 2 (overloads 0) := by
  obtain ⟨-, -, -, -, -, hoff, hoff', -⟩ := read_overloads
  obtain ⟨hextents, hcount, hfront, -⟩ := laid_overloads
  refine Image.Resigned.of_replace (Header.checkExtents_iff.1 hextents) hfront rfl rfl hcount ?_
  intro m m' hm hm'
  cases hoff.symm.trans hm
  cases hoff'.symm.trans hm'
  exact ⟨rfl, rfl⟩

theorem exists_plan_overloads :
    ∃ methods, (overloads 10).plan .plain = .ok [⟨0, overloadType, "T", methods⟩] := by
  obtain ⟨hcount, htype, hclass, -⟩ := read_overloads
  obtain ⟨hbased₀, hbased₁, hbased₂, -⟩ := based_overloads
  have hmethods : ∃ methods, (overloads 10).planMethods .plain overloadType.isEligible .empty
      overloadType.methods.toList = .ok methods := by
    refine Image.exists_planMethods_iff.2 fun i hi => ?_
    have hbased : ∃ signature base, (overloads 10).Based .plain i signature base := by
      have hcases : i = 0 ∨ i = 1 ∨ i = 2 := by
        obtain ⟨-, hstop⟩ := IndexRange.mem_toList.1 hi
        have hlt : i < 3 := hstop
        omega
      rcases hcases with rfl | rfl | rfl
      · exact ⟨_, _, hbased₀⟩
      · exact ⟨_, _, hbased₁⟩
      · exact ⟨_, _, hbased₂⟩
    obtain ⟨signature, base, m, hm, -, hsignature, hbase⟩ := hbased
    exact ⟨m, hm, fun _ => ⟨signature, base, hsignature, hbase⟩⟩
  obtain ⟨methods, hmethods⟩ := hmethods
  refine ⟨methods, mapM_range_eq_ok.2 ⟨hcount.symm, fun i hi => ?_⟩⟩
  obtain rfl : i = 0 := Nat.lt_one_iff.1 hi
  exact bind_eq_ok.2 ⟨_, htype, bind_eq_ok.2 ⟨_, hclass, bind_eq_ok.2 ⟨_, hmethods, rfl⟩⟩⟩

theorem load_overloads :
    Assembly.load .bare (overloadImage 10) = .ok ⟨overloads 10, ⟨#[], #[some 0, some 0, some 0]⟩, #[]⟩ := by
  obtain ⟨hextents, -, -, howners, hoffsets⟩ := laid_overloads
  have hbody : overloadImage 10 =
      overloadHeader.encode.toArray ++ (overloadFront ++ (overloadRecord 10 ++ overloadBack)) := by
    rw [overloadImage, Array.append_assoc, Array.append_assoc]
  rw [overloads, hbody] at howners hoffsets ⊢
  exact Assembly.load_encode Array.toList_append (hbody ▸ hextents) howners hoffsets

/-- A class and a value type of one name are spelled alike, so that two methods with one name and the same flags
share an identifier although their signatures differ. -/
theorem overloads_share_identifier :
    ∃ a : Assembly, Assembly.load .bare (overloadImage 10) = .ok a ∧
      a.get TypeDef 0 = .ok overloadType ∧ overloadType.isEligible = true ∧
      0 ∈ overloadType.methods ∧ 1 ∈ overloadType.methods ∧
      a.get MethodDef 0 = .ok (overload 0 1 0) ∧ a.get MethodDef 1 = .ok (overload 0 1 5) ∧
      ofClass.params ≠ ofValueType.params ∧
      a.Based .plain 0 ofClass "On___STATIC__VOID__T" ∧ a.Based .plain 1 ofValueType "On___STATIC__VOID__T" := by
  obtain ⟨-, htype, -, hfirst, hsecond, -⟩ := read_overloads
  obtain ⟨hbased₀, hbased₁, -⟩ := based_overloads
  exact ⟨_, load_overloads, htype, by decide, by decide, by decide, hfirst, hsecond, by decide, hbased₀, hbased₁⟩

theorem identifiers_tell_spellings_overloads :
    ∃ plans plans', (overloads 10).plan .plain = .ok plans ∧ (overloads 0).plan .plain = .ok plans' ∧
      ∀ assemblyName, hashedText assemblyName (slots plans) ≠ hashedText assemblyName (slots plans') := by
  obtain ⟨methods, hplans⟩ := exists_plan_overloads
  obtain ⟨hbased₀, hbased₁, hbased₂, hbased₂'⟩ := based_overloads
  have hlisted : ∃ plan ∈ [(⟨0, overloadType, "T", methods⟩ : TypePlan)],
      plan.eligible = true ∧ 2 ∈ plan.record.methods :=
    ⟨_, List.mem_singleton_self _, show overloadType.isEligible = true by decide,
      show 2 ∈ overloadType.methods by decide⟩
  have hspelled : ¬ List.Forall₂ (overloads 10).SpelledAlike [.primitive .void] (ofClass.result :: ofClass.params) :=
    fun h => absurd h.length_eq (by decide)
  -- both overloads of `On` have one base, whose second letter sets its forms apart from the bases of `Off`
  have hforms : ∀ n, Namer.numbered "On___STATIC__VOID__T" n ≠ "Off___STATIC__VOID" ∧
      Namer.numbered "On___STATIC__VOID__T" n ≠ "Off___STATIC__VOID__T" := by
    intro n
    have hsecond : (Namer.numbered "On___STATIC__VOID__T" n).toList[1]? = some 'n' := by
      unfold Namer.numbered
      split
      · rfl
      · rw [String.toList_append, String.toList_append]
        rfl
    constructor <;>
    · intro heq
      rw [heq] at hsecond
      cases hsecond
  obtain ⟨plans', hplans', -, hhashed⟩ := (Image.identifiers_tell_spellings (overloads 10) .plain).2.2 hplans
    resigned_overloads hbased₂ hbased₂' hlisted hspelled
  refine ⟨_, plans', hplans, hplans', hhashed fun plan hplan _ _ i hi hne t c hbased n _ => ?_⟩
  obtain rfl := List.mem_singleton.1 hplan
  have hlow : i = 0 ∨ i = 1 := by
    obtain ⟨-, hstop⟩ := hi
    have hlt : i < 3 := hstop
    omega
  rcases hlow with rfl | rfl
  · obtain ⟨-, rfl⟩ := hbased₀.unique hbased
    exact hforms n
  · obtain ⟨-, rfl⟩ := hbased₁.unique hbased
    exact hforms n

end Draft

end CompactAssembly

import CompactAssembly.Binding.Plan
import CompactAssembly.Proofs.Ownership

/-!
# What a plan says

A plan of all types follows the tables: the plan of a type holds its record, the name of its class and,
for each method of its range in order, the record and whether it is native (`plan_ok`). Where the ranges
run through the whole table, the slots of a plan stand at the positions of the methods (`getElem?_slots`).
-/

namespace CompactAssembly

/-- The plan of the method at an index, in a type that is eligible or not. -/
structure MethodPlan.Of (image : Image) (eligible : Bool) (index : Nat) (m : MethodPlan) : Prop where
  record : image.get MethodDef index = .ok m.record
  native : m.native?.isSome = (eligible && m.record.isEligible)
  signature : ∀ native, m.native? = some native →
    image.readSignature SignatureReader.method m.record.sig = .ok native.signature

/-- The plan of the type at an index. -/
structure TypePlan.Of (image : Image) (i : Nat) (plan : TypePlan) : Prop where
  index : plan.index = i
  record : image.get TypeDef i = .ok plan.record
  className : image.className .identifier i = .ok plan.className
  methods : List.Forall₂ (MethodPlan.Of image plan.eligible) plan.record.methods.toList plan.methods

namespace Image
variable {image : Image} {policy : NamingPolicy}

theorem planNative_ok_iff {eligible : Bool} {namer namer' : Namer} {m : MethodDef} {native? : Option NativeMethod} :
    image.planNative policy eligible namer m = .ok (native?, namer') ↔
      ((eligible && m.isEligible) = false ∧ native? = none ∧ namer' = namer) ∨
      ((eligible && m.isEligible) = true ∧ ∃ signature base,
        image.readSignature SignatureReader.method m.sig = .ok signature ∧
        image.methodIdentifier policy m signature = .ok base ∧
        native? = some ⟨(namer.next base).1, signature⟩ ∧ namer' = (namer.next base).2) := by
  unfold planNative
  constructor
  · intro h
    split at h
    · next heligible =>
      obtain ⟨signature, hsignature, h⟩ := bind_eq_ok.1 h
      obtain ⟨base, hbase, h⟩ := bind_eq_ok.1 h
      cases h
      exact .inr ⟨heligible, signature, base, hsignature, hbase, rfl, rfl⟩
    · next heligible =>
      cases h
      exact .inl ⟨Bool.eq_false_iff.2 heligible, rfl, rfl⟩
  · rintro (⟨heligible, rfl, rfl⟩ | ⟨heligible, signature, base, hsignature, hbase, rfl, rfl⟩)
    · rw [if_neg (Bool.eq_false_iff.1 heligible)]
    · rw [if_pos heligible]
      exact bind_eq_ok.2 ⟨signature, hsignature, bind_eq_ok.2 ⟨base, hbase, rfl⟩⟩

/-- The first method is planned with the namer as it is, the others with what it left. -/
theorem planMethods_cons_ok_iff {eligible : Bool} {namer : Namer} {index : Nat} {indices : List Nat}
    {plans : List MethodPlan} :
    image.planMethods policy eligible namer (index :: indices) = .ok plans ↔
      ∃ record native? next rest, image.get MethodDef index = .ok record ∧
        image.planNative policy eligible namer record = .ok (native?, next) ∧
        image.planMethods policy eligible next indices = .ok rest ∧ plans = ⟨record, native?⟩ :: rest := by
  constructor
  · intro h
    obtain ⟨record, hrecord, h⟩ := bind_eq_ok.1 h
    obtain ⟨⟨native?, next⟩, hnative, h⟩ := bind_eq_ok.1 h
    obtain ⟨rest, hrest, h⟩ := bind_eq_ok.1 h
    cases h
    exact ⟨record, native?, next, rest, hrecord, hnative, hrest, rfl⟩
  · rintro ⟨record, native?, next, rest, hrecord, hnative, hrest, rfl⟩
    exact bind_eq_ok.2 ⟨record, hrecord, bind_eq_ok.2 ⟨(native?, next), hnative, bind_eq_ok.2 ⟨rest, hrest, rfl⟩⟩⟩

theorem planType_ok_iff {index : Nat} {plan : TypePlan} : image.planType policy index = .ok plan ↔
    ∃ record className methods, image.get TypeDef index = .ok record ∧
      image.className .identifier index = .ok className ∧
      image.planMethods policy record.isEligible .empty record.methods.toList = .ok methods ∧
      plan = ⟨index, record, className, methods⟩ := by
  constructor
  · intro h
    obtain ⟨record, hrecord, h⟩ := bind_eq_ok.1 h
    obtain ⟨className, hclass, h⟩ := bind_eq_ok.1 h
    obtain ⟨methods, hmethods, h⟩ := bind_eq_ok.1 h
    cases h
    exact ⟨record, className, methods, hrecord, hclass, hmethods, rfl⟩
  · rintro ⟨record, className, methods, hrecord, hclass, hmethods, rfl⟩
    exact bind_eq_ok.2 ⟨record, hrecord, bind_eq_ok.2 ⟨className, hclass, bind_eq_ok.2 ⟨methods, hmethods, rfl⟩⟩⟩

theorem planMethods_of_mem {plans : List TypePlan} (h : image.plan policy = .ok plans) {plan : TypePlan}
    (hplan : plan ∈ plans) :
    image.planMethods policy plan.eligible .empty plan.record.methods.toList = .ok plan.methods := by
  obtain ⟨-, h⟩ := mapM_range_eq_ok.1 h
  obtain ⟨index, hindex, heq⟩ := List.getElem_of_mem hplan
  obtain ⟨record, className, methods, -, -, hmethods, hmade⟩ := planType_ok_iff.1 (h index hindex)
  rw [← heq, hmade]
  exact hmethods

theorem planMethods_ok {eligible : Bool} {namer : Namer} {indices : List Nat} {plans : List MethodPlan}
    (h : image.planMethods policy eligible namer indices = .ok plans) :
    List.Forall₂ (MethodPlan.Of image eligible) indices plans := by
  induction indices generalizing namer plans with
  | nil =>
    cases h
    exact .nil
  | cons index indices ih =>
    obtain ⟨record, native?, next, rest, hrecord, hnative, hrest, rfl⟩ := planMethods_cons_ok_iff.1 h
    refine .cons ?_ (ih hrest)
    rcases planNative_ok_iff.1 hnative with ⟨heligible, rfl, -⟩ | ⟨heligible, signature, base, hsignature, -, rfl, -⟩
    · exact ⟨hrecord, heligible.symm, nofun⟩
    · refine ⟨hrecord, heligible.symm, ?_⟩
      rintro _ ⟨⟩
      exact hsignature

/-- A plan of methods fails only where a record, a signature or a name does not read, whatever names were issued. -/
theorem exists_planMethods_iff {eligible : Bool} {namer : Namer} {indices : List Nat} :
    (∃ plans, image.planMethods policy eligible namer indices = .ok plans) ↔
      ∀ i ∈ indices, ∃ m, image.get MethodDef i = .ok m ∧ ((eligible && m.isEligible) = true →
        ∃ signature base, image.readSignature SignatureReader.method m.sig = .ok signature ∧
          image.methodIdentifier policy m signature = .ok base) := by
  induction indices generalizing namer with
  | nil => exact ⟨fun _ => nofun, fun _ => ⟨[], rfl⟩⟩
  | cons index indices ih =>
    rw [List.forall_mem_cons]
    constructor
    · rintro ⟨plans, h⟩
      obtain ⟨record, native?, next, rest, hrecord, hnative, hrest, -⟩ := planMethods_cons_ok_iff.1 h
      refine ⟨⟨record, hrecord, fun heligible => ?_⟩, ih.1 ⟨rest, hrest⟩⟩
      rcases planNative_ok_iff.1 hnative with ⟨hnone, -, -⟩ | ⟨-, signature, base, hsignature, hbase, -, -⟩
      · cases hnone.symm.trans heligible
      · exact ⟨signature, base, hsignature, hbase⟩
    · rintro ⟨⟨record, hrecord, hreads⟩, hindices⟩
      have hnative : ∃ native? next, image.planNative policy eligible namer record = .ok (native?, next) := by
        cases heligible : eligible && record.isEligible with
        | false => exact ⟨none, namer, planNative_ok_iff.2 (.inl ⟨heligible, rfl, rfl⟩)⟩
        | true =>
          obtain ⟨signature, base, hsignature, hbase⟩ := hreads heligible
          exact ⟨_, _, planNative_ok_iff.2 (.inr ⟨heligible, signature, base, hsignature, hbase, rfl, rfl⟩)⟩
      obtain ⟨native?, next, hnative⟩ := hnative
      obtain ⟨rest, hrest⟩ := ih.2 hindices
      exact ⟨_, planMethods_cons_ok_iff.2 ⟨record, native?, next, rest, hrecord, hnative, hrest, rfl⟩⟩

theorem planType_ok {index : Nat} {plan : TypePlan} (h : image.planType policy index = .ok plan) :
    plan.Of image index := by
  obtain ⟨record, className, methods, hrecord, hclass, hmethods, rfl⟩ := planType_ok_iff.1 h
  exact ⟨rfl, hrecord, hclass, planMethods_ok hmethods⟩

theorem plan_ok {plans : List TypePlan} (h : image.plan policy = .ok plans) :
    plans.length = image.typeCount ∧
      ∀ (index : Nat) (hi : index < plans.length), plans[index].Of image index := by
  obtain ⟨hlen, h⟩ := mapM_range_eq_ok.1 h
  exact ⟨hlen, fun index hi => planType_ok (h index hi)⟩

theorem records_of_plan {plans : List TypePlan} (h : image.plan policy = .ok plans) :
    image.records TypeDef = .ok (plans.map TypePlan.record) := by
  obtain ⟨hlen, h⟩ := plan_ok h
  refine mapM_range_eq_ok.2 ⟨by rw [List.length_map, hlen]; rfl, fun i hi => ?_⟩
  rw [List.getElem_map]
  rw [List.length_map] at hi
  exact (h i hi).record

end Image

theorem exists_getElem?_flatMap {α β γ : Type} {f : α → List β} {g : α → List γ} {as : List α}
    (hlen : ∀ a ∈ as, (f a).length = (g a).length) {i : Nat} {x : β} (h : (as.flatMap f)[i]? = some x) :
    ∃ a ∈ as, ∃ j : Nat, (f a)[j]? = some x ∧ (as.flatMap g)[i]? = (g a)[j]? := by
  induction as generalizing i with
  | nil => cases h
  | cons a as ih =>
    have ha := hlen a List.mem_cons_self
    rw [List.flatMap_cons] at h ⊢
    by_cases hi : i < (f a).length
    · rw [List.getElem?_append_left hi] at h
      exact ⟨a, List.mem_cons_self, i, h, List.getElem?_append_left (ha ▸ hi)⟩
    · have hi := Nat.le_of_not_lt hi
      rw [List.getElem?_append_right hi] at h
      obtain ⟨b, hb, j, hx, hy⟩ := ih (fun b hb => hlen b (List.mem_cons_of_mem _ hb)) h
      refine ⟨b, List.mem_cons_of_mem _ hb, j, hx, ?_⟩
      rw [List.getElem?_append_right (ha ▸ hi), ← ha, hy]

namespace TypePlan.Of
variable {image : Image} {index : Nat} {plan : TypePlan}

theorem method (h : plan.Of image index) {j i : Nat} (hi : plan.record.methods.toList[j]? = some i) :
    i ∈ plan.record.methods ∧ j = i - plan.record.methods.first ∧
      ∃ m, plan.methods[j]? = some m ∧ m.Of image plan.eligible i := by
  obtain ⟨hj, hget⟩ := List.getElem?_eq_some_iff.1 hi
  have hj' : j < plan.methods.length := h.methods.length_eq ▸ hj
  refine ⟨IndexRange.mem_toList.1 (hget ▸ List.getElem_mem hj), ?_, plan.methods[j],
    List.getElem?_eq_getElem hj', ?_⟩
  · simp only [IndexRange.toList, List.getElem_range'] at hget
    omega
  · rw [← hget]
    exact h.methods.get hj hj'

end TypePlan.Of

def TypePlan.slot (plan : TypePlan) (m : MethodPlan) : Option Handler :=
  m.native?.map fun native => ⟨plan.className, native.identifier⟩

theorem slots_eq (plans : List TypePlan) :
    slots plans = plans.flatMap fun plan => plan.methods.map plan.slot := rfl

section
variable {image : Image} {policy : NamingPolicy} {plans : List TypePlan}

/-- Where the ranges run through the method table, the slot at an index is that of the method there. -/
theorem getElem?_slots (h : image.plan policy = .ok plans)
    (ht : plans.flatMap (fun plan => plan.record.methods.toList) = List.range image.methodCount) {i : Nat}
    (hi : i < image.methodCount) :
    ∃ (index : Nat) (plan : TypePlan) (m : MethodPlan), plans[index]? = some plan ∧ plan.Of image index ∧
      i ∈ plan.record.methods ∧ plan.methods[i - plan.record.methods.first]? = some m ∧
      m.Of image plan.eligible i ∧ (slots plans)[i]? = some (plan.slot m) := by
  obtain ⟨-, hof⟩ := Image.plan_ok h
  have hlen : ∀ plan ∈ plans, plan.record.methods.toList.length = (plan.methods.map plan.slot).length := by
    intro plan hplan
    obtain ⟨index, hindex, rfl⟩ := List.getElem_of_mem hplan
    rw [List.length_map, (hof index hindex).methods.length_eq]
  have hrange : (plans.flatMap fun plan => plan.record.methods.toList)[i]? = some i := by
    rw [ht, List.getElem?_range hi]
  obtain ⟨plan, hplan, j, hj, hslot⟩ := exists_getElem?_flatMap hlen hrange
  obtain ⟨index, hindex, rfl⟩ := List.getElem_of_mem hplan
  obtain ⟨hmem, rfl, m, hm, hmof⟩ := (hof index hindex).method hj
  refine ⟨index, _, m, List.getElem?_eq_getElem hindex, hof index hindex, hmem, hm, hmof, ?_⟩
  rw [slots_eq, hslot, List.getElem?_map, hm]
  rfl

theorem length_slots (h : image.plan policy = .ok plans)
    (ht : plans.flatMap (fun plan => plan.record.methods.toList) = List.range image.methodCount) :
    (slots plans).length = image.methodCount := by
  obtain ⟨-, hof⟩ := Image.plan_ok h
  rw [← List.length_range (n := image.methodCount), ← ht, slots_eq, List.length_flatMap, List.length_flatMap]
  refine congrArg List.sum (List.map_congr_left fun plan hplan => ?_)
  obtain ⟨index, hindex, rfl⟩ := List.getElem_of_mem hplan
  rw [List.length_map, (hof index hindex).methods.length_eq]

end

theorem updateText_eq (register : UInt32) (text : String) :
    Checksum.updateText register text = Checksum.update register text.toUTF8.data.toList := by
  rw [Checksum.updateText, Checksum.ofBytes_eq_update]

theorem foldl_updateText (texts : List String) (register : UInt32) :
    texts.foldl Checksum.updateText register =
      Checksum.update register (texts.flatMap fun text => text.toUTF8.data.toList) := by
  induction texts generalizing register with
  | nil => rfl
  | cons text texts ih => rw [List.foldl_cons, ih, updateText_eq, List.flatMap_cons, Checksum.update_append]

theorem toUTF8_join (texts : List String) :
    (String.join texts).toUTF8.data.toList = texts.flatMap fun text => text.toUTF8.data.toList := by
  induction texts with
  | nil => rfl
  | cons text texts ih =>
    rw [String.join_cons, List.flatMap_cons, ← ih, String.toUTF8, String.toByteArray_append, ByteArray.data_append,
      Array.toList_append]
    rfl

theorem foldl_updateText_eq_join (texts : List String) (register : UInt32) :
    texts.foldl Checksum.updateText register = Checksum.updateText register (String.join texts) := by
  rw [foldl_updateText, updateText_eq, toUTF8_join]

end CompactAssembly

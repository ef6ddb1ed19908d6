import CompactAssembly.Proofs.Emission
import CompactAssembly.Proofs.Marshaling

/-!
# Stubs as functions

A struct tells its functions apart by their names and the types of their parameters. The identifiers that native
methods are bound under are distinct, but a stub has the escaped name of its method without a number. Two stubs of a
type are the same function if their methods have one name after escaping and parameters that are passed alike, which
two signatures can have that differ (`Assembly.stub_functions`).
-/

namespace CompactAssembly

namespace NativeType

def all : List NativeType :=
  [void, bool, char, int8, uint8, int16, uint16, int32, uint32, int64, uint64, float, double, string, unsupported]

theorem injective_of_find {name : NativeType → String}
    (h : ∀ type : NativeType, all.find? (fun t => name t = name type) = some type) : Function.Injective name := by
  intro type type' heq
  have hfound := h type
  rw [heq, h type'] at hfound
  exact (Option.some_inj.1 hfound).symm

theorem variableType_injective : Function.Injective variableType :=
  injective_of_find fun type => by cases type <;> rfl

theorem marshalName_injective : Function.Injective marshalName :=
  injective_of_find fun type => by cases type <;> rfl

theorem ofPrimitive_injective : Function.Injective ofPrimitive := by
  intro p p' h
  cases p <;> cases p' <;> first | rfl | cases h

end NativeType

namespace Marshaled

theorem paramType_injective : Function.Injective paramType := by
  -- an array is known by its first letter, a reference by its last
  have hhead : ∀ type : NativeType, type.variableType.toList.head? ≠ some 'C' := by
    intro type
    cases type <;> decide
  have harray : ∀ type : NativeType, (array type).paramType.toList.head? = some 'C' := by
    intro type
    delta paramType
    simp
  have happart : ∀ type type' : NativeType, (value type).paramType ≠ (array type').paramType := by
    intro type type' h
    exact hhead type ((congrArg (fun text => text.toList.head?) h).trans (harray type'))
  have hreference : ∀ (m : Marshaled) (type : NativeType), m.paramType = (byRef type).paramType → m = byRef type := by
    intro m type h
    obtain ⟨type', rfl, heq⟩ := Stub.paramType_eq_reference.1 h
    rw [NativeType.variableType_injective heq]
  intro m m' h
  rcases m with type | type | type <;> rcases m' with type' | type' | type'
  · exact congrArg value (NativeType.variableType_injective h)
  · exact hreference _ _ h
  · exact absurd h (happart type type')
  · exact (hreference _ _ h.symm).symm
  · exact hreference _ _ h
  · exact (hreference _ _ h.symm).symm
  · exact absurd h.symm (happart type' type)
  · exact hreference _ _ h
  · exact congrArg array (NativeType.marshalName_injective ((String.append_right_inj _).1 h))

theorem paramType_ne_object (m : Marshaled) : m.paramType ≠ "CLR_RT_HeapBlock*" := by
  rcases m with type | type | type <;> cases type <;> decide

end Marshaled

namespace Stub

/-- What tells a stub from the other functions of its struct: its name and the types of its parameters. -/
def function (s : Stub) : String × List String :=
  (s.name, (if s.isStatic then [] else ["CLR_RT_HeapBlock*"]) ++ s.params.map Marshaled.paramType ++ ["HRESULT &"])

theorem function_inj {s s' : Stub} :
    s.function = s'.function ↔ s.name = s'.name ∧ s.isStatic = s'.isStatic ∧ s.params = s'.params := by
  constructor
  · intro h
    obtain ⟨hname, hparams⟩ := Prod.mk.inj h
    -- no parameter has the type of the object, so that a stub with an object is none without
    have hapart : ∀ params params' : List Marshaled,
        params.map Marshaled.paramType ≠ "CLR_RT_HeapBlock*" :: params'.map Marshaled.paramType := by
      intro params params' heq
      cases params with
      | nil => cases heq
      | cons param params => exact param.paramType_ne_object (List.cons.inj heq).1
    refine ⟨hname, ?_⟩
    replace hparams := List.append_cancel_right hparams
    cases hstatic : s.isStatic <;> cases hstatic' : s'.isStatic <;> rw [hstatic, hstatic'] at hparams
    · exact ⟨rfl, List.map_injective_iff.2 Marshaled.paramType_injective (List.cons.inj hparams).2⟩
    · exact absurd hparams.symm (hapart _ _)
    · exact absurd hparams (hapart _ _)
    · exact ⟨rfl, List.map_injective_iff.2 Marshaled.paramType_injective hparams⟩
  · rintro ⟨hname, hstatic, hparams⟩
    rw [function, function, hname, hstatic, hparams]

/-- What stands behind the types of the parameters in a declaration. -/
def paramNames (s : Stub) : List String :=
  (if s.isStatic then [] else [" pMngObj"]) ++ (List.range s.params.length).map (" param" ++ toString ·) ++ ["hr"]

theorem length_paramNames (s : Stub) : s.paramNames.length = s.function.2.length := by
  unfold paramNames function
  cases s.isStatic <;> simp

theorem declaration_function (s : Stub) (owner? : Option String) :
    s.declaration owner? = s.result.variableType ++ " " ++ owner?.elim "" (fun owner => owner ++ "::") ++
      s.function.1 ++ "( " ++ ", ".intercalate (List.zipWith (· ++ ·) s.function.2 s.paramNames) ++ " )" := by
  have hparams : List.zipWith (· ++ ·) (s.params.map Marshaled.paramType)
      ((List.range s.params.length).map (" param" ++ toString ·)) =
      (s.params.map Marshaled.paramType).zipIdx.map fun x => x.1 ++ " param" ++ toString x.2 := by
    refine List.ext_getElem (by simp) fun i hi hi' => ?_
    simp [String.append_assoc]
  have hobject : List.zipWith (· ++ ·) (if s.isStatic then [] else ["CLR_RT_HeapBlock*"])
      (if s.isStatic then [] else [" pMngObj"]) = if s.isStatic then [] else ["CLR_RT_HeapBlock* pMngObj"] := by
    cases s.isStatic <;> decide +kernel
  rw [declaration_eq, function, paramNames, List.zipWith_append, List.zipWith_append, hobject, hparams]
  · rfl
  · cases s.isStatic <;> rfl
  · cases s.isStatic <;> simp

end Stub

/-- Elements with a native type, and references and arrays of such. -/
def Element.IsNative : Element → Prop
  | .primitive p | .byRef (.primitive p) | .szArray (.primitive p) => p ≠ .object
  | _ => False

namespace Image
variable {image : Image} {policy : NamingPolicy}

/-- Native methods that stand behind one function: equal names once they are escaped, both static or not, and
parameters that are passed alike. -/
def SharesStub (image : Image) (policy : NamingPolicy) (x y : MethodDef × NativeMethod) : Prop :=
  (image.text x.1.name).map (Naming.escape policy) = (image.text y.1.name).map (Naming.escape policy) ∧
  x.1.isStatic = y.1.isStatic ∧ x.2.signature.params.map image.marshaled = y.2.signature.params.map image.marshaled

theorem marshaled_of_isNative {e : Element} (he : e.IsNative) : ∃ p, p ≠ .object ∧
    ((e = .primitive p ∧ image.marshaled e = .ok (.value (.ofPrimitive p))) ∨
      (e = .byRef (.primitive p) ∧ image.marshaled e = .ok (.byRef (.ofPrimitive p))) ∨
      (e = .szArray (.primitive p) ∧ image.marshaled e = .ok (.array (.ofPrimitive p)))) := by
  rcases e with p | inner | inner | _ | _ | _
  · exact ⟨p, he, .inl ⟨rfl, rfl⟩⟩
  · cases inner with
    | primitive p =>
      refine ⟨p, he, .inr (.inl ⟨rfl, ?_⟩)⟩
      cases p <;> first | rfl | exact absurd rfl he
    | _ => cases he
  · cases inner with
    | primitive p =>
      refine ⟨p, he, .inr (.inr ⟨rfl, ?_⟩)⟩
      cases p <;> first | rfl | exact absurd rfl he
    | _ => cases he
  all_goals cases he

theorem marshaled_inj {e e' : Element} (he : e.IsNative) (he' : e'.IsNative) :
    image.marshaled e = image.marshaled e' ↔ e = e' := by
  refine ⟨fun h => ?_, fun h => by rw [h]⟩
  obtain ⟨p, -, ⟨rfl, hp⟩ | ⟨rfl, hp⟩ | ⟨rfl, hp⟩⟩ := image.marshaled_of_isNative he <;>
    obtain ⟨p', -, ⟨rfl, hp'⟩ | ⟨rfl, hp'⟩ | ⟨rfl, hp'⟩⟩ := image.marshaled_of_isNative he' <;>
    rw [hp, hp'] at h <;> simp at h <;> rw [NativeType.ofPrimitive_injective h]

end Image

theorem pairwise_iff_of_forall₂ {α β : Type} {R : α → β → Prop} {P : α → α → Prop} {Q : β → β → Prop} {xs : List α}
    {ys : List β} (h : List.Forall₂ R xs ys) (hiff : ∀ x y x' y', R x y → R x' y' → (P x x' ↔ Q y y')) :
    xs.Pairwise P ↔ ys.Pairwise Q := by
  have hlength := h.length_eq
  rw [List.pairwise_iff_getElem, List.pairwise_iff_getElem]
  constructor
  · intro hall i j hi hj hij
    exact (hiff _ _ _ _ (h.get (hlength ▸ hi) hi) (h.get (hlength ▸ hj) hj)).1 (hall i j _ _ hij)
  · intro hall i j hi hj hij
    exact (hiff _ _ _ _ (h.get hi (hlength ▸ hi)) (h.get hj (hlength ▸ hj))).2 (hall i j _ _ hij)

namespace Assembly
variable {a : Assembly} {policy : NamingPolicy}

theorem function_eq_iff {x y : MethodDef × NativeMethod} {s s' : Stub} (hs : a.stub policy x.1 x.2.signature = .ok s)
    (hs' : a.stub policy y.1 y.2.signature = .ok s') : s.function = s'.function ↔ a.SharesStub policy x y := by
  obtain ⟨name, result, params, hname, -, hparams, rfl⟩ := stub_ok_iff.1 hs
  obtain ⟨name', result', params', hname', -, hparams', rfl⟩ := stub_ok_iff.1 hs'
  have hmap : ∀ {es : List Element} {ps : List Marshaled}, List.Forall₂ (fun e p => a.marshaled e = .ok p) es ps →
      es.map a.marshaled = ps.map .ok := by
    intro es ps h
    rw [← List.forall₂_eq_eq_eq, List.forall₂_map_left_iff, List.forall₂_map_right_iff]
    exact h
  have hok : Function.Injective (Except.ok : Marshaled → Except Fault Marshaled) := fun p p' => Except.ok.inj
  rw [Stub.function_inj, Image.SharesStub, hname, hname', hmap hparams, hmap hparams',
    (List.map_injective_iff.2 hok).eq_iff]
  simp [Except.map]

/-- Native methods of a type have distinct identifiers and one stub each, in order, which the header declares and the
source defines. The stubs are distinct functions unless two methods have the same name after escaping and parameters
that are passed alike. Where all parameters have native types, such methods have the same parameters. -/
theorem stub_functions {plans : List TypePlan} {plan : TypePlan} {u : StubUnit} (hplans : a.plan policy = .ok plans)
    (hplan : plan ∈ plans) (hunit : a.stubUnit policy plan = .ok u) :
    (u.stubs.map fun y => y.1.identifier).Nodup ∧
    List.Forall₂ (fun x y => y.1 = x.2 ∧ a.stub policy x.1 x.2.signature = .ok y.2) plan.natives u.stubs ∧
    (∀ y ∈ u.stubs, (∀ owner?, y.2.paramNames.length = y.2.function.2.length ∧
        y.2.declaration owner? = y.2.result.variableType ++ " " ++ owner?.elim "" (fun owner => owner ++ "::") ++
          y.2.function.1 ++ "( " ++ ", ".intercalate (List.zipWith (· ++ ·) y.2.function.2 y.2.paramNames) ++ " )") ∧
      ∀ fileName stem, ∀ artifact ∈ u.artifacts fileName stem,
        (artifact.kind = .stubHeader → Text.Within ("static " ++ y.2.declaration none ++ ";\n") artifact.contents) ∧
        (artifact.kind = .stubSource → Text.Within (y.2.emptyDefinition u.structName) artifact.contents)) ∧
    ((u.stubs.map fun y => y.2.function).Nodup ↔ plan.natives.Pairwise fun x y => ¬ a.SharesStub policy x y) ∧
    ((∀ x ∈ plan.natives, ∀ e ∈ x.2.signature.params, e.IsNative) → ∀ x ∈ plan.natives, ∀ y ∈ plan.natives,
      a.SharesStub policy x y → x.2.signature.params = y.2.signature.params) := by
  have hall := stubs_of_stubUnit hunit
  refine ⟨?_, hall, fun y hy => ⟨fun owner? => ⟨y.2.length_paramNames, y.2.declaration_function owner?⟩, ?_⟩, ?_, ?_⟩
  · obtain ⟨-, hidentifiers⟩ := stubUnit_ok hunit
    rw [hidentifiers]
    exact Image.nodup_identifiers hplans hplan
  · intro fileName stem artifact hartifact
    exact (StubUnit.files_hold_stub hy hartifact).2
  · rw [List.Nodup, List.pairwise_map]
    refine (pairwise_iff_of_forall₂ hall fun x y x' y' hy hy' => ?_).symm
    rw [not_iff_comm, not_not]
    exact function_eq_iff hy.2 hy'.2
  · intro hnative x hx y hy hshares
    obtain ⟨-, -, hparams⟩ := hshares
    have hlength : x.2.signature.params.length = y.2.signature.params.length := by
      simpa using congrArg List.length hparams
    refine List.ext_getElem hlength fun i hi hi' => ?_
    have hparam := List.getElem_of_eq hparams (i := i) (by simpa using hi)
    rw [List.getElem_map, List.getElem_map] at hparam
    exact (Image.marshaled_inj (hnative x hx _ (List.getElem_mem hi)) (hnative y hy _ (List.getElem_mem hi'))).1 hparam

end Assembly

namespace Draft

/-- Two setters with one name, one by number and one by a mode that is stored as a number: their identifiers differ,
but the files declare and define one function twice. -/
theorem setters_share_stub :
    Assembly.load .bare studioImage = .ok studio ∧ studio.plan .interop = .ok studioPlans ∧ lampPlan ∈ studioPlans ∧
    studio.stubUnit .interop lampPlan = .ok lampUnit ∧
    (lampUnit.stubs.map fun y => y.1.identifier) = ["Set___STATIC__VOID__I4", "Set___STATIC__VOID__Mode"] ∧
    (lampUnit.stubs.map fun y => y.2.function) =
      [("Set", ["int32_t", "HRESULT &"]), ("Set", ["int32_t", "HRESULT &"])] ∧
    ∃ artifact ∈ lampUnit.artifacts "Home" ⟨"Home"⟩, artifact.kind = .stubSource ∧ ∃ before, artifact.contents =
      before ++ "void Lamp::Set( int32_t param0, HRESULT &hr )\n\x7b\n\x7d\n\n" ++
        "void Lamp::Set( int32_t param0, HRESULT &hr )\n\x7b\n\x7d\n\n" := by
  refine ⟨load_studio, plan_studio, by simp [studioPlans], stubUnit_studio.1, rfl, rfl, _,
    List.mem_cons_of_mem _ (List.mem_cons_of_mem _ List.mem_cons_self), rfl,
    Artifact.copyFirstBanner ++ lampUnit.includes "Home" ++ lampUnit.usingNamespace, ?_⟩
  decide +kernel

theorem stub_functions_lamp :
    (lampUnit.stubs.map fun y => y.1.identifier).Nodup ∧
    ¬ lampPlan.natives.Pairwise fun x y => ¬ studio.SharesStub .interop x y := by
  have hplan : lampPlan ∈ studioPlans := by simp [studioPlans]
  obtain ⟨hidentifiers, -, -, hfunctions, -⟩ := Assembly.stub_functions plan_studio hplan stubUnit_studio.1
  refine ⟨hidentifiers, fun hpairwise => ?_⟩
  have hnodup := hfunctions.2 hpairwise
  revert hnodup
  decide +kernel

end Draft

end CompactAssembly

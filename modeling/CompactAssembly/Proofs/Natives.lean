import CompactAssembly.Proofs.Resigned
import CompactAssembly.Proofs.Skeletons

/-!
# Native methods of a plan

What a plan says of a native method: its signature is the one its record refers to, and its identifier is a form of
the base that its name and its signature give (`Image.nativeOf_of_plan`). A stub unit holds the stub of each, in
order (`Assembly.stubs_of_stubUnit`).
-/

namespace CompactAssembly

namespace Image
variable {image : Image} {policy : NamingPolicy}

/-- The native method that a plan makes of a record. -/
structure NativeOf (image : Image) (policy : NamingPolicy) (m : MethodDef) (native : NativeMethod) : Prop where
  eligible : m.isEligible = true
  signature : image.readSignature SignatureReader.method m.sig = .ok native.signature
  identifier : ∃ base n, 1 ≤ n ∧ image.methodIdentifier policy m native.signature = .ok base ∧
    native.identifier = Namer.numbered base n

theorem NativeOf.exists_name {m : MethodDef} {native : NativeMethod} (h : image.NativeOf policy m native) :
    ∃ name, image.text m.name = .ok name := by
  obtain ⟨base, n, -, hbase, -⟩ := h.identifier
  obtain ⟨name, hname, -⟩ := bind_eq_ok.1 hbase
  exact ⟨name, hname⟩

theorem nativeOf_of_planMethods {eligible : Bool} {namer : Namer} {indices : List Nat} {plans : List MethodPlan}
    (h : image.planMethods policy eligible namer indices = .ok plans) :
    ∀ m ∈ plans, ∀ native ∈ m.native?, image.NativeOf policy m.record native := by
  induction indices generalizing namer plans with
  | nil =>
    cases h
    simp
  | cons index indices ih =>
    obtain ⟨record, native?, next, rest, -, hnative, hrest, rfl⟩ := planMethods_cons_ok_iff.1 h
    intro m hm native hmem
    rcases List.mem_cons.1 hm with rfl | hm
    · rcases planNative_ok_iff.1 hnative with ⟨-, rfl, -⟩ | ⟨heligible, signature, base, hsignature, hbase, rfl, -⟩
      · cases hmem
      · cases hmem
        obtain ⟨n, hn, hname, -⟩ := namer.exists_next base
        exact ⟨(Bool.and_eq_true _ _ ▸ heligible).2, hsignature, base, n, hn, hbase, hname⟩
    · exact ih hrest m hm native hmem

theorem nativeOf_of_plan {plans : List TypePlan} (h : image.plan policy = .ok plans) {plan : TypePlan}
    (hplan : plan ∈ plans) {m : MethodDef} {native : NativeMethod} (hnative : (m, native) ∈ plan.natives) :
    image.NativeOf policy m native := by
  obtain ⟨planned, hplanned, hnative⟩ := List.mem_filterMap.1 hnative
  obtain ⟨native', hnative', heq⟩ := Option.map_eq_some_iff.1 hnative
  cases heq
  exact nativeOf_of_planMethods (planMethods_of_mem h hplan) planned hplanned native hnative'

end Image

namespace Assembly
variable {a : Assembly} {policy : NamingPolicy} {plan : TypePlan} {u : StubUnit}

theorem stubs_of_stubUnit (h : a.stubUnit policy plan = .ok u) :
    List.Forall₂ (fun x y => y.1 = x.2 ∧ a.stub policy x.1 x.2.signature = .ok y.2) plan.natives u.stubs :=
  (of_stubUnit h).stubs

theorem mem_stubs (h : a.stubUnit policy plan = .ok u) {m : MethodDef} {native : NativeMethod} {s : Stub}
    (hnative : (m, native) ∈ plan.natives) (hs : a.stub policy m native.signature = .ok s) :
    (native, s) ∈ u.stubs := by
  have hall := stubs_of_stubUnit h
  obtain ⟨j, hj, hget⟩ := List.getElem_of_mem hnative
  have hj' : j < u.stubs.length := hall.length_eq ▸ hj
  have hstub := hall.get hj hj'
  simp only [List.get_eq_getElem, hget] at hstub
  obtain ⟨heq, hs'⟩ := hstub
  have hmem : u.stubs[j] = (native, s) := Prod.ext heq (Except.ok.inj (hs'.symm.trans hs))
  exact hmem ▸ List.getElem_mem hj'

end Assembly

end CompactAssembly

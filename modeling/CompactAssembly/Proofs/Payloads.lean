import CompactAssembly.Proofs.ImageLayout

/-!
# Payloads of resources

A record says where its payload starts, and nothing but the record behind it says where the payload ends.
`Draft.Stocks payloads d d'`: these payloads were added, one behind the other, each with a record that holds the
size of the heap before it (`descriptors`); whatever else a step adds does not matter. The record that closes a
draft holds the size of the whole heap, so every payload lies between its record and the next
(`Draft.payloads_of_image`).
-/

namespace CompactAssembly

/-- What a resource is added from. -/
structure Payload where
  id : Int16
  kind : UInt8
  data : List UInt8

def Draft.Step.payloads : Draft.Step → List Payload
  | .resource id kind data => [⟨id, kind, data⟩]
  | _ => []

def heapOf (payloads : List Payload) : List UInt8 := payloads.flatMap Payload.data

theorem heapOf_cons (p : Payload) (ps : List Payload) : heapOf (p :: ps) = p.data ++ heapOf ps := List.flatMap_cons

theorem heapOf_append (ps qs : List Payload) : heapOf (ps ++ qs) = heapOf ps ++ heapOf qs := List.flatMap_append

/-- The records of payloads that lie one behind the other from here on. -/
def descriptors (start : Nat) : List Payload → List Resource
  | [] => []
  | p :: ps => ⟨p.id, p.kind, 0, offsetFor start⟩ :: descriptors (start + p.data.length) ps

theorem length_descriptors (start : Nat) (ps : List Payload) : (descriptors start ps).length = ps.length := by
  induction ps generalizing start with
  | nil => rfl
  | cons p ps ih => rw [descriptors, List.length_cons, ih, List.length_cons]

theorem descriptors_append (start : Nat) (ps qs : List Payload) :
    descriptors start (ps ++ qs) = descriptors start ps ++ descriptors (start + (heapOf ps).length) qs := by
  induction ps generalizing start with
  | nil => rfl
  | cons p ps ih =>
    rw [List.cons_append, descriptors, ih, descriptors, List.cons_append, heapOf_cons, List.length_append,
      Nat.add_assoc]

theorem head_descriptors {start : Nat} {ps : List Payload} {last : Resource}
    (hlast : last.offset.toNat = start + (heapOf ps).length) (hlt : start < 0x100000000) :
    ∃ next rest, descriptors start ps ++ [last] = next :: rest ∧ next.offset.toNat = start := by
  cases ps with
  | nil => exact ⟨last, [], rfl, hlast⟩
  | cons p ps => exact ⟨_, _, rfl, toNat_offsetFor hlt⟩

namespace Draft

/-- These payloads were added, and no other. -/
structure Stocks (payloads : List Payload) (d d' : Draft) : Prop where
  resourcesData : d'.resourcesData.toList = d.resourcesData.toList ++ heapOf payloads
  resources : d'.resources.toList = d.resources.toList ++ descriptors d.resourcesData.size payloads

namespace Stocks
variable {ps qs : List Payload} {a b c : Draft}

theorem refl (d : Draft) : Stocks [] d d where
  resourcesData := (List.append_nil _).symm
  resources := (List.append_nil _).symm

theorem trans (h : Stocks ps a b) (h' : Stocks qs b c) : Stocks (ps ++ qs) a c where
  resourcesData := by
    rw [h'.resourcesData, h.resourcesData, heapOf_append, List.append_assoc]
  resources := by
    have hsize : b.resourcesData.size = a.resourcesData.size + (heapOf ps).length := by
      rw [← Array.length_toList, h.resourcesData, List.length_append, Array.length_toList]
    rw [h'.resources, h.resources, hsize, descriptors_append, List.append_assoc]

theorem withText (d : Draft) (value : String) : Stocks [] d (d.withText value) := by
  obtain ⟨strings, overflow, hd⟩ := d.withText_eq value
  rw [hd]
  exact { refl d with }

theorem withBlob (d : Draft) (value : List UInt8) : Stocks [] d (d.withBlob value) := by
  obtain ⟨signatures, overflow, hd⟩ := d.withBlob_eq value
  rw [hd]
  exact { refl d with }

end Stocks

instance : Lasting (Stocks []) where
  refl := .refl
  trans h h' := h.trans h'
  noting d _ := { Stocks.refl d with }
  withText := .withText
  withBlob := .withBlob

end Draft

namespace Drafting
open Draft

theorem wp_resource (id : Int16) (kind : UInt8) (data : List UInt8) (d : Draft) :
    wp (resource id kind data) (fun _ d' => Stocks [⟨id, kind, data⟩] d d') (fun _ => False) d := by
  unfold resource
  simp only [wp_bind, wp_resourceOffset, wp_modify, wp_get, wp_reference]
  exact {
    resourcesData := by simp only [noting, Array.toList_appendList, heapOf, List.flatMap_singleton]
    resources := Array.toList_push .. }

theorem follows_stocks {step : Step} (h : step.payloads = []) : Follows (Stocks []) step.perform := by
  cases step with
  | text value => exact .text value
  | blob value => exact .blob value
  | body code => exact follows_body_of fun d => { Stocks.refl d with }
  | assemblyRef name version => exact (Follows.text _).bind fun _ => .store (fun d => { Stocks.refl d with }) _
  | typeRef nameSpace name scope =>
    exact (Follows.text _).bind fun _ => (Follows.text _).bind fun _ => .store (fun d => { Stocks.refl d with }) _
  | fieldRef container name type =>
    exact (Follows.ofExcept _).bind fun _ => (Follows.blob _).bind fun _ => (Follows.text _).bind fun _ =>
      .store (fun d => { Stocks.refl d with }) _
  | methodRef container name signature =>
    exact (Follows.ofExcept _).bind fun _ => (Follows.blob _).bind fun _ => (Follows.text _).bind fun _ =>
      .store (fun d => { Stocks.refl d with }) _
  | typeSpec type =>
    exact (Follows.ofExcept _).bind fun _ => (Follows.blob _).bind fun _ =>
      .store (fun d => { Stocks.refl d with }) _
  | attach owner ownerIndex constructor data =>
    exact (Follows.blob _).bind fun _ => .store (fun d => { Stocks.refl d with }) _
  | resource id kind data => cases h
  | resourceFile name resourceCount =>
    exact (Follows.text _).bind fun _ => .store (fun d => { Stocks.refl d with }) _
  | typeDef type =>
    exact follows_typeDef_of (follows_fieldDef_of fun d _ => { Stocks.refl d with })
      (follows_methodDef_of fun d _ => { Stocks.refl d with })
      (follows_typeRecord_of (fun _ => .store (fun d => { Stocks.refl d with }) _) type)

end Drafting

namespace Draft

theorem stocks_apply (d : Draft) (step : Step) : Stocks step.payloads d (d.apply step).2 := by
  by_cases h : step.payloads = []
  · rw [h]
    exact apply_of_follows (Drafting.follows_stocks h) d
  · cases step with
    | resource id kind data =>
      have hadded := Drafting.wp_resource id kind data d
      exact apply_of_wp (Drafting.wp_mono hadded (fun _ _ h => h) fun _ => False.elim)
    | _ => exact absurd rfl h

theorem stocks_applyAll (d : Draft) (steps : List Step) :
    Stocks (steps.flatMap Step.payloads) d (d.applyAll steps).2 := by
  induction steps generalizing d with
  | nil => exact .refl d
  | cons step steps ih =>
    rw [List.flatMap_cons]
    exact (stocks_apply d step).trans (ih _)

theorem stocks_built (name : String) (version : Version) (steps : List Step) :
    (built name version steps).resourcesData.toList = heapOf (steps.flatMap Step.payloads) ∧
      (built name version steps).resources.toList = descriptors 0 (steps.flatMap Step.payloads) := by
  have h := stocks_applyAll (Draft.named name version) steps
  exact ⟨h.resourcesData, h.resources⟩

theorem getElem?_neighbours {α : Type} {rows : Array α} {before after : List α} {x y : α}
    (h : rows.toList = before ++ x :: y :: after) :
    rows[before.length]? = some x ∧ rows[before.length + 1]? = some y := by
  constructor
  · rw [← Array.getElem?_toList, h, List.getElem?_append_right (Nat.le_refl _), Nat.sub_self,
      List.getElem?_cons_zero]
  · rw [← Array.getElem?_toList, h, List.getElem?_append_right (Nat.le_add_right ..), Nat.add_sub_cancel_left,
      List.getElem?_cons_succ, List.getElem?_cons_zero]

/-- Each payload of a draft has its record, and behind it another one that says where the payload ends. -/
theorem exists_descriptor {d : Draft} {before after : List Payload} {p : Payload}
    (hdata : d.resourcesData.toList = heapOf (before ++ p :: after))
    (hrows : d.resources.toList = descriptors 0 (before ++ p :: after))
    (hlt : d.resources.isEmpty = false → d.resourcesData.size < 0x100000000) :
    ∃ record next, d.closedResources[before.length]? = some record ∧ record.id = p.id ∧ record.kind = p.kind ∧
      d.closedResources[before.length + 1]? = some next ∧
      record.offset.toNat = (heapOf before).length ∧
      next.offset.toNat = (heapOf before).length + p.data.length := by
  rw [descriptors_append, Nat.zero_add, descriptors] at hrows
  have hsome : d.resources.isEmpty = false := by
    rw [← Array.isEmpty_toList, hrows]
    simp
  have hsize : (heapOf before).length + (p.data.length + (heapOf after).length) = d.resourcesData.size := by
    rw [← Array.length_toList, hdata, heapOf_append, heapOf_cons, List.length_append, List.length_append]
  specialize hlt hsome
  let last : Resource := ⟨0, 0, 0, UInt32.ofNat d.resourcesData.size⟩
  have hlast : last.offset.toNat = (heapOf before).length + p.data.length + (heapOf after).length := by
    rw [Nat.add_assoc, hsize]
    exact UInt32.toNat_ofNat_of_lt' hlt
  -- the records behind this one, or the one that closes the draft if there is none
  obtain ⟨next, rest, hrest, hnext⟩ := head_descriptors hlast (by omega)
  have hclosed : d.closedResources.toList = descriptors 0 before ++
      ⟨p.id, p.kind, 0, offsetFor (heapOf before).length⟩ :: next :: rest := by
    rw [closedResources, hsome, if_neg Bool.false_ne_true, Array.toList_push, hrows, List.append_assoc,
      List.cons_append, hrest]
  obtain ⟨hrecord, hbehind⟩ := getElem?_neighbours hclosed
  rw [length_descriptors] at hrecord hbehind
  exact ⟨_, next, hrecord, rfl, rfl, hbehind, toNat_offsetFor (by omega), hnext⟩

/-- Every resource comes back from the image, with the very bytes it was added with: its record is as far in as it
was added, the next record is there too, and the bytes between their offsets are the payload. -/
theorem payloads_of_image {name : String} {version : Version} {steps : List Step} {image : Bytes}
    (h : (built name version steps).image = .ok image) {i : Nat} {p : Payload}
    (hp : (steps.flatMap Step.payloads)[i]? = some p) :
    ∃ view heap record next, Image.ofBytes image = .ok view ∧ view.region .resourcesData = .ok heap ∧
      view.get Resource i = .ok record ∧ record.id = p.id ∧ record.kind = p.kind ∧
      view.get Resource (i + 1) = .ok next ∧
      record.offset.toNat ≤ next.offset.toNat ∧ next.offset.toNat ≤ heap.size ∧
      (heap.extract record.offset.toNat next.offset.toNat).toList = p.data := by
  obtain ⟨header, hc⟩ := closes_of_image h
  obtain ⟨hdata, hrows⟩ := stocks_built name version steps
  obtain ⟨hi, hget⟩ := List.getElem?_eq_some_iff.1 hp
  obtain ⟨before, after, hsplit, hbefore⟩ :
      ∃ before after, steps.flatMap Step.payloads = before ++ p :: after ∧ before.length = i :=
    ⟨_, _, by rw [← hget, ← List.drop_eq_getElem_cons hi, List.take_append_drop], List.length_take_of_le hi.le⟩
  rw [hsplit] at hdata hrows
  obtain ⟨record, next, hrecord, hid, hkind, hnext, hstart, hstop⟩ :=
    exists_descriptor hdata hrows hc.resourcesData
  rw [hbefore] at hrecord hnext
  obtain ⟨hri, hr⟩ := Array.getElem?_eq_some_iff.1 hrecord
  obtain ⟨hni, hn⟩ := Array.getElem?_eq_some_iff.1 hnext
  have hheld : (built name version steps).resourcesData.HoldsAt (heapOf before).length p.data :=
    ⟨heapOf before, heapOf after, by rw [hdata, heapOf_append, heapOf_cons], rfl⟩
  refine ⟨Image.view image header, (built name version steps).resourcesData, record, next, hc.laid.ofBytes,
    hc.holds.resourcesData, ?_, hid, hkind, ?_, ?_, ?_, ?_⟩
  · rw [hc.holds.resources.get_view hri, hr]
  · rw [hc.holds.resources.get_view hni, hn]
  · rw [hstart, hstop]
    exact Nat.le_add_right ..
  · rw [hstop]
    exact hheld.le_size
  · rw [hstart, hstop, hheld.extract]

/-- An empty payload between others, of which the last is closed by no resource. -/
def parcelSteps : List Step :=
  [.resource 1 4 [10, 20], .text "between", .resource (-2) 0 [], .body [42], .resource 3 2 [30, 40, 50]]

theorem payloads_of_image_parcel :
    ∃ image view heap record next, (built "Parcel" .zero parcelSteps).image = .ok image ∧
      (parcelSteps.flatMap Step.payloads)[2]? = some ⟨3, 2, [30, 40, 50]⟩ ∧
      Image.ofBytes image = .ok view ∧ view.region .resourcesData = .ok heap ∧
      view.get Resource 2 = .ok record ∧ view.get Resource 3 = .ok next ∧
      (heap.extract record.offset.toNat next.offset.toNat).toList = [30, 40, 50] := by
  obtain ⟨image, -, h, -⟩ := image_closes (close_ok (d := built "Parcel" .zero parcelSteps) (by cbv)) (by cbv)
    (by cbv)
  have hlast : (parcelSteps.flatMap Step.payloads)[2]? = some ⟨3, 2, [30, 40, 50]⟩ := rfl
  obtain ⟨view, heap, record, next, hview, hheap, hrecord, -, -, hnext, -, -, hbytes⟩ :=
    payloads_of_image h hlast
  exact ⟨image, view, heap, record, next, h, hlast, hview, hheap, hrecord, hnext, hbytes⟩

end Draft

end CompactAssembly

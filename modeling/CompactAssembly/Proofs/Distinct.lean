import CompactAssembly.Proofs.Planning
import Mathlib.Data.List.Perm.Subperm
import Std.Data.String.ToNat

/-!
# Names are handed out once

Numbers give a name distinct forms, and of more forms than names were issued one is free, so that the
search of `Namer.next` ends at a name not issued before (`next_not_mem`). A plan asks one namer for all
methods of a type, hence the identifiers of a type are distinct (`nodup_identifiers`).
-/

namespace CompactAssembly

namespace Namer
variable {issued : Std.HashSet String} {namer : Namer} {base name : String}

theorem numbered_injective (base : String) : Function.Injective (numbered base) := by
  have hplain : ∀ n : Nat, base ≠ base ++ "_" ++ toString n := by
    intro n h
    have hlen := congrArg String.length h
    rw [String.length_append, String.length_append] at hlen
    have hmark : "_".length = 1 := rfl
    omega
  intro m n h
  unfold numbered at h
  split at h <;> split at h
  · omega
  · exact absurd h (hplain n)
  · exact absurd h.symm (hplain m)
  · exact Nat.repr_injective ((String.append_right_inj _).1 h)

/-- The search passes taken names only, and stops at a free one if it has tries left. -/
theorem firstFree_spec (issued : Std.HashSet String) (base : String) (tries number : Nat) :
    ∃ k ≤ tries, firstFree issued base tries number = number + k ∧
      (∀ j < k, numbered base (number + j) ∈ issued) ∧
      (k < tries → numbered base (number + k) ∉ issued) := by
  induction tries generalizing number with
  | zero => exact ⟨0, Nat.le_refl 0, rfl, nofun, nofun⟩
  | succ tries ih =>
    unfold firstFree
    by_cases hmem : numbered base number ∈ issued
    · rw [if_pos hmem]
      obtain ⟨k, hk, heq, htaken, hfree⟩ := ih (number + 1)
      refine ⟨k + 1, by omega, by omega, fun j hj => ?_, fun hlt => ?_⟩
      · cases j with
        | zero => exact hmem
        | succ j =>
          have := htaken j (by omega)
          rwa [Nat.add_assoc, Nat.add_comm 1 j] at this
      · have := hfree (by omega)
        rwa [Nat.add_assoc, Nat.add_comm 1 k] at this
    · rw [if_neg hmem]
      exact ⟨0, Nat.zero_le _, rfl, nofun, fun _ => hmem⟩

theorem le_length_of_numbered_mem {names : List String} {number count : Nat}
    (h : ∀ k < count, numbered base (number + k) ∈ names) : count ≤ names.length := by
  have hnodup : ((List.range count).map fun k => numbered base (number + k)).Nodup :=
    List.nodup_range.map fun j k h => Nat.add_left_cancel (numbered_injective base h)
  have hnames : ((List.range count).map fun k => numbered base (number + k)) ⊆ names := by
    intro name hname
    obtain ⟨k, hk, rfl⟩ := List.mem_map.1 hname
    exact h k (List.mem_range.1 hk)
  have hle := (List.subperm_of_subset hnodup hnames).length_le
  rwa [List.length_map, List.length_range] at hle

theorem exists_free (issued : Std.HashSet String) (base : String) (number : Nat) :
    ∃ k ≤ issued.size, numbered base (number + k) ∉ issued := by
  by_contra! hall
  have hle : issued.size + 1 ≤ issued.toList.length :=
    le_length_of_numbered_mem fun k hk => Std.HashSet.mem_toList.2 (hall k (Nat.le_of_lt_succ hk))
  rw [Std.HashSet.length_toList] at hle
  omega

theorem numbered_firstFree_not_mem (issued : Std.HashSet String) (base : String) (number : Nat) :
    numbered base (firstFree issued base issued.size number) ∉ issued := by
  obtain ⟨k, hk, heq, htaken, hfree⟩ := firstFree_spec issued base issued.size number
  rw [heq]
  rcases Nat.lt_or_eq_of_le hk with hlt | rfl
  · exact hfree hlt
  · obtain ⟨j, hj, hjfree⟩ := exists_free issued base number
    rcases Nat.lt_or_eq_of_le hj with hlt | rfl
    · exact absurd (htaken j hlt) hjfree
    · exact hjfree

theorem next_not_mem (namer : Namer) (base : String) : (namer.next base).1 ∉ namer.issued :=
  numbered_firstFree_not_mem namer.issued base (namer.numbers.getD base 0 + 1)

theorem mem_issued_next {namer : Namer} :
    name ∈ (namer.next base).2.issued ↔ name = (namer.next base).1 ∨ name ∈ namer.issued := by
  rw [eq_comm]
  exact Std.HashSet.mem_insert.trans (or_congr_left beq_iff_eq)

/-- A name that was neither asked for nor handed out. -/
structure Unused (namer : Namer) (base : String) : Prop where
  issued : base ∉ namer.issued
  numbers : namer.numbers.getD base 0 = 0

theorem unused_empty (base : String) : Unused .empty base :=
  ⟨Std.HashSet.not_mem_empty, Std.HashMap.getD_empty⟩

theorem Unused.next_eq (h : namer.Unused base) :
    namer.next base = (base, ⟨namer.numbers.insert base 1, namer.issued.insert base⟩) := by
  have hnumber : firstFree namer.issued base namer.issued.size (namer.numbers.getD base 0 + 1) = 1 := by
    rw [h.numbers]
    cases namer.issued.size with
    | zero => rfl
    | succ tries => exact if_neg h.issued
  unfold Namer.next
  simp only [hnumber]
  rfl

theorem Unused.next_of_unused {base' : String} (h : namer.Unused base) (h' : namer.Unused base') (hne : base' ≠ base) :
    (namer.next base').2.Unused base := by
  rw [h'.next_eq]
  have hbeq : (base' == base) ≠ true := mt beq_iff_eq.1 hne
  exact ⟨fun hmem => (Std.HashSet.mem_insert.1 hmem).elim hbeq h.issued,
    by rw [Std.HashMap.getD_insert, if_neg hbeq, h.numbers]⟩

end Namer

def MethodPlan.identifier? (m : MethodPlan) : Option String := m.native?.map NativeMethod.identifier

theorem TypePlan.slot_eq (plan : TypePlan) (m : MethodPlan) :
    plan.slot m = m.identifier?.map (Handler.mk plan.className) := by
  rw [TypePlan.slot, MethodPlan.identifier?, Option.map_map]
  rfl

/-- The plan of a method whose identifier, if it is native, is its base identifier. -/
def MethodPlan.Unnumbered (image : Image) (policy : NamingPolicy) (eligible : Bool) (index : Nat) (m : MethodPlan) :
    Prop :=
  image.get MethodDef index = .ok m.record ∧ m.native?.isSome = (eligible && m.record.isEligible) ∧
    ∀ native ∈ m.native?, image.readSignature SignatureReader.method m.record.sig = .ok native.signature ∧
      image.methodIdentifier policy m.record native.signature = .ok native.identifier

/-- The identifiers of the native methods of a type, in order. -/
def TypePlan.identifiers (plan : TypePlan) : List String := plan.methods.filterMap MethodPlan.identifier?

namespace Image
variable {image : Image} {policy : NamingPolicy}

/-- One namer names the methods of a type: each differently, and none as it named before. -/
theorem planMethods_nodup {eligible : Bool} {namer : Namer} {indices : List Nat} {plans : List MethodPlan}
    (h : image.planMethods policy eligible namer indices = .ok plans) :
    (plans.filterMap MethodPlan.identifier?).Nodup ∧
      ∀ identifier ∈ plans.filterMap MethodPlan.identifier?, identifier ∉ namer.issued := by
  induction indices generalizing namer plans with
  | nil =>
    cases h
    exact ⟨List.nodup_nil, nofun⟩
  | cons index indices ih =>
    obtain ⟨record, native?, next, rest, -, hnative, hrest, rfl⟩ := planMethods_cons_ok_iff.1 h
    obtain ⟨hnodup, hfresh⟩ := ih hrest
    rcases planNative_ok_iff.1 hnative with ⟨-, rfl, rfl⟩ | ⟨-, signature, base, -, -, rfl, rfl⟩
    · exact ⟨hnodup, hfresh⟩
    · have hcons : (⟨record, some ⟨(namer.next base).1, signature⟩⟩ :: rest).filterMap MethodPlan.identifier? =
          (namer.next base).1 :: rest.filterMap MethodPlan.identifier? := rfl
      rw [hcons, List.nodup_cons, List.forall_mem_cons]
      refine ⟨⟨fun hmem => ?_, hnodup⟩, namer.next_not_mem base, fun identifier hmem hissued => ?_⟩
      · exact hfresh _ hmem (Namer.mem_issued_next.2 (.inl rfl))
      · exact hfresh identifier hmem (Namer.mem_issued_next.2 (.inr hissued))

/-- Base identifiers that are all different are the identifiers. -/
theorem planMethods_of_bases {eligible : Bool} {namer : Namer} {indices : List Nat} {plans : List MethodPlan}
    (h : List.Forall₂ (MethodPlan.Unnumbered image policy eligible) indices plans)
    (hunused : ∀ identifier ∈ plans.filterMap MethodPlan.identifier?, namer.Unused identifier)
    (hnodup : (plans.filterMap MethodPlan.identifier?).Nodup) :
    image.planMethods policy eligible namer indices = .ok plans := by
  induction h generalizing namer with
  | nil => rfl
  | @cons index m indices plans hm _ ih =>
    obtain ⟨record, native?⟩ := m
    obtain ⟨hrecord, hnative, hbase⟩ := hm
    cases native? with
    | none =>
      exact planMethods_cons_ok_iff.2 ⟨record, none, namer, plans, hrecord,
        planNative_ok_iff.2 (.inl ⟨hnative.symm, rfl, rfl⟩), ih hunused hnodup, rfl⟩
    | some native =>
      have hcons : (⟨record, some native⟩ :: plans).filterMap MethodPlan.identifier? =
          native.identifier :: plans.filterMap MethodPlan.identifier? := rfl
      rw [hcons, List.forall_mem_cons] at hunused
      rw [hcons, List.nodup_cons] at hnodup
      obtain ⟨hfirst, hrest⟩ := hunused
      obtain ⟨hsignature, hbase⟩ := hbase native rfl
      refine planMethods_cons_ok_iff.2 ⟨record, some native, (namer.next native.identifier).2, plans, hrecord,
        planNative_ok_iff.2 (.inr ⟨hnative.symm, native.signature, native.identifier, hsignature, hbase, ?_, rfl⟩),
        ih (fun identifier hmem => ?_) hnodup.2, rfl⟩
      · rw [hfirst.next_eq]
      · exact (hrest identifier hmem).next_of_unused hfirst (fun heq => hnodup.1 (heq ▸ hmem))

theorem nodup_identifiers {plans : List TypePlan} (h : image.plan policy = .ok plans) {plan : TypePlan}
    (hplan : plan ∈ plans) : plan.identifiers.Nodup :=
  (planMethods_nodup (planMethods_of_mem h hplan)).1

end Image

end CompactAssembly

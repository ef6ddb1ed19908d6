import CompactAssembly.Proofs.SignatureHeap

/-!
# Signatures that a run added

A failed step may have added some of what it declares, so what a run added is counted along the run
(`Draft.sources`): of each step as many signatures as its rows. The rows of the draft are then made from these
(`Stems.run`), and an image of the draft decodes to them (`Filed.decodes`).
-/

namespace CompactAssembly

/-- Every signature survives being stored. -/
structure Sources.Readable (s : Sources) : Prop where
  fieldRefs : ∀ type ∈ s.fieldRefs, type.Readable
  methodRefs : ∀ signature ∈ s.methodRefs, signature.Readable
  fieldDefs : ∀ type ∈ s.fieldDefs, type.Readable
  methodDefs : ∀ signature ∈ s.methodDefs, signature.Readable
  typeSpecs : ∀ type ∈ s.typeSpecs, type.Readable

namespace Draft
variable {s t declared : Sources} {d d' : Draft}

/-- What was declared between two drafts, as far as rows were added. -/
def added (d d' : Draft) (declared : Sources) : Sources where
  fieldRefs := declared.fieldRefs.take (d'.fieldRefs.size - d.fieldRefs.size)
  methodRefs := declared.methodRefs.take (d'.methodRefs.size - d.methodRefs.size)
  fieldDefs := declared.fieldDefs.take (d'.fieldDefs.size - d.fieldDefs.size)
  methodDefs := declared.methodDefs.take (d'.methodDefs.size - d.methodDefs.size)
  typeSpecs := declared.typeSpecs.take (d'.typeSpecs.size - d.typeSpecs.size)

def sources (d : Draft) : List Step → Sources
  | [] => {}
  | step :: steps => d.added (d.apply step).2 step.sources ++ (d.apply step).2.sources steps

theorem eq_take_of_prefix {σ : Type} {xs ys zs : List σ} {m n : Nat} (h : xs <+: ys) (hn : n = zs.length)
    (hm : m = (zs ++ xs).length) : xs = ys.take (m - n) := by
  have hlen : m - n = xs.length := by
    rw [hm, hn, List.length_append, Nat.add_sub_cancel_left]
  rw [hlen]
  exact List.prefix_iff_eq_take.1 h

theorem eq_added (ht : t.Prefix declared) (hs : Signed s d) (hst : Signed (s ++ t) d') :
    t = d.added d' declared := by
  have hfieldRefs := eq_take_of_prefix ht.fieldRefs hs.fieldRefs.size_eq hst.fieldRefs.size_eq
  have hmethodRefs := eq_take_of_prefix ht.methodRefs hs.methodRefs.size_eq hst.methodRefs.size_eq
  have hfieldDefs := eq_take_of_prefix ht.fieldDefs hs.fieldDefs.size_eq hst.fieldDefs.size_eq
  have hmethodDefs := eq_take_of_prefix ht.methodDefs hs.methodDefs.size_eq hst.methodDefs.size_eq
  have htypeSpecs := eq_take_of_prefix ht.typeSpecs hs.typeSpecs.size_eq hst.typeSpecs.size_eq
  rw [added, ← hfieldRefs, ← hmethodRefs, ← hfieldDefs, ← hmethodDefs, ← htypeSpecs]

theorem Stems.step (h : Stems s d) (step : Step) :
    Stems (s ++ d.added (d.apply step).2 step.sources) (d.apply step).2 := by
  intro ho
  obtain ⟨t, ht, hst⟩ := apply_of_wp (Drafting.wp_perform_stems h step)
  have hext : d.Extends (d.apply step).2 := apply_of_follows (Drafting.follows_perform step) d
  have hd := h (hext.overflow ho)
  rw [← eq_added ht hd (hst ho)]
  exact hst ho

theorem Stems.run (h : Stems s d) (steps : List Step) :
    Stems (s ++ d.sources steps) (d.applyAll steps).2 := by
  induction steps generalizing s d with
  | nil => exact (Sources.append_empty s).symm ▸ h
  | cons step steps ih =>
    have hrest := ih (h.step step)
    rw [Sources.append_assoc] at hrest
    exact hrest

theorem stems_built (name : String) (version : Version) (steps : List Step) :
    Stems ((named name version).sources steps) (built name version steps) := by
  have hrun := Stems.run (fun _ => Signed.named name version) steps
  have hempty : ({} : Sources) ++ (named name version).sources steps = (named name version).sources steps := rfl
  rwa [hempty] at hrun

end Draft

/-- The signatures of a table decode to these values. -/
def Image.Decodes {ρ σ : Type} [Row ρ] (image : Image) (sig : ρ → UInt16) (reader : SignatureReader σ)
    (values : List σ) : Prop :=
  values.length = image.count (Row.kind ρ) ∧ ∀ (i : Nat) value, values[i]? = some value →
    ∃ row, image.get ρ i = .ok row ∧ image.readSignature reader (sig row) = .ok value

theorem Filed.decodes {ρ σ τ : Type} [Row ρ] {encode : σ → Except Fault (List UInt8)} {sig : ρ → UInt16}
    {data : Bytes} {header : Header} {rows : Array ρ} {sources : List σ} {reader : SignatureReader τ}
    {f : σ → τ} (h : Filed encode sig (Image.view data header).signatures rows sources)
    (hrows : header.Stores data rows) (hne : ∀ {a xs}, encode a = .ok xs → xs ≠ [])
    (hreads : ∀ a ∈ sources, ∀ {xs}, encode a = .ok xs → reader.Reads 0 0 xs (f a)) :
    (Image.view data header).Decodes sig reader (sources.map f) := by
  refine ⟨?_, fun i value hvalue => ?_⟩
  · rw [List.length_map, ← h.size_eq, hrows.count_view]
  · rw [List.getElem?_map] at hvalue
    obtain ⟨source, hsource, rfl⟩ := Option.map_eq_some_iff.1 hvalue
    obtain ⟨row, xs, hrow, hxs, hd⟩ := h.exists_row hsource
    obtain ⟨hlt, rfl⟩ := Array.getElem?_eq_some_iff.1 hrow
    have hsize := hd.le_size
    have hpos := List.length_pos_iff.2 (hne hxs)
    refine ⟨rows[i], hrows.get_view hlt, ?_⟩
    unfold Image.readSignature
    rw [if_pos (by omega)]
    exact (hreads source (List.mem_of_getElem? hsource) hxs).value hd

end CompactAssembly

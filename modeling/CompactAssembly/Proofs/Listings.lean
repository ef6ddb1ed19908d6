import CompactAssembly.Proofs.Declared
import CompactAssembly.Proofs.Entries
import CompactAssembly.Proofs.Indexing
import CompactAssembly.Proofs.Lookup
import CompactAssembly.Proofs.Names

/-!
# Every image of a draft can be listed

A listing stops at the first name, signature or owner that does not resolve. In an image of a draft each of them
does, so that there is one entry for each record, table by table.
-/

namespace CompactAssembly

namespace Assembly
variable {a : Assembly} {kind : TableKind} {label : String} {i : Nat}

/-- The text of a table: its entries, then an empty line if there are any. -/
def tableText (entries : List String) : String :=
  String.join entries ++ if entries.isEmpty then "" else "\n"

theorem exists_tableText {f : Nat → Listing} {count : Nat}
    (h : ∀ i, i < count → ∃ entry, (f i).Makes entry ∧ a.Lists kind label i entry) :
    ∃ entries, Listing.Makes ((List.range count).flatMap f ++ if count = 0 then [] else [.ok "\n"])
      (tableText entries) ∧ a.Tabulates kind label count entries := by
  obtain ⟨entries, hmakes, htable⟩ := exists_tabulates h
  refine ⟨entries, hmakes.append ?_, htable⟩
  have hempty : entries.isEmpty = true ↔ count = 0 := by
    rw [List.isEmpty_iff, ← List.length_eq_zero_iff, htable.length]
  by_cases hcount : count = 0
  · rw [if_pos hcount, if_pos (hempty.2 hcount)]
    exact .of_texts []
  · rw [if_neg hcount, if_neg (mt hempty.1 hcount)]
    exact .ok "\n"

theorem exists_tableChunks {f : Nat → Except Fault String} {count : Nat}
    (h : ∀ i, i < count → ∃ entry, f i = .ok entry ∧ a.Lists kind label i entry) :
    ∃ entries, (tableChunks f count).Makes (tableText entries) ∧
      a.Tabulates kind label count entries := by
  rw [tableChunks, List.map_eq_flatMap]
  refine exists_tableText fun i hi => ?_
  obtain ⟨entry, hentry, hlists⟩ := h i hi
  exact ⟨entry, hentry ▸ .ok entry, hlists⟩

/-! ## Owners -/

theorem exists_listedTypeName
    (hrange : ∀ i t enclosing, a.get TypeDef i = .ok t → t.enclosing? = some enclosing →
      ∃ t', a.get TypeDef enclosing.toNat = .ok t')
    (hdepth : ∀ i chain, a.Nested i chain → chain.length ≤ enclosingLimit)
    (hnames : ∀ i t, a.get TypeDef i = .ok t →
      (∃ name, a.text t.name = .ok name) ∧ ∃ nameSpace, a.text t.nameSpace = .ok nameSpace)
    {t : TypeDef} (ht : a.get TypeDef i = .ok t) : ∃ text, a.listedTypeName i = .ok text := by
  obtain ⟨chain, hchain⟩ := Image.exists_enclosed hrange (hdepth i) ht
  have hnameable : a.Nameable i := by
    refine ⟨chain, hchain, hdepth i chain hchain.1, fun t ht => ?_⟩
    obtain ⟨j, hj⟩ := hchain.1.exists_get ht
    exact (hnames j t hj).symm
  obtain ⟨texts, htexts⟩ := Image.nameable_iff.1 hnameable
  rw [Image.listedTypeName_eq]
  exact ⟨_, bind_eq_ok.2 ⟨texts, htexts, rfl⟩⟩

end Assembly

theorem LastOwner.lt_length {holds : TypeDef → Prop} {types : List TypeDef} {owner : UInt16}
    (h : LastOwner holds types (some owner)) : owner.toNat < types.length := by
  obtain ⟨earlier, t, later, rfl, -, -, rfl⟩ := h
  have hle : (UInt16.ofNat earlier.length).toNat ≤ earlier.length := by
    rw [UInt16.toNat_ofNat']
    exact Nat.mod_le ..
  rw [List.length_append, List.length_cons]
  omega

namespace Assembly
variable {a : Assembly} {layout : BaseLayout} {data : Bytes}

theorem owner_lt_of_load (h : Assembly.load layout data = .ok a) {member : Nat} {owner : UInt16}
    (howner : a.methodOwner? member = some owner ∨ a.fieldOwner? member = some owner) :
    owner.toNat < a.typeCount := by
  obtain ⟨types, htypes, hlast⟩ := Image.resolveOwners_last (load_ok h).2.1
  obtain ⟨hlength, -⟩ := mapM_range_eq_ok.1 htypes
  have hcount : a.typeCount = types.length := hlength.symm
  rw [hcount]
  rcases howner with howner | howner
  · have hmethod := hlast.methods member
    rw [show a.owners.methods.owner? member = some owner from howner] at hmethod
    exact hmethod.lt_length
  · have hfield := hlast.fields member
    rw [show a.owners.fields.owner? member = some owner from howner] at hfield
    exact hfield.lt_length

end Assembly

/-- The signatures of every table decode to these. -/
structure Image.DecodesTo (image : Image) (s : Sources) : Prop where
  fieldRefs : image.Decodes FieldRef.sig SignatureReader.signature (s.fieldRefs.map .field)
  methodRefs : image.Decodes MethodRef.sig SignatureReader.signature (s.methodRefs.map .method)
  fieldDefs : image.Decodes FieldDef.sig SignatureReader.signature (s.fieldDefs.map .field)
  methodDefs : image.Decodes MethodDef.sig SignatureReader.signature (s.methodDefs.map .method)
  typeSpecs : image.Decodes TypeSpec.sig SignatureReader.typeSpec s.typeSpecs

namespace Draft
variable {d : Draft} {header : Header} {data : Bytes} {a : Assembly} {layout : BaseLayout} {s : Sources}

theorem exists_record {ρ : Type} [Row ρ] {rows : Array ρ} (hrows : header.Stores data rows)
    (hview : a.toImage = Image.view data header) {i : Nat} (hi : i < a.count (Row.kind ρ)) :
    ∃ r ∈ rows, a.get ρ i = .ok r := by
  rw [hview] at hi ⊢
  rw [hrows.count_view] at hi
  exact ⟨rows[i], Array.getElem_mem hi, hrows.get_view hi⟩

/-- The records whose signatures decode. -/
theorem exists_decoded {ρ σ : Type} [Row ρ] {rows : Array ρ} {sig : ρ → UInt16} {reader : SignatureReader σ}
    {values : List σ} (hrows : header.Stores data rows) (hview : a.toImage = Image.view data header)
    (hdecodes : a.Decodes sig reader values) {i : Nat} (hi : i < a.count (Row.kind ρ)) :
    ∃ r ∈ rows, a.get ρ i = .ok r ∧ ∃ value, a.readSignature reader (sig r) = .ok value := by
  obtain ⟨r, hr, hget⟩ := exists_record hrows hview hi
  obtain ⟨r', hget', hread⟩ := hdecodes.2 i _ (List.getElem?_eq_getElem (hdecodes.1 ▸ hi))
  cases hget.symm.trans hget'
  exact ⟨r, hr, hget, _, hread⟩

namespace Closes

theorem exists_text (hc : d.Closes header data) (hview : a.toImage = Image.view data header) {index : UInt16}
    (h : d.strings.heap.Names index) : ∃ text, a.text index = .ok text := by
  have hstrings : a.strings = d.closedStrings := by
    rw [hview]
    show (header.cut data .strings).toOption.getD #[] = _
    rw [hc.holds.strings]
    rfl
  have hnames : d.closedStrings.Names index := h.grow (Extends.withText d d.name).strings
  rw [← hstrings] at hnames
  exact hnames.exists_text

theorem decodesTo (hc : d.Closes header data) (hsigned : Signed s d) (hs : s.Readable) :
    (Image.view data header).DecodesTo s := by
  have hsignatures : (Image.view data header).signatures = d.signatures.heap := by
    show (header.cut data .signatures).toOption.getD #[] = _
    rw [hc.holds.signatures]
    rfl
  have hfieldRefs := hsigned.fieldRefs
  have hmethodRefs := hsigned.methodRefs
  have hfieldDefs := hsigned.fieldDefs
  have hmethodDefs := hsigned.methodDefs
  have htypeSpecs := hsigned.typeSpecs
  rw [← hsignatures] at hfieldRefs hmethodRefs hfieldDefs hmethodDefs htypeSpecs
  constructor
  · exact hfieldRefs.decodes hc.holds.fieldRefs encodeField_ne_nil fun type htype _ =>
      SignatureReader.reads_signature_field (hs.fieldRefs type htype)
  · exact hmethodRefs.decodes hc.holds.methodRefs MethodSignature.encode_ne_nil fun signature hsignature _ =>
      SignatureReader.reads_signature_method (hs.methodRefs signature hsignature)
  · exact hfieldDefs.decodes hc.holds.fieldDefs encodeField_ne_nil fun type htype _ =>
      SignatureReader.reads_signature_field (hs.fieldDefs type htype)
  · exact hmethodDefs.decodes hc.holds.methodDefs MethodSignature.encode_ne_nil fun signature hsignature _ =>
      SignatureReader.reads_signature_method (hs.methodDefs signature hsignature)
  · have hspecs : (Image.view data header).Decodes TypeSpec.sig SignatureReader.typeSpec (s.typeSpecs.map id) :=
      htypeSpecs.decodes hc.holds.typeSpecs Element.encode_ne_nil fun type htype _ =>
        SignatureReader.reads_element (hs.typeSpecs type htype)
    rwa [List.map_id] at hspecs

/-- A member of the draft is listed behind the name of its owner. -/
theorem exists_ownerText (hc : d.Closes header data) (hnamed : d.Named) (hview : a.toImage = Image.view data header)
    (hrange : ∀ i t enclosing, a.get TypeDef i = .ok t → t.enclosing? = some enclosing →
      enclosing.toNat < a.typeCount)
    (hdepth : ∀ i chain, a.Nested i chain → chain.length ≤ enclosingLimit) {owner : Option UInt16}
    (howner : ∀ index, owner = some index → index.toNat < a.typeCount) :
    ∃ text, a.ownerText owner = .ok text := by
  cases owner with
  | none => exact ⟨"", rfl⟩
  | some index =>
    obtain ⟨t, -, ht⟩ := exists_record hc.holds.typeDefs hview (howner index rfl)
    refine Assembly.exists_listedTypeName (fun i t enclosing ht he => ?_) hdepth (fun i t ht => ?_) ht
    · obtain ⟨t', -, ht'⟩ := exists_record hc.holds.typeDefs hview (hrange i t enclosing ht he)
      exact ⟨t', ht'⟩
    · obtain ⟨t', hmem, ht'⟩ := exists_record hc.holds.typeDefs hview (Image.lt_typeCount ht)
      cases ht.symm.trans ht'
      exact ⟨hc.exists_text hview (hnamed.typeDefs t hmem).1, hc.exists_text hview (hnamed.typeDefs t hmem).2⟩

/-! ### Tables -/

section Tables
variable (hc : d.Closes header data) (hview : a.toImage = Image.view data header)
include hc hview

theorem assemblyRefTable (hnamed : d.Named) : ∃ entries,
    (Assembly.tableChunks a.assemblyRefEntry (a.count .assemblyRef)).Makes (Assembly.tableText entries) ∧
      a.Tabulates .assemblyRef "AssemblyRef: " (a.count .assemblyRef) entries := by
  refine Assembly.exists_tableChunks fun i hi => ?_
  obtain ⟨r, hmem, hr⟩ := exists_record hc.holds.assemblyRefs hview hi
  obtain ⟨name, hname⟩ := hc.exists_text hview (hnamed.assemblyRefs r hmem)
  exact Assembly.assemblyRefEntry_ok hr hname

theorem typeRefTable (hnamed : d.Named) : ∃ entries,
    (Assembly.tableChunks a.typeRefEntry (a.count .typeRef)).Makes (Assembly.tableText entries) ∧
      a.Tabulates .typeRef "TypeRef " (a.count .typeRef) entries := by
  refine Assembly.exists_tableChunks fun i hi => ?_
  obtain ⟨r, hmem, hr⟩ := exists_record hc.holds.typeRefs hview hi
  obtain ⟨name, hname⟩ := hc.exists_text hview (hnamed.typeRefs r hmem).1
  obtain ⟨nameSpace, hnameSpace⟩ := hc.exists_text hview (hnamed.typeRefs r hmem).2
  exact Assembly.typeRefEntry_ok hr hname hnameSpace

theorem fieldRefTable (hnamed : d.Named) (hdecodes : a.DecodesTo s) : ∃ entries,
    (Assembly.tableChunks a.fieldRefEntry (a.count .fieldRef)).Makes (Assembly.tableText entries) ∧
      a.Tabulates .fieldRef "FieldRef " (a.count .fieldRef) entries := by
  refine Assembly.exists_tableChunks fun i hi => ?_
  obtain ⟨r, hmem, hr, signature, hsig⟩ := exists_decoded hc.holds.fieldRefs hview hdecodes.fieldRefs hi
  obtain ⟨name, hname⟩ := hc.exists_text hview (hnamed.fieldRefs r hmem)
  exact Assembly.fieldRefEntry_ok hr hname hsig

theorem methodRefTable (hnamed : d.Named) (hdecodes : a.DecodesTo s) : ∃ entries,
    (Assembly.tableChunks a.methodRefEntry (a.count .methodRef)).Makes (Assembly.tableText entries) ∧
      a.Tabulates .methodRef "MethodRef " (a.count .methodRef) entries := by
  refine Assembly.exists_tableChunks fun i hi => ?_
  obtain ⟨r, hmem, hr, signature, hsig⟩ := exists_decoded hc.holds.methodRefs hview hdecodes.methodRefs hi
  obtain ⟨name, hname⟩ := hc.exists_text hview (hnamed.methodRefs r hmem)
  exact Assembly.methodRefEntry_ok hr hname hsig

theorem typeDefTable (hnamed : d.Named) : ∃ entries,
    (Assembly.tableChunks a.typeDefEntry a.typeCount).Makes (Assembly.tableText entries) ∧
      a.Tabulates .typeDef "TypeDef " a.typeCount entries := by
  refine Assembly.exists_tableChunks fun i hi => ?_
  obtain ⟨t, hmem, ht⟩ := exists_record hc.holds.typeDefs hview hi
  obtain ⟨name, hname⟩ := hc.exists_text hview (hnamed.typeDefs t hmem).1
  obtain ⟨nameSpace, hnameSpace⟩ := hc.exists_text hview (hnamed.typeDefs t hmem).2
  exact Assembly.typeDefEntry_ok ht hname hnameSpace

theorem fieldDefTable (hnamed : d.Named) (hdecodes : a.DecodesTo s)
    (howned : ∀ i, ∃ owner, a.ownerText (a.fieldOwner? i) = .ok owner) : ∃ entries,
    a.fieldDefChunks.Makes (Assembly.tableText entries) ∧
      a.Tabulates .fieldDef "FieldDef " a.fieldCount entries := by
  refine Assembly.exists_tableText fun i hi => ?_
  obtain ⟨f, hmem, hf, signature, hsig⟩ := exists_decoded hc.holds.fieldDefs hview hdecodes.fieldDefs hi
  obtain ⟨name, hname⟩ := hc.exists_text hview (hnamed.fieldDefs f hmem)
  obtain ⟨owner, howner⟩ := howned i
  exact Assembly.fieldDefEntry_makes hf hname howner hsig

theorem methodDefTable (hnamed : d.Named) (hdecodes : a.DecodesTo s)
    (howned : ∀ i, ∃ owner, a.ownerText (a.methodOwner? i) = .ok owner) : ∃ entries,
    Listing.Makes ((List.range a.methodCount).map a.methodDefEntry) (String.join entries) ∧
      a.Tabulates .methodDef "MethodDef " a.methodCount entries := by
  rw [List.map_eq_flatMap]
  refine Assembly.exists_tabulates fun i hi => ?_
  obtain ⟨m, hmem, hm, signature, hsig⟩ := exists_decoded hc.holds.methodDefs hview hdecodes.methodDefs hi
  obtain ⟨name, hname⟩ := hc.exists_text hview (hnamed.methodDefs m hmem)
  obtain ⟨owner, howner⟩ := howned i
  obtain ⟨entry, hentry, hlists⟩ := Assembly.methodDefEntry_ok hm hname howner hsig
  exact ⟨entry, hentry ▸ .ok entry, hlists⟩

theorem attributeTable : ∃ entries,
    (Assembly.tableChunks a.attributeEntry (a.count .attributes)).Makes (Assembly.tableText entries) ∧
      a.Tabulates .attributes "Attribute " (a.count .attributes) entries := by
  refine Assembly.exists_tableChunks fun i hi => ?_
  obtain ⟨r, -, hr⟩ := exists_record hc.holds.attributes hview hi
  exact Assembly.attributeEntry_ok hr

theorem typeSpecTable (hdecodes : a.DecodesTo s) : ∃ entries,
    (Assembly.tableChunks a.typeSpecEntry (a.count .typeSpec)).Makes (Assembly.tableText entries) ∧
      a.Tabulates .typeSpec "TypeSpec " (a.count .typeSpec) entries := by
  refine Assembly.exists_tableChunks fun i hi => ?_
  obtain ⟨r, -, hr, type, hsig⟩ := exists_decoded hc.holds.typeSpecs hview hdecodes.typeSpecs hi
  exact Assembly.typeSpecEntry_ok hr hsig

theorem resourceFileTable (hnamed : d.Named) : ∃ entries,
    (Assembly.tableChunks a.resourceFileEntry (a.count .resourcesFiles)).Makes (Assembly.tableText entries) ∧
      a.Tabulates .resourcesFiles "ResourceFile " (a.count .resourcesFiles) entries := by
  refine Assembly.exists_tableChunks fun i hi => ?_
  obtain ⟨r, hmem, hr⟩ := exists_record hc.holds.resourceFiles hview hi
  obtain ⟨name, hname⟩ := hc.exists_text hview (hnamed.resourceFiles r hmem)
  exact Assembly.resourceFileEntry_ok hr hname

theorem resourceTable : ∃ entries,
    (Assembly.tableChunks a.resourceEntry (a.count .resources - 1)).Makes (Assembly.tableText entries) ∧
      a.Tabulates .resources "Resource " (a.count .resources - 1) entries := by
  refine Assembly.exists_tableChunks fun i hi => ?_
  -- an entry gives the size of the payload, which ends where that of the next record starts
  have hnext : i + 1 < a.count .resources := by omega
  obtain ⟨r, -, hr⟩ := exists_record hc.holds.resources hview (Nat.lt_of_succ_lt hnext)
  obtain ⟨next, -, hnext⟩ := exists_record hc.holds.resources hview hnext
  exact Assembly.resourceEntry_ok hr hnext

end Tables

end Closes

/-- Every image of a draft is listed to the end if its signatures survive being stored and its types are nested
in types, 64 at most: behind the name and the sizes stands one entry for each record, table by table. -/
theorem built_image_is_listed {name : String} {version : Version} {steps : List Step}
    (hreadable : ((named name version).sources steps).Readable)
    (himage : (built name version steps).image = .ok data) (hload : Assembly.load layout data = .ok a)
    (hrange : ∀ i t enclosing, a.get TypeDef i = .ok t → t.enclosing? = some enclosing →
      enclosing.toNat < a.typeCount)
    (hdepth : ∀ i chain, a.Nested i chain → chain.length ≤ 64) :
    a.DecodesTo ((named name version).sources steps) ∧
    ∃ assemblyRefs typeRefs fieldRefs methodRefs typeDefs fieldDefs methodDefs attributes typeSpecs resourceFiles
      resources : List String,
      a.listing.fault? = none ∧
      a.listing.written =
        "Assembly: " ++ a.name?.getD "" ++ " (" ++ Wording.version a.header.version ++ ")\n\n" ++ a.sizes ++
          Assembly.tableText assemblyRefs ++ Assembly.tableText typeRefs ++ Assembly.tableText fieldRefs ++
          Assembly.tableText methodRefs ++ Assembly.tableText typeDefs ++ Assembly.tableText fieldDefs ++
          String.join methodDefs ++ Assembly.tableText attributes ++ Assembly.tableText typeSpecs ++
          Assembly.tableText resourceFiles ++ Assembly.tableText resources ∧
      a.Tabulates .assemblyRef "AssemblyRef: " (a.count .assemblyRef) assemblyRefs ∧
      a.Tabulates .typeRef "TypeRef " (a.count .typeRef) typeRefs ∧
      a.Tabulates .fieldRef "FieldRef " (a.count .fieldRef) fieldRefs ∧
      a.Tabulates .methodRef "MethodRef " (a.count .methodRef) methodRefs ∧
      a.Tabulates .typeDef "TypeDef " a.typeCount typeDefs ∧
      a.Tabulates .fieldDef "FieldDef " a.fieldCount fieldDefs ∧
      a.Tabulates .methodDef "MethodDef " a.methodCount methodDefs ∧
      a.Tabulates .attributes "Attribute " (a.count .attributes) attributes ∧
      a.Tabulates .typeSpec "TypeSpec " (a.count .typeSpec) typeSpecs ∧
      a.Tabulates .resourcesFiles "ResourceFile " (a.count .resourcesFiles) resourceFiles ∧
      a.Tabulates .resources "Resource " (a.count .resources - 1) resources := by
  obtain ⟨header, hc⟩ := closes_of_image himage
  have hsigned := stems_built name version steps ((extends_closed _).overflow hc.overflow)
  have hdecodes : a.DecodesTo ((named name version).sources steps) := by
    rw [hc.toImage hload]
    exact hc.decodesTo hsigned hreadable
  have hnamed := named_built name version steps
  have hview := hc.toImage hload
  have howned {member : Nat} {owner : Option UInt16}
      (h : a.methodOwner? member = owner ∨ a.fieldOwner? member = owner) : ∃ text, a.ownerText owner = .ok text := by
    refine hc.exists_ownerText hnamed hview hrange hdepth fun index hindex => ?_
    exact Assembly.owner_lt_of_load hload (hindex ▸ h)
  obtain ⟨assemblyRefs, hassemblyRefs, hassemblyRefTable⟩ := hc.assemblyRefTable hview hnamed
  obtain ⟨typeRefs, htypeRefs, htypeRefTable⟩ := hc.typeRefTable hview hnamed
  obtain ⟨fieldRefs, hfieldRefs, hfieldRefTable⟩ := hc.fieldRefTable hview hnamed hdecodes
  obtain ⟨methodRefs, hmethodRefs, hmethodRefTable⟩ := hc.methodRefTable hview hnamed hdecodes
  obtain ⟨typeDefs, htypeDefs, htypeDefTable⟩ := hc.typeDefTable hview hnamed
  obtain ⟨fieldDefs, hfieldDefs, hfieldDefTable⟩ := hc.fieldDefTable hview hnamed hdecodes fun i => howned (.inr rfl)
  obtain ⟨methodDefs, hmethodDefs, hmethodDefTable⟩ :=
    hc.methodDefTable hview hnamed hdecodes fun i => howned (.inl rfl)
  obtain ⟨attributes, hattributes, hattributeTable⟩ := hc.attributeTable hview
  obtain ⟨typeSpecs, htypeSpecs, htypeSpecTable⟩ := hc.typeSpecTable hview hdecodes
  obtain ⟨resourceFiles, hresourceFiles, hresourceFileTable⟩ := hc.resourceFileTable hview hnamed
  obtain ⟨resources, hresources, hresourceTable⟩ := hc.resourceTable hview
  have hopening : Listing.Makes (.ok ("Assembly: " ++ a.name?.getD "" ++ s!" ({a.header.version.text})\n\n") ::
      a.sizeLines.map .ok) ("Assembly: " ++ a.name?.getD "" ++ " (" ++ Wording.version a.header.version ++ ")\n\n" ++
        a.sizes) := by
    have hsizes := (Listing.Makes.ok ("Assembly: " ++ a.name?.getD "" ++ s!" ({a.header.version.text})\n\n")).append
      (.of_texts a.sizeLines)
    rw [Assembly.join_sizeLines] at hsizes
    simpa only [Text.toString_text, Wording.version_eq, String.append_assoc, List.singleton_append] using hsizes
  have hmakes : a.listing.Makes _ :=
    ((((((((((hopening.append hassemblyRefs).append htypeRefs).append hfieldRefs).append hmethodRefs).append
      htypeDefs).append hfieldDefs).append hmethodDefs).append hattributes).append htypeSpecs).append
      hresourceFiles).append hresources
  exact ⟨hdecodes, assemblyRefs, typeRefs, fieldRefs, methodRefs, typeDefs, fieldDefs, methodDefs, attributes,
    typeSpecs, resourceFiles, resources, hmakes.fault?, hmakes.written, hassemblyRefTable, htypeRefTable,
    hfieldRefTable, hmethodRefTable, htypeDefTable, hfieldDefTable, hmethodDefTable, hattributeTable,
    htypeSpecTable, hresourceFileTable, hresourceTable⟩

theorem dim_entry {entry : String} (h : home.Lists .methodDef "MethodDef " 0 entry) :
    entry = "MethodDef 0000[000000dc] [Flags: 00000040] [RVA: ffff] .Lamp::Dim [METHOD VOID( U1 )]\n" := by
  obtain ⟨offset, details, hoffset, hdetails, rfl⟩ := h
  have hplace : home.recordOffset .methodDef 0 = .ok 220 := by decide +kernel
  have hread : home.get MethodDef 0 = .ok ⟨12, 0xFFFF, ⟨64⟩, 0, 2, 0, 0, 0xFFFF, 4⟩ ∧ home.text 12 = .ok "Dim" ∧
      home.readSignature SignatureReader.signature 4 =
        .ok (.method ⟨true, .primitive .void, [.primitive .u1]⟩) := by decide +kernel
  have htype : home.get TypeDef 0 = .ok ⟨23, 0xFFFF, 0xFFFF, 0xFFFF, ⟨0⟩, 0xFFFF, 0, 1, 1, 1, 17, 0, 1, 1, 1⟩ ∧
      home.text 0xFFFF = .ok "" ∧ home.text 23 = .ok "Lamp" := by decide +kernel
  obtain ⟨hrecord, hname, hsigned⟩ := hread
  obtain ⟨houter, hspace, howner⟩ := htype
  cases hoffset.symm.trans hplace
  cases hdetails with
  | methodDef hm hshown hname' hsig hprints =>
    cases hm.symm.trans hrecord
    cases hname'.symm.trans hname
    cases hsig.symm.trans hsigned
    obtain ⟨hresult, hparams⟩ := hprints
    cases hresult
    obtain _ | ⟨hparam, _ | _⟩ := hparams
    cases hparam
    rename_i owner
    obtain rfl : owner = ".Lamp" := by
      cases hshown with
      | outermost ht _ hspace' howner' =>
        cases ht.symm.trans houter
        cases hspace'.symm.trans hspace
        cases howner'.symm.trans howner
        rfl
      | nested ht he =>
        cases ht.symm.trans houter
        cases he
    decide +kernel

theorem readable_home : ((named "Home" .zero).sources homeSteps).Readable := by
  have hsources : (named "Home" .zero).sources homeSteps =
      { fieldDefs := [.primitive .i4, .primitive .u1, .primitive .i4]
        methodDefs := [⟨true, .primitive .void, [.primitive .u1]⟩, ⟨true, .primitive .void, []⟩,
          ⟨false, .primitive .void, []⟩, ⟨true, .primitive .void, []⟩, ⟨false, .primitive .i4, []⟩] } := by cbv
  have hprimitive : ∀ p, Element.Readable (.primitive p) := fun p => ⟨Nat.zero_le _, fun _ h => Element.noConfusion h⟩
  have hmethod : ∀ hasThis result (params : List Primitive),
      MethodSignature.Readable ⟨hasThis, .primitive result, params.map .primitive⟩ := by
    intro hasThis result params
    refine ⟨hprimitive result, fun param hparam => ?_⟩
    obtain ⟨p, -, rfl⟩ := List.mem_map.1 hparam
    exact hprimitive p
  rw [hsources]
  constructor
  · exact List.forall_mem_nil _
  · exact List.forall_mem_nil _
  · simp only [List.forall_mem_cons]
    exact ⟨hprimitive _, hprimitive _, hprimitive _, List.forall_mem_nil _⟩
  · simp only [List.forall_mem_cons]
    exact ⟨hmethod _ _ [.u1], hmethod _ _ [], hmethod _ _ [], hmethod _ _ [], hmethod _ _ [],
      List.forall_mem_nil _⟩
  · exact List.forall_mem_nil _

theorem enclosing?_home {i : Nat} {t : TypeDef} (ht : home.get TypeDef i = .ok t) : t.enclosing? = none := by
  have hall : ∀ i < 3, ∀ t ∈ (home.get TypeDef i).toOption, t.enclosing? = none := by decide +kernel
  exact hall i (counts_home.1 ▸ Image.lt_typeCount ht) t (by rw [ht]; rfl)

theorem built_image_is_listed_home :
    ∃ typeDefs fieldDefs methodDefs : List String, homeDraft.image = .ok homeImage ∧
      Assembly.load .bare homeImage = .ok home ∧ home.listing.fault? = none ∧
      home.Tabulates .typeDef "TypeDef " 3 typeDefs ∧ home.Tabulates .fieldDef "FieldDef " 3 fieldDefs ∧
      home.Tabulates .methodDef "MethodDef " 5 methodDefs ∧ methodDefs[0]? =
        some "MethodDef 0000[000000dc] [Flags: 00000040] [RVA: ffff] .Lamp::Dim [METHOD VOID( U1 )]\n" := by
  obtain ⟨htypeCount, hfieldCount, hmethodCount⟩ := counts_home
  have hrange : ∀ i t enclosing, home.get TypeDef i = .ok t → t.enclosing? = some enclosing →
      enclosing.toNat < home.typeCount := by
    intro i t enclosing ht he
    rw [enclosing?_home ht] at he
    cases he
  have hdepth : ∀ i chain, home.Nested i chain → chain.length ≤ 64 := by
    intro i chain hchain
    cases hchain with
    | one ht => exact Nat.le_of_ble_eq_true rfl
    | more ht he =>
      rw [enclosing?_home ht] at he
      cases he
  obtain ⟨-, -, -, -, -, typeDefs, fieldDefs, methodDefs, -, -, -, -, hfault, -, -, -, -, -, htypes, hfields, hmethods,
    -⟩ := built_image_is_listed readable_home image_home load_home hrange hdepth
  rw [htypeCount] at htypes
  rw [hfieldCount] at hfields
  rw [hmethodCount] at hmethods
  obtain ⟨entry, hentry⟩ : ∃ entry, methodDefs[0]? = some entry :=
    ⟨_, List.getElem?_eq_getElem (hmethods.length ▸ Nat.zero_lt_succ 4)⟩
  obtain rfl := dim_entry (hmethods.lists 0 entry hentry)
  exact ⟨typeDefs, fieldDefs, methodDefs, image_home, load_home, hfault, htypes, hfields, hmethods, hentry⟩

end Draft

end CompactAssembly

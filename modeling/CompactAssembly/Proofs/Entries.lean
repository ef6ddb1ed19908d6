import CompactAssembly.Listing
import CompactAssembly.Proofs.Extents
import CompactAssembly.Proofs.NestedTypes
import CompactAssembly.Proofs.Wording

/-!
# The entries of a listing

What a listing says of a record, written out for each table. Elements and signatures have printed forms
(`Element.Prints`, `Signature.Prints`), an owner is shown by the names of the types around it (`Image.ListedAs`), and
the rest of an entry is the fields of the record in fixed columns (`Assembly.Details`). Each entry that a listing
makes is of this form (`Assembly.fieldDefEntry_makes` and its siblings).
-/

namespace CompactAssembly

namespace Wording

def hex (width n : Nat) : String := String.ofList ((Nat.toDigits 16 n).leftpad width '0')

def column (width n : Nat) : String := String.ofList ((Nat.toDigits 10 n).leftpad width ' ')

theorem hex_eq (width n : Nat) : Text.hex width n = hex width n := rfl

theorem column_eq (width n : Nat) : Text.flushRight width n = column width n := rfl

def version (v : Version) : String :=
  toString v.major.toNat ++ "." ++ toString v.minor.toNat ++ "." ++ toString v.build.toNat ++ "." ++
    toString v.revision.toNat

theorem version_eq (v : Version) : v.text = version v := by
  simp only [Version.text, Version.parts, version, List.map_cons, List.map_nil, String.intercalate_cons_cons,
    String.intercalate_singleton, String.append_assoc]

def tableSize (label : String) (bytes count : Nat) : String :=
  "Size: " ++ label ++ " " ++ column 6 bytes ++ " byte(s) " ++ column 6 count ++ " item(s)\n"

def heapSize (label : String) (bytes : Nat) : String := "Size: " ++ label ++ " " ++ column 6 bytes ++ " byte(s)\n"

/-- How a listing names a field. A reserved name goes into a comment before it. -/
def listedField (name : String) : String :=
  if '<' ∈ name.toList ∨ '>' ∈ name.toList then
    "    // Something wrong with this field. Possibly its backing field is missing (mandatory for nanoFramework).\n" ++
    "    // " ++ name ++ "\n" ++
    "::" ++ ">>>>>>>>>>>>>>>>>>>>>>>>>>>>SOMETHING_WRONG_WITH_THIS_FIELD_POSSIBLY_MISSING_BACKING_FIELD"
  else "::" ++ name

theorem listedField_eq (name : String) :
    (if Naming.isReserved name then Naming.reservedComment "    " name ++ ("::" ++ Naming.unlistedField)
      else "::" ++ name) = listedField name := by
  have hindent : "    // " = "    " ++ "// " := rfl
  have hcomment : "    // Something wrong with this field. Possibly its backing field is missing (mandatory for nanoFramework).\n" =
      "    " ++ ("// Something wrong with this field. Possibly its backing field is missing " ++
        "(mandatory for nanoFramework).\n") := rfl
  unfold listedField
  simp only [← Naming.isReserved_iff]
  split
  · simp only [hcomment, hindent, Naming.reservedComment, Naming.unlistedField, String.append_assoc]
  · rfl

end Wording

def Assembly.sizes (a : Assembly) : String :=
  Wording.tableSize "AssemblyRef    " (12 * a.count .assemblyRef) (a.count .assemblyRef) ++
  Wording.tableSize "TypeRef        " (8 * a.count .typeRef) (a.count .typeRef) ++
  Wording.tableSize "FieldRef       " (8 * a.count .fieldRef) (a.count .fieldRef) ++
  Wording.tableSize "MethodRef      " (8 * a.count .methodRef) (a.count .methodRef) ++
  Wording.tableSize "TypeDef        " (24 * a.count .typeDef) (a.count .typeDef) ++
  Wording.tableSize "FieldDef       " (8 * a.count .fieldDef) (a.count .fieldDef) ++
  Wording.tableSize "MethodDef      " (16 * a.count .methodDef) (a.count .methodDef) ++
  Wording.tableSize "Attributes     " (8 * a.count .attributes) (a.count .attributes) ++
  Wording.tableSize "TypeSpec       " (4 * a.count .typeSpec) (a.count .typeSpec) ++
  Wording.tableSize "Resources Files" (8 * a.count .resourcesFiles) (a.count .resourcesFiles) ++
  Wording.tableSize "Resources      " (8 * a.count .resources) (a.count .resources) ++
  Wording.heapSize "ResourcesData  " (a.count .resourcesData) ++
  Wording.heapSize "Strings        " (a.count .strings) ++
  Wording.heapSize "Signatures     " (a.count .signatures) ++
  Wording.heapSize "ByteCode       " (a.count .byteCode) ++ "\n\n"

theorem Assembly.join_sizeLines (a : Assembly) : String.join a.sizeLines = a.sizes := by
  have htable : ∀ label kind size, TableKind.recordSize? kind = some size →
      a.tableSizeLine label kind = Wording.tableSize label (size * a.count kind) (a.count kind) := by
    intro label kind size hsize
    unfold tableSizeLine Wording.tableSize
    simp only [hsize, Option.getD_some, Nat.mul_comm, Wording.column_eq, Text.toString_text, String.append_assoc]
  have hheap : ∀ label kind, a.heapSizeLine label kind = Wording.heapSize label (a.count kind) := by
    intro label kind
    unfold heapSizeLine Wording.heapSize
    simp only [Wording.column_eq, Text.toString_text, String.append_assoc]
  unfold sizeLines sizes
  rw [htable _ _ 12 rfl, htable _ _ 8 rfl, htable _ _ 8 rfl, htable _ _ 8 rfl, htable _ _ 24 rfl, htable _ _ 8 rfl,
    htable _ _ 16 rfl, htable _ _ 8 rfl, htable _ _ 4 rfl, htable _ _ 8 rfl, htable _ _ 8 rfl]
  simp only [hheap, String.join_cons, String.join_nil, String.append_assoc, String.append_empty]

/-! ## Printed forms -/

inductive Element.Prints : Element → String → Prop where
  | void : Prints (.primitive .void) "VOID"
  | boolean : Prints (.primitive .boolean) "BOOLEAN"
  | i1 : Prints (.primitive .i1) "I1"
  | u1 : Prints (.primitive .u1) "U1"
  | char : Prints (.primitive .char) "CHAR"
  | i2 : Prints (.primitive .i2) "I2"
  | u2 : Prints (.primitive .u2) "U2"
  | i4 : Prints (.primitive .i4) "I4"
  | u4 : Prints (.primitive .u4) "U4"
  | r4 : Prints (.primitive .r4) "R4"
  | i8 : Prints (.primitive .i8) "I8"
  | u8 : Prints (.primitive .u8) "U8"
  | r8 : Prints (.primitive .r8) "R8"
  | string : Prints (.primitive .string) "STRING"
  | object : Prints (.primitive .object) "OBJECT"
  | byRef {inner : Element} {text : String} : inner.Prints text → Prints (.byRef inner) ("BYREF " ++ text)
  | szArray {inner : Element} {text : String} : inner.Prints text → Prints (.szArray inner) ("SZARRAY " ++ text)
  | valueType (token : Token) : Prints (.valueType token) ("VALUETYPE [" ++ Wording.hex 8 token.value.toNat ++ "]")
  | classType (token : Token) : Prints (.classType token) ("CLASS [" ++ Wording.hex 8 token.value.toNat ++ "]")
  | unknown (code : UInt8) : Prints (.unknown code) ("[UNKNOWN: " ++ Wording.hex 8 code.toNat ++ "]")

theorem Element.prints_text (e : Element) : e.Prints e.text := by
  have hlayer : "BYREF " = "BYREF" ++ " " ∧ "SZARRAY " = "SZARRAY" ++ " " ∧ "VALUETYPE [" = "VALUETYPE" ++ " [" ∧
      "CLASS [" = "CLASS" ++ " [" := ⟨rfl, rfl, rfl, rfl⟩
  obtain ⟨hbyRef, hszArray, hvalueType, hclassType⟩ := hlayer
  induction e with
  | primitive p => cases p <;> constructor
  | byRef inner ih =>
    have h := Prints.byRef ih
    rwa [hbyRef] at h
  | szArray inner ih =>
    have h := Prints.szArray ih
    rwa [hszArray] at h
  | valueType token =>
    have h := Prints.valueType token
    rwa [hvalueType] at h
  | classType token =>
    have h := Prints.classType token
    rwa [hclassType] at h
  | unknown code => exact .unknown code

/-- Local variables and other kinds print as nothing. -/
inductive Signature.Prints : Signature → String → Prop where
  | method {m : MethodSignature} {result : String} {params : List String} : m.result.Prints result →
      List.Forall₂ Element.Prints m.params params → Prints (.method m)
        ("METHOD " ++ result ++ "(" ++ (if params = [] then "" else " " ++ ", ".intercalate params ++ " ") ++ ")")
  | field {type : Element} {text : String} : type.Prints text → Prints (.field type) ("FIELD " ++ text)
  | localVariables : Prints .localVariables ""
  | other (convention : UInt8) : Prints (.other convention) ""

theorem Signature.paramsText_eq (params : List Element) : paramsText params =
    if params.map Element.text = [] then "" else " " ++ ", ".intercalate (params.map Element.text) ++ " " := by
  induction params with
  | nil => rfl
  | cons param params ih =>
    cases params with
    | nil => rfl
    | cons next params =>
      have hcomma : ", " = "," ++ " " := rfl
      rw [List.map_cons, if_neg (List.cons_ne_nil _ _)] at ih
      rw [paramsText, ih, List.map_cons, List.map_cons, if_neg (List.cons_ne_nil _ _), String.intercalate_cons_cons]
      · simp only [hcomma, String.append_assoc]
      · exact List.cons_ne_nil _ _

theorem Signature.prints_text (signature : Signature) : signature.Prints signature.text := by
  cases signature with
  | method m =>
    have hparams : List.Forall₂ Element.Prints m.params (m.params.map Element.text) := by
      rw [List.forall₂_map_right_iff, List.forall₂_same]
      exact fun param _ => param.prints_text
    have h := Prints.method m.result.prints_text hparams
    rwa [← paramsText_eq] at h
  | field type => exact .field type.prints_text
  | localVariables => exact .localVariables
  | other convention => exact .other convention

/-! ## Entries -/

namespace Listing
variable {listing listing' : Listing} {text text' : String}

/-- Every chunk could be made, and together they are this text. -/
def Makes (listing : Listing) (text : String) : Prop :=
  ∃ texts, listing = texts.map .ok ∧ text = String.join texts

namespace Makes

theorem of_texts (texts : List String) : Makes (texts.map .ok) (String.join texts) := ⟨texts, rfl, rfl⟩

theorem ok (text : String) : Makes [.ok text] text := ⟨[text], rfl, by simp⟩

theorem append (h : listing.Makes text) (h' : listing'.Makes text') :
    Makes (listing ++ listing') (text ++ text') := by
  obtain ⟨texts, rfl, rfl⟩ := h
  obtain ⟨texts', rfl, rfl⟩ := h'
  exact ⟨texts ++ texts', List.map_append.symm, String.join_append.symm⟩

theorem flatMap {α : Type} {f : α → Listing} {g : α → String} {xs : List α}
    (h : ∀ x ∈ xs, (f x).Makes (g x)) : Makes (xs.flatMap f) (String.join (xs.map g)) := by
  induction xs with
  | nil => exact ⟨[], rfl, rfl⟩
  | cons x xs ih =>
    rw [List.flatMap_cons, List.map_cons, String.join_cons]
    exact (h x List.mem_cons_self).append (ih fun y hy => h y (List.mem_cons_of_mem _ hy))

theorem fault? (h : listing.Makes text) : listing.fault? = none := by
  obtain ⟨texts, rfl, -⟩ := h
  induction texts with
  | nil => rfl
  | cons text texts ih => exact ih

theorem written (h : listing.Makes text) : listing.written = text := by
  obtain ⟨texts, rfl, rfl⟩ := h
  have hsound : sound (texts.map .ok) = texts := by
    induction texts with
    | nil => rfl
    | cons text texts ih => exact congrArg (text :: ·) ih
  rw [Listing.written, hsound]

end Makes

end Listing

namespace Assembly
variable {a : Assembly} {kind : TableKind} {label : String} {i offset : Nat}

/-- A member without an owner is shown behind nothing. -/
def OwnerShown (a : Assembly) : Option UInt16 → String → Prop
  | some index, text => a.ListedAs index.toNat text
  | none, text => text = ""

/-- What stands in the entry of a record behind its position. -/
inductive Details (a : Assembly) : TableKind → Nat → String → Prop where
  | assemblyRef {i : Nat} {r : AssemblyRef} {name : String} : a.get AssemblyRef i = .ok r →
      a.text r.name = .ok name → Details a .assemblyRef i (" " ++ name ++ " (" ++ Wording.version r.version ++ ")\n")
  | typeRef {i : Nat} {r : TypeRef} {nameSpace name : String} : a.get TypeRef i = .ok r →
      a.text r.nameSpace = .ok nameSpace → a.text r.name = .ok name →
      Details a .typeRef i (" [Scope: " ++ Wording.hex 4 r.scope.toNat ++ "] " ++ nameSpace ++ " " ++ name ++ "\n")
  | fieldRef {i : Nat} {r : FieldRef} {name text : String} {signature : Signature} : a.get FieldRef i = .ok r →
      a.text r.name = .ok name → a.readSignature SignatureReader.signature r.sig = .ok signature →
      signature.Prints text → Details a .fieldRef i
        (" [Type: " ++ Wording.hex 4 r.container.toNat ++ "] " ++ name ++ " [" ++ text ++ "]\n")
  | methodRef {i : Nat} {r : MethodRef} {name text : String} {signature : Signature} : a.get MethodRef i = .ok r →
      a.text r.name = .ok name → a.readSignature SignatureReader.signature r.sig = .ok signature →
      signature.Prints text → Details a .methodRef i
        (" [Type: " ++ Wording.hex 4 r.container.toNat ++ "] " ++ name ++ " [" ++ text ++ "]\n")
  | typeDef {i : Nat} {t : TypeDef} {nameSpace name : String} : a.get TypeDef i = .ok t →
      a.text t.nameSpace = .ok nameSpace → a.text t.name = .ok name → Details a .typeDef i
        (" [Extends: " ++ Wording.hex 4 t.base.toNat ++ "] [Enclosed: " ++ Wording.hex 4 t.enclosing.toNat ++
          "] [Flags: " ++ Wording.hex 8 t.flags.bits.toNat ++ "] " ++ nameSpace ++ " " ++ name ++ "\n")
  | fieldDef {i : Nat} {f : FieldDef} {owner name text : String} {signature : Signature} :
      a.get FieldDef i = .ok f → a.OwnerShown (a.fieldOwner? i) owner → a.text f.name = .ok name →
      a.readSignature SignatureReader.signature f.sig = .ok signature → signature.Prints text →
      Details a .fieldDef i
        (" [Flags: " ++ Wording.hex 8 f.flags.bits.toNat ++ "] " ++ owner ++ Wording.listedField name ++ " [" ++ text ++
          "]\n")
  | methodDef {i : Nat} {m : MethodDef} {owner name text : String} {signature : Signature} :
      a.get MethodDef i = .ok m → a.OwnerShown (a.methodOwner? i) owner → a.text m.name = .ok name →
      a.readSignature SignatureReader.signature m.sig = .ok signature → signature.Prints text →
      Details a .methodDef i
        (" [Flags: " ++ Wording.hex 8 m.flags.bits.toNat ++ "] [RVA: " ++ Wording.hex 4 m.rva.toNat ++ "] " ++ owner ++
          "::" ++ name ++ " [" ++ text ++ "]\n")
  | attribute {i : Nat} {r : Attribute} : a.get Attribute i = .ok r → Details a .attributes i
      (" [" ++ Wording.hex 4 r.ownerType.toNat ++ ":" ++ Wording.hex 4 r.ownerIndex.toNat ++ "] " ++
        Wording.hex 4 r.constructor.toNat ++ " " ++ Wording.hex 4 r.data.toNat ++ "\n")
  | typeSpec {i : Nat} {r : TypeSpec} {type : Element} {text : String} : a.get TypeSpec i = .ok r →
      a.readSignature SignatureReader.typeSpec r.sig = .ok type → type.Prints text →
      Details a .typeSpec i (" [" ++ text ++ "]\n")
  | resourceFile {i : Nat} {r : ResourceFile} {name : String} : a.get ResourceFile i = .ok r →
      a.text r.name = .ok name → Details a .resourcesFiles i
        (" " ++ name ++ " [Resources: " ++ toString r.resourceCount.toNat ++ "]\n")
  | resource {i : Nat} {r next : Resource} : a.get Resource i = .ok r → a.get Resource (i + 1) = .ok next →
      Details a .resources i
        (" [" ++ Wording.hex 8 r.id.toInt32.toUInt32.toNat ++ ":" ++ toString r.kind.toNat ++ "] " ++
          Wording.hex 4 (next.offset - r.offset).toUInt16.toNat ++ " " ++ Wording.hex 8 r.offset.toNat ++ "[" ++
          Wording.hex 8 (a.header.start .resourcesData + r.offset.toNat) ++ "]\n")

/-- An entry starts with a label, the index of the record and its offset. -/
def Lists (a : Assembly) (kind : TableKind) (label : String) (i : Nat) (entry : String) : Prop :=
  ∃ offset details, a.recordOffset kind i = .ok offset ∧ a.Details kind i details ∧
    entry = label ++ Wording.hex 4 i ++ "[" ++ Wording.hex 8 offset ++ "]" ++ details

/-- One entry for each of `count` records. -/
structure Tabulates (a : Assembly) (kind : TableKind) (label : String) (count : Nat) (entries : List String) :
    Prop where
  length : entries.length = count
  lists : ∀ (i : Nat) entry, entries[i]? = some entry → a.Lists kind label i entry

theorem exists_tabulates {f : Nat → Listing} {count : Nat}
    (h : ∀ i, i < count → ∃ entry, (f i).Makes entry ∧ a.Lists kind label i entry) :
    ∃ entries, Listing.Makes ((List.range count).flatMap f) (String.join entries) ∧
      a.Tabulates kind label count entries := by
  refine ⟨(List.range count).map fun i => (f i).written, .flatMap fun i hi => ?_, ?_, fun i entry hentry => ?_⟩
  · obtain ⟨entry, hmakes, -⟩ := h i (List.mem_range.1 hi)
    rwa [hmakes.written]
  · rw [List.length_map, List.length_range]
  · obtain ⟨i', hi', rfl⟩ := Option.map_eq_some_iff.1 (List.getElem?_map ▸ hentry)
    obtain ⟨hi, rfl⟩ := List.getElem?_eq_some_iff.1 hi'
    rw [List.getElem_range] at hi' ⊢
    obtain ⟨entry, hmakes, hlists⟩ := h i (List.length_range (n := count) ▸ hi)
    rw [hmakes.written]
    exact hlists

theorem exists_place {ρ : Type} [Row ρ] {r : ρ} (hr : a.get ρ i = .ok r) :
    ∃ place, a.place (Row.kind ρ) i = .ok place ∧ ∀ label details, a.Details (Row.kind ρ) i details →
      a.Lists (Row.kind ρ) label i (label ++ place ++ details) := by
  obtain ⟨offset, hoffset, -⟩ := bind_eq_ok.1 hr
  refine ⟨_, bind_eq_ok.2 ⟨offset, hoffset, rfl⟩, fun label details hdetails => ?_⟩
  refine ⟨offset, details, hoffset, hdetails, ?_⟩
  simp only [Wording.hex_eq, String.append_assoc]

theorem ownerShown_of_ownerText {owner : Option UInt16} {text : String} (h : a.ownerText owner = .ok text) :
    a.OwnerShown owner text := by
  cases owner with
  | none => exact (Except.ok.inj h).symm
  | some index => exact Image.listedAs_of_listedTypeName h

theorem signatureText_ok {index : UInt16} {signature : Signature}
    (h : a.readSignature SignatureReader.signature index = .ok signature) :
    a.signatureText index = .ok signature.text := bind_eq_ok.2 ⟨signature, h, rfl⟩

section
variable {name nameSpace owner : String} {signature : Signature}

theorem assemblyRefEntry_ok {r : AssemblyRef} (hr : a.get AssemblyRef i = .ok r)
    (hname : a.text r.name = .ok name) :
    ∃ entry, a.assemblyRefEntry i = .ok entry ∧ a.Lists .assemblyRef "AssemblyRef: " i entry := by
  obtain ⟨place, hplace, hlists⟩ := exists_place hr
  have hentry : a.assemblyRefEntry i = _ :=
    bind_eq_ok.2 ⟨r, hr, bind_eq_ok.2 ⟨place, hplace, bind_eq_ok.2 ⟨name, hname, rfl⟩⟩⟩
  have hentryLists : a.Lists .assemblyRef "AssemblyRef: " i _ := hlists _ _ (.assemblyRef hr hname)
  refine ⟨_, hentry, ?_⟩
  simpa only [Text.toString_text, Wording.version_eq, String.append_assoc] using hentryLists

theorem typeRefEntry_ok {r : TypeRef} (hr : a.get TypeRef i = .ok r) (hname : a.text r.name = .ok name)
    (hnameSpace : a.text r.nameSpace = .ok nameSpace) :
    ∃ entry, a.typeRefEntry i = .ok entry ∧ a.Lists .typeRef "TypeRef " i entry := by
  obtain ⟨place, hplace, hlists⟩ := exists_place hr
  have hentry : a.typeRefEntry i = _ :=
    bind_eq_ok.2 ⟨r, hr, bind_eq_ok.2 ⟨place, hplace, bind_eq_ok.2 ⟨nameSpace, hnameSpace,
      bind_eq_ok.2 ⟨name, hname, rfl⟩⟩⟩⟩
  have hentryLists : a.Lists .typeRef "TypeRef " i _ := hlists _ _ (.typeRef hr hnameSpace hname)
  refine ⟨_, hentry, ?_⟩
  simpa only [hex4, Wording.hex_eq, String.append_assoc] using hentryLists

theorem fieldRefEntry_ok {r : FieldRef} (hr : a.get FieldRef i = .ok r) (hname : a.text r.name = .ok name)
    (hsig : a.readSignature SignatureReader.signature r.sig = .ok signature) :
    ∃ entry, a.fieldRefEntry i = .ok entry ∧ a.Lists .fieldRef "FieldRef " i entry := by
  obtain ⟨place, hplace, hlists⟩ := exists_place hr
  have hentry : a.fieldRefEntry i = _ :=
    bind_eq_ok.2 ⟨r, hr, bind_eq_ok.2 ⟨place, hplace, bind_eq_ok.2 ⟨name, hname,
      bind_eq_ok.2 ⟨_, signatureText_ok hsig, rfl⟩⟩⟩⟩
  have hentryLists : a.Lists .fieldRef "FieldRef " i _ := hlists _ _ (.fieldRef hr hname hsig signature.prints_text)
  refine ⟨_, hentry, ?_⟩
  simpa only [hex4, Wording.hex_eq, String.append_assoc] using hentryLists

theorem methodRefEntry_ok {r : MethodRef} (hr : a.get MethodRef i = .ok r) (hname : a.text r.name = .ok name)
    (hsig : a.readSignature SignatureReader.signature r.sig = .ok signature) :
    ∃ entry, a.methodRefEntry i = .ok entry ∧ a.Lists .methodRef "MethodRef " i entry := by
  obtain ⟨place, hplace, hlists⟩ := exists_place hr
  have hentry : a.methodRefEntry i = _ :=
    bind_eq_ok.2 ⟨r, hr, bind_eq_ok.2 ⟨place, hplace, bind_eq_ok.2 ⟨name, hname,
      bind_eq_ok.2 ⟨_, signatureText_ok hsig, rfl⟩⟩⟩⟩
  have hentryLists : a.Lists .methodRef "MethodRef " i _ := hlists _ _ (.methodRef hr hname hsig signature.prints_text)
  refine ⟨_, hentry, ?_⟩
  simpa only [hex4, Wording.hex_eq, String.append_assoc] using hentryLists

theorem typeDefEntry_ok {t : TypeDef} (ht : a.get TypeDef i = .ok t) (hname : a.text t.name = .ok name)
    (hnameSpace : a.text t.nameSpace = .ok nameSpace) :
    ∃ entry, a.typeDefEntry i = .ok entry ∧ a.Lists .typeDef "TypeDef " i entry := by
  obtain ⟨place, hplace, hlists⟩ := exists_place ht
  have hentry : a.typeDefEntry i = _ :=
    bind_eq_ok.2 ⟨t, ht, bind_eq_ok.2 ⟨place, hplace, bind_eq_ok.2 ⟨nameSpace, hnameSpace,
      bind_eq_ok.2 ⟨name, hname, rfl⟩⟩⟩⟩
  have hentryLists : a.Lists .typeDef "TypeDef " i _ := hlists _ _ (.typeDef ht hnameSpace hname)
  refine ⟨_, hentry, ?_⟩
  simpa only [hex4, Wording.hex_eq, String.append_assoc] using hentryLists

theorem methodDefEntry_ok {m : MethodDef} (hm : a.get MethodDef i = .ok m) (hname : a.text m.name = .ok name)
    (howner : a.ownerText (a.methodOwner? i) = .ok owner)
    (hsig : a.readSignature SignatureReader.signature m.sig = .ok signature) :
    ∃ entry, a.methodDefEntry i = .ok entry ∧ a.Lists .methodDef "MethodDef " i entry := by
  obtain ⟨place, hplace, hlists⟩ := exists_place hm
  have hentry : a.methodDefEntry i = _ :=
    bind_eq_ok.2 ⟨m, hm, bind_eq_ok.2 ⟨place, hplace, bind_eq_ok.2 ⟨owner, howner, bind_eq_ok.2 ⟨name, hname,
      bind_eq_ok.2 ⟨_, signatureText_ok hsig, rfl⟩⟩⟩⟩⟩
  have hentryLists : a.Lists .methodDef "MethodDef " i _ := hlists _ _
    (.methodDef hm (ownerShown_of_ownerText howner) hname hsig signature.prints_text)
  refine ⟨_, hentry, ?_⟩
  simpa only [hex4, Wording.hex_eq, String.append_assoc] using hentryLists

theorem attributeEntry_ok {r : Attribute} (hr : a.get Attribute i = .ok r) :
    ∃ entry, a.attributeEntry i = .ok entry ∧ a.Lists .attributes "Attribute " i entry := by
  obtain ⟨place, hplace, hlists⟩ := exists_place hr
  have hentry : a.attributeEntry i = _ := bind_eq_ok.2 ⟨r, hr, bind_eq_ok.2 ⟨place, hplace, rfl⟩⟩
  have hentryLists : a.Lists .attributes "Attribute " i _ := hlists _ _ (.attribute hr)
  refine ⟨_, hentry, ?_⟩
  simpa only [hex4, Wording.hex_eq, String.append_assoc] using hentryLists

theorem typeSpecEntry_ok {r : TypeSpec} {type : Element} (hr : a.get TypeSpec i = .ok r)
    (hsig : a.readSignature SignatureReader.typeSpec r.sig = .ok type) :
    ∃ entry, a.typeSpecEntry i = .ok entry ∧ a.Lists .typeSpec "TypeSpec " i entry := by
  obtain ⟨place, hplace, hlists⟩ := exists_place hr
  have hentry : a.typeSpecEntry i = _ :=
    bind_eq_ok.2 ⟨r, hr, bind_eq_ok.2 ⟨type, hsig, bind_eq_ok.2 ⟨place, hplace, rfl⟩⟩⟩
  have hentryLists : a.Lists .typeSpec "TypeSpec " i _ := hlists _ _ (.typeSpec hr hsig type.prints_text)
  refine ⟨_, hentry, ?_⟩
  simpa only [String.append_assoc] using hentryLists

theorem resourceFileEntry_ok {r : ResourceFile} (hr : a.get ResourceFile i = .ok r)
    (hname : a.text r.name = .ok name) :
    ∃ entry, a.resourceFileEntry i = .ok entry ∧ a.Lists .resourcesFiles "ResourceFile " i entry := by
  obtain ⟨place, hplace, hlists⟩ := exists_place hr
  have hentry : a.resourceFileEntry i = _ :=
    bind_eq_ok.2 ⟨r, hr, bind_eq_ok.2 ⟨place, hplace, bind_eq_ok.2 ⟨name, hname, rfl⟩⟩⟩
  have hentryLists : a.Lists .resourcesFiles "ResourceFile " i _ := hlists _ _ (.resourceFile hr hname)
  refine ⟨_, hentry, ?_⟩
  simpa only [Text.toString_text, String.append_assoc] using hentryLists

theorem resourceEntry_ok {r next : Resource} (hr : a.get Resource i = .ok r)
    (hnext : a.get Resource (i + 1) = .ok next) :
    ∃ entry, a.resourceEntry i = .ok entry ∧ a.Lists .resources "Resource " i entry := by
  obtain ⟨place, hplace, hlists⟩ := exists_place hr
  have hentry : a.resourceEntry i = _ :=
    bind_eq_ok.2 ⟨r, hr, bind_eq_ok.2 ⟨next, hnext, bind_eq_ok.2 ⟨place, hplace, rfl⟩⟩⟩
  have hentryLists : a.Lists .resources "Resource " i _ := hlists _ _ (.resource hr hnext)
  refine ⟨_, hentry, ?_⟩
  simpa only [hex4, Wording.hex_eq, Text.toString_text, String.append_assoc] using hentryLists

/-- The entry of a field is made in two or three chunks. -/
theorem fieldDefEntry_makes {f : FieldDef} (hf : a.get FieldDef i = .ok f) (hname : a.text f.name = .ok name)
    (howner : a.ownerText (a.fieldOwner? i) = .ok owner)
    (hsig : a.readSignature SignatureReader.signature f.sig = .ok signature) :
    ∃ entry, (a.fieldDefEntry i).Makes entry ∧ a.Lists .fieldDef "FieldDef " i entry := by
  obtain ⟨place, hplace, hlists⟩ := exists_place hf
  have hopening : (do
      let f ← a.get FieldDef i
      return (f, "FieldDef " ++ (← a.place .fieldDef i) ++ " [Flags: " ++
        Text.hex 8 f.flags.bits.toNat ++ "] " ++ (← a.ownerText (a.fieldOwner? i)))) = _ :=
    bind_eq_ok.2 ⟨f, hf, bind_eq_ok.2 ⟨place, hplace, bind_eq_ok.2 ⟨owner, howner, rfl⟩⟩⟩
  have hclosing : ∀ label : String, (do
      return "::" ++ label ++ " [" ++ (← a.signatureText f.sig) ++ "]\n") = _ := fun label =>
    bind_eq_ok.2 ⟨_, signatureText_ok hsig, rfl⟩
  have hentryLists : a.Lists .fieldDef "FieldDef " i _ := hlists _ _
    (.fieldDef hf (ownerShown_of_ownerText howner) hname hsig signature.prints_text)
  unfold fieldDefEntry
  simp only [hopening, hname, hclosing]
  rw [← Wording.listedField_eq] at hentryLists
  split
  · next hreserved =>
    refine ⟨_, .of_texts [_, _, _], ?_⟩
    rw [if_pos hreserved] at hentryLists
    simpa only [Wording.hex_eq, String.join_cons, String.join_nil, String.append_assoc, String.append_empty]
      using hentryLists
  · next hreserved =>
    refine ⟨_, .of_texts [_, _], ?_⟩
    rw [if_neg hreserved] at hentryLists
    simpa only [Wording.hex_eq, String.join_cons, String.join_nil, String.append_assoc, String.append_empty]
      using hentryLists

end

end Assembly

end CompactAssembly

import CompactAssembly.Proofs.ElementGrammar
import CompactAssembly.Proofs.Traversal
import CompactAssembly.Signature.Encoding

/-!
# Signatures read back

The stored form of an element is a word of the grammar that stands for it (`Element.spells_encode`), and a
word says by itself where it ends. So a reader takes exactly the stored form of a signature, whatever stands
behind it (`reads_element`, `reads_method`). It gets back what was written if no element is too deep for it and
no unknown code is the code of a type (`Element.Readable`).
-/

namespace CompactAssembly

namespace Compressed

theorem spells_encode {n : Nat} {xs : List UInt8} (h : encode n = .ok xs) : Spells xs n := by
  have hbyte : ∀ k < 256, (UInt8.ofNat k).toNat = k := fun k hk => UInt8.toNat_ofNat_of_lt' hk
  unfold encode at h
  split at h
  · next hn =>
    cases h
    have hspells := Spells.one (UInt8.ofNat n) (by rw [hbyte _ (by omega)]; exact hn)
    rwa [hbyte _ (by omega)] at hspells
  next hn =>
  split at h
  · next hn' =>
    cases h
    have hlead := hbyte (0x80 + n / 0x100) (by omega)
    have hspells := Spells.two (UInt8.ofNat (0x80 + n / 0x100)) (UInt8.ofNat n) (by omega) (by omega)
    have hsum : (0x80 + n / 0x100 - 0x80) * 0x100 + n % 2 ^ 8 = n := by omega
    rwa [hlead, UInt8.toNat_ofNat', hsum] at hspells
  next hn' =>
  split at h
  · next hlimit =>
    cases h
    unfold limit at hlimit
    have hlead := hbyte (0xC0 + n / 0x1000000) (by omega)
    have hspells := Spells.four (UInt8.ofNat (0xC0 + n / 0x1000000)) (UInt8.ofNat (n / 0x10000))
      (UInt8.ofNat (n / 0x100)) (UInt8.ofNat n) (by omega) (by omega)
    have hsum : (0xC0 + n / 0x1000000 - 0xC0) * 0x1000000 + n / 0x10000 % 2 ^ 8 * 0x10000 +
        n / 0x100 % 2 ^ 8 * 0x100 + n % 2 ^ 8 = n := by
      omega
    rwa [hlead, UInt8.toNat_ofNat', UInt8.toNat_ofNat', UInt8.toNat_ofNat', hsum] at hspells
  · cases h

end Compressed

namespace Token
variable {token : Token}

theorem toNat_value (token : Token) : token.value.toNat = (token.tableId <<< 24) ||| token.index := by
  have hindex : token.index = token.value.toNat % 2 ^ 24 := by
    unfold index
    rw [UInt32.toNat_and]
    exact Nat.and_two_pow_sub_one_eq_mod _ 24
  have htable : token.tableId = token.value.toNat / 2 ^ 24 := by
    unfold tableId
    rw [UInt32.toNat_shiftRight]
    exact Nat.shiftRight_eq_div_pow _ 24
  have hlt : token.index < 2 ^ 24 := hindex ▸ Nat.mod_lt _ (by decide)
  rw [← Nat.shiftLeft_add_eq_or_of_lt hlt, Nat.shiftLeft_eq, hindex, htable, Nat.div_add_mod']

theorem tableId_of_table? {kind : TableKind} (h : token.table? = some kind) : token.tableId = kind.id := by
  obtain ⟨hlt, -⟩ := List.getElem?_eq_some_iff.1 h
  exact (List.getElem?_inj hlt (by decide)).1 (h.trans (TableKind.ofId?_id kind).symm)

theorem tableId_of_tag? {tag : Nat} (h : token.tag? = some tag) :
    tag < 3 ∧ token.tableId = compressedTable tag := by
  unfold tag? at h
  split at h <;> cases h
  · next ht => exact ⟨by decide, tableId_of_table? ht⟩
  · next ht => exact ⟨by decide, tableId_of_table? ht⟩
  · next ht => exact ⟨by decide, tableId_of_table? ht⟩

theorem ofCompressed_index {tag : Nat} (h : token.tag? = some tag) :
    ofCompressed (token.index * 4 + tag) = token := by
  obtain ⟨hlt, htable⟩ := tableId_of_tag? h
  have hmod : (token.index * 4 + tag) % 4 = tag := by omega
  have hdiv : (token.index * 4 + tag) / 4 = token.index := by omega
  unfold ofCompressed
  rw [hmod, hdiv, ← htable, ← toNat_value]
  exact congrArg Token.mk (UInt32.ofNat_toNat)

theorem exists_spells_compressed {xs : List UInt8} (h : token.compressed = .ok xs) :
    ∃ n, Compressed.Spells xs n ∧ ofCompressed n = token := by
  unfold compressed at h
  split at h
  · next tag htag => exact ⟨_, Compressed.spells_encode h, ofCompressed_index htag⟩
  · cases h

end Token

/-- What survives being stored: no more wrappers than a reader may open, and no unknown code that is the
code of a type. -/
structure Element.Readable (e : Element) : Prop where
  wrappers : e.wrappers ≤ 48
  unknown : ∀ code, e.innermost = .unknown code → DataType.ofCode? code = none

structure MethodSignature.Readable (signature : MethodSignature) : Prop where
  result : signature.result.Readable
  params : ∀ param ∈ signature.params, param.Readable

theorem Element.encode_ok_iff {e : Element} {xs : List UInt8} :
    e.encode = .ok xs ↔ ∃ payload, e.payload = .ok payload ∧ xs = e.opcodes ++ payload := by
  unfold Element.encode
  cases e.payload with
  | error fault => exact ⟨nofun, nofun⟩
  | ok payload =>
    constructor
    · rintro ⟨⟩
      exact ⟨payload, rfl, rfl⟩
    · rintro ⟨_, ⟨⟩, rfl⟩
      rfl

theorem Element.encode_ne_nil {e : Element} {xs : List UInt8} (h : e.encode = .ok xs) : xs ≠ [] := by
  obtain ⟨payload, -, rfl⟩ := Element.encode_ok_iff.1 h
  cases e <;> exact List.cons_ne_nil _ _

theorem Element.spells_opcodes {e : Element} {payload : List UInt8}
    (hunknown : ∀ code, e.innermost = .unknown code → DataType.ofCode? code = none)
    (h : e.payload = .ok payload) : Element.Spells (e.opcodes ++ payload) e := by
  induction e with
  | primitive p =>
    cases h
    exact .primitive p
  | byRef inner ih => exact .byRef (ih hunknown h)
  | szArray inner ih => exact .szArray (ih hunknown h)
  | valueType token =>
    obtain ⟨n, hn, rfl⟩ := Token.exists_spells_compressed h
    exact .valueType hn
  | classType token =>
    obtain ⟨n, hn, rfl⟩ := Token.exists_spells_compressed h
    exact .classType hn
  | unknown code =>
    cases h
    exact .unknown code (DataType.ofCode?_eq_none_iff.1 (hunknown code rfl))

theorem Element.spells_encode {e : Element} {xs : List UInt8}
    (hunknown : ∀ code, e.innermost = .unknown code → DataType.ofCode? code = none) (h : e.encode = .ok xs) :
    Element.Spells xs e := by
  obtain ⟨payload, hpayload, rfl⟩ := Element.encode_ok_iff.1 h
  exact Element.spells_opcodes hunknown hpayload

theorem encodeField_ne_nil {type : Element} {xs : List UInt8} (h : encodeField type = .ok xs) : xs ≠ [] := by
  obtain ⟨bytes, -, h⟩ := bind_eq_ok.1 h
  cases h
  exact List.cons_ne_nil _ _

theorem encodeElements_cons_ok_iff {e : Element} {es : List Element} {xs : List UInt8} :
    encodeElements (e :: es) = .ok xs ↔
      ∃ first rest, e.encode = .ok first ∧ encodeElements es = .ok rest ∧ xs = first ++ rest := by
  constructor
  · intro h
    obtain ⟨first, hfirst, h⟩ := bind_eq_ok.1 h
    obtain ⟨rest, hrest, h⟩ := bind_eq_ok.1 h
    cases h
    exact ⟨first, rest, hfirst, hrest, rfl⟩
  · rintro ⟨first, rest, hfirst, hrest, rfl⟩
    exact bind_eq_ok.2 ⟨first, hfirst, bind_eq_ok.2 ⟨rest, hrest, rfl⟩⟩

namespace MethodSignature
variable {signature : MethodSignature} {xs : List UInt8}

def convention (signature : MethodSignature) : UInt8 :=
  if signature.hasThis then Convention.method ||| Convention.hasThis else Convention.method

theorem kind_convention (signature : MethodSignature) :
    Convention.kind signature.convention = Convention.method := by
  unfold convention
  cases signature.hasThis <;> decide

theorem hasThis_convention (signature : MethodSignature) :
    (signature.convention &&& Convention.hasThis != 0) = signature.hasThis := by
  unfold convention
  cases signature.hasThis <;> decide

theorem encode_ok_iff : signature.encode = .ok xs ↔ signature.params.length < 256 ∧
    ∃ result params, signature.result.encode = .ok result ∧ encodeElements signature.params = .ok params ∧
      xs = signature.convention :: UInt8.ofNat signature.params.length :: (result ++ params) := by
  unfold encode
  constructor
  · intro h
    split at h
    · next hcount =>
      obtain ⟨elements, helements, h⟩ := bind_eq_ok.1 h
      obtain ⟨result, params, hresult, hparams, rfl⟩ := encodeElements_cons_ok_iff.1 helements
      cases h
      exact ⟨hcount, result, params, hresult, hparams, rfl⟩
    · cases h
  · rintro ⟨hcount, result, params, hresult, hparams, rfl⟩
    have helements := encodeElements_cons_ok_iff.2 ⟨result, params, hresult, hparams, rfl⟩
    rw [if_pos hcount]
    exact bind_eq_ok.2 ⟨result ++ params, helements, rfl⟩

theorem encode_ne_nil (h : signature.encode = .ok xs) : xs ≠ [] := by
  obtain ⟨-, result, params, -, -, rfl⟩ := encode_ok_iff.1 h
  exact List.cons_ne_nil _ _

theorem exists_convention (h : signature.encode = .ok xs) :
    ∃ convention rest, xs = convention :: rest ∧ Convention.kind convention = Convention.method := by
  obtain ⟨-, result, params, -, -, rfl⟩ := encode_ok_iff.1 h
  exact ⟨_, _, rfl, signature.kind_convention⟩

end MethodSignature

namespace SignatureReader
variable {α β : Type} {reader : SignatureReader α} {m n k : Nat} {xs ys : List UInt8} {a : α}

/-- Takes these bytes as the value when `m` elements are open, and leaves `n` open. -/
def Reads (reader : SignatureReader α) (m n : Nat) (xs : List UInt8) (a : α) : Prop :=
  ∀ (data : Bytes) (pos : Nat), data.HoldsAt pos xs → reader data ⟨pos, m⟩ = .ok a ⟨pos + xs.length, n⟩

theorem reads_pure (a : α) : Reads (pure a) n n [] a := fun _ _ _ => rfl

theorem reads_ofReader {reader : Reader α} (h : reader.Reads xs a) : Reads (ofReader reader) n n xs a := by
  intro data pos hd
  simp only [ofReader, h data pos hd]

theorem reads_byte (b : UInt8) : Reads (ofReader Reader.byte) n n [b] b := reads_ofReader (Reader.reads_byte b)

namespace Reads

theorem value (h : reader.Reads 0 n xs a) {data : Bytes} {pos : Nat} (hd : data.HoldsAt pos xs) :
    reader.value data pos = .ok a := by
  simp only [SignatureReader.value, outcome, h data pos hd]

theorem bind {f : α → SignatureReader β} {b : β} (h : reader.Reads m n xs a) (hf : (f a).Reads n k ys b) :
    (reader >>= f).Reads m k (xs ++ ys) b := by
  intro data pos hd
  obtain ⟨hx, hy⟩ := Bytes.holdsAt_append.1 hd
  rw [run_bind_ok (h data pos hx), hf data _ hy, List.length_append, Nat.add_assoc]

theorem bind_pure {f : α → β} (h : reader.Reads m n xs a) :
    Reads (reader >>= fun a => pure (f a)) m n xs (f a) := by
  have := h.bind (f := fun a => pure (f a)) (reads_pure (f a))
  rwa [List.append_nil] at this

theorem map {f : α → β} (h : reader.Reads m n xs a) : Reads (f <$> reader) m n xs (f a) :=
  fun data pos hd => run_map_ok (h data pos hd)

end Reads

theorem reads_element {e : Element} (he : e.Readable) (h : e.encode = .ok xs) : element.Reads 0 0 xs e :=
  (consumes_element (Element.spells_encode he.unknown h) he.wrappers).reads

theorem reads_elements {es : List Element} (hes : ∀ e ∈ es, e.Readable) (h : encodeElements es = .ok xs) :
    (elements es.length).Reads 0 0 xs es := by
  induction es generalizing xs with
  | nil =>
    cases h
    exact reads_pure _
  | cons e es ih =>
    obtain ⟨first, rest, hfirst, hrest, rfl⟩ := encodeElements_cons_ok_iff.1 h
    have he := reads_element (hes e (.head _)) hfirst
    have hes' := ih (fun e he => hes e (.tail _ he)) hrest
    exact he.bind hes'.bind_pure

theorem reads_methodBody (convention : UInt8) {result : Element} {params : List Element}
    (hcount : params.length < 256) (hr : element.Reads 0 0 xs result)
    (hp : (elements params.length).Reads 0 0 ys params) :
    (methodBody convention).Reads 0 0 (UInt8.ofNat params.length :: (xs ++ ys))
      { hasThis := convention &&& Convention.hasThis != 0, result, params } := by
  have hlen : (UInt8.ofNat params.length).toNat = params.length := UInt8.toNat_ofNat_of_lt' hcount
  rw [← hlen] at hp
  exact .bind (reads_byte _) (.bind hr hp.bind_pure)

theorem reads_method {signature : MethodSignature} (hs : signature.Readable)
    (h : signature.encode = .ok xs) : method.Reads 0 0 xs signature := by
  obtain ⟨hcount, result, params, hresult, hparams, rfl⟩ := MethodSignature.encode_ok_iff.1 h
  -- the first byte announces a method and keeps the flag
  refine .bind (reads_byte _) ?_
  rw [if_pos signature.kind_convention]
  have hbody := reads_methodBody signature.convention hcount (reads_element hs.result hresult)
    (reads_elements hs.params hparams)
  rwa [signature.hasThis_convention] at hbody

theorem reads_field {type : Element} (ht : type.Readable) (h : encodeField type = .ok xs) :
    field.Reads 0 0 xs type := by
  obtain ⟨bytes, hbytes, h⟩ := bind_eq_ok.1 h
  cases h
  exact .bind (reads_byte _) (reads_element ht hbytes)

/-! The reader for any kind of signature finds out by the first byte which one it is. -/

section
variable {data : Bytes} {c : SignatureCursor} {convention : UInt8}

theorem signature_eq_method (h : data[c.pos]? = some convention)
    (hkind : Convention.kind convention = Convention.method) :
    signature data c = (Signature.method <$> method) data c := by
  have hpeek : ofReader Reader.peek data c = .ok convention c := by
    simp only [ofReader, Reader.peek, h]
  have hfit : c.pos + 1 ≤ data.size := by
    obtain ⟨hpos, -⟩ := Array.getElem?_eq_some_iff.1 h
    exact hpos
  have hskip : ofReader (Reader.skip 1) data c = .ok () ⟨c.pos + 1, c.depth⟩ := by
    simp only [ofReader, Reader.skip, if_pos hfit]
  have hbody : method data c = methodBody convention data ⟨c.pos + 1, c.depth⟩ := by
    unfold method
    rw [run_bind_ok (run_byte_some h), if_pos hkind]
  unfold signature
  rw [run_bind_ok hpeek, if_pos hkind, run_bind_ok hskip]
  simp only [run_map, EStateM.map, hbody]

theorem signature_eq_field (h : data[c.pos]? = some convention)
    (hkind : Convention.kind convention = Convention.field) :
    signature data c = (Signature.field <$> field) data c := by
  have hpeek : ofReader Reader.peek data c = .ok convention c := by
    simp only [ofReader, Reader.peek, h]
  have hmethod : Convention.kind convention ≠ Convention.method := by
    rw [hkind]
    decide
  unfold signature
  rw [run_bind_ok hpeek, if_neg hmethod, if_pos hkind]

end

theorem reads_signature_method {signature : MethodSignature} (hs : signature.Readable)
    (h : signature.encode = .ok xs) : SignatureReader.signature.Reads 0 0 xs (.method signature) := by
  obtain ⟨convention, rest, rfl, hkind⟩ := MethodSignature.exists_convention h
  intro data pos hd
  rw [signature_eq_method (c := ⟨pos, 0⟩) hd.head hkind]
  exact (reads_method hs h).map data pos hd

theorem reads_signature_field {type : Element} (ht : type.Readable) (h : encodeField type = .ok xs) :
    SignatureReader.signature.Reads 0 0 xs (.field type) := by
  intro data pos hd
  have hfield := (reads_field ht h).map (f := Signature.field) data pos hd
  obtain ⟨bytes, -, hxs⟩ := bind_eq_ok.1 h
  cases hxs
  rw [signature_eq_field (c := ⟨pos, 0⟩) hd.head (by decide)]
  exact hfield

end SignatureReader

end CompactAssembly

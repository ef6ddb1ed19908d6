import CompactAssembly.Proofs.SignatureCodec

/-!
# Encoding what was decoded, decoding what was encoded

The decoder takes more than the encoder gives: longer compressed integers, flags that nothing looks at, indices
that reach into the byte of the table. What comes out is encoded in the shortest form, so encoding it again is
never longer and settles after one pass (`decoded_signatures_normalise`). In the other direction only the nesting
limit of the decoder stands between a stored element and the element it was made from
(`encoded_signatures_decode`). The encoder refuses no element but for a token that names no type
(`Element.encode_error_iff`).
-/

namespace CompactAssembly

namespace Compressed
variable {n m : Nat} {xs ys : List UInt8}

theorem exists_encode (h : n ≤ limit) : ∃ xs, encode n = .ok xs := by
  unfold encode
  split
  · exact ⟨_, rfl⟩
  split
  · exact ⟨_, rfl⟩
  · exact ⟨_, rfl⟩

theorem length_encode (h : encode n = .ok xs) :
    (n < 0x80 → xs.length = 1) ∧ (n < 0x4000 → xs.length ≤ 2) ∧ xs.length ≤ 4 := by
  unfold encode at h
  split at h
  · cases h
    exact ⟨fun _ => rfl, fun _ => Nat.le_succ 1, Nat.le_add_left 1 3⟩
  next hn =>
  split at h
  · cases h
    exact ⟨fun hlt => absurd hlt hn, fun _ => Nat.le_refl _, Nat.le_add_left 2 2⟩
  next hn' =>
  split at h
  · cases h
    exact ⟨fun hlt => absurd hlt hn, fun hlt => absurd hlt hn', Nat.le_refl _⟩
  · cases h

theorem Spells.length_encode_le (h : Spells xs n) (hm : m ≤ n) (hy : encode m = .ok ys) :
    ys.length ≤ xs.length := by
  obtain ⟨hone, htwo, hfour⟩ := length_encode hy
  cases h with
  | one a ha => exact Nat.le_of_eq (hone (Nat.lt_of_le_of_lt hm ha))
  | two a b ha ha' =>
    have hb := b.toNat_lt
    exact htwo (by omega)
  | four a b c d ha ha' => exact hfour

end Compressed

namespace Token
variable {token : Token} {n : Nat} {xs ys : List UInt8}

/-- A token of a type definition, reference or specification. -/
def NamesType (token : Token) : Prop :=
  token.table? = some .typeDef ∨ token.table? = some .typeRef ∨ token.table? = some .typeSpec

theorem tag?_eq_none_iff : token.tag? = none ↔ ¬ token.NamesType := by
  unfold tag? NamesType
  cases token.table? with
  | none => simp
  | some kind => cases kind <;> simp

theorem index_lt (token : Token) : token.index < 0x1000000 := by
  unfold index
  rw [UInt32.toNat_and]
  exact Nat.lt_of_le_of_lt Nat.and_le_right (by decide)

/-- A token has a compressed form exactly if it names a type. -/
theorem compressed_error_iff {fault : Fault} :
    token.compressed = .error fault ↔ ¬ token.NamesType ∧ fault = .unexpectedToken token := by
  rw [← tag?_eq_none_iff]
  unfold compressed
  cases htag : token.tag? with
  | none =>
    constructor
    · rintro ⟨⟩
      exact ⟨rfl, rfl⟩
    · rintro ⟨-, rfl⟩
      rfl
  | some tag =>
    have hlt := (tableId_of_tag? htag).1
    have hindex := token.index_lt
    obtain ⟨xs, hxs⟩ := Compressed.exists_encode (n := token.index * 4 + tag) (by unfold Compressed.limit; omega)
    show Compressed.encode (token.index * 4 + tag) = _ ↔ _
    rw [hxs]
    exact ⟨nofun, nofun⟩

theorem index_ofCompressed (n : Nat) : (ofCompressed n).index = n / 4 % 0x1000000 := by
  show _ = n / 4 % 2 ^ 24
  unfold index ofCompressed
  rw [UInt32.toNat_and, UInt32.toNat_ofNat']
  have hmask : (0x00FFFFFF : UInt32).toNat = 2 ^ 24 - 1 := rfl
  rw [hmask, Nat.and_two_pow_sub_one_eq_mod, Nat.mod_mod_of_dvd _ (by decide), Nat.or_mod_two_pow,
    Nat.shiftLeft_eq, Nat.mul_mod_left, Nat.zero_or]

theorem compressedTable_inj : ∀ a < 4, ∀ b < 4, compressedTable a = compressedTable b → a = b := by
  decide

theorem tableId_ofCompressed_or (h : n ≤ Compressed.limit) :
    (ofCompressed n).tableId = compressedTable (n % 4) ||| n / 0x4000000 := by
  have htable : compressedTable (n % 4) < 2 ^ 8 := by
    have : n % 4 < 4 := Nat.mod_lt _ (by decide)
    revert this
    generalize n % 4 = k
    revert k
    decide
  unfold Compressed.limit at h
  have hvalue : compressedTable (n % 4) <<< 24 ||| n / 4 < 2 ^ 32 := by
    refine Nat.or_lt_two_pow ?_ (by omega)
    rw [Nat.shiftLeft_eq]
    omega
  have hshift : ((24 : UInt32).toNat % 32) = 24 := rfl
  unfold tableId ofCompressed
  rw [UInt32.toNat_shiftRight, UInt32.toNat_ofNat', Nat.mod_eq_of_lt hvalue, hshift, Nat.shiftRight_or_distrib,
    Nat.shiftLeft_shiftRight, Nat.shiftRight_eq_div_pow, Nat.div_div_eq_div_mul]

theorem tableId_ofCompressed (h : n / 4 < 0x1000000) : (ofCompressed n).tableId = compressedTable (n % 4) := by
  have hspill : n / 0x4000000 = 0 := by omega
  rw [tableId_ofCompressed_or (by unfold Compressed.limit; omega), hspill, Nat.or_zero]

/-- The shortest form of a decoded token is a form of no higher number. -/
theorem exists_encode_of_compressed (h : (ofCompressed n).compressed = .ok ys) :
    ∃ m ≤ n, Compressed.encode m = .ok ys := by
  unfold compressed at h
  split at h
  · next tag htag =>
    obtain ⟨hlt, htag⟩ := tableId_of_tag? htag
    refine ⟨_, ?_, h⟩
    rw [index_ofCompressed]
    by_cases hsmall : n / 4 < 0x1000000
    · -- the table is that of the two low bits
      have htable := tableId_ofCompressed hsmall
      have hsame : tag = n % 4 :=
        compressedTable_inj tag (Nat.lt_succ_of_lt hlt) (n % 4) (Nat.mod_lt _ (by decide))
          (htag.symm.trans htable)
      omega
    · -- the index was cut, so the number is above all that are left
      omega
  · cases h

end Token

namespace Element
variable {e : Element} {es : List Element} {xs ys : List UInt8} {fault : Fault}

/-- The element ends in a token that names no type. -/
def EndsIn (e : Element) (token : Token) : Prop :=
  (e.innermost = .classType token ∨ e.innermost = .valueType token) ∧ ¬ token.NamesType

theorem encode_error_iff : e.encode = .error fault ↔ ∃ token, e.EndsIn token ∧ fault = .unexpectedToken token := by
  have hpayload : e.encode = .error fault ↔ e.payload = .error fault := by
    unfold encode
    cases e.payload with
    | ok payload => exact ⟨nofun, nofun⟩
    | error fault' => exact Iff.rfl
  rw [hpayload]
  clear hpayload
  unfold EndsIn
  induction e with
  | primitive p => simp [payload, innermost]
  | byRef inner ih => exact ih
  | szArray inner ih => exact ih
  | valueType token => simp [payload, innermost, Token.compressed_error_iff]
  | classType token => simp [payload, innermost, Token.compressed_error_iff]
  | unknown code => simp [payload, innermost]

theorem Spells.innermost_unknown (h : Spells xs e) {code : UInt8} (hcode : e.innermost = .unknown code) :
    DataType.ofCode? code = none := by
  induction h with
  | primitive p => cases hcode
  | szArray _ ih => exact ih hcode
  | byRef _ ih => exact ih hcode
  | classType _ => cases hcode
  | valueType _ => cases hcode
  | unknown code' h =>
    cases hcode
    exact DataType.ofCode?_eq_none_iff.2 h

theorem Spells.length_encode_le (h : Spells xs e) (hy : e.encode = .ok ys) : ys.length ≤ xs.length := by
  obtain ⟨payload, hpayload, rfl⟩ := encode_ok_iff.1 hy
  clear hy
  induction h with
  | primitive p =>
    cases hpayload
    exact Nat.le_refl _
  | szArray _ ih => exact Nat.succ_le_succ (ih hpayload)
  | byRef _ ih => exact Nat.succ_le_succ (ih hpayload)
  | classType h =>
    obtain ⟨m, hm, hencode⟩ := Token.exists_encode_of_compressed hpayload
    exact Nat.succ_le_succ (h.length_encode_le hm hencode)
  | valueType h =>
    obtain ⟨m, hm, hencode⟩ := Token.exists_encode_of_compressed hpayload
    exact Nat.succ_le_succ (h.length_encode_le hm hencode)
  | unknown code h =>
    cases hpayload
    exact Nat.le_refl _

end Element

theorem exists_encodeElements_iff {es : List Element} :
    (∃ xs, encodeElements es = .ok xs) ↔ ∀ e ∈ es, ∃ xs, e.encode = .ok xs := by
  induction es with
  | nil => exact ⟨fun _ => nofun, fun _ => ⟨[], rfl⟩⟩
  | cons e es ih =>
    rw [List.forall_mem_cons, ← ih]
    constructor
    · rintro ⟨xs, h⟩
      obtain ⟨first, rest, hfirst, hrest, rfl⟩ := encodeElements_cons_ok_iff.1 h
      exact ⟨⟨first, hfirst⟩, ⟨rest, hrest⟩⟩
    · rintro ⟨⟨first, hfirst⟩, ⟨rest, hrest⟩⟩
      exact ⟨first ++ rest, encodeElements_cons_ok_iff.2 ⟨first, rest, hfirst, hrest, rfl⟩⟩

theorem exists_of_encodeElements_error {es : List Element} {fault : Fault} (h : encodeElements es = .error fault) :
    ∃ e ∈ es, e.encode = .error fault := by
  induction es with
  | nil => cases h
  | cons e es ih =>
    rcases bind_eq_error.1 h with hfirst | ⟨first, -, h⟩
    · exact ⟨e, List.mem_cons_self, hfirst⟩
    · rcases bind_eq_error.1 h with hrest | ⟨rest, -, h⟩
      · obtain ⟨e', hmem, he'⟩ := ih hrest
        exact ⟨e', List.mem_cons_of_mem _ hmem, he'⟩
      · cases h

namespace MethodSignature
variable {signature : MethodSignature}

theorem exists_encode_iff :
    (∃ xs, signature.encode = .ok xs) ↔
      signature.params.length ≤ 255 ∧ ∀ e ∈ signature.result :: signature.params, ∃ xs, e.encode = .ok xs := by
  rw [List.forall_mem_cons, ← exists_encodeElements_iff]
  constructor
  · rintro ⟨xs, h⟩
    obtain ⟨hcount, result, params, hresult, hparams, -⟩ := encode_ok_iff.1 h
    exact ⟨Nat.le_of_lt_succ hcount, ⟨result, hresult⟩, ⟨params, hparams⟩⟩
  · rintro ⟨hcount, ⟨result, hresult⟩, ⟨params, hparams⟩⟩
    exact ⟨_, encode_ok_iff.2 ⟨Nat.lt_succ_of_le hcount, result, params, hresult, hparams, rfl⟩⟩

end MethodSignature

theorem exists_encodeField_iff {type : Element} :
    (∃ xs, encodeField type = .ok xs) ↔ ∃ xs, type.encode = .ok xs := by
  constructor
  · rintro ⟨xs, h⟩
    obtain ⟨bytes, hbytes, -⟩ := bind_eq_ok.1 h
    exact ⟨bytes, hbytes⟩
  · rintro ⟨bytes, hbytes⟩
    exact ⟨_, bind_eq_ok.2 ⟨bytes, hbytes, rfl⟩⟩

namespace SignatureReader
variable {α β σ : Type} {reader : SignatureReader α} {xs ys : List UInt8} {a : α}

theorem Reads.outcome {m n : Nat} (h : reader.Reads m n xs a) {data : Bytes} {pos : Nat}
    (hd : data.HoldsAt pos xs) : reader.outcome data ⟨pos, m⟩ = (.ok a, ⟨pos + xs.length, n⟩) := by
  simp only [SignatureReader.outcome, h data pos hd]

theorem outcome_ok_iff {data : Bytes} {cursor stop : SignatureCursor} :
    reader.outcome data cursor = (.ok a, stop) ↔ reader data cursor = .ok a stop := by
  unfold outcome
  cases reader data cursor with
  | ok value stop' =>
    constructor
    · rintro ⟨⟩
      rfl
    · rintro ⟨⟩
      rfl
  | error fault stop' => exact ⟨nofun, nofun⟩

theorem outcome_error_iff {data : Bytes} {cursor stop : SignatureCursor} {fault : Fault} :
    reader.outcome data cursor = (.error fault, stop) ↔ reader data cursor = .error fault stop := by
  unfold outcome
  cases reader data cursor with
  | ok a stop' => exact ⟨nofun, nofun⟩
  | error fault' stop' =>
    constructor
    · rintro ⟨⟩
      rfl
    · rintro ⟨⟩
      rfl

end SignatureReader

namespace SignatureReader
variable {α β : Type} {reader : SignatureReader α} {form : α → List UInt8 → Prop}

/-- A value that is read with nothing open stands there in such a form, and nothing stays open. -/
def Stores (reader : SignatureReader α) (form : α → List UInt8 → Prop) : Prop :=
  ∀ (data : Bytes) (pos : Nat) (stop : SignatureCursor) (a : α), pos ≤ data.size →
    reader data ⟨pos, 0⟩ = .ok a stop → ∃ xs, form a xs ∧ data.HoldsAt pos xs ∧ stop = ⟨pos + xs.length, 0⟩

theorem stores_pure {a : α} (h : form a []) : Stores (pure a) form := by
  intro data pos stop b hpos hread
  cases hread
  exact ⟨[], h, (Bytes.endsWith_drop hpos).holdsAt List.nil_prefix, rfl⟩

theorem Stores.bind {f : α → SignatureReader β} {form' : β → List UInt8 → Prop} (h : reader.Stores form)
    (hf : ∀ a xs, form a xs → (f a).Stores fun b ys => form' b (xs ++ ys)) : (reader >>= f).Stores form' := by
  intro data pos stop b hpos hread
  obtain ⟨a, mid, ha, hb⟩ := Reader.bind_ok hread
  obtain ⟨xs, hform, hxs, rfl⟩ := h _ _ _ _ hpos ha
  obtain ⟨ys, hform', hys, rfl⟩ := hf a xs hform _ _ _ _ hxs.le_size hb
  exact ⟨xs ++ ys, hform', Bytes.holdsAt_append.2 ⟨hxs, hys⟩, by rw [List.length_append, Nat.add_assoc]⟩

theorem stores_byte : Stores (ofReader Reader.byte) fun b xs => xs = [b] := by
  intro data pos stop b hpos hread
  have hbytes : Word.bytes b = [b] := by
    simp only [Word.bytes, Word.width, Word.toNat, littleEndian, UInt8.ofNat_toNat]
  unfold ofReader at hread
  split at hread
  · next hbyte =>
    cases hread
    obtain ⟨xs, hxs, hd, rfl⟩ := Reader.stores_word data pos _ b hpos hbyte
    exact ⟨xs, hxs.trans hbytes, hd, rfl⟩
  · cases hread

/-- The bytes may be a longer form of the value than the stored one: the value survives being stored, no more
bytes are needed for it, and only an element keeps it from being stored. -/
structure Loose (encode : α → Except Fault (List UInt8)) (Readable : α → Prop) (elements : α → List Element)
    (a : α) (xs : List UInt8) : Prop where
  readable : Readable a
  length_le : ∀ ys, encode a = .ok ys → ys.length ≤ xs.length
  fault : ∀ fault, encode a = .error fault → ∃ e ∈ elements a, e.encode = .error fault

theorem stores_element : element.Stores (Loose Element.encode Element.Readable fun e => [e]) := by
  intro data pos stop e hpos hread
  obtain ⟨word, hword, hroom, hd, hstop⟩ := elementWithin_ok_iff.1 hread
  exact ⟨word, ⟨⟨Nat.le_of_lt_succ hroom, fun _ => hword.innermost_unknown⟩, fun _ => hword.length_encode_le,
    fun _ h => ⟨e, List.mem_singleton_self e, h⟩⟩, hd, hstop⟩

theorem stores_elements (count : Nat) :
    (elements count).Stores fun es xs =>
      es.length = count ∧ Loose encodeElements (fun es => ∀ e ∈ es, e.Readable) id es xs := by
  induction count with
  | zero => exact stores_pure ⟨rfl, nofun, fun ys h => by cases h; exact Nat.le_refl _, nofun⟩
  | succ count ih =>
    refine stores_element.bind fun e xs he => ih.bind fun es ys ⟨hcount, hes⟩ => stores_pure ⟨?_, ?_, ?_, ?_⟩
    · rw [List.length_cons, hcount]
    · exact List.forall_mem_cons.2 ⟨he.readable, hes.readable⟩
    · intro zs h
      obtain ⟨first, rest, hfirst, hrest, rfl⟩ := encodeElements_cons_ok_iff.1 h
      have hx := he.length_le first hfirst
      have hy := hes.length_le rest hrest
      simp only [List.length_append, List.length_nil]
      omega
    · exact fun fault => exists_of_encodeElements_error

theorem stores_field : field.Stores (Loose encodeField Element.Readable fun type => [type]) := by
  refine stores_byte.bind ?_
  rintro convention _ rfl
  split
  · intro data pos stop type hpos hread
    obtain ⟨xs, h, hd, hstop⟩ := stores_element data pos stop type hpos hread
    refine ⟨xs, ⟨h.readable, fun ys hy => ?_, fun fault hfault => ?_⟩, hd, hstop⟩
    · obtain ⟨bytes, hbytes, hy⟩ := bind_eq_ok.1 hy
      cases hy
      exact Nat.succ_le_succ (h.length_le bytes hbytes)
    · rcases bind_eq_error.1 hfault with hfault | ⟨bytes, -, hfault⟩
      · exact h.fault fault hfault
      · cases hfault
  · rintro _ _ _ _ _ ⟨⟩

theorem stores_method :
    method.Stores (Loose MethodSignature.encode MethodSignature.Readable fun s => s.result :: s.params) := by
  refine stores_byte.bind ?_
  rintro convention _ rfl
  split
  · refine stores_byte.bind ?_
    rintro count _ rfl
    refine stores_element.bind fun result xs hresult =>
      (stores_elements count.toNat).bind fun params ys ⟨hcount, hparams⟩ => stores_pure ⟨?_, ?_, ?_⟩
    · exact ⟨hresult.readable, hparams.readable⟩
    · intro zs h
      obtain ⟨-, first, rest, hfirst, hrest, rfl⟩ := MethodSignature.encode_ok_iff.1 h
      have hx := hresult.length_le first hfirst
      have hy := hparams.length_le rest hrest
      simp only [List.length_append, List.length_cons, List.length_nil]
      omega
    · -- a count that was read from a byte is not too high
      intro fault hfault
      unfold MethodSignature.encode at hfault
      rw [if_pos (show params.length < 256 from hcount ▸ count.toNat_lt)] at hfault
      rcases bind_eq_error.1 hfault with hfault | ⟨bytes, -, hfault⟩
      · exact exists_of_encodeElements_error hfault
      · cases hfault
  · rintro _ _ _ _ _ ⟨⟩

end SignatureReader

theorem Bytes.holdsAt_toArray (before word after : List UInt8) :
    Bytes.HoldsAt (before ++ word ++ after).toArray before.length word :=
  ⟨before, after, by rw [List.append_assoc], rfl⟩

/-- An element is refused for a token that names no type, and for nothing else. What it is stored as decodes to
it again, unless it has more than 48 wrappers: then it is too deep. Signatures are stored if all their elements
are and the parameters can be counted, and read back as they were. -/
theorem encoded_signatures_decode :
    (∀ e : Element,
      (∀ fault, e.encode = .error fault ↔ ∃ token, e.EndsIn token ∧ fault = .unexpectedToken token) ∧
      ((∀ code, e.innermost = .unknown code → DataType.ofCode? code = none) →
        ∀ word, e.encode = .ok word → ∀ before after : List UInt8,
          (e.wrappers ≤ 48 → decodeElement (before ++ word ++ after).toArray before.length =
            .ok (e, before.length + word.length)) ∧
          (48 < e.wrappers → decodeElement (before ++ word ++ after).toArray before.length =
            .error (.nestingLimit 50)))) ∧
    (∀ signature : MethodSignature,
      ((∃ word, signature.encode = .ok word) ↔ signature.params.length ≤ 255 ∧
        ∀ e ∈ signature.result :: signature.params, ∃ word, e.encode = .ok word) ∧
      (signature.Readable → ∀ word, signature.encode = .ok word → ∀ before after : List UInt8,
        SignatureReader.method.outcome (before ++ word ++ after).toArray ⟨before.length, 0⟩ =
          (.ok signature, ⟨before.length + word.length, 0⟩))) ∧
    (∀ type : Element,
      ((∃ word, encodeField type = .ok word) ↔ ∃ word, type.encode = .ok word) ∧
      (type.Readable → ∀ word, encodeField type = .ok word → ∀ before after : List UInt8,
        SignatureReader.field.outcome (before ++ word ++ after).toArray ⟨before.length, 0⟩ =
          (.ok type, ⟨before.length + word.length, 0⟩))) := by
  refine ⟨fun e => ⟨fun fault => Element.encode_error_iff, fun hunknown word hword before after => ?_⟩,
    fun signature => ⟨MethodSignature.exists_encode_iff, fun hreadable word hword before after => ?_⟩,
    fun type => ⟨exists_encodeField_iff, fun hreadable word hword before after => ?_⟩⟩
  · have hspells := Element.spells_encode hunknown hword
    have hd := Bytes.holdsAt_toArray before word after
    refine ⟨fun hroom => (Element.Decodes.word hspells hroom hd).eq, fun hdeep => ?_⟩
    obtain ⟨wraps, hwraps, hlen, hall⟩ := hspells.exists_wraps (k := 49) hdeep
    exact (Element.Decodes.deep hall hlen (hd.initial hwraps)).eq
  · exact (SignatureReader.reads_method hreadable hword).outcome (Bytes.holdsAt_toArray before word after)
  · exact (SignatureReader.reads_field hreadable hword).outcome (Bytes.holdsAt_toArray before word after)

/-- A value type by reference, in an array, and a method that takes it. -/
theorem encoded_signatures_decode_nested :
    let e : Element := .byRef (.szArray (.valueType ⟨0x01000030⟩))
    e.encode = .ok [0x14, 0x13, 0x12, 0x80, 0xC1] ∧
      decodeElement #[0x07, 0x14, 0x13, 0x12, 0x80, 0xC1, 0x0F] 1 = .ok (e, 6) ∧
      SignatureReader.method.outcome #[0x20, 0x01, 0x00, 0x14, 0x13, 0x12, 0x80, 0xC1] ⟨0, 0⟩ =
        (.ok ⟨true, .primitive .void, [e]⟩, ⟨8, 0⟩) := by
  intro e
  have hencode : e.encode = .ok [0x14, 0x13, 0x12, 0x80, 0xC1] := by cbv
  have hunknown : ∀ code, e.innermost = .unknown code → DataType.ofCode? code = none := nofun
  obtain ⟨helement, hmethod, -⟩ := encoded_signatures_decode
  refine ⟨hencode, ((helement e).2 hunknown _ hencode [0x07] [0x0F]).1 (by decide), ?_⟩
  have hsignature : MethodSignature.Readable ⟨true, .primitive .void, [e]⟩ := {
    result := ⟨by decide, nofun⟩
    params := List.forall_mem_singleton.2 ⟨by decide, hunknown⟩ }
  exact (hmethod ⟨true, .primitive .void, [e]⟩).2 hsignature [0x20, 0x01, 0x00, 0x14, 0x13, 0x12, 0x80, 0xC1]
    (by cbv) [] []

/-- What the reader takes from data is stored in no more bytes than it took, and those read back as the same
value, to be stored in the same bytes again. Only a token that names no type keeps it from being stored. -/
def SignatureReader.Normalises {σ : Type} (reader : SignatureReader σ)
    (encode : σ → Except Fault (List UInt8)) (elements : σ → List Element) : Prop :=
  ∀ (data : Bytes) (pos : Nat) (value : σ) (stop : SignatureCursor), pos ≤ data.size →
    reader.outcome data ⟨pos, 0⟩ = (.ok value, stop) →
      (∀ word, encode value = .ok word → word.length ≤ stop.pos - pos ∧
        ∃ value', reader.outcome word.toArray ⟨0, 0⟩ = (.ok value', ⟨word.length, 0⟩) ∧ value' = value ∧
          encode value' = .ok word) ∧
      ∀ fault, encode value = .error fault →
        ∃ e ∈ elements value, ∃ token, e.EndsIn token ∧ fault = .unexpectedToken token

theorem SignatureReader.Stores.normalises {σ : Type} {reader : SignatureReader σ}
    {encode : σ → Except Fault (List UInt8)} {Readable : σ → Prop} {elements : σ → List Element}
    (h : reader.Stores (Loose encode Readable elements))
    (hreads : ∀ {value xs}, Readable value → encode value = .ok xs → reader.Reads 0 0 xs value) :
    reader.Normalises encode elements := by
  intro data pos value stop hpos hread
  obtain ⟨xs, hloose, -, rfl⟩ := h data pos stop value hpos (outcome_ok_iff.1 hread)
  refine ⟨fun word hword => ⟨?_, value, ?_, rfl, hword⟩, fun fault hfault => ?_⟩
  · rw [Nat.add_sub_cancel_left]
    exact hloose.length_le word hword
  · have hback := (hreads hloose.readable hword).outcome (Bytes.holdsAt_toArray [] word [])
    rwa [List.append_nil, List.nil_append, List.length_nil, Nat.zero_add] at hback
  · obtain ⟨e, hmem, he⟩ := hloose.fault fault hfault
    exact ⟨e, hmem, Element.encode_error_iff.1 he⟩

/-- Methods, fields and specifications of types are decoded to what their shortest form stands for. -/
theorem decoded_signatures_normalise :
    SignatureReader.method.Normalises MethodSignature.encode (fun s => s.result :: s.params) ∧
      SignatureReader.field.Normalises encodeField (fun type => [type]) ∧
      SignatureReader.typeSpec.Normalises Element.encode (fun type => [type]) :=
  ⟨SignatureReader.stores_method.normalises SignatureReader.reads_method,
    SignatureReader.stores_field.normalises SignatureReader.reads_field,
    SignatureReader.stores_element.normalises SignatureReader.reads_element⟩

/-- A flag that nothing looks at and a class in four bytes where one would do. -/
theorem decoded_signatures_normalise_class :
    SignatureReader.field.outcome #[0x46, 0x11, 0xC0, 0x00, 0x00, 0x04] ⟨0, 0⟩ =
        (.ok (.classType ⟨0x04000001⟩), ⟨6, 0⟩) ∧
      encodeField (.classType ⟨0x04000001⟩) = .ok [0x06, 0x11, 0x04] ∧
      SignatureReader.field.outcome #[0x06, 0x11, 0x04] ⟨0, 0⟩ = (.ok (.classType ⟨0x04000001⟩), ⟨3, 0⟩) := by
  have hread : SignatureReader.field.outcome #[0x46, 0x11, 0xC0, 0x00, 0x00, 0x04] ⟨0, 0⟩ =
      (.ok (.classType ⟨0x04000001⟩), ⟨6, 0⟩) := rfl
  have hencode : encodeField (.classType ⟨0x04000001⟩) = .ok [0x06, 0x11, 0x04] := by cbv
  obtain ⟨-, hfield, -⟩ := decoded_signatures_normalise
  obtain ⟨-, value, hback, rfl, -⟩ := (hfield _ 0 _ _ (Nat.zero_le _) hread).1 _ hencode
  exact ⟨hread, hencode, hback⟩

end CompactAssembly

import CompactAssembly.Proofs.Consumption

/-!
# The grammar of elements

`Element.Spells word e`: the bytes are a word of the grammar and stand for `e`. A decoder that may open enough
elements consumes exactly a word (`SignatureReader.consumes_elementWithin`), and what is no word is too deep,
has a token that starts with no length, or ends too early (`Element.verdict`). These cases exclude each other
because the decoder answers each in its own way, which settles its outcome for all data.
-/

namespace CompactAssembly

namespace Compressed

/-- The stored forms of a number, the shortest one and longer ones. -/
inductive Spells : List UInt8 → Nat → Prop
  | one (a : UInt8) (ha : a.toNat < 0x80) : Spells [a] a.toNat
  | two (a b : UInt8) (ha : 0x80 ≤ a.toNat) (ha' : a.toNat < 0xC0) :
    Spells [a, b] ((a.toNat - 0x80) * 0x100 + b.toNat)
  | four (a b c d : UInt8) (ha : 0xC0 ≤ a.toNat) (ha' : a.toNat < 0xE0) :
    Spells [a, b, c, d] ((a.toNat - 0xC0) * 0x1000000 + b.toNat * 0x10000 + c.toNat * 0x100 + d.toNat)

theorem consumes_read {xs : List UInt8} {n : Nat} (h : Spells xs n) : Consumes read id id xs n := by
  unfold read
  cases h with
  | one a ha =>
    show Consumes _ id id ([a] ++ []) _
    refine .bind (Reader.consumes_byte a) ?_
    rw [if_pos ha]
    exact .pure _
  | two a b ha ha' =>
    show Consumes _ id id ([a] ++ ([b] ++ [])) _
    refine .bind (Reader.consumes_byte a) ?_
    rw [if_neg (Nat.not_lt.2 ha), if_pos ha']
    exact .bind (Reader.consumes_byte b) (.pure _)
  | four a b c d ha ha' =>
    show Consumes _ id id ([a] ++ ([b] ++ ([c] ++ ([d] ++ [])))) _
    refine .bind (Reader.consumes_byte a) ?_
    rw [if_neg (by omega), if_neg (Nat.not_lt.2 ha), if_pos ha']
    exact .bind (Reader.consumes_byte b) (.bind (Reader.consumes_byte c) (.bind (Reader.consumes_byte d)
      (.pure _)))

theorem fails_read {data : Bytes} {pos : Nat} {lead : UInt8} (h : data.HoldsAt pos [lead])
    (hlead : 0xE0 ≤ lead.toNat) : Fails read data pos (.compressedLead lead) := by
  refine .bind_ok (Reader.reads_byte lead data pos h) ?_
  rw [if_neg (by omega), if_neg (by omega), if_neg (by omega)]
  exact ⟨_, rfl⟩

/-- What bytes are as a compressed integer: they start with one, break off in one, or start with none. -/
inductive Verdict (xs : List UInt8) : Prop
  | word {word : List UInt8} {n : Nat} (h : Spells word n) (hxs : word <+: xs)
  | short {word : List UInt8} {n : Nat} (h : Spells word n) (hxs : xs <+: word) (hne : xs ≠ word)
  | lead (lead : UInt8) (h : 0xE0 ≤ lead.toNat) (hxs : [lead] <+: xs)

theorem verdict (xs : List UInt8) : Verdict xs := by
  cases xs with
  | nil => exact .short (.one 0 (by decide)) List.nil_prefix nofun
  | cons a xs =>
    by_cases h₁ : a.toNat < 0x80
    · exact .word (.one a h₁) ⟨xs, rfl⟩
    by_cases h₂ : a.toNat < 0xC0
    · cases xs with
      | nil => exact .short (.two a 0 (Nat.le_of_not_lt h₁) h₂) ⟨[0], rfl⟩ nofun
      | cons b xs => exact .word (.two a b (Nat.le_of_not_lt h₁) h₂) ⟨xs, rfl⟩
    by_cases h₃ : a.toNat < 0xE0
    · have hspells := fun b c d => Spells.four a b c d (Nat.le_of_not_lt h₂) h₃
      match xs with
      | [] => exact .short (hspells 0 0 0) ⟨[0, 0, 0], rfl⟩ nofun
      | [b] => exact .short (hspells b 0 0) ⟨[0, 0], rfl⟩ nofun
      | [b, c] => exact .short (hspells b c 0) ⟨[0], rfl⟩ nofun
      | b :: c :: d :: xs => exact .word (hspells b c d) ⟨xs, rfl⟩
    · exact .lead a (Nat.le_of_not_lt h₃) ⟨xs, rfl⟩

end Compressed

namespace DataType

theorem code_of_ofCode? {code : UInt8} {t : DataType} (h : ofCode? code = some t) : t.code = code := by
  unfold ofCode? at h
  split at h <;> cases h <;> rfl

theorem ofCode?_eq_none_iff {code : UInt8} : ofCode? code = none ↔ code = 13 ∨ code = 14 ∨ 20 < code := by
  have hall : ∀ n < 256, ofCode? (UInt8.ofNat n) = none ↔
      UInt8.ofNat n = 13 ∨ UInt8.ofNat n = 14 ∨ 20 < UInt8.ofNat n := by
    decide +kernel
  have hcode := hall code.toNat code.toNat_lt
  rwa [UInt8.ofNat_toNat] at hcode

end DataType

namespace Element

/-- The words of the grammar and what they stand for. -/
inductive Spells : List UInt8 → Element → Prop
  | primitive (p : Primitive) : Spells [p.code] (.primitive p)
  | szArray {xs : List UInt8} {inner : Element} (h : Spells xs inner) : Spells (0x13 :: xs) (.szArray inner)
  | byRef {xs : List UInt8} {inner : Element} (h : Spells xs inner) : Spells (0x14 :: xs) (.byRef inner)
  | classType {xs : List UInt8} {n : Nat} (h : Compressed.Spells xs n) :
    Spells (0x11 :: xs) (.classType (.ofCompressed n))
  | valueType {xs : List UInt8} {n : Nat} (h : Compressed.Spells xs n) :
    Spells (0x12 :: xs) (.valueType (.ofCompressed n))
  | unknown (code : UInt8) (h : code = 13 ∨ code = 14 ∨ 20 < code) : Spells [code] (.unknown code)

theorem Spells.ne_nil {xs : List UInt8} {e : Element} (h : Spells xs e) : xs ≠ [] := by
  cases h <;> exact List.cons_ne_nil _ _

def Wraps (code : UInt8) : Prop := code = 0x13 ∨ code = 0x14

instance : DecidablePred Wraps := fun code => inferInstanceAs (Decidable (code = 0x13 ∨ code = 0x14))

def Refers (code : UInt8) : Prop := code = 0x11 ∨ code = 0x12

/-- What bytes are to a decoder that may open `room` elements. -/
inductive Verdict (room : Nat) (xs : List UInt8) : Prop
  | word {word : List UInt8} {e : Element} (h : Spells word e) (hroom : e.wrappers < room) (hxs : word <+: xs)
  | short {word : List UInt8} {e : Element} (h : Spells word e) (hroom : e.wrappers < room) (hxs : xs <+: word)
    (hne : xs ≠ word)
  | deep {wraps : List UInt8} (h : ∀ b ∈ wraps, Wraps b) (hroom : wraps.length = room) (hxs : wraps <+: xs)
  | lead {wraps : List UInt8} (h : ∀ b ∈ wraps, Wraps b) (hroom : wraps.length < room) {code lead : UInt8}
    (hcode : Refers code) (hlead : 0xE0 ≤ lead.toNat) (hxs : wraps ++ [code, lead] <+: xs)

theorem Verdict.wrap {room : Nat} {xs : List UInt8} (h : Verdict room xs) {code : UInt8} {f : Element → Element}
    (hcode : Wraps code) (hspells : ∀ {xs e}, Spells xs e → Spells (code :: xs) (f e))
    (hf : ∀ e, (f e).wrappers = e.wrappers + 1) : Verdict (room + 1) (code :: xs) := by
  cases h with
  | word h hroom hxs =>
    exact .word (hspells h) (hf _ ▸ Nat.succ_lt_succ hroom) (List.cons_prefix_cons.2 ⟨rfl, hxs⟩)
  | short h hroom hxs hne =>
    exact .short (hspells h) (hf _ ▸ Nat.succ_lt_succ hroom) (List.cons_prefix_cons.2 ⟨rfl, hxs⟩)
      (fun he => hne (List.cons.inj he).2)
  | deep h hroom hxs =>
    exact .deep (List.forall_mem_cons.2 ⟨hcode, h⟩) (congrArg (· + 1) hroom)
      (List.cons_prefix_cons.2 ⟨rfl, hxs⟩)
  | lead h hroom hrefers hlead hxs =>
    exact .lead (List.forall_mem_cons.2 ⟨hcode, h⟩) (Nat.succ_lt_succ hroom) hrefers hlead
      (List.cons_prefix_cons.2 ⟨rfl, hxs⟩)

/-- A token is inside no more than one element. -/
theorem Verdict.token {room : Nat} {xs : List UInt8} (h : Compressed.Verdict xs) {code : UInt8}
    {f : Nat → Element} (hcode : Refers code)
    (hspells : ∀ {xs n}, Compressed.Spells xs n → Spells (code :: xs) (f n))
    (hf : ∀ n, (f n).wrappers = 0) : Verdict (room + 1) (code :: xs) := by
  cases h with
  | word h hxs => exact .word (hspells h) (hf _ ▸ Nat.zero_lt_succ _) (List.cons_prefix_cons.2 ⟨rfl, hxs⟩)
  | short h hxs hne =>
    exact .short (hspells h) (hf _ ▸ Nat.zero_lt_succ _) (List.cons_prefix_cons.2 ⟨rfl, hxs⟩)
      (fun he => hne (List.cons.inj he).2)
  | lead lead h hxs =>
    exact @Verdict.lead _ _ [] nofun (Nat.zero_lt_succ _) code lead hcode h (List.cons_prefix_cons.2 ⟨rfl, hxs⟩)

/-- Bytes are a word, a part of one, too deep, or have a token that starts with no length. -/
theorem verdict (room : Nat) (xs : List UInt8) : Verdict room xs := by
  induction room generalizing xs with
  | zero => exact @Verdict.deep _ _ [] nofun rfl List.nil_prefix
  | succ room ih =>
    cases xs with
    | nil => exact .short (.primitive .void) (Nat.zero_lt_succ _) List.nil_prefix nofun
    | cons code xs =>
      cases ht : DataType.ofCode? code with
      | none =>
        exact .word (.unknown code (DataType.ofCode?_eq_none_iff.1 ht)) (Nat.zero_lt_succ _) ⟨xs, rfl⟩
      | some t =>
        have hcode := DataType.code_of_ofCode? ht
        subst hcode
        cases t with
        | primitive p => exact .word (.primitive p) (Nat.zero_lt_succ _) ⟨xs, rfl⟩
        | byRef => exact (ih xs).wrap (.inr rfl) .byRef fun _ => rfl
        | szArray => exact (ih xs).wrap (.inl rfl) .szArray fun _ => rfl
        | valueType => exact .token (Compressed.verdict xs) (.inr rfl) .valueType fun _ => rfl
        | classType => exact .token (Compressed.verdict xs) (.inl rfl) .classType fun _ => rfl

end Element

namespace SignatureReader
variable {room n : Nat} {xs : List UInt8} {data : Bytes} {pos : Nat} {fault : Fault}

/-- What is read behind the first byte of an element. -/
def layer (room : Nat) (code : UInt8) : Option DataType → SignatureReader Element
  | some .byRef => Element.byRef <$> elementWithin room
  | some .szArray => Element.szArray <$> elementWithin room
  | some .valueType => Element.valueType <$> ofReader Token.readCompressed
  | some .classType => Element.classType <$> ofReader Token.readCompressed
  | some (.primitive p) => pure (Element.primitive p)
  | none => pure (Element.unknown code)

theorem elementWithin_succ (room : Nat) :
    elementWithin (room + 1) = do
      enter
      let code ← ofReader Reader.byte
      let element ← layer room code (DataType.ofCode? code)
      leave
      return element := by
  rw [elementWithin]
  congr 1
  funext _
  congr 1
  funext code
  rcases DataType.ofCode? code with _ | _ | _ | _ | _ | _ <;> rfl

theorem consumes_enter : Consumes enter (SignatureCursor.mk · n) (SignatureCursor.mk · (n + 1)) [] () where
  reads _ _ _ := rfl
  short _ _ _ hpart hne := absurd (List.prefix_nil.1 hpart) hne

theorem consumes_leave : Consumes leave (SignatureCursor.mk · (n + 1)) (SignatureCursor.mk · n) [] () where
  reads _ _ _ := rfl
  short _ _ _ hpart hne := absurd (List.prefix_nil.1 hpart) hne

theorem consumes_layer {code : UInt8} {type? : Option DataType} {e : Element}
    (hcode : DataType.ofCode? code = type?)
    (h : Consumes (layer room code type?) (SignatureCursor.mk · (n + 1)) (SignatureCursor.mk · (n + 1)) xs e) :
    Consumes (elementWithin (room + 1)) (SignatureCursor.mk · n) (SignatureCursor.mk · n) (code :: xs) e := by
  subst hcode
  have h' : Consumes (elementWithin (room + 1)) (SignatureCursor.mk · n) (SignatureCursor.mk · n)
      ([] ++ ([code] ++ (xs ++ ([] ++ [])))) e := by
    rw [elementWithin_succ]
    exact consumes_enter.bind ((consumes_ofReader (Reader.consumes_byte code)).bind
      (h.bind (consumes_leave.bind (.pure e))))
  rwa [List.append_nil, List.append_nil] at h'

theorem consumes_token {k : Nat} (h : Compressed.Spells xs k) :
    Consumes (ofReader Token.readCompressed) (SignatureCursor.mk · n) (SignatureCursor.mk · n) xs
      (Token.ofCompressed k) :=
  consumes_ofReader (Compressed.consumes_read h).bind_pure

theorem consumes_elementWithin {e : Element} (h : Element.Spells xs e) (hroom : e.wrappers < room) :
    Consumes (elementWithin room) (SignatureCursor.mk · n) (SignatureCursor.mk · n) xs e := by
  induction h generalizing room n with
  | primitive p =>
    obtain ⟨room, rfl⟩ := Nat.exists_eq_add_one_of_ne_zero (Nat.ne_zero_of_lt hroom)
    exact consumes_layer (DataType.ofCode?_code (.primitive p)) (.pure _)
  | szArray h ih =>
    obtain ⟨room, rfl⟩ := Nat.exists_eq_add_one_of_ne_zero (Nat.ne_zero_of_lt hroom)
    exact consumes_layer (DataType.ofCode?_code .szArray) (ih (Nat.lt_of_succ_lt_succ hroom)).map
  | byRef h ih =>
    obtain ⟨room, rfl⟩ := Nat.exists_eq_add_one_of_ne_zero (Nat.ne_zero_of_lt hroom)
    exact consumes_layer (DataType.ofCode?_code .byRef) (ih (Nat.lt_of_succ_lt_succ hroom)).map
  | classType h =>
    obtain ⟨room, rfl⟩ := Nat.exists_eq_add_one_of_ne_zero (Nat.ne_zero_of_lt hroom)
    exact consumes_layer (DataType.ofCode?_code .classType) (consumes_token h).map
  | valueType h =>
    obtain ⟨room, rfl⟩ := Nat.exists_eq_add_one_of_ne_zero (Nat.ne_zero_of_lt hroom)
    exact consumes_layer (DataType.ofCode?_code .valueType) (consumes_token h).map
  | unknown code h =>
    obtain ⟨room, rfl⟩ := Nat.exists_eq_add_one_of_ne_zero (Nat.ne_zero_of_lt hroom)
    exact consumes_layer (DataType.ofCode?_eq_none_iff.2 h) (.pure _)

theorem fails_layer {code : UInt8} (hd : data.HoldsAt pos [code])
    (h : Fails (layer room code (DataType.ofCode? code)) data ⟨pos + 1, n + 1⟩ fault) :
    Fails (elementWithin (room + 1)) data ⟨pos, n⟩ fault := by
  rw [elementWithin_succ]
  have henter : enter data ⟨pos, n⟩ = .ok () ⟨pos, n + 1⟩ := rfl
  have hcode : ofReader Reader.byte data ⟨pos, n + 1⟩ = .ok code ⟨pos + 1, n + 1⟩ :=
    (consumes_ofReader (Reader.consumes_byte code)).reads data pos hd
  exact .bind_ok henter (.bind_ok hcode h.bind)

theorem fails_wraps {wraps : List UInt8} (h : ∀ b ∈ wraps, Element.Wraps b) (hd : data.HoldsAt pos wraps)
    (hinner : ∀ n, Fails (elementWithin room) data ⟨pos + wraps.length, n⟩ fault) :
    Fails (elementWithin (room + wraps.length)) data ⟨pos, n⟩ fault := by
  induction wraps generalizing pos n with
  | nil => exact hinner n
  | cons code wraps ih =>
    obtain ⟨hcode, h⟩ := List.forall_mem_cons.1 h
    have hfails : Fails (elementWithin (room + wraps.length)) data ⟨pos + 1, n + 1⟩ fault := by
      refine ih h hd.tail fun n => ?_
      rw [Nat.add_assoc, Nat.add_comm 1]
      exact hinner n
    show Fails (elementWithin (room + wraps.length + 1)) _ _ _
    refine fails_layer (hd.initial ⟨wraps, rfl⟩) ?_
    rcases hcode with rfl | rfl
    · exact hfails.map
    · exact hfails.map

theorem fails_of_deep {wraps : List UInt8} (h : ∀ b ∈ wraps, Element.Wraps b) (hd : data.HoldsAt pos wraps) :
    Fails (elementWithin wraps.length) data ⟨pos, n⟩ (.nestingLimit Element.depthLimit) := by
  have hzero : Fails (elementWithin (0 + wraps.length)) data ⟨pos, n⟩ (.nestingLimit Element.depthLimit) :=
    fails_wraps h hd fun n => ⟨⟨_, n + 1⟩, rfl⟩
  rwa [Nat.zero_add] at hzero

theorem fails_of_lead {wraps : List UInt8} {code lead : UInt8} (h : ∀ b ∈ wraps, Element.Wraps b)
    (hroom : wraps.length < room) (hcode : Element.Refers code) (hlead : 0xE0 ≤ lead.toNat)
    (hd : data.HoldsAt pos (wraps ++ [code, lead])) :
    Fails (elementWithin room) data ⟨pos, n⟩ (.compressedLead lead) := by
  obtain ⟨room, rfl⟩ := Nat.exists_eq_add_of_lt hroom
  obtain ⟨hwraps, hrest⟩ := Bytes.holdsAt_append.1 hd
  rw [Nat.add_comm wraps.length, Nat.add_right_comm]
  refine fails_wraps h hwraps fun n => fails_layer (hrest.initial ⟨[lead], rfl⟩) ?_
  have htoken : Fails (ofReader Token.readCompressed) data ⟨pos + wraps.length + 1, n + 1⟩
      (.compressedLead lead) :=
    fails_ofReader (Compressed.fails_read hrest.tail hlead).bind
  rcases hcode with rfl | rfl
  · exact htoken.map
  · exact htoken.map

theorem elementWithin_none {c : SignatureCursor} (h : data[c.pos]? = none) :
    elementWithin (room + 1) data c = .error .outOfBounds ⟨c.pos, c.depth + 1⟩ := by
  have henter : enter data c = .ok () ⟨c.pos, c.depth + 1⟩ := rfl
  have hbyte := run_byte_none (c := ⟨c.pos, c.depth + 1⟩) h
  rw [elementWithin_succ, run_bind_ok henter, run_bind_error hbyte]

/-- What is read is a word with no more wrappers than there is room for, and what was open before stays open. -/
theorem elementWithin_ok_iff {e : Element} {c stop : SignatureCursor} :
    elementWithin room data c = .ok e stop ↔
      ∃ word, Element.Spells word e ∧ e.wrappers < room ∧ data.HoldsAt c.pos word ∧
        stop = ⟨c.pos + word.length, c.depth⟩ := by
  constructor
  · intro h
    by_cases hpos : c.pos ≤ data.size
    · have hend := Bytes.endsWith_drop hpos
      cases Element.verdict room (data.toList.drop c.pos) with
      | word hword hroom hxs =>
        have hd := hend.holdsAt hxs
        have hread := (consumes_elementWithin (n := c.depth) hword hroom).reads data c.pos hd
        cases h.symm.trans hread
        exact ⟨_, hword, hroom, hd, rfl⟩
      | short hword hroom hxs hne =>
        have hfails := (consumes_elementWithin (n := c.depth) hword hroom).short data c.pos _ hxs hne hend
        exact absurd h (hfails.ne_ok e)
      | deep hwraps hroom hxs =>
        have hfails := fails_of_deep (n := c.depth) hwraps (hend.holdsAt hxs)
        rw [hroom] at hfails
        exact absurd h (hfails.ne_ok e)
      | lead hwraps hroom hcode hlead hxs =>
        exact absurd h ((fails_of_lead (n := c.depth) hwraps hroom hcode hlead (hend.holdsAt hxs)).ne_ok e)
    · cases room with
      | zero => cases h
      | succ room =>
        rw [elementWithin_none (Array.getElem?_eq_none (Nat.le_of_not_le hpos))] at h
        cases h
  · rintro ⟨word, hword, hroom, hd, rfl⟩
    exact (consumes_elementWithin hword hroom).reads data c.pos hd

theorem consumes_element {e : Element} (h : Element.Spells xs e) (hroom : e.wrappers ≤ 48) :
    Consumes element (SignatureCursor.mk · 0) (SignatureCursor.mk · 0) xs e :=
  ⟨(consumes_elementWithin h (Nat.lt_succ_of_le hroom)).reads,
    (consumes_elementWithin h (Nat.lt_succ_of_le hroom)).short⟩

end SignatureReader

namespace Element
variable {data data' : Bytes} {pos : Nat}

/-- How decoding at a position ends, by what stands there. -/
inductive Decodes (data : Bytes) (pos : Nat) : Except Fault (Element × Nat) → Prop
  | word {word : List UInt8} {e : Element} (h : Spells word e) (hroom : e.wrappers ≤ 48)
    (hd : data.HoldsAt pos word) : Decodes data pos (.ok (e, pos + word.length))
  | deep {wraps : List UInt8} (h : ∀ b ∈ wraps, Wraps b) (hroom : wraps.length = 49)
    (hd : data.HoldsAt pos wraps) : Decodes data pos (.error (.nestingLimit 50))
  | lead {wraps : List UInt8} (h : ∀ b ∈ wraps, Wraps b) (hroom : wraps.length ≤ 48) {code lead : UInt8}
    (hcode : Refers code) (hlead : 0xE0 ≤ lead.toNat) (hd : data.HoldsAt pos (wraps ++ [code, lead])) :
    Decodes data pos (.error (.compressedLead lead))
  | short {word part : List UInt8} {e : Element} (h : Spells word e) (hroom : e.wrappers ≤ 48)
    (hpart : part <+: word) (hne : part ≠ word) (hd : data.EndsWith pos part) :
    Decodes data pos (.error .outOfBounds)
  | outside (h : data.size < pos) : Decodes data pos (.error .outOfBounds)

theorem exists_decodes (data : Bytes) (pos : Nat) : ∃ result, Decodes data pos result := by
  by_cases hpos : pos ≤ data.size
  · have hend := Bytes.endsWith_drop hpos
    cases verdict 49 (data.toList.drop pos) with
    | word h hroom hxs => exact ⟨_, .word h (Nat.le_of_lt_succ hroom) (hend.holdsAt hxs)⟩
    | short h hroom hxs hne => exact ⟨_, .short h (Nat.le_of_lt_succ hroom) hxs hne hend⟩
    | deep h hroom hxs => exact ⟨_, .deep h hroom (hend.holdsAt hxs)⟩
    | lead h hroom hcode hlead hxs =>
      exact ⟨_, .lead h (Nat.le_of_lt_succ hroom) hcode hlead (hend.holdsAt hxs)⟩
  · exact ⟨_, .outside (Nat.lt_of_not_le hpos)⟩

theorem decodeElement_eq (hpos : pos ≤ data.size) :
    decodeElement data pos = match SignatureReader.element data ⟨pos, 0⟩ with
      | .ok e stop => .ok (e, stop.pos)
      | .error fault _ => .error fault := by
  unfold decodeElement Bytes.start SignatureReader.outcome
  simp only [if_pos hpos, bind, Except.bind]
  cases SignatureReader.element data ⟨pos, 0⟩ <;> rfl

theorem decodeElement_of_fails {fault : Fault} (hpos : pos ≤ data.size)
    (h : Fails SignatureReader.element data ⟨pos, 0⟩ fault) : decodeElement data pos = .error fault := by
  obtain ⟨stop, h⟩ := h
  rw [decodeElement_eq hpos, h]

theorem Decodes.eq {result : Except Fault (Element × Nat)} (h : Decodes data pos result) :
    decodeElement data pos = result := by
  cases h with
  | word h hroom hd =>
    have hpos := Nat.le_trans (Nat.le_add_right ..) hd.le_size
    rw [decodeElement_eq hpos, (SignatureReader.consumes_element h hroom).reads data pos hd]
  | deep h hroom hd =>
    refine decodeElement_of_fails (Nat.le_trans (Nat.le_add_right ..) hd.le_size) ?_
    have hdeep := SignatureReader.fails_of_deep (n := 0) h hd
    rwa [hroom] at hdeep
  | lead h hroom hcode hlead hd =>
    exact decodeElement_of_fails (Nat.le_trans (Nat.le_add_right ..) hd.le_size)
      (SignatureReader.fails_of_lead h (Nat.lt_succ_of_le hroom) hcode hlead hd)
  | short h hroom hpart hne hd =>
    exact decodeElement_of_fails (hd.size_eq ▸ Nat.le_add_right ..)
      ((SignatureReader.consumes_element h hroom).short data pos _ hpart hne hd)
  | outside h =>
    unfold decodeElement Bytes.start
    rw [if_neg (Nat.not_le.2 h)]
    rfl

/-- The decoder is the grammar. -/
theorem decodes_iff {result : Except Fault (Element × Nat)} :
    Decodes data pos result ↔ decodeElement data pos = result := by
  refine ⟨Decodes.eq, ?_⟩
  rintro rfl
  obtain ⟨result, h⟩ := exists_decodes data pos
  rwa [h.eq]

theorem decodeElement_ok_iff {e : Element} {stop : Nat} :
    decodeElement data pos = .ok (e, stop) ↔
      ∃ word, Spells word e ∧ e.wrappers ≤ 48 ∧ data.HoldsAt pos word ∧ stop = pos + word.length := by
  rw [← decodes_iff]
  constructor
  · intro h
    cases h with
    | word h hroom hd => exact ⟨_, h, hroom, hd, rfl⟩
  · rintro ⟨word, h, hroom, hd, rfl⟩
    exact .word h hroom hd

theorem decodeElement_deep_iff :
    decodeElement data pos = .error (.nestingLimit 50) ↔
      pos + 49 ≤ data.size ∧ ∀ b ∈ (data.extract pos (pos + 49)).toList, Wraps b := by
  rw [← decodes_iff]
  constructor
  · intro h
    cases h with
    | deep h hroom hd => exact ⟨hroom ▸ hd.le_size, by rwa [← hroom, hd.extract]⟩
  · rintro ⟨hfit, h⟩
    refine .deep h ?_ (Bytes.holdsAt_extract (Nat.le_add_right ..) hfit)
    rw [Array.length_toList, Array.size_extract]
    omega

theorem decodeElement_lead_iff {lead : UInt8} :
    decodeElement data pos = .error (.compressedLead lead) ↔
      0xE0 ≤ lead.toNat ∧ ∃ wraps code, (∀ b ∈ wraps, Wraps b) ∧ wraps.length ≤ 48 ∧ Refers code ∧
        data.HoldsAt pos (wraps ++ [code, lead]) := by
  rw [← decodes_iff]
  constructor
  · intro h
    cases h with
    | lead h hroom hcode hlead hd => exact ⟨hlead, _, _, h, hroom, hcode, hd⟩
  · rintro ⟨hlead, wraps, code, h, hroom, hcode, hd⟩
    exact .lead h hroom hcode hlead hd

theorem fault_of_decodeElement {fault : Fault} (h : decodeElement data pos = .error fault) :
    fault = .nestingLimit 50 ∨ (∃ lead, fault = .compressedLead lead) ∨ fault = .outOfBounds := by
  rw [← decodes_iff] at h
  cases h with
  | deep => exact .inl rfl
  | lead => exact .inr (.inl ⟨_, rfl⟩)
  | short | outside => exact .inr (.inr rfl)

theorem Spells.decodeElement_cut {word : List UInt8} {e : Element} (h : Spells word e) (hroom : e.wrappers ≤ 48)
    (hd : data.HoldsAt pos word) {cut : Nat} (hcut : cut < pos + word.length) :
    decodeElement (data.extract 0 cut) pos = .error .outOfBounds := by
  by_cases hpos : pos ≤ cut
  · refine (Decodes.short h hroom (List.take_prefix ..) (fun hword => ?_) (hd.cut hpos hcut)).eq
    have hlen := congrArg List.length hword
    rw [List.length_take] at hlen
    omega
  · refine (Decodes.outside ?_).eq
    rw [Array.size_extract]
    omega

theorem length_of_decodes {stops : Nat → Nat} {n : Nat}
    (h : ∀ i < n, ∃ e, decodeElement data (stops i) = .ok (e, stops (i + 1))) : n ≤ data.size - stops 0 := by
  have hstep : ∀ i < n, stops i < stops (i + 1) ∧ stops (i + 1) ≤ data.size := by
    intro i hi
    obtain ⟨e, he⟩ := h i hi
    obtain ⟨word, hword, -, hd, hstop⟩ := decodeElement_ok_iff.1 he
    have hpos := List.length_pos_iff.2 hword.ne_nil
    have hfit := hd.le_size
    omega
  have hsum : ∀ i ≤ n, stops 0 + i ≤ stops i := by
    intro i
    induction i with
    | zero => exact fun _ => Nat.le_refl _
    | succ i ih =>
      intro hi
      have := ih (Nat.le_of_succ_le hi)
      have := (hstep i hi).1
      omega
  cases n with
  | zero => exact Nat.zero_le _
  | succ n =>
    have := hsum (n + 1) (Nat.le_refl _)
    have := (hstep n (Nat.lt_succ_self n)).2
    omega

theorem Spells.unique {xs ys : List UInt8} {e e' : Element} (h : Spells xs e) (h' : Spells ys e')
    (hd : data.HoldsAt pos xs) (hd' : data.HoldsAt pos ys) : e' = e ∧ ys.length = xs.length := by
  -- a decoder with room for both reads both
  have hroom : e.wrappers < e.wrappers + e'.wrappers + 1 := by omega
  have hroom' : e'.wrappers < e.wrappers + e'.wrappers + 1 := by omega
  have hread := (SignatureReader.consumes_elementWithin (n := 0) h hroom).reads data pos hd
  rw [(SignatureReader.consumes_elementWithin h' hroom').reads data pos hd'] at hread
  injection hread with he hstop
  injection hstop with hlen
  exact ⟨he, Nat.add_left_cancel hlen⟩

theorem Spells.exists_wraps {xs : List UInt8} {e : Element} (h : Spells xs e) {k : Nat} (hk : k ≤ e.wrappers) :
    ∃ wraps, wraps <+: xs ∧ wraps.length = k ∧ ∀ b ∈ wraps, Wraps b := by
  induction h generalizing k with
  | primitive _ | classType _ | valueType _ | unknown _ _ =>
    obtain rfl : k = 0 := Nat.le_zero.1 hk
    exact ⟨[], List.nil_prefix, rfl, nofun⟩
  | szArray _ ih | byRef _ ih =>
    cases k with
    | zero => exact ⟨[], List.nil_prefix, rfl, nofun⟩
    | succ k =>
      obtain ⟨wraps, hwraps, rfl, hall⟩ := ih (Nat.le_of_succ_le_succ hk)
      exact ⟨_ :: wraps, List.cons_prefix_cons.2 ⟨rfl, hwraps⟩, rfl,
        List.forall_mem_cons.2 ⟨by first | exact .inl rfl | exact .inr rfl, hall⟩⟩

end Element

/-- An element is decoded exactly where a word of the grammar with at most 48 wrappers stands. Nothing else
stands there, other bytes do not matter, and data that break off in the word are too short for any. What cannot
be decoded is too deep if it starts with 49 wrappers, has a bad token if a token in it starts with no length,
and is too short otherwise. Each word has bytes, so decoding one behind the other comes to an end. -/
theorem decodeElement_follows_grammar (data : Bytes) (pos : Nat) :
    (∀ e stop, decodeElement data pos = .ok (e, stop) ↔
      pos < stop ∧ stop ≤ data.size ∧ Element.Spells (data.extract pos stop).toList e ∧ e.wrappers ≤ 48) ∧
    (∀ e stop, decodeElement data pos = .ok (e, stop) →
      (∀ e' stop', stop' ≤ data.size → Element.Spells (data.extract pos stop').toList e' →
        e' = e ∧ stop' = stop) ∧
      (∀ (data' : Bytes) pos', data'.extract pos' (pos' + (stop - pos)) = data.extract pos stop →
        decodeElement data' pos' = .ok (e, pos' + (stop - pos))) ∧
      ∀ cut < stop, decodeElement (data.extract 0 cut) pos = .error .outOfBounds) ∧
    (decodeElement data pos = .error (.nestingLimit 50) ↔
      pos + 49 ≤ data.size ∧ ∀ b ∈ (data.extract pos (pos + 49)).toList, Element.Wraps b) ∧
    (∀ lead, decodeElement data pos = .error (.compressedLead lead) ↔
      0xE0 ≤ lead.toNat ∧ ∃ wraps code, (∀ b ∈ wraps, Element.Wraps b) ∧ wraps.length ≤ 48 ∧
        Element.Refers code ∧ data.HoldsAt pos (wraps ++ [code, lead])) ∧
    (∀ fault, decodeElement data pos = .error fault →
      fault = .nestingLimit 50 ∨ (∃ lead, fault = .compressedLead lead) ∨ fault = .outOfBounds) ∧
    ∀ (stops : Nat → Nat) (n : Nat), stops 0 = pos →
      (∀ i < n, ∃ e, decodeElement data (stops i) = .ok (e, stops (i + 1))) → n ≤ data.size - pos := by
  refine ⟨fun e stop => ?_, fun e stop h => ?_, Element.decodeElement_deep_iff,
    fun lead => Element.decodeElement_lead_iff, fun fault => Element.fault_of_decodeElement, ?_⟩
  · rw [Element.decodeElement_ok_iff]
    constructor
    · rintro ⟨word, hword, hroom, hd, rfl⟩
      have hpos := List.length_pos_iff.2 hword.ne_nil
      exact ⟨Nat.lt_add_of_pos_right hpos, hd.le_size, by rwa [hd.extract], hroom⟩
    · rintro ⟨-, hstop, hword, hroom⟩
      obtain ⟨hd, hend⟩ := Bytes.holdsAt_of_extract rfl hword.ne_nil
      exact ⟨_, hword, hroom, hd, hend hstop⟩
  · obtain ⟨word, hword, hroom, hd, rfl⟩ := Element.decodeElement_ok_iff.1 h
    refine ⟨fun e' stop' hstop' hword' => ?_, fun data' pos' hsame => ?_,
      fun cut hcut => hword.decodeElement_cut hroom hd hcut⟩
    · obtain ⟨hd', hend⟩ := Bytes.holdsAt_of_extract rfl hword'.ne_nil
      obtain ⟨he, hlen⟩ := hword.unique hword' hd hd'
      exact ⟨he, by rw [hend hstop', hlen]⟩
    · rw [hd.extract] at hsame
      obtain ⟨hd', -⟩ := Bytes.holdsAt_of_extract (congrArg Array.toList hsame) hword.ne_nil
      rw [Nat.add_sub_cancel_left]
      exact (Element.Decodes.word hword hroom hd').eq
  · rintro stops n rfl h
    exact Element.length_of_decodes h

/-- An array of texts, with a number behind it. -/
theorem decodeElement_follows_grammar_texts :
    Element.Spells [0x13, 0x0F] (.szArray (.primitive .string)) ∧
      decodeElement #[0x13, 0x0F, 0x07] 0 = .ok (.szArray (.primitive .string), 2) ∧
      decodeElement #[0x13] 0 = .error .outOfBounds := by
  have hword : Element.Spells [0x13, 0x0F] (.szArray (.primitive .string)) := .szArray (.primitive .string)
  obtain ⟨hiff, hok, -⟩ := decodeElement_follows_grammar #[0x13, 0x0F, 0x07] 0
  have h := (hiff (.szArray (.primitive .string)) 2).2 ⟨by decide, by decide, hword, by decide⟩
  exact ⟨hword, h, (hok _ _ h).2.2 1 (by decide)⟩

end CompactAssembly

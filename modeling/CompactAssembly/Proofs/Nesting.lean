import CompactAssembly.Proofs.Reencoding

/-!
# Elements one after the other

The depth is all that one read on a cursor leaves to the next besides the position. A read that succeeds gives it
back (`SignatureReader.Settles`), so after reads that all succeeded nothing is open (`Reached.depth_eq_zero`), and a
row of elements is what `decodeElement` makes of each place in turn (`decodeElements`, `decodeMethod`). A read that
fails leaves open what it had opened: one element for each wrapper it came through and the one it failed in
(`SignatureReader.leaves_elementWithin`). All that this costs a later element is room for wrappers
(`SignatureReader.element_ok_iff`).
-/

namespace CompactAssembly

namespace Bytes
variable {data : Bytes} {pos : Nat}

/-- Number of bytes from `pos` on that wrap an element, up to the first one that does not. -/
def wrapsAt (data : Bytes) (pos : Nat) : Nat :=
  ((data.toList.drop pos).takeWhile fun b => decide (Element.Wraps b)).length

theorem drop_eq_cons {b : UInt8} (h : data[pos]? = some b) :
    data.toList.drop pos = b :: data.toList.drop (pos + 1) := by
  obtain ⟨hpos, rfl⟩ := Array.getElem?_eq_some_iff.1 h
  rw [List.drop_eq_getElem_cons (by rwa [Array.length_toList]), Array.getElem_toList]

theorem wrapsAt_of_none (h : data[pos]? = none) : data.wrapsAt pos = 0 := by
  have hpos := Array.getElem?_eq_none_iff.1 h
  rw [wrapsAt, List.drop_eq_nil_of_le (by rwa [Array.length_toList])]
  rfl

theorem wrapsAt_of_some {b : UInt8} (h : data[pos]? = some b) :
    data.wrapsAt pos = if Element.Wraps b then data.wrapsAt (pos + 1) + 1 else 0 := by
  rw [wrapsAt, drop_eq_cons h, List.takeWhile_cons]
  simp only [decide_eq_true_eq]
  split
  · rfl
  · rfl

end Bytes

namespace SignatureReader
variable {α β : Type} {reader : SignatureReader α} {data : Bytes} {c stop : SignatureCursor} {fault : Fault}

theorem elementWithin_some {room : Nat} {code : UInt8} (h : data[c.pos]? = some code) :
    elementWithin (room + 1) data c =
      match layer room code (DataType.ofCode? code) data ⟨c.pos + 1, c.depth + 1⟩ with
      | .ok e stop => .ok e ⟨stop.pos, stop.depth - 1⟩
      | .error fault stop => .error fault stop := by
  have henter : enter data c = .ok () ⟨c.pos, c.depth + 1⟩ := rfl
  have hbyte := run_byte_some (c := ⟨c.pos, c.depth + 1⟩) h
  rw [elementWithin_succ, run_bind_ok henter, run_bind_ok hbyte]
  cases hread : layer room code (DataType.ofCode? code) data ⟨c.pos + 1, c.depth + 1⟩ with
  | ok e stop =>
    rw [run_bind_ok hread]
    rfl
  | error fault stop => rw [run_bind_error hread]

/-! ## How a read leaves the depth -/

/-- A success leaves the depth `start` as it was, a failure leaves `opened` more elements open. -/
def Leaves (start opened : Nat) : EStateM.Result Fault SignatureCursor α → Prop
  | .ok _ stop => stop.depth = start
  | .error _ stop => stop.depth = start + opened

theorem leaves_ofReader (reader : Reader α) (data : Bytes) (c : SignatureCursor) :
    Leaves c.depth 0 (ofReader reader data c) := by
  unfold ofReader
  cases reader data c.pos <;> rfl

theorem Leaves.map {start opened : Nat} {g : α → β} (h : Leaves start opened (reader data c)) :
    Leaves start opened ((g <$> reader) data c) := by
  rw [run_map, EStateM.map]
  cases hread : reader data c with
  | ok a stop => rwa [hread] at h
  | error fault stop => rwa [hread] at h

/-- What wraps an element opens those inside, and anything else opens none. -/
theorem leaves_layer {room : Nat} {code : UInt8} {c : SignatureCursor} (h : data[c.pos]? = some code)
    (hinner : Leaves (c.depth + 1) (min (data.wrapsAt (c.pos + 1)) room + 1)
      (elementWithin room data ⟨c.pos + 1, c.depth + 1⟩)) :
    Leaves (c.depth + 1) (min (data.wrapsAt c.pos) (room + 1))
      (layer room code (DataType.ofCode? code) data ⟨c.pos + 1, c.depth + 1⟩) := by
  have hwraps := Bytes.wrapsAt_of_some h
  cases ht : DataType.ofCode? code with
  | none => exact rfl
  | some t =>
    obtain rfl := DataType.code_of_ofCode? ht
    cases t with
    | primitive p => exact rfl
    | byRef | szArray =>
      rw [if_pos (by decide)] at hwraps
      rw [hwraps, Nat.succ_min_succ]
      exact hinner.map
    | valueType | classType =>
      rw [if_neg (by decide)] at hwraps
      rw [hwraps, Nat.zero_min]
      exact (leaves_ofReader Token.readCompressed data ⟨c.pos + 1, c.depth + 1⟩).map

theorem leaves_elementWithin (room : Nat) (data : Bytes) (c : SignatureCursor) :
    Leaves c.depth (min (data.wrapsAt c.pos) room + 1) (elementWithin room data c) := by
  induction room generalizing c with
  | zero =>
    rw [Nat.min_zero]
    rfl
  | succ room ih =>
    cases hbyte : data[c.pos]? with
    | none =>
      rw [elementWithin_none hbyte, Bytes.wrapsAt_of_none hbyte, Nat.zero_min]
      rfl
    | some code =>
      have hlayer := leaves_layer hbyte (ih ⟨c.pos + 1, c.depth + 1⟩)
      rw [elementWithin_some hbyte]
      cases hread : layer room code (DataType.ofCode? code) data ⟨c.pos + 1, c.depth + 1⟩ with
      | ok e stop =>
        rw [hread] at hlayer
        exact Nat.sub_eq_of_eq_add hlayer
      | error fault stop =>
        rw [hread] at hlayer
        exact hlayer.trans (by omega)

/-- No read closes what was open before it, and one that succeeds closes all it has opened. -/
def Settles (reader : SignatureReader α) : Prop := ∀ data c, ∃ opened, Leaves c.depth opened (reader data c)

theorem settles_pure (a : α) : Settles (pure a) := fun _ _ => ⟨0, rfl⟩

theorem settles_throw (fault : Fault) : Settles (throw fault : SignatureReader α) := fun _ _ => ⟨0, rfl⟩

theorem settles_ofReader (reader : Reader α) : Settles (ofReader reader) :=
  fun data c => ⟨0, leaves_ofReader reader data c⟩

theorem settles_element : Settles element := fun data c => ⟨_, leaves_elementWithin _ data c⟩

theorem Settles.map {f : α → β} (h : Settles reader) : Settles (f <$> reader) := by
  intro data c
  obtain ⟨opened, h⟩ := h data c
  exact ⟨opened, h.map⟩

theorem Settles.bind {f : α → SignatureReader β} (h : Settles reader) (hf : ∀ a, Settles (f a)) :
    Settles (reader >>= f) := by
  intro data c
  obtain ⟨opened, h⟩ := h data c
  cases hread : reader data c with
  | ok a mid =>
    rw [hread] at h
    obtain ⟨opened', h'⟩ := hf a data mid
    rw [show mid.depth = c.depth from h] at h'
    rw [run_bind_ok hread]
    exact ⟨opened', h'⟩
  | error fault stop =>
    rw [hread] at h
    rw [run_bind_error hread]
    exact ⟨opened, h⟩

theorem settles_elements (count : Nat) : Settles (elements count) := by
  induction count with
  | zero => exact settles_pure []
  | succ count ih => exact settles_element.bind fun e => ih.bind fun es => settles_pure (e :: es)

theorem settles_methodBody (convention : UInt8) : Settles (methodBody convention) :=
  (settles_ofReader _).bind fun count => settles_element.bind fun _ =>
    (settles_elements count.toNat).bind fun _ => settles_pure _

theorem settles_method : Settles method := by
  refine (settles_ofReader _).bind fun convention => ?_
  split
  · exact settles_methodBody convention
  · exact settles_throw _

theorem settles_field : Settles field := by
  refine (settles_ofReader _).bind fun convention => ?_
  split
  · exact settles_element
  · exact settles_throw _

theorem settles_signature : Settles signature := by
  refine (settles_ofReader _).bind fun convention => ?_
  split
  · exact (settles_ofReader _).bind fun _ => (settles_methodBody convention).map
  split
  · exact settles_field.map
  split
  · exact (settles_ofReader _).bind fun _ => settles_pure _
  · exact (settles_ofReader _).bind fun _ => settles_pure _

/-! ## What an element is at any depth -/

/-- With some elements open an element is what it is with none, as long as there is room for its wrappers. -/
theorem element_ok_iff {e : Element} :
    element data c = .ok e stop ↔
      decodeElement data c.pos = .ok (e, stop.pos) ∧ e.wrappers < Element.depthLimit - 1 - c.depth ∧
        stop.depth = c.depth := by
  have hroom : element data c = elementWithin (Element.depthLimit - 1 - c.depth) data c := rfl
  rw [hroom, elementWithin_ok_iff, Element.decodeElement_ok_iff]
  constructor
  · rintro ⟨word, hword, hlt, hd, rfl⟩
    have hle : e.wrappers ≤ 48 := by
      unfold Element.depthLimit at hlt
      omega
    exact ⟨⟨word, hword, hle, hd, rfl⟩, hlt, rfl⟩
  · rintro ⟨⟨word, hword, -, hd, hpos⟩, hlt, hdepth⟩
    obtain ⟨pos, depth⟩ := stop
    cases hpos
    cases hdepth
    exact ⟨word, hword, hlt, hd, rfl⟩

/-- How many elements a failing read opens: one for each wrapper, as far as there is room, and the one it fails in. -/
def entered (data : Bytes) (c : SignatureCursor) : Nat :=
  min (data.wrapsAt c.pos) (Element.depthLimit - 1 - c.depth) + 1

theorem depth_of_element_error (h : element data c = .error fault stop) : stop.depth = c.depth + entered data c := by
  have hleaves := leaves_elementWithin (Element.depthLimit - 1 - c.depth) data c
  have hread : elementWithin (Element.depthLimit - 1 - c.depth) data c = .error fault stop := h
  rwa [hread] at hleaves

end SignatureReader

/-! ## Rows of elements -/

/-- The elements from a position on, each where the one before it ends, and the position behind the last. -/
def decodeElements (data : Bytes) : (count pos : Nat) → Except Fault (List Element × Nat)
  | 0, pos => return ([], pos)
  | count + 1, pos => do
    let (first, pos) ← decodeElement data pos
    let (rest, pos) ← decodeElements data count pos
    return (first :: rest, pos)

/-- The byte at a position, and the position behind it. -/
def decodeByte (data : Bytes) (pos : Nat) : Except Fault (UInt8 × Nat) :=
  match data[pos]? with
  | some b => .ok (b, pos + 1)
  | none => .error .outOfBounds

/-- What stands behind the first byte of a method: the number of its parameters, and one element more than that. -/
def decodeMethodBody (data : Bytes) (convention : UInt8) (pos : Nat) : Except Fault (MethodSignature × Nat) := do
  let (count, pos) ← decodeByte data pos
  let (result, pos) ← decodeElement data pos
  let (params, pos) ← decodeElements data count.toNat pos
  return ({ hasThis := convention &&& Convention.hasThis != 0, result, params }, pos)

/-- The method at a position, and the position behind it. -/
def decodeMethod (data : Bytes) (pos : Nat) : Except Fault (MethodSignature × Nat) := do
  let (convention, pos) ← decodeByte data pos
  if Convention.kind convention = Convention.method then decodeMethodBody data convention pos
  else throw (.methodConvention convention)

namespace SignatureReader
variable {α β : Type} {reader : SignatureReader α} {data : Bytes} {c stop : SignatureCursor} {fault : Fault}

/-- With nothing open the reader answers so: with this value up to this position, and nothing is open then, or with
this fault. -/
def Answers (reader : SignatureReader α) (data : Bytes) (pos : Nat) : Except Fault (α × Nat) → Prop
  | .ok (a, stop) => reader data ⟨pos, 0⟩ = .ok a ⟨stop, 0⟩
  | .error fault => Fails reader data ⟨pos, 0⟩ fault

theorem Answers.outcome {pos : Nat} {result : Except Fault (α × Nat)} (h : Answers reader data pos result) :
    (reader.outcome data ⟨pos, 0⟩).1 = result.map Prod.fst ∧
      ∀ a stop, result = .ok (a, stop) → (reader.outcome data ⟨pos, 0⟩).2 = ⟨stop, 0⟩ := by
  unfold SignatureReader.outcome
  cases result with
  | ok result =>
    have hread : reader data ⟨pos, 0⟩ = .ok result.1 ⟨result.2, 0⟩ := h
    rw [hread]
    refine ⟨rfl, ?_⟩
    rintro a stop ⟨⟩
    rfl
  | error fault =>
    obtain ⟨stop, hread⟩ := h
    rw [hread]
    exact ⟨rfl, nofun⟩

/-- The reader answers at every position as the decoder does. -/
def Follows (reader : SignatureReader α) (data : Bytes) (decode : Nat → Except Fault (α × Nat)) : Prop :=
  ∀ pos, Answers reader data pos (decode pos)

theorem follows_pure (a : α) : Follows (pure a) data fun pos => return (a, pos) := fun _ => rfl

theorem follows_throw (fault : Fault) : Follows (throw fault : SignatureReader α) data fun _ => throw fault :=
  fun _ => ⟨_, rfl⟩

theorem follows_byte : Follows (ofReader Reader.byte) data (decodeByte data) := by
  intro pos
  unfold decodeByte
  cases hbyte : data[pos]? with
  | some b => exact run_byte_some hbyte
  | none => exact ⟨_, run_byte_none hbyte⟩

theorem follows_element : Follows element data (decodeElement data) := by
  intro pos
  by_cases hpos : pos ≤ data.size
  · rw [Element.decodeElement_eq hpos]
    cases hread : element data ⟨pos, 0⟩ with
    | ok e stop =>
      obtain ⟨-, -, hdepth⟩ := element_ok_iff.1 hread
      obtain ⟨pos', depth⟩ := stop
      cases hdepth
      exact hread
    | error fault stop => exact ⟨stop, hread⟩
  · have hnone : data[pos]? = none := Array.getElem?_eq_none (Nat.le_of_not_le hpos)
    have hdecode : decodeElement data pos = .error .outOfBounds := by
      unfold decodeElement Bytes.start
      rw [if_neg hpos]
      rfl
    rw [hdecode]
    exact ⟨_, elementWithin_none (c := ⟨pos, 0⟩) hnone⟩

theorem Follows.bind {decode : Nat → Except Fault (α × Nat)} {f : α → SignatureReader β}
    {rest : α → Nat → Except Fault (β × Nat)} (h : Follows reader data decode)
    (hf : ∀ a, Follows (f a) data (rest a)) :
    Follows (reader >>= f) data (fun pos => do
      let (a, pos) ← decode pos
      rest a pos) := by
  intro pos
  have h := h pos
  show Answers _ _ _ (decode pos >>= _)
  cases hdecode : decode pos with
  | ok result =>
    rw [hdecode] at h
    have hrest := hf result.1 result.2
    show Answers _ _ _ (rest result.1 result.2)
    cases hresult : rest result.1 result.2 with
    | ok result' =>
      rw [hresult] at hrest
      exact (run_bind_ok h).trans hrest
    | error fault =>
      rw [hresult] at hrest
      exact Fails.bind_ok h hrest
  | error fault =>
    rw [hdecode] at h
    exact Fails.bind h

theorem follows_elements (count : Nat) : Follows (elements count) data (decodeElements data count) := by
  induction count with
  | zero => exact follows_pure []
  | succ count ih => exact follows_element.bind fun e => ih.bind fun es => follows_pure (e :: es)

theorem follows_methodBody (convention : UInt8) :
    Follows (methodBody convention) data (decodeMethodBody data convention) :=
  follows_byte.bind fun count => follows_element.bind fun _ =>
    (follows_elements count.toNat).bind fun _ => follows_pure _

theorem follows_method : Follows method data (decodeMethod data) := by
  have hrest : ∀ convention : UInt8,
      Follows (if Convention.kind convention = Convention.method then methodBody convention
        else throw (.methodConvention convention)) data
        fun pos => if Convention.kind convention = Convention.method then decodeMethodBody data convention pos
          else throw (.methodConvention convention) := by
    intro convention
    split
    · exact follows_methodBody convention
    · exact follows_throw _
  exact follows_byte.bind hrest

/-- Neighbours do not share the room: each may have as many wrappers as the depth leaves to one. -/
theorem elements_ok_iff {count : Nat} {es : List Element} :
    elements count data c = .ok es stop ↔
      decodeElements data count c.pos = .ok (es, stop.pos) ∧
        (∀ e ∈ es, e.wrappers < Element.depthLimit - 1 - c.depth) ∧ stop.depth = c.depth := by
  induction count generalizing c es with
  | zero =>
    constructor
    · rintro ⟨⟩
      exact ⟨rfl, nofun, rfl⟩
    · rintro ⟨hdecode, -, hdepth⟩
      obtain ⟨pos, depth⟩ := stop
      cases hdecode
      cases hdepth
      rfl
  | succ count ih =>
    constructor
    · intro h
      obtain ⟨first, mid, hfirst, h⟩ := Reader.bind_ok h
      obtain ⟨rest, last, hrest, h⟩ := Reader.bind_ok h
      cases h
      obtain ⟨hfirst, hroom, hdepth⟩ := element_ok_iff.1 hfirst
      obtain ⟨hrest, hrooms, hdepth'⟩ := ih.1 hrest
      rw [hdepth] at hrooms hdepth'
      exact ⟨bind_eq_ok.2 ⟨_, hfirst, bind_eq_ok.2 ⟨_, hrest, rfl⟩⟩, List.forall_mem_cons.2 ⟨hroom, hrooms⟩, hdepth'⟩
    · rintro ⟨hdecode, hrooms, hdepth⟩
      obtain ⟨⟨first, mid⟩, hfirst, hdecode⟩ := bind_eq_ok.1 hdecode
      obtain ⟨⟨rest, last⟩, hrest, hdecode⟩ := bind_eq_ok.1 hdecode
      cases hdecode
      obtain ⟨hroom, hrooms⟩ := List.forall_mem_cons.1 hrooms
      have hfirst : element data c = .ok first ⟨mid, c.depth⟩ := element_ok_iff.2 ⟨hfirst, hroom, rfl⟩
      have hrest : elements count data ⟨mid, c.depth⟩ = .ok rest stop := ih.2 ⟨hrest, hrooms, hdepth⟩
      exact (run_bind_ok hfirst).trans (run_bind_ok hrest)

/-! ## Cursors that reads lead to -/

theorem outcome_map (f : α → β) (reader : SignatureReader α) (data : Bytes) (c : SignatureCursor) :
    (f <$> reader).outcome data c = ((reader.outcome data c).1.map f, (reader.outcome data c).2) := by
  simp only [outcome, run_map, EStateM.map]
  cases reader data c <;> rfl

/-- Whether a read succeeds, and where it leaves the cursor. -/
def move (reader : SignatureReader α) (data : Bytes) (c : SignatureCursor) : Bool × SignatureCursor :=
  ((reader.outcome data c).1.isOk, (reader.outcome data c).2)

theorem Settles.move (h : Settles reader) (data : Bytes) (c : SignatureCursor) :
    c.depth ≤ (reader.move data c).2.depth ∧
      ((reader.move data c).1 = true → (reader.move data c).2.depth = c.depth) := by
  obtain ⟨opened, h⟩ := h data c
  unfold SignatureReader.move outcome
  cases hread : reader data c with
  | ok a stop =>
    rw [hread] at h
    exact ⟨Nat.le_of_eq h.symm, fun _ => h⟩
  | error fault stop =>
    rw [hread] at h
    exact ⟨Nat.le_trans (Nat.le_add_right ..) (Nat.le_of_eq h.symm), nofun⟩

/-- The reads that may be asked for, one after the other. -/
inductive Call where
  | element
  | method
  | field
  | typeSpec
  | signature
  deriving DecidableEq, Repr

def Call.move (data : Bytes) (c : SignatureCursor) : Call → Bool × SignatureCursor
  | element => SignatureReader.element.move data c
  | method => SignatureReader.method.move data c
  | field => SignatureReader.field.move data c
  | typeSpec => SignatureReader.typeSpec.move data c
  | signature => SignatureReader.signature.move data c

/-- The cursors that any calls lead to, and whether all of them succeeded. -/
inductive Reached (data : Bytes) : (sound : Bool) → SignatureCursor → Prop
  | start {pos : Nat} (h : pos ≤ data.size) : Reached data true ⟨pos, 0⟩
  | call {sound : Bool} {c : SignatureCursor} (h : Reached data sound c) (call : Call) :
    Reached data (sound && (call.move data c).1) (call.move data c).2

theorem Call.move_depth (call : Call) (data : Bytes) (c : SignatureCursor) :
    c.depth ≤ (call.move data c).2.depth ∧ ((call.move data c).1 = true → (call.move data c).2.depth = c.depth) := by
  cases call with
  | element => exact settles_element.move data c
  | method => exact settles_method.move data c
  | field => exact settles_field.move data c
  | typeSpec => exact settles_element.move data c
  | signature => exact settles_signature.move data c

theorem Reached.depth_eq_zero {sound : Bool} (h : Reached data sound c) (hsound : sound = true) : c.depth = 0 := by
  induction h with
  | start => rfl
  | @call sound c h call ih =>
    obtain ⟨hbefore, hcall⟩ := (Bool.and_eq_true _ _).mp hsound
    rw [(call.move_depth data c).2 hcall, ih hbefore]

/-- A reader of signatures is a sequence of element decodes, wherever earlier reads have left it: an element is what it
is by itself if there is room for its wrappers, a failure costs room and nothing else, elements in a row each have the
same room, and after reads that all succeeded a method is read as the elements one by one. -/
theorem Reached.decodes_in_turn {sound : Bool} (h : Reached data sound c) :
    (∀ e stop, element.outcome data c = (.ok e, stop) ↔
      decodeElement data c.pos = .ok (e, stop.pos) ∧ e.wrappers < 49 - c.depth ∧ stop.depth = c.depth) ∧
    (∀ fault stop, element.outcome data c = (.error fault, stop) → stop.depth = c.depth + entered data c) ∧
    (∀ call : Call, c.depth ≤ (call.move data c).2.depth ∧
      ((call.move data c).1 = true → (call.move data c).2.depth = c.depth)) ∧
    (∀ count es stop, (elements count).outcome data c = (.ok es, stop) ↔
      decodeElements data count c.pos = .ok (es, stop.pos) ∧ (∀ e ∈ es, e.wrappers < 49 - c.depth) ∧
        stop.depth = c.depth) ∧
    (sound = true → c.depth = 0 ∧
      (method.outcome data c).1 = (decodeMethod data c.pos).map Prod.fst ∧
      ∀ value stop, decodeMethod data c.pos = .ok (value, stop) → (method.outcome data c).2 = ⟨stop, 0⟩) ∧
    ∀ convention, data[c.pos]? = some convention →
      (Convention.kind convention = Convention.method →
        signature.outcome data c = ((method.outcome data c).1.map .method, (method.outcome data c).2)) ∧
      (Convention.kind convention = Convention.field →
        signature.outcome data c = ((field.outcome data c).1.map .field, (field.outcome data c).2)) := by
  refine ⟨?_, ?_, ?_, ?_, ?_, ?_⟩
  · intro e stop
    rw [outcome_ok_iff]
    exact element_ok_iff
  · intro fault stop hfail
    exact depth_of_element_error (outcome_error_iff.1 hfail)
  · intro call
    exact call.move_depth data c
  · intro count es stop
    rw [outcome_ok_iff]
    exact elements_ok_iff
  · intro hsound
    have hdepth := h.depth_eq_zero hsound
    obtain ⟨pos, depth⟩ := c
    cases hdepth
    exact ⟨rfl, (follows_method pos).outcome⟩
  · intro convention hfirst
    constructor
    · intro hkind
      rw [← outcome_map]
      simp only [outcome, signature_eq_method hfirst hkind]
    · intro hkind
      rw [← outcome_map]
      simp only [outcome, signature_eq_field hfirst hkind]

/-- After a field of type `i4` a method is read as its elements one by one, and after a token that starts with no
length, by reference, there is still room for an array. -/
theorem Reached.decodes_in_turn_both :
    method.outcome #[0x06, 0x07, 0x20, 0x01, 0x00, 0x14, 0x13, 0x07] ⟨2, 0⟩ =
        (.ok ⟨true, .primitive .void, [.byRef (.szArray (.primitive .i4))]⟩, ⟨8, 0⟩) ∧
      element.outcome #[0x14, 0x12, 0xE0, 0x13, 0x07] ⟨3, 2⟩ = (.ok (.szArray (.primitive .i4)), ⟨5, 2⟩) := by
  constructor
  · have hreached : Reached #[0x06, 0x07, 0x20, 0x01, 0x00, 0x14, 0x13, 0x07] true ⟨2, 0⟩ :=
      (Reached.start (Nat.zero_le _)).call .field
    obtain ⟨-, hvalue, hstop⟩ := hreached.decodes_in_turn.2.2.2.2.1 rfl
    have hdecode : decodeMethod #[0x06, 0x07, 0x20, 0x01, 0x00, 0x14, 0x13, 0x07] 2 =
        .ok (⟨true, .primitive .void, [.byRef (.szArray (.primitive .i4))]⟩, 8) := by
      decide
    exact Prod.ext (hvalue.trans (congrArg _ hdecode)) (hstop _ _ hdecode)
  · have hreached : Reached #[0x14, 0x12, 0xE0, 0x13, 0x07] false ⟨3, 2⟩ :=
      (Reached.start (Nat.zero_le _)).call .element
    exact (hreached.decodes_in_turn.1 _ _).2 ⟨by decide, by decide, rfl⟩

end SignatureReader

end CompactAssembly

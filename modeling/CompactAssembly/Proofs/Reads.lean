import CompactAssembly.Record.Basic

/-!
# What a reader reads

`Reads reader xs a`: wherever data hold the bytes `xs`, the reader takes exactly these bytes and returns
`a`, whatever stands before and behind them. A reader that is a chain of binds reads the pieces one
after the other (`Reads.bind`), so the law of a record follows its fields. `Stores reader form` is the
converse: whatever the reader returns stands there in such a form.
-/

namespace CompactAssembly

namespace Bytes
variable {data : Bytes} {pos : Nat} {xs ys : List UInt8}

/-- These bytes stand at `pos`. -/
def HoldsAt (data : Bytes) (pos : Nat) (xs : List UInt8) : Prop :=
  ∃ before after, data.toList = before ++ (xs ++ after) ∧ before.length = pos

theorem holdsAt_append :
    data.HoldsAt pos (xs ++ ys) ↔ data.HoldsAt pos xs ∧ data.HoldsAt (pos + xs.length) ys := by
  constructor
  · rintro ⟨before, after, h, rfl⟩
    exact ⟨⟨before, ys ++ after, by rw [h, List.append_assoc], rfl⟩,
      ⟨before ++ xs, after, by rw [h]; simp only [List.append_assoc], List.length_append⟩⟩
  · rintro ⟨⟨before, after, h, rfl⟩, ⟨before', after', h', hlen⟩⟩
    rw [h, ← List.append_assoc] at h'
    obtain ⟨rfl, rfl⟩ := List.append_inj h' (by rw [hlen, List.length_append])
    exact ⟨before, after', by rw [h, List.append_assoc], rfl⟩

namespace HoldsAt

theorem initial (h : data.HoldsAt pos ys) (hxs : xs <+: ys) : data.HoldsAt pos xs := by
  obtain ⟨zs, rfl⟩ := hxs
  exact (holdsAt_append.1 h).1

theorem le_size (h : data.HoldsAt pos xs) : pos + xs.length ≤ data.size := by
  obtain ⟨before, after, h, rfl⟩ := h
  rw [← Array.length_toList, h]
  simp only [List.length_append]
  omega

theorem getElem? (h : data.HoldsAt pos xs) {i : Nat} (hi : i < xs.length) :
    data[pos + i]? = xs[i]? := by
  obtain ⟨before, after, h, rfl⟩ := h
  rw [← Array.getElem?_toList, h, List.getElem?_append_right (Nat.le_add_right ..),
    Nat.add_sub_cancel_left, List.getElem?_append_left hi]

theorem head {x : UInt8} (h : data.HoldsAt pos (x :: xs)) : data[pos]? = some x :=
  h.getElem? (i := 0) (Nat.zero_lt_succ _)

theorem tail {x : UInt8} (h : data.HoldsAt pos (x :: xs)) : data.HoldsAt (pos + 1) xs :=
  (holdsAt_append.1 (show data.HoldsAt pos ([x] ++ xs) from h)).2

theorem append_right (h : data.HoldsAt pos xs) (more : Bytes) : HoldsAt (data ++ more) pos xs := by
  obtain ⟨before, after, h, rfl⟩ := h
  exact ⟨before, after ++ more.toList, by simp only [Array.toList_append, h, List.append_assoc], rfl⟩

theorem extract (h : data.HoldsAt pos xs) : data.extract pos (pos + xs.length) = xs.toArray := by
  obtain ⟨before, after, h, rfl⟩ := h
  apply Array.toList_inj.1
  rw [Array.toList_extract, h, List.extract_eq_take_drop, List.drop_left, Nat.add_sub_cancel_left,
    List.take_left]

theorem flatMap {α : Type} {f : α → List UInt8} {pieces : List α} (h : data.HoldsAt pos (pieces.flatMap f))
    {i : Nat} (hi : i < pieces.length) :
    data.HoldsAt (pos + ((pieces.take i).flatMap f).length) (f pieces[i]) := by
  rw [← List.take_append_drop i pieces, List.flatMap_append, List.drop_eq_getElem_cons hi,
    List.flatMap_cons] at h
  exact (holdsAt_append.1 (holdsAt_append.1 h).2).1

end HoldsAt

theorem holdsAt_size_append (data : Bytes) (xs : List UInt8) : HoldsAt (data ++ xs) data.size xs :=
  ⟨data.toList, [], by simp, rfl⟩

theorem holdsAt_extract {stop : Nat} (hpos : pos ≤ stop) (hstop : stop ≤ data.size) :
    data.HoldsAt pos (data.extract pos stop).toList := by
  refine ⟨data.toList.take pos, data.toList.drop stop, ?_, ?_⟩
  · rw [Array.toList_extract, List.extract_eq_take_drop]
    have hdrop : data.toList.drop stop = (data.toList.drop pos).drop (stop - pos) := by
      rw [List.drop_drop, Nat.add_sub_cancel' hpos]
    rw [hdrop, List.take_append_drop, List.take_append_drop]
  · rw [List.length_take, Array.length_toList]
    exact Nat.min_eq_left (Nat.le_trans hpos hstop)

theorem holdsAt_singleton {b : UInt8} (h : data[pos]? = some b) : data.HoldsAt pos [b] := by
  obtain ⟨hpos, hb⟩ := Array.getElem?_eq_some_iff.1 h
  refine ⟨data.toList.take pos, data.toList.drop (pos + 1), ?_, ?_⟩
  · rw [← hb, List.singleton_append, ← Array.getElem_toList, ← List.drop_eq_getElem_cons, List.take_append_drop]
  · rw [List.length_take, Array.length_toList, Nat.min_eq_left (Nat.le_of_lt hpos)]

theorem unsignedAt_of_holdsAt (h : data.HoldsAt pos xs) :
    data.unsignedAt xs.length pos = unsigned xs := by
  induction xs generalizing pos with
  | nil => rfl
  | cons x xs ih =>
    simp only [List.length_cons, unsignedAt, unsigned, h.head, Option.getD_some, ih h.tail]

end Bytes

theorem run_bind_ok {σ α β : Type} {reader : ReaderT Bytes (EStateM Fault σ) α}
    {f : α → ReaderT Bytes (EStateM Fault σ) β} {data : Bytes} {state state' : σ} {a : α}
    (h : reader data state = .ok a state') : (reader >>= f) data state = f a data state' := by
  show EStateM.bind (reader data) (fun a => f a data) state = _
  simp only [EStateM.bind, h]

theorem run_bind_error {σ α β : Type} {reader : ReaderT Bytes (EStateM Fault σ) α}
    {f : α → ReaderT Bytes (EStateM Fault σ) β} {data : Bytes} {state state' : σ} {fault : Fault}
    (h : reader data state = .error fault state') : (reader >>= f) data state = .error fault state' := by
  show EStateM.bind (reader data) (fun a => f a data) state = _
  simp only [EStateM.bind, h]

namespace Reader
variable {α β : Type} {reader : Reader α} {xs ys : List UInt8} {a : α}

/-- Takes these bytes as the value. -/
def Reads (reader : Reader α) (xs : List UInt8) (a : α) : Prop :=
  ∀ (data : Bytes) (pos : Nat), data.HoldsAt pos xs → reader data pos = .ok a (pos + xs.length)

theorem reads_pure (a : α) : Reads (pure a) [] a := fun _ _ _ => rfl

theorem reads_word [Word α] (a : α) : Reads word (Word.bytes a) a := by
  intro data pos hd
  have hfit := hd.le_size
  have hu := Bytes.unsignedAt_of_holdsAt hd
  rw [Word.unsigned_bytes, Word.length_bytes] at hu
  rw [Word.length_bytes] at hfit ⊢
  simp only [word, hfit, ↓reduceIte, hu, Word.ofNat_toNat]

theorem reads_byte (b : UInt8) : byte.Reads [b] b := by
  have h : Word.bytes b = [b] := by
    simp only [Word.bytes, Word.width, Word.toNat, littleEndian, UInt8.ofNat_toNat]
  exact h ▸ reads_word b

/-- A byte is what stands at the position. -/
theorem run_byte (data : Bytes) (pos : Nat) :
    byte data pos = match data[pos]? with
      | some b => .ok b (pos + 1)
      | none => .error .outOfBounds pos := by
  cases h : data[pos]? with
  | some b => exact reads_byte b data pos (Bytes.holdsAt_singleton h)
  | none => exact if_neg (Nat.not_le.2 (Nat.lt_succ_of_le (Array.getElem?_eq_none_iff.1 h)))

namespace Reads

theorem value (h : reader.Reads xs a) {data : Bytes} {pos : Nat} (hd : data.HoldsAt pos xs) :
    reader.value data pos = .ok a := by
  simp only [Reader.value, outcome, h data pos hd]

theorem bind {f : α → Reader β} {b : β} (h : reader.Reads xs a) (hf : (f a).Reads ys b) :
    (reader >>= f).Reads (xs ++ ys) b := by
  intro data pos hd
  obtain ⟨hx, hy⟩ := Bytes.holdsAt_append.1 hd
  rw [run_bind_ok (h data pos hx), hf data _ hy, List.length_append, Nat.add_assoc]

theorem bind_pure {f : α → β} (h : reader.Reads xs a) :
    Reads (reader >>= fun a => pure (f a)) xs (f a) := by
  have := h.bind (f := fun a => pure (f a)) (reads_pure (f a))
  rwa [List.append_nil] at this

end Reads

theorem reads_words [Word α] {count : Nat} (v : Vector α count) :
    Reads (words count) (v.toList.flatMap Word.bytes) v := by
  induction count with
  | zero =>
    obtain rfl : v = #v[] := Vector.eq_empty
    exact reads_pure _
  | succ count ih =>
    have hb : ∀ (w : Vector α count) (a : α),
        (w.push a).toList.flatMap Word.bytes = w.toList.flatMap Word.bytes ++ Word.bytes a := by
      intro w a
      simp only [Vector.toList_push, List.flatMap_append, List.flatMap_cons, List.flatMap_nil,
        List.append_nil]
    have h : Reads (words (count + 1)) _ (v.pop.push v.back) :=
      (ih v.pop).bind (reads_word v.back).bind_pure
    rwa [← hb, Vector.push_pop_back] at h

section
variable {m n : Nat}

/-- Takes so many bytes, whatever they are, and its value comes from these bytes alone. -/
def Takes (reader : Reader α) (n : Nat) : Prop :=
  ∀ xs : List UInt8, xs.length = n → ∃ a, reader.Reads xs a

theorem takes_pure (a : α) : Takes (pure a) 0 := by
  intro xs hxs
  obtain rfl := List.eq_nil_of_length_eq_zero hxs
  exact ⟨a, reads_pure a⟩

theorem takes_word [Word α] : Takes (word (α := α)) (Word.width α) := by
  intro xs hxs
  refine ⟨Word.ofNat (unsigned xs), fun data pos hd => ?_⟩
  have hfit := hd.le_size
  have hu := Bytes.unsignedAt_of_holdsAt hd
  rw [hxs] at hfit hu ⊢
  simp only [word, hfit, ↓reduceIte, hu]

namespace Takes

theorem bind {f : α → Reader β} (h : reader.Takes m) (hm : m ≤ n) (hf : ∀ a, (f a).Takes (n - m)) :
    (reader >>= f).Takes n := by
  intro xs hxs
  obtain ⟨a, ha⟩ := h (xs.take m) (by rw [List.length_take]; omega)
  obtain ⟨b, hb⟩ := hf a (xs.drop m) (by rw [List.length_drop]; omega)
  have hab := ha.bind hb
  rw [List.take_append_drop] at hab
  exact ⟨b, hab⟩

theorem words [Word α] (count : Nat) : Takes (words (α := α) count) (count * Word.width α) := by
  induction count with
  | zero =>
    rw [Nat.zero_mul]
    exact takes_pure _
  | succ count ih =>
    have hlast : (count + 1) * Word.width α - count * Word.width α = Word.width α := by
      rw [Nat.succ_mul, Nat.add_sub_cancel_left]
    refine ih.bind (Nat.mul_le_mul_right _ (Nat.le_succ _)) fun earlier => ?_
    rw [hlast]
    refine takes_word.bind (Nat.le_refl _) fun last => ?_
    rw [Nat.sub_self]
    exact takes_pure _

variable {data data' : Bytes} {pos : Nat}

theorem value_ok (h : reader.Takes n) (hfit : pos + n ≤ data.size) : ∃ a, reader.value data pos = .ok a := by
  have hlen : (data.extract pos (pos + n)).toList.length = n := by
    rw [Array.length_toList, Array.size_extract]
    omega
  obtain ⟨a, ha⟩ := h _ hlen
  exact ⟨a, ha.value (Bytes.holdsAt_extract (Nat.le_add_right ..) hfit)⟩

theorem value_congr (h : reader.Takes n) (hfit : pos + n ≤ data.size) (hfit' : pos + n ≤ data'.size)
    (hsame : data'.extract pos (pos + n) = data.extract pos (pos + n)) :
    reader.value data' pos = reader.value data pos := by
  have hlen : (data.extract pos (pos + n)).toList.length = n := by
    rw [Array.length_toList, Array.size_extract]
    omega
  obtain ⟨a, ha⟩ := h _ hlen
  have hd' := Bytes.holdsAt_extract (Nat.le_add_right ..) hfit'
  rw [hsame] at hd'
  rw [ha.value hd', ha.value (Bytes.holdsAt_extract (Nat.le_add_right ..) hfit)]

end Takes

end

section
variable {form : α → List UInt8 → Prop}

theorem bind_ok {σ : Type} {reader : ReaderT Bytes (EStateM Fault σ) α}
    {f : α → ReaderT Bytes (EStateM Fault σ) β} {b : β} {data : Bytes} {start stop : σ}
    (h : (reader >>= f) data start = .ok b stop) :
    ∃ a mid, reader data start = .ok a mid ∧ f a data mid = .ok b stop := by
  have h : EStateM.bind (reader data) (fun a => f a data) start = .ok b stop := h
  unfold EStateM.bind at h
  split at h
  · next a mid hreader => exact ⟨a, mid, hreader, h⟩
  · cases h

/-- A value that is read stands there in such a form. -/
def Stores (reader : Reader α) (form : α → List UInt8 → Prop) : Prop :=
  ∀ (data : Bytes) (pos stop : Nat) (a : α), pos ≤ data.size → reader data pos = .ok a stop →
    ∃ xs, form a xs ∧ data.HoldsAt pos xs ∧ stop = pos + xs.length

theorem stores_pure {a : α} (h : form a []) : Stores (pure a) form := by
  intro data pos stop b hpos hread
  cases hread
  refine ⟨[], h, ⟨data.toList.take pos, data.toList.drop pos, by simp, ?_⟩, rfl⟩
  rw [List.length_take, Array.length_toList, Nat.min_eq_left hpos]

theorem Stores.bind {f : α → Reader β} {form' : β → List UInt8 → Prop} (h : reader.Stores form)
    (hf : ∀ a xs, form a xs → (f a).Stores fun b ys => form' b (xs ++ ys)) :
    (reader >>= f).Stores form' := by
  intro data pos stop b hpos hread
  obtain ⟨a, mid, ha, hb⟩ := bind_ok hread
  obtain ⟨xs, hform, hxs, rfl⟩ := h _ _ _ _ hpos ha
  obtain ⟨ys, hform', hys, rfl⟩ := hf a xs hform _ _ _ _ hxs.le_size hb
  exact ⟨xs ++ ys, hform', Bytes.holdsAt_append.2 ⟨hxs, hys⟩, by rw [List.length_append, Nat.add_assoc]⟩

theorem stores_word [Word α] : Stores (word (α := α)) fun a xs => xs = Word.bytes a := by
  intro data pos stop a _ h
  unfold word at h
  split at h
  · next hfit =>
    cases h
    have hd := Bytes.holdsAt_extract (Nat.le_add_right pos (Word.width α)) hfit
    have hlen : (data.extract pos (pos + Word.width α)).toList.length = Word.width α := by
      rw [Array.length_toList, Array.size_extract]
      omega
    have hu := Bytes.unsignedAt_of_holdsAt hd
    rw [hlen] at hu
    refine ⟨_, ?_, hd, by rw [hlen]⟩
    rw [hu]
    exact (Word.bytes_ofNat_unsigned hlen).symm
  · cases h

theorem stores_words [Word α] (count : Nat) :
    Stores (words (α := α) count) fun v xs => xs = v.toList.flatMap Word.bytes := by
  induction count with
  | zero => exact stores_pure rfl
  | succ count ih =>
    refine ih.bind ?_
    rintro earlier _ rfl
    refine stores_word.bind ?_
    rintro last _ rfl
    refine stores_pure ?_
    simp only [Vector.toList_push, List.flatMap_append, List.flatMap_cons, List.flatMap_nil, List.append_nil]

end

/-- Ends so many bytes further on, or out of bounds. -/
def Moves (reader : Reader α) (n : Nat) : Prop :=
  ∀ (data : Bytes) (pos : Nat), match reader data pos with
    | .ok _ stop => stop = pos + n
    | .error fault _ => fault = .outOfBounds

theorem moves_pure (a : α) : Moves (pure a) 0 := fun _ _ => rfl

theorem moves_word [Word α] : Moves (word (α := α)) (Word.width α) := by
  intro data pos
  by_cases hfit : pos + Word.width α ≤ data.size
  · simp only [word, hfit, ↓reduceIte]
  · simp only [word, hfit, ↓reduceIte]

theorem Moves.bind {m n : Nat} {f : α → Reader β} (h : reader.Moves m) (hm : m ≤ n)
    (hf : ∀ a, (f a).Moves (n - m)) : (reader >>= f).Moves n := by
  intro data pos
  have hfirst := h data pos
  cases hreader : reader data pos with
  | error fault mid =>
    rw [hreader] at hfirst
    rw [run_bind_error hreader]
    exact hfirst
  | ok a mid =>
    rw [hreader] at hfirst
    subst hfirst
    have hnext := hf a data (pos + m)
    rw [Nat.add_assoc, Nat.add_sub_cancel' hm] at hnext
    rw [run_bind_ok hreader]
    exact hnext

end Reader

end CompactAssembly

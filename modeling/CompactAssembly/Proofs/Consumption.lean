import CompactAssembly.Proofs.Reads
import CompactAssembly.Signature.Decoding

/-!
# What a reader consumes

`Consumes reader start stop xs a`: the reader takes exactly the bytes `xs` as the value `a`, whatever stands
before and behind them, and where the data end within `xs` it fails for want of bytes. `start` and `stop` say
how the state of the reader goes with a position. A chain of binds consumes the pieces one after the other
(`Consumes.bind`), so what a reader does with a word and with each part of it is found in one pass.
-/

namespace CompactAssembly

namespace Bytes
variable {data : Bytes} {pos : Nat} {xs ys : List UInt8}

/-- From `pos` on there are these bytes and no more. -/
def EndsWith (data : Bytes) (pos : Nat) (xs : List UInt8) : Prop :=
  ∃ before, data.toList = before ++ xs ∧ before.length = pos

theorem endsWith_drop (h : pos ≤ data.size) : data.EndsWith pos (data.toList.drop pos) := by
  refine ⟨data.toList.take pos, (List.take_append_drop ..).symm, ?_⟩
  rw [List.length_take, Array.length_toList, Nat.min_eq_left h]

namespace EndsWith

theorem holdsAt (h : data.EndsWith pos xs) (hys : ys <+: xs) : data.HoldsAt pos ys := by
  obtain ⟨before, hdata, hlen⟩ := h
  obtain ⟨more, rfl⟩ := hys
  exact ⟨before, more, hdata, hlen⟩

theorem size_eq (h : data.EndsWith pos xs) : data.size = pos + xs.length := by
  obtain ⟨before, hdata, rfl⟩ := h
  rw [← Array.length_toList, hdata, List.length_append]

theorem behind (h : data.EndsWith pos (xs ++ ys)) : data.EndsWith (pos + xs.length) ys := by
  obtain ⟨before, hdata, rfl⟩ := h
  exact ⟨before ++ xs, by rw [hdata, List.append_assoc], List.length_append⟩

end EndsWith

theorem holdsAt_of_extract {stop : Nat} (h : (data.extract pos stop).toList = xs) (hne : xs ≠ []) :
    data.HoldsAt pos xs ∧ (stop ≤ data.size → stop = pos + xs.length) := by
  have hlen : min stop data.size - pos = xs.length := by
    rw [← h, Array.length_toList, Array.size_extract]
  have hpos := List.length_pos_iff.2 hne
  have hmin : (data.extract pos (min stop data.size)).toList = (data.extract pos stop).toList := by
    rw [Array.toList_extract, Array.toList_extract, List.extract_eq_take_drop, List.extract_eq_take_drop,
      List.take_eq_take_iff, List.length_drop, Array.length_toList]
    omega
  have hd : data.HoldsAt pos (data.extract pos (min stop data.size)).toList :=
    holdsAt_extract (by omega) (Nat.min_le_right ..)
  rw [hmin, h] at hd
  exact ⟨hd, fun hle => by omega⟩

theorem HoldsAt.cut {cut : Nat} (h : data.HoldsAt pos xs) (hcut : pos ≤ cut) (hlt : cut < pos + xs.length) :
    EndsWith (data.extract 0 cut) pos (xs.take (cut - pos)) := by
  obtain ⟨before, after, hdata, rfl⟩ := h
  refine ⟨before, ?_, rfl⟩
  have htake : (xs ++ after).take (cut - before.length) = xs.take (cut - before.length) :=
    List.take_append_of_le_length (by omega)
  rw [Array.toList_extract, List.extract_eq_take_drop, hdata, Nat.sub_zero, List.drop_zero,
    List.take_append, List.take_of_length_le hcut, htake]

end Bytes

section
variable {σ α β : Type}

/-- From this state the reader fails for this reason. -/
def Fails (reader : ReaderT Bytes (EStateM Fault σ) α) (data : Bytes) (state : σ) (fault : Fault) : Prop :=
  ∃ state', reader data state = .error fault state'

structure Consumes (reader : ReaderT Bytes (EStateM Fault σ) α) (start stop : Nat → σ) (xs : List UInt8)
    (a : α) : Prop where
  reads : ∀ (data : Bytes) (pos : Nat), data.HoldsAt pos xs →
    reader data (start pos) = .ok a (stop (pos + xs.length))
  short : ∀ (data : Bytes) (pos : Nat) (part : List UInt8), part <+: xs → part ≠ xs →
    data.EndsWith pos part → Fails reader data (start pos) .outOfBounds

variable {reader : ReaderT Bytes (EStateM Fault σ) α} {f : α → ReaderT Bytes (EStateM Fault σ) β}
variable {start mid stop : Nat → σ} {xs ys : List UInt8} {a : α} {b : β}
variable {data : Bytes} {state state' : σ} {fault : Fault}

theorem run_map (g : α → β) (reader : ReaderT Bytes (EStateM Fault σ) α) (data : Bytes) (state : σ) :
    (g <$> reader) data state = EStateM.map g (reader data) state := rfl

theorem run_map_ok {g : α → β} (h : reader data state = .ok a state') :
    (g <$> reader) data state = .ok (g a) state' := by
  simp only [run_map, EStateM.map, h]

namespace Fails

theorem ne_ok (h : Fails reader data state fault) (a : α) : reader data state ≠ .ok a state' := by
  obtain ⟨stop, h⟩ := h
  rw [h]
  exact nofun

theorem bind (h : Fails reader data state fault) : Fails (reader >>= f) data state fault := by
  obtain ⟨state', h⟩ := h
  exact ⟨state', run_bind_error h⟩

theorem map {g : α → β} (h : Fails reader data state fault) : Fails (g <$> reader) data state fault := by
  obtain ⟨state', h⟩ := h
  refine ⟨state', ?_⟩
  simp only [run_map, EStateM.map, h]

theorem bind_ok (h : reader data state = .ok a state') (hf : Fails (f a) data state' fault) :
    Fails (reader >>= f) data state fault := by
  obtain ⟨state'', hf⟩ := hf
  exact ⟨state'', (run_bind_ok h).trans hf⟩

end Fails

namespace Consumes

theorem pure (a : α) : Consumes (Pure.pure a : ReaderT Bytes (EStateM Fault σ) α) start start [] a where
  reads _ _ _ := rfl
  short _ _ _ hpart hne := absurd (List.prefix_nil.1 hpart) hne

theorem bind (h : Consumes reader start mid xs a) (hf : Consumes (f a) mid stop ys b) :
    Consumes (reader >>= f) start stop (xs ++ ys) b where
  reads data pos hd := by
    obtain ⟨hx, hy⟩ := Bytes.holdsAt_append.1 hd
    rw [run_bind_ok (h.reads data pos hx), hf.reads data _ hy, List.length_append, Nat.add_assoc]
  short data pos part hpart hne hd := by
    by_cases hx : xs <+: part
    · -- the data end behind the first piece
      obtain ⟨part, rfl⟩ := hx
      have hread := h.reads data pos (hd.holdsAt (List.prefix_append ..))
      have hpart' := (List.prefix_append_right_inj xs).1 hpart
      exact .bind_ok hread (hf.short data _ part hpart' (fun he => hne (he ▸ rfl)) hd.behind)
    · have hshort : part <+: xs := by
        rcases List.prefix_or_prefix_of_prefix hpart (List.prefix_append xs ys) with hshort | hlong
        · exact hshort
        · exact absurd hlong hx
      exact (h.short data pos part hshort (fun he => hx (he ▸ List.prefix_rfl)) hd).bind

theorem bind_pure {g : α → β} (h : Consumes reader start stop xs a) :
    Consumes (reader >>= fun a => Pure.pure (g a)) start stop xs (g a) := by
  have := h.bind (f := fun a => Pure.pure (g a)) (pure (g a))
  rwa [List.append_nil] at this

theorem map {g : α → β} (h : Consumes reader start stop xs a) : Consumes (g <$> reader) start stop xs (g a) where
  reads data pos hd := run_map_ok (h.reads data pos hd)
  short data pos part hpart hne hd := (h.short data pos part hpart hne hd).map

end Consumes

end

namespace Reader
variable {α : Type} {reader : Reader α} {xs : List UInt8} {a : α}

theorem consumes_byte (b : UInt8) : Consumes byte id id [b] b where
  reads := reads_byte b
  short data pos part hpart hne hd := by
    obtain rfl : part = [] := by
      rcases List.prefix_cons_iff.1 hpart with rfl | ⟨rest, rfl, hrest⟩
      · rfl
      · exact absurd (congrArg (b :: ·) (List.prefix_nil.1 hrest)) hne
    have hend : ¬ pos + Word.width UInt8 ≤ data.size := by
      rw [hd.size_eq, List.length_nil]
      exact Nat.not_succ_le_self pos
    exact ⟨pos, if_neg hend⟩

end Reader

namespace SignatureReader
variable {α : Type} {xs : List UInt8} {a : α} {n : Nat}

theorem run_byte_some {b : UInt8} {data : Bytes} {c : SignatureCursor} (h : data[c.pos]? = some b) :
    ofReader Reader.byte data c = .ok b ⟨c.pos + 1, c.depth⟩ := by
  simp only [ofReader, Reader.run_byte, h]

theorem run_byte_none {data : Bytes} {c : SignatureCursor} (h : data[c.pos]? = none) :
    ofReader Reader.byte data c = .error .outOfBounds c := by
  simp only [ofReader, Reader.run_byte, h]

theorem fails_ofReader {reader : Reader α} {data : Bytes} {cursor : SignatureCursor} {fault : Fault}
    (h : Fails reader data cursor.pos fault) : Fails (ofReader reader) data cursor fault := by
  obtain ⟨pos, h⟩ := h
  exact ⟨{ cursor with pos }, by simp only [ofReader, h]⟩

theorem consumes_ofReader {reader : Reader α} (h : Consumes reader id id xs a) :
    Consumes (ofReader reader) (SignatureCursor.mk · n) (SignatureCursor.mk · n) xs a where
  reads data pos hd := by
    have hread : reader data pos = .ok a (pos + xs.length) := h.reads data pos hd
    simp only [ofReader, hread]
  short data pos part hpart hne hd := fails_ofReader (h.short data pos part hpart hne hd)

end SignatureReader

end CompactAssembly

import CompactAssembly.Proofs.Reencoding

/-!
# Tokens out of compressed integers

A compressed integer has two bits for the table and 27 for the index, of which a token keeps 24. What is left of a
larger index reaches into the byte of the table, so a token keeps both parts exactly if the index fits
(`Token.keeps_iff`). An element carries the token of the integer behind its opcodes, whatever wraps it
(`Element.Spells.exists_token`).
-/

namespace CompactAssembly

namespace Compressed
variable {n : Nat} {xs : List UInt8} {data : Bytes} {pos stop : Nat}

theorem Spells.le_limit (h : Spells xs n) : n ≤ limit := by
  unfold limit
  cases h with
  | one a ha => omega
  | two a b ha ha' =>
    have hb := b.toNat_lt
    omega
  | four a b c d ha ha' =>
    have hb := b.toNat_lt
    have hc := c.toNat_lt
    have hd := d.toNat_lt
    omega

theorem read_ok_iff :
    read data pos = .ok n stop ↔ ∃ xs, Spells xs n ∧ data.HoldsAt pos xs ∧ stop = pos + xs.length := by
  constructor
  · intro h
    have hpos : pos ≤ data.size := by
      obtain ⟨lead, mid, hlead, -⟩ := Reader.bind_ok h
      unfold Reader.byte Reader.word at hlead
      split at hlead
      · next hfit => exact Nat.le_of_add_right_le hfit
      · cases hlead
    have hend := Bytes.endsWith_drop hpos
    cases verdict (data.toList.drop pos) with
    | word hword hxs =>
      have hd := hend.holdsAt hxs
      have hread := (consumes_read hword).reads data pos hd
      rw [id, h] at hread
      cases hread
      exact ⟨_, hword, hd, rfl⟩
    | short hword hxs hne => exact absurd h (((consumes_read hword).short data pos _ hxs hne hend).ne_ok n)
    | lead lead hlead hxs => exact absurd h ((fails_read (hend.holdsAt hxs) hlead).ne_ok n)
  · rintro ⟨xs, hspells, hd, rfl⟩
    exact (consumes_read hspells).reads data pos hd

theorem outcome_read_ok_iff : read.outcome data pos = (.ok n, stop) ↔ read data pos = .ok n stop := by
  unfold Reader.outcome
  cases read data pos with
  | ok value stop' => simp
  | error fault stop' => simp

end Compressed

namespace Token
variable {n : Nat}

/-- The token names the table that the two low bits of a number choose, and the rest of the number as the index. -/
structure Keeps (token : Token) (n : Nat) : Prop where
  tableId : token.tableId = compressedTable (n % 4)
  index : token.index = n / 4

theorem keeps_iff : (ofCompressed n).Keeps n ↔ n < 0x4000000 := by
  constructor
  · intro h
    have hindex := h.index
    rw [index_ofCompressed] at hindex
    omega
  · intro h
    refine ⟨tableId_ofCompressed (by omega), ?_⟩
    rw [index_ofCompressed]
    omega

theorem outcome_readCompressed (data : Bytes) (pos : Nat) : readCompressed.outcome data pos =
    ((Compressed.read.outcome data pos).1.map ofCompressed, (Compressed.read.outcome data pos).2) := by
  have hrun : readCompressed data pos = EStateM.bind (Compressed.read data)
      (fun n => EStateM.pure (ofCompressed n)) pos := rfl
  unfold Reader.outcome
  rw [hrun, EStateM.bind]
  cases Compressed.read data pos <;> rfl

end Token

namespace Element
variable {xs : List UInt8} {e : Element} {token : Token}

theorem Spells.exists_token (h : Spells xs e)
    (htoken : e.innermost = .classType token ∨ e.innermost = .valueType token) :
    ∃ opcodes ys n, xs = opcodes ++ ys ∧ opcodes.length = e.wrappers + 1 ∧ Compressed.Spells ys n ∧
      token = .ofCompressed n := by
  induction h with
  | primitive p => simp [innermost] at htoken
  | unknown code _ => simp [innermost] at htoken
  | szArray _ ih | byRef _ ih =>
    obtain ⟨opcodes, ys, n, rfl, hlength, hspells, rfl⟩ := ih htoken
    exact ⟨_ :: opcodes, ys, n, rfl, congrArg (· + 1) hlength, hspells, rfl⟩
  | classType hspells | valueType hspells =>
    simp only [innermost, classType.injEq, valueType.injEq, reduceCtorEq, or_false, false_or] at htoken
    exact ⟨[_], _, _, rfl, rfl, hspells, htoken.symm⟩

end Element

/-- A token is read wherever a compressed integer is, and as many bytes are taken. It names the table of the two low
bits and the rest of the number as the index if the number is below `2 ^ 26`, and no other number is kept: the
index loses its high bits, which are set in the number of the table. The token of a class or value type, wrapped
or not, is that of the integer behind the opcodes. -/
theorem compressed_token_keeps (data : Bytes) :
    (∀ pos n stop, Compressed.read.outcome data pos = (.ok n, stop) →
      ∃ token, Token.readCompressed.outcome data pos = (.ok token, stop) ∧
        (token.Keeps n ↔ n < 0x4000000) ∧ token.index = n / 4 % 0x1000000 ∧
        token.tableId = Token.compressedTable (n % 4) ||| n / 0x4000000) ∧
    (∀ pos fault stop, Compressed.read.outcome data pos = (.error fault, stop) →
      Token.readCompressed.outcome data pos = (.error fault, stop)) ∧
    ∀ pos e stop token, decodeElement data pos = .ok (e, stop) →
      e.innermost = .classType token ∨ e.innermost = .valueType token →
      ∃ n, Compressed.read.outcome data (pos + (e.wrappers + 1)) = (.ok n, stop) ∧
        Token.readCompressed.outcome data (pos + (e.wrappers + 1)) = (.ok token, stop) ∧
        (token.Keeps n ↔ n < 0x4000000) := by
  refine ⟨fun pos n stop hread => ?_, fun pos fault stop hread => ?_, fun pos e stop token hdecode htoken => ?_⟩
  · obtain ⟨xs, hspells, -⟩ := Compressed.read_ok_iff.1 (Compressed.outcome_read_ok_iff.1 hread)
    refine ⟨.ofCompressed n, ?_, Token.keeps_iff, Token.index_ofCompressed n,
      Token.tableId_ofCompressed_or hspells.le_limit⟩
    rw [Token.outcome_readCompressed, hread]
    rfl
  · rw [Token.outcome_readCompressed, hread]
    rfl
  · obtain ⟨word, hword, -, hd, rfl⟩ := Element.decodeElement_ok_iff.1 hdecode
    obtain ⟨opcodes, ys, n, rfl, hlength, hspells, rfl⟩ := hword.exists_token htoken
    have hys := (Bytes.holdsAt_append.1 hd).2
    rw [hlength] at hys
    have hread : Compressed.read.outcome data (pos + (e.wrappers + 1)) = (.ok n, pos + (opcodes ++ ys).length) := by
      rw [Compressed.outcome_read_ok_iff, Compressed.read_ok_iff]
      exact ⟨ys, hspells, hys, by rw [List.length_append, hlength, Nat.add_assoc pos]⟩
    refine ⟨n, hread, ?_, Token.keeps_iff⟩
    rw [Token.outcome_readCompressed, hread]
    rfl

/-- An array of the sixth referenced type. -/
theorem compressed_token_keeps_array :
    Compressed.read.outcome #[0x13, 0x11, 0x15] 2 = (.ok 0x15, 3) ∧
      decodeElement #[0x13, 0x11, 0x15] 0 = .ok (.szArray (.classType ⟨0x01000005⟩), 3) ∧
      (⟨0x01000005⟩ : Token).Keeps 0x15 := by
  have hdecode : decodeElement #[0x13, 0x11, 0x15] 0 = .ok (.szArray (.classType ⟨0x01000005⟩), 3) := rfl
  obtain ⟨-, -, helement⟩ := compressed_token_keeps #[0x13, 0x11, 0x15]
  obtain ⟨n, hread, -, hkeeps⟩ := helement 0 _ 3 ⟨0x01000005⟩ hdecode (.inl rfl)
  have hn : Compressed.read.outcome #[0x13, 0x11, 0x15] 2 = (.ok 0x15, 3) := rfl
  cases hread.symm.trans hn
  exact ⟨hn, hdecode, hkeeps.2 (by decide)⟩

/-- The least number whose index is too long stands for a type definition and becomes the token of a field. A class
with a longer one is taken for the first type. -/
theorem compressed_token_spills :
    Compressed.read.outcome #[0xC4, 0x00, 0x00, 0x00] 0 = (.ok 0x4000000, 4) ∧
      Token.readCompressed.outcome #[0xC4, 0x00, 0x00, 0x00] 0 = (.ok ⟨0x05000000⟩, 4) ∧
      ¬ (⟨0x05000000⟩ : Token).Keeps 0x4000000 ∧ (⟨0x05000000⟩ : Token).decode? = some (.fieldDef, 0) ∧
      Compressed.read.outcome #[0x11, 0xD0, 0x00, 0x00, 0x00] 1 = (.ok 0x10000000, 5) ∧
      decodeElement #[0x11, 0xD0, 0x00, 0x00, 0x00] 0 = .ok (.classType ⟨0x04000000⟩, 5) ∧
      ¬ (⟨0x04000000⟩ : Token).Keeps 0x10000000 ∧ (⟨0x04000000⟩ : Token).decode? = some (.typeDef, 0) := by
  have hdecode : decodeElement #[0x11, 0xD0, 0x00, 0x00, 0x00] 0 = .ok (.classType ⟨0x04000000⟩, 5) := rfl
  refine ⟨rfl, rfl, fun h => ?_, rfl, rfl, hdecode, fun h => ?_, rfl⟩
  · exact absurd h.tableId (by decide)
  · exact absurd h.index (by decide)

end CompactAssembly

import CompactAssembly.Proofs.Spelling

/-!
# Names by a rule without memory

A namer remembers how far it got with each name and goes on from there. What it hands out is nevertheless what a
search from the start would find among all names handed out before (`Namer.Rule`): whatever was asked for in
whatever order, the forms of a name up to the remembered number have been handed out (`Namer.Tracks`). Where no
name that is asked for is the form of another one, numbers count how often a name was asked for.
-/

namespace CompactAssembly.Namer
variable {namer : Namer} {issued : Std.HashSet String} {earlier : List String} {base base' name name' : String}

/-- The namer after names were asked for, first to last. -/
def after (bases : List String) : Namer := bases.foldl (fun namer base => (namer.next base).2) .empty

/-- The name that a search from the start finds: the base unless it was handed out, and otherwise the base with the
smallest number from two on that makes it new. -/
def Rule (earlier : List String) (base name : String) : Prop :=
  (base ∉ earlier ∧ name = base) ∨
    (base ∈ earlier ∧ ∃ k, 2 ≤ k ∧ name = base ++ "_" ++ toString k ∧ name ∉ earlier ∧
      ∀ j, 2 ≤ j → j < k → base ++ "_" ++ toString j ∈ earlier)

/-- The search of a namer from a number on comes to an end at a number. -/
inductive Search (issued : Std.HashSet String) (base : String) : (number found : Nat) → Prop
  | free {number : Nat} (h : numbered base number ∉ issued) : Search issued base number number
  | taken {number found : Nat} (h : numbered base number ∈ issued) (later : Search issued base (number + 1) found) :
    Search issued base number found

theorem numbered_one (base : String) : numbered base 1 = base := if_pos rfl

theorem numbered_of_two_le {k : Nat} (hk : 2 ≤ k) : numbered base k = base ++ "_" ++ toString k :=
  if_neg (by omega)

theorem not_mem_digits (n : Nat) : '_' ∉ (toString n).toList := by
  intro h
  have hdigits : '_' ∈ Nat.toDigits 10 n := by
    rwa [show toString n = n.repr from rfl, Nat.toList_repr] at h
  have hdigit := Nat.isDigit_of_mem_toDigits (by decide) (by decide) hdigits
  revert hdigit
  decide

theorem eq_numbered_of_numbered_eq {m n : Nat} (hm : 1 ≤ m) (hn : 1 ≤ n) (h : numbered base m = numbered base' n) :
    ∃ k, 1 ≤ k ∧ (base = numbered base' k ∨ base' = numbered base k) := by
  by_cases hm1 : m = 1
  · exact ⟨n, hn, .inl (by rw [← h, hm1]; rfl)⟩
  by_cases hn1 : n = 1
  · exact ⟨m, hm, .inr (by rw [h, hn1]; rfl)⟩
  rw [numbered, numbered, if_neg hm1, if_neg hn1, ← String.toList_inj, String.toList_append, String.toList_append,
    String.toList_append, String.toList_append] at h
  obtain ⟨hbase, -⟩ := append_inj_of_not_mem (.inr ⟨_, rfl⟩) (.inr ⟨_, rfl⟩) (not_mem_digits m) (not_mem_digits n) h
  exact ⟨1, Nat.le_refl 1, .inl (String.toList_inj.1 (List.append_singleton_inj.1 hbase).1)⟩

theorem rule_iff : Rule earlier base name ↔ ∃ k, 1 ≤ k ∧ name = numbered base k ∧ numbered base k ∉ earlier ∧
    ∀ j, 1 ≤ j → j < k → numbered base j ∈ earlier := by
  constructor
  · rintro (⟨hfree, rfl⟩ | ⟨htaken, k, hk, rfl, hfree, hbelow⟩)
    · exact ⟨1, Nat.le_refl 1, (numbered_one _).symm, by rwa [numbered_one], by omega⟩
    · rw [← numbered_of_two_le hk] at hfree ⊢
      refine ⟨k, by omega, rfl, hfree, fun j hj hlt => ?_⟩
      by_cases hj1 : j = 1
      · rwa [hj1, numbered_one]
      · have hj2 : 2 ≤ j := by omega
        rw [numbered_of_two_le hj2]
        exact hbelow j hj2 hlt
  · rintro ⟨k, hk, rfl, hfree, hbelow⟩
    by_cases hk1 : k = 1
    · rw [hk1, numbered_one] at hfree ⊢
      exact .inl ⟨hfree, rfl⟩
    · have htaken := hbelow 1 (Nat.le_refl 1) (by omega)
      rw [numbered_one] at htaken
      refine .inr ⟨htaken, k, by omega, numbered_of_two_le (by omega), hfree, fun j hj hlt => ?_⟩
      rw [← numbered_of_two_le hj]
      exact hbelow j (by omega) hlt

theorem Rule.unique (h : Rule earlier base name) (h' : Rule earlier base name') : name' = name := by
  obtain ⟨k, hk, rfl, hfree, hbelow⟩ := rule_iff.1 h
  obtain ⟨k', hk', rfl, hfree', hbelow'⟩ := rule_iff.1 h'
  rcases Nat.lt_trichotomy k k' with hlt | rfl | hlt
  · exact absurd (hbelow' k hk hlt) hfree
  · rfl
  · exact absurd (hbelow k' hk' hlt) hfree'

theorem Search.of_taken {number k : Nat} (htaken : ∀ j < k, numbered base (number + j) ∈ issued)
    (hfree : numbered base (number + k) ∉ issued) : Search issued base number (number + k) := by
  induction k generalizing number with
  | zero => exact .free hfree
  | succ k ih =>
    have hnext : number + (k + 1) = number + 1 + k := by omega
    rw [hnext] at hfree ⊢
    refine .taken (htaken 0 (Nat.zero_lt_succ k)) (ih (fun j hj => ?_) hfree)
    have := htaken (j + 1) (by omega)
    rwa [Nat.add_assoc, Nat.add_comm 1 j]

theorem Search.spec {number found : Nat} (h : Search issued base number found) :
    number ≤ found ∧ numbered base found ∉ issued ∧ ∀ j, number ≤ j → j < found → numbered base j ∈ issued := by
  induction h with
  | free h => exact ⟨Nat.le_refl _, h, by omega⟩
  | @taken number found h later ih =>
    obtain ⟨hle, hfree, hbelow⟩ := ih
    refine ⟨by omega, hfree, fun j hj hlt => ?_⟩
    rcases Nat.eq_or_lt_of_le hj with rfl | hj
    · exact h
    · exact hbelow j hj hlt

theorem search_firstFree (issued : Std.HashSet String) (base : String) (number : Nat) :
    Search issued base number (firstFree issued base issued.size number) := by
  obtain ⟨k, -, heq, htaken, -⟩ := firstFree_spec issued base issued.size number
  have hfree := numbered_firstFree_not_mem issued base number
  rw [heq] at hfree ⊢
  exact .of_taken htaken hfree

/-- Each call of a namer is a search that ends. -/
theorem exists_search (namer : Namer) (base : String) : ∃ number,
    Search namer.issued base (namer.numbers.getD base 0 + 1) number ∧
      namer.next base =
        (numbered base number, ⟨namer.numbers.insert base number, namer.issued.insert (numbered base number)⟩) :=
  ⟨_, search_firstFree namer.issued base (namer.numbers.getD base 0 + 1), rfl⟩

/-- What a namer remembers of the names it has handed out. -/
structure Tracks (namer : Namer) (earlier : List String) : Prop where
  issued : ∀ name, name ∈ namer.issued ↔ name ∈ earlier
  numbers : ∀ base k, 1 ≤ k → k ≤ namer.numbers.getD base 0 → numbered base k ∈ earlier

theorem tracks_empty : Tracks .empty [] where
  issued name := by simp [empty]
  numbers base k hk hle := by
    simp only [empty, Std.HashMap.getD_empty] at hle
    omega

namespace Tracks

theorem rule (h : namer.Tracks earlier) {number : Nat}
    (hsearch : Search namer.issued base (namer.numbers.getD base 0 + 1) number) :
    1 ≤ number ∧ numbered base number ∉ earlier ∧ ∀ j, 1 ≤ j → j < number → numbered base j ∈ earlier := by
  obtain ⟨hle, hfree, hbelow⟩ := hsearch.spec
  refine ⟨by omega, fun hmem => hfree ((h.issued _).2 hmem), fun j hj hlt => ?_⟩
  by_cases hremembered : j ≤ namer.numbers.getD base 0
  · exact h.numbers base j hj hremembered
  · exact (h.issued _).1 (hbelow j (by omega) hlt)

theorem next (h : namer.Tracks earlier) (base : String) :
    (namer.next base).2.Tracks (earlier ++ [(namer.next base).1]) := by
  obtain ⟨number, hsearch, heq⟩ := namer.exists_search base
  obtain ⟨-, -, hbelow⟩ := h.rule hsearch
  rw [heq]
  refine ⟨fun name => ?_, fun c k hk hle => ?_⟩
  · rw [Std.HashSet.mem_insert, h.issued, List.mem_append, List.mem_singleton, or_comm, beq_iff_eq, eq_comm]
  · rw [Std.HashMap.getD_insert] at hle
    rw [List.mem_append, List.mem_singleton]
    split at hle
    · next hbase =>
      rw [← beq_iff_eq.1 hbase]
      rcases Nat.eq_or_lt_of_le hle with rfl | hlt
      · exact .inr rfl
      · exact .inl (hbelow k hk hlt)
    · exact .inl (h.numbers c k hk hle)

end Tracks

theorem after_concat (earlier : List String) (base : String) :
    after (earlier ++ [base]) = ((after earlier).next base).2 := by
  simp [after]

theorem nextAll_concat (namer : Namer) (earlier : List String) (base : String) :
    namer.nextAll (earlier ++ [base]) = namer.nextAll earlier ++
      [((earlier.foldl (fun namer base => (namer.next base).2) namer).next base).1] := by
  induction earlier generalizing namer with
  | nil => rfl
  | cons c earlier ih => simp only [List.cons_append, nextAll, ih, List.foldl_cons]

@[simp] theorem length_nextAll (namer : Namer) (bases : List String) : (namer.nextAll bases).length = bases.length := by
  induction bases generalizing namer with
  | nil => rfl
  | cons base bases ih => simp [nextAll, ih]

theorem tracks_after (bases : List String) : (after bases).Tracks (empty.nextAll bases) := by
  induction bases using List.reverseRecOn with
  | nil => exact tracks_empty
  | append_singleton earlier base ih =>
    rw [after_concat, nextAll_concat]
    exact ih.next base

theorem nodup_nextAll (bases : List String) : (empty.nextAll bases).Nodup := by
  induction bases using List.reverseRecOn with
  | nil => exact List.nodup_nil
  | append_singleton earlier base ih =>
    rw [nextAll_concat, List.nodup_append]
    refine ⟨ih, List.nodup_singleton _, fun name hname name' hname' heq => ?_⟩
    rw [List.mem_singleton] at hname'
    subst hname' heq
    exact (after earlier).next_not_mem base (((tracks_after earlier).issued _).2 hname)

/-- Names of which none is another one with a number. -/
def Unnumbered (bases : List String) : Prop :=
  ∀ base ∈ bases, ∀ base' ∈ bases, ∀ k, 2 ≤ k → base' ≠ base ++ "_" ++ toString k

theorem Unnumbered.eq_of_numbered_eq {bases : List String} (h : Unnumbered bases) (hbase : base ∈ bases)
    (hbase' : base' ∈ bases) {m n : Nat} (hm : 1 ≤ m) (hn : 1 ≤ n) (heq : numbered base m = numbered base' n) :
    base = base' := by
  obtain ⟨k, hk, hform⟩ := eq_numbered_of_numbered_eq hm hn heq
  by_cases hk1 : k = 1
  · rw [hk1, numbered_one, numbered_one, eq_comm (a := base'), or_self] at hform
    exact hform
  · have hk2 : 2 ≤ k := by omega
    rw [numbered_of_two_le hk2, numbered_of_two_le hk2] at hform
    rcases hform with hform | hform
    · exact absurd hform (h base' hbase' base hbase k hk2)
    · exact absurd hform (h base hbase base' hbase' k hk2)

theorem Unnumbered.initial (h : Unnumbered (earlier ++ [base])) : Unnumbered earlier :=
  fun c hc c' hc' => h c (List.mem_append_left _ hc) c' (List.mem_append_left _ hc')

/-- What is handed out next follows the rule. -/
theorem exists_next_rule (earlier : List String) (base : String) : ∃ number,
    Search (after earlier).issued base ((after earlier).numbers.getD base 0 + 1) number ∧
      (after earlier).next base = (numbered base number, after (earlier ++ [base])) ∧
      1 ≤ number ∧ Rule (empty.nextAll earlier) base (numbered base number) ∧
      ∀ j, 1 ≤ j → j < number → numbered base j ∈ empty.nextAll earlier := by
  obtain ⟨number, hsearch, hnext⟩ := (after earlier).exists_search base
  obtain ⟨hone, hfree, hbelow⟩ := (tracks_after earlier).rule hsearch
  refine ⟨number, hsearch, ?_, hone, rule_iff.2 ⟨number, hone, rfl, hfree, hbelow⟩, hbelow⟩
  rw [after_concat, hnext]

theorem nextAll_concat_of_rule (h : Rule (empty.nextAll earlier) base name) :
    empty.nextAll (earlier ++ [base]) = empty.nextAll earlier ++ [name] := by
  obtain ⟨number, -, hnext, -, hrule, -⟩ := exists_next_rule earlier base
  rw [nextAll_concat, ← h.unique hrule]
  exact congrArg (fun name => empty.nextAll earlier ++ [name]) (congrArg Prod.fst hnext)

/-- If the forms of names up to how often each was asked for are handed out, the next form follows. -/
theorem Unnumbered.rule (h : Unnumbered (earlier ++ [base]))
    (hmem : ∀ name, name ∈ empty.nextAll earlier ↔ ∃ c k, 1 ≤ k ∧ k ≤ earlier.count c ∧ name = numbered c k) :
    Rule (empty.nextAll earlier) base (numbered base (earlier.count base + 1)) := by
  refine rule_iff.2 ⟨earlier.count base + 1, Nat.le_add_left 1 _, rfl, fun hissued => ?_, fun j hj hlt => ?_⟩
  · obtain ⟨c, k, hk, hle, heq⟩ := (hmem _).1 hissued
    have hc : c ∈ earlier := List.count_pos_iff.1 (by omega)
    have hbase : base = c :=
      h.eq_of_numbered_eq (by simp) (List.mem_append_left _ hc) (Nat.le_add_left 1 _) hk heq
    subst hbase
    have := numbered_injective base heq
    omega
  · exact (hmem _).2 ⟨base, j, hj, by omega, rfl⟩

theorem Unnumbered.mem_nextAll {bases : List String} (h : Unnumbered bases) (name : String) :
    name ∈ empty.nextAll bases ↔ ∃ c k, 1 ≤ k ∧ k ≤ bases.count c ∧ name = numbered c k := by
  induction bases using List.reverseRecOn generalizing name with
  | nil =>
    simp only [nextAll, List.not_mem_nil, List.count_nil, false_iff, not_exists]
    omega
  | append_singleton earlier base ih =>
    have hmem := ih h.initial
    rw [nextAll_concat_of_rule (h.rule hmem), List.mem_append, List.mem_singleton, hmem]
    constructor
    · rintro (⟨c, k, hk, hle, rfl⟩ | rfl)
      · exact ⟨c, k, hk, Nat.le_trans hle (by simp [List.count_append]), rfl⟩
      · exact ⟨base, _, Nat.le_add_left 1 _, by simp [List.count_append], rfl⟩
    · rintro ⟨c, k, hk, hle, rfl⟩
      by_cases hlast : k ≤ earlier.count c
      · exact .inl ⟨c, k, hk, hlast, rfl⟩
      · -- only the name that was asked for last has one more form
        rw [List.count_append, List.count_singleton] at hle
        split at hle
        · next hbase =>
          have hk : k = earlier.count c + 1 := by omega
          rw [hk, ← beq_iff_eq.1 hbase]
          exact .inr rfl
        · omega

/-- Each call comes to an end. It gives the name that a search from the start finds among all names handed out
before, and no other, with a number that is no higher than the count of the calls; so no name is handed out twice.
If none of the names asked for is another one with a number, the name gets the number of times it was asked for,
and it is handed out as it is the first time. -/
theorem namer_follows_rule (earlier : List String) (base : String) :
    ∃ number, number ≤ earlier.length + 1 ∧
      Search (after earlier).issued base ((after earlier).numbers.getD base 0 + 1) number ∧
      (after earlier).next base = (numbered base number, after (earlier ++ [base])) ∧
      empty.nextAll (earlier ++ [base]) = empty.nextAll earlier ++ [numbered base number] ∧
      (∀ name, Rule (empty.nextAll earlier) base name ↔ name = numbered base number) ∧
      (empty.nextAll (earlier ++ [base])).Nodup ∧
      ((∀ c ∈ earlier ++ [base], ∀ c' ∈ earlier ++ [base], ∀ k, 2 ≤ k → c' ≠ c ++ "_" ++ toString k) →
        number = earlier.count base + 1) := by
  obtain ⟨number, hsearch, hnext, hone, hrule, hbelow⟩ := exists_next_rule earlier base
  have hlength : number - 1 ≤ (empty.nextAll earlier).length :=
    le_length_of_numbered_mem fun k hk => hbelow (1 + k) (Nat.le_add_right 1 k) (by omega)
  rw [length_nextAll] at hlength
  refine ⟨number, by omega, hsearch, hnext, nextAll_concat_of_rule hrule, fun name => ⟨hrule.unique, ?_⟩,
    nodup_nextAll _, fun hplain => ?_⟩
  · rintro rfl
    exact hrule
  · have hplain : Unnumbered (earlier ++ [base]) := hplain
    exact numbered_injective base ((hplain.rule hplain.initial.mem_nextAll).unique hrule)

theorem namer_follows_rule_third :
    (∀ c ∈ ["On", "Off", "On"] ++ ["On"], ∀ c' ∈ ["On", "Off", "On"] ++ ["On"], ∀ k, 2 ≤ k →
      c' ≠ c ++ "_" ++ toString k) ∧
      empty.nextAll (["On", "Off", "On"] ++ ["On"]) = empty.nextAll ["On", "Off", "On"] ++ ["On_3"] := by
  have hplain : ∀ c ∈ ["On", "Off", "On"] ++ ["On"], ∀ c' ∈ ["On", "Off", "On"] ++ ["On"], ∀ k, 2 ≤ k →
      c' ≠ c ++ "_" ++ toString k := by
    intro c _ c' hc' k _ heq
    have hmark : '_' ∈ c'.toList := by simp [heq]
    have hnone : ∀ c' ∈ ["On", "Off", "On"] ++ ["On"], '_' ∉ c'.toList := by decide
    exact hnone c' hc' hmark
  obtain ⟨number, -, -, -, hnames, -, -, hcount⟩ := namer_follows_rule ["On", "Off", "On"] "On"
  obtain rfl : number = 3 := hcount hplain
  exact ⟨hplain, hnames⟩

end CompactAssembly.Namer

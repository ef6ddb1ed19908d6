import Mathlib.Data.List.Forall2

/-!
# Computations that may fail, along a list

What a success of a chain, of a map and of a fold says about their steps.
-/

namespace CompactAssembly

variable {ε α β : Type}

theorem bind_eq_ok {x : Except ε α} {f : α → Except ε β} {b : β} :
    (x >>= f) = .ok b ↔ ∃ a, x = .ok a ∧ f a = .ok b := by
  cases x with
  | error e => exact ⟨nofun, nofun⟩
  | ok a =>
    constructor
    · exact fun h => ⟨a, rfl, h⟩
    · rintro ⟨_, ⟨⟩, h⟩
      exact h

theorem bind_eq_error {x : Except ε α} {f : α → Except ε β} {e : ε} :
    (x >>= f) = .error e ↔ x = .error e ∨ ∃ a, x = .ok a ∧ f a = .error e := by
  cases x with
  | error e' =>
    constructor
    · rintro ⟨⟩
      exact .inl rfl
    · rintro (⟨⟨⟩⟩ | ⟨_, ⟨⟩, -⟩)
      rfl
  | ok a =>
    constructor
    · exact fun h => .inr ⟨a, rfl, h⟩
    · rintro (⟨⟨⟩⟩ | ⟨_, ⟨⟩, h⟩)
      exact h

theorem forM_eq_ok {f : α → Except ε Unit} {xs : List α} :
    xs.forM f = .ok () ↔ ∀ x ∈ xs, f x = .ok () := by
  induction xs with
  | nil => exact ⟨fun _ => nofun, fun _ => rfl⟩
  | cons x xs ih =>
    rw [List.forM_eq_forM, List.forM_cons, bind_eq_ok, List.forall_mem_cons]
    constructor
    · rintro ⟨⟨⟩, hx, hxs⟩
      exact ⟨hx, ih.1 hxs⟩
    · rintro ⟨hx, hxs⟩
      exact ⟨(), hx, ih.2 hxs⟩

theorem mapM_eq_ok {f : α → Except ε β} {xs : List α} {ys : List β} :
    xs.mapM f = .ok ys ↔ List.Forall₂ (fun x y => f x = .ok y) xs ys := by
  induction xs generalizing ys with
  | nil =>
    rw [List.mapM_nil, List.forall₂_nil_left_iff]
    constructor
    · rintro ⟨⟩
      rfl
    · rintro rfl
      rfl
  | cons x xs ih =>
    rw [List.mapM_cons, List.forall₂_cons_left_iff]
    simp only [bind_eq_ok, ih]
    constructor
    · rintro ⟨y, hy, ys', hys, ⟨⟩⟩
      exact ⟨y, ys', hy, hys, rfl⟩
    · rintro ⟨y, ys', hy, hys, rfl⟩
      exact ⟨y, hy, ys', hys, rfl⟩

theorem exists_of_mapM_eq_error {f : α → Except ε β} {xs : List α} {e : ε} (h : xs.mapM f = .error e) :
    ∃ x ∈ xs, f x = .error e := by
  induction xs with
  | nil => cases h
  | cons x xs ih =>
    rw [List.mapM_cons] at h
    rcases bind_eq_error.1 h with hx | ⟨y, -, h⟩
    · exact ⟨x, List.mem_cons_self, hx⟩
    · rcases bind_eq_error.1 h with hxs | ⟨ys, -, h⟩
      · obtain ⟨x', hmem, hx'⟩ := ih hxs
        exact ⟨x', List.mem_cons_of_mem _ hmem, hx'⟩
      · cases h

theorem mapM_range_eq_ok {f : Nat → Except ε β} {n : Nat} {ys : List β} :
    (List.range n).mapM f = .ok ys ↔ ys.length = n ∧ ∀ (i : Nat) (hi : i < ys.length), f i = .ok ys[i] := by
  rw [mapM_eq_ok, List.forall₂_iff_get]
  simp only [List.length_range, List.get_eq_getElem, List.getElem_range]
  constructor
  · rintro ⟨hlen, h⟩
    exact ⟨hlen.symm, fun i hi => h i (hlen ▸ hi) hi⟩
  · rintro ⟨hlen, h⟩
    exact ⟨hlen.symm, fun i _ hi => h i hi⟩

/-- What belongs to the elements that pass a test, laid out beside all elements. -/
theorem exists_flatten_of_filter {R : α → β → Prop} {p : α → Bool} {xs : List α} {ys : List β}
    (h : List.Forall₂ R (xs.filter p) ys) :
    ∃ zs : List (List β), zs.flatten = ys ∧
      List.Forall₂ (fun x z => (p x = true ∧ ∃ y, R x y ∧ z = [y]) ∨ (p x = false ∧ z = [])) xs zs := by
  induction xs generalizing ys with
  | nil =>
    cases h
    exact ⟨[], rfl, .nil⟩
  | cons x xs ih =>
    cases hp : p x with
    | true =>
      rw [List.filter_cons_of_pos hp] at h
      obtain ⟨y, ys, hy, hys, rfl⟩ := List.forall₂_cons_left_iff.1 h
      obtain ⟨zs, rfl, hzs⟩ := ih hys
      exact ⟨[y] :: zs, rfl, .cons (.inl ⟨hp, y, hy, rfl⟩) hzs⟩
    | false =>
      rw [List.filter_cons_of_neg (by rw [hp]; nofun)] at h
      obtain ⟨zs, rfl, hzs⟩ := ih h
      exact ⟨[] :: zs, rfl, .cons (.inr ⟨hp, rfl⟩) hzs⟩

/-- What one step of a fold keeps of the elements before it, the whole fold keeps of all. -/
theorem foldlM_keeps {f : β → α → Except ε β} {P : List α → β → Prop} {xs : List α} {b b' : β}
    (hstep : ∀ earlier a later b b', xs = earlier ++ a :: later → P earlier b → f b a = .ok b' →
      P (earlier ++ [a]) b')
    (hb : P [] b) (h : xs.foldlM f b = .ok b') : P xs b' := by
  suffices ∀ later earlier b, xs = earlier ++ later → P earlier b → later.foldlM f b = .ok b' →
      P xs b' from
    this xs [] b rfl hb h
  clear h hb
  intro later
  induction later with
  | nil =>
    rintro earlier b hxs hb ⟨⟩
    rwa [hxs, List.append_nil]
  | cons x later ih =>
    intro earlier b hxs hb h
    rw [List.foldlM_cons, bind_eq_ok] at h
    obtain ⟨b₁, hb₁, h⟩ := h
    refine ih (earlier ++ [x]) b₁ ?_ (hstep earlier x later b b₁ hxs hb hb₁) h
    rw [hxs, List.append_assoc]
    rfl

theorem exists_of_forM_eq_error {f : α → Except ε Unit} {xs : List α} {e : ε} (h : xs.forM f = .error e) :
    ∃ x ∈ xs, f x = .error e := by
  induction xs with
  | nil => cases h
  | cons x xs ih =>
    rw [List.forM_eq_forM, List.forM_cons] at h
    rcases bind_eq_error.1 h with hx | ⟨_, -, h⟩
    · exact ⟨x, List.mem_cons_self, hx⟩
    · obtain ⟨x', hmem, hx'⟩ := ih h
      exact ⟨x', List.mem_cons_of_mem _ hmem, hx'⟩

theorem exists_of_foldlM_eq_error {f : β → α → Except ε β} {xs : List α} {b : β} {e : ε}
    (h : xs.foldlM f b = .error e) : ∃ x ∈ xs, ∃ b', f b' x = .error e := by
  induction xs generalizing b with
  | nil => cases h
  | cons x xs ih =>
    rw [List.foldlM_cons] at h
    rcases bind_eq_error.1 h with hx | ⟨b', -, h⟩
    · exact ⟨x, List.mem_cons_self, b, hx⟩
    · obtain ⟨x', hmem, hx'⟩ := ih h
      exact ⟨x', List.mem_cons_of_mem _ hmem, hx'⟩

theorem exists_of_forall_mapM {f : α → Except ε β} {xs : List α} (h : ∀ x ∈ xs, ∃ y, f x = .ok y) :
    ∃ ys, xs.mapM f = .ok ys := by
  induction xs with
  | nil => exact ⟨[], rfl⟩
  | cons x xs ih =>
    obtain ⟨y, hy⟩ := h x List.mem_cons_self
    obtain ⟨ys, hys⟩ := ih fun x' hx' => h x' (List.mem_cons_of_mem _ hx')
    rw [List.mapM_cons]
    exact ⟨y :: ys, bind_eq_ok.2 ⟨y, hy, bind_eq_ok.2 ⟨ys, hys, rfl⟩⟩⟩

/-- Where each step succeeds in another way, so does the map. -/
theorem exists_mapM_of_mapM {f f' : α → Except ε β} {Q : β → β → Prop} {xs : List α} {ys : List β}
    (h : xs.mapM f = .ok ys) (hstep : ∀ x, ∀ y ∈ ys, f x = .ok y → ∃ y', f' x = .ok y' ∧ Q y y') :
    ∃ ys', xs.mapM f' = .ok ys' ∧ List.Forall₂ Q ys ys' := by
  simp only [mapM_eq_ok] at h ⊢
  induction h with
  | nil => exact ⟨[], .nil, .nil⟩
  | @cons x y xs ys hxy _ ih =>
    obtain ⟨y', hy', hq⟩ := hstep x y List.mem_cons_self hxy
    obtain ⟨ys', hys', hall⟩ := ih fun x y hy => hstep x y (List.mem_cons_of_mem _ hy)
    exact ⟨y' :: ys', .cons hy' hys', .cons hq hall⟩

/-- Where a step keeps what the steps before it left or fails in a known way, so does the whole fold. -/
theorem foldlM_outcome {f : β → α → Except ε β} {P : List α → β → Prop} {Q : ε → Prop} {xs : List α} {b : β}
    (hstep : ∀ earlier a later b, xs = earlier ++ a :: later → P earlier b →
      (∃ b', f b a = .ok b' ∧ P (earlier ++ [a]) b') ∨ ∃ e, f b a = .error e ∧ Q e)
    (hb : P [] b) :
    (∃ b', xs.foldlM f b = .ok b' ∧ P xs b') ∨ ∃ e, xs.foldlM f b = .error e ∧ Q e := by
  suffices ∀ later earlier b, xs = earlier ++ later → P earlier b →
      (∃ b', later.foldlM f b = .ok b' ∧ P xs b') ∨ ∃ e, later.foldlM f b = .error e ∧ Q e from
    this xs [] b rfl hb
  intro later
  induction later with
  | nil =>
    intro earlier b hxs hb
    rw [List.append_nil] at hxs
    exact .inl ⟨b, rfl, hxs ▸ hb⟩
  | cons x later ih =>
    intro earlier b hxs hb
    rw [List.foldlM_cons]
    rcases hstep earlier x later b hxs hb with ⟨b₁, hb₁, hP⟩ | ⟨e, he, hQ⟩
    · rcases ih (earlier ++ [x]) b₁ (by rw [hxs, List.append_assoc]; rfl) hP with ⟨b', hb', hP'⟩ | ⟨e, he, hQ⟩
      · exact .inl ⟨b', bind_eq_ok.2 ⟨b₁, hb₁, hb'⟩, hP'⟩
      · exact .inr ⟨e, bind_eq_error.2 (.inr ⟨b₁, hb₁, he⟩), hQ⟩
    · exact .inr ⟨e, bind_eq_error.2 (.inl he), hQ⟩

end CompactAssembly

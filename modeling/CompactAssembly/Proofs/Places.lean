import CompactAssembly.Binding.Options
import CompactAssembly.Proofs.Traversal

/-!
# Which paths are the same place

Paths that begin alike and go on with an ending of their own are the same place when the endings differ by
repeated slashes at most (`Path.same_extended_iff`). A path of another extension is another place
(`Path.not_same_of_getLast?`).
-/

namespace CompactAssembly

namespace Text

/-- A text with one slash in place of each run of slashes. -/
def squeeze : List Char → List Char
  | [] => []
  | c :: cs => if c = '/' ∧ cs.head? = some '/' then squeeze cs else c :: squeeze cs

/-- The first step between slashes, and those behind it that are not empty. -/
def steps (cs : List Char) : List Char × List (List Char) :=
  match split '/' cs with
  | [] => ([], [])
  | first :: rest => (first, rest.filter fun piece => !piece.isEmpty)

variable {c : Char} {cs ds first : List Char} {rest : List (List Char)}

theorem steps_eq (h : split '/' cs = first :: rest) :
    steps cs = (first, rest.filter fun piece => !piece.isEmpty) := by
  rw [steps, h]

theorem steps_slash (cs : List Char) : steps ('/' :: cs) =
    ([], if (steps cs).1 = [] then (steps cs).2 else (steps cs).1 :: (steps cs).2) := by
  obtain ⟨first, rest, h⟩ := exists_split '/' cs
  rw [steps_eq (split_separator '/' cs), h, steps_eq h]
  cases first with
  | nil => rfl
  | cons c first => rfl

theorem steps_cons (hc : c ≠ '/') (cs : List Char) : steps (c :: cs) = (c :: (steps cs).1, (steps cs).2) := by
  obtain ⟨first, rest, h⟩ := exists_split '/' cs
  rw [steps_eq (split_cons hc h), steps_eq h]

theorem steps_squeeze (cs : List Char) : steps (squeeze cs) = steps cs := by
  induction cs with
  | nil => rfl
  | cons c cs ih =>
    rw [squeeze]
    split
    · next hslash =>
      obtain ⟨rfl, hhead⟩ := hslash
      obtain ⟨ds, rfl⟩ := List.head?_eq_some_iff.1 hhead
      rw [ih, steps_slash ('/' :: ds), steps_slash ds]
      rfl
    · by_cases hc : c = '/'
      · rw [hc, steps_slash, steps_slash, ih]
      · rw [steps_cons hc, steps_cons hc, ih]

theorem squeeze_eq_join (h : ∃ c, cs.getLast? = some c ∧ c ≠ '/') :
    squeeze cs = join '/' ((steps cs).1 :: (steps cs).2) := by
  induction cs with
  | nil =>
    obtain ⟨c, hc, -⟩ := h
    cases hc
  | cons c cs ih =>
    rcases cs with _ | ⟨d, ds⟩
    · obtain ⟨c', hlast, hc⟩ := h
      obtain rfl : c = c' := Option.some.inj hlast
      rw [squeeze, if_neg fun h => hc h.1, steps_cons hc]
      rfl
    · have ih := ih (by rwa [List.getLast?_cons_cons] at h)
      rw [squeeze]
      by_cases hc : c = '/'
      · subst hc
        by_cases hd : d = '/'
        · subst hd
          rw [if_pos ⟨rfl, rfl⟩, ih, steps_slash ('/' :: ds), steps_slash ds]
          rfl
        · rw [if_neg fun h => hd (Option.some.inj h.2), ih, steps_slash, steps_cons hd]
          rfl
      · rw [if_neg fun h => hc h.1, ih, steps_cons hc]
        cases (steps (d :: ds)).2 <;> rfl

theorem squeeze_inj (hcs : ∃ c, cs.getLast? = some c ∧ c ≠ '/') (hds : ∃ d, ds.getLast? = some d ∧ d ≠ '/') :
    squeeze cs = squeeze ds ↔ steps cs = steps ds := by
  constructor
  · intro h
    rw [← steps_squeeze cs, h, steps_squeeze]
  · intro h
    rw [squeeze_eq_join hcs, squeeze_eq_join hds, h]

theorem squeeze_append_of_not_mem (h : '/' ∉ cs) (ds : List Char) : squeeze (cs ++ ds) = cs ++ squeeze ds := by
  induction cs with
  | nil => rfl
  | cons c cs ih =>
    rw [List.mem_cons, not_or] at h
    rw [List.cons_append, squeeze, if_neg fun hslash => h.1 hslash.1.symm, ih h.2, List.cons_append]

theorem squeeze_append (cs : List Char) (h : '/' ∉ ds) : squeeze (cs ++ ds) = squeeze cs ++ ds := by
  induction cs with
  | nil =>
    have := squeeze_append_of_not_mem h []
    rwa [List.append_nil, squeeze, List.append_nil] at this
  | cons c cs ih =>
    have hhead : (cs ++ ds).head? = some '/' ↔ cs.head? = some '/' := by
      cases cs with
      | nil =>
        refine iff_of_false (fun hslash => h ?_) nofun
        exact List.mem_of_mem_head? hslash
      | cons => rfl
    rw [List.cons_append, squeeze, squeeze, ih]
    simp only [hhead]
    split <;> rfl

theorem ne_dots_of_mem_split {e : List Char} (hcs : '.' ∉ cs) (he : '/' ∉ e) (hdot : e ≠ [] ∧ e ≠ ['.'])
    {piece : List Char} (hpiece : piece ∈ split '/' (cs ++ '.' :: e)) : piece ≠ ['.'] ∧ piece ≠ ['.', '.'] := by
  induction cs generalizing piece with
  | nil =>
    rw [List.nil_append, split_of_not_mem (by simp [he]), List.mem_singleton] at hpiece
    subst hpiece
    simpa using hdot
  | cons c cs ih =>
    rw [List.mem_cons, not_or] at hcs
    have ih := @ih hcs.2
    rw [List.cons_append] at hpiece
    by_cases hc : c = '/'
    · rw [hc, split_separator, List.mem_cons] at hpiece
      rcases hpiece with rfl | hpiece
      · exact ⟨nofun, nofun⟩
      · exact ih hpiece
    · obtain ⟨first, rest, h⟩ := exists_split '/' (cs ++ '.' :: e)
      rw [split_cons hc h, List.mem_cons] at hpiece
      rcases hpiece with rfl | hpiece
      · exact ⟨fun h => hcs.1 (List.cons.inj h).1.symm, fun h => hcs.1 (List.cons.inj h).1.symm⟩
      · exact ih (h ▸ List.mem_cons_of_mem first hpiece)

theorem getLast?_split (h : cs.getLast? = some c) (hc : c ≠ '/') :
    ∃ piece, (split '/' cs).getLast? = some piece ∧ piece.getLast? = some c := by
  induction cs with
  | nil => cases h
  | cons d cs ih =>
    obtain ⟨first, rest, hsplit⟩ := exists_split '/' cs
    rcases cs with _ | ⟨e, es⟩
    · obtain rfl : d = c := Option.some.inj h
      exact ⟨[d], by rw [split_cons hc rfl]; rfl, rfl⟩
    · obtain ⟨piece, hlast, hpiece⟩ := ih (by rwa [List.getLast?_cons_cons] at h)
      rw [hsplit] at hlast
      by_cases hd : d = '/'
      · refine ⟨piece, ?_, hpiece⟩
        rw [hd, split_separator, hsplit, List.getLast?_cons_cons, hlast]
      · rw [split_cons hd hsplit]
        rcases rest with _ | ⟨second, rest⟩
        · obtain rfl : first = piece := Option.some.inj hlast
          refine ⟨d :: first, rfl, ?_⟩
          rw [List.getLast?_cons, hpiece]
          rfl
        · exact ⟨piece, by rwa [List.getLast?_cons_cons] at hlast ⊢, hpiece⟩

end Text

namespace Path

open Text

theorem step?_eq {piece : List Char} (hempty : piece ≠ []) (hdot : piece ≠ ['.']) (hdots : piece ≠ ['.', '.']) :
    step? piece = some (.name (String.ofList piece)) := by
  unfold step?
  split
  · exact absurd rfl hempty
  · exact absurd rfl hdot
  · exact absurd rfl hdots
  · rfl

theorem filterMap_step? {pieces : List (List Char)} (h : ∀ piece ∈ pieces, piece ≠ ['.'] ∧ piece ≠ ['.', '.']) :
    pieces.filterMap step? =
      (pieces.filter fun piece => !piece.isEmpty).map fun piece => .name (String.ofList piece) := by
  induction pieces with
  | nil => rfl
  | cons piece pieces ih =>
    have ih := ih fun piece hpiece => h piece (List.mem_cons_of_mem _ hpiece)
    obtain ⟨hdot, hdots⟩ := h piece List.mem_cons_self
    cases piece with
    | nil => exact ih
    | cons c cs =>
      rw [List.filterMap_cons_some (step?_eq (List.cons_ne_nil c cs) hdot hdots), ih]
      rfl

theorem components_eq {p : Path} {first : List Char} {rest : List (List Char)}
    (h : split '/' p.text.toList = first :: rest) :
    p.components = (lead? rest.isEmpty first).toList ++ rest.filterMap step? := by
  rw [components, pieces, h]

theorem lead?_eq {alone : Bool} {piece : List Char} (hempty : piece ≠ []) (hdot : piece ≠ ['.']) :
    lead? alone piece = step? piece := by
  unfold lead?
  split
  · exact absurd rfl hempty
  · exact absurd rfl hdot
  · rfl

/-- What stands in front of a name: nothing, or steps with a slash behind them. -/
def Leading (front : List Char) : Prop := front = [] ∨ ∃ steps, front = steps ++ ['/']

theorem Leading.exists_components {front : List Char} (h : Leading front) :
    ∃ before, ∀ cs : List Char, (∃ c cs', cs = c :: cs' ∧ c ≠ '/' ∧ c ≠ '.') →
      components ⟨String.ofList (front ++ cs)⟩ = before ++ (split '/' cs).filterMap step? := by
  rcases h with rfl | ⟨steps, rfl⟩
  · refine ⟨[], ?_⟩
    rintro _ ⟨c, cs, rfl, hslash, hdot⟩
    obtain ⟨first, rest, hsplit⟩ := exists_split '/' cs
    have hsplit := split_cons hslash hsplit
    rw [components_eq (by rw [String.toList_ofList]; exact hsplit), hsplit,
      lead?_eq (List.cons_ne_nil c first) fun h => hdot (List.cons.inj h).1]
    simp only [List.filterMap_cons]
    cases step? (c :: first) <;> rfl
  · obtain ⟨first, rest, hsplit⟩ := exists_split '/' steps
    refine ⟨(lead? false first).toList ++ rest.filterMap step?, fun cs _ => ?_⟩
    have hempty : (rest ++ split '/' cs).isEmpty = false := by simp [split_ne_nil]
    have hpieces : split '/' (Path.mk (String.ofList (steps ++ ['/'] ++ cs))).text.toList =
        first :: (rest ++ split '/' cs) := by
      rw [String.toList_ofList, List.append_assoc, List.singleton_append, split_append, hsplit, List.cons_append]
    rw [components_eq hpieces, hempty, List.filterMap_append, List.append_assoc]

theorem same_iff {p q : Path} : p.same q = true ↔ p.components = q.components := by
  rw [same, beq_iff_eq]

theorem exists_sibling (p : Path) (name : String) :
    ∃ front, Leading front ∧ (p.sibling name).text.toList = front ++ name.toList := by
  unfold sibling
  split
  · next parent _ =>
    unfold join
    split
    · exact ⟨[], .inl rfl, rfl⟩
    · split
      · next hlast =>
        obtain ⟨steps, hsteps⟩ := List.getLast?_eq_some_iff.1 hlast
        exact ⟨parent.text.toList, .inr ⟨steps, hsteps⟩, String.toList_append⟩
      · refine ⟨parent.text.toList ++ ['/'], .inr ⟨_, rfl⟩, ?_⟩
        rw [String.toList_append, String.toList_append]
        rfl
  · exact ⟨[], .inl rfl, rfl⟩

/-- A text whose only dot stands in front of an extension. -/
def Extended (cs : List Char) : Prop :=
  ∃ body e, cs = body ++ '.' :: e ∧ '.' ∉ body ∧ '/' ∉ e ∧ e ≠ [] ∧ e ≠ ['.']

theorem Extended.ne_dots {cs : List Char} (h : Extended cs) {piece : List Char} (hpiece : piece ∈ split '/' cs) :
    piece ≠ ['.'] ∧ piece ≠ ['.', '.'] := by
  obtain ⟨body, e, rfl, hbody, he, hempty, hdot⟩ := h
  exact ne_dots_of_mem_split hbody he ⟨hempty, hdot⟩ hpiece

theorem Extended.append {name cs : List Char} (hname : '.' ∉ name) (h : Extended cs) : Extended (name ++ cs) := by
  obtain ⟨body, e, rfl, hbody, he⟩ := h
  refine ⟨name ++ body, e, (List.append_assoc ..).symm, ?_, he⟩
  rw [List.mem_append, not_or]
  exact ⟨hname, hbody⟩

theorem Extended.getLast? {cs : List Char} (h : Extended cs) : ∃ c, cs.getLast? = some c ∧ c ≠ '/' := by
  obtain ⟨body, e, rfl, -, he, hempty, -⟩ := h
  obtain ⟨c, hc⟩ := Option.ne_none_iff_exists'.1 (mt List.getLast?_eq_none_iff.1 hempty)
  refine ⟨c, ?_, ?_⟩
  · rw [List.getLast?_append, List.getLast?_cons, hc]
    rfl
  · rintro rfl
    exact he (List.mem_of_getLast? hc)

theorem Extended.filterMap_step? {c : Char} {cs : List Char} (h : Extended (c :: cs)) (hc : c ≠ '/') :
    (split '/' (c :: cs)).filterMap step? = ((steps (c :: cs)).1 :: (steps (c :: cs)).2).map
      fun piece => .name (String.ofList piece) := by
  rw [Path.filterMap_step? fun piece hpiece => h.ne_dots hpiece]
  obtain ⟨first, rest, hsplit⟩ := exists_split '/' cs
  have hsplit := split_cons hc hsplit
  rw [steps_eq hsplit, hsplit]
  rfl

theorem name_injective : Function.Injective fun piece => Component.name (String.ofList piece) := by
  intro piece piece' h
  exact String.ofList_injective (Component.name.inj h)

/-- Behind the same steps, texts with an extension are the same place if they agree up to repeated
slashes. -/
theorem same_behind_iff {front cs ds : List Char} {c d : Char} (hfront : Leading front)
    (hc : c ≠ '/' ∧ c ≠ '.') (hd : d ≠ '/' ∧ d ≠ '.') (hcs : Extended (c :: cs)) (hds : Extended (d :: ds)) :
    (⟨String.ofList (front ++ c :: cs)⟩ : Path).same ⟨String.ofList (front ++ d :: ds)⟩ = true ↔
      squeeze (c :: cs) = squeeze (d :: ds) := by
  obtain ⟨before, hbefore⟩ := hfront.exists_components
  rw [same_iff, hbefore _ ⟨c, cs, rfl, hc⟩, hbefore _ ⟨d, ds, rfl, hd⟩, List.append_cancel_left_eq,
    hcs.filterMap_step? hc.1, hds.filterMap_step? hd.1, List.map_inj_right fun _ _ h => name_injective h,
    squeeze_inj hcs.getLast? hds.getLast?, List.cons.injEq, Prod.ext_iff]

theorem same_extended_iff {p : Path} {front name : List Char} (hp : p.text.toList = front ++ name)
    (hfront : Leading front) (hempty : name ≠ []) (hname : ∀ c ∈ name, c ≠ '/' ∧ c ≠ '.')
    {ending ending' : String} (h : Extended ending.toList) (h' : Extended ending'.toList) :
    (p.extended ending).same (p.extended ending') = true ↔
      squeeze ending.toList = squeeze ending'.toList := by
  obtain ⟨c, cs, rfl⟩ := List.exists_cons_of_ne_nil hempty
  have hslash : '/' ∉ c :: cs := fun hmem => (hname _ hmem).1 rfl
  have hdot : '.' ∉ c :: cs := fun hmem => (hname _ hmem).2 rfl
  have hextended : ∀ ending : String, p.extended ending =
      ⟨String.ofList (front ++ c :: (cs ++ ending.toList))⟩ := by
    intro ending
    rw [extended, ← String.ofList_toList (s := p.text ++ ending), String.toList_append, hp, List.append_assoc]
    rfl
  have hnamed : ∀ {ending}, Extended ending → Extended (c :: (cs ++ ending)) := fun h => h.append hdot
  have hc := hname c List.mem_cons_self
  rw [hextended, hextended, same_behind_iff hfront hc hc (hnamed h) (hnamed h')]
  rw [← List.cons_append, ← List.cons_append, squeeze_append_of_not_mem hslash,
    squeeze_append_of_not_mem hslash, List.append_cancel_left_eq]

theorem getLast?_components {p : Path} {c : Char} (h : p.text.toList.getLast? = some c) (hc : c ≠ '/' ∧ c ≠ '.') :
    ∃ piece, p.components.getLast? = some (.name (String.ofList piece)) ∧ piece.getLast? = some c := by
  obtain ⟨piece, hlast, hpiece⟩ := getLast?_split h hc.1
  have hempty : piece ≠ [] := by
    rintro rfl
    cases hpiece
  have hdot : piece ≠ ['.'] ∧ piece ≠ ['.', '.'] := by
    constructor <;>
    · rintro rfl
      exact hc.2 (Option.some.inj hpiece).symm
  have hstep := step?_eq hempty hdot.1 hdot.2
  obtain ⟨first, rest, hsplit⟩ := exists_split '/' p.text.toList
  refine ⟨piece, ?_, hpiece⟩
  rw [components_eq hsplit]
  rw [hsplit] at hlast
  rcases rest with _ | ⟨second, rest⟩
  · obtain rfl : first = piece := Option.some.inj hlast
    rw [lead?_eq hempty hdot.1, hstep]
    rfl
  · rw [List.getLast?_cons_cons] at hlast
    obtain ⟨before, hbefore⟩ := List.getLast?_eq_some_iff.1 hlast
    rw [hbefore, List.filterMap_append, List.filterMap_cons_some hstep, ← List.append_assoc]
    exact List.getLast?_concat

theorem not_same_of_getLast? {p q : Path} {c d : Char} (hp : p.text.toList.getLast? = some c)
    (hq : q.text.toList.getLast? = some d) (hc : c ≠ '/' ∧ c ≠ '.') (hd : d ≠ '/' ∧ d ≠ '.') (h : c ≠ d) :
    p.same q = false := by
  obtain ⟨piece, hlast, hpiece⟩ := getLast?_components hp hc
  obtain ⟨piece', hlast', hpiece'⟩ := getLast?_components hq hd
  rw [Bool.eq_false_iff, Ne, same_iff]
  intro hsame
  rw [hsame, hlast', Option.some.injEq] at hlast
  obtain rfl := name_injective hlast
  exact h (Option.some.inj (hpiece.symm.trans hpiece'))

end Path

end CompactAssembly

import Unstamp.Path.Display
import Unstamp.Proofs.Path

namespace Unstamp.Path
variable {p root : Path} {n : Name} {names : List Name}

def joinAll (p : Path) (names : List Name) : Path :=
  names.foldl join p

def base (p : Path) : Path :=
  if p = [] ∨ p.getLast? = some slash then p else p ++ [slash]

theorem join_eq (p n : Path) : join p n = base p ++ n := by
  rw [join, base]
  split
  · rfl
  · rw [List.append_assoc, List.singleton_append]

private theorem base_join (h : IsNormal n) (p : Path) : base (join p n) = join p n ++ [slash] := by
  obtain ⟨hne, -, -, hslash⟩ := h
  have hlast : (join p n).getLast? = n.getLast? := by
    rw [join_eq, List.getLast?_append, List.getLast?_eq_some_getLast hne, Option.some_or]
  rw [base, if_neg]
  rintro (h | h)
  · rw [join_eq] at h
    exact hne (List.append_eq_nil_iff.mp h).2
  · exact hslash (List.mem_of_getLast? (hlast ▸ h))

/-- Names put after a path one by one come after it with slashes between them. -/
private theorem joinAll_eq (hne : names ≠ []) (h : ∀ n ∈ names, IsNormal n) (p : Path) :
    joinAll p names = base p ++ joinWith slash names := by
  induction names generalizing p with
  | nil => contradiction
  | cons n names ih =>
    obtain ⟨hn, hnames⟩ := List.forall_mem_cons.mp h
    cases names with
    | nil => exact join_eq p n
    | cons m names =>
      change joinAll (join p n) (m :: names) = _
      rw [ih (List.cons_ne_nil m names) hnames, base_join hn, join_eq, List.append_assoc,
        List.append_assoc, List.singleton_append]
      rfl

private theorem layout_append_slash (hp : p ≠ []) (r : Path) :
    layout (p ++ slash :: r) = ⟨p.layout.start, p.layout.body ++ segments r⟩ := by
  obtain ⟨a, s, rfl⟩ := List.exists_cons_of_ne_nil hp
  have hdot : (s ++ slash :: r = [] ∨ (s ++ slash :: r).head? = some slash) ↔
      (s = [] ∨ s.head? = some slash) := by
    cases s <;> simp
  simp only [List.cons_append, layout, hdot]
  split
  · rw [segments_append_slash]
  split
  · rw [segments_append_slash]
  · rw [← List.cons_append, segments_append_slash]

/-- Where a path goes on after a slash, its segments go on. -/
private theorem exists_layout_append_slash (p : Path) :
    ∃ start body, ∀ r, layout (p ++ slash :: r) = ⟨start, body ++ segments r⟩ := by
  cases p with
  | nil => exact ⟨.root, [], fun r => by rw [List.nil_append, layout, if_pos rfl, List.nil_append]⟩
  | cons a p => exact ⟨_, _, fun r => layout_append_slash (List.cons_ne_nil a p) r⟩

private theorem layout_joinWith (hne : names ≠ []) (h : ∀ n ∈ names, IsNormal n) :
    layout (joinWith slash names) = ⟨.bare, names⟩ := by
  have hsegments := Place.segments_joinWith (fun n hn => (h n hn).2.2.2) hne
  obtain ⟨n, ns, rfl⟩ := List.exists_cons_of_ne_nil hne
  obtain ⟨hnil, hdot, -, hslash⟩ := h n List.mem_cons_self
  obtain ⟨a, s, rfl⟩ := List.exists_cons_of_ne_nil hnil
  obtain ⟨t, ht, hs⟩ : ∃ t, joinWith slash ((a :: s) :: ns) = a :: t ∧ s <+: t := by
    cases ns with
    | nil => exact ⟨s, rfl, List.prefix_refl s⟩
    | cons m ns => exact ⟨_, rfl, List.prefix_append s _⟩
  have hbare : ¬ (a = dot ∧ (t = [] ∨ t.head? = some slash)) := by
    rintro ⟨rfl, hstart⟩
    obtain ⟨u, rfl⟩ := hs
    cases s with
    | nil => exact hdot rfl
    | cons b s =>
      have hb : b = slash := by simpa using hstart
      simp [hb] at hslash
  have ha : a ≠ slash := by
    rintro rfl
    exact hslash List.mem_cons_self
  rw [ht] at hsegments ⊢
  rw [layout, if_neg ha, if_neg hbare, hsegments]

/-- A segment ends at a slash or where the path ends. -/
private theorem start_of_segments {ss : List Name} (h : segments p = [] :: ss) :
    p = [] ∨ p.head? = some slash := by
  cases p with
  | nil => exact .inl rfl
  | cons a p =>
    obtain ⟨u, us, hu⟩ := List.exists_cons_of_ne_nil (splitWhere_ne_nil (· == slash) p)
    rw [segments, splitWhere, hu] at h
    dsimp only at h
    split at h
    · rename_i ha
      exact .inr (congrArg some (beq_iff_eq.mp ha))
    · cases h

/-- The empty path alone has no steps. -/
private theorem components_ne_nil (hp : p ≠ []) : p.components ≠ [] := by
  obtain ⟨a, s, rfl⟩ := List.exists_cons_of_ne_nil hp
  rw [components, layout]
  split
  · exact List.cons_ne_nil _ _
  split
  · exact List.cons_ne_nil _ _
  rename_i ha hdot
  obtain ⟨u, us, hu⟩ := List.exists_cons_of_ne_nil (splitWhere_ne_nil (· == slash) s)
  have hsegments : segments (a :: s) = (a :: u) :: us := by
    rw [segments, splitWhere, hu]
    exact if_neg (by simpa using ha)
  have hstep : ¬ (a :: u = [] ∨ a :: u = [dot]) := by
    rintro (h | h)
    · cases h
    · obtain ⟨rfl, rfl⟩ := List.cons.inj h
      exact hdot ⟨rfl, start_of_segments hu⟩
  obtain ⟨c, hc⟩ : ∃ c, step? (a :: u) = some c := by
    rw [step?, if_neg hstep]
    split <;> exact ⟨_, rfl⟩
  rw [hsegments, List.filterMap_cons_some hc]
  exact List.cons_ne_nil _ _

theorem base_eq_nil_or_concat (p : Path) : p = [] ∨ ∃ q, base p = q ++ [slash] := by
  by_cases hp : p = [] ∨ p.getLast? = some slash
  · rw [base, if_pos hp]
    exact hp.imp_right List.getLast?_eq_some_iff.mp
  · exact .inr ⟨p, if_neg hp⟩

private theorem layout_base (hp : p ≠ []) : (base p).layout.start = p.layout.start ∧
    (base p).layout.body.filterMap step? = p.layout.body.filterMap step? := by
  rw [base]
  split
  · exact ⟨rfl, rfl⟩
  · rw [layout_append_slash hp []]
    refine ⟨rfl, ?_⟩
    rw [List.filterMap_append]
    exact List.append_nil _

/-- Names put after a path are the last of its segments. Before them stands what makes the steps of
the path. -/
private theorem exists_layout_joinAll (p : Path) :
    ∃ b, b.filterMap step? = p.layout.body.filterMap step? ∧
      ∀ names, names ≠ [] → (∀ n ∈ names, IsNormal n) →
        (joinAll p names).layout = ⟨p.layout.start, b ++ names⟩ := by
  by_cases hp : p = []
  · refine ⟨[], by rw [hp]; rfl, fun names hne h => ?_⟩
    rw [joinAll_eq hne h, base, if_pos (.inl hp), hp]
    exact layout_joinWith hne h
  · obtain ⟨q, hq⟩ := (base_eq_nil_or_concat p).resolve_left hp
    obtain ⟨start, b, hlayout⟩ := exists_layout_append_slash q
    obtain ⟨hstart, hbody⟩ := layout_base hp
    rw [hq, hlayout []] at hstart hbody
    refine ⟨b, ?_, fun names hne h => ?_⟩
    · rw [← hbody, List.filterMap_append]
      exact (List.append_nil _).symm
    · rw [joinAll_eq hne h, hq, List.append_assoc, List.singleton_append, hlayout, ← hstart,
        Place.segments_joinWith (fun n hn => (h n hn).2.2.2) hne]

/-- The steps of segments can be taken off these, with names after them. Of the segments there may
be left some that make no step. -/
private theorem exists_bodyAfter (b names : List Name) :
    ∃ j, (∀ s ∈ j, step? s = none) ∧
      bodyAfter (b.filterMap step?) (b ++ names) = some (j ++ names) := by
  induction b with
  | nil => exact ⟨[], List.forall_mem_nil _, by rw [List.filterMap_nil, bodyAfter]⟩
  | cons s b ih =>
    obtain ⟨j, hj, hafter⟩ := ih
    cases hs : step? s with
    | some c =>
      refine ⟨j, hj, ?_⟩
      rw [List.filterMap_cons_some hs, List.cons_append, bodyAfter, hs]
      simp only [if_true, hafter]
    | none =>
      rw [List.filterMap_cons_none hs]
      cases hb : b.filterMap step? with
      | nil =>
        -- Nothing is taken off any more, not even what makes no step.
        refine ⟨s :: b, List.forall_mem_cons.mpr ⟨hs, List.filterMap_eq_nil_iff.mp hb⟩, ?_⟩
        rw [bodyAfter]
      | cons c cs =>
        refine ⟨j, hj, ?_⟩
        rw [List.cons_append, bodyAfter, hs, ← hb]
        exact hafter

/-- What makes no step is left out before names, and is not there after them. -/
private theorem trimLeft_trimRight_append {j : List Name} (hj : ∀ s ∈ j, step? s = none)
    (h : ∀ n ∈ names, IsNormal n) : trimLeft (trimRight (j ++ names)) = names := by
  have hj' : ∀ s ∈ j, (step? s).isNone = true := by simpa using hj
  cases names with
  | nil =>
    have hnil : trimRight (j ++ []) = [] := by
      rw [trimRight, List.append_nil, ← List.append_nil j.reverse,
        List.dropWhile_append_of_pos (by simpa using hj)]
      rfl
    rw [hnil]
    rfl
  | cons n names =>
    rw [trimRight_append (List.cons_ne_nil n names) h, trimLeft, List.dropWhile_append_of_pos hj']
    exact List.dropWhile_cons_of_neg (by simp [(h n List.mem_cons_self).step?])

/-- What is left of a path after the steps of a root, if it is names. -/
theorem below?_of_body {b : List Name} (hroot : root ≠ [])
    (hsteps : root.components = p.layout.start.steps ++ b.filterMap step?)
    (hbody : p.layout.body = b ++ names) (h : ∀ n ∈ names, IsNormal n) :
    below? root p = some (joinWith slash names) := by
  obtain ⟨j, hj, hafter⟩ := exists_bodyAfter b names
  have hne := components_ne_nil hroot
  rw [below?, hsteps]
  rw [hsteps] at hne
  -- A start that makes a step has it in common with the root.
  cases hstart : p.layout.start with
  | bare =>
    rw [hstart] at hne
    obtain ⟨c, cs, hcs⟩ := List.exists_cons_of_ne_nil hne
    rw [Start.steps, List.nil_append] at hcs
    rw [hcs] at hafter
    simp only [Start.steps, List.nil_append, hcs, hbody, hafter, Option.map_some,
      trimLeft_trimRight_append hj h]
  | root | here =>
    simp only [Start.steps, List.singleton_append, if_true, hbody, hafter, Option.map_some,
      trimLeft_trimRight_append hj h]

/-- The path is that of these names below the root. -/
structure Below (root : Path) (names : List Name) (p : Path) : Prop where
  nonempty : names ≠ []
  normal : ∀ n ∈ names, IsNormal n
  joined : root.joinAll names = p

namespace Below

theorem path_eq (h : Below root names p) : p = base root ++ joinWith slash names := by
  rw [← h.joined, joinAll_eq h.nonempty h.normal]

theorem joinWith_ne_nil (h : Below root names p) : joinWith slash names ≠ [] := by
  intro hnil
  have hsegments := Place.segments_joinWith (fun n hn => (h.normal n hn).2.2.2) h.nonempty
  rw [hnil] at hsegments
  exact (h.normal [] (by rw [← hsegments]; decide)).1 rfl

theorem below?_eq (h : Below root names p) : below? root p = some (joinWith slash names) := by
  by_cases hroot : root = []
  · have hcomponents : components [] = [] := rfl
    have htrim : trimRight names = names := trimRight_append h.nonempty h.normal []
    rw [h.path_eq, base, if_pos (.inl hroot), hroot, List.nil_append, below?, hcomponents]
    simp only [layout_joinWith h.nonempty h.normal, htrim]
    rfl
  · obtain ⟨b, hb, hlayout⟩ := exists_layout_joinAll root
    have hp : p.layout = ⟨root.layout.start, b ++ names⟩ :=
      h.joined ▸ hlayout names h.nonempty h.normal
    refine below?_of_body (b := b) hroot ?_ ?_ h.normal
    · rw [hp, hb, components]
    · rw [hp]

end Below

end Unstamp.Path
